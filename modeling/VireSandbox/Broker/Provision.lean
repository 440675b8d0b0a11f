import VireSandbox.Broker.Undo
/-!
# The domains — provisioned again and again

Every call of `vire_domains` writes one cell, over whatever was there, so
that a run whose calls all take effect leaves the same broker whatever
runs were cut before it. What the exit status says of a run is lost in
one place: the outcomes of the two `add_user` calls are written over, and
a run that fails only there ends with `EXIT_SUCCESS` over a stale account
(`vireDomains_sound_iff`).
-/

namespace VireSandbox

namespace Broker

variable {R : Type} {absentOk : Bool} {b b' : Broker R} {fails : ℕ → Bool} {k : Cell}
variable {cs : List (Call R)} {known : List Cell} {u : String}

/-! ## Calls that write -/

/-- **Calls that write and all take effect** are a list of writes. -/
theorem after_eq_puts (h : Writing cs) :
    (service R absentOk).after b cs = Store.puts b (cs.filterMap Call.write) := by
  induction cs generalizing b with
  | nil => rfl
  | cons c cs ih =>
    obtain ⟨hc, hcs⟩ := List.forall_mem_cons.1 h
    obtain ⟨w, hw⟩ := Option.isSome_iff_exists.1 hc
    rw [Service.after_cons, List.filterMap_cons_some hw, Store.puts_cons,
      ← (effect_of_write hw).1]
    exact ih hcs

/-- **They forget what was there before.** -/
theorem after_congr (h : Writing cs)
    (hagree : Store.AgreeOn (fun k => k ∉ cs.map Call.cell) b b') :
    (service R absentOk).after b cs = (service R absentOk).after b' cs := by
  rw [after_eq_puts h, after_eq_puts h]
  refine Store.puts_congr (hagree.mono fun k hk hmem => hk ?_)
  obtain ⟨c, hc, rfl⟩ := List.mem_map.1 hmem
  obtain ⟨w, hw⟩ := Option.isSome_iff_exists.1 (h c hc)
  rw [← (effect_of_write (b := b) hw).2]
  exact List.mem_map_of_mem (List.mem_filterMap.2 ⟨c, hc, hw⟩)

/-- Each call has what it needs of what is known to be there and of what
the calls before it made. -/
def Supplied (absentOk : Bool) (known : List Cell) : List (Call R) → Prop
  | [] => True
  | c :: cs => (∀ k ∈ c.needs absentOk, k ∈ known) ∧ Supplied absentOk (c.cell :: known) cs

/-- **Calls that are supplied go through** unless they are made to fail. -/
theorem goesThrough_of_supplied (h : Supplied absentOk known cs) (hwriting : Writing cs)
    (hknown : ∀ k ∈ known, b.Has k) (hfails : ∀ n < cs.length, fails n = false) :
    (service R absentOk).GoesThrough fails b cs := by
  induction cs generalizing b known fails with
  | nil => trivial
  | cons c cs ih =>
    obtain ⟨hneeds, hrest⟩ := h
    obtain ⟨hc, hcs⟩ := List.forall_mem_cons.1 hwriting
    obtain ⟨w, hw⟩ := Option.isSome_iff_exists.1 hc
    obtain ⟨heffect, hcell⟩ := effect_of_write (b := b) hw
    refine ⟨hfails 0 (by simp), accepts_iff.2 fun k hk => hknown k (hneeds k hk), ?_⟩
    refine ih hrest hcs (fun k hk => ?_) fun n hn => hfails (n + 1) (by simpa using hn)
    change (c.effect b).Has k
    rw [heffect, has_put_iff, hcell]
    rcases List.mem_cons.1 hk with rfl | hk
    · exact .inl rfl
    · exact .inr (hknown k hk)

/-- **Calls that are supplied go through exactly where none is made to fail
and what they build on is there.** -/
theorem goesThrough_iff_of_supplied (h : Supplied absentOk known cs) (hwriting : Writing cs)
    (hneeded : ∀ k ∈ known, ∃ c ∈ cs, k ∈ c.needs absentOk)
    (huntouched : ∀ k ∈ known, ∀ c ∈ cs, ¬ c.Touches k) :
    (service R absentOk).GoesThrough fails b cs ↔
      (∀ n < cs.length, fails n = false) ∧ ∀ k ∈ known, b.Has k := by
  constructor
  · intro hgoes
    refine ⟨fun n hn => hgoes.not_fails hn, fun k hk => ?_⟩
    -- a call that needs the cell is accepted, and none before it made it
    obtain ⟨c, hc, hneeds⟩ := hneeded k hk
    obtain ⟨t, ht, haccepts⟩ := hgoes.accepts (fun t : Broker R => t k = b k)
      (fun c t hc ht => (c.effect_agreeOn t k (huntouched k hk c hc)).trans ht) rfl hc
    have hhas := accepts_iff.1 haccepts k hneeds
    rwa [Has, ht] at hhas
  · rintro ⟨hfails, hknown⟩
    exact goesThrough_of_supplied h hwriting hknown hfails

/-! ## One run -/

/-- The users the calls past the first two need. -/
def domainUsers : List Cell := [.user "supernemo_adm", .user "vireserver", .user "cmslapp"]

theorem supplied_domainCalls (L : Rights R) : Supplied absentOk domainUsers (domainCalls L) := by
  simp [Supplied, domainCalls, Call.needs, Call.cell, domainUsers]

theorem writing_domainCalls (L : Rights R) : Writing (domainCalls L) := by
  simp [Writing, domainCalls, Call.write]

theorem needed_domainCalls (L : Rights R) (absentOk : Bool) (hk : k ∈ domainUsers) :
    ∃ c ∈ domainCalls L, k ∈ c.needs absentOk := by
  simp only [domainUsers, List.mem_cons, List.not_mem_nil, or_false] at hk
  rcases hk with rfl | rfl | rfl <;> simp [domainCalls, Call.needs]

theorem untouched_domainCalls (L : Rights R) {c : Call R} (hk : k ∈ domainUsers)
    (hc : c ∈ domainCalls L) : ¬ c.Touches k := by
  obtain ⟨u, rfl⟩ : ∃ u, k = .user u := by
    simp only [domainUsers, List.mem_cons, List.not_mem_nil, or_false] at hk
    rcases hk with rfl | rfl | rfl <;> exact ⟨_, rfl⟩
  revert c
  simp [domainCalls, Call.Touches]

/-- The two calls whose outcomes are not kept. -/
def userCalls : List (Call R) :=
  [.addUser "vireserver" "vireserver", .addUser "cmslapp" "cmslapp"]

/-- All the calls of `vire_domains`. -/
def vireDomainsCalls (L : Rights R) : List (Call R) := userCalls ++ domainCalls L

theorem writing_vireDomainsCalls (L : Rights R) : Writing (vireDomainsCalls L) := by
  intro c hc
  rcases List.mem_append.1 hc with hc | hc
  · simp only [userCalls, List.mem_cons, List.not_mem_nil, or_false] at hc
    rcases hc with rfl | rfl <;> rfl
  · exact writing_domainCalls L c hc

/-- The broker past the two users, each made unless its call fails. -/
def withUsers (fails : ℕ → Bool) (b : Broker R) : Broker R :=
  let b' := if fails 0 then b else Call.effect b (.addUser "vireserver" "vireserver")
  if fails 1 then b' else Call.effect b' (.addUser "cmslapp" "cmslapp")

/-- An account is never refused. -/
theorem perform_addUser {f : Bool} {password : String} {r : Progress (Broker R)} :
    (service R absentOk).perform f (.addUser u password) r =
      if f then ⟨false, r.state, true⟩
      else ⟨true, Call.effect r.state (.addUser u password), r.failed⟩ := by
  have haccepts : (service R absentOk).accepts r.state (.addUser u password) = true :=
    accepts_iff.2 nofun
  cases f with
  | true => exact Service.perform_of_fails (.inl rfl)
  | false => exact Service.perform_of_accepts haccepts

/-- **A run is its guarded calls, over whatever users were made.** -/
theorem run_vireDomains (L : Rights R) (fails : ℕ → Bool) (b : Broker R) :
    (service R absentOk).run (vireDomains L) fails b =
      (service R absentOk).exec ((domainCalls L).map .ifOk) (fun n => fails (n + 3))
        ⟨true, withUsers fails b, fails 0 || fails 1⟩ := by
  unfold Service.run vireDomains
  rw [Service.exec_append]
  congr 1
  cases h0 : fails 0 <;> cases h1 : fails 1 <;>
    simp [Service.execStmt, perform_addUser, withUsers, h0, h1]

/-- Which users are there for the guarded calls. -/
theorem has_withUsers : (withUsers fails b).Has (.user u) ↔
    b.Has (.user u) ∨ (fails 0 = false ∧ u = "vireserver") ∨ (fails 1 = false ∧ u = "cmslapp") := by
  have hadd : ∀ (b : Broker R) name password,
      (Call.effect b (.addUser name password)).Has (.user u) ↔ u = name ∨ b.Has (.user u) :=
    fun b name password =>
    has_put_iff.trans (or_congr (by simp) Iff.rfl)
  unfold withUsers
  cases h0 : fails 0 <;> cases h1 : fails 1 <;> simp [hadd] <;> tauto

/-- **The guarded calls go through exactly where none is made to fail and
every user they need is there.** -/
theorem goesThrough_domainCalls_iff {L : Rights R} :
    (service R absentOk).GoesThrough fails b (domainCalls L) ↔
      (∀ n < (domainCalls L).length, fails n = false) ∧ ∀ k ∈ domainUsers, b.Has k :=
  goesThrough_iff_of_supplied (supplied_domainCalls L) (writing_domainCalls L)
    (fun _ hk => needed_domainCalls L absentOk hk) fun _ hk _ hc => untouched_domainCalls L hk hc

/-- **A run that goes through** leaves the flag up, and only its users can
have failed. -/
theorem run_vireDomains_of_goesThrough {L : Rights R}
    (h : (service R absentOk).GoesThrough (fun n => fails (n + 3)) (withUsers fails b)
      (domainCalls L)) :
    (service R absentOk).run (vireDomains L) fails b =
      ⟨true, (service R absentOk).after (withUsers fails b) (domainCalls L),
        fails 0 || fails 1⟩ := by
  rw [run_vireDomains, Service.exec_ifOk h rfl]

/-- And one that does not ends with `EXIT_FAILURE`. -/
theorem run_vireDomains_cut {L : Rights R}
    (h : ¬ (service R absentOk).GoesThrough (fun n => fails (n + 3)) (withUsers fails b)
      (domainCalls L)) :
    ((service R absentOk).run (vireDomains L) fails b).ok = false := by
  rw [run_vireDomains]
  exact Service.exec_ifOk_cut h

/-! ## Any number of runs -/

/-- The broker after runs that each have their own failures. -/
def runs (L : Rights R) (absentOk : Bool) (history : List (ℕ → Bool)) (b : Broker R) : Broker R :=
  history.foldl (fun b fails => ((service R absentOk).run (vireDomains L) fails b).state) b

/-- **The runs change nothing but what the program names.** -/
theorem runs_agreeOn (L : Rights R) (absentOk : Bool) (history : List (ℕ → Bool)) (b : Broker R) :
    Store.AgreeOn (fun k => k ∉ (vireDomainsCalls L).map Call.cell)
      (runs L absentOk history b) b := by
  refine Service.reruns_invariant
    (fun t : Broker R => Store.AgreeOn (fun k => k ∉ (vireDomainsCalls L).map Call.cell) t b)
    (fun c t hc h _ => ?_) history .refl
  replace hc : c ∈ vireDomainsCalls L := by
    simpa [vireDomains, vireDomainsCalls, userCalls, or_assoc] using hc
  refine ((c.effect_agreeOn t).mono fun k hk htouch => hk ?_).trans h
  rw [touches_of_write (writing_vireDomainsCalls L c hc) htouch]
  exact List.mem_map_of_mem hc

/-- The administrator is none of the program's making. -/
theorem admin_not_named (L : Rights R) :
    .user "supernemo_adm" ∉ (vireDomainsCalls L).map Call.cell := by
  simp [vireDomainsCalls, userCalls, domainCalls, Call.cell]

/-- No failure of an `add_user` call of the last run is dropped: neither
fails, or something after them does. -/
def Reported (L : Rights R) (fails : ℕ → Bool) (b : Broker R) : Prop :=
  (fails 0 = false ∧ fails 1 = false) ∨
    (∃ n < (domainCalls L).length, fails (n + 3) = true) ∨
    ¬ b.Has (.user "supernemo_adm") ∨
    (fails 0 = true ∧ ¬ b.Has (.user "vireserver")) ∨
    (fails 1 = true ∧ ¬ b.Has (.user "cmslapp"))

/-- A run of which nothing fails is the writes of all its calls. -/
theorem run_vireDomains_of_not_fails {L : Rights R} (h0 : fails 0 = false) (h1 : fails 1 = false)
    (hlater : ∀ n < (domainCalls L).length, fails (n + 3) = false)
    (hadm : b.Has (.user "supernemo_adm")) :
    (service R absentOk).run (vireDomains L) fails b =
      ⟨true, (service R absentOk).after b (vireDomainsCalls L), false⟩ := by
  have husers : ∀ k ∈ domainUsers, (withUsers fails b).Has k := by
    simp [domainUsers, has_withUsers, h0, h1, hadm]
  have hwith : withUsers fails b = (service R absentOk).after b userCalls := by
    simp [withUsers, h0, h1, userCalls, service]
  rw [run_vireDomains_of_goesThrough (goesThrough_domainCalls_iff.2 ⟨hlater, husers⟩), hwith, h0,
    h1, ← Service.after_append]
  rfl

/-- Where the guarded calls are cut, a failure is reported. -/
theorem reported_of_not_goesThrough {L : Rights R}
    (h : ¬ (service R absentOk).GoesThrough (fun n => fails (n + 3)) (withUsers fails b)
      (domainCalls L)) : Reported L fails b := by
  by_contra hlost
  simp only [Reported, not_or, not_exists, not_and, not_not, Bool.not_eq_true] at hlost
  obtain ⟨-, hlater, hadm, hvire, hcmslapp⟩ := hlost
  refine h (goesThrough_domainCalls_iff.2 ⟨hlater, ?_⟩)
  simp only [domainUsers, List.mem_cons, List.not_mem_nil, or_false, forall_eq_or_imp, forall_eq,
    has_withUsers]
  refine ⟨.inl hadm, ?_, ?_⟩
  · cases h0 : fails 0 with
    | true => exact .inl (hvire h0)
    | false => exact .inr (.inl ⟨rfl, trivial⟩)
  · cases h1 : fails 1 with
    | true => exact .inl (hcmslapp h1)
    | false => exact .inr (.inr ⟨rfl, trivial⟩)

/-- And where they go through, only if no account has failed. -/
theorem Reported.not_fails {L : Rights R} (h : Reported L fails b)
    (hgoes : (service R absentOk).GoesThrough (fun n => fails (n + 3)) (withUsers fails b)
      (domainCalls L)) : fails 0 = false ∧ fails 1 = false := by
  obtain ⟨hlater, husers⟩ := goesThrough_domainCalls_iff.1 hgoes
  simp only [domainUsers, List.mem_cons, List.not_mem_nil, or_false, forall_eq_or_imp, forall_eq,
    has_withUsers] at husers
  obtain ⟨hadm, hvire, hcmslapp⟩ := husers
  rcases h with h | ⟨n, hn, hfails⟩ | hnone | ⟨h0, hnone⟩ | ⟨h1, hnone⟩
  · exact h
  · rw [hlater n hn] at hfails
    cases hfails
  · simp [hnone] at hadm
  · simp [h0, hnone] at hvire
  · simp [h1, hnone] at hcmslapp

/-- **The exit status is sound, and the runs converge, exactly where no
failure of an account is dropped.** For every broker there was before,
after any number of runs with any failures: a last run that ends with
`EXIT_SUCCESS` leaves what one run without a failure makes of the first
broker, and one with a failure ends with `EXIT_FAILURE`, if and only if
neither `add_user` call of the last run fails, or a later call does. -/
theorem vireDomains_sound_iff (L : Rights R) (absentOk : Bool) (b : Broker R)
    (history : List (ℕ → Bool)) (fails : ℕ → Bool) :
    let before := runs L absentOk history b
    let last := (service R absentOk).run (vireDomains L) fails before
    let clean := (service R absentOk).run (vireDomains L) (fun _ => false) b
    ((exitsSuccess last = true → clean.failed = false ∧ last.state = clean.state) ∧
      (last.failed = true → exitsSuccess last = false)) ↔
    Reported L fails before := by
  have hagree := runs_agreeOn L absentOk history b
  have hadmin : (runs L absentOk history b).Has (.user "supernemo_adm") ↔
      b.Has (.user "supernemo_adm") := by
    rw [Has, Has, hagree _ (admin_not_named L)]
  intro before last clean
  by_cases hgoes : (service R absentOk).GoesThrough (fun n => fails (n + 3))
      (withUsers fails before) (domainCalls L)
  · have hlast : last = _ := run_vireDomains_of_goesThrough hgoes
    constructor
    · rintro ⟨-, hsound⟩
      rw [hlast] at hsound
      have hno : ¬ (fails 0 || fails 1) = true := fun hf => by cases hsound hf
      exact .inl (by simpa using hno)
    · intro hreported
      obtain ⟨h0, h1⟩ := hreported.not_fails hgoes
      obtain ⟨hlater, husers⟩ := goesThrough_domainCalls_iff.1 hgoes
      have hadm : before.Has (.user "supernemo_adm") := by
        simpa [has_withUsers] using husers (.user "supernemo_adm") (by simp [domainUsers])
      have hlast : last = _ := run_vireDomains_of_not_fails h0 h1 hlater hadm
      have hclean : clean = _ :=
        run_vireDomains_of_not_fails rfl rfl (fun _ _ => rfl) (hadmin.1 hadm)
      rw [hlast, hclean]
      exact ⟨fun _ => ⟨rfl, after_congr (writing_vireDomainsCalls L) hagree⟩,
        fun hfailed => by cases hfailed⟩
  · have hlast : last.ok = false := run_vireDomains_cut hgoes
    refine iff_of_true ⟨fun hok => ?_, fun _ => hlast⟩ (reported_of_not_goesThrough hgoes)
    rw [exitsSuccess, hlast] at hok
    cases hok

/-- The password of an account. -/
def password (b : Broker R) (u : String) : Option String := b (.user u)

/-- The first call fails, and no other. -/
def staleRun (n : ℕ) : Bool := n = 0

/-- **A stale account is reported as provisioned.** -/
theorem not_sound_staleRun :
    let last := (service (List String) false).run (vireDomains askedRights) staleRun plainBroker
    let clean := (service (List String) false).run (vireDomains askedRights) (fun _ => false)
      plainBroker
    last.failed = true ∧ exitsSuccess last = true ∧ clean.failed = false ∧
      last.state.password "vireserver" = some "secret" ∧
      clean.state.password "vireserver" = some "vireserver" ∧
      last.state ≠ clean.state := by
  have hlast : ((service (List String) false).run (vireDomains askedRights) staleRun
      plainBroker).state.password "vireserver" = some "secret" := by decide
  have hclean : ((service (List String) false).run (vireDomains askedRights) (fun _ => false)
      plainBroker).state.password "vireserver" = some "vireserver" := by decide
  refine ⟨by decide, by decide, by decide, hlast, hclean, fun heq => ?_⟩
  rw [heq, hclean] at hlast
  simp at hlast

end Broker

end VireSandbox
