import VireSandbox.Broker.Provision
import VireSandbox.Common.Interleaving
/-!
# The programs together — undisturbed, and recovered

The three programs are processes of their own, and any number of them may
be under way on one broker, in the middle of each other. The temporary
user has its cells, and `vire_domains` neither reads nor writes them, so
that it does not notice the others (`vireDomains_undisturbed`). Whatever
they have left in these cells, in particular a vhost that
`del_tmpuser_wxCVbn` no longer finds, is taken away by adding the user and
deleting it once more (`tmpuser_recovered`), and a run of
`add_tmpuser_wxCVbn` that ends with `EXIT_SUCCESS` is as good as the first
(`addTmpuser_converges`).
-/

namespace VireSandbox

namespace Broker

variable {R : Type} {absentOk : Bool} {b b' : Broker R} {fails : ℕ → Bool} {k : Cell}
variable {c : Call R} {p : Cell → Prop}

/-! ## Regions of a broker -/

/-- **A call stays inside a region** that has what it needs. -/
theorem within_of_needs (hneeds : ∀ k ∈ c.needs absentOk, p k) : (service R absentOk).Within p c where
  accepts := by
    intro s t h
    rw [Bool.eq_iff_iff, accepts_iff, accepts_iff]
    refine forall₂_congr fun k hk => ?_
    rw [Has, Has, h k (hneeds k hk)]
  effect := by
    intro s t h k hk
    change c.effect s k = c.effect t k
    by_cases htouch : c.Touches k
    · cases hwrite : c.write with
      | some w =>
        obtain rfl : k = w.1 :=
          (touches_of_write (by simp [hwrite]) htouch).trans (effect_of_write (b := s) hwrite).2.symm
        rw [(effect_of_write hwrite).1, (effect_of_write hwrite).1, Store.put_self, Store.put_self]
      | none =>
        cases c with
        | deleteUser u =>
          have hk' : k.OfUser u := htouch
          exact (Store.clear_of_pos hk').trans (Store.clear_of_pos hk').symm
        | deleteVhost v =>
          have hk' : k.OfVhost v := htouch
          exact (Store.clear_of_pos hk').trans (Store.clear_of_pos hk').symm
        | _ => cases hwrite
    · exact (c.effect_agreeOn s k htouch).trans ((h k hk).trans (c.effect_agreeOn t k htouch).symm)

/-- **And spares a region** that it touches nothing of. -/
theorem spares_of_touches (h : ∀ k, c.Touches k → ¬ p k) : (service R absentOk).Spares p c :=
  fun s => (c.effect_agreeOn s).mono fun k hk htouch => h k htouch hk

/-! ## The programs -/

/-- What is run on the broker. -/
inductive Program
  | vireDomains
  | addTmpuser
  | delTmpuser
  deriving DecidableEq, Repr

/-- The statements of a program. -/
def Program.stmts (L : Rights R) : Program → List (Stmt (Call R))
  | vireDomains => Broker.vireDomains L
  | addTmpuser => Broker.addTmpuser L
  | delTmpuser => Broker.delTmpuser

/-- The cells of the temporary user. -/
def OfTmpuser (k : Cell) : Prop := k.OfVhost tmpVhost ∨ k.OfUser "wxCVbn"

/-- The calls of a program. -/
def Program.calls (L : Rights R) : Program → List (Call R)
  | vireDomains => vireDomainsCalls L
  | addTmpuser => addTmpuserCalls L
  | delTmpuser => [.deleteUser "wxCVbn", .deleteVhost tmpVhost]

theorem mem_calls {L : Rights R} {program : Program}
    (h : Chain.Mentions (.start (program.stmts L)) c) : c ∈ program.calls L := by
  cases program with
  | vireDomains =>
    simpa [Chain.Mentions, Chain.start, Program.stmts, Program.calls, vireDomains,
      vireDomainsCalls, userCalls, or_assoc] using h
  | addTmpuser => simpa [Chain.Mentions, Chain.start, Program.stmts, Program.calls, addTmpuser] using h
  | delTmpuser => simpa [Chain.Mentions, Chain.start, Program.stmts, Program.calls, delTmpuser] using h

instance decidableOfTmpuser : DecidablePred OfTmpuser := fun _ => inferInstanceAs (Decidable (_ ∨ _))

/-- `vire_domains` needs and writes nothing of the temporary user. -/
theorem not_ofTmpuser_vireDomains (L : Rights R) (absentOk : Bool)
    (hc : c ∈ vireDomainsCalls L) :
    ∀ k ∈ c.cell :: c.needs absentOk, ¬ OfTmpuser k := by
  have hall : (vireDomainsCalls L).all (fun c =>
      (c.cell :: c.needs absentOk).all fun k => decide (¬ OfTmpuser k)) = true := rfl
  simpa using List.all_eq_true.1 hall c hc

theorem within_vireDomains {L : Rights R} (hc : c ∈ vireDomainsCalls L) :
    (service R absentOk).Within (fun k => ¬ OfTmpuser k) c :=
  within_of_needs fun k hk =>
    not_ofTmpuser_vireDomains L absentOk hc k (List.mem_cons_of_mem _ hk)

/-- Nor does it touch anything else than it writes. -/
theorem touches_vireDomains {L : Rights R} (hc : c ∈ vireDomainsCalls L) (htouch : c.Touches k) :
    ¬ OfTmpuser k := by
  rw [touches_of_write (writing_vireDomainsCalls L c hc) htouch]
  exact not_ofTmpuser_vireDomains L true hc _ List.mem_cons_self

/-- The others touch nothing else than what is the temporary user's. -/
theorem touches_tmpuser {L : Rights R} {program : Program} (hprogram : program ≠ .vireDomains)
    (hc : c ∈ program.calls L) (htouch : c.Touches k) : OfTmpuser k := by
  cases program with
  | vireDomains => exact absurd rfl hprogram
  | delTmpuser =>
    rcases List.mem_pair.1 hc with rfl | rfl
    · exact .inr htouch
    · exact .inl htouch
  | addTmpuser =>
    have hcells : ∀ c ∈ addTmpuserCalls L, OfTmpuser c.cell := by
      simp [addTmpuserCalls, Call.cell, OfTmpuser, Cell.OfVhost, Cell.OfUser]
    rw [touches_of_write (writing_addTmpuserCalls L c hc) htouch]
    exact hcells c hc

theorem spares_tmpuser {L : Rights R} {program : Program} (hprogram : program ≠ .vireDomains)
    (hc : c ∈ program.calls L) : (service R absentOk).Spares (fun k => ¬ OfTmpuser k) c :=
  spares_of_touches fun _ htouch => not_not_intro (touches_tmpuser hprogram hc htouch)

/-! ## Any number of them at once -/

variable {ι : Type} [DecidableEq ι]

/-- Programs on their way. -/
def start (L : Rights R) (program : ι → Program) (b : Broker R) : Pool ι (Broker R) (Call R) :=
  ⟨fun i => .start ((program i).stmts L), b⟩

/-- A process of `vire_domains`. -/
def provisions (program : ι → Program) (i : ι) : Bool := program i = .vireDomains

variable {L : Rights R} {program : ι → Program} {as : List (ι × Bool)}
variable {c' d' : Pool ι (Broker R) (Call R)}

/-- **The processes of `vire_domains` alone**: what they and the cells that
are not the temporary user's come to is told by their own steps. -/
theorem exists_alone (hrun : (service R absentOk).pool.run (start L program b) as = some c') :
    ∃ d', (service R absentOk).pool.run (start L program b)
        (as.filter fun a => provisions program a.1) = some d' ∧
      Service.LooksLike (fun k => ¬ OfTmpuser k) (provisions program) c' d' := by
  refine Service.run_filter ?_ ?_ ⟨fun _ _ => rfl, .refl⟩ hrun
  · intro i hi c hc
    have hprogram : program i = .vireDomains := by simpa [provisions] using hi
    have hcalls := mem_calls hc
    rw [hprogram] at hcalls
    exact within_vireDomains hcalls
  · intro i hi c hc
    have hprogram : program i ≠ .vireDomains := by simpa [provisions] using hi
    exact spares_tmpuser hprogram (mem_calls hc)

/-- They put nothing in the temporary user's cells. -/
theorem alone_ofTmpuser
    (hrun : (service R absentOk).pool.run (start L program b)
      (as.filter fun a => provisions program a.1) = some d') (hk : OfTmpuser k) :
    d'.state k = b k := by
  refine Service.pool_invariant (fun s : Broker R => s k = b k) ?_ rfl hrun
  intro i hi c s hc hs _
  obtain ⟨a, ha, rfl⟩ := List.mem_map.1 hi
  have hprogram : program a.1 = .vireDomains := by
    simpa [provisions] using (List.mem_filter.1 ha).2
  have hcalls := mem_calls hc
  rw [hprogram] at hcalls
  exact (c.effect_agreeOn s k fun htouch => touches_vireDomains hcalls htouch hk).trans hs

/-- Every program keeps a broker well-formed, in the middle of others. -/
theorem pool_wellFormed (hwf : b.WellFormed)
    (hrun : (service R absentOk).pool.run (start L program b) as = some c') :
    c'.state.WellFormed := by
  refine Service.pool_invariant (fun s : Broker R => s.WellFormed) ?_ hwf hrun
  intro i _ c s _ hs haccepts
  exact hs.effect (accepts_iff.1 haccepts)

/-- The temporary user's cells hold nothing that `add_tmpuser_wxCVbn` does
not write. -/
theorem pool_ofTmpuser (hempty : ∀ k, OfTmpuser k → b k = none)
    (hrun : (service R absentOk).pool.run (start L program b) as = some c') (hk : OfTmpuser k)
    (hcell : k ∉ (addTmpuserCalls L).map Call.cell) : c'.state k = none := by
  refine Service.pool_invariant (fun s : Broker R => s k = none) ?_ (hempty k hk) hrun
  intro i _ c s hc hs _
  change c.effect s k = none
  by_cases htouch : c.Touches k
  · have hcalls := mem_calls hc
    cases hprogram : program i with
    | vireDomains =>
      rw [hprogram] at hcalls
      exact absurd hk (touches_vireDomains hcalls htouch)
    | addTmpuser =>
      rw [hprogram] at hcalls
      have hk' := touches_of_write (writing_addTmpuserCalls L c hcalls) htouch
      exact absurd (List.mem_map.2 ⟨c, hcalls, hk'.symm⟩) hcell
    | delTmpuser =>
      rw [hprogram] at hcalls
      rcases List.mem_pair.1 hcalls with rfl | rfl
      · have hk' : k.OfUser "wxCVbn" := htouch
        exact Store.clear_of_pos hk'
      · have hk' : k.OfVhost tmpVhost := htouch
        exact Store.clear_of_pos hk'
  · exact (c.effect_agreeOn s k htouch).trans hs

/-- A well-formed broker without the user and the vhost has nothing of
theirs. -/
theorem empty_ofTmpuser (hwf : b.WellFormed) (huser : ¬ b.Has (.user "wxCVbn"))
    (hvhost : ¬ b.Has (.vhost tmpVhost)) : ∀ k, OfTmpuser k → b k = none := by
  rintro k (hk | hk)
  · exact hwf.empty_of_vhost hvhost k hk
  · exact hwf.empty_of_user huser k hk

/-! ## One more run of each -/

/-- Where the user is there, and nothing fails, both its cells and those of
its vhost are emptied. -/
theorem run_delTmpuser_of_user (hwf : b.WellFormed) (huser : b.Has (.user "wxCVbn"))
    (hfails : ∀ n < 2, fails n = false) :
    ((service R absentOk).run delTmpuser fails b).state =
      Store.clear (Store.clear b (Cell.OfUser "wxCVbn")) (Cell.OfVhost tmpVhost) := by
  have h0 : fails 0 = true → ¬ b.Has (.user "wxCVbn") := by simp [hfails 0]
  rcases run_delete_cases fails b needs_deleteUser h0 [.deleteVhost tmpVhost] with
    hrun | ⟨hno, -⟩
  · change ((service R absentOk).run ([.deleteUser "wxCVbn", .deleteVhost tmpVhost].map .ifOk)
      fails b).state = _
    have hnone : ∀ k ∈ (Call.deleteUser "wxCVbn" : Call R).needs true, b.Has k := nofun
    have hwf' : (Call.effect b (.deleteUser "wxCVbn")).WellFormed := hwf.effect hnone
    have h1 : fails (0 + 1) = true →
        ¬ (Call.effect b (.deleteUser "wxCVbn")).Has (.vhost tmpVhost) := by simp [hfails 1]
    rw [hrun]
    rcases run_delete_cases (fun n => fails (n + 1)) (Call.effect b (.deleteUser "wxCVbn"))
      needs_deleteVhost h1 [] with hrun | ⟨hno, hrun⟩
    · rw [hrun]
      rfl
    · -- a vhost that is not there has nothing to delete
      rw [hrun]
      exact (Store.clear_of_empty (hwf'.empty_of_vhost hno)).symm
  · exact absurd huser hno

/-- An account whose call does not fail is made. -/
theorem has_user_run_addTmpuser (hfails : fails 0 = false) :
    ((service R absentOk).run (addTmpuser L) fails b).state.Has (.user "wxCVbn") := by
  obtain ⟨cs, hcs⟩ : ∃ cs, addTmpuserCalls L = .addUser "wxCVbn" "wxCVbn" :: cs := ⟨_, rfl⟩
  unfold addTmpuser
  rw [hcs]
  rcases (service R absentOk).run_ifOk_cases fails b (.addUser "wxCVbn" "wxCVbn") cs with
    ⟨-, -, hrun⟩ | ⟨hfail | hrefused, -⟩
  · rw [hrun]
    refine Service.exec_invariant (fun b : Broker R => b.Has (.user "wxCVbn")) ?_ ?_
    · intro c s hc h _
      have hcall : c ∈ addTmpuserCalls L := by
        rw [hcs]
        exact List.mem_cons_of_mem _ (by simpa using hc)
      exact h.effect (writing_addTmpuserCalls L c hcall)
    · exact has_put_iff.2 (.inl rfl)
  · rw [hfails] at hfail
    cases hfail
  · have haccepts : (service R absentOk).accepts b (.addUser "wxCVbn" "wxCVbn") = true :=
      accepts_iff.2 nofun
    rw [haccepts] at hrefused
    cases hrefused

/-- **`vire_domains` is not disturbed.** For every broker, any number of
processes of the programs and every order of their statements, with any
failures: the processes of `vire_domains` are where their own statements
alone lead them, with the same flags, and off the temporary user's cells
the broker is what these statements alone make of it. -/
theorem vireDomains_undisturbed (L : Rights R) (absentOk : Bool) (program : ι → Program)
    (b : Broker R) (as : List (ι × Bool)) (c' : Pool ι (Broker R) (Call R))
    (hrun : (service R absentOk).pool.run (start L program b) as = some c') :
    ∃ d', (service R absentOk).pool.run (start L program b)
        (as.filter fun a => program a.1 = .vireDomains) = some d' ∧
      (∀ i, program i = .vireDomains → c'.chains i = d'.chains i) ∧
      (∀ k, ¬ OfTmpuser k → c'.state k = d'.state k) ∧ ∀ k, OfTmpuser k → d'.state k = b k := by
  obtain ⟨d', hrun', hlooks⟩ := exists_alone hrun
  exact ⟨d', hrun', fun i hi => hlooks.chains i (decide_eq_true hi), hlooks.state,
    fun k => alone_ofTmpuser hrun'⟩

/-- **So one process of `vire_domains` ends as it would have by itself**, in
the midst of any others: with the exit status of the program run alone, and
its broker off the temporary user's cells. -/
theorem vireDomains_exit {i : ι} (hsingle : ∀ j, program j = .vireDomains ↔ j = i)
    (hrun : (service R absentOk).pool.run (start L program b) as = some c')
    (hended : (c'.chains i).rest = []) :
    let bits := (as.filter fun a => provisions program a.1).map Prod.snd
    let last := (service R absentOk).run (vireDomains L) (fun n => bits.getD n false) b
    (c'.chains i).ok = exitsSuccess last ∧ ∀ k, ¬ OfTmpuser k → c'.state k = last.state k := by
  obtain ⟨d', hrun', hlooks⟩ := exists_alone hrun
  intro bits last
  have hi : provisions program i = true := decide_eq_true ((hsingle i).2 rfl)
  have hsteps : (as.filter fun a => provisions program a.1) = bits.map (i, ·) := by
    rw [List.map_map]
    refine (List.map_id _).symm.trans (List.map_congr_left fun a ha => ?_)
    have ha' : a.1 = i := (hsingle a.1).1 (of_decide_eq_true (List.mem_filter.1 ha).2)
    exact Prod.ext ha' rfl
  rw [hsteps] at hrun'
  have hself := Service.run_self (hlooks.chains i hi ▸ hended) hrun'
  have hstart : (start L program b).chains i = .start (vireDomains L) := by
    change Chain.start ((program i).stmts L) = _
    rw [(hsingle i).2 rfl]
    rfl
  rw [hstart] at hself
  have hok : (d'.chains i).ok = last.ok := congrArg Progress.ok hself
  have hstate : d'.state = last.state := congrArg Progress.state hself
  exact ⟨by rw [hlooks.chains i hi, hok]; rfl, fun k hk => by rw [hlooks.state k hk, hstate]⟩

/-- The user is added in the middle of a run of `vire_domains`, and the
deletion of its vhost fails. -/
def crossedRun : List (Program × Bool) :=
  List.replicate 5 (.vireDomains, false) ++ List.replicate 9 (.addTmpuser, false) ++
    [(.vireDomains, false), (.delTmpuser, false), (.vireDomains, false), (.delTmpuser, true)]

theorem vireDomains_undisturbed_crossedRun :
    ∃ c', (service (List String) false).pool.run (start askedRights id plainBroker) crossedRun =
        some c' ∧
      ∃ d', (service (List String) false).pool.run (start askedRights id plainBroker)
          (List.replicate 7 (.vireDomains, false)) = some d' ∧
        c'.chains .vireDomains = d'.chains .vireDomains := by
  obtain ⟨c', hrun⟩ : ∃ c', (service (List String) false).pool.run
      (start askedRights id plainBroker) crossedRun = some c' := ⟨_, rfl⟩
  obtain ⟨d', hrun', hchains, -⟩ :=
    vireDomains_undisturbed askedRights false id plainBroker crossedRun c' hrun
  exact ⟨c', hrun, d', hrun', hchains .vireDomains rfl⟩

/-- **The temporary user is always recovered.** For every well-formed broker
without the user and its vhost, any number of processes of the programs and
every order of their statements, with any failures and wherever they stand:
a run of `add_tmpuser_wxCVbn` whose first call does not fail, and one of
`del_tmpuser_wxCVbn` without a failure behind it, leave the broker that the
statements of `vire_domains` alone have made. -/
theorem tmpuser_recovered (L : Rights R) (absentOk : Bool) (program : ι → Program)
    (b : Broker R) (hwf : b.WellFormed) (huser : ¬ b.Has (.user "wxCVbn"))
    (hvhost : ¬ b.Has (.vhost tmpVhost)) (as : List (ι × Bool))
    (c' : Pool ι (Broker R) (Call R))
    (hrun : (service R absentOk).pool.run (start L program b) as = some c')
    (failsAdd failsDel : ℕ → Bool) (hadd : failsAdd 0 = false)
    (hdel : ∀ n < 2, failsDel n = false) :
    ∃ d', (service R absentOk).pool.run (start L program b)
        (as.filter fun a => program a.1 = .vireDomains) = some d' ∧
      ((service R absentOk).run delTmpuser failsDel
        ((service R absentOk).run (addTmpuser L) failsAdd c'.state).state).state = d'.state := by
  obtain ⟨d', hrun', hlooks⟩ := exists_alone hrun
  refine ⟨d', hrun', ?_⟩
  have hwf' : ((service R absentOk).run (addTmpuser L) failsAdd c'.state).state.WellFormed :=
    (pool_wellFormed hwf hrun).exec
  have hagree : Store.AgreeOn (fun k => ¬ OfTmpuser k)
      ((service R absentOk).run (addTmpuser L) failsAdd c'.state).state d'.state :=
    (addTmpuser_agreeOn L absentOk failsAdd c'.state).trans hlooks.state
  rw [run_delTmpuser_of_user hwf' (has_user_run_addTmpuser hadd) hdel, Store.clear_clear]
  refine Store.clear_eq_of_agreeOn hagree fun k hk => ?_
  rw [alone_ofTmpuser hrun' hk]
  exact empty_ofTmpuser hwf huser hvhost k hk

theorem tmpuser_recovered_crossedRun :
    ∃ c', (service (List String) false).pool.run (start askedRights id plainBroker) crossedRun =
        some c' ∧ ¬ c'.state.Has (.user "wxCVbn") ∧ c'.state.Has (.vhost tmpVhost) ∧
      ¬ ((service (List String) false).run delTmpuser (fun _ => false)
        ((service (List String) false).run (addTmpuser askedRights) (fun _ => false)
          c'.state).state).state.Has (.vhost tmpVhost) := by
  have hstranded : ∀ c' ∈ (service (List String) false).pool.run
      (start askedRights id plainBroker) crossedRun,
      ¬ c'.state.Has (.user "wxCVbn") ∧ c'.state.Has (.vhost tmpVhost) := by decide
  have hwf : plainBroker.WellFormed := ⟨nofun, nofun⟩
  obtain ⟨c', hrun⟩ : ∃ c', (service (List String) false).pool.run
      (start askedRights id plainBroker) crossedRun = some c' := ⟨_, rfl⟩
  obtain ⟨d', hrun', hrecovered⟩ := tmpuser_recovered askedRights false id plainBroker hwf
    (by decide) (by decide) crossedRun c' hrun (fun _ => false) (fun _ => false) rfl
    (fun _ _ => rfl)
  have hvhost : OfTmpuser (.vhost tmpVhost) := .inl rfl
  refine ⟨c', hrun, (hstranded c' hrun).1, (hstranded c' hrun).2, ?_⟩
  rw [hrecovered, Has, alone_ofTmpuser hrun' hvhost]
  decide

/-! ## A run that ends well -/

/-- What `add_tmpuser_wxCVbn` builds on. -/
def tmpuserNeeds : List Cell :=
  [.vhost "/supernemo/demonstrator/cms/vire/control",
    .vhost "/supernemo/demonstrator/cms/vire/monitoring",
    .user "vireserver", .user "supernemo_adm"]

theorem not_ofTmpuser_tmpuserNeeds : ∀ k ∈ tmpuserNeeds, ¬ OfTmpuser k := by decide

theorem goesThrough_addTmpuserCalls_iff :
    (service R absentOk).GoesThrough fails b (addTmpuserCalls L) ↔
      (∀ n < (addTmpuserCalls L).length, fails n = false) ∧ ∀ k ∈ tmpuserNeeds, b.Has k := by
  refine goesThrough_iff_of_supplied ?_ (writing_addTmpuserCalls L) ?_ ?_
  · simp [Supplied, addTmpuserCalls, Call.needs, Call.cell, tmpuserNeeds]
  · intro k hk
    simp only [tmpuserNeeds, List.mem_cons, List.not_mem_nil, or_false] at hk
    rcases hk with rfl | rfl | rfl | rfl <;> simp [addTmpuserCalls, Call.needs]
  · intro k hk c hc htouch
    have hprogram : Program.addTmpuser ≠ .vireDomains := by decide
    exact not_ofTmpuser_tmpuserNeeds k hk (touches_tmpuser hprogram hc htouch)

/-- **A run of `add_tmpuser_wxCVbn` that ends with `EXIT_SUCCESS` is as good
as the first.** For every well-formed broker without the user and its
vhost, any number of processes of the programs and every order of their
statements, with any failures and wherever they stand: a further run ends
with `EXIT_SUCCESS` if and only if none of its calls fails and what it
builds on is among what the statements of `vire_domains` alone have made;
and it then leaves what a run without a failure makes of that. -/
theorem addTmpuser_converges (L : Rights R) (absentOk : Bool) (program : ι → Program)
    (b : Broker R) (hwf : b.WellFormed) (huser : ¬ b.Has (.user "wxCVbn"))
    (hvhost : ¬ b.Has (.vhost tmpVhost)) (as : List (ι × Bool))
    (c' : Pool ι (Broker R) (Call R))
    (hrun : (service R absentOk).pool.run (start L program b) as = some c') (fails : ℕ → Bool) :
    ∃ d', (service R absentOk).pool.run (start L program b)
        (as.filter fun a => program a.1 = .vireDomains) = some d' ∧
      (exitsSuccess ((service R absentOk).run (addTmpuser L) fails c'.state) = true ↔
        (∀ n < (addTmpuserCalls L).length, fails n = false) ∧
          ∀ k ∈ tmpuserNeeds, d'.state.Has k) ∧
      (exitsSuccess ((service R absentOk).run (addTmpuser L) fails c'.state) = true →
        ((service R absentOk).run (addTmpuser L) fails c'.state).state =
          ((service R absentOk).run (addTmpuser L) (fun _ => false) d'.state).state) := by
  obtain ⟨d', hrun', hlooks⟩ := exists_alone hrun
  have hempty := empty_ofTmpuser hwf huser hvhost
  have hneeds : (∀ k ∈ tmpuserNeeds, c'.state.Has k) ↔ ∀ k ∈ tmpuserNeeds, d'.state.Has k := by
    refine forall₂_congr fun k hk => ?_
    rw [Has, Has, hlooks.state k (not_ofTmpuser_tmpuserNeeds k hk)]
  refine ⟨d', hrun', ?_⟩
  rw [← hneeds, ← goesThrough_addTmpuserCalls_iff]
  by_cases hgoes : (service R absentOk).GoesThrough fails c'.state (addTmpuserCalls L)
  · have hlast : (service R absentOk).run (addTmpuser L) fails c'.state =
        ⟨true, (service R absentOk).after c'.state (addTmpuserCalls L), false⟩ :=
      Service.exec_ifOk hgoes rfl
    have hclean : (service R absentOk).run (addTmpuser L) (fun _ => false) d'.state =
        ⟨true, (service R absentOk).after d'.state (addTmpuserCalls L), false⟩ :=
      Service.exec_ifOk (goesThrough_addTmpuserCalls_iff.2
        ⟨fun _ _ => rfl, hneeds.1 (goesThrough_addTmpuserCalls_iff.1 hgoes).2⟩) rfl
    rw [hlast, hclean]
    refine ⟨iff_of_true rfl hgoes, fun _ => after_congr (writing_addTmpuserCalls L) ?_⟩
    -- off the cells it writes there is nothing of the temporary user's
    intro k hcell
    by_cases hk : OfTmpuser k
    · rw [pool_ofTmpuser hempty hrun hk hcell, alone_ofTmpuser hrun' hk, hempty k hk]
    · exact hlooks.state k hk
  · have hlast : exitsSuccess ((service R absentOk).run (addTmpuser L) fails c'.state) = false :=
      Service.exec_ifOk_cut hgoes
    rw [hlast]
    exact ⟨iff_of_false Bool.false_ne_true hgoes,
      fun hexits => absurd hexits Bool.false_ne_true⟩

theorem addTmpuser_converges_crossedRun :
    ∃ c', (service (List String) false).pool.run (start askedRights id plainBroker) crossedRun =
        some c' ∧
      exitsSuccess ((service (List String) false).run (addTmpuser askedRights) (fun _ => false)
        c'.state) = true := by
  have hwf : plainBroker.WellFormed := ⟨nofun, nofun⟩
  have hneeds : ∀ d' ∈ (service (List String) false).pool.run
      (start askedRights id plainBroker) (crossedRun.filter fun a => id a.1 = .vireDomains),
      ∀ k ∈ tmpuserNeeds, d'.state.Has k := by decide
  obtain ⟨c', hrun⟩ : ∃ c', (service (List String) false).pool.run
      (start askedRights id plainBroker) crossedRun = some c' := ⟨_, rfl⟩
  obtain ⟨d', hrun', hexits, -⟩ := addTmpuser_converges askedRights false id plainBroker hwf
    (by decide) (by decide) crossedRun c' hrun (fun _ => false)
  exact ⟨c', hrun, hexits.2 ⟨fun _ _ => rfl, hneeds d' hrun'⟩⟩

end Broker

end VireSandbox
