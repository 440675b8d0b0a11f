import Mathlib.Data.List.Induction
import Mathlib.Data.List.Pairwise
import VireSandbox.Broker.Recovery
/-!
# The domains — one success is enough

`vire_domains` may be run by several at a time, and each process may be cut
anywhere. Its calls write each cell in one way only, none of them takes
anything away, and the temporary user's programs keep to cells of their
own. So a process that has come through with its flag up has provisioned
the broker for good, whatever the others have done before, in the middle
of it or since (`vireDomains_provisions`): the broker is the one of a run
without a failure, but for the two accounts, whose outcomes the program
does not keep.
-/

namespace VireSandbox

namespace Broker

variable {R : Type} {absentOk : Bool} {b b' : Broker R} {k : Cell}
variable {c c' : Call R} {cs : List (Call R)} {L : Rights R}

/-! ## What a call has written -/

/-- The cell of a call holds what the call writes. -/
def Held (c : Call R) (b : Broker R) : Prop := ∀ w, c.write = some w → b w.1 = some w.2

theorem held_effect (c : Call R) (b : Broker R) : Held c (c.effect b) := by
  intro w hw
  rw [(effect_of_write hw).1, Store.put_self]

/-- It does so for as long as nothing else is written there. -/
theorem Held.effect (h : Held c b) (hspared : c'.Touches c.cell → c' = c) :
    Held c (c'.effect b) := by
  by_cases htouch : c'.Touches c.cell
  · rw [hspared htouch]
    exact held_effect c b
  · intro w hw
    have hcell : w.1 = c.cell := (effect_of_write (b := b) hw).2
    rw [c'.effect_agreeOn b w.1 (by rwa [hcell])]
    exact h w hw

/-- And then it is in the cell as in any other broker where it is. -/
theorem Held.eq (h : Held c b) (h' : Held c b') (hwrite : c.write.isSome = true) :
    b c.cell = b' c.cell := by
  obtain ⟨w, hw⟩ := Option.isSome_iff_exists.1 hwrite
  rw [← (effect_of_write (b := b) hw).2, h w hw, h' w hw]

/-- **Calls that write each cell in one way only** leave what each of them
writes. -/
theorem held_after (hwriting : Writing cs)
    (hsame : ∀ c ∈ cs, ∀ c' ∈ cs, c.cell = c'.cell → c = c') (hc : c ∈ cs) :
    Held c ((service R absentOk).after b cs) := by
  induction cs using List.reverseRecOn with
  | nil => cases hc
  | append_singleton cs d ih =>
    rw [Service.after_append]
    change Held c (d.effect ((service R absentOk).after b cs))
    have hd : d ∈ cs ++ [d] := by simp
    have hspared : d.Touches c.cell → d = c := fun htouch =>
      hsame d hd c hc (touches_of_write (hwriting d hd) htouch).symm
    rcases List.mem_append.1 hc with hmem | hmem
    · have hbefore : ∀ a ∈ cs, a ∈ cs ++ [d] := fun a => List.mem_append_left [d]
      exact (ih (fun a ha => hwriting a (hbefore a ha))
        (fun a ha a' ha' => hsame a (hbefore a ha) a' (hbefore a' ha')) hmem).effect hspared
    · rw [List.mem_singleton.1 hmem]
      exact held_effect d _

/-- The calls of `vire_domains` write each cell in one way only: the one
that is written twice is written twice the same. -/
theorem eq_of_cell (hc : c ∈ vireDomainsCalls L) (hc' : c' ∈ vireDomainsCalls L)
    (h : c.cell = c'.cell) : c = c' := by
  have hpairs : (vireDomainsCalls L).Pairwise fun c c' => c.cell = c'.cell → c = c' := by
    simp [vireDomainsCalls, userCalls, domainCalls, Call.cell]
  exact List.Pairwise.forall_of_forall_of_flip (fun _ _ _ => rfl) hpairs
    (hpairs.imp fun hpair heq => (hpair heq.symm).symm) hc hc' h

/-! ## A run without a failure -/

theorem run_clean (hadm : b.Has (.user "supernemo_adm")) :
    (service R absentOk).run (vireDomains L) (fun _ => false) b =
      ⟨true, (service R absentOk).after b (vireDomainsCalls L), false⟩ :=
  run_vireDomains_of_not_fails rfl rfl (fun _ _ => rfl) hadm

/-- What is held is as that run makes it, -/
theorem Held.eq_clean (h : Held c b') (hadm : b.Has (.user "supernemo_adm"))
    (hc : c ∈ vireDomainsCalls L) :
    b' c.cell = ((service R absentOk).run (vireDomains L) (fun _ => false) b).state c.cell := by
  rw [run_clean hadm]
  exact h.eq (held_after (writing_vireDomainsCalls L) (fun _ hc _ => eq_of_cell hc) hc)
    (writing_vireDomainsCalls L c hc)

/-- and off the program's cells it makes nothing. -/
theorem clean_agreeOn (L : Rights R) (absentOk : Bool) (b : Broker R) :
    Store.AgreeOn (fun k => k ∉ (vireDomainsCalls L).map Call.cell)
      ((service R absentOk).run (vireDomains L) (fun _ => false) b).state b :=
  runs_agreeOn L absentOk [fun _ => false] b

/-! ## Among the others -/

theorem not_ofTmpuser_cell (hc : c ∈ vireDomainsCalls L) : ¬ OfTmpuser c.cell :=
  not_ofTmpuser_vireDomains L true hc _ List.mem_cons_self

section Pool

variable {ι : Type} {program : ι → Program} {d : Pool ι (Broker R) (Call R)} {s : Broker R}

/-- **Off the temporary user's cells only `vire_domains` writes**, and
nothing is taken away. -/
theorem mem_vireDomainsCalls_of_touches {j : ι}
    (hc : ((start L program b).chains j).Mentions c) (hk : ¬ OfTmpuser k) (htouch : c.Touches k) :
    c ∈ vireDomainsCalls L ∧ c.cell = k := by
  have hcalls : c ∈ (program j).calls L := mem_calls hc
  by_cases hprogram : program j = .vireDomains
  · rw [hprogram] at hcalls
    exact ⟨hcalls, (touches_of_write (writing_vireDomainsCalls L c hcalls) htouch).symm⟩
  · exact absurd (touches_tmpuser hprogram hcalls htouch) hk

/-- What a call of `vire_domains` has written, no call of any program
changes. -/
theorem held_kept (hc : c ∈ vireDomainsCalls L) {j : ι}
    (hc' : ((start L program b).chains j).Mentions c') (h : Held c s) : Held c (c'.effect s) := by
  refine h.effect fun htouch => ?_
  obtain ⟨hcalls, hcell⟩ := mem_vireDomainsCalls_of_touches hc' (not_ofTmpuser_cell hc) htouch
  exact eq_of_cell hcalls hc hcell

/-- So it lasts. -/
theorem lasting_held (hc : c ∈ vireDomainsCalls L) :
    Service.Lasting (service R absentOk) (start L program b) c (Held c) where
  made := fun s _ => held_effect c s
  kept := fun _ _ _ hc' h _ => held_kept hc hc' h

/-- And what a call of `vire_domains` needs is not taken away behind it. -/
theorem lasting_has (hc : c ∈ vireDomainsCalls L) (hk : k ∈ c.needs absentOk) :
    Service.Lasting (service R absentOk) (start L program b) c (Broker.Has · k) where
  made := fun s haccepts =>
    (accepts_iff.1 haccepts k hk).effect (writing_vireDomainsCalls L c hc)
  kept := by
    intro j c' s hc' h _
    change (c'.effect s).Has k
    by_cases htouch : c'.Touches k
    · have hnot := not_ofTmpuser_vireDomains L absentOk hc k (List.mem_cons_of_mem _ hk)
      obtain ⟨hcalls, -⟩ := mem_vireDomainsCalls_of_touches hc' hnot htouch
      exact h.effect (writing_vireDomainsCalls L c' hcalls)
    · rw [Has, c'.effect_agreeOn s k htouch]
      exact h

variable [DecidableEq ι] {as : List (ι × Bool)} {i : ι}

/-- Off the cells of the programs nothing happens. -/
theorem pool_agreeOn (hrun : (service R absentOk).pool.run (start L program b) as = some d)
    (hk : ¬ OfTmpuser k) (hcell : k ∉ (vireDomainsCalls L).map Call.cell) : d.state k = b k := by
  refine Service.pool_invariant (fun s : Broker R => s k = b k) ?_ rfl hrun
  intro j _ c s hc hs _
  refine (c.effect_agreeOn s k fun htouch => ?_).trans hs
  obtain ⟨hcalls, rfl⟩ := mem_vireDomainsCalls_of_touches hc hk htouch
  exact hcell (List.mem_map_of_mem hcalls)

/-- A cell of `vire_domains` holds what it held before, or what is written
there. -/
theorem pool_stale (hrun : (service R absentOk).pool.run (start L program b) as = some d)
    (hc : c ∈ vireDomainsCalls L) : d.state c.cell = b c.cell ∨ Held c d.state := by
  refine Service.pool_invariant (fun s : Broker R => s c.cell = b c.cell ∨ Held c s) ?_
    (.inl rfl) hrun
  rintro j - c' s hc' (hs | hs) -
  · by_cases htouch : c'.Touches c.cell
    · obtain ⟨hcalls, hcell⟩ := mem_vireDomainsCalls_of_touches hc' (not_ofTmpuser_cell hc) htouch
      rw [eq_of_cell hcalls hc hcell]
      exact .inr (held_effect c s)
    · exact .inl ((c'.effect_agreeOn s _ htouch).trans hs)
  · exact .inr (held_kept hc hc' hs)

/-- **What a guarded call makes to last is so once a process has come
through.** -/
theorem lasting_of_ok {I : Broker R → Prop} (hi : program i = .vireDomains)
    (h : Service.Lasting (service R absentOk) (start L program b) c I) (hc : c ∈ domainCalls L)
    (hrun : (service R absentOk).pool.run (start L program b) as = some d)
    (hended : (d.chains i).rest = []) (hok : (d.chains i).ok = true) : I d.state := by
  obtain ⟨ps, hrest⟩ : ∃ ps, ((start L program b).chains i).rest =
      ps ++ (domainCalls L).map .ifOk := by
    change ∃ ps, (program i).stmts L = ps ++ (domainCalls L).map .ifOk
    rw [hi]
    exact ⟨_, rfl⟩
  exact h.of_ok hrest hc hrun hended hok

/-- So the users that are needed are there, -/
theorem has_of_ok (hi : program i = .vireDomains)
    (hrun : (service R absentOk).pool.run (start L program b) as = some d)
    (hended : (d.chains i).rest = []) (hok : (d.chains i).ok = true) (hk : k ∈ domainUsers) :
    d.state.Has k := by
  obtain ⟨c, hc, hneeds⟩ := needed_domainCalls L absentOk hk
  exact lasting_of_ok hi (lasting_has (List.mem_append_right userCalls hc) hneeds) hc hrun hended
    hok

/-- and the administrator, whom no program makes, was so before. -/
theorem admin_of_ok (hi : program i = .vireDomains)
    (hrun : (service R absentOk).pool.run (start L program b) as = some d)
    (hended : (d.chains i).rest = []) (hok : (d.chains i).ok = true) :
    b.Has (.user "supernemo_adm") := by
  have hsame : d.state (.user "supernemo_adm") = b (.user "supernemo_adm") :=
    pool_agreeOn hrun (by decide) (admin_not_named L)
  have hhas := has_of_ok hi hrun hended hok (k := .user "supernemo_adm") (by simp [domainUsers])
  rwa [Has, hsame] at hhas

/-- And what an account's call makes, where none of its calls has failed. -/
theorem held_of_not_failed (hi : program i = .vireDomains)
    (hrun : (service R absentOk).pool.run (start L program b) as = some d)
    (hended : (d.chains i).rest = []) (hfailed : (d.chains i).failed = false)
    (hc : c ∈ userCalls) : Held c d.state := by
  have hmem : .assign c ∈ ((start L program b).chains i).rest := by
    change .assign c ∈ (program i).stmts L
    rw [hi]
    simpa [Program.stmts, vireDomains, userCalls] using hc
  exact (lasting_held (List.mem_append_left (domainCalls L) hc)).of_not_failed hmem hrun hended
    hfailed

end Pool

/-- **One success is enough.** For every broker, any number of processes of
the programs and every order of their statements, with any failures: where
some process of `vire_domains` is through and would exit with
`EXIT_SUCCESS`, wherever the others are, the broker off the temporary
user's cells is what a run without a failure makes of the first one, but
for the two accounts; these are there, each as it was or as that run makes
it, and as that run makes it if no call of the process has failed. -/
theorem vireDomains_provisions {ι : Type} [DecidableEq ι] (L : Rights R) (absentOk : Bool)
    (program : ι → Program) (b : Broker R) (as : List (ι × Bool))
    (d : Pool ι (Broker R) (Call R))
    (hrun : (service R absentOk).pool.run (start L program b) as = some d) (i : ι)
    (hi : program i = .vireDomains) (hended : (d.chains i).rest = [])
    (hok : (d.chains i).ok = true) :
    let clean := (service R absentOk).run (vireDomains L) (fun _ => false) b
    let accounts := (userCalls : List (Call R)).map Call.cell
    clean.failed = false ∧
    (∀ k, ¬ OfTmpuser k → k ∉ accounts → d.state k = clean.state k) ∧
    (∀ k ∈ accounts, d.state.Has k ∧ (d.state k = b k ∨ d.state k = clean.state k)) ∧
    ((d.chains i).failed = false → ∀ k, ¬ OfTmpuser k → d.state k = clean.state k) := by
  have hadm := admin_of_ok hi hrun hended hok
  intro clean accounts
  have hguarded : ∀ k, ¬ OfTmpuser k → k ∉ accounts → d.state k = clean.state k := by
    intro k hk haccount
    by_cases hcell : k ∈ (vireDomainsCalls L).map Call.cell
    · obtain ⟨c, hc, rfl⟩ := List.mem_map.1 hcell
      have hdomain : c ∈ domainCalls L :=
        (List.mem_append.1 hc).resolve_left fun hmem => haccount (List.mem_map_of_mem hmem)
      exact (lasting_of_ok hi (lasting_held hc) hdomain hrun hended hok).eq_clean hadm hc
    · exact (pool_agreeOn hrun hk hcell).trans (clean_agreeOn L absentOk b k hcell).symm
  refine ⟨congrArg Progress.failed (run_clean hadm), hguarded, ?_, ?_⟩
  · intro k hk
    have huser : k ∈ domainUsers := by
      simp only [accounts, userCalls, Call.cell, List.map_cons, List.map_nil, List.mem_cons,
        List.not_mem_nil, or_false] at hk
      rcases hk with rfl | rfl <;> simp [domainUsers]
    obtain ⟨c, hc, rfl⟩ := List.mem_map.1 hk
    have hcalls : c ∈ vireDomainsCalls L := List.mem_append_left (domainCalls L) hc
    exact ⟨has_of_ok hi hrun hended hok huser,
      (pool_stale hrun hcalls).imp_right fun hheld => hheld.eq_clean hadm hcalls⟩
  · intro hfailed k hk
    by_cases haccount : k ∈ accounts
    · obtain ⟨c, hc, rfl⟩ := List.mem_map.1 haccount
      exact (held_of_not_failed hi hrun hended hfailed hc).eq_clean hadm
        (List.mem_append_left (domainCalls L) hc)
    · exact hguarded k hk haccount

/-- Two processes of `vire_domains`: an account of the first fails, the
second fails at each of its accounts and goes on behind it. -/
def twiceRun : List (Bool × Bool) :=
  (false, true) :: List.replicate 9 (false, false) ++ List.replicate 2 (true, true) ++
    List.replicate 18 (false, false) ++ List.replicate 4 (true, false)

theorem vireDomains_provisions_twiceRun :
    ∃ d, (service (List String) false).pool.run
        (start askedRights (fun _ : Bool => .vireDomains) plainBroker) twiceRun = some d ∧
      (d.chains false).failed = true ∧ (d.chains true).rest ≠ [] ∧
      ((service (List String) false).run (vireDomains askedRights) (fun _ => false)
        plainBroker).failed = false := by
  have hthrough : ∀ d ∈ (service (List String) false).pool.run
      (start askedRights (fun _ : Bool => .vireDomains) plainBroker) twiceRun,
      (d.chains false).rest = [] ∧ (d.chains false).ok = true ∧
        (d.chains false).failed = true ∧ (d.chains true).rest ≠ [] := by
    decide +kernel
  obtain ⟨d, hrun⟩ : ∃ d, (service (List String) false).pool.run
      (start askedRights (fun _ : Bool => .vireDomains) plainBroker) twiceRun = some d := ⟨_, rfl⟩
  obtain ⟨hended, hok, hfailed, hunder⟩ := hthrough d hrun
  obtain ⟨hclean, -⟩ := vireDomains_provisions askedRights false (fun _ : Bool => .vireDomains)
    plainBroker twiceRun d hrun false rfl hended hok
  exact ⟨d, hrun, hfailed, hunder, hclean⟩

end Broker

end VireSandbox
