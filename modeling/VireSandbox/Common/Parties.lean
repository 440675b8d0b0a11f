import Mathlib.Algebra.BigOperators.Group.Finset.Piecewise
import Mathlib.Algebra.Order.BigOperators.Group.Finset
import VireSandbox.Common.Machine
/-!
# Parties — machines that share a part of their state

Several machines of one kind, each with a state of its own but for a part
that is one and the same for all. A step of one of them is, for another,
a change of that part; where the machine has moves of an environment that
make such changes, each party runs as the machine does by itself
(`Environs.exists_run_view`). So what every move preserves holds of every
party (`Environs.view_invariant`), and what comes to an end by itself comes
to an end among others (`Environs.ends`).
-/

namespace VireSandbox

/-- **A part of a state**, that can be read and replaced. -/
structure Part (τ σ : Type*) where
  get : τ → σ
  put : τ → σ → τ
  get_put : ∀ t s, get (put t s) = s
  put_get : ∀ t, put t (get t) = t
  put_put : ∀ t s s', put (put t s) s' = put t s'

/-- Parties, and the part they share. What `own` has in its place is not
looked at. -/
structure Parties (ι τ σ : Type*) where
  common : σ
  own : ι → τ

/-- The roles of the moves of each party. -/
def Machine.Roles.parties {α : Type*} (R : Machine.Roles α) (ι : Type*) :
    Machine.Roles (ι × α) where
  work a := R.work a.2
  time a := R.time a.2
  move a := (a.1, R.move a.2)

namespace Part

variable {ι τ σ α : Type*} (P : Part τ σ) (M : Machine τ α)

/-- **What a party sees**: its own state, with the shared part. -/
def view (c : Parties ι τ σ) (i : ι) : τ := P.put (c.own i) c.common

/-- **The machine of the parties**: a step is a step of one of them. -/
def parties [DecidableEq ι] : Machine (Parties ι τ σ) (ι × α) :=
  ⟨fun c a => (M.step (P.view c a.1) a.2).map fun t =>
    ⟨P.get t, Function.update c.own a.1 t⟩⟩

variable {P M} {c c' : Parties ι τ σ} {t : τ} {i : ι}

/-- The shared part is the same for all. -/
@[simp] theorem get_view (c : Parties ι τ σ) (i : ι) : P.get (P.view c i) = c.common := P.get_put ..

variable [DecidableEq ι]

/-- The party that moves sees its own next state. -/
@[simp] theorem view_self (c : Parties ι τ σ) (i : ι) (t : τ) :
    P.view ⟨P.get t, Function.update c.own i t⟩ i = t := by
  show P.put (Function.update c.own i t i) (P.get t) = t
  rw [Function.update_self, P.put_get]

/-- The others see the shared part change. -/
theorem view_ne {j : ι} (hj : j ≠ i) (c : Parties ι τ σ) (t : τ) :
    P.view ⟨P.get t, Function.update c.own i t⟩ j = P.put (P.view c j) (P.get t) := by
  show P.put (Function.update c.own i t j) (P.get t) = P.put (P.put (c.own j) c.common) (P.get t)
  rw [Function.update_of_ne hj, P.put_put]

theorem parties_step_iff {a : ι × α} : (P.parties M).step c a = some c' ↔
    ∃ t, M.step (P.view c a.1) a.2 = some t ∧ c' = ⟨P.get t, Function.update c.own a.1 t⟩ := by
  unfold parties
  rw [Option.map_eq_some_iff]
  exact exists_congr fun t => and_congr_right' eq_comm

/-- **A party can do what the machine can.** -/
theorem run_lift {bs : List α} (hrun : M.run (P.view c i) bs = some t) :
    ∃ c', (P.parties M).run c (bs.map (i, ·)) = some c' ∧ P.view c' i = t := by
  induction bs generalizing c with
  | nil =>
    cases hrun
    exact ⟨c, rfl, rfl⟩
  | cons b bs ih =>
    obtain ⟨u, hstep, hrun⟩ := Machine.run_cons_iff.1 hrun
    have hmove : (P.parties M).step c (i, b) = some ⟨P.get u, Function.update c.own i u⟩ :=
      parties_step_iff.2 ⟨u, hstep, rfl⟩
    obtain ⟨c', hrun', hview⟩ := ih (c := ⟨P.get u, Function.update c.own i u⟩)
      (by rwa [view_self])
    refine ⟨c', ?_, hview⟩
    rw [List.map_cons, Machine.run_cons hmove, hrun']

/-! ## An environment that makes what the others do -/

variable (P M) in
/-- **The environment stands for the others**: what a step makes of the
shared part, a move that is not one's own makes of it as well. -/
def Environs (own : α → Bool) : Prop :=
  ∀ t a t' u, M.step t a = some t' → P.get u = P.get t →
    P.put u (P.get t') = u ∨ ∃ b, own b = false ∧ M.step u b = some (P.put u (P.get t'))

/-- The moves of a party that are its own. -/
def moves (own : α → Bool) (i : ι) (as : List (ι × α)) : List α :=
  ((as.filter fun a => a.1 = i).map Prod.snd).filter own

variable {own : α → Bool} {as : List (ι × α)}

/-- What a party sees of a step: its own, one of the environment, or none. -/
theorem Environs.view_step (henv : Environs P M own) {a : ι × α}
    (hs : (P.parties M).step c a = some c') (j : ι) :
    (a.1 = j ∧ M.step (P.view c j) a.2 = some (P.view c' j)) ∨
    a.1 ≠ j ∧ (P.view c' j = P.view c j ∨
      ∃ b, own b = false ∧ M.step (P.view c j) b = some (P.view c' j)) := by
  obtain ⟨t, hstep, rfl⟩ := parties_step_iff.1 hs
  by_cases hj : a.1 = j
  · subst hj
    exact .inl ⟨rfl, by rw [hstep, view_self]⟩
  · right
    rw [view_ne (Ne.symm hj)]
    exact ⟨hj, henv _ _ _ _ hstep (by simp)⟩

/-- **Each party runs as the machine does by itself**, with its own moves in
their order. -/
theorem Environs.exists_run_view (henv : Environs P M own)
    (hrun : (P.parties M).run c as = some c') (i : ι) :
    ∃ bs, M.run (P.view c i) bs = some (P.view c' i) ∧ bs.filter own = moves own i as := by
  induction as generalizing c with
  | nil =>
    cases hrun
    exact ⟨[], rfl, rfl⟩
  | cons a as ih =>
    obtain ⟨d, hstep, hrun⟩ := Machine.run_cons_iff.1 hrun
    obtain ⟨bs, hbs, hmoves⟩ := ih hrun
    rcases henv.view_step hstep i with ⟨hi, hview⟩ | ⟨hi, hview | ⟨b, hb, hview⟩⟩
    · refine ⟨a.2 :: bs, by rw [Machine.run_cons hview, hbs], ?_⟩
      simp only [moves, hi, decide_true, List.filter_cons_of_pos, List.map_cons]
      rw [List.filter_cons, List.filter_cons, hmoves]
      rfl
    · refine ⟨bs, hview ▸ hbs, ?_⟩
      simpa [moves, hi] using hmoves
    · refine ⟨b :: bs, by rw [Machine.run_cons hview, hbs], ?_⟩
      rw [List.filter_cons_of_neg (by simp [hb]), hmoves]
      simp [moves, hi]

/-- **What every move preserves holds of every party.** -/
theorem Environs.view_invariant (henv : Environs P M own) (I : τ → Prop)
    (hI : ∀ t a t', I t → M.step t a = some t' → I t') (h : I (P.view c i))
    (hrun : (P.parties M).run c as = some c') : I (P.view c' i) := by
  obtain ⟨bs, hbs, -⟩ := henv.exists_run_view hrun i
  exact Machine.run_invariant I hI h hbs

/-- **What ends by itself ends among others**: the work of all of them is
bounded by what each has left, and until each is at its goal some is due. -/
theorem Environs.ends [Fintype ι] (henv : Environs P M own) (R : Machine.Roles α)
    (goal : τ → Prop) (I : τ → Prop) (μ : τ → ℕ)
    (hI : ∀ t a t', I t → M.step t a = some t' → I t')
    (hμ : ∀ t a t', I t → M.step t a = some t' → μ t' + (if R.work a then 1 else 0) ≤ μ t)
    (hdue : ∀ t, I t → ¬ goal t → M.Due (fun _ _ => True) R t) (h : ∀ i, I (P.view c i)) :
    (P.parties M).Ends (fun _ _ => True) (R.parties ι) (fun c => ∀ i, goal (P.view c i)) c := by
  have hI' : ∀ (c : Parties ι τ σ) a c', (∀ i, I (P.view c i)) → (P.parties M).step c a = some c' →
      ∀ i, I (P.view c' i) := by
    intro c a c' h hs i
    rcases henv.view_step hs i with ⟨-, hview⟩ | ⟨-, hview | ⟨b, -, hview⟩⟩
    · exact hI _ _ _ (h i) hview
    · exact hview ▸ h i
    · exact hI _ _ _ (h i) hview
  refine Machine.Ends.of_measure (fun c => ∀ i, I (P.view c i)) (fun c => ∑ i, μ (P.view c i))
    (fun c a c' h _ hs => hI' c a c' h hs) ?_ ?_ h
  · intro c a c' h _ hs
    -- the party that moves pays for its work, and the others pay for nothing
    have hle : ∀ i, μ (P.view c' i) + (if i = a.1 then (if R.work a.2 then 1 else 0) else 0) ≤
        μ (P.view c i) := by
      intro i
      rcases henv.view_step hs i with ⟨hi, hview⟩ | ⟨hi, hview | ⟨b, -, hview⟩⟩
      · rw [if_pos hi.symm]
        exact hμ _ _ _ (h i) hview
      · rw [if_neg (Ne.symm hi), hview, Nat.add_zero]
      · rw [if_neg (Ne.symm hi)]
        exact (Nat.le_add_right _ _).trans (hμ _ _ _ (h i) hview)
    have hsum := Finset.sum_le_sum fun i (_ : i ∈ Finset.univ) => hle i
    rwa [Finset.sum_add_distrib, Finset.sum_ite_eq' Finset.univ a.1,
      if_pos (Finset.mem_univ a.1)] at hsum
  · intro c h hgoal
    obtain ⟨i, hi⟩ := not_forall.1 hgoal
    obtain ⟨ts, t, a, htimes, -, hrun, hwork, -, hopen⟩ := hdue _ (h i) hi
    obtain ⟨c', hrun', hview⟩ := run_lift hrun
    refine ⟨ts.map (i, ·), c', (i, a), ?_, Machine.within_true, hrun', hwork, trivial, ?_⟩
    · intro b hb
      obtain ⟨b', hb', rfl⟩ := List.mem_map.1 hb
      exact htimes b' hb'
    · rintro ⟨j, b⟩ hb -
      obtain ⟨rfl, hmove⟩ := Prod.mk.inj hb
      obtain ⟨u, hstep⟩ := hopen b hmove trivial
      exact ⟨_, parties_step_iff.2 ⟨u, hview ▸ hstep, rfl⟩⟩

end Part

end VireSandbox
