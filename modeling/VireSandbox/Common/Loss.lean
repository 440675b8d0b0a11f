import Mathlib.Data.List.ReduceOption
import VireSandbox.Common.Machine
/-!
# Loss — machines whose steps may have no outcome

In some of its states a system is about to do what has no defined outcome.
It may get over it, as its step function has it; or it is lost there, and
takes no step any more. A run of the machine that may be lost is a run of
the machine, cut at its loss (`run_reduceOption`), and what ends by itself
ends where it is not lost ahead of its goal (`Ends.losable`).
-/

namespace VireSandbox

/-- A state, and whether the system is lost in it. -/
structure Losable (σ : Type*) where
  state : σ
  lost : Bool
  deriving DecidableEq, Repr

namespace Machine

variable {σ α : Type*} (M : Machine σ α) (hazard : σ → Bool)

/-- **The machine that may be lost** in its hazards; `none` is the loss. -/
def losable : Machine (Losable σ) (Option α) where
  step p
    | some a => if p.lost then none else (M.step p.state a).map (⟨·, false⟩)
    | none => if !p.lost && hazard p.state then some ⟨p.state, true⟩ else none

/-- What is asked of a step, asked of it in the machine that may be lost. -/
def Lift (Ok : σ → α → Prop) (p : Losable σ) : Option α → Prop
  | some a => Ok p.state a
  | none => True

instance decidableLift (Ok : σ → α → Prop) [∀ s a, Decidable (Ok s a)] (p : Losable σ) :
    ∀ a, Decidable (Lift Ok p a)
  | some a => inferInstanceAs (Decidable (Ok p.state a))
  | none => isTrue trivial

/-- A loss is nobody's work, and takes no time. -/
def Roles.losable (R : Roles α) : Roles (Option α) where
  work a := a.any R.work
  time a := a.any R.time
  move := Option.map R.move

variable {M hazard} {Ok : σ → α → Prop} {R R' : Roles α} {s : σ} {p p' : Losable σ} {a : α}
variable {as : List α} {bs : List (Option α)}

theorem losable_some_iff : (M.losable hazard).step p (some a) = some p' ↔
    p.lost = false ∧ ∃ s, M.step p.state a = some s ∧ p' = ⟨s, false⟩ := by
  obtain ⟨s, lost⟩ := p
  cases lost with
  | true => simp [losable]
  | false =>
    simp only [losable, Bool.false_eq_true, if_false, Option.map_eq_some_iff, true_and]
    exact exists_congr fun t => and_congr_right' eq_comm

theorem losable_none_iff : (M.losable hazard).step p none = some p' ↔
    p.lost = false ∧ hazard p.state = true ∧ p' = ⟨p.state, true⟩ := by
  obtain ⟨s, lost⟩ := p
  cases lost with
  | true => simp [losable]
  | false =>
    simp only [losable, Bool.not_false, Bool.true_and, Option.ite_none_right_eq_some,
      Option.some.injEq, true_and]
    exact and_congr_right' eq_comm

/-- **What is lost takes no step.** -/
theorem losable_of_lost (h : p.lost = true) (a : Option α) : (M.losable hazard).step p a = none := by
  cases a <;> simp [losable, h]

theorem run_of_lost (h : p.lost = true) (hrun : (M.losable hazard).run p bs = some p') :
    bs = [] ∧ p' = p := by
  cases bs with
  | nil => exact ⟨rfl, (Option.some_inj.1 hrun).symm⟩
  | cons b bs =>
    obtain ⟨q, hstep, -⟩ := run_cons_iff.1 hrun
    rw [losable_of_lost h] at hstep
    cases hstep

/-- Nothing is due of what is lost. -/
theorem not_due_of_lost {Ok : Losable σ → Option α → Prop} {R : Roles (Option α)}
    (h : p.lost = true) : ¬ (M.losable hazard).Due Ok R p := by
  rintro ⟨ts, t, a, -, -, hrun, -, hok, hopen⟩
  obtain ⟨-, rfl⟩ := run_of_lost h hrun
  obtain ⟨t', hstep⟩ := hopen a rfl hok
  rw [losable_of_lost h] at hstep
  cases hstep

/-- **A run is one of the machine, cut at its loss**, and what it keeps to is
what that keeps to. -/
theorem run_reduceOption (hrun : (M.losable hazard).run ⟨s, false⟩ bs = some p) :
    M.run s bs.reduceOption = some p.state ∧
      ((M.losable hazard).Within (Lift Ok) ⟨s, false⟩ bs ↔ M.Within Ok s bs.reduceOption) := by
  induction bs generalizing s with
  | nil =>
    cases hrun
    exact ⟨rfl, Iff.rfl⟩
  | cons b bs ih =>
    obtain ⟨q, hstep, hrun⟩ := run_cons_iff.1 hrun
    cases b with
    | some a =>
      obtain ⟨-, t, ht, rfl⟩ := losable_some_iff.1 hstep
      obtain ⟨hrun', hwithin⟩ := ih hrun
      rw [List.reduceOption_cons_of_some, run_cons ht, within_cons ht, within_cons hstep, hwithin]
      exact ⟨hrun', Iff.rfl⟩
    | none =>
      obtain ⟨-, -, rfl⟩ := losable_none_iff.1 hstep
      obtain ⟨rfl, rfl⟩ := run_of_lost rfl hrun
      exact ⟨rfl, by simp [within_cons hstep, Lift]⟩

/-- And a run of the machine is one that is not lost. -/
theorem run_map_some {t : σ} (hrun : M.run s as = some t) :
    (M.losable hazard).run ⟨s, false⟩ (as.map some) = some ⟨t, false⟩ := by
  induction as generalizing s with
  | nil =>
    cases hrun
    rfl
  | cons a as ih =>
    obtain ⟨u, hstep, hrun⟩ := run_cons_iff.1 hrun
    have hstep' : (M.losable hazard).step ⟨s, false⟩ (some a) = some ⟨u, false⟩ :=
      losable_some_iff.2 ⟨rfl, u, hstep, rfl⟩
    rw [List.map_cons, run_cons hstep', ih hrun]

theorem Roles.Sub.losable (h : R.Sub R') : R.losable.Sub R'.losable where
  work := by
    rintro (- | a) ha
    · cases ha
    · exact h.work a ha
  time := by
    rintro (- | a) ha
    · cases ha
    · exact h.time a ha
  move := by
    rintro (- | a) b ha hb
    · cases ha
    · cases b with
      | none => cases hb
      | some b => exact congrArg some (h.move a b ha (Option.some_inj.1 hb))

/-- **What is due of the machine is due of it where it may be lost**, if it
is allowed there. -/
theorem Due.losable {Ok' : Losable σ → Option α → Prop}
    (hOk : ∀ s a, R.time a = true ∨ R.work a = true → Ok s a → Ok' ⟨s, false⟩ (some a))
    (hback : ∀ s a, Ok' ⟨s, false⟩ (some a) → Ok s a) (h : M.Due Ok R s) :
    (M.losable hazard).Due Ok' R.losable ⟨s, false⟩ := by
  obtain ⟨ts, t, a, htimes, hts, hrun, hwork, hok, hopen⟩ := h
  have hwithin : (M.losable hazard).Within Ok' ⟨s, false⟩ (ts.map some) := by
    clear hok hopen
    induction ts generalizing s with
    | nil => trivial
    | cons b ts ih =>
      obtain ⟨u, hstep, hrun⟩ := run_cons_iff.1 hrun
      obtain ⟨hb, hbs⟩ := List.forall_mem_cons.1 htimes
      rw [within_cons hstep] at hts
      have hstep' : (M.losable hazard).step ⟨s, false⟩ (some b) = some ⟨u, false⟩ :=
        losable_some_iff.2 ⟨rfl, u, hstep, rfl⟩
      exact (within_cons hstep').2 ⟨hOk s b (.inl hb) hts.1, ih hbs hts.2 hrun⟩
  refine ⟨ts.map some, ⟨t, false⟩, some a, ?_, hwithin, run_map_some hrun, hwork,
    hOk t a (.inr hwork) hok, ?_⟩
  · intro b hb
    obtain ⟨b', hb', rfl⟩ := List.mem_map.1 hb
    exact htimes b' hb'
  · intro b hb hokb
    cases b with
    | none => cases hb
    | some b =>
      obtain ⟨t', hstep⟩ := hopen b (Option.some_inj.1 hb) (hback t b hokb)
      exact ⟨⟨t', false⟩, losable_some_iff.2 ⟨rfl, t', hstep, rfl⟩⟩

/-- **What ends by itself ends where it is not lost ahead of its goal.** -/
theorem Ends.losable {Ok : Losable σ → Option α → Prop} (goal I : σ → Prop) (μ : σ → ℕ)
    (hI : ∀ s a s', I s → Ok ⟨s, false⟩ (some a) → M.step s a = some s' → I s')
    (hμ : ∀ s a s', I s → Ok ⟨s, false⟩ (some a) → M.step s a = some s' →
      μ s' + (if R.work a then 1 else 0) ≤ μ s)
    (hloss : ∀ s, I s → Ok ⟨s, false⟩ none → hazard s = true → goal s)
    (hdue : ∀ s, I s → ¬ goal s → (M.losable hazard).Due Ok R.losable ⟨s, false⟩) (hs : I s) :
    (M.losable hazard).Ends Ok R.losable (fun p => goal p.state) ⟨s, false⟩ := by
  refine .of_measure (fun p => I p.state ∧ (p.lost = true → goal p.state)) (fun p => μ p.state)
    ?_ ?_ ?_ ⟨hs, nofun⟩
  · rintro ⟨s, lost⟩ a p' ⟨hs, -⟩ hok hstep
    cases a with
    | some a =>
      obtain ⟨rfl, t, ht, rfl⟩ := losable_some_iff.1 hstep
      exact ⟨hI s a t hs hok ht, nofun⟩
    | none =>
      obtain ⟨rfl, hhazard, rfl⟩ := losable_none_iff.1 hstep
      exact ⟨hs, fun _ => hloss s hs hok hhazard⟩
  · rintro ⟨s, lost⟩ a p' ⟨hs, -⟩ hok hstep
    cases a with
    | some a =>
      obtain ⟨rfl, t, ht, rfl⟩ := losable_some_iff.1 hstep
      exact hμ s a t hs hok ht
    | none =>
      obtain ⟨rfl, -, rfl⟩ := losable_none_iff.1 hstep
      exact Nat.le_refl (μ s)
  · rintro ⟨s, lost⟩ ⟨hs, hlost⟩ hgoal
    cases lost with
    | true => exact absurd (hlost rfl) hgoal
    | false => exact hdue s hs hgoal

end Machine

end VireSandbox
