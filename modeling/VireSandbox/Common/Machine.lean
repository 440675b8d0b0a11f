import Mathlib.Data.List.Count
import Mathlib.Order.Basic
/-!
# Machines — runs, conditions on their steps, and their end

A machine is a partial step function: in each state an action is either
refused or leads to one next state, and all the nondeterminism of a
system sits in the choice of the actions. This file has the rules every
system here is verified with: an invariant from one step
(`run_induction`), a condition read off a flag the state carries
(`within_iff_not_flag`), and the end of every run from a measure
(`Ends.of_measure`).
-/

namespace VireSandbox

/-- **A system given by its actions.** `step s a` is the state the action
`a` leads to from `s`, or `none` where it is not enabled. -/
structure Machine (σ α : Type*) where
  step : σ → α → Option σ

namespace Machine

variable {σ α : Type*} (M : Machine σ α)

/-- The state a list of actions leads to, or `none` once one is refused. -/
def run (s : σ) : List α → Option σ
  | [] => some s
  | a :: as => (M.step s a).bind fun s' => run s' as

/-- Every action of the list is taken in a state where `Ok` allows it. -/
def Within (Ok : σ → α → Prop) (s : σ) : List α → Prop
  | [] => True
  | a :: as => Ok s a ∧ ∀ s', M.step s a = some s' → Within Ok s' as

/-- An allowed run leads from the one state to the other. -/
def Reaches (Ok : σ → α → Prop) (s s' : σ) : Prop :=
  ∃ as, M.Within Ok s as ∧ M.run s as = some s'

variable {M} {Ok : σ → α → Prop} {I : σ → Prop} {s s' s'' : σ} {a : α} {as bs : List α}

@[simp] theorem run_nil : M.run s [] = some s := rfl

theorem run_cons (h : M.step s a = some s') : M.run s (a :: as) = M.run s' as := by
  simp [run, h]

theorem run_cons_iff :
    M.run s (a :: as) = some s'' ↔ ∃ s', M.step s a = some s' ∧ M.run s' as = some s'' := by
  simp [run, Option.bind_eq_some_iff]

theorem run_append (h : M.run s as = some s') : M.run s (as ++ bs) = M.run s' bs := by
  induction as generalizing s with
  | nil => cases h; rfl
  | cons a as ih =>
    obtain ⟨t, ht, h⟩ := run_cons_iff.1 h
    rw [List.cons_append, run_cons ht, ih h]

@[simp] theorem within_nil : M.Within Ok s [] := trivial

theorem within_cons (h : M.step s a = some s') :
    M.Within Ok s (a :: as) ↔ Ok s a ∧ M.Within Ok s' as := by
  simp [Within, h]

theorem within_append (h : M.run s as = some s') :
    M.Within Ok s (as ++ bs) ↔ M.Within Ok s as ∧ M.Within Ok s' bs := by
  induction as generalizing s with
  | nil => cases h; simp
  | cons a as ih =>
    obtain ⟨t, ht, h⟩ := run_cons_iff.1 h
    rw [List.cons_append, within_cons ht, within_cons ht, ih h, and_assoc]

theorem Reaches.refl : M.Reaches Ok s s := ⟨[], within_nil, run_nil⟩

theorem Reaches.head (hstep : M.step s a = some s') (hok : Ok s a) (h : M.Reaches Ok s' s'') :
    M.Reaches Ok s s'' := by
  obtain ⟨as, has, hrun⟩ := h
  exact ⟨a :: as, (within_cons hstep).2 ⟨hok, has⟩, by rw [run_cons hstep, hrun]⟩

theorem Reaches.trans (h : M.Reaches Ok s s') (h' : M.Reaches Ok s' s'') :
    M.Reaches Ok s s'' := by
  obtain ⟨as, has, hrun⟩ := h
  obtain ⟨bs, hbs, hrun'⟩ := h'
  exact ⟨as ++ bs, (within_append hrun).2 ⟨has, hbs⟩, by rw [run_append hrun, hrun']⟩

theorem within_mono {Ok' : σ → α → Prop} (hle : ∀ s a, Ok s a → Ok' s a)
    (h : M.Within Ok s as) : M.Within Ok' s as := by
  induction as generalizing s with
  | nil => trivial
  | cons a as ih => exact ⟨hle _ _ h.1, fun s' hs => ih (h.2 s' hs)⟩

theorem within_true : M.Within (fun _ _ => True) s as := by
  induction as generalizing s with
  | nil => trivial
  | cons a as ih => exact ⟨trivial, fun _ _ => ih⟩

theorem within_and {Ok' : σ → α → Prop} :
    M.Within (fun s a => Ok s a ∧ Ok' s a) s as ↔ M.Within Ok s as ∧ M.Within Ok' s as := by
  induction as generalizing s with
  | nil => simp
  | cons a as ih =>
    simp only [Within, ih]
    constructor
    · rintro ⟨⟨ha, ha'⟩, h⟩
      exact ⟨⟨ha, fun s' hs => (h s' hs).1⟩, ha', fun s' hs => (h s' hs).2⟩
    · rintro ⟨⟨ha, h⟩, ha', h'⟩
      exact ⟨⟨ha, ha'⟩, fun s' hs => ⟨h s' hs, h' s' hs⟩⟩

/-- **The induction over runs.** What one allowed step preserves, every
allowed run preserves. -/
theorem run_induction (I : σ → Prop)
    (hstep : ∀ s a s', I s → Ok s a → M.step s a = some s' → I s')
    (hs : I s) (hok : M.Within Ok s as) (h : M.run s as = some s') : I s' := by
  induction as generalizing s with
  | nil => cases h; exact hs
  | cons a as ih =>
    obtain ⟨t, ht, h⟩ := run_cons_iff.1 h
    rw [within_cons ht] at hok
    exact ih (hstep s a t hs hok.1 ht) hok.2 h

/-- The same, for what every step preserves whatever the condition. -/
theorem run_invariant (I : σ → Prop) (hstep : ∀ s a s', I s → M.step s a = some s' → I s')
    (hs : I s) (h : M.run s as = some s') : I s' :=
  run_induction I (fun s a s' hI _ => hstep s a s' hI) hs within_true h

/-- A condition that can be checked on a step can be checked on a run. -/
instance decidableWithin [∀ s a, Decidable (Ok s a)] :
    ∀ (s : σ) (as : List α), Decidable (M.Within Ok s as)
  | _, [] => isTrue within_nil
  | s, a :: as =>
    match h : M.step s a with
    | none => decidable_of_iff (Ok s a) (by simp [Within, h])
    | some s' =>
      have := decidableWithin s' as
      decidable_of_iff (Ok s a ∧ M.Within Ok s' as) (within_cons h).symm

/-- What an action alone is asked holds of a run when it holds of each of
its actions. -/
theorem within_forall_iff {P : α → Prop} (h : M.run s as = some s') :
    M.Within (fun _ a => P a) s as ↔ ∀ a ∈ as, P a := by
  induction as generalizing s with
  | nil => simp
  | cons a as ih =>
    obtain ⟨t, ht, h⟩ := run_cons_iff.1 h
    rw [within_cons ht, ih h, List.forall_mem_cons]

/-- Two conditions that agree along an invariant agree on its runs. -/
theorem within_congr (I : σ → Prop)
    (hI : ∀ s a s', I s → Ok s a → M.step s a = some s' → I s')
    {P P' : σ → α → Prop} (hP : ∀ s a s', I s → Ok s a → M.step s a = some s' → (P s a ↔ P' s a))
    (hs : I s) (hok : M.Within Ok s as) (h : M.run s as = some s') :
    M.Within P s as ↔ M.Within P' s as := by
  induction as generalizing s with
  | nil => simp
  | cons a as ih =>
    obtain ⟨t, ht, h⟩ := run_cons_iff.1 h
    rw [within_cons ht] at hok
    rw [within_cons ht, within_cons ht, hP s a t hs hok.1 ht,
      ih (hI s a t hs hok.1 ht) hok.2 h]

/-- **A flag raised by exactly the steps that break a condition** tells
whether a run kept it. `I` is whatever invariant the raising lemma
needs. -/
theorem within_iff_not_flag (I flag : σ → Prop)
    (hI : ∀ s a s', I s → M.step s a = some s' → I s')
    (hflag : ∀ s a s', I s → M.step s a = some s' → (flag s' ↔ flag s ∨ ¬ Ok s a))
    (hs : I s) (h0 : ¬ flag s) (h : M.run s as = some s') :
    M.Within Ok s as ↔ ¬ flag s' := by
  -- from any state on, a run adds to the flag what its steps do
  suffices key : ∀ s, I s → M.run s as = some s' →
      (flag s' ↔ flag s ∨ ¬ M.Within Ok s as) by
    rw [key s hs h]
    simp [h0]
  clear h h0 hs
  intro s hs h
  induction as generalizing s with
  | nil => cases h; simp
  | cons a as ih =>
    obtain ⟨t, ht, h⟩ := run_cons_iff.1 h
    rw [ih t (hI s a t hs ht) h, within_cons ht, hflag s a t hs ht, not_and_or, or_assoc]

/-! ## The end of every run

A run ends at `goal` when the work that can be done in it is bounded and
some is due wherever `goal` is not reached. The environment may act as long
as it likes, and nothing may be left to it: what is due is open once time
has passed, whatever it chooses. -/

/-- **What the actions are to a run that is to end**: the `work` of the
threads under study, `time` that passes, and for the rest the
environment's. `move` leaves out of an action what the environment chooses
in it. -/
structure Roles (α : Type*) where
  work : α → Bool
  time : α → Bool
  move : α → α

/-- **Work is due**: once nothing but time has passed a move of it is open,
whatever the environment chooses for it. -/
def Due (M : Machine σ α) (Ok : σ → α → Prop) (R : Roles α) (s : σ) : Prop :=
  ∃ ts t a, (∀ b ∈ ts, R.time b = true) ∧ M.Within Ok s ts ∧ M.run s ts = some t ∧
    R.work a = true ∧ Ok t a ∧
    ∀ b, R.move b = R.move a → Ok t b → ∃ t', M.step t b = some t'

/-- **Every allowed run from `s` ends in `goal`**: it does at most so much
work, and until it is in `goal` some is due. -/
structure Ends (M : Machine σ α) (Ok : σ → α → Prop) (R : Roles α) (goal : σ → Prop)
    (s : σ) : Prop where
  bounded : ∃ n, ∀ as s', M.Within Ok s as → M.run s as = some s' → as.countP R.work ≤ n
  progress : ∀ as s', M.Within Ok s as → M.run s as = some s' → ¬ goal s' → M.Due Ok R s'

/-- Work costs measure, and no step of an allowed run raises it. -/
theorem countP_add_le {work : α → Bool} {μ : σ → ℕ}
    (hI : ∀ s a s', I s → Ok s a → M.step s a = some s' → I s')
    (hμ : ∀ s a s', I s → Ok s a → M.step s a = some s' →
      μ s' + (if work a then 1 else 0) ≤ μ s)
    (hs : I s) (hok : M.Within Ok s as) (h : M.run s as = some s') :
    μ s' + as.countP work ≤ μ s := by
  induction as generalizing s with
  | nil => cases h; simp
  | cons a as ih =>
    obtain ⟨t, ht, h⟩ := run_cons_iff.1 h
    rw [within_cons ht] at hok
    have hstep := hμ s a t hs hok.1 ht
    have hrest := ih (hI s a t hs hok.1 ht) hok.2 h
    rw [List.countP_cons]
    omega

/-- **A measure on two levels**: a step that does not lower the upper one
lowers the lower one, and one that lowers the upper one raises the lower
one by `r` at most. -/
theorem length_add_le_of_levels {upper lower : σ → ℕ} {r : ℕ}
    (hI : ∀ s a s', I s → Ok s a → M.step s a = some s' → I s')
    (hlevels : ∀ s a s', I s → Ok s a → M.step s a = some s' →
      upper s' ≤ upper s ∧ lower s' < lower s ∨ upper s' < upper s ∧ lower s' ≤ lower s + r)
    (hs : I s) (hok : M.Within Ok s as) (h : M.run s as = some s') :
    (r + 1) * upper s' + lower s' + as.length ≤ (r + 1) * upper s + lower s := by
  have hcount : (r + 1) * upper s' + lower s' + as.countP (fun _ => true) ≤
      (r + 1) * upper s + lower s := by
    refine countP_add_le (μ := fun s => (r + 1) * upper s + lower s) hI ?_ hs hok h
    intro s a s' hs ha hstep
    simp only [if_true]
    rcases hlevels s a s' hs ha hstep with ⟨hupper, hlower⟩ | ⟨hupper, hlower⟩
    · have hmul := Nat.mul_le_mul_left (r + 1) hupper
      omega
    · -- what the upper level loses pays for the rise of the lower
      have hmul := Nat.mul_le_mul_left (r + 1) hupper
      rw [Nat.mul_succ] at hmul
      omega
  simpa using hcount

variable {R : Roles α}

/-- **The end from a measure**: work lowers it, the environment does not
raise it, and short of the goal some work is due. -/
theorem Ends.of_measure {goal : σ → Prop} (I : σ → Prop) (μ : σ → ℕ)
    (hI : ∀ s a s', I s → Ok s a → M.step s a = some s' → I s')
    (hμ : ∀ s a s', I s → Ok s a → M.step s a = some s' →
      μ s' + (if R.work a then 1 else 0) ≤ μ s)
    (hdue : ∀ s, I s → ¬ goal s → M.Due Ok R s)
    (hs : I s) : Ends M Ok R goal s where
  bounded := by
    refine ⟨μ s, fun as s' hok h => ?_⟩
    have := countP_add_le hI hμ hs hok h
    omega
  progress := fun _ s' hok h hgoal => hdue s' (run_induction I hI hs hok h) hgoal

/-- A move that is open is due. -/
theorem Due.of_step (hwork : R.work a = true) (hok : Ok s a)
    (hopen : ∀ b, R.move b = R.move a → Ok s b → ∃ s', M.step s b = some s') : M.Due Ok R s :=
  ⟨[], s, a, by simp, within_nil, run_nil, hwork, hok, hopen⟩

/-- And so is what is due after some time. -/
theorem Due.after_time {b : α} (htime : R.time b = true) (hok : Ok s b)
    (hstep : M.step s b = some s') (h : M.Due Ok R s') : M.Due Ok R s := by
  obtain ⟨ts, t, a, htimes, hts, hrun, hdue⟩ := h
  refine ⟨b :: ts, t, a, ?_, (within_cons hstep).2 ⟨hok, hts⟩, by rw [run_cons hstep, hrun], hdue⟩
  simpa [htime] using htimes

/-- **Roles that count more as work.** -/
structure Roles.Sub (R R' : Roles α) : Prop where
  work : ∀ a, R.work a = true → R'.work a = true
  time : ∀ a, R.time a = true → R'.time a = true
  move : ∀ a b, R.work a = true → R'.move b = R'.move a → R.move b = R.move a

/-- What is due is due where more counts as work. -/
theorem Due.mono {R' : Roles α} (hsub : R.Sub R') (h : M.Due Ok R s) : M.Due Ok R' s := by
  obtain ⟨ts, t, a, htimes, hts, hrun, hwork, hok, hopen⟩ := h
  exact ⟨ts, t, a, fun b hb => hsub.time b (htimes b hb), hts, hrun, hsub.work a hwork, hok,
    fun b hb => hopen b (hsub.move a b hwork hb)⟩

/-- What is due can be done. -/
theorem Due.exists_run (h : M.Due Ok R s) :
    ∃ bs s', M.Within Ok s bs ∧ M.run s bs = some s' ∧ 0 < bs.countP R.work := by
  obtain ⟨ts, t, a, -, hts, hrun, hwork, hok, hopen⟩ := h
  obtain ⟨t', hstep⟩ := hopen a rfl hok
  refine ⟨ts ++ [a], t', ?_, ?_, ?_⟩
  · exact (within_append hrun).2 ⟨hts, (within_cons hstep).2 ⟨hok, within_nil⟩⟩
  · rw [run_append hrun, run_cons hstep, run_nil]
  · rw [List.countP_append, List.countP_singleton, if_pos hwork]
    omega

/-- **What ends can be run to its end.** -/
theorem Ends.reaches {goal : σ → Prop} (h : Ends M Ok R goal s) :
    ∃ s', M.Reaches Ok s s' ∧ goal s' := by
  obtain ⟨n, hn⟩ := h.bounded
  -- by induction on the work the bound leaves
  suffices key : ∀ k as s', M.Within Ok s as → M.run s as = some s' →
      n ≤ as.countP R.work + k → ∃ s', M.Reaches Ok s s' ∧ goal s' from
    key n [] s within_nil run_nil (by simp)
  intro k
  induction k with
  | zero =>
    intro as s' hok hrun hle
    refine ⟨s', ⟨as, hok, hrun⟩, ?_⟩
    by_contra hgoal
    -- no more work fits under the bound
    obtain ⟨bs, s'', hok', hrun', hpos⟩ := (h.progress as s' hok hrun hgoal).exists_run
    have hcount := hn (as ++ bs) s'' ((within_append hrun).2 ⟨hok, hok'⟩)
      (by rw [run_append hrun, hrun'])
    rw [List.countP_append] at hcount
    omega
  | succ k ih =>
    intro as s' hok hrun hle
    by_cases hgoal : goal s'
    · exact ⟨s', ⟨as, hok, hrun⟩, hgoal⟩
    · obtain ⟨bs, s'', hok', hrun', hpos⟩ := (h.progress as s' hok hrun hgoal).exists_run
      refine ih (as ++ bs) s'' ((within_append hrun).2 ⟨hok, hok'⟩)
        (by rw [run_append hrun, hrun']) ?_
      rw [List.countP_append]
      omega

end Machine

end VireSandbox
