import Mathlib.Data.List.Infix
/-!
# Scripts — reading letters against a fixed word

A script is a word, and a reader holds the number of its letters read so
far, or nothing once a letter was out of turn. A run of letters is read
to its end exactly when it is a prefix of the script. A component that
admits one order of calls is a reader of that order, which is what its
refinement says.
-/

namespace VireSandbox

namespace Script

variable {α : Type*} {w as : List α} {a : α} {p : ℕ}

/-- A prefix grows by the letter that follows it in the word. -/
theorem concat_prefix_iff : as ++ [a] <+: w ↔ as <+: w ∧ w[as.length]? = some a := by
  constructor
  · intro h
    refine ⟨(List.prefix_append as [a]).trans h, ?_⟩
    obtain ⟨t, rfl⟩ := h
    simp
  · rintro ⟨⟨t, rfl⟩, h⟩
    rcases t with - | ⟨b, t⟩
    · simp at h
    · have hb : b = a := by simpa using h
      exact ⟨t, by simp [hb]⟩

variable [DecidableEq α]

/-- One letter: the position moves on if the letter is the script's next,
and is lost otherwise. -/
def next (w : List α) (o : Option ℕ) (a : α) : Option ℕ :=
  o.bind fun p => if w[p]? = some a then some (p + 1) else none

/-- The position a list of letters leads to, from the script's start. -/
def read (w as : List α) : Option ℕ := as.foldl (next w) (some 0)

@[simp] theorem next_none : next w none a = none := rfl

theorem next_some (h : w[p]? = some a) : next w (some p) a = some (p + 1) := by
  simp [next, h]

theorem next_eq_none (h : w[p]? ≠ some a) : next w (some p) a = none := by
  simp [next, h]

@[simp] theorem read_nil : read w [] = some 0 := rfl

theorem read_concat : read w (as ++ [a]) = next w (read w as) a := by
  simp [read]

/-- **A reader's position counts the letters of a prefix**, and nothing
else has one. -/
theorem read_eq_some_iff : read w as = some p ↔ as <+: w ∧ p = as.length := by
  induction as using List.reverseRecOn generalizing p with
  | nil => simp [eq_comm]
  | append_singleton as a ih =>
    rw [read_concat, concat_prefix_iff]
    cases hr : read w as with
    | none =>
      have hnot : ¬ as <+: w := fun h => by simp [ih.2 ⟨h, rfl⟩] at hr
      simp [hnot]
    | some q =>
      obtain ⟨hpre, rfl⟩ := ih.1 hr
      by_cases ha : w[as.length]? = some a
      · simp [next_some ha, hpre, ha, eq_comm]
      · simp [next_eq_none ha, ha]

theorem read_of_isPrefix (h : as <+: w) : read w as = some as.length :=
  read_eq_some_iff.2 ⟨h, rfl⟩

/-- **A reader is lost exactly off the script's prefixes.** -/
theorem read_eq_none_iff : read w as = none ↔ ¬ as <+: w := by
  constructor
  · intro h hpre
    simp [read_of_isPrefix hpre] at h
  · intro h
    by_contra hne
    obtain ⟨p, hp⟩ := Option.ne_none_iff_exists'.1 hne
    exact h (read_eq_some_iff.1 hp).1

end Script

end VireSandbox
