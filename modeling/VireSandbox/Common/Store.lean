import Mathlib.Logic.Function.Basic
/-!
# Stores — cells that are written and cleared

A store gives each cell a datum or nothing. Two facts carry what is
proved of programs over one: writes that all happen leave nothing of what
was there before in the cells they write (`puts_congr`), and clearing a
set of cells undoes whatever was done inside it to a store that had
nothing there (`clear_eq_of_agreeOn`).
-/

namespace VireSandbox

/-- **A datum of its own type, or nothing, in each cell.** -/
def Store (κ : Type*) (ν : κ → Type*) := ∀ k, Option (ν k)

namespace Store

variable {κ : Type*} {ν : κ → Type*} {s t u : Store κ ν} {p q : κ → Prop}

/-- Two stores hold the same in every cell of a set. -/
def AgreeOn (p : κ → Prop) (s t : Store κ ν) : Prop := ∀ k, p k → s k = t k

theorem AgreeOn.refl : AgreeOn p s s := fun _ _ => rfl

theorem AgreeOn.trans (h : AgreeOn p s t) (h' : AgreeOn p t u) : AgreeOn p s u :=
  fun k hk => (h k hk).trans (h' k hk)

theorem AgreeOn.mono (h : AgreeOn p s t) (hle : ∀ k, q k → p k) : AgreeOn q s t :=
  fun k hk => h k (hle k hk)

/-- The store with a set of cells emptied. -/
def clear (s : Store κ ν) (p : κ → Prop) [DecidablePred p] : Store κ ν :=
  fun k => if p k then none else s k

section Clear

variable [DecidablePred p] {k : κ}

theorem clear_of_pos (h : p k) : s.clear p k = none := if_pos h

theorem clear_of_neg (h : ¬ p k) : s.clear p k = s k := if_neg h

/-- To clear what is empty changes nothing. -/
theorem clear_of_empty (h : ∀ k, p k → s k = none) : s.clear p = s := by
  funext k
  by_cases hk : p k
  · rw [clear_of_pos hk, h k hk]
  · exact clear_of_neg hk

/-- **A clearing undoes what was done inside it.** -/
theorem clear_eq_of_agreeOn (h : AgreeOn (fun k => ¬ p k) s t) (ht : ∀ k, p k → t k = none) :
    s.clear p = t := by
  funext k
  by_cases hk : p k
  · rw [clear_of_pos hk, ht k hk]
  · rw [clear_of_neg hk, h k hk]

theorem clear_clear {q : κ → Prop} [DecidablePred q] :
    (s.clear p).clear q = s.clear fun k => q k ∨ p k := by
  funext k
  by_cases hq : q k <;> by_cases hp : p k <;> simp [clear, hq, hp]

end Clear

variable [DecidableEq κ] {k l : κ} {ws : List (Σ k, ν k)}

/-- The store with a datum written, over whatever was in its cell. -/
def put (s : Store κ ν) (k : κ) (v : ν k) : Store κ ν := Function.update s k (some v)

@[simp] theorem put_self (v : ν k) : s.put k v k = some v := Function.update_self ..

@[simp] theorem put_of_ne (v : ν k) (h : l ≠ k) : s.put k v l = s l := Function.update_of_ne h ..

/-- A list of writes, in their order. -/
def puts (s : Store κ ν) (ws : List (Σ k, ν k)) : Store κ ν := ws.foldl (fun s w => s.put w.1 w.2) s

@[simp] theorem puts_nil : s.puts [] = s := rfl

@[simp] theorem puts_cons (w : Σ k, ν k) : s.puts (w :: ws) = (s.put w.1 w.2).puts ws := rfl

/-- **What is written over is forgotten**: the same writes make equal of two
stores that agree off the cells they write. -/
theorem puts_congr (h : AgreeOn (fun k => k ∉ ws.map Sigma.fst) s t) : s.puts ws = t.puts ws := by
  induction ws generalizing s t with
  | nil => exact funext fun k => h k (by simp)
  | cons w ws ih =>
    refine ih fun k hk => ?_
    change s.put w.1 w.2 k = t.put w.1 w.2 k
    by_cases hkw : k = w.1
    · subst hkw
      rw [put_self, put_self]
    · rw [put_of_ne _ hkw, put_of_ne _ hkw]
      exact h k (by simp [hkw, hk])

end Store

end VireSandbox
