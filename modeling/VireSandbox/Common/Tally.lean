import Mathlib.Algebra.BigOperators.Group.Finset.Piecewise
import VireSandbox.Common.Machine
/-!
# Tallies — what parties add up to

A tally gives each state of a party an amount, and a system of parties the
sum of theirs. One party that moves changes the sum by its own two amounts
(`sum_moved`), and where each step of a machine adds what its action
stands for, a run adds what its actions do (`run_tally`).
-/

namespace VireSandbox

namespace Tally

variable {ι β μ : Type*} [Fintype ι] [DecidableEq ι] [AddCommMonoid μ]

/-- **One party moves.** -/
theorem sum_moved (f : β → μ) (g : ι → β) (i : ι) (b : β) :
    (∑ j, f (Function.update g i b j)) + f (g i) = (∑ j, f (g j)) + f b := by
  have hother : ∑ j ∈ Finset.univ.erase i, f (Function.update g i b j) =
      ∑ j ∈ Finset.univ.erase i, f (g j) :=
    Finset.sum_congr rfl fun j hj => by rw [Function.update_of_ne (Finset.ne_of_mem_erase hj)]
  rw [← Finset.add_sum_erase _ _ (Finset.mem_univ i), hother, Function.update_self,
    ← Finset.add_sum_erase _ (fun j => f (g j)) (Finset.mem_univ i), add_assoc, add_comm,
    add_comm (∑ j ∈ Finset.univ.erase i, f (g j))]

end Tally

namespace Machine

variable {σ α μ : Type*} [AddCommMonoid μ] {M : Machine σ α} {Ok : σ → α → Prop} {s s' : σ}
variable {as : List α}

/-- **A run adds what its actions do.** -/
theorem run_tally (I : σ → Prop) (value : σ → μ) (amount : α → μ)
    (hI : ∀ s a s', I s → Ok s a → M.step s a = some s' → I s')
    (hstep : ∀ s a s', I s → Ok s a → M.step s a = some s' → value s' = value s + amount a)
    (hs : I s) (hok : M.Within Ok s as) (h : M.run s as = some s') :
    value s' = value s + (as.map amount).sum := by
  induction as generalizing s with
  | nil =>
    cases h
    simp
  | cons a as ih =>
    obtain ⟨t, ht, h⟩ := run_cons_iff.1 h
    rw [within_cons ht] at hok
    rw [ih (hI s a t hs hok.1 ht) hok.2 h, hstep s a t hs hok.1 ht, List.map_cons, List.sum_cons,
      add_assoc]

end Machine

end VireSandbox
