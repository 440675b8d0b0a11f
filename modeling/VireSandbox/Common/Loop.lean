import Mathlib.Data.List.Basic
/-!
# Loops — a body repeated while its result says so

`do r = body (); while (again (r));` over a state the body moves, with
the measure that ends it as a part of the loop. A run is the list of its
passes, each with what it returned and the state it left, so that what is
claimed of a loop can be about every pass of it. An invariant of the body
holds after each pass (`run_invariant`), and where a state knows how many
passes are left, the run has exactly those (`run_countdown`).
-/

namespace VireSandbox

/-- **A loop that ends**: whenever it goes on, its measure is less. -/
structure DoWhile (ρ σ : Type*) where
  body : σ → ρ × σ
  again : ρ → Bool
  measure : σ → ℕ
  decreases : ∀ s, again (body s).1 = true → measure (body s).2 < measure s

/-- The passes of a run: those the loop went on after, and the last. -/
structure Passes (ρ σ : Type*) where
  before : List (ρ × σ)
  last : ρ × σ

namespace Passes

variable {ρ σ : Type*} (ps : Passes ρ σ)

/-- All the passes, in their order. -/
def all : List (ρ × σ) := ps.before ++ [ps.last]

/-- What the passes returned. -/
def results : List ρ := ps.all.map Prod.fst

/-- The passes with one before them. -/
def cons (p : ρ × σ) : Passes ρ σ := ⟨p :: ps.before, ps.last⟩

@[simp] theorem all_cons (p : ρ × σ) : (ps.cons p).all = p :: ps.all := rfl

@[simp] theorem results_cons (p : ρ × σ) : (ps.cons p).results = p.1 :: ps.results := rfl

end Passes

namespace DoWhile

variable {ρ σ : Type*} (L : DoWhile ρ σ)

/-- The run of a loop from a state. -/
def run (s : σ) : Passes ρ σ :=
  if _ : L.again (L.body s).1 = true then (run (L.body s).2).cons (L.body s)
  else ⟨[], L.body s⟩
termination_by L.measure s
decreasing_by exact L.decreases s ‹_›

variable {L} {s : σ}

theorem run_again (h : L.again (L.body s).1 = true) :
    L.run s = (L.run (L.body s).2).cons (L.body s) := by
  rw [run, dif_pos h]

theorem run_done (h : L.again (L.body s).1 = false) : L.run s = ⟨[], L.body s⟩ := by
  rw [run, dif_neg (by simp [h])]

/-- **What the body preserves holds after every pass.** -/
theorem run_invariant (I : σ → Prop) (hI : ∀ s, I s → I (L.body s).2) (h : I s) :
    ∀ p ∈ (L.run s).all, I p.2 := by
  induction s using DoWhile.run.induct L with
  | case1 s hagain ih =>
    rw [run_again hagain, Passes.all_cons, List.forall_mem_cons]
    exact ⟨hI s h, ih (hI s h)⟩
  | case2 s hdone =>
    rw [run_done (by simpa using hdone)]
    intro p hp
    obtain rfl : p = L.body s := by simpa [Passes.all] using hp
    exact hI s h

/-- **A state that knows how many passes are left.** `I k` holds where `k`
passes are left before the last one, which returns `b` and the others
`a`. -/
theorem run_countdown (I : ℕ → σ → Prop) {J : σ → Prop} {a b : ρ} (ha : L.again a = true)
    (hb : L.again b = false) (hI : ∀ k s, I (k + 1) s → (L.body s).1 = a ∧ I k (L.body s).2)
    (hJ : ∀ s, I 0 s → (L.body s).1 = b ∧ J (L.body s).2) {k : ℕ} (h : I k s) :
    (L.run s).results = List.replicate k a ++ [b] ∧ J (L.run s).last.2 := by
  induction k generalizing s with
  | zero =>
    obtain ⟨hresult, hlast⟩ := hJ s h
    rw [run_done (by rwa [hresult])]
    exact ⟨by simp [Passes.results, Passes.all, hresult], hlast⟩
  | succ k ih =>
    obtain ⟨hresult, hrest⟩ := hI k s h
    obtain ⟨hresults, hlast⟩ := ih hrest
    rw [run_again (by rwa [hresult])]
    exact ⟨by rw [Passes.results_cons, hresult, hresults]; rfl, hlast⟩

end DoWhile

end VireSandbox
