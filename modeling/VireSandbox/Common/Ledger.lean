import Mathlib.Algebra.BigOperators.Group.List.Basic
import Mathlib.Algebra.Order.Group.Defs
import Mathlib.Tactic.Abel
/-!
# Ledgers — a level that is drawn on and filled up

A ledger is the list of what was done to a level: draws, and fillings up
to a capacity, each with the level it found. It is kept well where every
entry found what the one before it left and no draw takes more than is
there (`Leads`). Two facts follow for every ledger that is: the level
stays between nothing and the capacity (`Leads.bounds`), and what was
drawn and what is left add up to what there was and what was filled in
(`Leads.balance`).
-/

namespace VireSandbox

/-- An entry of a ledger. -/
inductive Entry (α : Type*)
  /-- `val` was taken from the level `found`. -/
  | draw (val found : α)
  /-- The level `found` was brought up to the capacity. -/
  | fill (found : α)
  deriving DecidableEq, Repr

namespace Ledger

variable {α : Type*} [AddCommGroup α]

/-- What an entry took out. -/
def drawn : Entry α → α
  | .draw val _ => val
  | .fill _ => 0

/-- What an entry put in. -/
def filled (cap : α) : Entry α → α
  | .draw _ _ => 0
  | .fill found => cap - found

theorem sum_concat (f : Entry α → α) (es : List (Entry α)) (e : Entry α) :
    ((es ++ [e]).map f).sum = (es.map f).sum + f e := by
  simp

variable [LE α]

/-- **A ledger leads from a level to another**: each entry found what the
one before it left, and no draw takes more than is there. -/
inductive Leads (cap : α) (l : α) : List (Entry α) → α → Prop
  | nil : Leads cap l [] l
  | draw {es : List (Entry α)} {found val : α} (h : Leads cap l es found) (hpos : 0 ≤ val)
      (hle : val ≤ found) : Leads cap l (es ++ [.draw val found]) (found - val)
  | fill {es : List (Entry α)} {found : α} (h : Leads cap l es found) :
      Leads cap l (es ++ [.fill found]) cap

variable {cap l l' val found : α} {es : List (Entry α)}

/-- **Every draw was covered.** -/
theorem Leads.covered (h : Leads cap l es l') (hmem : .draw val found ∈ es) : val ≤ found := by
  induction h with
  | nil => cases hmem
  | draw h hpos hle ih =>
    rcases List.mem_append.1 hmem with hmem | hmem
    · exact ih hmem
    · cases List.mem_singleton.1 hmem
      exact hle
  | fill h ih =>
    rcases List.mem_append.1 hmem with hmem | hmem
    · exact ih hmem
    · cases List.mem_singleton.1 hmem

/-- **Nothing is lost and nothing made up.** -/
theorem Leads.balance (h : Leads cap l es l') :
    (es.map drawn).sum + l' = l + (es.map (filled cap)).sum := by
  induction h with
  | nil => simp
  | draw h hpos hle ih =>
    simp only [sum_concat, drawn, filled, add_zero]
    rw [← ih]
    abel
  | fill h ih =>
    simp only [sum_concat, drawn, filled, add_zero]
    rw [← add_assoc, ← ih]
    abel

/-- **The level stays between nothing and the capacity.** -/
theorem Leads.bounds {α : Type*} [AddCommGroup α] [PartialOrder α] [IsOrderedAddMonoid α]
    {cap l l' : α} {es : List (Entry α)} (h : Leads cap l es l') (hpos : 0 ≤ l) (hle : l ≤ cap) :
    0 ≤ l' ∧ l' ≤ cap := by
  induction h with
  | nil => exact ⟨hpos, hle⟩
  | draw h hval hcovered ih =>
    exact ⟨sub_nonneg.2 hcovered, (sub_le_self _ hval).trans ih.2⟩
  | fill h ih => exact ⟨hpos.trans hle, le_rfl⟩

end Ledger

end VireSandbox
