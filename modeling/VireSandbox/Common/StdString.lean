import Mathlib.Data.List.Infix
/-!
# Strings — with positions in a machine word

`std::basic_string`, as far as searching and slicing go. A string is
shorter than `npos`, the one word that is no position: a search that finds
nothing returns it, and a slice throws past the end of the string and is
cut at it. Arithmetic on positions is that of 64-bit words, so that the
position after `npos` is the first (`npos_add_one`).
-/

namespace VireSandbox

/-- **A string**, shorter than `npos`. -/
@[ext] structure BasicString (α : Type*) where
  chars : List α
  length_lt : chars.length < UInt64.size - 1
  deriving DecidableEq, Repr

namespace BasicString

variable {α : Type*}

/-- `npos`, the `size_t` that `-1` converts to. -/
def npos : UInt64 := -1

theorem npos_add_one : npos + 1 = 0 := rfl

theorem toNat_npos : npos.toNat = UInt64.size - 1 := rfl

/-- `empty`. -/
def isEmpty (s : BasicString α) : Bool := s.chars.isEmpty

/-- `substr (pos, n)`, or nothing where it throws. -/
def substr (s : BasicString α) (pos n : UInt64) : Option (BasicString α) :=
  if pos.toNat ≤ s.chars.length then
    some ⟨(s.chars.drop pos.toNat).take n.toNat, by
      have hlt := s.length_lt
      rw [List.length_take, List.length_drop]
      omega⟩
  else none

section Substr

variable {s : BasicString α} {before after : List α}

/-- A position in the string, or at its end, is a word. -/
theorem toNat_position {i : ℕ} (h : i ≤ s.chars.length) : (UInt64.ofNat i).toNat = i := by
  have hlt := s.length_lt
  exact UInt64.toNat_ofNat_of_lt (by omega)

/-- **The slice up to a position** is what stands before it, -/
theorem substr_before (hs : s.chars = before ++ after) : ∃ r : BasicString α,
    s.substr 0 (.ofNat before.length) = some r ∧ r.chars = before := by
  have hle : before.length ≤ s.chars.length := by simp [hs]
  refine ⟨_, if_pos (Nat.zero_le _), ?_⟩
  change s.chars.take (UInt64.ofNat before.length).toNat = before
  rw [toNat_position hle, hs, List.take_left]

/-- **and the slice from it** what stands behind. -/
theorem substr_after (hs : s.chars = before ++ after) : ∃ r : BasicString α,
    s.substr (.ofNat before.length) npos = some r ∧ r.chars = after := by
  have hlt := s.length_lt
  have hle : before.length ≤ s.chars.length := by simp [hs]
  refine ⟨_, if_pos ((toNat_position hle).trans_le hle), ?_⟩
  change (s.chars.drop (UInt64.ofNat before.length).toNat).take npos.toNat = after
  rw [toNat_position hle, toNat_npos]
  rw [hs, List.length_append] at hlt
  rw [hs, List.drop_left, List.take_of_length_le (by omega)]

/-- From the first position there is the whole string. -/
theorem substr_zero_npos : s.substr 0 npos = some s := by
  obtain ⟨r, hr, hchars⟩ := substr_after (List.nil_append s.chars).symm
  rwa [BasicString.ext hchars] at hr

end Substr

section Find

variable [DecidableEq α]

/-- `find (t)`: the position of the first occurrence of `t`. -/
def find (s t : BasicString α) : UInt64 :=
  match s.chars.tails.findIdx? t.chars.isPrefixOf with
  | some i => .ofNat i
  | none => npos

variable {s t : BasicString α} {a : α} {before after : List α}

/-- A character that is not there is not found, -/
theorem find_of_not_mem (ht : t.chars = [a]) (h : a ∉ s.chars) : s.find t = npos := by
  have hnone : s.chars.tails.findIdx? [a].isPrefixOf = none := by
    rw [List.findIdx?_eq_none_iff]
    intro l hl
    rw [Bool.eq_false_iff]
    intro hprefix
    have hmem : a ∈ l := (List.isPrefixOf_iff_prefix.1 hprefix).subset List.mem_cons_self
    exact h (((List.mem_tails l s.chars).1 hl).subset hmem)
  rw [find, ht, hnone]

/-- and one that is there is found where it stands first. -/
theorem find_of_append (ht : t.chars = [a]) (hs : s.chars = before ++ a :: after)
    (h : a ∉ before) : s.find t = .ofNat before.length := by
  have hsome : (before ++ a :: after).tails.findIdx? [a].isPrefixOf = some before.length := by
    clear hs
    induction before with
    | nil => simp [List.findIdx?_cons]
    | cons b before ih =>
      obtain ⟨hne, hbefore⟩ := not_or.1 (mt List.mem_cons.2 h)
      rw [List.cons_append, List.tails_cons, List.findIdx?_cons, ih hbefore]
      simp [List.isPrefixOf, hne]
  rw [find, ht, hs, hsome]

end Find

end BasicString

end VireSandbox
