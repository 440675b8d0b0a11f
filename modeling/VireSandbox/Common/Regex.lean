import Mathlib.Data.List.Infix
import Mathlib.Logic.Relation
/-!
# Regular expressions — with anchors, searched in a text

The part of Perl's regular expressions that is made of characters, `.`,
the two anchors, sequences, alternatives and repetitions, with the
meaning it has by default: a pattern is searched anywhere in the text, and
`$` is also before a newline that ends it. `Matches` gives each operator
its meaning between two places of the text, `parse` reads the notation,
and the rules say what the usual shapes find: an alternative finds what
one of its branches does (`found_alts`), a name between two anchors finds
itself (`found_exact`), and nothing at all finds everything
(`found_nothing`). The search can also be run (`found_iff`).
-/

namespace VireSandbox

/-- **A regular expression.** `fail` matches nothing, and no notation. -/
inductive Regex
  | fail
  | eps
  | char (c : Char)
  | any
  | bol
  | eol
  | seq (a b : Regex)
  | alt (a b : Regex)
  | star (a : Regex)
  deriving DecidableEq, Repr

namespace Regex

/-- The places `$` stands for: the end, and before a newline there. -/
def AtEnd (w : List Char) (i : ℕ) : Prop := w.drop i = [] ∨ w.drop i = ['\n']

/-- What an expression matches, from one place of a text to another. -/
def Matches (w : List Char) : Regex → ℕ → ℕ → Prop
  | fail, _, _ => False
  | eps, i, j => j = i
  | char c, i, j => w[i]? = some c ∧ j = i + 1
  | any, i, j => (∃ c, w[i]? = some c ∧ c ≠ '\n') ∧ j = i + 1
  | bol, i, j => i = 0 ∧ j = i
  | eol, i, j => AtEnd w i ∧ j = i
  | seq a b, i, j => ∃ k, Matches w a i k ∧ Matches w b k j
  | alt a b, i, j => Matches w a i j ∨ Matches w b i j
  | star a, i, j => Relation.ReflTransGen (Matches w a) i j

/-- **The search**: a match somewhere in the text. -/
def Found (re : Regex) (w : List Char) : Prop := ∃ i j, i ≤ w.length ∧ Matches w re i j

/-- One after the other. -/
def seqs (rs : List Regex) : Regex := rs.foldr seq eps

/-- One of them. -/
def alts (rs : List Regex) : Regex := rs.foldr alt fail

/-! ## Notation -/

/-- What has been read of a pattern: the branches before, the parts of the
present one, the last read first in both, and whether a backslash is
open. -/
structure Reading where
  branches : List Regex
  parts : List Regex
  escaped : Bool
  deriving DecidableEq, Repr

namespace Reading

/-- The start of a pattern. -/
def start : Reading := ⟨[], [], false⟩

/-- A part is read. -/
def push (p : Reading) (a : Regex) : Reading := { p with parts := a :: p.parts, escaped := false }

/-- The branches so far, with the present one. -/
def close (p : Reading) : List Regex := seqs p.parts.reverse :: p.branches

/-- One character of a pattern; there is no reading of what is outside the
notation. -/
def read (p : Reading) (c : Char) : Option Reading :=
  if p.escaped then
    if c.isAlphanum then none else some (p.push (char c))
  else
    match c with
    | '\\' => some { p with escaped := true }
    | '|' => some ⟨p.close, [], false⟩
    | '^' => some (p.push bol)
    | '$' => some (p.push eol)
    | '.' => some (p.push any)
    | '*' =>
      match p.parts with
      | char d :: rest => some { p with parts := star (char d) :: rest }
      | any :: rest => some { p with parts := star any :: rest }
      | _ => none
    | '(' | ')' | '[' | ']' | '+' | '?' | '\x7b' | '\x7d' => none
    | c => some (p.push (char c))

end Reading

/-- The expression a pattern denotes. -/
def parse (text : List Char) : Option Regex :=
  (text.foldlM Reading.read .start).bind fun p =>
    if p.escaped then none else some (alts p.close.reverse)

/-! ## What is found -/

variable {w cs : List Char} {rs : List Regex} {a b : Regex} {i j : ℕ}

theorem found_alt : Found (alt a b) w ↔ Found a w ∨ Found b w := by
  constructor
  · rintro ⟨i, j, hi, h | h⟩
    · exact .inl ⟨i, j, hi, h⟩
    · exact .inr ⟨i, j, hi, h⟩
  · rintro (⟨i, j, hi, h⟩ | ⟨i, j, hi, h⟩)
    · exact ⟨i, j, hi, .inl h⟩
    · exact ⟨i, j, hi, .inr h⟩

/-- **An alternative finds what one of its branches does.** -/
theorem found_alts : Found (alts rs) w ↔ ∃ a ∈ rs, Found a w := by
  induction rs with
  | nil => simp [alts, Found, Matches]
  | cons a rs ih =>
    change Found (alt a (alts rs)) w ↔ _
    rw [found_alt, ih]
    simp

/-- **Nothing finds everything.** -/
theorem found_nothing : Found (seqs []) w := ⟨0, 0, Nat.zero_le _, rfl⟩

/-- A part that matches in a sequence is matched first. -/
theorem matches_seqs_cons :
    Matches w (seqs (a :: rs)) i j ↔ ∃ k, Matches w a i k ∧ Matches w (seqs rs) k j :=
  Iff.rfl

/-- Characters in a row match where the text has them. -/
theorem matches_chars :
    Matches w (seqs (cs.map char ++ rs)) i j ↔
      cs <+: w.drop i ∧ Matches w (seqs rs) (i + cs.length) j := by
  induction cs generalizing i with
  | nil => simp
  | cons c cs ih =>
    rw [List.map_cons, List.cons_append, matches_seqs_cons, List.cons_prefix_iff]
    constructor
    · rintro ⟨k, ⟨hc, rfl⟩, h⟩
      obtain ⟨hpre, hrest⟩ := ih.1 h
      obtain ⟨hi, hget⟩ := List.getElem?_eq_some_iff.1 hc
      refine ⟨⟨_, by rw [List.drop_eq_getElem_cons hi, hget], hpre⟩, ?_⟩
      rwa [List.length_cons, ← Nat.add_assoc, Nat.add_right_comm]
    · rintro ⟨⟨t, ht, hpre⟩, hrest⟩
      have hget : w[i]? = some c := by
        have := congrArg (·[0]?) ht
        simpa using this
      have hdrop : w.drop (i + 1) = t := by
        rw [← List.drop_drop, ht]
        rfl
      refine ⟨i + 1, ⟨hget, rfl⟩, ih.2 ⟨by rwa [hdrop], ?_⟩⟩
      rwa [List.length_cons, ← Nat.add_assoc, Nat.add_right_comm] at hrest

/-- What starts at the start of the text. -/
theorem found_bol : Found (seqs (bol :: rs)) w ↔ ∃ j, Matches w (seqs rs) 0 j := by
  constructor
  · rintro ⟨i, j, -, k, ⟨rfl, rfl⟩, h⟩
    exact ⟨j, h⟩
  · rintro ⟨j, h⟩
    exact ⟨0, j, Nat.zero_le _, 0, ⟨rfl, rfl⟩, h⟩

/-- **A beginning finds only what begins so.** -/
theorem found_bol_chars (h : Found (seqs (bol :: cs.map char ++ rs)) w) : cs <+: w := by
  obtain ⟨j, h⟩ := found_bol.1 h
  exact (matches_chars.1 h).1

/-- **A name between two anchors finds itself**, and itself before a
newline. -/
theorem found_exact :
    Found (seqs (bol :: cs.map char ++ [eol])) w ↔ w = cs ∨ w = cs ++ ['\n'] := by
  rw [List.cons_append, found_bol]
  simp only [matches_chars, List.drop_zero, Nat.zero_add]
  constructor
  · rintro ⟨j, ⟨t, rfl⟩, k, ⟨hend, -⟩, -⟩
    rw [AtEnd, List.drop_left] at hend
    rcases hend with rfl | rfl
    · exact .inl (List.append_nil cs)
    · exact .inr rfl
  · intro h
    refine ⟨cs.length, ?_, cs.length, ⟨?_, rfl⟩, rfl⟩
    · rcases h with rfl | rfl
      · exact List.prefix_rfl
      · exact List.prefix_append _ _
    · rcases h with rfl | rfl
      · exact .inl List.drop_length
      · exact .inr List.drop_left

/-! ## Running the search -/

instance (w : List Char) (i : ℕ) : Decidable (AtEnd w i) := inferInstanceAs (Decidable (_ ∨ _))

/-- The places `f` leads to from one place, in any number of steps; `n`
bounds how often it can move on. -/
def closure (f : ℕ → List ℕ) : ℕ → ℕ → List ℕ
  | 0, i => [i]
  | n + 1, i => i :: ((f i).filter (i < ·)).flatMap (closure f n)

/-- Where the matches that start in one place end. -/
def ends (w : List Char) : Regex → ℕ → List ℕ
  | fail, _ => []
  | eps, i => [i]
  | char c, i => if w[i]? = some c then [i + 1] else []
  | any, i => if w[i]?.any (· ≠ '\n') then [i + 1] else []
  | bol, i => if i = 0 then [i] else []
  | eol, i => if AtEnd w i then [i] else []
  | seq a b, i => (ends w a i).flatMap (ends w b)
  | alt a b, i => ends w a i ++ ends w b i
  | star a, i => closure (ends w a) (w.length - i) i

/-- A match goes forward, and stays inside the text. -/
theorem Matches.le (h : Matches w a i j) (hi : i ≤ w.length) : i ≤ j ∧ j ≤ w.length := by
  induction a generalizing i j with
  | fail => exact h.elim
  | eps =>
    obtain rfl : j = i := h
    exact ⟨le_rfl, hi⟩
  | char c =>
    obtain ⟨hc, rfl⟩ := h
    obtain ⟨hlt, -⟩ := List.getElem?_eq_some_iff.1 hc
    omega
  | any =>
    obtain ⟨⟨c, hc, -⟩, rfl⟩ := h
    obtain ⟨hlt, -⟩ := List.getElem?_eq_some_iff.1 hc
    omega
  | bol | eol =>
    obtain rfl : j = i := h.2
    exact ⟨le_rfl, hi⟩
  | seq a b iha ihb =>
    obtain ⟨k, ha, hb⟩ := h
    obtain ⟨hik, hk⟩ := iha ha hi
    obtain ⟨hkj, hj⟩ := ihb hb hk
    exact ⟨hik.trans hkj, hj⟩
  | alt a b iha ihb =>
    rcases h with h | h
    · exact iha h hi
    · exact ihb h hi
  | star a iha =>
    change Relation.ReflTransGen (Matches w a) i j at h
    induction h with
    | refl => exact ⟨le_rfl, hi⟩
    | tail _ hstep ih =>
      obtain ⟨hkj, hj⟩ := iha hstep ih.2
      exact ⟨ih.1.trans hkj, hj⟩

/-- What goes forward inside the text is followed to its end. -/
theorem mem_closure {f : ℕ → List ℕ} {r : ℕ → ℕ → Prop} {N n : ℕ}
    (hf : ∀ i, i ≤ N → ∀ j, j ∈ f i ↔ r i j) (hr : ∀ i j, i ≤ N → r i j → i ≤ j ∧ j ≤ N)
    (hi : i ≤ N) (hn : N - i ≤ n) : j ∈ closure f n i ↔ Relation.ReflTransGen r i j := by
  constructor
  · intro h
    induction n generalizing i with
    | zero =>
      rw [List.mem_singleton.1 h]
    | succ n ih =>
      rcases List.mem_cons.1 h with rfl | h
      · exact .refl
      · obtain ⟨k, hk, hj⟩ := List.mem_flatMap.1 h
        obtain ⟨hk, hlt⟩ := List.mem_filter.1 hk
        have hstep := (hf i hi k).1 hk
        have hlt : i < k := by simpa using hlt
        exact .head hstep (ih (hr i k hi hstep).2 (by omega) hj)
  · intro h
    induction h using Relation.ReflTransGen.head_induction_on generalizing n with
    | refl => cases n <;> simp [closure]
    | @head i k hstep _ ih =>
      obtain ⟨hik, hk⟩ := hr i k hi hstep
      rcases hik.eq_or_lt with rfl | hlt
      · exact ih hi hn
      · obtain ⟨m, rfl⟩ : ∃ m, n = m + 1 := ⟨n - 1, by omega⟩
        refine List.mem_cons_of_mem _ (List.mem_flatMap.2 ⟨k, ?_, ih hk (by omega)⟩)
        exact List.mem_filter.2 ⟨(hf i hi k).2 hstep, by simpa using hlt⟩

/-- **The matches can be run.** -/
theorem mem_ends (hi : i ≤ w.length) : j ∈ ends w a i ↔ Matches w a i j := by
  induction a generalizing i j with
  | fail | eps => simp [ends, Matches]
  | char c | bol | eol => simp [ends, Matches]
  | any => cases hget : w[i]? <;> simp [ends, Matches, hget]
  | seq a b iha ihb =>
    simp only [ends, List.mem_flatMap]
    constructor
    · rintro ⟨k, hk, hj⟩
      have hak := (iha hi).1 hk
      exact ⟨k, hak, (ihb (hak.le hi).2).1 hj⟩
    · rintro ⟨k, hak, hbj⟩
      exact ⟨k, (iha hi).2 hak, (ihb (hak.le hi).2).2 hbj⟩
  | alt a b iha ihb =>
    simp only [ends, List.mem_append, iha hi, ihb hi]
    rfl
  | star a iha =>
    exact mem_closure (fun i hi j => iha hi) (fun i j hi h => h.le hi) hi le_rfl

/-- **And so can the search.** -/
theorem found_iff : Found a w ↔ ∃ i ∈ List.range (w.length + 1), ends w a i ≠ [] := by
  constructor
  · rintro ⟨i, j, hi, h⟩
    exact ⟨i, by simpa using by omega, List.ne_nil_of_mem ((mem_ends hi).2 h)⟩
  · rintro ⟨i, hmem, hne⟩
    have hi : i ≤ w.length := by simpa [Nat.lt_succ_iff] using hmem
    obtain ⟨j, hj⟩ := List.exists_mem_of_ne_nil _ hne
    exact ⟨i, j, hi, (mem_ends hi).1 hj⟩

instance (re : Regex) (w : List Char) : Decidable (Found re w) := decidable_of_iff' _ found_iff

end Regex

end VireSandbox
