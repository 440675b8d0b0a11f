import Mathlib.Data.List.Basic
import Mathlib.Order.Basic
/-!
# Chains — fallible operations through one flag

A chain is a straight-line program over a service: each of its operations
either takes full effect or fails with none, and a flag `ok` says which.
`if (ok) ok = f ()` is left out once the flag is down; `ok = f ()` is not,
and forgets a failure before it, as `ok = true` does. Whether an
operation fails is the environment's to choose at each place, unless the
service itself refuses it.

A chain whose operations are all guarded goes through or is cut at one
failure (`exec_ifOk`), and an invariant of its operations is one of its
runs, wherever they are cut (`exec_invariant`), and of any number of them
(`reruns_invariant`).
-/

namespace VireSandbox

/-- **What a service does with an operation**: whether it accepts it, and
what becomes of its state then. -/
structure Service (σ α : Type*) where
  accepts : σ → α → Bool
  effect : σ → α → σ

/-- A statement of a chain. -/
inductive Stmt (α : Type*)
  /-- `ok = a ()`. -/
  | assign (a : α)
  /-- `if (ok) ok = a ()`. -/
  | ifOk (a : α)
  /-- `ok = true`. -/
  | reset
  deriving DecidableEq, Repr

/-- The flag, the state of the service, and whether an operation has failed
so far, of which the program keeps no record. -/
structure Progress (σ : Type*) where
  ok : Bool
  state : σ
  failed : Bool

namespace Service

variable {σ α : Type*} (S : Service σ α)

/-- An operation that is made. -/
def perform (fails : Bool) (a : α) (r : Progress σ) : Progress σ :=
  if fails || !S.accepts r.state a then ⟨false, r.state, true⟩
  else ⟨true, S.effect r.state a, r.failed⟩

/-- One statement. -/
def execStmt (fails : Bool) (r : Progress σ) : Stmt α → Progress σ
  | .assign a => S.perform fails a r
  | .ifOk a => if r.ok then S.perform fails a r else r
  | .reset => { r with ok := true }

/-- A program; `fails n` is whether the operation of its statement `n`
fails when it is made. -/
def exec : List (Stmt α) → (ℕ → Bool) → Progress σ → Progress σ
  | [], _, r => r
  | p :: ps, fails, r => exec ps (fun n => fails (n + 1)) (S.execStmt (fails 0) r p)

/-- A program from its start. -/
def run (ps : List (Stmt α)) (fails : ℕ → Bool) (s : σ) : Progress σ :=
  S.exec ps fails ⟨true, s, false⟩

/-- A program run again and again, each time with failures of its own. -/
def reruns (ps : List (Stmt α)) (history : List (ℕ → Bool)) (s : σ) : σ :=
  history.foldl (fun s fails => (S.run ps fails s).state) s

/-- The state after operations that all take effect. -/
def after (s : σ) (as : List α) : σ := as.foldl S.effect s

/-- No operation of a list fails, made one after the other. -/
def GoesThrough (fails : ℕ → Bool) (s : σ) : List α → Prop
  | [] => True
  | a :: as => fails 0 = false ∧ S.accepts s a = true ∧
      GoesThrough (fun n => fails (n + 1)) (S.effect s a) as

variable {S} {fails : ℕ → Bool} {b : Bool} {r : Progress σ} {s : σ} {a : α} {as : List α}
variable {ps qs : List (Stmt α)}

theorem perform_of_accepts (h : S.accepts r.state a = true) :
    S.perform false a r = ⟨true, S.effect r.state a, r.failed⟩ := by
  simp [perform, h]

theorem perform_of_fails (h : b = true ∨ S.accepts r.state a = false) :
    S.perform b a r = ⟨false, r.state, true⟩ := by
  rcases h with h | h <;> simp [perform, h]

/-- What an operation that is made can come to. -/
theorem perform_cases (S : Service σ α) (b : Bool) (a : α) (r : Progress σ) :
    (b = false ∧ S.accepts r.state a = true ∧
      S.perform b a r = ⟨true, S.effect r.state a, r.failed⟩) ∨
    ((b = true ∨ S.accepts r.state a = false) ∧ S.perform b a r = ⟨false, r.state, true⟩) := by
  cases b with
  | true => exact .inr ⟨.inl rfl, perform_of_fails (.inl rfl)⟩
  | false =>
    cases h : S.accepts r.state a with
    | true => exact .inl ⟨rfl, rfl, perform_of_accepts h⟩
    | false => exact .inr ⟨.inr rfl, perform_of_fails (.inr h)⟩

theorem perform_ok_iff : (S.perform b a r).ok = true ↔ b = false ∧ S.accepts r.state a = true := by
  rcases S.perform_cases b a r with ⟨hb, haccepts, hp⟩ | ⟨hno, hp⟩
  · rw [hp]
    exact iff_of_true rfl ⟨hb, haccepts⟩
  · rw [hp]
    refine iff_of_false Bool.false_ne_true fun h => ?_
    rcases hno with hno | hno
    · simp [hno] at h
    · simp [hno] at h

@[simp] theorem exec_nil : S.exec [] fails r = r := rfl

@[simp] theorem exec_cons (p : Stmt α) :
    S.exec (p :: ps) fails r = S.exec ps (fun n => fails (n + 1)) (S.execStmt (fails 0) r p) :=
  rfl

theorem exec_append : S.exec (ps ++ qs) fails r =
    S.exec qs (fun n => fails (n + ps.length)) (S.exec ps fails r) := by
  induction ps generalizing fails r with
  | nil => rfl
  | cons p ps ih => exact ih

@[simp] theorem after_nil : S.after s [] = s := rfl

@[simp] theorem after_cons : S.after s (a :: as) = S.after (S.effect s a) as := rfl

theorem after_append {bs : List α} : S.after s (as ++ bs) = S.after (S.after s as) bs :=
  List.foldl_append

/-- **What its operations preserve, a program preserves**, wherever it is
cut and however it goes on. -/
theorem exec_invariant (I : σ → Prop)
    (hI : ∀ a s, .assign a ∈ ps ∨ .ifOk a ∈ ps → I s → S.accepts s a = true → I (S.effect s a))
    (h : I r.state) : I (S.exec ps fails r).state := by
  induction ps generalizing fails r with
  | nil => exact h
  | cons p ps ih =>
    rw [exec_cons]
    refine ih (fun a s ha => hI a s (ha.imp (List.mem_cons_of_mem p) (List.mem_cons_of_mem p))) ?_
    have hperform : ∀ a, .assign a ∈ p :: ps ∨ .ifOk a ∈ p :: ps →
        I (S.perform (fails 0) a r).state := by
      intro a ha
      rcases S.perform_cases (fails 0) a r with
        ⟨-, hok, hp⟩ | ⟨-, hp⟩
      · rw [hp]
        exact hI a r.state ha h hok
      · rw [hp]
        exact h
    cases p with
    | assign a => exact hperform a (by simp)
    | ifOk a =>
      change I (if r.ok = true then S.perform (fails 0) a r else r).state
      split
      · exact hperform a (by simp)
      · exact h
    | reset => exact h

@[simp] theorem reruns_nil : S.reruns ps [] s = s := rfl

@[simp] theorem reruns_cons (history : List (ℕ → Bool)) :
    S.reruns ps (fails :: history) s = S.reruns ps history (S.run ps fails s).state := rfl

/-- **And so do its reruns.** -/
theorem reruns_invariant (I : σ → Prop)
    (hI : ∀ a s, .assign a ∈ ps ∨ .ifOk a ∈ ps → I s → S.accepts s a = true → I (S.effect s a))
    (history : List (ℕ → Bool)) (h : I s) : I (S.reruns ps history s) := by
  induction history generalizing s with
  | nil => exact h
  | cons fails history ih => exact ih (exec_invariant I hI h)

/-- Guarded operations do nothing once the flag is down. -/
theorem exec_ifOk_of_not_ok (h : r.ok = false) : S.exec (as.map .ifOk) fails r = r := by
  induction as generalizing fails with
  | nil => rfl
  | cons a as ih =>
    rw [List.map_cons, exec_cons, execStmt, h, if_neg Bool.false_ne_true]
    exact ih

/-- The first of the guarded operations: it takes effect, or nothing of the
program does. -/
theorem run_ifOk_cases (S : Service σ α) (fails : ℕ → Bool) (s : σ) (a : α) (as : List α) :
    (fails 0 = false ∧ S.accepts s a = true ∧ S.run ((a :: as).map .ifOk) fails s =
      S.run (as.map .ifOk) (fun n => fails (n + 1)) (S.effect s a)) ∨
    ((fails 0 = true ∨ S.accepts s a = false) ∧
      S.run ((a :: as).map .ifOk) fails s = ⟨false, s, true⟩) := by
  unfold run
  rw [List.map_cons, exec_cons, execStmt, if_pos rfl]
  rcases S.perform_cases (fails 0) a ⟨true, s, false⟩ with
    ⟨hfails, haccepts, hp⟩ | ⟨hno, hp⟩
  · exact .inl ⟨hfails, haccepts, by rw [hp]⟩
  · exact .inr ⟨hno, by rw [hp, exec_ifOk_of_not_ok rfl]⟩

/-- **Guarded operations that go through** have each taken effect. -/
theorem exec_ifOk (h : S.GoesThrough fails r.state as) (hok : r.ok = true) :
    S.exec (as.map .ifOk) fails r = ⟨true, S.after r.state as, r.failed⟩ := by
  induction as generalizing fails r with
  | nil =>
    obtain ⟨ok, s, failed⟩ := r
    obtain rfl : ok = true := hok
    rfl
  | cons a as ih =>
    obtain ⟨hfails, haccepts, h⟩ := h
    rw [List.map_cons, exec_cons, execStmt, if_pos hok, hfails, perform_of_accepts haccepts]
    exact ih h rfl

/-- **And those that do not** leave the flag down. -/
theorem exec_ifOk_cut (h : ¬ S.GoesThrough fails r.state as) :
    (S.exec (as.map .ifOk) fails r).ok = false := by
  induction as generalizing fails r with
  | nil => exact absurd trivial h
  | cons a as ih =>
    rw [List.map_cons, exec_cons, execStmt]
    by_cases hok : r.ok = true
    · rw [if_pos hok]
      rcases S.perform_cases (fails 0) a r with
        ⟨hfails, haccepts, hp⟩ | ⟨-, hp⟩
      · rw [hp]
        exact ih fun hrest => h ⟨hfails, haccepts, hrest⟩
      · rw [hp, exec_ifOk_of_not_ok rfl]
    · rw [if_neg hok, exec_ifOk_of_not_ok (by simpa using hok)]
      simpa using hok

/-- What goes through is not made to fail, -/
theorem GoesThrough.not_fails (h : S.GoesThrough fails s as) {n : ℕ} (hn : n < as.length) :
    fails n = false := by
  induction as generalizing fails s n with
  | nil => exact absurd hn (Nat.not_lt_zero n)
  | cons a as ih =>
    cases n with
    | zero => exact h.1
    | succ n => exact ih h.2.2 (by simpa using hn)

/-- and each of its operations is accepted by a state that the ones before
it lead to. -/
theorem GoesThrough.accepts (h : S.GoesThrough fails s as) (I : σ → Prop)
    (hI : ∀ a s, a ∈ as → I s → I (S.effect s a)) (hs : I s) (ha : a ∈ as) :
    ∃ t, I t ∧ S.accepts t a = true := by
  induction as generalizing fails s with
  | nil => cases ha
  | cons a' as ih =>
    obtain ⟨-, haccepts, hrest⟩ := h
    rcases List.mem_cons.1 ha with rfl | ha
    · exact ⟨s, hs, haccepts⟩
    · exact ih hrest (fun a s ha => hI a s (List.mem_cons_of_mem a' ha))
        (hI a' s List.mem_cons_self hs) ha

end Service

end VireSandbox
