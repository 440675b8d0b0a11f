import Mathlib.Data.List.TakeWhile
import VireSandbox.Common.StdString
/-!
# The request — its input arguments

`key_val_parse` of `rpc_request.cxx` and what `main` does with it: up to
four arguments `key=value` from the command line, each split at its first
`=` and added to the request. Positions are unsigned, and `eq_pos + 1` of
an argument without `=` is the position 0: such an argument is its own key
and its own value (`splits_iff`).
-/

namespace VireSandbox

namespace Rpc

/-- `std::string`. -/
abbrev StdString := BasicString UInt8

/-- `=`. -/
def eqChar : UInt8 := 61

/-- `"="`. -/
def eqString : StdString := ⟨[eqChar], by decide⟩

/-- `struct key_val`. -/
structure KeyVal where
  key : StdString
  val : StdString
  deriving DecidableEq, Repr

/-- `key_val_parse`, or nothing where it throws. -/
def keyValParse (argStr : StdString) : Option KeyVal := do
  let eqPos := argStr.find eqString
  let key ← argStr.substr 0 eqPos
  let val ← argStr.substr (eqPos + 1) BasicString.npos
  return ⟨key, val⟩

/-- `nb_req_args`: the arguments up to the first that is empty. -/
def nbReqArgs (arg0 arg1 arg2 arg3 : StdString) : ℕ :=
  if arg0.isEmpty then 0
  else if arg1.isEmpty then 1
  else if arg2.isEmpty then 2
  else if arg3.isEmpty then 3
  else 4

/-- The calls of `add_input_argument` in `main`, in their order. -/
def inputArguments (arg0 arg1 arg2 arg3 : StdString) : Option (List KeyVal) :=
  ([arg0, arg1, arg2, arg3].take (nbReqArgs arg0 arg1 arg2 arg3)).mapM keyValParse

variable {s : StdString} {key val : List UInt8} {kv : KeyVal}

/-- **An argument with `=`** is split at the first of them, -/
theorem keyValParse_of_append (hs : s.chars = key ++ eqChar :: val) (h : eqChar ∉ key) :
    ∃ kv, keyValParse s = some kv ∧ kv.key.chars = key ∧ kv.val.chars = val := by
  have hfind : s.find eqString = .ofNat key.length := BasicString.find_of_append rfl hs h
  have hnext : UInt64.ofNat key.length + 1 = .ofNat (key ++ [eqChar]).length := by
    rw [List.length_append, UInt64.ofNat_add]
    rfl
  have hs' : s.chars = (key ++ [eqChar]) ++ val := by simpa using hs
  obtain ⟨k, hk, hkey⟩ := BasicString.substr_before hs
  obtain ⟨v, hv, hval⟩ := BasicString.substr_after hs'
  refine ⟨⟨k, v⟩, ?_, hkey, hval⟩
  rw [← hnext] at hv
  simp [keyValParse, hfind, hk, hv]

/-- **and one without is its own key and its own value.** -/
theorem keyValParse_of_not_mem (h : eqChar ∉ s.chars) : keyValParse s = some ⟨s, s⟩ := by
  have hfind : s.find eqString = BasicString.npos := BasicString.find_of_not_mem rfl h
  simp [keyValParse, hfind, BasicString.npos_add_one, BasicString.substr_zero_npos]

/-- **What an argument is to be split into**: a key without `=` and the rest,
which together are the argument where it has one, and the key alone where
it has none. -/
structure Splits (s : StdString) (kv : KeyVal) : Prop where
  key : eqChar ∉ kv.key.chars
  whole : eqChar ∈ s.chars → kv.key.chars ++ eqChar :: kv.val.chars = s.chars
  pair : ∀ key val, eqChar ∉ key → s.chars = key ++ eqChar :: val →
    kv.key.chars = key ∧ kv.val.chars = val
  alone : eqChar ∉ s.chars → kv.key = s ∧ kv.val.chars = []

/-- One with `=` is split as it is to be, -/
theorem splits_of_mem (h : eqChar ∈ s.chars) : ∃ kv, keyValParse s = some kv ∧ Splits s kv := by
  obtain ⟨key, val, hs, hkey⟩ := List.eq_append_cons_of_mem h
  obtain ⟨kv, hkv, rfl, rfl⟩ := keyValParse_of_append hs hkey
  refine ⟨kv, hkv, hkey, fun _ => hs.symm, fun key val hkey' hs' => ?_, fun hnot => absurd h hnot⟩
  -- another way to cut it before an `=` is the same
  obtain ⟨kv', hkv', rfl, rfl⟩ := keyValParse_of_append hs' hkey'
  obtain rfl : kv = kv' := Option.some_inj.1 (hkv.symm.trans hkv')
  exact ⟨rfl, rfl⟩

/-- and of the others none but the empty one is. -/
theorem mem_of_splits (hkv : keyValParse s = some kv) (h : Splits s kv) (hne : s.chars ≠ []) :
    eqChar ∈ s.chars := by
  by_contra hno
  obtain rfl : ⟨s, s⟩ = kv := Option.some_inj.1 ((keyValParse_of_not_mem hno).symm.trans hkv)
  exact hne (h.alone hno).2

/-- **An argument is split without loss or invention exactly where it has an
`=`**, or is empty. -/
theorem splits_iff (s : StdString) :
    (∃ kv, keyValParse s = some kv ∧ Splits s kv) ↔ eqChar ∈ s.chars ∨ s.chars = [] := by
  constructor
  · rintro ⟨kv, hkv, hsplits⟩
    by_cases hnil : s.chars = []
    · exact .inr hnil
    · exact .inl (mem_of_splits hkv hsplits hnil)
  · rintro (hmem | hnil)
    · exact splits_of_mem hmem
    · have hno : eqChar ∉ s.chars := by simp [hnil]
      exact ⟨⟨s, s⟩, keyValParse_of_not_mem hno, hno, fun hmem => absurd hmem hno,
        fun key val _ hs => by simp [hnil] at hs, fun _ => ⟨rfl, hnil⟩⟩

/-- `reset`. -/
def resetArg : StdString := ⟨[114, 101, 115, 101, 116], by decide⟩

/-- **The value of an argument without one is made up**: `--arg0 reset` sends
`reset` as the value of `reset`. -/
theorem not_splits_resetArg :
    inputArguments resetArg ⟨[], by decide⟩ ⟨[], by decide⟩ ⟨[], by decide⟩ =
        some [⟨resetArg, resetArg⟩] ∧
      ¬ ∃ kv, keyValParse resetArg = some kv ∧ Splits resetArg kv := by
  have hparse : keyValParse resetArg = some ⟨resetArg, resetArg⟩ :=
    keyValParse_of_not_mem (by decide)
  refine ⟨by decide, ?_⟩
  rintro ⟨kv, hkv, hsplits⟩
  obtain rfl : ⟨resetArg, resetArg⟩ = kv := by simpa [hparse] using hkv
  have hnil := (hsplits.alone (by decide)).2
  cases hnil

/-! ## The arguments of a request -/

/-- The arguments that are used are those before the first empty one. -/
theorem take_nbReqArgs (arg0 arg1 arg2 arg3 : StdString) :
    [arg0, arg1, arg2, arg3].take (nbReqArgs arg0 arg1 arg2 arg3) =
      [arg0, arg1, arg2, arg3].takeWhile fun s => !s.isEmpty := by
  unfold nbReqArgs
  cases h0 : arg0.isEmpty <;> cases h1 : arg1.isEmpty <;> cases h2 : arg2.isEmpty <;>
    cases h3 : arg3.isEmpty <;> simp [List.takeWhile, h0, h1, h2, h3]

/-- Each of a list of arguments is split as it is to be. -/
theorem mapM_keyValParse_iff {args : List StdString} :
    (∃ kvs, args.mapM keyValParse = some kvs ∧ List.Forall₂ Splits args kvs) ↔
      ∀ s ∈ args, ∃ kv, keyValParse s = some kv ∧ Splits s kv := by
  induction args with
  | nil => simp
  | cons s args ih =>
    rw [List.forall_mem_cons, ← ih]
    constructor
    · rintro ⟨kvs, hkvs, hsplits⟩
      obtain ⟨kv, hkv, rest, hrest, rfl⟩ : ∃ kv, keyValParse s = some kv ∧
          ∃ rest, args.mapM keyValParse = some rest ∧ kv :: rest = kvs := by
        simpa [List.mapM_cons, Option.bind_eq_some_iff] using hkvs
      obtain ⟨hhead, htail⟩ := List.forall₂_cons.1 hsplits
      exact ⟨⟨kv, hkv, hhead⟩, rest, hrest, htail⟩
    · rintro ⟨⟨kv, hkv, hhead⟩, rest, hrest, htail⟩
      exact ⟨kv :: rest, by simp [List.mapM_cons, hkv, hrest], .cons hhead htail⟩

/-- **What a request sends** is what was asked for exactly where each
argument up to the first empty one has an `=`. -/
theorem inputArguments_iff (arg0 arg1 arg2 arg3 : StdString) :
    (∃ kvs, inputArguments arg0 arg1 arg2 arg3 = some kvs ∧
      List.Forall₂ Splits ([arg0, arg1, arg2, arg3].takeWhile fun s => !s.isEmpty) kvs) ↔
    ∀ s ∈ [arg0, arg1, arg2, arg3].takeWhile fun s => !s.isEmpty, eqChar ∈ s.chars := by
  rw [inputArguments, take_nbReqArgs, mapM_keyValParse_iff]
  refine forall₂_congr fun s hs => ?_
  have hne : s.chars ≠ [] := by
    simpa [BasicString.isEmpty] using List.mem_takeWhile_imp hs
  exact ⟨fun ⟨_, hkv, hsplits⟩ => mem_of_splits hkv hsplits hne, splits_of_mem⟩

end Rpc

end VireSandbox
