import VireSandbox.Broker.Scripts
import Mathlib.Data.List.GetD
/-!
# The patterns — what they grant

Each pattern of the scripts is a list of branches, one for each variable
its word names: a name between anchors, the beginning of the generated
names, or nothing at all where the variable is not set. What a pattern
grants outside `amq.` is read off these (`grants_iff`), and where one of
the variables is not set that is everything, or next to nothing where it
stands alone.
-/

namespace VireSandbox

namespace Broker

open Shell

/-- The exchange each `X_` variable is for. -/
def exchanges : List (List Char × List Char) :=
  [ ("X_GATE", "gate.service"), ("X_QUEST", "resource_request.service"), ("X_LOG", "log.event"),
    ("X_ALARM", "alarm.event"), ("X_PSUB", "pubsub.event"), ("X_SUB_S", "subcontractor.service"),
    ("X_SUB_E", "subcontractor.event"), ("X_VIR_S", "vireserver.service"),
    ("X_VIR_E", "vireserver.event") ].map fun (x, exchange) => (x.toList, exchange.toList)

/-- **The exchanges a word lists**, by their variables. -/
def listed (word : String) : List (List Char) := (names word).filterMap (exchanges.lookup ·)

/-- The variables of a word that are not set. -/
def unset (env : Env) (word : String) : List (List Char) :=
  (names word).filter fun x => (env.lookup x).isNone

/-- What a variable of a pattern stands for. -/
inductive Branch
  | exact (name : List Char)
  | generated
  | nothing
  deriving DecidableEq, Repr

/-- The expression of a branch. -/
def Branch.re : Branch → Regex
  | exact name => .seqs (.bol :: name.map .char ++ [.eol])
  | generated => .seqs (.bol :: "amq.ge".toList.map .char ++ [.star (.char 'n')])
  | nothing => .seqs []

/-- The branch of a variable. -/
def Branch.of (env : Env) (x : List Char) : Branch :=
  if (env.lookup x).isNone then nothing
  else
    match exchanges.lookup x with
    | some exchange => exact exchange
    | none => if x = "AMQDEF".toList then exact "amq.default".toList else generated

/-- What a branch grants outside `amq.`. -/
def Branch.Grants (resource : List Char) : Branch → Prop
  | exact name => resource = name ∨ resource = name ++ ['\n']
  | generated => False
  | nothing => True

/-- A resource of the broker's own. -/
def Reserved (resource : List Char) : Prop := "amq.".toList <+: resource

instance (resource : List Char) : Decidable (Reserved resource) :=
  inferInstanceAs (Decidable (_ <+: _))

theorem found_branch {b : Branch} {resource : List Char} (hr : ¬ Reserved resource) :
    b.re.Found resource ↔ b.Grants resource := by
  cases b with
  | exact name => exact Regex.found_exact
  | generated =>
    refine iff_of_false (fun h => hr ?_) id
    exact (show "amq.".toList <+: "amq.ge".toList by decide).trans (Regex.found_bol_chars h)
  | nothing => exact iff_of_true Regex.found_nothing trivial

/-- **A word expands to its branches**, to none of them only where a
variable of it is not set. -/
def Branched (env : Env) (word : String) : Prop :=
  Regex.parse (expand env word) = some (.alts ((names word).map fun x => (Branch.of env x).re)) ∧
    (expand env word = [] → unset env word ≠ [])

instance (env : Env) (word : String) : Decidable (Branched env word) :=
  inferInstanceAs (Decidable (_ ∧ _))

/-- Every pattern of a script is its branches, but the administrator's. -/
def BranchedScript (script : List Line) : Prop :=
  ∀ ep ∈ permissions [] script, expand ep.1 ep.2.user ≠ "supernemo_adm".toList →
    Branched ep.1 ep.2.configure ∧ Branched ep.1 ep.2.write ∧ Branched ep.1 ep.2.read

instance (script : List Line) : Decidable (BranchedScript script) :=
  inferInstanceAs (Decidable (∀ _ ∈ _, _))

theorem branched_vireDomains2 : BranchedScript vireDomains2 := by
  decide +kernel

theorem branched_addTmpuserSh : BranchedScript addTmpuserSh := by
  decide +kernel

/-! ## What a pattern grants -/

variable {env : Env} {word : String} {x exchange resource : List Char}

theorem mem_listed :
    exchange ∈ listed word ↔ ∃ x ∈ names word, exchanges.lookup x = some exchange :=
  List.mem_filterMap

/-- No exchange has a newline in its name, and each has a name. -/
theorem exchange_name (h : exchanges.lookup x = some exchange) :
    exchange ≠ [] ∧ '\n' ∉ exchange := by
  have hall : ∀ e ∈ exchanges, e.2 ≠ [] ∧ '\n' ∉ e.2 := by decide
  obtain ⟨l, l', heq, -⟩ := List.lookup_eq_some_iff.1 h
  exact hall (x, exchange) (by simp [heq])

/-- A variable that is set grants its exchange, if it is for one. -/
theorem grants_of_set (hset : (env.lookup x).isNone = false) (hr : ¬ Reserved resource) :
    (Branch.of env x).Grants resource ↔
      ∃ exchange, exchanges.lookup x = some exchange ∧
        (resource = exchange ∨ resource = exchange ++ ['\n']) := by
  unfold Branch.of
  rw [hset, if_neg Bool.false_ne_true]
  cases hx : exchanges.lookup x with
  | some exchange => simp [Branch.Grants]
  | none =>
    refine iff_of_false (fun h => hr ?_) (by simp)
    dsimp only at h
    split at h
    · -- the default exchange is the broker's own
      rcases h with rfl | rfl
      · exact show "amq.".toList <+: "amq.default".toList by decide
      · exact show "amq.".toList <+: "amq.default".toList ++ ['\n'] by decide
    · cases h

/-- **What a pattern grants** outside `amq.`. -/
theorem grants_iff (h : Branched env word) (hr : ¬ Reserved resource) :
    Grants (expand env word) resource ↔
      if unset env word = [] then
        ∃ exchange ∈ listed word, resource = exchange ∨ resource = exchange ++ ['\n']
      else if expand env word = [] then resource = [] ∨ resource = ['\n']
      else True := by
  obtain ⟨hparse, hempty⟩ := h
  have hgrants : ∀ re, Regex.parse (searched (expand env word)) = some re →
      (Grants (expand env word) resource ↔ re.Found resource) := fun re hre =>
    ⟨fun ⟨re', hre', h⟩ => by rwa [Option.some_inj.1 (hre.symm.trans hre')], fun h => ⟨re, hre, h⟩⟩
  by_cases hnone : expand env word = []
  · -- the empty pattern is searched as `^$`
    have hre : Regex.parse (searched (expand env word)) =
        some (.alts [.seqs (.bol :: ([] : List Char).map .char ++ [.eol])]) := by
      rw [hnone]
      rfl
    rw [if_neg (hempty hnone), if_pos hnone, hgrants _ hre, Regex.found_alts]
    simp only [List.mem_singleton, exists_eq_left, Regex.found_exact, List.nil_append]
  · have hsearched : searched (expand env word) = expand env word := if_neg hnone
    rw [hgrants _ (hsearched ▸ hparse), Regex.found_alts]
    simp only [List.mem_map, exists_exists_and_eq_and, found_branch hr, if_neg hnone]
    split
    · next hset =>
      have hset' : ∀ x ∈ names word, (env.lookup x).isNone = false := by
        simpa [unset] using hset
      constructor
      · rintro ⟨x, hx, h⟩
        obtain ⟨exchange, hlookup, h⟩ := (grants_of_set (hset' x hx) hr).1 h
        exact ⟨exchange, mem_listed.2 ⟨x, hx, hlookup⟩, h⟩
      · rintro ⟨exchange, hmem, h⟩
        obtain ⟨x, hx, hlookup⟩ := mem_listed.1 hmem
        exact ⟨x, hx, (grants_of_set (hset' x hx) hr).2 ⟨exchange, hlookup, h⟩⟩
    · next hunset =>
      obtain ⟨x, hx⟩ := List.exists_mem_of_ne_nil _ hunset
      obtain ⟨hx, hnot⟩ := List.mem_filter.1 hx
      refine iff_of_true ⟨x, hx, ?_⟩ trivial
      rw [Branch.of, if_pos hnot]
      trivial

/-- What is listed is a name on one line. -/
theorem listed_name (h : resource ∈ listed word) : resource ≠ [] ∧ '\n' ∉ resource := by
  obtain ⟨x, -, hlookup⟩ := mem_listed.1 h
  exact exchange_name hlookup

/-- **A pattern of a script is its branches.** -/
theorem branched_of_mem {script : List Line} (h : BranchedScript script) {p : SetPermissions}
    (hp : (env, p) ∈ permissions [] script) (huser : expand env p.user ≠ "supernemo_adm".toList)
    (kind : Kind) : Branched env (p.word kind) := by
  obtain ⟨hconfigure, hwrite, hread⟩ := h (env, p) hp huser
  cases kind with
  | configure => exact hconfigure
  | write => exact hwrite
  | read => exact hread

/-- Where a pattern grants no more than what it lists. -/
def Tight (env : Env) (word : String) (resource : List Char) : Prop :=
  if unset env word = [] then resource ∉ (listed word).map (· ++ ['\n'])
  else if expand env word = [] then resource ∉ [] :: ['\n'] :: listed word
  else resource ∈ listed word

instance (env : Env) (word : String) (resource : List Char) :
    Decidable (Tight env word resource) :=
  inferInstanceAs (Decidable (ite _ _ (ite _ _ _)))

/-- **A pattern grants what it lists, and nothing else, exactly where each
of its variables is set** and the resource is not a listed name before a
newline; where one is not set, it agrees only on what it lists, or on the
rest where it is nothing but that variable. -/
theorem grants_iff_listed (script : List Line)
    (hscript : script = vireDomains2 ∨ script = addTmpuserSh) (env : Env) (p : SetPermissions)
    (hp : (env, p) ∈ permissions [] script) (huser : expand env p.user ≠ "supernemo_adm".toList)
    (kind : Kind) (resource : List Char) (hr : ¬ Reserved resource) :
    (Grants (expand env (p.word kind)) resource ↔ resource ∈ listed (p.word kind)) ↔
      Tight env (p.word kind) resource := by
  have hbranched : Branched env (p.word kind) := by
    rcases hscript with rfl | rfl
    · exact branched_of_mem branched_vireDomains2 hp huser kind
    · exact branched_of_mem branched_addTmpuserSh hp huser kind
  rw [grants_iff hbranched hr]
  unfold Tight
  generalize p.word kind = word
  split
  · constructor
    · rintro h hmem
      obtain ⟨exchange, hlisted, rfl⟩ := List.mem_map.1 hmem
      exact (listed_name (h.1 ⟨exchange, hlisted, .inr rfl⟩)).2 (by simp)
    · intro hnot
      refine ⟨?_, fun hmem => ⟨resource, hmem, .inl rfl⟩⟩
      rintro ⟨exchange, hmem, rfl | rfl⟩
      · exact hmem
      · exact absurd (List.mem_map.2 ⟨exchange, hmem, rfl⟩) hnot
  · split
    · -- neither of the two names `^$` is found in is listed
      have hname : resource ∈ listed word → ¬ (resource = [] ∨ resource = ['\n']) := by
        rintro hlisted (rfl | rfl)
        · exact (listed_name hlisted).1 rfl
        · exact (listed_name hlisted).2 (by simp)
      constructor
      · intro h hmem
        have hor : (resource = [] ∨ resource = ['\n']) ∨ resource ∈ listed word := by
          simpa [or_assoc] using hmem
        rcases hor with hor | hlisted
        · exact hname (h.1 hor) hor
        · exact hname hlisted (h.2 hlisted)
      · intro hnot
        simp only [List.mem_cons, not_or] at hnot
        obtain ⟨hnil, hnewline, hlisted⟩ := hnot
        exact iff_of_false (by simp [hnil, hnewline]) hlisted
    · exact iff_of_eq (true_iff _)

/-- What a script sets in its `n`th place. -/
def permitAt (script : List Line) (n : ℕ) : Env × SetPermissions :=
  (permissions [] script).getD n ([], ⟨"", "", "", "", ""⟩)

theorem permitAt_mem (script : List Line) (n : ℕ) (h : n < (permissions [] script).length) :
    permitAt script n ∈ permissions [] script := by
  rw [permitAt, List.getD_eq_getElem _ _ h]
  exact List.getElem_mem h

/-- The server reads from the gate, and from nothing like it. -/
theorem grants_iff_listed_gate :
    expand (permitAt vireDomains2 5).1 (permitAt vireDomains2 5).2.user = "vireserver".toList ∧
    Grants (expand (permitAt vireDomains2 5).1 ((permitAt vireDomains2 5).2.word .read))
      "gate.service".toList ∧
    ¬ Grants (expand (permitAt vireDomains2 5).1 ((permitAt vireDomains2 5).2.word .read))
      "gate_service".toList := by
  have hmem : ((permitAt vireDomains2 5).1, (permitAt vireDomains2 5).2) ∈
      permissions [] vireDomains2 := permitAt_mem vireDomains2 5 (by decide +kernel)
  have huser : expand (permitAt vireDomains2 5).1 (permitAt vireDomains2 5).2.user =
      "vireserver".toList := by decide +kernel
  have hnot : expand (permitAt vireDomains2 5).1 (permitAt vireDomains2 5).2.user ≠
      "supernemo_adm".toList := by
    rw [huser]
    decide
  have hiff := fun r hr => grants_iff_listed vireDomains2 (.inl rfl) _ _ hmem hnot .read r hr
  refine ⟨huser, ?_, ?_⟩
  · exact ((hiff "gate.service".toList (by decide)).2 (by decide +kernel)).2 (by decide +kernel)
  · exact mt ((hiff "gate_service".toList (by decide)).2 (by decide +kernel)).1 (by decide +kernel)

/-- **A variable that is not set opens every exchange**, and closes the one
it is for. -/
theorem not_listed_addTmpuserSh :
    ((permitAt addTmpuserSh 1).2.vhost = "$VH_MONI" ∧
      listed ((permitAt addTmpuserSh 1).2.word .write) = ["resource_request.service".toList] ∧
      Grants (expand (permitAt addTmpuserSh 1).1 ((permitAt addTmpuserSh 1).2.word .write))
        "alarm.event".toList) ∧
    (permitAt addTmpuserSh 0).2.vhost = "$VH_CTRL" ∧
      listed ((permitAt addTmpuserSh 0).2.word .write) = ["resource_request.service".toList] ∧
      ¬ Grants (expand (permitAt addTmpuserSh 0).1 ((permitAt addTmpuserSh 0).2.word .write))
        "resource_request.service".toList := by
  refine ⟨⟨by decide, by decide, ?_⟩, by decide, by decide, ?_⟩
  · decide +kernel
  · decide +kernel

end Broker

end VireSandbox
