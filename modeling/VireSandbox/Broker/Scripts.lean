import VireSandbox.Common.Regex
import VireSandbox.Common.Shell
/-!
# The scripts — their permissions

`vire_domains2.sh` and `add_tmpuser_wxCVbn.sh`, as far as they set
permissions: their assignments and their `rabbitmqctl set_permissions`,
each word as it stands in the script. What a pattern grants is up to the
broker, which searches it in the name of the resource, and takes the
empty pattern for `^$`.
-/

namespace VireSandbox

namespace Broker

open Shell

/-- The kinds of permission, in the order of their patterns. -/
inductive Kind
  | configure
  | write
  | read
  deriving DecidableEq, Repr

/-- The words of a `set_permissions -p vhost user configure write read`. -/
structure SetPermissions where
  vhost : String
  user : String
  configure : String
  write : String
  read : String
  deriving DecidableEq, Repr

/-- The word of a pattern. -/
def SetPermissions.word (p : SetPermissions) : Kind → String
  | .configure => p.configure
  | .write => p.write
  | .read => p.read

/-- A line of a script. -/
inductive Line
  | assign (name word : String)
  | permit (p : SetPermissions)
  deriving DecidableEq, Repr

/-- What a script sets, with the variables there are when it does. -/
def permissions : Env → List Line → List (Env × SetPermissions)
  | _, [] => []
  | env, .assign name word :: ls => permissions ((name.toList, expand env word) :: env) ls
  | env, .permit p :: ls => (env, p) :: permissions env ls

/-- `vire_domains2.sh`. -/
def vireDomains2 : List Line :=
  [ .assign "VH_GATE" "/supernemo/demonstrator/cms/vire/clients/gate",
    .assign "VH_CTRL" "/supernemo/demonstrator/cms/vire/control",
    .assign "VH_MONI" "/supernemo/demonstrator/cms/vire/monitoring",
    .assign "VH_CMS" "/supernemo/demonstrator/cms/vire/subcontractors/system/cmslapp",
    -- exchanges & regexps
    .assign "AMQGEN" "^amq\\\\.gen*",
    .assign "AMQDEF" "^amq\\\\.default$",
    .assign "X_GATE" "^gate\\\\.service$",
    .assign "X_QUEST" "^resource_request\\\\.service$",
    .assign "X_LOG" "^log\\\\.event$",
    .assign "X_ALARM" "^alarm\\\\.event$",
    .assign "X_PSUB" "^pubsub\\\\.event$",
    .assign "X_SUB_S" "^subcontractor\\\\.service$",
    .assign "X_SUB_E" "^subcontractor\\\\.event$",
    .assign "X_VIR_S" "^vireserver\\\\.service$",
    .assign "X_VIR_E" "^vireserver\\\\.event$",
    -- users
    .assign "USER" "supernemo_adm",
    .permit ⟨"/", "$USER", ".*", ".*", ".*"⟩,
    .permit ⟨"$VH_GATE", "$USER", ".*", ".*", ".*"⟩,
    .permit ⟨"$VH_CTRL", "$USER", ".*", ".*", ".*"⟩,
    .permit ⟨"$VH_MONI", "$USER", ".*", ".*", ".*"⟩,
    .permit ⟨"$VH_CMS", "$USER", ".*", ".*", ".*"⟩,
    .assign "USER" "vireserver",
    .permit ⟨"$VH_GATE", "$USER", "$AMQGEN", "$AMQDEF|$AMQGEN", "$X_GATE|$AMQGEN"⟩,
    .permit ⟨"$VH_CTRL", "$USER", "$AMQGEN", "$AMQDEF|$AMQGEN", "$X_QUEST|$AMQGEN"⟩,
    .permit ⟨"$VH_MONI", "$USER", "$AMQGEN",
      "$AMQDEF|$AMQGEN|$X_QUEST|$X_LOG|$X_ALARM|$X_PSUB",
      "$X_QUEST|$AMQGEN|$X_LOG|$X_ALARM|$X_PSUB"⟩,
    .permit ⟨"$VH_CMS", "$USER", "$AMQGEN",
      "$AMQDEF|$AMQGEN|$X_SUB_S|$X_VIR_E|$X_VIR_S|$X_SUB_E",
      "$X_VIR_S|$AMQGEN|$X_SUB_E|$X_SUB_S|$X_VIR_E"⟩,
    .assign "USER" "cmslapp",
    .permit ⟨"$VH_MONI", "$USER", "$AMQGEN", "$AMQDEF|$AMQGEN|$X_LOG|$X_ALARM|$X_PSUB",
      "$X_QUEST|$AMQGEN"⟩,
    .permit ⟨"$VH_CMS", "$USER", "$AMQGEN",
      "$AMQDEF|$AMQGEN|$X_VIR_S|$X_SUB_E|$X_SUB_S|$X_VIR_E",
      "$X_SUB_S|$AMQGEN|$X_VIR_E|$X_VIR_S|$X_SUB_E"⟩ ]

/-- `add_tmpuser_wxCVbn.sh`. -/
def addTmpuserSh : List Line :=
  [ .assign "USER" "wxCVbn",
    .assign "VH_CTRL" "/supernemo/demonstrator/cms/vire/control",
    .assign "VH_MONI" "/supernemo/demonstrator/cms/vire/monitoring",
    .assign "VH_CLIE" "/supernemo/demonstrator/cms/vire/clients/system/$USER",
    -- exchanges & regexps
    .assign "AMQGEN" "^amq\\\\.gen*",
    .assign "AMQDEF" "^amq\\\\.default$",
    .assign "X_LOG" "^log\\\\.event$",
    .assign "X_ALARM" "^alarm\\\\.event$",
    .assign "X_PSUB" "^pubsub\\\\.event$",
    .assign "X_VIR_S" "^vireserver\\\\.service$",
    .assign "X_VIR_E" "^vireserver\\\\.event$",
    .permit ⟨"$VH_CTRL", "$USER", "$AMQGEN", "$X_QUEST", "$AMQGEN"⟩,
    .permit ⟨"$VH_MONI", "$USER", "$AMQGEN", "$AMQDEF|$AMQGEN|$X_QUEST",
      "$AMQGEN|$X_LOG|$X_ALARM|$X_PSUB"⟩,
    .permit ⟨"$VH_CLIE", "$USER", "$AMQGEN", "$AMQDEF", "$AMQGEN|$X_VIR_E|$X_VIR_S"⟩ ]

/-- The pattern the broker searches for. -/
def searched (pattern : List Char) : List Char := if pattern = [] then ['^', '$'] else pattern

/-- **A pattern grants a resource**: it denotes an expression that is found
in the resource's name. -/
def Grants (pattern resource : List Char) : Prop :=
  ∃ re, Regex.parse (searched pattern) = some re ∧ re.Found resource

instance (pattern resource : List Char) : Decidable (Grants pattern resource) :=
  match h : Regex.parse (searched pattern) with
  | none => isFalse (by simp [Grants, h])
  | some re => decidable_of_iff (re.Found resource) (by simp [Grants, h])

end Broker

end VireSandbox
