import Mathlib.Data.List.Basic
import Mathlib.Algebra.Order.Ring.Int
/-!
# The use case — its model

`use_case_t` of `threads/use_case.h` and `threads/use_case.cpp`: a stage,
a completion and an iteration counter, moved by `enter_stage` and
`quit_stage` around the sleep that stands for the stage's work.

The durations are `std::chrono::seconds`, counted by integers; the one
narrowing, of the count assigned to the `int` field `nb_iterations`, and
the one sum that can leave 64 bits, in `get_duration_max`, wrap. What the
sleeps cost is read by the session's model, which has the clock.
-/

namespace VireSandbox

/-- `use_case_t::completion_t`. -/
inductive Completion
  | toBeContinued
  | completed
  | error
  | stopped
  | timeout
  deriving DecidableEq, Repr

/-- `use_case_t::stage_t`. -/
inductive Stage
  | new
  | initializing
  | initialized
  | working
  | worked
  | finishing
  | finished
  deriving DecidableEq, Repr

/-- `session_t::stage_typ`, and with it the stage function of the use case
a session's thread calls. -/
inductive StageTyp
  | init
  | witer
  | finish
  deriving DecidableEq, Repr

/-- The fields of `use_case_t`; durations in seconds. -/
structure UseCase where
  name : String
  currentStage : Stage
  currentCompletion : Completion
  currentWorkIter : ℤ
  initDurationMax : ℤ
  workDurationMax : ℤ
  finishDurationMax : ℤ
  iterDuration : ℤ
  nbIterations : ℤ
  workSlowly : Bool
  deriving DecidableEq, Repr

/-- The value an `int` takes when a wider integer is assigned to it. -/
def toInt32 (n : ℤ) : ℤ := n.bmod (2 ^ 32)

/-- The value of a 64-bit sum. -/
def toInt64 (n : ℤ) : ℤ := n.bmod (2 ^ 64)

namespace UseCase

/-- `use_case_t::use_case_t`. -/
def new (ucase : String) (initMax workMax finishMax : ℤ) : UseCase where
  name := ucase
  currentStage := .new
  currentCompletion := .completed
  currentWorkIter := 0
  initDurationMax := initMax
  workDurationMax := workMax
  finishDurationMax := finishMax
  iterDuration := 1
  nbIterations := toInt32 (workMax - 1)
  workSlowly := false

variable (uc : UseCase)

/-- `use_case_t::get_duration_max`. -/
def getDurationMax : ℤ :=
  toInt64 (uc.initDurationMax + uc.workDurationMax + uc.finishDurationMax)

/-- The completions both guards of the use case refuse to move from. -/
def outOfService : Bool :=
  uc.currentCompletion = .error ∨ uc.currentCompletion = .stopped ∨
    uc.currentCompletion = .timeout

/-- The switch of `use_case_t::enter_stage`: the use case in the stage
asked for, where it may be entered. -/
def entered (stage : Stage) : Option UseCase :=
  match stage with
  | .initializing =>
    if uc.currentStage = .new then
      some { uc with currentStage := .initializing, currentCompletion := .toBeContinued }
    else none
  | .working =>
    if (uc.currentStage = .initialized ∧ uc.currentWorkIter = 0) ∨
        (uc.currentStage = .working ∧ uc.currentWorkIter < uc.nbIterations) then
      some { uc with
        currentStage := .working
        currentCompletion := .toBeContinued
        currentWorkIter := uc.currentWorkIter + 1 }
    else none
  | .finishing =>
    if uc.currentStage = .worked then
      some { uc with currentStage := .finishing, currentCompletion := .toBeContinued }
    else none
  | _ => none

/-- `use_case_t::enter_stage`: whether the stage is entered, and the use
case after the call, in error where it is not. -/
def enterStage (stage : Stage) : Bool × UseCase :=
  match if uc.outOfService then none else uc.entered stage with
  | some uc' => (true, uc')
  | none => (false, { uc with currentCompletion := .error })

/-- `use_case_t::quit_stage`. -/
def quitStage : UseCase :=
  if uc.outOfService then uc
  else
    match uc.currentStage with
    | .initializing => { uc with currentStage := .initialized, currentCompletion := .completed }
    | .working =>
      if uc.currentWorkIter < uc.nbIterations then
        { uc with currentStage := .working, currentCompletion := .toBeContinued }
      else { uc with currentStage := .worked, currentCompletion := .completed }
    | .finishing => { uc with currentStage := .finished, currentCompletion := .completed }
    | _ => { uc with currentCompletion := .error }

/-- `use_case_t::set_too_slow`. -/
def setTooSlow : UseCase := { uc with workSlowly := true }

end UseCase

/-- The stage a stage function enters. -/
def StageTyp.target : StageTyp → Stage
  | .init => .initializing
  | .witer => .working
  | .finish => .finishing

namespace UseCase

variable (uc : UseCase)

/-- The duration a stage function hands to `sleep_for`, in seconds. -/
def sleepDuration : StageTyp → ℤ
  | .init => uc.initDurationMax - 1
  | .witer => if uc.workSlowly then uc.iterDuration + 3 else uc.iterDuration
  | .finish => uc.finishDurationMax - 1

/-- The body the three stage functions share: enter, and quit what was
entered. The completion is the value the call returns. -/
def perform (typ : StageTyp) : Completion × UseCase :=
  let (valid, uc') := uc.enterStage typ.target
  let uc'' := if valid then uc'.quitStage else uc'
  (uc''.currentCompletion, uc'')

/-- `use_case_t::init_stage`. -/
def initStage : Completion × UseCase := uc.perform .init

/-- `use_case_t::work_iteration`. -/
def workIteration : Completion × UseCase := uc.perform .witer

/-- `use_case_t::finish_stage`. -/
def finishStage : Completion × UseCase := uc.perform .finish

/-- A public call that changes the use case. -/
inductive Call
  | stage (typ : StageTyp)
  | setTooSlow
  deriving DecidableEq, Repr

/-- The stage function a type of stage stands for. -/
def stageCall : StageTyp → Completion × UseCase
  | .init => uc.initStage
  | .witer => uc.workIteration
  | .finish => uc.finishStage

/-- The use case after a call. -/
def call : Call → UseCase
  | .stage typ => (uc.stageCall typ).2
  | .setTooSlow => uc.setTooSlow

/-- The use case after a sequence of calls. -/
def calls (cs : List Call) : UseCase := cs.foldl call uc

/-- The stage functions among the calls, in their order. -/
def stageCalls (cs : List Call) : List StageTyp :=
  cs.filterMap fun
    | .stage typ => some typ
    | .setTooSlow => none

/-- How many iterations the work stage runs for: the first is entered
whatever `nb_iterations` is. -/
def plannedIterations : ℕ := (max 1 uc.nbIterations).toNat

end UseCase

end VireSandbox
