import VireSandbox.Common.Machine
import VireSandbox.UseCase.Model
/-!
# The session — its model

`session_t` of `threads/session.h` and `threads/session.cpp`, as the
machine its threads make together: the thread that runs `start`, the
stage thread `stage_perform` creates and may leave behind, the callers of
`stop`, whoever else holds the use case, and the clock.

`start` is kept as a program counter, one value for each point at which
another thread can come in between: the reads of `stop_requested` in its
four guards and in its closing `if`, the creation of a stage thread, the
wait on its future, the cancellation. Time points are the nanosecond
counts of `std::chrono::system_clock`. The console output is left out,
and the log is the model's own record of what was launched and what
`stage_perform` returned.
-/

namespace VireSandbox

/-- `session_t::state_t`. -/
inductive SessionState
  | error
  | ready
  | running
  | stopped
  | killed
  | completed
  deriving DecidableEq, Repr

/-- The nanoseconds of a second. -/
def nanos : ℤ := 1000000000

/-- The fields of `session_t`, the use case apart. The reservation's
length, a `duration <double>` in the code, is an exact number of
nanoseconds. -/
structure Session where
  tBegin : ℤ
  tEnd : ℤ
  dReservation : ℤ
  state : SessionState
  stopRequested : Bool
  deriving DecidableEq, Repr

namespace Session

/-- `session_t::session_t`. The two lengths are compared exactly. The code
compares them as doubles, which near 10^16 nanoseconds are no longer exact:
there a reservation a nanosecond short can still be admitted. -/
def new (uCase : UseCase) (reservationBegin reservationEnd : ℤ) : Session where
  tBegin := reservationBegin
  tEnd := reservationEnd
  dReservation := reservationEnd - reservationBegin
  state :=
    if uCase.currentStage ≠ .new ∧ uCase.currentCompletion ≠ .completed then .error
    else if reservationEnd - reservationBegin < uCase.getDurationMax * nanos then .error
    else .ready
  stopRequested := false

/-- `session_t::stop`. -/
def stop (s : Session) : Session := { s with stopRequested := true }

end Session

/-! ## The threads -/

/-- The four reads of `stop_requested` that guard a stage. -/
inductive Guard
  | init
  | work
  | loop
  | finish
  deriving DecidableEq, Repr

/-- Where the thread that runs `start` is. -/
inductive Pc
  /-- `start` is not called yet. -/
  | idle
  /-- Asleep until `t_begin`. -/
  | sleepUntil
  /-- About to read `stop_requested` in a guard. -/
  | guard (g : Guard)
  /-- In `stage_perform`, the stage thread not created yet. -/
  | perform (typ : StageTyp)
  /-- In `wait_until` on the stage's future. -/
  | wait (typ : StageTyp)
  /-- Past a `wait_until` that timed out, the thread not cancelled yet. -/
  | timedOut (typ : StageTyp)
  /-- About to read `stop_requested` in the closing `else`. -/
  | closing
  | returned
  deriving DecidableEq, Repr

/-- Where a stage thread is in its stage function. -/
inductive ThreadPc
  | created
  /-- In `sleep_for`, until the instant given, or for ever. -/
  | sleeping (wake : Option ℤ)
  /-- Out of `sleep_for`, about to call `quit_stage`. -/
  | awake
  /-- About to hand the completion to the promise. -/
  | leaving
  | finished
  | cancelled
  deriving DecidableEq, Repr

/-- A stage thread, with the promise it was given. The promise itself is a
local of `stage_perform`, and gone once that has returned. -/
structure StageThread where
  typ : StageTyp
  pc : ThreadPc
  promise : Option Completion
  cancelRequested : Bool
  deriving DecidableEq, Repr

/-- What the log records of `start`. -/
inductive Event
  | launch (typ : StageTyp)
  | result (typ : StageTyp) (complet : Completion)
  deriving DecidableEq, Repr

/-- The session, its use case and their threads. `complet` is the local
variable of `start`. -/
structure Config where
  session : Session
  useCase : UseCase
  clock : ℤ
  pc : Pc
  complet : Completion
  thread : Option StageThread
  log : List Event
  deriving DecidableEq, Repr

/-- A step another holder of the use case makes: the two halves of its
stage functions, and `set_too_slow`. -/
inductive Other
  | enter (typ : StageTyp)
  | quit
  | tooSlow
  deriving DecidableEq, Repr

/-- Who moves. `enter` carries the time the entered stage takes, which is
the environment's to choose, `none` for a stage that never ends. -/
inductive Act
  | start
  | stop
  | tick (d : ℕ)
  | go
  | expire
  | enter (d : Option ℕ)
  | wake
  | quit
  | set
  | cancel
  | other (op : Other)
  deriving DecidableEq, Repr

namespace Guard

/-- The stage a guard protects. -/
def typ : Guard → StageTyp
  | init => .init
  | work => .witer
  | loop => .witer
  | finish => .finish

/-- The completion a guard asks of the stage before. -/
def needs : Guard → Option Completion
  | init => none
  | work => some .completed
  | loop => some .toBeContinued
  | finish => some .completed

/-- Where a guard that does not pass leads. -/
def next : Guard → Pc
  | init => .guard work
  | work => .guard loop
  | loop => .guard finish
  | finish => .closing

/-- The condition of a guard. -/
def passes (g : Guard) (stopRequested : Bool) (complet : Completion) : Bool :=
  !stopRequested && (g.needs.isNone || g.needs = some complet)

end Guard

/-- Where `start` goes on after a stage: the work stage is a loop, and the
finish is followed by `return`. -/
def StageTyp.after : StageTyp → Pc
  | .init => .guard .work
  | .witer => .guard .loop
  | .finish => .returned

/-- What another holder's step does to the use case. -/
def Other.apply (uc : UseCase) : Other → UseCase
  | .enter typ => (uc.enterStage typ.target).2
  | .quit => uc.quitStage
  | .tooSlow => uc.setTooSlow

/-- Where a stage thread is once its `sleep_for` is called: a sleep of no
time returns at once, and any other is a cancellation point. -/
def StageThread.sleep (th : StageThread) (clock : ℤ) (d : Option ℕ) : ThreadPc :=
  if d = some 0 then .awake
  else if th.cancelRequested then .cancelled
  else .sleeping (d.map fun n : ℕ => clock + n)

/-- `pthread_cancel`: deferred, so that it stops a thread only in its
sleep. A thread whose sleep is over by now may yet leave it first. -/
def StageThread.kill (th : StageThread) (clock : ℤ) : StageThread :=
  match th.pc with
  | .sleeping (some wake) =>
    if wake ≤ clock then { th with cancelRequested := true }
    else { th with cancelRequested := true, pc := .cancelled }
  | .sleeping none => { th with cancelRequested := true, pc := .cancelled }
  | _ => { th with cancelRequested := true }

namespace Config

variable (c : Config)

/-- A session over a use case, at the instant `start` is about to be
called. -/
def ready (session : Session) (useCase : UseCase) (clock : ℤ) : Config where
  session := session
  useCase := useCase
  clock := clock
  pc := .idle
  complet := .error
  thread := none
  log := []

/-- `start` past its wait for `t_begin`. -/
def running : Config :=
  { c with session := { c.session with state := .running }, pc := .guard .init }

/-- `start` with the completion `stage_perform` returned; after the finish
the session is completed. -/
def stageReturns (typ : StageTyp) (complet : Completion) (thread : Option StageThread) : Config :=
  { c with
    session :=
      { c.session with state := if typ = .finish then .completed else c.session.state }
    pc := typ.after
    complet := complet
    thread := thread
    log := c.log ++ [.result typ complet] }

/-- The closing `else` of `start`. -/
def close : Config :=
  { c with
    session :=
      { c.session with
        state :=
          if c.complet = .timeout then .killed
          else if c.session.stopRequested then .stopped
          else c.session.state }
    pc := .returned }

/-- The call of `start`. -/
def stepStart : Option Config :=
  if c.pc = .idle then
    if c.session.state = .ready then
      if c.session.tBegin > c.clock then some { c with pc := .sleepUntil }
      else some c.running
    else some { c with pc := .returned }
  else none

/-- The next step of the thread that runs `start`. -/
def stepGo : Option Config :=
  match c.pc with
  | .sleepUntil => if c.session.tBegin ≤ c.clock then some c.running else none
  | .guard g =>
    if g.passes c.session.stopRequested c.complet then some { c with pc := .perform g.typ }
    else some { c with pc := g.next }
  | .perform typ =>
    some { c with
      pc := .wait typ
      thread := some ⟨typ, .created, none, false⟩
      log := c.log ++ [.launch typ] }
  | .wait typ =>
    match c.thread with
    | some ⟨_, _, some complet, _⟩ => some (c.stageReturns typ complet none)
    | _ => none
  | .timedOut typ =>
    c.thread.map fun th => c.stageReturns typ .timeout (some (th.kill c.clock))
  | .closing => some c.close
  | .idle | .returned => none

/-- `wait_until` gives up: the deadline is reached and no completion is
there. -/
def stepExpire : Option Config :=
  match c.pc, c.thread with
  | .wait typ, some ⟨_, _, none, _⟩ =>
    if c.session.tEnd ≤ c.clock then some { c with pc := .timedOut typ } else none
  | _, _ => none

/-- `enter_stage` in the stage thread, and the call of `sleep_for`. -/
def stepEnter (d : Option ℕ) : Option Config :=
  match c.thread with
  | some ⟨typ, .created, promise, cancelRequested⟩ =>
    let (valid, uc) := c.useCase.enterStage typ.target
    let th : StageThread := ⟨typ, .created, promise, cancelRequested⟩
    some { c with
      useCase := uc
      thread := some { th with pc := if valid then th.sleep c.clock d else .leaving } }
  | _ => none

/-- The end of `sleep_for`. -/
def stepWake : Option Config :=
  match c.thread with
  | some ⟨typ, .sleeping (some wake), promise, cancelRequested⟩ =>
    if wake ≤ c.clock then
      some { c with thread := some ⟨typ, .awake, promise, cancelRequested⟩ }
    else none
  | _ => none

/-- `quit_stage` in the stage thread. -/
def stepQuit : Option Config :=
  match c.thread with
  | some ⟨typ, .awake, promise, cancelRequested⟩ =>
    some { c with
      useCase := c.useCase.quitStage
      thread := some ⟨typ, .leaving, promise, cancelRequested⟩ }
  | _ => none

/-- The stage function returns the completion, and `set_value` hands it
over. After a kill there is no promise any more to hand it to; the call
changes nothing `start` sees here, and the end it may put to the process is
in `processMachine`. -/
def stepSet : Option Config :=
  match c.thread with
  | some ⟨typ, .leaving, _, cancelRequested⟩ =>
    some { c with
      thread := some ⟨typ, .finished, some c.useCase.currentCompletion, cancelRequested⟩ }
  | _ => none

/-- A requested cancellation takes a thread in its sleep. -/
def stepCancel : Option Config :=
  match c.thread with
  | some ⟨typ, .sleeping _, promise, true⟩ =>
    some { c with thread := some ⟨typ, .cancelled, promise, true⟩ }
  | _ => none

/-- One step of the system. -/
def step : Act → Option Config
  | .start => c.stepStart
  | .stop => some { c with session := c.session.stop }
  | .tick d => some { c with clock := c.clock + d }
  | .go => c.stepGo
  | .expire => c.stepExpire
  | .enter d => c.stepEnter d
  | .wake => c.stepWake
  | .quit => c.stepQuit
  | .set => c.stepSet
  | .cancel => c.stepCancel
  | .other op => some { c with useCase := op.apply c.useCase }

end Config

/-- **The session machine.** -/
def sessionMachine : Machine Config Act := ⟨Config.step⟩

/-! ## A short run -/

/-- A guard that passes, and its stage taking `d` nanoseconds. -/
def performed (d : ℕ) : List Act := [.go, .go, .enter (some d), .tick d, .wake, .quit, .set, .go]

/-- A use case of one work iteration. -/
def shortCase : UseCase := .new "uc_test" 2 2 2

/-- A session that just admits it. -/
def shortSession : Session := .new shortCase 0 (6 * nanos)

/-- The whole of its run, with stages that take no time to speak of. -/
def shortRun : List Act := .start :: (performed 1 ++ performed 1 ++ .go :: performed 1)

end VireSandbox
