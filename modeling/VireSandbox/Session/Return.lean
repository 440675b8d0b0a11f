import VireSandbox.Session.Step
import VireSandbox.UseCase.Protocol
/-!
# The session — `start` returns

Every run of `start` ends, whatever the use case is, whoever else holds
it and however long its stages take: a wait is over at `t_end` at the
latest, and the loop of the work iterations is bounded by the use case's
own counter, which each iteration that is to be continued has moved. The
measure is `workLeft`; stops, ticks and other holders do not raise it. And
until `start` returns a step of its own is due once time has passed, with
nothing left to the environment (`Threaded.due`).
-/

namespace VireSandbox

/-- A thread its session waits for: alive, not cancelled, with its promise
set exactly at its end. -/
structure Waited (typ : StageTyp) (th : StageThread) : Prop where
  typ : th.typ = typ
  cancelRequested : th.cancelRequested = false
  alive : th.pc ≠ .cancelled
  promise : th.promise = none ↔ th.pc ≠ .finished

/-- A promise that is set is that of a thread at its end. -/
theorem Waited.finished {typ : StageTyp} {th : StageThread} {v : Completion} (h : Waited typ th)
    (hpromise : th.promise = some v) : th.pc = .finished := by
  by_contra hne
  simp [h.promise.2 hne] at hpromise

namespace Config

variable {c c' : Config} {a : Act}

/-- **The thread `start` knows of** at each of its points: one it waits
for, or one it has killed. -/
def Threaded (c : Config) : Prop :=
  match c.pc with
  | .idle | .sleepUntil | .guard .init | .perform _ => c.thread = none
  | .guard _ | .closing | .returned =>
    ∀ th, c.thread = some th → th.cancelRequested = true ∧ c.complet = .timeout
  | .wait typ | .timedOut typ => ∃ th, c.thread = some th ∧ Waited typ th

/-- The thread there is while `start` is in a stage is the stage's own. -/
theorem Threaded.waited (h : Threaded c) {typ : StageTyp} {th : StageThread}
    (hpc : c.pc = .wait typ ∨ c.pc = .timedOut typ) (hth : c.thread = some th) :
    Waited typ th := by
  have hw : ∃ th, c.thread = some th ∧ Waited typ th := by
    rcases hpc with hpc | hpc <;> simpa only [Threaded, hpc] using h
  obtain ⟨th', hth', hw⟩ := hw
  obtain rfl : th = th' := Option.some_inj.1 (hth.symm.trans hth')
  exact hw

/-- A step of the stage thread keeps what its session knows of it. -/
theorem Threaded.update (h : Threaded c) {th th' : StageThread} (hth : c.thread = some th)
    (hreq : th'.cancelRequested = th.cancelRequested)
    (hwait : ∀ typ, Waited typ th → Waited typ th') (uc : UseCase) :
    Threaded { c with useCase := uc, thread := some th' } := by
  -- a thread that was killed stays so, and one that is waited for too
  have hzombie : (∀ th, c.thread = some th → th.cancelRequested = true ∧ c.complet = .timeout) →
      ∀ th'', some th' = some th'' → th''.cancelRequested = true ∧ c.complet = .timeout := by
    rintro hz th'' ⟨⟩
    exact ⟨hreq ▸ (hz th hth).1, (hz th hth).2⟩
  have hwaited : ∀ typ, (∃ th, c.thread = some th ∧ Waited typ th) →
      ∃ th'', some th' = some th'' ∧ Waited typ th'' := by
    rintro typ ⟨th'', hth'', hw⟩
    obtain rfl : th = th'' := Option.some_inj.1 (hth ▸ hth'')
    exact ⟨th', rfl, hwait typ hw⟩
  unfold Threaded at h ⊢
  cases hpc : c.pc with
  | idle | sleepUntil | perform typ => simp [hpc, hth] at h
  | guard g =>
    cases g with
    | init => simp [hpc, hth] at h
    | work | loop | finish =>
      simp only [hpc] at h ⊢
      exact hzombie h
  | closing | returned =>
    simp only [hpc] at h ⊢
    exact hzombie h
  | wait typ | timedOut typ =>
    simp only [hpc] at h ⊢
    exact hwaited typ h

theorem kill_cancelRequested (th : StageThread) (clock : ℤ) :
    (th.kill clock).cancelRequested = true := by
  unfold StageThread.kill
  split
  · split <;> rfl
  · rfl
  · rfl

/-- With no thread of its own left, `start` is at a guard or at its end. -/
theorem Threaded.after {typ : StageTyp} {v : Completion} {thread : Option StageThread}
    (h : ∀ th, thread = some th → th.cancelRequested = true ∧ v = .timeout) :
    Threaded (c.stageReturns typ v thread) := by
  cases typ <;> exact h

/-- **Every step keeps the bookkeeping of the threads.** -/
theorem Threaded.step (h : Threaded c) (hstep : Step c a c') : Threaded c' := by
  cases hstep with
  | startEarly hpc hready hclock | startLate hpc hready hclock | begin hpc hclock =>
    simp only [Threaded, hpc] at h
    exact h
  | startNot hpc hready =>
    simp only [Threaded, hpc] at h
    exact fun th hth => by simp [h] at hth
  | @pass g hpc hpass =>
    simp only [Threaded, hpc] at h
    change c.thread = none
    cases g with
    | init => exact h
    | work | loop | finish =>
      -- a killed thread would have left `complet` at `TIMEOUT`
      by_contra hne
      obtain ⟨th, hth⟩ := Option.ne_none_iff_exists'.1 hne
      have htimeout := (h th hth).2
      simp [Guard.passes, Guard.needs, htimeout] at hpass
  | @skip g hpc hpass =>
    simp only [Threaded, hpc] at h
    cases g with
    | init => exact fun th hth => by simp [h] at hth
    | work | loop | finish => exact h
  | launch hpc => exact ⟨_, rfl, rfl, rfl, by simp, by simp⟩
  | get hpc hth hpromise => exact Threaded.after fun th hth => by simp at hth
  | kill hpc hth =>
    refine Threaded.after fun th' hth' => ⟨?_, rfl⟩
    obtain rfl := Option.some_inj.1 hth'
    exact kill_cancelRequested _ _
  | close hpc =>
    simp only [Threaded, hpc] at h
    exact h
  | expire hpc hth hpromise hclock =>
    simp only [Threaded, hpc] at h
    exact h
  | stop | tick d | other op => exact h
  | @enter d th hth hpc =>
    refine h.update hth ?_ ?_ _
    · rfl
    · intro typ hw
      have hnone : th.promise = none := hw.promise.2 (by simp [hpc])
      have hpc' : ∀ q, q = (if (c.useCase.enterStage th.typ.target).1 = true then
          th.sleep c.clock d else .leaving) → q ≠ .cancelled ∧ q ≠ .finished := by
        rintro q rfl
        unfold StageThread.sleep
        split
        · split
          · simp
          · simp [hw.cancelRequested]
        · simp
      exact ⟨hw.typ, hw.cancelRequested, (hpc' _ rfl).1, by simp [hnone, (hpc' _ rfl).2]⟩
  | wake hth hpc hclock | quit hth hpc =>
    refine h.update hth ?_ ?_ _
    · rfl
    · intro typ hw
      exact ⟨hw.typ, hw.cancelRequested, by simp, by simp [hw.promise, hpc]⟩
  | set hth hpc =>
    refine h.update hth ?_ ?_ _
    · rfl
    · intro typ hw
      exact ⟨hw.typ, hw.cancelRequested, by simp, by simp⟩
  | cancel hth hpc hreq =>
    refine h.update hth ?_ ?_ _
    · rfl
    · intro typ hw
      simp [hw.cancelRequested] at hreq

end Config

/-! ## The work left -/

namespace UseCase

variable {uc : UseCase} {stage : Stage}

/-- The iterations the use case can still enter. -/
def budget (uc : UseCase) : ℕ := (max 1 uc.nbIterations - uc.currentWorkIter).toNat

/-- **Entering costs an iteration at most**, and a work iteration that is
entered costs one. -/
theorem budget_enterStage (uc : UseCase) (stage : Stage) :
    (uc.enterStage stage).2.budget +
      (if stage = .working ∧ (uc.enterStage stage).1 = true then 1 else 0) ≤ uc.budget := by
  rcases enterStage_cases uc stage with ⟨uc', -, hent, henter⟩ | henter
  · obtain ⟨-, iter, rfl, ⟨hstage, rfl⟩ | ⟨rfl, rfl, hplanned⟩⟩ := entered_cases hent
    · simp [henter, budget, hstage]
    · -- the switch lets an iteration in below the planned number only
      simp only [henter, budget]
      split <;> omega
  · simp [henter, budget]

theorem budget_quitStage (uc : UseCase) : uc.quitStage.budget = uc.budget := by
  obtain ⟨stage, complet, hquit⟩ := quitStage_eq uc
  rw [hquit]
  rfl

theorem budget_other (uc : UseCase) (op : Other) : (op.apply uc).budget ≤ uc.budget := by
  cases op with
  | enter typ => have := budget_enterStage uc typ.target; simp only [Other.apply]; omega
  | quit => exact Nat.le_of_eq (budget_quitStage uc)
  | tooSlow => exact Nat.le_refl _

/-- Error is left by nothing. -/
theorem other_error (h : uc.currentCompletion = .error) (op : Other) :
    (op.apply uc).currentCompletion = .error := by
  have hout : uc.outOfService = true := by simp [outOfService, h]
  cases op with
  | enter typ => simp [Other.apply, enterStage_of_refused (Or.inl hout)]
  | quit => simp [Other.apply, quitStage, hout, h]
  | tooSlow => exact h

end UseCase

/-- Whether a work iteration may yet return with more to come. -/
def StageThread.mayContinue (th : StageThread) (uc : UseCase) : Bool :=
  match th.pc with
  | .sleeping _ | .awake => true
  | .leaving => uc.currentCompletion ≠ .error
  | .finished => th.promise ≠ some .error
  | .created | .cancelled => false

/-- The steps left to a stage thread. -/
def StageThread.left (th : StageThread) : ℕ :=
  match th.pc with
  | .created => 4
  | .sleeping _ => 3
  | .awake => 2
  | .leaving => 1
  | .finished | .cancelled => 0

namespace Config

variable {c c' : Config} {a : Act}

/-- The steps left to `start` up to its next entry of a work iteration. -/
def startLeft (c : Config) : ℕ :=
  match c.pc with
  | .idle => 28
  | .sleepUntil => 27
  | .guard .init => 26
  | .perform .init => 25
  | .wait .init => 20
  | .timedOut .init => 19
  | .guard .work => 18
  | .guard .loop => if c.complet = .toBeContinued then 17 else 9
  | .perform .witer => 16
  | .wait .witer => if c.thread.any fun th => th.mayContinue c.useCase then 18 else 11
  | .timedOut .witer => 10
  | .guard .finish => 8
  | .perform .finish => 7
  | .wait .finish => 2
  | .timedOut .finish => 1
  | .closing => 1
  | .returned => 0

/-- **The measure of a run of `start`**: an entered iteration pays for the
pass of the loop it may lead to. -/
def workLeft (c : Config) : ℕ :=
  10 * c.useCase.budget + c.startLeft + (c.thread.map StageThread.left).getD 0

/-- Away from the wait on a work iteration the stage thread does not tell
what is left to `start`. -/
theorem startLeft_eq_of_ne (hpc : c'.pc = c.pc) (hcomplet : c'.complet = c.complet)
    (hne : c.pc ≠ .wait .witer) : c'.startLeft = c.startLeft := by
  unfold startLeft
  rw [hpc, hcomplet]
  split <;> first | rfl | exact absurd ‹_› hne

/-- Waiting on a work iteration, it is told by whether more may come. -/
theorem startLeft_wait (hpc : c.pc = .wait .witer) {th : StageThread} (hth : c.thread = some th) :
    c.startLeft = if th.mayContinue c.useCase then 18 else 11 := by
  simp [startLeft, hpc, hth]

theorem workLeft_eq {th : StageThread} (hth : c.thread = some th) :
    c.workLeft = 10 * c.useCase.budget + c.startLeft + th.left := by
  simp [workLeft, hth]

/-- **A step of the stage thread** costs what it leaves less: of the
iterations, of the passes of the loop to come, and of its own steps. -/
theorem workLeft_thread {th th' : StageThread} {uc : UseCase} (h : Threaded c)
    (hth : c.thread = some th) (hleft : th'.left < th.left)
    (hbudget : uc.budget ≤ c.useCase.budget)
    (hwork : th.typ = .witer →
      10 * uc.budget + (if th'.mayContinue uc then 18 else 11) + th'.left <
        10 * c.useCase.budget + (if th.mayContinue c.useCase then 18 else 11) + th.left) :
    ({ c with useCase := uc, thread := some th' } : Config).workLeft + 1 ≤ c.workLeft := by
  have hnew : ({ c with useCase := uc, thread := some th' } : Config).workLeft =
      10 * uc.budget + ({ c with useCase := uc, thread := some th' } : Config).startLeft +
        th'.left := rfl
  rw [workLeft_eq hth, hnew]
  -- only a wait on a work iteration looks at the thread
  by_cases hpc : c.pc = .wait .witer
  · have hc' : ({ c with useCase := uc, thread := some th' } : Config).startLeft =
        if th'.mayContinue uc then 18 else 11 := by
      simp [startLeft, hpc]
    have := hwork (h.waited (.inl hpc) hth).typ
    rw [startLeft_wait hpc hth, hc']
    omega
  · have hc' : ({ c with useCase := uc, thread := some th' } : Config).startLeft = c.startLeft :=
      startLeft_eq_of_ne rfl rfl hpc
    omega

/-- A completion that is in error stays so, whatever another holder does. -/
theorem mayContinue_other {th : StageThread} {uc : UseCase} {op : Other}
    (h : th.mayContinue (op.apply uc) = true) : th.mayContinue uc = true := by
  unfold StageThread.mayContinue at h ⊢
  cases hpc : th.pc with
  | leaving =>
    simp only [hpc, decide_eq_true_eq] at h ⊢
    exact fun herr => h (UseCase.other_error herr op)
  | sleeping wake | awake => rfl
  | created | cancelled => simp [hpc] at h
  | finished => simpa [hpc] using h

/-- What another holder does is not work, and leaves no more. -/
theorem workLeft_other (op : Other) :
    ({ c with useCase := op.apply c.useCase } : Config).workLeft ≤ c.workLeft := by
  have hbudget := UseCase.budget_other c.useCase op
  have hstart : ({ c with useCase := op.apply c.useCase } : Config).startLeft ≤ c.startLeft := by
    by_cases hpc : c.pc = .wait .witer
    · cases hth : c.thread with
      | none => simp [startLeft, hpc, hth]
      | some th =>
        simp only [startLeft, hpc, hth, Option.any_some]
        split
        · next hm => simp [mayContinue_other hm]
        · split <;> omega
    · exact Nat.le_of_eq (startLeft_eq_of_ne rfl rfl hpc)
  unfold workLeft
  dsimp only
  omega

/-- A stage thread that is killed has no more steps left than before. -/
theorem left_kill (th : StageThread) (clock : ℤ) : (th.kill clock).left ≤ th.left := by
  unfold StageThread.kill
  cases hpc : th.pc with
  | sleeping wake =>
    cases wake with
    | none => simp [StageThread.left]
    | some wake =>
      dsimp only
      split <;> simp [StageThread.left, hpc]
  | created | awake | leaving | finished | cancelled => simp [StageThread.left, hpc]

/-- A stage thread that sleeps, or returns from a sleep of no time, has at
most three steps left. -/
theorem left_sleep (th : StageThread) (clock : ℤ) (d : Option ℕ) :
    ({ th with pc := th.sleep clock d } : StageThread).left ≤ 3 := by
  unfold StageThread.sleep
  split
  · simp [StageThread.left]
  · split <;> simp [StageThread.left]

end Config

/-- The steps of `start` and of its stage thread. -/
def Act.isWork : Act → Bool
  | .stop | .tick _ | .other _ => false
  | _ => true

/-- Time passes. -/
def Act.isTick : Act → Bool
  | .tick _ => true
  | _ => false

/-- The move an action is of: the time a stage takes is left out. -/
def Act.move : Act → Act
  | .enter _ => .enter none
  | a => a

/-- Work that leaves nothing for the environment to choose. -/
def Act.isFixed (a : Act) : Bool :=
  match a with
  | .enter _ => false
  | _ => a.isWork

theorem Act.isWork_of_isFixed {a : Act} (ha : a.isFixed = true) : a.isWork = true := by
  cases a with
  | enter d => cases ha
  | _ => exact ha

theorem Act.eq_of_move {a b : Act} (ha : a.isFixed = true) (h : b.move = a.move) : b = a := by
  cases a with
  | enter d => cases ha
  | _ => cases b <;> first | exact h | cases h

/-- **The roles in a run of `start`**: the work is its own and its stage
thread's, and a stage is entered for as long as the environment has it. -/
def sessionRoles : Machine.Roles Act := ⟨Act.isWork, Act.isTick, Act.move⟩

/-- The steps of `start` itself. -/
def Act.isStart : Act → Bool
  | .start | .go | .expire => true
  | _ => false

/-- The roles where the stage thread is the environment's too. -/
def startRoles : Machine.Roles Act := ⟨Act.isStart, Act.isTick, id⟩

theorem Act.isFixed_of_isStart {a : Act} (ha : a.isStart = true) : a.isFixed = true := by
  cases a with
  | start | go | expire => rfl
  | _ => cases ha

/-- What is `start`'s is the session's. -/
theorem startRoles_sub : startRoles.Sub sessionRoles where
  work _ ha := Act.isWork_of_isFixed (Act.isFixed_of_isStart ha)
  time _ ha := ha
  move _ _ ha h := Act.eq_of_move (Act.isFixed_of_isStart ha) h

namespace Config

variable {c c' : Config} {a : Act}

/-- The entry of a stage costs its thread a step, and a work iteration
that is entered is paid for by the budget. -/
theorem workLeft_enter (h : Threaded c) {th : StageThread} (hth : c.thread = some th)
    (hpc : th.pc = .created) (d : Option ℕ) :
    ({ c with
        useCase := (c.useCase.enterStage th.typ.target).2
        thread := some { th with
          pc := if (c.useCase.enterStage th.typ.target).1 then th.sleep c.clock d
            else .leaving } } : Config).workLeft + 1 ≤ c.workLeft := by
  have hbudget := UseCase.budget_enterStage c.useCase th.typ.target
  have hleft : th.left = 4 := by simp [StageThread.left, hpc]
  have hmay : th.mayContinue c.useCase = false := by simp [StageThread.mayContinue, hpc]
  have hsleep := left_sleep th c.clock d
  rcases UseCase.enterStage_cases c.useCase th.typ.target with ⟨uc', -, -, henter⟩ | henter
  · simp only [henter, and_true, if_true] at hbudget ⊢
    refine workLeft_thread h hth ?_ (by omega) fun htyp => ?_
    · omega
    · rw [if_pos (by rw [htyp]; rfl)] at hbudget
      rw [hmay, if_neg Bool.false_ne_true]
      split <;> omega
  · rw [henter] at hbudget ⊢
    refine workLeft_thread h hth ?_ (by simpa using hbudget) fun htyp => ?_
    · simp [StageThread.left, hpc]
    · simp [StageThread.mayContinue, StageThread.left, hpc, UseCase.budget]

/-- **The measure falls with every step of `start` and of its stage
thread**, and no other step raises it. -/
theorem workLeft_step (h : Threaded c) (hstep : Step c a c') :
    c'.workLeft + (if a.isWork then 1 else 0) ≤ c.workLeft := by
  cases hstep with
  | startEarly hpc hready hclock | startLate hpc hready hclock | startNot hpc hready
  | begin hpc hclock | close hpc =>
    simp only [workLeft, startLeft, running, Config.close, Act.isWork, hpc, if_true]
    omega
  | @pass g hpc hpass =>
    cases g with
    | loop =>
      have htbc := (Guard.passes_eq_true.1 hpass).2 _ rfl
      simp only [workLeft, startLeft, Act.isWork, hpc, htbc, Guard.typ, if_true]
      omega
    | init | work | finish =>
      simp only [workLeft, startLeft, Act.isWork, hpc, Guard.typ, if_true]
      omega
  | @skip g hpc hpass =>
    cases g with
    | init | finish =>
      simp only [workLeft, startLeft, Act.isWork, hpc, Guard.next, if_true]
      omega
    | work | loop =>
      simp only [workLeft, startLeft, Act.isWork, hpc, Guard.next, if_true]
      split <;> omega
  | @launch typ hpc =>
    simp only [Threaded, hpc] at h
    cases typ <;>
      simp [workLeft, startLeft, Act.isWork, hpc, h, StageThread.left, StageThread.mayContinue]
  | @get typ th complet hpc hth hpromise =>
    have hfin := (h.waited (.inl hpc) hth).finished hpromise
    have hafter : (c.stageReturns typ complet none).workLeft =
        10 * c.useCase.budget + (c.stageReturns typ complet none).startLeft := rfl
    rw [workLeft_eq hth, hafter]
    cases typ with
    | init | finish =>
      simp only [startLeft, Act.isWork, hpc, stageReturns, StageTyp.after, if_true]
      omega
    | witer =>
      -- an error handed over ends the loop, and had no pass of it to pay for
      rw [startLeft_wait hpc hth]
      simp only [startLeft, Act.isWork, stageReturns, StageTyp.after, StageThread.mayContinue,
        hfin, hpromise]
      by_cases htbc : complet = .toBeContinued
      · simp [htbc]
      · simp only [htbc, if_false, if_true]
        split <;> omega
  | @kill typ th hpc hth =>
    have hle := left_kill th c.clock
    have hafter : (c.stageReturns typ .timeout (some (th.kill c.clock))).workLeft =
        10 * c.useCase.budget +
          (c.stageReturns typ .timeout (some (th.kill c.clock))).startLeft +
          (th.kill c.clock).left := rfl
    rw [workLeft_eq hth, hafter]
    cases typ <;>
      simp only [startLeft, Act.isWork, hpc, stageReturns, StageTyp.after, if_true,
        reduceCtorEq, if_false] <;> omega
  | @expire typ th hpc hth hpromise hclock =>
    cases typ with
    | init | finish =>
      simp only [workLeft, startLeft, Act.isWork, hpc, if_true]
      omega
    | witer =>
      simp only [workLeft, startLeft, Act.isWork, hpc, if_true]
      split <;> omega
  | stop => exact Nat.le_refl _
  | tick d => exact Nat.le_refl _
  | other op => exact workLeft_other op
  | enter hth hpc => exact workLeft_enter h hth hpc _
  | wake hth hpc hclock =>
    refine workLeft_thread h hth ?_ (Nat.le_refl _) fun _ => ?_ <;>
      simp [StageThread.mayContinue, StageThread.left, hpc]
  | quit hth hpc =>
    have hbudget := UseCase.budget_quitStage c.useCase
    refine workLeft_thread h hth ?_ (Nat.le_of_eq hbudget) fun _ => ?_
    · simp [StageThread.left, hpc]
    · simp only [StageThread.mayContinue, StageThread.left, hpc, hbudget, if_true]
      by_cases herr : c.useCase.quitStage.currentCompletion = .error <;> simp [herr]
  | set hth hpc =>
    refine workLeft_thread h hth ?_ (Nat.le_refl _) fun _ => ?_ <;>
      simp [StageThread.mayContinue, StageThread.left, hpc]
  | cancel hth hpc hreq =>
    refine workLeft_thread h hth ?_ (Nat.le_refl _) fun _ => ?_ <;>
      simp [StageThread.mayContinue, StageThread.left, hpc]

/-! ## The end of `start` -/

/-- Whether `start` sleeps or waits for `d` nanoseconds more. -/
def waitsFor (c : Config) (d : ℕ) : Bool :=
  match c.pc, c.thread with
  | .sleepUntil, _ => c.clock + d ≤ c.session.tBegin
  | .wait _, some ⟨_, _, none, _⟩ => c.clock + d ≤ c.session.tEnd
  | _, _ => false

theorem waitsFor_iff {d : ℕ} : c.waitsFor d = true ↔
    (c.pc = .sleepUntil ∧ c.clock + d ≤ c.session.tBegin) ∨
      ∃ typ th, c.pc = .wait typ ∧ c.thread = some th ∧ th.promise = none ∧
        c.clock + d ≤ c.session.tEnd := by
  unfold waitsFor
  constructor
  · intro h
    split at h
    · next hpc => exact .inl ⟨hpc, by simpa using h⟩
    · next hpc hth => exact .inr ⟨_, _, hpc, hth, rfl, by simpa using h⟩
    · cases h
  · rintro (⟨hpc, hle⟩ | ⟨typ, ⟨typ', pc, promise, req⟩, hpc, hth, hnone, hle⟩)
    · simpa [hpc] using hle
    · cases hnone
      simpa [hpc, hth] using hle

variable {Ok : Config → Act → Prop} {R : Machine.Roles Act}

/-- A step of `start` is due, -/
theorem Step.due_start (hstep : Step c a c') (hok : Ok c a) (hwork : a.isStart = true) :
    sessionMachine.Due Ok startRoles c := by
  refine .of_step hwork hok fun b hb _ => ?_
  obtain rfl : b = a := hb
  exact ⟨c', hstep.step⟩

/-- and one of its stage thread, -/
theorem Step.due (hstep : Step c a c') (hok : Ok c a) (hfixed : a.isFixed = true) :
    sessionMachine.Due Ok sessionRoles c := by
  refine .of_step (Act.isWork_of_isFixed hfixed) hok fun b hb _ => ?_
  obtain rfl := Act.eq_of_move hfixed hb
  exact ⟨c', hstep.step⟩

/-- the entry of a stage whatever it takes, -/
theorem due_enter {th : StageThread} (hth : c.thread = some th) (hpc : th.pc = .created)
    (d : Option ℕ) (hok : Ok c (.enter d)) : sessionMachine.Due Ok sessionRoles c := by
  refine .of_step (a := .enter d) rfl hok fun b hb _ => ?_
  obtain ⟨d', rfl⟩ : ∃ d', b = .enter d' := by
    cases b with
    | enter d' => exact ⟨d', rfl⟩
    | _ => cases hb
  exact ⟨_, (Step.enter hth hpc).step⟩

/-- and so is what is due at a later instant. -/
theorem due_later (t : ℤ) (hle : c.clock ≤ t) (hok : Ok c (.tick (t - c.clock).toNat))
    (htime : R.time (.tick (t - c.clock).toNat) = true)
    (h : sessionMachine.Due Ok R { c with clock := t }) : sessionMachine.Due Ok R c := by
  have hclock : c.clock + (t - c.clock).toNat = t := by omega
  refine .after_time htime hok (Step.tick _).step ?_
  rwa [hclock]

/-- Where `start` waits for nothing it goes on at once. -/
theorem due_of_running (hstart : Ok c .start) (hgo : Ok c .go)
    (hpc : c.pc = .idle ∨ (∃ g, c.pc = .guard g) ∨ (∃ typ, c.pc = .perform typ) ∨
      c.pc = .closing) :
    sessionMachine.Due Ok startRoles c := by
  rcases hpc with hpc | ⟨g, hpc⟩ | ⟨typ, hpc⟩ | hpc
  · by_cases hready : c.session.state = .ready
    · rcases lt_or_ge c.clock c.session.tBegin with hclock | hclock
      · exact (Step.startEarly hpc hready hclock).due_start hstart rfl
      · exact (Step.startLate hpc hready hclock).due_start hstart rfl
    · exact (Step.startNot hpc hready).due_start hstart rfl
  · cases hpass : g.passes c.session.stopRequested c.complet with
    | true => exact (Step.pass hpc hpass).due_start hgo rfl
    | false => exact (Step.skip hpc hpass).due_start hgo rfl
  · exact (Step.launch hpc).due_start hgo rfl
  · exact (Step.close hpc).due_start hgo rfl

/-- **Until it returns a step of `start` is due**: what it waits for is the
clock at most, however its stage thread hangs. -/
theorem Threaded.due (h : Threaded c)
    (hown : ∀ c : Config, Ok c .start ∧ Ok c .go ∧ Ok c .expire)
    (htick : ∀ d, c.waitsFor d = true → Ok c (.tick d)) (hpc : c.pc ≠ .returned) :
    sessionMachine.Due Ok startRoles c := by
  cases hc : c.pc with
  | idle | guard g | perform typ | closing =>
    exact due_of_running (hown c).1 (hown c).2.1 (by simp [hc])
  | sleepUntil =>
    rcases le_total c.session.tBegin c.clock with hclock | hclock
    · exact (Step.begin hc hclock).due_start (hown c).2.1 rfl
    · have hbegin : Step { c with clock := c.session.tBegin } .go _ := .begin hc le_rfl
      refine due_later c.session.tBegin hclock (htick _ ?_) rfl
        (hbegin.due_start (hown _).2.1 rfl)
      exact waitsFor_iff.2 (.inl ⟨hc, by omega⟩)
  | wait typ =>
    simp only [Threaded, hc] at h
    obtain ⟨th, hth, -⟩ := h
    cases hpromise : th.promise with
    | some complet => exact (Step.get hc hth hpromise).due_start (hown c).2.1 rfl
    | none =>
      rcases le_total c.session.tEnd c.clock with hclock | hclock
      · exact (Step.expire hc hth hpromise hclock).due_start (hown c).2.2 rfl
      · -- a stage that hangs is waited for until `t_end`
        have hexpire : Step { c with clock := c.session.tEnd } .expire _ :=
          .expire hc hth hpromise le_rfl
        refine due_later c.session.tEnd hclock (htick _ ?_) rfl
          (hexpire.due_start (hown _).2.2 rfl)
        exact waitsFor_iff.2 (.inr ⟨typ, th, hc, hth, hpromise, by omega⟩)
  | timedOut typ =>
    simp only [Threaded, hc] at h
    obtain ⟨th, hth, -⟩ := h
    exact (Step.kill hc hth).due_start (hown c).2.1 rfl
  | returned => exact absurd hc hpc

/-- **`start` returns.** -/
theorem start_ends (s : Session) (uc : UseCase) (now : ℤ) :
    sessionMachine.Ends (fun _ _ => True) sessionRoles (·.pc = .returned) (ready s uc now) := by
  refine Machine.Ends.of_measure Threaded workLeft ?_ ?_ ?_ rfl
  · exact fun c a c' h _ hstep => h.step (.of_step hstep)
  · exact fun c a c' h _ hstep => workLeft_step h (.of_step hstep)
  · exact fun c h hpc => (h.due (fun _ => ⟨trivial, trivial, trivial⟩)
      (fun _ _ => trivial) hpc).mono startRoles_sub

end Config

end VireSandbox
