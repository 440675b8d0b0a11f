import VireSandbox.Session.Model
/-!
# The session — what a step can do

`Step c a c'` lists the moves of the machine, one rule for each way an
action can go, with its guard; `step_iff` says the list is complete and
sound. Every invariant of the session is proved by cases on it.
-/

namespace VireSandbox

namespace Guard

variable {g : Guard} {stopRequested : Bool} {complet : Completion}

/-- A guard passes where no stop is seen and the stage before left what it
asks for. -/
theorem passes_eq_true :
    g.passes stopRequested complet = true ↔
      stopRequested = false ∧ ∀ w, g.needs = some w → complet = w := by
  cases g <;> cases stopRequested <;> simp [passes, needs] <;> exact eq_comm

theorem passes_eq_false :
    g.passes stopRequested complet = false ↔
      stopRequested = true ∨ ∃ w, g.needs = some w ∧ complet ≠ w := by
  cases g <;> cases stopRequested <;> simp [passes, needs] <;> exact ne_comm

end Guard

namespace Config

/-- **The moves of the session machine.** -/
inductive Step (c : Config) : Act → Config → Prop
  /-- `start` is called ahead of `t_begin`. -/
  | startEarly (hpc : c.pc = .idle) (hready : c.session.state = .ready)
      (hclock : c.clock < c.session.tBegin) : Step c .start { c with pc := .sleepUntil }
  /-- `start` is called at `t_begin` or later. -/
  | startLate (hpc : c.pc = .idle) (hready : c.session.state = .ready)
      (hclock : c.session.tBegin ≤ c.clock) : Step c .start c.running
  /-- `start` is called on a session that is not ready. -/
  | startNot (hpc : c.pc = .idle) (hready : c.session.state ≠ .ready) :
      Step c .start { c with pc := .returned }
  /-- The sleep until `t_begin` ends. -/
  | begin (hpc : c.pc = .sleepUntil) (hclock : c.session.tBegin ≤ c.clock) :
      Step c .go c.running
  | pass {g : Guard} (hpc : c.pc = .guard g)
      (hpass : g.passes c.session.stopRequested c.complet = true) :
      Step c .go { c with pc := .perform g.typ }
  | skip {g : Guard} (hpc : c.pc = .guard g)
      (hpass : g.passes c.session.stopRequested c.complet = false) :
      Step c .go { c with pc := g.next }
  /-- The stage thread is created. -/
  | launch {typ : StageTyp} (hpc : c.pc = .perform typ) :
      Step c .go { c with
        pc := .wait typ
        thread := some ⟨typ, .created, none, false⟩
        log := c.log ++ [.launch typ] }
  /-- The future has the completion, and the stage thread is joined. -/
  | get {typ : StageTyp} {th : StageThread} {complet : Completion} (hpc : c.pc = .wait typ)
      (hth : c.thread = some th) (hpromise : th.promise = some complet) :
      Step c .go (c.stageReturns typ complet none)
  /-- The stage thread is cancelled and left behind. -/
  | kill {typ : StageTyp} {th : StageThread} (hpc : c.pc = .timedOut typ)
      (hth : c.thread = some th) :
      Step c .go (c.stageReturns typ .timeout (some (th.kill c.clock)))
  | close (hpc : c.pc = .closing) : Step c .go c.close
  /-- `wait_until` reaches `t_end` with no completion there. -/
  | expire {typ : StageTyp} {th : StageThread} (hpc : c.pc = .wait typ)
      (hth : c.thread = some th) (hpromise : th.promise = none)
      (hclock : c.session.tEnd ≤ c.clock) : Step c .expire { c with pc := .timedOut typ }
  | stop : Step c .stop { c with session := c.session.stop }
  | tick (d : ℕ) : Step c (.tick d) { c with clock := c.clock + d }
  /-- The stage thread calls `enter_stage`. -/
  | enter {d : Option ℕ} {th : StageThread} (hth : c.thread = some th) (hpc : th.pc = .created) :
      Step c (.enter d) { c with
        useCase := (c.useCase.enterStage th.typ.target).2
        thread := some { th with
          pc := if (c.useCase.enterStage th.typ.target).1 then th.sleep c.clock d
            else .leaving } }
  | wake {th : StageThread} {wake : ℤ} (hth : c.thread = some th)
      (hpc : th.pc = .sleeping (some wake)) (hclock : wake ≤ c.clock) :
      Step c .wake { c with thread := some { th with pc := .awake } }
  /-- The stage thread calls `quit_stage`. -/
  | quit {th : StageThread} (hth : c.thread = some th) (hpc : th.pc = .awake) :
      Step c .quit { c with
        useCase := c.useCase.quitStage
        thread := some { th with pc := .leaving } }
  /-- The stage thread sets its promise. -/
  | set {th : StageThread} (hth : c.thread = some th) (hpc : th.pc = .leaving) :
      Step c .set { c with
        thread := some { th with
          pc := .finished
          promise := some c.useCase.currentCompletion } }
  | cancel {th : StageThread} {wake : Option ℤ} (hth : c.thread = some th)
      (hpc : th.pc = .sleeping wake) (hreq : th.cancelRequested = true) :
      Step c .cancel { c with thread := some { th with pc := .cancelled } }
  | other (op : Other) : Step c (.other op) { c with useCase := op.apply c.useCase }

variable {c c' : Config} {a : Act}

theorem Step.of_start (h : c.stepStart = some c') : Step c .start c' := by
  unfold stepStart at h
  split at h
  · next hpc =>
    split at h
    · next hready =>
      split at h <;> cases h
      · next hclock => exact .startEarly hpc hready hclock
      · next hclock => exact .startLate hpc hready (by omega)
    · next hready =>
      cases h
      exact .startNot hpc hready
  · cases h

theorem Step.of_go (h : c.stepGo = some c') : Step c .go c' := by
  unfold stepGo at h
  split at h
  · next hpc =>
    split at h <;> cases h
    next hclock => exact .begin hpc hclock
  · next hpc =>
    split at h <;> cases h
    · next hpass => exact .pass hpc hpass
    · next hpass => exact .skip hpc (by simpa using hpass)
  · next hpc =>
    cases h
    exact .launch hpc
  · next hpc =>
    split at h <;> cases h
    next hth => exact .get hpc hth rfl
  · next hpc =>
    obtain ⟨th, hth, rfl⟩ := Option.map_eq_some_iff.1 h
    exact .kill hpc hth
  · next hpc =>
    cases h
    exact .close hpc
  · cases h
  · cases h

theorem Step.of_expire (h : c.stepExpire = some c') : Step c .expire c' := by
  unfold stepExpire at h
  split at h
  · next hpc hth =>
    split at h <;> cases h
    next hclock => exact .expire hpc hth rfl hclock
  · cases h

theorem Step.of_enter {d : Option ℕ} (h : c.stepEnter d = some c') : Step c (.enter d) c' := by
  unfold stepEnter at h
  split at h
  · next hth =>
    cases h
    exact .enter hth rfl
  · cases h

theorem Step.of_thread :
    (c.stepWake = some c' → Step c .wake c') ∧ (c.stepQuit = some c' → Step c .quit c') ∧
      (c.stepSet = some c' → Step c .set c') ∧ (c.stepCancel = some c' → Step c .cancel c') := by
  refine ⟨fun h => ?_, fun h => ?_, fun h => ?_, fun h => ?_⟩
  · unfold stepWake at h
    split at h
    · next hth =>
      split at h <;> cases h
      next hclock => exact .wake hth rfl hclock
    · cases h
  · unfold stepQuit at h
    split at h <;> cases h
    next hth => exact .quit hth rfl
  · unfold stepSet at h
    split at h <;> cases h
    next hth => exact .set hth rfl
  · unfold stepCancel at h
    split at h <;> cases h
    next hth => exact .cancel hth rfl rfl

/-- **Every step is a move of the list.** -/
theorem Step.of_step (h : sessionMachine.step c a = some c') : Step c a c' := by
  change c.step a = some c' at h
  cases a with
  | start => exact .of_start h
  | stop => cases h; exact .stop
  | tick d => cases h; exact .tick d
  | go => exact .of_go h
  | expire => exact .of_expire h
  | enter d => exact .of_enter h
  | wake => exact Step.of_thread.1 h
  | quit => exact Step.of_thread.2.1 h
  | set => exact Step.of_thread.2.2.1 h
  | cancel => exact Step.of_thread.2.2.2 h
  | other op => cases h; exact .other op

/-- **And every move of the list is a step.** -/
theorem Step.step (h : Step c a c') : sessionMachine.step c a = some c' := by
  change c.step a = some c'
  cases h with
  | startEarly hpc hready hclock => simp [Config.step, stepStart, hpc, hready, hclock]
  | startLate hpc hready hclock =>
    simp [Config.step, stepStart, hpc, hready, not_lt.2 hclock]
  | startNot hpc hready => simp [Config.step, stepStart, hpc, hready]
  | begin hpc hclock => simp [Config.step, stepGo, hpc, hclock]
  | pass hpc hpass => simp [Config.step, stepGo, hpc, hpass]
  | skip hpc hpass => simp [Config.step, stepGo, hpc, hpass]
  | launch hpc => simp [Config.step, stepGo, hpc]
  | @get typ th complet hpc hth hpromise =>
    obtain ⟨typ', pc, promise, req⟩ := th
    cases hpromise
    simp [Config.step, stepGo, hpc, hth]
  | kill hpc hth => simp [Config.step, stepGo, hpc, hth]
  | close hpc => simp [Config.step, stepGo, hpc]
  | @expire typ th hpc hth hpromise hclock =>
    obtain ⟨typ', pc, promise, req⟩ := th
    cases hpromise
    simp [Config.step, stepExpire, hpc, hth, hclock]
  | stop => rfl
  | tick d => rfl
  | @enter d th hth hpc =>
    obtain ⟨typ', pc, promise, req⟩ := th
    cases hpc
    simp [Config.step, stepEnter, hth]
  | @wake th wake hth hpc hclock =>
    obtain ⟨typ', pc, promise, req⟩ := th
    cases hpc
    simp [Config.step, stepWake, hth, hclock]
  | @quit th hth hpc =>
    obtain ⟨typ', pc, promise, req⟩ := th
    cases hpc
    simp [Config.step, stepQuit, hth]
  | @set th hth hpc =>
    obtain ⟨typ', pc, promise, req⟩ := th
    cases hpc
    simp [Config.step, stepSet, hth]
  | @cancel th wake hth hpc hreq =>
    obtain ⟨typ', pc, promise, req⟩ := th
    cases hpc
    cases hreq
    simp [Config.step, stepCancel, hth]
  | other op => rfl

theorem step_iff : sessionMachine.step c a = some c' ↔ Step c a c' :=
  ⟨Step.of_step, Step.step⟩

end Config

end VireSandbox
