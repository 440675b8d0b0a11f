import VireSandbox.Session.Alone
/-!
# The session — over a use case in any state

A use case handed to a session may have been driven before, or be driven
by others meanwhile. `Reachable` are the states it can be in then, and a
session that has such a use case alone either runs its script, `Joint`,
or is barred at its first stage, `Barred`: what decides is whether the
use case takes an `init_stage`.
-/

namespace VireSandbox

namespace UseCase

variable {uc : UseCase} {op : Other}

/-- **The states a use case can reach**, its stage functions taken half by
half, whoever calls them. -/
inductive Reachable : UseCase → Prop
  | new (ucase : String) (initMax workMax finishMax : ℤ) :
      Reachable (new ucase initMax workMax finishMax)
  | other {uc : UseCase} (op : Other) : Reachable uc → Reachable (op.apply uc)

/-- The use case takes an `init_stage`. -/
def TakesInit (uc : UseCase) : Prop := uc.outOfService = false ∧ uc.currentStage = .new

instance : Decidable uc.TakesInit := inferInstanceAs (Decidable (_ ∧ _))

/-- What every reachable state satisfies: no completion from outside, and
nothing begun in stage `NEW`. -/
structure Genuine (uc : UseCase) : Prop where
  stopped : uc.currentCompletion ≠ .stopped
  timeout : uc.currentCompletion ≠ .timeout
  new : uc.currentStage = .new →
    uc.currentWorkIter = 0 ∧ uc.currentCompletion ≠ .toBeContinued

theorem genuine_new (ucase : String) (initMax workMax finishMax : ℤ) :
    Genuine (new ucase initMax workMax finishMax) :=
  ⟨by simp [UseCase.new], by simp [UseCase.new], fun _ => ⟨rfl, by simp [UseCase.new]⟩⟩

theorem Genuine.error (h : Genuine uc) : Genuine { uc with currentCompletion := .error } :=
  ⟨by simp, by simp, fun hnew => ⟨(h.new hnew).1, by simp⟩⟩

theorem Genuine.enterStage (h : Genuine uc) (stage : Stage) : Genuine (uc.enterStage stage).2 := by
  rcases enterStage_cases uc stage with ⟨uc', -, hent, henter⟩ | henter
  · obtain ⟨hne, iter, rfl, -⟩ := entered_cases hent
    rw [henter]
    exact ⟨by simp, by simp, fun hnew => absurd hnew hne⟩
  · rw [henter]
    exact h.error

theorem Genuine.quitStage (h : Genuine uc) : Genuine uc.quitStage := by
  unfold UseCase.quitStage
  split
  · exact h
  · split
    · exact ⟨by simp, by simp, fun hnew => by cases hnew⟩
    · split <;> exact ⟨by simp, by simp, fun hnew => by cases hnew⟩
    · exact ⟨by simp, by simp, fun hnew => by cases hnew⟩
    · exact h.error

theorem Reachable.genuine (h : Reachable uc) : Genuine uc := by
  induction h with
  | new ucase initMax workMax finishMax => exact genuine_new ucase initMax workMax finishMax
  | other op _ ih =>
    cases op with
    | enter typ => exact ih.enterStage typ.target
    | quit => exact ih.quitStage
    | tooSlow => exact ⟨ih.stopped, ih.timeout, ih.new⟩

/-- **A use case that takes an `init_stage` has its whole script ahead.** -/
theorem Genuine.atRest (h : Genuine uc) (htakes : TakesInit uc) :
    AtRest uc.plannedIterations 0 uc := by
  obtain ⟨hout, hnew⟩ := htakes
  obtain ⟨hiter, htbc⟩ := h.new hnew
  refine ⟨by omega, rfl, hnew, ?_, by simp [hiter, restIter]⟩
  have hstopped := h.stopped
  have htimeout := h.timeout
  cases hc : uc.currentCompletion <;> simp_all [outOfService, restCompletion]

/-- And one that does not take it is in error for it. -/
theorem enterStage_of_not_takesInit (h : ¬ TakesInit uc) :
    uc.enterStage .initializing = (false, { uc with currentCompletion := .error }) := by
  refine enterStage_of_refused ?_
  by_cases hout : uc.outOfService = true
  · exact Or.inl hout
  · refine Or.inr (if_neg fun hnew => h ⟨by simpa using hout, hnew⟩)

end UseCase

namespace Config

variable {c c' : Config} {a : Act}

/-- **The states of a run are over reachable use cases.** -/
theorem reachable_step (h : c.useCase.Reachable) (hstep : Step c a c') :
    c'.useCase.Reachable := by
  cases hstep with
  | @enter d th hth hpc => exact .other (.enter th.typ) h
  | quit hth hpc => exact .other .quit h
  | other op => exact .other op h
  | _ => exact h

/-- A promise holds what the use case returned, and `start` a completion
of its own making or of a promise's. -/
structure Promised (c : Config) : Prop where
  promise : ∀ th v, c.thread = some th → th.promise = some v → v ≠ .stopped ∧ v ≠ .timeout
  complet : c.complet ≠ .stopped

theorem promised_ready (s : Session) (uc : UseCase) (now : ℤ) : Promised (ready s uc now) := by
  refine ⟨?_, by simp [ready]⟩
  rintro th v ⟨⟩

theorem Promised.step (h : Promised c) (hg : c.useCase.Genuine) (hstep : Step c a c') :
    Promised c' := by
  obtain ⟨hpromise, hcomplet⟩ := h
  cases hstep with
  | launch hpc =>
    refine ⟨?_, hcomplet⟩
    rintro th v ⟨⟩ ⟨⟩
  | get hpc hth hv =>
    refine ⟨?_, (hpromise _ _ hth hv).1⟩
    rintro th v ⟨⟩
  | @kill typ th hpc hth =>
    refine ⟨?_, by simp [stageReturns]⟩
    rintro th' v ⟨⟩ hv
    refine hpromise th v hth ?_
    rw [← hv]
    unfold StageThread.kill
    split
    · split <;> rfl
    · rfl
    · rfl
  | enter hth hpc | wake hth hpc | quit hth hpc | cancel hth hpc =>
    refine ⟨?_, hcomplet⟩
    rintro th' v ⟨⟩ hv
    exact hpromise _ v hth hv
  | set hth hpc =>
    refine ⟨?_, hcomplet⟩
    rintro th' v ⟨⟩ hv
    obtain rfl := Option.some_inj.1 hv
    exact ⟨hg.stopped, hg.timeout⟩
  | _ => exact ⟨hpromise, hcomplet⟩

/-! ## Barred at the first stage -/

/-- How a refused `init_stage` is under way. -/
def Refused (uc : UseCase) (th : StageThread) : Prop :=
  match th.pc with
  | .created => ¬ uc.TakesInit
  | .leaving => uc.currentCompletion = .error
  | .finished => th.promise = some .error
  | _ => False

/-- Past the initialisation, or its guard, of a use case that refuses it. -/
def Turned (c : Config) : Prop :=
  (c.log = [] ∧ c.complet = .error ∧ c.thread = none ∧ c.session.stopRequested = true) ∨
    (c.log = [.launch .init, .result .init .error] ∧ c.complet = .error ∧ c.thread = none) ∨
    (c.log = [.launch .init, .result .init .timeout] ∧ c.complet = .timeout)

/-- **The invariant of a session whose use case does not take an
`init_stage`**: the initialisation is the one stage launched, and is in
error or timed out. -/
def Barred (c : Config) : Prop :=
  match c.pc with
  | .idle | .sleepUntil | .guard .init | .perform .init =>
    c.log = [] ∧ c.complet = .error ∧ c.thread = none ∧ ¬ c.useCase.TakesInit
  | .wait .init | .timedOut .init =>
    c.log = [.launch .init] ∧ ∃ th, c.thread = some th ∧ Refused c.useCase th
  | .guard _ | .closing | .returned => Turned c
  | _ => False

theorem barred_ready {uc : UseCase} (h : ¬ uc.TakesInit) (s : Session) (now : ℤ) :
    Barred (ready s uc now) :=
  ⟨rfl, rfl, rfl, h⟩

/-- No guard past the initialisation's lets a barred session on. -/
theorem Turned.passes (h : Turned c) {g : Guard} (hg : g ≠ .init) :
    g.passes c.session.stopRequested c.complet = false := by
  have hcomplet : c.complet = .error ∨ c.complet = .timeout := by
    rcases h with ⟨-, h, -⟩ | ⟨-, h, -⟩ | ⟨-, h⟩
    · exact Or.inl h
    · exact Or.inl h
    · exact Or.inr h
  refine Guard.passes_eq_false.2 (Or.inr ?_)
  rcases hcomplet with hv | hv <;> cases g <;> simp [Guard.needs, hv] at hg ⊢

/-- A step of the stage thread of a barred session. -/
theorem Barred.update (h : Barred c) {th th' : StageThread} {uc : UseCase}
    (hth : c.thread = some th) (ht : Threaded c)
    (hat : Waited .init th → Refused c.useCase th → Refused uc th') :
    Barred { c with useCase := uc, thread := some th' } := by
  have hturned : Turned c → Turned { c with useCase := uc, thread := some th' } := by
    rintro (⟨-, -, hnone, -⟩ | ⟨-, -, hnone⟩ | h)
    · simp [hth] at hnone
    · simp [hth] at hnone
    · exact Or.inr (Or.inr h)
  unfold Barred at h ⊢
  cases hpc : c.pc with
  | idle | sleepUntil => simp [hpc, hth] at h
  | guard g =>
    cases g with
    | init => simp [hpc, hth] at h
    | work | loop | finish =>
      simp only [hpc] at h ⊢
      exact hturned h
  | perform typ => cases typ <;> simp [hpc, hth] at h
  | closing | returned =>
    simp only [hpc] at h ⊢
    exact hturned h
  | wait typ | timedOut typ =>
    cases typ with
    | init =>
      have hw : Waited .init th := ht.waited (by simp [hpc]) hth
      simp only [hpc] at h ⊢
      obtain ⟨hlog, th₁, hth₁, hold⟩ := h
      obtain rfl := Option.some_inj.1 (hth.symm.trans hth₁)
      exact ⟨hlog, th', rfl, hat hw hold⟩
    | witer | finish => simp [hpc] at h

/-- A stop changes nothing for a barred session. -/
theorem Barred.stop (h : Barred c) : Barred { c with session := c.session.stop } := by
  have hturned : Turned c → Turned { c with session := c.session.stop } := by
    rintro (⟨hlog, hcomplet, hnone, -⟩ | h)
    · exact Or.inl ⟨hlog, hcomplet, hnone, rfl⟩
    · exact Or.inr h
  unfold Barred at h ⊢
  cases hpc : c.pc with
  | idle | sleepUntil => simpa only [hpc] using h
  | guard g =>
    cases g with
    | init => simpa only [hpc] using h
    | work | loop | finish =>
      simp only [hpc] at h ⊢
      exact hturned h
  | perform typ | wait typ | timedOut typ =>
    cases typ with
    | init => simpa only [hpc] using h
    | witer | finish => simp [hpc] at h
  | closing | returned =>
    simp only [hpc] at h ⊢
    exact hturned h

/-- **Every step of a session alone keeps it barred.** -/
theorem Barred.step (h : Barred c) (hc : Control c) (ht : Threaded c) (ha : Alone c a)
    (hstep : Step c a c') : Barred c' := by
  cases hstep with
  | startEarly hpc hready hclock | startLate hpc hready hclock | begin hpc hclock =>
    simp only [Barred, hpc] at h
    exact h
  | startNot hpc hready =>
    simp only [Control, hpc] at hc
    exact absurd hc.1 hready
  | @pass g hpc hpass =>
    cases g with
    | init =>
      simp only [Barred, hpc] at h
      exact h
    | work | loop | finish =>
      simp only [Barred, hpc] at h
      simp [h.passes] at hpass
  | @skip g hpc hpass =>
    cases g with
    | init =>
      simp only [Barred, hpc] at h
      obtain ⟨hlog, hcomplet, hnone, -⟩ := h
      have hstop : c.session.stopRequested = true := by
        simpa [Guard.needs] using Guard.passes_eq_false.1 hpass
      exact Or.inl ⟨hlog, hcomplet, hnone, hstop⟩
    | work | loop | finish =>
      simp only [Barred, hpc] at h
      exact h
  | @launch typ hpc =>
    cases typ with
    | init =>
      simp only [Barred, hpc] at h
      obtain ⟨hlog, -, -, htakes⟩ := h
      exact ⟨by simp [hlog], _, rfl, htakes⟩
    | witer | finish => simp [Barred, hpc] at h
  | @get typ th v hpc hth hpromise =>
    cases typ with
    | init =>
      have hfin := (ht.waited (.inl hpc) hth).finished hpromise
      simp only [Barred, hpc] at h
      obtain ⟨hlog, th₁, hth₁, hold⟩ := h
      obtain rfl := Option.some_inj.1 (hth.symm.trans hth₁)
      simp only [Refused, hfin] at hold
      obtain rfl : v = .error := Option.some_inj.1 (hpromise.symm.trans hold)
      exact Or.inr (Or.inl ⟨by simp [stageReturns, hlog], rfl, rfl⟩)
    | witer | finish => simp [Barred, hpc] at h
  | @kill typ th hpc hth =>
    cases typ with
    | init =>
      simp only [Barred, hpc] at h
      exact Or.inr (Or.inr ⟨by simp [stageReturns, h.1], rfl⟩)
    | witer | finish => simp [Barred, hpc] at h
  | close hpc =>
    simp only [Barred, hpc] at h
    exact h
  | @expire typ th hpc hth hpromise hclock =>
    cases typ with
    | init =>
      simp only [Barred, hpc] at h
      exact h
    | witer | finish => simp [Barred, hpc] at h
  | stop => exact h.stop
  | tick d => exact h
  | @enter d th hth hpc =>
    refine h.update hth ht fun hw hold => ?_
    simp only [Refused, hpc] at hold
    rw [hw.typ, StageTyp.target, UseCase.enterStage_of_not_takesInit hold]
    exact rfl
  | wake hth hpc hclock | quit hth hpc | cancel hth hpc hreq =>
    refine h.update hth ht fun hw hold => ?_
    simp [Refused, hpc] at hold
  | set hth hpc =>
    refine h.update hth ht fun hw hold => ?_
    simp only [Refused, hpc] at hold
    exact congrArg some hold
  | other op => exact absurd rfl (ha op)

/-- **What holds of `start` over every run**: what it knows, and the thread
it knows of. -/
structure Sound (c : Config) : Prop where
  control : Control c
  threaded : Threaded c

theorem sound_ready {s : Session} (hready : s.state = .ready) (uc : UseCase) (now : ℤ) :
    Sound (ready s uc now) :=
  ⟨control_ready hready uc now, rfl⟩

theorem Sound.step (h : Sound c) (hs : sessionMachine.step c a = some c') : Sound c' :=
  ⟨h.control.step (.of_step hs), h.threaded.step (.of_step hs)⟩

theorem sound_run {s : Session} (hready : s.state = .ready) {uc : UseCase} {now : ℤ}
    {as : List Act} (hrun : sessionMachine.run (ready s uc now) as = some c) : Sound c :=
  Machine.run_invariant Sound (fun _ _ _ h hs => h.step hs) (sound_ready hready uc now) hrun

/-- What every run keeps of the use case and of what it returns. -/
theorem reachable_run {s : Session} {uc : UseCase} (huc : uc.Reachable) {now : ℤ}
    {as : List Act} (hrun : sessionMachine.run (ready s uc now) as = some c) :
    c.useCase.Reachable ∧ Promised c := by
  have hstep : ∀ c a c', c.useCase.Reachable ∧ Promised c → sessionMachine.step c a = some c' →
      c'.useCase.Reachable ∧ Promised c' := fun c a c' hI hs =>
    ⟨reachable_step hI.1 (.of_step hs), hI.2.step hI.1.genuine (.of_step hs)⟩
  exact Machine.run_invariant (fun c => c.useCase.Reachable ∧ Promised c) hstep
    ⟨huc, promised_ready s uc now⟩ hrun

/-- **A session alone runs its script or is barred**, as its use case takes
an `init_stage` or not. -/
def Placed (N : ℕ) (takes : Prop) (c : Config) : Prop :=
  (takes ∧ Joint N c) ∨ (¬ takes ∧ Barred c)

theorem placed_ready {uc : UseCase} (huc : uc.Genuine) (s : Session) (now : ℤ) :
    Placed uc.plannedIterations uc.TakesInit (ready s uc now) := by
  by_cases htakes : uc.TakesInit
  · exact Or.inl ⟨htakes, joint_ready (huc.atRest htakes) s now⟩
  · exact Or.inr ⟨htakes, barred_ready htakes s now⟩

theorem Placed.step {N : ℕ} {takes : Prop} (h : Placed N takes c) (hsound : Sound c)
    (ha : Alone c a) (hstep : Step c a c') : Placed N takes c' := by
  obtain ⟨hc, ht⟩ := hsound
  rcases h with ⟨htakes, h⟩ | ⟨htakes, h⟩
  · exact Or.inl ⟨htakes, h.step ht ha hstep⟩
  · exact Or.inr ⟨htakes, h.step hc ht ha hstep⟩

/-- What a run alone keeps of its script. -/
theorem placed_run {s : Session} (hready : s.state = .ready) {uc : UseCase}
    (huc : uc.Reachable) {now : ℤ} {as : List Act}
    (halone : sessionMachine.Within Alone (ready s uc now) as)
    (hrun : sessionMachine.run (ready s uc now) as = some c) :
    Placed uc.plannedIterations uc.TakesInit c := by
  have hstep : ∀ c a c', Sound c ∧ Placed uc.plannedIterations uc.TakesInit c → Alone c a →
      sessionMachine.step c a = some c' →
      Sound c' ∧ Placed uc.plannedIterations uc.TakesInit c' :=
    fun c a c' h ha hs => ⟨h.1.step hs, h.2.step h.1 ha (.of_step hs)⟩
  exact (Machine.run_induction _ hstep
    ⟨sound_ready hready uc now, placed_ready huc.genuine s now⟩ halone hrun).2

end Config

end VireSandbox
