import VireSandbox.Session.Reach
/-!
# The session — what a kill leaves behind

`pthread_cancel` is deferred: both calls that would make it immediate act
on the session's own thread. The stage thread that has timed out is
stopped only in its sleep, and anywhere else it goes on, detached, to
enter its stage or to quit it. A kill is final exactly where nothing that
is left of the thread would show (`kill_final_iff`): in its sleep, past a
stage it was refused, or in a work iteration that is not the last, whose
end the use case does not record.
-/

namespace VireSandbox

/-- The stage a stage function leaves behind when it is through. -/
def StageTyp.done : StageTyp → Stage
  | .init => .initialized
  | .witer => .worked
  | .finish => .finished

namespace UseCase

variable {uc : UseCase} {typ : StageTyp}

/-- The use case is inside a stage. -/
def In (uc : UseCase) (typ : StageTyp) : Prop :=
  uc.currentStage = typ.target ∧ uc.currentCompletion = .toBeContinued

/-- The use case has recorded a stage as completed. -/
def Recorded (uc : UseCase) (typ : StageTyp) : Prop :=
  uc.currentStage = typ.done ∧ uc.currentCompletion = .completed

instance (uc : UseCase) (typ : StageTyp) : Decidable (uc.Recorded typ) :=
  inferInstanceAs (Decidable (_ ∧ _))

/-- A work iteration that is not the last. -/
def Midway (uc : UseCase) (typ : StageTyp) : Prop :=
  typ = .witer ∧ uc.currentWorkIter < uc.nbIterations

theorem In.not_recorded (h : uc.In typ) : ¬ uc.Recorded typ := by
  rintro ⟨-, hcompletion⟩
  rw [h.2] at hcompletion
  cases hcompletion

/-- **A stage that is entered is inside**, and one that is refused leaves an
error. -/
theorem enterStage_in (uc : UseCase) (typ : StageTyp) :
    ((uc.enterStage typ.target).1 = true ∧ (uc.enterStage typ.target).2.In typ) ∨
      ((uc.enterStage typ.target).1 = false ∧
        (uc.enterStage typ.target).2.currentCompletion = .error) := by
  rcases enterStage_cases uc typ.target with ⟨uc', -, hent, henter⟩ | henter
  · rw [henter]
    refine .inl ⟨rfl, ?_⟩
    cases typ with
    | init | witer | finish =>
      simp only [entered, StageTyp.target] at hent
      split at hent <;> cases hent
      exact ⟨rfl, rfl⟩
  · rw [henter]
    exact .inr ⟨rfl, rfl⟩

theorem enterStage_of_error (h : uc.currentCompletion = .error) :
    uc.enterStage typ.target = (false, uc) := by
  have hout : uc.outOfService = true := by simp [outOfService, h]
  rw [enterStage_of_refused (.inl hout), ← h]

/-- To enter a stage is to change something, unless an error is there to
begin with. -/
theorem enterStage_eq_self_iff :
    (uc.enterStage typ.target).2 = uc ↔ uc.currentCompletion = .error := by
  constructor
  · intro heq
    rcases enterStage_cases uc typ.target with ⟨uc', -, hent, henter⟩ | henter
    · rw [henter] at heq
      change uc' = uc at heq
      subst heq
      cases typ with
      | init | finish =>
        simp only [entered, StageTyp.target] at hent
        split at hent
        · next hguard =>
          have hstage := congrArg currentStage (Option.some_inj.1 hent)
          rw [hguard] at hstage
          cases hstage
        · cases hent
      | witer =>
        simp only [entered, StageTyp.target] at hent
        split at hent
        · have hiter := congrArg currentWorkIter (Option.some_inj.1 hent)
          simp only at hiter
          omega
        · cases hent
    · rw [henter] at heq
      rw [← heq]
  · intro herr
    rw [enterStage_of_error herr]

/-- **A stage that is quit is recorded**, but for a work iteration that is
not the last, of which nothing is seen. -/
theorem In.quitStage (h : uc.In typ) :
    (¬ uc.Midway typ ∧ uc.quitStage.Recorded typ) ∨ (uc.Midway typ ∧ uc.quitStage = uc) := by
  obtain ⟨hstage, hcompletion⟩ := h
  have hout : uc.outOfService = false := by simp [outOfService, hcompletion]
  unfold UseCase.quitStage Midway
  rw [hout, if_neg Bool.false_ne_true, hstage]
  cases typ with
  | init | finish => exact .inl ⟨by simp, rfl, rfl⟩
  | witer =>
    by_cases hlt : uc.currentWorkIter < uc.nbIterations
    · refine .inr ⟨⟨rfl, hlt⟩, ?_⟩
      simp only [StageTyp.target, if_pos hlt, ← hcompletion]
      rw [← show uc.currentStage = .working from hstage]
    · refine .inl ⟨fun hmid => hlt hmid.2, ?_⟩
      simp only [StageTyp.target, if_neg hlt]
      exact ⟨rfl, rfl⟩

theorem In.quitStage_of_midway (h : uc.In typ) (hmid : uc.Midway typ) : uc.quitStage = uc := by
  rcases h.quitStage with ⟨hlast, -⟩ | ⟨-, hsame⟩
  · exact absurd hmid hlast
  · exact hsame

theorem In.midway (h : uc.In typ) (hnot : ¬ uc.quitStage.Recorded typ) : uc.Midway typ := by
  rcases h.quitStage with ⟨-, hrec⟩ | ⟨hmid, -⟩
  · exact absurd hrec hnot
  · exact hmid

end UseCase

/-- **How a stage thread nobody has cancelled holds its use case.** -/
def Holds (typ : StageTyp) (th : StageThread) (uc : UseCase) : Prop :=
  match th.pc with
  | .created | .cancelled => True
  | .sleeping _ | .awake => uc.In typ
  | .leaving | .finished =>
    uc.currentCompletion = .error ∨ uc.Recorded typ ∨ (uc.In typ ∧ uc.Midway typ)

/-- **Nothing that is left of a cancelled thread changes the use case.** -/
def Spent (th : StageThread) (uc : UseCase) : Prop :=
  match th.pc with
  | .created => uc.currentCompletion = .error
  | .sleeping _ | .awake => uc.quitStage = uc
  | .leaving | .finished | .cancelled => True

/-- **Where the thread may be for its kill to be final**, at the instant of
the kill: asleep, or where what it still does, or has done, does not
show. -/
def Harmless (typ : StageTyp) (th : StageThread) (uc : UseCase) (clock : ℤ) : Prop :=
  match th.pc with
  | .created => uc.currentCompletion = .error
  | .sleeping (some wake) => clock < wake ∨ uc.Midway typ
  | .awake => uc.Midway typ
  | .leaving | .finished => uc.currentCompletion ≠ .completed
  | .sleeping none | .cancelled => True

theorem holds_sleep {typ : StageTyp} {uc : UseCase} {th : StageThread} {clock : ℤ}
    {d : Option ℕ} (h : uc.In typ) : Holds typ { th with pc := th.sleep clock d } uc := by
  unfold StageThread.sleep
  split
  · exact h
  · split
    · trivial
    · exact h

/-- What the kill leaves of a harmless thread is spent. -/
theorem Harmless.spent {typ : StageTyp} {uc : UseCase} {th : StageThread} {clock : ℤ}
    (h : Harmless typ th uc clock) (hold : Holds typ th uc) : Spent (th.kill clock) uc := by
  obtain ⟨typ', pc, promise, cancelRequested⟩ := th
  unfold StageThread.kill
  cases pc with
  | created => exact h
  | sleeping wake =>
    cases wake with
    | none => trivial
    | some wake =>
      by_cases hwake : wake ≤ clock
      · simp only [if_pos hwake]
        have hmid : uc.Midway typ := h.resolve_left (by omega)
        exact UseCase.In.quitStage_of_midway hold hmid
      · simp only [if_neg hwake]
        trivial
  | awake => exact UseCase.In.quitStage_of_midway hold h
  | leaving | finished | cancelled => trivial

/-- A harmless thread has not recorded its stage. -/
theorem Harmless.not_recorded {typ : StageTyp} {uc : UseCase} {th : StageThread} {clock : ℤ}
    (h : Harmless typ th uc clock) (hold : Holds typ th uc) (hw : Waited typ th) :
    ¬ uc.Recorded typ := by
  intro hrec
  have hcompleted := hrec.2
  unfold Harmless at h
  unfold Holds at hold
  cases hpc : th.pc with
  | created =>
    simp only [hpc] at h
    rw [h] at hcompleted
    cases hcompleted
  | sleeping wake | awake =>
    simp only [hpc] at hold
    exact hold.not_recorded hrec
  | leaving | finished =>
    simp only [hpc] at h
    exact h hcompleted
  | cancelled => exact hw.alive hpc

namespace Config

variable {c c' : Config} {a : Act} {typ : StageTyp} {th : StageThread}

/-! ## Up to the kill -/

/-- The stage thread `start` waits for, or is about to kill, holds the use
case. -/
def Attended (c : Config) : Prop :=
  ∀ typ th, c.pc = .wait typ ∨ c.pc = .timedOut typ → c.thread = some th → Holds typ th c.useCase

theorem attended_of_pc (h : ∀ typ, ¬ (c.pc = .wait typ ∨ c.pc = .timedOut typ)) : Attended c :=
  fun typ _ hpc => absurd hpc (h typ)

/-- A step of the stage thread of a session alone. -/
theorem Attended.update {th' : StageThread} {uc : UseCase} (h : Attended c) (ht : Threaded c)
    (hth : c.thread = some th)
    (hold : ∀ typ, Waited typ th → Holds typ th c.useCase → Holds typ th' uc) :
    Attended { c with useCase := uc, thread := some th' } := by
  rintro typ th₁ hpc ⟨⟩
  exact hold typ (ht.waited hpc hth) (h typ th hpc hth)

theorem Attended.step (h : Attended c) (ht : Threaded c) (ha : Alone c a) (hstep : Step c a c') :
    Attended c' := by
  cases hstep with
  | @expire typ' th' hpc hth hpromise hclock =>
    rintro typ th (hpc' | hpc') hth'
    · cases hpc'
    · cases hpc'
      exact h _ th (.inl hpc) hth'
  | launch hpc =>
    rintro typ th - ⟨⟩
    trivial
  | startEarly | startLate | startNot | begin | pass | close =>
    exact attended_of_pc nofun
  | @skip g hpc hpass => exact attended_of_pc (by cases g <;> exact nofun)
  | @get typ th v hpc hth hpromise => exact attended_of_pc (by cases typ <;> exact nofun)
  | @kill typ th hpc hth => exact attended_of_pc (by cases typ <;> exact nofun)
  | stop | tick => exact h
  | @enter d th hth hpc =>
    refine h.update ht hth fun typ hw hold => ?_
    rw [hw.typ]
    rcases UseCase.enterStage_in c.useCase typ with ⟨hvalid, hin⟩ | ⟨hvalid, herr⟩
    · rw [hvalid, if_pos rfl]
      exact holds_sleep hin
    · rw [hvalid, if_neg Bool.false_ne_true]
      exact .inl herr
  | wake hth hpc hclock =>
    refine h.update ht hth fun typ hw hold => ?_
    simpa only [Holds, hpc] using hold
  | quit hth hpc =>
    refine h.update ht hth fun typ hw hold => ?_
    simp only [Holds, hpc] at hold
    rcases hold.quitStage with ⟨-, hrec⟩ | ⟨hmid, hsame⟩
    · exact .inr (.inl hrec)
    · rw [hsame]
      exact .inr (.inr ⟨hold, hmid⟩)
  | set hth hpc =>
    refine h.update ht hth fun typ hw hold => ?_
    simpa only [Holds, hpc] using hold
  | cancel hth hpc hreq =>
    exact h.update ht hth fun typ hw hold => trivial
  | other op => exact absurd rfl (ha op)

/-! ## From the kill on -/

/-- **What is left of a session after a kill that changes nothing more.** -/
structure Over (uc : UseCase) (c : Config) : Prop where
  useCase : c.useCase = uc
  complet : c.complet = .timeout
  pc : c.pc = .guard .work ∨ c.pc = .guard .loop ∨ c.pc = .guard .finish ∨ c.pc = .closing ∨
    c.pc = .returned
  spent : ∀ th, c.thread = some th → Spent th uc

variable {uc : UseCase}

theorem Over.step (h : Over uc c) (ha : Alone c a) (hstep : Step c a c') : Over uc c' := by
  obtain ⟨huc, hcomplet, hat, hspent⟩ := h
  cases hstep with
  | startEarly hpc | startLate hpc | startNot hpc | begin hpc | launch hpc | get hpc | kill hpc
  | expire hpc =>
    simp [hpc] at hat
  | @pass g hpc hpass =>
    -- no guard past the initialisation's takes a timeout
    cases g <;> simp [hpc, Guard.passes, Guard.needs, hcomplet] at hat hpass
  | @skip g hpc hpass =>
    refine ⟨huc, hcomplet, ?_, hspent⟩
    cases g <;> simp [hpc, Guard.next] at hat ⊢
  | close hpc => exact ⟨huc, hcomplet, by simp [close], hspent⟩
  | stop | tick => exact ⟨huc, hcomplet, hat, hspent⟩
  | @enter d th hth hpc =>
    have herr := hspent th hth
    simp only [Spent, hpc] at herr
    have hrefused : c.useCase.enterStage th.typ.target = (false, c.useCase) :=
      UseCase.enterStage_of_error (huc ▸ herr)
    refine ⟨by rw [hrefused, huc], hcomplet, hat, ?_⟩
    rintro th' ⟨⟩
    rw [hrefused, if_neg Bool.false_ne_true]
    trivial
  | wake hth hpc hclock =>
    refine ⟨huc, hcomplet, hat, ?_⟩
    rintro th' ⟨⟩
    simpa only [Spent, hpc] using hspent _ hth
  | quit hth hpc =>
    have hsame := hspent _ hth
    simp only [Spent, hpc] at hsame
    refine ⟨by rw [huc, hsame], hcomplet, hat, ?_⟩
    rintro th' ⟨⟩
    trivial
  | set hth hpc | cancel hth hpc hreq =>
    refine ⟨huc, hcomplet, hat, ?_⟩
    rintro th' ⟨⟩
    trivial
  | other op => exact absurd rfl (ha op)

theorem attended_run {s : Session} (hready : s.state = .ready) {now : ℤ} {as : List Act}
    (halone : sessionMachine.Within Alone (ready s uc now) as)
    (hrun : sessionMachine.run (ready s uc now) as = some c) : Sound c ∧ Attended c :=
  Machine.run_induction (fun c => Sound c ∧ Attended c)
    (fun _ _ _ h ha hs => ⟨h.1.step hs, h.2.step h.1.threaded ha (.of_step hs)⟩)
    ⟨sound_ready hready uc now, attended_of_pc nofun⟩ halone hrun

/-- **From a harmless kill on, nothing changes.** -/
theorem over_run (hpc : c.pc = .timedOut typ) (hth : c.thread = some th)
    (hold : Holds typ th c.useCase) (hharmless : Harmless typ th c.useCase c.clock)
    {bs : List Act} (halone : sessionMachine.Within Alone c (.go :: bs))
    (hrun : sessionMachine.run c (.go :: bs) = some c') : Over c.useCase c' := by
  have hkill : Step c .go _ := .kill hpc hth
  rw [Machine.within_cons hkill.step] at halone
  rw [Machine.run_cons hkill.step] at hrun
  have hover : Over c.useCase (c.stageReturns typ .timeout (some (th.kill c.clock))) := by
    refine ⟨rfl, rfl, by cases typ <;> simp [stageReturns, StageTyp.after], ?_⟩
    rintro th' ⟨⟩
    exact hharmless.spent hold
  exact Machine.run_induction (Over c.useCase)
    (fun _ _ _ h ha hs => h.step ha (.of_step hs)) hover halone.2 hrun

/-- **And from any other kill on, something may.** -/
theorem harmless_of_final (hpc : c.pc = .timedOut typ) (hth : c.thread = some th)
    (hw : Waited typ th) (hold : Holds typ th c.useCase)
    (hfinal : ∀ bs c', (∀ op, .other op ∉ bs) → sessionMachine.run c (.go :: bs) = some c' →
      c'.useCase = c.useCase ∧ ¬ c'.useCase.Recorded typ) :
    Harmless typ th c.useCase c.clock := by
  obtain ⟨typ', tpc, promise, cancelRequested⟩ := th
  have hkill : Step c .go _ := .kill hpc hth
  have hrest : ∀ bs c', (∀ op, .other op ∉ bs) → sessionMachine.run
      (c.stageReturns typ .timeout (some (StageThread.kill ⟨typ', tpc, promise, cancelRequested⟩
        c.clock))) bs = some c' →
      c'.useCase = c.useCase ∧ ¬ c'.useCase.Recorded typ := fun bs c' hbs hrun =>
    hfinal bs c' hbs ((Machine.run_cons hkill.step).trans hrun)
  cases tpc with
  | created =>
    obtain rfl : typ' = typ := hw.typ
    -- the thread enters its stage once `stage_perform` has returned
    have henter : Step (c.stageReturns typ' .timeout (some ⟨typ', .created, promise, true⟩))
        (.enter (some 1)) _ := .enter rfl rfl
    have hsame := (hrest [.enter (some 1)] _ (by simp)
      ((Machine.run_cons henter.step).trans Machine.run_nil)).1
    exact UseCase.enterStage_eq_self_iff.1 hsame
  | sleeping wake =>
    cases wake with
    | none => trivial
    | some wake =>
      rcases lt_or_ge c.clock wake with hclock | hclock
      · exact .inl hclock
      · have hkilled : StageThread.kill ⟨typ', .sleeping (some wake), promise, cancelRequested⟩
            c.clock = ⟨typ', .sleeping (some wake), promise, true⟩ := by
          simp [StageThread.kill, hclock]
        rw [hkilled] at hrest
        -- the sleep is over, and the thread leaves it before it is stopped
        have hwake : Step
            (c.stageReturns typ .timeout (some ⟨typ', .sleeping (some wake), promise, true⟩))
            .wake _ := .wake rfl rfl hclock
        have hquit : Step (c.stageReturns typ .timeout (some ⟨typ', .awake, promise, true⟩))
            .quit _ := .quit rfl rfl
        have hnot := (hrest [.wake, .quit] _ (by simp) ((Machine.run_cons hwake.step).trans
          ((Machine.run_cons hquit.step).trans Machine.run_nil))).2
        exact .inr (UseCase.In.midway hold hnot)
  | awake =>
    have hquit : Step (c.stageReturns typ .timeout (some ⟨typ', .awake, promise, true⟩))
        .quit _ := .quit rfl rfl
    have hnot := (hrest [.quit] _ (by simp)
      ((Machine.run_cons hquit.step).trans Machine.run_nil)).2
    exact UseCase.In.midway hold hnot
  | leaving | finished =>
    intro hcompleted
    obtain ⟨-, hnot⟩ := hrest [] _ (by simp) Machine.run_nil
    rcases hold with herr | hrec | hmid
    · rw [herr] at hcompleted
      cases hcompleted
    · exact hnot hrec
    · rw [hmid.1.2] at hcompleted
      cases hcompleted
  | cancelled => trivial

/-- **A kill is final exactly where the thread is harmless.** For every
ready session that has its use case alone, every run of it up to a stage
that has timed out: whatever comes after the kill, the use case is what it
was and the stage is not recorded, if and only if the thread was killed in
its sleep, or nothing of what is left of it shows. -/
theorem kill_final_iff (s : Session) (hready : s.state = .ready) (uc : UseCase) (now : ℤ)
    (as : List Act) (c : Config) (typ : StageTyp) (th : StageThread)
    (halone : sessionMachine.Within Alone (ready s uc now) as)
    (hrun : sessionMachine.run (ready s uc now) as = some c)
    (hpc : c.pc = .timedOut typ) (hth : c.thread = some th) :
    (∀ bs c', sessionMachine.Within Alone c (.go :: bs) →
      sessionMachine.run c (.go :: bs) = some c' →
      c'.useCase = c.useCase ∧ ¬ c'.useCase.Recorded typ) ↔
    Harmless typ th c.useCase c.clock := by
  obtain ⟨hsound, hattended⟩ := attended_run hready halone hrun
  have hw : Waited typ th := hsound.threaded.waited (.inr hpc) hth
  have hold : Holds typ th c.useCase := hattended typ th (.inr hpc) hth
  constructor
  · intro hfinal
    refine harmless_of_final hpc hth hw hold fun bs c' hbs hrun' => ?_
    exact hfinal bs c' (within_alone fun op hmem => hbs op (by simpa using hmem)) hrun'
  · intro hharmless bs c' halone' hrun'
    have hover := over_run hpc hth hold hharmless halone' hrun'
    rw [hover.useCase]
    exact ⟨rfl, hharmless.not_recorded hold hw⟩

/-- A first stage that hangs, up to its deadline. -/
def hungRun : List Act := [.start, .go, .go, .enter none, .tick 6000000000, .expire]

theorem kill_final_iff_hungRun :
    ∃ c, sessionMachine.run (ready shortSession shortCase 0) hungRun = some c ∧
      c.pc = .timedOut .init ∧
      ∀ bs c', sessionMachine.Within Alone c (.go :: bs) →
        sessionMachine.run c (.go :: bs) = some c' →
        c'.useCase = c.useCase ∧ ¬ c'.useCase.Recorded .init := by
  have hready : shortSession.state = .ready := by decide
  refine ⟨_, rfl, rfl, ?_⟩
  exact (kill_final_iff shortSession hready shortCase 0 hungRun _ .init
    ⟨.init, .sleeping none, none, false⟩ (within_alone (by simp [hungRun])) rfl rfl rfl).2 trivial

/-- A session called a second before the end of its slot: the sleep of the
first stage ends at its deadline. -/
def narrowRun : List Act :=
  [.start, .go, .go, .enter (some 1000000000), .tick 1000000000, .wake, .expire]

/-- The same, with a thread that has not run at all. -/
def starvedRun : List Act := [.start, .go, .go, .tick 1000000000, .expire]

/-- **A stage is completed after it was killed**, and entered after it was
killed. -/
theorem not_final_narrowRun :
    (∃ c c', sessionMachine.run (ready shortSession shortCase (5 * nanos)) narrowRun = some c ∧
      c.pc = .timedOut .init ∧
      sessionMachine.run c [.go, .go, .go, .go, .quit, .go] = some c' ∧
      c'.log = [.launch .init, .result .init .timeout] ∧ c'.session.state = .killed ∧
      c.useCase.currentStage = .initializing ∧ c'.useCase.Recorded .init) ∧
    ∃ c c', sessionMachine.run (ready shortSession shortCase (5 * nanos)) starvedRun = some c ∧
      c.pc = .timedOut .init ∧
      sessionMachine.run c [.go, .go, .go, .go, .go, .enter (some 1000000000)] = some c' ∧
      c'.session.state = .killed ∧
      c.useCase.currentStage = .new ∧ c'.useCase.currentStage = .initializing :=
  ⟨⟨_, _, rfl, rfl, rfl, rfl, rfl, rfl, by decide⟩, _, _, rfl, rfl, rfl, rfl, rfl, rfl⟩

end Config

end VireSandbox
