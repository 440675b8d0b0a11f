import VireSandbox.Session.Reach
/-!
# The session — the use case before and after

What a session is handed and what it leaves. Its constructor refuses a
use case whose stage and completion are both wrong, where either should
do: the histories it lets through and `start` cannot drive are those of
`Intact`. And no path of `start` puts the use case out of service, which
after a stop goes on where it was left.
-/

namespace VireSandbox

namespace UseCase

variable {N : ℕ} {uc uc' : UseCase} {typ : StageTyp} {cs : List Call}

/-! ## The stage a history leads to -/

theorem entered_stage {stage : Stage} (h : uc.entered stage = some uc') :
    uc'.currentStage = stage := by
  obtain ⟨-, iter, rfl, -⟩ := entered_cases h
  rfl

theorem quitStage_ne_new (h : uc.currentStage ≠ .new) : uc.quitStage.currentStage ≠ .new := by
  unfold quitStage
  split
  · exact h
  · split
    · simp
    · split <;> simp
    · simp
    · exact h

/-- Stage `NEW` is left for ever. -/
theorem perform_ne_new (h : uc.currentStage ≠ .new) : (uc.perform typ).2.currentStage ≠ .new := by
  rcases enterStage_cases uc typ.target with ⟨uc', -, hent, henter⟩ | henter
  · rw [perform_of_enter henter]
    refine quitStage_ne_new ?_
    rw [entered_stage hent]
    cases typ <;> simp [StageTyp.target]
  · rw [perform_of_refused henter]
    exact h

/-- **A history leaves stage `NEW` with its first call**, if that is an
`init_stage`, and never otherwise. -/
theorem calls_new_iff (h : AtRest N 0 uc) (cs : List Call) :
    (uc.calls cs).currentStage = .new ↔ (stageCalls cs).head? ≠ some .init := by
  induction cs using List.reverseRecOn with
  | nil => simp [stageCalls, h.stage, restStage_zero]
  | append_singleton cs c ih =>
    rw [calls_append]
    cases c with
    | setTooSlow =>
      rw [stageCalls_concat_setTooSlow]
      exact ih
    | stage typ =>
      rw [stageCalls_concat_stage]
      change ((uc.calls cs).stageCall typ).2.currentStage = .new ↔ _
      rw [stageCall_eq]
      rcases hfirst : stageCalls cs with - | ⟨typ', typs⟩
      · -- the first call of all
        have hrest : AtRest N 0 (uc.calls cs) := by
          have hat : AtRest N (stageCalls cs).length (uc.calls cs) :=
            calls_atRest h (by simp [hfirst])
          rwa [hfirst] at hat
        by_cases hinit : typ = .init
        · subst hinit
          have hdone := (hrest.perform protocol_zero).1
          simp [hdone.stage, restStage_one]
        · have hoff : (protocol N)[0]? ≠ some typ := by
            rw [protocol_zero]
            exact fun h => hinit (Option.some_inj.1 h).symm
          rw [perform_of_refused (hrest.enterStage_refused hoff)]
          simpa [hinit, restStage_zero] using hrest.stage
      · rw [hfirst] at ih
        by_cases hnew : (uc.calls cs).currentStage = .new
        · -- the first call was off the script, and so is what follows
          have hoff : ¬ stageCalls cs <+: protocol N := by
            rw [hfirst]
            rintro ⟨t, ht⟩
            have hhead : typ' = .init := by
              have := congrArg List.head? ht
              simpa [protocol] using this
            exact ih.1 hnew (by simp [hhead])
          rw [perform_of_error (calls_error h hoff)]
          simpa using ih
        · have hstay : ((uc.calls cs).perform typ).2.currentStage ≠ .new := perform_ne_new hnew
          simpa [hstay, hnew] using ih

/-- A history leads from reachable states to reachable states. -/
theorem Reachable.calls (h : Reachable uc) (cs : List Call) : Reachable (uc.calls cs) := by
  induction cs using List.reverseRecOn with
  | nil => exact h
  | append_singleton cs c ih =>
    rw [calls_append]
    cases c with
    | setTooSlow => exact .other .tooSlow ih
    | stage typ =>
      change Reachable ((uc.calls cs).stageCall typ).2
      rw [stageCall_eq]
      have hentered : Reachable ((uc.calls cs).enterStage typ.target).2 := .other (.enter typ) ih
      rcases enterStage_cases (uc.calls cs) typ.target with ⟨uc', -, -, henter⟩ | henter
      · rw [henter] at hentered
        rw [perform_of_enter henter]
        exact .other .quit hentered
      · rw [henter] at hentered
        rw [perform_of_refused henter]
        exact hentered

/-! ## What the constructor lets through -/

/-- **The histories the constructor is right about**: nothing called, or a
use case begun that is neither completed between two stages nor finished. -/
def Intact (N : ℕ) (typs : List StageTyp) : Prop :=
  typs = [] ∨ (typs.head? = some .init ∧ ∀ p ∈ [1, N + 1, N + 2], typs ≠ (protocol N).take p)

instance (typs : List StageTyp) : Decidable (Intact N typs) := inferInstanceAs (Decidable (_ ∨ _))

/-- Positions where the use case is completed. -/
theorem restCompletion_eq_completed_iff {p : ℕ} (hp : 1 ≤ p) (hle : p ≤ N + 2) :
    restCompletion N p = .completed ↔ p ∈ [1, N + 1, N + 2] := by
  have hlist : p ∈ [1, N + 1, N + 2] ↔ p = 1 ∨ p = N + 1 ∨ p = N + 2 := by simp
  rw [hlist]
  unfold restCompletion
  split
  · simp
    omega
  · simp
    omega

/-- **What the guard of the constructor should have asked.** A use case in
stage `NEW` or completed takes an `init_stage` exactly after an intact
history. -/
theorem takesInit_iff_intact (h : AtRest N 0 uc) (cs : List Call) :
    ((uc.calls cs).currentStage = .new ∨ (uc.calls cs).currentCompletion = .completed →
      TakesInit (uc.calls cs)) ↔ Intact N (stageCalls cs) := by
  have hnew := calls_new_iff h cs
  by_cases hpre : stageCalls cs <+: protocol N
  · have hat := calls_atRest h hpre
    have hlen : (stageCalls cs).length ≤ N + 2 := hat.le
    rcases Nat.eq_zero_or_pos (stageCalls cs).length with h0 | hpos
    · -- nothing called: the use case is as new
      have hnil : stageCalls cs = [] := List.eq_nil_of_length_eq_zero h0
      rw [hnil] at hat
      have htakes : TakesInit (uc.calls cs) := ⟨hat.outOfService, hat.stage⟩
      simp [htakes, Intact, hnil]
    · have hhead : (stageCalls cs).head? = some .init := by
        obtain ⟨t, ht⟩ := hpre
        have hne : stageCalls cs ≠ [] := List.ne_nil_of_length_pos hpos
        have hfirst : (stageCalls cs ++ t).head? = some .init := by rw [ht]; rfl
        rwa [List.head?_append_of_ne_nil _ hne] at hfirst
      have hstage : (uc.calls cs).currentStage ≠ .new := by simp [hnew, hhead]
      have hnot : ¬ TakesInit (uc.calls cs) := fun htakes => hstage htakes.2
      have htake : ∀ p ∈ [1, N + 1, N + 2],
          (stageCalls cs = (protocol N).take p ↔ (stageCalls cs).length = p) := by
        intro p hp
        have hle : p ≤ N + 2 := by
          have : p = 1 ∨ p = N + 1 ∨ p = N + 2 := by simpa using hp
          omega
        constructor
        · intro heq
          rw [heq, List.length_take, length_protocol]
          omega
        · rintro rfl
          exact List.prefix_iff_eq_take.1 hpre
      have hcompleted : (uc.calls cs).currentCompletion = .completed ↔
          (stageCalls cs).length ∈ [1, N + 1, N + 2] := by
        rw [hat.completion, restCompletion_eq_completed_iff hpos hlen]
      have hne : stageCalls cs ≠ [] := List.ne_nil_of_length_pos hpos
      simp only [hstage, hnot, false_or, imp_false, hcompleted, Intact, hne, hhead, true_and]
      constructor
      · intro hmem p hp heq
        exact hmem ((htake p hp).1 heq ▸ hp)
      · intro hall hmem
        exact hall _ hmem ((htake _ hmem).2 rfl)
  · have herror := calls_error h hpre
    have hnot : ¬ TakesInit (uc.calls cs) := by
      rintro ⟨hout, -⟩
      simp [outOfService, herror] at hout
    have hne : stageCalls cs ≠ [] := by
      intro hnil
      exact hpre (by simp [hnil])
    have hnottake : ∀ p, stageCalls cs ≠ (protocol N).take p := fun p heq =>
      hpre (heq ▸ List.take_prefix _ _)
    simp [hnot, hnew, herror, Intact, hne, hnottake]

end UseCase

namespace Session

variable {uc : UseCase} {tBegin tEnd : ℤ}

/-- **What the constructor asks.** -/
theorem new_ready_iff : (Session.new uc tBegin tEnd).state = .ready ↔
    (uc.currentStage = .new ∨ uc.currentCompletion = .completed) ∧
      uc.getDurationMax * nanos ≤ tEnd - tBegin := by
  unfold Session.new
  dsimp only
  split
  · next hwrong => simp [hwrong]
  · next hright =>
    have hor : uc.currentStage = .new ∨ uc.currentCompletion = .completed := by
      by_cases hnew : uc.currentStage = .new
      · exact Or.inl hnew
      · exact Or.inr (by simpa [hnew] using hright)
    split
    · next hshort => simp [not_le.2 hshort]
    · next hlong => simp [hor, not_lt.1 hlong]

end Session

namespace Config

variable {c : Config} {uc : UseCase} {s : Session} {tBegin tEnd : ℤ}

/-- A session `READY` over the use case finds it as a whole run needs it,
in a reservation that is long enough. -/
def Drivable (uc : UseCase) (tBegin tEnd : ℤ) : Prop :=
  (Session.new uc tBegin tEnd).state = .ready →
    uc.currentStage = .new ∧ uc.currentCompletion = .completed ∧
      uc.getDurationMax * nanos ≤ tEnd - tBegin

/-- A session `READY` over the use case, and alone with it, gets no error
from a stage. -/
def ErrorFree (uc : UseCase) (tBegin tEnd : ℤ) : Prop :=
  (Session.new uc tBegin tEnd).state = .ready → ∀ now as c,
    sessionMachine.Within Alone (ready (.new uc tBegin tEnd) uc now) as →
    sessionMachine.run (ready (.new uc tBegin tEnd) uc now) as = some c →
    ∀ typ, .result typ .error ∉ c.log

/-- An initialisation that is refused. -/
def refusedRun : List Act := [.start, .go, .go, .enter none, .set, .go]

theorem refusedRun_error (hready : s.state = .ready) (hstop : s.stopRequested = false)
    (h : ¬ uc.TakesInit) :
    ∃ c, sessionMachine.run (ready s uc s.tBegin) refusedRun = some c ∧
      .result .init .error ∈ c.log := by
  have hrefused := UseCase.enterStage_of_not_takesInit h
  simp [refusedRun, Machine.run, sessionMachine, Config.step, stepStart, stepGo, stepEnter, stepSet,
    ready, running, stageReturns, Guard.passes, Guard.needs, Guard.typ, StageTyp.target, hready,
    hstop, hrefused]

/-- Both readings of a sound admission are that the use case takes an
`init_stage`. -/
theorem errorFree_iff (huc : uc.Reachable) :
    ErrorFree uc tBegin tEnd ↔
      ((Session.new uc tBegin tEnd).state = .ready → uc.TakesInit) := by
  constructor
  · intro hfree hready
    by_contra htakes
    obtain ⟨c, hrun, hmem⟩ := refusedRun_error hready rfl htakes
    exact hfree hready _ refusedRun c (within_alone fun op => by simp [refusedRun]) hrun _ hmem
  · intro htakes hready now as c halone hrun
    rcases placed_run hready huc halone hrun with ⟨-, h⟩ | ⟨hnot, -⟩
    · exact h.shape.2.1
    · exact absurd (htakes hready) hnot

theorem drivable_iff (huc : uc.Reachable) :
    Drivable uc tBegin tEnd ↔
      ((Session.new uc tBegin tEnd).state = .ready → uc.TakesInit) := by
  constructor
  · intro hdrive hready
    obtain ⟨hnew, hcompleted, -⟩ := hdrive hready
    exact ⟨by simp [UseCase.outOfService, hcompleted], hnew⟩
  · intro htakes hready
    have h := huc.genuine.atRest (htakes hready)
    exact ⟨h.stage, by simp [h.completion, UseCase.restCompletion],
      (Session.new_ready_iff.1 hready).2⟩

/-- **The constructor admits what `start` can drive exactly after an intact
history.** For every sequence of calls on a new use case and every
reservation: a session that is `READY` over it finds it new and completed,
and `start` alone with it gets no error, if and only if the reservation is
too short for it to be `READY` or the history is intact. -/
theorem admission_iff_intact (ucase : String) (initMax workMax finishMax tBegin tEnd : ℤ)
    (cs : List UseCase.Call) :
    let new : UseCase := .new ucase initMax workMax finishMax
    let uc := new.calls cs
    (Drivable uc tBegin tEnd ↔ tEnd - tBegin < uc.getDurationMax * nanos ∨
      UseCase.Intact new.plannedIterations (UseCase.stageCalls cs)) ∧
    (ErrorFree uc tBegin tEnd ↔ tEnd - tBegin < uc.getDurationMax * nanos ∨
      UseCase.Intact new.plannedIterations (UseCase.stageCalls cs)) := by
  intro new uc
  have hnew : new.Reachable := .new ucase initMax workMax finishMax
  have huc : uc.Reachable := hnew.calls cs
  have hkey : ((Session.new uc tBegin tEnd).state = .ready → uc.TakesInit) ↔
      tEnd - tBegin < uc.getDurationMax * nanos ∨
        UseCase.Intact new.plannedIterations (UseCase.stageCalls cs) := by
    rw [← UseCase.takesInit_iff_intact (UseCase.atRest_new ucase initMax workMax finishMax) cs,
      Session.new_ready_iff]
    by_cases hfits : uc.getDurationMax * nanos ≤ tEnd - tBegin
    · simp only [hfits, and_true, not_lt.2 hfits, false_or]
      exact Iff.rfl
    · simp only [hfits, and_false, false_imp_iff, not_le.1 hfits, true_or]
  exact ⟨(drivable_iff huc).trans hkey, (errorFree_iff huc).trans hkey⟩

/-- **A use case that was initialised is admitted.** -/
theorem not_drivable_initialized :
    let uc := shortCase.calls [.stage .init]
    (Session.new uc 0 (6 * nanos)).state = .ready ∧ uc.currentStage = .initialized ∧
      ¬ Drivable uc 0 (6 * nanos) ∧ ¬ ErrorFree uc 0 (6 * nanos) := by
  have hready : (Session.new (shortCase.calls [.stage .init]) 0 (6 * nanos)).state = .ready := by
    decide
  refine ⟨hready, by decide, fun h => absurd (h hready).1 (by decide), fun h => ?_⟩
  obtain ⟨c, hrun, hmem⟩ := refusedRun_error hready rfl
    (show ¬ (shortCase.calls [.stage .init]).TakesInit by decide)
  exact h hready _ refusedRun c (within_alone fun op => by simp [refusedRun]) hrun _ hmem

/-! ## What a stop and a timeout leave behind -/

/-- **Out of service**, as its completion says and as its calls find. -/
def OutOfService (c : Config) : Prop :=
  (c.session.state = .stopped → c.useCase.currentCompletion = .stopped) ∧
  (c.session.state = .killed → c.useCase.currentCompletion = .timeout) ∧
  ∀ cs, (c.useCase.calls cs).currentStage = c.useCase.currentStage ∧
    (c.useCase.calls cs).currentWorkIter = c.useCase.currentWorkIter ∧
    ∀ typ, ((c.useCase.calls cs).stageCall typ).1 ≠ .toBeContinued ∧
      ((c.useCase.calls cs).stageCall typ).1 ≠ .completed

/-- **A stopped session leaves the script's next letter to be read**, and
whoever calls it has it read. -/
theorem Joint.stopped {N : ℕ} (h : Joint N c) (hc : Control c) (hpc : c.pc = .returned)
    (hstopped : c.session.state = .stopped) : ∃ typ, (c.useCase.stageCall typ).1.Fine := by
  simp only [Joint, Control, hpc] at h hc
  rcases hc.2 with ⟨hstate, -⟩ | ⟨hfin, stop, -, -, hstate⟩
  · simp [hstate] at hstopped
  · rw [hstate] at hstopped
    rcases h with ⟨htimeout, -⟩ | ⟨p, hb⟩
    · simp [htimeout] at hstopped
    · have hp : p < N + 2 := by
        rcases Nat.lt_or_ge p (N + 2) with hlt | hge
        · exact hlt
        · -- the finish is the last letter
          have hlast : p = N + 2 := Nat.le_antisymm hb.rest.le hge
          have htake : (UseCase.protocol N).take (N + 2) = UseCase.protocol N :=
            List.take_of_length_le (by simp)
          rw [hb.log, launches_story hb.rest.le, hlast, htake] at hfin
          exact absurd (List.mem_of_getElem? UseCase.protocol_finish) hfin
      have hletter : p < (UseCase.protocol N).length := by simpa using hp
      refine ⟨(UseCase.protocol N)[p], ?_⟩
      have hperform := (hb.rest.perform (List.getElem?_eq_getElem hletter)).2
      rw [UseCase.stageCall_eq, hperform]
      exact UseCase.restCompletion_eq N (p + 1)

/-- **No run puts the use case out of service.** However `start` was
stopped or killed, its new use case is not out of service after it; and
where nobody else has the use case, one that was stopped takes its next
call. -/
theorem in_service_after_interruption (ucase : String)
    (initMax workMax finishMax tBegin tEnd now : ℤ) (as : List Act) (c : Config)
    (hready :
      (Session.new (.new ucase initMax workMax finishMax) tBegin tEnd).state = .ready)
    (hrun : sessionMachine.run (ready (.new (.new ucase initMax workMax finishMax) tBegin tEnd)
      (.new ucase initMax workMax finishMax) now) as = some c)
    (hreturned : c.pc = .returned)
    (hinterrupted : c.session.state = .stopped ∨ c.session.state = .killed) :
    ¬ OutOfService c ∧
    (sessionMachine.Within Alone (ready (.new (.new ucase initMax workMax finishMax) tBegin tEnd)
        (.new ucase initMax workMax finishMax) now) as →
      c.session.state = .stopped → ∃ typ, (c.useCase.stageCall typ).1.Fine) := by
  have huc : (UseCase.new ucase initMax workMax finishMax).Reachable :=
    .new ucase initMax workMax finishMax
  have hgenuine := (reachable_run huc hrun).1.genuine
  constructor
  · rintro ⟨hstopped, hkilled, -⟩
    rcases hinterrupted with h | h
    · exact hgenuine.stopped (hstopped h)
    · exact hgenuine.timeout (hkilled h)
  · intro halone hstopped
    have hnew := UseCase.atRest_new ucase initMax workMax finishMax
    exact (joint_run hnew halone hrun).1.stopped (sound_run hready hrun).control hreturned hstopped

/-- The short run, stopped after its initialisation. -/
def stoppedRun : List Act := .start :: (performed 1 ++ [.stop, .go, .go, .go, .go])

theorem in_service_after_interruption_stoppedRun :
    ∃ c, sessionMachine.run (ready shortSession shortCase 0) stoppedRun = some c ∧
      ¬ OutOfService c ∧ ∃ typ, (c.useCase.stageCall typ).1.Fine := by
  have halone : sessionMachine.Within Alone (ready shortSession shortCase 0) stoppedRun :=
    within_alone fun op => by simp [stoppedRun, performed]
  have hready : shortSession.state = .ready := by decide
  refine ⟨_, rfl, ?_⟩
  have h := in_service_after_interruption "uc_test" 2 2 2 0 (6 * nanos) 0 stoppedRun _ hready rfl
    rfl (Or.inl rfl)
  exact ⟨h.1, h.2 halone rfl⟩

/-- The short run, killed in its initialisation. -/
def killedRun : List Act :=
  [.start, .go, .go, .enter none, .tick 6000000000, .expire, .go, .go, .go, .go, .go]

/-- **A use case that was stopped works on**, and one that was killed is
left in the stage it was killed in, to be continued. -/
theorem not_outOfService_stoppedRun :
    shortSession.state = .ready ∧
    (∃ c, sessionMachine.run (ready shortSession shortCase 0) stoppedRun = some c ∧
      c.pc = .returned ∧ c.session.state = .stopped ∧ c.useCase.currentCompletion = .completed ∧
      (c.useCase.stageCall .witer).1 = .completed ∧ ¬ OutOfService c) ∧
    ∃ c, sessionMachine.run (ready shortSession shortCase 0) killedRun = some c ∧
      c.pc = .returned ∧ c.session.state = .killed ∧ c.useCase.currentStage = .initializing ∧
      c.useCase.currentCompletion = .toBeContinued ∧ ¬ OutOfService c := by
  refine ⟨by decide, ⟨_, rfl, rfl, by decide, by decide, by decide, ?_⟩,
    ⟨_, rfl, rfl, by decide, by decide, by decide, ?_⟩⟩
  · rintro ⟨hstopped, -, -⟩
    exact absurd (hstopped (by decide)) (by decide)
  · rintro ⟨-, hkilled, -⟩
    exact absurd (hkilled (by decide)) (by decide)

end Config

end VireSandbox
