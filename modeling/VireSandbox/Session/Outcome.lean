import VireSandbox.Session.Reach
/-!
# The session — what `start` returns

The state `start` leaves is computed in two places: after the finish it is
`COMPLETED`, whatever the finish returned, and in the closing `else` it is
read off the stop flag and the last completion, where an error is not
looked at. Both are stated as what goes wrong in a run: `start` reports
its stages truly exactly where no step is one of them.
-/

namespace VireSandbox

/-- The states `start` may leave a session in. -/
def SessionState.terminal : SessionState → Bool
  | .ready | .running => false
  | .error | .stopped | .killed | .completed => true

namespace Config

variable {c c' : Config} {a : Act}

/-! ## The finish that was not completed -/

/-- **What `COMPLETED` and `KILLED` should mean**: the finish was launched
and completed, and a stage timed out. -/
def Truthful (c : Config) : Prop :=
  (c.session.state = .completed →
    ∃ l, c.log = l ++ [.launch .finish, .result .finish .completed]) ∧
  (c.session.state = .killed ↔ ∃ typ, .result typ .timeout ∈ c.log)

/-- A step with which the finish neither times out nor returns anything
but `COMPLETED`. -/
def FinishCompletes (c : Config) (a : Act) : Prop :=
  c.pc = .wait .finish → a ≠ .expire ∧ (a = .set → c.useCase.currentCompletion = .completed)

/-- A step with which `t_end` does not pass while `start` waits for the
finish. -/
def FinishInTime (c : Config) (a : Act) : Prop := c.pc = .wait .finish → a ≠ .expire

/-- The finish has not completed, or will not. -/
def Spoiled (c : Config) : Prop :=
  match c.pc with
  | .wait .finish => ∃ th v, c.thread = some th ∧ th.promise = some v ∧ v ≠ .completed
  | .timedOut .finish => True
  | .returned => .finish ∈ launches c.log ∧ c.complet ≠ .completed
  | _ => False

/-- A step of the stage thread short of its promise spoils nothing. -/
theorem spoiled_thread {th th' : StageThread} {uc : UseCase} (hth : c.thread = some th)
    (hpromise : th'.promise = th.promise) :
    Spoiled { c with useCase := uc, thread := some th' } ↔ Spoiled c := by
  unfold Spoiled
  cases hpc : c.pc with
  | wait typ => cases typ <;> simp [hth, hpromise]
  | timedOut typ => cases typ <;> simp
  | _ => simp

/-- **A run is spoiled by exactly the steps that do not complete the
finish.** -/
theorem spoiled_step (hc : Control c) (ht : Threaded c) (hstep : Step c a c') :
    Spoiled c' ↔ Spoiled c ∨ ¬ FinishCompletes c a := by
  cases hstep with
  | startEarly hpc | startLate hpc | begin hpc | pass hpc =>
    simp [Spoiled, FinishCompletes, running, hpc]
  | startNot hpc hready =>
    simp only [Control, hpc] at hc
    exact absurd hc.1 hready
  | @skip g hpc hpass =>
    cases g <;> simp [Spoiled, FinishCompletes, hpc, Guard.next]
  | @launch typ hpc => cases typ <;> simp [Spoiled, FinishCompletes, hpc]
  | @get typ th v hpc hth hpromise =>
    cases typ with
    | init | witer =>
      simp [Spoiled, FinishCompletes, hpc, stageReturns, StageTyp.after]
    | finish =>
      have hmem := hc.mem_launches (.inl hpc)
      simp [Spoiled, FinishCompletes, hpc, hth, hpromise, stageReturns, StageTyp.after, hmem]
  | @kill typ th hpc hth =>
    cases typ with
    | init | witer =>
      simp [Spoiled, FinishCompletes, hpc, stageReturns, StageTyp.after]
    | finish =>
      have hmem := hc.mem_launches (.inr hpc)
      simp [Spoiled, FinishCompletes, hpc, stageReturns, StageTyp.after, hmem]
  | close hpc =>
    simp only [Control, hpc] at hc
    simp [Spoiled, FinishCompletes, hpc, Config.close, hc.2.2.1]
  | @expire typ th hpc hth hpromise hclock =>
    cases typ <;> simp [Spoiled, FinishCompletes, hpc]
  | stop | tick d | other op =>
    simp [Spoiled, FinishCompletes]
  | enter hth hpc | wake hth hpc | quit hth hpc | cancel hth hpc =>
    refine (spoiled_thread hth ?_).trans ?_
    · rfl
    · simp [FinishCompletes]
  | @set th hth hpc =>
    by_cases hwait : c.pc = .wait .finish
    · -- the promise was not set before, and is to the completion now
      have hw := ht.waited (.inl hwait) hth
      have hnone : th.promise = none := hw.promise.2 (by simp [hpc])
      simp [Spoiled, FinishCompletes, hwait, hth, hnone]
    · have hfin : FinishCompletes c .set := fun h => absurd h hwait
      have hsame : Spoiled { c with thread := some { th with
          pc := .finished
          promise := some c.useCase.currentCompletion } } ↔ Spoiled c := by
        unfold Spoiled
        cases hc' : c.pc with
        | wait typ => cases typ <;> simp [hc'] at hwait ⊢
        | timedOut typ => cases typ <;> simp
        | _ => simp
      rw [hsame]
      simp [hfin]

/-- Where `start` has returned, it tells the truth unless the finish was
launched and not completed. -/
theorem truthful_iff (hc : Control c) (hpc : c.pc = .returned) : Truthful c ↔ ¬ Spoiled c := by
  simp only [Control, hpc] at hc
  obtain ⟨htrail, hverdict⟩ := hc
  have htimeout : (∃ typ, .result typ .timeout ∈ c.log) ↔ c.complet = .timeout := htrail.timeout_iff
  simp only [Truthful, Spoiled, hpc, htimeout]
  rcases hverdict with ⟨hstate, l, hlog, -⟩ | ⟨hfin, stop, -, -, hstate⟩
  · have hmem : .finish ∈ launches c.log := by
      rw [hlog, launches_concat_result]
      simp
    rw [hstate]
    constructor
    · rintro ⟨hcompleted, -⟩ ⟨-, hne⟩
      obtain ⟨l', hl'⟩ := hcompleted rfl
      rw [hlog, List.append_assoc] at hl'
      have hlast := (List.append_inj' hl' rfl).2
      simp [hne] at hlast
    · intro hnot
      have hv : c.complet = .completed := by
        by_contra hne
        exact hnot ⟨hmem, hne⟩
      exact ⟨fun _ => ⟨l, by simp [hlog, hv]⟩, by simp [hv]⟩
  · rw [hstate]
    by_cases hv : c.complet = .timeout <;> cases stop <;> simp [hv, hfin]

/-- Alone, the finish completes unless it times out. -/
theorem finishCompletes_iff {N : ℕ} {takes : Prop} (h : Placed N takes c) (hstep : Step c a c') :
    FinishCompletes c a ↔ FinishInTime c a := by
  refine ⟨fun hfin hpc => (hfin hpc).1, fun hfin hpc => ⟨hfin hpc, ?_⟩⟩
  rintro rfl
  rcases h with ⟨-, h⟩ | ⟨-, h⟩
  · simp only [Joint, hpc] at h
    obtain ⟨p, hin⟩ := h
    cases hstep with
    | set hth hleaving =>
      have hat := hin.threadAt hth
      simp only [ThreadAt, hleaving] at hat
      have hp : p = N + 1 := by simpa using UseCase.letter_cases hin.1
      rw [hat.completion, UseCase.restCompletion_of_gt (by omega)]
  · simp [Barred, hpc] at h

/-- **`start` tells the truth exactly where the finish completes.** In every
run, over a use case in any state it can reach, `COMPLETED` and `KILLED`
mean what they should if and only if the finish, where `start` waits for
it, neither passes `t_end` nor hands over anything but `COMPLETED`; and
where nobody else has the use case, if and only if `t_end` does not pass
while `start` waits for the finish. -/
theorem truthful_iff_finishCompletes (uc : UseCase) (huc : uc.Reachable) (tBegin tEnd now : ℤ)
    (hready : (Session.new uc tBegin tEnd).state = .ready) (as : List Act) (c : Config)
    (hrun : sessionMachine.run (ready (.new uc tBegin tEnd) uc now) as = some c)
    (hreturned : c.pc = .returned) :
    (Truthful c ↔
      sessionMachine.Within FinishCompletes (ready (.new uc tBegin tEnd) uc now) as) ∧
    (sessionMachine.Within Alone (ready (.new uc tBegin tEnd) uc now) as →
      (Truthful c ↔
        sessionMachine.Within FinishInTime (ready (.new uc tBegin tEnd) uc now) as)) := by
  have hinit := sound_ready hready uc now
  have hfirst : Truthful c ↔
      sessionMachine.Within FinishCompletes (ready (.new uc tBegin tEnd) uc now) as := by
    rw [truthful_iff (sound_run hready hrun).control hreturned,
      Machine.within_iff_not_flag Sound Spoiled (fun _ _ _ h hs => h.step hs)
        (fun _ _ _ h hs => spoiled_step h.control h.threaded (.of_step hs)) hinit id hrun]
  refine ⟨hfirst, fun halone => hfirst.trans ?_⟩
  have hplaced := placed_ready huc.genuine (.new uc tBegin tEnd) now
  exact Machine.within_congr (fun c => Sound c ∧ Placed uc.plannedIterations uc.TakesInit c)
    (fun _ _ _ h ha hs => ⟨h.1.step hs, h.2.step h.1 ha (.of_step hs)⟩)
    (fun _ _ _ h _ hs => finishCompletes_iff h.2 (.of_step hs)) ⟨hinit, hplaced⟩ halone hrun

theorem truthful_iff_finishCompletes_shortRun :
    ∃ c, sessionMachine.run (ready shortSession shortCase 0) shortRun = some c ∧
      (Truthful c ↔
        sessionMachine.Within FinishCompletes (ready shortSession shortCase 0) shortRun) ∧
      (Truthful c ↔
        sessionMachine.Within FinishInTime (ready shortSession shortCase 0) shortRun) := by
  have hready : (Session.new shortCase 0 (6 * nanos)).state = .ready := by decide
  have halone : sessionMachine.Within Alone (ready shortSession shortCase 0) shortRun :=
    within_alone fun op => by simp [shortRun, performed]
  refine ⟨_, rfl, ?_⟩
  have h := truthful_iff_finishCompletes shortCase (.new "uc_test" 2 2 2) 0 (6 * nanos) 0 hready
    shortRun _ rfl rfl
  exact ⟨h.1, h.2 halone⟩

/-- The short run, with a finish that has not returned when the
reservation ends. -/
def lateFinish : List Act :=
  .start :: (performed 1 ++ performed 1 ++
    [.go, .go, .go, .enter none, .tick 6000000000, .expire, .go])

/-- **A finish that is killed leaves the session `COMPLETED`.** -/
theorem not_truthful_lateFinish :
    shortCase.Reachable ∧ shortSession.state = .ready ∧ (∀ op, Act.other op ∉ lateFinish) ∧
      ∃ c, sessionMachine.run (ready shortSession shortCase 0) lateFinish = some c ∧
        c.pc = .returned ∧ c.session.state = .completed ∧ .result .finish .timeout ∈ c.log ∧
        ¬ Truthful c := by
  refine ⟨.new "uc_test" 2 2 2, by decide, fun op => by simp [lateFinish, performed], _, rfl, rfl,
    rfl, by decide, ?_⟩
  rintro ⟨-, hkilled⟩
  exact absurd (hkilled.2 ⟨.finish, by decide⟩) (by decide)

/-! ## The error that is not reported -/

/-- A step before `start` returns. -/
def BeforeReturn (c : Config) (_ : Act) : Prop := c.pc ≠ .returned

instance : Decidable (BeforeReturn c a) := inferInstanceAs (Decidable (_ ≠ _))

/-- A step that does not have `stage_perform` return `v`. -/
def NotHanded (v : Completion) (c : Config) (a : Act) : Prop :=
  ∀ typ, c.pc = .wait typ →
    (a = .set → c.useCase.currentCompletion ≠ v) ∧ (a = .expire → v ≠ .timeout)

/-- **What a stage's error should do**: the session ends in a terminal
state, and an error that no stop and no timeout comes across is the last
result and makes the session's state `ERROR`. -/
def StopsOnError (as : List Act) (c : Config) : Prop :=
  c.session.state.terminal = true ∧
  ∀ typ, .result typ .error ∈ c.log → .stop ∉ as → (∀ typ', .result typ' .timeout ∉ c.log) →
    (∃ l, c.log = l ++ [.result typ .error]) ∧ c.session.state = .error

/-- `start` has been handed `v`, or will be. -/
def Handed (v : Completion) (c : Config) : Prop :=
  match c.pc with
  | .wait _ => ∃ th, c.thread = some th ∧ th.promise = some v
  | .timedOut _ => v = .timeout
  | .guard _ | .closing | .returned => c.complet = v ∧ c.log ≠ []
  | _ => False

/-- A step of the stage thread short of its promise hands nothing over. -/
theorem handed_thread {v : Completion} {th th' : StageThread} {uc : UseCase}
    (hth : c.thread = some th) (hpromise : th'.promise = th.promise) :
    Handed v { c with useCase := uc, thread := some th' } ↔ Handed v c := by
  unfold Handed
  cases hpc : c.pc <;> simp [hth, hpromise]

/-- **A completion that `start` does not go on from is handed over by
exactly the steps that are not `NotHanded`**, and is then the one it
holds. -/
theorem handed_step {v : Completion} (hv : ¬ v.Fine) (hc : Control c) (ht : Threaded c)
    (hstep : Step c a c') : Handed v c' ↔ Handed v c ∨ ¬ NotHanded v c a := by
  cases hstep with
  | startEarly hpc | startLate hpc | begin hpc =>
    simp only [Control, hpc] at hc
    simp [Handed, NotHanded, running, hpc, hc]
  | startNot hpc hready =>
    simp only [Control, hpc] at hc
    exact absurd hc.1 hready
  | @pass g hpc hpass =>
    simp only [Control, hpc] at hc
    have hneeds := (Guard.passes_eq_true.1 hpass).2
    have hne : c.complet = v → c.log = [] := by
      rintro rfl
      cases g with
      | init => exact hc.2.2.2.1 rfl
      | work | finish => exact absurd (Or.inr (hneeds _ rfl)) hv
      | loop => exact absurd (Or.inl (hneeds _ rfl)) hv
    simpa [Handed, NotHanded, hpc] using hne
  | @skip g hpc hpass => cases g <;> simp [Handed, NotHanded, hpc, Guard.next]
  | launch hpc => simp [Handed, NotHanded, hpc]
  | @get typ th v' hpc hth hpromise =>
    cases typ <;>
      simp [Handed, NotHanded, hpc, hth, hpromise, stageReturns, StageTyp.after]
  | @kill typ th hpc hth =>
    have hcomm : .timeout = v ↔ v = .timeout := eq_comm
    cases typ <;> simp [Handed, NotHanded, hpc, stageReturns, StageTyp.after, hcomm]
  | close hpc => simp [Handed, NotHanded, hpc, Config.close]
  | @expire typ th hpc hth hpromise hclock => simp [Handed, NotHanded, hpc, hth, hpromise]
  | stop | tick d | other op => simp [Handed, NotHanded]
  | enter hth hpc | wake hth hpc | quit hth hpc | cancel hth hpc =>
    refine (handed_thread hth ?_).trans ?_
    · rfl
    · simp [NotHanded]
  | @set th hth hpc =>
    by_cases hwait : ∃ typ, c.pc = .wait typ
    · obtain ⟨typ, hwait⟩ := hwait
      have hw := ht.waited (.inl hwait) hth
      have hnone : th.promise = none := hw.promise.2 (by simp [hpc])
      simp [Handed, NotHanded, hwait, hth, hnone]
    · have hno : NotHanded v c .set := fun typ h => absurd ⟨typ, h⟩ hwait
      have hsame : Handed v { c with thread := some { th with
          pc := .finished
          promise := some c.useCase.currentCompletion } } ↔ Handed v c := by
        unfold Handed
        cases hc' : c.pc <;> simp [hc'] at hwait ⊢
      rw [hsame]
      simp [hno]

/-- Where `start` has just returned without a finish, its state is what
the closing `else` made of the flag as it still is. -/
def Sealed (c : Config) : Prop :=
  c.pc = .returned → .finish ∉ launches c.log → c.session.state =
    if c.complet = .timeout then .killed
    else if c.session.stopRequested then .stopped
    else .running

theorem sealed_step (hc : Control c) (hbefore : BeforeReturn c a) (hstep : Step c a c') :
    Sealed c' := by
  intro hreturned hfin
  cases hstep with
  | startEarly hpc | startLate hpc | begin hpc | pass hpc | launch hpc | expire hpc =>
    cases hreturned
  | startNot hpc hready =>
    simp only [Control, hpc] at hc
    exact absurd hc.1 hready
  | @skip g hpc hpass => cases g <;> cases hreturned
  | @get typ th v hpc hth hpromise =>
    cases typ with
    | init | witer => cases hreturned
    | finish => simp [stageReturns, hc.mem_launches (.inl hpc)] at hfin
  | @kill typ th hpc hth =>
    cases typ with
    | init | witer => cases hreturned
    | finish => simp [stageReturns, hc.mem_launches (.inr hpc)] at hfin
  | close hpc =>
    simp only [Control, hpc] at hc
    simp [Config.close, hc.1]
  | stop | tick | enter | wake | quit | set | cancel | other =>
    exact absurd hreturned hbefore

/-- Neither way out of `start` leaves the state `ERROR`. -/
theorem verdict_ne_error {s : Session} {v : Completion} {l : List Event} (h : Verdict s v l) :
    s.state ≠ .error := by
  cases h with
  | finished hstate => simp [hstate]
  | closed _ stop _ _ hstate =>
    rw [hstate]
    split
    · simp
    · split <;> simp

/-- An error that was handed over is the last result, after fine ones. -/
theorem Handed.log_eq (h : Handed .error c) (hc : Control c) (hpc : c.pc = .returned) :
    ∃ l typ, c.log = l ++ [.result typ .error] ∧ FineLog l := by
  simp only [Handed, Control, hpc] at h hc
  obtain ⟨herror, hne⟩ := h
  rcases hc.1 with ⟨hnil, -⟩ | ⟨l, typ, hlog, hfine⟩
  · exact absurd hnil hne
  · exact ⟨l, typ, by rw [hlog, herror], hfine⟩

/-- Where none was, or a stop came before `start` returned, the state it
leaves is terminal. -/
theorem terminal_of_not_handed (hc : Control c) (hp : Promised c) (hs : Sealed c)
    (hpc : c.pc = .returned) (h : ¬ Handed .error c ∨ c.session.stopRequested = true) :
    c.session.state.terminal = true := by
  have hsealed := hs hpc
  simp only [Control, hpc] at hc
  rcases hc.2 with ⟨hstate, -⟩ | ⟨hfin, stop, -, hcomplet, hstate⟩
  · simp [hstate, SessionState.terminal]
  · rw [hsealed hfin]
    by_cases htimeout : c.complet = .timeout
    · simp [htimeout, SessionState.terminal]
    · cases hflag : c.session.stopRequested with
      | true => simp [htimeout, SessionState.terminal]
      | false =>
        -- the closing `else` saw no stop, so what no guard took is an error
        have hnot : ¬ Handed .error c := h.resolve_right (by simp [hflag])
        rw [hsealed hfin] at hstate
        have hfalse : stop = false := by
          cases stop <;> simp [htimeout, hflag] at hstate ⊢
        obtain ⟨hunfine, hlog⟩ := hcomplet hfalse
        have hstopped := hp.complet
        have herror : c.complet = .error := by
          cases hv : c.complet <;> simp_all [Completion.Fine]
        simp only [Handed, hpc] at hnot
        exact absurd ⟨herror, hlog⟩ hnot

/-- Where `start` has just returned, an error is dealt with unless it was
handed over and no stop came. -/
theorem stopsOnError_iff {as : List Act} (hc : Control c) (hp : Promised c) (hs : Sealed c)
    (hstop : .stop ∈ as ↔ c.session.stopRequested = true) (hpc : c.pc = .returned) :
    StopsOnError as c ↔ ¬ Handed .error c ∨ .stop ∈ as := by
  have hreturned := hc
  simp only [Control, hpc] at hreturned
  obtain ⟨htrail, hverdict⟩ := hreturned
  constructor
  · rintro ⟨-, herror⟩
    by_contra hnot
    obtain ⟨hhanded, hnostop⟩ := not_or.1 hnot
    obtain ⟨l, typ, hlog, hfine⟩ := (not_not.1 hhanded).log_eq hc hpc
    have hnone : ∀ typ', .result typ' .timeout ∉ c.log := by
      intro typ' hmem
      have hin : .result typ' .timeout ∈ l := by simpa [hlog] using hmem
      simpa [Completion.Fine] using hfine typ' .timeout hin
    exact verdict_ne_error hverdict (herror typ (by simp [hlog]) hnostop hnone).2
  · intro h
    refine ⟨terminal_of_not_handed hc hp hs hpc (h.imp_right hstop.1), fun typ hmem hnostop _ => ?_⟩
    have hbad : ¬ Completion.Fine .error := by simp [Completion.Fine]
    have hheld : Handed .error c := by
      simp only [Handed, hpc]
      exact ⟨(htrail.eq_of_mem hmem hbad).1.symm, List.ne_nil_of_mem hmem⟩
    rcases h with hnot | hstopped
    · exact absurd hheld hnot
    · exact absurd hstopped hnostop

variable {s : Session} {uc : UseCase} {now : ℤ} {as : List Act}

/-- The flag tells whether `stop` was called. -/
theorem stop_mem_iff (hs : s.stopRequested = false)
    (hrun : sessionMachine.run (ready s uc now) as = some c) :
    .stop ∈ as ↔ c.session.stopRequested = true := by
  have hflag : ∀ c a c', True → sessionMachine.step c a = some c' →
      (c'.session.stopRequested = true ↔ c.session.stopRequested = true ∨ ¬ a ≠ .stop) := by
    intro c a c' _ hs
    have hstep := Step.of_step hs
    by_cases ha : a = .stop
    · subst ha
      cases hstep
      simp [Session.stop]
    · cases hstep <;> simp [running, stageReturns, Config.close] at ha ⊢
  have hiff := Machine.within_iff_not_flag _ (fun c => c.session.stopRequested = true)
    (fun _ _ _ _ _ => trivial) hflag trivial (by simp [ready, hs]) hrun
  rw [Machine.within_forall_iff hrun] at hiff
  rw [← not_iff_not, ← hiff]
  exact List.forall_mem_ne'.symm

/-- What was handed over tells what the steps did. -/
theorem within_notHanded_iff {v : Completion} (hv : ¬ v.Fine) (hready : s.state = .ready)
    (hrun : sessionMachine.run (ready s uc now) as = some c) :
    sessionMachine.Within (NotHanded v) (ready s uc now) as ↔ ¬ Handed v c :=
  Machine.within_iff_not_flag Sound (Handed v) (fun _ _ _ h hs => h.step hs)
    (fun _ _ _ h hs => handed_step hv h.control h.threaded (.of_step hs))
    (sound_ready hready uc now) id hrun

/-- Over a use case in any state it can reach a timeout is a wait's. -/
theorem expire_mem_iff (hready : s.state = .ready) (huc : uc.Reachable)
    (hrun : sessionMachine.run (ready s uc now) as = some c) :
    .expire ∈ as ↔ Handed .timeout c := by
  have hbad : ¬ Completion.Fine .timeout := by simp [Completion.Fine]
  have hstep : ∀ c a c', c.useCase.Reachable → True → sessionMachine.step c a = some c' →
      (NotHanded .timeout c a ↔ a ≠ .expire) := by
    intro c a c' h _ hs
    have hgenuine := h.genuine.timeout
    constructor
    · rintro hnot rfl
      cases Step.of_step hs with
      | expire hpc => exact (hnot _ hpc).2 rfl rfl
    · exact fun hne typ _ => ⟨fun _ => hgenuine, fun ha => absurd ha hne⟩
  have hcongr := Machine.within_congr (fun c => c.useCase.Reachable)
    (fun c a c' h _ hs => reachable_step h (.of_step hs)) hstep
    (show (ready s uc now).useCase.Reachable from huc) Machine.within_true hrun
  rw [Machine.within_forall_iff hrun, within_notHanded_iff hbad hready hrun] at hcongr
  rw [← not_iff_not, hcongr]
  exact List.forall_mem_ne'.symm

/-- A session that runs its script is handed no error. -/
theorem Joint.not_handed_error {N : ℕ} (h : Joint N c) (hc : Control c) (hpc : c.pc = .returned) :
    ¬ Handed .error c := by
  intro hhanded
  obtain ⟨l, typ, hlog, -⟩ := hhanded.log_eq hc hpc
  exact h.shape.2.1 typ (by simp [hlog])

/-- **Errors are dealt with exactly where none is handed over, or a stop
comes.** `start` always returns; over a use case in any state it can
reach, and whoever else holds it, it has then dealt with errors as it
should if and only if no stage handed it one or `stop` was called; and
where nobody else has the use case, if and only if the use case takes an
`init_stage`, or `stop` was called, or the initialisation timed out. -/
theorem stopsOnError_iff_notHanded (uc : UseCase) (huc : uc.Reachable) (tBegin tEnd now : ℤ)
    (hready : (Session.new uc tBegin tEnd).state = .ready) :
    sessionMachine.Ends (fun _ _ => True) sessionRoles (·.pc = .returned)
      (ready (.new uc tBegin tEnd) uc now) ∧
    ∀ as c, sessionMachine.Within BeforeReturn (ready (.new uc tBegin tEnd) uc now) as →
      sessionMachine.run (ready (.new uc tBegin tEnd) uc now) as = some c → c.pc = .returned →
      (StopsOnError as c ↔
        sessionMachine.Within (NotHanded .error) (ready (.new uc tBegin tEnd) uc now) as ∨
          .stop ∈ as) ∧
      (sessionMachine.Within Alone (ready (.new uc tBegin tEnd) uc now) as →
        (StopsOnError as c ↔ uc.TakesInit ∨ .stop ∈ as ∨ .expire ∈ as)) := by
  refine ⟨start_ends _ uc now, fun as c hbefore hrun hreturned => ?_⟩
  have hbad : ¬ Completion.Fine .error := by simp [Completion.Fine]
  have hsound := sound_run hready hrun
  have hpromised := (reachable_run huc hrun).2
  have hsealed : Sealed c := (Machine.run_induction (fun c => Sound c ∧ Sealed c)
    (fun c a c' h hb hs => ⟨h.1.step hs, sealed_step h.1.control hb (.of_step hs)⟩)
    ⟨sound_ready hready uc now, fun h => by cases h⟩ hbefore hrun).2
  have hstop : .stop ∈ as ↔ c.session.stopRequested = true := stop_mem_iff rfl hrun
  have hiff := stopsOnError_iff hsound.control hpromised hsealed hstop hreturned
  refine ⟨by rw [hiff, within_notHanded_iff hbad hready hrun], fun halone => ?_⟩
  rw [hiff, expire_mem_iff hready huc hrun]
  rcases placed_run hready huc halone hrun with ⟨htakes, h⟩ | ⟨htakes, h⟩
  · have hnot := h.not_handed_error hsound.control hreturned
    simp [htakes, hnot]
  · simp only [Barred, hreturned] at h
    simp only [htakes, false_or, Handed, hreturned, hstop]
    rcases h with ⟨hlog, -, -, hs⟩ | ⟨hlog, hcomplet, -⟩ | ⟨hlog, hcomplet⟩
    · simp [hlog, hs]
    · simp [hlog, hcomplet]
    · simp [hlog, hcomplet]

theorem stopsOnError_iff_notHanded_shortRun :
    ∃ c, sessionMachine.run (ready shortSession shortCase 0) shortRun = some c ∧
      (StopsOnError shortRun c ↔
        shortCase.TakesInit ∨ .stop ∈ shortRun ∨ .expire ∈ shortRun) := by
  have hready : (Session.new shortCase 0 (6 * nanos)).state = .ready := by decide
  have halone : sessionMachine.Within Alone (ready shortSession shortCase 0) shortRun :=
    within_alone fun op => by simp [shortRun, performed]
  have hbefore : sessionMachine.Within BeforeReturn (ready shortSession shortCase 0) shortRun := by
    decide
  refine ⟨_, rfl, ?_⟩
  exact ((stopsOnError_iff_notHanded shortCase (.new "uc_test" 2 2 2) 0 (6 * nanos) 0 hready).2
    shortRun _ hbefore rfl rfl).2 halone

/-- A use case that was called out of turn before its session. -/
def brokenCase : UseCase := (shortCase.stageCall .witer).2

/-- The run of its session, whose initialisation is refused. -/
def brokenRun : List Act := [.start, .go, .go, .enter none, .set, .go, .go, .go, .go, .go]

/-- **An error leaves the session `RUNNING`.** -/
theorem not_stopsOnError_brokenRun :
    brokenCase.Reachable ∧ (Session.new brokenCase 0 (6 * nanos)).state = .ready ∧
      ∃ c, sessionMachine.run (ready (.new brokenCase 0 (6 * nanos)) brokenCase 0) brokenRun =
          some c ∧
        c.pc = .returned ∧ c.log = [.launch .init, .result .init .error] ∧ .stop ∉ brokenRun ∧
        c.session.state = .running ∧ ¬ StopsOnError brokenRun c := by
  refine ⟨.other (.enter .witer) (.new "uc_test" 2 2 2), by decide, _, rfl, rfl, rfl, by decide,
    rfl, ?_⟩
  rintro ⟨hterminal, -⟩
  exact absurd hterminal (by decide)

end Config

end VireSandbox
