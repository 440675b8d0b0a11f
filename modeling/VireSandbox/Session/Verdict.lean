import VireSandbox.Session.Timing
/-!
# The session — the verdict read off the script

With an exact clock nothing is left to chance but a tie: where the script
of the use case takes less than the reservation every run completes, when
the script is over; where it takes more every run is cut at `t_end`, in
the letter that was to be performed then (`verdict_of_elapsed`). A cut in
the finish is still called completed. For the use case `set_too_slow` has
slowed down, the reservation its declared durations ask for is never
enough (`slow_overruns`).
-/

namespace VireSandbox

open UseCase

namespace UseCase

variable {N : ℕ} {uc : UseCase}

/-- **What a script takes**, whatever a work iteration takes. -/
theorem elapsed_total (N : ℕ) (uc : UseCase) :
    elapsed N uc (N + 2) = max 0 (uc.initDurationMax - 1) +
      N * max 0 (uc.sleepDuration .witer) + max 0 (uc.finishDurationMax - 1) := by
  have hwork : ∀ p ≤ N, elapsed N uc (p + 1) =
      max 0 (uc.initDurationMax - 1) + p * max 0 (uc.sleepDuration .witer) := by
    intro p hp
    induction p with
    | zero =>
      rw [elapsed_succ protocol_zero]
      simp [elapsed, sleepDuration]
    | succ p ih =>
      rw [elapsed_succ (protocol_work (by omega) hp), ih (by omega), Nat.cast_succ, Int.add_mul]
      omega
  rw [elapsed_succ protocol_finish, hwork N le_rfl]
  rfl

theorem atRest_setTooSlow {p : ℕ} (h : AtRest N p uc) : AtRest N p uc.setTooSlow :=
  ⟨h.le, h.planned, h.stage, h.completion, h.iter⟩

end UseCase

namespace Config

variable {N p : ℕ} {c c' : Config} {a : Act} {as : List Act} {uc₀ : UseCase} {typ : StageTyp}

/-- **The clock inside the slot**, and past the launch of the stage that is
waited for. -/
structure InBounds (uc₀ : UseCase) (N : ℕ) (c : Config) : Prop where
  le : c.clock ≤ max c.session.tBegin c.session.tEnd
  wait : ∀ typ, c.pc = .wait typ → onTime uc₀ N c.behind c ≤ c.clock

theorem InBounds.step (h : InBounds uc₀ N c) (hplan : OnPlan uc₀ N c) (ha : Exact c a)
    (hstep : Step c a c') : InBounds uc₀ N c' := by
  obtain ⟨hle, hwait⟩ := h
  cases hstep with
  | @launch typ hpc =>
    obtain ⟨-, hjoint, ⟨-, -, htime⟩, -⟩ := hplan
    simp only [hpc, Joint] at htime hjoint
    obtain ⟨p, hb, htyp⟩ := hjoint
    have hin : Inside N p typ { c with
        pc := .wait typ
        thread := some ⟨typ, .created, none, false⟩
        log := c.log ++ [.launch typ] } := ⟨htyp, by rw [hb.log], _, rfl, hb.rest⟩
    refine ⟨hle, fun _ _ => ?_⟩
    rw [hin.behind]
    rw [hb.behind] at htime
    exact htime.ge
  | @get typ | @kill typ => exact ⟨hle, fun typ' h => by cases typ <;> cases h⟩
  | tick d =>
    rcases mayPass_iff.1 ha with ⟨hpc, hd⟩ | ⟨typ, th, wake, hpc, hth, -, -, hd⟩
    · refine ⟨?_, fun typ hpc' => ?_⟩
      · change c.clock + d ≤ max c.session.tBegin c.session.tEnd
        omega
      · cases hpc.symm.trans hpc'
    · refine ⟨?_, fun typ' hpc' => ?_⟩
      · change c.clock + d ≤ max c.session.tBegin c.session.tEnd
        omega
      · have hbefore := hwait typ' hpc'
        change onTime uc₀ N c.behind c ≤ c.clock + d
        omega
  | enter | wake | quit | set | cancel => exact ⟨hle, hwait⟩
  | stop | other op => exact absurd ha id
  | startEarly | startLate | startNot | begin | pass | close | expire =>
    exact ⟨hle, fun typ h => by cases h⟩
  | @skip g => exact ⟨hle, fun typ h => by cases g <;> cases h⟩

/-- **Cut in letter `p`**: the wait for it has given up at `t_end`, between
the instants the letter was to begin and to end at. -/
structure Cut (uc₀ : UseCase) (N p : ℕ) (typ : StageTyp) (c : Config) : Prop where
  letter : (protocol N)[p]? = some typ
  clock : c.clock = max c.session.tBegin c.session.tEnd
  begun : onTime uc₀ N p c ≤ c.clock
  unfinished : c.clock ≤ onTime uc₀ N (p + 1) c
  place : match c.pc with
    | .timedOut typ' => typ' = typ ∧ c.log = story N p ++ [.launch typ]
    | .guard g => g ≠ .init ∧ typ ≠ .finish ∧ c.complet = .timeout ∧
        c.log = story N p ++ [.launch typ, .result typ .timeout]
    | .closing => typ ≠ .finish ∧ c.complet = .timeout ∧
        c.log = story N p ++ [.launch typ, .result typ .timeout]
    | .returned => c.session.state = (if typ = .finish then .completed else .killed) ∧
        c.log = story N p ++ [.launch typ, .result typ .timeout]
    | _ => False

/-- **A wait that gives up cuts its letter.** -/
theorem OnPlan.cut (h : OnPlan uc₀ N c) (hin : InBounds uc₀ N c) (hstep : Step c .expire c') :
    ∃ p typ, Cut uc₀ N p typ c' := by
  cases hstep with
  | @expire typ th hpc hth hpromise hclock =>
    have htime := h.timed.threadTime hpc hth
    have hbegun := hin.wait typ hpc
    have hjoint := h.joint
    simp only [Joint, hpc] at hjoint
    obtain ⟨p, hinside⟩ := hjoint
    rw [hinside.behind] at htime hbegun
    have hmono : onTime uc₀ N p c ≤ onTime uc₀ N (p + 1) c := by
      have hle : elapsed N uc₀ p * nanos ≤ elapsed N uc₀ (p + 1) * nanos :=
        Int.mul_le_mul_of_nonneg_right (elapsed_mono (Nat.le_add_right p 1)) (by decide)
      simp only [onTime]
      omega
    have hfirst : c.session.tBegin ≤ onTime uc₀ N p c := by
      have hle : elapsed N uc₀ 0 * nanos ≤ elapsed N uc₀ p * nanos :=
        Int.mul_le_mul_of_nonneg_right (elapsed_mono (Nat.zero_le p)) (by decide)
      simp only [elapsed, Int.zero_mul] at hle
      simp only [onTime]
      omega
    have hunfinished : c.clock ≤ onTime uc₀ N (p + 1) c := by
      simp only [ThreadTime] at htime
      split at htime
      · omega
      · exact htime.2
      · exact htime.le
    have hle := hin.le
    refine ⟨p, typ, hinside.1, ?_, hbegun, hunfinished, rfl, hinside.2.1⟩
    change c.clock = max c.session.tBegin c.session.tEnd
    omega

/-- **Nothing but the way out follows a cut.** -/
theorem Cut.step (h : Cut uc₀ N p typ c) (ha : Exact c a) (hstep : Step c a c') :
    Cut uc₀ N p typ c' := by
  obtain ⟨hletter, hclock, hbegun, hunfinished, hplace⟩ := h
  cases hstep with
  | startEarly hpc | startLate hpc | startNot hpc | begin hpc | launch hpc | get hpc
  | expire hpc => simp [hpc] at hplace
  | @pass g hpc hpass =>
    simp only [hpc] at hplace
    obtain ⟨hg, -, htimeout, -⟩ := hplace
    have hneeds := (Guard.passes_eq_true.1 hpass).2
    cases g <;> simp [Guard.needs, htimeout] at hg hneeds
  | @skip g hpc hpass =>
    simp only [hpc] at hplace
    obtain ⟨hg, hfinish, htimeout, hlog⟩ := hplace
    refine ⟨hletter, hclock, hbegun, hunfinished, ?_⟩
    cases g with
    | init => exact absurd rfl hg
    | work | loop => exact ⟨by simp, hfinish, htimeout, hlog⟩
    | finish => exact ⟨hfinish, htimeout, hlog⟩
  | @kill typ' th hpc hth =>
    simp only [hpc] at hplace
    obtain ⟨rfl, hlog⟩ := hplace
    have hlog' : (c.stageReturns typ' .timeout (some (th.kill c.clock))).log =
        story N p ++ [.launch typ', .result typ' .timeout] := by
      simp [stageReturns, hlog]
    refine ⟨hletter, hclock, hbegun, hunfinished, ?_⟩
    cases typ' with
    | init => exact ⟨by simp, by simp, rfl, hlog'⟩
    | witer => exact ⟨by simp, by simp, rfl, hlog'⟩
    | finish => exact ⟨rfl, hlog'⟩
  | close hpc =>
    simp only [hpc] at hplace
    obtain ⟨hfinish, htimeout, hlog⟩ := hplace
    refine ⟨hletter, hclock, hbegun, hunfinished, ?_, hlog⟩
    simp [Config.close, htimeout, hfinish]
  | tick d =>
    rcases mayPass_iff.1 ha with ⟨hpc, -⟩ | ⟨typ', th, wake, hpc, -⟩
    · simp [hpc] at hplace
    · simp [hpc] at hplace
  | stop | other op => exact absurd ha id
  | enter | wake | quit | set | cancel => exact ⟨hletter, hclock, hbegun, hunfinished, hplace⟩

/-- **A run on plan, or cut.** -/
def Course (uc₀ : UseCase) (N : ℕ) (c : Config) : Prop :=
  (OnPlan uc₀ N c ∧ InBounds uc₀ N c) ∨ (Sound c ∧ ∃ p typ, Cut uc₀ N p typ c)

theorem Course.step (h : Course uc₀ N c) (ha : Exact c a) (hstep : Step c a c') :
    Course uc₀ N c' := by
  rcases h with ⟨hplan, hin⟩ | ⟨hsound, p, typ, hcut⟩
  · by_cases hexpire : a = .expire
    · subst hexpire
      exact .inr ⟨hplan.sound.step hstep.step, hplan.cut hin hstep⟩
    · exact .inl ⟨hplan.step ha hexpire hstep, hin.step hplan ha hstep⟩
  · exact .inr ⟨hsound.step hstep.step, p, typ, hcut.step ha hstep⟩

theorem Cut.due (h : Cut uc₀ N p typ c) (hsound : Sound c) (hpc : c.pc ≠ .returned) :
    sessionMachine.Due Exact sessionRoles c := by
  have hplace := h.place
  cases hpc' : c.pc with
  | guard g | closing => exact (due_of_running trivial trivial (by simp [hpc'])).mono startRoles_sub
  | timedOut typ' =>
    have ht := hsound.threaded
    simp only [Threaded, hpc'] at ht
    obtain ⟨th, hth, -⟩ := ht
    exact (Step.kill hpc' hth).due trivial rfl
  | returned => exact absurd hpc' hpc
  | idle | sleepUntil | perform typ' | wait typ' => simp [hpc'] at hplace

/-- Every course ends. -/
theorem Course.ends (h : Course uc₀ N c) :
    sessionMachine.Ends Exact sessionRoles (·.pc = .returned) c := by
  refine Machine.Ends.of_measure (Course uc₀ N) workLeft ?_ ?_ ?_ h
  · exact fun c a c' h ha hs => h.step ha (.of_step hs)
  · intro c a c' h _ hs
    rcases h with ⟨hplan, -⟩ | ⟨hsound, -⟩
    · exact workLeft_step hplan.sound.threaded (.of_step hs)
    · exact workLeft_step hsound.threaded (.of_step hs)
  · intro c h hpc
    rcases h with ⟨hplan, -⟩ | ⟨hsound, p, typ, hcut⟩
    · exact hplan.due hpc
    · exact hcut.due hsound hpc

theorem course_ready {s : Session} {uc : UseCase} {now : ℤ} (hready : s.state = .ready)
    (hstop : s.stopRequested = false) (hrest : AtRest N 0 uc) (hnow : now ≤ s.tBegin) :
    Course uc N (ready s uc now) := by
  refine .inl ⟨onPlan_ready hready hstop hrest hnow, ?_, nofun⟩
  change now ≤ max s.tBegin s.tEnd
  omega

/-- The verdict of a course that has returned. -/
theorem Course.returned (h : Course uc₀ N c) (hpc : c.pc = .returned) :
    (c.session.state = .completed ∧ c.log = story N (N + 2) ∧
      c.clock = onTime uc₀ N (N + 2) c ∧
      onTime uc₀ N (N + 2) c ≤ max c.session.tBegin c.session.tEnd) ∨
    ∃ p typ, (protocol N)[p]? = some typ ∧
      c.session.state = (if typ = .finish then .completed else .killed) ∧
      c.log = story N p ++ [.launch typ, .result typ .timeout] ∧
      c.clock = max c.session.tBegin c.session.tEnd ∧
      onTime uc₀ N p c ≤ c.clock ∧ c.clock ≤ onTime uc₀ N (p + 1) c := by
  rcases h with ⟨hplan, hin⟩ | ⟨-, p, typ, hcut⟩
  · obtain ⟨hstate, hstage, -, -, hclock⟩ := hplan.returned hpc
    have hjoint := hplan.joint
    simp only [Joint, hpc] at hjoint
    refine .inl ⟨hstate, ?_, hclock, hclock.symm.le.trans hin.le⟩
    rcases hjoint with ⟨-, p, typ, -, hlog⟩ | ⟨p, hb⟩
    · exact absurd (show Event.result typ .timeout ∈ c.log by simp [hlog]) (hplan.noTimeout typ)
    · -- the finished stage is that of the script's end
      have hend : p = N + 2 := by
        have hrest := hb.rest.stage
        rw [hstage] at hrest
        rcases position_cases hb.rest.le with rfl | rfl | ⟨hp, hpN⟩ | rfl | rfl
        · cases hrest
        · cases hrest
        · rw [restStage_work hp hpN] at hrest
          cases hrest
        · rw [restStage_worked (by have := plannedIterations_eq_iff.1 hb.rest.planned; omega)]
            at hrest
          cases hrest
        · rfl
      rw [hb.log, hend]
  · have hplace := hcut.place
    simp only [hpc] at hplace
    exact .inr ⟨p, typ, hcut.letter, hplace.1, hplace.2, hcut.clock, hcut.begun, hcut.unfinished⟩

/-- **The verdict of a session with an exact clock.** For every ready session
over a use case with its whole script of `N` iterations ahead, slow or not,
called by `t_begin` and never stopped: `start` returns, and then either the
script has been read to its end, in the time it takes, within the slot, or
it has been cut at the end of the slot, in the letter that was to be
performed then; the session is `KILLED` by a cut, but for one in the finish,
which leaves it `COMPLETED`. -/
theorem verdict_of_elapsed (s : Session) (hready : s.state = .ready)
    (hstop : s.stopRequested = false) (uc : UseCase) (N : ℕ) (hrest : AtRest N 0 uc) (now : ℤ)
    (hnow : now ≤ s.tBegin) :
    (∀ as c, sessionMachine.Within Exact (ready s uc now) as →
      sessionMachine.run (ready s uc now) as = some c → c.pc = .returned →
      (c.session.state = .completed ∧ c.log = story N (N + 2) ∧
        c.clock = s.tBegin + elapsed N uc (N + 2) * nanos ∧ c.clock ≤ max s.tBegin s.tEnd) ∨
      ∃ p typ, (protocol N)[p]? = some typ ∧
        c.session.state = (if typ = .finish then .completed else .killed) ∧
        c.log = story N p ++ [.launch typ, .result typ .timeout] ∧
        c.clock = max s.tBegin s.tEnd ∧
        s.tBegin + elapsed N uc p * nanos ≤ c.clock ∧
        c.clock ≤ s.tBegin + elapsed N uc (p + 1) * nanos) ∧
    sessionMachine.Ends Exact sessionRoles (·.pc = .returned) (ready s uc now) := by
  have hcourse := course_ready hready hstop hrest hnow
  refine ⟨fun as c hok hrun hpc => ?_, hcourse.ends⟩
  have hc : Course uc N c :=
    Machine.run_induction (Course uc N) (fun _ _ _ h ha hs => h.step ha (.of_step hs)) hcourse hok
      hrun
  obtain ⟨hbegin, hend⟩ := reservation_run hrun
  have hverdict := hc.returned hpc
  simp only [onTime, hbegin, hend] at hverdict
  rcases hverdict with ⟨hstate, hlog, hclock, hle⟩ | hcut
  · exact .inl ⟨hstate, hlog, hclock, hclock.trans_le hle⟩
  · exact .inr hcut

theorem verdict_of_elapsed_idleRun :
    ∃ c, sessionMachine.run (ready idleSession idleCase 0) idleRun = some c ∧
      (c.session.state = .completed ∧ c.log = story 1 3 ∧
        c.clock = 0 + elapsed 1 idleCase 3 * nanos ∧ c.clock ≤ max 0 500000000 ∨
      ∃ p typ, (protocol 1)[p]? = some typ ∧
        c.session.state = (if typ = .finish then .completed else .killed) ∧
        c.log = story 1 p ++ [.launch typ, .result typ .timeout] ∧
        c.clock = max 0 500000000 ∧ 0 + elapsed 1 idleCase p * nanos ≤ c.clock ∧
        c.clock ≤ 0 + elapsed 1 idleCase (p + 1) * nanos) :=
  ⟨_, rfl, (verdict_of_elapsed idleSession (by decide) rfl idleCase 1
    (atRest_new "uc_test" 0 0 0) 0 le_rfl).1 idleRun _ (by decide) rfl rfl⟩

/-! ## A use case that is too slow -/

section Declared

variable {ucase : String} {initMax workMax finishMax : ℤ}

/-- The seconds a use case declares. -/
def declared (initMax workMax finishMax : ℤ) : ℤ := initMax + workMax + finishMax

/-- The iterations of a use case whose declared work fits its counter. -/
theorem plannedIterations_declared (hwork : 2 ≤ workMax) (hshort : workMax ≤ 2 ^ 31) :
    (UseCase.new ucase initMax workMax finishMax).plannedIterations = (workMax - 1).toNat := by
  have hiter : toInt32 (workMax - 1) = workMax - 1 := by
    rw [toInt32, Int.bmod_eq_of_le] <;> omega
  simp only [plannedIterations, UseCase.new, hiter]
  omega

/-- The reservation the declared durations ask for is admitted. -/
theorem ready_declared (hpositive : 0 ≤ declared initMax workMax finishMax)
    (hsum : declared initMax workMax finishMax < 2 ^ 63) (tBegin : ℤ) :
    (Session.new (.new ucase initMax workMax finishMax) tBegin
      (tBegin + declared initMax workMax finishMax * nanos)).state = .ready := by
  have hexact : (UseCase.new ucase initMax workMax finishMax).getDurationMax =
      declared initMax workMax finishMax := by
    simp only [declared] at hpositive hsum
    change toInt64 (initMax + workMax + finishMax) = initMax + workMax + finishMax
    rw [toInt64, Int.bmod_eq_of_le] <;> omega
  refine Session.new_ready_iff.2 ⟨.inl rfl, ?_⟩
  rw [hexact]
  omega

/-- A use case takes three seconds less than it declares. -/
theorem elapsed_declared (hinit : 1 ≤ initMax) (hwork : 1 ≤ workMax) (hfinish : 1 ≤ finishMax) :
    elapsed (workMax - 1).toNat (.new ucase initMax workMax finishMax) ((workMax - 1).toNat + 2) =
      declared initMax workMax finishMax - 3 := by
  have hsecond : max 0 ((UseCase.new ucase initMax workMax finishMax).sleepDuration .witer) = 1 :=
    rfl
  have hN : (((workMax - 1).toNat : ℕ) : ℤ) = workMax - 1 := by omega
  rw [elapsed_total, hN, hsecond]
  simp only [UseCase.new, declared]
  omega

/-- And one that is too slow takes four seconds for each of an iteration. -/
theorem elapsed_tooSlow (hinit : 1 ≤ initMax) (hwork : 1 ≤ workMax) (hfinish : 1 ≤ finishMax) :
    elapsed (workMax - 1).toNat (UseCase.new ucase initMax workMax finishMax).setTooSlow
        ((workMax - 1).toNat + 2) =
      declared initMax workMax finishMax - 3 + 3 * (workMax - 1) := by
  have hseconds : max 0
      ((UseCase.new ucase initMax workMax finishMax).setTooSlow.sleepDuration .witer) = 4 := rfl
  have hN : (((workMax - 1).toNat : ℕ) : ℤ) = workMax - 1 := by omega
  rw [elapsed_total, hN, hseconds]
  simp only [UseCase.new, setTooSlow, declared]
  omega

end Declared

/-- A course that is shorter than its slot is not cut. -/
theorem Course.completed (h : Course uc₀ N c) (hpc : c.pc = .returned)
    (hshort : onTime uc₀ N (N + 2) c < c.session.tEnd) :
    c.session.state = .completed ∧ (∀ typ, .result typ .timeout ∉ c.log) ∧
      c.clock = onTime uc₀ N (N + 2) c := by
  rcases h.returned hpc with ⟨hstate, hlog, hclock, -⟩ | ⟨p, typ, hletter, -, -, hclock, -, hle⟩
  · refine ⟨hstate, fun typ hmem => ?_, hclock⟩
    rw [hlog] at hmem
    have hfine := result_story hmem
    simp [Completion.Fine] at hfine
  · -- a cut comes no later than the script's end
    have hp : p + 1 ≤ N + 2 := by
      have := letter_cases hletter
      omega
    have hmul : elapsed N uc₀ (p + 1) * nanos ≤ elapsed N uc₀ (N + 2) * nanos :=
      Int.mul_le_mul_of_nonneg_right (elapsed_mono hp) (by decide)
    simp only [onTime] at hle hshort
    omega

/-- And one that is longer is. -/
theorem Course.overrun (h : Course uc₀ N c) (hpc : c.pc = .returned)
    (hslot : c.session.tBegin ≤ c.session.tEnd)
    (hlong : c.session.tEnd < onTime uc₀ N (N + 2) c) :
    (∃ typ, .result typ .timeout ∈ c.log) ∧ c.clock = c.session.tEnd := by
  rcases h.returned hpc with ⟨-, -, -, hle⟩ | ⟨p, typ, -, -, hlog, hclock, -, -⟩
  · omega
  · refine ⟨⟨typ, by simp [hlog]⟩, ?_⟩
    omega

/-- **The declared durations are three seconds more than a use case takes,
and less than a slow one does.** For every use case of three seconds of work
or more, short of what its counters hold, in a reservation of exactly the
durations it declares: `start`, called by `t_begin` and never stopped,
returns, completed, three seconds ahead of `t_end`; and where `set_too_slow`
was called it returns as well, but at `t_end` only, with a stage timed
out. -/
theorem slow_overruns (ucase : String) (initMax workMax finishMax tBegin now : ℤ)
    (hinit : 1 ≤ initMax) (hwork : 3 ≤ workMax) (hfinish : 1 ≤ finishMax)
    (hshort : workMax ≤ 2 ^ 31) (hsum : declared initMax workMax finishMax < 2 ^ 63)
    (hnow : now ≤ tBegin) :
    let uc := UseCase.new ucase initMax workMax finishMax
    let s := Session.new uc tBegin (tBegin + declared initMax workMax finishMax * nanos)
    ((∀ as c, sessionMachine.Within Exact (ready s uc now) as →
      sessionMachine.run (ready s uc now) as = some c → c.pc = .returned →
      c.session.state = .completed ∧ (∀ typ, .result typ .timeout ∉ c.log) ∧
        c.clock = s.tEnd - 3 * nanos) ∧
      sessionMachine.Ends Exact sessionRoles (·.pc = .returned) (ready s uc now)) ∧
    (∀ as c, sessionMachine.Within Exact (ready s uc.setTooSlow now) as →
      sessionMachine.run (ready s uc.setTooSlow now) as = some c → c.pc = .returned →
      (∃ typ, .result typ .timeout ∈ c.log) ∧ c.clock = s.tEnd) ∧
    sessionMachine.Ends Exact sessionRoles (·.pc = .returned) (ready s uc.setTooSlow now) := by
  intro uc s
  have hdeclared : 0 ≤ declared initMax workMax finishMax := by
    unfold declared
    omega
  have hready : s.state = .ready := ready_declared hdeclared hsum tBegin
  have hrest : AtRest (workMax - 1).toNat 0 uc :=
    plannedIterations_declared (by omega) hshort ▸ atRest_new ucase initMax workMax finishMax
  have hpositive : (0 : ℤ) < nanos := by decide
  have hslot : s.tBegin ≤ s.tEnd := by
    have hmul := Int.mul_nonneg hdeclared hpositive.le
    change tBegin ≤ tBegin + declared initMax workMax finishMax * nanos
    omega
  have htEnd : s.tEnd = s.tBegin + declared initMax workMax finishMax * nanos := rfl
  have hcourse : Course uc (workMax - 1).toNat (ready s uc now) :=
    course_ready hready rfl hrest hnow
  have hslow : Course uc.setTooSlow (workMax - 1).toNat (ready s uc.setTooSlow now) :=
    course_ready hready rfl (atRest_setTooSlow hrest) hnow
  refine ⟨⟨?_, hcourse.ends⟩, ?_, hslow.ends⟩
  · intro as c hok hrun hpc
    have hc : Course uc (workMax - 1).toNat c :=
      Machine.run_induction (Course uc _) (fun _ _ _ h ha hs => h.step ha (.of_step hs)) hcourse
        hok hrun
    obtain ⟨hbegin, hend⟩ : c.session.tBegin = s.tBegin ∧ c.session.tEnd = s.tEnd :=
      reservation_run hrun
    have htime : onTime uc (workMax - 1).toNat ((workMax - 1).toNat + 2) c =
        s.tEnd - 3 * nanos := by
      rw [onTime, elapsed_declared hinit (by omega) hfinish, hbegin, htEnd, Int.sub_mul]
      omega
    rw [← htime]
    exact hc.completed hpc (by omega)
  · intro as c hok hrun hpc
    have hc : Course uc.setTooSlow (workMax - 1).toNat c :=
      Machine.run_induction (Course uc.setTooSlow _) (fun _ _ _ h ha hs => h.step ha (.of_step hs))
        hslow hok hrun
    obtain ⟨hbegin, hend⟩ : c.session.tBegin = s.tBegin ∧ c.session.tEnd = s.tEnd :=
      reservation_run hrun
    rw [← hend]
    refine hc.overrun hpc (by omega) ?_
    have hlong : declared initMax workMax finishMax <
        declared initMax workMax finishMax - 3 + 3 * (workMax - 1) := by omega
    have hmul := Int.mul_lt_mul_of_pos_right hlong hpositive
    rw [onTime, elapsed_tooSlow hinit (by omega) hfinish]
    omega

/-- A guard that passes, and its stage taking `d` seconds. -/
def seconds (d : ℕ) : List Act := performed (d * 1000000000)

/-- The session of a slow use case, cut in its third iteration. -/
def slowRun : List Act :=
  .start :: (seconds 1 ++ seconds 4 ++ seconds 4) ++
    [.go, .go, .enter (some 4000000000), .tick 1000000000, .expire, .go, .go, .go, .go]

theorem slow_overruns_slowRun :
    let uc := UseCase.new "uc_test" 2 6 2
    let s := Session.new uc 0 (0 + declared 2 6 2 * nanos)
    ∃ c, sessionMachine.run (ready s uc.setTooSlow 0) slowRun = some c ∧
      (∃ typ, .result typ .timeout ∈ c.log) ∧ c.clock = s.tEnd :=
  ⟨_, rfl, (slow_overruns "uc_test" 2 6 2 0 0 (by decide) (by decide) (by decide) (by decide)
    (by decide) le_rfl).2.1 slowRun _ (by decide) rfl rfl⟩

end Config

end VireSandbox
