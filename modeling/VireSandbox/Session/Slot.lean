import VireSandbox.Session.Stop
import VireSandbox.Session.Timing
/-!
# The session — its reservation as a slot of time

The clock is exact here, and what the stages take is not: time passes
while `start` sleeps until `t_begin` and while it waits for a stage, up to
`t_end` at most, and the stage may be done at any instant of that, or
never. So the clock is never past the last of its call, `t_begin` and
`t_end` (`OnClock`). Nothing in it compares its call with `t_end`, though:
a session called late launches its first stage outside the slot, and a
session called in time launches all of them inside
(`launches_inSlot_iff`).
-/

namespace VireSandbox

namespace Config

variable {c c' : Config} {a : Act} {as : List Act} {now : ℤ}

/-- **A step of the system with an exact clock**, which only the sleep and
the waits of `start` advance. A stage takes what it takes. -/
def Clocked (c : Config) : Act → Prop
  | .tick d => c.waitsFor d = true
  | _ => True

instance decidableClocked (c : Config) : ∀ a, Decidable (Clocked c a)
  | .tick d => inferInstanceAs (Decidable (c.waitsFor d = true))
  | .start | .stop | .go | .expire | .enter _ | .wake | .quit | .set | .cancel | .other _ =>
    isTrue trivial

/-- The step that creates a stage thread. -/
def launching (c : Config) (a : Act) : Bool :=
  match c.pc, a with
  | .perform _, .go => true
  | _, _ => false

/-- It is the one that adds a launch to the log. -/
theorem launching_iff (hstep : Step c a c') :
    c.launching a = true ↔ launches c'.log ≠ launches c.log := by
  cases hstep with
  | launch hpc => simp [launching, hpc]
  | get hpc | kill hpc => simp [launching, hpc, stageReturns]
  | startEarly hpc | startLate hpc | startNot hpc | begin hpc | pass hpc | skip hpc | close hpc
  | expire hpc => simp [launching, hpc, running, Config.close]
  | _ => simp [launching]

/-- What a launch is asked is asked of the clock and the reservation. -/
def LaunchedIn (slot : ℤ → Prop) (c : Config) (a : Act) : Prop :=
  c.launching a = true → slot c.clock

instance (slot : ℤ → Prop) [DecidablePred slot] (c : Config) (a : Act) :
    Decidable (LaunchedIn slot c a) :=
  inferInstanceAs (Decidable (_ → _))

/-! ## The instants of a run -/

/-- **The invariant of the exact clock**: past its sleep `start` is past
`t_begin`, and the clock is never past the last of its call, `t_begin` and
`t_end`. -/
structure OnClock (now : ℤ) (c : Config) : Prop where
  begun : c.pc ≠ .idle → c.pc ≠ .sleepUntil → c.session.tBegin ≤ c.clock
  le : c.clock ≤ max now (max c.session.tBegin c.session.tEnd)

theorem onClock_ready (s : Session) (uc : UseCase) (now : ℤ) : OnClock now (ready s uc now) where
  begun := fun hpc _ => absurd rfl hpc
  le := le_max_left _ _

/-- **Every step keeps the clock in its bounds.** -/
theorem OnClock.step (h : OnClock now c) (hsound : Sound c) (ha : Clocked c a)
    (hstep : Step c a c') : OnClock now c' := by
  obtain ⟨hbegun, hle⟩ := h
  cases hstep with
  | startEarly hpc hready hclock => exact ⟨fun _ hne => absurd rfl hne, hle⟩
  | startLate hpc hready hclock | begin hpc hclock => exact ⟨fun _ _ => hclock, hle⟩
  | startNot hpc hready =>
    have hc := hsound.control
    simp only [Control, hpc] at hc
    exact absurd hc.1 hready
  | pass hpc | skip hpc | launch hpc | get hpc | kill hpc | close hpc | expire hpc =>
    exact ⟨fun _ _ => hbegun (by simp [hpc]) (by simp [hpc]), hle⟩
  | tick d =>
    -- the only step of the clock, up to the end of the sleep or of the wait
    have hlast : c.clock + d ≤ c.session.tBegin ∨ c.clock + d ≤ c.session.tEnd := by
      rcases waitsFor_iff.1 ha with ⟨-, hd⟩ | ⟨-, -, -, -, -, hd⟩
      · exact .inl hd
      · exact .inr hd
    refine ⟨fun hidle hsleep => ?_, ?_⟩
    · have hbegin := hbegun hidle hsleep
      change c.session.tBegin ≤ c.clock + d
      omega
    · change c.clock + d ≤ max now (max c.session.tBegin c.session.tEnd)
      omega
  | stop | enter | wake | quit | set | cancel | other => exact ⟨hbegun, hle⟩

/-- What a run keeps of the clock and of what `start` knows. -/
theorem onClock_run {s : Session} (hready : s.state = .ready) {uc : UseCase}
    (hok : sessionMachine.Within Clocked (ready s uc now) as)
    (hrun : sessionMachine.run (ready s uc now) as = some c) : OnClock now c ∧ Sound c :=
  Machine.run_induction (fun c => OnClock now c ∧ Sound c)
    (fun _ _ _ h ha hs => ⟨h.1.step h.2 ha (.of_step hs), h.2.step hs⟩)
    ⟨onClock_ready s uc now, sound_ready hready uc now⟩ hok hrun

/-- A launch is a step of a `start` that is past its sleep. -/
theorem OnClock.launched (h : OnClock now c) (hl : c.launching a = true) :
    c.session.tBegin ≤ c.clock := by
  unfold launching at hl
  split at hl
  · next hpc => exact h.begun (by simp [hpc]) (by simp [hpc])
  · cases hl

/-- What the clock's bounds make of every launch of a run. -/
theorem launched_run {s : Session} (hready : s.state = .ready) {uc : UseCase} {slot : ℤ → Prop}
    (hslot : ∀ t, s.tBegin ≤ t → t ≤ max now (max s.tBegin s.tEnd) → slot t)
    (hok : sessionMachine.Within Clocked (ready s uc now) as)
    (hrun : sessionMachine.run (ready s uc now) as = some c) :
    sessionMachine.Within (LaunchedIn slot) (ready s uc now) as := by
  let I : Config → Prop := fun c => (OnClock now c ∧ Sound c) ∧
    c.session.tBegin = s.tBegin ∧ c.session.tEnd = s.tEnd
  have hI : ∀ c a c', I c → Clocked c a → sessionMachine.step c a = some c' → I c' := by
    rintro c a c' ⟨⟨hclock, hsound⟩, hbegin, hend⟩ ha hs
    have hstep := Step.of_step hs
    obtain ⟨hbegin', hend'⟩ := hstep.reservation
    exact ⟨⟨hclock.step hsound ha hstep, hsound.step hs⟩, hbegin'.trans hbegin, hend'.trans hend⟩
  have hinitial : I (ready s uc now) :=
    ⟨⟨onClock_ready s uc now, sound_ready hready uc now⟩, rfl, rfl⟩
  refine (Machine.within_congr I hI ?_ hinitial hok hrun).2 Machine.within_true
  rintro c a c' ⟨⟨hclock, -⟩, hbegin, hend⟩ - -
  refine iff_true_intro fun hl => hslot c.clock ?_ ?_
  · rw [← hbegin]
    exact hclock.launched hl
  · rw [← hbegin, ← hend]
    exact hclock.le

/-- A timeout is the last event. -/
theorem Sound.timeout_last (h : Sound c) {typ : StageTyp}
    (hmem : .result typ .timeout ∈ c.log) : ∃ l, c.log = l ++ [.result typ .timeout] := by
  have hc := h.control
  have hbad : ¬ Completion.Fine .timeout := by simp [Completion.Fine]
  have htrail : Trail c.log c.complet → ∃ l, c.log = l ++ [.result typ .timeout] := by
    intro ht
    rcases ht with ⟨hlog, -⟩ | ⟨l, typ', hlog, hfine⟩
    · rw [hlog] at hmem
      cases hmem
    · rw [hlog] at hmem ⊢
      rcases List.mem_append.1 hmem with hmem | hmem
      · exact absurd (hfine typ _ hmem) hbad
      · exact ⟨l, by rw [List.mem_singleton.1 hmem]⟩
  cases hpc : c.pc with
  | idle | sleepUntil =>
    simp only [Control, hpc] at hc
    simp [hc] at hmem
  | guard g | closing =>
    simp only [Control, hpc] at hc
    exact htrail hc.2.1
  | perform typ' =>
    simp only [Control, hpc] at hc
    exact absurd (hc.2.1 typ _ hmem) hbad
  | wait typ' | timedOut typ' =>
    simp only [Control, hpc] at hc
    obtain ⟨-, l, hlog, hfine, -⟩ := hc
    rw [hlog] at hmem
    exact absurd (hfine.concat_launch typ _ hmem) hbad
  | returned =>
    simp only [Control, hpc] at hc
    exact htrail hc.1

/-! ## The slot of the launches -/

/-- A session that was stopped ahead of its call: it is never about to
launch a stage, and has no stage thread. -/
structure CalledOff (c : Config) : Prop where
  stopped : c.session.stopRequested = true
  perform : ∀ typ, c.pc ≠ .perform typ
  thread : c.thread = none

theorem CalledOff.step (h : CalledOff c) (hstep : Step c a c') : CalledOff c' := by
  obtain ⟨hstop, hperform, hthread⟩ := h
  cases hstep with
  | startEarly | startLate | startNot | begin | close =>
    exact ⟨hstop, by simp [running, Config.close], hthread⟩
  | pass hpc hpass =>
    -- no guard passes over a stop
    rw [(Guard.passes_eq_true.1 hpass).1] at hstop
    cases hstop
  | @skip g hpc hpass =>
    refine ⟨hstop, fun typ => ?_, hthread⟩
    cases g <;> simp [Guard.next]
  | launch hpc => exact absurd hpc (hperform _)
  | get hpc hth | kill hpc hth | expire hpc hth | enter hth | wake hth | quit hth | set hth
  | cancel hth =>
    rw [hthread] at hth
    cases hth
  | stop => exact ⟨rfl, hperform, hthread⟩
  | tick | other => exact ⟨hstop, hperform, hthread⟩

theorem calledOff_ready {s : Session} (hstop : s.stopRequested = true) (uc : UseCase) (now : ℤ) :
    CalledOff (ready s uc now) :=
  ⟨hstop, by simp [ready], rfl⟩

/-- A stopped session launches nothing. -/
theorem launched_stopped {s : Session} (hstop : s.stopRequested = true) {uc : UseCase}
    {slot : ℤ → Prop} (hrun : sessionMachine.run (ready s uc now) as = some c) :
    sessionMachine.Within (LaunchedIn slot) (ready s uc now) as := by
  refine (Machine.within_congr CalledOff (fun _ _ _ h _ hs => h.step (.of_step hs)) ?_
    (calledOff_ready hstop uc now) Machine.within_true hrun).2 Machine.within_true
  rintro c a c' h - -
  refine iff_true_intro fun hl => ?_
  unfold launching at hl
  split at hl
  · next hpc => exact absurd hpc (h.perform _)
  · cases hl

/-- **Where nothing stops it `start` comes to launch its first stage**, at
the later of its call and `t_begin`. -/
theorem reaches_perform {s : Session} (hready : s.state = .ready)
    (hstop : s.stopRequested = false) (uc : UseCase) (now : ℤ) :
    ∃ c, sessionMachine.Reaches Clocked (ready s uc now) c ∧ c.pc = .perform .init ∧
      c.clock = max now s.tBegin := by
  have hpass : ∀ c : Config, c.pc = .guard .init → c.session.stopRequested = false →
      sessionMachine.Reaches Clocked c { c with pc := .perform .init } := by
    intro c hpc hfree
    have hstep : Step c .go { c with pc := .perform .init } :=
      .pass hpc (by simp [Guard.passes, Guard.needs, hfree])
    exact .head hstep.step trivial .refl
  rcases le_or_gt s.tBegin now with hlate | hearly
  · have hstart : Step (ready s uc now) .start (ready s uc now).running :=
      .startLate rfl hready hlate
    exact ⟨_, .head hstart.step trivial (hpass _ rfl hstop), rfl, (max_eq_left hlate).symm⟩
  · -- the clock goes to `t_begin` while `start` sleeps
    have hclock : now + (s.tBegin - now).toNat = s.tBegin := by omega
    have hstart : Step (ready s uc now) .start { ready s uc now with pc := .sleepUntil } :=
      .startEarly rfl hready hearly
    have hwaits : Clocked { ready s uc now with pc := .sleepUntil }
        (.tick (s.tBegin - now).toNat) := waitsFor_iff.2 (.inl ⟨rfl, hclock.le⟩)
    have hbegin : Step
        { ready s uc now with pc := .sleepUntil, clock := now + (s.tBegin - now).toNat } .go _ :=
      .begin rfl hclock.ge
    refine ⟨_, .head hstart.step trivial (.head (Step.tick _).step hwaits
      (.head hbegin.step trivial (hpass _ rfl hstop))), rfl, ?_⟩
    rw [max_eq_right hearly.le]
    exact hclock

/-- **Every launch falls in the slot exactly where the call of `start` does
not come after it.** For every ready session, every use case and every
instant `now` of the call: over all the runs with an exact clock, whatever
the stages take and whenever `stop` is called, each stage is launched
between `t_begin` and `t_end`, if and only if a stop was requested before
or neither `now` nor `t_begin` is past `t_end`. -/
theorem launches_inSlot_iff (s : Session) (hready : s.state = .ready) (uc : UseCase) (now : ℤ) :
    (∀ as c, sessionMachine.Within Clocked (ready s uc now) as →
      sessionMachine.run (ready s uc now) as = some c →
      sessionMachine.Within (LaunchedIn fun t => s.tBegin ≤ t ∧ t ≤ s.tEnd) (ready s uc now) as) ↔
    s.stopRequested = true ∨ (now ≤ s.tEnd ∧ s.tBegin ≤ s.tEnd) := by
  constructor
  · intro h
    by_cases hstop : s.stopRequested = true
    · exact .inl hstop
    · obtain ⟨c, ⟨as, hok, hrun⟩, hpc, hclock⟩ :=
        reaches_perform hready (by simpa using hstop) uc now
      -- the run that ends with the launch
      have hgo : Step c .go _ := .launch hpc
      have hlast : sessionMachine.Within Clocked c [.go] := ⟨trivial, fun _ _ => trivial⟩
      have hslot := h (as ++ [.go]) _ ((Machine.within_append hrun).2 ⟨hok, hlast⟩)
        ((Machine.run_append hrun).trans (Machine.run_cons hgo.step))
      have hin := (((Machine.within_append hrun).1 hslot).2.1 (by simp [launching, hpc])).2
      rw [hclock] at hin
      exact .inr ⟨(le_max_left _ _).trans hin, (le_max_right _ _).trans hin⟩
  · rintro (hstop | ⟨hnow, hslot⟩) as c hok hrun
    · exact launched_stopped hstop hrun
    · refine launched_run hready (fun t hbegin hle => ⟨hbegin, ?_⟩) hok hrun
      omega

/-- A session called ahead of its slot, with a first stage that hangs. -/
def hangingRun : List Act :=
  [.start, .tick 1000000000, .go, .go, .go, .enter none, .tick 6000000000, .expire, .go,
    .go, .go, .go, .go]

theorem launches_inSlot_iff_hangingRun :
    sessionMachine.Within (LaunchedIn fun t => shortSession.tBegin ≤ t ∧ t ≤ shortSession.tEnd)
      (ready shortSession shortCase (-1000000000)) hangingRun := by
  have hready : shortSession.state = .ready := by decide
  exact (launches_inSlot_iff shortSession hready shortCase (-1000000000)).2 (.inr (by decide))
    hangingRun _ (by decide) rfl

/-- A session called a second after its slot. -/
def lateRun : List Act := [.start, .go, .go, .expire, .go]

/-- **It launches `INIT` then**, to cancel it at once. -/
theorem not_inSlot_lateRun :
    shortSession.state = .ready ∧ shortSession.stopRequested = false ∧
    sessionMachine.Within Clocked (ready shortSession shortCase (7 * nanos)) lateRun ∧
    (∃ c, sessionMachine.run (ready shortSession shortCase (7 * nanos)) lateRun = some c ∧
      c.log = [.launch .init, .result .init .timeout] ∧ c.clock = 7 * nanos) ∧
    shortSession.tEnd = 6 * nanos ∧
    ¬ sessionMachine.Within
      (LaunchedIn fun t => shortSession.tBegin ≤ t ∧ t ≤ shortSession.tEnd)
      (ready shortSession shortCase (7 * nanos)) lateRun :=
  ⟨by decide, rfl, by decide, ⟨_, rfl, rfl, rfl⟩, rfl, by decide⟩

end Config

end VireSandbox
