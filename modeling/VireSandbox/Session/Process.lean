import VireSandbox.Common.Loss
import VireSandbox.Session.Slot
/-!
# The session — in its process

The promise of a stage is a local of `stage_perform`, gone once that has
returned `TIMEOUT`. The stage thread is detached by then, and where the
kill missed it, it calls `set_value` on it all the same. What such a call
does is not defined: it may change nothing that `start` sees, as the
session machine has it, and it may end the process with `start` in it.

Where no such call comes ahead of it, `start` returns by the last of its
call, `t_begin` and `t_end`. Where a stage is launched at all one may
come (`no_overrun`).
-/

namespace VireSandbox

/-- The stage thread is about to set a promise that is gone. -/
def Config.dangling (c : Config) : Bool :=
  match c.thread with
  | some ⟨_, .leaving, _, true⟩ => true
  | _ => false

/-- **The session in its process**, which is lost where a promise that is
gone is set, or gets over it. -/
def processMachine : Machine (Losable Config) (Option Act) :=
  sessionMachine.losable Config.dangling

namespace Config

variable {c c' : Config} {a : Act} {bs : List (Option Act)} {p : Losable Config}

theorem dangling_iff : c.dangling = true ↔
    ∃ th, c.thread = some th ∧ th.pc = .leaving ∧ th.cancelRequested = true := by
  unfold dangling
  constructor
  · intro h
    split at h
    · next hth => exact ⟨_, hth, rfl, rfl⟩
    · cases h
  · rintro ⟨⟨typ, pc, promise, req⟩, hth, hpc, hreq⟩
    cases hpc
    cases hreq
    simp [hth]

/-- **A step that spares `start`**: no promise that is gone is set before
`start` has returned. -/
def Spared (p : Losable Config) (a : Option Act) : Prop :=
  p.state.dangling = true → (a = none ∨ a = some .set) → p.state.pc = .returned

instance (p : Losable Config) (a : Option Act) : Decidable (Spared p a) :=
  inferInstanceAs (Decidable (_ → _ → _))

/-- **The bounds of a call at `now`**: in its runs no stage is launched
before `t_begin`, the clock is never past the last of `now`, `t_begin` and
`t_end`, and nothing follows a timeout. -/
def CallBounds (Ok : Losable Config → Option Act → Prop) (s : Session) (uc : UseCase) (now : ℤ) :
    Prop :=
  ∀ bs p, processMachine.Within Ok ⟨ready s uc now, false⟩ bs →
    processMachine.run ⟨ready s uc now, false⟩ bs = some p →
    processMachine.Within (Machine.Lift (LaunchedIn fun t => s.tBegin ≤ t))
      ⟨ready s uc now, false⟩ bs ∧
    p.state.clock ≤ max now (max s.tBegin s.tEnd) ∧
    ∀ typ, .result typ .timeout ∈ p.state.log → ∃ l, p.state.log = l ++ [.result typ .timeout]

/-- **The session never overruns** in the runs that keep to `Ok`: they are
in bounds, and in each of them `start` returns. -/
structure NeverOverruns (Ok : Losable Config → Option Act → Prop) (s : Session) (uc : UseCase)
    (now : ℤ) : Prop where
  bounds : CallBounds Ok s uc now
  returns : processMachine.Ends Ok sessionRoles.losable (·.state.pc = .returned)
    ⟨ready s uc now, false⟩

/-! ## The bounds -/

/-- **Every call is in bounds**, whatever becomes of its process. -/
theorem callBounds {s : Session} (hready : s.state = .ready) (uc : UseCase) (now : ℤ) :
    CallBounds (Machine.Lift Clocked) s uc now := by
  intro bs p hok hrun
  obtain ⟨hrun', hwithin⟩ := Machine.run_reduceOption hrun
  -- but for its loss it is a run of the session machine
  have hok' : sessionMachine.Within Clocked (ready s uc now) bs.reduceOption := hwithin.1 hok
  obtain ⟨hclock, hsound⟩ := onClock_run hready hok' hrun'
  obtain ⟨hbegin, hend⟩ := reservation_run hrun'
  refine ⟨?_, ?_, fun typ => hsound.timeout_last⟩
  · exact (Machine.run_reduceOption hrun).2.2
      (launched_run hready (fun t ht _ => ht) hok' hrun')
  · have hle := hclock.le
    rwa [hbegin, hend] at hle

/-! ## The return of `start` -/

theorem Threaded.due_clocked (h : Threaded c) (hpc : c.pc ≠ .returned) :
    sessionMachine.Due Clocked startRoles c :=
  h.due (fun _ => ⟨trivial, trivial, trivial⟩) (fun _ hd => hd) hpc

/-- A step of `start` is due in the process as well: it sets no promise. -/
theorem Threaded.due_process (h : Threaded c) (hpc : c.pc ≠ .returned) :
    processMachine.Due (fun p a => Machine.Lift Clocked p a ∧ Spared p a)
      sessionRoles.losable ⟨c, false⟩ := by
  refine ((h.due_clocked hpc).losable ?_ fun _ _ hok => hok.1).mono startRoles_sub.losable
  rintro c a hrole hok
  refine ⟨hok, fun _ hset => ?_⟩
  rcases hset with hset | hset
  · cases hset
  · obtain rfl := Option.some_inj.1 hset
    rcases hrole with hrole | hrole <;> cases hrole

/-- **`start` returns where it is spared.** -/
theorem spared_ends (s : Session) (uc : UseCase) (now : ℤ) :
    processMachine.Ends (fun p a => Machine.Lift Clocked p a ∧ Spared p a) sessionRoles.losable
      (·.state.pc = .returned) ⟨ready s uc now, false⟩ := by
  have hready : Threaded (ready s uc now) := rfl
  refine Machine.Ends.losable (·.pc = .returned) Threaded workLeft ?_ ?_ ?_ ?_ hready
  · exact fun c a c' h _ hstep => h.step (.of_step hstep)
  · exact fun c a c' h _ hstep => workLeft_step h (.of_step hstep)
  · exact fun c _ hok hdangling => hok.2 hdangling (.inl rfl)
  · exact fun c h hpc => h.due_process hpc

/-- A session that was stopped ahead of its call has no promise to set. -/
theorem calledOff_ends {s : Session} (hstop : s.stopRequested = true) (uc : UseCase) (now : ℤ) :
    processMachine.Ends (Machine.Lift Clocked) sessionRoles.losable (·.state.pc = .returned)
      ⟨ready s uc now, false⟩ := by
  have hready : Threaded (ready s uc now) := rfl
  refine Machine.Ends.losable (·.pc = .returned) (fun c => Threaded c ∧ CalledOff c) workLeft
    ?_ ?_ ?_ ?_ ⟨hready, calledOff_ready hstop uc now⟩
  · exact fun c a c' h _ hstep => ⟨h.1.step (.of_step hstep), h.2.step (.of_step hstep)⟩
  · exact fun c a c' h _ hstep => workLeft_step h.1 (.of_step hstep)
  · rintro c ⟨-, hoff⟩ - hdangling
    obtain ⟨th, hth, -⟩ := dangling_iff.1 hdangling
    rw [hoff.thread] at hth
    cases hth
  · rintro c ⟨h, -⟩ hpc
    exact ((h.due_clocked hpc).losable (fun _ _ _ hok => hok) fun _ _ hok => hok).mono
      startRoles_sub.losable

/-! ## The loss of the process -/

/-- A stage that is not done by `t_end` is given up. -/
theorem reaches_timedOut {typ : StageTyp} {th : StageThread} (hpc : c.pc = .wait typ)
    (hth : c.thread = some th) (hpromise : th.promise = none) :
    sessionMachine.Reaches Clocked c
      { c with pc := .timedOut typ, clock := max c.clock c.session.tEnd } := by
  rcases le_total c.session.tEnd c.clock with hclock | hclock
  · rw [max_eq_left hclock]
    exact .head (Step.expire hpc hth hpromise hclock).step trivial .refl
  · have hend : c.clock + (c.session.tEnd - c.clock).toNat = c.session.tEnd := by omega
    have hwaits : Clocked c (.tick (c.session.tEnd - c.clock).toNat) :=
      waitsFor_iff.2 (.inr ⟨typ, th, hpc, hth, hpromise, hend.le⟩)
    have hexpire : Step { c with clock := c.clock + (c.session.tEnd - c.clock).toNat } .expire _ :=
      .expire hpc hth hpromise hend.ge
    rw [max_eq_right hclock]
    simpa only [hend] using
      Machine.Reaches.head (Step.tick _).step hwaits (.head hexpire.step trivial .refl)

/-- A stage thread that had not run when it was killed comes to set its
promise, refused or through with its stage. -/
theorem reaches_dangling {th : StageThread} (hth : c.thread = some th) (hpc : th.pc = .created)
    (hreq : th.cancelRequested = true) :
    ∃ c', sessionMachine.Reaches Clocked c c' ∧ c'.dangling = true ∧ c'.pc = c.pc := by
  have henter : Step c (.enter (some 0)) _ := .enter hth hpc
  cases hvalid : (c.useCase.enterStage th.typ.target).1 with
  | false =>
    rw [hvalid] at henter
    exact ⟨_, .head henter.step trivial .refl, dangling_iff.2 ⟨_, rfl, rfl, hreq⟩, rfl⟩
  | true =>
    -- a sleep of no time is no cancellation point
    rw [hvalid] at henter
    have hquit : Step _ .quit _ := .quit (c := { c with
      useCase := (c.useCase.enterStage th.typ.target).2
      thread := some { th with pc := .awake } }) rfl rfl
    exact ⟨_, .head henter.step trivial (.head hquit.step trivial .refl),
      dangling_iff.2 ⟨_, rfl, rfl, hreq⟩, rfl⟩

/-- **A session that nobody stopped may set a promise that is gone before
`start` returns**, whatever its slot. -/
theorem exists_dangling {s : Session} (hready : s.state = .ready)
    (hstop : s.stopRequested = false) (uc : UseCase) (now : ℤ) :
    ∃ c, sessionMachine.Reaches Clocked (ready s uc now) c ∧ c.dangling = true ∧
      c.pc ≠ .returned := by
  obtain ⟨c, hperform, hpc, -⟩ := reaches_perform hready hstop uc now
  have hlaunch : Step c .go _ := .launch hpc
  have htimedOut := reaches_timedOut (c := { c with
    pc := .wait .init
    thread := some ⟨.init, .created, none, false⟩
    log := c.log ++ [.launch .init] }) rfl rfl rfl
  have hkill : Step { c with
      pc := .timedOut .init
      clock := max c.clock c.session.tEnd
      thread := some ⟨.init, .created, none, false⟩
      log := c.log ++ [.launch .init] } .go _ := .kill rfl rfl
  obtain ⟨c', hreach, hdangling, hpc'⟩ := reaches_dangling (c := Config.stageReturns { c with
      pc := .timedOut .init
      clock := max c.clock c.session.tEnd
      thread := some ⟨.init, .created, none, false⟩
      log := c.log ++ [.launch .init] } .init .timeout
    (some ⟨.init, .created, none, true⟩)) rfl rfl rfl
  refine ⟨c', hperform.trans (.head hlaunch.step trivial
    (htimedOut.trans (.head hkill.step trivial hreach))), hdangling, ?_⟩
  rw [hpc']
  simp [stageReturns, StageTyp.after]

/-- **The loss of the process ends nothing**: `start` never returns from
it. -/
theorem not_ends_of_dangling {c₀ : Config} (hreach : sessionMachine.Reaches Clocked c₀ c)
    (hdangling : c.dangling = true) (hpc : c.pc ≠ .returned) :
    ¬ processMachine.Ends (Machine.Lift Clocked) sessionRoles.losable (·.state.pc = .returned)
      ⟨c₀, false⟩ := by
  intro h
  obtain ⟨as, hok, hrun⟩ := hreach
  have hrun' : processMachine.run ⟨c₀, false⟩ (as.map some) = some ⟨c, false⟩ :=
    Machine.run_map_some hrun
  have hloss : processMachine.step ⟨c, false⟩ none = some ⟨c, true⟩ :=
    Machine.losable_none_iff.2 ⟨rfl, hdangling, rfl⟩
  have hlost : processMachine.run ⟨c₀, false⟩ (as.map some ++ [none]) = some ⟨c, true⟩ :=
    (Machine.run_append hrun').trans (Machine.run_cons hloss)
  refine Machine.not_due_of_lost rfl (h.progress _ _ ?_ hlost hpc)
  refine (Machine.run_reduceOption hlost).2.2 ?_
  simpa [List.reduceOption, List.filterMap_map, Function.comp_def] using hok

/-- **The session never overruns where no promise that is gone is set.**
For every ready session, every use case, whoever else holds it, whatever
its stages take, any stops and any instant `now` of the call: every run is
in bounds, every run that spares `start` ends with its return, and all of
them do exactly where a stop was requested before the call. -/
theorem no_overrun (s : Session) (hready : s.state = .ready) (uc : UseCase) (now : ℤ) :
    CallBounds (Machine.Lift Clocked) s uc now ∧
    NeverOverruns (fun p a => Machine.Lift Clocked p a ∧ Spared p a) s uc now ∧
    (NeverOverruns (Machine.Lift Clocked) s uc now ↔ s.stopRequested = true) := by
  have hbounds := callBounds hready uc now
  refine ⟨hbounds, ⟨fun bs p hok => hbounds bs p (Machine.within_and.1 hok).1,
    spared_ends s uc now⟩, fun h => ?_, fun hstop => ⟨hbounds, calledOff_ends hstop uc now⟩⟩
  by_contra hfree
  obtain ⟨c, hreach, hdangling, hpc⟩ := exists_dangling hready (by simpa using hfree) uc now
  exact not_ends_of_dangling hreach hdangling hpc h.returns

theorem no_overrun_hangingRun :
    ∃ p, processMachine.run ⟨ready shortSession shortCase (-1000000000), false⟩
        (hangingRun.map some) = some p ∧
      p.state.pc = .returned ∧ p.state.session.state = .killed ∧
      p.state.clock = shortSession.tEnd ∧
      p.state.clock ≤ max (-1000000000) (max shortSession.tBegin shortSession.tEnd) := by
  have hready : shortSession.state = .ready := by decide
  refine ⟨_, rfl, rfl, by decide, by decide, ?_⟩
  exact ((no_overrun shortSession hready shortCase (-1000000000)).2.1.bounds
    (hangingRun.map some) _ (by decide) rfl).2.1

/-- A session called a second before the end of its slot: the sleep of the
first stage ends at its deadline, and its thread goes on, killed, to set
its promise. -/
def danglingRun : List (Option Act) :=
  [.start, .go, .go, .enter (some 1000000000), .tick 1000000000, .wake, .expire, .go, .quit].map
    some ++ [none]

/-- **The process is lost with `start` in it.** -/
theorem not_neverOverruns_danglingRun :
    shortSession.state = .ready ∧
    processMachine.Within (Machine.Lift Clocked) ⟨ready shortSession shortCase (5 * nanos), false⟩
      danglingRun ∧
    (∃ p, processMachine.run ⟨ready shortSession shortCase (5 * nanos), false⟩ danglingRun =
        some p ∧
      p.lost = true ∧ p.state.pc = .guard .work ∧ p.state.clock = shortSession.tEnd ∧
      p.state.log = [.launch .init, .result .init .timeout]) ∧
    ¬ NeverOverruns (Machine.Lift Clocked) shortSession shortCase (5 * nanos) := by
  refine ⟨by decide, by decide, ⟨_, rfl, rfl, rfl, rfl, rfl⟩, fun h => ?_⟩
  have hnext := h.returns.progress danglingRun _ (by decide) rfl
  exact Machine.not_due_of_lost rfl (hnext (by decide))

end Config

end VireSandbox
