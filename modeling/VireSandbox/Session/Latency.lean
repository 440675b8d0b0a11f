import VireSandbox.Session.Slot
/-!
# The session — how long a stop takes

`stop` raises a flag and wakes nobody: `start` sleeps on until `t_begin`,
or waits on for the stage it is in. With an exact clock, which moves only
while the threads of the session sleep, that is all it waits for: `start`
returns at `t_begin` or one stage after the stop, whichever is later, and
never before `t_begin` (`stop_latency`).
-/

namespace VireSandbox

namespace Config

variable {c c' c₁ : Config} {a : Act} {as : List Act} {now t : ℤ} {D : ℕ}

/-- Whether every thread of the session sleeps for `d` nanoseconds more:
`start` until `t_begin`, or the stage it waits for. -/
def sleepsFor (c : Config) (d : ℕ) : Bool :=
  match c.pc, c.thread with
  | .sleepUntil, _ => c.clock + d ≤ c.session.tBegin
  | .wait _, some ⟨_, .sleeping (some wake), none, _⟩ =>
    c.clock + d ≤ wake ∧ c.clock + d ≤ c.session.tEnd
  | _, _ => false

theorem sleepsFor_iff {d : ℕ} : c.sleepsFor d = true ↔
    (c.pc = .sleepUntil ∧ c.clock + d ≤ c.session.tBegin) ∨
      ∃ typ th wake, c.pc = .wait typ ∧ c.thread = some th ∧ th.pc = .sleeping (some wake) ∧
        th.promise = none ∧ c.clock + d ≤ wake ∧ c.clock + d ≤ c.session.tEnd := by
  unfold sleepsFor
  constructor
  · intro h
    split at h
    · next hpc => exact .inl ⟨hpc, by simpa using h⟩
    · next hpc hth =>
      obtain ⟨hwake, hend⟩ : _ ∧ _ := by simpa using h
      exact .inr ⟨_, _, _, hpc, hth, rfl, rfl, hwake, hend⟩
    · cases h
  · rintro (⟨hpc, hle⟩ | ⟨typ, ⟨typ', pc, promise, req⟩, wake, hpc, hth, hsleep, hnone, hle⟩)
    · simpa [hpc] using hle
    · cases hsleep
      cases hnone
      simpa [hpc, hth] using hle

/-- **A step of the system whose clock moves in its sleeps**, with stages of
`D` nanoseconds at most. -/
def Punctual (D : ℕ) (c : Config) : Act → Prop
  | .tick d => c.sleepsFor d = true
  | .enter d => d.any (· ≤ D) = true
  | _ => True

instance decidablePunctual (D : ℕ) (c : Config) : ∀ a, Decidable (Punctual D c a)
  | .tick d => inferInstanceAs (Decidable (c.sleepsFor d = true))
  | .enter d => inferInstanceAs (Decidable (d.any (· ≤ D) = true))
  | .start | .stop | .go | .expire | .wake | .quit | .set | .cancel | .other _ => isTrue trivial

theorem Punctual.clocked (h : Punctual D c a) : Clocked c a := by
  cases a with
  | tick d =>
    rcases sleepsFor_iff.1 h with hsleep | ⟨typ, th, -, hpc, hth, -, hnone, -, hend⟩
    · exact waitsFor_iff.2 (.inl hsleep)
    · exact waitsFor_iff.2 (.inr ⟨typ, th, hpc, hth, hnone, hend⟩)
  | _ => trivial

/-- A thread that sleeps is out of it by an instant. -/
def AwakeBy (due : ℤ) (th : StageThread) : Prop :=
  ∀ wake, th.pc = .sleeping wake → ∃ w, wake = some w ∧ w ≤ due

theorem AwakeBy.mono {due due' : ℤ} {th : StageThread} (h : AwakeBy due th) (hle : due ≤ due') :
    AwakeBy due' th := by
  intro wake hpc
  obtain ⟨w, hwake, hw⟩ := h wake hpc
  exact ⟨w, hwake, hw.trans hle⟩

/-- A thread that is killed sleeps no longer than before. -/
theorem AwakeBy.kill {due : ℤ} {th : StageThread} (h : AwakeBy due th) (clock : ℤ) :
    AwakeBy due (th.kill clock) := by
  intro wake hpc
  unfold StageThread.kill at hpc
  split at hpc
  · next w hth =>
    split at hpc
    · exact h wake hpc
    · cases hpc
  · cases hpc
  · exact h wake hpc

/-- Where a stage thread is once it has entered. -/
theorem entered_awakeBy {d : Option ℕ} (hd : d.any (· ≤ D) = true) (th : StageThread) (clock : ℤ)
    (valid : Bool) :
    let th' : StageThread := { th with pc := if valid then th.sleep clock d else .leaving }
    AwakeBy (clock + D) th' ∧ th'.pc ≠ .created := by
  obtain ⟨n, rfl, hn⟩ : ∃ n, d = some n ∧ n ≤ D := by
    cases d with
    | none => cases hd
    | some n => exact ⟨n, rfl, by simpa using hd⟩
  unfold StageThread.sleep AwakeBy
  cases valid with
  | false => simp
  | true =>
    rcases Nat.eq_zero_or_pos n with rfl | hpos
    · simp
    · cases th.cancelRequested with
      | true => simp [Nat.ne_of_gt hpos]
      | false => simp [Nat.ne_of_gt hpos, hn]

/-- **A stage that sleeps is done within `D`.** -/
def Paced (D : ℕ) (c : Config) : Prop := ∀ th, c.thread = some th → AwakeBy (c.clock + D) th

theorem paced_ready (s : Session) (uc : UseCase) (now : ℤ) : Paced D (ready s uc now) := nofun

theorem Paced.step (h : Paced D c) (ha : Punctual D c a) (hstep : Step c a c') : Paced D c' := by
  cases hstep with
  | launch hpc =>
    rintro th ⟨⟩
    nofun
  | get => nofun
  | kill hpc hth =>
    rintro th' ⟨⟩
    exact (h _ hth).kill c.clock
  | tick d =>
    intro th hth
    refine (h th hth).mono ?_
    change c.clock + D ≤ c.clock + d + D
    omega
  | enter hth hpc =>
    rintro th' ⟨⟩
    exact (entered_awakeBy ha _ _ _).1
  | wake | quit | set | cancel =>
    rintro th' ⟨⟩
    nofun
  | _ => exact h

/-- **Since a stop at `t`**: `start` goes on for what it is in, by `t_begin`
or by `t + D`. -/
structure Leaving (t : ℤ) (D : ℕ) (c : Config) : Prop where
  stop : c.session.stopRequested = true
  clock : c.clock ≤ max c.session.tBegin (t + D)
  perform : ∀ typ, c.pc = .perform typ → c.clock ≤ t
  wait : ∀ typ th, c.pc = .wait typ → c.thread = some th →
    AwakeBy (t + D) th ∧ (th.pc = .created → c.clock ≤ t)

/-- What a stop finds. -/
theorem Paced.stop (h : Paced D c) : Leaving c.clock D { c with session := c.session.stop } where
  stop := rfl
  clock := by
    change c.clock ≤ max c.session.tBegin (c.clock + D)
    omega
  perform := fun _ _ => le_rfl
  wait := fun _ th _ hth => ⟨h th hth, fun _ => le_rfl⟩

/-- Where `start` neither launches nor waits it takes no time. -/
theorem Leaving.passing (h : Leaving t D c) (hpc : ∀ typ, c'.pc ≠ .perform typ ∧ c'.pc ≠ .wait typ)
    (hsession : c'.session.stopRequested = c.session.stopRequested ∧
      c'.session.tBegin = c.session.tBegin) (hclock : c'.clock = c.clock) : Leaving t D c' where
  stop := hsession.1.trans h.stop
  clock := by
    rw [hsession.2, hclock]
    exact h.clock
  perform := fun typ h => absurd h (hpc typ).1
  wait := fun typ _ h => absurd h (hpc typ).2

/-- A step of the stage thread, which has begun by then. -/
theorem Leaving.update (h : Leaving t D c) {uc : UseCase} {th' : StageThread}
    (hawake : ∀ typ, c.pc = .wait typ → AwakeBy (t + D) th') (hpc : th'.pc ≠ .created) :
    Leaving t D { c with useCase := uc, thread := some th' } := by
  refine ⟨h.stop, h.clock, h.perform, ?_⟩
  rintro typ th hwait ⟨⟩
  exact ⟨hawake typ hwait, fun hcreated => absurd hcreated hpc⟩

/-- **Every step keeps to it**: no guard passes over a stop, so nothing is
entered but what was about to be. -/
theorem Leaving.step (h : Leaving t D c) (ha : Punctual D c a) (hstep : Step c a c') :
    Leaving t D c' := by
  cases hstep with
  | startEarly | startLate | startNot | begin | close | expire =>
    exact h.passing (fun typ => ⟨nofun, nofun⟩) ⟨rfl, rfl⟩ rfl
  | pass hpc hpass =>
    have hstop := h.stop
    simp [(Guard.passes_eq_true.1 hpass).1] at hstop
  | @skip g hpc hpass =>
    exact h.passing (fun typ => by cases g <;> exact ⟨nofun, nofun⟩) ⟨rfl, rfl⟩ rfl
  | @launch typ hpc =>
    refine ⟨h.stop, h.clock, nofun, ?_⟩
    rintro typ' th - ⟨⟩
    exact ⟨nofun, fun _ => h.perform typ hpc⟩
  | @get typ | @kill typ =>
    exact h.passing (fun typ' => by cases typ <;> exact ⟨nofun, nofun⟩) ⟨rfl, rfl⟩ rfl
  | stop => exact ⟨rfl, h.clock, h.perform, h.wait⟩
  | tick d =>
    rcases sleepsFor_iff.1 ha with ⟨hpc, hle⟩ | ⟨typ, th, wake, hpc, hth, hsleep, -, hle, -⟩
    · refine ⟨h.stop, ?_, fun typ hpc' => ?_, fun typ th hpc' => ?_⟩
      · change c.clock + d ≤ max c.session.tBegin (t + D)
        omega
      · cases hpc.symm.trans hpc'
      · cases hpc.symm.trans hpc'
    · -- the stage it waits for is asleep, and was entered in time
      obtain ⟨hawake, -⟩ := h.wait typ th hpc hth
      obtain ⟨w, hw, hdue⟩ := hawake _ hsleep
      obtain rfl := Option.some_inj.1 hw
      refine ⟨h.stop, ?_, fun typ' hpc' => ?_, fun typ' th' hpc' hth' => ⟨?_, fun hcreated => ?_⟩⟩
      · change c.clock + d ≤ max c.session.tBegin (t + D)
        omega
      · cases hpc.symm.trans hpc'
      · exact (h.wait typ' th' hpc' hth').1
      · obtain rfl := Option.some_inj.1 (hth.symm.trans hth')
        cases hsleep.symm.trans hcreated
  | @enter d th hth hpc =>
    obtain ⟨hawake, hbegun⟩ := entered_awakeBy ha th c.clock
      (c.useCase.enterStage th.typ.target).1
    refine h.update (fun typ hwait => hawake.mono ?_) hbegun
    have hnow := (h.wait typ th hwait hth).2 hpc
    omega
  | wake | quit | set | cancel => exact h.update (fun _ _ => nofun) nofun
  | other op => exact ⟨h.stop, h.clock, h.perform, h.wait⟩

/-- **With a clock that moves in its sleeps a session goes on until it
returns.** -/
theorem Paced.due (hp : Paced D c) (h : Threaded c) (hpc : c.pc ≠ .returned) :
    sessionMachine.Due (Punctual D) sessionRoles c := by
  cases hc : c.pc with
  | idle | guard g | perform typ | closing =>
    exact (due_of_running trivial trivial (by simp [hc])).mono startRoles_sub
  | sleepUntil =>
    rcases le_total c.session.tBegin c.clock with hclock | hclock
    · exact (Step.begin hc hclock).due trivial rfl
    · have hbegin : Step { c with clock := c.session.tBegin } .go _ := .begin hc le_rfl
      refine due_later c.session.tBegin hclock ?_ rfl (hbegin.due trivial rfl)
      exact sleepsFor_iff.2 (.inl ⟨hc, by omega⟩)
  | wait typ =>
    simp only [Threaded, hc] at h
    obtain ⟨th, hth, hw⟩ := h
    cases hth' : th.pc with
    | created =>
      have hshort : Punctual D c (.enter (some 0)) := by simp [Punctual]
      exact due_enter hth hth' _ hshort
    | awake => exact (Step.quit hth hth').due trivial rfl
    | leaving => exact (Step.set hth hth').due trivial rfl
    | cancelled => exact absurd hth' hw.alive
    | finished =>
      have hsome : th.promise ≠ none := fun hnone => hw.promise.1 hnone hth'
      obtain ⟨v, hv⟩ := Option.ne_none_iff_exists'.1 hsome
      exact (Step.get hc hth hv).due trivial rfl
    | sleeping wake =>
      have hnone : th.promise = none := hw.promise.2 (by simp [hth'])
      obtain ⟨w, rfl, -⟩ := hp th hth _ hth'
      -- the clock goes to the first of the two ends, if it is not past it
      rcases le_total c.session.tEnd c.clock with hpast | hbefore
      · exact (Step.expire hc hth hnone hpast).due trivial rfl
      rcases le_total w c.clock with hpast | hahead
      · exact (Step.wake hth hth' hpast).due trivial rfl
      rcases le_total w c.session.tEnd with hfirst | hfirst
      · have hwakes : Step { c with clock := w } .wake _ := .wake hth hth' le_rfl
        refine due_later w hahead ?_ rfl (hwakes.due trivial rfl)
        exact sleepsFor_iff.2 (.inr ⟨typ, th, w, hc, hth, hth', hnone, by omega, by omega⟩)
      · have hexpire : Step { c with clock := c.session.tEnd } .expire _ :=
          .expire hc hth hnone le_rfl
        refine due_later c.session.tEnd hbefore ?_ rfl (hexpire.due trivial rfl)
        exact sleepsFor_iff.2 (.inr ⟨typ, th, w, hc, hth, hth', hnone, by omega, by omega⟩)
  | timedOut typ =>
    simp only [Threaded, hc] at h
    obtain ⟨th, hth, -⟩ := h
    exact (Step.kill hc hth).due trivial rfl
  | returned => exact absurd hc hpc

theorem punctual_ends (s : Session) (uc : UseCase) (now : ℤ) :
    sessionMachine.Ends (Punctual D) sessionRoles (·.pc = .returned) (ready s uc now) := by
  refine Machine.Ends.of_measure (fun c => Paced D c ∧ Threaded c) workLeft ?_ ?_ ?_
    ⟨paced_ready s uc now, rfl⟩
  · exact fun c a c' h ha hs => ⟨h.1.step ha (.of_step hs), h.2.step (.of_step hs)⟩
  · exact fun c a c' h _ hs => workLeft_step h.2 (.of_step hs)
  · exact fun c h hpc => h.1.due h.2 hpc

/-- **A stop takes one stage at most.** For every ready session, every use
case, whoever else holds it, and every instant of the call: where no stage
sleeps longer than `D`, a session stopped at an instant is through at that
instant and `D`, or at `t_begin` where that is later; it returns, and not
before `t_begin`. -/
theorem stop_latency (s : Session) (hready : s.state = .ready) (uc : UseCase) (now : ℤ) (D : ℕ) :
    (∀ as₁ as₂ c₁ c₂,
      sessionMachine.Within (Punctual D) (ready s uc now) (as₁ ++ .stop :: as₂) →
      sessionMachine.run (ready s uc now) as₁ = some c₁ →
      sessionMachine.run c₁ (.stop :: as₂) = some c₂ →
      c₂.clock ≤ max s.tBegin (c₁.clock + D) ∧ (c₂.pc = .returned → s.tBegin ≤ c₂.clock)) ∧
    sessionMachine.Ends (Punctual D) sessionRoles (·.pc = .returned) (ready s uc now) := by
  refine ⟨fun as₁ as₂ c₁ c₂ hok h₁ h₂ => ?_, punctual_ends s uc now⟩
  have hall : sessionMachine.run (ready s uc now) (as₁ ++ .stop :: as₂) = some c₂ := by
    rw [Machine.run_append h₁, h₂]
  obtain ⟨hclock, -⟩ := onClock_run hready (Machine.within_mono (fun _ _ => Punctual.clocked) hok)
    hall
  obtain ⟨hbegin, -⟩ := reservation_run hall
  obtain ⟨hok₁, hok₂⟩ := (Machine.within_append h₁).1 hok
  have hpaced : Paced D c₁ :=
    Machine.run_induction (Paced D) (fun _ _ _ h ha hs => h.step ha (.of_step hs))
      (paced_ready s uc now) hok₁ h₁
  rw [Machine.run_cons (Step.stop).step] at h₂
  rw [Machine.within_cons (Step.stop).step] at hok₂
  have hleaving : Leaving c₁.clock D c₂ :=
    Machine.run_induction (Leaving c₁.clock D) (fun _ _ _ h ha hs => h.step ha (.of_step hs))
      hpaced.stop hok₂.2 h₂
  rw [show s.tBegin = c₂.session.tBegin from hbegin.symm]
  exact ⟨hleaving.clock, fun hpc => hclock.begun (by simp [hpc]) (by simp [hpc])⟩

/-- A session stopped just as its first stage begins. -/
def haltedRun : List Act :=
  [.enter (some 1000000000), .tick 1000000000, .wake, .quit, .set, .go, .go, .go, .go, .go]

/-- **The bound is met**: it returns a second after the stop. -/
theorem stop_latency_haltedRun :
    ∃ c₁ c₂, sessionMachine.run (ready shortSession shortCase 0) [.start, .go, .go] = some c₁ ∧
      sessionMachine.run c₁ (.stop :: haltedRun) = some c₂ ∧ c₂.pc = .returned ∧
      c₁.clock + (1000000000 : ℕ) ≤ c₂.clock ∧
      c₂.clock ≤ max shortSession.tBegin (c₁.clock + (1000000000 : ℕ)) := by
  have hready : shortSession.state = .ready := by decide
  refine ⟨_, _, rfl, rfl, rfl, by decide, ?_⟩
  exact ((stop_latency shortSession hready shortCase 0 1000000000).1 [.start, .go, .go] haltedRun
    _ _ (by decide) rfl rfl).1

end Config

end VireSandbox
