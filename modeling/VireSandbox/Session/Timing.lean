import VireSandbox.Session.Handover
/-!
# The session — with an exact clock

The runs in which time passes only where the code sleeps or waits, and
each stage takes what its `sleep_for` asks. A session alone with a new
use case is then at `elapsed p` past `t_begin` with `p` letters of the
script behind, and whether a stage times out is decided by the sum over
the whole script.
-/

namespace VireSandbox

namespace UseCase

variable {N p q : ℕ} {uc : UseCase} {typ : StageTyp}

/-- The seconds the first `p` letters take. A sleep of a negative duration
takes none. -/
def elapsed (N : ℕ) (uc : UseCase) : ℕ → ℤ
  | 0 => 0
  | p + 1 => elapsed N uc p +
      ((protocol N)[p]?).elim 0 fun typ => max 0 (uc.sleepDuration typ)

/-- The seconds a whole run of a new use case takes. -/
def spent (uc : UseCase) : ℤ :=
  max 0 (uc.initDurationMax - 1) + uc.plannedIterations + max 0 (uc.finishDurationMax - 1)

theorem elapsed_succ (htyp : (protocol N)[p]? = some typ) :
    elapsed N uc (p + 1) = elapsed N uc p + max 0 (uc.sleepDuration typ) := by
  simp [elapsed, htyp]

theorem elapsed_mono (hpq : p ≤ q) : elapsed N uc p ≤ elapsed N uc q := by
  induction q, hpq using Nat.le_induction with
  | base => exact le_rfl
  | succ q _ ih =>
    have hstep : 0 ≤ ((protocol N)[q]?).elim 0 fun typ => max 0 (uc.sleepDuration typ) := by
      cases (protocol N)[q]? with
      | none => exact le_rfl
      | some typ => exact le_max_left _ _
    simp only [elapsed]
    omega

/-- Each work iteration takes a second. -/
theorem elapsed_work (hslow : uc.workSlowly = false) (hiter : uc.iterDuration = 1) (hp : p ≤ N) :
    elapsed N uc (p + 1) = max 0 (uc.initDurationMax - 1) + p := by
  induction p with
  | zero =>
    rw [elapsed_succ protocol_zero]
    simp [elapsed, sleepDuration]
  | succ p ih =>
    have hsecond : uc.sleepDuration .witer = 1 := by simp [sleepDuration, hslow, hiter]
    rw [elapsed_succ (protocol_work (by omega) hp), ih (by omega), hsecond]
    omega

/-- **The whole script takes what is spent.** -/
theorem elapsed_eq_spent (hslow : uc.workSlowly = false) (hiter : uc.iterDuration = 1)
    (hN : uc.plannedIterations = N) : elapsed N uc (N + 2) = uc.spent := by
  rw [elapsed_succ protocol_finish, elapsed_work hslow hiter le_rfl, spent, hN]
  rfl

theorem sleepDuration_enterStage (uc : UseCase) (stage : Stage) :
    (uc.enterStage stage).2.sleepDuration typ = uc.sleepDuration typ := by
  rcases enterStage_cases uc stage with ⟨uc', -, hent, henter⟩ | henter
  · obtain ⟨-, iter, rfl, -⟩ := entered_cases hent
    rw [henter]
    cases typ <;> rfl
  · rw [henter]
    cases typ <;> rfl

theorem sleepDuration_quitStage (uc : UseCase) :
    uc.quitStage.sleepDuration typ = uc.sleepDuration typ := by
  obtain ⟨stage, complet, hquit⟩ := quitStage_eq uc
  rw [hquit]
  cases typ <;> rfl

end UseCase

open UseCase

theorem length_story {N p : ℕ} (hp : p ≤ N + 2) : (story N p).length = 2 * p := by
  induction p with
  | zero => rfl
  | succ p ih =>
    have hlt : p < (protocol N).length := by
      rw [length_protocol]
      omega
    rw [story_succ (List.getElem?_eq_getElem hlt), List.length_append, ih (by omega)]
    simp
    omega

namespace Config

variable {N p : ℕ} {c c' : Config} {a : Act} {uc₀ : UseCase} {typ : StageTyp}

/-- The nanoseconds `sleep_for` takes for a stage. -/
def sleepNanos (uc : UseCase) (typ : StageTyp) : ℕ := (max 0 (uc.sleepDuration typ) * nanos).toNat

/-- Whether time may pass: while `start` sleeps until `t_begin`, and while
it waits and its stage thread sleeps, up to the first of their deadlines. -/
def mayPass (c : Config) (d : ℕ) : Bool :=
  match c.pc, c.thread with
  | .sleepUntil, _ => c.clock + d ≤ c.session.tBegin
  | .wait _, some ⟨_, .sleeping (some wake), _, _⟩ =>
    c.clock + d ≤ wake ∧ c.clock + d ≤ c.session.tEnd
  | _, _ => false

theorem mayPass_iff {d : ℕ} : c.mayPass d = true ↔
    (c.pc = .sleepUntil ∧ c.clock + d ≤ c.session.tBegin) ∨
      ∃ typ th wake, c.pc = .wait typ ∧ c.thread = some th ∧ th.pc = .sleeping (some wake) ∧
        c.clock + d ≤ wake ∧ c.clock + d ≤ c.session.tEnd := by
  unfold mayPass
  constructor
  · intro h
    split at h
    · next hpc => exact Or.inl ⟨hpc, by simpa using h⟩
    · next hpc hth =>
      obtain ⟨hwake, hend⟩ : _ ∧ _ := by simpa using h
      exact Or.inr ⟨_, _, _, hpc, hth, rfl, hwake, hend⟩
    · cases h
  · rintro (⟨hpc, hle⟩ | ⟨typ, ⟨typ', pc, promise, req⟩, wake, hpc, hth, hsleep, hwake, hend⟩)
    · simpa [hpc] using hle
    · cases hsleep
      simpa [hpc, hth] using ⟨hwake, hend⟩

/-- **A step of the exact system**: time passes where the code sleeps or
waits, a stage takes what it sleeps, and nobody but `start` and its thread
does anything. -/
def Exact (c : Config) : Act → Prop
  | .stop | .other _ => False
  | .tick d => c.mayPass d = true
  | .enter d => d = c.thread.map fun th => sleepNanos c.useCase th.typ
  | .start | .go | .expire | .wake | .quit | .set | .cancel => True

instance decidableExact (c : Config) : (a : Act) → Decidable (Exact c a)
  | .stop | .other _ => isFalse id
  | .tick d => inferInstanceAs (Decidable (c.mayPass d = true))
  | .enter d => inferInstanceAs (Decidable (d = _))
  | .start | .go | .expire | .wake | .quit | .set | .cancel => isTrue trivial

theorem Exact.alone (h : Exact c a) : Alone c a := by
  rintro op rfl
  exact h

/-- The letters that are behind. -/
def behind (c : Config) : ℕ := c.log.length / 2

/-- The clock with `p` letters behind. -/
def onTime (uc₀ : UseCase) (N p : ℕ) (c : Config) : ℤ :=
  c.session.tBegin + elapsed N uc₀ p * nanos

/-- **The clock inside a stage**: up to the end of its sleep. -/
def ThreadTime (uc₀ : UseCase) (N p : ℕ) (c : Config) (th : StageThread) : Prop :=
  match th.pc with
  | .created => c.clock = onTime uc₀ N p c
  | .sleeping wake => wake = some (onTime uc₀ N (p + 1) c) ∧ c.clock ≤ onTime uc₀ N (p + 1) c
  | _ => c.clock = onTime uc₀ N (p + 1) c

/-- **The invariant of the exact clock**, as long as no wait gives up. -/
def Timed (uc₀ : UseCase) (N : ℕ) (c : Config) : Prop :=
  c.session.stopRequested = false ∧
  (∀ typ, c.useCase.sleepDuration typ = uc₀.sleepDuration typ) ∧
  match c.pc with
  | .idle | .sleepUntil => c.clock ≤ c.session.tBegin
  | .guard _ | .perform _ | .closing | .returned => c.clock = onTime uc₀ N c.behind c
  | .wait _ => ∃ th, c.thread = some th ∧ ThreadTime uc₀ N c.behind c th
  | .timedOut _ => False

theorem Between.behind (h : Between N p c) : c.behind = p := by
  rw [Config.behind, h.log, length_story h.rest.le]
  omega

theorem Inside.behind (h : Inside N p typ c) : c.behind = p := by
  obtain ⟨htyp, hlog, -⟩ := h
  have hlt := letter_cases htyp
  rw [Config.behind, hlog, List.length_append, length_story (by omega)]
  simp
  omega

/-- The letter's own time. -/
theorem onTime_succ (h : Inside N p typ c)
    (hplan : ∀ typ, c.useCase.sleepDuration typ = uc₀.sleepDuration typ) :
    onTime uc₀ N (p + 1) c = onTime uc₀ N p c + sleepNanos c.useCase typ := by
  have hpos : 0 ≤ max 0 (uc₀.sleepDuration typ) * nanos :=
    Int.mul_nonneg (le_max_left _ _) (by decide)
  rw [onTime, onTime, elapsed_succ h.1, sleepNanos, hplan typ, Int.toNat_of_nonneg hpos,
    Int.add_mul, Int.add_assoc]

theorem Timed.threadTime (h : Timed uc₀ N c) (hpc : c.pc = .wait typ) {th : StageThread}
    (hth : c.thread = some th) : ThreadTime uc₀ N c.behind c th := by
  obtain ⟨-, -, htime⟩ := h
  simp only [hpc] at htime
  obtain ⟨th', hth', htime⟩ := htime
  obtain rfl : th = th' := Option.some_inj.1 (hth.symm.trans hth')
  exact htime

/-- A step of the stage thread keeps the clock where it keeps the thread's
own time. -/
theorem Timed.update (h : Timed uc₀ N c) {th th' : StageThread} {uc : UseCase}
    (hth : c.thread = some th)
    (hplan : ∀ typ, uc.sleepDuration typ = c.useCase.sleepDuration typ)
    (hat : ∀ typ, c.pc = .wait typ → ThreadTime uc₀ N c.behind c th →
      ThreadTime uc₀ N c.behind c th') :
    Timed uc₀ N { c with useCase := uc, thread := some th' } := by
  have htimed := h
  obtain ⟨hstop, hplan₀, htime⟩ := h
  refine ⟨hstop, fun typ => (hplan typ).trans (hplan₀ typ), ?_⟩
  cases hpc : c.pc with
  | wait typ => exact ⟨th', rfl, hat typ hpc (htimed.threadTime hpc hth)⟩
  | timedOut typ => simp [hpc] at htime
  | idle | sleepUntil | guard g | perform typ | closing | returned =>
    simp only [hpc] at htime
    exact htime

/-- What a guard reads and a stage returns takes no time. -/
theorem Timed.stageReturns {v : Completion} {th : StageThread} (h : Timed uc₀ N c)
    (hin : Inside N p typ c) (hpc : c.pc = .wait typ) (hth : c.thread = some th)
    (hw : Waited typ th) (hpromise : th.promise = some v) :
    Timed uc₀ N (c.stageReturns typ v none) := by
  have hold := h.threadTime hpc hth
  obtain ⟨hstop, hplan, -⟩ := h
  have hafter := (hin.get hw hth hpromise).2
  simp only [ThreadTime, hw.finished hpromise, hin.behind] at hold
  have hclock : (c.stageReturns typ v none).clock =
      onTime uc₀ N (c.stageReturns typ v none).behind (c.stageReturns typ v none) := by
    rw [hafter.behind]
    exact hold
  cases typ <;> exact ⟨hstop, hplan, hclock⟩

/-- **Every exact step keeps the clock**, but for a wait that gives up. -/
theorem Timed.step (h : Timed uc₀ N c) (hsound : Sound c) (hjoint : Joint N c) (ha : Exact c a)
    (hexpire : a ≠ .expire) (hstep : Step c a c') : Timed uc₀ N c' := by
  have htimed := h
  obtain ⟨hstop, hplan, htime⟩ := h
  obtain ⟨hc, ht⟩ := hsound
  cases hstep with
  | startEarly hpc hready hclock =>
    simp only [hpc] at htime
    exact ⟨hstop, hplan, htime⟩
  | startLate hpc hready hclock | begin hpc hclock =>
    simp only [hpc, Joint] at htime hjoint
    have hclock' : c.clock = c.session.tBegin := by omega
    refine ⟨hstop, hplan, ?_⟩
    simp [running, onTime, Config.behind, hjoint.log, elapsed, hclock']
  | startNot hpc hready =>
    simp only [Control, hpc] at hc
    exact absurd hc.1 hready
  | pass hpc hpass =>
    simp only [hpc] at htime
    exact ⟨hstop, hplan, htime⟩
  | @skip g hpc hpass =>
    simp only [hpc] at htime
    cases g <;> exact ⟨hstop, hplan, htime⟩
  | @launch typ hpc =>
    simp only [hpc, Joint] at htime hjoint
    obtain ⟨p, hb, htyp⟩ := hjoint
    have hin : Inside N p typ { c with
        pc := .wait typ
        thread := some ⟨typ, .created, none, false⟩
        log := c.log ++ [.launch typ] } := ⟨htyp, by rw [hb.log], _, rfl, hb.rest⟩
    refine ⟨hstop, hplan, _, rfl, ?_⟩
    rw [hin.behind]
    rw [hb.behind] at htime
    exact htime
  | get hpc hth hpromise =>
    have hw := ht.waited (.inl hpc) hth
    simp only [hpc, Joint] at hjoint
    obtain ⟨p, hin⟩ := hjoint
    exact htimed.stageReturns hin hpc hth hw hpromise
  | kill hpc hth => simp [hpc] at htime
  | close hpc =>
    simp only [hpc] at htime
    exact ⟨hstop, hplan, htime⟩
  | expire hpc hth hpromise hclock => exact absurd rfl hexpire
  | stop | other op => exact absurd ha id
  | tick d =>
    -- time passes in one of the two sleeps, and not beyond its end
    refine ⟨hstop, hplan, ?_⟩
    rcases mayPass_iff.1 ha with ⟨hpc, hle⟩ | ⟨typ, th, wake, hpc, hth, hsleep, hle, -⟩
    · simp only [hpc]
      exact hle
    · have hold := htimed.threadTime hpc hth
      simp only [hpc]
      refine ⟨th, hth, ?_⟩
      simp only [ThreadTime, hsleep] at hold ⊢
      obtain ⟨hwake, -⟩ := hold
      obtain rfl := Option.some_inj.1 hwake
      exact ⟨rfl, hle⟩
  | @enter d th hth hpc =>
    refine htimed.update hth (fun typ => sleepDuration_enterStage _ _) fun typ hwait hold => ?_
    have hw := ht.waited (.inl hwait) hth
    simp only [hwait, Joint] at hjoint
    obtain ⟨p, hin⟩ := hjoint
    have hat := hin.threadAt hth
    have hletter : (protocol N)[p]? = some th.typ := hw.typ ▸ hin.1
    simp only [ThreadAt, hpc] at hat
    obtain ⟨uc', henter, -⟩ := hat.enterStage hletter
    have hd : d = some (sleepNanos c.useCase typ) := by
      simpa [Exact, hth, hw.typ] using ha
    have hnext := onTime_succ hin hplan
    simp only [ThreadTime, hpc, hin.behind] at hold
    simp only [henter, if_true, StageThread.sleep, hw.cancelRequested, hd, hin.behind]
    split
    · next hzero =>
      -- a stage without a sleep takes no time
      have hnone : sleepNanos c.useCase typ = 0 := Option.some_inj.1 hzero
      simp only [ThreadTime]
      omega
    · simp only [ThreadTime, if_false, Bool.false_eq_true, Option.map_some]
      exact ⟨by rw [hold, hnext], by omega⟩
  | wake hth hpc hclock =>
    refine htimed.update hth (fun typ => rfl) fun typ hwait hold => ?_
    simp only [ThreadTime, hpc] at hold ⊢
    obtain ⟨hwake, hle⟩ := hold
    obtain rfl := Option.some_inj.1 hwake
    omega
  | quit hth hpc =>
    refine htimed.update hth (fun typ => sleepDuration_quitStage _) fun typ hwait hold => ?_
    simpa only [ThreadTime, hpc] using hold
  | set hth hpc =>
    refine htimed.update hth (fun typ => rfl) fun typ hwait hold => ?_
    simpa only [ThreadTime, hpc] using hold
  | cancel hth hpc hreq =>
    refine htimed.update hth (fun typ => rfl) fun typ hwait hold => ?_
    simp [(ht.waited (.inl hwait) hth).cancelRequested] at hreq

/-- **A run that goes to plan**: the script, on time, and no timeout. -/
structure OnPlan (uc₀ : UseCase) (N : ℕ) (c : Config) : Prop where
  sound : Sound c
  joint : Joint N c
  timed : Timed uc₀ N c
  noTimeout : ∀ typ, .result typ .timeout ∉ c.log

theorem onPlan_ready {s : Session} {uc : UseCase} {now : ℤ} (hready : s.state = .ready)
    (hstop : s.stopRequested = false) (hrest : AtRest N 0 uc) (hnow : now ≤ s.tBegin) :
    OnPlan uc N (ready s uc now) :=
  ⟨sound_ready hready uc now, joint_ready hrest s now, ⟨hstop, fun _ => rfl, hnow⟩,
    fun typ => by simp [ready]⟩

theorem OnPlan.step (h : OnPlan uc₀ N c) (ha : Exact c a) (hexpire : a ≠ .expire)
    (hstep : Step c a c') : OnPlan uc₀ N c' := by
  obtain ⟨hsound, hjoint, htimed, hno⟩ := h
  refine ⟨hsound.step hstep.step, hjoint.step hsound.threaded ha.alone hstep,
    htimed.step hsound hjoint ha hexpire hstep, ?_⟩
  obtain ⟨-, ht⟩ := hsound
  cases hstep with
  | launch hpc => simpa using hno
  | get hpc hth hpromise =>
    have hw := ht.waited (.inl hpc) hth
    simp only [Joint, hpc] at hjoint
    obtain ⟨p, hin⟩ := hjoint
    obtain ⟨rfl, -⟩ := hin.get hw hth hpromise
    rcases restCompletion_eq N (p + 1) with hv | hv <;> simpa [stageReturns, hv] using hno
  | kill hpc hth =>
    obtain ⟨-, -, htime⟩ := htimed
    simp [hpc] at htime
  | _ => exact hno

/-- **A plan always goes on.** -/
theorem OnPlan.due (h : OnPlan uc₀ N c) (hpc : c.pc ≠ .returned) :
    sessionMachine.Due Exact sessionRoles c := by
  obtain ⟨⟨-, ht⟩, -, htimed, -⟩ := h
  have htime := htimed.2.2
  cases hpc' : c.pc with
  | idle | guard g | perform typ | closing =>
    exact (due_of_running trivial trivial (by simp [hpc'])).mono startRoles_sub
  | sleepUntil =>
    simp only [hpc'] at htime
    have hbegin : Step { c with clock := c.session.tBegin } .go _ := .begin hpc' le_rfl
    refine due_later c.session.tBegin htime ?_ rfl (hbegin.due trivial rfl)
    exact mayPass_iff.2 (.inl ⟨hpc', by omega⟩)
  | timedOut typ => simp [hpc'] at htime
  | returned => exact absurd hpc' hpc
  | wait typ =>
    simp only [Threaded, hpc'] at ht
    obtain ⟨th, hth, hw⟩ := ht
    have htime := htimed.threadTime hpc' hth
    cases hth' : th.pc with
    | created =>
      have hd : Exact c (.enter (some (sleepNanos c.useCase th.typ))) := by
        simp [Exact, hth]
      exact due_enter hth hth' _ hd
    | awake => exact (Step.quit hth hth').due trivial rfl
    | leaving => exact (Step.set hth hth').due trivial rfl
    | cancelled => exact absurd hth' hw.alive
    | finished =>
      have hsome : th.promise ≠ none := fun hnone => hw.promise.1 hnone hth'
      obtain ⟨v, hv⟩ := Option.ne_none_iff_exists'.1 hsome
      exact (Step.get hpc' hth hv).due trivial rfl
    | sleeping wake =>
      have hnone : th.promise = none := hw.promise.2 (by simp [hth'])
      simp only [ThreadTime, hth'] at htime
      obtain ⟨rfl, hle⟩ := htime
      -- time runs on to the first of the two deadlines
      rcases lt_or_ge c.clock c.session.tEnd with hbefore | hafter
      · rcases lt_or_ge c.session.tEnd (onTime uc₀ N (c.behind + 1) c) with hlate | hintime
        · have hexpire : Step { c with clock := c.session.tEnd } .expire _ :=
            .expire hpc' hth hnone le_rfl
          refine due_later c.session.tEnd hbefore.le ?_ rfl
            (hexpire.due trivial rfl)
          exact mayPass_iff.2 (.inr ⟨typ, th, _, hpc', hth, hth', by omega, by omega⟩)
        · have hwake : Step { c with clock := onTime uc₀ N (c.behind + 1) c } .wake _ :=
            .wake hth hth' le_rfl
          refine due_later _ hle ?_ rfl (hwake.due trivial rfl)
          exact mayPass_iff.2 (.inr ⟨typ, th, _, hpc', hth, hth', by omega, by omega⟩)
      · exact (Step.expire hpc' hth hnone hafter).due trivial rfl

/-- **What keeps every wait from giving up keeps every exact run on plan**,
and brings it to its end. -/
theorem OnPlan.run (P : Config → Prop)
    (hP : ∀ c a c', OnPlan uc₀ N c → P c → Exact c a → Step c a c' → P c')
    (hno : ∀ c c', OnPlan uc₀ N c → P c → ¬ Step c .expire c') (h : OnPlan uc₀ N c) (hc : P c) :
    (∀ as c', sessionMachine.Within Exact c as → sessionMachine.run c as = some c' →
      OnPlan uc₀ N c' ∧ P c') ∧
    sessionMachine.Ends Exact sessionRoles (·.pc = .returned) c := by
  have hI : ∀ c a c', OnPlan uc₀ N c ∧ P c → Exact c a → sessionMachine.step c a = some c' →
      OnPlan uc₀ N c' ∧ P c' := by
    intro c a c' h ha hs
    have hstep := Step.of_step hs
    have hexpire : a ≠ .expire := by
      rintro rfl
      exact hno c c' h.1 h.2 hstep
    exact ⟨h.1.step ha hexpire hstep, hP c a c' h.1 h.2 ha hstep⟩
  refine ⟨fun as c' hok hrun =>
    Machine.run_induction (fun c => OnPlan uc₀ N c ∧ P c) hI ⟨h, hc⟩ hok hrun, ?_⟩
  refine Machine.Ends.of_measure (fun c => OnPlan uc₀ N c ∧ P c) workLeft hI ?_ ?_ ⟨h, hc⟩
  · exact fun c a c' h _ hs => workLeft_step h.1.sound.threaded (.of_step hs)
  · exact fun c h hpc => h.1.due hpc

/-- Inside a stage the clock has not passed the stage's end. -/
theorem OnPlan.clock_le (h : OnPlan uc₀ N c) (hpc : c.pc = .wait typ) :
    c.clock ≤ c.session.tBegin + elapsed N uc₀ (N + 2) * nanos := by
  obtain ⟨-, hjoint, ⟨-, -, htime⟩, -⟩ := h
  simp only [Joint, hpc] at hjoint htime
  obtain ⟨p, hin⟩ := hjoint
  obtain ⟨th, hth, htime⟩ := htime
  have hletter := letter_cases hin.1
  have hle : ∀ q, q ≤ N + 2 → elapsed N uc₀ q * nanos ≤ elapsed N uc₀ (N + 2) * nanos :=
    fun q hq => Int.mul_le_mul_of_nonneg_right (elapsed_mono hq) (by decide)
  have hp := hle p (by omega)
  have hp' := hle (p + 1) (by omega)
  simp only [ThreadTime, hin.behind, onTime] at htime
  cases hth' : th.pc with
  | created =>
    simp only [hth'] at htime
    omega
  | sleeping wake =>
    simp only [hth'] at htime
    omega
  | awake | leaving | finished | cancelled =>
    simp only [hth'] at htime
    omega

/-- The finish is the last letter. -/
theorem eq_of_finish_mem_take (h : .finish ∈ (protocol N).take p) (hp : p ≤ N + 2) : p = N + 2 := by
  obtain ⟨q, hq⟩ := List.mem_iff_getElem?.1 h
  rw [List.getElem?_take] at hq
  split at hq
  · have hletter : q = N + 1 := by simpa using letter_cases hq
    omega
  · cases hq

/-- **A plan ends as it should**, when the whole script has taken its time. -/
theorem OnPlan.returned (h : OnPlan uc₀ N c) (hpc : c.pc = .returned) :
    c.session.state = .completed ∧ c.useCase.currentStage = .finished ∧
      c.useCase.currentCompletion = .completed ∧
      c.log ≠ [] ∧ c.clock = c.session.tBegin + elapsed N uc₀ (N + 2) * nanos := by
  obtain ⟨⟨hc, -⟩, hjoint, ⟨hstop, -, htime⟩, hno⟩ := h
  simp only [Control, Joint, hpc] at hc hjoint htime
  rcases hjoint with ⟨-, p, typ, -, hlog⟩ | ⟨p, hb⟩
  · exact absurd (show Event.result typ .timeout ∈ c.log by simp [hlog]) (hno typ)
  · rcases hc.2 with ⟨hstate, l, hlog, -⟩ | ⟨-, stop, hflag, hcomplet, -⟩
    · have hfin : .finish ∈ (protocol N).take p := by
        rw [← launches_story hb.rest.le, ← hb.log, hlog, launches_concat_result]
        simp
      obtain rfl := eq_of_finish_mem_take hfin hb.rest.le
      rw [hb.behind] at htime
      refine ⟨hstate, ?_, ?_, ?_, htime⟩
      · rw [hb.rest.stage, restStage_finished]
      · rw [hb.rest.completion, restCompletion_of_gt (by omega)]
      · simp [hlog]
    · -- no stop was called, so a guard would have had to see what is not fine
      have hfalse : stop = false := by
        cases stop with
        | false => rfl
        | true => simp [hflag rfl] at hstop
      obtain ⟨hunfine, hne⟩ := hcomplet hfalse
      have hpos : 0 < p := by
        rcases Nat.eq_zero_or_pos p with rfl | hpos
        · exact absurd hb.log hne
        · exact hpos
      rw [hb.complet hpos] at hunfine
      exact absurd (restCompletion_eq N p) hunfine

/-! ## Whether the reservation holds the run -/

/-- **A run that fits its reservation**: no stage times out, `start`
returns, `COMPLETED`, and the use case is finished. -/
def Fits (s : Session) (uc : UseCase) (now : ℤ) : Prop :=
  (∀ as c, sessionMachine.Within Exact (ready s uc now) as →
    sessionMachine.run (ready s uc now) as = some c →
    (∀ typ, .result typ .timeout ∉ c.log) ∧
    (c.pc = .returned → c.session.state = .completed ∧ c.useCase.currentStage = .finished ∧
      c.useCase.currentCompletion = .completed)) ∧
  sessionMachine.Ends Exact sessionRoles (·.pc = .returned) (ready s uc now)

/-- No exact run from here on has a timeout. -/
def NeverLate (c : Config) : Prop :=
  ∀ as c', sessionMachine.Within Exact c as → sessionMachine.run c as = some c' →
    ∀ typ, .result typ .timeout ∉ c'.log

theorem NeverLate.step (h : NeverLate c) (ha : Exact c a) (hstep : Step c a c') :
    NeverLate c' := by
  intro as c'' hok hrun
  refine h (a :: as) c'' ((Machine.within_cons hstep.step).2 ⟨ha, hok⟩) ?_
  rw [Machine.run_cons hstep.step, hrun]

/-- A wait that gives up is a timeout. -/
theorem NeverLate.not_expire (h : NeverLate c) : ¬ Step c .expire c' := by
  intro hexpire
  cases id hexpire with
  | @expire typ th hpc hth hpromise hclock =>
    have hkill : Step { c with pc := .timedOut typ } .go _ := .kill rfl hth
    have hok : sessionMachine.Within Exact c [.expire, .go] :=
      (Machine.within_cons hexpire.step).2 ⟨trivial,
        (Machine.within_cons hkill.step).2 ⟨trivial, Machine.within_nil⟩⟩
    have hrun := ((Machine.run_cons hexpire.step).trans (Machine.run_cons hkill.step)).trans
      Machine.run_nil
    exact h _ _ hok hrun typ (by simp [Config.stageReturns])

/-- **Where no exact run has a timeout the clock stays short of `t_end`**,
from the first launch on. -/
def InTime (c : Config) : Prop := NeverLate c ∧ (c.log ≠ [] → c.clock < c.session.tEnd)

theorem InTime.step (h : InTime c) (hplan : OnPlan uc₀ N c) (ha : Exact c a)
    (hstep : Step c a c') : InTime c' := by
  have hnever := h.1.step ha hstep
  -- past `t_end` a wait without a promise could give up
  have hwait : ∀ typ th, c'.pc = .wait typ → c'.thread = some th → th.promise = none →
      c'.clock < c'.session.tEnd := by
    intro typ th hpc hth hnone
    by_contra hlate
    exact hnever.not_expire (Step.expire hpc hth hnone (not_lt.1 hlate))
  refine ⟨hnever, fun hlog => ?_⟩
  obtain ⟨⟨hc, ht⟩, -, -, -⟩ := hplan
  cases hstep with
  | @launch typ hpc => exact hwait typ _ rfl rfl rfl
  | get hpc hth hpromise | kill hpc hth =>
    simp only [Control, hpc] at hc
    obtain ⟨-, l, hl, -⟩ := hc
    exact h.2 (by simp [hl])
  | tick d =>
    rcases mayPass_iff.1 ha with ⟨hpc, -⟩ | ⟨typ, th, wake, hpc, hth, hsleep, -, -⟩
    · simp only [Control, hpc] at hc
      exact absurd hc.1 hlog
    · have hw := ht.waited (.inl hpc) hth
      exact hwait typ th hpc hth (hw.promise.2 (by simp [hsleep]))
  | _ => exact h.2 hlog

/-- The reservation is the session's own. -/
theorem Step.reservation (hstep : Step c a c') :
    c'.session.tBegin = c.session.tBegin ∧ c'.session.tEnd = c.session.tEnd := by
  cases hstep <;> exact ⟨rfl, rfl⟩

theorem reservation_run {c₀ : Config} {as : List Act}
    (hrun : sessionMachine.run c₀ as = some c) :
    c.session.tBegin = c₀.session.tBegin ∧ c.session.tEnd = c₀.session.tEnd := by
  refine Machine.run_invariant
    (fun c => c.session.tBegin = c₀.session.tBegin ∧ c.session.tEnd = c₀.session.tEnd)
    (fun c a c' h hs => ?_) ⟨rfl, rfl⟩ hrun
  obtain ⟨hbegin, hend⟩ := (Step.of_step hs).reservation
  exact ⟨hbegin.trans h.1, hend.trans h.2⟩

/-- The reservation holds the whole script. -/
def Holds (uc₀ : UseCase) (N : ℕ) (c : Config) : Prop :=
  elapsed N uc₀ (N + 2) * nanos < c.session.tEnd - c.session.tBegin

theorem Holds.step (h : Holds uc₀ N c) (hstep : Step c a c') : Holds uc₀ N c' := by
  obtain ⟨hbegin, hend⟩ := hstep.reservation
  simpa only [Holds, hbegin, hend] using h

/-- And then no wait of it gives up. -/
theorem Holds.not_expire (h : Holds uc₀ N c) (hplan : OnPlan uc₀ N c) :
    ¬ Step c .expire c' := by
  intro hstep
  cases hstep with
  | expire hpc hth hpromise hclock =>
    have hle := hplan.clock_le hpc
    simp only [Holds] at h
    omega

/-- A new use case iterates no more than its declared work. -/
theorem plannedIterations_le {ucase : String} {initMax workMax finishMax : ℤ}
    (hwork : 0 ≤ workMax) :
    ((UseCase.new ucase initMax workMax finishMax).plannedIterations : ℤ) ≤
      max 1 (workMax - 1) := by
  have hnarrow : toInt32 (workMax - 1) ≤ max 0 (workMax - 1) := by
    rw [toInt32, Int.bmod_def]
    split <;> omega
  simp only [UseCase.plannedIterations, UseCase.new]
  omega

/-- **Where the admission test is enough**: short of 64 bits, for a declared
work of two seconds or more, and for less where enough of the other
durations is clipped. -/
theorem spent_lt_of_ready {ucase : String} {initMax workMax finishMax tBegin tEnd : ℤ}
    (hinit : 0 ≤ initMax) (hwork : 0 ≤ workMax) (hfinish : 0 ≤ finishMax)
    (hsum : initMax + workMax + finishMax < 2 ^ 63)
    (hready :
      (Session.new (.new ucase initMax workMax finishMax) tBegin tEnd).state = .ready)
    (hcase : 2 ≤ workMax ∨ (0 < initMax ∧ 0 < finishMax) ∨
      (1 ≤ workMax ∧ 0 < initMax + finishMax)) :
    (UseCase.new ucase initMax workMax finishMax).spent * nanos < tEnd - tBegin := by
  have hN : ((UseCase.new ucase initMax workMax finishMax).plannedIterations : ℤ) ≤
      max 1 (workMax - 1) := plannedIterations_le hwork
  have hadmit := (Session.new_ready_iff.1 hready).2
  have hexact : (UseCase.new ucase initMax workMax finishMax).getDurationMax =
      initMax + workMax + finishMax := by
    simp only [getDurationMax, UseCase.new, toInt64]
    rw [Int.bmod_eq_of_le] <;> omega
  have hless : (UseCase.new ucase initMax workMax finishMax).spent <
      initMax + workMax + finishMax := by
    simp only [spent]
    simp only [UseCase.new] at hN ⊢
    omega
  rw [hexact] at hadmit
  have hmul := Int.mul_lt_mul_of_pos_right hless (show 0 < nanos by decide)
  omega

/-- **A use case fits its reservation exactly where the time it really takes
is less than that.** For every new use case and every reservation that is
admitted: called by `t_begin` and never stopped, `start` has no stage time
out and completes, if and only if the clipped durations and the iterations
that are run add up to less than the reservation. -/
theorem fits_iff_spent (ucase : String) (initMax workMax finishMax tBegin tEnd : ℤ)
    (hready :
      (Session.new (.new ucase initMax workMax finishMax) tBegin tEnd).state = .ready) :
    (∀ now ≤ tBegin, Fits (.new (.new ucase initMax workMax finishMax) tBegin tEnd)
      (.new ucase initMax workMax finishMax) now) ↔
    (UseCase.new ucase initMax workMax finishMax).spent * nanos < tEnd - tBegin := by
  have hrest := atRest_new ucase initMax workMax finishMax
  generalize hN : (UseCase.new ucase initMax workMax finishMax).plannedIterations = N at hrest
  have hspent := elapsed_eq_spent rfl rfl hN
  constructor
  · intro hfits
    obtain ⟨hall, hends⟩ := hfits tBegin le_rfl
    obtain ⟨c, ⟨as, hok, hrun⟩, hreturned⟩ := hends.reaches
    have hplan := onPlan_ready hready rfl hrest (le_refl tBegin)
    have hinit : InTime (ready (.new (.new ucase initMax workMax finishMax) tBegin tEnd)
        (.new ucase initMax workMax finishMax) tBegin) :=
      ⟨fun as c hok hrun => (hall as c hok hrun).1, fun hlog => absurd rfl hlog⟩
    obtain ⟨hruns, -⟩ := hplan.run InTime (fun _ _ _ h hin ha hstep => hin.step h ha hstep)
      (fun _ _ _ hin => hin.1.not_expire) hinit
    obtain ⟨hon, hin⟩ := hruns as c hok hrun
    -- the run that completes has taken its time, and is still short of `t_end`
    obtain ⟨-, -, -, hlog, hclock⟩ := hon.returned hreturned
    obtain ⟨hbegin, hend⟩ := reservation_run hrun
    have hlt := hin.2 hlog
    rw [hclock, hspent, hbegin, hend] at hlt
    simp only [ready, Session.new] at hlt
    omega
  · intro hlt now hnow
    have hplan := onPlan_ready hready rfl hrest hnow
    have hinit : Holds (.new ucase initMax workMax finishMax) N
        (ready (.new (.new ucase initMax workMax finishMax) tBegin tEnd)
          (.new ucase initMax workMax finishMax) now) := by
      rw [Holds, hspent]
      exact hlt
    obtain ⟨hruns, hends⟩ := hplan.run (Holds _ N) (fun _ _ _ _ h _ hstep => h.step hstep)
      (fun _ _ hplan h => h.not_expire hplan) hinit
    refine ⟨fun as c hok hrun => ?_, hends⟩
    have hon := (hruns as c hok hrun).1
    refine ⟨hon.noTimeout, fun hpc => ?_⟩
    obtain ⟨hstate, hstage, hcompletion, -, -⟩ := hon.returned hpc
    exact ⟨hstate, hstage, hcompletion⟩

theorem fits_iff_spent_shortRun : Fits shortSession shortCase 0 := by
  have hready : shortSession.state = .ready := by decide
  exact (fits_iff_spent "uc_test" 2 2 2 0 (6 * nanos) hready).2 (by decide) 0 le_rfl

/-- A use case that declares no time at all. -/
def idleCase : UseCase := .new "uc_test" 0 0 0

/-- A session that admits it, in half a second. -/
def idleSession : Session := .new idleCase 0 500000000

/-- Its run: the one work iteration takes a second. -/
def idleRun : List Act :=
  [.start, .go, .go, .enter (some 0), .quit, .set, .go,
    .go, .go, .enter (some 1000000000), .tick 500000000, .expire, .go, .go, .go, .go]

/-- **A session that admits a use case kills it.** -/
theorem not_fits_idleRun :
    idleSession.state = .ready ∧
    sessionMachine.Within Exact (ready idleSession idleCase 0) idleRun ∧
    (∃ c, sessionMachine.run (ready idleSession idleCase 0) idleRun = some c ∧
      c.pc = .returned ∧ c.session.state = .killed ∧ .result .witer .timeout ∈ c.log) ∧
    ¬ Fits idleSession idleCase 0 := by
  have hok : sessionMachine.Within Exact (ready idleSession idleCase 0) idleRun := by decide
  refine ⟨by decide, hok, ⟨_, rfl, rfl, rfl, by decide⟩, fun hfits => ?_⟩
  exact (hfits.1 idleRun _ hok rfl).1 .witer (by decide)

end Config

end VireSandbox
