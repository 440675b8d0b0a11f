import VireSandbox.Session.Control
import VireSandbox.Session.Return
import VireSandbox.UseCase.Calls
/-!
# The session — alone with its use case

Where nobody else holds the use case, `start` and the use case read one
script together: between two stages `complet` is the completion of the
use case's position, and inside a stage the stage thread holds the use
case between that position and the next. `Joint` is this invariant, and
the log it leaves is the story of the script, cut anywhere or ended by a
timeout.
-/

namespace VireSandbox

open UseCase

/-- **The log of the first `p` letters**, each launched and returned. -/
def story (N : ℕ) : ℕ → List Event
  | 0 => []
  | p + 1 => story N p ++
      ((protocol N)[p]?).elim [] fun typ => [.launch typ, .result typ (restCompletion N (p + 1))]

variable {N p : ℕ} {typ : StageTyp} {v : Completion}

@[simp] theorem story_zero : story N 0 = [] := rfl

theorem story_succ (htyp : (protocol N)[p]? = some typ) :
    story N (p + 1) = story N p ++ [.launch typ, .result typ (restCompletion N (p + 1))] := by
  simp [story, htyp]

theorem launches_append (l l' : List Event) : launches (l ++ l') = launches l ++ launches l' :=
  List.filterMap_append

/-- The story launches the script. -/
theorem launches_story (hp : p ≤ N + 2) : launches (story N p) = (protocol N).take p := by
  induction p with
  | zero => simp
  | succ p ih =>
    have hlt : p < (protocol N).length := by
      rw [length_protocol]
      omega
    have htyp : (protocol N)[p]? = some (protocol N)[p] := List.getElem?_eq_getElem hlt
    rw [story_succ htyp, launches_append, ih (by omega), List.take_add_one, htyp]
    rfl

/-- A story is the start of every later one. -/
theorem story_isPrefix {q : ℕ} (hpq : p ≤ q) : story N p <+: story N q := by
  induction q, hpq using Nat.le_induction with
  | base => exact List.prefix_rfl
  | succ q _ ih => exact ih.trans (List.prefix_append _ _)

/-- Every stage of a story returned a completion of the script. -/
theorem result_story (h : Event.result typ v ∈ story N p) : v.Fine := by
  induction p with
  | zero => simp at h
  | succ p ih =>
    rcases List.mem_append.1 h with h | h
    · exact ih h
    · cases htyp : (protocol N)[p]? with
      | none => simp [htyp] at h
      | some typ' =>
        obtain ⟨-, rfl⟩ : typ = typ' ∧ v = restCompletion N (p + 1) := by simpa [htyp] using h
        exact restCompletion_eq N (p + 1)

/-- Nobody but the session touches the use case. -/
def Alone (_ : Config) (a : Act) : Prop := ∀ op, a ≠ .other op

theorem within_alone {c : Config} {as : List Act} (h : ∀ op, Act.other op ∉ as) :
    sessionMachine.Within Alone c as := by
  induction as generalizing c with
  | nil => trivial
  | cons a as ih =>
    have hne : ∀ op, a ≠ .other op := fun op ha => h op (by simp [ha])
    exact ⟨hne, fun _ _ => ih fun op hmem => h op (by simp [hmem])⟩

/-- **Where letter `p`'s stage thread holds the use case.** -/
def ThreadAt (N p : ℕ) (uc : UseCase) (th : StageThread) : Prop :=
  match th.pc with
  | .created => AtRest N p uc
  | .sleeping _ | .awake => InFlight N p uc
  | .leaving => AtRest N (p + 1) uc
  | .finished => AtRest N (p + 1) uc ∧ th.promise = some (restCompletion N (p + 1))
  | .cancelled => False

namespace Config

variable {c c' : Config} {a : Act}

/-- **Between two stages**, with `p` letters of the script behind. -/
structure Between (N p : ℕ) (c : Config) : Prop where
  log : c.log = story N p
  rest : AtRest N p c.useCase
  thread : c.thread = none
  complet : 0 < p → c.complet = restCompletion N p

/-- **Inside the stage of letter `p`**, a stage of type `typ`. -/
def Inside (N p : ℕ) (typ : StageTyp) (c : Config) : Prop :=
  (protocol N)[p]? = some typ ∧ c.log = story N p ++ [.launch typ] ∧
    ∃ th, c.thread = some th ∧ ThreadAt N p c.useCase th

theorem Inside.threadAt {th : StageThread} (h : Inside N p typ c) (hth : c.thread = some th) :
    ThreadAt N p c.useCase th := by
  obtain ⟨-, -, th', hth', hat⟩ := h
  obtain rfl : th = th' := Option.some_inj.1 (hth.symm.trans hth')
  exact hat

/-- **Past a timeout**, which is the end of the story. -/
def Killed (N : ℕ) (c : Config) : Prop :=
  c.complet = .timeout ∧ ∃ p typ, (protocol N)[p]? = some typ ∧
    c.log = story N p ++ [.launch typ, .result typ .timeout]

/-- **The joint invariant** of `start` and the use case it has alone. -/
def Joint (N : ℕ) (c : Config) : Prop :=
  match c.pc with
  | .idle | .sleepUntil | .guard .init => Between N 0 c
  | .guard g => Killed N c ∨ ∃ p, Between N p c ∧ p ≤ N + 1 ∧ (g = .work → p ≤ 1) ∧
      (p ≤ 1 → (g = .work ∧ p = 1) ∨ c.session.stopRequested = true)
  | .perform typ => ∃ p, Between N p c ∧ (protocol N)[p]? = some typ
  | .wait typ | .timedOut typ => ∃ p, Inside N p typ c
  | .closing | .returned => Killed N c ∨ ∃ p, Between N p c

/-- Neither the session, nor the clock, nor where `start` is moves the
position. -/
theorem Between.env (h : Between N p c) (s : Session) (now : ℤ) (pc : Pc) :
    Between N p { c with session := s, clock := now, pc := pc } :=
  ⟨h.log, h.rest, h.thread, h.complet⟩

theorem joint_ready {uc : UseCase} (h : AtRest N 0 uc) (s : Session) (now : ℤ) :
    Joint N (ready s uc now) :=
  ⟨rfl, h, rfl, fun h0 => absurd h0 (Nat.lt_irrefl 0)⟩

/-- A step of the stage thread keeps the invariant where it keeps the
thread's hold of the use case. -/
theorem Joint.update (h : Joint N c) (ht : Threaded c) {th th' : StageThread} {uc : UseCase}
    (hth : c.thread = some th)
    (hat : ∀ p, (protocol N)[p]? = some th.typ → Waited th.typ th →
      ThreadAt N p c.useCase th → ThreadAt N p uc th') :
    Joint N { c with useCase := uc, thread := some th' } := by
  -- between two stages there is no thread to move
  have hnone : ∀ p, ¬ Between N p c := fun p hb => by simp [hb.thread] at hth
  have hinside : ∀ typ, Waited typ th → (∃ p, Inside N p typ c) →
      ∃ p, Inside N p typ { c with useCase := uc, thread := some th' } := by
    rintro typ hw ⟨p, hin⟩
    obtain rfl : th.typ = typ := hw.typ
    exact ⟨p, hin.1, hin.2.1, th', rfl, hat p hin.1 hw (hin.threadAt hth)⟩
  unfold Joint at h ⊢
  cases hpc : c.pc with
  | idle | sleepUntil =>
    simp only [hpc] at h
    exact absurd h (hnone 0)
  | perform typ =>
    simp only [hpc] at h
    obtain ⟨p, hb, -⟩ := h
    exact absurd hb (hnone p)
  | guard g =>
    cases g with
    | init =>
      simp only [hpc] at h
      exact absurd h (hnone 0)
    | work | loop | finish =>
      simp only [hpc] at h ⊢
      rcases h with hk | ⟨p, hb, -⟩
      · exact Or.inl hk
      · exact absurd hb (hnone p)
  | closing | returned =>
    simp only [hpc] at h ⊢
    rcases h with hk | ⟨p, hb⟩
    · exact Or.inl hk
    · exact absurd hb (hnone p)
  | wait typ | timedOut typ =>
    have hw : Waited typ th := ht.waited (by simp [hpc]) hth
    simp only [hpc] at h ⊢
    exact hinside typ hw h

/-- **A guard that passes protects the script's next letter.** -/
theorem Joint.pass {g : Guard} (h : Joint N c) (hpc : c.pc = .guard g)
    (hpass : g.passes c.session.stopRequested c.complet = true) :
    ∃ p, Between N p c ∧ (protocol N)[p]? = some g.typ := by
  obtain ⟨hstop, hneeds⟩ := Guard.passes_eq_true.1 hpass
  unfold Joint at h
  cases g with
  | init =>
    simp only [hpc] at h
    exact ⟨0, h, protocol_zero⟩
  | work =>
    simp only [hpc] at h
    have hcomplet := hneeds _ rfl
    rcases h with ⟨htimeout, -⟩ | ⟨p, hb, hle, hwork, hone⟩
    · simp [htimeout] at hcomplet
    · -- no stop was seen, so the initialisation is the one letter behind
      have hp : p = 1 := by simpa [hstop] using hone (hwork trivial)
      have hN := plannedIterations_eq_iff.1 hb.rest.planned
      exact ⟨p, hb, protocol_work (by omega) (by omega)⟩
  | loop =>
    simp only [hpc] at h
    have hcomplet := hneeds _ rfl
    rcases h with ⟨htimeout, -⟩ | ⟨p, hb, hle, -, hone⟩
    · simp [htimeout] at hcomplet
    · have hp : 2 ≤ p := by
        by_contra hlt
        simpa [hstop] using hone (by omega)
      -- past the last iteration `complet` would be `COMPLETED`
      have hwork : p ≤ N := by
        by_contra hgt
        rw [hb.complet (by omega), restCompletion_of_gt (by omega)] at hcomplet
        cases hcomplet
      exact ⟨p, hb, protocol_work (by omega) hwork⟩
  | finish =>
    simp only [hpc] at h
    have hcomplet := hneeds _ rfl
    rcases h with ⟨htimeout, -⟩ | ⟨p, hb, hle, -, hone⟩
    · simp [htimeout] at hcomplet
    · have hp : 2 ≤ p := by
        by_contra hlt
        simpa [hstop] using hone (by omega)
      -- and before it, `TO_BE_CONTINUED`
      have hlast : p = N + 1 := by
        by_contra hne
        rw [hb.complet (by omega), restCompletion_work hp (by omega)] at hcomplet
        cases hcomplet
      exact ⟨p, hb, hlast ▸ protocol_finish⟩

/-- A guard that does not pass leaves the position where it is. -/
theorem Joint.skip {g : Guard} (h : Joint N c) (hpc : c.pc = .guard g)
    (hpass : g.passes c.session.stopRequested c.complet = false) :
    Joint N { c with pc := g.next } := by
  have hwhy := Guard.passes_eq_false.1 hpass
  unfold Joint at h
  cases g with
  | init =>
    simp only [hpc] at h
    have hstop : c.session.stopRequested = true := by simpa [Guard.needs] using hwhy
    exact Or.inr ⟨0, h.env _ _ _, by omega, by omega,
      fun _ => Or.inr hstop⟩
  | work =>
    simp only [hpc] at h
    rcases h with hk | ⟨p, hb, hle, hwork, hone⟩
    · exact Or.inl hk
    · refine Or.inr ⟨p, hb.env _ _ _, hle, by simp, fun hp => ?_⟩
      rcases hone hp with ⟨-, rfl⟩ | hstop
      · -- the initialisation was completed, so the guard has seen a stop
        have hcomplet := hb.complet (by omega)
        rcases hwhy with hs | ⟨w, hw, hne⟩
        · exact Or.inr hs
        · cases hw
          exact absurd hcomplet hne
      · exact Or.inr hstop
  | loop =>
    simp only [hpc] at h
    rcases h with hk | ⟨p, hb, hle, -, hone⟩
    · exact Or.inl hk
    · exact Or.inr ⟨p, hb.env _ _ _, hle, by simp,
        fun hp => Or.inr (by simpa using hone hp)⟩
  | finish =>
    simp only [hpc] at h
    rcases h with hk | ⟨p, hb, -⟩
    · exact Or.inl hk
    · exact Or.inr ⟨p, hb.env _ _ _⟩

/-- **The letter's completion is the one its thread hands over**, and with
it the position moves on. -/
theorem Inside.get {th : StageThread} (h : Inside N p typ c) (hw : Waited typ th)
    (hth : c.thread = some th) (hpromise : th.promise = some v) :
    v = restCompletion N (p + 1) ∧ Between N (p + 1) (c.stageReturns typ v none) := by
  have hat := h.threadAt hth
  obtain ⟨htyp, hlog, -⟩ := h
  simp only [ThreadAt, hw.finished hpromise] at hat
  obtain rfl : v = restCompletion N (p + 1) := Option.some_inj.1 (hpromise ▸ hat.2)
  refine ⟨rfl, ?_, hat.1, rfl, fun _ => rfl⟩
  simp [stageReturns, hlog, story_succ htyp]

/-- What follows a stage, by what it returned. -/
theorem joint_after {thread : Option StageThread}
    (h : Killed N (c.stageReturns typ v thread) ∨
      ∃ q, (protocol N)[q]? = some typ ∧ Between N (q + 1) (c.stageReturns typ v thread)) :
    Joint N (c.stageReturns typ v thread) := by
  cases typ with
  | init =>
    refine h.imp id ?_
    rintro ⟨q, htyp, hb⟩
    rcases letter_cases htyp with ⟨rfl, -⟩ | ⟨-, -, hne⟩ | ⟨-, hne⟩
    · exact ⟨1, hb, by omega, fun _ => le_rfl, fun _ => Or.inl ⟨rfl, rfl⟩⟩
    · cases hne
    · cases hne
  | witer =>
    refine h.imp id ?_
    rintro ⟨q, htyp, hb⟩
    rcases letter_cases htyp with ⟨-, hne⟩ | ⟨hq, hqN, -⟩ | ⟨-, hne⟩
    · cases hne
    · exact ⟨q + 1, hb, by omega, by simp, by omega⟩
    · cases hne
  | finish =>
    refine h.imp id ?_
    rintro ⟨q, -, hb⟩
    exact ⟨q + 1, hb⟩

/-- The invariant does not look at the clock, and a stop can only be
seen later. -/
theorem Joint.env (h : Joint N c) {s : Session} (now : ℤ)
    (hs : c.session.stopRequested = true → s.stopRequested = true) :
    Joint N { c with session := s, clock := now } := by
  unfold Joint at h ⊢
  cases hpc : c.pc with
  | idle | sleepUntil =>
    simp only [hpc] at h ⊢
    exact h.env _ _ _
  | guard g =>
    cases g with
    | init =>
      simp only [hpc] at h ⊢
      exact h.env _ _ _
    | work | loop | finish =>
      simp only [hpc] at h ⊢
      refine h.imp id ?_
      rintro ⟨p, hb, hle, hwork, hone⟩
      exact ⟨p, hb.env _ _ _, hle, hwork, fun hp => (hone hp).imp id hs⟩
  | perform typ =>
    simp only [hpc] at h ⊢
    obtain ⟨p, hb, htyp⟩ := h
    exact ⟨p, hb.env _ _ _, htyp⟩
  | wait typ | timedOut typ =>
    simp only [hpc] at h ⊢
    exact h
  | closing | returned =>
    simp only [hpc] at h ⊢
    refine h.imp id ?_
    rintro ⟨p, hb⟩
    exact ⟨p, hb.env _ _ _⟩

/-- **Every step keeps the joint invariant**, as long as nobody else has
the use case. -/
theorem Joint.step (h : Joint N c) (ht : Threaded c) (ha : Alone c a)
    (hstep : Step c a c') : Joint N c' := by
  cases hstep with
  | startEarly hpc hready hclock | startLate hpc hready hclock | begin hpc hclock =>
    simp only [Joint, hpc] at h
    exact h.env _ _ _
  | startNot hpc hready =>
    simp only [Joint, hpc] at h
    exact Or.inr ⟨0, h.env _ _ _⟩
  | pass hpc hpass =>
    obtain ⟨p, hb, htyp⟩ := h.pass hpc hpass
    exact ⟨p, hb.env _ _ _, htyp⟩
  | skip hpc hpass => exact h.skip hpc hpass
  | launch hpc =>
    simp only [Joint, hpc] at h
    obtain ⟨p, hb, htyp⟩ := h
    exact ⟨p, htyp, by rw [hb.log], _, rfl, hb.rest⟩
  | get hpc hth hpromise =>
    have hw := ht.waited (.inl hpc) hth
    simp only [Joint, hpc] at h
    obtain ⟨p, hin⟩ := h
    exact joint_after (Or.inr ⟨p, hin.1, (hin.get hw hth hpromise).2⟩)
  | kill hpc hth =>
    simp only [Joint, hpc] at h
    obtain ⟨p, htyp, hlog, -⟩ := h
    exact joint_after (Or.inl ⟨rfl, p, _, htyp, by simp [stageReturns, hlog]⟩)
  | close hpc =>
    simp only [Joint, hpc] at h
    rcases h with hk | ⟨p, hb⟩
    · exact Or.inl hk
    · exact Or.inr ⟨p, hb.env _ _ _⟩
  | expire hpc hth hpromise hclock =>
    simp only [Joint, hpc] at h
    exact h
  | stop => exact h.env c.clock fun _ => rfl
  | tick d => exact h.env _ id
  | enter hth hpc =>
    refine h.update ht hth fun p htyp hw hat => ?_
    simp only [ThreadAt, hpc] at hat
    obtain ⟨uc', henter, hfl⟩ := hat.enterStage htyp
    simp only [henter, if_true]
    unfold StageThread.sleep
    split
    · exact hfl
    · rw [if_neg (by simp [hw.cancelRequested])]
      exact hfl
  | wake hth hpc hclock =>
    refine h.update ht hth fun p htyp hw hat => ?_
    simp only [ThreadAt, hpc] at hat
    exact hat
  | quit hth hpc =>
    refine h.update ht hth fun p htyp hw hat => ?_
    simp only [ThreadAt, hpc] at hat
    exact hat.quitStage
  | set hth hpc =>
    refine h.update ht hth fun p htyp hw hat => ?_
    simp only [ThreadAt, hpc] at hat
    exact ⟨hat, congrArg some hat.completion⟩
  | cancel hth hpc hreq =>
    refine h.update ht hth fun p htyp hw hat => ?_
    simp [hw.cancelRequested] at hreq
  | other op => exact absurd rfl (ha op)

/-! ## The log of a run -/

/-- **The shapes of the log**: a story, a story with a stage under way, or
one whose last stage was killed. -/
theorem Joint.log (h : Joint N c) :
    ∃ p ≤ N + 2, c.log = story N p ∨ ∃ typ, (protocol N)[p]? = some typ ∧
      (c.log = story N p ++ [.launch typ] ∨
        c.log = story N p ++ [.launch typ, .result typ .timeout]) := by
  have hbetween : ∀ p, Between N p c → ∃ p ≤ N + 2, c.log = story N p ∨
      ∃ typ, (protocol N)[p]? = some typ ∧ (c.log = story N p ++ [.launch typ] ∨
        c.log = story N p ++ [.launch typ, .result typ .timeout]) :=
    fun p hb => ⟨p, hb.rest.le, Or.inl hb.log⟩
  have hletter : ∀ p typ, (protocol N)[p]? = some typ → p ≤ N + 2 := by
    intro p typ htyp
    have := letter_cases htyp
    omega
  unfold Joint at h
  cases hpc : c.pc with
  | idle | sleepUntil =>
    simp only [hpc] at h
    exact hbetween 0 h
  | guard g =>
    cases g with
    | init =>
      simp only [hpc] at h
      exact hbetween 0 h
    | work | loop | finish =>
      simp only [hpc] at h
      rcases h with ⟨-, p, typ, htyp, hlog⟩ | ⟨p, hb, -⟩
      · exact ⟨p, hletter p typ htyp, Or.inr ⟨typ, htyp, Or.inr hlog⟩⟩
      · exact hbetween p hb
  | perform typ =>
    simp only [hpc] at h
    obtain ⟨p, hb, -⟩ := h
    exact hbetween p hb
  | wait typ | timedOut typ =>
    simp only [hpc] at h
    obtain ⟨p, htyp, hlog, -⟩ := h
    exact ⟨p, hletter p typ htyp, Or.inr ⟨typ, htyp, Or.inl hlog⟩⟩
  | closing | returned =>
    simp only [hpc] at h
    rcases h with ⟨-, p, typ, htyp, hlog⟩ | ⟨p, hb⟩
    · exact ⟨p, hletter p typ htyp, Or.inr ⟨typ, htyp, Or.inr hlog⟩⟩
    · exact hbetween p hb

/-- What a run alone keeps, with the bookkeeping of its threads. -/
theorem joint_run {uc : UseCase} (h : AtRest N 0 uc) {s : Session} {now : ℤ} {as : List Act}
    (hok : sessionMachine.Within Alone (ready s uc now) as)
    (hrun : sessionMachine.run (ready s uc now) as = some c) : Joint N c ∧ Threaded c := by
  have hstep : ∀ c a c', Joint N c ∧ Threaded c → Alone c a → sessionMachine.step c a = some c' →
      Joint N c' ∧ Threaded c' := fun c a c' hI ha hs =>
    ⟨hI.1.step hI.2 ha (.of_step hs), hI.2.step (.of_step hs)⟩
  exact Machine.run_induction (fun c => Joint N c ∧ Threaded c) hstep ⟨joint_ready h s now, rfl⟩
    hok hrun

/-- **What the shapes of the log say**: the script is launched in order,
no stage is in error, and a timeout is the end. -/
theorem Joint.shape (h : Joint N c) :
    launches c.log <+: protocol N ∧ (∀ typ, .result typ .error ∉ c.log) ∧
      (c.log <+: story N (N + 2) ∨ ∃ p typ, (protocol N)[p]? = some typ ∧
        c.log = story N p ++ [.launch typ, .result typ .timeout]) := by
  have herror : ∀ p typ, Event.result typ .error ∉ story N p := fun p typ hmem => by
    simpa [Completion.Fine] using result_story hmem
  have htake : ∀ p typ, p ≤ N + 2 → (protocol N)[p]? = some typ →
      launches (story N p) ++ [typ] = (protocol N).take (p + 1) := by
    intro p typ hp htyp
    rw [launches_story hp, List.take_add_one, htyp]
    rfl
  obtain ⟨p, hp, hlog | ⟨typ, htyp, hlog | hlog⟩⟩ := h.log
  · rw [hlog, launches_story hp]
    exact ⟨List.take_prefix _ _, herror p, Or.inl (story_isPrefix hp)⟩
  · rw [hlog, launches_concat_launch, htake p typ hp htyp]
    refine ⟨List.take_prefix _ _, fun typ' => by simpa using herror p typ', Or.inl ?_⟩
    have hlt := letter_cases htyp
    have hsucc : story N p ++ [.launch typ] <+: story N (p + 1) := by
      rw [story_succ htyp]
      exact ⟨[.result typ (restCompletion N (p + 1))], by simp⟩
    exact hsucc.trans (story_isPrefix (by omega))
  · have hlaunches : launches c.log = (protocol N).take (p + 1) := by
      rw [hlog, launches_append, ← htake p typ hp htyp]
      rfl
    rw [hlaunches, hlog]
    exact ⟨List.take_prefix _ _, fun typ' => by simpa using herror p typ',
      Or.inr ⟨p, typ, htyp, rfl⟩⟩

/-- **A session alone with a new use case launches its script.** In every
run the launches are a prefix of the script and no stage returns an error;
what each stage returned is the completion of its position, `COMPLETED`
for the initialisation and for the last work iteration and
`TO_BE_CONTINUED` for those before it, and a timeout is the end. -/
theorem launches_protocol (ucase : String) (initMax workMax finishMax tBegin tEnd now : ℤ)
    (as : List Act) (c : Config) :
    let uc : UseCase := .new ucase initMax workMax finishMax
    let N := uc.plannedIterations
    sessionMachine.Within Alone (ready (.new uc tBegin tEnd) uc now) as →
    sessionMachine.run (ready (.new uc tBegin tEnd) uc now) as = some c →
    launches c.log <+: protocol N ∧
    (∀ typ, .result typ .error ∉ c.log) ∧
    (c.log <+: story N (N + 2) ∨
      ∃ p typ, (protocol N)[p]? = some typ ∧
        c.log = story N p ++ [.launch typ, .result typ .timeout]) := by
  intro uc N hok hrun
  have hnew := atRest_new ucase initMax workMax finishMax
  exact (joint_run hnew hok hrun).1.shape

theorem launches_protocol_shortRun :
    ∃ c, sessionMachine.run (ready shortSession shortCase 0) shortRun = some c ∧
      launches c.log <+: protocol 1 ∧ (∀ typ, .result typ .error ∉ c.log) ∧
      (c.log <+: story 1 3 ∨ ∃ p typ, (protocol 1)[p]? = some typ ∧
        c.log = story 1 p ++ [.launch typ, .result typ .timeout]) :=
  ⟨_, rfl, launches_protocol "uc_test" 2 2 2 0 (6 * nanos) 0 shortRun _
    (within_alone fun op => by simp [shortRun, performed]) rfl⟩

end Config

end VireSandbox
