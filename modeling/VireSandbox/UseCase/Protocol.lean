import VireSandbox.Common.Script
import VireSandbox.UseCase.Model
/-!
# The use case — the order of calls it admits

Seen from its callers a use case is the reader of one script: the
initialisation, its planned work iterations, the finish. `AtRest p` is
the use case between two calls with `p` letters of the script read,
`InFlight p` the use case inside the call of letter `p`, and
`enterStage`, `quitStage` move between the two. A call out of turn puts
it in error, where it stays.
-/

namespace VireSandbox

namespace UseCase

variable {N p : ℕ} {uc uc' : UseCase} {typ : StageTyp} {stage : Stage}

/-- The positions between two calls. -/
theorem position_cases (h : p ≤ N + 2) :
    p = 0 ∨ p = 1 ∨ (2 ≤ p ∧ p ≤ N) ∨ p = N + 1 ∨ p = N + 2 := by
  omega

/-- The positions of the letters. -/
theorem flight_cases (h : p < N + 2) : p = 0 ∨ (1 ≤ p ∧ p ≤ N) ∨ p = N + 1 := by
  omega

/-- **The script of a use case** planned for `N` iterations. -/
def protocol (N : ℕ) : List StageTyp := .init :: (List.replicate N .witer ++ [.finish])

@[simp] theorem length_protocol (N : ℕ) : (protocol N).length = N + 2 := by
  simp [protocol]

theorem protocol_zero : (protocol N)[0]? = some .init := rfl

theorem protocol_work (hp : 1 ≤ p) (hpN : p ≤ N) : (protocol N)[p]? = some .witer := by
  obtain ⟨q, rfl⟩ : ∃ q, p = q + 1 := ⟨p - 1, by omega⟩
  rw [protocol, List.getElem?_cons_succ, List.getElem?_append_left
    (by rw [List.length_replicate]; omega)]
  exact List.getElem?_replicate_of_lt hpN

theorem protocol_finish : (protocol N)[N + 1]? = some .finish := by
  rw [protocol, List.getElem?_cons_succ, List.getElem?_append_right (by simp)]
  simp

/-- **Where a letter stands in the script.** -/
theorem letter_cases (h : (protocol N)[p]? = some typ) :
    (p = 0 ∧ typ = .init) ∨ (1 ≤ p ∧ p ≤ N ∧ typ = .witer) ∨ (p = N + 1 ∧ typ = .finish) := by
  have hlt : p < N + 2 := by
    have := (List.getElem?_eq_some_iff.1 h).1
    simpa using this
  rcases flight_cases hlt with rfl | ⟨hp, hpN⟩ | rfl
  · rw [protocol_zero, Option.some_inj] at h
    exact Or.inl ⟨rfl, h.symm⟩
  · rw [protocol_work hp hpN, Option.some_inj] at h
    exact Or.inr (Or.inl ⟨hp, hpN, h.symm⟩)
  · rw [protocol_finish, Option.some_inj] at h
    exact Or.inr (Or.inr ⟨rfl, h.symm⟩)

/-- The planned iterations as the field gives them. -/
theorem plannedIterations_eq_iff :
    uc.plannedIterations = N ↔ (N : ℤ) = max 1 uc.nbIterations := by
  unfold plannedIterations
  omega

/-! ## The states between and inside calls -/

/-- The stage with `p` letters read. -/
def restStage (N p : ℕ) : Stage :=
  if p = 0 then .new
  else if p = 1 then .initialized
  else if p ≤ N then .working
  else if p = N + 1 then .worked
  else .finished

/-- The completion with `p` letters read: to be continued between two
work iterations. -/
def restCompletion (N p : ℕ) : Completion :=
  if 2 ≤ p ∧ p ≤ N then .toBeContinued else .completed

/-- The work iterations among the first `p` letters. -/
def restIter (N p : ℕ) : ℕ := min (p - 1) N

/-- The stage letter `p` is performed in. -/
def flightStage (N p : ℕ) : Stage :=
  if p = 0 then .initializing else if p ≤ N then .working else .finishing

/-- **Between two calls**, with the first `p` letters of the script read. -/
structure AtRest (N p : ℕ) (uc : UseCase) : Prop where
  le : p ≤ N + 2
  planned : uc.plannedIterations = N
  stage : uc.currentStage = restStage N p
  completion : uc.currentCompletion = restCompletion N p
  iter : uc.currentWorkIter = restIter N p

/-- **Inside the call** of letter `p`. -/
structure InFlight (N p : ℕ) (uc : UseCase) : Prop where
  lt : p < N + 2
  planned : uc.plannedIterations = N
  stage : uc.currentStage = flightStage N p
  completion : uc.currentCompletion = .toBeContinued
  iter : uc.currentWorkIter = restIter N (p + 1)

theorem restStage_zero : restStage N 0 = .new := rfl

theorem restStage_one : restStage N 1 = .initialized := rfl

theorem restStage_work (hp : 2 ≤ p) (hpN : p ≤ N) : restStage N p = .working := by
  rw [restStage, if_neg (by omega), if_neg (by omega), if_pos hpN]

theorem restStage_worked (hN : 1 ≤ N) : restStage N (N + 1) = .worked := by
  rw [restStage, if_neg (by omega), if_neg (by omega), if_neg (by omega), if_pos rfl]

theorem restStage_finished : restStage N (N + 2) = .finished := by
  rw [restStage, if_neg (by omega), if_neg (by omega), if_neg (by omega), if_neg (by omega)]

theorem flightStage_zero : flightStage N 0 = .initializing := rfl

theorem flightStage_work (hp : 1 ≤ p) (hpN : p ≤ N) : flightStage N p = .working := by
  rw [flightStage, if_neg (by omega), if_pos hpN]

theorem flightStage_finish : flightStage N (N + 1) = .finishing := by
  rw [flightStage, if_neg (by omega), if_neg (by omega)]

theorem restCompletion_work (hp : 2 ≤ p) (hpN : p ≤ N) :
    restCompletion N p = .toBeContinued := if_pos ⟨hp, hpN⟩

theorem restCompletion_of_gt (hp : N < p) : restCompletion N p = .completed :=
  if_neg (by omega)

theorem restCompletion_eq (N p : ℕ) :
    restCompletion N p = .toBeContinued ∨ restCompletion N p = .completed := by
  unfold restCompletion
  split <;> simp

/-- A new use case has read nothing. -/
theorem atRest_new (ucase : String) (initMax workMax finishMax : ℤ) :
    AtRest (new ucase initMax workMax finishMax).plannedIterations 0
      (new ucase initMax workMax finishMax) :=
  ⟨by omega, rfl, rfl, by simp [new, restCompletion], rfl⟩

theorem AtRest.outOfService (h : AtRest N p uc) : uc.outOfService = false := by
  rcases restCompletion_eq N p with hc | hc <;>
    simp [UseCase.outOfService, h.completion, hc]

theorem InFlight.outOfService (h : InFlight N p uc) : uc.outOfService = false := by
  simp [UseCase.outOfService, h.completion]

/-! ## What a stage function can do -/

/-- **Entering is taking the switch or falling into error.** -/
theorem enterStage_cases (uc : UseCase) (stage : Stage) :
    (∃ uc', uc.outOfService = false ∧ uc.entered stage = some uc' ∧
        uc.enterStage stage = (true, uc')) ∨
      uc.enterStage stage = (false, { uc with currentCompletion := .error }) := by
  unfold enterStage
  cases hout : uc.outOfService with
  | true => exact Or.inr rfl
  | false =>
    cases hent : uc.entered stage with
    | none => exact Or.inr rfl
    | some uc' => exact Or.inl ⟨uc', rfl, rfl, rfl⟩

theorem enterStage_of_entered (hout : uc.outOfService = false)
    (hent : uc.entered stage = some uc') : uc.enterStage stage = (true, uc') := by
  simp [enterStage, hout, hent]

theorem enterStage_of_refused (h : uc.outOfService = true ∨ uc.entered stage = none) :
    uc.enterStage stage = (false, { uc with currentCompletion := .error }) := by
  rcases h with h | h
  · simp [enterStage, h]
  · cases hout : uc.outOfService <;> simp [enterStage, hout, h]

/-- **What entering changes**: the stage becomes the one asked for, and a
work iteration is counted, within the planned number of them. -/
theorem entered_cases (h : uc.entered stage = some uc') :
    stage ≠ .new ∧ ∃ iter,
      uc' = { uc with
        currentStage := stage
        currentCompletion := .toBeContinued
        currentWorkIter := iter } ∧
      ((stage ≠ .working ∧ iter = uc.currentWorkIter) ∨
        (stage = .working ∧ iter = uc.currentWorkIter + 1 ∧ iter ≤ max 1 uc.nbIterations)) := by
  unfold entered at h
  split at h
  · split at h <;> cases h
    exact ⟨by simp, _, rfl, .inl ⟨by simp, rfl⟩⟩
  · split at h <;> cases h
    next hguard => exact ⟨by simp, _, rfl, .inr ⟨rfl, rfl, by omega⟩⟩
  · split at h <;> cases h
    exact ⟨by simp, _, rfl, .inl ⟨by simp, rfl⟩⟩
  · cases h

/-- **Quitting changes the stage and the completion alone.** -/
theorem quitStage_eq (uc : UseCase) : ∃ stage complet,
    uc.quitStage = { uc with currentStage := stage, currentCompletion := complet } := by
  unfold UseCase.quitStage
  split
  · exact ⟨_, _, rfl⟩
  · split
    · exact ⟨_, _, rfl⟩
    · split <;> exact ⟨_, _, rfl⟩
    · exact ⟨_, _, rfl⟩
    · exact ⟨_, _, rfl⟩

/-- **The script's next letter is entered.** -/
theorem AtRest.enterStage (h : AtRest N p uc) (htyp : (protocol N)[p]? = some typ) :
    ∃ uc', uc.enterStage typ.target = (true, uc') ∧ InFlight N p uc' := by
  have hN := plannedIterations_eq_iff.1 h.planned
  have hstage := h.stage
  have hiter := h.iter
  simp only [restIter] at hiter
  rcases letter_cases htyp with ⟨rfl, rfl⟩ | ⟨hp, hpN, rfl⟩ | ⟨rfl, rfl⟩
  · refine ⟨{ uc with currentStage := .initializing, currentCompletion := .toBeContinued },
      enterStage_of_entered h.outOfService (if_pos hstage), by omega, h.planned, rfl, rfl, ?_⟩
    simp only [restIter]
    omega
  · -- the first iteration is entered from `initialized`, the others below `nb_iterations`
    have hguard : (uc.currentStage = .initialized ∧ uc.currentWorkIter = 0) ∨
        (uc.currentStage = .working ∧ uc.currentWorkIter < uc.nbIterations) := by
      rcases Nat.eq_or_lt_of_le hp with rfl | hp2
      · exact Or.inl ⟨hstage, by omega⟩
      · rw [restStage_work hp2 hpN] at hstage
        exact Or.inr ⟨hstage, by omega⟩
    refine ⟨{ uc with
        currentStage := .working
        currentCompletion := .toBeContinued
        currentWorkIter := uc.currentWorkIter + 1 },
      enterStage_of_entered h.outOfService (if_pos hguard), by omega, h.planned,
      (flightStage_work hp hpN).symm, rfl, ?_⟩
    simp only [restIter]
    omega
  · rw [restStage_worked (by omega)] at hstage
    refine ⟨{ uc with currentStage := .finishing, currentCompletion := .toBeContinued },
      enterStage_of_entered h.outOfService (if_pos hstage), by omega, h.planned,
      flightStage_finish.symm, rfl, ?_⟩
    simp only [restIter]
    omega

/-- **Any other stage is refused.** -/
theorem AtRest.enterStage_refused (h : AtRest N p uc) (htyp : (protocol N)[p]? ≠ some typ) :
    uc.enterStage typ.target = (false, { uc with currentCompletion := .error }) := by
  refine enterStage_of_refused (Or.inr ?_)
  have hN := plannedIterations_eq_iff.1 h.planned
  have hstage := h.stage
  rcases position_cases h.le with rfl | rfl | ⟨hp, hpN⟩ | rfl | rfl
  · rw [restStage_zero] at hstage
    rw [protocol_zero] at htyp
    cases typ <;> simp [entered, StageTyp.target, hstage] at htyp ⊢
  · rw [restStage_one] at hstage
    rw [protocol_work le_rfl (by omega)] at htyp
    cases typ <;> simp [entered, StageTyp.target, hstage] at htyp ⊢
  · rw [restStage_work hp hpN] at hstage
    rw [protocol_work (by omega) hpN] at htyp
    cases typ <;> simp [entered, StageTyp.target, hstage] at htyp ⊢
  · rw [restStage_worked (by omega)] at hstage
    rw [protocol_finish] at htyp
    cases typ <;> simp [entered, StageTyp.target, hstage] at htyp ⊢
  · rw [restStage_finished] at hstage
    cases typ <;> simp [entered, StageTyp.target, hstage]

/-- **Quitting ends the letter's call.** -/
theorem InFlight.quitStage (h : InFlight N p uc) : AtRest N (p + 1) uc.quitStage := by
  have hN := plannedIterations_eq_iff.1 h.planned
  have hstage := h.stage
  have hiter := h.iter
  simp only [restIter] at hiter
  rcases flight_cases h.lt with rfl | ⟨hp, hpN⟩ | rfl
  · have hq : uc.quitStage =
        { uc with currentStage := .initialized, currentCompletion := .completed } := by
      rw [flightStage_zero] at hstage
      simp [UseCase.quitStage, h.outOfService, hstage]
    rw [hq]
    refine ⟨by omega, h.planned, rfl, by simp [restCompletion], ?_⟩
    simp only [restIter]
    omega
  · rw [flightStage_work hp hpN] at hstage
    by_cases hmore : uc.currentWorkIter < uc.nbIterations
    · have hq : uc.quitStage =
          { uc with currentStage := .working, currentCompletion := .toBeContinued } := by
        simp [UseCase.quitStage, h.outOfService, hstage, hmore]
      rw [hq]
      refine ⟨by omega, h.planned, (restStage_work (by omega) (by omega)).symm,
        (restCompletion_work (by omega) (by omega)).symm, ?_⟩
      simp only [restIter]
      omega
    · have hq : uc.quitStage =
          { uc with currentStage := .worked, currentCompletion := .completed } := by
        simp [UseCase.quitStage, h.outOfService, hstage, hmore]
      have hlast : p = N := by omega
      subst hlast
      rw [hq]
      refine ⟨by omega, h.planned, (restStage_worked (by omega)).symm,
        (restCompletion_of_gt (by omega)).symm, ?_⟩
      simp only [restIter]
      omega
  · have hq : uc.quitStage =
        { uc with currentStage := .finished, currentCompletion := .completed } := by
      rw [flightStage_finish] at hstage
      simp [UseCase.quitStage, h.outOfService, hstage]
    rw [hq]
    refine ⟨by omega, h.planned, restStage_finished.symm,
      (restCompletion_of_gt (by omega)).symm, ?_⟩
    simp only [restIter]
    omega

end UseCase

end VireSandbox
