import VireSandbox.Session.Reach
/-!
# The session — a use case several parties hold

Two sessions may be given one use case, and others may drive it besides.
Their stage functions then interleave half by half: one party enters a
stage while another is in it, and quits what another has entered. Whatever
the order, what is entered, by whomever, reads the script of the use case
from its start (`entries_isPrefix`).
-/

namespace VireSandbox

open UseCase

namespace UseCase

variable {N p : ℕ} {uc uc' : UseCase} {typ : StageTyp} {stage : Stage} {ops : List Other}

/-- The use case after steps of its holders. -/
def others (uc : UseCase) (ops : List Other) : UseCase := ops.foldl Other.apply uc

/-- What a step enters. -/
def entry (uc : UseCase) : Other → List StageTyp
  | .enter typ => if (uc.enterStage typ.target).1 then [typ] else []
  | .quit | .tooSlow => []

/-- What is entered along steps of the holders, in order. -/
def entries (uc : UseCase) : List Other → List StageTyp
  | [] => []
  | op :: ops => uc.entry op ++ entries (op.apply uc) ops

/-- **With `p` letters entered**, and the last of them perhaps still being
performed. -/
structure Begun (N p : ℕ) (uc : UseCase) : Prop where
  le : p ≤ N + 2
  planned : uc.plannedIterations = N
  iter : uc.currentWorkIter = restIter N p
  stage : uc.currentStage = restStage N p ∨ ∃ q, p = q + 1 ∧ uc.currentStage = flightStage N q

theorem begun_new (ucase : String) (initMax workMax finishMax : ℤ) :
    Begun (new ucase initMax workMax finishMax).plannedIterations 0
      (new ucase initMax workMax finishMax) :=
  ⟨by omega, rfl, rfl, .inl rfl⟩

theorem plannedIterations_pos (uc : UseCase) : 1 ≤ uc.plannedIterations := by
  unfold plannedIterations
  omega

/-- **The stages with `p` letters entered.** -/
theorem Begun.stage_cases (h : Begun N p uc) :
    (p = 0 ∧ uc.currentStage = .new) ∨
    (p = 1 ∧ (uc.currentStage = .initializing ∨ uc.currentStage = .initialized)) ∨
    (2 ≤ p ∧ p ≤ N + 1 ∧ uc.currentStage = .working) ∨
    (p = N + 1 ∧ uc.currentStage = .worked) ∨
    (p = N + 2 ∧ (uc.currentStage = .finishing ∨ uc.currentStage = .finished)) := by
  have hN : 1 ≤ N := by
    have hpos := plannedIterations_pos uc
    rwa [h.planned] at hpos
  rcases position_cases h.le with hp | hp | ⟨hp, hpN⟩ | hp | hp
  · have hstage : uc.currentStage = .new := by
      rcases h.stage with hstage | ⟨q, hq, -⟩
      · rwa [hp, restStage_zero] at hstage
      · omega
    exact .inl ⟨hp, hstage⟩
  · refine .inr (.inl ⟨hp, ?_⟩)
    rcases h.stage with hstage | ⟨q, hq, hstage⟩
    · rw [hp, restStage_one] at hstage
      exact .inr hstage
    · obtain rfl : q = 0 := by omega
      exact .inl hstage
  · refine .inr (.inr (.inl ⟨hp, by omega, ?_⟩))
    rcases h.stage with hstage | ⟨q, hq, hstage⟩
    · rwa [restStage_work hp hpN] at hstage
    · rwa [flightStage_work (by omega) (by omega)] at hstage
  · rcases h.stage with hstage | ⟨q, hq, hstage⟩
    · rw [hp, restStage_worked hN] at hstage
      exact .inr (.inr (.inr (.inl ⟨hp, hstage⟩)))
    · rw [flightStage_work (by omega) (by omega)] at hstage
      exact .inr (.inr (.inl ⟨by omega, by omega, hstage⟩))
  · refine .inr (.inr (.inr (.inr ⟨hp, ?_⟩)))
    rcases h.stage with hstage | ⟨q, hq, hstage⟩
    · rw [hp, restStage_finished] at hstage
      exact .inr hstage
    · obtain rfl : q = N + 1 := by omega
      rw [flightStage_finish] at hstage
      exact .inl hstage

/-- A completion says nothing of what was entered. -/
theorem Begun.error (h : Begun N p uc) : Begun N p { uc with currentCompletion := .error } :=
  ⟨h.le, h.planned, h.iter, h.stage⟩

/-- **What is entered is the next letter**, also where the last one is still
being performed. -/
theorem Begun.entered (h : Begun N p uc) (hent : uc.entered typ.target = some uc') :
    (protocol N)[p]? = some typ ∧ Begun N (p + 1) uc' := by
  have hN := plannedIterations_eq_iff.1 h.planned
  have hiter := h.iter
  simp only [restIter] at hiter
  cases typ with
  | init =>
    simp only [StageTyp.target, UseCase.entered] at hent
    split at hent
    · next hnew =>
      have hp : p = 0 := by
        rcases h.stage_cases with ⟨hp, -⟩ | ⟨-, hs | hs⟩ | ⟨-, -, hs⟩ | ⟨-, hs⟩ | ⟨-, hs | hs⟩
        · exact hp
        all_goals cases hnew.symm.trans hs
      subst hp
      cases hent
      refine ⟨protocol_zero, by omega, h.planned, ?_, .inr ⟨0, rfl, rfl⟩⟩
      simp only [restIter]
      omega
    · cases hent
  | witer =>
    simp only [StageTyp.target, UseCase.entered] at hent
    split at hent
    · next hguard =>
      have hp : 1 ≤ p ∧ p ≤ N := by
        rcases h.stage_cases with ⟨hp, hs⟩ | ⟨hp, hs⟩ | ⟨hp, hpN, hs⟩ | ⟨hp, hs⟩ | ⟨hp, hs⟩
        · rcases hguard with ⟨hg, -⟩ | ⟨hg, -⟩ <;> cases hg.symm.trans hs
        · omega
        · -- short of `nb_iterations`, and so of the last letter but one
          rcases hguard with ⟨hg, -⟩ | ⟨-, hmore⟩
          · cases hg.symm.trans hs
          · omega
        · rcases hguard with ⟨hg, -⟩ | ⟨hg, -⟩ <;> cases hg.symm.trans hs
        · rcases hs with hs | hs <;> rcases hguard with ⟨hg, -⟩ | ⟨hg, -⟩ <;>
            cases hg.symm.trans hs
      cases hent
      refine ⟨protocol_work hp.1 hp.2, by omega, h.planned, ?_,
        .inr ⟨p, rfl, (flightStage_work hp.1 hp.2).symm⟩⟩
      simp only [restIter]
      omega
    · cases hent
  | finish =>
    simp only [StageTyp.target, UseCase.entered] at hent
    split at hent
    · next hworked =>
      have hp : p = N + 1 := by
        rcases h.stage_cases with ⟨-, hs⟩ | ⟨-, hs | hs⟩ | ⟨-, -, hs⟩ | ⟨hp, -⟩ | ⟨-, hs | hs⟩
        · cases hworked.symm.trans hs
        · cases hworked.symm.trans hs
        · cases hworked.symm.trans hs
        · cases hworked.symm.trans hs
        · exact hp
        all_goals cases hworked.symm.trans hs
      subst hp
      cases hent
      refine ⟨protocol_finish, by omega, h.planned, ?_, .inr ⟨N + 1, rfl, flightStage_finish.symm⟩⟩
      simp only [restIter]
      omega
    · cases hent

/-- **Quitting enters nothing**, whoever entered what is quit. -/
theorem Begun.quitStage (h : Begun N p uc) : Begun N p uc.quitStage := by
  have hN := plannedIterations_eq_iff.1 h.planned
  have hiter := h.iter
  simp only [restIter] at hiter
  unfold UseCase.quitStage
  split
  · exact h
  · rcases h.stage_cases with ⟨hp, hs⟩ | ⟨hp, hs | hs⟩ | ⟨hp, hpN, hs⟩ | ⟨hp, hs⟩ | ⟨hp, hs | hs⟩
    · simpa only [hs] using h.error
    · simp only [hs]
      exact ⟨h.le, h.planned, h.iter, .inl (by rw [hp, restStage_one])⟩
    · simpa only [hs] using h.error
    · simp only [hs]
      split
      · next hmore =>
        exact ⟨h.le, h.planned, h.iter, .inl (restStage_work hp (by omega)).symm⟩
      · next hlast =>
        obtain rfl : p = N + 1 := by omega
        exact ⟨h.le, h.planned, h.iter, .inl (restStage_worked (by omega)).symm⟩
    · simpa only [hs] using h.error
    · simp only [hs]
      exact ⟨h.le, h.planned, h.iter, .inl (by rw [hp, restStage_finished])⟩
    · simpa only [hs] using h.error

/-- **One step of a holder** reads the next letter or none. -/
theorem Begun.other (h : Begun N p uc) (op : Other) :
    (protocol N).take p ++ uc.entry op = (protocol N).take (p + (uc.entry op).length) ∧
      Begun N (p + (uc.entry op).length) (op.apply uc) := by
  cases op with
  | enter typ =>
    rcases enterStage_cases uc typ.target with ⟨uc', -, hent, henter⟩ | henter
    · obtain ⟨hletter, hbegun⟩ := h.entered hent
      simp only [entry, Other.apply, henter, if_true, List.length_singleton]
      refine ⟨?_, hbegun⟩
      rw [List.take_add_one, hletter]
      rfl
    · simp only [entry, Other.apply, henter, Bool.false_eq_true, if_false, List.append_nil,
        List.length_nil, Nat.add_zero, true_and]
      exact h.error
  | quit => exact ⟨List.append_nil _, h.quitStage⟩
  | tooSlow => exact ⟨List.append_nil _, h.le, h.planned, h.iter, h.stage⟩

/-- **A run of the holders** reads on in the script. -/
theorem Begun.others (h : Begun N p uc) (ops : List Other) :
    (protocol N).take p ++ uc.entries ops = (protocol N).take (p + (uc.entries ops).length) ∧
      Begun N (p + (uc.entries ops).length) (uc.others ops) := by
  induction ops generalizing p uc with
  | nil => exact ⟨List.append_nil _, h⟩
  | cons op ops ih =>
    obtain ⟨hread, hbegun⟩ := h.other op
    obtain ⟨hrest, hend⟩ := ih hbegun
    simp only [entries, List.length_append, ← Nat.add_assoc]
    exact ⟨by rw [← List.append_assoc, hread, hrest], hend⟩

/-- The work iterations among the first letters. -/
theorem count_witer_take (hp : p ≤ N + 2) :
    ((protocol N).take p).count .witer = restIter N p := by
  induction p with
  | zero => rfl
  | succ p ih =>
    have hlt : p < (protocol N).length := by
      rw [length_protocol]
      omega
    have hletter := letter_cases (List.getElem?_eq_getElem hlt)
    rw [List.take_add_one, List.getElem?_eq_getElem hlt, List.count_append, ih (by omega)]
    simp only [restIter]
    rcases hletter with ⟨rfl, htyp⟩ | ⟨hpos, hle, htyp⟩ | ⟨rfl, htyp⟩ <;> rw [htyp]
    · simp
    · simp
      omega
    · simp

/-- A use case in error stays as it is, and enters nothing. -/
theorem error_others (h : uc.currentCompletion = .error) (ops : List Other) :
    uc.entries ops = [] ∧ (uc.others ops).currentCompletion = .error ∧
      (uc.others ops).currentStage = uc.currentStage ∧
      (uc.others ops).currentWorkIter = uc.currentWorkIter := by
  have hout : uc.outOfService = true := by simp [outOfService, h]
  induction ops generalizing uc with
  | nil => exact ⟨rfl, h, rfl, rfl⟩
  | cons op ops ih =>
    have herror := other_error h op
    have hkept : uc.entry op = [] ∧ (op.apply uc).currentStage = uc.currentStage ∧
        (op.apply uc).currentWorkIter = uc.currentWorkIter := by
      cases op with
      | enter typ => simp [entry, Other.apply, enterStage_of_refused (.inl hout)]
      | quit => simp [entry, Other.apply, UseCase.quitStage, hout]
      | tooSlow => exact ⟨rfl, rfl, rfl⟩
    obtain ⟨hnone, hcompletion, hstage, hiter⟩ := ih herror (by simp [outOfService, herror])
    refine ⟨by rw [entries, hkept.1, hnone, List.append_nil], hcompletion, ?_, ?_⟩
    · exact hstage.trans hkept.2.1
    · exact hiter.trans hkept.2.2

/-- **Whoever enters, the script is read once.** For every new use case, any
number of parties that hold it, and any interleaving of the halves of their
stage functions and of `set_too_slow`: the stages entered, by all of them
together, are a prefix of the script; the iteration counter is the number of
iterations entered; `FINISHED` is reached at the end of the script only; and
a use case in error enters nothing and stays where it is. -/
theorem entries_isPrefix (ucase : String) (initMax workMax finishMax : ℤ) (ops : List Other) :
    let uc := UseCase.new ucase initMax workMax finishMax
    uc.entries ops <+: protocol uc.plannedIterations ∧
      (uc.others ops).currentWorkIter = (uc.entries ops).count .witer ∧
      ((uc.others ops).currentStage = .finished →
        uc.entries ops = protocol uc.plannedIterations) ∧
      ((uc.others ops).currentCompletion = .error → ∀ ops',
        (uc.others ops).entries ops' = [] ∧
        ((uc.others ops).others ops').currentStage = (uc.others ops).currentStage ∧
        ((uc.others ops).others ops').currentWorkIter = (uc.others ops).currentWorkIter) := by
  intro uc
  obtain ⟨hread, hbegun⟩ := (begun_new ucase initMax workMax finishMax).others ops
  rw [List.take_zero, List.nil_append, Nat.zero_add] at hread
  rw [Nat.zero_add] at hbegun
  change uc.entries ops = (protocol uc.plannedIterations).take (uc.entries ops).length at hread
  refine ⟨?_, ?_, fun hfinished => ?_, fun herror ops' => ?_⟩
  · rw [hread]
    exact List.take_prefix _ _
  · rw [hread, count_witer_take hbegun.le]
    exact hbegun.iter
  · have hp : (uc.entries ops).length = uc.plannedIterations + 2 := by
      rcases hbegun.stage_cases with ⟨-, hs⟩ | ⟨-, hs | hs⟩ | ⟨-, -, hs⟩ | ⟨-, hs⟩ | ⟨hp, -⟩
      · cases hfinished.symm.trans hs
      · cases hfinished.symm.trans hs
      · cases hfinished.symm.trans hs
      · cases hfinished.symm.trans hs
      · cases hfinished.symm.trans hs
      · exact hp
    rw [hread, hp, ← length_protocol, List.take_length]
  · obtain ⟨hnone, -, hstage, hiter⟩ := error_others herror ops'
    exact ⟨hnone, hstage, hiter⟩

end UseCase

namespace Config

variable {c c' c₀ : Config} {a : Act} {as : List Act}

/-- What a step of the session machine does to the use case. -/
def held (c : Config) : Act → Option Other
  | .enter _ => c.thread.map fun th => .enter th.typ
  | .quit => some .quit
  | .other op => some op
  | _ => none

/-- What a run does to it. -/
def heldBy (c : Config) : List Act → List Other
  | [] => []
  | a :: as => (c.held a).toList ++ ((sessionMachine.step c a).elim [] fun c' => c'.heldBy as)

theorem Step.useCase (hstep : Step c a c') :
    c'.useCase = c.useCase.others (c.held a).toList := by
  cases hstep with
  | enter hth hpc =>
    simp only [held, hth]
    rfl
  | _ => rfl

/-- **A session is one of the holders**, and the others are the rest. -/
theorem useCase_run (hrun : sessionMachine.run c₀ as = some c) :
    c.useCase = c₀.useCase.others (c₀.heldBy as) := by
  induction as generalizing c₀ with
  | nil =>
    cases hrun
    rfl
  | cons a as ih =>
    obtain ⟨t, ht, hrun⟩ := Machine.run_cons_iff.1 hrun
    rw [ih hrun, (Step.of_step ht).useCase, heldBy, ht]
    exact (List.foldl_append ..).symm

end Config

end VireSandbox
