import VireSandbox.Common.Loop
import VireSandbox.UseCase.Calls
/-!
# The use case — driven to its end

The program of `use_case_tst.cpp`, which is what a session does when
nothing comes in its way: the initialisation, work iterations as long as
they return `TO_BE_CONTINUED`, the finish. The loop ends for every use
case, since an iteration that asks for another one has counted itself and
is short of `nb_iterations`. Over a new one it runs for the planned
iterations, and these are the declared ones as long as their number fits
the `int` it is kept in (`declared_iff`).
-/

namespace VireSandbox

/-- The values of an `int`. -/
def InInt32 (n : ℤ) : Prop := -2 ^ 31 ≤ n ∧ n < 2 ^ 31

instance (n : ℤ) : Decidable (InInt32 n) := inferInstanceAs (Decidable (_ ∧ _))

theorem inInt32_toInt32 (n : ℤ) : InInt32 (toInt32 n) := by
  unfold InInt32
  rw [toInt32, Int.bmod_def]
  split <;> omega

/-- **A narrowing keeps a value exactly where it fits.** -/
theorem toInt32_eq_iff {n : ℤ} : toInt32 n = n ↔ InInt32 n := by
  unfold InInt32
  rw [toInt32, Int.bmod_def]
  split <;> omega

namespace UseCase

variable {N p : ℕ} {uc : UseCase}

/-- **An iteration that asks for another** has counted itself, and is short
of the iterations there are to be. -/
theorem workIteration_toBeContinued (h : uc.workIteration.1 = .toBeContinued) :
    uc.workIteration.2.nbIterations = uc.nbIterations ∧
      uc.workIteration.2.currentWorkIter = uc.currentWorkIter + 1 ∧
      uc.currentWorkIter + 1 < uc.nbIterations := by
  unfold workIteration at *
  rcases enterStage_cases uc .working with ⟨uc', -, hent, henter⟩ | hrefused
  · rw [perform_of_enter henter] at h ⊢
    simp only [entered] at hent
    split at hent <;> cases hent
    -- entered, so that what `quit_stage` says is up to the count
    by_cases hmore : uc.currentWorkIter + 1 < uc.nbIterations
    · simp [quitStage, outOfService, hmore]
    · simp [quitStage, outOfService, hmore] at h
  · rw [perform_of_refused hrefused] at h
    cases h

/-- `complet = uc.work_iteration (); while (complet == TO_BE_CONTINUED) …`. -/
def workLoop : DoWhile Completion UseCase where
  body := workIteration
  again complet := complet = .toBeContinued
  measure uc := (uc.nbIterations - uc.currentWorkIter).toNat
  decreases uc h := by
    obtain ⟨hnb, hiter, hlt⟩ := workIteration_toBeContinued (by simpa using h)
    rw [hnb, hiter]
    omega

/-- What each call of the driver came to, and left. -/
structure Driven where
  init : Completion × UseCase
  work : Passes Completion UseCase
  finish : Completion × UseCase

/-- `main` of `use_case_tst.cpp`, past the construction of the use case. -/
def drive (uc : UseCase) : Driven :=
  let init := uc.initStage
  let work := workLoop.run init.2
  ⟨init, work, work.last.2.finishStage⟩

/-- The use case after each call. -/
def Driven.states (d : Driven) : List UseCase :=
  d.init.2 :: (d.work.all.map Prod.snd ++ [d.finish.2])

/-! ## Over a script -/

/-- **One pass of the loop**: while iterations are left it asks for another,
and after the last of them the use case is ready to finish. -/
theorem AtRest.workIteration (h : AtRest N p uc) (hp : 1 ≤ p) (hpN : p ≤ N) :
    AtRest N (p + 1) uc.workIteration.2 ∧ uc.workIteration.1 = restCompletion N (p + 1) :=
  h.perform (protocol_work hp hpN)

/-- **The loop runs through the iterations that are left.** -/
theorem AtRest.workLoop {k : ℕ} (h : AtRest N p uc) (hp : 1 ≤ p) (hk : p + k = N) :
    (workLoop.run uc).results = List.replicate k .toBeContinued ++ [.completed] ∧
      AtRest N (N + 1) (workLoop.run uc).last.2 := by
  refine DoWhile.run_countdown (fun k uc => ∃ p, AtRest N p uc ∧ 1 ≤ p ∧ p + k = N) rfl rfl ?_ ?_
    ⟨p, h, hp, hk⟩
  · rintro k uc ⟨p, h, hp, hk⟩
    obtain ⟨hrest, hresult⟩ := h.workIteration hp (by omega)
    exact ⟨hresult.trans (restCompletion_work (by omega) (by omega)),
      p + 1, hrest, by omega, by omega⟩
  · rintro uc ⟨p, h, hp, hk⟩
    obtain ⟨hrest, hresult⟩ := h.workIteration hp (by omega)
    obtain rfl : p = N := by omega
    exact ⟨hresult.trans (restCompletion_of_gt (by omega)), hrest⟩

/-! ## The count -/

/-- The iterations that were counted are not more than the planned ones. -/
structure Counted (N : ℕ) (uc : UseCase) : Prop where
  planned : uc.plannedIterations = N
  nonneg : 0 ≤ uc.currentWorkIter
  le : uc.currentWorkIter ≤ N

/-- **No call counts more iterations than were planned.** -/
theorem Counted.perform (h : Counted N uc) (typ : StageTyp) : Counted N (uc.perform typ).2 := by
  have hN := plannedIterations_eq_iff.1 h.planned
  obtain ⟨hplanned, hnonneg, hle⟩ := h
  rcases enterStage_cases uc typ.target with ⟨uc', -, hent, henter⟩ | hrefused
  · obtain ⟨-, iter, rfl, hiter⟩ := entered_cases hent
    rw [perform_of_enter henter]
    obtain ⟨stage, complet, hquit⟩ := quitStage_eq { uc with
      currentStage := typ.target
      currentCompletion := .toBeContinued
      currentWorkIter := iter }
    rw [hquit]
    rcases hiter with ⟨-, rfl⟩ | ⟨-, rfl, hlast⟩
    · exact ⟨hplanned, hnonneg, hle⟩
    · exact ⟨hplanned, by change 0 ≤ uc.currentWorkIter + 1; omega, hN ▸ hlast⟩
  · rw [perform_of_refused hrefused]
    exact ⟨hplanned, hnonneg, hle⟩

/-- Nor does the driver. -/
theorem Counted.drive (h : Counted N uc) : ∀ uc' ∈ uc.drive.states, Counted N uc' := by
  have hinit : Counted N uc.drive.init.2 := h.perform .init
  have hwork : ∀ r ∈ uc.drive.work.all, Counted N r.2 :=
    DoWhile.run_invariant (Counted N) (fun _ h => h.perform .witer) hinit
  have hfinish : Counted N uc.drive.finish.2 :=
    (hwork _ (List.mem_append_right _ List.mem_cons_self)).perform .finish
  intro uc' hmem
  simp only [Driven.states, List.mem_cons, List.mem_append, List.mem_map, List.not_mem_nil,
    or_false] at hmem
  rcases hmem with rfl | ⟨r, hr, rfl⟩ | rfl
  · exact hinit
  · exact hwork r hr
  · exact hfinish

/-! ## A new use case -/

/-- **The driver over a new use case** runs for the planned iterations, all
but the last of which ask for another, and finishes. -/
theorem drive_new (ucase : String) (initMax workMax finishMax : ℤ) :
    let uc : UseCase := new ucase initMax workMax finishMax
    uc.drive.work.results =
        List.replicate (uc.plannedIterations - 1) .toBeContinued ++ [.completed] ∧
      uc.drive.finish.1 = .completed := by
  intro uc
  have hpos : 1 ≤ uc.plannedIterations := by
    unfold plannedIterations
    omega
  have hrest : AtRest uc.plannedIterations 0 uc := atRest_new ucase initMax workMax finishMax
  obtain ⟨hinit, -⟩ := hrest.perform protocol_zero
  obtain ⟨hresults, hlast⟩ := hinit.workLoop (k := uc.plannedIterations - 1) le_rfl (by omega)
  obtain ⟨-, hfinish⟩ := hlast.perform protocol_finish
  exact ⟨hresults, hfinish.trans (restCompletion_of_gt (by omega))⟩

/-- So its iterations are the narrowed number of them, or one. -/
theorem length_drive_new (ucase : String) (initMax workMax finishMax : ℤ) :
    ((new ucase initMax workMax finishMax).drive.work.all.length : ℤ) =
      max 1 (toInt32 (workMax - 1)) := by
  have hresults := congrArg List.length (drive_new ucase initMax workMax finishMax).1
  have hN : ((new ucase initMax workMax finishMax).plannedIterations : ℤ) =
      max 1 (toInt32 (workMax - 1)) := plannedIterations_eq_iff.1 rfl
  simp only [Passes.results, List.length_map, List.length_append, List.length_replicate,
    List.length_singleton] at hresults
  omega

/-- What is declared of a use case whose work is to take `workMax` seconds:
driven to its end it works for a second less, but for one at least, and
its counters are those of an `int`. -/
structure Declared (workMax : ℤ) (uc : UseCase) : Prop where
  narrowed : InInt32 uc.nbIterations ∧ uc.nbIterations % 2 ^ 32 = (workMax - 1) % 2 ^ 32
  iterations : (uc.drive.work.all.length : ℤ) = max 1 (workMax - 1)
  results : uc.drive.work.results =
    List.replicate (uc.drive.work.all.length - 1) .toBeContinued ++ [.completed]
  finish : uc.drive.finish.1 = .completed
  counter : ∀ uc' ∈ uc.drive.states, InInt32 uc'.currentWorkIter

/-- **The work stage ends after the declared iterations exactly where their
number fits an `int`.** For every work of a second or more: a new use case
driven to its end works for `max 1 (work_max - 1)` iterations, as it is
declared to, if and only if `work_max` is not more than `2 ^ 31` seconds. -/
theorem declared_iff (ucase : String) (initMax workMax finishMax : ℤ) (hwork : 1 ≤ workMax) :
    Declared workMax (new ucase initMax workMax finishMax) ↔ workMax ≤ 2 ^ 31 := by
  have hlength := length_drive_new ucase initMax workMax finishMax
  obtain ⟨hresults, hfinish⟩ := drive_new ucase initMax workMax finishMax
  have hint : InInt32 (toInt32 (workMax - 1)) := inInt32_toInt32 _
  constructor
  · intro h
    by_contra hwide
    have hiterations := h.iterations
    rw [hlength] at hiterations
    have hlt := hint.2
    omega
  · intro hfits
    have heq : toInt32 (workMax - 1) = workMax - 1 := toInt32_eq_iff.2 ⟨by omega, by omega⟩
    have hcounted : Counted (new ucase initMax workMax finishMax).plannedIterations
        (new ucase initMax workMax finishMax) := ⟨rfl, le_rfl, Int.natCast_nonneg _⟩
    have hN : ((new ucase initMax workMax finishMax).plannedIterations : ℤ) =
        max 1 (toInt32 (workMax - 1)) := plannedIterations_eq_iff.1 rfl
    refine ⟨⟨hint, congrArg (· % 2 ^ 32) heq⟩, by rw [hlength, heq], ?_, hfinish, ?_⟩
    · rw [hresults]
      congr 2
      omega
    · intro uc' hmem
      obtain ⟨-, hnonneg, hle⟩ := hcounted.drive uc' hmem
      have hlt := hint.2
      exact ⟨by omega, by omega⟩

/-- The test's use case: the work of six seconds is five iterations. -/
theorem declared_iff_sixSeconds :
    Declared 6 (new "uc_test" 2 6 2) ∧ (new "uc_test" 2 6 2).plannedIterations = 5 :=
  ⟨(declared_iff "uc_test" 2 6 2 (by decide)).2 (by decide), by decide⟩

/-- **Work that is a second too long for an `int`** is done in one
iteration. -/
theorem not_declared_wide :
    (new "uc_test" 2 2147483649 2).nbIterations = -2147483648 ∧
      (new "uc_test" 2 2147483649 2).drive.work.results = [.completed] ∧
      (new "uc_test" 2 2147483649 2).drive.finish.1 = .completed ∧
      ¬ Declared 2147483649 (new "uc_test" 2 2147483649 2) := by
  obtain ⟨hresults, hfinish⟩ := drive_new "uc_test" 2 2147483649 2
  refine ⟨by decide, hresults, hfinish, fun h => ?_⟩
  have hlength := length_drive_new "uc_test" 2 2147483649 2
  rw [h.iterations] at hlength
  revert hlength
  decide

end UseCase

end VireSandbox
