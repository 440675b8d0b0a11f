import VireSandbox.UseCase.Protocol
/-!
# The use case — sequences of calls

What a use case does with a whole sequence of calls: it reads the script
of `Protocol.lean`, `calls_refines`, and everything its callers can tell
of the sequence follows from the position it has reached.
-/

namespace VireSandbox

namespace UseCase

variable {N p : ℕ} {uc : UseCase} {typ : StageTyp} {cs ds : List Call} {as : List StageTyp}

@[simp] theorem stageCall_eq : uc.stageCall typ = uc.perform typ := by
  cases typ <;> rfl

@[simp] theorem calls_nil : uc.calls [] = uc := rfl

theorem calls_append : uc.calls (cs ++ ds) = (uc.calls cs).calls ds := List.foldl_append

theorem stageCalls_concat_stage :
    stageCalls (cs ++ [.stage typ]) = stageCalls cs ++ [typ] := by
  simp [stageCalls]

theorem stageCalls_concat_setTooSlow : stageCalls (cs ++ [.setTooSlow]) = stageCalls cs := by
  simp [stageCalls]

/-! ## One call -/

theorem perform_of_enter {uc' : UseCase} (h : uc.enterStage typ.target = (true, uc')) :
    uc.perform typ = (uc'.quitStage.currentCompletion, uc'.quitStage) := by
  simp [perform, h]

theorem perform_of_refused
    (h : uc.enterStage typ.target = (false, { uc with currentCompletion := .error })) :
    uc.perform typ = (.error, { uc with currentCompletion := .error }) := by
  simp [perform, h]

/-- A call in turn moves to the next position, whose completion it
returns. -/
theorem AtRest.perform (h : AtRest N p uc) (htyp : (protocol N)[p]? = some typ) :
    AtRest N (p + 1) (uc.perform typ).2 ∧ (uc.perform typ).1 = restCompletion N (p + 1) := by
  obtain ⟨uc', hent, hfl⟩ := h.enterStage htyp
  rw [perform_of_enter hent]
  exact ⟨hfl.quitStage, hfl.quitStage.completion⟩

/-- A use case in error refuses every call, and is not changed by it. -/
theorem perform_of_error (h : uc.currentCompletion = .error) : uc.perform typ = (.error, uc) := by
  have huc : { uc with currentCompletion := .error } = uc := by rw [← h]
  have hout : uc.outOfService = true := by simp [outOfService, h]
  rw [perform_of_refused (enterStage_of_refused (Or.inl hout)), huc]

/-! ## A use case reads its script -/

/-- **The state a position stands for**: between two calls, or in error
once a call was out of turn. -/
def Refines (N : ℕ) (uc : UseCase) : Option ℕ → Prop
  | some p => AtRest N p uc
  | none => uc.currentCompletion = .error

theorem Refines.perform {o : Option ℕ} (h : Refines N uc o) :
    Refines N (uc.perform typ).2 (Script.next (protocol N) o typ) := by
  cases o with
  | none =>
    rw [Script.next_none, perform_of_error h]
    exact h
  | some p =>
    by_cases htyp : (protocol N)[p]? = some typ
    · rw [Script.next_some htyp]
      exact (AtRest.perform h htyp).1
    · rw [Script.next_eq_none htyp, perform_of_refused (AtRest.enterStage_refused h htyp)]
      exact rfl

theorem Refines.setTooSlow {o : Option ℕ} (h : Refines N uc o) : Refines N uc.setTooSlow o := by
  cases o with
  | none => exact h
  | some p => exact ⟨h.le, h.planned, h.stage, h.completion, h.iter⟩

/-- **A sequence of calls is a reading of the script.** -/
theorem calls_refines (h : AtRest N 0 uc) (cs : List Call) :
    Refines N (uc.calls cs) (Script.read (protocol N) (stageCalls cs)) := by
  induction cs using List.reverseRecOn with
  | nil => exact h
  | append_singleton cs c ih =>
    rw [calls_append]
    cases c with
    | stage typ =>
      rw [stageCalls_concat_stage, Script.read_concat]
      change Refines N ((uc.calls cs).stageCall typ).2 _
      rw [stageCall_eq]
      exact ih.perform
    | setTooSlow =>
      rw [stageCalls_concat_setTooSlow]
      exact ih.setTooSlow

theorem calls_atRest (h : AtRest N 0 uc) (hpre : stageCalls cs <+: protocol N) :
    AtRest N (stageCalls cs).length (uc.calls cs) := by
  have := calls_refines h cs
  rwa [Script.read_of_isPrefix hpre] at this

theorem calls_error (h : AtRest N 0 uc) (hpre : ¬ stageCalls cs <+: protocol N) :
    (uc.calls cs).currentCompletion = .error := by
  have := calls_refines h cs
  rwa [Script.read_eq_none_iff.2 hpre] at this

theorem AtRest.completion_ne_error (h : AtRest N p uc) : uc.currentCompletion ≠ .error := by
  rcases restCompletion_eq N p with hc | hc <;> simp [h.completion, hc]

/-! ## Reading a position back from the calls -/

/-- The work iterations of a prefix of the script are its position's. -/
theorem count_witer (hpre : as <+: protocol N) :
    as.count .witer = restIter N as.length := by
  induction as using List.reverseRecOn with
  | nil => simp [restIter]
  | append_singleton as a ih =>
    obtain ⟨hpre, ha⟩ := Script.concat_prefix_iff.1 hpre
    rw [List.count_append, ih hpre, List.length_append, List.length_singleton]
    rcases letter_cases ha with ⟨h0, rfl⟩ | ⟨hp, hpN, rfl⟩ | ⟨hfin, rfl⟩ <;>
      simp [restIter] <;> omega

/-- The completion of a position, told by the last call and the count of
the work iterations. -/
theorem restCompletion_of_isPrefix (hpre : as <+: protocol N) :
    restCompletion N as.length =
      if as.getLast? = some .witer ∧ as.count .witer < N then .toBeContinued else .completed := by
  rw [count_witer hpre]
  rcases List.eq_nil_or_concat as with rfl | ⟨bs, b, rfl⟩
  · simp [restCompletion]
  rw [List.concat_eq_append] at hpre ⊢
  obtain ⟨-, hb⟩ := Script.concat_prefix_iff.1 hpre
  have hlen : (bs ++ [b]).length = bs.length + 1 := by simp
  rw [hlen, List.getLast?_concat, restIter, restCompletion]
  congr 1
  rcases letter_cases hb with ⟨h0, rfl⟩ | ⟨hp, hpN, rfl⟩ | ⟨hfin, rfl⟩ <;>
    simp <;> omega

/-- In error, nothing a caller does changes the stage or the counter. -/
theorem calls_of_error (h : uc.currentCompletion = .error) (ds : List Call) :
    (uc.calls ds).currentCompletion = .error ∧
      (uc.calls ds).currentStage = uc.currentStage ∧
      (uc.calls ds).currentWorkIter = uc.currentWorkIter := by
  induction ds generalizing uc with
  | nil => exact ⟨h, rfl, rfl⟩
  | cons d ds ih =>
    cases d with
    | stage typ =>
      have hcall : uc.call (.stage typ) = uc := by
        simp [call, perform_of_error h]
      change ((uc.call (.stage typ)).calls ds).currentCompletion = _ ∧ _
      rw [← hcall] at h
      simpa [calls, hcall] using ih h
    | setTooSlow =>
      have herr : uc.setTooSlow.currentCompletion = .error := h
      exact ih herr

/-- **The use case admits exactly its script.** Over every sequence of
calls: no error is where the stage calls are a prefix of the script; on a
prefix the completion and the counter say how far it has come; and the
first call off the script is refused, with every call after it, and moves
neither the stage nor the counter. -/
theorem admits_exactly_protocol (ucase : String) (initMax workMax finishMax : ℤ) :
    let uc : UseCase := new ucase initMax workMax finishMax
    let N := uc.plannedIterations
    (∀ cs, (uc.calls cs).currentCompletion ≠ .error ↔ stageCalls cs <+: protocol N) ∧
    (∀ cs, stageCalls cs <+: protocol N →
      (uc.calls cs).currentCompletion =
        (if (stageCalls cs).getLast? = some .witer ∧ (stageCalls cs).count .witer < N then
          .toBeContinued
        else .completed) ∧
      (uc.calls cs).currentWorkIter = (stageCalls cs).count .witer) ∧
    (∀ cs typ, stageCalls cs <+: protocol N → ¬ stageCalls cs ++ [typ] <+: protocol N →
      ((uc.calls cs).stageCall typ).1 = .error ∧
      ∀ ds,
        (uc.calls (cs ++ .stage typ :: ds)).currentStage = (uc.calls cs).currentStage ∧
        (uc.calls (cs ++ .stage typ :: ds)).currentWorkIter = (uc.calls cs).currentWorkIter ∧
        ∀ typ', ((uc.calls (cs ++ .stage typ :: ds)).stageCall typ').1 = .error) := by
  intro uc N
  have h0 : AtRest N 0 uc := atRest_new ucase initMax workMax finishMax
  refine ⟨fun cs => ⟨fun hne => ?_, fun hpre => (calls_atRest h0 hpre).completion_ne_error⟩,
    fun cs hpre => ?_, fun cs typ hpre hoff => ?_⟩
  · by_contra hpre
    exact hne (calls_error h0 hpre)
  · have hrest := calls_atRest h0 hpre
    exact ⟨by rw [hrest.completion, restCompletion_of_isPrefix hpre],
      by rw [hrest.iter, count_witer hpre]⟩
  · have hrest := calls_atRest h0 hpre
    have htyp : (protocol N)[(stageCalls cs).length]? ≠ some typ := fun h =>
      hoff (Script.concat_prefix_iff.2 ⟨hpre, h⟩)
    have hperform := perform_of_refused (hrest.enterStage_refused htyp)
    refine ⟨by rw [stageCall_eq, hperform], fun ds => ?_⟩
    -- the refused call leaves the use case in error, and error is for ever
    have hsplit : uc.calls (cs ++ .stage typ :: ds) =
        UseCase.calls { uc.calls cs with currentCompletion := .error } ds := by
      rw [calls_append]
      change ((uc.calls cs).call (.stage typ)).calls ds = _
      rw [call, stageCall_eq, hperform]
    have hrefused : { uc.calls cs with currentCompletion := .error }.currentCompletion = .error :=
      rfl
    obtain ⟨herr, hstage, hiter⟩ := calls_of_error hrefused ds
    rw [hsplit]
    exact ⟨hstage, hiter, fun typ' => by rw [stageCall_eq, perform_of_error herr]⟩

end UseCase

end VireSandbox
