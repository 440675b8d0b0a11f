import VireSandbox.Broker.Undo
/-!
# The temporary user — removed again and again

`del_tmpuser_wxCVbn` deletes the user, and the vhost only where the user
was deleted in the same run. A run whose second call fails leaves a vhost
that no later run can reach, because the first call then has no user to
delete: the clean-up is finished by the first run that deletes the user,
or never (`cleaned_iff`).
-/

namespace VireSandbox

namespace Broker

variable {R : Type} {b : Broker R} {c : Call R} {k : Cell} {f : Bool} {fails : ℕ → Bool}
variable {r : Progress (Broker R)} {history : List (ℕ → Bool)}

/-! ## One deletion -/

/-- A deletion is accepted where there is something to delete. -/
theorem accepts_of_deletes (h : c.write = none) :
    (service R false).accepts b c = true ↔ b.Has c.cell := by
  cases c with
  | deleteUser u => simp [accepts_iff, Call.needs, Call.cell]
  | deleteVhost v => simp [accepts_iff, Call.needs, Call.cell]
  | _ => cases h

theorem not_has_effect_of_deletes (h : c.write = none) : ¬ (c.effect b).Has c.cell := by
  cases c with
  | deleteUser u => exact fun hhas => (has_clear_iff.1 hhas).1 rfl
  | deleteVhost v => exact fun hhas => (has_clear_iff.1 hhas).1 rfl
  | _ => cases h

/-- **A deletion leaves what it is about only where it fails**: what is not
there is none the less not there after it was refused. -/
theorem has_perform_of_deletes (h : c.write = none) :
    ((service R false).perform f c r).state.Has c.cell ↔ r.state.Has c.cell ∧ f = true := by
  rcases (service R false).perform_cases f c r with ⟨hf, -, hp⟩ | ⟨hno, hp⟩
  · rw [hp]
    exact iff_of_false (not_has_effect_of_deletes h) fun hboth => by simp [hf] at hboth
  · rw [hp]
    refine ⟨fun hhas => ⟨hhas, hno.resolve_right fun hrefused => ?_⟩, And.left⟩
    rw [(accepts_of_deletes h).2 hhas] at hrefused
    cases hrefused

/-- Whatever a call is not about it leaves alone. -/
theorem has_perform_of_not_touches {absentOk : Bool} (h : ¬ c.Touches k) :
    ((service R absentOk).perform f c r).state.Has k ↔ r.state.Has k := by
  rcases (service R absentOk).perform_cases f c r with ⟨-, -, hp⟩ | ⟨-, hp⟩
  · rw [hp, Has, Has]
    exact (congrArg (fun o => o.isSome = true) (c.effect_agreeOn r.state k h)).to_iff
  · rw [hp]

/-! ## One run -/

/-- The program: the user, and the vhost where that went well. -/
theorem run_delTmpuser : (service R false).run delTmpuser fails b =
    if ((service R false).perform (fails 0) (.deleteUser "wxCVbn") ⟨true, b, false⟩).ok then
      (service R false).perform (fails 1) (.deleteVhost tmpVhost)
        ((service R false).perform (fails 0) (.deleteUser "wxCVbn") ⟨true, b, false⟩)
    else (service R false).perform (fails 0) (.deleteUser "wxCVbn") ⟨true, b, false⟩ :=
  rfl

/-- **A run that does not delete the user changes nothing.** -/
theorem run_delTmpuser_of_not (h : fails 0 = true ∨ ¬ b.Has (.user "wxCVbn")) :
    ((service R false).run delTmpuser fails b).state = b := by
  have hno : fails 0 = true ∨ (service R false).accepts b (.deleteUser "wxCVbn") = false :=
    h.imp_right fun huser => by simpa using mt (accepts_of_deletes rfl).1 huser
  rw [run_delTmpuser, Service.perform_of_fails hno]
  rfl

/-- The user is left where its deletion fails, -/
theorem has_user_run_delTmpuser :
    ((service R false).run delTmpuser fails b).state.Has (.user "wxCVbn") ↔
      b.Has (.user "wxCVbn") ∧ fails 0 = true := by
  rw [run_delTmpuser]
  split
  · exact (has_perform_of_not_touches id).trans (has_perform_of_deletes rfl)
  · exact has_perform_of_deletes rfl

/-- **and the vhost unless both are deleted.** -/
theorem has_vhost_run_delTmpuser :
    ((service R false).run delTmpuser fails b).state.Has (.vhost tmpVhost) ↔
      b.Has (.vhost tmpVhost) ∧
        ¬ (b.Has (.user "wxCVbn") ∧ fails 0 = false ∧ fails 1 = false) := by
  have hvhost : ((service R false).perform (fails 0) (.deleteUser "wxCVbn")
      ⟨true, b, false⟩).state.Has (.vhost tmpVhost) ↔ b.Has (.vhost tmpVhost) :=
    has_perform_of_not_touches id
  rw [run_delTmpuser]
  split
  · next hok =>
    obtain ⟨hfails, haccepts⟩ := Service.perform_ok_iff.1 hok
    have huser : b.Has (.user "wxCVbn") := (accepts_of_deletes rfl).1 haccepts
    refine (has_perform_of_deletes rfl).trans ?_
    refine and_congr hvhost ⟨fun hf hboth => by simp [hf] at hboth, fun hnot => ?_⟩
    by_contra hf
    exact hnot ⟨huser, hfails, by simpa using hf⟩
  · next hok =>
    refine hvhost.trans (and_iff_left ?_).symm
    rintro ⟨huser, hfails, -⟩
    exact hok (Service.perform_ok_iff.2 ⟨hfails, (accepts_of_deletes rfl).2 huser⟩)

/-! ## Any number of runs -/

/-- The first run whose deletion of the user is not made to fail does not
have the deletion of the vhost fail either. -/
def TakesVhost : List (ℕ → Bool) → Prop
  | [] => False
  | fails :: history => if fails 0 = true then TakesVhost history else fails 1 = false

/-- **Without the user, no run changes anything.** -/
theorem reruns_delTmpuser_of_not (huser : ¬ b.Has (.user "wxCVbn")) :
    (service R false).reruns delTmpuser history b = b := by
  induction history with
  | nil => rfl
  | cons fails history ih => rwa [Service.reruns_cons, run_delTmpuser_of_not (.inr huser)]

/-- **The vhost is left unless one run deletes both**, and that is the first
to delete the user. -/
theorem has_vhost_reruns_delTmpuser :
    ((service R false).reruns delTmpuser history b).Has (.vhost tmpVhost) ↔
      b.Has (.vhost tmpVhost) ∧ ¬ (b.Has (.user "wxCVbn") ∧ TakesVhost history) := by
  induction history generalizing b with
  | nil => simp [TakesVhost]
  | cons fails history ih =>
    rw [Service.reruns_cons, ih, has_vhost_run_delTmpuser, has_user_run_delTmpuser]
    cases hfails : fails 0 with
    | true => simp [TakesVhost, hfails]
    | false => simp [TakesVhost, hfails]

/-- The user is left where every deletion of it fails. -/
theorem has_user_reruns_delTmpuser :
    ((service R false).reruns delTmpuser history b).Has (.user "wxCVbn") ↔
      b.Has (.user "wxCVbn") ∧ ∀ fails ∈ history, fails 0 = true := by
  induction history generalizing b with
  | nil => simp
  | cons fails history ih =>
    rw [Service.reruns_cons, ih, has_user_run_delTmpuser, List.forall_mem_cons, and_assoc]

/-- **When the clean-up can be retried.** For every broker, and any number of
runs with any failures before a last one without: neither the user nor its
vhost is left if and only if there was no such vhost, or there was the user
and the first run that was let delete it was let delete the vhost. -/
theorem cleaned_iff (b : Broker R) (history : List (ℕ → Bool)) (last : ℕ → Bool)
    (hlast : ∀ n < 2, last n = false) :
    let after := (service R false).reruns delTmpuser (history ++ [last]) b
    (¬ after.Has (.user "wxCVbn") ∧ ¬ after.Has (.vhost tmpVhost)) ↔
    ¬ b.Has (.vhost tmpVhost) ∨ (b.Has (.user "wxCVbn") ∧ TakesVhost (history ++ [last])) := by
  intro after
  have huser : ¬ after.Has (.user "wxCVbn") := by
    rw [has_user_reruns_delTmpuser]
    rintro ⟨-, hall⟩
    have hfails := hall last (by simp)
    rw [hlast 0 (by decide)] at hfails
    cases hfails
  rw [and_iff_right huser, has_vhost_reruns_delTmpuser]
  tauto

/-- A broker with the temporary user, as one run of `add_tmpuser_wxCVbn`
makes it. -/
def addedBroker : Broker (List String) :=
  ((service (List String) false).run (addTmpuser askedRights) (fun _ => false) plainBroker).state

/-- The deletion of the user fails, so that nothing is done. -/
def heldRun (n : ℕ) : Bool := n = 0

theorem cleaned_iff_heldRun :
    let after := (service (List String) false).reruns delTmpuser ([heldRun] ++ [fun _ => false])
      addedBroker
    ¬ after.Has (.user "wxCVbn") ∧ ¬ after.Has (.vhost tmpVhost) :=
  (cleaned_iff addedBroker [heldRun] (fun _ => false) (by decide)).2 (.inr ⟨by decide, rfl⟩)

/-- The deletion of the vhost fails, and nothing else. -/
def strandedRun (n : ℕ) : Bool := n = 1

/-- **A vhost that no run deletes any more**, with its exchanges and the
rights of the server on it. -/
theorem not_cleaned_strandedRun :
    let after := (service (List String) false).reruns delTmpuser [strandedRun, fun _ => false]
      addedBroker
    addedBroker.Has (.user "wxCVbn") ∧ addedBroker.Has (.vhost tmpVhost) ∧
      ¬ after.Has (.user "wxCVbn") ∧ after.Has (.vhost tmpVhost) ∧
      after.Has (.exchange tmpVhost "vireserver.service") ∧
      after.Has (.permission "vireserver" tmpVhost) ∧
      ∀ history, (service (List String) false).reruns delTmpuser history after = after := by
  have huser : ¬ ((service (List String) false).reruns delTmpuser [strandedRun, fun _ => false]
      addedBroker).Has (.user "wxCVbn") := by decide
  exact ⟨by decide, by decide, huser, by decide, by decide, by decide,
    fun history => reruns_delTmpuser_of_not huser⟩

end Broker

end VireSandbox
