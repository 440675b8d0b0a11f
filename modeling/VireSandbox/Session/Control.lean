import VireSandbox.Session.Step
/-!
# The session — what `start` knows at each of its points

The invariant of the thread that runs `start`, over every run: any use
case, any others holding it, any calls of `stop`, any clock. The log up
to a guard is what fine stages leave, followed by the one result `complet`
holds, and the verdict of `start` is read off that result and the last
read of `stop_requested`. What the use case does is not looked at here.
-/

namespace VireSandbox

/-- A completion after which `start` goes on to another stage. -/
def Completion.Fine (v : Completion) : Prop := v = .toBeContinued ∨ v = .completed

/-- The stages launched, in order. -/
def launches (l : List Event) : List StageTyp :=
  l.filterMap fun
    | .launch typ => some typ
    | .result _ _ => none

@[simp] theorem launches_nil : launches [] = [] := rfl

@[simp] theorem launches_concat_launch (l : List Event) (typ : StageTyp) :
    launches (l ++ [.launch typ]) = launches l ++ [typ] := by
  simp [launches]

@[simp] theorem launches_concat_result (l : List Event) (typ : StageTyp) (v : Completion) :
    launches (l ++ [.result typ v]) = launches l := by
  simp [launches]

/-- Every stage of the log let `start` go on. -/
def FineLog (l : List Event) : Prop := ∀ typ v, Event.result typ v ∈ l → v.Fine

/-- **The log behind a completion**: nothing was launched, and `complet`
is as `start` initialises it, or `complet` is the last result and the ones
before it were fine. -/
def Trail (l : List Event) (complet : Completion) : Prop :=
  (l = [] ∧ complet = .error) ∨ ∃ l' typ, l = l' ++ [.result typ complet] ∧ FineLog l'

variable {l : List Event} {typ : StageTyp} {v : Completion}

theorem fineLog_nil : FineLog [] := fun _ _ h => by simp at h

theorem FineLog.concat_launch (h : FineLog l) : FineLog (l ++ [.launch typ]) := by
  intro typ' v hmem
  exact h typ' v (by simpa using hmem)

theorem FineLog.concat_result (h : FineLog l) (hv : v.Fine) :
    FineLog (l ++ [.result typ v]) := by
  intro typ' v' hmem
  rcases List.mem_append.1 hmem with hmem | hmem
  · exact h typ' v' hmem
  · obtain ⟨-, rfl⟩ : typ' = typ ∧ v' = v := by simpa using hmem
    exact hv

/-- A completion `start` goes on from leaves a fine log. -/
theorem Trail.fineLog (h : Trail l v) (hv : v.Fine) : FineLog l := by
  rcases h with ⟨rfl, -⟩ | ⟨l', typ, rfl, hl'⟩
  · exact fineLog_nil
  · exact hl'.concat_result hv

/-- A result that is not fine is the completion held, and the last event. -/
theorem Trail.eq_of_mem (h : Trail l v) {w : Completion} (hmem : Event.result typ w ∈ l)
    (hw : ¬ w.Fine) : w = v ∧ ∃ l', l = l' ++ [.result typ v] ∧ FineLog l' := by
  rcases h with ⟨rfl, -⟩ | ⟨l', typ', rfl, hl'⟩
  · simp at hmem
  · rcases List.mem_append.1 hmem with hmem | hmem
    · exact absurd (hl' typ w hmem) hw
    · obtain ⟨rfl, rfl⟩ : typ = typ' ∧ w = v := by simpa using hmem
      exact ⟨rfl, l', rfl, hl'⟩

/-- A timeout in the log is the completion `start` holds. -/
theorem Trail.timeout_iff (h : Trail l v) :
    (∃ typ, Event.result typ .timeout ∈ l) ↔ v = .timeout := by
  have hbad : ¬ Completion.Fine .timeout := by simp [Completion.Fine]
  constructor
  · rintro ⟨typ, hmem⟩
    exact (h.eq_of_mem hmem hbad).1.symm
  · rintro rfl
    rcases h with ⟨-, hv⟩ | ⟨l', typ, rfl, -⟩
    · cases hv
    · exact ⟨typ, by simp⟩

/-- **How `start` ends**: after the finish it is completed whatever the
finish returned, and otherwise its closing `else` decides, on a flag that
was read (`stop`) and a completion no guard took. -/
inductive Verdict (s : Session) (complet : Completion) (l : List Event) : Prop
  | finished (hstate : s.state = .completed) (l' : List Event)
      (hlog : l = l' ++ [.launch .finish] ++ [.result .finish complet])
      (hl' : .finish ∉ launches l')
  | closed (hfinish : .finish ∉ launches l) (stop : Bool)
      (hstop : stop = true → s.stopRequested = true)
      (hcomplet : stop = false → ¬ complet.Fine ∧ l ≠ [])
      (hstate : s.state =
        if complet = .timeout then .killed else if stop then .stopped else .running)

theorem Verdict.stop {s : Session} (h : Verdict s v l) : Verdict s.stop v l := by
  cases h with
  | finished hstate l' hlog hl' => exact .finished hstate l' hlog hl'
  | closed hfinish stop hstop hcomplet hstate =>
    exact .closed hfinish stop (fun _ => rfl) hcomplet hstate

namespace Config

variable {c c' : Config} {a : Act}

/-- **The invariant of `start`.** -/
def Control (c : Config) : Prop :=
  match c.pc with
  | .idle => c.session.state = .ready ∧ c.log = [] ∧ c.complet = .error
  | .sleepUntil => c.log = [] ∧ c.complet = .error
  | .guard g =>
    c.session.state = .running ∧ Trail c.log c.complet ∧ .finish ∉ launches c.log ∧
      (g = .init → c.log = []) ∧
      (g ≠ .init → c.log = [] → c.session.stopRequested = true) ∧
      (g = .finish → c.complet = .toBeContinued → c.session.stopRequested = true)
  | .perform typ =>
    c.session.state = .running ∧ FineLog c.log ∧ .finish ∉ launches c.log ∧
      (typ = .init → c.log = [])
  | .wait typ | .timedOut typ =>
    c.session.state = .running ∧
      ∃ l, c.log = l ++ [.launch typ] ∧ FineLog l ∧ .finish ∉ launches l ∧ (typ = .init → l = [])
  | .closing =>
    c.session.state = .running ∧ Trail c.log c.complet ∧ .finish ∉ launches c.log ∧
      (c.complet.Fine ∨ c.log = [] → c.session.stopRequested = true)
  | .returned => Trail c.log c.complet ∧ Verdict c.session c.complet c.log

theorem control_ready {s : Session} (hready : s.state = .ready) (uc : UseCase) (now : ℤ) :
    Control (ready s uc now) :=
  ⟨hready, rfl, rfl⟩

/-- The stage `start` is in has been launched. -/
theorem Control.mem_launches (h : Control c)
    (hpc : c.pc = .wait typ ∨ c.pc = .timedOut typ) : typ ∈ launches c.log := by
  have hlog : ∃ l, c.log = l ++ [.launch typ] := by
    rcases hpc with hpc | hpc
    all_goals
      simp only [Control, hpc] at h
      obtain ⟨-, l, hlog, -⟩ := h
      exact ⟨l, hlog⟩
  obtain ⟨l, hlog⟩ := hlog
  simp [hlog]

/-- The flag only rises, and nothing `start` knows is lost by it. -/
theorem Control.stop (h : Control c) : Control { c with session := c.session.stop } := by
  unfold Control at h ⊢
  cases hpc : c.pc with
  | idle | sleepUntil | perform typ | wait typ | timedOut typ =>
    simp only [hpc] at h ⊢
    exact h
  | guard g =>
    simp only [hpc] at h ⊢
    exact ⟨h.1, h.2.1, h.2.2.1, h.2.2.2.1, fun _ _ => rfl, fun _ _ => rfl⟩
  | closing =>
    simp only [hpc] at h ⊢
    exact ⟨h.1, h.2.1, h.2.2.1, fun _ => rfl⟩
  | returned =>
    simp only [hpc] at h ⊢
    exact ⟨h.1, h.2.stop⟩

/-- **A result closes its stage**: what was known waiting for it leads to
what is known after it. -/
theorem Control.stageReturns {th : Option StageThread} (hstate : c.session.state = .running)
    (hl : ∃ l, c.log = l ++ [.launch typ] ∧ FineLog l ∧ .finish ∉ launches l ∧
      (typ = .init → l = [])) (v : Completion) :
    Control (c.stageReturns typ v th) := by
  obtain ⟨l, hlog, hfine, hfin, -⟩ := hl
  have hlaunches : launches (c.log ++ [.result typ v]) = launches l ++ [typ] := by
    rw [launches_concat_result, hlog, launches_concat_launch]
  have htrail : Trail (c.log ++ [.result typ v]) v :=
    Or.inr ⟨c.log, typ, rfl, by rw [hlog]; exact hfine.concat_launch⟩
  cases typ with
  | init | witer =>
    exact ⟨hstate, htrail, by simp [Config.stageReturns, hlaunches, hfin], by simp,
      by simp [Config.stageReturns], by simp⟩
  | finish => exact ⟨htrail, .finished rfl l (by simp [Config.stageReturns, hlog]) hfin⟩

/-- **Every step keeps the invariant of `start`.** -/
theorem Control.step (h : Control c) (hstep : Step c a c') : Control c' := by
  cases hstep with
  | startEarly hpc hready hclock =>
    simp only [Control, hpc] at h
    exact h.2
  | startLate hpc hready hclock =>
    simp only [Control, hpc] at h
    exact ⟨rfl, Or.inl h.2, by simp [running, h.2.1], fun _ => h.2.1, by simp, by simp⟩
  | startNot hpc hready =>
    simp only [Control, hpc] at h
    exact absurd h.1 hready
  | begin hpc hclock =>
    simp only [Control, hpc] at h
    exact ⟨rfl, Or.inl h, by simp [running, h.1], fun _ => h.1, by simp, by simp⟩
  | @pass g hpc hpass =>
    simp only [Control, hpc] at h
    obtain ⟨hstate, htrail, hfin, hinit, -⟩ := h
    obtain ⟨-, hneeds⟩ := Guard.passes_eq_true.1 hpass
    refine ⟨hstate, ?_, hfin, ?_⟩
    · -- what the guard asked of `complet` is fine, or nothing was launched
      cases g with
      | init => exact (hinit rfl) ▸ fineLog_nil
      | work => exact htrail.fineLog (Or.inr (hneeds _ rfl))
      | loop => exact htrail.fineLog (Or.inl (hneeds _ rfl))
      | finish => exact htrail.fineLog (Or.inr (hneeds _ rfl))
    · intro htyp
      cases g with
      | init => exact hinit rfl
      | work | loop | finish => cases htyp
  | @skip g hpc hpass =>
    simp only [Control, hpc] at h
    obtain ⟨hstate, htrail, hfin, hinit, hempty, hloop⟩ := h
    have hwhy := Guard.passes_eq_false.1 hpass
    cases g with
    | init =>
      refine ⟨hstate, htrail, hfin, by simp, fun _ _ => ?_, by simp⟩
      simpa [Guard.needs] using hwhy
    | work => exact ⟨hstate, htrail, hfin, by simp, fun _ => hempty (by simp), by simp⟩
    | loop =>
      refine ⟨hstate, htrail, hfin, by simp, fun _ => hempty (by simp),
        fun _ (htbc : c.complet = .toBeContinued) => ?_⟩
      simpa [Guard.needs, htbc] using hwhy
    | finish =>
      refine ⟨hstate, htrail, hfin, fun (hgo : c.complet.Fine ∨ c.log = []) => ?_⟩
      rcases hgo with (htbc | hcompl) | hlog
      · exact hloop rfl htbc
      · simpa [Guard.needs, hcompl] using hwhy
      · exact hempty (by simp) hlog
  | launch hpc =>
    simp only [Control, hpc] at h
    exact ⟨h.1, c.log, rfl, h.2⟩
  | get hpc hth hpromise =>
    simp only [Control, hpc] at h
    exact Control.stageReturns h.1 h.2 _
  | kill hpc hth =>
    simp only [Control, hpc] at h
    exact Control.stageReturns h.1 h.2 _
  | close hpc =>
    simp only [Control, hpc] at h
    obtain ⟨hstate, htrail, hfin, hfine⟩ := h
    refine ⟨htrail, .closed hfin c.session.stopRequested (fun hs => hs) (fun hs => ?_) ?_⟩
    · constructor
      · exact fun hv => by simp [hfine (Or.inl hv)] at hs
      · exact fun hlog => by simp [hfine (Or.inr hlog)] at hs
    · simp [Config.close, hstate]
  | expire hpc hth hpromise hclock =>
    simp only [Control, hpc] at h
    exact h
  | stop => exact h.stop
  | tick d => exact h
  | enter hth hpc => exact h
  | wake hth hpc hclock => exact h
  | quit hth hpc => exact h
  | set hth hpc => exact h
  | cancel hth hpc hreq => exact h
  | other op => exact h

end Config

end VireSandbox
