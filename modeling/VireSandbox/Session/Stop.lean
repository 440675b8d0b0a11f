import VireSandbox.Session.Reach
/-!
# The session — a stop is prompt and kept

`stop` raises a flag nothing lowers, and each guard reads it afresh: past
a stop `start` launches at most the stage whose guard it had already
passed, and a stop that comes before the finish is guarded keeps the
finish from being launched. All of it holds of any use case, and of one
that others hold.
-/

namespace VireSandbox

/-- The points of `start` before it reads `stop_requested` in the guard of
the finish. -/
def Pc.beforeFinish : Pc → Bool
  | .perform .finish | .wait .finish | .timedOut .finish | .closing | .returned => false
  | _ => true

namespace Config

variable {c c' c₁ c₂ : Config} {a : Act}

/-- Nothing takes a stop back. -/
theorem Step.stopRequested (hstep : Step c a c') (h : c.session.stopRequested = true) :
    c'.session.stopRequested = true := by
  cases hstep with
  | stop => rfl
  | _ => exact h

/-- **What launches**: the step out of `perform`, which a guard leads to
only where it reads no stop. -/
theorem Step.launches (hstep : Step c a c') :
    (launches c'.log = launches c.log ∧ ∀ typ, c'.pc = .perform typ →
        c.pc = .perform typ ∨ c.session.stopRequested = false) ∨
      ∃ typ, c.pc = .perform typ ∧ launches c'.log = launches c.log ++ [typ] ∧
        ∀ typ', c'.pc ≠ .perform typ' := by
  cases hstep with
  | @launch typ hpc => exact Or.inr ⟨typ, hpc, launches_concat_launch _ _, by simp⟩
  | pass hpc hpass =>
    exact Or.inl ⟨rfl, fun typ _ => Or.inr (Guard.passes_eq_true.1 hpass).1⟩
  | @skip g hpc hpass =>
    refine Or.inl ⟨rfl, fun typ h => ?_⟩
    cases g <;> cases h
  | @get typ th v hpc hth hpromise =>
    refine Or.inl ⟨launches_concat_result _ _ _, fun typ' h => ?_⟩
    cases typ <;> cases h
  | @kill typ th hpc hth =>
    refine Or.inl ⟨launches_concat_result _ _ _, fun typ' h => ?_⟩
    cases typ <;> cases h
  | startEarly hpc | startLate hpc | startNot hpc | begin hpc | close hpc
  | expire hpc hth hpromise hclock =>
    exact Or.inl ⟨rfl, fun typ h => by cases h⟩
  | stop | tick d | enter hth hpc | wake hth hpc hclock | quit hth hpc | set hth hpc
  | cancel hth hpc hreq | other op =>
    exact Or.inl ⟨rfl, fun typ h => Or.inl h⟩

/-- **Since a stop seen at `c₁`**: nothing more is launched but what was
past its guard. -/
def Prompt (c₁ c : Config) : Prop :=
  c.session.stopRequested = true ∧
    ((launches c.log = launches c₁.log ∧ ∀ typ, c.pc = .perform typ → c₁.pc = .perform typ) ∨
      ∃ typ, c₁.pc = .perform typ ∧ launches c.log = launches c₁.log ++ [typ] ∧
        ∀ typ', c.pc ≠ .perform typ')

theorem Prompt.step (h : Prompt c₁ c) (hstep : Step c a c') : Prompt c₁ c' := by
  obtain ⟨hstop, h⟩ := h
  refine ⟨hstep.stopRequested hstop, ?_⟩
  rcases hstep.launches with ⟨hl, hpc⟩ | ⟨typ, hpc, hl, hpc'⟩
  · -- nothing was launched, nor has a guard passed since the stop
    have hback : ∀ typ, c'.pc = .perform typ → c.pc = .perform typ := fun typ hc' =>
      (hpc typ hc').resolve_right (by simp [hstop])
    rcases h with ⟨hl₁, hpc₁⟩ | ⟨typ, hpc₁, hl₁, hne⟩
    · exact Or.inl ⟨hl.trans hl₁, fun typ hc' => hpc₁ typ (hback typ hc')⟩
    · exact Or.inr ⟨typ, hpc₁, hl.trans hl₁, fun typ' hc' => hne typ' (hback typ' hc')⟩
  · rcases h with ⟨hl₁, hpc₁⟩ | ⟨typ', -, -, hne⟩
    · exact Or.inr ⟨typ, hpc₁ typ hpc, by rw [hl, hl₁], hpc'⟩
    · exact absurd hpc (hne typ)

/-- **A stop ahead of the finish's guard** decides how `start` ends. -/
def Heading (c : Config) : Prop :=
  c.session.stopRequested = true ∧
    (c.pc.beforeFinish = true ∨ c.pc = .closing ∨
      (c.pc = .returned ∧ c.session.state = if c.complet = .timeout then .killed else .stopped))

theorem Heading.step (h : Heading c) (hc : Control c) (hstep : Step c a c') : Heading c' := by
  obtain ⟨hstop, h⟩ := h
  refine ⟨hstep.stopRequested hstop, ?_⟩
  cases hstep with
  | startEarly hpc | startLate hpc | begin hpc => exact Or.inl rfl
  | startNot hpc hready =>
    simp only [Control, hpc] at hc
    exact absurd hc.1 hready
  | pass hpc hpass =>
    -- no guard passes over a stop
    simp [(Guard.passes_eq_true.1 hpass).1] at hstop
  | @skip g hpc hpass =>
    cases g with
    | init | work | loop => exact Or.inl rfl
    | finish => exact Or.inr (Or.inl rfl)
  | @launch typ hpc => cases typ <;> simp [hpc, Pc.beforeFinish] at h ⊢
  | @get typ th v hpc hth hpromise =>
    cases typ <;> simp [hpc, Pc.beforeFinish, stageReturns, StageTyp.after] at h ⊢
  | @kill typ th hpc hth =>
    cases typ <;> simp [hpc, Pc.beforeFinish, stageReturns, StageTyp.after] at h ⊢
  | close hpc =>
    refine Or.inr (Or.inr ⟨rfl, ?_⟩)
    simp [Config.close, hstop]
  | @expire typ th hpc hth hpromise hclock => cases typ <;> simp [hpc, Pc.beforeFinish] at h ⊢
  | stop | tick d | enter hth hpc | wake hth hpc hclock | quit hth hpc | set hth hpc
  | cancel hth hpc hreq | other op => exact h

/-- **The finish is not launched** while its guard has a stop to read. -/
theorem Heading.finish_notMem (h : Heading c) (hc : Control c) : .finish ∉ launches c.log := by
  obtain ⟨-, h⟩ := h
  unfold Control at hc
  cases hpc : c.pc with
  | idle => simp only [hpc] at hc; simp [hc.2.1]
  | sleepUntil => simp only [hpc] at hc; simp [hc.1]
  | guard g => simp only [hpc] at hc; exact hc.2.2.1
  | perform typ => simp only [hpc] at hc; exact hc.2.2.1
  | wait typ | timedOut typ =>
    simp only [hpc] at hc
    obtain ⟨-, l, hlog, -, hfin, -⟩ := hc
    cases typ <;> simp [hpc, Pc.beforeFinish, hlog, hfin] at h ⊢
  | closing => simp only [hpc] at hc; exact hc.2.2.1
  | returned =>
    simp only [hpc] at hc
    rcases h with hb | hcl | ⟨-, hstate⟩
    · simp [hpc, Pc.beforeFinish] at hb
    · simp [hpc] at hcl
    · rcases hc.2 with ⟨hcompleted, -⟩ | ⟨hfin⟩
      · rw [hcompleted] at hstate
        split at hstate <;> cases hstate
      · exact hfin

/-- And what `start` then returns tells a timeout. -/
theorem Heading.returned (h : Heading c) (hc : Control c) (hpc : c.pc = .returned) :
    (c.session.state = .killed ∧ ∃ typ, .result typ .timeout ∈ c.log) ∨
      (c.session.state = .stopped ∧ ∀ typ, .result typ .timeout ∉ c.log) := by
  obtain ⟨-, hb | hcl | ⟨-, hstate⟩⟩ := h
  · simp [hpc, Pc.beforeFinish] at hb
  · simp [hpc] at hcl
  · simp only [Control, hpc] at hc
    rw [← not_exists, hc.1.timeout_iff, hstate]
    by_cases hv : c.complet = .timeout <;> simp [hv]

/-- **A stop is prompt and never lost.** From a stop at `c₁` on, `start`
launches at most the stage whose guard it had passed; where the guard of
the finish is still ahead the finish is not launched, and `start` returns
`STOPPED`, or `KILLED` if a stage timed out; and `start` does return. -/
theorem stop_prompt (s : Session) (hready : s.state = .ready) (uc : UseCase) (now : ℤ)
    (as₁ as₂ : List Act) (c₁ c₂ : Config)
    (h₁ : sessionMachine.run (ready s uc now) as₁ = some c₁)
    (h₂ : sessionMachine.run c₁ (.stop :: as₂) = some c₂) :
    (launches c₂.log = launches c₁.log ∨
      ∃ typ, c₁.pc = .perform typ ∧ launches c₂.log = launches c₁.log ++ [typ]) ∧
    (c₁.pc.beforeFinish = true → .finish ∉ launches c₂.log ∧
      (c₂.pc = .returned →
        (c₂.session.state = .killed ∧ ∃ typ, .result typ .timeout ∈ c₂.log) ∨
          (c₂.session.state = .stopped ∧ ∀ typ, .result typ .timeout ∉ c₂.log))) ∧
    sessionMachine.Ends (fun _ _ => True) sessionRoles (·.pc = .returned) (ready s uc now) := by
  have hc₁ := (sound_run hready h₁).control
  rw [Machine.run_cons (Step.stop).step] at h₂
  refine ⟨?_, fun hbefore => ?_, start_ends s uc now⟩
  · have hseen : Prompt c₁ { c₁ with session := c₁.session.stop } :=
      ⟨rfl, Or.inl ⟨rfl, fun _ h => h⟩⟩
    have hprompt : Prompt c₁ c₂ :=
      Machine.run_invariant (Prompt c₁) (fun _ _ _ h hs => h.step (.of_step hs)) hseen h₂
    rcases hprompt.2 with ⟨hl, -⟩ | ⟨typ, hpc, hl, -⟩
    · exact Or.inl hl
    · exact Or.inr ⟨typ, hpc, hl⟩
  · have hseen : Heading { c₁ with session := c₁.session.stop } := ⟨rfl, Or.inl hbefore⟩
    have hI : Heading c₂ ∧ Control c₂ :=
      Machine.run_invariant (fun c => Heading c ∧ Control c)
        (fun _ _ _ h hs => ⟨h.1.step h.2 (.of_step hs), h.2.step (.of_step hs)⟩)
        ⟨hseen, hc₁.stop⟩ h₂
    exact ⟨hI.1.finish_notMem hI.2, hI.1.returned hI.2⟩

theorem stop_prompt_shortRun :
    ∃ c₁ c₂, sessionMachine.run (ready shortSession shortCase 0) (.start :: performed 1) = some c₁ ∧
      sessionMachine.run c₁ [.stop, .go, .go, .go, .go] = some c₂ ∧
      .finish ∉ launches c₂.log ∧ c₂.session.state = .stopped := by
  have hready : shortSession.state = .ready := by decide
  refine ⟨_, _, rfl, rfl, ?_, by decide⟩
  exact ((stop_prompt shortSession hready shortCase 0 (.start :: performed 1)
    [.go, .go, .go, .go] _ _ rfl rfl).2.1 rfl).1

end Config

end VireSandbox
