import VireSandbox.Common.Parties
import VireSandbox.Session.Handover
import VireSandbox.Session.Sharing
/-!
# The session — rivals over one use case

Any number of sessions may be given one use case, each with a reservation
of its own and a thread that runs its `start`; the constructor does not ask
whether another holds it. A session among rivals runs as it does by itself
with others holding its use case (`session_refines`), and all of them
return (`rivals_return`). The use case lets one of them in at most: whoever
comes second to `init_stage` leaves it in error, and at most one of the
sessions ever launches a stage past its initialisation, or is completed
(`at_most_one_served`).
-/

namespace VireSandbox

open UseCase

namespace UseCase

variable {uc : UseCase} {stage : Stage}

/-- A use case that is not new does not become so. -/
theorem other_ne_new (h : uc.currentStage ≠ .new) (op : Other) :
    (op.apply uc).currentStage ≠ .new := by
  cases op with
  | enter typ =>
    rcases enterStage_cases uc typ.target with ⟨uc', -, hent, henter⟩ | henter
    · obtain ⟨hne, iter, rfl, -⟩ := entered_cases hent
      simpa [Other.apply, henter] using hne
    · simpa [Other.apply, henter] using h
  | quit => exact quitStage_ne_new h
  | tooSlow => exact h

/-- **Only a new use case is initialised**, and it is then not new. -/
theorem enterStage_init (h : (uc.enterStage .initializing).1 = true) :
    uc.currentStage = .new ∧ (uc.enterStage .initializing).2.currentStage ≠ .new := by
  rcases enterStage_cases uc .initializing with ⟨uc', -, hent, henter⟩ | henter
  · obtain ⟨hne, iter, rfl, -⟩ := entered_cases hent
    refine ⟨?_, by simp [henter]⟩
    simp only [UseCase.entered] at hent
    split at hent
    · assumption
    · cases hent
  · rw [henter] at h
    cases h

end UseCase

/-! ## The rivals -/

/-- The moves of a session, and of its stage thread. -/
def Act.isOwn : Act → Bool
  | .tick _ | .other _ => false
  | _ => true

/-- What sessions over one use case share. -/
def heldPart : Part Config (UseCase × ℤ) where
  get c := (c.useCase, c.clock)
  put c held := { c with useCase := held.1, clock := held.2 }
  get_put _ _ := rfl
  put_get _ := rfl
  put_put _ _ _ := rfl

variable {ι : Type}

/-- **Sessions over one use case**, by the instant before any is started. -/
def rivals (uc : UseCase) (s : ι → Session) (now : ℤ) : Parties ι Config (UseCase × ℤ) :=
  ⟨(uc, now), fun i => .ready (s i) uc now⟩

/-- **The machine of the rivals.** A step is that of one of them. -/
def rivalsMachine (ι : Type) [DecidableEq ι] :
    Machine (Parties ι Config (UseCase × ℤ)) (ι × Act) :=
  heldPart.parties sessionMachine

namespace Config

variable {c c' u : Config} {a : Act}

/-- A step does to the use case and to the clock what a step of another
holder does, or what the clock does. -/
theorem environs_rivals : heldPart.Environs sessionMachine Act.isOwn := by
  intro c a c' u hs hu
  have hheld : (u.useCase, u.clock) = (c.useCase, c.clock) := hu
  obtain ⟨huc, hclock⟩ := Prod.mk.inj hheld
  have hkept : (c'.useCase, c'.clock) = (c.useCase, c.clock) →
      heldPart.put u (heldPart.get c') = u := by
    intro h
    rw [show heldPart.get c' = heldPart.get u from h.trans hheld.symm, heldPart.put_get]
  have hother : ∀ op : Other, (c'.useCase, c'.clock) = (op.apply c.useCase, c.clock) →
      ∃ b, b.isOwn = false ∧
        sessionMachine.step u b = some (heldPart.put u (heldPart.get c')) := by
    intro op h
    refine ⟨.other op, rfl, ?_⟩
    rw [show heldPart.get c' = (op.apply c.useCase, c.clock) from h, ← huc, ← hclock]
    rfl
  cases Step.of_step hs with
  | tick d =>
    refine .inr ⟨.tick d, rfl, ?_⟩
    rw [show heldPart.get { c with clock := c.clock + d } = (c.useCase, c.clock + d) from rfl,
      ← huc, ← hclock]
    rfl
  | @enter d th hth hpc => exact .inr (hother (.enter th.typ) rfl)
  | quit hth hpc => exact .inr (hother .quit rfl)
  | other op => exact .inr (hother op rfl)
  | _ => exact .inl (hkept rfl)

/-! ## One of them is let in -/

/-- **A session is let in**: its initialisation returned, or is under way and
not known to fail. -/
def LetIn (c : Config) : Prop :=
  (∃ v, .result .init v ∈ c.log ∧ v ≠ .error ∧ v ≠ .timeout) ∨
    ∃ th, c.thread = some th ∧ th.typ = .init ∧ th.mayContinue c.useCase = true

theorem not_letIn_ready (s : Session) (uc : UseCase) (now : ℤ) : ¬ LetIn (ready s uc now) := by
  rintro (⟨v, hmem, -⟩ | ⟨th, hth, -⟩)
  · cases hmem
  · cases hth

/-- Nobody else lets a session in. -/
theorem LetIn.of_environment (hb : a.isOwn = false) (hs : Step c a c') (h : LetIn c') :
    LetIn c := by
  cases hs with
  | tick d => exact h
  | other op =>
    rcases h with h | ⟨th, hth, htyp, hmay⟩
    · exact .inl h
    · exact .inr ⟨th, hth, htyp, mayContinue_other hmay⟩
  | _ => cases hb

theorem mayContinue_kill {th : StageThread} {clock : ℤ} {uc : UseCase}
    (h : (th.kill clock).mayContinue uc = true) : th.mayContinue uc = true := by
  unfold StageThread.kill at h
  split at h
  · next hpc => simp [StageThread.mayContinue, hpc]
  · next hpc => simp [StageThread.mayContinue, hpc]
  · exact h

theorem typ_kill (th : StageThread) (clock : ℤ) : (th.kill clock).typ = th.typ := by
  unfold StageThread.kill
  split
  · split <;> rfl
  · rfl
  · rfl

/-- **A session is let in by a new use case**, which is then not new. -/
theorem LetIn.of_step (ht : Threaded c) (hs : Step c a c') (h : LetIn c') :
    LetIn c ∨ c.useCase.currentStage = .new ∧ c'.useCase.currentStage ≠ .new := by
  -- a step of the thread that does not let it in
  have hthread : ∀ {th th' : StageThread}, c.thread = some th → c'.log = c.log →
      c'.thread = some th' → th'.typ = th.typ →
      (th'.mayContinue c'.useCase = true → th.mayContinue c.useCase = true) → LetIn c := by
    intro th th' hth hlog hth' htyp hmay
    rcases h with ⟨v, hmem, hv⟩ | ⟨th'', hth'', htyp', hmay'⟩
    · exact .inl ⟨v, hlog ▸ hmem, hv⟩
    · obtain rfl : th' = th'' := Option.some_inj.1 (hth'.symm.trans hth'')
      exact .inr ⟨th, hth, htyp.symm.trans htyp', hmay hmay'⟩
  cases hs with
  | launch hpc =>
    rcases h with ⟨v, hmem, hv⟩ | ⟨th, hth, -, hmay⟩
    · exact .inl (.inl ⟨v, by simpa using hmem, hv⟩)
    · obtain rfl := Option.some_inj.1 hth
      cases hmay
  | @get typ th v hpc hth hpromise =>
    have hwaited := ht.waited (.inl hpc) hth
    rcases h with ⟨w, hmem, hw⟩ | ⟨th', hth', -⟩
    · rcases List.mem_append.1 hmem with hmem | hmem
      · exact .inl (.inl ⟨w, hmem, hw⟩)
      · obtain ⟨rfl, rfl⟩ : .init = typ ∧ w = v := by simpa using hmem
        refine .inl (.inr ⟨th, hth, hwaited.typ, ?_⟩)
        simp [StageThread.mayContinue, hwaited.finished hpromise, hpromise, hw.1]
    · cases hth'
  | @kill typ th hpc hth =>
    rcases h with ⟨w, hmem, hw⟩ | ⟨th', hth', htyp, hmay⟩
    · rcases List.mem_append.1 hmem with hmem | hmem
      · exact .inl (.inl ⟨w, hmem, hw⟩)
      · obtain ⟨-, rfl⟩ : .init = typ ∧ w = .timeout := by simpa using hmem
        exact absurd rfl hw.2
    · obtain rfl := Option.some_inj.1 hth'
      exact .inl (.inr ⟨th, hth, (typ_kill th _).symm.trans htyp, mayContinue_kill hmay⟩)
  | @enter d th hth hpc =>
    rcases h with h | ⟨th', hth', htyp, hmay⟩
    · exact .inl (.inl h)
    · obtain rfl := Option.some_inj.1 hth'
      have htyp' : th.typ = .init := htyp
      cases hvalid : (c.useCase.enterStage th.typ.target).1 with
      | true =>
        rw [htyp'] at hvalid ⊢
        exact .inr (enterStage_init hvalid)
      | false =>
        -- a refusal leaves the use case in error
        rcases enterStage_cases c.useCase th.typ.target with ⟨uc', -, -, henter⟩ | henter
        · rw [henter] at hvalid
          cases hvalid
        · simp [henter, StageThread.mayContinue] at hmay
  | wake hth hpc hclock =>
    exact .inl (hthread hth rfl rfl rfl fun _ => by simp [StageThread.mayContinue, hpc])
  | quit hth hpc =>
    exact .inl (hthread hth rfl rfl rfl fun _ => by simp [StageThread.mayContinue, hpc])
  | set hth hpc =>
    refine .inl (hthread hth rfl rfl rfl fun hmay => ?_)
    simpa [StageThread.mayContinue, hpc] using hmay
  | cancel hth hpc hreq =>
    exact .inl (hthread hth rfl rfl rfl fun hmay => by simp [StageThread.mayContinue] at hmay)
  | other op => exact .inl (h.of_environment rfl (.other op))
  | _ => exact .inl h

theorem ne_new_step (h : c.useCase.currentStage ≠ .new) (hs : Step c a c') :
    c'.useCase.currentStage ≠ .new := by
  cases hs with
  | @enter d th hth hpc => exact other_ne_new h (.enter th.typ)
  | quit hth hpc => exact quitStage_ne_new h
  | other op => exact other_ne_new h op
  | _ => exact h

/-- **What a session has let in for**: past the initialisation it has its
result, which is fine once another stage is launched. -/
structure Opened (c : Config) : Prop where
  launched : ∀ typ, .launch typ ∈ c.log → typ ≠ .init → ∃ v, v.Fine ∧ .result .init v ∈ c.log
  results : ∀ typ v, .result typ v ∈ c.log → ∃ w, .result .init w ∈ c.log
  stage : ∀ typ, c.pc = .perform typ ∨ c.pc = .wait typ ∨ c.pc = .timedOut typ → typ ≠ .init →
    ∃ w, .result .init w ∈ c.log
  completed : c.session.state = .completed → .launch .finish ∈ c.log

theorem opened_ready {s : Session} (hready : s.state = .ready) (uc : UseCase) (now : ℤ) :
    Opened (ready s uc now) where
  launched := fun typ h => by cases h
  results := fun typ v h => by cases h
  stage := fun typ h => by simp [ready] at h
  completed := fun h => by cases hready.symm.trans h

theorem mem_launches_iff {l : List Event} {typ : StageTyp} :
    typ ∈ launches l ↔ .launch typ ∈ l := by
  simp only [launches, List.mem_filterMap]
  constructor
  · rintro ⟨e, he, hsome⟩
    cases e with
    | launch typ' => exact Option.some_inj.1 hsome ▸ he
    | result typ' v => cases hsome
  · exact fun h => ⟨_, h, rfl⟩

/-- A result is recorded. -/
theorem Opened.stageReturns {typ : StageTyp} {thread : Option StageThread} (h : Opened c)
    (hpc : c.pc = .wait typ ∨ c.pc = .timedOut typ) (hlaunch : typ ∈ launches c.log)
    (v : Completion) : Opened (c.stageReturns typ v thread) := by
  have hinit : ∃ w, .result .init w ∈ c.log ++ [Event.result typ v] := by
    by_cases htyp : typ = .init
    · exact ⟨v, by simp [htyp]⟩
    · obtain ⟨w, hw⟩ := h.stage typ (.inr hpc) htyp
      exact ⟨w, List.mem_append_left _ hw⟩
  refine ⟨fun typ' hmem htyp => ?_, fun _ _ _ => hinit, fun typ' hpc' => ?_, fun hstate => ?_⟩
  · obtain ⟨w, hfine, hw⟩ := h.launched typ' (by simpa [Config.stageReturns] using hmem) htyp
    exact ⟨w, hfine, List.mem_append_left _ hw⟩
  · cases typ <;> simp [Config.stageReturns, StageTyp.after] at hpc'
  · have hfinish : .launch .finish ∈ c.log := by
      by_cases htyp : typ = .finish
      · subst htyp
        exact mem_launches_iff.1 hlaunch
      · exact h.completed (by simpa [Config.stageReturns, htyp] using hstate)
    exact List.mem_append_left _ hfinish

theorem Opened.step (h : Opened c) (hc : Control c) (hs : Step c a c') : Opened c' := by
  -- where no stage is under way
  have hidle : ∀ (session : Session) (pc : Pc),
      (session.state = .completed → c.session.state = .completed) →
      (∀ typ, ¬ (pc = .perform typ ∨ pc = .wait typ ∨ pc = .timedOut typ)) →
      Opened { c with session := session, pc := pc } := fun session pc hstate hpc =>
    ⟨h.launched, h.results, fun typ hat => absurd hat (hpc typ),
      fun hcompleted => h.completed (hstate hcompleted)⟩
  cases hs with
  | @pass g hpc hpass =>
    refine ⟨h.launched, h.results, fun typ hat htyp => ?_, h.completed⟩
    obtain rfl : g.typ = typ := by simpa using hat
    -- the result the guard looked at is in the log
    simp only [Control, hpc] at hc
    rcases hc.2.1 with ⟨-, hcomplet⟩ | ⟨l', typ', hlog, -⟩
    · have hneeds := (Guard.passes_eq_true.1 hpass).2
      cases g with
      | init => exact absurd rfl htyp
      | work => cases hcomplet.symm.trans (hneeds _ rfl)
      | loop => cases hcomplet.symm.trans (hneeds _ rfl)
      | finish => cases hcomplet.symm.trans (hneeds _ rfl)
    · exact h.results typ' c.complet (by simp [hlog])
  | @launch typ hpc =>
    simp only [Control, hpc] at hc
    refine ⟨fun typ' hmem htyp => ?_, fun typ' v hmem => ?_, fun typ' hat htyp => ?_,
      fun hstate => ?_⟩
    · have hor : Event.launch typ' ∈ c.log ∨ typ' = typ := by simpa using hmem
      rcases hor with hmem | rfl
      · obtain ⟨v, hfine, hv⟩ := h.launched typ' hmem htyp
        exact ⟨v, hfine, List.mem_append_left _ hv⟩
      · obtain ⟨w, hw⟩ := h.stage typ' (.inl hpc) htyp
        exact ⟨w, hc.2.1 _ _ hw, List.mem_append_left _ hw⟩
    · obtain ⟨w, hw⟩ := h.results typ' v (by simpa using hmem)
      exact ⟨w, List.mem_append_left _ hw⟩
    · obtain rfl : typ = typ' := by simpa using hat
      obtain ⟨w, hw⟩ := h.stage typ (.inl hpc) htyp
      exact ⟨w, List.mem_append_left _ hw⟩
    · exact List.mem_append_left _ (h.completed hstate)
  | get hpc hth hpromise => exact h.stageReturns (.inl hpc) (hc.mem_launches (.inl hpc)) _
  | kill hpc hth => exact h.stageReturns (.inr hpc) (hc.mem_launches (.inr hpc)) _
  | @expire typ th hpc hth hpromise hclock =>
    refine ⟨h.launched, h.results, fun typ' hat htyp => ?_, h.completed⟩
    obtain rfl : typ = typ' := by simpa using hat
    exact h.stage typ (.inr (.inl hpc)) htyp
  | close hpc =>
    refine hidle _ _ (fun hstate => ?_) (by simp)
    dsimp only at hstate
    split at hstate
    · cases hstate
    · split at hstate
      · cases hstate
      · exact hstate
  | startEarly hpc hready hclock => exact hidle _ _ id (by simp)
  | startNot hpc hready => exact hidle _ _ id (by simp)
  | startLate hpc hready hclock => exact hidle _ _ (fun hstate => by cases hstate) (by simp)
  | begin hpc hclock => exact hidle _ _ (fun hstate => by cases hstate) (by simp)
  | @skip g hpc hpass => exact hidle _ _ id (by cases g <;> simp [Guard.next])
  | stop | tick d | enter hth hpc | wake hth hpc hclock | quit hth hpc | set hth hpc
  | cancel hth hpc hreq | other op => exact ⟨h.launched, h.results, h.stage, h.completed⟩

variable [DecidableEq ι]

/-- **A session among rivals runs as it does by itself.** For every use
case, any number of sessions over it and any order of their steps, there is
for each of them a run of the session machine, in which others hold the use
case, that leads to where the session is; and its own steps are those the
session made, in this order. -/
theorem session_refines (uc : UseCase) (s : ι → Session) (now : ℤ) (as : List (ι × Act))
    (c : Parties ι Config (UseCase × ℤ))
    (hrun : (rivalsMachine ι).run (rivals uc s now) as = some c) (i : ι) :
    ∃ bs, sessionMachine.run (ready (s i) uc now) bs = some (heldPart.view c i) ∧
      bs.filter Act.isOwn = Part.moves Act.isOwn i as :=
  environs_rivals.exists_run_view hrun i

/-- A second session is started while the first is in its work iteration. -/
def rivalRun : List (Bool × Act) :=
  (.start :: (performed 1 ++ [.go, .go])).map (true, ·) ++
    [.start, .go, .go, .enter none, .set, .go, .go, .go, .go, .go].map (false, ·)

theorem session_refines_rivalRun :
    ∃ c, (rivalsMachine Bool).run (rivals shortCase (fun _ => shortSession) 0) rivalRun = some c ∧
      ∃ bs, sessionMachine.run (ready shortSession shortCase 0) bs =
          some (heldPart.view c false) ∧ (bs.filter Act.isOwn).length = 10 := by
  obtain ⟨bs, hrun, hown⟩ :=
    session_refines shortCase (fun _ => shortSession) 0 rivalRun _ rfl false
  exact ⟨_, rfl, bs, hrun, by rw [hown]; rfl⟩

/-- **All of them return.** For every use case and any finite number of
sessions over it, whatever their reservations, however long the stages take,
and whoever else holds the use case: the steps the sessions and their stage
threads make are bounded, in whatever order they are made, and until each of
the sessions has returned one of them is due. -/
theorem rivals_return [Fintype ι] (uc : UseCase) (s : ι → Session) (now : ℤ) :
    (rivalsMachine ι).Ends (fun _ _ => True) (sessionRoles.parties ι)
      (fun c => ∀ i, (heldPart.view c i).pc = .returned) (rivals uc s now) := by
  have hstart : ∀ i, Threaded (heldPart.view (rivals uc s now) i) := fun _ => rfl
  refine environs_rivals.ends sessionRoles (·.pc = .returned) Threaded workLeft ?_ ?_ ?_ hstart
  · exact fun c a c' h hs => h.step (.of_step hs)
  · exact fun c a c' h hs => workLeft_step h (.of_step hs)
  · exact fun c h hpc => (h.due (fun _ => ⟨trivial, trivial, trivial⟩)
      (fun _ _ => trivial) hpc).mono startRoles_sub

/-- **One session at most is let in**, and then the use case is not new. -/
structure Exclusive (c : Parties ι Config (UseCase × ℤ)) : Prop where
  one : ∀ i j, LetIn (heldPart.view c i) → LetIn (heldPart.view c j) → i = j
  taken : ∀ i, LetIn (heldPart.view c i) → c.common.1.currentStage ≠ .new

theorem Exclusive.step {c c' : Parties ι Config (UseCase × ℤ)} {a : ι × Act} (h : Exclusive c)
    (ht : ∀ i, Threaded (heldPart.view c i)) (hs : (rivalsMachine ι).step c a = some c') :
    Exclusive c' := by
  obtain ⟨t, hstep, hc'⟩ := Part.parties_step_iff.1 hs
  have hcommon : c'.common.1 = t.useCase := by rw [hc']; rfl
  -- a session is let in already, or is the one that moves
  have hin : ∀ k, LetIn (heldPart.view c' k) → LetIn (heldPart.view c k) ∨
      k = a.1 ∧ c.common.1.currentStage = .new ∧ c'.common.1.currentStage ≠ .new := by
    intro k hk
    rcases environs_rivals.view_step hs k with ⟨rfl, hview⟩ | ⟨-, hview | ⟨b, hb, hview⟩⟩
    · rcases hk.of_step (ht _) (.of_step hview) with hbefore | hnew
      · exact .inl hbefore
      · exact .inr ⟨rfl, hnew⟩
    · exact .inl (hview ▸ hk)
    · exact .inl (hk.of_environment hb (.of_step hview))
  have hkept : c.common.1.currentStage ≠ .new → c'.common.1.currentStage ≠ .new := by
    intro hne
    rw [hcommon]
    exact ne_new_step hne (.of_step hstep)
  constructor
  · intro i j hi hj
    rcases hin i hi with hi | ⟨hia, hnew, -⟩ <;> rcases hin j hj with hj | ⟨hja, hnew', -⟩
    · exact h.one i j hi hj
    · exact absurd hnew' (h.taken i hi)
    · exact absurd hnew (h.taken j hj)
    · exact hia.trans hja.symm
  · intro i hi
    rcases hin i hi with hi | ⟨-, -, hne⟩
    · exact hkept (h.taken i hi)
    · exact hne

/-- **At most one of the sessions is served.** For every use case, any
number of ready sessions over it, whatever their reservations, and any order
of their steps: no two of them have launched a stage past the
initialisation, and no two of them are completed. -/
theorem at_most_one_served (uc : UseCase) (s : ι → Session) (hready : ∀ i, (s i).state = .ready)
    (now : ℤ) (as : List (ι × Act)) (c : Parties ι Config (UseCase × ℤ))
    (hrun : (rivalsMachine ι).run (rivals uc s now) as = some c) (i j : ι) :
    (∀ typ typ', typ ≠ .init → typ' ≠ .init → .launch typ ∈ (heldPart.view c i).log →
      .launch typ' ∈ (heldPart.view c j).log → i = j) ∧
    ((heldPart.view c i).session.state = .completed →
      (heldPart.view c j).session.state = .completed → i = j) := by
  have hopened : ∀ k, Control (heldPart.view c k) ∧ Opened (heldPart.view c k) := by
    intro k
    have hstart : Control (heldPart.view (rivals uc s now) k) ∧
        Opened (heldPart.view (rivals uc s now) k) :=
      ⟨control_ready (hready k) uc now, opened_ready (hready k) uc now⟩
    exact environs_rivals.view_invariant (fun c => Control c ∧ Opened c)
      (fun _ _ _ h hs => ⟨h.1.step (.of_step hs), h.2.step h.1 (.of_step hs)⟩) hstart hrun
  obtain ⟨-, hexclusive⟩ : (∀ k, Threaded (heldPart.view c k)) ∧ Exclusive c := by
    have hstart : ∀ k, Threaded (heldPart.view (rivals uc s now) k) := fun _ => rfl
    refine Machine.run_invariant (fun c => (∀ k, Threaded (heldPart.view c k)) ∧ Exclusive c)
      ?_ ⟨hstart, ?_⟩ hrun
    · intro c a c' h hs
      obtain ⟨ht, hexclusive⟩ := h
      refine ⟨fun k => ?_, hexclusive.step ht hs⟩
      rcases environs_rivals.view_step hs k with ⟨-, hview⟩ | ⟨-, hview | ⟨b, -, hview⟩⟩
      · exact (ht k).step (.of_step hview)
      · exact hview ▸ ht k
      · exact (ht k).step (.of_step hview)
    · exact ⟨fun i j hi => absurd hi (not_letIn_ready _ _ _),
        fun i hi => absurd hi (not_letIn_ready _ _ _)⟩
  have hserved : ∀ k typ, typ ≠ .init → .launch typ ∈ (heldPart.view c k).log →
      LetIn (heldPart.view c k) := by
    intro k typ htyp hlaunch
    obtain ⟨v, hfine, hv⟩ := (hopened k).2.launched typ hlaunch htyp
    exact .inl ⟨v, hv, by rcases hfine with rfl | rfl <;> simp⟩
  constructor
  · intro typ typ' htyp htyp' hi hj
    exact hexclusive.one i j (hserved i typ htyp hi) (hserved j typ' htyp' hj)
  · intro hi hj
    exact hexclusive.one i j (hserved i .finish (by simp) ((hopened i).2.completed hi))
      (hserved j .finish (by simp) ((hopened j).2.completed hj))

theorem at_most_one_served_rivalRun :
    ∃ c, (rivalsMachine Bool).run (rivals shortCase (fun _ => shortSession) 0) rivalRun = some c ∧
      .launch .witer ∈ (heldPart.view c true).log ∧
      .launch .witer ∉ (heldPart.view c false).log := by
  have hserved : ∀ c ∈ (rivalsMachine Bool).run (rivals shortCase (fun _ => shortSession) 0)
      rivalRun, .launch .witer ∈ (heldPart.view c true).log := by decide
  obtain ⟨c, hrun⟩ : ∃ c, (rivalsMachine Bool).run
      (rivals shortCase (fun _ => shortSession) 0) rivalRun = some c := ⟨_, rfl⟩
  have hready : Bool → shortSession.state = .ready := by decide
  refine ⟨c, hrun, hserved c hrun, fun hmem => ?_⟩
  have hsame := (at_most_one_served shortCase (fun _ => shortSession) hready 0 rivalRun c hrun
    true false).1 .witer .witer (by simp) (by simp) (hserved c hrun) hmem
  cases hsame

end Config

end VireSandbox
