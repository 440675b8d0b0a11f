import VireSandbox.Common.Chain
import VireSandbox.Common.Machine
import VireSandbox.Common.Store
/-!
# Interleavings — chains that share a store

Chains that run at the same time on one store take turns, a statement at a
time. Those that read and write inside a region do not notice what others
do outside of it: a run of all of them is, for them and for the region, the
run of their own steps alone (`Service.run_filter`). And what every
operation of every chain preserves, a run preserves, wherever each of them
stands (`Service.pool_invariant`). What an operation makes so and none
undoes is so once a chain that makes it has come through
(`Lasting.of_ok`).
-/

namespace VireSandbox

/-- A chain that is under way: its statements to come, its flag, and whether
an operation of its has failed. -/
structure Chain (α : Type*) where
  rest : List (Stmt α)
  ok : Bool
  failed : Bool
  deriving DecidableEq, Repr

/-- A chain at its start. -/
def Chain.start {α : Type*} (ps : List (Stmt α)) : Chain α := ⟨ps, true, false⟩

/-- The chain has an operation still to make. -/
def Chain.Mentions {α : Type*} (x : Chain α) (a : α) : Prop :=
  .assign a ∈ x.rest ∨ .ifOk a ∈ x.rest

/-- Chains, and the state they share. -/
structure Pool (ι σ α : Type*) where
  chains : ι → Chain α
  state : σ

namespace Service

variable {ι σ α : Type*} (S : Service σ α)

/-- A chain executes its next statement. -/
def stepChain (fails : Bool) (x : Chain α) (s : σ) : Option (Chain α × σ) :=
  match x.rest with
  | [] => none
  | p :: rest =>
    let r := S.execStmt fails ⟨x.ok, s, x.failed⟩ p
    some (⟨rest, r.ok, r.failed⟩, r.state)

/-- **The machine of chains that take turns**: a step is one of them, and
whether its operation is made to fail. -/
def pool [DecidableEq ι] : Machine (Pool ι σ α) (ι × Bool) :=
  ⟨fun c a => (S.stepChain a.2 (c.chains a.1) c.state).map fun (x, s) =>
    ⟨Function.update c.chains a.1 x, s⟩⟩

variable {S} {x y : Chain α} {s t : σ} {fails : Bool}

/-- What a statement comes to is what its operation comes to, or nothing. -/
theorem stepChain_cases (h : S.stepChain fails x s = some (y, t)) :
    (∀ a, y.Mentions a → x.Mentions a) ∧
      (t = s ∨ ∃ a, x.Mentions a ∧ S.accepts s a = true ∧ t = S.effect s a) := by
  obtain ⟨rest, ok, failed⟩ := x
  cases rest with
  | nil => cases h
  | cons p rest =>
    simp only [stepChain, Option.some.injEq, Prod.mk.injEq] at h
    obtain ⟨rfl, rfl⟩ := h
    refine ⟨fun a ha => ha.imp (List.mem_cons_of_mem p) (List.mem_cons_of_mem p), ?_⟩
    have hperform : ∀ a, (S.perform fails a ⟨ok, s, failed⟩).state = s ∨
        S.accepts s a = true ∧ (S.perform fails a ⟨ok, s, failed⟩).state = S.effect s a := by
      intro a
      rcases S.perform_cases fails a ⟨ok, s, failed⟩ with ⟨-, haccepts, hp⟩ | ⟨-, hp⟩
      · exact .inr ⟨haccepts, by rw [hp]⟩
      · exact .inl (by rw [hp])
    cases p with
    | assign a => exact (hperform a).imp_right fun h => ⟨a, .inl List.mem_cons_self, h⟩
    | ifOk a =>
      cases ok with
      | true => exact (hperform a).imp_right fun h => ⟨a, .inr List.mem_cons_self, h⟩
      | false => exact .inl rfl
    | reset => exact .inl rfl

variable {c : Pool ι σ α}

/-- **What an operation makes so, and no operation undoes.** -/
structure Lasting (S : Service σ α) (c : Pool ι σ α) (a : α) (I : σ → Prop) : Prop where
  made : ∀ s, S.accepts s a = true → I (S.effect s a)
  kept : ∀ j b s, (c.chains j).Mentions b → I s → S.accepts s b = true → I (S.effect s b)

/-- An operation that is made, and makes it so or keeps it, or fails. -/
theorem Lasting.perform_cases {a b : α} {I : σ → Prop} (h : Lasting S c a I) {j : ι}
    (hb : (c.chains j).Mentions b) (fails : Bool) (r : Progress σ) :
    (∃ s, S.perform fails b r = ⟨true, s, r.failed⟩ ∧ (b = a ∨ I r.state → I s)) ∨
      S.perform fails b r = ⟨false, r.state, true⟩ := by
  rcases S.perform_cases fails b r with ⟨-, haccepts, hp⟩ | ⟨-, hp⟩
  · refine .inl ⟨_, hp, fun hbefore => ?_⟩
    rcases hbefore with rfl | hI
    · exact h.made r.state haccepts
    · exact h.kept j b r.state hb hI haccepts
  · exact .inr hp

/-- Among guarded operations: before the one in question, or with the flag
down, or past it. -/
def Marked (I : σ → Prop) (a : α) (x : Chain α) (s : σ) : Prop :=
  ∃ bs : List α, x.rest = bs.map .ifOk ∧ (a ∈ bs ∨ (x.ok = true → I s))

/-- A guarded operation leaves it so. -/
theorem Lasting.marked {i : ι} {a : α} {I : σ → Prop} (h : Lasting S c a I)
    (hmentions : ∀ b, x.Mentions b → (c.chains i).Mentions b) (hx : Marked I a x s)
    (hstep : S.stepChain fails x s = some (y, t)) : Marked I a y t := by
  obtain ⟨bs, hrest, hpast⟩ := hx
  cases bs with
  | nil => simp [stepChain, hrest] at hstep
  | cons b bs =>
    have hb : (c.chains i).Mentions b := hmentions b (.inr (by simp [hrest]))
    simp only [stepChain, hrest, List.map_cons, execStmt, Option.some.injEq,
      Prod.mk.injEq] at hstep
    obtain ⟨rfl, rfl⟩ := hstep
    refine ⟨bs, rfl, ?_⟩
    by_cases hok : x.ok = true
    · rw [if_pos hok]
      rcases h.perform_cases hb fails ⟨x.ok, s, x.failed⟩ with ⟨s', hp, hI⟩ | hp
      · rw [hp]
        rcases hpast with hmem | hpast
        · rcases List.mem_cons.1 hmem with rfl | hmem
          · exact .inr fun _ => hI (.inl rfl)
          · exact .inl hmem
        · exact .inr fun _ => hI (.inr (hpast hok))
      · rw [hp]
        exact .inr fun hok => by cases hok
    · rw [if_neg hok]
      exact .inr fun hok' => absurd hok' hok

/-- A statement leaves it so that the operation is still to come unguarded,
or one has failed, or it is past. -/
theorem Lasting.unguarded {i : ι} {a : α} {I : σ → Prop} (h : Lasting S c a I)
    (hmentions : ∀ b, x.Mentions b → (c.chains i).Mentions b)
    (hx : .assign a ∈ x.rest ∨ (x.failed = false → I s))
    (hstep : S.stepChain fails x s = some (y, t)) :
    .assign a ∈ y.rest ∨ (y.failed = false → I t) := by
  cases hrest : x.rest with
  | nil => simp [stepChain, hrest] at hstep
  | cons p rest =>
    simp only [stepChain, hrest, Option.some.injEq, Prod.mk.injEq] at hstep
    obtain ⟨rfl, rfl⟩ := hstep
    rw [hrest] at hx
    have hpast : .assign a ∈ rest ∨ p = .assign a ∨ (x.failed = false → I s) := by
      rcases hx with hmem | hI
      · exact (List.mem_cons.1 hmem).symm.imp_right fun hp => .inl hp.symm
      · exact .inr (.inr hI)
    have hperform : ∀ b, (c.chains i).Mentions b → (b = a ∨ (x.failed = false → I s)) →
        (S.perform fails b ⟨x.ok, s, x.failed⟩).failed = false →
        I (S.perform fails b ⟨x.ok, s, x.failed⟩).state := by
      intro b hb hpast hno
      rcases h.perform_cases hb fails ⟨x.ok, s, x.failed⟩ with ⟨s', hp, hI⟩ | hp
      · rw [hp] at hno ⊢
        exact hI (hpast.imp_right fun hI => hI hno)
      · rw [hp] at hno
        cases hno
    refine hpast.imp_right fun hpast => ?_
    cases p with
    | assign b =>
      exact hperform b (hmentions b (.inl (by simp [hrest])))
        (hpast.imp_left fun hp => Stmt.assign.inj hp)
    | ifOk b =>
      have hI : x.failed = false → I s := hpast.resolve_left (by simp)
      cases hok : x.ok with
      | true =>
        rw [hok] at hperform
        exact hperform b (hmentions b (.inr (by simp [hrest]))) (.inr hI)
      | false => exact hI
    | reset => exact hpast.resolve_left (by simp)

variable [DecidableEq ι] {c' d : Pool ι σ α} {as : List (ι × Bool)}

theorem pool_step_iff {a : ι × Bool} : S.pool.step c a = some c' ↔
    ∃ x s, S.stepChain a.2 (c.chains a.1) c.state = some (x, s) ∧
      c' = ⟨Function.update c.chains a.1 x, s⟩ := by
  unfold pool
  rw [Option.map_eq_some_iff]
  constructor
  · rintro ⟨⟨x, s⟩, hchain, rfl⟩
    exact ⟨x, s, hchain, rfl⟩
  · rintro ⟨x, s, hchain, rfl⟩
    exact ⟨(x, s), hchain, rfl⟩

/-- What the chains have to make grows less. -/
theorem mentions_update {i j : ι} {a : α} (hless : ∀ a, x.Mentions a → (c.chains i).Mentions a)
    (ha : (Function.update c.chains i x j).Mentions a) : (c.chains j).Mentions a := by
  by_cases hj : j = i
  · subst hj
    rw [Function.update_self] at ha
    exact hless a ha
  · rwa [Function.update_of_ne hj] at ha

/-- **What every operation of the chains that move preserves, a run
preserves.** -/
theorem pool_invariant (I : σ → Prop)
    (hI : ∀ i ∈ as.map Prod.fst, ∀ a s, (c.chains i).Mentions a → I s → S.accepts s a = true →
      I (S.effect s a))
    (h : I c.state) (hrun : S.pool.run c as = some c') : I c'.state := by
  -- along with what the chains have to make, which grows less
  have hmoving : S.pool.Within (fun _ a => a.1 ∈ as.map Prod.fst) c as :=
    (Machine.within_forall_iff hrun).2 fun a => List.mem_map_of_mem
  refine (Machine.run_induction
    (fun d : Pool ι σ α => (∀ i a, (d.chains i).Mentions a → (c.chains i).Mentions a) ∧ I d.state)
    ?_ ⟨fun _ _ ha => ha, h⟩ hmoving hrun).2
  rintro d ⟨i, fails⟩ d' ⟨hmentions, hd⟩ hi hstep
  obtain ⟨x, s, hchain, rfl⟩ := pool_step_iff.1 hstep
  obtain ⟨hless, hstate⟩ := stepChain_cases hchain
  refine ⟨fun j a ha => hmentions j a (mentions_update hless ha), ?_⟩
  rcases hstate with rfl | ⟨a, ha, haccepts, rfl⟩
  · exact hd
  · exact hI i hi a d.state (hmentions i a ha) hd haccepts

/-- **One chain among the others**: what its own steps keep of it and of the
state, and the operations of all of them keep of the state, a run keeps. -/
theorem pool_induction {i : ι} (M : Chain α → σ → Prop)
    (hself : ∀ x s fails y t, M x s → S.stepChain fails x s = some (y, t) →
      (∀ a, x.Mentions a → (c.chains i).Mentions a) → M y t)
    (hall : ∀ j a x s, (c.chains j).Mentions a → M x s → S.accepts s a = true →
      M x (S.effect s a))
    (h : M (c.chains i) c.state) (hrun : S.pool.run c as = some c') :
    M (c'.chains i) c'.state := by
  have hany : S.pool.Within (fun _ _ => True) c as :=
    (Machine.within_forall_iff hrun).2 fun _ _ => trivial
  refine (Machine.run_induction
    (fun d : Pool ι σ α => (∀ j a, (d.chains j).Mentions a → (c.chains j).Mentions a) ∧
      M (d.chains i) d.state)
    ?_ ⟨fun _ _ ha => ha, h⟩ hany hrun).2
  rintro d ⟨j, fails⟩ d' ⟨hmentions, hd⟩ - hstep
  obtain ⟨x, s, hchain, rfl⟩ := pool_step_iff.1 hstep
  obtain ⟨hless, hstate⟩ := stepChain_cases hchain
  refine ⟨fun k a ha => hmentions k a (mentions_update hless ha), ?_⟩
  by_cases hj : i = j
  · subst hj
    simp only [Function.update_self]
    exact hself _ _ fails _ _ hd hchain (hmentions i)
  · simp only [Function.update_of_ne hj]
    rcases hstate with rfl | ⟨a, ha, haccepts, rfl⟩
    · exact hd
    · exact hall j a _ d.state (hmentions j a ha) hd haccepts

/-- **It is so once a chain has come through the guarded operations** that
it is one of, its flag still up. -/
theorem Lasting.of_ok {i : ι} {a : α} {I : σ → Prop} (h : Lasting S c a I)
    {ps : List (Stmt α)} {bs : List α} (hrest : (c.chains i).rest = ps ++ bs.map .ifOk)
    (ha : a ∈ bs) (hrun : S.pool.run c as = some c') (hended : (c'.chains i).rest = [])
    (hok : (c'.chains i).ok = true) : I c'.state := by
  -- the guarded operations are still to come, or the chain is among them
  have hmarked : (∃ ps, (c'.chains i).rest = ps ++ bs.map .ifOk) ∨
      Marked I a (c'.chains i) c'.state := by
    refine pool_induction
      (fun x s => (∃ ps, x.rest = ps ++ bs.map .ifOk) ∨ Marked I a x s)
      ?_ ?_ (.inl ⟨ps, hrest⟩) hrun
    · rintro x s fails y t (⟨ps, hps⟩ | hx) hstep hmentions
      · cases ps with
        | nil => exact .inr (h.marked hmentions ⟨bs, hps, .inl ha⟩ hstep)
        | cons p ps =>
          simp only [stepChain, hps, List.cons_append, Option.some.injEq, Prod.mk.injEq] at hstep
          exact .inl ⟨ps, by rw [← hstep.1]⟩
      · exact .inr (h.marked hmentions hx hstep)
    · rintro j b x s hb (hps | ⟨bs', hbs, hpast⟩) haccepts
      · exact .inl hps
      · exact .inr ⟨bs', hbs, hpast.imp_right fun hI hok => h.kept j b s hb (hI hok) haccepts⟩
  rw [Marked, hended] at hmarked
  rcases hmarked with ⟨ps, hps⟩ | ⟨bs', hbs, hpast⟩
  · obtain ⟨-, hnil⟩ := List.append_eq_nil_iff.1 hps.symm
    rw [List.map_eq_nil_iff.1 hnil] at ha
    cases ha
  · rw [List.map_eq_nil_iff.1 hbs.symm] at hpast
    rcases hpast with hmem | hI
    · cases hmem
    · exact hI hok

/-- **And once a chain has come through without a failure** that makes it
unguarded. -/
theorem Lasting.of_not_failed {i : ι} {a : α} {I : σ → Prop} (h : Lasting S c a I)
    (ha : .assign a ∈ (c.chains i).rest) (hrun : S.pool.run c as = some c')
    (hended : (c'.chains i).rest = []) (hfailed : (c'.chains i).failed = false) :
    I c'.state := by
  have hmarked : .assign a ∈ (c'.chains i).rest ∨ ((c'.chains i).failed = false → I c'.state) := by
    refine pool_induction (fun x s => .assign a ∈ x.rest ∨ (x.failed = false → I s)) ?_ ?_
      (.inl ha) hrun
    · intro x s fails y t hx hstep hmentions
      exact h.unguarded hmentions hx hstep
    · intro j b x s hb hx haccepts
      exact hx.imp_right fun hI hno => h.kept j b s hb (hI hno) haccepts
  rw [hended] at hmarked
  rcases hmarked with hmem | hI
  · cases hmem
  · exact hI hfailed

/-- **A chain that takes every turn until it is through is the program run
by itself.** -/
theorem run_self {i : ι} {bits : List Bool} (hended : (c'.chains i).rest = [])
    (hrun : S.pool.run c (bits.map (i, ·)) = some c') :
    (⟨(c'.chains i).ok, c'.state, (c'.chains i).failed⟩ : Progress σ) =
      S.exec (c.chains i).rest (fun n => bits.getD n false)
        ⟨(c.chains i).ok, c.state, (c.chains i).failed⟩ := by
  induction bits generalizing c with
  | nil =>
    cases hrun
    rw [hended]
    rfl
  | cons fails bits ih =>
    obtain ⟨d, hstep, hrun⟩ := Machine.run_cons_iff.1 hrun
    obtain ⟨x, s, hchain, rfl⟩ := pool_step_iff.1 hstep
    have hexec := ih hrun
    simp only [Function.update_self] at hexec
    cases hrest : (c.chains i).rest with
    | nil => simp [stepChain, hrest] at hchain
    | cons p rest =>
      simp only [stepChain, hrest, Option.some.injEq, Prod.mk.injEq] at hchain
      obtain ⟨rfl, rfl⟩ := hchain
      exact hexec

end Service

/-! ## Regions -/

namespace Service

variable {ι κ α : Type*} {ν : κ → Type*} (S : Service (Store κ ν) α) (p : κ → Prop)

/-- **An operation stays inside a region**: what it reads and what it makes
there are told by what the region holds. -/
structure Within (a : α) : Prop where
  accepts : ∀ s t, Store.AgreeOn p s t → S.accepts s a = S.accepts t a
  effect : ∀ s t, Store.AgreeOn p s t → Store.AgreeOn p (S.effect s a) (S.effect t a)

/-- **An operation spares a region**: it leaves what the region holds. -/
def Spares (a : α) : Prop := ∀ s, Store.AgreeOn p (S.effect s a) s

variable {S p} {x y : Chain α} {s t s' : Store κ ν} {fails : Bool}

/-- A chain inside the region steps as if nothing else were there. -/
theorem stepChain_within (hwithin : ∀ a, x.Mentions a → S.Within p a)
    (h : Store.AgreeOn p s t) (hstep : S.stepChain fails x s = some (y, s')) :
    ∃ t', S.stepChain fails x t = some (y, t') ∧ Store.AgreeOn p s' t' := by
  obtain ⟨rest, ok, failed⟩ := x
  cases rest with
  | nil => cases hstep
  | cons q rest =>
    simp only [stepChain, Option.some.injEq, Prod.mk.injEq] at hstep
    obtain ⟨rfl, rfl⟩ := hstep
    have hperform : ∀ a, Chain.Mentions ⟨q :: rest, ok, failed⟩ a →
        (S.perform fails a ⟨ok, t, failed⟩).ok = (S.perform fails a ⟨ok, s, failed⟩).ok ∧
        (S.perform fails a ⟨ok, t, failed⟩).failed = (S.perform fails a ⟨ok, s, failed⟩).failed ∧
        Store.AgreeOn p (S.perform fails a ⟨ok, s, failed⟩).state
          (S.perform fails a ⟨ok, t, failed⟩).state := by
      intro a ha
      have hw := hwithin a ha
      simp only [perform, hw.accepts s t h]
      split
      · exact ⟨rfl, rfl, h⟩
      · exact ⟨rfl, rfl, hw.effect s t h⟩
    have hstmt : (S.execStmt fails ⟨ok, t, failed⟩ q).ok =
          (S.execStmt fails ⟨ok, s, failed⟩ q).ok ∧
        (S.execStmt fails ⟨ok, t, failed⟩ q).failed =
          (S.execStmt fails ⟨ok, s, failed⟩ q).failed ∧
        Store.AgreeOn p (S.execStmt fails ⟨ok, s, failed⟩ q).state
          (S.execStmt fails ⟨ok, t, failed⟩ q).state := by
      cases q with
      | assign a => exact hperform a (.inl List.mem_cons_self)
      | ifOk a =>
        cases ok with
        | true => exact hperform a (.inr List.mem_cons_self)
        | false => exact ⟨rfl, rfl, h⟩
      | reset => exact ⟨rfl, rfl, h⟩
    obtain ⟨hok, hfailed, hstate⟩ := hstmt
    exact ⟨_, by simp only [stepChain, hok, hfailed], hstate⟩

variable [DecidableEq ι] {c c' d : Pool ι (Store κ ν) α} {as : List (ι × Bool)} {D : ι → Bool}

/-- Two pools look the same to the chains of `D`, and to their region. -/
structure LooksLike (p : κ → Prop) (D : ι → Bool) (c d : Pool ι (Store κ ν) α) : Prop where
  chains : ∀ i, D i = true → c.chains i = d.chains i
  state : Store.AgreeOn p c.state d.state

/-- **The chains inside a region run by themselves.** Where the chains of
`D` stay inside the region and the others spare it, a run of all of them is
to the chains of `D` and to the region the run of the steps of `D`. -/
theorem run_filter
    (hwithin : ∀ i, D i = true → ∀ a, (c.chains i).Mentions a → S.Within p a)
    (hspares : ∀ i, D i = false → ∀ a, (c.chains i).Mentions a → S.Spares p a)
    (h : LooksLike p D c d) (hrun : S.pool.run c as = some c') :
    ∃ d', S.pool.run d (as.filter fun a => D a.1) = some d' ∧ LooksLike p D c' d' := by
  induction as generalizing c d with
  | nil =>
    cases hrun
    exact ⟨d, rfl, h⟩
  | cons a as ih =>
    obtain ⟨i, fails⟩ := a
    obtain ⟨e, hstep, hrun⟩ := Machine.run_cons_iff.1 hrun
    obtain ⟨x, s, hchain, rfl⟩ := pool_step_iff.1 hstep
    obtain ⟨hless, hstate⟩ := stepChain_cases hchain
    have hwithin' : ∀ j, D j = true → ∀ a, (Function.update c.chains i x j).Mentions a →
        S.Within p a := fun j hj a ha => hwithin j hj a (mentions_update hless ha)
    have hspares' : ∀ j, D j = false → ∀ a, (Function.update c.chains i x j).Mentions a →
        S.Spares p a := fun j hj a ha => hspares j hj a (mentions_update hless ha)
    cases hi : D i with
    | true =>
      obtain ⟨t, hchain', hagree⟩ := stepChain_within (hwithin i hi) h.state hchain
      rw [h.chains i hi] at hchain'
      have hlooks : LooksLike p D ⟨Function.update c.chains i x, s⟩
          ⟨Function.update d.chains i x, t⟩ := by
        refine ⟨fun j hj => ?_, hagree⟩
        by_cases hji : j = i
        · subst hji
          simp
        · simpa [hji] using h.chains j hj
      obtain ⟨d', hrun', hlooks'⟩ := ih hwithin' hspares' hlooks hrun
      refine ⟨d', ?_, hlooks'⟩
      simp only [List.filter_cons, hi, if_true]
      rw [Machine.run_cons (pool_step_iff.2 ⟨x, t, hchain', rfl⟩), hrun']
    | false =>
      have hlooks : LooksLike p D ⟨Function.update c.chains i x, s⟩ d := by
        refine ⟨fun j hj => ?_, ?_⟩
        · have hji : j ≠ i := by
            rintro rfl
            rw [hi] at hj
            cases hj
          simpa [hji] using h.chains j hj
        · rcases hstate with rfl | ⟨a, ha, -, rfl⟩
          · exact h.state
          · exact (hspares i hi a ha c.state).trans h.state
      obtain ⟨d', hrun', hlooks'⟩ := ih hwithin' hspares' hlooks hrun
      refine ⟨d', ?_, hlooks'⟩
      simpa only [List.filter_cons, hi, Bool.false_eq_true, if_false] using hrun'

end Service

end VireSandbox
