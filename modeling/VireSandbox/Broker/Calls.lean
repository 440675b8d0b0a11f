import VireSandbox.Broker.Model
/-!
# The broker — what its calls keep

Each call changes the cells it is about and no others, and keeps a
well-formed broker well-formed, since it is accepted only where what it
builds on is there. Every program keeps both.
-/

namespace VireSandbox

namespace Broker

variable {R : Type} {absentOk : Bool} {b b' : Broker R} {c : Call R} {k : Cell} {u v : String}

theorem accepts_iff :
    (service R absentOk).accepts b c = true ↔ ∀ k ∈ c.needs absentOk, b.Has k := by
  simp [service]

theorem not_has_iff : ¬ b.Has k ↔ b k = none := by
  simp [Has]

theorem has_put_iff {l : Cell} {d : l.Datum R} :
    Broker.Has (Store.put b l d) k ↔ k = l ∨ b.Has k := by
  unfold Has
  by_cases hkl : k = l
  · subst hkl
    simp
  · simp [hkl]

theorem has_clear_iff {p : Cell → Prop} [DecidablePred p] :
    Broker.Has (Store.clear b p) k ↔ ¬ p k ∧ b.Has k := by
  unfold Has Store.clear
  by_cases hk : p k <;> simp [hk]

/-- The cells a call may change. -/
def Call.Touches : Call R → Cell → Prop
  | .deleteUser u, k => k.OfUser u
  | .deleteVhost v, k => k.OfVhost v
  | .addUser u _, k => k = .user u
  | .addVhost v, k => k = .vhost v
  | .exchangeDeclare name v _, k => k = .exchange v name
  | .setPermissions u v _, k => k = .permission u v

/-- **A call changes what it is about.** -/
theorem Call.effect_agreeOn (c : Call R) (b : Broker R) :
    Store.AgreeOn (fun k => ¬ c.Touches k) (c.effect b) b := by
  intro k hk
  cases c with
  | addUser | addVhost | exchangeDeclare | setPermissions => exact Store.put_of_ne _ hk
  | deleteUser | deleteVhost => exact Store.clear_of_neg hk

/-- What a call writes, if it is one that does. -/
def Call.write : Call R → Option (Σ k : Cell, k.Datum R)
  | .addUser u password => some ⟨.user u, password⟩
  | .addVhost v => some ⟨.vhost v, ()⟩
  | .exchangeDeclare name v params => some ⟨.exchange v name, params⟩
  | .setPermissions u v perms => some ⟨.permission u v, perms⟩
  | .deleteUser _ | .deleteVhost _ => none

/-- Calls that all write. -/
def Writing (cs : List (Call R)) : Prop := ∀ c ∈ cs, c.write.isSome = true

theorem effect_of_write {c : Call R} {w : Σ k : Cell, k.Datum R} (h : c.write = some w) :
    c.effect b = Store.put b w.1 w.2 ∧ w.1 = c.cell := by
  cases c <;> cases h <;> exact ⟨rfl, rfl⟩

theorem touches_of_write {c : Call R} (h : c.write.isSome = true) (htouch : c.Touches k) :
    k = c.cell := by
  cases c <;> first | exact htouch | cases h

/-- A call that writes takes nothing away. -/
theorem Has.effect (h : b.Has k) (hwrite : c.write.isSome = true) : (c.effect b).Has k := by
  obtain ⟨w, hw⟩ := Option.isSome_iff_exists.1 hwrite
  rw [(effect_of_write hw).1]
  exact has_put_iff.2 (.inr h)

/-- **A program changes what its calls are about.** -/
theorem exec_agreeOn {p : Cell → Prop} {ps : List (Stmt (Call R))} {fails : ℕ → Bool}
    {r : Progress (Broker R)}
    (hp : ∀ c k, .assign c ∈ ps ∨ .ifOk c ∈ ps → c.Touches k → p k) :
    Store.AgreeOn (fun k => ¬ p k) ((service R absentOk).exec ps fails r).state r.state := by
  refine Service.exec_invariant (fun b => Store.AgreeOn (fun k => ¬ p k) b r.state) ?_ .refl
  intro c b hc h _
  exact ((c.effect_agreeOn b).mono fun k hk htouch => hk (hp c k hc htouch)).trans h

/-- A user that is not there has nothing. -/
theorem WellFormed.empty_of_user (h : WellFormed b) (hu : ¬ b.Has (.user u)) :
    ∀ k, k.OfUser u → b k = none := by
  intro k hk
  cases k with
  | user name =>
    obtain rfl : name = u := hk
    exact not_has_iff.1 hu
  | permission name vh =>
    obtain rfl : name = u := hk
    exact not_has_iff.1 fun hperm => hu (h.permission name vh hperm).1
  | vhost | exchange => cases hk

/-- Nor has a vhost. -/
theorem WellFormed.empty_of_vhost (h : WellFormed b) (hv : ¬ b.Has (.vhost v)) :
    ∀ k, k.OfVhost v → b k = none := by
  intro k hk
  cases k with
  | vhost name =>
    obtain rfl : name = v := hk
    exact not_has_iff.1 hv
  | exchange vh name =>
    obtain rfl : vh = v := hk
    exact not_has_iff.1 fun hex => hv (h.exchange vh name hex)
  | permission name vh =>
    obtain rfl : vh = v := hk
    exact not_has_iff.1 fun hperm => hv (h.permission name vh hperm).2
  | user => cases hk

/-- What is written on what it builds on keeps the broker well-formed. -/
theorem WellFormed.put (h : WellFormed b) {l : Cell} {d : l.Datum R}
    (hexchange : ∀ vhost name, l = .exchange vhost name → b.Has (.vhost vhost))
    (hpermission : ∀ user vhost, l = .permission user vhost →
      b.Has (.user user) ∧ b.Has (.vhost vhost)) :
    WellFormed (Store.put b l d) := by
  refine ⟨fun vhost name hex => ?_, fun user vhost hperm => ?_⟩
  · rcases has_put_iff.1 hex with hl | hex
    · exact has_put_iff.2 (.inr (hexchange vhost name hl.symm))
    · exact has_put_iff.2 (.inr (h.exchange vhost name hex))
  · have hboth : b.Has (.user user) ∧ b.Has (.vhost vhost) := by
      rcases has_put_iff.1 hperm with hl | hperm
      · exact hpermission user vhost hl.symm
      · exact h.permission user vhost hperm
    exact ⟨has_put_iff.2 (.inr hboth.1), has_put_iff.2 (.inr hboth.2)⟩

/-- And so does a clearing that takes along what is built on what it
takes. -/
theorem WellFormed.clear (h : WellFormed b) {p : Cell → Prop} [DecidablePred p]
    (hexchange : ∀ vhost name, p (.vhost vhost) → p (.exchange vhost name))
    (hpermission : ∀ user vhost, p (.user user) ∨ p (.vhost vhost) → p (.permission user vhost)) :
    WellFormed (Store.clear b p) := by
  refine ⟨fun vhost name hex => ?_, fun user vhost hperm => ?_⟩
  · obtain ⟨hnot, hex⟩ := has_clear_iff.1 hex
    exact has_clear_iff.2 ⟨mt (hexchange vhost name) hnot, h.exchange vhost name hex⟩
  · obtain ⟨hnot, hperm⟩ := has_clear_iff.1 hperm
    obtain ⟨huser, hvhost⟩ := h.permission user vhost hperm
    have hneither := mt (hpermission user vhost) hnot
    exact ⟨has_clear_iff.2 ⟨fun hp => hneither (.inl hp), huser⟩,
      has_clear_iff.2 ⟨fun hp => hneither (.inr hp), hvhost⟩⟩

/-- **An accepted call keeps the broker well-formed.** -/
theorem WellFormed.effect (h : WellFormed b) (hneeds : ∀ k ∈ c.needs absentOk, b.Has k) :
    WellFormed (c.effect b) := by
  cases c with
  | addUser u password | addVhost v => exact h.put nofun nofun
  | exchangeDeclare x v params =>
    refine h.put ?_ nofun
    rintro vhost name ⟨⟩
    exact hneeds (.vhost v) (by simp [Call.needs])
  | setPermissions u v perms =>
    refine h.put nofun ?_
    rintro user vhost ⟨⟩
    exact ⟨hneeds (.user u) (by simp [Call.needs]), hneeds (.vhost v) (by simp [Call.needs])⟩
  | deleteUser u =>
    refine h.clear (fun _ _ hp => hp.elim) fun user vhost hp => ?_
    exact hp.resolve_right id
  | deleteVhost v =>
    refine h.clear (fun _ _ hp => hp) fun user vhost hp => ?_
    exact hp.resolve_left id

/-- And so does every program, wherever it is cut. -/
theorem WellFormed.exec {ps : List (Stmt (Call R))} {fails : ℕ → Bool} {r : Progress (Broker R)}
    (h : WellFormed r.state) : WellFormed ((service R absentOk).exec ps fails r).state :=
  Service.exec_invariant WellFormed (fun _ _ _ hI haccepts => hI.effect (accepts_iff.1 haccepts)) h

end Broker

end VireSandbox
