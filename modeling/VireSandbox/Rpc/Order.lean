import VireSandbox.Rpc.Response
/-!
# The bus — a server serves in order

A server takes what is published for it in the order of publication, and
what it has published are its replies to what it has taken, in the same
order and with nothing between them: message by message, it is a function
of the sequence there is for it (`served_in_order`). It goes on as long as
it drops or answers what it takes, and the first message it does neither
with is the last it takes (`taken_up_to_first`).
-/

namespace VireSandbox

namespace Rpc

variable {κ σ ℓ : Type} {M : Type} {vire : Driver M} {bus : Bus κ σ ℓ}

/-! ## What a server publishes -/

/-- **The reply of a server** to a message, if it replies: for the
reply-to queue, with the correlation id and the response to the bytes. -/
def ServerProgram.answer (vire : Driver M) (program : ServerProgram) (now : ℕ → ℤ)
    (m : Message) : Option (String × Message) :=
  match m.properties.correlationId, m.properties.replyTo with
  | some id, some queue =>
    (program.response vire now m.body).map fun response => ("", ⟨queue, ⟨some id, none⟩, response⟩)
  | _, _ => none

/-- What the rest of an iteration publishes. -/
def emits (propOut : Properties) : List Op → List (String × Message)
  | [] => []
  | .setCorrelationId id :: ops => emits { propOut with correlationId := some id } ops
  | .publish exchange routingKey body :: ops =>
    (exchange, ⟨routingKey, propOut, body⟩) :: emits propOut ops
  | .ack :: ops => emits propOut ops
  | .throw :: _ => []

/-- **An iteration publishes its reply**, and nothing else. -/
theorem emits_service (program : ServerProgram) (now : ℕ → ℤ) (m : Message) {propOut : Properties}
    (h : propOut.replyTo = none) :
    emits propOut (program.service vire now m.body m.properties) =
      (program.answer vire now m).toList := by
  rcases service_cases vire program now m.body m.properties with
    ⟨id, queue, response, hprop, hresponse, hservice⟩ | ⟨hnone, hservice⟩ | ⟨hprop, hservice⟩
  · rw [hservice]
    simp [reply, emits, ServerProgram.answer, hprop, hresponse, h]
  · have hanswer : program.answer vire now m = none := by
      unfold ServerProgram.answer
      split
      · rw [hnone]
        rfl
      · rfl
    rcases hservice with hservice | hservice <;> simp [hservice, emits, hanswer]
  · have hanswer : program.answer vire now m = none := by
      unfold ServerProgram.answer
      split
      · next hid hqueue =>
        rcases hprop with hprop | hprop
        · rw [hprop] at hid
          cases hid
        · rw [hprop] at hqueue
          cases hqueue
      · rfl
    simp [hservice, emits, hanswer]

namespace BusState

/-- What a server has still to publish of its iteration. -/
def pending (server : Server) : List (String × Message) :=
  match server.pc with
  | .run ops => emits server.propOut ops
  | .consume | .left => []

/-- What a call publishes. -/
def published : Option Effect → List (String × Message)
  | some (.publish exchange m) => [(exchange, m)]
  | _ => []

theorem pending_step {server server' : Server} {effect : Option Effect}
    (hs : server.step = some (server', effect)) :
    pending server = published effect ++ pending server' := by
  unfold Server.step at hs
  split at hs
  · next hpc =>
    cases hs
    simp [pending, published, hpc, emits]
  · next hpc =>
    cases hs
    simp [pending, published, hpc, emits]
  · next hpc =>
    cases hs
    simp [pending, published, hpc, emits]
  · next hpc =>
    cases hs
    simp [pending, published, hpc, emits]
  · next hpc =>
    cases hs
    simp [pending, published, hpc, emits]
  · cases hs
  · cases hs

/-- What was published for a server. -/
def offered (bus : Bus κ σ ℓ) (s : σ) (log : List (BusEvent σ)) : List Message :=
  log.filterMap fun
    | .publish exchange m => if bus.reaches exchange m (.inr (.inl s)) then some m else none
    | _ => none

variable [DecidableEq σ]

/-- What a server has taken, with its readings of the clock. -/
def taken (s : σ) (log : List (BusEvent σ)) : List ((ℕ → ℤ) × Message) :=
  log.filterMap fun
    | .consume s' now m => if s' = s then some (now, m) else none
    | _ => none

/-- **A server is in order**: what was published for it is what it has taken
and what waits, and what it has published, or is about to, are its replies
to what it has taken. -/
structure InOrder (vire : Driver M) (bus : Bus κ σ ℓ) (c : BusState κ σ ℓ) (s : σ) : Prop where
  offered : offered bus s c.log = (taken s c.log).map Prod.snd ++ (c.queue s).ready
  replies : sent s c.log ++ pending (c.server s) =
    (taken s c.log).filterMap fun r => (bus.server s).answer vire r.1 r.2

variable {c c' : BusState κ σ ℓ} {a : BusAct κ σ ℓ} {s : σ} {m : Message} {exchange : String}
variable {log : List (BusEvent σ)}

section

variable {s' : σ} {now : ℕ → ℤ}

@[simp] theorem taken_publish : taken s (log ++ [.publish exchange m]) = taken s log := by
  simp [taken]

@[simp] theorem taken_reply : taken s (log ++ [.reply s' exchange m]) = taken s log := by
  simp [taken]

theorem taken_consume : taken s (log ++ [.consume s' now m]) =
    taken s log ++ if s' = s then [(now, m)] else [] := by
  by_cases hs : s' = s <;> simp [taken, hs]

omit [DecidableEq σ] in
theorem offered_publish : offered bus s (log ++ [.publish exchange m]) =
    offered bus s log ++ if bus.reaches exchange m (.inr (.inl s)) then [m] else [] := by
  by_cases hreaches : bus.reaches exchange m (.inr (.inl s)) = true <;> simp [offered, hreaches]

omit [DecidableEq σ] in
@[simp] theorem offered_reply :
    offered bus s (log ++ [.reply s' exchange m]) = offered bus s log := by
  simp [offered]

omit [DecidableEq σ] in
@[simp] theorem offered_consume :
    offered bus s (log ++ [.consume s' now m]) = offered bus s log := by
  simp [offered]

end

/-- What is published comes last. -/
theorem InOrder.publish (h : InOrder vire bus c s) :
    InOrder vire bus (c.publish bus exchange m) s where
  offered := by
    change BusState.offered bus s (c.log ++ [.publish exchange m]) =
      (taken s (c.log ++ [.publish exchange m])).map Prod.snd ++ _
    rw [offered_publish, taken_publish, ready_publish, h.offered, List.append_assoc]
  replies := by
    change sent s (c.log ++ [.publish exchange m]) ++ _ =
      (taken s (c.log ++ [.publish exchange m])).filterMap _
    rw [sent_publish, taken_publish]
    exact h.replies

/-- **A call of a server**, which publishes what is next of its iteration. -/
theorem InOrder.go {s' : σ} {server : Server} {effect : Option Effect}
    (h : InOrder vire bus c s) (hsound : Sound vire bus c)
    (hs : (c.server s').step = some (server, effect)) :
    InOrder vire bus
      ({ c with server := Function.update c.server s' server }.apply bus s' effect) s := by
  have hview := hsound.view_go hs s
  have hlog : taken s ({ c with server := Function.update c.server s' server }.apply bus s'
        effect).log = taken s c.log ∧
      BusState.offered bus s ({ c with server := Function.update c.server s' server }.apply bus s'
        effect).log = BusState.offered bus s c.log := by
    rcases effect with _ | ⟨exchange, m⟩ | delivery
    · exact ⟨rfl, rfl⟩
    · exact ⟨taken_reply, offered_reply⟩
    · exact ⟨rfl, rfl⟩
  have hserver := congrArg Config.server hview
  have hqueue := congrArg (fun v : Config => v.queue.ready) hview
  have hsent := congrArg Config.sent hview
  simp only [view] at hserver hqueue hsent
  constructor
  · rw [hlog.1, hlog.2, h.offered, hqueue]
    by_cases hs' : s = s'
    · subst hs'
      rw [if_pos rfl]
      rcases effect with _ | ⟨exchange, m⟩ | delivery <;> rfl
    · rw [if_neg hs']
  · rw [hlog.1, hserver, hsent, ← h.replies]
    by_cases hs' : s = s'
    · subst hs'
      rw [if_pos rfl, pending_step hs]
      rcases effect with _ | ⟨exchange, m⟩ | delivery <;> simp [Config.apply, published]
    · rw [if_neg hs']

variable [DecidableEq κ] [DecidableEq ℓ]

/-- **Every move keeps every server in order.** -/
theorem InOrder.step (h : InOrder vire bus c s) (hsound : Sound vire bus c)
    (hs : Step vire bus c a c') : InOrder vire bus c' s := by
  cases hs with
  | request hpc => exact ⟨h.publish.offered, h.publish.replies⟩
  | consume hpc hreplies => exact ⟨h.offered, h.replies⟩
  | @deliver s' now m q hpc hd =>
    have hready := (Queue.deliver_eq_some_iff.1 hd).2.1
    by_cases hs : s = s'
    · subst hs
      have hpending : pending (c.server s) = [] := by simp [pending, hpc]
      have hreplies := h.replies
      rw [hpending, List.append_nil] at hreplies
      constructor
      · simp only [offered_consume, taken_consume, if_true, Function.update_self]
        rw [h.offered, hready]
        simp
      · simp only [sent_consume, taken_consume, if_true, Function.update_self]
        rw [hreplies, List.filterMap_append]
        congr 1
        refine (emits_service (bus.server s) now m (hsound.replyTo s)).trans ?_
        cases hanswer : (bus.server s).answer vire now m <;> simp [hanswer]
    · constructor
      · simp only [offered_consume, taken_consume, Ne.symm hs, if_false, List.append_nil,
          Function.update_of_ne hs]
        exact h.offered
      · simp only [sent_consume, taken_consume, Ne.symm hs, if_false, List.append_nil,
          Function.update_of_ne hs]
        exact h.replies
  | go hs => exact h.go hsound hs
  | produce exchangeName routingKey body => exact h.publish
  | listen hpc hevents => exact ⟨h.offered, h.replies⟩
  | fail hpc => exact h

/-- **A server serves in order.** For every library, every virtual host and
every order of steps of its parties: what clients and producers have
published for a server is, in this order, what it has taken and what waits
in its queue; and what it has published, with what is left of its
iteration, is its replies to what it has taken, in this order. -/
theorem served_in_order (vire : Driver M) (bus : Bus κ σ ℓ) (as : List (BusAct κ σ ℓ))
    (c : BusState κ σ ℓ) (hrun : (busMachine vire bus).run initial as = some c) (s : σ) :
    offered bus s c.log = (taken s c.log).map Prod.snd ++ (c.queue s).ready ∧
      sent s c.log ++ pending (c.server s) =
        (taken s c.log).filterMap fun r => (bus.server s).answer vire r.1 r.2 := by
  obtain ⟨-, h⟩ : Sound vire bus c ∧ InOrder vire bus c s :=
    Machine.run_invariant (fun c => Sound vire bus c ∧ InOrder vire bus c s)
      (fun _ _ _ h hs => ⟨h.1.step (.of_step hs), h.2.step h.1 (.of_step hs)⟩)
      ⟨sound_initial, ⟨rfl, rfl⟩⟩ hrun
  exact ⟨h.offered, h.replies⟩

theorem served_in_order_busRun :
    ∃ c, (busMachine sampleDriver sampleBus).run initial busRun = some c ∧
      offered sampleBus true c.log = (taken true c.log).map Prod.snd ++ (c.queue true).ready :=
  ⟨_, rfl, (served_in_order sampleDriver sampleBus busRun _ rfl true).1⟩

/-! ## The last message -/

/-- A message is dealt with: the iteration drops it or answers it. -/
def DealtWith (vire : Driver M) (program : ServerProgram) (r : (ℕ → ℤ) × Message) : Prop :=
  .throw ∉ program.service vire r.1 r.2.body r.2.properties ∧
    .ack ∈ program.service vire r.1 r.2.body r.2.properties

/-- **How far a server has come**: it has dealt with all it has taken and is
healthy, or is down, with the last. -/
inductive UpTo (vire : Driver M) (bus : Bus κ σ ℓ) (c : BusState κ σ ℓ) (s : σ) : Prop
  | healthy (h : (c.view s).Healthy) (hall : ∀ r ∈ taken s c.log, DealtWith vire (bus.server s) r)
  | down (h : (c.view s).Down) (rs : List ((ℕ → ℤ) × Message)) (r : (ℕ → ℤ) × Message)
      (htaken : taken s c.log = rs ++ [r]) (hall : ∀ r ∈ rs, DealtWith vire (bus.server s) r)
      (hlast : ¬ DealtWith vire (bus.server s) r)

/-- A server that is down is sent nothing more. -/
theorem not_deliver_of_down {service : Service} {v v' : Config} {now : ℕ → ℤ} (h : v.Down) :
    (serverMachine service).step v (.deliver now) ≠ some v' := by
  intro hs
  change v.stepDeliver service now = some v' at hs
  unfold Config.stepDeliver at hs
  split at hs
  · next hpc =>
    rcases h with ⟨hholds, -⟩ | hleft | ⟨ops, hops, -⟩
    · rw [hholds.deliver] at hs
      cases hs
    · rw [hpc] at hleft
      cases hleft
    · rw [hpc] at hops
      cases hops
  · cases hs

/-- What a server takes is what it is sent. -/
theorem taken_step (hs : Step vire bus c a c') (s : σ) :
    (∃ now m, own s a = some (.deliver now) ∧ m ∈ (c.queue s).ready.head? ∧
      taken s c'.log = taken s c.log ++ [(now, m)]) ∨
    (∀ now, own s a ≠ some (.deliver now)) ∧ taken s c'.log = taken s c.log := by
  -- a move of another party
  have hother : own s a = none → ∀ now, own s a ≠ some (.deliver now) := by
    intro hnone now
    simp [hnone]
  cases hs with
  | request hpc => exact .inr ⟨hother rfl, taken_publish⟩
  | consume hpc hreplies => exact .inr ⟨hother rfl, rfl⟩
  | @deliver s' now m q hpc hd =>
    have hready := (Queue.deliver_eq_some_iff.1 hd).2.1
    by_cases hs : s' = s
    · subst hs
      exact .inl ⟨now, m, if_pos rfl, by simp [hready], by simp [taken_consume]⟩
    · exact .inr ⟨by simp [own, hs], by simp [taken_consume, hs]⟩
  | @go s' server effect hs =>
    refine .inr ⟨fun now => ?_, ?_⟩
    · by_cases hs' : s' = s <;> simp [own, hs']
    · rcases effect with _ | ⟨exchange, m⟩ | delivery
      · rfl
      · exact taken_reply
      · rfl
  | produce exchangeName routingKey body => exact .inr ⟨hother rfl, taken_publish⟩
  | listen hpc hevents => exact .inr ⟨hother rfl, rfl⟩
  | fail hpc => exact .inr ⟨hother rfl, rfl⟩

/-- **A move takes a server on, or down.** -/
theorem UpTo.step (h : UpTo vire bus c s) (hsound : Sound vire bus c)
    (hs : Step vire bus c a c') :
    UpTo vire bus c' s ∧ (¬ (c.view s).Healthy → taken s c'.log = taken s c.log) := by
  have hone := (bus.server s).service_count_ack_le vire
  have hmove : ∀ a', (∀ now, a' ≠ .deliver now) → taken s c'.log = taken s c.log →
      (serverMachine ((bus.server s).service vire)).step (c.view s) a' = some (c'.view s) →
      UpTo vire bus c' s := by
    intro a' ha' htaken hview
    have hhandled : Config.Handled ((bus.server s).service vire) (c.view s) a' := by
      cases a' with
      | deliver now => exact absurd rfl (ha' now)
      | _ => trivial
    rcases h with ⟨hhealthy, hall⟩ | ⟨hdown, rs, r, hlog, hall, hlast⟩
    · rcases hhealthy.step hone (.of_step hview) with ⟨hhealthy', -⟩ | ⟨-, hnot⟩
      · exact .healthy hhealthy' (htaken ▸ hall)
      · exact absurd hhandled hnot
    · exact .down (hdown.step (.of_step hview)) rs r (htaken.trans hlog) hall hlast
  rcases taken_step hs s with ⟨now, m, hown, hm, htaken⟩ | ⟨hown, htaken⟩
  · rcases hsound.view_step hs s with ⟨a', ha, -, hview⟩ | ⟨hnone, -⟩
    · rw [hown, Option.some.injEq] at ha
      subst ha
      have hhandled : Config.Handled ((bus.server s).service vire) (c.view s) (.deliver now) ↔
          DealtWith vire (bus.server s) (now, m) := by
        rw [Option.mem_def] at hm
        change (∀ m ∈ (c.queue s).ready.head?, _) ↔ _
        rw [hm]
        simp [DealtWith]
      rcases h with ⟨hhealthy, hall⟩ | ⟨hdown, -⟩
      · refine ⟨?_, fun hnot => absurd hhealthy hnot⟩
        rcases hhealthy.step hone (.of_step hview) with ⟨hhealthy', hok⟩ | ⟨hdown, hnot⟩
        · refine .healthy hhealthy' fun r hr => ?_
          rw [htaken] at hr
          rcases List.mem_append.1 hr with hr | hr
          · exact hall r hr
          · rw [List.mem_singleton.1 hr]
            exact hhandled.1 hok
        · exact .down hdown (taken s c.log) (now, m) htaken hall (mt hhandled.2 hnot)
      · exact absurd hview (not_deliver_of_down hdown)
    · rw [hown] at hnone
      cases hnone
  · refine ⟨?_, fun _ => htaken⟩
    rcases hsound.view_step hs s with ⟨a', ha, -, hview⟩ | ⟨-, hview | ⟨m, hview⟩⟩
    · exact hmove a' (fun now hnow => hown now (ha.trans (congrArg some hnow))) htaken hview
    · rcases h with ⟨hhealthy, hall⟩ | ⟨hdown, rs, r, hlog, hall, hlast⟩
      · exact .healthy (hview ▸ hhealthy) (htaken ▸ hall)
      · exact .down (hview ▸ hdown) rs r (htaken.trans hlog) hall hlast
    · exact hmove (.publish m) nofun htaken hview

omit [DecidableEq κ] [DecidableEq ℓ] in
/-- A message it has not dealt with has taken it down. -/
theorem UpTo.not_healthy {r : (ℕ → ℤ) × Message} (h : UpTo vire bus c s)
    (hr : r ∈ taken s c.log) (hlast : ¬ DealtWith vire (bus.server s) r) :
    ¬ (c.view s).Healthy := by
  intro hhealthy
  rcases h with ⟨-, hall⟩ | ⟨hdown, -⟩
  · exact hlast (hall r hr)
  · exact hhealthy.not_down hdown

/-- **A server takes messages up to the first it does not deal with.** For
every library, every virtual host and every order of steps of its parties:
each message a server has taken but the last was dropped or answered, and
if the last is neither, the server takes nothing more, however the run goes
on. -/
theorem taken_up_to_first (vire : Driver M) (bus : Bus κ σ ℓ) (as : List (BusAct κ σ ℓ))
    (c : BusState κ σ ℓ) (hrun : (busMachine vire bus).run initial as = some c) (s : σ) :
    (∀ r ∈ taken s c.log, DealtWith vire (bus.server s) r) ∨
    ∃ rs r, taken s c.log = rs ++ [r] ∧ (∀ r ∈ rs, DealtWith vire (bus.server s) r) ∧
      ¬ DealtWith vire (bus.server s) r ∧
      ∀ bs c', (busMachine vire bus).run c bs = some c' → taken s c'.log = taken s c.log := by
  have hhealthy : ((initial : BusState κ σ ℓ).view s).Healthy :=
    (live_initial : Live vire bus initial).healthy s
  obtain ⟨hsound, hupTo⟩ : Sound vire bus c ∧ UpTo vire bus c s :=
    Machine.run_invariant (fun c => Sound vire bus c ∧ UpTo vire bus c s)
      (fun _ _ _ h hs => ⟨h.1.step (.of_step hs), (h.2.step h.1 (.of_step hs)).1⟩)
      ⟨sound_initial, .healthy hhealthy nofun⟩ hrun
  rcases id hupTo with ⟨-, hall⟩ | ⟨-, rs, r, htaken, hall, hlast⟩
  · exact .inl hall
  · refine .inr ⟨rs, r, htaken, hall, hlast, fun bs c' hrun' => ?_⟩
    -- what it holds is still the last, so that it stays down
    have hmem : r ∈ taken s c.log := htaken ▸ List.mem_append_right _ List.mem_cons_self
    obtain ⟨-, -, hkept⟩ : Sound vire bus c' ∧ UpTo vire bus c' s ∧
        taken s c'.log = taken s c.log := by
      refine Machine.run_invariant (fun d => Sound vire bus d ∧ UpTo vire bus d s ∧
        taken s d.log = taken s c.log) ?_ ⟨hsound, hupTo, rfl⟩ hrun'
      intro d a d' h hs
      obtain ⟨hsound, hupTo, hkept⟩ := h
      have hmove : Step vire bus d a d' := .of_step hs
      obtain ⟨hupTo', hdown⟩ := hupTo.step hsound hmove
      have hunhealthy := hupTo.not_healthy (hkept ▸ hmem) hlast
      exact ⟨hsound.step hmove, hupTo', (hdown hunhealthy).trans hkept⟩
    exact hkept

/-- The clients ask to be disconnected. -/
def barredBus : Bus Bool Bool Bool := { sampleBus with body := fun _ => [2] }

/-- The first is not answered, and the second waits behind it. -/
def heldRun : List (BusAct Bool Bool Bool) :=
  [.request true, .deliver true fun _ => 0, .request false, .go true]

theorem taken_up_to_first_heldRun :
    ∃ c, (busMachine sampleDriver barredBus).run initial heldRun = some c ∧
      ∀ bs c', (busMachine sampleDriver barredBus).run c bs = some c' →
        (taken true c'.log).map Prod.snd = [⟨"connection", barredBus.propOut true, [2]⟩] := by
  refine ⟨_, rfl, fun bs c' hrun => ?_⟩
  rcases taken_up_to_first sampleDriver barredBus heldRun _ rfl true with
    hall | ⟨rs, r, -, -, -, hkept⟩
  · have hdealt := hall _ List.mem_cons_self
    exact absurd hdealt.2 (by decide)
  · rw [hkept bs c' hrun]
    rfl

end BusState

end Rpc

end VireSandbox
