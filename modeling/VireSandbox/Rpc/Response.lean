import Mathlib.Algebra.Order.BigOperators.Group.Finset
import VireSandbox.Rpc.Delivery
import VireSandbox.Rpc.Failure
import VireSandbox.Common.Tally
/-!
# The bus — every request is answered

A server of a virtual host, looked at by itself, is a server and its queue
(`server_refines`), so that as long as what it is sent can be answered it
stays healthy. Its queue is first in, first out, and a request is then
answered within as many moves of the server as what is ahead of it costs,
whatever the others do (`answered_in_time`). Once nobody publishes anew
the host comes to rest, with each client served that has a server
(`served_at_rest`).
-/

namespace VireSandbox

namespace Rpc

variable {κ σ ℓ : Type} {M : Type} {vire : Driver M} {bus : Bus κ σ ℓ}

namespace BusState

variable {c c' : BusState κ σ ℓ} {a : BusAct κ σ ℓ} {s : σ} {k : κ} {m : Message}
variable {exchange queue : String} {log : List (BusEvent σ)}

/-! ## A server by itself -/

section

variable [DecidableEq σ]

/-- What a server has published. -/
def sent (s : σ) (log : List (BusEvent σ)) : List (String × Message) :=
  log.filterMap fun
    | .reply s' exchange m => if s' = s then some (exchange, m) else none
    | _ => none

@[simp] theorem sent_publish : sent s (log ++ [.publish exchange m]) = sent s log := by
  simp [sent]

@[simp] theorem sent_consume {s' : σ} {now : ℕ → ℤ} :
    sent s (log ++ [.consume s' now m]) = sent s log := by
  simp [sent]

theorem sent_reply {s' : σ} :
    sent s (log ++ [.reply s' exchange m]) =
      sent s log ++ if s' = s then [(exchange, m)] else [] := by
  by_cases hs : s' = s <;> simp [sent, hs]

theorem mem_sent : (exchange, m) ∈ sent s log ↔ .reply s exchange m ∈ log := by
  simp only [sent, List.mem_filterMap]
  constructor
  · rintro ⟨e, he, hsome⟩
    cases e with
    | reply s' exchange' m' =>
      obtain ⟨rfl, rfl, rfl⟩ : s' = s ∧ exchange' = exchange ∧ m' = m := by simpa using hsome
      exact he
    | _ => cases hsome
  · intro hlog
    exact ⟨_, hlog, if_pos rfl⟩

/-- **A server and its queue**, without the others. -/
def view (c : BusState κ σ ℓ) (s : σ) : Config := ⟨c.server s, c.queue s, sent s c.log⟩

/-- What is published to an exchange is published to the queue of a server,
or passes it by. -/
theorem view_publish :
    (c.publish bus exchange m).view s = c.view s ∨
      (c.publish bus exchange m).view s =
        { c.view s with queue := (c.queue s).publish m } := by
  by_cases hreaches : bus.reaches exchange m (.inr (.inl s)) = true
  · right
    simp [view, publish, route, hreaches]
  · left
    simp [view, publish, route, hreaches]

/-- What a server publishes reaches no server. -/
theorem Sound.reaches_of_step {server : Server} (h : Sound vire bus c)
    (hs : (c.server s).step = some (server, some (.publish exchange m))) (p : σ ⊕ ℓ) :
    bus.reaches exchange m (.inr p) = false := by
  rcases h.inHand s with ⟨hpc⟩ | ⟨hpc, -, -, -⟩ | ⟨hpc, -, -, -⟩
  · unfold Server.step at hs
    split at hs
    · cases hs
    · cases hs
    · next hrun => exact absurd (hpc _ hrun _ List.mem_cons_self) (by simp)
    · cases hs
    · cases hs
    · cases hs
    · cases hs
  · simp [Server.step, hpc, Rpc.reply] at hs
  · simp only [Server.step, hpc, Option.some.injEq, Prod.mk.injEq, Effect.publish.injEq] at hs
    obtain ⟨-, rfl, rfl⟩ := hs
    exact (bus.reaches_default rfl).2 p

/-- A call of a server is seen by nobody but itself. -/
theorem Sound.view_go {server : Server} {effect : Option Effect} (h : Sound vire bus c)
    (hs : (c.server s).step = some (server, effect)) (s' : σ) :
    ({ c with server := Function.update c.server s server }.apply bus s effect).view s' =
      if s' = s then { c.view s with server := server }.apply effect else c.view s' := by
  rcases effect with _ | ⟨exchange, m⟩ | delivery
  · by_cases hs' : s' = s
    · subst hs'
      simp [view, BusState.apply, Config.apply]
    · simp [view, BusState.apply, hs']
  · have hreaches := h.reaches_of_step hs
    by_cases hs' : s' = s
    · subst hs'
      simp [view, BusState.apply, Config.apply, route, hreaches, sent_reply]
    · simp [view, BusState.apply, route, hreaches, sent_reply, hs', Ne.symm hs']
  · by_cases hs' : s' = s
    · subst hs'
      simp [view, BusState.apply, Config.apply]
    · simp [view, BusState.apply, hs']

/-- The moves of a server. -/
def own (s : σ) : BusAct κ σ ℓ → Option Act
  | .deliver s' now => if s' = s then some (.deliver now) else none
  | .go s' => if s' = s then some .go else none
  | _ => none

/-- And which of the moves of a server with its queue are those. -/
def isOwn : Act → Bool
  | .publish _ => false
  | _ => true

variable [DecidableEq κ] [DecidableEq ℓ]

/-- **Each server steps as a server does**, and what the others do is a
publication to its queue, or nothing. -/
theorem Sound.view_step (h : Sound vire bus c) (hs : Step vire bus c a c') (s : σ) :
    (∃ a', own s a = some a' ∧ isOwn a' = true ∧
      (serverMachine ((bus.server s).service vire)).step (c.view s) a' = some (c'.view s)) ∨
    own s a = none ∧ (c'.view s = c.view s ∨
      ∃ m, (serverMachine ((bus.server s).service vire)).step (c.view s) (.publish m) =
        some (c'.view s)) := by
  have hpublish : ∀ {m : Message}, c'.view s = c.view s ∨
      c'.view s = { c.view s with queue := (c.queue s).publish m } →
      c'.view s = c.view s ∨
        ∃ m, (serverMachine ((bus.server s).service vire)).step (c.view s) (.publish m) =
          some (c'.view s) := by
    intro m hview
    exact hview.imp_right fun hview => ⟨m, congrArg some hview.symm⟩
  cases hs with
  | request hpc => exact .inr ⟨rfl, hpublish (view_publish)⟩
  | consume hpc hreplies => exact .inr ⟨rfl, .inl rfl⟩
  | @deliver s' now m queue hpc hd =>
    by_cases hs : s' = s
    · subst hs
      refine .inl ⟨.deliver now, if_pos rfl, rfl, ?_⟩
      simp [serverMachine, Config.step, Config.stepDeliver, view, hpc, hd]
    · refine .inr ⟨if_neg hs, .inl ?_⟩
      simp [view, Ne.symm hs]
  | @go s' server effect hs =>
    rw [h.view_go hs s]
    by_cases hs' : s' = s
    · subst hs'
      refine .inl ⟨.go, if_pos rfl, rfl, ?_⟩
      simp [serverMachine, Config.step, view, hs]
    · exact .inr ⟨if_neg hs', .inl (if_neg (Ne.symm hs'))⟩
  | produce exchangeName routingKey body =>
    exact .inr ⟨rfl, hpublish (view_publish)⟩
  | listen hpc hevents => exact .inr ⟨rfl, .inl rfl⟩
  | fail hpc => exact .inr ⟨rfl, .inl rfl⟩

/-- **A server of a virtual host refines a server with its queue.** For
every library, every virtual host and every order of steps of its parties,
there is for each server a run of its own that leads to where the server
is, to its queue and to what it has published, and whose deliveries and
calls are those the server made, in this order. -/
theorem server_refines (vire : Driver M) (bus : Bus κ σ ℓ) (as : List (BusAct κ σ ℓ))
    (c : BusState κ σ ℓ) (hrun : (busMachine vire bus).run initial as = some c) (s : σ) :
    ∃ as', (serverMachine ((bus.server s).service vire)).run Config.initial as' =
        some (c.view s) ∧ as'.filter isOwn = as.filterMap (own s) := by
  -- from any sound state on
  suffices key : ∀ c₀ : BusState κ σ ℓ, Sound vire bus c₀ →
      (busMachine vire bus).run c₀ as = some c →
      ∃ as', (serverMachine ((bus.server s).service vire)).run (c₀.view s) as' =
        some (c.view s) ∧ as'.filter isOwn = as.filterMap (own s) from
    key initial sound_initial hrun
  clear hrun
  intro c₀ h hrun
  induction as generalizing c₀ with
  | nil =>
    cases hrun
    exact ⟨[], rfl, rfl⟩
  | cons a as ih =>
    obtain ⟨c₁, hstep, hrun⟩ := Machine.run_cons_iff.1 hrun
    have hmove : Step vire bus c₀ a c₁ := .of_step hstep
    obtain ⟨as', hrun', hown⟩ := ih c₁ (h.step hmove) hrun
    rcases h.view_step hmove s with ⟨a', ha, ha', hview⟩ | ⟨ha, hview | ⟨m, hview⟩⟩
    · refine ⟨a' :: as', by rw [Machine.run_cons hview, hrun'], ?_⟩
      rw [List.filter_cons_of_pos ha', List.filterMap_cons_some ha, hown]
    · refine ⟨as', hview ▸ hrun', ?_⟩
      rw [List.filterMap_cons_none ha, hown]
    · refine ⟨.publish m :: as', by rw [Machine.run_cons hview, hrun'], ?_⟩
      rw [List.filter_cons_of_neg (by simp [isOwn]), List.filterMap_cons_none ha, hown]

theorem server_refines_busRun :
    ∃ c, (busMachine sampleDriver sampleBus).run initial busRun = some c ∧
      ∃ as', (serverMachine (connectionServer sampleDriver)).run Config.initial as' =
        some (c.view true) ∧ (as'.filter isOwn).length = 5 := by
  obtain ⟨as', hrun, hown⟩ := server_refines sampleDriver sampleBus busRun _ rfl true
  exact ⟨_, rfl, as', hrun, by rw [hown]; rfl⟩

end

end BusState

/-! ## Requests that can be answered -/

/-- **Each server has a response** to every request that is routed to it,
whenever it is sent it. -/
def Bus.Answerable (vire : Driver M) (bus : Bus κ σ ℓ) : Prop :=
  ∀ s k now, bus.serves s k = true → ((bus.server s).response vire now (bus.body k)).isSome

variable {s : σ} {k : κ} {m : Message} {now : ℕ → ℤ} {queue : String}

/-- An iteration then drops its message, or replies to it. -/
theorem Bus.Answerable.service (h : bus.Answerable vire) (now : ℕ → ℤ)
    (hm : m.properties = ⟨none, none⟩ ∨ ∃ k, bus.serves s k = true ∧ m = bus.request k) :
    (m.properties.replyTo = none ∧
        (bus.server s).service vire now m.body m.properties = [.ack]) ∨
      ∃ id k response, m.properties.replyTo = some (bus.queue (.inl k)) ∧
        (bus.server s).service vire now m.body m.properties =
          reply id (bus.queue (.inl k)) response := by
  rcases hm with hm | ⟨k, hserves, rfl⟩
  · refine .inl ⟨by rw [hm], ?_⟩
    rw [hm]
    cases bus.server s <;> rfl
  · right
    have hresponse := h s k now hserves
    rcases service_cases vire (bus.server s) now (bus.request k).body (bus.request k).properties with
      ⟨id, queue, response, hprop, -, hservice⟩ | ⟨hnone, -⟩ | ⟨hprop, -⟩
    · have hqueue : bus.queue (.inl k) = queue := by
        simpa [Bus.request, Bus.propOut, requestProperties] using congrArg Properties.replyTo hprop
      exact ⟨id, k, response, rfl, by rw [hservice, hqueue]⟩
    · rw [show (bus.request k).body = bus.body k from rfl] at hnone
      rw [hnone] at hresponse
      cases hresponse
    · rcases hprop with hprop | hprop <;> cases hprop

theorem Bus.Answerable.handled (h : bus.Answerable vire)
    (hm : m.properties = ⟨none, none⟩ ∨ ∃ k, bus.serves s k = true ∧ m = bus.request k) :
    .throw ∉ (bus.server s).service vire now m.body m.properties ∧
      .ack ∈ (bus.server s).service vire now m.body m.properties := by
  rcases h.service now hm with ⟨-, hservice⟩ | ⟨id, k, response, -, hservice⟩
  · simp [hservice]
  · simp [hservice, reply]

theorem Bus.Answerable.publishes (h : bus.Answerable vire)
    (hm : m.properties = ⟨none, none⟩ ∨ ∃ k, bus.serves s k = true ∧ m = bus.request k)
    (hqueue : m.properties.replyTo = some queue) :
    0 < ((bus.server s).service vire now m.body m.properties).countP (publishesTo queue) := by
  rcases h.service now hm with ⟨hnone, -⟩ | ⟨id, k, response, hreply, hservice⟩
  · rw [hqueue] at hnone
    cases hnone
  · rw [hqueue, Option.some.injEq] at hreply
    simp [hservice, reply, publishesTo, hreply]

theorem ServerProgram.service_count_ack_le (vire : Driver M) (program : ServerProgram)
    (now : ℕ → ℤ) (request : Bytes) (propIn : Properties) :
    (program.service vire now request propIn).count .ack ≤ 1 := by
  cases program with
  | connectionServer => exact connectionServer_count_ack_le vire now request propIn
  | echoExchangeServer => exact echoExchangeServer_count_ack_le vire now request propIn

theorem ServerProgram.service_length_le (vire : Driver M) (program : ServerProgram)
    (now : ℕ → ℤ) (request : Bytes) (propIn : Properties) :
    (program.service vire now request propIn).length ≤ 3 := by
  rcases service_cases vire program now request propIn with
    ⟨id, queue, response, -, -, hservice⟩ | ⟨-, hservice | hservice⟩ | ⟨-, hservice⟩ <;>
    simp [hservice, reply]

namespace Config

open BusState (owed waiting)

/-! ## The moves up to an answer -/

/-- The moves that are left of an iteration. -/
def rest (server : Server) : ℕ :=
  match server.pc with
  | .run ops => ops.length + 1
  | _ => 0

/-- The messages ahead of a client's request. -/
def ahead (q : Queue Message) (queue : String) : ℕ :=
  q.ready.findIdx fun m => m.properties.replyTo = some queue

/-- The server has published to a queue. -/
def Replied (v : Config) (queue : String) : Prop := ∃ r ∈ v.sent, r.2.routingKey = queue

instance decidableReplied (v : Config) (queue : String) : Decidable (v.Replied queue) :=
  inferInstanceAs (Decidable (∃ r ∈ v.sent, _))

/-- **The moves a server may make before it answers**: what is left of its
iteration, and an iteration for each message up to the request. -/
def toGo (v : Config) (queue : String) : ℕ :=
  if v.Replied queue then 0
  else if 0 < owed v.server queue then rest v.server
  else 5 * (ahead v.queue queue + 1) + rest v.server

variable {service : Service} {v v' : Config} {a : Act}

/-- What waits is not held up by what is published behind it. -/
theorem ahead_publish {q : Queue Message} (h : 0 < waiting q queue) (m : Message) :
    ahead (q.publish m) queue = ahead q queue := by
  have hfound : ahead q queue < q.ready.length := by
    obtain ⟨m', hmem, hm'⟩ := List.countP_pos_iff.1 h
    exact List.findIdx_lt_length_of_exists ⟨m', hmem, hm'⟩
  unfold ahead at hfound ⊢
  rw [Queue.publish, List.findIdx_append, if_pos hfound]

/-- **A move of the server is one move less to go**, and no other costs it
any. -/
theorem toGo_step (hlength : ∀ now request propIn, (service now request propIn).length ≤ 3)
    (hreplied : ¬ v.Replied queue) (hthrows : ¬ v.Throws)
    (hpending : 0 < owed v.server queue ∨ 0 < waiting v.queue queue)
    (hserved : ∀ now, a = .deliver now → ∀ m ∈ v.queue.ready.head?,
      m.properties.replyTo = some queue →
        0 < (service now m.body m.properties).countP (publishesTo queue))
    (hs : Step service v a v') :
    v'.toGo queue + (if BusState.isOwn a then 1 else 0) ≤ v.toGo queue := by
  -- a call other than the reply: what is left is less by one
  have hcall : ∀ {op : Op} {ops : List Op}, v.server.pc = .run (op :: ops) →
      publishesTo queue op = false → v'.server.pc = .run ops →
      v'.queue.ready = v.queue.ready → ¬ v'.Replied queue →
      v'.toGo queue + 1 ≤ v.toGo queue := by
    intro op ops hpc hop hpc' hready hreplied'
    have howed : owed v'.server queue = owed v.server queue := by
      simp [owed, hpc, hpc', hop]
    have hrest : rest v'.server + 1 = rest v.server := by simp [rest, hpc, hpc']
    have hahead : ahead v'.queue queue = ahead v.queue queue := by simp [ahead, hready]
    rw [toGo, toGo, if_neg hreplied, if_neg hreplied', howed, hahead]
    split <;> omega
  cases hs with
  | publish m =>
    have hreplied' : ¬ Replied { v with queue := v.queue.publish m } queue := hreplied
    rw [toGo, toGo, if_neg hreplied, if_neg hreplied']
    split
    · exact Nat.le_refl _
    · next howed => rw [ahead_publish (hpending.resolve_left howed) m]; exact Nat.le_refl _
  | @deliver now m q hpc hd =>
    have hready := (Queue.deliver_eq_some_iff.1 hd).2.1
    have howed : owed v.server queue = 0 := by simp [owed, hpc]
    have hrest : rest v.server = 0 := by simp [rest, hpc]
    have hrest' : rest (v.server.consumeMessage service now m v.queue.delivered) ≤ 4 :=
      Nat.succ_le_succ (hlength now m.body m.properties)
    have hreplied' : ¬ Replied { v with
        server := v.server.consumeMessage service now m v.queue.delivered
        queue := q } queue := hreplied
    rw [toGo, toGo, if_neg hreplied, if_neg hreplied', howed, hrest, if_neg (Nat.lt_irrefl 0)]
    simp only [BusState.isOwn, if_true]
    split
    · omega
    · next howed' =>
      -- the message is another client's
      have hother : m.properties.replyTo ≠ some queue := fun hm =>
        howed' (hserved now rfl m (by simp [hready]) hm)
      have hahead : ahead v.queue queue = ahead q queue + 1 := by
        simp [ahead, hready, List.findIdx_cons, hother]
      omega
  | next hpc =>
    have howed : owed v.server queue = 0 := by simp [owed, hpc]
    have hrest : rest v.server = 1 := by simp [rest, hpc]
    have hreplied' : ¬ Replied { v with server := { v.server with pc := .consume } } queue := hreplied
    rw [toGo, toGo, if_neg hreplied, if_neg hreplied', howed, hrest, if_neg (Nat.lt_irrefl 0)]
    exact Nat.le_refl _
  | setCorrelationId hpc => exact hcall hpc rfl rfl rfl hreplied
  | @send exchange routingKey body ops hpc =>
    by_cases hkey : routingKey = queue
    · have howed : 0 < owed v.server queue := by simp [owed, hpc, publishesTo, hkey]
      have hreplied' : Replied { v with
          server := { v.server with pc := .run ops }
          sent := v.sent ++ [(exchange, ⟨routingKey, v.server.propOut, body⟩)] } queue :=
        ⟨_, List.mem_append_right _ List.mem_cons_self, hkey⟩
      rw [toGo, toGo, if_neg hreplied, if_pos hreplied', if_pos howed]
      simp [rest, hpc, BusState.isOwn]
    · refine hcall hpc (by simp [publishesTo, hkey]) rfl rfl ?_
      rintro ⟨r, hr, hr'⟩
      rcases List.mem_append.1 hr with hr | hr
      · exact hreplied ⟨r, hr, hr'⟩
      · rw [List.mem_singleton.1 hr] at hr'
        exact hkey hr'
  | ack hpc => exact hcall hpc rfl rfl rfl hreplied
  | throw hpc => exact absurd (.inr ⟨_, hpc, List.mem_cons_self⟩) hthrows

/-- The moves that are left to a server which is sent nothing more, at
most. -/
def weight (v : Config) : ℕ := 5 * v.queue.ready.length + rest v.server

theorem weight_step (hlength : ∀ now request propIn, (service now request propIn).length ≤ 3)
    (hs : Step service v a v') (hown : BusState.isOwn a = true) : v'.weight < v.weight := by
  cases hs with
  | publish m => cases hown
  | @deliver now m q hpc hd =>
    have hready := (Queue.deliver_eq_some_iff.1 hd).2.1
    have hle := hlength now m.body m.properties
    simp only [weight, rest, hpc, hready, Server.consumeMessage, List.length_cons]
    omega
  | next hpc => simp [weight, rest, hpc]
  | setCorrelationId hpc => simp [weight, rest, hpc]
  | send hpc => simp [weight, rest, hpc]
  | ack hpc => simp [weight, rest, hpc, Queue.ack]
  | throw hpc => simp [weight, rest, hpc]

/-- A healthy server moves where it is not waiting for a message. -/
theorem Healthy.moves (h : v.Healthy) (hne : v.server.pc = .consume → v.queue.ready ≠ []) :
    v.server.step.isSome ∨ v.server.pc = .consume ∧ (v.queue.deliver 1).isSome := by
  cases hpc : v.server.pc with
  | consume =>
    have hsettled := h.1
    simp only [Settling, hpc] at hsettled
    exact .inr ⟨rfl, hsettled.exists_deliver Nat.one_pos (hne hpc)⟩
  | run ops =>
    left
    cases ops with
    | nil => simp [Server.step, hpc]
    | cons op ops => cases op <;> simp [Server.step, hpc]
  | left => exact absurd (.inl hpc) h.2

end Config

namespace BusState

variable [DecidableEq σ] {c c' : BusState κ σ ℓ} {a : BusAct κ σ ℓ}

/-- **The invariant where every request can be answered**: no server goes
down, and none passes a request over. -/
structure Live (vire : Driver M) (bus : Bus κ σ ℓ) (c : BusState κ σ ℓ) : Prop
    extends Sound vire bus c where
  healthy : ∀ s, (c.view s).Healthy
  answering : ∀ s queue, passedOver vire bus s queue c.log = 0

theorem live_initial : Live vire bus (initial : BusState κ σ ℓ) where
  toSound := sound_initial
  healthy := by
    intro s
    refine ⟨Queue.settled_empty, ?_⟩
    rintro (hleft | ⟨ops, hops, -⟩)
    · cases hleft
    · cases hops
  answering := fun _ _ => rfl

/-- The server has published its answer to the client. -/
def Replied (bus : Bus κ σ ℓ) (c : BusState κ σ ℓ) (s : σ) (k : κ) : Prop :=
  (c.view s).Replied (bus.queue (.inl k))

instance decidableReplied (bus : Bus κ σ ℓ) (c : BusState κ σ ℓ) (s : σ) (k : κ) :
    Decidable (c.Replied bus s k) :=
  inferInstanceAs (Decidable ((c.view s).Replied _))

/-- Its answer is then not in the log, if it has not. -/
theorem answered_eq_zero (h : ¬ c.Replied bus s k) :
    answered s (bus.queue (.inl k)) c.log = 0 := by
  refine List.countP_eq_zero.2 fun e he hanswer => h ?_
  cases e with
  | reply s' exchange m =>
    obtain ⟨rfl, hkey⟩ : s' = s ∧ m.routingKey = bus.queue (.inl k) := by simpa using hanswer
    exact ⟨(exchange, m), mem_sent.2 he, hkey⟩
  | _ => cases hanswer

/-- **A request is pending until it is answered.** -/
theorem Live.pending (h : Live vire bus c) (hserves : bus.serves s k = true)
    (hasked : (c.client k).pc ≠ .publish) (hreplied : ¬ c.Replied bus s k) :
    0 < owed (c.server s) (bus.queue (.inl k)) ∨
      0 < waiting (c.queue s) (bus.queue (.inl k)) := by
  have htally := h.tally s k
  rw [if_pos ⟨hasked, hserves⟩, BusState.tally, answered_eq_zero hreplied,
    h.answering s (bus.queue (.inl k))] at htally
  omega

/-- A server answers the requests it serves, and no others. -/
theorem Live.of_replied (h : Live vire bus c) (hreplied : c.Replied bus s k) :
    (c.client k).pc ≠ .publish ∧ bus.serves s k = true := by
  obtain ⟨⟨exchange, m⟩, hm, hkey⟩ := hreplied
  have hpos : 0 < answered s (bus.queue (.inl k)) c.log :=
    List.countP_pos_iff.2 ⟨_, mem_sent.1 hm, by simpa using hkey⟩
  have htally := h.tally s k
  unfold BusState.tally at htally
  by_contra hnot
  rw [if_neg hnot] at htally
  omega

variable [DecidableEq κ] [DecidableEq ℓ]

/-- No move passes a request over. -/
theorem Live.answering_step (hanswerable : bus.Answerable vire) (h : Live vire bus c)
    (hs : Step vire bus c a c') (s : σ) (queue : String) :
    passedOver vire bus s queue c'.log = 0 := by
  cases hs with
  | request hpc => exact passedOver_publish.trans (h.answering s queue)
  | consume hpc hreplies => exact h.answering s queue
  | @deliver s' now m q hpc hd =>
    have hready := (Queue.deliver_eq_some_iff.1 hd).2.1
    rw [passedOver_consume, h.answering s queue, if_neg]
    rintro ⟨rfl, hqueue, hcount⟩
    have hm := h.ready s' m (hready ▸ List.mem_cons_self)
    exact Nat.ne_of_gt (hanswerable.publishes hm hqueue) hcount
  | @go s' server effect hs =>
    rcases effect with _ | ⟨exchange, m⟩ | delivery
    · exact h.answering s queue
    · exact passedOver_reply.trans (h.answering s queue)
    · exact h.answering s queue
  | produce exchangeName routingKey body => exact passedOver_publish.trans (h.answering s queue)
  | listen hpc hevents => exact h.answering s queue
  | fail hpc => exact h.answering s queue

/-- And each server stays healthy. -/
theorem Live.healthy_step (hanswerable : bus.Answerable vire) (h : Live vire bus c)
    (hs : Step vire bus c a c') (s : σ) : (c'.view s).Healthy := by
  have hone := (bus.server s).service_count_ack_le vire
  have hmove : ∀ a', (serverMachine ((bus.server s).service vire)).step (c.view s) a' =
      some (c'.view s) → (c'.view s).Healthy := by
    intro a' hview
    refine (((h.healthy s).step hone (.of_step hview)).resolve_right fun hdown => hdown.2 ?_).1
    cases a' with
    | deliver now =>
      intro m hm
      exact hanswerable.handled (h.ready s m (List.mem_of_mem_head? hm))
    | _ => trivial
  rcases h.view_step hs s with ⟨a', -, -, hview⟩ | ⟨-, hview | ⟨m, hview⟩⟩
  · exact hmove a' hview
  · exact hview ▸ h.healthy s
  · exact hmove _ hview

/-- **Every move keeps the invariant.** -/
theorem Live.step (hanswerable : bus.Answerable vire) (h : Live vire bus c)
    (hs : Step vire bus c a c') : Live vire bus c' where
  toSound := h.toSound.step hs
  healthy := h.healthy_step hanswerable hs
  answering := h.answering_step hanswerable hs

theorem Live.of_run {as : List (BusAct κ σ ℓ)} (hanswerable : bus.Answerable vire)
    (hrun : (busMachine vire bus).run initial as = some c) : Live vire bus c :=
  Machine.run_invariant (Live vire bus) (fun _ _ _ h hs => h.step hanswerable (.of_step hs))
    live_initial hrun

/-- A client that has asked has asked. -/
theorem asked_step (h : (c.client k).pc ≠ .publish) (hs : Step vire bus c a c') :
    (c'.client k).pc ≠ .publish := by
  cases hs with
  | @request k' hpc =>
    by_cases hk : k = k'
    · subst hk
      exact absurd hpc h
    · simpa [publish, route, hk] using h
  | @consume k' m ms hpc hreplies =>
    by_cases hk : k = k'
    · subst hk
      simp only [Function.update_self, Client.consumeMessage]
      split <;> simp
    · simpa [hk] using h
  | deliver hpc hd => exact h
  | @go s' server effect hs =>
    rcases effect with _ | ⟨exchange, m⟩ | delivery <;> exact h
  | produce exchangeName routingKey body => exact h
  | listen hpc hevents => exact h
  | fail hpc => exact h

/-- **Until it has answered, a move of the server is one less to go.** -/
theorem Live.toGo_step (hanswerable : bus.Answerable vire) (h : Live vire bus c)
    (hserves : bus.serves s k = true) (hasked : (c.client k).pc ≠ .publish)
    (hreplied : ¬ c.Replied bus s k) (hs : Step vire bus c a c') :
    (c'.view s).toGo (bus.queue (.inl k)) + (if (own s a).isSome then 1 else 0) ≤
      (c.view s).toGo (bus.queue (.inl k)) := by
  have hmove : ∀ a', (serverMachine ((bus.server s).service vire)).step (c.view s) a' =
      some (c'.view s) → (c'.view s).toGo (bus.queue (.inl k)) + (if isOwn a' then 1 else 0) ≤
        (c.view s).toGo (bus.queue (.inl k)) := by
    intro a' hview
    refine Config.toGo_step ((bus.server s).service_length_le vire) hreplied
      (h.healthy s).2 (h.pending hserves hasked hreplied) ?_ (.of_step hview)
    rintro now - m hm hqueue
    exact hanswerable.publishes (h.ready s m (List.mem_of_mem_head? hm)) hqueue
  rcases h.view_step hs s with ⟨a', ha, ha', hview⟩ | ⟨ha, hview | ⟨m, hview⟩⟩
  · simpa [ha, ha'] using hmove a' hview
  · simp [ha, hview]
  · simpa [ha, isOwn] using hmove _ hview

/-- A server that moves by itself moves on the bus. -/
theorem exists_own_step (vire : Driver M) (bus : Bus κ σ ℓ)
    (h : (c.server s).step.isSome ∨ (c.server s).pc = .consume ∧ ((c.queue s).deliver 1).isSome) :
    ∃ a c', (own s a).isSome ∧ (busMachine vire bus).step c a = some c' := by
  rcases h with h | ⟨hpc, hd⟩
  · have hstep : ((busMachine vire bus).step c (.go s)).isSome := by
      change (c.stepGo bus s).isSome
      rwa [stepGo, Option.isSome_map]
    obtain ⟨c', hstep⟩ := Option.isSome_iff_exists.1 hstep
    exact ⟨.go s, c', by simp [own], hstep⟩
  · have hstep : ((busMachine vire bus).step c (.deliver s fun _ => 0)).isSome := by
      change (c.stepDeliver vire bus s _).isSome
      rwa [stepDeliver, if_pos hpc, Option.isSome_map]
    obtain ⟨c', hstep⟩ := Option.isSome_iff_exists.1 hstep
    exact ⟨.deliver s fun _ => 0, c', by simp [own], hstep⟩

theorem answerable_sampleBus : sampleBus.Answerable sampleDriver := by
  intro s k now _
  cases s <;> rfl

/-- **A request is answered in time.** For every library, every virtual
host whose servers have a response to each request that is routed to them,
and every order of steps of its parties: at each server that serves the
request of a client that has asked, and however the run goes on, the server
makes no more moves before it answers than five for each message up to the
request and what is left of its iteration; and until it has answered it has
a move. -/
theorem answered_in_time (vire : Driver M) (bus : Bus κ σ ℓ) (hanswerable : bus.Answerable vire)
    (as : List (BusAct κ σ ℓ)) (c : BusState κ σ ℓ)
    (hrun : (busMachine vire bus).run initial as = some c) (s : σ) (k : κ)
    (hserves : bus.serves s k = true) (hasked : (c.client k).pc ≠ .publish)
    (bs : List (BusAct κ σ ℓ)) (c' : BusState κ σ ℓ)
    (hrun' : (busMachine vire bus).run c bs = some c')
    (hbefore : (busMachine vire bus).Within (fun c _ => ¬ c.Replied bus s k) c bs) :
    bs.countP (fun a => (own s a).isSome) ≤ (c.view s).toGo (bus.queue (.inl k)) ∧
      (c'.Replied bus s k ∨
        ∃ a c'', (own s a).isSome ∧ (busMachine vire bus).step c' a = some c'') := by
  have hstep : ∀ c a c', Live vire bus c ∧ (c.client k).pc ≠ .publish →
      (busMachine vire bus).step c a = some c' →
      Live vire bus c' ∧ (c'.client k).pc ≠ .publish :=
    fun c a c' h hs => ⟨h.1.step hanswerable (.of_step hs), asked_step h.2 (.of_step hs)⟩
  have hlive : Live vire bus c := .of_run hanswerable hrun
  constructor
  · have hle : (c'.view s).toGo (bus.queue (.inl k)) + bs.countP (fun a => (own s a).isSome) ≤
        (c.view s).toGo (bus.queue (.inl k)) :=
      Machine.countP_add_le (μ := fun c => (c.view s).toGo (bus.queue (.inl k)))
        (fun c a c' h _ hs => hstep c a c' h hs)
        (fun c a c' h hreplied hs => h.1.toGo_step hanswerable hserves h.2 hreplied (.of_step hs))
        ⟨hlive, hasked⟩ hbefore hrun'
    omega
  · obtain ⟨hlive', hasked'⟩ := Machine.run_invariant
      (fun c => Live vire bus c ∧ (c.client k).pc ≠ .publish) hstep ⟨hlive, hasked⟩ hrun'
    refine or_iff_not_imp_left.2 fun hreplied =>
      exists_own_step vire bus ((hlive'.healthy s).moves ?_)
    intro hpc hnil
    rcases hlive'.pending hserves hasked' hreplied with howed | hwaiting
    · rw [owed, show (c'.server s).pc = .consume from hpc] at howed
      cases howed
    · rw [waiting, show (c'.queue s).ready = [] from hnil] at hwaiting
      cases hwaiting

theorem answered_in_time_busRun :
    ∃ c c', (busMachine sampleDriver sampleBus).run initial [.request true] = some c ∧
      (busMachine sampleDriver sampleBus).run c
        [.request false, .deliver true fun _ => 0, .go true] = some c' ∧
      2 ≤ (c.view true).toGo "amq.gen-1" ∧
      ∃ a c'', (own true a).isSome ∧ (busMachine sampleDriver sampleBus).step c' a = some c'' := by
  have h := answered_in_time sampleDriver sampleBus answerable_sampleBus [.request true] _ rfl
    true true rfl (by decide) [.request false, .deliver true fun _ => 0, .go true] _ rfl (by decide)
  exact ⟨_, _, rfl, rfl, h.1, h.2.resolve_left (by decide)⟩

/-! ## At rest -/

/-- The steps that are left once nobody publishes anew. An exception of a
listener's `consume_message` publishes nothing either, and is not one of
them: it takes no message, and may come again and again. -/
def settles : BusAct κ σ ℓ → Bool
  | .consume _ | .deliver _ _ | .go _ | .listen _ => true
  | .request _ | .produce _ _ _ | .fail _ => false

/-- **Nobody has such a step.** -/
def AtRest (vire : Driver M) (bus : Bus κ σ ℓ) (c : BusState κ σ ℓ) : Prop :=
  ∀ a, settles a = true → (busMachine vire bus).step c a = none

/-- At rest a server waits for messages, and has answered. -/
theorem Live.server_atRest (h : Live vire bus c) (hrest : c.AtRest vire bus) (s : σ) :
    (c.server s).pc = .consume ∧ (c.queue s).ready = [] ∧ (c.queue s).Settled := by
  have hidle : (c.server s).pc = .consume ∧ (c.queue s).ready = [] := by
    by_contra hnot
    have hne : (c.view s).server.pc = .consume → (c.view s).queue.ready ≠ [] :=
      fun hpc hnil => hnot ⟨hpc, hnil⟩
    obtain ⟨a, c', hown, hstep⟩ := exists_own_step vire bus ((h.healthy s).moves hne)
    have hsettles : settles a = true := by cases a <;> first | rfl | cases hown
    rw [hrest a hsettles] at hstep
    cases hstep
  have hsettled := (h.healthy s).1
  simp only [Config.Settling, view, hidle.1] at hsettled
  exact ⟨hidle.1, hidle.2, hsettled⟩

theorem Live.replied_atRest (h : Live vire bus c) (hrest : c.AtRest vire bus)
    (hasked : (c.client k).pc ≠ .publish) (hserves : bus.serves s k = true) :
    c.Replied bus s k := by
  by_contra hreplied
  obtain ⟨hpc, hready, -⟩ := h.server_atRest hrest s
  rcases h.pending hserves hasked hreplied with howed | hwaiting
  · rw [owed, hpc] at howed
    cases howed
  · rw [waiting, hready] at hwaiting
    cases hwaiting

/-- A client that has an answer is past its loop. -/
theorem Live.client_atRest (h : Live vire bus c) (hrest : c.AtRest vire bus) :
    (c.client k).pc = .load ↔ (c.client k).pc ≠ .publish ∧ ∃ s, bus.serves s k = true := by
  have hreceived := h.received k
  constructor
  · intro hpc
    obtain ⟨⟨s, m⟩, hr, -⟩ : ∃ r ∈ answersTo (bus.queue (.inl k)) c.log,
        r.2 = ⟨bus.queue (.inl k), (c.client k).propIn, (c.client k).response⟩ := by
      rw [← List.mem_map, ← hreceived]
      simp [BusState.received, hpc]
    obtain ⟨hkey, hlog⟩ := mem_answersTo.1 hr
    have hreplied : c.Replied bus s k := ⟨("", m), mem_sent.2 hlog, hkey⟩
    exact ⟨by simp [hpc], s, (h.of_replied hreplied).2⟩
  · rintro ⟨hasked, s, hserves⟩
    obtain ⟨⟨exchange, m⟩, hm, hkey⟩ := h.replied_atRest hrest hasked hserves
    have hlog := mem_sent.1 hm
    obtain ⟨rfl, -⟩ := h.answers s exchange m hlog
    have hmem : m ∈ c.received bus k := by
      rw [hreceived]
      exact List.mem_map.2 ⟨_, mem_answersTo.2 ⟨hkey, hlog⟩, rfl⟩
    cases hpc : (c.client k).pc with
    | publish => exact absurd hpc hasked
    | load => rfl
    | consume =>
      -- what waits for it would be taken
      have hstep := hrest (.consume k) rfl
      change c.stepConsume bus k = none at hstep
      simp only [BusState.received, hpc, reduceCtorEq, if_false, List.nil_append] at hmem
      rw [stepConsume, if_pos hpc] at hstep
      split at hstep
      · next hnil =>
        rw [hnil] at hmem
        cases hmem
      · cases hstep

theorem Live.listener_atRest {l : ℓ} (h : Live vire bus c) (hrest : c.AtRest vire bus) :
    (c.listener l).pc = .ended ↔ bus.arrivals l c.log ≠ [] := by
  rw [← h.heard l]
  cases hpc : (c.listener l).pc with
  | ended => simp [BusState.heard, hpc]
  | consume =>
    have hstep := hrest (.listen l) rfl
    change c.stepListen l = none at hstep
    rw [stepListen, if_pos hpc] at hstep
    split at hstep
    · next hnil => simp [BusState.heard, hpc, hnil]
    · cases hstep

/-- Where every loop has ended, or waits for nothing, nobody has. -/
theorem atRest_of_idle (hclients : ∀ k, (c.client k).pc ≠ .consume)
    (hlisteners : ∀ l, (c.listener l).pc ≠ .consume)
    (hservers : ∀ s, (c.server s).pc = .consume ∧ (c.queue s).ready = []) :
    c.AtRest vire bus := by
  intro a ha
  cases a with
  | consume k => exact if_neg (hclients k)
  | listen l => exact if_neg (hlisteners l)
  | deliver s now =>
    change c.stepDeliver vire bus s now = none
    rw [stepDeliver, if_pos (hservers s).1, Queue.deliver, (hservers s).2]
    rfl
  | go s =>
    change c.stepGo bus s = none
    rw [stepGo, Server.step, (hservers s).1]
    rfl
  | _ => cases ha

/-- A client that is in its loop, and a listener. -/
def clientWork (client : Client) : ℕ := if client.pc = .consume then 1 else 0

def listenerWork (listener : Listener) : ℕ := if listener.pc = .consume then 1 else 0

section

variable [Fintype κ] [Fintype σ] [Fintype ℓ]

/-- The steps that are left until the host is at rest, at most. -/
def left (c : BusState κ σ ℓ) : ℕ :=
  ∑ s, (c.view s).weight + ∑ k, clientWork (c.client k) + ∑ l, listenerWork (c.listener l)

end

/-- What a server does is seen by itself. -/
theorem Sound.view_of_ne {s' : σ} (h : Sound vire bus c) (hs : Step vire bus c a c')
    (hown : (own s a).isSome) (hne : s' ≠ s) : c'.view s' = c.view s' := by
  cases hs with
  | @deliver s₀ now m queue hpc hd =>
    obtain rfl : s₀ = s := by simpa [own] using hown
    simp [view, hne]
  | @go s₀ server effect hs =>
    obtain rfl : s₀ = s := by simpa [own] using hown
    rw [h.view_go hs s', if_neg hne]
  | _ => cases hown

/-- And changes no client and no listener. -/
theorem client_of_own (hs : Step vire bus c a c') (hown : (own s a).isSome) :
    c'.client = c.client ∧ c'.listener = c.listener := by
  cases hs with
  | deliver hpc hd => exact ⟨rfl, rfl⟩
  | @go s₀ server effect hs => rcases effect with _ | ⟨exchange, m⟩ | delivery <;> exact ⟨rfl, rfl⟩
  | _ => cases hown

section

variable [Fintype κ] [Fintype σ] [Fintype ℓ]

theorem Sound.left_of_own (h : Sound vire bus c) (hs : Step vire bus c a c')
    (hown : (own s a).isSome) : c'.left < c.left := by
  obtain ⟨hclient, hlistener⟩ := client_of_own hs hown
  have hlt : (c'.view s).weight < (c.view s).weight := by
    rcases h.view_step hs s with ⟨a', -, ha', hview⟩ | ⟨hnone, -⟩
    · exact Config.weight_step ((bus.server s).service_length_le vire) (.of_step hview) ha'
    · rw [hnone] at hown
      cases hown
  have hsum : ∑ s, (c'.view s).weight < ∑ s, (c.view s).weight := by
    refine Finset.sum_lt_sum (fun s' _ => ?_) ⟨s, Finset.mem_univ s, hlt⟩
    by_cases hne : s' = s
    · subst hne
      exact hlt.le
    · rw [h.view_of_ne hs hown hne]
  rw [left, left, hclient, hlistener]
  omega

/-- **A step that publishes nothing anew leaves less to do.** -/
theorem Sound.left_step (h : Sound vire bus c) (hs : Step vire bus c a c')
    (hsettles : settles a = true) : c'.left < c.left := by
  have hmove := hs
  cases hs with
  | @consume k m ms hpc hreplies =>
    have hbreaks := (h.of_replies hpc hreplies).2
    have hload := Tally.sum_moved clientWork c.client k
      (Client.consumeMessage (bus.program k).receiveLoop (bus.propOut k) m)
    have hbefore : clientWork (c.client k) = 1 := if_pos hpc
    have hafter : clientWork
        (Client.consumeMessage (bus.program k).receiveLoop (bus.propOut k) m) = 0 := by
      rw [Client.consumeMessage_of_breaks hbreaks]
      rfl
    simp only [left, view]
    omega
  | @listen l m ms hpc hevents =>
    have hload := Tally.sum_moved listenerWork c.listener l (.consumeMessage m)
    have hbefore : listenerWork (c.listener l) = 1 := if_pos hpc
    have hafter : listenerWork (.consumeMessage m) = 0 := rfl
    simp only [left, view]
    omega
  | @deliver s now m q hpc hd => exact h.left_of_own (s := s) hmove (by simp [own])
  | @go s server effect hs => exact h.left_of_own (s := s) hmove (by simp [own])
  | _ => cases hsettles

/-- **Once nobody publishes anew, the host comes to rest, and every request
that is served has been answered.** For every library, every virtual host
whose servers have a response to each request that is routed to them, and
every order of steps of its parties: from the state reached, the steps by
which nothing new is published, the listeners' exceptions not counted, are
bounded, in whatever order they are taken. And where none is left, every
server is in `consume_message` with its queue empty and each delivery
acknowledged exactly once, a client is past its loop exactly if it has
asked and some server is bound for its request, each of those servers has
answered and no other, and a listener is past its loop exactly if something
was published under its topics. -/
theorem served_at_rest (vire : Driver M) (bus : Bus κ σ ℓ) (hanswerable : bus.Answerable vire)
    (as : List (BusAct κ σ ℓ)) (c : BusState κ σ ℓ)
    (hrun : (busMachine vire bus).run initial as = some c) :
    (∀ bs c', (busMachine vire bus).run c bs = some c' → (∀ a ∈ bs, settles a = true) →
      bs.length ≤ c.left) ∧
    (c.AtRest vire bus →
      (∀ s, (c.server s).pc = .consume ∧ (c.queue s).ready = [] ∧ (c.queue s).Settled) ∧
      (∀ k, (c.client k).pc = .load ↔
        (c.client k).pc ≠ .publish ∧ ∃ s, bus.serves s k = true) ∧
      (∀ s k, c.Replied bus s k ↔ (c.client k).pc ≠ .publish ∧ bus.serves s k = true) ∧
      ∀ l, (c.listener l).pc = .ended ↔ bus.arrivals l c.log ≠ []) := by
  have h : Live vire bus c := .of_run hanswerable hrun
  constructor
  · intro bs c' hrun' hbs
    have hle : c'.left + bs.countP (fun _ => true) ≤ c.left := by
      refine Machine.countP_add_le (μ := left) (fun c a c' h _ hs => Sound.step h (.of_step hs))
        (fun c a c' h ha hs => ?_) h.toSound ((Machine.within_forall_iff hrun').2 hbs) hrun'
      exact Nat.succ_le_of_lt (Sound.left_step h (.of_step hs) ha)
    rw [List.countP_true] at hle
    omega
  · intro hrest
    exact ⟨h.server_atRest hrest, fun k => h.client_atRest hrest,
      fun s k => ⟨h.of_replied, fun hk => h.replied_atRest hrest hk.1 hk.2⟩,
      fun l => h.listener_atRest hrest⟩

theorem served_at_rest_busRun :
    ∃ c, (busMachine sampleDriver sampleBus).run initial (busRun ++ [.listen false]) = some c ∧
      c.AtRest sampleDriver sampleBus ∧ c.Replied sampleBus true true ∧
      c.Replied sampleBus false true ∧ (c.queue true).Settled := by
  have hidle : ∀ c ∈ (busMachine sampleDriver sampleBus).run initial (busRun ++ [.listen false]),
      (c.client true).pc = .load ∧ (∀ k, (c.client k).pc ≠ .consume) ∧
        (∀ l, (c.listener l).pc ≠ .consume) ∧
        ∀ s, (c.server s).pc = .consume ∧ (c.queue s).ready = [] := by
    decide
  obtain ⟨c, hrun⟩ : ∃ c, (busMachine sampleDriver sampleBus).run initial
      (busRun ++ [.listen false]) = some c := ⟨_, rfl⟩
  obtain ⟨hasked, hclients, hlisteners, hservers⟩ := hidle c hrun
  have hrest : c.AtRest sampleDriver sampleBus :=
    atRest_of_idle hclients hlisteners hservers
  obtain ⟨hsettled, -, hreplied, -⟩ := (served_at_rest sampleDriver sampleBus answerable_sampleBus
    (busRun ++ [.listen false]) c hrun).2 hrest
  exact ⟨c, hrun, hrest, (hreplied true true).2 ⟨by simp [hasked], rfl⟩,
    (hreplied false true).2 ⟨by simp [hasked], rfl⟩, (hsettled true).2.2⟩

end

end BusState

end Rpc

end VireSandbox
