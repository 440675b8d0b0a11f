import VireSandbox.Rpc.Bus
import VireSandbox.Rpc.EndToEnd
/-!
# The bus — what reaches whom

Whatever servers are bound beside each other, and whatever else is
published: what reaches a client are answers to its own request, one at
most from each server, and only from a server its request was routed to
(`answers_reach_client`). A listener hears what was published under its
topics, in order, and ends with the first of it (`listener_hears`).
-/

namespace VireSandbox

namespace Rpc

/-! ## What a server makes of a request -/

section

variable {M : Type} (vire : Driver M)

/-- **The response of a server** to the bytes of a request, if it has one:
the bytes themselves, or the encoded record of the resources asked for,
each of them missing. -/
def ServerProgram.response (program : ServerProgram) (now : ℕ → ℤ) (request : Bytes) :
    Option Bytes :=
  match program with
  | .echoExchangeServer => (vire.decode request).map fun _ => request
  | .connectionServer =>
    ((vire.decode request).bind vire.connectionRequest).bind fun resources =>
      vire.encode (connectionSuccess vire now resources)

/-- **What an iteration comes to**: a reply, a request that is not answered,
or a message that is dropped. -/
theorem service_cases (program : ServerProgram) (now : ℕ → ℤ) (request : Bytes)
    (propIn : Properties) :
    (∃ id queue response, propIn = ⟨some id, some queue⟩ ∧
        program.response vire now request = some response ∧
        program.service vire now request propIn = reply id queue response) ∨
      (program.response vire now request = none ∧
        (program.service vire now request propIn = [.throw] ∨
          program.service vire now request propIn = [])) ∨
      ((propIn.correlationId = none ∨ propIn.replyTo = none) ∧
        program.service vire now request propIn = [.ack]) := by
  obtain ⟨correlationId, replyTo⟩ := propIn
  cases correlationId with
  | none =>
    refine .inr (.inr ⟨.inl rfl, ?_⟩)
    cases program <;> rfl
  | some id =>
    cases replyTo with
    | none =>
      refine .inr (.inr ⟨.inr rfl, ?_⟩)
      cases program <;> rfl
    | some queue =>
      cases program with
      | echoExchangeServer =>
        cases hdecode : vire.decode request with
        | none =>
          refine .inr (.inl ⟨by simp [ServerProgram.response, hdecode], .inl ?_⟩)
          simp [ServerProgram.service, echoExchangeServer, service, hdecode]
        | some msg =>
          refine .inl ⟨id, queue, request, rfl, by simp [ServerProgram.response, hdecode], ?_⟩
          simp [ServerProgram.service, echoExchangeServer, service, hdecode]
      | connectionServer =>
        cases hdecode : vire.decode request with
        | none =>
          refine .inr (.inl ⟨by simp [ServerProgram.response, hdecode], .inl ?_⟩)
          simp [ServerProgram.service, connectionServer, service, hdecode]
        | some msg =>
          cases hcast : vire.connectionRequest msg with
          | none =>
            refine .inr (.inl ⟨by simp [ServerProgram.response, hdecode, hcast], .inr ?_⟩)
            simp [ServerProgram.service, connectionServer, service, hdecode, hcast]
          | some resources =>
            cases hencode : vire.encode (connectionSuccess vire now resources) with
            | none =>
              refine .inr (.inl ⟨by simp [ServerProgram.response, hdecode, hcast, hencode],
                .inl ?_⟩)
              simp [ServerProgram.service, connectionServer, service, hdecode, hcast, hencode]
            | some response =>
              refine .inl ⟨id, queue, response, rfl,
                by simp [ServerProgram.response, hdecode, hcast, hencode], ?_⟩
              simp [ServerProgram.service, connectionServer, service, hdecode, hcast, hencode]

/-- A call that publishes to a queue. -/
def publishesTo (queue : String) : Op → Bool
  | .publish _ routingKey _ => routingKey = queue
  | _ => false

/-- An iteration publishes to the queue it is to reply to, once, or not at
all. -/
theorem countP_publishesTo_service (program : ServerProgram) (now : ℕ → ℤ) (request : Bytes)
    (propIn : Properties) (queue : String) :
    (program.service vire now request propIn).countP (publishesTo queue) +
        (if propIn.replyTo = some queue ∧
          (program.service vire now request propIn).countP (publishesTo queue) = 0 then 1 else 0) =
      if propIn.replyTo = some queue then 1 else 0 := by
  have hcount : (program.service vire now request propIn).countP (publishesTo queue) = 0 ∨
      ((program.service vire now request propIn).countP (publishesTo queue) = 1 ∧
        propIn.replyTo = some queue) := by
    rcases service_cases vire program now request propIn with
      ⟨id, queue', response, rfl, -, hservice⟩ | ⟨-, hservice | hservice⟩ | ⟨-, hservice⟩
    · rw [hservice]
      by_cases hqueue : queue' = queue
      · exact .inr ⟨by simp [reply, publishesTo, hqueue], congrArg some hqueue⟩
      · exact .inl (by simp [reply, publishesTo, hqueue])
    · exact .inl (by rw [hservice]; rfl)
    · exact .inl (by rw [hservice]; rfl)
    · exact .inl (by rw [hservice]; rfl)
  rcases hcount with hcount | ⟨hcount, hreply⟩
  · simp [hcount]
  · simp [hcount, hreply]

end

variable {κ σ ℓ : Type} {M : Type} {vire : Driver M} {bus : Bus κ σ ℓ}

/-- **An answer of a server to a client's request**, which was routed to
it. -/
structure Bus.Answer (vire : Driver M) (bus : Bus κ σ ℓ) (s : σ) (k : κ) (m : Message) : Prop where
  serves : bus.serves s k = true
  routingKey : m.routingKey = bus.queue (.inl k)
  properties : m.properties = ⟨(bus.propOut k).correlationId, none⟩
  response : ∃ now, (bus.server s).response vire now (bus.body k) = some m.body

/-- The name of a reply queue tells its client. -/
theorem Bus.queue_inl_iff {k k' : κ} : bus.queue (.inl k) = bus.queue (.inl k') ↔ k = k' := by
  rw [bus.queue_injective.eq_iff, Sum.inl.injEq]

theorem Bus.queue_inl_ne {k : κ} {p : σ ⊕ ℓ} : bus.queue (.inl k) ≠ bus.queue (.inr p) :=
  fun h => Sum.inl_ne_inr (bus.queue_injective h)

/-- What is published to the default exchange under the name of a reply
queue reaches its client alone. -/
theorem Bus.reaches_default {m : Message} {k : κ} (hkey : m.routingKey = bus.queue (.inl k)) :
    (∀ k', bus.reaches "" m (.inl k') = true ↔ k = k') ∧
      ∀ p, bus.reaches "" m (.inr p) = false := by
  constructor
  · intro k'
    simp [Bus.reaches, hkey, Bus.queue_inl_iff]
  · intro p
    simp [Bus.reaches, hkey, Bus.queue_inl_ne]

/-- What is published to a topic exchange reaches no client, -/
theorem Bus.reaches_topic {exchange : String} (hexchange : exchange ≠ "") (m : Message) (k : κ) :
    bus.reaches exchange m (.inl k) = false := by
  simp [Bus.reaches, hexchange]

/-- and nor does a request. -/
theorem Bus.reaches_request (k k' : κ) :
    bus.reaches (bus.exchange k) (bus.request k) (.inl k') = false := by
  by_cases hexchange : bus.exchange k = ""
  · simp [Bus.reaches, hexchange, Bus.request, bus.direct_ne k k' hexchange]
  · exact bus.reaches_topic hexchange _ k'

/-- The answers that were published to a queue, and by whom. -/
def answersTo (queue : String) (log : List (BusEvent σ)) : List (σ × Message) :=
  log.filterMap fun
    | .reply s exchange m => if exchange = "" ∧ m.routingKey = queue then some (s, m) else none
    | _ => none

/-- What was published under the topics of a listener. -/
def Bus.arrivals (bus : Bus κ σ ℓ) (l : ℓ) (log : List (BusEvent σ)) : List Message :=
  log.filterMap fun
    | .publish exchange m => if bus.reaches exchange m (.inr (.inr l)) then some m else none
    | _ => none

namespace BusState

/-- What has reached a client: what it holds past its loop, and what is in
its queue. -/
def received (bus : Bus κ σ ℓ) (c : BusState κ σ ℓ) (k : κ) : List Message :=
  (if (c.client k).pc = .load then
    [⟨bus.queue (.inl k), (c.client k).propIn, (c.client k).response⟩] else []) ++ c.replies k

/-- And what has reached a listener. -/
def heard (c : BusState κ σ ℓ) (l : ℓ) : List Message :=
  (if (c.listener l).pc = .ended then
    [⟨(c.listener l).routingKey, (c.listener l).props, (c.listener l).event⟩] else []) ++ c.events l

variable {c c' : BusState κ σ ℓ} {s : σ} {k : κ} {l : ℓ} {queue exchange : String} {m : Message}
variable {log : List (BusEvent σ)}

/-- **What a server has in hand**: an answer it is about to publish, or
calls that publish nothing. -/
inductive InHand (vire : Driver M) (bus : Bus κ σ ℓ) (s : σ) (server : Server) : Prop
  | silent (hpc : ∀ ops, server.pc = .run ops → ∀ op ∈ ops, op = .ack ∨ op = .throw)
  | answering {k : κ} {now : ℕ → ℤ} {id : String} {response : Bytes}
      (hpc : server.pc = .run (reply id (bus.queue (.inl k)) response))
      (hserves : bus.serves s k = true) (hid : (bus.propOut k).correlationId = some id)
      (hresponse : (bus.server s).response vire now (bus.body k) = some response)
  | publishing {k : κ} {now : ℕ → ℤ} {response : Bytes}
      (hpc : server.pc = .run [.publish "" (bus.queue (.inl k)) response, .ack])
      (hserves : bus.serves s k = true)
      (hprop : server.propOut.correlationId = (bus.propOut k).correlationId)
      (hresponse : (bus.server s).response vire now (bus.body k) = some response)

/-- What a server makes of a message it is sent. -/
theorem inHand_consumeMessage {server : Server} {now : ℕ → ℤ} {delivery : ℕ}
    (hm : m.properties = ⟨none, none⟩ ∨ ∃ k, bus.serves s k = true ∧ m = bus.request k) :
    InHand vire bus s
      (server.consumeMessage ((bus.server s).service vire) now m delivery) := by
  have hpc : (server.consumeMessage ((bus.server s).service vire) now m delivery).pc =
      .run ((bus.server s).service vire now m.body m.properties) := rfl
  have hsilent : (∀ op ∈ (bus.server s).service vire now m.body m.properties,
      op = .ack ∨ op = .throw) → InHand vire bus s
        (server.consumeMessage ((bus.server s).service vire) now m delivery) := by
    intro hops
    refine .silent fun ops hrun => ?_
    rw [hpc] at hrun
    cases hrun
    exact hops
  rcases service_cases vire (bus.server s) now m.body m.properties with
    ⟨id, queue, response, hprop, hresponse, hservice⟩ | ⟨-, hservice | hservice⟩ | ⟨-, hservice⟩
  · rcases hm with hm | ⟨k, hserves, rfl⟩
    · rw [hm] at hprop
      cases hprop
    · have hpropOut : bus.propOut k = ⟨some id, some queue⟩ := hprop
      have hqueue : bus.queue (.inl k) = queue := by
        simpa [Bus.propOut, requestProperties] using congrArg Properties.replyTo hpropOut
      have hid : (bus.propOut k).correlationId = some id := by rw [hpropOut]
      exact .answering (by rw [hpc, hservice, hqueue]) hserves hid hresponse
  · exact hsilent (by simp [hservice])
  · exact hsilent (by simp [hservice])
  · exact hsilent (by simp [hservice])

/-! ## The record of it -/

/-- Only a reply is an answer. -/
theorem answersTo_append {e : BusEvent σ} (h : ∀ s exchange m, e ≠ .reply s exchange m) :
    answersTo queue (log ++ [e]) = answersTo queue log := by
  cases e with
  | reply s exchange m => exact absurd rfl (h s exchange m)
  | _ => simp [answersTo]

theorem answersTo_reply :
    answersTo queue (log ++ [.reply s "" m]) =
      answersTo queue log ++ if m.routingKey = queue then [(s, m)] else [] := by
  by_cases h : m.routingKey = queue <;> simp [answersTo, h]

theorem mem_answersTo :
    (s, m) ∈ answersTo queue log ↔ m.routingKey = queue ∧ .reply s "" m ∈ log := by
  simp only [answersTo, List.mem_filterMap]
  constructor
  · rintro ⟨e, he, hsome⟩
    cases e with
    | reply s' exchange m' =>
      simp only [Option.ite_none_right_eq_some, Option.some.injEq, Prod.mk.injEq] at hsome
      obtain ⟨⟨rfl, hkey⟩, rfl, rfl⟩ := hsome
      exact ⟨hkey, he⟩
    | _ => cases hsome
  · rintro ⟨hkey, hlog⟩
    exact ⟨_, hlog, by simp [hkey]⟩

/-- What a server is sent or replies is not heard. -/
@[simp] theorem arrivals_consume {now : ℕ → ℤ} :
    bus.arrivals l (log ++ [.consume s now m]) = bus.arrivals l log := by
  simp [Bus.arrivals]

@[simp] theorem arrivals_reply :
    bus.arrivals l (log ++ [.reply s exchange m]) = bus.arrivals l log := by
  simp [Bus.arrivals]

/-! ## What is published to an exchange -/

/-- It reaches no client. -/
theorem received_publish (hclients : ∀ k, bus.reaches exchange m (.inl k) = false) :
    (c.publish bus exchange m).received bus k = c.received bus k := by
  simp [BusState.received, publish, route, hclients]

/-- **A listener hears what reaches it.** -/
theorem heard_publish (h : c.heard l = bus.arrivals l c.log) :
    (c.publish bus exchange m).heard l = bus.arrivals l (c.publish bus exchange m).log := by
  have harrivals : bus.arrivals l (c.log ++ [BusEvent.publish exchange m]) =
      bus.arrivals l c.log ++ if bus.reaches exchange m (.inr (.inr l)) then [m] else [] := by
    by_cases hreaches : bus.reaches exchange m (.inr (.inr l)) = true <;>
      simp [Bus.arrivals, hreaches]
  change _ = bus.arrivals l (c.log ++ [BusEvent.publish exchange m])
  rw [harrivals, ← h]
  by_cases hreaches : bus.reaches exchange m (.inr (.inr l)) = true <;>
    simp [BusState.heard, publish, route, hreaches]

/-- A server is sent what reaches it. -/
theorem ready_publish :
    ((c.publish bus exchange m).queue s).ready = (c.queue s).ready ++
      if bus.reaches exchange m (.inr (.inl s)) then [m] else [] := by
  by_cases hreaches : bus.reaches exchange m (.inr (.inl s)) = true <;>
    simp [publish, route, hreaches, Queue.publish]

/-! ## The tally of a request -/

/-- The answers a server is about to publish to a queue. -/
def owed (server : Server) (queue : String) : ℕ :=
  match server.pc with
  | .run ops => ops.countP (publishesTo queue)
  | _ => 0

/-- The requests of a queue's owner that wait for a server. -/
def waiting (q : Queue Message) (queue : String) : ℕ :=
  q.ready.countP fun m => m.properties.replyTo = some queue

theorem waiting_publish :
    waiting ((c.publish bus exchange m).queue s) queue = waiting (c.queue s) queue +
      if bus.reaches exchange m (.inr (.inl s)) = true ∧ m.properties.replyTo = some queue
      then 1 else 0 := by
  rw [waiting, ready_publish, List.countP_append]
  by_cases hreaches : bus.reaches exchange m (.inr (.inl s)) = true <;>
    simp [waiting, hreaches]

variable [DecidableEq σ]

/-- The answers a server has published to a queue. -/
def answered (s : σ) (queue : String) (log : List (BusEvent σ)) : ℕ :=
  log.countP fun
    | .reply s' _ m => s' = s ∧ m.routingKey = queue
    | _ => false

/-- The requests of a queue's owner that a server was sent and has no answer
to. -/
def passedOver (vire : Driver M) (bus : Bus κ σ ℓ) (s : σ) (queue : String)
    (log : List (BusEvent σ)) : ℕ :=
  log.countP fun
    | .consume s' now m => s' = s ∧ m.properties.replyTo = some queue ∧
        ((bus.server s).service vire now m.body m.properties).countP (publishesTo queue) = 0
    | _ => false

theorem count_answersTo_le :
    ((answersTo queue log).map Prod.fst).count s ≤ answered s queue log := by
  rw [List.count_eq_countP, List.countP_map, answersTo, List.countP_filterMap]
  refine List.countP_mono_left fun e _ he => ?_
  cases e with
  | reply s' exchange m =>
    by_cases hreply : exchange = "" ∧ m.routingKey = queue
    · simpa [hreply] using he
    · simp [hreply] at he
  | _ => cases he

/-- What has become of a client's request at a server. -/
def tally (vire : Driver M) (bus : Bus κ σ ℓ) (c : BusState κ σ ℓ) (s : σ) (k : κ) : ℕ :=
  answered s (bus.queue (.inl k)) c.log + owed (c.server s) (bus.queue (.inl k)) +
    waiting (c.queue s) (bus.queue (.inl k)) + passedOver vire bus s (bus.queue (.inl k)) c.log

/-- **The invariant of the bus.** -/
structure Sound (vire : Driver M) (bus : Bus κ σ ℓ) (c : BusState κ σ ℓ) : Prop where
  /-- What waits for a server is a request that was routed to it, or asks
  for no reply. -/
  ready : ∀ s, ∀ m ∈ (c.queue s).ready, m.properties = ⟨none, none⟩ ∨
    ∃ k, bus.serves s k = true ∧ m = bus.request k
  inHand : ∀ s, InHand vire bus s (c.server s)
  replyTo : ∀ s, (c.server s).propOut.replyTo = none
  answers : ∀ s exchange m, .reply s exchange m ∈ c.log → exchange = "" ∧ ∃ k, bus.Answer vire s k m
  received : ∀ k, c.received bus k = (answersTo (bus.queue (.inl k)) c.log).map Prod.snd
  heard : ∀ l, c.heard l = bus.arrivals l c.log
  /-- A request that was published is one thing at each server it was
  routed to. -/
  tally : ∀ s k, c.tally vire bus s k =
    if (c.client k).pc ≠ .publish ∧ bus.serves s k = true then 1 else 0

theorem sound_initial : Sound vire bus (initial : BusState κ σ ℓ) where
  ready := nofun
  inHand := fun _ => .silent nofun
  replyTo := fun _ => rfl
  answers := nofun
  received := fun _ => rfl
  heard := fun _ => rfl
  tally := fun _ _ => rfl

/-! ## What the log gains -/

@[simp] theorem answered_publish :
    answered s queue (log ++ [.publish exchange m]) = answered s queue log := by
  simp [answered]

@[simp] theorem answered_consume {s' : σ} {now : ℕ → ℤ} :
    answered s queue (log ++ [.consume s' now m]) = answered s queue log := by
  simp [answered]

theorem answered_reply {s' : σ} :
    answered s queue (log ++ [.reply s' exchange m]) =
      answered s queue log + if s' = s ∧ m.routingKey = queue then 1 else 0 := by
  simp [answered]

@[simp] theorem passedOver_publish :
    passedOver vire bus s queue (log ++ [.publish exchange m]) = passedOver vire bus s queue log := by
  simp [passedOver]

@[simp] theorem passedOver_reply {s' : σ} :
    passedOver vire bus s queue (log ++ [.reply s' exchange m]) =
      passedOver vire bus s queue log := by
  simp [passedOver]

theorem passedOver_consume {s' : σ} {now : ℕ → ℤ} :
    passedOver vire bus s queue (log ++ [.consume s' now m]) = passedOver vire bus s queue log +
      if s' = s ∧ m.properties.replyTo = some queue ∧
        ((bus.server s).service vire now m.body m.properties).countP (publishesTo queue) = 0
      then 1 else 0 := by
  simp [passedOver]

/-- What was published to a reply queue is an answer. -/
theorem Sound.of_mem_answersTo (h : Sound vire bus c)
    (hm : m ∈ (answersTo queue c.log).map Prod.snd) :
    m.routingKey = queue ∧ ∃ s k, bus.Answer vire s k m := by
  obtain ⟨⟨s, m'⟩, hmem, rfl⟩ := List.mem_map.1 hm
  obtain ⟨hkey, hlog⟩ := mem_answersTo.1 hmem
  obtain ⟨-, k, hanswer⟩ := h.answers s "" m' hlog
  exact ⟨hkey, s, k, hanswer⟩

/-- **A server is sent what waits for it first**: it takes an answer in
hand, or passes the request over. -/
theorem Sound.deliver {now : ℕ → ℤ} {queue : Queue Message} (h : Sound vire bus c)
    (hpc : (c.server s).pc = .consume) (hd : (c.queue s).deliver 1 = some (m, queue)) :
    Sound vire bus { c with
      server := Function.update c.server s
        ((c.server s).consumeMessage ((bus.server s).service vire) now m (c.queue s).delivered)
      queue := Function.update c.queue s queue
      log := c.log ++ [.consume s now m] } := by
  have hready := (Queue.deliver_eq_some_iff.1 hd).2.1
  have hm := h.ready s m (hready ▸ List.mem_cons_self)
  refine ⟨?_, ?_, ?_, ?_, ?_, ?_, ?_⟩
  · intro s' m' hm'
    by_cases hs : s' = s
    · subst hs
      simp only [Function.update_self] at hm'
      exact h.ready s' m' (hready ▸ List.mem_cons_of_mem _ hm')
    · simp only [Function.update_of_ne hs] at hm'
      exact h.ready s' m' hm'
  · intro s'
    by_cases hs : s' = s
    · subst hs
      simp only [Function.update_self]
      exact inHand_consumeMessage hm
    · simpa only [Function.update_of_ne hs] using h.inHand s'
  · intro s'
    by_cases hs : s' = s
    · subst hs
      simp only [Function.update_self]
      exact h.replyTo s'
    · simpa only [Function.update_of_ne hs] using h.replyTo s'
  · intro s' exchange m' hm'
    have hlog : .reply s' exchange m' ∈ c.log := by simpa using hm'
    exact h.answers s' exchange m' hlog
  · intro k
    change c.received bus k = (answersTo _ (c.log ++ [.consume s now m])).map Prod.snd
    rw [answersTo_append nofun, h.received k]
  · intro l
    change c.heard l = bus.arrivals l (c.log ++ [.consume s now m])
    rw [arrivals_consume, h.heard l]
  · intro s' k
    have htally := h.tally s' k
    rw [← htally]
    by_cases hs : s' = s
    · subst hs
      have hservice := countP_publishesTo_service vire (bus.server s') now m.body m.properties
        (bus.queue (.inl k))
      simp only [BusState.tally, answered_consume, passedOver_consume, Function.update_self,
        waiting, hready, List.countP_cons, owed, hpc, Server.consumeMessage, true_and,
        decide_eq_true_eq]
      omega
    · simp [BusState.tally, answered_consume, passedOver_consume, Function.update_of_ne hs,
        Ne.symm hs]

/-- **A call that publishes nothing.** -/
theorem Sound.move {server : Server} {queues : σ → Queue Message} (h : Sound vire bus c)
    (hinHand : InHand vire bus s server) (hreplyTo : server.propOut.replyTo = none)
    (howed : ∀ queue, owed server queue = owed (c.server s) queue)
    (hready : ∀ s, (queues s).ready = (c.queue s).ready) :
    Sound vire bus { c with
      server := Function.update c.server s server
      queue := queues } := by
  refine { h with ready := ?_, inHand := ?_, replyTo := ?_, tally := ?_ }
  · intro s' m hm
    exact h.ready s' m (hready s' ▸ hm)
  · intro s'
    by_cases hs : s' = s
    · subst hs
      simpa only [Function.update_self] using hinHand
    · simpa only [Function.update_of_ne hs] using h.inHand s'
  · intro s'
    by_cases hs : s' = s
    · subst hs
      simpa only [Function.update_self] using hreplyTo
    · simpa only [Function.update_of_ne hs] using h.replyTo s'
  · intro s' k
    have howed' : owed (Function.update c.server s server s') (bus.queue (.inl k)) =
        owed (c.server s') (bus.queue (.inl k)) := by
      by_cases hs : s' = s
      · subst hs
        rw [Function.update_self, howed]
      · rw [Function.update_of_ne hs]
    rw [← h.tally s' k]
    simp only [BusState.tally, waiting, howed', hready]

/-- **A server publishes its answer**, which reaches the client that asked
and nobody else. -/
theorem Sound.reply {now : ℕ → ℤ} {response : Bytes} (h : Sound vire bus c)
    (hpc : (c.server s).pc = .run [.publish "" (bus.queue (.inl k)) response, .ack])
    (hserves : bus.serves s k = true)
    (hprop : (c.server s).propOut.correlationId = (bus.propOut k).correlationId)
    (hresponse : (bus.server s).response vire now (bus.body k) = some response) :
    Sound vire bus
      ({ c with server := Function.update c.server s { c.server s with pc := .run [.ack] } }.apply
        bus s (some (.publish "" ⟨bus.queue (.inl k), (c.server s).propOut, response⟩))) := by
  have hreaches := bus.reaches_default
    (m := ⟨bus.queue (.inl k), (c.server s).propOut, response⟩) (k := k) rfl
  have hanswer : bus.Answer vire s k ⟨bus.queue (.inl k), (c.server s).propOut, response⟩ := by
    refine ⟨hserves, rfl, ?_, now, hresponse⟩
    rw [← hprop, ← h.replyTo s]
  refine ⟨?_, ?_, ?_, ?_, ?_, ?_, ?_⟩
  · intro s' m hm
    simp only [BusState.apply, route, hreaches.2, Bool.false_eq_true, if_false] at hm
    exact h.ready s' m hm
  · intro s'
    simp only [BusState.apply, route]
    by_cases hs : s' = s
    · subst hs
      rw [Function.update_self]
      refine .silent fun ops hops op hop => ?_
      cases hops
      simpa using .inl (List.mem_singleton.1 hop)
    · rw [Function.update_of_ne hs]
      exact h.inHand s'
  · intro s'
    simp only [BusState.apply, route]
    by_cases hs : s' = s
    · subst hs
      rw [Function.update_self]
      exact h.replyTo s'
    · rw [Function.update_of_ne hs]
      exact h.replyTo s'
  · intro s' exchange m hm
    simp only [BusState.apply, route, List.mem_append, List.mem_singleton] at hm
    rcases hm with hm | hm
    · exact h.answers s' exchange m hm
    · cases hm
      exact ⟨rfl, k, hanswer⟩
  · intro k'
    change _ = (answersTo _ (c.log ++ [.reply s "" _])).map Prod.snd
    rw [answersTo_reply, List.map_append, ← h.received k']
    by_cases hk : k = k'
    · subst hk
      simp [BusState.received, BusState.apply, route, (hreaches.1 k).2 rfl]
    · have hmiss := mt (hreaches.1 k').1 hk
      simp [BusState.received, BusState.apply, route, hmiss, Bus.queue_inl_iff, hk]
  · intro l
    change _ = bus.arrivals l (c.log ++ [.reply s "" _])
    rw [arrivals_reply, ← h.heard l]
    simp [BusState.heard, BusState.apply, route, hreaches.2]
  · intro s' k'
    refine Eq.trans ?_ (h.tally s' k')
    simp only [BusState.tally, BusState.apply, route, hreaches.2, Bool.false_eq_true, if_false,
      answered_reply, passedOver_reply]
    by_cases hs : s' = s
    · subst hs
      have hbefore : owed (c.server s') (bus.queue (.inl k')) =
          if bus.queue (.inl k) = bus.queue (.inl k') then 1 else 0 := by
        simp [owed, hpc, publishesTo, List.countP_cons]
      have hafter : owed { c.server s' with pc := .run [.ack] } (bus.queue (.inl k')) = 0 := by
        simp [owed, publishesTo]
      rw [Function.update_self, hbefore, hafter]
      simp only [true_and]
      omega
    · simp [Function.update_of_ne hs, Ne.symm hs]

/-- **A server makes its next call.** -/
theorem Sound.go {server : Server} {effect : Option Effect} (h : Sound vire bus c)
    (hs : (c.server s).step = some (server, effect)) :
    Sound vire bus
      ({ c with server := Function.update c.server s server }.apply bus s effect) := by
  have hreplyTo := h.replyTo s
  rcases h.inHand s with ⟨hpc⟩ | ⟨hpc, hserves, hid, hresponse⟩ | ⟨hpc, hserves, hprop, hresponse⟩
  · unfold Server.step at hs
    split at hs
    · next hrun =>
      cases hs
      refine h.move (.silent (by simp)) hreplyTo (fun queue => ?_) fun _ => rfl
      simp [owed, hrun]
    · next hrun => exact absurd (hpc _ hrun _ List.mem_cons_self) (by simp)
    · next hrun => exact absurd (hpc _ hrun _ List.mem_cons_self) (by simp)
    · next ops hrun =>
      cases hs
      have hsilent : InHand vire bus s { c.server s with pc := .run ops } := by
        refine .silent fun ops' hops op hop => ?_
        cases hops
        exact hpc _ hrun op (List.mem_cons_of_mem _ hop)
      refine h.move hsilent hreplyTo (fun queue => ?_) fun s' => ?_
      · simp [owed, hrun, publishesTo]
      · by_cases hs : s' = s
        · subst hs
          simp [Queue.ack]
        · simp [hs]
    · next ops hrun =>
      cases hs
      refine h.move (.silent (by simp)) hreplyTo (fun queue => ?_) fun _ => rfl
      have hcount : ops.countP (publishesTo queue) = 0 := by
        refine List.countP_eq_zero.2 fun op hop => ?_
        rcases hpc _ hrun op (List.mem_cons_of_mem _ hop) with rfl | rfl <;> simp [publishesTo]
      simp [owed, hrun, publishesTo, hcount]
    · cases hs
    · cases hs
  · simp only [Server.step, hpc, Rpc.reply, Option.some.injEq, Prod.mk.injEq] at hs
    obtain ⟨rfl, rfl⟩ := hs
    refine h.move (.publishing rfl hserves hid.symm hresponse) hreplyTo (fun queue => ?_)
      fun _ => rfl
    simp [owed, hpc, Rpc.reply, publishesTo]
  · simp only [Server.step, hpc, Option.some.injEq, Prod.mk.injEq] at hs
    obtain ⟨rfl, rfl⟩ := hs
    exact h.reply hpc hserves hprop hresponse

/-- **A producer publishes**, for listeners and for whoever else is bound. -/
theorem Sound.produce (h : Sound vire bus c) (hexchange : exchange ≠ "")
    (hm : m.properties = ⟨none, none⟩) : Sound vire bus (c.publish bus exchange m) where
  ready := by
    intro s m' hm'
    rw [ready_publish, List.mem_append] at hm'
    rcases hm' with hm' | hm'
    · exact h.ready s m' hm'
    · split at hm'
      · exact .inl (List.mem_singleton.1 hm' ▸ hm)
      · cases hm'
  inHand := h.inHand
  replyTo := h.replyTo
  answers := by
    intro s exchange' m' hm'
    have hlog : .reply s exchange' m' ∈ c.log := by simpa [publish, route] using hm'
    exact h.answers s exchange' m' hlog
  received := by
    intro k
    rw [received_publish (bus.reaches_topic hexchange m), h.received k]
    change _ = (answersTo _ (c.log ++ [.publish exchange m])).map Prod.snd
    rw [answersTo_append nofun]
  heard := fun l => heard_publish (h.heard l)
  tally := by
    intro s k
    refine Eq.trans ?_ (h.tally s k)
    simp only [BusState.tally, waiting_publish, hm]
    simp [publish, route]

theorem producerExchange_ne (exchangeName : String) : producerExchange exchangeName ≠ "" := by
  unfold producerExchange
  split
  · decide
  · assumption

/-- A client that has not asked has no answer, and one that has asked has
one at most from each server. -/
theorem Sound.count_le (h : Sound vire bus c) :
    ((answersTo (bus.queue (.inl k)) c.log).map Prod.fst).count s ≤
      if (c.client k).pc ≠ .publish ∧ bus.serves s k = true then 1 else 0 := by
  have hcount : ((answersTo (bus.queue (.inl k)) c.log).map Prod.fst).count s ≤
      answered s (bus.queue (.inl k)) c.log := count_answersTo_le
  have htally := h.tally s k
  unfold BusState.tally at htally
  omega

/-- What a client takes out of its queue is an answer of its own, and ends
its loop. -/
theorem Sound.of_replies {ms : List Message} (h : Sound vire bus c)
    (hpc : (c.client k).pc = .consume) (hreplies : c.replies k = m :: ms) :
    m.routingKey = bus.queue (.inl k) ∧
      (bus.program k).receiveLoop (bus.propOut k) m.properties = true := by
  have hreceived := h.received k
  simp only [BusState.received, hpc, hreplies, reduceCtorEq, if_false, List.nil_append] at hreceived
  have hm : m ∈ (answersTo (bus.queue (.inl k)) c.log).map Prod.snd :=
    hreceived ▸ List.mem_cons_self
  obtain ⟨hkey, s, k', hanswer⟩ := h.of_mem_answersTo hm
  obtain rfl : k' = k := Bus.queue_inl_iff.1 (hanswer.routingKey.symm.trans hkey)
  refine ⟨hkey, ?_⟩
  rw [hanswer.properties]
  exact receiveLoop_own _ _ _ none

variable [DecidableEq κ]

/-- **A client publishes its request**, and it waits at each server it is
routed to. -/
theorem Sound.request (h : Sound vire bus c) (hpc : (c.client k).pc = .publish) :
    Sound vire bus ({ c with
      client := Function.update c.client k { c.client k with pc := .consume } }.publish bus
        (bus.exchange k) (bus.request k)) where
  ready := by
    intro s m hm
    rw [ready_publish, List.mem_append] at hm
    rcases hm with hm | hm
    · exact h.ready s m hm
    · split at hm
      · next hbound => exact .inr ⟨k, hbound, List.mem_singleton.1 hm⟩
      · cases hm
  inHand := h.inHand
  replyTo := h.replyTo
  answers := by
    intro s exchange m hm
    have hm' : .reply s exchange m ∈ c.log := by simpa [publish, route] using hm
    exact h.answers s exchange m hm'
  received := by
    intro k'
    rw [received_publish (bus.reaches_request k)]
    change _ = (answersTo _ (c.log ++ [_])).map Prod.snd
    rw [answersTo_append nofun, ← h.received k']
    by_cases hk : k' = k
    · subst hk
      simp [BusState.received, hpc]
    · simp [BusState.received, hk]
  heard := fun l => heard_publish (h.heard l)
  tally := by
    intro s k'
    have htally := h.tally s k'
    unfold BusState.tally at htally ⊢
    rw [waiting_publish]
    change answered s _ (c.log ++ [_]) + owed (c.server s) _ + _ +
      passedOver vire bus s _ (c.log ++ [_]) = if ((Function.update c.client k _) k').pc ≠ _ ∧ _ then
        1 else 0
    rw [answered_publish, passedOver_publish]
    have hreply : (bus.request k).properties.replyTo = some (bus.queue (.inl k')) ↔ k = k' := by
      simp [Bus.request, Bus.propOut, requestProperties, Bus.queue_inl_iff]
    by_cases hk : k = k'
    · subst hk
      simp only [hpc, ne_eq, not_true_eq_false, false_and, if_false] at htally
      simp only [Function.update_self, hreply]
      change answered _ _ _ + owed _ _ + (waiting (c.queue s) _ + if bus.serves s k = true ∧ _ then
        1 else 0) + passedOver _ _ _ _ _ = _
      by_cases hserves : bus.serves s k = true
      · simp only [hserves, and_self, if_true, ne_eq, reduceCtorEq, not_false_eq_true]
        omega
      · simp only [hserves, false_and, and_false, Bool.false_eq_true, if_false]
        omega
    · rw [if_neg fun hb => hk (hreply.1 hb.2)]
      simp only [Function.update_of_ne (Ne.symm hk)]
      exact htally

/-- **A client consumes**, and is past its loop. -/
theorem Sound.consume {ms : List Message} (h : Sound vire bus c) (hpc : (c.client k).pc = .consume)
    (hreplies : c.replies k = m :: ms) :
    Sound vire bus { c with
      client := Function.update c.client k
        (Client.consumeMessage (bus.program k).receiveLoop (bus.propOut k) m)
      replies := Function.update c.replies k ms } := by
  obtain ⟨hkey, hbreaks⟩ := h.of_replies hpc hreplies
  rw [Client.consumeMessage_of_breaks hbreaks]
  refine { h with received := ?_, tally := ?_ }
  · intro k'
    rw [← h.received k']
    by_cases hk : k' = k
    · subst hk
      simp [BusState.received, hpc, hreplies, ← hkey]
    · simp [BusState.received, hk]
  · intro s k'
    have htally := h.tally s k'
    by_cases hk : k' = k
    · subst hk
      rw [hpc] at htally
      simpa [BusState.tally] using htally
    · simpa [BusState.tally, hk] using htally

variable [DecidableEq ℓ]

omit [DecidableEq κ] in
/-- A listener hears its first event. -/
theorem Sound.listen {ms : List Message} (h : Sound vire bus c)
    (hpc : (c.listener l).pc = .consume) (hevents : c.events l = m :: ms) :
    Sound vire bus { c with
      listener := Function.update c.listener l (.consumeMessage m)
      events := Function.update c.events l ms } := by
  refine { h with heard := ?_ }
  intro l'
  rw [← h.heard l']
  by_cases hl : l' = l
  · subst hl
    simp [BusState.heard, Listener.consumeMessage, hpc, hevents]
  · simp [BusState.heard, hl]

/-- **Every move keeps the invariant.** -/
theorem Sound.step {a : BusAct κ σ ℓ} (h : Sound vire bus c) (hs : Step vire bus c a c') :
    Sound vire bus c' := by
  cases hs with
  | request hpc => exact h.request hpc
  | consume hpc hreplies => exact h.consume hpc hreplies
  | deliver hpc hd => exact h.deliver hpc hd
  | go hs => exact h.go hs
  | produce exchangeName routingKey body =>
    exact h.produce (producerExchange_ne exchangeName) rfl
  | listen hpc hevents => exact h.listen hpc hevents
  | fail hpc => exact h

theorem Sound.of_run {as : List (BusAct κ σ ℓ)}
    (hrun : (busMachine vire bus).run initial as = some c) : Sound vire bus c :=
  Machine.run_invariant (Sound vire bus) (fun _ _ _ h hs => h.step (.of_step hs)) sound_initial hrun

/-! ## The results -/

/-- **A request comes to one thing at each server it is routed to**, and to
nothing at any other. For every library, every virtual host and every order
of steps of its parties: at a server that is bound for a request that was
published, the request waits in its queue, is about to be answered, was
answered or was passed over, one of the four and once. -/
theorem request_tally (vire : Driver M) (bus : Bus κ σ ℓ)
    (as : List (BusAct κ σ ℓ)) (c : BusState κ σ ℓ)
    (hrun : (busMachine vire bus).run initial as = some c) (s : σ) (k : κ) :
    c.tally vire bus s k = if (c.client k).pc ≠ .publish ∧ bus.serves s k = true then 1 else 0 :=
  (Sound.of_run hrun).tally s k

/-- Two servers on one exchange, two clients, and two listeners. -/
def sampleBus : Bus Bool Bool Bool where
  program k := if k then .connectionRequest else .rpcRequest
  rand _ := 1804289383
  exchange _ := "vireserver.service"
  routingKey _ := "connection"
  body _ := [1]
  server s := if s then .connectionServer else .echoExchangeServer
  params
    | .inl _ => ⟨"vireserver.service", "connection", "", "", ""⟩
    | .inr _ => ⟨"log.event", "", "", "", ""⟩
  matching topic key := topic = "#" ∨ topic = key
  queue
    | .inl k => if k then "amq.gen-1" else "amq.gen-2"
    | .inr (.inl s) => if s then "amq.gen-3" else "amq.gen-4"
    | .inr (.inr l) => if l then "amq.gen-5" else "amq.gen-6"
  direct_ne := by decide
  queue_injective := by
    intro p q
    rcases p with (_ | _) | (_ | _) | _ | _ <;> rcases q with (_ | _) | (_ | _) | _ | _ <;> decide

/-- A request that both servers are sent, and answer; and an event. -/
def busRun : List (BusAct Bool Bool Bool) :=
  .request true :: .deliver true (fun _ => 0) :: List.replicate 4 (.go true) ++
    .consume true :: .deliver false (fun _ => 0) :: List.replicate 4 (.go false) ++
      [.fail true, .produce "" "vire.status" [7], .listen true]

theorem request_tally_busRun :
    ∃ c, (busMachine sampleDriver sampleBus).run initial busRun = some c ∧
      c.tally sampleDriver sampleBus true true = 1 ∧
      c.tally sampleDriver sampleBus false true = 1 ∧
      c.tally sampleDriver sampleBus true false = 0 :=
  ⟨_, rfl, request_tally sampleDriver sampleBus busRun _ rfl true true,
    request_tally sampleDriver sampleBus busRun _ rfl false true,
    request_tally sampleDriver sampleBus busRun _ rfl true false⟩

/-- **What reaches a client are answers to its own request.** For every
library, every virtual host and every order of steps of its parties: what
is in the reply queue of a client, behind what ended its loop, is what
servers published to it, in this order. Each of these was published by a
server that the request was routed to, with the correlation id that was
sent and the response of that server to the bytes that were sent. No server
publishes two, and there is none before the client has asked. -/
theorem answers_reach_client (vire : Driver M) (bus : Bus κ σ ℓ)
    (as : List (BusAct κ σ ℓ)) (c : BusState κ σ ℓ)
    (hrun : (busMachine vire bus).run initial as = some c) (k : κ) :
    c.received bus k = (answersTo (bus.queue (.inl k)) c.log).map Prod.snd ∧
    (∀ r ∈ answersTo (bus.queue (.inl k)) c.log, bus.Answer vire r.1 k r.2) ∧
    ((answersTo (bus.queue (.inl k)) c.log).map Prod.fst).Nodup ∧
    ((c.client k).pc = .publish → c.received bus k = []) := by
  have h : Sound vire bus c := .of_run hrun
  refine ⟨h.received k, ?_, ?_, ?_⟩
  · rintro ⟨s, m⟩ hr
    obtain ⟨hkey, hlog⟩ := mem_answersTo.1 hr
    obtain ⟨-, k', hanswer⟩ := h.answers s "" m hlog
    obtain rfl : k' = k := Bus.queue_inl_iff.1 (hanswer.routingKey.symm.trans hkey)
    exact hanswer
  · refine List.nodup_iff_count.2 fun s => ?_
    have hle := h.count_le (s := s) (k := k)
    split at hle <;> omega
  · intro hpc
    rw [h.received k, List.map_eq_nil_iff, List.eq_nil_iff_forall_not_mem]
    rintro ⟨s, m⟩ hr
    have hpos : 0 < ((answersTo (bus.queue (.inl k)) c.log).map Prod.fst).count s :=
      List.count_pos_iff.2 (List.mem_map.2 ⟨_, hr, rfl⟩)
    have hle := h.count_le (s := s) (k := k)
    rw [if_neg (by simp [hpc])] at hle
    omega

theorem answers_reach_client_busRun :
    ∃ c, (busMachine sampleDriver sampleBus).run initial busRun = some c ∧
      c.received sampleBus true = (answersTo "amq.gen-1" c.log).map Prod.snd ∧
      c.received sampleBus false = [] :=
  ⟨_, rfl, (answers_reach_client sampleDriver sampleBus busRun _ rfl true).1,
    (answers_reach_client sampleDriver sampleBus busRun _ rfl false).2.2.2 rfl⟩

/-- **A listener hears what is published under its topics**, whatever
exceptions it meets on the way. For every library, every virtual host and
every order of steps of its parties: where it is in its loop, all that was
published under its topics waits for it in order, and where it is past its
loop, what it has is the first of that and the rest waits. -/
theorem listener_hears (vire : Driver M) (bus : Bus κ σ ℓ)
    (as : List (BusAct κ σ ℓ)) (c : BusState κ σ ℓ)
    (hrun : (busMachine vire bus).run initial as = some c) (l : ℓ) :
    ((c.listener l).pc = .consume → bus.arrivals l c.log = c.events l) ∧
    ((c.listener l).pc = .ended → bus.arrivals l c.log =
      ⟨(c.listener l).routingKey, (c.listener l).props, (c.listener l).event⟩ :: c.events l) := by
  have h := (Sound.of_run hrun).heard l
  constructor
  · intro hpc
    rw [← h, BusState.heard, if_neg (by simp [hpc]), List.nil_append]
  · intro hpc
    rw [← h, BusState.heard, if_pos hpc, List.singleton_append]

theorem listener_hears_busRun :
    ∃ c, (busMachine sampleDriver sampleBus).run initial busRun = some c ∧
      sampleBus.arrivals true c.log = [⟨"vire.status", ⟨none, none⟩, [7]⟩] :=
  ⟨_, rfl, (listener_hears sampleDriver sampleBus busRun _ rfl true).2 rfl⟩

end BusState

end Rpc

end VireSandbox
