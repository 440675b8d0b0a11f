import Mathlib.Logic.Function.Basic
import VireSandbox.Rpc.Client
/-!
# The bus — its model

A virtual host as the scripts people it: any number of request clients,
of servers and of event listeners, and the producers of events. A server
or a listener binds its queue to a topic exchange, which copies what is
published to it into each queue that is bound for the routing key: two
servers on one exchange are both sent a request. What a server publishes
goes to the default exchange, which routes by the name of a queue.

`cms_tests/event_listener.cxx` consumes without acknowledgements, and
leaves its loop with the first event; an exception of `consume_message`,
which is taken to leave the queue alone, does not end the loop. How a
topic matches a key is the broker's, and a parameter. The log is the
model's own record.
-/

namespace VireSandbox

namespace Rpc

/-! ## The bindings of a queue -/

/-- The options by which `connection_server`, `echo_exchange_server` and
`event_listener` bind their queue. -/
structure TopicParams where
  exchangeName : String
  topic0 : String
  topic1 : String
  topic2 : String
  topic3 : String
  deriving DecidableEq, Repr

namespace TopicParams

variable (params : TopicParams)

/-- `params.exchange`. -/
def exchange : Bool := params.exchangeName ≠ ""

/-- `params.topic_0`, past its default. -/
def boundTopic0 : String :=
  if params.exchange = true ∧ params.topic0 = "" then "#" else params.topic0

/-- `params.nb_topics`. -/
def nbTopics : ℕ :=
  if params.exchange then
    if params.topic0 = "" then 1
    else if params.topic1 = "" then 1
    else if params.topic2 = "" then 2
    else if params.topic3 = "" then 3
    else 4
  else 0

/-- The calls of `queue_bind`, by their exchange and key. -/
def queueBinds : List (String × String) :=
  if params.exchange then
    (params.exchangeName, params.boundTopic0) ::
      ((if 1 < params.nbTopics then [(params.exchangeName, params.topic1)] else []) ++
        (if 2 < params.nbTopics then [(params.exchangeName, params.topic2)] else []) ++
        if 3 < params.nbTopics then [(params.exchangeName, params.topic3)] else [])
  else []

/-- **There are as many bindings as topics**, each for the exchange that is
named and for a topic that is not empty. -/
theorem queueBinds_spec :
    params.queueBinds.length = params.nbTopics ∧
      ∀ bind ∈ params.queueBinds, bind.1 = params.exchangeName ∧ bind.1 ≠ "" ∧ bind.2 ≠ "" := by
  unfold queueBinds
  by_cases hexchange : params.exchange = true
  · have hname : params.exchangeName ≠ "" := by simpa [exchange] using hexchange
    rw [if_pos hexchange]
    by_cases h0 : params.topic0 = ""
    · simp [nbTopics, boundTopic0, hexchange, h0, hname]
    by_cases h1 : params.topic1 = ""
    · simp [nbTopics, boundTopic0, hexchange, h0, h1, hname]
    by_cases h2 : params.topic2 = ""
    · simp [nbTopics, boundTopic0, hexchange, h0, h1, h2, hname]
    by_cases h3 : params.topic3 = "" <;>
      simp [nbTopics, boundTopic0, hexchange, h0, h1, h2, h3, hname]
  · simp [nbTopics, hexchange]

end TopicParams

/-! ## The parties -/

/-- The servers. -/
inductive ServerProgram
  | connectionServer
  | echoExchangeServer
  deriving DecidableEq, Repr

/-- The service loop of a server. -/
def ServerProgram.service {M : Type} (vire : Driver M) : ServerProgram → Service
  | connectionServer => Rpc.connectionServer vire
  | echoExchangeServer => Rpc.echoExchangeServer vire

/-- Where an event listener is. -/
inductive ListenerPc
  /-- In `consume_message`. -/
  | consume
  /-- Past its loop. -/
  | ended
  deriving DecidableEq, Repr

/-- An event listener, with the variables of its loop. -/
structure Listener where
  pc : ListenerPc
  event : Bytes
  routingKey : String
  props : Properties
  deriving DecidableEq, Repr

namespace Listener

def initial : Listener := ⟨.consume, [], "", ⟨none, none⟩⟩

/-- `consume_message` returns, and the loop ends. -/
def consumeMessage (m : Message) : Listener := ⟨.ended, m.body, m.routingKey, m.properties⟩

end Listener

/-- **A virtual host and its parties**, by what they run and what they send.
A request goes to an exchange, or, as `rpc_request` has it with a direct
queue, to the default exchange under the name of that. The queues are
exclusive, and no two have one name. -/
structure Bus (κ σ ℓ : Type) where
  program : κ → RequestClient
  /-- What `std::rand` returns to a client. -/
  rand : κ → ℕ
  exchange : κ → String
  routingKey : κ → String
  body : κ → Bytes
  server : σ → ServerProgram
  params : σ ⊕ ℓ → TopicParams
  /-- Whether a topic matches a routing key. -/
  matching : String → String → Bool
  queue : κ ⊕ σ ⊕ ℓ → String
  /-- Nobody publishes a request to a reply queue, whose name is the broker's. -/
  direct_ne : ∀ k k', exchange k = "" → routingKey k ≠ queue (.inl k')
  queue_injective : Function.Injective queue

variable {κ σ ℓ : Type}

namespace Bus

variable (bus : Bus κ σ ℓ)

/-- `prop_out` of a client. -/
def propOut (k : κ) : Properties := requestProperties (bus.rand k) (bus.queue (.inl k))

/-- What a client publishes. -/
def request (k : κ) : Message := ⟨bus.routingKey k, bus.propOut k, bus.body k⟩

/-- The queue of a server or a listener is bound to an exchange for a key. -/
def bound (p : σ ⊕ ℓ) (exchange key : String) : Bool :=
  (bus.params p).queueBinds.any fun bind => bind.1 = exchange ∧ bus.matching bind.2 key = true

/-- A message published to an exchange is put in the queue of a party. -/
def reaches (exchange : String) (m : Message) : κ ⊕ σ ⊕ ℓ → Bool
  | .inl k => exchange = "" ∧ m.routingKey = bus.queue (.inl k)
  | .inr p =>
    if exchange = "" then m.routingKey = bus.queue (.inr p) else bus.bound p exchange m.routingKey

/-- A server's queue is sent the request of a client. -/
def serves (s : σ) (k : κ) : Bool :=
  bus.reaches (bus.exchange k) (bus.request k) (.inr (.inl s))

end Bus

/-- What the log records. -/
inductive BusEvent (σ : Type)
  /-- A client or a producer has published. -/
  | publish (exchange : String) (m : Message)
  /-- A server has published. -/
  | reply (s : σ) (exchange : String) (m : Message)
  /-- A server has been sent a message, and read the clock. -/
  | consume (s : σ) (now : ℕ → ℤ) (m : Message)

/-- The parties and their queues. -/
structure BusState (κ σ ℓ : Type) where
  client : κ → Client
  replies : κ → List Message
  server : σ → Server
  queue : σ → Queue Message
  listener : ℓ → Listener
  events : ℓ → List Message
  log : List (BusEvent σ)

/-- Who moves. A producer names its exchange, or leaves it to its default,
and sets no property. -/
inductive BusAct (κ σ ℓ : Type)
  /-- A client publishes its request. -/
  | request (k : κ)
  /-- `consume_message` of a client returns. -/
  | consume (k : κ)
  /-- The broker delivers to a server. -/
  | deliver (s : σ) (now : ℕ → ℤ)
  /-- A server makes its next call. -/
  | go (s : σ)
  /-- `status_event_producer` publishes. -/
  | produce (exchangeName routingKey : String) (body : Bytes)
  /-- `consume_message` of a listener returns. -/
  | listen (l : ℓ)
  /-- `consume_message` of a listener throws, and takes no message. -/
  | fail (l : ℓ)

namespace BusState

/-- The parties as they enter their loops. -/
def initial : BusState κ σ ℓ where
  client := fun _ => .initial
  replies := fun _ => []
  server := fun _ => .initial
  queue := fun _ => .empty
  listener := fun _ => .initial
  events := fun _ => []
  log := []

variable {M : Type} (vire : Driver M) (bus : Bus κ σ ℓ) (c : BusState κ σ ℓ)

/-- The broker puts a message in the queues it reaches. -/
def route (exchange : String) (m : Message) : BusState κ σ ℓ :=
  { c with
    replies := fun k =>
      if bus.reaches exchange m (.inl k) then c.replies k ++ [m] else c.replies k
    queue := fun s =>
      if bus.reaches exchange m (.inr (.inl s)) then (c.queue s).publish m else c.queue s
    events := fun l =>
      if bus.reaches exchange m (.inr (.inr l)) then c.events l ++ [m] else c.events l }

/-- A client or a producer publishes. -/
def publish (exchange : String) (m : Message) : BusState κ σ ℓ :=
  { c with log := c.log ++ [BusEvent.publish exchange m] }.route bus exchange m

/-- The exchange a producer publishes to. -/
def producerExchange (exchangeName : String) : String :=
  if exchangeName = "" then "log.event" else exchangeName

variable [DecidableEq σ]

/-- What the broker does with a call of a server. -/
def apply (s : σ) : Option Effect → BusState κ σ ℓ
  | none => c
  | some (.publish exchange m) =>
    { c with log := c.log ++ [BusEvent.reply s exchange m] }.route bus exchange m
  | some (.ack delivery) =>
    { c with queue := Function.update c.queue s ((c.queue s).ack delivery) }

/-- A delivery to a server in `consume_message`. -/
def stepDeliver (s : σ) (now : ℕ → ℤ) : Option (BusState κ σ ℓ) :=
  if (c.server s).pc = .consume then
    ((c.queue s).deliver 1).map fun (m, queue) =>
      { c with
        server := Function.update c.server s
          ((c.server s).consumeMessage ((bus.server s).service vire) now m (c.queue s).delivered)
        queue := Function.update c.queue s queue
        log := c.log ++ [.consume s now m] }
  else none

/-- The next call of a server. -/
def stepGo (s : σ) : Option (BusState κ σ ℓ) :=
  (c.server s).step.map fun (server, effect) =>
    { c with server := Function.update c.server s server }.apply bus s effect

variable [DecidableEq κ] [DecidableEq ℓ]

def stepRequest (k : κ) : Option (BusState κ σ ℓ) :=
  if (c.client k).pc = .publish then
    some ({ c with client := Function.update c.client k { c.client k with pc := .consume } }.publish
      bus (bus.exchange k) (bus.request k))
  else none

def stepConsume (k : κ) : Option (BusState κ σ ℓ) :=
  if (c.client k).pc = .consume then
    match c.replies k with
    | [] => none
    | m :: ms => some { c with
        client := Function.update c.client k
          (Client.consumeMessage (bus.program k).receiveLoop (bus.propOut k) m)
        replies := Function.update c.replies k ms }
  else none

def stepListen (l : ℓ) : Option (BusState κ σ ℓ) :=
  if (c.listener l).pc = .consume then
    match c.events l with
    | [] => none
    | m :: ms => some { c with
        listener := Function.update c.listener l (.consumeMessage m)
        events := Function.update c.events l ms }
  else none

/-- One step of the system. -/
def step : BusAct κ σ ℓ → Option (BusState κ σ ℓ)
  | .request k => c.stepRequest bus k
  | .consume k => c.stepConsume bus k
  | .deliver s now => c.stepDeliver vire bus s now
  | .go s => c.stepGo bus s
  | .produce exchangeName routingKey body =>
    some (c.publish bus (producerExchange exchangeName) ⟨routingKey, ⟨none, none⟩, body⟩)
  | .listen l => c.stepListen l
  | .fail l => if (c.listener l).pc = .consume then some c else none

end BusState

variable [DecidableEq κ] [DecidableEq σ] [DecidableEq ℓ] {M : Type}

/-- **The machine of a virtual host.** -/
def busMachine (vire : Driver M) (bus : Bus κ σ ℓ) : Machine (BusState κ σ ℓ) (BusAct κ σ ℓ) :=
  ⟨fun c => c.step vire bus⟩

namespace BusState

variable {vire : Driver M} {bus : Bus κ σ ℓ} {c c' : BusState κ σ ℓ} {a : BusAct κ σ ℓ}

/-- **The moves of the bus.** -/
inductive Step (vire : Driver M) (bus : Bus κ σ ℓ) (c : BusState κ σ ℓ) :
    BusAct κ σ ℓ → BusState κ σ ℓ → Prop
  | request {k : κ} (hpc : (c.client k).pc = .publish) :
      Step vire bus c (.request k)
        ({ c with
          client := Function.update c.client k { c.client k with pc := .consume } }.publish bus
          (bus.exchange k) (bus.request k))
  | consume {k : κ} {m : Message} {ms : List Message} (hpc : (c.client k).pc = .consume)
      (hreplies : c.replies k = m :: ms) :
      Step vire bus c (.consume k) { c with
        client := Function.update c.client k
          (Client.consumeMessage (bus.program k).receiveLoop (bus.propOut k) m)
        replies := Function.update c.replies k ms }
  | deliver {s : σ} {now : ℕ → ℤ} {m : Message} {queue : Queue Message}
      (hpc : (c.server s).pc = .consume) (hd : (c.queue s).deliver 1 = some (m, queue)) :
      Step vire bus c (.deliver s now) { c with
        server := Function.update c.server s
          ((c.server s).consumeMessage ((bus.server s).service vire) now m (c.queue s).delivered)
        queue := Function.update c.queue s queue
        log := c.log ++ [.consume s now m] }
  | go {s : σ} {server : Server} {effect : Option Effect}
      (hs : (c.server s).step = some (server, effect)) :
      Step vire bus c (.go s)
        ({ c with server := Function.update c.server s server }.apply bus s effect)
  | produce (exchangeName routingKey : String) (body : Bytes) :
      Step vire bus c (.produce exchangeName routingKey body)
        (c.publish bus (producerExchange exchangeName) ⟨routingKey, ⟨none, none⟩, body⟩)
  | listen {l : ℓ} {m : Message} {ms : List Message} (hpc : (c.listener l).pc = .consume)
      (hevents : c.events l = m :: ms) :
      Step vire bus c (.listen l) { c with
        listener := Function.update c.listener l (.consumeMessage m)
        events := Function.update c.events l ms }
  | fail {l : ℓ} (hpc : (c.listener l).pc = .consume) : Step vire bus c (.fail l) c

/-- **Every step is a move of the list.** -/
theorem Step.of_step (h : (busMachine vire bus).step c a = some c') : Step vire bus c a c' := by
  change c.step vire bus a = some c' at h
  cases a with
  | request k =>
    change c.stepRequest bus k = some c' at h
    unfold stepRequest at h
    split at h <;> cases h
    next hpc => exact .request hpc
  | consume k =>
    change c.stepConsume bus k = some c' at h
    unfold stepConsume at h
    split at h
    · next hpc =>
      split at h <;> cases h
      next hreplies => exact .consume hpc hreplies
    · cases h
  | deliver s now =>
    change c.stepDeliver vire bus s now = some c' at h
    unfold stepDeliver at h
    split at h
    · next hpc =>
      obtain ⟨⟨m, queue⟩, hd, rfl⟩ := Option.map_eq_some_iff.1 h
      exact .deliver hpc hd
    · cases h
  | go s =>
    obtain ⟨⟨server, effect⟩, hs, rfl⟩ := Option.map_eq_some_iff.1 h
    exact .go hs
  | produce exchangeName routingKey body =>
    cases h
    exact .produce exchangeName routingKey body
  | listen l =>
    change c.stepListen l = some c' at h
    unfold stepListen at h
    split at h
    · next hpc =>
      split at h <;> cases h
      next hevents => exact .listen hpc hevents
    · cases h
  | fail l =>
    simp only [step] at h
    split at h <;> cases h
    next hpc => exact .fail hpc

end BusState

end Rpc

end VireSandbox
