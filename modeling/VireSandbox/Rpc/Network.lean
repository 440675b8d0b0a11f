import Mathlib.Logic.Function.Basic
import VireSandbox.Rpc.Client
/-!
# An echo server and its clients — their model

Any number of request clients and one `echo_exchange_server`, over a
broker. A client publishes its request to an exchange the server's queue
may be bound to, and waits on its reply queue; the server publishes to the
default exchange, which routes by the name of a queue. Each queue is
first in, first out and delivers a message once.

The log is the model's own record of what the server consumes, publishes
and acknowledges.
-/

namespace VireSandbox

namespace Rpc

/-- **The clients and the names of the broker.** A client is what it runs
and what it sends; its exclusive queue has a name that no other queue
has. -/
structure Site (κ : Type) where
  program : κ → RequestClient
  /-- What `std::rand` returns to a client, which never seeds it. -/
  rand : κ → ℕ
  exchange : κ → String
  routingKey : κ → String
  body : κ → Bytes
  queue : κ → String
  serverQueue : String
  /-- The server's queue is bound to this exchange for this key. -/
  bound : String → String → Bool
  exchange_ne : ∀ k, exchange k ≠ ""
  queue_injective : Function.Injective queue
  queue_ne : ∀ k, queue k ≠ serverQueue

namespace Site

variable {κ : Type} (site : Site κ) (k : κ)

/-- `prop_out` of a client. -/
def propOut : Properties := requestProperties (site.rand k) (site.queue k)

/-- What a client publishes. -/
def request : Message := ⟨site.routingKey k, site.propOut k, site.body k⟩

end Site

/-- What the log records of the server. -/
inductive Event
  | consume (m : Message) (delivery : ℕ)
  | call (effect : Effect)
  deriving DecidableEq, Repr

/-- The server and the clients, with their queues. -/
structure Network (κ : Type) where
  server : Server
  queue : Queue Message
  client : κ → Client
  replies : κ → List Message
  log : List Event

/-- Who moves: a client that publishes, one whose `consume_message`
returns, the broker, which delivers to the server, or the server. -/
inductive NetworkAct (κ : Type)
  | publish (k : κ)
  | consume (k : κ)
  | deliver (now : ℕ → ℤ)
  | go

namespace Network

variable {κ : Type} {M : Type} (vire : Driver M) (site : Site κ) (c : Network κ)

/-- The processes as they enter their loops. -/
def initial : Network κ := ⟨.initial, .empty, fun _ => .initial, fun _ => [], []⟩

/-- The broker routes a message, or drops it. -/
def route (exchange : String) (m : Message) : Network κ :=
  if exchange = "" then
    { c with
      queue := if m.routingKey = site.serverQueue then c.queue.publish m else c.queue
      replies := fun k =>
        if m.routingKey = site.queue k then c.replies k ++ [m] else c.replies k }
  else if site.bound exchange m.routingKey then { c with queue := c.queue.publish m }
  else c

/-- What the broker does with a call of the server. -/
def apply : Option Effect → Network κ
  | none => c
  | some (.publish exchange m) =>
    { c with log := c.log ++ [Event.call (.publish exchange m)] }.route site exchange m
  | some (.ack delivery) =>
    { c with
      queue := c.queue.ack delivery
      log := c.log ++ [.call (.ack delivery)] }

/-- A delivery to a server in `consume_message`. -/
def stepDeliver (now : ℕ → ℤ) : Option (Network κ) :=
  if c.server.pc = .consume then
    (c.queue.deliver 1).map fun (m, queue) =>
      { c with
        server := c.server.consumeMessage (echoExchangeServer vire) now m c.queue.delivered
        queue := queue
        log := c.log ++ [.consume m c.queue.delivered] }
  else none

variable [DecidableEq κ]

/-- A client publishes its request. -/
def stepPublish (k : κ) : Option (Network κ) :=
  if (c.client k).pc = .publish then
    some ({ c with client := Function.update c.client k { c.client k with pc := .consume } }.route
      site (site.exchange k) (site.request k))
  else none

/-- `consume_message` of a client returns. -/
def stepConsume (k : κ) : Option (Network κ) :=
  if (c.client k).pc = .consume then
    match c.replies k with
    | [] => none
    | m :: ms => some { c with
        client := Function.update c.client k
          (Client.consumeMessage (site.program k).receiveLoop (site.propOut k) m)
        replies := Function.update c.replies k ms }
  else none

/-- One step of the system. -/
def step : NetworkAct κ → Option (Network κ)
  | .publish k => c.stepPublish site k
  | .consume k => c.stepConsume site k
  | .deliver now => c.stepDeliver vire now
  | .go => c.server.step.map fun (server, effect) => { c with server := server }.apply site effect

end Network

/-- **The machine of an echo server and its clients.** -/
def networkMachine {κ M : Type} [DecidableEq κ] (vire : Driver M) (site : Site κ) :
    Machine (Network κ) (NetworkAct κ) :=
  ⟨fun c => c.step vire site⟩

namespace Network

variable {κ : Type} [DecidableEq κ] {M : Type} {vire : Driver M} {site : Site κ}
variable {c c' : Network κ} {a : NetworkAct κ}

/-- **The moves of the network.** -/
inductive Step (vire : Driver M) (site : Site κ) (c : Network κ) :
    NetworkAct κ → Network κ → Prop
  | publish {k : κ} (hpc : (c.client k).pc = .publish) :
      Step vire site c (.publish k)
        ({ c with client := Function.update c.client k { c.client k with pc := .consume } }.route
          site (site.exchange k) (site.request k))
  | consume {k : κ} {m : Message} {ms : List Message} (hpc : (c.client k).pc = .consume)
      (hreplies : c.replies k = m :: ms) :
      Step vire site c (.consume k) { c with
        client := Function.update c.client k
          (Client.consumeMessage (site.program k).receiveLoop (site.propOut k) m)
        replies := Function.update c.replies k ms }
  | deliver {now : ℕ → ℤ} {m : Message} {queue : Queue Message} (hpc : c.server.pc = .consume)
      (hd : c.queue.deliver 1 = some (m, queue)) :
      Step vire site c (.deliver now) { c with
        server := c.server.consumeMessage (echoExchangeServer vire) now m c.queue.delivered
        queue := queue
        log := c.log ++ [.consume m c.queue.delivered] }
  | go {server : Server} {effect : Option Effect} (hs : c.server.step = some (server, effect)) :
      Step vire site c .go ({ c with server := server }.apply site effect)

/-- **Every step is a move of the list.** -/
theorem Step.of_step (h : (networkMachine vire site).step c a = some c') :
    Step vire site c a c' := by
  change c.step vire site a = some c' at h
  cases a with
  | publish k =>
    change c.stepPublish site k = some c' at h
    unfold stepPublish at h
    split at h <;> cases h
    next hpc => exact .publish hpc
  | consume k =>
    change c.stepConsume site k = some c' at h
    unfold stepConsume at h
    split at h
    · next hpc =>
      split at h <;> cases h
      next hreplies => exact .consume hpc hreplies
    · cases h
  | deliver now =>
    change c.stepDeliver vire now = some c' at h
    unfold stepDeliver at h
    split at h
    · next hpc =>
      obtain ⟨⟨m, queue⟩, hd, rfl⟩ := Option.map_eq_some_iff.1 h
      exact .deliver hpc hd
    · cases h
  | go =>
    obtain ⟨⟨server, effect⟩, hs, rfl⟩ := Option.map_eq_some_iff.1 h
    exact .go hs

end Network

end Rpc

end VireSandbox
