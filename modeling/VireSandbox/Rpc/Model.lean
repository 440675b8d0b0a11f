import Mathlib.Data.Int.Order.Basic
import VireSandbox.Common.Machine
import VireSandbox.Common.Queue
/-!
# The RPC servers — their model

The service loops of `cms_tests/connection_server.cxx` and
`cms_tests/echo_exchange_server.cxx`, one consumer each on a queue of the
broker, with `basic_qos (1)`.

An iteration takes a message and runs the calls its properties and its
bytes lead to: these are the `Op`s of the iteration, and each is a step of
its own. What the vire library makes of bytes and messages is a `Driver`,
whose `decode` and `encode` throw where they give `none`. The console
output is left out.
-/

namespace VireSandbox

namespace Rpc

/-! ## Messages -/

/-- The body of a message. -/
abbrev Bytes := List UInt8

/-- `rabbitmq::basic_properties`, as far as it is set or read. -/
structure Properties where
  correlationId : Option String
  replyTo : Option String
  deriving DecidableEq, Repr

/-- What is published and delivered. -/
structure Message where
  routingKey : String
  properties : Properties
  body : Bytes
  deriving DecidableEq, Repr

/-- What a request client publishes with: `prop_out` with the correlation
id made of what `rand` returns, and its reply queue. -/
def requestProperties (rand : ℕ) (queue : String) : Properties where
  correlationId := some ("corid_" ++ toString rand)
  replyTo := some queue

/-! ## What the vire library does -/

/-- `vire::cms::resource_status_record`. -/
structure ResourceStatusRecord where
  path : String
  timestamp : ℤ
  missing : Bool
  deriving DecidableEq, Repr

/-- `vire::message::MESSAGE_REQUEST` and `MESSAGE_RESPONSE`. -/
inductive MessageCategory
  | request
  | response
  deriving DecidableEq, Repr

/-- A `vire::message::message` whose payload is a
`vire::cms::connection_success`. -/
structure ConnectionSuccess where
  bodyLayoutId : String × ℕ
  messageId : String × ℕ
  timestamp : ℤ
  category : MessageCategory
  resourceStatusRecords : List ResourceStatusRecord
  deriving DecidableEq, Repr

/-- **The vire library**, its messages being `M`. -/
structure Driver (M : Type) where
  /-- `protobuf_encoding_driver::decode`. -/
  decode : Bytes → Option M
  /-- `protobuf_encoding_driver::encode`. -/
  encode : ConnectionSuccess → Option Bytes
  /-- The requested resources of a message whose payload is a
  `connection_request`, as `dynamic_pointer_cast` tells. -/
  connectionRequest : M → Option (List String)
  /-- `vire::message::body_layout::name`. -/
  bodyLayoutName : String

/-! ## The service loops -/

/-- A call an iteration makes. -/
inductive Op
  /-- `prop_out.set_correlation_id`. -/
  | setCorrelationId (id : String)
  /-- `chan.basic_publish` with `prop_out`. -/
  | publish (exchange routingKey : String) (body : Bytes)
  /-- `chan.basic_ack` of the delivery in hand. -/
  | ack
  /-- An exception, which leaves the loop. -/
  | throw
  deriving DecidableEq, Repr

/-- What an iteration calls, by the readings of the clock it makes, the
bytes and the properties of its message. -/
abbrev Service := (ℕ → ℤ) → Bytes → Properties → List Op

variable {M : Type}

/-- The head of both iterations: a message without a correlation id or a
reply-to is acknowledged and dropped, any other is decoded. -/
def service (vire : Driver M) (handle : M → String → String → List Op) (request : Bytes)
    (propIn : Properties) : List Op :=
  match propIn.correlationId, propIn.replyTo with
  | some id, some queue =>
    match vire.decode request with
    | some requestMsg => handle requestMsg id queue
    | none => [.throw]
  | _, _ => [.ack]

/-- The end of both iterations. -/
def reply (id queue : String) (response : Bytes) : List Op :=
  [.setCorrelationId id, .publish "" queue response, .ack]

/-- The loop of `echo_exchange_server`. -/
def echoExchangeServer (vire : Driver M) : Service := fun _ request =>
  service vire (fun _ id queue => reply id queue request) request

/-- The response `connection_server` builds: each resource is missing. -/
def connectionSuccess (vire : Driver M) (now : ℕ → ℤ) (resources : List String) :
    ConnectionSuccess where
  bodyLayoutId := (vire.bodyLayoutName, 1)
  messageId := ("cmslapp", 42)
  timestamp := now resources.length
  category := .response
  resourceStatusRecords := resources.zipIdx.map fun r => ⟨r.1, now r.2, true⟩

/-- The loop of `connection_server`. -/
def connectionServer (vire : Driver M) : Service := fun now request =>
  service vire
    (fun requestMsg id queue =>
      match vire.connectionRequest requestMsg with
      | some resources =>
        match vire.encode (connectionSuccess vire now resources) with
        | some response => reply id queue response
        | none => [.throw]
      -- another payload: neither a reply nor an acknowledgement
      | none => [])
    request

/-! ## A server and its queue -/

/-- Where a server is in its loop. -/
inductive ServerPc
  /-- In `consume_message`. -/
  | consume
  /-- About to make the first of these calls. -/
  | run (ops : List Op)
  /-- Out of the loop, by an exception. -/
  | left
  deriving DecidableEq, Repr

/-- A server, with the variables of its loop. -/
structure Server where
  pc : ServerPc
  request : Bytes
  routingKey : String
  propIn : Properties
  delivery : ℕ
  propOut : Properties
  deriving DecidableEq, Repr

/-- What a call asks of the broker. -/
inductive Effect
  | publish (exchange : String) (m : Message)
  | ack (delivery : ℕ)
  deriving DecidableEq, Repr

namespace Server

/-- A server that enters its loop. -/
def initial : Server := ⟨.consume, [], "", ⟨none, none⟩, 0, ⟨none, none⟩⟩

variable (s : Server)

/-- `consume_message` returns. -/
def consumeMessage (service : Service) (now : ℕ → ℤ) (m : Message) (delivery : ℕ) : Server where
  pc := .run (service now m.body m.properties)
  request := m.body
  routingKey := m.routingKey
  propIn := m.properties
  delivery := delivery
  propOut := s.propOut

/-- The next call of the iteration, or its end. -/
def step : Option (Server × Option Effect) :=
  match s.pc with
  | .run [] => some ({ s with pc := .consume }, none)
  | .run (.setCorrelationId id :: ops) =>
    some ({ s with pc := .run ops, propOut := { s.propOut with correlationId := some id } }, none)
  | .run (.publish exchange routingKey body :: ops) =>
    some ({ s with pc := .run ops }, some (.publish exchange ⟨routingKey, s.propOut, body⟩))
  | .run (.ack :: ops) => some ({ s with pc := .run ops }, some (.ack s.delivery))
  | .run (.throw :: _) => some ({ s with pc := .left }, none)
  | .consume | .left => none

end Server

/-- A server, its queue, and what it has sent. -/
structure Config where
  server : Server
  queue : Queue Message
  sent : List (String × Message)
  deriving DecidableEq, Repr

/-- Who moves: a publisher, the broker, which delivers, or the server. -/
inductive Act
  | publish (m : Message)
  | deliver (now : ℕ → ℤ)
  | go

namespace Config

def initial : Config := ⟨.initial, .empty, []⟩

variable (c : Config)

/-- What the broker does with a call. -/
def apply : Option Effect → Config
  | none => c
  | some (.publish exchange m) => { c with sent := c.sent ++ [(exchange, m)] }
  | some (.ack delivery) => { c with queue := c.queue.ack delivery }

/-- A delivery to a server in `consume_message`, under a prefetch of one. -/
def stepDeliver (service : Service) (now : ℕ → ℤ) : Option Config :=
  if c.server.pc = .consume then
    (c.queue.deliver 1).map fun (m, queue) =>
      { c with
        server := c.server.consumeMessage service now m c.queue.delivered
        queue := queue }
  else none

/-- One step of the system. -/
def step (service : Service) : Act → Option Config
  | .publish m => some { c with queue := c.queue.publish m }
  | .deliver now => c.stepDeliver service now
  | .go => c.server.step.map fun (server, effect) => { c with server := server }.apply effect

end Config

/-- **The machine of a server and its queue.** -/
def serverMachine (service : Service) : Machine Config Act := ⟨fun c => c.step service⟩

end Rpc

end VireSandbox
