import VireSandbox.Common.Chain
import VireSandbox.Common.Store
/-!
# The broker — its model

The management side of the `cms_tests`: what a RabbitMQ broker holds, the
calls of `rabbit_mgr` that change it, and the programs made of them,
`vire_domains.cxx`, `add_tmpuser_wxCVbn.cxx` and `del_tmpuser_wxCVbn.cxx`,
each past the reading of its options.

A call takes full effect or fails with none. What `perms.vire_add_…` make
of the rights they are given is the library's, `Rights`; a program ends
with `EXIT_SUCCESS` where its flag is up. `list_users`, whose answer only
commented lines read, is left out with the logging.
-/

namespace VireSandbox

namespace Broker

/-- What a broker may hold something in. -/
inductive Cell
  | user (name : String)
  | vhost (name : String)
  | exchange (vhost name : String)
  | permission (user vhost : String)
  deriving DecidableEq, Repr

/-- The type of an exchange, and the three flags it is declared with. -/
structure Exchange where
  typ : String
  durable : Bool
  autoDelete : Bool
  internal : Bool
  deriving DecidableEq, Repr

/-- The rights of a user on a vhost, as the library's `permissions` builds
them. -/
structure Rights (R : Type) where
  /-- `clear`. -/
  clear : R
  /-- The patterns for configure, write and read. -/
  patterns (configure write read : String) : R
  /-- `vire_add_exchange_service_perms`. -/
  addExchangeService (exchange : String) (perms : R) : R
  /-- `vire_add_exchange_request_perms`. -/
  addExchangeRequest (exchange : String) (perms : R) : R
  /-- `vire_add_exchange_event_producer_perms`. -/
  addExchangeEventProducer (exchange : String) (perms : R) : R
  /-- `vire_add_exchange_event_listener_perms`. -/
  addExchangeEventListener (exchange : String) (perms : R) : R

/-- What is held in a cell: a user's password, a vhost's being there, an
exchange's parameters, a user's rights on a vhost. -/
def Cell.Datum (R : Type) : Cell → Type
  | user _ => String
  | vhost _ => Unit
  | exchange _ _ => Exchange
  | permission _ _ => R

/-- The calls of `rabbit_mgr` that change the broker. -/
inductive Call (R : Type)
  | addUser (user password : String)
  | addVhost (vhost : String)
  | exchangeDeclare (name vhost : String) (params : Exchange)
  | setPermissions (user vhost : String) (perms : R)
  | deleteUser (user : String)
  | deleteVhost (vhost : String)
  deriving DecidableEq, Repr

end Broker

/-- **What a broker holds.** -/
abbrev Broker (R : Type) := Store Broker.Cell (Broker.Cell.Datum R)

namespace Broker

variable {R : Type}

/-- The cells a user takes along: its own, and its permissions. -/
def Cell.OfUser (u : String) : Cell → Prop
  | .user name => name = u
  | .permission name _ => name = u
  | .vhost _ | .exchange _ _ => False

/-- The cells a vhost takes along: its own, its exchanges, and the
permissions on it. -/
def Cell.OfVhost (v : String) : Cell → Prop
  | .vhost name => name = v
  | .exchange vh _ => vh = v
  | .permission _ vh => vh = v
  | .user _ => False

instance (u : String) : DecidablePred (Cell.OfUser u)
  | .user name => inferInstanceAs (Decidable (name = u))
  | .permission name _ => inferInstanceAs (Decidable (name = u))
  | .vhost _ | .exchange _ _ => inferInstanceAs (Decidable False)

instance (v : String) : DecidablePred (Cell.OfVhost v)
  | .vhost name => inferInstanceAs (Decidable (name = v))
  | .exchange vh _ => inferInstanceAs (Decidable (vh = v))
  | .permission _ vh => inferInstanceAs (Decidable (vh = v))
  | .user _ => inferInstanceAs (Decidable False)

namespace Call

/-- The cell a call is about. -/
def cell : Call R → Cell
  | addUser user _ => .user user
  | addVhost vhost => .vhost vhost
  | exchangeDeclare name vhost _ => .exchange vhost name
  | setPermissions user vhost _ => .permission user vhost
  | deleteUser user => .user user
  | deleteVhost vhost => .vhost vhost

/-- The cells a call needs something in. `absentOk` is whether the deletion
of what is not there is reported as done. -/
def needs (absentOk : Bool) : Call R → List Cell
  | addUser _ _ | addVhost _ => []
  | exchangeDeclare _ vhost _ => [.vhost vhost]
  | setPermissions user vhost _ => [.user user, .vhost vhost]
  | deleteUser user => if absentOk then [] else [.user user]
  | deleteVhost vhost => if absentOk then [] else [.vhost vhost]

/-- The broker after a call that took effect. -/
def effect (b : Broker R) : Call R → Broker R
  | addUser user password => Store.put b (.user user) password
  | addVhost vhost => Store.put b (.vhost vhost) ()
  | exchangeDeclare name vhost params => Store.put b (.exchange vhost name) params
  | setPermissions user vhost perms => Store.put b (.permission user vhost) perms
  | deleteUser user => Store.clear b (Cell.OfUser user)
  | deleteVhost vhost => Store.clear b (Cell.OfVhost vhost)

end Call

/-- The broker holds something in a cell. -/
def Has (b : Broker R) (k : Cell) : Prop := (b k).isSome = true

instance (b : Broker R) (k : Cell) : Decidable (b.Has k) := inferInstanceAs (Decidable (_ = _))

/-- **The broker behind `rabbit_mgr`**: it accepts a call where it has what
the call needs. -/
def service (R : Type) (absentOk : Bool) : Service (Broker R) (Call R) where
  accepts b c := (c.needs absentOk).all fun k => decide (b.Has k)
  effect b c := c.effect b

/-- **Exchanges and permissions only for what there is.** -/
structure WellFormed (b : Broker R) : Prop where
  exchange : ∀ vhost name, b.Has (.exchange vhost name) → b.Has (.vhost vhost)
  permission : ∀ user vhost, b.Has (.permission user vhost) →
    b.Has (.user user) ∧ b.Has (.vhost vhost)

/-! ## The programs -/

section Programs

variable (L : Rights R)

/-- `"topic", true, false, false`. -/
def topic : Exchange := ⟨"topic", true, false, false⟩

/-- The vhost of the temporary user's client system. -/
def tmpVhost : String := "/supernemo/demonstrator/cms/vire/clients/system/" ++ "wxCVbn"

/-- The calls of `add_tmpuser_wxCVbn`. -/
def addTmpuserCalls : List (Call R) :=
  let user := "wxCVbn"
  let vhost := tmpVhost
  let serverService := "vireserver.service"
  let serverEvent := "vireserver.event"
  [ .addUser user user,
    .setPermissions user "/supernemo/demonstrator/cms/vire/control"
      (L.clear |> L.addExchangeRequest "resource_request.service"),
    .setPermissions user "/supernemo/demonstrator/cms/vire/monitoring"
      (L.clear |> L.addExchangeRequest "resource_request.service"
        |> L.addExchangeEventListener "alarm.event"
        |> L.addExchangeEventListener "log.event"
        |> L.addExchangeEventListener "pubsub.event"),
    .addVhost vhost,
    .exchangeDeclare serverService vhost topic,
    .exchangeDeclare serverEvent vhost topic,
    .setPermissions user vhost
      (L.clear |> L.addExchangeRequest serverService |> L.addExchangeEventListener serverEvent),
    .setPermissions "vireserver" vhost
      (L.clear |> L.addExchangeService serverService |> L.addExchangeEventProducer serverEvent),
    .setPermissions "supernemo_adm" vhost (L.patterns ".*" ".*" ".*") ]

/-- `add_tmpuser_wxCVbn`, each of whose calls is guarded. -/
def addTmpuser : List (Stmt (Call R)) := (addTmpuserCalls L).map .ifOk

/-- `del_tmpuser_wxCVbn`. -/
def delTmpuser : List (Stmt (Call R)) :=
  [.deleteUser "wxCVbn", .deleteVhost tmpVhost].map .ifOk

/-- The calls of `vire_domains` past its users, each of them guarded. -/
def domainCalls : List (Call R) :=
  let gate := "/supernemo/demonstrator/cms/vire/clients/gate"
  let control := "/supernemo/demonstrator/cms/vire/control"
  let monitoring := "/supernemo/demonstrator/cms/vire/monitoring"
  let system := "/supernemo/demonstrator/cms/vire/subcontractors/system/cmslapp"
  let requestEx := "resource_request.service"
  let logEx := "log.event"
  let alarmEx := "alarm.event"
  let pubsubEx := "pubsub.event"
  let vireService := "vireserver.service"
  let vireEvent := "vireserver.event"
  let subconService := "subcontractor.service"
  let subconEvent := "subcontractor.event"
  [ -- gate
    .addVhost gate,
    .exchangeDeclare "gate.service" gate topic,
    .setPermissions "supernemo_adm" gate (L.patterns ".*" ".*" ".*"),
    .setPermissions "vireserver" gate (L.clear |> L.addExchangeService "gate.service"),
    -- control
    .addVhost control,
    .exchangeDeclare "resource_request.service" control topic,
    .setPermissions "supernemo_adm" control (L.patterns ".*" ".*" ".*"),
    .setPermissions "vireserver" control
      (L.clear |> L.addExchangeService "resource_request.service"),
    -- monitoring
    .addVhost monitoring,
    .exchangeDeclare requestEx monitoring topic,
    .exchangeDeclare logEx monitoring topic,
    .exchangeDeclare alarmEx monitoring topic,
    .exchangeDeclare pubsubEx monitoring topic,
    .exchangeDeclare pubsubEx monitoring topic,
    .setPermissions "supernemo_adm" monitoring (L.patterns ".*" ".*" ".*"),
    .setPermissions "vireserver" monitoring
      (L.clear |> L.addExchangeService requestEx |> L.addExchangeRequest requestEx
        |> L.addExchangeEventProducer logEx |> L.addExchangeEventListener logEx
        |> L.addExchangeEventProducer alarmEx |> L.addExchangeEventListener alarmEx
        |> L.addExchangeEventProducer pubsubEx |> L.addExchangeEventListener pubsubEx),
    .setPermissions "cmslapp" monitoring
      (L.clear |> L.addExchangeService requestEx |> L.addExchangeEventProducer logEx
        |> L.addExchangeEventProducer alarmEx |> L.addExchangeEventProducer pubsubEx),
    -- cmslapp system
    .addVhost system,
    .exchangeDeclare vireService system topic,
    .exchangeDeclare vireEvent system topic,
    .exchangeDeclare subconService system topic,
    .exchangeDeclare subconEvent system topic,
    .setPermissions "supernemo_adm" system (L.patterns ".*" ".*" ".*"),
    .setPermissions "vireserver" system
      (L.clear |> L.addExchangeService vireService |> L.addExchangeRequest subconService
        |> L.addExchangeEventProducer vireEvent |> L.addExchangeEventListener subconEvent),
    .setPermissions "cmslapp" system
      (L.clear |> L.addExchangeService subconService |> L.addExchangeRequest vireService
        |> L.addExchangeEventProducer subconEvent |> L.addExchangeEventListener vireEvent) ]

/-- `vire_domains`: the outcomes of the two `add_user` calls are written
over, and then forgotten. -/
def vireDomains : List (Stmt (Call R)) :=
  [.assign (.addUser "vireserver" "vireserver"), .assign (.addUser "cmslapp" "cmslapp"), .reset] ++
    (domainCalls L).map .ifOk

end Programs

/-- A program exits with `EXIT_SUCCESS`. -/
def exitsSuccess (r : Progress (Broker R)) : Bool := r.ok

end Broker

end VireSandbox
