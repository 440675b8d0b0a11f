import VireSandbox.Rpc.Model
/-!
# The RPC servers — what they acknowledge

With `basic_qos (1)` a server is sent nothing while it holds a delivery,
so that it serves its queue as long as every iteration ends with its
message acknowledged. A loop whose iterations make at most one
acknowledgement is back in `consume_message` with its queue settled
exactly when each of them has made it (`settled_iff_answers`).
`echo_exchange_server` always has. `connection_server` makes none for a
request whose payload it does not expect.
-/

namespace VireSandbox

namespace Rpc

namespace Config

variable {service : Service} {c c' : Config} {a : Act} {as : List Act}

/-- **The moves of a server and its queue.** -/
inductive Step (service : Service) (c : Config) : Act → Config → Prop
  | publish (m : Message) : Step service c (.publish m) { c with queue := c.queue.publish m }
  | deliver {now : ℕ → ℤ} {m : Message} {queue : Queue Message} (hpc : c.server.pc = .consume)
      (hd : c.queue.deliver 1 = some (m, queue)) :
      Step service c (.deliver now) { c with
        server := c.server.consumeMessage service now m c.queue.delivered
        queue := queue }
  /-- The end of an iteration. -/
  | next (hpc : c.server.pc = .run []) :
      Step service c .go { c with server := { c.server with pc := .consume } }
  | setCorrelationId {id : String} {ops : List Op}
      (hpc : c.server.pc = .run (.setCorrelationId id :: ops)) :
      Step service c .go { c with
        server := { c.server with
          pc := .run ops
          propOut := { c.server.propOut with correlationId := some id } } }
  | send {exchange routingKey : String} {body : Bytes} {ops : List Op}
      (hpc : c.server.pc = .run (.publish exchange routingKey body :: ops)) :
      Step service c .go { c with
        server := { c.server with pc := .run ops }
        sent := c.sent ++ [(exchange, ⟨routingKey, c.server.propOut, body⟩)] }
  | ack {ops : List Op} (hpc : c.server.pc = .run (.ack :: ops)) :
      Step service c .go { c with
        server := { c.server with pc := .run ops }
        queue := c.queue.ack c.server.delivery }
  | throw {ops : List Op} (hpc : c.server.pc = .run (.throw :: ops)) :
      Step service c .go { c with server := { c.server with pc := .left } }

theorem Step.of_deliver {now : ℕ → ℤ} (h : c.stepDeliver service now = some c') :
    Step service c (.deliver now) c' := by
  unfold stepDeliver at h
  split at h
  · next hpc =>
    obtain ⟨⟨m, queue⟩, hd, rfl⟩ := Option.map_eq_some_iff.1 h
    exact .deliver hpc hd
  · cases h

theorem Step.of_go (h : c.step service .go = some c') : Step service c .go c' := by
  obtain ⟨⟨server, effect⟩, hserver, rfl⟩ := Option.map_eq_some_iff.1 h
  unfold Server.step at hserver
  split at hserver
  · next hpc =>
    cases hserver
    exact .next hpc
  · next hpc =>
    cases hserver
    exact .setCorrelationId hpc
  · next hpc =>
    cases hserver
    exact .send hpc
  · next hpc =>
    cases hserver
    exact .ack hpc
  · next hpc =>
    cases hserver
    exact .throw hpc
  · cases hserver
  · cases hserver

/-- **Every step is a move of the list.** -/
theorem Step.of_step (h : (serverMachine service).step c a = some c') : Step service c a c' := by
  change c.step service a = some c' at h
  cases a with
  | publish m =>
    cases h
    exact .publish m
  | deliver now => exact .of_deliver h
  | go => exact .of_go h

/-! ## Iterations that answer -/

/-- The message delivered is acknowledged by its iteration, if that does
not leave the loop. -/
def Answers (service : Service) (c : Config) : Act → Prop
  | .deliver now => ∀ m ∈ c.queue.ready.head?,
      .throw ∈ service now m.body m.properties ∨ .ack ∈ service now m.body m.properties
  | _ => True

/-- A server that has acknowledged what it was sent, or will before it is
back in `consume_message`. -/
def Settling (c : Config) : Prop :=
  match c.server.pc with
  | .consume => c.queue.Settled
  | .run ops =>
    .throw ∈ ops ∨ (c.queue.Holds c.server.delivery ∧ ops.count .ack = 1) ∨
      (c.queue.Settled ∧ ops.count .ack = 0)
  | .left => True

/-- A server that will not acknowledge what it was sent. -/
def Missed (c : Config) : Prop :=
  c.queue.Holds c.server.delivery ∧
    (c.server.pc = .consume ∨ ∃ ops, c.server.pc = .run ops ∧ .throw ∉ ops ∧ .ack ∉ ops)

theorem Settling.not_missed (h : c.Settling) : ¬ c.Missed := by
  rintro ⟨hholds, hpc | ⟨ops, hpc, hthrow, hack⟩⟩
  · simp only [Settling, hpc] at h
    exact hholds.not_settled h
  · simp only [Settling, hpc] at h
    rcases h with h | ⟨-, hcount⟩ | ⟨hsettled, -⟩
    · exact hthrow h
    · rw [List.count_eq_zero_of_not_mem hack] at hcount
      cases hcount
    · exact hholds.not_settled hsettled

/-- A server that has missed an acknowledgement misses it for good, and is
sent nothing more. -/
theorem Missed.step (h : c.Missed) (hs : Step service c a c') :
    (c'.Missed ∧ c'.queue.delivered = c.queue.delivered) ∧ Answers service c a := by
  obtain ⟨hholds, hpc⟩ := h
  have hrun : ∀ op ops, c.server.pc = .run (op :: ops) →
      op ≠ .throw ∧ op ≠ .ack ∧ .throw ∉ ops ∧ .ack ∉ ops := by
    intro op ops hop
    rcases hpc with hpc | ⟨ops', hpc, hthrow, hack⟩
    · rw [hop] at hpc
      cases hpc
    · rw [hop] at hpc
      cases hpc
      rw [List.mem_cons, not_or] at hthrow hack
      exact ⟨Ne.symm hthrow.1, Ne.symm hack.1, hthrow.2, hack.2⟩
  cases hs with
  | publish m => exact ⟨⟨⟨hholds.publish m, hpc⟩, rfl⟩, trivial⟩
  | deliver _ hd =>
    -- the prefetch bars the queue
    rw [hholds.deliver] at hd
    cases hd
  | next _ => exact ⟨⟨⟨hholds, .inl rfl⟩, rfl⟩, trivial⟩
  | setCorrelationId hop =>
    exact ⟨⟨⟨hholds, .inr ⟨_, rfl, (hrun _ _ hop).2.2⟩⟩, rfl⟩, trivial⟩
  | send hop => exact ⟨⟨⟨hholds, .inr ⟨_, rfl, (hrun _ _ hop).2.2⟩⟩, rfl⟩, trivial⟩
  | ack hop => exact absurd rfl (hrun _ _ hop).2.1
  | throw hop => exact absurd rfl (hrun _ _ hop).1

/-- **The last delivery**: in no run from there is another made. -/
theorem Missed.run (h : c.Missed) (hrun : (serverMachine service).run c as = some c') :
    c'.Missed ∧ c'.queue.delivered = c.queue.delivered := by
  refine Machine.run_invariant
    (fun c' => c'.Missed ∧ c'.queue.delivered = c.queue.delivered) ?_ ⟨h, rfl⟩ hrun
  rintro s a s' ⟨hmissed, hdelivered⟩ hs
  obtain ⟨⟨hmissed', hdelivered'⟩, -⟩ := hmissed.step (.of_step hs)
  exact ⟨hmissed', hdelivered'.trans hdelivered⟩

/-- A call other than an acknowledgement or an exception leaves the
iteration with what it has to do. -/
theorem Settling.tail {op : Op} {ops : List Op} (h : c.Settling)
    (hpc : c.server.pc = .run (op :: ops)) (hthrow : op ≠ .throw) (hack : op ≠ .ack) :
    .throw ∈ ops ∨ (c.queue.Holds c.server.delivery ∧ ops.count .ack = 1) ∨
      (c.queue.Settled ∧ ops.count .ack = 0) := by
  simp only [Settling, hpc, List.mem_cons, Ne.symm hthrow, false_or,
    List.count_cons_of_ne hack] at h
  exact h

/-- **One move keeps a server settling**, or is the delivery of a message
it does not answer. -/
theorem Settling.step (hone : ∀ now request propIn, (service now request propIn).count .ack ≤ 1)
    (h : c.Settling) (hs : Step service c a c') :
    (c'.Settling ∧ Answers service c a) ∨ (c'.Missed ∧ ¬ Answers service c a) := by
  cases hs with
  | publish m =>
    refine .inl ⟨?_, trivial⟩
    simp only [Settling] at h ⊢
    split at h
    · exact h.publish m
    · exact h.imp_right (Or.imp (And.imp_left (·.publish m)) (And.imp_left (·.publish m)))
    · trivial
  | @deliver now m queue hpc hd =>
    simp only [Settling, hpc] at h
    have hholds : queue.Holds c.queue.delivered := h.deliver hd
    have hready := (Queue.deliver_eq_some_iff.1 hd).2.1
    have hanswers : Answers service c (.deliver now) ↔
        .throw ∈ service now m.body m.properties ∨ .ack ∈ service now m.body m.properties := by
      simp [Answers, hready]
    rw [hanswers]
    -- an iteration that leaves the loop does not come back to wait
    by_cases hthrow : .throw ∈ service now m.body m.properties
    · exact .inl ⟨.inl hthrow, .inl hthrow⟩
    · by_cases hack : .ack ∈ service now m.body m.properties
      · have hcount : (service now m.body m.properties).count .ack = 1 := by
          have hle := hone now m.body m.properties
          have hpos := List.count_pos_iff.2 hack
          omega
        exact .inl ⟨.inr (.inl ⟨hholds, hcount⟩), .inr hack⟩
      · exact .inr ⟨⟨hholds, .inr ⟨_, rfl, hthrow, hack⟩⟩, not_or.2 ⟨hthrow, hack⟩⟩
  | next hpc =>
    refine .inl ⟨?_, trivial⟩
    simp only [Settling, hpc] at h
    rcases h with h | ⟨-, hcount⟩ | ⟨hsettled, -⟩
    · cases h
    · cases hcount
    · exact hsettled
  | setCorrelationId hpc => exact .inl ⟨h.tail hpc nofun nofun, trivial⟩
  | send hpc => exact .inl ⟨h.tail hpc nofun nofun, trivial⟩
  | @ack ops hpc =>
    refine .inl ⟨?_, trivial⟩
    simp only [Settling, hpc] at h
    change .throw ∈ ops ∨ _ ∨ _
    rcases h with h | ⟨hholds, hcount⟩ | ⟨-, hcount⟩
    · exact .inl (by simpa using h)
    · rw [List.count_cons_self] at hcount
      exact .inr (.inr ⟨hholds.ack, by omega⟩)
    · rw [List.count_cons_self] at hcount
      omega
  | throw hpc => exact .inl ⟨trivial, trivial⟩

/-- **Back in `consume_message`, the queue is settled exactly when every
message was answered.** -/
theorem settled_iff_answers
    (hone : ∀ now request propIn, (service now request propIn).count .ack ≤ 1)
    (hrun : (serverMachine service).run initial as = some c) (hwait : c.server.pc = .consume) :
    c.queue.Settled ↔ (serverMachine service).Within (Answers service) initial as := by
  have hinitial : initial.Settling := Queue.settled_empty
  have hstep : ∀ c a c', c.Settling ∨ c.Missed → (serverMachine service).step c a = some c' →
      (c'.Settling ∧ (c.Settling ∧ Answers service c a)) ∨
        (c'.Missed ∧ (c.Missed ∨ ¬ Answers service c a)) := by
    intro c a c' h hs
    rcases h with h | h
    · rcases h.step hone (.of_step hs) with ⟨h', hanswers⟩ | ⟨h', hanswers⟩
      · exact .inl ⟨h', h, hanswers⟩
      · exact .inr ⟨h', .inr hanswers⟩
    · exact .inr ⟨(h.step (.of_step hs)).1.1, .inl h⟩
  have hinv : c.Settling ∨ c.Missed :=
    Machine.run_invariant (fun c => c.Settling ∨ c.Missed)
      (fun c a c' h hs => (hstep c a c' h hs).imp And.left And.left) (.inl hinitial) hrun
  rw [Machine.within_iff_not_flag (fun c => c.Settling ∨ c.Missed) Missed
    (fun c a c' h hs => (hstep c a c' h hs).imp And.left And.left) ?_ (.inl hinitial)
    hinitial.not_missed hrun]
  · rcases hinv with h | h
    · have hsettled := h
      simp only [Settling, hwait] at hsettled
      exact iff_of_true hsettled h.not_missed
    · exact iff_of_false h.1.not_settled (not_not_intro h)
  · intro c a c' h hs
    rcases hstep c a c' h hs with ⟨h', hc, hanswers⟩ | ⟨h', hc⟩
    · exact iff_of_false h'.not_missed (not_or.2 ⟨hc.not_missed, not_not_intro hanswers⟩)
    · exact iff_of_true h' hc

/-- **What a server owes its queue** where it is in `consume_message`:
every delivery acknowledged exactly once, so that what waits can be
delivered. -/
def Serving (service : Service) (c : Config) : Prop :=
  c.queue.Settled ∧
    (c.queue.ready ≠ [] → ∀ now, ((serverMachine service).step c (.deliver now)).isSome)

theorem serving_iff_settled (hwait : c.server.pc = .consume) :
    c.Serving service ↔ c.queue.Settled := by
  refine ⟨And.left, fun h => ⟨h, fun hne now => ?_⟩⟩
  have hsome := h.exists_deliver Nat.one_pos hne
  change (c.stepDeliver service now).isSome
  unfold stepDeliver
  rw [if_pos hwait, Option.isSome_map]
  exact hsome

end Config

/-! ## The two servers -/

variable {M : Type} (vire : Driver M) {now : ℕ → ℤ} {m : Message}

theorem service_count_ack_le {handle : M → String → String → List Op} {request : Bytes}
    {propIn : Properties} (h : ∀ msg id queue, (handle msg id queue).count .ack ≤ 1) :
    (service vire handle request propIn).count .ack ≤ 1 := by
  unfold service
  split
  · split
    · exact h _ _ _
    · exact Nat.zero_le 1
  · exact Nat.le_refl 1

theorem reply_count_ack (id queue : String) (response : Bytes) :
    (reply id queue response).count .ack = 1 := by
  simp [reply]

theorem echoExchangeServer_count_ack_le (now : ℕ → ℤ) (request : Bytes) (propIn : Properties) :
    (echoExchangeServer vire now request propIn).count .ack ≤ 1 :=
  service_count_ack_le vire fun _ id queue => Nat.le_of_eq (reply_count_ack id queue request)

theorem connectionServer_count_ack_le (now : ℕ → ℤ) (request : Bytes) (propIn : Properties) :
    (connectionServer vire now request propIn).count .ack ≤ 1 := by
  refine service_count_ack_le vire fun msg id queue => ?_
  split
  · split
    · exact Nat.le_of_eq (reply_count_ack id queue _)
    · exact Nat.zero_le 1
  · exact Nat.zero_le 1

/-- A request, with a correlation id and a reply-to, whose payload is
decoded and is not a `connection_request`. -/
def Driver.unexpected (m : Message) : Bool :=
  m.properties.correlationId.isSome && m.properties.replyTo.isSome &&
    match vire.decode m.body with
    | some requestMsg => (vire.connectionRequest requestMsg).isNone
    | none => false

theorem echoExchangeServer_answers :
    .throw ∈ echoExchangeServer vire now m.body m.properties ∨
      .ack ∈ echoExchangeServer vire now m.body m.properties := by
  unfold echoExchangeServer service
  split
  · split
    · exact .inr (by simp [reply])
    · exact .inl (List.mem_singleton_self _)
  · exact .inr (List.mem_singleton_self _)

theorem connectionServer_answers_iff :
    (.throw ∈ connectionServer vire now m.body m.properties ∨
      .ack ∈ connectionServer vire now m.body m.properties) ↔ vire.unexpected m = false := by
  unfold connectionServer service Driver.unexpected
  cases hid : m.properties.correlationId with
  | none => simp
  | some id =>
    cases hqueue : m.properties.replyTo with
    | none => simp
    | some queue =>
      cases hdecode : vire.decode m.body with
      | none => simp
      | some requestMsg =>
        cases hcast : vire.connectionRequest requestMsg with
        | none => simp [hcast]
        | some resources =>
          cases hencode : vire.encode (connectionSuccess vire now resources) with
          | none => simp [hcast, hencode]
          | some response => simp [hcast, hencode, reply]

namespace Config

variable {c : Config} {a : Act} {as : List Act}

/-- The message delivered is one `connection_server` has a branch for. -/
def Expected (c : Config) : Act → Prop
  | .deliver _ => ∀ m ∈ c.queue.ready.head?, vire.unexpected m = false
  | _ => True

instance decidableExpected (c : Config) : ∀ a, Decidable (c.Expected vire a)
  | .deliver _ => inferInstanceAs (Decidable (∀ m ∈ c.queue.ready.head?, _))
  | .publish _ | .go => isTrue trivial

/-- `echo_exchange_server` serves its queue, whatever it is sent. -/
theorem echoExchangeServer_serving
    (hrun : (serverMachine (echoExchangeServer vire)).run initial as = some c)
    (hwait : c.server.pc = .consume) : c.Serving (echoExchangeServer vire) := by
  have hle := echoExchangeServer_count_ack_le vire
  rw [serving_iff_settled hwait, settled_iff_answers hle hrun hwait]
  refine Machine.within_mono (fun c a _ => ?_) Machine.within_true
  cases a with
  | deliver now => exact fun m _ => echoExchangeServer_answers vire
  | _ => trivial

/-- **`connection_server` serves its queue exactly as long as it is sent
what it expects.** For every library, every sequence of messages published
to its queue and every order of publications, deliveries and calls: where
the server is in `consume_message`, every delivery so far was acknowledged
exactly once and what waits can be delivered, if and only if none of the
deliveries was a request with another payload than a
`connection_request`. -/
theorem serving_iff_expected {M : Type} (vire : Driver M) (as : List Act) (c : Config)
    (hrun : (serverMachine (connectionServer vire)).run initial as = some c)
    (hwait : c.server.pc = .consume) :
    c.Serving (connectionServer vire) ↔
      (serverMachine (connectionServer vire)).Within (Expected vire) initial as := by
  have hle := connectionServer_count_ack_le vire
  rw [serving_iff_settled hwait, settled_iff_answers hle hrun hwait]
  have hiff : ∀ (c : Config) a, Answers (connectionServer vire) c a ↔ c.Expected vire a := by
    intro c a
    cases a with
    | deliver now => exact forall₂_congr fun m _ => connectionServer_answers_iff vire
    | _ => exact Iff.rfl
  exact ⟨Machine.within_mono fun c a => (hiff c a).1, Machine.within_mono fun c a => (hiff c a).2⟩

end Config

/-! ## A request of another kind -/

/-- The payloads the request clients send. -/
inductive Payload
  | connectionRequest (resources : List String)
  | disconnectionRequest
  deriving DecidableEq, Repr

/-- A library with a byte for each kind of message. -/
def sampleDriver : Driver Payload where
  decode
    | [1] => some (.connectionRequest ["/Demonstrator/CMS/DAQ/FSM"])
    | [2] => some .disconnectionRequest
    | _ => none
  encode := fun _ => some [3]
  connectionRequest
    | .connectionRequest resources => some resources
    | .disconnectionRequest => none
  bodyLayoutName := "vire::message::body_layout"

/-- What the two clients publish, with the routing key they share. -/
def connectionRequest : Message := ⟨"connection", requestProperties 1804289383 "amq.gen-1", [1]⟩

def disconnectionRequest : Message := ⟨"connection", requestProperties 1804289383 "amq.gen-2", [2]⟩

namespace Config

/-- The server answers a connection request. -/
def servedRun : List Act :=
  [.publish connectionRequest, .deliver fun _ => 0, .go, .go, .go, .go]

theorem serving_iff_expected_servedRun :
    ∃ c, (serverMachine (connectionServer sampleDriver)).run initial servedRun = some c ∧
      c.Serving (connectionServer sampleDriver) :=
  ⟨_, rfl, (serving_iff_expected sampleDriver servedRun _ rfl rfl).2 (by decide)⟩

/-- The server is sent a disconnection request, with a connection request
behind it. -/
def barredRun : List Act :=
  [.publish disconnectionRequest, .publish connectionRequest, .deliver fun _ => 0, .go]

/-- **A disconnection request is held for ever**, and the connection
request behind it is never delivered. -/
theorem not_serving_barredRun :
    sampleDriver.decode disconnectionRequest.body = some .disconnectionRequest ∧
    ∃ c, (serverMachine (connectionServer sampleDriver)).run initial barredRun = some c ∧
      c.server.pc = .consume ∧ c.queue.unacked = [0] ∧ c.queue.acks = [] ∧
      c.queue.ready = [connectionRequest] ∧ ¬ c.Serving (connectionServer sampleDriver) ∧
      ∀ as c', (serverMachine (connectionServer sampleDriver)).run c as = some c' →
        c'.queue.delivered = 1 := by
  refine ⟨rfl, _, rfl, rfl, rfl, rfl, rfl, ?_⟩
  have key : ∀ c : Config, c.server.pc = .consume → c.server.delivery = 0 →
      c.queue.delivered = 1 → c.queue.unacked = [0] → c.queue.acks = [] →
      ¬ c.Serving (connectionServer sampleDriver) ∧
        ∀ as c', (serverMachine (connectionServer sampleDriver)).run c as = some c' →
          c'.queue.delivered = 1 := by
    intro c hwait hdelivery hdelivered hunacked hacks
    have hholds : c.queue.Holds c.server.delivery := by
      rw [hdelivery]
      exact ⟨hdelivered, hunacked, fun t => by simp [hacks]⟩
    refine ⟨fun h => hholds.not_settled h.1, fun as c' hrun => ?_⟩
    rw [(Missed.run ⟨hholds, .inl hwait⟩ hrun).2, hdelivered]
  exact key _ rfl rfl rfl rfl rfl

end Config

end Rpc

end VireSandbox
