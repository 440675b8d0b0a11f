import VireSandbox.Rpc.Serving
/-!
# The RPC servers — what takes them down

`protobuf_encoding_driver::decode` throws on bytes it cannot read, and the
loops catch nothing: the handlers stand outside them, where all that is
left is to end the process. A server gets past what it is sent exactly as
long as no iteration throws and each acknowledges its message
(`getsPast_iff_handled`). For `echo_exchange_server` that is up to the
first request it cannot decode, and for `connection_server` up to the
first it cannot answer.
-/

namespace VireSandbox

namespace Rpc

namespace Config

variable {service : Service} {c c' : Config} {a : Act} {as : List Act}

/-- **A server gets past what it was sent**: its own next steps lead it
back to `consume_message` with every delivery acknowledged, and with a
`prop_out` that has nothing but a correlation id, which is set anew before
each reply. -/
def GetsPast (service : Service) (c : Config) : Prop :=
  ∃ n c', (serverMachine service).run c (List.replicate n .go) = some c' ∧
    c'.server.pc = .consume ∧ c'.queue.Settled ∧ c'.server.propOut.replyTo = none

/-- The iteration of the message delivered does not throw and acknowledges
it. -/
def Handled (service : Service) (c : Config) : Act → Prop
  | .deliver now => ∀ m ∈ c.queue.ready.head?,
      .throw ∉ service now m.body m.properties ∧ .ack ∈ service now m.body m.properties
  | _ => True

theorem Handled.answers (h : Handled service c a) : Answers service c a := by
  cases a with
  | deliver now => exact fun m hm => .inr (h m hm).2
  | _ => trivial

/-- The server has left its loop, or will in this iteration. -/
def Throws (c : Config) : Prop :=
  c.server.pc = .left ∨ ∃ ops, c.server.pc = .run ops ∧ .throw ∈ ops

/-- An exception is not undone: what throws will throw, or has. -/
theorem Throws.step (h : c.Throws) (hs : Step service c a c') : c'.Throws := by
  have hrun : ∀ op ops, c.server.pc = .run (op :: ops) → op ≠ .throw → .throw ∈ ops := by
    intro op ops hpc hop
    rcases h with h | ⟨ops', h, hthrow⟩
    · rw [hpc] at h
      cases h
    · rw [hpc] at h
      cases h
      exact (List.mem_cons.1 hthrow).resolve_left (Ne.symm hop)
  cases hs with
  | publish m => exact h
  | deliver hpc =>
    rcases h with h | ⟨ops, h, -⟩ <;> rw [hpc] at h <;> cases h
  | next hpc =>
    rcases h with h | ⟨ops, h, hthrow⟩
    · rw [hpc] at h
      cases h
    · rw [hpc] at h
      cases h
      cases hthrow
  | setCorrelationId hpc => exact .inr ⟨_, rfl, hrun _ _ hpc nofun⟩
  | send hpc => exact .inr ⟨_, rfl, hrun _ _ hpc nofun⟩
  | ack hpc => exact .inr ⟨_, rfl, hrun _ _ hpc nofun⟩
  | throw hpc => exact .inl rfl

/-- **Only a delivery leads to an exception.** -/
theorem throws_of_step (h : ¬ c.Throws) (hs : Step service c a c') (hthrows : c'.Throws) :
    ¬ Handled service c a := by
  have hrun : ∀ op ops, c.server.pc = .run (op :: ops) → .throw ∉ ops := by
    intro op ops hpc hthrow
    exact h (.inr ⟨_, hpc, List.mem_cons_of_mem _ hthrow⟩)
  have htail : ∀ ops, .throw ∉ ops → c'.server.pc = .run ops → False := by
    intro ops hops hpc
    rcases hthrows with hleft | ⟨ops', hpc', hthrow⟩
    · rw [hpc] at hleft
      cases hleft
    · rw [hpc] at hpc'
      cases hpc'
      exact hops hthrow
  cases hs with
  | publish m => exact absurd hthrows h
  | @deliver now m queue hpc hd =>
    intro hhandled
    have hready := (Queue.deliver_eq_some_iff.1 hd).2.1
    exact htail _ (hhandled m (by simp [hready])).1 rfl
  | next hpc =>
    rcases hthrows with hleft | ⟨ops, hpc', -⟩
    · cases hleft
    · cases hpc'
  | setCorrelationId hpc => exact (htail _ (hrun _ _ hpc) rfl).elim
  | send hpc => exact (htail _ (hrun _ _ hpc) rfl).elim
  | ack hpc => exact (htail _ (hrun _ _ hpc) rfl).elim
  | throw hpc => exact (h (.inr ⟨_, hpc, List.mem_cons_self⟩)).elim

/-- A server that serves, with an iteration that ends. -/
def Healthy (c : Config) : Prop := c.Settling ∧ ¬ c.Throws

/-- A server that will not serve again. -/
def Down (c : Config) : Prop := c.Missed ∨ c.Throws

theorem Healthy.not_down (h : c.Healthy) : ¬ c.Down := not_or.2 ⟨h.1.not_missed, h.2⟩

theorem Down.step (h : c.Down) (hs : Step service c a c') : c'.Down :=
  h.imp (fun h => (h.step hs).1.1) (·.step hs)

/-- **One move keeps a server healthy**, or takes it down with a message
that is not handled. -/
theorem Healthy.step (hone : ∀ now request propIn, (service now request propIn).count .ack ≤ 1)
    (h : c.Healthy) (hs : Step service c a c') :
    (c'.Healthy ∧ Handled service c a) ∨ (c'.Down ∧ ¬ Handled service c a) := by
  by_cases hthrows : c'.Throws
  · exact .inr ⟨.inr hthrows, throws_of_step h.2 hs hthrows⟩
  · rcases h.1.step hone hs with ⟨hsettling, hanswers⟩ | ⟨hmissed, hanswers⟩
    · refine .inl ⟨⟨hsettling, hthrows⟩, ?_⟩
      cases hs with
      | @deliver now m queue hpc hd =>
        have hready := (Queue.deliver_eq_some_iff.1 hd).2.1
        intro m' hm'
        have hnot : .throw ∉ service now m.body m.properties :=
          fun hthrow => hthrows (.inr ⟨_, rfl, hthrow⟩)
        have hack := (hanswers m (by simp [hready])).resolve_left hnot
        rw [hready, List.head?_cons, Option.mem_some_iff] at hm'
        subst hm'
        exact ⟨hnot, hack⟩
      | _ => trivial
    · exact .inr ⟨.inl hmissed, fun hhandled => hanswers hhandled.answers⟩

/-- The loop sets a correlation id and no reply-to. -/
theorem replyTo_step (h : c.server.propOut.replyTo = none) (hs : Step service c a c') :
    c'.server.propOut.replyTo = none := by
  cases hs <;> exact h

/-- A healthy server ends its iteration. -/
theorem Healthy.getsPast (hone : ∀ now request propIn, (service now request propIn).count .ack ≤ 1)
    (h : c.Healthy) (hreply : c.server.propOut.replyTo = none) : c.GetsPast service := by
  cases hpc : c.server.pc with
  | consume =>
    have hsettled := h.1
    simp only [Settling, hpc] at hsettled
    exact ⟨0, c, rfl, hpc, hsettled, hreply⟩
  | left => exact absurd (.inl hpc) h.2
  | run ops =>
    -- by induction on the calls that are left
    induction ops generalizing c with
    | nil =>
      have hsettled := h.1
      simp only [Settling, hpc] at hsettled
      rcases hsettled with hsettled | ⟨-, hcount⟩ | ⟨hsettled, -⟩
      · cases hsettled
      · cases hcount
      · refine ⟨1, { c with server := { c.server with pc := .consume } }, ?_, rfl, hsettled, hreply⟩
        have hstep : (serverMachine service).step c .go =
            some { c with server := { c.server with pc := .consume } } := by
          simp [serverMachine, Config.step, Server.step, hpc, apply]
        rw [List.replicate_one, Machine.run_cons hstep, Machine.run_nil]
    | cons op ops ih =>
      have hop : op ≠ .throw := by
        rintro rfl
        exact h.2 (.inr ⟨_, hpc, List.mem_cons_self⟩)
      obtain ⟨c', hstep, hpc'⟩ : ∃ c', (serverMachine service).step c .go = some c' ∧
          c'.server.pc = .run ops := by
        cases op with
        | throw => exact absurd rfl hop
        | _ => exact ⟨_, by simp [serverMachine, Config.step, Server.step, hpc]; rfl, rfl⟩
      have hmove : Step service c .go c' := .of_step hstep
      have hhealthy : c'.Healthy :=
        ((h.step hone hmove).resolve_right fun hdown => hdown.2 trivial).1
      obtain ⟨n, c'', hrun, hpast⟩ := ih hhealthy (replyTo_step hreply hmove) hpc'
      exact ⟨n + 1, c'', by rw [List.replicate_succ, Machine.run_cons hstep, hrun], hpast⟩

/-- A server that is down stays down. -/
theorem Down.not_getsPast (h : c.Down) : ¬ c.GetsPast service := by
  rintro ⟨n, c', hrun, hpc, hsettled, -⟩
  have hdown : c'.Down :=
    Machine.run_invariant Down (fun _ _ _ h hs => h.step (.of_step hs)) h hrun
  rcases hdown with ⟨hholds, -⟩ | hleft | ⟨ops, hops, -⟩
  · exact hholds.not_settled hsettled
  · rw [hpc] at hleft
    cases hleft
  · rw [hpc] at hops
    cases hops

/-- **A server gets past what it was sent exactly when each message was
handled.** -/
theorem getsPast_iff_handled
    (hone : ∀ now request propIn, (service now request propIn).count .ack ≤ 1)
    (hrun : (serverMachine service).run initial as = some c) :
    c.GetsPast service ↔ (serverMachine service).Within (Handled service) initial as := by
  have hinitial : initial.Healthy := by
    refine ⟨Queue.settled_empty, ?_⟩
    rintro (hleft | ⟨ops, hops, -⟩)
    · cases hleft
    · cases hops
  have hstep : ∀ c a c', c.Healthy ∨ c.Down → (serverMachine service).step c a = some c' →
      c'.Healthy ∨ c'.Down := by
    intro c a c' h hs
    rcases h with h | h
    · exact (h.step hone (.of_step hs)).imp And.left And.left
    · exact .inr (h.step (.of_step hs))
  have hinv : c.Healthy ∨ c.Down :=
    Machine.run_invariant (fun c => c.Healthy ∨ c.Down) hstep (.inl hinitial) hrun
  have hreply : c.server.propOut.replyTo = none :=
    Machine.run_invariant (fun c => c.server.propOut.replyTo = none)
      (fun _ _ _ h hs => replyTo_step h (.of_step hs)) rfl hrun
  have hflag : (serverMachine service).Within (Handled service) initial as ↔ ¬ c.Down := by
    refine Machine.within_iff_not_flag (fun c => c.Healthy ∨ c.Down) Down hstep ?_
      (.inl hinitial) hinitial.not_down hrun
    intro c a c' h hs
    rcases h with h | h
    · rcases h.step hone (.of_step hs) with ⟨h', hhandled⟩ | ⟨h', hhandled⟩
      · exact iff_of_false h'.not_down (not_or.2 ⟨h.not_down, not_not_intro hhandled⟩)
      · exact iff_of_true h' (.inr hhandled)
    · exact iff_of_true (h.step (.of_step hs)) (.inl h)
  rw [hflag]
  rcases hinv with h | h
  · exact iff_of_true (h.getsPast hone hreply) h.not_down
  · exact iff_of_false h.not_getsPast (not_not_intro h)

end Config

/-! ## The two servers -/

variable {M : Type} (vire : Driver M) {now : ℕ → ℤ} {m : Message}

/-- A message that is dropped, or that is decoded. -/
def Driver.decodes (m : Message) : Bool :=
  m.properties.correlationId.isNone || m.properties.replyTo.isNone || (vire.decode m.body).isSome

/-- A message that is dropped, or that is answered: it is decoded as a
`connection_request`, and the response to it is encoded. -/
def Driver.responds (now : ℕ → ℤ) (m : Message) : Bool :=
  m.properties.correlationId.isNone || m.properties.replyTo.isNone ||
    (((vire.decode m.body).bind vire.connectionRequest).bind fun resources =>
      vire.encode (connectionSuccess vire now resources)).isSome

theorem echoExchangeServer_handled_iff :
    (.throw ∉ echoExchangeServer vire now m.body m.properties ∧
      .ack ∈ echoExchangeServer vire now m.body m.properties) ↔ vire.decodes m = true := by
  unfold echoExchangeServer service Driver.decodes
  cases hid : m.properties.correlationId with
  | none => simp
  | some id =>
    cases hqueue : m.properties.replyTo with
    | none => simp
    | some queue => cases hdecode : vire.decode m.body <;> simp [reply]

theorem connectionServer_handled_iff :
    (.throw ∉ connectionServer vire now m.body m.properties ∧
      .ack ∈ connectionServer vire now m.body m.properties) ↔ vire.responds now m = true := by
  unfold connectionServer service Driver.responds
  cases hid : m.properties.correlationId with
  | none => simp
  | some id =>
    cases hqueue : m.properties.replyTo with
    | none => simp
    | some queue =>
      cases hdecode : vire.decode m.body with
      | none => simp
      | some requestMsg =>
        cases hcast : vire.connectionRequest requestMsg with
        | none => simp [hcast]
        | some resources =>
          cases hencode : vire.encode (connectionSuccess vire now resources) <;>
            simp [hcast, hencode, reply]

namespace Config

variable {c : Config}

/-- The message delivered meets `ok`, at the readings of the clock its
iteration makes. -/
def Delivers (ok : (ℕ → ℤ) → Message → Bool) (c : Config) : Act → Prop
  | .deliver now => ∀ m ∈ c.queue.ready.head?, ok now m = true
  | _ => True

instance decidableDelivers (ok : (ℕ → ℤ) → Message → Bool) (c : Config) :
    ∀ a, Decidable (c.Delivers ok a)
  | .deliver _ => inferInstanceAs (Decidable (∀ m ∈ c.queue.ready.head?, _))
  | .publish _ | .go => isTrue trivial

/-- A service that handles what meets `ok` gets past exactly that. -/
theorem getsPast_iff_delivers {service : Service} {ok : (ℕ → ℤ) → Message → Bool} {as : List Act}
    (hone : ∀ now request propIn, (service now request propIn).count .ack ≤ 1)
    (hok : ∀ now (m : Message), (.throw ∉ service now m.body m.properties ∧
      .ack ∈ service now m.body m.properties) ↔ ok now m = true)
    (hrun : (serverMachine service).run initial as = some c) :
    c.GetsPast service ↔ (serverMachine service).Within (Delivers ok) initial as := by
  have hiff : ∀ (c : Config) a, Handled service c a ↔ c.Delivers ok a := by
    intro c a
    cases a with
    | deliver now => exact forall₂_congr fun m _ => hok now m
    | _ => exact Iff.rfl
  rw [getsPast_iff_handled hone hrun]
  exact ⟨Machine.within_mono fun c a => (hiff c a).1, Machine.within_mono fun c a => (hiff c a).2⟩

/-- **A server gets past what it can decode and answer, and nothing
else.** For every library, every sequence of messages and every order of
publications, deliveries and calls, the server gets past what it was sent
in the state reached if and only if every request delivered to it was
decoded by `echo_exchange_server`, respectively decoded and answered by
`connection_server`. -/
theorem getsPast_iff {M : Type} (vire : Driver M) (as : List Act) :
    (∀ c, (serverMachine (echoExchangeServer vire)).run initial as = some c →
      (c.GetsPast (echoExchangeServer vire) ↔
        (serverMachine (echoExchangeServer vire)).Within (Delivers fun _ => vire.decodes)
          initial as)) ∧
    (∀ c, (serverMachine (connectionServer vire)).run initial as = some c →
      (c.GetsPast (connectionServer vire) ↔
        (serverMachine (connectionServer vire)).Within (Delivers vire.responds) initial as)) :=
  ⟨fun _ hrun => getsPast_iff_delivers (echoExchangeServer_count_ack_le vire)
      (fun _ _ => echoExchangeServer_handled_iff vire) hrun,
    fun _ hrun => getsPast_iff_delivers (connectionServer_count_ack_le vire)
      (fun _ _ => connectionServer_handled_iff vire) hrun⟩

theorem getsPast_iff_servedRun :
    (∃ c, (serverMachine (echoExchangeServer sampleDriver)).run initial servedRun = some c ∧
      c.GetsPast (echoExchangeServer sampleDriver)) ∧
    (∃ c, (serverMachine (connectionServer sampleDriver)).run initial servedRun = some c ∧
      c.GetsPast (connectionServer sampleDriver)) :=
  ⟨⟨_, rfl, ((getsPast_iff sampleDriver servedRun).1 _ rfl).2 (by decide)⟩,
    ⟨_, rfl, ((getsPast_iff sampleDriver servedRun).2 _ rfl).2 (by decide)⟩⟩

/-- A request whose body is no message. -/
def undecodable : Message := ⟨"connection", requestProperties 1804289383 "amq.gen-3", [0]⟩

/-- It is delivered and decoded, with a connection request behind it. -/
def undecodableRun : List Act :=
  [.publish undecodable, .publish connectionRequest, .deliver fun _ => 0, .go]

/-- **A request that cannot be decoded takes both servers down**: each has
left its loop with the delivery unacknowledged, and has no step. -/
theorem not_getsPast_undecodableRun :
    sampleDriver.decode undecodable.body = none ∧
    undecodable.properties.correlationId.isSome ∧ undecodable.properties.replyTo.isSome ∧
    ∀ service ∈ [echoExchangeServer sampleDriver, connectionServer sampleDriver],
      ∃ c, (serverMachine service).run initial undecodableRun = some c ∧
        c.server.pc = .left ∧ c.queue.unacked = [0] ∧ c.queue.acks = [] ∧
        c.queue.ready = [connectionRequest] ∧ c.step service .go = none ∧
        (∀ now, c.step service (.deliver now) = none) ∧ ¬ c.GetsPast service := by
  refine ⟨rfl, rfl, rfl, ?_⟩
  have key : ∀ (service : Service) (c : Config), c.server.pc = .left →
      c.step service .go = none ∧ (∀ now, c.step service (.deliver now) = none) ∧
        ¬ c.GetsPast service := by
    intro service c hleft
    have hdown : c.Down := .inr (.inl hleft)
    refine ⟨?_, fun now => ?_, hdown.not_getsPast⟩
    · simp [Config.step, Server.step, hleft]
    · simp [Config.step, stepDeliver, hleft]
  rw [List.forall_mem_cons, List.forall_mem_singleton]
  exact ⟨⟨_, rfl, rfl, rfl, rfl, rfl, key _ _ rfl⟩, ⟨_, rfl, rfl, rfl, rfl, rfl, key _ _ rfl⟩⟩

end Config

end Rpc

end VireSandbox
