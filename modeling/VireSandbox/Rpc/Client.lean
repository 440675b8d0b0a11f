import VireSandbox.Rpc.Model
/-!
# The request clients — their receive loops

`cms_tests/rpc_request.cxx`, `fetch_status.cxx`, `connection_request.cxx`
and `disconnection_request.cxx` publish one request each and wait on an
exclusive queue for its answer. Three of them search what arrives there
for the correlation id they sent. `rpc_request`, whose two tests stand in
comments, takes what comes first, so that it finds its answer only where
nothing precedes it (`acceptsOwnAnswer_iff`).

The routing key and the tag of a response are read by nobody, and are left
out.
-/

namespace VireSandbox

namespace Rpc

/-- The clients. -/
inductive RequestClient
  | rpcRequest
  | fetchStatus
  | connectionRequest
  | disconnectionRequest
  deriving DecidableEq, Repr

/-- Whether a receive loop ends, by `prop_out` and the `prop_in` of the
message it has consumed. -/
abbrev ReceiveLoop := Properties → Properties → Bool

/-- The two tests of a receive loop: a message without a correlation id is
passed over, and the first with the one that was sent ends the loop. -/
def breaksOnCorrelationId : ReceiveLoop := fun propOut propIn =>
  if propIn.correlationId.isNone then false
  else propIn.correlationId == propOut.correlationId

namespace RequestClient

/-- The receive loop of a client. -/
def receiveLoop : RequestClient → ReceiveLoop
  | rpcRequest => fun _ _ => true
  | fetchStatus => breaksOnCorrelationId
  | connectionRequest => breaksOnCorrelationId
  | disconnectionRequest => breaksOnCorrelationId

end RequestClient

/-- Where a client is. -/
inductive ClientPc
  /-- About to publish its request. -/
  | publish
  /-- In `consume_message`. -/
  | consume
  /-- Past its receive loop, about to load what is in `response`. -/
  | load
  deriving DecidableEq, Repr

/-- A client, with the variables of its receive loop. -/
structure Client where
  pc : ClientPc
  response : Bytes
  propIn : Properties
  deriving DecidableEq, Repr

namespace Client

/-- A client that has declared its queue. -/
def initial : Client := ⟨.publish, [], ⟨none, none⟩⟩

variable (loop : ReceiveLoop) (propOut : Properties)

/-- `consume_message` returns, and the loop goes on or ends. -/
def consumeMessage (m : Message) : Client where
  pc := if loop propOut m.properties then .load else .consume
  response := m.body
  propIn := m.properties

/-- The receive loop over what arrives on the queue, with what it leaves
there. -/
def receive : Client → List Message → Client × List Message
  | s, [] => (s, [])
  | s, m :: ms => if s.pc = .consume then receive (consumeMessage loop propOut m) ms else (s, m :: ms)

end Client

/-- The message answers what was sent with `propOut`. -/
def Answers (propOut : Properties) (m : Message) : Prop :=
  m.properties.correlationId.isSome ∧ m.properties.correlationId = propOut.correlationId

instance (propOut : Properties) (m : Message) : Decidable (Answers propOut m) :=
  inferInstanceAs (Decidable (_ ∧ _))

/-- **A receive loop accepts its own answer**, over what arrives: it
consumes up to the first answer, which `response` then holds, and without
an answer it consumes everything and waits on. -/
structure AcceptsOwnAnswer (loop : ReceiveLoop) (propOut : Properties) (ms : List Message) :
    Prop where
  found : ∀ before m after, ms = before ++ m :: after → (∀ m' ∈ before, ¬ Answers propOut m') →
    Answers propOut m → ∀ s : Client, s.pc = .consume →
      s.receive loop propOut ms = (⟨.load, m.body, m.properties⟩, after)
  waits : (∀ m ∈ ms, ¬ Answers propOut m) → ∀ s : Client, s.pc = .consume →
    (s.receive loop propOut ms).1.pc = .consume ∧ (s.receive loop propOut ms).2 = []

section

variable {loop : ReceiveLoop} {propOut : Properties} {m : Message} {ms : List Message} {s : Client}

theorem breaksOnCorrelationId_iff :
    breaksOnCorrelationId propOut m.properties = true ↔ Answers propOut m := by
  unfold breaksOnCorrelationId Answers
  cases hid : m.properties.correlationId <;> simp

namespace Client

@[simp] theorem receive_nil : s.receive loop propOut [] = (s, []) := rfl

theorem receive_cons (hpc : s.pc = .consume) :
    s.receive loop propOut (m :: ms) =
      (consumeMessage loop propOut m).receive loop propOut ms := by
  rw [receive, if_pos hpc]

/-- A loop that has ended consumes nothing more. -/
theorem receive_load (hpc : s.pc = .load) : s.receive loop propOut ms = (s, ms) := by
  cases ms with
  | nil => rfl
  | cons m ms => rw [receive, if_neg (by simp [hpc])]

theorem consumeMessage_of_breaks (h : loop propOut m.properties = true) :
    consumeMessage loop propOut m = ⟨.load, m.body, m.properties⟩ := by
  simp [consumeMessage, h]

theorem consumeMessage_pc (h : loop propOut m.properties = false) :
    (consumeMessage loop propOut m).pc = .consume := by
  simp [consumeMessage, h]

/-- A loop passes over what does not end it. -/
theorem receive_append (hpc : s.pc = .consume) {before : List Message} (ms : List Message)
    (h : ∀ m ∈ before, loop propOut m.properties = false) :
    ∃ s' : Client, s'.pc = .consume ∧
      s.receive loop propOut (before ++ ms) = s'.receive loop propOut ms := by
  induction before generalizing s with
  | nil => exact ⟨s, hpc, rfl⟩
  | cons m before ih =>
    rw [List.forall_mem_cons] at h
    obtain ⟨s', hpc', hs'⟩ := ih (consumeMessage_pc h.1) h.2
    exact ⟨s', hpc', by rw [List.cons_append, receive_cons hpc, hs']⟩

end Client

/-- **The two tests make the search for the first answer.** -/
theorem acceptsOwnAnswer_breaksOnCorrelationId :
    AcceptsOwnAnswer breaksOnCorrelationId propOut ms where
  found := by
    rintro before m after rfl hbefore hm s hpc
    have hpass : ∀ m' ∈ before, breaksOnCorrelationId propOut m'.properties = false :=
      fun m' hm' => by simpa using mt breaksOnCorrelationId_iff.1 (hbefore m' hm')
    obtain ⟨s', hpc', hs'⟩ := Client.receive_append hpc (m :: after) hpass
    rw [hs', Client.receive_cons hpc',
      Client.consumeMessage_of_breaks (breaksOnCorrelationId_iff.2 hm), Client.receive_load rfl]
  waits := by
    intro hms s hpc
    have hpass : ∀ m ∈ ms, breaksOnCorrelationId propOut m.properties = false :=
      fun m hm => by simpa using mt breaksOnCorrelationId_iff.1 (hms m hm)
    obtain ⟨s', hpc', hs'⟩ := Client.receive_append hpc [] hpass
    rw [List.append_nil, Client.receive_nil] at hs'
    rw [hs']
    exact ⟨hpc', rfl⟩

/-- A loop without a test consumes one message. -/
theorem acceptsOwnAnswer_true :
    AcceptsOwnAnswer (fun _ _ => true) propOut ms ↔ ∀ m ∈ ms.head?, Answers propOut m := by
  cases ms with
  | nil =>
    refine iff_of_true ⟨?_, fun _ s hpc => ⟨hpc, rfl⟩⟩ (by simp)
    intro before m after hnil
    simp at hnil
  | cons m ms =>
    have hreceive : ∀ s : Client, s.pc = .consume →
        s.receive (fun _ _ => true) propOut (m :: ms) = (⟨.load, m.body, m.properties⟩, ms) := by
      intro s hpc
      rw [Client.receive_cons hpc, Client.consumeMessage_of_breaks rfl, Client.receive_load rfl]
    simp only [List.head?_cons, Option.mem_def, Option.some.injEq, forall_eq']
    constructor
    · intro h
      by_contra hm
      let s : Client := ⟨.consume, [], ⟨none, none⟩⟩
      cases hfind : ms.find? (fun m => decide (Answers propOut m)) with
      | none =>
        -- no answer at all, and yet the loop has ended
        have hms : ∀ m' ∈ m :: ms, ¬ Answers propOut m' := by
          rw [List.forall_mem_cons]
          exact ⟨hm, by simpa using hfind⟩
        have hpc := (h.waits hms s rfl).1
        rw [hreceive s rfl] at hpc
        cases hpc
      | some m' =>
        -- the first answer is further behind than the loop has gone
        obtain ⟨hm', before, after, rfl, hbefore⟩ := List.find?_eq_some_iff_append.1 hfind
        have hpass : ∀ m'' ∈ m :: before, ¬ Answers propOut m'' := by
          rw [List.forall_mem_cons]
          exact ⟨hm, by simpa using hbefore⟩
        have hfound := h.found (m :: before) m' after rfl hpass (by simpa using hm') s rfl
        rw [hreceive s rfl] at hfound
        have hlength := congrArg (fun r => r.2.length) hfound
        simp only [List.length_append, List.length_cons] at hlength
        omega
    · intro hm
      refine ⟨?_, fun hms => absurd hm (hms m List.mem_cons_self)⟩
      intro before m' after hsplit hbefore hm' s hpc
      cases before with
      | nil =>
        cases hsplit
        exact hreceive s hpc
      | cons m'' before =>
        cases hsplit
        exact absurd hm (hbefore m List.mem_cons_self)

end

/-- **Three of the four clients accept their own answer, whatever arrives,
and `rpc_request` exactly where it comes first.** For every client, every
correlation id and reply queue it sends, and every sequence of messages on
that queue. -/
theorem acceptsOwnAnswer_iff (client : RequestClient) (rand : ℕ) (queue : String)
    (ms : List Message) :
    AcceptsOwnAnswer client.receiveLoop (requestProperties rand queue) ms ↔
      (client = .rpcRequest → ∀ m ∈ ms.head?, Answers (requestProperties rand queue) m) := by
  cases client with
  | rpcRequest =>
    rw [forall_prop_of_true rfl]
    exact acceptsOwnAnswer_true
  | fetchStatus => exact iff_of_true acceptsOwnAnswer_breaksOnCorrelationId nofun
  | connectionRequest => exact iff_of_true acceptsOwnAnswer_breaksOnCorrelationId nofun
  | disconnectionRequest => exact iff_of_true acceptsOwnAnswer_breaksOnCorrelationId nofun

/-- A message without a correlation id, and the answer behind it. -/
def strayEvent : Message := ⟨"amq.gen-1", ⟨none, none⟩, [9]⟩

def answer : Message := ⟨"amq.gen-1", ⟨some "corid_1804289383", none⟩, [3]⟩

/-- **`rpc_request` takes the stray event for its response**, and leaves
the answer in the queue. -/
theorem not_acceptsOwnAnswer_strayEvent :
    Answers (requestProperties 1804289383 "amq.gen-1") answer ∧
    (⟨.consume, [], ⟨none, none⟩⟩ : Client).receive RequestClient.rpcRequest.receiveLoop
        (requestProperties 1804289383 "amq.gen-1") [strayEvent, answer] =
      (⟨.load, strayEvent.body, strayEvent.properties⟩, [answer]) ∧
    ¬ AcceptsOwnAnswer RequestClient.rpcRequest.receiveLoop
        (requestProperties 1804289383 "amq.gen-1") [strayEvent, answer] := by
  refine ⟨by decide, rfl, fun h => ?_⟩
  have hfound := h.found [strayEvent] answer [] rfl (by decide) (by decide)
    ⟨.consume, [], ⟨none, none⟩⟩ rfl
  exact absurd hfound (by decide)

end Rpc

end VireSandbox
