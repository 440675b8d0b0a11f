import VireSandbox.Rpc.Network
import VireSandbox.Rpc.Serving
/-!
# An echo server and its clients — each client has its own echo

The correlation ids are of no help here: `std::rand` is never seeded, so
that clients share them. What keeps the replies apart is the name of the
reply queue. The server copies it from the request, and no two queues have
one name, so that all that ever reaches a client is the echo of its own
request (`echo_end_to_end`).
-/

namespace VireSandbox

namespace Rpc

/-- The reply to a request: for its reply-to queue, with its correlation id
and its bytes. -/
def echo (m : Message) : Message :=
  ⟨m.properties.replyTo.getD "", ⟨m.properties.correlationId, none⟩, m.body⟩

/-- What the server does about a request, in this order. -/
def serves (m : Message) (delivery : ℕ) : List Event :=
  [.consume m delivery, .call (.publish "" (echo m)), .call (.ack delivery)]

/-- The log of a server that is through with these requests. -/
def served (ms : List Message) : List Event :=
  ms.zipIdx.flatMap fun (m, delivery) => serves m delivery

/-- The messages that the server published to a queue. -/
def repliesTo (queue : String) (log : List Event) : List Message :=
  log.filterMap fun
    | .call (.publish exchange m) => if exchange = "" ∧ m.routingKey = queue then some m else none
    | _ => none

section

variable {ms : List Message} {m : Message} {queue exchange : String} {log : List Event}
variable {delivery : ℕ}

theorem served_concat : served (ms ++ [m]) = served ms ++ serves m ms.length := by
  simp [served, List.zipIdx_append]

@[simp] theorem repliesTo_consume :
    repliesTo queue (log ++ [.consume m delivery]) = repliesTo queue log := by
  simp [repliesTo]

@[simp] theorem repliesTo_ack :
    repliesTo queue (log ++ [.call (.ack delivery)]) = repliesTo queue log := by
  simp [repliesTo]

theorem repliesTo_publish :
    repliesTo queue (log ++ [.call (.publish "" m)]) =
      if m.routingKey = queue then repliesTo queue log ++ [m] else repliesTo queue log := by
  by_cases h : m.routingKey = queue <;> simp [repliesTo, h]

end

/-- Every client's loop ends at the correlation id it sent. -/
theorem receiveLoop_own (program : RequestClient) (rand : ℕ) (queue : String)
    (replyTo : Option String) :
    program.receiveLoop (requestProperties rand queue)
      ⟨(requestProperties rand queue).correlationId, replyTo⟩ = true := by
  cases program <;> simp [RequestClient.receiveLoop, breaksOnCorrelationId, requestProperties]

namespace Network

variable {κ : Type} {M : Type} {vire : Driver M} {site : Site κ}
variable {c c' : Network κ} {a : NetworkAct κ} {k : κ}
variable {done cur published pending : List κ}

/-- **Where the server is**, through with the requests of `done`, with the
one of `cur` in hand, and with replies to `published`. -/
inductive Phase (site : Site κ) (s : Server) :
    List Event → List κ → List κ → List κ → Prop
  | consume {done : List κ} (hpc : s.pc = .consume) :
      Phase site s (served (done.map site.request)) done [] done
  | reply {done : List κ} {k : κ} {id : String} (hid : (site.propOut k).correlationId = some id)
      (hpc : s.pc = .run (reply id (site.queue k) (site.body k)))
      (hdelivery : s.delivery = done.length) :
      Phase site s (served (done.map site.request) ++ [.consume (site.request k) done.length])
        done [k] done
  | publish {done : List κ} {k : κ}
      (hpc : s.pc = .run [.publish "" (site.queue k) (site.body k), .ack])
      (hprop : s.propOut = (echo (site.request k)).properties)
      (hdelivery : s.delivery = done.length) :
      Phase site s (served (done.map site.request) ++ [.consume (site.request k) done.length])
        done [k] done
  | ack {done : List κ} {k : κ} (hpc : s.pc = .run [.ack]) (hdelivery : s.delivery = done.length) :
      Phase site s (served (done.map site.request) ++ [.consume (site.request k) done.length] ++
        [.call (.publish "" (echo (site.request k)))]) done [k] (done ++ [k])
  | next {done : List κ} {k : κ} (hpc : s.pc = .run []) :
      Phase site s (served ((done ++ [k]).map site.request)) done [k] (done ++ [k])

/-- What a client has received: nothing before it has published, and then
what was published to its queue, which it consumes in one message. -/
def ClientSound (site : Site κ) (c : Network κ) (asked : List κ) (k : κ) : Prop :=
  match (c.client k).pc with
  | .publish => k ∉ asked ∧ c.replies k = []
  | .consume => c.replies k = repliesTo (site.queue k) c.log
  | .load => c.replies k = [] ∧ repliesTo (site.queue k) c.log ≠ [] ∧
      (c.client k).response = site.body k ∧
      (c.client k).propIn = (echo (site.request k)).properties

theorem Phase.published_subset {s : Server} {log : List Event}
    (h : Phase site s log done cur published) : published ⊆ done ++ cur := by
  cases h with
  | consume | reply | publish => exact List.subset_append_left done _
  | ack | next => exact List.Subset.refl _

/-- A client is not concerned by what leaves its variables, its queue and
the replies to it alone. -/
theorem ClientSound.congr {asked asked' : List κ} (h : ClientSound site c asked k)
    (hclient : c'.client k = c.client k) (hreplies : c'.replies k = c.replies k)
    (hlog : repliesTo (site.queue k) c'.log = repliesTo (site.queue k) c.log)
    (hasked : k ∈ asked' → k ∈ asked) : ClientSound site c' asked' k := by
  unfold ClientSound at h ⊢
  rw [hclient, hreplies, hlog]
  split at h
  · exact ⟨fun hk => h.1 (hasked hk), h.2⟩
  · exact h
  · exact h

/-- The name of a reply queue tells its client. -/
theorem queue_eq_iff {k k' : κ} : site.queue k = site.queue k' ↔ k = k' :=
  site.queue_injective.eq_iff

theorem apply_none : c.apply site none = c := rfl

theorem echo_request (k : κ) :
    echo (site.request k) = ⟨site.queue k, ⟨(site.propOut k).correlationId, none⟩, site.body k⟩ :=
  rfl

variable [DecidableEq κ]

/-- **The invariant of the network.** The requests that have reached the
server's queue are each of another client; they are served in their order,
and the replies published so far are one for each of `published`. -/
structure Sound (site : Site κ) (c : Network κ) (done cur published pending : List κ) : Prop where
  nodup : (done ++ cur ++ pending).Nodup
  ready : c.queue.ready = pending.map site.request
  delivered : c.queue.delivered = done.length + cur.length
  phase : Phase site c.server c.log done cur published
  replyTo : c.server.propOut.replyTo = none
  posted : ∀ k, repliesTo (site.queue k) c.log =
    if k ∈ published then [echo (site.request k)] else []
  client : ∀ k, ClientSound site c (done ++ cur ++ pending) k

theorem sound_initial : Sound site (initial : Network κ) [] [] [] [] where
  nodup := List.nodup_nil
  ready := rfl
  delivered := rfl
  phase := (.consume rfl : Phase site _ (served (List.map site.request [])) [] [] [])
  replyTo := rfl
  posted := fun _ => rfl
  client := fun _ => ⟨List.not_mem_nil, rfl⟩

/-! ## The steps of a client -/

/-- Nothing was published to a client whose request has not reached the
server. -/
theorem Sound.repliesTo_eq_nil (h : Sound site c done cur published pending)
    (hk : k ∉ done ++ cur ++ pending) : repliesTo (site.queue k) c.log = [] := by
  rw [h.posted k, if_neg]
  intro hpub
  exact hk (List.mem_append_left pending (h.phase.published_subset hpub))

/-- A client publishes, and its request is the last to wait for the
server, unless the broker drops it. -/
theorem Sound.publish (h : Sound site c done cur published pending)
    (hpc : (c.client k).pc = .publish) :
    ∃ pending', Sound site
      ({ c with client := Function.update c.client k { c.client k with pc := .consume } }.route
        site (site.exchange k) (site.request k)) done cur published pending' := by
  have hk := h.client k
  simp only [ClientSound, hpc] at hk
  have hnil := h.repliesTo_eq_nil hk.1
  unfold route
  rw [if_neg (site.exchange_ne k)]
  -- the client is in `consume_message`, and nothing has come yet
  have hclient : ∀ (queue : Queue Message) (asked : List κ),
      (∀ k', k' ≠ k → k' ∈ asked → k' ∈ done ++ cur ++ pending) → ∀ k',
        ClientSound site { c with
          client := Function.update c.client k { c.client k with pc := .consume }
          queue := queue } asked k' := by
    intro queue asked hasked k'
    by_cases hk' : k' = k
    · subst hk'
      simp only [ClientSound, Function.update_self]
      rw [hnil, hk.2]
    · exact (h.client k').congr (Function.update_of_ne hk' _ _) rfl rfl (hasked k' hk')
  split
  · refine ⟨pending ++ [k], ?_, ?_, h.delivered, h.phase, h.replyTo, h.posted,
      hclient _ _ fun k' hne hk' => ?_⟩
    · rw [← List.append_assoc, List.nodup_append]
      refine ⟨h.nodup, by simp, ?_⟩
      rintro k' hk' _ hk'' rfl
      rw [List.mem_singleton] at hk''
      exact hk.1 (hk'' ▸ hk')
    · simp [Queue.publish, h.ready]
    · rw [← List.append_assoc] at hk'
      exact (List.mem_append.1 hk').resolve_right fun hk'' => hne (List.mem_singleton.1 hk'')
  · exact ⟨pending, h.nodup, h.ready, h.delivered, h.phase, h.replyTo, h.posted,
      hclient c.queue _ fun _ _ hk' => hk'⟩

/-- **What a client consumes is the echo of its request**, and ends its
loop. -/
theorem Sound.consume (h : Sound site c done cur published pending) {m : Message}
    {ms : List Message} (hpc : (c.client k).pc = .consume) (hreplies : c.replies k = m :: ms) :
    Sound site { c with
      client := Function.update c.client k
        (Client.consumeMessage (site.program k).receiveLoop (site.propOut k) m)
      replies := Function.update c.replies k ms } done cur published pending := by
  refine ⟨h.nodup, h.ready, h.delivered, h.phase, h.replyTo, h.posted, fun k' => ?_⟩
  by_cases hk' : k' = k
  · subst hk'
    have hk := h.client k'
    simp only [ClientSound, hpc] at hk
    have hposted := h.posted k'
    rw [← hk, hreplies] at hposted
    split at hposted <;> cases hposted
    have hbreaks : (site.program k').receiveLoop (site.propOut k')
        (echo (site.request k')).properties = true := receiveLoop_own _ _ _ _
    simp only [ClientSound, Function.update_self, Client.consumeMessage_of_breaks hbreaks]
    refine ⟨trivial, ?_, rfl, trivial⟩
    rw [← hk, hreplies]
    exact List.cons_ne_nil _ _
  · exact (h.client k').congr (Function.update_of_ne hk' _ _) (Function.update_of_ne hk' _ _) rfl id

/-! ## The steps of the server -/

/-- A delivery is the next request, which the server decodes. -/
theorem Sound.deliver (hdecode : ∀ k, (vire.decode (site.body k)).isSome)
    (h : Sound site c done cur published pending) {now : ℕ → ℤ} {m : Message}
    {queue : Queue Message} (hpc : c.server.pc = .consume)
    (hd : c.queue.deliver 1 = some (m, queue)) :
    ∃ cur pending', Sound site { c with
      server := c.server.consumeMessage (echoExchangeServer vire) now m c.queue.delivered
      queue := queue
      log := c.log ++ [.consume m c.queue.delivered] } done cur published pending' := by
  obtain ⟨-, hready, hqueue⟩ := Queue.deliver_eq_some_iff.1 hd
  obtain ⟨hnodup, hwaiting, hdelivered, hphase, hreply, hposted, hclient⟩ := h
  obtain ⟨log, hlog⟩ : ∃ log, c.log = log := ⟨_, rfl⟩
  rw [hlog] at hphase
  -- only a server without a request in hand is in `consume_message`
  cases hphase with
  | consume hpc' =>
    cases pending with
    | nil =>
      rw [hwaiting] at hready
      cases hready
    | cons k pending =>
      rw [hwaiting, List.map_cons, List.cons.injEq] at hready
      obtain ⟨rfl, hrest⟩ := hready
      have hasked : done ++ [] ++ k :: pending = done ++ [k] ++ pending := by simp
      rw [hasked] at hnodup hclient
      rw [List.length_nil, Nat.add_zero] at hdelivered
      obtain ⟨msg, hmsg⟩ := Option.isSome_iff_exists.1 (hdecode k)
      refine ⟨[k], pending, hnodup, hrest.symm, ?_, ?_, hreply, ?_, fun k' => ?_⟩
      · rw [hqueue, hdelivered]
        rfl
      · rw [hlog, hdelivered]
        refine .reply rfl ?_ rfl
        simp [Server.consumeMessage, echoExchangeServer, service, Site.request, Site.propOut,
          requestProperties, hmsg]
      · simpa using hposted
      · exact (hclient k').congr rfl rfl repliesTo_consume id
  | reply hid hpc' | publish hpc' | ack hpc' | next hpc' =>
    rw [hpc'] at hpc
    cases hpc

/-- What the broker does with a reply. -/
theorem apply_echo {server : Server} :
    { c with server := server }.apply site (some (.publish "" (echo (site.request k)))) =
      { c with
        server := server
        replies := Function.update c.replies k (c.replies k ++ [echo (site.request k)])
        log := c.log ++ [.call (.publish "" (echo (site.request k)))] } := by
  have hreplies : (fun k' => if site.queue k = site.queue k' then
      c.replies k' ++ [echo (site.request k)] else c.replies k') =
      Function.update c.replies k (c.replies k ++ [echo (site.request k)]) := by
    funext k'
    by_cases hk' : k' = k
    · rw [hk', if_pos rfl, Function.update_self]
    · rw [if_neg fun hq => hk' (queue_eq_iff.1 hq).symm, Function.update_of_ne hk']
  have hserver : (echo (site.request k)).routingKey ≠ site.serverQueue := site.queue_ne k
  simp only [Network.apply, route, if_true, ← hreplies, if_neg hserver]
  rfl

/-- A reply reaches the client whose request it answers, and no other. -/
theorem Sound.reply (h : Sound site c done [k] done pending) {server : Server}
    (hphase : Phase site server (c.log ++ [.call (.publish "" (echo (site.request k)))]) done [k]
      (done ++ [k]))
    (hreply : server.propOut.replyTo = none) :
    Sound site
      ({ c with server := server }.apply site (some (.publish "" (echo (site.request k))))) done
      [k] (done ++ [k]) pending := by
  have hk : k ∉ done := by
    have hnodup := h.nodup
    rw [List.append_assoc, List.nodup_append] at hnodup
    exact fun hk => hnodup.2.2 k hk k (by simp) rfl
  have hnil : repliesTo (site.queue k) c.log = [] := by rw [h.posted k, if_neg hk]
  have hother : ∀ k', k' ≠ k →
      repliesTo (site.queue k') (c.log ++ [.call (.publish "" (echo (site.request k)))]) =
        repliesTo (site.queue k') c.log := by
    intro k' hk'
    rw [repliesTo_publish, if_neg]
    exact fun hq => hk' (queue_eq_iff.1 hq).symm
  have hown : repliesTo (site.queue k) (c.log ++ [.call (.publish "" (echo (site.request k)))]) =
      [echo (site.request k)] := by
    rw [repliesTo_publish, hnil]
    exact if_pos rfl
  rw [apply_echo]
  refine ⟨h.nodup, h.ready, h.delivered, hphase, hreply, fun k' => ?_, fun k' => ?_⟩
  · by_cases hk' : k' = k
    · subst hk'
      rw [if_pos (by simp)]
      exact hown
    · simp only [hother k' hk', h.posted k', List.mem_append, List.mem_singleton, hk', or_false]
  · by_cases hk' : k' = k
    · subst hk'
      have hclient := h.client k'
      unfold ClientSound at hclient ⊢
      split at hclient
      · next hpc => exact absurd (by simp) hclient.1
      · next hpc =>
        simp only [hpc, Function.update_self]
        rw [hclient, hown, hnil, List.nil_append]
      · next hpc => exact absurd hnil hclient.2.1
    · exact (h.client k').congr rfl (Function.update_of_ne hk' _ _) (hother k' hk') id

/-- **The next call of the server**, one case for each place it can be in. -/
theorem Sound.go (h : Sound site c done cur published pending) {server : Server}
    {effect : Option Effect} (hs : c.server.step = some (server, effect)) :
    ∃ done' cur' published', Sound site ({ c with server := server }.apply site effect) done' cur'
      published' pending := by
  have hreply := h.replyTo
  obtain ⟨events, hlog⟩ : ∃ events, c.log = events := ⟨_, rfl⟩
  have hphase := h.phase
  rw [hlog] at hphase
  cases hphase with
  | consume hpc =>
    rw [Server.step, hpc] at hs
    cases hs
  | @reply _ k id hid hpc hdelivery =>
    rw [Server.step, hpc] at hs
    cases hs
    refine ⟨done, [k], done, h.nodup, h.ready, h.delivered, ?_, hreply, h.posted, h.client⟩
    refine hlog ▸ .publish rfl ?_ hdelivery
    rw [echo_request, hid, ← hreply]
    rfl
  | @publish _ k hpc hprop hdelivery =>
    rw [Server.step, hpc] at hs
    cases hs
    have hmessage : (⟨site.queue k, c.server.propOut, site.body k⟩ : Message) =
        echo (site.request k) := by
      rw [hprop]
      rfl
    rw [hmessage]
    exact ⟨done, [k], done ++ [k], h.reply (hlog ▸ .ack rfl hdelivery) hreply⟩
  | @ack _ k hpc hdelivery =>
    rw [Server.step, hpc] at hs
    cases hs
    refine ⟨done, [k], done ++ [k], h.nodup, h.ready, h.delivered, ?_, hreply, ?_, fun k' => ?_⟩
    · -- the three events of the request are all there
      have hserved : Phase site { c.server with pc := .run [] }
          (served ((done ++ [k]).map site.request)) done [k] (done ++ [k]) := .next rfl
      rw [List.map_append, List.map_singleton, served_concat, List.length_map] at hserved
      simpa [Network.apply, hlog, hdelivery, serves] using hserved
    · intro k'
      simpa [Network.apply] using h.posted k'
    · exact (h.client k').congr rfl rfl (by simp [Network.apply]) id
  | @next _ k hpc =>
    rw [Server.step, hpc] at hs
    cases hs
    rw [apply_none]
    have hasked : done ++ [k] ++ [] ++ pending = done ++ [k] ++ pending := by
      rw [List.append_nil]
    refine ⟨done ++ [k], [], done ++ [k], ?_, h.ready, ?_, hlog ▸ .consume rfl, hreply, h.posted,
      ?_⟩
    · rw [hasked]
      exact h.nodup
    · rw [List.length_append]
      exact h.delivered
    · rw [hasked]
      exact h.client

/-- **One move keeps the invariant.** -/
theorem Sound.step (hdecode : ∀ k, (vire.decode (site.body k)).isSome)
    (h : ∃ done cur published pending, Sound site c done cur published pending)
    (hs : Step vire site c a c') :
    ∃ done cur published pending, Sound site c' done cur published pending := by
  obtain ⟨done, cur, published, pending, h⟩ := h
  cases hs with
  | publish hpc =>
    obtain ⟨pending', h'⟩ := h.publish hpc
    exact ⟨done, cur, published, pending', h'⟩
  | consume hpc hreplies => exact ⟨done, cur, published, pending, h.consume hpc hreplies⟩
  | deliver hpc hd =>
    obtain ⟨cur', pending', h'⟩ := h.deliver hdecode hpc hd
    exact ⟨done, cur', published, pending', h'⟩
  | go hstep =>
    obtain ⟨done', cur', published', h'⟩ := h.go hstep
    exact ⟨done', cur', published', pending, h'⟩

/-! ## What it comes to -/

/-- **The server's log is in order**: it is through with the requests of
`done`, each consumed, replied to and acknowledged in turn, and no further
than its acknowledgement with at most one more. No client's request is
among them twice. -/
def Orderly (site : Site κ) (c : Network κ) : Prop :=
  ∃ done cur : List κ, (done ++ cur).Nodup ∧ cur.length ≤ 1 ∧
    served (done.map site.request) <+: c.log ∧
    c.log <+: served ((done ++ cur).map site.request) ∧
    (c.server.pc = .consume → cur = [])

/-- A client past its loop holds the echo of its request, which is all that
was ever published to its queue. -/
def HoldsEcho (site : Site κ) (c : Network κ) (k : κ) : Prop :=
  (c.client k).response = site.body k ∧
    (c.client k).propIn.correlationId = (site.propOut k).correlationId ∧
    repliesTo (site.queue k) c.log = [echo (site.request k)] ∧ c.replies k = []

theorem Sound.orderly (h : Sound site c done cur published pending) : c.Orderly site := by
  refine ⟨done, cur, (List.nodup_append.1 h.nodup).1, ?_⟩
  obtain ⟨events, hlog⟩ : ∃ events, c.log = events := ⟨_, rfl⟩
  have hphase := h.phase
  rw [hlog] at hphase ⊢
  cases hphase with
  | consume hpc => simp
  | reply _ hpc | publish hpc | ack hpc | next hpc => simp [hpc, served_concat, serves]

theorem Sound.holdsEcho (h : Sound site c done cur published pending)
    (hpc : (c.client k).pc = .load) : c.HoldsEcho site k := by
  have hclient := h.client k
  simp only [ClientSound, hpc] at hclient
  obtain ⟨hreplies, hne, hresponse, hprop⟩ := hclient
  refine ⟨hresponse, by rw [hprop]; rfl, ?_, hreplies⟩
  have hposted := h.posted k
  split at hposted
  · exact hposted
  · exact absurd hposted hne

/-- **Each client ends with the echo of its own request.** For any number
of clients of any of the four kinds, whatever correlation ids they have
drawn, and any order of their steps, the broker's and the server's: the
server has published one reply to each request it is through with, to its
reply-to queue, with its correlation id and its bytes, after consuming it
and before acknowledging it; and a client past its receive loop holds the
echo of its own request, the only message ever sent to its queue. -/
theorem echo_end_to_end {κ M : Type} [DecidableEq κ] (vire : Driver M) (site : Site κ)
    (hdecode : ∀ k, (vire.decode (site.body k)).isSome) (as : List (NetworkAct κ)) (c : Network κ)
    (hrun : (networkMachine vire site).run initial as = some c) :
    c.Orderly site ∧ ∀ k, (c.client k).pc = .load → c.HoldsEcho site k := by
  obtain ⟨done, cur, published, pending, h⟩ : ∃ done cur published pending,
      Sound site c done cur published pending :=
    Machine.run_invariant (fun c => ∃ done cur published pending,
        Sound site c done cur published pending)
      (fun _ _ _ h hs => Sound.step hdecode h (.of_step hs)) ⟨[], [], [], [], sound_initial⟩ hrun
  exact ⟨h.orderly, fun k hpc => h.holdsEcho hpc⟩

/-- A connection request and a status request with the correlation id that
an unseeded `std::rand` draws first. -/
def sampleSite : Site Bool where
  program k := if k then .connectionRequest else .fetchStatus
  rand _ := 1804289383
  exchange _ := "subcontractor.service"
  routingKey _ := "connection"
  body k := if k then [1] else [2]
  queue k := if k then "amq.gen-1" else "amq.gen-2"
  serverQueue := "amq.gen-0"
  bound _ _ := true
  exchange_ne := by decide
  queue_injective := by
    unfold Function.Injective
    decide
  queue_ne := by decide

/-- Both publish before either is served. -/
def echoRun : List (NetworkAct Bool) :=
  [.publish true, .publish false] ++ .deliver (fun _ => 0) :: List.replicate 4 .go ++
    .deliver (fun _ => 0) :: List.replicate 4 .go ++ [.consume false, .consume true]

theorem echo_end_to_end_echoRun :
    ∃ c, (networkMachine sampleDriver sampleSite).run initial echoRun = some c ∧
      c.Orderly sampleSite ∧ c.HoldsEcho sampleSite true ∧ c.HoldsEcho sampleSite false := by
  have hdecode : ∀ k, (sampleDriver.decode (sampleSite.body k)).isSome := by decide
  exact ⟨_, rfl, (echo_end_to_end sampleDriver sampleSite hdecode echoRun _ rfl).1,
    (echo_end_to_end sampleDriver sampleSite hdecode echoRun _ rfl).2 true rfl,
    (echo_end_to_end sampleDriver sampleSite hdecode echoRun _ rfl).2 false rfl⟩

end Network

end Rpc

end VireSandbox
