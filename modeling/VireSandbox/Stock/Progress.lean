import VireSandbox.Stock.Model
/-!
# The stock — who can move

A client that finds too little wakes the store before it blocks, and the
store's refill wakes every client. But a client the refill woke, and that
finds too little again because others were quicker, blocks without
another notification: where the store has gone back to sleep meanwhile,
over a stock that was full then, nothing is left to wake either. Where no
client waits again over a sleeping store, some thread can always move
(`live_of_storeAwake`).
-/

namespace VireSandbox

namespace Application

/-! ## The moves -/

namespace Config

variable {nbClients : ℕ} {c c' : Config nbClients} {a : Act nbClients}

/-- **The moves of the stock machine.** -/
inductive Step (c : Config nbClients) : Act nbClients → Config nbClients → Prop
  /-- The store takes the lock and evaluates `Is_Stock_Not_Full`. -/
  | check (hpc : c.store = .entry ∨ c.store = .notified) :
      Step c .store { c with store := .checked c.app.isStockNotFull }
  | returns (hpc : c.store = .checked true) (hstop : c.app.stop = true) :
      Step c .store { c with store := .returned }
  | refill (hpc : c.store = .checked true) (hstop : c.app.stop = false) :
      Step c .store c.refill
  /-- The store blocks on `store_cond`. -/
  | sleep (hpc : c.store = .checked false) : Step c .store { c with store := .asleep }
  | draw {i : Fin nbClients} {n : ℕ} {val : ℤ} (hpc : c.client i = .draws n) :
      Step c (.draw i val) { c with client := Function.update c.client i (.wants n val) }
  | take {i : Fin nbClients} {n : ℕ} {val : ℤ} (hfree : c.locked = false)
      (hpc : c.client i = .wants n val ∨ c.client i = .notified n val)
      (hok : val ≤ c.app.stock) : Step c (.client i) (c.take i n val)
  /-- A client notifies the store and blocks on `client_cond`. -/
  | wait {i : Fin nbClients} {n : ℕ} {val : ℤ} (hfree : c.locked = false)
      (hpc : c.client i = .wants n val) (hok : c.app.stock < val) :
      Step c (.client i) { c with
        store := c.store.notify
        client := Function.update c.client i (.asleep n val) }
  /-- A client that was woken blocks again. -/
  | waitAgain {i : Fin nbClients} {n : ℕ} {val : ℤ} (hfree : c.locked = false)
      (hpc : c.client i = .notified n val) (hok : c.app.stock < val) :
      Step c (.client i) { c with client := Function.update c.client i (.asleep n val) }
  | join {i : ℕ} (hmain : c.main = .joining i) (hlt : i < nbClients)
      (hpc : c.client ⟨i, hlt⟩ = .finished) : Step c .main { c with main := .joining (i + 1) }
  /-- `Stop` writes `stop`. -/
  | stop {i : ℕ} (hmain : c.main = .joining i) (hle : nbClients ≤ i) :
      Step c .main { c with app := { c.app with stop := true }, main := .stopping }
  /-- `Stop` notifies the store. -/
  | notify (hmain : c.main = .stopping) :
      Step c .main { c with store := c.store.notify, main := .joinStore }
  | joinStore (hmain : c.main = .joinStore) (hpc : c.store = .returned) :
      Step c .main { c with main := .returned }
  | wakeStore (hpc : c.store = .asleep) : Step c .wakeStore { c with store := .notified }
  | wakeClient {i : Fin nbClients} {n : ℕ} {val : ℤ} (hpc : c.client i = .asleep n val) :
      Step c (.wakeClient i)
        { c with client := Function.update c.client i (.notified n val) }

theorem Step.of_store (h : c.stepStore = some c') : Step c .store c' := by
  unfold stepStore at h
  split at h
  · next hpc =>
    cases h
    exact .check (.inl hpc)
  · next hpc =>
    cases h
    exact .check (.inr hpc)
  · next hpc =>
    split at h <;> cases h
    · next hstop => exact .returns hpc hstop
    · next hstop => exact .refill hpc (by simpa using hstop)
  · next hpc =>
    cases h
    exact .sleep hpc
  · cases h
  · cases h

theorem Step.of_client {i : Fin nbClients} (h : c.stepClient i = some c') :
    Step c (.client i) c' := by
  unfold stepClient at h
  split at h
  · cases h
  · next hlocked =>
    have hfree : c.locked = false := by simpa using hlocked
    split at h
    · next n val hpc =>
      split at h <;> cases h
      · next hok => exact .take hfree (.inl hpc) (by simpa [isStockOk] using hok)
      · next hok => exact .wait hfree hpc (by simpa [isStockOk] using hok)
    · next n val hpc =>
      split at h <;> cases h
      · next hok => exact .take hfree (.inr hpc) (by simpa [isStockOk] using hok)
      · next hok => exact .waitAgain hfree hpc (by simpa [isStockOk] using hok)
    · cases h

theorem Step.of_main (h : c.stepMain = some c') : Step c .main c' := by
  unfold stepMain at h
  split at h
  · next hmain =>
    split at h
    · next hlt =>
      split at h <;> cases h
      next hpc => exact .join hmain hlt hpc
    · next hlt =>
      cases h
      exact .stop hmain (by omega)
  · next hmain =>
    cases h
    exact .notify hmain
  · next hmain =>
    split at h <;> cases h
    next hpc => exact .joinStore hmain hpc
  · cases h

/-- **Every step is a move of the list.** -/
theorem Step.of_step (h : (stockMachine nbClients).step c a = some c') : Step c a c' := by
  change c.step a = some c' at h
  cases a with
  | store => exact .of_store h
  | draw i val =>
    change c.stepDraw i val = some c' at h
    unfold stepDraw at h
    split at h <;> cases h
    next hpc => exact .draw hpc
  | client i => exact .of_client h
  | main => exact .of_main h
  | wakeStore =>
    simp only [Config.step] at h
    split at h <;> cases h
    next hpc => exact .wakeStore hpc
  | wakeClient i =>
    simp only [Config.step] at h
    split at h <;> cases h
    next hpc => exact .wakeClient hpc

end Config

/-! ## The conditions -/

variable {nbClients : ℕ}

/-- A move of the threads, or of `get_random`, and not a spurious wakeup. -/
def Act.Regular : Act nbClients → Prop
  | .draw _ val => Drawn val
  | .wakeStore | .wakeClient _ => False
  | _ => True

instance decidableRegular : ∀ a : Act nbClients, Decidable a.Regular
  | .draw _ val => inferInstanceAs (Decidable (Drawn val))
  | .wakeStore | .wakeClient _ => isFalse id
  | .store | .client _ | .main => isTrue trivial

namespace Config

variable {c c' : Config nbClients} {a : Act nbClients} {as : List (Act nbClients)}
variable {iniStock : ℤ}

/-- The client was woken and finds too little. -/
def waitsAgain (stock : ℤ) : ClientPc → Bool
  | .notified _ val => stock < val
  | _ => false

/-- A client that was woken waits again only while the store is not
blocked on `store_cond`. -/
def StoreAwake (c : Config nbClients) : Act nbClients → Prop
  | .client i => waitsAgain c.app.stock (c.client i) = true → c.store ≠ .asleep
  | _ => True

instance decidableStoreAwake (c : Config nbClients) : ∀ a, Decidable (c.StoreAwake a)
  | .client _ => inferInstanceAs (Decidable (_ → _))
  | .store | .draw _ _ | .main | .wakeStore | .wakeClient _ => isTrue trivial

/-- **A thread can move**, of the store and the clients, as long as they
have work. -/
def Live (c : Config nbClients) : Prop :=
  c.app.stop = false → (∃ i, c.client i ≠ .finished) →
    ∃ a, a.Regular ∧ a ≠ .main ∧ (c.step a).isSome

/-! ## What a wait is for -/

/-- What a client says of the stock: it wants what it has drawn, and
blocks where that is not there. -/
def Sound (stock : ℤ) : ClientPc → Prop
  | .wants _ val | .notified _ val => Drawn val
  | .asleep _ val => Drawn val ∧ stock < val
  | _ => True

theorem Sound.mono {stock stock' : ℤ} {pc : ClientPc} (h : Sound stock pc)
    (hle : stock' ≤ stock) : Sound stock' pc := by
  cases pc with
  | asleep n val =>
    obtain ⟨hdrawn, hlt⟩ := h
    exact ⟨hdrawn, by omega⟩
  | _ => exact h

/-- Who was notified says nothing of the stock. -/
theorem Sound.notify {stock : ℤ} {pc : ClientPc} (h : Sound stock pc) (stock' : ℤ) :
    Sound stock' pc.notify := by
  cases pc with
  | asleep n val => exact h.1
  | _ => exact h

theorem sound_next (stock : ℤ) (n : ℕ) : Sound stock (.next n) := by
  unfold ClientPc.next
  split <;> trivial

theorem drawn_of_sound (h : ∀ i, Sound c.app.stock (c.client i)) {i : Fin nbClients} {n : ℕ}
    {val : ℤ} (hpc : c.client i = .wants n val ∨ c.client i = .notified n val) : Drawn val := by
  have hi := h i
  rcases hpc with hpc | hpc
  · rwa [hpc] at hi
  · rwa [hpc] at hi

/-- What holds of every client holds after a move of one, if it holds of
where the move leads. -/
theorem forall_update {P : ClientPc → Prop} {client : Fin nbClients → ClientPc}
    {i : Fin nbClients} {pc : ClientPc} (h : ∀ j, P (client j)) (hpc : P pc) :
    ∀ j, P (Function.update client i pc j) :=
  (Function.forall_update_iff client fun _ => P).2 ⟨hpc, fun j _ => h j⟩

/-- **The invariant of the monitor**: the clients are sound, the store
blocks over a full stock and returns at a stop, and where it is blocked no
client is. -/
structure Monitor (c : Config nbClients) : Prop where
  sound : ∀ i, Sound c.app.stock (c.client i)
  full : c.store = .checked false → 10 ≤ c.app.stock
  returned : c.store = .returned → c.app.stop = true
  owed : c.store = .asleep → ∀ i n val, c.client i ≠ .asleep n val

theorem monitor_initial : (initial iniStock : Config nbClients).Monitor where
  sound := fun _ => trivial
  full := by nofun
  returned := by nofun
  owed := by nofun

/-- Every move leaves the clients sound. -/
theorem sound_step (h : ∀ i, Sound c.app.stock (c.client i)) (hreg : a.Regular)
    (hs : Step c a c') : ∀ i, Sound c'.app.stock (c'.client i) := by
  cases hs with
  | refill hpc hstop => exact fun i => (h i).notify _
  | draw hpc => exact forall_update h hreg
  | @take i n val hfree hpc hok =>
    have hdrawn := drawn_of_sound h hpc
    have hle : c.app.stock - val ≤ c.app.stock := by
      have hpos := hdrawn.1
      omega
    exact forall_update (fun j => (h j).mono hle) (sound_next _ n)
  | @wait i n val hfree hpc hok =>
    exact forall_update h ⟨drawn_of_sound h (.inl hpc), hok⟩
  | @waitAgain i n val hfree hpc hok =>
    exact forall_update h ⟨drawn_of_sound h (.inr hpc), hok⟩
  | @wakeClient i n val hpc =>
    have hi := h i
    rw [hpc] at hi
    exact forall_update h hi.1
  | _ => exact h

/-- A client blocks only where a request of it cannot be met, so not over
a full stock. -/
theorem not_asleep_of_full (h : ∀ i, Sound c.app.stock (c.client i)) (hfull : 10 ≤ c.app.stock)
    (i : Fin nbClients) (n : ℕ) (val : ℤ) : c.client i ≠ .asleep n val := by
  intro hpc
  have hi := h i
  rw [hpc] at hi
  obtain ⟨⟨-, hle⟩, hlt⟩ := hi
  omega

theorem notify_ne_asleep (pc : StorePc) : pc.notify ≠ .asleep := by
  cases pc <;> simp [StorePc.notify]

theorem notify_eq_iff {pc pc' : StorePc} (hasleep : pc' ≠ .asleep) (hnotified : pc' ≠ .notified) :
    pc.notify = pc' ↔ pc = pc' := by
  cases pc with
  | asleep => simp [StorePc.notify, Ne.symm hasleep, Ne.symm hnotified]
  | _ => exact Iff.rfl

theorem notify_checked {pc : StorePc} {b : Bool} : pc.notify = .checked b ↔ pc = .checked b :=
  notify_eq_iff (by nofun) (by nofun)

theorem notify_returned {pc : StorePc} : pc.notify = .returned ↔ pc = .returned :=
  notify_eq_iff (by nofun) (by nofun)

theorem next_ne_asleep (n m : ℕ) (val : ℤ) : ClientPc.next n ≠ .asleep m val := by
  unfold ClientPc.next
  split <;> nofun

/-- **One move keeps the invariant**, where nobody waits again over a
store that is blocked. -/
theorem Monitor.step (h : c.Monitor) (hreg : a.Regular) (hawake : c.StoreAwake a)
    (hs : Step c a c') : c'.Monitor := by
  refine ⟨sound_step h.sound hreg hs, ?_, ?_, ?_⟩
  · -- the stock stays full while the store holds the lock
    cases hs with
    | check hpc =>
      intro hfull
      simp only [StorePc.checked.injEq, isStockNotFull, Bool.or_eq_false_iff,
        decide_eq_false_iff_not] at hfull
      exact not_lt.1 hfull.1
    | take hfree hpc hok =>
      intro hfull
      simp only [Config.take] at hfull
      simp [locked, hfull] at hfree
    | wait hfree hpc hok =>
      intro hfull
      exact h.full (notify_checked.1 hfull)
    | notify hmain =>
      intro hfull
      exact h.full (notify_checked.1 hfull)
    | returns | refill | sleep => nofun
    | wakeStore => cases hreg
    | _ => exact h.full
  · -- the store returns at a stop, and nothing takes a stop back
    cases hs with
    | returns hpc hstop => exact fun _ => hstop
    | wait hfree hpc hok =>
      intro hret
      exact h.returned (notify_returned.1 hret)
    | notify hmain =>
      intro hret
      exact h.returned (notify_returned.1 hret)
    | stop hmain hle => exact fun _ => rfl
    | check | refill | sleep => nofun
    | wakeStore => cases hreg
    | _ => exact h.returned
  · -- the store blocks over a full stock, and no client blocks after it unheard
    cases hs with
    | sleep hpc => exact fun _ => not_asleep_of_full h.sound (h.full hpc)
    | draw hpc =>
      exact fun hasleep => forall_update (P := fun pc => ∀ n val, pc ≠ .asleep n val)
        (h.owed hasleep) (by nofun)
    | take hfree hpc hok =>
      exact fun hasleep => forall_update (P := fun pc => ∀ n val, pc ≠ .asleep n val)
        (h.owed hasleep) (next_ne_asleep _)
    | wait hfree hpc hok => exact fun hasleep => absurd hasleep (notify_ne_asleep _)
    | waitAgain hfree hpc hok =>
      -- the branch that could block over a store that is blocked
      have hstore : c.store ≠ .asleep := by
        refine hawake ?_
        simp [waitsAgain, hpc, hok]
      exact fun hasleep => absurd hasleep hstore
    | notify hmain => exact fun hasleep => absurd hasleep (notify_ne_asleep _)
    | check | returns | refill => nofun
    | wakeStore | wakeClient => cases hreg
    | _ => exact h.owed

/-- **Somebody can move** under the invariant: the store unless it is
blocked, and then any client that has not finished. -/
theorem Monitor.live (h : c.Monitor) : c.Live := by
  intro hstop ⟨i, hi⟩
  have hstore : c.store ≠ .asleep → ∃ a, a.Regular ∧ a ≠ .main ∧ (c.step a).isSome := by
    intro hne
    refine ⟨.store, trivial, by nofun, ?_⟩
    change c.stepStore.isSome
    unfold stepStore
    split
    · rfl
    · rfl
    · simp [hstop]
    · rfl
    · next hpc => exact absurd hpc hne
    · next hpc => simp [h.returned hpc] at hstop
  by_cases hasleep : c.store = .asleep
  · have hfree : c.locked = false := by simp [locked, hasleep]
    cases hpc : c.client i with
    | draws n =>
      have hdrawn : Drawn 1 := by decide
      exact ⟨.draw i 1, hdrawn, by nofun, by simp [Config.step, stepDraw, hpc]⟩
    | wants n val =>
      refine ⟨.client i, trivial, by nofun, ?_⟩
      by_cases hok : c.app.isStockOk val <;> simp [Config.step, stepClient, hfree, hpc, hok]
    | asleep n val => exact absurd hpc (h.owed hasleep i n val)
    | notified n val =>
      refine ⟨.client i, trivial, by nofun, ?_⟩
      by_cases hok : c.app.isStockOk val <;> simp [Config.step, stepClient, hfree, hpc, hok]
    | finished => exact absurd hpc hi
  · exact hstore hasleep

/-- **No deadlock where the store is awake for every second wait.** For any
number of clients, any initial stock, any quantities drawn and any order of
the threads' steps, as long as no client that was woken waits again over a
store that is blocked: while `stop` is false and a client has not finished,
the store or a client can move. -/
theorem live_of_storeAwake (nbClients : ℕ) (iniStock : ℤ) (as : List (Act nbClients))
    (c : Config nbClients) (hregular : ∀ a ∈ as, a.Regular)
    (hawake : (stockMachine nbClients).Within StoreAwake (initial iniStock) as)
    (hrun : (stockMachine nbClients).run (initial iniStock) as = some c) : c.Live := by
  have hboth : (stockMachine nbClients).Within (fun c a => a.Regular ∧ c.StoreAwake a)
      (initial iniStock) as := by
    rw [Machine.within_and]
    exact ⟨(Machine.within_forall_iff hrun).2 hregular, hawake⟩
  have hmonitor : c.Monitor :=
    Machine.run_induction Monitor (fun _ _ _ h hok hs => h.step hok.1 hok.2 (.of_step hs))
      monitor_initial hboth hrun
  exact hmonitor.live

/-- A store and clients that are all blocked or at their end have no step,
nor has `main` while it joins one of the blocked. -/
theorem step_eq_none {i : ℕ} (hstore : c.store = .asleep)
    (hclient : ∀ j, c.client j = .finished ∨ ∃ n val, c.client j = .asleep n val)
    (hmain : c.main = .joining i) (hlt : i < nbClients) (hjoin : c.client ⟨i, hlt⟩ ≠ .finished)
    (a : Act nbClients) (hreg : a.Regular) : c.step a = none := by
  cases a with
  | store => simp [Config.step, stepStore, hstore]
  | draw j val => rcases hclient j with hpc | ⟨n, v, hpc⟩ <;> simp [Config.step, stepDraw, hpc]
  | client j => rcases hclient j with hpc | ⟨n, v, hpc⟩ <;> simp [Config.step, stepClient, hpc]
  | main => simp [Config.step, stepMain, hmain, hlt, hjoin]
  | wakeStore | wakeClient => cases hreg

/-- Two clients over a stock of ten, up to the refill that wakes both. -/
def refillRun : List (Act 2) :=
  [.store, .store] ++ (List.replicate 9 [.draw 0 1, .client 0]).flatten ++
    [.draw 0 6, .client 0, .draw 1 6, .client 1, .store, .store]

theorem live_of_storeAwake_refillRun :
    ∃ c : Config 2, (stockMachine 2).run (initial 10) refillRun = some c ∧
      ∃ a, a.Regular ∧ a ≠ .main ∧ (c.step a).isSome :=
  ⟨_, rfl, live_of_storeAwake 2 10 refillRun _ (by decide) (by decide) rfl rfl ⟨1, by decide⟩⟩

/-- Then the store is the first to take the lock, and the client with one
iteration left is the second. -/
def lostWakeRun : List (Act 2) := refillRun ++ [.store, .store, .client 0, .client 1, .main]

/-- **Two clients over a stock of ten are left without a move**: one has
finished, the other is blocked for six where four are left, and so are the
store and `main`. -/
theorem not_live_lostWakeRun :
    (∀ a ∈ lostWakeRun, a.Regular) ∧
    ∃ c : Config 2, (stockMachine 2).run (initial 10) lostWakeRun = some c ∧
      c.app.stop = false ∧ c.app.stock = 4 ∧ c.store = .asleep ∧ c.client 0 = .finished ∧
      c.client 1 = .asleep 0 6 ∧ (∀ a, a.Regular → c.step a = none) ∧ ¬ c.Live := by
  have key : ∀ c : Config 2, c.app.stop = false → c.store = .asleep → c.client 0 = .finished →
      c.client 1 = .asleep 0 6 → c.main = .joining 1 →
      (∀ a, a.Regular → c.step a = none) ∧ ¬ c.Live := by
    intro c hstop hstore h0 h1 hmain
    have hone : c.client 1 ≠ .finished := by simp [h1]
    have hclient : ∀ i, c.client i = .finished ∨ ∃ n val, c.client i = .asleep n val := by
      rw [Fin.forall_fin_two]
      exact ⟨.inl h0, .inr ⟨0, 6, h1⟩⟩
    have hnone := step_eq_none hstore hclient hmain (by decide) hone
    refine ⟨hnone, fun hlive => ?_⟩
    obtain ⟨a, hreg, -, hsome⟩ := hlive hstop ⟨1, hone⟩
    simp [hnone a hreg] at hsome
  exact ⟨by decide, _, rfl, rfl, rfl, rfl, rfl, rfl, key _ rfl rfl rfl rfl rfl⟩

/-! ## Stocks and clients for which nothing is lost -/

/-- Where the initial stock is never full, the store has no reason to
block. -/
structure Low (c : Config nbClients) : Prop where
  sound : ∀ i, Sound c.app.stock (c.client i)
  initialStock : c.app.initialStock < 10
  stock : c.app.stock ≤ c.app.initialStock
  checked : c.store ≠ .checked false
  asleep : c.store ≠ .asleep

theorem Low.step (h : c.Low) (hreg : a.Regular) (hs : Step c a c') : c'.Low := by
  have hsound := sound_step h.sound hreg hs
  have hlow := h.initialStock
  have hstock := h.stock
  cases hs with
  | check hpc =>
    have hnotFull : c.app.isStockNotFull = true := by
      simp only [isStockNotFull, Bool.or_eq_true, decide_eq_true_eq]
      omega
    exact ⟨hsound, hlow, hstock, by simp [hnotFull], by nofun⟩
  | returns => exact ⟨hsound, hlow, hstock, by nofun, by nofun⟩
  | refill => exact ⟨hsound, hlow, le_rfl, by nofun, by nofun⟩
  | sleep hpc =>
    -- a stock below ten is never found full
    exact absurd hpc h.checked
  | @take i n val hfree hpc hok =>
    have hdrawn := drawn_of_sound h.sound hpc
    refine ⟨hsound, hlow, ?_, h.checked, h.asleep⟩
    have hpos := hdrawn.1
    simp only [Config.take]
    omega
  | wait =>
    exact ⟨hsound, hlow, hstock, mt notify_checked.1 h.checked, notify_ne_asleep _⟩
  | notify =>
    exact ⟨hsound, hlow, hstock, mt notify_checked.1 h.checked, notify_ne_asleep _⟩
  | wakeStore | wakeClient => cases hreg
  | _ => exact ⟨hsound, hlow, hstock, h.checked, h.asleep⟩

/-- A client that is alone finds what it was woken for: nobody else takes
from the refill. -/
structure Single (c : Config nbClients) : Prop where
  sound : ∀ i, Sound c.app.stock (c.client i)
  initialStock : 6 ≤ c.app.initialStock
  notified : ∀ i n val, c.client i = .notified n val → val ≤ c.app.stock

theorem Single.step (hone : nbClients ≤ 1) (h : c.Single) (hreg : a.Regular) (hs : Step c a c') :
    c'.Single := by
  have hsound := sound_step h.sound hreg hs
  have hsix := h.initialStock
  -- a move of the client is a move of the only client
  have hupdate : ∀ (i j : Fin nbClients) (pc : ClientPc),
      Function.update c.client i pc j = pc := by
    intro i j pc
    have hij : j = i := by omega
    rw [hij, Function.update_self]
  cases hs with
  | refill hpc hstop =>
    refine ⟨hsound, hsix, fun i n val hi => ?_⟩
    have hle := (drawn_of_sound hsound (.inr hi)).2
    simp only [Config.refill]
    omega
  | @draw i n val hpc =>
    refine ⟨hsound, hsix, fun j m v hj => ?_⟩
    simp only [hupdate] at hj
    cases hj
  | @take i n val hfree hpc hok =>
    refine ⟨hsound, hsix, fun j m v hj => ?_⟩
    simp only [Config.take, hupdate, ClientPc.next] at hj
    split at hj <;> cases hj
  | @wait i n val hfree hpc hok =>
    refine ⟨hsound, hsix, fun j m v hj => ?_⟩
    simp only [hupdate] at hj
    cases hj
  | @waitAgain i n val hfree hpc hok =>
    -- the refill the client was woken by is still there
    have hle := h.notified i n val hpc
    omega
  | wakeStore | wakeClient => cases hreg
  | _ => exact ⟨hsound, hsix, h.notified⟩

/-- **No deadlock at all** over a stock that is never full, or with one
client. -/
theorem live_of_small (hsmall : iniStock < 10 ∨ nbClients ≤ 1 ∧ 6 ≤ iniStock)
    (hregular : ∀ a ∈ as, a.Regular)
    (hrun : (stockMachine nbClients).run (initial iniStock) as = some c) : c.Live := by
  have hok := (Machine.within_forall_iff (P := Act.Regular) hrun).2 hregular
  suffices hawake : (stockMachine nbClients).Within StoreAwake (initial iniStock) as from
    (Machine.run_induction Monitor (fun _ _ _ h hok hs => h.step hok.1 hok.2 (.of_step hs))
      monitor_initial (Machine.within_and.2 ⟨hok, hawake⟩) hrun).live
  rcases hsmall with hlow | ⟨hone, hsix⟩
  · have hinitial : (initial iniStock : Config nbClients).Low :=
      ⟨fun _ => trivial, hlow, le_rfl, by nofun, by nofun⟩
    refine (Machine.within_congr Low (fun _ _ _ h hreg hs => h.step hreg (.of_step hs)) ?_ hinitial
      hok hrun).2 Machine.within_true
    intro c a c' h hreg hs
    refine iff_true_intro ?_
    cases a with
    | client i => exact fun _ => h.asleep
    | _ => trivial
  · have hinitial : (initial iniStock : Config nbClients).Single :=
      ⟨fun _ => trivial, hsix, by nofun⟩
    refine (Machine.within_congr Single (fun _ _ _ h hreg hs => h.step hone hreg (.of_step hs)) ?_
      hinitial hok hrun).2 Machine.within_true
    intro c a c' h hreg hs
    refine iff_true_intro ?_
    cases a with
    | client i =>
      intro hwaits
      cases hpc : c.client i with
      | notified n val =>
        have hle := h.notified i n val hpc
        simp only [waitsAgain, hpc, decide_eq_true_eq] at hwaits
        omega
      | _ => simp [waitsAgain, hpc] at hwaits
    | _ => trivial

end Config

end Application

end VireSandbox
