import VireSandbox.Stock.Progress
/-!
# The stock — the shutdown of the store

`Stop` writes `stop` and notifies the store without `stock_lock`, so that
both can fall between the store's evaluation of `Is_Stock_Not_Full` and
its wait. The write alone does no harm there, since the notification is
still to come. The notification does: nobody waits on `store_cond` yet,
and the store blocks after it (`lost_of_unheard`). Where the store is not
in between, it is woken, or evaluates `stop` in time, and `main` joins it
(`joined_of_heard`).
-/

namespace VireSandbox

namespace Application

namespace Config

variable {nbClients : ℕ} {c c' : Config nbClients} {a : Act nbClients}
variable {as : List (Act nbClients)} {iniStock : ℤ}

/-- `Stop` has returned. -/
def Stopped (c : Config nbClients) : Prop := c.main = .joinStore ∨ c.main = .returned

/-- The store is blocked on `store_cond` and `Stop` has made its one
notification. -/
def Lost (c : Config nbClients) : Prop := c.Stopped ∧ c.store = .asleep

/-- `Stop` does not notify between the store's evaluation of
`Is_Stock_Not_Full` and its wait. -/
def Heard (c : Config nbClients) : Act nbClients → Prop
  | .main => c.main = .stopping → c.store ≠ .checked false
  | _ => True

instance decidableHeard (c : Config nbClients) : ∀ a, Decidable (c.Heard a)
  | .main => inferInstanceAs (Decidable (_ → _))
  | .store | .draw _ _ | .client _ | .wakeStore | .wakeClient _ => isTrue trivial

/-- **The invariant of a shutdown**: `stop` is set from its write on, the
store returns at nothing else, and past the notification it neither blocks
nor is about to. -/
structure Shutdown (c : Config nbClients) : Prop where
  stop : c.main = .stopping ∨ c.Stopped → c.app.stop = true
  returned : c.store = .returned → c.app.stop = true
  awake : c.Stopped → c.store ≠ .checked false ∧ c.store ≠ .asleep

theorem shutdown_initial : (initial iniStock : Config nbClients).Shutdown where
  stop := by rintro (h | h | h) <;> cases h
  returned := nofun
  awake := by rintro (h | h) <;> cases h

/-- A notification leaves alone what is not blocked. -/
theorem notify_awake {pc : StorePc} (h : pc ≠ .checked false) :
    pc.notify ≠ .checked false ∧ pc.notify ≠ .asleep :=
  ⟨mt notify_checked.1 h, notify_ne_asleep pc⟩

/-- **One move keeps the invariant**, where the notification is heard. -/
theorem Shutdown.step (h : c.Shutdown) (hheard : c.Heard a) (hs : Step c a c') :
    c'.Shutdown := by
  obtain ⟨hstop, hreturned, hawake⟩ := h
  cases hs with
  | check hpc =>
    refine ⟨hstop, by simp, fun hstopped => ⟨?_, by simp⟩⟩
    -- the store finds `stop`
    simp [isStockNotFull, hstop (.inr hstopped)]
  | returns hpc hset => exact ⟨hstop, fun _ => hset, by simp⟩
  | refill => exact ⟨hstop, by simp [refill], by simp [refill]⟩
  | sleep hpc => exact ⟨hstop, by simp, fun hstopped => absurd hpc (hawake hstopped).1⟩
  | wait =>
    exact ⟨hstop, fun hret => hreturned (notify_returned.1 hret),
      fun hstopped => notify_awake (hawake hstopped).1⟩
  | join hmain =>
    refine ⟨?_, hreturned, ?_⟩
    · rintro (h | h | h) <;> cases h
    · rintro (h | h) <;> cases h
  | stop hmain =>
    refine ⟨fun _ => rfl, fun _ => rfl, ?_⟩
    rintro (h | h) <;> cases h
  | notify hmain =>
    have hset : c.app.stop = true := hstop (.inl hmain)
    exact ⟨fun _ => hset, fun _ => hset, fun _ => notify_awake (hheard hmain)⟩
  | joinStore hmain hpc =>
    have hset : c.app.stop = true := hreturned hpc
    exact ⟨fun _ => hset, fun _ => hset, fun _ => hawake (.inl hmain)⟩
  | wakeStore hpc => exact ⟨hstop, by simp, by simp⟩
  | _ => exact ⟨hstop, hreturned, hawake⟩

/-! ## The join of the store -/

/-- The store and `main` alone can run on until `main` has joined the
store. -/
def Joinable (c : Config nbClients) : Prop :=
  ∃ bs c', (∀ b ∈ bs, b = .store ∨ b = .main) ∧ (stockMachine nbClients).run c bs = some c' ∧
    c'.main = .returned

/-- `main` joins a store that has returned. -/
theorem joins_of_returned (hmain : c.Stopped) (hpc : c.store = .returned) : c.Joinable := by
  rcases hmain with hmain | hmain
  · have hstep : (stockMachine nbClients).step c .main = some { c with main := .returned } := by
      simp [stockMachine, Config.step, stepMain, hmain, hpc]
    exact ⟨[.main], _, by simp, by rw [Machine.run_cons hstep, Machine.run_nil], rfl⟩
  · exact ⟨[], c, by simp, rfl, hmain⟩

/-- A step of the store goes in front. -/
theorem joins_of_step (hstep : c.stepStore = some c') (h : c'.Joinable) : c.Joinable := by
  obtain ⟨bs, c'', hbs, hrun, hret⟩ := h
  refine ⟨.store :: bs, c'', ?_, ?_, hret⟩
  · rw [List.forall_mem_cons]
    exact ⟨.inl rfl, hbs⟩
  · have hstore : (stockMachine nbClients).step c .store = some c' := hstep
    rw [Machine.run_cons hstore, hrun]

/-- A store that holds the lock and has found `stop` returns. -/
theorem joins_of_checked (hmain : c.Stopped) (hset : c.app.stop = true)
    (hpc : c.store = .checked true) : c.Joinable := by
  have hstep : c.stepStore = some { c with store := .returned } := by
    simp [stepStore, hpc, hset]
  exact joins_of_step hstep (joins_of_returned hmain rfl)

/-- **The store returns and `main` joins it**, the two alone. -/
theorem Shutdown.joins (h : c.Shutdown) (hmain : c.Stopped) : c.Joinable := by
  have hset : c.app.stop = true := h.stop (.inr hmain)
  have hfull : c.app.isStockNotFull = true := by simp [isStockNotFull, hset]
  have hcheck : c.store = .entry ∨ c.store = .notified →
      c.stepStore = some { c with store := .checked true } := by
    rintro (hpc | hpc) <;> simp [stepStore, hpc, hfull]
  cases hpc : c.store with
  | entry => exact joins_of_step (hcheck (.inl hpc)) (joins_of_checked hmain hset rfl)
  | checked notFull =>
    cases notFull with
    | true => exact joins_of_checked hmain hset hpc
    | false => exact absurd hpc (h.awake hmain).1
  | asleep => exact absurd hpc (h.awake hmain).2
  | notified => exact joins_of_step (hcheck (.inr hpc)) (joins_of_checked hmain hset rfl)
  | returned => exact joins_of_returned hmain hpc

/-- **A shutdown that is heard is not lost.** For any number of clients,
any initial stock, any quantities and any order of the threads' steps,
spurious wakeups included, as long as `Stop` does not notify while the
store is between its evaluation and its wait: once `Stop` has returned, no
state has the store blocked on `store_cond`, and from each the store and
`main` can move on until `main` has joined it. -/
theorem joined_of_heard (nbClients : ℕ) (iniStock : ℤ) (as : List (Act nbClients))
    (c : Config nbClients)
    (hheard : (stockMachine nbClients).Within Heard (initial iniStock) as)
    (hrun : (stockMachine nbClients).run (initial iniStock) as = some c) (hmain : c.Stopped) :
    ¬ c.Lost ∧ c.Joinable := by
  have hshutdown : c.Shutdown :=
    Machine.run_induction Shutdown (fun _ _ _ h hok hs => h.step hok (.of_step hs))
      shutdown_initial hheard hrun
  exact ⟨fun hlost => (hshutdown.awake hmain).2 hlost.2, hshutdown.joins hmain⟩

/-- **What is not heard is lost**: the notification falls in between, and
the store blocks after it. -/
theorem lost_of_unheard (hmain : c.main = .stopping) (hpc : c.store = .checked false) :
    ∃ c', (stockMachine nbClients).run c [.main, .store] = some c' ∧ c'.Lost := by
  have hnotify : (stockMachine nbClients).step c .main = some { c with main := .joinStore } := by
    simp [stockMachine, Config.step, stepMain, hmain, hpc, StorePc.notify]
  have hsleep : (stockMachine nbClients).step { c with main := .joinStore } .store =
      some { c with main := .joinStore, store := .asleep } := by
    simp [stockMachine, Config.step, stepStore, hpc]
  exact ⟨_, by rw [Machine.run_cons hnotify, Machine.run_cons hsleep, Machine.run_nil],
    .inl rfl, rfl⟩

/-- One client over a stock of twenty takes ten and is joined, with the
store yet to take the lock for the first time. -/
def servedRun : List (Act 1) :=
  (List.replicate 10 [.draw 0 1, .client 0]).flatten ++ [.main]

/-- The store has blocked before it is notified. -/
def heardRun : List (Act 1) := servedRun ++ [.store, .store, .main, .main]

theorem joined_of_heard_heardRun :
    ∃ c : Config 1, (stockMachine 1).run (initial 20) heardRun = some c ∧ ¬ c.Lost ∧
      c.Joinable :=
  ⟨_, rfl, joined_of_heard 1 20 heardRun _ (by decide) rfl (.inl rfl)⟩

/-- The store has found the stock full, and `Stop` runs before it
blocks. -/
def lostRun : List (Act 1) := servedRun ++ [.store, .main, .main, .store]

/-- **The notification is lost**: every client has finished, `Stop` has
returned, the store is blocked, and neither it nor `main` has a step. -/
theorem not_joined_lostRun :
    (∀ a ∈ lostRun, a.Regular) ∧
    ∃ c : Config 1, (stockMachine 1).run (initial 20) lostRun = some c ∧
      (∀ i, c.client i = .finished) ∧ c.main = .joinStore ∧ c.app.stop = true ∧
      c.app.stock = 10 ∧ c.store = .asleep ∧ c.Lost ∧
      c.step .store = none ∧ c.step .main = none :=
  ⟨by decide, _, rfl, by decide, rfl, rfl, rfl, rfl, ⟨.inl rfl, rfl⟩, rfl, rfl⟩

end Config

end Application

end VireSandbox
