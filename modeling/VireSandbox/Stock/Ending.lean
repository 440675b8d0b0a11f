import Mathlib.Tactic.Ring
import VireSandbox.Stock.Accounts
import VireSandbox.Stock.Shutdown
/-!
# The stock — how a run ends

Over a base of ten or more the threads do so much and no more: a refill
needs the stock to have gone down, and it goes down by what the clients
still have to take. Over a base below ten the store refills for ever
(`bounded_iff`). A run that cannot be continued has come to one of three
ends (`ended_iff`): `main` has returned; or clients wait for a store that
is blocked; or `main` joins one that is. The last two are where a
notification was not made, and where it was not heard.
-/

namespace VireSandbox

namespace Application

/-! ## What is left to do -/

/-- What a client can still take, of six in each iteration. -/
def ClientPc.units : ClientPc → ℕ
  | .draws n => 6 * (10 - n)
  | .wants n val | .asleep n val | .notified n val => 6 * (9 - n) + val.toNat
  | .finished => 0

/-- The moves a client has left while nothing is refilled. It has to pay for
those of the store it wakes. -/
def ClientPc.moves : ClientPc → ℕ
  | .draws n => 8 * (9 - n) + 8
  | .wants n _ => 8 * (9 - n) + 7
  | .asleep n _ => 8 * (9 - n) + 2
  | .notified n _ => 8 * (9 - n) + 3
  | .finished => 0

/-- The moves the store has left before it blocks or refills. -/
def StorePc.moves : StorePc → ℕ
  | .entry | .notified => 3
  | .checked true => 2
  | .checked false => 1
  | .asleep | .returned => 0

/-- The moves `main` has left. -/
def MainPc.moves (nbClients : ℕ) : MainPc → ℕ
  | .joining i => nbClients - i + 6
  | .stopping => 5
  | .joinStore => 1
  | .returned => 0

@[simp] theorem units_notify (pc : ClientPc) : pc.notify.units = pc.units := by
  cases pc <;> rfl

theorem units_next {n : ℕ} (hn : n < 10) : (ClientPc.next n).units = 6 * (9 - n) := by
  unfold ClientPc.next
  split
  · change 6 * (10 - (n + 1)) = 6 * (9 - n)
    omega
  · change 0 = 6 * (9 - n)
    omega

theorem moves_notify_le (pc : ClientPc) : pc.notify.moves ≤ pc.moves + 1 := by
  cases pc with
  | asleep n val => exact le_rfl
  | _ => exact Nat.le_succ _

theorem moves_next_le (n : ℕ) : (ClientPc.next n).moves ≤ 8 * (9 - n) := by
  unfold ClientPc.next
  split
  · change 8 * (9 - (n + 1)) + 8 ≤ 8 * (9 - n)
    omega
  · exact Nat.zero_le _

theorem moves_notify_store_le (pc : StorePc) : pc.notify.moves ≤ pc.moves + 3 := by
  cases pc with
  | asleep => exact le_rfl
  | _ => exact Nat.le_add_right _ 3

namespace Config

variable {nbClients : ℕ} {c c' : Config nbClients} {a : Act nbClients}
variable {as : List (Act nbClients)} {iniStock : ℤ}

/-- What can still be taken before the last refill: by the clients, and of
what is missing from the stock. -/
def units (c : Config nbClients) : ℕ :=
  ∑ i, (c.client i).units + (c.app.initialStock - c.app.stock).toNat

/-- The moves left while nothing is refilled. -/
def moves (c : Config nbClients) : ℕ :=
  ∑ i, (c.client i).moves + c.store.moves + c.main.moves nbClients

theorem units_moved (c : Config nbClients) (i : Fin nbClients) (pc : ClientPc) :
    ∑ j, (Function.update c.client i pc j).units + (c.client i).units =
      ∑ j, (c.client j).units + pc.units :=
  Tally.sum_moved ..

theorem moves_moved (c : Config nbClients) (i : Fin nbClients) (pc : ClientPc) :
    ∑ j, (Function.update c.client i pc j).moves + (c.client i).moves =
      ∑ j, (c.client j).moves + pc.moves :=
  Tally.sum_moved ..

/-- What the books of a run say, over a base of ten or more. -/
structure Booked (iniStock : ℤ) (c : Config nbClients) : Prop where
  clients : c.ClientBooks
  store : c.StoreBooks
  account : c.Accounted iniStock

theorem booked_initial : (initial iniStock : Config nbClients).Booked iniStock :=
  ⟨clientBooks_initial, storeBooks_initial, accounted_initial⟩

theorem Act.Regular.positive (h : a.Regular) : a.Positive := by
  cases a with
  | draw i val => exact h.1
  | _ => trivial

theorem Booked.step (h : c.Booked iniStock) (hreg : a.Regular) (hs : Step c a c') :
    c'.Booked iniStock :=
  ⟨h.clients.step hs, h.store.step hs, h.account.step (Act.Regular.positive hreg) hs⟩

/-- A client that moves inside its iteration, for what it wants. -/
theorem levels_of_client {i : Fin nbClients} {pc pc' : ClientPc} {store : StorePc}
    (hpc : c.client i = pc) (hunits : pc'.units ≤ pc.units)
    (hmoves : pc'.moves + store.moves < pc.moves + c.store.moves) :
    units ⟨c.app, store, Function.update c.client i pc', c.main, c.log⟩ ≤ c.units ∧
      moves ⟨c.app, store, Function.update c.client i pc', c.main, c.log⟩ < c.moves := by
  subst hpc
  have hu := units_moved c i pc'
  have hm := moves_moved c i pc'
  simp only [units, moves]
  constructor
  · omega
  · omega

/-- **A regular move lowers what is left**: the moves left, or what can be
taken, and then the clients and the store are up again. -/
theorem Step.levels (hten : 10 ≤ iniStock) (h : c.Booked iniStock) (hreg : a.Regular)
    (hs : Step c a c') :
    c'.units ≤ c.units ∧ c'.moves < c.moves ∨
      c'.units < c.units ∧ c'.moves ≤ c.moves + (nbClients + 1) := by
  have hstock := h.account.ledger.bounds (by omega) le_rfl
  have hinitial := h.account.initialStock
  cases hs with
  | check hpc =>
    refine .inl ⟨le_rfl, ?_⟩
    rcases hpc with hpc | hpc <;> cases hfull : c.app.isStockNotFull <;>
      simp [moves, hpc, StorePc.moves]
  | returns hpc hstop =>
    refine .inl ⟨le_rfl, ?_⟩
    simp [moves, hpc, StorePc.moves]
  | refill hpc hstop =>
    -- the one move that raises the lower level
    have hlow : c.app.stock < 10 := (h.store.checked hpc).resolve_right (by simp [hstop])
    have hup : ∑ i, (c.client i).notify.moves ≤ ∑ i, (c.client i).moves + nbClients := by
      calc ∑ i, (c.client i).notify.moves
          ≤ ∑ i, ((c.client i).moves + 1) := Finset.sum_le_sum fun i _ => moves_notify_le _
        _ = ∑ i, (c.client i).moves + nbClients := by simp [Finset.sum_add_distrib]
    refine .inr ⟨?_, ?_⟩
    · simp only [units, Config.refill, units_notify]
      omega
    · simp only [moves, Config.refill, hpc, StorePc.moves]
      omega
  | sleep hpc =>
    refine .inl ⟨le_rfl, ?_⟩
    simp [moves, hpc, StorePc.moves]
  | @draw i n val hpc =>
    have hn : n < 10 := by
      have hi := h.clients.inLoop i
      rwa [hpc] at hi
    have hval := hreg.2
    refine .inl (levels_of_client hpc ?_ ?_)
    · simp only [ClientPc.units]
      omega
    · simp only [ClientPc.moves]
      omega
  | @take i n val hfree hpc hok =>
    have hval := one_le_of_positive h.account.positive (or_assoc.1 (.inl hpc))
    have hbooks : n < 10 ∧ (c.client i).units = 6 * (9 - n) + val.toNat ∧
        8 * (9 - n) < (c.client i).moves := by
      have hi := h.clients.inLoop i
      rcases hpc with hpc | hpc <;> rw [hpc] at hi ⊢ <;> refine ⟨hi, rfl, ?_⟩ <;>
        simp [ClientPc.moves]
    obtain ⟨hn, hunits, hmoves⟩ := hbooks
    have hu := units_moved c i (.next n)
    have hm := moves_moved c i (.next n)
    have hnext := moves_next_le n
    rw [hunits, units_next hn] at hu
    refine .inl ⟨?_, ?_⟩
    · simp only [units, Config.take]
      omega
    · simp only [moves, Config.take]
      omega
  | wait hfree hpc hok =>
    have hstore := moves_notify_store_le c.store
    refine .inl (levels_of_client hpc le_rfl ?_)
    simp only [ClientPc.moves]
    omega
  | waitAgain hfree hpc hok =>
    refine .inl (levels_of_client hpc le_rfl ?_)
    simp only [ClientPc.moves]
    omega
  | join hmain hlt hpc =>
    refine .inl ⟨le_rfl, ?_⟩
    simp only [moves, hmain, MainPc.moves]
    omega
  | stop hmain hle =>
    refine .inl ⟨le_rfl, ?_⟩
    simp only [moves, hmain, MainPc.moves]
    omega
  | notify hmain =>
    have hstore := moves_notify_store_le c.store
    refine .inl ⟨le_rfl, ?_⟩
    simp only [moves, hmain, MainPc.moves]
    omega
  | joinStore hmain hpc =>
    refine .inl ⟨le_rfl, ?_⟩
    simp [moves, hmain, MainPc.moves]
  | wakeStore | wakeClient => cases hreg

/-- What is left at the start. -/
theorem left_initial :
    (nbClients + 1 + 1) * (initial iniStock : Config nbClients).units +
      (initial iniStock : Config nbClients).moves = 60 * nbClients ^ 2 + 201 * nbClients + 9 := by
  simp only [units, moves, initial, new, ClientPc.units, ClientPc.moves, StorePc.moves,
    MainPc.moves, Finset.sum_const, Finset.card_univ, Fintype.card_fin, smul_eq_mul, sub_self,
    Int.toNat_zero]
  have hmain : nbClients - 0 = nbClients := rfl
  rw [hmain]
  ring

/-- **So much and no more**, over a base of ten or more. -/
theorem length_le (hten : 10 ≤ iniStock) (hregular : ∀ a ∈ as, a.Regular)
    (hrun : (stockMachine nbClients).run (initial iniStock) as = some c) :
    as.length ≤ 60 * nbClients ^ 2 + 201 * nbClients + 9 := by
  have hle := Machine.length_add_le_of_levels (r := nbClients + 1)
    (fun _ _ _ h hreg hs => Booked.step h hreg (.of_step hs))
    (fun _ _ _ h hreg hs => Step.levels hten h hreg (.of_step hs)) booked_initial
    ((Machine.within_forall_iff hrun).2 hregular) hrun
  rw [left_initial] at hle
  omega

/-- Over less than ten the store finds the stock low again after each
refill. -/
theorem refills_again (hbase : c.app.initialStock < 10) (hpc : c.store = .entry)
    (hstop : c.app.stop = false) (hstock : c.app.stock < 10) (k : ℕ) :
    ∃ c', (stockMachine nbClients).run c (List.replicate (2 * k) .store) = some c' := by
  induction k generalizing c with
  | zero => exact ⟨c, rfl⟩
  | succ k ih =>
    have hcheck : (stockMachine nbClients).step c .store =
        some { c with store := .checked true } := by
      simp [stockMachine, Config.step, stepStore, hpc, isStockNotFull, hstock]
    have hrefill : (stockMachine nbClients).step { c with store := .checked true } .store =
        some (Config.refill { c with store := .checked true }) := by
      simp [stockMachine, Config.step, stepStore, hstop]
    obtain ⟨c', hrun⟩ := ih (c := Config.refill { c with store := .checked true }) hbase rfl hstop hbase
    refine ⟨c', ?_⟩
    rw [Nat.mul_succ, List.replicate_succ, List.replicate_succ, Machine.run_cons hcheck,
      Machine.run_cons hrefill, hrun]

/-- **The threads come to an end exactly over a base of ten or more.** For
any number of clients: the runs without spurious wakeups, whatever is drawn
and whoever moves, are of bounded length if and only if the initial stock is
ten or more, and then none is longer than `60 n² + 201 n + 9`. -/
theorem bounded_iff (nbClients : ℕ) (iniStock : ℤ) :
    ((∃ bound, ∀ as c, (∀ a ∈ as, a.Regular) →
        (stockMachine nbClients).run (initial iniStock) as = some c → as.length ≤ bound) ↔
      10 ≤ iniStock) ∧
    (10 ≤ iniStock → ∀ as c, (∀ a ∈ as, a.Regular) →
      (stockMachine nbClients).run (initial iniStock) as = some c →
      as.length ≤ 60 * nbClients ^ 2 + 201 * nbClients + 9) := by
  refine ⟨⟨fun ⟨bound, hbound⟩ => ?_, fun hten => ⟨_, fun as c => length_le hten⟩⟩,
    fun hten as c => length_le hten⟩
  by_contra hlow
  have hbase : iniStock < 10 := by omega
  obtain ⟨c, hrun⟩ := refills_again (c := (initial iniStock : Config nbClients)) hbase rfl rfl hbase
    (bound + 1)
  have hle := hbound _ c (fun a ha => by rw [List.eq_of_mem_replicate ha]; trivial) hrun
  rw [List.length_replicate] at hle
  omega

/-! ## Where a run cannot be continued -/

/-- No thread can move. -/
def Ended (c : Config nbClients) : Prop := ∀ a : Act nbClients, a.Regular → c.step a = none

/-- **Closed**: `main` has joined every thread and returned. -/
structure Closed (c : Config nbClients) : Prop where
  main : c.main = .returned
  clients : ∀ i, c.client i = .finished
  store : c.store = .returned

/-- **Starved**: the store is blocked, and every client that has not finished
is blocked for more than there is. `main` joins one of them. -/
structure Starved (c : Config nbClients) : Prop where
  main : ∃ i : Fin nbClients, c.main = .joining i ∧ c.client i ≠ .finished
  clients : ∀ i, c.client i = .finished ∨
    ∃ n val, c.client i = .asleep n val ∧ Drawn val ∧ c.app.stock < val
  store : c.store = .asleep
  stop : c.app.stop = false

/-- **Deaf**: `main` joins a store that is blocked, past the notification
that was to wake it. -/
structure Deaf (c : Config nbClients) : Prop where
  main : c.main = .joinStore
  clients : ∀ i, c.client i = .finished
  store : c.store = .asleep
  stop : c.app.stop = true

/-- What is known of every state of a run, for its end. -/
structure Placed (c : Config nbClients) : Prop where
  sound : ∀ i, Sound c.app.stock (c.client i)
  clients : c.ClientBooks
  store : c.StoreBooks
  stop : c.app.stop = true ↔ c.main = .stopping ∨ c.Stopped

theorem placed_initial : (initial iniStock : Config nbClients).Placed where
  sound := fun _ => trivial
  clients := clientBooks_initial
  store := storeBooks_initial
  stop := by simp [initial, new, Stopped]

/-- Only `Stop` sets `stop`. -/
theorem stop_step (h : c.app.stop = true ↔ c.main = .stopping ∨ c.Stopped) (hs : Step c a c') :
    c'.app.stop = true ↔ c'.main = .stopping ∨ c'.Stopped := by
  cases hs with
  | join hmain => simpa [hmain, Stopped] using h
  | stop hmain => simp [Stopped]
  | notify hmain => simpa [hmain, Stopped] using h
  | joinStore hmain => simpa [hmain, Stopped] using h
  | _ => exact h

theorem Placed.step (h : c.Placed) (hreg : a.Regular) (hs : Step c a c') : c'.Placed :=
  ⟨sound_step h.sound hreg hs, h.clients.step hs, h.store.step hs, stop_step h.stop hs⟩

theorem placed_run (hregular : ∀ a ∈ as, a.Regular)
    (hrun : (stockMachine nbClients).run (initial iniStock) as = some c) : c.Placed :=
  Machine.run_induction Placed (fun _ _ _ h hreg hs => h.step hreg (.of_step hs)) placed_initial
    ((Machine.within_forall_iff hrun).2 hregular) hrun

/-- A store that cannot move is blocked or has returned. -/
theorem Ended.store (h : c.Ended) : c.store = .asleep ∨ c.store = .returned := by
  have hnone : c.stepStore = none := h .store trivial
  unfold stepStore at hnone
  split at hnone
  · cases hnone
  · cases hnone
  · split at hnone <;> cases hnone
  · cases hnone
  · next hpc => exact .inl hpc
  · next hpc => exact .inr hpc

/-- A client that cannot move is blocked or has finished. -/
theorem Ended.client (h : c.Ended) (i : Fin nbClients) :
    c.client i = .finished ∨ ∃ n val, c.client i = .asleep n val := by
  have hfree : c.locked = false := by
    rcases h.store with hpc | hpc <;> simp [locked, hpc]
  have hnone : c.stepClient i = none := h (.client i) trivial
  cases hpc : c.client i with
  | draws n =>
    have hdraw : c.stepDraw i 1 = none := h (.draw i 1) (show Drawn 1 by decide)
    simp [stepDraw, hpc] at hdraw
  | wants n val =>
    by_cases hok : c.app.isStockOk val <;> simp [stepClient, hfree, hpc, hok] at hnone
  | notified n val =>
    by_cases hok : c.app.isStockOk val <;> simp [stepClient, hfree, hpc, hok] at hnone
  | asleep n val => exact .inr ⟨n, val, rfl⟩
  | finished => exact .inl rfl

/-- **The three ends.** -/
theorem Placed.of_ended (h : c.Placed) (hend : c.Ended) : c.Closed ∨ c.Starved ∨ c.Deaf := by
  have hstop := h.stop
  have hjoined := h.clients.joined
  have hmain : c.stepMain = none := hend .main trivial
  unfold stepMain at hmain
  split at hmain
  · next i hpc =>
    split at hmain
    · next hlt =>
      split at hmain
      · cases hmain
      · next hne =>
        -- a client that has not finished, and `stop` not set
        have hunset : c.app.stop = false := by
          rw [← Bool.not_eq_true, hstop]
          simp [hpc, Stopped]
        have hstore : c.store = .asleep := by
          rcases hend.store with hstore | hstore
          · exact hstore
          · rw [h.store.returned hstore] at hunset
            cases hunset
        refine .inr (.inl ⟨⟨⟨i, hlt⟩, hpc, hne⟩, fun j => ?_, hstore, hunset⟩)
        refine (hend.client j).imp_right fun ⟨n, val, hj⟩ => ?_
        have hsound := h.sound j
        rw [hj] at hsound
        exact ⟨n, val, hj, hsound⟩
    · cases hmain
  · cases hmain
  · next hpc =>
    split at hmain
    · cases hmain
    · next hne =>
      simp only [Joined, hpc] at hjoined
      exact .inr (.inr ⟨hpc, hjoined, hend.store.resolve_right hne,
        hstop.2 (.inr (.inl hpc))⟩)
  · next hpc =>
    simp only [Joined, hpc] at hjoined
    exact .inl ⟨hpc, hjoined, h.store.closed hpc⟩

theorem ended_of_main (hmain : c.stepMain = none) (hstore : c.stepStore = none)
    (hclients : ∀ i, c.client i = .finished ∨ ∃ n val, c.client i = .asleep n val) : c.Ended := by
  intro a hreg
  cases a with
  | store => exact hstore
  | main => exact hmain
  | draw i val =>
    rcases hclients i with hpc | ⟨n, v, hpc⟩ <;> simp [Config.step, stepDraw, hpc]
  | client i =>
    rcases hclients i with hpc | ⟨n, v, hpc⟩ <;> simp [Config.step, stepClient, hpc]
  | wakeStore | wakeClient => cases hreg

theorem Closed.ended (h : c.Closed) : c.Ended :=
  ended_of_main (by simp [stepMain, h.main]) (by simp [stepStore, h.store])
    fun i => .inl (h.clients i)

theorem Starved.ended (h : c.Starved) : c.Ended := by
  obtain ⟨i, hmain, hne⟩ := h.main
  refine ended_of_main ?_ (by simp [stepStore, h.store]) fun j => ?_
  · simp [stepMain, hmain, hne]
  · rcases h.clients j with hpc | ⟨n, val, hpc, -⟩
    · exact .inl hpc
    · exact .inr ⟨n, val, hpc⟩

theorem Deaf.ended (h : c.Deaf) : c.Ended :=
  ended_of_main (by simp [stepMain, h.main, h.store]) (by simp [stepStore, h.store])
    fun i => .inl (h.clients i)

/-- **How a run ends.** For any number of clients, any initial stock, any
quantities drawn and any order of the threads' steps: a run can go no
further exactly where it is closed, starved or deaf. It is not starved if
the store was awake for every second wait, and not deaf if it heard the
notification of `Stop`; so a run that kept both and goes no further has
`main` returned. -/
theorem ended_iff (nbClients : ℕ) (iniStock : ℤ) (as : List (Act nbClients)) (c : Config nbClients)
    (hregular : ∀ a ∈ as, a.Regular)
    (hrun : (stockMachine nbClients).run (initial iniStock) as = some c) :
    (c.Ended ↔ c.Closed ∨ c.Starved ∨ c.Deaf) ∧
      ((stockMachine nbClients).Within StoreAwake (initial iniStock) as → ¬ c.Starved) ∧
      ((stockMachine nbClients).Within Heard (initial iniStock) as → ¬ c.Deaf) := by
  have hplaced := placed_run hregular hrun
  have hreg := (Machine.within_forall_iff (P := Act.Regular) hrun).2 hregular
  refine ⟨⟨hplaced.of_ended, ?_⟩, fun hawake hstarved => ?_, fun hheard hdeaf => ?_⟩
  · rintro (h | h | h)
    · exact h.ended
    · exact h.ended
    · exact h.ended
  · have hmonitor : c.Monitor :=
      Machine.run_induction Monitor (fun _ _ _ h hok hs => h.step hok.1 hok.2 (.of_step hs))
        monitor_initial (Machine.within_and.2 ⟨hreg, hawake⟩) hrun
    obtain ⟨i, -, hne⟩ := hstarved.main
    rcases hstarved.clients i with hpc | ⟨n, val, hpc, -⟩
    · exact hne hpc
    · exact hmonitor.owed hstarved.store i n val hpc
  · have hshutdown : c.Shutdown :=
      Machine.run_induction Shutdown (fun _ _ _ h hok hs => h.step hok (.of_step hs))
        shutdown_initial hheard hrun
    exact (hshutdown.awake (.inl hdeaf.main)).2 hdeaf.store

/-- The run of one client to the end of `main` is closed. -/
theorem ended_iff_wholeRun :
    ∃ c : Config 1, (stockMachine 1).run (initial 20) wholeRun = some c ∧ c.Ended :=
  ⟨_, rfl, (ended_iff 1 20 wholeRun _ (by decide) rfl).1.2 (.inl ⟨rfl, by decide, rfl⟩)⟩

end Config

end Application

end VireSandbox
