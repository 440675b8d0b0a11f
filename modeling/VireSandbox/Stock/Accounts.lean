import Mathlib.Algebra.BigOperators.Fin
import Mathlib.Algebra.Order.BigOperators.Group.Finset
import Mathlib.Algebra.Order.BigOperators.Group.List
import VireSandbox.Common.Tally
import VireSandbox.Stock.Balance
/-!
# The stock — the accounts of a run

What the clients take is what they drew, up to what is still wanted: no
request is lost, made twice or changed by a wait. A run that `main` has
come to the end of is closed, with every client through its ten
iterations and the store returned (`accounts_of_returned`). And what was
handed out bounds the refills of an initial stock of ten or more: each
finds the stock below ten (`refills_le`).
-/

namespace VireSandbox

namespace Application

/-! ## The amounts -/

/-- The quantities taken, in their order. -/
def takes (log : List Event) : List ℤ :=
  log.filterMap fun
    | .take val _ => some val
    | .refill _ => none

/-- The stocks the refills found. -/
def refills (log : List Event) : List ℤ :=
  log.filterMap fun
    | .take _ _ => none
    | .refill stock => some stock

/-- The quantity a client has drawn and not taken yet. -/
def ClientPc.pending : ClientPc → Multiset ℤ
  | .wants _ val | .asleep _ val | .notified _ val => {val}
  | .draws _ | .finished => 0

/-- The iterations a client is through with. -/
def ClientPc.iterations : ClientPc → ℕ
  | .draws n | .wants n _ | .asleep n _ | .notified n _ => n
  | .finished => 10

/-- An iteration is one of the ten. -/
def ClientPc.InLoop : ClientPc → Prop
  | .draws n | .wants n _ | .asleep n _ | .notified n _ => n < 10
  | .finished => True

variable {nbClients : ℕ}

/-- The quantities drawn, in their order. -/
def draws (as : List (Act nbClients)) : List ℤ :=
  as.filterMap fun
    | .draw _ val => some val
    | _ => none

/-- How often a client has drawn. -/
def drawsOf (i : Fin nbClients) (as : List (Act nbClients)) : ℕ :=
  as.countP fun
    | .draw j _ => j = i
    | _ => false

/-- What an action draws. -/
def Act.drawn : Act nbClients → Multiset ℤ
  | .draw _ val => {val}
  | _ => 0

theorem sum_drawn (as : List (Act nbClients)) : (as.map Act.drawn).sum = ↑(draws as) := by
  induction as with
  | nil => rfl
  | cons a as ih =>
    rw [List.map_cons, List.sum_cons, ih]
    cases a with
    | draw i val => exact Multiset.singleton_add val _
    | _ => exact zero_add _

/-- The draws a client has come to. -/
def ClientPc.drawn (pc : ClientPc) : ℕ := pc.iterations + pc.pending.card

@[simp] theorem pending_notify (pc : ClientPc) : pc.notify.pending = pc.pending := by
  cases pc <;> rfl

@[simp] theorem pending_next (n : ℕ) : (ClientPc.next n).pending = 0 := by
  unfold ClientPc.next
  split <;> rfl

@[simp] theorem iterations_notify (pc : ClientPc) : pc.notify.iterations = pc.iterations := by
  cases pc <;> rfl

theorem iterations_next {n : ℕ} (hn : n < 10) : (ClientPc.next n).iterations = n + 1 := by
  unfold ClientPc.next
  split
  · rfl
  · change 10 = n + 1
    omega

theorem inLoop_notify {pc : ClientPc} (h : pc.InLoop) : pc.notify.InLoop := by
  cases pc <;> exact h

theorem inLoop_next (n : ℕ) : (ClientPc.next n).InLoop := by
  unfold ClientPc.next
  split
  · next hlt => exact hlt
  · trivial

theorem ClientPc.InLoop.iterations_le {pc : ClientPc} (h : pc.InLoop) : pc.iterations ≤ 10 := by
  cases pc with
  | finished => exact le_rfl
  | _ => exact Nat.le_of_lt h

theorem notify_eq_finished_iff {pc : ClientPc} : pc.notify = .finished ↔ pc = .finished := by
  cases pc <;> simp [ClientPc.notify]

namespace Config

variable {c c' : Config nbClients} {a : Act nbClients} {as : List (Act nbClients)}
variable {iniStock : ℤ}

/-- What was taken, and what is wanted. -/
def demand (c : Config nbClients) : Multiset ℤ := ↑(takes c.log) + ∑ i, (c.client i).pending

/-- A client that moves changes the demand by what it had and has pending. -/
theorem demand_moved (c : Config nbClients) (i : Fin nbClients) (pc : ClientPc) :
    ↑(takes c.log) + ∑ j, (Function.update c.client i pc j).pending + (c.client i).pending =
      c.demand + pc.pending := by
  rw [add_assoc, Tally.sum_moved, ← add_assoc, demand]

/-- **A move adds what it draws to the demand**, and nothing else. -/
theorem Step.demand (hs : Step c a c') : c'.demand = c.demand + a.drawn := by
  -- a client that goes on wanting what it wants
  have hkeeps : ∀ i pc, pc.pending = (c.client i).pending →
      ↑(takes c.log) + ∑ j, (Function.update c.client i pc j).pending = c.demand := by
    intro i pc hpc
    have hmoved := demand_moved c i pc
    rw [hpc] at hmoved
    exact add_right_cancel hmoved
  cases hs with
  | refill hpc hstop => simp [Config.demand, Config.refill, takes, Act.drawn]
  | @draw i n val hpc =>
    have hmoved := demand_moved c i (.wants n val)
    rw [hpc] at hmoved
    exact (add_zero _).symm.trans hmoved
  | @take i n val hfree hpc hok =>
    have hpending : (c.client i).pending = {val} := by rcases hpc with hpc | hpc <;> rw [hpc] <;> rfl
    have hmoved := demand_moved c i (.next n)
    have htakes : (takes (c.log ++ [.take val c.app.stock]) : Multiset ℤ) = takes c.log + {val} := by
      simp [takes, ← Multiset.coe_add]
    rw [hpending, pending_next, add_zero] at hmoved
    -- what was pending is taken
    change ↑(takes (c.log ++ [.take val c.app.stock])) +
      ∑ j, (Function.update c.client i (.next n) j).pending = c.demand + 0
    rw [htakes, add_right_comm, hmoved, add_zero]
  | wait hfree hpc hok => exact (hkeeps _ _ (by rw [hpc]; rfl)).trans (add_zero _).symm
  | waitAgain hfree hpc hok => exact (hkeeps _ _ (by rw [hpc]; rfl)).trans (add_zero _).symm
  | wakeClient hpc => exact (hkeeps _ _ (by rw [hpc]; rfl)).trans (add_zero _).symm
  | _ => exact (add_zero _).symm

/-- The iterations the clients are through with, taken together. -/
def iterations (c : Config nbClients) : ℕ := ∑ i, (c.client i).iterations

/-- `main` has joined the clients before `i`, or all of them. -/
def Joined (c : Config nbClients) : Prop :=
  match c.main with
  | .joining i => ∀ j : Fin nbClients, j < i → c.client j = .finished
  | _ => ∀ j, c.client j = .finished

/-- **What is booked of the clients**: each is in one of its iterations, and
has taken once in each it is through with. -/
structure ClientBooks (c : Config nbClients) : Prop where
  inLoop : ∀ i, (c.client i).InLoop
  taken : (takes c.log).length = c.iterations
  joined : c.Joined

theorem clientBooks_initial : (initial iniStock : Config nbClients).ClientBooks where
  inLoop := fun _ => show 0 < 10 by omega
  taken := by simp [initial, takes, iterations, ClientPc.iterations]
  joined := fun j hj => absurd hj (Nat.not_lt_zero j)

/-- A client that is not through leaves those that are. -/
theorem Joined.update (h : c.Joined) {i : Fin nbClients} (hi : c.client i ≠ .finished)
    {app : Application} {store : StorePc} {pc : ClientPc} {log : List Event} :
    (⟨app, store, Function.update c.client i pc, c.main, log⟩ : Config nbClients).Joined := by
  have hkept : ∀ j, c.client j = .finished → Function.update c.client i pc j = .finished := by
    intro j hj
    have hne : j ≠ i := by
      rintro rfl
      exact hi hj
    rw [Function.update_of_ne hne, hj]
  unfold Joined at h ⊢
  cases hmain : c.main with
  | joining i' =>
    simp only [hmain] at h ⊢
    exact fun j hj => hkept j (h j hj)
  | stopping | joinStore | returned =>
    simp only [hmain] at h ⊢
    exact fun j => hkept j (h j)

/-- And so does the client's place in its ten iterations. -/
theorem iterations_moved (c : Config nbClients) (i : Fin nbClients) (pc : ClientPc) :
    ∑ j, (Function.update c.client i pc j).iterations + (c.client i).iterations =
      c.iterations + pc.iterations :=
  Tally.sum_moved ..

/-- A client that moves inside its iteration. -/
theorem ClientBooks.moved (h : c.ClientBooks) {i : Fin nbClients} {pc : ClientPc}
    (hpc : c.client i = pc) (hne : pc ≠ .finished) (pc' : ClientPc) (hloop : pc.InLoop → pc'.InLoop)
    (hsame : pc'.iterations = pc.iterations) {store : StorePc} : ClientBooks
      ⟨c.app, store, Function.update c.client i pc', c.main, c.log⟩ := by
  subst hpc
  refine ⟨forall_update h.inLoop (hloop (h.inLoop i)), ?_, h.joined.update hne⟩
  have hmoved := iterations_moved c i pc'
  rw [hsame] at hmoved
  exact h.taken.trans (Nat.add_right_cancel hmoved).symm

/-- **One move keeps the clients' books.** -/
theorem ClientBooks.step (h : c.ClientBooks) (hs : Step c a c') : c'.ClientBooks := by
  cases hs with
  | refill hpc hstop =>
    refine ⟨fun i => inLoop_notify (h.inLoop i), ?_, ?_⟩
    · have htaken := h.taken
      simpa [Config.refill, takes, iterations] using htaken
    · have hjoined := h.joined
      unfold Joined at hjoined ⊢
      simpa only [Config.refill, notify_eq_finished_iff] using hjoined
  | @draw i n val hpc => exact h.moved hpc (by simp) (.wants n val) id rfl
  | @take i n val hfree hpc hok =>
    have hi := h.inLoop i
    have hn : (c.client i).iterations = n ∧ n < 10 := by
      rcases hpc with hpc | hpc <;> rw [hpc] at hi ⊢ <;> exact ⟨rfl, hi⟩
    have hne : c.client i ≠ .finished := by rcases hpc with hpc | hpc <;> simp [hpc]
    refine ⟨forall_update h.inLoop (inLoop_next n), ?_, h.joined.update hne⟩
    have hmoved := iterations_moved c i (.next n)
    rw [hn.1, iterations_next hn.2] at hmoved
    change (takes (c.log ++ [.take val c.app.stock])).length =
      ∑ j, (Function.update c.client i (.next n) j).iterations
    have htaken := h.taken
    simp only [takes, List.filterMap_append, List.length_append] at htaken ⊢
    simp
    omega
  | @wait i n val hfree hpc hok => exact h.moved hpc (by simp) (.asleep n val) id rfl
  | @waitAgain i n val hfree hpc hok => exact h.moved hpc (by simp) (.asleep n val) id rfl
  | @wakeClient i n val hpc => exact h.moved hpc (by simp) (.notified n val) id rfl
  | @join i hmain hlt hpc =>
    refine ⟨h.inLoop, h.taken, fun j hj => ?_⟩
    have hjoined := h.joined
    simp only [Joined, hmain] at hjoined
    rcases Nat.lt_succ_iff_lt_or_eq.1 hj with hj | rfl
    · exact hjoined j hj
    · exact hpc
  | @stop i hmain hle =>
    refine ⟨h.inLoop, h.taken, fun j => ?_⟩
    have hjoined := h.joined
    simp only [Joined, hmain] at hjoined
    exact hjoined j (by omega)
  | notify hmain =>
    have hjoined := h.joined
    simp only [Joined, hmain] at hjoined
    exact ⟨h.inLoop, h.taken, hjoined⟩
  | joinStore hmain hpc =>
    have hjoined := h.joined
    simp only [Joined, hmain] at hjoined
    exact ⟨h.inLoop, h.taken, hjoined⟩
  | _ => exact ⟨h.inLoop, h.taken, h.joined⟩

/-- **A client's iterations are its draws**, with the one it has pending. -/
theorem ClientBooks.drawn_step (h : c.ClientBooks) (hs : Step c a c') (i : Fin nbClients) :
    (c'.client i).drawn = (c.client i).drawn + drawsOf i [a] := by
  -- a client that moves inside its iteration, or through with it
  have hmoved : ∀ {j pc pc'}, c.client j = pc → pc'.drawn = pc.drawn →
      (Function.update c.client j pc' i).drawn = (c.client i).drawn + 0 := by
    rintro j pc pc' hpc hsame
    by_cases hi : i = j
    · subst hi
      rw [Function.update_self, hsame, hpc, add_zero]
    · rw [Function.update_of_ne hi, add_zero]
  cases hs with
  | refill hpc hstop => simp [Config.refill, ClientPc.drawn, drawsOf]
  | @draw j n val hpc =>
    change (Function.update c.client j (.wants n val) i).drawn = _
    by_cases hi : i = j
    · subst hi
      simp [hpc, ClientPc.drawn, ClientPc.iterations, ClientPc.pending, drawsOf]
    · simp [Function.update_of_ne hi, drawsOf, Ne.symm hi]
  | @take j n val hfree hpc hok =>
    have hj := h.inLoop j
    have hnext : ∀ pc : ClientPc, c.client j = pc → pc = .wants n val ∨ pc = .notified n val →
        (ClientPc.next n).drawn = pc.drawn := by
      rintro pc hpc hwants
      rw [hpc] at hj
      have hn : n < 10 := by rcases hwants with rfl | rfl <;> exact hj
      rw [ClientPc.drawn, iterations_next hn, pending_next]
      rcases hwants with rfl | rfl <;> rfl
    exact hmoved rfl (hnext _ rfl hpc)
  | wait hfree hpc hok => exact hmoved hpc rfl
  | waitAgain hfree hpc hok => exact hmoved hpc rfl
  | wakeClient hpc => exact hmoved hpc rfl
  | _ => rfl

/-- **What is booked of the store**: it refills below ten, and returns at a
stop, for `main` to join it. -/
structure StoreBooks (c : Config nbClients) : Prop where
  checked : c.store = .checked true → c.app.stock < 10 ∨ c.app.stop = true
  found : ∀ stock ∈ refills c.log, stock < 10
  returned : c.store = .returned → c.app.stop = true
  closed : c.main = .returned → c.store = .returned

theorem storeBooks_initial : (initial iniStock : Config nbClients).StoreBooks :=
  ⟨nofun, nofun, nofun, nofun⟩

/-- **One move keeps the store's books.** -/
theorem StoreBooks.step (h : c.StoreBooks) (hs : Step c a c') : c'.StoreBooks := by
  obtain ⟨hchecked, hfound, hreturned, hclosed⟩ := h
  have hnotify : c.store.notify = .checked true → c.app.stock < 10 ∨ c.app.stop = true :=
    fun hpc => hchecked (notify_checked.1 hpc)
  cases hs with
  | check hpc =>
    refine ⟨fun hnotFull => ?_, hfound, by simp, fun hmain => ?_⟩
    · simpa [isStockNotFull] using hnotFull
    · rcases hpc with hpc | hpc <;> cases hpc.symm.trans (hclosed hmain)
  | returns hpc hstop => exact ⟨by simp, hfound, fun _ => hstop, fun _ => rfl⟩
  | refill hpc hstop =>
    have hlow : c.app.stock < 10 := (hchecked hpc).resolve_right (by simp [hstop])
    refine ⟨by simp [Config.refill], fun stock hmem => ?_, by simp [Config.refill], fun hmain => ?_⟩
    · have hor : stock ∈ refills c.log ∨ stock = c.app.stock := by
        simpa [Config.refill, refills] using hmem
      rcases hor with hmem | rfl
      · exact hfound stock hmem
      · exact hlow
    · cases hpc.symm.trans (hclosed hmain)
  | sleep hpc => exact ⟨by simp, hfound, by simp, fun hmain => by cases hpc.symm.trans (hclosed hmain)⟩
  | take hfree hpc hok =>
    refine ⟨fun hnotFull => ?_, fun stock hmem => hfound stock ?_, hreturned, hclosed⟩
    · -- the store holds the lock
      simp only [Config.take] at hnotFull
      simp [locked, hnotFull] at hfree
    · simpa [Config.take, refills] using hmem
  | wait hfree hpc hok =>
    exact ⟨hnotify, hfound, fun hpc => hreturned (notify_returned.1 hpc),
      fun hmain => notify_returned.2 (hclosed hmain)⟩
  | stop hmain hle => exact ⟨fun _ => .inr rfl, hfound, fun _ => rfl, by simp⟩
  | notify hmain =>
    exact ⟨hnotify, hfound, fun hpc => hreturned (notify_returned.1 hpc), by simp⟩
  | joinStore hmain hpc => exact ⟨hchecked, hfound, hreturned, fun _ => hpc⟩
  | wakeStore hpc =>
    exact ⟨by simp, hfound, by simp, fun hmain => by cases hpc.symm.trans (hclosed hmain)⟩
  | join => exact ⟨hchecked, hfound, hreturned, by simp⟩
  | _ => exact ⟨hchecked, hfound, hreturned, hclosed⟩

/-! ## What a run comes to -/

/-- Each client's iterations are the draws of a run that are its own. -/
theorem drawn_run (hrun : (stockMachine nbClients).run (initial iniStock) as = some c)
    (i : Fin nbClients) : (c.client i).drawn = drawsOf i as := by
  have htally := Machine.run_tally ClientBooks (fun c => (c.client i).drawn)
    (fun a => drawsOf i [a]) (fun _ _ _ h _ hs => h.step (.of_step hs))
    (fun _ _ _ h _ hs => h.drawn_step (.of_step hs) i) clientBooks_initial Machine.within_true hrun
  have hsum : (as.map fun a => drawsOf i [a]).sum = drawsOf i as := by
    clear hrun htally
    induction as with
    | nil => rfl
    | cons a as ih =>
      rw [List.map_cons, List.sum_cons, ih, drawsOf, drawsOf, drawsOf, ← List.countP_append]
      rfl
  rw [htally, hsum]
  exact Nat.zero_add _

/-- The books of a run, and what it has drawn. -/
theorem books_run (hrun : (stockMachine nbClients).run (initial iniStock) as = some c) :
    c.ClientBooks ∧ c.StoreBooks ∧ c.demand = ↑(draws as) := by
  refine ⟨?_, ?_, ?_⟩
  · exact Machine.run_invariant ClientBooks (fun _ _ _ h hs => h.step (.of_step hs))
      clientBooks_initial hrun
  · exact Machine.run_invariant StoreBooks (fun _ _ _ h hs => h.step (.of_step hs))
      storeBooks_initial hrun
  · have hnone : (initial iniStock : Config nbClients).demand = 0 := by
      simp [Config.demand, initial, takes, ClientPc.pending]
    have htally := Machine.run_tally (fun _ => True) Config.demand Act.drawn (fun _ _ _ _ _ _ => trivial)
      (fun _ _ _ _ _ hs => (Step.of_step hs).demand) trivial Machine.within_true hrun
    rw [htally, hnone, zero_add, sum_drawn]

/-- **The accounts of a run that is over.** For any number of clients, any
initial stock, any quantities and any order of the threads' steps and of
spurious wakeups: once `main` has returned, every client has finished and
the store has returned at the stop; each client has drawn ten times, and
what was taken is what was drawn, each draw once. -/
theorem accounts_of_returned (nbClients : ℕ) (iniStock : ℤ) (as : List (Act nbClients))
    (c : Config nbClients) (hrun : (stockMachine nbClients).run (initial iniStock) as = some c)
    (hmain : c.main = .returned) :
    (∀ i, c.client i = .finished) ∧ (c.store = .returned ∧ c.app.stop = true) ∧
      (∀ i, drawsOf i as = 10) ∧ (takes c.log).length = 10 * nbClients ∧
      (takes c.log).Perm (draws as) := by
  obtain ⟨hclients, hstore, hdemand⟩ := books_run hrun
  have hfinished : ∀ i, c.client i = .finished := by
    have hjoined := hclients.joined
    simp only [Joined, hmain] at hjoined
    exact hjoined
  have hreturned := hstore.closed hmain
  refine ⟨hfinished, ⟨hreturned, hstore.returned hreturned⟩, fun i => ?_, ?_, ?_⟩
  · rw [← drawn_run hrun i, hfinished]
    rfl
  · rw [hclients.taken]
    simp [Config.iterations, hfinished, ClientPc.iterations, mul_comm]
  · rw [← Multiset.coe_eq_coe, ← hdemand]
    simp [Config.demand, hfinished, ClientPc.pending]

/-- Requests of one client, for three each. -/
def requests (n : ℕ) : List (Act 1) :=
  (List.replicate n [.draw (.last 0) 3, .client (.last 0)]).flatten

/-- One client over a stock of twenty, which wants three each time, to the
end of `main`: it waits for its seventh request. -/
def wholeRun : List (Act 1) :=
  requests 7 ++ [.store, .store, .client (.last 0)] ++ requests 3 ++
    [.main, .store, .store, .main, .main, .store, .store, .main]

theorem accounts_of_returned_wholeRun :
    ∃ c : Config 1, (stockMachine 1).run (initial 20) wholeRun = some c ∧
      drawsOf 0 wholeRun = 10 ∧ (takes c.log).Perm (draws wholeRun) := by
  obtain ⟨-, -, hdraws, -, hperm⟩ := accounts_of_returned 1 20 wholeRun _ rfl rfl
  exact ⟨_, rfl, hdraws 0, hperm⟩

/-- What the refills add is at least what they are short of by nine. -/
theorem mul_length_refills_le {log : List Event} (h : ∀ stock ∈ refills log, stock < 10) :
    (iniStock - 9) * (refills log).length ≤ (log.map (Event.added iniStock)).sum := by
  induction log with
  | nil => simp [refills]
  | cons e log ih =>
    cases e with
    | take val stock =>
      rw [List.map_cons, List.sum_cons, Event.added, zero_add]
      exact ih h
    | refill stock =>
      have hcons : refills (.refill stock :: log) = stock :: refills log := rfl
      rw [hcons, List.forall_mem_cons] at h
      have hrest := ih h.2
      have hfound := h.1
      rw [hcons, List.map_cons, List.sum_cons, Event.added, List.length_cons, Nat.cast_add_one,
        mul_add, mul_one]
      omega

theorem sum_handed (log : List Event) : (log.map Event.handed).sum = (takes log).sum := by
  induction log with
  | nil => rfl
  | cons e log ih =>
    rw [List.map_cons, List.sum_cons, ih]
    cases e with
    | take val stock => rfl
    | refill stock => exact zero_add _

/-- **What is handed out pays for the refills.** For any initial stock that
is not negative, any number of clients and any order of steps, spurious
wakeups included: `initial_stock - 9` for each refill is covered by the
quantity taken, which is at most sixty for each client. It bounds the
number of refills where the initial stock is ten or more. -/
theorem refills_le (nbClients : ℕ) (iniStock : ℤ) (hini : 0 ≤ iniStock)
    (as : List (Act nbClients)) (c : Config nbClients)
    (hdrawn : ∀ i val, .draw i val ∈ as → Drawn val)
    (hrun : (stockMachine nbClients).run (initial iniStock) as = some c) :
    (iniStock - 9) * (refills c.log).length ≤ (takes c.log).sum ∧
      (takes c.log).sum ≤ 60 * nbClients := by
  obtain ⟨hclients, hstore, hdemand⟩ := books_run hrun
  have hpositive : ∀ a ∈ as, a.Positive := by
    intro a ha
    cases a with
    | draw i val => exact (hdrawn i val ha).1
    | _ => trivial
  have haccounted : c.Accounted iniStock :=
    Machine.run_induction (Accounted iniStock) (fun _ _ _ h hpos hs => h.step hpos (.of_step hs))
      accounted_initial ((Machine.within_forall_iff hrun).2 hpositive) hrun
  constructor
  · have hbalance : (c.log.map Event.handed).sum + c.app.stock =
        iniStock + (c.log.map (Event.added iniStock)).sum := by
      simpa only [List.map_map, Function.comp_def, drawn_entry, filled_entry] using
        haccounted.ledger.balance
    have hstock := (haccounted.ledger.bounds hini le_rfl).2
    have hrefills : (iniStock - 9) * (refills c.log).length ≤
        (c.log.map (Event.added iniStock)).sum := mul_length_refills_le hstore.found
    rw [sum_handed] at hbalance
    omega
  · -- ten times six at most for each client
    have hsix : ∀ val ∈ takes c.log, val ≤ 6 := by
      intro val hval
      have hmem : val ∈ draws as := by
        rw [← Multiset.mem_coe, ← hdemand, Config.demand, Multiset.mem_add]
        exact .inl (Multiset.mem_coe.2 hval)
      obtain ⟨a, ha, hdraw⟩ := List.mem_filterMap.1 hmem
      cases a with
      | draw i v =>
        obtain rfl : v = val := Option.some_inj.1 hdraw
        exact (hdrawn i v ha).2
      | _ => cases hdraw
    have hsum := List.sum_le_card_nsmul (takes c.log) 6 hsix
    have hten : c.iterations ≤ nbClients * 10 := by
      have hle := Finset.sum_le_card_nsmul Finset.univ (fun i => (c.client i).iterations) 10
        fun i _ => (hclients.inLoop i).iterations_le
      simpa [iterations] using hle
    rw [hclients.taken, nsmul_eq_mul] at hsum
    omega

/-- With the figures of `main`, of which one client is run. -/
theorem refills_le_wholeRun :
    ∃ c : Config 1, (stockMachine 1).run (initial 20) wholeRun = some c ∧
      (20 - 9) * ((refills c.log).length : ℤ) ≤ (takes c.log).sum ∧ (takes c.log).sum ≤ 60 := by
  refine ⟨_, rfl, refills_le 1 20 (by decide) wholeRun _ ?_ rfl⟩
  intro i val h
  simp [wholeRun, requests] at h
  exact h.2 ▸ by decide

end Config

end Application

end VireSandbox
