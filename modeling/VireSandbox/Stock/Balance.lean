import Mathlib.Algebra.Order.Ring.Int
import VireSandbox.Common.Ledger
import VireSandbox.Stock.Progress
/-!
# The stock — what is taken and what is left

Each section that subtracts evaluates `Is_Stock_Ok` under the lock it
subtracts under, also where it comes out of a wait in between. So the log
is a ledger of the stock, kept well from the initial stock on
(`Accounted`), and what holds of such ledgers holds of every state the
threads reach: the stock is conserved and never negative
(`stock_conserved`).
-/

namespace VireSandbox

namespace Application

/-- An event as an entry of the ledger. -/
def Event.entry : Event → Entry ℤ
  | .take val stock => .draw val stock
  | .refill stock => .fill stock

/-- What an event handed to a client. -/
def Event.handed : Event → ℤ
  | .take val _ => val
  | .refill _ => 0

/-- What an event added to the stock it found, up to the initial stock. -/
def Event.added (iniStock : ℤ) : Event → ℤ
  | .take _ _ => 0
  | .refill stock => iniStock - stock

theorem drawn_entry (e : Event) : Ledger.drawn e.entry = e.handed := by
  cases e <;> rfl

theorem filled_entry (iniStock : ℤ) (e : Event) :
    Ledger.filled iniStock e.entry = e.added iniStock := by
  cases e <;> rfl

/-- A client wants something. -/
def ClientPc.Positive : ClientPc → Prop
  | .wants _ val | .asleep _ val | .notified _ val => 1 ≤ val
  | .draws _ | .finished => True

variable {nbClients : ℕ}

/-- A quantity that is drawn is one or more. -/
def Act.Positive : Act nbClients → Prop
  | .draw _ val => 1 ≤ val
  | _ => True

namespace Config

variable {c c' : Config nbClients} {a : Act nbClients} {iniStock : ℤ}

/-- **The log accounts for the stock**, from the initial stock on. -/
structure Accounted (iniStock : ℤ) (c : Config nbClients) : Prop where
  initialStock : c.app.initialStock = iniStock
  positive : ∀ i, (c.client i).Positive
  ledger : Ledger.Leads iniStock iniStock (c.log.map Event.entry) c.app.stock

theorem accounted_initial : (initial iniStock : Config nbClients).Accounted iniStock where
  initialStock := rfl
  positive := fun _ => trivial
  ledger := .nil

theorem positive_notify {pc : ClientPc} (h : pc.Positive) : pc.notify.Positive := by
  cases pc <;> exact h

theorem positive_next (n : ℕ) : (ClientPc.next n).Positive := by
  unfold ClientPc.next
  split <;> trivial

theorem one_le_of_positive (h : ∀ i, (c.client i).Positive) {i : Fin nbClients} {n : ℕ} {val : ℤ}
    (hpc : c.client i = .wants n val ∨ c.client i = .notified n val ∨ c.client i = .asleep n val) :
    1 ≤ val := by
  have hi := h i
  rcases hpc with hpc | hpc | hpc
  · rwa [hpc] at hi
  · rwa [hpc] at hi
  · rwa [hpc] at hi

/-- Every move leaves the clients wanting something. -/
theorem positive_step (h : ∀ i, (c.client i).Positive) (hpos : a.Positive) (hs : Step c a c') :
    ∀ i, (c'.client i).Positive := by
  cases hs with
  | refill => exact fun i => positive_notify (h i)
  | draw hpc => exact forall_update h hpos
  | take hfree hpc hok => exact forall_update h (positive_next _)
  | wait hfree hpc hok => exact forall_update h (one_le_of_positive h (.inl hpc))
  | waitAgain hfree hpc hok => exact forall_update h (one_le_of_positive h (.inr (.inl hpc)))
  | wakeClient hpc => exact forall_update h (one_le_of_positive h (.inr (.inr hpc)))
  | _ => exact h

/-- **What a move does to the stock**: nothing, or a client takes what it
has found to be there, or the store fills up what it has found to be
left. -/
theorem Step.stock (h : ∀ i, (c.client i).Positive) (hs : Step c a c') :
    (c'.app.stock = c.app.stock ∧ c'.log = c.log) ∨
    (∃ val, 1 ≤ val ∧ val ≤ c.app.stock ∧ c'.app.stock = c.app.stock - val ∧
      c'.log = c.log ++ [.take val c.app.stock]) ∨
    (c'.app.stock = c.app.initialStock ∧ c'.log = c.log ++ [.refill c.app.stock]) := by
  cases hs with
  | take hfree hpc hok =>
    have hval := one_le_of_positive h (or_assoc.1 (.inl hpc))
    exact .inr (.inl ⟨_, hval, hok, rfl, rfl⟩)
  | refill => exact .inr (.inr ⟨rfl, rfl⟩)
  | _ => exact .inl ⟨rfl, rfl⟩

theorem Step.initialStock (hs : Step c a c') : c'.app.initialStock = c.app.initialStock := by
  cases hs <;> rfl

/-- **One move keeps the account.** -/
theorem Accounted.step (h : c.Accounted iniStock) (hpos : a.Positive) (hs : Step c a c') :
    c'.Accounted iniStock := by
  refine ⟨hs.initialStock.trans h.initialStock, positive_step h.positive hpos hs, ?_⟩
  have hledger := h.ledger
  rcases hs.stock h.positive with ⟨hstock, hlog⟩ | ⟨val, hval, hle, hstock, hlog⟩ | ⟨hstock, hlog⟩
  · rwa [hstock, hlog]
  · rw [hstock, hlog, List.map_append]
    exact hledger.draw (by omega) hle
  · rw [hstock, hlog, List.map_append, h.initialStock]
    exact hledger.fill

/-- **Stock is conserved and never negative.** For any initial stock that is
not, any number of clients, any quantities of one or more and any order of
the threads' steps and of spurious wakeups: the stock stays between nothing
and the initial stock; no client has taken more than it found, and none is
about to; and what was handed out and what is left add up to the initial
stock and what the refills added. -/
theorem stock_conserved (nbClients : ℕ) (iniStock : ℤ) (hini : 0 ≤ iniStock)
    (as : List (Act nbClients)) (c : Config nbClients)
    (hquantities : ∀ i val, .draw i val ∈ as → 1 ≤ val)
    (hrun : (stockMachine nbClients).run (initial iniStock) as = some c) :
    (0 ≤ c.app.stock ∧ c.app.stock ≤ iniStock) ∧
    (∀ val stock, .take val stock ∈ c.log → val ≤ stock) ∧
    (∀ a c', (stockMachine nbClients).step c a = some c' → c'.app.stock < c.app.stock →
      ∃ val, val ≤ c.app.stock ∧ c'.app.stock = c.app.stock - val ∧
        c'.log = c.log ++ [.take val c.app.stock]) ∧
    (c.log.map Event.handed).sum + c.app.stock =
      iniStock + (c.log.map (Event.added iniStock)).sum := by
  have hpositive : ∀ a ∈ as, a.Positive := by
    intro a ha
    cases a with
    | draw i val => exact hquantities i val ha
    | _ => trivial
  have hc : c.Accounted iniStock :=
    Machine.run_induction (Accounted iniStock) (fun _ _ _ h hpos hs => h.step hpos (.of_step hs))
      accounted_initial ((Machine.within_forall_iff hrun).2 hpositive) hrun
  have hbounds := hc.ledger.bounds hini le_rfl
  refine ⟨hbounds, fun val stock htake => ?_, fun a c' hstep hless => ?_, ?_⟩
  · exact hc.ledger.covered (List.mem_map_of_mem (f := Event.entry) htake)
  · rcases (Step.of_step hstep).stock hc.positive with
      ⟨hstock, -⟩ | ⟨val, -, hle, hstock, hlog⟩ | ⟨hstock, -⟩
    · omega
    · exact ⟨val, hle, hstock, hlog⟩
    · -- a refill takes nothing away
      rw [hc.initialStock] at hstock
      omega
  · have hbalance := hc.ledger.balance
    simpa only [List.map_map, Function.comp_def, drawn_entry, filled_entry] using hbalance

/-- Three clients over a stock of ten: eight are taken, a client waits for
six, is woken for nothing, and takes them after the refill. -/
def waitingRun : List (Act 3) :=
  [.draw 0 8, .draw 2 3, .client 0, .draw 1 6, .client 1, .wakeClient 1, .client 1, .store, .store,
    .client 1]

theorem stock_conserved_waitingRun :
    ∃ c : Config 3, (stockMachine 3).run (initial 10) waitingRun = some c ∧
      c.log = [.take 8 10, .refill 2, .take 6 10] ∧ c.app.stock = 4 ∧
      (c.log.map Event.handed).sum + c.app.stock = 10 + (c.log.map (Event.added 10)).sum := by
  have hquantities : ∀ i val, .draw i val ∈ waitingRun → 1 ≤ val := by
    intro i val h
    simp [waitingRun] at h
    omega
  exact ⟨_, rfl, rfl, rfl, (stock_conserved 3 10 (by decide) waitingRun _ hquantities rfl).2.2.2⟩

end Config

end Application

end VireSandbox
