import Mathlib.Data.Int.Order.Basic
import Mathlib.Logic.Function.Basic
import VireSandbox.Common.Machine
/-!
# The stock — its model

`Application` of `threads/mut_cond_1.cpp` and the threads `main` runs
over it: the store, which refills the stock, the clients, which take from
it, and `main` itself, which joins the clients, stops the store and joins
it.

A section under `stock_lock` is one step where nothing of it can be told
apart from outside. That is every section of a client. The store's is cut
in two, since `Stop` writes `stop` without the lock: `Is_Stock_Not_Full`
is evaluated in one step, and in the next the store blocks, refills or
returns, holding the lock in between. The console output is left out, and
the log is the model's own record of what was taken and refilled.
-/

namespace VireSandbox

/-- The fields of `Application` that a thread reads or writes. -/
structure Application where
  initialStock : ℤ
  stock : ℤ
  stop : Bool
  deriving DecidableEq, Repr

namespace Application

/-- `Application::Application`. -/
def new (iniStock : ℤ) : Application where
  initialStock := iniStock
  stock := iniStock
  stop := false

/-- `Application::Is_Stock_Ok`. -/
def isStockOk (app : Application) (val : ℤ) : Bool := val ≤ app.stock

/-- `Application::Is_Stock_Not_Full`. -/
def isStockNotFull (app : Application) : Bool := app.stock < 10 || app.stop

/-- `RAND_MAX`. -/
def randMax : ℤ := 2147483647

/-- `Application::get_random`, on what `rand` returns. The product and the
quotient by a power of two are exact in a `double`. -/
def getRandom (max rand : ℤ) : ℤ := 1 + max * rand / (randMax + 1)

/-- A quantity a client can want. -/
def Drawn (val : ℤ) : Prop := 1 ≤ val ∧ val ≤ 6

instance (val : ℤ) : Decidable (Drawn val) := inferInstanceAs (Decidable (_ ∧ _))

/-- **The quantities wanted are those `get_random` draws.** -/
theorem drawn_iff {val : ℤ} :
    Drawn val ↔ ∃ rand, 0 ≤ rand ∧ rand ≤ randMax ∧ getRandom 6 rand = val := by
  constructor
  · intro h
    obtain ⟨hpos, hle⟩ := h
    -- the least number that is drawn as `val`
    refine ⟨((val - 1) * (randMax + 1) + 5) / 6, ?_, ?_, ?_⟩ <;> simp only [randMax, getRandom] <;>
      omega
  · rintro ⟨rand, hpos, hle, rfl⟩
    simp only [Drawn, randMax, getRandom] at hle ⊢
    omega

/-! ## The threads -/

/-- Where the thread of `fn_store` is. -/
inductive StorePc
  /-- About to take the lock. -/
  | entry
  /-- Holding the lock, with what `Is_Stock_Not_Full` returned. -/
  | checked (notFull : Bool)
  /-- Blocked on `store_cond`. -/
  | asleep
  /-- Out of `store_cond`, about to take the lock again. -/
  | notified
  | returned
  deriving DecidableEq, Repr

/-- Where a thread of `fn_clients` is in its iteration `n`. -/
inductive ClientPc
  /-- About to draw a quantity. -/
  | draws (n : ℕ)
  /-- About to take the lock. -/
  | wants (n : ℕ) (val : ℤ)
  /-- Blocked on `client_cond`. -/
  | asleep (n : ℕ) (val : ℤ)
  /-- Out of `client_cond`, about to take the lock again. -/
  | notified (n : ℕ) (val : ℤ)
  | finished
  deriving DecidableEq, Repr

/-- Where `main` is, once it has created its threads. -/
inductive MainPc
  /-- About to join client `i`, or past the last of them. -/
  | joining (i : ℕ)
  /-- In `Stop`, past its write. -/
  | stopping
  /-- In `store.join`. -/
  | joinStore
  | returned
  deriving DecidableEq, Repr

/-- `store_cond.notify_one`, the store being the only thread to wait on
`store_cond`. -/
def StorePc.notify : StorePc → StorePc
  | .asleep => .notified
  | pc => pc

/-- What `client_cond.notify_all` does to a client. -/
def ClientPc.notify : ClientPc → ClientPc
  | .asleep n val => .notified n val
  | pc => pc

/-- The end of iteration `n`. -/
def ClientPc.next (n : ℕ) : ClientPc := if n + 1 < 10 then .draws (n + 1) else .finished

/-- What the log records. -/
inductive Event
  /-- A client took `val` from `stock`. -/
  | take (val stock : ℤ)
  /-- The store found `stock` and refilled it. -/
  | refill (stock : ℤ)
  deriving DecidableEq, Repr

/-- The application and its threads. -/
structure Config (nbClients : ℕ) where
  app : Application
  store : StorePc
  client : Fin nbClients → ClientPc
  main : MainPc
  log : List Event

/-- Who moves. A client that draws carries the quantity, which is the
environment's to choose; the last two are spurious wakeups. -/
inductive Act (nbClients : ℕ)
  | store
  | draw (i : Fin nbClients) (val : ℤ)
  | client (i : Fin nbClients)
  | main
  | wakeStore
  | wakeClient (i : Fin nbClients)
  deriving DecidableEq, Repr

namespace Config

variable {nbClients : ℕ}

/-- The threads as `main` has created them. -/
def initial (iniStock : ℤ) : Config nbClients where
  app := .new iniStock
  store := .entry
  client := fun _ => .draws 0
  main := .joining 0
  log := []

variable (c : Config nbClients)

/-- The store holds `stock_lock`. No other thread holds it between two
steps. -/
def locked : Bool :=
  match c.store with
  | .checked _ => true
  | _ => false

/-- The store past its wait, `stop` not set. -/
def refill : Config nbClients :=
  { c with
    app := { c.app with stock := c.app.initialStock }
    store := .entry
    client := fun i => (c.client i).notify
    log := c.log ++ [.refill c.app.stock] }

/-- The next step of `fn_store`. -/
def stepStore : Option (Config nbClients) :=
  match c.store with
  | .entry | .notified => some { c with store := .checked c.app.isStockNotFull }
  | .checked true => if c.app.stop then some { c with store := .returned } else some c.refill
  | .checked false => some { c with store := .asleep }
  | .asleep | .returned => none

/-- A client past its wait, or that need not wait. -/
def take (i : Fin nbClients) (n : ℕ) (val : ℤ) : Config nbClients :=
  { c with
    app := { c.app with stock := c.app.stock - val }
    client := Function.update c.client i (.next n)
    log := c.log ++ [.take val c.app.stock] }

/-- `get_random` at the head of a client's iteration. -/
def stepDraw (i : Fin nbClients) (val : ℤ) : Option (Config nbClients) :=
  match c.client i with
  | .draws n => some { c with client := Function.update c.client i (.wants n val) }
  | _ => none

/-- The section of `fn_clients` under the lock, up to the end of the
iteration or to the wait. -/
def stepClient (i : Fin nbClients) : Option (Config nbClients) :=
  if c.locked then none
  else
    match c.client i with
    | .wants n val =>
      if c.app.isStockOk val then some (c.take i n val)
      else some { c with
        store := c.store.notify
        client := Function.update c.client i (.asleep n val) }
    | .notified n val =>
      if c.app.isStockOk val then some (c.take i n val)
      else some { c with client := Function.update c.client i (.asleep n val) }
    | _ => none

/-- The next step of `main`: a join, one of the two halves of `Stop`, or
the join of the store. -/
def stepMain : Option (Config nbClients) :=
  match c.main with
  | .joining i =>
    if h : i < nbClients then
      if c.client ⟨i, h⟩ = .finished then some { c with main := .joining (i + 1) } else none
    else some { c with app := { c.app with stop := true }, main := .stopping }
  | .stopping => some { c with store := c.store.notify, main := .joinStore }
  | .joinStore => if c.store = .returned then some { c with main := .returned } else none
  | .returned => none

/-- One step of the system. -/
def step : Act nbClients → Option (Config nbClients)
  | .store => c.stepStore
  | .draw i val => c.stepDraw i val
  | .client i => c.stepClient i
  | .main => c.stepMain
  | .wakeStore => if c.store = .asleep then some { c with store := .notified } else none
  | .wakeClient i =>
    match c.client i with
    | .asleep n val => some { c with client := Function.update c.client i (.notified n val) }
    | _ => none

end Config

/-- **The stock machine.** -/
def stockMachine (nbClients : ℕ) : Machine (Config nbClients) (Act nbClients) := ⟨Config.step⟩

end Application

end VireSandbox
