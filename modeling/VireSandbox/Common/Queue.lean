import Mathlib.Data.List.Count
/-!
# Queues — deliveries and their acknowledgements

A queue with one consumer. What waits is delivered first in, first out,
each delivery under a tag of its own, and a delivery is held until the
consumer acknowledges its tag. The prefetch bounds how many the consumer
may hold, so that with a prefetch of one a delivery that is never
acknowledged is the last (`Holds.deliver`).
-/

namespace VireSandbox

/-- **A queue and its consumer**: what waits, the deliveries made so far,
the tags among them that are held, and the acknowledgements received. -/
structure Queue (μ : Type*) where
  ready : List μ
  delivered : ℕ
  unacked : List ℕ
  acks : List ℕ
  deriving DecidableEq, Repr

namespace Queue

variable {μ : Type*}

def empty : Queue μ := ⟨[], 0, [], []⟩

variable (q : Queue μ)

def publish (m : μ) : Queue μ := { q with ready := q.ready ++ [m] }

/-- The next delivery, unless the consumer holds as many as it may. Its
tag is the number of deliveries before it. -/
def deliver (prefetch : ℕ) : Option (μ × Queue μ) :=
  match q.ready with
  | [] => none
  | m :: ready =>
    if q.unacked.length < prefetch then
      some (m, { q with
        ready := ready
        delivered := q.delivered + 1
        unacked := q.unacked ++ [q.delivered] })
    else none

def ack (tag : ℕ) : Queue μ :=
  { q with unacked := q.unacked.erase tag, acks := q.acks ++ [tag] }

/-- Nothing is held, and every delivery was acknowledged exactly once. -/
def Settled : Prop :=
  q.unacked = [] ∧ ∀ tag, q.acks.count tag = if tag < q.delivered then 1 else 0

/-- The last delivery is held, and every one before it was acknowledged
exactly once. -/
def Holds (tag : ℕ) : Prop :=
  q.delivered = tag + 1 ∧ q.unacked = [tag] ∧
    ∀ t, q.acks.count t = if t < tag then 1 else 0

variable {q} {q' : Queue μ} {m : μ} {tag prefetch : ℕ}

theorem settled_empty : (empty : Queue μ).Settled := ⟨rfl, fun tag => by simp [empty]⟩

theorem Settled.publish (h : q.Settled) (m : μ) : (q.publish m).Settled := h

theorem Holds.publish (h : q.Holds tag) (m : μ) : (q.publish m).Holds tag := h

theorem Holds.not_settled (h : q.Holds tag) : ¬ q.Settled := by
  rintro ⟨hnil, -⟩
  rw [h.2.1] at hnil
  cases hnil

theorem deliver_eq_some_iff :
    q.deliver prefetch = some (m, q') ↔ q.unacked.length < prefetch ∧ q.ready = m :: q'.ready ∧
      q' = { q with
        ready := q'.ready
        delivered := q.delivered + 1
        unacked := q.unacked ++ [q.delivered] } := by
  unfold deliver
  split
  · next hready => simp [hready]
  · next m' ready hready =>
    by_cases hlt : q.unacked.length < prefetch
    · rw [if_pos hlt, hready]
      constructor
      · intro h
        cases h
        exact ⟨hlt, rfl, rfl⟩
      · rintro ⟨-, hcons, hq⟩
        cases hcons
        rw [hq]
    · simp [hlt]

/-- **A delivery out of a settled queue is held.** -/
theorem Settled.deliver (h : q.Settled) (hd : q.deliver prefetch = some (m, q')) :
    q'.Holds q.delivered := by
  obtain ⟨-, -, hq⟩ := deliver_eq_some_iff.1 hd
  obtain ⟨hnil, hacks⟩ := h
  rw [hq]
  exact ⟨rfl, by simp [hnil], hacks⟩

/-- **Its acknowledgement settles the queue.** -/
theorem Holds.ack (h : q.Holds tag) : (q.ack tag).Settled := by
  obtain ⟨hdelivered, hunacked, hacks⟩ := h
  refine ⟨by simp [Queue.ack, hunacked], fun t => ?_⟩
  change (q.acks ++ [tag]).count t = if t < q.delivered then 1 else 0
  rw [List.count_append, hacks t, hdelivered]
  -- the new acknowledgement is the first of its tag, and no other's
  rcases Nat.lt_trichotomy t tag with hlt | rfl | hgt
  · rw [if_pos hlt, if_pos (by omega), List.count_singleton]
    simp [Nat.ne_of_gt hlt]
  · simp
  · rw [if_neg (by omega), if_neg (by omega), List.count_singleton]
    simp [Nat.ne_of_lt hgt]

/-- **With a prefetch of one, what is held bars what waits.** -/
theorem Holds.deliver (h : q.Holds tag) : q.deliver 1 = none := by
  unfold Queue.deliver
  split
  · rfl
  · simp [h.2.1]

/-- **A settled queue delivers.** -/
theorem Settled.exists_deliver (h : q.Settled) (hpos : 0 < prefetch) (hne : q.ready ≠ []) :
    (q.deliver prefetch).isSome := by
  unfold Queue.deliver
  split
  · next hready => exact absurd hready hne
  · simp [h.1, hpos]

end Queue

end VireSandbox
