import LowLatency.LockFreeQueue.Custody
import LowLatency.WorkStealingDeque.Custody

/-!
# The containers of the work-stealing pool

The pool uses one `LockFreeQueue` and a `WorkStealingDeque` for each worker. `Parts` is what it uses
of them: their operations and the counters that `empty()` and `full()` load. `Parts.real` are the
containers of the source, one atomic instruction at a time. In `Parts.atomic` each operation is one
step on a bounded list, which may also fail without effect.
-/

namespace LowLatency.WorkStealingThreadPool

open Concurrency

universe u

/-- The containers of the pool; `β` is what they hold. -/
structure Parts (β : Type u) where
  QS : Type u
  QL : Type u
  DS : Type u
  DL : Type u
  queue : Object (LockFreeQueue.Op β) (Outcome β) QS QL
  deque : Object (WorkStealingDeque.Op β) (Outcome β) DS DL
  newQueue : QS
  newDeque : DS
  tail : QS → ℕ
  head : QS → ℕ
  top : DS → ℕ
  bottom : DS → ℕ
  /-- The number of slots of the queue. -/
  size : ℕ

variable {β : Type u}

/-- The containers of the source, with positions that never wrap. -/
def Parts.real (β : Type u) [Inhabited β] (r : Ring) : Parts β where
  QS := LockFreeQueue.Shared β
  QL := LockFreeQueue.Local β
  DS := WorkStealingDeque.Shared β
  DL := WorkStealingDeque.Local β
  queue := LockFreeQueue.object .exact r
  deque := WorkStealingDeque.object r
  newQueue := LockFreeQueue.init
  newDeque := WorkStealingDeque.init
  tail := LockFreeQueue.Shared.tail
  head := LockFreeQueue.Shared.head
  top := WorkStealingDeque.Shared.top
  bottom := WorkStealingDeque.Shared.bottom
  size := r.size

/-! ## Containers with atomic operations -/

/-- The items of a bounded container, oldest first, and the position of the oldest. -/
structure Bounded (β : Type u) where
  items : List β
  first : ℕ

namespace Bounded

/-- A new container. -/
def new : Bounded β := ⟨[], 0⟩

/-- The position after the newest item. -/
def last (s : Bounded β) : ℕ := s.first + s.items.length

variable (cap : ℕ) (s : Bounded β)

/-- Insert a newest item, if there is room. -/
def push (x : β) : Bounded β × Outcome β :=
  if s.items.length < cap then ({ s with items := s.items ++ [x] }, .put) else (s, .refused x)

/-- Remove the oldest item. -/
def takeOldest : Bounded β × Outcome β :=
  match s.items with
  | [] => (s, .nothing)
  | x :: rest => (⟨rest, s.first + 1⟩, .got x)

/-- Remove the newest item. -/
def takeNewest : Bounded β × Outcome β :=
  match s.items.getLast? with
  | none => (s, .nothing)
  | some x => ({ s with items := s.items.dropLast }, .got x)

/-- The operations of the queue; `fails` makes one fail without effect. -/
def execQueue (fails : Bool) : LockFreeQueue.Op β → Bounded β × Outcome β
  | .push x => if fails then (s, .refused x) else s.push cap x
  | .pop => if fails then (s, .nothing) else s.takeOldest

/-- The operations of a deque; `fails` makes one fail without effect. -/
def execDeque (fails : Bool) : WorkStealingDeque.Op β → Bounded β × Outcome β
  | .push x => if fails then (s, .refused x) else s.push cap x
  | .pop => if fails then (s, .nothing) else s.takeNewest
  | .steal => if fails then (s, .nothing) else s.takeOldest

variable {cap s}

theorem push_items (x : β) : ((s.push cap x).1.items : Multiset β) + slot (s.push cap x).2.item =
    s.items + {x} := by
  unfold push
  split
  · exact add_zero _
  · rfl

theorem takeOldest_items : (s.takeOldest.1.items : Multiset β) + slot s.takeOldest.2.item =
    s.items := by
  unfold takeOldest
  split
  · exact add_zero _
  next x rest h =>
    rw [h, ← Multiset.cons_coe, add_comm, ← Multiset.singleton_add]
    rfl

theorem takeNewest_items : (s.takeNewest.1.items : Multiset β) + slot s.takeNewest.2.item =
    s.items := by
  unfold takeNewest
  split
  · exact add_zero _
  next x h =>
    obtain ⟨rest, hrest⟩ := List.getLast?_eq_some_iff.mp h
    rw [hrest, List.dropLast_concat, ← Multiset.coe_add]
    rfl

/-- The queue of atomic operations neither copies nor drops an item. -/
theorem custody_queue {Tid : Type*} [DecidableEq Tid] (may : Tid → LockFreeQueue.Op β → Bool) :
    (Object.atomic fun b s => execQueue cap s b).Custody may (fun _ _ => True)
      LockFreeQueue.Op.given (.atomic (fun s : Bounded β => s.items) LockFreeQueue.Op.given) := by
  refine Object.custody_atomic fun b s op => ?_
  cases op <;> cases b
  · exact push_items _
  · rfl
  · exact takeOldest_items.trans (add_zero _).symm
  · rfl

theorem custody_deque {Tid : Type*} [DecidableEq Tid] (may : Tid → WorkStealingDeque.Op β → Bool) :
    (Object.atomic fun b s => execDeque cap s b).Custody may (fun _ _ => True)
      WorkStealingDeque.Op.given
      (.atomic (fun s : Bounded β => s.items) WorkStealingDeque.Op.given) := by
  refine Object.custody_atomic fun b s op => ?_
  cases op <;> cases b
  · exact push_items _
  · rfl
  · exact takeNewest_items.trans (add_zero _).symm
  · rfl
  · exact takeOldest_items.trans (add_zero _).symm
  · rfl

end Bounded

/-- Containers whose operations are single steps that may fail without effect. -/
def Parts.atomic (β : Type u) (cap : ℕ) : Parts β where
  QS := Bounded β
  QL := LockFreeQueue.Op β ⊕ Outcome β
  DS := Bounded β
  DL := WorkStealingDeque.Op β ⊕ Outcome β
  queue := .atomic fun b s => Bounded.execQueue cap s b
  deque := .atomic fun b s => Bounded.execDeque cap s b
  newQueue := .new
  newDeque := .new
  tail := Bounded.last
  head := Bounded.first
  top := Bounded.first
  bottom := Bounded.last
  size := cap

end LowLatency.WorkStealingThreadPool
