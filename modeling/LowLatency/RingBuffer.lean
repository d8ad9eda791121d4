import LowLatency.Concurrency.Object
import LowLatency.NextPowerOfTwo

/-!
# The ring buffer

`RingBuffer<T>` of `RingBuffer.h`, which is not thread safe: `ThreadPool` uses it under its mutex.
`Holds b l` says that `b` holds the items `l`, oldest first: the slots from `head` on are engaged,
and no others. `push` and `pop` are then the operations of a bounded queue (`Holds.push`,
`Holds.push_full`, `Holds.pop`, `Holds.pop_empty`).
-/

namespace LowLatency

open Concurrency

structure RingBuffer (α : Type*) where
  buffer : ℕ → Option α
  head : ℕ
  tail : ℕ
  capacity : Ring
  size : ℕ

namespace RingBuffer

variable {α : Type*}

/-- The constructor, with a rounded capacity. -/
def init (capacity : Ring) : RingBuffer α where
  buffer _ := none
  head := 0
  tail := 0
  capacity := capacity
  size := 0

def empty (b : RingBuffer α) : Bool := decide (b.size = 0)

def full (b : RingBuffer α) : Bool := decide (b.size = b.capacity.size)

/-- `push`. A refused item has not been moved from. -/
def push (b : RingBuffer α) (item : α) : RingBuffer α × Outcome α :=
  if b.full then (b, .refused item)
  else
    ({ b with
        buffer := Function.update b.buffer b.tail (some item)
        tail := b.capacity.slot (b.tail + 1)
        size := b.size + 1 }, .put)

/-- `pop`. `value()` throws on a slot that is not engaged. -/
def pop (b : RingBuffer α) : Except String (RingBuffer α × Outcome α) :=
  if b.empty then .ok (b, .nothing)
  else
    match b.buffer b.head with
    | none => .error "bad_optional_access"
    | some item =>
      .ok ({ b with
        buffer := Function.update b.buffer b.head none
        head := b.capacity.slot (b.head + 1)
        size := b.size - 1 }, .got item)

/-- The buffer holds the items `l`, oldest first. -/
structure Holds (b : RingBuffer α) (l : List α) : Prop where
  size_eq : b.size = l.length
  le : l.length ≤ b.capacity.size
  head_lt : b.head < b.capacity.size
  tail_eq : b.tail = b.capacity.slot (b.head + b.size)
  slots : ∀ i < b.capacity.size, b.buffer (b.capacity.slot (b.head + i)) = l[i]?

theorem holds_init (r : Ring) : (init r : RingBuffer α).Holds [] where
  size_eq := rfl
  le := Nat.zero_le _
  head_lt := r.size_pos
  tail_eq := by
    show 0 = r.slot (0 + 0)
    rw [Pow2.slot_eq_mod, Nat.zero_mod]
  slots i _ := rfl

/-- Advancing the head of a slot is advancing its position. -/
theorem slot_slot_add (r : Pow2) (p i : ℕ) : r.slot (r.slot p + i) = r.slot (p + i) := by
  simp only [Pow2.slot_eq_mod, Nat.mod_add_mod]

namespace Holds

variable {b : RingBuffer α} {l : List α} {x : α}

theorem empty_iff (h : b.Holds l) : b.empty = true ↔ l = [] := by
  unfold RingBuffer.empty
  rw [decide_eq_true_iff, h.size_eq, List.length_eq_zero_iff]

theorem full_iff (h : b.Holds l) : b.full = true ↔ l.length = b.capacity.size := by
  unfold RingBuffer.full
  rw [decide_eq_true_iff, h.size_eq]

theorem push (h : b.Holds l) (hroom : l.length < b.capacity.size) (x : α) :
    (b.push x).2 = .put ∧ (b.push x).1.Holds (l ++ [x]) ∧
      (b.push x).1.capacity = b.capacity := by
  have hfull : b.full = false := by
    by_contra hf
    have := h.full_iff.mp (by simpa using hf)
    omega
  unfold RingBuffer.push
  rw [if_neg (by simp [hfull])]
  refine ⟨rfl, ⟨?_, ?_, h.head_lt, ?_, ?_⟩, rfl⟩
  · show b.size + 1 = (l ++ [x]).length
    rw [h.size_eq, List.length_append, List.length_singleton]
  · show (l ++ [x]).length ≤ b.capacity.size
    rw [List.length_append, List.length_singleton]
    exact hroom
  · show b.capacity.slot (b.tail + 1) = b.capacity.slot (b.head + (b.size + 1))
    rw [h.tail_eq, slot_slot_add, Nat.add_assoc]
  · intro i hi
    have hi : i < b.capacity.size := hi
    show Function.update b.buffer b.tail (some x) (b.capacity.slot (b.head + i)) = (l ++ [x])[i]?
    rw [h.tail_eq, h.size_eq]
    by_cases he : i = l.length
    · rw [he, Function.update_self, List.getElem?_concat_length]
    · rw [Function.update_of_ne, h.slots i hi]
      · rcases Nat.lt_or_ge i l.length with hlt | hge
        · rw [List.getElem?_append_left hlt]
        · rw [List.getElem?_eq_none hge, List.getElem?_eq_none]
          rw [List.length_append, List.length_singleton]
          omega
      · intro hs
        have := b.capacity.slot_inj hs (by omega) (by omega)
        omega

theorem push_full (h : b.Holds l) (hfull : l.length = b.capacity.size) (x : α) :
    b.push x = (b, .refused x) :=
  if_pos (h.full_iff.mpr hfull)

/-- A pop from a buffer that is not empty takes the oldest item. -/
theorem pop (h : b.Holds (x :: l)) :
    ∃ b', b.pop = .ok (b', .got x) ∧ b'.Holds l ∧ b'.capacity = b.capacity := by
  have hempty : b.empty = false := by
    by_contra he
    cases h.empty_iff.mp (by simpa using he)
  have hhead : b.buffer b.head = some x := by
    have h0 := h.slots 0 b.capacity.size_pos
    rwa [Nat.add_zero, Pow2.slot_eq_mod, Nat.mod_eq_of_lt h.head_lt] at h0
  have hle := h.le
  have hsize := h.size_eq
  rw [List.length_cons] at hle hsize
  have hpop : b.pop = .ok ({ b with
      buffer := Function.update b.buffer b.head none
      head := b.capacity.slot (b.head + 1)
      size := b.size - 1 }, .got x) := by
    unfold RingBuffer.pop
    rw [if_neg (by simp [hempty])]
    simp only [hhead]
  refine ⟨_, hpop, ⟨?_, ?_, b.capacity.slot_lt _, ?_, ?_⟩, rfl⟩
  · show b.size - 1 = l.length
    omega
  · show l.length ≤ b.capacity.size
    omega
  · show b.tail = b.capacity.slot (b.capacity.slot (b.head + 1) + (b.size - 1))
    rw [h.tail_eq, slot_slot_add]
    congr 1
    omega
  · intro i hi
    have hi : i < b.capacity.size := hi
    show Function.update b.buffer b.head none
      (b.capacity.slot (b.capacity.slot (b.head + 1) + i)) = l[i]?
    have hself : b.capacity.slot b.head = b.head := by
      rw [Pow2.slot_eq_mod, Nat.mod_eq_of_lt h.head_lt]
    rw [slot_slot_add]
    by_cases he : i + 1 = b.capacity.size
    · rw [show b.head + 1 + i = b.head + b.capacity.size by omega, Pow2.slot_add_size, hself,
        Function.update_self, List.getElem?_eq_none (by omega)]
    · rw [show b.head + 1 + i = b.head + (i + 1) by omega, Function.update_of_ne,
        h.slots (i + 1) (by omega), List.getElem?_cons_succ]
      intro hs
      have := b.capacity.slot_inj (hs.trans hself.symm) (by omega) (by omega)
      omega

theorem pop_empty (h : b.Holds []) : b.pop = .ok (b, .nothing) :=
  if_pos (h.empty_iff.mpr rfl)

end Holds

end RingBuffer

end LowLatency
