import Mathlib.Data.Nat.ModEq
import LowLatency.LockFreeQueue.Sequential
import LowLatency.RingBuffer

/-!
# The ring buffer as a bounded queue

Every sequence of calls on a new buffer runs through, is answered as a bounded FIFO list answers it,
and leaves the members in the shape that `Faithful` describes (`refines_fifo`). The full and the empty
buffer have equal `head` and `tail`; `size_` tells them apart.
-/

namespace LowLatency.RingBuffer

open Concurrency LockFreeQueue

variable {α : Type*}

/-- One call. -/
def call (b : RingBuffer α) : Op α → Except String (RingBuffer α × Outcome α)
  | .push x => .ok (b.push x)
  | .pop => b.pop

/-- A sequence of calls: what they leave and return, unless one of them throws. -/
def calls (b : RingBuffer α) : List (Op α) → Except String (RingBuffer α × List (Outcome α))
  | [] => .ok (b, [])
  | op :: ops =>
    match b.call op with
    | .error e => .error e
    | .ok (b', o) =>
      match b'.calls ops with
      | .error e => .error e
      | .ok (b'', os) => .ok (b'', o :: os)

/-- The members of a buffer of `capacity` slots that holds `items`, oldest first. -/
structure Faithful (b : RingBuffer α) (capacity : Ring) (items : List α) : Prop where
  capacity_eq : b.capacity = capacity
  head_lt : b.head < capacity.size
  tail_lt : b.tail < capacity.size
  size_eq : b.size = items.length
  size_modEq : b.head + b.size ≡ b.tail [MOD capacity.size]
  /-- Exactly the `size_` slots from `head` onwards are engaged. -/
  engaged : ∀ j < capacity.size,
    (b.buffer j).isSome = true ↔ ∃ i < b.size, capacity.slot (b.head + i) = j
  /-- They hold the items in order. -/
  inOrder : ∀ i < b.size, b.buffer (capacity.slot (b.head + i)) = items[i]?
  /-- A push fails exactly on a full buffer, and then leaves the buffer and its argument alone. -/
  push_fails : ∀ x, if items.length = capacity.size then b.push x = (b, .refused x)
    else (b.push x).2 = .put
  /-- A pop fails exactly on an empty buffer. -/
  pop_fails : b.pop = .ok (b, .nothing) ↔ items = []

namespace Holds

variable {b : RingBuffer α} {l : List α}

theorem exists_slot (r : Ring) (head : ℕ) {j : ℕ} (hj : j < r.size) :
    ∃ i < r.size, r.slot (head + i) = j := by
  have hpos := r.size_pos
  refine ⟨(j + (r.size - head % r.size)) % r.size, Nat.mod_lt _ hpos, ?_⟩
  have hlt := Nat.mod_lt head hpos
  have hdiv := Nat.div_add_mod head r.size
  rw [r.slot_eq_mod, Nat.add_mod, Nat.mod_mod, ← Nat.add_mod]
  have hsum : head + (j + (r.size - head % r.size)) = j + r.size * (head / r.size + 1) := by
    rw [Nat.mul_add, Nat.mul_one]
    omega
  rw [hsum, Nat.add_mul_mod_self_left, Nat.mod_eq_of_lt hj]

theorem faithful (h : b.Holds l) : b.Faithful b.capacity l where
  capacity_eq := rfl
  head_lt := h.head_lt
  tail_lt := by
    rw [h.tail_eq]
    exact b.capacity.slot_lt _
  size_eq := h.size_eq
  size_modEq := by
    show (b.head + b.size) % b.capacity.size = b.tail % b.capacity.size
    rw [h.tail_eq, Pow2.slot_eq_mod, Nat.mod_mod]
  engaged j hj := by
    have hle := h.le
    have hsize := h.size_eq
    obtain ⟨i, hi, rfl⟩ := exists_slot b.capacity b.head hj
    rw [h.slots i hi]
    constructor
    · intro hsome
      refine ⟨i, ?_, rfl⟩
      rw [h.size_eq]
      by_contra hge
      rw [List.getElem?_eq_none (by omega)] at hsome
      cases hsome
    · rintro ⟨k, hk, hslot⟩
      have hki : b.head + k = b.head + i := b.capacity.slot_inj hslot (by omega) (by omega)
      rw [List.getElem?_eq_getElem (by omega)]
      rfl
  inOrder i hi := by
    have hle := h.le
    have hsize := h.size_eq
    exact h.slots i (by omega)
  push_fails x := by
    split
    next hfull => exact h.push_full hfull x
    next hroom => exact (h.push (lt_of_le_of_ne h.le hroom) x).1
  pop_fails := by
    constructor
    · intro hpop
      cases l with
      | nil => rfl
      | cons x l =>
        obtain ⟨b', hgot, _⟩ := h.pop
        rw [hpop] at hgot
        cases hgot
    · rintro rfl
      exact h.pop_empty

theorem call (h : b.Holds l) (op : Op α) : ∃ b',
    b.call op = .ok (b', (fifoStep b.capacity.size l op).2) ∧
      b'.Holds (fifoStep b.capacity.size l op).1 ∧ b'.capacity = b.capacity := by
  cases op with
  | push x =>
    by_cases hfull : l.length = b.capacity.size
    · refine ⟨b, ?_, ?_, rfl⟩
      · simp only [RingBuffer.call, fifoStep, h.push_full hfull, if_pos hfull]
      · simp only [fifoStep, if_pos hfull]
        exact h
    · obtain ⟨hput, hholds, hcap⟩ := h.push (lt_of_le_of_ne h.le hfull) x
      simp only [fifoStep, if_neg hfull]
      exact ⟨(b.push x).1, congrArg Except.ok (Prod.ext rfl hput), hholds, hcap⟩
  | pop =>
    cases l with
    | nil => exact ⟨b, h.pop_empty, h, rfl⟩
    | cons x l => exact h.pop

/-- Every sequence of calls is answered as the list answers it. -/
theorem calls (ops : List (Op α)) : ∀ {b : RingBuffer α} {l : List α}, b.Holds l → ∃ b',
    b.calls ops = .ok (b', Object.answers (fifoStep b.capacity.size) l ops) ∧
      b'.Holds (Object.after (fifoStep b.capacity.size) l ops) ∧ b'.capacity = b.capacity := by
  induction ops with
  | nil =>
    intro b l h
    exact ⟨b, rfl, h, rfl⟩
  | cons op ops ih =>
    intro b l h
    obtain ⟨b₁, hcall, h₁, hcap₁⟩ := h.call op
    obtain ⟨b', hcalls, h', hcap'⟩ := ih h₁
    rw [hcap₁] at hcalls h' hcap'
    refine ⟨b', ?_, h', hcap'⟩
    simp only [RingBuffer.calls, hcall, hcalls]
    rfl

end Holds

/-- **Refinement.** For every requested capacity up to `2 ^ 63`, every sequence of calls on a new
buffer is answered as a FIFO list of the rounded capacity answers it; no call throws, and the members
stay faithful to the list. -/
theorem refines_fifo (c : SizeT) (hc : c.toNat ≤ 2 ^ 63) : ∃ r, Ring.ofRequested c = .ok r ∧
    ∀ ops : List (Op α), ∃ b,
      (init r).calls ops = .ok (b, Object.answers (fifoStep r.size) [] ops) ∧
        b.Faithful r (Object.after (fifoStep r.size) [] ops) := by
  obtain ⟨s, hs⟩ := nextPowerOfTwoChecked_ok hc
  obtain ⟨r, hr, _⟩ := Ring.ofRequested_ok hs
  refine ⟨r, hr, fun ops => ?_⟩
  obtain ⟨b, hcalls, hholds, hcap⟩ := (holds_init r (α := α)).calls ops
  have hcap' : b.capacity = r := hcap
  refine ⟨b, hcalls, ?_⟩
  have hfaithful := hholds.faithful
  rw [hcap'] at hfaithful
  exact hfaithful

/-- A request for three slots makes a buffer of four; the fifth push is refused. -/
theorem refines_fifo_three : ∃ r b, Ring.ofRequested 3 = .ok r ∧
    (init r).calls [.push 1, .push 2, .push 3, .push 4, .push 5, .pop] =
      .ok (b, [.put, .put, .put, .put, .refused 5, .got 1]) ∧ b.Faithful r [2, 3, 4] := by
  obtain ⟨r, hr, h⟩ := refines_fifo (α := ℕ) 3 (by decide)
  obtain ⟨r', hr', hsize⟩ := Ring.ofRequested_ok (c := 3) (s := 4) rfl
  obtain rfl : r' = r := Except.ok.inj (hr'.symm.trans hr)
  have hfour : r'.size = 4 := hsize
  obtain ⟨b, hcalls, hfaithful⟩ := h [.push 1, .push 2, .push 3, .push 4, .push 5, .pop]
  rw [hfour] at hcalls hfaithful
  exact ⟨r', b, hr, hcalls, hfaithful⟩

end LowLatency.RingBuffer
