import LowLatency.Concurrency.Object
import LowLatency.NextPowerOfTwo

/-!
# The ring buffer of one producer and one consumer

`SPSCRingBuffer<T>` of `SPSCRingBuffer.h`. The producer owns `tail_` and the consumer `head_`; each
loads the counter of the other. Each constructor of `Local` is a point of an operation right before
one access to a counter or to a slot. The counters are 64-bit words that wrap.

`moved x` is what a move leaves behind of `x`. `emplaced` and `popped` are history, which no
instruction reads: all items ever put into slots and all ever moved out, in order; `published` and
`freed` count what the stores to `tail_` and `head_` have handed over, without wrapping.
-/

namespace LowLatency.SPSCRingBuffer

open Concurrency

/-- How the producer's items get into the slots. -/
inductive Transfer where
  | copy
  | move
  deriving DecidableEq

/-- The array of a batch, whose length is a `size_t`. -/
structure Items (α : Type*) where
  list : List α
  length_lt : list.length < 2 ^ 64

inductive Side where
  | producer
  | consumer
  deriving DecidableEq

/-- The members of the buffer. A slot is a `std::optional`. -/
structure Shared (α : Type*) where
  head : SizeT
  tail : SizeT
  buffer : ℕ → Option α
  emplaced : List α
  popped : List α
  published : ℕ
  freed : ℕ

inductive Op (α : Type*) where
  | tryPush (item : α) (how : Transfer)
  | tryPushBatch (items : Items α) (how : Transfer)
  | tryPop
  | tryPopBatch (max : SizeT)

/-- What an operation returns, and what the caller's variables hold afterwards. -/
inductive Result (α : Type*) where
  | pushed (ok : Bool) (item : α)
  | pushedBatch (k : SizeT) (items : List α)
  | empty
  | popped (out : α)
  | poppedBatch (k : SizeT) (out : List α)
  | badOptionalAccess
  /-- An access beyond the end of the caller's array. -/
  | outOfRange
  deriving DecidableEq

/-- The next access of an operation, with the values it has loaded so far. The batch operations count
the slots with `i`, and `k` is where they stop. -/
inductive Local (α : Type*) where
  | pushLoadTail (item : α) (how : Transfer)
  | pushLoadHead (item : α) (how : Transfer) (t : SizeT)
  | pushEmplace (item : α) (how : Transfer) (t : SizeT)
  | pushStoreTail (item : α) (t : SizeT)
  | pushBatchLoadTail (items : Items α) (how : Transfer)
  | pushBatchLoadHead (items : Items α) (how : Transfer) (t : SizeT)
  | pushBatchEmplace (items : List α) (how : Transfer) (t k i : SizeT)
  | pushBatchStoreTail (items : List α) (t k : SizeT)
  | popLoadHead
  | popLoadTail (h : SizeT)
  | popValue (h : SizeT)
  | popReset (h : SizeT) (out : α)
  | popStoreHead (h : SizeT) (out : α)
  | popBatchLoadHead (max : SizeT)
  | popBatchLoadTail (max h : SizeT)
  | popBatchValue (h k i : SizeT) (out : List α)
  | popBatchReset (h k i : SizeT) (out : List α)
  | popBatchStoreHead (h k : SizeT) (out : List α)
  | done (r : Result α)

variable {α : Type*}

/-- What the transfer leaves behind. -/
def Transfer.leaves (moved : α → α) : Transfer → α → α
  | .copy => id
  | .move => moved

/-- The constructor. -/
def init : Shared α where
  head := 0
  tail := 0
  buffer _ := none
  emplaced := []
  popped := []
  published := 0
  freed := 0

/-- `buffer_.size()`. -/
def count (r : Ring) : SizeT := BitVec.ofNat 64 r.size

/-- `pos & mask_`. -/
def index (r : Ring) (pos : SizeT) : ℕ := (pos &&& (count r - 1)).toNat

/-- `std::min`. -/
def stdMin (a b : SizeT) : SizeT := if b < a then b else a

namespace Shared

variable (s : Shared α)

def setSlot (j : ℕ) (o : Option α) : Shared α := { s with buffer := Function.update s.buffer j o }

/-- `emplace(item)`. -/
def emplace (j : ℕ) (item : α) : Shared α :=
  { s.setSlot j (some item) with emplaced := s.emplaced ++ [item] }

/-- Move out of `value()`. -/
def take (moved : α → α) (j : ℕ) (item : α) : Shared α :=
  { s.setSlot j (some (moved item)) with popped := s.popped ++ [item] }

/-- A store of `t + k` to `tail_`. -/
def storeTail (t k : SizeT) : Shared α :=
  { s with tail := t + k, published := s.published + k.toNat }

/-- A store of `h + k` to `head_`. -/
def storeHead (h k : SizeT) : Shared α :=
  { s with head := h + k, freed := s.freed + k.toNat }

/-- The items that the producer has handed over. -/
def pushed : List α := s.emplaced.take s.published

end Shared

def start : Op α → Local α
  | .tryPush item how => .pushLoadTail item how
  | .tryPushBatch items how => .pushBatchLoadTail items how
  | .tryPop => .popLoadHead
  | .tryPopBatch max => .popBatchLoadHead max

namespace Local

/-- The head of the loop of `tryPushBatch`. -/
def pushBatchLoop (items : List α) (how : Transfer) (t k i : SizeT) : Local α :=
  if i < k then .pushBatchEmplace items how t k i else .pushBatchStoreTail items t k

/-- The head of the loop of `tryPopBatch`. -/
def popBatchLoop (h k i : SizeT) (out : List α) : Local α :=
  if i < k then .popBatchValue h k i out else .popBatchStoreHead h k out

end Local

/-- One access. -/
def step (moved : α → α) (r : Ring) (_ : Bool) (s : Shared α) : Local α → Shared α × Local α
  | .pushLoadTail item how => (s, .pushLoadHead item how s.tail)
  | .pushLoadHead item how t =>
    if count r ≤ t - s.head then (s, .done (.pushed false item)) else (s, .pushEmplace item how t)
  | .pushEmplace item how t =>
    (s.emplace (index r t) item, .pushStoreTail (how.leaves moved item) t)
  | .pushStoreTail item t => (s.storeTail t 1, .done (.pushed true item))
  | .pushBatchLoadTail items how => (s, .pushBatchLoadHead items how s.tail)
  | .pushBatchLoadHead items how t =>
    let space := count r - (t - s.head)
    let k := stdMin (BitVec.ofNat 64 items.list.length) space
    (s, .pushBatchLoop items.list how t k 0)
  | .pushBatchEmplace items how t k i =>
    match items[i.toNat]? with
    | none => (s, .done .outOfRange)
    | some item =>
      (s.emplace (index r (t + i)) item,
        .pushBatchLoop (items.set i.toNat (how.leaves moved item)) how t k (i + 1))
  | .pushBatchStoreTail items t k => (s.storeTail t k, .done (.pushedBatch k items))
  | .popLoadHead => (s, .popLoadTail s.head)
  | .popLoadTail h => if h = s.tail then (s, .done .empty) else (s, .popValue h)
  | .popValue h =>
    match s.buffer (index r h) with
    | none => (s, .done .badOptionalAccess)
    | some item => (s.take moved (index r h) item, .popReset h item)
  | .popReset h out => (s.setSlot (index r h) none, .popStoreHead h out)
  | .popStoreHead h out => (s.storeHead h 1, .done (.popped out))
  | .popBatchLoadHead max => (s, .popBatchLoadTail max s.head)
  | .popBatchLoadTail max h =>
    let available := s.tail - h
    let k := stdMin max available
    (s, .popBatchLoop h k 0 [])
  | .popBatchValue h k i out =>
    match s.buffer (index r (h + i)) with
    | none => (s, .done .badOptionalAccess)
    | some item => (s.take moved (index r (h + i)) item, .popBatchReset h k i (out ++ [item]))
  | .popBatchReset h k i out =>
    (s.setSlot (index r (h + i)) none, .popBatchLoop h k (i + 1) out)
  | .popBatchStoreHead h k out => (s.storeHead h k, .done (.poppedBatch k out))
  | .done o => (s, .done o)

def result : Local α → Option (Result α)
  | .done o => some o
  | _ => none

/-- The buffer as a shared object. -/
def object (moved : α → α) (r : Ring) : Object (Op α) (Result α) (Shared α) (Local α) where
  start := start
  step := step moved r
  result := result

/-- The producer pushes and the consumer pops. -/
def may : Side → Op α → Bool
  | .producer, .tryPush _ _ | .producer, .tryPushBatch _ _ => true
  | .consumer, .tryPop | .consumer, .tryPopBatch _ => true
  | _, _ => false

/-- One producer and one consumer on the buffer. -/
abbrev system (moved : α → α) (r : Ring) : System (Config Side (Shared α) (Local α)) (Action Side (Op α)) :=
  (object moved r).client may

/-- A new buffer, used by nobody yet. -/
def initial (α : Type*) : Config Side (Shared α) (Local α) := ⟨init, fun _ => none⟩

namespace Local

/-- The slot that the next access emplaces into. -/
def emplaces (r : Ring) : Local α → Option ℕ
  | .pushEmplace _ _ t => some (index r t)
  | .pushBatchEmplace _ _ t _ i => some (index r (t + i))
  | _ => none

/-- The slot whose `value()` the next access calls. -/
def values (r : Ring) : Local α → Option ℕ
  | .popValue h => some (index r h)
  | .popBatchValue h _ i _ => some (index r (h + i))
  | _ => none

end Local

/-! ## Arithmetic of the counters -/

section Counters

/-- The distance of two counters that are less than a lap of the words apart. -/
theorem toNat_sub_ofNat {a b : ℕ} (hle : b ≤ a) (hlt : a - b < 2 ^ 64) :
    (BitVec.ofNat 64 a - BitVec.ofNat 64 b).toNat = a - b := by
  rw [BitVec.toNat_sub, BitVec.toNat_ofNat, BitVec.toNat_ofNat]
  omega

theorem toNat_count (r : Ring) : (count r).toNat = r.size := by
  have hle := r.size_le
  rw [count, BitVec.toNat_ofNat]
  omega

theorem toNat_stdMin (a b : SizeT) : (stdMin a b).toNat = min a.toNat b.toNat := by
  unfold stdMin
  split
  next h => exact (min_eq_right (BitVec.le_of_lt h)).symm
  next h => exact (min_eq_left (BitVec.not_lt.mp h)).symm

/-- The mask finds the slot of the position even when the counter has wrapped. -/
theorem index_ofNat_add (r : Ring) (p : ℕ) (i : SizeT) :
    index r (BitVec.ofNat 64 p + i) = r.slot (p + i.toNat) := by
  obtain ⟨m, hm⟩ := r.size_dvd
  have hpos := r.size_pos
  have hle := r.size_le
  have hmask : (count r - 1).toNat = r.mask := by
    rw [BitVec.toNat_sub, toNat_count]
    show (2 ^ 64 - 1 + r.size) % 2 ^ 64 = r.size - 1
    omega
  have hmod : (p + i.toNat) % 2 ^ 64 % r.size = (p + i.toNat) % r.size :=
    Nat.mod_mod_of_dvd _ r.size_dvd
  rw [index, BitVec.toNat_and, hmask, BitVec.toNat_add, BitVec.toNat_ofNat, Nat.mod_add_mod]
  exact ((r.slot_eq_mod _).trans hmod).trans (r.slot_eq_mod _).symm

theorem index_ofNat (r : Ring) (p : ℕ) : index r (BitVec.ofNat 64 p) = r.slot p := by
  have h := index_ofNat_add r p 0#64
  rwa [BitVec.add_zero] at h

end Counters

end LowLatency.SPSCRingBuffer
