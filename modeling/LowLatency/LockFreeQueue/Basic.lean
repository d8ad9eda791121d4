import Mathlib.Data.Int.ModEq
import LowLatency.Concurrency.Object
import LowLatency.NextPowerOfTwo

/-!
# The bounded MPMC queue

`LockFreeQueue<T>` of `LockFreeQueue.h`. Each constructor of `Local` is a point of `push` or
`pop` right before one atomic instruction or one access to a slot's `data`; `step` executes it.

Positions are 64-bit words in the source. `Word` is the arithmetic the code does on them:
`Word.u64` wraps like the registers, `Word.exact` is the same on natural numbers, which agree
while positions and sequence numbers stay below `2 ^ 63`.

A `T` is an element of `α` whose `default` stands for a default-constructed or moved-from object.
The three claim fields of `Shared` record history; no instruction reads them.
-/

namespace LowLatency.LockFreeQueue

open Concurrency

/-- What the registers keep of a position, and `intptr_t(a) - intptr_t(b)`. -/
structure Word where
  wrap : ℕ → ℕ
  dif : ℕ → ℕ → ℤ

/-- 64-bit two's complement registers. The difference is that of the source while both words are below
`2 ^ 63`; beyond, the signed subtraction of the source is undefined, and here it wraps. -/
def Word.u64 : Word := ⟨fun n => n % 2 ^ 64, fun a b => ((a : ℤ) - b).bmod (2 ^ 64)⟩

/-- Positions that never wrap. -/
def Word.exact : Word := ⟨id, fun a b => (a : ℤ) - b⟩

structure Cell (α : Type*) where
  sequence : ℕ
  data : α

/-- The members of the queue. `pushClaims` and `popClaims` list the claimed positions with the
item pushed there, respectively the slot's data at the claim, in claim order; `popReturns` what
the pops returned. -/
structure Shared (α : Type*) where
  tail : ℕ
  head : ℕ
  buffer : ℕ → Cell α
  pushClaims : List (ℕ × α)
  popClaims : List (ℕ × α)
  popReturns : List (ℕ × α)

inductive Op (α : Type*) where
  | push (item : α)
  | pop

/-- The next instruction of an operation, with the values it has loaded so far. -/
inductive Local (α : Type*) where
  | pushLoadTail (item : α)
  | pushLoadSequence (item : α) (pos : ℕ)
  | pushClaim (item : α) (pos : ℕ)
  | pushWrite (item : α) (pos : ℕ)
  | pushPublish (pos : ℕ)
  | popLoadHead
  | popLoadSequence (pos : ℕ)
  | popClaim (pos : ℕ)
  | popRead (pos : ℕ)
  | popPublish (pos : ℕ) (item : α)
  | done (r : Outcome α)

variable {α : Type*}

namespace Shared

def setData (s : Shared α) (j : ℕ) (x : α) : Shared α :=
  { s with buffer := Function.update s.buffer j { s.buffer j with data := x } }

def setSequence (s : Shared α) (j n : ℕ) : Shared α :=
  { s with buffer := Function.update s.buffer j { s.buffer j with sequence := n } }

/-- `buffer_[j].sequence`. -/
def sequence (s : Shared α) (j : ℕ) : ℕ := (s.buffer j).sequence

/-- `buffer_[j].data`. -/
def data (s : Shared α) (j : ℕ) : α := (s.buffer j).data

section Fields

variable (s : Shared α) (j n : ℕ) (x : α)

@[simp] theorem setData_tail : (s.setData j x).tail = s.tail := rfl
@[simp] theorem setData_head : (s.setData j x).head = s.head := rfl
@[simp] theorem setData_pushClaims : (s.setData j x).pushClaims = s.pushClaims := rfl
@[simp] theorem setData_popClaims : (s.setData j x).popClaims = s.popClaims := rfl
@[simp] theorem setData_popReturns : (s.setData j x).popReturns = s.popReturns := rfl
@[simp] theorem setSequence_tail : (s.setSequence j n).tail = s.tail := rfl
@[simp] theorem setSequence_head : (s.setSequence j n).head = s.head := rfl
@[simp] theorem setSequence_pushClaims : (s.setSequence j n).pushClaims = s.pushClaims := rfl
@[simp] theorem setSequence_popClaims : (s.setSequence j n).popClaims = s.popClaims := rfl
@[simp] theorem setSequence_popReturns : (s.setSequence j n).popReturns = s.popReturns := rfl

@[simp] theorem setData_sequence (k : ℕ) : (s.setData j x).sequence k = s.sequence k := by
  by_cases h : k = j
  · subst h; simp [setData, sequence]
  · simp [setData, sequence, h]

theorem setData_data (k : ℕ) : (s.setData j x).data k = if k = j then x else s.data k := by
  by_cases h : k = j
  · subst h; simp [setData, data]
  · simp [setData, data, h]

@[simp] theorem setSequence_data (k : ℕ) : (s.setSequence j n).data k = s.data k := by
  by_cases h : k = j
  · subst h; simp [setSequence, data]
  · simp [setSequence, data, h]

theorem setSequence_sequence (k : ℕ) :
    (s.setSequence j n).sequence k = if k = j then n else s.sequence k := by
  by_cases h : k = j
  · subst h; simp [setSequence, sequence]
  · simp [setSequence, sequence, h]

end Fields

end Shared

variable [Inhabited α]

/-- The constructor: slot `i` expects position `i`. -/
def init : Shared α where
  tail := 0
  head := 0
  buffer i := ⟨i, default⟩
  pushClaims := []
  popClaims := []
  popReturns := []

def start : Op α → Local α
  | .push item => .pushLoadTail item
  | .pop => .popLoadHead

/-- One instruction; `spurious` makes a `compare_exchange_weak` fail without a mismatch. -/
def step (w : Word) (r : Ring) (spurious : Bool) (s : Shared α) : Local α → Shared α × Local α
  | .pushLoadTail item => (s, .pushLoadSequence item s.tail)
  | .pushLoadSequence item pos =>
    let dif := w.dif (s.sequence (r.slot pos)) pos
    if dif = 0 then (s, .pushClaim item pos)
    else if dif < 0 then (s, .done (.refused item))
    else (s, .pushLoadTail item)
  | .pushClaim item pos =>
    if s.tail = pos ∧ spurious = false then
      ({ s with tail := w.wrap (pos + 1), pushClaims := s.pushClaims ++ [(pos, item)] },
        .pushWrite item pos)
    else (s, .pushLoadSequence item s.tail)
  | .pushWrite item pos => (s.setData (r.slot pos) item, .pushPublish pos)
  | .pushPublish pos => (s.setSequence (r.slot pos) (w.wrap (pos + 1)), .done .put)
  | .popLoadHead => (s, .popLoadSequence s.head)
  | .popLoadSequence pos =>
    let dif := w.dif (s.sequence (r.slot pos)) (w.wrap (pos + 1))
    if dif = 0 then (s, .popClaim pos)
    else if dif < 0 then (s, .done .nothing)
    else (s, .popLoadHead)
  | .popClaim pos =>
    if s.head = pos ∧ spurious = false then
      ({ s with
          head := w.wrap (pos + 1)
          popClaims := s.popClaims ++ [(pos, s.data (r.slot pos))] },
        .popRead pos)
    else (s, .popLoadSequence s.head)
  | .popRead pos => (s.setData (r.slot pos) default, .popPublish pos (s.data (r.slot pos)))
  | .popPublish pos item =>
    ({ s.setSequence (r.slot pos) (w.wrap (pos + r.size)) with
        popReturns := s.popReturns ++ [(pos, item)] },
      .done (.got item))
  | .done o => (s, .done o)

def result : Local α → Option (Outcome α)
  | .done o => some o
  | _ => none

/-- The queue as a shared object. -/
def object (w : Word) (r : Ring) : Object (Op α) (Outcome α) (Shared α) (Local α) where
  start := start
  step := step w r
  result := result

/-- Any number of producers and consumers on the queue. -/
abbrev system (Tid : Type*) [DecidableEq Tid] (w : Word) (r : Ring) :
    System (Config Tid (Shared α) (Local α)) (Action Tid (Op α)) :=
  (object w r).client fun _ _ => true

/-- A new queue, used by nobody yet. -/
def initial (Tid : Type*) : Config Tid (Shared α) (Local α) := ⟨init, fun _ => none⟩

/-- `full()` loads `tail_` and then `head_`. -/
def full (r : Ring) (t h : ℕ) : Bool := decide ((r.size : ℤ) ≤ (t : ℤ) - h)

/-- `empty()` loads `tail_` and then `head_`. -/
def empty (t h : ℕ) : Bool := decide ((t : ℤ) ≤ h)

namespace Local

/-- The position an operation has claimed and not yet published. -/
def claimed : Local α → Option ℕ
  | .pushWrite _ pos | .pushPublish pos | .popRead pos | .popPublish pos _ => some pos
  | _ => none

/-- The position whose slot's data the next instruction reads or writes. -/
def accesses : Local α → Option ℕ
  | .pushWrite _ pos | .popRead pos => some pos
  | _ => none

/-- The operation is a pop past its claim that has not yet taken the data. -/
def reading : Local α → Option ℕ
  | .popRead pos => some pos
  | _ => none

end Local

end LowLatency.LockFreeQueue
