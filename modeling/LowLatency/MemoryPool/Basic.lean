import Mathlib.Algebra.Order.Group.Multiset
import Mathlib.Algebra.Ring.Nat
import Mathlib.Data.List.Basic
import LowLatency.Concurrency.System

/-!
# The task pool

`MemoryPool` of `MemoryPool.h` and `MemoryPool.cpp`. A `Task *` is the number of its block and its
index there. `blocks_` and `free_` are used under the mutex only, so `acquire` is one step; `release`
resets the task before it locks, and is two.

The allocations of one `acquire` are told apart by what they are for; `fails` is the one that throws.
What a vector grows to is left open (`Growth`). `constructed` is history: the slots in which a `Task`
was constructed, in that order; the destructor destroys one in each slot of each block.
-/

namespace LowLatency.MemoryPool

open Concurrency

/-- The capacity that a full vector grows to. -/
structure Growth where
  next : ℕ → ℕ
  lt_next : ∀ n, n < next n

/-- A `std::vector`. -/
structure Vec (β : Type*) where
  items : List β
  capacity : ℕ

/-- A slot in the storage of a block. -/
structure TaskPtr where
  block : ℕ
  index : ℕ
  deriving DecidableEq

/-- What `acquire` allocates memory for: the block object, its storage, `blocks_`, and `free_` when it
is to take the task with the given index. -/
inductive Allocation where
  | blockObject
  | blockStorage
  | blocksGrowth
  | freeGrowth (i : ℕ)
  deriving DecidableEq

/-- The members of the pool, the `func_` of the tasks, and the slots with a constructed task. A block is
its capacity. -/
structure Pool (F : Type*) where
  expandable : Bool
  initialCapacity : ℕ
  blocks : Vec ℕ
  free : Vec TaskPtr
  func : TaskPtr → Option F
  constructed : List TaskPtr

namespace Vec

variable {β : Type*}

def empty : Vec β := ⟨[], 0⟩

def reserve (v : Vec β) (n : ℕ) : Vec β := { v with capacity := max v.capacity n }

/-- The next `push_back` allocates. -/
def Full (v : Vec β) : Prop := v.capacity ≤ v.items.length

instance (v : Vec β) : Decidable v.Full := inferInstanceAs (Decidable (_ ≤ _))

/-- `push_back`. -/
def push (g : Growth) (v : Vec β) (x : β) : Vec β :=
  ⟨v.items ++ [x], if v.Full then g.next v.capacity else v.capacity⟩

/-- `pop_back`. -/
def pop (v : Vec β) : Vec β := { v with items := v.items.dropLast }

end Vec

variable {F : Type*}

namespace Pool

/-- `new (p + i * sizeof(Task)) Task()`. -/
def construct (p : Pool F) (task : TaskPtr) : Pool F :=
  { p with
    func := Function.update p.func task none
    constructed := p.constructed ++ [task] }

/-- The loop of `addBlock` at index `i`, with `n` tasks to go. -/
def addTasks (g : Growth) (fails : Option Allocation) (block : ℕ) :
    ℕ → ℕ → Pool F → Pool F × Except Allocation Unit
  | _, 0, p => (p, .ok ())
  | i, n + 1, p =>
    let q := p.construct ⟨block, i⟩
    if q.free.Full ∧ fails = some (.freeGrowth i) then (q, .error (.freeGrowth i))
    else addTasks g fails block (i + 1) n { q with free := q.free.push g ⟨block, i⟩ }

def addBlock (g : Growth) (fails : Option Allocation) (capacity : ℕ) (p : Pool F) :
    Pool F × Except Allocation Unit :=
  if fails = some .blockObject then (p, .error .blockObject)
  else if fails = some .blockStorage then (p, .error .blockStorage)
  else if p.blocks.Full ∧ fails = some .blocksGrowth then (p, .error .blocksGrowth)
  else
    addTasks g fails p.blocks.items.length 0 capacity { p with blocks := p.blocks.push g capacity }

/-- The constructor, when its allocations succeed. -/
def init (F : Type*) (g : Growth) (capacity : ℕ) (expandable : Bool) : Pool F :=
  (addBlock g none capacity {
    expandable := expandable
    initialCapacity := capacity
    blocks := .empty
    free := Vec.empty.reserve capacity
    func := fun _ => none
    constructed := [] }).1

/-- `free_.back()` and `free_.pop_back()`. -/
def takeBack (p : Pool F) : Pool F × Option TaskPtr :=
  ({ p with free := p.free.pop }, p.free.items.getLast?)

/-- `acquire`: a task, or `nullptr`, or the exception of an allocation. -/
def acquire (g : Growth) (fails : Option Allocation) (p : Pool F) :
    Pool F × Except Allocation (Option TaskPtr) :=
  if p.free.items = [] then
    if p.expandable = false then (p, .ok none)
    else
      let grow := if 0 < p.initialCapacity then p.initialCapacity else 16
      match addBlock g fails grow p with
      | (q, .error e) => (q, .error e)
      | (q, .ok ()) => (q.takeBack.1, .ok q.takeBack.2)
  else (p.takeBack.1, .ok p.takeBack.2)

/-- `task->reset()`. -/
def reset (p : Pool F) (task : TaskPtr) : Pool F :=
  { p with func := Function.update p.func task none }

/-- `task->setFunction(f)`. -/
def setFunction (p : Pool F) (task : TaskPtr) (f : F) : Pool F :=
  { p with func := Function.update p.func task (some f) }

/-- The part of `release` under the mutex. -/
def giveBack (g : Growth) (p : Pool F) (task : TaskPtr) : Pool F :=
  { p with free := p.free.push g task }

def available (p : Pool F) : ℕ := p.free.items.length

def empty (p : Pool F) : Bool := decide (p.available = 0)

def capacity (p : Pool F) : ℕ := p.blocks.items.sum

def blockCount (p : Pool F) : ℕ := p.blocks.items.length

/-- The slots that the blocks count. -/
def slots (blocks : List ℕ) : List TaskPtr :=
  blocks.zipIdx.flatMap fun b => (List.range b.1).map fun i => ⟨b.2, i⟩

end Pool

/-! ## Threads that use the pool -/

/-- A `release` that is under way. -/
inductive Release where
  | reset (task : TaskPtr)
  | lock (task : TaskPtr)

def Release.task : Release → TaskPtr
  | .reset task | .lock task => task

/-- The tasks that a thread holds, and its `release`. -/
structure Thread where
  held : Multiset TaskPtr
  releasing : Option Release

namespace Thread

def gain (x : Thread) (task : TaskPtr) : Thread := { x with held := task ::ₘ x.held }

def lose (x : Thread) (task : TaskPtr) : Thread := { x with held := x.held.erase task }

def goOn (x : Thread) (r : Option Release) : Thread := { x with releasing := r }

end Thread

structure State (Tid F : Type*) where
  pool : Pool F
  threads : Tid → Thread

/-- What a thread can do. It releases, and gives to another thread, only what it holds. -/
inductive Act (Tid F : Type*) where
  | acquire (t : Tid) (fails : Option Allocation)
  | setFunction (t : Tid) (task : TaskPtr) (f : F)
  | give (t u : Tid) (task : TaskPtr)
  | release (t : Tid) (task : TaskPtr)
  /-- The next part of the `release` under way. -/
  | step (t : Tid)

variable {Tid : Type*} [DecidableEq Tid]

namespace State

def setThread (s : State Tid F) (t : Tid) (x : Thread) : State Tid F :=
  { s with threads := Function.update s.threads t x }

/-- The thread takes what `acquire` returns. -/
def take (s : State Tid F) (t : Tid) : Except Allocation (Option TaskPtr) → State Tid F
  | .ok (some task) => s.setThread t ((s.threads t).gain task)
  | _ => s

end State

/-- The pool and its users. -/
def system (Tid F : Type*) [DecidableEq Tid] (g : Growth) : System (State Tid F) (Act Tid F) where
  next s
    | .acquire t fails =>
      match (s.threads t).releasing with
      | none =>
        let r := s.pool.acquire g fails
        some ({ s with pool := r.1 }.take t r.2)
      | some _ => none
    | .setFunction t task f =>
      if task ∈ (s.threads t).held then some { s with pool := s.pool.setFunction task f } else none
    | .give t u task =>
      if task ∈ (s.threads t).held then
        let s' := s.setThread t ((s.threads t).lose task)
        some (s'.setThread u ((s'.threads u).gain task))
      else none
    | .release t task =>
      match (s.threads t).releasing with
      | none =>
        if task ∈ (s.threads t).held then
          some (s.setThread t (((s.threads t).lose task).goOn (some (.reset task))))
        else none
      | some _ => none
    | .step t =>
      match (s.threads t).releasing with
      | none => none
      | some (.reset task) =>
        some ({ s with pool := s.pool.reset task }.setThread t
          ((s.threads t).goOn (some (.lock task))))
      | some (.lock task) =>
        some ({ s with pool := s.pool.giveBack g task }.setThread t ((s.threads t).goOn none))

/-- A new pool, from which nothing has been acquired. -/
def initial (Tid F : Type*) (g : Growth) (capacity : ℕ) (expandable : Bool) : State Tid F :=
  ⟨Pool.init F g capacity expandable, fun _ => ⟨0, none⟩⟩

end LowLatency.MemoryPool
