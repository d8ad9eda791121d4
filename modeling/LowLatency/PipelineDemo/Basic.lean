import Mathlib.Data.Fintype.Option
import Mathlib.Data.List.Sort
import LowLatency.LockFreeQueue.Basic
import LowLatency.ThreadPool.Basic

/-!
# The pipeline demo

`run_pipeline` of `pipeline_demo.cpp`. Producers submit tasks to a `ThreadPool` that blocks when it is
full; each task counts itself, adds its number to a checksum and pushes a latency into a
`LockFreeQueue`, the sink. The main thread joins the producers, waits until the pool has completed all
tasks, reads the counters, empties the sink and shuts the pool down.

The pool and the sink are the systems of `ThreadPool` and `LockFreeQueue`. A task runs while its worker
is at `execute`, which the worker leaves when the task has returned. Time is left out: a latency is
whatever the clock says, and pacing is a delay between two calls.
-/

namespace LowLatency.PipelineDemo

open Concurrency

/-- What `run_pipeline` returns. -/
structure PipeResult where
  total : ℕ
  processed : ℕ
  checksum : SizeT
  expect_checksum : SizeT
  dropped : ℕ
  lat : List ℕ

/-- The submitted lambda with its capture, right before an access. While it is at `push` the sink has
its registers. -/
inductive Body where
  | processedAdd (seq : ℕ)
  | checksumAdd (seq : ℕ)
  | latency (seq : ℕ)
  | push (seq : ℕ)
  | droppedAdd (seq : ℕ)
  | returned (seq : ℕ)
  deriving DecidableEq

/-- The main thread. -/
inductive Main where
  | join
  | await
  | loadProcessed
  | loadChecksum (processed : ℕ)
  | loadDropped (processed : ℕ) (checksum : SizeT)
  | drain (r : PipeResult)
  | shutdown (r : PipeResult)
  | stopping (r : PipeResult)
  | done (r : PipeResult)

/-- The arguments of `run_pipeline`. -/
structure Args where
  producers : ℕ
  workers : ℕ
  per : ℕ

namespace Args

variable (g : Args)

def total : ℕ := g.producers * g.per

/-- `static_cast<uint64_t>(p) * per + i`. -/
def seq (p : Fin g.producers) (i : ℕ) : ℕ := p * g.per + i

/-- `total * (total - 1) / 2`. -/
def expect_checksum : SizeT :=
  BitVec.ofNat 64 g.total * (BitVec.ofNat 64 g.total - 1) / 2

end Args

/-- The ring of `pool`. -/
def poolRing : Ring := ⟨⟨65536, 16, rfl⟩, by norm_num⟩

/-- The ring of `sink`. -/
def sinkRing : Ring := ⟨⟨2 ^ 20, 20, rfl⟩, by norm_num⟩

/-- The threads that use the pool: the producers, and the main thread. -/
abbrev Caller (g : Args) := Option (Fin g.producers)

/-- The threads that use the sink: the workers, and the main thread. -/
abbrev User (g : Args) := Option (Fin g.workers)

/-- The locals of `run_pipeline` and its threads; `sent` counts the turns of the producers' loops. -/
structure State (g : Args) where
  pool : ThreadPool.State ℕ g.workers (Caller g)
  sent : Fin g.producers → ℕ
  bodies : Fin g.workers → Option Body
  sink : Config (User g) (LockFreeQueue.Shared ℕ) (LockFreeQueue.Local ℕ)
  processed : ℕ
  checksum : SizeT
  dropped : ℕ
  main : Main

inductive Action (g : Args) where
  /-- A producer submits its next task. -/
  | submit (p : Fin g.producers)
  /-- Its call returns. -/
  | submitted (p : Fin g.producers)
  | worker (i : Fin g.workers) (wakes : Option (Caller g))
  /-- The next instruction of a call of the pool. -/
  | caller (t : Caller g) (wakes : Option (Fin g.workers))
  | spuriousWorker (i : Fin g.workers)
  | spuriousCaller (t : Caller g)
  /-- The next access of the task of a worker; `lat` is what the clock says. -/
  | body (i : Fin g.workers) (lat : ℕ) (spurious : Bool)
  | main (spurious : Bool)

variable {g : Args}

abbrev pool (g : Args) : System (ThreadPool.State ℕ g.workers (Caller g))
    (ThreadPool.Action ℕ g.workers (Caller g)) := ThreadPool.system .block

abbrev sink (g : Args) : System (Config (User g) (LockFreeQueue.Shared ℕ) (LockFreeQueue.Local ℕ))
    (Concurrency.Action (User g) (LockFreeQueue.Op ℕ)) := LockFreeQueue.system (User g) .u64 sinkRing

/-- The task of a worker after the worker's own instruction, which waits until the task returns. -/
def bodyAfter : ThreadPool.Worker ℕ → Option Body → Option (Option Body)
  | .busyAdd j, _ => some (some (.processedAdd j.task))
  | .execute _, some (.returned _) => some none
  | .execute _, _ => none
  | _, b => some b

/-- The next access of the task of worker `i`. -/
def stepBody (i : Fin g.workers) (lat : ℕ) (spurious : Bool) (c : State g) : Body → Option (State g)
  | .processedAdd seq =>
    some { c with
      processed := c.processed + 1
      bodies := Function.update c.bodies i (some (.checksumAdd seq)) }
  | .checksumAdd seq =>
    some { c with
      checksum := c.checksum + BitVec.ofNat 64 seq
      bodies := Function.update c.bodies i (some (.latency seq)) }
  | .latency seq =>
    ((sink g).next c.sink (.call (some i) (.push lat))).map fun k =>
      { c with sink := k, bodies := Function.update c.bodies i (some (.push seq)) }
  | .push seq =>
    match (c.sink.locals (some i)).bind LockFreeQueue.result with
    | none => ((sink g).next c.sink (.step (some i) spurious)).map fun k => { c with sink := k }
    | some o =>
      ((sink g).next c.sink (.ret (some i))).map fun k =>
        { c with
          sink := k
          bodies := Function.update c.bodies i
            (some (if o = .put then .returned seq else .droppedAdd seq)) }
  | .droppedAdd seq =>
    some { c with
      dropped := c.dropped + 1
      bodies := Function.update c.bodies i (some (.returned seq)) }
  | .returned _ => none

/-- The next access of the main thread. -/
def stepMain (spurious : Bool) (c : State g) : Main → Option (State g)
  | .join =>
    if ∀ p, c.sent p = g.per ∧ c.pool.clients (some p) = none then some { c with main := .await }
    else none
  | .await =>
    if c.pool.shared.completed < g.total then some c else some { c with main := .loadProcessed }
  | .loadProcessed => some { c with main := .loadChecksum c.processed }
  | .loadChecksum processed => some { c with main := .loadDropped processed c.checksum }
  | .loadDropped processed checksum =>
    some { c with
      main := .drain ⟨g.total, processed, checksum, g.expect_checksum, c.dropped, []⟩ }
  | .drain r =>
    match c.sink.locals none with
    | none => ((sink g).next c.sink (.call none .pop)).map fun k => { c with sink := k }
    | some x =>
      match LockFreeQueue.result x with
      | none => ((sink g).next c.sink (.step none spurious)).map fun k => { c with sink := k }
      | some o =>
        ((sink g).next c.sink (.ret none)).map fun k =>
          { c with
            sink := k
            main :=
              match o with
              | .got v => .drain { r with lat := r.lat ++ [v] }
              | _ => .shutdown { r with lat := r.lat.mergeSort (· ≤ ·) } }
  | .shutdown r =>
    ((pool g).next c.pool (.call none .shutdown)).map fun d =>
      { c with pool := d, main := .stopping r }
  | .stopping r =>
    ((pool g).next c.pool (.ret none)).map fun d => { c with pool := d, main := .done r }
  | .done _ => none

def next (c : State g) : Action g → Option (State g)
  | .submit p =>
    if c.sent p < g.per then
      ((pool g).next c.pool (.call (some p) (.submit (g.seq p (c.sent p))))).map fun d =>
        { c with pool := d }
    else none
  | .submitted p =>
    -- an exception would leave the producer's thread
    if c.pool.clients (some p) = some (.done .accepted) then
      ((pool g).next c.pool (.ret (some p))).map fun d =>
        { c with pool := d, sent := Function.update c.sent p (c.sent p + 1) }
    else none
  | .worker i wakes =>
    (bodyAfter (c.pool.workers i) (c.bodies i)).bind fun b =>
      ((pool g).next c.pool (.worker i wakes)).map fun d =>
        { c with pool := d, bodies := Function.update c.bodies i b }
  | .caller t wakes => ((pool g).next c.pool (.client t wakes)).map fun d => { c with pool := d }
  | .spuriousWorker i => ((pool g).next c.pool (.spuriousWorker i)).map fun d => { c with pool := d }
  | .spuriousCaller t => ((pool g).next c.pool (.spuriousClient t)).map fun d => { c with pool := d }
  | .body i lat spurious => (c.bodies i).bind (stepBody i lat spurious c)
  | .main spurious => stepMain spurious c c.main

def system (g : Args) : System (State g) (Action g) where
  next := next

/-- The call of `run_pipeline`. -/
def initial (g : Args) : State g where
  pool := ThreadPool.initial ℕ g.workers (Caller g) poolRing
  sent _ := 0
  bodies _ := none
  sink := LockFreeQueue.initial (User g)
  processed := 0
  checksum := 0
  dropped := 0
  main := .join

end LowLatency.PipelineDemo
