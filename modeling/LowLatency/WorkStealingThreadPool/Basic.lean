import LowLatency.Concurrency.Monitor
import LowLatency.WorkStealingThreadPool.Parts

/-!
# The work-stealing thread pool

`WorkStealingThreadPool` of `WorkStealingThreadPool.h` and `WorkStealingThreadPool.cpp`: workers, and
any number of threads that submit tasks, shut the pool down or ask about it. Each constructor of
`Worker` and `Client` is a point of the code right before one access to a shared member, a lock or
unlock of `mtx_`, or a call of a condition variable; while an operation on a container is in progress
it carries the operation's registers. `submit` and `submitVoid` differ in how they wrap the task only.

Each submitted task gets a number, `Job.id`. `issued`, `accepted`, `rejected` and `executed` are
history that no instruction reads: the tasks submitted, those for which a push into `incoming_` has
returned true, those refused, and those executed.
-/

namespace LowLatency.WorkStealingThreadPool

open Concurrency

universe u

/-- The most tasks a worker moves to its deque at once. -/
def kLocalBatchSize : ℕ := 16

inductive WorkStealingRejectPolicy where
  | block
  | discard
  | throw
  deriving DecidableEq

inductive Op (α : Type u) where
  | submit (task : α)
  | trySubmit (task : α)
  | shutdown
  | idle
  | getQueueSize

/-- How an operation ends. -/
inductive Result where
  | accepted
  | discarded
  | threw (what : String)
  | tried (b : Bool)
  /-- `shutdown()` set `stop_` and has joined the workers. -/
  | stopped
  /-- `shutdown()` found `stop_` set. -/
  | alreadyStopped
  | isIdle (b : Bool)
  | queueSize (k : ℕ)
  deriving DecidableEq

/-- The next load of `allEmpty()` over `n` deques and the queue. -/
inductive Scan (n : ℕ) where
  /-- `top_` of deque `d`; after the last deque, `tail_` of the queue. -/
  | top (d : ℕ)
  | bottom (d : Fin n) (t : ℕ)
  | head (t : ℕ)
  deriving DecidableEq

/-- Which of the three pushes into `incoming_`. -/
inductive Path where
  /-- The lock-free push of `enqueueTask`. -/
  | enqueue
  /-- The push of `enqueueTask` that holds `mtx_`. -/
  | locked
  | tryEnqueue
  deriving DecidableEq

section Points

variable {α : Type u} (P : Parts (Job α)) (n : ℕ)

/-- The next instruction of a worker. Within `executeTask` the worker knows where it returns to:
`after` is the count of `fillLocalBatch`, or none for the worker loop. -/
inductive Worker : Type u where
  | popLocal (x : P.DL)
  | fillPop (k : ℕ) (any : Bool) (x : P.QL)
  | fillPush (k : ℕ) (x : P.DL)
  | fillLoadWaiting (k : ℕ)
  | fillNotify (k : ℕ)
  | stealNext (step : ℕ)
  | steal (step : ℕ) (x : P.DL)
  | busyAdd (j : Job α) (after : Option ℕ)
  | execute (j : Job α) (after : Option ℕ)
  | busySub (after : Option ℕ)
  | completedAdd (after : Option ℕ)
  | loadWaiting (after : Option ℕ)
  | notifyNotFull (after : Option ℕ)
  | lock
  | exitStop
  | exitScan (e : Scan n)
  | unlockReturn
  | idleAdd
  | waitStop
  | waitScan (e : Scan n)
  | sleep
  | asleep
  | woken
  | idleSub
  | unlockContinue
  | exited

/-- The next instruction of a thread that uses the pool. -/
inductive Client : Type u where
  | submitEnter (j : Job α)
  | enqueueStop (j : Job α)
  | push (path : Path) (j : Job α) (x : P.QL)
  | enqueueLock (j : Job α)
  | lockedStop (j : Job α)
  | waitingAdd (j : Job α)
  | fullStop (j : Job α)
  | fullTail (j : Job α)
  | fullHead (j : Job α) (t : ℕ)
  | fullSleep (j : Job α)
  | fullAsleep (j : Job α)
  | fullWoken (j : Job α)
  | waitingSub (j : Job α)
  | waitedStop (j : Job α)
  | lockedSubmittedAdd
  | unlockNotify
  | tryEnter (j : Job α)
  | trySubmitStop (j : Job α)
  | tryEnqueueStop (j : Job α)
  | submittedAdd (r : Result)
  | loadIdle (r : Result)
  | notify (r : Result)
  | unlockLeave (r : Result)
  | leave (r : Result)
  | shutdownLock
  | shutdownTest
  | shutdownSet
  | shutdownUnlock
  | notifyAll
  | notifyAllNotFull
  | awaitSubmits
  | join (i : ℕ)
  | idleLock
  | idleBusy
  | idleScan (e : Scan n)
  | sizeLock
  | sizeTop (d total : ℕ)
  | sizeBottom (d : Fin n) (t total : ℕ)
  | unlockDone (r : Result)
  | done (r : Result)

/-- The members of the pool. `mtx` is the thread that holds the mutex. -/
structure Shared (Tid : Type*) where
  incoming : P.QS
  deques : Fin n → P.DS
  stop : Bool
  mtx : Option (Fin n ⊕ Tid)
  active : ℕ
  submitted : ℕ
  completed : ℕ
  busy : ℕ
  waitingProducers : ℕ
  workersIdle : ℕ
  issued : List (Job α)
  accepted : List (Job α)
  rejected : List (Job α)
  executed : List (Job α)

/-- The pool, its `n` workers and the threads that use it. -/
structure State (Tid : Type*) where
  shared : Shared P n Tid
  workers : Fin n → Worker P n
  clients : Tid → Option (Client P n)

end Points

/-- The Boolean is what an instruction of a container leaves open. -/
inductive Action (α : Type u) (n : ℕ) (Tid : Type*) where
  | call (t : Tid) (op : Op α)
  | ret (t : Tid)
  /-- The worker's next instruction, and the producer that its `notify_one` wakes. -/
  | worker (i : Fin n) (choice : Bool) (wakes : Option Tid)
  /-- The thread's next instruction, and the worker that its `notify_one` wakes. -/
  | client (t : Tid) (choice : Bool) (wakes : Option (Fin n))
  | spuriousWorker (i : Fin n)
  | spuriousClient (t : Tid)

variable {α : Type u} {P : Parts (Job α)} {n : ℕ} {Tid : Type*}

def stoppedError : String := "submit on stopped WorkStealingThreadPool."

def fullError : String := "task queue is full."

namespace Worker

/-- Asleep on `cv_`. -/
def sleeping : Worker P n → Bool
  | .asleep => true
  | _ => false

def wake : Worker P n → Worker P n := fun _ => .woken

/-- The top of the worker loop. -/
def loop : Worker P n := .popLocal (P.deque.start .pop)

/-- The next round of `fillLocalBatch` after round `k`, which took a task. -/
def fillNext (k : ℕ) : Worker P n :=
  if k + 1 < kLocalBatchSize then .fillPop (k + 1) true (P.queue.start .pop) else loop

/-- Where `executeTask` returns to. -/
def afterExecute : Option ℕ → Worker P n
  | none => loop
  | some k => fillNext k

/-- After a task a worker is at the top of its loop or in the next round of `fillLocalBatch`. -/
theorem afterExecute_induction {p : Worker P n → Prop} (hloop : p loop)
    (hfill : ∀ k, p (.fillPop (k + 1) true (P.queue.start .pop))) (after : Option ℕ) :
    p (afterExecute after) := by
  cases after with
  | none => exact hloop
  | some k =>
    unfold afterExecute fillNext
    dsimp only
    split
    · exact hfill k
    · exact hloop

/-- The worker that `stealOne` tries in this step. -/
def target (me : Fin n) (step : ℕ) : Fin n :=
  ⟨(me.val + step) % n, Nat.mod_lt _ (Nat.zero_lt_of_lt me.isLt)⟩

end Worker

namespace Client

/-- Asleep on `not_full_cv_`. -/
def sleeping : Option (Client P n) → Bool
  | some (.fullAsleep _) => true
  | _ => false

def wake : Option (Client P n) → Option (Client P n)
  | some (.fullAsleep j) => some (.fullWoken j)
  | o => o

/-- The first instruction of an operation that has the number `id`. -/
def start (id : ℕ) : Op α → Client P n
  | .submit task => .submitEnter ⟨id, task⟩
  | .trySubmit task => .tryEnter ⟨id, task⟩
  | .shutdown => .shutdownLock
  | .idle => .idleLock
  | .getQueueSize => .sizeLock

end Client

/-- The task of a submission that has the number `id`. -/
def Op.jobs (id : ℕ) : Op α → List (Job α)
  | .submit task | .trySubmit task => [⟨id, task⟩]
  | _ => []

namespace Shared

variable (s : Shared P n Tid)

/-- Lock the mutex for `me`, if it is free. -/
def lock (me : Fin n ⊕ Tid) : Option (Shared P n Tid) :=
  match s.mtx with
  | none => some { s with mtx := some me }
  | some _ => none

def unlock : Shared P n Tid := { s with mtx := none }

def setDeque (d : Fin n) (x : P.DS) : Shared P n Tid :=
  { s with deques := Function.update s.deques d x }

def reject (j : Job α) : Shared P n Tid := { s with rejected := s.rejected ++ [j] }

/-- One load of `allEmpty()`: the next one, or what the function returns. -/
def scan : Scan n → Scan n ⊕ Bool
  | .top d =>
    if h : d < n then .inl (.bottom ⟨d, h⟩ (P.top (s.deques ⟨d, h⟩)))
    else .inl (.head (P.tail s.incoming))
  | .bottom d t =>
    if WorkStealingDeque.empty t (P.bottom (s.deques d)) then .inl (.top (d.val + 1))
    else .inr false
  | .head t => .inr (LockFreeQueue.empty t (P.head s.incoming))

end Shared

/-- Fewer than `2 ^ 63` tasks have been submitted, and the positions of the containers are below
`2 ^ 63`: then the counters and positions are those of the 64-bit registers, and the signed
comparisons of the code see the positions as they are. -/
def Shared.Fits [Inhabited α] {r : Ring} (s : Shared (Parts.real (Job α) r) n Tid) : Prop :=
  s.issued.length < 2 ^ 63 ∧ LockFreeQueue.Shared.tail s.incoming + r.size < 2 ^ 63 ∧
    LockFreeQueue.Shared.head s.incoming < 2 ^ 63 ∧
      ∀ d, WorkStealingDeque.Shared.Fits (s.deques d)

instance [Inhabited α] {r : Ring} (s : Shared (Parts.real (Job α) r) n Tid) : Decidable s.Fits :=
  have : DecidablePred fun d => WorkStealingDeque.Shared.Fits (s.deques d) := fun _ =>
    inferInstanceAs (Decidable (_ ∧ _))
  inferInstanceAs (Decidable (_ ∧ _ ∧ _ ∧ _))

/-- One instruction of worker `i`, unless it is blocked. -/
def stepWorker (i : Fin n) (choice : Bool) (s : Shared P n Tid) :
    Worker P n → Option (Shared P n Tid × Worker P n)
  | .popLocal x =>
    match P.deque.result x with
    | none =>
      let r := P.deque.step choice (s.deques i) x
      some (s.setDeque i r.1, .popLocal r.2)
    | some o =>
      match o.item with
      | some j => some (s, .busyAdd j none)
      | none => some (s, .fillPop 0 false (P.queue.start .pop))
  | .fillPop k any x =>
    match P.queue.result x with
    | none =>
      let r := P.queue.step choice s.incoming x
      some ({ s with incoming := r.1 }, .fillPop k any r.2)
    | some o =>
      match o.item with
      | some j => some (s, .fillPush k (P.deque.start (.push j)))
      | none => if any then some (s, .loop) else some (s, .stealNext 1)
  | .fillPush k x =>
    match P.deque.result x with
    | none =>
      let r := P.deque.step choice (s.deques i) x
      some (s.setDeque i r.1, .fillPush k r.2)
    | some o =>
      match o.item with
      | some j => some (s, .busyAdd j (some k))
      | none => some (s, .fillLoadWaiting k)
  | .fillLoadWaiting k =>
    if 0 < s.waitingProducers then some (s, .fillNotify k) else some (s, .fillNext k)
  | .fillNotify k => some (s, .fillNext k)
  | .stealNext step =>
    if step < n then
      if Worker.target i step = i then some (s, .stealNext (step + 1))
      else some (s, .steal step (P.deque.start .steal))
    else some (s, .lock)
  | .steal step x =>
    match P.deque.result x with
    | none =>
      let r := P.deque.step choice (s.deques (Worker.target i step)) x
      some (s.setDeque (Worker.target i step) r.1, .steal step r.2)
    | some o =>
      match o.item with
      | some j => some (s, .busyAdd j none)
      | none => some (s, .stealNext (step + 1))
  | .busyAdd j after => some ({ s with busy := s.busy + 1 }, .execute j after)
  | .execute j after => some ({ s with executed := s.executed ++ [j] }, .busySub after)
  | .busySub after => some ({ s with busy := s.busy - 1 }, .completedAdd after)
  | .completedAdd after => some ({ s with completed := s.completed + 1 }, .loadWaiting after)
  | .loadWaiting after =>
    if 0 < s.waitingProducers then some (s, .notifyNotFull after) else some (s, .afterExecute after)
  | .notifyNotFull after => some (s, .afterExecute after)
  | .lock => (s.lock (.inl i)).map fun s' => (s', .exitStop)
  | .exitStop => if s.stop then some (s, .exitScan (.top 0)) else some (s, .idleAdd)
  | .exitScan e =>
    match s.scan e with
    | .inl e' => some (s, .exitScan e')
    | .inr true => some (s, .unlockReturn)
    | .inr false => some (s, .idleAdd)
  | .unlockReturn => some (s.unlock, .exited)
  | .idleAdd => some ({ s with workersIdle := s.workersIdle + 1 }, .waitStop)
  | .waitStop => if s.stop then some (s, .idleSub) else some (s, .waitScan (.top 0))
  | .waitScan e =>
    match s.scan e with
    | .inl e' => some (s, .waitScan e')
    | .inr true => some (s, .sleep)
    | .inr false => some (s, .idleSub)
  | .sleep => some (s.unlock, .asleep)
  | .asleep => none
  | .woken => (s.lock (.inl i)).map fun s' => (s', .waitStop)
  | .idleSub => some ({ s with workersIdle := s.workersIdle - 1 }, .unlockContinue)
  | .unlockContinue => some (s.unlock, .loop)
  | .exited => none

/-- What follows a push that has returned true. -/
def afterPut : Path → Client P n
  | .enqueue => .submittedAdd .accepted
  | .locked => .lockedSubmittedAdd
  | .tryEnqueue => .submittedAdd (.tried true)

/-- What follows a push that has returned false. -/
def afterRefused (s : Shared P n Tid) (j : Job α) : Path → Shared P n Tid × Client P n
  | .enqueue => (s, .enqueueLock j)
  | .locked => (s, .waitingAdd j)
  | .tryEnqueue => (s.reject j, .leave (.tried false))

/-- One instruction of thread `t`, unless it is blocked. -/
def stepClient (policy : WorkStealingRejectPolicy) (workers : Fin n → Worker P n) (t : Tid)
    (choice : Bool) (s : Shared P n Tid) : Client P n → Option (Shared P n Tid × Client P n)
  | .submitEnter j => some ({ s with active := s.active + 1 }, .enqueueStop j)
  | .enqueueStop j =>
    if s.stop then some (s, .enqueueLock j)
    else some (s, .push .enqueue j (P.queue.start (.push j)))
  | .push path j x =>
    match P.queue.result x with
    | none =>
      let r := P.queue.step choice s.incoming x
      some ({ s with incoming := r.1 }, .push path j r.2)
    | some o =>
      -- a push that fails leaves the caller its task
      match o.item with
      | some _ => some (afterRefused s j path)
      | none => some ({ s with accepted := s.accepted ++ [j] }, afterPut path)
  | .enqueueLock j => (s.lock (.inr t)).map fun s' => (s', .lockedStop j)
  | .lockedStop j =>
    if s.stop then some (s.reject j, .unlockLeave (.threw stoppedError))
    else
      match policy with
      | .throw => some (s.reject j, .unlockLeave (.threw fullError))
      | .discard => some (s.reject j, .unlockLeave .discarded)
      | .block => some (s, .push .locked j (P.queue.start (.push j)))
  | .waitingAdd j => some ({ s with waitingProducers := s.waitingProducers + 1 }, .fullStop j)
  | .fullStop j => if s.stop then some (s, .waitingSub j) else some (s, .fullTail j)
  | .fullTail j => some (s, .fullHead j (P.tail s.incoming))
  | .fullHead j tail =>
    if (P.size : ℤ) ≤ (tail : ℤ) - P.head s.incoming then some (s, .fullSleep j)
    else some (s, .waitingSub j)
  | .fullSleep j => some (s.unlock, .fullAsleep j)
  | .fullAsleep _ => none
  | .fullWoken j => (s.lock (.inr t)).map fun s' => (s', .fullStop j)
  | .waitingSub j => some ({ s with waitingProducers := s.waitingProducers - 1 }, .waitedStop j)
  | .waitedStop j =>
    if s.stop then some (s.reject j, .unlockLeave (.threw stoppedError))
    else some (s, .push .locked j (P.queue.start (.push j)))
  | .lockedSubmittedAdd => some ({ s with submitted := s.submitted + 1 }, .unlockNotify)
  | .unlockNotify => some (s.unlock, .loadIdle .accepted)
  | .tryEnter j => some ({ s with active := s.active + 1 }, .trySubmitStop j)
  | .trySubmitStop j =>
    if s.stop then some (s.reject j, .leave (.tried false)) else some (s, .tryEnqueueStop j)
  | .tryEnqueueStop j =>
    if s.stop then some (s.reject j, .leave (.tried false))
    else some (s, .push .tryEnqueue j (P.queue.start (.push j)))
  | .submittedAdd r => some ({ s with submitted := s.submitted + 1 }, .loadIdle r)
  | .loadIdle r => if 0 < s.workersIdle then some (s, .notify r) else some (s, .leave r)
  | .notify r => some (s, .leave r)
  | .unlockLeave r => some (s.unlock, .leave r)
  | .leave r => some ({ s with active := s.active - 1 }, .done r)
  | .shutdownLock => (s.lock (.inr t)).map fun s' => (s', .shutdownTest)
  | .shutdownTest => if s.stop then some (s, .unlockDone .alreadyStopped) else some (s, .shutdownSet)
  | .shutdownSet => some ({ s with stop := true }, .shutdownUnlock)
  | .shutdownUnlock => some (s.unlock, .notifyAll)
  | .notifyAll => some (s, .notifyAllNotFull)
  | .notifyAllNotFull => some (s, .awaitSubmits)
  | .awaitSubmits => if s.active = 0 then some (s, .join 0) else some (s, .awaitSubmits)
  | .join k =>
    if h : k < n then
      match workers ⟨k, h⟩ with
      | .exited => some (s, .join (k + 1))
      | _ => none
    else some (s, .done .stopped)
  | .idleLock => (s.lock (.inr t)).map fun s' => (s', .idleBusy)
  | .idleBusy => if s.busy = 0 then some (s, .idleScan (.top 0)) else some (s, .unlockDone (.isIdle false))
  | .idleScan e =>
    match s.scan e with
    | .inl e' => some (s, .idleScan e')
    | .inr b => some (s, .unlockDone (.isIdle b))
  | .sizeLock => (s.lock (.inr t)).map fun s' => (s', .sizeTop 0 0)
  | .sizeTop d total =>
    if h : d < n then some (s, .sizeBottom ⟨d, h⟩ (P.top (s.deques ⟨d, h⟩)) total)
    else some (s, .unlockDone (.queueSize total))
  | .sizeBottom d top total =>
    some (s, .sizeTop (d.val + 1) (total + WorkStealingDeque.size top (P.bottom (s.deques d))))
  | .unlockDone r => some (s.unlock, .done r)
  | .done _ => none

section System

variable [DecidableEq Tid] [Fintype Tid]

/-- The producers after the worker's instruction `x`. -/
def wakeProducers (x : Worker P n) (wakes : Option Tid) (l : Tid → Option (Client P n)) :
    Option (Tid → Option (Client P n)) :=
  match x with
  | .fillNotify _ | .notifyNotFull _ => notifyOne Client.sleeping Client.wake l wakes
  | _ => some l

/-- The workers after a client's instruction `x`. -/
def wakeWorkers (x : Client P n) (wakes : Option (Fin n)) (w : Fin n → Worker P n) :
    Option (Fin n → Worker P n) :=
  match x with
  | .notify _ => notifyOne Worker.sleeping Worker.wake w wakes
  | .notifyAll => some (Concurrency.notifyAll Worker.sleeping Worker.wake w)
  | _ => some w

omit [DecidableEq Tid] [Fintype Tid] in
/-- The producers after a client's instruction `x`. -/
def wakeAllProducers (x : Client P n) (l : Tid → Option (Client P n)) :
    Tid → Option (Client P n) :=
  match x with
  | .notifyAllNotFull => Concurrency.notifyAll Client.sleeping Client.wake l
  | _ => l

def next (policy : WorkStealingRejectPolicy) (c : State P n Tid) :
    Action α n Tid → Option (State P n Tid)
  | .call t op =>
    match c.clients t with
    | none =>
      let id := c.shared.issued.length
      some
        { c with
          shared := { c.shared with issued := c.shared.issued ++ op.jobs id }
          clients := Function.update c.clients t (some (.start id op)) }
    | some _ => none
  | .ret t =>
    match c.clients t with
    | some (.done _) => some { c with clients := Function.update c.clients t none }
    | _ => none
  | .worker i choice wakes =>
    (stepWorker i choice c.shared (c.workers i)).bind fun (s, x) =>
      (wakeProducers (c.workers i) wakes c.clients).map fun l =>
        ⟨s, Function.update c.workers i x, l⟩
  | .client t choice wakes =>
    (c.clients t).bind fun x =>
      (stepClient policy c.workers t choice c.shared x).bind fun (s, y) =>
        (wakeWorkers x wakes c.workers).map fun w =>
          ⟨s, w, Function.update (wakeAllProducers x c.clients) t (some y)⟩
  | .spuriousWorker i =>
    if Worker.sleeping (c.workers i) then
      some { c with workers := Function.update c.workers i (Worker.wake (c.workers i)) }
    else none
  | .spuriousClient t =>
    if Client.sleeping (c.clients t) then
      some { c with clients := Function.update c.clients t (Client.wake (c.clients t)) }
    else none

/-- The pool with a reject policy. -/
def system (policy : WorkStealingRejectPolicy) : System (State P n Tid) (Action α n Tid) where
  next := next policy

end System

/-- The number of workers for the constructor's `num_threads`. -/
def numThreads (num_threads : ℕ) : ℕ := if 0 < num_threads then num_threads else 1

theorem numThreads_pos (k : ℕ) : 0 < numThreads k := by
  unfold numThreads
  split <;> omega

/-- The constructor: `n` workers, none of which has run. -/
def initial (P : Parts (Job α)) (n : ℕ) (Tid : Type*) : State P n Tid where
  shared :=
    { incoming := P.newQueue
      deques := fun _ => P.newDeque
      stop := false
      mtx := none
      active := 0
      submitted := 0
      completed := 0
      busy := 0
      waitingProducers := 0
      workersIdle := 0
      issued := []
      accepted := []
      rejected := []
      executed := [] }
  workers _ := .loop
  clients _ := none

/-! ## Schedules -/

/-- What the thread's finished operation returns. -/
def Client.result : Option (Client P n) → Option Result
  | some (.done r) => some r
  | _ => none

theorem Client.result_eq_some {x : Option (Client P n)} {r : Result} (h : Client.result x = some r) :
    x = some (.done r) := by
  unfold Client.result at h
  split at h
  · rw [Option.some.inj h]
  · cases h

/-- The next `k` instructions of a worker. -/
def Action.workers (i : Fin n) (k : ℕ) : List (Action α n Tid) :=
  List.replicate k (.worker i false none)

/-- The next `k` instructions of another thread. -/
def Action.clients (t : Tid) (k : ℕ) : List (Action α n Tid) :=
  List.replicate k (.client t false none)

end LowLatency.WorkStealingThreadPool
