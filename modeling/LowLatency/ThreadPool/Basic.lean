import LowLatency.Cell
import LowLatency.Concurrency.Monitor
import LowLatency.Concurrency.System
import LowLatency.RingBuffer

/-!
# The thread pool

`ThreadPool` of `ThreadPool.h` and `ThreadPool.cpp`: workers, and any number of threads that submit
tasks, shut the pool down or ask whether it is idle. Each constructor of `Worker` and `Client` is a
point of the code right before one access to a shared member, a lock or unlock of `mtx`, or a call
of a condition variable. `submit` and `submitVoid` differ in how they wrap the task only.

A task that the ring takes gets a number, `Job.id`. `accepted`, `taken` and `executed` are history
that no instruction reads: the tasks the ring took, those that workers took out of it and those
executed, each in order.
-/

namespace LowLatency.ThreadPool

open Concurrency

inductive RejectPolicy where
  | block
  | discard
  | throw
  deriving DecidableEq

inductive Op (α : Type*) where
  | submit (task : α)
  | trySubmit (task : α)
  | shutdown
  | idle
  | getQueueSize

/-- How an operation ends. -/
inductive Result where
  | accepted
  | discarded
  | threw (what : String)
  | tried (b : Bool)
  /-- `shutdown()` set `stop` and has joined the workers. -/
  | stopped
  /-- `shutdown()` found `stop` set. -/
  | alreadyStopped
  | isIdle (b : Bool)
  | queueSize (k : ℕ)
  deriving DecidableEq

/-- The next instruction of a worker. From `predicate` to the unlock it holds `mtx`. -/
inductive Worker (α : Type*) where
  | lock
  | predicate
  | asleep
  | woken
  | exitTest
  | pop
  | unlockReturn
  | unlockContinue
  | notifyNotFull (j : Job α)
  | unlock (j : Job α)
  | busyAdd (j : Job α)
  | execute (j : Job α)
  | busySub (j : Job α)
  | completedAdd (j : Job α)
  | exited
  deriving DecidableEq

/-- The next instruction of a thread that uses the pool. -/
inductive Client (α : Type*) where
  | submitEnter (task : α)
  | enqueueLock (task : α)
  | enqueuePolicy (task : α)
  | notFullAsleep (task : α)
  | notFullWoken (task : α)
  | enqueueStop (task : α)
  | tryEnter (task : α)
  | tryStop (task : α)
  | tryLock (task : α)
  | tryTest (task : α)
  | push (task : α) (r : Result)
  | submittedAdd (r : Result)
  | unlockNotify (r : Result)
  | notify (r : Result)
  | unlockLeave (r : Result)
  | leave (r : Result)
  | shutdownLock
  | shutdownTest
  | shutdownSet
  | shutdownUnlock
  | notifyAll
  | notifyAllNotFull
  | awaitSubmits
  | join (i : ℕ)
  | idleLock
  | idleBusy
  | idleEmpty (busy : Bool)
  | sizeLock
  | sizeRead
  | unlockDone (r : Result)
  | done (r : Result)
  deriving DecidableEq

/-- The members of the pool. `mtx` is the thread that holds the mutex. -/
structure Shared (α : Type*) (n : ℕ) (Tid : Type*) where
  tasks : RingBuffer (Job α)
  stop : Bool
  mtx : Option (Fin n ⊕ Tid)
  submitted : ℕ
  completed : ℕ
  busy : ℕ
  active : ℕ
  accepted : List (Job α)
  taken : List (Job α)
  executed : List (Job α)

/-- The pool, its `n` workers and the threads that use it. -/
structure State (α : Type*) (n : ℕ) (Tid : Type*) where
  shared : Shared α n Tid
  workers : Fin n → Worker α
  clients : Tid → Option (Client α)

inductive Action (α : Type*) (n : ℕ) (Tid : Type*) where
  | call (t : Tid) (op : Op α)
  | ret (t : Tid)
  /-- The worker's next instruction, and the producer that its `notify_one` wakes. -/
  | worker (i : Fin n) (wakes : Option Tid)
  /-- The thread's next instruction, and the worker that its `notify_one` wakes. -/
  | client (t : Tid) (wakes : Option (Fin n))
  | spuriousWorker (i : Fin n)
  | spuriousClient (t : Tid)

variable {α Tid : Type*} {n : ℕ}

def stoppedError : String := "submit on stopped ThreadPool."

def fullError : String := "task queue is full."

def start : Op α → Client α
  | .submit task => .submitEnter task
  | .trySubmit task => .tryEnter task
  | .shutdown => .shutdownLock
  | .idle => .idleLock
  | .getQueueSize => .sizeLock

namespace Worker

/-- Asleep on `cv`. -/
def sleeping : Worker α → Bool
  | .asleep => true
  | _ => false

def wake : Worker α → Worker α := fun _ => .woken

end Worker

namespace Client

/-- Asleep on `not_full_cv`. -/
def sleeping : Option (Client α) → Bool
  | some (.notFullAsleep _) => true
  | _ => false

def wake : Option (Client α) → Option (Client α)
  | some (.notFullAsleep task) => some (.notFullWoken task)
  | o => o

end Client

namespace Shared

variable (s : Shared α n Tid)

/-- Lock the mutex for `me`, if it is free. -/
def lock (me : Fin n ⊕ Tid) : Option (Shared α n Tid) :=
  match s.mtx with
  | none => some { s with mtx := some me }
  | some _ => none

def unlock : Shared α n Tid := { s with mtx := none }

/-- The tasks accepted and not yet taken. -/
def queue : List (Job α) := s.accepted.drop s.taken.length

end Shared

/-- One instruction of worker `i`, unless it is blocked. -/
def stepWorker (i : Fin n) (s : Shared α n Tid) : Worker α → Option (Shared α n Tid × Worker α)
  | .lock => (s.lock (.inl i)).map fun s' => (s', .predicate)
  | .predicate =>
    if s.stop || !s.tasks.empty then some (s, .exitTest) else some (s.unlock, .asleep)
  | .asleep => none
  | .woken => (s.lock (.inl i)).map fun s' => (s', .predicate)
  | .exitTest => if s.stop && s.tasks.empty then some (s, .unlockReturn) else some (s, .pop)
  | .pop =>
    match s.tasks.pop with
    | .ok (b, .got j) => some ({ s with tasks := b, taken := s.taken ++ [j] }, .notifyNotFull j)
    | .ok (b, _) => some ({ s with tasks := b }, .unlockContinue)
    | .error _ => none
  | .unlockReturn => some (s.unlock, .exited)
  | .unlockContinue => some (s.unlock, .lock)
  | .notifyNotFull j => some (s, .unlock j)
  | .unlock j => some (s.unlock, .busyAdd j)
  | .busyAdd j => some ({ s with busy := s.busy + 1 }, .execute j)
  | .execute j => some ({ s with executed := s.executed ++ [j] }, .busySub j)
  | .busySub j => some ({ s with busy := s.busy - 1 }, .completedAdd j)
  | .completedAdd _ => some ({ s with completed := s.completed + 1 }, .lock)
  | .exited => none

/-- One instruction of thread `t`, unless it is blocked. -/
def stepClient (policy : RejectPolicy) (workers : Fin n → Worker α) (t : Tid)
    (s : Shared α n Tid) : Client α → Option (Shared α n Tid × Client α)
  | .submitEnter task => some ({ s with active := s.active + 1 }, .enqueueLock task)
  | .enqueueLock task => (s.lock (.inr t)).map fun s' => (s', .enqueuePolicy task)
  | .enqueuePolicy task =>
    match policy with
    | .block =>
      if s.stop || !s.tasks.full then some (s, .enqueueStop task)
      else some (s.unlock, .notFullAsleep task)
    | .discard =>
      if s.tasks.full then some (s, .unlockLeave .discarded) else some (s, .enqueueStop task)
    | .throw =>
      if s.tasks.full then some (s, .unlockLeave (.threw fullError))
      else some (s, .enqueueStop task)
  | .notFullAsleep _ => none
  | .notFullWoken task => (s.lock (.inr t)).map fun s' => (s', .enqueuePolicy task)
  | .enqueueStop task =>
    if s.stop then some (s, .unlockLeave (.threw stoppedError)) else some (s, .push task .accepted)
  | .tryEnter task => some ({ s with active := s.active + 1 }, .tryStop task)
  | .tryStop task => if s.stop then some (s, .leave (.tried false)) else some (s, .tryLock task)
  | .tryLock task => (s.lock (.inr t)).map fun s' => (s', .tryTest task)
  | .tryTest task =>
    if s.stop || s.tasks.full then some (s, .unlockLeave (.tried false))
    else some (s, .push task (.tried true))
  | .push task r =>
    let j : Job α := ⟨s.accepted.length, task⟩
    match s.tasks.push j with
    | (b, .put) => some ({ s with tasks := b, accepted := s.accepted ++ [j] }, .submittedAdd r)
    | (b, _) => some ({ s with tasks := b }, .submittedAdd r)
  | .submittedAdd r => some ({ s with submitted := s.submitted + 1 }, .unlockNotify r)
  | .unlockNotify r => some (s.unlock, .notify r)
  | .notify r => some (s, .leave r)
  | .unlockLeave r => some (s.unlock, .leave r)
  | .leave r => some ({ s with active := s.active - 1 }, .done r)
  | .shutdownLock => (s.lock (.inr t)).map fun s' => (s', .shutdownTest)
  | .shutdownTest => if s.stop then some (s, .unlockDone .alreadyStopped) else some (s, .shutdownSet)
  | .shutdownSet => some ({ s with stop := true }, .shutdownUnlock)
  | .shutdownUnlock => some (s.unlock, .notifyAll)
  | .notifyAll => some (s, .notifyAllNotFull)
  | .notifyAllNotFull => some (s, .awaitSubmits)
  | .awaitSubmits => if s.active = 0 then some (s, .join 0) else some (s, .awaitSubmits)
  | .join i =>
    if h : i < n then
      match workers ⟨i, h⟩ with
      | .exited => some (s, .join (i + 1))
      | _ => none
    else some (s, .done .stopped)
  | .idleLock => (s.lock (.inr t)).map fun s' => (s', .idleBusy)
  | .idleBusy => some (s, .idleEmpty (decide (s.busy = 0)))
  | .idleEmpty b => some (s, .unlockDone (.isIdle (b && s.tasks.empty)))
  | .sizeLock => (s.lock (.inr t)).map fun s' => (s', .sizeRead)
  | .sizeRead => some (s, .unlockDone (.queueSize s.tasks.size))
  | .unlockDone r => some (s.unlock, .done r)
  | .done _ => none

section System

variable [DecidableEq Tid] [Fintype Tid]

/-- The producers after the worker's instruction `x`. -/
def wakeProducers (x : Worker α) (wakes : Option Tid) (l : Tid → Option (Client α)) :
    Option (Tid → Option (Client α)) :=
  match x with
  | .notifyNotFull _ => notifyOne Client.sleeping Client.wake l wakes
  | _ => some l

/-- The workers after a client's instruction `x`. -/
def wakeWorkers (x : Client α) (wakes : Option (Fin n)) (w : Fin n → Worker α) :
    Option (Fin n → Worker α) :=
  match x with
  | .notify _ => notifyOne Worker.sleeping Worker.wake w wakes
  | .notifyAll => some (notifyAll Worker.sleeping Worker.wake w)
  | _ => some w

omit [DecidableEq Tid] [Fintype Tid] in
/-- The producers after a client's instruction `x`. -/
def wakeAllProducers (x : Client α) (l : Tid → Option (Client α)) : Tid → Option (Client α) :=
  match x with
  | .notifyAllNotFull => notifyAll Client.sleeping Client.wake l
  | _ => l

def next (policy : RejectPolicy) (c : State α n Tid) : Action α n Tid → Option (State α n Tid)
  | .call t op =>
    match c.clients t with
    | none => some { c with clients := Function.update c.clients t (some (start op)) }
    | some _ => none
  | .ret t =>
    match c.clients t with
    | some (.done _) => some { c with clients := Function.update c.clients t none }
    | _ => none
  | .worker i wakes =>
    (stepWorker i c.shared (c.workers i)).bind fun (s, x) =>
      (wakeProducers (c.workers i) wakes c.clients).map fun l =>
        ⟨s, Function.update c.workers i x, l⟩
  | .client t wakes =>
    (c.clients t).bind fun x =>
      (stepClient policy c.workers t c.shared x).bind fun (s, y) =>
        (wakeWorkers x wakes c.workers).map fun w =>
          ⟨s, w, Function.update (wakeAllProducers x c.clients) t (some y)⟩
  | .spuriousWorker i =>
    if Worker.sleeping (c.workers i) then
      some { c with workers := Function.update c.workers i (Worker.wake (c.workers i)) }
    else none
  | .spuriousClient t =>
    if Client.sleeping (c.clients t) then
      some { c with clients := Function.update c.clients t (Client.wake (c.clients t)) }
    else none

/-- The pool with a reject policy. -/
def system (policy : RejectPolicy) : System (State α n Tid) (Action α n Tid) where
  next := next policy

end System

/-- The constructor: `n` workers, none of which has run, and a ring of `r` slots. -/
def initial (α : Type*) (n : ℕ) (Tid : Type*) (r : Ring) : State α n Tid where
  shared :=
    { tasks := .init r
      stop := false
      mtx := none
      submitted := 0
      completed := 0
      busy := 0
      active := 0
      accepted := []
      taken := []
      executed := [] }
  workers _ := .lock
  clients _ := none

namespace Worker

/-- The worker holds `mtx`. -/
def holds : Worker α → Bool
  | .predicate | .exitTest | .pop | .unlockReturn | .unlockContinue | .notifyNotFull _
  | .unlock _ => true
  | _ => false

/-- The task that the worker has taken and not yet executed. -/
def holding : Worker α → Multiset (Job α)
  | .notifyNotFull j | .unlock j | .busyAdd j | .execute j => {j}
  | _ => 0

/-- The worker has taken a task that is not yet counted as completed. -/
def uncounted : Worker α → ℕ
  | .notifyNotFull _ | .unlock _ | .busyAdd _ | .execute _ | .busySub _ | .completedAdd _ => 1
  | _ => 0

end Worker

namespace Client

/-- The thread holds `mtx`. -/
def holds : Client α → Bool
  | .enqueuePolicy _ | .enqueueStop _ | .tryTest _ | .push _ _ | .submittedAdd _ | .unlockNotify _
  | .unlockLeave _ | .shutdownTest | .shutdownSet | .shutdownUnlock | .idleBusy | .idleEmpty _
  | .sizeRead | .unlockDone _ => true
  | _ => false

/-- The thread has put a task into the ring and not yet counted it. -/
def pending : Client α → ℕ
  | .submittedAdd _ => 1
  | _ => 0

end Client

/-! ## The actions -/

section Actions

theorem lock_eq_some {s s' : Shared α n Tid} {me : Fin n ⊕ Tid} (h : s.lock me = some s') :
    s.mtx = none ∧ s' = { s with mtx := some me } := by
  unfold Shared.lock at h
  split at h
  next hm => exact ⟨hm, (Option.some.inj h).symm⟩
  · cases h

variable [DecidableEq Tid] [Fintype Tid] {policy : RejectPolicy} {c c' : State α n Tid} {i : Fin n}
  {t : Tid}

theorem next_call {op : Op α} (h : next policy c (.call t op) = some c') :
    c.clients t = none ∧
      c' = ⟨c.shared, c.workers, Function.update c.clients t (some (start op))⟩ := by
  simp only [next] at h
  split at h
  next hnone => exact ⟨hnone, (Option.some.inj h).symm⟩
  · cases h

theorem next_ret (h : next policy c (.ret t) = some c') : ∃ r, c.clients t = some (.done r) ∧
    c' = ⟨c.shared, c.workers, Function.update c.clients t none⟩ := by
  simp only [next] at h
  split at h
  next r hdone => exact ⟨r, hdone, (Option.some.inj h).symm⟩
  · cases h

theorem next_worker {wakes : Option Tid} (h : next policy c (.worker i wakes) = some c') :
    ∃ s y l, stepWorker i c.shared (c.workers i) = some (s, y) ∧
      wakeProducers (c.workers i) wakes c.clients = some l ∧
        c' = ⟨s, Function.update c.workers i y, l⟩ := by
  obtain ⟨⟨s, y⟩, hs, h⟩ := Option.bind_eq_some_iff.mp h
  obtain ⟨l, hl, rfl⟩ := Option.map_eq_some_iff.mp h
  exact ⟨s, y, l, hs, hl, rfl⟩

theorem next_client {wakes : Option (Fin n)} (h : next policy c (.client t wakes) = some c') :
    ∃ x s y w, c.clients t = some x ∧ stepClient policy c.workers t c.shared x = some (s, y) ∧
      wakeWorkers x wakes c.workers = some w ∧
        c' = ⟨s, w, Function.update (wakeAllProducers x c.clients) t (some y)⟩ := by
  obtain ⟨x, hx, h⟩ := Option.bind_eq_some_iff.mp h
  obtain ⟨⟨s, y⟩, hs, h⟩ := Option.bind_eq_some_iff.mp h
  obtain ⟨w, hw, rfl⟩ := Option.map_eq_some_iff.mp h
  exact ⟨x, s, y, w, hx, hs, hw, rfl⟩

theorem next_spuriousWorker (h : next policy c (.spuriousWorker i) = some c') :
    Worker.sleeping (c.workers i) = true ∧
      c' = ⟨c.shared, Function.update c.workers i (Worker.wake (c.workers i)), c.clients⟩ := by
  simp only [next] at h
  split at h
  next hs => exact ⟨hs, (Option.some.inj h).symm⟩
  · cases h

theorem next_spuriousClient (h : next policy c (.spuriousClient t) = some c') :
    Client.sleeping (c.clients t) = true ∧
      c' = ⟨c.shared, c.workers, Function.update c.clients t (Client.wake (c.clients t))⟩ := by
  simp only [next] at h
  split at h
  next hs => exact ⟨hs, (Option.some.inj h).symm⟩
  · cases h

theorem woken_wakeProducers {x : Worker α} {wakes : Option Tid} {l l' : Tid → Option (Client α)}
    (h : wakeProducers x wakes l = some l') : Woken Client.sleeping Client.wake l l' := by
  unfold wakeProducers at h
  split at h
  · exact woken_of_notifyOne h
  · exact Option.some.inj h ▸ Woken.refl

omit [DecidableEq Tid] [Fintype Tid] in
theorem woken_wakeWorkers {x : Client α} {wakes : Option (Fin n)} {w w' : Fin n → Worker α}
    (h : wakeWorkers x wakes w = some w') : Woken Worker.sleeping Worker.wake w w' := by
  unfold wakeWorkers at h
  split at h
  · exact woken_of_notifyOne h
  · exact Option.some.inj h ▸ woken_notifyAll
  · exact Option.some.inj h ▸ Woken.refl

omit [DecidableEq Tid] [Fintype Tid] in
theorem woken_wakeAllProducers (x : Client α) (l : Tid → Option (Client α)) :
    Woken Client.sleeping Client.wake l (wakeAllProducers x l) := by
  unfold wakeAllProducers
  split
  · exact woken_notifyAll
  · exact Woken.refl

omit [DecidableEq Tid] [Fintype Tid] in
theorem client_of_woken {x : Client α} {l l' : Tid → Option (Client α)}
    (hl : Woken Client.sleeping Client.wake l l') (ht : l' t = some x) (hx : ∀ task, x ≠ .notFullWoken task) : l t = some x := by
  rcases hl t with he | ⟨hs, he⟩
  · exact he ▸ ht
  · cases hy : l t with
    | none =>
      rw [hy] at hs
      cases hs
    | some y =>
      rw [hy] at hs he
      rw [he] at ht
      cases y with
      | notFullAsleep task => exact absurd (Option.some.inj ht).symm (hx task)
      | _ => cases hs

/-- What a call, a return, the threads' own steps and waking up keep, every action keeps. -/
theorem next_induction
    {I : Shared α n Tid → (Fin n → Worker α) → (Tid → Option (Client α)) → Prop}
    (hwake : ∀ {s w w' l l'}, I s w l → Woken Worker.sleeping Worker.wake w w' →
      Woken Client.sleeping Client.wake l l' → I s w' l')
    (hcall : ∀ {s w l t} (op : Op α), I s w l → l t = none →
      I s w (Function.update l t (some (start op))))
    (hret : ∀ {s w l t r}, I s w l → l t = some (.done r) → I s w (Function.update l t none))
    (hworker : ∀ {s s' w l i y}, I s w l → stepWorker i s (w i) = some (s', y) →
      I s' (Function.update w i y) l)
    (hclient : ∀ {s s' w l t x y}, I s w l → l t = some x →
      stepClient policy w t s x = some (s', y) → I s' w (Function.update l t (some y)))
    {a : Action α n Tid} (h : I c.shared c.workers c.clients) (hn : next policy c a = some c') :
    I c'.shared c'.workers c'.clients := by
  cases a with
  | call t op =>
    obtain ⟨hnone, rfl⟩ := next_call hn
    exact hcall op h hnone
  | ret t =>
    obtain ⟨r, hdone, rfl⟩ := next_ret hn
    exact hret h hdone
  | worker i wakes =>
    obtain ⟨s, y, l, hs, hl, rfl⟩ := next_worker hn
    exact hwake (hworker h hs) Woken.refl (woken_wakeProducers hl)
  | client t wakes =>
    obtain ⟨x, s, y, w, hx, hs, hw, rfl⟩ := next_client hn
    exact hwake (hclient h hx hs) (woken_wakeWorkers hw) (woken_wakeAllProducers x _).update
  | spuriousWorker i =>
    obtain ⟨hs, rfl⟩ := next_spuriousWorker hn
    exact hwake h (woken_update hs) Woken.refl
  | spuriousClient t =>
    obtain ⟨hs, rfl⟩ := next_spuriousClient hn
    exact hwake h Woken.refl (woken_update hs)

end Actions

end LowLatency.ThreadPool
