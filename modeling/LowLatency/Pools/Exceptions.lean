import Mathlib.Data.List.Perm.Basic
import Mathlib.Data.BitVec
import Mathlib.Data.Nat.Notation

/-!
# What a worker executes

The three submission wrappers, the tracing wrapper around them and the part of the two worker loops
that executes a task. Callables and sinks are arbitrary: each acts on a `world` of its own and returns
or throws. The counters are atomic and shared with all other threads, so an execution is described by
the updates that its thread makes, and what they amount to whatever the others do in between
(`Contained`).

The wrappers catch what a callable throws. Nothing catches what a sink throws: an execution is
contained exactly when the sink captured at submission, if any, returns (`contained_iff`).
-/

namespace LowLatency.Pools

variable {σ ε ρ : Type}

/-! ## The state of a worker thread -/

/-- What is thrown: by user code, or by a `packaged_task` that is called twice. -/
inductive Thrown (ε : Type) where
  | user (e : ε)
  | promiseAlreadySatisfied
  deriving DecidableEq

/-- One `fetch_add` or `fetch_sub`, or a `not_full_cv_.notify_one()`. -/
inductive Update where
  | busyAdd
  | busySub
  | completedAdd
  | failedAdd
  | notifyNotFull
  deriving DecidableEq

/-- What the execution of one task reads and writes. `future` is the state that the `packaged_task`
shares with its future; `updates` is history. -/
structure Worker (σ ε ρ : Type) where
  world : σ
  future : Option (Except ε ρ)
  updates : List Update

/-- Code of a worker. State changes made before a throw stay. -/
abbrev Code (σ ε ρ : Type) := EStateM (Thrown ε) (Worker σ ε ρ)

/-- A callable with its arguments bound. -/
abbrev Callable (σ ε ρ : Type) := σ → Except ε ρ × σ

def update (u : Update) : Code σ ε ρ Unit :=
  modify fun s => { s with updates := s.updates ++ [u] }

/-- A call of user code that returns an `α`. -/
def invoke {α : Type} (f : Callable σ ε α) : Code σ ε ρ α := fun s =>
  match f s.world with
  | (.ok a, w) => .ok a { s with world := w }
  | (.error e, w) => .error (.user e) { s with world := w }

/-- `std::packaged_task::operator()`: what the callable returns or throws goes to the future. -/
def packagedTask (f : Callable σ ε ρ) : Code σ ε ρ Unit := fun s =>
  match s.future with
  | some _ => .error .promiseAlreadySatisfied s
  | none => .ok () { s with world := (f s.world).2, future := some (f s.world).1 }

/-! ## Tasks -/

/-- `Task`, with its `func_`. -/
structure Task (σ ε ρ : Type) where
  func : Option (Code σ ε ρ Unit)

/-- `Task::execute`. -/
def Task.execute (task : Task σ ε ρ) : Code σ ε ρ Unit :=
  match task.func with
  | some func => func
  | none => pure ()

structure TaskTrace where
  id : ℕ
  submit_ns : ℕ
  complete_ns : ℕ

/-- `TaskTraceSink`, not empty. -/
abbrev TaskTraceSink (σ ε : Type) := TaskTrace → Callable σ ε Unit

/-- `makeTraceableTask`, with what it loads from `trace_enabled` and `trace_sink` and the values of
`nextTaskId()` and `nowNs()`. -/
def makeTraceableTask (nowNs : σ → ℕ) (trace_enabled : Bool)
    (trace_sink : Option (TaskTraceSink σ ε)) (id t0 : ℕ) (body : Code σ ε ρ Unit) : Task σ ε ρ :=
  if trace_enabled then
    match trace_sink with
    | none => ⟨some body⟩
    | some sink => ⟨some do
        body
        let s ← get
        invoke (sink ⟨id, t0, nowNs s.world⟩)⟩
  else ⟨some body⟩

/-- The lambda that `submitVoid` and `trySubmit` make. -/
def countFailure (bound : Callable σ ε ρ) : Code σ ε ρ Unit := do
  try
    let _ ← invoke bound
  catch _ =>
    update .failedAdd

/-- A call of a pool with its callable. -/
inductive Submission (σ ε ρ : Type) where
  | submit (f : Callable σ ε ρ)
  | submitVoid (f : Callable σ ε ρ)
  | trySubmit (f : Callable σ ε ρ)

namespace Submission

/-- The argument of `makeTraceableTask`. -/
def body : Submission σ ε ρ → Code σ ε ρ Unit
  | .submit f => packagedTask f
  | .submitVoid f => countFailure f
  | .trySubmit f => countFailure f

def callable : Submission σ ε ρ → Callable σ ε ρ
  | .submit f | .submitVoid f | .trySubmit f => f

/-- The callable of a `submitVoid` or `trySubmit` throws. -/
def fails (w : σ) : Submission σ ε ρ → Bool
  | .submit _ => false
  | .submitVoid f | .trySubmit f => !(f w).1.isOk

end Submission

/-! ## The worker loops -/

/-- What the worker loop of `ThreadPool` does with a task. -/
def ThreadPool.runTask (task : Task σ ε ρ) : Code σ ε ρ Unit := do
  update .busyAdd
  task.execute
  update .busySub
  update .completedAdd

/-- `WorkStealingThreadPool::executeTask`, with the value it loads from `waiting_producers_`. -/
def WorkStealingThreadPool.executeTask (waiting_producers : ℕ) (task : Task σ ε ρ) :
    Code σ ε ρ Unit := do
  update .busyAdd
  task.execute
  update .busySub
  update .completedAdd
  if 0 < waiting_producers then
    update .notifyNotFull

/-! ## The counters -/

/-- The counters of a pool. -/
structure Counters where
  busy_workers : BitVec 64
  completed_tasks : BitVec 64
  failed_tasks : BitVec 64

namespace Counters

def next (c : Counters) : Update → Counters
  | .busyAdd => { c with busy_workers := c.busy_workers + 1 }
  | .busySub => { c with busy_workers := c.busy_workers - 1 }
  | .completedAdd => { c with completed_tasks := c.completed_tasks + 1 }
  | .failedAdd => { c with failed_tasks := c.failed_tasks + 1 }
  | .notifyNotFull => c

/-- The counters after some updates. -/
def after (c : Counters) (l : List Update) : Counters := l.foldl next c

theorem next_comm (c : Counters) (u v : Update) : (c.next u).next v = (c.next v).next u := by
  cases u <;> cases v <;> simp only [next] <;> congr 1 <;> bv_omega

theorem after_perm (c : Counters) {l l' : List Update} (h : l.Perm l') : c.after l = c.after l' := by
  have hcomm : RightCommutative next := ⟨next_comm⟩
  exact h.foldl_eq c

end Counters

/-- The execution returns, and its updates amount to a restored `busy_workers`, one completed task,
and one failed task if `fails`, however they are interleaved with the updates of others. -/
def Contained (code : Code σ ε ρ Unit) (s : Worker σ ε ρ) (fails : Bool) : Prop :=
  ∃ s' own, code.run s = .ok () s' ∧ s'.updates = s.updates ++ own ∧
    ∀ (c : Counters) (others l : List Update), l.Perm (own ++ others) →
      (c.after l).busy_workers = (c.after others).busy_workers ∧
      (c.after l).completed_tasks = (c.after others).completed_tasks + 1 ∧
      (c.after l).failed_tasks = (c.after others).failed_tasks + if fails then 1 else 0

/-! ## Executions -/

/-- The updates of an execution that returns, apart from a notification. -/
def completedUpdates (fails : Bool) : List Update :=
  .busyAdd :: (if fails then [.failedAdd] else []) ++ [.busySub, .completedAdd]

theorem Counters.after_completed (c : Counters) (fails : Bool) {notified : List Update}
    (hn : ∀ u ∈ notified, u = .notifyNotFull) :
    (c.after (completedUpdates fails ++ notified)).busy_workers = c.busy_workers ∧
    (c.after (completedUpdates fails ++ notified)).completed_tasks = c.completed_tasks + 1 ∧
    (c.after (completedUpdates fails ++ notified)).failed_tasks =
      c.failed_tasks + if fails then 1 else 0 := by
  have hnone : ∀ c' : Counters, c'.after notified = c' := by
    intro c'
    induction notified with
    | nil => rfl
    | cons u us ih =>
      obtain rfl := hn u (List.mem_cons_self ..)
      exact ih fun v hv => hn v (List.mem_cons_of_mem _ hv)
  have hafter : c.after (completedUpdates fails ++ notified) = c.after (completedUpdates fails) := by
    unfold after
    rw [List.foldl_append]
    exact hnone _
  rw [hafter]
  cases fails with
  | false =>
    refine ⟨?_, rfl, ?_⟩
    · show c.busy_workers + 1 - 1 = c.busy_workers
      bv_omega
    · show c.failed_tasks = c.failed_tasks + 0
      bv_omega
  | true =>
    refine ⟨?_, rfl, rfl⟩
    show c.busy_workers + 1 - 1 = c.busy_workers
    bv_omega

section Executions

variable {code : Code σ ε ρ Unit} {s s' : Worker σ ε ρ} {fails : Bool}

theorem contained_of_returns (notified : List Update) (h : code.run s = .ok () s')
    (hn : ∀ u ∈ notified, u = .notifyNotFull)
    (hs : s'.updates = s.updates ++ (completedUpdates fails ++ notified)) :
    Contained code s fails := by
  refine ⟨s', _, h, hs, fun c others l hl => ?_⟩
  have hafter : c.after l = (c.after others).after (completedUpdates fails ++ notified) := by
    rw [c.after_perm (hl.trans List.perm_append_comm)]
    exact List.foldl_append ..
  rw [hafter]
  exact (c.after others).after_completed fails hn

theorem not_contained_of_throws {e : Thrown ε} (h : code.run s = .error e s') :
    ¬ Contained code s fails := by
  rintro ⟨s'', own, hok, _⟩
  rw [h] at hok
  cases hok

end Executions

/-! ## Rules for code that may throw -/

section Rules

variable {S E α β : Type} {x : EStateM E S α} {f : α → EStateM E S β} {s s' : S} {a : α} {e : E}

theorem bind_ok (h : x.run s = .ok a s') : (x >>= f).run s = (f a).run s' := by
  show EStateM.bind x f s = f a s'
  unfold EStateM.bind
  rw [show x s = .ok a s' from h]

theorem bind_error (h : x.run s = .error e s') : (x >>= f).run s = .error e s' := by
  show EStateM.bind x f s = .error e s'
  unfold EStateM.bind
  rw [show x s = .error e s' from h]

theorem tryCatch_ok {handler : E → EStateM E S α} (h : x.run s = .ok a s') :
    (tryCatch x handler).run s = .ok a s' := by
  show EStateM.tryCatch x handler s = .ok a s'
  unfold EStateM.tryCatch
  rw [show x s = .ok a s' from h]

theorem tryCatch_error {handler : E → EStateM E S α} (h : x.run s = .error e s') :
    (tryCatch x handler).run s = (handler e).run s' := by
  show EStateM.tryCatch x handler s = handler e s'
  unfold EStateM.tryCatch
  rw [show x s = .error e s' from h]
  rfl

end Rules

/-! ## The wrappers -/

section Wrappers

variable {s s₁ : Worker σ ε ρ}

theorem update_run (u : Update) :
    (update u).run s = .ok () { s with updates := s.updates ++ [u] } := rfl

theorem invoke_ok {α : Type} {f : Callable σ ε α} {a : α} (h : (f s.world).1 = .ok a) :
    (invoke f).run s = .ok a { s with world := (f s.world).2 } := by
  show invoke f s = _
  unfold invoke
  rcases hf : f s.world with ⟨r, w⟩
  rw [hf] at h
  cases h
  rfl

theorem invoke_error {α : Type} {f : Callable σ ε α} {e : ε} (h : (f s.world).1 = .error e) :
    (invoke f).run s = .error (.user e) { s with world := (f s.world).2 } := by
  show invoke f s = _
  unfold invoke
  rcases hf : f s.world with ⟨r, w⟩
  rw [hf] at h
  cases h
  rfl

/-- The lambda of `submitVoid` and `trySubmit` catches everything that its callable throws. -/
theorem countFailure_returns (f : Callable σ ε ρ) (s : Worker σ ε ρ) : (countFailure f).run s =
    .ok () { s with
      world := (f s.world).2
      updates := s.updates ++ if !(f s.world).1.isOk then [.failedAdd] else [] } := by
  unfold countFailure
  cases hf : (f s.world).1 with
  | ok a =>
    have hret : (do let _ ← invoke f; pure ()).run s = .ok () { s with world := (f s.world).2 } :=
      (bind_ok (invoke_ok hf)).trans rfl
    rw [tryCatch_ok hret]
    simp [Except.isOk, Except.toBool]
  | error e => exact tryCatch_error (bind_error (invoke_error hf))

/-- What the future of a submission holds after its callable has run. -/
def Submission.fulfilled (w : σ) : Submission σ ε ρ → Option (Except ε ρ)
  | .submit f => some (f w).1
  | .submitVoid _ | .trySubmit _ => none

theorem Submission.body_returns (sub : Submission σ ε ρ) (w : σ) (l : List Update) :
    sub.body.run ⟨w, none, l⟩ = .ok () ⟨(sub.callable w).2, sub.fulfilled w,
      l ++ if sub.fails w then [.failedAdd] else []⟩ := by
  cases sub with
  | submit f =>
    show EStateM.Result.ok () _ = _
    simp [callable, fulfilled, fails]
  | submitVoid f => exact countFailure_returns f _
  | trySubmit f => exact countFailure_returns f _

/-- The sink that a submission captures. -/
def captured (trace_enabled : Bool) (trace_sink : Option (TaskTraceSink σ ε)) :
    Option (TaskTraceSink σ ε) :=
  if trace_enabled then trace_sink else none

variable {nowNs : σ → ℕ} {trace_enabled : Bool} {trace_sink : Option (TaskTraceSink σ ε)}
  {id t0 : ℕ} {body : Code σ ε ρ Unit} {task : Task σ ε ρ}

theorem execute_untraced (h : captured trace_enabled trace_sink = none) :
    (makeTraceableTask nowNs trace_enabled trace_sink id t0 body).execute = body := by
  unfold makeTraceableTask
  cases trace_enabled with
  | false => rfl
  | true =>
    obtain rfl : trace_sink = none := h
    rfl

theorem execute_traced {sink : TaskTraceSink σ ε} (h : captured trace_enabled trace_sink = some sink)
    (hbody : body.run s = .ok () s₁) :
    (makeTraceableTask nowNs trace_enabled trace_sink id t0 body).execute.run s =
      (invoke (sink ⟨id, t0, nowNs s₁.world⟩)).run s₁ := by
  unfold makeTraceableTask
  cases trace_enabled with
  | false => cases h
  | true =>
    obtain rfl : trace_sink = some sink := h
    exact (bind_ok hbody).trans (bind_ok rfl)

/-! ## The worker loops -/

theorem runTask_returns
    (h : task.execute.run { s with updates := s.updates ++ [.busyAdd] } = .ok () s₁) :
    (ThreadPool.runTask task).run s =
      .ok () { s₁ with updates := s₁.updates ++ [.busySub] ++ [.completedAdd] } := by
  unfold ThreadPool.runTask
  rw [bind_ok (update_run _), bind_ok h, bind_ok (update_run _), update_run]

theorem runTask_throws {e : Thrown ε}
    (h : task.execute.run { s with updates := s.updates ++ [.busyAdd] } = .error e s₁) :
    (ThreadPool.runTask task).run s = .error e s₁ := by
  unfold ThreadPool.runTask
  rw [bind_ok (update_run _), bind_error h]

theorem executeTask_eq (waiting_producers : ℕ) (task : Task σ ε ρ) :
    WorkStealingThreadPool.executeTask waiting_producers task =
      (ThreadPool.runTask task >>= fun _ =>
        if 0 < waiting_producers then update .notifyNotFull else pure ()) := by
  unfold WorkStealingThreadPool.executeTask ThreadPool.runTask
  simp only [bind_assoc]

theorem executeTask_returns (waiting_producers : ℕ)
    (h : (ThreadPool.runTask task).run s = .ok () s₁) :
    (WorkStealingThreadPool.executeTask waiting_producers task).run s = .ok () { s₁ with
      updates := s₁.updates ++ if 0 < waiting_producers then [.notifyNotFull] else [] } := by
  rw [executeTask_eq, bind_ok h]
  split
  · exact update_run _
  · rw [List.append_nil]
    rfl

theorem executeTask_throws (waiting_producers : ℕ) {e : Thrown ε}
    (h : (ThreadPool.runTask task).run s = .error e s₁) :
    (WorkStealingThreadPool.executeTask waiting_producers task).run s = .error e s₁ := by
  rw [executeTask_eq, bind_error h]

end Wrappers

/-! ## Containment -/

/-- The submission captured no sink, or its sink returns from the call that follows the callable. -/
def SinkReturns (nowNs : σ → ℕ) (trace_enabled : Bool) (trace_sink : Option (TaskTraceSink σ ε))
    (id t0 : ℕ) (sub : Submission σ ε ρ) (w : σ) : Prop :=
  ∀ sink, captured trace_enabled trace_sink = some sink →
    (sink ⟨id, t0, nowNs (sub.callable w).2⟩ (sub.callable w).2).1.isOk = true

section Main

variable (nowNs : σ → ℕ) (trace_enabled : Bool) (trace_sink : Option (TaskTraceSink σ ε))
  (id t0 waiting_producers : ℕ) (sub : Submission σ ε ρ) (w : σ)

/-- The task that a submission makes. -/
def Submission.task : Task σ ε ρ := makeTraceableTask nowNs trace_enabled trace_sink id t0 sub.body

/-- A worker that takes up a task whose future, if any, is not fulfilled. -/
def Worker.taking : Worker σ ε ρ := ⟨w, none, []⟩

variable {nowNs trace_enabled trace_sink id t0 sub w}

theorem task_returns (h : SinkReturns nowNs trace_enabled trace_sink id t0 sub w) :
    ∃ w', (sub.task nowNs trace_enabled trace_sink id t0).execute.run ⟨w, none, [.busyAdd]⟩ =
      .ok () ⟨w', sub.fulfilled w, .busyAdd :: if sub.fails w then [.failedAdd] else []⟩ := by
  have hbody := sub.body_returns w [.busyAdd]
  unfold Submission.task
  cases hsink : captured trace_enabled trace_sink with
  | none =>
    rw [execute_untraced hsink]
    exact ⟨_, hbody⟩
  | some sink =>
    rw [execute_traced hsink hbody]
    have hok := h sink hsink
    cases hr : (sink ⟨id, t0, nowNs (sub.callable w).2⟩ (sub.callable w).2).1 with
    | ok a => exact ⟨_, invoke_ok hr⟩
    | error e =>
      rw [hr] at hok
      cases hok

theorem task_throws (h : ¬ SinkReturns nowNs trace_enabled trace_sink id t0 sub w) :
    ∃ e w', (sub.task nowNs trace_enabled trace_sink id t0).execute.run ⟨w, none, [.busyAdd]⟩ =
      .error (.user e) ⟨w', sub.fulfilled w,
        .busyAdd :: if sub.fails w then [.failedAdd] else []⟩ := by
  unfold SinkReturns at h
  push Not at h
  obtain ⟨sink, hsink, hthrows⟩ := h
  have hbody := sub.body_returns w [.busyAdd]
  unfold Submission.task
  rw [execute_traced hsink hbody]
  cases hr : (sink ⟨id, t0, nowNs (sub.callable w).2⟩ (sub.callable w).2).1 with
  | ok a =>
    rw [hr] at hthrows
    exact absurd rfl hthrows
  | error e => exact ⟨e, _, invoke_error hr⟩

variable (nowNs trace_enabled trace_sink id t0 sub w)

/-- An exception of the sink leaves the worker loop with `busy_workers` raised and the task
uncounted. -/
theorem escapes (h : ¬ SinkReturns nowNs trace_enabled trace_sink id t0 sub w) : ∃ e s',
    (ThreadPool.runTask (sub.task nowNs trace_enabled trace_sink id t0)).run (.taking w) =
      .error (.user e) s' ∧
    (WorkStealingThreadPool.executeTask waiting_producers
      (sub.task nowNs trace_enabled trace_sink id t0)).run (.taking w) = .error (.user e) s' ∧
    s'.updates = .busyAdd :: if sub.fails w then [.failedAdd] else [] := by
  obtain ⟨e, w', hthrows⟩ := task_throws h
  have hrun := runTask_throws (s := .taking w) hthrows
  exact ⟨e, _, hrun, executeTask_throws _ hrun, rfl⟩

theorem contained_of_sinkReturns (h : SinkReturns nowNs trace_enabled trace_sink id t0 sub w) :
    Contained (ThreadPool.runTask (sub.task nowNs trace_enabled trace_sink id t0)) (.taking w)
      (sub.fails w) ∧
    Contained (WorkStealingThreadPool.executeTask waiting_producers
      (sub.task nowNs trace_enabled trace_sink id t0)) (.taking w) (sub.fails w) := by
  obtain ⟨w', hret⟩ := task_returns h
  have hrun := runTask_returns (s := .taking w) hret
  constructor
  · refine contained_of_returns [] hrun nofun ?_
    simp [completedUpdates, Worker.taking]
  · refine contained_of_returns (if 0 < waiting_producers then [.notifyNotFull] else [])
      (executeTask_returns waiting_producers hrun) (fun u hu => ?_) ?_
    · split at hu
      · exact List.mem_singleton.mp hu
      · cases hu
    · simp [completedUpdates, Worker.taking]

/-- **Containment.** In both pools, and for every callable and sink, executing a task returns with
the counters as they should be exactly if no sink was captured at submission, or the sink returns. -/
theorem contained_iff :
    (Contained (ThreadPool.runTask (sub.task nowNs trace_enabled trace_sink id t0)) (.taking w)
      (sub.fails w) ↔ SinkReturns nowNs trace_enabled trace_sink id t0 sub w) ∧
    (Contained (WorkStealingThreadPool.executeTask waiting_producers
      (sub.task nowNs trace_enabled trace_sink id t0)) (.taking w) (sub.fails w) ↔
        SinkReturns nowNs trace_enabled trace_sink id t0 sub w) := by
  by_cases h : SinkReturns nowNs trace_enabled trace_sink id t0 sub w
  · obtain ⟨hpool, hsteal⟩ := contained_of_sinkReturns nowNs trace_enabled trace_sink id t0
      waiting_producers sub w h
    exact ⟨iff_of_true hpool h, iff_of_true hsteal h⟩
  · obtain ⟨e, s', hrun, hexec, _⟩ := escapes nowNs trace_enabled trace_sink id t0
      waiting_producers sub w h
    exact ⟨iff_of_false (not_contained_of_throws hrun) h,
      iff_of_false (not_contained_of_throws hexec) h⟩

end Main

/-- A sink that throws, after a callable that returns. -/
theorem exists_uncontained : ¬ ∀ (sub : Submission Unit Unit Unit) (trace_enabled : Bool)
    (trace_sink : Option (TaskTraceSink Unit Unit)) (id t0 waiting_producers : ℕ),
    Contained (ThreadPool.runTask (sub.task (fun _ => 0) trace_enabled trace_sink id t0))
      (.taking ()) (sub.fails ()) ∧
    Contained (WorkStealingThreadPool.executeTask waiting_producers
      (sub.task (fun _ => 0) trace_enabled trace_sink id t0)) (.taking ()) (sub.fails ()) := by
  intro h
  have hthrows : ¬ SinkReturns (fun _ => 0) true (some fun _ w => (.error (), w)) 0 0
      (.submitVoid fun w => (.ok (), w) : Submission Unit Unit Unit) () := by
    intro hret
    cases hret _ rfl
  obtain ⟨e, s', hrun, _⟩ := escapes _ _ _ _ _ 0 _ _ hthrows
  exact not_contained_of_throws hrun (h _ _ _ _ _ 0).1

end LowLatency.Pools
