import LowLatency.Pools.Exceptions
import LowLatency.ThreadPool.Order
import LowLatency.WorkStealingThreadPool.Drain

/-!
# Futures

Both pools together with what their tasks do. The tasks in the queues are those that the three
submission calls make; when a worker executes one, its wrapper runs as in `Pools.Exceptions`, on the
future of its own submission. What a callable finds when it is called is left open, since other
threads may have changed it. An exception that leaves a worker ends the program.

Each task is called at most once, so every future gets the outcome of its own callable and keeps it;
the failed calls without a future are counted (`Settles`). No accepted submission is left without an
outcome by a shutdown (`Ready`).
-/

namespace LowLatency.Pools

open Concurrency

variable {σ ε ρ : Type}

/-- What a submission puts into a queue: its wrapper, and what `makeTraceableTask` has loaded. -/
structure Submitted (σ ε ρ : Type) where
  submission : Submission σ ε ρ
  trace_enabled : Bool
  trace_sink : Option (TaskTraceSink σ ε)
  id : ℕ
  t0 : ℕ

instance [Inhabited ρ] : Inhabited (Submitted σ ε ρ) :=
  ⟨⟨.submitVoid fun w => (.ok default, w), false, none, 0, 0⟩⟩

namespace Submitted

variable (nowNs : σ → ℕ) (x : Submitted σ ε ρ) (w : σ)

def task : Task σ ε ρ := x.submission.task nowNs x.trace_enabled x.trace_sink x.id x.t0

/-- The call of the sink that follows a call of the callable in `w`, if any, returns. -/
def Returns : Prop := SinkReturns nowNs x.trace_enabled x.trace_sink x.id x.t0 x.submission w

end Submitted

/-- What the executed tasks have done. `futures` is the shared state of the future of each task, by
the task's number; `calls` is history: the executed tasks, and what their callables found. -/
structure Effects (σ ε ρ : Type) where
  futures : ℕ → Option (Except ε ρ)
  updates : List Update
  thrown : Option (Thrown ε)
  calls : List (Job (Submitted σ ε ρ) × σ)

namespace Effects

/-- Nothing has been executed. -/
def init : Effects σ ε ρ := ⟨fun _ => none, [], none, []⟩

/-- `task.execute()` of a worker, in `w`. -/
def execute (nowNs : σ → ℕ) (w : σ) (e : Effects σ ε ρ) (j : Job (Submitted σ ε ρ)) :
    Effects σ ε ρ :=
  match (j.task.task nowNs).execute.run ⟨w, e.futures j.id, e.updates⟩ with
  | .ok _ s =>
    ⟨Function.update e.futures j.id s.future, s.updates, none, e.calls ++ [(j, w)]⟩
  | .error x s =>
    ⟨Function.update e.futures j.id s.future, s.updates, some x, e.calls ++ [(j, w)]⟩

end Effects

/-- The tasks executed, and what they have done. -/
structure Settles (nowNs : σ → ℕ) (executed : List (Job (Submitted σ ε ρ)))
    (e : Effects σ ε ρ) : Prop where
  calls : e.calls.map Prod.fst = executed
  /-- No task is called twice. -/
  once : (executed.map Job.id).Nodup
  /-- The future of a task holds what its callable returned or threw. -/
  outcome : ∀ j w, (j, w) ∈ e.calls → e.futures j.id = j.task.submission.fulfilled w
  pending : ∀ id, id ∉ executed.map Job.id → e.futures id = none
  failed : e.updates =
    List.replicate (e.calls.countP fun c => c.1.task.submission.fails c.2) .failedAdd
  /-- Only a sink can end the program. -/
  thrown : e.thrown = none ↔ ∀ j w, (j, w) ∈ e.calls → j.task.Returns nowNs w
  user : ∀ x, e.thrown = some x → ∃ u, x = .user u

/-- Every accepted submission has its outcome. -/
def Ready (accepted : List (Job (Submitted σ ε ρ))) (e : Effects σ ε ρ) : Prop :=
  ∀ j ∈ accepted, ∃ w, (j, w) ∈ e.calls ∧ e.futures j.id = j.task.submission.fulfilled w

/-! ## One task -/

section Execute

variable {nowNs : σ → ℕ}

variable (nowNs) in
/-- No task lets through what its callable throws, and every task lets through what its sink
throws. -/
theorem Submitted.task_run (x : Submitted σ ε ρ) (w : σ) (l : List Update) :
    ∃ s, s.future = x.submission.fulfilled w ∧
      s.updates = l ++ (if x.submission.fails w then [.failedAdd] else []) ∧
      ((x.Returns nowNs w ∧ (x.task nowNs).execute.run ⟨w, none, l⟩ = .ok () s) ∨
        (¬ x.Returns nowNs w ∧
          ∃ u, (x.task nowNs).execute.run ⟨w, none, l⟩ = .error (.user u) s)) := by
  have hbody := x.submission.body_returns w l
  unfold Submitted.task Submission.task
  cases hsink : captured x.trace_enabled x.trace_sink with
  | none =>
    rw [execute_untraced hsink]
    refine ⟨_, rfl, rfl, .inl ⟨fun sink h => ?_, hbody⟩⟩
    rw [hsink] at h
    cases h
  | some sink =>
    rw [execute_traced hsink hbody]
    cases hr : (sink ⟨x.id, x.t0, nowNs (x.submission.callable w).2⟩
        (x.submission.callable w).2).1 with
    | ok a =>
      have hrun := invoke_ok (s := ⟨(x.submission.callable w).2, x.submission.fulfilled w,
        l ++ if x.submission.fails w then [.failedAdd] else []⟩) hr
      refine ⟨_, ?_, ?_, .inl ⟨fun sink' h => ?_, hrun⟩⟩
      · rfl
      · rfl
      · obtain rfl : sink = sink' := Option.some.inj (hsink.symm.trans h)
        rw [hr]
        rfl
    | error u =>
      have hrun := invoke_error (s := ⟨(x.submission.callable w).2, x.submission.fulfilled w,
        l ++ if x.submission.fails w then [.failedAdd] else []⟩) hr
      refine ⟨_, ?_, ?_, .inr ⟨fun h => ?_, u, hrun⟩⟩
      · rfl
      · rfl
      · have hok := h sink hsink
        rw [hr] at hok
        cases hok

namespace Settles

variable {executed : List (Job (Submitted σ ε ρ))} {e : Effects σ ε ρ}

theorem init : Settles nowNs [] (Effects.init : Effects σ ε ρ) where
  calls := rfl
  once := List.nodup_nil
  outcome j w h := by cases h
  pending _ _ := rfl
  failed := rfl
  thrown := by
    constructor
    · intro _ j w h
      cases h
    · exact fun _ => rfl
  user x h := by cases h

/-- A task that has not been executed is called for the first time. -/
theorem execute (h : Settles nowNs executed e) (hnone : e.thrown = none)
    {j : Job (Submitted σ ε ρ)} (honce : ((executed ++ [j]).map Job.id).Nodup) (w : σ) :
    Settles nowNs (executed ++ [j]) (e.execute nowNs w j) := by
  have hnew : j.id ∉ executed.map Job.id := by
    rw [List.map_append] at honce
    exact fun hmem => (List.nodup_append.mp honce).2.2 _ hmem _ (List.mem_singleton.mpr rfl) rfl
  obtain ⟨s, hfuture, hupdates, hrun⟩ := j.task.task_run nowNs w e.updates
  obtain ⟨x, hx, hexecute⟩ : ∃ x, ((x = none ↔ j.task.Returns nowNs w) ∧
      ∀ y, x = some y → ∃ u, y = .user u) ∧ e.execute nowNs w j =
        ⟨Function.update e.futures j.id s.future, s.updates, x, e.calls ++ [(j, w)]⟩ := by
    unfold Effects.execute
    rw [h.pending j.id hnew]
    rcases hrun with ⟨hret, hrun⟩ | ⟨hret, u, hrun⟩
    · rw [hrun]
      refine ⟨none, ⟨⟨fun _ => hret, fun _ => rfl⟩, ?_⟩, rfl⟩
      intro y hy
      cases hy
    · rw [hrun]
      refine ⟨some (.user u), ⟨⟨?_, fun hx => absurd hx hret⟩, ?_⟩, rfl⟩
      · intro hx
        cases hx
      · exact fun y hy => ⟨u, (Option.some.inj hy).symm⟩
  have hothers : ∀ j' w', (j', w') ∈ e.calls → j'.id ≠ j.id := fun j' w' hmem heq => by
    refine hnew (heq ▸ List.mem_map_of_mem ?_)
    rw [← h.calls]
    exact List.mem_map_of_mem (f := Prod.fst) hmem
  rw [hexecute]
  constructor
  · rw [List.map_append, h.calls]
    rfl
  · exact honce
  · intro j' w' hmem
    rcases List.mem_append.mp hmem with hmem | hmem
    · dsimp only
      rw [Function.update_of_ne (hothers j' w' hmem), h.outcome j' w' hmem]
    · obtain ⟨rfl, rfl⟩ := Prod.mk.inj (List.mem_singleton.mp hmem)
      dsimp only
      rw [Function.update_self, hfuture]
  · intro id hid
    rw [List.map_append, List.mem_append, not_or] at hid
    have hne : id ≠ j.id := fun heq => hid.2 (List.mem_singleton.mpr heq)
    dsimp only
    rw [Function.update_of_ne hne, h.pending id hid.1]
  · dsimp only
    rw [hupdates, h.failed, List.countP_append, List.countP_singleton, List.replicate_add]
    split <;> rfl
  · rw [hx.1]
    constructor
    · intro hret j' w' hmem
      rcases List.mem_append.mp hmem with hmem | hmem
      · exact h.thrown.mp hnone j' w' hmem
      · obtain ⟨rfl, rfl⟩ := Prod.mk.inj (List.mem_singleton.mp hmem)
        exact hret
    · exact fun hall => hall j w (List.mem_append_right _ (List.mem_singleton_self _))
  · exact hx.2

/-- Where everything accepted is executed, every accepted submission has its outcome. -/
theorem ready (h : Settles nowNs executed e) {accepted : List (Job (Submitted σ ε ρ))}
    (hall : accepted ⊆ executed) : Ready accepted e := by
  intro j hj
  have hmem := hall hj
  rw [← h.calls, List.mem_map] at hmem
  obtain ⟨⟨j', w⟩, hcall, rfl⟩ := hmem
  exact ⟨w, hcall, h.outcome _ w hcall⟩

end Settles

end Execute

/-! ## A pool and its tasks -/

section Pool

variable {τ A : Type*} (S : System τ A) (executed : τ → List (Job (Submitted σ ε ρ)))
  (nowNs : σ → ℕ)

/-- A pool whose tasks have effects. An action is one of the pool; if it executes a task, the task's
callable finds the given world. -/
def effectful : System (τ × Effects σ ε ρ) (A × σ) where
  next p a :=
    match p.2.thrown with
    | some _ => none
    | none => (S.next p.1 a.1).map fun s =>
        (s, ((executed s).drop (executed p.1).length).foldl (Effects.execute nowNs a.2) p.2)

/-- An invariant of a pool that executes tasks one by one, none of them twice. -/
structure Executes (I : τ → Prop) : Prop where
  next : ∀ s a s', I s → S.next s a = some s' → I s'
  once : ∀ s, I s → ((executed s).map Job.id).Nodup
  grows : ∀ s a s', S.next s a = some s' →
    executed s' = executed s ∨ ∃ j, executed s' = executed s ++ [j]

variable {S executed nowNs}

theorem next_effectful {p p' : τ × Effects σ ε ρ} {a : A × σ}
    (h : (effectful S executed nowNs).next p a = some p') :
    p.2.thrown = none ∧ S.next p.1 a.1 = some p'.1 ∧
      p'.2 = ((executed p'.1).drop (executed p.1).length).foldl (Effects.execute nowNs a.2) p.2 := by
  simp only [effectful] at h
  split at h
  · cases h
  next hnone =>
    obtain ⟨s, hs, rfl⟩ := Option.map_eq_some_iff.mp h
    exact ⟨hnone, hs, rfl⟩

theorem reach_of_effectful {ok : τ → A → Prop} {p p' : τ × Effects σ ε ρ}
    (h : (effectful S executed nowNs).Reach (fun p a => ok p.1 a.1) p p') :
    S.Reach ok p.1 p'.1 := by
  refine System.Reach.invariant (I := fun q => S.Reach ok p.1 q.1) h System.Reach.refl ?_
  intro q a q' hq hok hn
  exact hq.tail hok (next_effectful hn).2.1

theorem reachWithin_of_effectful (fits : τ → Prop) (ok : τ → A → Prop) {p p' : τ × Effects σ ε ρ}
    (h : (effectful S executed nowNs).ReachWithin (fun p => fits p.1) (fun p a => ok p.1 a.1) p p') :
    S.ReachWithin fits ok p.1 p'.1 :=
  ⟨reach_of_effectful h.1, h.2⟩

theorem reachable_of_effectful {p p' : τ × Effects σ ε ρ}
    (h : (effectful S executed nowNs).Reachable p p') : S.Reachable p.1 p'.1 := by
  refine System.Reachable.invariant (I := fun q => S.Reachable p.1 q.1) h ?_ ?_
  · exact System.Reach.refl
  · intro q a q' hq hn
    exact System.Reach.tail hq trivial (next_effectful hn).2.1

/-- Every task of a run is called once, with its own future. -/
theorem Executes.settles {I : τ → Prop} (H : Executes S executed I) {p p' : τ × Effects σ ε ρ}
    (hI : I p.1) (hp : Settles nowNs (executed p.1) p.2)
    (h : (effectful S executed nowNs).Reachable p p') :
    I p'.1 ∧ Settles nowNs (executed p'.1) p'.2 := by
  refine System.Reachable.invariant
    (I := fun q => I q.1 ∧ Settles nowNs (executed q.1) q.2) h ⟨hI, hp⟩ ?_
  rintro ⟨s, e⟩ a ⟨s', e'⟩ ⟨hs, he⟩ hn
  obtain ⟨hnone, hnext, heffects⟩ := next_effectful hn
  have hs' := H.next s a.1 s' hs hnext
  have honce := H.once s' hs'
  refine ⟨hs', ?_⟩
  dsimp only at heffects hnone ⊢
  rcases H.grows s a.1 s' hnext with hsame | ⟨j, hj⟩
  · rw [hsame, List.drop_length] at heffects
    rw [hsame, heffects]
    exact he
  · rw [hj, List.drop_left] at heffects
    rw [hj] at honce ⊢
    rw [heffects]
    exact he.execute hnone honce a.2

end Pool

/-! ## The two pools -/

section Main

variable {n : ℕ} {Tid : Type*} [Fintype Tid] [DecidableEq Tid]

theorem threadPool_executes (policy : ThreadPool.RejectPolicy) :
    Executes (ThreadPool.system policy)
      (fun c : ThreadPool.State (Submitted σ ε ρ) n Tid => c.shared.executed)
      fun c => ThreadPool.Inv c.shared c.workers c.clients where
  next _ _ _ h hn := ThreadPool.inv_next h hn
  once _ h := h.nodup_executed
  grows _ _ _ hn := ThreadPool.next_executed hn

/-- A step of the work-stealing pool executes at most one task. -/
theorem workStealing_executed {α : Type} {P : WorkStealingThreadPool.Parts (Job α)}
    {policy : WorkStealingThreadPool.WorkStealingRejectPolicy}
    {c c' : WorkStealingThreadPool.State P n Tid} {a : WorkStealingThreadPool.Action α n Tid}
    (hn : WorkStealingThreadPool.next policy c a = some c') :
    c'.shared.executed = c.shared.executed ∨
      ∃ j, c'.shared.executed = c.shared.executed ++ [j] := by
  cases a with
  | call t op =>
    obtain ⟨_, rfl⟩ := WorkStealingThreadPool.next_call hn
    exact .inl rfl
  | ret t =>
    obtain ⟨r, _, rfl⟩ := WorkStealingThreadPool.next_ret hn
    exact .inl rfl
  | worker i choice wakes =>
    obtain ⟨s, y, l, hs, _, rfl⟩ := WorkStealingThreadPool.next_worker hn
    dsimp only
    generalize c.workers i = x at hs
    cases WorkStealingThreadPool.stepWorker_effect hs with
    | plain he =>
      rw [he]
      exact .inl rfl
    | execute => exact .inr ⟨_, rfl⟩
    | _ => exact .inl rfl
  | client t choice wakes =>
    obtain ⟨x, s, y, w, _, hs, _, rfl⟩ := WorkStealingThreadPool.next_client hn
    cases WorkStealingThreadPool.stepClient_cases hs with
    | queue => exact .inl rfl
    | turn ht => exact .inl ht.executed
  | spuriousWorker i =>
    obtain ⟨_, rfl⟩ := WorkStealingThreadPool.next_spuriousWorker hn
    exact .inl rfl
  | spuriousClient t =>
    obtain ⟨_, rfl⟩ := WorkStealingThreadPool.next_spuriousClient hn
    exact .inl rfl

omit [DecidableEq Tid] in
theorem nodup_of_balanced {α : Type} {P : WorkStealingThreadPool.Parts (Job α)}
    {K : WorkStealingThreadPool.Ledgers P} {c : WorkStealingThreadPool.State P n Tid}
    (h : WorkStealingThreadPool.Balanced K c.shared c.workers c.clients) :
    (c.shared.executed.map Job.id).Nodup := by
  have hissued : (c.shared.issued.map Job.id).Nodup := by
    rw [h.numbered]
    exact List.nodup_range
  have hmap := congrArg (Multiset.map Job.id) h.placed
  rw [Multiset.map_add, Multiset.map_coe, Multiset.map_coe] at hmap
  rw [← Multiset.coe_nodup, hmap, Multiset.nodup_add] at hissued
  exact hissued.2.1

theorem workStealing_executes [Inhabited ρ] {r : Ring} (h2 : 2 ≤ r.size)
    (policy : WorkStealingThreadPool.WorkStealingRejectPolicy) :
    Executes (WorkStealingThreadPool.system policy)
      (fun c : WorkStealingThreadPool.State (.real (Job (Submitted σ ε ρ)) r) n Tid =>
        c.shared.executed)
      fun c => WorkStealingThreadPool.Sound (WorkStealingThreadPool.Ledgers.real _ r)
        (LockFreeQueue.Used r (Sum.isRight : Fin n ⊕ Tid → Bool))
        (fun d => WorkStealingDeque.Inv r d) c.shared c.workers c.clients where
  next _ _ _ h hn := h.next (WorkStealingThreadPool.custody_real h2) hn
  once _ h := nodup_of_balanced h.balanced
  grows _ _ _ hn := workStealing_executed hn

variable (Tid)

/-- **Every future gets the outcome of its own callable.** In both pools, for all callables, sinks and
interleavings, each task is called at most once, on its own future, and only a sink can end the
program. What was accepted before a shutdown has its outcome after it, in the work-stealing pool
provided that every push is in time. The positions of the work-stealing pool fit. -/
theorem futures_settle [Inhabited ρ] (nowNs : σ → ℕ) (r : Ring) :
    (∀ (n : ℕ) (policy : ThreadPool.RejectPolicy)
      (p : ThreadPool.State (Submitted σ ε ρ) n Tid × Effects σ ε ρ),
      (effectful (ThreadPool.system policy) (fun c => c.shared.executed) nowNs).Reachable
          (ThreadPool.initial _ n Tid r, .init) p →
        Settles nowNs p.1.shared.executed p.2 ∧
        (0 < n → ThreadPool.ShutDown p.1 → ∀ p',
          (effectful (ThreadPool.system policy) (fun c => c.shared.executed) nowNs).Reachable p p' →
            p'.1.shared.accepted = p.1.shared.accepted ∧ Ready p'.1.shared.accepted p'.2)) ∧
    (2 ≤ r.size → ∀ (num_threads : ℕ) (policy : WorkStealingThreadPool.WorkStealingRejectPolicy)
      (p : WorkStealingThreadPool.State (.real (Job (Submitted σ ε ρ)) r)
        (WorkStealingThreadPool.numThreads num_threads) Tid × Effects σ ε ρ),
      ((effectful (WorkStealingThreadPool.system policy) (fun c => c.shared.executed)
          nowNs).ReachWithin (fun p => p.1.shared.Fits) (fun _ _ => True)
          (WorkStealingThreadPool.initial _ _ Tid, .init) p →
        Settles nowNs p.1.shared.executed p.2) ∧
      ((effectful (WorkStealingThreadPool.system policy) (fun c => c.shared.executed)
          nowNs).ReachWithin (fun p => p.1.shared.Fits)
          (fun p a => WorkStealingThreadPool.InTime p.1 a.1)
          (WorkStealingThreadPool.initial _ _ Tid, .init) p →
        ∀ t, p.1.clients t = some (.done .stopped) → Ready p.1.shared.accepted p.2)) := by
  refine ⟨fun n policy p h => ?_, fun h2 num_threads policy p => ⟨fun h => ?_, fun h t ht => ?_⟩⟩
  · have hsettles : ∀ p' : ThreadPool.State (Submitted σ ε ρ) n Tid × Effects σ ε ρ,
        (effectful (ThreadPool.system policy) (fun c => c.shared.executed) nowNs).Reachable
          (ThreadPool.initial _ n Tid r, .init) p' →
            Settles nowNs p'.1.shared.executed p'.2 := fun p' h' =>
      ((threadPool_executes policy).settles (ThreadPool.inv_initial r) Settles.init h').2
    refine ⟨hsettles p h, fun hn hshut p' hp' => ?_⟩
    obtain ⟨hsame, hdrained⟩ := (ThreadPool.pool_drains hn policy r p.1
      (reachable_of_effectful h)).2 hshut p'.1 (reachable_of_effectful hp')
    exact ⟨hsame, (hsettles p' (h.trans hp')).ready hdrained.executed.symm.subset⟩
  · exact ((workStealing_executes h2 policy).settles (WorkStealingThreadPool.sound_real r)
      Settles.init h.reach).2
  · have hsettles := ((workStealing_executes h2 policy).settles
      (WorkStealingThreadPool.sound_real r) Settles.init h.reach.reachable).2
    have hpool := reachWithin_of_effectful (fun c => c.shared.Fits) WorkStealingThreadPool.InTime h
    have hemptied := WorkStealingThreadPool.emptied_of_inTime num_threads h2 policy p.1 hpool ht
    exact hsettles.ready hemptied.executed

end Main

/-! ## A callable that throws -/

/-- A submission with a future, whose callable throws. -/
def throwing : Submitted Unit Unit ℕ := ⟨.submit fun w => (.error (), w), false, none, 0, 0⟩

/-- The worker sleeps when the task is submitted, and executes it while the pool shuts down. -/
def submitThrowing : List (ThreadPool.Action (Submitted Unit Unit ℕ) 1 (Fin 2) × Unit) :=
  (List.flatten [List.replicate 2 (.worker 0 none), [.call 0 (.submit throwing)],
    List.replicate 7 (.client 0 none), [.client 0 (some 0), .client 0 none, .call 1 .shutdown],
    List.replicate 7 (.client 1 none), List.replicate 14 (.worker 0 none),
    List.replicate 2 (.client 1 none)]).map fun a => (a, ())

/-- The submission is between its test of `stop_` and its push when the shutdown begins. -/
def submitThrowingStealing :
    List (WorkStealingThreadPool.Action (Submitted Unit Unit ℕ) 1 (Fin 2) × Unit) :=
  (List.flatten [[.call 0 (.submit throwing)], WorkStealingThreadPool.Action.clients 0 2,
    [.call 1 .shutdown], WorkStealingThreadPool.Action.clients 1 6,
    WorkStealingThreadPool.Action.clients 0 9, WorkStealingThreadPool.Action.workers 0 49,
    WorkStealingThreadPool.Action.clients 1 3]).map fun a => (a, ())

/-- What the `shutdown()` of a thread has returned. -/
def shutdownResult : Option (ThreadPool.Client (Submitted Unit Unit ℕ)) → Bool
  | some (.done .stopped) => true
  | _ => false

theorem shutdownResult_eq_true {x : Option (ThreadPool.Client (Submitted Unit Unit ℕ))}
    (h : shutdownResult x = true) : x = some (.done .stopped) := by
  unfold shutdownResult at h
  split at h
  · rfl
  · cases h

/-- The worker has not turned to leave when a push makes a step. -/
def pushInTime (p : WorkStealingThreadPool.State (.real (Job (Submitted Unit Unit ℕ)) Ring.two) 1
      (Fin 2) × Effects Unit Unit ℕ) :
    WorkStealingThreadPool.Action (Submitted Unit Unit ℕ) 1 (Fin 2) × Unit → Bool
  | (.client t _ _, _) =>
    match p.1.clients t with
    | some (.push _ _ _) => !(p.1.workers 0).leaves
        ((WorkStealingThreadPool.Parts.real (Job (Submitted Unit Unit ℕ)) Ring.two).head
          p.1.shared.incoming)
    | _ => true
  | _ => true

theorem inTime_of_pushInTime {p : WorkStealingThreadPool.State
      (.real (Job (Submitted Unit Unit ℕ)) Ring.two) 1 (Fin 2) × Effects Unit Unit ℕ}
    {a : WorkStealingThreadPool.Action (Submitted Unit Unit ℕ) 1 (Fin 2) × Unit}
    (h : pushInTime p a = true) : WorkStealingThreadPool.InTime p.1 a.1 := by
  obtain ⟨a, u⟩ := a
  cases a with
  | client t spurious wakes =>
    intro path j item pos hx _ _
    refine ⟨0, ?_⟩
    simp only [pushInTime, hx] at h
    exact (Bool.not_eq_true' _).mp h
  | _ => trivial

theorem futures_settle_throwing :
    (∃ p : ThreadPool.State (Submitted Unit Unit ℕ) 1 (Fin 2) × Effects Unit Unit ℕ,
      p.2.futures 0 = some (.error ()) ∧ Settles (fun _ => 0) p.1.shared.executed p.2 ∧
        Ready p.1.shared.accepted p.2) ∧
    (∃ p : WorkStealingThreadPool.State (.real (Job (Submitted Unit Unit ℕ)) Ring.two)
        (WorkStealingThreadPool.numThreads 1) (Fin 2) × Effects Unit Unit ℕ,
      p.2.futures 0 = some (.error ()) ∧ Settles (fun _ => 0) p.1.shared.executed p.2 ∧
        Ready p.1.shared.accepted p.2) := by
  obtain ⟨hpool, hsteal⟩ := @futures_settle Unit Unit ℕ (Fin 2) _ _ _ (fun _ => 0) Ring.two
  constructor
  · have hrun : ((effectful (ThreadPool.system .block) (fun c => c.shared.executed)
        (fun _ => 0)).run (ThreadPool.initial _ 1 (Fin 2) Ring.two, .init) submitThrowing).map
          (fun p => (p.2.futures 0, shutdownResult (p.1.clients 1))) =
            some (some (.error ()), true) := by decide +kernel
    obtain ⟨p, hp, hres⟩ := Option.map_eq_some_iff.mp hrun
    obtain ⟨hfuture, hstopped⟩ := Prod.mk.inj hres
    obtain ⟨hsettles, hready⟩ := hpool 1 .block p (System.reachable_of_run hp)
    exact ⟨p, hfuture, hsettles, (hready Nat.one_pos ⟨1, shutdownResult_eq_true hstopped⟩ p
      System.Reach.refl).2⟩
  · have hrun : ((effectful (WorkStealingThreadPool.system .block) (fun c => c.shared.executed)
        (fun _ => 0)).runWhile (fun p a => p.1.shared.Fits ∧ pushInTime p a = true)
          (WorkStealingThreadPool.initial _ 1 (Fin 2), .init) submitThrowingStealing).map
            (fun p => (p.2.futures 0, WorkStealingThreadPool.Client.result (p.1.clients 1),
              decide p.1.shared.Fits)) =
            some (some (.error ()), some .stopped, true) := by decide +kernel
    obtain ⟨p, hp, hres⟩ := Option.map_eq_some_iff.mp hrun
    obtain ⟨hfuture, hres⟩ := Prod.mk.inj hres
    obtain ⟨hstopped, hfits⟩ := Prod.mk.inj hres
    have hfits := of_decide_eq_true hfits
    have hreach := System.reach_of_runWhile hp
    obtain ⟨hsettles, hready⟩ := hsteal (by decide) 1 .block p
    exact ⟨p, hfuture, hsettles ⟨hreach.mono fun _ _ h => ⟨h.1, trivial⟩, hfits⟩,
      hready ⟨hreach.mono fun _ _ h => ⟨h.1, inTime_of_pushInTime h.2⟩, hfits⟩ 1
        (WorkStealingThreadPool.Client.result_eq_some hstopped)⟩

end LowLatency.Pools
