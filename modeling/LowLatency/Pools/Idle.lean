import LowLatency.ThreadPool.Idle
import LowLatency.WorkStealingThreadPool.Idle

/-!
# `idle()` of both pools

`idle()` means that no worker executes a task and nothing is queued. In both pools a worker that has
taken a task counts itself in `busy_workers` only some steps later, so that a task can escape both
tests. The results below say when the answer true can be believed.
-/

namespace LowLatency.Pools

open Concurrency

universe u

section Main

variable {α : Type u} [Inhabited α] {Tid : Type*} [Fintype Tid] [DecidableEq Tid]

/-- **The answer true of `idle()` is right**, in `ThreadPool` exactly as long as no worker has a task
uncounted when `idle()` finds `busy_workers` zero and the ring empty, and in `WorkStealingThreadPool`,
while the positions fit, as long as no worker has or reaches for a task while `idle()` scans. There it
is wrong when a worker has a task uncounted at the load of `busy_workers_`, all containers look empty
and the scan is not disturbed. -/
theorem idle_answers (r : Ring) :
    (∀ (n : ℕ) (policy : ThreadPool.RejectPolicy) (c : ThreadPool.State α n Tid) (t : Tid),
      (ThreadPool.system policy).Reachable (ThreadPool.initial α n Tid r) c →
        c.clients t = some .idleLock → ThreadPool.Quiet c.clients →
        ∀ c', (ThreadPool.system policy).Reach
            (fun c a => a.submits = false ∧ ThreadPool.Seen t c a) c c' →
          (c'.clients t = some (.done (.isIdle true)) →
            c'.shared.accepted = c.shared.accepted ∧ ThreadPool.Finished c') ∧
          ∀ a, ¬ ThreadPool.Seen t c' a → ∃ d,
            (ThreadPool.system policy).run c' (List.replicate 3 (.client t none)) = some d ∧
              d.clients t = some (.done (.isIdle true)) ∧ ¬ ThreadPool.Finished d) ∧
    (2 ≤ r.size → ∀ (num_threads : ℕ) (policy : WorkStealingThreadPool.WorkStealingRejectPolicy)
      (c : WorkStealingThreadPool.State (.real (Job α) r)
        (WorkStealingThreadPool.numThreads num_threads) Tid) (t : Tid),
      (WorkStealingThreadPool.system policy).ReachWithin (fun c => c.shared.Fits) (fun _ _ => True)
          (WorkStealingThreadPool.initial _ _ Tid) c →
        c.clients t = some .idleLock → WorkStealingThreadPool.Quiet c.clients →
        ∀ c', (WorkStealingThreadPool.system policy).ReachWithin (fun c => c.shared.Fits)
            (fun c a => a.submits = false ∧ WorkStealingThreadPool.Steady
              (WorkStealingThreadPool.Ledgers.real α r) WorkStealingDeque.reaches t c a) c c' →
          (c'.clients t = some (.done (.isIdle true)) →
            c'.shared.accepted = c.shared.accepted ∧
              WorkStealingThreadPool.Finished (WorkStealingThreadPool.Ledgers.real α r) c') ∧
          (c'.clients t = some .idleBusy → c'.shared.busy = 0 →
            WorkStealingThreadPool.LooksEmpty c'.shared →
            ¬ WorkStealingThreadPool.Finished (WorkStealingThreadPool.Ledgers.real α r) c' →
            ∃ d, (WorkStealingThreadPool.system policy).run c'
                (WorkStealingThreadPool.Action.clients t
                  (2 * WorkStealingThreadPool.numThreads num_threads + 4)) = some d ∧
              d.clients t = some (.done (.isIdle true)) ∧
                ¬ WorkStealingThreadPool.Finished (WorkStealingThreadPool.Ledgers.real α r) d)) := by
  constructor
  · intro n policy c t hc ht hquiet c' h
    constructor
    · exact fun hdone => ThreadPool.idle_truthful policy r hc ht hquiet h hdone
    · exact fun a ha => ThreadPool.idle_wrong policy c' ha
  · intro h2 num_threads policy c t hc ht hquiet c' h
    constructor
    · exact fun hdone =>
        WorkStealingThreadPool.idle_truthful h2 policy hc.reach ht hquiet h.reach hdone
    · exact fun hbusy hzero hempty hwork =>
        WorkStealingThreadPool.idle_wrong hbusy hzero hempty _ hwork

end Main

/-! ## Wrong answers -/

/-- A task is submitted, and the worker takes it; then thread 1 calls `idle()`. -/
def takeTask : List (ThreadPool.Action ℕ 1 (Fin 2)) :=
  List.flatten [[.call 0 (.submit 7)], List.replicate 9 (.client 0 none), [.ret 0],
    List.replicate 6 (.worker 0 none), [.call 1 .idle]]

/-- The same in the work-stealing pool. -/
def takeTaskStealing : List (WorkStealingThreadPool.Action ℕ 1 (Fin 2)) :=
  List.flatten [[.call 0 (.submit 7)], WorkStealingThreadPool.Action.clients 0 11, [.ret 0],
    WorkStealingThreadPool.Action.workers 0 28]

/-- With a single slot, a second push overwrites the task that a worker is about to read. -/
def overwriteTask : List (WorkStealingThreadPool.Action ℕ 1 (Fin 2)) :=
  List.flatten [[.call 0 (.submit 7)], WorkStealingThreadPool.Action.clients 0 11, [.ret 0],
    WorkStealingThreadPool.Action.workers 0 5, [.call 0 (.submit 8)],
    WorkStealingThreadPool.Action.clients 0 6, WorkStealingThreadPool.Action.workers 0 2,
    WorkStealingThreadPool.Action.clients 0 5, [.ret 0],
    WorkStealingThreadPool.Action.workers 0 40]

theorem quiet_of_none {l : Fin 2 → Option (ThreadPool.Client ℕ)} (hzero : l 0 = none)
    (hone : l 1 = some .idleLock) : ThreadPool.Quiet l := by
  refine ThreadPool.quiet_of_any (Fin.forall_fin_two.mpr ⟨?_, ?_⟩)
  · rw [hzero]
    rfl
  · rw [hone]
    rfl

/-- Thread 1 calls `idle()` while thread 0 is outside of the pool. -/
theorem idle_called {P : WorkStealingThreadPool.Parts (Job ℕ)} {n : ℕ}
    {c c' : WorkStealingThreadPool.State P n (Fin 2)} (hzero : (c.clients 0).isNone = true)
    (hn : (WorkStealingThreadPool.system .block).next c (.call 1 .idle) = some c') :
    c'.clients 1 = some .idleLock ∧ WorkStealingThreadPool.Quiet c'.clients := by
  have hn : WorkStealingThreadPool.next .block c (.call 1 .idle) = some c' := hn
  obtain ⟨_, rfl⟩ := WorkStealingThreadPool.next_call hn
  refine ⟨rfl, WorkStealingThreadPool.quiet_of_any (Fin.forall_fin_two.mpr ⟨?_, rfl⟩)⟩
  show (c.clients 0).any _ = false
  rw [Option.isNone_iff_eq_none.mp hzero]
  rfl

/-- The worker executes a task and goes to sleep; then thread 1 calls `idle()`. -/
def executeTask : List (ThreadPool.Action ℕ 1 (Fin 2)) :=
  List.flatten [[.call 0 (.submit 7)], List.replicate 9 (.client 0 none), [.ret 0],
    List.replicate 12 (.worker 0 none), [.call 1 .idle]]

/-- The same in the work-stealing pool. -/
def executeTaskStealing : List (WorkStealingThreadPool.Action ℕ 1 (Fin 2)) :=
  List.flatten [[.call 0 (.submit 7)], WorkStealingThreadPool.Action.clients 0 11, [.ret 0],
    WorkStealingThreadPool.Action.workers 0 51]

theorem idle_answers_executeTask :
    (∃ c : ThreadPool.State ℕ 1 (Fin 2), c.clients 1 = some (.done (.isIdle true)) ∧
      c.shared.accepted.map Job.task = [7] ∧ ThreadPool.Finished c) ∧
    (∃ c : WorkStealingThreadPool.State (.real (Job ℕ) Ring.two)
        (WorkStealingThreadPool.numThreads 1) (Fin 2), c.clients 1 = some (.done (.isIdle true)) ∧
      c.shared.accepted.map Job.task = [7] ∧
        WorkStealingThreadPool.Finished (WorkStealingThreadPool.Ledgers.real ℕ Ring.two) c) := by
  constructor
  · have hrun : ((ThreadPool.system .block).run (ThreadPool.initial ℕ 1 (Fin 2) Ring.two)
        executeTask).bind (fun c => ((ThreadPool.system .block).runWhile
          (fun c a => a.submits = false ∧ c.workers 0 = .asleep) c
          (List.replicate 4 (.client 1 none))).map fun c' =>
            (c.clients 0, c.clients 1, c'.clients 1, c'.shared.accepted.map Job.task)) =
        some (none, some .idleLock, some (.done (.isIdle true)), [7]) := by decide +kernel
    obtain ⟨c, hc, h⟩ := Option.bind_eq_some_iff.mp hrun
    obtain ⟨c', hc', hres⟩ := Option.map_eq_some_iff.mp h
    obtain ⟨hzero, hres⟩ := Prod.mk.inj hres
    obtain ⟨hone, hres⟩ := Prod.mk.inj hres
    obtain ⟨hdone, htasks⟩ := Prod.mk.inj hres
    refine ⟨c', hdone, htasks, (((idle_answers Ring.two).1 1 .block c 1 (System.reachable_of_run hc)
      hone (quiet_of_none hzero hone) c' ?_).1 hdone).2⟩
    refine (System.reach_of_runWhile hc').mono fun d a hok => ⟨hok.1, ?_⟩
    cases a with
    | client u wakes =>
      intro _ _ _ _ i j hi
      obtain rfl := Subsingleton.elim i 0
      rw [hok.2] at hi
      cases hi
    | _ => trivial
  · have hrun : ((WorkStealingThreadPool.system .block).runWhile (fun c _ => c.shared.Fits)
        (WorkStealingThreadPool.initial (.real (Job ℕ) Ring.two) 1 (Fin 2))
        executeTaskStealing).bind (fun c₀ =>
      ((WorkStealingThreadPool.system .block).next c₀ (.call 1 .idle)).bind fun c =>
        ((WorkStealingThreadPool.system .block).runWhile
          (fun c a => c.shared.Fits ∧ a.submits = false ∧ (c.workers 0).sleeping = true) c
          (WorkStealingThreadPool.Action.clients 1 7)).map fun c' =>
            ((c₀.clients 0).isNone, WorkStealingThreadPool.Client.result (c'.clients 1),
              (decide c₀.shared.Fits, decide c.shared.Fits, decide c'.shared.Fits),
              c'.shared.accepted.map Job.task)) =
        some (true, some (.isIdle true), (true, true, true), [7]) := by decide +kernel
    obtain ⟨c₀, hc₀, h⟩ := Option.bind_eq_some_iff.mp hrun
    obtain ⟨c, hc, h⟩ := Option.bind_eq_some_iff.mp h
    obtain ⟨c', hc', hres⟩ := Option.map_eq_some_iff.mp h
    obtain ⟨hzero, hres⟩ := Prod.mk.inj hres
    obtain ⟨hdone, hres⟩ := Prod.mk.inj hres
    obtain ⟨hfits, htasks⟩ := Prod.mk.inj hres
    obtain ⟨hfits₀, hfits⟩ := Prod.mk.inj hfits
    obtain ⟨hfits, hfits'⟩ := Prod.mk.inj hfits
    have hdone := WorkStealingThreadPool.Client.result_eq_some hdone
    have hreach : (WorkStealingThreadPool.system .block).ReachWithin (fun c => c.shared.Fits)
        (fun _ _ => True) (WorkStealingThreadPool.initial (.real (Job ℕ) Ring.two) 1 (Fin 2)) c := by
      refine ⟨?_, of_decide_eq_true hfits⟩
      exact ((System.reach_of_runWhile hc₀).mono fun _ _ h => ⟨h, trivial⟩).tail
        ⟨of_decide_eq_true hfits₀, trivial⟩ hc
    obtain ⟨hone, hquiet⟩ := idle_called hzero hc
    refine ⟨c', hdone, htasks, (((idle_answers Ring.two).2 (le_refl 2) 1 .block c 1 hreach hone hquiet
      c' ⟨?_, of_decide_eq_true hfits'⟩).1 hdone).2⟩
    refine (System.reach_of_runWhile hc').mono fun d a hok => ⟨hok.1, hok.2.1, fun _ => ?_⟩
    exact WorkStealingThreadPool.handless_of_sleeping fun i =>
      Subsingleton.elim (0 : Fin 1) i ▸ hok.2.2

/-- A schedule after which thread 1 calls `idle()` in vain. -/
theorem wrong_of_run {r : Ring} (as : List (WorkStealingThreadPool.Action ℕ 1 (Fin 2)))
    (h : ((WorkStealingThreadPool.system .block).run
        (WorkStealingThreadPool.initial (.real (Job ℕ) r) 1 (Fin 2)) as).bind (fun c₀ =>
      ((WorkStealingThreadPool.system .block).next c₀ (.call 1 .idle)).bind fun c =>
        ((WorkStealingThreadPool.system .block).runWhile (fun _ a => a.submits = false) c
          (WorkStealingThreadPool.Action.clients 1 7)).map fun c' =>
            ((c₀.clients 0).isNone, WorkStealingThreadPool.Client.result (c'.clients 1),
              decide (c'.shared.executed.Perm c.shared.accepted))) =
        some (true, some (.isIdle true), false)) :
    ∃ c c' : WorkStealingThreadPool.State (.real (Job ℕ) r) 1 (Fin 2),
      (WorkStealingThreadPool.system .block).Reachable
          (WorkStealingThreadPool.initial _ _ (Fin 2)) c ∧
        c.clients 1 = some .idleLock ∧ WorkStealingThreadPool.Quiet c.clients ∧
        (WorkStealingThreadPool.system .block).Reach (fun _ a => a.submits = false) c c' ∧
        c'.clients 1 = some (.done (.isIdle true)) ∧
        ¬ c'.shared.executed.Perm c.shared.accepted := by
  obtain ⟨c₀, hc₀, h⟩ := Option.bind_eq_some_iff.mp h
  obtain ⟨c, hc, h⟩ := Option.bind_eq_some_iff.mp h
  obtain ⟨c', hc', hres⟩ := Option.map_eq_some_iff.mp h
  obtain ⟨hzero, hres⟩ := Prod.mk.inj hres
  obtain ⟨hdone, hperm⟩ := Prod.mk.inj hres
  have hreach := (System.reachable_of_run hc₀).tail trivial hc
  obtain ⟨hone, hquiet⟩ := idle_called hzero hc
  exact ⟨c, c', hreach, hone, hquiet, System.reach_of_runWhile hc',
    WorkStealingThreadPool.Client.result_eq_some hdone, of_decide_eq_false hperm⟩

/-- Both pools answer true although the accepted task has only been taken; with a single slot the
work-stealing pool does so although an accepted task is gone. -/
theorem exists_wrong :
    (∃ c c' : ThreadPool.State ℕ 1 (Fin 2),
      (ThreadPool.system .block).Reachable (ThreadPool.initial ℕ 1 (Fin 2) Ring.two) c ∧
        c.clients 1 = some .idleLock ∧ ThreadPool.Quiet c.clients ∧
        (ThreadPool.system .block).Reach (fun _ a => a.submits = false) c c' ∧
        c'.clients 1 = some (.done (.isIdle true)) ∧
        ¬ c'.shared.executed.Perm c.shared.accepted) ∧
    (∀ r ∈ [Ring.two, Ring.one], ∃ c c' : WorkStealingThreadPool.State (.real (Job ℕ) r) 1 (Fin 2),
      (WorkStealingThreadPool.system .block).Reachable
          (WorkStealingThreadPool.initial _ _ (Fin 2)) c ∧
        c.clients 1 = some .idleLock ∧ WorkStealingThreadPool.Quiet c.clients ∧
        (WorkStealingThreadPool.system .block).Reach (fun _ a => a.submits = false) c c' ∧
        c'.clients 1 = some (.done (.isIdle true)) ∧
        ¬ c'.shared.executed.Perm c.shared.accepted) := by
  constructor
  · have hrun : ((ThreadPool.system .block).run (ThreadPool.initial ℕ 1 (Fin 2) Ring.two)
        takeTask).bind (fun c => ((ThreadPool.system .block).runWhile
          (fun _ a => a.submits = false) c (List.replicate 4 (.client 1 none))).map fun c' =>
            (c.clients 0, c.clients 1, c'.clients 1,
              decide (c'.shared.executed.Perm c.shared.accepted))) =
        some (none, some .idleLock, some (.done (.isIdle true)), false) := by decide +kernel
    obtain ⟨c, hc, h⟩ := Option.bind_eq_some_iff.mp hrun
    obtain ⟨c', hc', hres⟩ := Option.map_eq_some_iff.mp h
    obtain ⟨hzero, hres⟩ := Prod.mk.inj hres
    obtain ⟨hone, hres⟩ := Prod.mk.inj hres
    obtain ⟨hdone, hperm⟩ := Prod.mk.inj hres
    refine ⟨c, c', System.reachable_of_run hc, hone, quiet_of_none hzero hone,
      System.reach_of_runWhile hc', hdone, of_decide_eq_false hperm⟩
  · intro r hr
    rcases List.mem_cons.mp hr with rfl | hr
    · exact wrong_of_run takeTaskStealing (by decide +kernel)
    · obtain rfl := List.mem_singleton.mp hr
      exact wrong_of_run overwriteTask (by decide +kernel)

end LowLatency.Pools
