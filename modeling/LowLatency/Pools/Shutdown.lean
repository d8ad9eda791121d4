import LowLatency.ThreadPool.Shutdown
import LowLatency.WorkStealingThreadPool.Shutdown

/-!
# `shutdown()` from several threads

The destructor of each pool calls `shutdown()`, and the members go away when that call returns. Both
pools promise that no submission is then in flight. This holds for the call that sets the flag; a call
that finds the flag set does not wait for the other one. The results below are about both pools: as
long as no call comes too early, everything is settled when any of them returns, and each call that
does come too early can break it.
-/

namespace LowLatency.Pools

open Concurrency

universe u

section Main

variable {α : Type u} [Inhabited α] {Tid : Type*} [Fintype Tid] [DecidableEq Tid]

/-- **`shutdown()` means the same for every caller** in both pools, in the runs in which no call finds
the flag set while another one still waits; a call that does can return before everything is
settled. There are fewer than `2 ^ 32` threads, so that the counter of the submissions in flight does
not wrap. -/
theorem shutdown_settles (r : Ring) (hfew : Fintype.card Tid < 2 ^ 32) :
    (∀ (n : ℕ) (policy : ThreadPool.RejectPolicy) (p : ThreadPool.State α n Tid × Set Tid),
      (ThreadPool.tracked policy).Reach ThreadPool.Late (ThreadPool.initial α n Tid r, ∅) p →
        p.1.shared.active < 2 ^ 32 ∧
        (∀ t res, p.1.clients t = some (.done res) → res.isShutdown = true →
          ThreadPool.Settled p) ∧
        ∀ a, ¬ ThreadPool.Late p a → ∃ t p',
          (ThreadPool.tracked policy).run p [.client t none, .client t none] = some p' ∧
            p'.1.clients t = some (.done .alreadyStopped) ∧ ¬ ThreadPool.Settled p') ∧
    (∀ (num_threads : ℕ) (policy : WorkStealingThreadPool.WorkStealingRejectPolicy)
      (p : WorkStealingThreadPool.State (.real (Job α) r)
        (WorkStealingThreadPool.numThreads num_threads) Tid × Set Tid),
      (WorkStealingThreadPool.tracked policy).Reach WorkStealingThreadPool.Late
          (WorkStealingThreadPool.initial _ _ Tid, ∅) p →
        p.1.shared.active < 2 ^ 32 ∧
        (∀ t res, p.1.clients t = some (.done res) → res.isShutdown = true →
          WorkStealingThreadPool.Settled p) ∧
        ∀ a, ¬ WorkStealingThreadPool.Late p a → ∃ t p',
          (WorkStealingThreadPool.tracked policy).run p
              [.client t false none, .client t false none] = some p' ∧
            p'.1.clients t = some (.done .alreadyStopped) ∧ ¬ WorkStealingThreadPool.Settled p') := by
  constructor
  · intro n policy p h
    refine ⟨ThreadPool.active_lt_of_late hfew policy r p h, ?_, ?_⟩
    · exact fun t res hdone hres => ThreadPool.settled_of_late policy r p h hdone hres
    · exact fun a ha => ThreadPool.unsettled_of_early policy p ha
  · intro num_threads policy p h
    refine ⟨WorkStealingThreadPool.active_lt_of_late hfew policy p h, ?_, ?_⟩
    · exact fun t res hdone hres => WorkStealingThreadPool.settled_of_late policy p h hdone hres
    · exact fun a ha => WorkStealingThreadPool.unsettled_of_early policy p ha

end Main

/-- One worker and one thread that shuts the pool down. -/
def oneShutdown : List (ThreadPool.Action ℕ 1 (Fin 1)) :=
  List.flatten [List.replicate 2 (.worker 0 none), [.call 0 .shutdown],
    List.replicate 7 (.client 0 none), List.replicate 4 (.worker 0 none),
    List.replicate 2 (.client 0 none)]

/-- The same in the work-stealing pool. -/
def oneShutdownStealing : List (WorkStealingThreadPool.Action ℕ 1 (Fin 1)) :=
  List.flatten [WorkStealingThreadPool.Action.workers 0 15, [.call 0 .shutdown],
    WorkStealingThreadPool.Action.clients 0 7, WorkStealingThreadPool.Action.workers 0 17,
    WorkStealingThreadPool.Action.clients 0 2]

theorem shutdown_settles_oneShutdown :
    (∃ p : ThreadPool.State ℕ 1 (Fin 1) × Set (Fin 1),
      p.1.clients 0 = some (.done .stopped) ∧ ThreadPool.Settled p) ∧
    (∃ p : WorkStealingThreadPool.State (.real (Job ℕ) Ring.two)
        (WorkStealingThreadPool.numThreads 1) (Fin 1) × Set (Fin 1),
      p.1.clients 0 = some (.done .stopped) ∧ WorkStealingThreadPool.Settled p) := by
  have hfew : Fintype.card (Fin 1) < 2 ^ 32 := by decide
  constructor
  · have hrun : ((ThreadPool.tracked .block).runWhile (fun p a => ThreadPool.unasked p a = true)
        (ThreadPool.initial ℕ 1 (Fin 1) Ring.two, ∅) oneShutdown).map (fun p => p.1.clients 0) =
          some (some (.done .stopped)) := by decide +kernel
    obtain ⟨p, hp, hdone⟩ := Option.map_eq_some_iff.mp hrun
    refine ⟨p, hdone, ((shutdown_settles Ring.two hfew).1 1 .block p ?_).2.1 0 _ hdone rfl⟩
    exact (System.reach_of_runWhile hp).mono fun _ _ => ThreadPool.late_of_unasked
  · have hrun : ((WorkStealingThreadPool.tracked .block).runWhile
        (fun p a => WorkStealingThreadPool.unasked p a = true)
        (WorkStealingThreadPool.initial (.real (Job ℕ) Ring.two) 1 (Fin 1), ∅)
        oneShutdownStealing).map (fun p => WorkStealingThreadPool.Client.result (p.1.clients 0)) =
          some (some .stopped) := by decide +kernel
    obtain ⟨p, hp, hres⟩ := Option.map_eq_some_iff.mp hrun
    have hdone := WorkStealingThreadPool.Client.result_eq_some hres
    refine ⟨p, hdone, ((shutdown_settles Ring.two hfew).2 1 .block p ?_).2.1 0 _ hdone rfl⟩
    exact (System.reach_of_runWhile hp).mono fun _ _ => WorkStealingThreadPool.late_of_unasked

/-! ## Two calls -/

/-- Thread 0 shuts the pool down; while it wakes everybody up, the `shutdown()` of thread 1 begins
and ends. -/
def secondShutdown : List (ThreadPool.Action ℕ 1 (Fin 2)) :=
  List.flatten [List.replicate 2 (.worker 0 none), [.call 0 .shutdown, .call 1 .shutdown],
    List.replicate 4 (.client 0 none), List.replicate 3 (.client 1 none)]

/-- The same in the work-stealing pool. -/
def secondShutdownStealing : List (WorkStealingThreadPool.Action ℕ 1 (Fin 2)) :=
  List.flatten [WorkStealingThreadPool.Action.workers 0 15, [.call 0 .shutdown, .call 1 .shutdown],
    WorkStealingThreadPool.Action.clients 0 4, WorkStealingThreadPool.Action.clients 1 3]

/-- The second `shutdown()` returns while the worker has not even been woken up, in both pools. -/
theorem exists_unsettled :
    (∃ p : ThreadPool.State ℕ 1 (Fin 2) × Set (Fin 2),
      (ThreadPool.tracked .block).Reachable (ThreadPool.initial ℕ 1 (Fin 2) Ring.two, ∅) p ∧
        p.1.clients 1 = some (.done .alreadyStopped) ∧ ¬ ThreadPool.Settled p) ∧
    (∃ p : WorkStealingThreadPool.State (.real (Job ℕ) Ring.two) 1 (Fin 2) × Set (Fin 2),
      (WorkStealingThreadPool.tracked .block).Reachable
          (WorkStealingThreadPool.initial _ _ (Fin 2), ∅) p ∧
        p.1.clients 1 = some (.done .alreadyStopped) ∧ ¬ WorkStealingThreadPool.Settled p) := by
  constructor
  · have hrun : ((ThreadPool.tracked .block).run (ThreadPool.initial ℕ 1 (Fin 2) Ring.two, ∅)
        secondShutdown).map (fun p => (p.1.clients 1, p.1.workers 0)) =
          some (some (.done .alreadyStopped), .asleep) := by decide +kernel
    obtain ⟨p, hp, hres⟩ := Option.map_eq_some_iff.mp hrun
    obtain ⟨hdone, hworker⟩ := Prod.mk.inj hres
    refine ⟨p, System.reachable_of_run hp, hdone, fun hs => ?_⟩
    rw [hs.exited 0] at hworker
    cases hworker
  · have hrun : ((WorkStealingThreadPool.tracked .block).run
        (WorkStealingThreadPool.initial (.real (Job ℕ) Ring.two) 1 (Fin 2), ∅)
        secondShutdownStealing).map (fun p => (WorkStealingThreadPool.Client.result (p.1.clients 1),
          (p.1.workers 0).sleeping)) = some (some .alreadyStopped, true) := by decide +kernel
    obtain ⟨p, hp, hres⟩ := Option.map_eq_some_iff.mp hrun
    obtain ⟨hdone, hworker⟩ := Prod.mk.inj hres
    refine ⟨p, System.reachable_of_run hp,
      WorkStealingThreadPool.Client.result_eq_some hdone, fun hs => ?_⟩
    rw [hs.exited 0] at hworker
    cases hworker

end LowLatency.Pools
