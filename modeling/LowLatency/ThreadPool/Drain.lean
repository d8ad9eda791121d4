import LowLatency.ThreadPool.Invariant

/-!
# The pool executes every accepted task once

`Accounted` says where the accepted tasks are in every reachable state. When the `shutdown()` that
set `stop` has returned, all workers have left their loops, each of which found the ring empty, and
nothing is accepted any more (`pool_drains`).
-/

namespace LowLatency.ThreadPool

open Concurrency

variable {α Tid : Type*} {n : ℕ}

/-- Every accepted task is in the ring, with one worker, or executed. -/
structure Accounted (c : State α n Tid) : Prop where
  counted : c.shared.mtx = none → c.shared.submitted =
    c.shared.completed + c.shared.tasks.size + tally Worker.uncounted c.workers
  acceptedOnce : c.shared.accepted.Nodup
  /-- Tasks are taken in the order in which they were accepted, each by one worker; the ring holds
  the others. -/
  inOrder : c.shared.taken ++ c.shared.queue = c.shared.accepted
  ring : c.shared.tasks.Holds c.shared.queue
  takenOnce : c.shared.taken.Nodup
  apart : ∀ i j x, i ≠ j → x ∈ (c.workers i).holding → x ∉ (c.workers j).holding
  executedOnce : c.shared.executed.Nodup
  executed : (c.shared.taken : Multiset (Job α)) =
    tally Worker.holding c.workers + c.shared.executed

/-- Nothing is left to do. -/
structure Drained (c : State α n Tid) : Prop where
  empty : c.shared.tasks.empty = true
  completed : c.shared.completed = c.shared.submitted
  executed : c.shared.executed.Perm c.shared.accepted

/-- The `shutdown()` call that set `stop` returns. -/
def ShutDown (c : State α n Tid) : Prop := ∃ t, c.clients t = some (.done .stopped)

/-- All workers have left their loops. -/
structure Exited (c : State α n Tid) : Prop where
  stop : c.shared.stop = true
  exited : ∀ i, c.workers i = .exited

theorem nodup_of_numbered {l : List (Job α)} (h : l.map Job.id = List.range l.length) :
    l.Nodup := by
  refine List.Nodup.of_map Job.id ?_
  rw [h]
  exact List.nodup_range

namespace Inv

variable [Fintype Tid] {s s' : Shared α n Tid} {w : Fin n → Worker α}
  {l : Tid → Option (Client α)} {t : Tid} {y z : Client α}

theorem takenOnce (h : Inv s w l) : s.taken.Nodup :=
  (nodup_of_numbered h.numbered).sublist h.taken.sublist

/-- When no thread holds the mutex, every accepted task is counted. -/
theorem submitted_eq (h : Inv s w l) (hp : ∀ t y, l t = some y → y.pending = 0) :
    s.submitted = s.completed + s.tasks.size + tally Worker.uncounted w := by
  have hzero : hands Client.pending l = 0 := by
    refine hands_eq_zero_of_hand fun t => ?_
    cases hy : l t with
    | none => rfl
    | some y => exact hp t y hy
  have hlen := congrArg List.length (taken_append_queue h.taken)
  rw [List.length_append] at hlen
  have hsub := h.submitted
  have hcomp := h.completed
  have hsize := h.ring.size_eq
  omega

theorem accounted {c : State α n Tid} (h : Inv c.shared c.workers c.clients) : Accounted c := by
  have htaken : (c.shared.taken : Multiset (Job α)).Nodup := h.takenOnce
  rw [h.executed] at htaken
  obtain ⟨hheld, hexec, _⟩ := Multiset.nodup_add.mp htaken
  constructor
  · intro hm
    refine h.submitted_eq fun t y hy => ?_
    cases y with
    | submittedAdd r =>
      rw [h.clientHolds t _ hy rfl] at hm
      cases hm
    | _ => rfl
  · exact nodup_of_numbered h.numbered
  · exact taken_append_queue h.taken
  · exact h.ring
  · exact h.takenOnce
  · exact fun i j x hij => not_mem_of_tally_nodup hheld hij
  · exact hexec
  · exact h.executed

/-! ## After the shutdown -/

/-- Once `stop` is set it stays set, and nothing is accepted. -/
theorem accepted_of_stop (h : Inv s w l) {policy : RejectPolicy} (hy : l t = some y)
    (hs : stepClient policy w t s y = some (s', z)) (hstop : s.stop = true) :
    s'.stop = true ∧ s'.accepted = s.accepted := by
  cases y with
  | push task r =>
    have hfact := (h.clientFact t _ hy).1
    rw [hstop] at hfact
    cases hfact
  | enqueueLock | notFullWoken | tryLock | shutdownLock | idleLock | sizeLock =>
    obtain ⟨s₁, hlock, he⟩ := Option.map_eq_some_iff.mp hs
    cases he
    obtain ⟨_, rfl⟩ := lock_eq_some hlock
    exact ⟨hstop, rfl⟩
  | enqueuePolicy =>
    cases policy <;> simp only [stepClient] at hs <;> split at hs <;> cases hs <;>
      exact ⟨hstop, rfl⟩
  | enqueueStop | tryStop | tryTest | shutdownTest | awaitSubmits =>
    simp only [stepClient] at hs
    split at hs <;> cases hs <;> exact ⟨hstop, rfl⟩
  | join k =>
    simp only [stepClient] at hs
    split at hs
    · split at hs <;> cases hs
      exact ⟨hstop, rfl⟩
    · cases hs
      exact ⟨hstop, rfl⟩
  | shutdownSet =>
    cases hs
    exact ⟨rfl, rfl⟩
  | notFullAsleep | done => cases hs
  | _ =>
    cases hs
    exact ⟨hstop, rfl⟩

theorem exited_of_woken {w' : Fin n → Worker α} (hw : Woken Worker.sleeping Worker.wake w w')
    (hexited : ∀ i, w i = .exited) (i : Fin n) : w' i = .exited := by
  rcases hw i with he | ⟨hs, _⟩
  · rw [he, hexited i]
  · rw [hexited i] at hs
    cases hs

end Inv

variable [Fintype Tid] [DecidableEq Tid]

omit [Fintype Tid] [DecidableEq Tid] in
/-- A worker neither stops the pool nor submits or accepts a task. -/
theorem stepWorker_frame {s s' : Shared α n Tid} {i : Fin n} {x y : Worker α}
    (hs : stepWorker i s x = some (s', y)) : s'.stop = s.stop ∧
      s'.accepted = s.accepted ∧ s'.active = s.active := by
  cases x with
  | lock | woken =>
    obtain ⟨s₁, hlock, he⟩ := Option.map_eq_some_iff.mp hs
    cases he
    obtain ⟨_, rfl⟩ := lock_eq_some hlock
    exact ⟨rfl, rfl, rfl⟩
  | predicate | exitTest | pop =>
    simp only [stepWorker] at hs
    split at hs <;> cases hs <;> exact ⟨rfl, rfl, rfl⟩
  | asleep | exited => cases hs
  | _ =>
    cases hs
    exact ⟨rfl, rfl, rfl⟩

/-- Once `stop` is set it stays set, and nothing is accepted. -/
theorem accepted_next {policy : RejectPolicy} {c c' : State α n Tid} {a : Action α n Tid}
    (hinv : Inv c.shared c.workers c.clients) (hstop : c.shared.stop = true)
    (hn : next policy c a = some c') :
    c'.shared.stop = true ∧ c'.shared.accepted = c.shared.accepted := by
  cases a with
  | call t op =>
    obtain ⟨_, rfl⟩ := next_call hn
    exact ⟨hstop, rfl⟩
  | ret t =>
    obtain ⟨r, _, rfl⟩ := next_ret hn
    exact ⟨hstop, rfl⟩
  | worker i wakes =>
    obtain ⟨s, y, l, hs, _, rfl⟩ := next_worker hn
    obtain ⟨he, hacc, _⟩ := stepWorker_frame hs
    exact ⟨he.trans hstop, hacc⟩
  | client t wakes =>
    obtain ⟨y, s, z, w, hy, hs, _, rfl⟩ := next_client hn
    exact hinv.accepted_of_stop hy hs hstop
  | spuriousWorker i =>
    obtain ⟨_, rfl⟩ := next_spuriousWorker hn
    exact ⟨hstop, rfl⟩
  | spuriousClient t =>
    obtain ⟨_, rfl⟩ := next_spuriousClient hn
    exact ⟨hstop, rfl⟩

theorem Exited.next {policy : RejectPolicy} {c c' : State α n Tid} {a : Action α n Tid}
    (h : Exited c) (hinv : Inv c.shared c.workers c.clients)
    (hn : ThreadPool.next policy c a = some c') :
    Exited c' ∧ c'.shared.accepted = c.shared.accepted := by
  obtain ⟨hstop, hacc⟩ := accepted_next hinv h.stop hn
  refine ⟨⟨hstop, ?_⟩, hacc⟩
  cases a with
  | call t op =>
    obtain ⟨_, rfl⟩ := next_call hn
    exact h.exited
  | ret t =>
    obtain ⟨r, _, rfl⟩ := next_ret hn
    exact h.exited
  | worker i wakes =>
    obtain ⟨s, y, l, hs, _, rfl⟩ := next_worker hn
    rw [h.exited i] at hs
    cases hs
  | client t wakes =>
    obtain ⟨y, s, z, w, _, _, hw, rfl⟩ := next_client hn
    exact Inv.exited_of_woken (woken_wakeWorkers hw) h.exited
  | spuriousWorker i =>
    obtain ⟨hs, rfl⟩ := next_spuriousWorker hn
    rw [h.exited i] at hs
    cases hs
  | spuriousClient t =>
    obtain ⟨_, rfl⟩ := next_spuriousClient hn
    exact h.exited

omit [DecidableEq Tid] in
/-- When all workers have exited, everything accepted is executed. -/
theorem Exited.drained (hn : 0 < n) {c : State α n Tid} (h : Exited c)
    (hinv : Inv c.shared c.workers c.clients) : Drained c := by
  obtain ⟨hstop, hqueue⟩ : c.shared.stop = true ∧ c.shared.queue = [] := by
    have hfact := hinv.workerFact ⟨0, hn⟩
    rw [h.exited] at hfact
    exact hfact
  have hholding : tally Worker.holding c.workers = 0 := tally_eq_zero fun i => by
    rw [h.exited i]; rfl
  have huncounted : tally Worker.uncounted c.workers = 0 := tally_eq_zero fun i => by
    rw [h.exited i]; rfl
  have hempty : c.shared.tasks.empty = true := hinv.ring.empty_iff.mpr hqueue
  refine ⟨hempty, ?_, ?_⟩
  · have hsub := hinv.submitted_eq fun t y hy => by
      have hfact := hinv.clientFact t y hy
      cases y with
      | submittedAdd r =>
        rw [hfact.1] at hstop
        cases hstop
      | _ => rfl
    have hsize := of_decide_eq_true hempty
    omega
  · have happ := taken_append_queue hinv.taken
    rw [hqueue, List.append_nil] at happ
    have hexec := hinv.executed
    rw [hholding, zero_add, Multiset.coe_eq_coe] at hexec
    rw [← happ]
    exact hexec.symm

/-- **The pool executes every accepted task once and drains on shutdown.** -/
theorem pool_drains (hn : 0 < n) (policy : RejectPolicy) (r : Ring) (c : State α n Tid)
    (h : (system policy).Reachable (initial α n Tid r) c) :
    Accounted c ∧ (ShutDown c → ∀ c', (system policy).Reachable c c' →
      c'.shared.accepted = c.shared.accepted ∧ Drained c') := by
  have hinv : Inv c.shared c.workers c.clients :=
    System.Reachable.invariant (I := fun c => Inv c.shared c.workers c.clients) h
      (inv_initial r) fun _ _ _ hi hn => inv_next hi hn
  refine ⟨hinv.accounted, ?_⟩
  rintro ⟨t, ht⟩ c' hc'
  obtain ⟨hstop, hexited⟩ := hinv.clientFact t _ ht rfl
  have hkept : (Inv c'.shared c'.workers c'.clients ∧ Exited c') ∧
      c'.shared.accepted = c.shared.accepted := by
    refine System.Reachable.invariant (I := fun c' => (Inv c'.shared c'.workers c'.clients ∧
      Exited c') ∧ c'.shared.accepted = c.shared.accepted) hc' ⟨⟨hinv, hstop, hexited⟩, rfl⟩ ?_
    rintro s a s' ⟨⟨hi, he⟩, hacc⟩ hn
    obtain ⟨he', hacc'⟩ := he.next hi hn
    exact ⟨⟨inv_next hi hn, he'⟩, hacc'.trans hacc⟩
  exact ⟨hkept.2, hkept.1.2.drained hn hkept.1.1⟩

/-- A worker sleeps when a task is submitted, and executes it while the pool shuts down. -/
def submitAndShutdown : List (Action ℕ 1 (Fin 2)) :=
  List.flatten [List.replicate 2 (.worker 0 none), [.call 0 (.submit 7)],
    List.replicate 7 (.client 0 none), [.client 0 (some 0), .client 0 none, .call 1 .shutdown],
    List.replicate 7 (.client 1 none), List.replicate 14 (.worker 0 none),
    List.replicate 2 (.client 1 none)]

theorem pool_drains_submitAndShutdown : ∃ c : State ℕ 1 (Fin 2),
    c.shared.executed.map Job.task = [7] ∧ ShutDown c ∧ Accounted c ∧ Drained c := by
  have hrun : ((system .block).run (initial ℕ 1 (Fin 2) Ring.two) submitAndShutdown).map
      (fun c => (c.shared.executed.map Job.task, c.clients 1)) =
        some ([7], some (.done .stopped)) := by decide +kernel
  obtain ⟨c, hc, hres⟩ := Option.map_eq_some_iff.mp hrun
  obtain ⟨hexecuted, hdone⟩ := Prod.mk.inj hres
  have hshut : ShutDown c := ⟨1, hdone⟩
  obtain ⟨haccounted, hdrained⟩ :=
    pool_drains Nat.one_pos .block Ring.two c (System.reachable_of_run hc)
  exact ⟨c, hexecuted, hshut, haccounted, (hdrained hshut c System.Reach.refl).2⟩

end LowLatency.ThreadPool
