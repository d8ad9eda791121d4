import LowLatency.WorkStealingThreadPool.Counters
import LowLatency.WorkStealingThreadPool.Positions

/-!
# Waking up the workers

A worker rests once it can only go to sleep: it is asleep, or its wait predicate has found, or is
bound to find, everything empty. A submitter pushes and notifies without the mutex, so its
`notify_one` may come while a worker rests without being asleep yet, and is lost. With two workers
that costs nothing, since a resting worker holds the mutex until it sleeps, and the other one is
either asleep, and woken, or not resting. With one worker the task stays in `incoming_`
(`exists_lost`). `Awake` is what holds as long as no submitter's last notification is lost in this
way.
-/

namespace LowLatency.WorkStealingThreadPool

open Concurrency

universe u

variable {α : Type u} {P : Parts (Job α)} {n : ℕ} {Tid : Type*}

/-- The worker is asleep or can only go to sleep; `head` is `head_` of the queue. -/
def Worker.rests (head : ℕ) : Worker P n → Bool
  | .asleep | .sleep => true
  | .waitScan (.head t) => LockFreeQueue.empty t head
  | _ => false

/-- The thread is between its push and its `notify_one`. -/
def Client.notifying (committed : P.QL → Bool) : Client P n → Bool
  | .push _ _ x => committed x
  | .submittedAdd _ | .lockedSubmittedAdd | .unlockNotify | .loadIdle _ | .notify _ => true
  | _ => false

/-- A task is in the queue only while a worker is up or a submitter is about to notify. -/
def Awake (committed : P.QL → Bool) (s : Shared P n Tid) (w : Fin n → Worker P n)
    (l : Tid → Option (Client P n)) : Prop :=
  s.stop = true ∨ (∃ i, (w i).rests (P.head s.incoming) = false) ∨
    (∃ t x, l t = some x ∧ x.notifying committed = true) ∨ P.tail s.incoming ≤ P.head s.incoming

/-- The `notify_one` of thread `t` is the last there is and meets no sleeper, while every worker is
about to sleep in spite of a task in the queue. -/
structure Deaf (committed : P.QL → Bool) (c : State P n Tid) (t : Tid) : Prop where
  running : c.shared.stop = false
  task : P.head c.shared.incoming < P.tail c.shared.incoming
  resting : ∀ i, (c.workers i).rests (P.head c.shared.incoming) = true
  nobody : ∀ i, (c.workers i).sleeping = false
  last : ∀ u x, u ≠ t → c.clients u = some x → x.notifying committed = false

/-- There are two workers, or the action is no lost notification. -/
def Heard (committed : P.QL → Bool) (c : State P n Tid) : Action α n Tid → Prop
  | .client t _ _ => 2 ≤ n ∨ ∀ r, c.clients t = some (.notify r) → ¬ Deaf committed c t
  | _ => True

/-! ## Steps -/

section Steps

variable {i : Fin n} {t : Tid} {b : Bool} {s s' : Shared P n Tid} {committed : P.QL → Bool}

theorem Worker.idles_of_rests {x : Worker P n} {h : ℕ} (hx : x.rests h = true) : x.idles = 1 := by
  cases x <;> first | rfl | cases hx

/-- A worker that rests without being asleep holds the mutex. -/
theorem Worker.holds_of_rests {x : Worker P n} {h : ℕ} (hx : x.rests h = true)
    (hs : x.sleeping = false) : x.holds = true := by
  cases x <;> first | rfl | (cases hs; done) | cases hx

theorem Worker.rests_afterExecute (after : Option ℕ) (h : ℕ) :
    (Worker.afterExecute after : Worker P n).rests h = false :=
  Worker.afterExecute_induction (p := fun x => x.rests h = false) rfl (fun _ => rfl) after

/-- A worker comes to rest only by finding the queue empty. -/
theorem stepWorker_rests {x y : Worker P n} (hs : stepWorker i b s x = some (s', y))
    (hx : x.rests (P.head s.incoming) = false) :
    y.rests (P.head s'.incoming) = false ∨ P.tail s'.incoming ≤ P.head s'.incoming := by
  cases x with
  | popLocal | fillPush | steal =>
    simp only [stepWorker] at hs
    split at hs
    · cases hs
      exact .inl rfl
    · split at hs <;> cases hs <;> exact .inl rfl
  | fillPop =>
    simp only [stepWorker] at hs
    split at hs
    · cases hs
      exact .inl rfl
    · split at hs
      · cases hs
        exact .inl rfl
      · split at hs <;> cases hs <;> exact .inl rfl
  | fillLoadWaiting k =>
    simp only [stepWorker] at hs
    split at hs <;> cases hs
    · exact .inl rfl
    · exact .inl (Worker.rests_afterExecute (some k) _)
  | fillNotify k =>
    cases hs
    exact .inl (Worker.rests_afterExecute (some k) _)
  | stealNext =>
    simp only [stepWorker] at hs
    split at hs
    · split at hs <;> cases hs <;> exact .inl rfl
    · cases hs
      exact .inl rfl
  | loadWaiting after =>
    simp only [stepWorker] at hs
    split at hs <;> cases hs
    · exact .inl rfl
    · exact .inl (Worker.rests_afterExecute after _)
  | notifyNotFull after =>
    cases hs
    exact .inl (Worker.rests_afterExecute after _)
  | lock | woken =>
    obtain ⟨_, rfl, rfl⟩ := map_lock_eq_some hs
    exact .inl rfl
  | exitStop | exitScan | waitStop =>
    simp only [stepWorker] at hs
    split at hs <;> cases hs <;> exact .inl rfl
  | waitScan e =>
    simp only [stepWorker] at hs
    split at hs <;> cases hs
    next e' he =>
      rcases scan_eq_inl he with ⟨d, _, rfl⟩ | ⟨d, t, _, rfl, _⟩ | ⟨d, _, _, rfl⟩
      · exact .inl rfl
      · exact .inl rfl
      · -- the load of `tail_`
        by_cases hle : P.tail s.incoming ≤ P.head s.incoming
        · exact .inr hle
        · left
          simp only [Worker.rests, LockFreeQueue.empty, decide_eq_false_iff_not]
          omega
    next he =>
      obtain ⟨t, rfl, hempty⟩ := scan_eq_true he
      rw [Worker.rests, hempty] at hx
      cases hx
    next he => exact .inl rfl
  | asleep | sleep => cases hx
  | exited => cases hs
  | _ =>
    cases hs
    exact .inl rfl

/-- A submitter stays between its push and its notification until it notifies, or finds that no
worker is idle. -/
theorem notifying_step [DecidableEq Tid] {QInv : P.QS → (Fin n ⊕ Tid → Option P.QL) → Prop}
    (HP : Positions P n Tid QInv committed) {policy : WorkStealingRejectPolicy}
    {w : Fin n → Worker P n} {l : Tid → Option (Client P n)} {x y : Client P n}
    (hq : QInv s.incoming (onQueue w l)) (hx : l t = some x)
    (hs : stepClient policy w t b s x = some (s', y)) (hn : x.notifying committed = true) :
    y.notifying committed = true ∨ (∃ r, x = .loadIdle r ∧ s.workersIdle = 0) ∨
      ∃ r, x = .notify r := by
  cases x with
  | push path j a =>
    left
    rcases HP.committed_step hq hx hs hn with hc | rfl
    · cases y with
      | push => exact hc
      | _ => cases hc
    · cases path <;> rfl
  | submittedAdd | lockedSubmittedAdd | unlockNotify =>
    cases hs
    exact .inl rfl
  | loadIdle r =>
    simp only [stepClient] at hs
    split at hs <;> cases hs
    · exact .inl rfl
    next hidle => exact .inr (.inl ⟨r, rfl, by omega⟩)
  | notify r => exact .inr (.inr ⟨r, rfl⟩)
  | _ => cases hn

end Steps

/-! ## Every heard action keeps the pool awake -/

section Awake

variable [Fintype Tid] [DecidableEq Tid] {committed : P.QL → Bool}
  {QInv : P.QS → (Fin n ⊕ Tid → Option P.QL) → Prop} {s s' : Shared P n Tid}
  {w w' : Fin n → Worker P n} {l l' : Tid → Option (Client P n)} {i : Fin n} {t : Tid} {b : Bool}

omit [Fintype Tid] [DecidableEq Tid] in
theorem Awake.wake (h : Awake committed s w l) (hw : Woken Worker.sleeping Worker.wake w w')
    (hl : Woken Client.sleeping Client.wake l l') : Awake committed s w' l' := by
  rcases h with hstop | ⟨i, hi⟩ | ⟨t, x, hx, hn⟩ | hle
  · exact .inl hstop
  · refine .inr (.inl ⟨i, ?_⟩)
    rcases hw i with he | ⟨_, he⟩
    · rw [he, hi]
    · rw [he]
      rfl
  · refine .inr (.inr (.inl ⟨t, x, ?_, hn⟩))
    rcases hl t with he | ⟨hs, _⟩
    · rw [he, hx]
    · rw [hx] at hs
      cases x <;> first | (cases hs; done) | cases hn
  · exact .inr (.inr (.inr hle))

omit [Fintype Tid] in
theorem Awake.setClient (h : Awake committed s w l) {o : Option (Client P n)}
    (hold : ∀ x, l t = some x → x.notifying committed = false) (hin : s'.incoming = s.incoming)
    (hstop : s'.stop = s.stop) : Awake committed s' w (Function.update l t o) := by
  unfold Awake
  rw [hin, hstop]
  rcases h with hs | hi | ⟨u, x, hx, hn⟩ | hle
  · exact .inl hs
  · exact .inr (.inl hi)
  · refine .inr (.inr (.inl ⟨u, x, ?_, hn⟩))
    by_cases hu : u = t
    · subst hu
      rw [hold x hx] at hn
      cases hn
    · rw [Function.update_of_ne hu, hx]
  · exact .inr (.inr (.inr hle))

omit [Fintype Tid] in
theorem Awake.worker {y : Worker P n} (HP : Positions P n Tid QInv committed)
    (hq : QInv s.incoming (onQueue w l)) (h : Awake committed s w l)
    (hs : stepWorker i b s (w i) = some (s', y)) :
    Awake committed s' (Function.update w i y) l := by
  obtain ⟨htail, hhead⟩ := HP.worker hq (stepWorker_cases hs)
  unfold Awake
  rw [stepWorker_stop hs, htail]
  rcases h with hstop | ⟨u, hu⟩ | hnotify | hle
  · exact .inl hstop
  · by_cases hui : u = i
    · subst hui
      rcases stepWorker_rests hs hu with hy | hle
      · exact .inr (.inl ⟨u, by rw [Function.update_self, hy]⟩)
      · exact .inr (.inr (.inr (htail ▸ hle)))
    · rcases hhead with hsame | ⟨_, k, any, a, rfl⟩
      · exact .inr (.inl ⟨u, by rw [Function.update_of_ne hui, hsame, hu]⟩)
      · exact .inr (.inl ⟨i, by rw [Function.update_self]; rfl⟩)
  · exact .inr (.inr (.inl hnotify))
  · refine .inr (.inr (.inr ?_))
    rcases hhead with hsame | ⟨hmono, _⟩ <;> omega

omit [DecidableEq Tid] in
/-- With two workers, one of the resting workers is asleep. -/
theorem exists_sleeping (hcount : Counted s w l) (hn : 2 ≤ n) {h : ℕ}
    (hrest : ∀ i, (w i).rests h = true) : ∃ i, (w i).sleeping = true := by
  by_contra hno
  have hholds : ∀ i, s.mtx = some (.inl i) := fun i =>
    hcount.workerHolds i (Worker.holds_of_rests (hrest i) (by
      cases hs : (w i).sleeping with
      | false => rfl
      | true => exact absurd ⟨i, hs⟩ hno))
  have hsame : some (Sum.inl (⟨0, by omega⟩ : Fin n)) = some (Sum.inl (⟨1, by omega⟩ : Fin n)) :=
    (hholds ⟨0, by omega⟩).symm.trans (hholds ⟨1, by omega⟩)
  exact Nat.zero_ne_one (congrArg Fin.val (Sum.inl.inj (Option.some.inj hsame)))

theorem Awake.client {policy : WorkStealingRejectPolicy} {x y : Client P n} (hpos : 0 < n)
    (HP : Positions P n Tid QInv committed) (hq : QInv s.incoming (onQueue w l))
    (hcount : Counted s w l) (h : Awake committed s w l) (hx : l t = some x)
    (hs : stepClient policy w t b s x = some (s', y)) (hnot : ∀ r, x ≠ .notify r) :
    Awake committed s' w (Function.update l t (some y)) := by
  obtain ⟨hhead, htail⟩ := HP.client hq hx (stepClient_cases hs)
  unfold Awake
  rw [hhead]
  rcases h with hstop | ⟨i, hi⟩ | ⟨u, z, hz, hn⟩ | hle
  · left
    rcases stepClient_stop hs with he | ⟨he, _⟩
    · rw [he, hstop]
    · exact he
  · exact .inr (.inl ⟨i, hi⟩)
  · by_cases hut : u = t
    · subst hut
      rw [hx] at hz
      obtain rfl := Option.some.inj hz
      rcases notifying_step HP hq hx hs hn with hy | ⟨r, rfl, hidle⟩ | ⟨r, rfl⟩
      · exact .inr (.inr (.inl ⟨u, y, Function.update_self .., hy⟩))
      · -- `workers_idle_` was 0: nobody rests
        refine .inr (.inl ⟨⟨0, hpos⟩, ?_⟩)
        cases hr : (w ⟨0, hpos⟩).rests (P.head s.incoming) with
        | false => rfl
        | true =>
          have hle := le_tally Worker.idles w ⟨0, hpos⟩
          rw [Worker.idles_of_rests hr, ← hcount.idle, hidle] at hle
          exact absurd hle (by decide)
      · exact absurd rfl (hnot r)
    · exact .inr (.inr (.inl ⟨u, z, by rw [Function.update_of_ne hut, hz], hn⟩))
  · rcases htail with he | ⟨_, _, hy⟩
    · exact .inr (.inr (.inr (by omega)))
    · refine .inr (.inr (.inl ⟨t, y, Function.update_self .., ?_⟩))
      cases y with
      | push => exact hy
      | _ => cases hy

/-- The notification of a submitter, when it is not a lost one. -/
theorem Awake.notify {r : Result} {wakes : Option (Fin n)} (hcount : Counted s w l)
    (hok : 2 ≤ n ∨ ¬ Deaf committed ⟨s, w, l⟩ t)
    (hw : notifyOne Worker.sleeping Worker.wake w wakes = some w') :
    Awake committed s w' (Function.update l t (some (.leave r))) := by
  by_cases hstop : s.stop = true
  · exact .inl hstop
  by_cases hle : P.tail s.incoming ≤ P.head s.incoming
  · exact .inr (.inr (.inr hle))
  by_cases hother : ∃ u x, u ≠ t ∧ l u = some x ∧ x.notifying committed = true
  · obtain ⟨u, x, hu, hx', hn⟩ := hother
    exact .inr (.inr (.inl ⟨u, x, by rw [Function.update_of_ne hu, hx'], hn⟩))
  cases wakes with
  | some i =>
    simp only [notifyOne] at hw
    split at hw
    · cases hw
      exact .inr (.inl ⟨i, by rw [Function.update_self]; rfl⟩)
    · cases hw
  | none =>
    simp only [notifyOne] at hw
    split at hw
    next hnobody =>
      cases hw
      by_cases hrest : ∀ i, (w i).rests (P.head s.incoming) = true
      · exfalso
        rcases hok with hn | hdeaf
        · obtain ⟨i, hi⟩ := exists_sleeping hcount hn hrest
          rw [hnobody i] at hi
          cases hi
        · refine hdeaf ⟨Bool.eq_false_of_not_eq_true hstop, Nat.lt_of_not_le hle, hrest, hnobody, ?_⟩
          intro u x hu hx'
          cases hn : x.notifying committed with
          | false => rfl
          | true => exact absurd ⟨u, x, hu, hx', hn⟩ hother
      · obtain ⟨i, hi⟩ := not_forall.mp hrest
        exact .inr (.inl ⟨i, Bool.eq_false_of_not_eq_true hi⟩)
    · cases hw

theorem Awake.next {policy : WorkStealingRejectPolicy} {c c' : State P n Tid} (hpos : 0 < n)
    (HP : Positions P n Tid QInv committed) {a : Action α n Tid}
    (hq : QInv c.shared.incoming (onQueue c.workers c.clients))
    (hcount : Counted c.shared c.workers c.clients)
    (h : Awake committed c.shared c.workers c.clients) (hok : Heard committed c a)
    (hn : next policy c a = some c') : Awake committed c'.shared c'.workers c'.clients := by
  cases a with
  | call t op =>
    obtain ⟨hnone, rfl⟩ := next_call hn
    exact h.setClient (fun x hx => by rw [hnone] at hx; cases hx) rfl rfl
  | ret t =>
    obtain ⟨r, hdone, rfl⟩ := next_ret hn
    refine h.setClient (fun x hx => ?_) rfl rfl
    rw [hdone] at hx
    cases hx
    rfl
  | worker i b wakes =>
    obtain ⟨s, y, l, hs, hl, rfl⟩ := next_worker hn
    exact (h.worker HP hq hs).wake Woken.refl (woken_wakeProducers hl)
  | client t b wakes =>
    obtain ⟨x, s, y, w, hx, hs, hw, rfl⟩ := next_client hn
    by_cases hnotify : ∃ r, x = .notify r
    · obtain ⟨r, rfl⟩ := hnotify
      cases hs
      exact .notify hcount (hok.imp_right fun hr => hr r hx) hw
    · exact (h.client hpos HP hq hcount hx hs fun r hr => hnotify ⟨r, hr⟩).wake
        (woken_wakeWorkers hw) (woken_wakeAllProducers x _).update
  | spuriousWorker i =>
    obtain ⟨hs, rfl⟩ := next_spuriousWorker hn
    exact h.wake (woken_update hs) Woken.refl
  | spuriousClient t =>
    obtain ⟨hs, rfl⟩ := next_spuriousClient hn
    exact h.wake Woken.refl (woken_update hs)

end Awake

/-! ## No task is left to sleeping workers -/

/-- `incoming_` of a pool with the containers of the source. -/
def State.queue [Inhabited α] {r : Ring} (c : State (Parts.real (Job α) r) n Tid) :
    LockFreeQueue.Shared (Job α) := c.shared.incoming

/-- `incoming_` holds a published task, every worker is asleep on `cv_`, and no submitter is between
its push and its notification. -/
structure Lost [Inhabited α] {r : Ring} (c : State (Parts.real (Job α) r) n Tid) : Prop where
  running : c.shared.stop = false
  published : ∃ pos, c.queue.head ≤ pos ∧ pos < c.queue.tail ∧
    c.queue.sequence (r.slot pos) = pos + 1
  asleep : ∀ i, (c.workers i).sleeping = true
  quiet : ∀ t x, c.clients t = some x → x.notifying LockFreeQueue.Local.committed = false

theorem Awake.not_lost [Inhabited α] {r : Ring} {c : State (Parts.real (Job α) r) n Tid}
    (h : Awake LockFreeQueue.Local.committed c.shared c.workers c.clients) : ¬ Lost c := by
  rintro ⟨hrun, ⟨pos, hhead, htail, _⟩, hasleep, hquiet⟩
  rcases h with hstop | ⟨i, hi⟩ | ⟨t, x, hx, hn⟩ | hle
  · rw [hrun] at hstop
    cases hstop
  · have hs := hasleep i
    cases hw : c.workers i with
    | asleep =>
      rw [hw] at hi
      cases hi
    | _ =>
      rw [hw] at hs
      cases hs
  · rw [hquiet t x hx] at hn
    cases hn
  · have hle' : c.queue.tail ≤ c.queue.head := hle
    omega

/-- The worker's predicate finds everything empty; a task is pushed and its notification meets no
sleeper; then the worker goes to sleep. -/
def sleepOverTask : List (Action ℕ 1 (Fin 1)) :=
  List.flatten [Action.workers 0 14, [.call 0 (.submit 7)], Action.clients 0 12, Action.workers 0 1]

/-- The only worker of a pool sleeps while a task waits for it. -/
theorem exists_lost : ∃ c : State (Parts.real (Job ℕ) Ring.two) (numThreads 1) (Fin 1),
    (system .block).Reachable (initial _ _ _) c ∧ Lost c := by
  have hrun : ((system .block).run (initial (Parts.real (Job ℕ) Ring.two) 1 (Fin 1))
      sleepOverTask).map (fun c => (c.shared.stop, (c.queue.head, c.queue.tail, c.queue.sequence 0),
        (c.workers 0).sleeping, (c.clients 0).map (Client.notifying LockFreeQueue.Local.committed))) =
      some (false, (0, 1, 1), true, some false) := by decide +kernel
  obtain ⟨c, hc, hres⟩ := Option.map_eq_some_iff.mp hrun
  obtain ⟨hstop, hres⟩ := Prod.mk.inj hres
  obtain ⟨hqueue, hres⟩ := Prod.mk.inj hres
  obtain ⟨hasleep, hquiet⟩ := Prod.mk.inj hres
  obtain ⟨hhead, hres⟩ := Prod.mk.inj hqueue
  obtain ⟨htail, hsequence⟩ := Prod.mk.inj hres
  have hasleep' : ∀ i : Fin 1, (c.workers i).sleeping = true := fun i => by
    rwa [Subsingleton.elim i 0]
  refine ⟨c, System.reachable_of_run hc, hstop, ⟨0, hhead.le, ?_, hsequence⟩, hasleep', ?_⟩
  · exact htail.symm ▸ Nat.zero_lt_one
  · intro t x hx
    rw [Subsingleton.elim t 0] at hx
    rw [hx] at hquiet
    exact Option.some.inj hquiet

theorem awake_initial (P : Parts (Job α)) (hpos : 0 < n) (committed : P.QL → Bool) :
    Awake committed (initial P n Tid).shared (initial P n Tid).workers (initial P n Tid).clients :=
  .inr (.inl ⟨⟨0, hpos⟩, rfl⟩)

/-- **No wake-up is lost while the notifications are heard**, in particular with two workers, as long as
the positions fit. -/
theorem not_lost_of_heard [Inhabited α] [Fintype Tid] [DecidableEq Tid] (num_threads : ℕ) (r : Ring)
    (policy : WorkStealingRejectPolicy)
    (c : State (Parts.real (Job α) r) (numThreads num_threads) Tid)
    (h : (system policy).ReachWithin (fun c => c.shared.Fits) (Heard LockFreeQueue.Local.committed)
      (initial _ _ Tid) c) : ¬ Lost c := by
  have HP : Positions (Parts.real (Job α) r) (numThreads num_threads) Tid Kinds
      LockFreeQueue.Local.committed := positions_real r
  refine Awake.not_lost (System.Reach.invariant
    (I := fun c => (Kinds c.queue (onQueue c.workers c.clients) ∧
      Counted c.shared c.workers c.clients) ∧
        Awake LockFreeQueue.Local.committed c.shared c.workers c.clients) h.reach
    ⟨⟨fun u x hu => ?_, counted_initial⟩, awake_initial _ (numThreads_pos _) _⟩ ?_).2
  · rcases u with i | t <;> cases hu
  · rintro c a c' ⟨⟨hkind, hcount⟩, hawake⟩ hok hn
    exact ⟨⟨queue_next HP.kept hkind hn, hcount.next hn⟩,
      hawake.next (numThreads_pos _) HP hkind hcount hok hn⟩

/-- Both workers are asleep when a task is submitted, and its notification wakes one of them. -/
def wakeForTask : List (Action ℕ 2 (Fin 1)) :=
  List.flatten [Action.workers 0 21, Action.workers 1 21, [.call 0 (.submit 7)],
    Action.clients 0 10, [.client 0 false (some 0)]]

theorem not_lost_of_heard_twoWorkers :
    ∃ c : State (Parts.real (Job ℕ) Ring.two) (numThreads 2) (Fin 1),
      (c.queue.head, c.queue.tail) = (0, 1) ∧ (∃ i, (c.workers i).sleeping = true) ∧ ¬ Lost c := by
  have hrun : ((system .block).runWhile (fun c _ => c.shared.Fits)
      (initial (Parts.real (Job ℕ) Ring.two) 2 (Fin 1)) wakeForTask).map (fun c =>
        ((c.queue.head, c.queue.tail), (c.workers 1).sleeping, decide c.shared.Fits)) =
      some ((0, 1), true, true) := by decide +kernel
  obtain ⟨c, hc, hres⟩ := Option.map_eq_some_iff.mp hrun
  obtain ⟨hqueue, hres⟩ := Prod.mk.inj hres
  obtain ⟨hasleep, hfits⟩ := Prod.mk.inj hres
  refine ⟨c, hqueue, ⟨⟨1, by decide⟩, hasleep⟩, not_lost_of_heard 2 Ring.two .block c
    ⟨?_, of_decide_eq_true hfits⟩⟩
  refine (System.reach_of_runWhile hc).mono fun c a hfits => ⟨hfits, ?_⟩
  cases a with
  | client => exact .inl (by decide)
  | _ => trivial

end LowLatency.WorkStealingThreadPool
