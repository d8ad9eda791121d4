import LowLatency.WorkStealingThreadPool.Access

/-!
# Who holds the mutex, and what the counters count

`Counted` is kept by every action (`Counted.next`): the mutex belongs to the one thread that is
between its lock and its unlock, and `workers_idle_`, `busy_workers_`, `waiting_producers_` and
`active_submits_` are the numbers of threads between the two updates of the counter.
-/

namespace LowLatency.WorkStealingThreadPool

open Concurrency

universe u

variable {α : Type u} {P : Parts (Job α)} {n : ℕ} {Tid : Type*}

namespace Worker

/-- The worker holds `mtx_`. -/
def holds : Worker P n → Bool
  | .exitStop | .exitScan _ | .unlockReturn | .idleAdd | .waitStop | .waitScan _ | .sleep | .idleSub
  | .unlockContinue => true
  | _ => false

/-- Counted in `workers_idle_`. -/
def idles : Worker P n → ℕ
  | .waitStop | .waitScan _ | .sleep | .asleep | .woken | .idleSub => 1
  | _ => 0

/-- Counted in `busy_workers_`. -/
def busies : Worker P n → ℕ
  | .execute _ _ | .busySub _ => 1
  | _ => 0

/-- The worker has run a task and not yet counted it in `completed_tasks_`. -/
def ran : Worker P n → ℕ
  | .busySub _ | .completedAdd _ => 1
  | _ => 0

/-- Both points are between the same updates of the counters. -/
structure Alike (x y : Worker P n) : Prop where
  idles : y.idles = x.idles
  busies : y.busies = x.busies
  ran : y.ran = x.ran

end Worker

/-- What a worker's step does outside of the containers. -/
inductive WorkerEffect (i : Fin n) (s : Shared P n Tid) :
    Worker P n → Shared P n Tid → Worker P n → Prop
  | plain {x y : Worker P n} {s' : Shared P n Tid}
    (hs : s' = { s with incoming := s'.incoming, deques := s'.deques }) (hholds : y.holds = x.holds)
    (h : x.Alike y) : WorkerEffect i s x s' y
  | lock {x y : Worker P n} (hm : s.mtx = none) (h : x.Alike y) :
    WorkerEffect i s x { s with mtx := some (.inl i) } y
  | unlock {x y : Worker P n} (hx : x.holds = true) (hy : y.holds = false) (h : x.Alike y) :
    WorkerEffect i s x s.unlock y
  | idleAdd : WorkerEffect i s .idleAdd { s with workersIdle := s.workersIdle + 1 } .waitStop
  | idleSub : WorkerEffect i s .idleSub { s with workersIdle := s.workersIdle - 1 } .unlockContinue
  | busyAdd {j : Job α} {after : Option ℕ} :
    WorkerEffect i s (.busyAdd j after) { s with busy := s.busy + 1 } (.execute j after)
  | execute {j : Job α} {after : Option ℕ} :
    WorkerEffect i s (.execute j after) { s with executed := s.executed ++ [j] } (.busySub after)
  | busySub {after : Option ℕ} :
    WorkerEffect i s (.busySub after) { s with busy := s.busy - 1 } (.completedAdd after)
  | completedAdd {after : Option ℕ} :
    WorkerEffect i s (.completedAdd after) { s with completed := s.completed + 1 } (.loadWaiting after)

namespace Client

/-- The thread holds `mtx_`. -/
def holds : Client P n → Bool
  | .push .locked _ _ | .lockedStop _ | .waitingAdd _ | .fullStop _ | .fullTail _ | .fullHead _ _
  | .fullSleep _ | .waitingSub _ | .waitedStop _ | .lockedSubmittedAdd | .unlockNotify
  | .unlockLeave _ | .shutdownTest | .shutdownSet | .shutdownUnlock | .idleBusy | .idleScan _
  | .sizeTop _ _ | .sizeBottom _ _ _ | .unlockDone _ => true
  | _ => false

/-- Counted in `waiting_producers_`. -/
def waits : Client P n → ℕ
  | .fullStop _ | .fullTail _ | .fullHead _ _ | .fullSleep _ | .fullAsleep _ | .fullWoken _
  | .waitingSub _ => 1
  | _ => 0

/-- Counted in `active_submits_`. -/
def inside : Client P n → ℕ
  | .submitEnter _ | .tryEnter _ | .shutdownLock | .shutdownTest | .shutdownSet | .shutdownUnlock
  | .notifyAll | .notifyAllNotFull | .awaitSubmits | .join _ | .idleLock | .idleBusy | .idleScan _
  | .sizeLock | .sizeTop _ _ | .sizeBottom _ _ _ | .unlockDone _ | .done _ => 0
  | _ => 1

theorem hand_inside_le (o : Option (Client P n)) : Concurrency.hand inside o ≤ 1 := by
  cases o with
  | none => exact Nat.zero_le 1
  | some x => cases x <;> first | exact le_rfl | exact Nat.zero_le 1

end Client

/-- A thread keeps, takes or gives back the mutex. -/
inductive MutexStep (me : Fin n ⊕ Tid) (m m' : Option (Fin n ⊕ Tid)) (held held' : Bool) : Prop
  | keep (hm : m' = m) (hh : held' = held)
  | take (hm : m = none) (hm' : m' = some me)
  | give (hh : held = true) (hm' : m' = none) (hh' : held' = false)

section Mutex

variable {me you : Fin n ⊕ Tid} {m m' : Option (Fin n ⊕ Tid)} {held held' : Bool}

theorem MutexStep.own (h : MutexStep me m m' held held') (hme : held = true → m = some me)
    (hh : held' = true) : m' = some me := by
  cases h with
  | keep hm he => exact hm ▸ hme (he ▸ hh)
  | take _ hm' => exact hm'
  | give _ _ hh' =>
    rw [hh'] at hh
    cases hh

theorem MutexStep.other (h : MutexStep me m m' held held') (hme : held = true → m = some me)
    (hyou : you ≠ me) (hm : m = some you) : m' = some you := by
  cases h with
  | keep he _ => exact he ▸ hm
  | take hnone _ =>
    rw [hnone] at hm
    cases hm
  | give hh _ _ =>
    rw [hme hh] at hm
    exact absurd (Option.some.inj hm).symm hyou

end Mutex

/-- What a worker's step does to the mutex and the counters. -/
structure WorkerCount (i : Fin n) (s s' : Shared P n Tid) (x y : Worker P n) : Prop where
  mutex : MutexStep (.inl i) s.mtx s'.mtx x.holds y.holds
  idle : x.idles ≤ s.workersIdle → s'.workersIdle + x.idles = s.workersIdle + y.idles
  busy : x.busies ≤ s.busy → s'.busy + x.busies = s.busy + y.busies
  waiting : s'.waitingProducers = s.waitingProducers
  active : s'.active = s.active

/-- The same for the other threads. -/
structure ClientCount (t : Tid) (s s' : Shared P n Tid) (x y : Client P n) : Prop where
  mutex : MutexStep (.inr t) s.mtx s'.mtx x.holds y.holds
  idle : s'.workersIdle = s.workersIdle
  busy : s'.busy = s.busy
  waiting : x.waits ≤ s.waitingProducers →
    s'.waitingProducers + x.waits = s.waitingProducers + y.waits
  active : x.inside ≤ s.active → s'.active + x.inside = s.active + y.inside

section Steps

variable {i : Fin n} {t : Tid} {choice : Bool} {s s' : Shared P n Tid}

/-- A worker that returns from `executeTask` holds nothing and is counted nowhere. -/
theorem Worker.afterExecute_alike (after : Option ℕ) {x : Worker P n} (hx : x.holds = false)
    (h : x.Alike (Worker.loop : Worker P n)) :
    (Worker.afterExecute after : Worker P n).holds = x.holds ∧ x.Alike (Worker.afterExecute after) :=
  Worker.afterExecute_induction (p := fun y => y.holds = x.holds ∧ x.Alike y) ⟨hx.symm, h⟩
    (fun _ => ⟨hx.symm, h.idles, h.busies, h.ran⟩) after

theorem stepWorker_effect {x y : Worker P n} (h : stepWorker i choice s x = some (s', y)) :
    WorkerEffect i s x s' y := by
  have hafter : ∀ {x : Worker P n} (after : Option ℕ), x.holds = false →
      x.Alike (Worker.loop : Worker P n) → WorkerEffect i s x s (Worker.afterExecute after) :=
    fun after hx halike =>
      have ⟨hholds, hboth⟩ := Worker.afterExecute_alike after hx halike
      .plain rfl hholds hboth
  cases x with
  | popLocal | fillPush | steal =>
    simp only [stepWorker] at h
    split at h
    · cases h
      exact .plain rfl rfl ⟨rfl, rfl, rfl⟩
    · split at h <;> cases h <;> exact .plain rfl rfl ⟨rfl, rfl, rfl⟩
  | fillPop =>
    simp only [stepWorker] at h
    split at h
    · cases h
      exact .plain rfl rfl ⟨rfl, rfl, rfl⟩
    · split at h
      · cases h
        exact .plain rfl rfl ⟨rfl, rfl, rfl⟩
      · split at h <;> cases h <;> exact .plain rfl rfl ⟨rfl, rfl, rfl⟩
  | stealNext =>
    simp only [stepWorker] at h
    split at h
    · split at h <;> cases h <;> exact .plain rfl rfl ⟨rfl, rfl, rfl⟩
    · cases h
      exact .plain rfl rfl ⟨rfl, rfl, rfl⟩
  | fillLoadWaiting k =>
    simp only [stepWorker] at h
    split at h <;> cases h
    · exact .plain rfl rfl ⟨rfl, rfl, rfl⟩
    · exact hafter (some k) rfl ⟨rfl, rfl, rfl⟩
  | loadWaiting after =>
    simp only [stepWorker] at h
    split at h <;> cases h
    · exact .plain rfl rfl ⟨rfl, rfl, rfl⟩
    · exact hafter after rfl ⟨rfl, rfl, rfl⟩
  | fillNotify k =>
    cases h
    exact hafter (some k) rfl ⟨rfl, rfl, rfl⟩
  | notifyNotFull after =>
    cases h
    exact hafter after rfl ⟨rfl, rfl, rfl⟩
  | lock | woken =>
    obtain ⟨hm, rfl, rfl⟩ := map_lock_eq_some h
    exact .lock hm ⟨rfl, rfl, rfl⟩
  | exitStop | exitScan | waitStop | waitScan =>
    simp only [stepWorker] at h
    split at h <;> cases h <;> exact .plain rfl rfl ⟨rfl, rfl, rfl⟩
  | unlockReturn | sleep | unlockContinue =>
    cases h
    exact .unlock rfl rfl ⟨rfl, rfl, rfl⟩
  | idleAdd =>
    cases h
    exact .idleAdd
  | idleSub =>
    cases h
    exact .idleSub
  | busyAdd =>
    cases h
    exact .busyAdd
  | execute =>
    cases h
    exact .execute
  | busySub =>
    cases h
    exact .busySub
  | completedAdd =>
    cases h
    exact .completedAdd
  | asleep | exited => cases h

theorem stepWorker_count {x y : Worker P n} (h : stepWorker i choice s x = some (s', y)) :
    WorkerCount i s s' x y := by
  cases stepWorker_effect h with
  | plain hs hholds halike =>
    rw [hs]
    exact ⟨.keep rfl hholds, fun _ => by rw [halike.idles], fun _ => by rw [halike.busies], rfl, rfl⟩
  | lock hm halike =>
    exact ⟨.take hm rfl, fun _ => by rw [halike.idles], fun _ => by rw [halike.busies], rfl, rfl⟩
  | unlock hx hy halike =>
    exact ⟨.give hx rfl hy, fun _ => by rw [halike.idles]; rfl, fun _ => by rw [halike.busies]; rfl,
      rfl, rfl⟩
  | idleSub =>
    exact ⟨.keep rfl rfl, fun hle => Nat.sub_add_cancel hle, fun _ => rfl, rfl, rfl⟩
  | busySub =>
    exact ⟨.keep rfl rfl, fun _ => rfl, fun hle => Nat.sub_add_cancel hle, rfl, rfl⟩
  | _ => exact ⟨.keep rfl rfl, fun _ => rfl, fun _ => rfl, rfl, rfl⟩

theorem stepClient_count {policy : WorkStealingRejectPolicy} {w : Fin n → Worker P n}
    {x y : Client P n} (h : stepClient policy w t choice s x = some (s', y)) :
    ClientCount t s s' x y := by
  have hquiet : ∀ {x y : Client P n} {s' : Shared P n Tid}, s'.mtx = s.mtx → y.holds = x.holds →
      s'.workersIdle = s.workersIdle → s'.busy = s.busy →
      s'.waitingProducers = s.waitingProducers → y.waits = x.waits → s'.active = s.active →
      y.inside = x.inside → ClientCount t s s' x y :=
    fun hm hh hi hb hw hw' ha ha' => ⟨.keep hm hh, hi, hb, fun _ => by rw [hw, hw'],
      fun _ => by rw [ha, ha']⟩
  cases x with
  | push path j a =>
    simp only [stepClient] at h
    split at h
    · cases h
      cases path <;> exact hquiet rfl rfl rfl rfl rfl rfl rfl rfl
    · split at h <;> cases path <;> cases h <;> exact hquiet rfl rfl rfl rfl rfl rfl rfl rfl
  | submitEnter | tryEnter =>
    cases h
    exact ⟨.keep rfl rfl, rfl, rfl, fun _ => rfl, fun _ => rfl⟩
  | leave =>
    cases h
    exact ⟨.keep rfl rfl, rfl, rfl, fun _ => rfl, fun hle => Nat.sub_add_cancel hle⟩
  | waitingAdd =>
    cases h
    exact ⟨.keep rfl rfl, rfl, rfl, fun _ => rfl, fun _ => rfl⟩
  | waitingSub =>
    cases h
    exact ⟨.keep rfl rfl, rfl, rfl, fun hle => Nat.sub_add_cancel hle, fun _ => rfl⟩
  | enqueueLock | fullWoken | shutdownLock | idleLock | sizeLock =>
    obtain ⟨hm, rfl, rfl⟩ := map_lock_eq_some h
    exact ⟨.take hm rfl, rfl, rfl, fun _ => rfl, fun _ => rfl⟩
  | fullSleep | unlockNotify | unlockLeave | shutdownUnlock | unlockDone =>
    cases h
    exact ⟨.give rfl rfl rfl, rfl, rfl, fun _ => rfl, fun _ => rfl⟩
  | enqueueStop | tryEnqueueStop | waitedStop | trySubmitStop | fullStop | fullHead | loadIdle
  | shutdownTest | awaitSubmits | idleBusy | idleScan | sizeTop =>
    simp only [stepClient] at h
    split at h <;> cases h <;> exact hquiet rfl rfl rfl rfl rfl rfl rfl rfl
  | lockedStop =>
    simp only [stepClient] at h
    split at h
    · cases h
      exact hquiet rfl rfl rfl rfl rfl rfl rfl rfl
    · cases policy <;> cases h <;> exact hquiet rfl rfl rfl rfl rfl rfl rfl rfl
  | join =>
    simp only [stepClient] at h
    split at h
    · split at h <;> cases h
      exact hquiet rfl rfl rfl rfl rfl rfl rfl rfl
    · cases h
      exact hquiet rfl rfl rfl rfl rfl rfl rfl rfl
  | fullAsleep | done => cases h
  | _ =>
    cases h
    exact hquiet rfl rfl rfl rfl rfl rfl rfl rfl

theorem stepWorker_stop {x y : Worker P n} (hs : stepWorker i b s x = some (s', y)) :
    s'.stop = s.stop := by
  cases stepWorker_effect hs with
  | plain hs => rw [hs]
  | _ => rfl

theorem stepClient_stop {policy : WorkStealingRejectPolicy} {w : Fin n → Worker P n}
    {x y : Client P n} (hs : stepClient policy w t b s x = some (s', y)) :
    s'.stop = s.stop ∨ s'.stop = true ∧ x = .shutdownSet := by
  cases x with
  | push path =>
    simp only [stepClient] at hs
    split at hs
    · cases hs
      exact .inl rfl
    · split at hs <;> cases path <;> cases hs <;> exact .inl rfl
  | enqueueLock | fullWoken | shutdownLock | idleLock | sizeLock =>
    obtain ⟨_, rfl, rfl⟩ := map_lock_eq_some hs
    exact .inl rfl
  | enqueueStop | tryEnqueueStop | waitedStop | trySubmitStop | fullStop | fullHead | loadIdle
  | shutdownTest | awaitSubmits | idleBusy | idleScan | sizeTop =>
    simp only [stepClient] at hs
    split at hs <;> cases hs <;> exact .inl rfl
  | lockedStop =>
    simp only [stepClient] at hs
    split at hs
    · cases hs
      exact .inl rfl
    · cases policy <;> cases hs <;> exact .inl rfl
  | join =>
    simp only [stepClient] at hs
    split at hs
    · split at hs <;> cases hs
      exact .inl rfl
    · cases hs
      exact .inl rfl
  | shutdownSet =>
    cases hs
    exact .inr ⟨rfl, rfl⟩
  | fullAsleep | done => cases hs
  | _ =>
    cases hs
    exact .inl rfl

end Steps

/-- The mutex and the counters. -/
structure Counted [Fintype Tid] (s : Shared P n Tid) (w : Fin n → Worker P n)
    (l : Tid → Option (Client P n)) : Prop where
  workerHolds : ∀ i, (w i).holds = true → s.mtx = some (.inl i)
  clientHolds : ∀ t x, l t = some x → x.holds = true → s.mtx = some (.inr t)
  idle : s.workersIdle = tally Worker.idles w
  busy : s.busy = tally Worker.busies w
  waiting : s.waitingProducers = hands Client.waits l
  active : s.active = hands Client.inside l

theorem counted_initial [Fintype Tid] : Counted (initial P n Tid).shared
    (initial P n Tid).workers (initial P n Tid).clients where
  workerHolds i h := by cases h
  clientHolds t x h := by cases h
  idle := (tally_eq_zero fun _ => rfl).symm
  busy := (tally_eq_zero fun _ => rfl).symm
  waiting := (hands_eq_zero fun _ => rfl).symm
  active := (hands_eq_zero fun _ => rfl).symm

namespace Counted

variable [Fintype Tid] {s s' : Shared P n Tid} {w w' : Fin n → Worker P n}
  {l l' : Tid → Option (Client P n)} {i : Fin n} {t : Tid}

theorem wake (h : Counted s w l) (hw : Woken Worker.sleeping Worker.wake w w')
    (hl : Woken Client.sleeping Client.wake l l') : Counted s w' l' where
  workerHolds i hi := by
    have hsame := Woken.congr (f := Worker.holds) hw
      (fun x hx => by cases x <;> first | rfl | cases hx) i
    exact h.workerHolds i (hsame ▸ hi)
  clientHolds t x hx hh := by
    rcases hl t with he | ⟨hs, he⟩
    · exact h.clientHolds t x (he ▸ hx) hh
    · rw [he] at hx
      cases hy : l t with
      | none =>
        rw [hy] at hs
        cases hs
      | some y =>
        rw [hy] at hs hx
        cases y <;> cases hs
        cases hx
        cases hh
  idle := h.idle.trans (tally_congr (Woken.congr (f := Worker.idles) hw fun x hx => by
    cases x <;> first | rfl | cases hx)).symm
  busy := h.busy.trans (tally_congr (Woken.congr (f := Worker.busies) hw fun x hx => by
    cases x <;> first | rfl | cases hx)).symm
  waiting := h.waiting.trans (tally_congr (Woken.congr (f := hand Client.waits) hl fun o ho => by
    cases o with
    | none => cases ho
    | some x => cases x <;> rfl)).symm
  active := h.active.trans (tally_congr (Woken.congr (f := hand Client.inside) hl fun o ho => by
    cases o with
    | none => cases ho
    | some x => cases x <;> rfl)).symm

variable [DecidableEq Tid]

theorem setClient {o : Option (Client P n)} (h : Counted s w l)
    (hold : hand Client.waits (l t) = 0 ∧ hand Client.inside (l t) = 0)
    (hnew : hand Client.waits o = 0 ∧ hand Client.inside o = 0)
    (hholds : ∀ y, o = some y → y.holds = false) :
    Counted s w (Function.update l t o) where
  workerHolds := h.workerHolds
  clientHolds u x hx hh := by
    rcases update_eq_some hx with ⟨_, ho⟩ | ⟨_, hx⟩
    · rw [hholds x ho] at hh
      cases hh
    · exact h.clientHolds u x hx hh
  idle := h.idle
  busy := h.busy
  waiting := by
    have hup := hands_update Client.waits l t o
    rw [hold.1, hnew.1] at hup
    exact h.waiting.trans hup.symm
  active := by
    have hup := hands_update Client.inside l t o
    rw [hold.2, hnew.2] at hup
    exact h.active.trans hup.symm

omit [DecidableEq Tid] in
theorem worker {y : Worker P n} (h : Counted s w l) (hs : WorkerCount i s s' (w i) y) :
    Counted s' (Function.update w i y) l where
  workerHolds u hu := by
    by_cases hui : u = i
    · subst hui
      rw [Function.update_self] at hu
      exact hs.mutex.own (h.workerHolds u) hu
    · rw [Function.update_of_ne hui] at hu
      exact hs.mutex.other (h.workerHolds i) (fun he => hui (Sum.inl.inj he)) (h.workerHolds u hu)
  clientHolds t x hx hh :=
    hs.mutex.other (h.workerHolds i) (fun he => by cases he) (h.clientHolds t x hx hh)
  idle := by
    have hle := le_tally Worker.idles w i
    have hup := tally_update Worker.idles w i y
    have hidle := h.idle
    have hcount := hs.idle (by omega)
    omega
  busy := by
    have hle := le_tally Worker.busies w i
    have hup := tally_update Worker.busies w i y
    have hbusy := h.busy
    have hcount := hs.busy (by omega)
    omega
  waiting := hs.waiting.trans h.waiting
  active := hs.active.trans h.active

theorem client {x y : Client P n} (h : Counted s w l) (hx : l t = some x)
    (hs : ClientCount t s s' x y) : Counted s' w (Function.update l t (some y)) where
  workerHolds u hu :=
    hs.mutex.other (h.clientHolds t x hx) (fun he => by cases he) (h.workerHolds u hu)
  clientHolds u z hz hh := by
    rcases update_eq_some hz with ⟨rfl, ho⟩ | ⟨hne, hz⟩
    · exact hs.mutex.own (h.clientHolds u x hx) (Option.some.inj ho ▸ hh)
    · exact hs.mutex.other (h.clientHolds t x hx) (fun he => hne (Sum.inr.inj he))
        (h.clientHolds u z hz hh)
  idle := hs.idle.trans h.idle
  busy := hs.busy.trans h.busy
  waiting := by
    have hle := le_hands Client.waits hx
    have hup := hands_update Client.waits l t (some y)
    rw [hx] at hup
    simp only [hand] at hup
    have hwaiting := h.waiting
    have hcount := hs.waiting (by omega)
    omega
  active := by
    have hle := le_hands Client.inside hx
    have hup := hands_update Client.inside l t (some y)
    rw [hx] at hup
    simp only [hand] at hup
    have hactive := h.active
    have hcount := hs.active (by omega)
    omega

theorem next {policy : WorkStealingRejectPolicy} {c c' : State P n Tid} {a : Action α n Tid}
    (h : Counted c.shared c.workers c.clients) (hn : (system policy).next c a = some c') :
    Counted c'.shared c'.workers c'.clients := by
  refine next_induction (I := Counted) (fun hi hw hl => hi.wake hw hl) ?_ ?_ ?_ ?_ h hn
  · intro s w l t op hi hl
    have hset := hi.setClient (t := t) (o := some (.start s.issued.length op))
      (by rw [hl]; exact ⟨rfl, rfl⟩) (by cases op <;> exact ⟨rfl, rfl⟩)
      (fun y hy => by cases op <;> cases hy <;> rfl)
    exact ⟨hset.workerHolds, hset.clientHolds, hset.idle, hset.busy, hset.waiting, hset.active⟩
  · intro s w l t r hi hl
    exact hi.setClient (by rw [hl]; exact ⟨rfl, rfl⟩) ⟨rfl, rfl⟩ fun y hy => by cases hy
  · exact fun b hi hs => hi.worker (stepWorker_count hs)
  · exact fun b hi hx hs => hi.client hx (stepClient_count hs)

end Counted

end LowLatency.WorkStealingThreadPool
