import LowLatency.ThreadPool.Drain

/-!
# Waking up workers and producers

A worker sleeps on `cv` only after it has found the ring empty, and a producer on `not_full_cv` only
after it has found it full, each under the mutex. `Loud` counts who is about to look at the ring: as
long as a worker sleeps, every queued task has a worker that has been woken, or holds the mutex, or a
submitter that is about to notify; and as long as a producer sleeps, every free slot has a producer
of this kind, or a worker that is about to notify. After `stop` is set nobody goes to sleep, so the
`notify_all` calls of `shutdown()` are the last ones needed (`Up.next`).
-/

namespace LowLatency.ThreadPool

open Concurrency

variable {α Tid : Type*} {n : ℕ}

namespace Worker

/-- Woken and not yet running again. -/
def awakened : Worker α → ℕ
  | .woken => 1
  | _ => 0

/-- The worker has been woken, or holds the mutex to look for a task. -/
def alert : Worker α → ℕ
  | .woken | .predicate | .exitTest | .pop => 1
  | _ => 0

/-- The worker has taken a task and not yet notified the producers. -/
def freeing : Worker α → ℕ
  | .notifyNotFull _ => 1
  | _ => 0

end Worker

namespace Client

/-- Woken and not yet running again. -/
def awakened : Client α → ℕ
  | .notFullWoken _ => 1
  | _ => 0

/-- The producer has been woken, or holds the mutex to look for a free slot. -/
def alert : Client α → ℕ
  | .notFullWoken _ | .enqueuePolicy _ | .enqueueStop _ | .push _ _ => 1
  | _ => 0

/-- The thread is between its push and its `notify_one`. -/
def notifying : Client α → ℕ
  | .submittedAdd _ | .unlockNotify _ | .notify _ => 1
  | _ => 0

/-- The thread has issued the `notify_all` for the workers. -/
def wokeWorkers : Client α → Bool
  | .notifyAllNotFull | .awaitSubmits | .join _ | .done .stopped => true
  | _ => false

/-- The thread has issued both `notify_all` calls. -/
def wokeAll : Client α → Bool
  | .awaitSubmits | .join _ | .done .stopped => true
  | _ => false

end Client

theorem Worker.sleeping_wake (x : Worker α) : (Worker.wake x).sleeping = false := rfl

theorem Client.sleeping_wake (o : Option (Client α)) : Client.sleeping (Client.wake o) = false := by
  cases o with
  | none => rfl
  | some x => cases x <;> rfl

theorem Client.wokeWorkers_of_wokeAll {x : Client α} (h : x.wokeAll = true) :
    x.wokeWorkers = true := by
  cases x with
  | done r => cases r <;> first | rfl | cases h
  | awaitSubmits | join => rfl
  | _ => cases h

/-- A sleeping worker leaves no task, and a sleeping producer no free slot, to nobody. -/
structure Loud [Fintype Tid] (s : Shared α n Tid) (w : Fin n → Worker α)
    (l : Tid → Option (Client α)) : Prop where
  workers : s.stop = false → (∃ i, w i = .asleep) →
    s.queue.length ≤ tally Worker.alert w + hands Client.notifying l
  producers : s.stop = false → (∃ t task, l t = some (.notFullAsleep task)) →
    s.tasks.capacity.size ≤ s.queue.length + (hands Client.alert l + tally Worker.freeing w)

/-! ## What a step does to the counts -/

section Steps

variable [Fintype Tid] {s s' : Shared α n Tid} {w : Fin n → Worker α}
  {l : Tid → Option (Client α)} {i : Fin n} {t : Tid}

/-- What a worker's step does to the ring and to those who look at it. -/
structure WorkerEffect (s s' : Shared α n Tid) (x y : Worker α) : Prop where
  stop : s'.stop = s.stop
  capacity : s'.tasks.capacity = s.tasks.capacity
  tasks : s.stop = true ∨ s'.queue = [] ∨ s'.queue.length + x.alert ≤ s.queue.length + y.alert
  slots : s.queue.length + x.freeing ≤ s'.queue.length + y.freeing
  asleep : y = .asleep → s.stop = false ∧ s'.queue = []

omit [Fintype Tid] in
theorem WorkerEffect.of_same {x y : Worker α} (hstop : s'.stop = s.stop)
    (htasks : s'.tasks = s.tasks) (hqueue : s'.queue = s.queue) (ha : x.alert ≤ y.alert)
    (hf : x.freeing ≤ y.freeing) (hy : y ≠ .asleep) : WorkerEffect s s' x y where
  stop := hstop
  capacity := by rw [htasks]
  tasks := .inr (.inr (by rw [hqueue]; omega))
  slots := by
    rw [hqueue]
    omega
  asleep he := absurd he hy

theorem Inv.worker_effect (h : Inv s w l) {y : Worker α} (hs : stepWorker i s (w i) = some (s', y))
    (hnot : ∀ j, w i ≠ .notifyNotFull j) : WorkerEffect s s' (w i) y := by
  cases hx : w i with
  | lock | woken =>
    rw [hx] at hs
    obtain ⟨s₁, hlock, he⟩ := Option.map_eq_some_iff.mp hs
    cases he
    obtain ⟨_, rfl⟩ := lock_eq_some hlock
    exact .of_same rfl rfl rfl (by simp [Worker.alert]) le_rfl (by simp)
  | predicate =>
    rw [hx] at hs
    simp only [stepWorker] at hs
    split at hs <;> cases hs
    next => exact .of_same rfl rfl rfl le_rfl le_rfl (by simp)
    next hc =>
      -- the worker goes to sleep: the ring is empty
      rw [Bool.or_eq_true, not_or, Bool.not_eq_true'] at hc
      have hempty : s.queue = [] := h.ring.empty_iff.mp (by simpa using hc.2)
      exact ⟨rfl, rfl, .inr (.inl hempty), le_rfl, fun _ => ⟨by simpa using hc.1, hempty⟩⟩
  | asleep | exited =>
    rw [hx] at hs
    cases hs
  | exitTest =>
    rw [hx] at hs
    simp only [stepWorker] at hs
    split at hs <;> cases hs
    next hc =>
      rw [Bool.and_eq_true] at hc
      exact ⟨rfl, rfl, .inl hc.1, le_rfl, (by simp)⟩
    next => exact .of_same rfl rfl rfl le_rfl le_rfl (by simp)
  | pop =>
    rw [hx] at hs
    have hring := h.ring
    have happ := taken_append_queue h.taken
    cases hq : s.queue with
    | nil =>
      rw [hq] at hring
      simp only [stepWorker, hring.pop_empty] at hs
      cases hs
      exact ⟨rfl, rfl, .inr (.inl hq), le_rfl, (by simp)⟩
    | cons j q =>
      rw [hq] at hring
      obtain ⟨b, hpop, hb, hcap⟩ := hring.pop
      simp only [stepWorker, hpop] at hs
      cases hs
      have hqueue : Shared.queue { s with tasks := b, taken := s.taken ++ [j] } = q := by
        unfold Shared.queue
        show s.accepted.drop (s.taken ++ [j]).length = q
        rw [show s.accepted = s.taken ++ [j] ++ q by rw [← happ, hq, List.append_cons],
          List.drop_left]
      refine ⟨rfl, hcap, .inr (.inr ?_), ?_, (by simp)⟩
      · rw [hqueue, hq]
        exact le_rfl
      · rw [hqueue, hq]
        exact le_rfl
  | notifyNotFull j => exact absurd hx (hnot j)
  | _ =>
    rw [hx] at hs
    cases hs
    exact .of_same rfl rfl rfl le_rfl le_rfl (by simp)

/-- The same for the other threads; `s` is the state before the step. -/
structure ClientEffect (s s' : Shared α n Tid) (x y : Client α) : Prop where
  stop : s'.stop = s.stop ∨ s'.stop = true
  capacity : s'.tasks.capacity = s.tasks.capacity
  tasks : s'.queue.length + x.notifying ≤ s.queue.length + y.notifying
  slots : s.stop = true ∨ s.tasks.capacity.size ≤ s'.queue.length ∨
    s.queue.length + x.alert ≤ s'.queue.length + y.alert
  asleep : ∀ task, y = .notFullAsleep task →
    s.stop = false ∧ s.tasks.capacity.size ≤ s'.queue.length

omit [Fintype Tid] in
theorem ClientEffect.of_same {x y : Client α} (hstop : s'.stop = s.stop ∨ s'.stop = true)
    (htasks : s'.tasks = s.tasks) (hqueue : s'.queue = s.queue) (hn : x.notifying ≤ y.notifying)
    (ha : x.alert ≤ y.alert) (hy : ∀ task, y ≠ .notFullAsleep task) : ClientEffect s s' x y where
  stop := hstop
  capacity := by rw [htasks]
  tasks := by
    rw [hqueue]
    omega
  slots := .inr (.inr (by rw [hqueue]; omega))
  asleep task he := absurd he (hy task)

theorem Inv.client_effect (h : Inv s w l) {policy : RejectPolicy} {x y : Client α}
    (hx : l t = some x) (hs : stepClient policy w t s x = some (s', y))
    (hnot : ∀ r, x ≠ .notify r) : ClientEffect s s' x y := by
  have hfull : s.tasks.full = true → s.tasks.capacity.size ≤ s.queue.length := fun hf =>
    (h.ring.full_iff.mp hf).ge
  cases x with
  | enqueueLock | notFullWoken | tryLock | shutdownLock | idleLock | sizeLock =>
    obtain ⟨s₁, hlock, he⟩ := Option.map_eq_some_iff.mp hs
    cases he
    obtain ⟨_, rfl⟩ := lock_eq_some hlock
    exact .of_same (.inl rfl) rfl rfl le_rfl (by simp [Client.alert]) (by simp)
  | enqueuePolicy task =>
    cases policy with
    | block =>
      simp only [stepClient] at hs
      split at hs <;> cases hs
      next => exact .of_same (.inl rfl) rfl rfl le_rfl le_rfl (by simp)
      next hc =>
        -- the producer goes to sleep: the ring is full
        rw [Bool.or_eq_true, not_or, Bool.not_eq_true'] at hc
        have hf := hfull (by simpa using hc.2)
        exact ⟨.inl rfl, rfl, le_rfl, .inr (.inl hf), fun _ _ => ⟨by simpa using hc.1, hf⟩⟩
    | discard | throw =>
      simp only [stepClient] at hs
      split at hs <;> cases hs
      next hc => exact ⟨.inl rfl, rfl, le_rfl, .inr (.inl (hfull hc)), (by simp)⟩
      next => exact .of_same (.inl rfl) rfl rfl le_rfl le_rfl (by simp)
  | notFullAsleep | done => cases hs
  | enqueueStop task =>
    simp only [stepClient] at hs
    split at hs <;> cases hs
    next hc => exact ⟨.inl rfl, rfl, le_rfl, .inl hc, (by simp)⟩
    next => exact .of_same (.inl rfl) rfl rfl le_rfl le_rfl (by simp)
  | tryStop | tryTest | shutdownTest | awaitSubmits =>
    simp only [stepClient] at hs
    split at hs <;> cases hs <;> exact .of_same (.inl rfl) rfl rfl le_rfl (by simp [Client.alert]) (by simp)
  | push task r =>
    obtain ⟨hstop, hroom, hr⟩ : s.stop = false ∧ s.queue.length < s.tasks.capacity.size ∧
      r ≠ .stopped := h.clientFact t _ hx
    obtain ⟨hput, hring, hcap⟩ := h.ring.push hroom ⟨s.accepted.length, task⟩
    have hpush : s.tasks.push ⟨s.accepted.length, task⟩ =
      ((s.tasks.push ⟨s.accepted.length, task⟩).1, .put) := Prod.ext rfl hput
    simp only [stepClient] at hs
    rw [hpush] at hs
    cases hs
    have hqueue (j : Job α) : (s.accepted ++ [j]).drop s.taken.length = s.queue ++ [j] :=
      List.drop_append_of_le_length h.taken.length_le
    refine ⟨.inl rfl, hcap, ?_, .inr (.inr ?_), (by simp)⟩
    · unfold Shared.queue at hqueue ⊢
      rw [hqueue, List.length_append]
      exact le_rfl
    · unfold Shared.queue at hqueue ⊢
      rw [hqueue, List.length_append]
      exact le_rfl
  | join k =>
    simp only [stepClient] at hs
    split at hs
    · split at hs <;> cases hs
      exact .of_same (.inl rfl) rfl rfl le_rfl le_rfl (by simp)
    · cases hs
      exact .of_same (.inl rfl) rfl rfl le_rfl le_rfl (by simp)
  | shutdownSet =>
    cases hs
    exact .of_same (.inr rfl) rfl rfl le_rfl le_rfl (by simp)
  | notify r => exact absurd rfl (hnot r)
  | _ =>
    cases hs
    exact .of_same (.inl rfl) rfl rfl le_rfl le_rfl (by simp)

end Steps

/-! ## Every action keeps the counts -/

namespace Loud

variable [Fintype Tid] {s s' : Shared α n Tid} {w w' : Fin n → Worker α}
  {l l' : Tid → Option (Client α)} {i : Fin n} {t : Tid}

theorem wake (h : Loud s w l) (hw : Woken Worker.sleeping Worker.wake w w')
    (hl : Woken Client.sleeping Client.wake l l') : Loud s w' l' := by
  have hasleep : ∀ i, w' i = .asleep → w i = .asleep := by
    intro i hi
    rcases hw i with he | ⟨_, he⟩ <;> rw [he] at hi
    · exact hi
    · cases hi
  have hproducer : ∀ t task, l' t = some (.notFullAsleep task) → l t = some (.notFullAsleep task) := by
    intro t task ht
    rcases hl t with he | ⟨hs, he⟩
    · exact he ▸ ht
    · cases hy : l t with
      | none => rw [hy] at hs; cases hs
      | some y =>
        rw [hy] at hs he
        rw [he] at ht
        cases y <;> first | (cases hs; done) | cases ht
  have hnotifying : hands Client.notifying l' = hands Client.notifying l :=
    tally_congr (hl.congr (f := hand Client.notifying) fun o ho => by
      cases o with
      | none => cases ho
      | some x => cases x <;> rfl)
  have hfreeing : tally Worker.freeing w' = tally Worker.freeing w :=
    tally_congr (hw.congr fun x hx => by cases x <;> first | rfl | cases hx)
  have halert : tally Worker.alert w ≤ tally Worker.alert w' := by
    refine tally_mono fun i => ?_
    rcases hw i with he | ⟨hs, he⟩ <;> rw [he]
    cases hx : w i <;> rw [hx] at hs <;> first | exact Nat.zero_le _ | cases hs
  have halert' : hands Client.alert l ≤ hands Client.alert l' := by
    refine tally_mono fun t => ?_
    rcases hl t with he | ⟨hs, he⟩ <;> rw [he]
    cases ho : l t with
    | none => exact le_rfl
    | some x =>
      rw [ho] at hs
      cases x <;> first | exact Nat.zero_le _ | cases hs
  constructor
  · rintro hstop ⟨i, hi⟩
    have hold := h.workers hstop ⟨i, hasleep i hi⟩
    omega
  · rintro hstop ⟨t, task, ht⟩
    have hold := h.producers hstop ⟨t, task, hproducer t task ht⟩
    omega

theorem worker {y : Worker α} (h : Loud s w l) (he : WorkerEffect s s' (w i) y) :
    Loud s' (Function.update w i y) l := by
  constructor
  · rintro hstop ⟨j, hj⟩
    rw [he.stop] at hstop
    have hup := tally_update Worker.alert w i y
    by_cases hempty : s'.queue = []
    · rw [hempty]
      exact Nat.zero_le _
    · have hji : j ≠ i := by
        rintro rfl
        rw [Function.update_self] at hj
        exact hempty (he.asleep hj).2
      rw [Function.update_of_ne hji] at hj
      have hold := h.workers hstop ⟨j, hj⟩
      have htasks := (he.tasks.resolve_left (by simp [hstop])).resolve_left hempty
      omega
  · rintro hstop hasleep
    rw [he.stop] at hstop
    have hold := h.producers hstop hasleep
    have hup := tally_update Worker.freeing w i y
    have hslots := he.slots
    rw [he.capacity]
    omega

theorem notifyProducers [DecidableEq Tid] {j : Job α} {wakes : Option Tid} (h : Loud s w l)
    (hx : w i = .notifyNotFull j)
    (hl : notifyOne Client.sleeping Client.wake l wakes = some l') :
    Loud s (Function.update w i (.unlock j)) l' := by
  have halert := tally_update Worker.alert w i (.unlock j)
  have hfreeing := tally_update Worker.freeing w i (.unlock j)
  rw [hx] at halert hfreeing
  simp only [Worker.alert, Worker.freeing] at halert hfreeing
  have hwoken := h.wake Woken.refl (woken_of_notifyOne hl)
  constructor
  · rintro hstop ⟨k, hk⟩
    have hki : k ≠ i := by
      rintro rfl
      rw [Function.update_self] at hk
      cases hk
    rw [Function.update_of_ne hki] at hk
    have hold := hwoken.workers hstop ⟨k, hk⟩
    omega
  · rintro hstop ⟨t, task, ht⟩
    rcases notifyOne_cases hl with ⟨u, hu, rfl⟩ | ⟨hnobody, rfl⟩
    · -- the producer that is woken takes the worker's place
      cases hlu : l u with
      | none => rw [hlu] at hu; cases hu
      | some z =>
        rw [hlu] at hu ht
        cases z with
        | notFullAsleep task' =>
          have hold := h.producers hstop ⟨u, task', hlu⟩
          have hup := hands_update Client.alert l u (some (.notFullWoken task'))
          rw [hlu] at hup
          simp only [hand, Client.alert] at hup
          simp only [Client.wake]
          omega
        | _ => cases hu
    · have hasleep := hnobody t
      rw [ht] at hasleep
      cases hasleep

theorem client [DecidableEq Tid] {x y : Client α} (h : Loud s w l) (hx : l t = some x)
    (he : ClientEffect s s' x y) : Loud s' w (Function.update l t (some y)) := by
  have hrun : s'.stop = false → s.stop = false := fun hs => by
    rcases he.stop with hsame | hset
    · rw [← hsame, hs]
    · rw [hs] at hset
      cases hset
  constructor
  · rintro hstop hasleep
    have hold := h.workers (hrun hstop) hasleep
    have hup := hands_update Client.notifying l t (some y)
    rw [hx] at hup
    simp only [hand] at hup
    have htasks := he.tasks
    omega
  · rintro hstop ⟨u, task, hu⟩
    rw [he.capacity]
    by_cases hfull : s.tasks.capacity.size ≤ s'.queue.length
    · omega
    · rcases update_eq_some hu with ⟨_, ho⟩ | ⟨_, hlu⟩
      · exact absurd (he.asleep task (Option.some.inj ho)).2 hfull
      · have hold := h.producers (hrun hstop) ⟨u, task, hlu⟩
        have hup := hands_update Client.alert l t (some y)
        rw [hx] at hup
        simp only [hand] at hup
        have hslots := (he.slots.resolve_left (by simp [hrun hstop])).resolve_left hfull
        omega

theorem notifyWorkers [DecidableEq Tid] {r : Result} {wakes : Option (Fin n)} (h : Loud s w l)
    (hx : l t = some (.notify r)) (hw : notifyOne Worker.sleeping Worker.wake w wakes = some w') :
    Loud s w' (Function.update l t (some (.leave r))) := by
  have hnotifying := hands_update Client.notifying l t (some (.leave r))
  have halert := hands_update Client.alert l t (some (.leave r))
  rw [hx] at hnotifying halert
  simp only [hand, Client.notifying, Client.alert] at hnotifying halert
  have hwoken := h.wake (woken_of_notifyOne hw) Woken.refl
  constructor
  · rintro hstop ⟨k, hk⟩
    rcases notifyOne_cases hw with ⟨u, hu, rfl⟩ | ⟨hnobody, rfl⟩
    · -- the worker that is woken takes the submitter's place
      cases hwu : w u with
      | asleep =>
        have hold := h.workers hstop ⟨u, hwu⟩
        have hup := tally_update Worker.alert w u .woken
        rw [hwu] at hup
        simp only [Worker.alert] at hup
        simp only [Worker.wake]
        omega
      | _ =>
        rw [hwu] at hu
        cases hu
    · have hasleep := hnobody k
      rw [hk] at hasleep
      cases hasleep
  · rintro hstop ⟨u, task, hu⟩
    rcases update_eq_some hu with ⟨_, ho⟩ | ⟨_, hlu⟩
    · cases ho
    · have hold := hwoken.producers hstop ⟨u, task, hlu⟩
      omega

theorem setClient [DecidableEq Tid] {o : Option (Client α)} (h : Loud s w l)
    (hold : hand Client.notifying (l t) = 0 ∧ hand Client.alert (l t) = 0)
    (hnew : ∀ task, o ≠ some (.notFullAsleep task)) : Loud s w (Function.update l t o) := by
  have hnotifying := hands_update Client.notifying l t o
  have halert := hands_update Client.alert l t o
  constructor
  · rintro hstop hasleep
    have hcount := h.workers hstop hasleep
    omega
  · rintro hstop ⟨u, task, hu⟩
    rcases update_eq_some hu with ⟨_, ho⟩ | ⟨_, hlu⟩
    · exact absurd ho (hnew task)
    · have hcount := h.producers hstop ⟨u, task, hlu⟩
      omega

theorem next [DecidableEq Tid] {policy : RejectPolicy} {c c' : State α n Tid} {a : Action α n Tid}
    (hinv : Inv c.shared c.workers c.clients) (h : Loud c.shared c.workers c.clients)
    (hn : ThreadPool.next policy c a = some c') : Loud c'.shared c'.workers c'.clients := by
  cases a with
  | call t op =>
    obtain ⟨hnone, rfl⟩ := next_call hn
    refine h.setClient (by rw [hnone]; exact ⟨rfl, rfl⟩) fun task he => ?_
    cases op <;> cases he
  | ret t =>
    obtain ⟨r, hdone, rfl⟩ := next_ret hn
    exact h.setClient (by rw [hdone]; exact ⟨rfl, rfl⟩) nofun
  | worker i wakes =>
    obtain ⟨s, y, l, hs, hl, rfl⟩ := next_worker hn
    by_cases hx : ∃ j, c.workers i = .notifyNotFull j
    · obtain ⟨j, hj⟩ := hx
      rw [hj] at hs hl
      cases hs
      exact h.notifyProducers hj hl
    · have hsame : l = c.clients := by
        unfold wakeProducers at hl
        split at hl
        next j hj => exact absurd ⟨j, hj⟩ hx
        · exact (Option.some.inj hl).symm
      rw [hsame]
      exact h.worker (hinv.worker_effect hs fun j hj => hx ⟨j, hj⟩)
  | client t wakes =>
    obtain ⟨x, s, y, w, hx, hs, hw, rfl⟩ := next_client hn
    by_cases hnotify : ∃ r, x = .notify r
    · obtain ⟨r, rfl⟩ := hnotify
      cases hs
      exact h.notifyWorkers hx hw
    · exact (h.client hx (hinv.client_effect hx hs fun r hr => hnotify ⟨r, hr⟩)).wake
        (woken_wakeWorkers hw) (woken_wakeAllProducers x _).update
  | spuriousWorker i =>
    obtain ⟨hs, rfl⟩ := next_spuriousWorker hn
    exact h.wake (woken_update hs) Woken.refl
  | spuriousClient t =>
    obtain ⟨hs, rfl⟩ := next_spuriousClient hn
    exact h.wake Woken.refl (woken_update hs)

end Loud

theorem loud_initial [Fintype Tid] (r : Ring) : Loud (initial α n Tid r).shared
    (initial α n Tid r).workers (initial α n Tid r).clients where
  workers _ h := by
    obtain ⟨i, hi⟩ := h
    cases hi
  producers _ h := by
    obtain ⟨t, task, ht⟩ := h
    cases ht

/-! ## After `stop` is set -/

section Stopped

variable [Fintype Tid] {s s' : Shared α n Tid} {w w' : Fin n → Worker α}
  {l l' : Tid → Option (Client α)} {i : Fin n} {t : Tid}

theorem Inv.run_of_asleep (h : Inv s w l) (hs : stepWorker i s (w i) = some (s', .asleep)) :
    s.stop = false := by
  have hnot : ∀ j, w i ≠ .notifyNotFull j := by
    intro j hj
    rw [hj] at hs
    cases hs
  exact ((h.worker_effect hs hnot).asleep rfl).1

theorem Inv.run_of_notFullAsleep (h : Inv s w l) {policy : RejectPolicy} {x : Client α} {task : α}
    (hx : l t = some x) (hs : stepClient policy w t s x = some (s', .notFullAsleep task)) :
    s.stop = false := by
  have hnot : ∀ r, x ≠ .notify r := by
    rintro r rfl
    cases hs
  exact ((h.client_effect hx hs hnot).asleep task rfl).1

omit [Fintype Tid] in
/-- Who sleeps after others have been woken up slept before. -/
theorem asleep_of_woken (hw : Woken Worker.sleeping Worker.wake w w') (hi : w' i = .asleep) :
    w i = .asleep := by
  rcases hw i with he | ⟨_, he⟩ <;> rw [he] at hi
  · exact hi
  · cases hi

variable [DecidableEq Tid]

/-- Once `stop` is set it stays set, and nobody goes to sleep. -/
theorem stopped_next {policy : RejectPolicy} {c c' : State α n Tid} {a : Action α n Tid}
    (hinv : Inv c.shared c.workers c.clients) (hstop : c.shared.stop = true)
    (hn : next policy c a = some c') :
    c'.shared.stop = true ∧ (∀ i, c'.workers i = .asleep → c.workers i = .asleep) ∧
      ∀ t task, c'.clients t = some (.notFullAsleep task) →
        c.clients t = some (.notFullAsleep task) := by
  cases a with
  | call t op =>
    obtain ⟨_, rfl⟩ := next_call hn
    refine ⟨hstop, fun i hi => hi, fun u task hu => ?_⟩
    rcases update_eq_some hu with ⟨_, ho⟩ | ⟨_, hlu⟩
    · cases op <;> cases ho
    · exact hlu
  | ret t =>
    obtain ⟨r, _, rfl⟩ := next_ret hn
    refine ⟨hstop, fun i hi => hi, fun u task hu => ?_⟩
    rcases update_eq_some hu with ⟨_, ho⟩ | ⟨_, hlu⟩
    · cases ho
    · exact hlu
  | worker i wakes =>
    obtain ⟨s, y, l, hs, hl, rfl⟩ := next_worker hn
    refine ⟨(stepWorker_frame hs).1.trans hstop, fun j hj => ?_, fun t task ht =>
      client_of_woken (woken_wakeProducers hl) ht nofun⟩
    by_cases hji : j = i
    · subst hji
      simp only [Function.update_self] at hj
      subst hj
      rw [hinv.run_of_asleep hs] at hstop
      cases hstop
    · simpa only [Function.update_of_ne hji] using hj
  | client t wakes =>
    obtain ⟨x, s, y, w, hx, hs, hw, rfl⟩ := next_client hn
    refine ⟨(hinv.accepted_of_stop hx hs hstop).1,
      fun i hi => asleep_of_woken (woken_wakeWorkers hw) hi, fun u task hu => ?_⟩
    rcases update_eq_some hu with ⟨_, ho⟩ | ⟨_, hlu⟩
    · cases ho
      rw [hinv.run_of_notFullAsleep hx hs] at hstop
      cases hstop
    · exact client_of_woken (woken_wakeAllProducers x _) hlu nofun
  | spuriousWorker i =>
    obtain ⟨hs, rfl⟩ := next_spuriousWorker hn
    exact ⟨hstop, fun j hj => asleep_of_woken (woken_update hs) hj, fun _ _ ht => ht⟩
  | spuriousClient t =>
    obtain ⟨hs, rfl⟩ := next_spuriousClient hn
    exact ⟨hstop, fun _ hi => hi, fun u task hu => client_of_woken (woken_update hs) hu nofun⟩

/-- The pool is stopped and no worker sleeps. -/
structure WorkersUp (c : State α n Tid) : Prop where
  stop : c.shared.stop = true
  up : ∀ i, c.workers i ≠ .asleep

/-- The pool is stopped and no producer sleeps. -/
structure ProducersUp (c : State α n Tid) : Prop where
  stop : c.shared.stop = true
  up : ∀ t task, c.clients t ≠ some (.notFullAsleep task)

section Next

variable {policy : RejectPolicy} {c c' : State α n Tid} {a : Action α n Tid}

theorem WorkersUp.next (hinv : Inv c.shared c.workers c.clients) (h : WorkersUp c)
    (hn : ThreadPool.next policy c a = some c') : WorkersUp c' := by
  obtain ⟨hstop, hworkers, _⟩ := stopped_next hinv h.stop hn
  exact ⟨hstop, fun i hi => h.up i (hworkers i hi)⟩

theorem ProducersUp.next (hinv : Inv c.shared c.workers c.clients) (h : ProducersUp c)
    (hn : ThreadPool.next policy c a = some c') : ProducersUp c' := by
  obtain ⟨hstop, _, hproducers⟩ := stopped_next hinv h.stop hn
  exact ⟨hstop, fun t task ht => h.up t task (hproducers t task ht)⟩

end Next

/-- `shutdown()` has woken whom it has notified. -/
structure Called (c : State α n Tid) : Prop where
  workers : ∀ t x, c.clients t = some x → x.wokeWorkers = true → WorkersUp c
  producers : ∀ t x, c.clients t = some x → x.wokeAll = true → ProducersUp c

omit [DecidableEq Tid] in
/-- Only the two `notify_all` calls lead to the points after them. -/
theorem Inv.woke_step (h : Inv s w l) {policy : RejectPolicy} {x y : Client α} (hx : l t = some x)
    (hs : stepClient policy w t s x = some (s', y)) :
    (y.wokeWorkers = true → x.wokeWorkers = true ∨ x = .notifyAll) ∧
      (y.wokeAll = true → x.wokeAll = true ∨ x = .notifyAllNotFull) := by
  have hfact := h.clientFact t x hx
  cases x with
  | leave r | unlockDone r =>
    cases hs
    cases r <;> first | exact absurd rfl hfact | exact ⟨by simp [Client.wokeWorkers], by simp [Client.wokeAll]⟩
  | notifyAll | notifyAllNotFull | awaitSubmits | join =>
    exact ⟨fun _ => by simp [Client.wokeWorkers], fun hy => by
      first
        | (simp [Client.wokeAll]; done)
        | (cases hs; cases hy)⟩
  | notFullAsleep | done => cases hs
  | enqueueLock | notFullWoken | tryLock | shutdownLock | idleLock | sizeLock =>
    obtain ⟨s₁, _, he⟩ := Option.map_eq_some_iff.mp hs
    cases he
    exact ⟨by simp [Client.wokeWorkers], by simp [Client.wokeAll]⟩
  | enqueuePolicy =>
    cases policy <;> simp only [stepClient] at hs <;> split at hs <;> cases hs <;>
      exact ⟨by simp [Client.wokeWorkers], by simp [Client.wokeAll]⟩
  | enqueueStop | tryStop | tryTest | shutdownTest =>
    simp only [stepClient] at hs
    split at hs <;> cases hs <;> exact ⟨by simp [Client.wokeWorkers], by simp [Client.wokeAll]⟩
  | push =>
    simp only [stepClient] at hs
    split at hs <;> cases hs <;> exact ⟨by simp [Client.wokeWorkers], by simp [Client.wokeAll]⟩
  | _ =>
    cases hs
    exact ⟨by simp [Client.wokeWorkers], by simp [Client.wokeAll]⟩

theorem Called.next {policy : RejectPolicy} {c c' : State α n Tid} {a : Action α n Tid}
    (hinv : Inv c.shared c.workers c.clients) (h : Called c)
    (hn : ThreadPool.next policy c a = some c') : Called c' := by
  -- a thread that was past its `notify_all` before
  have hworkers : ∀ {t x}, c.clients t = some x → x.wokeWorkers = true → WorkersUp c' :=
    fun hx hy => (h.workers _ _ hx hy).next hinv hn
  have hproducers : ∀ {t x}, c.clients t = some x → x.wokeAll = true → ProducersUp c' :=
    fun hx hy => (h.producers _ _ hx hy).next hinv hn
  cases a with
  | call t op =>
    obtain ⟨_, rfl⟩ := next_call hn
    constructor <;> intro u x hu hx <;> rcases update_eq_some hu with ⟨_, ho⟩ | ⟨_, hlu⟩
    · cases op <;> cases ho <;> cases hx
    · exact hworkers hlu hx
    · cases op <;> cases ho <;> cases hx
    · exact hproducers hlu hx
  | ret t =>
    obtain ⟨r, _, rfl⟩ := next_ret hn
    constructor <;> intro u x hu hx <;> rcases update_eq_some hu with ⟨_, ho⟩ | ⟨_, hlu⟩
    · cases ho
    · exact hworkers hlu hx
    · cases ho
    · exact hproducers hlu hx
  | worker i wakes =>
    obtain ⟨s, y, l, _, hl, rfl⟩ := next_worker hn
    have hl := woken_wakeProducers hl
    constructor <;> intro u x hu hx
    · exact hworkers (client_of_woken hl hu (by rintro task rfl; cases hx)) hx
    · exact hproducers (client_of_woken hl hu (by rintro task rfl; cases hx)) hx
  | client t wakes =>
    obtain ⟨x, s, y, w, hx, hs, hw, rfl⟩ := next_client hn
    obtain ⟨hfirst, hsecond⟩ := hinv.woke_step hx hs
    have hl := woken_wakeAllProducers x c.clients
    constructor <;> intro u z hu hz <;> rcases update_eq_some hu with ⟨rfl, ho⟩ | ⟨_, hlu⟩
    · obtain rfl := Option.some.inj ho
      rcases hfirst hz with hx' | rfl
      · exact hworkers hx hx'
      · -- the `notify_all` on `cv`
        cases hs
        cases hw
        refine ⟨hinv.clientFact u _ hx, fun i hi => ?_⟩
        have hup := asleep_notifyAll (l := c.workers) Worker.sleeping_wake i
        rw [show notifyAll Worker.sleeping Worker.wake c.workers i = .asleep from hi] at hup
        cases hup
    · exact hworkers (client_of_woken hl hlu (by rintro task rfl; cases hz)) hz
    · obtain rfl := Option.some.inj ho
      rcases hsecond hz with hx' | rfl
      · exact hproducers hx hx'
      · -- the `notify_all` on `not_full_cv`
        cases hs
        refine ⟨hinv.clientFact u _ hx, fun v task hv => ?_⟩
        rcases update_eq_some hv with ⟨_, ho⟩ | ⟨_, hlv⟩
        · cases ho
        · have hup := asleep_notifyAll (l := c.clients) Client.sleeping_wake v
          rw [show notifyAll Client.sleeping Client.wake c.clients v = _ from hlv] at hup
          cases hup
    · exact hproducers (client_of_woken hl hlu (by rintro task rfl; cases hz)) hz
  | spuriousWorker i =>
    obtain ⟨_, rfl⟩ := next_spuriousWorker hn
    exact ⟨fun u x hu hx => hworkers hu hx, fun u x hu hx => hproducers hu hx⟩
  | spuriousClient t =>
    obtain ⟨hs, rfl⟩ := next_spuriousClient hn
    have hl : Woken Client.sleeping Client.wake c.clients _ := woken_update hs
    constructor <;> intro u x hu hx
    · exact hworkers (client_of_woken hl hu (by rintro task rfl; cases hx)) hx
    · exact hproducers (client_of_woken hl hu (by rintro task rfl; cases hx)) hx

end Stopped

/-! ## No wake-up is lost -/

/-- While the mutex is free, the tasks in the ring and the free slots have somebody coming for them
as long as anybody sleeps. -/
structure Attended [Fintype Tid] (c : State α n Tid) : Prop where
  tasks : c.shared.mtx = none → c.shared.stop = false → (∃ i, c.workers i = .asleep) →
    c.shared.tasks.size ≤ tally Worker.awakened c.workers + hands Client.notifying c.clients
  slots : c.shared.mtx = none → c.shared.stop = false →
    (∃ t task, c.clients t = some (.notFullAsleep task)) →
      c.shared.tasks.capacity.size - c.shared.tasks.size ≤ hands Client.awakened c.clients

theorem Loud.attended [Fintype Tid] {c : State α n Tid} (hinv : Inv c.shared c.workers c.clients)
    (h : Loud c.shared c.workers c.clients) : Attended c := by
  -- nobody is looking at the ring
  have hworker : c.shared.mtx = none → ∀ i, (c.workers i).holds = false := by
    intro hm i
    by_contra hi
    rw [hinv.workerHolds i (by simpa using hi)] at hm
    cases hm
  have hclient : c.shared.mtx = none → ∀ t x, c.clients t = some x → x.holds = false := by
    intro hm t x hx
    by_contra hh
    rw [hinv.clientHolds t x hx (by simpa using hh)] at hm
    cases hm
  constructor
  · intro hm hstop hasleep
    have halert : tally Worker.awakened c.workers = tally Worker.alert c.workers := by
      unfold tally
      refine Finset.sum_congr rfl fun i _ => ?_
      have hfree := hworker hm i
      cases hw : c.workers i <;> rw [hw] at hfree <;> first | rfl | cases hfree
    rw [hinv.ring.size_eq, halert]
    exact h.workers hstop hasleep
  · intro hm hstop hasleep
    have halert : hands Client.awakened c.clients = hands Client.alert c.clients := by
      unfold hands
      refine Finset.sum_congr rfl fun t _ => ?_
      cases hx : c.clients t with
      | none => rfl
      | some x =>
        have hfree := hclient hm t x hx
        cases x <;> first | rfl | cases hfree
    have hfreeing : tally Worker.freeing c.workers = 0 := tally_eq_zero fun i => by
      have hfree := hworker hm i
      cases hw : c.workers i <;> rw [hw] at hfree <;> first | rfl | cases hfree
    have hcount := h.producers hstop hasleep
    rw [hinv.ring.size_eq, halert]
    omega

/-- **The pool loses no wake-up**: tasks and free slots are attended to while anybody sleeps, and
after the two `notify_all` calls of `shutdown()` nobody sleeps any more. -/
theorem no_lost_wakeup [Fintype Tid] [DecidableEq Tid] (policy : RejectPolicy) (r : Ring)
    (c : State α n Tid) (h : (system policy).Reachable (initial α n Tid r) c) :
    Attended c ∧ ((∃ t x, c.clients t = some x ∧ x.wokeAll = true) →
      ∀ c', (system policy).Reachable c c' → (∀ i, c'.workers i ≠ .asleep) ∧
        ∀ t task, c'.clients t ≠ some (.notFullAsleep task)) := by
  have hall : (Inv c.shared c.workers c.clients ∧ Loud c.shared c.workers c.clients) ∧ Called c := by
    refine System.Reachable.invariant (I := fun c => (Inv c.shared c.workers c.clients ∧
      Loud c.shared c.workers c.clients) ∧ Called c) h ⟨⟨inv_initial r, loud_initial r⟩, ?_, ?_⟩ ?_
    · intro t x hx
      cases hx
    · intro t x hx
      cases hx
    · rintro s a s' ⟨⟨hi, hl⟩, hc⟩ hn
      exact ⟨⟨inv_next hi hn, hl.next hi hn⟩, hc.next hi hn⟩
  obtain ⟨⟨hinv, hloud⟩, hcalled⟩ := hall
  refine ⟨hloud.attended hinv, ?_⟩
  rintro ⟨t, x, hx, hwoke⟩ c' hc'
  have hkept : Inv c'.shared c'.workers c'.clients ∧ WorkersUp c' ∧ ProducersUp c' := by
    refine System.Reachable.invariant (I := fun c => Inv c.shared c.workers c.clients ∧
      WorkersUp c ∧ ProducersUp c) hc'
      ⟨hinv, hcalled.workers t x hx (Client.wokeWorkers_of_wokeAll hwoke), hcalled.producers t x hx hwoke⟩ ?_
    rintro s a s' ⟨hi, hw, hp⟩ hn
    exact ⟨inv_next hi hn, hw.next hi hn, hp.next hi hn⟩
  exact ⟨hkept.2.1.up, hkept.2.2.up⟩

theorem no_lost_wakeup_submitAndShutdown : ∃ c : State ℕ 1 (Fin 2),
    c.clients 1 = some (.done .stopped) ∧ Attended c ∧ ∀ i, c.workers i ≠ .asleep := by
  have hrun : ((system .block).run (initial ℕ 1 (Fin 2) Ring.two) submitAndShutdown).map
      (fun c => c.clients 1) = some (some (.done .stopped)) := by decide +kernel
  obtain ⟨c, hc, hdone⟩ := Option.map_eq_some_iff.mp hrun
  obtain ⟨hattended, hup⟩ := no_lost_wakeup .block Ring.two c (System.reachable_of_run hc)
  exact ⟨c, hdone, hattended, (hup ⟨1, _, hdone, rfl⟩ c System.Reach.refl).1⟩

end LowLatency.ThreadPool
