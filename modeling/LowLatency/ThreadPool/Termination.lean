import LowLatency.Concurrency.Termination
import LowLatency.ThreadPool.Idle
import LowLatency.ThreadPool.Refusal
import LowLatency.ThreadPool.Shutdown
import LowLatency.ThreadPool.WakeUp

/-!
# The pool comes to rest

The workers and the threads that use the pool go on until every operation has its answer and every
accepted task is executed, however they are scheduled, provided the tasks themselves return. Two things
are left out of the schedules: new calls and spurious wake-ups, and the rounds of `shutdown()` in which it
finds submissions in flight and yields.

`potential` bounds the instructions that are left. A notification pays for the thread that it wakes up,
and a submission for the work that a worker will have with its task. Nobody is stuck before the pool
is at rest (`Still.atRest`): the mutex belongs to a thread that can go on (`Owned`), and no wake-up has been
lost.
-/

namespace LowLatency.ThreadPool

open Concurrency

variable {α Tid : Type*} {n : ℕ}

/-- A worker or a thread that uses the pool moves, other than by a fruitless round of `shutdown()`: no
call begins, and none of the answers is taken. -/
def Working (c : State α n Tid) : Action α n Tid → Prop
  | .worker _ _ => True
  | .client t _ => c.clients t = some .awaitSubmits → c.shared.active = 0
  | _ => False

/-- Every operation has its answer, every accepted task is executed, and the workers have nothing to
do. -/
structure AtRest (c : State α n Tid) : Prop where
  answered : ∀ t x, c.clients t = some x → ∃ r, x = .done r
  finished : Finished c
  resting : ∀ i, c.workers i = .asleep ∨ c.workers i = .exited

/-! ## The potential -/

/-- What a worker does with a task. -/
def taskWork : ℕ := 12

/-- The instructions left to a worker before it sleeps or returns, without those for the tasks that are
still in the ring. -/
def Worker.left : Worker α → ℕ
  | .asleep | .exited => 0
  | .pop | .unlockReturn => 1
  | .exitTest => 2
  | .predicate => 3
  | .lock | .woken => 4
  | .unlockContinue | .completedAdd _ => 5
  | .busySub _ => 6
  | .execute _ => 7
  | .busyAdd _ => 8
  | .unlock _ => 9
  | .notifyNotFull _ => taskWork

/-- The instructions left to a thread, those of the workers and producers that it wakes up included; `n`
and `m` are how many of them there are. -/
def Client.left (n m : ℕ) : Client α → ℕ
  | .done _ => 0
  | .leave _ | .unlockDone _ => 1
  | .unlockLeave _ | .idleEmpty _ | .sizeRead => 2
  | .idleBusy | .sizeLock => 3
  | .idleLock => 4
  | .notify _ => 6
  | .unlockNotify _ => 7
  | .submittedAdd _ => 8
  | .push _ _ => 9 + taskWork
  | .enqueueStop _ | .tryTest _ | .notFullAsleep _ => 10 + taskWork
  | .enqueuePolicy _ | .tryLock _ => 11 + taskWork
  | .enqueueLock _ | .notFullWoken _ | .tryStop _ => 12 + taskWork
  | .submitEnter _ | .tryEnter _ => 13 + taskWork
  | .join k => n - k + 1
  | .awaitSubmits => n + 2
  | .notifyAllNotFull => n + 3 + 2 * m
  | .notifyAll => n + 4 + 2 * m + 4 * n
  | .shutdownUnlock => n + 5 + 2 * m + 4 * n
  | .shutdownSet => n + 6 + 2 * m + 4 * n
  | .shutdownTest => n + 7 + 2 * m + 4 * n
  | .shutdownLock => n + 8 + 2 * m + 4 * n

section Potential

variable [Fintype Tid]

/-- A bound on the instructions left to all threads. -/
def potential (s : Shared α n Tid) (w : Fin n → Worker α) (l : Tid → Option (Client α)) : ℕ :=
  tally Worker.left w + hands (Client.left n (Fintype.card Tid)) l + taskWork * s.queue.length

end Potential

/-! ## Who has the mutex, and what they have found -/

/-- The mutex belongs to a thread between its lock and its unlock, and a worker that takes a task has found
one. -/
structure Owned (s : Shared α n Tid) (w : Fin n → Worker α) (l : Tid → Option (Client α)) : Prop where
  worker : ∀ i, s.mtx = some (.inl i) → (w i).holds = true
  client : ∀ t, s.mtx = some (.inr t) → ∃ x, l t = some x ∧ x.holds = true
  exitTest : ∀ i, w i = .exitTest → s.stop = true ∨ s.queue ≠ []
  pop : ∀ i, w i = .pop → s.queue ≠ []

/-! ## Every step lowers the potential -/

/-- What waking up producers costs. -/
def Worker.price : Worker α → ℕ
  | .notifyNotFull _ => 2
  | _ => 0

/-- What waking up workers costs. -/
def Client.price (n : ℕ) : Client α → ℕ
  | .notify _ => 4
  | .notifyAll => 4 * n
  | _ => 0

/-- What waking up producers costs. -/
def Client.priceNotFull (m : ℕ) : Client α → ℕ
  | .notifyAllNotFull => 2 * m
  | _ => 0

section Lowers

variable [Fintype Tid] {s s' : Shared α n Tid} {w w' : Fin n → Worker α}
  {l l' : Tid → Option (Client α)} {i : Fin n} {t : Tid} {policy : RejectPolicy}

theorem Inv.length_pop (h : Inv s w l) (hne : s.queue ≠ []) {y : Worker α}
    (hs : stepWorker i s .pop = some (s', y)) :
    ∃ j, y = .notifyNotFull j ∧ s'.queue.length + 1 = s.queue.length := by
  have hring := h.ring
  have happ := taken_append_queue h.taken
  obtain ⟨j, q, hq⟩ := List.exists_cons_of_ne_nil hne
  rw [hq] at hring
  obtain ⟨b, hpop, _⟩ := hring.pop
  simp only [stepWorker, hpop] at hs
  cases hs
  refine ⟨j, rfl, ?_⟩
  have hlen := congrArg List.length happ
  unfold Shared.queue at hq ⊢
  rw [List.length_append] at hlen
  show (s.accepted.drop (s.taken ++ [j]).length).length + 1 = _
  rw [hq, List.length_drop, List.length_append, List.length_singleton, List.length_cons]
  rw [show s.queue = s.accepted.drop s.taken.length from rfl, hq, List.length_cons] at hlen
  omega

theorem Inv.worker_lowers (h : Inv s w l) (ho : Owned s w l) {y : Worker α}
    (hs : stepWorker i s (w i) = some (s', y)) :
    y.left + (w i).price + taskWork * s'.queue.length <
      (w i).left + taskWork * s.queue.length := by
  cases hx : w i with
  | lock | woken =>
    rw [hx] at hs
    obtain ⟨s₁, hlock, he⟩ := Option.map_eq_some_iff.mp hs
    cases he
    obtain ⟨_, rfl⟩ := lock_eq_some hlock
    simp only [Worker.left, Worker.price, Shared.queue]
    omega
  | predicate | exitTest =>
    rw [hx] at hs
    simp only [stepWorker] at hs
    split at hs <;> cases hs <;> simp only [Worker.left, Worker.price, Shared.queue, Shared.unlock] <;> omega
  | asleep | exited =>
    rw [hx] at hs
    cases hs
  | pop =>
    rw [hx] at hs
    obtain ⟨j, rfl, hlen⟩ := h.length_pop (ho.pop i hx) hs
    simp only [Worker.left, Worker.price, taskWork]
    omega
  | _ =>
    rw [hx] at hs
    cases hs
    simp only [Worker.left, Worker.price, Shared.queue, Shared.unlock, taskWork]
    omega

theorem Inv.client_lowers (h : Inv s w l) {x y : Client α} (hx : l t = some x)
    (hs : stepClient policy w t s x = some (s', y)) (hwork : x = .awaitSubmits → s.active = 0)
    (m : ℕ) : y.left n m + x.price n + x.priceNotFull m + taskWork * s'.queue.length <
      x.left n m + taskWork * s.queue.length := by
  cases x with
  | enqueueLock | notFullWoken | tryLock | shutdownLock | idleLock | sizeLock =>
    obtain ⟨s₁, hlock, he⟩ := Option.map_eq_some_iff.mp hs
    cases he
    obtain ⟨_, rfl⟩ := lock_eq_some hlock
    simp only [Client.left, Client.price, Client.priceNotFull, Shared.queue]
    omega
  | enqueuePolicy =>
    cases policy <;> simp only [stepClient] at hs <;> split at hs <;> cases hs <;>
      simp only [Client.left, Client.price, Client.priceNotFull, Shared.queue, Shared.unlock] <;> omega
  | enqueueStop | tryStop | tryTest | shutdownTest =>
    simp only [stepClient] at hs
    split at hs <;> cases hs <;> simp only [Client.left, Client.price, Client.priceNotFull] <;> omega
  | push task r =>
    have he := (h.client_effect hx hs fun r hr => by cases hr).tasks
    have hy : y = .submittedAdd r := by
      simp only [stepClient] at hs
      split at hs <;> cases hs <;> rfl
    subst hy
    simp only [Client.notifying] at he
    simp only [Client.left, Client.price, Client.priceNotFull, taskWork]
    omega
  | awaitSubmits =>
    simp only [stepClient, if_pos (hwork rfl)] at hs
    cases hs
    simp only [Client.left, Client.price, Client.priceNotFull]
    omega
  | join k =>
    simp only [stepClient] at hs
    split at hs
    next hk =>
      split at hs <;> cases hs
      simp only [Client.left, Client.price, Client.priceNotFull]
      omega
    next =>
      cases hs
      simp only [Client.left, Client.price, Client.priceNotFull]
      omega
  | notFullAsleep | done => cases hs
  | _ =>
    cases hs
    simp only [Client.left, Client.price, Client.priceNotFull, Shared.queue, Shared.unlock]
    omega

theorem left_wakeProducers [DecidableEq Tid] {x : Worker α} {wakes : Option Tid} (n m : ℕ)
    (h : wakeProducers x wakes l = some l') :
    hands (Client.left n m) l' ≤ hands (Client.left n m) l + x.price := by
  unfold wakeProducers at h
  split at h
  · refine tally_notifyOne_le (f := hand (Client.left n m)) (fun o ho => ?_) h
    cases o with
    | none => cases ho
    | some z => cases z <;> first | exact le_rfl | cases ho
  · cases h
    exact Nat.le_add_right _ _

omit [Fintype Tid] in
theorem left_wakeWorkers {x : Client α} {wakes : Option (Fin n)}
    (h : wakeWorkers x wakes w = some w') :
    tally Worker.left w' ≤ tally Worker.left w + x.price n := by
  have hone : ∀ z : Worker α, z.sleeping = true → z.wake.left ≤ z.left + 4 := by
    intro z hz
    cases z <;> first | exact le_rfl | cases hz
  unfold wakeWorkers at h
  split at h
  · exact tally_notifyOne_le hone h
  · cases h
    have hall := tally_notifyAll_le (l := w) hone
    rwa [Fintype.card_fin] at hall
  · cases h
    exact Nat.le_add_right _ _

theorem left_wakeAllProducers (x : Client α) (l : Tid → Option (Client α)) (n : ℕ) :
    hands (Client.left n (Fintype.card Tid)) (wakeAllProducers x l) ≤
      hands (Client.left n (Fintype.card Tid)) l + x.priceNotFull (Fintype.card Tid) := by
  unfold wakeAllProducers
  split
  · refine tally_notifyAll_le (f := hand (Client.left n (Fintype.card Tid))) fun o ho => ?_
    cases o with
    | none => cases ho
    | some z => cases z <;> first | exact le_rfl | cases ho
  · exact Nat.le_add_right _ _

omit [Fintype Tid] in
theorem wakeAllProducers_self {x : Client α} (hx : l t = some x) :
    wakeAllProducers x l t = some x := by
  cases x with
  | notifyAllNotFull =>
    show notifyAll Client.sleeping Client.wake l t = _
    unfold notifyAll
    rw [hx]
    rfl
  | _ => exact hx

variable [DecidableEq Tid]

theorem potential_lowers {c c' : State α n Tid} {a : Action α n Tid}
    (hinv : Inv c.shared c.workers c.clients) (ho : Owned c.shared c.workers c.clients)
    (hwork : Working c a) (hn : next policy c a = some c') :
    potential c'.shared c'.workers c'.clients < potential c.shared c.workers c.clients := by
  cases a with
  | worker i wakes =>
    obtain ⟨s, y, l, hs, hl, rfl⟩ := next_worker hn
    have hlow := hinv.worker_lowers ho hs
    have hup := tally_update Worker.left c.workers i y
    have hwake := left_wakeProducers n (Fintype.card Tid) hl
    simp only [potential]
    omega
  | client t wakes =>
    obtain ⟨x, s, y, w, hx, hs, hw, rfl⟩ := next_client hn
    have hlow := hinv.client_lowers hx hs (fun he => hwork (he ▸ hx)) (Fintype.card Tid)
    have hworkers := left_wakeWorkers hw
    have hproducers := left_wakeAllProducers x c.clients n
    have hup := hands_update (Client.left n (Fintype.card Tid)) (wakeAllProducers x c.clients) t
      (some y)
    rw [wakeAllProducers_self hx] at hup
    simp only [hand] at hup
    simp only [potential]
    omega
  | _ => exact hwork.elim

end Lowers

/-! ## The mutex -/

section Owned

variable {s s' : Shared α n Tid} {w w' : Fin n → Worker α} {l l' : Tid → Option (Client α)}
  {i : Fin n} {t : Tid} {policy : RejectPolicy}

theorem owned_initial (r : Ring) : Owned (initial α n Tid r).shared (initial α n Tid r).workers
    (initial α n Tid r).clients where
  worker i h := by cases h
  client t h := by cases h
  exitTest i h := by cases h
  pop i h := by cases h

theorem Shared.Guarded.queue (h : s.Guarded s') : s'.queue = s.queue := by
  unfold Shared.queue
  rw [h.accepted, h.taken]

theorem stepWorker_mtx {x y : Worker α} (hs : stepWorker i s x = some (s', y)) :
    s'.mtx = none ∨ (s'.mtx = some (.inl i) ∧ y.holds = true) ∨
      (s'.mtx = s.mtx ∧ (x.holds = true → y.holds = true)) := by
  cases x with
  | lock | woken =>
    obtain ⟨s₁, hlock, he⟩ := Option.map_eq_some_iff.mp hs
    cases he
    obtain ⟨_, rfl⟩ := lock_eq_some hlock
    exact .inr (.inl ⟨rfl, rfl⟩)
  | predicate =>
    simp only [stepWorker] at hs
    split at hs <;> cases hs
    · exact .inr (.inr ⟨rfl, fun _ => rfl⟩)
    · exact .inl rfl
  | exitTest | pop =>
    simp only [stepWorker] at hs
    split at hs <;> cases hs <;> exact .inr (.inr ⟨rfl, fun _ => rfl⟩)
  | unlockReturn | unlockContinue | unlock =>
    cases hs
    exact .inl rfl
  | notifyNotFull =>
    cases hs
    exact .inr (.inr ⟨rfl, fun _ => rfl⟩)
  | asleep | exited => cases hs
  | _ =>
    cases hs
    exact .inr (.inr ⟨rfl, fun h => by cases h⟩)

theorem stepClient_mtx {x y : Client α} (hs : stepClient policy w t s x = some (s', y)) :
    s'.mtx = none ∨ (s'.mtx = some (.inr t) ∧ y.holds = true) ∨
      (s'.mtx = s.mtx ∧ (x.holds = true → y.holds = true)) := by
  cases x with
  | enqueueLock | notFullWoken | tryLock | shutdownLock | idleLock | sizeLock =>
    obtain ⟨s₁, hlock, he⟩ := Option.map_eq_some_iff.mp hs
    cases he
    obtain ⟨_, rfl⟩ := lock_eq_some hlock
    exact .inr (.inl ⟨rfl, rfl⟩)
  | enqueuePolicy =>
    cases policy <;> simp only [stepClient] at hs <;> split at hs <;> cases hs <;>
      first | exact .inr (.inr ⟨rfl, fun _ => rfl⟩) | exact .inl rfl
  | enqueueStop | tryTest | shutdownTest | push =>
    simp only [stepClient] at hs
    split at hs <;> cases hs <;> exact .inr (.inr ⟨rfl, fun _ => rfl⟩)
  | tryStop | awaitSubmits =>
    simp only [stepClient] at hs
    split at hs <;> cases hs <;> exact .inr (.inr ⟨rfl, fun h => by cases h⟩)
  | join =>
    simp only [stepClient] at hs
    split at hs
    · split at hs <;> cases hs
      exact .inr (.inr ⟨rfl, fun h => by cases h⟩)
    · cases hs
      exact .inr (.inr ⟨rfl, fun h => by cases h⟩)
  | unlockNotify | unlockLeave | shutdownUnlock | unlockDone =>
    cases hs
    exact .inl rfl
  | submittedAdd | shutdownSet | idleBusy | idleEmpty | sizeRead =>
    cases hs
    exact .inr (.inr ⟨rfl, fun _ => rfl⟩)
  | notFullAsleep | done => cases hs
  | _ =>
    cases hs
    exact .inr (.inr ⟨rfl, fun h => by cases h⟩)

namespace Owned

theorem wake (h : Owned s w l) (hw : Woken Worker.sleeping Worker.wake w w')
    (hl : Woken Client.sleeping Client.wake l l') : Owned s w' l' where
  worker i hm := by
    rcases hw i with he | ⟨hs, _⟩
    · rw [he]
      exact h.worker i hm
    · have hh := h.worker i hm
      cases hx : w i <;> rw [hx] at hs hh <;> first | (cases hs; done) | cases hh
  client t hm := by
    obtain ⟨x, hx, hh⟩ := h.client t hm
    refine ⟨x, ?_, hh⟩
    rcases hl t with he | ⟨hs, _⟩
    · rw [he, hx]
    · rw [hx] at hs
      cases x <;> first | (cases hs; done) | cases hh
  exitTest i hi := by
    rcases hw i with he | ⟨_, he⟩ <;> rw [he] at hi
    · exact h.exitTest i hi
    · cases hi
  pop i hi := by
    rcases hw i with he | ⟨_, he⟩ <;> rw [he] at hi
    · exact h.pop i hi
    · cases hi

variable [DecidableEq Tid]

theorem setClient {o : Option (Client α)} (h : Owned s w l)
    (hold : ∀ x, l t = some x → x.holds = false) : Owned s w (Function.update l t o) where
  worker := h.worker
  client u hm := by
    obtain ⟨x, hx, hh⟩ := h.client u hm
    have hut : u ≠ t := by
      rintro rfl
      rw [hold x hx] at hh
      cases hh
    exact ⟨x, by rw [Function.update_of_ne hut, hx], hh⟩
  exitTest := h.exitTest
  pop := h.pop

variable [Fintype Tid]

omit [DecidableEq Tid] in
theorem step_worker (hinv : Inv s w l) (h : Owned s w l) {y : Worker α}
    (hs : stepWorker i s (w i) = some (s', y)) : Owned s' (Function.update w i y) l := by
  have hmtx := stepWorker_mtx hs
  -- what another worker has found, nobody changes while it holds the mutex
  have hother : ∀ j, j ≠ i → (w j).holds = true → s'.stop = s.stop ∧ s'.queue = s.queue := by
    intro j hj hh
    have hg := stepWorker_guarded hs ((hinv.alone_worker hh).1 i hj.symm)
    exact ⟨hg.stop, hg.queue⟩
  constructor
  · intro j hm
    rcases hmtx with hfree | ⟨hme, hy⟩ | ⟨hsame, hkeep⟩
    · rw [hfree] at hm
      cases hm
    · rw [hme] at hm
      obtain rfl := Sum.inl.inj (Option.some.inj hm)
      rwa [Function.update_self]
    · rw [hsame] at hm
      by_cases hj : j = i
      · subst hj
        rw [Function.update_self]
        exact hkeep (h.worker j hm)
      · rw [Function.update_of_ne hj]
        exact h.worker j hm
  · intro t hm
    rcases hmtx with hfree | ⟨hme, _⟩ | ⟨hsame, _⟩
    · rw [hfree] at hm
      cases hm
    · rw [hme] at hm
      cases hm
    · exact h.client t (hsame ▸ hm)
  · intro j hj
    by_cases hji : j = i
    · subst hji
      rw [Function.update_self] at hj
      subst hj
      cases hx : w j with
      | predicate =>
        rw [hx] at hs
        simp only [stepWorker] at hs
        split at hs <;> cases hs
        next hc =>
          rw [Bool.or_eq_true, Bool.not_eq_true'] at hc
          refine hc.imp id fun he hq => ?_
          rw [hinv.ring.empty_iff.mpr hq] at he
          cases he
      | lock | woken =>
        rw [hx] at hs
        obtain ⟨s₁, _, he⟩ := Option.map_eq_some_iff.mp hs
        cases he
      | exitTest | pop =>
        rw [hx] at hs
        simp only [stepWorker] at hs
        split at hs <;> cases hs
      | _ =>
        rw [hx] at hs
        cases hs
    · rw [Function.update_of_ne hji] at hj
      obtain ⟨hstop, hqueue⟩ := hother j hji (by rw [hj]; rfl)
      rw [hstop, hqueue]
      exact h.exitTest j hj
  · intro j hj
    by_cases hji : j = i
    · subst hji
      rw [Function.update_self] at hj
      subst hj
      cases hx : w j with
      | exitTest =>
        rw [hx] at hs
        have hfound := h.exitTest j hx
        simp only [stepWorker] at hs
        split at hs <;> cases hs
        next hc =>
          intro hq
          rw [Bool.and_eq_true, not_and] at hc
          rcases hfound with hstop | hne
          · exact hc hstop (hinv.ring.empty_iff.mpr hq)
          · exact hne hq
      | lock | woken =>
        rw [hx] at hs
        obtain ⟨s₁, _, he⟩ := Option.map_eq_some_iff.mp hs
        cases he
      | predicate | pop =>
        rw [hx] at hs
        simp only [stepWorker] at hs
        split at hs <;> cases hs
      | _ =>
        rw [hx] at hs
        cases hs
    · rw [Function.update_of_ne hji] at hj
      rw [(hother j hji (by rw [hj]; rfl)).2]
      exact h.pop j hj

theorem step_client (hinv : Inv s w l) (h : Owned s w l) {x y : Client α} (hx : l t = some x)
    (hs : stepClient policy w t s x = some (s', y)) :
    Owned s' w (Function.update l t (some y)) := by
  have hmtx := stepClient_mtx hs
  have hother : ∀ j, (w j).holds = true → s'.stop = s.stop ∧ s'.queue = s.queue := by
    intro j hh
    have hg := stepClient_guarded hs ((hinv.alone_worker hh).2 t x hx)
    exact ⟨hg.stop, hg.queue⟩
  constructor
  · intro j hm
    rcases hmtx with hfree | ⟨hme, _⟩ | ⟨hsame, _⟩
    · rw [hfree] at hm
      cases hm
    · rw [hme] at hm
      cases hm
    · exact h.worker j (hsame ▸ hm)
  · intro u hm
    rcases hmtx with hfree | ⟨hme, hy⟩ | ⟨hsame, hkeep⟩
    · rw [hfree] at hm
      cases hm
    · rw [hme] at hm
      obtain rfl := Sum.inr.inj (Option.some.inj hm)
      exact ⟨y, Function.update_self .., hy⟩
    · obtain ⟨z, hz, hh⟩ := h.client u (hsame ▸ hm)
      by_cases hut : u = t
      · subst hut
        rw [hx] at hz
        obtain rfl := Option.some.inj hz
        exact ⟨y, Function.update_self .., hkeep hh⟩
      · exact ⟨z, by rw [Function.update_of_ne hut, hz], hh⟩
  · intro j hj
    obtain ⟨hstop, hqueue⟩ := hother j (by rw [hj]; rfl)
    rw [hstop, hqueue]
    exact h.exitTest j hj
  · intro j hj
    rw [(hother j (by rw [hj]; rfl)).2]
    exact h.pop j hj

theorem next {c c' : State α n Tid} {a : Action α n Tid}
    (hinv : Inv c.shared c.workers c.clients) (h : Owned c.shared c.workers c.clients)
    (hn : ThreadPool.next policy c a = some c') : Owned c'.shared c'.workers c'.clients := by
  have hkept := next_induction (I := fun s w l => Inv s w l ∧ Owned s w l)
    (fun hi hw hl => ⟨hi.1.wake hw hl, hi.2.wake hw hl⟩) ?_ ?_
    (fun hi hs => ⟨hi.1.step_worker hs, hi.2.step_worker hi.1 hs⟩)
    (fun hi hx hs => ⟨hi.1.step_client hx hs, hi.2.step_client hi.1 hx hs⟩) ⟨hinv, h⟩ hn
  · exact hkept.2
  · intro s w l t op hi hl
    exact ⟨hi.1.call hl, hi.2.setClient fun x hx => by rw [hl] at hx; cases hx⟩
  · intro s w l t r hi hl
    refine ⟨hi.1.ret hl, hi.2.setClient fun x hx => ?_⟩
    rw [hl] at hx
    cases hx
    rfl

end Owned

end Owned

/-! ## Who is stuck -/

section Stuck

variable {s : Shared α n Tid} {w : Fin n → Worker α} {l : Tid → Option (Client α)} {i : Fin n}
  {t : Tid} {policy : RejectPolicy}

/-- A worker that cannot move waits for the mutex or sleeps, or it has returned. -/
theorem Inv.stepWorker_none [Fintype Tid] (h : Inv s w l) (hs : stepWorker i s (w i) = none) :
    (s.mtx ≠ none ∧ (w i).holds = false) ∨ w i = .asleep ∨ w i = .exited := by
  cases hx : w i with
  | lock | woken =>
    rw [hx] at hs
    refine .inl ⟨fun hm => ?_, rfl⟩
    simp [stepWorker, Shared.lock, hm] at hs
  | predicate | exitTest =>
    rw [hx] at hs
    simp only [stepWorker] at hs
    split at hs <;> cases hs
  | pop =>
    obtain ⟨s', y, hs', _⟩ := h.worker_pop hx
    rw [hx, hs'] at hs
    cases hs
  | asleep => exact .inr (.inl rfl)
  | exited => exact .inr (.inr rfl)
  | _ =>
    rw [hx] at hs
    cases hs

/-- A thread that cannot move waits for the mutex, for room or for a worker to return, or has its
answer. -/
theorem stepClient_none {x : Client α} (hs : stepClient policy w t s x = none) :
    (s.mtx ≠ none ∧ x.holds = false) ∨ (∃ task, x = .notFullAsleep task) ∨ (∃ r, x = .done r) ∨
      ∃ k, ∃ h : k < n, x = .join k ∧ w ⟨k, h⟩ ≠ .exited := by
  cases x with
  | enqueueLock | notFullWoken | tryLock | shutdownLock | idleLock | sizeLock =>
    refine .inl ⟨fun hm => ?_, rfl⟩
    simp [stepClient, Shared.lock, hm] at hs
  | enqueuePolicy =>
    cases policy <;> simp only [stepClient] at hs <;> split at hs <;> cases hs
  | enqueueStop | tryStop | tryTest | shutdownTest | awaitSubmits | push =>
    simp only [stepClient] at hs
    split at hs <;> cases hs
  | join k =>
    simp only [stepClient] at hs
    split at hs
    next hk =>
      split at hs
      · cases hs
      next hne => exact .inr (.inr (.inr ⟨k, hk, rfl, hne⟩))
    · cases hs
  | notFullAsleep task => exact .inr (.inl ⟨task, rfl⟩)
  | done r => exact .inr (.inr (.inl ⟨r, rfl⟩))
  | _ => cases hs

end Stuck

/-! ## A pool that has been stopped -/

namespace Client

/-- The thread has set `stop`. -/
def stopping : Client α → Bool
  | .shutdownUnlock | .notifyAll | .notifyAllNotFull | .awaitSubmits | .join _ | .done .stopped => true
  | _ => false

end Client

/-- Whoever has set `stop` is still at work, or nobody sleeps any more. -/
structure Stopping (c : State α n Tid) : Prop where
  stopping : c.shared.stop = true →
    (∃ t x, c.clients t = some x ∧ x.stopping = true) ∨ (WorkersUp c ∧ ProducersUp c)

section Stopping

variable [Fintype Tid] [DecidableEq Tid] {c c' : State α n Tid} {a : Action α n Tid}
  {policy : RejectPolicy}

omit [Fintype Tid] [DecidableEq Tid] in
/-- Waking up producers leaves everybody else where they are. -/
theorem stopping_of_woken {l l' : Tid → Option (Client α)} {t : Tid} {x : Client α}
    (hl : Woken Client.sleeping Client.wake l l') (ht : l t = some x) (hx : x.stopping = true) :
    l' t = some x := by
  rcases hl t with he | ⟨hs, _⟩
  · rw [he, ht]
  · rw [ht] at hs
    cases x <;> first | (cases hs; done) | cases hx

omit [Fintype Tid] [DecidableEq Tid] in
theorem stopping_step {s s' : Shared α n Tid} {w : Fin n → Worker α} {t : Tid} {x y : Client α}
    (hs : stepClient policy w t s x = some (s', y)) (hx : x.stopping = true) :
    y.stopping = true := by
  cases x with
  | awaitSubmits =>
    simp only [stepClient] at hs
    split at hs <;> cases hs <;> rfl
  | join k =>
    simp only [stepClient] at hs
    split at hs
    · split at hs <;> cases hs
      rfl
    · cases hs
      rfl
  | shutdownUnlock | notifyAll | notifyAllNotFull =>
    cases hs
    rfl
  | done => cases hs
  | _ => cases hx

theorem Stopping.next (hinv : Inv c.shared c.workers c.clients) (hcalled : Called c)
    (h : Stopping c) (hn : ThreadPool.next policy c a = some c') : Stopping c' := by
  constructor
  intro hstop
  by_cases hold : c.shared.stop = true
  · rcases h.stopping hold with ⟨t, x, hx, hs⟩ | ⟨hw, hp⟩
    · cases a with
      | call u op =>
        obtain ⟨hnone, rfl⟩ := next_call hn
        have hne : t ≠ u := by
          rintro rfl
          rw [hx] at hnone
          cases hnone
        exact .inl ⟨t, x, by simpa only [Function.update_of_ne hne] using hx, hs⟩
      | ret u =>
        obtain ⟨r, hdone, hc⟩ := next_ret hn
        by_cases hne : t = u
        · -- `shutdown()` returns to its caller
          subst hne
          rw [hdone] at hx
          obtain rfl := Option.some.inj hx
          have hwoke : (Client.done r : Client α).wokeAll = true := by
            cases r <;> first | rfl | cases hs
          exact .inr ⟨(hcalled.workers t _ hdone (Client.wokeWorkers_of_wokeAll hwoke)).next hinv hn,
            (hcalled.producers t _ hdone hwoke).next hinv hn⟩
        · subst hc
          exact .inl ⟨t, x, by simpa only [Function.update_of_ne hne] using hx, hs⟩
      | worker i wakes =>
        obtain ⟨s, y, l, _, hl, rfl⟩ := next_worker hn
        exact .inl ⟨t, x, stopping_of_woken (woken_wakeProducers hl) hx hs, hs⟩
      | client u wakes =>
        obtain ⟨z, s, y, w, hz, hstep, _, rfl⟩ := next_client hn
        by_cases hne : t = u
        · subst hne
          rw [hx] at hz
          obtain rfl := Option.some.inj hz
          exact .inl ⟨t, y, Function.update_self .., stopping_step hstep hs⟩
        · have hsame := stopping_of_woken (woken_wakeAllProducers z _) hx hs
          exact .inl ⟨t, x, (Function.update_of_ne hne ..).trans hsame, hs⟩
      | spuriousWorker i =>
        obtain ⟨_, rfl⟩ := next_spuriousWorker hn
        exact .inl ⟨t, x, hx, hs⟩
      | spuriousClient u =>
        obtain ⟨hu, rfl⟩ := next_spuriousClient hn
        exact .inl ⟨t, x, stopping_of_woken (woken_update hu) hx hs, hs⟩
    · exact .inr ⟨hw.next hinv hn, hp.next hinv hn⟩
  · cases a with
    | call u op =>
      obtain ⟨_, rfl⟩ := next_call hn
      exact absurd hstop hold
    | ret u =>
      obtain ⟨r, _, rfl⟩ := next_ret hn
      exact absurd hstop hold
    | worker i wakes =>
      obtain ⟨s, y, l, hs, _, rfl⟩ := next_worker hn
      exact absurd ((stepWorker_frame hs).1 ▸ hstop) hold
    | client u wakes =>
      obtain ⟨z, s, y, w, hz, hs, _, rfl⟩ := next_client hn
      by_cases hset : z = .shutdownSet
      · subst hset
        cases hs
        exact .inl ⟨u, .shutdownUnlock, Function.update_self .., rfl⟩
      · exact absurd ((stepClient_stop hs).2 hset ▸ hstop) hold
    | spuriousWorker i =>
      obtain ⟨_, rfl⟩ := next_spuriousWorker hn
      exact absurd hstop hold
    | spuriousClient u =>
      obtain ⟨_, rfl⟩ := next_spuriousClient hn
      exact absurd hstop hold

end Stopping

/-! ## The pool comes to rest -/

section Main

variable [Fintype Tid] {policy : RejectPolicy} {c c' : State α n Tid} {a : Action α n Tid}

/-- What every reachable state satisfies. -/
structure Alive (c : State α n Tid) : Prop where
  inv : Inv c.shared c.workers c.clients
  owned : Owned c.shared c.workers c.clients
  loud : Loud c.shared c.workers c.clients
  called : Called c
  inFlight : InFlight c.shared c.clients
  stopping : Stopping c

theorem alive_initial (r : Ring) : Alive (initial α n Tid r) where
  inv := inv_initial r
  owned := owned_initial r
  loud := loud_initial r
  called := ⟨fun t x hx => (by cases hx), fun t x hx => (by cases hx)⟩
  inFlight := inFlight_initial r
  stopping := ⟨fun h => (by cases h)⟩

/-- No thread can move. -/
structure Still (policy : RejectPolicy) (c : State α n Tid) : Prop where
  workers : ∀ i, stepWorker i c.shared (c.workers i) = none
  clients : ∀ t x, c.clients t = some x → (x = .awaitSubmits → c.shared.active = 0) →
    stepClient policy c.workers t c.shared x = none

namespace Still

/-- Nobody has the mutex: who has it can move. -/
theorem mtx_eq_none (h : Still policy c) (ha : Alive c) : c.shared.mtx = none := by
  by_contra hne
  obtain ⟨me, hme⟩ := Option.ne_none_iff_exists'.mp hne
  cases me with
  | inl i =>
    have hh := ha.owned.worker i hme
    rcases ha.inv.stepWorker_none (h.workers i) with ⟨_, hfree⟩ | hx | hx
    · rw [hh] at hfree
      cases hfree
    · rw [hx] at hh
      cases hh
    · rw [hx] at hh
      cases hh
  | inr t =>
    obtain ⟨x, hx, hh⟩ := ha.owned.client t hme
    have hnone := h.clients t x hx fun he => by rw [he] at hh; cases hh
    rcases stepClient_none hnone with ⟨_, hfree⟩ | ⟨task, rfl⟩ | ⟨r, rfl⟩ | ⟨k, _, rfl, _⟩
    · rw [hh] at hfree
      cases hfree
    all_goals cases hh

theorem resting (h : Still policy c) (ha : Alive c) (i : Fin n) :
    c.workers i = .asleep ∨ c.workers i = .exited := by
  rcases ha.inv.stepWorker_none (h.workers i) with ⟨hm, _⟩ | hx
  · exact absurd (h.mtx_eq_none ha) hm
  · exact hx

theorem client (h : Still policy c) (ha : Alive c) {t : Tid} {x : Client α}
    (hx : c.clients t = some x) :
    (∃ task, x = .notFullAsleep task) ∨ (∃ r, x = .done r) ∨
      (x = .awaitSubmits ∧ c.shared.active ≠ 0) ∨
        ∃ k, ∃ hk : k < n, x = .join k ∧ c.workers ⟨k, hk⟩ ≠ .exited := by
  by_cases hwork : x = .awaitSubmits → c.shared.active = 0
  · rcases stepClient_none (h.clients t x hx hwork) with ⟨hm, _⟩ | htask | hr | hk
    · exact absurd (h.mtx_eq_none ha) hm
    · exact .inl htask
    · exact .inr (.inl hr)
    · exact .inr (.inr (.inr hk))
  · rw [Classical.not_imp] at hwork
    exact .inr (.inr (.inl hwork))

theorem answered (hn : 0 < n) (h : Still policy c) (ha : Alive c) {t : Tid} {x : Client α}
    (hx : c.clients t = some x) : ∃ r, x = .done r := by
  have hfact := ha.inv.clientFact t x hx
  cases hstop : c.shared.stop with
  | false =>
    rcases h.client ha hx with ⟨task, rfl⟩ | hr | ⟨rfl, _⟩ | ⟨k, _, rfl, _⟩
    · -- a producer sleeps, so the ring is full; then no worker sleeps
      have hslots := ha.loud.producers hstop ⟨t, task, hx⟩
      have halert : hands Client.alert c.clients = 0 := hands_eq_zero_of_hand fun u => by
        cases hu : c.clients u with
        | none => rfl
        | some y =>
          rcases h.client ha hu with ⟨_, rfl⟩ | ⟨_, rfl⟩ | ⟨rfl, _⟩ | ⟨_, _, rfl, _⟩ <;> rfl
      have hnotifying : hands Client.notifying c.clients = 0 := hands_eq_zero_of_hand fun u => by
        cases hu : c.clients u with
        | none => rfl
        | some y =>
          rcases h.client ha hu with ⟨_, rfl⟩ | ⟨_, rfl⟩ | ⟨rfl, _⟩ | ⟨_, _, rfl, _⟩ <;> rfl
      have hfreeing : tally Worker.freeing c.workers = 0 := tally_eq_zero fun i => by
        rcases h.resting ha i with hi | hi <;> rw [hi] <;> rfl
      have hworkers : tally Worker.alert c.workers = 0 := tally_eq_zero fun i => by
        rcases h.resting ha i with hi | hi <;> rw [hi] <;> rfl
      have hasleep : c.workers ⟨0, hn⟩ = .asleep := by
        refine (h.resting ha _).resolve_right fun he => ?_
        have hexited := ha.inv.workerFact ⟨0, hn⟩
        rw [he] at hexited
        rw [hexited.1] at hstop
        cases hstop
      have htasks := ha.loud.workers hstop ⟨_, hasleep⟩
      have hpos := c.shared.tasks.capacity.size_pos
      omega
    · exact hr
    · rw [show c.shared.stop = true from hfact] at hstop
      cases hstop
    · rw [hfact.1] at hstop
      cases hstop
  | true =>
    obtain ⟨hw, hp⟩ : WorkersUp c ∧ ProducersUp c := by
      rcases ha.stopping.stopping hstop with ⟨u, y, hu, hs⟩ | hup
      · have hwoke : y.wokeAll = true := by
          rcases h.client ha hu with ⟨_, rfl⟩ | ⟨r, rfl⟩ | ⟨rfl, _⟩ | ⟨_, _, rfl, _⟩
          · cases hs
          · cases r <;> first | rfl | cases hs
          · rfl
          · rfl
        exact ⟨ha.called.workers u y hu (Client.wokeWorkers_of_wokeAll hwoke),
          ha.called.producers u y hu hwoke⟩
      · exact hup
    have hexited : ∀ i, c.workers i = .exited := fun i =>
      (h.resting ha i).resolve_left (hw.up i)
    rcases h.client ha hx with ⟨task, rfl⟩ | hr | ⟨rfl, hactive⟩ | ⟨k, hk, rfl, hne⟩
    · exact absurd hx (hp.up t task)
    · exact hr
    · -- no submission is in flight any more
      refine absurd (ha.inFlight.active.trans (hands_eq_zero_of_hand fun u => ?_)) hactive
      cases hu : c.clients u with
      | none => rfl
      | some y =>
        rcases h.client ha hu with ⟨task, rfl⟩ | ⟨r, rfl⟩ | ⟨rfl, _⟩ | ⟨_, _, rfl, _⟩
        · exact absurd hu (hp.up u task)
        · cases r <;> rfl
        · rfl
        · rfl
    · exact absurd (hexited ⟨k, hk⟩) hne

theorem queue_eq_nil (hn : 0 < n) (h : Still policy c) (ha : Alive c) : c.shared.queue = [] := by
  rcases h.resting ha ⟨0, hn⟩ with hasleep | hexited
  · cases hstop : c.shared.stop with
    | false =>
      have hnotifying : hands Client.notifying c.clients = 0 := hands_eq_zero_of_hand fun u => by
        cases hu : c.clients u with
        | none => rfl
        | some y =>
          obtain ⟨r, rfl⟩ := h.answered hn ha hu
          rfl
      have hworkers : tally Worker.alert c.workers = 0 := tally_eq_zero fun i => by
        rcases h.resting ha i with hi | hi <;> rw [hi] <;> rfl
      have htasks := ha.loud.workers hstop ⟨_, hasleep⟩
      exact List.length_eq_zero_iff.mp (by omega)
    | true =>
      rcases ha.stopping.stopping hstop with ⟨u, y, hu, hs⟩ | ⟨hw, _⟩
      · obtain ⟨r, rfl⟩ := h.answered hn ha hu
        have hwoke : (Client.done r : Client α).wokeWorkers = true := by
          cases r <;> first | rfl | cases hs
        exact absurd hasleep ((ha.called.workers u _ hu hwoke).up _)
      · exact absurd hasleep (hw.up _)
  · have hfact := ha.inv.workerFact ⟨0, hn⟩
    rw [hexited] at hfact
    exact hfact.2

theorem atRest (hn : 0 < n) (h : Still policy c) (ha : Alive c) : AtRest c where
  answered _ _ hx := h.answered hn ha hx
  finished := by
    have happ := taken_append_queue ha.inv.taken
    rw [h.queue_eq_nil hn ha, List.append_nil] at happ
    have hholding : tally Worker.holding c.workers = 0 := tally_eq_zero fun i => by
      rcases h.resting ha i with hi | hi <;> rw [hi] <;> rfl
    have hexec := ha.inv.executed
    rw [hholding, zero_add, happ] at hexec
    exact ha.inv.finished hexec.symm
  resting := h.resting ha

end Still

variable [DecidableEq Tid]

theorem Alive.next (h : Alive c) (hn : ThreadPool.next policy c a = some c') : Alive c' where
  inv := inv_next h.inv hn
  owned := h.owned.next h.inv hn
  loud := h.loud.next h.inv hn
  called := h.called.next h.inv hn
  inFlight := h.inFlight.next h.inv hn
  stopping := h.stopping.next h.inv h.called hn

/-- As long as a thread can move, some action is enabled: a notification has somebody to wake up, or
nobody sleeps. -/
theorem still_of_no_action (h : ∀ a c', Working c a → (system policy).next c a ≠ some c') :
    Still policy c := by
  constructor
  · intro i
    by_contra hne
    obtain ⟨⟨s, y⟩, hs⟩ := Option.ne_none_iff_exists'.mp hne
    obtain ⟨wakes, l, hl⟩ : ∃ wakes l, wakeProducers (c.workers i) wakes c.clients = some l := by
      unfold wakeProducers
      split
      · exact exists_notifyOne _ _ _
      · exact ⟨none, _, rfl⟩
    refine h (.worker i wakes) ⟨s, Function.update c.workers i y, l⟩ trivial ?_
    simp only [system, ThreadPool.next, hs, hl, Option.bind_some, Option.map_some]
  · intro t x hx hwork
    by_contra hne
    obtain ⟨⟨s, y⟩, hs⟩ := Option.ne_none_iff_exists'.mp hne
    obtain ⟨wakes, w, hw⟩ : ∃ wakes w, wakeWorkers x wakes c.workers = some w := by
      unfold wakeWorkers
      split
      · exact exists_notifyOne _ _ _
      · exact ⟨none, _, rfl⟩
      · exact ⟨none, _, rfl⟩
    refine h (.client t wakes)
      ⟨s, w, Function.update (wakeAllProducers x c.clients) t (some y)⟩ (fun he => ?_) ?_
    · rw [hx] at he
      exact hwork (Option.some.inj he)
    · simp only [system, ThreadPool.next, hx, hs, hw, Option.bind_some, Option.map_some]

/-- **The pool comes to rest**: from every reachable state, however the threads are scheduled, all
operations in progress get their answers and every accepted task is executed. -/
theorem comes_to_rest (hn : 0 < n) (policy : RejectPolicy) (r : Ring) (c : State α n Tid)
    (h : (system policy).Reachable (initial α n Tid r) c) :
    (system policy).Inevitable Working AtRest c := by
  have halive : Alive c := System.Reachable.invariant (I := Alive) h (alive_initial r)
    fun _ _ _ hi hn => hi.next hn
  have hvariant : (system policy).Variant Working (Alive : State α n Tid → Prop)
      fun c => potential c.shared c.workers c.clients :=
    ⟨fun _ _ _ hi _ hn => hi.next hn, fun _ _ _ hi hok hn => potential_lowers hi.inv hi.owned hok hn⟩
  refine hvariant.inevitable (fun c hi hnot => ?_) halive
  by_contra hno
  have hstill : Still policy c := still_of_no_action fun a c' hok hn' => hno ⟨a, c', hok, hn'⟩
  exact hnot (hstill.atRest hn hi)

theorem comes_to_rest_submitAndShutdown : ∃ c : State ℕ 1 (Fin 2),
    c.clients 0 = some (.submitEnter 7) ∧ c.clients 1 = some .shutdownLock ∧
      (system .block).Inevitable Working AtRest c := by
  have hrun : ((system .block).run (initial ℕ 1 (Fin 2) Ring.two)
      [.call 0 (.submit 7), .call 1 .shutdown]).map (fun c => (c.clients 0, c.clients 1)) =
        some (some (.submitEnter 7), some .shutdownLock) := by decide +kernel
  obtain ⟨c, hc, hres⟩ := Option.map_eq_some_iff.mp hrun
  obtain ⟨hsubmit, hshut⟩ := Prod.mk.inj hres
  exact ⟨c, hsubmit, hshut,
    comes_to_rest Nat.one_pos .block Ring.two c (System.reachable_of_run hc)⟩

end Main

end LowLatency.ThreadPool
