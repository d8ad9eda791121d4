import LowLatency.ThreadPool.Drain

/-!
# Refused submissions

`enqueueTask` and `tryEnqueueTask` decide under the mutex, so that `stop` and the ring stay as they
are until the thread unlocks (`Refused`). A pool that runs refuses a submission as its policy says. A
stopped pool refuses each submission, but the policies `DISCARD` and `THROW` test for a full ring
first, and then answer as if the pool ran: the exception of a stopped pool is what a submission gets
exactly when the ring is not full or the policy is `BLOCK` (`refusals`).
-/

namespace LowLatency.ThreadPool

open Concurrency

variable {α Tid : Type*} {n : ℕ}

/-- The answers of a pool that refuses. -/
inductive Answer (policy : RejectPolicy) (s : Shared α n Tid) : Result → Prop
  | stopped (hstop : s.stop = true) (hroom : s.tasks.full = true → policy = .block) :
    Answer policy s (.threw stoppedError)
  | discarded (hfull : s.tasks.full = true) (hpolicy : policy = .discard) :
    Answer policy s .discarded
  | threwFull (hfull : s.tasks.full = true) (hpolicy : policy = .throw) :
    Answer policy s (.threw fullError)
  | tried (h : s.stop = true ∨ s.tasks.full = true) : Answer policy s (.tried false)

/-- The thread has not yet decided, or it answers `r`; only `trySubmit` answers a Boolean. -/
def Client.answers (r : Result) : Client α → Prop
  | .enqueuePolicy _ => ∀ b, r ≠ .tried b
  | .enqueueStop _ => r = .threw stoppedError
  | .tryTest _ => ∃ b, r = .tried b
  | .unlockLeave r' | .leave r' => r' = r
  | _ => False

/-- What only the thread that holds the mutex changes. -/
structure Shared.Guarded (s s' : Shared α n Tid) : Prop where
  tasks : s'.tasks = s.tasks
  stop : s'.stop = s.stop
  submitted : s'.submitted = s.submitted
  accepted : s'.accepted = s.accepted
  taken : s'.taken = s.taken

section Guarded

variable {s s' s'' : Shared α n Tid} {w : Fin n → Worker α} {i : Fin n} {t : Tid}

theorem Shared.Guarded.refl : s.Guarded s := ⟨rfl, rfl, rfl, rfl, rfl⟩

theorem Shared.Guarded.trans (h : s.Guarded s') (h' : s'.Guarded s'') : s.Guarded s'' where
  tasks := h'.tasks.trans h.tasks
  stop := h'.stop.trans h.stop
  submitted := h'.submitted.trans h.submitted
  accepted := h'.accepted.trans h.accepted
  taken := h'.taken.trans h.taken

theorem stepWorker_guarded {x y : Worker α} (hs : stepWorker i s x = some (s', y))
    (hx : x.holds = false) : s.Guarded s' := by
  cases x with
  | lock | woken =>
    obtain ⟨s₁, hlock, he⟩ := Option.map_eq_some_iff.mp hs
    cases he
    obtain ⟨_, rfl⟩ := lock_eq_some hlock
    exact ⟨rfl, rfl, rfl, rfl, rfl⟩
  | asleep | exited => cases hs
  | busyAdd | execute | busySub | completedAdd =>
    cases hs
    exact ⟨rfl, rfl, rfl, rfl, rfl⟩
  | _ => cases hx

theorem stepClient_guarded {policy : RejectPolicy} {x y : Client α}
    (hs : stepClient policy w t s x = some (s', y)) (hx : x.holds = false) : s.Guarded s' := by
  cases x with
  | enqueueLock | notFullWoken | tryLock | shutdownLock | idleLock | sizeLock =>
    obtain ⟨s₁, hlock, he⟩ := Option.map_eq_some_iff.mp hs
    cases he
    obtain ⟨_, rfl⟩ := lock_eq_some hlock
    exact ⟨rfl, rfl, rfl, rfl, rfl⟩
  | notFullAsleep | done => cases hs
  | tryStop | awaitSubmits =>
    simp only [stepClient] at hs
    split at hs <;> cases hs <;> exact ⟨rfl, rfl, rfl, rfl, rfl⟩
  | join =>
    simp only [stepClient] at hs
    split at hs
    · split at hs <;> cases hs
      exact ⟨rfl, rfl, rfl, rfl, rfl⟩
    · cases hs
      exact ⟨rfl, rfl, rfl, rfl, rfl⟩
  | submitEnter | tryEnter | notify | leave | notifyAll | notifyAllNotFull =>
    cases hs
    exact ⟨rfl, rfl, rfl, rfl, rfl⟩
  | _ => cases hx

theorem Answer.congr {policy : RejectPolicy} {r : Result} (h : Answer policy s r)
    (hg : s.Guarded s') : Answer policy s' r := by
  cases h with
  | stopped hstop hroom => exact .stopped (hg.stop.trans hstop) (hg.tasks ▸ hroom)
  | discarded hfull hpolicy => exact .discarded (hg.tasks ▸ hfull) hpolicy
  | threwFull hfull hpolicy => exact .threwFull (hg.tasks ▸ hfull) hpolicy
  | tried h => exact .tried (by rw [hg.stop, hg.tasks]; exact h)

theorem Answer.step {policy : RejectPolicy} {r : Result} {x y : Client α} (h : Answer policy s r)
    (hs : stepClient policy w t s x = some (s', y)) (hx : x.answers r) (hh : x.holds = true) :
    y.answers r ∧ ∃ m, s' = { s with mtx := m } := by
  cases x with
  | enqueuePolicy task =>
    cases h with
    | stopped hstop hroom =>
      cases policy <;> simp only [stepClient] at hs <;> split at hs <;> cases hs
      · exact ⟨rfl, s.mtx, rfl⟩
      next hc => simp [hstop] at hc
      next hfull => cases hroom hfull
      · exact ⟨rfl, s.mtx, rfl⟩
      next hfull => cases hroom hfull
      · exact ⟨rfl, s.mtx, rfl⟩
    | discarded hfull hpolicy =>
      subst hpolicy
      simp only [stepClient, if_pos hfull] at hs
      cases hs
      exact ⟨rfl, s.mtx, rfl⟩
    | threwFull hfull hpolicy =>
      subst hpolicy
      simp only [stepClient, if_pos hfull] at hs
      cases hs
      exact ⟨rfl, s.mtx, rfl⟩
    | tried => exact absurd rfl (hx false)
  | enqueueStop task =>
    obtain rfl : r = .threw stoppedError := hx
    have hstop : s.stop = true := by
      generalize hr : Result.threw stoppedError = r at h
      cases h with
      | stopped hstop _ => exact hstop
      | threwFull => exact absurd hr (by decide)
      | _ => cases hr
    simp only [stepClient, if_pos hstop] at hs
    cases hs
    exact ⟨rfl, s.mtx, rfl⟩
  | tryTest task =>
    obtain ⟨b, rfl⟩ := hx
    cases h with
    | tried hrefused =>
      have hc : (s.stop || s.tasks.full) = true := by simpa using hrefused
      simp only [stepClient, if_pos hc] at hs
      cases hs
      exact ⟨rfl, s.mtx, rfl⟩
  | unlockLeave r' =>
    cases hs
    exact ⟨hx, none, rfl⟩
  | leave => cases hh
  | _ => cases hx

end Guarded

/-! ## The critical section -/

/-- Thread `t` runs alone. -/
def Own [Fintype Tid] [DecidableEq Tid] (policy : RejectPolicy) (t : Tid) (c c' : State α n Tid) :
    Prop :=
  (system policy).Reach (fun _ a => a = .client t none) c c'

/-- Thread `t`, which is about to decide, is refused with the answer `r`. -/
structure Refused [Fintype Tid] [DecidableEq Tid] (policy : RejectPolicy) (c : State α n Tid)
    (t : Tid) (r : Result) : Prop where
  /-- The thread's own instructions up to the answer change nothing but the mutex. -/
  alone : Own policy t c
    ⟨c.shared.unlock, c.workers, Function.update c.clients t (some (.leave r))⟩
  /-- Whatever the other threads do until it unlocks, it gives no other answer, and the ring and
  what is counted under the mutex stay as they are. -/
  always : ∀ c', (system policy).Reach (fun s _ => ∃ x, s.clients t = some x ∧ x.holds = true) c c' →
    c.shared.Guarded c'.shared ∧ ∃ x, c'.clients t = some x ∧ x.answers r

section Section

variable [Fintype Tid] [DecidableEq Tid] {policy : RejectPolicy} {c c' : State α n Tid} {t : Tid}
  {r : Result} {x : Client α}

omit [Fintype Tid] [DecidableEq Tid] in
theorem Client.answers_of_woken {l l' : Tid → Option (Client α)}
    (hl : Woken Client.sleeping Client.wake l l') (hx : l t = some x) (ha : x.answers r) :
    l' t = some x := by
  rcases hl t with he | ⟨hs, _⟩
  · rw [he, hx]
  · rw [hx] at hs
    cases x <;> first | (cases hs; done) | cases ha

theorem Answer.always (h : Answer policy c.shared r)
    (hinv : Inv c.shared c.workers c.clients) (hx : c.clients t = some x) (ha : x.answers r)
    (hr : (system policy).Reach (fun s _ => ∃ x, s.clients t = some x ∧ x.holds = true) c c') :
    c.shared.Guarded c'.shared ∧ ∃ x, c'.clients t = some x ∧ x.answers r := by
  have hkept : Inv c'.shared c'.workers c'.clients ∧ c.shared.Guarded c'.shared ∧
      ∃ x, c'.clients t = some x ∧ x.answers r := by
    refine System.Reach.invariant (I := fun c' => Inv c'.shared c'.workers c'.clients ∧
      c.shared.Guarded c'.shared ∧ ∃ x, c'.clients t = some x ∧ x.answers r) hr
      ⟨hinv, .refl, x, hx, ha⟩ ?_
    rintro d a d' ⟨hi, hg, x, hx, ha⟩ ⟨z, hz, hh⟩ hn
    obtain rfl : x = z := Option.some.inj (hx.symm.trans hz)
    refine ⟨inv_next hi hn, ?_⟩
    obtain ⟨hworkers, hothers⟩ := hi.alone_client hx hh
    change next policy d a = some d' at hn
    cases a with
    | call u op =>
      obtain ⟨hnone, rfl⟩ := next_call hn
      have hu : t ≠ u := by
        rintro rfl
        rw [hx] at hnone
        cases hnone
      exact ⟨hg, x, (Function.update_of_ne hu _ _).trans hx, ha⟩
    | ret u =>
      obtain ⟨r', hdone, rfl⟩ := next_ret hn
      have hu : t ≠ u := by
        rintro rfl
        rw [hx] at hdone
        cases hdone
        cases hh
      exact ⟨hg, x, (Function.update_of_ne hu _ _).trans hx, ha⟩
    | worker i wakes =>
      obtain ⟨s, y, l, hs, hl, rfl⟩ := next_worker hn
      exact ⟨hg.trans (stepWorker_guarded hs (hworkers i)), x,
        Client.answers_of_woken (woken_wakeProducers hl) hx ha, ha⟩
    | client u wakes =>
      obtain ⟨y, s, z, w, hy, hs, _, rfl⟩ := next_client hn
      by_cases hut : u = t
      · subst hut
        obtain rfl : x = y := Option.some.inj (hx.symm.trans hy)
        obtain ⟨hz, m, rfl⟩ := (h.congr hg).step hs ha hh
        exact ⟨hg.trans ⟨rfl, rfl, rfl, rfl, rfl⟩, z, Function.update_self .., hz⟩
      · refine ⟨hg.trans (stepClient_guarded hs (hothers u y hut hy)), x, ?_, ha⟩
        exact (Function.update_of_ne (Ne.symm hut) _ _).trans
          (Client.answers_of_woken (woken_wakeAllProducers y _) hx ha)
    | spuriousWorker i =>
      obtain ⟨_, rfl⟩ := next_spuriousWorker hn
      exact ⟨hg, x, hx, ha⟩
    | spuriousClient u =>
      obtain ⟨hs, rfl⟩ := next_spuriousClient hn
      exact ⟨hg, x, Client.answers_of_woken (woken_update hs) hx ha, ha⟩
  exact hkept.2

/-! ## The thread alone -/

section Own

variable {s s' : Shared α n Tid} {w : Fin n → Worker α} {l : Tid → Option (Client α)} {y : Client α}

theorem own_step_of (hx : c.clients t = some x)
    (hs : stepClient policy c.workers t c.shared x = some (s', y))
    (hw : wakeWorkers x none c.workers = some c.workers)
    (hl : wakeAllProducers x c.clients = c.clients) :
    Own policy t c ⟨s', c.workers, Function.update c.clients t (some y)⟩ := by
  refine System.Reach.tail System.Reach.refl rfl ?_
  simp only [system, next, hx, Option.bind_some, hs, hw, hl, Option.map_some]

theorem own_step (hs : stepClient policy w t s x = some (s', y))
    (hw : wakeWorkers x none w = some w)
    (hl : wakeAllProducers x (Function.update l t (some x)) = Function.update l t (some x)) :
    Own policy t ⟨s, w, Function.update l t (some x)⟩ ⟨s', w, Function.update l t (some y)⟩ := by
  have hstep := own_step_of (c := ⟨s, w, Function.update l t (some x)⟩) (Function.update_self ..)
    hs hw hl
  rwa [Function.update_idem] at hstep

theorem own_unlock : Own policy t ⟨s, w, Function.update l t (some (.unlockLeave r))⟩
    ⟨s.unlock, w, Function.update l t (some (.leave r))⟩ :=
  own_step rfl rfl rfl

end Own

theorem Answer.alone (h : Answer policy c.shared r) {task : α}
    (hx : c.clients t = some (.enqueuePolicy task) ∧ (∀ b, r ≠ .tried b) ∨
      c.clients t = some (.tryTest task) ∧ ∃ b, r = .tried b) :
    Own policy t c ⟨c.shared.unlock, c.workers, Function.update c.clients t (some (.leave r))⟩ := by
  rcases hx with ⟨hx, hr⟩ | ⟨hx, b, rfl⟩
  · cases h with
    | stopped hstop hroom =>
      have hfirst : stepClient policy c.workers t c.shared (.enqueuePolicy task) =
          some (c.shared, .enqueueStop task) := by
        cases policy with
        | block => exact if_pos (by rw [hstop]; rfl)
        | discard | throw => exact if_neg fun hfull => by cases hroom hfull
      have hsecond : stepClient policy c.workers t c.shared (.enqueueStop task) =
          some (c.shared, .unlockLeave (.threw stoppedError)) := if_pos hstop
      exact (own_step_of hx hfirst rfl rfl).trans ((own_step hsecond rfl rfl).trans own_unlock)
    | discarded hfull hpolicy =>
      subst hpolicy
      have hstep : stepClient .discard c.workers t c.shared (.enqueuePolicy task) =
          some (c.shared, .unlockLeave .discarded) := if_pos hfull
      exact (own_step_of hx hstep rfl rfl).trans own_unlock
    | threwFull hfull hpolicy =>
      subst hpolicy
      have hstep : stepClient .throw c.workers t c.shared (.enqueuePolicy task) =
          some (c.shared, .unlockLeave (.threw fullError)) := if_pos hfull
      exact (own_step_of hx hstep rfl rfl).trans own_unlock
    | tried => exact absurd rfl (hr false)
  · cases h with
    | tried hrefused =>
      have hstep : stepClient policy c.workers t c.shared (.tryTest task) =
          some (c.shared, .unlockLeave (.tried false)) := if_pos (by simpa using hrefused)
      exact (own_step_of hx hstep rfl rfl).trans own_unlock

theorem Answer.refused (h : Answer policy c.shared r)
    (hinv : Inv c.shared c.workers c.clients) {task : α}
    (hx : c.clients t = some (.enqueuePolicy task) ∧ (∀ b, r ≠ .tried b) ∨
      c.clients t = some (.tryTest task) ∧ ∃ b, r = .tried b) : Refused policy c t r where
  alone := h.alone hx
  always _ hr := by
    rcases hx with ⟨hx, ha⟩ | ⟨hx, ha⟩
    · exact h.always hinv hx ha hr
    · exact h.always hinv hx ha hr

/-- With a full ring, `DISCARD` and `THROW` answer as in a running pool. -/
theorem not_refused_of_full {task : α} (hx : c.clients t = some (.enqueuePolicy task))
    (hfull : c.shared.tasks.full = true) (hpolicy : policy ≠ .block) :
    ¬ Refused policy c t (.threw stoppedError) := by
  intro h
  obtain ⟨s, w, l⟩ := c
  replace hx : l t = _ := hx
  -- the answer after one instruction of the thread
  have hwrong : ∀ r, r ≠ .threw stoppedError →
      stepClient policy w t s (.enqueuePolicy task) ≠ some (s, .unlockLeave r) := by
    intro r hr hs
    have hstep : (system policy).next ⟨s, w, l⟩ (.client t none) =
        some ⟨s, w, Function.update l t (some (.unlockLeave r))⟩ := by
      simp only [system, next, hx, Option.bind_some, hs, wakeWorkers, wakeAllProducers,
        Option.map_some]
    obtain ⟨_, y, hy, ha⟩ := h.always _ (System.Reach.tail System.Reach.refl ⟨_, hx, rfl⟩ hstep)
    replace hy : Function.update l t (some (.unlockLeave r)) t = some y := hy
    rw [Function.update_self] at hy
    cases hy
    exact hr ha
  cases policy with
  | block => exact hpolicy rfl
  | discard => exact hwrong .discarded (by simp) (if_pos hfull)
  | throw => exact hwrong (.threw fullError) (by decide) (if_pos hfull)

end Section

/-! ## All refusals -/

/-- What `submit` and `submitVoid` do in a running pool whose ring is full. -/
def OnFull [Fintype Tid] [DecidableEq Tid] (policy : RejectPolicy) (c : State α n Tid) (t : Tid)
    (task : α) : Prop :=
  match policy with
  | .block => Own policy t c ⟨c.shared.unlock, c.workers,
      Function.update c.clients t (some (.notFullAsleep task))⟩
  | .discard => Refused policy c t .discarded
  | .throw => Refused policy c t (.threw fullError)

/-- How the pool refuses submissions in state `c`. -/
structure Refusals [Fintype Tid] [DecidableEq Tid] (policy : RejectPolicy) (c : State α n Tid) :
    Prop where
  /-- `submit` and `submitVoid` in a stopped pool. -/
  stopped : ∀ t task, c.clients t = some (.enqueuePolicy task) → c.shared.stop = true →
    (Refused policy c t (.threw stoppedError) ↔
      ¬ (c.shared.tasks.full = true ∧ policy ≠ .block))
  /-- The first test of `trySubmit`, which is made without the mutex. -/
  stoppedTry : ∀ t task, c.clients t = some (.tryStop task) → c.shared.stop = true →
    Own policy t c
      ⟨c.shared, c.workers, Function.update c.clients t (some (.leave (.tried false)))⟩
  /-- The test of `tryEnqueueTask`. -/
  tried : ∀ t task, c.clients t = some (.tryTest task) →
    c.shared.stop = true ∨ c.shared.tasks.full = true → Refused policy c t (.tried false)
  /-- Once the pool is stopped, no task that is not yet accepted ever runs. -/
  never : c.shared.stop = true → ∀ c', (system policy).Reachable c c' →
    c'.shared.accepted = c.shared.accepted ∧ ∀ j ∈ c'.shared.executed, j ∈ c.shared.accepted
  /-- A full ring in a pool that runs. -/
  full : ∀ t task, c.clients t = some (.enqueuePolicy task) → c.shared.stop = false →
    c.shared.tasks.full = true → OnFull policy c t task

section Main

variable [Fintype Tid] [DecidableEq Tid]

/-- **How the pool refuses.** A stopped pool throws its exception unless the policy finds a full ring
first. -/
theorem refusals (policy : RejectPolicy) (r : Ring) (c : State α n Tid)
    (h : (system policy).Reachable (initial α n Tid r) c) : Refusals policy c := by
  have hinv : Inv c.shared c.workers c.clients :=
    System.Reachable.invariant (I := fun c => Inv c.shared c.workers c.clients) h
      (inv_initial r) fun _ _ _ hi hn => inv_next hi hn
  constructor
  · intro t task hx hstop
    constructor
    · rintro hrefused ⟨hfull, hpolicy⟩
      exact not_refused_of_full hx hfull hpolicy hrefused
    · intro hroom
      have hroom' : c.shared.tasks.full = true → policy = .block := fun hfull =>
        by_contra fun hp => hroom ⟨hfull, hp⟩
      exact (Answer.stopped hstop hroom').refused hinv (.inl ⟨hx, nofun⟩)
  · intro t task hx hstop
    have hstep : stepClient policy c.workers t c.shared (.tryStop task) =
        some (c.shared, .leave (.tried false)) := if_pos hstop
    exact own_step_of hx hstep rfl rfl
  · exact fun t task hx hrefused => (Answer.tried hrefused).refused hinv (.inr ⟨hx, false, rfl⟩)
  · intro hstop c' hc'
    have hkept : Inv c'.shared c'.workers c'.clients ∧ c'.shared.stop = true ∧
        c'.shared.accepted = c.shared.accepted := by
      refine System.Reachable.invariant (I := fun c' => Inv c'.shared c'.workers c'.clients ∧
        c'.shared.stop = true ∧ c'.shared.accepted = c.shared.accepted) hc' ⟨hinv, hstop, rfl⟩ ?_
      rintro d a d' ⟨hi, hs, hacc⟩ hn
      obtain ⟨hs', hacc'⟩ := accepted_next hi hs hn
      exact ⟨inv_next hi hn, hs', hacc'.trans hacc⟩
    obtain ⟨hinv', _, hacc⟩ := hkept
    refine ⟨hacc, fun j hj => ?_⟩
    have htaken : j ∈ (c'.shared.taken : Multiset (Job α)) := by
      rw [hinv'.executed]
      exact Multiset.mem_add.mpr (.inr hj)
    exact hacc ▸ hinv'.taken.subset htaken
  · intro t task hx hstop hfull
    cases policy with
    | block =>
      have hwait : (c.shared.stop || !c.shared.tasks.full) ≠ true := by
        rw [hstop, hfull]
        decide
      have hstep : stepClient .block c.workers t c.shared (.enqueuePolicy task) =
          some (c.shared.unlock, .notFullAsleep task) := if_neg hwait
      exact own_step_of hx hstep rfl rfl
    | discard => exact (Answer.discarded hfull rfl).refused hinv (.inl ⟨hx, nofun⟩)
    | throw => exact (Answer.threwFull hfull rfl).refused hinv (.inl ⟨hx, nofun⟩)

end Main

/-- A pool without workers is full when it is shut down; then a task is submitted. -/
def submitAfterShutdown : List (Action ℕ 0 (Fin 1)) :=
  List.flatten [[.call 0 (.submit 7)], List.replicate 9 (.client 0 none), [.ret 0, .call 0 (.submit 8)],
    List.replicate 9 (.client 0 none), [.ret 0, .call 0 .shutdown], List.replicate 8 (.client 0 none),
    [.ret 0, .call 0 (.submit 9)], List.replicate 2 (.client 0 none)]

/-- A stopped pool silently drops a task, although `shutdown()` has returned. -/
theorem exists_dropped : ∃ c : State ℕ 0 (Fin 1),
    (system .discard).Reachable (initial ℕ 0 (Fin 1) Ring.two) c ∧ c.shared.stop = true ∧
      c.clients 0 = some (.enqueuePolicy 9) ∧ ¬ Refused .discard c 0 (.threw stoppedError) ∧
        Own .discard 0 c
          ⟨c.shared.unlock, c.workers, Function.update c.clients 0 (some (.leave .discarded))⟩ := by
  have hrun : ((system .discard).run (initial ℕ 0 (Fin 1) Ring.two) submitAfterShutdown).map
      (fun c => (c.shared.stop, c.clients 0, c.shared.tasks.full)) =
        some (true, some (.enqueuePolicy 9), true) := by decide +kernel
  obtain ⟨c, hc, hres⟩ := Option.map_eq_some_iff.mp hrun
  obtain ⟨hstop, hres⟩ := Prod.mk.inj hres
  obtain ⟨hx, hfull⟩ := Prod.mk.inj hres
  refine ⟨c, System.reachable_of_run hc, hstop, hx, not_refused_of_full hx hfull nofun, ?_⟩
  exact (Answer.discarded hfull rfl).alone (.inl ⟨hx, nofun⟩)

/-- With `BLOCK` the same submission gets the exception. -/
theorem refusals_submitAfterShutdown : ∃ c : State ℕ 0 (Fin 1), c.clients 0 = some (.enqueuePolicy 9) ∧
    c.shared.tasks.full = true ∧ Refused .block c 0 (.threw stoppedError) := by
  have hrun : ((system .block).run (initial ℕ 0 (Fin 1) Ring.two) submitAfterShutdown).map
      (fun c => (c.shared.stop, c.clients 0, c.shared.tasks.full)) =
        some (true, some (.enqueuePolicy 9), true) := by decide +kernel
  obtain ⟨c, hc, hres⟩ := Option.map_eq_some_iff.mp hrun
  obtain ⟨hstop, hres⟩ := Prod.mk.inj hres
  obtain ⟨hx, hfull⟩ := Prod.mk.inj hres
  refine ⟨c, hx, hfull, ?_⟩
  exact ((refusals .block Ring.two c (System.reachable_of_run hc)).stopped 0 9 hx hstop).mpr
    fun hno => hno.2 rfl

end LowLatency.ThreadPool
