import LowLatency.WorkStealingThreadPool.Idle
import LowLatency.WorkStealingThreadPool.Shutdown

/-!
# What `shutdown()` leaves behind

A worker leaves its loop when it finds `stop_` set and everything empty. The scan is not atomic, but
nobody else pushes into the worker's own deque, and the last of the workers to load `tail_` finds
`incoming_` empty. A submission that has loaded `stop_` before it was set pushes without the mutex,
maybe after that; its task is accepted and nobody executes it (`exists_left`). As long as every push
claims its position before all workers have turned to leave, the pool is drained (`Received`).
-/

namespace LowLatency.WorkStealingThreadPool

open Concurrency

universe u

variable {α : Type u} {P : Parts (Job α)} {n : ℕ} {Tid : Type*}

/-- The worker has left its loop or is bound to; `head` is `head_` of the queue. -/
def Worker.leaves (head : ℕ) : Worker P n → Bool
  | .unlockReturn | .exited => true
  | .exitScan (.head t) => LockFreeQueue.empty t head
  | _ => false

/-- The worker's last scan has found deque `d` empty. -/
def Worker.passed (d : Fin n) : Worker P n → Bool
  | .exitScan (.top e) => decide (d.val < e)
  | .exitScan (.bottom e _) => decide (d.val < e.val)
  | .exitScan (.head _) | .unlockReturn | .exited => true
  | _ => false

/-- The worker scans the containers to exit, or has done so. -/
def Worker.leaving : Worker P n → Bool
  | .exitScan _ | .unlockReturn | .exited => true
  | _ => false

/-- The way out of the worker loop. -/
inductive ExitStep (s : Shared P n Tid) : Worker P n → Worker P n → Prop
  | begin : ExitStep s .exitStop (.exitScan (.top 0))
  | scan {e e' : Scan n} (h : s.scan e = .inl e') : ExitStep s (.exitScan e) (.exitScan e')
  | found {e : Scan n} (h : s.scan e = .inr true) : ExitStep s (.exitScan e) .unlockReturn
  | exit : ExitStep s .unlockReturn .exited

/-- How many workers the thread has joined. -/
def Client.joined : Client P n → ℕ
  | .join k => k
  | .done .stopped => n
  | _ => 0

/-- A task is in the queue only while a worker has not turned to leave. -/
def Received (s : Shared P n Tid) (w : Fin n → Worker P n) : Prop :=
  (∃ i, (w i).leaves (P.head s.incoming) = false) ∨ P.tail s.incoming ≤ P.head s.incoming

/-! ## Steps -/

section Steps

variable {i : Fin n} {t : Tid} {b : Bool} {s s' : Shared P n Tid}

theorem Worker.leaving_afterExecute (after : Option ℕ) :
    (Worker.afterExecute after : Worker P n).leaving = false :=
  Worker.afterExecute_induction (p := fun x => x.leaving = false) rfl (fun _ => rfl) after

/-- A worker gets out by the scan only, and reads the containers only. -/
theorem stepWorker_exit {x y : Worker P n} (hs : stepWorker i b s x = some (s', y))
    (hy : y.leaving = true) :
    s'.incoming = s.incoming ∧ s'.deques = s.deques ∧ ExitStep s x y := by
  have hloop : ∀ after : Option ℕ, (Worker.afterExecute after : Worker P n).leaving = true → False :=
    fun after h => by
      rw [Worker.leaving_afterExecute] at h
      cases h
  cases x with
  | popLocal | fillPush | steal =>
    simp only [stepWorker] at hs
    split at hs
    · cases hs
      cases hy
    · split at hs <;> cases hs <;> cases hy
  | fillPop =>
    simp only [stepWorker] at hs
    split at hs
    · cases hs
      cases hy
    · split at hs
      · cases hs
        cases hy
      · split at hs <;> cases hs <;> cases hy
  | stealNext =>
    simp only [stepWorker] at hs
    split at hs
    · split at hs <;> cases hs <;> cases hy
    · cases hs
      cases hy
  | fillLoadWaiting k =>
    simp only [stepWorker] at hs
    split at hs <;> cases hs
    · cases hy
    · exact (hloop (some k) hy).elim
  | loadWaiting after =>
    simp only [stepWorker] at hs
    split at hs <;> cases hs
    · cases hy
    · exact (hloop after hy).elim
  | fillNotify k =>
    cases hs
    exact (hloop (some k) hy).elim
  | notifyNotFull after =>
    cases hs
    exact (hloop after hy).elim
  | lock | woken =>
    obtain ⟨_, rfl, rfl⟩ := map_lock_eq_some hs
    cases hy
  | waitStop | waitScan =>
    simp only [stepWorker] at hs
    split at hs <;> cases hs <;> cases hy
  | exitStop =>
    simp only [stepWorker] at hs
    split at hs <;> cases hs
    · exact ⟨rfl, rfl, .begin⟩
    · cases hy
  | exitScan e =>
    simp only [stepWorker] at hs
    split at hs <;> cases hs
    next e' he => exact ⟨rfl, rfl, .scan he⟩
    next he => exact ⟨rfl, rfl, .found he⟩
    next => cases hy
  | unlockReturn =>
    cases hs
    exact ⟨rfl, rfl, .exit⟩
  | asleep | exited => cases hs
  | _ =>
    cases hs
    cases hy

theorem Worker.leaving_of_leaves {x : Worker P n} {h : ℕ} (hx : x.leaves h = true) :
    x.leaving = true := by
  cases x <;> first | rfl | cases hx

theorem Worker.leaving_of_passed {x : Worker P n} {d : Fin n} (hx : x.passed d = true) :
    x.leaving = true := by
  cases x <;> first | rfl | cases hx

/-- A worker turns to leave only by finding the queue empty. -/
theorem ExitStep.leaves {x y : Worker P n} (h : ExitStep s x y)
    (hx : x.leaves (P.head s.incoming) = false) (hy : y.leaves (P.head s.incoming) = true) :
    P.tail s.incoming ≤ P.head s.incoming := by
  cases h with
  | begin => cases hy
  | scan he =>
    rcases scan_eq_inl he with ⟨d, _, rfl⟩ | ⟨d, t, _, rfl, _⟩ | ⟨d, _, _, rfl⟩
    · cases hy
    · cases hy
    · -- the load of `tail_`
      have hempty : (P.tail s.incoming : ℤ) ≤ P.head s.incoming := of_decide_eq_true hy
      omega
  | found he =>
    obtain ⟨t, rfl, hempty⟩ := scan_eq_true he
    rw [Worker.leaves, hempty] at hx
    cases hx
  | exit => cases hx

/-- The scan passes the deque `d` after it has found it empty. -/
theorem ExitStep.passed {x y : Worker P n} (h : ExitStep s x y) {d : Fin n} (hy : y.passed d = true) :
    x.passed d = true ∨ ∃ t, x = .exitScan (.bottom d t) ∧ P.bottom (s.deques d) ≤ t := by
  cases h with
  | begin =>
    have hlt : d.val < 0 := of_decide_eq_true hy
    omega
  | scan he =>
    rcases scan_eq_inl he with ⟨f, rfl, rfl⟩ | ⟨f, t, rfl, rfl, hle⟩ | ⟨k, rfl, hk, rfl⟩
    · exact .inl hy
    · have hlt : d.val < f.val + 1 := of_decide_eq_true hy
      rcases Nat.lt_succ_iff_lt_or_eq.mp hlt with hlt | heq
      · exact .inl (decide_eq_true hlt)
      · obtain rfl : d = f := Fin.ext heq
        exact .inr ⟨t, rfl, hle⟩
    · exact .inl (decide_eq_true (d.isLt.trans_le hk))
  | found he =>
    obtain ⟨t, rfl, _⟩ := scan_eq_true he
    exact .inl rfl
  | exit => exact .inl rfl

theorem ExitStep.loaded {x : Worker P n} {d : Fin n} {t : ℕ}
    (h : ExitStep s x (.exitScan (.bottom d t))) : t = P.top (s.deques d) := by
  cases h with
  | scan he =>
    rcases scan_eq_inl he with ⟨f, _, heq⟩ | ⟨f, t', _, heq, _⟩ | ⟨k, _, _, heq⟩ <;> cases heq
    rfl

theorem stepClient_joined {policy : WorkStealingRejectPolicy} {w : Fin n → Worker P n}
    {x y : Client P n} (hs : stepClient policy w t b s x = some (s', y)) (hfits : x.fits) {d : Fin n}
    (hd : d.val < y.joined) : d.val < x.joined ∨ w d = .exited := by
  have hno : ∀ k : ℕ, ¬ k < 0 := Nat.not_lt_zero
  cases x with
  | push path =>
    simp only [stepClient] at hs
    split at hs
    · cases hs
      exact (hno _ hd).elim
    · split at hs <;> cases path <;> cases hs <;> exact (hno _ hd).elim
  | enqueueLock | fullWoken | shutdownLock | idleLock | sizeLock =>
    obtain ⟨_, rfl, rfl⟩ := map_lock_eq_some hs
    exact (hno _ hd).elim
  | enqueueStop | tryEnqueueStop | waitedStop | trySubmitStop | fullStop | fullHead | loadIdle
  | shutdownTest | awaitSubmits | idleBusy | idleScan | sizeTop =>
    simp only [stepClient] at hs
    split at hs <;> cases hs <;> exact (hno _ hd).elim
  | lockedStop =>
    simp only [stepClient] at hs
    split at hs
    · cases hs
      exact (hno _ hd).elim
    · cases policy <;> cases hs <;> exact (hno _ hd).elim
  | join k =>
    simp only [stepClient] at hs
    split at hs
    next hk =>
      split at hs <;> cases hs
      next hexited =>
        rcases Nat.lt_succ_iff_lt_or_eq.mp (show d.val < k + 1 from hd) with hlt | rfl
        · exact .inl hlt
        · exact .inr hexited
    next hk =>
      cases hs
      exact .inl (d.isLt.trans_le (not_lt.mp hk))
  | leave r | unlockDone r =>
    cases hs
    cases r with
    | stopped => first | exact (hfits rfl).elim | cases hfits
    | _ => exact (hno _ hd).elim
  | fullAsleep | done => cases hs
  | _ =>
    cases hs
    exact (hno _ hd).elim

end Steps

/-! ## Every action in time -/

section Kept

variable [DecidableEq Tid] {s s' : Shared P n Tid} {w w' : Fin n → Worker P n}
  {l l' : Tid → Option (Client P n)} {i : Fin n} {t : Tid} {b : Bool}

omit [DecidableEq Tid] in
theorem leaves_woken (hw : Woken Worker.sleeping Worker.wake w w') (h : ℕ) (i : Fin n) :
    (w' i).leaves h = (w i).leaves h :=
  Woken.congr (f := Worker.leaves h) hw (fun x hx => by cases x <;> first | rfl | cases hx) i

omit [DecidableEq Tid] in
theorem Received.wake (h : Received s w) (hw : Woken Worker.sleeping Worker.wake w w') :
    Received s w' :=
  h.imp_left fun ⟨i, hi⟩ => ⟨i, (leaves_woken hw _ i).trans hi⟩

theorem Received.worker {QInv : P.QS → (Fin n ⊕ Tid → Option P.QL) → Prop} {committed : P.QL → Bool}
    {y : Worker P n} (HP : Positions P n Tid QInv committed) (hq : QInv s.incoming (onQueue w l))
    (h : Received s w) (hs : stepWorker i b s (w i) = some (s', y)) :
    Received s' (Function.update w i y) := by
  obtain ⟨htail, hhead⟩ := HP.worker hq (stepWorker_cases hs)
  unfold Received
  rw [htail]
  rcases h with ⟨u, hu⟩ | hle
  · by_cases hui : u = i
    · subst hui
      cases hy : y.leaves (P.head s'.incoming) with
      | false => exact .inl ⟨u, by rw [Function.update_self, hy]⟩
      | true =>
        obtain ⟨hin, _, hexit⟩ := stepWorker_exit hs (Worker.leaving_of_leaves hy)
        rw [hin] at hy ⊢
        exact .inr (hexit.leaves hu hy)
    · rcases hhead with hsame | ⟨_, k, any, a, rfl⟩
      · exact .inl ⟨u, by rw [Function.update_of_ne hui, hsame, hu]⟩
      · exact .inl ⟨i, by rw [Function.update_self]; rfl⟩
  · refine .inr ?_
    rcases hhead with hsame | ⟨hmono, _⟩ <;> omega

/-- What the threads have joined has exited. -/
def Joined (w : Fin n → Worker P n) (l : Tid → Option (Client P n)) : Prop :=
  ∀ t x, l t = some x → ∀ d : Fin n, d.val < x.joined → w d = .exited

omit [DecidableEq Tid] in
theorem Joined.wake (h : Joined w l) (hw : Woken Worker.sleeping Worker.wake w w')
    (hl : Woken Client.sleeping Client.wake l l') : Joined w' l' := by
  intro t x hx d hd
  have hexited : w d = .exited := by
    by_cases hwoken : ∃ j, x = .fullWoken j
    · obtain ⟨j, rfl⟩ := hwoken
      exact (Nat.not_lt_zero _ hd).elim
    · exact h t x (client_of_woken hl hx fun j he => hwoken ⟨j, he⟩) d hd
  rcases hw d with he | ⟨hs, _⟩
  · rw [he, hexited]
  · rw [hexited] at hs
    cases hs

omit [DecidableEq Tid] in
theorem Joined.worker {y : Worker P n} (h : Joined w l)
    (hs : stepWorker i b s (w i) = some (s', y)) : Joined (Function.update w i y) l := by
  intro t x hx d hd
  have hexited := h t x hx d hd
  by_cases hdi : d = i
  · subst hdi
    rw [hexited] at hs
    cases hs
  · rw [Function.update_of_ne hdi, hexited]

theorem Joined.client {policy : WorkStealingRejectPolicy} {x y : Client P n} (h : Joined w l)
    (hx : l t = some x) (hfits : x.fits) (hs : stepClient policy w t b s x = some (s', y)) :
    Joined w (Function.update l t (some y)) := by
  intro u z hz d hd
  rcases update_eq_some hz with ⟨_, ho⟩ | ⟨_, hz⟩
  · obtain rfl := Option.some.inj ho
    exact (stepClient_joined hs hfits hd).elim (h t x hx d) id
  · exact h u z hz d hd

theorem Joined.setClient {o : Option (Client P n)} (h : Joined w l)
    (ho : ∀ x, o = some x → x.joined = 0) : Joined w (Function.update l t o) := by
  intro u z hz d hd
  rcases update_eq_some hz with ⟨_, he⟩ | ⟨_, hz⟩
  · rw [ho z he] at hd
    exact (Nat.not_lt_zero _ hd).elim
  · exact h u z hz d hd

omit [DecidableEq Tid] in
theorem stepClient_deques {policy : WorkStealingRejectPolicy} {x y : Client P n}
    (hs : stepClient policy w t b s x = some (s', y)) : s'.deques = s.deques := by
  have hstep := stepClient_cases hs
  cases hstep with
  | queue => rfl
  | turn ht => exact ht.deques

end Kept

/-! ## The containers of the source -/

section Real

variable [Inhabited α] {r : Ring}

/-- A worker's own deque is empty from the time when its last scan has passed it. -/
structure Cleared (s : Shared (Parts.real (Job α) r) n Tid)
    (w : Fin n → Worker (Parts.real (Job α) r) n) : Prop where
  passed : ∀ d, (w d).passed d = true →
    (Parts.real (Job α) r).bottom (s.deques d) ≤ (Parts.real (Job α) r).top (s.deques d)
  loaded : ∀ d t, w d = .exitScan (.bottom d t) → t ≤ (Parts.real (Job α) r).top (s.deques d)

section Cleared

variable {s s' : Shared (Parts.real (Job α) r) n Tid}
  {w w' : Fin n → Worker (Parts.real (Job α) r) n} {i : Fin n} {b : Bool}

theorem stepWorker_deques {y : Worker (Parts.real (Job α) r) n}
    (ha : ∀ d, WorkStealingDeque.Inv r d (s.deques d) (onDeque w d))
    (hs : stepWorker i b s (w i) = some (s', y)) (d : Fin n) :
    (Parts.real (Job α) r).top (s.deques d) ≤ (Parts.real (Job α) r).top (s'.deques d) ∧
      (d ≠ i → (Parts.real (Job α) r).bottom (s'.deques d) =
        (Parts.real (Job α) r).bottom (s.deques d)) := by
  have hstep := stepWorker_cases hs
  generalize hx : w i = x at hstep
  cases hstep with
  | queue => exact ⟨le_rfl, fun _ => rfl⟩
  | @deque f at_ a hrun hr =>
    by_cases hf : d = f
    · subst hf
      have hme : onDeque w d i = some a := by rw [onDeque, hx, hrun.deque, if_pos rfl]
      have hself : (s.setDeque d ((Parts.real (Job α) r).deque.step b (s.deques d) a).1).deques d =
          ((Parts.real (Job α) r).deque.step b (s.deques d) a).1 := Function.update_self ..
      rw [hself]
      exact ⟨WorkStealingDeque.top_le_step b,
        fun hd => WorkStealingDeque.bottom_step (ha d) hme (Ne.symm hd) b⟩
    · have hother : (s.setDeque f ((Parts.real (Job α) r).deque.step b (s.deques f) a).1).deques d =
          s.deques d := Function.update_of_ne hf ..
      rw [hother]
      exact ⟨le_rfl, fun _ => rfl⟩
  | turn ht =>
    rw [ht.deques]
    exact ⟨le_rfl, fun _ => rfl⟩

theorem Cleared.worker {y : Worker (Parts.real (Job α) r) n}
    (ha : ∀ d, WorkStealingDeque.Inv r d (s.deques d) (onDeque w d)) (h : Cleared s w)
    (hs : stepWorker i b s (w i) = some (s', y)) : Cleared s' (Function.update w i y) where
  passed d hd := by
    obtain ⟨htop, hbottom⟩ := stepWorker_deques ha hs d
    by_cases hdi : d = i
    · subst hdi
      rw [Function.update_self] at hd
      obtain ⟨_, hdeques, hexit⟩ := stepWorker_exit hs (Worker.leaving_of_passed hd)
      rw [hdeques]
      rcases hexit.passed hd with hold | ⟨t, hx, hle⟩
      · exact h.passed d hold
      · exact hle.trans (h.loaded d t hx)
    · rw [Function.update_of_ne hdi] at hd
      rw [hbottom hdi]
      exact (h.passed d hd).trans htop
  loaded d t hd := by
    by_cases hdi : d = i
    · subst hdi
      rw [Function.update_self] at hd
      subst hd
      obtain ⟨_, hdeques, hexit⟩ := stepWorker_exit hs rfl
      rw [hdeques]
      exact hexit.loaded.le
    · rw [Function.update_of_ne hdi] at hd
      exact (h.loaded d t hd).trans (stepWorker_deques ha hs d).1

theorem Cleared.wake (h : Cleared s w) (hw : Woken Worker.sleeping Worker.wake w w') :
    Cleared s w' where
  passed d hd := by
    refine h.passed d ?_
    rw [← hd]
    exact (Woken.congr (f := Worker.passed d) hw (fun x hx => by cases x <;> first | rfl | cases hx)
      d).symm
  loaded d t hd := by
    rcases hw d with he | ⟨_, he⟩
    · exact h.loaded d t (he ▸ hd)
    · rw [he] at hd
      cases hd

theorem Cleared.congr (h : Cleared s w) (hdeques : s'.deques = s.deques) : Cleared s' w where
  passed d hd := by
    rw [hdeques]
    exact h.passed d hd
  loaded d t hd := by
    rw [hdeques]
    exact h.loaded d t hd

end Cleared

/-- A push claims its position only while some worker has not turned to leave. -/
def InTime (c : State (Parts.real (Job α) r) n Tid) : Action α n Tid → Prop
  | .client t spurious _ => ∀ path j item pos,
    c.clients t = some (.push path j (LockFreeQueue.Local.pushClaim item pos)) →
      (Parts.real (Job α) r).tail c.shared.incoming = pos → spurious = false →
        ∃ i, (c.workers i).leaves ((Parts.real (Job α) r).head c.shared.incoming) = false
  | _ => True

/-- Every accepted task has been executed, and the containers are empty. -/
structure Emptied (c : State (Parts.real (Job α) r) n Tid) : Prop where
  executed : ∀ j ∈ c.shared.accepted, j ∈ c.shared.executed
  incoming : LockFreeQueue.empty ((Parts.real (Job α) r).tail c.shared.incoming)
    ((Parts.real (Job α) r).head c.shared.incoming) = true
  deques : ∀ d, WorkStealingDeque.empty ((Parts.real (Job α) r).top (c.shared.deques d))
    ((Parts.real (Job α) r).bottom (c.shared.deques d)) = true
  stored : c.shared.stored (Ledgers.real α r) = 0

section Draining

variable [Fintype Tid]

/-- What is kept until the pool is drained. -/
structure Draining (c : State (Parts.real (Job α) r) n Tid) : Prop where
  sound : Sound (Ledgers.real α r) (LockFreeQueue.Used r (Sum.isRight : Fin n ⊕ Tid → Bool))
    (fun d => WorkStealingDeque.Inv r d) c.shared c.workers c.clients
  counted : Counted c.shared c.workers c.clients
  inFlight : InFlight c.shared c.clients
  joined : Joined c.workers c.clients
  cleared : Cleared c.shared c.workers
  received : Received c.shared c.workers

theorem draining_initial : Draining (initial (Parts.real (Job α) r) n Tid) where
  sound := sound_real r
  counted := counted_initial
  inFlight := inFlight_initial
  joined t x hx := by cases hx
  cleared := { passed := fun d hd => by cases hd
               loaded := fun d t hd => by cases hd }
  received := .inr le_rfl

theorem Draining.emptied {c : State (Parts.real (Job α) r) n Tid} (h : Draining c)
    (hexited : ∀ i, c.workers i = .exited) : Emptied c := by
  have hincoming : (Parts.real (Job α) r).tail c.shared.incoming ≤
      (Parts.real (Job α) r).head c.shared.incoming := by
    rcases h.received with ⟨i, hi⟩ | hle
    · rw [hexited i] at hi
      cases hi
    · exact hle
  have hdeques : ∀ d, (Parts.real (Job α) r).bottom (c.shared.deques d) ≤
      (Parts.real (Job α) r).top (c.shared.deques d) := fun d => by
    apply h.cleared.passed d
    rw [hexited d]
    rfl
  have hnone : ∀ d i, onDeque c.workers d i = none := fun d i => by
    rw [onDeque, hexited i]
    rfl
  have HR : Readable (Ledgers.real α r) (LockFreeQueue.Used r (Sum.isRight : Fin n ⊕ Tid → Bool))
      (fun d => WorkStealingDeque.Inv r d) WorkStealingDeque.reaches := readable_real r
  have hqueue : (Ledgers.real α r).queue.stored c.shared.incoming = 0 :=
    HR.queue h.sound.access.queue hincoming
  have hstored : ∀ d, (Ledgers.real α r).deque.stored (c.shared.deques d) = 0 := fun d =>
    HR.deque (h.sound.access.deque d)
      (fun i x hx => absurd (hx.symm.trans (hnone d i)) (Option.some_ne_none x)) (hdeques d)
  have hhand : ∀ i, (c.workers i).hand (Ledgers.real α r) c.shared.incoming c.shared.deques i = 0 :=
    fun i => by
      rw [hexited i]
      rfl
  refine ⟨fun j hj => ?_, decide_eq_true (Int.ofNat_le.mpr hincoming),
    fun d => WorkStealingDeque.empty_iff.mpr (hdeques d), ?_⟩
  · classical
    have hplaces := (h.sound.balanced.conserves (lawful_real r)).accepted j (.inl hj)
    unfold places at hplaces
    rw [hqueue, Finset.sum_eq_zero fun d _ => by rw [hstored d]; rfl,
      Finset.sum_eq_zero fun i _ => by rw [hhand i]; rfl] at hplaces
    refine List.count_pos_iff.mp ?_
    rw [Multiset.count_zero] at hplaces
    omega
  · unfold Shared.stored
    rw [hqueue, Finset.sum_eq_zero fun d _ => hstored d, add_zero]

variable [DecidableEq Tid]

omit [Fintype Tid] in
/-- A step of a thread keeps the queue received, if its claim is in time. -/
theorem Received.client {policy : WorkStealingRejectPolicy} {s s' : Shared (Parts.real (Job α) r) n Tid}
    {w : Fin n → Worker (Parts.real (Job α) r) n}
    {l : Tid → Option (Client (Parts.real (Job α) r) n)} {t : Tid} {b : Bool}
    {x y : Client (Parts.real (Job α) r) n} (hkinds : Kinds s.incoming (onQueue w l))
    (h : Received s w) (hok : ∀ wakes, InTime ⟨s, w, l⟩ (.client t b wakes)) (hx : l t = some x)
    (hs : stepClient policy w t b s x = some (s', y)) : Received s' w := by
  have hstep := stepClient_cases hs
  unfold Received
  rw [((positions_real r).client hkinds hx hstep).1]
  cases hstep with
  | @queue path j a hr =>
    rcases LockFreeQueue.tail_step (r := r) (s := s.incoming) (x := a) b with
      hsame | ⟨item, pos, rfl, htail, hb⟩
    · exact h.imp_right fun hle => hsame.le.trans hle
    · exact .inl (hok none path j item pos hx htail hb)
  | turn ht =>
    rw [ht.incoming]
    exact h

theorem Draining.next {policy : WorkStealingRejectPolicy} (h2 : 2 ≤ r.size)
    {c c' : State (Parts.real (Job α) r) n Tid} {a : Action α n Tid} (h : Draining c)
    (hok : InTime c a) (hn : WorkStealingThreadPool.next policy c a = some c') : Draining c' := by
  have HK : (Ledgers.real α r).Custody (LockFreeQueue.Used r (Sum.isRight : Fin n ⊕ Tid → Bool))
      fun d => WorkStealingDeque.Inv r d := custody_real h2
  have hkinds : Kinds c.shared.incoming (onQueue c.workers c.clients) := h.sound.access.queue.2
  have hsound := h.sound.next HK hn
  have hcounted := h.counted.next hn
  have hinFlight := h.inFlight.next h.counted hn
  cases a with
  | call t op =>
    obtain ⟨_, rfl⟩ := next_call hn
    refine ⟨hsound, hcounted, hinFlight, h.joined.setClient fun x hx => ?_, h.cleared.congr rfl,
      h.received⟩
    cases op <;> cases hx <;> rfl
  | ret t =>
    obtain ⟨_, _, rfl⟩ := next_ret hn
    refine ⟨hsound, hcounted, hinFlight, h.joined.setClient fun x hx => ?_, h.cleared, h.received⟩
    cases hx
  | worker i b wakes =>
    obtain ⟨s, y, l, hs, hl, rfl⟩ := next_worker hn
    exact ⟨hsound, hcounted, hinFlight, (h.joined.worker hs).wake Woken.refl (woken_wakeProducers hl),
      h.cleared.worker h.sound.access.deque hs, h.received.worker (positions_real r) hkinds hs⟩
  | client t b wakes =>
    obtain ⟨x, s, y, w, hx, hs, hw, rfl⟩ := next_client hn
    have hwoken := woken_wakeWorkers hw
    exact ⟨hsound, hcounted, hinFlight,
      (h.joined.client hx (h.inFlight.fits t x hx) hs).wake hwoken (woken_wakeAllProducers x _).update,
      (h.cleared.congr (stepClient_deques hs)).wake hwoken,
      (h.received.client hkinds (fun _ => hok) hx hs).wake hwoken⟩
  | spuriousWorker i =>
    obtain ⟨hs, rfl⟩ := next_spuriousWorker hn
    have hwoken : Woken Worker.sleeping Worker.wake c.workers _ := woken_update hs
    exact ⟨hsound, hcounted, hinFlight, h.joined.wake hwoken Woken.refl, h.cleared.wake hwoken,
      h.received.wake hwoken⟩
  | spuriousClient t =>
    obtain ⟨hs, rfl⟩ := next_spuriousClient hn
    exact ⟨hsound, hcounted, hinFlight, h.joined.wake Woken.refl (woken_update hs), h.cleared,
      h.received⟩

end Draining

/-- **The pool is drained when every push is in time**: then `shutdown()` leaves no task behind, as long
as the positions fit. -/
theorem emptied_of_inTime [Fintype Tid] [DecidableEq Tid] (num_threads : ℕ) (h2 : 2 ≤ r.size)
    (policy : WorkStealingRejectPolicy)
    (c : State (Parts.real (Job α) r) (numThreads num_threads) Tid)
    (h : (system policy).ReachWithin (fun c => c.shared.Fits) InTime (initial _ _ Tid) c) {t : Tid}
    (hdone : c.clients t = some (.done .stopped)) : Emptied c := by
  have hkept : Draining c := System.Reach.invariant (I := Draining) h.reach draining_initial
    fun _ _ _ hi hok hn => hi.next h2 hok hn
  exact hkept.emptied fun i => hkept.joined t _ hdone i i.isLt

end Real

/-! ## One submission and one shutdown -/

/-- A thread loads `stop_` in `submit`, and then another one sets it in `shutdown()`. -/
def stopAfterTest : List (Action ℕ 1 (Fin 2)) :=
  List.flatten [[.call 0 (.submit 7)], Action.clients 0 2, [.call 1 .shutdown], Action.clients 1 6]

/-- The submission pushes before the worker turns to leave. -/
def pushInTime : List (Action ℕ 1 (Fin 2)) :=
  List.flatten [stopAfterTest, Action.clients 0 9, Action.workers 0 49, Action.clients 1 3]

/-- It pushes after the worker has left. -/
def pushTooLate : List (Action ℕ 1 (Fin 2)) :=
  List.flatten [stopAfterTest, Action.workers 0 13, Action.clients 0 9, Action.clients 1 3]

/-- The worker has not turned to leave when a push makes a step. -/
def workerStays (c : State (Parts.real (Job ℕ) Ring.two) 1 (Fin 2)) : Action ℕ 1 (Fin 2) → Bool
  | .client t _ _ =>
    match c.clients t with
    | some (.push _ _ _) =>
      !(c.workers 0).leaves ((Parts.real (Job ℕ) Ring.two).head c.shared.incoming)
    | _ => true
  | _ => true

theorem inTime_of_workerStays {c : State (Parts.real (Job ℕ) Ring.two) 1 (Fin 2)}
    {a : Action ℕ 1 (Fin 2)} (h : workerStays c a = true) : InTime c a := by
  cases a with
  | client t spurious wakes =>
    intro path j item pos hx _ _
    refine ⟨0, ?_⟩
    simp only [workerStays, hx] at h
    exact (Bool.not_eq_true' _).mp h
  | _ => trivial

theorem emptied_of_inTime_pushInTime :
    ∃ c : State (Parts.real (Job ℕ) Ring.two) (numThreads 1) (Fin 2),
      c.clients 1 = some (.done .stopped) ∧ c.shared.accepted.length = 1 ∧ Emptied c := by
  have hrun : ((system .block).runWhile (fun c a => c.shared.Fits ∧ workerStays c a = true)
      (initial (Parts.real (Job ℕ) Ring.two) 1 (Fin 2)) pushInTime).map (fun c =>
        (c.shared.accepted.length, Client.result (c.clients 1), decide c.shared.Fits)) =
      some (1, some .stopped, true) := by decide +kernel
  obtain ⟨c, hc, hres⟩ := Option.map_eq_some_iff.mp hrun
  obtain ⟨haccepted, hres⟩ := Prod.mk.inj hres
  obtain ⟨hresult, hfits⟩ := Prod.mk.inj hres
  have hdone := Client.result_eq_some hresult
  refine ⟨c, hdone, haccepted, emptied_of_inTime 1 (by decide) .block c
    ⟨?_, of_decide_eq_true hfits⟩ hdone⟩
  exact (System.reach_of_runWhile hc).mono fun _ _ h => ⟨h.1, inTime_of_workerStays h.2⟩

/-- `submit` has returned normally and `shutdown()` has returned, but the task is still in the queue. -/
theorem exists_left : ∃ c : State (Parts.real (Job ℕ) Ring.two) (numThreads 1) (Fin 2),
    (system .block).Reachable (initial _ _ _) c ∧ c.clients 0 = some (.done .accepted) ∧
      c.clients 1 = some (.done .stopped) ∧ ⟨0, 7⟩ ∈ c.shared.accepted ∧
        ⟨0, 7⟩ ∉ c.shared.executed ∧
          LockFreeQueue.empty ((Parts.real (Job ℕ) Ring.two).tail c.shared.incoming)
            ((Parts.real (Job ℕ) Ring.two).head c.shared.incoming) = false := by
  have hrun : ((system .block).run (initial (Parts.real (Job ℕ) Ring.two) 1 (Fin 2))
      pushTooLate).map (fun c => ((Client.result (c.clients 0), Client.result (c.clients 1)),
        (c.shared.accepted, c.shared.executed),
        (Parts.real (Job ℕ) Ring.two).tail c.shared.incoming,
        (Parts.real (Job ℕ) Ring.two).head c.shared.incoming)) =
      some ((some .accepted, some .stopped), ([⟨0, 7⟩], []), 1, 0) := by decide +kernel
  obtain ⟨c, hc, hres⟩ := Option.map_eq_some_iff.mp hrun
  obtain ⟨hclients, hres⟩ := Prod.mk.inj hres
  obtain ⟨htasks, hqueue⟩ := Prod.mk.inj hres
  obtain ⟨hsubmit, hshutdown⟩ := Prod.mk.inj hclients
  obtain ⟨haccepted, hexecuted⟩ := Prod.mk.inj htasks
  obtain ⟨htail, hhead⟩ := Prod.mk.inj hqueue
  refine ⟨c, System.reachable_of_run hc, Client.result_eq_some hsubmit,
    Client.result_eq_some hshutdown, ?_, ?_, ?_⟩
  · rw [haccepted]
    exact List.mem_singleton_self _
  · rw [hexecuted]
    exact List.not_mem_nil
  · rw [htail, hhead]
    rfl

end LowLatency.WorkStealingThreadPool
