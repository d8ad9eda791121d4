import LowLatency.WorkStealingThreadPool.Basic

/-!
# How the pool uses its containers

Workers take tasks out of `incoming_`, the other threads put tasks into it, and a deque is used by
its worker as its owner and by all other workers as thieves. A step of the pool is an instruction of
one container, or a turn, in which a thread ends and begins operations without touching a container
and carries its task along (`stepWorker_cases`, `stepClient_cases`). So whatever the operations of a
container keep, the pool keeps (`Access`).
-/

namespace LowLatency.WorkStealingThreadPool

open Concurrency

universe u

variable {α : Type u} {P : Parts (Job α)} {n : ℕ} {Tid : Type*}

/-- The worker's operation on `incoming_`. -/
def Worker.onQueue : Worker P n → Option P.QL
  | .fillPop _ _ x => some x
  | _ => none

/-- The operation of worker `me` on deque `d`. -/
def Worker.onDeque (me d : Fin n) : Worker P n → Option P.DL
  | .popLocal x | .fillPush _ x => if d = me then some x else none
  | .steal step x => if d = Worker.target me step then some x else none
  | _ => none

/-- The thread's operation on `incoming_`. -/
def Client.onQueue : Option (Client P n) → Option P.QL
  | some (.push _ _ x) => some x
  | _ => none

/-- The operations in progress on `incoming_`. -/
def onQueue (w : Fin n → Worker P n) (l : Tid → Option (Client P n)) : Fin n ⊕ Tid → Option P.QL :=
  Sum.elim (fun i => (w i).onQueue) fun t => Client.onQueue (l t)

/-- The operations in progress on deque `d`. -/
def onDeque (w : Fin n → Worker P n) (d : Fin n) : Fin n → Option P.DL :=
  fun i => (w i).onDeque i d

/-- Workers pop and the other threads push. -/
def mayUse (n : ℕ) (Tid : Type*) : Fin n ⊕ Tid → LockFreeQueue.Op (Job α) → Bool :=
  LockFreeQueue.mayUse Sum.isRight

/-! ## What the threads have in their hands -/

/-- Where the containers have their items. `pushing j x` says of an operation on the queue that it
is a push of `j`. -/
structure Ledgers (P : Parts (Job α)) where
  queue : Ledger (Job α) P.QS P.QL
  deque : Ledger (Job α) P.DS P.DL
  pushing : Job α → P.QL → Prop

/-- Operations start with what they are given and end with what they report. -/
structure Ledgers.Lawful (K : Ledgers P) : Prop where
  startQueue : ∀ s op, K.queue.held s (P.queue.start op) = slot op.given
  startDeque : ∀ s op, K.deque.held s (P.deque.start op) = slot op.given
  resultQueue : ∀ {s x o}, P.queue.result x = some o → K.queue.held s x = slot o.item
  resultDeque : ∀ {s x o}, P.deque.result x = some o → K.deque.held s x = slot o.item
  startPush : ∀ j, K.pushing j (P.queue.start (.push j))
  stepPush : ∀ {j x} b s, K.pushing j x → K.pushing j (P.queue.step b s x).2
  heldPush : ∀ {j x} s, K.pushing j x → K.queue.held s x ≤ {j}

/-- The task that the worker has taken and not yet executed. -/
def Worker.hand (K : Ledgers P) (incoming : P.QS) (deques : Fin n → P.DS) (i : Fin n) :
    Worker P n → Multiset (Job α)
  | .popLocal x | .fillPush _ x => K.deque.held (deques i) x
  | .fillPop _ _ x => K.queue.held incoming x
  | .steal step x => K.deque.held (deques (Worker.target i step)) x
  | .busyAdd j _ | .execute j _ => {j}
  | _ => 0

namespace Client

/-- The task that the thread submits, until it is accepted or refused. -/
def job : Client P n → Option (Job α)
  | .submitEnter j | .enqueueStop j | .push _ j _ | .enqueueLock j | .lockedStop j | .waitingAdd j
  | .fullStop j | .fullTail j | .fullHead j _ | .fullSleep j | .fullAsleep j | .fullWoken j
  | .waitingSub j | .waitedStop j | .tryEnter j | .trySubmitStop j | .tryEnqueueStop j => some j
  | _ => none

/-- The same for a thread that may be outside of the pool. -/
def undecided : Option (Client P n) → Multiset (Job α)
  | some y => slot y.job
  | none => 0

/-- The task that the thread has not yet put into `incoming_`. -/
def hand (K : Ledgers P) (incoming : P.QS) : Option (Client P n) → Multiset (Job α)
  | some (.push _ _ x) => K.queue.held incoming x
  | o => undecided o

end Client

/-! ## The steps -/

/-- The worker's operations are finished. -/
structure Worker.Ends (i : Fin n) (x : Worker P n) : Prop where
  queue : ∀ a, x.onQueue = some a → ∃ r, P.queue.result a = some r
  deque : ∀ d a, x.onDeque i d = some a → ∃ r, P.deque.result a = some r

/-- The worker's operations have not run. -/
structure Worker.Begins (i : Fin n) (y : Worker P n) : Prop where
  queue : ∀ a, y.onQueue = some a → a = P.queue.start .pop
  deque : ∀ d a, y.onDeque i d = some a →
    ∃ op, WorkStealingDeque.may d i op = true ∧ a = P.deque.start op

/-- A step that leaves the containers and the history of the submissions. -/
structure Shared.Same (s s' : Shared P n Tid) : Prop where
  incoming : s'.incoming = s.incoming
  deques : s'.deques = s.deques
  issued : s'.issued = s.issued

/-- A worker's step that is no instruction of a container. -/
structure WorkerTurn (i : Fin n) (s s' : Shared P n Tid) (x y : Worker P n) : Prop
    extends s.Same s' where
  ends : x.Ends i
  begins : y.Begins i
  accepted : s'.accepted = s.accepted
  rejected : s'.rejected = s.rejected
  moves : ∀ K : Ledgers P, K.Lawful →
    y.hand K s.incoming s.deques i + (s'.executed : Multiset (Job α)) =
      x.hand K s.incoming s.deques i + s.executed

/-- A step of another thread that is no instruction of the queue. -/
structure ClientTurn (s s' : Shared P n Tid) (x y : Client P n) : Prop extends s.Same s' where
  ends : ∀ a, Client.onQueue (some x) = some a → ∃ r, P.queue.result a = some r
  /-- Whoever begins a push has found `stop_` clear. -/
  begins : ∀ a, Client.onQueue (some y) = some a →
    ∃ path j, y = .push path j a ∧ a = P.queue.start (.push j) ∧ s.stop = false
  executed : s'.executed = s.executed
  rejected : s.rejected <+: s'.rejected
  decides : Client.undecided (some y) + (s'.accepted : Multiset (Job α)) + s'.rejected =
    Client.undecided (some x) + s.accepted + s.rejected
  moves : ∀ K : Ledgers P, K.Lawful →
    (∀ path j a, x = .push path j a → K.pushing j a) →
    Client.hand K s.incoming (some y) + (s'.rejected : Multiset (Job α)) =
      Client.hand K s.incoming (some x) + s.rejected

section Cases

variable {i : Fin n} {t : Tid} {choice : Bool} {s s' : Shared P n Tid}

theorem lock_eq_some {me : Fin n ⊕ Tid} (h : s.lock me = some s') :
    s.mtx = none ∧ s' = { s with mtx := some me } := by
  unfold Shared.lock at h
  split at h
  next hm => exact ⟨hm, (Option.some.inj h).symm⟩
  · cases h

theorem map_lock_eq_some {β : Type*} {me : Fin n ⊕ Tid} {y z : β}
    (h : (s.lock me).map (fun s' => (s', y)) = some (s', z)) :
    s.mtx = none ∧ s' = { s with mtx := some me } ∧ z = y := by
  obtain ⟨s₁, hlock, he⟩ := Option.map_eq_some_iff.mp h
  cases he
  obtain ⟨hm, rfl⟩ := lock_eq_some hlock
  exact ⟨hm, rfl, rfl⟩

namespace Worker

/-- Outside of operations there is nothing to end or begin. -/
theorem ends_of_idle {x : Worker P n} (hq : x.onQueue = none) (hd : ∀ d, x.onDeque i d = none) :
    x.Ends i where
  queue a ha := (Option.some_ne_none a (ha.symm.trans hq)).elim
  deque d a ha := (Option.some_ne_none a (ha.symm.trans (hd d))).elim

/-- A program point that a turn may lead to, with the tasks that the worker has there. -/
structure Enters (i : Fin n) (y : Worker P n) (jobs : Multiset (Job α)) : Prop where
  begins : y.Begins i
  hand : ∀ (K : Ledgers P) q d, K.Lawful → y.hand K q d i = jobs

theorem enters_of_idle {y : Worker P n} {jobs : Multiset (Job α)} (hq : y.onQueue = none)
    (hd : ∀ d, y.onDeque i d = none)
    (hjobs : ∀ (K : Ledgers P) q d, y.hand K q d i = jobs) : y.Enters i jobs where
  begins :=
    { queue := fun a ha => (Option.some_ne_none a (ha.symm.trans hq)).elim
      deque := fun d a ha => (Option.some_ne_none a (ha.symm.trans (hd d))).elim }
  hand K q d _ := hjobs K q d

theorem enters_fillPop (k : ℕ) (any : Bool) :
    (Worker.fillPop k any (P.queue.start .pop) : Worker P n).Enters i 0 where
  begins :=
    { queue := fun a ha => (Option.some.inj ha).symm
      deque := fun d a ha => by cases ha }
  hand _ _ _ hK := hK.startQueue _ _

theorem begins_own {y : Worker P n} {op : WorkStealingDeque.Op (Job α)} (hq : y.onQueue = none)
    (hd : ∀ d, y.onDeque i d = if d = i then some (P.deque.start op) else none) : y.Begins i where
  queue a ha := (Option.some_ne_none a (ha.symm.trans hq)).elim
  deque d a ha := by
    rw [hd] at ha
    split at ha
    next hdi =>
      refine ⟨op, ?_, (Option.some.inj ha).symm⟩
      cases op <;> first | rfl | exact decide_eq_true hdi.symm
    · cases ha

theorem enters_loop : (Worker.loop : Worker P n).Enters i 0 where
  begins := begins_own rfl fun _ => rfl
  hand _ _ _ hK := hK.startDeque _ _

theorem enters_fillPush (k : ℕ) (j : Job α) :
    (Worker.fillPush k (P.deque.start (.push j)) : Worker P n).Enters i {j} where
  begins := begins_own rfl fun _ => rfl
  hand _ _ _ hK := hK.startDeque _ _

theorem enters_steal (step : ℕ) :
    (Worker.steal step (P.deque.start .steal) : Worker P n).Enters i 0 where
  begins :=
    { queue := fun a ha => by cases ha
      deque := fun d a ha => by
        simp only [onDeque] at ha
        split at ha
        · exact ⟨.steal, rfl, (Option.some.inj ha).symm⟩
        · cases ha }
  hand _ _ _ hK := hK.startDeque _ _

theorem enters_afterExecute (after : Option ℕ) :
    (Worker.afterExecute after : Worker P n).Enters i 0 :=
  afterExecute_induction (p := fun x => x.Enters i 0) enters_loop (fun _ => enters_fillPop _ _) after

theorem enters_fillNext (k : ℕ) : (Worker.fillNext k : Worker P n).Enters i 0 :=
  enters_afterExecute (some k)

/-- The worker runs `a` on deque `d` at the program points `at_ a`. -/
structure Runs (i d : Fin n) (at_ : P.DL → Worker P n) : Prop where
  queue : ∀ a, (at_ a).onQueue = none
  deque : ∀ e a, (at_ a).onDeque i e = if e = d then some a else none
  hand : ∀ (K : Ledgers P) q ds a, (at_ a).hand K q ds i = K.deque.held (ds d) a

theorem runs_popLocal : Runs i i (Worker.popLocal : P.DL → Worker P n) :=
  ⟨fun _ => rfl, fun _ _ => rfl, fun _ _ _ _ => rfl⟩

theorem runs_fillPush (k : ℕ) : Runs i i (Worker.fillPush k : P.DL → Worker P n) :=
  ⟨fun _ => rfl, fun _ _ => rfl, fun _ _ _ _ => rfl⟩

theorem runs_steal (step : ℕ) :
    Runs i (target i step) (Worker.steal step : P.DL → Worker P n) :=
  ⟨fun _ => rfl, fun _ _ => rfl, fun _ _ _ _ => rfl⟩

end Worker
/-- A worker's step is an instruction of `incoming_`, or of a deque, or a turn. -/
inductive WorkerStep (i : Fin n) (choice : Bool) (s : Shared P n Tid) :
    Worker P n → Shared P n Tid → Worker P n → Prop
  | queue {k : ℕ} {any : Bool} {a : P.QL} (ha : P.queue.result a = none) :
    WorkerStep i choice s (.fillPop k any a)
      { s with incoming := (P.queue.step choice s.incoming a).1 }
      (.fillPop k any (P.queue.step choice s.incoming a).2)
  | deque {d : Fin n} {at_ : P.DL → Worker P n} {a : P.DL} (hrun : Worker.Runs i d at_)
    (ha : P.deque.result a = none) :
    WorkerStep i choice s (at_ a) (s.setDeque d (P.deque.step choice (s.deques d) a).1)
      (at_ (P.deque.step choice (s.deques d) a).2)
  | turn {x y : Worker P n} {s' : Shared P n Tid} (h : WorkerTurn i s s' x y) :
    WorkerStep i choice s x s' y

/-- The same for the other threads, which use `incoming_` only. -/
inductive ClientStep (choice : Bool) (s : Shared P n Tid) :
    Client P n → Shared P n Tid → Client P n → Prop
  | queue {path : Path} {j : Job α} {a : P.QL} (ha : P.queue.result a = none) :
    ClientStep choice s (.push path j a)
      { s with incoming := (P.queue.step choice s.incoming a).1 }
      (.push path j (P.queue.step choice s.incoming a).2)
  | turn {x y : Client P n} {s' : Shared P n Tid} (h : ClientTurn s s' x y) :
    ClientStep choice s x s' y

/-- A turn to a program point at which the worker has the tasks it had before, or has executed
them. -/
theorem WorkerTurn.of_enters {x y : Worker P n} {jobs : Multiset (Job α)} (hsame : s.Same s')
    (hx : x.Ends i) (hy : y.Enters i jobs) (hacc : s'.accepted = s.accepted)
    (hrej : s'.rejected = s.rejected)
    (hjobs : ∀ K : Ledgers P, K.Lawful → jobs + (s'.executed : Multiset (Job α)) =
      x.hand K s.incoming s.deques i + s.executed) : WorkerTurn i s s' x y where
  toSame := hsame
  ends := hx
  begins := hy.begins
  accepted := hacc
  rejected := hrej
  moves K hK := by rw [hy.hand K _ _ hK, hjobs K hK]

/-- A worker that ends an operation on deque `d` has what the operation reports. -/
theorem Worker.Runs.turn {d : Fin n} {at_ : P.DL → Worker P n} (h : Worker.Runs i d at_) {a : P.DL}
    {o : Outcome (Job α)} {y : Worker P n} (ha : P.deque.result a = some o)
    (hy : y.Enters i (slot o.item)) : WorkerTurn i s s (at_ a) y := by
  refine .of_enters ⟨rfl, rfl, rfl⟩ ⟨fun b hb => ?_, fun e b hb => ?_⟩ hy rfl rfl fun K hK => ?_
  · exact (Option.some_ne_none b (hb.symm.trans (h.queue a))).elim
  · rw [h.deque] at hb
    split at hb
    · exact ⟨o, Option.some.inj hb ▸ ha⟩
    · cases hb
  · rw [h.hand, hK.resultDeque ha]

theorem stepWorker_cases {x y : Worker P n} (h : stepWorker i choice s x = some (s', y)) :
    WorkerStep i choice s x s' y := by
  -- a step from a point outside of operations
  have hidle : ∀ {x y : Worker P n} {s' : Shared P n Tid}, s.Same s' → x.onQueue = none →
      (∀ d, x.onDeque i d = none) → (∀ K q d, x.hand K q d i = 0) → y.Enters i 0 →
      s'.accepted = s.accepted → s'.rejected = s.rejected → s'.executed = s.executed →
      WorkerStep i choice s x s' y := by
    intro x y s' hsame hq hd hx hy hacc hrej hexec
    refine .turn (.of_enters hsame (Worker.ends_of_idle hq hd) hy hacc hrej fun K _ => ?_)
    rw [hx, hexec]
  have hplain : ∀ {y : Worker P n}, y.onQueue = none → (∀ d, y.onDeque i d = none) →
      (∀ K q d, y.hand K q d i = 0) → y.Enters i 0 :=
    fun hq hd hy => Worker.enters_of_idle hq hd hy
  cases x with
  | popLocal a =>
    simp only [stepWorker] at h
    split at h
    next ha =>
      cases h
      exact .deque Worker.runs_popLocal ha
    next o ha =>
      split at h <;> cases h
      next j hj =>
        refine .turn (Worker.runs_popLocal.turn ha ?_)
        rw [hj]
        exact Worker.enters_of_idle rfl (fun _ => rfl) fun _ _ _ => rfl
      next hj =>
        refine .turn (Worker.runs_popLocal.turn ha ?_)
        rw [hj]
        exact Worker.enters_fillPop _ _
  | fillPop k any a =>
    have hturn : ∀ {o : Outcome (Job α)} {y : Worker P n}, P.queue.result a = some o →
        y.Enters i (slot o.item) → WorkerTurn i s s (.fillPop k any a) y := by
      intro o y ha hy
      refine .of_enters ⟨rfl, rfl, rfl⟩ ⟨fun b hb => ⟨o, Option.some.inj hb ▸ ha⟩,
        fun d b hb => by cases hb⟩ hy rfl rfl fun K hK => ?_
      rw [Worker.hand, hK.resultQueue ha]
    simp only [stepWorker] at h
    split at h
    next ha =>
      cases h
      exact .queue ha
    next o ha =>
      split at h
      next j hj =>
        cases h
        refine .turn (hturn ha ?_)
        rw [hj]
        exact Worker.enters_fillPush k j
      next hj =>
        have hzero : slot o.item = 0 := slot_eq_zero.mpr hj
        split at h <;> cases h
        · exact .turn (hturn ha (hzero ▸ Worker.enters_loop))
        · exact .turn (hturn ha (hzero ▸ hplain rfl (fun _ => rfl) fun _ _ _ => rfl))
  | fillPush k a =>
    simp only [stepWorker] at h
    split at h
    next ha =>
      cases h
      exact .deque (Worker.runs_fillPush k) ha
    next o ha =>
      split at h <;> cases h
      next j hj =>
        refine .turn ((Worker.runs_fillPush k).turn ha ?_)
        rw [hj]
        exact Worker.enters_of_idle rfl (fun _ => rfl) fun _ _ _ => rfl
      next hj =>
        refine .turn ((Worker.runs_fillPush k).turn ha ?_)
        rw [hj]
        exact hplain rfl (fun _ => rfl) fun _ _ _ => rfl
  | steal step a =>
    simp only [stepWorker] at h
    split at h
    next ha =>
      cases h
      exact .deque (Worker.runs_steal step) ha
    next o ha =>
      split at h <;> cases h
      next j hj =>
        refine .turn ((Worker.runs_steal step).turn ha ?_)
        rw [hj]
        exact Worker.enters_of_idle rfl (fun _ => rfl) fun _ _ _ => rfl
      next hj =>
        refine .turn ((Worker.runs_steal step).turn ha ?_)
        rw [hj]
        exact hplain rfl (fun _ => rfl) fun _ _ _ => rfl
  | busyAdd j after =>
    cases h
    exact .turn (.of_enters ⟨rfl, rfl, rfl⟩ (Worker.ends_of_idle rfl fun _ => rfl)
      (Worker.enters_of_idle rfl (fun _ => rfl) fun _ _ _ => rfl) rfl rfl fun _ _ => rfl)
  | execute j after =>
    cases h
    refine .turn (.of_enters ⟨rfl, rfl, rfl⟩ (Worker.ends_of_idle rfl fun _ => rfl)
      (hplain rfl (fun _ => rfl) fun _ _ _ => rfl) rfl rfl fun K _ => ?_)
    rw [← Multiset.coe_add, zero_add, add_comm]
    rfl
  | fillLoadWaiting k =>
    simp only [stepWorker] at h
    split at h <;> cases h
    · exact hidle ⟨rfl, rfl, rfl⟩ rfl (fun _ => rfl) (fun _ _ _ => rfl)
        (hplain rfl (fun _ => rfl) fun _ _ _ => rfl) rfl rfl rfl
    · exact hidle ⟨rfl, rfl, rfl⟩ rfl (fun _ => rfl) (fun _ _ _ => rfl)
        (Worker.enters_fillNext k) rfl rfl rfl
  | fillNotify k =>
    cases h
    exact hidle ⟨rfl, rfl, rfl⟩ rfl (fun _ => rfl) (fun _ _ _ => rfl)
      (Worker.enters_fillNext k) rfl rfl rfl
  | stealNext step =>
    simp only [stepWorker] at h
    split at h
    · split at h <;> cases h
      · exact hidle ⟨rfl, rfl, rfl⟩ rfl (fun _ => rfl) (fun _ _ _ => rfl)
          (hplain rfl (fun _ => rfl) fun _ _ _ => rfl) rfl rfl rfl
      · exact hidle ⟨rfl, rfl, rfl⟩ rfl (fun _ => rfl) (fun _ _ _ => rfl)
          (Worker.enters_steal step) rfl rfl rfl
    · cases h
      exact hidle ⟨rfl, rfl, rfl⟩ rfl (fun _ => rfl) (fun _ _ _ => rfl)
        (hplain rfl (fun _ => rfl) fun _ _ _ => rfl) rfl rfl rfl
  | loadWaiting after =>
    simp only [stepWorker] at h
    split at h <;> cases h
    · exact hidle ⟨rfl, rfl, rfl⟩ rfl (fun _ => rfl) (fun _ _ _ => rfl)
        (hplain rfl (fun _ => rfl) fun _ _ _ => rfl) rfl rfl rfl
    · exact hidle ⟨rfl, rfl, rfl⟩ rfl (fun _ => rfl) (fun _ _ _ => rfl)
        (Worker.enters_afterExecute after) rfl rfl rfl
  | notifyNotFull after =>
    cases h
    exact hidle ⟨rfl, rfl, rfl⟩ rfl (fun _ => rfl) (fun _ _ _ => rfl)
      (Worker.enters_afterExecute after) rfl rfl rfl
  | lock | woken =>
    obtain ⟨_, rfl, rfl⟩ := map_lock_eq_some h
    exact hidle ⟨rfl, rfl, rfl⟩ rfl (fun _ => rfl) (fun _ _ _ => rfl)
      (hplain rfl (fun _ => rfl) fun _ _ _ => rfl) rfl rfl rfl
  | exitStop | exitScan | waitStop | waitScan =>
    simp only [stepWorker] at h
    split at h <;> cases h <;>
      exact hidle ⟨rfl, rfl, rfl⟩ rfl (fun _ => rfl) (fun _ _ _ => rfl)
        (hplain rfl (fun _ => rfl) fun _ _ _ => rfl) rfl rfl rfl
  | unlockContinue =>
    cases h
    exact hidle ⟨rfl, rfl, rfl⟩ rfl (fun _ => rfl) (fun _ _ _ => rfl)
      Worker.enters_loop rfl rfl rfl
  | asleep | exited => cases h
  | _ =>
    cases h
    exact hidle ⟨rfl, rfl, rfl⟩ rfl (fun _ => rfl) (fun _ _ _ => rfl)
      (hplain rfl (fun _ => rfl) fun _ _ _ => rfl) rfl rfl rfl

/-- After a push that has returned true, the thread has nothing left to submit. -/
theorem afterPut_eq (path : Path) : Client.onQueue (some (afterPut path : Client P n)) = none ∧
    (afterPut path : Client P n).job = none ∧
      ∀ K q, Client.hand K q (some (afterPut path : Client P n)) = 0 := by
  cases path <;> exact ⟨rfl, rfl, fun _ _ => rfl⟩

theorem stepClient_cases {policy : WorkStealingRejectPolicy} {w : Fin n → Worker P n}
    {x y : Client P n} (h : stepClient policy w t choice s x = some (s', y)) :
    ClientStep choice s x s' y := by
  -- a step from and to points outside of a push, with the same task
  have hidle : ∀ {x y : Client P n} {s' : Shared P n Tid}, s.Same s' →
      Client.onQueue (some x) = none → Client.onQueue (some y) = none → y.job = x.job →
      (∀ K q, Client.hand K q (some x) = slot x.job) →
      (∀ K q, Client.hand K q (some y) = slot y.job) → s'.accepted = s.accepted →
      s'.rejected = s.rejected → s'.executed = s.executed → ClientStep choice s x s' y := by
    intro x y s' hsame hx hy hjob hhx hhy hacc hrej hexec
    refine .turn { toSame := hsame, ends := ?_, begins := ?_, executed := hexec,
                   rejected := hrej ▸ List.prefix_refl _, decides := ?_, moves := ?_ }
    · exact fun a ha => (Option.some_ne_none a (ha.symm.trans hx)).elim
    · exact fun a ha => (Option.some_ne_none a (ha.symm.trans hy)).elim
    · rw [hacc, hrej, Client.undecided, Client.undecided, hjob]
    · intro K _ _
      rw [hhx, hhy, hjob, hrej]
  have hreject : ∀ {x y : Client P n} {j : Job α}, Client.onQueue (some x) = none →
      Client.onQueue (some y) = none → x.job = some j → y.job = none →
      (∀ K q, Client.hand K q (some x) = slot x.job) →
      (∀ K q, Client.hand K q (some y) = slot y.job) → ClientStep choice s x (s.reject j) y := by
    intro x y j hx hy hjx hjy hhx hhy
    refine .turn { toSame := ⟨rfl, rfl, rfl⟩, ends := ?_, begins := ?_, executed := rfl,
                   rejected := List.prefix_append _ _, decides := ?_, moves := ?_ }
    · exact fun a ha => (Option.some_ne_none a (ha.symm.trans hx)).elim
    · exact fun a ha => (Option.some_ne_none a (ha.symm.trans hy)).elim
    · rw [Client.undecided, Client.undecided, hjx, hjy, Shared.reject, ← Multiset.coe_add,
        slot_none, slot_some, zero_add, ← add_assoc, Multiset.coe_singleton]
      abel
    · intro K _ _
      rw [hhx, hhy, hjx, hjy, Shared.reject, ← Multiset.coe_add, slot_none, slot_some, zero_add,
        add_comm, Multiset.coe_singleton]
  have hbegin : ∀ {x : Client P n} {path : Path} {j : Job α}, Client.onQueue (some x) = none →
      x.job = some j → (∀ K q, Client.hand K q (some x) = slot x.job) → s.stop ≠ true →
      ClientStep choice s x s (.push path j (P.queue.start (.push j))) := by
    intro x path j hx hjob hhx hstop
    refine .turn { toSame := ⟨rfl, rfl, rfl⟩, ends := ?_, begins := ?_, executed := rfl,
                   rejected := List.prefix_refl _, decides := ?_, moves := ?_ }
    · exact fun a ha => (Option.some_ne_none a (ha.symm.trans hx)).elim
    · intro a ha
      exact ⟨path, j, congrArg (Client.push path j) (Option.some.inj ha),
        (Option.some.inj ha).symm, Bool.eq_false_of_not_eq_true hstop⟩
    · rw [Client.undecided, Client.undecided, hjob]
      rfl
    · intro K hK _
      rw [hhx, hjob, Client.hand, hK.startQueue]
      rfl
  cases x with
  | push path j a =>
    -- what a finished push of `j` holds is `j` or nothing
    have hheld : ∀ {o : Outcome (Job α)} (K : Ledgers P), K.Lawful → P.queue.result a = some o →
        (∀ path' j' a', (Client.push path j a : Client P n) = .push path' j' a' → K.pushing j' a') →
        slot o.item ≤ {j} := by
      intro o K hK ha hp
      rw [← hK.resultQueue ha]
      exact hK.heldPush s.incoming (hp path j a rfl)
    simp only [stepClient] at h
    split at h
    next ha =>
      cases h
      exact .queue ha
    next o ha =>
      split at h
      next j' hj =>
        have hsame : ∀ K : Ledgers P, K.Lawful →
            (∀ path' j' a', (Client.push path j a : Client P n) = .push path' j' a' → K.pushing j' a') →
            slot o.item = {j} := by
          intro K hK hp
          have hle := hheld K hK ha hp
          rw [hj, slot_some, Multiset.singleton_le, Multiset.mem_singleton] at hle
          rw [hj, hle, slot_some]
        cases path
        all_goals
          cases h
          refine .turn { toSame := ⟨rfl, rfl, rfl⟩, ends := fun b hb => ⟨o, Option.some.inj hb ▸ ha⟩,
                         begins := fun b hb => (by cases hb), executed := rfl,
                         rejected := ?_, decides := ?_, moves := fun K hK hp => ?_ }
        · exact List.prefix_refl _
        · rfl
        · rw [Client.hand, hK.resultQueue ha, hsame K hK hp]
          rfl
        · exact List.prefix_refl _
        · rfl
        · rw [Client.hand, hK.resultQueue ha, hsame K hK hp]
          rfl
        · exact List.prefix_append _ _
        · rw [Client.undecided, Client.undecided, Shared.reject, ← Multiset.coe_add]
          show 0 + (s.accepted : Multiset (Job α)) + (s.rejected + {j}) = {j} + s.accepted + s.rejected
          abel
        · rw [Client.hand, hK.resultQueue ha, hsame K hK hp, Shared.reject, ← Multiset.coe_add]
          show 0 + ((s.rejected : Multiset (Job α)) + {j}) = {j} + s.rejected
          abel
      next hj =>
        cases h
        obtain ⟨hq, hjob, hhand⟩ := afterPut_eq (P := P) (n := n) path
        refine .turn { toSame := ⟨rfl, rfl, rfl⟩, ends := fun b hb => ⟨o, Option.some.inj hb ▸ ha⟩,
                       begins := fun b hb => (Option.some_ne_none b (hb.symm.trans hq)).elim,
                       executed := rfl, rejected := List.prefix_refl _, decides := ?_,
                       moves := fun K hK hp => ?_ }
        · rw [Client.undecided, Client.undecided, hjob, ← Multiset.coe_add]
          show 0 + ((s.accepted : Multiset (Job α)) + {j}) + s.rejected = {j} + s.accepted + s.rejected
          abel
        · rw [hhand, Client.hand, hK.resultQueue ha, hj]
          rfl
  | enqueueStop j | tryEnqueueStop j | waitedStop j =>
    simp only [stepClient] at h
    split at h <;> cases h
    · first
        | exact hidle ⟨rfl, rfl, rfl⟩ rfl rfl rfl (fun _ _ => rfl) (fun _ _ => rfl) rfl rfl rfl
        | exact hreject rfl rfl rfl rfl (fun _ _ => rfl) fun _ _ => rfl
    next hstop => exact hbegin rfl rfl (fun _ _ => rfl) hstop
  | lockedStop j =>
    simp only [stepClient] at h
    split at h
    · cases h
      exact hreject rfl rfl rfl rfl (fun _ _ => rfl) fun _ _ => rfl
    next hstop =>
      cases policy <;> cases h
      · exact hbegin rfl rfl (fun _ _ => rfl) hstop
      all_goals exact hreject rfl rfl rfl rfl (fun _ _ => rfl) fun _ _ => rfl
  | trySubmitStop j =>
    simp only [stepClient] at h
    split at h <;> cases h
    · exact hreject rfl rfl rfl rfl (fun _ _ => rfl) fun _ _ => rfl
    · exact hidle ⟨rfl, rfl, rfl⟩ rfl rfl rfl (fun _ _ => rfl) (fun _ _ => rfl) rfl rfl rfl
  | enqueueLock | fullWoken | shutdownLock | idleLock | sizeLock =>
    obtain ⟨_, rfl, rfl⟩ := map_lock_eq_some h
    exact hidle ⟨rfl, rfl, rfl⟩ rfl rfl rfl (fun _ _ => rfl) (fun _ _ => rfl) rfl rfl rfl
  | fullStop | fullHead | loadIdle | shutdownTest | awaitSubmits | idleBusy | idleScan | sizeTop =>
    simp only [stepClient] at h
    split at h <;> cases h <;>
      exact hidle ⟨rfl, rfl, rfl⟩ rfl rfl rfl (fun _ _ => rfl) (fun _ _ => rfl) rfl rfl rfl
  | join k =>
    simp only [stepClient] at h
    split at h
    · split at h <;> cases h
      exact hidle ⟨rfl, rfl, rfl⟩ rfl rfl rfl (fun _ _ => rfl) (fun _ _ => rfl) rfl rfl rfl
    · cases h
      exact hidle ⟨rfl, rfl, rfl⟩ rfl rfl rfl (fun _ _ => rfl) (fun _ _ => rfl) rfl rfl rfl
  | fullAsleep | done => cases h
  | _ =>
    cases h
    exact hidle ⟨rfl, rfl, rfl⟩ rfl rfl rfl (fun _ _ => rfl) (fun _ _ => rfl) rfl rfl rfl

end Cases

/-! ## The actions -/

section Actions

variable [DecidableEq Tid] [Fintype Tid] {policy : WorkStealingRejectPolicy}
  {c c' : State P n Tid} {i : Fin n} {t : Tid} {choice : Bool}

theorem next_call {op : Op α} (h : next policy c (.call t op) = some c') :
    c.clients t = none ∧ c' =
      ⟨{ c.shared with issued := c.shared.issued ++ op.jobs c.shared.issued.length }, c.workers,
        Function.update c.clients t (some (.start c.shared.issued.length op))⟩ := by
  simp only [next] at h
  split at h
  next hnone => exact ⟨hnone, (Option.some.inj h).symm⟩
  · cases h

theorem next_ret (h : next policy c (.ret t) = some c') : ∃ r, c.clients t = some (.done r) ∧
    c' = ⟨c.shared, c.workers, Function.update c.clients t none⟩ := by
  simp only [next] at h
  split at h
  next r hdone => exact ⟨r, hdone, (Option.some.inj h).symm⟩
  · cases h

theorem next_worker {wakes : Option Tid} (h : next policy c (.worker i choice wakes) = some c') :
    ∃ s y l, stepWorker i choice c.shared (c.workers i) = some (s, y) ∧
      wakeProducers (c.workers i) wakes c.clients = some l ∧
        c' = ⟨s, Function.update c.workers i y, l⟩ := by
  obtain ⟨⟨s, y⟩, hs, h⟩ := Option.bind_eq_some_iff.mp h
  obtain ⟨l, hl, rfl⟩ := Option.map_eq_some_iff.mp h
  exact ⟨s, y, l, hs, hl, rfl⟩

theorem next_client {wakes : Option (Fin n)}
    (h : next policy c (.client t choice wakes) = some c') :
    ∃ x s y w, c.clients t = some x ∧
      stepClient policy c.workers t choice c.shared x = some (s, y) ∧
        wakeWorkers x wakes c.workers = some w ∧
          c' = ⟨s, w, Function.update (wakeAllProducers x c.clients) t (some y)⟩ := by
  obtain ⟨x, hx, h⟩ := Option.bind_eq_some_iff.mp h
  obtain ⟨⟨s, y⟩, hs, h⟩ := Option.bind_eq_some_iff.mp h
  obtain ⟨w, hw, rfl⟩ := Option.map_eq_some_iff.mp h
  exact ⟨x, s, y, w, hx, hs, hw, rfl⟩

theorem next_spuriousWorker (h : next policy c (.spuriousWorker i) = some c') :
    Worker.sleeping (c.workers i) = true ∧
      c' = ⟨c.shared, Function.update c.workers i (Worker.wake (c.workers i)), c.clients⟩ := by
  simp only [next] at h
  split at h
  next hs => exact ⟨hs, (Option.some.inj h).symm⟩
  · cases h

theorem next_spuriousClient (h : next policy c (.spuriousClient t) = some c') :
    Client.sleeping (c.clients t) = true ∧
      c' = ⟨c.shared, c.workers, Function.update c.clients t (Client.wake (c.clients t))⟩ := by
  simp only [next] at h
  split at h
  next hs => exact ⟨hs, (Option.some.inj h).symm⟩
  · cases h

theorem woken_wakeProducers {x : Worker P n} {wakes : Option Tid}
    {l l' : Tid → Option (Client P n)} (h : wakeProducers x wakes l = some l') :
    Woken Client.sleeping Client.wake l l' := by
  unfold wakeProducers at h
  split at h
  · exact woken_of_notifyOne h
  · exact woken_of_notifyOne h
  · exact Option.some.inj h ▸ Woken.refl

omit [DecidableEq Tid] [Fintype Tid] in
theorem woken_wakeWorkers {x : Client P n} {wakes : Option (Fin n)} {w w' : Fin n → Worker P n}
    (h : wakeWorkers x wakes w = some w') : Woken Worker.sleeping Worker.wake w w' := by
  unfold wakeWorkers at h
  split at h
  · exact woken_of_notifyOne h
  · exact Option.some.inj h ▸ woken_notifyAll
  · exact Option.some.inj h ▸ Woken.refl

omit [DecidableEq Tid] [Fintype Tid] in
theorem woken_wakeAllProducers (x : Client P n) (l : Tid → Option (Client P n)) :
    Woken Client.sleeping Client.wake l (wakeAllProducers x l) := by
  unfold wakeAllProducers
  split
  · exact woken_notifyAll
  · exact Woken.refl

/-- What a call, a return, the threads' own steps and waking up keep, every action keeps. -/
theorem next_induction {I : Shared P n Tid → (Fin n → Worker P n) → (Tid → Option (Client P n)) → Prop}
    (hwake : ∀ {s w w' l l'}, I s w l → Woken Worker.sleeping Worker.wake w w' →
      Woken Client.sleeping Client.wake l l' → I s w' l')
    (hcall : ∀ {s w l t} (op : Op α), I s w l → l t = none →
      I { s with issued := s.issued ++ op.jobs s.issued.length } w
        (Function.update l t (some (.start s.issued.length op))))
    (hret : ∀ {s w l t r}, I s w l → l t = some (.done r) → I s w (Function.update l t none))
    (hworker : ∀ {s s' w l i y} (b : Bool), I s w l → stepWorker i b s (w i) = some (s', y) →
      I s' (Function.update w i y) l)
    (hclient : ∀ {s s' w l t x y} (b : Bool), I s w l → l t = some x →
      stepClient policy w t b s x = some (s', y) → I s' w (Function.update l t (some y)))
    {a : Action α n Tid} (h : I c.shared c.workers c.clients) (hn : next policy c a = some c') :
    I c'.shared c'.workers c'.clients := by
  cases a with
  | call t op =>
    obtain ⟨hnone, rfl⟩ := next_call hn
    exact hcall op h hnone
  | ret t =>
    obtain ⟨r, hdone, rfl⟩ := next_ret hn
    exact hret h hdone
  | worker i choice wakes =>
    obtain ⟨s, y, l, hs, hl, rfl⟩ := next_worker hn
    exact hwake (hworker choice h hs) Woken.refl (woken_wakeProducers hl)
  | client t choice wakes =>
    obtain ⟨x, s, y, w, hx, hs, hw, rfl⟩ := next_client hn
    exact hwake (hclient choice h hx hs) (woken_wakeWorkers hw) (woken_wakeAllProducers x _).update
  | spuriousWorker i =>
    obtain ⟨hs, rfl⟩ := next_spuriousWorker hn
    exact hwake h (woken_update hs) Woken.refl
  | spuriousClient t =>
    obtain ⟨hs, rfl⟩ := next_spuriousClient hn
    exact hwake h Woken.refl (woken_update hs)

end Actions

/-! ## What the containers keep, the pool keeps -/

/-- The containers and the operations in progress on them satisfy their invariants. -/
structure Access (QInv : P.QS → (Fin n ⊕ Tid → Option P.QL) → Prop)
    (DInv : Fin n → P.DS → (Fin n → Option P.DL) → Prop) (s : Shared P n Tid)
    (w : Fin n → Worker P n) (l : Tid → Option (Client P n)) : Prop where
  queue : QInv s.incoming (onQueue w l)
  deque : ∀ d, DInv d (s.deques d) (onDeque w d)

section Locals

variable {w w' : Fin n → Worker P n} {l l' : Tid → Option (Client P n)} {i : Fin n} {t : Tid}

theorem onQueue_worker [DecidableEq Tid] (y : Worker P n) :
    onQueue (Function.update w i y) l = Function.update (onQueue w l) (.inl i) y.onQueue := by
  funext u
  rcases u with u | u
  · by_cases hu : u = i
    · subst hu
      simp [onQueue]
    · simp [onQueue, hu]
  · simp [onQueue]

theorem onQueue_client [DecidableEq Tid] (o : Option (Client P n)) :
    onQueue w (Function.update l t o) =
      Function.update (onQueue w l) (.inr t) (Client.onQueue o) := by
  funext u
  rcases u with u | u
  · simp [onQueue]
  · by_cases hu : u = t
    · subst hu
      simp [onQueue]
    · simp [onQueue, hu]

theorem onDeque_worker (y : Worker P n) (d : Fin n) :
    onDeque (Function.update w i y) d = Function.update (onDeque w d) i (y.onDeque i d) := by
  funext u
  by_cases hu : u = i
  · subst hu
    simp [onDeque]
  · simp [onDeque, hu]

theorem onQueue_woken (hw : Woken Worker.sleeping Worker.wake w w')
    (hl : Woken Client.sleeping Client.wake l l') : onQueue w' l' = onQueue w l := by
  funext u
  cases u with
  | inl i =>
    refine Woken.congr (f := Worker.onQueue) hw (fun x hx => ?_) i
    cases x <;> first | rfl | cases hx
  | inr t =>
    refine Woken.congr (f := Client.onQueue) hl (fun o ho => ?_) t
    cases o with
    | none => cases ho
    | some x => cases x <;> rfl

theorem onDeque_woken (hw : Woken Worker.sleeping Worker.wake w w') (d : Fin n) :
    onDeque w' d = onDeque w d := by
  funext i
  refine Woken.congr (f := Worker.onDeque i d) hw (fun x hx => ?_) i
  cases x <;> first | rfl | cases hx

end Locals

namespace Access

variable [DecidableEq Tid] {QInv : P.QS → (Fin n ⊕ Tid → Option P.QL) → Prop}
  {DInv : Fin n → P.DS → (Fin n → Option P.DL) → Prop} {s s' : Shared P n Tid}
  {w w' : Fin n → Worker P n} {l l' : Tid → Option (Client P n)} {i : Fin n} {t : Tid}
  {choice : Bool}

omit [DecidableEq Tid] in
theorem wake (h : Access QInv DInv s w l) (hw : Woken Worker.sleeping Worker.wake w w')
    (hl : Woken Client.sleeping Client.wake l l') : Access QInv DInv s w' l' where
  queue := onQueue_woken hw hl ▸ h.queue
  deque d := onDeque_woken hw d ▸ h.deque d

omit [DecidableEq Tid] in
/-- Whoever changes nothing of the containers keeps their invariants. -/
theorem congr (h : Access QInv DInv s w l) (hin : s'.incoming = s.incoming)
    (hdeques : s'.deques = s.deques) : Access QInv DInv s' w l where
  queue := hin ▸ h.queue
  deque d := hdeques ▸ h.deque d

variable (HQ : P.queue.Inductive (mayUse n Tid) (fun _ _ => True) QInv)
  (HD : ∀ d, P.deque.Inductive (WorkStealingDeque.may d) (fun _ _ => True) (DInv d))
include HQ HD

theorem worker {y : Worker P n} (h : Access QInv DInv s w l)
    (hs : WorkerStep i choice s (w i) s' y) :
    Access QInv DInv s' (Function.update w i y) l := by
  generalize hx : w i = x at hs
  cases hs with
  | @queue k any a ha =>
    constructor
    · rw [onQueue_worker]
      exact HQ.step choice h.queue (by simp [onQueue, hx, Worker.onQueue]) ha trivial
    · intro d
      have hsame : onDeque (Function.update w i (Worker.fillPop k any
          (P.queue.step choice s.incoming a).2)) d = onDeque w d := by
        rw [onDeque_worker]
        exact Function.update_eq_self_iff.mpr (by rw [onDeque, hx]; rfl)
      rw [hsame]
      exact h.deque d
  | @deque d at_ a hrun ha =>
    constructor
    · have hsame : onQueue (Function.update w i (at_ (P.deque.step choice (s.deques d) a).2)) l =
          onQueue w l := by
        rw [onQueue_worker]
        refine Function.update_eq_self_iff.mpr ?_
        rw [hrun.queue, onQueue, Sum.elim_inl, hx, hrun.queue]
      rw [hsame]
      exact h.queue
    · intro e
      rw [onDeque_worker, hrun.deque]
      by_cases he : e = d
      · subst he
        rw [if_pos rfl]
        have hstep := (HD e).step choice (h.deque e)
          (show onDeque w e i = some a by rw [onDeque, hx, hrun.deque, if_pos rfl]) ha trivial
        simpa [Shared.setDeque] using hstep
      · have hsame : Function.update (onDeque w e) i none = onDeque w e := by
          refine Function.update_eq_self_iff.mpr ?_
          rw [onDeque, hx, hrun.deque, if_neg he]
        rw [if_neg he, hsame]
        simpa [Shared.setDeque, he] using h.deque e
  | turn ht =>
    refine Access.congr ?_ ht.incoming ht.deques
    constructor
    · rw [onQueue_worker]
      refine HQ.turn h.queue (fun a ha => ?_) fun a ha => ⟨.pop, rfl, ht.begins.queue a ha⟩
      rw [onQueue, Sum.elim_inl, hx] at ha
      exact ht.ends.queue a ha
    · intro d
      rw [onDeque_worker]
      refine (HD d).turn (h.deque d) (fun a ha => ?_) fun a ha => ht.begins.deque d a ha
      rw [onDeque, hx] at ha
      exact ht.ends.deque d a ha

omit HD in
theorem client {x y : Client P n} (h : Access QInv DInv s w l) (hx : l t = some x)
    (hs : ClientStep choice s x s' y) :
    Access QInv DInv s' w (Function.update l t (some y)) := by
  cases hs with
  | @queue path j a ha =>
    refine ⟨?_, h.deque⟩
    rw [onQueue_client]
    exact HQ.step choice h.queue (by simp [onQueue, hx, Client.onQueue]) ha trivial
  | turn ht =>
    refine Access.congr ⟨?_, h.deque⟩ ht.incoming ht.deques
    rw [onQueue_client]
    refine HQ.turn h.queue (fun a ha => ?_) fun a ha => ?_
    · rw [onQueue, Sum.elim_inr, hx] at ha
      exact ht.ends a ha
    · obtain ⟨path, j, _, hstart, _⟩ := ht.begins a ha
      exact ⟨.push j, rfl, hstart⟩

omit HD in
theorem call {id : ℕ} {op : Op α} (h : Access QInv DInv s w l) (hl : l t = none) :
    Access QInv DInv s w (Function.update l t (some (.start id op))) := by
  refine ⟨?_, h.deque⟩
  rw [onQueue_client]
  refine HQ.turn h.queue (fun a ha => ?_) fun a ha => ?_
  · rw [onQueue, Sum.elim_inr, hl] at ha
    cases ha
  · cases op <;> cases ha

omit HD in
theorem ret {r : Result} (h : Access QInv DInv s w l) (hl : l t = some (.done r)) :
    Access QInv DInv s w (Function.update l t none) := by
  refine ⟨?_, h.deque⟩
  rw [onQueue_client]
  refine HQ.turn h.queue (fun a ha => ?_) fun a ha => by cases ha
  rw [onQueue, Sum.elim_inr, hl] at ha
  cases ha

/-- Every action keeps the invariants of the containers. -/
theorem next [Fintype Tid] {policy : WorkStealingRejectPolicy} {c c' : State P n Tid}
    {a : Action α n Tid} (h : Access QInv DInv c.shared c.workers c.clients)
    (hn : WorkStealingThreadPool.next policy c a = some c') :
    Access QInv DInv c'.shared c'.workers c'.clients := by
  refine next_induction (I := Access QInv DInv) (fun hi hw hl => hi.wake hw hl) ?_ ?_ ?_ ?_ h hn
  · exact fun op hi hl => (hi.call HQ hl).congr rfl rfl
  · exact fun hi hl => hi.ret HQ hl
  · exact fun b hi hs => hi.worker HQ HD (stepWorker_cases hs)
  · exact fun b hi hx hs => hi.client HQ hx (stepClient_cases hs)

end Access

/-- What the operations of `incoming_` keep, the pool keeps. -/
theorem queue_next [DecidableEq Tid] [Fintype Tid]
    {QInv : P.QS → (Fin n ⊕ Tid → Option P.QL) → Prop} {policy : WorkStealingRejectPolicy}
    {c c' : State P n Tid} {a : Action α n Tid}
    (HQ : P.queue.Inductive (mayUse n Tid) (fun _ _ => True) QInv)
    (h : QInv c.shared.incoming (onQueue c.workers c.clients)) (hn : next policy c a = some c') :
    QInv c'.shared.incoming (onQueue c'.workers c'.clients) := by
  have hdeque : ∀ d : Fin n, P.deque.Inductive (WorkStealingDeque.may d) (fun _ _ => True)
      fun _ _ => True := fun _ => ⟨fun _ _ _ => trivial, fun _ _ _ _ _ => trivial, fun _ _ _ => trivial⟩
  have hall : Access QInv (fun _ _ _ => True) c.shared c.workers c.clients := ⟨h, fun _ => trivial⟩
  exact (hall.next HQ hdeque hn).queue

end LowLatency.WorkStealingThreadPool
