import Mathlib.Data.Fintype.BigOperators
import LowLatency.LockFreeQueue.Published
import LowLatency.WorkStealingThreadPool.Counters
import LowLatency.WorkStealingThreadPool.Idle

/-!
# The metrics of the pool

`submitted_tasks_` is incremented after the push into `incoming_` has returned, and a worker may take
and run the task before that. So `completed_tasks_ + busy_workers_` is at most `submitted_tasks_` and
the submissions in between (`metrics_bounded`).

The proof counts positions, which a queue of one slot does as well: `tail_` counts the submissions
whose push has claimed, `head_` the tasks that the workers have taken (`Metered`).
-/

namespace LowLatency.WorkStealingThreadPool

open Concurrency

universe u

variable {α : Type u} {P : Parts (Job α)} {n : ℕ} {Tid : Type*}

/-- The submission has put its task into `incoming_` and not yet counted it. -/
def Client.uncounted : Client P n → ℕ
  | .push _ _ x =>
    match P.queue.result x with
    | some .put => 1
    | _ => 0
  | .submittedAdd _ | .lockedSubmittedAdd => 1
  | _ => 0

/-- The same from the claim of its position on. -/
def Client.entered (committed : P.QL → Bool) : Client P n → ℕ
  | .push _ _ x => if committed x then 1 else 0
  | .submittedAdd _ | .lockedSubmittedAdd => 1
  | _ => 0

/-! ## Steps -/

section Steps

variable {i : Fin n} {t : Tid} {b : Bool} {s s' : Shared P n Tid}

/-- What a worker's step does to the metrics. -/
structure WorkerMetrics (s s' : Shared P n Tid) (x y : Worker P n) : Prop where
  submitted : s'.submitted = s.submitted
  completed : s'.executed.length + s.completed + x.ran = s.executed.length + s'.completed + y.ran

theorem stepWorker_metrics {x y : Worker P n} (hs : stepWorker i b s x = some (s', y)) :
    WorkerMetrics s s' x y := by
  cases stepWorker_effect hs with
  | plain hs _ halike =>
    rw [hs]
    exact ⟨rfl, by rw [halike.ran]⟩
  | lock _ halike => exact ⟨rfl, by rw [halike.ran]⟩
  | unlock _ _ halike => exact ⟨rfl, by rw [halike.ran]; rfl⟩
  | execute =>
    refine ⟨rfl, ?_⟩
    rw [List.length_append, List.length_singleton]
    exact Nat.add_right_comm _ 1 _
  | _ => exact ⟨rfl, rfl⟩

/-- What a step of another thread does to them, outside of an instruction of its push. -/
structure ClientMetrics (committed : P.QL → Bool) (s s' : Shared P n Tid) (x y : Client P n) : Prop where
  completed : s'.completed = s.completed
  submitted : s'.submitted + y.entered committed = s.submitted + x.entered committed

theorem stepClient_metrics {committed : P.QL → Bool} {policy : WorkStealingRejectPolicy}
    {w : Fin n → Worker P n} {x y : Client P n}
    (hs : stepClient policy w t b s x = some (s', y))
    (hstart : ∀ j, committed (P.queue.start (.push j)) = false)
    (hpush : ∀ path j a, x = .push path j a → ∃ o, P.queue.result a = some o ∧
      (committed a = true ↔ o.item = none)) :
    ClientMetrics committed s s' x y := by
  have hbegin : ∀ path j, (Client.push path j (P.queue.start (.push j)) : Client P n).entered
      committed = 0 := fun path j => if_neg (Bool.eq_false_iff.mp (hstart j))
  have hquiet : ∀ {x y : Client P n} {s' : Shared P n Tid}, s'.completed = s.completed →
      s'.submitted = s.submitted → y.entered committed = x.entered committed →
      ClientMetrics committed s s' x y :=
    fun hcomp hsub hent => ⟨hcomp, by rw [hsub, hent]⟩
  cases x with
  | push path j a =>
    obtain ⟨o, ho, hcommitted⟩ := hpush path j a rfl
    simp only [stepClient, ho] at hs
    split at hs
    next k hk =>
      have hno : (Client.push path j a : Client P n).entered committed = 0 := by
        refine if_neg fun hc => ?_
        rw [hcommitted.mp hc] at hk
        cases hk
      cases path <;> cases hs <;> exact hquiet rfl rfl hno.symm
    next hk =>
      have hyes : (Client.push path j a : Client P n).entered committed = 1 :=
        if_pos (hcommitted.mpr hk)
      cases path <;> cases hs <;> exact hquiet rfl rfl hyes.symm
  | enqueueLock | fullWoken | shutdownLock | idleLock | sizeLock =>
    obtain ⟨_, rfl, rfl⟩ := map_lock_eq_some hs
    exact hquiet rfl rfl rfl
  | enqueueStop | tryEnqueueStop | waitedStop =>
    simp only [stepClient] at hs
    split at hs <;> cases hs
    · exact hquiet rfl rfl rfl
    · exact hquiet rfl rfl (hbegin _ _)
  | trySubmitStop | fullStop | fullHead | loadIdle | shutdownTest | awaitSubmits | idleBusy | idleScan
  | sizeTop =>
    simp only [stepClient] at hs
    split at hs <;> cases hs <;> exact hquiet rfl rfl rfl
  | lockedStop =>
    simp only [stepClient] at hs
    split at hs
    · cases hs
      exact hquiet rfl rfl rfl
    · cases policy <;> cases hs
      · exact hquiet rfl rfl (hbegin _ _)
      · exact hquiet rfl rfl rfl
      · exact hquiet rfl rfl rfl
  | join =>
    simp only [stepClient] at hs
    split at hs
    · split at hs <;> cases hs
      exact hquiet rfl rfl rfl
    · cases hs
      exact hquiet rfl rfl rfl
  | submittedAdd | lockedSubmittedAdd =>
    cases hs
    exact ⟨rfl, rfl⟩
  | fullAsleep | done => cases hs
  | _ =>
    cases hs
    exact hquiet rfl rfl rfl

end Steps

/-! ## The containers of the source -/

section Real

variable [Inhabited α] {r : Ring}

/-- The tasks that the worker has taken out of the containers and not yet counted in
`completed_tasks_`. -/
def Worker.load : Worker (Parts.real (Job α) r) n → ℕ
  | .popLocal x | .fillPush _ x | .steal _ x => (WorkStealingDeque.hold x).card
  | .fillPop _ _ x => LockFreeQueue.Local.popped x
  | .busyAdd _ _ | .execute _ _ | .busySub _ | .completedAdd _ => 1
  | _ => 0

/-- How many tasks the deques store. -/
def Shared.stock (s : Shared (Parts.real (Job α) r) n Tid) : ℕ :=
  ∑ d, ((WorkStealingDeque.ledger r).stored (s.deques d)).card

/-- Nothing is left to run: the queue and the deques are empty, and no worker has a task. -/
structure Drained (s : Shared (Parts.real (Job α) r) n Tid)
    (w : Fin n → Worker (Parts.real (Job α) r) n) : Prop where
  incoming : LockFreeQueue.empty ((Parts.real (Job α) r).tail s.incoming)
    ((Parts.real (Job α) r).head s.incoming) = true
  deques : s.stock = 0
  workers : ∀ i, (w i).load = 0

/-- What the queue keeps: workers pop and the other threads push, and pops take what pushes have
published. -/
def Counts (r : Ring) (q : LockFreeQueue.Shared (Job α))
    (l : Fin n ⊕ Tid → Option (LockFreeQueue.Local (Job α))) : Prop :=
  Kinds q l ∧ LockFreeQueue.Marked r q l

/-- The positions of `incoming_` count the submissions and the tasks that were taken. -/
structure Metered [Fintype Tid] (s : Shared (Parts.real (Job α) r) n Tid)
    (w : Fin n → Worker (Parts.real (Job α) r) n)
    (l : Tid → Option (Client (Parts.real (Job α) r) n)) : Prop where
  entered : (Parts.real (Job α) r).tail s.incoming =
    s.submitted + hands (Client.entered LockFreeQueue.Local.committed) l
  taken : (Parts.real (Job α) r).head s.incoming = s.completed + tally Worker.load w +
    s.stock

section Steps

variable {s s' : Shared (Parts.real (Job α) r) n Tid} {w : Fin n → Worker (Parts.real (Job α) r) n}
  {l : Tid → Option (Client (Parts.real (Job α) r) n)} {i : Fin n} {t : Tid} {b : Bool}

/-- Between operations, the load is what the worker has in its hands and what it has run. -/
theorem Worker.load_eq {x : Worker (Parts.real (Job α) r) n} {q : LockFreeQueue.Shared (Job α)}
    {d : Fin n → WorkStealingDeque.Shared (Job α)}
    (hq : ∀ a, x.onQueue = some a → LockFreeQueue.Local.isPush a = false ∧
      (a = LockFreeQueue.start .pop ∨ ∃ o, (Parts.real (Job α) r).queue.result a = some o)) :
    x.load = (x.hand (Ledgers.real α r) q d i).card + x.ran := by
  cases x with
  | fillPop k any a =>
    obtain ⟨hkind, rfl | ⟨o, ho⟩⟩ := hq a rfl
    · rfl
    · cases a with
      | done o' => cases o' <;> first | rfl | cases hkind
      | _ => cases ho
  | _ => rfl

theorem stock_setDeque {d : Fin n} {a : WorkStealingDeque.Local (Job α)}
    {k : Fin n → Option (WorkStealingDeque.Local (Job α))}
    (hinv : WorkStealingDeque.Inv r d (s.deques d) k) (ha : k i = some a) :
    (s.setDeque d (WorkStealingDeque.step r b (s.deques d) a).1).stock +
      (WorkStealingDeque.hold (WorkStealingDeque.step r b (s.deques d) a).2).card =
    s.stock + (WorkStealingDeque.hold a).card := by
  have hstep := congrArg Multiset.card (WorkStealingDeque.custody_step hinv ha b)
  rw [Multiset.card_add, Multiset.card_add] at hstep
  have hsum := sum_exchange
    (f := fun e => ((WorkStealingDeque.ledger r).stored (s.deques e)).card)
    (g := fun e => ((WorkStealingDeque.ledger r).stored ((s.setDeque d
      (WorkStealingDeque.step r b (s.deques d) a).1).deques e)).card) d fun e he =>
        congrArg (fun x => ((WorkStealingDeque.ledger r).stored x).card)
          (Function.update_of_ne he ..)
  have hself : (s.setDeque d (WorkStealingDeque.step r b (s.deques d) a).1).deques d =
      (WorkStealingDeque.step r b (s.deques d) a).1 := Function.update_self ..
  rw [hself] at hsum
  unfold Shared.stock
  omega

/-- A worker takes a task, or runs or counts one that it has taken. -/
theorem stepWorker_load {y : Worker (Parts.real (Job α) r) n}
    (ha : Access (Counts r) (fun d => WorkStealingDeque.Inv r d) s w l)
    (hs : stepWorker i b s (w i) = some (s', y)) :
    (Parts.real (Job α) r).head s'.incoming + s.completed + (w i).load + s.stock =
      (Parts.real (Job α) r).head s.incoming + s'.completed + y.load + s'.stock := by
  have hmetrics := (stepWorker_metrics hs).completed
  have hkind : ∀ a, (w i).onQueue = some a → LockFreeQueue.Local.isPush a = false :=
    fun a hq => ha.queue.1 (.inl i) a hq
  have hstep := stepWorker_cases hs
  generalize hx : w i = x at hstep hmetrics hkind
  cases hstep with
  | @queue k any a hr =>
    have hpop := LockFreeQueue.step_popped (r := r) (s := s.incoming) (x := a) b
    change (LockFreeQueue.step .exact r b s.incoming a).1.head + s.completed +
      LockFreeQueue.Local.popped a + s.stock = LockFreeQueue.Shared.head s.incoming + s.completed +
        LockFreeQueue.Local.popped (LockFreeQueue.step .exact r b s.incoming a).2 + s.stock
    omega
  | @deque d at_ a hrun hr =>
    have hme : onDeque w d i = some a := by rw [onDeque, hx, hrun.deque, if_pos rfl]
    have hstock := stock_setDeque (s := s) (b := b) (ha.deque d) hme
    have hload : ∀ a, (at_ a).load = (WorkStealingDeque.hold a).card + (at_ a).ran := by
      intro a
      have hnone : ∀ c, (at_ a).onQueue ≠ some c := by simp [hrun.queue]
      rw [Worker.load_eq (q := s.incoming) (d := s.deques) (i := i)
        fun c hc => absurd hc (hnone c), hrun.hand]
      rfl
    change LockFreeQueue.Shared.head s.incoming + s.completed + (at_ a).load + s.stock =
      LockFreeQueue.Shared.head s.incoming + s.completed +
        (at_ (WorkStealingDeque.step r b (s.deques d) a).2).load +
          (s.setDeque d (WorkStealingDeque.step r b (s.deques d) a).1).stock
    change s.executed.length + s.completed + (at_ a).ran = s.executed.length + s.completed +
      (at_ (WorkStealingDeque.step r b (s.deques d) a).2).ran at hmetrics
    have hnew := hload (WorkStealingDeque.step r b (s.deques d) a).2
    rw [hload a]
    omega
  | turn ht =>
    have hmoves := congrArg Multiset.card (ht.moves (Ledgers.real α r) (lawful_real r))
    rw [Multiset.card_add, Multiset.card_add, Multiset.coe_card, Multiset.coe_card] at hmoves
    have hloadx := Worker.load_eq (x := x) (q := s.incoming) (d := s.deques) (i := i)
      fun a hq => ⟨hkind a hq, .inr (ht.ends.queue a hq)⟩
    have hloady := Worker.load_eq (x := y) (q := s.incoming) (d := s.deques) (i := i)
      fun a hq => by
        obtain rfl := ht.begins.queue a hq
        exact ⟨rfl, .inl rfl⟩
    have hstock : s'.stock = s.stock := by
      unfold Shared.stock
      rw [ht.deques]
    rw [ht.incoming]
    omega

variable [DecidableEq Tid]

theorem stepClient_tail {policy : WorkStealingRejectPolicy} {x y : Client (Parts.real (Job α) r) n}
    (hkinds : Kinds s.incoming (onQueue w l)) (hx : l t = some x)
    (hs : stepClient policy w t b s x = some (s', y)) :
    (Parts.real (Job α) r).tail s'.incoming + s.submitted +
        x.entered LockFreeQueue.Local.committed =
      (Parts.real (Job α) r).tail s.incoming + s'.submitted +
        y.entered LockFreeQueue.Local.committed ∧
      (Parts.real (Job α) r).head s'.incoming = (Parts.real (Job α) r).head s.incoming ∧
      s'.completed = s.completed ∧ s'.stock = s.stock := by
  have hstep := stepClient_cases hs
  have hhead := ((positions_real r).client hkinds hx hstep).1
  cases hstep with
  | @queue path j a hr =>
    have hme : onQueue w l (.inr t) = some a := by rw [onQueue, Sum.elim_inr, hx]; rfl
    refine ⟨?_, hhead, rfl, rfl⟩
    rcases ((positions_real r).push b hkinds hme hr).2 with ⟨htail, hsame⟩ | ⟨htail, hno, hyes⟩
    · simp only [Client.entered, htail, hsame]
    · simp only [Client.entered, htail, hno, hyes, if_true]
      exact Nat.add_right_comm _ 1 _
  | turn ht =>
    have hput : ∀ path j a, x = .push path j a →
        ∃ o, (Parts.real (Job α) r).queue.result a = some o ∧
          (LockFreeQueue.Local.committed a = true ↔ o.item = none) := by
      rintro path j a rfl
      obtain ⟨o, ho⟩ := ht.ends a rfl
      have hpush : LockFreeQueue.Local.isPush a = true :=
        hkinds (.inr t) a (by rw [onQueue, Sum.elim_inr, hx]; rfl)
      refine ⟨o, ho, ?_⟩
      cases a with
      | done o' =>
        obtain rfl := Option.some.inj ho
        cases o' with
        | put | refused => simp [LockFreeQueue.Local.committed, Outcome.item]
        | _ => cases hpush
      | _ => cases ho
    have hmetrics : ClientMetrics LockFreeQueue.Local.committed s s' x y :=
      stepClient_metrics hs (fun _ => rfl) hput
    have hstock : s'.stock = s.stock := by
      unfold Shared.stock
      rw [ht.deques]
    refine ⟨?_, hhead, hmetrics.completed, hstock⟩
    rw [ht.incoming, add_assoc, add_assoc, hmetrics.submitted]

end Steps

/-! ## Every action -/

variable [Fintype Tid] {s s' : Shared (Parts.real (Job α) r) n Tid}
  {w w' : Fin n → Worker (Parts.real (Job α) r) n}
  {l l' : Tid → Option (Client (Parts.real (Job α) r) n)} {i : Fin n} {t : Tid} {b : Bool}

namespace Metered

theorem wake (h : Metered s w l) (hw : Woken Worker.sleeping Worker.wake w w')
    (hl : Woken Client.sleeping Client.wake l l') : Metered s w' l' where
  entered := by
    have hsame : hands (Client.entered LockFreeQueue.Local.committed) l' =
        hands (Client.entered LockFreeQueue.Local.committed) l :=
      tally_congr (Woken.congr (f := hand (Client.entered LockFreeQueue.Local.committed)) hl
        fun o ho => by
          cases o with
          | none => cases ho
          | some x => cases x <;> rfl)
    rw [hsame]
    exact h.entered
  taken := by
    rw [h.taken, tally_congr (Woken.congr (f := Worker.load) hw fun x hx => by
      cases x <;> first | rfl | cases hx)]

theorem worker [DecidableEq Tid] {y : Worker (Parts.real (Job α) r) n} (h : Metered s w l)
    (ha : Access (Counts r) (fun d => WorkStealingDeque.Inv r d) s w l)
    (hs : stepWorker i b s (w i) = some (s', y)) : Metered s' (Function.update w i y) l where
  entered := by
    rw [((positions_real r).worker ha.queue.1 (stepWorker_cases hs)).1,
      (stepWorker_metrics hs).submitted]
    exact h.entered
  taken := by
    have hload := tally_update Worker.load w i y
    have hstep := stepWorker_load ha hs
    have htaken := h.taken
    omega

variable [DecidableEq Tid]

theorem client {policy : WorkStealingRejectPolicy} {x y : Client (Parts.real (Job α) r) n}
    (h : Metered s w l) (hkinds : Kinds s.incoming (onQueue w l)) (hx : l t = some x)
    (hs : stepClient policy w t b s x = some (s', y)) :
    Metered s' w (Function.update l t (some y)) := by
  obtain ⟨htail, hhead, hcompleted, hstock⟩ := stepClient_tail hkinds hx hs
  constructor
  · have hup := hands_update (Client.entered LockFreeQueue.Local.committed) l t (some y)
    rw [hx] at hup
    simp only [hand] at hup
    have hentered := h.entered
    omega
  · rw [hhead, hcompleted, hstock]
    exact h.taken

theorem setClient {o : Option (Client (Parts.real (Job α) r) n)} (h : Metered s w l)
    (hold : hand (Client.entered LockFreeQueue.Local.committed) (l t) = 0)
    (hnew : hand (Client.entered LockFreeQueue.Local.committed) o = 0) :
    Metered s w (Function.update l t o) where
  entered := by
    have hup := hands_update (Client.entered LockFreeQueue.Local.committed) l t o
    rw [hold, hnew] at hup
    rw [h.entered]
    exact congrArg (s.submitted + ·) hup.symm
  taken := h.taken

end Metered

/-- The containers, the counters and the metrics. -/
structure Accounted [DecidableEq Tid] (s : Shared (Parts.real (Job α) r) n Tid)
    (w : Fin n → Worker (Parts.real (Job α) r) n)
    (l : Tid → Option (Client (Parts.real (Job α) r) n)) : Prop where
  access : Access (Counts r) (fun d => WorkStealingDeque.Inv r d) s w l
  counted : Counted s w l
  metered : Metered s w l

variable [DecidableEq Tid]

theorem Accounted.next {policy : WorkStealingRejectPolicy}
    {c c' : State (Parts.real (Job α) r) n Tid} {a : Action α n Tid}
    (h : Accounted c.shared c.workers c.clients) (hn : (system policy).next c a = some c') :
    Accounted c'.shared c'.workers c'.clients := by
  have HQ : (Parts.real (Job α) r).queue.Inductive (mayUse n Tid) (fun _ _ => True) (Counts r) :=
    (positions_real r).kept.and (LockFreeQueue.marked_inductive r _)
  have HD := fun d : Fin n => WorkStealingDeque.inv_inductive (α := Job α) r d
  refine ⟨h.access.next HQ HD hn, h.counted.next hn, ?_⟩
  have hboth : Access (Counts r) (fun d => WorkStealingDeque.Inv r d) c.shared c.workers c.clients ∧
      Metered c.shared c.workers c.clients := ⟨h.access, h.metered⟩
  refine (next_induction (I := fun s w l => Access (Counts r)
    (fun d => WorkStealingDeque.Inv r d) s w l ∧ Metered s w l) ?_ ?_ ?_ ?_ ?_ hboth hn).2
  · exact fun hi hw hl => ⟨hi.1.wake hw hl, hi.2.wake hw hl⟩
  · intro s w l t op hi hl
    have hset := hi.2.setClient (t := t) (o := some (.start s.issued.length op))
      (by rw [hl]; rfl) (by cases op <;> rfl)
    exact ⟨(hi.1.call HQ hl).congr rfl rfl, hset.entered, hset.taken⟩
  · intro s w l t r' hi hl
    exact ⟨hi.1.ret HQ hl, hi.2.setClient (by rw [hl]; rfl) rfl⟩
  · exact fun b hi hs => ⟨hi.1.worker HQ HD (stepWorker_cases hs), hi.2.worker hi.1 hs⟩
  · exact fun b hi hx hs => ⟨hi.1.client HQ hx (stepClient_cases hs),
      hi.2.client hi.1.queue.1 hx hs⟩

theorem accounted_initial (r : Ring) : Accounted (initial (Parts.real (Job α) r) n Tid).shared
    (initial (Parts.real (Job α) r) n Tid).workers (initial (Parts.real (Job α) r) n Tid).clients := by
  have hnone : onQueue (initial (Parts.real (Job α) r) n Tid).workers
      (initial (Parts.real (Job α) r) n Tid).clients = fun _ => none := by
    funext u
    cases u <;> rfl
  refine ⟨⟨?_, (sound_real r).access.deque⟩, counted_initial, ⟨?_, ?_⟩⟩
  · rw [hnone]
    exact ⟨fun u x hx => (Option.some_ne_none x hx.symm).elim, LockFreeQueue.marked_init r⟩
  · have hentered : hands (Client.entered LockFreeQueue.Local.committed)
        (initial (Parts.real (Job α) r) n Tid).clients = 0 := hands_eq_zero fun _ => rfl
    rw [hentered]
    rfl
  · have hstored : ∀ d : Fin n, (WorkStealingDeque.ledger r).stored
        ((initial (Parts.real (Job α) r) n Tid).shared.deques d) = 0 := fun d =>
      congrArg (Multiset.map Node.item) (bag_eq_zero.mpr fun _ _ => rfl)
    have hstock : (initial (Parts.real (Job α) r) n Tid).shared.stock = 0 :=
      Finset.sum_eq_zero fun d _ => by rw [hstored d]; rfl
    have hload : tally Worker.load (initial (Parts.real (Job α) r) n Tid).workers = 0 :=
      tally_eq_zero fun _ => rfl
    rw [hstock, hload]
    rfl

/-! ## The result -/

omit [DecidableEq Tid] in
/-- A submission that has claimed its position and not counted itself has published it, or not. -/
theorem hands_entered (w : Fin n → Worker (Parts.real (Job α) r) n)
    (l : Tid → Option (Client (Parts.real (Job α) r) n)) :
    hands (Client.entered LockFreeQueue.Local.committed) l ≤
      hands Client.uncounted l + hands LockFreeQueue.Local.publishing (onQueue w l) := by
  have hsplit : hands LockFreeQueue.Local.publishing (onQueue w l) =
      ∑ i, hand LockFreeQueue.Local.publishing (onQueue w l (.inl i)) +
        ∑ t, hand LockFreeQueue.Local.publishing (onQueue w l (.inr t)) :=
    Fintype.sum_sum_type _
  have hsum : hands (Client.entered LockFreeQueue.Local.committed) l = hands Client.uncounted l +
      ∑ t, hand LockFreeQueue.Local.publishing (onQueue w l (.inr t)) := by
    unfold hands
    rw [← Finset.sum_add_distrib]
    refine Finset.sum_congr rfl fun t _ => ?_
    rw [onQueue, Sum.elim_inr]
    cases l t with
    | none => rfl
    | some x =>
      cases x with
      | push path j a =>
        cases a with
        | done o => cases o <;> rfl
        | _ => rfl
      | _ => rfl
  omega

omit [Fintype Tid] [DecidableEq Tid] in
theorem Worker.busies_le_load (x : Worker (Parts.real (Job α) r) n) : x.busies ≤ x.load := by
  cases x <;> first | exact le_rfl | exact Nat.zero_le _

/-- **The counters stay behind the submissions**, and within their 64 bits, as long as the positions
fit. -/
theorem metrics_bounded (r : Ring) (policy : WorkStealingRejectPolicy)
    {c : State (Parts.real (Job α) r) n Tid}
    (h : (system policy).ReachWithin (fun c => c.shared.Fits) (fun _ _ => True)
      (initial _ _ Tid) c) :
    (c.shared.submitted < 2 ^ 63 ∧ c.shared.completed < 2 ^ 63) ∧
      c.shared.completed + c.shared.busy ≤
        c.shared.submitted + hands Client.uncounted c.clients ∧
      (Quiet c.clients → Drained c.shared c.workers → c.shared.completed = c.shared.submitted) := by
  have hacc := System.Reachable.invariant
    (I := fun c => Accounted c.shared c.workers c.clients) h.reach (accounted_initial r)
    fun _ _ _ hi hn => hi.next hn
  have hqueue := hacc.access.queue.2.head_add_hands_le
  have hentered := hacc.metered.entered
  have htaken := hacc.metered.taken
  have hhands := hands_entered c.workers c.clients
  change (Parts.real (Job α) r).head c.shared.incoming + _ ≤
    (Parts.real (Job α) r).tail c.shared.incoming at hqueue
  refine ⟨?_, ?_, fun hquiet hdrained => ?_⟩
  · have hfits : (Parts.real (Job α) r).tail c.shared.incoming + r.size < 2 ^ 63 := h.2.2.1
    exact ⟨by omega, by omega⟩
  · have hbusy : c.shared.busy ≤ tally Worker.load c.workers := by
      rw [hacc.counted.busy]
      exact Finset.sum_le_sum fun i _ => (c.workers i).busies_le_load
    omega
  · have hnone : hands (Client.entered LockFreeQueue.Local.committed) c.clients = 0 := by
      refine hands_eq_zero_of_hand fun t => ?_
      cases hx : c.clients t with
      | none => rfl
      | some x =>
        have hno := hquiet t x hx
        cases x <;> first | rfl | cases hno
    have hload : tally Worker.load c.workers = 0 := tally_eq_zero hdrained.workers
    have hstock := hdrained.deques
    have hempty := hdrained.incoming
    simp only [LockFreeQueue.empty, decide_eq_true_eq, Nat.cast_le] at hempty
    omega

end Real

/-! ## One task -/

/-- A thread submits a task and makes `a` steps in all, then the worker makes `b` steps. -/
def submitOne (a b : ℕ) : List (Action ℕ 1 (Fin 1)) :=
  [.call 0 (.submit 7)] ++ Action.clients 0 a ++ Action.workers 0 b

/-- Nothing is queued, held or counted in `busy_workers_`. -/
structure Idling (c : State (Parts.real (Job ℕ) Ring.two) 1 (Fin 1)) : Prop where
  incoming : LockFreeQueue.empty ((Parts.real (Job ℕ) Ring.two).tail c.shared.incoming)
    ((Parts.real (Job ℕ) Ring.two).head c.shared.incoming) = true
  deques : c.shared.stock = 0
  hand : ((c.workers 0).hand (Ledgers.real ℕ Ring.two) c.shared.incoming c.shared.deques 0).card = 0
  busy : c.shared.busy = 0

theorem idling_iff (c : State (Parts.real (Job ℕ) Ring.two) 1 (Fin 1)) :
    (LockFreeQueue.empty ((Parts.real (Job ℕ) Ring.two).tail c.shared.incoming)
      ((Parts.real (Job ℕ) Ring.two).head c.shared.incoming) = true ∧ c.shared.stock = 0) ∧
    (((c.workers 0).hand (Ledgers.real ℕ Ring.two) c.shared.incoming c.shared.deques 0).card = 0 ∧
      c.shared.busy = 0) ↔ Idling c :=
  ⟨fun ⟨⟨hin, hd⟩, hh, hb⟩ => ⟨hin, hd, hh, hb⟩, fun h => ⟨⟨h.incoming, h.deques⟩, h.hand, h.busy⟩⟩

instance (c : State (Parts.real (Job ℕ) Ring.two) 1 (Fin 1)) : Decidable (Idling c) :=
  decidable_of_iff _ (idling_iff c)

/-- The worker runs the task while the push is returning; and, with the submission over, it has run the
task and not yet counted it. -/
theorem metrics_overtake :
    (∃ c : State (Parts.real (Job ℕ) Ring.two) 1 (Fin 1),
      (system .block).Reachable (initial _ _ _) c ∧
        c.shared.submitted < c.shared.completed + c.shared.busy) ∧
    ∃ c : State (Parts.real (Job ℕ) Ring.two) 1 (Fin 1),
      (system .block).Reachable (initial _ _ _) c ∧ Quiet c.clients ∧ Idling c ∧
        c.shared.completed ≠ c.shared.submitted := by
  have hrun : ((system .block).run (initial (Parts.real (Job ℕ) Ring.two) 1 (Fin 1))
      (submitOne 7 29)).map (fun c => (c.shared.submitted, c.shared.completed, c.shared.busy)) =
      some (0, 0, 1) := by decide +kernel
  have hrest : ((system .block).run (initial (Parts.real (Job ℕ) Ring.two) 1 (Fin 1))
      (submitOne 11 31)).map (fun c => ((c.shared.submitted, c.shared.completed), decide (Idling c),
        (c.clients 0).any Client.submitting)) = some ((1, 0), true, false) := by decide +kernel
  constructor
  · obtain ⟨c, hc, hres⟩ := Option.map_eq_some_iff.mp hrun
    obtain ⟨hsubmitted, hres⟩ := Prod.mk.inj hres
    obtain ⟨hcompleted, hbusy⟩ := Prod.mk.inj hres
    exact ⟨c, System.reachable_of_run hc, by omega⟩
  · obtain ⟨c, hc, hres⟩ := Option.map_eq_some_iff.mp hrest
    obtain ⟨hcounts, hres⟩ := Prod.mk.inj hres
    obtain ⟨hsubmitted, hcompleted⟩ := Prod.mk.inj hcounts
    obtain ⟨hidling, hquiet⟩ := Prod.mk.inj hres
    refine ⟨c, System.reachable_of_run hc, quiet_of_any fun t => ?_, of_decide_eq_true hidling,
      by omega⟩
    rwa [Subsingleton.elim t 0]

/-- The worker has run and counted the task. -/
theorem metrics_bounded_submitOne : ∃ c : State (Parts.real (Job ℕ) Ring.two) 1 (Fin 1),
    c.shared.submitted = 1 ∧ c.shared.completed + c.shared.busy ≤
      c.shared.submitted + hands Client.uncounted c.clients ∧
        c.shared.completed = c.shared.submitted := by
  have hrun : ((system .block).runWhile (fun c _ => c.shared.Fits)
      (initial (Parts.real (Job ℕ) Ring.two) 1 (Fin 1)) (submitOne 11 33)).map
        (fun c => (c.shared.submitted, decide (Idling c), decide ((c.workers 0).load = 0),
          decide c.shared.Fits, (c.clients 0).any Client.submitting)) =
      some (1, true, true, true, false) := by decide +kernel
  obtain ⟨c, hc, hres⟩ := Option.map_eq_some_iff.mp hrun
  obtain ⟨hsubmitted, hres⟩ := Prod.mk.inj hres
  obtain ⟨hidling, hres⟩ := Prod.mk.inj hres
  obtain ⟨hload, hres⟩ := Prod.mk.inj hres
  obtain ⟨hfits, hquiet⟩ := Prod.mk.inj hres
  have hidle : Idling c := of_decide_eq_true hidling
  obtain ⟨-, hbound, hequal⟩ := metrics_bounded Ring.two .block
    ⟨(System.reach_of_runWhile hc).mono fun _ _ h => ⟨h, trivial⟩, of_decide_eq_true hfits⟩
  refine ⟨c, hsubmitted, hbound, hequal (quiet_of_any fun t => ?_) ⟨hidle.incoming, hidle.deques,
    fun i => ?_⟩⟩
  · rwa [Subsingleton.elim t 0]
  · rw [Subsingleton.elim i 0]
    exact of_decide_eq_true hload

end LowLatency.WorkStealingThreadPool
