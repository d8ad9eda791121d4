import LowLatency.WorkStealingThreadPool.Access

/-!
# The pool conserves tasks

`Balanced` accounts for every submitted task: it is in a container, with a worker, with the thread
that submits it, refused, or executed. Each step moves tasks between these places and copies or drops
none (`Balanced.worker`, `Balanced.client`), as long as the containers do not.

`tasks_conserved` is the result for containers whose operations are single steps.
-/

namespace LowLatency.WorkStealingThreadPool

open Concurrency

universe u

variable {α : Type u} {P : Parts (Job α)} {n : ℕ} {Tid : Type*}

/-- The tasks in the containers. -/
def Shared.stored (K : Ledgers P) (s : Shared P n Tid) : Multiset (Job α) :=
  K.queue.stored s.incoming + ∑ d, K.deque.stored (s.deques d)

/-- The containers neither copy nor drop a task. -/
structure Ledgers.Custody (K : Ledgers P) (QInv : P.QS → (Fin n ⊕ Tid → Option P.QL) → Prop)
    (DInv : Fin n → P.DS → (Fin n → Option P.DL) → Prop) [DecidableEq Tid] : Prop where
  lawful : K.Lawful
  queue : P.queue.Custody (mayUse n Tid) QInv LockFreeQueue.Op.given K.queue
  deque : ∀ d, P.deque.Custody (WorkStealingDeque.may d) (DInv d) WorkStealingDeque.Op.given K.deque

/-- Where the submitted tasks are. -/
structure Balanced [Fintype Tid] (K : Ledgers P) (s : Shared P n Tid) (w : Fin n → Worker P n)
    (l : Tid → Option (Client P n)) : Prop where
  placed : (s.issued : Multiset (Job α)) = s.stored K +
    ∑ i, (w i).hand K s.incoming s.deques i + ∑ t, Client.hand K s.incoming (l t) +
      s.rejected + s.executed
  decided : (s.issued : Multiset (Job α)) =
    ∑ t, Client.undecided (l t) + s.accepted + s.rejected
  numbered : s.issued.map Job.id = List.range s.issued.length
  pushing : ∀ t path j a, l t = some (.push path j a) → K.pushing j a

/-! ## Frames -/

section Frames

variable {K : Ledgers P} {q q' : P.QS} {ds ds' : Fin n → P.DS}

theorem Worker.hand_congr {i : Fin n} {x : Worker P n}
    (hq : ∀ a, x.onQueue = some a → K.queue.held q' a = K.queue.held q a)
    (hd : ∀ d a, x.onDeque i d = some a → K.deque.held (ds' d) a = K.deque.held (ds d) a) :
    x.hand K q' ds' i = x.hand K q ds i := by
  cases x with
  | popLocal a | fillPush k a | steal step a => exact hd _ a (if_pos rfl)
  | fillPop k any a => exact hq a rfl
  | _ => rfl

theorem Client.hand_congr {o : Option (Client P n)}
    (hq : ∀ a, Client.onQueue o = some a → K.queue.held q' a = K.queue.held q a) :
    Client.hand K q' o = Client.hand K q o := by
  cases o with
  | none => rfl
  | some x =>
    cases x with
    | push path j a => exact hq a rfl
    | _ => rfl

end Frames

/-- An item that changes hands between three places stays in their sum. -/
theorem exchange {A B H H' E D h h' R : Multiset (Job α)} (hsum : H' + h = H + h')
    (hmove : B + h' + D = A + h + E) : B + H' + R + D = A + H + R + E := by
  refine add_right_cancel (b := h + h') ?_
  calc B + H' + R + D + (h + h') = (B + h' + D) + (H' + h) + R := by abel
    _ = (A + h + E) + (H + h') + R := by rw [hmove, hsum]
    _ = A + H + R + E + (h + h') := by abel

namespace Balanced

variable [Fintype Tid] {K : Ledgers P} {s s' : Shared P n Tid} {w w' : Fin n → Worker P n}
  {l l' : Tid → Option (Client P n)} {i : Fin n} {t : Tid}

/-- A worker's step: tasks move between the containers, the worker and the executed ones. -/
theorem moveWorker {y : Worker P n} (h : Balanced K s w l)
    (hw : ∀ u, u ≠ i → (w u).hand K s'.incoming s'.deques u = (w u).hand K s.incoming s.deques u)
    (hl : ∀ t, Client.hand K s'.incoming (l t) = Client.hand K s.incoming (l t))
    (hissued : s'.issued = s.issued) (hacc : s'.accepted = s.accepted)
    (hrej : s'.rejected = s.rejected)
    (hmove : s'.stored K + y.hand K s'.incoming s'.deques i + (s'.executed : Multiset (Job α)) =
      s.stored K + (w i).hand K s.incoming s.deques i + s.executed) :
    Balanced K s' (Function.update w i y) l where
  placed := by
    have hsum := sum_exchange (f := fun u => (w u).hand K s.incoming s.deques u)
      (g := fun u => (Function.update w i y u).hand K s'.incoming s'.deques u) i fun u hu => by
        rw [Function.update_of_ne hu, hw u hu]
    rw [Function.update_self] at hsum
    have hex := exchange
      (R := ∑ t, Client.hand K s.incoming (l t) + (s.rejected : Multiset (Job α))) hsum hmove
    simp only [hissued, hrej, Finset.sum_congr rfl fun t _ => hl t, h.placed]
    rw [← add_assoc, ← add_assoc] at hex
    exact hex.symm
  decided := by
    rw [hissued, hacc, hrej]
    exact h.decided
  numbered := by
    rw [hissued]
    exact h.numbered
  pushing := h.pushing

/-- A step of another thread: tasks move between the queue, the thread and the refused ones. -/
theorem moveClient [DecidableEq Tid] {o : Option (Client P n)} (h : Balanced K s w l)
    (hw : ∀ u, (w u).hand K s'.incoming s'.deques u = (w u).hand K s.incoming s.deques u)
    (hl : ∀ u, u ≠ t → Client.hand K s'.incoming (l u) = Client.hand K s.incoming (l u))
    (hissued : s'.issued = s.issued) (hexec : s'.executed = s.executed)
    (hmove : s'.stored K + Client.hand K s'.incoming o + (s'.rejected : Multiset (Job α)) =
      s.stored K + Client.hand K s.incoming (l t) + s.rejected)
    (hdecide : Client.undecided o + (s'.accepted : Multiset (Job α)) + s'.rejected =
      Client.undecided (l t) + s.accepted + s.rejected)
    (hpush : ∀ path j a, o = some (.push path j a) → K.pushing j a) :
    Balanced K s' w (Function.update l t o) where
  placed := by
    have hsum := sum_exchange (f := fun u => Client.hand K s.incoming (l u))
      (g := fun u => Client.hand K s'.incoming (Function.update l t o u)) t fun u hu => by
        rw [Function.update_of_ne hu, hl u hu]
    rw [Function.update_self] at hsum
    have hex := exchange (R := 0) hsum hmove
    rw [hissued, hexec, Finset.sum_congr rfl fun u _ => hw u, h.placed]
    calc _ = s.stored K + ∑ t, Client.hand K s.incoming (l t) + 0 +
          (s.rejected : Multiset (Job α)) + ∑ i, (w i).hand K s.incoming s.deques i +
            s.executed := by abel
      _ = _ := by
        rw [← hex]
        abel
  decided := by
    have hsum := sum_exchange (f := fun u => Client.undecided (l u))
      (g := fun u => Client.undecided (Function.update l t o u)) t fun u hu => by
        rw [Function.update_of_ne hu]
    rw [Function.update_self] at hsum
    have hex := exchange (A := (s.accepted : Multiset (Job α))) (B := s'.accepted)
      (E := (s.rejected : Multiset (Job α))) (D := s'.rejected) (R := 0) hsum
      (by rw [add_comm (s'.accepted : Multiset (Job α)), hdecide, add_comm (Client.undecided _)])
    rw [hissued, h.decided]
    calc _ = (s.accepted : Multiset (Job α)) + ∑ t, Client.undecided (l t) + 0 + s.rejected := by
          abel
      _ = _ := by
        rw [← hex]
        abel
  numbered := by
    rw [hissued]
    exact h.numbered
  pushing u path j a hu := by
    by_cases hut : u = t
    · subst hut
      rw [Function.update_self] at hu
      exact hpush path j a hu
    · rw [Function.update_of_ne hut] at hu
      exact h.pushing u path j a hu

section Steps

variable [DecidableEq Tid] {QInv : P.QS → (Fin n ⊕ Tid → Option P.QL) → Prop}
  {DInv : Fin n → P.DS → (Fin n → Option P.DL) → Prop} {choice : Bool}

theorem worker {y : Worker P n} (HK : K.Custody QInv DInv) (ha : Access QInv DInv s w l)
    (h : Balanced K s w l) (hs : WorkerStep i choice s (w i) s' y) :
    Balanced K s' (Function.update w i y) l := by
  generalize hx : w i = x at hs
  cases hs with
  | @queue k any a hr =>
    have hme : onQueue w l (.inl i) = some a := by rw [onQueue, Sum.elim_inl, hx]; rfl
    have hframe : ∀ u b, u ≠ Sum.inl i → onQueue w l u = some b →
        K.queue.held (P.queue.step choice s.incoming a).1 b = K.queue.held s.incoming b :=
      fun u b hu hb => HK.queue.frame choice ha.queue hme hr hb hu
    refine h.moveWorker (fun u hu => ?_) (fun t => ?_) rfl rfl rfl ?_
    · exact Worker.hand_congr (fun b hb => hframe (.inl u) b (fun he => hu (Sum.inl.inj he)) hb)
        fun _ _ _ => rfl
    · exact Client.hand_congr fun b hb => hframe (.inr t) b (fun he => by cases he) hb
    · have hstep := HK.queue.step choice ha.queue hme hr
      rw [hx]
      simp only [Shared.stored, Worker.hand]
      calc _ = K.queue.stored (P.queue.step choice s.incoming a).1 +
            K.queue.held (P.queue.step choice s.incoming a).1 (P.queue.step choice s.incoming a).2 +
              (∑ d, K.deque.stored (s.deques d)) + s.executed := by abel
        _ = _ := by
          rw [hstep]
          abel
  | @deque d at_ a hrun hr =>
    have hme : onDeque w d i = some a := by rw [onDeque, hx, hrun.deque, if_pos rfl]
    have hframe : ∀ u e b, u ≠ i → onDeque w e u = some b →
        K.deque.held ((s.setDeque d (P.deque.step choice (s.deques d) a).1).deques e) b =
          K.deque.held (s.deques e) b := by
      intro u e b hu hb
      by_cases he : e = d
      · subst he
        simp only [Shared.setDeque, Function.update_self]
        exact (HK.deque e).frame choice (ha.deque e) hme hr hb hu
      · simp only [Shared.setDeque, Function.update_of_ne he]
    refine h.moveWorker (fun u hu => ?_) (fun t => rfl) rfl rfl rfl ?_
    · exact Worker.hand_congr (fun _ _ => rfl) fun e b hb => hframe u e b hu hb
    · have hstep := (HK.deque d).step choice (ha.deque d) hme hr
      have hsum := sum_exchange (f := fun e => K.deque.stored (s.deques e))
        (g := fun e => K.deque.stored
          ((s.setDeque d (P.deque.step choice (s.deques d) a).1).deques e)) d fun e he => by
            simp only [Shared.setDeque, Function.update_of_ne he]
      have hself : (s.setDeque d (P.deque.step choice (s.deques d) a).1).deques d =
          (P.deque.step choice (s.deques d) a).1 := Function.update_self ..
      rw [hself] at hsum
      rw [hx, hrun.hand, hrun.hand, hself, Shared.stored, Shared.stored]
      refine add_right_cancel (b := K.deque.stored (s.deques d)) ?_
      calc _ = K.queue.stored s.incoming + (∑ e, K.deque.stored
            ((s.setDeque d (P.deque.step choice (s.deques d) a).1).deques e) +
              K.deque.stored (s.deques d)) + K.deque.held (P.deque.step choice (s.deques d) a).1
                (P.deque.step choice (s.deques d) a).2 + s.executed := by
            simp only [Shared.setDeque]
            abel
        _ = K.queue.stored s.incoming + ∑ e, K.deque.stored (s.deques e) +
            (K.deque.stored (P.deque.step choice (s.deques d) a).1 +
              K.deque.held (P.deque.step choice (s.deques d) a).1
                (P.deque.step choice (s.deques d) a).2) + s.executed := by
            rw [hsum]
            abel
        _ = _ := by
            rw [hstep]
            abel
  | turn ht =>
    have hin := ht.incoming
    have hdeques := ht.deques
    refine h.moveWorker (fun u _ => by rw [hin, hdeques]) (fun t => by rw [hin]) ht.issued
      ht.accepted ht.rejected ?_
    rw [hx, Shared.stored, Shared.stored, hin, hdeques, add_assoc, add_assoc, ht.moves K HK.lawful]
    abel

theorem client {x y : Client P n} (HK : K.Custody QInv DInv) (ha : Access QInv DInv s w l)
    (h : Balanced K s w l) (hx : l t = some x) (hs : ClientStep choice s x s' y) :
    Balanced K s' w (Function.update l t (some y)) := by
  cases hs with
  | @queue path j a hr =>
    have hme : onQueue w l (.inr t) = some a := by rw [onQueue, Sum.elim_inr, hx]; rfl
    have hframe : ∀ u b, u ≠ Sum.inr t → onQueue w l u = some b →
        K.queue.held (P.queue.step choice s.incoming a).1 b = K.queue.held s.incoming b :=
      fun u b hu hb => HK.queue.frame choice ha.queue hme hr hb hu
    refine h.moveClient (fun u => ?_) (fun u hu => ?_) rfl rfl ?_ ?_ ?_
    · exact Worker.hand_congr (fun b hb => hframe (.inl u) b (fun he => by cases he) hb)
        fun _ _ _ => rfl
    · exact Client.hand_congr fun b hb => hframe (.inr u) b (fun he => hu (Sum.inr.inj he)) hb
    · have hstep := HK.queue.step choice ha.queue hme hr
      rw [hx]
      simp only [Shared.stored, Client.hand]
      calc _ = K.queue.stored (P.queue.step choice s.incoming a).1 +
            K.queue.held (P.queue.step choice s.incoming a).1 (P.queue.step choice s.incoming a).2 +
              (∑ d, K.deque.stored (s.deques d)) + s.rejected := by abel
        _ = _ := by
          rw [hstep]
          abel
    · rw [hx]
      rfl
    · intro path' j' a' he
      cases he
      exact HK.lawful.stepPush choice s.incoming (h.pushing t path j a hx)
  | turn ht =>
    have hin := ht.incoming
    have hdeques := ht.deques
    refine h.moveClient (fun u => by rw [hin, hdeques]) (fun u _ => by rw [hin]) ht.issued
      ht.executed ?_ (hx ▸ ht.decides) ?_
    · rw [hx, Shared.stored, Shared.stored, hin, hdeques, add_assoc, add_assoc,
        ht.moves K HK.lawful fun path j a he => h.pushing t path j a (he ▸ hx)]
      abel
    · intro path j a he
      obtain ⟨path', j', hy, rfl, _⟩ := ht.begins a (by rw [he]; rfl)
      rw [Option.some.inj he] at hy
      cases hy
      exact HK.lawful.startPush j

omit [DecidableEq Tid] in
theorem wake (h : Balanced K s w l) (hw : Woken Worker.sleeping Worker.wake w w')
    (hl : Woken Client.sleeping Client.wake l l') : Balanced K s w' l' where
  placed := by
    have hhand : ∀ i, (w' i).hand K s.incoming s.deques i = (w i).hand K s.incoming s.deques i :=
      fun i => Woken.congr (f := Worker.hand K s.incoming s.deques i) hw
        (fun x hx => by cases x <;> first | rfl | cases hx) i
    have hclient : ∀ t, Client.hand K s.incoming (l' t) = Client.hand K s.incoming (l t) :=
      Woken.congr (f := Client.hand K s.incoming) hl fun o ho => by
        cases o with
        | none => cases ho
        | some x => cases x <;> rfl
    rw [Finset.sum_congr rfl fun i _ => hhand i, Finset.sum_congr rfl fun t _ => hclient t]
    exact h.placed
  decided := by
    have hclient : ∀ t, Client.undecided (l' t) = Client.undecided (l t) :=
      Woken.congr (f := Client.undecided) hl fun o ho => by
        cases o with
        | none => cases ho
        | some x => cases x <;> rfl
    rw [Finset.sum_congr rfl fun t _ => hclient t]
    exact h.decided
  numbered := h.numbered
  pushing t path j a ht := by
    rcases hl t with he | ⟨hs, he⟩
    · exact h.pushing t path j a (he ▸ ht)
    · rw [he] at ht
      cases hx : l t with
      | none =>
        rw [hx] at hs
        cases hs
      | some x =>
        rw [hx] at hs ht
        cases x <;> cases hs
        cases ht

end Steps

section Calls

variable [DecidableEq Tid]

theorem call {op : Op α} (h : Balanced K s w l) (hl : l t = none) :
    Balanced K { s with issued := s.issued ++ op.jobs s.issued.length } w
      (Function.update l t (some (.start s.issued.length op))) := by
  have hhand : ∀ q, Client.hand K q (some (Client.start s.issued.length op : Client P n)) =
      (op.jobs s.issued.length : Multiset (Job α)) := fun q => by cases op <;> rfl
  have hundecided : Client.undecided (some (Client.start s.issued.length op : Client P n)) =
      (op.jobs s.issued.length : Multiset (Job α)) := by cases op <;> rfl
  constructor
  · have hsum := sum_exchange (f := fun u => Client.hand K s.incoming (l u))
      (g := fun u => Client.hand K s.incoming
        (Function.update l t (some (Client.start s.issued.length op)) u)) t fun u hu => by
          rw [Function.update_of_ne hu]
    rw [Function.update_self, hl, hhand] at hsum
    rw [show Client.hand K s.incoming (none : Option (Client P n)) = 0 from rfl, add_zero] at hsum
    rw [← Multiset.coe_add, h.placed, hsum]
    simp only [Shared.stored]
    abel
  · have hsum := sum_exchange (f := fun u => Client.undecided (l u))
      (g := fun u => Client.undecided
        (Function.update l t (some (Client.start s.issued.length op)) u)) t fun u hu => by
          rw [Function.update_of_ne hu]
    rw [Function.update_self, hl, hundecided] at hsum
    rw [show Client.undecided (none : Option (Client P n)) = 0 from rfl, add_zero] at hsum
    rw [← Multiset.coe_add, h.decided, hsum]
    abel
  · cases op with
    | submit task | trySubmit task =>
      simp only [Op.jobs, List.map_append, List.length_append, h.numbered, List.map_cons,
        List.map_nil, List.length_cons, List.length_nil, zero_add, List.range_succ]
    | _ =>
      simp only [Op.jobs, List.append_nil]
      exact h.numbered
  · intro u path j a hu
    rcases update_eq_some hu with ⟨_, ho⟩ | ⟨_, hu⟩
    · cases op <;> cases ho
    · exact h.pushing u path j a hu

theorem ret {r : Result} (h : Balanced K s w l) (hl : l t = some (.done r)) :
    Balanced K s w (Function.update l t none) := by
  refine h.moveClient (fun _ => rfl) (fun _ _ => rfl) rfl rfl ?_ ?_ fun _ _ _ he => by cases he
  · rw [hl]
    rfl
  · rw [hl]
    rfl

end Calls

end Balanced

/-! ## Every action -/

/-- The containers are sound and all tasks are accounted for. -/
structure Sound [Fintype Tid] (K : Ledgers P) (QInv : P.QS → (Fin n ⊕ Tid → Option P.QL) → Prop)
    (DInv : Fin n → P.DS → (Fin n → Option P.DL) → Prop) (s : Shared P n Tid)
    (w : Fin n → Worker P n) (l : Tid → Option (Client P n)) : Prop where
  access : Access QInv DInv s w l
  balanced : Balanced K s w l

section Sound

variable [Fintype Tid] [DecidableEq Tid] {K : Ledgers P}
  {QInv : P.QS → (Fin n ⊕ Tid → Option P.QL) → Prop}
  {DInv : Fin n → P.DS → (Fin n → Option P.DL) → Prop} {policy : WorkStealingRejectPolicy}
  {c c' : State P n Tid}

theorem Sound.next (HK : K.Custody QInv DInv) {a : Action α n Tid}
    (h : Sound K QInv DInv c.shared c.workers c.clients)
    (hn : (system policy).next c a = some c') :
    Sound K QInv DInv c'.shared c'.workers c'.clients := by
  have HQ := HK.queue.kept
  have HD := fun d => (HK.deque d).kept
  refine next_induction (I := Sound K QInv DInv) ?_ ?_ ?_ ?_ ?_ h hn
  · exact fun hi hw hl => ⟨hi.access.wake hw hl, hi.balanced.wake hw hl⟩
  · exact fun op hi hl => ⟨(hi.access.call HQ hl).congr rfl rfl, hi.balanced.call hl⟩
  · exact fun hi hl => ⟨hi.access.ret HQ hl, hi.balanced.ret hl⟩
  · exact fun b hi hs => ⟨hi.access.worker HQ HD (stepWorker_cases hs),
      hi.balanced.worker HK hi.access (stepWorker_cases hs)⟩
  · exact fun b hi hx hs => ⟨hi.access.client HQ hx (stepClient_cases hs),
      hi.balanced.client HK hi.access hx (stepClient_cases hs)⟩

omit [DecidableEq Tid] in
theorem balanced_initial (hK : K.Lawful) (hq : K.queue.stored P.newQueue = 0)
    (hd : K.deque.stored P.newDeque = 0) :
    Balanced K (initial P n Tid).shared (initial P n Tid).workers (initial P n Tid).clients where
  placed := by
    have hhand : ∀ i, ((initial P n Tid).workers i).hand K (initial P n Tid).shared.incoming
        (initial P n Tid).shared.deques i = 0 := fun i => hK.startDeque _ _
    have hclient : ∀ t, Client.hand K (initial P n Tid).shared.incoming
        ((initial P n Tid).clients t) = 0 := fun t => rfl
    rw [Finset.sum_congr rfl fun i _ => hhand i, Finset.sum_congr rfl fun t _ => hclient t]
    simp [Shared.stored, initial, hq, hd]
  decided := by
    have hclient : ∀ t, Client.undecided ((initial P n Tid).clients t) = 0 := fun t => rfl
    rw [Finset.sum_congr rfl fun t _ => hclient t]
    simp [initial]
  numbered := rfl
  pushing t path j a h := by cases h

omit [Fintype Tid] [DecidableEq Tid] in
theorem WorkerStep.rejected_eq {i : Fin n} {b : Bool} {s s' : Shared P n Tid} {x y : Worker P n}
    (h : WorkerStep i b s x s' y) : s'.rejected = s.rejected := by
  cases h with
  | queue | deque => rfl
  | turn ht => exact ht.rejected

omit [Fintype Tid] [DecidableEq Tid] in
theorem ClientStep.rejected_grows {b : Bool} {s s' : Shared P n Tid} {x y : Client P n}
    (h : ClientStep b s x s' y) : s.rejected <+: s'.rejected := by
  cases h with
  | queue => exact List.prefix_refl _
  | turn ht => exact ht.rejected

theorem rejected_mono {j : Job α} (h : (system policy).Reachable c c')
    (hj : j ∈ c.shared.rejected) : j ∈ c'.shared.rejected := by
  refine System.Reachable.invariant (I := fun c => j ∈ c.shared.rejected) h hj ?_
  intro c a c' hi hn
  refine next_induction (I := fun s _ _ => j ∈ s.rejected) (fun hi _ _ => hi) (fun _ hi _ => hi)
    (fun hi _ => hi) (fun b hi hs => ?_) (fun b hi hx hs => ?_) hi hn
  · exact (stepWorker_cases hs).rejected_eq ▸ hi
  · exact (stepClient_cases hs).rejected_grows.subset hi

end Sound

/-! ## One place for each task -/

/-- In how many places task `j` is: `incoming_`, a deque, the hands of a worker, or executed. -/
def places [DecidableEq α] (K : Ledgers P) (c : State P n Tid) (j : Job α) : ℕ :=
  (K.queue.stored c.shared.incoming).count j + ∑ d, (K.deque.stored (c.shared.deques d)).count j +
    ∑ i, ((c.workers i).hand K c.shared.incoming c.shared.deques i).count j +
      c.shared.executed.count j

/-- A push of `j` into `incoming_` has returned true, or is about to. -/
def Accepted (c : State P n Tid) (j : Job α) : Prop :=
  j ∈ c.shared.accepted ∨
    ∃ t path a, c.clients t = some (.push path j a) ∧ P.queue.result a = some .put

/-- No task is lost or doubled, and a refused one is nowhere. -/
structure Conserves [DecidableEq α] (K : Ledgers P) (c : State P n Tid) : Prop where
  accepted : ∀ j, Accepted c j → places K c j = 1
  rejected : ∀ j ∈ c.shared.rejected, places K c j = 0

section Conserves

variable [Fintype Tid] [DecidableEq α] {K : Ledgers P} {c : State P n Tid}

namespace Balanced

variable (h : Balanced K c.shared c.workers c.clients)
include h

omit [DecidableEq α] in
theorem nodup : (c.shared.issued : Multiset (Job α)).Nodup := by
  refine Multiset.coe_nodup.mpr (List.Nodup.of_map Job.id ?_)
  rw [h.numbered]
  exact List.nodup_range

theorem count_decided (j : Job α) : ∑ t, (Client.undecided (c.clients t)).count j +
    c.shared.accepted.count j + c.shared.rejected.count j ≤ 1 := by
  have hone := Multiset.nodup_iff_count_le_one.mp h.nodup j
  rw [h.decided] at hone
  simpa [Multiset.count_sum'] using hone

theorem count_placed (j : Job α) : (c.shared.issued : Multiset (Job α)).count j = places K c j +
    ∑ t, (Client.hand K c.shared.incoming (c.clients t)).count j + c.shared.rejected.count j := by
  rw [h.placed]
  simp only [Shared.stored, Multiset.count_add, Multiset.count_sum', Multiset.coe_count, places]
  omega

omit [DecidableEq α] in
theorem hand_le (hK : K.Lawful) (t : Tid) :
    Client.hand K c.shared.incoming (c.clients t) ≤ Client.undecided (c.clients t) := by
  cases hx : c.clients t with
  | none => exact le_rfl
  | some x =>
    cases x with
    | push path j a => exact hK.heldPush c.shared.incoming (h.pushing t path j a hx)
    | _ => exact le_rfl

theorem places_rejected {j : Job α} (hj : j ∈ c.shared.rejected) : places K c j = 0 := by
  have hrej := List.count_pos_iff.mpr hj
  have hplaced := h.count_placed j
  have hone := Multiset.nodup_iff_count_le_one.mp h.nodup j
  omega

theorem places_accepted {j : Job α} (hj : j ∈ c.shared.issued)
    (hhand : ∀ t, (Client.hand K c.shared.incoming (c.clients t)).count j = 0)
    (hrej : c.shared.rejected.count j = 0) : places K c j = 1 := by
  have hplaced := h.count_placed j
  rw [Finset.sum_eq_zero fun t _ => hhand t, hrej] at hplaced
  have hmem := Multiset.one_le_count_iff_mem.mpr (Multiset.mem_coe.mpr hj)
  have hone := Multiset.nodup_iff_count_le_one.mp h.nodup j
  omega

theorem conserves (hK : K.Lawful) : Conserves K c where
  accepted j hj := by
    have hdecided := h.count_decided j
    have hle : ∀ t, (Client.hand K c.shared.incoming (c.clients t)).count j ≤
        (Client.undecided (c.clients t)).count j :=
      fun t => Multiset.count_le_of_le j (h.hand_le hK t)
    have hterm : ∀ t, (Client.undecided (c.clients t)).count j ≤
        ∑ u, (Client.undecided (c.clients u)).count j :=
      fun t => Finset.single_le_sum (f := fun u => (Client.undecided (c.clients u)).count j)
        (fun _ _ => Nat.zero_le _) (Finset.mem_univ t)
    have hissued : (c.shared.issued : Multiset (Job α)) = _ := h.decided
    rcases hj with hj | ⟨t, path, a, ht, hput⟩
    · have hacc := List.count_pos_iff.mpr hj
      refine h.places_accepted ?_ (fun t => ?_) (by omega)
      · rw [← Multiset.mem_coe, hissued]
        exact Multiset.mem_add.mpr (.inl (Multiset.mem_add.mpr (.inr (Multiset.mem_coe.mpr hj))))
      · have h1 := hle t
        have h2 := hterm t
        omega
    · -- the thread of the finished push has nothing, and no other thread submits `j`
      have hmine : (Client.undecided (c.clients t)).count j = 1 := by
        rw [ht]
        simp [Client.undecided, Client.job]
      have hmem : j ∈ c.shared.issued := by
        rw [← Multiset.mem_coe, hissued]
        refine Multiset.mem_add.mpr (.inl (Multiset.mem_add.mpr (.inl ?_)))
        refine Multiset.mem_sum.mpr ⟨t, Finset.mem_univ t, ?_⟩
        rw [ht]
        exact Multiset.mem_singleton_self j
      have h1 := hterm t
      refine h.places_accepted hmem (fun u => ?_) (by omega)
      by_cases hu : u = t
      · subst hu
        rw [ht, Client.hand, hK.resultQueue hput]
        rfl
      · have hpair : (Client.undecided (c.clients u)).count j +
            (Client.undecided (c.clients t)).count j ≤
              ∑ u, (Client.undecided (c.clients u)).count j :=
          Finset.add_le_sum (f := fun u => (Client.undecided (c.clients u)).count j)
            (fun _ _ => Nat.zero_le _) (Finset.mem_univ u) (Finset.mem_univ t) hu
        have h2 := hle u
        omega
  rejected j hj := h.places_rejected hj

end Balanced

end Conserves

/-! ## The containers of the source -/

section Real

variable [Inhabited α]

/-- What is where in the containers of the source. -/
def Ledgers.real (α : Type u) [Inhabited α] (r : Ring) : Ledgers (Parts.real (Job α) r) where
  queue := LockFreeQueue.ledger
  deque := WorkStealingDeque.ledger r
  pushing j x := LockFreeQueue.Local.Pushing j x

theorem lawful_real (r : Ring) : (Ledgers.real α r).Lawful where
  startQueue s op := by cases op <;> rfl
  startDeque s op := by cases op <;> rfl
  resultQueue {s x o} hx := by
    cases x with
    | done o' => exact congrArg (fun o => slot (Outcome.item o)) (Option.some.inj hx)
    | _ => cases hx
  resultDeque {s x o} hx := by
    cases x with
    | done o' => exact congrArg (fun o => slot (Outcome.item o)) (Option.some.inj hx)
    | _ => cases hx
  startPush j := rfl
  stepPush b s hx := LockFreeQueue.Pushing.step hx b
  heldPush {j x} s hx := by
    cases x with
    | pushLoadTail i | pushLoadSequence i _ | pushClaim i _ =>
      obtain rfl : i = j := hx
      exact le_rfl
    | pushWrite | pushPublish => exact Multiset.zero_le _
    | done o =>
      cases o with
      | refused i =>
        obtain rfl : i = j := hx
        exact le_rfl
      | put => exact Multiset.zero_le _
      | _ => cases hx
    | _ => cases hx

/-- The containers of the source neither copy nor drop a task. -/
theorem custody_real [DecidableEq Tid] {r : Ring} (h2 : 2 ≤ r.size) :
    (Ledgers.real α r).Custody (LockFreeQueue.Used r (Sum.isRight : Fin n ⊕ Tid → Bool))
      fun d => WorkStealingDeque.Inv r d where
  lawful := lawful_real r
  queue := LockFreeQueue.custody h2 _
  deque d := WorkStealingDeque.custody r d

theorem sound_real [Fintype Tid] (r : Ring) : Sound (Ledgers.real α r)
    (LockFreeQueue.Used r (Sum.isRight : Fin n ⊕ Tid → Bool)) (fun d => WorkStealingDeque.Inv r d)
    (initial (Parts.real (Job α) r) n Tid).shared (initial (Parts.real (Job α) r) n Tid).workers
    (initial (Parts.real (Job α) r) n Tid).clients := by
  refine ⟨⟨?_, fun d => ?_⟩, balanced_initial (lawful_real r) rfl ?_⟩
  · have hnone : onQueue (initial (Parts.real (Job α) r) n Tid).workers
        (initial (Parts.real (Job α) r) n Tid).clients = fun _ => none := by
      funext u
      cases u <;> rfl
    rw [hnone]
    exact LockFreeQueue.used_init r _
  · -- each worker is about to pop from its own deque
    have hown : onDeque (initial (Parts.real (Job α) r) n Tid).workers d =
        Function.update (fun _ => none) d (some (WorkStealingDeque.start .pop)) := by
      funext i
      by_cases hi : i = d
      · subst hi
        rw [Function.update_self]
        exact if_pos rfl
      · rw [Function.update_of_ne hi]
        exact if_neg fun he => hi he.symm
    rw [hown]
    exact (WorkStealingDeque.inv_init r d).call rfl .pop (decide_eq_true rfl)
  · have hbag : bag r.size (WorkStealingDeque.init : WorkStealingDeque.Shared (Job α)).cells.data = 0 :=
      bag_eq_zero.mpr fun _ _ => rfl
    exact congrArg (Multiset.map Node.item) hbag

end Real

/-! ## Containers with atomic operations -/

section Atomic

/-- What is where in lists. -/
def Ledgers.atomic (α : Type u) (cap : ℕ) : Ledgers (Parts.atomic (Job α) cap) where
  queue := .atomic (fun s : Bounded (Job α) => s.items) LockFreeQueue.Op.given
  deque := .atomic (fun s : Bounded (Job α) => s.items) WorkStealingDeque.Op.given
  pushing j x := x = .inl (.push j) ∨ x = .inr .put ∨ x = .inr (.refused j)

theorem custody_atomic [DecidableEq Tid] (cap : ℕ) :
    (Ledgers.atomic α cap).Custody (fun _ (_ : Fin n ⊕ Tid → _) => True) fun _ _ _ => True where
  lawful :=
    { startQueue := fun _ _ => rfl
      startDeque := fun _ _ => rfl
      resultQueue := fun hx => (Bounded.custody_queue (mayUse n Tid)).result hx
      resultDeque := fun hx => (Bounded.custody_deque fun (_ : Unit) _ => true).result hx
      startPush := fun j => .inl rfl
      stepPush := fun {j x} b s hx => by
        rcases hx with rfl | rfl | rfl
        · cases b
          · simp only [Ledgers.atomic, Parts.atomic, Object.atomic, Bounded.execQueue, Bounded.push,
              Bool.false_eq_true, if_false]
            split
            · exact .inr (.inl rfl)
            · exact .inr (.inr rfl)
          · exact .inr (.inr rfl)
        · exact .inr (.inl rfl)
        · exact .inr (.inr rfl)
      heldPush := fun {j x} s hx => by
        rcases hx with rfl | rfl | rfl
        · exact le_rfl
        · exact Multiset.zero_le _
        · exact le_rfl }
  queue := Bounded.custody_queue _
  deque _ := Bounded.custody_deque _

variable [Fintype Tid] [DecidableEq Tid]

/-- **The pool conserves tasks while it runs.** -/
theorem tasks_conserved [DecidableEq α] (num_threads cap : ℕ) (policy : WorkStealingRejectPolicy)
    (c : State (Parts.atomic (Job α) cap) (numThreads num_threads) Tid)
    (h : (system policy).Reachable (initial _ _ Tid) c) :
    Conserves (Ledgers.atomic α cap) c ∧ ∀ c', (system policy).Reachable c c' →
      ∀ j ∈ c.shared.rejected, places (Ledgers.atomic α cap) c' j = 0 := by
  have HK : (Ledgers.atomic α cap).Custody
      (fun _ (_ : Fin (numThreads num_threads) ⊕ Tid → _) => True) fun _ _ _ => True :=
    custody_atomic cap
  have hsound : ∀ c, (system policy).Reachable (initial (Parts.atomic (Job α) cap) _ Tid) c →
      Sound (Ledgers.atomic α cap) (fun _ _ => True) (fun _ _ _ => True) c.shared c.workers
        c.clients := fun c h =>
    System.Reachable.invariant (I := fun c => Sound (Ledgers.atomic α cap) (fun _ _ => True)
      (fun _ _ _ => True) c.shared c.workers c.clients) h
      ⟨⟨trivial, fun _ => trivial⟩, balanced_initial HK.lawful rfl rfl⟩
      fun _ _ _ hi hn => hi.next HK hn
  refine ⟨(hsound c h).balanced.conserves HK.lawful, fun c' hc' j hj => ?_⟩
  exact (hsound c' (h.trans hc')).balanced.places_rejected (rejected_mono hc' hj)

/-- Two tasks are accepted and one is refused; a worker moves the two to its deque, where the other
worker steals and executes the first. -/
def submitAndSteal : List (Action ℕ 2 (Fin 1)) :=
  List.flatten [[.call 0 (.submit 7)], Action.clients 0 7, [.ret 0, .call 0 (.submit 8)],
    Action.clients 0 7, [.ret 0, .call 0 (.trySubmit 9)], Action.clients 0 3,
    [.client 0 true none], Action.clients 0 2, Action.workers 0 14, Action.workers 1 9]

theorem tasks_conserved_submitAndSteal :
    ∃ c : State (Parts.atomic (Job ℕ) 2) (numThreads 2) (Fin 1),
      c.shared.accepted.map Job.task = [7, 8] ∧ c.shared.rejected.map Job.task = [9] ∧
        c.shared.executed.map Job.task = [7] ∧ Conserves (Ledgers.atomic ℕ 2) c := by
  have hrun : ((system .block).run (initial (Parts.atomic (Job ℕ) 2) 2 (Fin 1)) submitAndSteal).map
      (fun c => (c.shared.accepted.map Job.task, c.shared.rejected.map Job.task,
        c.shared.executed.map Job.task)) = some ([7, 8], [9], [7]) := by decide +kernel
  obtain ⟨c, hc, hres⟩ := Option.map_eq_some_iff.mp hrun
  obtain ⟨hacc, hres⟩ := Prod.mk.inj hres
  obtain ⟨hrej, hexec⟩ := Prod.mk.inj hres
  exact ⟨c, hacc, hrej, hexec, (tasks_conserved 2 2 .block c (System.reachable_of_run hc)).1⟩

end Atomic

end LowLatency.WorkStealingThreadPool
