import LowLatency.WorkStealingThreadPool.Conservation
import LowLatency.WorkStealingThreadPool.Counters
import LowLatency.WorkStealingThreadPool.Positions

/-!
# What `idle()` tells

`idle()` loads `busy_workers_` and then scans the containers, while the workers go on: a worker takes
a task without the mutex and counts itself in `busy_workers_` only afterwards, and `fillLocalBatch`
carries tasks from `incoming_`, which is scanned last, into deques that are scanned before. As long as
no worker has or reaches for a task from the load to the end of the scan, the answer is right
(`idle_truthful`). When the load finds `busy_workers_` zero and the containers look empty, it is wrong
if a worker has a task in its hands (`idle_wrong`).
-/

namespace LowLatency.WorkStealingThreadPool

open Concurrency

universe u

variable {α : Type u} {P : Parts (Job α)} {n : ℕ} {Tid : Type*}

/-- Inside `submit`, `submitVoid` or `trySubmit`. -/
def Client.submitting : Client P n → Bool
  | .shutdownLock | .shutdownTest | .shutdownSet | .shutdownUnlock | .notifyAll
  | .notifyAllNotFull | .awaitSubmits | .join _ | .idleLock | .idleBusy | .idleScan _ | .sizeLock
  | .sizeTop _ _ | .sizeBottom _ _ _ | .unlockDone _ | .done _ => false
  | _ => true

/-- No submission is in progress. -/
def Quiet (l : Tid → Option (Client P n)) : Prop := ∀ t x, l t = some x → x.submitting = false

theorem quiet_of_any {l : Tid → Option (Client P n)} (h : ∀ t, (l t).any Client.submitting = false) :
    Quiet l := by
  intro t x hx
  have hany := h t
  rw [hx] at hany
  exact hany

/-- A submission begins. -/
def Action.submits : Action α n Tid → Bool
  | .call _ (.submit _) | .call _ (.trySubmit _) => true
  | _ => false

/-- What is needed to conclude from the counters that a container is empty: `reaches` says which
operations on a deque may change that. -/
structure Readable (K : Ledgers P) (QInv : P.QS → (Fin n ⊕ Tid → Option P.QL) → Prop)
    (DInv : Fin n → P.DS → (Fin n → Option P.DL) → Prop) (reaches : P.DS → P.DL → Bool) : Prop where
  queue : ∀ {q l}, QInv q l → P.tail q ≤ P.head q → K.queue.stored q = 0
  deque : ∀ {d s l}, DInv d s l → (∀ u x, l u = some x → reaches s x = false) →
    P.bottom s ≤ P.top s → K.deque.stored s = 0
  top : ∀ b s x, P.top s ≤ P.top (P.deque.step b s x).1

section Definitions

variable (K : Ledgers P) (reaches : P.DS → P.DL → Bool)

/-- No worker has a task in its hands or reaches for one in a deque. -/
structure Handless (s : Shared P n Tid) (w : Fin n → Worker P n) : Prop where
  hand : ∀ i, (w i).hand K s.incoming s.deques i = 0
  reach : ∀ d i x, onDeque w d i = some x → reaches (s.deques d) x = false

/-- From the load of `busy_workers_` by thread `t`, if it finds zero, to the end of the scan, no worker
has a task in its hands or reaches for one. -/
def Steady (t : Tid) (c : State P n Tid) (a : Action α n Tid) : Prop :=
  ((∃ e, c.clients t = some (.idleScan e)) ∨
    (∃ b wakes, a = .client t b wakes) ∧ c.clients t = some .idleBusy ∧ c.shared.busy = 0) →
      Handless K reaches c.shared c.workers

theorem handless_of_sleeping {K : Ledgers P} {reaches : P.DS → P.DL → Bool} {s : Shared P n Tid} {w : Fin n → Worker P n}
    (h : ∀ i, (w i).sleeping = true) : Handless K reaches s w where
  hand i := by
    have hs := h i
    cases hx : w i with
    | asleep => rfl
    | _ =>
      rw [hx] at hs
      cases hs
  reach d i x hx := by
    have hs := h i
    unfold onDeque at hx
    cases hw : w i with
    | asleep =>
      rw [hw] at hx
      cases hx
    | _ =>
      rw [hw] at hs
      cases hs

/-- Every accepted task has been executed: none is queued, and no worker has one. -/
structure Finished (c : State P n Tid) : Prop where
  executed : c.shared.executed.Perm c.shared.accepted
  stored : c.shared.stored K = 0
  hand : ∀ i, (c.workers i).hand K c.shared.incoming c.shared.deques i = 0

/-- What the scan has found so far, if no worker has got a task in the meantime. -/
def Scanned (s : Shared P n Tid) : Scan n → Prop
  | .top d => ∀ e : Fin n, e.val < d → K.deque.stored (s.deques e) = 0
  | .bottom d t => (∀ e : Fin n, e.val < d.val → K.deque.stored (s.deques e) = 0) ∧
    t ≤ P.top (s.deques d)
  | .head t => (∀ e, K.deque.stored (s.deques e) = 0) ∧ t = P.tail s.incoming

end Definitions

/-- Every accepted task has been executed. -/
def AllDone (s : Shared P n Tid) : Prop := (s.executed : Multiset (Job α)) = s.accepted

/-! ## Steps while no submission is in progress -/

section Steps

variable {s s' : Shared P n Tid} {i : Fin n} {t : Tid} {b : Bool}

theorem stepWorker_executed {x y : Worker P n} (hs : stepWorker i b s x = some (s', y)) :
    s.executed <+: s'.executed := by
  cases stepWorker_effect hs with
  | plain hs =>
    rw [hs]
  | execute => exact List.prefix_append _ _
  | _ => exact List.prefix_refl _

theorem WorkerStep.accepted_eq {x y : Worker P n} (h : WorkerStep i b s x s' y) :
    s'.accepted = s.accepted := by
  cases h with
  | queue | deque => rfl
  | turn ht => exact ht.accepted

/-- What a thread that submits nothing does, and how it comes to the answers of `idle()`. -/
structure Silent (s s' : Shared P n Tid) (x y : Client P n) : Prop where
  submitting : y.submitting = false
  incoming : s'.incoming = s.incoming
  deques : s'.deques = s.deques
  accepted : s'.accepted = s.accepted
  executed : s'.executed = s.executed
  scan : ∀ e, y = .idleScan e → x = .idleBusy ∧ s.busy = 0 ∧ e = .top 0 ∨
    ∃ e', x = .idleScan e' ∧ s.scan e' = .inl e
  scanned : y = .unlockDone (.isIdle true) → ∃ e, x = .idleScan e ∧ s.scan e = .inr true
  answered : y = .done (.isIdle true) → x = .unlockDone (.isIdle true)

theorem stepClient_silent {policy : WorkStealingRejectPolicy} {w : Fin n → Worker P n}
    {x y : Client P n} (hs : stepClient policy w t b s x = some (s', y))
    (hx : x.submitting = false) : Silent s s' x y := by
  cases x with
  | shutdownLock | idleLock | sizeLock =>
    obtain ⟨_, rfl, rfl⟩ := map_lock_eq_some hs
    exact ⟨rfl, rfl, rfl, rfl, rfl, (by simp), (by simp), (by simp)⟩
  | shutdownTest | awaitSubmits | sizeTop =>
    simp only [stepClient] at hs
    split at hs <;> cases hs <;> exact ⟨rfl, rfl, rfl, rfl, rfl, (by simp), (by simp), (by simp)⟩
  | join k =>
    simp only [stepClient] at hs
    split at hs
    · split at hs <;> cases hs
      exact ⟨rfl, rfl, rfl, rfl, rfl, (by simp), (by simp), (by simp)⟩
    · cases hs
      exact ⟨rfl, rfl, rfl, rfl, rfl, (by simp), (by simp), (by simp)⟩
  | idleBusy =>
    simp only [stepClient] at hs
    split at hs <;> cases hs
    next hbusy =>
      exact ⟨rfl, rfl, rfl, rfl, rfl, fun e he => .inl ⟨rfl, hbusy, (Client.idleScan.inj he).symm⟩,
        (by simp), (by simp)⟩
    next => exact ⟨rfl, rfl, rfl, rfl, rfl, (by simp), (by simp), (by simp)⟩
  | idleScan e =>
    simp only [stepClient] at hs
    split at hs <;> cases hs
    next e' hscan =>
      refine ⟨rfl, rfl, rfl, rfl, rfl, fun e₁ he => .inr ⟨e, rfl, ?_⟩, (by simp), (by simp)⟩
      rw [hscan, Client.idleScan.inj he]
    next b' hscan =>
      refine ⟨rfl, rfl, rfl, rfl, rfl, (by simp), fun he => ⟨e, rfl, ?_⟩, (by simp)⟩
      rw [hscan, Result.isIdle.inj (Client.unlockDone.inj he)]
  | unlockDone r =>
    cases hs
    exact ⟨rfl, rfl, rfl, rfl, rfl, (by simp), (by simp), fun he => congrArg _ (Client.done.inj he)⟩
  | shutdownSet | shutdownUnlock | notifyAll | notifyAllNotFull | sizeBottom =>
    cases hs
    exact ⟨rfl, rfl, rfl, rfl, rfl, (by simp), (by simp), (by simp)⟩
  | done r => cases hs
  | _ => cases hx

end Steps

/-! ## Where the tasks are -/

section Quiet

variable {K : Ledgers P} {l l' : Tid → Option (Client P n)} {t : Tid}

theorem Quiet.update [DecidableEq Tid] (h : Quiet l) {o : Option (Client P n)}
    (ho : ∀ y, o = some y → y.submitting = false) : Quiet (Function.update l t o) := by
  intro u x hu
  rcases update_eq_some hu with ⟨_, hx⟩ | ⟨_, hu⟩
  · exact ho x hx
  · exact h u x hu

/-- While no submission is in progress, nobody sleeps on `not_full_cv_`. -/
theorem Quiet.woken (h : Quiet l) (hl : Woken Client.sleeping Client.wake l l') : l' = l := by
  funext t
  rcases hl t with he | ⟨hs, _⟩
  · exact he
  · cases hx : l t with
    | none =>
      rw [hx] at hs
      cases hs
    | some x =>
      have hquiet := h t x hx
      rw [hx] at hs
      cases x <;> first | (cases hquiet; done) | cases hs

theorem Quiet.jobs (h : Quiet l) (q : P.QS) (t : Tid) :
    Client.hand K q (l t) = 0 ∧ Client.undecided (l t) = 0 := by
  cases hx : l t with
  | none => exact ⟨rfl, rfl⟩
  | some x =>
    have hquiet := h t x hx
    cases x <;> first | (cases hquiet; done) | exact ⟨rfl, rfl⟩

variable [Fintype Tid] {s s' : Shared P n Tid} {w w' : Fin n → Worker P n}

/-- Without submissions, the accepted tasks are the executed ones and those with the pool. -/
theorem Balanced.accepted_eq (h : Balanced K s w l) (hquiet : Quiet l) :
    (s.accepted : Multiset (Job α)) =
      s.stored K + ∑ i, (w i).hand K s.incoming s.deques i + s.executed := by
  have hplaced := h.placed
  rw [h.decided, Finset.sum_eq_zero fun t _ => (hquiet.jobs (K := K) s.incoming t).1,
    Finset.sum_eq_zero fun t _ => (hquiet.jobs (K := K) s.incoming t).2, zero_add, add_zero] at hplaced
  refine add_right_cancel (b := (s.rejected : Multiset (Job α))) (hplaced.trans ?_)
  abel

/-- Without submissions what has been executed is all there is. -/
theorem Balanced.allDone_mono (h : Balanced K s' w' l') (hquiet : Quiet l')
    (hacc : s'.accepted = s.accepted) (hexec : s.executed <+: s'.executed) (hall : AllDone s) :
    AllDone s' := by
  refine le_antisymm ?_ ?_
  · rw [h.accepted_eq hquiet]
    exact Multiset.le_add_left _ _
  · rw [hacc, ← hall]
    exact Multiset.coe_le.mpr hexec.sublist.subperm

/-- Nothing is left to execute when all accepted tasks have been executed. -/
theorem Balanced.finished {c : State P n Tid} (h : Balanced K c.shared c.workers c.clients)
    (hquiet : Quiet c.clients) (hall : AllDone c.shared) : Finished K c := by
  have heq := h.accepted_eq hquiet
  rw [← hall] at heq
  obtain ⟨hstored, hhand⟩ := add_eq_zero.mp (add_eq_right.mp heq.symm)
  exact ⟨Multiset.coe_eq_coe.mp hall, hstored,
    fun i => Finset.sum_eq_zero_iff.mp hhand i (Finset.mem_univ i)⟩

end Quiet

/-! ## The scan -/

section Scan

variable [DecidableEq Tid] {K : Ledgers P} {reaches : P.DS → P.DL → Bool}
  {QInv : P.QS → (Fin n ⊕ Tid → Option P.QL) → Prop}
  {DInv : Fin n → P.DS → (Fin n → Option P.DL) → Prop} {committed : P.QL → Bool}
  {s s' : Shared P n Tid} {w : Fin n → Worker P n} {l : Tid → Option (Client P n)} {i : Fin n}
  {b : Bool} {e : Scan n}

/-- What the scan has found stays true while only empty-handed workers move. -/
theorem Scanned.worker {y : Worker P n} (h : Scanned K s e) (HK : K.Custody QInv DInv)
    (HR : Readable K QInv DInv reaches) (HP : Positions P n Tid QInv committed)
    (ha : Access QInv DInv s w l) (hno : Handless K reaches s w)
    (hs : WorkerStep i b s (w i) s' y) : Scanned K s' e := by
  have htail := (HP.worker ha.queue hs).1
  have hdeques : ∀ d, (K.deque.stored (s.deques d) = 0 → K.deque.stored (s'.deques d) = 0) ∧
      P.top (s.deques d) ≤ P.top (s'.deques d) := by
    generalize hx : w i = x at hs
    cases hs with
    | queue => exact fun d => ⟨id, le_rfl⟩
    | @deque d at_ a hrun hr =>
      intro f
      by_cases hf : f = d
      · subst hf
        have hme : onDeque w f i = some a := by rw [onDeque, hx, hrun.deque, if_pos rfl]
        have hstep := (HK.deque f).step b (ha.deque f) hme hr
        have hheld : K.deque.held (s.deques f) a = 0 := by
          rw [← hrun.hand K s.incoming s.deques a, ← hx]
          exact hno.hand i
        have hself : (s.setDeque f (P.deque.step b (s.deques f) a).1).deques f =
            (P.deque.step b (s.deques f) a).1 := Function.update_self ..
        rw [hself]
        refine ⟨fun hzero => ?_, HR.top b _ _⟩
        rw [hheld, hzero, add_zero] at hstep
        exact (add_eq_zero.mp hstep).1
      · have hother : (s.setDeque d (P.deque.step b (s.deques d) a).1).deques f = s.deques f :=
          Function.update_of_ne hf ..
        rw [hother]
        exact ⟨id, le_rfl⟩
    | turn ht =>
      rw [ht.deques]
      exact fun d => ⟨id, le_rfl⟩
  cases e with
  | top d => exact fun f hf => (hdeques f).1 (h f hf)
  | bottom d t => exact ⟨fun f hf => (hdeques f).1 (h.1 f hf), h.2.trans (hdeques d).2⟩
  | head t => exact ⟨fun f => (hdeques f).1 (h.1 f), h.2.trans htail.symm⟩

omit [DecidableEq Tid] in
theorem Scanned.congr (h : Scanned K s e) (hin : s'.incoming = s.incoming)
    (hdeques : s'.deques = s.deques) : Scanned K s' e := by
  cases e with
  | top d => exact fun f hf => hdeques ▸ h f hf
  | bottom d t => exact ⟨fun f hf => hdeques ▸ h.1 f hf, hdeques ▸ h.2⟩
  | head t => exact ⟨fun f => hdeques ▸ h.1 f, hin ▸ h.2⟩

omit [DecidableEq Tid] in
theorem Scanned.scan {e' : Scan n} (h : Scanned K s e) (HR : Readable K QInv DInv reaches)
    (ha : Access QInv DInv s w l) (hno : Handless K reaches s w) (hs : s.scan e = .inl e') :
    Scanned K s e' := by
  rcases scan_eq_inl hs with ⟨d, rfl, rfl⟩ | ⟨d, t, rfl, rfl, hle⟩ | ⟨k, rfl, hk, rfl⟩
  · exact ⟨fun f hf => h f hf, le_rfl⟩
  · intro f hf
    rcases Nat.lt_succ_iff_lt_or_eq.mp hf with hlt | heq
    · exact h.1 f hlt
    · obtain rfl : f = d := Fin.ext heq
      exact HR.deque (ha.deque f) (hno.reach f) (hle.trans h.2)
  · exact ⟨fun f => h f (f.isLt.trans_le hk), rfl⟩

omit [DecidableEq Tid] in
theorem Scanned.allDone [Fintype Tid] (h : Scanned K s e) (HR : Readable K QInv DInv reaches)
    (hsound : Sound K QInv DInv s w l) (hquiet : Quiet l) (hno : Handless K reaches s w)
    (hs : s.scan e = .inr true) : AllDone s := by
  obtain ⟨t, rfl, hempty⟩ := scan_eq_true hs
  have hle : (t : ℤ) ≤ P.head s.incoming := of_decide_eq_true hempty
  have hqueue : K.queue.stored s.incoming = 0 := by
    refine HR.queue hsound.access.queue ?_
    rw [← h.2]
    exact Int.ofNat_le.mp hle
  have heq := hsound.balanced.accepted_eq hquiet
  rw [Shared.stored, hqueue, Finset.sum_eq_zero fun d _ => h.1 d,
    Finset.sum_eq_zero fun i _ => hno.hand i, add_zero, add_zero, zero_add] at heq
  exact heq.symm

end Scan

/-! ## Right answers -/

section Main

variable [Fintype Tid] [DecidableEq Tid]

/-- What is kept while no submission is in progress; `A` are the tasks accepted before. -/
structure Truthful (K : Ledgers P) (reaches : P.DS → P.DL → Bool)
    (QInv : P.QS → (Fin n ⊕ Tid → Option P.QL) → Prop)
    (DInv : Fin n → P.DS → (Fin n → Option P.DL) → Prop) (t : Tid) (A : List (Job α))
    (c : State P n Tid) : Prop where
  sound : Sound K QInv DInv c.shared c.workers c.clients
  quiet : Quiet c.clients
  accepted : c.shared.accepted = A
  scan : ∀ e, c.clients t = some (.idleScan e) → Handless K reaches c.shared c.workers →
    Scanned K c.shared e
  scanned : c.clients t = some (.unlockDone (.isIdle true)) → AllDone c.shared
  answered : c.clients t = some (.done (.isIdle true)) → AllDone c.shared

namespace Truthful

variable {K : Ledgers P} {reaches : P.DS → P.DL → Bool}
  {QInv : P.QS → (Fin n ⊕ Tid → Option P.QL) → Prop}
  {DInv : Fin n → P.DS → (Fin n → Option P.DL) → Prop} {committed : P.QL → Bool}
  {policy : WorkStealingRejectPolicy} {c c' : State P n Tid} {t : Tid} {A : List (Job α)}

omit [DecidableEq Tid] in
theorem other (h : Truthful K reaches QInv DInv t A c)
    (hsound : Sound K QInv DInv c'.shared c'.workers c'.clients) (hquiet : Quiet c'.clients)
    (hacc : c'.shared.accepted = c.shared.accepted)
    (hexec : c.shared.executed <+: c'.shared.executed)
    (hscan : ∀ e, c.clients t = some (.idleScan e) → Scanned K c'.shared e)
    (ht : c'.clients t = c.clients t) : Truthful K reaches QInv DInv t A c' where
  sound := hsound
  quiet := hquiet
  accepted := hacc.trans h.accepted
  scan e hx _ := hscan e (ht ▸ hx)
  scanned hx := hsound.balanced.allDone_mono hquiet hacc hexec (h.scanned (ht ▸ hx))
  answered hx := hsound.balanced.allDone_mono hquiet hacc hexec (h.answered (ht ▸ hx))

/-- Every action, as long as no submission begins and the workers are empty-handed while `t` scans. -/
theorem next {a : Action α n Tid} (HK : K.Custody QInv DInv) (HR : Readable K QInv DInv reaches)
    (HP : Positions P n Tid QInv committed) (h : Truthful K reaches QInv DInv t A c)
    (hno : a.submits = false) (hsteady : Steady K reaches t c a)
    (hn : WorkStealingThreadPool.next policy c a = some c') :
    Truthful K reaches QInv DInv t A c' := by
  have hsound : Sound K QInv DInv c'.shared c'.workers c'.clients := h.sound.next HK hn
  have hscanned : ∀ e, c.clients t = some (.idleScan e) → Scanned K c.shared e :=
    fun e he => h.scan e he (hsteady (.inl ⟨e, he⟩))
  cases a with
  | call u op =>
    obtain ⟨hnone, rfl⟩ := next_call hn
    have hquiet : Quiet (Function.update c.clients u
        (some (Client.start c.shared.issued.length op : Client P n))) :=
      h.quiet.update fun y hy => by
        obtain rfl := Option.some.inj hy
        cases op <;> first | rfl | cases hno
    by_cases hut : t = u
    · subst hut
      refine ⟨hsound, hquiet, h.accepted, fun e hx => ?_, fun hx => ?_, fun hx => ?_⟩
      all_goals
        replace hx := (Function.update_self ..).symm.trans hx
        cases op <;> cases hx
    · exact h.other hsound hquiet rfl (List.prefix_refl _)
        (fun e he => (hscanned e he).congr rfl rfl) (Function.update_of_ne hut ..)
  | ret u =>
    obtain ⟨r, hdone, rfl⟩ := next_ret hn
    have hquiet : Quiet (Function.update c.clients u none) := h.quiet.update nofun
    by_cases hut : t = u
    · subst hut
      refine ⟨hsound, hquiet, h.accepted, fun e hx => ?_, fun hx => ?_, fun hx => ?_⟩
      all_goals
        replace hx := (Function.update_self ..).symm.trans hx
        cases hx
    · exact h.other hsound hquiet rfl (List.prefix_refl _) hscanned (Function.update_of_ne hut ..)
  | worker i b wakes =>
    obtain ⟨s, y, l, hs, hl, rfl⟩ := next_worker hn
    obtain rfl := h.quiet.woken (woken_wakeProducers hl)
    refine h.other hsound h.quiet (stepWorker_cases hs).accepted_eq (stepWorker_executed hs)
      (fun e he => ?_) rfl
    exact (hscanned e he).worker HK HR HP h.sound.access (hsteady (.inl ⟨e, he⟩))
      (stepWorker_cases hs)
  | client u b wakes =>
    obtain ⟨x, s, y, w, hx, hs, hw, rfl⟩ := next_client hn
    have hsilent := stepClient_silent hs (h.quiet u x hx)
    rw [h.quiet.woken (woken_wakeAllProducers x _)] at hsound ⊢
    have hquiet : Quiet (Function.update c.clients u (some y)) :=
      h.quiet.update fun z hz => Option.some.inj hz ▸ hsilent.submitting
    by_cases hut : t = u
    · subst hut
      have hmono : AllDone c.shared → AllDone s := by
        refine hsound.balanced.allDone_mono hquiet hsilent.accepted ?_
        rw [hsilent.executed]
      refine ⟨hsound, hquiet, hsilent.accepted.trans h.accepted, fun e hy _ => ?_, fun hy => ?_,
        fun hy => ?_⟩
      all_goals replace hy := (Function.update_self ..).symm.trans hy
      · rcases hsilent.scan e (Option.some.inj hy) with ⟨_, _, rfl⟩ | ⟨e', rfl, he'⟩
        · exact fun f hf => absurd hf (Nat.not_lt_zero _)
        · exact ((hscanned e' hx).scan HR h.sound.access (hsteady (.inl ⟨e', hx⟩)) he').congr
            hsilent.incoming hsilent.deques
      · obtain ⟨e, rfl, he⟩ := hsilent.scanned (Option.some.inj hy)
        exact hmono ((hscanned e hx).allDone HR h.sound h.quiet (hsteady (.inl ⟨e, hx⟩)) he)
      · obtain rfl := hsilent.answered (Option.some.inj hy)
        exact hmono (h.scanned hx)
    · exact h.other hsound hquiet hsilent.accepted (by rw [hsilent.executed])
        (fun e he => (hscanned e he).congr hsilent.incoming hsilent.deques)
        (Function.update_of_ne hut ..)
  | spuriousWorker i =>
    obtain ⟨_, rfl⟩ := next_spuriousWorker hn
    exact h.other hsound h.quiet rfl (List.prefix_refl _) hscanned rfl
  | spuriousClient u =>
    obtain ⟨hs, rfl⟩ := next_spuriousClient hn
    have hsame := h.quiet.woken (woken_update hs)
    rw [hsame] at hsound ⊢
    exact h.other hsound h.quiet rfl (List.prefix_refl _) hscanned rfl

end Truthful

omit [Fintype Tid] [DecidableEq Tid] in
/-- The counters of the containers of the source. -/
theorem readable_real [Inhabited α] (r : Ring) : Readable (Ledgers.real α r)
    (LockFreeQueue.Used r (Sum.isRight : Fin n ⊕ Tid → Bool)) (fun d => WorkStealingDeque.Inv r d)
    WorkStealingDeque.reaches where
  queue h hle := LockFreeQueue.stored_eq_zero h hle
  deque h hreach hle := WorkStealingDeque.stored_eq_zero h hreach hle
  top b _ _ := WorkStealingDeque.top_le_step b

/-- When `idle()` answers true, every task accepted before the call has been executed, provided that
no submission overlaps the call and the workers are empty-handed while it scans. -/
theorem idle_truthful [Inhabited α] {r : Ring} (h2 : 2 ≤ r.size)
    (policy : WorkStealingRejectPolicy) {c c' : State (Parts.real (Job α) r) n Tid} {t : Tid}
    (hc : (system policy).Reachable (initial _ _ Tid) c) (ht : c.clients t = some .idleLock)
    (hquiet : Quiet c.clients)
    (h : (system policy).Reach (fun c a => a.submits = false ∧
      Steady (Ledgers.real α r) WorkStealingDeque.reaches t c a) c c')
    (hdone : c'.clients t = some (.done (.isIdle true))) :
    c'.shared.accepted = c.shared.accepted ∧ Finished (Ledgers.real α r) c' := by
  have HK : (Ledgers.real α r).Custody (LockFreeQueue.Used r (Sum.isRight : Fin n ⊕ Tid → Bool))
      fun d => WorkStealingDeque.Inv r d := custody_real h2
  have hsound := System.Reachable.invariant (I := fun c => Sound (Ledgers.real α r)
    (LockFreeQueue.Used r (Sum.isRight : Fin n ⊕ Tid → Bool)) (fun d => WorkStealingDeque.Inv r d)
    c.shared c.workers c.clients) hc (sound_real r) fun d a d' hi hn => hi.next HK hn
  have HP : Positions (Parts.real (Job α) r) n Tid
      (LockFreeQueue.Used r (Sum.isRight : Fin n ⊕ Tid → Bool)) LockFreeQueue.Local.committed :=
    positions_of_kinds HK.queue.kept fun _ _ h => h.2
  have hstart : Truthful (Ledgers.real α r) WorkStealingDeque.reaches
      (LockFreeQueue.Used r (Sum.isRight : Fin n ⊕ Tid → Bool)) (fun d => WorkStealingDeque.Inv r d)
      t c.shared.accepted c := by
    refine ⟨hsound, hquiet, rfl, fun e hx => ?_, fun hx => ?_, fun hx => ?_⟩
    all_goals
      rw [ht] at hx
      cases hx
  have hkept := h.invariant hstart fun d a d' hi hok hn =>
    hi.next HK (readable_real r) HP hok.1 hok.2 hn
  exact ⟨hkept.accepted, hkept.sound.balanced.finished hkept.quiet (hkept.answered hdone)⟩

end Main

/-! ## Wrong answers -/

section Wrong

variable [Fintype Tid] [DecidableEq Tid]

/-- Every container looks empty. -/
structure LooksEmpty (s : Shared P n Tid) : Prop where
  deques : ∀ d, P.bottom (s.deques d) ≤ P.top (s.deques d)
  incoming : P.tail s.incoming ≤ P.head s.incoming

variable {policy : WorkStealingRejectPolicy} {c : State P n Tid} {t : Tid} {s : Shared P n Tid}
  {w : Fin n → Worker P n} {l : Tid → Option (Client P n)}

/-- A load of the scan, by which thread `t` does not come to an answer. -/
theorem next_scan {e e' : Scan n} (h : s.scan e = .inl e') :
    (system policy).next ⟨s, w, Function.update l t (some (.idleScan e))⟩ (.client t false none) =
      some ⟨s, w, Function.update l t (some (.idleScan e'))⟩ := by
  simp only [system, next, Function.update_self, Option.bind_some, stepClient, h, wakeWorkers,
    wakeAllProducers, Option.map_some, Function.update_idem]

/-- When the deques look empty, the scan comes to the queue. The induction is on the deques left. -/
theorem run_scan (h : LooksEmpty s) (k : ℕ) : ∀ {d : ℕ}, d + k = n →
    (system policy).run ⟨s, w, Function.update l t (some (.idleScan (.top d)))⟩
      (Action.clients t (2 * k + 1)) =
        some ⟨s, w, Function.update l t (some (.idleScan (.head (P.tail s.incoming))))⟩ := by
  induction k with
  | zero =>
    intro d hd
    have hscan : s.scan (.top d) = .inl (.head (P.tail s.incoming)) := dif_neg (by omega)
    exact congrArg (fun o => o.bind fun c => (system policy).run c []) (next_scan hscan)
  | succ k ih =>
    intro d hd
    have hlt : d < n := by omega
    have htop : s.scan (.top d) = .inl (.bottom ⟨d, hlt⟩ (P.top (s.deques ⟨d, hlt⟩))) :=
      dif_pos hlt
    have hbottom : s.scan (.bottom ⟨d, hlt⟩ (P.top (s.deques ⟨d, hlt⟩))) = .inl (.top (d + 1)) :=
      if_pos (WorkStealingDeque.empty_iff.mpr (h.deques _))
    have hsplit : (Action.clients t (2 * (k + 1) + 1) : List (Action α n Tid)) =
        .client t false none :: .client t false none :: Action.clients t (2 * k + 1) := rfl
    rw [hsplit, System.run_cons, next_scan htop, Option.bind_some, System.run_cons,
      next_scan hbottom, Option.bind_some]
    exact ih (by omega)

/-- When `busy_workers_` is zero and every container looks empty, `idle()` answers true, whatever the
workers have in their hands. -/
theorem idle_wrong (hx : c.clients t = some .idleBusy) (hbusy : c.shared.busy = 0)
    (hempty : LooksEmpty c.shared) (K : Ledgers P) (hwork : ¬ Finished K c) :
    ∃ c', (system policy).run c (Action.clients t (2 * n + 4)) = some c' ∧
      c'.clients t = some (.done (.isIdle true)) ∧ ¬ Finished K c' := by
  let q (x : Client P n) (s : Shared P n Tid) : State P n Tid :=
    ⟨s, c.workers, Function.update c.clients t (some x)⟩
  have hload : (system policy).next c (.client t false none) =
      some (q (.idleScan (.top 0)) c.shared) := by
    simp only [system, next, hx, Option.bind_some, stepClient, hbusy, if_true, wakeWorkers,
      wakeAllProducers, Option.map_some, q]
  have hscan : (system policy).run (q (.idleScan (.top 0)) c.shared)
      (Action.clients t (2 * n + 1)) =
        some (q (.idleScan (.head (P.tail c.shared.incoming))) c.shared) :=
    run_scan hempty n (Nat.zero_add n)
  have htrue : c.shared.scan (.head (P.tail c.shared.incoming)) = .inr true :=
    congrArg Sum.inr (decide_eq_true (by exact_mod_cast hempty.incoming))
  have hanswer : (system policy).next (q (.idleScan (.head (P.tail c.shared.incoming))) c.shared)
      (.client t false none) = some (q (.unlockDone (.isIdle true)) c.shared) := by
    simp only [system, next, q, Function.update_self, Option.bind_some, stepClient, htrue,
      wakeWorkers, wakeAllProducers, Option.map_some, Function.update_idem]
  have hunlock : (system policy).next (q (.unlockDone (.isIdle true)) c.shared)
      (.client t false none) = some (q (.done (.isIdle true)) c.shared.unlock) := by
    simp only [system, next, q, Function.update_self, Option.bind_some, stepClient, wakeWorkers,
      wakeAllProducers, Option.map_some, Function.update_idem]
  refine ⟨q (.done (.isIdle true)) c.shared.unlock, ?_, Function.update_self .., fun hf => ?_⟩
  · have hsplit : (Action.clients t (2 * n + 4) : List (Action α n Tid)) = .client t false none ::
        (Action.clients t (2 * n + 1) ++ [.client t false none, .client t false none]) :=
      congrArg (List.cons _) (List.replicate_add (2 * n + 1) 2 _)
    rw [hsplit, System.run_cons, hload, Option.bind_some, System.run_append, hscan,
      Option.bind_some, System.run_cons, hanswer, Option.bind_some, System.run_cons, hunlock]
    rfl
  · exact hwork ⟨hf.executed, hf.stored, hf.hand⟩

end Wrong

end LowLatency.WorkStealingThreadPool
