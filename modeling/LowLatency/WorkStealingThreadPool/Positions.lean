import LowLatency.WorkStealingThreadPool.Access

/-!
# What the pool relies on about the counters of `incoming_`

`empty()` and `full()` compare `tail_` and `head_`. A push moves `tail_` when it claims its position,
from then on it is committed; a pop moves `head_` (`Positions`).
-/

namespace LowLatency.WorkStealingThreadPool

open Concurrency

universe u

variable {α : Type u} {P : Parts (Job α)} {n : ℕ} {Tid : Type*} [DecidableEq Tid]

/-- How operations move the counters of the queue. -/
structure Positions (P : Parts (Job α)) (n : ℕ) (Tid : Type*) [DecidableEq Tid]
    (QInv : P.QS → (Fin n ⊕ Tid → Option P.QL) → Prop) (committed : P.QL → Bool) : Prop where
  kept : P.queue.Inductive (mayUse n Tid) (fun _ _ => True) QInv
  push : ∀ {q l t x} (b : Bool), QInv q l → l (.inr t) = some x → P.queue.result x = none →
    P.head (P.queue.step b q x).1 = P.head q ∧
      (P.tail (P.queue.step b q x).1 = P.tail q ∧
          committed (P.queue.step b q x).2 = committed x ∨
        P.tail (P.queue.step b q x).1 = P.tail q + 1 ∧ committed x = false ∧
          committed (P.queue.step b q x).2 = true)
  pop : ∀ {q l i x} (b : Bool), QInv q l → l (.inl i) = some x → P.queue.result x = none →
    P.tail (P.queue.step b q x).1 = P.tail q ∧ P.head q ≤ P.head (P.queue.step b q x).1
  start : ∀ op, committed (P.queue.start op) = false
  /-- A push that fails has claimed nothing. -/
  refused : ∀ {x o}, P.queue.result x = some o → committed x = true → o.item = none

/-- The push of the thread has claimed its position. -/
def Client.committed (committed : P.QL → Bool) : Client P n → Bool
  | .push _ _ x => committed x
  | _ => false

section Scan

omit [DecidableEq Tid]

variable {s : Shared P n Tid} {e e' : Scan n}

/-- The scan loads `top_` and `bottom_` of each deque in turn, and then `tail_`. -/
theorem scan_eq_inl (h : s.scan e = .inl e') :
    (∃ d : Fin n, e = .top d ∧ e' = .bottom d (P.top (s.deques d))) ∨
      (∃ d t, e = .bottom d t ∧ e' = .top (d.val + 1) ∧ P.bottom (s.deques d) ≤ t) ∨
        ∃ d, e = .top d ∧ n ≤ d ∧ e' = .head (P.tail s.incoming) := by
  cases e with
  | top d =>
    simp only [Shared.scan] at h
    split at h <;> cases h
    next hd => exact .inl ⟨⟨d, hd⟩, rfl, rfl⟩
    next hd => exact .inr (.inr ⟨d, rfl, not_lt.mp hd, rfl⟩)
  | bottom d t =>
    simp only [Shared.scan] at h
    split at h <;> cases h
    next hempty => exact .inr (.inl ⟨d, t, rfl, rfl, WorkStealingDeque.empty_iff.mp hempty⟩)
  | head t => cases h

theorem scan_eq_true (h : s.scan e = .inr true) :
    ∃ t, e = .head t ∧ LockFreeQueue.empty t (P.head s.incoming) = true := by
  cases e with
  | top d | bottom d t =>
    simp only [Shared.scan] at h
    split at h <;> cases h
  | head t => exact ⟨t, rfl, Sum.inr.inj h⟩

end Scan

section Steps

variable {QInv : P.QS → (Fin n ⊕ Tid → Option P.QL) → Prop} {committed : P.QL → Bool}
  {s s' : Shared P n Tid} {w : Fin n → Worker P n} {l : Tid → Option (Client P n)} {i : Fin n}
  {t : Tid} {b : Bool}

/-- A worker moves `head_` only, and only in a pop from `incoming_`. -/
theorem Positions.worker (HP : Positions P n Tid QInv committed) {y : Worker P n}
    (hq : QInv s.incoming (onQueue w l)) (hs : WorkerStep i b s (w i) s' y) :
    P.tail s'.incoming = P.tail s.incoming ∧
      (P.head s'.incoming = P.head s.incoming ∨
        P.head s.incoming ≤ P.head s'.incoming ∧ ∃ k any a, y = .fillPop k any a) := by
  generalize hx : w i = x at hs
  cases hs with
  | @queue k any a ha =>
    obtain ⟨htail, hhead⟩ := HP.pop b hq
      (show onQueue w l (.inl i) = some a by rw [onQueue, Sum.elim_inl, hx]; rfl) ha
    exact ⟨htail, .inr ⟨hhead, _, _, _, rfl⟩⟩
  | deque => exact ⟨rfl, .inl rfl⟩
  | turn ht =>
    rw [ht.incoming]
    exact ⟨rfl, .inl rfl⟩

/-- Another thread moves `tail_` only, and only by claiming a position for its push. -/
theorem Positions.client (HP : Positions P n Tid QInv committed) {x y : Client P n}
    (hq : QInv s.incoming (onQueue w l)) (hx : l t = some x) (hs : ClientStep b s x s' y) :
    P.head s'.incoming = P.head s.incoming ∧
      (P.tail s'.incoming = P.tail s.incoming ∨
        P.tail s'.incoming = P.tail s.incoming + 1 ∧ x.committed committed = false ∧
          y.committed committed = true) := by
  cases hs with
  | @queue path j a ha =>
    obtain ⟨hhead, hpush⟩ := HP.push b hq
      (show onQueue w l (.inr t) = some a by rw [onQueue, Sum.elim_inr, hx]; rfl) ha
    rcases hpush with ⟨htail, _⟩ | ⟨htail, hno, hyes⟩
    · exact ⟨hhead, .inl htail⟩
    · exact ⟨hhead, .inr ⟨htail, hno, hyes⟩⟩
  | turn ht =>
    rw [ht.incoming]
    exact ⟨rfl, .inl rfl⟩

/-- A committed push stays committed until it returns true. -/
theorem Positions.committed_step (HP : Positions P n Tid QInv committed)
    {policy : WorkStealingRejectPolicy} {path : Path} {j : Job α} {a : P.QL} {y : Client P n}
    (hq : QInv s.incoming (onQueue w l)) (hx : l t = some (.push path j a))
    (hs : stepClient policy w t b s (.push path j a) = some (s', y))
    (hc : committed a = true) : y.committed committed = true ∨ y = afterPut path := by
  simp only [stepClient] at hs
  split at hs
  next ha =>
    cases hs
    obtain ⟨_, ⟨_, hsame⟩ | ⟨_, hno, _⟩⟩ := HP.push b hq
      (show onQueue w l (.inr t) = some a by rw [onQueue, Sum.elim_inr, hx]; rfl) ha
    · exact .inl (hsame.trans hc)
    · rw [hc] at hno
      cases hno
  next o ha =>
    rw [HP.refused ha hc] at hs
    cases hs
    exact .inr rfl

end Steps

/-! ## The queue of the source -/

section Real

/-- Workers run pops and the other threads pushes. -/
def Kinds (_ : LockFreeQueue.Shared (Job α))
    (l : Fin n ⊕ Tid → Option (LockFreeQueue.Local (Job α))) : Prop :=
  ∀ u x, l u = some x → x.isPush = u.isRight

variable [Inhabited α]

/-- Whatever is kept about the queue, as long as workers pop and the others push. -/
theorem positions_of_kinds {r : Ring}
    {QInv : LockFreeQueue.Shared (Job α) → (Fin n ⊕ Tid → Option (LockFreeQueue.Local (Job α))) → Prop}
    (hkept : (LockFreeQueue.object .exact r).Inductive (mayUse n Tid) (fun _ _ => True) QInv)
    (hkinds : ∀ q l, QInv q l → Kinds q l) :
    Positions (Parts.real (Job α) r) n Tid QInv LockFreeQueue.Local.committed where
  kept := hkept
  push b hq hx _ := LockFreeQueue.step_push (hkinds _ _ hq _ _ hx) b
  pop b hq hx _ := LockFreeQueue.step_pop (hkinds _ _ hq _ _ hx) b
  start op := by cases op <;> rfl
  refused {x o} hx hc := by
    cases x with
    | done o' =>
      obtain rfl := Option.some.inj hx
      cases o' with
      | put => rfl
      | _ => cases hc
    | _ => cases hx

theorem positions_real (r : Ring) : Positions (Parts.real (Job α) r) n Tid Kinds
    LockFreeQueue.Local.committed := by
  refine positions_of_kinds (Object.inductive_of_locals ?_ ?_) fun _ _ h => h
  · intro u op hm
    cases op with
    | push item => exact Eq.symm hm
    | pop => exact (Bool.not_eq_true' _ ▸ hm : Sum.isRight u = false).symm
  · intro u b q x hk
    exact (LockFreeQueue.isPush_step b).trans hk

end Real

end LowLatency.WorkStealingThreadPool
