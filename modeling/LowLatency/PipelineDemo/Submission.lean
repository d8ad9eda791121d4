import Mathlib.Algebra.BigOperators.Fin
import Mathlib.Algebra.Order.BigOperators.Group.Finset
import Mathlib.Data.Multiset.Range
import LowLatency.PipelineDemo.Basic
import LowLatency.ThreadPool.Drain

/-!
# What the producers submit

A producer's call of `submitVoid` offers its task until the ring takes it, and never fails, since the
pool blocks when it is full and only the main thread stops it, after all producers have ended. So the
tasks accepted are those of the turns that the loops have made (`Submits`).
-/

namespace LowLatency.PipelineDemo

open Concurrency ThreadPool

/-- The task that a call of `submitVoid` has not inserted yet. -/
def offers : Client ℕ → Option ℕ
  | .submitEnter v | .enqueueLock v | .enqueuePolicy v | .notFullAsleep v | .notFullWoken v
  | .enqueueStop v | .push v .accepted => some v
  | _ => none

/-- The call has inserted its task. -/
def delivered : Client ℕ → Bool
  | .submittedAdd .accepted | .unlockNotify .accepted | .notify .accepted | .leave .accepted
  | .done .accepted => true
  | _ => false

/-- The call is one of `shutdown`. -/
def shutsDown : Client ℕ → Bool
  | .shutdownLock | .shutdownTest | .shutdownSet | .shutdownUnlock | .notifyAll | .notifyAllNotFull
  | .awaitSubmits | .join _ | .unlockDone _ | .done _ => true
  | _ => false

/-- The tasks that a producer's call in progress has inserted. -/
def turn : Option (Client ℕ) → ℕ
  | some x => if delivered x then 1 else 0
  | none => 0

variable {g : Args}

/-- The tasks of the first `m` turns of a producer. -/
def tasksOf (g : Args) (p : Fin g.producers) (m : ℕ) : Multiset ℕ := (Multiset.range m).map (g.seq p)

theorem tasksOf_succ (p : Fin g.producers) (m : ℕ) :
    tasksOf g p (m + 1) = tasksOf g p m + {g.seq p m} := by
  unfold tasksOf
  rw [Multiset.range_succ, Multiset.map_cons, ← Multiset.singleton_add, add_comm]

theorem sum_tasksOf (per : ℕ) : ∀ k : ℕ,
    ∑ p : Fin k, (Multiset.range per).map (fun i => p * per + i) = Multiset.range (k * per) := by
  intro k
  induction k with
  | zero =>
    rw [Nat.zero_mul]
    rfl
  | succ k ih =>
    rw [Fin.sum_univ_castSucc, Nat.succ_mul, Multiset.range_add]
    simp only [Fin.val_castSucc, Fin.val_last, ih]

/-- What the pool has accepted, what the callers are doing, and what they have done before. -/
structure Submits (g : Args) (sent : Fin g.producers → ℕ) (joined stops : Bool)
    (s : Shared ℕ g.workers (Caller g)) (l : Caller g → Option (Client ℕ)) : Prop where
  sent_le : ∀ p, sent p ≤ g.per
  producer : ∀ p x, l (some p) = some x →
    sent p < g.per ∧ (offers x = some (g.seq p (sent p)) ∨ delivered x = true)
  accepted : ((s.accepted.map Job.task : List ℕ) : Multiset ℕ) =
    ∑ p, tasksOf g p (sent p + turn (l (some p)))
  caller : ∀ x, l none = some x → shutsDown x = true
  quiet : stops = false → s.stop = false ∧ l none = none
  ended : joined = true → ∀ p, sent p = g.per ∧ l (some p) = none
  stops_joined : stops = true → joined = true

section Step

variable {sent : Fin g.producers → ℕ} {joined stops : Bool} {s s' : Shared ℕ g.workers (Caller g)}
  {w : Fin g.workers → Worker ℕ} {l l' : Caller g → Option (Client ℕ)} {t : Caller g}
  {p : Fin g.producers} {x y : Client ℕ} {v : ℕ}

/-- The call of a producer moves on in a pool that is not stopped. -/
theorem offers_step (hi : ThreadPool.Inv s w l) (hl : l t = some x) (hstop : s.stop = false)
    (hs : stepClient .block w t s x = some (s', y)) (hv : offers x = some v) :
    s'.stop = false ∧ ((offers y = some v ∧ s'.accepted = s.accepted) ∨
      (delivered y = true ∧ s'.accepted.map Job.task = s.accepted.map Job.task ++ [v])) := by
  cases x with
  | submitEnter task =>
    cases hs
    exact ⟨hstop, .inl ⟨hv, rfl⟩⟩
  | enqueueLock task | notFullWoken task =>
    obtain ⟨s₁, hlock, he⟩ := Option.map_eq_some_iff.mp hs
    cases he
    obtain ⟨_, rfl⟩ := lock_eq_some hlock
    exact ⟨hstop, .inl ⟨hv, rfl⟩⟩
  | enqueuePolicy task =>
    simp only [stepClient] at hs
    split at hs <;> cases hs <;> exact ⟨hstop, .inl ⟨hv, rfl⟩⟩
  | enqueueStop task =>
    simp only [stepClient, hstop, Bool.false_eq_true, if_false] at hs
    cases hs
    exact ⟨hstop, .inl ⟨hv, rfl⟩⟩
  | push task r =>
    obtain ⟨b, hput, _⟩ := hi.client_push hl
    simp only [stepClient, hput] at hs
    cases hs
    cases r with
    | accepted =>
      obtain rfl : task = v := Option.some.inj hv
      exact ⟨hstop, .inr ⟨rfl, by rw [List.map_append]; rfl⟩⟩
    | _ => cases hv
  | notFullAsleep => cases hs
  | _ => cases hv

theorem delivered_step (hs : stepClient .block w t s x = some (s', y)) (hv : delivered x = true) :
    delivered y = true ∧ s'.accepted = s.accepted ∧ s'.stop = s.stop := by
  cases x with
  | submittedAdd r | unlockNotify r | notify r | leave r =>
    cases hs
    cases r <;> first | exact ⟨rfl, rfl, rfl⟩ | cases hv
  | done => cases hs
  | _ => cases hv

theorem shutsDown_step (hs : stepClient .block w t s x = some (s', y)) (hv : shutsDown x = true) :
    shutsDown y = true ∧ s'.accepted = s.accepted := by
  cases x with
  | shutdownLock =>
    obtain ⟨s₁, hlock, he⟩ := Option.map_eq_some_iff.mp hs
    cases he
    obtain ⟨_, rfl⟩ := lock_eq_some hlock
    exact ⟨rfl, rfl⟩
  | shutdownTest | awaitSubmits =>
    simp only [stepClient] at hs
    split at hs <;> cases hs <;> exact ⟨rfl, rfl⟩
  | join k =>
    simp only [stepClient] at hs
    split at hs
    · split at hs <;> cases hs
      exact ⟨rfl, rfl⟩
    · cases hs
      exact ⟨rfl, rfl⟩
  | shutdownSet | shutdownUnlock | notifyAll | notifyAllNotFull | unlockDone =>
    cases hs
    exact ⟨rfl, rfl⟩
  | done => cases hs
  | _ => cases hv

/-- A sleeping producer stays where it is when it is woken up. -/
theorem woken_cases (hw : Woken Client.sleeping Client.wake l l') (t : Caller g) :
    l' t = l t ∨ ∃ task, l t = some (.notFullAsleep task) ∧ l' t = some (.notFullWoken task) := by
  rcases hw t with he | ⟨hs, he⟩
  · exact .inl he
  · cases hl : l t with
    | none =>
      rw [hl] at hs
      cases hs
    | some x =>
      rw [hl] at hs he
      cases x with
      | notFullAsleep task => exact .inr ⟨task, rfl, he⟩
      | _ => cases hs

theorem Submits.wake (h : Submits g sent joined stops s l)
    (hw : Woken Client.sleeping Client.wake l l') : Submits g sent joined stops s l' := by
  have hturn : ∀ p, turn (l' (some p)) = turn (l (some p)) := by
    intro p
    rcases woken_cases hw (some p) with he | ⟨task, hl, hl'⟩
    · rw [he]
    · rw [hl, hl']
      rfl
  have hnone : ∀ t, l t = none → l' t = none := by
    intro t ht
    rcases woken_cases hw t with he | ⟨task, hl, _⟩
    · exact he.trans ht
    · cases hl.symm.trans ht
  refine ⟨h.sent_le, ?_, ?_, ?_, ?_, ?_, h.stops_joined⟩
  · intro p x hx
    rcases woken_cases hw (some p) with he | ⟨task, hl, hl'⟩
    · exact h.producer p x (he ▸ hx)
    · obtain ⟨hlt, hcase⟩ := h.producer p _ hl
      obtain rfl := Option.some.inj (hl'.symm.trans hx)
      exact ⟨hlt, hcase⟩
  · rw [h.accepted]
    exact Finset.sum_congr rfl fun p _ => by rw [hturn]
  · intro x hx
    rcases woken_cases hw none with he | ⟨task, hl, _⟩
    · exact h.caller x (he ▸ hx)
    · cases h.caller _ hl
  · intro hstops
    exact ⟨(h.quiet hstops).1, hnone none (h.quiet hstops).2⟩
  · intro hjoined p
    exact ⟨(h.ended hjoined p).1, hnone _ (h.ended hjoined p).2⟩

theorem Submits.worker (h : Submits g sent joined stops s l) (hstop : s'.stop = s.stop)
    (hacc : s'.accepted = s.accepted) : Submits g sent joined stops s' l where
  sent_le := h.sent_le
  producer := h.producer
  accepted := by
    rw [hacc]
    exact h.accepted
  caller := h.caller
  quiet hstops := by
    rw [hstop]
    exact h.quiet hstops
  ended := h.ended
  stops_joined := h.stops_joined

theorem sum_turn (f f' : Fin g.producers → ℕ) (p : Fin g.producers) (hother : ∀ q, q ≠ p → f' q = f q) :
    (f' p = f p → ∑ q, tasksOf g q (f' q) = ∑ q, tasksOf g q (f q)) ∧
      (f' p = f p + 1 →
        ∑ q, tasksOf g q (f' q) = ∑ q, tasksOf g q (f q) + {g.seq p (f p)}) := by
  have hex := sum_exchange (f := fun q => tasksOf g q (f q)) (g := fun q => tasksOf g q (f' q)) p
    fun q hq => by rw [hother q hq]
  constructor
  · intro he
    rw [he] at hex
    exact Multiset.add_left_inj.mp hex
  · intro he
    rw [he, tasksOf_succ, ← add_assoc, add_right_comm] at hex
    exact Multiset.add_left_inj.mp hex

theorem Submits.producer_next (h : Submits g sent joined stops s l) (hi : ThreadPool.Inv s w l)
    (hl : l (some p) = some x) (hs : stepClient .block w (some p) s x = some (s', y)) :
    Submits g sent joined stops s' (Function.update l (some p) (some y)) := by
  have hnot : joined = false := by
    by_contra hj
    cases (h.ended (by simpa using hj) p).2.symm.trans hl
  have hstops : stops = false := by
    by_contra hst
    cases (h.stops_joined (by simpa using hst)).symm.trans hnot
  obtain ⟨hstop, hmain⟩ := h.quiet hstops
  obtain ⟨hlt, hcase⟩ := h.producer p x hl
  -- what the call comes to, and whether it inserts its task
  have hstep : s'.stop = false ∧ (offers y = some (g.seq p (sent p)) ∨ delivered y = true) ∧
      ((s'.accepted = s.accepted ∧ turn (some y) = turn (some x)) ∨
        (s'.accepted.map Job.task = s.accepted.map Job.task ++ [g.seq p (sent p)] ∧
          turn (some x) = 0 ∧ turn (some y) = 1)) := by
    rcases hcase with hoffers | hdelivered
    · have hx0 : delivered x = false := by
        cases x with
        | push task r => rfl
        | submitEnter | enqueueLock | enqueuePolicy | notFullAsleep | notFullWoken | enqueueStop => rfl
        | _ => cases hoffers
      obtain ⟨hstop', ⟨hy, hacc⟩ | ⟨hy, hacc⟩⟩ := offers_step hi hl hstop hs hoffers
      · have hy0 : delivered y = false := by
          cases y with
          | push task r => rfl
          | submitEnter | enqueueLock | enqueuePolicy | notFullAsleep | notFullWoken | enqueueStop =>
            rfl
          | _ => cases hy
        refine ⟨hstop', .inl hy, .inl ⟨hacc, ?_⟩⟩
        simp only [turn, hx0, hy0]
      · refine ⟨hstop', .inr hy, .inr ⟨hacc, ?_, ?_⟩⟩
        · simp only [turn, hx0, Bool.false_eq_true, if_false]
        · simp only [turn, hy, if_true]
    · obtain ⟨hy, hacc, hstop'⟩ := delivered_step hs hdelivered
      refine ⟨hstop'.trans hstop, .inr hy, .inl ⟨hacc, ?_⟩⟩
      simp only [turn, hy, hdelivered]
  obtain ⟨hstop', hy, hturn⟩ := hstep
  refine ⟨h.sent_le, ?_, ?_, ?_, ?_, ?_, h.stops_joined⟩
  · intro q z hz
    rcases update_eq_some hz with ⟨hq, ho⟩ | ⟨_, hz⟩
    · obtain rfl := Option.some.inj hq
      obtain rfl := Option.some.inj ho
      exact ⟨hlt, hy⟩
    · exact h.producer q z hz
  · have hsum := sum_turn (fun q => sent q + turn (l (some q)))
      (fun q => sent q + turn (Function.update l (some p) (some y) (some q))) p fun q hq => by
        rw [Function.update_of_ne (fun he => hq (Option.some.inj he))]
    simp only [Function.update_self] at hsum
    rw [hl] at hsum
    rcases hturn with ⟨hacc, heq⟩ | ⟨hacc, hx, hy⟩
    · rw [hsum.1 (by rw [heq]), hacc]
      exact h.accepted
    · rw [hsum.2 (by rw [hx, hy]), hacc, hx, ← Multiset.coe_add, h.accepted]
      rfl
  · intro z hz
    rw [Function.update_of_ne (Option.some_ne_none p).symm] at hz
    exact h.caller z hz
  · intro _
    rw [Function.update_of_ne (Option.some_ne_none p).symm]
    exact ⟨hstop', hmain⟩
  · intro hj
    rw [hnot] at hj
    cases hj

theorem Submits.next (h : Submits g sent joined stops s l) (hi : ThreadPool.Inv s w l)
    (hl : l t = some x) (hs : stepClient .block w t s x = some (s', y)) :
    Submits g sent joined stops s' (Function.update l t (some y)) := by
  cases t with
  | some p => exact h.producer_next hi hl hs
  | none =>
    obtain ⟨hy, hacc⟩ := shutsDown_step hs (h.caller x hl)
    have hsome : ∀ p, Function.update l none (some y) (some p) = l (some p) := fun p =>
      Function.update_of_ne (Option.some_ne_none p) ..
    refine ⟨h.sent_le, ?_, ?_, ?_, ?_, ?_, h.stops_joined⟩
    · intro p z hz
      rw [hsome] at hz
      exact h.producer p z hz
    · rw [hacc]
      simp only [hsome]
      exact h.accepted
    · intro z hz
      rw [Function.update_self] at hz
      exact Option.some.inj hz ▸ hy
    · intro hstops
      cases (h.quiet hstops).2.symm.trans hl
    · intro hjoined p
      rw [hsome]
      exact h.ended hjoined p

end Step

end LowLatency.PipelineDemo
