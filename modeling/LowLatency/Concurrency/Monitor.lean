import Mathlib.Data.Fintype.Basic
import Mathlib.Logic.Function.Basic

/-!
# Condition variables

A thread that waits on a condition variable is asleep until it is notified or wakes up spuriously,
and then locks the mutex again. `asleep` says of a thread's program point whether it sleeps on the
condition variable, and `wake` is the program point at which it then wants the mutex. A notification
delivered to nobody is lost.
-/

namespace LowLatency.Concurrency

variable {Tid L : Type*}

/-- `notify_one`. It wakes the sleeper `w`; there is none to choose only when nobody sleeps. -/
def notifyOne [DecidableEq Tid] [Fintype Tid] (asleep : L → Bool) (wake : L → L) (l : Tid → L) :
    Option Tid → Option (Tid → L)
  | some w => if asleep (l w) then some (Function.update l w (wake (l w))) else none
  | none => if ∀ t, asleep (l t) = false then some l else none

/-- `notify_all`. -/
def notifyAll (asleep : L → Bool) (wake : L → L) (l : Tid → L) : Tid → L :=
  fun t => if asleep (l t) then wake (l t) else l t

/-- Some of the sleepers have been woken up, and nothing else has happened. -/
def Woken (asleep : L → Bool) (wake : L → L) (l l' : Tid → L) : Prop :=
  ∀ t, l' t = l t ∨ (asleep (l t) = true ∧ l' t = wake (l t))

section Woken

variable {asleep : L → Bool} {wake : L → L} {l l' : Tid → L}

theorem Woken.refl : Woken asleep wake l l := fun _ => .inl rfl

theorem woken_update [DecidableEq Tid] {w : Tid} (h : asleep (l w) = true) :
    Woken asleep wake l (Function.update l w (wake (l w))) := by
  intro t
  by_cases ht : t = w
  · subst ht
    exact .inr ⟨h, Function.update_self ..⟩
  · exact .inl (Function.update_of_ne ht _ _)

theorem notifyOne_cases [DecidableEq Tid] [Fintype Tid] {w : Option Tid}
    (h : notifyOne asleep wake l w = some l') :
    (∃ u, asleep (l u) = true ∧ l' = Function.update l u (wake (l u))) ∨
      (∀ t, asleep (l t) = false) ∧ l' = l := by
  cases w with
  | none =>
    simp only [notifyOne] at h
    split at h
    next hnobody => exact .inr ⟨hnobody, (Option.some.inj h).symm⟩
    · cases h
  | some w =>
    simp only [notifyOne] at h
    split at h
    next hw => exact .inl ⟨w, hw, (Option.some.inj h).symm⟩
    · cases h

theorem woken_of_notifyOne [DecidableEq Tid] [Fintype Tid] {w : Option Tid}
    (h : notifyOne asleep wake l w = some l') : Woken asleep wake l l' := by
  rcases notifyOne_cases h with ⟨u, hu, rfl⟩ | ⟨_, rfl⟩
  · exact woken_update hu
  · exact Woken.refl

theorem woken_notifyAll : Woken asleep wake l (notifyAll asleep wake l) := by
  intro t
  unfold notifyAll
  split
  next h => exact .inr ⟨h, rfl⟩
  · exact .inl rfl

theorem asleep_notifyAll (hwake : ∀ x, asleep (wake x) = false) (t : Tid) :
    asleep (notifyAll asleep wake l t) = false := by
  unfold notifyAll
  split
  · exact hwake _
  next h => exact Bool.eq_false_of_not_eq_true h

theorem Woken.update [DecidableEq Tid] (h : Woken asleep wake l l') {t : Tid} {x : L} :
    Woken asleep wake (Function.update l t x) (Function.update l' t x) := by
  intro u
  by_cases hu : u = t
  · subst hu
    rw [Function.update_self, Function.update_self]
    exact .inl rfl
  · rw [Function.update_of_ne hu, Function.update_of_ne hu]
    exact h u

/-- What a sleeper has in common with a woken thread is the same for all threads. -/
theorem Woken.congr {β : Type*} {f : L → β} (h : Woken asleep wake l l')
    (hf : ∀ x, asleep x = true → f (wake x) = f x) (t : Tid) : f (l' t) = f (l t) := by
  rcases h t with he | ⟨ha, he⟩
  · rw [he]
  · rw [he, hf _ ha]

end Woken

end LowLatency.Concurrency
