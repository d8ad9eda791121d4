import LowLatency.Concurrency.Monitor
import LowLatency.Concurrency.Slots
import LowLatency.Concurrency.System

/-!
# Runs that come to an end

`Inevitable ok P s`: however the actions that satisfy `ok` are scheduled from `s` on, a state with `P`
is reached; no such run goes on for ever before, and none gets stuck. It follows from a `Variant` that
each of these actions lowers, and from the fact that one of them is enabled as long as `P` does not
hold (`Variant.inevitable`).
-/

namespace LowLatency.Concurrency

namespace System

variable {σ A : Type*} {S : System σ A} {ok : σ → A → Prop} {I P : σ → Prop}

/-- Every schedule of actions that satisfy `ok` comes to a state with `P`. -/
inductive Inevitable (S : System σ A) (ok : σ → A → Prop) (P : σ → Prop) : σ → Prop
  | now {s : σ} : P s → Inevitable S ok P s
  | later {s : σ} : (∃ a s', ok s a ∧ S.next s a = some s') →
    (∀ a s', ok s a → S.next s a = some s' → Inevitable S ok P s') → Inevitable S ok P s

/-- The actions that satisfy `ok` keep `I` and lower `size`. -/
structure Variant (S : System σ A) (ok : σ → A → Prop) (I : σ → Prop) (size : σ → ℕ) : Prop where
  keeps : ∀ s a s', I s → ok s a → S.next s a = some s' → I s'
  lowers : ∀ s a s', I s → ok s a → S.next s a = some s' → size s' < size s

theorem Variant.inevitable {size : σ → ℕ} (h : S.Variant ok I size)
    (hprogress : ∀ s, I s → ¬ P s → ∃ a s', ok s a ∧ S.next s a = some s') {s : σ} (hI : I s) :
    S.Inevitable ok P s := by
  induction hk : size s using Nat.strong_induction_on generalizing s with
  | _ k ih =>
    by_cases hP : P s
    · exact .now hP
    · refine .later (hprogress s hI hP) fun a s' hok hn => ?_
      have hlow := h.lowers s a s' hI hok hn
      exact ih (size s') (hk ▸ hlow) (h.keeps s a s' hI hok hn) rfl

end System

/-! ## The price of a notification -/

section Notify

variable {Tid L : Type*} [Fintype Tid] {asleep : L → Bool} {wake : L → L} {l l' : Tid → L}

theorem exists_notifyOne [DecidableEq Tid] (asleep : L → Bool) (wake : L → L) (l : Tid → L) :
    ∃ w l', notifyOne asleep wake l w = some l' := by
  by_cases h : ∃ t, asleep (l t) = true
  · obtain ⟨t, ht⟩ := h
    exact ⟨some t, _, if_pos ht⟩
  · exact ⟨none, l, if_pos fun t => Bool.eq_false_of_not_eq_true fun ht => h ⟨t, ht⟩⟩

theorem tally_notifyOne_le [DecidableEq Tid] {f : L → ℕ} {k : ℕ} {w : Option Tid}
    (hf : ∀ x, asleep x = true → f (wake x) ≤ f x + k)
    (h : notifyOne asleep wake l w = some l') : tally f l' ≤ tally f l + k := by
  rcases notifyOne_cases h with ⟨u, hu, rfl⟩ | ⟨_, rfl⟩
  · have hup := tally_update f l u (wake (l u))
    have hle := hf _ hu
    omega
  · exact Nat.le_add_right _ _

theorem tally_notifyAll_le {f : L → ℕ} {k : ℕ}
    (hf : ∀ x, asleep x = true → f (wake x) ≤ f x + k) :
    tally f (notifyAll asleep wake l) ≤ tally f l + k * Fintype.card Tid := by
  have hone : ∀ t, f (notifyAll asleep wake l t) ≤ f (l t) + k := by
    intro t
    unfold notifyAll
    split
    next h => exact hf _ h
    · exact Nat.le_add_right _ _
  have hsum := Finset.sum_le_sum fun t (_ : t ∈ Finset.univ) => hone t
  rw [Finset.sum_add_distrib, Finset.sum_const, Finset.card_univ, Nat.nsmul_eq_mul, Nat.mul_comm] at hsum
  exact hsum

end Notify

end LowLatency.Concurrency
