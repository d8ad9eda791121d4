import Mathlib.Algebra.Group.Action.Defs
import Mathlib.Algebra.BigOperators.Group.Finset.Basic
import Mathlib.Algebra.Order.BigOperators.Group.Finset
import Mathlib.Algebra.Ring.Nat
import Mathlib.Data.List.Count
import LowLatency.Concurrency.Object
import LowLatency.Concurrency.Slots

/-!
# The work of all threads

Threads that get in each other's way repeat instructions. A weight of each operation in progress
bounds that work when an instruction lowers its own weight by more than it adds to the weights of the
others (`Amortized`): all threads together then execute at most a fixed number of instructions for each
call, whatever the schedule (`Amortized.work_le`). An object of this kind is lock-free: without new
calls only so many instructions are left.
-/

namespace LowLatency.Concurrency

namespace Action

variable {Tid Op : Type*}

def isCall : Action Tid Op → Bool
  | .call _ _ => true
  | _ => false

def isStep : Action Tid Op → Bool
  | .step _ _ => true
  | _ => false

/-- An instruction that makes use of the choice left to it, such as a spurious failure. -/
def isSpurious : Action Tid Op → Bool
  | .step _ choice => choice
  | _ => false

end Action

namespace Object

variable {Tid Op Res Shared Local : Type*} [DecidableEq Tid] [Fintype Tid]
  {O : Object Op Res Shared Local}

/-- Weights of the operations in progress: a new one weighs `cost` at most, and an instruction lowers its
own weight by one and by as much as it adds to those of the other threads. A choice costs `spurious`. -/
structure Amortized (O : Object Op Res Shared Local) (may : Tid → Op → Bool)
    (ok : Shared → Local → Prop) (Inv : Shared → (Tid → Option Local) → Prop)
    (weight : Shared → Local → ℕ) (cost spurious : ℕ) : Prop where
  inv : O.Inductive may ok Inv
  start : ∀ s op, weight s (O.start op) ≤ cost
  step : ∀ {s l t x} (b : Bool), Inv s l → l t = some x → O.result x = none → ok s x →
    ∃ d, (∀ y, weight (O.step b s x).1 y ≤ weight s y + d) ∧
      weight (O.step b s x).1 (O.step b s x).2 + 1 + (Fintype.card Tid - 1) * d ≤
        weight s x + if b then spurious else 0

/-- The weight of all operations in progress. -/
def load (weight : Shared → Local → ℕ) (c : Config Tid Shared Local) : ℕ :=
  hands (weight c.shared) c.locals

/-- When one thread is exchanged, and the others gain `d` at most. -/
theorem sum_exchange_le {f g : Tid → ℕ} {d : ℕ} (t : Tid) (h : ∀ u, u ≠ t → g u ≤ f u + d) :
    ∑ u, g u + f t ≤ ∑ u, f u + g t + (Fintype.card Tid - 1) * d := by
  have hmem := Finset.mem_univ t
  have hrest : ∑ u ∈ Finset.univ.erase t, g u ≤ ∑ u ∈ Finset.univ.erase t, (f u + d) :=
    Finset.sum_le_sum fun u hu => h u (Finset.ne_of_mem_erase hu)
  rw [Finset.sum_add_distrib, Finset.sum_const, Finset.card_erase_of_mem hmem, Finset.card_univ,
    smul_eq_mul] at hrest
  rw [← Finset.add_sum_erase _ _ hmem, ← Finset.add_sum_erase Finset.univ f hmem]
  omega

variable {may : Tid → Op → Bool} {ok : Shared → Local → Prop}
  {Inv : Shared → (Tid → Option Local) → Prop} {weight : Shared → Local → ℕ} {cost spurious : ℕ}

theorem Amortized.next (h : O.Amortized may ok Inv weight cost spurious)
    {c c' : Config Tid Shared Local} {a : Action Tid Op} (hc : Inv c.shared c.locals)
    (hok : Guard ok c a) (hn : (O.client may).next c a = some c') :
    load weight c' + (if a.isStep then 1 else 0) ≤
      load weight c + (if a.isCall then cost else 0) + if a.isSpurious then spurious else 0 := by
  cases a with
  | call t op =>
    obtain ⟨hl, _, rfl⟩ := next_call hn
    have hup := hands_update (weight c.shared) c.locals t (some (O.start op))
    have hstart := h.start c.shared op
    rw [hl] at hup
    simp only [hand] at hup
    simp only [load, Action.isStep, Action.isCall, Action.isSpurious, Bool.false_eq_true, if_false,
      if_true]
    omega
  | ret t =>
    obtain ⟨x, r, hl, _, rfl⟩ := next_ret hn
    have hup := hands_update (weight c.shared) c.locals t none
    simp only [hand] at hup
    simp only [load, Action.isStep, Action.isCall, Action.isSpurious, Bool.false_eq_true, if_false]
    omega
  | step t b =>
    obtain ⟨x, hl, hr, rfl⟩ := next_step hn
    obtain ⟨d, hothers, hown⟩ := h.step b hc hl hr (hok x hl)
    have hsum := sum_exchange_le (d := d) (f := fun u => hand (weight c.shared) (c.locals u))
      (g := fun u => hand (weight (O.step b c.shared x).1)
        (Function.update c.locals t (some (O.step b c.shared x).2) u)) t fun u hu => by
          rw [Function.update_of_ne hu]
          cases c.locals u with
          | none => exact Nat.zero_le _
          | some y => exact hothers y
    rw [hl, Function.update_self] at hsum
    have hx : hand (weight c.shared) (some x) = weight c.shared x := rfl
    have hy : hand (weight (O.step b c.shared x).1) (some (O.step b c.shared x).2) =
        weight (O.step b c.shared x).1 (O.step b c.shared x).2 := rfl
    rw [hx, hy] at hsum
    show hands (weight (O.step b c.shared x).1)
        (Function.update c.locals t (some (O.step b c.shared x).2)) + 1 ≤
      hands (weight c.shared) c.locals + 0 + if b then spurious else 0
    unfold hands
    omega

section Runs

variable {allowed : Config Tid Shared Local → Action Tid Op → Prop} [∀ c a, Decidable (allowed c a)]

/-- **Amortized work**: the instructions of a run are paid for by its calls, its choices and the
operations in progress at its beginning. -/
theorem Amortized.work_le (h : O.Amortized may ok Inv weight cost spurious)
    (hallowed : ∀ c a, allowed c a → Guard ok c a) (as : List (Action Tid Op)) :
    ∀ {c c' : Config Tid Shared Local}, Inv c.shared c.locals →
      (O.client may).runWhile allowed c as = some c' →
      load weight c' + as.countP Action.isStep ≤
        load weight c + cost * as.countP Action.isCall + spurious * as.countP Action.isSpurious := by
  induction as with
  | nil =>
    intro c c' _ hrun
    obtain rfl := Option.some.inj hrun
    simp only [List.countP_nil, Nat.mul_zero, Nat.add_zero, Nat.le_refl]
  | cons a as ih =>
    intro c c' hc hrun
    rw [System.runWhile] at hrun
    by_cases hok : allowed c a
    · rw [if_pos hok, Option.bind_eq_some_iff] at hrun
      obtain ⟨c₁, hn, hrest⟩ := hrun
      have hguard := hallowed c a hok
      have hstep := h.next hc hguard hn
      have hrun := ih (h.inv.next hc hguard hn) hrest
      rw [List.countP_cons, List.countP_cons, List.countP_cons, Nat.mul_add, Nat.mul_add, mul_ite,
        mul_ite, Nat.mul_one, Nat.mul_one, Nat.mul_zero, Nat.mul_zero]
      omega
    · rw [if_neg hok] at hrun
      cases hrun

end Runs

end Object

end LowLatency.Concurrency
