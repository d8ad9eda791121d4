import LowLatency.Concurrency.Amortized
import LowLatency.LockFreeQueue.Alone

/-!
# The work of contending operations

An operation that loses the race for a position has two instructions to repeat. The winner pays for
them: besides the instructions that are left to it when it runs alone, an operation that has not claimed
a position carries two instructions for each other thread (`weight`). So the producers and consumers
together execute at most `2 n + 3` instructions for each call, `n` being the number of threads, and two
more for each compare-exchange that fails spuriously (`work_bounded`).
-/

namespace LowLatency.LockFreeQueue

open Concurrency

variable {α : Type*} {r : Ring} {s s' : Shared α}

/-- The operation has neither claimed a position nor returned. -/
def Local.contends : Local α → Bool
  | .pushLoadTail _ | .pushLoadSequence _ _ | .pushClaim _ _ | .popLoadHead | .popLoadSequence _
  | .popClaim _ => true
  | .pushWrite _ _ | .pushPublish _ | .popRead _ | .popPublish _ _ | .done _ => false

/-- The instructions left to an operation, and those that its claim may cost `n` other threads. -/
def weight (n : ℕ) (s : Shared α) (x : Local α) : ℕ :=
  potential s x + if x.contends then 2 * n else 0

theorem potential_congr (htail : s'.tail = s.tail) (hhead : s'.head = s.head) (x : Local α) :
    potential s' x = potential s x := by
  cases x <;> simp only [potential, htail, hhead]

/-- A claim puts the other operations back by two instructions at most. -/
theorem potential_le_add (s s' : Shared α) (x : Local α) : potential s' x ≤ potential s x + 2 := by
  cases x <;> simp only [potential] <;> first | omega | (split_ifs <;> omega)

section Step

variable [Inhabited α] {n : ℕ} {x : Local α}

/-- An instruction that claims a position, or leaves the counters alone. -/
theorem step_claimed (b : Bool) (hr : result x = none) :
    (b = false ∧ x.contends = true ∧ potential s x = 3 ∧
        potential (step .u64 r b s x).1 (step .u64 r b s x).2 = 2 ∧
        (step .u64 r b s x).2.contends = false) ∨
      ((step .u64 r b s x).1.tail = s.tail ∧ (step .u64 r b s x).1.head = s.head ∧
        ((step .u64 r b s x).2.contends = true → x.contends = true)) := by
  cases x with
  | pushClaim item pos =>
    simp only [step]
    split_ifs with hc
    · obtain ⟨rfl, rfl⟩ := hc
      exact .inl ⟨rfl, rfl, if_pos rfl, rfl, rfl⟩
    · exact .inr ⟨rfl, rfl, fun _ => rfl⟩
  | popClaim pos =>
    simp only [step]
    split_ifs with hc
    · obtain ⟨rfl, rfl⟩ := hc
      exact .inl ⟨rfl, rfl, if_pos rfl, rfl, rfl⟩
    · exact .inr ⟨rfl, rfl, fun _ => rfl⟩
  | pushLoadSequence | popLoadSequence =>
    simp only [step]
    split_ifs <;> exact .inr ⟨rfl, rfl, fun _ => rfl⟩
  | pushLoadTail | popLoadHead => exact .inr ⟨rfl, rfl, fun _ => rfl⟩
  | pushWrite | pushPublish | popRead | popPublish => exact .inr ⟨rfl, rfl, fun h => by cases h⟩
  | done => cases hr

/-- An instruction lowers the weight of its operation by one and by what it adds to the others. -/
theorem weight_step (n : ℕ) (b : Bool) (hlevel : Level r s) (hr : result x = none) :
    ∃ d, (∀ y, weight n (step .u64 r b s x).1 y ≤ weight n s y + d) ∧
      weight n (step .u64 r b s x).1 (step .u64 r b s x).2 + 1 + n * d ≤
        weight n s x + if b then 2 else 0 := by
  have hown := potential_step b (r := r) (fun _ _ => hlevel) hr
  rcases step_claimed (r := r) (s := s) b hr with ⟨rfl, hx, hbefore, hafter, hy⟩ | ⟨htail, hhead, hkeep⟩
  · refine ⟨2, fun y => ?_, ?_⟩
    · have hle := potential_le_add s (step .u64 r false s x).1 y
      unfold weight
      omega
    · unfold weight
      rw [hx, hy, hbefore, hafter]
      simp only [Bool.false_eq_true, if_false, if_true]
      omega
  · refine ⟨0, fun y => ?_, ?_⟩
    · unfold weight
      rw [potential_congr htail hhead, Nat.add_zero]
    · unfold weight
      by_cases hy : (step .u64 r b s x).2.contends = true
      · rw [if_pos hy, if_pos (hkeep hy)]
        omega
      · rw [if_neg hy]
        omega

end Step

section Runs

variable [Inhabited α] {Tid : Type*} [DecidableEq Tid] [Fintype Tid]

/-- The operations in progress. -/
def inProgress (c : Config Tid (Shared α) (Local α)) : ℕ :=
  (Finset.univ.filter fun t => (c.locals t).isSome).card

theorem amortized (r : Ring) (h2 : 2 ≤ r.size) :
    (object (α := α) .u64 r).Amortized (fun (_ : Tid) _ => true)
      (fun s _ => s.tail + r.size < 2 ^ 63) (Inv r) (weight (Fintype.card Tid - 1))
      (5 + 2 * (Fintype.card Tid - 1)) 2 where
  inv := (inv_inductive Word.u64_sound h2).mono (fun _ _ hmay => hmay) fun s x hfit n hn => by
    show n < 2 ^ 64
    omega
  start s op := by cases op <;> exact le_rfl
  step b hinv hl hr hfit := weight_step _ b (level hinv.ordered h2 (Nat.lt_trans hfit (by decide))) hr

omit [Inhabited α] [DecidableEq Tid] in
theorem load_le (c : Config Tid (Shared α) (Local α)) :
    Object.load (weight (Fintype.card Tid - 1)) c ≤ (2 * Fintype.card Tid + 4) * inProgress c := by
  have hhand : ∀ t, hand (weight (Fintype.card Tid - 1) c.shared) (c.locals t) ≤
      if (c.locals t).isSome then 2 * Fintype.card Tid + 4 else 0 := by
    intro t
    cases hl : c.locals t with
    | none => exact Nat.zero_le _
    | some x =>
      have hpot := potential_le c.shared x
      have hcard : 0 < Fintype.card Tid := Fintype.card_pos_iff.mpr ⟨t⟩
      show weight (Fintype.card Tid - 1) c.shared x ≤ 2 * Fintype.card Tid + 4
      unfold weight
      split <;> omega
  calc Object.load (weight (Fintype.card Tid - 1)) c
      ≤ ∑ t, if (c.locals t).isSome then 2 * Fintype.card Tid + 4 else 0 :=
        Finset.sum_le_sum fun t _ => hhand t
    _ = (2 * Fintype.card Tid + 4) * inProgress c := by
        rw [← Finset.sum_filter, Finset.sum_const, smul_eq_mul, Nat.mul_comm]
        rfl

/-- **Lock-freedom**: whatever the schedule, from any state reached while the positions fit
the signed comparison, `n` threads execute at most `2 n + 3` instructions for each operation they call, `2 n + 4` for each one in progress
already, and two for each compare-exchange that fails spuriously. So without new calls only so many
instructions are left. -/
theorem work_bounded (r : Ring) (h2 : 2 ≤ r.size) (c c' : Config Tid (Shared α) (Local α))
    (h : (system Tid .u64 r).Reach (Signed r) (initial Tid) c) (as : List (Action Tid (Op α)))
    (hrun : (system Tid .u64 r).runWhile (Signed r) c as = some c') :
    as.countP Action.isStep ≤ (2 * Fintype.card Tid + 4) * inProgress c +
      (2 * Fintype.card Tid + 3) * as.countP Action.isCall + 2 * as.countP Action.isSpurious := by
  have hfits : ∀ (c : Config Tid (Shared α) (Local α)) a, Signed r c a →
      Object.Guard (fun s _ => s.tail + r.size < 2 ^ 63) c a := by
    intro c a hok
    cases a with
    | step t b => exact fun _ _ => hok
    | call | ret => trivial
  have hinv : Inv r c.shared c.locals :=
    (amortized r h2).inv.reach (inv_init r) (h.mono hfits)
  have hwork := (amortized r h2).work_le hfits as hinv hrun
  have hload := load_le c
  have hcost : (5 + 2 * (Fintype.card Tid - 1)) * as.countP Action.isCall ≤
      (2 * Fintype.card Tid + 3) * as.countP Action.isCall := by
    rcases Nat.eq_zero_or_pos (Fintype.card Tid) with hzero | hpos
    · have : IsEmpty Tid := Fintype.card_eq_zero_iff.mp hzero
      cases as with
      | nil => exact le_rfl
      | cons a as => cases a <;> exact isEmptyElim (α := Tid) ‹_›
    · exact Nat.mul_le_mul_right _ (by omega)
  omega

/-- Both threads load the tail; thread 1 loses the race, and its weak exchange fails once more. -/
def race : List (Action (Fin 2) (Op ℕ)) :=
  List.flatten [[.call 0 (.push 7), .call 1 (.push 8)], Action.steps 0 2, Action.steps 1 2,
    Action.steps 0 3, Action.steps 1 2, [.step 1 true], Action.steps 1 4]

theorem work_bounded_race : ∃ c : Config (Fin 2) (Shared ℕ) (Local ℕ),
    (system (Fin 2) .u64 Ring.two).runWhile (Signed Ring.two) (initial (Fin 2)) race = some c ∧
      c.shared.tail = 2 ∧ race.countP Action.isStep ≤
        (2 * Fintype.card (Fin 2) + 4) * inProgress (initial (α := ℕ) (Fin 2)) +
          (2 * Fintype.card (Fin 2) + 3) * 2 + 2 * 1 := by
  have hrun : (((system (Fin 2) .u64 Ring.two).runWhile (Signed Ring.two) (initial (Fin 2))
      race).map fun c => c.shared.tail) = some 2 := by decide +kernel
  obtain ⟨c, hc, htail⟩ := Option.map_eq_some_iff.mp hrun
  exact ⟨c, hc, htail, work_bounded Ring.two (by decide) _ c System.Reach.refl race hc⟩

end Runs

end LowLatency.LockFreeQueue
