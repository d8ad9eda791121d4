import Mathlib.Algebra.Order.BigOperators.Group.Finset
import Mathlib.Algebra.Order.Group.Multiset
import Mathlib.Data.BitVec
import Mathlib.Data.Finset.Range
import Mathlib.Tactic.Abel

/-!
# Where items are

The storage of a bounded container is a function from indices to optional items; `bag n f` is
the multiset of the items in the slots below `n`. Writing a slot exchanges its old content for
the new one (`bag_update`), so a store into an empty slot and an exchange with `none` move an
item and never copy or drop one.

`hands held l` adds up what the operations in progress hold; an instruction of one thread
exchanges what this thread held (`hands_update`).
-/

namespace LowLatency.Concurrency

variable {α : Type*}

/-- The content of one slot as a multiset. -/
def slot : Option α → Multiset α
  | none => 0
  | some x => {x}

@[simp] theorem slot_none : slot (none : Option α) = 0 := rfl

@[simp] theorem slot_some (x : α) : slot (some x) = {x} := rfl

theorem mem_slot {o : Option α} {x : α} : x ∈ slot o ↔ o = some x := by
  cases o <;> simp [slot, eq_comm]

theorem slot_eq_zero {o : Option α} : slot o = 0 ↔ o = none := by
  cases o <;> simp [slot]

/-- The items stored in the slots below `n`. -/
def bag (n : ℕ) (f : ℕ → Option α) : Multiset α := ∑ j ∈ Finset.range n, slot (f j)

theorem mem_bag {n : ℕ} {f : ℕ → Option α} {x : α} : x ∈ bag n f ↔ ∃ j < n, f j = some x := by
  simp [bag, Multiset.mem_sum, mem_slot]

theorem bag_eq_zero {n : ℕ} {f : ℕ → Option α} : bag n f = 0 ↔ ∀ j < n, f j = none := by
  simp only [Multiset.eq_zero_iff_forall_notMem, mem_bag, not_exists, not_and,
    Option.eq_none_iff_forall_ne_some]
  exact ⟨fun h j hj x => h x j hj, fun h x j hj => h j hj x⟩

theorem bag_eq_coe (n : ℕ) (f : ℕ → Option α) :
    (((List.range n).filterMap f : List α) : Multiset α) = bag n f := by
  induction n with
  | zero => rfl
  | succ n ih =>
    have hlast : (([n].filterMap f : List α) : Multiset α) = slot (f n) := by
      cases h : f n <;> simp [h]
    unfold bag at ih ⊢
    rw [List.range_succ, List.filterMap_append, ← Multiset.coe_add, ih, hlast,
      Finset.sum_range_succ]

/-- Writing `o` into slot `j` exchanges its content for `o`. -/
theorem bag_update {n j : ℕ} (hj : j < n) (f : ℕ → Option α) (o : Option α) :
    bag n (Function.update f j o) + slot (f j) = bag n f + slot o := by
  have hmem : j ∈ Finset.range n := Finset.mem_range.mpr hj
  have hrest : ∑ k ∈ (Finset.range n).erase j, slot (Function.update f j o k) =
      ∑ k ∈ (Finset.range n).erase j, slot (f k) :=
    Finset.sum_congr rfl fun k hk => by rw [Function.update_of_ne (Finset.ne_of_mem_erase hk)]
  unfold bag
  rw [← Finset.add_sum_erase _ _ hmem, ← Finset.add_sum_erase (Finset.range n) _ hmem, hrest,
    Function.update_self]
  abel

theorem bag_inj {n j k : ℕ} {f : ℕ → Option α} {x : α} (h : (bag n f).Nodup) (hj : j < n)
    (hk : k < n) (hfj : f j = some x) (hfk : f k = some x) : j = k := by
  by_contra hne
  have hup := bag_update hj f none
  rw [hfj, slot_none, add_zero, slot_some] at hup
  rw [← hup] at h
  have hmem : x ∈ bag n (Function.update f j none) :=
    mem_bag.mpr ⟨k, hk, by rw [Function.update_of_ne (Ne.symm hne), hfk]⟩
  exact Multiset.disjoint_left.mp (Multiset.nodup_add.mp h).2.2 hmem (Multiset.mem_singleton_self x)

/-! ## Sums over threads -/

section Tally

variable {Tid L M : Type*} [Fintype Tid] [AddCommMonoid M]

/-- The contributions of all threads. -/
def tally (f : L → M) (w : Tid → L) : M := ∑ t, f (w t)

theorem tally_eq_zero {f : L → M} {w : Tid → L} (h : ∀ t, f (w t) = 0) : tally f w = 0 :=
  Finset.sum_eq_zero fun t _ => h t

theorem tally_congr {f : L → M} {w w' : Tid → L} (h : ∀ t, f (w' t) = f (w t)) :
    tally f w' = tally f w :=
  Finset.sum_congr rfl fun t _ => h t

/-- When only `t` changes its contribution, it is exchanged for the new one. -/
theorem sum_exchange {f g : Tid → M} (t : Tid) (h : ∀ u, u ≠ t → g u = f u) :
    ∑ u, g u + f t = ∑ u, f u + g t := by
  classical
  have hrest : ∑ u ∈ Finset.univ.erase t, g u = ∑ u ∈ Finset.univ.erase t, f u :=
    Finset.sum_congr rfl fun u hu => h u (Finset.ne_of_mem_erase hu)
  have hmem := Finset.mem_univ t
  rw [← Finset.add_sum_erase _ _ hmem, ← Finset.add_sum_erase Finset.univ _ hmem, hrest]
  abel

/-- What thread `t` contributed is exchanged for what it contributes now. -/
theorem tally_update [DecidableEq Tid] (f : L → M) (w : Tid → L) (t : Tid) (x : L) :
    tally f (Function.update w t x) + f (w t) = tally f w + f x := by
  have hex := sum_exchange (f := fun u => f (w u)) (g := fun u => f (Function.update w t x u)) t
    fun u hu => by rw [Function.update_of_ne hu]
  rw [Function.update_self] at hex
  exact hex

theorem le_tally (f : L → ℕ) (w : Tid → L) (t : Tid) : f (w t) ≤ tally f w :=
  Finset.single_le_sum (f := fun t => f (w t)) (fun _ _ => Nat.zero_le _) (Finset.mem_univ t)

theorem tally_mono {f : L → ℕ} {w w' : Tid → L} (h : ∀ t, f (w t) ≤ f (w' t)) :
    tally f w ≤ tally f w' :=
  Finset.sum_le_sum fun t _ => h t

/-- Where nothing is contributed twice, two threads contribute different items. -/
theorem not_mem_of_tally_nodup {α : Type*} [DecidableEq Tid] {f : L → Multiset α} {w : Tid → L}
    (h : (tally f w).Nodup) {t u : Tid} (htu : t ≠ u) {x : α} (hx : x ∈ f (w t)) :
    x ∉ f (w u) := by
  have hu : u ∈ Finset.univ.erase t := Finset.mem_erase.mpr ⟨htu.symm, Finset.mem_univ u⟩
  unfold tally at h
  rw [← Finset.add_sum_erase _ _ (Finset.mem_univ t), ← Finset.add_sum_erase _ _ hu] at h
  have hdisj := (Multiset.nodup_add.mp h).2.2
  rw [Multiset.disjoint_add_right] at hdisj
  exact Multiset.disjoint_left.mp hdisj.1 hx

end Tally

/-! ## Sums over the operations in progress -/

section Hands

variable {Tid L M : Type*} [Fintype Tid] [DecidableEq Tid] [AddCommMonoid M]

/-- The contribution of one thread. -/
def hand (held : L → M) : Option L → M
  | none => 0
  | some x => held x

/-- The contributions of all threads, such as the items they hold. -/
def hands (held : L → M) (l : Tid → Option L) : M := ∑ t, hand held (l t)

omit [DecidableEq Tid] in
theorem hands_eq_zero_of_hand {held : L → M} {l : Tid → Option L}
    (h : ∀ t, hand held (l t) = 0) : hands held l = 0 :=
  tally_eq_zero h

omit [DecidableEq Tid] in
theorem hands_eq_zero {held : L → M} {l : Tid → Option L} (h : ∀ t, l t = none) :
    hands held l = 0 :=
  hands_eq_zero_of_hand fun t => by rw [h t]; rfl

omit [DecidableEq Tid] in
theorem le_hands (held : L → ℕ) {l : Tid → Option L} {t : Tid} {x : L} (h : l t = some x) :
    held x ≤ hands held l := by
  have hle := le_tally (hand held) l t
  rw [h] at hle
  exact hle

omit [DecidableEq Tid] in
/-- Where nobody contributes more than 1, the sum counts threads. -/
theorem hands_le_card {held : L → ℕ} {l : Tid → Option L} (h : ∀ t, hand held (l t) ≤ 1) :
    hands held l ≤ Fintype.card Tid := by
  calc hands held l ≤ ∑ _t : Tid, 1 := Finset.sum_le_sum fun t _ => h t
    _ = Fintype.card Tid := (Finset.card_eq_sum_ones _).symm

omit [DecidableEq Tid] in
theorem hands_lt_card {held : L → ℕ} {l : Tid → Option L} (h : ∀ t, hand held (l t) ≤ 1) {t : Tid}
    (ht : hand held (l t) = 0) : hands held l < Fintype.card Tid := by
  calc hands held l < ∑ _t : Tid, 1 :=
        Finset.sum_lt_sum (fun t _ => h t) ⟨t, Finset.mem_univ t, by omega⟩
    _ = Fintype.card Tid := (Finset.card_eq_sum_ones _).symm

theorem hands_update (held : L → M) (l : Tid → Option L) (t : Tid) (o : Option L) :
    hands held (Function.update l t o) + hand held (l t) = hands held l + hand held o :=
  tally_update (hand held) l t o

/-! A counter of `w` bits that is right up to wrapping. -/

section Counter

variable {held : L → ℕ} {l : Tid → Option L} {w : ℕ}

/-- It stays right when a thread exchanges what it contributes. -/
theorem ofNat_hands_update {a a' : BitVec w} {t : Tid} {o : Option L}
    (h : a = BitVec.ofNat w (hands held l))
    (hstep : a' + BitVec.ofNat w (hand held (l t)) = a + BitVec.ofNat w (hand held o)) :
    a' = BitVec.ofNat w (hands held (Function.update l t o)) := by
  have hup := congrArg (BitVec.ofNat w) (hands_update held l t o)
  rw [BitVec.ofNat_add, BitVec.ofNat_add, ← h, ← hstep] at hup
  exact (add_right_cancel hup).symm

omit [DecidableEq Tid] in
/-- Where it cannot wrap, 0 means that nothing is contributed. -/
theorem hands_eq_zero_of_ofNat (h : BitVec.ofNat w (hands held l) = 0) (hlt : hands held l < 2 ^ w) :
    hands held l = 0 := by
  have hval := congrArg BitVec.toNat h
  rwa [BitVec.toNat_ofNat, Nat.mod_eq_of_lt hlt] at hval

end Counter

end Hands

/-! ## Threads that arrive one after the other -/

section Arrived

variable {L : Type*} {m : ℕ}

/-- The first `n` of `m` threads are at `x`; the others, and one more thread, are outside. -/
def arrived (x : L) (n : ℕ) : Option (Fin m) → Option L
  | none => none
  | some i => if i.val < n then some x else none

theorem arrived_zero (x : L) : arrived x 0 = fun _ : Option (Fin m) => none := by
  funext t
  cases t <;> rfl

theorem arrived_succ (x : L) {n : ℕ} (hn : n < m) :
    arrived x (n + 1) = Function.update (arrived x n) (some (⟨n, hn⟩ : Fin m)) (some x) := by
  funext t
  cases t with
  | none => exact (Function.update_of_ne (by simp) ..).symm
  | some i =>
    by_cases hi : i = ⟨n, hn⟩
    · subst hi
      rw [Function.update_self]
      exact if_pos (Nat.lt_succ_self n)
    · have hne : i.val ≠ n := fun he => hi (Fin.ext he)
      rw [Function.update_of_ne (by simpa using hi)]
      have hiff : i.val < n + 1 ↔ i.val < n := by omega
      exact if_congr hiff rfl rfl

end Arrived

end LowLatency.Concurrency
