import Mathlib.Data.Nat.Log
import Mathlib.Data.BitVec
import Mathlib.Tactic.NormNum

/-!
# Rounding a capacity to a power of two

`nextPowerOfTwoSafe` and `nextPowerOfTwoChecked` of `NextPowerOfTwo.h`, on 64-bit words. The
first has two bodies, the shift cascade of constant evaluation and the count of leading zeros of
run time; `constantEvaluated` selects between them.

Every ring container takes its size from `nextPowerOfTwoChecked` and indexes its slots by masking
a position. `Pow2` is such a size, so that masking is the remainder (`Pow2.slot_eq_mod`) and the
positions of a window no longer than the size have different slots (`Pow2.slot_inj`). `Ring` adds
the bound `2 ^ 63` of the sizes that come from `nextPowerOfTwoChecked`.
-/

namespace LowLatency

/-- `size_t` on x86-64. -/
abbrev SizeT := BitVec 64

/-- `2 ^ 63`, the largest power of two a `size_t` holds. -/
def maxPow2 : SizeT := 1#64 <<< 63

/-- The shift cascade: every bit below the highest set bit of `m` is set. -/
def smear (m : SizeT) : SizeT :=
  let m := m ||| m >>> 1
  let m := m ||| m >>> 2
  let m := m ||| m >>> 4
  let m := m ||| m >>> 8
  let m := m ||| m >>> 16
  m ||| m >>> 32

/-- The least power of two that is at least `n`, or `none` when it does not fit. -/
def nextPowerOfTwoSafe (constantEvaluated : Bool) (n : SizeT) : Option SizeT :=
  if n ≤ 1 then some 1
  else if maxPow2 < n then none
  else if constantEvaluated then some (smear (n - 1) + 1)
  else some (1#64 <<< (64 - (n - 1).clz.toNat))

/-- The throwing version the constructors call at run time. -/
def nextPowerOfTwoChecked (n : SizeT) : Except String SizeT :=
  match nextPowerOfTwoSafe false n with
  | some r => .ok r
  | none => .error "nextPowerOfTwo: value exceeds representable range (2^63)"

theorem maxPow2_toNat : maxPow2.toNat = 2 ^ 63 := by decide

theorem toNat_pred {n : SizeT} (h : 1 < n.toNat) : (n - 1).toNat = n.toNat - 1 := by
  rw [BitVec.toNat_sub_of_le (by rw [BitVec.le_def]; exact h.le)]
  rfl

theorem toNat_one_shiftLeft {k : ℕ} (h : k < 64) : (1#64 <<< k).toNat = 2 ^ k := by
  rw [BitVec.toNat_shiftLeft, Nat.shiftLeft_eq, BitVec.toNat_ofNat, Nat.one_mod, Nat.one_mul]
  exact Nat.mod_eq_of_lt (Nat.pow_lt_pow_right (by norm_num) h)

theorem pred_ne_zero {n : SizeT} (h : 1 < n.toNat) : n - 1 ≠ 0#64 := by
  intro hzero
  have hsub := congrArg BitVec.toNat hzero
  rw [toNat_pred h, BitVec.toNat_zero] at hsub
  omega

/-- The number of significant bits that the run-time path shifts by. -/
theorem shift_bounds {n : SizeT} (h1 : 1 < n.toNat) (h2 : n.toNat ≤ 2 ^ 63) :
    ∃ k, 1 ≤ k ∧ k ≤ 63 ∧ 64 - (n - 1).clz.toNat = k ∧ n.toNat ≤ 2 ^ k ∧ 2 ^ (k - 1) < n.toNat := by
  have hsub := toNat_pred h1
  have hne := pred_ne_zero h1
  have hlow : 2 ^ (64 - 1 - (n - 1).clz.toNat) ≤ n.toNat - 1 := by
    rw [← hsub]
    exact BitVec.two_pow_sub_clz_le_toNat_of_ne_zero (by norm_num) hne
  have hhigh : n.toNat - 1 < 2 ^ (64 - (n - 1).clz.toNat) := by
    rw [← hsub]
    exact BitVec.toNat_lt_two_pow_sub_clz
  have hlt : (n - 1).clz.toNat < 64 := by
    have := BitVec.clz_lt_iff_ne_zero.mpr hne
    rw [BitVec.lt_def] at this
    exact this
  have hpos : 1 ≤ (n - 1).clz.toNat := by
    by_contra h
    rw [show (n - 1).clz.toNat = 0 by omega] at hlow
    omega
  exact ⟨64 - (n - 1).clz.toNat, by omega, by omega, rfl, by omega,
    by rw [show 64 - (n - 1).clz.toNat - 1 = 64 - 1 - (n - 1).clz.toNat by omega]; omega⟩

theorem nextPowerOfTwoChecked_spec {n r : SizeT} (h : nextPowerOfTwoChecked n = .ok r) :
    ∃ k ≤ 63, r.toNat = 2 ^ k ∧ n.toNat ≤ r.toNat ∧ (n.toNat ≤ 1 → k = 0) := by
  unfold nextPowerOfTwoChecked nextPowerOfTwoSafe at h
  by_cases h1 : n ≤ 1
  · rw [if_pos h1] at h
    obtain rfl : (1 : SizeT) = r := Except.ok.inj h
    exact ⟨0, by norm_num, rfl, by simpa [BitVec.le_def] using h1, fun _ => rfl⟩
  · rw [if_neg h1] at h
    rw [BitVec.le_def] at h1
    by_cases h2 : maxPow2 < n
    · rw [if_pos h2] at h
      cases h
    · rw [if_neg h2, if_neg (by decide)] at h
      rw [BitVec.lt_def, maxPow2_toNat] at h2
      obtain ⟨k, _, hk, heq, hn, _⟩ :=
        shift_bounds (n := n) (by simpa using h1) (by omega)
      have hr := Except.ok.inj h
      rw [heq] at hr
      subst hr
      have hpow : (1#64 <<< k).toNat = 2 ^ k := toNat_one_shiftLeft (by omega)
      exact ⟨k, hk, hpow, by rw [hpow]; exact hn, fun h => absurd h (by simpa using h1)⟩

theorem nextPowerOfTwoChecked_ok {n : SizeT} (h : n.toNat ≤ 2 ^ 63) :
    ∃ r, nextPowerOfTwoChecked n = .ok r := by
  have hmax : ¬ maxPow2 < n := by
    rw [BitVec.lt_def, maxPow2_toNat]
    omega
  unfold nextPowerOfTwoChecked nextPowerOfTwoSafe
  rw [if_neg hmax]
  by_cases h1 : n ≤ 1
  · rw [if_pos h1]
    exact ⟨_, rfl⟩
  · rw [if_neg h1, if_neg Bool.false_ne_true]
    exact ⟨_, rfl⟩

/-! ## Rings -/

/-- The size of an array of cells. -/
structure Pow2 where
  size : ℕ
  isPow : ∃ k, size = 2 ^ k

namespace Pow2

variable (r : Pow2)

/-- Twice the size. -/
def double : Pow2 := ⟨r.size * 2, let ⟨k, h⟩ := r.isPow; ⟨k + 1, by rw [h, pow_succ]⟩⟩

/-- `mask`. -/
def mask : ℕ := r.size - 1

/-- The physical slot of a position, `pos & mask`. -/
def slot (pos : ℕ) : ℕ := pos &&& r.mask

@[simp] theorem size_double : r.double.size = r.size * 2 := rfl

theorem size_pos : 0 < r.size := by
  obtain ⟨k, h⟩ := r.isPow
  rw [h]
  exact Nat.two_pow_pos k

theorem slot_eq_mod (pos : ℕ) : r.slot pos = pos % r.size := by
  obtain ⟨k, h⟩ := r.isPow
  unfold slot mask
  rw [h, Nat.and_two_pow_sub_one_eq_mod]

theorem slot_lt (pos : ℕ) : r.slot pos < r.size := by
  rw [slot_eq_mod]
  exact Nat.mod_lt _ r.size_pos

@[simp] theorem slot_add_size (pos : ℕ) : r.slot (pos + r.size) = r.slot pos := by
  rw [slot_eq_mod, slot_eq_mod, Nat.add_mod_right]

/-- Positions of one slot that are less than a lap apart are equal. -/
theorem slot_inj {p q : ℕ} (h : r.slot p = r.slot q) (hpq : p < q + r.size)
    (hqp : q < p + r.size) : p = q := by
  rw [slot_eq_mod, slot_eq_mod] at h
  have hdiv := Nat.div_add_mod p r.size
  have hdiv' := Nat.div_add_mod q r.size
  have heq : p / r.size = q / r.size := by
    rcases Nat.lt_trichotomy (p / r.size) (q / r.size) with hlt | heq | hlt
    · have := Nat.mul_le_mul_left r.size (show p / r.size + 1 ≤ q / r.size from hlt)
      rw [Nat.mul_add, Nat.mul_one] at this
      omega
    · exact heq
    · have := Nat.mul_le_mul_left r.size (show q / r.size + 1 ≤ p / r.size from hlt)
      rw [Nat.mul_add, Nat.mul_one] at this
      omega
  rw [← hdiv, ← hdiv', heq, h]

end Pow2

/-- The size of a container that takes it from `nextPowerOfTwoChecked`. -/
structure Ring extends Pow2 where
  size_le : size ≤ 2 ^ 63

namespace Ring

/-- The size a constructor computes from the requested capacity `c`. -/
def ofRequested (c : SizeT) : Except String Ring :=
  match h : nextPowerOfTwoChecked c with
  | .ok s =>
    .ok ⟨⟨s.toNat, let ⟨k, _, he, _⟩ := nextPowerOfTwoChecked_spec h; ⟨k, he⟩⟩,
      let ⟨_, hk, he, _⟩ := nextPowerOfTwoChecked_spec h
      he.le.trans (Nat.pow_le_pow_right (by norm_num) hk)⟩
  | .error e => .error e

theorem size_dvd (r : Ring) : r.size ∣ 2 ^ 64 := by
  have hle := r.size_le
  obtain ⟨k, h⟩ := r.isPow
  rw [h] at hle ⊢
  exact Nat.pow_dvd_pow 2 (((Nat.pow_le_pow_iff_right (by norm_num)).mp hle).trans (by norm_num))

/-- A single slot. -/
def one : Ring := ⟨⟨1, 0, rfl⟩, by norm_num⟩

/-- Two slots, the smallest ring that is more than one cell. -/
def two : Ring := ⟨⟨2, 1, rfl⟩, by norm_num⟩

theorem ofRequested_ok {c s : SizeT} (h : nextPowerOfTwoChecked c = .ok s) :
    ∃ r, ofRequested c = .ok r ∧ r.size = s.toNat := by
  unfold ofRequested
  split
  next s' hs =>
    rw [h] at hs
    obtain rfl := Except.ok.inj hs
    exact ⟨_, rfl, rfl⟩
  next e he =>
    rw [h] at he
    cases he

/-- A rounded capacity holds the requested one, and is 1 only for requests up to 1. -/
theorem size_ofRequested {c : SizeT} {r : Ring} (h : ofRequested c = .ok r) :
    c.toNat ≤ r.size ∧ (2 ≤ r.size ↔ 2 ≤ c.toNat) := by
  unfold ofRequested at h
  split at h
  next s hs =>
    obtain rfl := (Except.ok.inj h).symm
    obtain ⟨k, _, he, hle, hone⟩ := nextPowerOfTwoChecked_spec hs
    refine ⟨hle, fun h2 => ?_, fun h2 => le_trans h2 hle⟩
    by_contra hc
    have h2 : 2 ≤ s.toNat := h2
    rw [he, hone (by omega)] at h2
    norm_num at h2
  next => cases h

end Ring

end LowLatency
