import Mathlib.Order.Bounds.Basic
import LowLatency.NextPowerOfTwo

/-!
# The rounding is exact

`nextPowerOfTwoSafe` returns the least power of two that is at least its argument, on both of its paths
(`nextPowerOfTwoSafe_exact`). The shift cascade doubles, with each step, how far every bit of the word
has spread downwards (`Spreads.double`); after 64 places all bits below the highest one are set, and the
increment reaches the next power of two. The other path shifts 1 by the number of significant bits.

`nextPowerOfTwoSafeTrapping` is the same code in an arithmetic that fails where a word wraps around or
an operation of the language is undefined. It never fails.
-/

namespace LowLatency

/-! ## Words -/

/-- Bit `i` of `a` says whether `m` has one of its `d` bits from `i` on set. -/
def Spreads {w : ℕ} (d : ℕ) (m a : BitVec w) : Prop :=
  ∀ i, a.getLsbD i = true ↔ ∃ j < d, m.getLsbD (i + j) = true

section Spreads

variable {w d : ℕ} {m a : BitVec w}

theorem Spreads.refl : Spreads 1 m m := by
  intro i
  constructor
  · intro h
    exact ⟨0, by omega, h⟩
  · rintro ⟨j, hj, h⟩
    obtain rfl : j = 0 := by omega
    exact h

theorem Spreads.double (h : Spreads d m a) : Spreads (d + d) m (a ||| a >>> d) := by
  intro i
  rw [BitVec.getLsbD_or, BitVec.getLsbD_ushiftRight, Bool.or_eq_true, h i, h (d + i)]
  constructor
  · rintro (⟨j, hj, hm⟩ | ⟨j, hj, hm⟩)
    · exact ⟨j, by omega, hm⟩
    · refine ⟨d + j, by omega, ?_⟩
      rwa [show i + (d + j) = d + i + j by omega]
  · rintro ⟨j, hj, hm⟩
    by_cases hd : j < d
    · exact .inl ⟨j, hd, hm⟩
    · refine .inr ⟨j - d, by omega, ?_⟩
      rwa [show d + i + (j - d) = i + j by omega]

/-- A word that has spread over its whole width has all bits up to its highest one set. -/
theorem Spreads.toNat_eq {k : ℕ} (h : Spreads w m a) (hk : 1 ≤ k) (hkw : k ≤ w)
    (hlow : 2 ^ (k - 1) ≤ m.toNat) (hhigh : m.toNat < 2 ^ k) : a.toNat = 2 ^ k - 1 := by
  apply Nat.eq_of_testBit_eq
  intro i
  rw [Nat.testBit_two_pow_sub_one, BitVec.testBit_toNat, Bool.eq_iff_iff, h i, decide_eq_true_eq]
  constructor
  · rintro ⟨j, _, hm⟩
    by_contra hi
    have hpow : 2 ^ k ≤ 2 ^ (i + j) := Nat.pow_le_pow_right (by omega) (by omega)
    rw [← BitVec.testBit_toNat, Nat.testBit_lt_two_pow (hhigh.trans_le hpow)] at hm
    cases hm
  · intro hi
    -- the highest bit
    refine ⟨k - 1 - i, by omega, ?_⟩
    rw [show i + (k - 1 - i) = k - 1 by omega, ← BitVec.testBit_toNat]
    apply Nat.testBit_of_two_pow_le_and_two_pow_add_one_gt hlow
    rwa [show k - 1 + 1 = k by omega]

end Spreads

namespace Word

variable {w : ℕ}

/-- `a + b`, unless it wraps around. -/
def add (a b : BitVec w) : Option (BitVec w) :=
  if a.toNat + b.toNat < 2 ^ w then some (a + b) else none

/-- `a - b`, unless it wraps around. -/
def sub (a b : BitVec w) : Option (BitVec w) := if b ≤ a then some (a - b) else none

/-- `a >> k`, undefined from the width on. -/
def shr (a : BitVec w) (k : ℕ) : Option (BitVec w) := if k < w then some (a >>> k) else none

/-- `a << k`, undefined from the width on, unless a bit is shifted out. -/
def shl (a : BitVec w) (k : ℕ) : Option (BitVec w) :=
  if k < w ∧ a.toNat * 2 ^ k < 2 ^ w then some (a <<< k) else none

/-- The number of leading zeros, undefined at 0. -/
def clz (a : BitVec w) : Option (BitVec w) := if a = 0 then none else some a.clz

end Word

/-! ## The two paths -/

/-- `m |= m >> k`. -/
def smearBy (k : ℕ) (m : SizeT) : Option SizeT := (Word.shr m k).map (m ||| ·)

/-- `nextPowerOfTwoSafe` with operations that fail. -/
def nextPowerOfTwoSafeTrapping (constantEvaluated : Bool) (n : SizeT) : Option (Option SizeT) :=
  if n ≤ 1 then some (some 1)
  else (Word.shl (1 : SizeT) (64 - 1)).bind fun maxPow2 =>
    if maxPow2 < n then some none
    else if constantEvaluated then
      (Word.sub n 1).bind fun m =>
        (smearBy 1 m).bind fun m => (smearBy 2 m).bind fun m => (smearBy 4 m).bind fun m =>
          (smearBy 8 m).bind fun m => (smearBy 16 m).bind fun m => (smearBy 32 m).bind fun m =>
            (Word.add m 1).map some
    else
      (Word.sub n 1).bind fun m => (Word.clz m).bind fun zeros =>
        (Word.sub (64 : SizeT) zeros).bind fun shift => (Word.shl (1 : SizeT) shift.toNat).map some

/-- The powers of two that are at least `n`. -/
def powersFrom (n : ℕ) : Set ℕ := {p | (∃ k, p = 2 ^ k) ∧ n ≤ p}

theorem spreads_smear (m : SizeT) : Spreads 64 m (smear m) :=
  Spreads.refl.double.double.double.double.double.double

/-- `2 ^ k` is the least power of two from `n` on when half of it is below `n`. -/
theorem isLeast_powersFrom {n k : ℕ} (hle : n ≤ 2 ^ k) (hlt : k = 0 ∨ 2 ^ (k - 1) < n) :
    IsLeast (powersFrom n) (2 ^ k) := by
  refine ⟨⟨⟨k, rfl⟩, hle⟩, ?_⟩
  rintro p ⟨⟨l, rfl⟩, hn⟩
  rcases hlt with rfl | hlt
  · exact Nat.one_le_two_pow
  · apply Nat.pow_le_pow_right (by omega)
    have hkl : k - 1 < l := (Nat.pow_lt_pow_iff_right (by omega)).mp (hlt.trans_le hn)
    omega

theorem smear_pred {n : SizeT} {k : ℕ} (h1 : 1 < n.toNat) (hpos : 1 ≤ k) (hk : k ≤ 63)
    (hle : n.toNat ≤ 2 ^ k) (hlt : 2 ^ (k - 1) < n.toNat) : (smear (n - 1)).toNat = 2 ^ k - 1 := by
  have hpred := toNat_pred h1
  exact (spreads_smear (n - 1)).toNat_eq hpos (by omega) (by omega) (by omega)

theorem smear_add_one {m : SizeT} {k : ℕ} (hk : k ≤ 63) (hm : (smear m).toNat = 2 ^ k - 1) :
    smear m + 1 = 1#64 <<< k ∧ Word.add (smear m) 1 = some (smear m + 1) := by
  have hpos : 1 ≤ 2 ^ k := Nat.one_le_two_pow
  have hpow : 2 ^ k ≤ 2 ^ 63 := Nat.pow_le_pow_right (by omega) hk
  have hsum : (smear m).toNat + (1 : SizeT).toNat = 2 ^ k := by
    rw [hm]
    exact Nat.sub_add_cancel hpos
  constructor
  · apply BitVec.eq_of_toNat_eq
    rw [BitVec.toNat_add, hsum, toNat_one_shiftLeft (by omega)]
    exact Nat.mod_eq_of_lt (by omega)
  · unfold Word.add
    rw [if_pos (by omega)]

theorem smearBy_eq {k : ℕ} (m : SizeT) (hk : k < 64) : smearBy k m = some (m ||| m >>> k) := by
  unfold smearBy Word.shr
  rw [if_pos hk]
  rfl

theorem trapping_constant {n : SizeT} {k : ℕ} (h1 : 1 < n.toNat) (hk : k ≤ 63)
    (hm : (smear (n - 1)).toNat = 2 ^ k - 1) :
    ((Word.sub n 1).bind fun m =>
      (smearBy 1 m).bind fun m => (smearBy 2 m).bind fun m => (smearBy 4 m).bind fun m =>
        (smearBy 8 m).bind fun m => (smearBy 16 m).bind fun m => (smearBy 32 m).bind fun m =>
          (Word.add m 1).map some) = some (some (smear (n - 1) + 1)) := by
  have hsub : Word.sub n 1 = some (n - 1) := if_pos (by rw [BitVec.le_def]; exact h1.le)
  rw [hsub]
  simp only [Option.bind_some, smearBy_eq _ (show 1 < 64 by decide),
    smearBy_eq _ (show 2 < 64 by decide), smearBy_eq _ (show 4 < 64 by decide),
    smearBy_eq _ (show 8 < 64 by decide), smearBy_eq _ (show 16 < 64 by decide),
    smearBy_eq _ (show 32 < 64 by decide)]
  exact congrArg (Option.map some) (smear_add_one hk hm).2

theorem trapping_runtime {n : SizeT} {k : ℕ} (h1 : 1 < n.toNat) (hk : k ≤ 63)
    (hclz : 64 - (n - 1).clz.toNat = k) :
    ((Word.sub n 1).bind fun m => (Word.clz m).bind fun zeros =>
      (Word.sub (64 : SizeT) zeros).bind fun shift => (Word.shl (1 : SizeT) shift.toNat).map some) =
    some (some (1#64 <<< k)) := by
  have hsub : Word.sub n 1 = some (n - 1) := if_pos (by rw [BitVec.le_def]; exact h1.le)
  have hcount : Word.clz (n - 1) = some (n - 1).clz := if_neg (pred_ne_zero h1)
  have hle : (n - 1).clz ≤ (64 : SizeT) := BitVec.clz_le
  have hshift : Word.sub (64 : SizeT) (n - 1).clz = some (64 - (n - 1).clz) := if_pos hle
  have hamount : ((64 : SizeT) - (n - 1).clz).toNat = k := by
    rw [BitVec.toNat_sub_of_le hle, ← hclz]
    rfl
  have hpow : 2 ^ k ≤ 2 ^ 63 := Nat.pow_le_pow_right (by omega) hk
  have hone : (1 : SizeT).toNat = 1 := rfl
  rw [hsub, Option.bind_some, hcount, Option.bind_some, hshift, Option.bind_some, hamount]
  unfold Word.shl
  rw [if_pos ⟨by omega, by rw [hone]; omega⟩]
  rfl

section Cases

variable {n : SizeT} (constantEvaluated : Bool)

theorem le_one_iff : n ≤ 1 ↔ n.toNat ≤ 1 := by
  rw [BitVec.le_def]
  rfl

theorem maxPow2_lt_iff : maxPow2 < n ↔ 2 ^ 63 < n.toNat := by
  rw [BitVec.lt_def, maxPow2_toNat]

theorem shl_maxPow2 : Word.shl (1 : SizeT) (64 - 1) = some maxPow2 := by decide

/-- The result on both paths is the same, with and without operations that fail. -/
def Computes (constantEvaluated : Bool) (n : SizeT) (o : Option SizeT) : Prop :=
  nextPowerOfTwoSafe constantEvaluated n = o ∧
    nextPowerOfTwoSafeTrapping constantEvaluated n = some o

theorem computes_small (h : n.toNat ≤ 1) : Computes constantEvaluated n (some 1) := by
  rw [← le_one_iff] at h
  unfold Computes nextPowerOfTwoSafe nextPowerOfTwoSafeTrapping
  rw [if_pos h, if_pos h]
  exact ⟨rfl, rfl⟩

theorem computes_large (h : 2 ^ 63 < n.toNat) : Computes constantEvaluated n none := by
  have h1 : ¬ n ≤ 1 := by
    rw [le_one_iff]
    omega
  rw [← maxPow2_lt_iff] at h
  unfold Computes nextPowerOfTwoSafe nextPowerOfTwoSafeTrapping
  rw [shl_maxPow2, Option.bind_some, if_neg h1, if_neg h1, if_pos h, if_pos h]
  exact ⟨rfl, rfl⟩

theorem computes_power (h1 : 1 < n.toNat) (h2 : n.toNat ≤ 2 ^ 63) :
    ∃ k ≤ 63, IsLeast (powersFrom n.toNat) (2 ^ k) ∧
      ∀ constantEvaluated, Computes constantEvaluated n (some (1#64 <<< k)) := by
  obtain ⟨k, hpos, hk, hclz, hle, hlt⟩ := shift_bounds h1 h2
  have hsmear := smear_pred h1 hpos hk hle hlt
  have hn1 : ¬ n ≤ 1 := by
    rw [le_one_iff]
    omega
  have hn2 : ¬ maxPow2 < n := by
    rw [maxPow2_lt_iff]
    omega
  refine ⟨k, hk, isLeast_powersFrom hle (.inr hlt), fun constantEvaluated => ?_⟩
  unfold Computes nextPowerOfTwoSafe nextPowerOfTwoSafeTrapping
  rw [shl_maxPow2, Option.bind_some, if_neg hn1, if_neg hn1, if_neg hn2, if_neg hn2]
  cases constantEvaluated with
  | true =>
    rw [if_pos rfl, if_pos rfl, trapping_constant h1 hk hsmear, (smear_add_one hk hsmear).1]
    exact ⟨rfl, rfl⟩
  | false =>
    rw [if_neg Bool.false_ne_true, if_neg Bool.false_ne_true, trapping_runtime h1 hk hclz, hclz]
    exact ⟨rfl, rfl⟩

theorem computes (n : SizeT) : ∃ o, (∀ constantEvaluated, Computes constantEvaluated n o) ∧
    (o = none ∧ 2 ^ 63 < n.toNat ∨
      ∃ r, o = some r ∧ n.toNat ≤ 2 ^ 63 ∧ IsLeast (powersFrom n.toNat) r.toNat) := by
  by_cases h1 : n.toNat ≤ 1
  · refine ⟨some 1, fun e => computes_small e h1, .inr ⟨1, rfl, by omega, ?_⟩⟩
    exact isLeast_powersFrom (k := 0) h1 (.inl rfl)
  · by_cases h2 : 2 ^ 63 < n.toNat
    · exact ⟨none, fun e => computes_large e h2, .inl ⟨rfl, h2⟩⟩
    · rw [not_le] at h1
      rw [not_lt] at h2
      obtain ⟨k, hk, hleast, hcomputes⟩ := computes_power h1 h2
      refine ⟨_, hcomputes, .inr ⟨_, rfl, h2, ?_⟩⟩
      rwa [toNat_one_shiftLeft (by omega)]

end Cases

/-- **The rounding is exact**, its paths agree, and no operation of either wraps around or is
undefined. -/
theorem nextPowerOfTwoSafe_exact (n : SizeT) :
    (∀ constantEvaluated,
      nextPowerOfTwoSafe constantEvaluated n = none ∧ 2 ^ 63 < n.toNat ∨
      ∃ r, nextPowerOfTwoSafe constantEvaluated n = some r ∧ n.toNat ≤ 2 ^ 63 ∧
        IsLeast (powersFrom n.toNat) r.toNat) ∧
    nextPowerOfTwoSafe true n = nextPowerOfTwoSafe false n ∧
    ∀ constantEvaluated, nextPowerOfTwoSafeTrapping constantEvaluated n =
      some (nextPowerOfTwoSafe constantEvaluated n) := by
  obtain ⟨o, hcomputes, hspec⟩ := computes n
  have hsafe : ∀ constantEvaluated, nextPowerOfTwoSafe constantEvaluated n = o :=
    fun e => (hcomputes e).1
  simp only [hsafe]
  exact ⟨fun _ => hspec, trivial, fun e => (hcomputes e).2⟩

theorem nextPowerOfTwoChecked_exact {n r : SizeT} (h : nextPowerOfTwoChecked n = .ok r) :
    IsLeast (powersFrom n.toNat) r.toNat := by
  obtain ⟨o, hcomputes, hspec⟩ := computes n
  unfold nextPowerOfTwoChecked at h
  rw [(hcomputes false).1] at h
  rcases hspec with ⟨rfl, _⟩ | ⟨r', rfl, _, hleast⟩
  · cases h
  · rwa [← Except.ok.inj h]

/-- A container has the least size that holds the requested capacity. -/
theorem Ring.isLeast_size {c : SizeT} {r : Ring} (h : Ring.ofRequested c = .ok r) :
    IsLeast (powersFrom c.toNat) r.size := by
  unfold Ring.ofRequested at h
  split at h
  next s hs =>
    obtain rfl := (Except.ok.inj h).symm
    exact nextPowerOfTwoChecked_exact hs
  next => cases h

end LowLatency
