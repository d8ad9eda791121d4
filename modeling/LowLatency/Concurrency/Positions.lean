import Mathlib.Data.List.Range

/-!
# What a range of positions holds

The positions in use of a ring or an array go from a lower end to an upper one; `between` lists what
is found at them. Items come in at the upper end and leave at either.
-/

namespace LowLatency.Concurrency

variable {β : Type*} {f g : ℕ → Option β} {lo hi : ℕ} {x : β}

/-- What `f` finds at the positions from `lo` to `hi`, in order. -/
def between (f : ℕ → Option β) (lo hi : ℕ) : List β := (List.range' lo (hi - lo)).filterMap f

theorem between_congr (h : ∀ p, lo ≤ p → p < hi → f p = g p) :
    between f lo hi = between g lo hi := by
  refine List.filterMap_congr fun p hp => ?_
  rw [List.mem_range'_1] at hp
  exact h p hp.1 (by omega)

theorem between_eq_nil (h : hi ≤ lo) : between f lo hi = [] := by
  unfold between
  rw [Nat.sub_eq_zero_of_le h]
  rfl

theorem between_succ (h : lo ≤ hi) (hx : f hi = some x) :
    between f lo (hi + 1) = between f lo hi ++ [x] := by
  have hlast : lo + 1 * (hi - lo) = hi := by omega
  unfold between
  rw [Nat.succ_sub h, List.range'_concat, List.filterMap_append, hlast, List.filterMap_cons_some hx]
  rfl

theorem between_cons (h : lo < hi) (hx : f lo = some x) :
    between f lo hi = x :: between f (lo + 1) hi := by
  have hlen : hi - lo = hi - (lo + 1) + 1 := by omega
  unfold between
  rw [hlen, List.range'_succ, List.filterMap_cons_some hx]

theorem length_between (h : ∀ p, lo ≤ p → p < hi → (f p).isSome = true) :
    (between f lo hi).length = hi - lo := by
  have hall : ∀ p ∈ List.range' lo (hi - lo), (f p).isSome = true := by
    intro p hp
    rw [List.mem_range'_1] at hp
    exact h p hp.1 (by omega)
  unfold between
  rw [List.length_filterMap_eq_countP, List.countP_eq_length.mpr hall, List.length_range']

end LowLatency.Concurrency
