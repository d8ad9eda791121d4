import Mathlib.Data.List.Sort
import LowLatency.Concurrency.Slots

/-!
# Cells of the work-stealing containers

Both work-stealing containers store pointers to heap nodes in cells with a `round`. `Cells` is the
array behind one mask; its writes are the stores and exchanges on `data` and `round`.

A node carries, besides its item, its allocation number and the position it was pushed at. Neither
is in the source: they tell apart the elements of a history, and no instruction reads them. The pools,
which do not look into a task, number their tasks for the same reason (`Job`).
-/

namespace LowLatency

open Concurrency

/-- What `new T(item)` makes. -/
structure Node (α : Type*) where
  id : ℕ
  pos : ℕ
  item : α
  deriving DecidableEq

/-- A task and its number, which is history. -/
structure Job (α : Type*) where
  id : ℕ
  task : α
  deriving DecidableEq, Inhabited

structure Cell (α : Type*) where
  data : Option (Node α)
  round : ℕ

/-- The cells of one array. -/
abbrev Cells (α : Type*) := ℕ → Cell α

namespace Cells

variable {α : Type*}

/-- New cells: no data, round 0. -/
def init : Cells α := fun _ => ⟨none, 0⟩

def data (c : Cells α) (j : ℕ) : Option (Node α) := (c j).data

def round (c : Cells α) (j : ℕ) : ℕ := (c j).round

def setData (c : Cells α) (j : ℕ) (d : Option (Node α)) : Cells α :=
  Function.update c j { c j with data := d }

def setRound (c : Cells α) (j n : ℕ) : Cells α :=
  Function.update c j { c j with round := n }

/-- `round.compare_exchange(pos + 1, 0)`. -/
def clearRound (c : Cells α) (j pos : ℕ) : Cells α :=
  if c.round j = pos + 1 then c.setRound j 0 else c

section Fields

variable (c : Cells α) (j n : ℕ) (d : Option (Node α))

@[simp] theorem init_data : (init : Cells α).data j = none := rfl
@[simp] theorem init_round : (init : Cells α).round j = 0 := rfl

theorem setData_data : (c.setData j d).data = Function.update c.data j d := by
  funext k
  unfold data setData
  by_cases h : k = j
  · subst h; simp
  · simp [h]

@[simp] theorem setData_round : (c.setData j d).round = c.round := by
  funext k
  unfold round setData
  by_cases h : k = j
  · subst h; simp
  · simp [h]

@[simp] theorem setRound_data : (c.setRound j n).data = c.data := by
  funext k
  unfold data setRound
  by_cases h : k = j
  · subst h; simp
  · simp [h]

theorem setRound_round : (c.setRound j n).round = Function.update c.round j n := by
  funext k
  unfold round setRound
  by_cases h : k = j
  · subst h; simp
  · simp [h]

@[simp] theorem clearRound_data : (c.clearRound j n).data = c.data := by
  unfold clearRound
  split
  · exact c.setRound_data j 0
  · rfl

/-- Clearing the round of a position leaves the rounds of all others. -/
theorem clearRound_round {k p : ℕ} (hp : c.round k = p + 1) (hne : p ≠ n) :
    (c.clearRound j n).round k = p + 1 := by
  unfold clearRound
  split
  next h =>
    rw [setRound_round]
    by_cases hk : k = j
    · subst hk
      omega
    · rw [Function.update_of_ne hk, hp]
  next => exact hp

/-- After clearing the round of a position, no cell shows that position's round that did not show it
before, and its own cell does not. -/
theorem clearRound_stale {k p : ℕ} (hp : c.round k ≠ p + 1 ∨ (p = n ∧ k = j)) :
    (c.clearRound j n).round k ≠ p + 1 := by
  unfold clearRound
  split
  next h =>
    rw [setRound_round]
    by_cases hk : k = j
    · rw [hk, Function.update_self]
      omega
    · rw [Function.update_of_ne hk]
      rcases hp with hp | hp
      · exact hp
      · exact absurd hp.2 hk
  next h =>
    rcases hp with hp | ⟨rfl, rfl⟩
    · exact hp
    · exact h

theorem setData_clearRound (k : ℕ) :
    (c.clearRound j n).setData k d = (c.setData k d).clearRound j n := by
  unfold clearRound
  rw [setData_round]
  split
  · unfold setData setRound
    by_cases h : k = j
    · subst h
      simp
    · rw [Function.update_of_ne h, Function.update_of_ne (Ne.symm h), Function.update_comm h]
  · rfl

theorem setRound_clearRound (k : ℕ) {m : ℕ} (hm : m ≠ n + 1) :
    (c.clearRound j n).setRound k m = (c.setRound k m).clearRound j n := by
  by_cases h : j = k
  · subst h
    have hround : (c.setRound j m).round j = m := by rw [setRound_round, Function.update_self]
    unfold clearRound
    rw [hround, if_neg hm]
    split
    · unfold setRound
      simp
    · rfl
  · have hround : (c.setRound k m).round j = c.round j := by
      rw [setRound_round, Function.update_of_ne h]
    unfold clearRound
    rw [hround]
    split
    · unfold setRound
      rw [Function.update_of_ne (Ne.symm h), Function.update_of_ne h, Function.update_comm h]
    · rfl

end Fields

end Cells

/-! ## Histories -/

section History

variable {α : Type*}

/-- The nodes allocated by a history, numbered in order. -/
def Numbered (pushed : List (Node α)) : Prop := pushed.map Node.id = List.range pushed.length

theorem numbered_nil : Numbered ([] : List (Node α)) := rfl

theorem Numbered.concat {pushed : List (Node α)} (h : Numbered pushed) (pos : ℕ) (x : α) :
    Numbered (pushed ++ [⟨pushed.length, pos, x⟩]) := by
  unfold Numbered at h ⊢
  rw [List.map_append, h, List.length_append, List.length_singleton, List.range_succ,
    List.map_singleton]

theorem Numbered.id_lt {pushed : List (Node α)} (h : Numbered pushed) {n : Node α}
    (hn : n ∈ pushed) : n.id < pushed.length := by
  have hmem := List.mem_map_of_mem (f := Node.id) hn
  rw [h] at hmem
  exact List.mem_range.mp hmem

theorem Numbered.nodup {pushed : List (Node α)} (h : Numbered pushed) : pushed.Nodup := by
  refine List.Nodup.of_map Node.id ?_
  rw [h]
  exact List.nodup_range

theorem Numbered.pairwise {pushed : List (Node α)} (h : Numbered pushed) :
    pushed.Pairwise (fun m n => m.id < n.id) := by
  rw [← List.pairwise_map (f := Node.id) (R := (· < ·)), h]
  exact List.pairwise_lt_range

/-- Nodes of a history in the order of their numbers are in the order they were pushed. -/
theorem Numbered.sublist {pushed l : List (Node α)} (h : Numbered pushed) (hsub : l ⊆ pushed)
    (hl : l.Pairwise (fun m n => m.id < n.id)) : l.Sublist pushed := by
  have hanti : Std.Antisymm (fun m n : Node α => m.id < n.id) :=
    ⟨fun _ _ h1 h2 => absurd h1 (Nat.lt_asymm h2)⟩
  have hirr : Std.Irrefl (fun m n : Node α => m.id < n.id) := ⟨fun _ => Nat.lt_irrefl _⟩
  exact List.sublist_of_subperm_of_pairwise (List.subperm_of_subset hl.nodup hsub) hl h.pairwise

end History

end LowLatency
