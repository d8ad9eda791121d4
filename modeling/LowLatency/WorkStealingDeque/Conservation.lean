import LowLatency.WorkStealingDeque.Invariant

/-!
# The deque conserves its elements

`Conserves` collects what users of the deque can rely on: in every state no node is deleted twice,
and when no operation is in flight what was pushed and not returned is stored between `top_` and
`bottom_` in the order of the pushes, to be obtained at either end or deleted by the destructor.
-/

namespace LowLatency.WorkStealingDeque

open Concurrency

variable {α Tid : Type*} [Fintype Tid]

/-! ## The deque at rest -/

section Rest

variable {r : Ring} {s s' : Shared α}

theorem exchange_alone {pos : ℕ} {y : α}
    (h : (object r).Returns s (.exchange pos) s' (.got y)) :
    ∃ p, s.cells.data (r.slot pos) = some p ∧ y = p.item ∧ s'.deleted = s.deleted ++ [p] := by
  cases hp : s.cells.data (r.slot pos) with
  | none =>
    have hstep : step r false s (.exchange pos) = (s, .done .nothing) := by simp only [step, hp]
    cases ((h.next rfl hstep).result rfl).2
  | some p =>
    have hstep : step r false s (.exchange pos) =
        ({ s with cells := s.cells.setData (r.slot pos) none }, .clearRound pos p) := by
      simp only [step, hp]
    obtain ⟨rfl, hy⟩ := (((h.next rfl hstep).next rfl rfl).next rfl rfl).result rfl
    exact ⟨p, rfl, Outcome.got.inj hy, rfl⟩

/-- A pop that succeeds alone takes the node at the last position. -/
theorem pop_alone {y : α} (h : (object r).Returns s (start .pop) s' (.got y)) :
    ∃ p, s.top < s.bottom ∧ s.cells.data (r.slot (s.bottom - 1)) = some p ∧ y = p.item ∧
      s'.deleted = s.deleted ++ [p] := by
  by_cases hzero : s.bottom = 0
  · cases ((h.next rfl (if_pos hzero)).result rfl).2
  have hload := ((h.next rfl (if_neg hzero)).next rfl rfl)
  by_cases hlt : s.bottom - 1 < s.top
  · cases (((hload.next rfl (if_pos hlt)).next rfl rfl).result rfl).2
  by_cases hgt : s.top < s.bottom - 1
  · have hstep : step r false { s with bottom := s.bottom - 1 } (.popLoadTop (s.bottom - 1)) =
        ({ s with bottom := s.bottom - 1 }, .exchange (s.bottom - 1)) := by
      simp only [step]
      rw [if_neg hlt, if_pos hgt]
    obtain ⟨p, hp, hy, hdel⟩ := exchange_alone (hload.next rfl hstep)
    exact ⟨p, by omega, hp, hy, hdel⟩
  · have hstep : step r false { s with bottom := s.bottom - 1 } (.popLoadTop (s.bottom - 1)) =
        ({ s with bottom := s.bottom - 1 }, .popClaim (s.bottom - 1) s.top) := by
      simp only [step]
      rw [if_neg hlt, if_neg hgt]
    have hwon := (hload.next rfl hstep).next rfl (if_pos rfl)
    obtain ⟨p, hp, hy, hdel⟩ := exchange_alone (hwon.next rfl rfl)
    exact ⟨p, by omega, hp, hy, hdel⟩

theorem steal_alone {y : α} (h : (object r).Returns s (start .steal) s' (.got y)) :
    ∃ p, s.top < s.bottom ∧ s.cells.data (r.slot s.top) = some p ∧ y = p.item ∧
      s'.deleted = s.deleted ++ [p] := by
  have hload := h.next rfl rfl
  by_cases hle : s.bottom ≤ s.top
  · cases ((hload.next rfl (if_pos hle)).result rfl).2
  have hround := hload.next rfl (if_neg hle)
  by_cases heq : s.cells.round (r.slot s.top) = s.top + 1
  · have hclaim := (hround.next rfl (if_pos heq)).next rfl (if_pos rfl)
    obtain ⟨p, hp, hy, hdel⟩ := exchange_alone hclaim
    exact ⟨p, by omega, hp, hy, hdel⟩
  · cases ((hround.next rfl (if_neg heq)).result rfl).2

end Rest

/-- What holds when no operation is in flight. -/
structure AtRest (r : Ring) (s : Shared α) : Prop where
  top_le : s.top ≤ s.bottom
  /-- What was pushed and not yet returned is stored at the positions from `top_` to `bottom_`;
  the destructor deletes it, and nothing that was deleted before. -/
  kept : (s.deleted ++ stored r s).Perm s.pushed
  inOrder : (stored r s).Sublist s.pushed
  popNewest : ∀ s' y, (object r).Returns s (start .pop) s' (.got y) →
    ∃ rest p, stored r s = rest ++ [p] ∧ y = p.item ∧ s'.deleted = s.deleted ++ [p]
  stealOldest : ∀ s' y, (object r).Returns s (start .steal) s' (.got y) →
    ∃ p rest, stored r s = p :: rest ∧ y = p.item ∧ s'.deleted = s.deleted ++ [p]

/-- The deque neither loses nor repeats an element. -/
structure Conserves (r : Ring) (c : Config Tid (Shared α) (Local α)) : Prop where
  pushedOnce : c.shared.pushed.Nodup
  /-- An item is returned by the operation that deletes its node, which happens at most once. -/
  deletedOnce : c.shared.deleted.Nodup
  deleted_subset : c.shared.deleted ⊆ c.shared.pushed
  atRest : c.Quiescent → AtRest r c.shared

namespace Inv

section Stored

variable {r : Ring} {owner : Tid} {s : Shared α} {l : Tid → Option (Local α)}

theorem pos_of_rest (h : Inv r owner s l) (hrest : ∀ t, l t = none) {j : ℕ} {p : Node α}
    (hj : s.cells.data j = some p) : r.slot p.pos = j ∧ s.top ≤ p.pos ∧ p.pos < s.bottom := by
  obtain ⟨hslot, hp⟩ := h.placed j p hj
  refine ⟨hslot, ?_⟩
  rcases hp with hp | ⟨u, x, hu, _⟩
  · rw [hrest owner] at hp
    exact hp
  · rw [hrest u] at hu
    cases hu

theorem range_of_rest (h : Inv r owner s l) (hrest : ∀ t, l t = none) :
    s.top ≤ s.bottom ∧ s.bottom ≤ s.top + r.size := by
  have htop := h.top_le
  have hcap := h.le_cap
  rw [hrest owner] at htop hcap
  exact ⟨htop, hcap⟩

theorem mem_stored (h : Inv r owner s l) (hrest : ∀ t, l t = none) {p : Node α} :
    p ∈ stored r s ↔ p ∈ bag r.size s.cells.data := by
  unfold stored
  rw [List.mem_filterMap, mem_bag]
  constructor
  · rintro ⟨i, _, hp⟩
    exact ⟨_, r.slot_lt i, hp⟩
  · rintro ⟨j, _, hp⟩
    obtain ⟨rfl, hge, hlt⟩ := h.pos_of_rest hrest hp
    exact ⟨p.pos, List.mem_range'_1.mpr ⟨hge, by omega⟩, hp⟩

/-- At rest the stored nodes are in the order of their allocation. -/
theorem stored_pairwise (h : Inv r owner s l) (hrest : ∀ t, l t = none) :
    (stored r s).Pairwise (fun m n => m.id < n.id) := by
  obtain ⟨htop, hcap⟩ := h.range_of_rest hrest
  have hpos : ∀ i ∈ List.range' s.top (s.bottom - s.top), ∀ p,
      s.cells.data (r.slot i) = some p → p.pos = i := by
    intro i hi p hp
    rw [List.mem_range'_1] at hi
    obtain ⟨hslot, hge, hlt⟩ := h.pos_of_rest hrest hp
    exact r.slot_inj hslot (by omega) (by omega)
  unfold stored
  rw [List.pairwise_filterMap]
  refine List.Pairwise.imp_of_mem ?_ List.pairwise_lt_range'
  intro i k hi hk hik p hp q hq
  refine h.ordered _ _ p q hp hq ?_
  rw [hpos i hi p hp, hpos k hk q hq]
  exact hik

theorem kept (h : Inv r owner s l) (hrest : ∀ t, l t = none) :
    (s.deleted ++ stored r s).Perm s.pushed := by
  have hcons := h.conserved
  unfold Conserved at hcons
  rw [hands_eq_zero hrest, add_zero] at hcons
  have hnodup : (bag r.size s.cells.data).Nodup := by
    have hall : (s.pushed : Multiset (Node α)).Nodup := h.numbered.nodup
    rw [hcons] at hall
    exact (Multiset.nodup_add.mp hall).1
  have hbag : (stored r s : Multiset (Node α)) = bag r.size s.cells.data :=
    (Multiset.Nodup.ext (Multiset.coe_nodup.mpr (h.stored_pairwise hrest).nodup) hnodup).mpr
      fun p => Multiset.mem_coe.trans (h.mem_stored hrest)
  rw [← Multiset.coe_eq_coe, hcons, ← hbag, ← Multiset.coe_add]
  exact add_comm _ _

theorem inOrder (h : Inv r owner s l) (hrest : ∀ t, l t = none) :
    (stored r s).Sublist s.pushed :=
  h.numbered.sublist
    (fun _ hp => (h.kept hrest).subset (List.mem_append_right _ hp)) (h.stored_pairwise hrest)

theorem atRest (h : Inv r owner s l) (hrest : ∀ t, l t = none) : AtRest r s where
  top_le := (h.range_of_rest hrest).1
  kept := h.kept hrest
  inOrder := h.inOrder hrest
  popNewest s' y hret := by
    obtain ⟨p, hlt, hp, hy, hdel⟩ := pop_alone hret
    obtain ⟨n, hn⟩ : ∃ n, s.bottom - s.top = n + 1 := ⟨s.bottom - s.top - 1, by omega⟩
    have hlast : s.top + 1 * n = s.bottom - 1 := by omega
    refine ⟨(List.range' s.top n).filterMap fun i => s.cells.data (r.slot i), p, ?_, hy, hdel⟩
    unfold stored
    rw [hn, List.range'_concat, List.filterMap_append, hlast]
    simp [hp]
  stealOldest s' y hret := by
    obtain ⟨p, hlt, hp, hy, hdel⟩ := steal_alone hret
    obtain ⟨n, hn⟩ : ∃ n, s.bottom - s.top = n + 1 := ⟨s.bottom - s.top - 1, by omega⟩
    refine ⟨p, (List.range' (s.top + 1) n).filterMap fun i => s.cells.data (r.slot i), ?_, hy, hdel⟩
    unfold stored
    rw [hn, List.range'_succ]
    simp [hp]

theorem conserves {c : Config Tid (Shared α) (Local α)} (h : Inv r owner c.shared c.locals) :
    Conserves r c where
  pushedOnce := h.numbered.nodup
  deletedOnce := by
    have hall : (c.shared.pushed : Multiset (Node α)).Nodup := h.numbered.nodup
    rw [show (c.shared.pushed : Multiset (Node α)) = _ from h.conserved] at hall
    exact Multiset.coe_nodup.mp (Multiset.nodup_add.mp hall).2.1
  deleted_subset p hp := by
    have hmem : p ∈ (c.shared.pushed : Multiset (Node α)) := by
      rw [show (c.shared.pushed : Multiset (Node α)) = _ from h.conserved]
      exact Multiset.mem_add.mpr (.inr (Multiset.mem_coe.mpr hp))
    exact Multiset.mem_coe.mp hmem
  atRest hrest := h.atRest hrest

end Stored

end Inv

variable [DecidableEq Tid]

/-- **Conservation.** For every capacity, any number of thieves and every interleaving. -/
theorem deque_conserves (r : Ring) (owner : Tid) (c : Config Tid (Shared α) (Local α))
    (h : (system r owner).Reachable (initial Tid) c) : Conserves r c :=
  ((inv_inductive r owner).reachable (inv_init r owner) h).conserves

/-- The owner pushes 7, 8 and 9 and pops one; the thief's steal of 7 overlaps the last push and
the pop. -/
def ownerAndThief : List (Action (Fin 2) (Op ℕ)) :=
  List.flatten [[.call 0 (.push 7)], Action.steps 0 6, [.ret 0, .call 0 (.push 8)],
    Action.steps 0 6, [.ret 0, .call 1 .steal], Action.steps 1 5, [.call 0 (.push 9)],
    Action.steps 0 6, [.ret 0, .call 0 .pop], Action.steps 1 2, Action.steps 0 6,
    [.ret 0, .ret 1]]

theorem deque_conserves_ownerAndThief : ∃ c : Config (Fin 2) (Shared ℕ) (Local ℕ),
    c.shared.pushed.map Node.item = [7, 8, 9] ∧ c.shared.deleted.map Node.item = [7, 9] ∧
      Conserves Ring.two c := by
  have hrun : ((system Ring.two 0).run (initial (Fin 2)) ownerAndThief).map
      (fun c => (c.shared.pushed.map Node.item, c.shared.deleted.map Node.item)) =
        some ([7, 8, 9], [7, 9]) := by decide +kernel
  obtain ⟨c, hc, hres⟩ := Option.map_eq_some_iff.mp hrun
  obtain ⟨hpushed, hdeleted⟩ := Prod.mk.inj hres
  exact ⟨c, hpushed, hdeleted, deque_conserves Ring.two 0 c (System.reachable_of_run hc)⟩

end LowLatency.WorkStealingDeque
