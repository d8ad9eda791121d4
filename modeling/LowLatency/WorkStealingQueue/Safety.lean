import LowLatency.WorkStealingQueue.Grow

/-!
# Growing among thieves

`GrowSafe` collects what the quiescence gate gives in every reachable state: no thief is about to
access a deleted array, `top` stands still while `grow` copies, the copy is exact, and no element
is returned or deleted twice.
-/

namespace LowLatency.WorkStealingQueue

open Concurrency

variable {α Tid : Type*}

/-- `grow` has moved the old array's elements to array `n`: what the window shows at a position
from `t` to `bottom_` is in the cell of that position, with its round, and in no other. -/
structure Moved (s : Shared α) (n t : ℕ) : Prop where
  moved : ∀ i p, t ≤ i → i < s.bottom → s.window ((s.cap s.current).slot i) = some p →
    s.dataAt n i = some p ∧ s.roundAt n i = i + 1 ∧ s.dataAt s.current i = none
  once : ∀ i p k, t ≤ i → i < s.bottom → s.window ((s.cap s.current).slot i) = some p →
    (s.cells n).data k = some p → k = (s.cap n).slot i
  only : ∀ k p, (s.cells n).data k = some p → ∃ i, t ≤ i ∧ i < s.bottom ∧
    k = (s.cap n).slot i ∧ s.window ((s.cap s.current).slot i) = some p

/-- Growing is safe. -/
structure GrowSafe (owner : Tid) (c : Config Tid (Shared α) (Local α)) : Prop where
  /-- The array whose cells a thief is about to access has not been deleted. -/
  noUseAfterFree : ∀ t x a, c.locals t = some x → x.reads = some a → a ∉ c.shared.freed
  /-- While `grow` copies, `top` is what it loaded, and no thief is past the gate. -/
  topStable : ∀ x t, c.locals owner = some x → x.copying = some t → c.shared.top = t
  noThief : ∀ x t, c.locals owner = some x → x.copying = some t →
    ∀ u y, c.locals u = some y → y.inside = false
  /-- Before `grow` publishes the new array, it has moved every element. -/
  moved : ∀ item n t, c.locals owner = some (.growPublish item n t) → Moved c.shared n t
  pushedOnce : c.shared.pushed.Nodup
  /-- A node is deleted once, by the operation that returns its item or by the destructor. -/
  deletedOnce : (c.shared.deleted ++ destroyed c.shared).Nodup
  deleted_subset : c.shared.deleted ⊆ c.shared.pushed

section Facts

variable {x : Local α} {a t : ℕ}

theorem arrayOf_of_reads (h : x.reads = some a) : x.arrayOf = some a := by
  cases x <;> first | exact h | cases h

theorem quiesced_of_copying (h : x.copying = some t) : x.quiesced = true := by
  cases x <;> first | rfl | cases h

theorem top_of_copying {s : Shared α} (h : x.copying = some t) (hph : Phase s (some x)) :
    s.top = t := by
  cases x with
  | growExchange | growStoreData | growStoreRound =>
    cases h
    exact hph.1.top_eq
  | growPublish =>
    cases h
    obtain ⟨i, hc, _⟩ := hph
    exact hc.top_eq
  | _ => cases h

end Facts

variable [Fintype Tid]

namespace Inv

variable {owner : Tid} {s : Shared α} {l : Tid → Option (Local α)}

theorem nodup (h : Inv owner s l) : (s.stock s.current + spareStock s (l owner) +
    hands Local.held l + (s.deleted : Multiset (Node α)) +
      (s.leaked : Multiset (Node α))).Nodup := by
  have hcons := h.conserved
  unfold Conserved at hcons
  rw [← hcons]
  exact h.numbered.nodup

theorem moved (h : Inv owner s l) {item : α} {n t : ℕ}
    (hx : l owner = some (.growPublish item n t)) : Moved s n t := by
  obtain ⟨e, hc, hle, he⟩ := h.phase_at hx
  have hround : ∀ i p, t ≤ i → i < s.bottom → s.window ((s.cap s.current).slot i) = some p →
      s.dataAt n i = some p ∧ s.roundAt n i = i + 1 ∧ s.dataAt s.current i = none := by
    intro i p hi hib hp
    obtain ⟨hmoved, hnone⟩ := hc.moved i hi (by omega)
    rw [hp] at hmoved
    exact ⟨hmoved, hc.rounds i hi (by omega) (by rw [hmoved]; simp), hnone⟩
  refine ⟨hround, ?_, ?_⟩
  · intro i p k hi hib hp hk
    have hspare : spareStock s (l owner) = s.stock n := by rw [hx]; rfl
    have hnodup : (s.stock n).Nodup := by
      have := h.nodup
      rw [hspare] at this
      exact (Multiset.nodup_add.mp (Multiset.nodup_add.mp (Multiset.nodup_add.mp
        (Multiset.nodup_add.mp this).1).1).1).2.1
    obtain ⟨j, _, _, hkj⟩ := hc.only k p hk
    exact bag_inj hnodup (by rw [hkj]; exact (s.cap n).slot_lt j) ((s.cap n).slot_lt i) hk
      (hround i p hi hib hp).1
  · intro k p hk
    obtain ⟨j, hj, hje, hkj⟩ := hc.only k p hk
    have hmoved := (hc.moved j hj hje).1
    refine ⟨j, hj, by omega, hkj, ?_⟩
    rw [← hmoved, Shared.dataAt, ← hkj]
    exact hk

theorem growSafe {c : Config Tid (Shared α) (Local α)} (h : Inv owner c.shared c.locals) :
    GrowSafe owner c where
  noUseAfterFree t x a hx ha := fun hf =>
    (h.freed a hf).2 (h.arrayOf t x a hx (arrayOf_of_reads ha))
  topStable x t hx ht := top_of_copying ht (h.phase_at hx)
  noThief x t hx ht := h.quiet x hx (quiesced_of_copying ht)
  moved item n t hx := h.moved hx
  pushedOnce := h.numbered.nodup
  deletedOnce := by
    have hnodup := h.nodup
    rw [h.current] at hnodup
    have hleft := (Multiset.nodup_add.mp hnodup).1
    obtain ⟨hkept, hdeleted, hdisjoint⟩ := Multiset.nodup_add.mp hleft
    rw [add_assoc, Multiset.disjoint_add_left] at hdisjoint
    rw [← Multiset.coe_nodup, ← Multiset.coe_add, destroyed, Shared.coe_nodes]
    exact Multiset.nodup_add.mpr ⟨hdeleted,
      (Multiset.nodup_add.mp (Multiset.nodup_add.mp hkept).1).1, hdisjoint.1.symm⟩
  deleted_subset p hp := by
    have hcons := h.conserved
    unfold Conserved at hcons
    have hmem : p ∈ (c.shared.pushed : Multiset (Node α)) := by
      rw [hcons]
      exact Multiset.mem_add.mpr (.inl (Multiset.mem_add.mpr (.inr (Multiset.mem_coe.mpr hp))))
    exact Multiset.mem_coe.mp hmem

end Inv

variable [DecidableEq Tid]

/-- **Growing is safe.** For every capacity, fewer than `2 ^ 32` thieves and every interleaving whose
positions fit. -/
theorem grow_safe (hfew : Fintype.card Tid ≤ 2 ^ 32) (r : Ring) (owner : Tid)
    (c : Config Tid (Shared α) (Local α))
    (h : (system owner).ReachWithin (fun c => c.shared.Fits) (fun _ _ => True) (initial Tid r) c) :
    GrowSafe owner c :=
  ((inv_inductive owner).reachable (inv_init hfew owner r) h.reach).growSafe

/-- The third push grows while the thief is inside a steal of the first element. -/
def pushAndSteal : List (Action (Fin 2) (Op ℕ)) :=
  List.flatten [[.call 0 (.push 7)], Action.steps 0 4, [.ret 0, .call 0 (.push 8)],
    Action.steps 0 4, [.ret 0, .call 1 .steal], Action.steps 1 6, [.call 0 (.push 9)],
    Action.steps 0 4, Action.steps 1 5, Action.steps 0 12, [.ret 0, .ret 1]]

theorem grow_safe_pushAndSteal : ∃ c : Config (Fin 2) (Shared ℕ) (Local ℕ),
    c.shared.freed = [0] ∧ c.shared.deleted.map Node.item = [7] ∧ GrowSafe 0 c := by
  have hrun : ((system (0 : Fin 2)).runWhile (fun c _ => c.shared.Fits) (initial (Fin 2) Ring.two)
      pushAndSteal).map (fun c => (c.shared.freed, c.shared.deleted.map Node.item,
        decide c.shared.Fits)) = some ([0], [7], true) := by decide +kernel
  obtain ⟨c, hc, hres⟩ := Option.map_eq_some_iff.mp hrun
  obtain ⟨hfreed, hres⟩ := Prod.mk.inj hres
  obtain ⟨hdeleted, hfits⟩ := Prod.mk.inj hres
  exact ⟨c, hfreed, hdeleted, grow_safe (by decide) Ring.two 0 c
    ⟨(System.reach_of_runWhile hc).mono fun _ _ h => ⟨h, trivial⟩, of_decide_eq_true hfits⟩⟩

/-! ## As many thieves as the gate's counter has values -/

omit [Fintype Tid] in
/-- A thief passes the open gate and is about to read the array it has loaded. -/
theorem enter_reachable {owner t : Tid} {c : Config Tid (Shared α) (Local α)}
    (hgate : c.shared.gate = false) (hl : c.locals t = none) :
    (system owner).Reachable c ⟨entered c.shared, Function.update c.locals t
      (some (.loadRound .steal c.shared.top c.shared.array))⟩ := by
  have hrun : (system owner).run c (.call t .steal :: Action.steps t 5) =
      some ⟨entered c.shared, Function.update c.locals t
        (some (.loadRound .steal c.shared.top c.shared.array))⟩ := by
    simp [Action.steps, Object.client, may, hl, hgate, object, start, step, result, List.replicate,
      entered]
  exact System.reachable_of_run hrun

/-- `n` thieves are about to read array 0 of a new queue. -/
def crowd (n : ℕ) : Config (Option (Fin (2 ^ 32))) (Shared ℕ) (Local ℕ) where
  shared := { (init Ring.two : Shared ℕ) with active := BitVec.ofNat 32 n }
  locals := arrived (.loadRound .steal 0 0) n

theorem crowd_reachable {n : ℕ} (hn : n ≤ 2 ^ 32) :
    (system none).Reachable (initial (Option (Fin (2 ^ 32))) Ring.two) (crowd n) := by
  induction n with
  | zero =>
    have hzero : crowd 0 = initial (Option (Fin (2 ^ 32))) Ring.two := by
      unfold crowd
      rw [arrived_zero]
      rfl
    rw [hzero]
    exact System.Reach.refl
  | succ n ih =>
    have hout : (crowd n).locals (some ⟨n, hn⟩) = none := if_neg (Nat.lt_irrefl n)
    have hnext : (system none).Reachable (crowd n) _ := enter_reachable rfl hout
    have hcrowd : crowd (n + 1) = ⟨entered (crowd n).shared, Function.update (crowd n).locals
        (some ⟨n, hn⟩) (some (.loadRound .steal 0 0))⟩ := by
      unfold crowd
      rw [arrived_succ _ hn, BitVec.ofNat_add]
      rfl
    rw [hcrowd]
    exact (ih (by omega)).trans hnext

/-- The third push of the owner grows, up to the deletion of the old array. -/
def thirdPush : List (Action (Option (Fin (2 ^ 32))) (Op ℕ)) :=
  List.flatten [[.call none (.push 7)], Action.steps none 4, [.ret none, .call none (.push 8)],
    Action.steps none 4, [.ret none, .call none (.push 9)], Action.steps none 13]

/-- With `2 ^ 32` thieves inside, the owner reads 0 and deletes the array that they are about to
read. -/
theorem exists_crowded_grow : ∃ c : Config (Option (Fin (2 ^ 32))) (Shared ℕ) (Local ℕ),
    (system none).Reachable (initial _ Ring.two) c ∧ ¬ GrowSafe none c := by
  have hrun : ((system none).run (crowd (2 ^ 32)) thirdPush).map (fun c =>
      (c.shared.freed, (c.locals (some ⟨0, by decide⟩)).bind Local.reads)) =
      some ([0], some 0) := by decide +kernel
  obtain ⟨c, hc, hres⟩ := Option.map_eq_some_iff.mp hrun
  obtain ⟨hfreed, hreads⟩ := Prod.mk.inj hres
  obtain ⟨x, hx, hreads⟩ := Option.bind_eq_some_iff.mp hreads
  refine ⟨c, (crowd_reachable le_rfl).trans (System.reachable_of_run hc), fun h => ?_⟩
  have hnot := h.noUseAfterFree _ x 0 hx hreads
  rw [hfreed] at hnot
  exact hnot (List.mem_singleton_self 0)

end LowLatency.WorkStealingQueue
