import LowLatency.LockFreeQueue.Basic

/-!
# The invariant of the MPMC queue

Between `head_` and `tail_` lie the positions that a push has claimed and no pop has, at most a
ring of them. The sequence number of a slot tells how far its position has come (`Ordered`), an
operation knows where it stands from what it has loaded (`Good`), and no two operations have
claimed the same position (`Inv`). All of this holds for rings of at least two slots; with one
slot the states "filled" and "free for the next lap" have the same sequence number.
-/

namespace LowLatency.LockFreeQueue

open Concurrency

variable {α : Type*}

/-- On the words that satisfy `Fits`, the register arithmetic does not wrap, and two positions
compare equal only if they are. -/
structure Word.Sound (w : Word) (Fits : ℕ → Prop) : Prop where
  wrap_eq : ∀ {n}, Fits n → w.wrap n = n
  eq_of_dif : ∀ {a b}, Fits a → Fits b → w.dif a b = 0 → a = b

theorem Word.exact_sound : Word.exact.Sound fun _ => True where
  wrap_eq _ := rfl
  eq_of_dif _ _ h := by
    simp only [Word.exact] at h
    omega

theorem Word.u64_sound : Word.u64.Sound (· < 2 ^ 64) where
  wrap_eq h := Nat.mod_eq_of_lt h
  eq_of_dif ha hb h := by
    have hd := Int.dvd_of_bmod_eq_zero h
    omega

/-- The shared members: which positions are where, and what their slots hold. -/
structure Shared.Ordered (r : Ring) (s : Shared α) : Prop where
  head_le : s.head ≤ s.tail
  tail_le : s.tail ≤ s.head + r.size
  full : ∀ p, s.head ≤ p → p < s.tail → s.sequence (r.slot p) = p ∨
    (s.sequence (r.slot p) = p + 1 ∧ (p, s.data (r.slot p)) ∈ s.pushClaims)
  free : ∀ p, s.tail ≤ p → p < s.head + r.size →
    s.sequence (r.slot p) = p ∨ s.sequence (r.slot p) + r.size = p + 1
  pushPos : s.pushClaims.map Prod.fst = List.range s.tail
  popClaims : s.popClaims = s.pushClaims.take s.head
  popReturns : ∀ c ∈ s.popReturns, c ∈ s.popClaims

variable [Inhabited α]

/-- What an operation can rely on at each of its instructions. -/
def Good (r : Ring) (s : Shared α) : Local α → Prop
  | .pushLoadSequence _ pos => pos ≤ s.tail
  | .pushClaim _ pos => pos ≤ s.tail ∧ (pos = s.tail → s.sequence (r.slot pos) = pos)
  | .pushWrite item pos => s.head ≤ pos ∧ pos < s.tail ∧ s.sequence (r.slot pos) = pos ∧
      (pos, item) ∈ s.pushClaims ∧ s.data (r.slot pos) = default
  | .pushPublish pos => s.head ≤ pos ∧ pos < s.tail ∧ s.sequence (r.slot pos) = pos ∧
      (pos, s.data (r.slot pos)) ∈ s.pushClaims
  | .popLoadSequence pos => pos ≤ s.head
  | .popClaim pos => pos ≤ s.head ∧ (pos = s.head → s.sequence (r.slot pos) = pos + 1)
  | .popRead pos => pos < s.head ∧ s.tail ≤ pos + r.size ∧ s.sequence (r.slot pos) = pos + 1 ∧
      (pos, s.data (r.slot pos)) ∈ s.pushClaims
  | .popPublish pos item => pos < s.head ∧ s.tail ≤ pos + r.size ∧
      s.sequence (r.slot pos) = pos + 1 ∧ (pos, item) ∈ s.pushClaims ∧
      s.data (r.slot pos) = default
  | .pushLoadTail _ | .popLoadHead | .done _ => True

/-- The invariant of the queue and of the operations in progress on it. -/
structure Inv {Tid : Type*} (r : Ring) (s : Shared α) (l : Tid → Option (Local α)) : Prop where
  ordered : s.Ordered r
  good : ∀ t x, l t = some x → Good r s x
  once : ∀ t u x y p, l t = some x → l u = some y → x.claimed = some p → y.claimed = some p →
    t = u
  /-- A slot that no position in use occupies is empty, or a pop is about to empty it. -/
  cleared : ∀ p, s.tail ≤ p → p < s.head + r.size → s.data (r.slot p) = default ∨
    ∃ t q, l t = some (.popRead q) ∧ q + r.size = p
  returned : (s.popReturns.map Prod.fst).Nodup
  pending : ∀ t x p, l t = some x → x.claimed = some p → p ∉ s.popReturns.map Prod.fst

/-! ## Consequences -/

namespace Shared.Ordered

variable {r : Ring} {s : Shared α}

omit [Inhabited α]

theorem length_pushClaims (h : s.Ordered r) : s.pushClaims.length = s.tail := by
  have := congrArg List.length h.pushPos
  simpa using this

theorem getElem?_pushClaims (h : s.Ordered r) {p : ℕ} {x : α} (hc : (p, x) ∈ s.pushClaims) :
    s.pushClaims[p]? = some (p, x) := by
  obtain ⟨i, hi, hx⟩ := List.getElem_of_mem hc
  have hfst : (s.pushClaims.map Prod.fst)[i]? = some p := by
    rw [List.getElem?_map, List.getElem?_eq_getElem hi, hx]
    rfl
  rw [h.pushPos, List.getElem?_range (by rw [← h.length_pushClaims]; exact hi)] at hfst
  obtain rfl : i = p := Option.some.inj hfst
  rw [List.getElem?_eq_getElem hi, hx]

theorem mem_popClaims (h : s.Ordered r) {p : ℕ} {x : α} :
    (p, x) ∈ s.popClaims ↔ p < s.head ∧ (p, x) ∈ s.pushClaims := by
  rw [h.popClaims]
  constructor
  · intro hc
    have hpush := List.mem_of_mem_take hc
    obtain ⟨i, hi, hx⟩ := List.getElem_of_mem hc
    rw [List.getElem_take] at hx
    rw [List.length_take] at hi
    have hi' : i < s.pushClaims.length := by omega
    have hip : (s.pushClaims.map Prod.fst)[i]? = some p := by
      rw [List.getElem?_map, List.getElem?_eq_getElem hi', hx]
      rfl
    rw [h.pushPos, List.getElem?_range (by rw [← h.length_pushClaims]; exact hi')] at hip
    obtain rfl : i = p := Option.some.inj hip
    exact ⟨by omega, hpush⟩
  · rintro ⟨hp, hc⟩
    have hget := h.getElem?_pushClaims hc
    refine List.mem_of_getElem? (i := p) ?_
    rw [List.getElem?_take_of_lt hp, hget]

theorem popReturns_lt (h : s.Ordered r) {c : ℕ × α} (hc : c ∈ s.popReturns) : c.1 < s.head :=
  (h.mem_popClaims.mp (h.popReturns c hc)).1

/-- A push that sees its slot free at the current tail has room: this is where a ring of one
slot fails. -/
theorem room (h : s.Ordered r) (h2 : 2 ≤ r.size) (hs : s.sequence (r.slot s.tail) = s.tail) :
    s.tail < s.head + r.size := by
  by_contra hlt
  have heq : s.tail = s.head + r.size := by have := h.tail_le; omega
  have hslot : r.slot s.tail = r.slot s.head := by rw [heq, r.slot_add_size]
  have hhead := h.full s.head le_rfl (by omega)
  rw [← hslot, hs] at hhead
  omega

/-- A pop that sees its slot filled at the current head has an item. -/
theorem stock (h : s.Ordered r) (hs : s.sequence (r.slot s.head) = s.head + 1) :
    s.head < s.tail := by
  by_contra hlt
  have heq : s.tail = s.head := by have := h.head_le; omega
  have hpos := r.size_pos
  have := h.free s.head (by omega) (by omega)
  omega

theorem sequence_le (h : s.Ordered r) (p : ℕ) : s.sequence (r.slot p) ≤ s.tail + r.size := by
  have hpos := r.size_pos
  -- the position of this slot in the current window
  obtain ⟨q, hq1, hq2, hq⟩ : ∃ q, s.head ≤ q ∧ q < s.head + r.size ∧ r.slot q = r.slot p := by
    have hmod : (p + r.size * s.head - s.head) % r.size < r.size := Nat.mod_lt _ hpos
    refine ⟨s.head + (p + r.size * s.head - s.head) % r.size, by omega, by omega, ?_⟩
    have hle : s.head ≤ p + r.size * s.head :=
      le_trans (Nat.le_mul_of_pos_left _ hpos) (Nat.le_add_left _ _)
    rw [r.slot_eq_mod, r.slot_eq_mod, Nat.add_mod_mod, Nat.add_sub_cancel' hle,
      Nat.add_mul_mod_self_left]
  rw [← hq]
  have := h.head_le
  by_cases hlt : q < s.tail
  · have := h.full q hq1 hlt
    omega
  · have := h.free q (by omega) hq2
    omega

end Shared.Ordered

theorem Good.claimed {r : Ring} {s : Shared α} (hs : s.Ordered r) {x : Local α} {p : ℕ}
    (h : Good r s x) (hc : x.claimed = some p) :
    p < s.tail ∧ s.tail ≤ p + r.size ∧
      (s.head ≤ p ∧ s.sequence (r.slot p) = p ∨
        p < s.head ∧ s.sequence (r.slot p) = p + 1) := by
  have h1 := hs.head_le
  have h2 := hs.tail_le
  cases x <;> simp only [Local.claimed, Option.some.injEq, reduceCtorEq] at hc <;> subst hc <;>
    simp only [Good] at h <;> omega

/-! ## Frames

What another operation relies on survives a write to a slot it has not claimed, and the claim of
the position at the tail or at the head. -/

namespace Good

variable {r : Ring} {s : Shared α} {y : Local α}

theorem setData (h : Good r s y) {j : ℕ} {x : α}
    (hj : ∀ q, y.claimed = some q → r.slot q ≠ j) : Good r (s.setData j x) y := by
  cases y <;> simp only [Good, Shared.setData_tail, Shared.setData_head, Shared.setData_sequence,
    Shared.setData_pushClaims, Shared.setData_data] at h ⊢ <;> try exact h
  all_goals
    have hne := hj _ rfl
    rw [if_neg hne]
    exact h

theorem setSequence (h : Good r s y) {j n : ℕ} (hj : ∀ q, y.claimed = some q → r.slot q ≠ j)
    (hpush : ∀ item, y = .pushClaim item s.tail → s.sequence (r.slot s.tail) = s.tail →
      r.slot s.tail ≠ j)
    (hpop : y = .popClaim s.head → s.sequence (r.slot s.head) = s.head + 1 →
      r.slot s.head ≠ j) : Good r (s.setSequence j n) y := by
  cases y <;> simp only [Good, Shared.setSequence_tail, Shared.setSequence_head,
    Shared.setSequence_data, Shared.setSequence_pushClaims, Shared.setSequence_sequence] at h ⊢ <;>
    try exact h
  case pushClaim item pos =>
    refine ⟨h.1, ?_⟩
    rintro rfl
    rw [if_neg (hpush item rfl (h.2 rfl))]
    exact h.2 rfl
  case popClaim pos =>
    refine ⟨h.1, ?_⟩
    rintro rfl
    rw [if_neg (hpop rfl (h.2 rfl))]
    exact h.2 rfl
  all_goals
    have hne := hj _ rfl
    rw [if_neg hne]
    exact h

theorem claimTail (h2 : 2 ≤ r.size) (h : Good r s y) (c : ℕ × α)
    (hseq : s.sequence (r.slot s.tail) = s.tail) :
    Good r { s with tail := s.tail + 1, pushClaims := s.pushClaims ++ [c] } y := by
  -- a pop that has claimed the position one lap below still shows its own sequence number
  have hlap : ∀ q, s.sequence (r.slot q) = q + 1 → s.tail ≤ q + r.size →
      s.tail + 1 ≤ q + r.size := by
    intro q hq hle
    by_contra hlt
    have heq : s.tail = q + r.size := by omega
    have hslot : r.slot s.tail = r.slot q := by rw [heq, r.slot_add_size]
    rw [hslot, hq] at hseq
    omega
  have hmem : ∀ c' ∈ s.pushClaims, c' ∈ s.pushClaims ++ [c] :=
    fun c' hc' => List.mem_append_left _ hc'
  cases y <;> simp only [Good] at h ⊢ <;> try exact h
  case pushLoadSequence item pos => exact Nat.le_succ_of_le h
  case pushClaim item pos => exact ⟨by omega, fun he => by omega⟩
  case pushWrite item pos =>
    obtain ⟨h1, h2, h3, h4, h5⟩ := h
    exact ⟨h1, by omega, h3, hmem _ h4, h5⟩
  case pushPublish pos =>
    obtain ⟨h1, h2, h3, h4⟩ := h
    exact ⟨h1, by omega, h3, hmem _ h4⟩
  case popRead pos =>
    obtain ⟨h1, h2, h3, h4⟩ := h
    exact ⟨h1, hlap pos h3 h2, h3, hmem _ h4⟩
  case popPublish pos item =>
    obtain ⟨h1, h2, h3, h4, h5⟩ := h
    exact ⟨h1, hlap pos h3 h2, h3, hmem _ h4, h5⟩

theorem claimHead (h : Good r s y) (c : ℕ × α)
    (hseq : s.sequence (r.slot s.head) = s.head + 1) :
    Good r { s with head := s.head + 1, popClaims := s.popClaims ++ [c] } y := by
  -- a push that has claimed the head position has not published it
  have hne : ∀ q, s.head ≤ q → s.sequence (r.slot q) = q → s.head + 1 ≤ q := by
    intro q hle hq
    by_contra hlt
    obtain rfl : q = s.head := by omega
    omega
  cases y <;> simp only [Good] at h ⊢ <;> try exact h
  case pushWrite item pos =>
    obtain ⟨h1, h2, h3, h4⟩ := h
    exact ⟨hne pos h1 h3, h2, h3, h4⟩
  case pushPublish pos =>
    obtain ⟨h1, h2, h3, h4⟩ := h
    exact ⟨hne pos h1 h3, h2, h3, h4⟩
  case popLoadSequence pos => exact Nat.le_succ_of_le h
  case popClaim pos => exact ⟨by omega, fun he => by omega⟩
  case popRead pos =>
    obtain ⟨h1, h2⟩ := h
    exact ⟨by omega, h2⟩
  case popPublish pos item =>
    obtain ⟨h1, h2⟩ := h
    exact ⟨by omega, h2⟩

end Good

namespace Inv

variable {Tid : Type*} {r : Ring} {s : Shared α} {l : Tid → Option (Local α)}

/-- Two operations past their claims are at different slots. -/
theorem slot_ne (h : Inv r s l) {t u : Tid} {x y : Local α} {p q : ℕ} (htu : t ≠ u)
    (hx : l t = some x) (hy : l u = some y) (hp : x.claimed = some p) (hq : y.claimed = some q) :
    r.slot q ≠ r.slot p := by
  intro hslot
  have hxp := (h.good t x hx).claimed h.ordered hp
  have hyq := (h.good u y hy).claimed h.ordered hq
  obtain rfl : q = p := r.slot_inj hslot (by omega) (by omega)
  exact htu (h.once t u x y q hx hy hp hq)

variable [DecidableEq Tid]

theorem setLocal (h : Inv r s l) {t : Tid} {o : Option (Local α)}
    (hread : ∀ q, l t ≠ some (.popRead q))
    (ho : ∀ x, o = some x → Good r s x ∧ x.claimed = none) :
    Inv r s (Function.update l t o) where
  ordered := h.ordered
  good u y hu := by
    rcases update_eq_some hu with ⟨_, rfl⟩ | ⟨_, hl⟩
    · exact (ho y rfl).1
    · exact h.good u y hl
  once u v x y p hu hv hx hy := by
    rcases update_eq_some hu with ⟨_, rfl⟩ | ⟨_, hu'⟩
    · rw [(ho x rfl).2] at hx
      cases hx
    rcases update_eq_some hv with ⟨_, rfl⟩ | ⟨_, hv'⟩
    · rw [(ho y rfl).2] at hy
      cases hy
    exact h.once u v x y p hu' hv' hx hy
  cleared p hp1 hp2 := by
    rcases h.cleared p hp1 hp2 with hd | ⟨u, q, hu, hq⟩
    · exact .inl hd
    · refine .inr ⟨u, q, ?_, hq⟩
      rw [Function.update_of_ne, hu]
      rintro rfl
      exact hread q hu
  returned := h.returned
  pending u x p hu hx := by
    rcases update_eq_some hu with ⟨_, rfl⟩ | ⟨_, hu'⟩
    · rw [(ho x rfl).2] at hx
      cases hx
    · exact h.pending u x p hu' hx

theorem claimTail (h : Inv r s l) (h2 : 2 ≤ r.size) {t : Tid} {item : α}
    (hl : l t = some (.pushClaim item s.tail)) :
    Inv r { s with tail := s.tail + 1, pushClaims := s.pushClaims ++ [(s.tail, item)] }
      (Function.update l t (some (.pushWrite item s.tail))) := by
  have hseq : s.sequence (r.slot s.tail) = s.tail := (h.good t _ hl).2 rfl
  have hroom := h.ordered.room h2 hseq
  have hlen := h.ordered.length_pushClaims
  have hhead := h.ordered.head_le
  have hempty : s.data (r.slot s.tail) = default := by
    rcases h.cleared s.tail le_rfl hroom with hd | ⟨u, q, hu, hq⟩
    · exact hd
    · have hgood : _ ∧ _ ∧ s.sequence (r.slot q) = q + 1 ∧ _ := h.good u _ hu
      rw [← hq, r.slot_add_size, hgood.2.2.1] at hseq
      omega
  constructor
  · constructor
    · exact Nat.le_succ_of_le hhead
    · exact hroom
    · intro p hp1 hp2
      by_cases hp : p = s.tail
      · subst hp
        exact .inl hseq
      · rcases h.ordered.full p hp1 (by simp only at hp2; omega) with hf | ⟨hf, hm⟩
        · exact .inl hf
        · exact .inr ⟨hf, List.mem_append_left _ hm⟩
    · intro p hp1 hp2
      exact h.ordered.free p (by simp only at hp1; omega) hp2
    · simp only [List.map_append, h.ordered.pushPos, List.map_cons, List.map_nil,
        List.range_succ]
    · simp only
      rw [List.take_append_of_le_length (by omega)]
      exact h.ordered.popClaims
    · exact h.ordered.popReturns
  · intro u y hu
    rcases update_eq_some hu with ⟨_, hy⟩ | ⟨_, hu'⟩
    · obtain rfl := Option.some.inj hy
      exact ⟨hhead, Nat.lt_succ_self _, hseq, List.mem_append_right _ (List.mem_singleton.mpr rfl),
        hempty⟩
    · exact (h.good u y hu').claimTail h2 _ hseq
  · -- every other claim is below the old tail
    have hold : ∀ u x p, l u = some x → x.claimed = some p → p ≠ s.tail := by
      intro u x p hu hx
      have := ((h.good u x hu).claimed h.ordered hx).1
      omega
    intro u v x y p hu hv hx hy
    rcases update_eq_some hu with ⟨hut, hx'⟩ | ⟨_, hu'⟩ <;>
      rcases update_eq_some hv with ⟨hvt, hy'⟩ | ⟨_, hv'⟩
    · rw [hut, hvt]
    · obtain rfl := Option.some.inj hx'
      exact absurd (Option.some.inj hx).symm (hold v y p hv' hy)
    · obtain rfl := Option.some.inj hy'
      exact absurd (Option.some.inj hy).symm (hold u x p hu' hx)
    · exact h.once u v x y p hu' hv' hx hy
  · intro p hp1 hp2
    rcases h.cleared p (by simp only at hp1; omega) hp2 with hd | ⟨u, q, hu, hq⟩
    · exact .inl hd
    · refine .inr ⟨u, q, ?_, hq⟩
      rw [Function.update_of_ne, hu]
      rintro rfl
      rw [hl] at hu
      cases hu
  · exact h.returned
  · intro u x p hu hx
    rcases update_eq_some hu with ⟨_, hx'⟩ | ⟨_, hu'⟩
    · obtain rfl := Option.some.inj hx'
      obtain rfl := Option.some.inj hx
      intro hmem
      obtain ⟨c, hc, hcp⟩ := List.mem_map.mp hmem
      have := h.ordered.popReturns_lt hc
      omega
    · exact h.pending u x p hu' hx

theorem claimHead (h : Inv r s l) {t : Tid} (hl : l t = some (.popClaim s.head)) :
    Inv r { s with
        head := s.head + 1, popClaims := s.popClaims ++ [(s.head, s.data (r.slot s.head))] }
      (Function.update l t (some (.popRead s.head))) := by
  have hseq : s.sequence (r.slot s.head) = s.head + 1 := (h.good t _ hl).2 rfl
  have hstock := h.ordered.stock hseq
  have hlen := h.ordered.length_pushClaims
  have htail := h.ordered.tail_le
  have hmem : (s.head, s.data (r.slot s.head)) ∈ s.pushClaims := by
    rcases h.ordered.full s.head le_rfl hstock with hf | ⟨_, hm⟩
    · omega
    · exact hm
  have hget := h.ordered.getElem?_pushClaims hmem
  constructor
  · constructor
    · exact hstock
    · show s.tail ≤ s.head + 1 + r.size
      omega
    · intro p hp1 hp2
      exact h.ordered.full p (Nat.le_of_succ_le hp1) hp2
    · intro p hp1 hp2
      by_cases hp : p = s.head + r.size
      · subst hp
        right
        show s.sequence (r.slot (s.head + r.size)) + r.size = s.head + r.size + 1
        rw [r.slot_add_size, hseq]
        omega
      · exact h.ordered.free p hp1 (by simp only at hp2; omega)
    · exact h.ordered.pushPos
    · show s.popClaims ++ [(s.head, s.data (r.slot s.head))] = s.pushClaims.take (s.head + 1)
      rw [List.take_add_one, hget, h.ordered.popClaims]
      rfl
    · exact fun c hc => List.mem_append_left _ (h.ordered.popReturns c hc)
  · intro u y hu
    rcases update_eq_some hu with ⟨_, hy⟩ | ⟨_, hu'⟩
    · obtain rfl := Option.some.inj hy
      exact ⟨Nat.lt_succ_self _, htail, hseq, hmem⟩
    · exact (h.good u y hu').claimHead _ hseq
  · -- the other claims are not at the old head
    have hold : ∀ u x p, l u = some x → x.claimed = some p → p ≠ s.head := by
      intro u x p hu hx
      have := ((h.good u x hu).claimed h.ordered hx).2.2
      rintro rfl
      omega
    intro u v x y p hu hv hx hy
    rcases update_eq_some hu with ⟨hut, hx'⟩ | ⟨_, hu'⟩ <;>
      rcases update_eq_some hv with ⟨hvt, hy'⟩ | ⟨_, hv'⟩
    · rw [hut, hvt]
    · obtain rfl := Option.some.inj hx'
      exact absurd (Option.some.inj hx).symm (hold v y p hv' hy)
    · obtain rfl := Option.some.inj hy'
      exact absurd (Option.some.inj hy).symm (hold u x p hu' hx)
    · exact h.once u v x y p hu' hv' hx hy
  · intro p hp1 hp2
    by_cases hp : p = s.head + r.size
    · exact .inr ⟨t, s.head, Function.update_self .., hp.symm⟩
    · rcases h.cleared p hp1 (by simp only at hp2; omega) with hd | ⟨u, q, hu, hq⟩
      · exact .inl hd
      · refine .inr ⟨u, q, ?_, hq⟩
        rw [Function.update_of_ne, hu]
        rintro rfl
        rw [hl] at hu
        cases hu
  · exact h.returned
  · intro u x p hu hx
    rcases update_eq_some hu with ⟨_, hx'⟩ | ⟨_, hu'⟩
    · obtain rfl := Option.some.inj hx'
      obtain rfl := Option.some.inj hx
      intro hret
      obtain ⟨c, hc, hcp⟩ := List.mem_map.mp hret
      have := h.ordered.popReturns_lt hc
      omega
    · exact h.pending u x p hu' hx

section Claimed

variable {t : Tid} {x : Local α} {p : ℕ} {o : Option (Local α)}

/-- Moving on within a claim, or giving it up, keeps the claims of different operations apart. -/
theorem once_update (h : Inv r s l) (hl : l t = some x) (hx : x.claimed = some p)
    (ho : ∀ y q, o = some y → y.claimed = some q → q = p) {u v : Tid} {y z : Local α} {q : ℕ}
    (hu : Function.update l t o u = some y) (hv : Function.update l t o v = some z)
    (hy : y.claimed = some q) (hz : z.claimed = some q) : u = v := by
  rcases update_eq_some hu with ⟨hut, hy'⟩ | ⟨_, hu'⟩ <;>
    rcases update_eq_some hv with ⟨hvt, hz'⟩ | ⟨_, hv'⟩
  · rw [hut, hvt]
  · obtain rfl := ho y q hy' hy
    rw [hut]
    exact h.once t v x z q hl hv' hx hz
  · obtain rfl := ho z q hz' hz
    rw [hvt]
    exact h.once u t y x q hu' hl hy hx
  · exact h.once u v y z q hu' hv' hy hz

theorem pending_update (h : Inv r s l) (hl : l t = some x) (hx : x.claimed = some p)
    (ho : ∀ y q, o = some y → y.claimed = some q → q = p) {u : Tid} {y : Local α} {q : ℕ}
    (hu : Function.update l t o u = some y) (hy : y.claimed = some q) :
    q ∉ s.popReturns.map Prod.fst := by
  rcases update_eq_some hu with ⟨_, hy'⟩ | ⟨_, hu'⟩
  · obtain rfl := ho y q hy' hy
    exact h.pending t x q hl hx
  · exact h.pending u y q hu' hy

omit [DecidableEq Tid] in
/-- The slot of a claim is not the slot a `pushClaim` of the tail position has checked. -/
theorem slot_tail_ne (h : Inv r s l) (h2 : 2 ≤ r.size) (hl : l t = some x)
    (hx : x.claimed = some p) (hseq : s.sequence (r.slot s.tail) = s.tail) :
    r.slot s.tail ≠ r.slot p := by
  intro hslot
  have hroom := h.ordered.room h2 hseq
  have hp := (h.good t x hl).claimed h.ordered hx
  rw [hslot] at hseq
  by_cases hlap : s.tail = p + r.size
  · omega
  · have := r.slot_inj hslot (by omega) (by omega)
    omega

omit [DecidableEq Tid] in
/-- Nor the slot a `popClaim` of the head position has checked. -/
theorem slot_head_ne (h : Inv r s l) (hl : l t = some x) (hx : x.claimed = some p)
    (hseq : s.sequence (r.slot s.head) = s.head + 1) : r.slot s.head ≠ r.slot p := by
  intro hslot
  have hstock := h.ordered.stock hseq
  have htail := h.ordered.tail_le
  have hp := (h.good t x hl).claimed h.ordered hx
  have := r.slot_inj hslot (by omega) (by omega)
  rw [hslot] at hseq
  omega

end Claimed

theorem write (h : Inv r s l) {t : Tid} {item : α} {pos : ℕ}
    (hl : l t = some (.pushWrite item pos)) :
    Inv r (s.setData (r.slot pos) item) (Function.update l t (some (.pushPublish pos))) := by
  obtain ⟨h1, h2, h3, h4, _⟩ : _ ∧ _ ∧ s.sequence (r.slot pos) = pos ∧ _ ∧ _ := h.good t _ hl
  have ho : ∀ y q, some (Local.pushPublish (α := α) pos) = some y → y.claimed = some q →
      q = pos := by
    rintro y q hy hq
    obtain rfl := Option.some.inj hy
    exact (Option.some.inj hq).symm
  have htail := h.ordered.tail_le
  constructor
  · obtain ⟨a1, a2, a3, a4, a5, a6, a7⟩ := h.ordered
    refine ⟨a1, a2, ?_, fun p hp1 hp2 => by simpa using a4 p hp1 hp2, a5, a6, a7⟩
    intro p hp1 hp2
    rw [Shared.setData_sequence, Shared.setData_data]
    by_cases hp : r.slot p = r.slot pos
    · simp only [Shared.setData_tail, Shared.setData_head] at hp1 hp2
      obtain rfl := r.slot_inj hp (by omega) (by omega)
      exact .inl h3
    · rw [if_neg hp]
      exact a3 p hp1 hp2
  · intro u y hu
    rcases update_eq_some hu with ⟨_, hy⟩ | ⟨hne, hu'⟩
    · obtain rfl := Option.some.inj hy
      refine ⟨h1, h2, by simpa using h3, ?_⟩
      rw [Shared.setData_data, if_pos rfl]
      exact h4
    · exact (h.good u y hu').setData fun q hq => h.slot_ne (Ne.symm hne) hl hu' rfl hq
  · exact fun u v y z q hu hv => h.once_update hl rfl ho hu hv
  · intro p hp1 hp2
    rw [Shared.setData_tail] at hp1
    rw [Shared.setData_head] at hp2
    have hne : r.slot p ≠ r.slot pos := by
      intro hp
      have := r.slot_inj hp (by omega) (by omega)
      omega
    rw [Shared.setData_data, if_neg hne]
    rcases h.cleared p hp1 hp2 with hd | ⟨u, q, hu, hq⟩
    · exact .inl hd
    · refine .inr ⟨u, q, ?_, hq⟩
      rw [Function.update_of_ne, hu]
      rintro rfl
      rw [hl] at hu
      cases hu
  · exact h.returned
  · exact fun u y q hu => h.pending_update hl rfl ho hu

theorem publishPush (h : Inv r s l) (h2 : 2 ≤ r.size) {t : Tid} {pos : ℕ} {o : Outcome α}
    (hl : l t = some (.pushPublish pos)) :
    Inv r (s.setSequence (r.slot pos) (pos + 1)) (Function.update l t (some (.done o))) := by
  obtain ⟨g1, g2, g3, g4⟩ : _ ∧ _ ∧ s.sequence (r.slot pos) = pos ∧ _ := h.good t _ hl
  have ho : ∀ y q, some (Local.done o) = some y → y.claimed = some q → q = pos := by
    rintro y q hy hq
    obtain rfl := Option.some.inj hy
    cases hq
  have htail := h.ordered.tail_le
  constructor
  · obtain ⟨a1, a2, a3, a4, a5, a6, a7⟩ := h.ordered
    refine ⟨a1, a2, ?_, ?_, a5, a6, a7⟩
    · intro p hp1 hp2
      rw [Shared.setSequence_sequence, Shared.setSequence_data]
      by_cases hp : r.slot p = r.slot pos
      · simp only [Shared.setSequence_tail, Shared.setSequence_head] at hp1 hp2
        obtain rfl := r.slot_inj hp (by omega) (by omega)
        rw [if_pos rfl]
        exact .inr ⟨rfl, g4⟩
      · rw [if_neg hp]
        exact a3 p hp1 hp2
    · intro p hp1 hp2
      simp only [Shared.setSequence_tail, Shared.setSequence_head] at hp1 hp2
      have hne : r.slot p ≠ r.slot pos := by
        intro hp
        have := r.slot_inj hp (by omega) (by omega)
        omega
      rw [Shared.setSequence_sequence, if_neg hne]
      exact a4 p hp1 hp2
  · intro u y hu
    rcases update_eq_some hu with ⟨_, hy⟩ | ⟨hne, hu'⟩
    · obtain rfl := Option.some.inj hy
      trivial
    · exact (h.good u y hu').setSequence (fun q hq => h.slot_ne (Ne.symm hne) hl hu' rfl hq)
        (fun _ _ hseq => h.slot_tail_ne h2 hl rfl hseq) (fun _ hseq => h.slot_head_ne hl rfl hseq)
  · exact fun u v y z q hu hv => h.once_update hl rfl ho hu hv
  · intro p hp1 hp2
    rw [Shared.setSequence_data]
    rcases h.cleared p hp1 hp2 with hd | ⟨u, q, hu, hq⟩
    · exact .inl hd
    · refine .inr ⟨u, q, ?_, hq⟩
      rw [Function.update_of_ne, hu]
      rintro rfl
      rw [hl] at hu
      cases hu
  · exact h.returned
  · exact fun u y q hu => h.pending_update hl rfl ho hu

theorem read (h : Inv r s l) {t : Tid} {pos : ℕ} (hl : l t = some (.popRead pos)) :
    Inv r (s.setData (r.slot pos) default)
      (Function.update l t (some (.popPublish pos (s.data (r.slot pos))))) := by
  obtain ⟨g1, g2, g3, g4⟩ : _ ∧ _ ∧ s.sequence (r.slot pos) = pos + 1 ∧ _ := h.good t _ hl
  have ho : ∀ y q, some (Local.popPublish pos (s.data (r.slot pos))) = some y →
      y.claimed = some q → q = pos := by
    rintro y q hy hq
    obtain rfl := Option.some.inj hy
    exact (Option.some.inj hq).symm
  have htail := h.ordered.tail_le
  constructor
  · obtain ⟨a1, a2, a3, a4, a5, a6, a7⟩ := h.ordered
    refine ⟨a1, a2, ?_, fun p hp1 hp2 => by simpa using a4 p hp1 hp2, a5, a6, a7⟩
    intro p hp1 hp2
    simp only [Shared.setData_tail, Shared.setData_head] at hp1 hp2
    have hne : r.slot p ≠ r.slot pos := by
      intro hp
      have := r.slot_inj hp (by omega) (by omega)
      omega
    rw [Shared.setData_sequence, Shared.setData_data, if_neg hne]
    exact a3 p hp1 hp2
  · intro u y hu
    rcases update_eq_some hu with ⟨_, hy⟩ | ⟨hne, hu'⟩
    · obtain rfl := Option.some.inj hy
      refine ⟨g1, g2, by simpa using g3, g4, ?_⟩
      rw [Shared.setData_data, if_pos rfl]
    · exact (h.good u y hu').setData fun q hq => h.slot_ne (Ne.symm hne) hl hu' rfl hq
  · exact fun u v y z q hu hv => h.once_update hl rfl ho hu hv
  · intro p hp1 hp2
    rw [Shared.setData_tail] at hp1
    rw [Shared.setData_head] at hp2
    rw [Shared.setData_data]
    by_cases hp : r.slot p = r.slot pos
    · rw [if_pos hp]
      exact .inl rfl
    · rw [if_neg hp]
      rcases h.cleared p hp1 hp2 with hd | ⟨u, q, hu, hq⟩
      · exact .inl hd
      · refine .inr ⟨u, q, ?_, hq⟩
        rw [Function.update_of_ne, hu]
        rintro rfl
        rw [hl] at hu
        obtain rfl : pos = q := by simpa using hu
        exact hp (by rw [← hq, r.slot_add_size])
  · exact h.returned
  · exact fun u y q hu => h.pending_update hl rfl ho hu

theorem publishPop (h : Inv r s l) (h2 : 2 ≤ r.size) {t : Tid} {pos : ℕ} {item : α}
    {o : Outcome α} (hl : l t = some (.popPublish pos item)) :
    Inv r { s.setSequence (r.slot pos) (pos + r.size) with
        popReturns := s.popReturns ++ [(pos, item)] }
      (Function.update l t (some (.done o))) := by
  obtain ⟨g1, g2, g3, g4, _⟩ : _ ∧ _ ∧ s.sequence (r.slot pos) = pos + 1 ∧ _ := h.good t _ hl
  have ho : ∀ y q, some (Local.done o) = some y → y.claimed = some q → q = pos := by
    rintro y q hy hq
    obtain rfl := Option.some.inj hy
    cases hq
  have htail := h.ordered.tail_le
  constructor
  · obtain ⟨a1, a2, a3, a4, a5, a6, a7⟩ := h.ordered
    refine ⟨a1, a2, ?_, ?_, a5, a6, ?_⟩
    · intro p hp1 hp2
      have hne : r.slot p ≠ r.slot pos := by
        intro hp
        have hp1' : s.head ≤ p := hp1
        have hp2' : p < s.tail := hp2
        have := r.slot_inj hp (by omega) (by omega)
        omega
      show (s.setSequence (r.slot pos) (pos + r.size)).sequence (r.slot p) = p ∨ _ ∧
        (p, (s.setSequence (r.slot pos) (pos + r.size)).data (r.slot p)) ∈ s.pushClaims
      rw [Shared.setSequence_data]
      have := a3 p hp1 hp2
      show (s.setSequence (r.slot pos) (pos + r.size)).sequence (r.slot p) = p ∨
        (s.setSequence (r.slot pos) (pos + r.size)).sequence (r.slot p) = p + 1 ∧ _
      rw [Shared.setSequence_sequence, if_neg hne]
      exact this
    · intro p hp1 hp2
      have hp1' : s.tail ≤ p := hp1
      have hp2' : p < s.head + r.size := hp2
      show (s.setSequence (r.slot pos) (pos + r.size)).sequence (r.slot p) = p ∨
        (s.setSequence (r.slot pos) (pos + r.size)).sequence (r.slot p) + r.size = p + 1
      rw [Shared.setSequence_sequence]
      by_cases hp : r.slot p = r.slot pos
      · rw [if_pos hp]
        rw [← r.slot_add_size pos] at hp
        exact .inl (r.slot_inj hp (by omega) (by omega)).symm
      · rw [if_neg hp]
        exact a4 p hp1 hp2
    · intro c hc
      rcases List.mem_append.mp hc with hc | hc
      · exact a7 c hc
      · obtain rfl := List.mem_singleton.mp hc
        exact h.ordered.mem_popClaims.mpr ⟨g1, g4⟩
  · intro u y hu
    rcases update_eq_some hu with ⟨_, hy⟩ | ⟨hne, hu'⟩
    · obtain rfl := Option.some.inj hy
      trivial
    · have hy := (h.good u y hu').setSequence (n := pos + r.size)
        (fun q hq => h.slot_ne (Ne.symm hne) hl hu' rfl hq)
        (fun _ _ hseq => h.slot_tail_ne h2 hl rfl hseq) (fun _ hseq => h.slot_head_ne hl rfl hseq)
      cases y <;> exact hy
  · exact fun u v y z q hu hv => h.once_update hl rfl ho hu hv
  · intro p hp1 hp2
    rcases h.cleared p hp1 hp2 with hd | ⟨u, q, hu, hq⟩
    · left
      show (s.setSequence (r.slot pos) (pos + r.size)).data (r.slot p) = default
      rw [Shared.setSequence_data]
      exact hd
    · refine .inr ⟨u, q, ?_, hq⟩
      rw [Function.update_of_ne, hu]
      rintro rfl
      rw [hl] at hu
      cases hu
  · rw [List.map_append, List.nodup_append]
    refine ⟨h.returned, by simp, ?_⟩
    rintro a ha b hb rfl
    obtain rfl : a = pos := by simpa using hb
    exact h.pending t _ a hl rfl ha
  · intro u y q hu hy
    rcases update_eq_some hu with ⟨_, hy'⟩ | ⟨hne, hu'⟩
    · obtain rfl := Option.some.inj hy'
      cases hy
    · rw [List.map_append, List.mem_append, not_or]
      refine ⟨h.pending u y q hu' hy, ?_⟩
      intro hq
      obtain rfl : q = pos := by simpa using hq
      exact hne (h.once u t y _ q hu' hl hy rfl)

end Inv

/-! ## The step lemma -/

/-- The words a step from `s` computes fit. -/
def Fitting (r : Ring) (Fits : ℕ → Prop) (s : Shared α) (_ : Local α) : Prop :=
  ∀ n ≤ s.tail + r.size, Fits n

/-- The invariant is kept by every instruction of every operation. -/
theorem inv_step {Tid : Type*} [DecidableEq Tid] {w : Word} {Fits : ℕ → Prop}
    (hw : w.Sound Fits) {r : Ring} (h2 : 2 ≤ r.size) {s : Shared α} {l : Tid → Option (Local α)}
    {t : Tid} {x : Local α} (b : Bool) (h : Inv r s l) (hl : l t = some x)
    (hr : result x = none) (hfit : Fitting r Fits s x) :
    Inv r (step w r b s x).1 (Function.update l t (some (step w r b s x).2)) := by
  have hle := h.ordered.head_le
  have hpos := r.size_pos
  have hquiet : ∀ {y : Local α}, Good r s y → y.claimed = none → (∀ q, x ≠ .popRead q) →
      Inv r s (Function.update l t (some y)) := by
    intro y hy hc hx
    refine h.setLocal (by simpa [hl] using hx) ?_
    rintro z hz
    obtain rfl := Option.some.inj hz
    exact ⟨hy, hc⟩
  have hgood := h.good t x hl
  cases x with
  | pushLoadTail item => exact hquiet (y := .pushLoadSequence item s.tail) le_rfl rfl (by simp)
  | pushLoadSequence item pos =>
    have hpos : pos ≤ s.tail := hgood
    simp only [step]
    split_ifs with hd
    · have hseq := hw.eq_of_dif (hfit _ (h.ordered.sequence_le pos)) (hfit pos (by omega)) hd
      exact hquiet (y := .pushClaim item pos) ⟨hpos, fun _ => hseq⟩ rfl (by simp)
    · exact hquiet trivial rfl (by simp)
    · exact hquiet trivial rfl (by simp)
  | pushClaim item pos =>
    simp only [step]
    split_ifs with hc
    · obtain ⟨rfl, rfl⟩ := hc
      rw [hw.wrap_eq (hfit _ (by omega))]
      exact h.claimTail h2 hl
    · exact hquiet (y := .pushLoadSequence item s.tail) le_rfl rfl (by simp)
  | pushWrite item pos => exact h.write hl
  | pushPublish pos =>
    obtain ⟨_, hlt, _⟩ : _ ∧ pos < s.tail ∧ _ := hgood
    simp only [step]
    rw [hw.wrap_eq (hfit _ (by omega))]
    exact h.publishPush h2 hl
  | popLoadHead => exact hquiet (y := .popLoadSequence s.head) le_rfl rfl (by simp)
  | popLoadSequence pos =>
    have hle' : pos ≤ s.head := hgood
    simp only [step]
    rw [hw.wrap_eq (hfit (pos + 1) (by omega))]
    split_ifs with hd
    · have hseq :=
        hw.eq_of_dif (hfit _ (h.ordered.sequence_le pos)) (hfit (pos + 1) (by omega)) hd
      exact hquiet (y := .popClaim pos) ⟨hle', fun _ => hseq⟩ rfl (by simp)
    · exact hquiet trivial rfl (by simp)
    · exact hquiet trivial rfl (by simp)
  | popClaim pos =>
    simp only [step]
    split_ifs with hc
    · obtain ⟨rfl, rfl⟩ := hc
      rw [hw.wrap_eq (hfit _ (by omega))]
      exact h.claimHead hl
    · exact hquiet (y := .popLoadSequence s.head) le_rfl rfl (by simp)
  | popRead pos => exact h.read hl
  | popPublish pos item =>
    obtain ⟨hlt, _⟩ : pos < s.head ∧ _ := hgood
    simp only [step]
    rw [hw.wrap_eq (hfit _ (by omega))]
    exact h.publishPop h2 hl
  | done o => cases hr

theorem inv_inductive {Tid : Type*} [DecidableEq Tid] {w : Word} {Fits : ℕ → Prop}
    (hw : w.Sound Fits) {r : Ring} (h2 : 2 ≤ r.size) :
    (object (α := α) w r).Inductive (fun (_ : Tid) _ => true) (Fitting r Fits) (Inv r) where
  call := by
    intro s l t op h hl _
    refine h.setLocal (by simp [hl]) ?_
    rintro x hx
    obtain rfl := Option.some.inj hx
    cases op <;> exact ⟨trivial, rfl⟩
  step b h hl hr hfit := inv_step hw h2 b h hl hr hfit
  ret := by
    intro s l t x o h hl hr
    refine h.setLocal ?_ (by simp)
    intro q hq
    rw [hl] at hq
    obtain rfl := Option.some.inj hq
    cases hr

theorem inv_init {Tid : Type*} (r : Ring) :
    Inv r (init (α := α)) (fun _ : Tid => none) where
  ordered := by
    refine ⟨le_rfl, Nat.zero_le _, fun p _ hp => absurd hp (Nat.not_lt_zero p), ?_, rfl, rfl,
      by simp [init]⟩
    intro p _ hp
    left
    have hp' : p < r.size := by simpa [init] using hp
    show r.slot p = p
    rw [r.slot_eq_mod, Nat.mod_eq_of_lt hp']
  good _ _ h := by cases h
  once _ _ _ _ _ h := by cases h
  cleared _ _ _ := .inl rfl
  returned := List.nodup_nil
  pending _ _ _ h := by cases h

end LowLatency.LockFreeQueue
