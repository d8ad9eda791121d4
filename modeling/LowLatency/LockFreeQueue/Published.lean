import Mathlib.Algebra.BigOperators.Group.Finset.Piecewise
import Mathlib.Order.Interval.Finset.Nat
import LowLatency.Concurrency.Slots
import LowLatency.LockFreeQueue.Basic

/-!
# A pop takes what a push has published

A position is published once its push has stored `pos + 1` into the slot's sequence number. In
queues of every size, also of one slot, `head_` stays among the published positions (`Marked`), so
the positions below `tail_` are enough for the pops that have claimed and the pushes that have not
published (`Marked.head_add_hands_le`).
-/

namespace LowLatency.LockFreeQueue

open Concurrency

variable {α Tid : Type*}

/-- The position that a push has claimed and not published. -/
def Local.unpublished : Local α → Option ℕ
  | .pushWrite _ pos | .pushPublish pos => some pos
  | _ => none

/-- Whether there is one. -/
def Local.publishing (x : Local α) : ℕ := if x.unpublished.isSome then 1 else 0

/-- The position that a pop is about to claim. -/
def Local.going : Local α → Option ℕ
  | .popClaim pos => some pos
  | _ => none

/-- The position that a pop has claimed and not freed. -/
def Local.taking : Local α → Option ℕ
  | .popRead pos | .popPublish pos _ => some pos
  | _ => none

/-- The push of position `p` has stored its sequence number. -/
def Published (s : Shared α) (l : Tid → Option (Local α)) (p : ℕ) : Prop :=
  p < s.tail ∧ ∀ t x, l t = some x → x.unpublished ≠ some p

/-- Where the published positions are. -/
structure Marked (r : Ring) (s : Shared α) (l : Tid → Option (Local α)) : Prop where
  below : ∀ t x p, l t = some x → x.unpublished = some p → p < s.tail
  once : ∀ t u x y p, l t = some x → l u = some y → x.unpublished = some p →
    y.unpublished = some p → t = u
  /-- What a slot shows to a pop is published. -/
  shown : ∀ p, s.sequence (r.slot p) = p + 1 → Published s l p
  seen : ∀ t x p, l t = some x → x.going = some p → Published s l p
  taken : ∀ p, p < s.head → Published s l p
  taking : ∀ t x p, l t = some x → x.taking = some p → p < s.head

variable [Inhabited α] {r : Ring} {s : Shared α} {l : Tid → Option (Local α)} {t : Tid} {x : Local α}

/-! ## What an instruction can do -/

section Steps

theorem step_unpublished (b : Bool) : s.tail ≤ (step .exact r b s x).1.tail ∧
    ∀ p, (step .exact r b s x).2.unpublished = some p → x.unpublished = some p ∨
      p = s.tail ∧ p < (step .exact r b s x).1.tail := by
  cases x with
  | pushClaim item pos =>
    simp only [step]
    split_ifs with hc
    · obtain ⟨rfl, _⟩ := hc
      refine ⟨Nat.le_succ _, fun p hp => .inr ?_⟩
      obtain rfl := Option.some.inj hp
      exact ⟨rfl, Nat.lt_succ_self _⟩
    · exact ⟨le_rfl, fun p hp => by cases hp⟩
  | pushLoadSequence | popLoadSequence | popClaim =>
    simp only [step]
    split_ifs <;> exact ⟨le_rfl, fun p hp => by cases hp⟩
  | pushWrite => exact ⟨le_rfl, fun p hp => .inl hp⟩
  | _ => exact ⟨le_rfl, fun p hp => by cases hp⟩

/-- A sequence number is stored by a push that publishes, or by a pop that frees the slot. -/
theorem step_sequence (b : Bool) (j : ℕ) :
    (step .exact r b s x).1.sequence j = s.sequence j ∨
      (∃ pos, x = .pushPublish pos ∧ j = r.slot pos ∧
        (step .exact r b s x).1.sequence j = pos + 1) ∨
      ∃ pos item, x = .popPublish pos item ∧ j = r.slot pos ∧
        (step .exact r b s x).1.sequence j = pos + r.size := by
  cases x with
  | pushPublish pos =>
    simp only [step, Word.exact, id]
    rw [Shared.setSequence_sequence]
    split_ifs with hj
    · exact .inr (.inl ⟨pos, rfl, hj, rfl⟩)
    · exact .inl rfl
  | popPublish pos item =>
    have hup := s.setSequence_sequence (r.slot pos) (pos + r.size) j
    by_cases hj : j = r.slot pos
    · rw [if_pos hj] at hup
      exact .inr (.inr ⟨pos, item, rfl, hj, hup⟩)
    · rw [if_neg hj] at hup
      exact .inl hup
  | pushWrite | popRead => exact .inl (Shared.setData_sequence ..)
  | pushLoadSequence | pushClaim | popLoadSequence | popClaim =>
    simp only [step]
    split_ifs <;> exact .inl rfl
  | _ => exact .inl rfl

theorem step_head (b : Bool) : (step .exact r b s x).1.head = s.head ∨
    x.going = some s.head ∧ (step .exact r b s x).1.head = s.head + 1 := by
  cases x with
  | popClaim pos =>
    simp only [step]
    split_ifs with hc
    · obtain ⟨rfl, _⟩ := hc
      exact .inr ⟨rfl, rfl⟩
    · exact .inl rfl
  | pushLoadSequence | pushClaim | popLoadSequence =>
    simp only [step]
    split_ifs <;> exact .inl rfl
  | _ => exact .inl rfl

/-- A pop that goes for a position has seen its sequence number. -/
theorem step_going {b : Bool} {p : ℕ} (h : (step .exact r b s x).2.going = some p) :
    s.sequence (r.slot p) = p + 1 := by
  cases x with
  | popLoadSequence pos =>
    simp only [step] at h
    split_ifs at h with hdif <;> cases h
    simp only [Word.exact, id] at hdif
    omega
  | pushLoadSequence | pushClaim | popClaim =>
    simp only [step] at h
    split_ifs at h <;> cases h
  | _ => cases h

/-- A pop reads and frees the position that it has claimed. -/
theorem step_taking {b : Bool} {p : ℕ} (h : (step .exact r b s x).2.taking = some p) :
    x.taking = some p ∨ p < (step .exact r b s x).1.head := by
  cases x with
  | popClaim pos =>
    simp only [step] at h ⊢
    split_ifs at h ⊢ <;> cases h
    exact .inr (Nat.lt_succ_self _)
  | popRead => exact .inl h
  | pushLoadSequence | pushClaim | popLoadSequence =>
    simp only [step] at h
    split_ifs at h <;> cases h
  | _ => cases h

end Steps

/-! ## The invariant -/

variable [DecidableEq Tid]

omit [DecidableEq Tid] in
theorem marked_init (r : Ring) : Marked r (init : Shared α) (fun _ : Tid => none) where
  below t x p h := by cases h
  once t u x y p h := by cases h
  shown p h := by
    have hle : r.slot p ≤ p := by
      rw [r.slot_eq_mod]
      exact Nat.mod_le p r.size
    have hseq : r.slot p = p + 1 := h
    omega
  seen t x p h := by cases h
  taken p h := absurd h (Nat.not_lt_zero p)
  taking t x p h := by cases h

theorem Published.step {p : ℕ} (h : Published s l p) (hx : l t = some x) (b : Bool) :
    Published (step .exact r b s x).1
      (Function.update l t (some (LockFreeQueue.step .exact r b s x).2)) p := by
  obtain ⟨htail, hnew⟩ := step_unpublished (r := r) (s := s) (x := x) b
  refine ⟨h.1.trans_le htail, fun u y hu hp => ?_⟩
  rcases update_eq_some hu with ⟨_, ho⟩ | ⟨_, hu⟩
  · obtain rfl := Option.some.inj ho
    rcases hnew p hp with hold | ⟨hp, _⟩
    · exact h.2 t x hx hold
    · exact h.1.ne hp
  · exact h.2 u y hu hp

omit [Inhabited α] in
theorem Marked.setLocal {o : Option (Local α)} (h : Marked r s l)
    (ho : ∀ y, o = some y → y.unpublished = none ∧ y.going = none ∧ y.taking = none) :
    Marked r s (Function.update l t o) := by
  -- what an operation has claimed, it has claimed before
  have hold : ∀ (f : Local α → Option ℕ), (∀ y, o = some y → f y = none) → ∀ u y p,
      Function.update l t o u = some y → f y = some p → l u = some y := by
    intro f hf u y p hu hy
    rcases update_eq_some hu with ⟨_, hnew⟩ | ⟨_, hu⟩
    · rw [hf y hnew] at hy
      cases hy
    · exact hu
  have hunpublished := hold Local.unpublished fun y hy => (ho y hy).1
  have hpub : ∀ p, Published s l p → Published s (Function.update l t o) p :=
    fun p hp => ⟨hp.1, fun u y hu hy => hp.2 u y (hunpublished u y p hu hy) hy⟩
  refine ⟨?_, ?_, fun p hp => hpub p (h.shown p hp), ?_, fun p hp => hpub p (h.taken p hp), ?_⟩
  · exact fun u y p hu hy => h.below u y p (hunpublished u y p hu hy) hy
  · exact fun u v y z p hu hv hy hz =>
      h.once u v y z p (hunpublished u y p hu hy) (hunpublished v z p hv hz) hy hz
  · intro u y p hu hy
    exact hpub p (h.seen u y p (hold Local.going (fun y hy => (ho y hy).2.1) u y p hu hy) hy)
  · intro u y p hu hy
    exact h.taking u y p (hold Local.taking (fun y hy => (ho y hy).2.2) u y p hu hy) hy

theorem Marked.step_shown (h : Marked r s l) (hx : l t = some x) (b : Bool) {p : ℕ}
    (hp : (step .exact r b s x).1.sequence (r.slot p) = p + 1) :
    Published (step .exact r b s x).1
      (Function.update l t (some (LockFreeQueue.step .exact r b s x).2)) p := by
  rcases step_sequence (r := r) (s := s) (x := x) b (r.slot p) with
    hsame | ⟨pos, rfl, _, hseq⟩ | ⟨pos, item, rfl, hslot, hseq⟩
  · exact (h.shown p (hsame.symm.trans hp)).step hx b
  · -- the push publishes `p`, and no other push has claimed it
    obtain rfl : pos = p := by omega
    refine ⟨h.below t _ pos hx rfl, fun u y hu hy => ?_⟩
    rcases update_eq_some hu with ⟨_, ho⟩ | ⟨hut, hu⟩
    · obtain rfl := Option.some.inj ho
      cases hy
    · exact hut (h.once u t y _ pos hu hx hy rfl)
  · -- only in a queue of one slot does a freed slot show the position that it had
    have hpub := h.taken pos (h.taking t _ pos hx rfl)
    have hmod : p % r.size = pos % r.size := by
      rw [← r.slot_eq_mod, ← r.slot_eq_mod, hslot]
    obtain rfl : pos = p := by
      have hpos := r.size_pos
      have hone : r.size = 1 := by
        have hsum : (p + 1) % r.size = pos % r.size := by
          rw [← hp, hseq, Nat.add_mod_right]
        have hdvd : r.size ∣ p + 1 - p :=
          (Nat.modEq_iff_dvd' (Nat.le_succ p)).mp (hmod.trans hsum.symm)
        rw [Nat.add_sub_cancel_left] at hdvd
        exact Nat.dvd_one.mp hdvd
      omega
    exact hpub.step hx b

theorem Marked.step (h : Marked r s l) (hx : l t = some x) (b : Bool) :
    Marked r (step .exact r b s x).1
      (Function.update l t (some (LockFreeQueue.step .exact r b s x).2)) := by
  obtain ⟨htail, hnew⟩ := step_unpublished (r := r) (s := s) (x := x) b
  have hhead : s.head ≤ (LockFreeQueue.step .exact r b s x).1.head := by
    rcases step_head (r := r) (s := s) (x := x) b with he | ⟨_, he⟩ <;> omega
  refine ⟨?_, ?_, fun p hp => h.step_shown hx b hp, ?_, ?_, ?_⟩
  · intro u y p hu hy
    rcases update_eq_some hu with ⟨_, ho⟩ | ⟨_, hu⟩
    · obtain rfl := Option.some.inj ho
      rcases hnew p hy with hold | ⟨_, hlt⟩
      · exact (h.below t x p hx hold).trans_le htail
      · exact hlt
    · exact (h.below u y p hu hy).trans_le htail
  · -- whoever has claimed the position at `tail_` is alone with it
    have hmine : ∀ u y p, l u = some y → y.unpublished = some p →
        (LockFreeQueue.step .exact r b s x).2.unpublished = some p → u = t := by
      intro u y p hu hy hp
      rcases hnew p hp with hold | ⟨hp, _⟩
      · exact h.once u t y x p hu hx hy hold
      · exact absurd hp (h.below u y p hu hy).ne
    intro u v y z p hu hv hy hz
    rcases update_eq_some hu with ⟨hut, hu'⟩ | ⟨_, hu'⟩ <;>
      rcases update_eq_some hv with ⟨hvt, hv'⟩ | ⟨_, hv'⟩
    · exact hut.trans hvt.symm
    · obtain rfl := Option.some.inj hu'
      exact hut.trans (hmine v z p hv' hz hy).symm
    · obtain rfl := Option.some.inj hv'
      exact (hmine u y p hu' hy hz).trans hvt.symm
    · exact h.once u v y z p hu' hv' hy hz
  · intro u y p hu hy
    rcases update_eq_some hu with ⟨_, ho⟩ | ⟨_, hu⟩
    · obtain rfl := Option.some.inj ho
      exact (h.shown p (step_going hy)).step hx b
    · exact (h.seen u y p hu hy).step hx b
  · intro p hp
    rcases step_head (r := r) (s := s) (x := x) b with he | ⟨hgo, he⟩
    · exact (h.taken p (he ▸ hp)).step hx b
    · by_cases hlt : p < s.head
      · exact (h.taken p hlt).step hx b
      · obtain rfl : p = s.head := by omega
        exact (h.seen t x s.head hx hgo).step hx b
  · intro u y p hu hy
    rcases update_eq_some hu with ⟨_, ho⟩ | ⟨_, hu⟩
    · obtain rfl := Option.some.inj ho
      rcases step_taking hy with hold | hlt
      · exact (h.taking t x p hx hold).trans_le hhead
      · exact hlt
    · exact (h.taking u y p hu hy).trans_le hhead

theorem marked_inductive (r : Ring) (may : Tid → Op α → Bool) :
    (object (α := α) .exact r).Inductive may (fun _ _ => True) (Marked r) where
  call {s l t op} h _ _ := by
    refine h.setLocal fun y hy => ?_
    obtain rfl := Option.some.inj hy
    cases op <;> exact ⟨rfl, rfl, rfl⟩
  step b h hx _ _ := h.step hx b
  ret h _ _ := h.setLocal fun y hy => by cases hy

omit [Inhabited α] [DecidableEq Tid] in
/-- Below `tail_` there is one position for each pop that has claimed and each push that has not
published. -/
theorem Marked.head_add_hands_le [Fintype Tid] (h : Marked r s l) :
    s.head + hands Local.publishing l ≤ s.tail := by
  have hhead : s.head ≤ s.tail := by
    by_contra hlt
    exact absurd (h.taken s.tail (not_le.mp hlt)).1 (lt_irrefl _)
  -- each push that has not published has a position of its own from `head_` on
  let pushes := Finset.univ.filter fun t => ((l t).bind Local.unpublished).isSome
  have hcount : hands Local.publishing l = pushes.card := by
    unfold hands
    rw [Finset.card_filter]
    refine Finset.sum_congr rfl fun t _ => ?_
    cases hl : l t with
    | none => rfl
    | some x => rfl
  have hpos : ∀ t ∈ pushes, ∃ x p, l t = some x ∧ x.unpublished = some p := by
    intro t ht
    obtain ⟨p, hp⟩ := Option.isSome_iff_exists.mp (Finset.mem_filter.mp ht).2
    obtain ⟨x, hx, hp⟩ := Option.bind_eq_some_iff.mp hp
    exact ⟨x, p, hx, hp⟩
  have hcard : pushes.card ≤ (Finset.Ico s.head s.tail).card := by
    refine Finset.card_le_card_of_injOn
      (fun t => ((l t).bind Local.unpublished).getD 0) (fun t ht => ?_) fun t ht u hu he => ?_
    · obtain ⟨x, p, hx, hp⟩ := hpos t ht
      simp only [hx, Option.bind_some, hp, Option.getD_some, Finset.coe_Ico, Set.mem_Ico]
      refine ⟨?_, h.below t x p hx hp⟩
      by_contra hlt
      exact (h.taken p (not_le.mp hlt)).2 t x hx hp
    · obtain ⟨x, p, hx, hp⟩ := hpos t ht
      obtain ⟨y, q, hy, hq⟩ := hpos u hu
      simp only [hx, hy, Option.bind_some, hp, hq, Option.getD_some] at he
      exact h.once t u x y p hx hy hp (he ▸ hq)
  rw [Nat.card_Ico] at hcard
  omega

end LowLatency.LockFreeQueue
