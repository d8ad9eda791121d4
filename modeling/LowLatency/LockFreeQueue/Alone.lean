import LowLatency.Concurrency.Potential
import LowLatency.LockFreeQueue.Invariant
import LowLatency.LockFreeQueue.Sequential

/-!
# Operations that run alone

A retry loop ends because a sequence number is never ahead of a freshly loaded counter (`Level`): the
operation then claims the position or gives up. What stands in the way of a push or a pop is an
operation that has claimed a position and not yet published it (`Accounted`); without any, a push is
refused by a full ring only and a pop finds nothing in an empty one only.

This is so while the positions and the sequence numbers fit the signed comparison (`Signed`). Beyond, the
words wrap: a push that has slept for `2 ^ 64` positions between its load of the sequence number and its
claim succeeds on a full ring, and the pops after it retry for ever.
-/

namespace LowLatency.LockFreeQueue

open Concurrency

variable {α : Type*} {Tid : Type*} {r : Ring} {s : Shared α} {l : Tid → Option (Local α)}

/-! ## Signed comparisons -/

/-- On the words that satisfy `Fits`, comparisons are those of natural numbers. -/
structure Word.Compares (w : Word) (Fits : ℕ → Prop) : Prop extends w.Sound Fits where
  dif_eq : ∀ {a b}, Fits a → Fits b → w.dif a b = (a : ℤ) - b

theorem Word.u64_compares : Word.u64.Compares (· < 2 ^ 63) where
  wrap_eq {n} h := Word.u64_sound.wrap_eq (show n < 2 ^ 64 by omega)
  eq_of_dif {a b} ha hb h :=
    Word.u64_sound.eq_of_dif (show a < 2 ^ 64 by omega) (show b < 2 ^ 64 by omega) h
  dif_eq {a b} ha hb := by
    have hexact := u64_dif a b (by omega) (by omega)
    rwa [Word.u64_sound.wrap_eq (by omega), Word.u64_sound.wrap_eq (by omega)] at hexact

/-! ## Claims account for the sequence numbers -/

/-- An operation has claimed the position and not yet published it. -/
def Claimed (l : Tid → Option (Local α)) (p : ℕ) : Prop :=
  ∃ t x, l t = some x ∧ x.claimed = some p

/-- A sequence number that lags is that of a claimed position. -/
structure Accounted (r : Ring) (s : Shared α) (l : Tid → Option (Local α)) : Prop where
  filled : ∀ p, s.head ≤ p → p < s.tail → s.sequence (r.slot p) = p + 1 ∨ Claimed l p
  freed : ∀ p, s.tail ≤ p → p < s.head + r.size → s.sequence (r.slot p) = p ∨
    ∃ q, Claimed l q ∧ q + r.size = p

theorem accounted_init [Inhabited α] (r : Ring) :
    Accounted r (init (α := α)) (fun _ : Tid => none) where
  filled p _ hp := absurd hp (Nat.not_lt_zero p)
  freed p _ hp := by
    left
    have hp : p < r.size := by simpa [init] using hp
    show r.slot p = p
    rw [r.slot_eq_mod, Nat.mod_eq_of_lt hp]

section Frame

variable [DecidableEq Tid] {t : Tid} {x : Local α} {o : Option (Local α)} {p : ℕ}

/-- Claims survive a change of one operation that keeps its own. -/
theorem Claimed.update (h : Claimed l p)
    (ho : ∀ x, l t = some x → x.claimed = some p → ∃ y, o = some y ∧ y.claimed = some p) :
    Claimed (Function.update l t o) p := by
  obtain ⟨u, x, hu, hx⟩ := h
  by_cases hut : u = t
  · subst hut
    obtain ⟨y, rfl, hy⟩ := ho x hu hx
    exact ⟨u, y, Function.update_self .., hy⟩
  · exact ⟨u, x, (Function.update_of_ne hut ..).trans hu, hx⟩

theorem Claimed.of_update {y : Local α} (hy : y.claimed = some p) :
    Claimed (Function.update l t (some y)) p :=
  ⟨t, y, Function.update_self .., hy⟩

/-- A change that moves neither a counter nor a sequence number. -/
theorem Accounted.update {s' : Shared α} (h : Accounted r s l) (htail : s'.tail = s.tail)
    (hhead : s'.head = s.head) (hseq : ∀ j, s'.sequence j = s.sequence j)
    (ho : ∀ p x, l t = some x → x.claimed = some p → ∃ y, o = some y ∧ y.claimed = some p) :
    Accounted r s' (Function.update l t o) where
  filled p hp hlt := by
    rw [hhead] at hp
    rw [htail] at hlt
    rw [hseq]
    exact (h.filled p hp hlt).imp_right fun hc => hc.update (ho p)
  freed p hp hlt := by
    rw [htail] at hp
    rw [hhead] at hlt
    rw [hseq]
    exact (h.freed p hp hlt).imp_right fun ⟨q, hc, hq⟩ => ⟨q, hc.update (ho q), hq⟩

/-- An operation without a claim does something that moves nothing. -/
theorem Accounted.setLocal (h : Accounted r s l) (hold : ∀ x, l t = some x → x.claimed = none) :
    Accounted r s (Function.update l t o) := by
  refine h.update rfl rfl (fun _ => rfl) ?_
  intro p x hx hc
  rw [hold x hx] at hc
  cases hc

theorem Accounted.claimTail (h : Accounted r s l) {item : α} (c : List (ℕ × α))
    (hl : l t = some (.pushClaim item s.tail)) :
    Accounted r { s with tail := s.tail + 1, pushClaims := c }
      (Function.update l t (some (.pushWrite item s.tail))) := by
  have hkeep : ∀ q x, l t = some x → x.claimed = some q →
      ∃ y, some (Local.pushWrite item s.tail) = some y ∧ y.claimed = some q := by
    intro q x hx hc
    obtain rfl := Option.some.inj (hl.symm.trans hx)
    cases hc
  constructor
  · intro p hp hlt
    by_cases htail : p = s.tail
    · exact .inr (.of_update (congrArg some htail.symm))
    · have hlt : p < s.tail + 1 := hlt
      exact (h.filled p hp (by omega)).imp_right fun hc => hc.update (hkeep p)
  · intro p hp hlt
    have hp : s.tail + 1 ≤ p := hp
    exact (h.freed p (by omega) hlt).imp_right fun ⟨q, hc, hq⟩ => ⟨q, hc.update (hkeep q), hq⟩

theorem Accounted.claimHead (h : Accounted r s l) (c : List (ℕ × α))
    (hl : l t = some (.popClaim s.head)) :
    Accounted r { s with head := s.head + 1, popClaims := c }
      (Function.update l t (some (.popRead s.head))) := by
  have hkeep : ∀ q x, l t = some x → x.claimed = some q →
      ∃ y, some (Local.popRead (α := α) s.head) = some y ∧ y.claimed = some q := by
    intro q x hx hc
    obtain rfl := Option.some.inj (hl.symm.trans hx)
    cases hc
  constructor
  · intro p hp hlt
    have hp : s.head + 1 ≤ p := hp
    exact (h.filled p (by omega) hlt).imp_right fun hc => hc.update (hkeep p)
  · intro p hp hlt
    have hlt : p < s.head + 1 + r.size := hlt
    by_cases hlast : p = s.head + r.size
    · exact .inr ⟨s.head, .of_update rfl, hlast.symm⟩
    · exact (h.freed p hp (by omega)).imp_right fun ⟨q, hc, hq⟩ => ⟨q, hc.update (hkeep q), hq⟩

/-- The claims of the others survive that an operation finishes. -/
theorem Claimed.finish {q pos : ℕ} (h : Claimed l q) (hl : l t = some x)
    (hx : x.claimed = some pos) (hne : q ≠ pos) : Claimed (Function.update l t o) q := by
  refine h.update fun y hy hc => ?_
  obtain rfl := Option.some.inj (hl.symm.trans hy)
  exact absurd (Option.some.inj (hc.symm.trans hx)) hne

variable [Inhabited α]

theorem Accounted.publishPush (h : Accounted r s l) (hinv : Inv r s l) {pos : ℕ} {res : Outcome α}
    (hl : l t = some (.pushPublish pos)) :
    Accounted r (s.setSequence (r.slot pos) (pos + 1)) (Function.update l t (some (.done res))) := by
  obtain ⟨h1, h2, -⟩ : s.head ≤ pos ∧ pos < s.tail ∧ _ := hinv.good t _ hl
  have htail := hinv.ordered.tail_le
  constructor
  · intro p hp hlt
    have hp : s.head ≤ p := hp
    have hlt : p < s.tail := hlt
    rw [Shared.setSequence_sequence]
    by_cases hpos : p = pos
    · rw [hpos, if_pos rfl]
      exact .inl rfl
    · rw [if_neg fun he => hpos (r.slot_inj he (by omega) (by omega))]
      exact (h.filled p hp hlt).imp_right fun hc => hc.finish hl rfl hpos
  · intro p hp hlt
    have hp : s.tail ≤ p := hp
    have hlt : p < s.head + r.size := hlt
    have hpos : p ≠ pos := by omega
    rw [Shared.setSequence_sequence, if_neg fun he => hpos (r.slot_inj he (by omega) (by omega))]
    exact (h.freed p hp hlt).imp_right fun ⟨q, hc, hq⟩ => ⟨q, hc.finish hl rfl (by omega), hq⟩

theorem Accounted.publishPop (h : Accounted r s l) (hinv : Inv r s l) {pos : ℕ} {item : α}
    {res : Outcome α} (c : List (ℕ × α)) (hl : l t = some (.popPublish pos item)) :
    Accounted r { s.setSequence (r.slot pos) (pos + r.size) with popReturns := c }
      (Function.update l t (some (.done res))) := by
  obtain ⟨h1, h2, -⟩ : pos < s.head ∧ s.tail ≤ pos + r.size ∧ _ := hinv.good t _ hl
  have hle := hinv.ordered.head_le
  have htail := hinv.ordered.tail_le
  constructor
  · intro p hp hlt
    have hp : s.head ≤ p := hp
    have hlt : p < s.tail := hlt
    have hpos : p ≠ pos := by omega
    show (s.setSequence (r.slot pos) (pos + r.size)).sequence (r.slot p) = p + 1 ∨ _
    rw [Shared.setSequence_sequence, if_neg fun he => hpos (r.slot_inj he (by omega) (by omega))]
    exact (h.filled p hp hlt).imp_right fun hc => hc.finish hl rfl hpos
  · intro p hp hlt
    have hp : s.tail ≤ p := hp
    have hlt : p < s.head + r.size := hlt
    show (s.setSequence (r.slot pos) (pos + r.size)).sequence (r.slot p) = p ∨ _
    rw [Shared.setSequence_sequence]
    by_cases hpos : p = pos + r.size
    · rw [hpos, r.slot_add_size, if_pos rfl]
      exact .inl rfl
    · have hslot : r.slot p ≠ r.slot pos := by
        intro he
        rw [← r.slot_add_size pos] at he
        exact hpos (r.slot_inj he (by omega) (by omega))
      rw [if_neg hslot]
      exact (h.freed p hp hlt).imp_right fun ⟨q, hc, hq⟩ => ⟨q, hc.finish hl rfl (by omega), hq⟩

end Frame

section Step

variable [DecidableEq Tid] [Inhabited α] {t : Tid} {x : Local α} {w : Word} {Fits : ℕ → Prop}

theorem accounted_step (hw : w.Sound Fits) (b : Bool) (h : Accounted r s l) (hinv : Inv r s l)
    (hl : l t = some x) (hr : result x = none) (hfit : Fitting r Fits s x) :
    Accounted r (step w r b s x).1 (Function.update l t (some (step w r b s x).2)) := by
  have hpos := r.size_pos
  have hle := hinv.ordered.head_le
  have hquiet : ∀ {y : Local α}, x.claimed = none → Accounted r s (Function.update l t (some y)) := by
    intro y hx
    refine h.setLocal fun z hz => ?_
    rw [← Option.some.inj (hl.symm.trans hz)]
    exact hx
  cases x with
  | pushLoadTail | popLoadHead => exact hquiet rfl
  | pushLoadSequence | popLoadSequence =>
    simp only [step]
    split_ifs <;> exact hquiet rfl
  | pushClaim item pos =>
    simp only [step]
    split_ifs with hc
    · obtain ⟨rfl, rfl⟩ := hc
      rw [hw.wrap_eq (hfit _ (by omega))]
      exact h.claimTail _ hl
    · exact hquiet rfl
  | popClaim pos =>
    simp only [step]
    split_ifs with hc
    · obtain ⟨rfl, rfl⟩ := hc
      rw [hw.wrap_eq (hfit _ (by omega))]
      exact h.claimHead _ hl
    · exact hquiet rfl
  | pushWrite item pos =>
    refine h.update rfl rfl (Shared.setData_sequence s _ _) fun q y hy hc => ?_
    obtain rfl := Option.some.inj (hl.symm.trans hy)
    exact ⟨_, rfl, hc⟩
  | popRead pos =>
    refine h.update rfl rfl (Shared.setData_sequence s _ _) fun q y hy hc => ?_
    obtain rfl := Option.some.inj (hl.symm.trans hy)
    exact ⟨_, rfl, hc⟩
  | pushPublish pos =>
    obtain ⟨-, hlt, -⟩ : _ ∧ pos < s.tail ∧ _ := hinv.good t _ hl
    simp only [step]
    rw [hw.wrap_eq (hfit _ (by omega))]
    exact h.publishPush hinv hl
  | popPublish pos item =>
    obtain ⟨hlt, -⟩ : pos < s.head ∧ _ := hinv.good t _ hl
    simp only [step]
    rw [hw.wrap_eq (hfit _ (by omega))]
    exact h.publishPop hinv _ hl
  | done => cases hr

theorem accounted_inductive (hw : w.Sound Fits) (h2 : 2 ≤ r.size) :
    (object (α := α) w r).Inductive (fun (_ : Tid) _ => true) (Fitting r Fits)
      fun s l => Inv r s l ∧ Accounted r s l where
  call h hl hmay := by
    refine ⟨(inv_inductive hw h2).call h.1 hl hmay, h.2.setLocal fun x hx => ?_⟩
    rw [hl] at hx
    cases hx
  step b h hl hr hfit :=
    ⟨(inv_inductive hw h2).step b h.1 hl hr hfit, accounted_step hw b h.2 h.1 hl hr hfit⟩
  ret {s l t x o} h hl hr := by
    refine ⟨(inv_inductive hw h2).ret h.1 hl hr, h.2.setLocal fun y hy => ?_⟩
    obtain rfl := Option.some.inj (hl.symm.trans hy)
    cases x <;> first | rfl | cases hr

end Step

/-! ## Retry loops end -/

/-- What a push computes from the sequence number at the tail. -/
def pushDif (r : Ring) (s : Shared α) : ℤ := Word.u64.dif (s.sequence (r.slot s.tail)) s.tail

/-- What a pop computes from the sequence number at the head. -/
def popDif (r : Ring) (s : Shared α) : ℤ :=
  Word.u64.dif (s.sequence (r.slot s.head)) (Word.u64.wrap (s.head + 1))

/-- The sequence numbers at the counters are not ahead. -/
structure Level (r : Ring) (s : Shared α) : Prop where
  push : pushDif r s ≤ 0
  pop : popDif r s ≤ 0

section Level

theorem Shared.Ordered.sequence_tail (h : s.Ordered r) (h2 : 2 ≤ r.size) :
    s.sequence (r.slot s.tail) = s.tail ∨ s.sequence (r.slot s.tail) < s.tail ∧
      s.tail ≤ s.sequence (r.slot s.tail) + r.size := by
  by_cases hroom : s.tail < s.head + r.size
  · have hfree := h.free s.tail le_rfl hroom
    omega
  · have htail : s.tail = s.head + r.size := h.tail_le.antisymm (Nat.not_lt.mp hroom)
    have hslot : r.slot s.tail = r.slot s.head := by rw [htail, r.slot_add_size]
    have hfull := h.full s.head le_rfl (by omega)
    rw [hslot]
    omega

theorem Shared.Ordered.sequence_head (h : s.Ordered r) (h2 : 2 ≤ r.size) :
    s.sequence (r.slot s.head) = s.head + 1 ∨ s.sequence (r.slot s.head) ≤ s.head ∧
      s.head + 1 ≤ s.sequence (r.slot s.head) + r.size := by
  by_cases hstock : s.head < s.tail
  · have hfull := h.full s.head le_rfl hstock
    omega
  · have hpos := r.size_pos
    have hfree := h.free s.head (Nat.not_lt.mp hstock) (by omega)
    omega

variable (h : s.Ordered r) (h2 : 2 ≤ r.size) (hfit : s.tail + r.size < 2 ^ 64)

include h h2 hfit in
theorem pushDif_eq : pushDif r s = (s.sequence (r.slot s.tail) : ℤ) - s.tail := by
  have hseq := h.sequence_tail h2
  have hsize := r.size_le
  have hexact := u64_dif (s.sequence (r.slot s.tail)) s.tail (by omega) (by omega)
  have hle := h.sequence_le s.tail
  rwa [Word.u64_sound.wrap_eq (by omega), Word.u64_sound.wrap_eq (by omega)] at hexact

include h h2 hfit in
theorem popDif_eq : popDif r s = (s.sequence (r.slot s.head) : ℤ) - (s.head + 1 : ℕ) := by
  have hseq := h.sequence_head h2
  have hsize := r.size_le
  have hexact := u64_dif (s.sequence (r.slot s.head)) (s.head + 1) (by omega) (by omega)
  have hle := h.sequence_le s.head
  rwa [Word.u64_sound.wrap_eq (n := s.sequence _) (by omega)] at hexact

include h h2 hfit in
theorem level : Level r s where
  push := by
    rw [pushDif_eq h h2 hfit]
    have hseq := h.sequence_tail h2
    omega
  pop := by
    rw [popDif_eq h h2 hfit]
    have hseq := h.sequence_head h2
    omega

end Level

section Potential

variable [Inhabited α]

/-- The instructions left to an operation that runs alone; the loads of a stale position cost one retry. -/
def potential (s : Shared α) : Local α → ℕ
  | .pushLoadTail _ | .popLoadHead => 5
  | .pushLoadSequence _ pos => if pos = s.tail then 4 else 6
  | .pushClaim _ pos => if pos = s.tail then 3 else 5
  | .popLoadSequence pos => if pos = s.head then 4 else 6
  | .popClaim pos => if pos = s.head then 3 else 5
  | .pushWrite _ _ | .popRead _ => 2
  | .pushPublish _ | .popPublish _ _ => 1
  | .done _ => 0

/-- The operation has claimed its position, or is finished, or finds the counters level. -/
def Going (r : Ring) (s : Shared α) (x : Local α) : Prop :=
  x.claimed = none → result x = none → Level r s

theorem going_step (b : Bool) {x : Local α} (h : Going r s x) (hr : result x = none) :
    Going r (step .u64 r b s x).1 (step .u64 r b s x).2 := by
  cases x with
  | pushLoadTail | popLoadHead => exact fun _ _ => h rfl rfl
  | pushLoadSequence | popLoadSequence =>
    simp only [step]
    split_ifs <;> exact fun _ _ => h rfl rfl
  | pushClaim | popClaim =>
    simp only [step]
    split_ifs
    · intro hclaimed
      cases hclaimed
    · exact fun _ _ => h rfl rfl
  | pushWrite | popRead =>
    intro hclaimed
    cases hclaimed
  | pushPublish | popPublish =>
    intro _ hresult
    cases hresult
  | done => cases hr

/-- An instruction brings an operation closer to its end, and a spurious failure puts it back by one. -/
theorem potential_step (b : Bool) {x : Local α} (h : Going r s x) (hr : result x = none) :
    potential (step .u64 r b s x).1 (step .u64 r b s x).2 + 1 ≤
      potential s x + if b then 2 else 0 := by
  cases x with
  | pushLoadTail => simp [step, potential]
  | popLoadHead => simp [step, potential]
  | pushLoadSequence item pos =>
    have hlevel : pushDif r s ≤ 0 := (h rfl rfl).push
    refine le_trans ?_ (Nat.le_add_right _ _)
    by_cases hpos : pos = s.tail
    · subst hpos
      simp only [step]
      split_ifs with h0 hneg
      · simp [potential]
      · simp [potential]
      · exact absurd hlevel (by unfold pushDif; omega)
    · simp only [step]
      split_ifs <;> simp [potential, hpos]
  | popLoadSequence pos =>
    have hlevel : popDif r s ≤ 0 := (h rfl rfl).pop
    refine le_trans ?_ (Nat.le_add_right _ _)
    by_cases hpos : pos = s.head
    · subst hpos
      simp only [step]
      split_ifs with h0 hneg
      · simp [potential]
      · simp [potential]
      · exact absurd hlevel (by unfold popDif; omega)
    · simp only [step]
      split_ifs <;> simp [potential, hpos]
  | pushClaim item pos =>
    by_cases hpos : s.tail = pos
    · cases b <;> simp [step, potential, hpos]
    · simp [step, potential, hpos, Ne.symm hpos]
  | popClaim pos =>
    by_cases hpos : s.head = pos
    · cases b <;> simp [step, potential, hpos]
    · simp [step, potential, hpos, Ne.symm hpos]
  | pushWrite | popRead | pushPublish | popPublish => simp [step, potential]
  | done => cases hr

theorem going_potential (r : Ring) :
    (object (α := α) .u64 r).Potential (Going r) potential 2 where
  keeps b _ _ h hr := going_step b h hr
  lowers b _ _ h hr := potential_step b h hr

omit [Inhabited α] in
theorem potential_le (s : Shared α) (x : Local α) : potential s x ≤ 6 := by
  cases x <;> simp only [potential] <;> first | omega | (split <;> omega)

end Potential

/-! ## What an operation answers that begins when no other is in flight -/

section Answers

variable [Inhabited α]

/-- A push of `item` alone on `s₀`. -/
def Offering (r : Ring) (s₀ : Shared α) (item : α) (s : Shared α) : Local α → Prop
  | .pushLoadTail i => i = item ∧ s = s₀
  | .pushLoadSequence i pos => i = item ∧ s = s₀ ∧ pos = s₀.tail
  | .pushClaim i pos => i = item ∧ s = s₀ ∧ pos = s₀.tail ∧ pushDif r s₀ = 0
  | .pushWrite _ _ | .pushPublish _ => pushDif r s₀ = 0
  | .done o => o = if pushDif r s₀ = 0 then .put else .refused item
  | _ => False

/-- A pop alone on `s₀`. -/
def Asking (r : Ring) (s₀ : Shared α) (s : Shared α) : Local α → Prop
  | .popLoadHead => s = s₀
  | .popLoadSequence pos => s = s₀ ∧ pos = s₀.head
  | .popClaim pos => s = s₀ ∧ pos = s₀.head ∧ popDif r s₀ = 0
  | .popRead _ | .popPublish _ _ => popDif r s₀ = 0
  | .done o => if popDif r s₀ = 0 then ∃ item, o = .got item else o = .nothing
  | _ => False

variable {s₀ : Shared α} {x : Local α}

theorem offering_step (b : Bool) {item : α} (hlevel : Level r s₀) (h : Offering r s₀ item s x)
    (hr : result x = none) :
    Offering r s₀ item (step .u64 r b s x).1 (step .u64 r b s x).2 := by
  cases x with
  | pushLoadTail i =>
    obtain ⟨rfl, rfl⟩ := h
    exact ⟨rfl, rfl, rfl⟩
  | pushLoadSequence i pos =>
    obtain ⟨rfl, rfl, rfl⟩ := h
    have hle : pushDif r s ≤ 0 := hlevel.push
    simp only [step]
    split_ifs with h0 hneg
    · exact ⟨rfl, rfl, rfl, h0⟩
    · exact (if_neg h0).symm
    · exact absurd hle (by unfold pushDif; omega)
  | pushClaim i pos =>
    obtain ⟨rfl, rfl, rfl, hfree⟩ := h
    simp only [step]
    split_ifs
    · exact hfree
    · exact ⟨rfl, rfl, rfl⟩
  | pushWrite => exact h
  | pushPublish => exact (if_pos h).symm
  | done => cases hr
  | _ => exact h.elim

theorem asking_step (b : Bool) (hlevel : Level r s₀) (h : Asking r s₀ s x)
    (hr : result x = none) : Asking r s₀ (step .u64 r b s x).1 (step .u64 r b s x).2 := by
  cases x with
  | popLoadHead => exact ⟨h, congrArg Shared.head h⟩
  | popLoadSequence pos =>
    obtain ⟨rfl, rfl⟩ := h
    have hle : popDif r s ≤ 0 := hlevel.pop
    simp only [step]
    split_ifs with h0 hneg
    · exact ⟨rfl, rfl, h0⟩
    · have hbusy : popDif r s ≠ 0 := h0
      show if popDif r s = 0 then _ else _
      rw [if_neg hbusy]
    · exact absurd hle (by unfold popDif; omega)
  | popClaim pos =>
    obtain ⟨rfl, rfl, hready⟩ := h
    simp only [step]
    split_ifs
    · exact hready
    · exact ⟨rfl, rfl⟩
  | popRead => exact h
  | popPublish pos item =>
    have hready : popDif r s₀ = 0 := h
    show if popDif r s₀ = 0 then _ else _
    rw [if_pos hready]
    exact ⟨item, rfl⟩
  | done => cases hr
  | _ => exact h.elim

/-- The operation `op` alone on `s₀`. -/
def Begun (r : Ring) (s₀ : Shared α) : Op α → Shared α → Local α → Prop
  | .push item => Offering r s₀ item
  | .pop => Asking r s₀

omit [Inhabited α] in
theorem begun_start (op : Op α) : Begun r s₀ op s₀ (start op) := by
  cases op with
  | push item => exact ⟨rfl, rfl⟩
  | pop => rfl

theorem begun_step (b : Bool) {op : Op α} (hlevel : Level r s₀) (h : Begun r s₀ op s x)
    (hr : result x = none) : Begun r s₀ op (step .u64 r b s x).1 (step .u64 r b s x).2 := by
  cases op with
  | push item => exact offering_step b hlevel h hr
  | pop => exact asking_step b hlevel h hr

/-- What an operation answers that runs alone on a queue without claims. -/
def Expected (r : Ring) (s : Shared α) : Op α → Outcome α → Prop
  | .push item, o => o = if s.tail - s.head = r.size then .refused item else .put
  | .pop, o => if s.head = s.tail then o = .nothing else ∃ item, o = .got item

variable (h : s.Ordered r) (h2 : 2 ≤ r.size) (hfit : s.tail + r.size < 2 ^ 64)
  (hacc : Accounted r s l) (hnone : ∀ p, ¬ Claimed l p)

omit [Inhabited α] in
include h h2 hfit hacc hnone in
theorem pushDif_eq_zero_iff : pushDif r s = 0 ↔ s.tail - s.head ≠ r.size := by
  have htail := h.tail_le
  have hle := h.head_le
  rw [pushDif_eq h h2 hfit]
  by_cases hroom : s.tail < s.head + r.size
  · have hseq : s.sequence (r.slot s.tail) = s.tail :=
      (hacc.freed s.tail le_rfl hroom).resolve_right fun ⟨q, hc, _⟩ => hnone q hc
    rw [hseq]
    omega
  · have hslot : r.slot s.tail = r.slot s.head := by
      rw [htail.antisymm (Nat.not_lt.mp hroom), r.slot_add_size]
    have hseq : s.sequence (r.slot s.head) = s.head + 1 :=
      (hacc.filled s.head le_rfl (by omega)).resolve_right fun hc => hnone _ hc
    rw [hslot, hseq]
    omega

omit [Inhabited α] in
include h h2 hfit hacc hnone in
theorem popDif_eq_zero_iff : popDif r s = 0 ↔ s.head ≠ s.tail := by
  have hle := h.head_le
  have hpos := r.size_pos
  rw [popDif_eq h h2 hfit]
  by_cases hstock : s.head < s.tail
  · have hseq : s.sequence (r.slot s.head) = s.head + 1 :=
      (hacc.filled s.head le_rfl hstock).resolve_right fun hc => hnone _ hc
    rw [hseq]
    omega
  · have hseq : s.sequence (r.slot s.head) = s.head :=
      (hacc.freed s.head (Nat.not_lt.mp hstock) (by omega)).resolve_right
        fun ⟨q, hc, _⟩ => hnone q hc
    rw [hseq]
    omega

omit [Inhabited α] in
include h h2 hfit hacc hnone in
theorem expected_of_begun {op : Op α} {s' : Shared α} {o : Outcome α}
    (hbegun : Begun r s op s' (.done o)) : Expected r s op o := by
  have hpush := pushDif_eq_zero_iff h h2 hfit hacc hnone
  have hpop := popDif_eq_zero_iff h h2 hfit hacc hnone
  cases op with
  | push item =>
    have ho : o = if pushDif r s = 0 then .put else .refused item := hbegun
    show o = if s.tail - s.head = r.size then .refused item else .put
    rw [ho]
    by_cases hfull : s.tail - s.head = r.size
    · rw [if_pos hfull, if_neg fun hz => hpush.mp hz hfull]
    · rw [if_neg hfull, if_pos (hpush.mpr hfull)]
  | pop =>
    have ho : if popDif r s = 0 then ∃ item, o = .got item else o = .nothing := hbegun
    show if s.head = s.tail then o = .nothing else ∃ item, o = .got item
    by_cases hempty : s.head = s.tail
    · rw [if_pos hempty]
      rwa [if_neg fun hz => hpop.mp hz hempty] at ho
    · rw [if_neg hempty]
      rwa [if_pos (hpop.mpr hempty)] at ho

end Answers

/-! ## Runs -/

section Runs

variable [DecidableEq Tid] [Inhabited α]

/-- The steps taken while the positions and the sequence numbers fit the signed comparison. -/
def Signed (r : Ring) (c : Config Tid (Shared α) (Local α)) (_ : Action Tid (Op α)) : Prop :=
  c.shared.tail + r.size < 2 ^ 63

instance (c : Config Tid (Shared α) (Local α)) (a : Action Tid (Op α)) :
    Decidable (Signed r c a) := by
  unfold Signed
  infer_instance

omit [Inhabited α] [DecidableEq Tid] in
theorem fitting_of_signed {c : Config Tid (Shared α) (Local α)} {a : Action Tid (Op α)}
    (h : Signed r c a) : Object.Guard (Fitting r (· < 2 ^ 63)) c a := by
  cases a with
  | step t b =>
    intro y _ n hn
    have hfit : c.shared.tail + r.size < 2 ^ 63 := h
    show n < 2 ^ 63
    omega
  | call | ret => trivial

/-- The other threads have no operation in flight. -/
def Quiet (t : Tid) (l : Tid → Option (Local α)) : Prop :=
  ∀ u x, u ≠ t → l u = some x → result x ≠ none

/-- What becomes of an operation of thread `t` that runs alone with the choices `bs`. -/
def Finishes (r : Ring) (c : Config Tid (Shared α) (Local α)) (t : Tid) (bs : List Bool)
    (o : Outcome α) : Prop :=
  ∃ m ≤ bs.length, ∃ c', (system Tid .u64 r).run c (Action.choices t (bs.take m)) = some c' ∧
    c'.locals t = some (.done o)

omit [DecidableEq Tid] [Inhabited α] in
theorem eq_done {x : Local α} {o : Outcome α} (h : result x = some o) : x = .done o := by
  cases x with
  | done => exact congrArg Local.done (Option.some.inj h)
  | _ => cases h

omit [DecidableEq Tid] [Inhabited α] in
/-- A thread that begins an operation beside quiet ones: nothing is claimed. -/
theorem not_claimed_of_quiet {t : Tid} {op : Op α} (hquiet : Quiet t l)
    (hl : l t = some (start op)) (p : ℕ) : ¬ Claimed l p := by
  rintro ⟨u, x, hu, hx⟩
  by_cases hut : u = t
  · subst hut
    obtain rfl := Option.some.inj (hl.symm.trans hu)
    cases op <;> cases hx
  · obtain ⟨o, ho⟩ := Option.ne_none_iff_exists'.mp (hquiet u x hut hu)
    rw [eq_done ho] at hx
    cases hx

/-- **Operations finish alone.** From any state reached while the positions fit the
signed comparison, a thread that runs alone
returns within six instructions, plus two for each compare-exchange that fails spuriously; and if no
other operation is in flight, a push fails on a full ring only and a pop on an empty one only. -/
theorem finishes_alone (r : Ring) (h2 : 2 ≤ r.size) (c : Config Tid (Shared α) (Local α))
    (h : (system Tid .u64 r).Reach (Signed r) (initial Tid) c)
    (hsigned : c.shared.tail + r.size < 2 ^ 63) (t : Tid) (x : Local α) (hx : c.locals t = some x)
    (bs : List Bool) (hlen : 6 + 2 * bs.count true ≤ bs.length) :
    ∃ o, Finishes r c t bs o ∧
      (Quiet t c.locals → ∀ op, x = start op → Expected r c.shared op o) := by
  have hfit : c.shared.tail + r.size < 2 ^ 64 := by omega
  obtain ⟨hinv, hacc⟩ := (accounted_inductive Word.u64_compares.toSound h2).reach
    ⟨inv_init r, accounted_init r⟩ (h.mono fun _ _ => fitting_of_signed)
  have hlevel := level hinv.ordered h2 hfit
  have hgoing : Going r c.shared x := fun _ _ => hlevel
  have hbound : potential c.shared x + 2 * bs.count true ≤ bs.length :=
    (Nat.add_le_add_right (potential_le _ _) _).trans hlen
  have hkeeps : ∀ b s y, (∀ op, x = start op → Begun r c.shared op s y) → result y = none →
      ∀ op, x = start op → Begun r c.shared op (step .u64 r b s y).1 (step .u64 r b s y).2 :=
    fun b s y hbegun hr op hop => begun_step b hlevel (hbegun op hop) hr
  have hstart : ∀ op, x = start op → Begun r c.shared op c.shared x := by
    rintro op rfl
    exact begun_start op
  obtain ⟨m, hm, c', y, o, hrun, hy, ho, -, hbegun⟩ :=
    ((going_potential r).and hkeeps).exists_run t bs hx ⟨hgoing, hstart⟩ hbound
  rw [eq_done ho] at hy hbegun
  refine ⟨o, ⟨m, hm, c', hrun, hy⟩, ?_⟩
  rintro hquiet op rfl
  exact expected_of_begun hinv.ordered h2 hfit hacc (not_claimed_of_quiet hquiet hx)
    (hbegun op rfl)

end Runs

/-! ## A push that oversleeps -/

section Overslept

variable [DecidableEq Tid] [Inhabited α] {t : Tid}

/-- The pop is in its retry loop, and its slot is ahead of the head. -/
def Retrying (r : Ring) (t : Tid) (c : Config Tid (Shared α) (Local α)) : Prop :=
  0 < popDif r c.shared ∧
    (c.locals t = some .popLoadHead ∨ c.locals t = some (.popLoadSequence c.shared.head))

theorem Retrying.run (bs : List Bool) : ∀ {c c' : Config Tid (Shared α) (Local α)},
    Retrying r t c → (system Tid .u64 r).run c (Action.choices t bs) = some c' →
      Retrying r t c' := by
  induction bs with
  | nil =>
    rintro c c' h hrun
    obtain rfl := Option.some.inj hrun
    exact h
  | cons b bs ih =>
    rintro c c' ⟨hahead, hl | hl⟩ hrun
    · rw [Object.run_choices_cons hl rfl] at hrun
      refine ih ⟨?_, .inr ?_⟩ hrun
      · exact hahead
      · exact Function.update_self ..
    · have hload : step .u64 r b c.shared (.popLoadSequence c.shared.head) =
          (c.shared, .popLoadHead) := by
        have hahead : 0 < Word.u64.dif (c.shared.sequence (r.slot c.shared.head))
          (Word.u64.wrap (c.shared.head + 1)) := hahead
        simp only [step]
        rw [if_neg (by omega), if_neg (by omega)]
      rw [Object.run_choices_cons hl rfl] at hrun
      refine ih ⟨?_, .inl ?_⟩ hrun
      · show 0 < popDif r (step .u64 r b c.shared (.popLoadSequence c.shared.head)).1
        rw [hload]
        exact hahead
      · show Function.update c.locals t
          (some (step .u64 r b c.shared (.popLoadSequence c.shared.head)).2) t = _
        rw [hload]
        exact Function.update_self ..

theorem Retrying.not_finishes {c : Config Tid (Shared α) (Local α)} (h : Retrying r t c)
    (bs : List Bool) (o : Outcome α) : ¬ Finishes r c t bs o := by
  rintro ⟨m, -, c', hrun, hdone⟩
  obtain ⟨-, hl | hl⟩ := h.run _ hrun
  · cases hdone.symm.trans hl
  · cases hdone.symm.trans hl

variable {H : ℕ} {items : List α}

omit [Inhabited α] in
/-- A push over the oldest item of a full ring leaves the head's slot ahead. -/
theorem popDif_pushed (h : Rep r s H items) (hfull : items.length = r.size)
    (hsize : r.size < 2 ^ 63) (x : α) : popDif r (pushed r s x) = r.size := by
  have hslot : r.slot s.head = r.slot s.tail := by
    rw [h.head, h.tail, slot_u64_wrap, slot_u64_wrap, hfull, r.slot_add_size]
  have hhead : (pushed r s x).head = s.head := rfl
  unfold popDif
  rw [hhead]
  unfold pushed
  rw [Shared.setSequence_sequence, if_pos hslot, h.tail, h.head, hfull, u64_wrap_add,
    u64_wrap_add, u64_dif _ _ (by omega) (by omega)]
  omega

/-- One thread pushes and pops `n` times while the others are frozen. -/
theorem exists_laps (n : ℕ) (hl : l t = none) (x : α) : ∀ {s : Shared α} {H : ℕ}, Rep r s H [] →
    ∃ s', (system Tid .u64 r).Reachable ⟨s, l⟩ ⟨s', l⟩ ∧ Rep r s' (H + n) [] := by
  induction n with
  | zero => exact fun h => ⟨_, System.Reach.refl, h⟩
  | succ n ih =>
    intro s H h
    obtain ⟨s₁, hpush, hrep₁⟩ := push_put h r.size_pos x
    obtain ⟨s₂, hpop, hrep₂⟩ := pop_got hrep₁
    obtain ⟨s', hreach, hrep⟩ := ih hrep₂
    refine ⟨s', ?_, (show H + 1 + n = H + (n + 1) by omega) ▸ hrep⟩
    have hreach₁ : (system Tid .u64 r).Reachable ⟨s, l⟩ ⟨s₁, l⟩ := 
      Object.Returns.reachable (.push x) hpush hl rfl
    have hreach₂ : (system Tid .u64 r).Reachable ⟨s₁, l⟩ ⟨s₂, l⟩ := 
      Object.Returns.reachable .pop hpop hl rfl
    exact (System.Reach.trans hreach₁ hreach₂).trans hreach

theorem exists_pushes (n : ℕ) (hl : l t = none) (x : α) : ∀ {s : Shared α} {items : List α},
    Rep r s H items → items.length + n ≤ r.size →
    ∃ s', (system Tid .u64 r).Reachable ⟨s, l⟩ ⟨s', l⟩ ∧
      Rep r s' H (items ++ List.replicate n x) := by
  induction n with
  | zero =>
    intro s items h _
    refine ⟨s, System.Reach.refl, ?_⟩
    rwa [List.replicate_zero, List.append_nil]
  | succ n ih =>
    intro s items h hroom
    obtain ⟨s₁, hpush, hrep₁⟩ := push_put h (by omega) x
    obtain ⟨s', hreach, hrep⟩ := ih hrep₁ (by
      rw [List.length_append, List.length_singleton]
      omega)
    have hreach₁ : (system Tid .u64 r).Reachable ⟨s, l⟩ ⟨s₁, l⟩ := 
      Object.Returns.reachable (.push x) hpush hl rfl
    refine ⟨s', System.Reach.trans hreach₁ hreach, ?_⟩
    rwa [List.append_assoc, List.singleton_append, ← List.replicate_succ] at hrep

end Overslept

/-- Thread `true` has found position 0 free and not yet claimed it. -/
def asleep : Bool → Option (Local ℕ) := Function.update (fun _ => none) true (some (.pushClaim 7 0))

/-- A push that was frozen before its claim of position 0 succeeds `2 ^ 64` positions later, on a full
ring; and then a pop that runs alone, no other operation in flight, never returns. -/
theorem overslept_push : ∃ c : Config Bool (Shared ℕ) (Local ℕ),
    (system Bool .u64 Ring.two).Reachable (initial Bool) c ∧
      c.locals false = some (start .pop) ∧ c.locals true = none ∧
      ∀ bs o, ¬ Finishes Ring.two c false bs o := by
  -- thread `true` stops right before its claim of position 0
  have hstart : (system Bool .u64 Ring.two).run (initial Bool)
      (.call true (.push 7) :: Action.steps true 2) = some ⟨init, asleep⟩ := by
    have hfree : Word.u64.dif ((init (α := ℕ)).sequence (Ring.two.slot 0)) 0 = 0 := by decide
    have htail : (init (α := ℕ)).tail = 0 := rfl
    simp [initial, asleep, Action.steps, Object.client, object, start, step, result, hfree, htail]
  -- thread `false` comes to the position `2 ^ 64`, on a full ring
  obtain ⟨s₁, hlaps, hrep₁⟩ :=
    exists_laps (r := Ring.two) (t := false) (l := asleep) (2 ^ 64 - 2) rfl 7 (rep_init _)
  obtain ⟨s₂, hfill, hrep₂⟩ :=
    exists_pushes (l := asleep) (t := false) 2 rfl 7 hrep₁ (by decide)
  have htail : s₂.tail = 0 := hrep₂.tail.trans (by decide)
  -- the push of thread `true` goes on
  obtain ⟨n, hn⟩ := claim_returns (r := Ring.two) (s := s₂) 7
  rw [htail] at hn
  obtain ⟨y, hy, hpush⟩ := Object.exists_reachable_of_alone (fun _ _ => true) asleep true n hn
  have hlocals : Function.update asleep true (some (.pushClaim 7 0)) = asleep := by
    unfold asleep
    rw [Function.update_idem]
  rw [hlocals] at hpush
  have hret : (system Bool .u64 Ring.two).next
      ⟨pushed Ring.two s₂ 7, Function.update asleep true (some y)⟩ (.ret true) =
        some ⟨pushed Ring.two s₂ 7, fun _ => none⟩ := by
    have hnone : Function.update asleep true none = fun _ => none := by
      unfold asleep
      rw [Function.update_idem]
      exact Function.update_eq_self ..
    simp only [Object.client, Function.update_self, hy, Function.update_idem, hnone]
  have hcall : (system Bool .u64 Ring.two).next ⟨pushed Ring.two s₂ 7, fun _ => none⟩
      (.call false .pop) = some ⟨pushed Ring.two s₂ 7,
        Function.update (fun _ => none) false (some .popLoadHead)⟩ := rfl
  have hahead := popDif_pushed hrep₂ rfl (by decide) 7
  refine ⟨⟨pushed Ring.two s₂ 7, Function.update (fun _ => none) false (some .popLoadHead)⟩,
    ?_, rfl, rfl, ?_⟩
  · exact ((((System.reachable_of_run hstart).trans hlaps).trans hfill).trans hpush).tail
      trivial hret |>.tail trivial hcall
  · refine Retrying.not_finishes ⟨?_, .inl rfl⟩
    show 0 < popDif Ring.two (pushed Ring.two s₂ 7)
    rw [hahead]
    decide

/-- Thread `false` fills the ring of two slots, and thread `true` begins a push. -/
def fillThenPush : List (Action Bool (Op ℕ)) :=
  List.flatten [[.call false (.push 7)], Action.steps false 5, [.ret false, .call false (.push 8)],
    Action.steps false 5, [.ret false, .call true (.push 9)]]

/-- The task of a push about to begin, once the other thread rests, and `tail_`. -/
def begun (c : Config Bool (Shared ℕ) (Local ℕ)) : Option (ℕ × ℕ) :=
  match c.locals true, c.locals false with
  | some (.pushLoadTail i), none => some (i, c.shared.tail)
  | _, _ => none

theorem begun_eq_some {c : Config Bool (Shared ℕ) (Local ℕ)} {i n : ℕ} (h : begun c = some (i, n)) :
    c.locals true = some (.pushLoadTail i) ∧ c.locals false = none ∧ c.shared.tail = n := by
  unfold begun at h
  split at h
  next j hpush hquiet =>
    obtain ⟨rfl, htail⟩ := Prod.mk.inj (Option.some.inj h)
    exact ⟨hpush, hquiet, htail⟩
  next => cases h

theorem finishes_alone_full : ∃ (c : Config Bool (Shared ℕ) (Local ℕ)) (o : Outcome ℕ),
    c.shared.tail = 2 ∧ Finishes Ring.two c true (List.replicate 6 false) o ∧
      Expected Ring.two c.shared (.push 9) o := by
  have hrun : (((system Bool .u64 Ring.two).runWhile (Signed Ring.two) (initial Bool)
      fillThenPush).map begun) = some (some (9, 2)) := by decide +kernel
  obtain ⟨c, hc, hbegun⟩ := Option.map_eq_some_iff.mp hrun
  obtain ⟨hpush, hquiet, htail⟩ := begun_eq_some hbegun
  have hfit : c.shared.tail + Ring.two.size < 2 ^ 63 := by
    rw [htail]
    decide
  obtain ⟨o, hfinishes, hexpected⟩ := finishes_alone Ring.two (by decide) c
    (System.reach_of_runWhile hc) hfit true _ hpush (List.replicate 6 false) (by decide)
  refine ⟨c, o, htail, hfinishes, hexpected ?_ _ rfl⟩
  intro u x hu hx
  cases u with
  | true => exact absurd rfl hu
  | false =>
    rw [hquiet] at hx
    cases hx

end LowLatency.LockFreeQueue
