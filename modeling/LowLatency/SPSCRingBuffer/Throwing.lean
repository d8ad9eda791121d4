import LowLatency.SPSCRingBuffer.Fifo

/-!
# Elements that throw

The copy and move constructions in `emplace` and the move assignment from `value()` may throw. The
exception leaves the operation where it is. `emplace` has then destroyed what was in its slot, and what
a failed move assignment leaves of the item stays in the slot (`failed`).

A push that throws stores no counter: the items of its batch stay behind `tail_`, where the next push
replaces them, so that the buffer is the one of `Basic` but for slots outside of the items (`Like`). A
`tryPop` that throws has reset no slot. A `tryPopBatch` has when it throws after its first item, and
`head_` still counts the slots it has reset.
-/

namespace LowLatency.SPSCRingBuffer

open Concurrency

variable {α : Type*}

/-- An operation in progress, or one that an exception has left. -/
inductive Attempt (α : Type*) where
  | run (x : Local α)
  | threw

/-- The instruction of an operation that runs. -/
def Attempt.running : Attempt α → Option (Local α)
  | .run x => some x
  | .threw => none

namespace Shared

variable (s : Shared α)

/-- `emplace` throws; the items of the batch are given up. -/
def abandon (j : ℕ) : Shared α :=
  { s.setSlot j none with emplaced := s.emplaced.take s.published }

/-- A move assignment from the item throws. -/
def spoil (failed : α → α) (j : ℕ) (item : α) : Shared α :=
  { s.setSlot j (some (failed item)) with emplaced := s.emplaced.modify s.popped.length failed }

end Shared

/-- One access, where the construction or assignment of an element throws. -/
def throwing (moved failed : α → α) (r : Ring) (s : Shared α) : Local α → Shared α × Attempt α
  | .pushEmplace _ _ t => (s.abandon (index r t), .threw)
  | .pushBatchEmplace items _ t _ i =>
    match items[i.toNat]? with
    | none => (s, .run (.done .outOfRange))
    | some _ => (s.abandon (index r (t + i)), .threw)
  | .popValue h =>
    match s.buffer (index r h) with
    | none => (s, .run (.done .badOptionalAccess))
    | some item => (s.spoil failed (index r h) item, .threw)
  | .popBatchValue h _ i _ =>
    match s.buffer (index r (h + i)) with
    | none => (s, .run (.done .badOptionalAccess))
    | some item => (s.spoil failed (index r (h + i)) item, .threw)
  | x => ((step moved r false s x).1, .run (step moved r false s x).2)

/-- One access; the choice is whether an element throws. -/
def attempt (moved failed : α → α) (r : Ring) (throws : Bool) (s : Shared α) :
    Attempt α → Shared α × Attempt α
  | .run x =>
    if throws then throwing moved failed r s x
    else ((step moved r false s x).1, .run (step moved r false s x).2)
  | .threw => (s, .threw)

/-- The buffer whose elements may throw. An operation ends with a result or with the exception. -/
def throwingObject (moved failed : α → α) (r : Ring) :
    Object (Op α) (Option (Result α)) (Shared α) (Attempt α) where
  start op := .run (start op)
  step := attempt moved failed r
  result
    | .run x => (result x).map some
    | .threw => some none

abbrev throwingSystem (moved failed : α → α) (r : Ring) :
    System (Config Side (Shared α) (Attempt α)) (Action Side (Op α)) :=
  (throwingObject moved failed r).client may

def throwingInitial (α : Type*) : Config Side (Shared α) (Attempt α) := ⟨init, fun _ => none⟩

/-- No `tryPopBatch` throws after its first item. -/
def FirstItem (c : Config Side (Shared α) (Attempt α)) : Action Side (Op α) → Prop
  | .step u throws => throws = true → ∀ h k i out,
    c.locals u = some (.run (.popBatchValue h k i out)) → i = 0
  | _ => True

/-- The operation is in a batch of pops, and past its first item. -/
def later : Option (Attempt α) → Bool
  | some (.run (.popBatchValue _ _ i _)) => i != 0
  | _ => false

theorem later_eq_false_iff {o : Option (Attempt α)} :
    later o = false ↔ ∀ h k i out, o = some (.run (.popBatchValue h k i out)) → i = 0 := by
  constructor
  · rintro hl h k i out rfl
    simpa [later] using hl
  · intro hl
    unfold later
    split
    next i _ => simp [hl _ _ i _ rfl]
    next => rfl

instance (c : Config Side (Shared α) (Attempt α)) (a : Action Side (Op α)) :
    Decidable (FirstItem c a) :=
  match a with
  | .step u throws => decidable_of_iff (throws = true → later (c.locals u) = false)
      (forall_congr' fun _ => later_eq_false_iff)
  | .call _ _ => .isTrue trivial
  | .ret _ => .isTrue trivial

/-- The consumer is in no operation. -/
def Idle (o : Option (Attempt α)) : Prop := ∀ x, o = some (.run x) → ∃ res, x = .done res

/-- The slots of `[head_, tail_)`. -/
def Shared.contents (r : Ring) (s : Shared α) : List (Option α) :=
  (List.range (s.tail - s.head).toNat).map fun i => s.buffer (index r (s.head + BitVec.ofNat 64 i))

/-- The representation of the buffer, whether an element has thrown or not. -/
structure Kept (moved failed : α → α) (r : Ring) (c : Config Side (Shared α) (Attempt α)) : Prop where
  contents : Idle (c.locals .consumer) →
    c.shared.contents r = (c.shared.pushed.drop c.shared.popped.length).map some
  order : c.shared.popped <+: c.shared.pushed
  observed : ∀ x j, c.locals .consumer = some (.run x) → x.values r = some j →
    (∃ i < c.shared.tail - c.shared.head, j = index r (c.shared.head + i)) ∧
      ∃ item, c.shared.buffer j = some item ∧
        c.shared.pushed[c.shared.popped.length]? = some item
  fails : ∀ u, c.locals u ≠ some (.run (.done .badOptionalAccess))
  thrown : ∀ u b c', (throwingSystem moved failed r).next c (.step u b) = some c' →
    c'.locals u = some .threw → c'.shared.popped = c.shared.popped ∧
      (u = .producer → c'.shared.pushed = c.shared.pushed) ∧
      (u = .consumer → c'.shared.pushed = c.shared.pushed.modify c.shared.popped.length failed)

/-! ## The same items in other slots -/

/-- The buffer with other slots. -/
def Shared.withBuffer (s : Shared α) (b : ℕ → Option α) : Shared α := { s with buffer := b }

/-- The slots `b` are those of the buffer wherever there is an item. -/
def Like (r : Ring) (s : Shared α) (b : ℕ → Option α) : Prop :=
  ∀ p, s.freed ≤ p → p < s.emplaced.length → b (r.slot p) = s.buffer (r.slot p)

section Like

variable {r : Ring} {s : Shared α} {b : ℕ → Option α} {l : Side → Option (Local α)} {x : Local α}
  {moved : α → α}

theorem Like.setSlot (h : Like r s b) (j : ℕ) (o : Option α) :
    Like r (s.setSlot j o) (Function.update b j o) := by
  intro p hp hlt
  show Function.update b j o (r.slot p) = Function.update s.buffer j o (r.slot p)
  by_cases he : r.slot p = j
  · rw [he, Function.update_self, Function.update_self]
  · rw [Function.update_of_ne he, Function.update_of_ne he]
    exact h p hp hlt

theorem Like.emplace (h : Like r s b) (item : α) :
    Like r (s.emplace (r.slot s.emplaced.length) item)
      (Function.update b (r.slot s.emplaced.length) (some item)) := by
  intro p hp hlt
  have hlt : p < (s.emplaced ++ [item]).length := hlt
  rw [List.length_append, List.length_singleton] at hlt
  rcases Nat.lt_succ_iff_lt_or_eq.mp hlt with hlt | rfl
  · exact h.setSlot _ _ p hp hlt
  · show Function.update b _ _ _ = Function.update s.buffer _ _ _
    rw [Function.update_self, Function.update_self]

theorem Like.take (h : Like r s b) (j : ℕ) (item : α) :
    Like r (s.take moved j item) (Function.update b j (some (moved item))) :=
  h.setSlot j _

/-- An access does the same to both, and leaves the same slots behind. -/
theorem Like.step_producer (h : Like r s b) (hinv : Inv r (s.withBuffer b) l)
    (hx : l .producer = some x) (hr : result x = none) : ∃ b',
      Like r (step moved r false s x).1 b' ∧ step moved r false (s.withBuffer b) x =
        ((step moved r false s x).1.withBuffer b', (step moved r false s x).2) := by
  have hp := hinv.producing
  have hfits := hinv.fits _ _ hx
  rw [hx] at hp
  cases x with
  | pushLoadTail | pushBatchLoadTail | pushStoreTail | pushBatchStoreTail | pushBatchLoadHead =>
    exact ⟨b, h, rfl⟩
  | pushLoadHead item how t =>
    simp only [step, Shared.withBuffer]
    by_cases hfull : count r ≤ t - s.head
    · simp only [if_pos hfull]
      exact ⟨b, h, if_pos hfull⟩
    · simp only [if_neg hfull]
      exact ⟨b, h, if_neg hfull⟩
  | pushEmplace item how t =>
    have hidx : index r t = r.slot s.emplaced.length := by
      have hidx := hinv.index_emplace (i := 0#64) hp
      rwa [BitVec.add_zero] at hidx
    refine ⟨Function.update b (index r t) (some item), ?_, rfl⟩
    simp only [step, hidx]
    exact h.emplace item
  | pushBatchEmplace items how t k i =>
    have hidx : index r (t + i) = r.slot s.emplaced.length := hinv.index_emplace hp.1
    simp only [step]
    split
    next => exact ⟨b, h, rfl⟩
    next item _ =>
      refine ⟨Function.update b (index r (t + i)) (some item), ?_, rfl⟩
      rw [hidx]
      exact h.emplace item
  | done => cases hr
  | _ => exact hfits.elim

theorem Like.next (h : Like r s b) (hinv : Inv r (s.withBuffer b) l) {t i : SizeT} {k : ℕ}
    (hc : Claim (s.withBuffer b) t k i.toNat) (hlt : i.toNat < k) :
    index r (t + i) = r.slot s.popped.length ∧
      b (index r (t + i)) = s.buffer (index r (t + i)) := by
  have hidx : index r (t + i) = r.slot s.popped.length := hinv.index_pop hc
  have hread : s.popped.length = s.freed + i.toNat := hc.read
  have hshown : s.freed + k ≤ s.published := hc.shown
  have hpublished : s.published ≤ s.emplaced.length := hinv.slots.published_le
  refine ⟨hidx, ?_⟩
  rw [hidx]
  exact h _ (by omega) (by omega)

theorem Like.step_consumer (h : Like r s b) (hinv : Inv r (s.withBuffer b) l)
    (hx : l .consumer = some x) (hr : result x = none) : ∃ b',
      Like r (step moved r false s x).1 b' ∧ step moved r false (s.withBuffer b) x =
        ((step moved r false s x).1.withBuffer b', (step moved r false s x).2) := by
  have hc := hinv.consuming
  have hfits := hinv.fits _ _ hx
  rw [hx] at hc
  cases x with
  | popLoadHead | popBatchLoadHead | popBatchLoadTail => exact ⟨b, h, rfl⟩
  | popLoadTail t =>
    simp only [step, Shared.withBuffer]
    by_cases hempty : t = s.tail
    · simp only [if_pos hempty]
      exact ⟨b, h, if_pos hempty⟩
    · simp only [if_neg hempty]
      exact ⟨b, h, if_neg hempty⟩
  | popValue t =>
    have hsame : b (index r t) = s.buffer (index r t) := by
      have hnext := (h.next hinv (i := 0#64) hc Nat.one_pos).2
      rwa [BitVec.add_zero] at hnext
    simp only [step, Shared.withBuffer, hsame]
    split
    next => exact ⟨b, h, rfl⟩
    next item _ => exact ⟨_, h.take (index r t) item, rfl⟩
  | popBatchValue t k i out =>
    have hsame := (h.next hinv hc.1 hc.2).2
    simp only [step, Shared.withBuffer, hsame]
    split
    next => exact ⟨b, h, rfl⟩
    next item _ => exact ⟨_, h.take (index r (t + i)) item, rfl⟩
  | popReset t out => exact ⟨_, h.setSlot (index r t) none, rfl⟩
  | popBatchReset t k i out => exact ⟨_, h.setSlot (index r (t + i)) none, rfl⟩
  | popStoreHead | popBatchStoreHead =>
    exact ⟨b, fun p hp hlt => h p ((Nat.le_add_right _ _).trans hp) hlt, rfl⟩
  | done => cases hr
  | _ => exact hfits.elim

end Like

/-! ## What an exception leaves behind -/

section Exceptions

variable {r : Ring} {s : Shared α} {b : ℕ → Option α} {l : Side → Option (Local α)} {m : ℕ}
  {failed : α → α}

theorem Slots.spoil (h : Slots r s 0) (hlt : s.popped.length < s.published) {item : α}
    (hitem : s.emplaced[s.popped.length]? = some item) :
    Slots r (s.spoil failed (r.slot s.popped.length) item) 0 := by
  have hfreed := h.freed_le
  have hpublished := h.published_le
  have hroom := h.room
  have hlen : (s.spoil failed (r.slot s.popped.length) item).emplaced.length = s.emplaced.length :=
    List.length_modify ..
  have hother : ∀ p, s.freed ≤ p → p < s.freed + r.size → p ≠ s.popped.length →
      (s.spoil failed (r.slot s.popped.length) item).buffer (r.slot p) = s.buffer (r.slot p) :=
    fun p hp hp' hne => setSlot_other (by omega) (by omega) hp hp' hne _
  constructor
  · show s.popped <+: s.emplaced.modify s.popped.length failed
    rw [List.modify_eq_take_drop, ← List.prefix_iff_eq_take.mp h.order]
    exact List.prefix_append ..
  · exact hfreed
  · exact h.popped_le
  · rw [hlen]
    exact hpublished
  · rw [hlen]
    exact hroom
  · intro p hp hlt'
    have hp : s.popped.length ≤ p := hp
    rw [hlen] at hlt'
    show _ = (s.emplaced.modify s.popped.length failed)[p]?
    rcases Nat.eq_or_lt_of_le hp with rfl | hgt
    · rw [List.getElem?_modify_eq, hitem]
      exact Function.update_self ..
    · rw [List.getElem?_modify_ne failed _ hgt.ne, hother p (by omega) (by omega) (by omega)]
      exact h.unread p hp hlt'
  · intro p hp hlt'
    rw [hlen] at hp
    have hlt' : p < s.freed + r.size := hlt'
    rw [hother p (by omega) hlt' (by omega)]
    exact h.free p hp hlt'
  · intro p hp hlt'
    have hp : s.freed ≤ p := hp
    have hlt' : p + 0 < s.popped.length := hlt'
    rw [hother p hp (by omega) (by omega)]
    exact h.released p hp hlt'

open Classical in
/-- The slots without those behind the items that the producer has handed over. -/
noncomputable def Shared.shown (r : Ring) (s : Shared α) (b : ℕ → Option α) (j : ℕ) : Option α :=
  if ∃ p, s.freed ≤ p ∧ p < s.published ∧ r.slot p = j then b j else none

theorem shown_eq {p : ℕ} (hp : s.freed ≤ p) (hlt : p < s.published) :
    s.shown r b (r.slot p) = b (r.slot p) := if_pos ⟨p, hp, hlt, rfl⟩

theorem shown_eq_none (hroom : s.published ≤ s.freed + r.size) {p : ℕ} (hp : s.published ≤ p)
    (hlt : p < s.freed + r.size) : s.shown r b (r.slot p) = none := by
  refine if_neg ?_
  rintro ⟨q, hq, hqlt, he⟩
  have := r.slot_inj he (by omega) (by omega)
  omega

theorem Slots.abandon (h : Slots r (s.withBuffer b) m) (j : ℕ) :
    Slots r ((s.abandon j).withBuffer (s.shown r b)) m := by
  have hfreed : s.freed ≤ s.popped.length := h.freed_le
  have hpopped : s.popped.length ≤ s.published := h.popped_le
  have hpublished : s.published ≤ s.emplaced.length := h.published_le
  have hroom : s.emplaced.length ≤ s.freed + r.size := h.room
  have hlen : ((s.abandon j).withBuffer (s.shown r b)).emplaced.length = s.published :=
    (List.length_take ..).trans (min_eq_left hpublished)
  constructor
  · exact h.order_pushed
  · exact hfreed
  · exact hpopped
  · exact hlen.ge
  · rw [hlen]
    exact hpublished.trans hroom
  · intro p hp hlt
    have hp : s.popped.length ≤ p := hp
    rw [hlen] at hlt
    show s.shown r b (r.slot p) = (s.emplaced.take s.published)[p]?
    rw [shown_eq (hfreed.trans hp) hlt, List.getElem?_take, if_pos hlt]
    exact h.unread p hp (hlt.trans_le hpublished)
  · intro p hp hlt
    rw [hlen] at hp
    exact shown_eq_none (hpublished.trans hroom) hp hlt
  · intro p hp hlt
    have hlt : p + m < s.popped.length := hlt
    have hold : b (r.slot p) = none := h.released p hp hlt
    have hshown : p < s.published := by omega
    exact (shown_eq hp hshown).trans hold

theorem Like.abandon (h : Like r s b) (hpublished : s.published ≤ s.emplaced.length)
    (hroom : s.emplaced.length < s.freed + r.size) :
    Like r (s.abandon (r.slot s.emplaced.length)) (s.shown r b) := by
  intro p hp hlt
  have hp : s.freed ≤ p := hp
  have hlt : p < (s.emplaced.take s.published).length := hlt
  rw [List.length_take, min_eq_left hpublished] at hlt
  have hother : (s.abandon (r.slot s.emplaced.length)).buffer (r.slot p) = s.buffer (r.slot p) :=
    setSlot_other (by omega) hroom hp (by omega) (by omega) _
  rw [shown_eq hp hlt, hother]
  exact h p hp (by omega)

theorem Inv.abandon (h : Inv r (s.withBuffer b) l) (j : ℕ) :
    Inv r ((s.abandon j).withBuffer (s.shown r b)) (Function.update l .producer none) := by
  refine h.produce (fun y hy => by cases hy) rfl rfl rfl le_rfl h.tail (h.slots.abandon j) ?_
  have hpublished : s.published ≤ s.emplaced.length := h.slots.published_le
  show (s.emplaced.take s.published).length = s.published
  rw [List.length_take, min_eq_left hpublished]

theorem Like.spoil (h : Like r s b) (j : ℕ) (item : α) :
    Like r (s.spoil failed j item) (Function.update b j (some (failed item))) := by
  intro p hp hlt
  have hlt : p < (s.emplaced.modify s.popped.length failed).length := hlt
  rw [List.length_modify] at hlt
  exact h.setSlot j _ p hp hlt

theorem Inv.spoil (h : Inv r (s.withBuffer b) l) (hreset : resetting (l .consumer) = 0)
    (hread : s.popped.length = s.freed) (hlt : s.popped.length < s.published) {item : α}
    (hitem : b (r.slot s.popped.length) = some item) :
    Inv r ((s.spoil failed (r.slot s.popped.length) item).withBuffer
        (Function.update b (r.slot s.popped.length) (some (failed item))))
      (Function.update l .consumer none) := by
  have hslots := h.slots
  rw [hreset] at hslots
  have hnext : s.emplaced[s.popped.length]? = some item := by
    rw [← hitem]
    exact (hslots.unread _ le_rfl (hlt.trans_le hslots.published_le)).symm
  refine h.consume (fun y hy => by cases hy) rfl (List.length_modify ..) rfl le_rfl h.head
    (hslots.spoil hlt hnext) hread

end Exceptions

/-! ## The invariant -/

/-- The instructions of the operations that run. -/
def running (l : Side → Option (Attempt α)) (u : Side) : Option (Local α) :=
  (l u).bind Attempt.running

theorem running_eq {l : Side → Option (Attempt α)} {u : Side} {x : Local α}
    (hx : l u = some (.run x)) : running l u = some x := by
  rw [running, hx]
  rfl

theorem running_update (l : Side → Option (Attempt α)) (t : Side) (o : Option (Attempt α)) :
    running (Function.update l t o) = Function.update (running l) t (o.bind Attempt.running) := by
  funext u
  unfold running
  by_cases hu : u = t
  · rw [hu, Function.update_self, Function.update_self]
  · rw [Function.update_of_ne hu, Function.update_of_ne hu]

/-- But for slots outside of the items, the buffer is as if the operations that threw had not been. -/
def Intact (r : Ring) (s : Shared α) (l : Side → Option (Attempt α)) : Prop :=
  ∃ b, Like r s b ∧ Inv r (s.withBuffer b) (running l)

section Intact

variable {moved failed : α → α} {r : Ring} {s : Shared α} {l : Side → Option (Attempt α)} {u : Side}
  {x : Local α}

theorem intact_init (r : Ring) : Intact r (init : Shared α) fun _ => none :=
  ⟨fun _ => none, fun _ _ _ => rfl, inv_init r⟩

theorem Intact.step (h : Intact r s l) (hx : l u = some (.run x)) (hr : result x = none) :
    Intact r (step moved r false s x).1
      (Function.update l u (some (.run (step moved r false s x).2))) := by
  obtain ⟨b, hlike, hinv⟩ := h
  have hrun := running_eq hx
  obtain ⟨b', hlike', hstep⟩ : ∃ b', Like r (SPSCRingBuffer.step moved r false s x).1 b' ∧
      SPSCRingBuffer.step moved r false (s.withBuffer b) x =
        ((SPSCRingBuffer.step moved r false s x).1.withBuffer b',
          (SPSCRingBuffer.step moved r false s x).2) := by
    cases u with
    | producer => exact hlike.step_producer hinv hrun hr
    | consumer => exact hlike.step_consumer hinv hrun hr
  have hnext := (inv_inductive moved r).step false hinv hrun hr trivial
  refine ⟨b', hlike', ?_⟩
  rw [running_update]
  have hobject : (object moved r).step false (s.withBuffer b) x = _ := hstep
  rw [hobject] at hnext
  exact hnext

theorem Like.sound_abandon {b : ℕ → Option α} (h : Like r s b)
    (hinv : Inv r (s.withBuffer b) (running l)) {i t : SizeT} {k : ℕ}
    (hg : Grant r (s.withBuffer b) t k i.toNat) (hik : i.toNat < k) :
    Intact r (s.abandon (index r (t + i))) (Function.update l .producer (some .threw)) := by
  have hidx : index r (t + i) = r.slot s.emplaced.length := hinv.index_emplace hg
  have hwritten : s.emplaced.length = s.published + i.toNat := hg.written
  have hroom : s.published + k ≤ s.freed + r.size := hg.room
  refine ⟨s.shown r b, ?_, ?_⟩
  · rw [hidx]
    exact h.abandon (by omega) (by omega)
  · rw [running_update]
    exact hinv.abandon _

/-- The move assignment from the first item of a pop throws. -/
theorem Like.sound_spoil {b : ℕ → Option α} (h : Like r s b)
    (hinv : Inv r (s.withBuffer b) (running l)) (hreset : resetting (running l .consumer) = 0)
    {t i : SizeT} {k : ℕ} (hc : Claim (s.withBuffer b) t k i.toNat) (hik : i.toNat < k)
    (hfirst : i = 0) : ∃ item, s.buffer (index r (t + i)) = some item ∧
      Intact r (s.spoil failed (index r (t + i)) item)
        (Function.update l .consumer (some .threw)) := by
  obtain ⟨hidx, hsame⟩ := h.next hinv hc hik
  have hread : s.popped.length = s.freed + i.toNat := hc.read
  have hshown : s.freed + k ≤ s.published := hc.shown
  obtain ⟨item, hitem, _⟩ := hinv.slots.next (show s.popped.length < s.published by omega)
  have hitem : b (r.slot s.popped.length) = some item := hitem
  refine ⟨item, by rw [← hsame, hidx, hitem], Function.update b (index r (t + i)) (some (failed item)),
    ?_, ?_⟩
  · exact h.spoil _ item
  · rw [running_update, hidx]
    refine hinv.spoil hreset ?_ (show s.popped.length < s.published by omega) hitem
    rw [hread, hfirst]
    rfl

theorem Intact.throws (h : Intact r s l) (hx : l u = some (.run x)) (hr : result x = none)
    (hfirst : ∀ t k i out, x = .popBatchValue t k i out → i = 0) :
    Intact r (throwing moved failed r s x).1
      (Function.update l u (some (throwing moved failed r s x).2)) := by
  have hstep : Intact r (SPSCRingBuffer.step moved r false s x).1
      (Function.update l u (some (.run (SPSCRingBuffer.step moved r false s x).2))) := h.step hx hr
  obtain ⟨b, hlike, hinv⟩ := h
  have hrun := running_eq hx
  have hfits := hinv.fits _ _ hrun
  have hp := hinv.producing
  have hc := hinv.consuming
  cases x with
  | pushEmplace item how t =>
    cases u with
    | consumer => exact hfits.elim
    | producer =>
      rw [hrun] at hp
      have habandon := hlike.sound_abandon hinv (i := 0#64) hp Nat.one_pos
      rwa [BitVec.add_zero] at habandon
  | pushBatchEmplace items how t k i =>
    cases u with
    | consumer => exact hfits.elim
    | producer =>
      rw [hrun] at hp
      obtain ⟨hg, hik, hlen⟩ := hp
      have hlt : i.toNat < k.toNat := hik
      have hitem : items[i.toNat]? = some items[i.toNat] := List.getElem?_eq_getElem (by omega)
      simp only [throwing, hitem]
      exact hlike.sound_abandon hinv hg hik
  | popValue t =>
    cases u with
    | producer => exact hfits.elim
    | consumer =>
      have hreset : resetting (running l .consumer) = 0 := by
        rw [hrun]
        rfl
      rw [hrun] at hc
      obtain ⟨item, hitem, hspoil⟩ : ∃ item, s.buffer (index r (t + 0#64)) = some item ∧
          Intact r (s.spoil failed (index r (t + 0#64)) item) _ :=
        hlike.sound_spoil hinv hreset (i := 0#64) hc Nat.one_pos rfl
      rw [BitVec.add_zero] at hitem hspoil
      simp only [throwing, hitem]
      exact hspoil
  | popBatchValue t k i out =>
    cases u with
    | producer => exact hfits.elim
    | consumer =>
      have hreset : resetting (running l .consumer) = 0 := by
        rw [hrun]
        rfl
      rw [hrun] at hc
      obtain ⟨item, hitem, hspoil⟩ : ∃ item, s.buffer (index r (t + i)) = some item ∧
          Intact r (s.spoil failed (index r (t + i)) item) _ :=
        hlike.sound_spoil hinv hreset hc.1 hc.2 (hfirst t k i out rfl)
      simp only [throwing, hitem]
      exact hspoil
  | _ => exact hstep

theorem Intact.next {c c' : Config Side (Shared α) (Attempt α)} {a : Action Side (Op α)}
    (h : Intact r c.shared c.locals) (hok : FirstItem c a)
    (hn : (throwingSystem moved failed r).next c a = some c') : Intact r c'.shared c'.locals := by
  cases a with
  | call t op =>
    obtain ⟨hl, hmay, rfl⟩ := Object.next_call hn
    obtain ⟨b, hlike, hinv⟩ := h
    refine ⟨b, hlike, ?_⟩
    have hidle : running c.locals t = none := by
      rw [running, hl]
      rfl
    have hcall := (inv_inductive moved r).call hinv hidle hmay
    show Inv r (c.shared.withBuffer b) (running (Function.update c.locals t _))
    rw [running_update]
    exact hcall
  | step t throws =>
    obtain ⟨x, hx, hr, rfl⟩ := Object.next_step hn
    cases x with
    | threw => cases hr
    | run x =>
      have hres : result x = none := by
        cases x <;> first | rfl | cases hr
      cases throws with
      | false => exact h.step hx hres
      | true => exact h.throws hx hres fun t' k i out he => hok rfl t' k i out (he ▸ hx)
  | ret t =>
    obtain ⟨x, res, hx, hr, rfl⟩ := Object.next_ret hn
    obtain ⟨b, hlike, hinv⟩ := h
    refine ⟨b, hlike, ?_⟩
    show Inv r (c.shared.withBuffer b) (running (Function.update c.locals t none))
    rw [running_update]
    cases x with
    | threw =>
      have hidle : running c.locals t = none := by
        rw [running, hx]
        rfl
      show Inv r _ (Function.update (running c.locals) t none)
      rw [← hidle, Function.update_eq_self]
      exact hinv
    | run x =>
      have hrun : running c.locals t = some x := by
        rw [running, hx]
        rfl
      cases x <;> first | exact (inv_inductive moved r).ret hinv hrun rfl | cases hr

theorem Intact.contents_eq (h : Intact r s l) (hidle : Idle (l .consumer)) :
    s.contents r = (s.pushed.drop s.popped.length).map some := by
  obtain ⟨b, hlike, hinv⟩ := h
  have hread : s.popped.length = s.freed := by
    have hc := hinv.consuming
    cases hl : l .consumer with
    | none =>
      rw [running, hl] at hc
      exact hc
    | some y =>
      rw [running, hl] at hc
      cases y with
      | threw => exact hc
      | run x =>
        obtain ⟨res, rfl⟩ := hidle x hl
        exact hc
  have hdist : (s.tail - s.head).toNat = s.published - s.freed := hinv.distance
  have hpublished : s.published ≤ s.emplaced.length := hinv.slots.published_le
  have hroom : s.emplaced.length ≤ s.freed + r.size := hinv.slots.room
  have hsize := r.size_le
  unfold Shared.contents
  apply List.ext_getElem?
  intro i
  rw [hdist, List.getElem?_map, List.getElem?_map, List.getElem?_drop, hread, Shared.pushed,
    List.getElem?_take]
  by_cases hi : i < s.published - s.freed
  · have hidx : index r (s.head + BitVec.ofNat 64 i) = r.slot (s.freed + i) := by
      rw [show s.head = BitVec.ofNat 64 s.freed from hinv.head, index_ofNat_add, BitVec.toNat_ofNat,
        Nat.mod_eq_of_lt (by omega)]
    have hunread : b (r.slot (s.freed + i)) = s.emplaced[s.freed + i]? :=
      hinv.slots.unread _ (show s.popped.length ≤ _ by omega) (show _ < s.emplaced.length by omega)
    rw [List.getElem?_range hi, if_pos (by omega), Option.map_some, hidx,
      ← hlike _ (by omega) (by omega), hunread, List.getElem?_eq_getElem (by omega)]
    rfl
  · rw [List.getElem?_eq_none (by rw [List.length_range]; omega), if_neg (by omega)]
    rfl

theorem Intact.observed (h : Intact r s l) (hx : l .consumer = some (.run x)) {j : ℕ}
    (hj : x.values r = some j) : (∃ i < s.tail - s.head, j = index r (s.head + i)) ∧
      ∃ item, s.buffer j = some item ∧ s.pushed[s.popped.length]? = some item := by
  obtain ⟨b, hlike, hinv⟩ := h
  have hrun : running l .consumer = some x := by
    rw [running, hx]
    rfl
  obtain ⟨item, hitem, hnext⟩ := hinv.values_unread hrun hj
  have hdist : (s.tail - s.head).toNat = s.published - s.freed := hinv.distance
  have hc := hinv.consuming
  rw [hrun] at hc
  -- the position is one of those that the consumer has seen
  have hshown : ∀ {t i : SizeT} {k : ℕ}, Claim (s.withBuffer b) t k i.toNat → i.toNat < k →
      (i < s.tail - s.head ∧ t = s.head) ∧ b (index r (t + i)) = s.buffer (index r (t + i)) := by
    intro t i k hclaim hik
    have hk : s.freed + k ≤ s.published := hclaim.shown
    refine ⟨⟨?_, hclaim.head⟩, (hlike.next hinv hclaim hik).2⟩
    show i.toNat < (s.tail - s.head).toNat
    omega
  cases x with
  | popValue t =>
    obtain ⟨⟨hi, rfl⟩, hsame⟩ := hshown (i := 0#64) hc Nat.one_pos
    obtain rfl := Option.some.inj hj
    rw [BitVec.add_zero] at hsame
    exact ⟨⟨0#64, hi, by rw [BitVec.add_zero]⟩, item, hsame ▸ hitem, hnext⟩
  | popBatchValue t k i out =>
    obtain ⟨⟨hi, rfl⟩, hsame⟩ := hshown hc.1 hc.2
    obtain rfl := Option.some.inj hj
    exact ⟨⟨i, hi, rfl⟩, item, hsame ▸ hitem, hnext⟩
  | _ => cases hj

end Intact

/-! ## Exceptions keep the representation -/

section Runs

variable {moved failed : α → α} {r : Ring} {c c' : Config Side (Shared α) (Attempt α)}

/-- What a step that ends with an exception does to the items. -/
theorem Intact.thrown (h : Intact r c.shared c.locals) {u : Side} {throws : Bool}
    (hn : (throwingSystem moved failed r).next c (.step u throws) = some c')
    (hthrew : c'.locals u = some .threw) : c'.shared.popped = c.shared.popped ∧
      (u = .producer → c'.shared.pushed = c.shared.pushed) ∧
      (u = .consumer → c'.shared.pushed = c.shared.pushed.modify c.shared.popped.length failed) := by
  obtain ⟨b, _, hinv⟩ := h
  obtain ⟨x, hx, hr, rfl⟩ := Object.next_step hn
  dsimp only at hthrew
  rw [Function.update_self] at hthrew
  cases x with
  | threw => cases hr
  | run x =>
    have hfits := hinv.fits u x (by rw [running, hx]; rfl)
    cases throws with
    | false => cases hthrew
    | true =>
      have habandon : ∀ j, (c.shared.abandon j).pushed = c.shared.pushed := by
        intro j
        show (c.shared.emplaced.take c.shared.published).take c.shared.published = _
        rw [List.take_take, min_self]
        rfl
      have hspoil : ∀ j item, (c.shared.spoil failed j item).pushed =
          c.shared.pushed.modify c.shared.popped.length failed := fun j item =>
        List.take_modify ..
      cases x with
      | pushEmplace item how t =>
        cases u with
        | consumer => exact hfits.elim
        | producer => exact ⟨rfl, fun _ => habandon _, fun he => by cases he⟩
      | pushBatchEmplace items how t k i =>
        cases u with
        | consumer => exact hfits.elim
        | producer =>
          simp only [throwingObject, attempt, throwing, if_true] at hthrew ⊢
          split at hthrew
          next => cases hthrew
          next => exact ⟨rfl, fun _ => habandon _, fun he => by cases he⟩
      | popValue t =>
        cases u with
        | producer => exact hfits.elim
        | consumer =>
          simp only [throwingObject, attempt, throwing, if_true] at hthrew ⊢
          split at hthrew
          next => cases hthrew
          next item _ => exact ⟨rfl, fun he => (by cases he), fun _ => hspoil _ item⟩
      | popBatchValue t k i out =>
        cases u with
        | producer => exact hfits.elim
        | consumer =>
          simp only [throwingObject, attempt, throwing, if_true] at hthrew ⊢
          split at hthrew
          next => cases hthrew
          next item _ => exact ⟨rfl, fun he => (by cases he), fun _ => hspoil _ item⟩
      | _ => cases hthrew

theorem Intact.kept (h : Intact r c.shared c.locals) : Kept moved failed r c where
  contents := h.contents_eq
  order := by
    obtain ⟨b, _, hinv⟩ := h
    exact hinv.slots.order_pushed
  observed _ _ hx hj := h.observed hx hj
  fails u hu := by
    obtain ⟨b, _, hinv⟩ := h
    have hfits := hinv.fits u (.done .badOptionalAccess) (by rw [running, hu]; rfl)
    cases u <;> exact hfits
  thrown _ _ _ hn hthrew := h.thrown hn hthrew

/-- A `tryPopBatch` that throws after its first item leaves `head_` at a slot that it has reset. -/
theorem Intact.broken (h : Intact r c.shared c.locals) {t k i : SizeT} {out : List α}
    (hx : c.locals .consumer = some (.run (.popBatchValue t k i out))) (hi : i ≠ 0)
    (hn : (throwingSystem moved failed r).next c (.step .consumer true) = some c') :
    ¬ Kept moved failed r c' := by
  obtain ⟨b, hlike, hinv⟩ := h
  obtain ⟨x, hx', _, rfl⟩ := Object.next_step hn
  obtain rfl := Option.some.inj (hx.symm.trans hx')
  have hrun : running c.locals .consumer = some (.popBatchValue t k i out) := by
    rw [running, hx]
    rfl
  have hc := hinv.consuming
  have hslots := hinv.slots
  rw [hrun] at hc hslots
  obtain ⟨hclaim, hik⟩ := hc
  have hlt : i.toNat < k.toNat := hik
  have hpos : 0 < i.toNat := by
    rw [Nat.pos_iff_ne_zero]
    exact fun he => hi (BitVec.eq_of_toNat_eq he)
  have hread : c.shared.popped.length = c.shared.freed + i.toNat := hclaim.read
  have hshown : c.shared.freed + k.toNat ≤ c.shared.published := hclaim.shown
  have hpublished : c.shared.published ≤ c.shared.emplaced.length := hslots.published_le
  have hroom : c.shared.emplaced.length ≤ c.shared.freed + r.size := hslots.room
  obtain ⟨hidx, hsame⟩ := hlike.next hinv hclaim hik
  obtain ⟨item, hitem, _⟩ := hslots.next (show c.shared.popped.length < c.shared.published by omega)
  have hitem : c.shared.buffer (index r (t + i)) = some item := by
    rw [← hsame, hidx]
    exact hitem
  have hstep : (throwingObject moved failed r).step true c.shared (.run (.popBatchValue t k i out)) =
      (c.shared.spoil failed (index r (t + i)) item, .threw) := by
    simp only [throwingObject, attempt, throwing, if_true, hitem]
  rw [hstep]
  intro hkept
  have hcontents := hkept.contents (by
    intro y hy
    dsimp only at hy
    rw [Function.update_self] at hy
    cases hy)
  -- the first slot has been reset, and is not that of the item whose move has failed
  have hfirst : (c.shared.spoil failed (index r (t + i)) item).buffer
      (r.slot c.shared.freed) = none := by
    have hreset : b (r.slot c.shared.freed) = none :=
      hslots.released c.shared.freed le_rfl (show _ + 0 < c.shared.popped.length by omega)
    rw [hlike _ le_rfl (by omega)] at hreset
    rw [← hreset, hidx]
    exact setSlot_other (by omega) (by omega) le_rfl (by omega) (by omega) _
  have hdist : (c.shared.tail - c.shared.head).toNat = c.shared.published - c.shared.freed :=
    hinv.distance
  have hzero : ((c.shared.spoil failed (index r (t + i)) item).contents r)[0]? = some none := by
    unfold Shared.contents
    show ((List.range (c.shared.tail - c.shared.head).toNat).map _)[0]? = _
    rw [List.getElem?_map, List.getElem?_range (by omega), Option.map_some]
    have hhead : index r (c.shared.head + BitVec.ofNat 64 0) = r.slot c.shared.freed := by
      rw [show c.shared.head = BitVec.ofNat 64 c.shared.freed from hinv.head, index_ofNat_add]
      rfl
    exact congrArg some ((congrArg _ hhead).trans hfirst)
  rw [hcontents, List.getElem?_map] at hzero
  cases hp : ((c.shared.spoil failed (index r (t + i)) item).pushed.drop
      (c.shared.spoil failed (index r (t + i)) item).popped.length)[0]? with
  | none =>
    rw [hp] at hzero
    cases hzero
  | some a =>
    rw [hp] at hzero
    cases hzero

/-- **Exceptions keep the representation**, exactly as long as no `tryPopBatch` throws after its first
item. -/
theorem kept_of_firstItem (moved failed : α → α) (r : Ring)
    (c : Config Side (Shared α) (Attempt α))
    (hc : (throwingSystem moved failed r).Reach FirstItem (throwingInitial α) c) :
    Kept moved failed r c ∧ ∀ a c', (throwingSystem moved failed r).next c a = some c' →
      (Kept moved failed r c' ↔ FirstItem c a) := by
  have hintact : Intact r c.shared c.locals :=
    hc.invariant (I := fun c => Intact r c.shared c.locals) (intact_init r)
      fun _ _ _ h hok hn => h.next hok hn
  refine ⟨hintact.kept, fun a c' hn => ⟨fun hkept => ?_, fun hok => (hintact.next hok hn).kept⟩⟩
  cases a with
  | call | ret => trivial
  | step u throws =>
    intro hthrows t k i out hx
    subst hthrows
    by_contra hi
    cases u with
    | consumer => exact hintact.broken hx hi hn hkept
    | producer =>
      obtain ⟨b, _, hinv⟩ := hintact
      exact hinv.fits .producer (.popBatchValue t k i out) (by rw [running, hx]; rfl)

theorem length_two : ([7, 8] : List ℕ).length < 2 ^ 64 := by decide

/-- The second item of a batch throws as it is pushed, then the move assignment of a pop. -/
def throwTwice : List (Action Side (Op ℕ)) :=
  List.flatten [[.call .producer (.tryPushBatch ⟨[7, 8], length_two⟩ .copy)], Action.steps .producer 3,
    [.step .producer true, .ret .producer, .call .producer (.tryPush 9 .copy)],
    Action.steps .producer 4, [.ret .producer, .call .consumer .tryPop], Action.steps .consumer 2,
    [.step .consumer true]]

theorem kept_throwTwice : ∃ c, (throwingSystem id id Ring.two).Reachable (throwingInitial ℕ) c ∧
    c.locals .consumer = some .threw ∧ c.shared.pushed = [9] ∧ Kept id id Ring.two c := by
  have hrun : ((throwingSystem id id Ring.two).runWhile FirstItem (throwingInitial ℕ)
      throwTwice).map (fun c => (((c.locals .consumer).map fun x => x.running.isNone),
        c.shared.pushed)) = some (some true, [9]) := by decide +kernel
  obtain ⟨c, hc, he⟩ := Option.map_eq_some_iff.mp hrun
  obtain ⟨hthrew, hpushed⟩ := Prod.mk.inj he
  have hreach := System.reach_of_runWhile hc
  refine ⟨c, hreach.reachable, ?_, hpushed, (kept_of_firstItem id id Ring.two c hreach).1⟩
  obtain ⟨x, hx, hnone⟩ := Option.map_eq_some_iff.mp hthrew
  cases x with
  | threw => exact hx
  | run => cases hnone

/-- Two items are pushed; a batch of pops throws at the second. -/
def throwSecond : List (Action Side (Op ℕ)) :=
  List.flatten [[.call .producer (.tryPushBatch ⟨[7, 8], length_two⟩ .copy)], Action.steps .producer 5,
    [.ret .producer, .call .consumer (.tryPopBatch 2)], Action.steps .consumer 4,
    [.step .consumer true]]

/-- `head_` is left at an empty slot, on which the next `tryPop` fails. -/
theorem throwSecond_fails : ∃ c c' : Config Side (Shared ℕ) (Attempt ℕ),
    (throwingSystem id id Ring.two).Reachable (throwingInitial ℕ) c ∧
      c.locals .consumer = some .threw ∧ c.shared.contents Ring.two = [none, some 8] ∧
      (throwingSystem id id Ring.two).Reachable c c' ∧
      c'.locals .consumer = some (.run (.done .badOptionalAccess)) := by
  have hrun : ((throwingSystem id id Ring.two).run (throwingInitial ℕ) throwSecond).bind (fun c =>
      ((throwingSystem id id Ring.two).run c
        ([.ret .consumer, .call .consumer .tryPop] ++ Action.steps .consumer 3)).map fun c' =>
          (((c.locals .consumer).map fun x => x.running.isNone), c.shared.contents Ring.two,
            ((c'.locals .consumer).bind Attempt.running).bind result)) =
      some (some true, [none, some 8], some .badOptionalAccess) := by decide +kernel
  obtain ⟨c, hc, hlater⟩ := Option.bind_eq_some_iff.mp hrun
  obtain ⟨c', hc', he⟩ := Option.map_eq_some_iff.mp hlater
  simp only [Prod.mk.injEq] at he
  obtain ⟨hthrew, hcontents, hresult⟩ := he
  refine ⟨c, c', System.reachable_of_run hc, ?_, hcontents, System.reachable_of_run hc', ?_⟩
  · obtain ⟨x, hx, hnone⟩ := Option.map_eq_some_iff.mp hthrew
    cases x with
    | threw => exact hx
    | run => cases hnone
  · obtain ⟨x, hx, hdone⟩ := Option.bind_eq_some_iff.mp hresult
    obtain ⟨y, hy, hrunning⟩ := Option.bind_eq_some_iff.mp hx
    cases y with
    | threw => cases hrunning
    | run y =>
      obtain rfl := Option.some.inj hrunning
      cases y <;> cases hdone
      exact hy

end Runs

end LowLatency.SPSCRingBuffer
