import LowLatency.SPSCRingBuffer.Basic

/-!
# The invariant of the ring buffer

Positions count the items without wrapping. `Slots` says what is in the slots of the positions from
`freed` on, one lap of them: the items that were emplaced and not yet popped, and nothing in the
others. The producer works at the end of them with the room it has seen (`Grant`), the consumer at
their beginning with the items it has seen (`Claim`). Whatever the other side does in the meantime
only adds to the room and to the items.
-/

namespace LowLatency.SPSCRingBuffer

open Concurrency

variable {α : Type*}

theorem toNat_add_one {k i : SizeT} (hik : i < k) : (i + 1).toNat = i.toNat + 1 := by
  have hlt : i.toNat < k.toNat := hik
  have hk := k.isLt
  rw [BitVec.toNat_add]
  show (i.toNat + 1) % 2 ^ 64 = i.toNat + 1
  omega

/-! ## Slots -/

/-- What is in the slots; `resetting` counts the items that were moved out and still have their slot. -/
structure Slots (r : Ring) (s : Shared α) (resetting : ℕ) : Prop where
  order : s.popped <+: s.emplaced
  freed_le : s.freed ≤ s.popped.length
  popped_le : s.popped.length ≤ s.published
  published_le : s.published ≤ s.emplaced.length
  room : s.emplaced.length ≤ s.freed + r.size
  unread : ∀ p, s.popped.length ≤ p → p < s.emplaced.length →
    s.buffer (r.slot p) = s.emplaced[p]?
  free : ∀ p, s.emplaced.length ≤ p → p < s.freed + r.size → s.buffer (r.slot p) = none
  released : ∀ p, s.freed ≤ p → p + resetting < s.popped.length → s.buffer (r.slot p) = none

theorem slots_init (r : Ring) : Slots r (init : Shared α) 0 where
  order := List.prefix_refl _
  freed_le := le_rfl
  popped_le := le_rfl
  published_le := le_rfl
  room := Nat.zero_le _
  unread p _ h := absurd h (Nat.not_lt_zero p)
  free _ _ _ := rfl
  released _ _ _ := rfl

section Slots

variable {r : Ring} {s : Shared α} {m : ℕ} {moved : α → α}

/-- An access to the slot of another position of the same lap. -/
theorem setSlot_other {q p : ℕ} (hq : s.freed ≤ q) (hq' : q < s.freed + r.size) (hp : s.freed ≤ p)
    (hp' : p < s.freed + r.size) (hne : p ≠ q) (o : Option α) :
    (s.setSlot (r.slot q) o).buffer (r.slot p) = s.buffer (r.slot p) := by
  refine Function.update_of_ne (fun he => hne ?_) ..
  exact r.slot_inj he (by omega) (by omega)

theorem Slots.empty_end (h : Slots r s m) (hroom : s.emplaced.length < s.freed + r.size) :
    s.buffer (r.slot s.emplaced.length) = none :=
  h.free _ le_rfl hroom

theorem Slots.emplace (h : Slots r s m) (hroom : s.emplaced.length < s.freed + r.size) (item : α) :
    Slots r (s.emplace (r.slot s.emplaced.length) item) m := by
  have hfreed := h.freed_le
  have hpopped := h.popped_le
  have hpublished := h.published_le
  have hlen : (s.emplace (r.slot s.emplaced.length) item).emplaced.length =
      s.emplaced.length + 1 := by
    simp [Shared.emplace]
  have hother : ∀ p, s.freed ≤ p → p < s.freed + r.size → p ≠ s.emplaced.length →
      (s.emplace (r.slot s.emplaced.length) item).buffer (r.slot p) = s.buffer (r.slot p) :=
    fun p hp hp' hne => setSlot_other (by omega) hroom hp hp' hne _
  constructor
  · exact h.order.trans (List.prefix_append _ _)
  · exact hfreed
  · exact hpopped
  · rw [hlen]
    exact hpublished.trans (Nat.le_succ _)
  · rw [hlen]
    exact hroom
  · intro p hp hlt
    have hp : s.popped.length ≤ p := hp
    rw [hlen] at hlt
    rcases Nat.lt_succ_iff_lt_or_eq.mp hlt with hlt | rfl
    · rw [hother p (by omega) (by omega) (by omega), h.unread p hp hlt]
      exact (List.getElem?_append_left hlt).symm
    · exact (Function.update_self ..).trans (by simp [Shared.emplace])
  · intro p hp hlt
    have hlt : p < s.freed + r.size := hlt
    rw [hlen] at hp
    rw [hother p (by omega) hlt (by omega)]
    exact h.free p (by omega) hlt
  · intro p hp hlt
    have hp : s.freed ≤ p := hp
    have hlt : p + m < s.popped.length := hlt
    rw [hother p hp (by omega) (by omega)]
    exact h.released p hp hlt

theorem Slots.next (h : Slots r s m) (hlt : s.popped.length < s.published) :
    ∃ item, s.buffer (r.slot s.popped.length) = some item ∧
      s.emplaced[s.popped.length]? = some item := by
  have hlen : s.popped.length < s.emplaced.length := hlt.trans_le h.published_le
  refine ⟨s.emplaced[s.popped.length], ?_, List.getElem?_eq_getElem hlen⟩
  rw [h.unread _ le_rfl hlen, List.getElem?_eq_getElem hlen]

theorem Slots.take (h : Slots r s 0) (hlt : s.popped.length < s.published) {item : α}
    (hitem : s.emplaced[s.popped.length]? = some item) :
    Slots r (s.take moved (r.slot s.popped.length) item) 1 := by
  have hfreed := h.freed_le
  have hpublished := h.published_le
  have hroom := h.room
  have hlen : (s.take moved (r.slot s.popped.length) item).popped.length = s.popped.length + 1 := by
    simp [Shared.take]
  have hother : ∀ p, s.freed ≤ p → p < s.freed + r.size → p ≠ s.popped.length →
      (s.take moved (r.slot s.popped.length) item).buffer (r.slot p) = s.buffer (r.slot p) :=
    fun p hp hp' hne => setSlot_other (by omega) (by omega) hp hp' hne _
  constructor
  · obtain ⟨rest, hrest⟩ := h.order
    rw [← hrest, List.getElem?_append_right le_rfl, Nat.sub_self] at hitem
    obtain ⟨rest', rfl⟩ : ∃ rest', rest = item :: rest' := by
      cases rest with
      | nil => cases hitem
      | cons x rest' => exact ⟨rest', by rw [Option.some.inj hitem]⟩
    exact ⟨rest', (List.append_assoc ..).trans hrest⟩
  · rw [hlen]
    exact hfreed.trans (Nat.le_succ _)
  · rw [hlen]
    exact hlt
  · exact hpublished
  · exact hroom
  · intro p hp hlt'
    have hlt' : p < s.emplaced.length := hlt'
    rw [hlen] at hp
    rw [hother p (by omega) (by omega) (by omega)]
    exact h.unread p (by omega) hlt'
  · intro p hp hlt'
    have hp : s.emplaced.length ≤ p := hp
    have hlt' : p < s.freed + r.size := hlt'
    rw [hother p (by omega) hlt' (by omega)]
    exact h.free p hp hlt'
  · intro p hp hlt'
    have hp : s.freed ≤ p := hp
    rw [hlen] at hlt'
    rw [hother p hp (by omega) (by omega)]
    exact h.released p hp (by omega)

/-- The consumer resets the slot of the item it has moved out. -/
theorem Slots.reset (h : Slots r s 1) {q : ℕ} (hq : s.popped.length = q + 1) (hfreed : s.freed ≤ q) :
    Slots r (s.setSlot (r.slot q) none) 0 := by
  have hpopped := h.popped_le
  have hpublished := h.published_le
  have hroom := h.room
  have hother : ∀ p, s.freed ≤ p → p < s.freed + r.size → p ≠ q →
      (s.setSlot (r.slot q) none).buffer (r.slot p) = s.buffer (r.slot p) :=
    fun p hp hp' hne => setSlot_other hfreed (by omega) hp hp' hne _
  constructor
  · exact h.order
  · exact h.freed_le
  · exact hpopped
  · exact hpublished
  · exact hroom
  · intro p hp hlt
    have hp : s.popped.length ≤ p := hp
    have hlt : p < s.emplaced.length := hlt
    rw [hother p (by omega) (by omega) (by omega)]
    exact h.unread p hp hlt
  · intro p hp hlt
    have hp : s.emplaced.length ≤ p := hp
    have hlt : p < s.freed + r.size := hlt
    rw [hother p (by omega) hlt (by omega)]
    exact h.free p hp hlt
  · intro p hp hlt
    have hp : s.freed ≤ p := hp
    have hlt : p + 0 < s.popped.length := hlt
    by_cases he : p = q
    · rw [he]
      exact Function.update_self ..
    · rw [hother p hp (by omega) he]
      exact h.released p hp (by omega)

theorem Slots.storeTail (h : Slots r s m) {t k : SizeT}
    (hk : s.published + k.toNat = s.emplaced.length) : Slots r (s.storeTail t k) m where
  order := h.order
  freed_le := h.freed_le
  popped_le := h.popped_le.trans (Nat.le_add_right _ _)
  published_le := hk.le
  room := h.room
  unread := h.unread
  free := h.free
  released := h.released

theorem Slots.storeHead (h : Slots r s 0) {t k : SizeT} (hk : s.freed + k.toNat = s.popped.length) :
    Slots r (s.storeHead t k) 0 where
  order := h.order
  freed_le := hk.le
  popped_le := h.popped_le
  published_le := h.published_le
  room := h.room.trans (by show _ ≤ s.freed + k.toNat + r.size; omega)
  unread := h.unread
  free p hp hlt := by
    have hlt : p < s.freed + k.toNat + r.size := hlt
    by_cases hlap : p < s.freed + r.size
    · exact h.free p hp hlap
    · -- one lap earlier this slot was released
      have hslot : r.slot p = r.slot (p - r.size) := by
        rw [← r.slot_add_size (p - r.size), Nat.sub_add_cancel (by omega)]
      show s.buffer (r.slot p) = none
      rw [hslot]
      exact h.released _ (by omega) (by omega)
  released p hp hlt := by
    have hp : s.freed + k.toNat ≤ p := hp
    have hlt : p + 0 < s.popped.length := hlt
    omega

end Slots

/-! ## The two sides -/

/-- The producer may fill `k` slots from `t` on and has filled `i` of them. -/
structure Grant (r : Ring) (s : Shared α) (t : SizeT) (k i : ℕ) : Prop where
  tail : t = s.tail
  written : s.emplaced.length = s.published + i
  room : s.published + k ≤ s.freed + r.size

/-- The consumer may take `k` items from `h` on and has taken `i` of them. -/
structure Claim (s : Shared α) (h : SizeT) (k i : ℕ) : Prop where
  head : h = s.head
  read : s.popped.length = s.freed + i
  shown : s.freed + k ≤ s.published

/-- Where the producer is. -/
def Producing (r : Ring) (s : Shared α) : Option (Local α) → Prop
  | some (.pushLoadHead _ _ t) | some (.pushBatchLoadHead _ _ t) => Grant r s t 0 0
  | some (.pushEmplace _ _ t) => Grant r s t 1 0
  | some (.pushStoreTail _ t) => Grant r s t 1 1
  | some (.pushBatchEmplace items _ t k i) =>
    Grant r s t k.toNat i.toNat ∧ i < k ∧ k.toNat ≤ items.length
  | some (.pushBatchStoreTail _ t k) => Grant r s t k.toNat k.toNat
  | _ => s.emplaced.length = s.published

/-- Where the consumer is. -/
def Consuming (s : Shared α) : Option (Local α) → Prop
  | some (.popLoadTail h) | some (.popBatchLoadTail _ h) => Claim s h 0 0
  | some (.popValue h) => Claim s h 1 0
  | some (.popReset h _) | some (.popStoreHead h _) => Claim s h 1 1
  | some (.popBatchValue h k i _) => Claim s h k.toNat i.toNat ∧ i < k
  | some (.popBatchReset h k i _) => Claim s h k.toNat (i.toNat + 1) ∧ i < k
  | some (.popBatchStoreHead h k _) => Claim s h k.toNat k.toNat
  | _ => s.popped.length = s.freed

/-- The items moved out whose slot has not been reset. -/
def resetting : Option (Local α) → ℕ
  | some (.popReset _ _) | some (.popBatchReset _ _ _ _) => 1
  | _ => 0

/-- The producer runs pushes and the consumer pops, and nobody has gone astray. -/
def Local.fits : Side → Local α → Prop
  | .producer, .pushLoadTail _ _ | .producer, .pushLoadHead _ _ _ | .producer, .pushEmplace _ _ _
  | .producer, .pushStoreTail _ _ | .producer, .pushBatchLoadTail _ _
  | .producer, .pushBatchLoadHead _ _ _ | .producer, .pushBatchEmplace _ _ _ _ _
  | .producer, .pushBatchStoreTail _ _ _ => True
  | .consumer, .popLoadHead | .consumer, .popLoadTail _ | .consumer, .popValue _
  | .consumer, .popReset _ _ | .consumer, .popStoreHead _ _ | .consumer, .popBatchLoadHead _
  | .consumer, .popBatchLoadTail _ _ | .consumer, .popBatchValue _ _ _ _
  | .consumer, .popBatchReset _ _ _ _ | .consumer, .popBatchStoreHead _ _ _ => True
  | _, .done .badOptionalAccess | _, .done .outOfRange => False
  | _, .done _ => True
  | _, _ => False

/-- The invariant of the buffer. -/
structure Inv (r : Ring) (s : Shared α) (l : Side → Option (Local α)) : Prop where
  fits : ∀ u x, l u = some x → x.fits u
  head : s.head = BitVec.ofNat 64 s.freed
  tail : s.tail = BitVec.ofNat 64 s.published
  slots : Slots r s (resetting (l .consumer))
  producing : Producing r s (l .producer)
  consuming : Consuming s (l .consumer)

theorem inv_init (r : Ring) : Inv r (init : Shared α) fun _ => none where
  fits u x h := by cases h
  head := rfl
  tail := rfl
  slots := slots_init r
  producing := rfl
  consuming := rfl

section Sides

variable {r : Ring} {s s' : Shared α} {o : Option (Local α)}

theorem Grant.mono {t : SizeT} {k i : ℕ} (h : Grant r s t k i) (htail : s'.tail = s.tail)
    (hemplaced : s'.emplaced.length = s.emplaced.length) (hpublished : s'.published = s.published)
    (hfreed : s.freed ≤ s'.freed) : Grant r s' t k i where
  tail := h.tail.trans htail.symm
  written := by rw [hemplaced, hpublished, h.written]
  room := by
    have hroom := h.room
    omega

theorem Claim.mono {t : SizeT} {k i : ℕ} (h : Claim s t k i) (hhead : s'.head = s.head)
    (hpopped : s'.popped = s.popped) (hfreed : s'.freed = s.freed)
    (hpublished : s.published ≤ s'.published) : Claim s' t k i where
  head := h.head.trans hhead.symm
  read := by rw [hpopped, hfreed, h.read]
  shown := by
    have hshown := h.shown
    omega

theorem Producing.mono (h : Producing r s o) (htail : s'.tail = s.tail)
    (hemplaced : s'.emplaced.length = s.emplaced.length) (hpublished : s'.published = s.published)
    (hfreed : s.freed ≤ s'.freed) : Producing r s' o := by
  rcases o with _ | x
  · show s'.emplaced.length = s'.published
    rw [hemplaced, hpublished]
    exact h
  · cases x with
    | pushBatchEmplace => exact ⟨h.1.mono htail hemplaced hpublished hfreed, h.2⟩
    | pushLoadHead | pushBatchLoadHead | pushEmplace | pushStoreTail | pushBatchStoreTail =>
      exact Grant.mono h htail hemplaced hpublished hfreed
    | _ =>
      show s'.emplaced.length = s'.published
      rw [hemplaced, hpublished]
      exact h

theorem Consuming.mono (h : Consuming s o) (hhead : s'.head = s.head)
    (hpopped : s'.popped = s.popped) (hfreed : s'.freed = s.freed)
    (hpublished : s.published ≤ s'.published) : Consuming s' o := by
  rcases o with _ | x
  · show s'.popped.length = s'.freed
    rw [hpopped, hfreed]
    exact h
  · cases x with
    | popBatchValue | popBatchReset => exact ⟨h.1.mono hhead hpopped hfreed hpublished, h.2⟩
    | popLoadTail | popBatchLoadTail | popValue | popReset | popStoreHead | popBatchStoreHead =>
      exact Claim.mono h hhead hpopped hfreed hpublished
    | _ =>
      show s'.popped.length = s'.freed
      rw [hpopped, hfreed]
      exact h

end Sides

namespace Inv

variable {r : Ring} {s s' : Shared α} {l : Side → Option (Local α)} {x y : Local α}
  {moved : α → α}

theorem produce (h : Inv r s l) {o : Option (Local α)} (hfits : ∀ y, o = some y → y.fits .producer)
    (hhead : s'.head = s.head) (hpopped : s'.popped = s.popped) (hfreed : s'.freed = s.freed)
    (hpublished : s.published ≤ s'.published) (htail : s'.tail = BitVec.ofNat 64 s'.published)
    (hslots : Slots r s' (resetting (l .consumer))) (hproducing : Producing r s' o) :
    Inv r s' (Function.update l .producer o) where
  fits u z hz := by
    rcases update_eq_some hz with ⟨rfl, ho⟩ | ⟨_, hz⟩
    · exact hfits z ho
    · exact h.fits u z hz
  head := by rw [hhead, hfreed, h.head]
  tail := htail
  slots := hslots
  producing := hproducing
  consuming := h.consuming.mono hhead hpopped hfreed hpublished

theorem consume (h : Inv r s l) {o : Option (Local α)} (hfits : ∀ y, o = some y → y.fits .consumer)
    (htail : s'.tail = s.tail) (hemplaced : s'.emplaced.length = s.emplaced.length)
    (hpublished : s'.published = s.published) (hfreed : s.freed ≤ s'.freed)
    (hhead : s'.head = BitVec.ofNat 64 s'.freed) (hslots : Slots r s' (resetting o))
    (hconsuming : Consuming s' o) : Inv r s' (Function.update l .consumer o) where
  fits u z hz := by
    rcases update_eq_some hz with ⟨rfl, ho⟩ | ⟨_, hz⟩
    · exact hfits z ho
    · exact h.fits u z hz
  head := hhead
  tail := by rw [htail, hpublished, h.tail]
  slots := by
    rw [Function.update_self]
    exact hslots
  producing := h.producing.mono htail hemplaced hpublished hfreed
  consuming := by
    rw [Function.update_self]
    exact hconsuming

theorem distance (h : Inv r s l) : (s.tail - s.head).toNat = s.published - s.freed := by
  have hfreed := h.slots.freed_le
  have hpopped := h.slots.popped_le
  have hpublished := h.slots.published_le
  have hroom := h.slots.room
  have hsize := r.size_le
  rw [h.tail, h.head]
  exact toNat_sub_ofNat (by omega) (by omega)

theorem index_emplace (h : Inv r s l) {t i : SizeT} {k : ℕ} (hg : Grant r s t k i.toNat) :
    index r (t + i) = r.slot s.emplaced.length := by
  rw [hg.tail, h.tail, index_ofNat_add, hg.written]

theorem index_pop (h : Inv r s l) {t i : SizeT} {k : ℕ} (hc : Claim s t k i.toNat) :
    index r (t + i) = r.slot s.popped.length := by
  rw [hc.head, h.head, index_ofNat_add, hc.read]

theorem producing_loop (items : List α) (how : Transfer) {t k i : SizeT}
    (hg : Grant r s t k.toNat i.toNat) (hik : i ≤ k) (hlen : k.toNat ≤ items.length) :
    (Local.pushBatchLoop items how t k i).fits .producer ∧
      Producing r s (some (.pushBatchLoop items how t k i)) := by
  unfold Local.pushBatchLoop
  split
  next hlt => exact ⟨trivial, hg, hlt, hlen⟩
  next hge =>
    have he : i = k := BitVec.le_antisymm hik (BitVec.not_lt.mp hge)
    exact ⟨trivial, he ▸ hg⟩

theorem step_producer (h : Inv r s l) (hx : l .producer = some x) (hr : result x = none) (b : Bool) :
    Inv r (step moved r b s x).1
      (Function.update l .producer (some (step moved r b s x).2)) := by
  have hp := h.producing
  have hfits := h.fits _ _ hx
  have hroom := h.slots.room
  have hfreed := h.slots.freed_le
  have hpopped := h.slots.popped_le
  have hpublished := h.slots.published_le
  rw [hx] at hp
  -- a step that only changes the registers
  have hstay : ∀ {y : Local α}, y.fits .producer → Producing r s (some y) →
      Inv r s (Function.update l .producer (some y)) := fun hy hpy =>
    h.produce (fun z hz => Option.some.inj hz ▸ hy) rfl rfl rfl le_rfl h.tail h.slots hpy
  cases x with
  | pushLoadTail item how | pushBatchLoadTail items how =>
    have hlen : s.emplaced.length = s.published := hp
    exact hstay trivial ⟨rfl, hlen, by omega⟩
  | pushLoadHead item how t =>
    have hg : Grant r s t 0 0 := hp
    have hdist := h.distance
    rw [← hg.tail] at hdist
    simp only [step]
    split
    next => exact hstay trivial hg.written
    next hspace =>
      have hlt : (t - s.head).toNat < (count r).toNat := BitVec.not_le.mp hspace
      rw [hdist, toNat_count] at hlt
      exact hstay trivial ⟨hg.tail, hg.written, by omega⟩
  | pushEmplace item how t =>
    have hg : Grant r s t 1 0 := hp
    have hidx := h.index_emplace (i := 0#64) hg
    rw [BitVec.add_zero] at hidx
    have hwritten := hg.written
    have hgrant := hg.room
    simp only [step, hidx]
    refine h.produce ?_ rfl rfl rfl le_rfl h.tail (h.slots.emplace (by omega) item)
      ⟨hg.tail, ?_, hg.room⟩
    · rintro _ ⟨⟩
      trivial
    · rw [Shared.emplace, List.length_append, hwritten]
      rfl
  | pushStoreTail item t =>
    have hg : Grant r s t 1 1 := hp
    refine h.produce ?_ rfl rfl rfl (Nat.le_add_right _ _) ?_
      (h.slots.storeTail hg.written.symm) hg.written
    · rintro _ ⟨⟩
      trivial
    · show t + 1 = BitVec.ofNat 64 (s.published + 1)
      rw [hg.tail, h.tail, BitVec.ofNat_add]
      rfl
  | pushBatchLoadHead items how t =>
    have hg : Grant r s t 0 0 := hp
    have hdist := h.distance
    have hsize := r.size_le
    rw [← hg.tail] at hdist
    have hspace : (count r - (t - s.head)).toNat = r.size - (s.published - s.freed) := by
      rw [BitVec.toNat_sub, toNat_count, hdist]
      omega
    have hlen := items.length_lt
    simp only [step]
    obtain ⟨hy, hpy⟩ := producing_loop items.list how (k := stdMin (BitVec.ofNat 64 items.list.length) (count r - (t - s.head))) (i := 0)
      (s := s) (r := r) (t := t) ⟨hg.tail, hg.written, by
        rw [toNat_stdMin, hspace]
        omega⟩ (Nat.zero_le _ : (0#64).toNat ≤ _) (by
        rw [toNat_stdMin, BitVec.toNat_ofNat]
        omega)
    exact hstay hy hpy
  | pushBatchEmplace items how t k i =>
    obtain ⟨hg, hik, hlen⟩ : Grant r s t k.toNat i.toNat ∧ i < k ∧ k.toNat ≤ items.length := hp
    have hlt : i.toNat < k.toNat := hik
    have hwritten := hg.written
    have hgrant := hg.room
    have hnext := toNat_add_one hik
    have hitem : items[i.toNat]? = some items[i.toNat] := List.getElem?_eq_getElem (by omega)
    simp only [step, hitem, h.index_emplace hg]
    obtain ⟨hy, hpy⟩ := producing_loop
      (items.set i.toNat (how.leaves moved items[i.toNat])) how (k := k) (i := i + 1) (r := r) (t := t)
      (s := s.emplace (r.slot s.emplaced.length) items[i.toNat])
      ⟨hg.tail, by
        rw [hnext, Shared.emplace, List.length_append, hwritten]
        rfl, hg.room⟩ (by
        show (i + 1).toNat ≤ k.toNat
        omega) (by rwa [List.length_set])
    exact h.produce (fun z hz => Option.some.inj hz ▸ hy) rfl rfl rfl le_rfl h.tail
      (h.slots.emplace (by omega) _) hpy
  | pushBatchStoreTail items t k =>
    have hg : Grant r s t k.toNat k.toNat := hp
    refine h.produce ?_ rfl rfl rfl (Nat.le_add_right _ _) ?_
      (h.slots.storeTail hg.written.symm) hg.written
    · rintro _ ⟨⟩
      trivial
    · show t + k = BitVec.ofNat 64 (s.published + k.toNat)
      rw [hg.tail, h.tail, BitVec.ofNat_add, BitVec.ofNat_toNat, BitVec.setWidth_eq]
  | done o => cases hr
  | _ => exact hfits.elim

theorem consuming_loop (out : List α) {t k i : SizeT} (hc : Claim s t k.toNat i.toNat) (hik : i ≤ k) :
    (Local.popBatchLoop t k i out).fits .consumer ∧
      Consuming s (some (.popBatchLoop t k i out)) ∧
        resetting (some (Local.popBatchLoop t k i out)) = 0 := by
  unfold Local.popBatchLoop
  split
  next hlt => exact ⟨trivial, ⟨hc, hlt⟩, rfl⟩
  next hge =>
    have he : i = k := BitVec.le_antisymm hik (BitVec.not_lt.mp hge)
    exact ⟨trivial, he ▸ hc, rfl⟩

theorem step_consumer (h : Inv r s l) (hx : l .consumer = some x) (hr : result x = none) (b : Bool) :
    Inv r (step moved r b s x).1
      (Function.update l .consumer (some (step moved r b s x).2)) := by
  have hc := h.consuming
  have hfits := h.fits _ _ hx
  have hslots := h.slots
  have hpopped := h.slots.popped_le
  rw [hx] at hc hslots
  -- a step that only changes the registers
  have hstay : ∀ {y : Local α}, y.fits .consumer → Slots r s (resetting (some y)) →
      Consuming s (some y) → Inv r s (Function.update l .consumer (some y)) := fun hy hsy hcy =>
    h.consume (fun z hz => Option.some.inj hz ▸ hy) rfl rfl rfl le_rfl h.head hsy hcy
  cases x with
  | popLoadHead | popBatchLoadHead max =>
    have hread : s.popped.length = s.freed := hc
    exact hstay trivial hslots ⟨rfl, hread, by omega⟩
  | popLoadTail t =>
    have hclaim : Claim s t 0 0 := hc
    have hread := hclaim.read
    simp only [step]
    split
    next => exact hstay trivial hslots hread
    next hne =>
      refine hstay trivial hslots ⟨hclaim.head, hread, ?_⟩
      have hdiff : s.freed ≠ s.published := by
        intro he
        rw [hclaim.head, h.head, h.tail, he] at hne
        exact hne rfl
      omega
  | popValue t =>
    have hclaim : Claim s t 1 0 := hc
    have hread := hclaim.read
    have hshown := hclaim.shown
    have hidx := h.index_pop (i := 0#64) hclaim
    rw [BitVec.add_zero] at hidx
    obtain ⟨item, hitem, hnext⟩ := h.slots.next (by omega)
    simp only [step, hidx, hitem]
    refine h.consume ?_ rfl rfl rfl le_rfl h.head (hslots.take (by omega) hnext)
      ⟨hclaim.head, ?_, hshown⟩
    · rintro _ ⟨⟩
      trivial
    · rw [Shared.take, List.length_append, hread]
      rfl
  | popReset t out =>
    have hclaim : Claim s t 1 1 := hc
    have hread := hclaim.read
    have hidx : index r t = r.slot s.freed := by rw [hclaim.head, h.head, index_ofNat]
    simp only [step, hidx]
    refine h.consume ?_ rfl rfl rfl le_rfl h.head (hslots.reset hread le_rfl) ⟨hclaim.head, hread, hclaim.shown⟩
    rintro _ ⟨⟩
    trivial
  | popStoreHead t out =>
    have hclaim : Claim s t 1 1 := hc
    refine h.consume ?_ rfl rfl rfl (Nat.le_add_right _ _) ?_
      (hslots.storeHead hclaim.read.symm) hclaim.read
    · rintro _ ⟨⟩
      trivial
    · show t + 1 = BitVec.ofNat 64 (s.freed + 1)
      rw [hclaim.head, h.head, BitVec.ofNat_add]
      rfl
  | popBatchLoadTail max t =>
    have hclaim : Claim s t 0 0 := hc
    have hdist := h.distance
    have hread := hclaim.read
    rw [← hclaim.head] at hdist
    simp only [step]
    obtain ⟨hy, hcy, hzero⟩ := consuming_loop [] (s := s) (t := t)
      (k := stdMin max (s.tail - t)) (i := 0) ⟨hclaim.head, hread, by
        rw [toNat_stdMin, hdist]
        omega⟩ (Nat.zero_le _ : (0#64).toNat ≤ _)
    exact hstay hy (hzero ▸ hslots) hcy
  | popBatchValue t k i out =>
    obtain ⟨hclaim, hik⟩ : Claim s t k.toNat i.toNat ∧ i < k := hc
    have hlt : i.toNat < k.toNat := hik
    have hread := hclaim.read
    have hshown := hclaim.shown
    obtain ⟨item, hitem, hnext⟩ := h.slots.next (by omega)
    simp only [step, h.index_pop hclaim, hitem]
    refine h.consume ?_ rfl rfl rfl le_rfl h.head (hslots.take (by omega) hnext)
      ⟨⟨hclaim.head, ?_, hshown⟩, hik⟩
    · rintro _ ⟨⟩
      trivial
    · rw [Shared.take, List.length_append, hread]
      rfl
  | popBatchReset t k i out =>
    obtain ⟨hclaim, hik⟩ : Claim s t k.toNat (i.toNat + 1) ∧ i < k := hc
    have hlt : i.toNat < k.toNat := hik
    have hread := hclaim.read
    have hnext := toNat_add_one hik
    have hidx : index r (t + i) = r.slot (s.freed + i.toNat) := by
      rw [hclaim.head, h.head, index_ofNat_add]
    simp only [step, hidx]
    obtain ⟨hy, hcy, hzero⟩ := consuming_loop out (t := t) (k := k) (i := i + 1)
      (s := s.setSlot (r.slot (s.freed + i.toNat)) none)
      ⟨hclaim.head, by rw [hnext]; exact hread, hclaim.shown⟩ (by
        show (i + 1).toNat ≤ k.toNat
        omega)
    refine h.consume (fun z hz => Option.some.inj hz ▸ hy) rfl rfl rfl le_rfl h.head ?_ hcy
    rw [hzero]
    exact hslots.reset (by omega) (by omega)
  | popBatchStoreHead t k out =>
    have hclaim : Claim s t k.toNat k.toNat := hc
    refine h.consume ?_ rfl rfl rfl (Nat.le_add_right _ _) ?_
      (hslots.storeHead hclaim.read.symm) hclaim.read
    · rintro _ ⟨⟩
      trivial
    · show t + k = BitVec.ofNat 64 (s.freed + k.toNat)
      rw [hclaim.head, h.head, BitVec.ofNat_add, BitVec.ofNat_toNat, BitVec.setWidth_eq]
  | done o => cases hr
  | _ => exact hfits.elim

end Inv

/-- Every step keeps the invariant. -/
theorem inv_inductive (moved : α → α) (r : Ring) :
    (object moved r).Inductive may (fun _ _ => True) (Inv (α := α) r) where
  call {s l t op} h hl hmay := by
    cases t with
    | producer =>
      have hp := h.producing
      rw [hl] at hp
      cases op with
      | tryPush | tryPushBatch =>
        refine h.produce ?_ rfl rfl rfl le_rfl h.tail h.slots hp
        rintro _ ⟨⟩
        trivial
      | _ => cases hmay
    | consumer =>
      have hc := h.consuming
      have hslots := h.slots
      rw [hl] at hc hslots
      cases op with
      | tryPop | tryPopBatch =>
        refine h.consume ?_ rfl rfl rfl le_rfl h.head hslots hc
        rintro _ ⟨⟩
        trivial
      | _ => cases hmay
  step {s l t x} b h hx hr _ := by
    cases t with
    | producer => exact h.step_producer hx hr b
    | consumer => exact h.step_consumer hx hr b
  ret {s l t x o} h hx hr := by
    cases x with
    | done o' =>
      cases t with
      | producer =>
        have hp := h.producing
        rw [hx] at hp
        exact h.produce (fun z hz => by cases hz) rfl rfl rfl le_rfl h.tail h.slots hp
      | consumer =>
        have hc := h.consuming
        have hslots := h.slots
        rw [hx] at hc hslots
        exact h.consume (fun z hz => by cases hz) rfl rfl rfl le_rfl h.head hslots hc
    | _ => cases hr

end LowLatency.SPSCRingBuffer
