import LowLatency.SPSCRingBuffer.Invariant

/-!
# The ring buffer is a bounded FIFO queue

`fifo`: in every reachable configuration the popped items are a prefix of the pushed ones, no more
items are held than there are slots, no unread item is overwritten and no empty slot is read; every
step is a step of a FIFO queue of `r.size` places (`FifoStep`), and every operation transfers as many
items as the two counters it has loaded allow.

An operation is followed from its call on: `Begun` until it loads the other side's counter, from then
on `Progress`, with the items transferred so far.
-/

namespace LowLatency.SPSCRingBuffer

open Concurrency

variable {α : Type*}

/-! ## The specification -/

/-- A step of a FIFO queue of `cap` places. -/
inductive FifoStep (cap : ℕ) : List α → List α → Prop
  | stay (q : List α) : FifoStep cap q q
  | push (q xs : List α) : q.length + xs.length ≤ cap → FifoStep cap q (q ++ xs)
  | pop (q : List α) (k : ℕ) : FifoStep cap q (q.drop k)

/-- What the FIFO queue holds: the items handed over whose slots were not given back. -/
def Shared.queue (s : Shared α) : List α := s.pushed.drop s.freed

/-- What a side has transferred. -/
def Shared.transferred (s : Shared α) : Side → List α
  | .producer => s.pushed
  | .consumer => s.popped

/-- How many items an operation transfers that has loaded `t` from the own counter and loads the other
one in `s`. -/
def Op.transfers (r : Ring) (s : Shared α) (t : SizeT) : Op α → ℕ
  | .tryPush _ _ => min 1 (r.size - (t - s.head).toNat)
  | .tryPushBatch items _ => min items.list.length (r.size - (t - s.head).toNat)
  | .tryPop => min 1 (s.tail - t).toNat
  | .tryPopBatch max => min max.toNat (s.tail - t).toNat

/-- The caller's array after `k` items were transferred. -/
def Transfer.rest (moved : α → α) (how : Transfer) (items : List α) (k : ℕ) : List α :=
  (items.take k).map (how.leaves moved) ++ items.drop k

/-- What an operation returns that has transferred the given items. -/
inductive Answers (moved : α → α) : Op α → List α → Result α → Prop
  | full (item : α) (how : Transfer) : Answers moved (.tryPush item how) [] (.pushed false item)
  | pushed (item : α) (how : Transfer) :
    Answers moved (.tryPush item how) [item] (.pushed true (how.leaves moved item))
  | pushedBatch (items : Items α) (how : Transfer) (k : SizeT) :
    Answers moved (.tryPushBatch items how) (items.list.take k.toNat)
      (.pushedBatch k (how.rest moved items.list k.toNat))
  | empty : Answers moved .tryPop [] .empty
  | popped (out : α) : Answers moved .tryPop [out] (.popped out)
  | poppedBatch (max k : SizeT) (out : List α) :
    out.length = k.toNat → Answers moved (.tryPopBatch max) out (.poppedBatch k out)

/-- The own counter, when the next access loads the other one. -/
def Local.loadsOther : Local α → Option SizeT
  | .pushLoadHead _ _ t | .pushBatchLoadHead _ _ t | .popLoadTail t | .popBatchLoadTail _ t => some t
  | _ => none

/-- The operation in progress on a side does not return. -/
def during (u : Side) (_ : Config Side (Shared α) (Local α)) (a : Action Side (Op α)) : Prop :=
  a ≠ .ret u

/-- What holds of the buffer at any time. -/
structure Fifo (moved : α → α) (r : Ring) (c : Config Side (Shared α) (Local α)) : Prop where
  order : c.shared.popped <+: c.shared.pushed
  held : c.shared.emplaced.length ≤ c.shared.popped.length + r.size
  free : ∀ x j, c.locals .producer = some x → x.emplaces r = some j → c.shared.buffer j = none
  unread : ∀ x j, c.locals .consumer = some x → x.values r = some j →
    ∃ item, c.shared.buffer j = some item ∧ c.shared.pushed[c.shared.popped.length]? = some item
  step : ∀ a c', (system moved r).next c a = some c' →
    FifoStep r.size c.shared.queue c'.shared.queue
  /-- The load of the other counter, by which the operation goes from `d` to `d'`, settles how many
  items it transfers. -/
  transfer : ∀ u op c₁ c₂ res, (system moved r).next c (.call u op) = some c₁ →
    (system moved r).Reach (during u) c₁ c₂ → c₂.locals u = some (.done res) →
    ∃ d d' b x t xs, (system moved r).Reach (during u) c₁ d ∧
      (system moved r).next d (.step u b) = some d' ∧ (system moved r).Reach (during u) d' c₂ ∧
      d.locals u = some x ∧ x.loadsOther = some t ∧ xs.length = op.transfers r d.shared t ∧
      Answers moved op xs res ∧ c₂.shared.transferred u = c.shared.transferred u ++ xs

/-! ## Slots of the next accesses -/

section Accesses

variable {r : Ring} {s : Shared α} {l : Side → Option (Local α)} {x : Local α} {j : ℕ}

theorem Inv.emplaces_free (h : Inv r s l) (hx : l .producer = some x) (hj : x.emplaces r = some j) :
    s.buffer j = none := by
  have hp := h.producing
  rw [hx] at hp
  cases x with
  | pushEmplace item how t =>
    have hg : Grant r s t 1 0 := hp
    have hwritten := hg.written
    have hroom := hg.room
    have hidx := h.index_emplace (i := 0#64) hg
    rw [BitVec.add_zero] at hidx
    cases hj
    rw [hidx]
    exact h.slots.empty_end (by omega)
  | pushBatchEmplace items how t k i =>
    obtain ⟨hg, hik, -⟩ : Grant r s t k.toNat i.toNat ∧ i < k ∧ k.toNat ≤ items.length := hp
    have hlt : i.toNat < k.toNat := hik
    have hwritten := hg.written
    have hroom := hg.room
    cases hj
    rw [h.index_emplace hg]
    exact h.slots.empty_end (by omega)
  | _ => cases hj

theorem Slots.next_pushed {m : ℕ} (h : Slots r s m) (hlt : s.popped.length < s.published) :
    ∃ item, s.buffer (r.slot s.popped.length) = some item ∧
      s.pushed[s.popped.length]? = some item := by
  obtain ⟨item, hitem, hnext⟩ := h.next hlt
  refine ⟨item, hitem, ?_⟩
  rw [Shared.pushed, List.getElem?_take, if_pos hlt]
  exact hnext

theorem Inv.values_unread (h : Inv r s l) (hx : l .consumer = some x) (hj : x.values r = some j) :
    ∃ item, s.buffer j = some item ∧ s.pushed[s.popped.length]? = some item := by
  have hc := h.consuming
  rw [hx] at hc
  cases x with
  | popValue t =>
    have hclaim : Claim s t 1 0 := hc
    have hread := hclaim.read
    have hshown := hclaim.shown
    have hidx := h.index_pop (i := 0#64) hclaim
    rw [BitVec.add_zero] at hidx
    cases hj
    rw [hidx]
    exact h.slots.next_pushed (by omega)
  | popBatchValue t k i out =>
    obtain ⟨hclaim, hik⟩ : Claim s t k.toNat i.toNat ∧ i < k := hc
    have hlt : i.toNat < k.toNat := hik
    have hread := hclaim.read
    have hshown := hclaim.shown
    cases hj
    rw [h.index_pop hclaim]
    exact h.slots.next_pushed (by omega)
  | _ => cases hj

end Accesses

/-! ## Every step is a step of the queue -/

section Queue

variable {r : Ring} {s s' : Shared α} {m : ℕ}

theorem Slots.queue_length (h : Slots r s m) : s.queue.length = s.published - s.freed := by
  rw [Shared.queue, Shared.pushed, List.length_drop, List.length_take, min_eq_left h.published_le]

theorem Slots.order_pushed (h : Slots r s m) : s.popped <+: s.pushed := by
  refine List.prefix_of_prefix_length_le h.order (List.take_prefix _ _) ?_
  rw [Shared.pushed, List.length_take, min_eq_left h.published_le]
  exact h.popped_le

theorem Slots.pushed_append (h : Slots r s m) (hemplaced : s.emplaced <+: s'.emplaced) {k : ℕ}
    (hpublished : s'.published = s.published + k) :
    s'.pushed = s.pushed ++ (s'.emplaced.drop s.published).take k := by
  obtain ⟨rest, hrest⟩ := hemplaced
  rw [Shared.pushed, Shared.pushed, hpublished, ← hrest, List.take_add,
    List.take_append_of_le_length h.published_le]

theorem FifoStep.of_push (h : Slots r s m) {m' : ℕ} (h' : Slots r s' m')
    (hemplaced : s.emplaced <+: s'.emplaced) (hpublished : s.published ≤ s'.published)
    (hfreed : s'.freed = s.freed) : FifoStep r.size s.queue s'.queue := by
  obtain ⟨k, hk⟩ := Nat.exists_eq_add_of_le hpublished
  have happend := h.pushed_append hemplaced hk
  have hle : s.freed ≤ s.pushed.length := by
    rw [Shared.pushed, List.length_take, min_eq_left h.published_le]
    exact h.freed_le.trans h.popped_le
  have hqueue : s'.queue = s.queue ++ (s'.emplaced.drop s.published).take k := by
    rw [Shared.queue, happend, hfreed, List.drop_append_of_le_length hle, Shared.queue]
  have hlen := h'.queue_length
  have hroom := h'.room
  have hpub := h'.published_le
  rw [hqueue, List.length_append] at hlen
  rw [hqueue]
  exact .push _ _ (by omega)

theorem FifoStep.of_pop (hpushed : s'.pushed = s.pushed) (hfreed : s.freed ≤ s'.freed) :
    FifoStep r.size s.queue s'.queue := by
  obtain ⟨k, hk⟩ := Nat.exists_eq_add_of_le hfreed
  have hqueue : s'.queue = s.queue.drop k := by
    rw [Shared.queue, Shared.queue, hpushed, hk, List.drop_drop]
  rw [hqueue]
  exact .pop _ _

end Queue

/-! ## What each side leaves alone -/

section Frame

variable {moved : α → α} {r : Ring} {b : Bool} {s : Shared α} {x : Local α}

/-- The items a side has put into slots, or moved out of them. -/
def Shared.history (s : Shared α) : Side → List α
  | .producer => s.emplaced
  | .consumer => s.popped

theorem step_producer_frame (hx : x.fits .producer) :
    (step moved r b s x).1.popped = s.popped ∧ (step moved r b s x).1.freed = s.freed ∧
      s.emplaced <+: (step moved r b s x).1.emplaced ∧
      s.published ≤ (step moved r b s x).1.published := by
  cases x with
  | pushLoadHead item how t =>
    simp only [step]
    split <;> exact ⟨rfl, rfl, List.prefix_refl _, le_rfl⟩
  | pushEmplace => exact ⟨rfl, rfl, List.prefix_append _ _, le_rfl⟩
  | pushStoreTail | pushBatchStoreTail => exact ⟨rfl, rfl, List.prefix_refl _, Nat.le_add_right _ _⟩
  | pushBatchEmplace items how t k i =>
    simp only [step]
    split
    · exact ⟨rfl, rfl, List.prefix_refl _, le_rfl⟩
    · exact ⟨rfl, rfl, List.prefix_append _ _, le_rfl⟩
  | pushLoadTail | pushBatchLoadTail | pushBatchLoadHead | done =>
    exact ⟨rfl, rfl, List.prefix_refl _, le_rfl⟩
  | _ => exact hx.elim

theorem step_consumer_frame (hx : x.fits .consumer) :
    (step moved r b s x).1.emplaced = s.emplaced ∧ (step moved r b s x).1.published = s.published ∧
      s.freed ≤ (step moved r b s x).1.freed := by
  cases x with
  | popLoadTail t =>
    simp only [step]
    split <;> exact ⟨rfl, rfl, le_rfl⟩
  | popValue t =>
    simp only [step]
    split <;> exact ⟨rfl, rfl, le_rfl⟩
  | popBatchValue t k i out =>
    simp only [step]
    split <;> exact ⟨rfl, rfl, le_rfl⟩
  | popStoreHead | popBatchStoreHead => exact ⟨rfl, rfl, Nat.le_add_right _ _⟩
  | popLoadHead | popReset | popBatchLoadHead | popBatchLoadTail | popBatchReset | done =>
    exact ⟨rfl, rfl, le_rfl⟩
  | _ => exact hx.elim

theorem step_history {t u : Side} (hx : x.fits t) (hne : u ≠ t) :
    (step moved r b s x).1.history u = s.history u := by
  cases t with
  | producer =>
    cases u with
    | producer => exact absurd rfl hne
    | consumer => exact (step_producer_frame hx).1
  | consumer =>
    cases u with
    | producer => exact (step_consumer_frame hx).1
    | consumer => exact absurd rfl hne

end Frame

/-! ## An operation from its call to its return -/

/-- The operation has not loaded the other side's counter. -/
inductive Begun : Op α → Local α → Prop
  | start (op : Op α) : Begun op (start op)
  | pushLoadHead (item : α) (how : Transfer) (t : SizeT) :
    Begun (.tryPush item how) (.pushLoadHead item how t)
  | pushBatchLoadHead (items : Items α) (how : Transfer) (t : SizeT) :
    Begun (.tryPushBatch items how) (.pushBatchLoadHead items how t)
  | popLoadTail (h : SizeT) : Begun .tryPop (.popLoadTail h)
  | popBatchLoadTail (max h : SizeT) : Begun (.tryPopBatch max) (.popBatchLoadTail max h)

/-- The operation transfers `k` items and has transferred `xs` of them. -/
inductive Progress (moved : α → α) : Op α → ℕ → Local α → List α → Prop
  | pushFull (item : α) (how : Transfer) :
    Progress moved (.tryPush item how) 0 (.done (.pushed false item)) []
  | pushEmplace (item : α) (how : Transfer) (t : SizeT) :
    Progress moved (.tryPush item how) 1 (.pushEmplace item how t) []
  | pushStoreTail (item : α) (how : Transfer) (t : SizeT) :
    Progress moved (.tryPush item how) 1 (.pushStoreTail (how.leaves moved item) t) [item]
  | pushDone (item : α) (how : Transfer) :
    Progress moved (.tryPush item how) 1 (.done (.pushed true (how.leaves moved item))) [item]
  | pushBatchEmplace (items : Items α) (how : Transfer) (t k i : SizeT) : i < k →
    k.toNat ≤ items.list.length →
    Progress moved (.tryPushBatch items how) k.toNat
      (.pushBatchEmplace (how.rest moved items.list i.toNat) how t k i) (items.list.take i.toNat)
  | pushBatchStoreTail (items : Items α) (how : Transfer) (t k : SizeT) :
    k.toNat ≤ items.list.length →
    Progress moved (.tryPushBatch items how) k.toNat
      (.pushBatchStoreTail (how.rest moved items.list k.toNat) t k) (items.list.take k.toNat)
  | pushBatchDone (items : Items α) (how : Transfer) (k : SizeT) : k.toNat ≤ items.list.length →
    Progress moved (.tryPushBatch items how) k.toNat
      (.done (.pushedBatch k (how.rest moved items.list k.toNat))) (items.list.take k.toNat)
  | popEmpty : Progress moved .tryPop 0 (.done .empty) []
  | popValue (h : SizeT) : Progress moved .tryPop 1 (.popValue h) []
  | popReset (h : SizeT) (out : α) : Progress moved .tryPop 1 (.popReset h out) [out]
  | popStoreHead (h : SizeT) (out : α) : Progress moved .tryPop 1 (.popStoreHead h out) [out]
  | popDone (out : α) : Progress moved .tryPop 1 (.done (.popped out)) [out]
  | popBatchValue (max h k i : SizeT) (out : List α) : i < k → out.length = i.toNat →
    Progress moved (.tryPopBatch max) k.toNat (.popBatchValue h k i out) out
  | popBatchReset (max h k i : SizeT) (out : List α) : i < k → out.length = i.toNat + 1 →
    Progress moved (.tryPopBatch max) k.toNat (.popBatchReset h k i out) out
  | popBatchStoreHead (max h k : SizeT) (out : List α) : out.length = k.toNat →
    Progress moved (.tryPopBatch max) k.toNat (.popBatchStoreHead h k out) out
  | popBatchDone (max k : SizeT) (out : List α) : out.length = k.toNat →
    Progress moved (.tryPopBatch max) k.toNat (.done (.poppedBatch k out)) out

section Progress

variable {moved : α → α} {r : Ring} {b : Bool} {s : Shared α} {l : Side → Option (Local α)}
  {x : Local α} {op : Op α} {k : ℕ} {xs : List α} {res : Result α}

theorem Progress.done (h : Progress moved op k (.done res) xs) :
    xs.length = k ∧ Answers moved op xs res := by
  cases h with
  | pushFull item how => exact ⟨rfl, .full item how⟩
  | pushDone item how => exact ⟨rfl, .pushed item how⟩
  | pushBatchDone items how k hk =>
    exact ⟨by rw [List.length_take, min_eq_left hk], .pushedBatch items how k⟩
  | popEmpty => exact ⟨rfl, .empty⟩
  | popDone out => exact ⟨rfl, .popped out⟩
  | popBatchDone max k xs hk => exact ⟨hk, .poppedBatch max k _ hk⟩

theorem Progress.pushBatchLoop (items : Items α) (how : Transfer) (t : SizeT) {k i : SizeT}
    (hik : i.toNat ≤ k.toNat) (hk : k.toNat ≤ items.list.length) :
    Progress moved (.tryPushBatch items how) k.toNat
      (.pushBatchLoop (how.rest moved items.list i.toNat) how t k i) (items.list.take i.toNat) := by
  unfold Local.pushBatchLoop
  split
  next hlt => exact .pushBatchEmplace items how t k i hlt hk
  next hge =>
    have he : i = k := BitVec.le_antisymm hik (BitVec.not_lt.mp hge)
    rw [he]
    exact .pushBatchStoreTail items how t k hk

theorem Progress.popBatchLoop (max h : SizeT) {k i : SizeT} (hik : i.toNat ≤ k.toNat)
    (hlen : xs.length = i.toNat) :
    Progress moved (.tryPopBatch max) k.toNat (.popBatchLoop h k i xs) xs := by
  unfold Local.popBatchLoop
  split
  next hlt => exact .popBatchValue max h k i xs hlt hlen
  next hge =>
    have he : i = k := BitVec.le_antisymm hik (BitVec.not_lt.mp hge)
    exact .popBatchStoreHead max h k xs (he ▸ hlen)

theorem rest_set (how : Transfer) {items : List α} {i : ℕ} (hi : i < items.length) :
    (how.rest moved items i)[i]? = some items[i] ∧
      (how.rest moved items i).set i (how.leaves moved items[i]) = how.rest moved items (i + 1) := by
  have hlen : ((items.take i).map (how.leaves moved)).length = i := by
    rw [List.length_map, List.length_take, min_eq_left hi.le]
  have hdrop : items.drop i = items[i] :: items.drop (i + 1) := List.drop_eq_getElem_cons hi
  unfold Transfer.rest
  constructor
  · rw [List.getElem?_append_right hlen.le, hlen, Nat.sub_self, hdrop]
    rfl
  · rw [List.set_append_right _ _ hlen.le, hlen, Nat.sub_self, hdrop, List.take_succ_eq_append_getElem hi,
      List.map_append, List.append_assoc]
    rfl

/-- The access that loads the other side's counter settles how many items are transferred. -/
theorem Begun.step {u : Side} (h : Begun op x) (hinv : Inv r s l) (hx : l u = some x) :
    (step moved r b s x).1 = s ∧ (Begun op (step moved r b s x).2 ∨ ∃ t, x.loadsOther = some t ∧
      Progress moved op (op.transfers r s t) (step moved r b s x).2 []) := by
  have hfits := hinv.fits _ _ hx
  cases h with
  | start =>
    cases op with
    | tryPush item how => exact ⟨rfl, .inl (.pushLoadHead item how _)⟩
    | tryPushBatch items how => exact ⟨rfl, .inl (.pushBatchLoadHead items how _)⟩
    | tryPop => exact ⟨rfl, .inl (.popLoadTail _)⟩
    | tryPopBatch max => exact ⟨rfl, .inl (.popBatchLoadTail max _)⟩
  | pushLoadHead item how t =>
    simp only [SPSCRingBuffer.step]
    split
    next hfull =>
      have hle : (count r).toNat ≤ (t - s.head).toNat := hfull
      rw [toNat_count] at hle
      have hk : Op.transfers r s t (.tryPush item how) = 0 := by
        rw [Op.transfers, Nat.sub_eq_zero_of_le hle, Nat.min_zero]
      refine ⟨rfl, .inr ⟨t, rfl, ?_⟩⟩
      rw [hk]
      exact .pushFull item how
    next hspace =>
      have hlt : (t - s.head).toNat < (count r).toNat := BitVec.not_le.mp hspace
      rw [toNat_count] at hlt
      have hk : Op.transfers r s t (.tryPush item how) = 1 := min_eq_left (by omega)
      refine ⟨rfl, .inr ⟨t, rfl, ?_⟩⟩
      rw [hk]
      exact .pushEmplace item how t
  | pushBatchLoadHead items how t =>
    cases u with
    | consumer => exact hfits.elim
    | producer =>
      have hg : Grant r s t 0 0 := by
        have hp := hinv.producing
        rwa [hx] at hp
      have hdist := hinv.distance
      have hroom := hg.room
      have hsize := r.size_le
      have hlen := items.length_lt
      rw [← hg.tail] at hdist
      have hspace : (count r - (t - s.head)).toNat = r.size - (t - s.head).toNat := by
        rw [BitVec.toNat_sub, toNat_count]
        omega
      have hk : Op.transfers r s t (.tryPushBatch items how) =
          (stdMin (BitVec.ofNat 64 items.list.length) (count r - (t - s.head))).toNat := by
        rw [toNat_stdMin, hspace, BitVec.toNat_ofNat, Nat.mod_eq_of_lt hlen]
        rfl
      refine ⟨rfl, .inr ⟨t, rfl, ?_⟩⟩
      rw [hk]
      exact .pushBatchLoop items how t (i := 0#64) (Nat.zero_le _) (by
        rw [toNat_stdMin, BitVec.toNat_ofNat, Nat.mod_eq_of_lt hlen]
        exact min_le_left _ _)
  | popLoadTail t =>
    simp only [SPSCRingBuffer.step]
    split
    next he =>
      have hk : Op.transfers r s t (Op.tryPop (α := α)) = 0 := by
        rw [Op.transfers, he, BitVec.sub_self]
        rfl
      refine ⟨rfl, .inr ⟨t, rfl, ?_⟩⟩
      rw [hk]
      exact .popEmpty
    next hne =>
      have hpos : (s.tail - t).toNat ≠ 0 := by
        intro hzero
        have hsub : s.tail - t = 0#64 := BitVec.eq_of_toNat_eq hzero
        have heq : s.tail - t + t = 0#64 + t := by rw [hsub]
        rw [BitVec.sub_add_cancel, BitVec.zero_add] at heq
        exact hne heq.symm
      have hk : Op.transfers r s t (Op.tryPop (α := α)) = 1 := min_eq_left (by omega)
      refine ⟨rfl, .inr ⟨t, rfl, ?_⟩⟩
      rw [hk]
      exact .popValue t
  | popBatchLoadTail max t =>
    have hk : Op.transfers r s t (Op.tryPopBatch (α := α) max) =
        (stdMin max (s.tail - t)).toNat := (toNat_stdMin _ _).symm
    refine ⟨rfl, .inr ⟨t, rfl, ?_⟩⟩
    rw [hk]
    exact .popBatchLoop max t (i := 0#64) (Nat.zero_le _) rfl

theorem Progress.step {u : Side} (h : Progress moved op k x xs) (hinv : Inv r s l) (hx : l u = some x)
    (hr : result x = none) : ∃ ys, Progress moved op k (step moved r b s x).2 (xs ++ ys) ∧
      (step moved r b s x).1.history u = s.history u ++ ys := by
  have hfits := hinv.fits _ _ hx
  cases h with
  | pushFull | pushDone | pushBatchDone | popEmpty | popDone | popBatchDone => cases hr
  | pushEmplace item how t =>
    cases u with
    | consumer => exact hfits.elim
    | producer => exact ⟨[item], .pushStoreTail item how t, rfl⟩
  | pushStoreTail item how t =>
    cases u with
    | consumer => exact hfits.elim
    | producer => exact ⟨[], .pushDone item how, (List.append_nil _).symm⟩
  | pushBatchEmplace items how t k i hik hk =>
    cases u with
    | consumer => exact hfits.elim
    | producer =>
      have hlt : i.toNat < items.list.length := lt_of_lt_of_le hik hk
      obtain ⟨hget, hset⟩ :
          (how.rest moved items.list i.toNat)[i.toNat]? = some items.list[i.toNat] ∧
          (how.rest moved items.list i.toNat).set i.toNat (how.leaves moved items.list[i.toNat]) =
            how.rest moved items.list (i.toNat + 1) := rest_set how hlt
      have hnext := toNat_add_one hik
      have hle : (i + 1).toNat ≤ k.toNat := by
        have hik : i.toNat < k.toNat := hik
        omega
      simp only [SPSCRingBuffer.step, hget, hset]
      refine ⟨[items.list[i.toNat]], ?_, rfl⟩
      rw [← List.take_succ_eq_append_getElem hlt, ← hnext]
      exact .pushBatchLoop items how t hle hk
  | pushBatchStoreTail items how t k hk =>
    cases u with
    | consumer => exact hfits.elim
    | producer =>
      refine ⟨[], ?_, (List.append_nil _).symm⟩
      rw [List.append_nil]
      exact .pushBatchDone items how k hk
  | popValue t =>
    cases u with
    | producer => exact hfits.elim
    | consumer =>
      obtain ⟨item, hitem, -⟩ := hinv.values_unread hx rfl
      simp only [SPSCRingBuffer.step, hitem]
      exact ⟨[item], .popReset t item, rfl⟩
  | popReset t out =>
    cases u with
    | producer => exact hfits.elim
    | consumer => exact ⟨[], .popStoreHead t out, (List.append_nil _).symm⟩
  | popStoreHead t out =>
    cases u with
    | producer => exact hfits.elim
    | consumer => exact ⟨[], .popDone out, (List.append_nil _).symm⟩
  | popBatchValue max t k i out hik hlen =>
    cases u with
    | producer => exact hfits.elim
    | consumer =>
      obtain ⟨item, hitem, -⟩ := hinv.values_unread hx rfl
      simp only [SPSCRingBuffer.step, hitem]
      refine ⟨[item], .popBatchReset max t k i _ hik ?_, rfl⟩
      rw [List.length_append, hlen]
      rfl
  | popBatchReset max t k i out hik hlen =>
    cases u with
    | producer => exact hfits.elim
    | consumer =>
      have hnext := toNat_add_one hik
      have hle : (i + 1).toNat ≤ k.toNat := by
        have hik : i.toNat < k.toNat := hik
        omega
      refine ⟨[], ?_, (List.append_nil _).symm⟩
      rw [List.append_nil]
      exact .popBatchLoop max t hle (hlen.trans hnext.symm)
  | popBatchStoreHead max t k out hlen =>
    cases u with
    | producer => exact hfits.elim
    | consumer =>
      refine ⟨[], ?_, (List.append_nil _).symm⟩
      rw [List.append_nil]
      exact .popBatchDone max k _ hlen

end Progress

section Runs

variable {moved : α → α} {r : Ring} {c c₁ c₂ : Config Side (Shared α) (Local α)} {u : Side}
  {op : Op α}

theorem Inv.next (h : Inv r c.shared c.locals) {a : Action Side (Op α)}
    (hn : (system moved r).next c a = some c₁) : Inv r c₁.shared c₁.locals :=
  (inv_inductive moved r).next h (by cases a <;> simp [Object.Guard]) hn

/-- Where an operation is that was called when `u` had transferred `old`. -/
def Underway (moved : α → α) (r : Ring) (u : Side) (op : Op α) (old : List α)
    (c₁ c₂ : Config Side (Shared α) (Local α)) : Prop :=
  ∃ y, c₂.locals u = some y ∧ ((Begun op y ∧ c₂.shared.history u = old) ∨
    ∃ d d' b x t xs, (system moved r).Reach (during u) c₁ d ∧
      (system moved r).next d (.step u b) = some d' ∧ (system moved r).Reach (during u) d' c₂ ∧
      d.locals u = some x ∧ x.loadsOther = some t ∧
      Progress moved op (op.transfers r d.shared t) y xs ∧ c₂.shared.history u = old ++ xs)

theorem Underway.next {old : List α} (h : Underway moved r u op old c c₁)
    (hreach : (system moved r).Reach (during u) c c₁) (hinv : Inv r c₁.shared c₁.locals)
    {a : Action Side (Op α)} (ha : during u c₁ a) (hn : (system moved r).next c₁ a = some c₂) :
    Underway moved r u op old c c₂ := by
  have hreach' := hreach.tail ha hn
  obtain ⟨y, hy, hcase⟩ := h
  -- the other side moves: the operation stays where it is
  have hstay : c₂.locals u = some y → c₂.shared.history u = c₁.shared.history u →
      Underway moved r u op old c c₂ := by
    intro hy' hhist
    refine ⟨y, hy', ?_⟩
    rcases hcase with
      ⟨hbegun, hold⟩ | ⟨d, d', b, x, t, xs, hcd, hload, hdc, hx, ht, hprogress, hold⟩
    · exact .inl ⟨hbegun, hhist.trans hold⟩
    · exact .inr ⟨d, d', b, x, t, xs, hcd, hload, hdc.tail ha hn, hx, ht, hprogress,
        hhist.trans hold⟩
  cases a with
  | call v op' =>
    obtain ⟨hl, -, rfl⟩ := Object.next_call hn
    have hne : u ≠ v := by
      rintro rfl
      rw [hy] at hl
      cases hl
    exact hstay ((Function.update_of_ne hne ..).trans hy) rfl
  | ret v =>
    obtain ⟨x, res, hx, hr, rfl⟩ := Object.next_ret hn
    have hne : u ≠ v := by
      rintro rfl
      exact ha rfl
    exact hstay ((Function.update_of_ne hne ..).trans hy) rfl
  | step v b =>
    obtain ⟨x, hx, hr, rfl⟩ := Object.next_step hn
    by_cases hv : u = v
    · subst hv
      obtain rfl := Option.some.inj (hy.symm.trans hx)
      refine ⟨_, Function.update_self .., ?_⟩
      rcases hcase with
        ⟨hbegun, hold⟩ | ⟨d, d', b', x, t, xs, hcd, hload, hdc, hx', ht, hprogress, hold⟩
      · obtain ⟨hs, hbegun' | ⟨t, ht, hprogress⟩⟩ :
            (SPSCRingBuffer.step moved r b c₁.shared y).1 = c₁.shared ∧
            (Begun op (SPSCRingBuffer.step moved r b c₁.shared y).2 ∨ ∃ t, y.loadsOther = some t ∧
              Progress moved op (op.transfers r c₁.shared t)
                (SPSCRingBuffer.step moved r b c₁.shared y).2 []) := hbegun.step hinv hy
        · exact .inl ⟨hbegun', (congrArg (Shared.history · u) hs).trans hold⟩
        · refine .inr ⟨c₁, _, b, y, t, [], hreach, hn, .refl, hy, ht, hprogress, ?_⟩
          rw [List.append_nil]
          exact (congrArg (Shared.history · u) hs).trans hold
      · obtain ⟨ys, hys, hhist⟩ := hprogress.step (b := b) hinv hy hr
        refine .inr ⟨d, d', b', x, t, xs ++ ys, hcd, hload, hdc.tail ha hn, hx', ht, hys, ?_⟩
        rw [← List.append_assoc, ← hold]
        exact hhist
    · exact hstay ((Function.update_of_ne hv ..).trans hy) (step_history (hinv.fits _ _ hx) hv)

theorem Underway.run {old : List α} (h : Underway moved r u op old c c)
    (hinv : Inv r c.shared c.locals) (hrun : (system moved r).Reach (during u) c c₁) :
    Underway moved r u op old c c₁ ∧ Inv r c₁.shared c₁.locals := by
  induction hrun with
  | refl => exact ⟨h, hinv⟩
  | tail hreach hs ih =>
    obtain ⟨a, ha, hn⟩ := hs
    obtain ⟨hunder, hinv'⟩ := ih
    exact ⟨hunder.next hreach hinv' ha hn, hinv'.next hn⟩

theorem Inv.transferred_eq (h : Inv r c.shared c.locals)
    (hidle : ∀ y, c.locals u = some y → ∃ res, y = .done res) :
    c.shared.transferred u = c.shared.history u := by
  cases u with
  | consumer => rfl
  | producer =>
    have hp : c.shared.emplaced.length = c.shared.published := by
      have hproducing := h.producing
      cases hl : c.locals .producer with
      | none =>
        rw [hl] at hproducing
        exact hproducing
      | some y =>
        obtain ⟨res, rfl⟩ := hidle y hl
        rw [hl] at hproducing
        exact hproducing
    exact List.take_of_length_le hp.le

theorem Inv.fifoStep (h : Inv r c.shared c.locals) {a : Action Side (Op α)}
    (hn : (system moved r).next c a = some c₁) : FifoStep r.size c.shared.queue c₁.shared.queue := by
  have h' := h.next hn
  cases a with
  | call v op' =>
    obtain ⟨-, -, rfl⟩ := Object.next_call hn
    exact .stay _
  | ret v =>
    obtain ⟨x, res, -, -, rfl⟩ := Object.next_ret hn
    exact .stay _
  | step v b =>
    obtain ⟨x, hx, -, rfl⟩ := Object.next_step hn
    have hfits := h.fits _ _ hx
    cases v with
    | producer =>
      obtain ⟨-, hfreed, hemplaced, hpublished⟩ :
          (SPSCRingBuffer.step moved r b c.shared x).1.popped = c.shared.popped ∧ _ :=
        step_producer_frame hfits
      exact .of_push h.slots h'.slots hemplaced hpublished hfreed
    | consumer =>
      obtain ⟨hemplaced, hpublished, hfreed⟩ :
          (SPSCRingBuffer.step moved r b c.shared x).1.emplaced = c.shared.emplaced ∧ _ :=
        step_consumer_frame hfits
      refine .of_pop ?_ hfreed
      rw [Shared.pushed, Shared.pushed]
      exact congrArg₂ (fun xs n => List.take n xs) hemplaced hpublished

/-- **The buffer is a bounded FIFO queue.** Whatever a move leaves behind, for every size of the ring
and every interleaving of the two sides. -/
theorem fifo (moved : α → α) (r : Ring) {c : Config Side (Shared α) (Local α)}
    (h : (system moved r).Reachable (initial α) c) : Fifo moved r c := by
  have hinv : Inv r c.shared c.locals := (inv_inductive moved r).reachable (inv_init r) h
  refine ⟨hinv.slots.order_pushed, ?_, fun x j => hinv.emplaces_free, fun x j => hinv.values_unread,
    fun a c' => hinv.fifoStep, ?_⟩
  · exact hinv.slots.room.trans (Nat.add_le_add_right hinv.slots.freed_le _)
  · intro u op c₁ c₂ res hcall hrun hdone
    have hinv₁ := hinv.next hcall
    obtain ⟨hidle, -, rfl⟩ := Object.next_call hcall
    have hstart : Underway moved r u op (c.shared.history u)
        ⟨c.shared, Function.update c.locals u (some (start op))⟩
        ⟨c.shared, Function.update c.locals u (some (start op))⟩ :=
      ⟨_, Function.update_self .., .inl ⟨.start op, rfl⟩⟩
    obtain ⟨⟨y, hy, hcase⟩, hinv₂⟩ := hstart.run hinv₁ hrun
    obtain rfl := Option.some.inj (hdone.symm.trans hy)
    have hbefore : c.shared.transferred u = c.shared.history u := by
      refine hinv.transferred_eq fun y hl => ?_
      rw [hidle] at hl
      cases hl
    have hafter : c₂.shared.transferred u = c₂.shared.history u :=
      hinv₂.transferred_eq fun y hl => ⟨res, Option.some.inj (hl.symm.trans hdone)⟩
    rw [hbefore, hafter]
    rcases hcase with ⟨hbegun, -⟩ | ⟨d, d', b, x, t, xs, hcd, hload, hdc, hx, ht, hprogress, hold⟩
    · -- an operation that has not loaded the other counter is not finished
      generalize hz : Local.done res = z at hbegun
      cases hbegun with
      | start => cases op <;> cases hz
      | _ => cases hz
    · obtain ⟨hlen, hanswers⟩ := hprogress.done
      exact ⟨d, d', b, x, t, xs, hcd, hload, hdc, hx, ht, hlen, hanswers, hold⟩

/-- A batch of two items on a single slot, then a pop. -/
def batchOnOneSlot : List (Action Side (Op ℕ)) :=
  [.call .producer (.tryPushBatch ⟨[7, 8], by decide⟩ .move)] ++ Action.steps .producer 4 ++
    [.call .consumer .tryPop] ++ Action.steps .consumer 5

theorem fifo_batchOnOneSlot : ∃ c, (system (fun _ => 0) Ring.one).Reachable (initial ℕ) c ∧
    c.shared.pushed = [7] ∧ c.shared.popped = [7] ∧ Fifo (fun _ => 0) Ring.one c := by
  have hrun : ((system (fun _ => 0) Ring.one).run (initial ℕ) batchOnOneSlot).map
      (fun c => (c.shared.pushed, c.shared.popped)) = some ([7], [7]) := by decide +kernel
  obtain ⟨c, hc, hlists⟩ := Option.map_eq_some_iff.mp hrun
  obtain ⟨hpushed, hpopped⟩ := Prod.mk.inj hlists
  have hreach := System.reachable_of_run hc
  exact ⟨c, hreach, hpushed, hpopped, fifo _ _ hreach⟩

end Runs

end LowLatency.SPSCRingBuffer
