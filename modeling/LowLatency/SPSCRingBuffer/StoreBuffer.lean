import LowLatency.Concurrency.RelyGuarantee
import LowLatency.SPSCRingBuffer.Fifo

/-!
# The ring buffer under x86-TSO

`program` is the ring buffer in instructions of x86, all of which are loads and plain stores. Either
side may be ahead of memory by any number of items: a counter is stored after the slots for which it
stands, and stores arrive in order. The histories are not those of stores that take effect at once: a
push may find the buffer full and a pop find it empty at the same time (`fullAndEmpty`).

What a side sees is a state in which the invariant of `Invariant` holds, with some other side
(`Shows`). The producer relies on it that nobody else appends and that places are only freed, the
consumer that nobody else pops and that the items remain where they are (`rely`).
-/

namespace LowLatency.SPSCRingBuffer

open Concurrency

variable {α : Type*}

/-- A plain store: to a slot or to a counter. -/
inductive Store (α : Type*) where
  | emplace (j : ℕ) (item : α)
  | take (j : ℕ) (item : α)
  | reset (j : ℕ)
  | storeTail (t k : SizeT)
  | storeHead (h k : SizeT)
  /-- `value()` has thrown, or the caller's array has ended. -/
  | nothing

/-- The arrival of a store in memory. -/
def Store.apply (moved : α → α) (s : Shared α) : Store α → Shared α
  | .emplace j item => s.emplace j item
  | .take j item => s.take moved j item
  | .reset j => s.setSlot j none
  | .storeTail t k => s.storeTail t k
  | .storeHead h k => s.storeHead h k
  | .nothing => s

/-- The next instruction. -/
def instr (moved : α → α) (r : Ring) : Local α → Instr (Shared α) (Store α) (Local α)
  | .pushLoadTail item how => .load fun s => .pushLoadHead item how s.tail
  | .pushLoadHead item how t => .load fun s =>
    if count r ≤ t - s.head then .done (.pushed false item) else .pushEmplace item how t
  | .pushEmplace item how t => .store fun _ =>
    (.emplace (index r t) item, .pushStoreTail (how.leaves moved item) t)
  | .pushStoreTail item t => .store fun _ => (.storeTail t 1, .done (.pushed true item))
  | .pushBatchLoadTail items how => .load fun s => .pushBatchLoadHead items how s.tail
  | .pushBatchLoadHead items how t => .load fun s =>
    let space := count r - (t - s.head)
    let k := stdMin (BitVec.ofNat 64 items.list.length) space
    .pushBatchLoop items.list how t k 0
  | .pushBatchEmplace items how t k i => .store fun _ =>
    match items[i.toNat]? with
    | none => (.nothing, .done .outOfRange)
    | some item =>
      (.emplace (index r (t + i)) item,
        .pushBatchLoop (items.set i.toNat (how.leaves moved item)) how t k (i + 1))
  | .pushBatchStoreTail items t k => .store fun _ => (.storeTail t k, .done (.pushedBatch k items))
  | .popLoadHead => .load fun s => .popLoadTail s.head
  | .popLoadTail h => .load fun s => if h = s.tail then .done .empty else .popValue h
  | .popValue h => .store fun s =>
    match s.buffer (index r h) with
    | none => (.nothing, .done .badOptionalAccess)
    | some item => (.take (index r h) item, .popReset h item)
  | .popReset h out => .store fun _ => (.reset (index r h), .popStoreHead h out)
  | .popStoreHead h out => .store fun _ => (.storeHead h 1, .done (.popped out))
  | .popBatchLoadHead max => .load fun s => .popBatchLoadTail max s.head
  | .popBatchLoadTail max h => .load fun s =>
    let available := s.tail - h
    let k := stdMin max available
    .popBatchLoop h k 0 []
  | .popBatchValue h k i out => .store fun s =>
    match s.buffer (index r (h + i)) with
    | none => (.nothing, .done .badOptionalAccess)
    | some item => (.take (index r (h + i)) item, .popBatchReset h k i (out ++ [item]))
  | .popBatchReset h k i out => .store fun _ =>
    (.reset (index r (h + i)), .popBatchLoop h k (i + 1) out)
  | .popBatchStoreHead h k out => .store fun _ => (.storeHead h k, .done (.poppedBatch k out))
  | .done o => .load fun _ => .done o

def program (moved : α → α) (r : Ring) :
    Program (Op α) (Result α) (Shared α) (Store α) (Local α) where
  start := start
  instr := instr moved r
  apply := Store.apply moved
  result := result

/-- With stores that take effect at once it is the same buffer. -/
theorem sequential_step (moved : α → α) (r : Ring) (b : Bool) (s : Shared α) (x : Local α) :
    (program moved r).sequential.step b s x = step moved r b s x := by
  cases x with
  | pushLoadHead | popLoadTail =>
    simp only [Program.sequential, program, instr, step]
    split_ifs <;> rfl
  | pushBatchEmplace items how t k i =>
    simp only [Program.sequential, program, instr, step]
    cases items[i.toNat]? <;> rfl
  | popValue h =>
    simp only [Program.sequential, program, instr, step]
    cases s.buffer (index r h) <;> rfl
  | popBatchValue h k i out =>
    simp only [Program.sequential, program, instr, step]
    cases s.buffer (index r (h + i)) <;> rfl
  | _ => rfl

section Step

variable {moved : α → α} {r : Ring} {x : Local α}

theorem step_load {f : Shared α → Local α} (hi : instr moved r x = .load f) (b : Bool)
    (s : Shared α) : step moved r b s x = (s, f s) := by
  rw [← sequential_step]
  simp only [Program.sequential, program, hi]

theorem step_store {f : Shared α → Store α × Local α} (hi : instr moved r x = .store f) (b : Bool)
    (s : Shared α) : step moved r b s x = ((f s).1.apply moved s, (f s).2) := by
  rw [← sequential_step]
  simp only [Program.sequential, program, hi]

end Step

/-! ## The stores of the two sides -/

/-- The stores of the producer. -/
inductive Produces (r : Ring) (s : Shared α) : Store α → Prop
  | emplace (item : α) : s.emplaced.length < s.freed + r.size →
    Produces r s (.emplace (r.slot s.emplaced.length) item)
  | storeTail (t k : SizeT) : Produces r s (.storeTail t k)

/-- The stores of the consumer. -/
inductive Consumes (r : Ring) (s : Shared α) : Store α → Prop
  | take (item : α) : s.popped.length < s.published → s.emplaced[s.popped.length]? = some item →
    Consumes r s (.take (r.slot s.popped.length) item)
  | reset (q : ℕ) : s.popped.length = q + 1 → s.freed ≤ q → Consumes r s (.reset (r.slot q))
  | storeHead (h k : SizeT) : Consumes r s (.storeHead h k)

section Stores

variable {moved : α → α} {r : Ring} {s : Shared α} {l : Side → Option (Local α)} {x : Local α}
  {f : Shared α → Store α × Local α}

theorem Inv.produces (h : Inv r s l) (hx : l .producer = some x) (hi : instr moved r x = .store f) :
    Produces r s (f s).1 := by
  have hp := h.producing
  have hfits := h.fits _ _ hx
  rw [hx] at hp
  cases x with
  | pushEmplace item how t =>
    have hg : Grant r s t 1 0 := hp
    have hwritten := hg.written
    have hroom := hg.room
    have hidx := h.index_emplace (i := 0#64) hg
    rw [BitVec.add_zero] at hidx
    cases hi
    dsimp only
    rw [hidx]
    exact .emplace item (by omega)
  | pushBatchEmplace items how t k i =>
    obtain ⟨hg, hik, hlen⟩ : Grant r s t k.toNat i.toNat ∧ i < k ∧ k.toNat ≤ items.length := hp
    have hlt : i.toNat < k.toNat := hik
    have hwritten := hg.written
    have hroom := hg.room
    have hitem : items[i.toNat]? = some items[i.toNat] := List.getElem?_eq_getElem (by omega)
    cases hi
    simp only [hitem, h.index_emplace hg]
    exact .emplace _ (by omega)
  | pushStoreTail | pushBatchStoreTail =>
    cases hi
    exact .storeTail _ _
  | pushLoadTail | pushLoadHead | pushBatchLoadTail | pushBatchLoadHead | done => cases hi
  | _ => exact hfits.elim

theorem Inv.consumes (h : Inv r s l) (hx : l .consumer = some x) (hi : instr moved r x = .store f) :
    Consumes r s (f s).1 := by
  have hc := h.consuming
  have hfits := h.fits _ _ hx
  rw [hx] at hc
  cases x with
  | popValue t =>
    have hclaim : Claim s t 1 0 := hc
    have hread := hclaim.read
    have hshown := hclaim.shown
    have hidx := h.index_pop (i := 0#64) hclaim
    rw [BitVec.add_zero] at hidx
    obtain ⟨item, hitem, hnext⟩ := h.slots.next (by omega)
    cases hi
    simp only [hidx, hitem]
    exact .take item (by omega) hnext
  | popBatchValue t k i out =>
    obtain ⟨hclaim, hik⟩ : Claim s t k.toNat i.toNat ∧ i < k := hc
    have hlt : i.toNat < k.toNat := hik
    have hread := hclaim.read
    have hshown := hclaim.shown
    obtain ⟨item, hitem, hnext⟩ := h.slots.next (by omega)
    cases hi
    simp only [h.index_pop hclaim, hitem]
    exact .take item (by omega) hnext
  | popReset t out =>
    have hclaim : Claim s t 1 1 := hc
    have hidx : index r t = r.slot s.freed := by rw [hclaim.head, h.head, index_ofNat]
    cases hi
    dsimp only
    rw [hidx]
    exact .reset _ hclaim.read le_rfl
  | popBatchReset t k i out =>
    obtain ⟨hclaim, hik⟩ : Claim s t k.toNat (i.toNat + 1) ∧ i < k := hc
    have hidx : index r (t + i) = r.slot (s.freed + i.toNat) := by
      rw [hclaim.head, h.head, index_ofNat_add]
    cases hi
    dsimp only
    rw [hidx]
    exact .reset _ hclaim.read (Nat.le_add_right _ _)
  | popStoreHead | popBatchStoreHead =>
    cases hi
    exact .storeHead _ _
  | popLoadHead | popLoadTail | popBatchLoadHead | popBatchLoadTail | done => cases hi
  | _ => exact hfits.elim

theorem store_producer (hx : x.fits .producer) (hi : instr moved r x = .store f) (s s' : Shared α) :
    f s' = f s := by
  cases x with
  | pushEmplace | pushStoreTail | pushBatchEmplace | pushBatchStoreTail =>
    cases hi
    rfl
  | pushLoadTail | pushLoadHead | pushBatchLoadTail | pushBatchLoadHead | done => cases hi
  | _ => exact hx.elim

end Stores

/-! ## What the sides rely on -/

/-- What the other side may do to the memory that a side sees. -/
def rely (r : Ring) : Side → Shared α → Shared α → Prop
  | .producer, s, s' => s'.tail = s.tail ∧ s'.emplaced = s.emplaced ∧ s'.published = s.published ∧
    s.freed ≤ s'.freed
  | .consumer, s, s' => s'.head = s.head ∧ s'.popped = s.popped ∧ s'.freed = s.freed ∧
    s.published ≤ s'.published ∧ s.emplaced <+: s'.emplaced ∧
    ∀ p, s.freed ≤ p → p < s.popped.length → s'.buffer (r.slot p) = s.buffer (r.slot p)

/-- The items that an operation has for its caller. -/
def Local.got : Local α → List α
  | .popReset _ out | .popStoreHead _ out | .done (.popped out) => [out]
  | .popBatchValue _ _ _ out | .popBatchReset _ _ _ out | .popBatchStoreHead _ _ out
  | .done (.poppedBatch _ out) => out
  | _ => []

/-- Where a side is when it sees `s`: the invariant holds beside some other side, and the items for the
caller are those moved out last. -/
def Shows (r : Ring) (t : Side) (s : Shared α) (o : Option (Local α)) : Prop :=
  (∃ l, l t = o ∧ Inv r s l) ∧ ∀ x, o = some x → t = .consumer → x.got <:+ s.popped

section Rely

variable {moved : α → α} {r : Ring} {s s' : Shared α} {l l' : Side → Option (Local α)}
  {st : Store α}

theorem rely_of_produces (h : Inv r s l) (hst : Produces r s st) :
    rely r .consumer s (st.apply moved s) := by
  have hfreed := h.slots.freed_le
  have hpopped := h.slots.popped_le
  have hpublished := h.slots.published_le
  cases hst with
  | emplace item hroom =>
    refine ⟨rfl, rfl, rfl, le_rfl, List.prefix_append _ _, fun p hp hlt => ?_⟩
    exact setSlot_other (by omega) hroom hp (by omega) (by omega) _
  | storeTail t k =>
    exact ⟨rfl, rfl, rfl, Nat.le_add_right _ _, List.prefix_refl _, fun _ _ _ => rfl⟩

theorem rely_of_consumes (hst : Consumes r s st) : rely r .producer s (st.apply moved s) := by
  cases hst with
  | take | reset => exact ⟨rfl, rfl, rfl, le_rfl⟩
  | storeHead => exact ⟨rfl, rfl, rfl, Nat.le_add_right _ _⟩

theorem rely_produces (h : rely r .producer s s') (hst : Produces r s st) :
    rely r .producer (st.apply moved s) (st.apply moved s') := by
  obtain ⟨htail, hemplaced, hpublished, hfreed⟩ := h
  cases hst with
  | emplace item => exact ⟨htail, congrArg (· ++ [item]) hemplaced, hpublished, hfreed⟩
  | storeTail t k => exact ⟨rfl, hemplaced, congrArg (· + k.toNat) hpublished, hfreed⟩

/-- An access to one slot, with the same outcome on both sides. -/
theorem setSlot_congr {i j : ℕ} (o : Option α) (h : i ≠ j → s'.buffer i = s.buffer i) :
    (s'.setSlot j o).buffer i = (s.setSlot j o).buffer i := by
  by_cases hij : i = j
  · subst hij
    show Function.update s'.buffer i o i = Function.update s.buffer i o i
    rw [Function.update_self, Function.update_self]
  · exact (Function.update_of_ne hij ..).trans ((h hij).trans (Function.update_of_ne hij ..).symm)

theorem rely_consumes (h : rely r .consumer s s') (hst : Consumes r s st) :
    rely r .consumer (st.apply moved s) (st.apply moved s') := by
  obtain ⟨hhead, hpopped, hfreed, hpublished, hemplaced, hbuffer⟩ := h
  cases hst with
  | take item hlt hitem =>
    refine ⟨hhead, congrArg (· ++ [item]) hpopped, hfreed, hpublished, hemplaced, fun p hp hp' => ?_⟩
    have hp' : p < (s.popped ++ [item]).length := hp'
    rw [List.length_append, List.length_singleton] at hp'
    refine setSlot_congr _ fun hne => hbuffer p hp ?_
    have hne' : p ≠ s.popped.length := fun he => hne (congrArg _ he)
    omega
  | reset q =>
    exact ⟨hhead, hpopped, hfreed, hpublished, hemplaced, fun p hp hp' =>
      setSlot_congr _ fun _ => hbuffer p hp hp'⟩
  | storeHead t k =>
    refine ⟨rfl, hpopped, congrArg (· + k.toNat) hfreed, hpublished, hemplaced, fun p hp hp' => ?_⟩
    exact hbuffer p ((Nat.le_add_right _ _).trans hp) hp'

theorem Inv.next_stable (h : Inv r s l) (h' : Inv r s' l') (hrely : rely r .consumer s s')
    (hlt : s.popped.length < s.published) :
    s'.buffer (r.slot s.popped.length) = s.buffer (r.slot s.popped.length) := by
  obtain ⟨-, hpopped, -, hpublished, ⟨rest, hrest⟩, -⟩ := hrely
  have hlen := hlt.trans_le h.slots.published_le
  have hlen' := (hlt.trans_le hpublished).trans_le h'.slots.published_le
  rw [h.slots.unread _ le_rfl hlen, h'.slots.unread _ (by rw [hpopped]) hlen', ← hrest,
    List.getElem?_append_left hlen]

/-- The store of the consumer does not depend on what the other side has done. -/
theorem Inv.store_consumer (h : Inv r s l) (h' : Inv r s' l') (hrely : rely r .consumer s s')
    {x : Local α} {f : Shared α → Store α × Local α} (hx : l .consumer = some x)
    (hi : instr moved r x = .store f) : f s' = f s := by
  have hc := h.consuming
  have hfits := h.fits _ _ hx
  rw [hx] at hc
  cases x with
  | popValue t =>
    have hclaim : Claim s t 1 0 := hc
    have hread := hclaim.read
    have hshown := hclaim.shown
    have hidx := h.index_pop (i := 0#64) hclaim
    rw [BitVec.add_zero] at hidx
    cases hi
    simp only [hidx, h.next_stable h' hrely (by omega)]
  | popBatchValue t k i out =>
    obtain ⟨hclaim, hik⟩ : Claim s t k.toNat i.toNat ∧ i < k := hc
    have hlt : i.toNat < k.toNat := hik
    have hread := hclaim.read
    have hshown := hclaim.shown
    cases hi
    simp only [h.index_pop hclaim, h.next_stable h' hrely (by omega)]
  | popReset | popBatchReset | popStoreHead | popBatchStoreHead =>
    cases hi
    rfl
  | popLoadHead | popLoadTail | popBatchLoadHead | popBatchLoadTail | done => cases hi
  | _ => exact hfits.elim

theorem Inv.stable (h : Inv r s l) (h' : Inv r s' l') {t : Side} (hrely : rely r t s s') :
    Inv r s' (Function.update l' t (l t)) := by
  cases t with
  | producer =>
    obtain ⟨htail, hemplaced, hpublished, hfreed⟩ := hrely
    exact h'.produce (fun y hy => h.fits _ y hy) rfl rfl rfl le_rfl h'.tail h'.slots
      (h.producing.mono htail (congrArg _ hemplaced) hpublished hfreed)
  | consumer =>
    obtain ⟨hhead, hpopped, hfreed, hpublished, -, hbuffer⟩ := hrely
    refine h'.consume (fun y hy => h.fits _ y hy) rfl rfl rfl le_rfl h'.head
      { h'.slots with released := fun p hp hlt => ?_ }
      (h.consuming.mono hhead hpopped hfreed hpublished)
    rw [hfreed] at hp
    rw [hpopped] at hlt
    rw [hbuffer p hp (by omega)]
    exact h.slots.released p hp hlt

theorem Shows.stable {t : Side} {o : Option (Local α)} (h : Shows r t s o) (h' : Inv r s' l')
    (hrely : rely r t s s') : Shows r t s' o := by
  obtain ⟨⟨l, rfl, hinv⟩, hgot⟩ := h
  refine ⟨⟨_, Function.update_self .., hinv.stable h' hrely⟩, ?_⟩
  rintro x hx rfl
  obtain ⟨-, hpopped, -⟩ := hrely
  rw [hpopped]
  exact hgot x hx rfl

end Rely

/-! ## Runs -/

section Runs

variable {moved : α → α} {r : Ring} {s : Shared α} {x : Local α}

/-- The items for the caller are those that have been moved out last. -/
theorem got_step (b : Bool) (h : x.got <:+ s.popped) :
    (step moved r b s x).2.got <:+ (step moved r b s x).1.popped := by
  have hloop : ∀ t k i : SizeT, ∀ out : List α, (Local.popBatchLoop t k i out).got = out := by
    intro t k i out
    unfold Local.popBatchLoop
    split <;> rfl
  have hpush : ∀ (items : List α) how (t k i : SizeT),
      (Local.pushBatchLoop items how t k i).got = [] := by
    intro items how t k i
    unfold Local.pushBatchLoop
    split <;> rfl
  cases x with
  | popValue t =>
    simp only [step]
    split
    · exact List.nil_suffix
    · exact List.suffix_append _ _
  | popBatchValue t k i out =>
    simp only [step]
    split
    · exact List.nil_suffix
    next item _ =>
      obtain ⟨before, hbefore⟩ := h
      exact ⟨before, (List.append_assoc ..).symm.trans (congrArg (· ++ [item]) hbefore)⟩
  | popBatchLoadTail max t =>
    simp only [step, hloop]
    exact List.nil_suffix
  | popBatchReset t k i out =>
    simp only [step, hloop]
    exact h
  | popReset | popStoreHead | popBatchStoreHead | done => exact h
  | popLoadTail | pushLoadHead =>
    simp only [step]
    split <;> exact List.nil_suffix
  | pushBatchLoadHead =>
    simp only [step, hpush]
    exact List.nil_suffix
  | pushBatchEmplace =>
    simp only [step]
    split
    · exact List.nil_suffix
    · rw [hpush]
      exact List.nil_suffix
  | _ => exact List.nil_suffix

variable (moved) in
/-- Whatever an operation does when the memory it sees is memory itself. -/
theorem Shows.step {t : Side} (h : Shows r t s (some x)) (hr : result x = none) :
    ∃ l, l t = some x ∧ Inv r s l ∧ Inv r (SPSCRingBuffer.step moved r false s x).1
        (Function.update l t (some (SPSCRingBuffer.step moved r false s x).2)) ∧
      Shows r t (SPSCRingBuffer.step moved r false s x).1
        (some (SPSCRingBuffer.step moved r false s x).2) := by
  obtain ⟨⟨l, hl, hinv⟩, hgot⟩ := h
  have hstep := (inv_inductive moved r).step false hinv hl hr trivial
  refine ⟨l, hl, hinv, hstep, ⟨_, Function.update_self .., hstep⟩, ?_⟩
  rintro _ ⟨⟩ ht
  exact got_step false (hgot x rfl ht)

theorem relyGuarantee (moved : α → α) (r : Ring) :
    (program moved r).RelyGuarantee may (fun s => ∃ l, Inv r s l) (Shows r) (rely r) where
  call {t m op} _ h hmay := by
    obtain ⟨⟨l, hl, hinv⟩, -⟩ := h
    refine ⟨⟨_, Function.update_self .., (inv_inductive moved r).call hinv hl hmay⟩, ?_⟩
    rintro _ ⟨⟩ -
    cases op <;> exact List.nil_suffix
  load {t m x f} _ h hr hi := by
    obtain ⟨_, _, _, _, hshows⟩ := h.step moved hr
    rwa [step_load hi] at hshows
  store {t m x f} _ h hr hi := by
    obtain ⟨l, hl, hinv, hinv', hshows⟩ := h.step moved hr
    rw [step_store hi] at hinv' hshows
    refine ⟨⟨_, hinv'⟩, hshows, fun u hu => ?_⟩
    cases t with
    | producer =>
      cases u with
      | producer => exact absurd rfl hu
      | consumer => exact rely_of_produces hinv (hinv.produces hl hi)
    | consumer =>
      cases u with
      | producer => exact rely_of_consumes (hinv.consumes hl hi)
      | consumer => exact absurd rfl hu
  locked {t m x f} _ _ _ hi := by cases x <;> cases hi
  ret {t m x o} _ h hr := by
    obtain ⟨⟨l, hl, hinv⟩, -⟩ := h
    refine ⟨⟨_, Function.update_self .., (inv_inductive moved r).ret hinv hl hr⟩, ?_⟩
    rintro _ ⟨⟩
  stable := by
    rintro t m m' o - ⟨l', h'⟩ hrely h
    exact h.stable h' hrely
  store_stable := by
    rintro t m m' x f - ⟨l', h'⟩ hrely ⟨⟨l, hl, hinv⟩, -⟩ hr hi
    cases t with
    | producer =>
      have hst := hinv.produces hl hi
      refine ⟨congrArg Prod.fst (store_producer (hinv.fits _ _ hl) hi m m'), ?_⟩
      exact rely_produces hrely hst
    | consumer =>
      refine ⟨congrArg Prod.fst (hinv.store_consumer h' hrely hl hi), ?_⟩
      exact rely_consumes hrely (hinv.consumes hl hi)

end Runs

/-! ## The guarantees -/

/-- What a side sees. -/
def seen (moved : α → α) (r : Ring) (c : Program.Config Side (Shared α) (Store α) (Local α))
    (t : Side) : Shared α :=
  (program moved r).view c.mem (c.pending t)

/-- What holds at any time, however late the stores. -/
structure Ordered (moved : α → α) (r : Ring)
    (c : Program.Config Side (Shared α) (Store α) (Local α)) : Prop where
  /-- The items that the consumer has taken are the first ones that the producer has published. -/
  order : (seen moved r c .consumer).popped <+: c.mem.pushed
  /-- They are what its operations return. -/
  returns : ∀ x, c.locals .consumer = some x → x.got <:+ (seen moved r c .consumer).popped
  /-- The producer is at most a lap ahead of what the consumer has given back. -/
  held : (seen moved r c .producer).emplaced.length ≤ c.mem.freed + r.size
  /-- A slot is free until the producer's item arrives there. -/
  free : ∀ j item, .emplace j item ∈ c.pending .producer → c.mem.buffer j = none
  /-- An item is in its slot until memory learns that the consumer has taken it. -/
  taken : ∀ j item, .take j item ∈ c.pending .consumer → c.mem.buffer j = some item
  /-- No operation fails. -/
  sound : ∀ t x, c.locals t = some x → x ≠ .done .badOptionalAccess ∧ x ≠ .done .outOfRange

section Guarantees

variable {moved : α → α} {r : Ring} {s : Shared α} {buf : List (Store α)}

/-- What the producer has not stored yet goes to free slots. -/
theorem owed_producer (h : (program moved r).Owed (Shows r .producer) s buf) :
    ((program moved r).view s buf).freed = s.freed ∧
      ∀ j item, .emplace j item ∈ buf → s.buffer j = none := by
  induction buf generalizing s with
  | nil => exact ⟨rfl, fun j item hmem => by cases hmem⟩
  | cons st buf ih =>
    obtain ⟨⟨x, f, ⟨⟨l, hl, hinv⟩, -⟩, hr, hi, rfl⟩, hbuf⟩ := h
    have hst := hinv.produces hl hi
    generalize (f s).1 = st at hst hbuf
    obtain ⟨hfreed, hfree⟩ := ih hbuf
    cases hst with
    | emplace item hroom =>
      refine ⟨hfreed, fun j item' hmem => ?_⟩
      by_cases hj : j = r.slot s.emplaced.length
      · subst hj
        exact hinv.slots.empty_end hroom
      · rcases List.mem_cons.mp hmem with he | hmem
        · exact absurd (Store.emplace.inj he).1 hj
        · exact (Function.update_of_ne hj ..).symm.trans (hfree j item' hmem)
    | storeTail t k =>
      refine ⟨hfreed, fun j item' hmem => ?_⟩
      rcases List.mem_cons.mp hmem with he | hmem
      · cases he
      · exact hfree j item' hmem

/-- What the consumer has taken without having stored it yet are the next items in memory. -/
theorem owed_consumer (h : (program moved r).Owed (Shows r .consumer) s buf) :
    ((program moved r).view s buf).pushed = s.pushed ∧ ∀ j item, .take j item ∈ buf →
      ∃ p, s.popped.length ≤ p ∧ p < s.published ∧ j = r.slot p ∧ s.emplaced[p]? = some item := by
  induction buf generalizing s with
  | nil => exact ⟨rfl, fun j item hmem => by cases hmem⟩
  | cons st buf ih =>
    obtain ⟨⟨x, f, ⟨⟨l, hl, hinv⟩, -⟩, hr, hi, rfl⟩, hbuf⟩ := h
    have hst := hinv.consumes hl hi
    generalize (f s).1 = st at hst hbuf
    obtain ⟨hpushed, htaken⟩ := ih hbuf
    cases hst with
    | take item hlt hitem =>
      refine ⟨hpushed, fun j item' hmem => ?_⟩
      rcases List.mem_cons.mp hmem with he | hmem
      · obtain ⟨rfl, rfl⟩ := Store.take.inj he
        exact ⟨_, le_rfl, hlt, rfl, hitem⟩
      · obtain ⟨p, hp, hrest⟩ := htaken j item' hmem
        have hp : (s.popped ++ [item]).length ≤ p := hp
        rw [List.length_append] at hp
        exact ⟨p, (Nat.le_add_right _ _).trans hp, hrest⟩
    | reset | storeHead =>
      refine ⟨hpushed, fun j item' hmem => ?_⟩
      rcases List.mem_cons.mp hmem with he | hmem
      · cases he
      · exact htaken j item' hmem

theorem ordered_of_guarded {c : Program.Config Side (Shared α) (Store α) (Local α)}
    (h : (program moved r).Guarded (fun s => ∃ l, Inv r s l) (Shows r) c.mem c.pending c.locals) :
    Ordered moved r c := by
  obtain ⟨l, hinv⟩ := h.inv
  obtain ⟨⟨lp, -, hp⟩, -⟩ := h.shown .producer
  obtain ⟨⟨lc, -, hc⟩, hgot⟩ := h.shown .consumer
  obtain ⟨hfreed, hfree⟩ := owed_producer (h.owed .producer)
  obtain ⟨hpushed, htaken⟩ := owed_consumer (h.owed .consumer)
  constructor
  · rw [← hpushed]
    exact hc.slots.order_pushed
  · exact fun x hx => hgot x hx rfl
  · rw [← hfreed]
    exact hp.slots.room
  · exact hfree
  · intro j item hmem
    obtain ⟨p, hp, hlt, rfl, hitem⟩ := htaken j item hmem
    rw [hinv.slots.unread p hp (hlt.trans_le hinv.slots.published_le), hitem]
  · intro t x hx
    obtain ⟨⟨l, hl, hinv⟩, -⟩ := h.shown t
    have hfits := hinv.fits t x (hl.trans hx)
    constructor
    · rintro rfl
      cases t <;> exact hfits
    · rintro rfl
      cases t <;> exact hfits

end Guarantees

/-- **The ring buffer under x86-TSO.** For every capacity and any delays of the stores. -/
theorem tso_ordered (moved : α → α) (r : Ring)
    (c : Program.Config Side (Shared α) (Store α) (Local α))
    (h : ((program moved r).client may).Reachable
      (Program.Config.new Side (Store α) (Local α) init) c) : Ordered moved r c :=
  ordered_of_guarded ((relyGuarantee moved r).reachable ⟨_, inv_init r⟩
    (fun t => ⟨⟨_, rfl, inv_init r⟩, fun _ hx => by cases hx⟩) h)

/-- A ring of two places holds one item, and one more is on its way; each side misses what the other
one has done. -/
def fullAndEmpty : List (Program.Action Side (Op ℕ)) :=
  List.flatten [[.call .producer (.tryPush 7 .copy)], Program.Action.steps .producer 4,
    [.ret .producer, .flush .producer, .flush .producer, .call .producer (.tryPush 8 .copy)],
    Program.Action.steps .producer 4, [.ret .producer, .call .consumer .tryPop],
    Program.Action.steps .consumer 5, [.ret .consumer, .call .consumer .tryPop],
    Program.Action.steps .consumer 2, [.call .producer (.tryPush 9 .copy)],
    Program.Action.steps .producer 2]

theorem tso_ordered_fullAndEmpty :
    ∃ c : Program.Config Side (Shared ℕ) (Store ℕ) (Local ℕ),
      (c.locals .producer).bind result = some (.pushed false 9) ∧
        (c.locals .consumer).bind result = some .empty ∧
        (seen id Ring.two c .consumer).popped = [7] ∧
        (seen id Ring.two c .producer).emplaced = [7, 8] ∧ Ordered id Ring.two c := by
  have hrun : (((program id Ring.two).client may).run
      (Program.Config.new Side (Store ℕ) (Local ℕ) init) fullAndEmpty).map
        (fun c => ((c.locals .producer).bind result, (c.locals .consumer).bind result,
          (seen id Ring.two c .consumer).popped, (seen id Ring.two c .producer).emplaced)) =
      some (some (.pushed false 9), some .empty, [7], [7, 8]) := by decide +kernel
  obtain ⟨c, hc, hres⟩ := Option.map_eq_some_iff.mp hrun
  obtain ⟨hproducer, hrest⟩ := Prod.mk.inj hres
  obtain ⟨hconsumer, hrest⟩ := Prod.mk.inj hrest
  obtain ⟨hpopped, hemplaced⟩ := Prod.mk.inj hrest
  exact ⟨c, hproducer, hconsumer, hpopped, hemplaced,
    tso_ordered id Ring.two c (System.reachable_of_run hc)⟩

end LowLatency.SPSCRingBuffer
