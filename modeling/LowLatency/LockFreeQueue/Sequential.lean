import LowLatency.LockFreeQueue.Basic

/-!
# The queue in one thread

Used by one thread, a ring of at least two slots is a bounded FIFO list, as long as the positions and
the sequence numbers fit the signed comparison (`boundedFifo_iff`). The ring of one slot, which the
constructor makes of the requests 0 and 1, is none: it accepts a second item over the first and then
pops forever.
-/

namespace LowLatency.LockFreeQueue

open Concurrency

variable {α : Type*}

/-! ## The specification -/

/-- One call of a bounded FIFO list of at most `size` items. -/
def fifoStep (size : ℕ) (items : List α) : Op α → List α × Outcome α
  | .push x => if items.length = size then (items, .refused x) else (items ++ [x], .put)
  | .pop =>
    match items with
    | [] => ([], .nothing)
    | x :: rest => (rest, .got x)

/-- What a bounded FIFO list holding `items` answers to a sequence of calls. -/
def fifoAnswers (size : ℕ) : List α → List (Op α) → List (Outcome α)
  | _, [] => []
  | items, op :: ops =>
    (fifoStep size items op).2 :: fifoAnswers size (fifoStep size items op).1 ops

variable [Inhabited α]

/-- The calls return, one after the other, with these outcomes. -/
def Answers (w : Word) (r : Ring) : Shared α → List (Op α) → List (Outcome α) → Prop
  | _, [], os => os = []
  | s, op :: ops, os => ∃ s' o os', os = o :: os' ∧
      (object w r).Returns s (start op) s' o ∧ Answers w r s' ops os'

/-- The call is a push. -/
def Op.isPush : Op α → Bool
  | .push _ => true
  | .pop => false

/-- Every sequence of calls to a new queue, with so many pushes that the positions and the sequence
numbers stay below `2 ^ 63`, returns and is answered as a FIFO list of `r.size` items answers it. -/
def BoundedFifo (α : Type*) [Inhabited α] (w : Word) (r : Ring) : Prop :=
  ∀ ops : List (Op α), ops.countP Op.isPush + r.size < 2 ^ 63 →
    Answers w r init ops (fifoAnswers r.size [] ops)

/-! ## 64-bit positions -/

theorem u64_wrap_add (a b : ℕ) : Word.u64.wrap (Word.u64.wrap a + b) = Word.u64.wrap (a + b) :=
  Nat.mod_add_mod a (2 ^ 64) b

theorem slot_u64_wrap (r : Ring) (n : ℕ) : r.slot (Word.u64.wrap n) = r.slot n := by
  rw [r.slot_eq_mod, r.slot_eq_mod]
  exact Nat.mod_mod_of_dvd _ r.size_dvd

/-- The comparison of two positions at most `2 ^ 63` apart is exact. -/
theorem u64_dif (a b : ℕ) (h1 : b ≤ a + 2 ^ 63) (h2 : a < b + 2 ^ 63) :
    Word.u64.dif (Word.u64.wrap a) (Word.u64.wrap b) = (a : ℤ) - b := by
  show (((a % 2 ^ 64 : ℕ) : ℤ) - ((b % 2 ^ 64 : ℕ) : ℤ)).bmod (2 ^ 64) = (a : ℤ) - b
  rw [Int.natCast_mod, Int.natCast_mod, Int.emod_sub_bmod, Int.sub_emod_bmod, Int.bmod_eq_iff]
  · refine ⟨?_, ?_, ?_⟩ <;> omega
  · norm_num

/-! ## Representation -/

/-- The members represent the list `items`, whose first element is at position `H` of the run. -/
structure Rep (r : Ring) (s : Shared α) (H : ℕ) (items : List α) : Prop where
  tail : s.tail = Word.u64.wrap (H + items.length)
  head : s.head = Word.u64.wrap H
  length_le : items.length ≤ r.size
  filled : ∀ i x, items[i]? = some x → s.sequence (r.slot (H + i)) = Word.u64.wrap (H + i + 1) ∧
    s.data (r.slot (H + i)) = x
  free : ∀ i, items.length ≤ i → i < r.size →
    s.sequence (r.slot (H + i)) = Word.u64.wrap (H + i)

theorem rep_init (r : Ring) : Rep r (init (α := α)) 0 [] where
  tail := rfl
  head := rfl
  length_le := Nat.zero_le _
  filled i x h := by cases h
  free i _ hi := by
    have hle := r.size_le
    show r.slot (0 + i) = (0 + i) % 2 ^ 64
    rw [r.slot_eq_mod, Nat.zero_add, Nat.mod_eq_of_lt hi, Nat.mod_eq_of_lt (by omega)]

section Calls

variable {r : Ring} {s : Shared α} {H : ℕ} {items : List α}

/-- What `push` leaves when it finds its slot free. -/
def pushed (r : Ring) (s : Shared α) (x : α) : Shared α :=
  (({ s with
        tail := Word.u64.wrap (s.tail + 1)
        pushClaims := s.pushClaims ++ [(s.tail, x)] } : Shared α).setData
      (r.slot s.tail) x).setSequence (r.slot s.tail) (Word.u64.wrap (s.tail + 1))

/-- A push that finds the tail where it was when it checked the slot. -/
theorem claim_returns (x : α) :
    (object .u64 r).Returns s (.pushClaim x s.tail) (pushed r s x) .put := by
  have hclaim : step .u64 r false s (.pushClaim x s.tail) =
      ({ s with
          tail := Word.u64.wrap (s.tail + 1)
          pushClaims := s.pushClaims ++ [(s.tail, x)] }, .pushWrite x s.tail) := by
    simp [step]
  exact .step rfl hclaim (.step rfl rfl (.step rfl rfl (.done rfl)))

theorem push_returns (x : α) (hseq : Word.u64.dif (s.sequence (r.slot s.tail)) s.tail = 0) :
    (object .u64 r).Returns s (start (.push x)) (pushed r s x) .put :=
  .step rfl rfl (.step rfl (if_pos hseq) (claim_returns x))

theorem push_put (h : Rep r s H items) (hlt : items.length < r.size) (x : α) :
    ∃ s', (object .u64 r).Returns s (start (.push x)) s' .put ∧ Rep r s' H (items ++ [x]) := by
  have hseq := h.free items.length le_rfl hlt
  have hslot : r.slot s.tail = r.slot (H + items.length) := by rw [h.tail, slot_u64_wrap]
  have hne : ∀ i < r.size, i ≠ items.length → r.slot (H + i) ≠ r.slot s.tail := by
    intro i hi hi' heq
    rw [hslot] at heq
    have := r.slot_inj heq (by omega) (by omega)
    omega
  refine ⟨pushed r s x, push_returns x ?_, ?_⟩
  · rw [hslot, hseq, h.tail, u64_dif _ _ (by omega) (by omega), sub_self]
  · constructor
    · show Word.u64.wrap (s.tail + 1) = _
      rw [h.tail, u64_wrap_add, List.length_append, List.length_singleton, Nat.add_assoc]
    · exact h.head
    · rw [List.length_append, List.length_singleton]
      exact hlt
    · intro i y hi
      unfold pushed
      rw [Shared.setSequence_data, Shared.setData_data, Shared.setSequence_sequence,
        Shared.setData_sequence]
      rcases Nat.lt_trichotomy i items.length with hlt' | rfl | hgt
      · rw [List.getElem?_append_left hlt'] at hi
        rw [if_neg (hne i (by omega) (by omega)), if_neg (hne i (by omega) (by omega))]
        exact h.filled i y hi
      · rw [List.getElem?_concat_length] at hi
        rw [if_pos hslot.symm, if_pos hslot.symm, h.tail, u64_wrap_add]
        exact ⟨rfl, Option.some.inj hi⟩
      · rw [List.getElem?_eq_none (by simp; omega)] at hi
        cases hi
    · intro i hi1 hi2
      rw [List.length_append, List.length_singleton] at hi1
      unfold pushed
      rw [Shared.setSequence_sequence, Shared.setData_sequence,
        if_neg (hne i hi2 (by omega))]
      exact h.free i (by omega) hi2

/-- A push onto a full ring of at least two slots is refused. -/
theorem push_refused (h : Rep r s H items) (h2 : 2 ≤ r.size) (hfull : items.length = r.size)
    (x : α) : (object .u64 r).Returns s (start (.push x)) s (.refused x) := by
  have hle := r.size_le
  have hslot : r.slot s.tail = r.slot (H + 0) := by
    rw [h.tail, slot_u64_wrap, hfull, r.slot_add_size, Nat.add_zero]
  have hpos := r.size_pos
  obtain ⟨y, hy⟩ : ∃ y, items[0]? = some y := ⟨_, List.getElem?_eq_getElem (by omega)⟩
  have hdif : Word.u64.dif (s.sequence (r.slot s.tail)) s.tail = 1 - (r.size : ℤ) := by
    rw [hslot, (h.filled 0 y hy).1, h.tail, hfull, u64_dif _ _ (by omega) (by omega)]
    omega
  have hload : step .u64 r false s (.pushLoadSequence x s.tail) = (s, .done (.refused x)) := by
    simp only [step]
    rw [hdif, if_neg (by omega), if_pos (by omega)]
  exact .step rfl rfl (.step rfl hload (.done rfl))

/-- What `pop` leaves when it finds its slot filled. -/
def popped (r : Ring) (s : Shared α) : Shared α :=
  let s' := (({ s with
        head := Word.u64.wrap (s.head + 1)
        popClaims := s.popClaims ++ [(s.head, s.data (r.slot s.head))] } : Shared α).setData
      (r.slot s.head) default).setSequence (r.slot s.head) (Word.u64.wrap (s.head + r.size))
  { s' with popReturns := s'.popReturns ++ [(s.head, s.data (r.slot s.head))] }

theorem pop_returns (hseq : Word.u64.dif (s.sequence (r.slot s.head))
    (Word.u64.wrap (s.head + 1)) = 0) :
    (object .u64 r).Returns s (start .pop) (popped r s) (.got (s.data (r.slot s.head))) := by
  have hclaim : step .u64 r false s (.popClaim s.head) =
      ({ s with
          head := Word.u64.wrap (s.head + 1)
          popClaims := s.popClaims ++ [(s.head, s.data (r.slot s.head))] },
        .popRead s.head) := by
    simp [step]
  exact .step rfl rfl (.step rfl (if_pos hseq) (.step rfl hclaim
    (.step rfl rfl (.step rfl rfl (.done rfl)))))

theorem pop_got {x : α} {rest : List α} (h : Rep r s H (x :: rest)) :
    ∃ s', (object .u64 r).Returns s (start .pop) s' (.got x) ∧ Rep r s' (H + 1) rest := by
  have hle := r.size_le
  have hlen := h.length_le
  rw [List.length_cons] at hlen
  obtain ⟨hseq, hdata⟩ := h.filled 0 x rfl
  have hslot : r.slot s.head = r.slot (H + 0) := by rw [h.head, slot_u64_wrap, Nat.add_zero]
  have hne : ∀ i, i + 1 < r.size → r.slot (H + 1 + i) ≠ r.slot s.head := by
    intro i hi heq
    rw [hslot] at heq
    have := r.slot_inj heq (by omega) (by omega)
    omega
  refine ⟨popped r s, ?_, ?_⟩
  · rw [← hdata, ← hslot]
    refine pop_returns ?_
    rw [hslot, hseq, h.head, u64_wrap_add, u64_dif _ _ (by omega) (by omega), Nat.add_zero,
      sub_self]
  · constructor
    · show s.tail = _
      rw [h.tail, List.length_cons]
      congr 1
      omega
    · show Word.u64.wrap (s.head + 1) = _
      rw [h.head, u64_wrap_add]
    · omega
    · intro i y hi
      have hlt : i < rest.length := by
        by_contra hge
        rw [List.getElem?_eq_none (by omega)] at hi
        cases hi
      have hold := h.filled (i + 1) y (by rw [List.getElem?_cons_succ]; exact hi)
      rw [show H + (i + 1) = H + 1 + i by omega] at hold
      show (Shared.setSequence _ _ _).sequence _ = _ ∧ (Shared.setSequence _ _ _).data _ = y
      rw [Shared.setSequence_data, Shared.setData_data, Shared.setSequence_sequence,
        Shared.setData_sequence, if_neg (hne i (by omega)), if_neg (hne i (by omega))]
      exact hold
    · intro i hi1 hi2
      show (Shared.setSequence _ _ _).sequence _ = _
      rw [Shared.setSequence_sequence, Shared.setData_sequence]
      by_cases hlast : i + 1 = r.size
      · have hlap : H + 1 + i = H + r.size := by omega
        rw [hlap, r.slot_add_size, hslot, Nat.add_zero, if_pos rfl, h.head, u64_wrap_add]
      · rw [if_neg (hne i (by omega))]
        have := h.free (i + 1) (by rw [List.length_cons]; omega) (by omega)
        rw [show H + (i + 1) = H + 1 + i by omega] at this
        exact this

theorem pop_nothing (h : Rep r s H []) :
    (object .u64 r).Returns s (start .pop) s .nothing := by
  have hslot : r.slot s.head = r.slot (H + 0) := by rw [h.head, slot_u64_wrap, Nat.add_zero]
  have hdif : Word.u64.dif (s.sequence (r.slot s.head)) (Word.u64.wrap (s.head + 1)) = -1 := by
    rw [hslot, h.free 0 (Nat.zero_le _) r.size_pos, h.head, u64_wrap_add,
      u64_dif _ _ (by omega) (by omega)]
    omega
  have hload : step .u64 r false s (.popLoadSequence s.head) = (s, .done .nothing) := by
    simp only [step]
    rw [hdif, if_neg (by omega), if_pos (by omega)]
  exact .step rfl rfl (.step rfl hload (.done rfl))

/-- A pop that finds its slot ahead of the head reloads the head for ever. -/
theorem pop_forever (h : 0 < Word.u64.dif (s.sequence (r.slot s.head))
    (Word.u64.wrap (s.head + 1))) (s' : Shared α) (o : Outcome α) :
    ¬ (object .u64 r).Returns s (start .pop) s' o := by
  have hload : step .u64 r false s (.popLoadSequence s.head) = (s, .popLoadHead) := by
    simp only [step]
    rw [if_neg (by omega), if_neg (by omega)]
  have halone : ∀ n, (object .u64 r).alone n s .popLoadHead = none ∧
      (object .u64 r).alone n s (.popLoadSequence s.head) = none := by
    intro n
    induction n with
    | zero => exact ⟨rfl, rfl⟩
    | succ n ih =>
      refine ⟨ih.2, ?_⟩
      show (object .u64 r).alone n (step .u64 r false s (.popLoadSequence s.head)).1
        (step .u64 r false s (.popLoadSequence s.head)).2 = none
      rw [hload]
      exact ih.1
  rintro ⟨n, hn⟩
  rw [show start (.pop : Op α) = .popLoadHead from rfl, (halone n).1] at hn
  cases hn

end Calls

/-! ## Rings of at least two slots -/

/-- One call answers as the list does and leaves a representation of what the list becomes. -/
theorem call_answers {r : Ring} (h2 : 2 ≤ r.size) {s : Shared α} {H : ℕ} {items : List α}
    (h : Rep r s H items) (op : Op α) : ∃ s' H',
      (object .u64 r).Returns s (start op) s' (fifoStep r.size items op).2 ∧
      Rep r s' H' (fifoStep r.size items op).1 := by
  cases op with
  | push x =>
    by_cases hfull : items.length = r.size
    · simp only [fifoStep, if_pos hfull]
      exact ⟨s, H, push_refused h h2 hfull x, h⟩
    · simp only [fifoStep, if_neg hfull]
      obtain ⟨s', hret, hrep⟩ := push_put h (lt_of_le_of_ne h.length_le hfull) x
      exact ⟨s', H, hret, hrep⟩
  | pop =>
    cases items with
    | nil => exact ⟨s, H, pop_nothing h, h⟩
    | cons x rest =>
      obtain ⟨s', hret, hrep⟩ := pop_got h
      exact ⟨s', H + 1, hret, hrep⟩

theorem answers_of_rep {r : Ring} (h2 : 2 ≤ r.size) (ops : List (Op α)) :
    ∀ {s : Shared α} {H : ℕ} {items : List α}, Rep r s H items →
      Answers .u64 r s ops (fifoAnswers r.size items ops) := by
  induction ops with
  | nil =>
    intro s H items _
    rfl
  | cons op ops ih =>
    intro s H items h
    obtain ⟨s', H', hret, hrep⟩ := call_answers h2 h op
    exact ⟨s', _, _, rfl, hret, ih hrep⟩

/-! ## The ring of one slot -/

/-- Two pushes onto the ring of one slot both return `true`, and the next pop never returns. -/
theorem one_slot_pushes {r : Ring} (h1 : r.size = 1) (x y : α) : ∃ s₁ s₂,
    (object .u64 r).Returns init (start (.push x)) s₁ .put ∧
    (object .u64 r).Returns s₁ (start (.push y)) s₂ .put ∧
    ∀ s' o, ¬ (object .u64 r).Returns s₂ (start .pop) s' o := by
  obtain ⟨s₁, hput, hrep⟩ := push_put (rep_init r) (by rw [h1]; exact Nat.one_pos) x
  have hslot : ∀ p, r.slot p = 0 := fun p => by rw [r.slot_eq_mod, h1, Nat.mod_one]
  have hseq := (hrep.filled 0 x rfl).1
  rw [hslot] at hseq
  refine ⟨s₁, pushed r s₁ y, hput, push_returns y ?_, pop_forever ?_⟩
  · rw [hslot, hseq, hrep.tail, u64_dif _ _ (by simp) (by simp)]
    simp
  · have hhead : (pushed r s₁ y).head = Word.u64.wrap 0 := hrep.head
    rw [hslot, hhead]
    unfold pushed
    rw [Shared.setSequence_sequence, hslot, if_pos rfl, hrep.tail, u64_wrap_add, u64_wrap_add, u64_dif _ _ (by simp) (by simp)]
    simp

theorem not_boundedFifo_one {r : Ring} (h1 : r.size = 1) : ¬ BoundedFifo α .u64 r := by
  intro h
  obtain ⟨s₁, s₂, hone, htwo, _⟩ := one_slot_pushes h1 (default : α) default
  have hfew : List.countP Op.isPush [.push (default : α), .push default] + r.size < 2 ^ 63 := by
    rw [h1]
    show 2 + 1 < 2 ^ 63
    decide
  obtain ⟨t₁, o₁, _, _, hret₁, t₂, o₂, _, heq, hret₂, _⟩ := h _ hfew
  obtain ⟨rfl, rfl⟩ := hone.unique hret₁
  obtain ⟨rfl, rfl⟩ := htwo.unique hret₂
  simp_all [fifoAnswers, fifoStep]

/-- **Sequential FIFO.** Of the capacities the constructor accepts, exactly those from 2 on make
a bounded FIFO list, as long as positions and sequence numbers are below `2 ^ 63`. -/
theorem boundedFifo_iff (c : SizeT) (r : Ring) (h : Ring.ofRequested c = .ok r) :
    BoundedFifo α .u64 r ↔ 2 ≤ c.toNat := by
  have hsize := (Ring.size_ofRequested h).2
  constructor
  · intro hb
    by_contra hc
    have hpos := r.size_pos
    exact not_boundedFifo_one (by omega) hb
  · intro hc ops _
    exact answers_of_rep (hsize.mpr hc) ops (rep_init r)

/-- A request for three slots makes a queue of four. -/
theorem boundedFifo_three : ∃ r, Ring.ofRequested 3 = .ok r ∧ r.size = 4 ∧
    BoundedFifo ℕ .u64 r := by
  obtain ⟨r, hr, hsize⟩ := Ring.ofRequested_ok (c := 3) (s := 4) rfl
  exact ⟨r, hr, hsize, (boundedFifo_iff 3 r hr).mpr (by decide)⟩

/-- A request for one slot makes a queue that accepts a second item over the first. -/
theorem not_boundedFifo_requestOne : ∃ r, Ring.ofRequested 1 = .ok r ∧
    ¬ BoundedFifo ℕ .u64 r := by
  obtain ⟨r, hr, hsize⟩ := Ring.ofRequested_ok (c := 1) (s := 1) rfl
  exact ⟨r, hr, not_boundedFifo_one hsize⟩

end LowLatency.LockFreeQueue
