import LowLatency.Concurrency.Custody
import LowLatency.LockFreeQueue.Invariant

/-!
# The queue as a place for items

An item is in the queue from the claim of its push to the claim of its pop. The pop then holds it
until it returns (`custody`). For programs in which some threads only push and the others only pop,
`step_push` and `step_pop` say how the two counters move.
-/

namespace LowLatency.LockFreeQueue

open Concurrency

variable {α : Type*}

/-- The item that an operation starts with. -/
def Op.given : Op α → Option α
  | .push item => some item
  | .pop => none

/-- What an operation has in its hands. -/
def held (s : Shared α) : Local α → Multiset α
  | .pushLoadTail item | .pushLoadSequence item _ | .pushClaim item _ | .popPublish _ item => {item}
  | .popRead pos => slot (s.pushClaims[pos]?.map Prod.snd)
  | .done o => slot o.item
  | _ => 0

/-- Where the items are. -/
def ledger : Ledger α (Shared α) (Local α) where
  stored s := (s.pushClaims.drop s.head).map Prod.snd
  held := held

namespace Local

/-- The operation is a push. -/
def isPush : Local α → Bool
  | .pushLoadTail _ | .pushLoadSequence _ _ | .pushClaim _ _ | .pushWrite _ _ | .pushPublish _
  | .done .put | .done (.refused _) => true
  | _ => false

/-- The operation is a push of `item`. -/
def Pushing (item : α) : Local α → Prop
  | .pushLoadTail i | .pushLoadSequence i _ | .pushClaim i _ | .pushWrite i _
  | .done (.refused i) => i = item
  | .pushPublish _ | .done .put => True
  | _ => False

/-- The push has claimed its position. -/
def committed : Local α → Bool
  | .pushWrite _ _ | .pushPublish _ | .done .put => true
  | _ => false

/-- The pop has claimed its position. -/
def popped : Local α → ℕ
  | .popRead _ | .popPublish _ _ | .done (.got _) => 1
  | _ => 0

end Local

/-! ## The counters -/

section Counters

variable [Inhabited α] {r : Ring} {s : Shared α} {x : Local α}

theorem isPush_step (b : Bool) : (step .exact r b s x).2.isPush = x.isPush := by
  cases x with
  | pushLoadSequence | pushClaim | popLoadSequence | popClaim =>
    simp only [step]
    split_ifs <;> rfl
  | _ => rfl

theorem Pushing.step {item : α} (h : x.Pushing item) (b : Bool) :
    (step .exact r b s x).2.Pushing item := by
  cases x with
  | pushLoadSequence | pushClaim =>
    simp only [LockFreeQueue.step]
    split_ifs <;> exact h
  | pushLoadTail | pushWrite | pushPublish | done =>
    first | exact h | trivial
  | _ => cases h

/-- A push moves only `tail_`, and that when it claims its position. -/
theorem step_push (hx : x.isPush = true) (b : Bool) :
    (step .exact r b s x).1.head = s.head ∧
      ((step .exact r b s x).1.tail = s.tail ∧ (step .exact r b s x).2.committed = x.committed ∨
        (step .exact r b s x).1.tail = s.tail + 1 ∧ x.committed = false ∧
          (step .exact r b s x).2.committed = true) := by
  cases x with
  | pushLoadSequence =>
    simp only [step]
    split_ifs <;> exact ⟨rfl, .inl ⟨rfl, rfl⟩⟩
  | pushClaim item pos =>
    simp only [step]
    split_ifs with hc
    · exact ⟨rfl, .inr ⟨congrArg (· + 1) hc.1.symm, rfl, rfl⟩⟩
    · exact ⟨rfl, .inl ⟨rfl, rfl⟩⟩
  | pushLoadTail | pushWrite | pushPublish | done => exact ⟨rfl, .inl ⟨rfl, rfl⟩⟩
  | _ => cases hx

theorem tail_step (b : Bool) : (step .exact r b s x).1.tail = s.tail ∨
    ∃ item pos, x = .pushClaim item pos ∧ s.tail = pos ∧ b = false := by
  cases x with
  | pushClaim item pos =>
    simp only [step]
    split_ifs with hc
    · exact .inr ⟨item, pos, rfl, hc.1, hc.2⟩
    · exact .inl rfl
  | pushLoadSequence | popLoadSequence | popClaim =>
    left
    simp only [step]
    split_ifs <;> rfl
  | _ => exact .inl rfl

theorem step_pop (hx : x.isPush = false) (b : Bool) :
    (step .exact r b s x).1.tail = s.tail ∧ s.head ≤ (step .exact r b s x).1.head := by
  cases x with
  | popLoadSequence =>
    simp only [step]
    split_ifs <;> exact ⟨rfl, le_rfl⟩
  | popClaim pos =>
    simp only [step]
    split_ifs with hc
    · exact ⟨rfl, hc.1.le.trans (Nat.le_succ pos)⟩
    · exact ⟨rfl, le_rfl⟩
  | popLoadHead | popRead | popPublish | done => exact ⟨rfl, le_rfl⟩
  | _ => cases hx

theorem step_popped (b : Bool) :
    (step .exact r b s x).1.head + x.popped = s.head + (step .exact r b s x).2.popped := by
  cases x with
  | popClaim pos =>
    simp only [step]
    split_ifs with hc
    · obtain ⟨rfl, _⟩ := hc
      rfl
    · rfl
  | pushLoadSequence | pushClaim | popLoadSequence =>
    simp only [step]
    split_ifs <;> rfl
  | _ => rfl

end Counters

/-! ## Custody -/

section Custody

variable {Tid : Type*} [Inhabited α] {r : Ring} {s : Shared α} {l : Tid → Option (Local α)}
  {t u : Tid} {x y : Local α}

omit [Inhabited α] in
theorem stored_pushClaim (h : s.Ordered r) (c : ℕ × α) :
    (((s.pushClaims ++ [c]).drop s.head).map Prod.snd : List α) =
      (s.pushClaims.drop s.head).map Prod.snd ++ [c.2] := by
  have hle : s.head ≤ s.pushClaims.length := by
    rw [h.length_pushClaims]
    exact h.head_le
  rw [List.drop_append_of_le_length hle, List.map_append]
  rfl

omit [Inhabited α] in
theorem stored_popClaim (h : s.Ordered r) (hlt : s.head < s.tail) : ∃ item,
    s.pushClaims[s.head]?.map Prod.snd = some item ∧
      (s.pushClaims.drop s.head).map Prod.snd =
        item :: (s.pushClaims.drop (s.head + 1)).map Prod.snd := by
  have hlen : s.head < s.pushClaims.length := by
    rw [h.length_pushClaims]
    exact hlt
  refine ⟨s.pushClaims[s.head].2, ?_, ?_⟩
  · rw [List.getElem?_eq_getElem hlen]
    rfl
  · rw [List.drop_eq_getElem_cons hlen]
    rfl

/-- An instruction moves the item between the queue and the operation. -/
theorem custody_step (h : Inv r s l) (hx : l t = some x) (b : Bool) :
    ledger.stored (step .exact r b s x).1 + held (step .exact r b s x).1 (step .exact r b s x).2 =
      ledger.stored s + held s x := by
  have hgood := h.good t x hx
  cases x with
  | pushLoadSequence item pos | popLoadSequence pos =>
    simp only [step]
    split_ifs <;> rfl
  | pushClaim item pos =>
    simp only [step]
    split_ifs with hc
    · have hclaim := congrArg (fun l : List α => (l : Multiset α))
        (stored_pushClaim h.ordered (pos, item))
      simp only [← Multiset.coe_add] at hclaim
      simpa [ledger, held] using hclaim
    · rfl
  | popClaim pos =>
    simp only [step]
    split_ifs with hc
    · obtain ⟨rfl, rfl⟩ := hc
      obtain ⟨item, hitem, hdrop⟩ := stored_popClaim h.ordered (h.ordered.stock (hgood.2 rfl))
      simp only [ledger, held, hitem, hdrop, slot_some, add_zero]
      rw [← Multiset.cons_coe, add_comm, Multiset.singleton_add]
      rfl
    · rfl
  | popRead pos =>
    have hclaim := h.ordered.getElem?_pushClaims hgood.2.2.2
    simp only [step, ledger, held, Shared.setData_pushClaims, Shared.setData_head, hclaim]
    rfl
  | _ => rfl

theorem custody_frame (h : Inv r s l) (hy : l u = some y) (b : Bool) :
    held (step .exact r b s x).1 y = held s y := by
  cases y with
  | popRead pos =>
    have hgood := h.good u _ hy
    have hpos : pos < s.pushClaims.length := by
      rw [h.ordered.length_pushClaims]
      have hle := h.ordered.head_le
      have hlt : pos < s.head := hgood.1
      omega
    unfold held
    cases x with
    | pushClaim item p =>
      simp only [step]
      split_ifs
      · exact congrArg (fun c : Option (ℕ × α) => slot (c.map Prod.snd))
          (List.getElem?_append_left hpos)
      · rfl
    | pushLoadSequence | popLoadSequence | popClaim =>
      simp only [step]
      split_ifs <;> rfl
    | _ => rfl
  | _ => rfl

/-- The threads that push are not those that pop. -/
def mayUse (producer : Tid → Bool) (t : Tid) : Op α → Bool
  | .push _ => producer t
  | .pop => !producer t

/-- The invariant of a queue used by such threads. -/
def Used (r : Ring) (producer : Tid → Bool) (s : Shared α) (l : Tid → Option (Local α)) : Prop :=
  Inv r s l ∧ ∀ t x, l t = some x → x.isPush = producer t

theorem used_init (r : Ring) (producer : Tid → Bool) :
    Used r producer (init (α := α)) (fun _ : Tid => none) :=
  ⟨inv_init r, fun _ _ h => by cases h⟩

/-- A queue without positions between `head_` and `tail_` stores nothing. -/
theorem stored_eq_zero {producer : Tid → Bool} (h : Used r producer s l)
    (hle : s.tail ≤ s.head) : ledger.stored s = 0 := by
  have hdrop : s.pushClaims.drop s.head = [] := by
    rw [List.drop_eq_nil_iff, h.1.ordered.length_pushClaims]
    exact hle
  simp only [ledger, hdrop]
  rfl

variable [DecidableEq Tid]

theorem used_inductive (h2 : 2 ≤ r.size) (producer : Tid → Bool) :
    (object (α := α) .exact r).Inductive (mayUse producer) (fun _ _ => True)
      (Used r producer) := by
  refine Object.Inductive.and ?_ (Object.inductive_of_locals ?_ ?_)
  · exact (inv_inductive Word.exact_sound h2).mono (fun _ _ _ => rfl)
      fun _ _ _ _ _ => trivial
  · intro t op hm
    cases op with
    | push item => exact Eq.symm hm
    | pop => exact (Bool.not_eq_true' _ ▸ hm : producer t = false).symm
  · intro t b s x hk
    exact (isPush_step b).trans hk

/-- **The queue neither copies nor drops an item.** -/
theorem custody (h2 : 2 ≤ r.size) (producer : Tid → Bool) :
    (object (α := α) .exact r).Custody (mayUse producer) (Used r producer) Op.given ledger where
  kept := used_inductive h2 producer
  start _ op := by cases op <;> rfl
  result {s x o} hx := by
    cases x with
    | done o' =>
      obtain rfl := Option.some.inj hx
      rfl
    | _ => cases hx
  step b h hx _ := custody_step h.1 hx b
  frame b h _ _ hy _ := custody_frame h.1 hy b

end Custody

end LowLatency.LockFreeQueue
