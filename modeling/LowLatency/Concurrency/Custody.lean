import LowLatency.Concurrency.Object
import LowLatency.Concurrency.Slots

/-!
# Custody of items

A program that passes items through containers has to know where they are while the operations of
a container are in progress. A `Ledger` says what a container stores and what an operation in
progress holds; `Custody` that each instruction only moves items between the two, that an operation
starts with the item it was given, and that it ends with the item it reports.
-/

namespace LowLatency.Concurrency

variable {α Op S L Tid : Type*} [DecidableEq Tid]

/-- Where the items of a container are. -/
structure Ledger (α S L : Type*) where
  /-- What the container has. -/
  stored : S → Multiset α
  /-- What an operation in progress has. -/
  held : S → L → Multiset α

/-- The container neither copies nor drops an item. -/
structure Object.Custody (O : Object Op (Outcome α) S L) (may : Tid → Op → Bool)
    (Inv : S → (Tid → Option L) → Prop) (given : Op → Option α) (K : Ledger α S L) : Prop where
  kept : O.Inductive may (fun _ _ => True) Inv
  start : ∀ s op, K.held s (O.start op) = slot (given op)
  result : ∀ {s x o}, O.result x = some o → K.held s x = slot o.item
  step : ∀ {s l t x} (b : Bool), Inv s l → l t = some x → O.result x = none →
    K.stored (O.step b s x).1 + K.held (O.step b s x).1 (O.step b s x).2 =
      K.stored s + K.held s x
  /-- What the other operations hold stays theirs. -/
  frame : ∀ {s l t u x y} (b : Bool), Inv s l → l t = some x → O.result x = none → l u = some y →
    u ≠ t → K.held (O.step b s x).1 y = K.held s y

/-- The ledger of an object whose operations take effect in one instruction. -/
def Ledger.atomic (stored : S → Multiset α) (given : Op → Option α) :
    Ledger α S (Op ⊕ Outcome α) where
  stored := stored
  held _
    | .inl op => slot (given op)
    | .inr o => slot o.item

/-- It is enough that each operation as a whole copies and drops nothing. -/
theorem Object.custody_atomic {exec : Bool → S → Op → S × Outcome α} {may : Tid → Op → Bool}
    {given : Op → Option α} {stored : S → Multiset α}
    (h : ∀ b s op, stored (exec b s op).1 + slot (exec b s op).2.item =
      stored s + slot (given op)) :
    (Object.atomic exec).Custody may (fun _ _ => True) given (.atomic stored given) where
  kept := ⟨fun _ _ _ => trivial, fun _ _ _ _ _ => trivial, fun _ _ _ => trivial⟩
  start _ _ := rfl
  result {s x o} hx := by
    cases x with
    | inl op => cases hx
    | inr o' => exact congrArg (fun o : Outcome α => slot o.item) (Option.some.inj hx)
  step {s l t x} b _ _ hx := by
    cases x with
    | inl op => exact h b s op
    | inr o => cases hx
  frame {s l t u x y} b _ _ _ _ _ := by cases y <;> rfl

end LowLatency.Concurrency
