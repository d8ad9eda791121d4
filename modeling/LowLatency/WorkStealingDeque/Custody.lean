import LowLatency.Concurrency.Custody
import LowLatency.WorkStealingDeque.Invariant

/-!
# The deque as a place for items

An item is in the deque from the store of its node into a cell to the exchange that takes the node
out; the operation that did so then holds it until it returns (`custody`). `stored_eq_zero` says
when the deque is empty: no operation reaches for an item and `bottom_` is not above `top_`.
-/

namespace LowLatency.WorkStealingDeque

open Concurrency

variable {α Tid : Type*}

/-- The item that an operation starts with. -/
def Op.given : Op α → Option α
  | .push item => some item
  | .pop | .steal => none

/-- What an operation has in its hands. -/
def hold : Local α → Multiset α
  | .pushLoadBottom item | .pushLoadTop item _ | .pushWait item _ | .pushStoreData item _ => {item}
  | .clearRound _ p | .finish p => {p.item}
  | .done o => slot o.item
  | _ => 0

/-- Where the items are. -/
def ledger (r : Ring) : Ledger α (Shared α) (Local α) where
  stored s := (bag r.size s.cells.data).map Node.item
  held _ := hold

variable [Fintype Tid] {r : Ring} {owner t : Tid} {s : Shared α} {l : Tid → Option (Local α)}
  {x : Local α}

/-- An instruction moves the item between the deque and the operation. -/
theorem custody_step (h : Inv r owner s l) (hx : l t = some x) (b : Bool) :
    (ledger r).stored (step r b s x).1 + hold (step r b s x).2 =
      (ledger r).stored s + hold x := by
  cases x with
  | pushStoreData item pos =>
    have hempty : s.cells.data (r.slot pos) = none := by
      have hphase := h.phase
      rw [← h.only t _ hx rfl, hx] at hphase
      exact hphase.2.2
    have hup := congrArg (Multiset.map Node.item)
      (bag_update (r.slot_lt pos) s.cells.data (some ⟨s.pushed.length, pos, item⟩))
    rw [hempty, slot_none, add_zero, Multiset.map_add] at hup
    simp only [step, ledger, hold, Cells.setData_data, hup, add_zero]
    rfl
  | exchange pos =>
    cases hp : s.cells.data (r.slot pos) with
    | none => simp only [step, hp, hold, Outcome.item, slot_none]
    | some p =>
      have hup := congrArg (Multiset.map Node.item) (bag_update (r.slot_lt pos) s.cells.data none)
      rw [hp, slot_none, add_zero, Multiset.map_add] at hup
      simp only [step, hp, ledger, hold, Cells.setData_data, ← hup, add_zero]
      rfl
  | pushLoadTop | pushWait | popLoadBottom | popLoadTop | popClaim | stealLoadBottom
  | stealLoadRound | stealClaim =>
    simp only [step]
    split_ifs <;> rfl
  | pushStoreRound | clearRound => simp [step, ledger, hold]
  | _ => rfl

variable [DecidableEq Tid]

/-- **The deque neither copies nor drops an item.** -/
theorem custody (r : Ring) (owner : Tid) :
    (object (α := α) r).Custody (may owner) (Inv r owner) Op.given (ledger r) where
  kept := inv_inductive r owner
  start _ op := by cases op <;> rfl
  result {s x o} hx := by
    cases x with
    | done o' =>
      obtain rfl := Option.some.inj hx
      rfl
    | _ => cases hx
  step b h hx _ := custody_step h hx b
  frame _ _ _ _ _ _ := rfl

/-! ## The two ends -/

omit [Fintype Tid] [DecidableEq Tid] in
theorem top_le_step (b : Bool) : s.top ≤ (step r b s x).1.top := by
  cases x with
  | popClaim pos t =>
    simp only [step]
    split_ifs with ht
    · exact ht.le.trans (Nat.le_succ t)
    · exact le_rfl
  | stealClaim t =>
    simp only [step]
    split_ifs with ht
    · exact ht.le.trans (Nat.le_succ t)
    · exact le_rfl
  | pushLoadTop | pushWait | popLoadBottom | popLoadTop | stealLoadBottom | stealLoadRound =>
    simp only [step]
    split_ifs <;> exact le_rfl
  | exchange =>
    simp only [step]
    split <;> exact le_rfl
  | _ => exact le_rfl

omit [DecidableEq Tid] in
theorem bottom_step (h : Inv r owner s l) (hx : l t = some x) (ht : t ≠ owner) (b : Bool) :
    (step r b s x).1.bottom = s.bottom := by
  have hown : x.ofOwner = false := by
    cases ho : x.ofOwner with
    | false => rfl
    | true => exact absurd (h.only t x hx ho) ht
  cases x with
  | stealLoadBottom | stealLoadRound | stealClaim =>
    simp only [step]
    split_ifs <;> rfl
  | exchange =>
    simp only [step]
    split <;> rfl
  | stealLoadTop | clearRound | finish | done => rfl
  | _ => cases hown

/-- The operation has claimed the position of an item, or a pop has lowered `bottom_` to it. -/
def reaches (s : Shared α) : Local α → Bool
  | .popLoadTop b | .popClaim b _ => decide (s.top ≤ b)
  | x => x.claims.isSome

omit [DecidableEq Tid] in
/-- With `bottom_` not above `top_`, and no operation reaching for an item, the deque stores
nothing. -/
theorem stored_eq_zero (h : Inv r owner s l) (hreach : ∀ u x, l u = some x → reaches s x = false)
    (hle : s.bottom ≤ s.top) : (ledger r).stored s = 0 := by
  have hlim : limit s.bottom (l owner) ≤ s.top := by
    cases hx : l owner with
    | none => exact hle
    | some x =>
      have hphase := h.phase_at hx
      have hno := hreach owner x hx
      cases x with
      | popLoadTop | popClaim => exact not_le.mp (of_decide_eq_false hno)
      | popRestore | popLost => exact hphase.2.ge
      | popWon => cases hno
      | _ => exact hle
  have hbag : bag r.size s.cells.data = 0 := by
    refine bag_eq_zero.mpr fun j _ => Option.eq_none_iff_forall_ne_some.mpr fun p hp => ?_
    obtain ⟨_, ⟨hge, hlt⟩ | ⟨u, x, hu, hx⟩⟩ := h.placed j p hp
    · omega
    · have hno := hreach u x hu
      cases x with
      | exchange | pushStoreRound | pushStoreBottom | popWon => cases hno
      | _ => cases hx
  simp only [ledger, hbag, Multiset.map_zero]

end LowLatency.WorkStealingDeque
