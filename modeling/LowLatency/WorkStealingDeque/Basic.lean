import LowLatency.Cell
import LowLatency.Concurrency.Object
import LowLatency.NextPowerOfTwo

/-!
# The bounded work-stealing deque

`WorkStealingDeque<T>` of `WorkStealingDeque.h`. One thread, the owner, pushes and pops at
`bottom_`; any thread steals at `top_`. Each constructor of `Local` is a point of an operation
right before one atomic instruction; `step` executes it.

Positions are natural numbers. The code compares 64-bit registers as signed numbers, which agrees with
them while the positions are below `2 ^ 63` (`Shared.Fits`): the results below are about the runs that
stay there. The three copies of the code that consumes a claimed cell (after the tail branch, after the owner's CAS and
after a thief's) are the constructors `exchange`, `clearRound` and `finish`.

`pushed` lists the nodes in the order of their allocation and `deleted` those whose item was moved
out and which were then deleted; no instruction reads either.
-/

namespace LowLatency.WorkStealingDeque

open Concurrency

/-- The members of the deque. -/
structure Shared (α : Type*) where
  top : ℕ
  bottom : ℕ
  cells : Cells α
  pushed : List (Node α)
  deleted : List (Node α)

/-- The signed comparisons of the code see the positions as they are. -/
def Shared.Fits {α : Type*} (s : Shared α) : Prop := s.top < 2 ^ 63 ∧ s.bottom < 2 ^ 63

instance {α : Type*} (s : Shared α) : Decidable s.Fits :=
  inferInstanceAs (Decidable (_ ∧ _))

inductive Op (α : Type*) where
  | push (item : α)
  | pop
  | steal

/-- The next instruction of an operation, with the values it has loaded so far. In the `pop`
constructors `b` is the decremented bottom. -/
inductive Local (α : Type*) where
  | pushLoadBottom (item : α)
  | pushLoadTop (item : α) (b : ℕ)
  | pushWait (item : α) (b : ℕ)
  | pushStoreData (item : α) (b : ℕ)
  | pushStoreRound (b : ℕ)
  | pushStoreBottom (b : ℕ)
  | popLoadBottom
  | popStoreBottom (b : ℕ)
  | popLoadTop (b : ℕ)
  | popRestore (t : ℕ)
  | popClaim (b t : ℕ)
  | popLost (t : ℕ)
  | popWon (b t : ℕ)
  | stealLoadTop
  | stealLoadBottom (t : ℕ)
  | stealLoadRound (t : ℕ)
  | stealClaim (t : ℕ)
  | exchange (pos : ℕ)
  | clearRound (pos : ℕ) (p : Node α)
  | finish (p : Node α)
  | done (r : Outcome α)

variable {α : Type*}

/-- The constructor. -/
def init : Shared α := ⟨0, 0, .init, [], []⟩

def start : Op α → Local α
  | .push item => .pushLoadBottom item
  | .pop => .popLoadBottom
  | .steal => .stealLoadTop

/-- One instruction. A compare-exchange fails only on a mismatch, so the Boolean is not used. -/
def step (r : Ring) (_ : Bool) (s : Shared α) : Local α → Shared α × Local α
  | .pushLoadBottom item => (s, .pushLoadTop item s.bottom)
  | .pushLoadTop item b =>
    if (r.size : ℤ) ≤ (b : ℤ) - s.top then (s, .done (.refused item)) else (s, .pushWait item b)
  | .pushWait item b =>
    if (s.cells.data (r.slot b)).isSome then (s, .pushWait item b) else (s, .pushStoreData item b)
  | .pushStoreData item b =>
    let p : Node α := ⟨s.pushed.length, b, item⟩
    ({ s with cells := s.cells.setData (r.slot b) (some p), pushed := s.pushed ++ [p] },
      .pushStoreRound b)
  | .pushStoreRound b =>
    ({ s with cells := s.cells.setRound (r.slot b) (b + 1) }, .pushStoreBottom b)
  | .pushStoreBottom b => ({ s with bottom := b + 1 }, .done .put)
  | .popLoadBottom =>
    if s.bottom = 0 then (s, .done .nothing) else (s, .popStoreBottom (s.bottom - 1))
  | .popStoreBottom b => ({ s with bottom := b }, .popLoadTop b)
  | .popLoadTop b =>
    if b < s.top then (s, .popRestore s.top)
    else if s.top < b then (s, .exchange b)
    else (s, .popClaim b s.top)
  | .popRestore t => ({ s with bottom := t }, .done .nothing)
  | .popClaim b t =>
    -- a failed compare-exchange writes the current `top_` into `t`
    if s.top = t then ({ s with top := t + 1 }, .popWon b t) else (s, .popLost s.top)
  | .popLost t => ({ s with bottom := t + 1 }, .done .nothing)
  | .popWon b t => ({ s with bottom := t + 1 }, .exchange b)
  | .stealLoadTop => (s, .stealLoadBottom s.top)
  | .stealLoadBottom t =>
    if s.bottom ≤ t then (s, .done .nothing) else (s, .stealLoadRound t)
  | .stealLoadRound t =>
    if s.cells.round (r.slot t) = t + 1 then (s, .stealClaim t) else (s, .done .nothing)
  | .stealClaim t =>
    if s.top = t then ({ s with top := t + 1 }, .exchange t) else (s, .done .nothing)
  | .exchange pos =>
    match s.cells.data (r.slot pos) with
    | none => (s, .done .nothing)
    | some p =>
      ({ s with cells := s.cells.setData (r.slot pos) none }, .clearRound pos p)
  | .clearRound pos p => ({ s with cells := s.cells.clearRound (r.slot pos) pos }, .finish p)
  | .finish p => ({ s with deleted := s.deleted ++ [p] }, .done (.got p.item))
  | .done o => (s, .done o)

def result : Local α → Option (Outcome α)
  | .done o => some o
  | _ => none

/-- The deque as a shared object. -/
def object (r : Ring) : Object (Op α) (Outcome α) (Shared α) (Local α) where
  start := start
  step := step r
  result := result

/-- Only the owner pushes and pops. -/
def may {Tid : Type*} [DecidableEq Tid] (owner t : Tid) : Op α → Bool
  | .push _ | .pop => decide (t = owner)
  | .steal => true

/-- An owner and any number of thieves on the deque. -/
abbrev system {Tid : Type*} [DecidableEq Tid] (r : Ring) (owner : Tid) :
    System (Config Tid (Shared α) (Local α)) (Action Tid (Op α)) :=
  (object r).client (may owner)

/-- A new deque, used by nobody yet. -/
def initial (Tid : Type*) : Config Tid (Shared α) (Local α) := ⟨init, fun _ => none⟩

/-- `size()` loads `top_` and then `bottom_`. -/
def size (t b : ℕ) : ℕ := if t < b then b - t else 0

/-- `empty()` loads `top_` and then `bottom_`. -/
def empty (t b : ℕ) : Bool := decide (size t b = 0)

theorem empty_iff {t b : ℕ} : empty t b = true ↔ b ≤ t := by
  unfold empty size
  rw [decide_eq_true_iff]
  split <;> omega

/-- The nodes stored at the positions from `top_` to `bottom_`, which the destructor deletes. -/
def stored (r : Ring) (s : Shared α) : List (Node α) :=
  (List.range' s.top (s.bottom - s.top)).filterMap fun i => s.cells.data (r.slot i)

namespace Local

/-- Instructions of `push` and `pop` before they consume a cell. -/
def ofOwner : Local α → Bool
  | .pushLoadBottom _ | .pushLoadTop _ _ | .pushWait _ _ | .pushStoreData _ _ | .pushStoreRound _
  | .pushStoreBottom _ | .popLoadBottom | .popStoreBottom _ | .popLoadTop _ | .popRestore _
  | .popClaim _ _ | .popLost _ | .popWon _ _ => true
  | _ => false

/-- The node an operation has taken out of a cell and not yet deleted. -/
def held : Local α → Multiset (Node α)
  | .clearRound _ p | .finish p => {p}
  | _ => 0

end Local

end LowLatency.WorkStealingDeque
