import LowLatency.Concurrency.StoreBuffer
import LowLatency.WorkStealingDeque.Range

/-!
# The deque under x86-TSO

`program` is the deque in instructions of x86. Only the owner has plain stores: those of `push` to a
cell's `data` and `round`, and those to `bottom_`. With stores that take effect at once it is the
deque of `Basic` (`sequential_step`).

Without a fence between them, a pop's load of `top_` can come before its store to `bottom_` reaches
memory; then thieves still see the position that the pop takes without a compare-exchange
(`exists_claimed_twice`).
-/

namespace LowLatency.WorkStealingDeque

open Concurrency

variable {α Tid : Type*}

/-- A plain store: of a new node to the cell of position `b`, to its round, or to `bottom_`. -/
inductive Store (α : Type*) where
  | data (b id : ℕ) (item : α)
  | round (b : ℕ)
  | bottom (b : ℕ)

namespace Store

/-- The arrival of a store in memory. -/
def apply (r : Ring) (s : Shared α) : Store α → Shared α
  | .data b id item =>
    { s with
      cells := s.cells.setData (r.slot b) (some ⟨id, b, item⟩)
      pushed := s.pushed ++ [⟨id, b, item⟩] }
  | .round b => { s with cells := s.cells.setRound (r.slot b) (b + 1) }
  | .bottom b => { s with bottom := b }

/-- The position whose cell is written. -/
def cell : Store α → Option ℕ
  | .data b _ _ | .round b => some b
  | .bottom _ => none

end Store

/-- The next instruction. -/
def instr (r : Ring) : Local α → Instr (Shared α) (Store α) (Local α)
  | .pushLoadBottom item => .load fun s => .pushLoadTop item s.bottom
  | .pushLoadTop item b => .load fun s =>
    if (r.size : ℤ) ≤ (b : ℤ) - s.top then .done (.refused item) else .pushWait item b
  | .pushWait item b => .load fun s =>
    if (s.cells.data (r.slot b)).isSome then .pushWait item b else .pushStoreData item b
  | .pushStoreData item b => .store fun s => (.data b s.pushed.length item, .pushStoreRound b)
  | .pushStoreRound b => .store fun _ => (.round b, .pushStoreBottom b)
  | .pushStoreBottom b => .store fun _ => (.bottom (b + 1), .done .put)
  | .popLoadBottom => .load fun s =>
    if s.bottom = 0 then .done .nothing else .popStoreBottom (s.bottom - 1)
  | .popStoreBottom b => .store fun _ => (.bottom b, .popLoadTop b)
  | .popLoadTop b => .load fun s =>
    if b < s.top then .popRestore s.top
    else if s.top < b then .exchange b
    else .popClaim b s.top
  | .popRestore t => .store fun _ => (.bottom t, .done .nothing)
  | .popClaim b t => .locked fun s =>
    if s.top = t then ({ s with top := t + 1 }, .popWon b t) else (s, .popLost s.top)
  | .popLost t => .store fun _ => (.bottom (t + 1), .done .nothing)
  | .popWon b t => .store fun _ => (.bottom (t + 1), .exchange b)
  | .stealLoadTop => .load fun s => .stealLoadBottom s.top
  | .stealLoadBottom t => .load fun s =>
    if s.bottom ≤ t then .done .nothing else .stealLoadRound t
  | .stealLoadRound t => .load fun s =>
    if s.cells.round (r.slot t) = t + 1 then .stealClaim t else .done .nothing
  | .stealClaim t => .locked fun s =>
    if s.top = t then ({ s with top := t + 1 }, .exchange t) else (s, .done .nothing)
  | .exchange pos => .locked fun s =>
    match s.cells.data (r.slot pos) with
    | none => (s, .done .nothing)
    | some p => ({ s with cells := s.cells.setData (r.slot pos) none }, .clearRound pos p)
  | .clearRound pos p => .locked fun s =>
    ({ s with cells := s.cells.clearRound (r.slot pos) pos }, .finish p)
  -- the buffer is still empty after the compare-exchange on the round, so nothing waits here
  | .finish p => .locked fun s => ({ s with deleted := s.deleted ++ [p] }, .done (.got p.item))
  | .done o => .load fun _ => .done o

def program (r : Ring) : Program (Op α) (Outcome α) (Shared α) (Store α) (Local α) where
  start := start
  instr := instr r
  apply := Store.apply r
  result := result

/-- With stores that take effect at once it is the same deque. -/
theorem sequential_step (r : Ring) (b : Bool) (s : Shared α) (x : Local α) :
    (program r).sequential.step b s x = step r b s x := by
  cases x with
  | pushLoadTop | pushWait | popLoadBottom | stealLoadBottom | stealLoadRound =>
    simp only [Program.sequential, program, instr, step]
    split <;> rfl
  | popLoadTop b =>
    simp only [Program.sequential, program, instr, step]
    split
    · rfl
    · split <;> rfl
  | _ => rfl

theorem step_load {r : Ring} {x : Local α} {f : Shared α → Local α} (hi : instr r x = .load f)
    (s : Shared α) : step r false s x = (s, f s) := by
  rw [← sequential_step]
  simp only [Program.sequential, program, hi]

theorem step_store {r : Ring} {x : Local α} {f : Shared α → Store α × Local α}
    (hi : instr r x = .store f) (s : Shared α) :
    step r false s x = (Store.apply r s (f s).1, (f s).2) := by
  rw [← sequential_step]
  simp only [Program.sequential, program, hi]

theorem step_locked {r : Ring} {x : Local α} {f : Shared α → Shared α × Local α}
    (hi : instr r x = .locked f) (s : Shared α) : step r false s x = f s := by
  rw [← sequential_step]
  simp only [Program.sequential, program, hi]

/-- How a position is taken: by the branch `b > t` of a pop, or by the compare-exchange of a steal;
`push` is the number of the push at that position, counted from 1. -/
inductive Taking where
  | tail (pos push : ℕ)
  | stolen (pos push : ℕ)
  deriving DecidableEq

/-- How many times position `p` has been pushed to. -/
def pushesAt (s : Shared α) (p : ℕ) : ℕ := s.pushed.countP fun n => n.pos == p

/-- The position that the next instruction takes, in memory `m` and with what the thread sees. A pop
counts the pushes that it has made, a thief those in memory. -/
def takes (m seen : Shared α) : Local α → Option Taking
  | .popLoadTop b => if m.top < b then some (.tail b (pushesAt seen b)) else none
  | .stealClaim pos => if m.top = pos then some (.stolen pos (pushesAt m pos)) else none
  | _ => none

section Runs

variable [DecidableEq Tid] (r : Ring) (owner : Tid)

/-- The taking of a position. -/
def taking (c : Program.Config Tid (Shared α) (Store α) (Local α)) :
    Program.Action Tid (Op α) → Option Taking
  | .step t => (c.locals t).bind (takes c.mem ((program r).view c.mem (c.pending t)))
  | _ => none

/-- An owner and any number of thieves under x86-TSO, with the record of the positions taken. -/
abbrev buffered : System (Program.Config Tid (Shared α) (Store α) (Local α) × List Taking)
    (Program.Action Tid (Op α)) :=
  ((program r).client (may owner)).record (taking r)

/-- The positions fit in memory and in what the owner sees, its pending stores included. -/
def Fits (c : Program.Config Tid (Shared α) (Store α) (Local α)) : Prop :=
  c.mem.Fits ∧ ((program r).view c.mem (c.pending owner)).Fits

instance (c : Program.Config Tid (Shared α) (Store α) (Local α)) : Decidable (Fits r owner c) :=
  inferInstanceAs (Decidable (_ ∧ _))

end Runs

/-- A new deque, used by nobody yet. -/
def bufferedInitial (α Tid : Type*) :
    Program.Config Tid (Shared α) (Store α) (Local α) × List Taking :=
  (Program.Config.new Tid (Store α) (Local α) init, [])

/-- What a user of the deque expects. -/
structure Untangled (owner : Tid) (c : Program.Config Tid (Shared α) (Store α) (Local α))
    (takings : List Taking) : Prop where
  /-- No position taken by the branch `b > t` of a pop is stolen after the same push. -/
  once : ∀ p k, .tail p k ∈ takings → .stolen p k ∉ takings
  /-- Between the owner's operations, with its buffer empty, the range is a range and no stored
  element lies below it, except those that an operation has claimed and is about to take. -/
  range : (∀ x, c.locals owner = some x → ∃ o, x = .done o) → c.pending owner = [] →
    c.mem.top ≤ c.mem.bottom ∧ ∀ j n, c.mem.cells.data j = some n →
      c.mem.top ≤ n.pos ∨ ∃ u, c.locals u = some (.exchange n.pos)

/-- The next instruction is not a load of `top_` by which a pop takes the tail while its store to
`bottom_` is still pending. -/
def StoreFirst (s : Shared α) (buf : List (Store α)) : Local α → Prop
  | .popLoadTop b => s.top < b → buf = []
  | _ => True

/-- Nor is it a compare-exchange that a pop loses. -/
def Ordered (s : Shared α) (buf : List (Store α)) (x : Local α) : Prop :=
  StoreFirst s buf x ∧ NoLostClaim s x

/-- The position of a pop that is about to load `top_`. -/
def loadsTop : Local α → Option ℕ
  | .popLoadTop b => some b
  | _ => none

theorem storeFirst_iff {s : Shared α} {buf : List (Store α)} {x : Local α} :
    (∀ b ∈ loadsTop x, s.top < b → buf = []) ↔ StoreFirst s buf x := by
  cases x <;> simp [loadsTop, StoreFirst]

instance (s : Shared α) (buf : List (Store α)) (x : Local α) : Decidable (StoreFirst s buf x) :=
  decidable_of_iff _ storeFirst_iff

instance (s : Shared α) (buf : List (Store α)) (x : Local α) : Decidable (Ordered s buf x) := by
  unfold Ordered
  infer_instance

end LowLatency.WorkStealingDeque
