import LowLatency.Cell
import LowLatency.Concurrency.Object
import LowLatency.NextPowerOfTwo

/-!
# The growing work-stealing queue

`QueueWorker<T>` and `QueueStealer<T>` of `WorkStealingQueue.h` on their `QueueShared<T>`, with the
quiescence gate of `LightEpoch.h`. One thread, the owner, pushes, grows and pops; any thread steals
under an epoch guard. Each constructor of `Local` is a point of an operation right before one atomic
instruction, together with the accesses to the owner's private members that follow it.

`heap` gives the arrays ever allocated, by number; `freed` lists the deleted ones. `active_` is a 32-bit
word. Positions are natural numbers, which the signed 64-bit members hold while they are below
`2 ^ 63` (`Shared.Fits`): the results below are about the runs that stay there.

`pushed`, `deleted`, `leaked` and `window` are history that no instruction reads: the nodes allocated,
the nodes whose item was moved out and which were then deleted, the nodes whose array was deleted
under them, and the data pointers of the old array when the copying began.
-/

namespace LowLatency.WorkStealingQueue

open Concurrency

structure Arr (α : Type*) where
  cap : Pow2
  cells : Cells α

/-- The members of `QueueShared`, of its gate, and the private members `bottom_` and `current_` of
the owner. -/
structure Shared (α : Type*) where
  top : ℕ
  array : ℕ
  gate : Bool
  active : BitVec 32
  bottom : ℕ
  current : ℕ
  heap : ℕ → Arr α
  allocated : ℕ
  freed : List ℕ
  pushed : List (Node α)
  deleted : List (Node α)
  leaked : List (Node α)
  window : ℕ → Option (Node α)

/-- The positions are those of signed 64-bit members, with room for one more push. -/
def Shared.Fits {α : Type*} (s : Shared α) : Prop := s.top < 2 ^ 63 ∧ s.bottom + 1 < 2 ^ 63

instance {α : Type*} (s : Shared α) : Decidable s.Fits :=
  inferInstanceAs (Decidable (_ ∧ _))

inductive Op (α : Type*) where
  | push (item : α)
  | pop
  | steal
  | stealBatch (max : ℕ)
  | empty

/-- What an operation returns. -/
inductive Result (α : Type*) where
  | pushed
  | popped (item : Option α)
  | stolen (item : Option α)
  | batch (items : List α)
  | isEmpty (b : Bool)
  deriving DecidableEq

/-- The thief's operation, with the items of the batch so far. -/
inductive Kind (α : Type*) where
  | steal
  | batch (max : ℕ) (items : List α)
  | empty

/-- The next instruction of an operation, with the values it has loaded so far. -/
inductive Local (α : Type*) where
  | pushLoadTop (item : α)
  | pushWait (item : α)
  | pushStoreData (item : α)
  | pushStoreRound
  | growAlloc (item : α)
  | growClose (item : α) (n : ℕ)
  | growAwait (item : α) (n : ℕ)
  | growLoadTop (item : α) (n : ℕ)
  | growExchange (item : α) (n t i : ℕ)
  | growStoreData (item : α) (n t i : ℕ) (p : Node α)
  | growStoreRound (item : α) (n t i : ℕ)
  | growPublish (item : α) (n t : ℕ)
  | growDelete (item : α) (old : ℕ)
  | growOpen (item : α)
  | popLoadTop
  | popTail (pos : ℕ)
  | popTailClear (pos : ℕ) (p : Node α)
  | popClaim (t : ℕ)
  | popExchange (t : ℕ)
  | popClear (t : ℕ) (p : Node α)
  | popFinish (p : Node α)
  | enterLoadGate (k : Kind α)
  | enterAdd (k : Kind α)
  | enterRecheck (k : Kind α)
  | enterSub (k : Kind α)
  | loadTop (k : Kind α)
  | loadArray (k : Kind α) (t : ℕ)
  | loadRound (k : Kind α) (t a : ℕ)
  | claim (k : Kind α) (t a : ℕ)
  | exchange (k : Kind α) (t a : ℕ)
  | clearRound (k : Kind α) (t a : ℕ) (p : Node α)
  | finish (k : Kind α) (p : Node α)
  | exit (r : Result α)
  | done (r : Result α)

variable {α : Type*}

namespace Shared

variable (s : Shared α)

/-- The mask of an array, given as its size. -/
def cap (a : ℕ) : Pow2 := (s.heap a).cap

def cells (a : ℕ) : Cells α := (s.heap a).cells

/-- `a->cells[pos & a->mask].data`. -/
def dataAt (a pos : ℕ) : Option (Node α) := (s.cells a).data ((s.cap a).slot pos)

/-- `a->cells[pos & a->mask].round`. -/
def roundAt (a pos : ℕ) : ℕ := (s.cells a).round ((s.cap a).slot pos)

/-- A write to the cells of array `a`. -/
def setCells (a : ℕ) (c : Cells α) : Shared α :=
  { s with heap := Function.update s.heap a ⟨s.cap a, c⟩ }

def setData (a pos : ℕ) (d : Option (Node α)) : Shared α :=
  s.setCells a ((s.cells a).setData ((s.cap a).slot pos) d)

def setRound (a pos n : ℕ) : Shared α :=
  s.setCells a ((s.cells a).setRound ((s.cap a).slot pos) n)

/-- `round.compare_exchange(pos + 1, 0)`. -/
def clearRound (a pos : ℕ) : Shared α :=
  s.setCells a ((s.cells a).clearRound ((s.cap a).slot pos) pos)

/-- The nodes an array's cells point to. -/
def nodes (a : ℕ) : List (Node α) := (List.range (s.cap a).size).filterMap (s.cells a).data

/-- The same nodes as a multiset. -/
def stock (a : ℕ) : Multiset (Node α) := bag (s.cap a).size (s.cells a).data

/-! Writes to one array. -/

section Writes

variable (a b pos q n : ℕ) (c : Cells α) (d : Option (Node α))

theorem setCells_cells : (s.setCells a c).cells b = if b = a then c else s.cells b := by
  show (Function.update s.heap a ⟨s.cap a, c⟩ b).cells = _
  by_cases h : b = a
  · subst h
    rw [Function.update_self, if_pos rfl]
  · rw [Function.update_of_ne h, if_neg h]
    rfl

@[simp] theorem setCells_cap : (s.setCells a c).cap b = s.cap b := by
  show (Function.update s.heap a ⟨s.cap a, c⟩ b).cap = _
  by_cases h : b = a
  · subst h
    rw [Function.update_self]
  · rw [Function.update_of_ne h]
    rfl

@[simp] theorem setData_cap : (s.setData a pos d).cap b = s.cap b := s.setCells_cap ..
@[simp] theorem setRound_cap : (s.setRound a pos n).cap b = s.cap b := s.setCells_cap ..
@[simp] theorem clearRound_cap : (s.clearRound a pos).cap b = s.cap b := s.setCells_cap ..

theorem setData_data : ((s.setData a pos d).cells b).data =
    if b = a then Function.update (s.cells a).data ((s.cap a).slot pos) d else (s.cells b).data := by
  unfold setData
  rw [setCells_cells]
  split
  · rw [Cells.setData_data]
  · rfl

@[simp] theorem setData_round : ((s.setData a pos d).cells b).round = (s.cells b).round := by
  unfold setData
  rw [setCells_cells]
  split
  next h => rw [Cells.setData_round, h]
  next => rfl

@[simp] theorem setRound_data : ((s.setRound a pos n).cells b).data = (s.cells b).data := by
  unfold setRound
  rw [setCells_cells]
  split
  next h => rw [Cells.setRound_data, h]
  next => rfl

theorem setRound_round : ((s.setRound a pos n).cells b).round =
    if b = a then Function.update (s.cells a).round ((s.cap a).slot pos) n
    else (s.cells b).round := by
  unfold setRound
  rw [setCells_cells]
  split
  · rw [Cells.setRound_round]
  · rfl

@[simp] theorem clearRound_data : ((s.clearRound a pos).cells b).data = (s.cells b).data := by
  unfold clearRound
  rw [setCells_cells]
  split
  next h => rw [Cells.clearRound_data, h]
  next => rfl

theorem setData_other (h : b ≠ a) : (s.setData a pos d).cells b = s.cells b := by
  unfold setData
  rw [setCells_cells, if_neg h]

theorem clearRound_other (h : b ≠ a) : (s.clearRound a pos).cells b = s.cells b := by
  unfold clearRound
  rw [setCells_cells, if_neg h]

theorem setData_dataAt : (s.setData a pos d).dataAt b q =
    if b = a ∧ (s.cap a).slot q = (s.cap a).slot pos then d else s.dataAt b q := by
  unfold dataAt
  rw [setData_data, setData_cap]
  by_cases h : b = a
  · subst h
    rw [if_pos rfl]
    by_cases hq : (s.cap b).slot q = (s.cap b).slot pos
    · rw [hq, Function.update_self, if_pos ⟨rfl, rfl⟩]
    · rw [Function.update_of_ne hq, if_neg fun h => hq h.2]
  · rw [if_neg h, if_neg fun h' => h h'.1]

theorem setData_roundAt : (s.setData a pos d).roundAt b q = s.roundAt b q := by
  unfold roundAt
  rw [setData_round, setData_cap]

theorem setRound_dataAt : (s.setRound a pos n).dataAt b q = s.dataAt b q := by
  unfold dataAt
  rw [setRound_data, setRound_cap]

theorem clearRound_dataAt : (s.clearRound a pos).dataAt b q = s.dataAt b q := by
  unfold dataAt
  rw [clearRound_data, clearRound_cap]

theorem setRound_roundAt : (s.setRound a pos n).roundAt b q =
    if b = a ∧ (s.cap a).slot q = (s.cap a).slot pos then n else s.roundAt b q := by
  unfold roundAt
  rw [setRound_round, setRound_cap]
  by_cases h : b = a
  · subst h
    rw [if_pos rfl]
    by_cases hq : (s.cap b).slot q = (s.cap b).slot pos
    · rw [hq, Function.update_self, if_pos ⟨rfl, rfl⟩]
    · rw [Function.update_of_ne hq, if_neg fun h => hq h.2]
  · rw [if_neg h, if_neg fun h' => h h'.1]

/-- Clearing the round of a position leaves the rounds of all others. -/
theorem clearRound_roundAt {s : Shared α} {a p pos : ℕ} (hp : s.roundAt a p = p + 1)
    (hne : p ≠ pos) : (s.clearRound a pos).roundAt a p = p + 1 := by
  unfold roundAt at hp ⊢
  rw [clearRound_cap]
  unfold clearRound
  rw [setCells_cells, if_pos rfl]
  exact Cells.clearRound_round _ _ _ hp hne

/-- After clearing the round of a position, the position has no round, nor has any other that had
none before. -/
theorem clearRound_stale {s : Shared α} {a p pos : ℕ} (hp : s.roundAt a p ≠ p + 1 ∨ p = pos) :
    (s.clearRound a pos).roundAt a p ≠ p + 1 := by
  unfold roundAt at hp ⊢
  rw [clearRound_cap]
  unfold clearRound
  rw [setCells_cells, if_pos rfl]
  exact Cells.clearRound_stale _ _ _ (hp.imp_right fun h => ⟨h, h ▸ rfl⟩)

theorem stock_setData : (s.setData a pos d).stock a + Concurrency.slot (s.dataAt a pos) =
    s.stock a + Concurrency.slot d := by
  unfold stock
  rw [setData_cap, setData_data, if_pos rfl]
  exact bag_update ((s.cap a).slot_lt pos) _ d

theorem stock_setData_other (h : b ≠ a) : (s.setData a pos d).stock b = s.stock b := by
  unfold stock
  rw [setData_cap, setData_data, if_neg h]

end Writes

theorem mem_stock {a : ℕ} {p : Node α} : p ∈ s.stock a ↔
    ∃ j < (s.cap a).size, (s.cells a).data j = some p := mem_bag

theorem coe_nodes (a : ℕ) : (s.nodes a : Multiset (Node α)) = s.stock a := bag_eq_coe _ _

end Shared

namespace Kind

/-- What the operation returns when a steal fails. -/
def failed : Kind α → Result α
  | .steal => .stolen none
  | .batch _ items => .batch items
  | .empty => .isEmpty true

/-- What follows after a steal that got `x`. -/
def succeeded (x : α) : Kind α → Local α
  | .steal => .exit (.stolen (some x))
  | .batch max items =>
    if (items ++ [x]).length < max then .loadTop (.batch max (items ++ [x]))
    else .exit (.batch (items ++ [x]))
  | .empty => .exit (.isEmpty false)

end Kind

/-- The constructor, with an array of `r.size` cells. -/
def init (r : Ring) : Shared α where
  top := 0
  array := 0
  gate := false
  active := 0
  bottom := 0
  current := 0
  heap _ := ⟨r.toPow2, .init⟩
  allocated := 1
  freed := []
  pushed := []
  deleted := []
  leaked := []
  window _ := none

/-- The state inside an epoch guard. -/
def entered (s : Shared α) : Shared α := { s with active := s.active + 1 }

def start : Op α → Local α
  | .push item => .pushLoadTop item
  | .pop => .popLoadTop
  | .steal => .enterLoadGate .steal
  | .stealBatch max => if max = 0 then .done (.batch []) else .enterLoadGate (.batch max [])
  | .empty => .enterLoadGate .empty

/-- The head of the copying loop. -/
def copyNext (s : Shared α) (item : α) (n t i : ℕ) : Local α :=
  if i < s.bottom then .growExchange item n t i else .growPublish item n t

/-- One instruction. A compare-exchange fails only on a mismatch, so the Boolean is not used. -/
def step (_ : Bool) (s : Shared α) : Local α → Shared α × Local α
  | .pushLoadTop item =>
    if ((s.cap s.current).size : ℤ) ≤ (s.bottom : ℤ) - s.top then (s, .growAlloc item)
    else (s, .pushWait item)
  | .pushWait item =>
    if (s.dataAt s.current s.bottom).isSome then (s, .pushWait item) else (s, .pushStoreData item)
  | .pushStoreData item =>
    let p : Node α := ⟨s.pushed.length, s.bottom, item⟩
    ({ s.setData s.current s.bottom (some p) with pushed := s.pushed ++ [p] }, .pushStoreRound)
  | .pushStoreRound =>
    ({ s.setRound s.current s.bottom (s.bottom + 1) with bottom := s.bottom + 1 }, .done .pushed)
  | .growAlloc item =>
    ({ s with
        heap := Function.update s.heap s.allocated ⟨(s.cap s.current).double, .init⟩
        allocated := s.allocated + 1 },
      .growClose item s.allocated)
  | .growClose item n => ({ s with gate := true }, .growAwait item n)
  | .growAwait item n => if s.active = 0 then (s, .growLoadTop item n) else (s, .growAwait item n)
  | .growLoadTop item n =>
    ({ s with window := (s.cells s.current).data }, copyNext s item n s.top s.top)
  | .growExchange item n t i =>
    match s.dataAt s.current i with
    | none => (s.setData s.current i none, copyNext s item n t (i + 1))
    | some p => (s.setData s.current i none, .growStoreData item n t i p)
  | .growStoreData item n t i p => (s.setData n i (some p), .growStoreRound item n t i)
  | .growStoreRound item n t i => (s.setRound n i (i + 1), copyNext s item n t (i + 1))
  | .growPublish item n _ => ({ s with array := n, current := n }, .growDelete item s.current)
  | .growDelete item old =>
    ({ s with freed := s.freed ++ [old], leaked := s.leaked ++ s.nodes old }, .growOpen item)
  | .growOpen item => ({ s with gate := false }, .pushLoadTop item)
  | .popLoadTop =>
    if s.bottom = 0 then (s, .done (.popped none))
    else if s.top < s.bottom - 1 then (s, .popTail (s.bottom - 1))
    else if s.bottom - 1 < s.top then (s, .done (.popped none))
    else (s, .popClaim s.top)
  | .popTail pos =>
    match s.dataAt s.current pos with
    | none => (s, .done (.popped none))
    | some p => (s.setData s.current pos none, .popTailClear pos p)
  | .popTailClear pos p => ({ s.clearRound s.current pos with bottom := pos }, .popFinish p)
  | .popClaim t =>
    if s.top = t then ({ s with top := t + 1 }, .popExchange t) else (s, .done (.popped none))
  | .popExchange t =>
    match s.dataAt s.current t with
    | none => ({ s with bottom := t + 1 }, .done (.popped none))
    | some p => ({ s.setData s.current t none with bottom := t + 1 }, .popClear t p)
  | .popClear t p => (s.clearRound s.current t, .popFinish p)
  | .popFinish p => ({ s with deleted := s.deleted ++ [p] }, .done (.popped (some p.item)))
  | .enterLoadGate k => if s.gate then (s, .enterLoadGate k) else (s, .enterAdd k)
  | .enterAdd k => ({ s with active := s.active + 1 }, .enterRecheck k)
  | .enterRecheck k => if s.gate then (s, .enterSub k) else (s, .loadTop k)
  | .enterSub k => ({ s with active := s.active - 1 }, .enterLoadGate k)
  | .loadTop k => (s, .loadArray k s.top)
  | .loadArray k t => (s, .loadRound k t s.array)
  | .loadRound k t a =>
    match k with
    | .empty => (s, .exit (.isEmpty (decide (s.roundAt a t ≠ t + 1))))
    | _ => if s.roundAt a t = t + 1 then (s, .claim k t a) else (s, .exit k.failed)
  | .claim k t a =>
    if s.top = t then ({ s with top := t + 1 }, .exchange k t a) else (s, .exit k.failed)
  | .exchange k t a =>
    match s.dataAt a t with
    | none => (s, .exit k.failed)
    | some p => (s.setData a t none, .clearRound k t a p)
  | .clearRound k t a p => (s.clearRound a t, .finish k p)
  | .finish k p => ({ s with deleted := s.deleted ++ [p] }, k.succeeded p.item)
  | .exit r => ({ s with active := s.active - 1 }, .done r)
  | .done r => (s, .done r)

def result : Local α → Option (Result α)
  | .done r => some r
  | _ => none

/-- The queue as a shared object. -/
def object : Object (Op α) (Result α) (Shared α) (Local α) where
  start := start
  step := step
  result := result

/-- Only the owner pushes and pops. -/
def may {Tid : Type*} [DecidableEq Tid] (owner t : Tid) : Op α → Bool
  | .push _ | .pop => decide (t = owner)
  | _ => true

/-- An owner and any number of thieves on the queue. -/
abbrev system {Tid : Type*} [DecidableEq Tid] (owner : Tid) :
    System (Config Tid (Shared α) (Local α)) (Action Tid (Op α)) :=
  object.client (may owner)

/-- A new queue, used by nobody yet. -/
def initial (Tid : Type*) (r : Ring) : Config Tid (Shared α) (Local α) := ⟨init r, fun _ => none⟩

/-- The nodes that `~QueueShared` deletes. -/
def destroyed (s : Shared α) : List (Node α) := s.nodes s.array

namespace Local

/-- Instructions of `push`, `grow` and `pop`. -/
def ofOwner : Local α → Bool
  | .pushLoadTop _ | .pushWait _ | .pushStoreData _ | .pushStoreRound | .growAlloc _
  | .growClose _ _ | .growAwait _ _ | .growLoadTop _ _ | .growExchange _ _ _ _
  | .growStoreData _ _ _ _ _ | .growStoreRound _ _ _ _ | .growPublish _ _ _ | .growDelete _ _
  | .growOpen _ | .popLoadTop | .popTail _ | .popTailClear _ _ | .popClaim _ | .popExchange _
  | .popClear _ _ | .popFinish _ => true
  | _ => false

/-- The owner has closed the gate. -/
def closed : Local α → Bool
  | .growAwait _ _ | .growLoadTop _ _ | .growExchange _ _ _ _ | .growStoreData _ _ _ _ _
  | .growStoreRound _ _ _ _ | .growPublish _ _ _ | .growDelete _ _ | .growOpen _ => true
  | _ => false

/-- The owner is inside its window: it has found no thief active. -/
def quiesced : Local α → Bool
  | .growLoadTop _ _ | .growExchange _ _ _ _ | .growStoreData _ _ _ _ _ | .growStoreRound _ _ _ _
  | .growPublish _ _ _ | .growDelete _ _ | .growOpen _ => true
  | _ => false

/-- The operation is counted in `active_`. -/
def registered : Local α → ℕ
  | .enterRecheck _ | .enterSub _ | .loadTop _ | .loadArray _ _ | .loadRound _ _ _ | .claim _ _ _
  | .exchange _ _ _ | .clearRound _ _ _ _ | .finish _ _ | .exit _ => 1
  | _ => 0

/-- The operation has passed the gate. -/
def inside : Local α → Bool
  | .loadTop _ | .loadArray _ _ | .loadRound _ _ _ | .claim _ _ _ | .exchange _ _ _
  | .clearRound _ _ _ _ | .finish _ _ | .exit _ => true
  | _ => false

/-- The array a thief works on. -/
def arrayOf : Local α → Option ℕ
  | .loadRound _ _ a | .claim _ _ a | .exchange _ _ a | .clearRound _ _ a _ => some a
  | _ => none

/-- The array whose cells a thief's next instruction accesses. -/
def reads : Local α → Option ℕ
  | .loadRound _ _ a | .exchange _ _ a | .clearRound _ _ a _ => some a
  | _ => none

/-- The value of `top` that `grow` copies from, while it copies. -/
def copying : Local α → Option ℕ
  | .growExchange _ _ t _ | .growStoreData _ _ t _ _ | .growStoreRound _ _ t _
  | .growPublish _ _ t => some t
  | _ => none

/-- The array besides `current_` that the owner holds. -/
def spare : Local α → Option ℕ
  | .growClose _ n | .growAwait _ n | .growLoadTop _ n | .growExchange _ n _ _
  | .growStoreData _ n _ _ _ | .growStoreRound _ n _ _ | .growPublish _ n _ => some n
  | .growDelete _ old => some old
  | _ => none

/-- The node an operation has taken out of a cell and neither deleted nor stored. -/
def held : Local α → Multiset (Node α)
  | .growStoreData _ _ _ _ p | .popTailClear _ p | .popClear _ p | .popFinish p
  | .clearRound _ _ _ p | .finish _ p => {p}
  | _ => 0

end Local

end LowLatency.WorkStealingQueue
