import LowLatency.Concurrency.Locked
import LowLatency.LockFreeQueue.Linearizable
import LowLatency.RingBuffer.Sequential

/-!
# The ring buffer under a mutex

`LockedRingBuffer<T>` of `LockedRingBuffer.h` runs the methods of `RingBuffer<T>` under a mutex. Each
constructor of `Local` is a point of such a method right before it reads or writes members; `step`
goes on to the next one. Run alone, the methods do what the functions of `RingBuffer` do in one step
(`push_returns`, `pop_returns`), so that any number of threads see one bounded FIFO list, refused only
when it is full and with nothing to pop only when it is empty (`linearizable`).
-/

namespace LowLatency.LockedRingBuffer

open Concurrency

variable {α : Type*}

inductive Op (α : Type*) where
  | push (item : α)
  | pop
  | empty
  | size
  deriving DecidableEq

/-- What the methods return. -/
inductive Answer (α : Type*) where
  | outcome (o : Outcome α)
  | empty (b : Bool)
  | size (n : ℕ)
  /-- `value()` threw. -/
  | threw (what : String)
  deriving DecidableEq

/-- A method of the ring buffer between two accesses to its members. -/
inductive Local (α : Type*) where
  | pushFull (item : α)
  | pushWrite (item : α)
  | pushTail
  | pushSize
  | popEmpty
  | popMove
  | popReset (item : α)
  | popHead (item : α)
  | popSize (item : α)
  | empty
  | size
  | done (o : Answer α)

def start : Op α → Local α
  | .push item => .pushFull item
  | .pop => .popEmpty
  | .empty => .empty
  | .size => .size

/-- The method up to its next access. A moved-from optional stays engaged; its item is the default. -/
def step [Inhabited α] (b : RingBuffer α) : Local α → RingBuffer α × Local α
  | .pushFull item => if b.full then (b, .done (.outcome (.refused item))) else (b, .pushWrite item)
  | .pushWrite item => ({ b with buffer := Function.update b.buffer b.tail (some item) }, .pushTail)
  | .pushTail => ({ b with tail := b.capacity.slot (b.tail + 1) }, .pushSize)
  | .pushSize => ({ b with size := b.size + 1 }, .done (.outcome .put))
  | .popEmpty => if b.empty then (b, .done (.outcome .nothing)) else (b, .popMove)
  | .popMove =>
    match b.buffer b.head with
    | none => (b, .done (.threw "bad_optional_access"))
    | some item =>
      ({ b with buffer := Function.update b.buffer b.head (some default) }, .popReset item)
  | .popReset item => ({ b with buffer := Function.update b.buffer b.head none }, .popHead item)
  | .popHead item => ({ b with head := b.capacity.slot (b.head + 1) }, .popSize item)
  | .popSize item => ({ b with size := b.size - 1 }, .done (.outcome (.got item)))
  | .empty => (b, .done (.empty b.empty))
  | .size => (b, .done (.size b.size))
  | .done o => (b, .done o)

def result : Local α → Option (Answer α)
  | .done o => some o
  | _ => none

/-- The methods of `RingBuffer`. -/
def methods [Inhabited α] : Object (Op α) (Answer α) (RingBuffer α) (Local α) where
  start := start
  step _ := step
  result := result

/-- The methods of `LockedRingBuffer`. -/
abbrev object [Inhabited α] :
    Object (Op α) (Answer α) (Guarded (RingBuffer α)) (Held (Op α) (Answer α) (Local α)) :=
  methods.locked

/-- A new buffer, used by nobody yet. -/
def initial (α Tid : Type*) (capacity : Ring) :
    Config Tid (Guarded (RingBuffer α)) (Held (Op α) (Answer α) (Local α)) :=
  ⟨⟨false, RingBuffer.init capacity⟩, fun _ => none⟩

/-- One call of a bounded FIFO list of at most `size` items. -/
def fifoStep (size : ℕ) (items : List α) : Op α → List α × Answer α
  | .push x => Prod.map id .outcome (LockFreeQueue.fifoStep size items (.push x))
  | .pop => Prod.map id .outcome (LockFreeQueue.fifoStep size items .pop)
  | .empty => (items, .empty (decide (items = [])))
  | .size => (items, .size items.length)

/-- The buffer as its callers see it. -/
def spec (α Tid : Type*) (size : ℕ) : Spec Tid (Op α) (Answer α) (List α) := .exact [] (fifoStep size)

/-! ## The methods run alone -/

section Methods

variable [Inhabited α] {b b' : RingBuffer α} {o : Outcome α}

theorem push_returns (b : RingBuffer α) (x : α) :
    methods.Returns b (start (.push x)) (b.push x).1 (.outcome (b.push x).2) := by
  cases hfull : b.full with
  | true =>
    have hstep : step b (.pushFull x) = (b, .done (.outcome (.refused x))) := by
      simp only [step, hfull, if_true]
    have hpush : b.push x = (b, .refused x) := by
      simp only [RingBuffer.push, hfull, if_true]
    rw [hpush]
    exact .step rfl hstep (.done rfl)
  | false =>
    have hstep : step b (.pushFull x) = (b, .pushWrite x) := by
      simp only [step, hfull, Bool.false_eq_true, if_false]
    have hpush : b.push x = ({ b with
        buffer := Function.update b.buffer b.tail (some x)
        tail := b.capacity.slot (b.tail + 1)
        size := b.size + 1 }, .put) := by
      simp only [RingBuffer.push, hfull, Bool.false_eq_true, if_false]
    rw [hpush]
    exact .step rfl hstep (.step rfl rfl (.step rfl rfl (.step rfl rfl (.done rfl))))

/-- `pop` does what the function does, and moves out of the slot before it resets it. -/
theorem pop_returns (h : b.pop = .ok (b', o)) :
    methods.Returns b (start .pop) b' (.outcome o) := by
  cases hempty : b.empty with
  | true =>
    have hstep : step b .popEmpty = (b, .done (.outcome .nothing)) := by
      simp only [step, hempty, if_true]
    simp only [RingBuffer.pop, hempty, if_true, Except.ok.injEq, Prod.mk.injEq] at h
    obtain ⟨rfl, rfl⟩ := h
    exact .step rfl hstep (.done rfl)
  | false =>
    have hstep : step b .popEmpty = (b, .popMove) := by
      simp only [step, hempty, Bool.false_eq_true, if_false]
    cases hslot : b.buffer b.head with
    | none => simp [RingBuffer.pop, hempty, hslot] at h
    | some item =>
      have hmove : step b .popMove = ({ b with
          buffer := Function.update b.buffer b.head (some default) }, .popReset item) := by
        simp only [step, hslot]
      simp only [RingBuffer.pop, hempty, hslot, Bool.false_eq_true, if_false, Except.ok.injEq,
        Prod.mk.injEq] at h
      obtain ⟨rfl, rfl⟩ := h
      have hreset : step ({ b with
          buffer := Function.update b.buffer b.head (some default) } : RingBuffer α)
          (.popReset item) =
            ({ b with buffer := Function.update b.buffer b.head none }, .popHead item) := by
        simp only [step, Function.update_idem]
      exact .step rfl hstep (.step rfl hmove (.step rfl hreset
        (.step rfl rfl (.step rfl rfl (.done rfl)))))

theorem returns (r : Ring) (b : RingBuffer α) (items : List α) (op : Op α)
    (h : b.Holds items ∧ b.capacity = r) :
    ∃ b', methods.Returns b (start op) b' (fifoStep r.size items op).2 ∧
      b'.Holds (fifoStep r.size items op).1 ∧ b'.capacity = r := by
  obtain ⟨h, rfl⟩ := h
  cases op with
  | push x =>
    obtain ⟨b', hcall, hholds, hcap⟩ := h.call (.push x)
    have hpush : b.push x =
        (b', (LockFreeQueue.fifoStep b.capacity.size items (.push x)).2) := Except.ok.inj hcall
    have hret := push_returns b x
    rw [hpush] at hret
    exact ⟨b', hret, hholds, hcap⟩
  | pop =>
    obtain ⟨b', hcall, hholds, hcap⟩ := h.call .pop
    exact ⟨b', pop_returns hcall, hholds, hcap⟩
  | empty =>
    have hempty : b.empty = decide (items = []) := by
      rw [Bool.eq_iff_iff, h.empty_iff, decide_eq_true_iff]
    refine ⟨b, ?_, h, rfl⟩
    show methods.Returns b .empty b (.empty (decide (items = [])))
    rw [← hempty]
    exact .step rfl rfl (.done rfl)
  | size =>
    refine ⟨b, ?_, h, rfl⟩
    show methods.Returns b .size b (.size items.length)
    rw [← h.size_eq]
    exact .step rfl rfl (.done rfl)

end Methods

/-! ## Any number of threads -/

section Runs

variable [Inhabited α] {Tid : Type*} [DecidableEq Tid]

/-- **Linearizability**: for every requested capacity up to `2 ^ 63`, every history of the buffer is one
of a FIFO list of the rounded capacity. -/
theorem history_linearizable (c : SizeT) (hc : c.toNat ≤ 2 ^ 63) : ∃ r, Ring.ofRequested c = .ok r ∧
    ∀ p, (object.history fun _ _ => true).Reachable (initial α Tid r, []) p →
      (spec α Tid r.size).Linearizable p.2 := by
  obtain ⟨s, hs⟩ := nextPowerOfTwoChecked_ok hc
  obtain ⟨r, hr, _⟩ := Ring.ofRequested_ok hs
  refine ⟨r, hr, fun p hp => ?_⟩
  exact Object.locked_linearizable (fun b items => b.Holds items ∧ b.capacity = r)
    (fun _ _ _ => rfl) ⟨RingBuffer.holds_init r, rfl⟩ (returns r) hp

/-- Thread 1 asks for the size while thread 0 is in the middle of its push. -/
def sizeBesidePush : List (Action (Fin 2) (Op ℕ)) :=
  List.flatten [[.call 0 (.push 7)], Action.steps 0 3, [.call 1 .size], Action.steps 1 2,
    Action.steps 0 4, [.ret 0], Action.steps 1 4, [.ret 1]]

theorem history_linearizable_sizeBesidePush : ∃ H : List (Event (Fin 2) (Op ℕ) (Answer ℕ)),
    H = [.call 0 (.push 7), .call 1 .size, .ret 0 (.outcome .put), .ret 1 (.size 1)] ∧
      (spec ℕ (Fin 2) 2).Linearizable H := by
  obtain ⟨r, hr, h⟩ := @history_linearizable ℕ _ (Fin 2) _ 2 (by decide)
  obtain ⟨r', hr', hsize⟩ := Ring.ofRequested_ok (c := 2) (s := 2) rfl
  obtain rfl : r' = r := Except.ok.inj (hr'.symm.trans hr)
  obtain rfl : r' = Ring.two := by
    obtain ⟨⟨n, hpow⟩, hle⟩ := r'
    obtain rfl : n = 2 := hsize
    rfl
  have hrun : ((object.history fun _ _ => true).run (initial ℕ (Fin 2) Ring.two, [])
      sizeBesidePush).map Prod.snd = some [.call 0 (.push 7), .call 1 .size,
        .ret 0 (.outcome .put), .ret 1 (.size 1)] := by decide +kernel
  obtain ⟨p, hp, hH⟩ := Option.map_eq_some_iff.mp hrun
  exact ⟨p.2, hH, h p (System.reachable_of_run hp)⟩

end Runs

end LowLatency.LockedRingBuffer
