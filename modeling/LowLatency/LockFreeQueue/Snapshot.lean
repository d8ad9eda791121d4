import LowLatency.Concurrency.Snapshot
import LowLatency.LockFreeQueue.Invariant
import LowLatency.LockFreeQueue.Concurrent

/-!
# What `full()` and `empty()` tell

Both load `tail_` and then `head_`, and any number of pushes and pops may lie between the loads. The
counters only grow, so a ring that `full()` finds full was full when `tail_` was loaded. The skew works
the other way for `empty()`: what it finds drained is the queue as it was when `tail_` was loaded, and
pushes that came later may have kept it from being empty at any moment of the call.
-/

namespace LowLatency.LockFreeQueue

open Concurrency

variable {α : Type*} {Tid : Type*}

/-- The two functions that observe the queue. -/
inductive Query where
  | full
  | empty
  deriving DecidableEq

/-- What they load and compute. -/
def probe (r : Ring) : Query → Probe (Config Tid (Shared α) (Local α)) ℕ Bool
  | .full => ⟨fun c => c.shared.tail, fun c => c.shared.head, full r⟩
  | .empty => ⟨fun c => c.shared.tail, fun c => c.shared.head, empty⟩

/-! ## The casts -/

/-- `static_cast<intptr_t>`. -/
def intptr (n : ℕ) : ℤ := (BitVec.ofNat 64 n).toInt

theorem intptr_of_lt {n : ℕ} (h : n < 2 ^ 63) : intptr n = n := by
  unfold intptr
  rw [BitVec.toInt_eq_toNat_of_lt (by rw [BitVec.toNat_ofNat]; omega), BitVec.toNat_ofNat]
  omega

/-- The source compares signed words; a vector has fewer than `2 ^ 63` elements. -/
theorem full_eq_intptr {r : Ring} {t h : ℕ} (hr : r.size < 2 ^ 63) (ht : t < 2 ^ 63)
    (hh : h < 2 ^ 63) : full r t h = decide (intptr r.size ≤ intptr t - intptr h) := by
  rw [intptr_of_lt hr, intptr_of_lt ht, intptr_of_lt hh]
  rfl

theorem empty_eq_intptr {t h : ℕ} (ht : t < 2 ^ 63) (hh : h < 2 ^ 63) :
    empty t h = decide (intptr t ≤ intptr h) := by
  rw [intptr_of_lt ht, intptr_of_lt hh]
  rfl

/-! ## The history grows -/

section History

variable [Inhabited α] {w : Word} {r : Ring} {s : Shared α} {x : Local α}

theorem step_claims (b : Bool) : s.pushClaims <+: (step w r b s x).1.pushClaims ∧
    s.popClaims <+: (step w r b s x).1.popClaims := by
  cases x with
  | pushLoadSequence | popLoadSequence =>
    simp only [step]
    split_ifs <;> exact ⟨List.prefix_rfl, List.prefix_rfl⟩
  | pushClaim =>
    simp only [step]
    split_ifs
    · exact ⟨List.prefix_append .., List.prefix_rfl⟩
    · exact ⟨List.prefix_rfl, List.prefix_rfl⟩
  | popClaim =>
    simp only [step]
    split_ifs
    · exact ⟨List.prefix_rfl, List.prefix_append ..⟩
    · exact ⟨List.prefix_rfl, List.prefix_rfl⟩
  | _ => exact ⟨List.prefix_rfl, List.prefix_rfl⟩

variable [DecidableEq Tid] {may : Tid → Op α → Bool} {c c' : Config Tid (Shared α) (Local α)}
  {ok : Config Tid (Shared α) (Local α) → Action Tid (Op α) → Prop}

theorem next_claims {a : Action Tid (Op α)} (h : ((object w r).client may).next c a = some c') :
    c.shared.pushClaims <+: c'.shared.pushClaims ∧ c.shared.popClaims <+: c'.shared.popClaims := by
  cases a with
  | call t op =>
    obtain ⟨-, -, rfl⟩ := Object.next_call h
    exact ⟨List.prefix_rfl, List.prefix_rfl⟩
  | step t b =>
    obtain ⟨x, -, -, rfl⟩ := Object.next_step h
    exact step_claims b
  | ret t =>
    obtain ⟨x, o, -, -, rfl⟩ := Object.next_ret h
    exact ⟨List.prefix_rfl, List.prefix_rfl⟩

theorem reach_claims (h : ((object w r).client may).Reach ok c c') :
    c.shared.pushClaims <+: c'.shared.pushClaims ∧ c.shared.popClaims <+: c'.shared.popClaims := by
  refine h.invariant (I := fun d => c.shared.pushClaims <+: d.shared.pushClaims ∧
    c.shared.popClaims <+: d.shared.popClaims) ⟨List.prefix_rfl, List.prefix_rfl⟩ ?_
  intro d a d' hd _ hn
  have hmove := next_claims hn
  exact ⟨hd.1.trans hmove.1, hd.2.trans hmove.2⟩

end History

/-! ## The answers -/

section Answers

variable [Inhabited α] {r : Ring} {c₁ c₂ : Config Tid (Shared α) (Local α)}

omit [Inhabited α] in
theorem Shared.Ordered.length_popClaims {s : Shared α} (h : s.Ordered r) :
    s.popClaims.length = s.head := by
  rw [h.popClaims, List.length_take, h.length_pushClaims]
  exact Nat.min_eq_left h.head_le

/-- What the queue was when `tail_` was loaded, if `full()` answers yes. -/
theorem eq_of_full (h₁ : Inv r c₁.shared c₁.locals) (h₂ : Inv r c₂.shared c₂.locals)
    (hpop : c₁.shared.popClaims <+: c₂.shared.popClaims)
    (hfull : full r c₁.shared.tail c₂.shared.head = true) :
    c₁.shared.tail - c₁.shared.head = r.size := by
  have hsize : (r.size : ℤ) ≤ (c₁.shared.tail : ℤ) - c₂.shared.head := of_decide_eq_true hfull
  have hhead := hpop.length_le
  rw [h₁.ordered.length_popClaims, h₂.ordered.length_popClaims] at hhead
  have hle := h₁.ordered.tail_le
  omega

/-- What has happened between the loads, if `empty()` answers yes. -/
theorem drained_of_empty (h₁ : Inv r c₁.shared c₁.locals) (h₂ : Inv r c₂.shared c₂.locals)
    (hpush : c₁.shared.pushClaims <+: c₂.shared.pushClaims)
    (hempty : empty c₁.shared.tail c₂.shared.head = true) :
    c₁.shared.pushClaims <+: c₂.shared.popClaims := by
  have htail : (c₁.shared.tail : ℤ) ≤ c₂.shared.head := of_decide_eq_true hempty
  rw [h₂.ordered.popClaims, List.prefix_take_iff, h₁.ordered.length_pushClaims]
  exact ⟨hpush, by omega⟩

end Answers

variable [Inhabited α] [DecidableEq Tid]

/-- The steps and loads made while positions are below `2 ^ 63`. -/
def ObservedBelow (c : Config Tid (Shared α) (Local α) ×
    Observer (Config Tid (Shared α) (Local α)) Query ℕ Bool)
    (_ : Probing (Action Tid (Op α)) Query) : Prop :=
  c.1.shared.tail < 2 ^ 63

instance (c : Config Tid (Shared α) (Local α) ×
    Observer (Config Tid (Shared α) (Local α)) Query ℕ Bool)
    (a : Probing (Action Tid (Op α)) Query) : Decidable (ObservedBelow c a) := by
  unfold ObservedBelow
  infer_instance

omit [Inhabited α] [DecidableEq Tid] in
/-- What the answer yes tells about the moments of the call. -/
def Tells (r : Ring) (seen : List (Config Tid (Shared α) (Local α))) : Query → Prop
  | .full => ∃ c ∈ seen, c.shared.tail - c.shared.head = r.size
  | .empty => ∃ c₁ c₂, seen.head? = some c₁ ∧ seen.getLast? = some c₂ ∧
      c₁.shared.pushClaims <+: c₂.shared.popClaims ∧
      (c₂.shared.pushClaims = c₁.shared.pushClaims → c₂.shared.head = c₂.shared.tail)

/-- **Snapshots.** A ring that `full()` finds full was full at a moment of the call. When `empty()`
finds a queue drained, the pops have claimed by its second load every item that the pushes had claimed
by its first; so nothing is in it then, unless a push claimed its position during the call. -/
theorem snapshot_tells (r : Ring) (h2 : 2 ≤ r.size) (k : Query)
    (c : Config Tid (Shared α) (Local α)) (seen : List (Config Tid (Shared α) (Local α)))
    (h : ((system Tid .u64 r).observed (probe r)).Reach ObservedBelow (initial Tid, .resting)
      (c, .answered k true seen)) : Tells r seen k := by
  have hbelow : ∀ (c : Config Tid (Shared α) (Local α) ×
      Observer (Config Tid (Shared α) (Local α)) Query ℕ Bool) (a : Action Tid (Op α)),
      ObservedBelow c (.step a) → PositionsBelow c.1 a := fun _ _ hok => hok
  have hinv : ∀ {d : Config Tid (Shared α) (Local α)},
      (system Tid .u64 r).Reach PositionsBelow (initial Tid) d → Inv r d.shared d.locals :=
    fun hd => (inv_inductive Word.u64_sound h2).reach (inv_init r)
      (hd.mono fun _ _ hok => fitting_of_below hok)
  obtain ⟨c₁, c₂, hc₁, hc₂, hreach₁, hreach₂, hres, -⟩ := System.exists_loads hbelow h
  have h₁ := hinv hreach₁
  have h₂ := hinv (hreach₁.trans hreach₂)
  have hgrow := reach_claims hreach₂
  cases k with
  | full => exact ⟨c₁, List.mem_of_head? hc₁, eq_of_full h₁ h₂ hgrow.2 hres.symm⟩
  | empty =>
    have hdrained := drained_of_empty h₁ h₂ hgrow.1 hres.symm
    refine ⟨c₁, c₂, hc₁, hc₂, hdrained, ?_⟩
    intro hsame
    have hlen := hdrained.length_le
    rw [← hsame, h₂.ordered.length_pushClaims, h₂.ordered.length_popClaims] at hlen
    have hle := h₂.ordered.head_le
    omega

/-! ## A drained queue that was never empty -/

/-- An operation from its call to its return. -/
def whole (op : Op ℕ) : List (Probing (Action Unit (Op ℕ)) Query) :=
  .step (.call () op) :: (Action.steps () 5).map .step ++ [.step (.ret ())]

/-- `empty()` begins with one item in the queue; another is pushed and the first popped before it
loads `head_`. -/
def drainedWhileHeld : List (Probing (Action Unit (Op ℕ)) Query) :=
  whole (.push 7) ++ [.call .empty] ++ whole (.push 8) ++ whole .pop ++ [.load]

/-- Two pushes fill the ring of two slots. -/
def filled : List (Probing (Action Unit (Op ℕ)) Query) :=
  whole (.push 7) ++ whole (.push 8) ++ [.call .full, .load]

/-- The run answers yes to `k`, and `test` holds throughout the call. -/
theorem exists_answer (k : Query) (as : List (Probing (Action Unit (Op ℕ)) Query))
    (test : Config Unit (Shared ℕ) (Local ℕ) → Bool)
    (h : ((((system Unit .u64 Ring.two).observed (probe Ring.two)).runWhile ObservedBelow
      (initial Unit, .resting) as).map fun c => c.2.throughout k true test) = some true) :
    ∃ (c : Config Unit (Shared ℕ) (Local ℕ)) (seen : List (Config Unit (Shared ℕ) (Local ℕ))),
      ((system Unit .u64 Ring.two).observed (probe Ring.two)).Reach ObservedBelow
        (initial Unit, .resting) (c, .answered k true seen) ∧ ∀ d ∈ seen, test d = true :=
  System.exists_answered h

/-- `empty()` answers yes although the queue held an item at every moment of the call. -/
theorem empty_unjustified : ∃ (c : Config Unit (Shared ℕ) (Local ℕ))
    (seen : List (Config Unit (Shared ℕ) (Local ℕ))),
    ((system Unit .u64 Ring.two).observed (probe Ring.two)).Reach ObservedBelow
      (initial Unit, .resting) (c, .answered .empty true seen) ∧
      ∀ d ∈ seen, d.shared.head < d.shared.tail := by
  obtain ⟨c, seen, hreach, hheld⟩ := exists_answer .empty drainedWhileHeld
    (fun d => decide (d.shared.head < d.shared.tail)) (by decide +kernel)
  exact ⟨c, seen, hreach, fun d hd => of_decide_eq_true (hheld d hd)⟩

theorem snapshot_tells_two : ∃ seen : List (Config Unit (Shared ℕ) (Local ℕ)),
    Tells Ring.two seen .full := by
  obtain ⟨c, seen, hreach, -⟩ := exists_answer .full filled (fun _ => true) (by decide +kernel)
  exact ⟨seen, snapshot_tells Ring.two (by decide) .full c seen hreach⟩

end LowLatency.LockFreeQueue
