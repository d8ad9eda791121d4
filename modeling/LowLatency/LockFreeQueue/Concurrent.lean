import LowLatency.LockFreeQueue.Invariant

/-!
# The queue under concurrency

`Fifo` collects what producers and consumers can rely on in every reachable state: each position
has one push and one pop, a pop returns the item pushed at its position, a slot is the claimant's
alone until it publishes, and the claims of the pops are a prefix of those of the pushes.
-/

namespace LowLatency.LockFreeQueue

open Concurrency

variable {α : Type*} {Tid : Type*}

/-- The queue loses, repeats and reorders nothing. -/
structure Fifo (r : Ring) (c : Config Tid (Shared α) (Local α)) : Prop where
  /-- The pushes have claimed the positions `0, 1, …`, each once. -/
  pushOnce : c.shared.pushClaims.map Prod.fst = List.range c.shared.tail
  /-- So have the pops. -/
  popOnce : c.shared.popClaims.map Prod.fst = List.range c.shared.head
  /-- A pop returns the item of the push at the position it has claimed. -/
  returns : ∀ p x, (p, x) ∈ c.shared.popReturns →
    (p, x) ∈ c.shared.pushClaims ∧ (p, x) ∈ c.shared.popClaims
  returnsOnce : (c.shared.popReturns.map Prod.fst).Nodup
  /-- From its claim to its publishing store, no other operation accesses the slot's data. -/
  exclusive : ∀ t u x y p q, t ≠ u → c.locals t = some x → c.locals u = some y →
    x.claimed = some p → y.accesses = some q → r.slot q ≠ r.slot p
  /-- Items leave in the order they came. -/
  inOrder : c.shared.popClaims <+: c.shared.pushClaims

theorem Local.claimed_of_accesses {y : Local α} {q : ℕ} (h : y.accesses = some q) :
    y.claimed = some q := by
  cases y <;> simp_all [Local.accesses, Local.claimed]

variable [Inhabited α]

theorem Inv.toFifo {r : Ring} {c : Config Tid (Shared α) (Local α)}
    (h : Inv r c.shared c.locals) : Fifo r c where
  pushOnce := h.ordered.pushPos
  popOnce := by
    rw [h.ordered.popClaims, List.map_take, h.ordered.pushPos, List.take_range,
      Nat.min_eq_left h.ordered.head_le]
  returns p x hx := by
    have hpop := h.ordered.popReturns _ hx
    exact ⟨(h.ordered.mem_popClaims.mp hpop).2, hpop⟩
  returnsOnce := h.returned
  exclusive t u x y p q htu hx hy hp hq :=
    h.slot_ne htu hx hy hp (Local.claimed_of_accesses hq)
  inOrder := by
    rw [h.ordered.popClaims]
    exact List.take_prefix _ _

variable [DecidableEq Tid]

/-- The steps taken while positions are below `2 ^ 63`. -/
def PositionsBelow (c : Config Tid (Shared α) (Local α)) (_ : Action Tid (Op α)) : Prop :=
  c.shared.tail < 2 ^ 63

instance (c : Config Tid (Shared α) (Local α)) (a : Action Tid (Op α)) :
    Decidable (PositionsBelow c a) := by
  unfold PositionsBelow
  infer_instance

omit [Inhabited α] [DecidableEq Tid] in
/-- While positions fit, so do all words the next instruction computes. -/
theorem fitting_of_below {r : Ring} {c : Config Tid (Shared α) (Local α)}
    {a : Action Tid (Op α)} (h : PositionsBelow c a) :
    Object.Guard (Fitting r (· < 2 ^ 64)) c a := by
  cases a with
  | step t b =>
    intro l _ n hn
    have hr := r.size_le
    have ht : c.shared.tail < 2 ^ 63 := h
    show n < 2 ^ 64
    omega
  | call | ret => trivial

/-- **Concurrent FIFO.** For every ring of at least two slots and any number of producers and
consumers, on 64-bit positions below `2 ^ 63`. -/
theorem mpmc_fifo (r : Ring) (h2 : 2 ≤ r.size) (c : Config Tid (Shared α) (Local α))
    (h : (system Tid .u64 r).Reach PositionsBelow (initial Tid) c) : Fifo r c :=
  Inv.toFifo ((inv_inductive Word.u64_sound h2).reach (inv_init r)
    (h.mono fun _ _ hok => fitting_of_below hok))

/-- Thread 0 pushes 7 and 8 while thread 1 pops the first of them, stalled between its claim and
its publishing store when the second push returns. -/
def twoThreads : List (Action (Fin 2) (Op ℕ)) :=
  List.flatten [[.call 0 (.push 7)], Action.steps 0 5, [.ret 0, .call 1 .pop], Action.steps 1 3,
    [.call 0 (.push 8)], Action.steps 0 5, Action.steps 1 2]

theorem mpmc_fifo_twoThreads : ∃ c : Config (Fin 2) (Shared ℕ) (Local ℕ),
    c.shared.pushClaims = [(0, 7), (1, 8)] ∧ c.shared.popReturns = [(0, 7)] ∧ Fifo Ring.two c := by
  have hrun : ((system (Fin 2) .u64 Ring.two).runWhile PositionsBelow (initial (Fin 2))
      twoThreads).map (fun c => (c.shared.pushClaims, c.shared.popReturns)) =
        some ([(0, 7), (1, 8)], [(0, 7)]) := by decide +kernel
  obtain ⟨c, hc, hres⟩ := Option.map_eq_some_iff.mp hrun
  obtain ⟨hpush, hret⟩ := Prod.mk.inj hres
  exact ⟨c, hpush, hret, mpmc_fifo Ring.two (by decide) c (System.reach_of_runWhile hc)⟩

end LowLatency.LockFreeQueue
