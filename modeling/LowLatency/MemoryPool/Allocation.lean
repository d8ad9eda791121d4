import LowLatency.MemoryPool.Conservation

/-!
# Allocations that throw

`addBlock` counts a block before it constructs its tasks, and puts each task into `free_` as it goes. An
exception of the block itself or of `blocks_` leaves the pool as it was. One of `free_` leaves a block
behind whose tasks are missing from the free list, and mostly not constructed. That can only happen to a
pool of initial capacity 0: any other has reserved the room for a whole block.
-/

namespace LowLatency.MemoryPool

open Concurrency

variable {F : Type*}

/-! ## Where the exception comes from -/

section Errors

variable {g : Growth} {fails : Option Allocation} {e : Allocation} {p q : Pool F}

theorem addTasks_error (block n : ℕ) : ∀ {i : ℕ} {p : Pool F},
    p.addTasks g fails block i n = (q, .error e) → fails = some e ∧ ∃ j, e = .freeGrowth j := by
  induction n with
  | zero => exact nofun
  | succ n ih =>
    intro i p h
    rw [Pool.addTasks] at h
    split_ifs at h with hfull
    · obtain rfl := Except.error.inj (Prod.mk.inj h).2
      exact ⟨hfull.2, i, rfl⟩
    · exact ih h

/-- What an exception leaves: the pool itself, or one block more when `free_` could not grow. -/
theorem addBlock_error {n : ℕ} (h : p.addBlock g fails n = (q, .error e)) : fails = some e ∧
    (q = p ∧ (∀ i, e ≠ .freeGrowth i) ∨
      q.blockCount = p.blockCount + 1 ∧ ∃ i, e = .freeGrowth i) := by
  unfold Pool.addBlock at h
  split_ifs at h with hobject hstorage hgrowth
  · obtain ⟨rfl, he⟩ := Prod.mk.inj h
    obtain rfl := Except.error.inj he
    exact ⟨hobject, .inl ⟨rfl, fun _ => nofun⟩⟩
  · obtain ⟨rfl, he⟩ := Prod.mk.inj h
    obtain rfl := Except.error.inj he
    exact ⟨hstorage, .inl ⟨rfl, fun _ => nofun⟩⟩
  · obtain ⟨rfl, he⟩ := Prod.mk.inj h
    obtain rfl := Except.error.inj he
    exact ⟨hgrowth.2, .inl ⟨rfl, fun _ => nofun⟩⟩
  · obtain ⟨hfails, hgrow⟩ := addTasks_error _ _ h
    have hblocks := (members_addTasks g fails p.blocks.items.length n 0
      { p with blocks := p.blocks.push g n }).2
    rw [h] at hblocks
    refine ⟨hfails, .inr ⟨?_, hgrow⟩⟩
    unfold Pool.blockCount
    rw [hblocks]
    exact List.length_append

theorem acquire_error (h : p.acquire g fails = (q, .error e)) : fails = some e ∧
    (q = p ∧ (∀ i, e ≠ .freeGrowth i) ∨
      q.blockCount = p.blockCount + 1 ∧ ∃ i, e = .freeGrowth i) := by
  unfold Pool.acquire at h
  by_cases hempty : p.free.items = []
  · rw [if_pos hempty] at h
    by_cases hfixed : p.expandable = false
    · rw [if_pos hfixed] at h
      cases h
    · rw [if_neg hfixed] at h
      rcases hadd : p.addBlock g fails (if 0 < p.initialCapacity then p.initialCapacity else 16) with
        ⟨q', e' | ok⟩
      · simp only [hadd] at h
        obtain ⟨rfl, he⟩ := Prod.mk.inj h
        obtain rfl := Except.error.inj he
        exact addBlock_error hadd
      · simp only [hadd] at h
        cases h
  · rw [if_neg hempty] at h
    cases h

end Errors

/-! ## Reserved room -/

section Room

variable {g : Growth}

theorem addTasks_of_room (fails : Option Allocation) (block n : ℕ) : ∀ (i : ℕ) (p : Pool F),
    p.free.items.length + n ≤ p.free.capacity →
      p.addTasks g fails block i n = p.addTasks g none block i n := by
  induction n with
  | zero => exact fun _ _ _ => rfl
  | succ n ih =>
    intro i p hroom
    have hnot : ¬ p.free.Full := by
      show ¬ p.free.capacity ≤ p.free.items.length
      omega
    rw [Pool.addTasks, Pool.addTasks, if_neg fun h => hnot h.1, if_neg fun h => hnot h.1]
    refine ih (i + 1) _ ?_
    show (p.free.items ++ [_]).length + n ≤ if p.free.Full then _ else p.free.capacity
    rw [if_neg hnot, List.length_append, List.length_singleton]
    omega

/-- A pool that has reserved the room for a block never has to grow `free_` in `acquire`. -/
theorem acquire_of_room {p : Pool F} (hpos : 0 < p.initialCapacity)
    (hroom : p.initialCapacity ≤ p.free.capacity) (i : ℕ) :
    p.acquire g (some (.freeGrowth i)) = p.acquire g none := by
  unfold Pool.acquire
  by_cases hempty : p.free.items = []
  · have hadd : p.addBlock g (some (.freeGrowth i)) p.initialCapacity =
        p.addBlock g none p.initialCapacity := by
      unfold Pool.addBlock
      simp only [Option.some.injEq, reduceCtorEq, if_false, and_false]
      refine addTasks_of_room _ _ _ _ _ ?_
      show p.free.items.length + _ ≤ p.free.capacity
      rw [hempty]
      simpa using hroom
    simp only [if_pos hempty, if_pos hpos, hadd]
  · rw [if_neg hempty, if_neg hempty]

end Room

/-! ## What an exception leaves behind -/

/-- The pool is as before the call, and the destructor finds a task in each slot. -/
structure Unharmed (before after : Pool F) : Prop where
  capacity : after.capacity = before.capacity
  blockCount : after.blockCount = before.blockCount
  free : after.free.items = before.free.items
  constructed : ∀ task ∈ Pool.slots after.blocks.items, task ∈ after.constructed
  /-- Later calls find the same pool. -/
  same : after = before

section Runs

variable {Tid : Type*} [Fintype Tid] [DecidableEq Tid] {g : Growth} {n : ℕ} {s : State Tid F}

/-- The acquisitions in which `free_` does not fail to grow: all of them, if the initial capacity is
not 0. -/
def FreeGrows (n : ℕ) (s : State Tid F) (a : Act Tid F) : Prop := 0 < n ∨ NoFreeGrowthFails s a

omit [Fintype Tid] in
/-- With reserved room, a step is one in which `free_` does not fail to grow. -/
theorem exists_noFreeGrowthFails {a : Act Tid F} (hpos : 0 < s.pool.initialCapacity)
    (hroom : s.pool.initialCapacity ≤ s.pool.free.capacity) :
    ∃ a', NoFreeGrowthFails s a' ∧ (system Tid F g).next s a' = (system Tid F g).next s a := by
  cases a with
  | acquire t fails =>
    by_cases hgrow : ∃ i, fails = some (.freeGrowth i)
    · obtain ⟨i, rfl⟩ := hgrow
      refine ⟨.acquire t none, none_ne_freeGrowth, ?_⟩
      simp only [system, acquire_of_room hpos hroom i]
    · exact ⟨.acquire t fails, fun i hi => hgrow ⟨i, hi⟩, rfl⟩
  | setFunction t task f => exact ⟨.setFunction t task f, trivial, rfl⟩
  | give t u task => exact ⟨.give t u task, trivial, rfl⟩
  | release t task => exact ⟨.release t task, trivial, rfl⟩
  | step t => exact ⟨.step t, trivial, rfl⟩

theorem inv_of_freeGrows
    (h : (system Tid F g).Reach (FreeGrows n) (initial Tid F g n true) s) : Inv s := by
  have hrefl : (system Tid F g).Reach (FreeGrows n) (initial Tid F g n true)
    (initial Tid F g n true) := System.Reach.refl
  have hall := System.Reach.invariant h
    (I := fun s => Inv s ∧ s.pool.initialCapacity = n ∧ n ≤ s.pool.free.capacity)
    ⟨inv_initial g n true, (members_reach hrefl).2⟩ ?_
  · exact hall.1
  · rintro s a s' ⟨hinv, hinit, hroom⟩ hok hn
    have hmembers := members_step hn
    refine ⟨?_, hmembers.initialCapacity.trans hinit, hroom.trans hmembers.room⟩
    rcases hok with hpos | hok
    · obtain ⟨a', hok', hsame⟩ := exists_noFreeGrowthFails (g := g) (a := a) (hinit ▸ hpos)
        (hinit.le.trans hroom)
      exact hinv.step hok' (hsame.trans hn)
    · exact hinv.step hok hn

/-- **Allocation failures.** An `acquire` of an expandable pool that throws leaves the pool as it was,
unless the initial capacity is 0 and the allocation that failed is a growth of `free_`. -/
theorem unharmed_iff (g : Growth) (n : ℕ) (s : State Tid F)
    (h : (system Tid F g).Reach (FreeGrows n) (initial Tid F g n true) s) (a e : Allocation)
    (q : Pool F) (hthrew : s.pool.acquire g (some a) = (q, .error e)) :
    Unharmed s.pool q ↔ 0 < n ∨ ∀ i, a ≠ .freeGrowth i := by
  have hinv := inv_of_freeGrows h
  obtain ⟨-, hinit, hroom⟩ := members_reach h
  obtain ⟨hfails, hleft⟩ := acquire_error hthrew
  obtain rfl := Option.some.inj hfails
  constructor
  · intro hunharmed
    rcases hleft with ⟨-, hne⟩ | ⟨hcount, -⟩
    · exact .inr hne
    · have hsame := hunharmed.blockCount
      omega
  · intro hwhen
    have hne : ∀ i, a ≠ .freeGrowth i := by
      rcases hwhen with hpos | hne
      · rintro i rfl
        rw [acquire_of_room (hinit ▸ hpos) (hinit.le.trans hroom)] at hthrew
        exact hinv.conserved.returns _ (congrArg Prod.snd hthrew)
      · exact hne
    rcases hleft with ⟨rfl, -⟩ | ⟨-, i, hi⟩
    · refine ⟨rfl, rfl, rfl, ?_, rfl⟩
      rw [hinv.constructed]
      exact fun task htask => htask
    · exact absurd hi (hne i)

end Runs

/-- `free_` cannot take the first of the sixteen tasks of the first block: the pool counts them all, and
has constructed one. -/
theorem harmed_freeGrowth : ∃ q : Pool ℕ,
    (initial Unit ℕ .double 0 true).pool.acquire .double (some (.freeGrowth 0)) =
      (q, .error (.freeGrowth 0)) ∧
    q.capacity = 16 ∧ q.constructed.length = 1 ∧ q.available = 0 ∧
      ¬ Unharmed (initial Unit ℕ .double 0 true).pool q := by
  refine ⟨_, rfl, by decide, by decide, by decide, ?_⟩
  intro h
  have hcount := h.blockCount
  revert hcount
  decide

/-- The storage of a block cannot be allocated. -/
theorem unharmed_blockStorage : ∃ q : Pool ℕ,
    (initial Unit ℕ .double 0 true).pool.acquire .double (some .blockStorage) =
      (q, .error .blockStorage) ∧ Unharmed (initial Unit ℕ .double 0 true).pool q :=
  ⟨_, rfl, (unharmed_iff .double 0 (initial Unit ℕ .double 0 true) System.Reach.refl .blockStorage
    .blockStorage _ rfl).mpr (.inr fun _ => nofun)⟩

end LowLatency.MemoryPool
