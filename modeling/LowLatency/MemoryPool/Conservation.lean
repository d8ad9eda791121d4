import LowLatency.Concurrency.Slots
import LowLatency.MemoryPool.Basic

/-!
# Every task is in one place

The tasks that the blocks count are constructed, and each is in the free list, in the hands of one
thread, or in one `release` (`Inv.partition`). A new block adds its tasks to the free list (`Added`),
and the rest of `acquire` and `release` moves one task. A free task, and one about to become free, has
no function.
-/

namespace LowLatency.MemoryPool

open Concurrency

variable {F : Type*}

/-! ## Slots -/

section Slots

/-- The tasks of a block from index `i` on. -/
def blockTasks (block i n : ℕ) : List TaskPtr := (List.range' i n).map fun j => ⟨block, j⟩

theorem slots_append (blocks : List ℕ) (n : ℕ) :
    Pool.slots (blocks ++ [n]) = Pool.slots blocks ++ blockTasks blocks.length 0 n := by
  unfold Pool.slots blockTasks
  rw [List.zipIdx_append, List.flatMap_append, ← List.range_eq_range']
  simp

theorem length_slots (blocks : List ℕ) : (Pool.slots blocks).length = blocks.sum := by
  induction blocks using List.reverseRecOn with
  | nil => rfl
  | append_singleton blocks n ih =>
    rw [slots_append, List.length_append, ih, List.sum_append, List.sum_singleton, blockTasks,
      List.length_map, List.length_range']

theorem block_lt_of_mem_slots {blocks : List ℕ} {task : TaskPtr} (h : task ∈ Pool.slots blocks) :
    task.block < blocks.length := by
  unfold Pool.slots at h
  obtain ⟨⟨n, b⟩, hb, hmem⟩ := List.mem_flatMap.mp h
  obtain ⟨i, -, rfl⟩ := List.mem_map.mp hmem
  exact (List.mem_zipIdx' hb).1

theorem nodup_slots (blocks : List ℕ) : (Pool.slots blocks).Nodup := by
  induction blocks using List.reverseRecOn with
  | nil => exact List.nodup_nil
  | append_singleton blocks n ih =>
    rw [slots_append]
    refine ih.append ?_ ?_
    · refine List.Nodup.map ?_ List.nodup_range'
      intro i j hij
      exact (TaskPtr.mk.inj hij).2
    · intro task hold hnew
      obtain ⟨i, -, rfl⟩ := List.mem_map.mp hnew
      exact absurd (block_lt_of_mem_slots hold) (lt_irrefl _)

end Slots

/-! ## Blocks -/

/-- `q` is `p` with more tasks in the free list. -/
structure Added (tasks : List TaskPtr) (p q : Pool F) : Prop where
  expandable : q.expandable = p.expandable
  initialCapacity : q.initialCapacity = p.initialCapacity
  blocks : q.blocks = p.blocks
  free : q.free.items = p.free.items ++ tasks
  new : ∀ task ∈ tasks, q.func task = none
  old : ∀ task ∉ tasks, q.func task = p.func task
  constructed : q.constructed = p.constructed ++ tasks

theorem Added.refl (p : Pool F) : Added [] p p where
  expandable := rfl
  initialCapacity := rfl
  blocks := rfl
  free := (List.append_nil _).symm
  new _ h := absurd h List.not_mem_nil
  old _ _ := rfl
  constructed := (List.append_nil _).symm

theorem Added.trans {ts ts' : List TaskPtr} {p q q' : Pool F} (h : Added ts p q)
    (h' : Added ts' q q') : Added (ts ++ ts') p q' where
  expandable := h'.expandable.trans h.expandable
  initialCapacity := h'.initialCapacity.trans h.initialCapacity
  blocks := h'.blocks.trans h.blocks
  free := by rw [h'.free, h.free, List.append_assoc]
  new task hmem := by
    by_cases hts' : task ∈ ts'
    · exact h'.new task hts'
    · rw [h'.old task hts']
      exact h.new task ((List.mem_append.mp hmem).resolve_right hts')
  old task hmem := by
    rw [List.mem_append, not_or] at hmem
    rw [h'.old task hmem.2, h.old task hmem.1]
  constructed := by rw [h'.constructed, h.constructed, List.append_assoc]

theorem added_one (g : Growth) (p : Pool F) (task : TaskPtr) :
    Added [task] p { p.construct task with free := p.free.push g task } where
  expandable := rfl
  initialCapacity := rfl
  blocks := rfl
  free := rfl
  new t h := by
    rw [List.mem_singleton.mp h]
    exact Function.update_self ..
  old t h := Function.update_of_ne (fun he => h (List.mem_singleton.mpr he)) ..
  constructed := rfl

/-- What no call changes, and the capacity of `free_`, which never shrinks. -/
structure Members (p q : Pool F) : Prop where
  expandable : q.expandable = p.expandable
  initialCapacity : q.initialCapacity = p.initialCapacity
  room : p.free.capacity ≤ q.free.capacity

theorem Members.refl (p : Pool F) : Members p p := ⟨rfl, rfl, le_rfl⟩

theorem Members.trans {p q q' : Pool F} (h : Members p q) (h' : Members q q') : Members p q' :=
  ⟨h'.expandable.trans h.expandable, h'.initialCapacity.trans h.initialCapacity, h.room.trans h'.room⟩

theorem capacity_le_push (g : Growth) {β : Type*} (v : Vec β) (x : β) :
    v.capacity ≤ (v.push g x).capacity := by
  show v.capacity ≤ if v.Full then g.next v.capacity else v.capacity
  split_ifs
  · exact (g.lt_next _).le
  · exact le_rfl

theorem members_addTasks (g : Growth) (fails : Option Allocation) (block n : ℕ) :
    ∀ (i : ℕ) (p : Pool F), Members p (p.addTasks g fails block i n).1 ∧
      (p.addTasks g fails block i n).1.blocks = p.blocks := by
  induction n with
  | zero => exact fun i p => ⟨.refl p, rfl⟩
  | succ n ih =>
    intro i p
    rw [Pool.addTasks]
    split_ifs
    · exact ⟨⟨rfl, rfl, le_rfl⟩, rfl⟩
    · obtain ⟨hmembers, hblocks⟩ := ih (i + 1)
        { p.construct ⟨block, i⟩ with free := p.free.push g ⟨block, i⟩ }
      have hpush : Members p { p.construct ⟨block, i⟩ with free := p.free.push g ⟨block, i⟩ } :=
        ⟨rfl, rfl, capacity_le_push g p.free _⟩
      exact ⟨hpush.trans hmembers, hblocks⟩

theorem members_addBlock (g : Growth) (fails : Option Allocation) (n : ℕ) (p : Pool F) :
    Members p (p.addBlock g fails n).1 := by
  unfold Pool.addBlock
  split_ifs
  · exact .refl p
  · exact .refl p
  · exact .refl p
  · have hblock : Members p { p with blocks := p.blocks.push g n } := ⟨rfl, rfl, le_rfl⟩
    exact hblock.trans (members_addTasks g fails _ n 0 _).1

theorem members_acquire (g : Growth) (fails : Option Allocation) (p : Pool F) :
    Members p (p.acquire g fails).1 := by
  have htake : ∀ q : Pool F, Members p q → Members p q.takeBack.1 :=
    fun q hq => hq.trans ⟨rfl, rfl, le_rfl⟩
  unfold Pool.acquire
  by_cases hempty : p.free.items = []
  · rw [if_pos hempty]
    by_cases hfixed : p.expandable = false
    · rw [if_pos hfixed]
      exact .refl p
    · rw [if_neg hfixed]
      have hadd := members_addBlock g fails
        (if 0 < p.initialCapacity then p.initialCapacity else 16) p
      rcases hq : p.addBlock g fails (if 0 < p.initialCapacity then p.initialCapacity else 16) with
        ⟨q, e | ok⟩
      · rw [hq] at hadd
        simp only [hq]
        exact hadd
      · rw [hq] at hadd
        simp only [hq]
        exact htake q hadd
  · rw [if_neg hempty]
    exact htake p (.refl p)

theorem none_ne_freeGrowth (i : ℕ) : (none : Option Allocation) ≠ some (.freeGrowth i) := nofun

section Calls

variable {g : Growth} {fails : Option Allocation} (hfails : ∀ i, fails ≠ some (.freeGrowth i))

include hfails in
theorem addTasks_ok (block : ℕ) (n : ℕ) : ∀ (i : ℕ) (p : Pool F), ∃ q,
    p.addTasks g fails block i n = (q, .ok ()) ∧ Added (blockTasks block i n) p q := by
  induction n with
  | zero => exact fun i p => ⟨p, rfl, .refl p⟩
  | succ n ih =>
    intro i p
    obtain ⟨q, hq, hadded⟩ := ih (i + 1)
      { p.construct ⟨block, i⟩ with free := p.free.push g ⟨block, i⟩ }
    refine ⟨q, ?_, (added_one g p ⟨block, i⟩).trans hadded⟩
    rw [Pool.addTasks, if_neg fun h => hfails i h.2]
    exact hq

include hfails in
theorem addBlock_cases (n : ℕ) (p : Pool F) :
    (∃ e, fails = some e ∧ p.addBlock g fails n = (p, .error e)) ∨
      ∃ q, p.addBlock g fails n = (q, .ok ()) ∧
        Added (blockTasks p.blocks.items.length 0 n) { p with blocks := p.blocks.push g n } q := by
  unfold Pool.addBlock
  split_ifs with hobject hstorage hgrowth
  · exact .inl ⟨_, hobject, rfl⟩
  · exact .inl ⟨_, hstorage, rfl⟩
  · exact .inl ⟨_, hgrowth.2, rfl⟩
  · exact .inr (addTasks_ok hfails _ n 0 _)

/-- `p` before a task is taken from `q`: the same, or `q` with one more block. -/
def Grown (p q : Pool F) : Prop :=
  q = p ∨ ∃ g n, p.free.items = [] ∧ 0 < n ∧ p.expandable = true ∧
    Added (blockTasks p.blocks.items.length 0 n) { p with blocks := p.blocks.push g n } q

/-- What `acquire` does. -/
inductive Acquired (fails : Option Allocation) (p : Pool F) :
    Pool F × Except Allocation (Option TaskPtr) → Prop
  | nothing : p.free.items = [] → p.expandable = false → Acquired fails p (p, .ok none)
  | threw (e : Allocation) : fails = some e → p.expandable = true → Acquired fails p (p, .error e)
  | took (q : Pool F) (rest : List TaskPtr) (task : TaskPtr) : Grown p q →
    q.free.items = rest ++ [task] →
    Acquired fails p ({ q with free := { q.free with items := rest } }, .ok (some task))

theorem takeBack_eq {q : Pool F} {rest : List TaskPtr} {task : TaskPtr}
    (h : q.free.items = rest ++ [task]) :
    q.takeBack = ({ q with free := { q.free with items := rest } }, some task) := by
  unfold Pool.takeBack Vec.pop
  rw [h, List.dropLast_concat, List.getLast?_concat]

include hfails in
theorem acquire_cases (p : Pool F) : Acquired fails p (p.acquire g fails) := by
  have htake : ∀ q : Pool F, Grown p q → q.free.items ≠ [] →
      Acquired fails p (q.takeBack.1, .ok q.takeBack.2) := by
    intro q hq hne
    obtain ⟨rest, task, hitems⟩ := (List.eq_nil_or_concat q.free.items).resolve_left hne
    rw [List.concat_eq_append] at hitems
    rw [takeBack_eq hitems]
    exact .took q rest task hq hitems
  unfold Pool.acquire
  by_cases hempty : p.free.items = []
  · rw [if_pos hempty]
    by_cases hfixed : p.expandable = false
    · rw [if_pos hfixed]
      exact .nothing hempty hfixed
    · rw [if_neg hfixed]
      have hexp : p.expandable = true := Bool.eq_true_of_not_eq_false hfixed
      have hgrow : 0 < if 0 < p.initialCapacity then p.initialCapacity else 16 := by
        split_ifs with h
        · exact h
        · decide
      rcases addBlock_cases (g := g) hfails
        (if 0 < p.initialCapacity then p.initialCapacity else 16) p with
        ⟨e, he, hthrew⟩ | ⟨q, hok, hadded⟩
      · simp only [hthrew]
        exact .threw e he hexp
      · simp only [hok]
        refine htake q (.inr ⟨g, _, hempty, hgrow, hexp, hadded⟩) ?_
        rw [hadded.free]
        intro hnil
        have hlen := congrArg List.length (List.append_eq_nil_iff.mp hnil).2
        rw [blockTasks, List.length_map, List.length_range', List.length_nil] at hlen
        omega
  · rw [if_neg hempty]
    exact htake p (.inl rfl) hempty

end Calls

/-! ## The invariant -/

/-- The tasks of a thread. -/
def Thread.has (x : Thread) : Multiset TaskPtr := x.held + slot (x.releasing.map Release.task)

theorem has_gain (x : Thread) (task : TaskPtr) : (x.gain task).has = {task} + x.has := by
  unfold Thread.has Thread.gain
  rw [← Multiset.singleton_add, add_assoc]

theorem has_lose {x : Thread} {task : TaskPtr} (h : task ∈ x.held) :
    {task} + (x.lose task).has = x.has := by
  rw [← has_gain]
  unfold Thread.has Thread.gain Thread.lose
  rw [Multiset.cons_erase h]

theorem has_goOn {x : Thread} {r : Option Release} (h : x.releasing = none) :
    (x.goOn r).has = x.has + slot (r.map Release.task) := by
  unfold Thread.has Thread.goOn
  rw [h, Option.map_none, slot_none, add_zero]

section Inv

variable {Tid : Type*} [Fintype Tid]

/-- Where the tasks are, and which of them have no function. -/
structure Inv (s : State Tid F) : Prop where
  constructed : s.pool.constructed = Pool.slots s.pool.blocks.items
  partition : (s.pool.free.items : Multiset TaskPtr) + tally Thread.has s.threads =
    (s.pool.constructed : Multiset TaskPtr)
  free : ∀ task ∈ s.pool.free.items, s.pool.func task = none
  locked : ∀ t task, (s.threads t).releasing = some (.lock task) → s.pool.func task = none

variable {s : State Tid F}

theorem Inv.nodup (h : Inv s) :
    ((s.pool.free.items : Multiset TaskPtr) + tally Thread.has s.threads).Nodup := by
  rw [h.partition, Multiset.coe_nodup, h.constructed]
  exact nodup_slots _

variable [DecidableEq Tid] {g : Growth} {t u : Tid} {task : TaskPtr}

/-- A thread exchanges what it has with the free list, which new tasks may have entered. -/
theorem Inv.exchange (h : Inv s) (free : List TaskPtr) (x : Thread) (new : Multiset TaskPtr)
    (hsum : (free : Multiset TaskPtr) + x.has =
      (s.pool.free.items : Multiset TaskPtr) + (s.threads t).has + new) :
    (free : Multiset TaskPtr) + tally Thread.has (Function.update s.threads t x) =
      (s.pool.constructed : Multiset TaskPtr) + new := by
  have hupdate := tally_update Thread.has s.threads t x
  rw [← h.partition]
  refine add_right_cancel (b := (s.threads t).has) ?_
  calc (free : Multiset TaskPtr) + tally Thread.has (Function.update s.threads t x) +
        (s.threads t).has
      = free + (tally Thread.has (Function.update s.threads t x) + (s.threads t).has) := by
        rw [add_assoc]
    _ = free + x.has + tally Thread.has s.threads := by rw [hupdate]; abel
    _ = _ := by rw [hsum]; abel

theorem Inv.rearrange (h : Inv s) (x : Thread) (hhas : x.has = (s.threads t).has) :
    (s.pool.free.items : Multiset TaskPtr) + tally Thread.has (Function.update s.threads t x) =
      (s.pool.constructed : Multiset TaskPtr) := by
  have hsum := h.exchange (t := t) s.pool.free.items x 0 (by rw [hhas, add_zero])
  rwa [add_zero] at hsum

omit [Fintype Tid] [DecidableEq Tid] in
theorem mem_has_of_mem (hmem : task ∈ (s.threads t).held) : task ∈ (s.threads t).has :=
  Multiset.mem_add.mpr (.inl hmem)

omit [Fintype Tid] [DecidableEq Tid] in
theorem mem_has_of_releasing {r : Release} (hr : (s.threads t).releasing = some r) :
    r.task ∈ (s.threads t).has := by
  refine Multiset.mem_add.mpr (.inr ?_)
  rw [hr]
  exact Multiset.mem_singleton_self _

omit [DecidableEq Tid] in
theorem Inv.not_free (h : Inv s) (hmem : task ∈ (s.threads t).has) : task ∉ s.pool.free.items := by
  intro hfree
  have htally : task ∈ tally Thread.has s.threads :=
    Multiset.mem_sum.mpr ⟨t, Finset.mem_univ t, hmem⟩
  exact Multiset.disjoint_left.mp (Multiset.nodup_add.mp h.nodup).2.2 (Multiset.mem_coe.mpr hfree)
    htally

theorem Inv.not_releasing (h : Inv s) (hmem : task ∈ (s.threads t).held) {r : Release}
    (hr : (s.threads u).releasing = some r) : r.task ≠ task := by
  rintro rfl
  have htally := (Multiset.nodup_add.mp h.nodup).2.1
  by_cases htu : t = u
  · subst htu
    have hhas : (s.threads t).has.Nodup := by
      refine Multiset.nodup_of_le ?_ htally
      exact Finset.single_le_sum (f := fun t => (s.threads t).has) (fun _ _ => Multiset.zero_le _)
        (Finset.mem_univ t)
    unfold Thread.has at hhas
    rw [hr] at hhas
    exact Multiset.disjoint_left.mp (Multiset.nodup_add.mp hhas).2.2 hmem
      (Multiset.mem_singleton_self _)
  · exact not_mem_of_tally_nodup htally htu (mem_has_of_mem hmem) (mem_has_of_releasing hr)

/-! ## The steps -/

section Steps

omit [Fintype Tid] in
/-- What holds of the tasks that wait for the mutex, when one thread changes. -/
theorem locked_update {threads : Tid → Thread} {x : Thread} {P : TaskPtr → Prop}
    (hold : ∀ u task, (threads u).releasing = some (.lock task) → P task)
    (hx : ∀ task, x.releasing = some (.lock task) → P task) (u : Tid) (task : TaskPtr)
    (hu : (Function.update threads t x u).releasing = some (.lock task)) : P task := by
  by_cases hut : u = t
  · subst hut
    rw [Function.update_self] at hu
    exact hx task hu
  · rw [Function.update_of_ne hut] at hu
    exact hold u task hu

/-- A thread rearranges its tasks; the one it brings to the mutex has no function. -/
theorem Inv.setThread (h : Inv s) (x : Thread) (hhas : x.has = (s.threads t).has)
    (hlock : ∀ task, x.releasing = some (.lock task) → s.pool.func task = none) :
    Inv (s.setThread t x) where
  constructed := h.constructed
  partition := h.rearrange x hhas
  free := h.free
  locked := locked_update h.locked hlock

theorem Inv.setFunction (h : Inv s) (hmem : task ∈ (s.threads t).held) (f : F) :
    Inv { s with pool := s.pool.setFunction task f } where
  constructed := h.constructed
  partition := h.partition
  free other hfree := by
    have hne : other ≠ task := by
      rintro rfl
      exact h.not_free (mem_has_of_mem hmem) hfree
    exact (Function.update_of_ne hne ..).trans (h.free other hfree)
  locked u other hu :=
    (Function.update_of_ne (h.not_releasing hmem hu) ..).trans (h.locked u other hu)

omit [DecidableEq Tid] in
theorem Inv.reset (h : Inv s) (task : TaskPtr) : Inv { s with pool := s.pool.reset task } := by
  have hclear : ∀ other, s.pool.func other = none → (s.pool.reset task).func other = none := by
    intro other ho
    by_cases heq : other = task
    · rw [heq]
      exact Function.update_self ..
    · exact (Function.update_of_ne heq ..).trans ho
  exact ⟨h.constructed, h.partition, fun other ho => hclear _ (h.free other ho),
    fun u other hu => hclear _ (h.locked u other hu)⟩

theorem Inv.giveBack (h : Inv s) (hr : (s.threads t).releasing = some (.lock task)) :
    Inv ({ s with pool := s.pool.giveBack g task }.setThread t ((s.threads t).goOn none)) where
  constructed := h.constructed
  partition := by
    have hsum := h.exchange (t := t) (s.pool.free.items ++ [task]) ((s.threads t).goOn none) 0 (by
      unfold Thread.has Thread.goOn
      rw [hr, ← Multiset.coe_add, Multiset.coe_singleton, Option.map_none, Option.map_some,
        slot_none, slot_some, add_zero, add_zero, add_assoc, add_comm _ (s.threads t).held]
      rfl)
    rwa [add_zero] at hsum
  free other hfree := by
    rcases List.mem_append.mp hfree with hold | hnew
    · exact h.free other hold
    · rw [List.mem_singleton.mp hnew]
      exact h.locked t task hr
  locked := locked_update h.locked nofun

theorem Inv.take (h : Inv s) {q : Pool F} {rest : List TaskPtr} (hq : Grown s.pool q)
    (hitems : q.free.items = rest ++ [task]) :
    Inv ({ s with pool := { q with free := { q.free with items := rest } } }.setThread t
      ((s.threads t).gain task)) := by
  have hsum : ∀ new : Multiset TaskPtr,
      (q.free.items : Multiset TaskPtr) = (s.pool.free.items : Multiset TaskPtr) + new →
      (rest : Multiset TaskPtr) + tally Thread.has (Function.update s.threads t
        ((s.threads t).gain task)) = (s.pool.constructed : Multiset TaskPtr) + new := by
    intro new hnew
    refine h.exchange rest _ new ?_
    rw [add_right_comm, ← hnew, hitems, ← Multiset.coe_add, Multiset.coe_singleton, has_gain,
      add_assoc]
  have hrest : ∀ other, other ∈ rest → other ∈ q.free.items := by
    intro other hother
    rw [hitems]
    exact List.mem_append_left _ hother
  rcases hq with rfl | ⟨g, n, hempty, -, -, hadded⟩
  · refine ⟨h.constructed, ?_, fun other ho => h.free other (hrest other ho),
      locked_update h.locked (h.locked t)⟩
    have hnone := hsum 0 (add_zero _).symm
    rwa [add_zero] at hnone
  · have hfree : q.free.items = s.pool.free.items ++
        blockTasks s.pool.blocks.items.length 0 n := hadded.free
    have hclear : ∀ other, s.pool.func other = none → q.func other = none := by
      intro other ho
      by_cases hmem : other ∈ blockTasks s.pool.blocks.items.length 0 n
      · exact hadded.new other hmem
      · exact (hadded.old other hmem).trans ho
    refine ⟨?_, ?_, ?_, ?_⟩
    · show q.constructed = Pool.slots q.blocks.items
      rw [hadded.constructed, hadded.blocks]
      show s.pool.constructed ++ _ = Pool.slots (s.pool.blocks.items ++ [n])
      rw [slots_append, h.constructed]
    · show (rest : Multiset TaskPtr) + _ = (q.constructed : Multiset TaskPtr)
      rw [hadded.constructed, ← Multiset.coe_add]
      refine hsum _ ?_
      rw [hfree, Multiset.coe_add]
    · intro other ho
      have hmem := hrest other ho
      rw [hfree, hempty, List.nil_append] at hmem
      exact hadded.new other hmem
    · exact locked_update (fun u other hu => hclear other (h.locked u other hu))
        fun other ho => hclear other (h.locked t other ho)

theorem Inv.give (h : Inv s) (hmem : task ∈ (s.threads t).held) {s' : State Tid F}
    (hs' : s' = s.setThread t ((s.threads t).lose task)) :
    Inv (s'.setThread u ((s'.threads u).gain task)) := by
  subst hs'
  have hlose := locked_update (t := t) (x := (s.threads t).lose task) h.locked (h.locked t)
  refine ⟨h.constructed, ?_, h.free, locked_update hlose (hlose u)⟩
  · have hfrom := tally_update Thread.has s.threads t ((s.threads t).lose task)
    rw [← has_lose hmem, ← add_assoc] at hfrom
    have hto := tally_update Thread.has (Function.update s.threads t ((s.threads t).lose task)) u
      ((Function.update s.threads t ((s.threads t).lose task) u).gain task)
    rw [has_gain, ← add_assoc] at hto
    have hsame := (add_right_cancel hto).trans (add_right_cancel hfrom)
    exact (congrArg _ hsame).trans h.partition

/-- The acquisitions whose failing allocation, if any, is not a growth of `free_`. -/
def NoFreeGrowthFails (_ : State Tid F) : Act Tid F → Prop
  | .acquire _ fails => ∀ i, fails ≠ some (.freeGrowth i)
  | _ => True

/-- Every step keeps the invariant. -/
theorem Inv.step (h : Inv s) {a : Act Tid F} {s' : State Tid F} (hok : NoFreeGrowthFails s a)
    (hn : (system Tid F g).next s a = some s') : Inv s' := by
  cases a with
  | acquire t fails =>
    simp only [system] at hn
    split at hn
    next hidle =>
      obtain rfl := Option.some.inj hn
      generalize hr : s.pool.acquire g fails = r
      have hcases := acquire_cases (g := g) hok s.pool
      rw [hr] at hcases
      cases hcases with
      | nothing | threw => exact h
      | took q rest task hq hitems => exact h.take hq hitems
    · cases hn
  | setFunction t task f =>
    simp only [system] at hn
    split at hn
    next hmem =>
      obtain rfl := Option.some.inj hn
      exact h.setFunction hmem f
    · cases hn
  | give t u task =>
    simp only [system] at hn
    split at hn
    next hmem =>
      obtain rfl := Option.some.inj hn
      exact h.give hmem rfl
    · cases hn
  | release t task =>
    simp only [system] at hn
    split at hn
    next hidle =>
      split at hn
      next hmem =>
        obtain rfl := Option.some.inj hn
        refine h.setThread _ ?_ nofun
        rw [has_goOn (show ((s.threads t).lose task).releasing = none from hidle), ← has_lose hmem, add_comm]
        rfl
      · cases hn
    · cases hn
  | step t =>
    simp only [system] at hn
    split at hn
    · cases hn
    next task hr =>
      obtain rfl := Option.some.inj hn
      refine (h.reset task).setThread _ ?_ ?_
      · unfold Thread.has Thread.goOn
        rw [hr]
        rfl
      · rintro other hother
        obtain rfl := Release.lock.inj (Option.some.inj hother)
        exact Function.update_self ..
    next task hr =>
      obtain rfl := Option.some.inj hn
      exact h.giveBack hr

omit [Fintype Tid] in
theorem members_step {a : Act Tid F} {s' : State Tid F}
    (hn : (system Tid F g).next s a = some s') : Members s.pool s'.pool := by
  cases a with
  | acquire t fails =>
    simp only [system] at hn
    split at hn
    · obtain rfl := Option.some.inj hn
      have hacquire := members_acquire g fails s.pool
      unfold State.take
      split <;> exact hacquire
    · cases hn
  | setFunction | give =>
    simp only [system] at hn
    split at hn
    · obtain rfl := Option.some.inj hn
      exact ⟨rfl, rfl, le_rfl⟩
    · cases hn
  | release t task =>
    simp only [system] at hn
    split at hn
    · split at hn
      · obtain rfl := Option.some.inj hn
        exact .refl _
      · cases hn
    · cases hn
  | step t =>
    simp only [system] at hn
    split at hn
    · cases hn
    · obtain rfl := Option.some.inj hn
      exact ⟨rfl, rfl, le_rfl⟩
    next task _ =>
      obtain rfl := Option.some.inj hn
      exact ⟨rfl, rfl, capacity_le_push g s.pool.free task⟩

omit [DecidableEq Tid] in
theorem inv_initial (g : Growth) (n : ℕ) (expandable : Bool) :
    Inv (initial Tid F g n expandable) := by
  have hnobody : tally Thread.has (fun _ : Tid => (⟨0, none⟩ : Thread)) = 0 :=
    tally_eq_zero fun _ => rfl
  rcases addBlock_cases (g := g) none_ne_freeGrowth n (⟨expandable, n, .empty,
    Vec.empty.reserve n, fun _ => none, []⟩ : Pool F) with ⟨e, he, -⟩ | ⟨q, hq, hadded⟩
  · cases he
  · have hinit : Pool.init F g n expandable = q := congrArg Prod.fst hq
    have hfree : q.free.items = blockTasks 0 0 n := hadded.free
    have hconstructed : q.constructed = blockTasks 0 0 n := hadded.constructed
    unfold initial
    rw [hinit]
    refine ⟨?_, ?_, ?_, fun _ _ => nofun⟩
    · show q.constructed = Pool.slots q.blocks.items
      rw [hconstructed, hadded.blocks]
      exact (slots_append [] n).symm
    · show (q.free.items : Multiset TaskPtr) + _ = (q.constructed : Multiset TaskPtr)
      rw [hnobody, hfree, hconstructed, add_zero]
    · intro task htask
      rw [hfree] at htask
      exact hadded.new task htask

end Steps

omit [Fintype Tid] in
theorem members_reach {ok : State Tid F → Act Tid F → Prop} {n : ℕ} {expandable : Bool}
    (h : (system Tid F g).Reach ok (initial Tid F g n expandable) s) :
    s.pool.expandable = expandable ∧ s.pool.initialCapacity = n ∧ n ≤ s.pool.free.capacity := by
  have hinit : Members (⟨expandable, n, .empty, Vec.empty.reserve n, fun _ => none, []⟩ : Pool F)
      (Pool.init F g n expandable) := members_addBlock g none n _
  have hall := System.Reach.invariant h (I := fun s => Members _ s.pool) hinit
    fun _ _ _ hi _ hn => hi.trans (members_step hn)
  exact ⟨hall.expandable, hall.initialCapacity, (le_max_right 0 n).trans hall.room⟩

/-! ## What holds at any time -/

/-- The acquisitions whose allocations succeed. -/
def AllocationsSucceed (_ : State Tid F) : Act Tid F → Prop
  | .acquire _ fails => fails = none
  | _ => True

instance (s : State Tid F) (a : Act Tid F) : Decidable (AllocationsSucceed s a) := by
  cases a <;> unfold AllocationsSucceed <;> infer_instance

omit [Fintype Tid] [DecidableEq Tid] in
theorem noFreeGrowthFails_of_succeed {a : Act Tid F} (h : AllocationsSucceed s a) :
    NoFreeGrowthFails s a := by
  cases a with
  | acquire t fails =>
    obtain rfl : fails = none := h
    exact none_ne_freeGrowth
  | _ => trivial

/-- Each task of the blocks is free, held or in a release, and in one of these places only. -/
structure Conserved (g : Growth) (expandable : Bool) (s : State Tid F) : Prop where
  partition : (s.pool.free.items : Multiset TaskPtr) + tally Thread.held s.threads +
    tally (fun x => slot (x.releasing.map Release.task)) s.threads =
      (Pool.slots s.pool.blocks.items : Multiset TaskPtr)
  distinct : (Pool.slots s.pool.blocks.items).Nodup
  constructed : s.pool.constructed = Pool.slots s.pool.blocks.items
  count : s.pool.available + (tally Thread.held s.threads).card +
    (tally (fun x => slot (x.releasing.map Release.task)) s.threads).card = s.pool.capacity
  /-- `acquire` returns `nullptr` from a fixed pool without a free task, and only then. -/
  null : (s.pool.acquire g none).2 = .ok none ↔ expandable = false ∧ s.pool.empty = true
  returns : ∀ e, (s.pool.acquire g none).2 ≠ .error e
  /-- What `acquire` returns has no function. -/
  clean : ∀ task, (s.pool.acquire g none).2 = .ok (some task) →
    (s.pool.acquire g none).1.func task = none

omit [DecidableEq Tid] in
theorem Inv.split (h : Inv s) : (s.pool.free.items : Multiset TaskPtr) +
    tally Thread.held s.threads + tally (fun x => slot (x.releasing.map Release.task)) s.threads =
      (Pool.slots s.pool.blocks.items : Multiset TaskPtr) := by
  have hsum := h.partition
  unfold tally Thread.has at hsum
  rw [Finset.sum_add_distrib, ← add_assoc, h.constructed] at hsum
  exact hsum

theorem Pool.empty_iff {p : Pool F} : p.empty = true ↔ p.free.items = [] := by
  unfold Pool.empty Pool.available
  rw [decide_eq_true_eq, List.length_eq_zero_iff]

omit [DecidableEq Tid] in
theorem Inv.clean (h : Inv s) {q : Pool F} {rest : List TaskPtr} (hq : Grown s.pool q)
    (hitems : q.free.items = rest ++ [task]) : q.func task = none := by
  have hmem : task ∈ q.free.items := by
    rw [hitems]
    exact List.mem_append_right _ (List.mem_singleton_self task)
  rcases hq with rfl | ⟨g, n, hempty, -, -, hadded⟩
  · exact h.free task hmem
  · rw [hadded.free] at hmem
    have hnil : { s.pool with blocks := s.pool.blocks.push g n }.free.items = [] := hempty
    rw [hnil, List.nil_append] at hmem
    exact hadded.new task hmem

omit [DecidableEq Tid] in
theorem Inv.conserved (h : Inv s) : Conserved g s.pool.expandable s := by
  have hsplit := h.split
  have hcases := acquire_cases (g := g) none_ne_freeGrowth s.pool
  refine ⟨hsplit, nodup_slots _, h.constructed, ?_, ?_, ?_, ?_⟩
  · have hcard := congrArg Multiset.card hsplit
    rw [Multiset.card_add, Multiset.card_add, Multiset.coe_card, Multiset.coe_card,
      length_slots] at hcard
    exact hcard
  · rw [Pool.empty_iff]
    generalize s.pool.acquire g none = r at hcases
    cases hcases with
    | nothing hempty hfixed => exact ⟨fun _ => ⟨hfixed, hempty⟩, fun _ => rfl⟩
    | threw e he => cases he
    | took q rest task hq hitems =>
      refine ⟨nofun, ?_⟩
      rintro ⟨hfixed, hempty⟩
      rcases hq with rfl | ⟨_, _, _, _, hexp, _⟩
      · rw [hempty] at hitems
        exact absurd hitems.symm (by simp)
      · rw [hfixed] at hexp
        cases hexp
  · intro e he
    generalize s.pool.acquire g none = r at hcases he
    cases hcases with
    | threw e' he' => cases he'
    | _ => cases he
  · intro task htask
    generalize s.pool.acquire g none = r at hcases htask
    cases hcases with
    | took q rest task' hq hitems =>
      obtain rfl := Option.some.inj (Except.ok.inj htask)
      have hclean := h.clean hq hitems
      exact hclean
    | _ => cases htask

/-- **The pool conserves its tasks.** For every initial capacity, fixed or expandable, and every
interleaving of any number of threads. -/
theorem partitioned (g : Growth) (n : ℕ) (expandable : Bool) (s : State Tid F)
    (h : (system Tid F g).Reach AllocationsSucceed (initial Tid F g n expandable) s) :
    Conserved g expandable s := by
  have hinv : Inv s := System.Reach.invariant h (inv_initial g n expandable)
    fun _ _ _ hi hok hn => hi.step (noFreeGrowthFails_of_succeed hok) hn
  rw [← (members_reach h).1]
  exact hinv.conserved

end Inv

/-- Doubling. -/
def Growth.double : Growth := ⟨fun n => 2 * n + 1, fun n => by omega⟩

/-- Thread 0 acquires the task of a pool of one; thread 1 makes the pool grow, uses its task and is
about to give it back. -/
def twoAcquire : List (Act (Fin 2) ℕ) :=
  [.acquire 0 none, .acquire 1 none, .setFunction 1 ⟨1, 0⟩ 7, .release 1 ⟨1, 0⟩, .step 1]

theorem partitioned_twoAcquire : ∃ s : State (Fin 2) ℕ, s.pool.capacity = 2 ∧ s.pool.available = 0 ∧
    Conserved .double true s := by
  have hrun : ((system (Fin 2) ℕ .double).runWhile AllocationsSucceed
      (initial (Fin 2) ℕ .double 1 true) twoAcquire).map
        (fun s => (s.pool.capacity, s.pool.available)) = some (2, 0) := by decide +kernel
  obtain ⟨s, hs, hcounts⟩ := Option.map_eq_some_iff.mp hrun
  obtain ⟨hcapacity, havailable⟩ := Prod.mk.inj hcounts
  exact ⟨s, hcapacity, havailable, partitioned .double 1 true s (System.reach_of_runWhile hs)⟩

end LowLatency.MemoryPool
