import LowLatency.WorkStealingQueue.Strand

/-!
# Every array and every node is deleted once

`grow` deletes the array that it replaces, and `~QueueShared` the last one with the nodes that are
left in it. No array is deleted twice or left behind (`Arrays`). An array that is full has no node
behind `top`, even after a position has been taken twice, and what thieves claim while `grow` waits
for them they take before it copies: so all nodes of the old array are at positions that `grow`
copies, and it deletes an array that has none (`Lodged`).
-/

namespace LowLatency.WorkStealingQueue

open Concurrency

variable {α Tid : Type*}

/-- The array besides the published one that an operation has to publish or to delete. -/
def Local.charge (x : Local α) : Multiset ℕ := slot x.spare

/-- Every array ever allocated is published, in the hands of `grow`, or deleted, and in one place
only. -/
def Arrays [Fintype Tid] (s : Shared α) (l : Tid → Option (Local α)) : Prop :=
  Multiset.range s.allocated = (s.freed : Multiset ℕ) + {s.array} + hands Local.charge l

/-- What the destructor of a queue that nobody uses any more completes. -/
structure Reclaimed (s : Shared α) : Prop where
  arrays : (s.freed ++ [s.array]).Perm (List.range s.allocated)
  nodes : (s.deleted ++ destroyed s).Perm s.pushed

section Steps

variable {s : Shared α} {x : Local α}

theorem spare_copyNext (s : Shared α) (item : α) (n t i : ℕ) :
    (copyNext s item n t i).spare = some n := by
  unfold copyNext
  split <;> rfl

theorem spare_succeeded (k : Kind α) (y : α) : (k.succeeded y).spare = none := by
  cases k with
  | batch max items =>
    simp only [Kind.succeeded]
    split <;> rfl
  | _ => rfl

theorem step_charge (hcurrent : s.current = s.array) (b : Bool) :
    ((step b s x).1.freed : Multiset ℕ) + {(step b s x).1.array} + (step b s x).2.charge +
        Multiset.range s.allocated =
      s.freed + {s.array} + x.charge + Multiset.range (step b s x).1.allocated := by
  cases x with
  | growAlloc item =>
    show (s.freed : Multiset ℕ) + {s.array} + {s.allocated} + Multiset.range s.allocated =
      s.freed + {s.array} + 0 + Multiset.range (s.allocated + 1)
    rw [Multiset.range_succ, ← Multiset.singleton_add]
    abel
  | growPublish item n t =>
    show (s.freed : Multiset ℕ) + {n} + {s.current} + Multiset.range s.allocated =
      s.freed + {s.array} + {n} + Multiset.range s.allocated
    rw [hcurrent]
    abel
  | growDelete item old =>
    show ((s.freed ++ [old] : List ℕ) : Multiset ℕ) + {s.array} + 0 + Multiset.range s.allocated =
      s.freed + {s.array} + {old} + Multiset.range s.allocated
    rw [← Multiset.coe_add, Multiset.coe_singleton]
    abel
  | growLoadTop item n =>
    show (s.freed : Multiset ℕ) + {s.array} + slot (copyNext s item n s.top s.top).spare + _ = _
    rw [spare_copyNext]
    rfl
  | growStoreRound item n t i =>
    show (s.freed : Multiset ℕ) + {s.array} + slot (copyNext s item n t (i + 1)).spare + _ = _
    rw [spare_copyNext]
    rfl
  | growExchange item n t i =>
    simp only [step]
    split
    · show (s.freed : Multiset ℕ) + {s.array} + slot (copyNext s item n t (i + 1)).spare + _ = _
      rw [spare_copyNext]
      rfl
    · rfl
  | finish k p =>
    show (s.freed : Multiset ℕ) + {s.array} + slot (k.succeeded p.item).spare + _ = _
    rw [spare_succeeded]
    rfl
  | pushLoadTop | pushWait | growAwait | enterLoadGate | enterRecheck | popClaim | claim =>
    simp only [step]
    split <;> rfl
  | popTail | popExchange | exchange =>
    simp only [step]
    split <;> rfl
  | popLoadTop =>
    simp only [step]
    split
    · rfl
    · split
      · rfl
      · split <;> rfl
  | loadRound k t a =>
    simp only [step]
    split
    · rfl
    · split <;> rfl
  | _ => rfl

end Steps

theorem charge_start (op : Op α) : (start op).charge = 0 := by
  cases op with
  | stealBatch max =>
    simp only [start]
    split <;> rfl
  | _ => rfl

section Runs

variable [Fintype Tid] [DecidableEq Tid]

theorem arrays_inductive (owner : Tid) :
    (object : Object (Op α) (Result α) (Shared α) (Local α)).Inductive (may owner)
      (fun _ _ => True) fun s l => Inv owner s l ∧ Arrays s l where
  call {s l t op} h hl hmay := by
    refine ⟨(inv_inductive owner).call h.1 hl hmay, ?_⟩
    have hup := hands_update Local.charge l t (some (start op))
    rw [hl] at hup
    have hsame : hands Local.charge (Function.update l t (some (start op))) =
        hands Local.charge l := by simpa [hand, charge_start] using hup
    unfold Arrays
    rw [show object.start op = start op from rfl, hsame]
    exact h.2
  step {s l t x} b h hx hr hok := by
    refine ⟨(inv_inductive owner).step b h.1 hx hr hok, ?_⟩
    have hup : hands Local.charge (Function.update l t (some (step b s x).2)) + x.charge =
        hands Local.charge l + (step b s x).2.charge := by
      have hup := hands_update Local.charge l t (some (step b s x).2)
      rw [hx] at hup
      exact hup
    have hall : Multiset.range s.allocated = s.freed + {s.array} + hands Local.charge l := h.2
    refine add_left_cancel (a := (s.freed : Multiset ℕ) + {s.array} + x.charge) ?_
    calc (s.freed : Multiset ℕ) + {s.array} + x.charge + Multiset.range (step b s x).1.allocated
        = (step b s x).1.freed + {(step b s x).1.array} + (step b s x).2.charge +
            Multiset.range s.allocated := (step_charge h.1.current b).symm
      _ = s.freed + {s.array} + ((step b s x).1.freed + {(step b s x).1.array}) +
            (hands Local.charge l + (step b s x).2.charge) := by
          rw [hall]
          abel
      _ = s.freed + {s.array} + ((step b s x).1.freed + {(step b s x).1.array}) +
            (hands Local.charge (Function.update l t (some (step b s x).2)) + x.charge) := by
          rw [hup]
      _ = (s.freed : Multiset ℕ) + {s.array} + x.charge + ((step b s x).1.freed +
            {(step b s x).1.array} +
              hands Local.charge (Function.update l t (some (step b s x).2))) := by abel
  ret {s l t x o} h hx hr := by
    refine ⟨(inv_inductive owner).ret h.1 hx hr, ?_⟩
    have hup := hands_update Local.charge l t none
    cases x with
    | done o' =>
      rw [hx] at hup
      have hsame : hands Local.charge (Function.update l t none) = hands Local.charge l := by
        simpa [hand, Local.charge, Local.spare] using hup
      unfold Arrays
      rw [hsame]
      exact h.2
    | _ => cases hr

omit [DecidableEq Tid] in
theorem arrays_init (r : Ring) : Arrays (init r : Shared α) fun _ : Tid => none := by
  unfold Arrays
  rw [hands_eq_zero fun _ => rfl]
  rfl

end Runs

/-! ## Nothing is left in an array that `grow` deletes -/

/-- Each node of the current array is in the cell of its position, and its position is one of the
last `size` before `e`. -/
def Last (s : Shared α) (e : ℕ) : Prop :=
  ∀ k n, (s.cells s.current).data k = some n → (s.cap s.current).slot n.pos = k ∧ n.pos < e ∧
    e ≤ n.pos + (s.cap s.current).size

/-- The window shows every node of the old array, at the positions from `t` on. -/
structure Shown (s : Shared α) (t : ℕ) : Prop where
  window : ∀ k n, s.window k = some n →
    (s.cap s.current).slot n.pos = k ∧ t ≤ n.pos ∧ n.pos < s.bottom
  cells : ∀ k n, (s.cells s.current).data k = some n → s.window k = some n

/-- No node is behind `top`, apart from those that a thief is about to take. -/
def Ahead (s : Shared α) (taken : ℕ → Prop) : Prop :=
  ∀ k n, (s.cells s.current).data k = some n → s.top ≤ n.pos ∨ taken n.pos

/-- What the owner's operation knows about the nodes in its arrays. -/
def Knows (s : Shared α) (taken : ℕ → Prop) : Option (Local α) → Prop
  | some .pushStoreRound => Last s (s.bottom + 1)
  | some (.popTailClear pos _) => Last s s.bottom ∧ s.dataAt s.current pos = none
  | some (.growAlloc _) | some (.growClose _ _) | some (.growAwait _ _)
  | some (.growLoadTop _ _) => Last s s.bottom ∧ Ahead s taken
  | some (.growExchange _ _ t _) | some (.growStoreData _ _ t _ _)
  | some (.growStoreRound _ _ t _) | some (.growPublish _ _ t) => Shown s t
  | some (.growDelete _ old) => Last s s.bottom ∧ ∀ k, (s.cells old).data k = none
  | _ => Last s s.bottom

/-- A thief has claimed position `p` and is about to take its node. -/
def Taking (l : Tid → Option (Local α)) (p : ℕ) : Prop :=
  ∃ u k a, l u = some (.exchange k p a)

/-- No array is deleted before its nodes have been moved. -/
structure Lodged (owner : Tid) (s : Shared α) (l : Tid → Option (Local α)) : Prop where
  knows : Knows s (Taking l) (l owner)
  leaked : s.leaked = []

section Lodging

variable {s s' : Shared α} {taken taken' : ℕ → Prop} {o : Option (Local α)} {e t : ℕ}

/-- A step that empties cells at most. -/
structure Sweeps (s s' : Shared α) : Prop where
  current : s'.current = s.current
  bottom : s'.bottom = s.bottom
  window : s'.window = s.window
  leaked : s'.leaked = s.leaked
  cap : s'.cap s.current = s.cap s.current
  cells : ∀ a k n, (s'.cells a).data k = some n → (s.cells a).data k = some n

theorem Sweeps.refl (s : Shared α) : Sweeps s s where
  current := rfl
  bottom := rfl
  window := rfl
  leaked := rfl
  cap := rfl
  cells _ _ _ h := h

theorem sweeps_setData (s : Shared α) (a pos : ℕ) : Sweeps s (s.setData a pos none) where
  current := rfl
  bottom := rfl
  window := rfl
  leaked := rfl
  cap := s.setData_cap ..
  cells b k n h := by
    rw [Shared.setData_data] at h
    split at h
    next he =>
      subst he
      by_cases hk : k = (s.cap b).slot pos
      · rw [hk, Function.update_self] at h
        cases h
      · rwa [Function.update_of_ne hk] at h
    next => exact h

theorem sweeps_setRound (s : Shared α) (a pos n : ℕ) : Sweeps s (s.setRound a pos n) where
  current := rfl
  bottom := rfl
  window := rfl
  leaked := rfl
  cap := s.setRound_cap ..
  cells b k p h := by rwa [Shared.setRound_data] at h

theorem sweeps_clearRound (s : Shared α) (a pos : ℕ) : Sweeps s (s.clearRound a pos) where
  current := rfl
  bottom := rfl
  window := rfl
  leaked := rfl
  cap := s.clearRound_cap ..
  cells b k p h := by rwa [Shared.clearRound_data] at h

theorem Sweeps.dataAt (h : Sweeps s s') {pos : ℕ} (hnone : s.dataAt s.current pos = none) :
    s'.dataAt s.current pos = none := by
  cases hd : s'.dataAt s.current pos with
  | none => rfl
  | some n =>
    have hn := h.cells _ _ n hd
    rw [h.cap] at hn
    rw [show s.dataAt s.current pos = some n from hn] at hnone
    cases hnone

theorem Last.sweep (h : Last s e) (hs : Sweeps s s') : Last s' e := by
  intro k n hn
  rw [hs.current] at hn ⊢
  rw [hs.cap]
  exact h k n (hs.cells _ k n hn)

theorem Last.sweep_bottom (h : Last s s.bottom) (hs : Sweeps s s') : Last s' s'.bottom := by
  rw [hs.bottom]
  exact h.sweep hs

theorem Shown.sweep (h : Shown s t) (hs : Sweeps s s') : Shown s' t where
  window k n hn := by
    rw [hs.window] at hn
    rw [hs.current, hs.cap, hs.bottom]
    exact h.window k n hn
  cells k n hn := by
    rw [hs.current] at hn
    rw [hs.window]
    exact h.cells k n (hs.cells _ k n hn)

/-- The steps of others empty cells at most, and take what they have claimed. -/
theorem Knows.sweep (h : Knows s taken o) (hs : Sweeps s s')
    (hahead : ∀ k n, (s'.cells s.current).data k = some n →
      Last s s.bottom → s.top ≤ n.pos ∨ taken n.pos → s'.top ≤ n.pos ∨ taken' n.pos) :
    Knows s' taken' o := by
  rcases o with _ | x
  · exact Last.sweep_bottom h hs
  cases x with
  | pushStoreRound =>
    show Last s' (s'.bottom + 1)
    rw [hs.bottom]
    exact Last.sweep h hs
  | popTailClear pos p =>
    obtain ⟨hlast, hnone⟩ := h
    refine ⟨hlast.sweep_bottom hs, ?_⟩
    rw [hs.current]
    exact hs.dataAt hnone
  | growAlloc | growClose | growAwait | growLoadTop =>
    obtain ⟨hlast, htaken⟩ := h
    refine ⟨hlast.sweep_bottom hs, fun k n hn => ?_⟩
    rw [hs.current] at hn
    exact hahead k n hn hlast (htaken k n (hs.cells _ k n hn))
  | growExchange | growStoreData | growStoreRound | growPublish => exact Shown.sweep h hs
  | growDelete item old =>
    obtain ⟨hlast, hempty⟩ := h
    refine ⟨hlast.sweep_bottom hs, fun k => ?_⟩
    cases hd : (s'.cells old).data k with
    | none => rfl
    | some n =>
      have hn := hs.cells old k n hd
      rw [hempty k] at hn
      cases hn
  | _ => exact Last.sweep_bottom h hs

theorem Knows.mono (h : Knows s taken o) (htaken : ∀ p, taken p → taken' p) :
    Knows s taken' o :=
  h.sweep (.refl s) fun _ _ _ _ => Or.imp_right (htaken _)

theorem knows_of_not_ofOwner {x : Local α} (hx : x.ofOwner = false) (h : Last s s.bottom) :
    Knows s taken (some x) := by
  cases x <;> first | exact h | cases hx

theorem Knows.last {x : Local α} (hx : x.ofOwner = false) (h : Knows s taken (some x)) :
    Last s s.bottom := by
  cases x <;> first | exact h | cases hx

end Lodging

/-! ### Steps of a thief -/

section Thieves

variable {s : Shared α} {x : Local α} {l : Tid → Option (Local α)} {t : Tid} {p : ℕ}

theorem ofOwner_step (hx : x.ofOwner = false) (b : Bool) : (step b s x).2.ofOwner = false := by
  cases x with
  | loadRound k t a =>
    simp only [step]
    split
    · rfl
    · split <;> rfl
  | finish k p =>
    rcases Inv.succeeded_cases k p.item with ⟨k', he⟩ | ⟨r, he⟩
    · exact congrArg Local.ofOwner he
    · exact congrArg Local.ofOwner he
  | enterLoadGate | enterRecheck | claim | exchange =>
    simp only [step]
    split <;> rfl
  | enterAdd | enterSub | loadTop | loadArray | clearRound | exit | done => rfl
  | _ => cases hx

theorem sweeps_step (hx : x.ofOwner = false) (b : Bool) : Sweeps s (step b s x).1 := by
  cases x with
  | enterLoadGate | enterRecheck | claim =>
    simp only [step]
    split <;> exact { Sweeps.refl s with }
  | loadRound k t a =>
    simp only [step]
    split
    · exact .refl s
    · split <;> exact .refl s
  | exchange k t a =>
    simp only [step]
    split
    · exact .refl s
    · exact sweeps_setData s a t
  | clearRound k t a p => exact sweeps_clearRound s a t
  | enterAdd | enterSub | loadTop | loadArray | finish | exit | done =>
    exact { Sweeps.refl s with }
  | _ => cases hx

theorem Taking.update [DecidableEq Tid] (h : Taking l p) (hne : ∀ k a, l t ≠ some (.exchange k p a))
    (o : Option (Local α)) : Taking (Function.update l t o) p := by
  obtain ⟨u, k, a, hu⟩ := h
  refine ⟨u, k, a, ?_⟩
  rw [Function.update_of_ne ?_, hu]
  rintro rfl
  exact hne k a hu

end Thieves

/-! ### Steps of the owner -/

section Owner

variable {s : Shared α} {taken : ℕ → Prop} {item : α} {n t i : ℕ}

theorem Last.pushStoreData (h : Last s s.bottom) (p : Node α) (hp : p.pos = s.bottom) :
    Last (s.setData s.current s.bottom (some p)) (s.bottom + 1) := by
  intro k m hm
  have hm : ((s.setData s.current s.bottom (some p)).cells s.current).data k = some m := hm
  rw [Shared.setData_data, if_pos rfl] at hm
  have hsize := (s.cap s.current).size_pos
  show (Shared.cap (s.setData ..) s.current).slot m.pos = k ∧ m.pos < s.bottom + 1 ∧
    s.bottom + 1 ≤ m.pos + (Shared.cap (s.setData ..) s.current).size
  rw [Shared.setData_cap]
  by_cases hk : k = (s.cap s.current).slot s.bottom
  · rw [hk, Function.update_self, Option.some.injEq] at hm
    rw [← hm, hk, hp]
    exact ⟨rfl, by omega, by omega⟩
  · rw [Function.update_of_ne hk] at hm
    obtain ⟨hslot, hlt, hle⟩ := h k m hm
    -- the node a round before would be in the bottom's own cell
    have hne : m.pos + (s.cap s.current).size ≠ s.bottom := by
      intro he
      rw [← he, Pow2.slot_add_size] at hk
      exact hk hslot.symm
    exact ⟨hslot, by omega, by omega⟩

theorem Last.ahead (h : Last s s.bottom) (hfull : s.top + (s.cap s.current).size ≤ s.bottom) :
    Ahead s taken := by
  intro k m hm
  obtain ⟨-, -, hle⟩ := h k m hm
  exact .inl (by omega)

theorem Last.shown (h : Last s s.bottom) (ha : Ahead s taken) (hnone : ∀ p, ¬ taken p) :
    Shown { s with window := (s.cells s.current).data } s.top where
  window k m hm := by
    obtain ⟨hslot, hlt, -⟩ := h k m hm
    exact ⟨hslot, (ha k m hm).resolve_right (hnone _), hlt⟩
  cells _ _ hm := hm

theorem Shown.storeData (h : Shown s t) (hne : n ≠ s.current) (p : Option (Node α)) :
    Shown (s.setData n i p) t where
  window k m hm := by
    show (Shared.cap (s.setData ..) s.current).slot m.pos = k ∧ _
    rw [Shared.setData_cap]
    exact h.window k m hm
  cells k m hm := by
    have hm : ((s.setData n i p).cells s.current).data k = some m := hm
    rw [s.setData_other _ _ _ _ hne.symm] at hm
    exact h.cells k m hm

theorem Shown.knows_copyNext (h : Shown s t) :
    Knows s taken (some (copyNext s item n t i)) := by
  unfold copyNext
  split <;> exact h

theorem Shown.publish (h : Shown s t) (hc : Copied s n t i i) (hi : i ≤ s.bottom ∨ i = t)
    (hroom : s.bottom ≤ s.top + (s.cap s.current).size) :
    Last { s with array := n, current := n } s.bottom := by
  intro k m hm
  obtain ⟨j, htj, hji, hk⟩ := hc.only k m hm
  have hwindow : s.window ((s.cap s.current).slot j) = some m := by
    rw [← (hc.moved j htj hji).1, ← hm, hk]
    rfl
  obtain ⟨hslot, hge, hlt⟩ := h.window _ m hwindow
  have htop := hc.top_eq
  obtain rfl : m.pos = j := (s.cap s.current).slot_inj hslot (by omega) (by omega)
  refine ⟨hk.symm, hlt, ?_⟩
  show s.bottom ≤ m.pos + (s.cap n).size
  rw [hc.cap_eq, Pow2.size_double]
  omega

theorem Shown.old_empty (h : Shown s t) (hc : Copied s n t i i) (hi : s.bottom ≤ i) (k : ℕ) :
    (s.cells s.current).data k = none := by
  cases hm : (s.cells s.current).data k with
  | none => rfl
  | some m =>
    obtain ⟨hslot, hge, hlt⟩ := h.window k m (h.cells k m hm)
    have hnone := (hc.moved m.pos hge (by omega)).2
    unfold Shared.dataAt at hnone
    rw [hslot, hm] at hnone
    cases hnone

/-- Taking the node of the last position gives the position up. -/
theorem Last.popTail (h : Last s s.bottom) {pos : ℕ} (hpos : s.bottom = pos + 1)
    (hnone : s.dataAt s.current pos = none) : Last s pos := by
  intro k m hm
  obtain ⟨hslot, hlt, hle⟩ := h k m hm
  have hne : m.pos ≠ pos := by
    rintro rfl
    unfold Shared.dataAt at hnone
    rw [hslot, hm] at hnone
    cases hnone
  exact ⟨hslot, by omega, by omega⟩

theorem nodes_eq_nil {a : ℕ} (h : ∀ k, (s.cells a).data k = none) : s.nodes a = [] :=
  List.filterMap_eq_nil_iff.mpr fun k _ => h k

theorem sweeps_growAlloc (hne : s.current ≠ s.allocated) (b : Bool) :
    Sweeps s (step b s (.growAlloc item)).1 where
  current := rfl
  bottom := rfl
  window := rfl
  leaked := rfl
  cap := congrArg Arr.cap (Function.update_of_ne hne _ s.heap)
  cells a k m hm := by
    have hm : (Function.update s.heap s.allocated ⟨(s.cap s.current).double, .init⟩ a).cells.data
      k = some m := hm
    by_cases ha : a = s.allocated
    · rw [ha, Function.update_self] at hm
      cases hm
    · rwa [Function.update_of_ne ha] at hm

end Owner

section Runs

variable [Fintype Tid] [DecidableEq Tid] {owner t : Tid} {s : Shared α}
  {l : Tid → Option (Local α)} {x : Local α}

omit [DecidableEq Tid] in
/-- The owner's next instruction, other threads having claimed what they have. -/
theorem knows_step_owner (h : Inv owner s l) (hx : l owner = some x) (hown : x.ofOwner = true)
    (hk : Knows s (Taking l) (some x)) (b : Bool) :
    Knows (step b s x).1 (Taking l) (some (step b s x).2) ∧ (step b s x).1.leaked = s.leaked := by
  have hph := h.phase_at hx
  cases x with
  | pushLoadTop item =>
    have hlast : Last s s.bottom := hk
    simp only [step]
    split
    next hfull => exact ⟨⟨hlast, hlast.ahead (by omega)⟩, rfl⟩
    next => exact ⟨hlast, rfl⟩
  | pushWait | growAwait =>
    simp only [step]
    split <;> exact ⟨hk, rfl⟩
  | pushStoreData item => exact ⟨Last.pushStoreData hk _ rfl, rfl⟩
  | pushStoreRound =>
    have hlast := Last.sweep hk (sweeps_setRound s s.current s.bottom (s.bottom + 1))
    exact ⟨hlast, rfl⟩
  | growAlloc item =>
    have hne : s.current ≠ s.allocated := by
      have := h.allocated
      rw [h.current]
      omega
    exact ⟨hk.sweep (o := some (.growClose item s.allocated)) (sweeps_growAlloc hne b)
      fun k m _ _ hm => hm, rfl⟩
  | growClose | growOpen | popFinish => exact ⟨hk, rfl⟩
  | growLoadTop item n =>
    refine ⟨Shown.knows_copyNext (s := (step b s (.growLoadTop item n)).1)
      (hk.1.shown hk.2 fun p hp => ?_), rfl⟩
    -- no thief is inside the window
    obtain ⟨u, k, a, hu⟩ := hp
    have hquiet := h.quiet _ hx rfl u _ hu
    cases hquiet
  | growExchange item n t i =>
    have hshown := Shown.sweep hk (sweeps_setData s s.current i)
    simp only [step]
    split
    · exact ⟨hshown.knows_copyNext, rfl⟩
    · exact ⟨hshown, rfl⟩
  | growStoreData item n t i p =>
    have hne : n ≠ s.current := by
      rw [h.current]
      exact (h.spare _ n hx rfl).2.1
    exact ⟨Shown.storeData hk hne (some p), rfl⟩
  | growStoreRound item n t i =>
    exact ⟨(Shown.sweep hk (sweeps_setRound s n i (i + 1))).knows_copyNext, rfl⟩
  | growPublish item n t =>
    obtain ⟨i, hc, hle, hi⟩ := hph
    exact ⟨⟨Shown.publish hk hc hi h.room, Shown.old_empty hk hc hle⟩, rfl⟩
  | growDelete item old =>
    refine ⟨hk.1, ?_⟩
    show s.leaked ++ s.nodes old = s.leaked
    rw [nodes_eq_nil hk.2, List.append_nil]
  | popLoadTop =>
    simp only [step]
    split
    · exact ⟨hk, rfl⟩
    · split
      · exact ⟨hk, rfl⟩
      · split <;> exact ⟨hk, rfl⟩
  | popTail pos =>
    simp only [step]
    split
    · exact ⟨hk, rfl⟩
    · refine ⟨⟨Last.sweep hk (sweeps_setData s s.current pos), ?_⟩, rfl⟩
      show (s.setData s.current pos none).dataAt s.current pos = none
      rw [Shared.setData_dataAt, if_pos ⟨rfl, rfl⟩]
  | popTailClear pos p =>
    have hlast := (hk.1.popTail hph hk.2).sweep (sweeps_clearRound s s.current pos)
    exact ⟨hlast, rfl⟩
  | popClaim t =>
    simp only [step]
    split <;> exact ⟨hk, rfl⟩
  | popExchange t =>
    have hlast : Last s (t + 1) := by
      rw [← show s.bottom = t + 1 from hph]
      exact hk
    simp only [step]
    split
    · exact ⟨hlast, rfl⟩
    · have hswept := hlast.sweep (sweeps_setData s s.current t)
      exact ⟨hswept, rfl⟩
  | popClear t p => exact ⟨Last.sweep hk (sweeps_clearRound s s.current t), rfl⟩
  | _ => cases hown

/-- A thief takes the node of the position that it has claimed. -/
theorem knows_step_thief (h : Inv owner s l) (hx : l t = some x) (hown : x.ofOwner = false)
    {o : Option (Local α)} (hk : Knows s (Taking l) o) (b : Bool) :
    Knows (step b s x).1 (Taking (Function.update l t (some (step b s x).2))) o := by
  refine hk.sweep (sweeps_step hown b) fun k m hm hlast hclaimed => ?_
  -- apart from the two steps of the steal, `top` and the claims stay
  have hsame : (∀ k' t' a, x ≠ .exchange k' t' a) → (step b s x).1.top = s.top →
      (step b s x).1.top ≤ m.pos ∨
        Taking (Function.update l t (some (step b s x).2)) m.pos := fun hne htop => by
    rw [htop]
    refine hclaimed.imp_right fun hp => hp.update (fun k' a he => ?_) _
    rw [hx, Option.some.injEq] at he
    exact hne k' m.pos a he
  cases x with
  | claim k' t' a =>
    by_cases htop : s.top = t'
    · have hstep : step b s (.claim k' t' a) = ({ s with top := t' + 1 }, .exchange k' t' a) :=
        if_pos htop
      rw [hstep]
      show t' + 1 ≤ m.pos ∨ _
      rcases hclaimed with hge | hp
      · rcases (htop ▸ hge).eq_or_lt with rfl | hlt
        · exact .inr ⟨t, k', a, Function.update_self ..⟩
        · exact .inl hlt
      · exact .inr (hp.update (by rw [hx]; rintro _ _ ⟨⟩) _)
    · exact hsame (by rintro _ _ _ ⟨⟩) (by simp only [step, if_neg htop])
  | exchange k' t' a =>
    obtain rfl : a = s.current := (h.arrayOf t _ a hx rfl).trans h.current.symm
    have hnone : (step b s (.exchange k' t' s.current)).1.dataAt s.current t' = none := by
      cases hd : s.dataAt s.current t' with
      | none => simp only [step, hd]
      | some q =>
        simp only [step, hd]
        rw [Shared.setData_dataAt, if_pos ⟨rfl, rfl⟩]
    have htop : (step b s (.exchange k' t' s.current)).1.top = s.top := by
      simp only [step]
      split <;> rfl
    -- its own position is empty now
    have hswept := sweeps_step (s := s) (x := .exchange k' t' s.current) rfl b
    have hne : m.pos ≠ t' := by
      rintro rfl
      obtain ⟨hslot, -, -⟩ := hlast k m (hswept.cells _ k m hm)
      unfold Shared.dataAt at hnone
      rw [hswept.cap, hslot, hm] at hnone
      cases hnone
    rw [htop]
    refine hclaimed.imp_right fun hp => hp.update (fun k'' a he => ?_) _
    rw [hx, Option.some.injEq] at he
    injection he with _ hpos _
    exact hne hpos.symm
  | loadRound k' t' a =>
    refine hsame (by rintro _ _ _ ⟨⟩) ?_
    simp only [step]
    split
    · rfl
    · split <;> rfl
  | enterLoadGate | enterRecheck =>
    refine hsame (by rintro _ _ _ ⟨⟩) ?_
    simp only [step]
    split <;> rfl
  | enterAdd | enterSub | loadTop | loadArray | clearRound | finish | exit | done =>
    exact hsame (by rintro _ _ _ ⟨⟩) rfl
  | _ => cases hown

omit [Fintype Tid] in
/-- The owner's operation, when it is another thread that moves or this one's operation knows no
more. -/
theorem Knows.turn {taken : ℕ → Prop} {o : Option (Local α)} (h : t ≠ owner → Knows s taken (l owner))
    (ht : t = owner → Knows s taken o) : Knows s taken (Function.update l t o owner) := by
  by_cases he : owner = t
  · rw [he, Function.update_self]
    exact ht he.symm
  · rw [Function.update_of_ne he]
    exact h (Ne.symm he)

namespace Lodged

omit [Fintype Tid] [DecidableEq Tid] in
theorem init (owner : Tid) (r : Ring) :
    Lodged owner (init r : Shared α) fun _ => none where
  knows k n h := by cases h
  leaked := rfl

omit [Fintype Tid] in
theorem call (h : Lodged owner s l) (hl : l t = none) (op : Op α) :
    Lodged owner s (Function.update l t (some (start op))) where
  knows := by
    have hknows : Knows s (Taking (Function.update l t (some (start op)))) (l owner) :=
      h.knows.mono fun p hp => hp.update (by rw [hl]; rintro _ _ ⟨⟩) _
    refine Knows.turn (fun _ => hknows) ?_
    rintro rfl
    rw [hl] at hknows
    cases op with
    | stealBatch max =>
      simp only [start]
      split <;> exact hknows
    | _ => exact hknows
  leaked := h.leaked

omit [Fintype Tid] in
theorem ret (h : Lodged owner s l) {r : Result α} (hx : l t = some (.done r)) :
    Lodged owner s (Function.update l t none) where
  knows := by
    have hknows : Knows s (Taking (Function.update l t none)) (l owner) :=
      h.knows.mono fun p hp => hp.update (by rw [hx]; rintro _ _ ⟨⟩) _
    refine Knows.turn (fun _ => hknows) ?_
    rintro rfl
    rwa [hx] at hknows
  leaked := h.leaked

theorem step_owner (h : Lodged owner s l) (hinv : Inv owner s l) (hx : l owner = some x)
    (hown : x.ofOwner = true) (b : Bool) :
    Lodged owner (step b s x).1 (Function.update l owner (some (step b s x).2)) := by
  have hknows := h.knows
  rw [hx] at hknows
  obtain ⟨hnext, hleaked⟩ := knows_step_owner hinv hx hown hknows b
  refine ⟨?_, hleaked.trans h.leaked⟩
  rw [Function.update_self]
  refine hnext.mono fun p hp => hp.update (fun k a he => ?_) _
  rw [hx, Option.some.injEq] at he
  rw [he] at hown
  cases hown

theorem step_thief (h : Lodged owner s l) (hinv : Inv owner s l) (hx : l t = some x)
    (hown : x.ofOwner = false) (b : Bool) :
    Lodged owner (step b s x).1 (Function.update l t (some (step b s x).2)) where
  knows := by
    refine Knows.turn (fun _ => knows_step_thief hinv hx hown h.knows b) ?_
    rintro rfl
    have hknows := h.knows
    rw [hx] at hknows
    exact knows_of_not_ofOwner (ofOwner_step hown b)
      ((hknows.last hown).sweep_bottom (sweeps_step hown b))
  leaked := (sweeps_step hown b).leaked.trans h.leaked

end Lodged

/-- No array is deleted with a node in it, whatever the thieves do. -/
theorem lodged_inductive (owner : Tid) :
    (object : Object (Op α) (Result α) (Shared α) (Local α)).Inductive (may owner)
      (fun _ _ => True) fun s l => Inv owner s l ∧ Lodged owner s l where
  call h hl hmay := ⟨(inv_inductive owner).call h.1 hl hmay, h.2.call hl _⟩
  step {s l t x} b h hx hr hok := by
    refine ⟨(inv_inductive owner).step b h.1 hx hr hok, ?_⟩
    cases hown : x.ofOwner with
    | true =>
      obtain rfl := h.1.only t x hx hown
      exact h.2.step_owner h.1 hx hown b
    | false => exact h.2.step_thief h.1 hx hown b
  ret {s l t x o} h hx hr := by
    refine ⟨(inv_inductive owner).ret h.1 hx hr, ?_⟩
    cases x with
    | done o' => exact h.2.ret hx
    | _ => cases hr

omit [DecidableEq Tid] in
theorem reclaimed (h : Inv owner s l) (harrays : Arrays s l) (hlodged : Lodged owner s l)
    (hrest : ∀ t, l t = none) : Reclaimed s where
  arrays := by
    unfold Arrays at harrays
    rw [hands_eq_zero hrest, add_zero] at harrays
    rw [← Multiset.coe_eq_coe, ← Multiset.coe_add, Multiset.coe_singleton, ← harrays]
    rfl
  nodes := by
    have hcons := h.conserved
    have hspare : spareStock s (l owner) = 0 := by rw [hrest owner]; rfl
    unfold Conserved at hcons
    rw [hspare, hands_eq_zero hrest, hlodged.leaked, Multiset.coe_nil, add_zero, add_zero, add_zero,
      h.current, ← Shared.coe_nodes] at hcons
    rw [← Multiset.coe_eq_coe, ← Multiset.coe_add, hcons]
    exact add_comm _ _

/-- **Every array and every node is deleted once.** In every run no array is deleted twice, the
published one is not deleted, and none is deleted with a node in it. When nobody uses the queue any
more, its destructor deletes the only array and all the nodes that are left. There are fewer than
`2 ^ 32` thieves, and the positions fit. -/
theorem queue_reclaims (hfew : Fintype.card Tid ≤ 2 ^ 32) (r : Ring) (owner : Tid)
    (c : Config Tid (Shared α) (Local α))
    (h : (system owner).ReachWithin (fun c => c.shared.Fits) (fun _ _ => True) (initial Tid r) c) :
    (c.shared.freed ++ [c.shared.array]).Nodup ∧ c.shared.leaked = [] ∧
      (c.Quiescent → Reclaimed c.shared) := by
  obtain ⟨hinv, harrays⟩ := (arrays_inductive owner).reachable
    ⟨inv_init hfew owner r, arrays_init r⟩ h.reach
  obtain ⟨-, hlodged⟩ := (lodged_inductive owner).reachable
    ⟨inv_init hfew owner r, .init owner r⟩ h.reach
  refine ⟨?_, hlodged.leaked, fun hrest => reclaimed hinv harrays hlodged hrest⟩
  have hnodup := Multiset.nodup_range c.shared.allocated
  rw [show Multiset.range c.shared.allocated = _ from harrays] at hnodup
  rw [← Multiset.coe_nodup, ← Multiset.coe_add, Multiset.coe_singleton]
  exact (Multiset.nodup_add.mp hnodup).1

/-- What the destructor finds: the deleted arrays and the published one, and the elements pushed,
deleted and left. -/
def remains (c : Config (Fin 2) (Shared ℕ) (Local ℕ)) :
    (List ℕ × ℕ) × (List ℕ × List ℕ × List ℕ) × Bool :=
  ((c.shared.freed, c.shared.array), (c.shared.pushed.map Node.item,
    c.shared.deleted.map Node.item, (destroyed c.shared).map Node.item),
    (c.locals 0).isNone && (c.locals 1).isNone)

/-- The destructor deletes the second array and the element that is left in it. -/
theorem queue_reclaims_growAndPop : ∃ c : Config (Fin 2) (Shared ℕ) (Local ℕ),
    remains c = (([0], 1), ([7, 8, 9], [7, 9], [8]), true) ∧
      c.shared.leaked = [] ∧ Reclaimed c.shared := by
  have hrun : ((system (0 : Fin 2)).runWhile (fun c _ => c.shared.Fits) (initial (Fin 2) Ring.two)
      growAndPop).map (fun c => decide (c.shared.Fits ∧
        remains c = (([0], 1), ([7, 8, 9], [7, 9], [8]), true))) = some true := by decide +kernel
  obtain ⟨c, hc, hres⟩ := Option.map_eq_some_iff.mp hrun
  obtain ⟨hfits, hres⟩ := of_decide_eq_true hres
  obtain ⟨-, hleaked, hreclaimed⟩ := queue_reclaims (by decide) Ring.two 0 c
    ⟨(System.reach_of_runWhile hc).mono fun _ _ h => ⟨h, trivial⟩, hfits⟩
  have hdone := congrArg (fun q => q.2.2) hres
  dsimp only [remains] at hdone
  rw [Bool.and_eq_true, Option.isNone_iff_eq_none, Option.isNone_iff_eq_none] at hdone
  exact ⟨c, hres, hleaked, hreclaimed (Fin.forall_fin_two.mpr hdone)⟩

end Runs

end LowLatency.WorkStealingQueue
