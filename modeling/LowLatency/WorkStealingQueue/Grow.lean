import LowLatency.WorkStealingQueue.Invariant

/-!
# The owner's steps

The owner's steps keep the invariant, the copying loop of `grow` included, and so does every step
(`inv_inductive`).
-/

namespace LowLatency.WorkStealingQueue

open Concurrency

variable {α Tid : Type*}

/-! ## The copying loop -/

section Copying

variable {s : Shared α} {n t i : ℕ} {item : α}

theorem copyNext_cases (s : Shared α) (item : α) (n t i : ℕ) :
    (i < s.bottom ∧ copyNext s item n t i = .growExchange item n t i) ∨
      (s.bottom ≤ i ∧ copyNext s item n t i = .growPublish item n t) := by
  unfold copyNext
  split
  next h => exact .inl ⟨h, rfl⟩
  next h => exact .inr ⟨by omega, rfl⟩

theorem phase_copyNext (hc : Copied s n t i i) (hr : Rest s i) (hi : i ≤ s.bottom ∨ i = t) :
    Phase s (some (copyNext s item n t i)) := by
  rcases copyNext_cases s item n t i with ⟨hlt, he⟩ | ⟨hle, he⟩
  · rw [he]
    exact ⟨hc, hlt, hr⟩
  · rw [he]
    exact ⟨i, hc, hle, hi⟩

/-- Two positions of the window have different cells in the old array. -/
theorem old_slot_ne (hroom : s.bottom ≤ s.top + (s.cap s.current).size) {j k : ℕ}
    (hj : s.top ≤ j) (hj' : j < s.bottom) (hk : s.top ≤ k) (hk' : k < s.bottom) (hne : j ≠ k) :
    (s.cap s.current).slot j ≠ (s.cap s.current).slot k :=
  fun he => hne ((s.cap s.current).slot_inj he (by omega) (by omega))

theorem Copied.slot_ne (hc : Copied s n t i d) (hroom : s.bottom ≤ s.top + (s.cap s.current).size)
    {j k : ℕ} (hj : s.top ≤ j) (hj' : j < s.bottom) (hk : s.top ≤ k) (hk' : k < s.bottom)
    (hne : j ≠ k) : (s.cap n).slot j ≠ (s.cap n).slot k := by
  rw [hc.cap_eq]
  have hpos := (s.cap s.current).size_pos
  refine fun he => hne (Pow2.slot_inj _ he ?_ ?_) <;> rw [Pow2.size_double] <;> omega

theorem Copied.dataAt_none (hc : Copied s n t i i)
    (hroom : s.bottom ≤ s.top + (s.cap s.current).size) (hlt : i < s.bottom) :
    s.dataAt n i = none := by
  have hti : s.top ≤ i := hc.top_eq ▸ hc.le
  unfold Shared.dataAt
  cases hp : (s.cells n).data ((s.cap n).slot i) with
  | none => rfl
  | some p =>
    obtain ⟨j, hj, hji, he⟩ := hc.only _ p hp
    exact absurd he.symm
      (hc.slot_ne hroom (by rw [hc.top_eq]; exact hj) (by omega) hti hlt (by omega))

theorem Copied.exchange (hc : Copied s n t i i) (hr : Rest s i) (hne : n ≠ s.current)
    (hroom : s.bottom ≤ s.top + (s.cap s.current).size) (hlt : i < s.bottom) :
    Copied (s.setData s.current i none) n t i i ∧ Rest (s.setData s.current i none) (i + 1) ∧
      (s.setData s.current i none).dataAt s.current i = none := by
  have hti : s.top ≤ i := hc.top_eq ▸ hc.le
  have hn : (s.setData s.current i none).dataAt n = s.dataAt n := by
    funext j
    rw [Shared.setData_dataAt, if_neg fun h => hne h.1]
  refine ⟨⟨?_, hc.top_eq, hc.le, ?_, ?_, ?_⟩, ?_, ?_⟩
  · rw [Shared.setData_cap]
    show s.cap n = (Shared.cap (s.setData s.current i none) s.current).double
    rw [Shared.setData_cap]
    exact hc.cap_eq
  · intro j hj hji
    obtain ⟨hmoved, hnone⟩ := hc.moved j hj hji
    refine ⟨?_, ?_⟩
    · show (s.setData s.current i none).dataAt n j = s.window (Pow2.slot (Shared.cap _ s.current) j)
      rw [hn, Shared.setData_cap]
      exact hmoved
    · show (s.setData s.current i none).dataAt s.current j = none
      rw [Shared.setData_dataAt]
      split
      · rfl
      · exact hnone
  · intro j hj hji hsome
    rw [hn] at hsome
    unfold Shared.roundAt
    rw [Shared.setData_round, Shared.setData_cap]
    exact hc.rounds j hj hji hsome
  · intro k p hk
    rw [s.setData_other _ _ _ _ hne] at hk
    rw [Shared.setData_cap]
    exact hc.only k p hk
  · intro j hj hjb
    have hjb : j < s.bottom := hjb
    show (s.setData s.current i none).dataAt s.current j = s.window (Pow2.slot (Shared.cap _ s.current) j)
    rw [Shared.setData_dataAt, Shared.setData_cap, if_neg]
    · exact hr j (by omega) hjb
    · exact fun h => old_slot_ne hroom (by omega) hjb hti hlt (by omega) h.2
  · rw [Shared.setData_dataAt, if_pos ⟨rfl, rfl⟩]

theorem Copied.storeData (hc : Copied s n t i i) (hne : n ≠ s.current)
    (hroom : s.bottom ≤ s.top + (s.cap s.current).size) (hlt : i < s.bottom)
    (hnone : s.dataAt s.current i = none) {p : Node α}
    (hp : s.window ((s.cap s.current).slot i) = some p) :
    Copied (s.setData n i (some p)) n t i (i + 1) := by
  have hti : s.top ≤ i := hc.top_eq ▸ hc.le
  have hold : (s.setData n i (some p)).dataAt s.current = s.dataAt s.current := by
    funext j
    rw [Shared.setData_dataAt, if_neg fun h => hne h.1.symm]
  have hslot : ∀ j, t ≤ j → j < i → (s.cap n).slot j ≠ (s.cap n).slot i := fun j hj hji =>
    hc.slot_ne hroom (by rw [hc.top_eq]; exact hj) (by omega) hti hlt (by omega)
  refine ⟨?_, hc.top_eq, hc.le, ?_, ?_, ?_⟩
  · rw [Shared.setData_cap]
    show s.cap n = (Shared.cap (s.setData n i (some p)) s.current).double
    rw [Shared.setData_cap]
    exact hc.cap_eq
  · intro j hj hji
    show (s.setData n i (some p)).dataAt n j = s.window (Pow2.slot (Shared.cap _ s.current) j) ∧
      (s.setData n i (some p)).dataAt s.current j = none
    rw [hold, Shared.setData_cap, Shared.setData_dataAt]
    by_cases he : j = i
    · subst he
      rw [if_pos ⟨rfl, rfl⟩]
      exact ⟨hp.symm, hnone⟩
    · rw [if_neg fun h => hslot j hj (by omega) h.2]
      exact hc.moved j hj (by omega)
  · intro j hj hji hsome
    rw [Shared.setData_dataAt, if_neg fun h => hslot j hj hji h.2] at hsome
    unfold Shared.roundAt
    rw [Shared.setData_round, Shared.setData_cap]
    exact hc.rounds j hj hji hsome
  · intro k q hk
    rw [Shared.setData_data, if_pos rfl] at hk
    rw [Shared.setData_cap]
    by_cases he : k = (s.cap n).slot i
    · exact ⟨i, hc.le, Nat.lt_succ_self i, he⟩
    · rw [Function.update_of_ne he] at hk
      obtain ⟨j, hj, hji, hkj⟩ := hc.only k q hk
      exact ⟨j, hj, by omega, hkj⟩

theorem Copied.storeRound (hc : Copied s n t i (i + 1)) 
    (hroom : s.bottom ≤ s.top + (s.cap s.current).size) (hlt : i < s.bottom) :
    Copied (s.setRound n i (i + 1)) n t (i + 1) (i + 1) := by
  have hti : s.top ≤ i := hc.top_eq ▸ hc.le
  have hdata : (s.setRound n i (i + 1)).dataAt = s.dataAt := by
    funext a j
    unfold Shared.dataAt
    rw [Shared.setRound_data, Shared.setRound_cap]
  refine ⟨?_, hc.top_eq, Nat.le_succ_of_le hc.le, ?_, ?_, ?_⟩
  · rw [Shared.setRound_cap]
    show s.cap n = (Shared.cap (s.setRound n i (i + 1)) s.current).double
    rw [Shared.setRound_cap]
    exact hc.cap_eq
  · intro j hj hji
    show (s.setRound n i (i + 1)).dataAt n j = s.window (Pow2.slot (Shared.cap _ s.current) j) ∧
      (s.setRound n i (i + 1)).dataAt s.current j = none
    rw [hdata, Shared.setRound_cap]
    exact hc.moved j hj hji
  · intro j hj hji hsome
    rw [hdata] at hsome
    unfold Shared.roundAt
    rw [Shared.setRound_round, if_pos rfl, Shared.setRound_cap]
    by_cases he : j = i
    · rw [he, Function.update_self]
    · rw [Function.update_of_ne (hc.slot_ne hroom (by rw [hc.top_eq]; exact hj) (by omega) hti hlt he)]
      exact hc.rounds j hj (by omega) hsome
  · intro k q hk
    rw [Shared.setRound_data] at hk
    rw [Shared.setRound_cap]
    exact hc.only k q hk

/-- A position of the window that the old array no longer holds needs no copy. -/
theorem Copied.skip (hc : Copied s n t i i) (hr : Rest s i)
    (hroom : s.bottom ≤ s.top + (s.cap s.current).size) (hlt : i < s.bottom)
    (hnone : s.dataAt s.current i = none) : Copied s n t (i + 1) (i + 1) := by
  have hn := hc.dataAt_none hroom hlt
  refine ⟨hc.cap_eq, hc.top_eq, Nat.le_succ_of_le hc.le, ?_, ?_, ?_⟩
  · intro j hj hji
    by_cases he : j = i
    · subst he
      rw [hn, ← hr j le_rfl hlt]
      exact ⟨hnone.symm, hnone⟩
    · exact hc.moved j hj (by omega)
  · intro j hj hji hsome
    by_cases he : j = i
    · subst he
      exact absurd hn hsome
    · exact hc.rounds j hj (by omega) hsome
  · intro k q hk
    obtain ⟨j, hj, hji, hkj⟩ := hc.only k q hk
    exact ⟨j, hj, by omega, hkj⟩

end Copying

/-! ## The owner's steps -/

theorem take_balance {s : Shared α} {pos : ℕ} {p : Node α}
    (hp : s.dataAt s.current pos = some p) :
    (s.pushed : Multiset (Node α)) + (s.stock s.current + 0 + 0 + s.deleted + s.leaked) =
      s.pushed + ((s.setData s.current pos none).stock s.current + 0 + {p} + s.deleted +
        s.leaked) := by
  have hstock := s.stock_setData s.current pos none
  rw [hp, slot_none, add_zero, slot_some] at hstock
  rw [← hstock]
  abel

theorem clear_balance (s : Shared α) (pos : ℕ) (p : Node α) :
    (s.pushed : Multiset (Node α)) + (s.stock s.current + 0 + {p} + s.deleted + s.leaked) =
      s.pushed + ((s.clearRound s.current pos).stock s.current + 0 + {p} + s.deleted + s.leaked) := by
  have hstock : (s.clearRound s.current pos).stock s.current = s.stock s.current := by
    unfold Shared.stock
    rw [Shared.clearRound_data, Shared.clearRound_cap]
  rw [hstock]

variable [Fintype Tid] [DecidableEq Tid] {owner t : Tid} {s s' : Shared α}
  {l : Tid → Option (Local α)} {x y : Local α}

namespace Inv

omit [Fintype Tid] [DecidableEq Tid] in
theorem copyNext_spec (s : Shared α) (item : α) (n t i : ℕ) :
    (copyNext s item n t i).registered = 0 ∧ (copyNext s item n t i).closed = true ∧
      (copyNext s item n t i).quiesced = true ∧ (copyNext s item n t i).spare = some n ∧
      (copyNext s item n t i).held = 0 := by
  rcases copyNext_cases s item n t i with ⟨_, he⟩ | ⟨_, he⟩ <;> rw [he] <;>
    exact ⟨rfl, rfl, rfl, rfl, rfl⟩

/-- A step of the owner back to the head of the copying loop. -/
theorem own_copy (h : Inv owner s l) {item : α} {n t' i : ℕ} (hx : l owner = some x)
    (hxo : x.ofOwner = true) (hxc : x.closed = true) (hxq : x.quiesced = true)
    (hxs : x.spare = some n) (hactive : s'.active = s.active) (hgate : s'.gate = s.gate)
    (harray : s'.array = s.array) (hcurrent : s'.current = s.current)
    (halloc : s'.allocated = s.allocated) (hfreed : s'.freed = s.freed)
    (hroom : s'.bottom ≤ s'.top + (s'.cap s'.current).size)
    (hphase : Phase s' (some (copyNext s' item n t' i))) (hbottom : s'.bottom = s.bottom)
    (hpushed : s'.pushed = s.pushed) (hdeleted : s'.deleted = s.deleted)
    (hleaked : s'.leaked = s.leaked)
    (hbal : s'.stock s.current + s'.stock n = s.stock s.current + s.stock n + x.held) :
    Inv owner s' (Function.update l owner (some (copyNext s item n t' i))) := by
  have hnext : copyNext s' item n t' i = copyNext s item n t' i := by
    unfold copyNext
    rw [hbottom]
  obtain ⟨hr, hc, hq, hs, hh⟩ := copyNext_spec s item n t' i
  refine h.own_plain hx hxo hr hactive hgate (hc.trans hxc.symm) (fun _ => .inl hxq) harray
    hcurrent halloc hfreed (hs.trans hxs.symm) hroom (hnext ▸ hphase) (by rw [hpushed]; exact h.numbered)
    ?_
  have hx' : spareStock s (some x) = s.stock n := by
    unfold spareStock
    rw [Option.bind_some, hxs]
  have hy' : spareStock s' (some (copyNext s item n t' i)) = s'.stock n := by
    unfold spareStock
    rw [Option.bind_some, hs]
  rw [hpushed, hdeleted, hleaked, hcurrent, hx', hy', hh, hbal, add_zero]

/-- The owner allocates a node and stores it in the empty cell of the bottom position. -/
theorem step_pushStoreData (h : Inv owner s l) {item : α}
    (hx : l owner = some (.pushStoreData item)) (b : Bool) :
    Inv owner (step b s (.pushStoreData item)).1
      (Function.update l owner (some (step b s (.pushStoreData item)).2)) := by
  have hph := h.phase_at hx
  have hroom := h.room
  have hstock := s.stock_setData s.current s.bottom
    (some (⟨s.pushed.length, s.bottom, item⟩ : Node α))
  rw [hph.2, slot_none, add_zero, slot_some] at hstock
  refine h.own_plain hx rfl rfl rfl rfl rfl nofun rfl rfl rfl rfl rfl ?_ ?_
    (h.numbered.concat s.bottom item) ?_
  · show s.bottom ≤ s.top + (Shared.cap (s.setData ..) s.current).size
    rw [Shared.setData_cap]
    exact hroom
  · show s.bottom < s.top + (Shared.cap (s.setData ..) s.current).size
    rw [Shared.setData_cap]
    exact hph.1
  · show ((s.pushed ++ [_] : List (Node α)) : Multiset (Node α)) +
        (s.stock s.current + 0 + 0 + s.deleted + s.leaked) =
      s.pushed + ((s.setData _ _ _).stock s.current + 0 + 0 + s.deleted + s.leaked)
    rw [hstock, ← Multiset.coe_add, Multiset.coe_singleton]
    abel

theorem step_pushStoreRound (h : Inv owner s l)
    (hx : l owner = some .pushStoreRound) (b : Bool) :
    Inv owner (step b s .pushStoreRound).1
      (Function.update l owner (some (step b s .pushStoreRound).2)) := by
  have hph := h.phase_at hx
  have hstock : (s.setRound s.current s.bottom (s.bottom + 1)).stock s.current =
      s.stock s.current := by
    unfold Shared.stock
    rw [Shared.setRound_data, Shared.setRound_cap]
  refine h.own_plain hx rfl rfl rfl rfl rfl nofun rfl rfl rfl rfl rfl ?_ trivial h.numbered ?_
  · show s.bottom + 1 ≤ s.top + (Shared.cap (s.setRound ..) s.current).size
    rw [Shared.setRound_cap]
    exact hph
  · show s.pushed + (s.stock s.current + 0 + 0 + s.deleted + s.leaked) =
      s.pushed + ((s.setRound _ _ _).stock s.current + 0 + 0 + s.deleted + s.leaked)
    rw [hstock]

theorem step_growAlloc (h : Inv owner s l) {item : α}
    (hx : l owner = some (.growAlloc item)) (b : Bool) :
    Inv owner (step b s (.growAlloc item)).1
      (Function.update l owner (some (step b s (.growAlloc item)).2)) := by
  have hroom := h.room
  have hne : s.current ≠ s.allocated := by
    have := h.allocated
    rw [h.current]
    omega
  have hold : Function.update s.heap s.allocated ⟨(s.cap s.current).double, .init⟩ s.current =
      s.heap s.current := Function.update_of_ne hne _ _
  have hnew : Function.update s.heap s.allocated ⟨(s.cap s.current).double, .init⟩ s.allocated =
      ⟨(s.cap s.current).double, .init⟩ := Function.update_self _ _ _
  refine h.own hx rfl rfl rfl (show s.gate = false from h.gate_at hx) nofun (.inl rfl) h.current
    (Nat.lt_succ_of_lt h.allocated) (fun a ha => ?_) ?_ ?_ ?_ h.numbered (h.conserved_own hx ?_)
  · exact ⟨Nat.lt_succ_of_lt (h.freed a ha).1, (h.freed a ha).2⟩
  · rintro n ⟨⟩
    exact ⟨Nat.lt_succ_self _, by rw [h.current] at hne; exact Ne.symm hne,
      fun hf => Nat.lt_irrefl _ (h.freed _ hf).1⟩
  · show s.bottom ≤ s.top + (Function.update s.heap _ _ s.current).cap.size
    rw [hold]
    exact hroom
  · refine ⟨?_, fun k => ?_⟩
    · show (Function.update s.heap _ _ s.allocated).cap =
        (Function.update s.heap _ _ s.current).cap.double
      rw [hold, hnew]
      rfl
    · show (Function.update s.heap _ _ s.allocated).cells.data k = none
      rw [hnew]
      rfl
  · show s.pushed + (s.stock s.current + 0 + 0 + s.deleted + s.leaked) =
      s.pushed + (bag (Function.update s.heap _ _ s.current).cap.size
          (Function.update s.heap _ _ s.current).cells.data +
        bag (Function.update s.heap _ _ s.allocated).cap.size
          (Function.update s.heap _ _ s.allocated).cells.data + 0 + s.deleted + s.leaked)
    have hbag : bag (s.cap s.current).double.size (Cells.init : Cells α).data = 0 :=
      bag_eq_zero.mpr fun _ _ => rfl
    rw [hold, hnew]
    show _ = _ + (_ + bag (s.cap s.current).double.size Cells.init.data + 0 + _ + _)
    rw [hbag]
    rfl

theorem step_growLoadTop (h : Inv owner s l) {item : α} {n : ℕ}
    (hx : l owner = some (.growLoadTop item n)) (b : Bool) :
    Inv owner (step b s (.growLoadTop item n)).1
      (Function.update l owner (some (step b s (.growLoadTop item n)).2)) := by
  have hph := h.phase_at hx
  have hroom := h.room
  have hc : Copied { s with window := (s.cells s.current).data } n s.top s.top s.top :=
    ⟨hph.1, rfl, le_rfl, fun j hj hlt => by omega, fun j hj hlt => by omega,
      fun k p hk => by cases (hph.2 k).symm.trans hk⟩
  exact h.own_copy hx rfl rfl rfl rfl rfl rfl rfl rfl rfl rfl hroom
    (phase_copyNext hc (fun j _ _ => rfl) (.inr rfl)) rfl rfl rfl rfl (add_zero _).symm

/-- `grow` takes the node of position `i` out of the old array. -/
theorem step_growExchange (h : Inv owner s l) {item : α} {n : ℕ} {t : ℕ} {i : ℕ}
    (hx : l owner = some (.growExchange item n t i)) (b : Bool) :
    Inv owner (step b s (.growExchange item n t i)).1
      (Function.update l owner (some (step b s (.growExchange item n t i)).2)) := by
  have hph := h.phase_at hx
  have hroom := h.room
  obtain ⟨hc, hlt, hrest⟩ := hph
  have hne : n ≠ s.current := by
    rw [h.current]
    exact (h.spare _ n hx rfl).2.1
  obtain ⟨hc', hrest', hnone'⟩ := hc.exchange hrest hne hroom hlt
  have hroom' : s.bottom ≤ s.top + (Shared.cap (s.setData s.current i none) s.current).size := by
    rw [Shared.setData_cap]
    exact hroom
  have hstock := s.stock_setData s.current i none
  have hother := s.stock_setData_other s.current n i none hne
  rw [slot_none, add_zero] at hstock
  cases hp : s.dataAt s.current i with
  | none =>
    simp only [step, hp]
    refine h.own_copy hx rfl rfl rfl rfl rfl rfl rfl rfl rfl rfl hroom'
      (phase_copyNext (hc'.skip ?_ hroom' hlt hnone') hrest' (.inl hlt)) rfl rfl rfl rfl ?_
    · intro j hj hjb
      by_cases he : j = i
      · subst he
        rw [show (s.setData s.current j none).current = s.current from rfl, hnone']
        show none = s.window (Pow2.slot (Shared.cap (s.setData s.current j none) s.current) j)
        rw [Shared.setData_cap, ← hrest j le_rfl hlt, hp]
      · exact hrest' j (by omega) hjb
    · rw [hp, slot_none, add_zero] at hstock
      rw [hstock, hother]
      exact (add_zero _).symm
  | some p =>
    simp only [step, hp]
    refine h.own_plain hx rfl rfl rfl rfl rfl (fun _ => .inl rfl) rfl rfl rfl rfl rfl hroom'
      ⟨hc', hlt, hrest', hnone', ?_⟩ h.numbered ?_
    · show s.window (Pow2.slot (Shared.cap (s.setData s.current i none) s.current) i) = some p
      rw [Shared.setData_cap, ← hrest i le_rfl hlt, hp]
    · rw [hp, slot_some] at hstock
      show s.pushed + (s.stock s.current + s.stock n + 0 + s.deleted + s.leaked) =
        s.pushed + ((s.setData s.current i none).stock s.current +
          (s.setData s.current i none).stock n + {p} + s.deleted + s.leaked)
      rw [hother, ← hstock]
      abel

theorem step_growStoreData (h : Inv owner s l) {item : α} {n : ℕ} {t : ℕ} {i : ℕ} {p : Node α}
    (hx : l owner = some (.growStoreData item n t i p)) (b : Bool) :
    Inv owner (step b s (.growStoreData item n t i p)).1
      (Function.update l owner (some (step b s (.growStoreData item n t i p)).2)) := by
  have hph := h.phase_at hx
  have hroom := h.room
  obtain ⟨hc, hlt, hrest, hnone, hp⟩ := hph
  have hne : n ≠ s.current := by
    rw [h.current]
    exact (h.spare _ n hx rfl).2.1
  have hnone' : s.dataAt n i = none := hc.dataAt_none hroom hlt
  have hstock := s.stock_setData n i (some p)
  have hother := s.stock_setData_other n s.current i (some p) hne.symm
  rw [hnone', slot_none, add_zero, slot_some] at hstock
  refine h.own_plain hx rfl rfl rfl rfl rfl (fun _ => .inl rfl) rfl rfl rfl rfl rfl ?_
    ⟨hc.storeData hne hroom hlt hnone hp, hlt, ?_⟩ h.numbered ?_
  · show s.bottom ≤ s.top + (Shared.cap (s.setData n i (some p)) s.current).size
    rw [Shared.setData_cap]
    exact hroom
  · intro j hj hjb
    show (s.setData n i (some p)).dataAt s.current j =
      s.window (Pow2.slot (Shared.cap (s.setData n i (some p)) s.current) j)
    rw [Shared.setData_dataAt, if_neg fun h' => hne h'.1.symm, Shared.setData_cap]
    exact hrest j hj hjb
  · show s.pushed + (s.stock s.current + s.stock n + {p} + s.deleted + s.leaked) =
      s.pushed + ((s.setData n i (some p)).stock s.current +
        (s.setData n i (some p)).stock n + 0 + s.deleted + s.leaked)
    rw [hother, hstock]
    abel

theorem step_growStoreRound (h : Inv owner s l) {item : α} {n : ℕ} {t : ℕ} {i : ℕ}
    (hx : l owner = some (.growStoreRound item n t i)) (b : Bool) :
    Inv owner (step b s (.growStoreRound item n t i)).1
      (Function.update l owner (some (step b s (.growStoreRound item n t i)).2)) := by
  have hph := h.phase_at hx
  have hroom := h.room
  obtain ⟨hc, hlt, hrest⟩ := hph
  have hdata : (s.setRound n i (i + 1)).dataAt = s.dataAt := by
    funext a j
    unfold Shared.dataAt
    rw [Shared.setRound_data, Shared.setRound_cap]
  have hstock : ∀ a, (s.setRound n i (i + 1)).stock a = s.stock a := fun a => by
    unfold Shared.stock
    rw [Shared.setRound_data, Shared.setRound_cap]
  refine h.own_copy hx rfl rfl rfl rfl rfl rfl rfl rfl rfl rfl ?_
    (phase_copyNext (hc.storeRound hroom hlt) ?_ (.inl hlt)) rfl rfl rfl rfl ?_
  · show s.bottom ≤ s.top + (Shared.cap (s.setRound n i (i + 1)) s.current).size
    rw [Shared.setRound_cap]
    exact hroom
  · intro j hj hjb
    show (s.setRound n i (i + 1)).dataAt s.current j =
      s.window (Pow2.slot (Shared.cap (s.setRound n i (i + 1)) s.current) j)
    rw [hdata, Shared.setRound_cap]
    exact hrest j hj hjb
  · rw [show (step b s (.growStoreRound item n t i)).1 = s.setRound n i (i + 1) from rfl, hstock,
      hstock]
    exact (add_zero _).symm

theorem step_growPublish (h : Inv owner s l) {item : α} {n : ℕ} {t : ℕ}
    (hx : l owner = some (.growPublish item n t)) (b : Bool) :
    Inv owner (step b s (.growPublish item n t)).1
      (Function.update l owner (some (step b s (.growPublish item n t)).2)) := by
  have hph := h.phase_at hx
  have hroom := h.room
  obtain ⟨i, hc, hle, _⟩ := hph
  obtain ⟨hlt, hne, hnf⟩ := h.spare _ n hx rfl
  have hne' : s.current ≠ n := by rw [h.current]; exact hne.symm
  refine h.own hx rfl rfl rfl (show s.gate = true from h.gate_at hx) (fun _ => .inl rfl) (.inr rfl)
    rfl hlt (fun a ha => ⟨(h.freed a ha).1, fun he => hnf (by obtain rfl : a = n := he; exact ha)⟩) ?_ ?_
    trivial h.numbered
    (h.conserved_own hx ?_)
  · rintro m ⟨⟩
    exact ⟨by rw [h.current]; exact h.allocated, hne',
      fun hf => (h.freed _ hf).2 h.current⟩
  · show s.bottom ≤ s.top + (s.cap n).size
    rw [hc.cap_eq, Pow2.size_double]
    omega
  · show s.pushed + (s.stock s.current + s.stock n + 0 + s.deleted + s.leaked) =
      s.pushed + (s.stock n + s.stock s.current + 0 + s.deleted + s.leaked)
    abel

/-- The old array is deleted, and whatever its cells still point to leaks. -/
theorem step_growDelete (h : Inv owner s l) {item : α} {old : ℕ}
    (hx : l owner = some (.growDelete item old)) (b : Bool) :
    Inv owner (step b s (.growDelete item old)).1
      (Function.update l owner (some (step b s (.growDelete item old)).2)) := by
  have hroom := h.room
  obtain ⟨hlt, hne, hnf⟩ := h.spare _ old hx rfl
  refine h.own hx rfl rfl rfl (show s.gate = true from h.gate_at hx) (fun _ => .inl rfl) (.inl rfl)
    h.current h.allocated (fun a ha => ?_) nofun hroom trivial h.numbered (h.conserved_own hx ?_)
  · rcases List.mem_append.mp ha with ha | ha
    · exact h.freed a ha
    · obtain rfl := List.mem_singleton.mp ha
      exact ⟨hlt, hne⟩
  · show s.pushed + (s.stock s.current + s.stock old + 0 + s.deleted + s.leaked) =
      s.pushed + (s.stock s.current + 0 + 0 + s.deleted +
        ((s.leaked ++ s.nodes old : List (Node α)) : Multiset (Node α)))
    rw [← Multiset.coe_add, Shared.coe_nodes]
    abel

theorem step_popTail (h : Inv owner s l) {pos : ℕ}
    (hx : l owner = some (.popTail pos)) (b : Bool) :
    Inv owner (step b s (.popTail pos)).1
      (Function.update l owner (some (step b s (.popTail pos)).2)) := by
  have hph := h.phase_at hx
  have hroom := h.room
  cases hp : s.dataAt s.current pos with
  | none =>
    simp only [step, hp]
    exact h.own_load hx rfl rfl rfl (by rintro ⟨⟩) rfl rfl trivial
  | some p =>
    simp only [step, hp]
    refine h.own_plain hx rfl rfl rfl rfl rfl (by rintro ⟨⟩) rfl rfl rfl rfl rfl ?_ hph h.numbered
      (take_balance hp)
    show s.bottom ≤ s.top + (Shared.cap (s.setData s.current pos none) s.current).size
    rw [Shared.setData_cap]
    exact hroom

theorem step_popTailClear (h : Inv owner s l) {pos : ℕ} {p : Node α}
    (hx : l owner = some (.popTailClear pos p)) (b : Bool) :
    Inv owner (step b s (.popTailClear pos p)).1
      (Function.update l owner (some (step b s (.popTailClear pos p)).2)) := by
  have hpos : s.bottom = pos + 1 := h.phase_at hx
  have hroom := h.room
  refine h.own_plain hx rfl rfl rfl rfl rfl nofun rfl rfl rfl rfl rfl ?_ trivial h.numbered ?_
  · show pos ≤ s.top + (Shared.cap (s.clearRound s.current pos) s.current).size
    rw [Shared.clearRound_cap]
    omega
  · exact clear_balance s pos p

theorem step_popExchange (h : Inv owner s l) {t : ℕ}
    (hx : l owner = some (.popExchange t)) (b : Bool) :
    Inv owner (step b s (.popExchange t)).1
      (Function.update l owner (some (step b s (.popExchange t)).2)) := by
  have hph := h.phase_at hx
  have hroom := h.room
  have hb : s.bottom = t + 1 := hph
  cases hp : s.dataAt s.current t with
  | none =>
    simp only [step, hp]
    exact h.own_plain hx rfl rfl rfl rfl rfl (by rintro ⟨⟩) rfl rfl rfl rfl rfl (hb ▸ hroom) trivial
      h.numbered rfl
  | some p =>
    simp only [step, hp]
    refine h.own_plain hx rfl rfl rfl rfl rfl (by rintro ⟨⟩) rfl rfl rfl rfl rfl ?_ trivial h.numbered
      (take_balance hp)
    show t + 1 ≤ s.top + (Shared.cap (s.setData s.current t none) s.current).size
    rw [Shared.setData_cap, ← hb]
    exact hroom

theorem step_popClear (h : Inv owner s l) {t : ℕ} {p : Node α}
    (hx : l owner = some (.popClear t p)) (b : Bool) :
    Inv owner (step b s (.popClear t p)).1
      (Function.update l owner (some (step b s (.popClear t p)).2)) := by
  have hroom := h.room
  refine h.own_plain hx rfl rfl rfl rfl rfl nofun rfl rfl rfl rfl rfl ?_ trivial h.numbered ?_
  · show s.bottom ≤ s.top + (Shared.cap (s.clearRound s.current t) s.current).size
    rw [Shared.clearRound_cap]
    exact hroom
  · exact clear_balance s t p

theorem step_popFinish (h : Inv owner s l) {p : Node α}
    (hx : l owner = some (.popFinish p)) (b : Bool) :
    Inv owner (step b s (.popFinish p)).1
      (Function.update l owner (some (step b s (.popFinish p)).2)) := by
  have hroom := h.room
  refine h.own_plain hx rfl rfl rfl rfl rfl nofun rfl rfl rfl rfl rfl hroom trivial h.numbered ?_
  show s.pushed + (s.stock s.current + 0 + {p} + s.deleted + s.leaked) =
    s.pushed + (s.stock s.current + 0 + 0 +
      ((s.deleted ++ [p] : List (Node α)) : Multiset (Node α)) + s.leaked)
  rw [← Multiset.coe_add, Multiset.coe_singleton]
  abel

theorem step_owner (h : Inv owner s l) (hx : l owner = some x) (hown : x.ofOwner = true)
    (b : Bool) : Inv owner (step b s x).1 (Function.update l owner (some (step b s x).2)) := by
  have hph := h.phase_at hx
  have hroom := h.room
  cases x with
  | pushLoadTop item =>
    simp only [step]
    split
    · exact h.own_load hx rfl rfl rfl (by rintro ⟨⟩) rfl rfl trivial
    · exact h.own_load hx rfl rfl rfl (by rintro ⟨⟩) rfl rfl (by simp only [Phase]; omega)
  | pushWait item =>
    simp only [step]
    split
    next => exact h.own_load hx rfl rfl rfl (by rintro ⟨⟩) rfl rfl hph
    next hnone =>
      exact h.own_load hx rfl rfl rfl (by rintro ⟨⟩) rfl rfl ⟨hph, by simpa using hnone⟩
  | pushStoreData => exact h.step_pushStoreData hx b
  | pushStoreRound => exact h.step_pushStoreRound hx b
  | growAlloc => exact h.step_growAlloc hx b
  | growClose item n =>
    exact h.own hx rfl rfl rfl rfl (by rintro ⟨⟩) (.inl rfl) h.current h.allocated h.freed
      (fun m hm => h.spare _ m hx hm) hroom hph h.numbered (h.conserved_own hx rfl)
  | growAwait item n =>
    simp only [step]
    split
    next hzero => exact h.own_load hx rfl rfl rfl (fun _ => .inr hzero) rfl rfl hph
    next => exact h.own_load hx rfl rfl rfl (by rintro ⟨⟩) rfl rfl hph
  | growLoadTop => exact h.step_growLoadTop hx b
  | growExchange => exact h.step_growExchange hx b
  | growStoreData => exact h.step_growStoreData hx b
  | growStoreRound => exact h.step_growStoreRound hx b
  | growPublish => exact h.step_growPublish hx b
  | growDelete => exact h.step_growDelete hx b
  | growOpen item =>
    exact h.own hx rfl rfl rfl rfl (by rintro ⟨⟩) (.inl rfl) h.current h.allocated h.freed
      (by rintro _ ⟨⟩) hroom
      trivial h.numbered (h.conserved_own hx rfl)
  | popLoadTop =>
    simp only [step]
    split
    next => exact h.own_load hx rfl rfl rfl (by rintro ⟨⟩) rfl rfl trivial
    next hne =>
      split
      next => exact h.own_load hx rfl rfl rfl (by rintro ⟨⟩) rfl rfl (by simp only [Phase]; omega)
      next hgt =>
        split
        next => exact h.own_load hx rfl rfl rfl (by rintro ⟨⟩) rfl rfl trivial
        next => exact h.own_load hx rfl rfl rfl (by rintro ⟨⟩) rfl rfl (by simp only [Phase]; omega)
  | popTail => exact h.step_popTail hx b
  | popTailClear => exact h.step_popTailClear hx b
  | popClaim t =>
    simp only [step]
    split
    next htop =>
      refine h.own_plain hx rfl rfl rfl rfl rfl (by rintro ⟨⟩) rfl rfl rfl rfl rfl ?_ hph h.numbered rfl
      show s.bottom ≤ t + 1 + (s.cap s.current).size
      omega
    next => exact h.own_load hx rfl rfl rfl (by rintro ⟨⟩) rfl rfl trivial
  | popExchange => exact h.step_popExchange hx b
  | popClear => exact h.step_popClear hx b
  | popFinish => exact h.step_popFinish hx b
  | _ => cases hown

theorem call (h : Inv owner s l) (hl : l t = none) (op : Op α) (hmay : may owner t op = true) :
    Inv owner s (Function.update l t (some (start op))) := by
  have hstart : (start op).held = 0 ∧ (start op).registered = 0 ∧ (start op).inside = false ∧
      (start op).arrayOf = none := by
    cases op with
    | stealBatch max =>
      by_cases hm : max = 0 <;> simp only [start, hm, if_true, if_false] <;>
        exact ⟨rfl, rfl, rfl, rfl⟩
    | _ => exact ⟨rfl, rfl, rfl, rfl⟩
  obtain ⟨hheld, hreg, hin, harr⟩ := hstart
  refine h.thief_quiet (.refl s) rfl rfl rfl ?_ ?_ ?_ ?_ ?_ ?_ ?_
  · intro x hx
    rw [hl] at hx
    cases hx
  · rintro _ ⟨⟩
    exact plain_start op
  · rintro _ ⟨⟩ hown
    cases op with
    | push | pop => exact of_decide_eq_true hmay
    | stealBatch max =>
      simp only [start] at hown
      split at hown <;> cases hown
    | _ => cases hown
  · rw [hl]
    exact hheld
  · rw [hl]
    show s.active + BitVec.ofNat 32 0 = s.active + BitVec.ofNat 32 (start op).registered
    rw [hreg]
  · rintro _ ⟨⟩ hy
    rw [hin] at hy
    cases hy
  · rintro _ a ⟨⟩ hy
    rw [harr] at hy
    cases hy

theorem ret (h : Inv owner s l) {r : Result α} (hx : l t = some (.done r)) :
    Inv owner s (Function.update l t none) := by
  refine h.thief_quiet (.refl s) rfl rfl rfl ?_ nofun nofun (by rw [hx]; rfl) (by rw [hx]; rfl)
    nofun nofun
  intro z hz
  rw [hx, Option.some.injEq] at hz
  exact plain_of_not_ofOwner (by rw [← hz]; rfl)

end Inv

/-- Every step keeps the invariant. -/
theorem inv_inductive (owner : Tid) :
    object.Inductive (may owner) (fun _ _ => True) (Inv (α := α) owner) where
  call h hl hmay := h.call hl _ hmay
  step {s l t x} b h hx hr _ := by
    cases hown : x.ofOwner with
    | true =>
      obtain rfl := h.only t x hx hown
      exact h.step_owner hx hown b
    | false => exact h.step_thief hx hown hr b
  ret {s l t x o} h hx hr := by
    cases x with
    | done o' => exact h.ret hx
    | _ => cases hr

end LowLatency.WorkStealingQueue
