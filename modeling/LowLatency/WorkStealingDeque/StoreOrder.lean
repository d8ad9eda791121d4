import LowLatency.WorkStealingDeque.StoreBuffer

/-!
# Runs in which the owner's stores are in order

The invariant of the runs whose steps are `Ordered`. What the owner sees, memory with its pending
stores applied, satisfies the invariant `Exact` of the deque with stores that take effect at once.
`Pending` says how far memory lags behind: every `bottom_` that a thief may still see is within the
positions in use, and the cells with pending stores are beyond it. So the only values that thieves
read late are smaller bottoms and older rounds.
-/

namespace LowLatency.WorkStealingDeque

open Concurrency

variable {α Tid : Type*}

/-! ## Memory and view -/

section View

variable {r : Ring} {s : Shared α} {buf : List (Store α)}

@[simp] theorem view_top (s : Shared α) (buf : List (Store α)) :
    ((program r).view s buf).top = s.top := by
  induction buf generalizing s with
  | nil => rfl
  | cons st buf ih =>
    rw [Program.view_cons, ih]
    cases st <;> rfl

@[simp] theorem view_deleted (s : Shared α) (buf : List (Store α)) :
    ((program r).view s buf).deleted = s.deleted := by
  induction buf generalizing s with
  | nil => rfl
  | cons st buf ih =>
    rw [Program.view_cons, ih]
    cases st <;> rfl

/-- What is seen of `bottom_` depends on `bottom_` in memory only. -/
theorem view_bottom {s' : Shared α} (h : s'.bottom = s.bottom) (buf : List (Store α)) :
    ((program r).view s' buf).bottom = ((program r).view s buf).bottom := by
  induction buf generalizing s s' with
  | nil => exact h
  | cons st buf ih =>
    refine ih ?_
    cases st with
    | bottom b => rfl
    | data | round => exact h

theorem view_pushed {s' : Shared α} (h : s'.pushed = s.pushed) (buf : List (Store α)) :
    ((program r).view s' buf).pushed = ((program r).view s buf).pushed := by
  induction buf generalizing s s' with
  | nil => exact h
  | cons st buf ih =>
    refine ih ?_
    cases st with
    | data b id item => exact congrArg (· ++ [_]) h
    | round | bottom => exact h

/-- A change of memory that commutes with every pending store. -/
theorem view_comm {f : Shared α → Shared α}
    (h : ∀ s st, st ∈ buf → Store.apply r (f s) st = f (Store.apply r s st)) :
    (program r).view (f s) buf = f ((program r).view s buf) := by
  induction buf generalizing s with
  | nil => rfl
  | cons st buf ih =>
    rw [Program.view_cons, Program.view_cons]
    show (program r).view (Store.apply r (f s) st) buf = _
    rw [h s st List.mem_cons_self]
    exact ih fun s' st' hmem => h s' st' (List.mem_cons_of_mem _ hmem)

theorem view_setTop (s : Shared α) (buf : List (Store α)) (n : ℕ) :
    (program r).view { s with top := n } buf = { (program r).view s buf with top := n } :=
  view_comm (f := fun s => { s with top := n }) fun s st _ => by cases st <;> rfl

theorem view_setDeleted (s : Shared α) (buf : List (Store α)) (p : Node α) :
    (program r).view { s with deleted := s.deleted ++ [p] } buf =
      { (program r).view s buf with deleted := ((program r).view s buf).deleted ++ [p] } :=
  view_comm (f := fun s => { s with deleted := s.deleted ++ [p] }) fun s st _ => by cases st <;> rfl

/-- The cell of a position that no pending store writes to is seen as it is in memory. -/
theorem view_cell {j : ℕ} (h : ∀ st b, st ∈ buf → st.cell = some b → r.slot b ≠ j) :
    ((program r).view s buf).cells j = s.cells j := by
  induction buf generalizing s with
  | nil => rfl
  | cons st buf ih =>
    rw [Program.view_cons, ih fun st' b hmem => h st' b (List.mem_cons_of_mem _ hmem)]
    cases st with
    | data b id item =>
      exact Function.update_of_ne (Ne.symm (h _ b List.mem_cons_self rfl)) ..
    | round b =>
      exact Function.update_of_ne (Ne.symm (h _ b List.mem_cons_self rfl)) ..
    | bottom b => rfl

theorem view_empty {j : ℕ} (h : ∀ st b, st ∈ buf → st.cell = some b → r.slot b ≠ j) :
    (program r).view { s with cells := s.cells.setData j none } buf =
      { (program r).view s buf with cells := ((program r).view s buf).cells.setData j none } := by
  refine view_comm (f := fun s => { s with cells := s.cells.setData j none }) fun s st hmem => ?_
  cases st with
  | data b id item =>
    have hne := h _ b hmem rfl
    simp only [Store.apply, Cells.setData, Function.update_of_ne hne, Function.update_of_ne hne.symm]
    rw [Function.update_comm hne]
  | round b =>
    have hne := h _ b hmem rfl
    simp only [Store.apply, Cells.setData, Cells.setRound, Function.update_of_ne hne,
      Function.update_of_ne hne.symm]
    rw [Function.update_comm hne]
  | bottom b => rfl

/-- Clearing the round of a position that no pending store is about. -/
theorem view_clearRound {j pos : ℕ} (h : ∀ st, st ∈ buf → st.cell ≠ some pos) :
    (program r).view { s with cells := s.cells.clearRound j pos } buf =
      { (program r).view s buf with cells := ((program r).view s buf).cells.clearRound j pos } := by
  refine view_comm (f := fun s => { s with cells := s.cells.clearRound j pos }) fun s st hmem => ?_
  cases st with
  | data b id item =>
    simp only [Store.apply, Cells.setData_clearRound]
  | round b =>
    have hne : b ≠ pos := fun he => h _ hmem (by rw [he]; rfl)
    simp only [Store.apply, Cells.setRound_clearRound _ _ _ _ (show b + 1 ≠ pos + 1 by omega)]
  | bottom b => rfl

end View

/-! ## The pending stores -/

/-- What is pending, given `top_`, the end `lim` of the positions in use and `bottom_` in memory: the
bottoms that thieves may still see are in use, and the cells that wait to be written are not below
any bottom that they see before. -/
structure Pending (top lim bottom : ℕ) (buf : List (Store α)) : Prop where
  bottom_le : bottom ≤ lim
  stores_le : ∀ v, .bottom v ∈ buf → v ≤ lim
  fresh : ∀ st b, st ∈ buf → st.cell = some b → top ≤ b ∧ bottom ≤ b
  order : buf.Pairwise fun st st' => ∀ v b, st = .bottom v → st'.cell = some b → v ≤ b

namespace Pending

variable {top top' lim lim' bottom : ℕ} {buf : List (Store α)} {st : Store α}

theorem nil (h : bottom ≤ lim) : Pending top lim bottom ([] : List (Store α)) where
  bottom_le := h
  stores_le v hv := by cases hv
  fresh st b hst := by cases hst
  order := .nil

theorem mono (h : Pending top lim bottom buf) (hlim : lim ≤ lim') :
    Pending top lim' bottom buf where
  bottom_le := h.bottom_le.trans hlim
  stores_le v hv := (h.stores_le v hv).trans hlim
  fresh := h.fresh
  order := h.order

theorem concat (h : Pending top lim bottom buf) (hlim : lim ≤ lim')
    (hbottom : ∀ v, st = .bottom v → v ≤ lim') (hcell : ∀ b, st.cell = some b → top ≤ b ∧ lim ≤ b) :
    Pending top lim' bottom (buf ++ [st]) where
  bottom_le := h.bottom_le.trans hlim
  stores_le v hv := by
    rcases List.mem_append.mp hv with hv | hv
    · exact (h.stores_le v hv).trans hlim
    · exact hbottom v (List.mem_singleton.mp hv).symm
  fresh st' b hst hb := by
    rcases List.mem_append.mp hst with hst | hst
    · exact h.fresh st' b hst hb
    · obtain rfl := List.mem_singleton.mp hst
      exact ⟨(hcell b hb).1, h.bottom_le.trans (hcell b hb).2⟩
  order := by
    refine List.pairwise_append.mpr ⟨h.order, List.pairwise_singleton _ _, ?_⟩
    rintro _ hmem st' hst v b rfl hb
    obtain rfl := List.mem_singleton.mp hst
    exact (h.stores_le v hmem).trans (hcell b hb).2

theorem raiseTop (h : Pending top lim bottom buf)
    (hcell : ∀ st b, st ∈ buf → st.cell = some b → top' ≤ b) : Pending top' lim bottom buf where
  bottom_le := h.bottom_le
  stores_le := h.stores_le
  fresh st b hst hb := ⟨hcell st b hst hb, (h.fresh st b hst hb).2⟩
  order := h.order

theorem flush {r : Ring} {m : Shared α} (h : Pending top lim m.bottom (st :: buf)) :
    Pending top lim (Store.apply r m st).bottom buf := by
  obtain ⟨hfirst, hrest⟩ := List.pairwise_cons.mp h.order
  have hstores : ∀ v, .bottom v ∈ buf → v ≤ lim :=
    fun v hv => h.stores_le v (List.mem_cons_of_mem _ hv)
  cases st with
  | bottom v =>
    refine ⟨h.stores_le v List.mem_cons_self, hstores, fun st' b hst hb => ⟨?_, ?_⟩, hrest⟩
    · exact (h.fresh st' b (List.mem_cons_of_mem _ hst) hb).1
    · exact hfirst st' hst v b rfl hb
  | data b id item =>
    exact ⟨h.bottom_le, hstores, fun st' c hst hc => h.fresh st' c (List.mem_cons_of_mem _ hst) hc,
      hrest⟩
  | round b =>
    exact ⟨h.bottom_le, hstores, fun st' c hst hc => h.fresh st' c (List.mem_cons_of_mem _ hst) hc,
      hrest⟩

end Pending

/-! ## The invariant -/

/-- The position a steal is after, once it has seen a bottom above it. -/
def Local.after : Local α → Option ℕ
  | .stealLoadRound t | .stealClaim t => some t
  | _ => none

variable [Fintype Tid]

/-- The invariant of the runs whose steps are ordered. -/
structure Buffered (r : Ring) (owner : Tid) (m : Shared α) (p : Tid → List (Store α))
    (l : Tid → Option (Local α)) : Prop where
  exact : Exact r owner ((program r).view m (p owner)) l
  buffers : ∀ t, t ≠ owner → p t = []
  pending : Pending m.top (limit ((program r).view m (p owner)).bottom (l owner)) m.bottom (p owner)
  live : ∀ st b, st ∈ p owner → st.cell = some b → Holds r ((program r).view m (p owner)) b
  unpublished : ∀ u x t, u ≠ owner → l u = some x → x.after = some t → t = m.top →
    ∀ st b, st ∈ p owner → st.cell = some b → t < b

theorem buffered_init (r : Ring) (owner : Tid) :
    Buffered r owner (init : Shared α) (fun _ => []) fun _ => none where
  exact := exact_init r owner
  buffers _ _ := rfl
  pending := .nil le_rfl
  live st b h := by cases h
  unpublished u x t _ h := by cases h

section Steps

variable [DecidableEq Tid] {r : Ring} {owner t : Tid} {m m' : Shared α} {p : Tid → List (Store α)}
  {l : Tid → Option (Local α)} {x y : Local α}

omit [DecidableEq Tid] in
/-- The end of the positions in use goes back only when a pop takes the tail. -/
theorem Exact.limit_step {s : Shared α} (h : Exact r owner s l) (hx : l owner = some x)
    (hr : result x = none) :
    (∃ b, x = .popLoadTop b ∧ s.top < b) ∨ limit s.bottom (some x) ≤
      limit (step r false s x).1.bottom (some (step r false s x).2) := by
  have hph := h.inv.phase_at hx
  have hrange := h.inv.range_at hx
  cases x with
  | pushLoadTop | pushWait | popLoadBottom | stealLoadBottom | stealLoadRound =>
    refine .inr ?_
    simp only [step]
    split <;> exact le_rfl
  | stealClaim =>
    refine .inr ?_
    simp only [step]
    split <;> exact le_rfl
  | exchange =>
    refine .inr ?_
    simp only [step]
    split <;> exact le_rfl
  | pushStoreBottom b =>
    have hb : b = s.bottom ∧ b < s.top + r.size := hph
    refine .inr ?_
    show s.bottom ≤ b + 1
    omega
  | popStoreBottom b =>
    have hb : s.bottom = b + 1 := hph
    exact .inr hb.le
  | popLoadTop b =>
    by_cases hlt : s.top < b
    · exact .inl ⟨b, rfl, hlt⟩
    · refine .inr ?_
      have hle : s.top ≤ b + 1 := hrange.1
      simp only [step, if_neg hlt]
      split
      next hlt' => exact hlt'
      next => exact le_rfl
  | popClaim b t =>
    obtain ⟨hbt, hb, hge⟩ : b = t ∧ b = s.bottom ∧ b ≤ s.top := hph
    refine .inr ?_
    simp only [step]
    split
    next => exact (Nat.succ_le_succ hbt.le)
    next hne =>
      show b + 1 ≤ s.top
      omega
  | popLost t => exact absurd hx (h.notLost t)
  | done o => cases hr
  | _ => exact .inr le_rfl

namespace Buffered

omit [DecidableEq Tid] in
theorem top_le_cell (h : Buffered r owner m p l) {st : Store α} {b : ℕ} (hst : st ∈ p owner)
    (hb : st.cell = some b) : m.top ≤ b :=
  (h.pending.fresh st b hst hb).1

omit [DecidableEq Tid] in
/-- No pending store is to the slot of a cell that holds an older node. -/
theorem slot_ne (h : Buffered r owner m p l) {pos : ℕ} (hlt : pos < m.top)
    (hpos : Holds r ((program r).view m (p owner)) pos) :
    ∀ st b, st ∈ p owner → st.cell = some b → r.slot b ≠ r.slot pos := by
  intro st b hst hb he
  have hle := h.top_le_cell hst hb
  have heq := Holds.unique (h.live st b hst hb) hpos he
  omega

theorem owner_load (h : Buffered r owner m p l) (hx : l owner = some x) (hr : result x = none)
    {f : Shared α → Local α} (hi : instr r x = .load f) (hok : Ordered m (p owner) x) :
    Buffered r owner m p
      (Function.update l owner (some (f ((program r).view m (p owner))))) := by
  have hstep := step_load hi ((program r).view m (p owner))
  have hclaim : NoLostClaim ((program r).view m (p owner)) x := by
    cases x with
    | popClaim => cases hi
    | _ => trivial
  have hexact := (exact_inductive r owner).step false h.exact hx hr hclaim
  have hlimit := h.exact.limit_step hx hr
  rw [show (object r).step = step r from rfl, hstep] at hexact
  rw [hstep] at hlimit
  refine ⟨hexact, h.buffers, ?_, h.live, ?_⟩
  · rw [Function.update_self]
    rcases hlimit with ⟨b, rfl, hlt⟩ | hle
    · -- the tail is taken: nothing is pending
      rw [view_top] at hlt
      have hnil : p owner = [] := hok.1 hlt
      have hbottom := Inv.bottom_le hexact.inv.phase
      rw [Function.update_self] at hbottom
      revert hbottom
      rw [hnil, Program.view_nil]
      exact fun hbottom => .nil hbottom
    · have hpending := h.pending
      rw [hx] at hpending
      exact hpending.mono hle
  · intro u z t hu hz ht
    rw [Function.update_of_ne hu] at hz
    exact h.unpublished u z t hu hz ht

omit [DecidableEq Tid] in
theorem lt_limit (h : Buffered r owner m p l) {pos : ℕ} (hx : l t = some x) (hpos : x.after = some pos)
    (htop : pos = m.top) : pos < limit ((program r).view m (p owner)).bottom (l owner) := by
  have hth := h.exact.inv.thief t x hx
  cases x with
  | stealLoadRound c =>
    cases hpos
    exact hth.2 (htop.trans (view_top _ _).symm)
  | stealClaim c =>
    cases hpos
    exact hth.2 (htop.trans (view_top _ _).symm)
  | _ => cases hpos

omit [Fintype Tid] [DecidableEq Tid] in
/-- A store of the owner keeps the nodes in the other cells. -/
theorem holds_store {s : Shared α} (hph : Phase r s.top s.bottom s.cells.data (some x))
    {f : Shared α → Store α × Local α} (hi : instr r x = .store f) {b : ℕ} (h : Holds r s b) :
    Holds r (Store.apply r s (f s).1) b := by
  obtain ⟨n, hn, hb⟩ := h
  refine ⟨n, ?_, hb⟩
  cases x with
  | pushStoreData item c =>
    cases hi
    have hnone : s.cells.data (r.slot c) = none := hph.2.2
    have hne : r.slot b ≠ r.slot c := by
      intro he
      rw [he, hnone] at hn
      cases hn
    simp only [Store.apply, Cells.setData_data]
    rwa [Function.update_of_ne hne]
  | pushStoreRound c =>
    cases hi
    simp only [Store.apply, Cells.setRound_data]
    exact hn
  | pushStoreBottom | popStoreBottom | popRestore | popLost | popWon =>
    cases hi
    exact hn
  | _ => cases hi

theorem owner_store (h : Buffered r owner m p l) (hx : l owner = some x) (hr : result x = none)
    {f : Shared α → Store α × Local α} (hi : instr r x = .store f) :
    Buffered r owner m
      (Function.update p owner (p owner ++ [(f ((program r).view m (p owner))).1]))
      (Function.update l owner (some (f ((program r).view m (p owner))).2)) := by
  have hstep := step_store hi ((program r).view m (p owner))
  have hclaim : NoLostClaim ((program r).view m (p owner)) x := by
    cases x with
    | popClaim => cases hi
    | _ => trivial
  have hexact := (exact_inductive r owner).step false h.exact hx hr hclaim
  have hlimit := h.exact.limit_step hx hr
  have hph := h.exact.inv.phase_at hx
  rw [show (object r).step = step r from rfl, hstep] at hexact
  rw [hstep] at hlimit
  have hview : (program r).view m (Function.update p owner
      (p owner ++ [(f ((program r).view m (p owner))).1]) owner) =
      Store.apply r ((program r).view m (p owner)) (f ((program r).view m (p owner))).1 := by
    rw [Function.update_self, Program.view_concat]
    rfl
  -- a cell that is written is the one at the end of the positions in use
  have hcell : ∀ b, (f ((program r).view m (p owner))).1.cell = some b →
      b = limit ((program r).view m (p owner)).bottom (l owner) ∧
        (f ((program r).view m (p owner))).2.claims = some b := by
    intro b hb
    rw [hx]
    cases x with
    | pushStoreData item c =>
      cases hi
      cases hb
      exact ⟨hph.1, rfl⟩
    | pushStoreRound c =>
      cases hi
      cases hb
      exact ⟨hph.1, rfl⟩
    | pushStoreBottom | popStoreBottom | popRestore | popLost | popWon =>
      cases hi
      cases hb
    | _ => cases hi
  have hnew := Inv.bottom_le hexact.inv.phase
  rw [Function.update_self] at hnew
  have hle : limit ((program r).view m (p owner)).bottom (l owner) ≤
      limit (Store.apply r ((program r).view m (p owner))
        (f ((program r).view m (p owner))).1).bottom
        (some (f ((program r).view m (p owner))).2) := by
    rw [hx]
    rcases hlimit with ⟨b, rfl, -⟩ | hle
    · cases hi
    · exact hle
  refine ⟨by rw [hview]; exact hexact, ?_, ?_, ?_, ?_⟩
  · intro u hu
    rw [Function.update_of_ne hu]
    exact h.buffers u hu
  · rw [hview, Function.update_self, Function.update_self]
    refine h.pending.concat hle ?_ ?_
    · intro v hv
      rw [hv] at hnew ⊢
      exact hnew
    · intro b hb
      have htop := h.exact.inv.top_le
      rw [view_top] at htop
      obtain ⟨hb, -⟩ := hcell b hb
      omega
  · intro st b hst hb
    rw [hview]
    rw [Function.update_self] at hst
    rcases List.mem_append.mp hst with hst | hst
    · exact holds_store hph hi (h.live st b hst hb)
    · obtain rfl := List.mem_singleton.mp hst
      exact hexact.owned owner _ b (Function.update_self ..) (hcell b hb).2
  · intro u z t hu hz ht htop st b hst hb
    rw [Function.update_of_ne hu] at hz
    rw [Function.update_self] at hst
    rcases List.mem_append.mp hst with hst | hst
    · exact h.unpublished u z t hu hz ht htop st b hst hb
    · obtain rfl := List.mem_singleton.mp hst
      rw [(hcell b hb).1]
      exact h.lt_limit hz ht htop

theorem owner_locked (h : Buffered r owner m p l) (hx : l owner = some x) (hr : result x = none)
    {f : Shared α → Shared α × Local α} (hi : instr r x = .locked f) (hp : p owner = [])
    (hok : Ordered m (p owner) x) :
    Buffered r owner (f m).1 p (Function.update l owner (some (f m).2)) := by
  have hstep := step_locked hi m
  have hexact := h.exact
  rw [hp, Program.view_nil] at hexact
  have hnext := (exact_inductive r owner).step false hexact hx hr hok.2
  rw [show (object r).step = step r from rfl, hstep] at hnext
  refine ⟨?_, h.buffers, ?_, ?_, ?_⟩
  · rw [hp]
    exact hnext
  · rw [hp]
    exact .nil (Inv.bottom_le hnext.inv.phase)
  · rw [hp]
    intro st b hst
    cases hst
  · rw [hp]
    intro u z t _ _ _ _ st b hst
    cases hst

/-! ### Thieves -/

theorem move_thief (h : Buffered r owner m p l) (ht : t ≠ owner) {o : Option (Local α)}
    (hexact : Exact r owner ((program r).view m' (p owner)) (Function.update l t o))
    (hbottom : m'.bottom = m.bottom)
    (hview : ((program r).view m' (p owner)).bottom = ((program r).view m (p owner)).bottom)
    (htop : m'.top = m.top ∨
      m'.top = m.top + 1 ∧ ∀ st b, st ∈ p owner → st.cell = some b → m.top < b)
    (hlive : ∀ st b, st ∈ p owner → st.cell = some b → Holds r ((program r).view m' (p owner)) b)
    (hafter : ∀ y pos, o = some y → y.after = some pos → pos = m'.top →
      ∀ st b, st ∈ p owner → st.cell = some b → pos < b) :
    Buffered r owner m' p (Function.update l t o) := by
  have howner : Function.update l t o owner = l owner := Function.update_of_ne (Ne.symm ht) ..
  refine ⟨hexact, h.buffers, ?_, hlive, ?_⟩
  · rw [howner, hview, hbottom]
    rcases htop with he | ⟨he, hlt⟩
    · rw [he]
      exact h.pending
    · rw [he]
      exact h.pending.raiseTop hlt
  · intro u z pos hu hz hpos heq st b hst hb
    rcases update_eq_some hz with ⟨rfl, ho⟩ | ⟨_, hz⟩
    · exact hafter z pos ho hpos heq st b hst hb
    · rcases htop with he | ⟨he, -⟩
      · exact h.unpublished u z pos hu hz hpos (heq.trans he) st b hst hb
      · -- whoever was after an older position is too late now
        have hth := h.exact.inv.thief u z hz
        have hle : pos ≤ m.top := by
          cases z with
          | stealLoadRound c =>
            cases hpos
            exact hth.1.trans (view_top _ _).le
          | stealClaim c =>
            cases hpos
            exact hth.1.trans (view_top _ _).le
          | _ => cases hpos
        omega

theorem stay_thief (h : Buffered r owner m p l) (ht : t ≠ owner) {o : Option (Local α)}
    (hexact : Exact r owner ((program r).view m (p owner)) (Function.update l t o))
    (hafter : ∀ y pos, o = some y → y.after = some pos → pos = m.top →
      ∀ st b, st ∈ p owner → st.cell = some b → pos < b) :
    Buffered r owner m p (Function.update l t o) :=
  h.move_thief ht hexact rfl rfl (.inl rfl) h.live hafter

/-- What the thief has learned keeps the exact invariant. -/
theorem exact_stay (h : Buffered r owner m p l) (hx : l t = some x) (hxo : x.ofOwner = false)
    (hyo : y.ofOwner = false) (hxc : x.claims = none) (hyc : y.claims = none)
    (hheld : y.held = x.held) (hquiet : y.unremarkable = true)
    (hthief : Thief m.top (limit ((program r).view m (p owner)).bottom (l owner)) y) :
    Exact r owner ((program r).view m (p owner)) (Function.update l t (some y)) := by
  rw [← view_top (r := r) m (p owner)] at hthief
  refine h.exact.quiet_common hx hxo hyo ?_ rfl rfl rfl hyc hquiet
  refine h.exact.inv.idle_at hx hxo hyo rfl rfl rfl rfl rfl hheld hthief hyc fun pos hpos => ?_
  rw [hxc] at hpos
  cases hpos

theorem thief_load (h : Buffered r owner m p l) (ht : t ≠ owner) (hx : l t = some x)
    (hr : result x = none) {f : Shared α → Local α} (hi : instr r x = .load f) :
    Buffered r owner m p (Function.update l t (some (f m))) := by
  have honly := h.exact.inv.only t x hx
  have hth := h.exact.inv.thief t x hx
  rw [view_top] at hth
  cases x with
  | stealLoadTop =>
    cases hi
    refine h.stay_thief ht (h.exact_stay hx rfl rfl rfl rfl rfl rfl le_rfl) ?_
    rintro _ pos ⟨⟩ hpos
    cases hpos
  | stealLoadBottom c =>
    cases hi
    beta_reduce
    split
    next =>
      refine h.stay_thief ht (h.exact_stay hx rfl rfl rfl rfl rfl rfl trivial) ?_
      rintro _ pos ⟨⟩ hpos
      cases hpos
    next hlt =>
      have hbottom := h.pending.bottom_le
      refine h.stay_thief ht (h.exact_stay hx rfl rfl rfl rfl rfl rfl ⟨hth, fun _ => by omega⟩) ?_
      rintro _ pos ⟨⟩ hpos _ st b hst hb
      cases hpos
      have hle := (h.pending.fresh st b hst hb).2
      omega
  | stealLoadRound c =>
    cases hi
    beta_reduce
    split
    next =>
      refine h.stay_thief ht (h.exact_stay hx rfl rfl rfl rfl rfl rfl hth) ?_
      rintro _ pos ⟨⟩ hpos heq
      cases hpos
      exact h.unpublished t _ c ht hx rfl heq
    next =>
      refine h.stay_thief ht (h.exact_stay hx rfl rfl rfl rfl rfl rfl trivial) ?_
      rintro _ pos ⟨⟩ hpos
      cases hpos
  | done o => cases hr
  | stealClaim | exchange | clearRound | finish => cases hi
  | _ => exact absurd (honly rfl) ht

theorem thief_locked (h : Buffered r owner m p l) (ht : t ≠ owner) (hx : l t = some x)
    (hr : result x = none) {f : Shared α → Shared α × Local α} (hi : instr r x = .locked f) :
    Buffered r owner (f m).1 p (Function.update l t (some (f m).2)) := by
  have honly := h.exact.inv.only t x hx
  cases x with
  | stealClaim pos =>
    have hnext := h.exact.step_common hx rfl rfl false
    simp only [step, view_top] at hnext
    cases hi
    beta_reduce
    split
    next htop =>
      rw [if_pos htop, ← view_setTop] at hnext
      refine h.move_thief ht hnext rfl ?_ (.inr ⟨by rw [← htop], ?_⟩) ?_ ?_
      · rw [view_setTop]
      · rw [htop]
        exact h.unpublished t _ pos ht hx rfl htop.symm
      · intro st b hst hb
        rw [view_setTop]
        exact h.live st b hst hb
      · rintro _ q ⟨⟩ hq
        cases hq
    next htop =>
      rw [if_neg htop] at hnext
      refine h.stay_thief ht hnext ?_
      rintro _ q ⟨⟩ hq
      cases hq
  | exchange pos =>
    have hlt : pos < m.top := by
      rcases h.exact.inv.claimed t _ pos hx rfl with hlt | ⟨he, -⟩
      · rwa [view_top] at hlt
      · exact absurd he ht
    have hclean := h.slot_ne hlt (h.exact.owned t _ pos hx rfl)
    have hnext := h.exact.step_common hx rfl rfl false
    have hdata : ((program r).view m (p owner)).cells.data (r.slot pos) =
        m.cells.data (r.slot pos) := congrArg Cell.data (view_cell hclean)
    simp only [step, hdata] at hnext
    cases hi
    beta_reduce
    split
    next hnone =>
      rw [hnone] at hnext
      refine h.stay_thief ht hnext ?_
      rintro _ q ⟨⟩ hq
      cases hq
    next n hn =>
      simp only [hn] at hnext
      rw [← view_empty hclean] at hnext
      refine h.move_thief ht hnext rfl (by rw [view_empty hclean]) (.inl rfl) ?_ ?_
      · intro st b hst hb
        rw [view_empty hclean]
        obtain ⟨q, hq, hqb⟩ := h.live st b hst hb
        refine ⟨q, ?_, hqb⟩
        rw [Cells.setData_data, Function.update_of_ne (hclean st b hst hb)]
        exact hq
      · rintro _ q ⟨⟩ hq
        cases hq
  | clearRound pos n =>
    have hlt : pos < m.top := by
      rcases h.exact.clearing t pos n hx with hlt | ⟨he, -⟩
      · rwa [view_top] at hlt
      · exact absurd he ht
    have hclean : ∀ st, st ∈ p owner → st.cell ≠ some pos := by
      intro st hst hb
      have hle := h.top_le_cell hst hb
      omega
    have hnext := h.exact.step_common hx rfl rfl false
    simp only [step] at hnext
    rw [← view_clearRound hclean] at hnext
    cases hi
    refine h.move_thief ht hnext rfl (by rw [view_clearRound hclean]) (.inl rfl) ?_ ?_
    · intro st b hst hb
      rw [view_clearRound hclean]
      obtain ⟨q, hq, hqb⟩ := h.live st b hst hb
      exact ⟨q, by rw [Cells.clearRound_data]; exact hq, hqb⟩
    · rintro _ q ⟨⟩ hq
      cases hq
  | finish n =>
    have hnext := h.exact.step_common hx rfl rfl false
    simp only [step] at hnext
    rw [← view_setDeleted] at hnext
    cases hi
    refine h.move_thief ht hnext rfl (by rw [view_setDeleted]) (.inl rfl) ?_ ?_
    · intro st b hst hb
      rw [view_setDeleted]
      exact h.live st b hst hb
    · rintro _ q ⟨⟩ hq
      cases hq
  | popClaim => exact absurd (honly rfl) ht
  | _ => cases hi

theorem flush (h : Buffered r owner m p l) {st : Store α} {buf : List (Store α)}
    (hp : p owner = st :: buf) :
    Buffered r owner (Store.apply r m st) (Function.update p owner buf) l := by
  have hview : (program r).view (Store.apply r m st) (Function.update p owner buf owner) =
      (program r).view m (p owner) := by
    rw [Function.update_self, hp, Program.view_cons]
    rfl
  have hmem : ∀ st', st' ∈ Function.update p owner buf owner → st' ∈ p owner := by
    intro st' hst
    rw [Function.update_self] at hst
    rw [hp]
    exact List.mem_cons_of_mem _ hst
  have htop : (Store.apply r m st).top = m.top := by cases st <;> rfl
  refine ⟨by rw [hview]; exact h.exact, ?_, ?_, ?_, ?_⟩
  · intro u hu
    rw [Function.update_of_ne hu]
    exact h.buffers u hu
  · have hpending := h.pending
    rw [hview, htop, Function.update_self]
    generalize limit ((program r).view m (p owner)).bottom (l owner) = lim at hpending ⊢
    rw [hp] at hpending
    exact hpending.flush
  · intro st' b hst hb
    rw [hview]
    exact h.live st' b (hmem st' hst) hb
  · intro u z pos hu hz hpos heq st' b hst hb
    exact h.unpublished u z pos hu hz hpos (heq.trans htop) st' b (hmem st' hst) hb

end Buffered

end Steps

/-- Every ordered step keeps the invariant. -/
theorem buffered_inductive [DecidableEq Tid] (r : Ring) (owner : Tid) :
    (program (α := α) r).Inductive (may owner) Ordered (Buffered r owner) where
  call {m p l t op} h hl hmay := by
    have hexact := (exact_inductive r owner).call h.exact hl hmay
    have hlimit : ∀ b, limit b (Function.update l t (some (start op)) owner) = limit b (l owner) :=
      Inv.limit_update (by rw [hl]; exact Inv.neutral_none) (Inv.neutral_start op)
    refine ⟨hexact, h.buffers, ?_, h.live, ?_⟩
    · rw [show (program r).start op = start op from rfl, hlimit]
      exact h.pending
    · intro u z pos hu hz hpos
      rcases update_eq_some hz with ⟨rfl, ho⟩ | ⟨_, hz⟩
      · cases ho
        cases op <;> cases hpos
      · exact h.unpublished u z pos hu hz hpos
  load {m p l t x f} h hx hr hi hok := by
    by_cases ht : t = owner
    · subst ht
      exact h.owner_load hx hr hi hok
    · rw [h.buffers t ht, Program.view_nil]
      exact h.thief_load ht hx hr hi
  store {m p l t x f} h hx hr hi _ := by
    have honly := h.exact.inv.only t x hx
    have ht : t = owner := by
      cases x with
      | pushStoreData | pushStoreRound | pushStoreBottom | popStoreBottom | popRestore | popLost
      | popWon => exact honly rfl
      | _ => cases hi
    subst ht
    exact h.owner_store hx hr hi
  locked {m p l t x f} h hx hr hi hp hok := by
    by_cases ht : t = owner
    · subst ht
      exact h.owner_locked hx hr hi hp hok
    · exact h.thief_locked ht hx hr hi
  flush {m p l t st buf} h hp := by
    by_cases ht : t = owner
    · subst ht
      exact h.flush hp
    · rw [h.buffers t ht] at hp
      cases hp
  ret {m p l t x o} h hx hr := by
    have hexact := (exact_inductive r owner).ret h.exact hx hr
    have hlimit : ∀ b, limit b (Function.update l t none owner) = limit b (l owner) := by
      cases x with
      | done o' =>
        exact Inv.limit_update (by rw [hx]; exact Inv.neutral_of_ofOwner rfl) Inv.neutral_none
      | _ => cases hr
    refine ⟨hexact, h.buffers, ?_, h.live, ?_⟩
    · rw [hlimit]
      exact h.pending
    · intro u z pos hu hz hpos
      rcases update_eq_some hz with ⟨_, ho⟩ | ⟨_, hz⟩
      · cases ho
      · exact h.unpublished u z pos hu hz hpos

end LowLatency.WorkStealingDeque
