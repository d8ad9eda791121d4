import LowLatency.Concurrency.Linearizable
import LowLatency.LockFreeQueue.Alone

/-!
# The queue is linearizable

The callers of the queue see a bounded FIFO list (`spec`) whose failures may have another reason than
the length of the list: a push is refused while a pop that has taken its item has not handed the slot
back, and a pop finds nothing while a push that has its place has not published it. The effect of an
operation is the exchange of `tail_` or `head_`; a failure takes effect where the operation loads the
sequence number. A stale position does no harm, since the sequence number of a slot only grows
(`Shared.Ordered.le_sequence`).
-/

namespace LowLatency.LockFreeQueue

open Concurrency

variable {α : Type*} {Tid : Type*}

/-- A bounded list of `size` items, in which an operation may fail because another one that has taken
effect is still in progress. -/
def spec (α Tid : Type*) (size : ℕ) : Spec Tid (Op α) (Outcome α) (List α) where
  init := []
  effect st items op o items' :=
    match op, o with
    | .push x, .put => items.length < size ∧ items' = items ++ [x]
    | .push x, .refused y => y = x ∧ items' = items ∧
        (items.length = size ∨ ∃ u z, st u = some (.settled (.got z)))
    | .pop, .got x => items = x :: items'
    | .pop, .nothing => items' = items ∧ (items = [] ∨ ∃ u, st u = some (.settled .put))
    | _, _ => False

/-! ## Stale positions -/

namespace Shared.Ordered

variable {r : Ring} {s : Shared α}

/-- The position of a slot in the window of the positions in use. -/
theorem exists_window (s : Shared α) (r : Ring) (p : ℕ) :
    ∃ q, s.head ≤ q ∧ q < s.head + r.size ∧ r.slot q = r.slot p := by
  have hpos := r.size_pos
  refine ⟨s.head + (p + r.size * s.head - s.head) % r.size, Nat.le_add_right _ _,
    Nat.add_lt_add_left (Nat.mod_lt _ hpos) _, ?_⟩
  have hle : s.head ≤ p + r.size * s.head :=
    le_trans (Nat.le_mul_of_pos_left _ hpos) (Nat.le_add_left _ _)
  rw [r.slot_eq_mod, r.slot_eq_mod, Nat.add_mod_mod, Nat.add_sub_cancel' hle,
    Nat.add_mul_mod_self_left]

/-- The sequence number of a slot has passed the positions that were popped from it. -/
theorem lt_sequence (h : s.Ordered r) {p : ℕ} (hp : p < s.head) : p < s.sequence (r.slot p) := by
  obtain ⟨q, hq1, hq2, hq⟩ := exists_window s r p
  have hlap : p + r.size ≤ q := by
    have hmod : q ≡ p [MOD r.size] := by
      rw [r.slot_eq_mod, r.slot_eq_mod] at hq
      exact hq
    have hdvd := (Nat.modEq_iff_dvd' (by omega)).mp hmod.symm
    have := Nat.le_of_dvd (by omega) hdvd
    omega
  have hpos := r.size_pos
  rw [← hq]
  by_cases hlt : q < s.tail
  · have hfull := h.full q hq1 hlt
    omega
  · have hfree := h.free q (by omega) hq2
    omega

theorem le_sequence (h : s.Ordered r) {p : ℕ} (hp : p < s.tail) : p ≤ s.sequence (r.slot p) := by
  by_cases hlt : p < s.head
  · exact (h.lt_sequence hlt).le
  · have hfull := h.full p (by omega) hp
    omega

end Shared.Ordered

/-! ## Failures -/

section Failures

variable [Inhabited α] {r : Ring} {s : Shared α} {l : Tid → Option (Local α)} {pos : ℕ}

/-- An operation past its claim is a push that holds a position from the head on, or a pop that holds one
below it. -/
theorem Inv.claimant (h : Inv r s l) (hc : Claimed l pos) :
    (s.head ≤ pos ∧ ∃ u x, l u = some x ∧ ((∃ item, x = .pushWrite item pos) ∨ x = .pushPublish pos)) ∨
      (pos < s.head ∧
        ∃ u x, l u = some x ∧ (x = .popRead pos ∨ ∃ item, x = .popPublish pos item)) := by
  obtain ⟨u, x, hu, hx⟩ := hc
  have hgood := h.good u x hu
  cases x with
  | pushWrite item p =>
    obtain rfl : p = pos := Option.some.inj hx
    exact .inl ⟨hgood.1, u, _, hu, .inl ⟨item, rfl⟩⟩
  | pushPublish p =>
    obtain rfl : p = pos := Option.some.inj hx
    exact .inl ⟨hgood.1, u, _, hu, .inr rfl⟩
  | popRead p =>
    obtain rfl : p = pos := Option.some.inj hx
    exact .inr ⟨hgood.1, u, _, hu, .inl rfl⟩
  | popPublish p item =>
    obtain rfl : p = pos := Option.some.inj hx
    exact .inr ⟨hgood.1, u, _, hu, .inr ⟨item, rfl⟩⟩
  | _ => cases hx

/-- A push that finds its slot behind: the ring is full, or a pop has not handed the slot back. -/
theorem Accounted.of_behind_push (h : Accounted r s l) (hinv : Inv r s l) (hpos : pos ≤ s.tail)
    (hseq : s.sequence (r.slot pos) < pos) : s.tail = s.head + r.size ∨
      ∃ u x q, l u = some x ∧ (x = .popRead q ∨ ∃ item, x = .popPublish q item) := by
  have htail : pos = s.tail := by
    by_contra hne
    have hle := hinv.ordered.le_sequence (p := pos) (by omega)
    omega
  subst htail
  by_cases hroom : s.tail < s.head + r.size
  · rcases h.freed s.tail le_rfl hroom with hfree | ⟨q, hc, hq⟩
    · omega
    · rcases hinv.claimant hc with ⟨hle, _⟩ | ⟨_, u, x, hu, hx⟩
      · omega
      · exact .inr ⟨u, x, q, hu, hx⟩
  · exact .inl (hinv.ordered.tail_le.antisymm (Nat.not_lt.mp hroom))

/-- A pop that finds its slot behind: the ring is empty, or a push has not published its item. -/
theorem Accounted.of_behind_pop (h : Accounted r s l) (hinv : Inv r s l) (hpos : pos ≤ s.head)
    (hseq : s.sequence (r.slot pos) < pos + 1) : s.head = s.tail ∨
      ∃ u x q, l u = some x ∧ ((∃ item, x = .pushWrite item q) ∨ x = .pushPublish q) := by
  have hhead : pos = s.head := by
    by_contra hne
    have hle := hinv.ordered.lt_sequence (p := pos) (by omega)
    omega
  subst hhead
  by_cases hstock : s.head < s.tail
  · rcases h.filled s.head le_rfl hstock with hfull | hc
    · omega
    · rcases hinv.claimant hc with ⟨_, u, x, hu, hx⟩ | ⟨hlt, _⟩
      · exact .inr ⟨u, x, _, hu, hx⟩
      · omega
  · exact .inl (hinv.ordered.head_le.antisymm (Nat.not_lt.mp hstock))

end Failures

/-! ## Stages -/

/-- The items between the head and the tail, in the order of their claims. -/
def Shared.items (s : Shared α) : List α := (s.pushClaims.drop s.head).map Prod.snd

/-- Whether an operation has taken effect, and with which result. -/
def AtStage (s : Shared α) : Local α → Stage (Op α) (Outcome α) → Prop
  | .pushLoadTail item, g | .pushLoadSequence item _, g | .pushClaim item _, g =>
    g = .called (.push item)
  | .pushWrite _ _, g | .pushPublish _, g => g = .settled .put
  | .popLoadHead, g | .popLoadSequence _, g | .popClaim _, g => g = .called .pop
  | .popRead pos, g => ∃ item, (pos, item) ∈ s.pushClaims ∧ g = .settled (.got item)
  | .popPublish _ item, g => g = .settled (.got item)
  | .done o, g => g = .settled o

section AtStage

variable {r : Ring} {s s' : Shared α}

theorem AtStage.mono (hsub : ∀ c ∈ s.pushClaims, c ∈ s'.pushClaims) {x : Local α}
    {g : Stage (Op α) (Outcome α)} (h : AtStage s x g) : AtStage s' x g := by
  cases x with
  | popRead pos =>
    obtain ⟨item, hc, hg⟩ := h
    exact ⟨item, hsub _ hc, hg⟩
  | _ => exact h

theorem Shared.Ordered.length_items (h : s.Ordered r) : s.items.length = s.tail - s.head := by
  unfold Shared.items
  rw [List.length_map, List.length_drop, h.length_pushClaims]

theorem Shared.Ordered.items_claimTail (h : s.Ordered r) (item : α) :
    Shared.items { s with tail := s.tail + 1, pushClaims := s.pushClaims ++ [(s.tail, item)] } =
      s.items ++ [item] := by
  have hlen := h.length_pushClaims
  have hle := h.head_le
  show ((s.pushClaims ++ [(s.tail, item)]).drop s.head).map Prod.snd = s.items ++ [item]
  rw [List.drop_append_of_le_length (by omega), List.map_append]
  rfl

theorem Shared.Ordered.eq_of_mem (h : s.Ordered r) {p : ℕ} {x y : α} (hx : (p, x) ∈ s.pushClaims)
    (hy : (p, y) ∈ s.pushClaims) : x = y := by
  have heq := (h.getElem?_pushClaims hx).symm.trans (h.getElem?_pushClaims hy)
  exact (Prod.mk.inj (Option.some.inj heq)).2

theorem Shared.Ordered.items_claimHead (h : s.Ordered r) (hstock : s.head < s.tail)
    (c : List (ℕ × α)) : ∃ item, (s.head, item) ∈ s.pushClaims ∧
      s.items = item :: Shared.items { s with head := s.head + 1, popClaims := c } := by
  have hlt : s.head < s.pushClaims.length := by
    rw [h.length_pushClaims]
    exact hstock
  have hfst : (s.pushClaims[s.head]).1 = s.head := by
    have hget : (s.pushClaims.map Prod.fst)[s.head]? = some s.head := by
      rw [h.pushPos, List.getElem?_range hstock]
    rw [List.getElem?_map, List.getElem?_eq_getElem hlt] at hget
    exact Option.some.inj hget
  refine ⟨(s.pushClaims[s.head]).2, ?_, ?_⟩
  · have hmem := List.getElem_mem hlt
    rwa [← Prod.mk.eta (p := s.pushClaims[s.head]), hfst] at hmem
  · show (s.pushClaims.drop s.head).map Prod.snd =
      (s.pushClaims[s.head]).2 :: (s.pushClaims.drop (s.head + 1)).map Prod.snd
    rw [List.drop_eq_getElem_cons hlt, List.map_cons]

end AtStage

/-! ## The simulation -/

section Simulation

variable [Inhabited α] {r : Ring} {s : Shared α} {l : Tid → Option (Local α)} {items : List α}
  {st : Tid → Option (Stage (Op α) (Outcome α))} {w : Word} {Fits : ℕ → Prop}

/-- The list is that of the items in the ring, and the operations are at the stages they tell. -/
structure Relates (r : Ring) (s : Shared α) (l : Tid → Option (Local α)) (items : List α)
    (st : Tid → Option (Stage (Op α) (Outcome α))) : Prop where
  inv : Inv r s l
  accounted : Accounted r s l
  items_eq : items = s.items
  told : Object.Told (AtStage s) l st

theorem Relates.refused (h : Relates r s l items st) {pos : ℕ} (hpos : pos ≤ s.tail)
    (hseq : s.sequence (r.slot pos) < pos) :
    items.length = r.size ∨ ∃ u z, st u = some (.settled (.got z)) := by
  rcases h.accounted.of_behind_push h.inv hpos hseq with hfull | ⟨u, x, q, hu, hx⟩
  · left
    rw [h.items_eq, h.inv.ordered.length_items]
    omega
  · obtain ⟨g, hg, htells⟩ := h.told.busy hu
    rcases hx with rfl | ⟨item, rfl⟩
    · obtain ⟨z, _, rfl⟩ := htells
      exact .inr ⟨u, z, hg⟩
    · obtain rfl : g = .settled (.got item) := htells
      exact .inr ⟨u, item, hg⟩

theorem Relates.nothing (h : Relates r s l items st) {pos : ℕ} (hpos : pos ≤ s.head)
    (hseq : s.sequence (r.slot pos) < pos + 1) :
    items = [] ∨ ∃ u, st u = some (.settled .put) := by
  rcases h.accounted.of_behind_pop h.inv hpos hseq with hempty | ⟨u, x, q, hu, hx⟩
  · left
    rw [h.items_eq, ← List.length_eq_zero_iff, h.inv.ordered.length_items]
    omega
  · obtain ⟨g, hg, htells⟩ := h.told.busy hu
    have hput : g = .settled .put := by
      rcases hx with ⟨item, rfl⟩ | rfl <;> exact htells
    exact .inr ⟨u, hput ▸ hg⟩

variable [DecidableEq Tid]

/-- **Simulation**: each instruction takes effect as the specification allows, or has no effect. -/
theorem simulation (hw : w.Compares Fits) (h2 : 2 ≤ r.size) :
    (object (α := α) w r).Simulation (fun (_ : Tid) _ => true) (Fitting r Fits)
      (spec α Tid r.size) (Relates r) where
  call {s l items st t op} h hl hmay := by
    obtain ⟨hinv, hacc⟩ := (accounted_inductive hw.toSound h2).call ⟨h.inv, h.accounted⟩ hl hmay
    refine ⟨h.told.idle hl, hinv, hacc, h.items_eq, h.told.update (.some ?_) fun _ _ _ _ _ hg => hg⟩
    cases op <;> rfl
  ret {s l items st t x res} h hl hr := by
    obtain ⟨hinv, hacc⟩ := (accounted_inductive hw.toSound h2).ret ⟨h.inv, h.accounted⟩ hl hr
    obtain ⟨g, hg, htells⟩ := h.told.busy hl
    rw [eq_done hr] at htells
    obtain rfl : g = .settled res := htells
    exact ⟨hg, hinv, hacc, h.items_eq, h.told.update .none fun _ _ _ _ _ hg => hg⟩
  step {s l items st t x} b h hl hr hfit := by
    obtain ⟨hinv, hacc⟩ :=
      (accounted_inductive hw.toSound h2).step b ⟨h.inv, h.accounted⟩ hl hr hfit
    obtain ⟨g, hg, htells⟩ := h.told.busy hl
    have hgood := h.inv.good t x hl
    have hle := h.inv.ordered.head_le
    have hsize := r.size_pos
    -- an instruction that changes no claim and tells the same stage
    have hstay : ∀ {s' y}, s'.items = s.items → s'.pushClaims = s.pushClaims → AtStage s' y g →
        Inv r s' (Function.update l t (some y)) → Accounted r s' (Function.update l t (some y)) →
        Relates r s' (Function.update l t (some y)) items st := by
      intro s' y hitems hclaims hy hinv hacc
      refine ⟨hinv, hacc, h.items_eq.trans hitems.symm, h.told.stay hg hy fun _ _ _ _ _ => ?_⟩
      exact AtStage.mono fun c hc => hclaims ▸ hc
    -- an instruction that changes no claim and fails
    have hfail : ∀ {o : Outcome α}, step w r b s x = (s, .done o) →
        Relates r (step w r b s x).1 (Function.update l t (some (step w r b s x).2)) items
          (Function.update st t (some (.settled o))) := by
      intro o hstep
      refine ⟨hinv, hacc, ?_, ?_⟩
      · rw [hstep]
        exact h.items_eq
      · rw [hstep]
        exact h.told.update (.some rfl) fun _ _ _ _ _ hg => hg
    cases x with
    | pushLoadTail item => exact .inl (hstay rfl rfl htells hinv hacc)
    | popLoadHead => exact .inl (hstay rfl rfl htells hinv hacc)
    | pushLoadSequence item pos =>
      have hpos : pos ≤ s.tail := hgood
      obtain rfl : g = .called (.push item) := htells
      have hdif : w.dif (s.sequence (r.slot pos)) pos = (s.sequence (r.slot pos) : ℤ) - pos :=
        hw.dif_eq (hfit _ (h.inv.ordered.sequence_le pos)) (hfit pos (by omega))
      by_cases hbehind : s.sequence (r.slot pos) < pos
      · have hstep : step w r b s (.pushLoadSequence item pos) = (s, .done (.refused item)) := by
          simp only [step, hdif]
          rw [if_neg (by omega), if_pos (by omega)]
        exact .inr ⟨.push item, .refused item, items, hg, ⟨rfl, rfl, h.refused hpos hbehind⟩,
          hfail hstep⟩
      · left
        simp only [object, step, hdif] at hinv hacc ⊢
        split_ifs at hinv hacc ⊢ with hd hd'
        · exact hstay rfl rfl rfl hinv hacc
        · omega
        · exact hstay rfl rfl rfl hinv hacc
    | popLoadSequence pos =>
      have hpos : pos ≤ s.head := hgood
      obtain rfl : g = .called .pop := htells
      have hdif : w.dif (s.sequence (r.slot pos)) (w.wrap (pos + 1)) =
          (s.sequence (r.slot pos) : ℤ) - (pos + 1 : ℕ) := by
        rw [hw.wrap_eq (hfit (pos + 1) (by omega))]
        exact hw.dif_eq (hfit _ (h.inv.ordered.sequence_le pos)) (hfit (pos + 1) (by omega))
      by_cases hbehind : s.sequence (r.slot pos) < pos + 1
      · have hstep : step w r b s (.popLoadSequence pos) = (s, .done .nothing) := by
          simp only [step, hdif]
          rw [if_neg (by omega), if_pos (by omega)]
        exact .inr ⟨.pop, .nothing, items, hg, ⟨rfl, h.nothing hpos hbehind⟩, hfail hstep⟩
      · left
        simp only [object, step, hdif] at hinv hacc ⊢
        split_ifs at hinv hacc ⊢ with hd hd'
        · exact hstay rfl rfl rfl hinv hacc
        · omega
        · exact hstay rfl rfl rfl hinv hacc
    | pushClaim item pos =>
      obtain rfl : g = .called (.push item) := htells
      simp only [object, step] at hinv hacc ⊢
      split_ifs at hinv hacc ⊢ with hc
      · obtain ⟨rfl, rfl⟩ := hc
        rw [hw.wrap_eq (hfit _ (by omega))] at hinv hacc ⊢
        have hroom := h.inv.ordered.room h2 (hgood.2 rfl)
        refine .inr ⟨.push item, .put, items ++ [item], hg, ⟨?_, rfl⟩, hinv, hacc, ?_, ?_⟩
        · rw [h.items_eq, h.inv.ordered.length_items]
          omega
        · rw [h.items_eq, h.inv.ordered.items_claimTail]
        · refine h.told.update (.some rfl) fun _ _ _ _ _ => ?_
          exact AtStage.mono fun c hc => List.mem_append_left _ hc
      · exact .inl (hstay rfl rfl rfl hinv hacc)
    | popClaim pos =>
      obtain rfl : g = .called .pop := htells
      simp only [object, step] at hinv hacc ⊢
      split_ifs at hinv hacc ⊢ with hc
      · obtain ⟨rfl, rfl⟩ := hc
        rw [hw.wrap_eq (hfit _ (by omega))] at hinv hacc ⊢
        have hstock := h.inv.ordered.stock (hgood.2 rfl)
        obtain ⟨item, hmem, hitems⟩ := h.inv.ordered.items_claimHead hstock
          (s.popClaims ++ [(s.head, s.data (r.slot s.head))])
        refine .inr ⟨.pop, .got item, _, hg, h.items_eq.trans hitems, hinv, hacc, rfl, ?_⟩
        exact h.told.update (.some ⟨item, hmem, rfl⟩) fun _ _ _ _ _ => AtStage.mono fun c hc => hc
      · exact .inl (hstay rfl rfl rfl hinv hacc)
    | pushWrite item pos => exact .inl (hstay rfl rfl htells hinv hacc)
    | pushPublish pos => exact .inl (hstay rfl rfl htells hinv hacc)
    | popRead pos =>
      obtain ⟨item, hmem, hg'⟩ := htells
      have hdata := h.inv.ordered.eq_of_mem hmem hgood.2.2.2
      have hpublish : AtStage (s.setData (r.slot pos) default)
          (.popPublish pos (s.data (r.slot pos))) g := by
        rw [hg', hdata]
        rfl
      exact .inl (hstay rfl rfl hpublish hinv hacc)
    | popPublish pos item => exact .inl (hstay rfl rfl htells hinv hacc)
    | done => cases hr

end Simulation

/-! ## What a program that uses the queue knows -/

/-- The operation is a push. -/
def Local.pushes : Local α → Bool
  | .pushLoadTail _ | .pushLoadSequence _ _ | .pushClaim _ _ | .pushWrite _ _ | .pushPublish _
  | .done .put | .done (.refused _) => true
  | _ => false

/-- An operation that has inserted its item. -/
def inserted : Option (Stage (Op α) (Outcome α)) → ℕ
  | some (.settled .put) => 1
  | _ => 0

/-- The item that an operation has removed. -/
def removed : Option (Stage (Op α) (Outcome α)) → Multiset α
  | some (.settled (.got x)) => {x}
  | _ => 0

/-- The items that have left the queue. -/
def Shared.leftQueue (s : Shared α) : List α := (s.pushClaims.take s.head).map Prod.snd

theorem Shared.leftQueue_append (s : Shared α) :
    s.leftQueue ++ s.items = s.pushClaims.map Prod.snd := by
  unfold Shared.leftQueue Shared.items
  rw [← List.map_append, List.take_append_drop]

section Users

variable [Inhabited α] {r : Ring} {s : Shared α} {l : Tid → Option (Local α)} {items : List α}
  {st : Tid → Option (Stage (Op α) (Outcome α))} {w : Word} {Fits : ℕ → Prop} {x : Local α} {t : Tid}

theorem step_pushes (b : Bool) (hx : x.pushes = true) (hr : result x = none) :
    (step w r b s x).1.head = s.head ∧ s.pushClaims <+: (step w r b s x).1.pushClaims ∧
      (step w r b s x).2.pushes = true := by
  cases x with
  | pushLoadSequence =>
    simp only [step]
    split_ifs <;> exact ⟨rfl, List.prefix_refl _, rfl⟩
  | pushClaim =>
    simp only [step]
    split_ifs
    · exact ⟨rfl, List.prefix_append _ _, rfl⟩
    · exact ⟨rfl, List.prefix_refl _, rfl⟩
  | pushLoadTail | pushWrite | pushPublish => exact ⟨rfl, List.prefix_refl _, rfl⟩
  | done => cases hr
  | _ => cases hx

theorem step_pops (b : Bool) (hx : x.pushes = false) (hr : result x = none) :
    (step w r b s x).1.tail = s.tail ∧ (step w r b s x).1.pushClaims = s.pushClaims ∧
      (step w r b s x).2.pushes = false := by
  cases x with
  | popLoadSequence | popClaim =>
    simp only [step]
    split_ifs <;> exact ⟨rfl, rfl, rfl⟩
  | popLoadHead | popRead | popPublish => exact ⟨rfl, rfl, rfl⟩
  | done => cases hr
  | _ => cases hx

theorem Relates.stage_push (h : Relates r s l items st) (hl : l t = some x) (hx : x.pushes = true)
    {op : Op α} (hst : st t = some (.called op)) : ∃ item, op = .push item := by
  obtain ⟨g, hg, htells⟩ := h.told.busy hl
  obtain rfl : g = .called op := Option.some.inj (hg.symm.trans hst)
  cases x with
  | pushLoadTail item | pushLoadSequence item | pushClaim item =>
    cases htells
    exact ⟨item, rfl⟩
  | pushWrite | pushPublish | done => cases htells
  | _ => cases hx

theorem Relates.stage_pop (h : Relates r s l items st) (hl : l t = some x) (hx : x.pushes = false)
    {op : Op α} (hst : st t = some (.called op)) : op = .pop := by
  obtain ⟨g, hg, htells⟩ := h.told.busy hl
  obtain rfl : g = .called op := Option.some.inj (hg.symm.trans hst)
  cases x with
  | popLoadHead | popLoadSequence | popClaim =>
    cases htells
    rfl
  | popRead =>
    obtain ⟨item, _, he⟩ := htells
    cases he
  | popPublish | done => cases htells
  | _ => cases hx

theorem Relates.pushes_of_put (h : Relates r s l items st) (hst : st t = some (.settled .put)) :
    ∃ x, l t = some x ∧ x.pushes = true := by
  have ht := h.told t
  rw [hst] at ht
  generalize hl : l t = o at ht
  cases ht with
  | some htells =>
    next x =>
      refine ⟨x, rfl, ?_⟩
      cases x with
      | pushWrite | pushPublish => rfl
      | popRead =>
        obtain ⟨item, _, he⟩ := htells
        cases he
      | done o =>
        cases htells
        rfl
      | _ => cases htells

variable [DecidableEq Tid]

theorem Relates.push_step (h : Relates r s l items st) (hw : w.Compares Fits) (h2 : 2 ≤ r.size)
    (b : Bool) (hl : l t = some x) (hx : x.pushes = true) (hr : result x = none)
    (hfit : Fitting r Fits s x) : ∃ items' st',
      Relates r (step w r b s x).1 (Function.update l t (some (step w r b s x).2)) items' st' ∧
        (∀ u, u ≠ t → st' u = st u) ∧
        (step w r b s x).1.tail + inserted (st t) = s.tail + inserted (st' t) ∧
        (step w r b s x).1.leftQueue = s.leftQueue := by
  obtain ⟨hhead, hclaims, -⟩ := step_pushes (w := w) (r := r) (s := s) b hx hr
  have hle := h.inv.ordered.head_le
  have hlen := h.inv.ordered.length_items
  have hleft : (step w r b s x).1.leftQueue = s.leftQueue := by
    obtain ⟨rest, hrest⟩ := hclaims
    unfold Shared.leftQueue
    rw [hhead, ← hrest, List.take_append_of_le_length]
    rw [h.inv.ordered.length_pushClaims]
    exact hle
  rw [← h.items_eq] at hlen
  rcases (simulation hw h2).step b h hl hr hfit with hrel | ⟨op, o, items', hst, heff, hrel⟩
  · have hlen' := hrel.inv.ordered.length_items
    have hle' := hrel.inv.ordered.head_le
    rw [← hrel.items_eq] at hlen'
    refine ⟨items, st, hrel, fun _ _ => rfl, ?_, hleft⟩
    simp only [object] at hlen' hle'
    omega
  · have hlen' := hrel.inv.ordered.length_items
    have hle' := hrel.inv.ordered.head_le
    rw [← hrel.items_eq] at hlen'
    simp only [object] at hlen' hle'
    obtain ⟨item, rfl⟩ := h.stage_push hl hx hst
    refine ⟨items', _, hrel, fun u hu => Function.update_of_ne hu .., ?_, hleft⟩
    rw [hst, Function.update_self]
    cases o with
    | put =>
      obtain ⟨-, rfl⟩ : _ ∧ items' = items ++ [item] := heff
      rw [List.length_append, List.length_singleton] at hlen'
      show _ + 0 = s.tail + 1
      omega
    | refused y =>
      obtain ⟨-, rfl, -⟩ : _ ∧ items' = items ∧ _ := heff
      show _ + 0 = s.tail + 0
      omega
    | got | nothing => exact heff.elim

theorem Relates.pop_step (h : Relates r s l items st) (hw : w.Compares Fits) (h2 : 2 ≤ r.size)
    (b : Bool) (hl : l t = some x) (hx : x.pushes = false) (hr : result x = none)
    (hfit : Fitting r Fits s x) : ∃ items' st',
      Relates r (step w r b s x).1 (Function.update l t (some (step w r b s x).2)) items' st' ∧
        (∀ u, u ≠ t → st' u = st u) ∧ (step w r b s x).1.tail = s.tail ∧
        ((step w r b s x).1.leftQueue : Multiset α) + removed (st t) =
          (s.leftQueue : Multiset α) + removed (st' t) ∧
        (st' t = some (.settled .nothing) → items' = [] ∨ ∃ u, st u = some (.settled .put)) := by
  obtain ⟨htail, hclaims, -⟩ := step_pops (w := w) (r := r) (s := s) b hx hr
  have hsplit := s.leftQueue_append
  rw [← h.items_eq] at hsplit
  have hnot : st t ≠ some (.settled .nothing) := by
    intro hst
    obtain ⟨g, hg, htells⟩ := h.told.busy hl
    obtain rfl : g = .settled .nothing := Option.some.inj (hg.symm.trans hst)
    cases x with
    | popRead =>
      obtain ⟨item, _, he⟩ := htells
      cases he
    | done => cases hr
    | _ => cases htells
  rcases (simulation hw h2).step b h hl hr hfit with hrel | ⟨op, o, items', hst, heff, hrel⟩
  · have hsplit' := (step w r b s x).1.leftQueue_append
    have hitems : items = (step w r b s x).1.items := hrel.items_eq
    rw [hclaims, ← hsplit, ← hitems] at hsplit'
    refine ⟨items, st, hrel, fun _ _ => rfl, htail, ?_, fun hst => absurd hst hnot⟩
    rw [List.append_cancel_right hsplit']
  · have hsplit' := (step w r b s x).1.leftQueue_append
    have hitems : items' = (step w r b s x).1.items := hrel.items_eq
    rw [hclaims, ← hsplit, ← hitems] at hsplit'
    obtain rfl := h.stage_pop hl hx hst
    refine ⟨items', _, hrel, fun u hu => Function.update_of_ne hu .., htail, ?_, ?_⟩
    · rw [hst, Function.update_self]
      cases o with
      | got y =>
        have hcons : items = y :: items' := heff
        rw [hcons, ← List.singleton_append, ← List.append_assoc] at hsplit'
        have hzero : removed (some (.called .pop) : Option (Stage (Op α) (Outcome α))) = 0 := rfl
        rw [List.append_cancel_right hsplit', ← Multiset.coe_add, hzero,
          Multiset.add_zero]
        rfl
      | nothing =>
        obtain ⟨rfl, -⟩ : items' = items ∧ _ := heff
        rw [List.append_cancel_right hsplit']
        rfl
      | put | refused => exact heff.elim
    · intro hnothing
      rw [Function.update_self] at hnothing
      obtain rfl : o = .nothing := by
        cases hnothing
        rfl
      obtain ⟨rfl, hcase⟩ : items' = items ∧ (items = [] ∨ ∃ u, st u = some (.settled .put)) := heff
      exact hcase

end Users

/-! ## Runs -/

section Runs

variable [DecidableEq Tid] [Inhabited α]

/-- **Linearizability**: for every ring of at least two slots and any number of producers and consumers,
every history of the queue is one of the bounded list. -/
theorem push_pop_linearizable (r : Ring) (h2 : 2 ≤ r.size)
    (p : Config Tid (Shared α) (Local α) × List (Event Tid (Op α) (Outcome α)))
    (h : ((object .u64 r).history fun _ _ => true).Reach (fun p a => Signed r p.1 a)
      (initial Tid, []) p) : (spec α Tid r.size).Linearizable p.2 := by
  refine (simulation Word.u64_compares h2).linearizable ?_ (h.mono fun _ _ => fitting_of_signed)
  exact ⟨inv_init r, accounted_init r, rfl, fun _ => .none⟩

deriving instance DecidableEq for Op

/-- Thread 0 stops between its claim and its publication; the pop of thread 1 finds nothing. -/
def popBesidePush : List (Action (Fin 2) (Op ℕ)) :=
  List.flatten [[.call 0 (.push 7)], Action.steps 0 3, [.call 1 .pop], Action.steps 1 2, [.ret 1]]

theorem push_pop_linearizable_popBesidePush :
    ∃ p : Config (Fin 2) (Shared ℕ) (Local ℕ) × List (Event (Fin 2) (Op ℕ) (Outcome ℕ)),
      p.2 = [.call 0 (.push 7), .call 1 .pop, .ret 1 .nothing] ∧ p.1.shared.tail = 1 ∧
        (spec ℕ (Fin 2) 2).Linearizable p.2 := by
  have hrun : (((object .u64 Ring.two).history fun _ _ => true).runWhile
      (fun p a => Signed Ring.two p.1 a) (initial (Fin 2), []) popBesidePush).map
        (fun p => (p.2, p.1.shared.tail)) =
      some ([.call 0 (.push 7), .call 1 .pop, .ret 1 .nothing], 1) := by decide +kernel
  obtain ⟨p, hp, hres⟩ := Option.map_eq_some_iff.mp hrun
  obtain ⟨hH, htail⟩ := Prod.mk.inj hres
  exact ⟨p, hH, htail, push_pop_linearizable Ring.two (by decide) p (System.reach_of_runWhile hp)⟩

end Runs

end LowLatency.LockFreeQueue
