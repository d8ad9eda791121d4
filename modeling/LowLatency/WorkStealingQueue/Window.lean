import LowLatency.WorkStealingQueue.Grow

/-!
# The positions in use

The tail branch of `pop` takes its node without a compare-exchange. When a thief claims the same
position, one of the two finds the cell empty and the indices cross. `NoDoubleTake` excludes these
instructions; in every run without them the positions in use are exact (`Exact`): each position
from `top` up to `limit` holds its own node, and every other node of the array is about to be taken
by the thread that has claimed its position.
-/

namespace LowLatency.WorkStealingQueue

open Concurrency

variable {α Tid : Type*}

/-- The next instruction does not take a position twice: the tail branch of `pop` does not empty a
position that a thief has claimed, and a thief does not claim a position without its node. -/
def NoDoubleTake (s : Shared α) : Local α → Prop
  | .popTail pos => pos < s.top → s.dataAt s.current pos = none
  | .claim _ t a => s.top = t → (s.dataAt a t).map Node.pos = some t
  | _ => True

namespace Local

/-- The position that the operation has claimed and is about to empty. -/
def claims : Local α → Option ℕ
  | .exchange _ t _ | .popExchange t => some t
  | _ => none

/-- The claimed position whose round the operation is about to clear. -/
def clears : Local α → Option ℕ
  | .clearRound _ t _ _ | .popClear t _ => some t
  | _ => none

/-- The first position that `grow` has not yet emptied in the old array. -/
def rest (bottom : ℕ) : Local α → Option ℕ
  | .growExchange _ _ _ i => some i
  | .growStoreData _ _ _ i _ | .growStoreRound _ _ _ i => some (i + 1)
  | .growPublish _ _ _ => some bottom
  | _ => none

/-- The exact invariant says something special about the operation. -/
def marked : Local α → Bool
  | .pushStoreRound | .growExchange _ _ _ _ | .growStoreData _ _ _ _ _ | .growStoreRound _ _ _ _
  | .growPublish _ _ _ | .growDelete _ _ | .popTailClear _ _ | .popExchange _ | .popClear _ _
  | .exchange _ _ _ | .clearRound _ _ _ _ => true
  | _ => false

end Local

/-- The positions in use end here. `push` uses the bottom position once it has stored the data, and
the tail branch of `pop` has given its position up once it has emptied the cell. -/
def limit (s : Shared α) : Option (Local α) → ℕ
  | some .pushStoreRound => s.bottom + 1
  | some (.popTailClear pos _) => pos
  | _ => s.bottom

/-- The old array is the owner's to empty. -/
def copies (o : Option (Local α)) : Option ℕ := o.bind Local.copying

/-- The data pointer of a position. While `grow` copies it is the one that the window shows. -/
def view (s : Shared α) (o : Option (Local α)) (p : ℕ) : Option (Node α) :=
  match copies o with
  | some _ => s.window ((s.cap s.current).slot p)
  | none => s.dataAt s.current p

/-- The cell of position `p` holds a node pushed at `p`. -/
def Holds (s : Shared α) (o : Option (Local α)) (p : ℕ) : Prop :=
  (view s o p).map Node.pos = some p

section Marks

variable {s : Shared α} {o : Option (Local α)} {x : Local α} {p q : ℕ}

theorem view_of_idle (h : copies o = none) : view s o p = s.dataAt s.current p := by
  unfold view
  rw [h]

theorem holds_of_idle (h : copies o = none) :
    Holds s o p ↔ ∃ n, s.dataAt s.current p = some n ∧ n.pos = p := by
  unfold Holds
  rw [view_of_idle h]
  exact Option.map_eq_some_iff

/-- Two positions that hold their own nodes have different cells. -/
theorem Holds.unique (hc : copies o = none) (hp : Holds s o p) (hq : Holds s o q)
    (h : (s.cap s.current).slot p = (s.cap s.current).slot q) : p = q := by
  obtain ⟨n, hn, rfl⟩ := (holds_of_idle hc).mp hp
  obtain ⟨m, hm, rfl⟩ := (holds_of_idle hc).mp hq
  unfold Shared.dataAt at hn hm
  rw [h, hm, Option.some.injEq] at hn
  rw [hn]

/-- No operation, or one that the exact invariant says nothing special about. -/
def Plainly (o : Option (Local α)) : Prop := ∀ x, o = some x → x.marked = false

theorem plainly_none : Plainly (none : Option (Local α)) := nofun

theorem plainly_some (h : x.marked = false) : Plainly (some x) := by
  rintro _ ⟨⟩
  exact h

theorem limit_of_plainly (h : Plainly o) : limit s o = s.bottom := by
  rcases o with _ | x
  · rfl
  · have hx := h x rfl
    cases x <;> first | rfl | cases hx

theorem copies_of_plainly (h : Plainly o) : copies o = none := by
  rcases o with _ | x
  · rfl
  · have hx := h x rfl
    cases x <;> first | rfl | cases hx

theorem marked_of_claims (h : x.claims = some p) : x.marked = true := by
  cases x <;> first | rfl | cases h

theorem marked_of_clears (h : x.clears = some p) : x.marked = true := by
  cases x <;> first | rfl | cases h

theorem marked_of_rest (h : x.rest p = some q) : x.marked = true := by
  cases x <;> first | rfl | cases h

theorem copying_of_rest (h : x.rest p = some q) : x.copying ≠ none := by
  cases x <;> first | exact Option.some_ne_none _ | cases h

theorem quiesced_of_copying_ne (h : x.copying ≠ none) : x.quiesced = true := by
  cases x <;> first | rfl | exact absurd rfl h

/-- Only thieves past the gate and the owner outside `grow` claim positions. -/
theorem inside_or_pop_of_claims (h : x.claims = some p) : x.inside = true ∨ x = .popExchange p := by
  cases x with
  | exchange => exact .inl rfl
  | popExchange t =>
    cases h
    exact .inr rfl
  | _ => cases h

theorem inside_or_pop_of_clears (h : x.clears = some p) :
    x.inside = true ∨ ∃ n, x = .popClear p n := by
  cases x with
  | clearRound => exact .inl rfl
  | popClear t n =>
    cases h
    exact .inr ⟨n, rfl⟩
  | _ => cases h

end Marks

variable [Fintype Tid]

/-- The invariant of the runs in which no position is taken twice. -/
structure Exact (owner : Tid) (s : Shared α) (l : Tid → Option (Local α)) : Prop where
  inv : Inv owner s l
  top_le : s.top ≤ limit s (l owner)
  filled : ∀ p, s.top ≤ p → p < limit s (l owner) → Holds s (l owner) p
  rounds : copies (l owner) = none → ∀ p, s.top ≤ p → p < limit s (l owner) → p < s.bottom →
    s.roundAt s.current p = p + 1
  placed : copies (l owner) = none → ∀ k n, (s.cells s.current).data k = some n →
    (s.cap s.current).slot n.pos = k ∧ ((s.top ≤ n.pos ∧ n.pos < limit s (l owner)) ∨
      ∃ u x, l u = some x ∧ x.claims = some n.pos)
  owned : ∀ u x p, l u = some x → x.claims = some p → p < s.top ∧ Holds s (l owner) p
  apart : ∀ u v x y p, u ≠ v → l u = some x → l v = some y → x.claims = some p →
    y.claims ≠ some p
  clearing : ∀ u x p, l u = some x → x.clears = some p → p < s.top
  left : ∀ x i, l owner = some x → x.rest s.bottom = some i → ∀ k n,
    (s.cells s.current).data k = some n →
      ∃ j, i ≤ j ∧ j < s.bottom ∧ k = (s.cap s.current).slot j
  emptied : ∀ item old, l owner = some (.growDelete item old) → ∀ k, (s.cells old).data k = none
  leaked : s.leaked = []

theorem exact_init (hfew : Fintype.card Tid ≤ 2 ^ 32) (owner : Tid) (r : Ring) :
    Exact owner (init r : Shared α) fun _ => none where
  inv := inv_init hfew owner r
  top_le := le_rfl
  filled p _ h := by cases h
  rounds _ p _ h := by cases h
  placed _ k n h := by cases h
  owned u x p h := by cases h
  apart u v x y p _ h := by cases h
  clearing u x p h := by cases h
  left x i h := by cases h
  emptied item old h := by cases h
  leaked := rfl

namespace Exact

variable [DecidableEq Tid] {owner t : Tid} {s s' : Shared α} {l : Tid → Option (Local α)}
  {x y : Local α} {o : Option (Local α)}

omit [DecidableEq Tid] in
theorem no_claims (h : Exact owner s l) (hx : l owner = some x) (hq : x.quiesced = true) :
    ∀ u z, l u = some z → z.claims = none ∧ z.clears = none := by
  intro u z hu
  have hin := h.inv.quiet x hx hq u z hu
  have hne : ∀ w : Local α, z = w → w.ofOwner = true → w.quiesced = true := by
    rintro w rfl hw
    obtain rfl := h.inv.only u z hu hw
    rw [hx, Option.some.injEq] at hu
    exact hu ▸ hq
  constructor
  · cases hc : z.claims with
    | none => rfl
    | some p =>
      rcases inside_or_pop_of_claims hc with hz | hz
      · rw [hin] at hz
        cases hz
      · cases hne _ hz rfl
  · cases hc : z.clears with
    | none => rfl
    | some p =>
      rcases inside_or_pop_of_clears hc with hz | ⟨n, hz⟩
      · rw [hin] at hz
        cases hz
      · cases hne _ hz rfl

omit [DecidableEq Tid] in
theorem idle_of_inside (h : Exact owner s l) (hx : l t = some x) (hin : x.inside = true) :
    copies (l owner) = none := by
  unfold copies
  cases ho : l owner with
  | none => rfl
  | some y =>
    show y.copying = none
    by_contra hc
    rw [h.inv.quiet y ho (quiesced_of_copying_ne hc) t x hx] at hin
    cases hin

section Frame

omit [Fintype Tid] in
theorem update_congr {β : Type*} (f : Option (Local α) → β) (hf : f o = f (l t)) (u : Tid) :
    f (Function.update l t o u) = f (l u) := by
  by_cases hu : u = t
  · subst hu
    rw [Function.update_self, hf]
  · rw [Function.update_of_ne hu]

omit [Fintype Tid] in
theorem update_marked (hx : Plainly (l t)) (ho : Plainly o) {u : Tid} (hz : y.marked = true) :
    Function.update l t o u = some y ↔ l u = some y := by
  by_cases hu : u = t
  · subst hu
    rw [Function.update_self]
    constructor
    · intro h
      rw [ho y h] at hz
      cases hz
    · intro h
      rw [hx y h] at hz
      cases hz
  · rw [Function.update_of_ne hu]

end Frame

/-- A step between unmarked operations that leaves the indices and the arrays. -/
theorem quiet (h : Exact owner s l) (hinv : Inv owner s' (Function.update l t o))
    (hx : Plainly (l t)) (ho : Plainly o) (htop : s'.top = s.top)
    (hbottom : s'.bottom = s.bottom) (hcurrent : s'.current = s.current)
    (hheap : ∀ a, a < s.allocated → s'.heap a = s.heap a) (hwindow : s'.window = s.window)
    (hleaked : s'.leaked = s.leaked) : Exact owner s' (Function.update l t o) := by
  have hcur : s'.heap s.current = s.heap s.current :=
    hheap _ (h.inv.current ▸ h.inv.allocated)
  have hcap : s'.cap s.current = s.cap s.current := by unfold Shared.cap; rw [hcur]
  have hcells : s'.cells s.current = s.cells s.current := by unfold Shared.cells; rw [hcur]
  have hdata : s'.dataAt s.current = s.dataAt s.current := by
    funext p; unfold Shared.dataAt; rw [hcap, hcells]
  have hround : s'.roundAt s.current = s.roundAt s.current := by
    funext p; unfold Shared.roundAt; rw [hcap, hcells]
  have hlim : limit s' (Function.update l t o owner) = limit s (l owner) := by
    have he : limit s' = limit s := by funext o; unfold limit; rw [hbottom]
    rw [he]
    exact update_congr _ ((limit_of_plainly ho).trans (limit_of_plainly hx).symm) owner
  have hcopy : copies (Function.update l t o owner) = copies (l owner) :=
    update_congr _ ((copies_of_plainly ho).trans (copies_of_plainly hx).symm) owner
  have hholds : ∀ p, Holds s' (Function.update l t o owner) p ↔ Holds s (l owner) p := fun p => by
    unfold Holds view
    rw [hcopy, hcurrent, hcap, hwindow, hdata]
  constructor
  · exact hinv
  · rw [htop, hlim]
    exact h.top_le
  · rw [htop, hlim]
    exact fun p hp hlt => (hholds p).mpr (h.filled p hp hlt)
  · rw [hcopy, htop, hlim, hcurrent, hround, hbottom]
    exact h.rounds
  · rw [hcopy, hcurrent, hcells, hcap, htop, hlim]
    intro hc k n hn
    obtain ⟨hk, hr | ⟨u, x, hu, hxp⟩⟩ := h.placed hc k n hn
    · exact ⟨hk, .inl hr⟩
    · exact ⟨hk, .inr ⟨u, x, (update_marked hx ho (marked_of_claims hxp)).mpr hu, hxp⟩⟩
  · intro u x p hu hxp
    rw [hholds, htop]
    exact h.owned u x p ((update_marked hx ho (marked_of_claims hxp)).mp hu) hxp
  · intro u v z w p huv hu hv hz hw
    exact h.apart u v z w p huv ((update_marked hx ho (marked_of_claims hz)).mp hu)
      ((update_marked hx ho (marked_of_claims hw)).mp hv) hz hw
  · intro u x p hu hxp
    rw [htop]
    exact h.clearing u x p ((update_marked hx ho (marked_of_clears hxp)).mp hu) hxp
  · rw [hbottom, hcurrent, hcells, hcap]
    intro x i hu hi
    exact h.left x i ((update_marked hx ho (marked_of_rest hi)).mp hu) hi
  · intro item old hu
    have hl := (update_marked hx ho rfl).mp hu
    have hold : s'.cells old = s.cells old := by
      unfold Shared.cells
      rw [hheap old (h.inv.spare _ old hl rfl).1]
    rw [hold]
    exact h.emptied item old hl
  · rw [hleaked]
    exact h.leaked

/-- A step that moves no node. It may claim positions at the top of the range. -/
theorem control (h : Exact owner s l) (hinv : Inv owner s' (Function.update l t o))
    (hidle : copies (l owner) = none) (hidle' : copies (Function.update l t o owner) = none)
    (hopen : ∀ item old, Function.update l t o owner ≠ some (.growDelete item old))
    (hcurrent : s'.current = s.current) (hcap : s'.cap s.current = s.cap s.current)
    (hdata : (s'.cells s.current).data = (s.cells s.current).data)
    (hlim : limit s' (Function.update l t o owner) = limit s (l owner))
    (htop : s.top ≤ s'.top) (hle : s'.top ≤ limit s (l owner))
    (hround : ∀ p, s'.top ≤ p → p < limit s (l owner) → p < s'.bottom →
      (p < s.bottom → s.roundAt s.current p = p + 1) → s'.roundAt s.current p = p + 1)
    (hx : ∀ x, l t = some x → x.claims = none)
    (hnew : ∀ p, s.top ≤ p → p < s'.top → ∃ y, o = some y ∧ y.claims = some p)
    (hclaims : ∀ y p, o = some y → y.claims = some p → s.top ≤ p ∧ p < s'.top)
    (hclears : ∀ y, o = some y → y.clears = none) (hleaked : s'.leaked = s.leaked) :
    Exact owner s' (Function.update l t o) := by
  have hdataAt : s'.dataAt s.current = s.dataAt s.current := by
    funext p; unfold Shared.dataAt; rw [hcap, hdata]
  have hholds : ∀ p, Holds s' (Function.update l t o owner) p ↔ Holds s (l owner) p := fun p => by
    rw [holds_of_idle hidle, holds_of_idle hidle', hcurrent, hdataAt]
  have hother : ∀ u z p, l u = some z → z.claims = some p → u ≠ t := by
    rintro u z p hu hz rfl
    rw [hx z hu] at hz
    cases hz
  constructor
  · exact hinv
  · rw [hlim]
    exact hle
  · rw [hlim]
    exact fun p hp hlt => (hholds p).mpr (h.filled p (htop.trans hp) hlt)
  · rw [hlim, hcurrent]
    exact fun _ p hp hlt hb =>
      hround p hp hlt hb fun hb' => h.rounds hidle p (htop.trans hp) hlt hb'
  · rw [hlim, hcurrent, hcap, hdata]
    intro _ k n hn
    obtain ⟨hk, ⟨hge, hlt⟩ | ⟨u, z, hu, hz⟩⟩ := h.placed hidle k n hn
    · refine ⟨hk, ?_⟩
      by_cases hp : s'.top ≤ n.pos
      · exact .inl ⟨hp, hlt⟩
      · obtain ⟨y, hy, hyp⟩ := hnew n.pos hge (by omega)
        exact .inr ⟨t, y, by rw [Function.update_self, hy], hyp⟩
    · exact ⟨hk, .inr ⟨u, z, by rw [Function.update_of_ne (hother u z _ hu hz), hu], hz⟩⟩
  · intro u z p hu hz
    rw [hholds]
    rcases update_eq_some hu with ⟨_, ho⟩ | ⟨_, hu⟩
    · obtain ⟨hge, hlt⟩ := hclaims z p ho hz
      exact ⟨hlt, h.filled p hge (hlt.trans_le hle)⟩
    · obtain ⟨hlt, hp⟩ := h.owned u z p hu hz
      exact ⟨hlt.trans_le htop, hp⟩
  · intro u v z w p huv hu' hv' hz hw
    rcases update_eq_some hu' with ⟨rfl, ho⟩ | ⟨_, hu⟩ <;>
      rcases update_eq_some hv' with ⟨hvt, ho'⟩ | ⟨_, hv⟩
    · exact huv hvt.symm
    · have := (hclaims z p ho hz).1
      have := (h.owned v w p hv hw).1
      omega
    · have := (hclaims w p ho' hw).1
      have := (h.owned u z p hu hz).1
      omega
    · exact h.apart u v z w p huv hu hv hz hw
  · intro u z p hu hz
    rcases update_eq_some hu with ⟨_, ho⟩ | ⟨_, hu⟩
    · rw [hclears z ho] at hz
      cases hz
    · exact (h.clearing u z p hu hz).trans_le htop
  · intro z i hu hi
    rw [hu] at hidle'
    exact absurd hidle' (copying_of_rest hi)
  · exact fun item old hu => absurd hu (hopen item old)
  · rw [hleaked]
    exact h.leaked

/-- The thread that has the position to itself takes its node. -/
theorem take (h : Exact owner s l) {pos : ℕ} (hinv : Inv owner s' (Function.update l t (some y)))
    (hidle : copies (l owner) = none)
    (hidle' : copies (Function.update l t (some y) owner) = none)
    (hopen : ∀ item old, Function.update l t (some y) owner ≠ some (.growDelete item old))
    (hpos : Holds s (l owner) pos) (hx : l t = some x) (hxc : ∀ p, x.claims = some p → p = pos)
    (halone : ∀ u z, u ≠ t → l u = some z → z.claims ≠ some pos) (hyc : y.claims = none)
    (hyr : ∀ p, y.clears = some p → p < s.top) (hcurrent : s'.current = s.current)
    (hcap : s'.cap s.current = s.cap s.current)
    (hdata : (s'.cells s.current).data =
      Function.update (s.cells s.current).data ((s.cap s.current).slot pos) none)
    (hround : (s'.cells s.current).round = (s.cells s.current).round) (htop : s'.top = s.top)
    (hbottom : s'.bottom = s.bottom) (hle : s.top ≤ limit s' (Function.update l t (some y) owner))
    (hlim : limit s' (Function.update l t (some y) owner) ≤ limit s (l owner))
    (hrange : ∀ q, s.top ≤ q → q < limit s (l owner) →
      (q < limit s' (Function.update l t (some y) owner) ↔ q ≠ pos))
    (hleaked : s'.leaked = s.leaked) : Exact owner s' (Function.update l t (some y)) := by
  have hkept : ∀ q, q ≠ pos → Holds s (l owner) q →
      Holds s' (Function.update l t (some y) owner) q := by
    intro q hq hh
    have hne : (s.cap s.current).slot q ≠ (s.cap s.current).slot pos :=
      fun he => hq (Holds.unique hidle hh hpos he)
    rw [holds_of_idle hidle] at hh
    rw [holds_of_idle hidle', hcurrent]
    unfold Shared.dataAt at hh ⊢
    rw [hcap, hdata, Function.update_of_ne hne]
    exact hh
  have hother : ∀ u z p, Function.update l t (some y) u = some z → z.claims = some p →
      u ≠ t ∧ l u = some z := by
    intro u z p hu hz
    rcases update_eq_some hu with ⟨_, ho⟩ | ⟨hne, hu⟩
    · obtain rfl := Option.some.inj ho
      rw [hyc] at hz
      cases hz
    · exact ⟨hne, hu⟩
  constructor
  · exact hinv
  · rw [htop]
    exact hle
  · intro q hq hlt
    rw [htop] at hq
    have hlt' := hlt.trans_le hlim
    exact hkept q ((hrange q hq hlt').mp hlt) (h.filled q hq hlt')
  · rw [htop, hcurrent, hbottom]
    intro _ q hq hlt hb
    unfold Shared.roundAt
    rw [hcap, hround]
    exact h.rounds hidle q hq (hlt.trans_le hlim) hb
  · rw [hcurrent, hcap, hdata, htop]
    intro _ k n hn
    have hk : k ≠ (s.cap s.current).slot pos := by
      rintro rfl
      rw [Function.update_self] at hn
      cases hn
    rw [Function.update_of_ne hk] at hn
    obtain ⟨hkn, hor⟩ := h.placed hidle k n hn
    have hnp : n.pos ≠ pos := by
      rintro rfl
      exact hk hkn.symm
    refine ⟨hkn, ?_⟩
    rcases hor with ⟨hge, hlt⟩ | ⟨u, z, hu, hz⟩
    · exact .inl ⟨hge, (hrange _ hge hlt).mpr hnp⟩
    · refine .inr ⟨u, z, ?_, hz⟩
      rw [Function.update_of_ne, hu]
      rintro rfl
      rw [hx, Option.some.injEq] at hu
      subst hu
      exact hnp (hxc _ hz)
  · intro u z p hu hz
    obtain ⟨hne, hu⟩ := hother u z p hu hz
    obtain ⟨hlt, hp⟩ := h.owned u z p hu hz
    rw [htop]
    refine ⟨hlt, hkept p ?_ hp⟩
    rintro rfl
    exact halone u z hne hu hz
  · intro u v z w p huv hu hv hz hw
    exact h.apart u v z w p huv (hother u z p hu hz).2 (hother v w p hv hw).2 hz hw
  · intro u z p hu hz
    rw [htop]
    rcases update_eq_some hu with ⟨_, ho⟩ | ⟨_, hu⟩
    · obtain rfl := Option.some.inj ho
      exact hyr p hz
    · exact h.clearing u z p hu hz
  · intro z i hu hi
    rw [hu] at hidle'
    exact absurd hidle' (copying_of_rest hi)
  · exact fun item old hu => absurd hu (hopen item old)
  · rw [hleaked]
    exact h.leaked

/-- A step of the owner in its window that ends at a copying instruction. -/
theorem copy (h : Exact owner s l) (hinv : Inv owner s' (Function.update l owner (some y)))
    (hx : l owner = some x) (hq : x.quiesced = true) (hy : y.copying ≠ none)
    (htop : s'.top = s.top) (hbottom : s'.bottom = s.bottom) (hcurrent : s'.current = s.current)
    (hcap : s'.cap s.current = s.cap s.current)
    (hview : ∀ p, s'.window ((s.cap s.current).slot p) = view s (l owner) p)
    (hleft : ∀ i, y.rest s.bottom = some i → ∀ k n, (s'.cells s.current).data k = some n →
      ∃ j, i ≤ j ∧ j < s.bottom ∧ k = (s.cap s.current).slot j)
    (hleaked : s'.leaked = s.leaked) : Exact owner s' (Function.update l owner (some y)) := by
  have hnone := h.no_claims hx hq
  have hlim : limit s (l owner) = s.bottom := by
    rw [hx]
    cases x <;> first | rfl | cases hq
  have hcopies : copies (Function.update l owner (some y) owner) ≠ none := by
    rw [Function.update_self]
    exact hy
  have hlim' : limit s' (Function.update l owner (some y) owner) = s.bottom := by
    rw [Function.update_self, ← hbottom]
    cases y <;> first | rfl | exact absurd rfl hy
  have hyc : y.claims = none ∧ y.clears = none := by
    constructor <;> cases y <;> first | rfl | exact absurd rfl hy
  have hall : ∀ u z, Function.update l owner (some y) u = some z →
      z.claims = none ∧ z.clears = none := by
    intro u z hu
    rcases update_eq_some hu with ⟨_, ho⟩ | ⟨_, hu⟩
    · exact Option.some.inj ho ▸ hyc
    · exact hnone u z hu
  constructor
  · exact hinv
  · rw [hlim', htop, ← hlim]
    exact h.top_le
  · rw [hlim', htop]
    intro p hp hlt
    have hh := h.filled p hp (by omega)
    unfold Holds at hh ⊢
    rw [← hview] at hh
    unfold view
    obtain ⟨t, ht⟩ := Option.ne_none_iff_exists'.mp hcopies
    rw [ht]
    show (s'.window _).map Node.pos = some p
    rw [hcurrent, hcap]
    exact hh
  · exact fun hc => absurd hc hcopies
  · exact fun hc => absurd hc hcopies
  · intro u z p hu hz
    rw [(hall u z hu).1] at hz
    cases hz
  · intro u v z w p _ hu _ hz
    rw [(hall u z hu).1] at hz
    cases hz
  · intro u z p hu hz
    rw [(hall u z hu).2] at hz
    cases hz
  · rw [hcurrent, hcap, hbottom, Function.update_self]
    rintro _ i ⟨⟩ hi
    exact hleft i hi
  · intro item old hu
    rw [Function.update_self, Option.some.injEq] at hu
    subst hu
    exact absurd rfl hy
  · rw [hleaked]
    exact h.leaked

/-! ## Steps of a thief -/

omit [DecidableEq Tid] in
theorem quiet_at [DecidableEq Tid] (h : Exact owner s l)
    (hinv : Inv owner s' (Function.update l t (some y)))
    (hx : l t = some x) (hxm : x.marked = false) (hym : y.marked = false) (htop : s'.top = s.top)
    (hbottom : s'.bottom = s.bottom) (hcurrent : s'.current = s.current) (hheap : s'.heap = s.heap)
    (hwindow : s'.window = s.window) (hleaked : s'.leaked = s.leaked) :
    Exact owner s' (Function.update l t (some y)) :=
  h.quiet hinv (hx ▸ plainly_some hxm) (plainly_some hym) htop hbottom hcurrent
    (fun a _ => by rw [hheap]) hwindow hleaked

/-- What the steps of a thief past the gate know of the owner. -/
theorem around_thief (h : Exact owner s l) (s' : Shared α) (y : Local α) (hx : l t = some x) (hin : x.inside = true)
    (hbottom : s'.bottom = s.bottom) (hxl : limit s (some x) = s.bottom)
    (hyl : limit s (some y) = s.bottom) (hyc : y.copying = none)
    (hyd : ∀ item old, y ≠ .growDelete item old) :
    copies (l owner) = none ∧ copies (Function.update l t (some y) owner) = none ∧
      (∀ item old, Function.update l t (some y) owner ≠ some (.growDelete item old)) ∧
      limit s' (Function.update l t (some y) owner) = limit s (l owner) := by
  have hidle := h.idle_of_inside hx hin
  have hxc : copies (l t) = none := by
    rw [hx]
    show x.copying = none
    by_contra hc
    have hxo : x.ofOwner = true := by cases x <;> first | rfl | exact absurd rfl hc
    cases x <;> first | exact absurd rfl hc | cases hin
  refine ⟨hidle, ?_, ?_, ?_⟩
  · rw [update_congr copies (show copies (some y) = copies (l t) by rw [hxc]; exact hyc)]
    exact hidle
  · intro item old hu
    rcases update_eq_some hu with ⟨_, ho⟩ | ⟨_, hu⟩
    · exact hyd item old (Option.some.inj ho)
    · rw [h.inv.quiet _ hu rfl t x hx] at hin
      cases hin
  · have he : limit s' = limit s := by funext o; unfold limit; rw [hbottom]
    rw [he]
    exact update_congr _ (by rw [hx, hxl, hyl]) owner

/-- Every step that is not the owner's and takes no position twice keeps the range exact. -/
theorem step_thief (h : Exact owner s l) (hx : l t = some x) (hown : x.ofOwner = false)
    (hr : result x = none) (hok : NoDoubleTake s x) (b : Bool) :
    Exact owner (step b s x).1 (Function.update l t (some (step b s x).2)) := by
  have hinv := h.inv.step_thief hx hown hr b
  cases x with
  | enterLoadGate k =>
    revert hinv
    simp only [step]
    split <;> intro hinv
    · exact h.quiet_at hinv hx rfl rfl rfl rfl rfl rfl rfl rfl
    · exact h.quiet_at hinv hx rfl rfl rfl rfl rfl rfl rfl rfl
  | enterAdd k => exact h.quiet_at hinv hx rfl rfl rfl rfl rfl rfl rfl rfl
  | enterRecheck k =>
    revert hinv
    simp only [step]
    split <;> intro hinv
    · exact h.quiet_at hinv hx rfl rfl rfl rfl rfl rfl rfl rfl
    · exact h.quiet_at hinv hx rfl rfl rfl rfl rfl rfl rfl rfl
  | enterSub k => exact h.quiet_at hinv hx rfl rfl rfl rfl rfl rfl rfl rfl
  | loadTop k => exact h.quiet_at hinv hx rfl rfl rfl rfl rfl rfl rfl rfl
  | loadArray k t => exact h.quiet_at hinv hx rfl rfl rfl rfl rfl rfl rfl rfl
  | loadRound k t a =>
    revert hinv
    cases k with
    | empty => exact fun hinv => h.quiet_at hinv hx rfl rfl rfl rfl rfl rfl rfl rfl
    | steal | batch =>
      simp only [step]
      split <;> intro hinv
      · exact h.quiet_at hinv hx rfl rfl rfl rfl rfl rfl rfl rfl
      · exact h.quiet_at hinv hx rfl rfl rfl rfl rfl rfl rfl rfl
  | claim k t a =>
    obtain rfl : a = s.array := h.inv.arrayOf _ _ a hx rfl
    revert hinv
    simp only [step]
    split <;> intro hinv
    next htop =>
      obtain ⟨hidle, hidle', hopen, hlim⟩ :=
        h.around_thief { s with top := t + 1 } (.exchange k t s.array) hx rfl rfl rfl
          rfl rfl (by simp)
      have hlt : t < limit s (l owner) := by
        obtain ⟨n, hn, hpos⟩ := Option.map_eq_some_iff.mp (hok htop)
        rw [← h.inv.current] at hn
        obtain ⟨_, ⟨_, hlt⟩ | ⟨u, z, hu, hz⟩⟩ := h.placed hidle _ n hn
        · exact hpos ▸ hlt
        · have := (h.owned u z _ hu hz).1
          omega
      refine h.control hinv hidle hidle' hopen rfl rfl rfl hlim (by show s.top ≤ t + 1; omega) hlt
        (fun p _ _ hb hp => hp hb) ?_ ?_ ?_ ?_ rfl
      · intro x hx'
        rw [hx, Option.some.injEq] at hx'
        subst hx'
        rfl
      · intro p hp hpt
        obtain rfl : p = t := by
          have : p < t + 1 := hpt
          omega
        exact ⟨_, rfl, rfl⟩
      · rintro _ p ⟨⟩ ⟨⟩
        exact ⟨htop.le, Nat.lt_succ_self _⟩
      · rintro _ ⟨⟩
        rfl
    next => exact h.quiet_at hinv hx rfl rfl rfl rfl rfl rfl rfl rfl
  | exchange k t a =>
    obtain rfl : a = s.array := h.inv.arrayOf _ _ a hx rfl
    obtain ⟨htop, hpos⟩ := h.owned _ _ t hx rfl
    obtain ⟨p, hp, _⟩ := (holds_of_idle (h.idle_of_inside hx rfl)).mp hpos
    rw [h.inv.current] at hp
    revert hinv
    simp only [step, hp]
    intro hinv
    obtain ⟨hidle, hidle', hopen, hlim⟩ :=
      h.around_thief (s.setData s.array t none) (.clearRound k t s.array p) hx rfl rfl
        rfl rfl rfl (by simp)
    refine h.take hinv hidle hidle' hopen hpos hx (fun p hp => (Option.some.inj hp).symm) ?_ rfl
      ?_ rfl (s.setData_cap ..) ?_ (s.setData_round ..) rfl rfl ?_ hlim.le ?_ rfl
    · exact fun u z hne hu => h.apart _ u _ z t (Ne.symm hne) hx hu rfl
    · rintro p ⟨⟩
      exact htop
    · rw [Shared.setData_data, h.inv.current, if_pos rfl]
    · rw [hlim]
      exact h.top_le
    · intro q hq hlt
      rw [hlim]
      exact ⟨fun _ => by omega, fun _ => hlt⟩
  | clearRound k t a p =>
    obtain rfl : a = s.array := h.inv.arrayOf _ _ a hx rfl
    have htop := h.clearing _ _ t hx rfl
    obtain ⟨hidle, hidle', hopen, hlim⟩ :=
      h.around_thief (s.clearRound s.array t) (.finish k p) hx rfl rfl rfl rfl rfl (by simp)
    refine h.control hinv hidle hidle' hopen rfl (s.clearRound_cap ..) (s.clearRound_data ..) hlim
      le_rfl h.top_le ?_ ?_ ?_ ?_ ?_ rfl
    · intro q hq hlt hb hr
      have hq : s.top ≤ q := hq
      have hr := hr hb
      rw [h.inv.current] at hr ⊢
      exact Shared.clearRound_roundAt hr (by omega)
    · intro x hx'
      rw [hx, Option.some.injEq] at hx'
      subst hx'
      rfl
    · intro q hq hlt
      exact absurd hlt (not_lt.mpr hq)
    · rintro _ q ⟨⟩ ⟨⟩
    · rintro _ ⟨⟩
      rfl
  | finish k p =>
    revert hinv
    simp only [step]
    rcases Inv.succeeded_cases k p.item with ⟨k', he⟩ | ⟨r, he⟩ <;> rw [he] <;> intro hinv
    · exact h.quiet_at hinv hx rfl rfl rfl rfl rfl rfl rfl rfl
    · exact h.quiet_at hinv hx rfl rfl rfl rfl rfl rfl rfl rfl
  | exit r => exact h.quiet_at hinv hx rfl rfl rfl rfl rfl rfl rfl rfl
  | done r => cases hr
  | _ => cases hown

/-! ## The owner's steps -/

theorem control_own (h : Exact owner s l) (hinv : Inv owner s' (Function.update l owner (some y)))
    (hx : l owner = some x) (hxc : x.copying = none) (hyc : y.copying = none)
    (hyd : ∀ item old, y ≠ .growDelete item old)
    (hcurrent : s'.current = s.current) (hcap : s'.cap s.current = s.cap s.current)
    (hdata : (s'.cells s.current).data = (s.cells s.current).data)
    (hlim : limit s' (some y) = limit s (some x))
    (htop : s.top ≤ s'.top) (hle : s'.top ≤ limit s (some x))
    (hround : ∀ p, s'.top ≤ p → p < limit s (some x) → p < s'.bottom →
      (p < s.bottom → s.roundAt s.current p = p + 1) → s'.roundAt s.current p = p + 1)
    (hxn : x.claims = none) (hnew : ∀ p, s.top ≤ p → p < s'.top → y.claims = some p)
    (hclaims : ∀ p, y.claims = some p → s.top ≤ p ∧ p < s'.top)
    (hclears : y.clears = none) (hleaked : s'.leaked = s.leaked) :
    Exact owner s' (Function.update l owner (some y)) := by
  have hidle : copies (l owner) = none := by rw [hx]; exact hxc
  have hidle' : copies (Function.update l owner (some y) owner) = none := by
    rw [Function.update_self]
    exact hyc
  rw [← hx] at hle hround
  refine h.control hinv hidle hidle' ?_ hcurrent hcap hdata ?_ htop hle hround ?_
    (fun p hp hpt => ⟨y, rfl, hnew p hp hpt⟩) ?_ ?_ hleaked
  · intro item old hu
    rw [Function.update_self] at hu
    exact hyd item old (Option.some.inj hu)
  · rw [Function.update_self, hlim, hx]
  · intro z hz
    rw [hx, Option.some.injEq] at hz
    exact hz ▸ hxn
  · rintro _ p ⟨⟩ hp
    exact hclaims p hp
  · rintro _ ⟨⟩
    exact hclears

/-- The owner takes the node of a position that is its own. -/
theorem take_own (h : Exact owner s l) {pos : ℕ}
    (hinv : Inv owner (s.setData s.current pos none) (Function.update l owner (some y)))
    (hx : l owner = some x) (hxc : x.copying = none) (hyc : y.copying = none)
    (hyd : ∀ item old, y ≠ .growDelete item old) (hpos : Holds s (some x) pos)
    (hxp : ∀ p, x.claims = some p → p = pos)
    (halone : ∀ u z, u ≠ owner → l u = some z → z.claims ≠ some pos) (hyn : y.claims = none)
    (hyr : ∀ p, y.clears = some p → p < s.top)
    (hle : s.top ≤ limit s (some y)) (hlim : limit s (some y) ≤ limit s (some x))
    (hrange : ∀ q, s.top ≤ q → q < limit s (some x) → (q < limit s (some y) ↔ q ≠ pos)) :
    Exact owner (s.setData s.current pos none) (Function.update l owner (some y)) := by
  have hself : limit (s.setData s.current pos none) (Function.update l owner (some y) owner) =
      limit s (some y) := by
    rw [Function.update_self]
    rfl
  refine h.take hinv (by rw [hx]; exact hxc) (by rw [Function.update_self]; exact hyc) ?_
    (by rw [hx]; exact hpos) hx hxp halone hyn hyr rfl (s.setData_cap ..) ?_ (s.setData_round ..)
    rfl rfl (by rw [hself]; exact hle) (by rw [hself, hx]; exact hlim)
    (by rw [hself, hx]; exact hrange) rfl
  · intro item old hu
    rw [Function.update_self] at hu
    exact hyd item old (Option.some.inj hu)
  · rw [Shared.setData_data, if_pos rfl]

theorem step_pushStoreData (h : Exact owner s l) {item : α}
    (hx : l owner = some (.pushStoreData item)) (b : Bool) :
    Exact owner (step b s (.pushStoreData item)).1
      (Function.update l owner (some (step b s (.pushStoreData item)).2)) := by
  have hinv := h.inv.step_owner hx rfl b
  obtain ⟨hroom, hnone⟩ := h.inv.phase_at hx
  have hidle : copies (l owner) = none := by rw [hx]; rfl
  have hidle' : copies (Function.update l owner (some (Local.pushStoreRound : Local α)) owner) =
      none := by rw [Function.update_self]; rfl
  have hlim : limit s (l owner) = s.bottom := by rw [hx]; rfl
  set n : Node α := ⟨s.pushed.length, s.bottom, item⟩ with hn
  set s' : Shared α := { s.setData s.current s.bottom (some n) with pushed := s.pushed ++ [n] }
    with hs'
  have hlim' : limit s' (Function.update l owner (some Local.pushStoreRound) owner) =
      s.bottom + 1 := by rw [Function.update_self]; rfl
  have hcap : s'.cap s.current = s.cap s.current := s.setData_cap ..
  have hdata : (s'.cells s.current).data = Function.update (s.cells s.current).data
      ((s.cap s.current).slot s.bottom) (some n) := by
    show ((s.setData _ _ _).cells s.current).data = _
    rw [Shared.setData_data, if_pos rfl]
  have hround : (s'.cells s.current).round = (s.cells s.current).round := s.setData_round ..
  have hnew : Holds s' (Function.update l owner (some Local.pushStoreRound) owner) s.bottom := by
    refine (holds_of_idle hidle').mpr ⟨n, ?_, rfl⟩
    show (s'.cells s.current).data ((s'.cap s.current).slot s.bottom) = some n
    rw [hcap, hdata, Function.update_self]
  have hkept : ∀ p, Holds s (l owner) p →
      Holds s' (Function.update l owner (some Local.pushStoreRound) owner) p := by
    intro p hp
    obtain ⟨m, hm, hpos⟩ := (holds_of_idle hidle).mp hp
    refine (holds_of_idle hidle').mpr ⟨m, ?_, hpos⟩
    have hne : (s.cap s.current).slot p ≠ (s.cap s.current).slot s.bottom := by
      intro he
      unfold Shared.dataAt at hm hnone
      rw [he, hnone] at hm
      cases hm
    show (s'.cells s.current).data ((s'.cap s.current).slot p) = some m
    rw [hcap, hdata, Function.update_of_ne hne]
    exact hm
  have hother : ∀ u z p, Function.update l owner (some Local.pushStoreRound) u = some z →
      z.claims = some p → l u = some z := by
    intro u z p hu hz
    rcases update_eq_some hu with ⟨_, ho⟩ | ⟨_, hu⟩
    · obtain rfl := Option.some.inj ho
      cases hz
    · exact hu
  show Exact owner s' (Function.update l owner (some .pushStoreRound))
  constructor
  · exact hinv
  · show s.top ≤ _
    have := h.top_le
    omega
  · intro p hp hlt
    have hp : s.top ≤ p := hp
    by_cases he : p = s.bottom
    · rw [he]
      exact hnew
    · exact hkept p (h.filled p hp (by omega))
  · intro _ p hp hlt hb
    have hp : s.top ≤ p := hp
    have hb : p < s.bottom := hb
    show (s'.cells s.current).round ((s'.cap s.current).slot p) = p + 1
    rw [hcap, hround]
    exact h.rounds hidle p hp (by omega) hb
  · intro _ k m hm
    have hm : (s'.cells s.current).data k = some m := hm
    show (s'.cap s.current).slot m.pos = k ∧ _
    rw [hcap]
    rw [hdata] at hm
    by_cases hk : k = (s.cap s.current).slot s.bottom
    · subst hk
      rw [Function.update_self, Option.some.injEq] at hm
      subst hm
      have := h.top_le
      exact ⟨rfl, .inl ⟨show s.top ≤ s.bottom by omega, by rw [hlim']; exact Nat.lt_succ_self _⟩⟩
    · rw [Function.update_of_ne hk] at hm
      obtain ⟨hkm, ⟨hge, hlt⟩ | ⟨u, z, hu, hz⟩⟩ := h.placed hidle k m hm
      · exact ⟨hkm, .inl ⟨hge, by omega⟩⟩
      · refine ⟨hkm, .inr ⟨u, z, ?_, hz⟩⟩
        rw [Function.update_of_ne, hu]
        rintro rfl
        rw [hx, Option.some.injEq] at hu
        subst hu
        cases hz
  · intro u z p hu hz
    obtain ⟨hlt, hp⟩ := h.owned u z p (hother u z p hu hz) hz
    exact ⟨hlt, hkept p hp⟩
  · intro u v z w p huv hu hv hz hw
    exact h.apart u v z w p huv (hother u z p hu hz) (hother v w p hv hw) hz hw
  · intro u z p hu hz
    rcases update_eq_some hu with ⟨_, ho⟩ | ⟨_, hu⟩
    · obtain rfl := Option.some.inj ho
      cases hz
    · exact h.clearing u z p hu hz
  · intro z i hu hi
    rw [Function.update_self] at hu
    obtain rfl := Option.some.inj hu
    cases hi
  · intro item' old hu
    rw [Function.update_self] at hu
    cases hu
  · exact h.leaked

theorem step_growPublish (h : Exact owner s l) {item : α} {n t : ℕ}
    (hx : l owner = some (.growPublish item n t)) (b : Bool) :
    Exact owner (step b s (.growPublish item n t)).1
      (Function.update l owner (some (step b s (.growPublish item n t)).2)) := by
  have hinv := h.inv.step_owner hx rfl b
  obtain ⟨i, hc, hle, hi⟩ := h.inv.phase_at hx
  have hnone := h.no_claims hx rfl
  have hroom := h.inv.room
  have hlim : limit s (l owner) = s.bottom := by rw [hx]; rfl
  have hview : ∀ p, view s (l owner) p = s.window ((s.cap s.current).slot p) := fun p => by
    rw [hx]; rfl
  have hidle' : copies (Function.update l owner (some (Local.growDelete item s.current)) owner) =
      none := by rw [Function.update_self]; rfl
  set s' : Shared α := { s with array := n, current := n } with hs'
  have hlim' : limit s' (Function.update l owner (some (.growDelete item s.current)) owner) =
      s.bottom := by rw [Function.update_self]; rfl
  have hin : ∀ p, s.top ≤ p → p < s.bottom → ∃ m, s.dataAt n p = some m ∧ m.pos = p ∧
      s.roundAt n p = p + 1 := by
    intro p hp hlt
    have hh := h.filled p hp (by omega)
    unfold Holds at hh
    rw [hview] at hh
    obtain ⟨m, hm, hpos⟩ := Option.map_eq_some_iff.mp hh
    have htp : t ≤ p := hc.top_eq ▸ hp
    have hmoved := (hc.moved p htp (by omega)).1.trans hm
    exact ⟨m, hmoved, hpos, hc.rounds p htp (by omega) (by rw [hmoved]; simp)⟩
  have hclaims : ∀ u z, Function.update l owner (some (Local.growDelete item s.current)) u =
      some z → z.claims = none ∧ z.clears = none := by
    intro u z hu
    rcases update_eq_some hu with ⟨_, ho⟩ | ⟨_, hu⟩
    · obtain rfl := Option.some.inj ho
      exact ⟨rfl, rfl⟩
    · exact hnone u z hu
  show Exact owner s' (Function.update l owner (some (.growDelete item s.current)))
  constructor
  · exact hinv
  · show s.top ≤ _
    have := h.top_le
    omega
  · intro p hp hlt
    obtain ⟨m, hm, hpos, _⟩ := hin p hp (by omega)
    exact (holds_of_idle hidle').mpr ⟨m, hm, hpos⟩
  · intro _ p hp _ hb
    obtain ⟨m, hm, hpos, hr⟩ := hin p hp hb
    exact hr
  · intro _ k m hm
    obtain ⟨j, hj, hji, hkj⟩ := hc.only k m hm
    have hjb : j < s.bottom := by omega
    have hjt : s.top ≤ j := by rw [hc.top_eq]; exact hj
    obtain ⟨m', hm', hpos, _⟩ := hin j hjt hjb
    have hmm : m = m' := by
      have hm : (s.cells n).data k = some m := hm
      unfold Shared.dataAt at hm'
      rw [← hkj, hm, Option.some.injEq] at hm'
      exact hm'
    subst hmm
    refine ⟨?_, .inl ⟨?_, ?_⟩⟩
    · rw [hpos]
      exact hkj.symm
    · rw [hpos]
      exact hjt
    · omega
  · intro u z p hu hz
    rw [(hclaims u z hu).1] at hz
    cases hz
  · intro u v z w p _ hu _ hz
    rw [(hclaims u z hu).1] at hz
    cases hz
  · intro u z p hu hz
    rw [(hclaims u z hu).2] at hz
    cases hz
  · intro z i hu hi
    rw [Function.update_self] at hu
    obtain rfl := Option.some.inj hu
    cases hi
  · intro item' old hu k
    rw [Function.update_self, Option.some.injEq] at hu
    cases hu
    show (s.cells s.current).data k = none
    cases hk : (s.cells s.current).data k with
    | none => rfl
    | some m =>
      obtain ⟨j, hj, hjb, _⟩ := h.left _ s.bottom hx rfl k m hk
      omega
  · exact h.leaked

theorem step_growDelete (h : Exact owner s l) {item : α} {old : ℕ}
    (hx : l owner = some (.growDelete item old)) (b : Bool) :
    Exact owner (step b s (.growDelete item old)).1
      (Function.update l owner (some (step b s (.growDelete item old)).2)) := by
  have hinv := h.inv.step_owner hx rfl b
  have hnone := h.no_claims hx rfl
  have hnodes : s.nodes old = [] := by
    have hstock : s.stock old = 0 := bag_eq_zero.mpr fun k _ => h.emptied item old hx k
    rw [← Multiset.coe_eq_zero, Shared.coe_nodes, hstock]
  have hidle : copies (l owner) = none := by rw [hx]; rfl
  have hidle' : copies (Function.update l owner (some (Local.growOpen item)) owner) = none := by
    rw [Function.update_self]; rfl
  have hlim : limit s (l owner) = s.bottom := by rw [hx]; rfl
  have hall : ∀ u z, Function.update l owner (some (Local.growOpen item)) u = some z →
      z.claims = none ∧ z.clears = none := by
    intro u z hu
    rcases update_eq_some hu with ⟨_, ho⟩ | ⟨_, hu⟩
    · obtain rfl := Option.some.inj ho
      exact ⟨rfl, rfl⟩
    · exact hnone u z hu
  set s' : Shared α := { s with freed := s.freed ++ [old], leaked := s.leaked ++ s.nodes old }
  show Exact owner s' (Function.update l owner (some (.growOpen item)))
  have hlim' : limit s' (Function.update l owner (some (.growOpen item)) owner) = s.bottom := by
    rw [Function.update_self]; rfl
  constructor
  · exact hinv
  · rw [hlim', ← hlim]
    exact h.top_le
  · intro p hp hlt
    have hh := (holds_of_idle hidle).mp (h.filled p hp (by omega))
    exact (holds_of_idle hidle').mpr hh
  · intro _ p hp hlt hb
    exact h.rounds hidle p hp (by omega) hb
  · intro _ k n hn
    obtain ⟨hk, ⟨hge, hlt⟩ | ⟨u, z, hu, hz⟩⟩ := h.placed hidle k n hn
    · exact ⟨hk, .inl ⟨hge, by omega⟩⟩
    · rw [(hnone u z hu).1] at hz
      cases hz
  · intro u z p hu hz
    rw [(hall u z hu).1] at hz
    cases hz
  · intro u v z w p _ hu _ hz
    rw [(hall u z hu).1] at hz
    cases hz
  · intro u z p hu hz
    rw [(hall u z hu).2] at hz
    cases hz
  · intro z i hu hi
    rw [Function.update_self] at hu
    obtain rfl := Option.some.inj hu
    cases hi
  · intro item' old' hu
    rw [Function.update_self] at hu
    cases hu
  · show s.leaked ++ s.nodes old = []
    rw [h.leaked, hnodes]
    rfl

/-- What the head of the copying loop says of the old array. -/
theorem rest_copyNext {item : α} {n t i j : ℕ} (h : (copyNext s item n t i).rest s.bottom = some j) :
    j ≤ i := by
  rcases copyNext_cases s item n t i with ⟨_, he⟩ | ⟨hle, he⟩ <;> rw [he] at h <;> cases h
  · exact le_rfl
  · exact hle

theorem copying_copyNext (s : Shared α) (item : α) (n t i : ℕ) :
    (copyNext s item n t i).copying ≠ none := by
  rcases copyNext_cases s item n t i with ⟨_, he⟩ | ⟨_, he⟩ <;> rw [he] <;>
    exact Option.some_ne_none _

theorem step_growLoadTop (h : Exact owner s l) {item : α} {n : ℕ}
    (hx : l owner = some (.growLoadTop item n)) (b : Bool) :
    Exact owner (step b s (.growLoadTop item n)).1
      (Function.update l owner (some (step b s (.growLoadTop item n)).2)) := by
  have hinv := h.inv.step_owner hx rfl b
  have hidle : copies (l owner) = none := by rw [hx]; rfl
  have hlim : limit s (l owner) = s.bottom := by rw [hx]; rfl
  refine h.copy hinv hx rfl (copying_copyNext _ _ _ _ _) rfl rfl rfl rfl ?_ ?_ rfl
  · intro p
    rw [view_of_idle hidle]
    rfl
  · intro i hi k m hm
    have hle : i ≤ s.top := rest_copyNext hi
    obtain ⟨hk, ⟨hge, hlt⟩ | ⟨u, z, hu, hz⟩⟩ := h.placed hidle k m hm
    · exact ⟨m.pos, by omega, by omega, hk.symm⟩
    · rw [(h.no_claims hx rfl u z hu).1] at hz
      cases hz

theorem step_growExchange (h : Exact owner s l) {item : α} {n t i : ℕ}
    (hx : l owner = some (.growExchange item n t i)) (b : Bool) :
    Exact owner (step b s (.growExchange item n t i)).1
      (Function.update l owner (some (step b s (.growExchange item n t i)).2)) := by
  have hinv := h.inv.step_owner hx rfl b
  have hview : ∀ p, view s (l owner) p = s.window ((s.cap s.current).slot p) := fun p => by
    rw [hx]; rfl
  have hleft : ∀ k m, ((s.setData s.current i none).cells s.current).data k = some m →
      ∃ j, i + 1 ≤ j ∧ j < s.bottom ∧ k = (s.cap s.current).slot j := by
    intro k m hm
    rw [Shared.setData_data, if_pos rfl] at hm
    have hk : k ≠ (s.cap s.current).slot i := by
      rintro rfl
      rw [Function.update_self] at hm
      cases hm
    rw [Function.update_of_ne hk] at hm
    obtain ⟨j, hj, hjb, hkj⟩ := h.left _ i hx rfl k m hm
    have hne : j ≠ i := by
      rintro rfl
      exact hk hkj
    exact ⟨j, by omega, hjb, hkj⟩
  revert hinv
  cases hp : s.dataAt s.current i with
  | none =>
    simp only [step, hp]
    intro hinv
    refine h.copy hinv hx rfl (copying_copyNext _ _ _ _ _) rfl rfl rfl (s.setData_cap ..)
      (fun p => (hview p).symm) ?_ rfl
    intro j hj k m hm
    obtain ⟨q, hq, hqb, hkq⟩ := hleft k m hm
    exact ⟨q, (rest_copyNext hj).trans hq, hqb, hkq⟩
  | some p =>
    simp only [step, hp]
    intro hinv
    refine h.copy hinv hx rfl (Option.some_ne_none _) rfl rfl rfl (s.setData_cap ..)
      (fun p => (hview p).symm) ?_ rfl
    rintro _ ⟨⟩
    exact hleft

theorem step_growStoreData (h : Exact owner s l) {item : α} {n t i : ℕ} {p : Node α}
    (hx : l owner = some (.growStoreData item n t i p)) (b : Bool) :
    Exact owner (step b s (.growStoreData item n t i p)).1
      (Function.update l owner (some (step b s (.growStoreData item n t i p)).2)) := by
  have hinv := h.inv.step_owner hx rfl b
  have hne : s.current ≠ n := by
    rw [h.inv.current]
    exact (h.inv.spare _ n hx rfl).2.1.symm
  refine h.copy hinv hx rfl (Option.some_ne_none _) rfl rfl rfl (s.setData_cap ..)
    (fun p => by rw [hx]; rfl) ?_ rfl
  rintro _ ⟨⟩ k m hm
  have hm : ((s.setData n i (some p)).cells s.current).data k = some m := hm
  rw [s.setData_other n s.current i (some p) hne] at hm
  exact h.left _ (i + 1) hx rfl k m hm

theorem step_growStoreRound (h : Exact owner s l) {item : α} {n t i : ℕ}
    (hx : l owner = some (.growStoreRound item n t i)) (b : Bool) :
    Exact owner (step b s (.growStoreRound item n t i)).1
      (Function.update l owner (some (step b s (.growStoreRound item n t i)).2)) := by
  have hinv := h.inv.step_owner hx rfl b
  refine h.copy hinv hx rfl (copying_copyNext _ _ _ _ _) rfl rfl rfl (s.setRound_cap ..)
    (fun p => by rw [hx]; rfl) ?_ rfl
  intro j hj k m hm
  have hm : ((s.setRound n i (i + 1)).cells s.current).data k = some m := hm
  rw [Shared.setRound_data] at hm
  obtain ⟨q, hq, hqb, hkq⟩ := h.left _ (i + 1) hx rfl k m hm
  exact ⟨q, (rest_copyNext hj).trans hq, hqb, hkq⟩

theorem step_pushStoreRound (h : Exact owner s l) (hx : l owner = some .pushStoreRound)
    (b : Bool) : Exact owner (step b s .pushStoreRound).1
      (Function.update l owner (some (step b s .pushStoreRound).2)) := by
  have hinv := h.inv.step_owner hx rfl b
  have hroom : s.bottom < s.top + (s.cap s.current).size := h.inv.phase_at hx
  have htop := h.top_le
  rw [hx] at htop
  refine h.control_own hinv hx rfl rfl nofun rfl (s.setRound_cap ..) (s.setRound_data ..) rfl le_rfl
    htop ?_ rfl (fun p hp hlt => absurd hlt (not_lt.mpr hp)) nofun rfl rfl
  intro p hp _ hb hr
  have hp : s.top ≤ p := hp
  have hb : p < s.bottom + 1 := hb
  show (s.setRound s.current s.bottom (s.bottom + 1)).roundAt s.current p = p + 1
  unfold Shared.roundAt at hr ⊢
  rw [Shared.setRound_cap, Shared.setRound_round, if_pos rfl]
  by_cases he : p = s.bottom
  · rw [he, Function.update_self]
  · rw [Function.update_of_ne]
    · exact hr (by omega)
    · exact fun hs => he ((s.cap s.current).slot_inj hs (by omega) (by omega))

theorem step_popTail (h : Exact owner s l) {pos : ℕ} (hx : l owner = some (.popTail pos))
    (hok : NoDoubleTake s (.popTail pos)) (b : Bool) :
    Exact owner (step b s (.popTail pos)).1
      (Function.update l owner (some (step b s (.popTail pos)).2)) := by
  have hinv := h.inv.step_owner hx rfl b
  have hb : s.bottom = pos + 1 := h.inv.phase_at hx
  revert hinv
  cases hp : s.dataAt s.current pos with
  | none =>
    simp only [step, hp]
    exact fun hinv => h.quiet_at hinv hx rfl rfl rfl rfl rfl rfl rfl rfl
  | some p =>
    simp only [step, hp]
    intro hinv
    have htop : s.top ≤ pos := by
      by_contra hlt
      have hnone : s.dataAt s.current pos = none := hok (by omega)
      rw [hp] at hnone
      cases hnone
    have hpos : Holds s (some (.popTail pos)) pos :=
      hx ▸ h.filled pos htop (by rw [hx]; show pos < s.bottom; omega)
    refine h.take_own hinv hx rfl rfl (by simp) hpos (by rintro _ ⟨⟩) ?_ rfl (by rintro _ ⟨⟩) htop
      (show pos ≤ s.bottom by omega) ?_
    · intro u z _ hu hz
      have := (h.owned u z pos hu hz).1
      omega
    · intro q hq hlt
      have hlt : q < s.bottom := hlt
      show q < pos ↔ q ≠ pos
      omega

theorem step_popTailClear (h : Exact owner s l) {pos : ℕ} {p : Node α}
    (hx : l owner = some (.popTailClear pos p)) (b : Bool) :
    Exact owner (step b s (.popTailClear pos p)).1
      (Function.update l owner (some (step b s (.popTailClear pos p)).2)) := by
  have hinv := h.inv.step_owner hx rfl b
  have hb : s.bottom = pos + 1 := h.inv.phase_at hx
  have htop := h.top_le
  rw [hx] at htop
  refine h.control_own hinv hx rfl rfl nofun rfl (s.clearRound_cap ..) (s.clearRound_data ..) rfl
    le_rfl htop ?_ rfl (fun q hq hlt => absurd hlt (not_lt.mpr hq)) nofun rfl rfl
  intro q _ hlt _ hr
  have hlt : q < pos := hlt
  exact Shared.clearRound_roundAt (hr (by omega)) (by omega)

theorem step_popClaim (h : Exact owner s l) {t : ℕ} (hx : l owner = some (.popClaim t))
    (b : Bool) : Exact owner (step b s (.popClaim t)).1
      (Function.update l owner (some (step b s (.popClaim t)).2)) := by
  have hinv := h.inv.step_owner hx rfl b
  have hb : s.bottom = t + 1 := h.inv.phase_at hx
  revert hinv
  simp only [step]
  split <;> intro hinv
  next htop =>
    refine h.control_own hinv hx rfl rfl (by simp) rfl rfl rfl rfl (by show s.top ≤ t + 1; omega)
      hb.ge (fun p _ _ hp hr => hr hp) rfl ?_ ?_ rfl rfl
    · intro p hp hlt
      obtain rfl : p = t := by
        have : p < t + 1 := hlt
        omega
      rfl
    · rintro p ⟨⟩
      exact ⟨htop.le, Nat.lt_succ_self _⟩
  next => exact h.quiet_at hinv hx rfl rfl rfl rfl rfl rfl rfl rfl

theorem step_popExchange (h : Exact owner s l) {t : ℕ} (hx : l owner = some (.popExchange t))
    (b : Bool) : Exact owner (step b s (.popExchange t)).1
      (Function.update l owner (some (step b s (.popExchange t)).2)) := by
  have hinv := h.inv.step_owner hx rfl b
  have hb : s.bottom = t + 1 := h.inv.phase_at hx
  obtain ⟨htop, hpos⟩ := h.owned owner _ t hx rfl
  have hle := h.top_le
  rw [hx] at hpos hle
  obtain ⟨p, hp, _⟩ := (holds_of_idle rfl).mp hpos
  revert hinv
  simp only [step, hp]
  have hstate : ({ s.setData s.current t none with bottom := t + 1 } : Shared α) =
      s.setData s.current t none := by
    rw [← hb]
    rfl
  rw [hstate]
  intro hinv
  refine h.take_own hinv hx rfl rfl (by simp) hpos (fun q hq => (Option.some.inj hq).symm) ?_ rfl ?_ hle
    le_rfl ?_
  · exact fun u z hne hu => h.apart owner u _ z t (Ne.symm hne) hx hu rfl
  · rintro q ⟨⟩
    exact htop
  · intro q hq hlt
    exact ⟨fun _ => by omega, fun _ => hlt⟩

theorem step_popClear (h : Exact owner s l) {t : ℕ} {p : Node α}
    (hx : l owner = some (.popClear t p)) (b : Bool) :
    Exact owner (step b s (.popClear t p)).1
      (Function.update l owner (some (step b s (.popClear t p)).2)) := by
  have hinv := h.inv.step_owner hx rfl b
  have hlt := h.clearing owner _ t hx rfl
  have htop := h.top_le
  rw [hx] at htop
  refine h.control_own hinv hx rfl rfl nofun rfl (s.clearRound_cap ..) (s.clearRound_data ..) rfl
    le_rfl htop ?_ rfl (fun q hq hlt => absurd hlt (not_lt.mpr hq)) nofun rfl rfl
  intro q hq _ hb hr
  have hq : s.top ≤ q := hq
  exact Shared.clearRound_roundAt (hr hb) (by omega)

theorem step_owner (h : Exact owner s l) (hx : l owner = some x) (hown : x.ofOwner = true)
    (hok : NoDoubleTake s x) (b : Bool) :
    Exact owner (step b s x).1 (Function.update l owner (some (step b s x).2)) := by
  have hinv := h.inv.step_owner hx hown b
  cases x with
  | pushLoadTop item =>
    revert hinv
    simp only [step]
    split <;> intro hinv
    · exact h.quiet_at hinv hx rfl rfl rfl rfl rfl rfl rfl rfl
    · exact h.quiet_at hinv hx rfl rfl rfl rfl rfl rfl rfl rfl
  | pushWait item =>
    revert hinv
    simp only [step]
    split <;> intro hinv
    · exact h.quiet_at hinv hx rfl rfl rfl rfl rfl rfl rfl rfl
    · exact h.quiet_at hinv hx rfl rfl rfl rfl rfl rfl rfl rfl
  | pushStoreData => exact h.step_pushStoreData hx b
  | pushStoreRound => exact h.step_pushStoreRound hx b
  | growAlloc item =>
    exact h.quiet hinv (hx ▸ plainly_some rfl) (plainly_some rfl) rfl rfl rfl
      (fun a ha => Function.update_of_ne (by omega) _ _) rfl rfl
  | growClose item n => exact h.quiet_at hinv hx rfl rfl rfl rfl rfl rfl rfl rfl
  | growAwait item n =>
    revert hinv
    simp only [step]
    split <;> intro hinv
    · exact h.quiet_at hinv hx rfl rfl rfl rfl rfl rfl rfl rfl
    · exact h.quiet_at hinv hx rfl rfl rfl rfl rfl rfl rfl rfl
  | growLoadTop => exact h.step_growLoadTop hx b
  | growExchange => exact h.step_growExchange hx b
  | growStoreData => exact h.step_growStoreData hx b
  | growStoreRound => exact h.step_growStoreRound hx b
  | growPublish => exact h.step_growPublish hx b
  | growDelete => exact h.step_growDelete hx b
  | growOpen item => exact h.quiet_at hinv hx rfl rfl rfl rfl rfl rfl rfl rfl
  | popLoadTop =>
    revert hinv
    simp only [step]
    split
    · exact fun hinv => h.quiet_at hinv hx rfl rfl rfl rfl rfl rfl rfl rfl
    · split
      · exact fun hinv => h.quiet_at hinv hx rfl rfl rfl rfl rfl rfl rfl rfl
      · split <;> intro hinv
        · exact h.quiet_at hinv hx rfl rfl rfl rfl rfl rfl rfl rfl
        · exact h.quiet_at hinv hx rfl rfl rfl rfl rfl rfl rfl rfl
  | popTail => exact h.step_popTail hx hok b
  | popTailClear => exact h.step_popTailClear hx b
  | popClaim => exact h.step_popClaim hx b
  | popExchange => exact h.step_popExchange hx b
  | popClear => exact h.step_popClear hx b
  | popFinish p => exact h.quiet_at hinv hx rfl rfl rfl rfl rfl rfl rfl rfl
  | _ => cases hown

end Exact

/-- Every step that takes no position twice keeps the range exact. -/
theorem exact_inductive [DecidableEq Tid] (owner : Tid) :
    object.Inductive (may owner) NoDoubleTake (Exact (α := α) owner) where
  call {s l t op} h hl hmay := by
    refine h.quiet (h.inv.call hl op hmay) (hl ▸ plainly_none) (plainly_some ?_) rfl rfl rfl
      (fun _ _ => rfl) rfl rfl
    cases op with
    | stealBatch max =>
      show (start (.stealBatch max)).marked = false
      simp only [start]
      split <;> rfl
    | _ => rfl
  step {s l t x} b h hx hr hok := by
    cases hown : x.ofOwner with
    | true =>
      obtain rfl := h.inv.only t x hx hown
      exact h.step_owner hx hown hok b
    | false => exact h.step_thief hx hown hr hok b
  ret {s l t x o} h hx hr := by
    cases x with
    | done o' =>
      exact h.quiet (h.inv.ret hx) (hx ▸ plainly_some rfl) plainly_none rfl rfl rfl
        (fun _ _ => rfl) rfl rfl
    | _ => cases hr

end LowLatency.WorkStealingQueue
