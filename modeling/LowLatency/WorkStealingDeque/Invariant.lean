import LowLatency.WorkStealingDeque.Basic

/-!
# The invariant of the deque

`Inv` is what every step of the owner and of the thieves keeps. Its centre is `limit`, the bottom
of the positions in use: `bottom_` itself, except while a pop has lowered `bottom_` without knowing
yet what it gets. A node sits at a position from `top_` to `limit`, or the operation that claimed
its position (`Local.claims`) is about to take it.
-/

namespace LowLatency.WorkStealingDeque

open Concurrency

variable {α Tid : Type*}

/-- The end of the positions in use, given `bottom_` and the owner's operation. -/
def limit (bottom : ℕ) : Option (Local α) → ℕ
  | some (.popLoadTop b) | some (.popClaim b _) => b + 1
  | some (.popRestore t) | some (.popLost t) => t
  | some (.popWon _ t) => t + 1
  | _ => bottom

/-- The position whose cell the operation owns. -/
def Local.claims : Local α → Option ℕ
  | .exchange pos | .pushStoreRound pos | .pushStoreBottom pos | .popWon pos _ => some pos
  | _ => none

/-- What the owner's operation knows. -/
def Phase (r : Ring) (top bottom : ℕ) (data : ℕ → Option (Node α)) : Option (Local α) → Prop
  | some (.pushLoadTop _ b) => b = bottom
  | some (.pushWait _ b) | some (.pushStoreRound b) | some (.pushStoreBottom b) =>
    b = bottom ∧ b < top + r.size
  | some (.pushStoreData _ b) => b = bottom ∧ b < top + r.size ∧ data (r.slot b) = none
  | some (.popStoreBottom b) => bottom = b + 1
  | some (.popLoadTop b) => b = bottom
  | some (.popRestore t) | some (.popLost t) => t = bottom + 1 ∧ top = t
  | some (.popClaim b t) => b = t ∧ b = bottom ∧ b ≤ top
  | some (.popWon b t) => b = t ∧ b = bottom ∧ top = b + 1
  | _ => True

/-- What a thief knows: the `top_` it loaded is not ahead, and it lies below the limit as long as
it is still `top_`. -/
def Thief (top lim : ℕ) : Local α → Prop
  | .stealLoadBottom t => t ≤ top
  | .stealLoadRound t | .stealClaim t => t ≤ top ∧ (t = top → t < lim)
  | _ => True

/-- A stored node is at a position in use, or at one that an operation has claimed. -/
def Placed (top lim : ℕ) (l : Tid → Option (Local α)) (p : Node α) : Prop :=
  (top ≤ p.pos ∧ p.pos < lim) ∨ ∃ u x, l u = some x ∧ x.claims = some p.pos

variable [Fintype Tid]

/-- Every pushed node is stored, held by one operation, or deleted, and in one place only. -/
def Conserved (r : Ring) (s : Shared α) (l : Tid → Option (Local α)) : Prop :=
  (s.pushed : Multiset (Node α)) =
    bag r.size s.cells.data + hands Local.held l + (s.deleted : Multiset (Node α))

/-- An operation that shows nothing about `bottom_`. -/
def Neutral (o : Option (Local α)) : Prop :=
  (∀ b, limit b o = b) ∧ ∀ r top b data, Phase r top b data o

/-- The invariant of the deque. -/
structure Inv (r : Ring) (owner : Tid) (s : Shared α) (l : Tid → Option (Local α)) : Prop where
  top_le : s.top ≤ limit s.bottom (l owner)
  le_cap : limit s.bottom (l owner) ≤ s.top + r.size
  phase : Phase r s.top s.bottom s.cells.data (l owner)
  only : ∀ t x, l t = some x → x.ofOwner = true → t = owner
  thief : ∀ t x, l t = some x → Thief s.top (limit s.bottom (l owner)) x
  claimed : ∀ t x pos, l t = some x → x.claims = some pos →
    pos < s.top ∨ (t = owner ∧ pos = limit s.bottom (l owner))
  placed : ∀ j p, s.cells.data j = some p →
    r.slot p.pos = j ∧ Placed s.top (limit s.bottom (l owner)) l p
  ordered : ∀ j k p q, s.cells.data j = some p → s.cells.data k = some q → p.pos < q.pos →
    p.id < q.id
  numbered : Numbered s.pushed
  conserved : Conserved r s l

theorem inv_init (r : Ring) (owner : Tid) : Inv r owner (init : Shared α) fun _ => none where
  top_le := le_rfl
  le_cap := Nat.zero_le _
  phase := trivial
  only t x h := by cases h
  thief t x h := by cases h
  claimed t x pos h := by cases h
  placed j p h := by cases h
  ordered j k p q h := by cases h
  numbered := numbered_nil
  conserved := by
    have hbag : bag r.size (init : Shared α).cells.data = 0 := bag_eq_zero.mpr fun _ _ => rfl
    unfold Conserved
    rw [hbag, hands_eq_zero fun _ => rfl]
    rfl

namespace Inv

variable [DecidableEq Tid] {r : Ring} {owner t : Tid} {s s' : Shared α}
  {l : Tid → Option (Local α)} {x y : Local α}

/-! ## Steps that move no node -/

theorem conserved_of_same (h : Inv r owner s l) {o : Option (Local α)}
    (hdata : s'.cells.data = s.cells.data) (hpushed : s'.pushed = s.pushed)
    (hdeleted : s'.deleted = s.deleted)
    (hheld : hand Local.held o = hand Local.held (l t)) :
    Conserved r s' (Function.update l t o) := by
  unfold Conserved
  have hup := hands_update Local.held l t o
  rw [hheld, add_left_inj] at hup
  rw [hpushed, hdata, hup, hdeleted]
  exact h.conserved

/-- A step that leaves `top_` and all nodes: the new end `lim` of the positions in use may give up
a position to the operation itself, and the operation gives up a claim only of an empty cell or
of a position now in use. -/
theorem control (h : Inv r owner s l) {o : Option (Local α)} (lim : ℕ)
    (htop : s'.top = s.top) (hdata : s'.cells.data = s.cells.data)
    (hpushed : s'.pushed = s.pushed) (hcons : Conserved r s' (Function.update l t o))
    (hlim : limit s'.bottom (Function.update l t o owner) = lim)
    (hle : s.top ≤ lim) (hcap : lim ≤ s.top + r.size)
    (hphase : Phase r s.top s'.bottom s.cells.data (Function.update l t o owner))
    (honly : ∀ y, o = some y → y.ofOwner = true → t = owner)
    (hthief : ∀ y, o = some y → Thief s.top lim y)
    (hkeep : s.top < limit s.bottom (l owner) → s.top < lim)
    (hother : ∀ u, u ≠ t → u = owner → lim = limit s.bottom (l owner))
    (hclaim : ∀ y pos, o = some y → y.claims = some pos → pos < s.top ∨ (t = owner ∧ pos = lim))
    (hin : ∀ pos, s.top ≤ pos → pos < limit s.bottom (l owner) →
      pos < lim ∨ ∃ y, o = some y ∧ y.claims = some pos)
    (hdrop : ∀ x pos, l t = some x → x.claims = some pos →
      (∃ y, o = some y ∧ y.claims = some pos) ∨ (s.top ≤ pos ∧ pos < lim) ∨
        s.cells.data (r.slot pos) = none) :
    Inv r owner s' (Function.update l t o) where
  top_le := by rw [htop, hlim]; exact hle
  le_cap := by rw [htop, hlim]; exact hcap
  phase := by rw [htop, hdata]; exact hphase
  only u x hu hx := by
    rcases update_eq_some hu with ⟨rfl, ho⟩ | ⟨_, hu⟩
    · exact honly x ho hx
    · exact h.only u x hu hx
  thief u x hu := by
    rw [htop, hlim]
    rcases update_eq_some hu with ⟨rfl, ho⟩ | ⟨_, hu⟩
    · exact hthief x ho
    · have hold := h.thief u x hu
      cases x with
      | stealLoadBottom => exact hold
      | stealLoadRound | stealClaim => exact ⟨hold.1, fun he => he ▸ hkeep (he ▸ hold.2 he)⟩
      | _ => trivial
  claimed u x pos hu hx := by
    rw [htop, hlim]
    rcases update_eq_some hu with ⟨rfl, ho⟩ | ⟨hne, hu⟩
    · exact hclaim x pos ho hx
    · rcases h.claimed u x pos hu hx with hlt | ⟨rfl, he⟩
      · exact .inl hlt
      · exact .inr ⟨rfl, by rw [hother u hne rfl]; exact he⟩
  placed j p hj := by
    rw [hdata] at hj
    rw [htop, hlim]
    obtain ⟨hslot, hp⟩ := h.placed j p hj
    refine ⟨hslot, ?_⟩
    rcases hp with ⟨hge, hlt⟩ | ⟨u, x, hu, hx⟩
    · rcases hin _ hge hlt with hlt | ⟨y, ho, hy⟩
      · exact .inl ⟨hge, hlt⟩
      · exact .inr ⟨t, y, by rw [Function.update_self]; exact ho, hy⟩
    · by_cases hut : u = t
      · subst hut
        rcases hdrop x _ hu hx with ⟨y, ho, hy⟩ | hin | hnone
        · exact .inr ⟨u, y, by rw [Function.update_self]; exact ho, hy⟩
        · exact .inl hin
        · rw [hslot, hj] at hnone
          cases hnone
      · exact .inr ⟨u, x, by rw [Function.update_of_ne hut]; exact hu, hx⟩
  ordered j k p q hj hk := by
    rw [hdata] at hj hk
    exact h.ordered j k p q hj hk
  numbered := by rw [hpushed]; exact h.numbered
  conserved := hcons

/-- A step of the owner that leaves `top_`, all nodes and the positions in use. -/
theorem own (h : Inv r owner s l) (hx : l owner = some x)
    (htop : s'.top = s.top) (hdata : s'.cells.data = s.cells.data)
    (hpushed : s'.pushed = s.pushed) (hdeleted : s'.deleted = s.deleted) (hheld : y.held = x.held)
    (hlim : limit s'.bottom (some y) = limit s.bottom (some x))
    (hphase : Phase r s.top s'.bottom s.cells.data (some y))
    (hthief : ∀ lim, Thief s.top lim y) (hclaims : y.claims = x.claims) :
    Inv r owner s' (Function.update l owner (some y)) := by
  refine h.control (limit s.bottom (l owner)) htop hdata hpushed
    (h.conserved_of_same hdata hpushed hdeleted (by rw [hx]; exact hheld)) (by rw [Function.update_self, hlim, hx]) h.top_le h.le_cap
    (by rw [Function.update_self]; exact hphase) (fun _ _ _ => rfl) ?_ id
    (fun u hne he => absurd he hne) ?_ (fun pos _ hlt => .inl hlt) ?_
  · rintro _ ⟨⟩
    exact hthief _
  · rintro _ pos ⟨⟩ hy
    exact h.claimed owner x pos hx (hclaims ▸ hy)
  · intro z pos hz hpos
    rw [hx, Option.some.injEq] at hz
    exact .inl ⟨y, rfl, by rw [hclaims, hz, hpos]⟩

/-- The owner's last step adds one position to those in use. -/
theorem raise (h : Inv r owner s l) (hx : l owner = some x) (hheld : x.held = 0)
    (hroom : limit s.bottom (l owner) < s.top + r.size)
    (hclaims : ∀ pos, x.claims = some pos → pos = limit s.bottom (l owner)) (o : Outcome α) :
    Inv r owner { s with bottom := limit s.bottom (l owner) + 1 }
      (Function.update l owner (some (.done o))) := by
  have hle := h.top_le
  refine h.control (limit s.bottom (l owner) + 1) rfl rfl rfl
    (h.conserved_of_same rfl rfl rfl (by rw [hx]; exact hheld.symm)) (by rw [Function.update_self]; rfl) (by omega) hroom
    (by rw [Function.update_self]; trivial) (fun _ _ _ => rfl) ?_ (by omega)
    (fun u hne he => absurd he hne) ?_ (fun pos _ hlt => .inl (Nat.lt_succ_of_lt hlt)) ?_
  · rintro _ ⟨⟩
    trivial
  · rintro _ pos ⟨⟩ hy
    cases hy
  · intro z pos hz hpos
    rw [hx, Option.some.injEq] at hz
    have := hclaims pos (by rw [hz, hpos])
    exact .inr (.inl (by omega))

/-- A pop that finds more than one element claims the last position without a compare-exchange. -/
theorem claimTail (h : Inv r owner s l) {b : ℕ} (hx : l owner = some (.popLoadTop b))
    (hb : b = s.bottom) (hlt : s.top < b) :
    Inv r owner s (Function.update l owner (some (.exchange b))) := by
  have hlim : limit s.bottom (l owner) = b + 1 := by rw [hx]; rfl
  have hcap := h.le_cap
  refine h.control b rfl rfl rfl (h.conserved_of_same rfl rfl rfl (by rw [hx]; rfl)) (by rw [Function.update_self]; exact hb.symm) hlt.le (by omega)
    (by rw [Function.update_self]; trivial) (fun _ _ _ => rfl) ?_ (fun _ => hlt)
    (fun u hne he => absurd he hne) ?_ ?_ ?_
  · rintro _ ⟨⟩
    trivial
  · rintro _ pos ⟨⟩ hy
    exact .inr ⟨rfl, (Option.some.inj hy).symm⟩
  · intro pos _ hpos
    by_cases he : pos = b
    · exact .inr ⟨_, rfl, by rw [he]; rfl⟩
    · exact .inl (by omega)
  · intro z pos hz hpos
    rw [hx, Option.some.injEq] at hz
    rw [← hz] at hpos
    cases hpos

omit [DecidableEq Tid] [Fintype Tid] in
/-- Operations that move `bottom_` apart from the end of the positions in use are the owner's. -/
theorem neutral_of_ofOwner (hx : x.ofOwner = false) : Neutral (some x) := by
  cases x with
  | stealLoadTop | stealLoadBottom | stealLoadRound | stealClaim | exchange | clearRound | finish
  | done => exact ⟨fun _ => rfl, fun _ _ _ _ => trivial⟩
  | _ => cases hx

omit [DecidableEq Tid] [Fintype Tid] in
theorem neutral_none : Neutral (none : Option (Local α)) := ⟨fun _ => rfl, fun _ _ _ _ => trivial⟩

omit [DecidableEq Tid] [Fintype Tid] in
theorem neutral_start (op : Op α) : Neutral (some (start op)) := by
  cases op <;> exact ⟨fun _ => rfl, fun _ _ _ _ => trivial⟩

omit [Fintype Tid] in
/-- Between operations that do not show where the owner is, the owner's phase does not change. -/
theorem limit_update {o : Option (Local α)} (hx : Neutral (l t)) (ho : Neutral o) (b : ℕ) :
    limit b (Function.update l t o owner) = limit b (l owner) := by
  by_cases ht : owner = t
  · subst ht
    rw [Function.update_self, ho.1, hx.1]
  · rw [Function.update_of_ne ht]

omit [Fintype Tid] in
theorem phase_update {o : Option (Local α)} {top b : ℕ} {data : ℕ → Option (Node α)}
    (h : Phase r top b data (l owner)) (ho : Neutral o) :
    Phase r top b data (Function.update l t o owner) := by
  by_cases ht : owner = t
  · subst ht
    rw [Function.update_self]
    exact ho.2 r top b data
  · rw [Function.update_of_ne ht]
    exact h

/-- A step of any thread that changes at most rounds and gives up at most the claim of an empty
cell. -/
theorem idle (h : Inv r owner s l) {o : Option (Local α)} (hx : Neutral (l t)) (ho : Neutral o)
    (htop : s'.top = s.top) (hbottom : s'.bottom = s.bottom)
    (hdata : s'.cells.data = s.cells.data) (hpushed : s'.pushed = s.pushed)
    (hcons : Conserved r s' (Function.update l t o))
    (honly : ∀ y, o = some y → y.ofOwner = true → t = owner)
    (hthief : ∀ y, o = some y → Thief s.top (limit s.bottom (l owner)) y)
    (hclaim : ∀ y, o = some y → y.claims = none)
    (hdrop : ∀ x pos, l t = some x → x.claims = some pos → s.cells.data (r.slot pos) = none) :
    Inv r owner s' (Function.update l t o) := by
  refine h.control (limit s.bottom (l owner)) htop hdata hpushed hcons
    (by rw [hbottom, limit_update hx ho]) h.top_le h.le_cap
    (by rw [hbottom]; exact phase_update h.phase ho) honly hthief id (fun _ _ _ => rfl) ?_
    (fun pos _ hlt => .inl hlt) (fun x pos hx hpos => .inr (.inr (hdrop x pos hx hpos)))
  · intro y pos hy hpos
    rw [hclaim y hy] at hpos
    cases hpos

/-! ## Claims and nodes -/

/-- A successful compare-exchange on `top_` claims the position it leaves behind. -/
theorem claimTop (h : Inv r owner s l) (hx : l t = some x) (hxc : x.claims = none)
    (hlt : s.top < limit s.bottom (l owner))
    (hlim : limit s.bottom (Function.update l t (some y) owner) = limit s.bottom (l owner))
    (hphase : Phase r (s.top + 1) s.bottom s.cells.data (Function.update l t (some y) owner))
    (honly : y.ofOwner = true → t = owner) (hthief : ∀ lim, Thief (s.top + 1) lim y)
    (hclaim : y.claims = some s.top)
    (hheld : y.held = x.held) :
    Inv r owner { s with top := s.top + 1 } (Function.update l t (some y)) where
  top_le := by rw [hlim]; exact hlt
  le_cap := by
    have := h.le_cap
    rw [hlim]
    show _ ≤ s.top + 1 + r.size
    omega
  phase := hphase
  only u z hu hz := by
    rcases update_eq_some hu with ⟨rfl, ho⟩ | ⟨_, hu⟩
    · obtain rfl := Option.some.inj ho
      exact honly hz
    · exact h.only u z hu hz
  thief u z hu := by
    rw [hlim]
    rcases update_eq_some hu with ⟨rfl, ho⟩ | ⟨_, hu⟩
    · obtain rfl := Option.some.inj ho
      exact hthief _
    · have hold := h.thief u z hu
      cases z with
      | stealLoadBottom => exact Nat.le_succ_of_le hold
      | stealLoadRound t | stealClaim t =>
        have hle : t ≤ s.top := hold.1
        exact ⟨Nat.le_succ_of_le hle, fun he => absurd he (by show t ≠ s.top + 1; omega)⟩
      | _ => trivial
  claimed u z pos hu hz := by
    rw [hlim]
    rcases update_eq_some hu with ⟨rfl, ho⟩ | ⟨_, hu⟩
    · obtain rfl := Option.some.inj ho
      rw [hclaim] at hz
      obtain rfl := Option.some.inj hz
      exact .inl (Nat.lt_succ_self _)
    · exact (h.claimed u z pos hu hz).imp_left Nat.lt_succ_of_lt
  placed j p hj := by
    rw [hlim]
    obtain ⟨hslot, hp⟩ := h.placed j p hj
    refine ⟨hslot, ?_⟩
    rcases hp with ⟨hge, hlt'⟩ | ⟨u, z, hu, hz⟩
    · by_cases he : p.pos = s.top
      · exact .inr ⟨t, y, Function.update_self .., by rw [hclaim, he]⟩
      · exact .inl ⟨by show s.top + 1 ≤ p.pos; omega, hlt'⟩
    · have hne : u ≠ t := by
        rintro rfl
        rw [hx, Option.some.injEq] at hu
        rw [← hu, hxc] at hz
        cases hz
      exact .inr ⟨u, z, by rw [Function.update_of_ne hne]; exact hu, hz⟩
  ordered := h.ordered
  numbered := h.numbered
  conserved := h.conserved_of_same rfl rfl rfl (by rw [hx]; exact hheld)

omit [DecidableEq Tid] in
theorem mem_pushed (h : Inv r owner s l) {j : ℕ} {p : Node α} (hj : s.cells.data j = some p) :
    p ∈ s.pushed := by
  have hbag : p ∈ bag r.size s.cells.data :=
    mem_bag.mpr ⟨j, by rw [← (h.placed j p hj).1]; exact r.slot_lt _, hj⟩
  have hmem : p ∈ (s.pushed : Multiset (Node α)) := by
    rw [show (s.pushed : Multiset (Node α)) = _ from h.conserved]
    exact Multiset.mem_add.mpr (.inl (Multiset.mem_add.mpr (.inl hbag)))
  exact Multiset.mem_coe.mp hmem

omit [DecidableEq Tid] in
/-- Unless the owner is inside a push or a pop, the stored nodes are below the limit. -/
theorem pos_lt (h : Inv r owner s l) (hown : ∀ x, l owner = some x → x.claims = none) {j : ℕ}
    {p : Node α} (hj : s.cells.data j = some p) : p.pos < limit s.bottom (l owner) := by
  have hle := h.top_le
  rcases (h.placed j p hj).2 with ⟨_, hlt⟩ | ⟨u, x, hu, hx⟩
  · exact hlt
  · rcases h.claimed u x _ hu hx with hlt | ⟨rfl, _⟩
    · omega
    · rw [hown x hu] at hx
      cases hx

/-- The owner allocates a node and stores it in the empty cell of the bottom position. -/
theorem storeData (h : Inv r owner s l) {b : ℕ} {item : α}
    (hx : l owner = some (.pushStoreData item b)) :
    Inv r owner { s with
        cells := s.cells.setData (r.slot b) (some ⟨s.pushed.length, b, item⟩)
        pushed := s.pushed ++ [⟨s.pushed.length, b, item⟩] }
      (Function.update l owner (some (.pushStoreRound b))) := by
  obtain ⟨hb, hroom, hnone⟩ : b = s.bottom ∧ b < s.top + r.size ∧ s.cells.data (r.slot b) = none :=
    by have := h.phase; rw [hx] at this; exact this
  have hlim : limit s.bottom (l owner) = b := by rw [hx, hb]; rfl
  have hlt : ∀ j p, s.cells.data j = some p → p.pos < b := fun j p hj => by
    rw [← hlim]
    exact h.pos_lt (fun x hx' => by rw [hx, Option.some.injEq] at hx'; rw [← hx']; rfl) hj
  have hcell : ∀ {j p}, (s.cells.setData (r.slot b) (some ⟨s.pushed.length, b, item⟩)).data j =
      some p → (j = r.slot b ∧ p = ⟨s.pushed.length, b, item⟩) ∨ s.cells.data j = some p := by
    intro j p hj
    rw [Cells.setData_data] at hj
    by_cases he : j = r.slot b
    · subst he
      rw [Function.update_self, Option.some.injEq] at hj
      exact .inl ⟨rfl, hj.symm⟩
    · rw [Function.update_of_ne he] at hj
      exact .inr hj
  have hself : limit s.bottom (Function.update l owner (some (Local.pushStoreRound b)) owner) = b :=
    by rw [Function.update_self]; exact hb.symm
  constructor
  · show s.top ≤ limit s.bottom (Function.update l owner _ owner)
    rw [hself, ← hlim]
    exact h.top_le
  · show limit s.bottom (Function.update l owner _ owner) ≤ s.top + r.size
    rw [hself]
    omega
  · rw [Function.update_self]
    exact ⟨hb, hroom⟩
  · intro u z hu hz
    rcases update_eq_some hu with ⟨rfl, _⟩ | ⟨_, hu⟩
    · rfl
    · exact h.only u z hu hz
  · intro u z hu
    show Thief s.top (limit s.bottom (Function.update l owner _ owner)) z
    rw [hself]
    rcases update_eq_some hu with ⟨rfl, ho⟩ | ⟨_, hu⟩
    · obtain rfl := Option.some.inj ho
      trivial
    · rw [← hlim]
      exact h.thief u z hu
  · intro u z pos hu hz
    show pos < s.top ∨ (u = owner ∧ pos = limit s.bottom (Function.update l owner _ owner))
    rw [hself]
    rcases update_eq_some hu with ⟨rfl, ho⟩ | ⟨_, hu⟩
    · obtain rfl := Option.some.inj ho
      exact .inr ⟨rfl, (Option.some.inj hz).symm⟩
    · rw [← hlim]
      exact h.claimed u z pos hu hz
  · intro j p hj
    show r.slot p.pos = j ∧ Placed s.top (limit s.bottom (Function.update l owner _ owner)) _ p
    rw [hself]
    rcases hcell hj with ⟨rfl, rfl⟩ | hj
    · exact ⟨rfl, .inr ⟨owner, _, Function.update_self .., rfl⟩⟩
    · obtain ⟨hslot, hp⟩ := h.placed j p hj
      rw [hlim] at hp
      refine ⟨hslot, hp.imp_right ?_⟩
      rintro ⟨u, z, hu, hz⟩
      have hne : u ≠ owner := by
        rintro rfl
        rw [hx, Option.some.injEq] at hu
        rw [← hu] at hz
        cases hz
      exact ⟨u, z, by rw [Function.update_of_ne hne]; exact hu, hz⟩
  · intro j k p q hj hk hpq
    rcases hcell hj with ⟨rfl, rfl⟩ | hj <;> rcases hcell hk with ⟨rfl, rfl⟩ | hk
    · exact absurd hpq (Nat.lt_irrefl _)
    · exact absurd hpq (Nat.lt_asymm (hlt _ _ hk))
    · exact h.numbered.id_lt (h.mem_pushed hj)
    · exact h.ordered j k p q hj hk hpq
  · exact h.numbered.concat b item
  · have hbag := bag_update (r.slot_lt b) s.cells.data
      (some (⟨s.pushed.length, b, item⟩ : Node α))
    have hheld := hands_update Local.held l owner (some (Local.pushStoreRound b))
    rw [hnone, slot_none, add_zero, slot_some] at hbag
    rw [hx] at hheld
    have hheld : hands Local.held (Function.update l owner (some (Local.pushStoreRound b))) =
      hands Local.held l := by simpa [hand, Local.held] using hheld
    show ((s.pushed ++ [_] : List (Node α)) : Multiset (Node α)) = _
    rw [← Multiset.coe_add, show (s.pushed : Multiset (Node α)) = _ from h.conserved, hheld, Cells.setData_data, hbag]
    show _ + ({_} : Multiset (Node α)) = _
    abel

omit [Fintype Tid] [DecidableEq Tid] in
theorem phase_empty {o : Option (Local α)} {top b : ℕ} {data : ℕ → Option (Node α)} (j : ℕ)
    (h : Phase r top b data o) : Phase r top b (Function.update data j none) o := by
  rcases o with _ | x
  · trivial
  · cases x with
    | pushStoreData item b =>
      obtain ⟨hb, hroom, hnone⟩ := h
      refine ⟨hb, hroom, ?_⟩
      by_cases he : r.slot b = j
      · rw [he, Function.update_self]
      · rw [Function.update_of_ne he, hnone]
    | _ => exact h

/-- An operation takes the node of the cell it has claimed. -/
theorem take (h : Inv r owner s l) {pos : ℕ} {p : Node α} (hx : l t = some (.exchange pos))
    (hp : s.cells.data (r.slot pos) = some p) :
    Inv r owner { s with cells := s.cells.setData (r.slot pos) none }
      (Function.update l t (some (.clearRound pos p))) := by
  have hlim : limit s.bottom (Function.update l t (some (Local.clearRound pos p)) owner) =
      limit s.bottom (l owner) := limit_update (by rw [hx]; exact neutral_of_ofOwner rfl) (neutral_of_ofOwner rfl) _
  have hcell : ∀ {j q}, (s.cells.setData (r.slot pos) none).data j = some q →
      j ≠ r.slot pos ∧ s.cells.data j = some q := by
    intro j q hj
    rw [Cells.setData_data] at hj
    by_cases he : j = r.slot pos
    · rw [he, Function.update_self] at hj
      cases hj
    · rw [Function.update_of_ne he] at hj
      exact ⟨he, hj⟩
  constructor
  · show s.top ≤ limit s.bottom (Function.update l t _ owner)
    rw [hlim]
    exact h.top_le
  · show limit s.bottom (Function.update l t _ owner) ≤ s.top + r.size
    rw [hlim]
    exact h.le_cap
  · show Phase r s.top s.bottom (Cells.data _) _
    rw [Cells.setData_data]
    exact phase_update (phase_empty _ h.phase) (neutral_of_ofOwner rfl)
  · intro u z hu hz
    rcases update_eq_some hu with ⟨rfl, ho⟩ | ⟨_, hu⟩
    · obtain rfl := Option.some.inj ho
      cases hz
    · exact h.only u z hu hz
  · intro u z hu
    show Thief s.top (limit s.bottom (Function.update l t _ owner)) z
    rw [hlim]
    rcases update_eq_some hu with ⟨rfl, ho⟩ | ⟨_, hu⟩
    · obtain rfl := Option.some.inj ho
      trivial
    · exact h.thief u z hu
  · intro u z q hu hz
    show q < s.top ∨ (u = owner ∧ q = limit s.bottom (Function.update l t _ owner))
    rw [hlim]
    rcases update_eq_some hu with ⟨rfl, ho⟩ | ⟨_, hu⟩
    · obtain rfl := Option.some.inj ho
      cases hz
    · exact h.claimed u z q hu hz
  · intro j q hj
    show r.slot q.pos = j ∧ Placed s.top (limit s.bottom (Function.update l t _ owner)) _ q
    rw [hlim]
    obtain ⟨hne, hj⟩ := hcell hj
    obtain ⟨hslot, hq⟩ := h.placed j q hj
    refine ⟨hslot, hq.imp_right ?_⟩
    rintro ⟨u, z, hu, hz⟩
    have hut : u ≠ t := by
      rintro rfl
      rw [hx, Option.some.injEq] at hu
      rw [← hu] at hz
      rw [← hslot, ← Option.some.inj hz] at hne
      exact hne rfl
    exact ⟨u, z, by rw [Function.update_of_ne hut]; exact hu, hz⟩
  · intro j k q q' hj hk
    exact h.ordered j k q q' (hcell hj).2 (hcell hk).2
  · exact h.numbered
  · have hbag := bag_update (r.slot_lt pos) s.cells.data none
    have hheld := hands_update Local.held l t (some (Local.clearRound pos p))
    rw [hp, slot_none, add_zero, slot_some] at hbag
    rw [hx] at hheld
    have hheld : hands Local.held (Function.update l t (some (Local.clearRound pos p))) =
        hands Local.held l + {p} := by simpa [hand, Local.held] using hheld
    show (s.pushed : Multiset (Node α)) = bag r.size (Cells.data _) + _ + _
    rw [show (s.pushed : Multiset (Node α)) = _ from h.conserved, Cells.setData_data, hheld, ← hbag]
    abel

theorem delete (h : Inv r owner s l) {p : Node α} (hx : l t = some (.finish p)) :
    Inv r owner { s with deleted := s.deleted ++ [p] }
      (Function.update l t (some (.done (.got p.item)))) := by
  refine h.idle (by rw [hx]; exact neutral_of_ofOwner rfl) (neutral_of_ofOwner rfl) rfl rfl rfl
    rfl ?_ ?_ ?_ ?_ ?_
  · have hheld := hands_update Local.held l t (some (Local.done (.got p.item)))
    rw [hx] at hheld
    have hheld : hands Local.held (Function.update l t (some (Local.done (.got p.item)))) + {p} =
        hands Local.held l := by simpa [hand, Local.held] using hheld
    show (s.pushed : Multiset (Node α)) = _ + _ + ((s.deleted ++ [p] : List (Node α)) : Multiset _)
    rw [show (s.pushed : Multiset (Node α)) = _ from h.conserved, ← hheld, ← Multiset.coe_add,
      Multiset.coe_singleton]
    abel
  · rintro y ⟨⟩ hy
    cases hy
  · rintro y ⟨⟩
    trivial
  · rintro y ⟨⟩
    rfl
  · intro x pos hx' hpos
    rw [hx, Option.some.injEq] at hx'
    rw [← hx'] at hpos
    cases hpos

/-! ## All steps -/

omit [DecidableEq Tid] in
theorem phase_at (h : Inv r owner s l) (hx : l owner = some x) :
    Phase r s.top s.bottom s.cells.data (some x) := by
  rw [← hx]
  exact h.phase

omit [DecidableEq Tid] in
/-- The range of positions in use, the owner's operation given. -/
theorem range_at (h : Inv r owner s l) (hx : l owner = some x) :
    s.top ≤ limit s.bottom (some x) ∧ limit s.bottom (some x) ≤ s.top + r.size := by
  rw [← hx]
  exact ⟨h.top_le, h.le_cap⟩

theorem step_owner (h : Inv r owner s l) (hx : l owner = some x) (hown : x.ofOwner = true)
    (b : Bool) :
    Inv r owner (step r b s x).1 (Function.update l owner (some (step r b s x).2)) := by
  have hph := h.phase_at hx
  obtain ⟨hle, hcap⟩ := h.range_at hx
  cases x with
  | pushLoadBottom item => exact h.own hx rfl rfl rfl rfl rfl rfl rfl (fun _ => trivial) rfl
  | pushLoadTop item b =>
    have hb : b = s.bottom := hph
    simp only [step]
    split
    next => exact h.own hx rfl rfl rfl rfl rfl rfl trivial (fun _ => trivial) rfl
    next hroom =>
      exact h.own hx rfl rfl rfl rfl rfl rfl ⟨hb, by omega⟩ (fun _ => trivial) rfl
  | pushWait item b =>
    obtain ⟨hb, hroom⟩ := hph
    simp only [step]
    split
    next => exact h.own hx rfl rfl rfl rfl rfl rfl ⟨hb, hroom⟩ (fun _ => trivial) rfl
    next hnone =>
      exact h.own hx rfl rfl rfl rfl rfl rfl ⟨hb, hroom, by simpa using hnone⟩
        (fun _ => trivial) rfl
  | pushStoreData item b => exact h.storeData hx
  | pushStoreRound b =>
    exact h.own hx rfl (Cells.setRound_data ..) rfl rfl rfl rfl hph (fun _ => trivial) rfl
  | pushStoreBottom b =>
    obtain ⟨hb, hroom⟩ := hph
    have hlim : limit s.bottom (l owner) = b := by rw [hx]; exact hb.symm
    have hraise := h.raise hx rfl (by omega) (fun pos hpos => by cases hpos; exact hlim.symm) .put
    rw [hlim] at hraise
    exact hraise
  | popLoadBottom =>
    simp only [step]
    split
    next => exact h.own hx rfl rfl rfl rfl rfl rfl trivial (fun _ => trivial) rfl
    next hne =>
      exact h.own hx rfl rfl rfl rfl rfl rfl (by show s.bottom = s.bottom - 1 + 1; omega)
        (fun _ => trivial) rfl
  | popStoreBottom b =>
    have hb : s.bottom = b + 1 := hph
    exact h.own hx rfl rfl rfl rfl rfl hb.symm rfl (fun _ => trivial) rfl
  | popLoadTop b =>
    have hb : b = s.bottom := hph
    have hle : s.top ≤ b + 1 := hle
    simp only [step]
    split
    next hlt =>
      have htop : s.top = b + 1 := by omega
      exact h.own hx rfl rfl rfl rfl rfl htop ⟨by rw [htop, hb], rfl⟩ (fun _ => trivial) rfl
    next hge =>
      split
      next hlt => exact h.claimTail hx hb hlt
      next hge' =>
        exact h.own hx rfl rfl rfl rfl rfl rfl ⟨by omega, hb, by omega⟩ (fun _ => trivial) rfl
  | popRestore t =>
    exact h.own hx rfl rfl rfl rfl rfl rfl trivial (fun _ => trivial) rfl
  | popClaim b t =>
    obtain ⟨hbt, hb, hge⟩ := hph
    have hle : s.top ≤ b + 1 := hle
    simp only [step]
    split
    next htop =>
      subst hbt htop
      exact h.claimTop hx rfl (by rw [hx]; exact Nat.lt_succ_self _)
        (by rw [Function.update_self, hx]; rfl)
        (by rw [Function.update_self]; exact ⟨rfl, hb, rfl⟩) (fun _ => rfl)
        (fun _ => trivial) rfl rfl
    next hne =>
      have htop : s.top = b + 1 := by omega
      exact h.own hx rfl rfl rfl rfl rfl htop ⟨by rw [htop, hb], rfl⟩ (fun _ => trivial) rfl
  | popLost t =>
    obtain ⟨hb, htop⟩ := hph
    have hlim : limit s.bottom (l owner) = t := by rw [hx]; rfl
    have hsize := r.size_pos
    have hraise := h.raise hx rfl (by omega) (fun pos hpos => by cases hpos) .nothing
    rw [hlim] at hraise
    exact hraise
  | popWon b t => exact h.own hx rfl rfl rfl rfl rfl rfl trivial (fun _ => trivial) rfl
  | _ => cases hown

/-- A step of any thread that changes at most rounds, the operation given. -/
theorem idle_at (h : Inv r owner s l) (hx : l t = some x) (hxo : x.ofOwner = false)
    (hyo : y.ofOwner = false) (htop : s'.top = s.top) (hbottom : s'.bottom = s.bottom)
    (hdata : s'.cells.data = s.cells.data) (hpushed : s'.pushed = s.pushed)
    (hdeleted : s'.deleted = s.deleted) (hheld : y.held = x.held)
    (hthief : Thief s.top (limit s.bottom (l owner)) y) (hclaim : y.claims = none)
    (hdrop : ∀ pos, x.claims = some pos → s.cells.data (r.slot pos) = none) :
    Inv r owner s' (Function.update l t (some y)) := by
  refine h.idle (by rw [hx]; exact neutral_of_ofOwner hxo) (neutral_of_ofOwner hyo) htop hbottom
    hdata hpushed (h.conserved_of_same hdata hpushed hdeleted (by rw [hx]; exact hheld))
    ?_ ?_ ?_ ?_
  · rintro _ ⟨⟩ hy
    rw [hyo] at hy
    cases hy
  · rintro _ ⟨⟩
    exact hthief
  · rintro _ ⟨⟩
    exact hclaim
  · intro z pos hz hpos
    rw [hx, Option.some.injEq] at hz
    exact hdrop pos (by rw [hz, hpos])

omit [Fintype Tid] [DecidableEq Tid] in
/-- `bottom_` never exceeds the end of the positions in use. -/
theorem bottom_le {o : Option (Local α)} {top b : ℕ} {data : ℕ → Option (Node α)}
    (h : Phase r top b data o) : b ≤ limit b o := by
  rcases o with _ | x
  · exact le_rfl
  · cases x with
    | popLoadTop | popRestore | popClaim | popLost | popWon =>
      simp only [Phase, limit] at h ⊢
      omega
    | _ => exact le_rfl

omit [Fintype Tid] [DecidableEq Tid] in
/-- A thief's claim below the limit keeps what the owner knows. -/
theorem phase_claim {o : Option (Local α)} {top b : ℕ} {data : ℕ → Option (Node α)}
    (h : Phase r top b data o) (hlt : top < limit b o) : Phase r (top + 1) b data o := by
  rcases o with _ | x
  · trivial
  · cases x with
    | pushWait | pushStoreRound | pushStoreBottom | popRestore | popClaim | popLost | popWon =>
      simp only [Phase, limit] at h hlt ⊢
      omega
    | pushStoreData =>
      obtain ⟨hb, hroom, hnone⟩ := h
      exact ⟨hb, by omega, hnone⟩
    | _ => exact h

theorem step_common (h : Inv r owner s l) (hx : l t = some x) (hown : x.ofOwner = false)
    (hr : result x = none) (b : Bool) :
    Inv r owner (step r b s x).1 (Function.update l t (some (step r b s x).2)) := by
  have hth := h.thief t x hx
  have hle := h.top_le
  have hbottom : s.bottom ≤ limit s.bottom (l owner) := bottom_le h.phase
  cases x with
  | stealLoadTop =>
    exact h.idle_at hx rfl rfl rfl rfl rfl rfl rfl rfl (le_refl s.top) rfl (fun _ hc => by cases hc)
  | stealLoadBottom t =>
    have hth : t ≤ s.top := hth
    simp only [step]
    split
    next =>
      exact h.idle_at hx rfl rfl rfl rfl rfl rfl rfl rfl trivial rfl (fun _ hc => by cases hc)
    next hlt =>
      exact h.idle_at hx rfl rfl rfl rfl rfl rfl rfl rfl ⟨hth, fun _ => by omega⟩ rfl
        (fun _ hc => by cases hc)
  | stealLoadRound t =>
    simp only [step]
    split
    next => exact h.idle_at hx rfl rfl rfl rfl rfl rfl rfl rfl hth rfl (fun _ hc => by cases hc)
    next =>
      exact h.idle_at hx rfl rfl rfl rfl rfl rfl rfl rfl trivial rfl (fun _ hc => by cases hc)
  | stealClaim pos =>
    simp only [step]
    split
    next htop =>
      subst htop
      exact h.claimTop hx rfl (hth.2 rfl) (limit_update (by rw [hx]; exact neutral_of_ofOwner rfl) (neutral_of_ofOwner rfl) _)
        (phase_update (phase_claim h.phase (hth.2 rfl)) (neutral_of_ofOwner rfl)) (fun hc => by cases hc)
        (fun _ => trivial) rfl rfl
    next =>
      exact h.idle_at hx rfl rfl rfl rfl rfl rfl rfl rfl trivial rfl (fun _ hc => by cases hc)
  | exchange pos =>
    cases hp : s.cells.data (r.slot pos) with
    | none =>
      simp only [step, hp]
      exact h.idle_at hx rfl rfl rfl rfl rfl rfl rfl rfl trivial rfl
        (fun _ hc => by cases hc; exact hp)
    | some p =>
      simp only [step, hp]
      exact h.take hx hp
  | clearRound pos p =>
    exact h.idle_at hx rfl rfl rfl rfl (Cells.clearRound_data ..) rfl rfl rfl trivial rfl
      (fun _ hc => by cases hc)
  | finish p => exact h.delete hx
  | done o => cases hr
  | _ => cases hown

theorem call (h : Inv r owner s l) (hl : l t = none) (op : Op α) (hmay : may owner t op = true) :
    Inv r owner s (Function.update l t (some (start op))) := by
  refine h.idle (by rw [hl]; exact neutral_none) (neutral_start op) rfl rfl rfl rfl
    (h.conserved_of_same rfl rfl rfl (by rw [hl]; cases op <;> rfl)) ?_ ?_ ?_ ?_
  · rintro _ ⟨⟩ hown
    cases op with
    | push | pop => exact of_decide_eq_true hmay
    | steal => cases hown
  · rintro _ ⟨⟩
    cases op <;> trivial
  · rintro _ ⟨⟩
    cases op <;> rfl
  · intro x pos hx
    rw [hl] at hx
    cases hx

theorem ret (h : Inv r owner s l) {o : Outcome α} (hx : l t = some (.done o)) :
    Inv r owner s (Function.update l t none) := by
  refine h.idle (by rw [hx]; exact neutral_of_ofOwner rfl) neutral_none rfl rfl rfl rfl
    (h.conserved_of_same rfl rfl rfl (by rw [hx]; rfl)) (fun y hy => by cases hy)
    (fun y hy => by cases hy) (fun y hy => by cases hy) (fun z pos hz hpos => ?_)
  rw [hx, Option.some.injEq] at hz
  rw [← hz] at hpos
  cases hpos

end Inv

/-- Every step keeps the invariant. -/
theorem inv_inductive [DecidableEq Tid] (r : Ring) (owner : Tid) :
    (object r).Inductive (may owner) (fun _ _ => True) (Inv (α := α) r owner) where
  call h hl hmay := h.call hl _ hmay
  step {s l t x} b h hx hr _ := by
    cases hown : x.ofOwner with
    | true =>
      obtain rfl := h.only t x hx hown
      exact h.step_owner hx hown b
    | false => exact h.step_common hx hown hr b
  ret {s l t x o} h hx hr := by
    cases x with
    | done o' => exact h.ret hx
    | _ => cases hr

end LowLatency.WorkStealingDeque
