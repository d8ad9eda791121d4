import LowLatency.WorkStealingQueue.Basic

/-!
# The invariant of the queue

`Inv` is what every step keeps, whoever takes it. While the owner is inside its window no thief has
passed the gate, so that `top`, the old array and the new one are the owner's alone; `Phase` says
how far `grow` has copied. Outside the window every thief past the gate works on the current array.
-/

namespace LowLatency.WorkStealingQueue

open Concurrency

variable {α Tid : Type*}

/-- `grow` has copied the data of the positions from `t` to `d` of the window to array `n`, and has
stored the rounds of those before `i`. -/
structure Copied (s : Shared α) (n t i d : ℕ) : Prop where
  cap_eq : s.cap n = (s.cap s.current).double
  top_eq : s.top = t
  le : t ≤ i
  moved : ∀ j, t ≤ j → j < d →
    s.dataAt n j = s.window ((s.cap s.current).slot j) ∧ s.dataAt s.current j = none
  rounds : ∀ j, t ≤ j → j < i → s.dataAt n j ≠ none → s.roundAt n j = j + 1
  only : ∀ k p, (s.cells n).data k = some p → ∃ j, t ≤ j ∧ j < d ∧ k = (s.cap n).slot j

/-- The old array still has what it had at the positions from `i` on. -/
def Rest (s : Shared α) (i : ℕ) : Prop :=
  ∀ j, i ≤ j → j < s.bottom → s.dataAt s.current j = s.window ((s.cap s.current).slot j)

/-- A new array for `grow`. -/
def Fresh (s : Shared α) (n : ℕ) : Prop :=
  s.cap n = (s.cap s.current).double ∧ ∀ k, (s.cells n).data k = none

/-- What the owner's operation knows. -/
def Phase (s : Shared α) : Option (Local α) → Prop
  | some (.pushWait _) | some .pushStoreRound => s.bottom < s.top + (s.cap s.current).size
  | some (.pushStoreData _) =>
    s.bottom < s.top + (s.cap s.current).size ∧ s.dataAt s.current s.bottom = none
  | some (.growClose _ n) | some (.growAwait _ n) | some (.growLoadTop _ n) => Fresh s n
  | some (.growExchange _ n t i) => Copied s n t i i ∧ i < s.bottom ∧ Rest s i
  | some (.growStoreData _ n t i p) => Copied s n t i i ∧ i < s.bottom ∧ Rest s (i + 1) ∧
      s.dataAt s.current i = none ∧ s.window ((s.cap s.current).slot i) = some p
  | some (.growStoreRound _ n t i) => Copied s n t i (i + 1) ∧ i < s.bottom ∧ Rest s (i + 1)
  | some (.growPublish _ n t) => ∃ i, Copied s n t i i ∧ s.bottom ≤ i ∧ (i ≤ s.bottom ∨ i = t)
  | some (.popTail pos) | some (.popTailClear pos _) => s.bottom = pos + 1
  | some (.popClaim t) | some (.popExchange t) => s.bottom = t + 1
  | _ => True

/-- What the array besides `current_` holds. -/
def spareStock (s : Shared α) (o : Option (Local α)) : Multiset (Node α) :=
  match o.bind Local.spare with
  | some a => s.stock a
  | none => 0

section Congr

variable {s s' : Shared α} {o : Option (Local α)} {x : Local α} {n t i d : ℕ}

theorem Copied.congr (h : Copied s n t i d) (htop : s'.top = s.top)
    (hcurrent : s'.current = s.current) (hheap : s'.heap = s.heap)
    (hwindow : s'.window = s.window) : Copied s' n t i d := by
  have hcap : s'.cap = s.cap := by funext a; unfold Shared.cap; rw [hheap]
  have hcells : s'.cells = s.cells := by funext a; unfold Shared.cells; rw [hheap]
  have hdata : s'.dataAt = s.dataAt := by funext a q; unfold Shared.dataAt; rw [hcap, hcells]
  have hround : s'.roundAt = s.roundAt := by funext a q; unfold Shared.roundAt; rw [hcap, hcells]
  constructor
  · rw [hcap, hcurrent]; exact h.cap_eq
  · rw [htop]; exact h.top_eq
  · exact h.le
  · rw [hcap, hcurrent, hdata, hwindow]; exact h.moved
  · rw [hdata, hround]; exact h.rounds
  · rw [hcap, hcells]; exact h.only

theorem Rest.congr (h : Rest s i) (hbottom : s'.bottom = s.bottom)
    (hcurrent : s'.current = s.current) (hheap : s'.heap = s.heap)
    (hwindow : s'.window = s.window) : Rest s' i := by
  intro j hij hj
  unfold Shared.dataAt Shared.cells Shared.cap
  rw [hheap, hcurrent, hwindow]
  exact h j hij (hbottom ▸ hj)

/-- What the owner knows is about `top`, its own members, the arrays and the window. -/
theorem Phase.congr (h : Phase s o) (htop : s'.top = s.top) (hbottom : s'.bottom = s.bottom)
    (hcurrent : s'.current = s.current) (hheap : s'.heap = s.heap)
    (hwindow : s'.window = s.window) : Phase s' o := by
  rcases o with _ | x
  · trivial
  have hcap : s'.cap = s.cap := by funext a; unfold Shared.cap; rw [hheap]
  have hcells : s'.cells = s.cells := by funext a; unfold Shared.cells; rw [hheap]
  have hdata : s'.dataAt = s.dataAt := by funext a q; unfold Shared.dataAt; rw [hcap, hcells]
  cases x with
  | pushWait | pushStoreRound | pushStoreData | growClose | growAwait | growLoadTop | popTail
  | popTailClear | popClaim | popExchange =>
    simp only [Phase, Fresh] at h ⊢
    simp only [htop, hbottom, hcurrent, hcap, hcells, hdata]
    exact h
  | growExchange =>
    obtain ⟨hc, hlt, hrest⟩ := h
    exact ⟨hc.congr htop hcurrent hheap hwindow, by rw [hbottom]; exact hlt,
      hrest.congr hbottom hcurrent hheap hwindow⟩
  | growStoreData =>
    obtain ⟨hc, hlt, hrest, hnone, hp⟩ := h
    exact ⟨hc.congr htop hcurrent hheap hwindow, by rw [hbottom]; exact hlt,
      hrest.congr hbottom hcurrent hheap hwindow, by rw [hdata, hcurrent]; exact hnone,
      by rw [hwindow, hcap, hcurrent]; exact hp⟩
  | growStoreRound =>
    obtain ⟨hc, hlt, hrest⟩ := h
    exact ⟨hc.congr htop hcurrent hheap hwindow, by rw [hbottom]; exact hlt,
      hrest.congr hbottom hcurrent hheap hwindow⟩
  | growPublish =>
    obtain ⟨i, hc, hle⟩ := h
    exact ⟨i, hc.congr htop hcurrent hheap hwindow, by rw [hbottom]; exact hle⟩
  | _ => trivial

theorem closed_of_quiesced (h : x.quiesced = true) : x.closed = true := by
  cases x <;> first | rfl | cases h

theorem inside_of_arrayOf (h : x.arrayOf = some n) : x.inside = true := by
  cases x <;> first | rfl | cases h

theorem registered_of_inside (h : x.inside = true) : x.registered = 1 := by
  cases x <;> first | rfl | cases h

/-- An operation that neither shows nor holds anything of the owner's. -/
structure Plain (x : Local α) : Prop where
  closed : x.closed = false
  spare : x.spare = none
  phase : ∀ s, Phase s (some x)

theorem plain_of_not_ofOwner (hx : x.ofOwner = false) : Plain x := by
  cases x <;> first | exact ⟨rfl, rfl, fun _ => trivial⟩ | cases hx

theorem plain_start (op : Op α) : Plain (start op) := by
  cases op with
  | stealBatch max =>
    simp only [start]
    split <;> exact ⟨rfl, rfl, fun _ => trivial⟩
  | _ => exact ⟨rfl, rfl, fun _ => trivial⟩

theorem not_plain_of_closed (hx : x.closed = true) : ¬ Plain x := fun h => by
  rw [h.closed] at hx
  cases hx

theorem not_plain_of_spare (hx : x.spare = some n) : ¬ Plain x := fun h => by
  rw [h.spare] at hx
  cases hx

end Congr

variable [Fintype Tid]

/-- Every pushed node is in the current array, in the owner's other array, in the hands of one
operation, deleted or leaked, and in one place only. -/
def Conserved (owner : Tid) (s : Shared α) (l : Tid → Option (Local α)) : Prop :=
  (s.pushed : Multiset (Node α)) = s.stock s.current + spareStock s (l owner) +
    hands Local.held l + (s.deleted : Multiset (Node α)) + (s.leaked : Multiset (Node α))

/-- The invariant of the queue. -/
structure Inv (owner : Tid) (s : Shared α) (l : Tid → Option (Local α)) : Prop where
  only : ∀ t x, l t = some x → x.ofOwner = true → t = owner
  /-- The gate's counter is right up to wrapping, -/
  active : s.active = BitVec.ofNat 32 (hands Local.registered l)
  /-- and there are too few thieves for it to wrap. -/
  few : Fintype.card Tid ≤ 2 ^ 32
  gate : s.gate = true ↔ ∃ x, l owner = some x ∧ x.closed = true
  quiet : ∀ x, l owner = some x → x.quiesced = true → ∀ t y, l t = some y → y.inside = false
  arrayOf : ∀ t x a, l t = some x → x.arrayOf = some a → a = s.array
  current : s.current = s.array
  allocated : s.array < s.allocated
  freed : ∀ a ∈ s.freed, a < s.allocated ∧ a ≠ s.array
  spare : ∀ x n, l owner = some x → x.spare = some n → n < s.allocated ∧ n ≠ s.array ∧ n ∉ s.freed
  room : s.bottom ≤ s.top + (s.cap s.current).size
  phase : Phase s (l owner)
  numbered : Numbered s.pushed
  conserved : Conserved owner s l

theorem inv_init (hfew : Fintype.card Tid ≤ 2 ^ 32) (owner : Tid) (r : Ring) :
    Inv owner (init r : Shared α) fun _ => none where
  only t x h := by cases h
  active := by
    rw [hands_eq_zero fun _ => rfl]
    rfl
  few := hfew
  gate := ⟨(by rintro ⟨⟩), (by rintro ⟨x, ⟨⟩, _⟩)⟩
  quiet x h := by cases h
  arrayOf t x a h := by cases h
  current := rfl
  allocated := Nat.one_pos
  freed a h := by cases h
  spare x n h := by cases h
  room := Nat.zero_le _
  phase := trivial
  numbered := numbered_nil
  conserved := by
    have hbag : (init r : Shared α).stock 0 = 0 := bag_eq_zero.mpr fun _ _ => rfl
    show (0 : Multiset (Node α)) = (init r : Shared α).stock 0 + 0 + hands Local.held _ + 0 + 0
    rw [hbag, hands_eq_zero fun _ => rfl]
    rfl

namespace Inv

variable [DecidableEq Tid] {owner t : Tid} {s s' : Shared α} {l : Tid → Option (Local α)}
  {x y : Local α} {o : Option (Local α)}

/-! ## Steps of a thief -/

/-- What a step that is not the owner's leaves alone. -/
structure Untouched (s s' : Shared α) : Prop where
  array : s'.array = s.array
  gate : s'.gate = s.gate
  bottom : s'.bottom = s.bottom
  current : s'.current = s.current
  cap : ∀ a, s'.cap a = s.cap a
  cells : ∀ a, a ≠ s.array → s'.cells a = s.cells a
  allocated : s'.allocated = s.allocated
  freed : s'.freed = s.freed
  pushed : s'.pushed = s.pushed
  leaked : s'.leaked = s.leaked
  window : s'.window = s.window

theorem Untouched.refl (s : Shared α) : Untouched s s where
  array := rfl
  gate := rfl
  bottom := rfl
  current := rfl
  cap _ := rfl
  cells _ _ := rfl
  allocated := rfl
  freed := rfl
  pushed := rfl
  leaked := rfl
  window := rfl

/-- Before the window, the owner's knowledge survives the steps of thieves. -/
theorem phase_transfer (hu : Untouched s s') (htop : s.top ≤ s'.top)
    (hempty : ∀ pos, s.dataAt s.current pos = none → s'.dataAt s'.current pos = none)
    (hspare : ∀ x n, o = some x → x.spare = some n → n ≠ s.array)
    (hq : ∀ x, o = some x → x.quiesced = false) (h : Phase s o) : Phase s' o := by
  rcases o with _ | x
  · trivial
  have hcap : s'.cap s'.current = s.cap s.current := by rw [hu.current, hu.cap]
  cases x with
  | pushWait | pushStoreRound =>
    simp only [Phase] at h ⊢
    rw [hu.bottom, hcap]
    omega
  | pushStoreData =>
    simp only [Phase] at h ⊢
    rw [hu.bottom, hcap]
    exact ⟨by omega, hempty _ h.2⟩
  | growClose item n | growAwait item n =>
    have hne := hspare _ n rfl rfl
    simp only [Phase, Fresh] at h ⊢
    rw [hcap, hu.cap, hu.cells n hne]
    exact h
  | growLoadTop | growExchange | growStoreData | growStoreRound | growPublish | growDelete
  | growOpen => cases hq _ rfl
  | popTail | popTailClear | popClaim | popExchange =>
    simp only [Phase] at h ⊢
    rw [hu.bottom]
    exact h
  | _ => trivial

/-- A step that is not the owner's: it leaves the owner's data, empties cells of the current array at
most, and after the gate has been closed does not even that. -/
theorem thief (h : Inv owner s l) (hu : Untouched s s') (hx : ∀ x, l t = some x → Plain x)
    (hy : ∀ y, o = some y → Plain y) (honly : ∀ y, o = some y → y.ofOwner = true → t = owner)
    (hactive : s'.active + BitVec.ofNat 32 (hand Local.registered (l t)) =
      s.active + BitVec.ofNat 32 (hand Local.registered o))
    (htop : s.top ≤ s'.top)
    (hempty : ∀ pos, s.dataAt s.current pos = none → s'.dataAt s'.current pos = none)
    (hinside : ∀ y, o = some y → y.inside = true →
      (∃ x, l t = some x ∧ x.inside = true) ∨ s.gate = false)
    (hout : (∀ x, l t = some x → x.inside = false) →
      s'.top = s.top ∧ s'.heap = s.heap)
    (harray : ∀ y a, o = some y → y.arrayOf = some a →
      (∃ x, l t = some x ∧ x.arrayOf = some a) ∨ a = s.array)
    (hcons : Conserved owner s' (Function.update l t o)) :
    Inv owner s' (Function.update l t o) := by
  -- the owner may be the thread that moves, between its own operations
  have howner : ∀ x, (Function.update l t o) owner = some x → ¬ Plain x → l owner = some x := by
    intro x hx' hxp
    rcases update_eq_some hx' with ⟨_, ho⟩ | ⟨_, hx'⟩
    · exact absurd (hy x ho) hxp
    · exact hx'
  have hback : ∀ x, l owner = some x → ¬ Plain x → (Function.update l t o) owner = some x := by
    intro x hx' hxp
    have hne : owner ≠ t := by
      rintro rfl
      exact hxp (hx x hx')
    rw [Function.update_of_ne hne, hx']
  constructor
  · intro u z hu' hz
    rcases update_eq_some hu' with ⟨rfl, ho⟩ | ⟨_, hu'⟩
    · exact honly z ho hz
    · exact h.only u z hu' hz
  · exact ofNat_hands_update h.active hactive
  · exact h.few
  · rw [hu.gate, h.gate]
    constructor
    · rintro ⟨x, hx', hc⟩
      exact ⟨x, hback x hx' (not_plain_of_closed hc), hc⟩
    · rintro ⟨x, hx', hc⟩
      exact ⟨x, howner x hx' (not_plain_of_closed hc), hc⟩
  · intro x hx' hq u y hu'
    have hl := howner x hx' (not_plain_of_closed (closed_of_quiesced hq))
    rcases update_eq_some hu' with ⟨_, ho⟩ | ⟨_, hu'⟩
    · by_contra hin
      rcases hinside y ho (by simpa using hin) with ⟨z, hz, hzin⟩ | hgate
      · rw [h.quiet x hl hq t z hz] at hzin
        cases hzin
      · have := h.gate.mpr ⟨x, hl, closed_of_quiesced hq⟩
        rw [hgate] at this
        cases this
    · exact h.quiet x hl hq u y hu'
  · intro u y a hu' ha
    rw [hu.array]
    rcases update_eq_some hu' with ⟨_, ho⟩ | ⟨_, hu'⟩
    · rcases harray y a ho ha with ⟨z, hz, hza⟩ | he
      · exact h.arrayOf t z a hz hza
      · exact he
    · exact h.arrayOf u y a hu' ha
  · rw [hu.current, hu.array]
    exact h.current
  · rw [hu.array, hu.allocated]
    exact h.allocated
  · rw [hu.array, hu.allocated, hu.freed]
    exact h.freed
  · intro x n hx' hn
    rw [hu.array, hu.allocated, hu.freed]
    exact h.spare x n (howner x hx' (not_plain_of_spare hn)) hn
  · have := h.room
    rw [hu.bottom, hu.current, hu.cap]
    omega
  · by_cases ht : owner = t
    · subst ht
      rw [Function.update_self]
      rcases o with _ | y
      · trivial
      · exact (hy y rfl).phase s'
    · rw [Function.update_of_ne ht]
      by_cases hq : ∃ x, l owner = some x ∧ x.quiesced = true
      · obtain ⟨x, hx', hq⟩ := hq
        obtain ⟨hteq, hheap⟩ := hout fun z hz => h.quiet x hx' hq t z hz
        exact h.phase.congr hteq hu.bottom hu.current hheap hu.window
      · refine phase_transfer hu htop hempty (fun x n hx' hn => (h.spare x n hx' hn).2.1) ?_ h.phase
        intro x hx'
        by_contra hqx
        exact hq ⟨x, hx', by simpa using hqx⟩
  · rw [hu.pushed]
    exact h.numbered
  · exact hcons

omit [Fintype Tid] in
/-- The owner's other array, when the step is not the owner's. -/
theorem spareStock_update (hx : ∀ x, l t = some x → Plain x) (hy : ∀ y, o = some y → Plain y) :
    spareStock s (Function.update l t o owner) = spareStock s (l owner) := by
  have hnone : ∀ o' : Option (Local α), (∀ x, o' = some x → Plain x) → spareStock s o' = 0 := by
    intro o' ho'
    rcases o' with _ | x
    · rfl
    · unfold spareStock
      rw [Option.bind_some, (ho' x rfl).spare]
  by_cases ht : owner = t
  · subst ht
    rw [Function.update_self, hnone o hy, hnone _ hx]
  · rw [Function.update_of_ne ht]

/-- The ledger after a step that moves nodes between the current array, the thread's hands and the
deleted ones. -/
theorem conserved_thief (h : Inv owner s l) (hu : Untouched s s')
    (hx : ∀ x, l t = some x → Plain x) (hy : ∀ y, o = some y → Plain y)
    (hbal : s'.stock s.current + hand Local.held o + (s'.deleted : Multiset (Node α)) =
      s.stock s.current + hand Local.held (l t) + (s.deleted : Multiset (Node α))) :
    Conserved owner s' (Function.update l t o) := by
  have hspare : spareStock s' (Function.update l t o owner) = spareStock s (l owner) := by
    rw [spareStock_update hx hy]
    unfold spareStock
    cases hs : (l owner).bind Local.spare with
    | none => rfl
    | some n =>
      obtain ⟨x, hlx, hn⟩ := Option.bind_eq_some_iff.mp hs
      show s'.stock n = s.stock n
      unfold Shared.stock
      rw [hu.cap, hu.cells n (h.spare x n hlx hn).2.1]
  have hup := hands_update Local.held l t o
  have hcons := h.conserved
  unfold Conserved at hcons ⊢
  rw [hu.pushed, hu.leaked, hu.current, hspare, hcons]
  refine add_right_cancel (b := hand Local.held (l t) + hand Local.held o) ?_
  calc _ = (s.stock s.current + hand Local.held (l t) + (s.deleted : Multiset (Node α))) +
        spareStock s (l owner) + (hands Local.held l + hand Local.held o) +
          (s.leaked : Multiset (Node α)) := by abel
    _ = (s'.stock s.current + hand Local.held o + (s'.deleted : Multiset (Node α))) +
        spareStock s (l owner) + (hands Local.held (Function.update l t o) +
          hand Local.held (l t)) + (s.leaked : Multiset (Node α)) := by rw [hbal, hup]
    _ = _ := by abel

/-- A step of a thief that leaves the arrays and the ledger. -/
theorem thief_quiet (h : Inv owner s l) (hu : Untouched s s') (hheap : s'.heap = s.heap)
    (hdeleted : s'.deleted = s.deleted) (htop : s'.top = s.top)
    (hx : ∀ x, l t = some x → Plain x) (hy : ∀ y, o = some y → Plain y)
    (honly : ∀ y, o = some y → y.ofOwner = true → t = owner)
    (hheld : hand Local.held o = hand Local.held (l t))
    (hactive : s'.active + BitVec.ofNat 32 (hand Local.registered (l t)) =
      s.active + BitVec.ofNat 32 (hand Local.registered o))
    (hinside : ∀ y, o = some y → y.inside = true →
      (∃ x, l t = some x ∧ x.inside = true) ∨ s.gate = false)
    (harray : ∀ y a, o = some y → y.arrayOf = some a →
      (∃ x, l t = some x ∧ x.arrayOf = some a) ∨ a = s.array) :
    Inv owner s' (Function.update l t o) := by
  have hdata : s'.dataAt = s.dataAt := by
    funext a q; unfold Shared.dataAt Shared.cells Shared.cap; rw [hheap]
  refine h.thief hu hx hy honly hactive htop.ge ?_ hinside (fun _ => ⟨htop, hheap⟩) harray ?_
  · intro pos hpos
    rw [hdata, hu.current]
    exact hpos
  · refine h.conserved_thief hu hx hy ?_
    have hstock : s'.stock s.current = s.stock s.current := by
      unfold Shared.stock Shared.cells Shared.cap; rw [hheap]
    rw [hstock, hdeleted, hheld]

theorem quiet_at (h : Inv owner s l) (hx : l t = some x) (hxo : x.ofOwner = false)
    (hyo : y.ofOwner = false) (hu : Untouched s s') (hheap : s'.heap = s.heap)
    (hdeleted : s'.deleted = s.deleted) (htop : s'.top = s.top) (hheld : y.held = x.held)
    (hactive : s'.active + BitVec.ofNat 32 x.registered =
      s.active + BitVec.ofNat 32 y.registered)
    (hinside : y.inside = true → x.inside = true ∨ s.gate = false)
    (harray : ∀ a, y.arrayOf = some a → x.arrayOf = some a ∨ a = s.array) :
    Inv owner s' (Function.update l t (some y)) := by
  refine h.thief_quiet hu hheap hdeleted htop ?_ ?_ ?_ (by rw [hx]; exact hheld)
    (by rw [hx]; exact hactive) ?_ ?_
  · intro z hz
    rw [hx, Option.some.injEq] at hz
    exact plain_of_not_ofOwner (hz ▸ hxo)
  · rintro _ ⟨⟩
    exact plain_of_not_ofOwner hyo
  · rintro _ ⟨⟩ hy
    rw [hyo] at hy
    cases hy
  · rintro _ ⟨⟩ hy
    exact (hinside hy).imp_left fun hxi => ⟨x, hx, hxi⟩
  · rintro _ a ⟨⟩ ha
    exact (harray a ha).imp_left fun hxa => ⟨x, hx, hxa⟩

omit [DecidableEq Tid] in
/-- When the owner finds nobody active, no thief is registered. -/
theorem nobody_registered (h : Inv owner s l) (hx : l owner = some x) (hxo : x.ofOwner = true)
    (hzero : s.active = 0) (hy : l t = some y) : y.registered = 0 := by
  have hone : ∀ u, hand Local.registered (l u) ≤ 1 := fun u => by
    cases l u with
    | none => exact Nat.zero_le 1
    | some z => cases z <;> first | exact le_rfl | exact Nat.zero_le 1
  have howner : hand Local.registered (l owner) = 0 := by
    rw [hx]
    cases x <;> first | rfl | cases hxo
  have hlt := (hands_lt_card hone howner).trans_le h.few
  have hnone := hands_eq_zero_of_ofNat (h.active.symm.trans hzero) hlt
  have hle := le_hands Local.registered hy
  omega

/-- The steps of a thief that write cells: it is past the gate, so its array is the current one. -/
theorem write_at (h : Inv owner s l) (hx : l t = some x) (hxo : x.ofOwner = false)
    (hxi : x.inside = true) (hyo : y.ofOwner = false) (hu : Untouched s s')
    (htop : s.top ≤ s'.top) (hactive : s'.active = s.active)
    (hreg : y.registered = x.registered)
    (hempty : ∀ pos, s.dataAt s.current pos = none → s'.dataAt s'.current pos = none)
    (harray : ∀ a, y.arrayOf = some a → x.arrayOf = some a)
    (hbal : s'.stock s.current + y.held + (s'.deleted : Multiset (Node α)) =
      s.stock s.current + x.held + (s.deleted : Multiset (Node α))) :
    Inv owner s' (Function.update l t (some y)) := by
  have hx' : ∀ z, l t = some z → Plain z := fun z hz => by
    rw [hx, Option.some.injEq] at hz
    exact plain_of_not_ofOwner (hz ▸ hxo)
  have hy' : ∀ z, some y = some z → Plain z := by
    rintro _ ⟨⟩
    exact plain_of_not_ofOwner hyo
  refine h.thief hu hx' hy' ?_ ?_ htop hempty ?_ ?_ ?_ ?_
  · rintro _ ⟨⟩ hz
    rw [hyo] at hz
    cases hz
  · rw [hx]
    show s'.active + BitVec.ofNat 32 x.registered = s.active + BitVec.ofNat 32 y.registered
    rw [hactive, hreg]
  · rintro _ ⟨⟩ _
    exact .inl ⟨x, hx, hxi⟩
  · intro hout
    rw [hout x hx] at hxi
    cases hxi
  · rintro _ a ⟨⟩ ha
    exact .inl ⟨x, hx, harray a ha⟩
  · exact h.conserved_thief hu hx' hy' (by rw [hx]; exact hbal)

omit [DecidableEq Tid] [Fintype Tid] in
/-- After a successful steal a thief tries again or leaves. -/
theorem succeeded_cases (k : Kind α) (v : α) :
    (∃ k', k.succeeded v = .loadTop k') ∨ ∃ r, k.succeeded v = .exit r := by
  cases k with
  | batch max items =>
    simp only [Kind.succeeded]
    split
    · exact .inl ⟨_, rfl⟩
    · exact .inr ⟨_, rfl⟩
  | _ => exact .inr ⟨_, rfl⟩

/-- Every step that is not the owner's keeps the invariant. -/
theorem step_thief (h : Inv owner s l) (hx : l t = some x) (hown : x.ofOwner = false)
    (hr : result x = none) (b : Bool) :
    Inv owner (step b s x).1 (Function.update l t (some (step b s x).2)) := by
  cases x with
  | enterLoadGate k =>
    simp only [step]
    split
    · exact h.quiet_at hx rfl rfl (.refl s) rfl rfl rfl rfl rfl nofun nofun
    · exact h.quiet_at hx rfl rfl (.refl s) rfl rfl rfl rfl rfl nofun nofun
  | enterAdd k =>
    exact h.quiet_at hx rfl rfl { Untouched.refl s with } rfl rfl rfl rfl (add_zero _) nofun nofun
  | enterRecheck k =>
    simp only [step]
    split
    next => exact h.quiet_at hx rfl rfl (.refl s) rfl rfl rfl rfl rfl nofun nofun
    next hgate =>
      exact h.quiet_at hx rfl rfl (.refl s) rfl rfl rfl rfl rfl
        (fun _ => .inr (by simpa using hgate)) nofun
  | enterSub k =>
    refine h.quiet_at hx rfl rfl { Untouched.refl s with } rfl rfl rfl rfl ?_ nofun nofun
    show s.active - 1 + 1 = s.active + 0
    rw [sub_add_cancel, add_zero]
  | loadTop k =>
    exact h.quiet_at hx rfl rfl (.refl s) rfl rfl rfl rfl rfl (fun _ => .inl rfl) nofun
  | loadArray k t =>
    refine h.quiet_at hx rfl rfl (.refl s) rfl rfl rfl rfl rfl (fun _ => .inl rfl) ?_
    rintro a ⟨⟩
    exact .inr rfl
  | loadRound k t a =>
    have hclaim : Inv owner s (Function.update l _ (some (.claim k t a))) :=
      h.quiet_at hx rfl rfl (.refl s) rfl rfl rfl rfl rfl (fun _ => .inl rfl) fun _ ha => .inl ha
    have hexit : ∀ r, Inv owner s (Function.update l _ (some (.exit r))) := fun r =>
      h.quiet_at hx rfl rfl (.refl s) rfl rfl rfl rfl rfl (fun _ => .inl rfl) nofun
    cases k with
    | empty => exact hexit _
    | steal | batch =>
      simp only [step]
      split
      · exact hclaim
      · exact hexit _
  | claim k t a =>
    simp only [step]
    split
    next htop =>
      refine h.write_at hx rfl rfl rfl { Untouched.refl s with } ?_ rfl rfl (fun _ hp => hp)
        (fun _ ha => ha) rfl
      show s.top ≤ t + 1
      omega
    next => exact h.quiet_at hx rfl rfl (.refl s) rfl rfl rfl rfl rfl (fun _ => .inl rfl) nofun
  | exchange k t a =>
    obtain rfl : a = s.array := h.arrayOf _ _ a hx rfl
    rw [← h.current]
    cases hp : s.dataAt s.current t with
    | none =>
      simp only [step, hp]
      exact h.quiet_at hx rfl rfl (.refl s) rfl rfl rfl rfl rfl (fun _ => .inl rfl) nofun
    | some p =>
      simp only [step, hp]
      refine h.write_at hx rfl rfl rfl
        { Untouched.refl s with
          cap := fun _ => s.setData_cap ..
          cells := fun b hb => s.setData_other _ _ _ _ (by rw [h.current]; exact hb) }
        le_rfl rfl rfl ?_ (by rw [h.current]; exact fun _ ha => ha) ?_
      · intro pos hpos
        show (s.setData s.current t none).dataAt s.current pos = none
        rw [Shared.setData_dataAt]
        split
        · rfl
        · exact hpos
      · have hstock := s.stock_setData s.current t none
        rw [hp, slot_none, add_zero, slot_some] at hstock
        show _ + ({p} : Multiset (Node α)) + _ = _ + 0 + _
        rw [hstock, add_zero]
        rfl
  | clearRound k t a p =>
    obtain rfl : a = s.array := h.arrayOf _ _ a hx rfl
    refine h.write_at hx rfl rfl rfl
      { Untouched.refl s with
        cap := fun _ => s.clearRound_cap ..
        cells := fun b hb => s.clearRound_other _ _ _ hb } le_rfl rfl rfl ?_ nofun ?_
    · intro pos hpos
      show (s.clearRound s.array t).dataAt s.current pos = none
      unfold Shared.dataAt at hpos ⊢
      rw [Shared.clearRound_data, Shared.clearRound_cap]
      exact hpos
    · have hstock : (s.clearRound s.array t).stock s.current = s.stock s.current := by
        unfold Shared.stock
        rw [Shared.clearRound_data, Shared.clearRound_cap]
      show (s.clearRound s.array t).stock s.current + _ + _ = _
      rw [hstock]
      rfl
  | finish k p =>
    have hbal : s.stock s.current + 0 + ((s.deleted ++ [p] : List (Node α)) : Multiset _) =
        s.stock s.current + {p} + (s.deleted : Multiset (Node α)) := by
      rw [← Multiset.coe_add, Multiset.coe_singleton]
      abel
    simp only [step]
    rcases succeeded_cases k p.item with ⟨k', he⟩ | ⟨r, he⟩
    · rw [he]
      exact h.write_at hx rfl rfl rfl { Untouched.refl s with } le_rfl rfl rfl (fun _ hp => hp)
        nofun hbal
    · rw [he]
      exact h.write_at hx rfl rfl rfl { Untouched.refl s with } le_rfl rfl rfl (fun _ hp => hp)
        nofun hbal
  | exit r =>
    refine h.quiet_at hx rfl rfl { Untouched.refl s with } rfl rfl rfl rfl ?_ nofun nofun
    show s.active - 1 + 1 = s.active + 0
    rw [sub_add_cancel, add_zero]
  | done r => cases hr
  | _ => cases hown

/-! ## Steps of the owner -/

theorem conserved_own (h : Inv owner s l) (hx : l owner = some x)
    (hbal : (s'.pushed : Multiset (Node α)) + (s.stock s.current + spareStock s (some x) + x.held +
        (s.deleted : Multiset (Node α)) + (s.leaked : Multiset (Node α))) =
      (s.pushed : Multiset (Node α)) + (s'.stock s'.current + spareStock s' (some y) + y.held +
        (s'.deleted : Multiset (Node α)) + (s'.leaked : Multiset (Node α)))) :
    Conserved owner s' (Function.update l owner (some y)) := by
  have hup := hands_update Local.held l owner (some y)
  have hcons := h.conserved
  unfold Conserved at hcons ⊢
  rw [hx] at hup hcons
  rw [Function.update_self]
  have hup : hands Local.held (Function.update l owner (some y)) + x.held =
    hands Local.held l + y.held := hup
  refine add_right_cancel (b := s.stock s.current + spareStock s (some x) + x.held +
    (s.deleted : Multiset (Node α)) + (s.leaked : Multiset (Node α))) ?_
  rw [hbal, hcons]
  calc _ = (s.stock s.current + spareStock s (some x) + (s.deleted : Multiset (Node α)) +
          (s.leaked : Multiset (Node α))) + (hands Local.held l + y.held) +
        (s'.stock s'.current + spareStock s' (some y) + (s'.deleted : Multiset (Node α)) +
          (s'.leaked : Multiset (Node α))) := by abel
    _ = _ := by rw [← hup]; abel

theorem own (h : Inv owner s l) (hx : l owner = some x) (hxo : x.ofOwner = true)
    (hyi : y.registered = 0) (hactive : s'.active = s.active) (hgate : s'.gate = y.closed)
    (hq : y.quiesced = true → x.quiesced = true ∨ s.active = 0)
    (harray : s'.array = s.array ∨ x.quiesced = true) (hcurrent : s'.current = s'.array)
    (halloc : s'.array < s'.allocated)
    (hfreed : ∀ a ∈ s'.freed, a < s'.allocated ∧ a ≠ s'.array)
    (hspare : ∀ n, y.spare = some n → n < s'.allocated ∧ n ≠ s'.array ∧ n ∉ s'.freed)
    (hroom : s'.bottom ≤ s'.top + (s'.cap s'.current).size) (hphase : Phase s' (some y))
    (hnum : Numbered s'.pushed) (hcons : Conserved owner s' (Function.update l owner (some y))) :
    Inv owner s' (Function.update l owner (some y)) := by
  have hyin : y.inside = false := by
    by_contra hin
    rw [registered_of_inside (by simpa using hin)] at hyi
    cases hyi
  have hxr : x.registered = 0 := by cases x <;> first | rfl | cases hxo
  constructor
  · intro u z hu hz
    rcases update_eq_some hu with ⟨rfl, _⟩ | ⟨_, hu⟩
    · rfl
    · exact h.only u z hu hz
  · refine ofNat_hands_update h.active ?_
    rw [hx]
    show s'.active + BitVec.ofNat 32 x.registered = s.active + BitVec.ofNat 32 y.registered
    rw [hactive, hxr, hyi]
  · exact h.few
  · rw [Function.update_self, hgate]
    constructor
    · intro hc
      exact ⟨y, rfl, hc⟩
    · rintro ⟨_, ⟨⟩, hc⟩
      exact hc
  · rw [Function.update_self]
    rintro _ ⟨⟩ hyq u z hu
    rcases update_eq_some hu with ⟨_, ho⟩ | ⟨_, hu⟩
    · obtain rfl := Option.some.inj ho
      exact hyin
    · rcases hq hyq with hxq | hzero
      · exact h.quiet x hx hxq u z hu
      · by_contra hin
        have hreg := registered_of_inside (by simpa using hin)
        rw [h.nobody_registered hx hxo hzero hu] at hreg
        cases hreg
  · intro u z a hu hz
    rcases update_eq_some hu with ⟨_, ho⟩ | ⟨_, hu⟩
    · obtain rfl := Option.some.inj ho
      rw [inside_of_arrayOf hz] at hyin
      cases hyin
    · rcases harray with he | hxq
      · rw [he]
        exact h.arrayOf u z a hu hz
      · have hin := h.quiet x hx hxq u z hu
        rw [inside_of_arrayOf hz] at hin
        cases hin
  · exact hcurrent
  · exact halloc
  · exact hfreed
  · rw [Function.update_self]
    rintro _ n ⟨⟩ hn
    exact hspare n hn
  · exact hroom
  · rw [Function.update_self]
    exact hphase
  · exact hnum
  · exact hcons

omit [DecidableEq Tid] in
/-- The gate is closed exactly in the closed phases of `grow`. -/
theorem gate_at (h : Inv owner s l) (hx : l owner = some x) : s.gate = x.closed := by
  have hg := h.gate
  rw [hx] at hg
  cases hc : x.closed with
  | true => exact hg.mpr ⟨x, rfl, hc⟩
  | false =>
    by_contra hgate
    obtain ⟨_, ⟨⟩, hc'⟩ := hg.mp (by simpa using hgate)
    rw [hc] at hc'
    cases hc'

omit [DecidableEq Tid] in
theorem phase_at (h : Inv owner s l) (hx : l owner = some x) : Phase s (some x) := by
  rw [← hx]
  exact h.phase

/-- A step of the owner that leaves the gate and the set of arrays. -/
theorem own_plain (h : Inv owner s l) (hx : l owner = some x) (hxo : x.ofOwner = true)
    (hyi : y.registered = 0) (hactive : s'.active = s.active) (hgate : s'.gate = s.gate)
    (hclosed : y.closed = x.closed) (hq : y.quiesced = true → x.quiesced = true ∨ s.active = 0)
    (harray : s'.array = s.array) (hcurrent : s'.current = s.current)
    (halloc : s'.allocated = s.allocated) (hfreed : s'.freed = s.freed)
    (hspare : y.spare = x.spare)
    (hroom : s'.bottom ≤ s'.top + (s'.cap s'.current).size) (hphase : Phase s' (some y))
    (hnum : Numbered s'.pushed)
    (hbal : (s'.pushed : Multiset (Node α)) + (s.stock s.current + spareStock s (some x) + x.held +
        (s.deleted : Multiset (Node α)) + (s.leaked : Multiset (Node α))) =
      (s.pushed : Multiset (Node α)) + (s'.stock s'.current + spareStock s' (some y) + y.held +
        (s'.deleted : Multiset (Node α)) + (s'.leaked : Multiset (Node α)))) :
    Inv owner s' (Function.update l owner (some y)) := by
  refine h.own hx hxo hyi hactive (by rw [hgate, hclosed]; exact h.gate_at hx) hq (.inl harray)
    (by rw [hcurrent, harray]; exact h.current) (by rw [harray, halloc]; exact h.allocated)
    (by rw [hfreed, halloc, harray]; exact h.freed) ?_ hroom hphase hnum (h.conserved_own hx hbal)
  intro n hn
  rw [halloc, harray, hfreed]
  exact h.spare x n hx (hspare ▸ hn)

theorem own_load (h : Inv owner s l) (hx : l owner = some x) (hxo : x.ofOwner = true)
    (hyi : y.registered = 0) (hclosed : y.closed = x.closed)
    (hq : y.quiesced = true → x.quiesced = true ∨ s.active = 0) (hspare : y.spare = x.spare)
    (hheld : y.held = x.held) (hphase : Phase s (some y)) :
    Inv owner s (Function.update l owner (some y)) := by
  refine h.own_plain hx hxo hyi rfl rfl hclosed hq rfl rfl rfl rfl hspare h.room hphase h.numbered
    ?_
  have hs : spareStock s (some y) = spareStock s (some x) := by
    unfold spareStock
    rw [Option.bind_some, Option.bind_some, hspare]
  rw [hs, hheld]

end Inv

end LowLatency.WorkStealingQueue
