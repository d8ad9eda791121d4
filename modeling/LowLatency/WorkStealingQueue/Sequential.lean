import LowLatency.WorkStealingQueue.Basic

/-!
# The queue as a double-ended queue

Operations that do not overlap, whoever calls them, behave as on an unbounded double-ended queue
(`refines_deque`). `Rep` relates the members to the list of the items held: an array holds the
items from `top` on, each with its round, its other cells are empty, and no cell shows the round of
a position from `bottom_` on (`Laid`). Growing moves the items, one position at a time, from the
front of one array to the back of another; a steal removes at the front, and the tail branch of
`pop` at the back.
-/

namespace LowLatency.WorkStealingQueue

open Concurrency

variable {α : Type*}

/-! ## The specification -/

/-- One call on a double-ended queue that holds `items`, oldest first. -/
def dequeStep (items : List α) : Op α → List α × Result α
  | .push x => (items ++ [x], .pushed)
  | .pop => (items.dropLast, .popped items.getLast?)
  | .steal => (items.tail, .stolen items.head?)
  | .stealBatch max => (items.drop max, .batch (items.take max))
  | .empty => (items, .isEmpty items.isEmpty)

/-- `QueueWorker::size`. -/
def size (s : Shared α) : ℕ := s.bottom - s.top

/-- `QueueWorker::capacity`. -/
def capacity (s : Shared α) : ℕ := (s.cap s.current).mask + 1

/-! ## The items in an array -/

/-- Array `a` holds the items from position `p` on, and nothing else. -/
structure Laid (s : Shared α) (a p : ℕ) (items : List α) : Prop where
  le : items.length ≤ (s.cap a).size
  cells : ∀ i < (s.cap a).size, (s.dataAt a (p + i)).map Node.item = items[i]?
  rounds : ∀ i < items.length, s.roundAt a (p + i) = p + i + 1
  /-- No position behind the items shows its round. -/
  stale : ∀ q, p + items.length ≤ q → s.roundAt a q ≠ q + 1

namespace Laid

variable {s s' : Shared α} {a p q : ℕ} {items : List α} {x : α}

theorem of_heap (h : Laid s a p items) (he : s'.heap a = s.heap a) : Laid s' a p items := by
  have hcap : s'.cap a = s.cap a := congrArg Arr.cap he
  have hcells : s'.cells a = s.cells a := congrArg Arr.cells he
  have hdata : ∀ q, s'.dataAt a q = s.dataAt a q := fun q => by
    unfold Shared.dataAt
    rw [hcap, hcells]
  have hround : ∀ q, s'.roundAt a q = s.roundAt a q := fun q => by
    unfold Shared.roundAt
    rw [hcap, hcells]
  constructor
  · rw [hcap]
    exact h.le
  · intro i hi
    rw [hdata]
    exact h.cells i (hcap ▸ hi)
  · intro i hi
    rw [hround]
    exact h.rounds i hi
  · intro q hq
    rw [hround]
    exact h.stale q hq

theorem setCells (h : Laid s a p items) {b : ℕ} (hb : a ≠ b) (c : Cells α) :
    Laid (s.setCells b c) a p items :=
  h.of_heap (Function.update_of_ne hb ..)

theorem init (ha : (s.cells a) = .init) : Laid s a p [] where
  le := Nat.zero_le _
  cells i _ := by
    unfold Shared.dataAt
    rw [ha]
    rfl
  rounds i hi := by cases hi
  stale q _ := by
    unfold Shared.roundAt
    rw [ha]
    exact (Nat.succ_ne_zero q).symm

theorem head (h : Laid s a p (x :: items)) :
    ∃ n, s.dataAt a p = some n ∧ n.item = x ∧ s.roundAt a p = p + 1 := by
  have hcell := h.cells 0 (s.cap a).size_pos
  obtain ⟨n, hn, hx⟩ := Option.map_eq_some_iff.mp hcell
  exact ⟨n, hn, hx, h.rounds 0 (Nat.succ_pos _)⟩

theorem last (h : Laid s a p (items ++ [x])) :
    ∃ n, s.dataAt a (p + items.length) = some n ∧ n.item = x := by
  have hle := h.le
  rw [List.length_append, List.length_singleton] at hle
  have hcell := h.cells items.length (by omega)
  rw [List.getElem?_concat_length] at hcell
  exact Option.map_eq_some_iff.mp hcell

/-- The slot behind the items is empty while there is room. -/
theorem room (h : Laid s a p items) (hlt : items.length < (s.cap a).size) :
    s.dataAt a (p + items.length) = none := by
  have hcell := h.cells items.length hlt
  rw [List.getElem?_eq_none le_rfl] at hcell
  exact Option.map_eq_none_iff.mp hcell

theorem slot_ne (r : Pow2) {i j : ℕ} (hi : i < r.size) (hj : j < r.size) (hne : i ≠ j) :
    r.slot (p + i) ≠ r.slot (p + j) := by
  intro he
  have := r.slot_inj he (by omega) (by omega)
  omega

theorem append (h : Laid s a p items) (hlt : items.length < (s.cap a).size) (n : Node α) :
    Laid ((s.setData a (p + items.length) (some n)).setRound a (p + items.length)
      (p + items.length + 1)) a p (items ++ [n.item]) := by
  constructor
  · rw [Shared.setRound_cap, Shared.setData_cap, List.length_append, List.length_singleton]
    exact hlt
  · intro i hi
    rw [Shared.setRound_cap, Shared.setData_cap] at hi
    rw [Shared.setRound_dataAt, Shared.setData_dataAt]
    by_cases he : i = items.length
    · rw [he, if_pos ⟨rfl, rfl⟩, List.getElem?_concat_length]
      rfl
    · rw [if_neg fun hs => slot_ne _ hi hlt he hs.2, h.cells i hi]
      rcases Nat.lt_or_ge i items.length with hi' | hi'
      · rw [List.getElem?_append_left hi']
      · rw [List.getElem?_eq_none hi', List.getElem?_eq_none]
        rw [List.length_append, List.length_singleton]
        omega
  · intro i hi
    rw [List.length_append, List.length_singleton] at hi
    rw [Shared.setRound_roundAt, Shared.setData_cap, Shared.setData_roundAt]
    by_cases he : i = items.length
    · rw [he, if_pos ⟨rfl, rfl⟩]
    · rw [if_neg fun hs => slot_ne _ (by omega) hlt he hs.2]
      exact h.rounds i (by omega)
  · intro q hq
    rw [List.length_append, List.length_singleton] at hq
    rw [Shared.setRound_roundAt, Shared.setData_roundAt]
    split
    · omega
    · exact h.stale q (by omega)

theorem tail (h : Laid s a p (x :: items)) : Laid (s.setData a p none) a (p + 1) items := by
  have hle := h.le
  rw [List.length_cons] at hle
  constructor
  · rw [Shared.setData_cap]
    omega
  · intro i hi
    rw [Shared.setData_cap] at hi
    rw [Shared.setData_dataAt]
    by_cases he : i + 1 = (s.cap a).size
    · rw [show p + 1 + i = p + (s.cap a).size by omega, Pow2.slot_add_size, if_pos ⟨rfl, rfl⟩,
        List.getElem?_eq_none (by omega)]
      rfl
    · have hne := slot_ne (p := p) (s.cap a) (i := i + 1) (j := 0) (by omega) (by omega) (by omega)
      rw [show p + 1 + i = p + (i + 1) by omega, if_neg fun hs => hne hs.2,
        h.cells (i + 1) (by omega), List.getElem?_cons_succ]
  · intro i hi
    rw [Shared.setData_roundAt, show p + 1 + i = p + (i + 1) by omega]
    exact h.rounds (i + 1) (Nat.succ_lt_succ hi)
  · intro q hq
    rw [Shared.setData_roundAt]
    refine h.stale q ?_
    rw [List.length_cons]
    omega

theorem clearRound (h : Laid s a p items) (hq : q < p) : Laid (s.clearRound a q) a p items := by
  constructor
  · rw [Shared.clearRound_cap]
    exact h.le
  · intro i hi
    rw [Shared.clearRound_cap] at hi
    rw [Shared.clearRound_dataAt]
    exact h.cells i hi
  · intro i hi
    exact Shared.clearRound_roundAt (h.rounds i hi) (by omega)
  · intro k hk
    exact Shared.clearRound_stale (.inl (h.stale k hk))

theorem dropLast (h : Laid s a p (items ++ [x])) :
    Laid ((s.setData a (p + items.length) none).clearRound a (p + items.length)) a p items := by
  have hle := h.le
  rw [List.length_append, List.length_singleton] at hle
  constructor
  · rw [Shared.clearRound_cap, Shared.setData_cap]
    omega
  · intro i hi
    rw [Shared.clearRound_cap, Shared.setData_cap] at hi
    rw [Shared.clearRound_dataAt, Shared.setData_dataAt]
    by_cases he : i = items.length
    · rw [he, if_pos ⟨rfl, rfl⟩, List.getElem?_eq_none le_rfl]
      rfl
    · rw [if_neg fun hs => slot_ne _ hi (by omega) he hs.2, h.cells i hi]
      rcases Nat.lt_or_ge i items.length with hi' | hi'
      · rw [List.getElem?_append_left hi']
      · rw [List.getElem?_eq_none hi', List.getElem?_eq_none]
        rw [List.length_append, List.length_singleton]
        omega
  · intro i hi
    refine Shared.clearRound_roundAt ?_ (by omega)
    rw [Shared.setData_roundAt]
    refine h.rounds i ?_
    rw [List.length_append, List.length_singleton]
    omega
  · intro q hq
    refine Shared.clearRound_stale ?_
    rw [Shared.setData_roundAt]
    by_cases he : q = p + items.length
    · exact .inr he
    · refine .inl (h.stale q ?_)
      rw [List.length_append, List.length_singleton]
      omega

end Laid

/-! ## Representation -/

/-- Between operations, the members represent the list of the items held, oldest first. -/
structure Rep (s : Shared α) (items : List α) : Prop where
  array : s.array = s.current
  gate : s.gate = false
  active : s.active = 0
  fresh : s.current < s.allocated
  bottom : s.bottom = s.top + items.length
  laid : Laid s s.current s.top items

theorem rep_init (r : Ring) : Rep (init r : Shared α) [] where
  array := rfl
  gate := rfl
  active := rfl
  fresh := Nat.one_pos
  bottom := rfl
  laid := .init rfl

variable {s : Shared α} {items : List α} {x : α} {n t : ℕ}

theorem Rep.size_eq (h : Rep s items) : size s = items.length := by
  unfold size
  rw [h.bottom]
  omega

theorem capacity_eq (s : Shared α) : capacity s = (s.cap s.current).size := by
  have hpos := (s.cap s.current).size_pos
  unfold capacity Pow2.mask
  omega

/-! ## Push -/

/-- What `push` leaves when it need not grow. -/
def pushedState (s : Shared α) (x : α) : Shared α :=
  let p : Node α := ⟨s.pushed.length, s.bottom, x⟩
  { (s.setData s.current s.bottom (some p)).setRound s.current s.bottom (s.bottom + 1) with
    pushed := s.pushed ++ [p]
    bottom := s.bottom + 1 }

theorem Rep.push_room (h : Rep s items) (hlt : items.length < (s.cap s.current).size) (x : α) :
    object.Returns s (.pushLoadTop x) (pushedState s x) .pushed ∧
      Rep (pushedState s x) (items ++ [x]) := by
  have hbottom := h.bottom
  constructor
  · have hload : step false s (.pushLoadTop x) = (s, .pushWait x) := if_neg (by omega)
    have hwait : step false s (.pushWait x) = (s, .pushStoreData x) := by
      refine if_neg ?_
      rw [hbottom, h.laid.room hlt]
      simp
    exact .step rfl hload (.step rfl hwait (.step rfl rfl (.step rfl rfl (.done rfl))))
  · refine ⟨h.array, h.gate, h.active, h.fresh, ?_, ?_⟩
    · show s.bottom + 1 = s.top + (items ++ [x]).length
      rw [hbottom, List.length_append, List.length_singleton]
      omega
    · have happend := h.laid.append hlt ⟨s.pushed.length, s.bottom, x⟩
      rw [← hbottom] at happend
      exact happend.of_heap rfl

/-- In the middle of `grow`: the items `done` are in the new array `n`, the items `rest` still in the
old one. -/
structure Copying (s : Shared α) (n t : ℕ) (done rest : List α) : Prop where
  ne : n ≠ s.current
  fresh : n < s.allocated
  active : s.active = 0
  top : s.top = t
  cap : s.cap n = (s.cap s.current).double
  le : done.length + rest.length ≤ (s.cap s.current).size
  bottom : s.bottom = t + (done.length + rest.length)
  old : Laid s s.current (t + done.length) rest
  new : Laid s n t done

/-- `growExchange`, `growStoreData` and `growStoreRound` on position `i`. -/
def copiedState (s : Shared α) (n i : ℕ) (p : Node α) : Shared α :=
  ((s.setData s.current i none).setData n i (some p)).setRound n i (i + 1)

namespace Copying

variable {done rest : List α}

theorem next (h : Copying s n t done (x :: rest)) :
    ∃ p, s.dataAt s.current (t + done.length) = some p ∧
      Copying (copiedState s n (t + done.length) p) n t (done ++ [x]) rest := by
  obtain ⟨p, hp, rfl, _⟩ := h.old.head
  have hle := h.le
  have hbottom := h.bottom
  rw [List.length_cons] at hle hbottom
  have hcap : ∀ a, (copiedState s n (t + done.length) p).cap a = s.cap a := fun a => by
    unfold copiedState
    rw [Shared.setRound_cap, Shared.setData_cap, Shared.setData_cap]
  refine ⟨p, hp, ⟨h.ne, h.fresh, h.active, h.top, ?_, ?_, ?_, ?_, ?_⟩⟩
  · show (copiedState s n (t + done.length) p).cap n =
      ((copiedState s n (t + done.length) p).cap s.current).double
    rw [hcap, hcap]
    exact h.cap
  · show _ ≤ ((copiedState s n (t + done.length) p).cap s.current).size
    rw [hcap, List.length_append, List.length_singleton]
    omega
  · show s.bottom = _
    rw [hbottom, List.length_append, List.length_singleton]
    omega
  · rw [List.length_append, List.length_singleton, ← Nat.add_assoc]
    have htail := h.old.tail
    exact (htail.setCells (Ne.symm h.ne) _).setCells (Ne.symm h.ne) _
  · have hnew : Laid (s.setData s.current (t + done.length) none) n t done :=
      h.new.setCells h.ne _
    have hroom : done.length < ((s.setData s.current (t + done.length) none).cap n).size := by
      rw [Shared.setData_cap, h.cap, Pow2.size_double]
      omega
    exact hnew.append hroom p

theorem publish (h : Copying s n t done []) (x : α) :
    ∃ s', object.Returns s (.growPublish x n t) s' .pushed ∧ Rep s' (done ++ [x]) := by
  have hle := h.le
  have hpos := (s.cap s.current).size_pos
  set s₁ : Shared α := { s with
    array := n
    current := n
    freed := s.freed ++ [s.current]
    leaked := s.leaked ++ ({ s with array := n, current := n } : Shared α).nodes s.current
    gate := false } with hs₁
  have hrep : Rep s₁ done := by
    refine ⟨rfl, rfl, h.active, h.fresh, ?_, ?_⟩
    · show s.bottom = s.top + done.length
      rw [h.bottom, h.top, List.length_nil, Nat.add_zero]
    · have hnew := h.new
      rw [← h.top] at hnew
      exact hnew.of_heap rfl
  have hroom : done.length < (s₁.cap s₁.current).size := by
    show done.length < (s.cap n).size
    rw [h.cap, Pow2.size_double]
    rw [List.length_nil] at hle
    omega
  obtain ⟨hret, hrep'⟩ := hrep.push_room hroom x
  exact ⟨_, .step rfl rfl (.step rfl rfl (.step rfl rfl hret)), hrep'⟩

/-- The copying loop. The induction is on the items that are still in the old array. -/
theorem returns (rest : List α) (x : α) : ∀ {s : Shared α} {done : List α},
    Copying s n t done rest → ∃ s',
      object.Returns s (copyNext s x n t (t + done.length)) s' .pushed ∧
      Rep s' (done ++ rest ++ [x]) := by
  induction rest with
  | nil =>
    intro s done h
    have hnext : copyNext s x n t (t + done.length) = .growPublish x n t := by
      refine if_neg ?_
      rw [h.bottom, List.length_nil, Nat.add_zero]
      exact Nat.lt_irrefl _
    rw [hnext, List.append_nil]
    exact h.publish x
  | cons y rest ih =>
    intro s done h
    obtain ⟨p, hp, hcopied⟩ := h.next
    obtain ⟨s', hret, hrep⟩ := ih hcopied
    have hnext : copyNext s x n t (t + done.length) = .growExchange x n t (t + done.length) := by
      refine if_pos ?_
      rw [h.bottom, List.length_cons]
      omega
    have hexchange : step false s (.growExchange x n t (t + done.length)) =
        (s.setData s.current (t + done.length) none,
          .growStoreData x n t (t + done.length) p) := by
      simp only [step, hp]
    rw [List.length_append, List.length_singleton, ← Nat.add_assoc] at hret
    rw [List.append_assoc done, List.singleton_append] at hrep
    refine ⟨s', ?_, hrep⟩
    rw [hnext]
    exact .step rfl hexchange (.step rfl rfl (.step rfl rfl hret))

end Copying

theorem Rep.copying (h : Rep s items) (w : ℕ → Option (Node α)) :
    Copying { s with
        heap := Function.update s.heap s.allocated ⟨(s.cap s.current).double, .init⟩
        allocated := s.allocated + 1
        gate := true
        window := w } s.allocated s.top [] items := by
  have hne : s.current ≠ s.allocated := Nat.ne_of_lt h.fresh
  set s₁ : Shared α := { s with
    heap := Function.update s.heap s.allocated ⟨(s.cap s.current).double, .init⟩
    allocated := s.allocated + 1
    gate := true
    window := w } with hs₁
  have hold : s₁.heap s.current = s.heap s.current := Function.update_of_ne hne ..
  have hnew : s₁.heap s.allocated = ⟨(s.cap s.current).double, .init⟩ := Function.update_self ..
  have hcap : s₁.cap s₁.current = s.cap s.current := congrArg Arr.cap hold
  refine ⟨hne.symm, Nat.lt_succ_self _, h.active, rfl, ?_, ?_, ?_, ?_, ?_⟩
  · rw [hcap]
    exact congrArg Arr.cap hnew
  · rw [hcap, List.length_nil, Nat.zero_add]
    exact h.laid.le
  · show s.bottom = _
    rw [h.bottom, List.length_nil, Nat.zero_add]
  · exact h.laid.of_heap hold
  · exact .init (congrArg Arr.cells hnew)

/-- A push returns and appends its item, growing if the array is full. -/
theorem Rep.push (h : Rep s items) (x : α) :
    ∃ s', object.Returns s (start (.push x)) s' .pushed ∧ Rep s' (items ++ [x]) := by
  rcases Nat.lt_or_ge items.length (s.cap s.current).size with hlt | hge
  · exact ⟨_, h.push_room hlt x⟩
  · have hbottom := h.bottom
    set s₁ : Shared α := { s with
      heap := Function.update s.heap s.allocated ⟨(s.cap s.current).double, .init⟩
      allocated := s.allocated + 1
      gate := true }
    obtain ⟨s', hret, hrep⟩ := (h.copying (s₁.cells s.current).data).returns items x
    have hload : step false s (.pushLoadTop x) = (s, .growAlloc x) := if_pos (by omega)
    exact ⟨s', .step rfl hload (.step rfl rfl (.step rfl rfl (.step rfl (if_pos h.active)
      (.step rfl rfl hret)))), hrep⟩

/-! ## Pop -/

theorem Rep.pop (h : Rep s items) : ∃ s',
    object.Returns s (start .pop) s' (.popped items.getLast?) ∧ Rep s' items.dropLast := by
  have hbottom := h.bottom
  rcases items.eq_nil_or_concat with rfl | ⟨front, x, rfl⟩
  · -- nothing is held
    rw [List.length_nil, Nat.add_zero] at hbottom
    have hload : step false s .popLoadTop = (s, .done (.popped none)) := by
      simp only [step]
      split
      · rfl
      · rw [if_neg (by omega), if_pos (by omega)]
    exact ⟨s, .step rfl hload (.done rfl), h⟩
  rw [List.concat_eq_append, List.length_append, List.length_singleton] at hbottom
  rw [List.concat_eq_append, List.dropLast_concat, List.getLast?_concat]
  rw [List.concat_eq_append] at h
  obtain ⟨p, hp, rfl⟩ := h.laid.last
  rcases Nat.eq_zero_or_pos front.length with hlen | hlen
  · -- the last item: `pop` moves `top` past it and stays there
    obtain rfl := List.eq_nil_of_length_eq_zero hlen
    have hload : step false s .popLoadTop = (s, .popClaim s.top) := by
      simp only [step]
      rw [if_neg (by omega), if_neg (by omega), if_neg (by omega)]
    set s₁ : Shared α := { s with top := s.top + 1 }
    have hexchange : step false s₁ (.popExchange s.top) =
        ({ s₁.setData s.current s.top none with bottom := s.top + 1 }, .popClear s.top p) := by
      have hp' : s₁.dataAt s₁.current s.top = some p := hp
      simp only [step, hp']
      rfl
    refine ⟨_, .step rfl hload (.step rfl (if_pos rfl) (.step rfl hexchange
      (.step rfl rfl (.step rfl rfl (.done rfl))))), h.array, h.gate, h.active, h.fresh, rfl, ?_⟩
    exact (h.laid.tail.clearRound (Nat.lt_succ_self _)).of_heap rfl
  · -- the tail branch
    have hpos : s.bottom - 1 = s.top + front.length := by omega
    have hload : step false s .popLoadTop = (s, .popTail (s.top + front.length)) := by
      simp only [step]
      rw [if_neg (by omega), if_pos (by omega), hpos]
    have htail : step false s (.popTail (s.top + front.length)) =
        (s.setData s.current (s.top + front.length) none,
          .popTailClear (s.top + front.length) p) := by
      simp only [step, hp]
    refine ⟨_, .step rfl hload (.step rfl htail (.step rfl rfl (.step rfl rfl (.done rfl)))),
      h.array, h.gate, h.active, h.fresh, rfl, ?_⟩
    exact h.laid.dropLast.of_heap rfl

/-! ## Steal -/

theorem leave (s : Shared α) (r : Result α) : object.Returns (entered s) (.exit r) s r := by
  have hexit : step false (entered s) (.exit r) = (s, .done r) := by
    show ({ s with active := s.active + 1 - 1 }, Local.done r) = _
    rw [add_sub_cancel_right]
  exact .step rfl hexit (.done rfl)

/-- What a steal of the node `p` leaves. -/
def stolenState (s : Shared α) (p : Node α) : Shared α :=
  { (({ s with top := s.top + 1 } : Shared α).setData s.array s.top none).clearRound s.array s.top
    with deleted := s.deleted ++ [p] }

section Steal

variable {k : Kind α} {s' : Shared α} {o : Result α}

theorem Rep.enter (h : Rep s items) (hret : object.Returns (entered s) (.loadTop k) s' o) :
    object.Returns s (.enterLoadGate k) s' o := by
  have hload : step false s (.enterLoadGate k) = (s, .enterAdd k) := if_neg (by simp [h.gate])
  have hcheck : step false (entered s) (.enterRecheck k) = (entered s, .loadTop k) :=
    if_neg (by show ¬ s.gate = true; simp [h.gate])
  exact .step rfl hload (.step rfl rfl (.step rfl hcheck hret))

theorem Rep.steal_fails (h : Rep s []) (hk : k ≠ .empty) :
    object.Returns (entered s) (.loadTop k) s k.failed := by
  have hround : (entered s).roundAt s.array s.top ≠ s.top + 1 := by
    rw [h.array]
    exact h.laid.stale s.top le_rfl
  have hload : step false (entered s) (.loadRound k s.top s.array) =
      (entered s, .exit k.failed) := by
    cases k with
    | empty => exact absurd rfl hk
    | steal => exact if_neg hround
    | batch max got => exact if_neg hround
  exact .step rfl rfl (.step rfl rfl (.step rfl hload (leave s _)))

theorem Rep.steal_takes (h : Rep s (x :: items)) : ∃ p, Rep (stolenState s p) items ∧
    ∀ {k : Kind α} {s' : Shared α} {o : Result α}, k ≠ .empty →
      object.Returns (entered (stolenState s p)) (k.succeeded x) s' o →
      object.Returns (entered s) (.loadTop k) s' o := by
  obtain ⟨p, hp, rfl, hround⟩ := h.laid.head
  have hbottom := h.bottom
  rw [List.length_cons] at hbottom
  rw [← h.array] at hp hround
  refine ⟨p, ⟨h.array, h.gate, h.active, h.fresh, ?_, ?_⟩, ?_⟩
  · show s.bottom = s.top + 1 + items.length
    omega
  · have hlaid := h.laid
    rw [← h.array] at hlaid
    have htaken := (hlaid.tail.clearRound (Nat.lt_succ_self _))
    rw [h.array] at htaken
    refine htaken.of_heap ?_
    unfold stolenState
    rw [h.array]
    rfl
  · intro k s' o hk hret
    have hload : step false (entered s) (.loadRound k s.top s.array) =
        (entered s, .claim k s.top s.array) := by
      cases k with
      | empty => exact absurd rfl hk
      | steal => exact if_pos hround
      | batch max got => exact if_pos hround
    set s₁ : Shared α := { entered s with top := s.top + 1 }
    have hexchange : step false s₁ (.exchange k s.top s.array) =
        (s₁.setData s.array s.top none, .clearRound k s.top s.array p) := by
      have hp' : s₁.dataAt s.array s.top = some p := hp
      simp only [step, hp']
    exact .step rfl rfl (.step rfl rfl (.step rfl hload (.step rfl (if_pos rfl)
      (.step rfl hexchange (.step rfl rfl (.step rfl rfl hret))))))

theorem Rep.steal (h : Rep s items) : ∃ s',
    object.Returns s (start .steal) s' (.stolen items.head?) ∧ Rep s' items.tail := by
  cases items with
  | nil => exact ⟨s, h.enter (h.steal_fails nofun), h⟩
  | cons x items =>
    obtain ⟨p, hrep, hret⟩ := h.steal_takes
    exact ⟨_, h.enter (hret nofun (leave _ _)), hrep⟩

/-- The loop of `stealBatch` does what single steals do. The induction is on the items held. -/
theorem Rep.batch_loop (items : List α) (max : ℕ) : ∀ {s : Shared α} {got : List α},
    Rep s items → got.length < max → ∃ s',
      object.Returns (entered s) (.loadTop (.batch max got)) s'
        (.batch (got ++ items.take (max - got.length))) ∧
      object.Calls s (List.replicate (min (max - got.length) items.length) .steal) s'
        ((items.take (max - got.length)).map fun x => .stolen (some x)) ∧
      Rep s' (items.drop (max - got.length)) := by
  induction items with
  | nil =>
    intro s got h _
    refine ⟨s, ?_, ?_, ?_⟩
    · rw [List.take_nil, List.append_nil]
      exact h.steal_fails nofun
    · rw [List.length_nil, Nat.min_zero, List.take_nil]
      exact .nil s
    · rw [List.drop_nil]
      exact h
  | cons x items ih =>
    intro s got h hlt
    obtain ⟨p, hrep, hret⟩ := h.steal_takes
    have hone : object.Returns s (start .steal) (stolenState s p) (.stolen (some x)) :=
      h.enter (hret nofun (leave _ _))
    obtain ⟨m, hm⟩ : ∃ m, max - got.length = m + 1 := ⟨max - got.length - 1, by omega⟩
    have hlen : (got ++ [x]).length = got.length + 1 := by
      rw [List.length_append, List.length_singleton]
    have hm' : max - (got ++ [x]).length = m := by omega
    rw [hm, List.take_succ_cons, List.drop_succ_cons, List.length_cons, Nat.add_min_add_right,
      List.replicate_succ, List.map_cons]
    rcases Nat.lt_or_ge (got ++ [x]).length max with hmore | hfull
    · obtain ⟨s', hbatch, hcalls, hrep'⟩ := ih hrep hmore
      rw [hm'] at hbatch hcalls hrep'
      rw [List.append_assoc, List.singleton_append] at hbatch
      have hnext : (Kind.batch max got).succeeded x = .loadTop (.batch max (got ++ [x])) :=
        if_pos hmore
      refine ⟨s', hret nofun ?_, .cons hone hcalls, hrep'⟩
      rw [hnext]
      exact hbatch
    · obtain rfl : m = 0 := by omega
      rw [Nat.zero_min, List.take_zero, List.drop_zero]
      have hnext : (Kind.batch max got).succeeded x = .exit (.batch (got ++ [x])) :=
        if_neg (by omega)
      refine ⟨_, hret nofun ?_, .cons hone (.nil _), hrep⟩
      rw [hnext]
      exact leave _ _

/-- A batch returns the oldest items, at most `max`, as single steals would. -/
theorem Rep.stealBatch (h : Rep s items) (max : ℕ) : ∃ s',
    object.Returns s (start (.stealBatch max)) s' (.batch (items.take max)) ∧
    object.Calls s (List.replicate (min max items.length) .steal) s'
      ((items.take max).map fun x => .stolen (some x)) ∧
    Rep s' (items.drop max) := by
  rcases Nat.eq_zero_or_pos max with rfl | hpos
  · rw [Nat.zero_min, List.take_zero, List.drop_zero]
    exact ⟨s, .done rfl, .nil s, h⟩
  · have hnil : ([] : List α).length < max := hpos
    obtain ⟨s', hbatch, hcalls, hrep⟩ := Rep.batch_loop items max h hnil
    refine ⟨s', ?_, hcalls, hrep⟩
    have hstart : start (.stealBatch max) = Local.enterLoadGate (.batch max ([] : List α)) :=
      if_neg (Nat.ne_of_gt hpos)
    rw [hstart]
    exact h.enter hbatch

theorem Rep.empty (h : Rep s items) :
    object.Returns s (start .empty) s (.isEmpty items.isEmpty) := by
  have hround : decide ((entered s).roundAt s.array s.top ≠ s.top + 1) = items.isEmpty := by
    rw [h.array]
    cases items with
    | nil => exact decide_eq_true (h.laid.stale s.top le_rfl)
    | cons x items =>
      obtain ⟨_, _, _, hround⟩ := h.laid.head
      exact decide_eq_false (not_not_intro hround)
  have hload : step false (entered s) (.loadRound .empty s.top s.array) =
      (entered s, .exit (.isEmpty items.isEmpty)) := by
    rw [← hround]
    rfl
  exact h.enter (.step rfl rfl (.step rfl rfl (.step rfl hload (leave s _))))

end Steal

/-! ## Sequences of operations -/

theorem Rep.call (h : Rep s items) (op : Op α) : ∃ s',
    object.Returns s (start op) s' (dequeStep items op).2 ∧ Rep s' (dequeStep items op).1 := by
  cases op with
  | push x => exact h.push x
  | pop => exact h.pop
  | steal => exact h.steal
  | stealBatch max =>
    obtain ⟨s', hret, _, hrep⟩ := h.stealBatch max
    exact ⟨s', hret, hrep⟩
  | empty => exact ⟨s, h.empty, h⟩

/-- **Refinement.** A sequence of operations that do not overlap, on a new queue of any size, returns
and is answered as by a double-ended queue of no bound. At the end `size` is exact, `capacity` is a
power of two not below it, and a batch takes what single steals would and leaves what they would. -/
theorem refines_deque (r : Ring) (ops : List (Op α)) : ∃ s,
    object.Calls (init r) ops s (Object.answers dequeStep [] ops) ∧
    size s = (Object.after dequeStep [] ops).length ∧
    (∃ k, capacity s = 2 ^ k) ∧ (Object.after dequeStep [] ops).length ≤ capacity s ∧
    ∀ max, ∃ s',
      object.Returns s (start (.stealBatch max)) s'
        (.batch ((Object.after dequeStep [] ops).take max)) ∧
      object.Calls s
        (List.replicate (min max (Object.after dequeStep [] ops).length) .steal) s'
        (((Object.after dequeStep [] ops).take max).map fun x => .stolen (some x)) := by
  obtain ⟨s, hcalls, hrep⟩ :=
    Object.Calls.of_rep (fun _ _ op h => Rep.call h op) ops (rep_init r (α := α))
  refine ⟨s, hcalls, hrep.size_eq, ?_, ?_, fun max => ?_⟩
  · rw [capacity_eq]
    exact (s.cap s.current).isPow
  · rw [capacity_eq]
    exact hrep.laid.le
  · obtain ⟨s', hbatch, hsteals, _⟩ := hrep.stealBatch max
    exact ⟨s', hbatch, hsteals⟩

end LowLatency.WorkStealingQueue
