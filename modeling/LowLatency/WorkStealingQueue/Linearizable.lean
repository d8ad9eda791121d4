import LowLatency.Concurrency.Linearizable
import LowLatency.Concurrency.Positions
import LowLatency.WorkStealingQueue.Strand

/-!
# The queue is linearizable

In the runs in which no position is taken twice, the callers of the queue see a list (`spec`) that
has no bound: the owner pushes and pops at one end, a thief that steals gets the oldest item, and
`grow` changes nothing. A pop finds nothing exactly when the list is empty.

A push takes effect when it stores its node, the tail branch of a pop when it empties the cell, and a
pop of the last position and a steal with their compare-exchange. `stealBatch` is not a single
operation of the list, so no thread calls it here.
-/

namespace LowLatency.WorkStealingQueue

open Concurrency

variable {α Tid : Type*}

/-- A list of items, the oldest first. A steal may give up, and `empty()` is an approximation. -/
def spec (α Tid : Type*) : Spec Tid (Op α) (Result α) (List α) where
  init := []
  effect _ items op o items' :=
    match op, o with
    | .push x, .pushed => items' = items ++ [x]
    | .pop, .popped (some x) => items = items' ++ [x]
    | .pop, .popped none => items = [] ∧ items' = []
    | .steal, .stolen (some x) => items = x :: items'
    | .steal, .stolen none => items' = items
    | .empty, .isEmpty _ => items' = items
    | _, _ => False

/-- Only the owner pushes and pops, and thieves steal one item at a time. -/
def maySingly [DecidableEq Tid] (owner t : Tid) : Op α → Bool
  | .stealBatch _ => false
  | op => may owner t op

/-- The items at the positions in use. -/
def contents (s : Shared α) (o : Option (Local α)) : List α :=
  between (fun p => (view s o p).map Node.item) s.top (limit s o)

/-- The operation that a thief is called for. -/
def Kind.op : Kind α → Option (Op α)
  | .steal => some .steal
  | .batch _ _ => none
  | .empty => some .empty

/-- Whether an operation has taken effect, and with which result. -/
def AtStage (s : Shared α) (x : Local α) (g : Stage (Op α) (Result α)) : Prop :=
  match x with
  | .pushLoadTop item | .pushWait item | .pushStoreData item | .growAlloc item | .growClose item _
  | .growAwait item _ | .growLoadTop item _ | .growExchange item _ _ _
  | .growStoreData item _ _ _ _ | .growStoreRound item _ _ _ | .growPublish item _ _
  | .growDelete item _ | .growOpen item => g = .called (.push item)
  | .pushStoreRound => g = .settled .pushed
  | .popLoadTop | .popTail _ | .popClaim _ => g = .called .pop
  | .popExchange t =>
    ∃ n, s.dataAt s.current t = some n ∧ g = .settled (.popped (some n.item))
  | .popTailClear _ p | .popClear _ p | .popFinish p => g = .settled (.popped (some p.item))
  | .enterLoadGate k | .enterAdd k | .enterRecheck k | .enterSub k | .loadTop k | .loadArray k _
  | .loadRound k _ _ => ∃ op, k.op = some op ∧ g = .called op
  | .claim k _ _ => k.op = some .steal ∧ g = .called .steal
  | .exchange k t _ => k.op = some .steal ∧
    ∃ n, s.dataAt s.current t = some n ∧ g = .settled (.stolen (some n.item))
  | .clearRound k _ _ p | .finish k p =>
    k.op = some .steal ∧ g = .settled (.stolen (some p.item))
  | .exit r | .done r => g = .settled r

/-- The owner has not loaded more than `top` for its compare-exchange. -/
def Loaded (owner : Tid) (s : Shared α) (l : Tid → Option (Local α)) : Prop :=
  ∀ t, l owner = some (.popClaim t) → t ≤ s.top

section Steps

variable {s s' : Shared α} {x : Local α} {g : Stage (Op α) (Result α)} {o o' : Option (Local α)}

/-- The stage of an operation is told by its registers and the cell that it has claimed. -/
theorem AtStage.congr (h : AtStage s x g)
    (hdata : ∀ p, x.claims = some p → s'.dataAt s'.current p = s.dataAt s.current p) :
    AtStage s' x g := by
  cases x with
  | popExchange t =>
    obtain ⟨n, hn, hg⟩ := h
    exact ⟨n, (hdata t rfl).trans hn, hg⟩
  | exchange k t a =>
    obtain ⟨hk, n, hn, hg⟩ := h
    exact ⟨hk, n, (hdata t rfl).trans hn, hg⟩
  | _ => exact h

theorem contents_congr (htop : s'.top = s.top) (hlim : limit s' o' = limit s o)
    (hview : ∀ p, s.top ≤ p → p < limit s o → view s' o' p = view s o p) :
    contents s' o' = contents s o := by
  unfold contents
  rw [htop, hlim]
  exact between_congr fun p hge hlt => by rw [hview p hge hlt]

theorem contents_eq_nil (h : limit s o ≤ s.top) : contents s o = [] := between_eq_nil h

theorem contents_newest {e : ℕ} {n : Node α} (hlim : limit s o = e + 1) (hlim' : limit s' o' = e)
    (htop : s'.top = s.top) (hle : s.top ≤ e) (hn : view s o e = some n)
    (hview : ∀ p, s.top ≤ p → p < e → view s' o' p = view s o p) :
    contents s o = contents s' o' ++ [n.item] := by
  unfold contents
  rw [hlim, hlim', htop, between_succ (x := n.item) hle (by rw [hn]; rfl)]
  exact congrArg (· ++ [n.item]) (between_congr fun p hge hlt => by rw [hview p hge hlt])

/-- What is not the owner's does not show where the owner is. -/
theorem contents_of_not_ofOwner (hx : x.ofOwner = false) :
    contents s (some x) = contents s none := by
  cases x <;> first | rfl | cases hx

theorem limit_of_copying (hx : x.copying ≠ none) : limit s (some x) = s.bottom := by
  cases x <;> first | rfl | exact absurd rfl hx

theorem view_of_copying (hx : x.copying ≠ none) (p : ℕ) :
    view s (some x) p = s.window ((s.cap s.current).slot p) := by
  obtain ⟨a, ha⟩ := Option.ne_none_iff_exists'.mp hx
  unfold view copies
  rw [Option.bind_some, ha]

/-- While `grow` copies, the window shows what it showed before. -/
theorem contents_copying {y : Local α} (hx : x.copying ≠ none) (hy : y.copying ≠ none)
    (htop : s'.top = s.top) (hbottom : s'.bottom = s.bottom) (hwindow : s'.window = s.window)
    (hcap : s'.cap s'.current = s.cap s.current) :
    contents s' (some y) = contents s (some x) := by
  refine contents_congr htop ?_ fun p _ _ => ?_
  · rw [limit_of_copying hx, limit_of_copying hy, hbottom]
  · rw [view_of_copying hx, view_of_copying hy, hwindow, hcap]

theorem atStage_copyNext {item : α} {n t i : ℕ} (h : g = .called (.push item)) :
    AtStage s' (copyNext s item n t i) g := by
  rcases copyNext_cases s item n t i with ⟨_, he⟩ | ⟨_, he⟩ <;> rw [he] <;> exact h

theorem setData_of_holds {p pos : ℕ} {d : Option (Node α)} (hidle : copies o = none)
    (hpos : Holds s o pos) (hp : Holds s o p) (hne : p ≠ pos) :
    (s.setData s.current pos d).dataAt s.current p = s.dataAt s.current p := by
  rw [Shared.setData_dataAt, if_neg]
  exact fun he => hne (Holds.unique hidle hp hpos he.2)

theorem op_eq_steal {k : Kind α} (h : k.op = some .steal) : k = .steal := by
  cases k <;> first | rfl | cases h

theorem top_le_step (b : Bool) : s.top ≤ (step b s x).1.top := by
  cases x with
  | popClaim t | claim k t a =>
    simp only [step]
    split
    next htop =>
      show s.top ≤ t + 1
      omega
    next => exact le_rfl
  | growExchange | popTail | popExchange | exchange =>
    simp only [step]
    split <;> exact le_rfl
  | loadRound k t a =>
    simp only [step]
    split
    · exact le_rfl
    · split <;> exact le_rfl
  | pushLoadTop | pushWait | growAwait | enterLoadGate | enterRecheck =>
    simp only [step]
    split <;> exact le_rfl
  | popLoadTop =>
    simp only [step]
    split
    · exact le_rfl
    · split
      · exact le_rfl
      · split <;> exact le_rfl
  | _ => exact le_rfl

theorem popClaim_of_step {b : Bool} {t : ℕ} (h : (step b s x).2 = .popClaim t) : t = s.top := by
  cases x with
  | popLoadTop =>
    simp only [step] at h
    split at h
    · cases h
    · split at h
      · cases h
      · split at h
        · cases h
        · cases h
          rfl
  | growLoadTop item n =>
    simp only [step, copyNext] at h
    split at h <;> cases h
  | growStoreRound item n t i =>
    simp only [step, copyNext] at h
    split at h <;> cases h
  | growExchange item n t i =>
    simp only [step, copyNext] at h
    split at h
    · split at h <;> cases h
    · cases h
  | finish k p =>
    rcases Inv.succeeded_cases k p.item with ⟨k', he⟩ | ⟨r, he⟩
    · cases he.symm.trans h
    · cases he.symm.trans h
  | popTail | popExchange | exchange | pushLoadTop | pushWait | growAwait | enterLoadGate
  | enterRecheck | popClaim | claim =>
    simp only [step] at h
    split at h <;> cases h
  | loadRound k t a =>
    simp only [step] at h
    split at h
    · cases h
    · split at h <;> cases h
  | _ => cases h

theorem Loaded.step [DecidableEq Tid] {owner t : Tid} {l : Tid → Option (Local α)}
    (h : Loaded owner s l) (b : Bool) :
    Loaded owner (step b s x).1 (Function.update l t (some (WorkStealingQueue.step b s x).2)) := by
  intro u hu
  rcases update_eq_some hu with ⟨_, ho⟩ | ⟨_, hu⟩
  · rw [popClaim_of_step (Option.some.inj ho)]
    exact top_le_step b
  · exact (h u hu).trans (top_le_step b)

end Steps

variable [Fintype Tid] [DecidableEq Tid]

/-- The queue and the list. -/
structure Relates (owner : Tid) (s : Shared α) (l : Tid → Option (Local α)) (items : List α)
    (st : Tid → Option (Stage (Op α) (Result α))) : Prop where
  exact : Exact owner s l
  items_eq : items = contents s (l owner)
  told : Object.Told (AtStage s) l st

/-- What the callers may see of one instruction. -/
def Follows (owner t : Tid) (s : Shared α) (l : Tid → Option (Local α)) (items : List α)
    (st : Tid → Option (Stage (Op α) (Result α))) : Prop :=
  Relates owner s l items st ∨ ∃ op o items', st t = some (.called op) ∧
    (spec α Tid).effect st items op o items' ∧
      Relates owner s l items' (Function.update st t (some (.settled o)))

namespace Relates

variable {owner t : Tid} {s s' : Shared α} {l : Tid → Option (Local α)} {items : List α}
  {st : Tid → Option (Stage (Op α) (Result α))} {x y : Local α} {g : Stage (Op α) (Result α)}

theorem stay (h : Relates owner s l items st) (hst : st t = some g)
    (hexact : Exact owner s' (Function.update l t (some y)))
    (hcontents : contents s' (Function.update l t (some y) owner) = contents s (l owner))
    (hy : AtStage s' y g)
    (hdata : ∀ u z p, u ≠ t → l u = some z → z.claims = some p →
      s'.dataAt s'.current p = s.dataAt s.current p) :
    Follows owner t s' (Function.update l t (some y)) items st :=
  .inl ⟨hexact, h.items_eq.trans hcontents.symm,
    h.told.stay hst hy fun u z _ hu hz htells => htells.congr fun p => hdata u z p hu hz⟩

theorem settle (h : Relates owner s l items st) {op : Op α} {o : Result α}
    (hst : st t = some (.called op))
    (hexact : Exact owner s' (Function.update l t (some y)))
    (heff : (spec α Tid).effect st items op o
      (contents s' (Function.update l t (some y) owner))) (hy : AtStage s' y (.settled o))
    (hdata : ∀ u z p, u ≠ t → l u = some z → z.claims = some p →
      s'.dataAt s'.current p = s.dataAt s.current p) :
    Follows owner t s' (Function.update l t (some y)) items st :=
  .inr ⟨op, o, _, hst, heff, hexact, rfl,
    h.told.update (.some hy) fun u z _ hu hz htells => htells.congr fun p => hdata u z p hu hz⟩

/-! ### The owner -/

theorem stay_own (h : Relates owner s l items st) (hx : l owner = some x) (hst : st owner = some g)
    (hexact : Exact owner s' (Function.update l owner (some y)))
    (hcontents : contents s' (some y) = contents s (some x)) (hy : AtStage s' y g)
    (hdata : ∀ u z p, u ≠ owner → l u = some z → z.claims = some p →
      s'.dataAt s'.current p = s.dataAt s.current p) :
    Follows owner owner s' (Function.update l owner (some y)) items st := by
  refine h.stay hst hexact ?_ hy hdata
  rw [Function.update_self, hx, hcontents]

theorem settle_own (h : Relates owner s l items st) {op : Op α} {o : Result α}
    (hst : st owner = some (.called op))
    (hexact : Exact owner s' (Function.update l owner (some y)))
    (heff : (spec α Tid).effect st items op o (contents s' (some y)))
    (hy : AtStage s' y (.settled o))
    (hdata : ∀ u z p, u ≠ owner → l u = some z → z.claims = some p →
      s'.dataAt s'.current p = s.dataAt s.current p) :
    Follows owner owner s' (Function.update l owner (some y)) items st := by
  refine h.settle hst hexact ?_ hy hdata
  rw [Function.update_self]
  exact heff

omit [DecidableEq Tid] in
theorem unclaimed (h : Exact owner s l) (hx : l owner = some x) (hq : x.quiesced = true) :
    ∀ u z p, u ≠ owner → l u = some z → z.claims = some p →
      s'.dataAt s'.current p = s.dataAt s.current p := by
  intro u z p _ hu hz
  rw [(h.no_claims hx hq u z hu).1] at hz
  cases hz

theorem step_grow (h : Relates owner s l items st) (hx : l owner = some x)
    (hgrow : x.closed = true) (b : Bool) :
    Follows owner owner (step b s x).1 (Function.update l owner (some (step b s x).2)) items st := by
  have hown : x.ofOwner = true := by cases x <;> first | rfl | cases hgrow
  have hok : NoDoubleTake s x := by cases x <;> trivial
  have hexact := h.exact.step_owner hx hown hok b
  have hph := h.exact.inv.phase_at hx
  obtain ⟨g, hg, htells⟩ := h.told.busy hx
  cases x with
  | growAwait item n =>
    revert hexact
    simp only [step]
    split
    · exact fun hexact => h.stay_own hx hg hexact rfl htells fun _ _ _ _ _ _ => rfl
    · exact fun hexact => h.stay_own hx hg hexact rfl htells fun _ _ _ _ _ _ => rfl
  | growLoadTop item n =>
    have hnext : contents (step b s (.growLoadTop item n)).1
        (some (step b s (.growLoadTop item n)).2) = contents s (some (.growLoadTop item n)) := by
      simp only [step]
      rcases copyNext_cases s item n s.top s.top with ⟨_, he⟩ | ⟨_, he⟩ <;> rw [he] <;> rfl
    exact h.stay_own hx hg hexact hnext (atStage_copyNext htells) (unclaimed h.exact hx rfl)
  | growExchange item n t i =>
    have hmoved : ∀ y : Local α, y.copying ≠ none →
        contents (s.setData s.current i none) (some y) =
          contents s (some (.growExchange item n t i)) :=
      fun y hy => contents_copying (Option.some_ne_none _) hy rfl rfl rfl (s.setData_cap ..)
    revert hexact
    simp only [step]
    split <;> intro hexact
    · exact h.stay_own hx hg hexact (hmoved _ (Exact.copying_copyNext _ _ _ _ _))
        (atStage_copyNext htells) (unclaimed h.exact hx rfl)
    · exact h.stay_own hx hg hexact (hmoved _ (Option.some_ne_none _)) htells
        (unclaimed h.exact hx rfl)
  | growStoreData item n t i p =>
    exact h.stay_own hx hg hexact (contents_copying (Option.some_ne_none _) (Option.some_ne_none _)
      rfl rfl rfl (s.setData_cap ..)) htells (unclaimed h.exact hx rfl)
  | growStoreRound item n t i =>
    exact h.stay_own hx hg hexact (contents_copying (Option.some_ne_none _)
      (Exact.copying_copyNext _ _ _ _ _) rfl rfl rfl (s.setRound_cap ..)) (atStage_copyNext htells)
      (unclaimed h.exact hx rfl)
  | growPublish item n t =>
    obtain ⟨i, hc, hle, _⟩ := hph
    refine h.stay_own hx hg hexact (contents_congr rfl rfl fun p hge hlt => ?_) htells
      (unclaimed h.exact hx rfl)
    -- the new array has at the position what the window shows
    have hlt : p < s.bottom := hlt
    exact (hc.moved p (hc.top_eq ▸ hge) (by omega)).1
  | growDelete item old =>
    exact h.stay_own hx hg hexact rfl htells fun _ _ _ _ _ _ => rfl
  | growOpen item =>
    exact h.stay_own hx hg hexact rfl htells fun _ _ _ _ _ _ => rfl
  | _ => cases hgrow

omit [DecidableEq Tid] in
/-- The owner takes the node of a position that nobody else has claimed. -/
theorem apart_own (h : Exact owner s l) (hidle : copies (l owner) = none) {pos : ℕ}
    {d : Option (Node α)} (hpos : Holds s (l owner) pos)
    (halone : ∀ u z, u ≠ owner → l u = some z → z.claims ≠ some pos) :
    ∀ u z p, u ≠ owner → l u = some z → z.claims = some p →
      (s.setData s.current pos d).dataAt s.current p = s.dataAt s.current p := by
  intro u z p hu hz hp
  refine setData_of_holds hidle hpos (h.owned u z p hz hp).2 ?_
  rintro rfl
  exact halone u z hu hz hp

theorem settle_nothing (h : Relates owner s l items st) (hx : l owner = some x)
    (hst : st owner = some (.called .pop))
    (hexact : Exact owner s (Function.update l owner (some (.done (.popped none)))))
    (hlim : limit s (some x) = s.bottom) (hle : s.bottom ≤ s.top) :
    Follows owner owner s (Function.update l owner (some (.done (.popped none)))) items st := by
  refine h.settle_own (o := .popped none) hst hexact ⟨?_, contents_eq_nil hle⟩ rfl
    fun _ _ _ _ _ _ => rfl
  rw [h.items_eq, hx]
  exact contents_eq_nil (hlim.trans_le hle)

theorem step_pushStoreData (h : Relates owner s l items st) {item : α}
    (hx : l owner = some (.pushStoreData item)) (b : Bool) :
    Follows owner owner (step b s (.pushStoreData item)).1
      (Function.update l owner (some (step b s (.pushStoreData item)).2)) items st := by
  have hexact := h.exact.step_owner hx rfl trivial b
  obtain ⟨_, hnone⟩ := h.exact.inv.phase_at hx
  have hitems := h.items_eq
  have htople := h.exact.top_le
  obtain ⟨g, hg, htells⟩ := h.told.busy hx
  obtain rfl : g = .called (.push item) := htells
  rw [hx] at hitems htople
  set s' := (step b s (.pushStoreData item)).1
  -- the cell is empty, so it is nobody's
  have hother : ∀ p, Holds s (some (.pushStoreData item)) p →
      s'.dataAt s.current p = s.dataAt s.current p := by
    intro p hp
    obtain ⟨n, hn, _⟩ := (holds_of_idle rfl).mp hp
    show (s.setData s.current s.bottom _).dataAt s.current p = _
    rw [Shared.setData_dataAt, if_neg]
    rintro ⟨_, he⟩
    unfold Shared.dataAt at hn hnone
    rw [he, hnone] at hn
    cases hn
  have hfilled : ∀ p, s.top ≤ p → p < s.bottom → Holds s (some (.pushStoreData item)) p :=
    fun p hge hlt => hx ▸ h.exact.filled p hge (by rw [hx]; exact hlt)
  have hnew : s'.dataAt s.current s.bottom = some ⟨s.pushed.length, s.bottom, item⟩ := by
    show (s.setData s.current s.bottom _).dataAt s.current s.bottom = _
    rw [Shared.setData_dataAt, if_pos ⟨rfl, rfl⟩]
  refine h.settle_own (o := .pushed) hg hexact ?_ rfl
    fun u z p _ hu hz => hother p (hx ▸ (h.exact.owned u z p hu hz).2)
  show contents s' (some .pushStoreRound) = items ++ [item]
  rw [hitems]
  exact contents_newest (n := ⟨s.pushed.length, s.bottom, item⟩) rfl rfl rfl htople hnew
    fun p hge hlt => (hother p (hfilled p hge hlt)).symm

theorem step_popTail (h : Relates owner s l items st) {pos : ℕ}
    (hx : l owner = some (.popTail pos)) (hok : NoDoubleTake s (.popTail pos)) (b : Bool) :
    Follows owner owner (step b s (.popTail pos)).1
      (Function.update l owner (some (step b s (.popTail pos)).2)) items st := by
  have hexact := h.exact.step_owner hx rfl hok b
  have hb : s.bottom = pos + 1 := h.exact.inv.phase_at hx
  have hitems := h.items_eq
  obtain ⟨g, hg, htells⟩ := h.told.busy hx
  obtain rfl : g = .called .pop := htells
  have hidle : copies (l owner) = none := by rw [hx]; rfl
  have hlim : limit s (l owner) = pos + 1 := by rw [hx]; exact hb
  have hfilled : ∀ q, s.top ≤ q → q ≤ pos → Holds s (l owner) q :=
    fun q hge hle => h.exact.filled q hge (by omega)
  revert hexact
  cases hp : s.dataAt s.current pos with
  | none =>
    simp only [step, hp]
    refine fun hexact => h.settle_nothing hx hg hexact rfl ?_
    -- a position in use has its node
    by_contra hlt
    obtain ⟨n, hn, _⟩ := (holds_of_idle hidle).mp (hfilled pos (by omega) le_rfl)
    rw [hp] at hn
    cases hn
  | some p =>
    simp only [step, hp]
    intro hexact
    have htop : s.top ≤ pos := by
      by_contra hlt
      have hnone : s.dataAt s.current pos = none := hok (by omega)
      rw [hp] at hnone
      cases hnone
    have hpos := hfilled pos htop le_rfl
    refine h.settle_own (o := .popped (some p.item)) hg hexact ?_ rfl ?_
    · show items = contents (s.setData s.current pos none) (some (.popTailClear pos p)) ++ [p.item]
      rw [hitems]
      refine contents_newest hlim rfl rfl htop (by rw [view_of_idle hidle, hp]) fun q hge hlt => ?_
      rw [view_of_idle hidle]
      exact setData_of_holds hidle hpos (hfilled q hge hlt.le) hlt.ne
    · refine apart_own h.exact hidle hpos fun u z _ hz hclaims => ?_
      have := (h.exact.owned u z pos hz hclaims).1
      omega

theorem step_popClaim (h : Relates owner s l items st) {t : ℕ} (hx : l owner = some (.popClaim t))
    (hle : t ≤ s.top) (b : Bool) :
    Follows owner owner (step b s (.popClaim t)).1
      (Function.update l owner (some (step b s (.popClaim t)).2)) items st := by
  have hexact := h.exact.step_owner hx rfl trivial b
  have hb : s.bottom = t + 1 := h.exact.inv.phase_at hx
  have hitems := h.items_eq
  obtain ⟨g, hg, htells⟩ := h.told.busy hx
  obtain rfl : g = .called .pop := htells
  have hidle : copies (l owner) = none := by rw [hx]; rfl
  have hlim : limit s (l owner) = t + 1 := by rw [hx]; exact hb
  revert hexact
  simp only [step]
  split
  next htop =>
    subst htop
    intro hexact
    obtain ⟨n, hn, _⟩ := (holds_of_idle hidle).mp (h.exact.filled s.top le_rfl (by omega))
    refine h.settle_own (o := .popped (some n.item)) hg hexact ?_ ⟨n, hn, rfl⟩
      fun _ _ _ _ _ _ => rfl
    have hnil : contents { s with top := s.top + 1 } (some (.popExchange s.top)) = [] :=
      contents_eq_nil hb.le
    show items = contents { s with top := s.top + 1 } (some (.popExchange s.top)) ++ [n.item]
    rw [hnil, hitems]
    unfold contents
    rw [hlim, between_succ (x := n.item) le_rfl (by rw [view_of_idle hidle, hn]; rfl),
      between_eq_nil le_rfl]
  next htop => exact fun hexact => h.settle_nothing hx hg hexact rfl (by omega)

theorem step_popExchange (h : Relates owner s l items st) {t : ℕ}
    (hx : l owner = some (.popExchange t)) (b : Bool) :
    Follows owner owner (step b s (.popExchange t)).1
      (Function.update l owner (some (step b s (.popExchange t)).2)) items st := by
  have hexact := h.exact.step_owner hx rfl trivial b
  have hb : s.bottom = t + 1 := h.exact.inv.phase_at hx
  obtain ⟨htop, hpos⟩ := h.exact.owned owner _ t hx rfl
  obtain ⟨_, hg, n, hn, rfl⟩ := h.told.busy hx
  have hidle : copies (l owner) = none := by rw [hx]; rfl
  have hstate : ({ s.setData s.current t none with bottom := t + 1 } : Shared α) =
      s.setData s.current t none := by
    rw [← hb]
    rfl
  simp only [step, hn] at hexact ⊢
  rw [hstate] at hexact ⊢
  refine h.stay_own hx hg hexact (contents_congr rfl rfl fun q hge hlt => ?_) rfl
    (apart_own h.exact hidle hpos fun u z hu hz =>
      h.exact.apart owner u _ z t hu.symm hx hz rfl)
  exact setData_of_holds hidle hpos (h.exact.filled q hge (by rw [hx]; exact hlt)) (by omega)

theorem step_owner (h : Relates owner s l items st) (hload : Loaded owner s l)
    (hx : l owner = some x) (hown : x.ofOwner = true) (hok : NoDoubleTake s x) (b : Bool) :
    Follows owner owner (step b s x).1 (Function.update l owner (some (step b s x).2)) items st := by
  have hexact := h.exact.step_owner hx hown hok b
  obtain ⟨g, hg, htells⟩ := h.told.busy hx
  cases x with
  | pushLoadTop item =>
    revert hexact
    simp only [step]
    split
    · exact fun hexact => h.stay_own hx hg hexact rfl htells fun _ _ _ _ _ _ => rfl
    · exact fun hexact => h.stay_own hx hg hexact rfl htells fun _ _ _ _ _ _ => rfl
  | pushWait item =>
    revert hexact
    simp only [step]
    split
    · exact fun hexact => h.stay_own hx hg hexact rfl htells fun _ _ _ _ _ _ => rfl
    · exact fun hexact => h.stay_own hx hg hexact rfl htells fun _ _ _ _ _ _ => rfl
  | pushStoreData => exact h.step_pushStoreData hx b
  | pushStoreRound =>
    refine h.stay_own hx hg hexact ?_ htells fun _ _ _ _ _ _ => s.setRound_dataAt ..
    exact contents_congr rfl rfl fun _ _ _ => s.setRound_dataAt ..
  | growAlloc item =>
    have hne : s.current ≠ s.allocated := by
      have := h.exact.inv.allocated
      rw [h.exact.inv.current]
      omega
    -- the new array is not the current one
    have hdata : ∀ p, (step b s (.growAlloc item)).1.dataAt s.current p = s.dataAt s.current p := by
      intro p
      show Cells.data (Function.update s.heap s.allocated _ s.current).cells
        ((Function.update s.heap s.allocated _ s.current).cap.slot p) = _
      rw [Function.update_of_ne hne]
      rfl
    refine h.stay_own hx hg hexact ?_ htells fun _ _ p _ _ _ => hdata p
    exact contents_congr rfl rfl fun p _ _ => hdata p
  | growClose item n =>
    exact h.stay_own hx hg hexact rfl htells fun _ _ _ _ _ _ => rfl
  | growAwait | growLoadTop | growExchange | growStoreData | growStoreRound | growPublish
  | growDelete | growOpen => exact h.step_grow hx rfl b
  | popLoadTop =>
    obtain rfl : g = .called .pop := htells
    revert hexact
    simp only [step]
    split
    next hzero => exact fun hexact => h.settle_nothing hx hg hexact rfl (by omega)
    next =>
      split
      · exact fun hexact => h.stay_own hx hg hexact rfl rfl fun _ _ _ _ _ _ => rfl
      next =>
        split
        next hlt => exact fun hexact => h.settle_nothing hx hg hexact rfl (by omega)
        next => exact fun hexact => h.stay_own hx hg hexact rfl rfl fun _ _ _ _ _ _ => rfl
  | popTail => exact h.step_popTail hx hok b
  | popTailClear pos p =>
    refine h.stay_own hx hg hexact ?_ htells fun _ _ _ _ _ _ => s.clearRound_dataAt ..
    exact contents_congr rfl rfl fun _ _ _ => s.clearRound_dataAt ..
  | popClaim t => exact h.step_popClaim hx (hload t hx) b
  | popExchange => exact h.step_popExchange hx b
  | popClear t p =>
    refine h.stay_own hx hg hexact ?_ htells fun _ _ _ _ _ _ => s.clearRound_dataAt ..
    exact contents_congr rfl rfl fun _ _ _ => s.clearRound_dataAt ..
  | popFinish p =>
    exact h.stay_own hx hg hexact rfl htells fun _ _ _ _ _ _ => rfl
  | _ => cases hown

/-! ### Thieves -/

omit [Fintype Tid] in
/-- An instruction that is not the owner's does not show where the owner is. -/
theorem contents_update (hx : l t = some x) (hxo : x.ofOwner = false) (hyo : y.ofOwner = false) :
    contents s (Function.update l t (some y) owner) = contents s (l owner) :=
  Exact.update_congr (contents s)
    (by rw [hx, contents_of_not_ofOwner hxo, contents_of_not_ofOwner hyo]) owner

theorem stay_thief (h : Relates owner s l items st) (hx : l t = some x) (hst : st t = some g)
    (hxo : x.ofOwner = false) (hyo : y.ofOwner = false)
    (hexact : Exact owner s' (Function.update l t (some y)))
    (hcontents : contents s' (l owner) = contents s (l owner)) (hy : AtStage s' y g)
    (hdata : ∀ u z p, u ≠ t → l u = some z → z.claims = some p →
      s'.dataAt s'.current p = s.dataAt s.current p) :
    Follows owner t s' (Function.update l t (some y)) items st :=
  h.stay hst hexact ((contents_update hx hxo hyo).trans hcontents) hy hdata

theorem settle_thief (h : Relates owner s l items st) {op : Op α} {o : Result α} (hx : l t = some x)
    (hst : st t = some (.called op)) (hxo : x.ofOwner = false)
    (hexact : Exact owner s (Function.update l t (some (.exit o))))
    (heff : (spec α Tid).effect st items op o items) :
    Follows owner t s (Function.update l t (some (.exit o))) items st := by
  refine h.settle hst hexact ?_ rfl fun _ _ _ _ _ _ => rfl
  rwa [contents_update hx hxo rfl, ← h.items_eq]

theorem step_claim (h : Relates owner s l items st) {k : Kind α} {pos a : ℕ}
    (hx : l t = some (.claim k pos a)) (hok : NoDoubleTake s (.claim k pos a)) (b : Bool) :
    Follows owner t (step b s (.claim k pos a)).1
      (Function.update l t (some (step b s (.claim k pos a)).2)) items st := by
  have hexact := h.exact.step_thief hx rfl rfl hok b
  obtain ⟨_, hg, hk, rfl⟩ := h.told.busy hx
  obtain rfl := op_eq_steal hk
  revert hexact
  simp only [step]
  split
  next htop =>
    subst htop
    intro hexact
    have hidle := h.exact.idle_of_inside hx rfl
    -- the position was in use, as the range is still well formed
    have hlt : s.top + 1 ≤ limit s (l owner) := by
      rw [← Exact.update_congr (o := some (.exchange .steal s.top a)) (limit s) (by rw [hx]; rfl)]
      exact hexact.top_le
    have hpos : Holds s (l owner) s.top := h.exact.filled s.top le_rfl hlt
    obtain ⟨n, hn, _⟩ := (holds_of_idle hidle).mp hpos
    refine h.settle (o := .stolen (some n.item)) hg hexact ?_ ⟨rfl, n, hn, rfl⟩
      fun _ _ _ _ _ _ => rfl
    rw [contents_update hx rfl rfl]
    show items = n.item :: between _ (s.top + 1) (limit s (l owner))
    rw [h.items_eq]
    exact between_cons hlt (by rw [view_of_idle hidle, hn]; rfl)
  next htop => exact fun hexact => h.settle_thief hx hg rfl hexact rfl

theorem step_exchange (h : Relates owner s l items st) {k : Kind α} {pos a : ℕ}
    (hx : l t = some (.exchange k pos a)) (b : Bool) :
    Follows owner t (step b s (.exchange k pos a)).1
      (Function.update l t (some (step b s (.exchange k pos a)).2)) items st := by
  have hexact := h.exact.step_thief hx rfl rfl trivial b
  obtain ⟨_, hg, hk, n, hn, rfl⟩ := h.told.busy hx
  obtain rfl : a = s.current := (h.exact.inv.arrayOf _ _ a hx rfl).trans h.exact.inv.current.symm
  have hidle := h.exact.idle_of_inside hx rfl
  obtain ⟨hlt, hpos⟩ := h.exact.owned t _ pos hx rfl
  simp only [step, hn] at hexact ⊢
  refine h.stay_thief hx hg rfl rfl hexact (contents_congr rfl rfl fun p hge hltp => ?_) ⟨hk, rfl⟩
    fun u z p hu hz hp => ?_
  · rw [view_of_idle hidle, view_of_idle hidle]
    exact setData_of_holds hidle hpos (h.exact.filled p hge hltp) (by omega)
  · refine setData_of_holds hidle hpos (h.exact.owned u z p hz hp).2 ?_
    rintro rfl
    exact h.exact.apart u t z _ p hu hz hx hp rfl

theorem step_thief (h : Relates owner s l items st) (hx : l t = some x) (hown : x.ofOwner = false)
    (hr : result x = none) (hok : NoDoubleTake s x) (b : Bool) :
    Follows owner t (step b s x).1 (Function.update l t (some (step b s x).2)) items st := by
  have hexact := h.exact.step_thief hx hown hr hok b
  obtain ⟨g, hg, htells⟩ := h.told.busy hx
  cases x with
  | enterLoadGate k | enterRecheck k =>
    revert hexact
    simp only [step]
    split
    · exact fun hexact => h.stay_thief hx hg rfl rfl hexact rfl htells fun _ _ _ _ _ _ => rfl
    · exact fun hexact => h.stay_thief hx hg rfl rfl hexact rfl htells fun _ _ _ _ _ _ => rfl
  | enterAdd k | enterSub k | loadTop k | loadArray k t | exit r =>
    exact h.stay_thief hx hg rfl rfl hexact rfl htells fun _ _ _ _ _ _ => rfl
  | loadRound k t a =>
    obtain ⟨op, hop, rfl⟩ := htells
    cases k with
    | steal =>
      obtain rfl := Option.some.inj hop
      revert hexact
      simp only [step]
      split
      · exact fun hexact => h.stay_thief hx hg rfl rfl hexact rfl ⟨rfl, rfl⟩ fun _ _ _ _ _ _ => rfl
      · exact fun hexact => h.settle_thief hx hg rfl hexact rfl
    | batch => cases hop
    | empty =>
      obtain rfl := Option.some.inj hop
      exact h.settle_thief hx hg rfl hexact rfl
  | claim k pos a => exact h.step_claim hx hok b
  | exchange k pos a => exact h.step_exchange hx b
  | clearRound k pos a p =>
    have hidle := h.exact.idle_of_inside hx rfl
    refine h.stay_thief hx hg rfl rfl hexact (contents_congr rfl rfl fun q _ _ => ?_) htells
      fun _ _ _ _ _ _ => s.clearRound_dataAt ..
    rw [view_of_idle hidle, view_of_idle hidle]
    exact s.clearRound_dataAt ..
  | finish k p =>
    obtain ⟨hk, rfl⟩ := htells
    obtain rfl := op_eq_steal hk
    exact h.stay_thief hx hg rfl rfl hexact rfl rfl fun _ _ _ _ _ _ => rfl
  | done r => cases hr
  | _ => cases hown

end Relates

omit [Fintype Tid] in
theorem may_of_maySingly {owner t : Tid} {op : Op α} (h : maySingly owner t op = true) :
    may owner t op = true ∧ ∀ s : Shared α, AtStage s (start op) (.called op) := by
  cases op with
  | stealBatch => cases h
  | push | pop => exact ⟨h, fun _ => rfl⟩
  | steal | empty => exact ⟨h, fun _ => ⟨_, rfl, rfl⟩⟩

theorem simulation (owner : Tid) :
    object.Simulation (maySingly owner) NoDoubleTake (spec α Tid)
      fun s l items st => Relates owner s l items st ∧ Loaded owner s l where
  call {s l items st t op} h hl hmay := by
    obtain ⟨hmay, hstage⟩ := may_of_maySingly hmay
    obtain ⟨h, hload⟩ := h
    have hstart : contents s (some (start op)) = contents s (l t) := by
      rw [hl]
      cases op with
      | stealBatch max =>
        simp only [start]
        split <;> rfl
      | _ => rfl
    refine ⟨h.told.idle hl, ⟨(exact_inductive owner).call h.exact hl hmay, ?_, ?_⟩, ?_⟩
    · exact h.items_eq.trans (Exact.update_congr (contents s) hstart owner).symm
    · exact h.told.update (.some (hstage s)) fun _ _ _ _ _ hg => hg
    · intro p hp
      rcases update_eq_some hp with ⟨_, ho⟩ | ⟨_, hp⟩
      · cases op with
        | stealBatch max =>
          simp only [object, start] at ho
          split at ho <;> cases ho
        | _ => cases ho
      · exact hload p hp
  step {s l items st t x} b h hx hr hok := by
    obtain ⟨h, hload⟩ := h
    have hfollows : Follows owner t (step b s x).1
        (Function.update l t (some (step b s x).2)) items st := by
      cases hown : x.ofOwner with
      | true =>
        obtain rfl := h.exact.inv.only t x hx hown
        exact h.step_owner hload hx hown hok b
      | false => exact h.step_thief hx hown hr hok b
    rcases hfollows with hstay | ⟨op, o, items', hst, heff, hrel⟩
    · exact .inl ⟨hstay, hload.step b⟩
    · exact .inr ⟨op, o, items', hst, heff, hrel, hload.step b⟩
  ret {s l items st t x o} h hx hr := by
    obtain ⟨h, hload⟩ := h
    obtain ⟨g, hg, htells⟩ := h.told.busy hx
    cases x with
    | done o' =>
      obtain rfl : o' = o := Option.some.inj hr
      obtain rfl : g = .settled o' := htells
      refine ⟨hg, ⟨(exact_inductive owner).ret h.exact hx hr, ?_, ?_⟩, ?_⟩
      · exact h.items_eq.trans
          (Exact.update_congr (o := none) (contents s) (by rw [hx]; rfl) owner).symm
      · exact h.told.update .none fun _ _ _ _ _ hg => hg
      · intro p hp
        rcases update_eq_some hp with ⟨_, ho⟩ | ⟨_, hp⟩
        · cases ho
        · exact hload p hp
    | _ => cases hr

deriving instance DecidableEq for Op

end LowLatency.WorkStealingQueue
