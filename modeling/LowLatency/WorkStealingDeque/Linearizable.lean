import LowLatency.Concurrency.Linearizable
import LowLatency.Concurrency.Positions
import LowLatency.WorkStealingDeque.Range

/-!
# The deque is linearizable

In the runs in which no pop loses its compare-exchange, the callers of the deque see a bounded list
(`spec`): the owner pushes and pops at one end, and a thief that steals gets the oldest item. A push
is refused exactly when the list is full, and a pop finds nothing exactly when it is empty. A pop that
loses its compare-exchange leaves a position that holds nothing (`exists_phantom`), and the list is
then shorter than the range.

A push takes effect when it stores `bottom_`. A pop takes effect where it loads `top_`, or with its
compare-exchange when only one position is left, and a steal with its compare-exchange. The item is
then still in the cell that the operation has claimed.
-/

namespace LowLatency.WorkStealingDeque

open Concurrency

variable {α Tid : Type*}

/-- A bounded list of `size` items, the oldest first. A steal may give up. -/
def spec (α Tid : Type*) (size : ℕ) : Spec Tid (Op α) (Outcome α) (List α) where
  init := []
  effect _ items op o items' :=
    match op, o with
    | .push x, .put => items.length < size ∧ items' = items ++ [x]
    | .push x, .refused y => y = x ∧ items' = items ∧ items.length = size
    | .pop, .got x => items = items' ++ [x]
    | .pop, .nothing => items = [] ∧ items' = []
    | .steal, .got x => items = x :: items'
    | .steal, .nothing => items' = items
    | _, _ => False

/-- The items at the positions from `top_` to `e`. -/
def contents (r : Ring) (s : Shared α) (e : ℕ) : List α :=
  between (fun p => (s.cells.data (r.slot p)).map Node.item) s.top e

section Contents

variable {r : Ring} {s s' : Shared α} {e : ℕ} {n : Node α}

theorem contents_congr (htop : s'.top = s.top)
    (hdata : ∀ p, s.top ≤ p → p < e → s'.cells.data (r.slot p) = s.cells.data (r.slot p)) :
    contents r s' e = contents r s e := by
  unfold contents
  rw [htop]
  exact between_congr fun p hge hlt => by rw [hdata p hge hlt]

theorem contents_eq_nil (h : e ≤ s.top) : contents r s e = [] := between_eq_nil h

theorem contents_succ (h : s.top ≤ e) (hn : s.cells.data (r.slot e) = some n) :
    contents r s (e + 1) = contents r s e ++ [n.item] :=
  between_succ h (by rw [hn]; rfl)

theorem contents_top (h : s.top < e) (hn : s.cells.data (r.slot s.top) = some n)
    (htop : s'.top = s.top + 1) (hcells : s'.cells = s.cells) :
    contents r s e = n.item :: contents r s' e := by
  unfold contents
  rw [htop, hcells]
  exact between_cons h (by rw [hn]; rfl)

theorem Exact.length_contents [Fintype Tid] {owner : Tid} {l : Tid → Option (Local α)}
    (h : Exact r owner s l) :
    (contents r s (limit s.bottom (l owner))).length = limit s.bottom (l owner) - s.top := by
  refine length_between fun p hge hlt => ?_
  obtain ⟨⟨n, hn, _⟩, _⟩ := h.filled p hge hlt
  rw [hn]
  rfl

end Contents

/-! ## Stages -/

/-- Whether an operation has taken effect, and with which result. -/
def AtStage (r : Ring) (s : Shared α) (x : Local α) (g : Stage (Op α) (Outcome α)) : Prop :=
  match x with
  | .pushLoadBottom item | .pushLoadTop item _ | .pushWait item _ | .pushStoreData item _ =>
    g = .called (.push item)
  | .pushStoreRound b | .pushStoreBottom b =>
    ∃ n, s.cells.data (r.slot b) = some n ∧ g = .called (.push n.item)
  | .popLoadBottom | .popStoreBottom _ | .popLoadTop _ | .popClaim _ _ => g = .called .pop
  | .popRestore _ | .popLost _ => g = .settled .nothing
  | .popWon b _ | .exchange b =>
    ∃ n, s.cells.data (r.slot b) = some n ∧ g = .settled (.got n.item)
  | .stealLoadTop | .stealLoadBottom _ | .stealLoadRound _ | .stealClaim _ => g = .called .steal
  | .clearRound _ p | .finish p => g = .settled (.got p.item)
  | .done o => g = .settled o

/-- The stage of an operation is told by its registers and the cell that it has claimed. -/
theorem AtStage.congr {r : Ring} {s s' : Shared α} {x : Local α} {g : Stage (Op α) (Outcome α)}
    (h : AtStage r s x g)
    (hdata : ∀ p, x.claims = some p → s'.cells.data (r.slot p) = s.cells.data (r.slot p)) :
    AtStage r s' x g := by
  cases x with
  | pushStoreRound b | pushStoreBottom b | popWon b | exchange b =>
    obtain ⟨n, hn, hg⟩ := h
    exact ⟨n, (hdata b rfl).trans hn, hg⟩
  | _ => exact h

variable [Fintype Tid] [DecidableEq Tid]

/-- The deque and the list. -/
structure Relates (r : Ring) (owner : Tid) (s : Shared α) (l : Tid → Option (Local α))
    (items : List α) (st : Tid → Option (Stage (Op α) (Outcome α))) : Prop where
  exact : Exact r owner s l
  items_eq : items = contents r s (limit s.bottom (l owner))
  told : Object.Told (AtStage r s) l st

namespace Relates

variable {r : Ring} {owner t : Tid} {s s' : Shared α} {l : Tid → Option (Local α)} {items : List α}
  {st : Tid → Option (Stage (Op α) (Outcome α))} {x y : Local α} {g g' : Stage (Op α) (Outcome α)}

theorem stay (h : Relates r owner s l items st) (hst : st t = some g)
    (hexact : Exact r owner s' (Function.update l t (some y)))
    (hcontents : contents r s' (limit s'.bottom (Function.update l t (some y) owner)) =
      contents r s (limit s.bottom (l owner))) (hy : AtStage r s' y g)
    (hdata : ∀ u z p, u ≠ t → l u = some z → z.claims = some p →
      s'.cells.data (r.slot p) = s.cells.data (r.slot p)) :
    Relates r owner s' (Function.update l t (some y)) items st where
  exact := hexact
  items_eq := h.items_eq.trans hcontents.symm
  told := h.told.stay hst hy fun u z _ hu hz htells => htells.congr fun p => hdata u z p hu hz

theorem settle (h : Relates r owner s l items st)
    (hexact : Exact r owner s' (Function.update l t (some y))) (hy : AtStage r s' y g')
    (hcells : s'.cells = s.cells) :
    Relates r owner s' (Function.update l t (some y))
      (contents r s' (limit s'.bottom (Function.update l t (some y) owner)))
      (Function.update st t (some g')) where
  exact := hexact
  items_eq := rfl
  told := h.told.update (.some hy) fun u z _ _ _ htells => htells.congr fun p _ => by rw [hcells]

theorem stay_own (h : Relates r owner s l items st) (hx : l owner = some x)
    (hst : st owner = some g) (hexact : Exact r owner s' (Function.update l owner (some y)))
    (hcells : s'.cells = s.cells) (htop : s'.top = s.top)
    (hlim : limit s'.bottom (some y) = limit s.bottom (some x)) (hy : AtStage r s' y g) :
    Relates r owner s' (Function.update l owner (some y)) items st := by
  refine h.stay hst hexact ?_ hy fun _ _ _ _ _ _ => by rw [hcells]
  rw [Function.update_self, hlim, hx]
  exact contents_congr htop fun _ _ _ => by rw [hcells]

theorem stay_common (h : Relates r owner s l items st) (hx : l t = some x) (hst : st t = some g)
    (hxo : x.ofOwner = false) (hyo : y.ofOwner = false)
    (hexact : Exact r owner s' (Function.update l t (some y))) (hdata : s'.cells.data = s.cells.data)
    (htop : s'.top = s.top) (hbottom : s'.bottom = s.bottom) (hy : AtStage r s' y g) :
    Relates r owner s' (Function.update l t (some y)) items st := by
  refine h.stay hst hexact ?_ hy fun _ _ _ _ _ _ => by rw [hdata]
  rw [hbottom, Inv.limit_update (by rw [hx]; exact Inv.neutral_of_ofOwner hxo)
    (Inv.neutral_of_ofOwner hyo)]
  exact contents_congr htop fun _ _ _ => by rw [hdata]

/-- What the callers may see of one instruction. -/
def Follows (r : Ring) (owner t : Tid) (s : Shared α) (l : Tid → Option (Local α)) (items : List α)
    (st : Tid → Option (Stage (Op α) (Outcome α))) : Prop :=
  Relates r owner s l items st ∨ ∃ op o items', st t = some (.called op) ∧
    (spec α Tid r.size).effect st items op o items' ∧
      Relates r owner s l items' (Function.update st t (some (.settled o)))

/-- The owner's instruction with which its operation takes effect. -/
theorem follow_own (h : Relates r owner s l items st) {op : Op α} {o : Outcome α}
    (hst : st owner = some (.called op))
    (hexact : Exact r owner s' (Function.update l owner (some y))) (hcells : s'.cells = s.cells)
    (heff : (spec α Tid r.size).effect st items op o (contents r s' (limit s'.bottom (some y))))
    (hy : AtStage r s' y (.settled o)) :
    Follows r owner owner s' (Function.update l owner (some y)) items st := by
  refine .inr ⟨op, o, _, hst, ?_, h.settle hexact hy hcells⟩
  rw [Function.update_self]
  exact heff

theorem step_pushLoadTop (h : Relates r owner s l items st) {item : α} {b : ℕ}
    (hx : l owner = some (.pushLoadTop item b)) (c : Bool) :
    Follows r owner owner (step r c s (.pushLoadTop item b)).1
      (Function.update l owner (some (step r c s (.pushLoadTop item b)).2)) items st := by
  have hexact := h.exact.step_owner hx rfl trivial c
  obtain rfl : b = s.bottom := h.exact.inv.phase_at hx
  have hitems := h.items_eq
  obtain ⟨g, hg, htells⟩ := h.told.busy hx
  obtain rfl : g = .called (.push item) := htells
  by_cases hfull : (r.size : ℤ) ≤ (s.bottom : ℤ) - s.top
  · have hlen := h.exact.length_contents
    have hcap := h.exact.inv.le_cap
    simp only [step, if_pos hfull] at hexact ⊢
    rw [hx] at hitems hlen hcap
    refine h.follow_own (o := .refused item) hg hexact rfl ⟨rfl, hitems.symm, ?_⟩ rfl
    rw [hitems, hlen]
    have hcap : s.bottom ≤ s.top + r.size := hcap
    show s.bottom - s.top = r.size
    omega
  · simp only [step, if_neg hfull] at hexact ⊢
    exact .inl (h.stay_own hx hg hexact rfl rfl rfl rfl)

theorem step_pushStoreData (h : Relates r owner s l items st) {item : α} {b : ℕ}
    (hx : l owner = some (.pushStoreData item b)) (c : Bool) :
    Follows r owner owner (step r c s (.pushStoreData item b)).1
      (Function.update l owner (some (step r c s (.pushStoreData item b)).2)) items st := by
  have hexact := h.exact.step_owner hx rfl trivial c
  obtain ⟨rfl, _, hnone⟩ := h.exact.inv.phase_at hx
  obtain ⟨g, hg, htells⟩ := h.told.busy hx
  obtain rfl : g = .called (.push item) := htells
  -- the cell is empty, so it is nobody's
  have hother : ∀ p, Holds r s p →
      (s.cells.setData (r.slot s.bottom) (some ⟨s.pushed.length, s.bottom, item⟩)).data (r.slot p) =
        s.cells.data (r.slot p) := by
    rintro p ⟨n, hn, _⟩
    rw [Cells.setData_data, Function.update_of_ne]
    intro he
    rw [he, hnone] at hn
    cases hn
  refine .inl (h.stay hg hexact ?_ ?_ fun u z p _ hu hz => hother p (h.exact.owned u z p hu hz))
  · rw [Function.update_self, hx]
    exact contents_congr rfl fun p hge hlt =>
      hother p (h.exact.filled p hge (by rw [hx]; exact hlt)).1
  · refine ⟨⟨s.pushed.length, s.bottom, item⟩, ?_, rfl⟩
    show (Cells.setData _ _ _).data _ = _
    rw [Cells.setData_data, Function.update_self]

theorem step_pushStoreBottom (h : Relates r owner s l items st) {b : ℕ}
    (hx : l owner = some (.pushStoreBottom b)) (c : Bool) :
    Follows r owner owner (step r c s (.pushStoreBottom b)).1
      (Function.update l owner (some (step r c s (.pushStoreBottom b)).2)) items st := by
  have hexact := h.exact.step_owner hx rfl trivial c
  obtain ⟨rfl, hroom⟩ := h.exact.inv.phase_at hx
  have hitems := h.items_eq
  have htople := h.exact.inv.top_le
  obtain ⟨_, hg, n, hn, rfl⟩ := h.told.busy hx
  have hlen := h.exact.length_contents
  rw [hx] at htople hitems
  rw [hx, ← hitems] at hlen
  refine h.follow_own (o := .put) hg hexact rfl ⟨?_, ?_⟩ rfl
  · show items.length < r.size
    have htople : s.top ≤ s.bottom := htople
    rw [hlen]
    show s.bottom - s.top < r.size
    omega
  · rw [hitems]
    exact contents_succ htople hn

/-- A pop that sees `top_` behind its position has the newest item. -/
theorem step_popLoadTop (h : Relates r owner s l items st) {b : ℕ}
    (hx : l owner = some (.popLoadTop b)) (c : Bool) :
    Follows r owner owner (step r c s (.popLoadTop b)).1
      (Function.update l owner (some (step r c s (.popLoadTop b)).2)) items st := by
  have hexact := h.exact.step_owner hx rfl trivial c
  obtain rfl : b = s.bottom := h.exact.inv.phase_at hx
  have hitems := h.items_eq
  obtain ⟨g, hg, htells⟩ := h.told.busy hx
  obtain rfl : g = .called .pop := htells
  rw [hx] at hitems
  by_cases hlt : s.bottom < s.top
  · simp only [step, if_pos hlt] at hexact ⊢
    have hnil : contents r s (s.bottom + 1) = [] := contents_eq_nil hlt
    exact h.follow_own (o := .nothing) hg hexact rfl
      ⟨hitems.trans hnil, contents_eq_nil le_rfl⟩ rfl
  · by_cases hgt : s.top < s.bottom
    · simp only [step, if_neg hlt, if_pos hgt] at hexact ⊢
      obtain ⟨⟨n, hn, _⟩, _⟩ := h.exact.filled s.bottom hgt.le (by rw [hx]; exact Nat.lt_succ_self _)
      exact h.follow_own (o := .got n.item) hg hexact rfl
        (hitems.trans (contents_succ hgt.le hn)) ⟨n, hn, rfl⟩
    · simp only [step, if_neg hlt, if_neg hgt] at hexact ⊢
      exact .inl (h.stay_own hx hg hexact rfl rfl rfl rfl)

theorem step_popClaim (h : Relates r owner s l items st) {b t : ℕ}
    (hx : l owner = some (.popClaim b t)) (hok : NoLostClaim s (.popClaim b t)) (c : Bool) :
    Follows r owner owner (step r c s (.popClaim b t)).1
      (Function.update l owner (some (step r c s (.popClaim b t)).2)) items st := by
  have hexact := h.exact.step_owner hx rfl hok c
  have hitems := h.items_eq
  obtain ⟨g, hg, htells⟩ := h.told.busy hx
  obtain rfl : g = .called .pop := htells
  obtain rfl : s.top = t := hok
  obtain ⟨rfl, hb, _⟩ := h.exact.inv.phase_at hx
  rw [hx] at hitems
  simp only [step, if_true] at hexact ⊢
  obtain ⟨⟨n, hn, _⟩, _⟩ := h.exact.filled s.top le_rfl (by rw [hx]; exact Nat.lt_succ_self _)
  have hnil : contents r { s with top := s.top + 1 } (s.top + 1) = [] := contents_eq_nil le_rfl
  refine h.follow_own (o := .got n.item) hg hexact rfl ?_ ⟨n, hn, rfl⟩
  show items = contents r _ (s.top + 1) ++ [n.item]
  rw [hnil, hitems]
  show contents r s (s.top + 1) = _
  rw [contents_succ le_rfl hn, contents_eq_nil le_rfl]

theorem step_owner (h : Relates r owner s l items st) (hx : l owner = some x)
    (hown : x.ofOwner = true) (hok : NoLostClaim s x) (b : Bool) :
    Follows r owner owner (step r b s x).1 (Function.update l owner (some (step r b s x).2))
      items st := by
  have hexact := h.exact.step_owner hx hown hok b
  have hph := h.exact.inv.phase_at hx
  have hitems := h.items_eq
  obtain ⟨g, hg, htells⟩ := h.told.busy hx
  cases x with
  | pushLoadBottom item => exact .inl (h.stay_own hx hg hexact rfl rfl rfl htells)
  | pushLoadTop item c => exact h.step_pushLoadTop hx b
  | pushWait item c =>
    revert hexact
    simp only [step]
    split
    · exact fun hexact => .inl (h.stay_own hx hg hexact rfl rfl rfl htells)
    · exact fun hexact => .inl (h.stay_own hx hg hexact rfl rfl rfl htells)
  | pushStoreData item c => exact h.step_pushStoreData hx b
  | pushStoreRound c =>
    have hdata : (step r false s (.pushStoreRound c)).1.cells.data = s.cells.data :=
      Cells.setRound_data ..
    refine .inl (h.stay hg hexact ?_ ?_ fun _ _ _ _ _ _ => congrFun hdata _)
    · rw [Function.update_self, hx]
      exact contents_congr rfl fun _ _ _ => congrFun hdata _
    · obtain ⟨n, hn, hgn⟩ := htells
      exact ⟨n, (congrFun hdata _).trans hn, hgn⟩
  | pushStoreBottom c => exact h.step_pushStoreBottom hx b
  | popLoadBottom =>
    obtain rfl : g = .called .pop := htells
    by_cases hzero : s.bottom = 0
    · simp only [step, if_pos hzero] at hexact ⊢
      rw [hx] at hitems
      have hnil : contents r s s.bottom = [] := contents_eq_nil (by omega)
      exact h.follow_own (o := .nothing) hg hexact rfl ⟨hitems.trans hnil, hnil⟩ rfl
    · simp only [step, if_neg hzero] at hexact ⊢
      exact .inl (h.stay_own hx hg hexact rfl rfl rfl rfl)
  | popStoreBottom c => exact .inl (h.stay_own hx hg hexact rfl rfl hph.symm htells)
  | popLoadTop c => exact h.step_popLoadTop hx b
  | popRestore t => exact .inl (h.stay_own hx hg hexact rfl rfl rfl htells)
  | popClaim c t => exact h.step_popClaim hx hok b
  | popLost t => exact absurd hx (h.exact.notLost t)
  | popWon c t => exact .inl (h.stay_own hx hg hexact rfl rfl rfl htells)
  | _ => cases hown

theorem settle_failed (h : Relates r owner s l items st) (hx : l t = some x)
    (hst : st t = some (.called .steal)) (hxo : x.ofOwner = false) (hyo : y.ofOwner = false)
    (hexact : Exact r owner s (Function.update l t (some y)))
    (hy : AtStage r s y (.settled .nothing)) :
    Follows r owner t s (Function.update l t (some y)) items st := by
  refine .inr ⟨.steal, .nothing, _, hst, ?_, h.settle hexact hy rfl⟩
  rw [Inv.limit_update (by rw [hx]; exact Inv.neutral_of_ofOwner hxo)
    (Inv.neutral_of_ofOwner hyo)]
  exact h.items_eq.symm

theorem step_stealClaim (h : Relates r owner s l items st) {pos : ℕ}
    (hx : l t = some (.stealClaim pos)) (c : Bool) :
    Follows r owner t (step r c s (.stealClaim pos)).1
      (Function.update l t (some (step r c s (.stealClaim pos)).2)) items st := by
  have hexact := h.exact.step_common hx rfl rfl c
  obtain ⟨g, hg, htells⟩ := h.told.busy hx
  obtain rfl : g = .called .steal := htells
  by_cases htop : s.top = pos
  · subst htop
    obtain ⟨_, hlt⟩ := h.exact.inv.thief t _ hx
    have hlt := hlt rfl
    obtain ⟨⟨n, hn, _⟩, _⟩ := h.exact.filled s.top le_rfl hlt
    simp only [step, if_true] at hexact ⊢
    refine .inr ⟨.steal, .got n.item, _, hg, ?_, h.settle hexact ⟨n, hn, rfl⟩ rfl⟩
    rw [Inv.limit_update (by rw [hx]; exact Inv.neutral_of_ofOwner rfl)
      (Inv.neutral_of_ofOwner rfl)]
    exact h.items_eq.trans (contents_top hlt hn rfl rfl)
  · simp only [step, if_neg htop] at hexact ⊢
    exact h.settle_failed hx hg rfl rfl hexact rfl

theorem step_exchange (h : Relates r owner s l items st) {pos : ℕ}
    (hx : l t = some (.exchange pos)) (c : Bool) :
    Follows r owner t (step r c s (.exchange pos)).1
      (Function.update l t (some (step r c s (.exchange pos)).2)) items st := by
  have hexact := h.exact.step_common hx rfl rfl c
  obtain ⟨_, hg, n, hn, rfl⟩ := h.told.busy hx
  simp only [step, hn] at hexact ⊢
  have hpos := h.exact.owned t _ pos hx rfl
  -- the other cells in use are those of other positions
  have hother : ∀ q, q ≠ pos → Holds r s q →
      (s.cells.setData (r.slot pos) none).data (r.slot q) = s.cells.data (r.slot q) := by
    intro q hq hholds
    rw [Cells.setData_data, Function.update_of_ne]
    exact fun he => hq (hholds.unique hpos he)
  have hlim : limit s.bottom (Function.update l t (some (Local.clearRound pos n)) owner) =
      limit s.bottom (l owner) :=
    Inv.limit_update (by rw [hx]; exact Inv.neutral_of_ofOwner rfl) (Inv.neutral_of_ofOwner rfl) _
  refine .inl (h.stay hg hexact ?_ rfl fun u z p hut hu hz => ?_)
  · rw [hlim]
    refine contents_congr rfl fun p hge hlt => hother p ?_ (h.exact.filled p hge hlt).1
    rcases h.exact.inv.claimed t _ pos hx rfl with hc | ⟨_, hc⟩ <;> omega
  · refine hother p ?_ (h.exact.owned u z p hu hz)
    rintro rfl
    exact h.exact.apart u t z _ p hut hu hx hz rfl

theorem step_common (h : Relates r owner s l items st) (hx : l t = some x)
    (hown : x.ofOwner = false) (hr : result x = none) (b : Bool) :
    Follows r owner t (step r b s x).1 (Function.update l t (some (step r b s x).2)) items st := by
  have hexact := h.exact.step_common hx hown hr b
  obtain ⟨g, hg, htells⟩ := h.told.busy hx
  cases x with
  | stealLoadTop => exact .inl (h.stay_common hx hg rfl rfl hexact rfl rfl rfl htells)
  | stealLoadBottom pos =>
    obtain rfl : g = .called .steal := htells
    by_cases hle : s.bottom ≤ pos
    · simp only [step, if_pos hle] at hexact ⊢
      exact h.settle_failed hx hg rfl rfl hexact rfl
    · simp only [step, if_neg hle] at hexact ⊢
      exact .inl (h.stay_common hx hg rfl rfl hexact rfl rfl rfl rfl)
  | stealLoadRound pos =>
    obtain rfl : g = .called .steal := htells
    by_cases hround : s.cells.round (r.slot pos) = pos + 1
    · simp only [step, if_pos hround] at hexact ⊢
      exact .inl (h.stay_common hx hg rfl rfl hexact rfl rfl rfl rfl)
    · simp only [step, if_neg hround] at hexact ⊢
      exact h.settle_failed hx hg rfl rfl hexact rfl
  | stealClaim pos => exact h.step_stealClaim hx b
  | exchange pos => exact h.step_exchange hx b
  | clearRound pos p =>
    exact .inl (h.stay_common hx hg rfl rfl hexact (Cells.clearRound_data ..) rfl rfl htells)
  | finish p => exact .inl (h.stay_common hx hg rfl rfl hexact rfl rfl rfl htells)
  | done o => cases hr
  | _ => cases hown

end Relates

theorem simulation (r : Ring) (owner : Tid) :
    (object r).Simulation (may owner) NoLostClaim (spec α Tid r.size) (Relates r owner) where
  call {s l items st t op} h hl hmay := by
    have hexact := (exact_inductive r owner).call h.exact hl hmay
    refine ⟨h.told.idle hl, hexact, ?_, ?_⟩
    · show items = contents r s (limit s.bottom (Function.update l t (some (start op)) owner))
      rw [Inv.limit_update (by rw [hl]; exact Inv.neutral_none) (Inv.neutral_start op)]
      exact h.items_eq
    · refine h.told.update (.some ?_) fun _ _ _ _ _ hg => hg
      cases op <;> rfl
  step {s l items st t x} b h hx hr hok := by
    cases hown : x.ofOwner with
    | true =>
      obtain rfl := h.exact.inv.only t x hx hown
      exact h.step_owner hx hown hok b
    | false => exact h.step_common hx hown hr b
  ret {s l items st t x o} h hx hr := by
    have hexact := (exact_inductive r owner).ret h.exact hx hr
    obtain ⟨g, hg, htells⟩ := h.told.busy hx
    cases x with
    | done o' =>
      obtain rfl : o' = o := Option.some.inj hr
      obtain rfl : g = .settled o' := htells
      refine ⟨hg, hexact, ?_, h.told.update .none fun _ _ _ _ _ hg => hg⟩
      rw [Inv.limit_update (by rw [hx]; exact Inv.neutral_of_ofOwner rfl) Inv.neutral_none]
      exact h.items_eq
    | _ => cases hr

deriving instance DecidableEq for Op

end LowLatency.WorkStealingDeque
