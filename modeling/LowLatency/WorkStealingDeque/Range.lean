import LowLatency.WorkStealingDeque.Conservation

/-!
# What the deque's index range holds

A pop that loses its compare-exchange on the last element stores `bottom_` one past the new `top_`
and so leaves a position in the range that holds nothing (`exists_phantom`). In every run in which
no pop loses its compare-exchange the range is exact (`noPhantom`): `Exact` adds to the invariant
that every position in use holds its own node under its own round.
-/

namespace LowLatency.WorkStealingDeque

open Concurrency

variable {α Tid : Type*}

/-- What a user of the deque at rest expects of `top_` and `bottom_`. -/
structure NoPhantom (r : Ring) (s : Shared α) : Prop where
  /-- Every position from `top_` to `bottom_` holds an element not yet returned. -/
  filled : ∀ p, s.top ≤ p → p < s.bottom →
    ∃ n, s.cells.data (r.slot p) = some n ∧ n ∈ s.pushed ∧ n ∉ s.deleted
  /-- `size()` is the number of elements pushed and not yet returned. -/
  size_eq : s.deleted.length + size s.top s.bottom = s.pushed.length
  empty_iff : empty s.top s.bottom = true ↔ s.deleted.length = s.pushed.length
  pushes : s.pushed.length < s.deleted.length + r.size → ∀ x, ∃ s',
    (object r).Returns s (start (.push x)) s' .put
  pops : 0 < size s.top s.bottom → ∃ s' y, (object r).Returns s (start .pop) s' (.got y)
  steals : 0 < size s.top s.bottom → ∃ s' y, (object r).Returns s (start .steal) s' (.got y)

/-- The next instruction is not a compare-exchange that a pop loses: `top_` is still the value the
pop has loaded. -/
def NoLostClaim (s : Shared α) : Local α → Prop
  | .popClaim _ t => s.top = t
  | _ => True

/-- The cell of position `p` holds a node pushed at `p`. -/
def Holds (r : Ring) (s : Shared α) (p : ℕ) : Prop :=
  ∃ n, s.cells.data (r.slot p) = some n ∧ n.pos = p

theorem Holds.unique {r : Ring} {s : Shared α} {p q : ℕ} (hp : Holds r s p) (hq : Holds r s q)
    (h : r.slot p = r.slot q) : p = q := by
  obtain ⟨n, hn, rfl⟩ := hp
  obtain ⟨m, hm, rfl⟩ := hq
  rw [h, hm, Option.some.injEq] at hn
  rw [hn]

/-- The exact invariant says nothing special about the operation. -/
def Local.unremarkable : Local α → Bool
  | .pushStoreBottom _ | .clearRound _ _ | .popLost _ => false
  | _ => true

variable [Fintype Tid]

/-- The invariant of the runs in which no pop loses its compare-exchange. -/
structure Exact (r : Ring) (owner : Tid) (s : Shared α) (l : Tid → Option (Local α)) : Prop where
  inv : Inv r owner s l
  filled : ∀ p, s.top ≤ p → p < limit s.bottom (l owner) →
    Holds r s p ∧ s.cells.round (r.slot p) = p + 1
  owned : ∀ t x p, l t = some x → x.claims = some p → Holds r s p
  apart : ∀ t u x y p, t ≠ u → l t = some x → l u = some y → x.claims = some p →
    y.claims ≠ some p
  published : ∀ b, l owner = some (.pushStoreBottom b) → s.cells.round (r.slot b) = b + 1
  clearing : ∀ t p n, l t = some (.clearRound p n) →
    p < s.top ∨ (t = owner ∧ p = limit s.bottom (l owner))
  notLost : ∀ t, l owner ≠ some (.popLost t)

theorem exact_init (r : Ring) (owner : Tid) : Exact r owner (init : Shared α) fun _ => none where
  inv := inv_init r owner
  filled p _ h := by cases h
  owned t x p h := by cases h
  apart t u x y p _ h := by cases h
  published b h := by cases h
  clearing t p n h := by cases h
  notLost t h := by cases h

namespace Exact

variable [DecidableEq Tid] {r : Ring} {owner t : Tid} {s s' : Shared α}
  {l : Tid → Option (Local α)} {x y : Local α} {o : Option (Local α)}

/-- A step that moves no node keeps the range exact, when the positions it adds to the range were
claimed by the moving thread, and its new claims were in the range. -/
theorem control (h : Exact r owner s l) (hinv : Inv r owner s' (Function.update l t o))
    (hdata : s'.cells.data = s.cells.data) (htop : s.top ≤ s'.top)
    (hfilled : ∀ p, s'.top ≤ p → p < limit s'.bottom (Function.update l t o owner) →
      (s.top ≤ p ∧ p < limit s.bottom (l owner)) ∨
        (t = owner ∧ l owner = some (.pushStoreBottom p)))
    (hround : ∀ p, s.top ≤ p →
      (p < limit s.bottom (l owner) ∨ l owner = some (.pushStoreBottom p)) →
      s.cells.round (r.slot p) = p + 1 → s'.cells.round (r.slot p) = p + 1)
    (hclaims : ∀ y p, o = some y → y.claims = some p →
      (∃ x, l t = some x ∧ x.claims = some p) ∨ (s.top ≤ p ∧ p < limit s.bottom (l owner)))
    (hlim : t ≠ owner → s'.bottom = s.bottom)
    (hpub : ∀ b, o = some (.pushStoreBottom b) → s'.cells.round (r.slot b) = b + 1)
    (hclear : ∀ p n, o = some (.clearRound p n) → p < s'.top)
    (hlost : ∀ b, o ≠ some (.popLost b)) : Exact r owner s' (Function.update l t o) := by
  have hholds : ∀ p, Holds r s' p ↔ Holds r s p := fun p => by unfold Holds; rw [hdata]
  have htopb : ∀ b, l owner = some (.pushStoreBottom b) → s.top ≤ b := fun b hb => by
    have hph := h.inv.phase
    have hle := h.inv.top_le
    rw [hb] at hph hle
    rw [hph.1]
    exact hle
  have hfresh : ∀ u x p, u ≠ t → l u = some x → x.claims = some p → s.top ≤ p →
      ¬ p < limit s.bottom (l owner) := by
    intro u x p _ hu hx hge
    rcases h.inv.claimed u x p hu hx with hlt | ⟨_, rfl⟩ <;> omega
  refine ⟨hinv, ?_, ?_, ?_, ?_, ?_, ?_⟩
  · intro p hge hlt
    rw [hholds]
    rcases hfilled p hge hlt with ⟨hge', hlt'⟩ | ⟨rfl, hp⟩
    · obtain ⟨hp, hr⟩ := h.filled p hge' hlt'
      exact ⟨hp, hround p hge' (.inl hlt') hr⟩
    · exact ⟨h.owned t _ p hp rfl, hround p (htopb p hp) (.inr hp) (h.published p hp)⟩
  · intro u z p hu hz
    rw [hholds]
    rcases update_eq_some hu with ⟨rfl, ho⟩ | ⟨_, hu⟩
    · rcases hclaims z p ho hz with ⟨x, hx, hxp⟩ | ⟨hge, hlt⟩
      · exact h.owned u x p hx hxp
      · exact (h.filled p hge hlt).1
    · exact h.owned u z p hu hz
  · intro u v z w p huv hu' hv' hz hw
    rcases update_eq_some hu' with ⟨rfl, ho⟩ | ⟨hut, hu⟩ <;>
      rcases update_eq_some hv' with ⟨hvt, ho'⟩ | ⟨hvt, hv⟩
    · exact huv hvt.symm
    · rcases hclaims z p ho hz with ⟨x, hx, hxp⟩ | ⟨hge, hlt⟩
      · exact h.apart u v x w p huv hx hv hxp hw
      · exact hfresh v w p hvt hv hw hge hlt
    · subst hvt
      rcases hclaims w p ho' hw with ⟨x, hx, hxp⟩ | ⟨hge, hlt⟩
      · exact h.apart u v z x p huv hu hx hz hxp
      · exact hfresh u z p hut hu hz hge hlt
    · exact h.apart u v z w p huv hu hv hz hw
  · intro b hb
    rcases update_eq_some hb with ⟨_, ho⟩ | ⟨_, hb⟩
    · exact hpub b ho
    · exact hround b (htopb b hb) (.inr hb) (h.published b hb)
  · intro u p n hu
    rcases update_eq_some hu with ⟨_, ho⟩ | ⟨hut, hu⟩
    · exact .inl (hclear p n ho)
    · rcases h.clearing u p n hu with hlt | ⟨rfl, hp⟩
      · exact .inl (by omega)
      · refine .inr ⟨rfl, ?_⟩
        rw [Function.update_of_ne hut, hlim (Ne.symm hut)]
        exact hp
  · intro b hb
    rcases update_eq_some hb with ⟨_, ho⟩ | ⟨_, hb⟩
    · exact hlost b ho
    · exact h.notLost b hb

/-- A step that leaves `top_`, the nodes and the rounds, and claims nothing new. -/
theorem quiet (h : Exact r owner s l) (hinv : Inv r owner s' (Function.update l t o))
    (hcells : s'.cells = s.cells) (htop : s'.top = s.top)
    (hlim : limit s'.bottom (Function.update l t o owner) ≤ limit s.bottom (l owner))
    (hclaims : ∀ y p, o = some y → y.claims = some p → ∃ x, l t = some x ∧ x.claims = some p)
    (hbottom : t ≠ owner → s'.bottom = s.bottom)
    (hquiet : ∀ y, o = some y → y.unremarkable = true) :
    Exact r owner s' (Function.update l t o) := by
  refine h.control hinv (by rw [hcells]) htop.ge (fun p hge hlt => ?_) ?_
    (fun y p ho hy => .inl (hclaims y p ho hy)) hbottom ?_ ?_ ?_
  · rw [htop] at hge
    exact .inl ⟨hge, by omega⟩
  · intro p _ _ hp
    rw [hcells]
    exact hp
  · rintro b rfl
    cases hquiet _ rfl
  · rintro p n rfl
    cases hquiet _ rfl
  · rintro b rfl
    cases hquiet _ rfl

theorem claim (h : Exact r owner s l) {p : ℕ}
    (hinv : Inv r owner s' (Function.update l t (some y)))
    (hcells : s'.cells = s.cells) (htop : s.top ≤ s'.top)
    (hlim : limit s'.bottom (Function.update l t (some y) owner) ≤ limit s.bottom (l owner))
    (hclaim : y.claims = some p) (hge : s.top ≤ p) (hlt : p < limit s.bottom (l owner))
    (hbottom : s'.bottom = s.bottom)
    (hy : y.unremarkable = true) :
    Exact r owner s' (Function.update l t (some y)) := by
  refine h.control hinv (by rw [hcells]) htop (fun q hge' hlt' => .inl ⟨by omega, by omega⟩) ?_ ?_
    (fun _ => hbottom) ?_ ?_ ?_
  · intro q _ _ hq
    rw [hcells]
    exact hq
  · rintro _ q ⟨⟩ hq
    rw [hclaim] at hq
    obtain rfl := Option.some.inj hq
    exact .inr ⟨hge, hlt⟩
  · rintro b ⟨⟩
    cases hy
  · rintro q n ⟨⟩
    cases hy
  · rintro b ⟨⟩
    cases hy

theorem quiet_own (h : Exact r owner s l) (hx : l owner = some x)
    (hinv : Inv r owner s' (Function.update l owner (some y)))
    (hcells : s'.cells = s.cells) (htop : s'.top = s.top)
    (hlim : limit s'.bottom (some y) ≤ limit s.bottom (some x))
    (hclaims : y.claims = x.claims ∨ y.claims = none)
    (hquiet : y.unremarkable = true) :
    Exact r owner s' (Function.update l owner (some y)) := by
  refine h.quiet hinv hcells htop (by rw [Function.update_self, hx]; exact hlim) ?_
    (fun hne => absurd rfl hne) (by rintro _ ⟨⟩; exact hquiet)
  rintro _ p ⟨⟩ hp
  rcases hclaims with he | he
  · exact ⟨x, hx, he ▸ hp⟩
  · rw [he] at hp
    cases hp

theorem storeData (h : Exact r owner s l) {b : ℕ} {item : α}
    (hx : l owner = some (.pushStoreData item b)) :
    Exact r owner { s with
        cells := s.cells.setData (r.slot b) (some ⟨s.pushed.length, b, item⟩)
        pushed := s.pushed ++ [⟨s.pushed.length, b, item⟩] }
      (Function.update l owner (some (.pushStoreRound b))) := by
  obtain ⟨hb, _, hnone⟩ := h.inv.phase_at hx
  have hlim : limit s.bottom (l owner) = b := by rw [hx, hb]; rfl
  have hself : limit s.bottom (Function.update l owner (some (Local.pushStoreRound b)) owner) = b :=
    by rw [Function.update_self]; exact hb.symm
  have hholds : ∀ p, Holds r s p → Holds r { s with
      cells := s.cells.setData (r.slot b) (some ⟨s.pushed.length, b, item⟩)
      pushed := s.pushed ++ [⟨s.pushed.length, b, item⟩] } p := by
    rintro p ⟨n, hn, hp⟩
    have hne : r.slot p ≠ r.slot b := fun he => by rw [he, hnone] at hn; cases hn
    exact ⟨n, by rw [Cells.setData_data, Function.update_of_ne hne]; exact hn, hp⟩
  refine ⟨h.inv.storeData hx, ?_, ?_, ?_, ?_, ?_, ?_⟩
  · intro p hge hlt
    have hlt : p < limit s.bottom (l owner) := by rw [hlim, ← hself]; exact hlt
    obtain ⟨hp, hr⟩ := h.filled p hge hlt
    exact ⟨hholds p hp, by rw [Cells.setData_round]; exact hr⟩
  · intro u z p hu hz
    rcases update_eq_some hu with ⟨rfl, ho⟩ | ⟨_, hu⟩
    · obtain rfl := Option.some.inj ho
      obtain rfl := Option.some.inj hz
      exact ⟨_, by rw [Cells.setData_data, Function.update_self], rfl⟩
    · exact hholds p (h.owned u z p hu hz)
  · have hfresh : ∀ u z, u ≠ owner → l u = some z → z.claims ≠ some b := by
      intro u z hne hu hz
      have hle := h.inv.top_le
      rcases h.inv.claimed u z b hu hz with hlt | ⟨he, _⟩
      · omega
      · exact hne he
    intro u v z w p huv hu' hv' hz hw
    rcases update_eq_some hu' with ⟨rfl, ho⟩ | ⟨hut, hu⟩ <;>
      rcases update_eq_some hv' with ⟨hvt, ho'⟩ | ⟨hvt, hv⟩
    · exact huv hvt.symm
    · obtain rfl := Option.some.inj ho
      exact hfresh v w hvt hv ((Option.some.inj hz) ▸ hw)
    · obtain rfl := Option.some.inj ho'
      exact hfresh u z hut hu ((Option.some.inj hw) ▸ hz)
    · exact h.apart u v z w p huv hu hv hz hw
  · intro c hc
    rw [Function.update_self] at hc
    cases hc
  · intro u p n hu
    rcases update_eq_some hu with ⟨_, ho⟩ | ⟨_, hu⟩
    · cases ho
    · show p < s.top ∨ (u = owner ∧ p = limit s.bottom (Function.update l owner _ owner))
      rw [hself, ← hlim]
      exact h.clearing u p n hu
  · intro c hc
    rw [Function.update_self] at hc
    cases hc

theorem take (h : Exact r owner s l) {pos : ℕ} {p : Node α} (hx : l t = some (.exchange pos))
    (hp : s.cells.data (r.slot pos) = some p) :
    Exact r owner { s with cells := s.cells.setData (r.slot pos) none }
      (Function.update l t (some (.clearRound pos p))) := by
  have hpos := h.owned t _ pos hx rfl
  have hclaimed := h.inv.claimed t _ pos hx rfl
  have hlim : limit s.bottom (Function.update l t (some (Local.clearRound pos p)) owner) =
      limit s.bottom (l owner) :=
    Inv.limit_update (by rw [hx]; exact Inv.neutral_of_ofOwner rfl) (Inv.neutral_of_ofOwner rfl) _
  have hholds : ∀ q, q ≠ pos → Holds r s q →
      Holds r { s with cells := s.cells.setData (r.slot pos) none } q := by
    rintro q hq ⟨n, hn, hnq⟩
    have hne : r.slot q ≠ r.slot pos := fun he => hq (Holds.unique ⟨n, hn, hnq⟩ hpos he)
    exact ⟨n, by rw [Cells.setData_data, Function.update_of_ne hne]; exact hn, hnq⟩
  refine ⟨h.inv.take hx hp, ?_, ?_, ?_, ?_, ?_, ?_⟩
  · intro q hge hlt
    have hlt : q < limit s.bottom (l owner) := by rw [← hlim]; exact hlt
    have hge : s.top ≤ q := hge
    obtain ⟨hq, hr⟩ := h.filled q hge hlt
    exact ⟨hholds q (by rcases hclaimed with hc | ⟨_, hc⟩ <;> omega) hq,
      by rw [Cells.setData_round]; exact hr⟩
  · intro u z q hu' hz
    rcases update_eq_some hu' with ⟨rfl, ho⟩ | ⟨hut, hu⟩
    · obtain rfl := Option.some.inj ho
      cases hz
    · refine hholds q ?_ (h.owned u z q hu hz)
      intro he
      subst he
      exact h.apart u t z _ q hut hu hx hz rfl
  · intro u v z w q huv hu' hv' hz hw
    rcases update_eq_some hu' with ⟨rfl, ho⟩ | ⟨hut, hu⟩ <;>
      rcases update_eq_some hv' with ⟨hvt, ho'⟩ | ⟨hvt, hv⟩
    · exact huv hvt.symm
    · obtain rfl := Option.some.inj ho
      cases hz
    · obtain rfl := Option.some.inj ho'
      cases hw
    · exact h.apart u v z w q huv hu hv hz hw
  · intro c hc
    rcases update_eq_some hc with ⟨_, ho⟩ | ⟨_, hc⟩
    · cases ho
    · rw [Cells.setData_round]
      exact h.published c hc
  · intro u q n hu
    show q < s.top ∨ (u = owner ∧ q = limit s.bottom (Function.update l t _ owner))
    rw [hlim]
    rcases update_eq_some hu with ⟨rfl, ho⟩ | ⟨_, hu⟩
    · cases ho
      exact hclaimed
    · exact h.clearing u q n hu
  · intro c hc
    rcases update_eq_some hc with ⟨_, ho⟩ | ⟨_, hc⟩
    · cases ho
    · exact h.notLost c hc

theorem step_owner (h : Exact r owner s l) (hx : l owner = some x) (hown : x.ofOwner = true)
    (hok : NoLostClaim s x) (b : Bool) :
    Exact r owner (step r b s x).1 (Function.update l owner (some (step r b s x).2)) := by
  have hinv := h.inv.step_owner hx hown b
  have hph := h.inv.phase_at hx
  have hrange := h.inv.range_at hx
  cases x with
  | pushLoadBottom item => exact h.quiet_own hx hinv rfl rfl le_rfl (.inl rfl) rfl
  | pushLoadTop item b =>
    revert hinv
    simp only [step]
    split <;> intro hinv
    · exact h.quiet_own hx hinv rfl rfl le_rfl (.inl rfl) rfl
    · exact h.quiet_own hx hinv rfl rfl le_rfl (.inl rfl) rfl
  | pushWait item b =>
    revert hinv
    simp only [step]
    split <;> intro hinv
    · exact h.quiet_own hx hinv rfl rfl le_rfl (.inl rfl) rfl
    · exact h.quiet_own hx hinv rfl rfl le_rfl (.inl rfl) rfl
  | pushStoreData item b => exact h.storeData hx
  | pushStoreRound b =>
    have hb : limit s.bottom (l owner) = b := by rw [hx]; exact hph.1.symm
    refine h.control hinv (Cells.setRound_data ..) le_rfl (fun p hge hlt => .inl ⟨hge, ?_⟩)
      ?_ ?_ (fun hne => absurd rfl hne) ?_ (fun p n ho => by cases ho) (fun c ho => by cases ho)
    · rw [Function.update_self] at hlt
      rw [hx]
      exact hlt
    · intro p hge hlt hp
      have hlt : p < limit s.bottom (l owner) := by
        rcases hlt with hlt | hc
        · exact hlt
        · rw [hx] at hc
          cases hc
      have hne : r.slot p ≠ r.slot b := fun he => by
        have := Holds.unique (h.filled p hge hlt).1 (h.owned owner _ b hx rfl) he
        omega
      show (Cells.setRound _ _ _).round _ = _
      rw [Cells.setRound_round, Function.update_of_ne hne]
      exact hp
    · rintro _ p ⟨⟩ hp
      exact .inl ⟨_, hx, hp⟩
    · rintro _ ⟨⟩
      show (Cells.setRound _ _ _).round _ = _
      rw [Cells.setRound_round, Function.update_self]
  | pushStoreBottom b =>
    refine h.control hinv rfl le_rfl (fun p hge hlt => ?_) (fun _ _ _ hp => hp)
      (fun y p ho hp => by cases ho; cases hp) (fun hne => absurd rfl hne)
      (fun c ho => by cases ho) (fun p n ho => by cases ho) (fun c ho => by cases ho)
    have hb : b = s.bottom := hph.1
    have hlt : p < b + 1 := by rw [Function.update_self] at hlt; exact hlt
    rw [hx]
    by_cases he : p = b
    · exact .inr ⟨rfl, by rw [he]⟩
    · exact .inl ⟨hge, show p < s.bottom by omega⟩
  | popLoadBottom =>
    revert hinv
    simp only [step]
    split <;> intro hinv
    · exact h.quiet_own hx hinv rfl rfl le_rfl (.inl rfl) rfl
    · exact h.quiet_own hx hinv rfl rfl le_rfl (.inl rfl) rfl
  | popStoreBottom b =>
    exact h.quiet_own hx hinv rfl rfl hph.ge (.inl rfl) rfl
  | popLoadTop b =>
    have hle : s.top ≤ b + 1 := hrange.1
    revert hinv
    simp only [step]
    split
    next => 
      intro hinv
      exact h.quiet_own hx hinv rfl rfl hle (.inl rfl) rfl
    next =>
      split <;> intro hinv
      next hlt =>
        exact h.claim hinv rfl le_rfl
          (by rw [Function.update_self, hx]; exact (Nat.le_of_eq hph.symm).trans (Nat.le_succ _))
          rfl hlt.le (by rw [hx]; exact Nat.lt_succ_self _) rfl rfl
      next => exact h.quiet_own hx hinv rfl rfl le_rfl (.inl rfl) rfl
  | popRestore t => exact h.quiet_own hx hinv rfl rfl le_rfl (.inl rfl) rfl
  | popClaim b t =>
    have hok : s.top = t := hok
    revert hinv
    simp only [step, if_pos hok]
    intro hinv
    obtain ⟨hbt, _, _⟩ := hph
    exact h.claim hinv rfl (by show s.top ≤ t + 1; omega)
      (by rw [Function.update_self, hx]; show t + 1 ≤ b + 1; omega) rfl
      (by omega) (by rw [hx]; exact Nat.lt_succ_self _) rfl rfl
  | popLost t => exact absurd hx (h.notLost t)
  | popWon b t => exact h.quiet_own hx hinv rfl rfl le_rfl (.inl rfl) rfl
  | _ => cases hown

/-- A quiet step of an operation that does not show where the owner is. -/
theorem quiet_common (h : Exact r owner s l) (hx : l t = some x) (hxo : x.ofOwner = false)
    (hyo : y.ofOwner = false) (hinv : Inv r owner s' (Function.update l t (some y)))
    (hcells : s'.cells = s.cells) (htop : s'.top = s.top) (hbottom : s'.bottom = s.bottom)
    (hclaims : y.claims = none) (hquiet : y.unremarkable = true) :
    Exact r owner s' (Function.update l t (some y)) := by
  refine h.quiet hinv hcells htop ?_ ?_ (fun _ => hbottom) (by rintro _ ⟨⟩; exact hquiet)
  · rw [hbottom, Inv.limit_update (by rw [hx]; exact Inv.neutral_of_ofOwner hxo)
      (Inv.neutral_of_ofOwner hyo)]
  · rintro _ p ⟨⟩ hp
    rw [hclaims] at hp
    cases hp

theorem step_common (h : Exact r owner s l) (hx : l t = some x) (hown : x.ofOwner = false)
    (hr : result x = none) (b : Bool) :
    Exact r owner (step r b s x).1 (Function.update l t (some (step r b s x).2)) := by
  have hinv := h.inv.step_common hx hown hr b
  cases x with
  | stealLoadTop => exact h.quiet_common hx rfl rfl hinv rfl rfl rfl rfl rfl
  | stealLoadBottom pos =>
    revert hinv
    simp only [step]
    split <;> intro hinv
    · exact h.quiet_common hx rfl rfl hinv rfl rfl rfl rfl rfl
    · exact h.quiet_common hx rfl rfl hinv rfl rfl rfl rfl rfl
  | stealLoadRound pos =>
    revert hinv
    simp only [step]
    split <;> intro hinv
    · exact h.quiet_common hx rfl rfl hinv rfl rfl rfl rfl rfl
    · exact h.quiet_common hx rfl rfl hinv rfl rfl rfl rfl rfl
  | stealClaim pos =>
    have hth := h.inv.thief t _ hx
    revert hinv
    simp only [step]
    split <;> intro hinv
    next htop =>
      subst htop
      exact h.claim hinv rfl (Nat.le_succ _)
        (Inv.limit_update (by rw [hx]; exact Inv.neutral_of_ofOwner rfl)
          (Inv.neutral_of_ofOwner rfl) _).le rfl le_rfl (hth.2 rfl) rfl rfl
    next => exact h.quiet_common hx rfl rfl hinv rfl rfl rfl rfl rfl
  | exchange pos =>
    obtain ⟨p, hp, _⟩ := h.owned t _ pos hx rfl
    simp only [step, hp]
    exact h.take hx hp
  | clearRound pos p =>
    refine h.control hinv (Cells.clearRound_data ..) le_rfl (fun q hge hlt => .inl ⟨hge, ?_⟩) ?_
      (fun y q ho hq => by cases ho; cases hq) (fun _ => rfl)
      (fun c ho => by cases ho) (fun q n ho => by cases ho) (fun c ho => by cases ho)
    · rw [← Inv.limit_update (o := some (Local.finish p))
        (by rw [hx]; exact Inv.neutral_of_ofOwner rfl) (Inv.neutral_of_ofOwner rfl)]
      exact hlt
    · intro q hge hlt hq
      refine Cells.clearRound_round _ _ _ hq ?_
      rcases h.clearing t pos p hx with hpos | ⟨rfl, hpos⟩
      · omega
      · rcases hlt with hlt | hc
        · omega
        · rw [hx] at hc
          cases hc
  | finish p => exact h.quiet_common hx rfl rfl hinv rfl rfl rfl rfl rfl
  | done o => cases hr
  | _ => cases hown

end Exact

/-- Every step that is not a lost compare-exchange of a pop keeps the range exact. -/
theorem exact_inductive [DecidableEq Tid] (r : Ring) (owner : Tid) :
    (object r).Inductive (may owner) NoLostClaim (Exact (α := α) r owner) where
  call {s l t op} h hl hmay := by
    refine h.quiet (h.inv.call hl op hmay) rfl rfl ?_ ?_ (fun _ => rfl) ?_
    · exact (Inv.limit_update (by rw [hl]; exact Inv.neutral_none) (Inv.neutral_start op) _).le
    · rintro _ p ⟨⟩ hp
      cases op <;> cases hp
    · rintro _ ⟨⟩
      cases op <;> rfl
  step {s l t x} b h hx hr hok := by
    cases hown : x.ofOwner with
    | true =>
      obtain rfl := h.inv.only t x hx hown
      exact h.step_owner hx hown hok b
    | false => exact h.step_common hx hown hr b
  ret {s l t x o} h hx hr := by
    have hinv := (inv_inductive r owner).ret h.inv hx hr
    cases x with
    | done o' =>
      refine h.quiet hinv rfl rfl ?_ (fun y p ho => by cases ho) (fun _ => rfl)
        (fun y ho => by cases ho)
      exact (Inv.limit_update (by rw [hx]; exact Inv.neutral_of_ofOwner rfl) Inv.neutral_none _).le
    | _ => cases hr

/-- A pop that has lost its compare-exchange adds a position that holds nothing to the range. -/
theorem popLost_adds_phantom {r : Ring} {owner : Tid} {s : Shared α} {l : Tid → Option (Local α)}
    {t : ℕ} (h : Inv r owner s l) (hx : l owner = some (.popLost t)) :
    (step r false s (.popLost t)).1.top < (step r false s (.popLost t)).1.bottom ∧
      ¬ Holds r (step r false s (.popLost t)).1 s.top := by
  obtain ⟨_, htop⟩ := h.phase_at hx
  have hlim : limit s.bottom (l owner) = t := by rw [hx]; rfl
  refine ⟨show s.top < t + 1 by omega, ?_⟩
  rintro ⟨n, hn, hpos⟩
  rcases (h.placed _ n hn).2 with ⟨_, hlt⟩ | ⟨u, x, hu, hxp⟩
  · omega
  · rcases h.claimed u x _ hu hxp with hlt | ⟨rfl, _⟩
    · omega
    · rw [hx, Option.some.injEq] at hu
      rw [← hu] at hxp
      cases hxp

/-! ## The deque at rest -/

namespace Exact

variable {r : Ring} {owner : Tid} {s : Shared α} {l : Tid → Option (Local α)}

theorem holds_of_rest (h : Exact r owner s l) (hrest : ∀ t, l t = none) {p : ℕ}
    (hge : s.top ≤ p) (hlt : p < s.bottom) :
    Holds r s p ∧ s.cells.round (r.slot p) = p + 1 :=
  h.filled p hge (by rw [hrest owner]; exact hlt)

theorem length_stored (h : Exact r owner s l) (hrest : ∀ t, l t = none) :
    (stored r s).length = s.bottom - s.top := by
  have hall : ∀ i ∈ List.range' s.top (s.bottom - s.top),
      (s.cells.data (r.slot i)).isSome = true := by
    intro i hi
    rw [List.mem_range'_1] at hi
    obtain ⟨⟨n, hn, _⟩, _⟩ := h.holds_of_rest hrest hi.1 (by omega)
    rw [hn]
    rfl
  unfold stored
  rw [List.length_filterMap_eq_countP, List.countP_eq_length.mpr hall, List.length_range']

theorem push_rest (h : Exact r owner s l) (hrest : ∀ t, l t = none)
    (hroom : s.bottom < s.top + r.size) (x : α) :
    ∃ s', (object r).Returns s (start (.push x)) s' .put := by
  have hnone : s.cells.data (r.slot s.bottom) = none := by
    cases hp : s.cells.data (r.slot s.bottom) with
    | none => rfl
    | some p =>
      obtain ⟨hslot, hge, hlt⟩ := h.inv.pos_of_rest hrest hp
      have := r.slot_inj hslot (by omega) (by omega)
      omega
  exact ⟨_, .step rfl rfl (.step rfl (if_neg (by omega)) (.step rfl (if_neg (by simp [hnone]))
    (.step rfl rfl (.step rfl rfl (.step rfl rfl (.done rfl))))))⟩

theorem exchange_holds {p : ℕ} (h : Holds r s p) :
    ∃ s' y, (object r).Returns s (.exchange p) s' (.got y) := by
  obtain ⟨n, hn, _⟩ := h
  have hstep : step r false s (.exchange p) =
      ({ s with cells := s.cells.setData (r.slot p) none }, .clearRound p n) := by
    simp only [step, hn]
  exact ⟨_, _, .step rfl hstep (.step rfl rfl (.step rfl rfl (.done rfl)))⟩

theorem pop_rest (h : Exact r owner s l) (hrest : ∀ t, l t = none) (hlt : s.top < s.bottom) :
    ∃ s' y, (object r).Returns s (start .pop) s' (.got y) := by
  obtain ⟨hp, _⟩ := h.holds_of_rest hrest (p := s.bottom - 1) (by omega) (by omega)
  by_cases hgt : s.top < s.bottom - 1
  · have hstep : step r false { s with bottom := s.bottom - 1 } (.popLoadTop (s.bottom - 1)) =
        ({ s with bottom := s.bottom - 1 }, .exchange (s.bottom - 1)) := by
      simp only [step]
      rw [if_neg (by omega), if_pos hgt]
    obtain ⟨s', y, hret⟩ := exchange_holds (s := { s with bottom := s.bottom - 1 }) hp
    exact ⟨s', y, .step rfl (if_neg (by omega)) (.step rfl rfl (.step rfl hstep hret))⟩
  · have hstep : step r false { s with bottom := s.bottom - 1 } (.popLoadTop (s.bottom - 1)) =
        ({ s with bottom := s.bottom - 1 }, .popClaim (s.bottom - 1) s.top) := by
      simp only [step]
      rw [if_neg (by omega), if_neg hgt]
    obtain ⟨s', y, hret⟩ := exchange_holds
      (s := { s with top := s.top + 1, bottom := s.top + 1 }) hp
    exact ⟨s', y, .step rfl (if_neg (by omega)) (.step rfl rfl (.step rfl hstep
      (.step rfl (if_pos rfl) (.step rfl rfl hret))))⟩

theorem steal_rest (h : Exact r owner s l) (hrest : ∀ t, l t = none) (hlt : s.top < s.bottom) :
    ∃ s' y, (object r).Returns s (start .steal) s' (.got y) := by
  obtain ⟨hp, hround⟩ := h.holds_of_rest hrest (p := s.top) le_rfl hlt
  obtain ⟨s', y, hret⟩ := exchange_holds (s := { s with top := s.top + 1 }) hp
  exact ⟨s', y, .step rfl rfl (.step rfl (if_neg (by omega)) (.step rfl (if_pos hround)
    (.step rfl (if_pos rfl) hret)))⟩

theorem noPhantom (h : Exact r owner s l) (hrest : ∀ t, l t = none) : NoPhantom r s := by
  obtain ⟨hle, hcap⟩ := h.inv.range_of_rest hrest
  have hkept := h.inv.kept hrest
  have hsize : size s.top s.bottom = s.bottom - s.top := by unfold size; split <;> omega
  have hlen : s.deleted.length + (s.bottom - s.top) = s.pushed.length := by
    rw [← h.length_stored hrest, ← List.length_append]
    exact hkept.length_eq
  have hnodup : (s.deleted ++ stored r s).Nodup := hkept.nodup_iff.mpr h.inv.numbered.nodup
  constructor
  · intro p hge hlt
    obtain ⟨⟨n, hn, _⟩, _⟩ := h.holds_of_rest hrest hge hlt
    have hmem : n ∈ stored r s := (h.inv.mem_stored hrest).mpr (mem_bag.mpr ⟨_, r.slot_lt p, hn⟩)
    exact ⟨n, hn, h.inv.mem_pushed hn,
      fun hdel => (List.nodup_append.mp hnodup).2.2 n hdel n hmem rfl⟩
  · rw [hsize]
    exact hlen
  · unfold empty
    rw [decide_eq_true_iff, hsize]
    omega
  · intro hroom
    exact h.push_rest hrest (by omega)
  · intro hpos
    exact h.pop_rest hrest (by omega)
  · intro hpos
    exact h.steal_rest hrest (by omega)

end Exact

variable [DecidableEq Tid]

/-- **No phantom.** In every run whose positions fit and in which no pop loses its
compare-exchange. -/
theorem noPhantom_of_noLostClaim (r : Ring) (owner : Tid)
    (c : Config Tid (Shared α) (Local α))
    (h : (system r owner).ReachWithin (fun c => c.shared.Fits) (Object.Guard NoLostClaim)
      (initial Tid) c)
    (hrest : c.Quiescent) : NoPhantom r c.shared :=
  ((exact_inductive r owner).reach (exact_init r owner) h.reach).noPhantom hrest

instance (s : Shared α) (x : Local α) : Decidable (NoLostClaim s x) := by
  unfold NoLostClaim
  split <;> infer_instance

/-- What a test looks at: the indices, how many nodes were pushed and deleted, and whether both
threads are done. -/
def summary (c : Config (Fin 2) (Shared ℕ) (Local ℕ)) : ℕ × ℕ × ℕ × ℕ × Bool :=
  (c.shared.top, c.shared.bottom, c.shared.pushed.length, c.shared.deleted.length,
    (c.locals 0).isNone && (c.locals 1).isNone)

theorem quiescent_of_summary {c : Config (Fin 2) (Shared ℕ) (Local ℕ)}
    (h : ((c.locals 0).isNone && (c.locals 1).isNone) = true) : c.Quiescent := by
  rw [Bool.and_eq_true, Option.isNone_iff_eq_none, Option.isNone_iff_eq_none] at h
  exact Fin.forall_fin_two.mpr h

/-- The owner pushes two elements; a steal of the first overlaps a pop of the second. -/
def popAndSteal : List (Action (Fin 2) (Op ℕ)) :=
  List.flatten [[.call 0 (.push 7)], Action.steps 0 6, [.ret 0, .call 0 (.push 8)],
    Action.steps 0 6, [.ret 0, .call 1 .steal], Action.steps 1 3, [.call 0 .pop],
    Action.steps 0 3, Action.steps 1 4, Action.steps 0 3, [.ret 0, .ret 1]]

theorem noPhantom_popAndSteal : ∃ c : Config (Fin 2) (Shared ℕ) (Local ℕ),
    c.shared.top = 1 ∧ c.shared.deleted.length = 2 ∧ NoPhantom Ring.two c.shared := by
  have hrun : ((system Ring.two 0).runWhile
      (fun c a => c.shared.Fits ∧ Object.Guard NoLostClaim c a) (initial (Fin 2))
      popAndSteal).map summary = some (1, 1, 2, 2, true) := by decide +kernel
  obtain ⟨c, hc, hres⟩ := Option.map_eq_some_iff.mp hrun
  simp only [summary, Prod.mk.injEq] at hres
  obtain ⟨htop, hbottom, _, hdeleted, hdone⟩ := hres
  have hfits : c.shared.Fits := by
    unfold Shared.Fits
    omega
  exact ⟨c, htop, hdeleted, noPhantom_of_noLostClaim Ring.two 0 c
    ⟨System.reach_of_runWhile hc, hfits⟩ (quiescent_of_summary hdone)⟩

/-- The owner pushes one element; the pop that then finds it the last loses it to a thief. -/
def lostPop : List (Action (Fin 2) (Op ℕ)) :=
  List.flatten [[.call 0 (.push 7)], Action.steps 0 6, [.ret 0, .call 1 .steal],
    Action.steps 1 3, [.call 0 .pop], Action.steps 0 3, Action.steps 1 4, Action.steps 0 2,
    [.ret 0, .ret 1]]

/-- A run without operations in flight at its end can leave a position that holds nothing. -/
theorem exists_phantom : ∃ c : Config (Fin 2) (Shared ℕ) (Local ℕ),
    (system Ring.two 0).Reachable (initial (Fin 2)) c ∧ c.Quiescent ∧
      ¬ NoPhantom Ring.two c.shared := by
  have hrun : ((system Ring.two 0).run (initial (Fin 2)) lostPop).map summary =
      some (1, 2, 1, 1, true) := by decide +kernel
  obtain ⟨c, hc, hres⟩ := Option.map_eq_some_iff.mp hrun
  simp only [summary, Prod.mk.injEq] at hres
  obtain ⟨htop, hbottom, hpushed, hdeleted, hdone⟩ := hres
  refine ⟨c, System.reachable_of_run hc, quiescent_of_summary hdone, fun h => ?_⟩
  have hsize := h.size_eq
  rw [htop, hbottom, hpushed, hdeleted] at hsize
  exact absurd hsize (by decide)

end LowLatency.WorkStealingDeque
