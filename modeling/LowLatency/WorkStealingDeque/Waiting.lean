import LowLatency.WorkStealingDeque.Custody

/-!
# What a push waits for

A push waits while its cell still has a node. Rounds and nodes of one cell only go up: a node is
stored where there is none, so it is the newest, and `top_` passes the position one ring above it only
by a claim that takes the node first (`Rounds.passed`). So the node is one ring below, and the thief that
has claimed this position is about to take it (`awaited_of_pushWait`).
-/

namespace LowLatency.WorkStealingDeque

open Concurrency

variable {α Tid : Type*}

/-- The position of a push that has room. -/
def Local.pushes : Local α → Option ℕ
  | .pushWait _ b | .pushStoreData _ b | .pushStoreRound b | .pushStoreBottom b => some b
  | _ => none

/-- The position of a push that has not yet stored its round. -/
def Local.unwritten : Local α → Option ℕ
  | .pushWait _ b | .pushStoreData _ b | .pushStoreRound b => some b
  | _ => none

/-- The owner pushes to position `b`, or `b` is in use and nobody has claimed it. -/
def Unclaimed (owner : Tid) (b : ℕ) (c : Config Tid (Shared α) (Local α)) : Prop :=
  (c.locals owner).bind Local.pushes = some b ∨
    c.shared.top ≤ b ∧ b < limit c.shared.bottom (c.locals owner)

/-- The thief has claimed the position one ring below `b` and not yet taken its node. -/
def Claimant (r : Ring) (owner : Tid) (b : ℕ) (c : Config Tid (Shared α) (Local α)) (u : Tid) :
    Prop :=
  u ≠ owner ∧ ∃ pos, pos + r.size = b ∧ pos < c.shared.top ∧ c.locals u = some (.exchange pos)

/-- What a push that waits for the cell of position `b` relies on. -/
structure Awaited [DecidableEq Tid] (r : Ring) (owner : Tid) (item : α) (b : ℕ)
    (c : Config Tid (Shared α) (Local α)) : Prop where
  thief : ∃! u, Claimant r owner b c u
  /-- The thief's next step empties the cell. -/
  empties : ∀ u, Claimant r owner b c u → ∀ choice, ∃ c',
    (system r owner).next c (.step u choice) = some c' ∧ c'.shared.cells.data (r.slot b) = none
  /-- While the push waits, the cell is not filled again. -/
  empty : ∀ c₁ c₂, (system r owner).Reach (fun d _ => d.locals owner = some (.pushWait item b)) c c₁ →
    c₁.shared.cells.data (r.slot b) = none →
    (system r owner).Reach (fun d _ => d.locals owner = some (.pushWait item b)) c₁ c₂ →
    c₂.shared.cells.data (r.slot b) = none
  /-- The round that the push writes stays until somebody claims the position. -/
  round : ∀ c', (system r owner).Reach (fun d _ => Unclaimed owner b d) c c' →
    (c'.locals owner).bind Local.unwritten = some b ∨ c'.shared.cells.round (r.slot b) = b + 1

/-! ## What an instruction can do -/

section Steps

variable {r : Ring} {s : Shared α} {x : Local α} {choice : Bool}

theorem step_data {j : ℕ} {n : Node α} (h : (step r choice s x).1.cells.data j = some n) :
    s.cells.data j = some n ∨
      ∃ item b, x = .pushStoreData item b ∧ j = r.slot b ∧ n.pos = b := by
  cases x with
  | pushStoreData item b =>
    simp only [step] at h
    rw [Cells.setData_data] at h
    by_cases hj : j = r.slot b
    · rw [hj, Function.update_self] at h
      obtain rfl := Option.some.inj h
      exact .inr ⟨item, b, rfl, hj, rfl⟩
    · rw [Function.update_of_ne hj] at h
      exact .inl h
  | exchange pos =>
    simp only [step] at h
    split at h
    · exact .inl h
    · dsimp only at h
      rw [Cells.setData_data] at h
      by_cases hj : j = r.slot pos
      · rw [hj, Function.update_self] at h
        cases h
      · rw [Function.update_of_ne hj] at h
        exact .inl h
  | pushStoreRound b => exact .inl ((congrFun (Cells.setRound_data ..) j).symm.trans h)
  | clearRound pos p => exact .inl ((congrFun (Cells.clearRound_data ..) j).symm.trans h)
  | pushLoadTop | pushWait | popLoadBottom | popLoadTop | popClaim | stealLoadBottom | stealLoadRound
  | stealClaim =>
    simp only [step] at h
    split_ifs at h <;> exact .inl h
  | _ => exact .inl h

theorem step_top (choice : Bool) : (step r choice s x).1.top = s.top ∨
    (step r choice s x).1.top = s.top + 1 ∧ (x = .stealClaim s.top ∨
      ∃ b, x = .popClaim b s.top ∧ (step r choice s x).2 = .popWon b s.top) := by
  cases x with
  | stealClaim t =>
    simp only [step]
    split_ifs with ht
    · subst ht
      exact .inr ⟨rfl, .inl rfl⟩
    · exact .inl rfl
  | popClaim b t =>
    simp only [step]
    split_ifs with ht
    · subst ht
      exact .inr ⟨rfl, .inr ⟨b, rfl, rfl⟩⟩
    · exact .inl rfl
  | exchange =>
    simp only [step]
    split <;> exact .inl rfl
  | pushLoadTop | pushWait | popLoadBottom | popLoadTop | stealLoadBottom | stealLoadRound =>
    simp only [step]
    split_ifs <;> exact .inl rfl
  | _ => exact .inl rfl

/-- A round is stored by the owner's push, or cleared by an operation that finds its own. -/
theorem step_round (choice : Bool) (j : ℕ) :
    (step r choice s x).1.cells.round j = s.cells.round j ∨
    (∃ b, x = .pushStoreRound b ∧ j = r.slot b ∧ (step r choice s x).1.cells.round j = b + 1) ∨
    ∃ pos p, x = .clearRound pos p ∧ j = r.slot pos ∧ s.cells.round j = pos + 1 ∧
      (step r choice s x).1.cells.round j = 0 := by
  cases x with
  | pushStoreRound b =>
    simp only [step]
    rw [Cells.setRound_round]
    by_cases hj : j = r.slot b
    · rw [hj, Function.update_self]
      exact .inr (.inl ⟨b, rfl, rfl, rfl⟩)
    · rw [Function.update_of_ne hj]
      exact .inl rfl
  | clearRound pos p =>
    simp only [step]
    unfold Cells.clearRound
    split_ifs with hr
    · rw [Cells.setRound_round]
      by_cases hj : j = r.slot pos
      · rw [hj, Function.update_self]
        exact .inr (.inr ⟨pos, p, rfl, rfl, hr, rfl⟩)
      · rw [Function.update_of_ne hj]
        exact .inl rfl
    · exact .inl rfl
  | exchange pos =>
    simp only [step]
    split
    · exact .inl rfl
    · exact .inl (congrFun (Cells.setData_round ..) j)
  | pushStoreData item b => exact .inl (congrFun (Cells.setData_round ..) j)
  | pushLoadTop | pushWait | popLoadBottom | popLoadTop | popClaim | stealLoadBottom | stealLoadRound
  | stealClaim =>
    simp only [step]
    split_ifs <;> exact .inl rfl
  | _ => exact .inl rfl

/-- A claim ends when the cell is empty, or the push is published. -/
theorem step_claims (choice : Bool) {pos : ℕ} (h : x.claims = some pos) :
    (step r choice s x).2.claims = some pos ∨
      (step r choice s x).1.cells.data (r.slot pos) = none ∨ x = .pushStoreBottom pos := by
  cases x with
  | exchange q =>
    obtain rfl := Option.some.inj h
    refine .inr (.inl ?_)
    simp only [step]
    split
    next hq => exact hq
    next => exact (congrFun (Cells.setData_data ..) _).trans (Function.update_self ..)
  | pushStoreBottom b =>
    obtain rfl := Option.some.inj h
    exact .inr (.inr rfl)
  | pushStoreRound b => exact .inl h
  | popWon b t => exact .inl h
  | _ => cases h

theorem step_stealClaim {pos : ℕ} (h : (step r choice s x).2 = .stealClaim pos) :
    s.cells.round (r.slot pos) = pos + 1 := by
  cases x with
  | stealLoadRound t =>
    simp only [step] at h
    split_ifs at h with hr
    cases h
    exact hr
  | exchange =>
    simp only [step] at h
    split at h <;> cases h
  | pushLoadTop | pushWait | popLoadBottom | popLoadTop | popClaim | stealLoadBottom | stealClaim =>
    simp only [step] at h
    split_ifs at h
  | _ => cases h

theorem step_exchange {pos : ℕ} (h : (step r choice s x).2 = .exchange pos) :
    x.ofOwner = true ∨ s.top = pos := by
  cases x with
  | stealClaim t =>
    simp only [step] at h
    split_ifs at h with ht
    cases h
    exact .inr ht
  | exchange =>
    simp only [step] at h
    split at h <;> cases h
  | stealLoadBottom | stealLoadRound =>
    simp only [step] at h
    split_ifs at h
  | stealLoadTop | clearRound | finish | done => cases h
  | _ => exact .inl rfl

/-- The operation clears the round of the position whose node it has taken. -/
theorem step_clearRound {pos : ℕ} {p : Node α} (h : (step r choice s x).2 = .clearRound pos p) :
    x = .exchange pos := by
  cases x with
  | exchange q =>
    simp only [step] at h
    split at h <;> cases h
    rfl
  | pushLoadTop | pushWait | popLoadBottom | popLoadTop | popClaim | stealLoadBottom | stealLoadRound
  | stealClaim =>
    simp only [step] at h
    split_ifs at h
  | _ => cases h

theorem step_pushStoreRound {b : ℕ} (h : (step r choice s x).2 = .pushStoreRound b) :
    ∃ item, x = .pushStoreData item b := by
  cases x with
  | pushStoreData item q =>
    cases h
    exact ⟨item, rfl⟩
  | exchange =>
    simp only [step] at h
    split at h <;> cases h
  | pushLoadTop | pushWait | popLoadBottom | popLoadTop | popClaim | stealLoadBottom | stealLoadRound
  | stealClaim =>
    simp only [step] at h
    split_ifs at h
  | _ => cases h

theorem step_unwritten (choice : Bool) {b : ℕ} (h : x.unwritten = some b) :
    (step r choice s x).2.unwritten = some b ∨
      (step r choice s x).1.cells.round (r.slot b) = b + 1 := by
  cases x with
  | pushWait item q =>
    simp only [step]
    split_ifs <;> exact .inl h
  | pushStoreData item q => exact .inl h
  | pushStoreRound q =>
    obtain rfl := Option.some.inj h
    refine .inr ?_
    simp only [step]
    rw [Cells.setRound_round, Function.update_self]
  | _ => cases h

end Steps

/-! ## The invariant -/

variable [Fintype Tid]

/-- How rounds, nodes and claims lie to each other. -/
structure Rounds (r : Ring) (owner : Tid) (s : Shared α) (l : Tid → Option (Local α)) : Prop where
  inv : Inv r owner s l
  bounded : ∀ j, s.cells.round j = 0 ∨
    ∃ p, s.cells.round j = p + 1 ∧ r.slot p = j ∧ p < s.top + r.size
  newest : ∀ j n, s.cells.data j = some n → s.cells.round j ≤ n.pos + 1
  seen : ∀ t p n, l t = some (.stealClaim p) → s.cells.data (r.slot p) = some n → p ≤ n.pos
  passed : ∀ j n, s.cells.data j = some n → s.top ≤ n.pos + r.size ∨
    ∃ x, l owner = some x ∧ x.claims = some (n.pos + r.size)
  storing : ∀ b n, l owner = some (.pushStoreRound b) → s.cells.data (r.slot b) = some n → n.pos = b
  apart : ∀ t u p, t ≠ owner → u ≠ owner → l t = some (.exchange p) → l u = some (.exchange p) →
    t = u
  clearing : ∀ t p n, l t = some (.clearRound p n) →
    p < s.top ∨ t = owner ∧ p = limit s.bottom (l owner)

theorem rounds_init (r : Ring) (owner : Tid) : Rounds r owner (init : Shared α) fun _ => none where
  inv := inv_init r owner
  bounded j := .inl rfl
  newest j n h := by cases h
  seen t p n h := by cases h
  passed j n h := by cases h
  storing b n h := by cases h
  apart t u p _ _ h := by cases h
  clearing t p n h := by cases h

namespace Rounds

variable {r : Ring} {owner t : Tid} {s : Shared α} {l : Tid → Option (Local α)} {x : Local α}

/-- A push stores its node at the end of the positions in use. -/
theorem storing_at (h : Rounds r owner s l) {item : α} {b : ℕ} (hx : l t = some x)
    (he : x = .pushStoreData item b) : t = owner ∧ b = s.bottom ∧ s.top ≤ b ∧ b < s.top + r.size := by
  subst he
  obtain rfl := h.inv.only t _ hx rfl
  obtain ⟨hb, hroom, _⟩ := h.inv.phase_at hx
  have htop : s.top ≤ s.bottom := (h.inv.range_at hx).1
  exact ⟨rfl, hb, hb ▸ htop, hroom⟩

/-- A push stores its round at the end of the positions in use. -/
theorem writing_at (h : Rounds r owner s l) {b : ℕ} (hx : l t = some x)
    (he : x = .pushStoreRound b) : t = owner ∧ b = s.bottom ∧ s.top ≤ b ∧ b < s.top + r.size := by
  subst he
  obtain rfl := h.inv.only t _ hx rfl
  obtain ⟨hb, hroom⟩ := h.inv.phase_at hx
  have htop : s.top ≤ s.bottom := (h.inv.range_at hx).1
  exact ⟨rfl, hb, hb ▸ htop, hroom⟩

variable [DecidableEq Tid]

theorem setLocal {o : Option (Local α)} (h : Rounds r owner s l)
    (hinv : Inv r owner s (Function.update l t o)) (hx : ∀ x, l t = some x → x.claims = none)
    (hneutral : Neutral (l t)) (hnew : Neutral o)
    (ho : ∀ y, o = some y → (∀ p, y ≠ .stealClaim p) ∧ (∀ b, y ≠ .pushStoreRound b) ∧
      (∀ p, y ≠ .exchange p) ∧ ∀ p n, y ≠ .clearRound p n) :
    Rounds r owner s (Function.update l t o) where
  inv := hinv
  bounded := h.bounded
  newest := h.newest
  seen u p n hu := by
    rcases update_eq_some hu with ⟨_, hy⟩ | ⟨_, hu⟩
    · exact absurd rfl ((ho _ hy).1 p)
    · exact h.seen u p n hu
  passed j n hn := by
    refine (h.passed j n hn).imp_right fun ⟨x, hl, hc⟩ => ⟨x, ?_, hc⟩
    rw [Function.update_of_ne, hl]
    rintro rfl
    rw [hx x hl] at hc
    cases hc
  storing b n hu := by
    rcases update_eq_some hu with ⟨_, hy⟩ | ⟨_, hu⟩
    · exact absurd rfl ((ho _ hy).2.1 b)
    · exact h.storing b n hu
  apart u v p hu hv hlu hlv := by
    rcases update_eq_some hlu with ⟨_, hy⟩ | ⟨_, hlu⟩
    · exact absurd rfl ((ho _ hy).2.2.1 p)
    rcases update_eq_some hlv with ⟨_, hy⟩ | ⟨_, hlv⟩
    · exact absurd rfl ((ho _ hy).2.2.1 p)
    exact h.apart u v p hu hv hlu hlv
  clearing u p n hu := by
    rw [Inv.limit_update hneutral hnew]
    rcases update_eq_some hu with ⟨_, hy⟩ | ⟨_, hu⟩
    · exact absurd rfl ((ho _ hy).2.2.2 p n)
    · exact h.clearing u p n hu

section Step

variable (h : Rounds r owner s l) (hx : l t = some x) (hr : result x = none) (choice : Bool)
include h hx

omit [DecidableEq Tid] in
theorem step_bounded (j : ℕ) : (step r choice s x).1.cells.round j = 0 ∨
    ∃ p, (step r choice s x).1.cells.round j = p + 1 ∧ r.slot p = j ∧
      p < (step r choice s x).1.top + r.size := by
  have htop : s.top ≤ (step r choice s x).1.top := top_le_step choice
  rcases step_round (r := r) (s := s) (x := x) choice j with
    hsame | ⟨b, he, hj, hb⟩ | ⟨pos, p, _, _, _, hzero⟩
  · rw [hsame]
    exact (h.bounded j).imp_right fun ⟨p, hp, hslot, hlt⟩ => ⟨p, hp, hslot, by omega⟩
  · obtain ⟨_, _, _, hroom⟩ := h.writing_at hx he
    exact .inr ⟨b, hb, hj.symm, by omega⟩
  · exact .inl hzero

omit [DecidableEq Tid] in
theorem step_newest {j : ℕ} {n : Node α} (hn : (step r choice s x).1.cells.data j = some n) :
    (step r choice s x).1.cells.round j ≤ n.pos + 1 := by
  rcases step_round (r := r) (s := s) (x := x) choice j with
    hsame | ⟨b, he, hj, hb⟩ | ⟨pos, p, _, _, _, hzero⟩
  · rw [hsame]
    rcases step_data hn with hold | ⟨item, b, he, hj, hpos⟩
    · exact h.newest j n hold
    · -- no position of this cell above `b` has been pushed to
      obtain ⟨_, _, hle, _⟩ := h.storing_at hx he
      rcases h.bounded j with hzero | ⟨p, hp, hslot, hlt⟩
      · omega
      · by_contra hgt
        have heq : b = p := r.slot_inj (hj.symm.trans hslot.symm) (by omega) (by omega)
        omega
  · subst he
    rcases step_data hn with hold | ⟨item, _, he', _⟩
    · obtain ⟨rfl, _⟩ := h.writing_at hx rfl
      rw [hb, h.storing b n hx (hj ▸ hold)]
    · cases he'
  · omega

theorem step_seen {u : Tid} {p : ℕ} {n : Node α}
    (hu : Function.update l t (some (step r choice s x).2) u = some (.stealClaim p))
    (hn : (step r choice s x).1.cells.data (r.slot p) = some n) : p ≤ n.pos := by
  rcases step_data hn with hold | ⟨item, b, he, hj, hpos⟩
  · rcases update_eq_some hu with ⟨_, ho⟩ | ⟨_, hu⟩
    · have hround := step_stealClaim (Option.some.inj ho)
      have hnew := h.newest _ n hold
      omega
    · exact h.seen u p n hu hold
  · obtain ⟨_, _, hle, _⟩ := h.storing_at hx he
    rcases update_eq_some hu with ⟨_, ho⟩ | ⟨_, hu⟩
    · subst he
      cases ho
    · have hth : p ≤ s.top := (h.inv.thief u _ hu).1
      omega

/-- The claims of the owner survive, or their cell is empty, or `top_` is not above them. -/
theorem owner_claims {p : ℕ} (hp : ∃ x, l owner = some x ∧ x.claims = some p) :
    (∃ y, Function.update l t (some (step r choice s x).2) owner = some y ∧ y.claims = some p) ∨
      t = owner ∧ x.claims = some p ∧ ((step r choice s x).1.cells.data (r.slot p) = none ∨
        s.top ≤ p) := by
  obtain ⟨z, hz, hp⟩ := hp
  by_cases ht : owner = t
  · subst ht
    rw [hx] at hz
    obtain rfl := Option.some.inj hz
    rcases step_claims (r := r) (s := s) choice hp with hkeep | hnone | rfl
    · exact .inl ⟨_, Function.update_self .., hkeep⟩
    · exact .inr ⟨rfl, hp, .inl hnone⟩
    · obtain ⟨hb, _⟩ := h.inv.phase_at hx
      have htop : s.top ≤ s.bottom := (h.inv.range_at hx).1
      exact .inr ⟨rfl, hp, .inr (hb ▸ htop)⟩
  · exact .inl ⟨z, by rw [Function.update_of_ne ht, hz], hp⟩

theorem step_passed {j : ℕ} {n : Node α} (hn : (step r choice s x).1.cells.data j = some n) :
    (step r choice s x).1.top ≤ n.pos + r.size ∨
      ∃ y, Function.update l t (some (step r choice s x).2) owner = some y ∧
        y.claims = some (n.pos + r.size) := by
  rcases step_data hn with hold | ⟨item, b, he, hj, hpos⟩
  · have hslot := (h.inv.placed j n hold).1
    have hsize := r.size_pos
    rcases step_top (r := r) (s := s) (x := x) choice with hsame | ⟨hup, hclaim⟩
    · rw [hsame]
      rcases h.passed j n hold with hle | hc
      · exact .inl hle
      · rcases h.owner_claims hx choice hc with hkeep | ⟨_, _, hnone | hle⟩
        · exact .inr hkeep
        · rw [r.slot_add_size, hslot, hn] at hnone
          cases hnone
        · exact .inl hle
    · have hno : x.claims = none := by
        rcases hclaim with rfl | ⟨b, rfl, _⟩ <;> rfl
      rcases h.passed j n hold with hle | hc
      · by_cases heq : s.top = n.pos + r.size
        · -- the claimed position is one ring above the node: the owner takes the node first
          rcases hclaim with rfl | ⟨b, rfl, hy⟩
          · have hseen := h.seen t s.top n hx (by rw [heq, r.slot_add_size, hslot]; exact hold)
            omega
          · obtain rfl := h.inv.only t _ hx rfl
            obtain ⟨hb, _⟩ := h.inv.phase_at hx
            refine .inr ⟨_, Function.update_self .., ?_⟩
            rw [hy, ← heq, hb]
            rfl
        · exact .inl (by omega)
      · rcases h.owner_claims hx choice hc with hkeep | ⟨_, hc, _⟩
        · exact .inr hkeep
        · rw [hno] at hc
          cases hc
  · obtain ⟨_, _, hle, _⟩ := h.storing_at hx he
    subst he
    exact .inl (show s.top ≤ n.pos + r.size by omega)

theorem step_storing {b : ℕ} {n : Node α}
    (hu : Function.update l t (some (step r choice s x).2) owner = some (.pushStoreRound b))
    (hn : (step r choice s x).1.cells.data (r.slot b) = some n) : n.pos = b := by
  rcases update_eq_some hu with ⟨rfl, ho⟩ | ⟨hne, hu⟩
  · obtain ⟨item, rfl⟩ := step_pushStoreRound (Option.some.inj ho)
    obtain ⟨_, _, hnone⟩ := h.inv.phase_at hx
    rcases step_data hn with hold | ⟨item', c, he, _, hpos⟩
    · rw [hnone] at hold
      cases hold
    · cases he
      exact hpos
  · rcases step_data hn with hold | ⟨item, c, he, _⟩
    · exact h.storing b n hu hold
    · exact absurd (h.storing_at hx he).1.symm hne

/-- Another thief cannot claim a position that `top_` has left. -/
theorem step_apart {u v : Tid} {p : ℕ} (hu : u ≠ owner) (hv : v ≠ owner)
    (hlu : Function.update l t (some (step r choice s x).2) u = some (.exchange p))
    (hlv : Function.update l t (some (step r choice s x).2) v = some (.exchange p)) : u = v := by
  have hclaim : ∀ w, w ≠ owner → l w = some (.exchange p) → p < s.top := by
    intro w hw hl
    rcases h.inv.claimed w _ p hl rfl with hlt | ⟨he, _⟩
    · exact hlt
    · exact absurd he hw
  have hnew : t ≠ owner → (step r choice s x).2 = .exchange p → s.top = p := by
    intro ht hy
    rcases step_exchange hy with hown | htop
    · exact absurd (h.inv.only t x hx hown) ht
    · exact htop
  rcases update_eq_some hlu with ⟨hut, hyu⟩ | ⟨hut, hlu'⟩ <;>
    rcases update_eq_some hlv with ⟨hvt, hyv⟩ | ⟨hvt, hlv'⟩
  · exact hut.trans hvt.symm
  · have htop := hnew (hut ▸ hu) (Option.some.inj hyu)
    exact absurd htop (hclaim v hv hlv').ne'
  · have htop := hnew (hvt ▸ hv) (Option.some.inj hyv)
    exact absurd htop (hclaim u hu hlu').ne'
  · exact h.apart u v p hu hv hlu' hlv'

theorem step_clearing {u : Tid} {p : ℕ} {n : Node α}
    (hu : Function.update l t (some (step r choice s x).2) u = some (.clearRound p n)) :
    p < (step r choice s x).1.top ∨ u = owner ∧ p = limit (step r choice s x).1.bottom
      (Function.update l t (some (step r choice s x).2) owner) := by
  have htop : s.top ≤ (step r choice s x).1.top := top_le_step choice
  rcases update_eq_some hu with ⟨hut, ho⟩ | ⟨hut, hu'⟩
  · subst hut
    have hy := Option.some.inj ho
    obtain rfl := step_clearRound hy
    have hbottom : (step r choice s (.exchange p)).1.bottom = s.bottom := by
      simp only [step]
      split <;> rfl
    rw [hbottom, Inv.limit_update (by rw [hx]; exact Inv.neutral_of_ofOwner rfl)
      (by rw [hy]; exact Inv.neutral_of_ofOwner rfl)]
    exact (h.inv.claimed u _ p hx rfl).imp_left fun hlt => hlt.trans_le htop
  · rcases h.clearing u p n hu' with hlt | ⟨rfl, hp⟩
    · exact .inl (hlt.trans_le htop)
    · refine .inr ⟨rfl, ?_⟩
      rw [bottom_step h.inv hx (Ne.symm hut) choice, Function.update_of_ne hut]
      exact hp

include hr in
theorem step : Rounds r owner (WorkStealingDeque.step r choice s x).1
    (Function.update l t (some (WorkStealingDeque.step r choice s x).2)) where
  inv := (inv_inductive r owner).step choice h.inv hx hr trivial
  bounded := h.step_bounded hx choice
  newest _ _ := h.step_newest hx choice
  seen _ _ _ := h.step_seen hx choice
  passed _ _ := h.step_passed hx choice
  storing _ _ := h.step_storing hx choice
  apart _ _ _ := h.step_apart hx choice
  clearing _ _ _ := h.step_clearing hx choice

end Step

/-! ## A push that waits -/

omit [DecidableEq Tid] in
/-- The node in the cell of a push lies one ring below, and a thief has claimed it. -/
theorem exists_thief (h : Rounds r owner s l) {item : α} {b : ℕ} {n : Node α}
    (hx : l owner = some (.pushWait item b)) (hn : s.cells.data (r.slot b) = some n) :
    n.pos + r.size = b ∧ n.pos < s.top ∧ ∃ u, u ≠ owner ∧ l u = some (.exchange n.pos) := by
  obtain ⟨hb, hroom⟩ := h.inv.phase_at hx
  have htop : s.top ≤ s.bottom := (h.inv.range_at hx).1
  have hlim : limit s.bottom (l owner) = s.bottom := by rw [hx]; rfl
  have hpassed : s.top ≤ n.pos + r.size := by
    rcases h.passed _ n hn with hle | ⟨x, hx', hc⟩
    · exact hle
    · rw [hx] at hx'
      obtain rfl := Option.some.inj hx'
      cases hc
  obtain ⟨hslot, hplaced⟩ := h.inv.placed _ n hn
  rcases hplaced with ⟨hge, hlt⟩ | ⟨u, x, hu, hc⟩
  · have heq : n.pos = b := r.slot_inj hslot (by omega) (by omega)
    omega
  · have hne : u ≠ owner := by
      rintro rfl
      rw [hx] at hu
      obtain rfl := Option.some.inj hu
      cases hc
    have hlt : n.pos < s.top := by
      rcases h.inv.claimed u x _ hu hc with hlt | ⟨he, _⟩
      · exact hlt
      · exact absurd he hne
    have heq : n.pos + r.size = b :=
      r.slot_inj ((r.slot_add_size _).trans hslot) (by omega) (by omega)
    refine ⟨heq, hlt, u, hne, ?_⟩
    cases x with
    | exchange pos =>
      obtain rfl := Option.some.inj hc
      exact hu
    | pushStoreRound | pushStoreBottom | popWon => exact absurd (h.inv.only u _ hu rfl) hne
    | _ => cases hc

omit [DecidableEq Tid] in
theorem empty_step (h : Rounds r owner s l) {item : α} {b : ℕ}
    (howner : l owner = some (.pushWait item b)) (hx : l t = some x) (choice : Bool)
    (hnone : s.cells.data (r.slot b) = none) :
    (WorkStealingDeque.step r choice s x).1.cells.data (r.slot b) = none := by
  cases hn : (WorkStealingDeque.step r choice s x).1.cells.data (r.slot b) with
  | none => rfl
  | some n =>
    rcases step_data hn with hold | ⟨item', c, he, _⟩
    · rw [hnone] at hold
      cases hold
    · obtain ⟨rfl, _⟩ := h.storing_at hx he
      rw [hx] at howner
      subst he
      cases howner

omit [DecidableEq Tid] in
/-- What the owner pushes to lies at the end of the positions in use. -/
theorem pushes_at (h : Rounds r owner s l) {b : ℕ} (hb : (l owner).bind Local.pushes = some b) :
    b = s.bottom ∧ s.top ≤ b := by
  obtain ⟨x, hx, hb⟩ := Option.bind_eq_some_iff.mp hb
  have hph := h.inv.phase_at hx
  have hrange := (h.inv.range_at hx).1
  cases x with
  | pushWait | pushStoreData | pushStoreRound | pushStoreBottom =>
    obtain rfl := Option.some.inj hb
    exact ⟨hph.1, hph.1 ▸ hrange⟩
  | _ => cases hb

omit [DecidableEq Tid] in
theorem round_step (h : Rounds r owner s l) {b : ℕ} (hb : Unclaimed owner b ⟨s, l⟩)
    (hx : l t = some x) (choice : Bool) (hround : s.cells.round (r.slot b) = b + 1) :
    (WorkStealingDeque.step r choice s x).1.cells.round (r.slot b) = b + 1 := by
  have htop : s.top ≤ b := hb.elim (fun hp => (h.pushes_at hp).2) And.left
  rcases step_round (r := r) (s := s) (x := x) choice (r.slot b) with
    hsame | ⟨c, he, hslot, hc⟩ | ⟨pos, p, rfl, _, hpos, _⟩
  · exact hsame.trans hround
  · -- a push below the next claim of `b` is the push to `b`
    obtain ⟨rfl, hcb, hle, hroom⟩ := h.writing_at hx he
    have hlim : limit s.bottom (l t) = s.bottom := by
      rw [hx, he]
      rfl
    have hbc : b ≤ c := by
      rcases hb with hp | ⟨_, hlt⟩
      · exact ((h.pushes_at hp).1.trans hcb.symm).le
      · have hlt : b < limit s.bottom (l t) := hlt
        omega
    have heq : b = c := r.slot_inj hslot (by omega) (by omega)
    rw [hc, heq]
  · -- whoever clears the round has claimed the position
    obtain rfl : pos = b := by omega
    exfalso
    rcases h.clearing t pos p hx with hlt | ⟨rfl, hlim⟩
    · omega
    · rcases hb with hp | ⟨_, hlt⟩
      · have hp : (l t).bind Local.pushes = some pos := hp
        rw [hx] at hp
        cases hp
      · exact absurd hlim hlt.ne

end Rounds

theorem rounds_inductive [DecidableEq Tid] (r : Ring) (owner : Tid) :
    (object r).Inductive (may owner) (fun _ _ => True) (Rounds (α := α) r owner) where
  call {s l t op} h hl hmay := by
    refine h.setLocal (h.inv.call hl op hmay) (fun x hx => ?_) (by rw [hl]; exact Inv.neutral_none)
      (Inv.neutral_start op) fun y hy => ?_
    · rw [hl] at hx
      cases hx
    · obtain rfl := Option.some.inj hy
      cases op <;> simp [object, start]
  step choice h hx hr _ := h.step hx hr choice
  ret {s l t x o} h hx hr := by
    have hinv := (inv_inductive r owner).ret h.inv hx hr
    cases x with
    | done o' =>
      refine h.setLocal hinv (fun x hx' => ?_) (by rw [hx]; exact Inv.neutral_of_ofOwner rfl)
        Inv.neutral_none fun y hy => by cases hy
      rw [hx] at hx'
      obtain rfl := Option.some.inj hx'
      rfl
    | _ => cases hr

section Runs

variable [DecidableEq Tid] {r : Ring} {owner : Tid} {c c' : Config Tid (Shared α) (Local α)}
  {a : Action Tid (Op α)}

/-- Whatever somebody does while the push waits, its cell stays empty. -/
theorem Rounds.empty_next (h : Rounds r owner c.shared c.locals) {item : α} {b : ℕ}
    (howner : c.locals owner = some (.pushWait item b)) (hn : (system r owner).next c a = some c')
    (hnone : c.shared.cells.data (r.slot b) = none) :
    c'.shared.cells.data (r.slot b) = none := by
  cases a with
  | call t op =>
    obtain ⟨_, _, rfl⟩ := Object.next_call hn
    exact hnone
  | step t choice =>
    obtain ⟨x, hx, _, rfl⟩ := Object.next_step hn
    exact h.empty_step howner hx choice hnone
  | ret t =>
    obtain ⟨x, o, _, _, rfl⟩ := Object.next_ret hn
    exact hnone

/-- Until the push has written its round, it is on its way; then the round stays. -/
theorem Rounds.round_next (h : Rounds r owner c.shared c.locals) {b : ℕ} (hb : Unclaimed owner b c)
    (hn : (system r owner).next c a = some c')
    (hround : (c.locals owner).bind Local.unwritten = some b ∨
      c.shared.cells.round (r.slot b) = b + 1) :
    (c'.locals owner).bind Local.unwritten = some b ∨
      c'.shared.cells.round (r.slot b) = b + 1 := by
  -- the push stays where it is unless its thread moves
  have hstay : ∀ {t : Tid} {o : Option (Local α)}, t ≠ owner ∨
      (c.locals owner).bind Local.unwritten = none →
      (c.locals owner).bind Local.unwritten = some b →
      (Function.update c.locals t o owner).bind Local.unwritten = some b := by
    rintro t o (ht | hnone) hb
    · rw [Function.update_of_ne (Ne.symm ht), hb]
    · rw [hnone] at hb
      cases hb
  cases a with
  | call t op =>
    obtain ⟨hl, _, rfl⟩ := Object.next_call hn
    refine hround.imp_left (hstay ?_)
    by_cases ht : t = owner
    · exact .inr (by rw [← ht, hl]; rfl)
    · exact .inl ht
  | step t choice =>
    obtain ⟨x, hx, _, rfl⟩ := Object.next_step hn
    rcases hround with hw | hround
    · by_cases ht : t = owner
      · subst ht
        rw [hx] at hw
        rcases step_unwritten (r := r) (s := c.shared) choice hw with hgo | hdone
        · refine .inl ?_
          dsimp only
          rw [Function.update_self]
          exact hgo
        · exact .inr hdone
      · exact .inl (hstay (.inl ht) hw)
    · exact .inr (h.round_step hb hx choice hround)
  | ret t =>
    obtain ⟨x, o, hx, hr, rfl⟩ := Object.next_ret hn
    refine hround.imp_left (hstay ?_)
    by_cases ht : t = owner
    · refine .inr ?_
      rw [← ht, hx]
      cases x with
      | done => rfl
      | _ => cases hr
    · exact .inl ht

/-- **A push never waits on an abandoned cell.** -/
theorem awaited_of_pushWait (r : Ring) (owner : Tid)
    (h : (system r owner).Reachable (initial Tid) c) {item : α} {b : ℕ}
    (hx : c.locals owner = some (.pushWait item b))
    (hdata : c.shared.cells.data (r.slot b) ≠ none) : Awaited r owner item b c := by
  have hrounds : Rounds r owner c.shared c.locals :=
    (rounds_inductive r owner).reachable (rounds_init r owner) h
  obtain ⟨n, hn⟩ := Option.ne_none_iff_exists'.mp hdata
  obtain ⟨hpos, htop, u, hu, hexchange⟩ := hrounds.exists_thief hx hn
  constructor
  · refine ⟨u, ⟨hu, n.pos, hpos, htop, hexchange⟩, ?_⟩
    rintro v ⟨hv, pos, hpos', _, hv'⟩
    obtain rfl : pos = n.pos := by omega
    exact hrounds.apart v u n.pos hv hu hv' hexchange
  · rintro v ⟨_, pos, rfl, _, hv⟩ choice
    rw [r.slot_add_size] at hn ⊢
    have hnext : (system r owner).next c (.step v choice) =
        some ⟨(step r choice c.shared (.exchange pos)).1,
          Function.update c.locals v (some (step r choice c.shared (.exchange pos)).2)⟩ := by
      simp only [system, Object.client, hv]
      rfl
    refine ⟨_, hnext, ?_⟩
    simp only [step, hn]
    exact (congrFun (Cells.setData_data ..) _).trans (Function.update_self ..)
  · intro c₁ c₂ h₁ hnone h₂
    have hreach : (system r owner).Reachable (initial Tid) c₁ := h.trans h₁.reachable
    have hkept : Rounds r owner c₂.shared c₂.locals ∧ c₂.shared.cells.data (r.slot b) = none := by
      refine h₂.invariant (I := fun d => Rounds r owner d.shared d.locals ∧
        d.shared.cells.data (r.slot b) = none) ⟨?_, hnone⟩ ?_
      · exact (rounds_inductive r owner).reachable (rounds_init r owner) hreach
      · rintro d a d' ⟨hd, hnone⟩ hok hn
        exact ⟨(rounds_inductive r owner).next hd (by cases a <;> simp [Object.Guard]) hn,
          hd.empty_next hok hn hnone⟩
    exact hkept.2
  · intro c' h'
    have hkept : Rounds r owner c'.shared c'.locals ∧
        ((c'.locals owner).bind Local.unwritten = some b ∨
          c'.shared.cells.round (r.slot b) = b + 1) := by
      refine h'.invariant (I := fun d => Rounds r owner d.shared d.locals ∧
        ((d.locals owner).bind Local.unwritten = some b ∨
          d.shared.cells.round (r.slot b) = b + 1)) ⟨hrounds, .inl ?_⟩ ?_
      · rw [hx]
        rfl
      · rintro d a d' ⟨hd, hround⟩ hok hn
        exact ⟨(rounds_inductive r owner).next hd (by cases a <;> simp [Object.Guard]) hn,
          hd.round_next hok hn hround⟩
    exact hkept.2

/-- A thief has claimed the first element and not taken it when the owner comes around the ring. -/
def pushAround : List (Action (Fin 2) (Op ℕ)) :=
  List.flatten [[.call 0 (.push 7)], Action.steps 0 6, [.ret 0, .call 0 (.push 8)],
    Action.steps 0 6, [.ret 0, .call 1 .steal], Action.steps 1 4, [.call 0 (.push 9)],
    Action.steps 0 4]

/-- The item and the position of a push that waits. -/
def waiting : Option (Local α) → Option (α × ℕ)
  | some (.pushWait item b) => some (item, b)
  | _ => none

theorem eq_of_waiting {o : Option (Local α)} {item : α} {b : ℕ} (h : waiting o = some (item, b)) :
    o = some (.pushWait item b) := by
  unfold waiting at h
  split at h
  · cases h
    rfl
  · cases h

theorem awaited_pushAround : ∃ c : Config (Fin 2) (Shared ℕ) (Local ℕ),
    (c.shared.cells.data 0).map Node.item = some 7 ∧ Awaited Ring.two 0 9 2 c := by
  have hrun : ((system Ring.two 0).run (initial (Fin 2)) pushAround).map (fun c =>
      (waiting (c.locals 0), (c.shared.cells.data 0).map Node.item)) =
      some (some (9, 2), some 7) := by decide +kernel
  obtain ⟨c, hc, hres⟩ := Option.map_eq_some_iff.mp hrun
  obtain ⟨hwaiting, hdata⟩ := Prod.mk.inj hres
  refine ⟨c, hdata, awaited_of_pushWait Ring.two 0 (System.reachable_of_run hc)
    (eq_of_waiting hwaiting) ?_⟩
  have hslot : Ring.two.slot 2 = 0 := by decide
  rw [hslot]
  intro hnone
  rw [hnone] at hdata
  cases hdata

end Runs

end LowLatency.WorkStealingDeque
