import LowLatency.WorkStealingQueue.Window

/-!
# No element is stranded

In every run in which no position is taken twice, an element that was pushed and not returned lies
between `top` and `bottom_` whenever the owner is between operations and no steal is in flight, and
can be obtained at either end (`unstranded_of_noDoubleTake`). When the tail branch of `pop` and a
thief take the same position, `top` passes `bottom_` for good, and the next element is pushed at a
position behind `top`, where nobody looks (`exists_stranded`).
-/

namespace LowLatency.WorkStealingQueue

open Concurrency

variable {α Tid : Type*}

/-- The operation steals. -/
def Kind.steals : Kind α → Bool
  | .empty => false
  | _ => true

namespace Local

/-- A steal is in flight. -/
def steals : Local α → Bool
  | .enterLoadGate k | .enterAdd k | .enterRecheck k | .enterSub k | .loadTop k | .loadArray k _
  | .loadRound k _ _ => k.steals
  | .claim _ _ _ | .exchange _ _ _ | .clearRound _ _ _ _ | .finish _ _ => true
  | .exit (.isEmpty _) => false
  | .exit _ => true
  | _ => false

theorem marked_of_busy {x : Local α} (ho : x.ofOwner = false) (hs : x.steals = false) :
    x.marked = false := by
  cases x <;> first | rfl | (cases hs; done) | cases ho

theorem held_of_busy {x : Local α} (ho : x.ofOwner = false) (hs : x.steals = false) :
    x.held = 0 := by
  cases x <;> first | rfl | (cases hs; done) | cases ho

end Local

/-- The owner is between operations and no steal is in flight. -/
structure Resting (owner : Tid) (l : Tid → Option (Local α)) : Prop where
  owner : l owner = none
  others : ∀ t x, l t = some x → x.steals = false

/-- The nodes at the positions from `top` to `bottom_` of the current array. -/
def stored (s : Shared α) : List (Node α) :=
  (List.range' s.top (s.bottom - s.top)).filterMap (s.dataAt s.current)

/-- What the owner can rely on when it is between operations and no steal is in flight. -/
structure AtRest (s : Shared α) : Prop where
  top_le : s.top ≤ s.bottom
  /-- What was pushed and not yet returned sits at the positions from `top` to `bottom_`. -/
  kept : (s.deleted ++ stored s).Perm s.pushed
  pops : s.top < s.bottom → ∃ s' y, object.Returns s (start .pop) s' (.popped (some y))
  steals : s.top < s.bottom → ∃ s' y, object.Returns s (start .steal) s' (.stolen (some y))
  /-- A push finds its slot empty, or grows once nobody is registered at the gate. -/
  slot_empty : s.bottom < s.top + (s.cap s.current).size → s.dataAt s.current s.bottom = none
  pushes : s.active = 0 → ∀ item, ∃ s', object.Returns s (start (.push item)) s' .pushed

/-- No element is stranded. -/
structure Unstranded (owner : Tid) (c : Config Tid (Shared α) (Local α)) : Prop where
  atRest : Resting owner c.locals → AtRest c.shared
  /-- A push waits for a thief that has claimed the element in its slot and is about to take it. -/
  waits : ∀ item, c.locals owner = some (.pushWait item) →
    c.shared.dataAt c.shared.current c.shared.bottom ≠ none →
      ∃ u k t, c.locals u = some (.exchange k t c.shared.current) ∧
        (c.shared.cap c.shared.current).slot t = (c.shared.cap c.shared.current).slot c.shared.bottom

namespace Exact

variable [Fintype Tid] {owner : Tid} {s : Shared α} {l : Tid → Option (Local α)}

/-! ## The queue at rest -/

theorem busy_of_resting (h : Exact owner s l) (hrest : Resting owner l) {u : Tid} {x : Local α}
    (hu : l u = some x) : x.ofOwner = false ∧ x.steals = false := by
  refine ⟨?_, hrest.others u x hu⟩
  cases ho : x.ofOwner with
  | false => rfl
  | true =>
    obtain rfl := h.inv.only u x hu ho
    rw [hrest.owner] at hu
    cases hu

theorem no_claims_of_resting (h : Exact owner s l) (hrest : Resting owner l) :
    ∀ u x, l u = some x → x.claims = none := by
  intro u x hu
  obtain ⟨ho, hs⟩ := h.busy_of_resting hrest hu
  cases hc : x.claims with
  | none => rfl
  | some p =>
    have hm := Local.marked_of_busy ho hs
    rw [marked_of_claims hc] at hm
    cases hm

/-- A node in the slot of the bottom position has been claimed. -/
theorem claimed_of_bottom (h : Exact owner s l) (hidle : copies (l owner) = none)
    (hlim : limit s (l owner) = s.bottom) (hroom : s.bottom < s.top + (s.cap s.current).size)
    {n : Node α} (hn : s.dataAt s.current s.bottom = some n) :
    ∃ u x, l u = some x ∧ x.claims = some n.pos ∧
      (s.cap s.current).slot n.pos = (s.cap s.current).slot s.bottom := by
  obtain ⟨hslot, ⟨hge, hlt⟩ | ⟨u, x, hu, hx⟩⟩ := h.placed hidle _ n hn
  · rw [hlim] at hlt
    have := (s.cap s.current).slot_inj hslot (by omega) (by omega)
    omega
  · exact ⟨u, x, hu, hx, hslot⟩

/-- Where nothing is claimed, the slot of the bottom position is empty. -/
theorem bottom_empty (h : Exact owner s l) (hplain : Plainly (l owner))
    (hnone : ∀ u x, l u = some x → x.claims = none)
    (hroom : s.bottom < s.top + (s.cap s.current).size) : s.dataAt s.current s.bottom = none := by
  cases hn : s.dataAt s.current s.bottom with
  | none => rfl
  | some n =>
    obtain ⟨u, x, hu, hx, _⟩ := h.claimed_of_bottom (copies_of_plainly hplain)
      (limit_of_plainly hplain) hroom hn
    rw [hnone u x hu] at hx
    cases hx

theorem holds_of_rest (h : Exact owner s l) (hrest : Resting owner l) {p : ℕ} (hge : s.top ≤ p)
    (hlt : p < s.bottom) :
    (∃ n, s.dataAt s.current p = some n ∧ n.pos = p) ∧ s.roundAt s.current p = p + 1 := by
  have hidle : copies (l owner) = none := by rw [hrest.owner]; rfl
  have hlim : p < limit s (l owner) := by rw [hrest.owner]; exact hlt
  exact ⟨(holds_of_idle hidle).mp (h.filled p hge hlim), h.rounds hidle p hge hlim hlt⟩

theorem mem_stored (h : Exact owner s l) (hrest : Resting owner l) {p : Node α} :
    p ∈ stored s ↔ p ∈ s.stock s.current := by
  unfold stored
  rw [List.mem_filterMap, Shared.mem_stock]
  constructor
  · rintro ⟨i, _, hp⟩
    exact ⟨_, (s.cap s.current).slot_lt i, hp⟩
  · rintro ⟨j, _, hp⟩
    obtain ⟨rfl, ⟨hge, hlt⟩ | ⟨u, x, hu, hx⟩⟩ := h.placed (by rw [hrest.owner]; rfl) j p hp
    · have hlt : p.pos < s.bottom := by rw [hrest.owner] at hlt; exact hlt
      exact ⟨p.pos, List.mem_range'_1.mpr ⟨hge, by omega⟩, hp⟩
    · rw [h.no_claims_of_resting hrest u x hu] at hx
      cases hx

theorem stored_nodup (h : Exact owner s l) (hrest : Resting owner l) : (stored s).Nodup := by
  have hpos : ∀ i ∈ List.range' s.top (s.bottom - s.top), ∀ p,
      s.dataAt s.current i = some p → p.pos = i := by
    intro i hi p hp
    rw [List.mem_range'_1] at hi
    obtain ⟨⟨n, hn, hni⟩, _⟩ := h.holds_of_rest hrest hi.1 (by omega)
    rw [hn, Option.some.injEq] at hp
    exact hp ▸ hni
  unfold stored
  rw [List.Nodup, List.pairwise_filterMap]
  refine List.Pairwise.imp_of_mem ?_ List.pairwise_lt_range'
  rintro i k hi hk hik p hp _ hq rfl
  have hpi := hpos i hi p hp
  have hpk := hpos k hk p hq
  omega

theorem kept (h : Exact owner s l) (hrest : Resting owner l) :
    (s.deleted ++ stored s).Perm s.pushed := by
  have hcons := h.inv.conserved
  have hhands : hands Local.held l = 0 := by
    refine hands_eq_zero_of_hand fun u => ?_
    cases hu : l u with
    | none => rfl
    | some x =>
      obtain ⟨ho, hs⟩ := h.busy_of_resting hrest hu
      exact Local.held_of_busy ho hs
  have hspare : spareStock s (l owner) = 0 := by rw [hrest.owner]; rfl
  unfold Conserved at hcons
  rw [hhands, hspare, h.leaked, Multiset.coe_nil, add_zero, add_zero, add_zero] at hcons
  have hnodup : (s.stock s.current).Nodup := by
    have hall : (s.pushed : Multiset (Node α)).Nodup := h.inv.numbered.nodup
    rw [hcons] at hall
    exact (Multiset.nodup_add.mp hall).1
  have hbag : (stored s : Multiset (Node α)) = s.stock s.current :=
    (Multiset.Nodup.ext (Multiset.coe_nodup.mpr (h.stored_nodup hrest)) hnodup).mpr
      fun p => Multiset.mem_coe.trans (h.mem_stored hrest)
  rw [← Multiset.coe_eq_coe, hcons, ← hbag, ← Multiset.coe_add]
  exact add_comm _ _

/-! ## Operations that run alone -/

theorem pop_rest (h : Exact owner s l) (hrest : Resting owner l) (hlt : s.top < s.bottom) :
    ∃ s' y, object.Returns s (start .pop) s' (.popped (some y)) := by
  obtain ⟨⟨n, hn, _⟩, _⟩ := h.holds_of_rest hrest (p := s.bottom - 1) (by omega) (by omega)
  by_cases hgt : s.top < s.bottom - 1
  · have hload : step false s .popLoadTop = (s, .popTail (s.bottom - 1)) := by
      simp only [step]
      rw [if_neg (by omega), if_pos hgt]
    have htail : step false s (.popTail (s.bottom - 1)) =
        (s.setData s.current (s.bottom - 1) none, .popTailClear (s.bottom - 1) n) := by
      simp only [step, hn]
    exact ⟨_, _, .step rfl hload (.step rfl htail (.step rfl rfl (.step rfl rfl (.done rfl))))⟩
  · have hload : step false s .popLoadTop = (s, .popClaim s.top) := by
      simp only [step]
      rw [if_neg (by omega), if_neg hgt, if_neg (by omega)]
    have hexchange : step false { s with top := s.top + 1 } (.popExchange s.top) =
        ({ ({ s with top := s.top + 1 } : Shared α).setData s.current s.top none with
            bottom := s.top + 1 }, .popClear s.top n) := by
      have hn' : ({ s with top := s.top + 1 } : Shared α).dataAt s.current s.top = some n := by
        rw [show s.bottom - 1 = s.top by omega] at hn
        exact hn
      simp only [step, hn']
    exact ⟨_, _, .step rfl hload (.step rfl (if_pos rfl) (.step rfl hexchange
      (.step rfl rfl (.step rfl rfl (.done rfl)))))⟩

/-- A steal succeeds alone when there is something to steal. -/
theorem steal_rest [DecidableEq Tid] (h : Exact owner s l) (hrest : Resting owner l)
    (hlt : s.top < s.bottom) :
    ∃ s' y, object.Returns s (start .steal) s' (.stolen (some y)) := by
  obtain ⟨⟨n, hn, _⟩, hround⟩ := h.holds_of_rest hrest (p := s.top) le_rfl hlt
  have hgate : s.gate = false := by
    by_contra hg
    obtain ⟨x, hx, _⟩ := h.inv.gate.mp (by simpa using hg)
    rw [hrest.owner] at hx
    cases hx
  set s₁ : Shared α := { s with active := s.active + 1 }
  set s₂ : Shared α := { s₁ with top := s.top + 1 }
  rw [h.inv.current] at hn hround
  have hload : step false s (.enterLoadGate .steal) = (s, .enterAdd .steal) :=
    if_neg (by rw [hgate]; simp)
  have hcheck : step false s₁ (.enterRecheck .steal) = (s₁, .loadTop .steal) :=
    if_neg (by show ¬ s.gate = true; rw [hgate]; simp)
  have hexchange : step false s₂ (.exchange .steal s.top s.array) =
      (s₂.setData s.array s.top none, .clearRound .steal s.top s.array n) := by
    have hn' : s₂.dataAt s.array s.top = some n := hn
    simp only [step, hn']
  exact ⟨_, _, .step rfl hload (.step rfl rfl (.step rfl hcheck (.step rfl rfl (.step rfl rfl
    (.step rfl (if_pos hround) (.step rfl (if_pos rfl) (.step rfl hexchange (.step rfl rfl
      (.step rfl rfl (.step rfl rfl (.done rfl)))))))))))⟩

theorem push_fast {item : α} (hroom : s.bottom < s.top + (s.cap s.current).size)
    (hnone : s.dataAt s.current s.bottom = none) :
    ∃ s', object.Returns s (.pushLoadTop item) s' .pushed :=
  ⟨_, .step rfl (if_neg (by omega)) (.step rfl (if_neg (by simp [hnone]))
    (.step rfl rfl (.step rfl rfl (.done rfl))))⟩

end Exact

/-- The owner is about to execute `x`, and no other thread has claimed a position. -/
def Solo [Fintype Tid] (owner : Tid) (s : Shared α) (x : Local α) : Prop :=
  ∃ l, Exact owner s l ∧ l owner = some x ∧ ∀ u y, u ≠ owner → l u = some y → y.claims = none

namespace Solo

variable [Fintype Tid] {owner : Tid} {s s' : Shared α} {x y : Local α} {item : α} {n t : ℕ}

theorem step [DecidableEq Tid] (h : Solo owner s x) (hown : x.ofOwner = true)
    (hok : NoDoubleTake s x) (hs : WorkStealingQueue.step false s x = (s', y)) :
    Solo owner s' y := by
  obtain ⟨l, hexact, hx, hnone⟩ := h
  have hnext := hexact.step_owner hx hown hok false
  rw [hs] at hnext
  refine ⟨_, hnext, Function.update_self .., fun u z hu hz => ?_⟩
  rw [Function.update_of_ne hu] at hz
  exact hnone u z hu hz

theorem push_again (h : Solo owner s (.pushLoadTop item))
    (hroom : s.bottom < s.top + (s.cap s.current).size) :
    ∃ s', object.Returns s (.pushLoadTop item) s' .pushed := by
  obtain ⟨l, hexact, hx, hnone⟩ := h
  refine Exact.push_fast hroom (hexact.bottom_empty (hx ▸ plainly_some rfl) ?_ hroom)
  intro u x hu
  by_cases he : u = owner
  · subst he
    rw [hx, Option.some.injEq] at hu
    exact hu ▸ rfl
  · exact hnone u x he hu

variable [DecidableEq Tid]

theorem publish_returns (h : Solo owner s (.growPublish item n t)) :
    ∃ s', object.Returns s (.growPublish item n t) s' .pushed := by
  have hdelete := h.step rfl trivial rfl
  have hopen := hdelete.step rfl trivial rfl
  have hpush := hopen.step rfl trivial rfl
  obtain ⟨l, hexact, hx, _⟩ := h
  obtain ⟨_, hc, _, _⟩ := hexact.inv.phase_at hx
  have hroom := hexact.inv.room
  obtain ⟨s', hret⟩ := hpush.push_again (by
    show s.bottom < s.top + (s.cap n).size
    have hpos := (s.cap s.current).size_pos
    rw [hc.cap_eq, Pow2.size_double]
    omega)
  exact ⟨s', .step rfl rfl (.step rfl rfl (.step rfl rfl hret))⟩

/-- The copying loop ends. The induction is on the number of positions that are left to copy. -/
theorem copy_returns (k : ℕ) : ∀ (s : Shared α) (i : ℕ), s.bottom - i = k →
    Solo owner s (copyNext s item n t i) →
      ∃ s', object.Returns s (copyNext s item n t i) s' .pushed := by
  induction k with
  | zero =>
    intro s i hk h
    have he : copyNext s item n t i = .growPublish item n t := if_neg (by omega)
    rw [he] at h ⊢
    exact h.publish_returns
  | succ k ih =>
    intro s i hk h
    have he : copyNext s item n t i = .growExchange item n t i := if_pos (by omega)
    rw [he] at h ⊢
    have hk' : s.bottom - (i + 1) = k := by omega
    set s₁ := s.setData s.current i none with hs₁
    cases hp : s.dataAt s.current i with
    | none =>
      have hstep : WorkStealingQueue.step false s (.growExchange item n t i) =
          (s₁, copyNext s₁ item n t (i + 1)) := by
        simp only [WorkStealingQueue.step, hp, hs₁]
        rfl
      obtain ⟨s', hret⟩ := ih s₁ (i + 1) hk' (h.step rfl trivial hstep)
      exact ⟨s', .step rfl hstep hret⟩
    | some p =>
      have hstep : WorkStealingQueue.step false s (.growExchange item n t i) =
          (s₁, .growStoreData item n t i p) := by
        simp only [WorkStealingQueue.step, hp, hs₁]
      have hdata := (h.step rfl trivial hstep).step rfl trivial rfl
      obtain ⟨s', hret⟩ := ih ((s₁.setData n i (some p)).setRound n i (i + 1)) (i + 1) hk'
        (hdata.step rfl trivial rfl)
      exact ⟨s', .step rfl hstep (.step rfl rfl (.step rfl rfl hret))⟩

end Solo

namespace Exact

variable [Fintype Tid] [DecidableEq Tid] {owner : Tid} {s : Shared α} {l : Tid → Option (Local α)}

omit [Fintype Tid] [DecidableEq Tid] in
theorem growAwait_quiet {item : α} {n : ℕ} (h : s.active = 0) :
    step false s (.growAwait item n) = (s, .growLoadTop item n) :=
  if_pos h

theorem push_rest (h : Exact owner s l) (hrest : Resting owner l) (hactive : s.active = 0)
    (item : α) : ∃ s', object.Returns s (start (.push item)) s' .pushed := by
  have hnone := h.no_claims_of_resting hrest
  by_cases hroom : s.bottom < s.top + (s.cap s.current).size
  · exact push_fast hroom (h.bottom_empty (hrest.owner ▸ plainly_none) hnone hroom)
  have hcall : Exact owner s (Function.update l owner (some (object.start (.push item)))) :=
    (exact_inductive owner).call h hrest.owner (decide_eq_true rfl)
  have hpush : Solo owner s (.pushLoadTop item) := by
    refine ⟨_, hcall, Function.update_self .., fun u z hu hz => ?_⟩
    rw [Function.update_of_ne hu] at hz
    exact hnone u z hz
  have hload : step false s (.pushLoadTop item) = (s, .growAlloc item) := if_pos (by omega)
  have hclose := (hpush.step rfl trivial hload).step rfl trivial rfl
  have hawait := hclose.step rfl trivial rfl
  have hcopy := (hawait.step rfl trivial (growAwait_quiet hactive)).step rfl trivial rfl
  obtain ⟨s', hret⟩ := Solo.copy_returns _ _ s.top rfl hcopy
  exact ⟨s', .step rfl hload (.step rfl rfl (.step rfl rfl
    (.step rfl (growAwait_quiet hactive) (.step rfl rfl hret))))⟩

theorem atRest (h : Exact owner s l) (hrest : Resting owner l) : AtRest s where
  top_le := by
    have htop := h.top_le
    rw [hrest.owner] at htop
    exact htop
  kept := h.kept hrest
  pops := h.pop_rest hrest
  steals := h.steal_rest hrest
  slot_empty := h.bottom_empty (hrest.owner ▸ plainly_none) (h.no_claims_of_resting hrest)
  pushes := h.push_rest hrest

theorem unstranded {c : Config Tid (Shared α) (Local α)} (h : Exact owner c.shared c.locals) :
    Unstranded owner c where
  atRest := h.atRest
  waits item hx hdata := by
    obtain ⟨n, hn⟩ := Option.ne_none_iff_exists'.mp hdata
    have hroom : c.shared.bottom < c.shared.top + (c.shared.cap c.shared.current).size :=
      h.inv.phase_at hx
    obtain ⟨u, x, hu, hxp, hslot⟩ := h.claimed_of_bottom (by rw [hx]; rfl) (by rw [hx]; rfl)
      hroom hn
    cases x with
    | exchange k t a =>
      obtain rfl : a = c.shared.current := (h.inv.arrayOf u _ a hu rfl).trans h.inv.current.symm
      obtain rfl := Option.some.inj hxp
      exact ⟨u, k, _, hu, hslot⟩
    | popExchange t =>
      obtain rfl := h.inv.only u _ hu rfl
      rw [hx] at hu
      cases hu
    | _ => cases hxp

end Exact

variable [Fintype Tid] [DecidableEq Tid]

/-- **No element is stranded.** In every run whose positions fit and in which no position is taken
twice, among fewer than `2 ^ 32` thieves. -/
theorem unstranded_of_noDoubleTake (hfew : Fintype.card Tid ≤ 2 ^ 32) (r : Ring) (owner : Tid)
    (c : Config Tid (Shared α) (Local α))
    (h : (system owner).ReachWithin (fun c => c.shared.Fits) (Object.Guard NoDoubleTake)
      (initial Tid r) c) : Unstranded owner c :=
  ((exact_inductive owner).reach (exact_init hfew owner r) h.reach).unstranded

instance (s : Shared α) (x : Local α) : Decidable (NoDoubleTake s x) := by
  unfold NoDoubleTake
  split <;> infer_instance

/-- What a test looks at: the indices, the elements pushed and deleted, and whether both threads are
done. -/
def summary (c : Config (Fin 2) (Shared ℕ) (Local ℕ)) : (ℕ × ℕ) × List ℕ × List ℕ × Bool :=
  ((c.shared.top, c.shared.bottom), c.shared.pushed.map Node.item, c.shared.deleted.map Node.item,
    (c.locals 0).isNone && (c.locals 1).isNone)

theorem resting_of_summary {c : Config (Fin 2) (Shared ℕ) (Local ℕ)}
    (h : ((c.locals 0).isNone && (c.locals 1).isNone) = true) : Resting 0 c.locals := by
  rw [Bool.and_eq_true, Option.isNone_iff_eq_none, Option.isNone_iff_eq_none] at h
  have hnone : ∀ t, c.locals t = none := Fin.forall_fin_two.mpr h
  exact ⟨h.1, fun t x hx => by rw [hnone t] at hx; cases hx⟩

/-- The third push grows while a thief takes the first element; then the owner pops. -/
def growAndPop : List (Action (Fin 2) (Op ℕ)) :=
  List.flatten [[.call 0 (.push 7)], Action.steps 0 4, [.ret 0, .call 0 (.push 8)],
    Action.steps 0 4, [.ret 0, .call 1 .steal], Action.steps 1 6, [.call 0 (.push 9)],
    Action.steps 0 3, Action.steps 1 5, [.ret 1], Action.steps 0 12, [.ret 0, .call 0 .pop],
    Action.steps 0 4, [.ret 0]]

theorem unstranded_growAndPop : ∃ c : Config (Fin 2) (Shared ℕ) (Local ℕ),
    c.shared.pushed.map Node.item = [7, 8, 9] ∧ c.shared.deleted.map Node.item = [7, 9] ∧
      Resting 0 c.locals ∧ Unstranded 0 c := by
  have hrun : ((system (0 : Fin 2)).runWhile
      (fun c a => c.shared.Fits ∧ Object.Guard NoDoubleTake c a)
      (initial (Fin 2) Ring.two) growAndPop).map summary =
        some ((1, 2), [7, 8, 9], [7, 9], true) := by decide +kernel
  obtain ⟨c, hc, hres⟩ := Option.map_eq_some_iff.mp hrun
  simp only [summary, Prod.mk.injEq] at hres
  obtain ⟨⟨htop, hbottom⟩, hpushed, hdeleted, hdone⟩ := hres
  have hfits : c.shared.Fits := by
    unfold Shared.Fits
    omega
  exact ⟨c, hpushed, hdeleted, resting_of_summary hdone,
    unstranded_of_noDoubleTake (by decide) Ring.two 0 c ⟨System.reach_of_runWhile hc, hfits⟩⟩

/-- The owner pushes 7 and 8. Its pop has loaded `top` when a thief takes 7 and finds the round of 8;
the pop takes 8 from its cell, and then the thief claims the position. The owner pushes 9. -/
def doubleTake : List (Action (Fin 2) (Op ℕ)) :=
  List.flatten [[.call 0 (.push 7)], Action.steps 0 4, [.ret 0, .call 0 (.push 8)],
    Action.steps 0 4, [.ret 0, .call 0 .pop, .step 0 false, .call 1 .steal], Action.steps 1 11,
    [.ret 1, .call 1 .steal], Action.steps 1 6, [.step 0 false], Action.steps 1 3, [.ret 1],
    Action.steps 0 2, [.ret 0, .call 0 (.push 9)], Action.steps 0 4, [.ret 0]]

/-- A run can lose an element. -/
theorem exists_stranded : ∃ c : Config (Fin 2) (Shared ℕ) (Local ℕ),
    (system (0 : Fin 2)).Reachable (initial (Fin 2) Ring.two) c ∧ Resting 0 c.locals ∧
      ¬ AtRest c.shared := by
  have hrun : ((system (0 : Fin 2)).run (initial (Fin 2) Ring.two) doubleTake).map summary =
      some ((2, 2), [7, 8, 9], [7, 8], true) := by decide +kernel
  obtain ⟨c, hc, hres⟩ := Option.map_eq_some_iff.mp hrun
  simp only [summary, Prod.mk.injEq] at hres
  obtain ⟨⟨htop, hbottom⟩, hpushed, hdeleted, hdone⟩ := hres
  refine ⟨c, System.reachable_of_run hc, resting_of_summary hdone, fun h => ?_⟩
  have hlen := h.kept.length_eq
  have hempty : stored c.shared = [] := by unfold stored; rw [htop, hbottom]; rfl
  have hp := congrArg List.length hpushed
  have hd := congrArg List.length hdeleted
  rw [List.length_map] at hp hd
  rw [hempty, List.append_nil, hp, hd] at hlen
  exact absurd hlen (by decide)

end LowLatency.WorkStealingQueue
