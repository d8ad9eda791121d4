import LowLatency.WorkStealingDeque.StoreOrder

/-!
# Positions taken under x86-TSO

In every run whose steps are `Ordered` no position is taken twice for one push, and between the
owner's operations nothing is lost below `top_` (`untangled_of_ordered`). `Recorded` is the invariant
of the record: what a thief has taken is below `top_`, and what a pop has taken from the tail is not
in use, unless it was pushed to again.

Both conditions are needed: without the first a pop takes what a thief takes too
(`exists_claimed_twice`), and so it is when a pop loses its compare-exchange
(`exists_claimed_after_lost_pop`).
-/

namespace LowLatency.WorkStealingDeque

open Concurrency

variable {α Tid : Type*} [Fintype Tid]

/-! ## The record of the positions taken -/

/-- What the record says, given `top_`, the end of the positions in use, how often each position was
pushed to, and the position of a push in progress. -/
structure Recorded (top lim : ℕ) (pushes : ℕ → ℕ) (pushing : Option ℕ) (takings : List Taking) :
    Prop where
  stolen : ∀ q k, .stolen q k ∈ takings → q < top
  tail : ∀ q k, .tail q k ∈ takings →
    k < pushes q ∨ k = pushes q ∧ (q < top ∨ lim ≤ q) ∧ pushing ≠ some q
  once : ∀ q k, .tail q k ∈ takings → .stolen q k ∉ takings

namespace Recorded

variable {top top' lim lim' : ℕ} {pushes : ℕ → ℕ} {pushing pushing' : Option ℕ}
  {takings : List Taking}

theorem nil (top lim : ℕ) (pushes : ℕ → ℕ) (pushing : Option ℕ) :
    Recorded top lim pushes pushing [] where
  stolen q k h := by cases h
  tail q k h := by cases h
  once q k h := by cases h

theorem mono (h : Recorded top lim pushes pushing takings) (htop : top ≤ top') (hlim : lim' ≤ lim)
    (hpushing : ∀ q, pushing' = some q → pushing = some q) :
    Recorded top' lim' pushes pushing' takings where
  stolen q k hq := (h.stolen q k hq).trans_le htop
  tail q k hq := by
    rcases h.tail q k hq with hlt | ⟨he, hout, hne⟩
    · exact .inl hlt
    · exact .inr ⟨he, hout.imp (fun hlt => hlt.trans_le htop) hlim.trans, fun hp => hne (hpushing q hp)⟩
  once := h.once

theorem push (h : Recorded top lim pushes none takings) (b : ℕ) :
    Recorded top lim (Function.update pushes b (pushes b + 1)) (some b) takings where
  stolen := h.stolen
  tail q k hq := by
    by_cases hqb : q = b
    · subst hqb
      rw [Function.update_self]
      rcases h.tail q k hq with hlt | ⟨he, _⟩
      · exact .inl (Nat.lt_succ_of_lt hlt)
      · exact .inl (Nat.lt_succ_of_le he.le)
    · rw [Function.update_of_ne hqb]
      refine (h.tail q k hq).imp_right fun ⟨he, hout, _⟩ => ⟨he, hout, fun hp => hqb ?_⟩
      exact (Option.some.inj hp).symm
  once := h.once

theorem publish (h : Recorded top lim pushes (some lim) takings) :
    Recorded top (lim + 1) pushes none takings where
  stolen := h.stolen
  tail q k hq := by
    rcases h.tail q k hq with hlt | ⟨he, hout, hne⟩
    · exact .inl hlt
    · have hq : lim ≠ q := fun heq => hne (congrArg some heq)
      exact .inr ⟨he, hout.imp_right fun hle => by omega, by rintro ⟨⟩⟩
  once := h.once

theorem takeTail (h : Recorded top lim pushes none takings) {b : ℕ} (htop : top < b)
    (hlim : b ≤ lim) : Recorded top b pushes none (takings ++ [.tail b (pushes b)]) where
  stolen q k hq := by
    rcases List.mem_append.mp hq with hq | hq
    · exact h.stolen q k hq
    · cases List.mem_singleton.mp hq
  tail q k hq := by
    rcases List.mem_append.mp hq with hq | hq
    · exact (h.mono le_rfl hlim fun _ hp => hp).tail q k hq
    · cases List.mem_singleton.mp hq
      exact .inr ⟨rfl, .inr le_rfl, by rintro ⟨⟩⟩
  once q k hq hq' := by
    rcases List.mem_append.mp hq' with hq' | hq'
    · rcases List.mem_append.mp hq with hq | hq
      · exact h.once q k hq hq'
      · cases List.mem_singleton.mp hq
        have hlt := h.stolen b _ hq'
        omega
    · cases List.mem_singleton.mp hq'

theorem steal (h : Recorded top lim pushes pushing takings) (hlt : top < lim)  :
    Recorded (top + 1) lim pushes pushing (takings ++ [.stolen top (pushes top)]) where
  stolen q k hq := by
    rcases List.mem_append.mp hq with hq | hq
    · exact Nat.lt_succ_of_lt (h.stolen q k hq)
    · cases List.mem_singleton.mp hq
      exact Nat.lt_succ_self _
  tail q k hq := by
    rcases List.mem_append.mp hq with hq | hq
    · exact (h.mono (Nat.le_succ _) le_rfl fun _ hp => hp).tail q k hq
    · cases List.mem_singleton.mp hq
  once q k hq hq' := by
    rcases List.mem_append.mp hq with hq | hq
    · rcases List.mem_append.mp hq' with hq' | hq'
      · exact h.once q k hq hq'
      · cases List.mem_singleton.mp hq'
        rcases h.tail top _ hq with hk | ⟨_, hout, _⟩ <;> omega
    · cases List.mem_singleton.mp hq

end Recorded

/-- The position of a push whose node is stored. -/
def Local.pushing : Local α → Option ℕ
  | .pushStoreRound b | .pushStoreBottom b => some b
  | _ => none

section Record

variable {r : Ring} {owner t : Tid} {s m : Shared α} {l : Tid → Option (Local α)} {x : Local α}
  {takings : List Taking}

omit [Fintype Tid] in
theorem pushesAt_push (s : Shared α) (c : Cells α) (b : ℕ) (p : Node α) (hp : p.pos = b) :
    pushesAt { s with cells := c, pushed := s.pushed ++ [p] } =
      Function.update (pushesAt s) b (pushesAt s b + 1) := by
  funext q
  by_cases hq : q = b
  · subst hq
    rw [Function.update_self]
    simp [pushesAt, hp]
  · rw [Function.update_of_ne hq]
    simp [pushesAt, hp, Ne.symm hq]

theorem Recorded.step_owner (h : Exact r owner s l) (hx : l owner = some x) (hr : result x = none)
    (hok : NoLostClaim s x)
    (hrec : Recorded s.top (limit s.bottom (some x)) (pushesAt s) x.pushing takings) :
    Recorded (step r false s x).1.top
      (limit (step r false s x).1.bottom (some (step r false s x).2))
      (pushesAt (step r false s x).1) (step r false s x).2.pushing
      (takings ++ (takes s s x).toList) := by
  have hph := h.inv.phase_at hx
  have hrange := h.inv.range_at hx
  have hth := h.inv.thief owner x hx
  have hlim : limit s.bottom (l owner) = limit s.bottom (some x) := by rw [hx]
  have hnil : takings ++ [] = takings := List.append_nil _
  cases x with
  | pushLoadTop | pushWait | popLoadBottom | stealLoadBottom | stealLoadRound | exchange =>
    simp only [step, takes, Option.toList_none, hnil]
    split <;> exact hrec
  | pushStoreData item b =>
    have hb : b = s.bottom := hph.1
    simp only [step, takes, Option.toList_none, hnil]
    rw [pushesAt_push s _ b _ rfl]
    exact hrec.push b
  | pushStoreBottom b =>
    have hb : b = s.bottom := hph.1
    subst hb
    simp only [step, takes, Option.toList_none, hnil]
    exact hrec.publish
  | popStoreBottom b =>
    have hb : s.bottom = b + 1 := hph
    simp only [step, takes, Option.toList_none, hnil]
    exact hrec.mono le_rfl hb.ge fun _ hq => hq
  | popLoadTop b =>
    have hle : s.top ≤ b + 1 := hrange.1
    have hb : b = s.bottom := hph
    by_cases hlt : s.top < b
    · simp only [step, takes, if_neg (Nat.not_lt.mpr hlt.le), if_pos hlt, Option.toList_some]
      show Recorded s.top s.bottom _ none _
      rw [← hb]
      exact hrec.takeTail hlt (Nat.le_succ b)
    · simp only [step, takes, if_neg hlt, Option.toList_none, hnil]
      split
      next hlt' => exact hrec.mono le_rfl hle fun _ hq => hq
      next => exact hrec
  | popClaim b t =>
    obtain ⟨hbt, hb, hge⟩ : b = t ∧ b = s.bottom ∧ b ≤ s.top := hph
    have htop : s.top = t := hok
    simp only [step, if_pos htop, takes, Option.toList_none, hnil]
    refine hrec.mono (by show s.top ≤ t + 1; omega) ?_ fun _ hq => hq
    show t + 1 ≤ b + 1
    omega
  | popLost t => exact absurd hx (h.notLost t)
  | stealClaim pos =>
    by_cases htop : s.top = pos
    · have hlt : pos < limit s.bottom (l owner) := hth.2 htop.symm
      rw [hlim] at hlt
      simp only [step, takes, if_pos htop, Option.toList_some]
      subst htop
      exact hrec.steal hlt
    · simp only [step, takes, if_neg htop, Option.toList_none, hnil]
      exact hrec
  | done o => cases hr
  | _ =>
    simp only [takes, Option.toList_none, hnil]
    exact hrec

/-- The record of a configuration. -/
def RecordedAt (r : Ring) (owner : Tid) (m : Shared α) (p : Tid → List (Store α))
    (l : Tid → Option (Local α)) (takings : List Taking) : Prop :=
  Recorded m.top (limit ((program r).view m (p owner)).bottom (l owner))
    (pushesAt ((program r).view m (p owner))) ((l owner).bind Local.pushing) takings

omit [Fintype Tid] in
theorem RecordedAt.stay [DecidableEq Tid] {p : Tid → List (Store α)}
    (h : RecordedAt r owner m p l takings) (ht : t ≠ owner) {m' : Shared α} {o : Option (Local α)}
    (htop : m'.top = m.top) (hbottom : m'.bottom = m.bottom) (hpushed : m'.pushed = m.pushed) :
    RecordedAt r owner m' p (Function.update l t o) takings := by
  unfold RecordedAt pushesAt at h ⊢
  rw [Function.update_of_ne (Ne.symm ht), htop, view_bottom hbottom, view_pushed hpushed]
  exact h

omit [Fintype Tid] in
/-- A position without a pending store has been pushed to as often as the owner sees. -/
theorem view_pushesAt {pos : ℕ} {buf : List (Store α)}
    (h : ∀ st b, st ∈ buf → st.cell = some b → b ≠ pos) :
    pushesAt ((program r).view m buf) pos = pushesAt m pos := by
  induction buf generalizing m with
  | nil => rfl
  | cons st buf ih =>
    rw [Program.view_cons, ih fun st' b hst => h st' b (List.mem_cons_of_mem _ hst)]
    cases st with
    | data b id item =>
      have hb := h _ b List.mem_cons_self rfl
      show pushesAt { m with cells := _, pushed := m.pushed ++ [_] } pos = _
      rw [pushesAt_push m _ b _ rfl, Function.update_of_ne hb.symm]
    | round | bottom => rfl

end Record

section Runs

variable [DecidableEq Tid] {r : Ring} {owner t : Tid} {m : Shared α} {p : Tid → List (Store α)}
  {l : Tid → Option (Local α)} {x : Local α} {takings : List Taking}

theorem RecordedAt.thief_locked (hrec : RecordedAt r owner m p l takings)
    (h : Buffered r owner m p l) (ht : t ≠ owner) (hx : l t = some x)
    {f : Shared α → Shared α × Local α} (hi : instr r x = .locked f) :
    RecordedAt r owner (f m).1 p (Function.update l t (some (f m).2))
      (takings ++ (takes m m x).toList) := by
  have honly := h.exact.inv.only t x hx
  have hnil : takings ++ [] = takings := List.append_nil _
  cases x with
  | stealClaim pos =>
    cases hi
    beta_reduce
    by_cases htop : m.top = pos
    · simp only [takes, if_pos htop, Option.toList_some]
      have hlt := h.lt_limit hx rfl htop.symm
      have hpushes : pushesAt ((program r).view m (p owner)) pos = pushesAt m pos :=
        view_pushesAt fun st b hst hb => (h.unpublished t _ pos ht hx rfl htop.symm st b hst hb).ne'
      unfold RecordedAt
      rw [Function.update_of_ne (Ne.symm ht), view_setTop, ← hpushes]
      subst htop
      exact hrec.steal hlt
    · simp only [takes, if_neg htop, Option.toList_none, hnil]
      exact hrec.stay ht rfl rfl rfl
  | exchange pos =>
    cases hi
    simp only [takes, Option.toList_none, hnil]
    split <;> exact hrec.stay ht rfl rfl rfl
  | clearRound | finish =>
    cases hi
    simp only [takes, Option.toList_none, hnil]
    exact hrec.stay ht rfl rfl rfl
  | popClaim => exact absurd (honly rfl) ht
  | _ => cases hi

/-- An instruction of the owner, whose effect on what it sees is that of the deque without buffers. -/
theorem RecordedAt.step_owner (hrec : RecordedAt r owner m p l takings) (h : Buffered r owner m p l)
    (hx : l owner = some x) (hr : result x = none) (hok : Ordered m (p owner) x)
    {m' : Shared α} {p' : Tid → List (Store α)} {y : Local α}
    (hstep : step r false ((program r).view m (p owner)) x = ((program r).view m' (p' owner), y))
    (htakes : takes m ((program r).view m (p owner)) x =
      takes ((program r).view m (p owner)) ((program r).view m (p owner)) x) :
    RecordedAt r owner m' p' (Function.update l owner (some y))
      (takings ++ (takes m ((program r).view m (p owner)) x).toList) := by
  have hclaim : NoLostClaim ((program r).view m (p owner)) x := by
    cases x with
    | popClaim b t => exact (view_top _ _).trans hok.2
    | _ => trivial
  unfold RecordedAt at hrec
  rw [hx, ← view_top (r := r) m (p owner)] at hrec
  have hnext := hrec.step_owner h.exact hx hr hclaim
  rw [hstep, view_top] at hnext
  unfold RecordedAt
  rw [Function.update_self, htakes]
  exact hnext

omit [Fintype Tid] [DecidableEq Tid] in
theorem takes_view {buf : List (Store α)} (h : buf = [] ∨ ∀ pos, x ≠ .stealClaim pos) :
    takes m ((program r).view m buf) x =
      takes ((program r).view m buf) ((program r).view m buf) x := by
  cases x with
  | popLoadTop b => simp only [takes, view_top]
  | stealClaim pos =>
    rcases h with rfl | hne
    · rfl
    · exact absurd rfl (hne pos)
  | _ => rfl

theorem RecordedAt.next {c c' : Program.Config Tid (Shared α) (Store α) (Local α)}
    (hrec : RecordedAt r owner c.mem c.pending c.locals takings)
    (h : Buffered r owner c.mem c.pending c.locals) {a : Program.Action Tid (Op α)}
    (hok : Program.Guard Ordered c a) (hn : ((program r).client (may owner)).next c a = some c') :
    RecordedAt r owner c'.mem c'.pending c'.locals (takings ++ (taking r c a).toList) := by
  have hnil : takings ++ [] = takings := List.append_nil _
  cases a with
  | call t op =>
    obtain ⟨hl, -, rfl⟩ := Program.next_call hn
    have hlimit : ∀ b, limit b (Function.update c.locals t (some (start op)) owner) =
        limit b (c.locals owner) :=
      Inv.limit_update (by rw [hl]; exact Inv.neutral_none) (Inv.neutral_start op)
    simp only [taking, Option.toList_none, hnil]
    refine hrec.mono le_rfl (hlimit _).le fun q hq => ?_
    by_cases ht : owner = t
    · subst ht
      rw [Function.update_self] at hq
      cases op <;> cases hq
    · rwa [Function.update_of_ne ht] at hq
  | flush t =>
    obtain ⟨st, buf, hp, rfl⟩ := Program.next_flush hn
    simp only [taking, Option.toList_none, hnil]
    have ht : t = owner := by
      by_contra ht
      rw [h.buffers t ht] at hp
      cases hp
    subst ht
    have hview : (program r).view (Store.apply r c.mem st) (Function.update c.pending t buf t) =
        (program r).view c.mem (c.pending t) := by
      rw [Function.update_self, hp, Program.view_cons]
      rfl
    have htop : (Store.apply r c.mem st).top = c.mem.top := by cases st <;> rfl
    unfold RecordedAt
    rw [show (program r).apply = Store.apply r from rfl, hview, htop]
    exact hrec
  | ret t =>
    obtain ⟨x, o, hx, hr, rfl⟩ := Program.next_ret hn
    simp only [taking, Option.toList_none, hnil]
    have hlimit : ∀ b, limit b (Function.update c.locals t none owner) =
        limit b (c.locals owner) := by
      cases x with
      | done o' =>
        exact Inv.limit_update (by rw [hx]; exact Inv.neutral_of_ofOwner rfl) Inv.neutral_none
      | _ => cases hr
    refine hrec.mono le_rfl (hlimit _).le fun q hq => ?_
    by_cases ht : owner = t
    · subst ht
      rw [Function.update_self] at hq
      cases hq
    · rwa [Function.update_of_ne ht] at hq
  | step t =>
    obtain ⟨x, hx, hr, hcase⟩ := Program.next_step hn
    have hok : Ordered c.mem (c.pending t) x := hok x hx
    simp only [taking, hx, Option.bind_some]
    by_cases ht : t = owner
    · subst ht
      rcases hcase with ⟨f, hi, rfl⟩ | ⟨f, hi, rfl⟩ | ⟨f, hi, hp, rfl⟩
      · refine hrec.step_owner h hx hr hok (step_load hi _) (takes_view (.inr ?_))
        rintro pos rfl
        cases hi
      · refine hrec.step_owner h hx hr hok ?_ (takes_view (.inr ?_))
        · dsimp only
          rw [step_store hi, Function.update_self, Program.view_concat]
          rfl
        · rintro pos rfl
          cases hi
      · refine hrec.step_owner h hx hr hok ?_ (takes_view (.inl hp))
        rw [hp, Program.view_nil, Program.view_nil, step_locked hi]
    · have honly := h.exact.inv.only t x hx
      rcases hcase with ⟨f, hi, rfl⟩ | ⟨f, hi, rfl⟩ | ⟨f, hi, hp, rfl⟩
      · have hnone : takes c.mem ((program r).view c.mem (c.pending t)) x = none := by
          cases x with
          | popLoadTop => exact absurd (honly rfl) ht
          | stealClaim => cases hi
          | _ => rfl
        rw [hnone, Option.toList_none, hnil]
        exact hrec.stay ht rfl rfl rfl
      · cases x with
        | pushStoreData | pushStoreRound | pushStoreBottom | popStoreBottom | popRestore | popLost
        | popWon => exact absurd (honly rfl) ht
        | _ => cases hi
      · rw [hp, Program.view_nil]
        exact hrec.thief_locked h ht hx hi

/-- **No position is taken twice, and nothing is lost below `top_`**, in every run whose positions fit,
in which a pop that takes the tail has its store to `bottom_` in memory before it loads `top_`, and no
pop loses its compare-exchange. -/
theorem untangled_of_ordered (r : Ring) (owner : Tid)
    {c : Program.Config Tid (Shared α) (Store α) (Local α)} {takings : List Taking}
    (h : (buffered r owner).ReachWithin (fun s => Fits r owner s.1)
      (fun s a => Program.Guard Ordered s.1 a) (bufferedInitial α Tid) (c, takings)) :
    Untangled owner c takings := by
  obtain ⟨hbuffered, hrec⟩ : Buffered r owner c.mem c.pending c.locals ∧
      RecordedAt r owner c.mem c.pending c.locals takings := by
    refine System.Reach.invariant (I := fun s => Buffered r owner s.1.mem s.1.pending s.1.locals ∧
      RecordedAt r owner s.1.mem s.1.pending s.1.locals s.2) h.reach ?_ ?_
    · exact ⟨buffered_init r owner, .nil ..⟩
    · rintro s a s' ⟨hb, hr⟩ hok hn
      obtain ⟨hnext, htakings⟩ := System.next_record hn
      rw [htakings]
      exact ⟨(buffered_inductive r owner).next hb hok hnext, hr.next hb hok hnext⟩
  refine ⟨hrec.once, fun hidle hempty => ?_⟩
  have hinv := hbuffered.exact.inv
  rw [hempty, Program.view_nil] at hinv
  have hlimit : limit c.mem.bottom (c.locals owner) = c.mem.bottom := by
    cases hl : c.locals owner with
    | none => rfl
    | some x =>
      obtain ⟨o, rfl⟩ := hidle x hl
      rfl
  have htop := hinv.top_le
  rw [hlimit] at htop
  refine ⟨htop, fun j n hn => ?_⟩
  rcases (hinv.placed j n hn).2 with ⟨hge, -⟩ | ⟨u, x, hu, hx⟩
  · exact .inl hge
  · refine .inr ⟨u, ?_⟩
    cases x with
    | exchange pos =>
      cases hx
      exact hu
    | pushStoreRound | pushStoreBottom | popWon =>
      -- only the owner could be here, and it is idle
      have howner := hinv.only u _ hu rfl
      subst howner
      obtain ⟨o, ho⟩ := hidle _ hu
      cases ho
    | _ => cases hx

end Runs

/-! ## Runs -/

section Schedules

open Program.Action

/-- Thread 0 pushes, and its stores reach memory. -/
def pushed {n : ℕ} [NeZero n] (item : ℕ) : List (Program.Action (Fin n) (Op ℕ)) :=
  List.flatten [[.call 0 (.push item)], steps 0 6, [.ret 0, .flush 0, .flush 0, .flush 0]]

/-- Thread 0 begins to pop and loads `top_` when its store to `bottom_` has reached memory. -/
def popLoaded {n : ℕ} [NeZero n] : List (Program.Action (Fin n) (Op ℕ)) :=
  List.flatten [[.call 0 .pop], steps 0 2, [.flush 0, .step 0]]

/-- Two elements; the owner pops the second and a thief steals the first. -/
def popThenSteal : List (Program.Action (Fin 2) (Op ℕ)) :=
  List.flatten [pushed 7, pushed 8, popLoaded, steps 0 3, [.ret 0, .call 1 .steal], steps 1 7,
    [.ret 1]]

theorem untangled_popThenSteal :
    ∃ c : Program.Config (Fin 2) (Shared ℕ) (Store ℕ) (Local ℕ),
      (buffered Ring.two 0).ReachWithin (fun s => Fits Ring.two 0 s.1)
        (fun s a => Program.Guard Ordered s.1 a) (bufferedInitial ℕ (Fin 2))
        (c, [.tail 1 1, .stolen 0 1]) ∧
      Untangled 0 c [.tail 1 1, .stolen 0 1] := by
  have hrun : ((buffered Ring.two 0).runWhile
      (fun s a => Fits Ring.two 0 s.1 ∧ Program.Guard Ordered s.1 a)
      (bufferedInitial ℕ (Fin 2)) popThenSteal).map
        (fun s => (s.2, decide (Fits Ring.two 0 s.1))) =
        some ([.tail 1 1, .stolen 0 1], true) := by decide +kernel
  obtain ⟨⟨c, takings⟩, hc, hres⟩ := Option.map_eq_some_iff.mp hrun
  obtain ⟨rfl, hfits⟩ := Prod.mk.inj hres
  have hreach : (buffered Ring.two 0).ReachWithin (fun s => Fits Ring.two 0 s.1)
      (fun s a => Program.Guard Ordered s.1 a) (bufferedInitial ℕ (Fin 2))
      (c, [.tail 1 1, .stolen 0 1]) :=
    ⟨System.reach_of_runWhile hc, of_decide_eq_true hfits⟩
  exact ⟨c, hreach, untangled_of_ordered Ring.two 0 hreach⟩

/-- The pop of the second element loads `top_` before its store to `bottom_` reaches memory; a thief
steals both elements before it does. -/
def popBeforeStore : List (Program.Action (Fin 2) (Op ℕ)) :=
  List.flatten [pushed 7, pushed 8, [.call 0 .pop], steps 0 3, [.call 1 .steal], steps 1 7,
    [.ret 1, .call 1 .steal], steps 1 7, [.ret 1, .flush 0, .step 0, .ret 0]]

/-- Without a fence a pop takes a position that a thief takes as well. -/
theorem exists_claimed_twice :
    ∃ (c : Program.Config (Fin 2) (Shared ℕ) (Store ℕ) (Local ℕ)) (takings : List Taking),
      (buffered Ring.two 0).Reachable (bufferedInitial ℕ (Fin 2)) (c, takings) ∧
      ¬ Untangled 0 c takings := by
  have hrun : ((buffered Ring.two 0).run (bufferedInitial ℕ (Fin 2)) popBeforeStore).map
      (fun s => (s.2, s.1.mem.top, s.1.mem.bottom)) =
        some ([.tail 1 1, .stolen 0 1, .stolen 1 1], 2, 1) := by decide +kernel
  obtain ⟨⟨c, takings⟩, hc, hres⟩ := Option.map_eq_some_iff.mp hrun
  obtain ⟨rfl, -⟩ := Prod.mk.inj hres
  exact ⟨c, _, System.reachable_of_run hc, fun h => h.once 1 1 (by decide) (by decide)⟩

/-- A pop that loses its compare-exchange leaves a position without an element. The next pop takes
from its cell the node of a slow thief, which in turn takes the node of a later push; the position of
that push is then taken by a pop, put back into the range by another pop that loses, and stolen. -/
def lostPopTwice : List (Program.Action (Fin 3) (Op ℕ)) :=
  List.flatten [pushed 10, [.call 2 .steal], steps 2 4, pushed 11,
    [.call 1 .steal], steps 1 3, popLoaded, steps 1 4, [.ret 1], steps 0 2, [.ret 0, .flush 0],
    popLoaded, steps 0 2, [.flush 0], steps 0 3, [.ret 0], pushed 13, pushed 14,
    steps 2 3, [.ret 2], popLoaded, [.step 0, .ret 0],
    [.call 1 .steal], steps 1 3, popLoaded, steps 1 4, [.ret 1], steps 0 2, [.ret 0, .flush 0],
    [.call 2 .steal], steps 2 4]

theorem exists_claimed_after_lost_pop :
    ∃ (c : Program.Config (Fin 3) (Shared ℕ) (Store ℕ) (Local ℕ)) (takings : List Taking),
      (buffered Ring.two 0).Reach (fun s a => Program.Guard StoreFirst s.1 a)
        (bufferedInitial ℕ (Fin 3)) (c, takings) ∧ ¬ Untangled 0 c takings := by
  have hrun : ((buffered Ring.two 0).runWhile (fun s a => Program.Guard StoreFirst s.1 a)
      (bufferedInitial ℕ (Fin 3)) lostPopTwice).map Prod.snd =
        some [.stolen 0 1, .stolen 1 1, .tail 4 1, .stolen 3 1, .stolen 4 1] := by decide +kernel
  obtain ⟨⟨c, takings⟩, hc, rfl⟩ := Option.map_eq_some_iff.mp hrun
  exact ⟨c, _, System.reach_of_runWhile hc, fun h => h.once 4 1 (by decide) (by decide)⟩

end Schedules

end LowLatency.WorkStealingDeque
