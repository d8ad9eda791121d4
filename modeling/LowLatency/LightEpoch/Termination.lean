import LowLatency.Concurrency.Termination
import LowLatency.LightEpoch

/-!
# Guards and windows come to an end

Under every schedule the owner gets its windows and the thieves get in, as long as the threads move
and the stores to the gate reach memory at some time. The rounds in which a thief finds the gate closed,
or the owner a thief registered, change nothing and are left out; calls and returns are left out too.

A thief that has found the gate open may register in vain, once for each store that closes the gate
(`Local.left`). Nobody is stuck: the gate is closed only on behalf of the owner (`Gated`), who waits
for thieves only that can go on.
-/

namespace LowLatency.LightEpoch

open Concurrency

variable {Tid : Type*} [DecidableEq Tid] [Fintype Tid]

/-- A thread moves, other than in a fruitless round of `enter()` or of the constructor, or a store
reaches memory: no call begins, and none returns. -/
def Moving (c : Program.Config Tid Memory Bool Local) : Program.Action Tid Op → Prop
  | .step t => (c.locals t = some .enterLoadGate → c.mem.gate = false) ∧
    (c.locals t = some .windowLoadActive → c.mem.active = 0)
  | .flush _ => True
  | _ => False

/-- Every operation has ended, and the epoch is as it was at first. -/
structure Quiet (c : Program.Config Tid Memory Bool Local) : Prop where
  ended : ∀ t x, c.locals t = some x → x = .done
  drained : ∀ t, c.pending t = []
  gate : c.mem.gate = false
  active : c.mem.active = 0

/-! ## The potential -/

/-- The instructions left to an operation while the gate in memory is as given, and the price of the
stores that it will make to the gate. -/
def Local.left (closed : Bool) (price : ℕ) : Local → ℕ
  | .done => 0
  | .exitUnregister => 1
  | .inside => 2
  | .enterRecheck => if closed then 2 else 3
  | .enterRegister => if closed then 3 else 4
  | .enterLoadGate => if closed then 0 else 5
  | .enterUndo => if closed then 1 else 6
  | .windowOpenGate => 1 + price
  | .insideWindow => 2 + price
  | .windowLoadActive => 3 + price
  | .windowFence => 4 + price
  | .windowCloseGate => 5 + 2 * price

/-- A store to the gate may send every thief back to where it loads the gate. -/
def price (Tid : Type*) [Fintype Tid] : ℕ := 5 * Fintype.card Tid + 1

/-- A bound on the instructions that are left. -/
def potential (owner : Tid) (m : Memory) (p : Tid → List Bool) (l : Tid → Option Local) : ℕ :=
  hands (Local.left m.gate (price Tid)) l + price Tid * (p owner).length

section Lowers

variable {x : Local} {m : Memory} {owner t : Tid} {p : Tid → List Bool} {l : Tid → Option Local}

theorem load_lowers {f : Memory → Local} (k : ℕ) (hr : result x = none) (hi : instr x = .load f)
    (hgate : x = .enterLoadGate → m.gate = false) (hactive : x = .windowLoadActive → m.active = 0) :
    (f m).left m.gate k < x.left m.gate k := by
  cases x with
  | enterLoadGate =>
    cases hi
    simp only [hgate rfl, Local.left, Bool.false_eq_true, if_false]
    decide
  | enterRecheck =>
    cases hi
    cases hg : m.gate <;> simp [Local.left, hg]
  | inside =>
    cases hi
    exact Nat.lt_succ_self 1
  | windowLoadActive =>
    cases hi
    simp only [hactive rfl, Local.left, if_true]
    omega
  | insideWindow =>
    cases hi
    simp only [Local.left]
    omega
  | done => cases hr
  | _ => cases hi

theorem locked_lowers {f : Memory → Memory × Local} (k : ℕ) (hi : instr x = .locked f) :
    (f m).1.gate = m.gate ∧ (f m).2.left m.gate k < x.left m.gate k := by
  cases x with
  | enterRegister | enterUndo | exitUnregister | windowFence =>
    cases hi
    cases hg : m.gate <;> simp [Local.left, Memory.register, Memory.unregister, hg]
  | _ => cases hi

theorem store_lowers {f : Memory → Bool × Local} (closed : Bool) (k : ℕ) (hi : instr x = .store f) :
    (f m).2.left closed k + k < x.left closed k := by
  cases x with
  | windowCloseGate | windowOpenGate =>
    cases hi
    simp only [Local.left]
    omega
  | _ => cases hi

theorem left_le (closed closed' : Bool) (k : ℕ) (x : Local) :
    x.left closed' k ≤ x.left closed k + 5 := by
  cases x with
  | enterRecheck | enterRegister | enterLoadGate | enterUndo =>
    cases closed <;> cases closed' <;> simp [Local.left]
  | _ => exact Nat.le_add_right _ 5

omit [DecidableEq Tid] in
theorem hands_left_le (closed closed' : Bool) (l : Tid → Option Local) :
    hands (Local.left closed' (price Tid)) l <
      hands (Local.left closed (price Tid)) l + price Tid := by
  have hone : ∀ t, hand (Local.left closed' (price Tid)) (l t) ≤
      hand (Local.left closed (price Tid)) (l t) + 5 := by
    intro t
    cases l t with
    | none => exact Nat.zero_le _
    | some x => exact left_le ..
  have hsum := Finset.sum_le_sum fun t (_ : t ∈ Finset.univ) => hone t
  rw [Finset.sum_add_distrib, Finset.sum_const, Finset.card_univ, Nat.nsmul_eq_mul,
    Nat.mul_comm] at hsum
  show hands _ l < _ + (5 * Fintype.card Tid + 1)
  exact Nat.lt_succ_of_le hsum

theorem Inv.view_load (h : Inv owner m p l) (hx : l t = some x) {f : Memory → Local}
    (hr : result x = none) (hi : instr x = .load f) : program.view m (p t) = m := by
  have hempty : p t = [] := by
    by_cases ht : t = owner
    · subst ht
      cases x with
      | windowLoadActive | insideWindow => exact (h.fenced _ hx rfl).1
      | done => cases hr
      | windowCloseGate | windowFence | windowOpenGate => cases hi
      | _ => simpa [Local.ofOwner] using h.owns _ hx
    · exact h.buffers t ht
  rw [hempty, Program.view_nil]

theorem potential_lowers {c c' : Program.Config Tid Memory Bool Local} {a : Program.Action Tid Op}
    (h : Inv owner c.mem c.pending c.locals) (hmove : Moving c a)
    (hn : (system owner).next c a = some c') :
    potential owner c'.mem c'.pending c'.locals < potential owner c.mem c.pending c.locals := by
  cases a with
  | step t =>
    obtain ⟨x, hx, hr, hstep⟩ := Program.next_step hn
    have hup : ∀ y, hands (Local.left c.mem.gate (price Tid)) (Function.update c.locals t (some y)) +
        x.left c.mem.gate (price Tid) =
          hands (Local.left c.mem.gate (price Tid)) c.locals + y.left c.mem.gate (price Tid) := by
      intro y
      have hupdate := hands_update (Local.left c.mem.gate (price Tid)) c.locals t (some y)
      rwa [hx] at hupdate
    rcases hstep with ⟨f, hi, rfl⟩ | ⟨f, hi, rfl⟩ | ⟨f, hi, hp, rfl⟩
    · have hlow := load_lowers (m := c.mem) (price Tid) hr hi (fun he => hmove.1 (he ▸ hx))
        fun he => hmove.2 (he ▸ hx)
      rw [h.view_load hx hr hi]
      have hup := hup (f c.mem)
      simp only [potential]
      omega
    · have ht : t = owner := by
        cases x with
        | windowCloseGate | windowOpenGate => exact h.only t _ hx rfl
        | _ => cases hi
      subst ht
      have hlow := store_lowers (m := program.view c.mem (c.pending t)) c.mem.gate (price Tid) hi
      have hup := hup (f (program.view c.mem (c.pending t))).2
      simp only [potential, Function.update_self, List.length_append, List.length_singleton,
        Nat.mul_add, Nat.mul_one]
      omega
    · obtain ⟨hgate, hlow⟩ := locked_lowers (m := c.mem) (price Tid) hi
      have hup := hup (f c.mem).2
      simp only [potential, hgate]
      omega
  | flush t =>
    obtain ⟨v, buf, hp, rfl⟩ := Program.next_flush hn
    have ht : t = owner := by
      by_contra hne
      rw [h.buffers t hne] at hp
      cases hp
    subst ht
    have hleft := hands_left_le c.mem.gate (program.apply c.mem v).gate c.locals
    simp only [potential, Function.update_self, hp, List.length_cons, Nat.mul_add, Nat.mul_one]
    omega
  | call | ret => exact hmove.elim

end Lowers

/-! ## Nobody is stuck -/

/-- The owner has closed the gate and not opened it again. -/
def closes : Option Local → Bool
  | some .windowFence | some .windowLoadActive | some .insideWindow | some .windowOpenGate => true
  | _ => false

/-- The owner sees the gate as it has left it. -/
structure Gated (owner : Tid) (m : Memory) (p : Tid → List Bool) (l : Tid → Option Local) :
    Prop where
  inv : Inv owner m p l
  gate : (program.view m (p owner)).gate = closes (l owner)

section Gated

variable {owner t : Tid} {m m' : Memory} {p : Tid → List Bool} {l : Tid → Option Local}

theorem Gated.move_thief (h : Gated owner m p l) (ht : t ≠ owner) (hgate : m'.gate = m.gate)
    {o : Option Local} (hinv : Inv owner m' p (Function.update l t o)) :
    Gated owner m' p (Function.update l t o) where
  inv := hinv
  gate := by
    rw [view_gate hgate, h.gate, Function.update_of_ne (Ne.symm ht)]

theorem Gated.stay_owner (h : Gated owner m p l) {o : Option Local}
    (hinv : Inv owner m p (Function.update l owner o)) (ho : closes o = closes (l owner)) :
    Gated owner m p (Function.update l owner o) where
  inv := hinv
  gate := by rw [h.gate, Function.update_self, ho]

theorem gated_inductive (owner : Tid) (hfew : Fintype.card Tid ≤ 2 ^ 32) :
    program.Inductive (may owner) (fun _ _ _ => True) (Gated owner) where
  call {m p l t op} h hl hmay := by
    have hinv := (inv_inductive owner hfew).call h.inv hl hmay
    by_cases ht : t = owner
    · subst ht
      refine h.stay_owner hinv ?_
      rw [hl]
      cases op with
      | guard => exact absurd rfl (of_decide_eq_true hmay)
      | window => rfl
    · exact h.move_thief ht rfl hinv
  load {m p l t x f} h hx hr hi hok := by
    have hinv := (inv_inductive owner hfew).load h.inv hx hr hi hok
    by_cases ht : t = owner
    · subst ht
      refine h.stay_owner hinv ?_
      rw [hx]
      cases x with
      | windowLoadActive =>
        cases hi
        dsimp only
        split <;> rfl
      | insideWindow =>
        cases hi
        rfl
      | done => cases hr
      | windowCloseGate | windowFence | windowOpenGate => cases hi
      | _ => simpa [Local.ofOwner] using h.inv.owns _ hx
    · exact h.move_thief ht rfl hinv
  store {m p l t x f} h hx hr hi hok := by
    have hinv := (inv_inductive owner hfew).store h.inv hx hr hi hok
    refine ⟨hinv, ?_⟩
    cases x with
    | windowCloseGate | windowOpenGate =>
      obtain rfl := h.inv.only t _ hx rfl
      cases hi
      rw [Function.update_self, Function.update_self, Program.view_concat]
      rfl
    | _ => cases hi
  locked {m p l t x f} h hx hr hi hp hok := by
    have hinv := (inv_inductive owner hfew).locked h.inv hx hr hi hp hok
    by_cases ht : t = owner
    · subst ht
      cases x with
      | windowFence =>
        cases hi
        exact h.stay_owner hinv (by rw [hx]; rfl)
      | enterRegister | enterUndo | exitUnregister => simpa [Local.ofOwner] using h.inv.owns _ hx
      | _ => cases hi
    · exact h.move_thief ht (locked_lowers 0 hi).1 hinv
  flush {m p l t v buf} h hp := by
    refine ⟨(inv_inductive owner hfew).flush h.inv hp, ?_⟩
    by_cases ht : t = owner
    · subst ht
      have hgate := h.gate
      rw [hp, Program.view_cons] at hgate
      rwa [Function.update_self]
    · have hempty := h.inv.buffers t ht
      rw [hp] at hempty
      cases hempty
  ret {m p l t x o} h hx hr := by
    have hinv := (inv_inductive owner hfew).ret h.inv hx hr
    by_cases ht : t = owner
    · subst ht
      refine h.stay_owner hinv ?_
      rw [hx]
      cases x with
      | done => rfl
      | _ => cases hr
    · exact h.move_thief ht rfl hinv

end Gated

/-! ## Progress -/

section Progress

variable {owner t : Tid} {c : Program.Config Tid Memory Bool Local} {x : Local}

omit [Fintype Tid] in
/-- When no store is pending, nobody waits but in a fruitless round. -/
theorem step_enabled (owner : Tid) (hp : c.pending t = []) (hx : c.locals t = some x) (hr : result x = none) :
    ∃ c', (system owner).next c (.step t) = some c' := by
  cases hi : instr x with
  | load f => exact ⟨_, by simp only [Program.client, program, hx, hr, hi]; rfl⟩
  | store f => exact ⟨_, by simp only [Program.client, program, hx, hr, hi]; rfl⟩
  | locked f => exact ⟨_, by simp only [Program.client, program, hx, hr, hi, hp]; rfl⟩

theorem exists_moving (h : Gated owner c.mem c.pending c.locals)
    (hbusy : ¬ Quiet c) : ∃ a c', Moving c a ∧ (system owner).next c a = some c' := by
  by_contra hstuck
  have hdrained : ∀ t, c.pending t = [] := by
    intro t
    cases hp : c.pending t with
    | nil => rfl
    | cons v buf =>
      have hflush : ∃ c', (system owner).next c (.flush t) = some c' :=
        ⟨_, by simp only [Program.client, hp]; rfl⟩
      obtain ⟨c', hn⟩ := hflush
      exact absurd ⟨.flush t, c', trivial, hn⟩ hstuck
  -- whoever is not done is in a fruitless round
  have hround : ∀ t x, c.locals t = some x → x = .done ∨ x = .enterLoadGate ∧ c.mem.gate = true ∨
      x = .windowLoadActive ∧ c.mem.active ≠ 0 := by
    intro t x hx
    by_contra hnot
    have hr : result x = none := by
      cases x with
      | done => exact absurd (.inl rfl) hnot
      | _ => rfl
    obtain ⟨c', hn⟩ := step_enabled owner (hdrained t) hx hr
    refine hstuck ⟨.step t, c', ⟨fun he => ?_, fun he => ?_⟩, hn⟩
    · obtain rfl := Option.some.inj (hx.symm.trans he)
      exact Bool.eq_false_of_not_eq_true fun hg => hnot (.inr (.inl ⟨rfl, hg⟩))
    · obtain rfl := Option.some.inj (hx.symm.trans he)
      by_contra hne
      exact hnot (.inr (.inr ⟨rfl, hne⟩))
  have hactive : c.mem.active = 0 := by
    rw [h.inv.active, hands_eq_zero_of_hand fun t => ?_]
    · rfl
    · cases hx : c.locals t with
      | none => rfl
      | some x => rcases hround t x hx with rfl | ⟨rfl, _⟩ | ⟨rfl, _⟩ <;> rfl
  have howner : closes (c.locals owner) = false := by
    cases hx : c.locals owner with
    | none => rfl
    | some x =>
      rcases hround owner x hx with rfl | ⟨rfl, _⟩ | ⟨_, hne⟩
      · rfl
      · rfl
      · exact absurd hactive hne
  have hgate : c.mem.gate = false := by
    have hview := h.gate
    rwa [hdrained owner, Program.view_nil, howner] at hview
  refine hbusy ⟨fun t x hx => ?_, hdrained, hgate, hactive⟩
  rcases hround t x hx with hdone | ⟨_, hclosed⟩ | ⟨_, hne⟩
  · exact hdone
  · rw [hgate] at hclosed
    cases hclosed
  · exact absurd hactive hne

end Progress

/-- **Guards and windows come to an end.** For any number of thieves below `2 ^ 32`, from every
reachable state and under every schedule. -/
theorem always_quiet (owner : Tid) (hfew : Fintype.card Tid ≤ 2 ^ 32)
    {c : Program.Config Tid Memory Bool Local} (h : (system owner).Reachable (initial Tid) c) :
    (system owner).Inevitable Moving Quiet c := by
  have hinv : Gated owner c.mem c.pending c.locals :=
    (gated_inductive owner hfew).reachable ⟨inv_init owner, rfl⟩ h
  have hvariant : (system owner).Variant Moving
      (fun c => Gated owner c.mem c.pending c.locals)
      fun c => potential owner c.mem c.pending c.locals :=
    ⟨fun c a c' hc _ hn =>
        (gated_inductive owner hfew).next hc (by cases a <;> simp [Program.Guard]) hn,
      fun c a c' hc hmove hn => potential_lowers hc.inv hmove hn⟩
  exact hvariant.inevitable (fun c hc hbusy => exists_moving hc hbusy) hinv

/-- The owner waits for a thief that has registered too late, and both get what they want. -/
theorem always_quiet_thiefAndWindow : ∃ c : Program.Config (Fin 2) Memory Bool Local,
    c.locals 0 = some .windowLoadActive ∧ c.locals 1 = some .enterRecheck ∧ c.mem.gate = true ∧
      (system 0).Inevitable Moving Quiet c := by
  have hrun : ((system (0 : Fin 2)).run (initial (Fin 2)) (thiefAndWindow.take 7)).map
      (fun c => (c.locals 0, c.locals 1, c.mem.gate)) =
        some (some .windowLoadActive, some .enterRecheck, true) := by decide +kernel
  obtain ⟨c, hc, hres⟩ := Option.map_eq_some_iff.mp hrun
  obtain ⟨howner, hres⟩ := Prod.mk.inj hres
  obtain ⟨hthief, hgate⟩ := Prod.mk.inj hres
  exact ⟨c, howner, hthief, hgate,
    always_quiet 0 (by rw [Fintype.card_fin]; decide) (System.reachable_of_run hc)⟩

end LowLatency.LightEpoch
