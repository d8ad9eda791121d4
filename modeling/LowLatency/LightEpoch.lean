import LowLatency.Concurrency.Slots
import LowLatency.Concurrency.StoreBuffer
import Mathlib.Data.Fintype.Option
import Mathlib.Data.BitVec

/-!
# The light epoch

`LightEpoch` of `LightEpoch.h` under x86-TSO. A thief runs `Guard`: `enter()`, its critical section and
`exit()`; the owner runs `QuiesceWindow`: the constructor, the window and the destructor. Only the
owner has plain stores, all of them to `gate_`; `active_` is a 32-bit word that is changed by
read-modify-writes only. `pause_or_yield` touches no memory.

`excludes`: no thief is inside while the owner is in a window, and `active_` counts the thieves inside
and those about to confirm or undo, as long as there are fewer than `2 ^ 32` of them. With `2 ^ 32`
thieves the counter wraps (`exists_crowded`).
-/

namespace LowLatency.LightEpoch

open Concurrency

/-- The two atomics. -/
structure Memory where
  gate : Bool
  active : BitVec 32

inductive Op where
  | guard
  | window

/-- The next instruction. -/
inductive Local where
  | enterLoadGate
  | enterRegister
  | enterRecheck
  | enterUndo
  /-- Between the return of `enter()` and the call of `exit()`. -/
  | inside
  | exitUnregister
  | windowCloseGate
  | windowFence
  | windowLoadActive
  /-- Between the constructor and the destructor. -/
  | insideWindow
  | windowOpenGate
  | done
  deriving DecidableEq

def init : Memory := ⟨false, 0⟩

namespace Memory

variable (m : Memory)

/-- `active_.fetch_add(1)`. -/
def register : Memory := { m with active := m.active + 1 }

/-- `active_.fetch_sub(1)`. -/
def unregister : Memory := { m with active := m.active - 1 }

/-- A store to `gate_`. -/
def storeGate (v : Bool) : Memory := { m with gate := v }

end Memory

def start : Op → Local
  | .guard => .enterLoadGate
  | .window => .windowCloseGate

def instr : Local → Instr Memory Bool Local
  | .enterLoadGate => .load fun m => if m.gate then .enterLoadGate else .enterRegister
  | .enterRegister => .locked fun m => (m.register, .enterRecheck)
  | .enterRecheck => .load fun m => if m.gate then .enterUndo else .inside
  | .enterUndo => .locked fun m => (m.unregister, .enterLoadGate)
  | .inside => .load fun _ => .exitUnregister
  | .exitUnregister => .locked fun m => (m.unregister, .done)
  | .windowCloseGate => .store fun _ => (true, .windowFence)
  | .windowFence => .locked fun m => (m, .windowLoadActive)
  | .windowLoadActive => .load fun m => if m.active = 0 then .insideWindow else .windowLoadActive
  | .insideWindow => .load fun _ => .windowOpenGate
  | .windowOpenGate => .store fun _ => (false, .done)
  | .done => .load fun _ => .done

def result : Local → Option Unit
  | .done => some ()
  | _ => none

def program : Program Op Unit Memory Bool Local where
  start := start
  instr := instr
  apply := Memory.storeGate
  result := result

/-- The owner opens and closes windows, every other thread is a thief. -/
def may {Tid : Type*} [DecidableEq Tid] (owner t : Tid) : Op → Bool
  | .guard => decide (t ≠ owner)
  | .window => decide (t = owner)

/-- An owner and any number of thieves. -/
abbrev system {Tid : Type*} [DecidableEq Tid] (owner : Tid) :
    System (Program.Config Tid Memory Bool Local) (Program.Action Tid Op) :=
  program.client (may owner)

/-- A new epoch, used by nobody yet. -/
def initial (Tid : Type*) : Program.Config Tid Memory Bool Local := Program.Config.new Tid Bool Local init

namespace Local

/-- `enter()` has returned and `exit()` has not unregistered. -/
def isInside : Local → Bool
  | .inside | .exitUnregister => true
  | _ => false

/-- Registered, and neither confirmed nor undone. -/
def isRegistering : Local → Bool
  | .enterRecheck | .enterUndo => true
  | _ => false

/-- The next instruction is a `fetch_sub`. -/
def unregisters : Local → Bool
  | .enterUndo | .exitUnregister => true
  | _ => false

/-- The constructor has returned and the destructor has not stored. -/
def isInWindow : Local → Bool
  | .insideWindow | .windowOpenGate => true
  | _ => false

/-- The constructor's fence is passed and the destructor has not stored. -/
def isFenced : Local → Bool
  | .windowLoadActive | .insideWindow | .windowOpenGate => true
  | _ => false

def ofOwner : Local → Bool
  | .windowCloseGate | .windowFence | .windowLoadActive | .insideWindow | .windowOpenGate => true
  | _ => false

/-- What a thread contributes to `active_`. -/
def counts (x : Local) : ℕ := x.isInside.toNat + x.isRegistering.toNat

end Local

variable {Tid : Type*} [DecidableEq Tid] [Fintype Tid]

/-- What the epoch promises. -/
structure Excludes (owner : Tid) (c : Program.Config Tid Memory Bool Local) : Prop where
  excluded : ∀ x, c.locals owner = some x → x.isInWindow = true →
    ∀ t y, c.locals t = some y → y.isInside = false
  active_eq : c.mem.active.toNat = hands (fun x => x.isInside.toNat) c.locals +
    hands (fun x => x.isRegistering.toNat) c.locals
  noUnderflow : ∀ t x, c.locals t = some x → x.unregisters = true → 0 < c.mem.active.toNat

/-! ## The invariant -/

/-- The invariant; the counter is right up to wrapping. -/
structure Inv (owner : Tid) (m : Memory) (p : Tid → List Bool) (l : Tid → Option Local) : Prop where
  only : ∀ t x, l t = some x → x.ofOwner = true → t = owner
  owns : ∀ x, l owner = some x → x.ofOwner = true ∨ x = .done
  buffers : ∀ t, t ≠ owner → p t = []
  active : m.active = BitVec.ofNat 32 (hands Local.counts l)
  closing : l owner = some .windowFence → (program.view m (p owner)).gate = true
  fenced : ∀ x, l owner = some x → x.isFenced = true → p owner = [] ∧ m.gate = true
  excluded : ∀ x, l owner = some x → x.isInWindow = true →
    ∀ t y, l t = some y → y.isInside = false

omit [DecidableEq Tid] in
theorem inv_init (owner : Tid) : Inv owner init (fun _ => []) fun _ => none where
  only t x h := by cases h
  owns x h := by cases h
  buffers t _ := rfl
  active := by
    rw [hands_eq_zero fun _ => rfl]
    rfl
  closing h := by cases h
  fenced x h := by cases h
  excluded x h := by cases h

/-- The gate that a thread sees depends on the gate in memory only. -/
theorem view_gate {m m' : Memory} (h : m'.gate = m.gate) (buf : List Bool) :
    (program.view m' buf).gate = (program.view m buf).gate := by
  induction buf generalizing m m' with
  | nil => exact h
  | cons v buf ih => exact ih rfl

theorem counts_of_owns {x : Local} (h : x.ofOwner = true ∨ x = .done) : x.counts = 0 := by
  revert h
  cases x <;> decide

theorem isFenced_of_isInWindow {x : Local} (h : x.isInWindow = true) : x.isFenced = true := by
  revert h
  cases x <;> decide

theorem isInside_of_owns {x : Local} (h : x.ofOwner = true ∨ x = .done) : x.isInside = false := by
  revert h
  cases x <;> decide

namespace Inv

variable {owner t : Tid} {m m' : Memory} {p : Tid → List Bool} {l : Tid → Option Local}
  {x y : Local} {o : Option Local}

omit [DecidableEq Tid] in
theorem owner_counts (h : Inv owner m p l) : hand Local.counts (l owner) = 0 := by
  cases hl : l owner with
  | none => rfl
  | some x => exact counts_of_owns (h.owns x hl)

omit [DecidableEq Tid] in
theorem hands_lt (h : Inv owner m p l) : hands Local.counts l < Fintype.card Tid := by
  have hone : ∀ o : Option Local, hand Local.counts o ≤ 1 := by
    intro o
    cases o with
    | none => exact Nat.zero_le _
    | some x => cases x <;> decide
  exact hands_lt_card (fun t => hone (l t)) h.owner_counts

theorem move_thief (h : Inv owner m p l) (ht : t ≠ owner) (hgate : m'.gate = m.gate)
    (hactive : m'.active = BitVec.ofNat 32 (hands Local.counts (Function.update l t o)))
    (hkind : ∀ y, o = some y → y.ofOwner = false)
    (hinside : ∀ y, o = some y → y.isInside = true →
      ∀ x, l owner = some x → x.isInWindow = true → False) :
    Inv owner m' p (Function.update l t o) := by
  have howner : Function.update l t o owner = l owner := Function.update_of_ne (Ne.symm ht) ..
  constructor
  · intro u y hy hown
    rcases update_eq_some hy with ⟨rfl, ho⟩ | ⟨_, hy⟩
    · rw [hkind y ho] at hown
      cases hown
    · exact h.only u y hy hown
  · rw [howner]
    exact h.owns
  · exact h.buffers
  · exact hactive
  · intro hf
    rw [howner] at hf
    rw [view_gate hgate]
    exact h.closing hf
  · rw [howner, hgate]
    exact h.fenced
  · intro x hx hw u y hy
    rw [howner] at hx
    rcases update_eq_some hy with ⟨rfl, ho⟩ | ⟨_, hy⟩
    · exact Bool.eq_false_iff.mpr fun hin => hinside y ho hin x hx hw
    · exact h.excluded x hx hw u y hy

theorem move_owner (h : Inv owner m p l) {buf : List Bool}
    (hactive : m'.active = m.active)
    (howns : ∀ y, o = some y → y.ofOwner = true ∨ y = .done)
    (hclosing : o = some .windowFence → (program.view m' buf).gate = true)
    (hfenced : ∀ y, o = some y → y.isFenced = true → buf = [] ∧ m'.gate = true)
    (hexcluded : ∀ y, o = some y → y.isInWindow = true →
      ∀ t z, t ≠ owner → l t = some z → z.isInside = false) :
    Inv owner m' (Function.update p owner buf) (Function.update l owner o) := by
  have hold := h.owner_counts
  have hnew : hand Local.counts o = 0 := by
    cases o with
    | none => rfl
    | some y => exact counts_of_owns (howns y rfl)
  constructor
  · intro u y hy hown
    rcases update_eq_some hy with ⟨rfl, _⟩ | ⟨_, hy⟩
    · rfl
    · exact h.only u y hy hown
  · rw [Function.update_self]
    exact howns
  · intro u hu
    rw [Function.update_of_ne hu]
    exact h.buffers u hu
  · exact ofNat_hands_update h.active (by rw [hactive, hold, hnew])
  · rw [Function.update_self, Function.update_self]
    exact hclosing
  · rw [Function.update_self, Function.update_self]
    exact hfenced
  · intro x hx hw u y hy
    rw [Function.update_self] at hx
    rcases update_eq_some hy with ⟨rfl, ho⟩ | ⟨hne, hy⟩
    · exact isInside_of_owns (howns y ho)
    · exact hexcluded x hx hw u y hne hy

theorem stay_owner (h : Inv owner m p l) (howns : ∀ y, o = some y → y.ofOwner = true ∨ y = .done)
    (hclosing : o = some .windowFence → (program.view m (p owner)).gate = true)
    (hfenced : ∀ y, o = some y → y.isFenced = true → p owner = [] ∧ m.gate = true)
    (hexcluded : ∀ y, o = some y → y.isInWindow = true →
      ∀ t z, t ≠ owner → l t = some z → z.isInside = false) :
    Inv owner m p (Function.update l owner o) := by
  have hnew := h.move_owner rfl howns hclosing hfenced hexcluded
  rwa [Function.update_eq_self] at hnew

theorem active_register (h : Inv owner m p l) (hx : hand Local.counts (l t) = 0)
    (ho : hand Local.counts o = 1) :
    m.register.active = BitVec.ofNat 32 (hands Local.counts (Function.update l t o)) := by
  refine ofNat_hands_update h.active ?_
  rw [hx, ho]
  exact BitVec.add_zero _

theorem active_unregister (h : Inv owner m p l) (hx : hand Local.counts (l t) = 1)
    (ho : hand Local.counts o = 0) :
    m.unregister.active = BitVec.ofNat 32 (hands Local.counts (Function.update l t o)) := by
  refine ofNat_hands_update h.active ?_
  rw [hx, ho]
  show m.active - 1 + 1 = m.active + 0
  exact (BitVec.sub_add_cancel _ _).trans (BitVec.add_zero _).symm

theorem active_same (h : Inv owner m p l) (ho : hand Local.counts o = hand Local.counts (l t)) :
    m.active = BitVec.ofNat 32 (hands Local.counts (Function.update l t o)) := by
  exact ofNat_hands_update h.active (by rw [ho])

omit [DecidableEq Tid] in
theorem nobody_inside (h : Inv owner m p l) (hfew : Fintype.card Tid ≤ 2 ^ 32) (hzero : m.active = 0)
    {y : Local} (hy : l t = some y) : y.isInside = false := by
  have hnone := hands_eq_zero_of_ofNat (h.active.symm.trans hzero) (h.hands_lt.trans_le hfew)
  have hle := le_hands Local.counts hy
  have hcounts : y.counts = 0 := by omega
  revert hcounts
  cases y <;> decide

omit [DecidableEq Tid] in
/-- While the owner is behind its fence, a thief that checks the gate finds it closed. -/
theorem not_open (h : Inv owner m p l) (hopen : m.gate = false) (hx : l owner = some x)
    (hfenced : x.isFenced = true) : False := by
  have hclosed := (h.fenced x hx hfenced).2
  rw [hopen] at hclosed
  cases hclosed

end Inv

/-- Every step keeps the invariant, as long as the counter does not wrap. -/
theorem inv_inductive (owner : Tid) (hfew : Fintype.card Tid ≤ 2 ^ 32) :
    program.Inductive (may owner) (fun _ _ _ => True) (Inv owner) where
  call {m p l t op} h hl hmay := by
    cases op with
    | guard =>
      have ht : t ≠ owner := of_decide_eq_true hmay
      exact h.move_thief ht rfl (h.active_same (by rw [hl]; rfl)) (by rintro _ ⟨⟩; rfl)
        (by rintro _ ⟨⟩ hin; cases hin)
    | window =>
      have ht : t = owner := of_decide_eq_true hmay
      subst ht
      exact h.stay_owner (by rintro _ ⟨⟩; exact .inl rfl) (by rintro ⟨⟩) (by rintro _ ⟨⟩ hf; cases hf)
        (by rintro _ ⟨⟩ hw; cases hw)
  load {m p l t x f} h hx hr hi _ := by
    by_cases ht : t = owner
    · subst ht
      have howns := h.owns x hx
      cases x with
      | windowLoadActive =>
        obtain ⟨hp, hgate⟩ := h.fenced _ hx rfl
        cases hi
        rw [hp, Program.view_nil]
        beta_reduce
        split
        next hzero =>
          exact h.stay_owner (by rintro _ ⟨⟩; exact .inl rfl) (by rintro ⟨⟩)
            (fun _ _ _ => ⟨hp, hgate⟩) (fun _ _ _ u z _ hz => h.nobody_inside hfew hzero hz)
        next =>
          exact h.stay_owner (by rintro _ ⟨⟩; exact .inl rfl) (by rintro ⟨⟩)
            (fun _ _ _ => ⟨hp, hgate⟩) (by rintro _ ⟨⟩ hw; cases hw)
      | insideWindow =>
        obtain ⟨hp, hgate⟩ := h.fenced _ hx rfl
        cases hi
        exact h.stay_owner (by rintro _ ⟨⟩; exact .inl rfl) (by rintro ⟨⟩)
          (fun _ _ _ => ⟨hp, hgate⟩) (fun _ _ _ u z _ hz => h.excluded _ hx rfl u z hz)
      | done => cases hr
      | windowCloseGate | windowFence | windowOpenGate => cases hi
      | _ => simp [Local.ofOwner] at howns
    · have hp := h.buffers t ht
      rw [hp, Program.view_nil]
      cases x with
      | enterLoadGate =>
        cases hi
        beta_reduce
        split
        · exact h.move_thief ht rfl (h.active_same (by rw [hx])) (by rintro _ ⟨⟩; rfl)
            (by rintro _ ⟨⟩ hin; cases hin)
        · exact h.move_thief ht rfl (h.active_same (by rw [hx]; rfl)) (by rintro _ ⟨⟩; rfl)
            (by rintro _ ⟨⟩ hin; cases hin)
      | enterRecheck =>
        cases hi
        beta_reduce
        split
        · exact h.move_thief ht rfl (h.active_same (by rw [hx]; rfl)) (by rintro _ ⟨⟩; rfl)
            (by rintro _ ⟨⟩ hin; cases hin)
        next hopen =>
          refine h.move_thief ht rfl (h.active_same (by rw [hx]; rfl)) (by rintro _ ⟨⟩; rfl) ?_
          rintro _ ⟨⟩ _ x hown hw
          exact h.not_open (Bool.eq_false_of_not_eq_true hopen) hown (isFenced_of_isInWindow hw)
      | inside =>
        cases hi
        refine h.move_thief ht rfl (h.active_same (by rw [hx]; rfl)) (by rintro _ ⟨⟩; rfl) ?_
        rintro _ ⟨⟩ _ x hown hw
        have hout := h.excluded x hown hw t _ hx
        cases hout
      | done => cases hr
      | enterRegister | enterUndo | exitUnregister => cases hi
      | _ => exact absurd (h.only t _ hx rfl) ht
  store {m p l t x f} h hx hr hi _ := by
    by_cases ht : t = owner
    · subst ht
      have howns := h.owns x hx
      cases x with
      | windowCloseGate =>
        cases hi
        refine h.move_owner rfl (by rintro _ ⟨⟩; exact .inl rfl) (fun _ => ?_)
          (by rintro _ ⟨⟩ hf; cases hf) (by rintro _ ⟨⟩ hw; cases hw)
        rw [Program.view_concat]
        rfl
      | windowOpenGate =>
        cases hi
        exact h.move_owner rfl (by rintro _ ⟨⟩; exact .inr rfl) (by rintro ⟨⟩)
          (by rintro _ ⟨⟩ hf; cases hf) (by rintro _ ⟨⟩ hw; cases hw)
      | _ => cases hi
    · cases x with
      | windowCloseGate | windowOpenGate => exact absurd (h.only t _ hx rfl) ht
      | _ => cases hi
  locked {m p l t x f} h hx hr hi hp _ := by
    by_cases ht : t = owner
    · subst ht
      have howns := h.owns x hx
      cases x with
      | windowFence =>
        have hgate := h.closing hx
        rw [hp, Program.view_nil] at hgate
        cases hi
        exact h.stay_owner (by rintro _ ⟨⟩; exact .inl rfl) (by rintro ⟨⟩)
          (fun _ _ _ => ⟨hp, hgate⟩) (by rintro _ ⟨⟩ hw; cases hw)
      | enterRegister | enterUndo | exitUnregister => simp [Local.ofOwner] at howns
      | _ => cases hi
    · cases x with
      | enterRegister =>
        cases hi
        exact h.move_thief ht rfl (h.active_register (by rw [hx]; rfl) rfl) (by rintro _ ⟨⟩; rfl)
          (by rintro _ ⟨⟩ hin; cases hin)
      | enterUndo =>
        cases hi
        exact h.move_thief ht rfl (h.active_unregister (by rw [hx]; rfl) rfl) (by rintro _ ⟨⟩; rfl)
          (by rintro _ ⟨⟩ hin; cases hin)
      | exitUnregister =>
        cases hi
        exact h.move_thief ht rfl (h.active_unregister (by rw [hx]; rfl) rfl) (by rintro _ ⟨⟩; rfl)
          (by rintro _ ⟨⟩ hin; cases hin)
      | windowFence => exact absurd (h.only t _ hx rfl) ht
      | _ => cases hi
  flush {m p l t v buf} h hp := by
    by_cases ht : t = owner
    · subst ht
      have hnew : Inv t (m.storeGate v) (Function.update p t buf) (Function.update l t (l t)) :=
          h.move_owner rfl h.owns
        (fun hf => by
          have hgate := h.closing hf
          rwa [hp, Program.view_cons] at hgate)
        (fun y hy hf => by
          have hempty := (h.fenced y hy hf).1
          rw [hp] at hempty
          cases hempty)
        (fun y hy hw u z _ hz => h.excluded y hy hw u z hz)
      rwa [Function.update_eq_self] at hnew
    · have hempty := h.buffers t ht
      rw [hp] at hempty
      cases hempty
  ret {m p l t x o} h hx hr := by
    have hdone : x = .done := by cases x <;> first | rfl | cases hr
    subst hdone
    by_cases ht : t = owner
    · subst ht
      exact h.stay_owner (fun _ ho => by cases ho) (fun ho => by cases ho)
        (fun _ ho => by cases ho) (fun _ ho => by cases ho)
    · exact h.move_thief ht rfl (h.active_same (by rw [hx]; rfl)) (fun _ ho => by cases ho)
        (fun _ ho => by cases ho)

/-! ## Exclusion -/

omit [DecidableEq Tid] in
theorem hands_counts (l : Tid → Option Local) : hands Local.counts l =
    hands (fun x => x.isInside.toNat) l + hands (fun x => x.isRegistering.toNat) l := by
  unfold hands
  rw [← Finset.sum_add_distrib]
  refine Finset.sum_congr rfl fun t _ => ?_
  cases l t <;> rfl

/-- **Thieves are excluded from the owner's windows**, when there are fewer than `2 ^ 32` thieves. -/
theorem excludes (owner : Tid) (hfew : Fintype.card Tid ≤ 2 ^ 32)
    {c : Program.Config Tid Memory Bool Local} (h : (system owner).Reachable (initial Tid) c) :
    Excludes owner c := by
  have hinv : Inv owner c.mem c.pending c.locals :=
    (inv_inductive owner hfew).reachable (inv_init owner) h
  have hactive : c.mem.active.toNat = hands Local.counts c.locals := by
    have hlt := hinv.hands_lt
    rw [hinv.active, BitVec.toNat_ofNat, Nat.mod_eq_of_lt (by omega)]
  refine ⟨hinv.excluded, hactive.trans (hands_counts _), fun t x hx hun => ?_⟩
  have hcounts : x.counts = 1 := by
    revert hun
    cases x <;> decide
  rw [hactive]
  have hle := le_hands Local.counts hx
  omega

/-- A thief enters while the owner waits, and finds the gate closed. -/
def thiefAndWindow : List (Program.Action (Fin 2) Op) :=
  List.flatten [[.call 1 .guard], Program.Action.steps 1 2, [.call 0 .window, .step 0, .flush 0, .step 0,
    .step 0], Program.Action.steps 1 2, [.step 0]]

theorem excludes_thiefAndWindow : ∃ c : Program.Config (Fin 2) Memory Bool Local,
    (system 0).Reachable (initial (Fin 2)) c ∧ c.locals 0 = some .insideWindow ∧ Excludes 0 c := by
  have hrun : ((system (0 : Fin 2)).run (initial (Fin 2)) thiefAndWindow).map (fun c => c.locals 0) =
      some (some .insideWindow) := by decide +kernel
  obtain ⟨c, hc, hin⟩ := Option.map_eq_some_iff.mp hrun
  have hreach := System.reachable_of_run hc
  exact ⟨c, hreach, hin, excludes 0 (by rw [Fintype.card_fin]; decide) hreach⟩

/-! ## As many thieves as the counter has values -/

section Crowd

variable {c : Program.Config Tid Memory Bool Local}

omit [Fintype Tid] in
theorem enter_reachable {owner t : Tid} (ht : t ≠ owner) (hgate : c.mem.gate = false)
    (hp : c.pending t = []) (hl : c.locals t = none) :
    (system owner).Reachable c ⟨c.mem.register, c.pending,
      Function.update c.locals t (some .inside)⟩ := by
  have hrun : (system owner).run c (.call t .guard :: Program.Action.steps t 3) =
      some ⟨c.mem.register, c.pending, Function.update c.locals t (some .inside)⟩ := by
    simp [Program.Action.steps, Program.client, may, ht, hl, hp, hgate, program, start, instr, result,
      List.replicate, Memory.register]
  exact System.reachable_of_run hrun

/-- `n` thieves are inside. -/
def crowd (n : ℕ) : Program.Config (Option (Fin (2 ^ 32))) Memory Bool Local where
  mem := ⟨false, BitVec.ofNat 32 n⟩
  pending _ := []
  locals := arrived .inside n

theorem crowd_reachable {n : ℕ} (hn : n ≤ 2 ^ 32) :
    (system none).Reachable (initial (Option (Fin (2 ^ 32)))) (crowd n) := by
  induction n with
  | zero =>
    have hzero : crowd 0 = initial (Option (Fin (2 ^ 32))) := by
      unfold crowd
      rw [arrived_zero]
      rfl
    rw [hzero]
    exact System.Reach.refl
  | succ n ih =>
    have ht : some (⟨n, hn⟩ : Fin (2 ^ 32)) ≠ none := by simp
    have hnext : (system none).Reachable (crowd n) _ :=
      enter_reachable ht rfl rfl (if_neg (Nat.lt_irrefl n))
    have hcrowd : crowd (n + 1) = ⟨(crowd n).mem.register, (crowd n).pending,
        Function.update (crowd n).locals (some ⟨n, hn⟩) (some .inside)⟩ := by
      unfold crowd
      rw [arrived_succ _ hn, BitVec.ofNat_add]
      rfl
    rw [hcrowd]
    exact (ih (by omega)).trans hnext

omit [Fintype Tid] in
theorem window_reachable {owner : Tid} (hactive : c.mem.active = 0) (hp : c.pending owner = [])
    (hl : c.locals owner = none) :
    (system owner).Reachable c ⟨c.mem.storeGate true, c.pending,
      Function.update c.locals owner (some .insideWindow)⟩ := by
  have hpending : Function.update c.pending owner [] = c.pending := by
    rw [← hp, Function.update_eq_self]
  have hrun : (system owner).run c
      [.call owner .window, .step owner, .flush owner, .step owner, .step owner] =
      some ⟨c.mem.storeGate true, c.pending, Function.update c.locals owner (some .insideWindow)⟩ := by
    simp [Program.client, may, hl, hp, hactive, hpending, program, start, instr, result,
      Memory.storeGate]
  exact System.reachable_of_run hrun

theorem not_excludes {owner t : Tid} (ht : t ≠ owner) (hin : c.locals t = some .inside) :
    ¬ Excludes owner ⟨c.mem.storeGate true, c.pending,
      Function.update c.locals owner (some .insideWindow)⟩ := by
  intro h
  have hout := h.excluded .insideWindow (Function.update_self ..) rfl t .inside
    ((Function.update_of_ne ht ..).trans hin)
  cases hout

/-- With `2 ^ 32` thieves inside, the owner reads 0 and its window opens. -/
theorem exists_crowded : ∃ c, (system none).Reachable (initial (Option (Fin (2 ^ 32)))) c ∧
    ¬ Excludes none c := by
  have hwindow : (system none).Reachable (crowd (2 ^ 32)) _ := window_reachable (by decide) rfl rfl
  have hthief : (crowd (2 ^ 32)).locals (some ⟨0, by decide⟩) = some .inside := by
    show (if 0 < 2 ^ 32 then some Local.inside else none) = some .inside
    exact if_pos (by decide)
  exact ⟨_, (crowd_reachable le_rfl).trans hwindow, not_excludes (Option.some_ne_none _) hthief⟩

end Crowd

end LowLatency.LightEpoch
