import LowLatency.Concurrency.Linearizable

/-!
# Objects under a mutex

`locked O` runs each operation of the object `O` under a `std::lock_guard`. When the operations of `O`
answer as a specification does while they run alone, those of `locked O` are linearizable with respect
to it, whatever threads call them (`locked_linearizable`).
-/

namespace LowLatency.Concurrency

/-- The members of an object beside its mutex. -/
structure Guarded (Shared : Type*) where
  locked : Bool
  members : Shared

/-- An operation under a `lock_guard`. -/
inductive Held (Op Res Local : Type*) where
  | lock (op : Op)
  | inside (x : Local)
  | unlock (res : Res)
  | done (res : Res)

namespace Held

variable {Op Res Local : Type*}

/-- The operation has the mutex. -/
def holds : Held Op Res Local → Bool
  | .inside _ | .unlock _ => true
  | .lock _ | .done _ => false

def result : Held Op Res Local → Option Res
  | .done res => some res
  | _ => none

end Held

namespace Object

variable {Tid Op Res Shared Local Abs : Type*} (O : Object Op Res Shared Local)

/-- The object under a mutex. A thread that finds the mutex taken waits. -/
def locked : Object Op Res (Guarded Shared) (Held Op Res Local) where
  start := .lock
  step b s
    | .lock op =>
      if s.locked then (s, .lock op) else ({ s with locked := true }, .inside (O.start op))
    | .inside x =>
      match O.result x with
      | some res => (s, .unlock res)
      | none => ({ s with members := (O.step b s.members x).1 }, .inside (O.step b s.members x).2)
    | .unlock res => ({ s with locked := false }, .done res)
    | .done res => (s, .done res)
  result := Held.result

/-- No instruction leaves a choice. -/
def Plain : Prop := ∀ b s x, O.step b s x = O.step false s x

section Simulation

variable {O} {f : Abs → Op → Abs × Res} {rep : Shared → Abs → Prop}

/-- The stage of an operation, when the value of the object is `a`. -/
def Held.Tells (O : Object Op Res Shared Local) (f : Abs → Op → Abs × Res) (rep : Shared → Abs → Prop)
    (s : Guarded Shared) (a : Abs) : Held Op Res Local → Stage Op Res → Prop
  | .lock op, g => g = .called op
  | .inside x, g => ∃ op s', g = .called op ∧ O.Returns s.members x s' (f a op).2 ∧ rep s' (f a op).1
  | .unlock res, g | .done res, g => g = .settled res

/-- One operation at most has the mutex, and only inside is the value of the object open. -/
structure Locked (O : Object Op Res Shared Local) (f : Abs → Op → Abs × Res)
    (rep : Shared → Abs → Prop) (s : Guarded Shared) (l : Tid → Option (Held Op Res Local)) (a : Abs)
    (st : Tid → Option (Stage Op Res)) : Prop where
  told : Told (Held.Tells O f rep s a) l st
  once : ∀ t u x y, l t = some x → l u = some y → x.holds = true → y.holds = true → t = u
  free : s.locked = false → ∀ t x, l t = some x → x.holds = false
  rep : (∀ t x, l t ≠ some (.inside x)) → rep s.members a

/-- The others are outside while one operation has the mutex. -/
theorem Locked.others {s : Guarded Shared} {l : Tid → Option (Held Op Res Local)} {a : Abs}
    {st : Tid → Option (Stage Op Res)} (h : Locked O f rep s l a st) {t : Tid}
    {x : Held Op Res Local} (hl : l t = some x) (hx : x.holds = true) :
    ∀ u y, u ≠ t → l u = some y → y.holds = false := by
  intro u y hu hly
  cases hy : y.holds with
  | false => rfl
  | true => exact absurd (h.once u t y x hly hl hy hx) hu

variable [DecidableEq Tid]

theorem Locked.once_update {s : Guarded Shared} {l : Tid → Option (Held Op Res Local)} {a : Abs}
    {st : Tid → Option (Stage Op Res)} (h : Locked O f rep s l a st) {t : Tid}
    {o : Option (Held Op Res Local)}
    (ho : ∀ y, o = some y → y.holds = true → ∀ u x, u ≠ t → l u = some x → x.holds = false) :
    ∀ v u x y, Function.update l t o v = some x → Function.update l t o u = some y →
      x.holds = true → y.holds = true → v = u := by
  intro v u x y hv hu hx hy
  rcases update_eq_some hv with ⟨rfl, hov⟩ | ⟨hvt, hlv⟩ <;>
    rcases update_eq_some hu with ⟨rfl, hou⟩ | ⟨hut, hlu⟩
  · rfl
  · rw [ho x hov hx u y hut hlu] at hy
    cases hy
  · rw [ho y hou hy v x hvt hlv] at hx
    cases hx
  · exact h.once v u x y hlv hlu hx hy

/-- Outside, an operation tells the same whatever the members and the value are. -/
theorem Held.Tells.frame {s s' : Guarded Shared} {a a' : Abs} {y : Held Op Res Local}
    {g : Stage Op Res} (hy : y.holds = false) (h : Held.Tells O f rep s a y g) :
    Held.Tells O f rep s' a' y g := by
  cases y with
  | inside | unlock => cases hy
  | lock | done => exact h

/-- An operation that neither takes nor has the mutex moves on. -/
theorem Locked.outside {s : Guarded Shared} {l : Tid → Option (Held Op Res Local)} {a : Abs}
    {st : Tid → Option (Stage Op Res)} (h : Locked O f rep s l a st) {t : Tid}
    {o : Option (Held Op Res Local)} {g : Option (Stage Op Res)}
    (hold : ∀ x, l t = some x → x.holds = false) (hnew : ∀ x, o = some x → x.holds = false)
    (ho : Option.Rel (Held.Tells O f rep s a) o g) :
    Locked O f rep s (Function.update l t o) a (Function.update st t g) where
  told := h.told.update ho fun _ _ _ _ _ hg => hg
  once := h.once_update fun y hy hholds => by
    rw [hnew y hy] at hholds
    cases hholds
  free hfree u x hu := by
    rcases update_eq_some hu with ⟨_, hx⟩ | ⟨_, hx⟩
    · exact hnew x hx
    · exact h.free hfree u x hx
  rep hnone := h.rep fun u x hu => by
    by_cases hut : u = t
    · subst hut
      cases hold _ hu
    · exact hnone u x ((Function.update_of_ne hut ..).trans hu)

/-- **Mutual exclusion makes atomic**: when the operations of `O` answer as `f` does while they run
alone, those of `locked O` simulate the atomic object of `f`. -/
theorem locked_simulation (hplain : O.Plain) {init : Abs}
    (hop : ∀ s a op, rep s a → ∃ s', O.Returns s (O.start op) s' (f a op).2 ∧ rep s' (f a op).1) :
    O.locked.Simulation (fun (_ : Tid) _ => true) (fun _ _ => True) (Spec.exact init f)
      (Locked O f rep) where
  call {s l a st t op} h hl _ := by
    refine ⟨h.told.idle hl, h.outside ?_ ?_ (.some rfl)⟩
    · intro x hx
      rw [hl] at hx
      cases hx
    · intro x hx
      obtain rfl := Option.some.inj hx
      rfl
  ret {s l a st t x res} h hl hr := by
    obtain ⟨g, hg, htells⟩ := h.told.busy hl
    cases x with
    | done o =>
      obtain rfl : o = res := Option.some.inj hr
      obtain rfl : g = .settled o := htells
      refine ⟨hg, h.outside ?_ (fun y hy => by cases hy) .none⟩
      intro y hy
      obtain rfl := Option.some.inj (hl.symm.trans hy)
      rfl
    | _ => cases hr
  step {s l a st t x} b h hl hr _ := by
    obtain ⟨g, hg, htells⟩ := h.told.busy hl
    cases x with
    | done => cases hr
    | lock op =>
      left
      obtain rfl : g = .called op := htells
      cases hlocked : s.locked with
      | true =>
        have hstep : O.locked.step b s (.lock op) = (s, .lock op) := by
          simp only [locked, hlocked, if_true]
        rw [hstep]
        rw [← hl, Function.update_eq_self]
        exact h
      | false =>
        have hstep : O.locked.step b s (.lock op) =
            ({ s with locked := true }, .inside (O.start op)) := by
          simp only [locked, hlocked, Bool.false_eq_true, if_false]
        have hfree := h.free hlocked
        rw [hstep]
        have hrep : rep s.members a := h.rep fun u x hu => by cases hfree u _ hu
        obtain ⟨s', hret, hrep'⟩ := hop s.members a op hrep
        refine ⟨h.told.stay hg ⟨op, s', rfl, hret, hrep'⟩ fun u y g _ hu => ?_, ?_, ?_, ?_⟩
        · exact Held.Tells.frame (hfree u y hu)
        · exact h.once_update fun _ _ _ u x _ hu => hfree u x hu
        · intro hfree'
          cases hfree'
        · intro hnone
          exact absurd (Function.update_self ..) (hnone t (O.start op))
    | inside x =>
      obtain ⟨op, s', rfl, hret, hrep⟩ := htells
      have hothers := h.others hl rfl
      cases hres : O.result x with
      | some res =>
        right
        have hstep : O.locked.step b s (.inside x) = (s, .unlock res) := by
          simp only [locked, hres]
        obtain ⟨rfl, ho⟩ := hret.result hres
        rw [hstep]
        refine ⟨op, res, (f a op).1, hg, Prod.ext rfl ho, ?_, ?_, ?_, fun _ => hrep⟩
        · exact h.told.update (.some rfl) fun u y g hu hlu => Held.Tells.frame (hothers u y hu hlu)
        · exact h.once_update fun _ _ _ u x => hothers u x
        · intro hfree
          cases h.free hfree t _ hl
      | none =>
        left
        have hstep : O.locked.step b s (.inside x) = ({ s with members := (O.step b s.members x).1 },
            .inside (O.step b s.members x).2) := by
          simp only [locked, hres]
        rw [hstep]
        have hnext : O.step false s.members x =
            ((O.step b s.members x).1, (O.step b s.members x).2) := (hplain b s.members x).symm
        refine ⟨h.told.stay hg ⟨op, s', rfl, hret.next hres hnext, hrep⟩ fun u y g hu hlu => ?_, ?_, ?_, ?_⟩
        · exact Held.Tells.frame (hothers u y hu hlu)
        · exact h.once_update fun _ _ _ u x => hothers u x
        · intro hfree
          cases h.free hfree t _ hl
        · intro hnone
          exact absurd (Function.update_self ..) (hnone t (O.step b s.members x).2)
    | unlock res =>
      left
      obtain rfl : g = .settled res := htells
      have hothers := h.others hl rfl
      refine ⟨h.told.stay hg rfl fun u y g hu hlu => Held.Tells.frame (hothers u y hu hlu), ?_, ?_, ?_⟩
      · refine h.once_update fun y hy hholds => ?_
        obtain rfl := Option.some.inj hy
        cases hholds
      · intro _ u y hu
        rcases update_eq_some hu with ⟨_, hy⟩ | ⟨hne, hy⟩
        · obtain rfl := Option.some.inj hy
          rfl
        · exact hothers u y hne hy
      · intro _
        refine h.rep fun u x hu => ?_
        by_cases hut : u = t
        · subst hut
          cases hl.symm.trans hu
        · cases hothers u _ hut hu

/-- The histories of an object under a mutex are linearizable. -/
theorem locked_linearizable (rep : Shared → Abs → Prop) (hplain : O.Plain) {init : Abs}
    {s : Shared} (hinit : rep s init)
    (hop : ∀ s a op, rep s a → ∃ s', O.Returns s (O.start op) s' (f a op).2 ∧ rep s' (f a op).1)
    {p : Config Tid (Guarded Shared) (Held Op Res Local) × List (Event Tid Op Res)}
    (h : (O.locked.history fun _ _ => true).Reachable (⟨⟨false, s⟩, fun _ => none⟩, []) p) :
    (Spec.exact init f : Spec Tid Op Res Abs).Linearizable p.2 := by
  refine (locked_simulation hplain hop).linearizable ?_
    (System.Reach.mono h fun _ a _ => by cases a <;> simp [Guard])
  have hnone : ∀ (t : Tid) (x : Held Op Res Local), (fun _ => none : Tid → Option _) t ≠ some x :=
    fun _ _ hx => by cases hx
  refine Locked.mk (fun _ => .none) ?_ ?_ fun _ => hinit
  · exact fun t u x y hx => absurd hx (hnone t x)
  · exact fun _ t x hx => absurd hx (hnone t x)

end Simulation

end Object

end LowLatency.Concurrency
