import Mathlib.Data.Nat.Notation
import Mathlib.Logic.Function.Basic
import LowLatency.Concurrency.System

/-!
# Shared objects

An `Object` is the code of the operations of a shared data structure: how an operation starts,
what its next atomic instruction does to the shared part and to its own registers, and when it
has a result. `client` is the system in which any number of threads call the object in any
order: its actions are the calls, the single instructions and the returns.

`Inductive` says that a predicate on the shared part and the registers of all operations in
progress is kept by calls, instructions and returns. It is what a proof about the object has to
show (`Inductive.client`), and all that a program built on the object has to know, since such a
program only calls, steps and returns as well.
-/

namespace LowLatency.Concurrency

/-- The operations of a shared data structure, one atomic instruction at a time. The Boolean of
`step` is what the instruction leaves open, such as a weak compare-exchange that fails without
a mismatch. -/
structure Object (Op Res Shared Local : Type*) where
  start : Op → Local
  step : Bool → Shared → Local → Shared × Local
  result : Local → Option Res

/-- The shared part of an object and the registers of the operations in progress on it. -/
structure Config (Tid Shared Local : Type*) where
  shared : Shared
  locals : Tid → Option Local

/-- No operation is in progress. -/
def Config.Quiescent {Tid Shared Local : Type*} (c : Config Tid Shared Local) : Prop :=
  ∀ t, c.locals t = none

/-- What a bounded container of `α` tells its caller. -/
inductive Outcome (α : Type*) where
  /-- The item was inserted. -/
  | put
  /-- The container refused the item, which is still the caller's. -/
  | refused (item : α)
  /-- An item was removed. -/
  | got (item : α)
  /-- There was nothing to remove. -/
  | nothing
  deriving DecidableEq, Repr

/-- The item that the caller has after the call. -/
def Outcome.item {α : Type*} : Outcome α → Option α
  | .refused item | .got item => some item
  | .put | .nothing => none

/-- What a thread using an object can do. -/
inductive Action (Tid Op : Type*) where
  | call (t : Tid) (op : Op)
  | step (t : Tid) (choice : Bool)
  | ret (t : Tid)

/-- The next `n` instructions of one thread. -/
def Action.steps {Tid Op : Type*} (t : Tid) (n : ℕ) : List (Action Tid Op) :=
  List.replicate n (.step t false)

theorem update_eq_some {Tid L : Type*} [DecidableEq Tid] {l : Tid → Option L} {t u : Tid}
    {o : Option L} {y : L} (h : Function.update l t o u = some y) :
    (u = t ∧ o = some y) ∨ (u ≠ t ∧ l u = some y) := by
  by_cases hu : u = t
  · subst hu
    rw [Function.update_self] at h
    exact .inl ⟨rfl, h⟩
  · rw [Function.update_of_ne hu] at h
    exact .inr ⟨hu, h⟩

namespace Object

variable {Tid Op Res Shared Local : Type*} [DecidableEq Tid] (O : Object Op Res Shared Local)

/-- Any number of threads using the object; `may` says which operations a thread may call. -/
def client (may : Tid → Op → Bool) : System (Config Tid Shared Local) (Action Tid Op) where
  next c
    | .call t op =>
      match c.locals t with
      | none =>
        if may t op then
          some { c with locals := Function.update c.locals t (some (O.start op)) }
        else none
      | some _ => none
    | .step t choice =>
      match c.locals t with
      | none => none
      | some l =>
        match O.result l with
        | none =>
          let r := O.step choice c.shared l
          some ⟨r.1, Function.update c.locals t (some r.2)⟩
        | some _ => none
    | .ret t =>
      match c.locals t with
      | none => none
      | some l =>
        match O.result l with
        | none => none
        | some _ => some { c with locals := Function.update c.locals t none }

/-- The steps at which the moving thread's instruction satisfies `ok`. -/
def Guard (ok : Shared → Local → Prop) (c : Config Tid Shared Local) : Action Tid Op → Prop
  | .step t _ => ∀ l, c.locals t = some l → ok c.shared l
  | _ => True

instance (ok : Shared → Local → Prop) [∀ s x, Decidable (ok s x)] (c : Config Tid Shared Local)
    (a : Action Tid Op) : Decidable (Guard ok c a) :=
  match a with
  | .step t _ =>
    decidable_of_iff ((c.locals t).all (fun x => decide (ok c.shared x)) = true) (by
      cases h : c.locals t <;> simp [Guard, h])
  | .call _ _ => .isTrue trivial
  | .ret _ => .isTrue trivial

/-- A predicate kept by every call, every instruction that satisfies `ok`, and every return. -/
structure Inductive (may : Tid → Op → Bool) (ok : Shared → Local → Prop)
    (Inv : Shared → (Tid → Option Local) → Prop) : Prop where
  call : ∀ {s l t op}, Inv s l → l t = none → may t op → Inv s (Function.update l t (some (O.start op)))
  step : ∀ {s l t x} (b : Bool), Inv s l → l t = some x → O.result x = none → ok s x →
    Inv (O.step b s x).1 (Function.update l t (some (O.step b s x).2))
  ret : ∀ {s l t x r}, Inv s l → l t = some x → O.result x = some r → Inv s (Function.update l t none)

variable {O} {may : Tid → Op → Bool} {ok : Shared → Local → Prop}
  {Inv : Shared → (Tid → Option Local) → Prop}

section Next

variable {c c' : Config Tid Shared Local} {t : Tid}

theorem next_call {op : Op} (h : (O.client may).next c (.call t op) = some c') :
    c.locals t = none ∧ may t op = true ∧
      c' = { c with locals := Function.update c.locals t (some (O.start op)) } := by
  cases hl : c.locals t with
  | some _ => simp [client, hl] at h
  | none =>
    by_cases hm : may t op = true
    · simp only [client, hl, if_pos hm, Option.some.injEq] at h
      exact ⟨rfl, hm, h.symm⟩
    · simp [client, hl, hm] at h

theorem next_step {b : Bool} (h : (O.client may).next c (.step t b) = some c') :
    ∃ x, c.locals t = some x ∧ O.result x = none ∧
      c' = ⟨(O.step b c.shared x).1, Function.update c.locals t (some (O.step b c.shared x).2)⟩ := by
  cases hl : c.locals t with
  | none => simp [client, hl] at h
  | some x =>
    cases hr : O.result x with
    | some _ => simp [client, hl, hr] at h
    | none =>
      simp only [client, hl, hr, Option.some.injEq] at h
      exact ⟨x, rfl, hr, h.symm⟩

theorem next_ret (h : (O.client may).next c (.ret t) = some c') :
    ∃ x r, c.locals t = some x ∧ O.result x = some r ∧
      c' = { c with locals := Function.update c.locals t none } := by
  cases hl : c.locals t with
  | none => simp [client, hl] at h
  | some x =>
    cases hr : O.result x with
    | none => simp [client, hl, hr] at h
    | some r =>
      simp only [client, hl, hr, Option.some.injEq] at h
      exact ⟨x, r, rfl, hr, h.symm⟩

end Next

/-- An inductive predicate is kept by every admitted action of the client system. -/
theorem Inductive.next (h : O.Inductive may ok Inv) {c c' : Config Tid Shared Local}
    {a : Action Tid Op} (hc : Inv c.shared c.locals) (hok : Guard ok c a)
    (hn : (O.client may).next c a = some c') : Inv c'.shared c'.locals := by
  cases a with
  | call t op =>
    obtain ⟨hl, hm, rfl⟩ := next_call hn
    exact h.call hc hl hm
  | step t b =>
    obtain ⟨x, hl, hr, rfl⟩ := next_step hn
    exact h.step b hc hl hr (hok x hl)
  | ret t =>
    obtain ⟨x, r, hl, hr, rfl⟩ := next_ret hn
    exact h.ret hc hl hr

/-- An inductive predicate that holds initially holds after every admitted run. -/
theorem Inductive.reach (h : O.Inductive may ok Inv) {c₀ c : Config Tid Shared Local}
    (h0 : Inv c₀.shared c₀.locals) (hr : (O.client may).Reach (Guard ok) c₀ c) :
    Inv c.shared c.locals :=
  System.Reach.invariant (I := fun c => Inv c.shared c.locals) hr h0
    fun _ _ _ hc hok hn => h.next hc hok hn

/-- The same for all runs, when no instruction is excluded. -/
theorem Inductive.reachable (h : O.Inductive may (fun _ _ => True) Inv)
    {c₀ c : Config Tid Shared Local} (h0 : Inv c₀.shared c₀.locals)
    (hr : (O.client may).Reachable c₀ c) : Inv c.shared c.locals :=
  h.reach h0 (System.Reach.mono hr fun _ a _ => by cases a <;> simp [Guard])

/-- A thread whose operation, if any, is finished drops it and may begin another. -/
theorem Inductive.turn (h : O.Inductive may ok Inv) {s : Shared} {l : Tid → Option Local} {t : Tid}
    {o : Option Local} (hi : Inv s l) (hold : ∀ x, l t = some x → ∃ r, O.result x = some r)
    (hnew : ∀ y, o = some y → ∃ op, may t op = true ∧ y = O.start op) :
    Inv s (Function.update l t o) := by
  have hfree : Inv s (Function.update l t none) := by
    cases hl : l t with
    | none =>
      rw [← hl, Function.update_eq_self]
      exact hi
    | some x =>
      obtain ⟨r, hr⟩ := hold x hl
      exact h.ret hi hl hr
  cases o with
  | none => exact hfree
  | some y =>
    obtain ⟨op, hmay, rfl⟩ := hnew y rfl
    have hcall := h.call hfree (Function.update_self ..) hmay
    rw [Function.update_idem] at hcall
    exact hcall

theorem Inductive.mono {may' : Tid → Op → Bool} {ok' : Shared → Local → Prop}
    (h : O.Inductive may ok Inv) (hmay : ∀ t op, may' t op = true → may t op = true)
    (hok : ∀ s x, ok' s x → ok s x) : O.Inductive may' ok' Inv where
  call hi hl hm := h.call hi hl (hmay _ _ hm)
  step b hi hl hr ho := h.step b hi hl hr (hok _ _ ho)
  ret hi hl hr := h.ret hi hl hr

theorem Inductive.and {Inv' : Shared → (Tid → Option Local) → Prop} (h : O.Inductive may ok Inv)
    (h' : O.Inductive may ok Inv') : O.Inductive may ok fun s l => Inv s l ∧ Inv' s l where
  call hi hl hm := ⟨h.call hi.1 hl hm, h'.call hi.2 hl hm⟩
  step b hi hl hr ho := ⟨h.step b hi.1 hl hr ho, h'.step b hi.2 hl hr ho⟩
  ret hi hl hr := ⟨h.ret hi.1 hl hr, h'.ret hi.2 hl hr⟩

/-- What an operation of thread `t` keeps from its call on. -/
theorem inductive_of_locals {kind : Tid → Local → Prop}
    (hstart : ∀ t op, may t op = true → kind t (O.start op))
    (hstep : ∀ t b s x, kind t x → kind t (O.step b s x).2) :
    O.Inductive may ok fun _ l => ∀ t x, l t = some x → kind t x where
  call {s l t op} hi _ hm u x hx := by
    rcases update_eq_some hx with ⟨rfl, ho⟩ | ⟨_, hx⟩
    · exact Option.some.inj ho ▸ hstart u op hm
    · exact hi u x hx
  step {s l t x} b hi hl _ _ u y hy := by
    rcases update_eq_some hy with ⟨rfl, ho⟩ | ⟨_, hy⟩
    · exact Option.some.inj ho ▸ hstep u b s x (hi u x hl)
    · exact hi u y hy
  ret hi _ _ u y hy := by
    rcases update_eq_some hy with ⟨_, ho⟩ | ⟨_, hy⟩
    · cases ho
    · exact hi u y hy

/-! ## Operations in one step -/

section Atomic

/-- The object whose operations take effect in one instruction. -/
def atomic (exec : Bool → Shared → Op → Shared × Res) : Object Op Res Shared (Op ⊕ Res) where
  start := .inl
  step b s
    | .inl op => ((exec b s op).1, .inr (exec b s op).2)
    | .inr r => (s, .inr r)
  result := Sum.getRight?

end Atomic

/-! ## Operations that run alone -/

section Alone

variable (O)

omit [DecidableEq Tid]

/-- An operation that no other thread interrupts, for at most `n` instructions: the shared part
it leaves and its result. -/
def alone : ℕ → Shared → Local → Option (Shared × Res)
  | 0, s, x => (O.result x).map fun o => (s, o)
  | n + 1, s, x =>
    match O.result x with
    | some o => some (s, o)
    | none => alone n (O.step false s x).1 (O.step false s x).2

/-- The operation returns `o` and leaves `s'` when it runs alone. -/
def Returns (s : Shared) (x : Local) (s' : Shared) (o : Res) : Prop :=
  ∃ n, O.alone n s x = some (s', o)

variable {O}

theorem Returns.step {s s₁ s' : Shared} {x y : Local} {o : Res} (hx : O.result x = none)
    (hs : O.step false s x = (s₁, y)) (h : O.Returns s₁ y s' o) : O.Returns s x s' o := by
  obtain ⟨n, hn⟩ := h
  refine ⟨n + 1, ?_⟩
  rw [alone, hx]
  simp only [hs]
  exact hn

theorem Returns.done {s : Shared} {x : Local} {o : Res} (hx : O.result x = some o) :
    O.Returns s x s o :=
  ⟨0, by rw [alone, hx]; rfl⟩

/-- What an unfinished operation returns, it returns after its next instruction. -/
theorem Returns.next {s s₁ s' : Shared} {x y : Local} {o : Res} (h : O.Returns s x s' o)
    (hx : O.result x = none) (hs : O.step false s x = (s₁, y)) : O.Returns s₁ y s' o := by
  obtain ⟨n, hn⟩ := h
  cases n with
  | zero => simp [alone, hx] at hn
  | succ n =>
    rw [alone, hx] at hn
    simp only [hs] at hn
    exact ⟨n, hn⟩

theorem Returns.result {s s' : Shared} {x : Local} {o o' : Res} (h : O.Returns s x s' o)
    (hx : O.result x = some o') : s' = s ∧ o = o' := by
  obtain ⟨n, hn⟩ := h
  have hpair : (s, o') = (s', o) := by
    cases n <;> simpa [alone, hx] using hn
  obtain ⟨rfl, rfl⟩ := Prod.mk.inj hpair
  exact ⟨rfl, rfl⟩

theorem alone_succ {n : ℕ} {s : Shared} {x : Local} {a : Shared × Res}
    (h : O.alone n s x = some a) : O.alone (n + 1) s x = some a := by
  induction n generalizing s x with
  | zero =>
    cases hx : O.result x with
    | none => simp [alone, hx] at h
    | some o => simpa [alone, hx] using h
  | succ n ih =>
    rw [alone] at h ⊢
    cases hx : O.result x with
    | none =>
      rw [hx] at h
      exact ih h
    | some o =>
      rw [hx] at h
      exact h

theorem alone_mono {m n : ℕ} (hmn : m ≤ n) {s : Shared} {x : Local} {a : Shared × Res}
    (h : O.alone m s x = some a) : O.alone n s x = some a := by
  induction hmn with
  | refl => exact h
  | step _ ih => exact alone_succ ih

theorem Returns.unique {s s₁ s₂ : Shared} {x : Local} {o₁ o₂ : Res} (h₁ : O.Returns s x s₁ o₁)
    (h₂ : O.Returns s x s₂ o₂) : s₁ = s₂ ∧ o₁ = o₂ := by
  obtain ⟨m, hm⟩ := h₁
  obtain ⟨n, hn⟩ := h₂
  have h := alone_mono (Nat.le_max_left m n) hm
  rw [alone_mono (Nat.le_max_right m n) hn] at h
  simpa [Prod.mk.injEq, eq_comm] using h

/-- The operations return, one after the other, each running alone. -/
inductive Calls (O : Object Op Res Shared Local) : Shared → List Op → Shared → List Res → Prop
  | nil (s : Shared) : Calls O s [] s []
  | cons {s s₁ s' : Shared} {op : Op} {o : Res} {ops : List Op} {os : List Res} :
    O.Returns s (O.start op) s₁ o → Calls O s₁ ops s' os → Calls O s (op :: ops) s' (o :: os)

/-! ## Sequential specifications -/

section Refinement

variable {Abs : Type*}

/-- What a specification answers to a sequence of operations. -/
def answers (spec : Abs → Op → Abs × Res) : Abs → List Op → List Res
  | _, [] => []
  | a, op :: ops => (spec a op).2 :: answers spec (spec a op).1 ops

/-- What a specification has become after a sequence of operations. -/
def after (spec : Abs → Op → Abs × Res) : Abs → List Op → Abs
  | a, [] => a
  | a, op :: ops => after spec (spec a op).1 ops

/-- When each operation answers as the specification does and keeps the representation, every
sequence of operations does. -/
theorem Calls.of_rep {spec : Abs → Op → Abs × Res} {rep : Shared → Abs → Prop}
    (hop : ∀ s a op, rep s a →
      ∃ s', O.Returns s (O.start op) s' (spec a op).2 ∧ rep s' (spec a op).1)
    (ops : List Op) : ∀ {s : Shared} {a : Abs}, rep s a →
      ∃ s', O.Calls s ops s' (answers spec a ops) ∧ rep s' (after spec a ops) := by
  induction ops with
  | nil =>
    intro s a h
    exact ⟨s, .nil s, h⟩
  | cons op ops ih =>
    intro s a h
    obtain ⟨s₁, hret, h₁⟩ := hop s a op h
    obtain ⟨s', hcalls, h'⟩ := ih h₁
    exact ⟨s', .cons hret hcalls, h'⟩

end Refinement

end Alone

end Object

end LowLatency.Concurrency
