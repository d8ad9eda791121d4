import LowLatency.Concurrency.Object

/-!
# Store buffers

A `Program` is the code of the operations of a shared data structure in instructions of x86: loads,
plain stores, and locked instructions and fences. Under x86-TSO the plain stores of a thread wait in
a buffer of their own, from which they reach memory in order and at any time (`flush`); a load sees
the own pending stores, and a locked instruction waits until there are none.

`sequential` is the same program with stores that take effect at once.
-/

namespace LowLatency.Concurrency

/-- The next instruction of an operation. -/
inductive Instr (Mem Store Local : Type*) where
  | load (f : Mem → Local)
  | store (f : Mem → Store × Local)
  /-- A locked instruction or a fence. -/
  | locked (f : Mem → Mem × Local)

/-- The operations of a shared data structure; `apply` is the arrival of a store in memory. -/
structure Program (Op Res Mem Store Local : Type*) where
  start : Op → Local
  instr : Local → Instr Mem Store Local
  apply : Mem → Store → Mem
  result : Local → Option Res

namespace Program

/-- Memory, the stores of every thread that have not reached it, oldest first, and the registers of
the operations in progress. -/
structure Config (Tid Mem Store Local : Type*) where
  mem : Mem
  pending : Tid → List Store
  locals : Tid → Option Local

/-- No operation is in progress and nothing is pending yet. -/
def Config.new {Mem : Type*} (Tid Store Local : Type*) (m : Mem) : Config Tid Mem Store Local :=
  ⟨m, fun _ => [], fun _ => none⟩

/-- What can happen: a thread moves, or the oldest of its pending stores reaches memory. -/
inductive Action (Tid Op : Type*) where
  | call (t : Tid) (op : Op)
  | step (t : Tid)
  | flush (t : Tid)
  | ret (t : Tid)

/-- The next `n` instructions of one thread. -/
def Action.steps {Tid Op : Type*} (t : Tid) (n : ℕ) : List (Action Tid Op) :=
  List.replicate n (.step t)

variable {Tid Op Res Mem Store Local : Type*} (P : Program Op Res Mem Store Local)

/-- What a thread with the given pending stores sees. -/
def view (m : Mem) (buf : List Store) : Mem := buf.foldl P.apply m

@[simp] theorem view_nil (m : Mem) : P.view m [] = m := rfl

@[simp] theorem view_cons (m : Mem) (st : Store) (buf : List Store) :
    P.view m (st :: buf) = P.view (P.apply m st) buf := rfl

@[simp] theorem view_concat (m : Mem) (buf : List Store) (st : Store) :
    P.view m (buf ++ [st]) = P.apply (P.view m buf) st := by
  rw [view, view, List.foldl_append]
  rfl

/-- The program when stores take effect at once. -/
def sequential : Object Op Res Mem Local where
  start := P.start
  step _ m x :=
    match P.instr x with
    | .load f => (m, f m)
    | .store f => (P.apply m (f m).1, (f m).2)
    | .locked f => f m
  result := P.result

variable [DecidableEq Tid]

/-- Any number of threads running the program; `may` says which operations a thread may call. -/
def client (may : Tid → Op → Bool) : System (Config Tid Mem Store Local) (Action Tid Op) where
  next c
    | .call t op =>
      match c.locals t with
      | none =>
        if may t op then
          some { c with locals := Function.update c.locals t (some (P.start op)) }
        else none
      | some _ => none
    | .step t =>
      match c.locals t with
      | none => none
      | some x =>
        match P.result x with
        | some _ => none
        | none =>
          let m := P.view c.mem (c.pending t)
          match P.instr x with
          | .load f => some { c with locals := Function.update c.locals t (some (f m)) }
          | .store f =>
            some ⟨c.mem, Function.update c.pending t (c.pending t ++ [(f m).1]),
              Function.update c.locals t (some (f m).2)⟩
          | .locked f =>
            match c.pending t with
            | [] => some ⟨(f m).1, c.pending, Function.update c.locals t (some (f m).2)⟩
            | _ :: _ => none
    | .flush t =>
      match c.pending t with
      | [] => none
      | st :: buf =>
        some { c with mem := P.apply c.mem st, pending := Function.update c.pending t buf }
    | .ret t =>
      match c.locals t with
      | none => none
      | some x =>
        match P.result x with
        | none => none
        | some _ => some { c with locals := Function.update c.locals t none }

/-- The steps at which the moving thread's instruction satisfies `ok`. -/
def Guard (ok : Mem → List Store → Local → Prop) (c : Config Tid Mem Store Local) :
    Action Tid Op → Prop
  | .step t => ∀ x, c.locals t = some x → ok c.mem (c.pending t) x
  | _ => True

instance (ok : Mem → List Store → Local → Prop) [∀ m p x, Decidable (ok m p x)]
    (c : Config Tid Mem Store Local) (a : Action Tid Op) : Decidable (Guard ok c a) :=
  match a with
  | .step t =>
    decidable_of_iff ((c.locals t).all (fun x => decide (ok c.mem (c.pending t) x)) = true) (by
      cases h : c.locals t <;> simp [Guard, h])
  | .call _ _ => .isTrue trivial
  | .flush _ => .isTrue trivial
  | .ret _ => .isTrue trivial

/-- A predicate kept by everything that can happen, as long as the instructions satisfy `ok`. -/
structure Inductive (may : Tid → Op → Bool) (ok : Mem → List Store → Local → Prop)
    (Inv : Mem → (Tid → List Store) → (Tid → Option Local) → Prop) : Prop where
  call : ∀ {m p l t op}, Inv m p l → l t = none → may t op = true →
    Inv m p (Function.update l t (some (P.start op)))
  load : ∀ {m p l t x f}, Inv m p l → l t = some x → P.result x = none → P.instr x = .load f →
    ok m (p t) x → Inv m p (Function.update l t (some (f (P.view m (p t)))))
  store : ∀ {m p l t x f}, Inv m p l → l t = some x → P.result x = none → P.instr x = .store f →
    ok m (p t) x → Inv m (Function.update p t (p t ++ [(f (P.view m (p t))).1]))
      (Function.update l t (some (f (P.view m (p t))).2))
  locked : ∀ {m p l t x f}, Inv m p l → l t = some x → P.result x = none → P.instr x = .locked f →
    p t = [] → ok m (p t) x → Inv (f m).1 p (Function.update l t (some (f m).2))
  flush : ∀ {m p l t st buf}, Inv m p l → p t = st :: buf →
    Inv (P.apply m st) (Function.update p t buf) l
  ret : ∀ {m p l t x r}, Inv m p l → l t = some x → P.result x = some r →
    Inv m p (Function.update l t none)

variable {P} {may : Tid → Op → Bool} {ok : Mem → List Store → Local → Prop}
  {Inv : Mem → (Tid → List Store) → (Tid → Option Local) → Prop}

section Next

variable {c c' : Config Tid Mem Store Local} {t : Tid}

theorem next_call {op : Op} (h : (P.client may).next c (.call t op) = some c') :
    c.locals t = none ∧ may t op = true ∧
      c' = { c with locals := Function.update c.locals t (some (P.start op)) } := by
  cases hl : c.locals t with
  | some _ => simp [client, hl] at h
  | none =>
    by_cases hm : may t op = true
    · simp only [client, hl, if_pos hm, Option.some.injEq] at h
      exact ⟨rfl, hm, h.symm⟩
    · simp [client, hl, hm] at h

theorem next_step (h : (P.client may).next c (.step t) = some c') :
    ∃ x, c.locals t = some x ∧ P.result x = none ∧
      ((∃ f, P.instr x = .load f ∧ c' = { c with
          locals := Function.update c.locals t (some (f (P.view c.mem (c.pending t)))) }) ∨
      (∃ f, P.instr x = .store f ∧ c' = ⟨c.mem,
          Function.update c.pending t (c.pending t ++ [(f (P.view c.mem (c.pending t))).1]),
          Function.update c.locals t (some (f (P.view c.mem (c.pending t))).2)⟩) ∨
      (∃ f, P.instr x = .locked f ∧ c.pending t = [] ∧
        c' = ⟨(f c.mem).1, c.pending, Function.update c.locals t (some (f c.mem).2)⟩)) := by
  cases hl : c.locals t with
  | none => simp [client, hl] at h
  | some x =>
    refine ⟨x, rfl, ?_⟩
    cases hr : P.result x with
    | some _ => simp [client, hl, hr] at h
    | none =>
      refine ⟨rfl, ?_⟩
      cases hi : P.instr x with
      | load f =>
        simp only [client, hl, hr, hi, Option.some.injEq] at h
        exact .inl ⟨f, rfl, h.symm⟩
      | store f =>
        simp only [client, hl, hr, hi, Option.some.injEq] at h
        exact .inr (.inl ⟨f, rfl, h.symm⟩)
      | locked f =>
        cases hp : c.pending t with
        | cons _ _ => simp [client, hl, hr, hi, hp] at h
        | nil =>
          simp only [client, hl, hr, hi, hp, view_nil, Option.some.injEq] at h
          exact .inr (.inr ⟨f, rfl, rfl, h.symm⟩)

theorem next_flush (h : (P.client may).next c (.flush t) = some c') :
    ∃ st buf, c.pending t = st :: buf ∧
      c' = { c with mem := P.apply c.mem st, pending := Function.update c.pending t buf } := by
  cases hp : c.pending t with
  | nil => simp [client, hp] at h
  | cons st buf =>
    simp only [client, hp, Option.some.injEq] at h
    exact ⟨st, buf, rfl, h.symm⟩

theorem next_ret (h : (P.client may).next c (.ret t) = some c') :
    ∃ x r, c.locals t = some x ∧ P.result x = some r ∧
      c' = { c with locals := Function.update c.locals t none } := by
  cases hl : c.locals t with
  | none => simp [client, hl] at h
  | some x =>
    cases hr : P.result x with
    | none => simp [client, hl, hr] at h
    | some r =>
      simp only [client, hl, hr, Option.some.injEq] at h
      exact ⟨x, r, rfl, hr, h.symm⟩

end Next

/-- An inductive predicate is kept by every admitted action. -/
theorem Inductive.next (h : P.Inductive may ok Inv) {c c' : Config Tid Mem Store Local}
    {a : Action Tid Op} (hc : Inv c.mem c.pending c.locals) (hok : Guard ok c a)
    (hn : (P.client may).next c a = some c') : Inv c'.mem c'.pending c'.locals := by
  cases a with
  | call t op =>
    obtain ⟨hl, hm, rfl⟩ := next_call hn
    exact h.call hc hl hm
  | step t =>
    obtain ⟨x, hl, hr, ⟨f, hi, rfl⟩ | ⟨f, hi, rfl⟩ | ⟨f, hi, hp, rfl⟩⟩ := next_step hn
    · exact h.load hc hl hr hi (hok x hl)
    · exact h.store hc hl hr hi (hok x hl)
    · exact h.locked hc hl hr hi hp (hok x hl)
  | flush t =>
    obtain ⟨st, buf, hp, rfl⟩ := next_flush hn
    exact h.flush hc hp
  | ret t =>
    obtain ⟨x, r, hl, hr, rfl⟩ := next_ret hn
    exact h.ret hc hl hr

/-- An inductive predicate that holds initially holds after every admitted run. -/
theorem Inductive.reach (h : P.Inductive may ok Inv) {c₀ c : Config Tid Mem Store Local}
    (h0 : Inv c₀.mem c₀.pending c₀.locals) (hr : (P.client may).Reach (Guard ok) c₀ c) :
    Inv c.mem c.pending c.locals :=
  System.Reach.invariant (I := fun c => Inv c.mem c.pending c.locals) hr h0
    fun _ _ _ hc hok hn => h.next hc hok hn

/-- The same for all runs, when no instruction is excluded. -/
theorem Inductive.reachable (h : P.Inductive may (fun _ _ _ => True) Inv)
    {c₀ c : Config Tid Mem Store Local} (h0 : Inv c₀.mem c₀.pending c₀.locals)
    (hr : (P.client may).Reachable c₀ c) : Inv c.mem c.pending c.locals :=
  h.reach h0 (System.Reach.mono hr fun _ a _ => by cases a <;> simp [Guard])

end Program

end LowLatency.Concurrency
