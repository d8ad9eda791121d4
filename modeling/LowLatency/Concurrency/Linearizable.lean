import LowLatency.Concurrency.Object

/-!
# Linearizability

The callers of an object see a history of calls and returns (`Object.event`). It is linearizable when
it is a history of the atomic object of a specification, on which every operation takes effect in one
step between its call and its return (`Spec.Explains`). A specification may look at the operations in
progress: an operation may be allowed to fail because another one is halfway through.

`Simulation` is the rule by which an object is shown linearizable: its steps simulate the effects of
the atomic object.
-/

namespace LowLatency.Concurrency

/-- What the callers of an object see of a run. -/
inductive Event (Tid Op Res : Type*) where
  | call (t : Tid) (op : Op)
  | ret (t : Tid) (res : Res)
  deriving DecidableEq

/-- How far an operation on the atomic object has come. -/
inductive Stage (Op Res : Type*) where
  /-- It has been called. -/
  | called (op : Op)
  /-- It has taken effect. -/
  | settled (res : Res)

/-- What an object is for: `effect st a op res a'` says that `op` may take effect on the value `a`, with
the result `res` and the new value `a'`, while the operations `st` are in progress. -/
structure Spec (Tid Op Res Abs : Type*) where
  init : Abs
  effect : (Tid → Option (Stage Op Res)) → Abs → Op → Res → Abs → Prop

namespace Spec

variable {Tid Op Res Abs : Type*}

/-- The specification of an object used by one caller at a time. -/
def exact (init : Abs) (f : Abs → Op → Abs × Res) : Spec Tid Op Res Abs where
  init := init
  effect _ a op res a' := f a op = (a', res)

variable [DecidableEq Tid]

/-- The atomic object may have this history; it then has this value, and these operations are in
progress. -/
inductive Explains (S : Spec Tid Op Res Abs) :
    Abs → (Tid → Option (Stage Op Res)) → List (Event Tid Op Res) → Prop
  | nil : Explains S S.init (fun _ => none) []
  | call {a st H t} (op : Op) : Explains S a st H → st t = none →
    Explains S a (Function.update st t (some (.called op))) (H ++ [.call t op])
  | effect {a a' st H t op res} : Explains S a st H → st t = some (.called op) →
    S.effect st a op res a' → Explains S a' (Function.update st t (some (.settled res))) H
  | ret {a st H t res} : Explains S a st H → st t = some (.settled res) →
    Explains S a (Function.update st t none) (H ++ [.ret t res])

/-- The history is one of the atomic object. -/
def Linearizable (S : Spec Tid Op Res Abs) (H : List (Event Tid Op Res)) : Prop :=
  ∃ a st, S.Explains a st H

end Spec

namespace Object

variable {Tid Op Res Shared Local Abs : Type*} [DecidableEq Tid] (O : Object Op Res Shared Local)

/-- The event of an action of the client system. -/
def event (c : Config Tid Shared Local) : Action Tid Op → Option (Event Tid Op Res)
  | .call t op => some (.call t op)
  | .step _ _ => none
  | .ret t => (c.locals t).bind fun x => (O.result x).map (.ret t)

/-- The client system beside its history. -/
abbrev history (may : Tid → Op → Bool) :
    System (Config Tid Shared Local × List (Event Tid Op Res)) (Action Tid Op) :=
  (O.client may).record O.event

/-- The operations of the object take effect on the specification as `Rel` relates the two. -/
structure Simulation (may : Tid → Op → Bool) (ok : Shared → Local → Prop)
    (S : Spec Tid Op Res Abs)
    (Rel : Shared → (Tid → Option Local) → Abs → (Tid → Option (Stage Op Res)) → Prop) : Prop where
  call : ∀ {s l a st t op}, Rel s l a st → l t = none → may t op = true → st t = none ∧
    Rel s (Function.update l t (some (O.start op))) a (Function.update st t (some (.called op)))
  step : ∀ {s l a st t x} (b : Bool), Rel s l a st → l t = some x → O.result x = none → ok s x →
    Rel (O.step b s x).1 (Function.update l t (some (O.step b s x).2)) a st ∨
      ∃ op res a', st t = some (.called op) ∧ S.effect st a op res a' ∧
        Rel (O.step b s x).1 (Function.update l t (some (O.step b s x).2)) a'
          (Function.update st t (some (.settled res)))
  ret : ∀ {s l a st t x res}, Rel s l a st → l t = some x → O.result x = some res →
    st t = some (.settled res) ∧ Rel s (Function.update l t none) a (Function.update st t none)

variable {O} {may : Tid → Op → Bool} {ok : Shared → Local → Prop} {S : Spec Tid Op Res Abs}
  {Rel : Shared → (Tid → Option Local) → Abs → (Tid → Option (Stage Op Res)) → Prop}

/-- One action: the atomic object follows. -/
theorem Simulation.next (h : O.Simulation may ok S Rel) {p p' : Config Tid Shared Local ×
    List (Event Tid Op Res)} {act : Action Tid Op} (hok : Guard ok p.1 act)
    (hn : (O.history may).next p act = some p')
    (hp : ∃ a st, S.Explains a st p.2 ∧ Rel p.1.shared p.1.locals a st) :
    ∃ a st, S.Explains a st p'.2 ∧ Rel p'.1.shared p'.1.locals a st := by
  obtain ⟨hc, hH⟩ := System.next_record hn
  obtain ⟨a, st, hexp, hrel⟩ := hp
  rw [hH]
  cases act with
  | call t op =>
    obtain ⟨hl, hm, hc⟩ := next_call hc
    obtain ⟨hst, hrel⟩ := h.call hrel hl hm
    rw [hc]
    exact ⟨a, _, hexp.call op hst, hrel⟩
  | step t b =>
    obtain ⟨x, hl, hr, hc⟩ := next_step hc
    have hH : (O.event p.1 (.step t b)).toList = ([] : List (Event Tid Op Res)) := rfl
    rw [hc, hH, List.append_nil]
    rcases h.step b hrel hl hr (hok x hl) with hrel | ⟨op, res, a', hst, heff, hrel⟩
    · exact ⟨a, st, hexp, hrel⟩
    · exact ⟨a', _, hexp.effect hst heff, hrel⟩
  | ret t =>
    obtain ⟨x, res, hl, hr, hc⟩ := next_ret hc
    obtain ⟨hst, hrel⟩ := h.ret hrel hl hr
    have hH : (O.event p.1 (.ret t)).toList = [Event.ret t res] := by
      simp only [event, hl, Option.bind_some, hr, Option.map_some, Option.toList_some]
    rw [hc, hH]
    exact ⟨a, _, hexp.ret hst, hrel⟩

/-- The histories of an object that simulates the specification are linearizable. -/
theorem Simulation.linearizable (h : O.Simulation may ok S Rel) {c₀ : Config Tid Shared Local}
    (h0 : Rel c₀.shared c₀.locals S.init fun _ => none)
    {p : Config Tid Shared Local × List (Event Tid Op Res)}
    (hr : (O.history may).Reach (fun p act => Guard ok p.1 act) (c₀, []) p) :
    S.Linearizable p.2 := by
  have hexp := System.Reach.invariant
    (I := fun p => ∃ a st, S.Explains a st p.2 ∧ Rel p.1.shared p.1.locals a st) hr
    ⟨S.init, _, .nil, h0⟩ fun _ _ _ hp hok hn => h.next hok hn hp
  obtain ⟨a, st, hexp, _⟩ := hexp
  exact ⟨a, st, hexp⟩

/-! ## Operations that tell their stage -/

/-- Each operation in progress is at the stage that its registers tell. -/
def Told (tells : Local → Stage Op Res → Prop) (l : Tid → Option Local)
    (st : Tid → Option (Stage Op Res)) : Prop :=
  ∀ t, Option.Rel tells (l t) (st t)

section Told

variable {tells tells' : Local → Stage Op Res → Prop} {l : Tid → Option Local}
  {st : Tid → Option (Stage Op Res)} {t : Tid} {x : Local}

omit [DecidableEq Tid] in
theorem Told.idle (h : Told tells l st) (hl : l t = none) : st t = none := by
  have ht := h t
  rw [hl] at ht
  cases hst : st t with
  | none => rfl
  | some g =>
    rw [hst] at ht
    cases ht

omit [DecidableEq Tid] in
theorem Told.busy (h : Told tells l st) (hl : l t = some x) : ∃ g, st t = some g ∧ tells x g := by
  have ht := h t
  rw [hl] at ht
  cases hst : st t with
  | none =>
    rw [hst] at ht
    cases ht
  | some g =>
    rw [hst] at ht
    cases ht with
    | some hg => exact ⟨g, rfl, hg⟩

theorem Told.update (h : Told tells l st) {o : Option Local} {g : Option (Stage Op Res)}
    (ho : Option.Rel tells' o g)
    (hothers : ∀ u y g, u ≠ t → l u = some y → tells y g → tells' y g) :
    Told tells' (Function.update l t o) (Function.update st t g) := by
  intro u
  by_cases hu : u = t
  · subst hu
    rw [Function.update_self, Function.update_self]
    exact ho
  · rw [Function.update_of_ne hu, Function.update_of_ne hu]
    cases hl : l u with
    | none =>
      rw [h.idle hl]
      exact .none
    | some y =>
      obtain ⟨g, hg, hy⟩ := h.busy hl
      rw [hg]
      exact .some (hothers u y g hu hl hy)

theorem Told.stay (h : Told tells l st) {y : Local} {g : Stage Op Res} (hst : st t = some g)
    (hy : tells' y g) (hothers : ∀ u y g, u ≠ t → l u = some y → tells y g → tells' y g) :
    Told tells' (Function.update l t (some y)) st := by
  have hup := h.update (t := t) (o := some y) (g := some g) (.some hy) hothers
  rwa [← hst, Function.update_eq_self] at hup

end Told

end Object

end LowLatency.Concurrency
