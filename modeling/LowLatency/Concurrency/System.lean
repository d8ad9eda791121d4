import Mathlib.Algebra.Ring.Nat
import Mathlib.Logic.Relation
import Mathlib.Tactic.TypeStar

/-!
# Transition systems

An interleaved program is a `System`: an action names the thread that moves and settles every
choice left to it, so that a state and an action have at most one successor. `Reach ok` collects
the states of the runs whose steps all satisfy `ok`; `Reachable` those of all runs. An invariant
is proved once for `Reach` (`Reach.invariant`).
-/

namespace LowLatency.Concurrency

/-- A transition system; an action is enabled when it has a successor. -/
structure System (σ A : Type*) where
  next : σ → A → Option σ

namespace System

variable {σ A : Type*} (S : System σ A)

/-- One step that satisfies `ok`. -/
def Step (ok : σ → A → Prop) (s s' : σ) : Prop := ∃ a, ok s a ∧ S.next s a = some s'

/-- The states of the runs from `s₀` whose steps all satisfy `ok`. -/
def Reach (ok : σ → A → Prop) (s₀ s : σ) : Prop := Relation.ReflTransGen (S.Step ok) s₀ s

/-- The states of all runs from `s₀`. -/
def Reachable (s₀ s : σ) : Prop := S.Reach (fun _ _ => True) s₀ s

/-- The states of the runs whose states all satisfy `fits` and whose steps all satisfy `ok`. -/
def ReachWithin (fits : σ → Prop) (ok : σ → A → Prop) (s₀ s : σ) : Prop :=
  S.Reach (fun s a => fits s ∧ ok s a) s₀ s ∧ fits s

section Schedules

variable (ok : σ → A → Prop) [∀ s a, Decidable (ok s a)]

/-- The state a schedule leads to, provided each of its actions is enabled and satisfies `ok`. -/
def runWhile (s : σ) : List A → Option σ
  | [] => some s
  | a :: as => if ok s a then (S.next s a).bind fun s' => runWhile s' as else none

end Schedules

/-- The state a schedule leads to, provided each of its actions is enabled. -/
def run (s : σ) (as : List A) : Option σ := S.runWhile (fun _ _ => True) s as

@[simp] theorem run_nil (s : σ) : S.run s [] = some s := rfl

@[simp] theorem run_cons (s : σ) (a : A) (as : List A) :
    S.run s (a :: as) = (S.next s a).bind fun s' => S.run s' as := by
  rw [run, runWhile, if_pos trivial]
  rfl

/-- The induction is on the first schedule. -/
theorem run_append (s : σ) (as bs : List A) :
    S.run s (as ++ bs) = (S.run s as).bind fun s' => S.run s' bs := by
  induction as generalizing s with
  | nil => rfl
  | cons a as ih =>
    rw [List.cons_append, run_cons, run_cons, Option.bind_assoc]
    exact congrArg _ (funext ih)

variable {S} {ok ok' : σ → A → Prop} {s₀ s s' : σ}

theorem Reach.refl : S.Reach ok s s := Relation.ReflTransGen.refl

theorem Reach.trans (h : S.Reach ok s₀ s) (h' : S.Reach ok s s') : S.Reach ok s₀ s' :=
  Relation.ReflTransGen.trans h h'

theorem Reach.tail {a : A} (h : S.Reach ok s₀ s) (hok : ok s a) (hn : S.next s a = some s') :
    S.Reach ok s₀ s' :=
  Relation.ReflTransGen.tail h ⟨a, hok, hn⟩

theorem Reach.mono (h : S.Reach ok s₀ s) (himp : ∀ s a, ok s a → ok' s a) :
    S.Reach ok' s₀ s :=
  Relation.ReflTransGen.mono (fun _ _ ⟨a, ha, hn⟩ => ⟨a, himp _ _ ha, hn⟩) _ _ h

theorem Reach.reachable (h : S.Reach ok s₀ s) : S.Reachable s₀ s :=
  h.mono fun _ _ _ => trivial

theorem ReachWithin.reach {fits : σ → Prop} (h : S.ReachWithin fits ok s₀ s) : S.Reach ok s₀ s :=
  h.1.mono fun _ _ hok => hok.2

/-- What holds initially and is kept by every admitted step holds in every reached state. -/
theorem Reach.invariant {I : σ → Prop} (h : S.Reach ok s₀ s) (h0 : I s₀)
    (hstep : ∀ s a s', I s → ok s a → S.next s a = some s' → I s') : I s := by
  induction h with
  | refl => exact h0
  | tail _ hs ih =>
    obtain ⟨a, hok, hn⟩ := hs
    exact hstep _ a _ ih hok hn

theorem Reachable.invariant {I : σ → Prop} (h : S.Reachable s₀ s) (h0 : I s₀)
    (hstep : ∀ s a s', I s → S.next s a = some s' → I s') : I s :=
  Reach.invariant h h0 fun s a s' hs _ hn => hstep s a s' hs hn

theorem reach_of_runWhile [∀ s a, Decidable (ok s a)] {as : List A}
    (h : S.runWhile ok s as = some s') : S.Reach ok s s' := by
  induction as generalizing s with
  | nil =>
    rw [runWhile, Option.some.injEq] at h
    exact h ▸ Reach.refl
  | cons a as ih =>
    rw [runWhile] at h
    by_cases hok : ok s a
    · rw [if_pos hok, Option.bind_eq_some_iff] at h
      obtain ⟨u, hu, hrest⟩ := h
      exact (Reach.refl.tail hok hu).trans (ih hrest)
    · rw [if_neg hok] at h
      cases h

/-! ## Records of a run -/

/-- The system beside a record of the events of its run, which no step reads. -/
def record {E : Type*} (S : System σ A) (event : σ → A → Option E) : System (σ × List E) A where
  next s a := (S.next s.1 a).map fun s' => (s', s.2 ++ (event s.1 a).toList)

theorem next_record {E : Type*} {event : σ → A → Option E} {s s' : σ × List E} {a : A}
    (h : (S.record event).next s a = some s') :
    S.next s.1 a = some s'.1 ∧ s'.2 = s.2 ++ (event s.1 a).toList := by
  obtain ⟨u, hu, rfl⟩ := Option.map_eq_some_iff.mp h
  exact ⟨hu, rfl⟩

theorem reachable_of_run {as : List A} (h : S.run s as = some s') : S.Reachable s s' :=
  reach_of_runWhile h

end System

/-! Schedules number their threads: the numerals of `Fin 1` and `Fin 2`. -/

instance neZero_one : NeZero 1 := ⟨Nat.one_ne_zero⟩

instance neZero_two : NeZero 2 := ⟨Nat.succ_ne_zero 1⟩

end LowLatency.Concurrency
