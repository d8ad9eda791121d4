import Mathlib.Data.List.Basic
import LowLatency.Concurrency.System

/-!
# Snapshots

A function that loads two members of a running system, one after the other, and computes its answer
from the two values. Any number of steps may lie between the loads. `observed` is the system beside
a thread that calls such functions; it notes the states of a call, which no load reads, so that one
can say of an answer that it was true at some moment of the call. `exists_loads` is what a proof about
an answer starts from.
-/

namespace LowLatency.Concurrency

/-- What a function loads first and second, and what it answers. -/
structure Probe (σ V R : Type*) where
  first : σ → V
  second : σ → V
  answer : V → V → R

/-- The observing thread: the function it has called, the value loaded, and the states of the call. -/
inductive Observer (σ K V R : Type*) where
  | resting
  | loaded (k : K) (v : V) (seen : List σ)
  | answered (k : K) (res : R) (seen : List σ)

/-- A step of the system, or of the observing thread. -/
inductive Probing (A K : Type*) where
  | step (a : A)
  /-- A call, up to its first load. -/
  | call (k : K)
  /-- The second load. -/
  | load
  | ret

namespace Observer

variable {σ K V R : Type*}

/-- The call goes on in state `s`. -/
def see (s : σ) : Observer σ K V R → Observer σ K V R
  | .loaded k v seen => .loaded k v (seen ++ [s])
  | o => o

/-- The call of `k` answered `res`, and `test` held at each moment of it. -/
def throughout [DecidableEq K] [DecidableEq R] (k : K) (res : R) (test : σ → Bool) :
    Observer σ K V R → Bool
  | .answered k' res' seen => decide (k' = k) && decide (res' = res) && seen.all test
  | _ => false

theorem exists_of_throughout [DecidableEq K] [DecidableEq R] {k : K} {res : R} {test : σ → Bool}
    {o : Observer σ K V R} (h : o.throughout k res test = true) :
    ∃ seen, o = .answered k res seen ∧ ∀ s ∈ seen, test s = true := by
  cases o with
  | answered k' res' seen =>
    simp only [throughout, Bool.and_eq_true, decide_eq_true_eq, List.all_eq_true] at h
    obtain ⟨⟨rfl, rfl⟩, hall⟩ := h
    exact ⟨seen, rfl, hall⟩
  | _ => cases h

end Observer

namespace System

variable {σ A K V R : Type*} (S : System σ A) (probe : K → Probe σ V R)

/-- The system beside an observing thread. -/
def observed : System (σ × Observer σ K V R) (Probing A K) where
  next c
    | .step a => (S.next c.1 a).map fun s' => (s', c.2.see s')
    | .call k =>
      match c.2 with
      | .resting => some (c.1, .loaded k ((probe k).first c.1) [c.1])
      | _ => none
    | .load =>
      match c.2 with
      | .loaded k v seen => some (c.1, .answered k ((probe k).answer v ((probe k).second c.1)) seen)
      | _ => none
    | .ret =>
      match c.2 with
      | .answered _ _ _ => some (c.1, .resting)
      | _ => none

variable {S probe} {ok : σ × Observer σ K V R → Probing A K → Prop} {okStep : σ → A → Prop}
  {s₀ : σ}

/-- How the observing thread got where it is. -/
def Traced (S : System σ A) (probe : K → Probe σ V R)
    (ok : σ × Observer σ K V R → Probing A K → Prop) (okStep : σ → A → Prop) (s₀ s : σ) :
    Observer σ K V R → Prop
  | .resting => True
  | .loaded k v seen => ∃ s₁, seen.head? = some s₁ ∧ seen.getLast? = some s ∧
      S.Reach okStep s₀ s₁ ∧ S.Reach okStep s₁ s ∧ v = (probe k).first s₁
  | .answered k res seen => ∃ s₁ s₂, seen.head? = some s₁ ∧ seen.getLast? = some s₂ ∧
      S.Reach okStep s₀ s₁ ∧ S.Reach okStep s₁ s₂ ∧
        res = (probe k).answer ((probe k).first s₁) ((probe k).second s₂) ∧
          ok (s₂, .loaded k ((probe k).first s₁) seen) .load

theorem Traced.next {c c' : σ × Observer σ K V R} {a : Probing A K}
    (hstep : ∀ c a, ok c (.step a) → okStep c.1 a) (hreach : S.Reach okStep s₀ c.1)
    (h : Traced S probe ok okStep s₀ c.1 c.2) (hok : ok c a)
    (hn : (S.observed probe).next c a = some c') :
    S.Reach okStep s₀ c'.1 ∧ Traced S probe ok okStep s₀ c'.1 c'.2 := by
  obtain ⟨s, o⟩ := c
  cases a with
  | step a =>
    obtain ⟨s', hs, rfl⟩ := Option.map_eq_some_iff.mp hn
    have hmove : S.Reach okStep s s' := Reach.refl.tail (hstep _ _ hok) hs
    refine ⟨hreach.trans hmove, ?_⟩
    cases o with
    | resting => trivial
    | loaded k v seen =>
      obtain ⟨s₁, hhead, -, hreach₁, hrest, hv⟩ := h
      refine ⟨s₁, ?_, List.getLast?_concat .., hreach₁, hrest.trans hmove, hv⟩
      rw [List.head?_append, hhead]
      rfl
    | answered => exact h
  | call k =>
    cases o with
    | resting =>
      cases hn
      exact ⟨hreach, s, rfl, rfl, hreach, Reach.refl, rfl⟩
    | _ => cases hn
  | load =>
    cases o with
    | loaded k v seen =>
      cases hn
      obtain ⟨s₁, hhead, hlast, hreach₁, hrest, rfl⟩ := h
      exact ⟨hreach, s₁, s, hhead, hlast, hreach₁, hrest, rfl, hok⟩
    | _ => cases hn
  | ret =>
    cases o with
    | answered =>
      cases hn
      exact ⟨hreach, trivial⟩
    | _ => cases hn

/-- An answer comes from the loads in the first and the last state of its call. -/
theorem exists_loads {s : σ} {k : K} {res : R} {seen : List σ}
    (hstep : ∀ c a, ok c (.step a) → okStep c.1 a)
    (h : (S.observed probe).Reach ok (s₀, .resting) (s, .answered k res seen)) :
    ∃ s₁ s₂, seen.head? = some s₁ ∧ seen.getLast? = some s₂ ∧
      S.Reach okStep s₀ s₁ ∧ S.Reach okStep s₁ s₂ ∧
      res = (probe k).answer ((probe k).first s₁) ((probe k).second s₂) ∧
        ok (s₂, .loaded k ((probe k).first s₁) seen) .load := by
  have hstart : S.Reach okStep s₀ s₀ ∧
      Traced S probe ok okStep s₀ s₀ (.resting : Observer σ K V R) := ⟨Reach.refl, trivial⟩
  have htraced := Reach.invariant
    (I := fun c => S.Reach okStep s₀ c.1 ∧ Traced S probe ok okStep s₀ c.1 c.2) h hstart
    fun _ _ _ hi hok hn => Traced.next hstep hi.1 hi.2 hok hn
  exact htraced.2

/-- A schedule in which a call answers, and what holds throughout the call. -/
theorem exists_answered [DecidableEq K] [DecidableEq R] [∀ c a, Decidable (ok c a)] {k : K}
    {res : R} {test : σ → Bool} {as : List (Probing A K)}
    (h : (((S.observed probe).runWhile ok (s₀, .resting) as).map fun c =>
      c.2.throughout k res test) = some true) :
    ∃ s seen, (S.observed probe).Reach ok (s₀, .resting) (s, .answered k res seen) ∧
      ∀ d ∈ seen, test d = true := by
  obtain ⟨⟨s, o⟩, hs, hall⟩ := Option.map_eq_some_iff.mp h
  obtain ⟨seen, rfl, htest⟩ := Observer.exists_of_throughout hall
  exact ⟨s, seen, reach_of_runWhile hs, htest⟩

end System

end LowLatency.Concurrency
