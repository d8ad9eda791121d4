import Mathlib.Order.BooleanAlgebra.Set
import Mathlib.Logic.Function.Basic
import Mathlib.Tactic.TypeStar

/-!
# Closing a component

Threads work inside of a component that has `n` workers of its own. A thread closes it: it sets a
flag, waits until nobody is inside, and joins the workers one after the other. A thread that finds the
flag set returns early. `pending` is history: the threads that were inside when the flag was set and
have not left since.

`Closing.Inv` is kept by every step at which nobody returns early while the closing thread is still
at work (`Inv.step`). So a thread that has closed the component, or has returned early, knows that
everything is settled (`Inv.settled`).
-/

namespace LowLatency.Concurrency.Closing

variable {n : ℕ} {Tid : Type*}

/-- Where a thread is. -/
inductive Phase where
  | outside
  | inside
  /-- About to test the flag. -/
  | asking
  /-- It has found the flag clear. -/
  | setting
  /-- It has set the flag. -/
  | waiting
  | joining (k : ℕ)
  /-- It has found the flag set. -/
  | early
  | closed

/-- The thread closes the component and has not finished. -/
def Phase.closes : Phase → Bool
  | .waiting | .joining _ => true
  | _ => false

structure State (n : ℕ) (Tid : Type*) where
  flag : Bool
  exited : Fin n → Prop
  phase : Tid → Phase
  pending : Set Tid

namespace State

variable (s : State n Tid)

/-- Whoever was inside has left, and the workers have exited. -/
structure Settled : Prop where
  exited : ∀ i, s.exited i
  pending : s.pending = ∅

/-- Nobody is still closing the component, or there is nothing left to wait for. -/
def Free : Prop := (∀ t, (s.phase t).closes = false) ∨ s.Settled

variable [DecidableEq Tid]

/-- Thread `t` moves to phase `p`. -/
def move (t : Tid) (p : Phase) : State n Tid := { s with phase := Function.update s.phase t p }

/-- Thread `t` leaves the component. -/
def leave (t : Tid) : State n Tid :=
  ⟨s.flag, s.exited, Function.update s.phase t .outside, s.pending \ {t}⟩

/-- Thread `t` sets the flag. -/
def close (t : Tid) : State n Tid :=
  ⟨true, s.exited, Function.update s.phase t .waiting, {u | s.phase u = .inside}⟩

end State

/-- A step of a thread or a worker, or of nobody; `ok` is required where a thread returns early. -/
inductive Step [DecidableEq Tid] (ok : State n Tid → Prop) (s : State n Tid) : State n Tid → Prop
  | skip : Step ok s s
  | exit (i : Fin n) : Step ok s { s with exited := fun j => j = i ∨ s.exited j }
  | enter {t : Tid} (h : s.phase t = .outside) : Step ok s (s.move t .inside)
  | leave {t : Tid} (h : s.phase t = .inside) :
    Step ok s (s.leave t)
  | ask {t : Tid} (h : s.phase t = .outside) : Step ok s (s.move t .asking)
  | early {t : Tid} (h : s.phase t = .asking) (hflag : s.flag = true) (hok : ok s) :
    Step ok s (s.move t .early)
  | proceed {t : Tid} (h : s.phase t = .asking) : Step ok s (s.move t .setting)
  | set {t : Tid} (h : s.phase t = .setting) (hflag : s.flag = false) :
    Step ok s (s.close t)
  | alone {t : Tid} (h : s.phase t = .waiting) (hnone : ∀ u, s.phase u ≠ .inside) :
    Step ok s (s.move t (.joining 0))
  | join {t : Tid} {k : ℕ} (h : s.phase t = .joining k)
    (hexited : ∀ i : Fin n, i.val = k → s.exited i) : Step ok s (s.move t (.joining (k + 1)))
  | finish {t : Tid} {k : ℕ} (h : s.phase t = .joining k) (hk : n ≤ k) :
    Step ok s (s.move t .closed)
  | ret {t : Tid} (h : s.phase t = .early ∨ s.phase t = .closed) : Step ok s (s.move t .outside)

/-- What a thread knows. -/
def Known (s : State n Tid) : Phase → Prop
  | .waiting => s.flag = true
  | .joining k => s.flag = true ∧ s.pending = ∅ ∧ ∀ i : Fin n, i.val < k → s.exited i
  | .early | .closed => s.flag = true ∧ s.Settled
  | _ => True

structure Inv (s : State n Tid) : Prop where
  flag : s.flag = true → (∃ t, (s.phase t).closes = true) ∨ s.Settled
  pending : ∀ t ∈ s.pending, s.phase t = .inside
  known : ∀ t, Known s (s.phase t)

section Steps

variable {s s' : State n Tid} {t : Tid} {p : Phase}

theorem State.Settled.mono (h : s.Settled) (hexited : ∀ i, s.exited i → s'.exited i)
    (hpending : s'.pending ⊆ s.pending) : s'.Settled where
  exited i := hexited i (h.exited i)
  pending := Set.subset_empty_iff.mp (h.pending ▸ hpending)

theorem State.move_self [DecidableEq Tid] (h : s.phase t = p) : s.move t p = s := by
  unfold State.move
  rw [← h, Function.update_eq_self]

theorem Step.stay [DecidableEq Tid] {ok : State n Tid → Prop} (h : s.phase t = p) :
    Step ok s (s.move t p) := by
  rw [State.move_self h]
  exact .skip

theorem Known.mono (h : Known s p) (hflag : s.flag = true → s'.flag = true)
    (hexited : ∀ i, s.exited i → s'.exited i) (hpending : s'.pending ⊆ s.pending) : Known s' p := by
  cases p with
  | waiting => exact hflag h
  | joining k =>
    obtain ⟨hf, hp, he⟩ := h
    exact ⟨hflag hf, Set.subset_empty_iff.mp (hp ▸ hpending), fun i hi => hexited i (he i hi)⟩
  | early | closed => exact ⟨hflag h.1, h.2.mono hexited hpending⟩
  | _ => trivial

variable [DecidableEq Tid]

theorem Inv.move (h : Inv s) (hp : Known s p) (hin : s.phase t ≠ .inside)
    (hcloses : (s.phase t).closes = true → p.closes = true ∨ s.Settled) : Inv (s.move t p) where
  flag hflag := by
    rcases h.flag hflag with ⟨u, hu⟩ | hsettled
    · by_cases hut : u = t
      · subst hut
        rcases hcloses hu with hp | hsettled
        · exact .inl ⟨u, by simpa only [State.move, Function.update_self] using hp⟩
        · exact .inr (hsettled.mono (fun _ hi => hi) subset_rfl)
      · exact .inl ⟨u, by simpa only [State.move, Function.update_of_ne hut] using hu⟩
    · exact .inr (hsettled.mono (fun _ hi => hi) subset_rfl)
  pending u hu := by
    have hold := h.pending u hu
    have hut : u ≠ t := by
      rintro rfl
      exact hin hold
    simpa only [State.move, Function.update_of_ne hut] using hold
  known u := by
    by_cases hut : u = t
    · subst hut
      simp only [State.move, Function.update_self]
      exact hp.mono id (fun _ hi => hi) subset_rfl
    · simp only [State.move, Function.update_of_ne hut]
      exact (h.known u).mono id (fun _ hi => hi) subset_rfl

/-- Every step keeps the invariant, provided nobody returns early too soon. -/
theorem Inv.step (h : Inv s) (hs : Step State.Free s s') : Inv s' := by
  cases hs with
  | skip => exact h
  | exit i =>
    have hmono : ∀ j, s.exited j → j = i ∨ s.exited j := fun j hj => .inr hj
    exact
      { flag := fun hflag => (h.flag hflag).imp_right fun hs => hs.mono hmono subset_rfl
        pending := h.pending
        known := fun u => (h.known u).mono id hmono subset_rfl }
  | @enter t ht =>
    exact h.move trivial (by rw [ht]; nofun) (by rw [ht]; nofun)
  | @leave t ht =>
    have hless : s.pending \ {t} ⊆ s.pending := Set.sdiff_subset
    refine { flag := fun hflag => ?_, pending := fun u hu => ?_, known := fun u => ?_ }
    · rcases h.flag hflag with ⟨u, hu⟩ | hsettled
      · refine .inl ⟨u, ?_⟩
        have hut : u ≠ t := by
          rintro rfl
          rw [ht] at hu
          cases hu
        simpa only [State.leave, Function.update_of_ne hut] using hu
      · exact .inr (hsettled.mono (fun _ hi => hi) hless)
    · simpa only [State.leave, Function.update_of_ne hu.2] using h.pending u hu.1
    · by_cases hut : u = t
      · subst hut
        simp only [State.leave, Function.update_self]
        trivial
      · simp only [State.leave, Function.update_of_ne hut]
        exact (h.known u).mono id (fun _ hi => hi) hless
  | @ask t ht =>
    exact h.move trivial (by rw [ht]; nofun) (by rw [ht]; nofun)
  | @early t ht hflag hok =>
    have hsettled : s.Settled := by
      rcases hok with hnobody | hsettled
      · refine (h.flag hflag).resolve_left ?_
        rintro ⟨u, hu⟩
        rw [hnobody u] at hu
        cases hu
      · exact hsettled
    exact h.move ⟨hflag, hsettled⟩ (by rw [ht]; nofun) (by rw [ht]; nofun)
  | @proceed t ht =>
    exact h.move trivial (by rw [ht]; nofun) (by rw [ht]; nofun)
  | @set t ht hflag =>
    refine { flag := fun _ => .inl ⟨t, ?_⟩, pending := fun u hu => ?_, known := fun u => ?_ }
    · simp only [State.close, Function.update_self]
      rfl
    · have hut : u ≠ t := by
        rintro rfl
        exact absurd (ht.symm.trans hu) nofun
      simp only [State.close, Function.update_of_ne hut]
      exact hu
    · by_cases hut : u = t
      · subst hut
        simp only [State.close, Function.update_self]
        exact rfl
      · -- before the flag is set nobody knows that it is
        simp only [State.close, Function.update_of_ne hut]
        have hold := h.known u
        cases hu : s.phase u with
        | waiting =>
          rw [hu] at hold
          rw [show s.flag = true from hold] at hflag
          cases hflag
        | joining | early | closed =>
          rw [hu] at hold
          rw [hold.1] at hflag
          cases hflag
        | _ => trivial
  | @alone t ht hnone =>
    have hflag : s.flag = true := by
      have hold := h.known t
      rw [ht] at hold
      exact hold
    have hpending : s.pending = ∅ :=
      Set.eq_empty_of_forall_notMem fun u hu => hnone u (h.pending u hu)
    exact h.move ⟨hflag, hpending, fun i hi => absurd hi (Nat.not_lt_zero _)⟩ (by rw [ht]; nofun)
      fun _ => .inl rfl
  | @join t k ht hexited =>
    have hold := h.known t
    rw [ht] at hold
    obtain ⟨hflag, hpending, hjoined⟩ := hold
    refine h.move ⟨hflag, hpending, fun i hi => ?_⟩ (by rw [ht]; nofun) fun _ => .inl rfl
    rcases Nat.lt_succ_iff_lt_or_eq.mp hi with hlt | he
    · exact hjoined i hlt
    · exact hexited i he
  | @finish t k ht hk =>
    have hold := h.known t
    rw [ht] at hold
    obtain ⟨hflag, hpending, hjoined⟩ := hold
    have hsettled : s.Settled := ⟨fun i => hjoined i (by omega), hpending⟩
    exact h.move ⟨hflag, hsettled⟩ (by rw [ht]; nofun) fun _ => .inr hsettled
  | @ret t ht =>
    refine h.move trivial ?_ ?_ <;> rcases ht with ht | ht <;> rw [ht] <;> nofun

omit [DecidableEq Tid] in
/-- Whoever has closed the component, or has returned early, finds everything settled. -/
theorem Inv.settled (h : Inv s) (ht : s.phase t = .closed ∨ s.phase t = .early) : s.Settled := by
  have hold := h.known t
  rcases ht with ht | ht <;> rw [ht] at hold <;> exact hold.2

end Steps

end LowLatency.Concurrency.Closing
