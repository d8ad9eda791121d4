import Mathlib.Data.List.Count
import LowLatency.Concurrency.Object

/-!
# Threads that run alone

While the other threads are frozen, a thread executes the instructions of its own operation. It
finishes when each of them lowers a `Potential`; an instruction that fails spuriously may raise it by a
fixed amount, and then the bound grows with the number of such failures (`Potential.exists_run`).
Conversely an operation that returns when it runs alone is a run of the client system, whatever the
frozen threads are doing (`Returns.reachable`).
-/

namespace LowLatency.Concurrency

/-- The next instructions of one thread, with the choices left to them. -/
def Action.choices {Tid Op : Type*} (t : Tid) (bs : List Bool) : List (Action Tid Op) :=
  bs.map (.step t)

namespace Object

variable {Tid Op Res Shared Local : Type*} [DecidableEq Tid] {O : Object Op Res Shared Local}
  {may : Tid → Op → Bool}

/-- A bound on the instructions left to an operation that runs alone. An instruction lowers it, unless
its choice is `true`, which costs up to `a` more. -/
structure Potential (O : Object Op Res Shared Local) (J : Shared → Local → Prop)
    (potential : Shared → Local → ℕ) (a : ℕ) : Prop where
  keeps : ∀ b s x, J s x → O.result x = none → J (O.step b s x).1 (O.step b s x).2
  lowers : ∀ b s x, J s x → O.result x = none →
    potential (O.step b s x).1 (O.step b s x).2 + 1 ≤ potential s x + if b then a else 0

theorem run_choices_cons {c : Config Tid Shared Local} {t : Tid} {x : Local}
    (hl : c.locals t = some x) (hr : O.result x = none) (b : Bool) (bs : List Bool) :
    (O.client may).run c (Action.choices t (b :: bs)) =
      (O.client may).run ⟨(O.step b c.shared x).1,
        Function.update c.locals t (some (O.step b c.shared x).2)⟩ (Action.choices t bs) := by
  unfold Action.choices
  rw [List.map_cons, System.run_cons]
  simp only [client, hl, hr, Option.bind_some]

/-- The operation finishes within its potential, and `a` more for each spurious failure. -/
theorem Potential.exists_run {J : Shared → Local → Prop} {potential : Shared → Local → ℕ} {a : ℕ}
    (h : O.Potential J potential a) (t : Tid) (bs : List Bool) :
    ∀ {c : Config Tid Shared Local} {x : Local}, c.locals t = some x → J c.shared x →
      potential c.shared x + a * bs.count true ≤ bs.length →
      ∃ m ≤ bs.length, ∃ c' y o, (O.client may).run c (Action.choices t (bs.take m)) = some c' ∧
        c'.locals t = some y ∧ O.result y = some o ∧ J c'.shared y := by
  induction bs with
  | nil =>
    intro c x hl hJ hle
    cases hr : O.result x with
    | some o => exact ⟨0, Nat.le_refl _, c, x, o, rfl, hl, hr, hJ⟩
    | none =>
      have hlow := h.lowers false _ _ hJ hr
      simp only [List.count_nil, List.length_nil, Bool.false_eq_true, if_false] at hle hlow
      omega
  | cons b bs ih =>
    intro c x hl hJ hle
    cases hr : O.result x with
    | some o => exact ⟨0, Nat.zero_le _, c, x, o, rfl, hl, hr, hJ⟩
    | none =>
      have hlow := h.lowers b _ _ hJ hr
      have hcount : (b :: bs).count true = bs.count true + if b then 1 else 0 := by
        simp only [List.count_cons, beq_iff_eq]
      rw [hcount, Nat.mul_add, List.length_cons] at hle
      have hnext : potential (O.step b c.shared x).1 (O.step b c.shared x).2 +
          a * bs.count true ≤ bs.length := by
        cases b <;> simp only [Bool.false_eq_true, if_false, if_true] at hle hlow <;> omega
      obtain ⟨m, hm, c', y, o, hrun, hy, ho, hJ'⟩ :=
        ih (c := ⟨(O.step b c.shared x).1, Function.update c.locals t (some (O.step b c.shared x).2)⟩)
          (Function.update_self ..) (h.keeps b _ _ hJ hr) hnext
      refine ⟨m + 1, Nat.succ_le_succ hm, c', y, o, ?_, hy, ho, hJ'⟩
      rw [List.take_succ_cons, run_choices_cons hl hr]
      exact hrun

theorem Potential.and {J J' : Shared → Local → Prop} {potential : Shared → Local → ℕ} {a : ℕ}
    (h : O.Potential J potential a)
    (hkeeps : ∀ b s x, J' s x → O.result x = none → J' (O.step b s x).1 (O.step b s x).2) :
    O.Potential (fun s x => J s x ∧ J' s x) potential a where
  keeps b s x hJ hr := ⟨h.keeps b s x hJ.1 hr, hkeeps b s x hJ.2 hr⟩
  lowers b s x hJ hr := h.lowers b s x hJ.1 hr

/-! ## Runs beside frozen threads -/

theorem exists_reachable_of_alone (may : Tid → Op → Bool) (l : Tid → Option Local) (t : Tid)
    {s' : Shared} {o : Res} (n : ℕ) : ∀ {s : Shared} {x : Local}, O.alone n s x = some (s', o) →
      ∃ y, O.result y = some o ∧ (O.client may).Reachable ⟨s, Function.update l t (some x)⟩
        ⟨s', Function.update l t (some y)⟩ := by
  induction n with
  | zero =>
    intro s x h
    rw [alone, Option.map_eq_some_iff] at h
    obtain ⟨o', ho, heq⟩ := h
    obtain ⟨rfl, rfl⟩ := Prod.mk.inj heq
    exact ⟨x, ho, System.Reach.refl⟩
  | succ n ih =>
    intro s x h
    rw [alone] at h
    cases hr : O.result x with
    | some o' =>
      rw [hr] at h
      obtain ⟨rfl, rfl⟩ := Prod.mk.inj (Option.some.inj h)
      exact ⟨x, hr, System.Reach.refl⟩
    | none =>
      rw [hr] at h
      obtain ⟨y, ho, hreach⟩ := ih h
      refine ⟨y, ho, System.Reach.trans (System.Reach.refl.tail (a := .step t false) trivial ?_) hreach⟩
      simp only [client, Function.update_self, hr, Function.update_idem]

/-- An operation that returns alone does so from any state in which its thread is free, and leaves
the frozen threads as they are. -/
theorem Returns.reachable {c : Config Tid Shared Local} {t : Tid} {s' : Shared} {o : Res} (op : Op)
    (h : O.Returns c.shared (O.start op) s' o) (hl : c.locals t = none) (hmay : may t op = true) :
    (O.client may).Reachable c ⟨s', c.locals⟩ := by
  obtain ⟨n, hn⟩ := h
  obtain ⟨y, ho, hreach⟩ := exists_reachable_of_alone may c.locals t n hn
  have hcall : (O.client may).next c (.call t op) =
      some ⟨c.shared, Function.update c.locals t (some (O.start op))⟩ := by
    simp only [client, hl, if_pos hmay]
  have hret : (O.client may).next ⟨s', Function.update c.locals t (some y)⟩ (.ret t) =
      some ⟨s', c.locals⟩ := by
    simp only [client, Function.update_self, ho, Function.update_idem]
    rw [← hl, Function.update_eq_self]
  exact ((System.Reach.refl.tail trivial hcall).trans hreach).tail trivial hret

end Object

end LowLatency.Concurrency
