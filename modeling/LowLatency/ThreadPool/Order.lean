import LowLatency.ThreadPool.Idle

/-!
# The order of execution

The workers take the tasks in the order in which they were accepted, but each executes its task in
its own time. A task overtakes only the tasks that the other workers hold, so with `n` workers it is
executed at most `n - 1` places before its turn, and a single worker executes the tasks in the order of
their acceptance (`InTurn`).
-/

namespace LowLatency.ThreadPool

open Concurrency

variable {α Tid : Type*} {n : ℕ}

/-- With `n` workers the task executed at place `k` has a number below `k + n`. -/
def Prompt (s : Shared α n Tid) : Prop := ∀ k j, s.executed[k]? = some j → j.id < k + n

/-- No task is executed long before its turn. -/
structure InTurn (c : State α n Tid) : Prop where
  /-- The task executed at place `k` was accepted at a place before `k + n`. -/
  prompt : ∀ k p j, c.shared.executed[k]? = some j → c.shared.accepted[p]? = some j → p < k + n
  alone : n = 1 → c.shared.executed <+: c.shared.accepted

/-! ## Numbers -/

/-- Numbers that differ and do not exceed their places are their places. -/
theorem eq_range_of_le {l : List ℕ} (hl : l.Nodup) (hle : ∀ k x : ℕ, l[k]? = some x → x ≤ k) :
    l = List.range l.length := by
  induction l using List.reverseRecOn with
  | nil => rfl
  | append_singleton l x ih =>
    obtain ⟨hnodup, -, hdisjoint⟩ := List.nodup_append.mp hl
    have hrange : l = List.range l.length := ih hnodup fun k y hy => hle k y (by
      rw [List.getElem?_append_left (List.getElem?_eq_some_iff.mp hy).1, hy])
    have hx : x ≤ l.length := hle l.length x (by simp)
    have hnew : ¬ x < l.length := fun hlt => by
      have hmem : x ∈ l := by
        rw [hrange]
        exact List.mem_range.mpr hlt
      exact hdisjoint x hmem x (List.mem_singleton.mpr rfl) rfl
    obtain rfl : x = l.length := by omega
    rw [List.length_append, List.length_singleton, List.range_succ, ← hrange]

/-- The number of a task is its place among the accepted ones. -/
theorem id_eq_of_numbered {l : List (Job α)} (h : l.map Job.id = List.range l.length) {p : ℕ}
    {j : Job α} (hp : l[p]? = some j) : j.id = p := by
  have hlt := (List.getElem?_eq_some_iff.mp hp).1
  have hid : (l.map Job.id)[p]? = some j.id := by rw [List.getElem?_map, hp, Option.map_some]
  rw [h, List.getElem?_range hlt] at hid
  exact (Option.some.inj hid).symm

/-! ## Steps -/

theorem stepWorker_executed {s s' : Shared α n Tid} {i : Fin n} {x y : Worker α}
    (hs : stepWorker i s x = some (s', y)) : s'.executed = s.executed ∨
      ∃ j, x = .execute j ∧ s'.executed = s.executed ++ [j] := by
  cases x with
  | lock | woken =>
    obtain ⟨s₁, hlock, he⟩ := Option.map_eq_some_iff.mp hs
    cases he
    obtain ⟨_, rfl⟩ := lock_eq_some hlock
    exact .inl rfl
  | predicate | exitTest | pop =>
    simp only [stepWorker] at hs
    split at hs <;> cases hs <;> exact .inl rfl
  | asleep | exited => cases hs
  | execute j =>
    cases hs
    exact .inr ⟨j, rfl, rfl⟩
  | _ =>
    cases hs
    exact .inl rfl

theorem card_holding_le (w : Fin n → Worker α) : (tally Worker.holding w).card ≤ n := by
  have hone : ∀ i, (w i).holding.card ≤ 1 := by
    intro i
    cases w i with
    | notifyNotFull | unlock | busyAdd | execute => exact le_rfl
    | _ => exact Nat.zero_le _
  have hsum := Finset.sum_le_card_nsmul Finset.univ (fun i => (w i).holding.card) 1 fun i _ => hone i
  rw [Finset.card_univ, Fintype.card_fin, Nat.nsmul_eq_mul, Nat.mul_one] at hsum
  unfold tally
  rwa [Multiset.card_sum]

variable [Fintype Tid] [DecidableEq Tid]

theorem next_executed {policy : RejectPolicy} {c c' : State α n Tid} {a : Action α n Tid}
    (hn : next policy c a = some c') : c'.shared.executed = c.shared.executed ∨
      ∃ j, c'.shared.executed = c.shared.executed ++ [j] := by
  cases a with
  | call t op =>
    obtain ⟨_, rfl⟩ := next_call hn
    exact .inl rfl
  | ret t =>
    obtain ⟨r, _, rfl⟩ := next_ret hn
    exact .inl rfl
  | worker i wakes =>
    obtain ⟨s, y, l, hs, _, rfl⟩ := next_worker hn
    rcases stepWorker_executed hs with he | ⟨j, _, he⟩
    · exact .inl he
    · exact .inr ⟨j, he⟩
  | client t wakes =>
    obtain ⟨x, s, y, w, _, hs, _, rfl⟩ := next_client hn
    exact .inl (stepClient_executed hs).2
  | spuriousWorker i =>
    obtain ⟨_, rfl⟩ := next_spuriousWorker hn
    exact .inl rfl
  | spuriousClient t =>
    obtain ⟨_, rfl⟩ := next_spuriousClient hn
    exact .inl rfl

namespace Inv

variable {s s' : Shared α n Tid} {w : Fin n → Worker α} {l : Tid → Option (Client α)}

omit [DecidableEq Tid] in
/-- A task that a worker holds is followed by no more tasks than there are workers. -/
theorem id_lt (h : Inv s w l) {i : Fin n} {j : Job α} (hj : j ∈ (w i).holding) :
    j.id < s.executed.length + n := by
  have hheld : j ∈ tally Worker.holding w := Multiset.mem_sum.mpr ⟨i, Finset.mem_univ i, hj⟩
  have htaken : j ∈ s.taken := by
    have hmem : j ∈ (s.taken : Multiset (Job α)) := by
      rw [h.executed]
      exact Multiset.mem_add.mpr (.inl hheld)
    exact Multiset.mem_coe.mp hmem
  obtain ⟨p, hp, hpj⟩ := List.getElem_of_mem htaken
  obtain ⟨rest, hrest⟩ := h.taken
  have hid : j.id = p := by
    refine id_eq_of_numbered h.numbered ?_
    rw [← hrest, List.getElem?_append_left hp, List.getElem?_eq_getElem hp, hpj]
  have hcard := congrArg Multiset.card h.executed
  rw [Multiset.card_add, Multiset.coe_card, Multiset.coe_card] at hcard
  have hle := card_holding_le w
  omega

omit [DecidableEq Tid] in
theorem prompt_worker (h : Inv s w l) (hp : Prompt s) {i : Fin n} {y : Worker α}
    (hs : stepWorker i s (w i) = some (s', y)) : Prompt s' := by
  rcases stepWorker_executed hs with he | ⟨j, hx, he⟩
  · unfold Prompt
    rwa [he]
  · intro k j' hk
    rw [he] at hk
    rcases Nat.lt_or_ge k s.executed.length with hlt | hge
    · rw [List.getElem?_append_left hlt] at hk
      exact hp k j' hk
    · rw [List.getElem?_append_right hge] at hk
      obtain rfl := List.mem_singleton.mp (List.mem_of_getElem? hk)
      have hid := h.id_lt (i := i) (j := j') (by
        rw [hx]
        exact Multiset.mem_singleton_self j')
      omega

omit [DecidableEq Tid] in
theorem nodup_executed (h : Inv s w l) : (s.executed.map Job.id).Nodup := by
  have htaken : (s.taken.map Job.id).Nodup := by
    refine List.Nodup.sublist (h.taken.sublist.map Job.id) ?_
    rw [h.numbered]
    exact List.nodup_range
  have hmap := congrArg (Multiset.map Job.id) h.executed
  rw [Multiset.map_add, Multiset.map_coe, Multiset.map_coe] at hmap
  rw [← Multiset.coe_nodup, hmap, Multiset.nodup_add] at htaken
  exact htaken.2.1

omit [DecidableEq Tid] in
theorem inTurn {c : State α n Tid} (h : Inv c.shared c.workers c.clients) (hp : Prompt c.shared) :
    InTurn c where
  prompt k p j hk hj := by
    rw [← id_eq_of_numbered h.numbered hj]
    exact hp k j hk
  alone hone := by
    have hnodup := h.nodup_executed
    have hrange : c.shared.executed.map Job.id = List.range c.shared.executed.length := by
      have heq := eq_range_of_le hnodup fun k x hx => by
        rw [List.getElem?_map, Option.map_eq_some_iff] at hx
        obtain ⟨j, hj, rfl⟩ := hx
        have := hp k j hj
        omega
      rwa [List.length_map] at heq
    refine List.prefix_iff_getElem?.mpr fun k hk => ?_
    have hid : (c.shared.executed[k]).id = k := by
      have hget : (c.shared.executed.map Job.id)[k]? = some (c.shared.executed[k]).id := by
        rw [List.getElem?_map, List.getElem?_eq_getElem hk, Option.map_some]
      rw [hrange, List.getElem?_range hk] at hget
      exact (Option.some.inj hget).symm
    have hmem : c.shared.executed[k] ∈ (c.shared.taken : Multiset (Job α)) := by
      rw [h.executed]
      exact Multiset.mem_add.mpr (.inr (Multiset.mem_coe.mpr (List.getElem_mem hk)))
    obtain ⟨p, hp, hpj⟩ := List.getElem_of_mem (h.taken.subset (Multiset.mem_coe.mp hmem))
    have hget : c.shared.accepted[p]? = some c.shared.executed[k] := by
      rw [List.getElem?_eq_getElem hp, hpj]
    rwa [← id_eq_of_numbered h.numbered hget, hid] at hget

theorem prompt_next {c c' : State α n Tid} (h : Inv c.shared c.workers c.clients)
    (hp : Prompt c.shared) {policy : RejectPolicy} {a : Action α n Tid}
    (hn : next policy c a = some c') : Prompt c'.shared := by
  cases a with
  | call t op =>
    obtain ⟨_, rfl⟩ := next_call hn
    exact hp
  | ret t =>
    obtain ⟨r, _, rfl⟩ := next_ret hn
    exact hp
  | worker i wakes =>
    obtain ⟨s, y, l, hs, _, rfl⟩ := next_worker hn
    exact h.prompt_worker hp hs
  | client t wakes =>
    obtain ⟨x, s, y, w, _, hs, _, rfl⟩ := next_client hn
    unfold Prompt
    rw [(stepClient_executed hs).2]
    exact hp
  | spuriousWorker i =>
    obtain ⟨_, rfl⟩ := next_spuriousWorker hn
    exact hp
  | spuriousClient t =>
    obtain ⟨_, rfl⟩ := next_spuriousClient hn
    exact hp

end Inv

/-- **Tasks are executed in turn.** For every number of workers, queue size and policy and every
interleaving, a task overtakes fewer tasks than there are workers. -/
theorem executes_in_turn (policy : RejectPolicy) (r : Ring) (c : State α n Tid)
    (h : (system policy).Reachable (initial α n Tid r) c) : InTurn c := by
  have hkept : Inv c.shared c.workers c.clients ∧ Prompt c.shared :=
    System.Reachable.invariant
      (I := fun c => Inv c.shared c.workers c.clients ∧ Prompt c.shared) h
      ⟨inv_initial r, fun k j hk => by cases hk⟩ fun _ _ _ ⟨hi, hp⟩ hn =>
        ⟨inv_next hi hn, hi.prompt_next hp hn⟩
  exact hkept.1.inTurn hkept.2

/-- Two workers take a task each, and the second one is faster. -/
def overtake : List (Action ℕ 2 (Fin 1)) :=
  List.flatten [[.call 0 (.submit 7)], List.replicate 9 (.client 0 none), [.ret 0],
    [.call 0 (.submit 8)], List.replicate 9 (.client 0 none), [.ret 0],
    List.replicate 6 (.worker 0 none), List.replicate 8 (.worker 1 none)]

theorem executes_in_turn_overtake : ∃ c : State ℕ 2 (Fin 1),
    c.shared.accepted = [⟨0, 7⟩, ⟨1, 8⟩] ∧ c.shared.executed = [⟨1, 8⟩] ∧ InTurn c := by
  have hrun : ((system .block).run (initial ℕ 2 (Fin 1) Ring.two) overtake).map
      (fun c => (c.shared.accepted, c.shared.executed)) =
        some ([⟨0, 7⟩, ⟨1, 8⟩], [⟨1, 8⟩]) := by decide +kernel
  obtain ⟨c, hc, hres⟩ := Option.map_eq_some_iff.mp hrun
  obtain ⟨haccepted, hexecuted⟩ := Prod.mk.inj hres
  exact ⟨c, haccepted, hexecuted,
    executes_in_turn .block Ring.two c (System.reachable_of_run hc)⟩

end LowLatency.ThreadPool
