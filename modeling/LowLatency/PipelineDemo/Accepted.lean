import LowLatency.PipelineDemo.Tasks

/-!
# Every submission is accepted

The invariant of the pool, of the calls of its callers and of the tasks that run (`Driven`), which every
action of the demo keeps.
-/

namespace LowLatency.PipelineDemo

open Concurrency ThreadPool

namespace Main

/-- The producers have been joined. -/
def joined : Main → Bool
  | .join => false
  | _ => true

/-- `shutdown` has been called. -/
def stops : Main → Bool
  | .stopping _ | .done _ => true
  | _ => false

end Main

variable {g : Args}

/-! ## Calls and returns -/

section Calls

variable {sent : Fin g.producers → ℕ} {joined stops : Bool} {s : Shared ℕ g.workers (Caller g)}
  {l : Caller g → Option (Client ℕ)} {p : Fin g.producers}

theorem Submits.submit (h : Submits g sent joined stops s l) (hlt : sent p < g.per)
    (hl : l (some p) = none) :
    Submits g sent joined stops s
      (Function.update l (some p) (some (.submitEnter (g.seq p (sent p))))) := by
  have hturn : ∀ q, turn (Function.update l (some p) (some (.submitEnter (g.seq p (sent p)))) (some q)) =
      turn (l (some q)) := by
    intro q
    by_cases hq : q = p
    · subst hq
      rw [Function.update_self, hl]
      rfl
    · rw [Function.update_of_ne (fun he => hq (Option.some.inj he))]
  refine ⟨h.sent_le, ?_, ?_, ?_, ?_, ?_, h.stops_joined⟩
  · intro q x hx
    rcases update_eq_some hx with ⟨hq, ho⟩ | ⟨_, hx⟩
    · obtain rfl := Option.some.inj hq
      obtain rfl := Option.some.inj ho
      exact ⟨hlt, .inl rfl⟩
    · exact h.producer q x hx
  · simp only [hturn]
    exact h.accepted
  · intro x hx
    rw [Function.update_of_ne (Option.some_ne_none p).symm] at hx
    exact h.caller x hx
  · rw [Function.update_of_ne (Option.some_ne_none p).symm]
    exact h.quiet
  · intro hj
    exact absurd (h.ended hj p).1 (Nat.ne_of_lt hlt)

theorem Submits.submitted (h : Submits g sent joined stops s l)
    (hl : l (some p) = some (.done .accepted)) :
    Submits g (Function.update sent p (sent p + 1)) joined stops s
      (Function.update l (some p) none) := by
  obtain ⟨hlt, -⟩ := h.producer p _ hl
  have hsum : ∀ q, Function.update sent p (sent p + 1) q +
      turn (Function.update l (some p) none (some q)) = sent q + turn (l (some q)) := by
    intro q
    by_cases hq : q = p
    · subst hq
      rw [Function.update_self, Function.update_self, hl]
      rfl
    · rw [Function.update_of_ne hq, Function.update_of_ne (fun he => hq (Option.some.inj he))]
  refine ⟨?_, ?_, ?_, ?_, ?_, ?_, h.stops_joined⟩
  · intro q
    by_cases hq : q = p
    · subst hq
      rw [Function.update_self]
      exact hlt
    · rw [Function.update_of_ne hq]
      exact h.sent_le q
  · intro q x hx
    rcases update_eq_some hx with ⟨_, ho⟩ | ⟨hq, hx⟩
    · cases ho
    · rw [Function.update_of_ne (fun he => hq (congrArg some he))]
      exact h.producer q x hx
  · simp only [hsum]
    exact h.accepted
  · intro x hx
    rw [Function.update_of_ne (Option.some_ne_none p).symm] at hx
    exact h.caller x hx
  · rw [Function.update_of_ne (Option.some_ne_none p).symm]
    exact h.quiet
  · intro hj
    cases (h.ended hj p).2.symm.trans hl

theorem Submits.joins (h : Submits g sent joined stops s l)
    (hall : ∀ p, sent p = g.per ∧ l (some p) = none) : Submits g sent true stops s l :=
  { h with ended := fun _ => hall, stops_joined := fun _ => rfl }

theorem Submits.main (h : Submits g sent joined stops s l) (hj : joined = true)
    {o : Option (Client ℕ)} (ho : ∀ x, o = some x → shutsDown x = true) :
    Submits g sent joined true s (Function.update l none o) := by
  have hsome : ∀ p, Function.update l none o (some p) = l (some p) := fun p =>
    Function.update_of_ne (Option.some_ne_none p) ..
  refine ⟨h.sent_le, ?_, ?_, ?_, ?_, ?_, fun _ => hj⟩
  · intro p x hx
    rw [hsome] at hx
    exact h.producer p x hx
  · simp only [hsome]
    exact h.accepted
  · intro x hx
    rw [Function.update_self] at hx
    exact ho x hx
  · intro hstops
    cases hstops
  · intro _ p
    rw [hsome]
    exact h.ended hj p

end Calls

/-! ## The invariant -/

/-- The pool, its callers and its tasks. -/
structure Driven (c : State g) : Prop where
  inv : ThreadPool.Inv c.pool.shared c.pool.workers c.pool.clients
  submits : Submits g c.sent c.main.joined c.main.stops c.pool.shared c.pool.clients
  running : Running c.pool.workers c.bodies

theorem driven_initial : Driven (initial g) where
  inv := inv_initial poolRing
  submits :=
    { sent_le := fun _ => Nat.zero_le _
      producer := fun _ _ h => by cases h
      accepted := (Finset.sum_eq_zero fun p _ => rfl).symm
      caller := fun _ h => by cases h
      quiet := fun _ => ⟨rfl, rfl⟩
      ended := fun h => by cases h
      stops_joined := fun h => by cases h }
  running := ⟨fun _ _ h => (by cases h), fun _ _ h => (by cases h)⟩

namespace Driven

variable {c c' : State g}

theorem congr (h : Driven c) (hpool : c'.pool = c.pool) (hsent : c'.sent = c.sent)
    (hrunning : Running c.pool.workers c'.bodies) (hjoined : c'.main.joined = c.main.joined)
    (hstops : c'.main.stops = c.main.stops) : Driven c' where
  inv := hpool ▸ h.inv
  submits := by
    rw [hsent, hjoined, hstops, hpool]
    exact h.submits
  running := hpool ▸ hrunning

theorem worker (h : Driven c) {i : Fin g.workers} {wakes : Option (Caller g)} {b : Option Body}
    {d : ThreadPool.State ℕ g.workers (Caller g)}
    (hb : bodyAfter (c.pool.workers i) (c.bodies i) = some b)
    (hd : (pool g).next c.pool (.worker i wakes) = some d) :
    Driven { c with pool := d, bodies := Function.update c.bodies i b } where
  inv := inv_next h.inv hd
  submits := by
    obtain ⟨s, y, l, hs, hl, rfl⟩ := next_worker (show ThreadPool.next .block c.pool _ = some d from hd)
    obtain ⟨hstop, hacc, -⟩ := stepWorker_frame hs
    exact (h.submits.worker hstop hacc).wake (woken_wakeProducers hl)
  running := by
    obtain ⟨s, y, l, hs, -, rfl⟩ := next_worker (show ThreadPool.next .block c.pool _ = some d from hd)
    exact h.running.next (turn_of_step hs hb)

theorem caller (h : Driven c) {t : Caller g} {wakes : Option (Fin g.workers)}
    {d : ThreadPool.State ℕ g.workers (Caller g)}
    (hd : (pool g).next c.pool (.client t wakes) = some d) : Driven { c with pool := d } where
  inv := inv_next h.inv hd
  submits := by
    obtain ⟨x, s, y, w, hx, hs, -, rfl⟩ := next_client (show ThreadPool.next .block c.pool _ = some d from hd)
    exact (h.submits.next h.inv hx hs).wake (woken_wakeAllProducers x _).update
  running := by
    obtain ⟨x, s, y, w, -, -, hw, rfl⟩ := next_client (show ThreadPool.next .block c.pool _ = some d from hd)
    exact h.running.woken (woken_wakeWorkers hw)

theorem stepMain (h : Driven c) {spurious : Bool}
    (hn : PipelineDemo.stepMain spurious c c.main = some c') : Driven c' := by
  generalize hm : c.main = m at hn
  have hsame : ∀ m' k, m'.joined = m.joined → m'.stops = m.stops →
      Driven { c with sink := k, main := m' } := fun m' k hj hs =>
    h.congr rfl rfl h.running (hj.trans (congrArg Main.joined hm.symm))
      (hs.trans (congrArg Main.stops hm.symm))
  cases m with
  | join =>
    simp only [PipelineDemo.stepMain] at hn
    split at hn
    next hall =>
      cases hn
      have hsub := h.submits
      rw [hm] at hsub
      exact ⟨h.inv, hsub.joins hall, h.running⟩
    · cases hn
  | await =>
    simp only [PipelineDemo.stepMain] at hn
    split at hn <;> cases hn
    · exact h
    · exact hsame _ _ rfl rfl
  | loadProcessed | loadChecksum | loadDropped =>
    cases hn
    exact hsame _ _ rfl rfl
  | drain r =>
    simp only [PipelineDemo.stepMain] at hn
    split at hn
    · obtain ⟨k, -, rfl⟩ := Option.map_eq_some_iff.mp hn
      exact h.congr rfl rfl h.running rfl rfl
    · split at hn
      · obtain ⟨k, -, rfl⟩ := Option.map_eq_some_iff.mp hn
        exact h.congr rfl rfl h.running rfl rfl
      next o _ =>
        obtain ⟨k, -, rfl⟩ := Option.map_eq_some_iff.mp hn
        cases o <;> exact hsame _ _ rfl rfl
  | shutdown r =>
    obtain ⟨d, hd, rfl⟩ := Option.map_eq_some_iff.mp hn
    have hsub := h.submits
    rw [hm] at hsub
    have hinv := inv_next h.inv hd
    obtain ⟨hnone, rfl⟩ := next_call (show ThreadPool.next .block c.pool _ = some d from hd)
    refine ⟨hinv, hsub.main rfl fun x hx => ?_, h.running⟩
    obtain rfl := Option.some.inj hx
    rfl
  | stopping r =>
    obtain ⟨d, hd, rfl⟩ := Option.map_eq_some_iff.mp hn
    have hsub := h.submits
    rw [hm] at hsub
    have hinv := inv_next h.inv hd
    obtain ⟨o, hdone, rfl⟩ := next_ret (show ThreadPool.next .block c.pool _ = some d from hd)
    exact ⟨hinv, hsub.main rfl fun x hx => (by cases hx), h.running⟩
  | done => cases hn

/-- Every action keeps the invariant. -/
theorem next (h : Driven c) {a : Action g} (hn : (system g).next c a = some c') : Driven c' := by
  cases a with
  | submit p =>
    simp only [system, PipelineDemo.next] at hn
    split at hn
    next hlt =>
      obtain ⟨d, hd, rfl⟩ := Option.map_eq_some_iff.mp hn
      have hinv := inv_next h.inv hd
      obtain ⟨hnone, rfl⟩ := next_call (show ThreadPool.next .block c.pool _ = some d from hd)
      exact ⟨hinv, h.submits.submit hlt hnone, h.running⟩
    · cases hn
  | submitted p =>
    simp only [system, PipelineDemo.next] at hn
    split at hn
    next hdone =>
      obtain ⟨d, hd, rfl⟩ := Option.map_eq_some_iff.mp hn
      have hinv := inv_next h.inv hd
      obtain ⟨r, -, rfl⟩ := next_ret (show ThreadPool.next .block c.pool _ = some d from hd)
      exact ⟨hinv, h.submits.submitted hdone, h.running⟩
    · cases hn
  | worker i wakes =>
    obtain ⟨b, hb, hn⟩ := Option.bind_eq_some_iff.mp hn
    obtain ⟨d, hd, rfl⟩ := Option.map_eq_some_iff.mp hn
    exact h.worker hb hd
  | caller t wakes =>
    obtain ⟨d, hd, rfl⟩ := Option.map_eq_some_iff.mp hn
    exact h.caller hd
  | spuriousWorker i =>
    obtain ⟨d, hd, rfl⟩ := Option.map_eq_some_iff.mp hn
    have hinv := inv_next h.inv hd
    obtain ⟨hs, rfl⟩ := next_spuriousWorker (show ThreadPool.next .block c.pool _ = some d from hd)
    exact ⟨hinv, h.submits, h.running.woken (woken_update hs)⟩
  | spuriousCaller t =>
    obtain ⟨d, hd, rfl⟩ := Option.map_eq_some_iff.mp hn
    have hinv := inv_next h.inv hd
    obtain ⟨hs, rfl⟩ := next_spuriousClient (show ThreadPool.next .block c.pool _ = some d from hd)
    exact ⟨hinv, h.submits.wake (woken_update hs), h.running⟩
  | body i lat spurious =>
    obtain ⟨b, hb, hn⟩ := Option.bind_eq_some_iff.mp hn
    have hframe := stepBody_frame hb hn
    obtain ⟨b', hbodies, hseq⟩ := hframe.bodies
    refine h.congr hframe.pool hframe.sent ?_ (congrArg Main.joined hframe.main)
      (congrArg Main.stops hframe.main)
    rw [hbodies]
    exact h.running.body_next hb hseq
  | main spurious => exact h.stepMain hn

theorem of_reachable (h : (system g).Reachable (initial g) c) : Driven c :=
  System.Reachable.invariant h driven_initial fun _ _ _ hc hn => hc.next hn

theorem turns_le (h : Driven c) (p : Fin g.producers) :
    c.sent p + turn (c.pool.clients (some p)) ≤ g.per := by
  cases hl : c.pool.clients (some p) with
  | none => exact h.submits.sent_le p
  | some x =>
    have hlt := (h.submits.producer p x hl).1
    simp only [turn]
    split <;> omega

theorem accepted_le (h : Driven c) :
    ((c.pool.shared.accepted.map Job.task : List ℕ) : Multiset ℕ) ≤ Multiset.range g.total := by
  rw [h.submits.accepted, Args.total, ← sum_tasksOf]
  exact Finset.sum_le_sum fun p _ => Multiset.map_le_map (Multiset.range_le.mpr (h.turns_le p))

theorem accepted_joined (h : Driven c) (hj : c.main.joined = true) :
    ((c.pool.shared.accepted.map Job.task : List ℕ) : Multiset ℕ) = Multiset.range g.total := by
  rw [h.submits.accepted, Args.total, ← sum_tasksOf]
  refine Finset.sum_congr rfl fun p _ => ?_
  obtain ⟨hsent, hl⟩ := h.submits.ended hj p
  rw [hsent, hl]
  rfl

end Driven

/-- **Every submission is accepted**: with any numbers of producers, workers and tasks, no call of
`submitVoid` throws, the accepted tasks are those of the turns that the loops have made, and once the
producers are joined these are all tasks, each of them once. -/
theorem submissions_accepted (g : Args) (c : State g) (h : (system g).Reachable (initial g) c) :
    (∀ p r, c.pool.clients (some p) = some (.done r) → r = .accepted) ∧
      ((c.pool.shared.accepted.map Job.task : List ℕ) : Multiset ℕ) =
        ∑ p, tasksOf g p (c.sent p + turn (c.pool.clients (some p))) ∧
      ((c.pool.shared.accepted.map Job.task : List ℕ) : Multiset ℕ) ≤ Multiset.range g.total ∧
      (c.main ≠ .join →
        ((c.pool.shared.accepted.map Job.task : List ℕ) : Multiset ℕ) = Multiset.range g.total) := by
  have hc := Driven.of_reachable h
  refine ⟨?_, hc.submits.accepted, hc.accepted_le, ?_⟩
  · intro p r hr
    obtain ⟨-, hoffers | hdelivered⟩ := hc.submits.producer p _ hr
    · cases hoffers
    · cases r with
      | accepted => rfl
      | _ => cases hdelivered
  · intro hmain
    refine hc.accepted_joined ?_
    cases hm : c.main with
    | join => exact absurd hm hmain
    | _ => rfl

/-- One producer, one worker, one task. -/
abbrev one : Args := ⟨1, 1, 1⟩

/-- The producer's call of `submitVoid`. -/
def submitOne : List (Action one) :=
  .submit 0 :: List.replicate 9 (.caller (some 0) none)

theorem submissions_accepted_submitOne : ∃ c : State one,
    c.pool.clients (some 0) = some (.done .accepted) ∧
      ((c.pool.shared.accepted.map Job.task : List ℕ) : Multiset ℕ) =
        ∑ p, tasksOf one p (c.sent p + turn (c.pool.clients (some p))) ∧
      c.pool.shared.accepted.map Job.task = [0] := by
  have hrun : (((system one).run (initial one) submitOne).map fun c =>
      (c.pool.clients (some 0), c.pool.shared.accepted.map Job.task)) =
        some (some (.done .accepted), [0]) := by decide +kernel
  obtain ⟨c, hc, hres⟩ := Option.map_eq_some_iff.mp hrun
  obtain ⟨hdone, hacc⟩ := Prod.mk.inj hres
  exact ⟨c, hdone, (submissions_accepted one c (System.reachable_of_run hc)).2.1, hacc⟩

end LowLatency.PipelineDemo
