import LowLatency.ThreadPool.Drain

/-!
# What `idle()` tells

`idle()` holds the mutex while it loads `busy_workers` and looks at the ring. A worker counts itself
in `busy_workers` after it has taken its task and unlocked the mutex, so that in between the task is
neither in the ring nor counted. As long as `idle()` does not load `busy_workers` at such a moment,
its answer is right (`idle_truthful`); at such a moment it can be wrong (`idle_wrong`).
-/

namespace LowLatency.ThreadPool

open Concurrency

variable {α Tid : Type*} {n : ℕ}

/-- Counted in `busy_workers`. -/
def Worker.busies : Worker α → ℕ
  | .execute _ | .busySub _ => 1
  | _ => 0

/-- Inside `submit`, `submitVoid` or `trySubmit`. -/
def Client.submitting : Client α → Bool
  | .shutdownLock | .shutdownTest | .shutdownSet | .shutdownUnlock | .notifyAll
  | .notifyAllNotFull | .awaitSubmits | .join _ | .idleLock | .idleBusy | .idleEmpty _ | .sizeLock
  | .sizeRead | .unlockDone _ | .done _ => false
  | _ => true

/-- No submission is in progress. -/
def Quiet (l : Tid → Option (Client α)) : Prop := ∀ t x, l t = some x → x.submitting = false

theorem quiet_of_any {l : Tid → Option (Client α)} (h : ∀ t, (l t).any Client.submitting = false) :
    Quiet l := by
  intro t x hx
  have hany := h t
  rw [hx] at hany
  exact hany

/-- A submission begins. -/
def Action.submits : Action α n Tid → Bool
  | .call _ (.submit _) | .call _ (.trySubmit _) => true
  | _ => false

/-- When thread `t` is about to find `busy_workers` zero with an empty ring, no worker has a task that
it has not counted yet. -/
def Seen (t : Tid) (c : State α n Tid) : Action α n Tid → Prop
  | .client u _ => u = t → c.clients t = some .idleBusy → c.shared.busy = 0 →
    c.shared.tasks.empty = true → ∀ i j, c.workers i ≠ .busyAdd j
  | _ => True

/-- Every accepted task has been executed: none is queued, and no worker has one. -/
structure Finished (c : State α n Tid) : Prop where
  executed : c.shared.executed.Perm c.shared.accepted
  empty : c.shared.tasks.empty = true
  holding : ∀ i, (c.workers i).holding = 0

/-! ## Steps while no submission is in progress -/

section Steps

variable {s s' : Shared α n Tid} {w : Fin n → Worker α} {i : Fin n} {t : Tid} {policy : RejectPolicy}

/-- A worker's step and `busy_workers`, the executed tasks and the ring. -/
theorem stepWorker_busy {x y : Worker α} (hs : stepWorker i s x = some (s', y)) :
    (x.busies ≤ s.busy → s'.busy + x.busies = s.busy + y.busies) ∧ s.executed <+: s'.executed ∧
      (s'.tasks = s.tasks ∨ x.holds = true) := by
  cases x with
  | lock | woken =>
    obtain ⟨s₁, hlock, he⟩ := Option.map_eq_some_iff.mp hs
    cases he
    obtain ⟨_, rfl⟩ := lock_eq_some hlock
    exact ⟨fun _ => rfl, List.prefix_refl _, .inl rfl⟩
  | predicate | exitTest =>
    simp only [stepWorker] at hs
    split at hs <;> cases hs <;> exact ⟨fun _ => rfl, List.prefix_refl _, .inl rfl⟩
  | pop =>
    simp only [stepWorker] at hs
    split at hs <;> cases hs <;> exact ⟨fun _ => rfl, List.prefix_refl _, .inr rfl⟩
  | busySub j =>
    cases hs
    exact ⟨fun hle => Nat.sub_add_cancel hle, List.prefix_refl _, .inl rfl⟩
  | execute j =>
    cases hs
    exact ⟨fun _ => rfl, List.prefix_append _ _, .inl rfl⟩
  | asleep | exited => cases hs
  | _ =>
    cases hs
    exact ⟨fun _ => rfl, List.prefix_refl _, .inl rfl⟩

/-- Only workers execute tasks and count themselves as busy. -/
theorem stepClient_executed {x y : Client α} (hs : stepClient policy w t s x = some (s', y)) :
    s'.busy = s.busy ∧ s'.executed = s.executed := by
  cases x with
  | enqueueLock | notFullWoken | tryLock | shutdownLock | idleLock | sizeLock =>
    obtain ⟨s₁, hlock, he⟩ := Option.map_eq_some_iff.mp hs
    cases he
    obtain ⟨_, rfl⟩ := lock_eq_some hlock
    exact ⟨rfl, rfl⟩
  | enqueuePolicy =>
    cases policy <;> simp only [stepClient] at hs <;> split at hs <;> cases hs <;> exact ⟨rfl, rfl⟩
  | enqueueStop | tryStop | tryTest | shutdownTest | awaitSubmits | push =>
    simp only [stepClient] at hs
    split at hs <;> cases hs <;> exact ⟨rfl, rfl⟩
  | join k =>
    simp only [stepClient] at hs
    split at hs
    · split at hs <;> cases hs
      exact ⟨rfl, rfl⟩
    · cases hs
      exact ⟨rfl, rfl⟩
  | notFullAsleep | done => cases hs
  | _ =>
    cases hs
    exact ⟨rfl, rfl⟩

/-- What a thread that submits nothing does, and how it comes to the answers of `idle()`. -/
structure Silent (s s' : Shared α n Tid) (x y : Client α) : Prop where
  submitting : y.submitting = false
  tasks : s'.tasks = s.tasks
  accepted : s'.accepted = s.accepted
  busySeen : y = .idleEmpty true → x = .idleBusy ∧ s.busy = 0
  emptySeen : y = .unlockDone (.isIdle true) → x = .idleEmpty true ∧ s.tasks.empty = true
  answered : y = .done (.isIdle true) → x = .unlockDone (.isIdle true)

theorem stepClient_silent {x y : Client α} (hs : stepClient policy w t s x = some (s', y))
    (hx : x.submitting = false) : Silent s s' x y := by
  cases x with
  | shutdownLock | idleLock | sizeLock =>
    obtain ⟨s₁, hlock, he⟩ := Option.map_eq_some_iff.mp hs
    cases he
    obtain ⟨_, rfl⟩ := lock_eq_some hlock
    exact ⟨rfl, rfl, rfl, (by simp), (by simp), (by simp)⟩
  | shutdownTest | awaitSubmits =>
    simp only [stepClient] at hs
    split at hs <;> cases hs <;> exact ⟨rfl, rfl, rfl, (by simp), (by simp), (by simp)⟩
  | join k =>
    simp only [stepClient] at hs
    split at hs
    · split at hs <;> cases hs
      exact ⟨rfl, rfl, rfl, (by simp), (by simp), (by simp)⟩
    · cases hs
      exact ⟨rfl, rfl, rfl, (by simp), (by simp), (by simp)⟩
  | idleBusy =>
    cases hs
    refine ⟨rfl, rfl, rfl, fun he => ⟨rfl, ?_⟩, (by simp), (by simp)⟩
    exact of_decide_eq_true (Client.idleEmpty.inj he)
  | idleEmpty b =>
    cases hs
    refine ⟨rfl, rfl, rfl, (by simp), fun he => ?_, (by simp)⟩
    obtain ⟨rfl, hempty⟩ := (Bool.and_eq_true _ _).mp (Result.isIdle.inj (Client.unlockDone.inj he))
    exact ⟨rfl, hempty⟩
  | unlockDone r =>
    cases hs
    exact ⟨rfl, rfl, rfl, (by simp), (by simp), fun he => congrArg _ (Client.done.inj he)⟩
  | shutdownSet | shutdownUnlock | notifyAll | notifyAllNotFull | sizeRead =>
    cases hs
    exact ⟨rfl, rfl, rfl, (by simp), (by simp), (by simp)⟩
  | done r => cases hs
  | _ => cases hx

end Steps

/-! ## Right answers -/

section Main

variable [Fintype Tid] [DecidableEq Tid]

/-- Every accepted task has been executed. -/
def AllDone (s : Shared α n Tid) : Prop := (s.executed : Multiset (Job α)) = s.accepted

namespace Inv

variable {s s' : Shared α n Tid} {w w' : Fin n → Worker α} {l l' : Tid → Option (Client α)}

omit [DecidableEq Tid] in
theorem executed_le (h : Inv s w l) : (s.executed : Multiset (Job α)) ≤ s.accepted := by
  refine le_trans ?_ (Multiset.coe_le.mpr h.taken.sublist.subperm)
  rw [h.executed]
  exact Multiset.le_add_left _ _

omit [DecidableEq Tid] in
/-- Nothing is left to execute when all accepted tasks have been executed. -/
theorem finished {c : State α n Tid} (h : Inv c.shared c.workers c.clients)
    (hall : AllDone c.shared) : Finished c := by
  have htaken : (c.shared.taken : Multiset (Job α)) = c.shared.accepted := by
    refine le_antisymm (Multiset.coe_le.mpr h.taken.sublist.subperm) ?_
    rw [← hall, h.executed]
    exact Multiset.le_add_left _ _
  have hholding : tally Worker.holding c.workers = 0 := by
    have he := h.executed
    rw [htaken, ← hall] at he
    exact add_eq_right.mp he.symm
  refine ⟨Multiset.coe_eq_coe.mp hall, h.ring.empty_iff.mpr ?_, fun i => ?_⟩
  · have hlen := congrArg Multiset.card htaken
    rw [Multiset.coe_card, Multiset.coe_card] at hlen
    exact List.drop_eq_nil_of_le hlen.ge
  · exact Finset.sum_eq_zero_iff.mp hholding i (Finset.mem_univ i)

omit [DecidableEq Tid] in
/-- Without submissions what has been executed is all there is. -/
theorem allDone_mono (h : Inv s' w' l') (hacc : s'.accepted = s.accepted)
    (hexec : s.executed <+: s'.executed) (hall : AllDone s) : AllDone s' := by
  refine le_antisymm h.executed_le ?_
  rw [hacc, ← hall]
  exact Multiset.coe_le.mpr hexec.sublist.subperm

end Inv

omit [Fintype Tid] in
theorem Quiet.update {l : Tid → Option (Client α)} (h : Quiet l) {t : Tid} {o : Option (Client α)}
    (ho : ∀ y, o = some y → y.submitting = false) : Quiet (Function.update l t o) := by
  intro u x hu
  rcases update_eq_some hu with ⟨_, hx⟩ | ⟨_, hu⟩
  · exact ho x hx
  · exact h u x hu

omit [Fintype Tid] [DecidableEq Tid] in
/-- While no submission is in progress, nobody sleeps on `not_full_cv`. -/
theorem Quiet.woken {l l' : Tid → Option (Client α)} (h : Quiet l)
    (hl : Woken Client.sleeping Client.wake l l') : l' = l := by
  funext t
  rcases hl t with he | ⟨hs, _⟩
  · exact he
  · cases hx : l t with
    | none =>
      rw [hx] at hs
      cases hs
    | some x =>
      have hquiet := h t x hx
      rw [hx] at hs
      cases x <;> first | (cases hquiet; done) | cases hs

/-- What is kept while no submission is in progress; `A` are the tasks accepted before. -/
structure Truthful (t : Tid) (A : List (Job α)) (c : State α n Tid) : Prop where
  inv : Inv c.shared c.workers c.clients
  busy : c.shared.busy = tally Worker.busies c.workers
  quiet : Quiet c.clients
  accepted : c.shared.accepted = A
  busySeen : c.clients t = some (.idleEmpty true) → c.shared.tasks.empty = true → AllDone c.shared
  emptySeen : c.clients t = some (.unlockDone (.isIdle true)) → AllDone c.shared
  answered : c.clients t = some (.done (.isIdle true)) → AllDone c.shared

theorem busy_next {policy : RejectPolicy} {c c' : State α n Tid} {a : Action α n Tid}
    (h : c.shared.busy = tally Worker.busies c.workers) (hn : next policy c a = some c') :
    c'.shared.busy = tally Worker.busies c'.workers := by
  refine next_induction (I := fun s w _ => s.busy = tally Worker.busies w) ?_ (fun _ hi _ => hi)
    (fun hi _ => hi) ?_ ?_ h hn
  · intro s w w' l l' hi hw _
    rw [hi, tally_congr (hw.congr fun x hx => by cases x <;> first | rfl | cases hx)]
  · intro s s' w l i y hi hs
    have hup := tally_update Worker.busies w i y
    have hle : (w i).busies ≤ s.busy := hi ▸ le_tally Worker.busies w i
    have hbusy := (stepWorker_busy hs).1 hle
    omega
  · intro s s' w l t x y hi _ hs
    rw [← hi]
    exact (stepClient_executed hs).1

variable {policy : RejectPolicy} {c c' : State α n Tid} {t : Tid} {A : List (Job α)}

omit [DecidableEq Tid] in
/-- With the ring empty and `busy_workers` zero, all tasks have been executed if no worker is about
to count itself. -/
theorem allDone_of_seen (h : Inv c.shared c.workers c.clients)
    (hcount : c.shared.busy = tally Worker.busies c.workers) (ht : c.clients t = some .idleBusy)
    (hbusy : c.shared.busy = 0) (hempty : c.shared.tasks.empty = true)
    (hseen : ∀ i j, c.workers i ≠ .busyAdd j) : AllDone c.shared := by
  have hholding : tally Worker.holding c.workers = 0 := by
    refine tally_eq_zero fun i => ?_
    have hfree := (h.alone_client ht rfl).1 i
    have hle := le_tally Worker.busies c.workers i
    rw [← hcount, hbusy] at hle
    cases hx : c.workers i with
    | notifyNotFull | unlock =>
      rw [hx] at hfree
      cases hfree
    | execute =>
      rw [hx] at hle
      exact absurd hle (Nat.not_succ_le_zero 0)
    | busyAdd j => exact absurd hx (hseen i j)
    | _ => rfl
  have happ := taken_append_queue h.taken
  rw [h.ring.empty_iff.mp hempty, List.append_nil] at happ
  have hexec := h.executed
  rw [hholding, zero_add, happ] at hexec
  exact hexec.symm

namespace Truthful

omit [DecidableEq Tid] in
theorem other (h : Truthful t A c) (hinv : Inv c'.shared c'.workers c'.clients)
    (hbusy : c'.shared.busy = tally Worker.busies c'.workers) (hquiet : Quiet c'.clients)
    (hacc : c'.shared.accepted = c.shared.accepted)
    (hexec : c.shared.executed <+: c'.shared.executed)
    (htasks : c.clients t = some (.idleEmpty true) → c'.shared.tasks = c.shared.tasks)
    (ht : c'.clients t = c.clients t) : Truthful t A c' where
  inv := hinv
  busy := hbusy
  quiet := hquiet
  accepted := hacc.trans h.accepted
  busySeen hx hempty := by
    rw [ht] at hx
    rw [htasks hx] at hempty
    exact hinv.allDone_mono hacc hexec (h.busySeen hx hempty)
  emptySeen hx := hinv.allDone_mono hacc hexec (h.emptySeen (ht ▸ hx))
  answered hx := hinv.allDone_mono hacc hexec (h.answered (ht ▸ hx))

/-- Every action, as long as no submission begins and `t` does not load `busy_workers` too early. -/
theorem next {a : Action α n Tid} (h : Truthful t A c) (hno : a.submits = false)
    (hseen : Seen t c a) (hn : ThreadPool.next policy c a = some c') : Truthful t A c' := by
  have hinv : Inv c'.shared c'.workers c'.clients := inv_next h.inv hn
  have hbusy := busy_next h.busy hn
  cases a with
  | call u op =>
    obtain ⟨hnone, rfl⟩ := next_call hn
    have hquiet : Quiet (Function.update c.clients u (some (start op))) :=
      h.quiet.update fun y hy => by
        obtain rfl := Option.some.inj hy
        cases op <;> first | rfl | cases hno
    by_cases hut : t = u
    · subst hut
      refine ⟨hinv, hbusy, hquiet, h.accepted, ?_, ?_, ?_⟩
      all_goals
        intro hx
        replace hx := (Function.update_self ..).symm.trans hx
        cases op <;> cases hx
    · exact h.other hinv hbusy hquiet rfl (List.prefix_refl _) (fun _ => rfl)
        (Function.update_of_ne hut ..)
  | ret u =>
    obtain ⟨r, hdone, rfl⟩ := next_ret hn
    have hquiet : Quiet (Function.update c.clients u none) := h.quiet.update nofun
    by_cases hut : t = u
    · subst hut
      refine ⟨hinv, hbusy, hquiet, h.accepted, ?_, ?_, ?_⟩
      all_goals
        intro hx
        replace hx := (Function.update_self ..).symm.trans hx
        cases hx
    · exact h.other hinv hbusy hquiet rfl (List.prefix_refl _) (fun _ => rfl)
        (Function.update_of_ne hut ..)
  | worker i wakes =>
    obtain ⟨s, y, l, hs, hl, rfl⟩ := next_worker hn
    obtain rfl := h.quiet.woken (woken_wakeProducers hl)
    obtain ⟨_, hexec, htasks⟩ := stepWorker_busy hs
    refine h.other hinv hbusy h.quiet (stepWorker_frame hs).2.1 hexec (fun hx => ?_) rfl
    refine htasks.resolve_right fun hholds => ?_
    rw [(h.inv.alone_client hx rfl).1 i] at hholds
    cases hholds
  | client u wakes =>
    obtain ⟨x, s, y, w, hx, hs, hw, rfl⟩ := next_client hn
    have hsilent := stepClient_silent hs (h.quiet u x hx)
    have hexec := (stepClient_executed hs).2
    rw [h.quiet.woken (woken_wakeAllProducers x _)] at hinv ⊢
    have hquiet : Quiet (Function.update c.clients u (some y)) :=
      h.quiet.update fun z hz => Option.some.inj hz ▸ hsilent.submitting
    by_cases hut : t = u
    · subst hut
      have hmono : AllDone c.shared → AllDone s := by
        refine hinv.allDone_mono hsilent.accepted ?_
        rw [hexec]
      refine ⟨hinv, hbusy, hquiet, hsilent.accepted.trans h.accepted, ?_, ?_, ?_⟩
      · intro hy hempty
        replace hy := (Function.update_self ..).symm.trans hy
        obtain ⟨rfl, hzero⟩ := hsilent.busySeen (Option.some.inj hy)
        rw [hsilent.tasks] at hempty
        exact hmono (allDone_of_seen h.inv h.busy hx hzero hempty (hseen rfl hx hzero hempty))
      · intro hy
        replace hy := (Function.update_self ..).symm.trans hy
        obtain ⟨rfl, hempty⟩ := hsilent.emptySeen (Option.some.inj hy)
        exact hmono (h.busySeen hx hempty)
      · intro hy
        replace hy := (Function.update_self ..).symm.trans hy
        obtain rfl := hsilent.answered (Option.some.inj hy)
        exact hmono (h.emptySeen hx)
    · exact h.other hinv hbusy hquiet hsilent.accepted (by rw [hexec]) (fun _ => hsilent.tasks)
        (Function.update_of_ne hut ..)
  | spuriousWorker i =>
    obtain ⟨_, rfl⟩ := next_spuriousWorker hn
    exact h.other hinv hbusy h.quiet rfl (List.prefix_refl _) (fun _ => rfl) rfl
  | spuriousClient u =>
    obtain ⟨hs, rfl⟩ := next_spuriousClient hn
    have hsame := h.quiet.woken (woken_update hs)
    rw [hsame] at hinv ⊢
    exact h.other hinv hbusy h.quiet rfl (List.prefix_refl _) (fun _ => rfl) rfl

end Truthful

/-- When `idle()` answers true, every task accepted before the call has been executed, provided that
no submission overlaps the call and `busy_workers` is not loaded too early. -/
theorem idle_truthful (policy : RejectPolicy) (r : Ring)
    (hc : (system policy).Reachable (initial α n Tid r) c) (ht : c.clients t = some .idleLock)
    (hquiet : Quiet c.clients)
    (h : (system policy).Reach (fun c a => a.submits = false ∧ Seen t c a) c c')
    (hdone : c'.clients t = some (.done (.isIdle true))) :
    c'.shared.accepted = c.shared.accepted ∧ Finished c' := by
  obtain ⟨hinv, hbusy⟩ : Inv c.shared c.workers c.clients ∧
      c.shared.busy = tally Worker.busies c.workers := by
    refine System.Reachable.invariant (I := fun c => Inv c.shared c.workers c.clients ∧
      c.shared.busy = tally Worker.busies c.workers) hc ⟨inv_initial r, ?_⟩ ?_
    · exact (tally_eq_zero fun _ => rfl).symm
    · exact fun d a d' hi hn => ⟨inv_next hi.1 hn, busy_next hi.2 hn⟩
  have hstart : Truthful t c.shared.accepted c := by
    refine ⟨hinv, hbusy, hquiet, rfl, ?_, ?_, ?_⟩
    all_goals
      intro hx
      rw [ht] at hx
      cases hx
  have hkept := h.invariant hstart fun d a d' hi hok hn => hi.next hok.1 hok.2 hn
  exact ⟨hkept.accepted, hkept.inv.finished (hkept.answered hdone)⟩

/-- When `busy_workers` is loaded too early, `idle()` can answer true with a task not executed. -/
theorem idle_wrong (policy : RejectPolicy) (c : State α n Tid) {t : Tid} {a : Action α n Tid}
    (h : ¬ Seen t c a) : ∃ c', (system policy).run c (List.replicate 3 (.client t none)) = some c' ∧
      c'.clients t = some (.done (.isIdle true)) ∧ ¬ Finished c' := by
  cases a with
  | client u wakes =>
    simp only [Seen, Classical.not_imp, not_forall, not_not] at h
    obtain ⟨rfl, hx, hbusy, hempty, i, j, hi⟩ := h
    let q (x : Client α) (s : Shared α n Tid) : State α n Tid :=
      ⟨s, c.workers, Function.update c.clients u (some x)⟩
    have hload : (system policy).next c (.client u none) =
        some (q (.idleEmpty true) c.shared) := by
      simp only [system, next, hx, Option.bind_some, stepClient, hbusy, decide_true, wakeWorkers,
        wakeAllProducers, Option.map_some, q]
    have htest : (system policy).next (q (.idleEmpty true) c.shared) (.client u none) =
        some (q (.unlockDone (.isIdle true)) c.shared) := by
      simp only [system, next, q, Function.update_self, Option.bind_some, stepClient, hempty,
        Bool.and_true, wakeWorkers, wakeAllProducers, Option.map_some, Function.update_idem]
    have hunlock : (system policy).next (q (.unlockDone (.isIdle true)) c.shared) (.client u none) =
        some (q (.done (.isIdle true)) c.shared.unlock) := by
      simp only [system, next, q, Function.update_self, Option.bind_some, stepClient, wakeWorkers,
        wakeAllProducers, Option.map_some, Function.update_idem]
    refine ⟨q (.done (.isIdle true)) c.shared.unlock, ?_, Function.update_self .., fun hf => ?_⟩
    · simp only [List.replicate_succ, List.replicate_zero, System.run_cons, hload, htest, hunlock,
        Option.bind_some, System.run_nil]
    · have hholding : (c.workers i).holding = 0 := hf.holding i
      rw [hi] at hholding
      exact Multiset.singleton_ne_zero j hholding
  | _ => exact absurd trivial h

end Main

end LowLatency.ThreadPool
