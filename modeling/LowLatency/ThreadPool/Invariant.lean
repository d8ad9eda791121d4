import LowLatency.Cell
import LowLatency.Concurrency.Slots
import LowLatency.ThreadPool.Basic

/-!
# The invariant of the thread pool

`Inv` is kept by every step (`inv_next`). Whoever holds `mtx` knows what it has read of the ring and
of `stop` since it locked the mutex; a worker that has left its loop found the ring empty and `stop`
set, and since a thread that found `stop` set inserts nothing, the ring stays empty.
-/

namespace LowLatency.ThreadPool

open Concurrency

variable {α Tid : Type*} {n : ℕ}

/-- What a worker knows. -/
def WorkerFact (s : Shared α n Tid) : Worker α → Prop
  | .unlockReturn | .exited => s.stop = true ∧ s.queue = []
  | _ => True

/-- What a thread that uses the pool knows. -/
def ClientFact (s : Shared α n Tid) (w : Fin n → Worker α) : Client α → Prop
  | .enqueueStop _ => s.stop = true ∨ s.queue.length < s.tasks.capacity.size
  | .push _ r => s.stop = false ∧ s.queue.length < s.tasks.capacity.size ∧ r ≠ .stopped
  | .submittedAdd r => s.stop = false ∧ r ≠ .stopped
  | .unlockNotify r | .notify r | .unlockLeave r | .leave r | .unlockDone r => r ≠ .stopped
  | .shutdownUnlock | .notifyAll | .notifyAllNotFull | .awaitSubmits => s.stop = true
  | .join k => s.stop = true ∧ ∀ i : Fin n, i.val < k → w i = .exited
  | .done r => r = .stopped → s.stop = true ∧ ∀ i, w i = .exited
  | _ => True

/-- The invariant of the pool. -/
structure Inv [Fintype Tid] (s : Shared α n Tid) (w : Fin n → Worker α)
    (l : Tid → Option (Client α)) : Prop where
  workerHolds : ∀ i, (w i).holds = true → s.mtx = some (.inl i)
  clientHolds : ∀ t x, l t = some x → x.holds = true → s.mtx = some (.inr t)
  ring : s.tasks.Holds s.queue
  taken : s.taken <+: s.accepted
  numbered : s.accepted.map Job.id = List.range s.accepted.length
  executed : (s.taken : Multiset (Job α)) = tally Worker.holding w + s.executed
  completed : s.completed + tally Worker.uncounted w = s.taken.length
  submitted : s.submitted + hands Client.pending l = s.accepted.length
  workerFact : ∀ i, WorkerFact s (w i)
  clientFact : ∀ t x, l t = some x → ClientFact s w x

section Facts

variable {s s' : Shared α n Tid} {w w' : Fin n → Worker α}

/-- The tasks accepted are those taken and those in the ring, in this order. -/
theorem taken_append_queue (h : s.taken <+: s.accepted) : s.taken ++ s.queue = s.accepted := by
  obtain ⟨q, hq⟩ := h
  unfold Shared.queue
  rw [← hq, List.drop_left]

theorem WorkerFact.mono {x : Worker α} (h : WorkerFact s x)
    (hstop : s.stop = true → s'.stop = true) (hqueue : s'.queue = s.queue) : WorkerFact s' x := by
  cases x with
  | unlockReturn | exited => exact ⟨hstop h.1, hqueue ▸ h.2⟩
  | _ => trivial

theorem ClientFact.congr {x : Client α} (h : ClientFact s w x) (hstop : s'.stop = s.stop)
    (hqueue : s'.queue = s.queue) (hcap : s'.tasks.capacity = s.tasks.capacity)
    (hexited : ∀ i, w i = .exited → w' i = .exited) : ClientFact s' w' x := by
  cases x with
  | join k =>
    simp only [ClientFact, hstop] at h ⊢
    exact ⟨h.1, fun i hi => hexited i (h.2 i hi)⟩
  | done r =>
    simp only [ClientFact, hstop] at h ⊢
    exact fun hr => ⟨(h hr).1, fun i => hexited i ((h hr).2 i)⟩
  | _ => simp only [ClientFact, hstop, hqueue, hcap] at h ⊢ <;> exact h

/-- A thread that does not hold the mutex knows only what nobody undoes. -/
theorem ClientFact.mono {x : Client α} (h : ClientFact s w x) (hx : x.holds = false)
    (hstop : s.stop = true → s'.stop = true)
    (hexited : ∀ i, w i = .exited → w' i = .exited) : ClientFact s' w' x := by
  cases x with
  | join k => exact ⟨hstop h.1, fun i hi => hexited i (h.2 i hi)⟩
  | done r => exact fun hr => ⟨hstop (h hr).1, fun i => hexited i ((h hr).2 i)⟩
  | notifyAll | notifyAllNotFull | awaitSubmits => exact hstop h
  | notify | leave => exact h
  | enqueueStop | push | submittedAdd | unlockNotify | unlockLeave | unlockDone
  | shutdownUnlock => cases hx
  | _ => trivial

end Facts

variable [Fintype Tid]

theorem inv_initial (r : Ring) :
    Inv (initial α n Tid r).shared (initial α n Tid r).workers (initial α n Tid r).clients where
  workerHolds i h := by cases h
  clientHolds t x h := by cases h
  ring := RingBuffer.holds_init r
  taken := List.prefix_refl _
  numbered := rfl
  executed := by
    have hzero : tally Worker.holding (initial α n Tid r).workers = 0 := tally_eq_zero fun _ => rfl
    rw [hzero]
    rfl
  completed := by
    have hzero : tally Worker.uncounted (initial α n Tid r).workers = 0 :=
      tally_eq_zero fun _ => rfl
    rw [hzero]
    rfl
  submitted := by
    have hzero : hands Client.pending (initial α n Tid r).clients = 0 := hands_eq_zero fun _ => rfl
    rw [hzero]
    rfl
  workerFact i := trivial
  clientFact t x h := by cases h

namespace Inv

variable {s s' : Shared α n Tid} {w w' : Fin n → Worker α} {l l' : Tid → Option (Client α)}
  {i : Fin n} {t : Tid} {x : Worker α} {y z : Client α}

/-! ## Waking up -/

/-- Waking up sleepers keeps the invariant. -/
theorem wake (h : Inv s w l) (hw : Woken Worker.sleeping Worker.wake w w')
    (hl : Woken Client.sleeping Client.wake l l') : Inv s w' l' := by
  have hexited : ∀ i, w i = .exited → w' i = .exited := by
    intro i hi
    rcases hw i with he | ⟨hs, _⟩
    · rw [he, hi]
    · rw [hi] at hs
      cases hs
  have hclient : ∀ u x, l' u = some x →
      l u = some x ∨ (x.holds = false ∧ ClientFact s w' x) := by
    intro u x hu
    rcases hl u with he | ⟨hs, he⟩
    · exact .inl (he ▸ hu)
    · cases hlu : l u with
      | none =>
        rw [hlu] at hs
        cases hs
      | some z =>
        rw [hlu] at hs he
        cases z with
        | notFullAsleep task =>
          rw [hu] at he
          cases he
          exact .inr ⟨rfl, trivial⟩
        | _ => cases hs
  constructor
  · intro i hi
    refine h.workerHolds i ?_
    rwa [hw.congr (f := Worker.holds) fun x hx => by cases x <;> first | rfl | cases hx] at hi
  · intro u x hu hx
    rcases hclient u x hu with hl | ⟨hh, _⟩
    · exact h.clientHolds u x hl hx
    · rw [hh] at hx
      cases hx
  · exact h.ring
  · exact h.taken
  · exact h.numbered
  · rw [h.executed, tally_congr (hw.congr fun x hx => by cases x <;> first | rfl | cases hx)]
  · rw [tally_congr (hw.congr fun x hx => by cases x <;> first | rfl | cases hx)]
    exact h.completed
  · have hp : hands Client.pending l' = hands Client.pending l := by
      refine tally_congr (hl.congr (f := hand Client.pending) fun x hx => ?_)
      rcases x with _ | x
      · rfl
      · cases x <;> rfl
    rw [hp]
    exact h.submitted
  · intro i
    rcases hw i with he | ⟨_, he⟩
    · rw [he]
      exact h.workerFact i
    · rw [he]
      trivial
  · intro u x hu
    rcases hclient u x hu with hl | ⟨_, hf⟩
    · exact (h.clientFact u x hl).congr rfl rfl rfl hexited
    · exact hf

/-! ## Steps of a worker -/

theorem worker_step (h : Inv s w l) (hne : w i ≠ .exited) (hacc : s'.accepted = s.accepted)
    (htaken : s'.taken = s.taken) (htasks : s'.tasks = s.tasks) (hstop : s'.stop = s.stop)
    (hsub : s'.submitted = s.submitted)
    (hexec : (s'.executed : Multiset (Job α)) + x.holding = s.executed + (w i).holding)
    (hcomp : s'.completed + x.uncounted = s.completed + (w i).uncounted)
    (hmtx : ∀ a, s.mtx = some a → a ≠ .inl i → s'.mtx = some a)
    (hhold : x.holds = true → s'.mtx = some (.inl i)) (hfact : WorkerFact s' x) :
    Inv s' (Function.update w i x) l := by
  have hqueue : s'.queue = s.queue := by unfold Shared.queue; rw [hacc, htaken]
  constructor
  · intro j hj
    by_cases he : j = i
    · subst he
      rw [Function.update_self] at hj
      exact hhold hj
    · rw [Function.update_of_ne he] at hj
      exact hmtx _ (h.workerHolds j hj) fun heq => he (Sum.inl.inj heq)
  · exact fun t y hy hh => hmtx _ (h.clientHolds t y hy hh) nofun
  · rw [htasks, hqueue]
    exact h.ring
  · rw [htaken, hacc]
    exact h.taken
  · rw [hacc]
    exact h.numbered
  · have hup := tally_update Worker.holding w i x
    refine add_right_cancel (b := x.holding + (w i).holding) ?_
    calc (s'.taken : Multiset (Job α)) + (x.holding + (w i).holding)
        = (tally Worker.holding w + x.holding) + (s.executed + (w i).holding) := by
          rw [htaken, h.executed]
          abel
      _ = (tally Worker.holding (Function.update w i x) + s'.executed) +
          (x.holding + (w i).holding) := by
          rw [← hup, ← hexec]
          abel
  · have hup := tally_update Worker.uncounted w i x
    have := h.completed
    rw [htaken]
    omega
  · rw [hsub, hacc]
    exact h.submitted
  · intro j
    by_cases he : j = i
    · subst he
      rw [Function.update_self]
      exact hfact
    · rw [Function.update_of_ne he]
      exact (h.workerFact j).mono (fun hs => hstop ▸ hs) hqueue
  · intro t y hy
    refine (h.clientFact t y hy).congr hstop hqueue (by rw [htasks]) fun j hj => ?_
    rw [Function.update_of_ne, hj]
    rintro rfl
    exact hne hj

theorem worker_lock (h : Inv s w l) (hne : w i ≠ .exited) (hs : s.lock (.inl i) = some s')
    (hx : x.holding = (w i).holding) (hxu : x.uncounted = (w i).uncounted)
    (hfact : ∀ s : Shared α n Tid, WorkerFact s x) : Inv s' (Function.update w i x) l := by
  obtain ⟨hnone, rfl⟩ := lock_eq_some hs
  refine h.worker_step hne rfl rfl rfl rfl rfl (by rw [hx]) (by rw [hxu]) ?_ (fun _ => rfl)
    (hfact _)
  intro a ha
  rw [hnone] at ha
  cases ha

theorem worker_unlock (h : Inv s w l) (hne : w i ≠ .exited) (hi : (w i).holds = true)
    (hx : x.holding = (w i).holding) (hxu : x.uncounted = (w i).uncounted) (hxh : x.holds = false)
    (hfact : WorkerFact s.unlock x) : Inv s.unlock (Function.update w i x) l := by
  refine h.worker_step hne rfl rfl rfl rfl rfl (by rw [hx]; rfl) (by rw [hxu]; rfl) ?_ ?_ hfact
  · intro a ha hne
    rw [h.workerHolds i hi] at ha
    exact absurd (Option.some.inj ha).symm hne
  · intro hh
    rw [hxh] at hh
    cases hh

theorem worker_next (h : Inv s w l) (hne : w i ≠ .exited)
    (hx : x.holding = (w i).holding) (hxu : x.uncounted = (w i).uncounted)
    (hxh : x.holds = true → (w i).holds = true) (hfact : WorkerFact s x) :
    Inv s (Function.update w i x) l :=
  h.worker_step hne rfl rfl rfl rfl rfl (by rw [hx]) (by rw [hxu]) (fun _ ha _ => ha)
    (fun hh => h.workerHolds i (hxh hh)) hfact

theorem alone_worker (h : Inv s w l) (hi : (w i).holds = true) :
    (∀ j, j ≠ i → (w j).holds = false) ∧ ∀ t y, l t = some y → y.holds = false := by
  have hm := h.workerHolds i hi
  constructor
  · intro j hj
    by_contra hh
    rw [h.workerHolds j (by simpa using hh)] at hm
    exact hj (Sum.inl.inj (Option.some.inj hm))
  · intro t y hy
    by_contra hh
    rw [h.clientHolds t y hy (by simpa using hh)] at hm
    cases hm

theorem worker_pop (h : Inv s w l) (hx : w i = .pop) :
    ∃ s' y, stepWorker i s .pop = some (s', y) ∧ Inv s' (Function.update w i y) l := by
  have hi : (w i).holds = true := by rw [hx]; rfl
  have hne : w i ≠ .exited := by rw [hx]; nofun
  have happ := taken_append_queue h.taken
  cases hq : s.queue with
  | nil =>
    have hring := h.ring
    rw [hq] at hring
    refine ⟨s, .unlockContinue, by simp only [stepWorker, hring.pop_empty], ?_⟩
    exact h.worker_next hne (by rw [hx]; rfl) (by rw [hx]; rfl) (fun _ => hi) trivial
  | cons j q =>
    have hring := h.ring
    rw [hq] at hring
    obtain ⟨b, hpop, hb, hcap⟩ := hring.pop
    refine ⟨{ s with tasks := b, taken := s.taken ++ [j] }, .notifyNotFull j, by
      simp only [stepWorker, hpop], ?_⟩
    have hqueue : Shared.queue { s with tasks := b, taken := s.taken ++ [j] } = q := by
      unfold Shared.queue
      show s.accepted.drop (s.taken ++ [j]).length = q
      rw [show s.accepted = s.taken ++ [j] ++ q by rw [← happ, hq, List.append_cons],
        List.drop_left]
    have hmtx := h.workerHolds i hi
    obtain ⟨hother, hclient⟩ := h.alone_worker hi
    constructor
    · intro k hk
      by_cases he : k = i
      · rw [he]
        exact hmtx
      · rw [Function.update_of_ne he, hother k he] at hk
        cases hk
    · intro t y hy hh
      rw [hclient t y hy] at hh
      cases hh
    · rw [hqueue]
      exact hb
    · refine ⟨q, ?_⟩
      show s.taken ++ [j] ++ q = s.accepted
      rw [← happ, hq, List.append_assoc, List.singleton_append]
    · exact h.numbered
    · have hup := tally_update Worker.holding w i (.notifyNotFull j)
      rw [hx] at hup
      have hup : tally Worker.holding (Function.update w i (.notifyNotFull j)) + 0 =
        tally Worker.holding w + {j} := hup
      rw [add_zero] at hup
      show ((s.taken ++ [j] : List (Job α)) : Multiset (Job α)) = _ + s.executed
      rw [← Multiset.coe_add, h.executed, Multiset.coe_singleton, hup]
      abel
    · have hup := tally_update Worker.uncounted w i (.notifyNotFull j)
      rw [hx] at hup
      have hup : tally Worker.uncounted (Function.update w i (.notifyNotFull j)) + 0 =
        tally Worker.uncounted w + 1 := hup
      have := h.completed
      show s.completed + _ = (s.taken ++ [j]).length
      rw [List.length_append, List.length_singleton]
      omega
    · exact h.submitted
    · intro k
      by_cases he : k = i
      · subst he
        rw [Function.update_self]
        trivial
      · rw [Function.update_of_ne he]
        have hfact := h.workerFact k
        cases hk : w k with
        | unlockReturn | exited =>
          rw [hk] at hfact
          rw [hfact.2] at hq
          cases hq
        | _ => trivial
    · intro t y hy
      refine (h.clientFact t y hy).mono (hclient t y hy) id fun k hk => ?_
      rw [Function.update_of_ne, hk]
      rintro rfl
      exact hne hk

/-- Every step of a worker keeps the invariant. -/
theorem step_worker (h : Inv s w l) (hs : stepWorker i s (w i) = some (s', x)) :
    Inv s' (Function.update w i x) l := by
  cases hx : w i with
  | lock | woken =>
    rw [hx] at hs
    obtain ⟨s₁, hlock, he⟩ := Option.map_eq_some_iff.mp hs
    cases he
    exact h.worker_lock (by rw [hx]; nofun) hlock (by rw [hx]; rfl) (by rw [hx]; rfl)
      fun _ => trivial
  | predicate =>
    rw [hx] at hs
    simp only [stepWorker] at hs
    split at hs <;> cases hs
    · exact h.worker_next (by rw [hx]; nofun) (by rw [hx]; rfl) (by rw [hx]; rfl)
        (fun _ => by rw [hx]; rfl) trivial
    · exact h.worker_unlock (by rw [hx]; nofun) (by rw [hx]; rfl) (by rw [hx]; rfl)
        (by rw [hx]; rfl) rfl trivial
  | asleep | exited =>
    rw [hx] at hs
    cases hs
  | exitTest =>
    rw [hx] at hs
    simp only [stepWorker] at hs
    split at hs <;> cases hs
    next hc =>
      rw [Bool.and_eq_true] at hc
      exact h.worker_next (by rw [hx]; nofun) (by rw [hx]; rfl) (by rw [hx]; rfl)
        (fun _ => by rw [hx]; rfl) ⟨hc.1, h.ring.empty_iff.mp hc.2⟩
    next =>
      exact h.worker_next (by rw [hx]; nofun) (by rw [hx]; rfl) (by rw [hx]; rfl)
        (fun _ => by rw [hx]; rfl) trivial
  | pop =>
    obtain ⟨s₁, y, hstep, hinv⟩ := h.worker_pop hx
    rw [hx, hstep] at hs
    cases hs
    exact hinv
  | unlockReturn =>
    have hfact := h.workerFact i
    rw [hx] at hs hfact
    cases hs
    exact h.worker_unlock (by rw [hx]; nofun) (by rw [hx]; rfl) (by rw [hx]; rfl)
      (by rw [hx]; rfl) rfl hfact
  | unlockContinue | unlock =>
    rw [hx] at hs
    cases hs
    exact h.worker_unlock (by rw [hx]; nofun) (by rw [hx]; rfl) (by rw [hx]; rfl)
      (by rw [hx]; rfl) rfl trivial
  | notifyNotFull =>
    rw [hx] at hs
    cases hs
    exact h.worker_next (by rw [hx]; nofun) (by rw [hx]; rfl) (by rw [hx]; rfl)
      (fun _ => by rw [hx]; rfl) trivial
  | busyAdd =>
    rw [hx] at hs
    cases hs
    exact h.worker_step (by rw [hx]; nofun) rfl rfl rfl rfl rfl (by rw [hx]; rfl) (by rw [hx]; rfl)
      (fun _ ha _ => ha) nofun trivial
  | execute j =>
    rw [hx] at hs
    cases hs
    refine h.worker_step (by rw [hx]; nofun) rfl rfl rfl rfl rfl ?_ (by rw [hx]; rfl)
      (fun _ ha _ => ha) nofun trivial
    rw [hx]
    show ((s.executed ++ [j] : List (Job α)) : Multiset (Job α)) + 0 = s.executed + {j}
    rw [← Multiset.coe_add, add_zero, Multiset.coe_singleton]
  | busySub =>
    rw [hx] at hs
    cases hs
    exact h.worker_step (by rw [hx]; nofun) rfl rfl rfl rfl rfl (by rw [hx]; rfl) (by rw [hx]; rfl)
      (fun _ ha _ => ha) nofun trivial
  | completedAdd =>
    rw [hx] at hs
    cases hs
    exact h.worker_step (by rw [hx]; nofun) rfl rfl rfl rfl rfl (by rw [hx]; rfl) (by rw [hx]; rfl)
      (fun _ ha _ => ha) nofun trivial

/-! ## Steps of a thread that uses the pool -/

section Client

variable [DecidableEq Tid]

omit [DecidableEq Tid] in
theorem alone_client (h : Inv s w l) (hy : l t = some y) (hh : y.holds = true) :
    (∀ i, (w i).holds = false) ∧ ∀ u z, u ≠ t → l u = some z → z.holds = false := by
  have hm := h.clientHolds t y hy hh
  constructor
  · intro i
    by_contra hi
    rw [h.workerHolds i (by simpa using hi)] at hm
    cases hm
  · intro u z hu hz
    by_contra hi
    rw [h.clientHolds u z hz (by simpa using hi)] at hm
    exact hu (Sum.inr.inj (Option.some.inj hm))

theorem client_step (h : Inv s w l) (hy : l t = some y) (hacc : s'.accepted = s.accepted)
    (htaken : s'.taken = s.taken) (hexec : s'.executed = s.executed)
    (hcomp : s'.completed = s.completed) (htasks : s'.tasks = s.tasks)
    (hsub : s'.submitted + z.pending = s.submitted + y.pending)
    (hstop : s'.stop = s.stop ∨ (y.holds = true ∧ s'.stop = true))
    (hmtx : ∀ a, s.mtx = some a → a ≠ .inr t → s'.mtx = some a)
    (hhold : z.holds = true → s'.mtx = some (.inr t)) (hfact : ClientFact s' w z) :
    Inv s' w (Function.update l t (some z)) := by
  have hqueue : s'.queue = s.queue := by unfold Shared.queue; rw [hacc, htaken]
  have hmono : s.stop = true → s'.stop = true := fun hs => by
    rcases hstop with he | ⟨_, he⟩
    · rw [he, hs]
    · exact he
  constructor
  · exact fun i hi => hmtx _ (h.workerHolds i hi) nofun
  · intro u x hu hx
    rcases update_eq_some hu with ⟨rfl, ho⟩ | ⟨hne, hu⟩
    · exact hhold (Option.some.inj ho ▸ hx)
    · exact hmtx _ (h.clientHolds u x hu hx) fun heq => hne (Sum.inr.inj heq)
  · rw [htasks, hqueue]
    exact h.ring
  · rw [htaken, hacc]
    exact h.taken
  · rw [hacc]
    exact h.numbered
  · rw [htaken, hexec]
    exact h.executed
  · rw [hcomp, htaken]
    exact h.completed
  · have hup := hands_update Client.pending l t (some z)
    rw [hy] at hup
    have hup : hands Client.pending (Function.update l t (some z)) + y.pending =
      hands Client.pending l + z.pending := hup
    have := h.submitted
    rw [hacc]
    omega
  · exact fun i => (h.workerFact i).mono hmono hqueue
  · intro u x hu
    rcases update_eq_some hu with ⟨rfl, ho⟩ | ⟨hne, hu⟩
    · exact Option.some.inj ho ▸ hfact
    · have hold := h.clientFact u x hu
      rcases hstop with he | ⟨hh, _⟩
      · exact hold.congr he hqueue (by rw [htasks]) fun _ hi => hi
      · exact hold.mono ((h.alone_client hy hh).2 u x hne hu) hmono fun _ hi => hi

theorem client_lock (h : Inv s w l) (hy : l t = some y) (hs : s.lock (.inr t) = some s')
    (hzp : z.pending = y.pending)
    (hfact : ∀ s : Shared α n Tid, ClientFact s w z) : Inv s' w (Function.update l t (some z)) := by
  obtain ⟨hnone, rfl⟩ := lock_eq_some hs
  refine h.client_step hy rfl rfl rfl rfl rfl (by rw [hzp]) (.inl rfl) ?_ (fun _ => rfl) (hfact _)
  intro a ha
  rw [hnone] at ha
  cases ha

theorem client_unlock (h : Inv s w l) (hy : l t = some y) (hh : y.holds = true)
    (hzp : z.pending = y.pending) (hzh : z.holds = false) (hfact : ClientFact s.unlock w z) :
    Inv s.unlock w (Function.update l t (some z)) := by
  refine h.client_step hy rfl rfl rfl rfl rfl (by rw [hzp]; rfl) (.inl rfl) ?_ ?_ hfact
  · intro a ha hne
    rw [h.clientHolds t y hy hh] at ha
    exact absurd (Option.some.inj ha).symm hne
  · intro hz
    rw [hzh] at hz
    cases hz

theorem client_next (h : Inv s w l) (hy : l t = some y) (hzp : z.pending = y.pending)
    (hzh : z.holds = true → y.holds = true) (hfact : ClientFact s w z) :
    Inv s w (Function.update l t (some z)) :=
  h.client_step hy rfl rfl rfl rfl rfl (by rw [hzp]) (.inl rfl) (fun _ ha _ => ha)
    (fun hz => h.clientHolds t y hy (hzh hz)) hfact

theorem client_push (h : Inv s w l) {task : α} {r : Result} (hy : l t = some (.push task r)) :
    ∃ b, s.tasks.push ⟨s.accepted.length, task⟩ = (b, .put) ∧
      Inv { s with tasks := b, accepted := s.accepted ++ [⟨s.accepted.length, task⟩] } w
        (Function.update l t (some (.submittedAdd r))) := by
  obtain ⟨hstop, hroom, hr⟩ : s.stop = false ∧ s.queue.length < s.tasks.capacity.size ∧
    r ≠ .stopped := h.clientFact t _ hy
  obtain ⟨hput, hring, hcap⟩ := h.ring.push hroom ⟨s.accepted.length, task⟩
  have hmtx := h.clientHolds t _ hy rfl
  obtain ⟨hworkers, hothers⟩ := h.alone_client hy rfl
  refine ⟨_, Prod.ext rfl hput, ?_⟩
  set j : Job α := ⟨s.accepted.length, task⟩ with hj
  have hqueue : Shared.queue
      { s with tasks := (s.tasks.push j).1, accepted := s.accepted ++ [j] } = s.queue ++ [j] := by
    unfold Shared.queue
    show (s.accepted ++ [j]).drop s.taken.length = s.accepted.drop s.taken.length ++ [j]
    rw [List.drop_append_of_le_length h.taken.length_le]
  constructor
  · intro i hi
    rw [hworkers i] at hi
    cases hi
  · intro u x hu hx
    rcases update_eq_some hu with ⟨rfl, _⟩ | ⟨hne, hu⟩
    · exact hmtx
    · rw [hothers u x hne hu] at hx
      cases hx
  · rw [hqueue]
    exact hring
  · exact h.taken.trans (List.prefix_append _ _)
  · show (s.accepted ++ [j]).map Job.id = List.range (s.accepted ++ [j]).length
    rw [List.map_append, h.numbered, List.length_append, List.length_singleton, List.range_succ,
      List.map_singleton]
  · exact h.executed
  · exact h.completed
  · have hup := hands_update Client.pending l t (some (.submittedAdd r))
    rw [hy] at hup
    have hup : hands Client.pending (Function.update l t (some (.submittedAdd r))) + 0 =
      hands Client.pending l + 1 := hup
    have := h.submitted
    show s.submitted + _ = (s.accepted ++ [j]).length
    rw [List.length_append, List.length_singleton]
    omega
  · intro i
    have hfact := h.workerFact i
    cases hi : w i with
    | unlockReturn | exited =>
      rw [hi] at hfact
      rw [hfact.1] at hstop
      cases hstop
    | _ => trivial
  · intro u x hu
    rcases update_eq_some hu with ⟨rfl, ho⟩ | ⟨hne, hu⟩
    · obtain rfl := Option.some.inj ho
      exact ⟨hstop, hr⟩
    · exact (h.clientFact u x hu).mono (hothers u x hne hu) id fun _ hi => hi

/-- Every step of a client keeps the invariant. -/
theorem step_client (h : Inv s w l) {policy : RejectPolicy} (hy : l t = some y)
    (hs : stepClient policy w t s y = some (s', z)) :
    Inv s' w (Function.update l t (some z)) := by
  have hfact := h.clientFact t y hy
  cases y with
  | submitEnter | tryEnter =>
    cases hs
    exact h.client_step hy rfl rfl rfl rfl rfl rfl (.inl rfl) (fun _ ha _ => ha) nofun trivial
  | enqueueLock | notFullWoken | tryLock | shutdownLock | idleLock | sizeLock =>
    obtain ⟨s₁, hlock, he⟩ := Option.map_eq_some_iff.mp hs
    cases he
    exact h.client_lock hy hlock rfl fun _ => trivial
  | enqueuePolicy task =>
    have hroom : s.tasks.full = false → s.queue.length < s.tasks.capacity.size := by
      intro hf
      have hle := h.ring.le
      have hne : s.queue.length ≠ s.tasks.capacity.size := fun he => by
        rw [h.ring.full_iff.mpr he] at hf
        cases hf
      omega
    cases policy with
    | block =>
      simp only [stepClient] at hs
      split at hs <;> cases hs
      next hc =>
        refine h.client_next hy rfl (fun _ => rfl) ?_
        rw [Bool.or_eq_true, Bool.not_eq_true'] at hc
        exact hc.imp_right hroom
      next => exact h.client_unlock hy rfl rfl rfl trivial
    | discard =>
      simp only [stepClient] at hs
      split at hs <;> cases hs
      next => exact h.client_next hy rfl (fun _ => rfl) nofun
      next hc =>
        exact h.client_next hy rfl (fun _ => rfl) (.inr (hroom (by simpa using hc)))
    | throw =>
      simp only [stepClient] at hs
      split at hs <;> cases hs
      next => exact h.client_next hy rfl (fun _ => rfl) nofun
      next hc =>
        exact h.client_next hy rfl (fun _ => rfl) (.inr (hroom (by simpa using hc)))
  | notFullAsleep | done => cases hs
  | enqueueStop task =>
    simp only [stepClient] at hs
    split at hs <;> cases hs
    next => exact h.client_next hy rfl (fun _ => rfl) nofun
    next hc =>
      refine h.client_next hy rfl (fun _ => rfl) ⟨by simpa using hc, ?_, nofun⟩
      exact hfact.resolve_left hc
  | tryStop =>
    simp only [stepClient] at hs
    split at hs <;> cases hs
    next => exact h.client_next hy rfl nofun nofun
    next => exact h.client_next hy rfl nofun trivial
  | tryTest =>
    simp only [stepClient] at hs
    split at hs <;> cases hs
    next => exact h.client_next hy rfl (fun _ => rfl) nofun
    next hc =>
      rw [Bool.or_eq_true, not_or] at hc
      have hne : s.queue.length ≠ s.tasks.capacity.size :=
        fun he => hc.2 (h.ring.full_iff.mpr he)
      have hle := h.ring.le
      exact h.client_next hy rfl (fun _ => rfl) ⟨by simpa using hc.1, by omega, nofun⟩
  | push task r =>
    obtain ⟨b, hpush, hinv⟩ := h.client_push hy
    simp only [stepClient, hpush] at hs
    cases hs
    exact hinv
  | submittedAdd r =>
    cases hs
    exact h.client_step hy rfl rfl rfl rfl rfl rfl (.inl rfl) (fun _ ha _ => ha)
      (fun _ => h.clientHolds t _ hy rfl) hfact.2
  | unlockNotify | unlockLeave =>
    cases hs
    exact h.client_unlock hy rfl rfl rfl hfact
  | notify =>
    cases hs
    exact h.client_next hy rfl nofun hfact
  | leave r =>
    cases hs
    exact h.client_step hy rfl rfl rfl rfl rfl rfl (.inl rfl) (fun _ ha _ => ha) nofun
      fun hr => absurd hr hfact
  | shutdownTest =>
    simp only [stepClient] at hs
    split at hs <;> cases hs
    next => exact h.client_next hy rfl (fun _ => rfl) nofun
    next => exact h.client_next hy rfl (fun _ => rfl) trivial
  | shutdownSet =>
    cases hs
    exact h.client_step hy rfl rfl rfl rfl rfl rfl (.inr ⟨rfl, rfl⟩) (fun _ ha _ => ha)
      (fun _ => h.clientHolds t _ hy rfl) rfl
  | shutdownUnlock =>
    cases hs
    exact h.client_unlock hy rfl rfl rfl hfact
  | notifyAll | notifyAllNotFull =>
    cases hs
    exact h.client_next hy rfl nofun hfact
  | awaitSubmits =>
    simp only [stepClient] at hs
    split at hs <;> cases hs
    next => exact h.client_next hy rfl nofun ⟨hfact, fun i hi => absurd hi (Nat.not_lt_zero _)⟩
    next => exact h.client_next hy rfl nofun hfact
  | join k =>
    simp only [stepClient] at hs
    split at hs
    next hk =>
      cases hw : w ⟨k, hk⟩ with
      | exited =>
        rw [hw] at hs
        cases hs
        refine h.client_next hy rfl nofun ⟨hfact.1, fun i hi => ?_⟩
        rcases Nat.lt_succ_iff_lt_or_eq.mp hi with hlt | he
        · exact hfact.2 i hlt
        · rw [← hw]
          exact congrArg w (Fin.ext he)
      | _ =>
        rw [hw] at hs
        cases hs
    next hk =>
      cases hs
      exact h.client_next hy rfl nofun fun _ => ⟨hfact.1, fun i => hfact.2 i (by omega)⟩
  | idleBusy | idleEmpty | sizeRead =>
    cases hs
    exact h.client_next hy rfl (fun _ => rfl) (by first | trivial | nofun)
  | unlockDone r =>
    cases hs
    exact h.client_unlock hy rfl rfl rfl fun hr => absurd hr hfact

omit [DecidableEq Tid] in
theorem client_idle [DecidableEq Tid] (h : Inv s w l) {o : Option (Client α)}
    (hl : ∀ y, l t = some y → y.pending = 0) (ho : ∀ z, o = some z → z.pending = 0 ∧
      z.holds = false ∧ ClientFact s w z) : Inv s w (Function.update l t o) := by
  constructor
  · exact h.workerHolds
  · intro u x hu hx
    rcases update_eq_some hu with ⟨rfl, hz⟩ | ⟨_, hu⟩
    · rw [(ho x hz).2.1] at hx
      cases hx
    · exact h.clientHolds u x hu hx
  · exact h.ring
  · exact h.taken
  · exact h.numbered
  · exact h.executed
  · exact h.completed
  · have hup := hands_update Client.pending l t o
    have h0 : hand Client.pending (l t) = 0 := by
      cases hy : l t with
      | none => rfl
      | some y => exact hl y hy
    have h1 : hand Client.pending o = 0 := by
      cases hz : o with
      | none => rfl
      | some z => exact (ho z hz).1
    have := h.submitted
    omega
  · exact h.workerFact
  · intro u x hu
    rcases update_eq_some hu with ⟨rfl, hz⟩ | ⟨_, hu⟩
    · exact (ho x hz).2.2
    · exact h.clientFact u x hu

theorem call {op : Op α} (h : Inv s w l) (hl : l t = none) :
    Inv s w (Function.update l t (some (start op))) := by
  refine h.client_idle (fun y hy => by rw [hl] at hy; cases hy) ?_
  rintro _ ⟨⟩
  cases op <;> exact ⟨rfl, rfl, trivial⟩

theorem ret {r : Result} (h : Inv s w l) (hl : l t = some (.done r)) :
    Inv s w (Function.update l t none) :=
  h.client_idle (fun y hy => by rw [hl] at hy; cases hy; rfl) nofun

end Client

end Inv

/-- Every action keeps the invariant. -/
theorem inv_next [DecidableEq Tid] {policy : RejectPolicy} {c c' : State α n Tid}
    {a : Action α n Tid} (h : Inv c.shared c.workers c.clients)
    (hn : (system policy).next c a = some c') : Inv c'.shared c'.workers c'.clients :=
  next_induction (I := Inv) (fun hi hw hl => hi.wake hw hl) (fun _ hi hl => hi.call hl)
    (fun hi hl => hi.ret hl) (fun hi hs => hi.step_worker hs) (fun hi hx hs => hi.step_client hx hs)
    h hn

end LowLatency.ThreadPool
