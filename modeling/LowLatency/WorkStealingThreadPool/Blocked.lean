import LowLatency.WorkStealingThreadPool.Metrics

/-!
# Waking up the producers

Under `BLOCK` a submission that finds `incoming_` full sleeps on `not_full_cv_`. The workers pop and
notify without the mutex, so a `notify_one` may come after the producer's predicate has found the queue
full and before the producer sleeps, and is lost. Every task that is left brings another notification
after it has run. Only when nothing is left is the producer stranded (`exists_stranded_producer`). `Served` is
what holds as long as no such last notification is lost.
-/

namespace LowLatency.WorkStealingThreadPool

open Concurrency

universe u

variable {α : Type u} {P : Parts (Job α)} {n : ℕ} {Tid : Type*}

/-- The producer is asleep on `not_full_cv_` or can only go to sleep; `head` is `head_` of the queue. -/
def Client.dozes (head : ℕ) : Client P n → Bool
  | .fullAsleep _ | .fullSleep _ => true
  | .fullHead _ t => decide ((P.size : ℤ) ≤ (t : ℤ) - head)
  | _ => false

/-- The producer is in the loop of `enqueueTask`, has not claimed a position, and will look at the
queue again before it sleeps. -/
def Client.retries (committed : P.QL → Bool) (head : ℕ) : Client P n → Bool
  | .push .locked _ x => !committed x
  | .waitingAdd _ | .fullStop _ | .fullTail _ | .fullWoken _ | .waitingSub _ | .waitedStop _ => true
  | .fullHead _ t => decide ((t : ℤ) - head < P.size)
  | _ => false

/-- The worker is about to look at `waiting_producers_` or to notify a producer. -/
def Worker.notifying : Worker P n → Bool
  | .fillLoadWaiting _ | .fillNotify _ | .loadWaiting _ | .notifyNotFull _ => true
  | _ => false

/-- The worker's next instruction is a `notify_one`. -/
def Worker.notifies : Worker P n → Bool
  | .fillNotify _ | .notifyNotFull _ => true
  | _ => false

/-- A producer dozes only while a task is left, a worker is about to notify, or a producer is up. -/
def Served (committed : P.QL → Bool) (s : Shared P n Tid) (w : Fin n → Worker P n)
    (l : Tid → Option (Client P n)) : Prop :=
  s.stop = true ∨ (∀ t x, l t = some x → x.dozes (P.head s.incoming) = false) ∨
    s.completed < P.tail s.incoming ∨ (∃ i, (w i).notifying = true) ∨
      ∃ t x, l t = some x ∧ x.retries committed (P.head s.incoming) = true

/-! ## Steps -/

section Steps

variable {i : Fin n} {t : Tid} {b : Bool} {s s' : Shared P n Tid} {committed : P.QL → Bool}

theorem Client.dozes_of_le {x : Client P n} {h h' : ℕ} (hle : h ≤ h') (hx : x.dozes h' = true) :
    x.dozes h = true := by
  cases x with
  | fullHead j t =>
    simp only [dozes, decide_eq_true_eq] at hx ⊢
    omega
  | fullAsleep | fullSleep => rfl
  | _ => cases hx

theorem Client.retries_of_le {x : Client P n} {h h' : ℕ} (hle : h ≤ h')
    (hx : x.retries committed h = true) : x.retries committed h' = true := by
  cases x with
  | fullHead j t =>
    simp only [retries, decide_eq_true_eq] at hx ⊢
    omega
  | push path => cases path <;> exact hx
  | waitingAdd | fullStop | fullTail | fullWoken | waitingSub | waitedStop => rfl
  | _ => cases hx

theorem Client.waits_of_dozes {x : Client P n} {h : ℕ} (hx : x.dozes h = true) : x.waits = 1 := by
  cases x <;> first | rfl | cases hx

/-- A worker that is about to notify does so, unless no producer waits. -/
theorem stepWorker_notifying {x y : Worker P n} (hs : stepWorker i b s x = some (s', y))
    (hx : x.notifying = true) :
    y.notifying = true ∨ s.waitingProducers = 0 ∨ x.notifies = true := by
  cases x with
  | fillLoadWaiting k | loadWaiting after =>
    simp only [stepWorker] at hs
    split at hs
    · cases hs
      exact .inl rfl
    next hnone => exact .inr (.inl (by omega))
  | fillNotify | notifyNotFull => exact .inr (.inr rfl)
  | _ => cases hx

theorem stepWorker_notifies {x y : Worker P n} (hs : stepWorker i b s x = some (s', y))
    (hx : x.notifies = true) : s' = s := by
  cases x with
  | fillNotify | notifyNotFull =>
    cases hs
    rfl
  | _ => cases hx

theorem stepWorker_completed {x y : Worker P n} (hs : stepWorker i b s x = some (s', y)) :
    s'.completed = s.completed ∨ y.notifying = true := by
  cases stepWorker_effect hs with
  | plain hs =>
    rw [hs]
    exact .inl rfl
  | completedAdd => exact .inr rfl
  | _ => exact .inl rfl

/-- A producer comes to doze only by finding the queue full. -/
theorem stepClient_dozes {policy : WorkStealingRejectPolicy} {w : Fin n → Worker P n}
    {x y : Client P n} (hs : stepClient policy w t b s x = some (s', y))
    (hy : y.dozes (P.head s.incoming) = true) : x.dozes (P.head s.incoming) = true ∨
      (P.size : ℤ) ≤ (P.tail s.incoming : ℤ) - P.head s.incoming := by
  cases x with
  | push path =>
    simp only [stepClient] at hs
    split at hs
    · cases hs
      cases hy
    · split at hs <;> cases path <;> cases hs <;> cases hy
  | enqueueLock | fullWoken | shutdownLock | idleLock | sizeLock =>
    obtain ⟨_, rfl, rfl⟩ := map_lock_eq_some hs
    cases hy
  | enqueueStop | tryEnqueueStop | waitedStop | trySubmitStop | fullStop | loadIdle | shutdownTest
  | awaitSubmits | idleBusy | idleScan | sizeTop =>
    simp only [stepClient] at hs
    split at hs <;> cases hs <;> cases hy
  | lockedStop =>
    simp only [stepClient] at hs
    split at hs
    · cases hs
      cases hy
    · cases policy <;> cases hs <;> cases hy
  | join =>
    simp only [stepClient] at hs
    split at hs
    · split at hs <;> cases hs
      cases hy
    · cases hs
      cases hy
  | fullTail =>
    cases hs
    exact .inr (of_decide_eq_true hy)
  | fullHead =>
    simp only [stepClient] at hs
    split at hs
    next hfull => exact .inl (decide_eq_true hfull)
    · cases hs
      cases hy
  | fullSleep => exact .inl rfl
  | fullAsleep | done => cases hs
  | _ =>
    cases hs
    cases hy

/-- A producer that is up stays up, until it finds the queue full or claims a position. -/
theorem stepClient_retries [DecidableEq Tid] {QInv : P.QS → (Fin n ⊕ Tid → Option P.QL) → Prop}
    (HP : Positions P n Tid QInv committed) {policy : WorkStealingRejectPolicy}
    {w : Fin n → Worker P n} {l : Tid → Option (Client P n)} {x y : Client P n}
    (hq : QInv s.incoming (onQueue w l)) (hx : l t = some x)
    (hput : ∀ path j a o, x = .push path j a → P.queue.result a = some o → o.item = none →
      committed a = true)
    (hs : stepClient policy w t b s x = some (s', y))
    (hup : x.retries committed (P.head s.incoming) = true) :
    s.stop = true ∨ y.retries committed (P.head s.incoming) = true ∨
      P.tail s'.incoming = P.tail s.incoming + 1 ∨
        (P.size : ℤ) ≤ (P.tail s.incoming : ℤ) - P.head s.incoming := by
  cases x with
  | push path j a =>
    cases path with
    | locked =>
      have hno : committed a = false := Bool.not_eq_true' _ ▸ hup
      simp only [stepClient] at hs
      split at hs
      next ha =>
        cases hs
        obtain ⟨_, ⟨_, hsame⟩ | ⟨htail, _⟩⟩ := HP.push b hq
          (show onQueue w l (.inr t) = some a by rw [onQueue, Sum.elim_inr, hx]; rfl) ha
        · refine .inr (.inl ?_)
          rw [Client.retries, hsame, hno]
          rfl
        · exact .inr (.inr (.inl htail))
      next o ha =>
        split at hs
        · cases hs
          exact .inr (.inl rfl)
        next hnone =>
          rw [hput _ _ _ _ rfl ha hnone] at hno
          cases hno
    | _ => cases hup
  | waitingAdd | waitingSub =>
    cases hs
    exact .inr (.inl rfl)
  | fullStop =>
    simp only [stepClient] at hs
    split at hs <;> cases hs <;> exact .inr (.inl rfl)
  | fullTail =>
    cases hs
    by_cases hfull : (P.size : ℤ) ≤ (P.tail s.incoming : ℤ) - P.head s.incoming
    · exact .inr (.inr (.inr hfull))
    · exact .inr (.inl (decide_eq_true (not_le.mp hfull)))
  | fullHead j tail =>
    have hroom : (tail : ℤ) - P.head s.incoming < P.size := of_decide_eq_true hup
    simp only [stepClient, if_neg (not_le.mpr hroom)] at hs
    cases hs
    exact .inr (.inl rfl)
  | fullWoken =>
    obtain ⟨_, rfl, rfl⟩ := map_lock_eq_some hs
    exact .inr (.inl rfl)
  | waitedStop =>
    simp only [stepClient] at hs
    split at hs
    next hstop => exact .inl hstop
    · cases hs
      refine .inr (.inl ?_)
      rw [Client.retries, HP.start]
      rfl
  | _ => cases hup

end Steps

/-! ## Every noticed action keeps the producers served -/

section Served

variable {committed : P.QL → Bool} {s s' : Shared P n Tid} {w w' : Fin n → Worker P n}
  {l l' : Tid → Option (Client P n)} {i : Fin n} {t : Tid} {b : Bool}

theorem Served.wake (h : Served committed s w l) (hw : Woken Worker.sleeping Worker.wake w w')
    (hl : Woken Client.sleeping Client.wake l l') : Served committed s w' l' := by
  rcases h with hstop | hnone | hleft | ⟨i, hi⟩ | ⟨t, x, hx, hup⟩
  · exact .inl hstop
  · refine .inr (.inl fun t x hx => ?_)
    rcases hl t with he | ⟨hs, he⟩
    · exact hnone t x (he ▸ hx)
    · rw [he] at hx
      cases hy : l t with
      | none =>
        rw [hy] at hs
        cases hs
      | some y =>
        rw [hy] at hs hx
        cases y <;> cases hs
        cases hx
        rfl
  · exact .inr (.inr (.inl hleft))
  · refine .inr (.inr (.inr (.inl ⟨i, ?_⟩)))
    rw [Woken.congr (f := Worker.notifying) hw (fun x hx => by cases x <;> first | rfl | cases hx) i]
    exact hi
  · refine .inr (.inr (.inr (.inr ⟨t, x, ?_, hup⟩)))
    rcases hl t with he | ⟨hs, _⟩
    · rw [he, hx]
    · rw [hx] at hs
      cases x <;> first | (cases hs; done) | cases hup

variable [DecidableEq Tid]

theorem Served.setClient (h : Served committed s w l) {o : Option (Client P n)}
    (hold : ∀ x, l t = some x → x.retries committed (P.head s.incoming) = false)
    (hnew : ∀ x, o = some x → x.dozes (P.head s.incoming) = false)
    (hin : s'.incoming = s.incoming) (hstop : s'.stop = s.stop)
    (hcompleted : s'.completed = s.completed) :
    Served committed s' w (Function.update l t o) := by
  unfold Served
  rw [hin, hstop, hcompleted]
  rcases h with hs | hnone | hleft | hnotify | ⟨u, x, hx, hup⟩
  · exact .inl hs
  · refine .inr (.inl fun u x hx => ?_)
    rcases update_eq_some hx with ⟨_, ho⟩ | ⟨_, hx⟩
    · exact hnew x ho
    · exact hnone u x hx
  · exact .inr (.inr (.inl hleft))
  · exact .inr (.inr (.inr (.inl hnotify)))
  · refine .inr (.inr (.inr (.inr ⟨u, x, ?_, hup⟩)))
    by_cases hu : u = t
    · subst hu
      rw [hold x hx] at hup
      cases hup
    · rw [Function.update_of_ne hu, hx]

variable {QInv : P.QS → (Fin n ⊕ Tid → Option P.QL) → Prop}

/-- Another thread's step, before anybody is woken up by it. -/
theorem Served.client {policy : WorkStealingRejectPolicy} {x y : Client P n}
    (HP : Positions P n Tid QInv committed) (hq : QInv s.incoming (onQueue w l))
    (hput : ∀ path j a o, x = .push path j a → P.queue.result a = some o → o.item = none →
      committed a = true)
    (hsize : 0 < P.size) (hle : s.completed ≤ P.head s.incoming ∧ P.head s.incoming ≤ P.tail s.incoming)
    (h : Served committed s w l) (hx : l t = some x)
    (hs : stepClient policy w t b s x = some (s', y)) (hcompleted : s'.completed = s.completed) :
    Served committed s' w (Function.update l t (some y)) := by
  obtain ⟨hhead, htail⟩ := HP.client hq hx (stepClient_cases hs)
  -- a task in the queue has not been run
  have hfull : (P.size : ℤ) ≤ (P.tail s.incoming : ℤ) - P.head s.incoming →
      s.completed < P.tail s.incoming := fun hfull => by omega
  have htail' : P.tail s.incoming ≤ P.tail s'.incoming := by
    rcases htail with he | ⟨he, _⟩ <;> omega
  have hstopped : s.stop = true → s'.stop = true := fun hstop => by
    rcases stepClient_stop hs with he | ⟨he, _⟩
    · rw [he, hstop]
    · exact he
  unfold Served
  rw [hhead, hcompleted]
  rcases h with hstop | hnone | hleft | hnotify | ⟨u, z, hz, hup⟩
  · exact .inl (hstopped hstop)
  · by_cases hy : y.dozes (P.head s.incoming) = true
    · rcases stepClient_dozes hs hy with hdozed | hfound
      · rw [hnone t x hx] at hdozed
        cases hdozed
      · have hleft := hfull hfound
        exact .inr (.inr (.inl (by omega)))
    · refine .inr (.inl fun u z hz => ?_)
      rcases update_eq_some hz with ⟨_, ho⟩ | ⟨_, hz⟩
      · exact Option.some.inj ho ▸ Bool.eq_false_of_not_eq_true hy
      · exact hnone u z hz
  · exact .inr (.inr (.inl (by omega)))
  · exact .inr (.inr (.inr (.inl hnotify)))
  · by_cases hut : u = t
    · subst hut
      rw [hx] at hz
      obtain rfl := Option.some.inj hz
      rcases stepClient_retries HP hq hx hput hs hup with hstop | hy | hclaim | hfound
      · exact .inl (hstopped hstop)
      · exact .inr (.inr (.inr (.inr ⟨u, y, Function.update_self .., hy⟩)))
      · exact .inr (.inr (.inl (by omega)))
      · have hleft := hfull hfound
        exact .inr (.inr (.inl (by omega)))
    · exact .inr (.inr (.inr (.inr ⟨u, z, by rw [Function.update_of_ne hut, hz], hup⟩)))

variable [Fintype Tid]

theorem Served.worker {y : Worker P n} (HP : Positions P n Tid QInv committed)
    (hq : QInv s.incoming (onQueue w l)) (hcount : Counted s w l) (h : Served committed s w l)
    (hs : stepWorker i b s (w i) = some (s', y)) (hnot : (w i).notifies = false) :
    Served committed s' (Function.update w i y) l := by
  obtain ⟨htail, hhead⟩ := HP.worker hq (stepWorker_cases hs)
  have hmono : P.head s.incoming ≤ P.head s'.incoming := by
    rcases hhead with hsame | ⟨hle, _⟩
    · exact hsame.ge
    · exact hle
  unfold Served
  rw [stepWorker_stop hs, htail]
  rcases h with hstop | hnone | hleft | ⟨u, hu⟩ | ⟨t, x, hx, hup⟩
  · exact .inl hstop
  · refine .inr (.inl fun t x hx => ?_)
    cases hd : x.dozes (P.head s'.incoming) with
    | false => rfl
    | true =>
      have hold := hnone t x hx
      rw [Client.dozes_of_le hmono hd] at hold
      cases hold
  · rcases stepWorker_completed hs with hsame | hy
    · exact .inr (.inr (.inl (hsame ▸ hleft)))
    · exact .inr (.inr (.inr (.inl ⟨i, by rw [Function.update_self, hy]⟩)))
  · by_cases hui : u = i
    · subst hui
      rcases stepWorker_notifying hs hu with hy | hwait | hyes
      · exact .inr (.inr (.inr (.inl ⟨u, by rw [Function.update_self, hy]⟩)))
      · -- `waiting_producers_` was 0: nobody dozes
        refine .inr (.inl fun t x hx => ?_)
        cases hd : x.dozes (P.head s'.incoming) with
        | false => rfl
        | true =>
          have hle := le_hands Client.waits hx
          rw [Client.waits_of_dozes hd, ← hcount.waiting, hwait] at hle
          exact absurd hle (by decide)
      · rw [hnot] at hyes
        cases hyes
    · exact .inr (.inr (.inr (.inl ⟨u, by rw [Function.update_of_ne hui, hu]⟩)))
  · exact .inr (.inr (.inr (.inr ⟨t, x, hx, Client.retries_of_le hmono hup⟩)))

end Served

/-! ## The containers of the source -/

section Real

variable [Inhabited α] {r : Ring}

/-- `notify_one` of worker `i` is the last that is to come and meets no sleeper, while a producer is
about to sleep and nothing is left to run. -/
structure Unheard (c : State (Parts.real (Job α) r) n Tid) (i : Fin n) : Prop where
  running : c.shared.stop = false
  notifies : (c.workers i).notifies = true
  nobody : ∀ t, Client.sleeping (c.clients t) = false
  dozing : ∃ t x, c.clients t = some x ∧
    x.dozes ((Parts.real (Job α) r).head c.shared.incoming) = true
  drained : Drained c.shared c.workers
  last : ∀ u, u ≠ i → (c.workers u).notifying = false
  quiet : ∀ t x, c.clients t = some x → x.retries LockFreeQueue.Local.committed
    ((Parts.real (Job α) r).head c.shared.incoming) = false

/-- The action is no lost notification. -/
def Noticed (c : State (Parts.real (Job α) r) n Tid) : Action α n Tid → Prop
  | .worker i _ _ => ¬ Unheard c i
  | _ => True

/-- A producer is asleep although `incoming_` has room: nothing is left to run, no worker is about to
notify, and no other producer is up. -/
structure Stranded (c : State (Parts.real (Job α) r) n Tid) : Prop where
  running : c.shared.stop = false
  asleep : ∃ t, Client.sleeping (c.clients t) = true
  room : LockFreeQueue.full r ((Parts.real (Job α) r).tail c.shared.incoming)
    ((Parts.real (Job α) r).head c.shared.incoming) = false
  drained : Drained c.shared c.workers
  silent : ∀ i, (c.workers i).notifying = false
  quiet : ∀ t x, c.clients t = some x → x.retries LockFreeQueue.Local.committed
    ((Parts.real (Job α) r).head c.shared.incoming) = false

theorem committed_of_put {s : Shared (Parts.real (Job α) r) n Tid}
    {w : Fin n → Worker (Parts.real (Job α) r) n}
    {l : Tid → Option (Client (Parts.real (Job α) r) n)} {t : Tid}
    {x : Client (Parts.real (Job α) r) n} (hkinds : Kinds s.incoming (onQueue w l))
    (hx : l t = some x) (path : Path) (j : Job α) (a : (Parts.real (Job α) r).QL)
    (o : Outcome (Job α)) (he : x = .push path j a)
    (ho : (Parts.real (Job α) r).queue.result a = some o) (hnone : o.item = none) :
    LockFreeQueue.Local.committed a = true := by
  subst he
  have hpush : LockFreeQueue.Local.isPush a = true :=
    hkinds (.inr t) a (by rw [onQueue, Sum.elim_inr, hx]; rfl)
  cases a with
  | done o' =>
    obtain rfl := Option.some.inj ho
    cases o' with
    | put => rfl
    | refused => cases hnone
    | _ => cases hpush
  | _ => cases ho

section Accounted

variable [Fintype Tid] [DecidableEq Tid] {s s' : Shared (Parts.real (Job α) r) n Tid}
  {w w' : Fin n → Worker (Parts.real (Job α) r) n}
  {l l' : Tid → Option (Client (Parts.real (Job α) r) n)} {i : Fin n} {t : Tid} {b : Bool}

/-- Tasks are run after they are taken, and taken after they are put in. -/
theorem Accounted.completed_le (h : Accounted s w l) :
    s.completed ≤ (Parts.real (Job α) r).head s.incoming ∧
      (Parts.real (Job α) r).head s.incoming ≤ (Parts.real (Job α) r).tail s.incoming := by
  have hqueue : (Parts.real (Job α) r).head s.incoming + _ ≤
      (Parts.real (Job α) r).tail s.incoming := h.access.queue.2.head_add_hands_le
  have htaken := h.metered.taken
  omega

/-- All tasks that were put in have been run when nothing is left. -/
theorem Accounted.drained_iff (h : Accounted s w l) :
    Drained s w ↔ (Parts.real (Job α) r).tail s.incoming ≤ s.completed := by
  have htaken := h.metered.taken
  have hle := h.completed_le
  constructor
  · rintro ⟨hempty, hstock, hload⟩
    have hnone : tally Worker.load w = 0 := tally_eq_zero hload
    simp only [LockFreeQueue.empty, decide_eq_true_eq, Nat.cast_le] at hempty
    omega
  · intro hrun
    refine ⟨decide_eq_true (by omega), by omega, fun i => ?_⟩
    have hload := le_tally Worker.load w i
    omega

/-- The notification of a worker, when it is not a lost one. -/
theorem Served.notify {y : Worker (Parts.real (Job α) r) n} {wakes : Option Tid}
    (hacc : Accounted s w l) (h : Served LockFreeQueue.Local.committed s w l)
    (hs : stepWorker i b s (w i) = some (s', y)) (hnotifies : (w i).notifies = true)
    (hok : ¬ Unheard ⟨s, w, l⟩ i) (hl : notifyOne Client.sleeping Client.wake l wakes = some l') :
    Served LockFreeQueue.Local.committed s' (Function.update w i y) l' := by
  obtain rfl : s' = s := stepWorker_notifies hs hnotifies
  rcases notifyOne_cases hl with ⟨t, hsleep, rfl⟩ | ⟨hnobody, rfl⟩
  · -- the sleeper is up
    refine .inr (.inr (.inr (.inr ⟨t, ?_⟩)))
    cases hx : l t with
    | none =>
      rw [hx] at hsleep
      cases hsleep
    | some x =>
      rw [hx] at hsleep
      cases x <;> cases hsleep
      next j => exact ⟨.fullWoken j, Function.update_self .., rfl⟩
  · rcases h with hstop | hnone | hleft | ⟨u, hu⟩ | hup
    · exact .inl hstop
    · exact .inr (.inl hnone)
    · exact .inr (.inr (.inl hleft))
    · by_contra hlost
      obtain ⟨hrun, hlost⟩ := not_or.mp hlost
      obtain ⟨hdoze, hlost⟩ := not_or.mp hlost
      obtain ⟨hleft, hlost⟩ := not_or.mp hlost
      obtain ⟨hlast, hquiet⟩ := not_or.mp hlost
      push Not at hdoze
      obtain ⟨t, x, hx, hdoze⟩ := hdoze
      refine hok ⟨Bool.eq_false_of_not_eq_true hrun, hnotifies, hnobody,
        ⟨t, x, hx, Bool.eq_true_of_not_eq_false hdoze⟩, hacc.drained_iff.mpr (not_lt.mp hleft),
        fun v hv => ?_, fun v z hz => ?_⟩
      · refine Bool.eq_false_of_not_eq_true fun hyes => hlast ⟨v, ?_⟩
        rw [Function.update_of_ne hv, hyes]
      · exact Bool.eq_false_of_not_eq_true fun hyes => hquiet ⟨v, z, hz, hyes⟩
    · exact .inr (.inr (.inr (.inr hup)))

theorem Served.next {policy : WorkStealingRejectPolicy}
    {c c' : State (Parts.real (Job α) r) n Tid} {a : Action α n Tid}
    (hacc : Accounted c.shared c.workers c.clients)
    (h : Served LockFreeQueue.Local.committed c.shared c.workers c.clients) (hok : Noticed c a)
    (hn : next policy c a = some c') :
    Served LockFreeQueue.Local.committed c'.shared c'.workers c'.clients := by
  have hkinds := hacc.access.queue.1
  cases a with
  | call t op =>
    obtain ⟨hnone, rfl⟩ := next_call hn
    refine h.setClient (fun x hx => ?_) (fun x hx => ?_) rfl rfl rfl
    · rw [hnone] at hx
      cases hx
    · cases op <;> cases hx <;> rfl
  | ret t =>
    obtain ⟨r, hdone, rfl⟩ := next_ret hn
    refine h.setClient (fun x hx => ?_) (fun x hx => ?_) rfl rfl rfl
    · rw [hdone] at hx
      cases hx
      rfl
    · cases hx
  | worker i b wakes =>
    obtain ⟨s, y, l, hs, hl, rfl⟩ := next_worker hn
    cases hnotifies : (c.workers i).notifies with
    | false =>
      exact (h.worker (positions_real r) hkinds hacc.counted hs hnotifies).wake Woken.refl
        (woken_wakeProducers hl)
    | true =>
      have hnotify : notifyOne Client.sleeping Client.wake c.clients wakes = some l := by
        cases hx : c.workers i with
        | fillNotify | notifyNotFull =>
          rw [hx] at hl
          exact hl
        | _ =>
          rw [hx] at hnotifies
          cases hnotifies
      exact h.notify hacc hs hnotifies hok hnotify
  | client t b wakes =>
    obtain ⟨x, s, y, w, hx, hs, hw, rfl⟩ := next_client hn
    exact (h.client (positions_real r) hkinds (committed_of_put hkinds hx) r.size_pos
      hacc.completed_le hx hs (stepClient_tail hkinds hx hs).2.2.1).wake
        (woken_wakeWorkers hw) (woken_wakeAllProducers x _).update
  | spuriousWorker i =>
    obtain ⟨hs, rfl⟩ := next_spuriousWorker hn
    exact h.wake (woken_update hs) Woken.refl
  | spuriousClient t =>
    obtain ⟨hs, rfl⟩ := next_spuriousClient hn
    exact h.wake Woken.refl (woken_update hs)

theorem Served.not_stranded {c : State (Parts.real (Job α) r) n Tid}
    (hacc : Accounted c.shared c.workers c.clients)
    (h : Served LockFreeQueue.Local.committed c.shared c.workers c.clients) : ¬ Stranded c := by
  rintro ⟨hrun, ⟨t, hsleep⟩, _, hdrained, hsilent, hquiet⟩
  rcases h with hstop | hnone | hleft | ⟨i, hi⟩ | ⟨u, x, hx, hup⟩
  · rw [hrun] at hstop
    cases hstop
  · cases hx : c.clients t with
    | none =>
      rw [hx] at hsleep
      cases hsleep
    | some x =>
      have hno := hnone t x hx
      rw [hx] at hsleep
      cases x <;> first | (cases hsleep; done) | cases hno
  · exact absurd (hacc.drained_iff.mp hdrained) (not_le.mpr hleft)
  · rw [hsilent i] at hi
    cases hi
  · rw [hquiet u x hx] at hup
    cases hup

end Accounted

end Real

/-! ## No producer is left asleep -/

/-- The queue of two slots fills up and a third submission finds it full. It makes `k` steps. -/
def thirdSubmission (k : ℕ) : List (Action ℕ 1 (Fin 1)) :=
  List.flatten [[.call 0 (.submit 1)], Action.clients 0 11, [.ret 0, .call 0 (.submit 2)],
    Action.clients 0 11, [.ret 0, .call 0 (.submit 3)], Action.clients 0 k]

/-- The producer's predicate finds the queue full; the worker empties it and runs both tasks; then the
producer goes to sleep. -/
def sleepOverRoom : List (Action ℕ 1 (Fin 1)) :=
  thirdSubmission 14 ++ Action.workers 0 72 ++ Action.clients 0 1

/-- The only producer of a pool sleeps while its queue is empty and its worker has nothing to do. -/
theorem exists_stranded_producer : ∃ c : State (Parts.real (Job ℕ) Ring.two) (numThreads 1) (Fin 1),
    (system .block).Reachable (initial _ _ _) c ∧ Stranded c := by
  have hrun : ((system .block).run (initial (Parts.real (Job ℕ) Ring.two) 1 (Fin 1))
      sleepOverRoom).map (fun c => ((c.shared.stop, Client.sleeping (c.clients 0)),
        ((Parts.real (Job ℕ) Ring.two).tail c.shared.incoming,
          (Parts.real (Job ℕ) Ring.two).head c.shared.incoming),
        (decide (c.shared.stock = 0), decide ((c.workers 0).load = 0)), (c.workers 0).notifying,
        (c.clients 0).map (Client.retries LockFreeQueue.Local.committed 2))) =
      some ((false, true), (2, 2), (true, true), false, some false) := by decide +kernel
  obtain ⟨c, hc, hres⟩ := Option.map_eq_some_iff.mp hrun
  obtain ⟨hclient, hres⟩ := Prod.mk.inj hres
  obtain ⟨hqueue, hres⟩ := Prod.mk.inj hres
  obtain ⟨hnone, hres⟩ := Prod.mk.inj hres
  obtain ⟨hsilent, hquiet⟩ := Prod.mk.inj hres
  obtain ⟨hstop, hasleep⟩ := Prod.mk.inj hclient
  obtain ⟨htail, hhead⟩ := Prod.mk.inj hqueue
  obtain ⟨hstock, hload⟩ := Prod.mk.inj hnone
  have hload' : ∀ i : Fin 1, (c.workers i).load = 0 := fun i => by
    rw [Subsingleton.elim i 0]
    exact of_decide_eq_true hload
  have hsilent' : ∀ i : Fin 1, (c.workers i).notifying = false := fun i => by
    rwa [Subsingleton.elim i 0]
  refine ⟨c, System.reachable_of_run hc, hstop, ⟨0, hasleep⟩, ?_,
    ⟨?_, of_decide_eq_true hstock, hload'⟩, hsilent', ?_⟩
  · rw [htail, hhead]
    rfl
  · rw [htail, hhead]
    rfl
  · intro t x hx
    rw [Subsingleton.elim t 0] at hx
    rw [hx] at hquiet
    rw [hhead]
    exact Option.some.inj hquiet

theorem served_initial (P : Parts (Job α)) (committed : P.QL → Bool) :
    Served committed (initial P n Tid).shared (initial P n Tid).workers (initial P n Tid).clients :=
  .inr (.inl fun t x hx => by cases hx)

/-- **No producer is left asleep while the notifications are noticed**, as long as the positions
fit. -/
theorem not_stranded_of_noticed [Inhabited α] [Fintype Tid] [DecidableEq Tid] (num_threads : ℕ)
    (r : Ring) (policy : WorkStealingRejectPolicy)
    (c : State (Parts.real (Job α) r) (numThreads num_threads) Tid)
    (h : (system policy).ReachWithin (fun c => c.shared.Fits) Noticed (initial _ _ Tid) c) :
    ¬ Stranded c := by
  have hboth := System.Reach.invariant
    (I := fun c => Accounted c.shared c.workers c.clients ∧
      Served LockFreeQueue.Local.committed c.shared c.workers c.clients) h.reach
    ⟨accounted_initial r, served_initial _ _⟩
    fun _ _ _ hi hok hn => ⟨hi.1.next hn, hi.2.next hi.1 hok hn⟩
  exact hboth.2.not_stranded hboth.1

/-- A notification meets the producer asleep. -/
def meetsSleeper (c : State (Parts.real (Job ℕ) Ring.two) 1 (Fin 1)) : Action ℕ 1 (Fin 1) → Bool
  | .worker i _ _ => !(c.workers i).notifies || Client.sleeping (c.clients 0)
  | _ => true

/-- The producer sleeps until the worker has taken a task, and then puts in its own. -/
def wakeForRoom : List (Action ℕ 1 (Fin 1)) :=
  List.flatten [thirdSubmission 15, Action.workers 0 16, [.worker 0 false (some 0)],
    Action.clients 0 12]

theorem not_stranded_of_noticed_wakeForRoom :
    ∃ c : State (Parts.real (Job ℕ) Ring.two) (numThreads 1) (Fin 1),
      c.shared.accepted.length = 3 ∧ ¬ Stranded c := by
  have hrun : ((system .block).runWhile (fun c a => c.shared.Fits ∧ meetsSleeper c a = true)
      (initial (Parts.real (Job ℕ) Ring.two) 1 (Fin 1)) wakeForRoom).map
        (fun c => (c.shared.accepted.length, decide c.shared.Fits)) = some (3, true) := by
    decide +kernel
  obtain ⟨c, hc, hres⟩ := Option.map_eq_some_iff.mp hrun
  obtain ⟨haccepted, hfits⟩ := Prod.mk.inj hres
  have hreach : (system .block).ReachWithin (fun c => c.shared.Fits) Noticed
      (initial (Parts.real (Job ℕ) Ring.two) 1 (Fin 1)) c := by
    refine ⟨(System.reach_of_runWhile hc).mono fun c a hok => ⟨hok.1, ?_⟩, of_decide_eq_true hfits⟩
    have hmeets := hok.2
    cases a with
    | worker i =>
      intro hlost
      rw [meetsSleeper, hlost.notifies, hlost.nobody 0] at hmeets
      cases hmeets
    | _ => trivial
  exact ⟨c, haccepted, not_stranded_of_noticed 1 Ring.two .block c hreach⟩

end LowLatency.WorkStealingThreadPool
