import LowLatency.Concurrency.Closing
import LowLatency.WorkStealingThreadPool.Counters

/-!
# Several threads shut the work-stealing pool down

As in the sibling, the first `shutdown()` sets `stop_`, waits until no submission is in flight and
joins the workers, and one that finds `stop_` set returns at once. `tracked` has the same history,
and the pool is again a component that is closed (`closing_step`).
-/

namespace LowLatency.WorkStealingThreadPool

open Concurrency Closing

universe u

variable {α : Type u} {P : Parts (Job α)} {n : ℕ} {Tid : Type*}

/-- The result of a `shutdown()`. -/
def Result.isShutdown : Result → Bool
  | .stopped | .alreadyStopped => true
  | _ => false

/-- Where an operation with this result has led. -/
def Result.phase : Result → Phase
  | .stopped => .closed
  | .alreadyStopped => .early
  | _ => .outside

namespace Client

/-- Where the thread is; a submission is in flight while `active_submits_` counts it. -/
def phase : Client P n → Phase
  | .submitEnter _ | .tryEnter _ | .idleLock | .idleBusy | .idleScan _ | .sizeLock | .sizeTop _ _
  | .sizeBottom _ _ _ => .outside
  | .shutdownLock | .shutdownTest => .asking
  | .shutdownSet => .setting
  | .shutdownUnlock | .notifyAll | .notifyAllNotFull | .awaitSubmits => .waiting
  | .join k => .joining k
  | .unlockDone r | .done r => r.phase
  | _ => .inside

/-- The same for a thread that may be outside of the pool. -/
def phaseOf : Option (Client P n) → Phase
  | none => .outside
  | some x => x.phase

theorem inside_of_phase {x : Client P n} (h : x.phase = .inside) : x.inside = 1 := by
  cases x with
  | unlockDone r | done r => cases r <;> cases h
  | _ => first | rfl | cases h

/-- A submission ends with no result of `shutdown()`. -/
def fits : Client P n → Prop
  | .submittedAdd r | .loadIdle r | .notify r | .unlockLeave r | .leave r => r.isShutdown = false
  | .unlockDone r => r ≠ .stopped
  | _ => True

end Client

/-- The submissions in flight when `stop_` was set that have not finished, after an action. -/
def track (c : State P n Tid) (pending : Set Tid) : Action α n Tid → Set Tid
  | .client t _ _ =>
    match c.clients t with
    | some .shutdownSet => {u | Client.phaseOf (c.clients u) = .inside}
    | some (.leave _) => pending \ {t}
    | _ => pending
  | _ => pending

/-- The pool with this history. -/
def tracked [Fintype Tid] [DecidableEq Tid] (policy : WorkStealingRejectPolicy) :
    System (State P n Tid × Set Tid) (Action α n Tid) where
  next p a := (next policy p.1 a).map fun c => (c, track p.1 p.2 a)

/-- The pool as a component that is closed. -/
def closing (c : State P n Tid) (pending : Set Tid) : Closing.State n Tid where
  flag := c.shared.stop
  exited i := c.workers i = .exited
  phase t := Client.phaseOf (c.clients t)
  pending := pending

/-! ## Submissions in flight -/

/-- Which results are possible where, and who sets `stop_`. -/
structure InFlight (s : Shared P n Tid) (l : Tid → Option (Client P n)) : Prop where
  fits : ∀ t x, l t = some x → x.fits
  setting : ∀ t, l t = some .shutdownSet → s.stop = false

section Steps

variable {s s' : Shared P n Tid} {w : Fin n → Worker P n} {t : Tid} {x y : Client P n} {b : Bool}
  {policy : WorkStealingRejectPolicy}

/-- What a client's step does to the results, and when it leads to setting `stop_`. -/
theorem stepClient_fits (hs : stepClient policy w t b s x = some (s', y)) (hx : x.fits) :
    y.fits ∧ (y = .shutdownSet → s'.stop = false) := by
  cases x with
  | push path j a =>
    simp only [stepClient] at hs
    split at hs
    · cases hs
      exact ⟨trivial, by simp⟩
    · split at hs <;> cases path <;> cases hs <;>
        first | exact ⟨trivial, by simp [afterPut]⟩ | exact ⟨rfl, by simp [afterPut]⟩
  | enqueueLock | fullWoken | shutdownLock | idleLock | sizeLock =>
    obtain ⟨_, rfl, rfl⟩ := map_lock_eq_some hs
    exact ⟨trivial, by simp⟩
  | enqueueStop | tryEnqueueStop | waitedStop | trySubmitStop | fullStop | fullHead
  | awaitSubmits =>
    simp only [stepClient] at hs
    split at hs <;> cases hs <;> first | exact ⟨trivial, by simp⟩ | exact ⟨rfl, by simp⟩
  | loadIdle =>
    simp only [stepClient] at hs
    split at hs <;> cases hs <;> exact ⟨hx, by simp⟩
  | lockedStop =>
    simp only [stepClient] at hs
    split at hs
    · cases hs
      exact ⟨rfl, by simp⟩
    · cases policy <;> cases hs <;> first | exact ⟨trivial, by simp⟩ | exact ⟨rfl, by simp⟩
  | shutdownTest =>
    simp only [stepClient] at hs
    split at hs <;> cases hs
    · exact ⟨by simp [Client.fits], by simp⟩
    next hc => exact ⟨trivial, fun _ => Bool.eq_false_of_not_eq_true hc⟩
  | idleBusy | idleScan | sizeTop =>
    simp only [stepClient] at hs
    split at hs <;> cases hs <;> first | exact ⟨trivial, by simp⟩ | exact ⟨by simp [Client.fits], by simp⟩
  | join =>
    simp only [stepClient] at hs
    split at hs
    · split at hs <;> cases hs
      exact ⟨trivial, by simp⟩
    · cases hs
      exact ⟨trivial, by simp⟩
  | submittedAdd | notify | unlockLeave =>
    cases hs
    exact ⟨hx, by simp⟩
  | unlockNotify =>
    cases hs
    exact ⟨rfl, by simp⟩
  | fullAsleep | done => cases hs
  | _ =>
    cases hs
    exact ⟨trivial, by simp⟩

end Steps

theorem client_of_woken {x : Client P n} {l l' : Tid → Option (Client P n)} {t : Tid}
    (hl : Woken Client.sleeping Client.wake l l') (ht : l' t = some x)
    (hx : ∀ j, x ≠ .fullWoken j) : l t = some x := by
  rcases hl t with he | ⟨hs, he⟩
  · exact he ▸ ht
  · cases hy : l t with
    | none =>
      rw [hy] at hs
      cases hs
    | some y =>
      rw [hy] at hs he
      rw [he] at ht
      cases y with
      | fullAsleep j => exact absurd (Option.some.inj ht).symm (hx j)
      | _ => cases hs

section InFlight

variable [Fintype Tid] {s s' : Shared P n Tid} {w w' : Fin n → Worker P n}
  {l l' : Tid → Option (Client P n)} {t : Tid}

omit [Fintype Tid] in
theorem inFlight_initial :
    InFlight (initial P n Tid).shared (initial P n Tid).clients where
  fits t x hx := by cases hx
  setting t ht := by cases ht

omit [Fintype Tid] in
/-- Waking up changes neither the results nor who sets `stop_`. -/
theorem InFlight.wake (h : InFlight s l) (hl : Woken Client.sleeping Client.wake l l') :
    InFlight s l' where
  fits t x hx := by
    by_cases hw : ∃ j, x = .fullWoken j
    · obtain ⟨j, rfl⟩ := hw
      trivial
    · exact h.fits t x (client_of_woken hl hx fun j he => hw ⟨j, he⟩)
  setting t ht := h.setting t (client_of_woken hl ht nofun)

variable [DecidableEq Tid]

omit [Fintype Tid] in
theorem InFlight.setClient {o : Option (Client P n)} (h : InFlight s l)
    (hfits : ∀ x, o = some x → x.fits ∧ x ≠ .shutdownSet) :
    InFlight s (Function.update l t o) where
  fits u x hx := by
    rcases update_eq_some hx with ⟨_, ho⟩ | ⟨_, hx⟩
    · exact (hfits x ho).1
    · exact h.fits u x hx
  setting u hu := by
    rcases update_eq_some hu with ⟨_, ho⟩ | ⟨_, hu⟩
    · exact absurd rfl (hfits _ ho).2
    · exact h.setting u hu

theorem InFlight.client {policy : WorkStealingRejectPolicy} {x y : Client P n} {b : Bool}
    (hcount : Counted s w l) (h : InFlight s l) (hx : l t = some x)
    (hs : stepClient policy w t b s x = some (s', y)) :
    InFlight s' (Function.update l t (some y)) := by
  obtain ⟨hfits, hset⟩ := stepClient_fits hs (h.fits t x hx)
  refine { fits := fun u z hz => ?_, setting := fun u hu => ?_ }
  · rcases update_eq_some hz with ⟨_, ho⟩ | ⟨_, hz⟩
    · exact Option.some.inj ho ▸ hfits
    · exact h.fits u z hz
  · rcases update_eq_some hu with ⟨_, ho⟩ | ⟨hut, hu⟩
    · exact hset (Option.some.inj ho)
    · rcases stepClient_stop hs with hkeep | ⟨_, rfl⟩
      · rw [hkeep]
        exact h.setting u hu
      · -- only one thread holds the mutex
        have hmine := hcount.clientHolds t _ hx rfl
        rw [hcount.clientHolds u _ hu rfl] at hmine
        exact absurd (Sum.inr.inj (Option.some.inj hmine)) hut

theorem InFlight.next {policy : WorkStealingRejectPolicy} {c c' : State P n Tid}
    {a : Action α n Tid} (hcount : Counted c.shared c.workers c.clients)
    (h : InFlight c.shared c.clients)
    (hn : WorkStealingThreadPool.next policy c a = some c') : InFlight c'.shared c'.clients := by
  cases a with
  | call t op =>
    obtain ⟨_, rfl⟩ := next_call hn
    have hset := h.setClient (t := t) (o := some (.start c.shared.issued.length op)) fun x hx => by
      cases op <;> cases hx <;> exact ⟨trivial, nofun⟩
    exact ⟨hset.fits, hset.setting⟩
  | ret t =>
    obtain ⟨r, _, rfl⟩ := next_ret hn
    exact h.setClient nofun
  | worker i b wakes =>
    obtain ⟨s, y, l, hs, hl, rfl⟩ := next_worker hn
    have hwake := h.wake (woken_wakeProducers hl)
    exact ⟨hwake.fits, fun t ht => (stepWorker_stop hs).trans (hwake.setting t ht)⟩
  | client t b wakes =>
    obtain ⟨x, s, y, w, hx, hs, hw, rfl⟩ := next_client hn
    exact (h.client hcount hx hs).wake (woken_wakeAllProducers x _).update
  | spuriousWorker i =>
    obtain ⟨_, rfl⟩ := next_spuriousWorker hn
    exact h
  | spuriousClient t =>
    obtain ⟨hs, rfl⟩ := next_spuriousClient hn
    exact h.wake (woken_update hs)

end InFlight

/-! ## The pool is closed -/

section Closing

variable [DecidableEq Tid] {s s' : Shared P n Tid} {w w' : Fin n → Worker P n}
  {l l' : Tid → Option (Client P n)} {t : Tid} {i : Fin n} {b : Bool} {pending : Set Tid}

omit [DecidableEq Tid] in
theorem closing_woken (hw : Woken Worker.sleeping Worker.wake w w')
    (hl : Woken Client.sleeping Client.wake l l') :
    closing ⟨s, w', l'⟩ pending = closing ⟨s, w, l⟩ pending := by
  have hexited : (fun i => w' i = .exited) = fun i => w i = .exited := by
    funext i
    exact hw.congr (f := fun x => x = .exited)
      (fun x hx => by cases x <;> first | (cases hx; done) | simp [Worker.wake]) i
  have hphase : (fun t => Client.phaseOf (l' t)) = fun t => Client.phaseOf (l t) := by
    funext t
    exact hl.congr (f := Client.phaseOf)
      (fun o ho => by
        cases o with
        | none => cases ho
        | some x => cases x <;> rfl) t
  unfold closing
  rw [hexited, hphase]

/-- A thread that changes nothing else moves to another phase. -/
theorem closing_move {o : Option (Client P n)} (hstop : s'.stop = s.stop) :
    closing ⟨s', w, Function.update l t o⟩ pending =
      (closing ⟨s, w, l⟩ pending).move t (Client.phaseOf o) := by
  unfold closing State.move
  dsimp only
  rw [hstop]
  congr 1
  exact Function.comp_update Client.phaseOf l t o

omit [DecidableEq Tid] in
/-- A worker's step is its exit or nothing to the component. -/
theorem closing_worker [DecidableEq Tid] {ok : Closing.State n Tid → Prop} {y : Worker P n}
    (hs : stepWorker i b s (w i) = some (s', y)) :
    Closing.Step ok (closing ⟨s, w, l⟩ pending) (closing ⟨s', Function.update w i y, l⟩ pending) := by
  have hstop := stepWorker_stop hs
  have hup : w i ≠ .exited := by
    intro he
    rw [he] at hs
    cases hs
  by_cases hy : y = .exited
  · have hexit : closing ⟨s', Function.update w i y, l⟩ pending =
        { closing ⟨s, w, l⟩ pending with exited := fun j => j = i ∨ w j = .exited } := by
      unfold closing
      dsimp only
      rw [hstop]
      congr 1
      funext j
      by_cases hj : j = i
      · subst hj
        simp [hy]
      · simp [hj]
    rw [hexit]
    exact .exit i
  · have hsame : closing ⟨s', Function.update w i y, l⟩ pending = closing ⟨s, w, l⟩ pending := by
      unfold closing
      dsimp only
      rw [hstop]
      congr 1
      funext j
      by_cases hj : j = i
      · subst hj
        simp [hy, hup]
      · simp [hj]
    rw [hsame]
    exact .skip

theorem closing_client [Fintype Tid] {policy : WorkStealingRejectPolicy}
    {ok : Closing.State n Tid → Prop} {x y : Client P n} {wakes : Option (Fin n)}
    (hcount : Counted s w l) (hin : InFlight s l)
    (hok : x = .shutdownTest → s.stop = true → ok (closing ⟨s, w, l⟩ pending))
    (hx : l t = some x) (hs : stepClient policy w t b s x = some (s', y)) :
    Closing.Step ok (closing ⟨s, w, l⟩ pending) (closing ⟨s', w, Function.update l t (some y)⟩
      (track ⟨s, w, l⟩ pending (.client t b wakes))) := by
  have hphase : (closing ⟨s, w, l⟩ pending).phase t = x.phase := by
    show Client.phaseOf (l t) = x.phase
    rw [hx]
    rfl
  have hfits := hin.fits t x hx
  -- a step that is neither the end of a submission nor the setting of `stop_`
  have hmove : (∀ r, x ≠ .leave r) → x ≠ .shutdownSet →
      closing ⟨s', w, Function.update l t (some y)⟩ (track ⟨s, w, l⟩ pending (.client t b wakes)) =
        (closing ⟨s, w, l⟩ pending).move t y.phase := by
    intro hleave hset
    have htrack : track ⟨s, w, l⟩ pending (.client t b wakes) = pending := by
      unfold track
      dsimp only
      rw [hx]
      split
      next he => exact absurd (Option.some.inj he) hset
      next r he => exact absurd (Option.some.inj he) (hleave r)
      · rfl
    rw [htrack, closing_move ((stepClient_stop hs).resolve_right fun he => hset he.2)]
    rfl
  have hskip : (∀ r, x ≠ .leave r) → x ≠ .shutdownSet → y.phase = x.phase →
      Closing.Step ok (closing ⟨s, w, l⟩ pending) (closing ⟨s', w, Function.update l t (some y)⟩
        (track ⟨s, w, l⟩ pending (.client t b wakes))) := by
    intro hleave hset hsame
    rw [hmove hleave hset]
    exact .stay (hphase.trans hsame.symm)
  cases x with
  | submitEnter | tryEnter =>
    rw [hmove (by simp) (by simp)]
    cases hs
    exact .enter hphase
  | leave r =>
    cases hs
    have hend : (Client.done r : Client P n).phase = .outside := by
      cases r <;> first | rfl | cases hfits
    have hleave : closing ⟨{ s with active := s.active - 1 }, w,
        Function.update l t (some (.done r))⟩ (track ⟨s, w, l⟩ pending (.client t b wakes)) =
          (closing ⟨s, w, l⟩ pending).leave t := by
      unfold closing Closing.State.leave track
      dsimp only
      rw [hx]
      congr 1
      exact (Function.comp_update Client.phaseOf l t _).trans (by rw [Client.phaseOf, hend]; rfl)
    rw [hleave]
    exact .leave hphase
  | shutdownSet =>
    cases hs
    have hclose : closing ⟨{ s with stop := true }, w,
        Function.update l t (some .shutdownUnlock)⟩ (track ⟨s, w, l⟩ pending (.client t b wakes)) =
          (closing ⟨s, w, l⟩ pending).close t := by
      unfold closing Closing.State.close track
      dsimp only
      rw [hx]
      congr 1
      exact Function.comp_update Client.phaseOf l t _
    rw [hclose]
    exact .set hphase (hin.setting t hx)
  | shutdownTest =>
    rw [hmove (by simp) (by simp)]
    simp only [stepClient] at hs
    split at hs <;> cases hs
    next hstop => exact .early hphase hstop (hok rfl hstop)
    next => exact .proceed hphase
  | awaitSubmits =>
    simp only [stepClient] at hs
    split at hs <;> cases hs
    next hzero =>
      rw [hmove (by simp) (by simp)]
      refine .alone hphase fun u hu => ?_
      -- `active_submits_` counts whoever is in flight
      have hu : Client.phaseOf (l u) = .inside := hu
      cases hlu : l u with
      | none =>
        rw [hlu] at hu
        cases hu
      | some z =>
        rw [hlu] at hu
        have hle := le_hands Client.inside hlu
        rw [← hcount.active, Client.inside_of_phase hu, hzero] at hle
        exact absurd hle (by decide)
    next => exact hskip (by simp) (by simp) rfl
  | join k =>
    rw [hmove (by simp) (by simp)]
    simp only [stepClient] at hs
    split at hs
    next hk =>
      split at hs <;> cases hs
      next hexited =>
        refine .join hphase fun i hi => ?_
        rw [show i = ⟨k, hk⟩ from Fin.ext hi]
        exact hexited
    next hk =>
      cases hs
      exact .finish hphase (by omega)
  | push path j a =>
    simp only [stepClient] at hs
    split at hs
    · cases hs
      exact hskip (by simp) (by simp) rfl
    · split at hs <;> cases path <;> cases hs <;> exact hskip (by simp) (by simp) rfl
  | enqueueLock | fullWoken | shutdownLock | idleLock | sizeLock =>
    obtain ⟨_, rfl, rfl⟩ := map_lock_eq_some hs
    exact hskip (by simp) (by simp) rfl
  | enqueueStop | tryEnqueueStop | waitedStop | trySubmitStop | fullStop | fullHead | loadIdle
  | idleBusy | idleScan | sizeTop =>
    simp only [stepClient] at hs
    split at hs <;> cases hs <;> exact hskip (by simp) (by simp) rfl
  | lockedStop =>
    simp only [stepClient] at hs
    split at hs
    · cases hs
      exact hskip (by simp) (by simp) rfl
    · cases policy <;> cases hs <;> exact hskip (by simp) (by simp) rfl
  | fullAsleep | done => cases hs
  | _ =>
    cases hs
    exact hskip (by simp) (by simp) rfl

theorem closing_step [Fintype Tid] {policy : WorkStealingRejectPolicy}
    {ok : Closing.State n Tid → Prop} {c c' : State P n Tid} {a : Action α n Tid}
    (hcount : Counted c.shared c.workers c.clients) (hin : InFlight c.shared c.clients)
    (hok : ∀ t b wakes, a = .client t b wakes → c.clients t = some .shutdownTest →
      c.shared.stop = true → ok (closing c pending))
    (hn : next policy c a = some c') :
    Closing.Step ok (closing c pending) (closing c' (track c pending a)) := by
  cases a with
  | call t op =>
    obtain ⟨hnone, rfl⟩ := next_call hn
    have hphase : (closing c pending).phase t = .outside := by
      show Client.phaseOf (c.clients t) = _
      rw [hnone]
      rfl
    have hsame : ({ c.shared with issued := c.shared.issued ++ op.jobs c.shared.issued.length } :
        Shared P n Tid).stop = c.shared.stop := rfl
    show Closing.Step ok _ (closing _ pending)
    rw [closing_move hsame]
    cases op with
    | shutdown => exact .ask hphase
    | _ => exact .stay hphase
  | ret t =>
    obtain ⟨r, hdone, rfl⟩ := next_ret hn
    have hphase : (closing c pending).phase t = r.phase := by
      show Client.phaseOf (c.clients t) = _
      rw [hdone]
      rfl
    show Closing.Step ok _ (closing _ pending)
    rw [closing_move rfl]
    cases r with
    | stopped => exact .ret (.inr hphase)
    | alreadyStopped => exact .ret (.inl hphase)
    | _ => exact .stay hphase
  | worker i b wakes =>
    obtain ⟨s, y, l, hs, hl, rfl⟩ := next_worker hn
    show Closing.Step ok _ (closing _ pending)
    rw [closing_woken Woken.refl (woken_wakeProducers hl)]
    exact closing_worker hs
  | client t b wakes =>
    obtain ⟨x, s, y, w, hx, hs, hw, rfl⟩ := next_client hn
    rw [closing_woken (woken_wakeWorkers hw) (woken_wakeAllProducers x _).update]
    exact closing_client hcount hin (fun he => hok t b wakes rfl (he ▸ hx)) hx hs
  | spuriousWorker i =>
    obtain ⟨hs, rfl⟩ := next_spuriousWorker hn
    show Closing.Step ok _ (closing _ pending)
    rw [closing_woken (woken_update hs) Woken.refl]
    exact .skip
  | spuriousClient t =>
    obtain ⟨hs, rfl⟩ := next_spuriousClient hn
    show Closing.Step ok _ (closing _ pending)
    rw [closing_woken Woken.refl (woken_update hs)]
    exact .skip

end Closing

/-! ## What a finished shutdown means -/

section Main

variable [Fintype Tid] [DecidableEq Tid]

/-- Every submission that was in flight when `stop_` was set has finished, and every worker has
exited. -/
structure Settled (p : State P n Tid × Set Tid) : Prop where
  exited : ∀ i, p.1.workers i = .exited
  finished : p.2 = ∅

omit [Fintype Tid] [DecidableEq Tid] in
/-- A `shutdown()` that is about to find `stop_` set comes after the one that has set it, or there is
nothing left to wait for. -/
def Late (p : State P n Tid × Set Tid) : Action α n Tid → Prop
  | .client t _ _ => p.1.clients t = some .shutdownTest → p.1.shared.stop = true →
    (∀ u x, p.1.clients u = some x → x.phase.closes = false) ∨ Settled p
  | _ => True

omit [Fintype Tid] [DecidableEq Tid] in
/-- No `shutdown()` finds the flag set; this can be computed. -/
def unasked (p : State P n Tid × Set Tid) : Action α n Tid → Bool
  | .client t _ _ =>
    match p.1.clients t with
    | some .shutdownTest => !p.1.shared.stop
    | _ => true
  | _ => true

omit [Fintype Tid] [DecidableEq Tid] in
theorem late_of_unasked {p : State P n Tid × Set Tid} {a : Action α n Tid} (h : unasked p a = true) :
    Late p a := by
  cases a with
  | client t =>
    intro hx hstop
    simp only [unasked, hx, hstop] at h
    cases h
  | _ => trivial

theorem kept_of_late (policy : WorkStealingRejectPolicy) (p : State P n Tid × Set Tid)
    (h : (tracked policy).Reach Late (initial P n Tid, ∅) p) :
    (Counted p.1.shared p.1.workers p.1.clients ∧ InFlight p.1.shared p.1.clients) ∧
      Closing.Inv (closing p.1 p.2) := by
  refine System.Reach.invariant (I := fun p => (Counted p.1.shared p.1.workers p.1.clients ∧
    InFlight p.1.shared p.1.clients) ∧ Closing.Inv (closing p.1 p.2)) h
    ⟨⟨counted_initial, inFlight_initial⟩, ?_⟩ ?_
  · exact
      { flag := nofun
        pending := fun t ht => ht.elim
        known := fun t => trivial }
  · rintro p a p' ⟨⟨hcount, hin⟩, hclosing⟩ hlate hn
    obtain ⟨c', hc', rfl⟩ := Option.map_eq_some_iff.mp hn
    refine ⟨⟨hcount.next hc', hin.next hcount hc'⟩, hclosing.step (closing_step hcount hin ?_ hc')⟩
    rintro t b wakes rfl hx hstop
    refine (hlate hx hstop).imp (fun hnobody u => ?_) fun hs => ⟨hs.exited, hs.finished⟩
    show (Client.phaseOf (p.1.clients u)).closes = false
    cases hu : p.1.clients u with
    | none => rfl
    | some x => exact hnobody u x hu

/-- The 32 bits of `active_submits_` are enough for fewer than `2 ^ 32` threads. -/
theorem active_lt_of_late (hfew : Fintype.card Tid < 2 ^ 32) (policy : WorkStealingRejectPolicy)
    (p : State P n Tid × Set Tid) (h : (tracked policy).Reach Late (initial P n Tid, ∅) p) :
    p.1.shared.active < 2 ^ 32 := by
  rw [(kept_of_late policy p h).1.1.active]
  exact (hands_le_card fun t => Client.hand_inside_le _).trans_lt hfew

/-- As long as no `shutdown()` comes too early, each finds everything settled when it returns. -/
theorem settled_of_late (policy : WorkStealingRejectPolicy) (p : State P n Tid × Set Tid)
    (h : (tracked policy).Reach Late (initial P n Tid, ∅) p) {t : Tid} {res : Result}
    (hdone : p.1.clients t = some (.done res)) (hres : res.isShutdown = true) : Settled p := by
  have hkept := kept_of_late policy p h
  have hphase : (closing p.1 p.2).phase t = res.phase := by
    show Client.phaseOf (p.1.clients t) = _
    rw [hdone]
    rfl
  have hsettled : (closing p.1 p.2).Settled := by
    refine hkept.2.settled (t := t) ?_
    rw [hphase]
    cases res <;> first | exact .inl rfl | exact .inr rfl | cases hres
  exact ⟨hsettled.exited, hsettled.pending⟩

/-- A `shutdown()` that comes too early can return before everything is settled. -/
theorem unsettled_of_early (policy : WorkStealingRejectPolicy) (p : State P n Tid × Set Tid)
    {a : Action α n Tid} (h : ¬ Late p a) : ∃ t p',
      (tracked policy).run p [.client t false none, .client t false none] = some p' ∧
        p'.1.clients t = some (.done .alreadyStopped) ∧ ¬ Settled p' := by
  cases a with
  | client t choice wakes =>
    obtain ⟨hx, h⟩ := Classical.not_imp.mp h
    obtain ⟨hstop, h⟩ := Classical.not_imp.mp h
    let q (x : Client P n) (s : Shared P n Tid) : State P n Tid × Set Tid :=
      ⟨⟨s, p.1.workers, Function.update p.1.clients t (some x)⟩, p.2⟩
    have htest : (tracked policy).next p (.client t false none) =
        some (q (.unlockDone .alreadyStopped) p.1.shared) := by
      simp only [tracked, next, track, hx, Option.bind_some, stepClient, hstop, if_true, wakeWorkers,
        wakeAllProducers, Option.map_some, q]
    have hunlock : (tracked policy).next (q (.unlockDone .alreadyStopped) p.1.shared)
        (.client t false none) = some (q (.done .alreadyStopped) p.1.shared.unlock) := by
      simp only [tracked, next, track, q, Function.update_self, Option.bind_some, stepClient,
        wakeWorkers, wakeAllProducers, Option.map_some, Function.update_idem]
    refine ⟨t, q (.done .alreadyStopped) p.1.shared.unlock, ?_, Function.update_self .., ?_⟩
    · simp only [System.run_cons, htest, hunlock, Option.bind_some, System.run_nil]
    · exact fun hs => h (.inr ⟨hs.exited, hs.finished⟩)
  | _ => exact absurd trivial h

end Main

end LowLatency.WorkStealingThreadPool
