import LowLatency.Concurrency.Closing
import LowLatency.ThreadPool.Drain

/-!
# Several threads shut the pool down

The first `shutdown()` sets `stop`, waits until no submission is in flight and joins the workers. A
`shutdown()` that finds `stop` set returns at once. `tracked` keeps as history which of the
submissions that were in flight when `stop` was set have not finished. Seen from the threads that
submit and shut down, the pool is a component that is closed (`closing_step`).
-/

namespace LowLatency.ThreadPool

open Concurrency Closing

variable {α Tid : Type*} {n : ℕ}

/-- The result of a `shutdown()`. -/
def Result.isShutdown : Result → Bool
  | .stopped | .alreadyStopped => true
  | _ => false

/-- Where an operation with this result has led. -/
def Result.phase : Result → Phase
  | .stopped => .closed
  | .alreadyStopped => .early
  | _ => .outside

namespace Client

/-- Where the thread is; a submission is in flight while `active_submits` counts it. -/
def phase : Client α → Phase
  | .submitEnter _ | .tryEnter _ | .idleLock | .idleBusy | .idleEmpty _ | .sizeLock | .sizeRead =>
    .outside
  | .shutdownLock | .shutdownTest => .asking
  | .shutdownSet => .setting
  | .shutdownUnlock | .notifyAll | .notifyAllNotFull | .awaitSubmits => .waiting
  | .join k => .joining k
  | .unlockDone r | .done r => r.phase
  | _ => .inside

/-- The same for a thread that may be outside of the pool. -/
def phaseOf : Option (Client α) → Phase
  | none => .outside
  | some x => x.phase

/-- Counted in `active_submits`. -/
def inside (x : Client α) : ℕ :=
  match x.phase with
  | .inside => 1
  | _ => 0

theorem hand_inside_le (o : Option (Client α)) : hand inside o ≤ 1 := by
  cases o with
  | none => exact Nat.zero_le 1
  | some x =>
    show inside x ≤ 1
    unfold inside
    split
    · exact le_rfl
    · exact Nat.zero_le 1

/-- A submission ends with no result of `shutdown()`. -/
def fits : Client α → Prop
  | .push _ r | .submittedAdd r | .unlockNotify r | .notify r | .unlockLeave r | .leave r =>
    r.isShutdown = false
  | .unlockDone r => r ≠ .stopped
  | _ => True

end Client

/-- The submissions in flight when `stop` was set that have not finished, after an action. -/
def track (c : State α n Tid) (pending : Set Tid) : Action α n Tid → Set Tid
  | .client t _ =>
    match c.clients t with
    | some .shutdownSet => {u | Client.phaseOf (c.clients u) = .inside}
    | some (.leave _) => pending \ {t}
    | _ => pending
  | _ => pending

/-- The pool with this history. -/
def tracked [Fintype Tid] [DecidableEq Tid] (policy : RejectPolicy) :
    System (State α n Tid × Set Tid) (Action α n Tid) where
  next p a := (next policy p.1 a).map fun c => (c, track p.1 p.2 a)

/-- The pool as a component that is closed. -/
def closing (c : State α n Tid) (pending : Set Tid) : Closing.State n Tid where
  flag := c.shared.stop
  exited i := c.workers i = .exited
  phase t := Client.phaseOf (c.clients t)
  pending := pending

/-! ## Submissions in flight -/

/-- Which results are possible where, what `active_submits` counts, and who sets `stop`. -/
structure InFlight [Fintype Tid] (s : Shared α n Tid) (l : Tid → Option (Client α)) : Prop where
  fits : ∀ t x, l t = some x → x.fits
  active : s.active = hands Client.inside l
  setting : ∀ t, l t = some .shutdownSet → s.stop = false

section Steps

variable {s s' : Shared α n Tid} {w : Fin n → Worker α} {t : Tid} {x y : Client α}
  {policy : RejectPolicy}

/-- What a client's step does to the results and to `active_submits`. -/
theorem stepClient_inside (hs : stepClient policy w t s x = some (s', y)) (hx : x.fits) :
    y.fits ∧ (x.inside ≤ s.active → s'.active + x.inside = s.active + y.inside) := by
  cases x with
  | submitEnter | tryEnter =>
    cases hs
    exact ⟨trivial, fun _ => rfl⟩
  | leave r =>
    cases hs
    refine ⟨trivial, fun hle => ?_⟩
    have hr : (Client.done r : Client α).inside = 0 := by
      cases r <;> rfl
    rw [hr]
    exact Nat.sub_add_cancel hle
  | enqueueLock | notFullWoken | tryLock | shutdownLock | idleLock | sizeLock =>
    obtain ⟨s₁, hlock, he⟩ := Option.map_eq_some_iff.mp hs
    cases he
    obtain ⟨_, rfl⟩ := lock_eq_some hlock
    exact ⟨trivial, fun _ => rfl⟩
  | enqueuePolicy =>
    cases policy <;> simp only [stepClient] at hs <;> split at hs <;> cases hs <;>
      first | exact ⟨trivial, fun _ => rfl⟩ | exact ⟨rfl, fun _ => rfl⟩
  | enqueueStop | tryStop | tryTest | awaitSubmits =>
    simp only [stepClient] at hs
    split at hs <;> cases hs <;>
      first | exact ⟨trivial, fun _ => rfl⟩ | exact ⟨rfl, fun _ => rfl⟩
  | shutdownTest =>
    simp only [stepClient] at hs
    split at hs <;> cases hs
    · exact ⟨by simp [Client.fits], fun _ => rfl⟩
    · exact ⟨trivial, fun _ => rfl⟩
  | push task r =>
    simp only [stepClient] at hs
    split at hs <;> cases hs <;> exact ⟨hx, fun _ => rfl⟩
  | join k =>
    simp only [stepClient] at hs
    split at hs
    · split at hs <;> cases hs
      exact ⟨trivial, fun _ => rfl⟩
    · cases hs
      exact ⟨trivial, fun _ => rfl⟩
  | idleEmpty | sizeRead =>
    cases hs
    exact ⟨by simp [Client.fits], fun _ => rfl⟩
  | unlockDone r =>
    cases hs
    exact ⟨trivial, fun _ => rfl⟩
  | notFullAsleep | done => cases hs
  | submittedAdd | unlockNotify | notify | unlockLeave =>
    cases hs
    exact ⟨hx, fun _ => rfl⟩
  | _ =>
    cases hs
    exact ⟨trivial, fun _ => rfl⟩

/-- Only `shutdown()` sets `stop`, and only when it has found it clear. -/
theorem stepClient_stop (hs : stepClient policy w t s x = some (s', y)) :
    (y = .shutdownSet → s'.stop = false) ∧ (x ≠ .shutdownSet → s'.stop = s.stop) := by
  cases x with
  | enqueueLock | notFullWoken | tryLock | shutdownLock | idleLock | sizeLock =>
    obtain ⟨s₁, hlock, he⟩ := Option.map_eq_some_iff.mp hs
    cases he
    obtain ⟨_, rfl⟩ := lock_eq_some hlock
    exact ⟨(by simp), fun _ => rfl⟩
  | enqueuePolicy =>
    cases policy <;> simp only [stepClient] at hs <;> split at hs <;> cases hs <;>
      exact ⟨(by simp), fun _ => rfl⟩
  | enqueueStop | tryStop | tryTest | awaitSubmits | push =>
    simp only [stepClient] at hs
    split at hs <;> cases hs <;> exact ⟨(by simp), fun _ => rfl⟩
  | shutdownTest =>
    simp only [stepClient] at hs
    split at hs <;> cases hs
    · exact ⟨(by simp), fun _ => rfl⟩
    next hc => exact ⟨fun _ => Bool.eq_false_of_not_eq_true hc, fun _ => rfl⟩
  | join k =>
    simp only [stepClient] at hs
    split at hs
    · split at hs <;> cases hs
      exact ⟨(by simp), fun _ => rfl⟩
    · cases hs
      exact ⟨(by simp), fun _ => rfl⟩
  | shutdownSet =>
    cases hs
    exact ⟨(by simp), fun hne => absurd rfl hne⟩
  | notFullAsleep | done => cases hs
  | _ =>
    cases hs
    exact ⟨(by simp), fun _ => rfl⟩

end Steps

section InFlight

variable [Fintype Tid] {s s' : Shared α n Tid} {w w' : Fin n → Worker α}
  {l l' : Tid → Option (Client α)} {t : Tid}

theorem inFlight_initial (r : Ring) :
    InFlight (initial α n Tid r).shared (initial α n Tid r).clients where
  fits t x hx := by cases hx
  active := (hands_eq_zero fun _ => rfl).symm
  setting t ht := by cases ht

/-- Waking up changes neither the results nor who is in flight. -/
theorem InFlight.wake (h : InFlight s l) (hl : Woken Client.sleeping Client.wake l l') :
    InFlight s l' where
  fits t x hx := by
    by_cases hw : ∃ task, x = .notFullWoken task
    · obtain ⟨task, rfl⟩ := hw
      trivial
    · exact h.fits t x (client_of_woken hl hx fun task he => hw ⟨task, he⟩)
  active := h.active.trans (tally_congr (hl.congr (f := hand Client.inside) fun o ho => by
    cases o with
    | none => cases ho
    | some x => cases x <;> rfl)).symm
  setting t ht := h.setting t (client_of_woken hl ht nofun)

variable [DecidableEq Tid]

theorem InFlight.setClient {o : Option (Client α)} (h : InFlight s l)
    (hold : hand Client.inside (l t) = 0) (hnew : hand Client.inside o = 0)
    (hfits : ∀ x, o = some x → x.fits ∧ x ≠ .shutdownSet) :
    InFlight s (Function.update l t o) where
  fits u x hx := by
    rcases update_eq_some hx with ⟨_, ho⟩ | ⟨_, hx⟩
    · exact (hfits x ho).1
    · exact h.fits u x hx
  active := by
    have hup := hands_update Client.inside l t o
    have hactive := h.active
    omega
  setting u hu := by
    rcases update_eq_some hu with ⟨_, ho⟩ | ⟨_, hu⟩
    · exact absurd rfl (hfits _ ho).2
    · exact h.setting u hu

theorem InFlight.client {policy : RejectPolicy} {x y : Client α} (hinv : Inv s w l)
    (h : InFlight s l) (hx : l t = some x) (hs : stepClient policy w t s x = some (s', y)) :
    InFlight s' (Function.update l t (some y)) := by
  obtain ⟨hfits, hactive⟩ := stepClient_inside hs (h.fits t x hx)
  obtain ⟨hset, hkeep⟩ := stepClient_stop hs
  refine { fits := fun u z hz => ?_, active := ?_, setting := fun u hu => ?_ }
  · rcases update_eq_some hz with ⟨_, ho⟩ | ⟨_, hz⟩
    · exact Option.some.inj ho ▸ hfits
    · exact h.fits u z hz
  · have hle := le_hands Client.inside hx
    have hup := hands_update Client.inside l t (some y)
    rw [hx] at hup
    simp only [hand] at hup
    have hold := h.active
    have hcount := hactive (by omega)
    omega
  · rcases update_eq_some hu with ⟨_, ho⟩ | ⟨hut, hu⟩
    · exact hset (Option.some.inj ho)
    · -- only one thread holds the mutex
      have hne : x ≠ .shutdownSet := by
        rintro rfl
        have hfree := (hinv.alone_client hx rfl).2 u _ hut hu
        cases hfree
      rw [hkeep hne]
      exact h.setting u hu

theorem InFlight.next {policy : RejectPolicy} {c c' : State α n Tid} {a : Action α n Tid}
    (hinv : Inv c.shared c.workers c.clients) (h : InFlight c.shared c.clients)
    (hn : ThreadPool.next policy c a = some c') : InFlight c'.shared c'.clients := by
  have hkept := next_induction (I := fun s w l => Inv s w l ∧ InFlight s l)
    (fun hi hw hl => ⟨hi.1.wake hw hl, hi.2.wake hl⟩) ?_ ?_ ?_ ?_ ⟨hinv, h⟩ hn
  · exact hkept.2
  · intro s w l t op hi hl
    refine ⟨hi.1.call hl, hi.2.setClient (by rw [hl]; rfl) (by cases op <;> rfl) fun x hx => ?_⟩
    cases op <;> cases hx <;> exact ⟨trivial, nofun⟩
  · intro s w l t r hi hl
    refine ⟨hi.1.ret hl, hi.2.setClient ?_ rfl nofun⟩
    rw [hl]
    cases r <;> rfl
  · intro s s' w l i y hi hs
    obtain ⟨hstop, _, hactive⟩ := stepWorker_frame hs
    exact ⟨hi.1.step_worker hs, hi.2.fits, hactive.trans hi.2.active,
      fun t ht => hstop.trans (hi.2.setting t ht)⟩
  · exact fun hi hx hs => ⟨hi.1.step_client hx hs, hi.2.client hi.1 hx hs⟩

end InFlight

/-! ## The pool is closed -/

section Closing

variable [DecidableEq Tid] {s s' : Shared α n Tid} {w w' : Fin n → Worker α}
  {l l' : Tid → Option (Client α)} {t : Tid} {i : Fin n} {pending : Set Tid}

omit [DecidableEq Tid] in
theorem closing_woken (hw : Woken Worker.sleeping Worker.wake w w')
    (hl : Woken Client.sleeping Client.wake l l') :
    closing ⟨s, w', l'⟩ pending = closing ⟨s, w, l⟩ pending := by
  have hexited : (fun i => w' i = .exited) = fun i => w i = .exited := by
    funext i
    exact hw.congr (f := fun x => x = .exited)
      (fun x hx => by cases x <;> first | (cases hx; done) | simp [Worker.wake]) i
  have hphase : (fun t => Client.phaseOf (l' t)) = fun t => Client.phaseOf (l t) := by
    funext t
    exact hl.congr (f := Client.phaseOf)
      (fun o ho => by
        cases o with
        | none => cases ho
        | some x => cases x <;> rfl) t
  unfold closing
  rw [hexited, hphase]

/-- A thread that changes nothing else moves to another phase. -/
theorem closing_move {o : Option (Client α)} (hstop : s'.stop = s.stop) :
    closing ⟨s', w, Function.update l t o⟩ pending =
      (closing ⟨s, w, l⟩ pending).move t (Client.phaseOf o) := by
  unfold closing State.move
  dsimp only
  rw [hstop]
  congr 1
  exact Function.comp_update Client.phaseOf l t o

/-- A worker's step is its exit or nothing to the component. -/
theorem closing_worker {ok : Closing.State n Tid → Prop} {y : Worker α}
    (hs : stepWorker i s (w i) = some (s', y)) :
    Closing.Step ok (closing ⟨s, w, l⟩ pending) (closing ⟨s', Function.update w i y, l⟩ pending) := by
  obtain ⟨hstop, _⟩ := stepWorker_frame hs
  have hup : w i ≠ .exited := by
    intro he
    rw [he] at hs
    cases hs
  by_cases hy : y = .exited
  · have hexit : closing ⟨s', Function.update w i y, l⟩ pending =
        { closing ⟨s, w, l⟩ pending with exited := fun j => j = i ∨ w j = .exited } := by
      unfold closing
      dsimp only
      rw [hstop]
      congr 1
      funext j
      by_cases hj : j = i
      · subst hj
        simp [hy]
      · simp [hj]
    rw [hexit]
    exact .exit i
  · have hsame : closing ⟨s', Function.update w i y, l⟩ pending = closing ⟨s, w, l⟩ pending := by
      unfold closing
      dsimp only
      rw [hstop]
      congr 1
      funext j
      by_cases hj : j = i
      · subst hj
        simp [hy, hup]
      · simp [hj]
    rw [hsame]
    exact .skip

theorem closing_client [Fintype Tid] {policy : RejectPolicy} {ok : Closing.State n Tid → Prop}
    {x y : Client α} {wakes : Option (Fin n)} (hin : InFlight s l)
    (hok : x = .shutdownTest → s.stop = true → ok (closing ⟨s, w, l⟩ pending))
    (hx : l t = some x) (hs : stepClient policy w t s x = some (s', y)) :
    Closing.Step ok (closing ⟨s, w, l⟩ pending)
      (closing ⟨s', w, Function.update l t (some y)⟩ (track ⟨s, w, l⟩ pending (.client t wakes))) := by
  have hphase : (closing ⟨s, w, l⟩ pending).phase t = x.phase := by
    show Client.phaseOf (l t) = x.phase
    rw [hx]
    rfl
  have hkeep := (stepClient_stop hs).2
  have hfits := hin.fits t x hx
  -- a step that is neither the end of a submission nor the setting of `stop`
  have hmove : (∀ r, x ≠ .leave r) → x ≠ .shutdownSet →
      closing ⟨s', w, Function.update l t (some y)⟩ (track ⟨s, w, l⟩ pending (.client t wakes)) =
        (closing ⟨s, w, l⟩ pending).move t y.phase := by
    intro hleave hset
    have htrack : track ⟨s, w, l⟩ pending (.client t wakes) = pending := by
      unfold track
      dsimp only
      rw [hx]
      split
      next he => exact absurd (Option.some.inj he) hset
      next r he => exact absurd (Option.some.inj he) (hleave r)
      · rfl
    rw [htrack, closing_move (hkeep hset)]
    rfl
  have hskip : (∀ r, x ≠ .leave r) → x ≠ .shutdownSet → y.phase = x.phase →
      Closing.Step ok (closing ⟨s, w, l⟩ pending) (closing ⟨s', w, Function.update l t (some y)⟩
        (track ⟨s, w, l⟩ pending (.client t wakes))) := by
    intro hleave hset hsame
    rw [hmove hleave hset]
    exact .stay (hphase.trans hsame.symm)
  cases x with
  | submitEnter | tryEnter =>
    rw [hmove (by simp) (by simp)]
    cases hs
    exact .enter hphase
  | leave r =>
    cases hs
    have hend : (Client.done r : Client α).phase = .outside := by
      cases r <;> first | rfl | cases hfits
    have hleave : closing ⟨{ s with active := s.active - 1 }, w,
        Function.update l t (some (.done r))⟩ (track ⟨s, w, l⟩ pending (.client t wakes)) =
          (closing ⟨s, w, l⟩ pending).leave t := by
      unfold closing Closing.State.leave track
      dsimp only
      rw [hx]
      congr 1
      exact (Function.comp_update Client.phaseOf l t _).trans (by rw [Client.phaseOf, hend]; rfl)
    rw [hleave]
    exact .leave hphase
  | shutdownSet =>
    cases hs
    have hclose : closing ⟨{ s with stop := true }, w,
        Function.update l t (some .shutdownUnlock)⟩ (track ⟨s, w, l⟩ pending (.client t wakes)) =
          (closing ⟨s, w, l⟩ pending).close t := by
      unfold closing Closing.State.close track
      dsimp only
      rw [hx]
      congr 1
      exact Function.comp_update Client.phaseOf l t _
    rw [hclose]
    exact .set hphase (hin.setting t hx)
  | shutdownTest =>
    rw [hmove (by simp) (by simp)]
    simp only [stepClient] at hs
    split at hs <;> cases hs
    next hstop => exact .early hphase hstop (hok rfl hstop)
    next => exact .proceed hphase
  | awaitSubmits =>
    simp only [stepClient] at hs
    split at hs <;> cases hs
    next hzero =>
      rw [hmove (by simp) (by simp)]
      refine .alone hphase fun u hu => ?_
      -- `active_submits` counts whoever is in flight
      cases hlu : l u with
      | none =>
        have hu : Client.phaseOf (l u) = .inside := hu
        rw [hlu] at hu
        cases hu
      | some z =>
        have hu : Client.phaseOf (l u) = .inside := hu
        rw [hlu] at hu
        have hle := le_hands Client.inside hlu
        have hone : z.inside = 1 := by
          unfold Client.inside
          rw [show z.phase = .inside from hu]
        rw [← hin.active, hone, hzero] at hle
        exact absurd hle (by decide)
    next => exact hskip (by simp) (by simp) rfl
  | join k =>
    rw [hmove (by simp) (by simp)]
    simp only [stepClient] at hs
    split at hs
    next hk =>
      split at hs <;> cases hs
      next hexited =>
        refine .join hphase fun i hi => ?_
        rw [show i = ⟨k, hk⟩ from Fin.ext hi]
        exact hexited
    next hk =>
      cases hs
      exact .finish hphase (by omega)
  | enqueueLock | notFullWoken | tryLock | shutdownLock | idleLock | sizeLock =>
    obtain ⟨s₁, _, he⟩ := Option.map_eq_some_iff.mp hs
    cases he
    exact hskip (by simp) (by simp) rfl
  | enqueuePolicy =>
    cases policy <;> simp only [stepClient] at hs <;> split at hs <;> cases hs <;>
      exact hskip (by simp) (by simp) rfl
  | enqueueStop | tryStop | tryTest | push =>
    simp only [stepClient] at hs
    split at hs <;> cases hs <;> exact hskip (by simp) (by simp) rfl
  | notFullAsleep | done => cases hs
  | _ =>
    cases hs
    exact hskip (by simp) (by simp) rfl

theorem closing_step [Fintype Tid] {policy : RejectPolicy} {ok : Closing.State n Tid → Prop}
    {c c' : State α n Tid} {a : Action α n Tid}
    (hin : InFlight c.shared c.clients)
    (hok : ∀ t wakes, a = .client t wakes → c.clients t = some .shutdownTest →
      c.shared.stop = true → ok (closing c pending))
    (hn : next policy c a = some c') :
    Closing.Step ok (closing c pending) (closing c' (track c pending a)) := by
  cases a with
  | call t op =>
    obtain ⟨hnone, rfl⟩ := next_call hn
    have hphase : (closing c pending).phase t = .outside := by
      show Client.phaseOf (c.clients t) = _
      rw [hnone]
      rfl
    show Closing.Step ok _ (closing _ pending)
    rw [closing_move rfl]
    cases op with
    | shutdown => exact .ask hphase
    | _ => exact .stay hphase
  | ret t =>
    obtain ⟨r, hdone, rfl⟩ := next_ret hn
    have hphase : (closing c pending).phase t = r.phase := by
      show Client.phaseOf (c.clients t) = _
      rw [hdone]
      rfl
    show Closing.Step ok _ (closing _ pending)
    rw [closing_move rfl]
    cases r with
    | stopped => exact .ret (.inr hphase)
    | alreadyStopped => exact .ret (.inl hphase)
    | _ => exact .stay hphase
  | worker i wakes =>
    obtain ⟨s, y, l, hs, hl, rfl⟩ := next_worker hn
    show Closing.Step ok _ (closing _ pending)
    rw [closing_woken Woken.refl (woken_wakeProducers hl)]
    exact closing_worker hs
  | client t wakes =>
    obtain ⟨x, s, y, w, hx, hs, hw, rfl⟩ := next_client hn
    rw [closing_woken (woken_wakeWorkers hw) (woken_wakeAllProducers x _).update]
    exact closing_client hin (fun he => hok t wakes rfl (he ▸ hx)) hx hs
  | spuriousWorker i =>
    obtain ⟨hs, rfl⟩ := next_spuriousWorker hn
    show Closing.Step ok _ (closing _ pending)
    rw [closing_woken (woken_update hs) Woken.refl]
    exact .skip
  | spuriousClient t =>
    obtain ⟨hs, rfl⟩ := next_spuriousClient hn
    show Closing.Step ok _ (closing _ pending)
    rw [closing_woken Woken.refl (woken_update hs)]
    exact .skip

end Closing

/-! ## What a finished shutdown means -/

section Main

variable [Fintype Tid] [DecidableEq Tid]

/-- Every submission that was in flight when `stop` was set has finished, and every worker has
exited. -/
structure Settled (p : State α n Tid × Set Tid) : Prop where
  exited : ∀ i, p.1.workers i = .exited
  finished : p.2 = ∅

omit [Fintype Tid] [DecidableEq Tid] in
/-- A `shutdown()` that is about to find `stop` set comes after the one that has set it, or there is
nothing left to wait for. -/
def Late (p : State α n Tid × Set Tid) : Action α n Tid → Prop
  | .client t _ => p.1.clients t = some .shutdownTest → p.1.shared.stop = true →
    (∀ u x, p.1.clients u = some x → x.phase.closes = false) ∨ Settled p
  | _ => True

omit [Fintype Tid] [DecidableEq Tid] in
/-- No `shutdown()` finds the flag set; this can be computed. -/
def unasked (p : State α n Tid × Set Tid) : Action α n Tid → Bool
  | .client t _ =>
    match p.1.clients t with
    | some .shutdownTest => !p.1.shared.stop
    | _ => true
  | _ => true

omit [Fintype Tid] [DecidableEq Tid] in
theorem late_of_unasked {p : State α n Tid × Set Tid} {a : Action α n Tid} (h : unasked p a = true) :
    Late p a := by
  cases a with
  | client t =>
    intro hx hstop
    simp only [unasked, hx, hstop] at h
    cases h
  | _ => trivial

theorem kept_of_late (policy : RejectPolicy) (r : Ring) (p : State α n Tid × Set Tid)
    (h : (tracked policy).Reach Late (initial α n Tid r, ∅) p) :
    (Inv p.1.shared p.1.workers p.1.clients ∧ InFlight p.1.shared p.1.clients) ∧
      Closing.Inv (closing p.1 p.2) := by
  refine System.Reach.invariant (I := fun p => (Inv p.1.shared p.1.workers p.1.clients ∧
    InFlight p.1.shared p.1.clients) ∧ Closing.Inv (closing p.1 p.2)) h
    ⟨⟨inv_initial r, inFlight_initial r⟩, ?_⟩ ?_
  · exact
      { flag := nofun
        pending := fun t ht => ht.elim
        known := fun t => trivial }
  · rintro p a p' ⟨⟨hinv, hin⟩, hclosing⟩ hlate hn
    obtain ⟨c', hc', rfl⟩ := Option.map_eq_some_iff.mp hn
    have hc' : (system policy).next p.1 a = some c' := hc'
    refine ⟨⟨inv_next hinv hc', hin.next hinv hc'⟩, hclosing.step (closing_step hin ?_ hc')⟩
    rintro t wakes rfl hx hstop
    refine (hlate hx hstop).imp (fun hnobody u => ?_) fun hs => ⟨hs.exited, hs.finished⟩
    show (Client.phaseOf (p.1.clients u)).closes = false
    cases hu : p.1.clients u with
    | none => rfl
    | some x => exact hnobody u x hu

/-- The 32 bits of `active_submits` are enough for fewer than `2 ^ 32` threads. -/
theorem active_lt_of_late (hfew : Fintype.card Tid < 2 ^ 32) (policy : RejectPolicy) (r : Ring)
    (p : State α n Tid × Set Tid) (h : (tracked policy).Reach Late (initial α n Tid r, ∅) p) :
    p.1.shared.active < 2 ^ 32 := by
  rw [(kept_of_late policy r p h).1.2.active]
  exact (hands_le_card fun t => Client.hand_inside_le _).trans_lt hfew

/-- As long as no `shutdown()` comes too early, each finds everything settled when it returns. -/
theorem settled_of_late (policy : RejectPolicy) (r : Ring) (p : State α n Tid × Set Tid)
    (h : (tracked policy).Reach Late (initial α n Tid r, ∅) p) {t : Tid} {res : Result}
    (hdone : p.1.clients t = some (.done res)) (hres : res.isShutdown = true) : Settled p := by
  have hkept := kept_of_late policy r p h
  have hphase : (closing p.1 p.2).phase t = res.phase := by
    show Client.phaseOf (p.1.clients t) = _
    rw [hdone]
    rfl
  have hsettled : (closing p.1 p.2).Settled := by
    refine hkept.2.settled (t := t) ?_
    rw [hphase]
    cases res <;> first | exact .inl rfl | exact .inr rfl | cases hres
  exact ⟨hsettled.exited, hsettled.pending⟩

/-- A `shutdown()` that comes too early can return before everything is settled. -/
theorem unsettled_of_early (policy : RejectPolicy) (p : State α n Tid × Set Tid) {a : Action α n Tid}
    (h : ¬ Late p a) : ∃ t p', (tracked policy).run p [.client t none, .client t none] = some p' ∧
      p'.1.clients t = some (.done .alreadyStopped) ∧ ¬ Settled p' := by
  cases a with
  | client t wakes =>
    obtain ⟨hx, h⟩ := Classical.not_imp.mp h
    obtain ⟨hstop, h⟩ := Classical.not_imp.mp h
    let q (x : Client α) (s : Shared α n Tid) : State α n Tid × Set Tid :=
      ⟨⟨s, p.1.workers, Function.update p.1.clients t (some x)⟩, p.2⟩
    have htest : (tracked policy).next p (.client t none) =
        some (q (.unlockDone .alreadyStopped) p.1.shared) := by
      simp only [tracked, next, track, hx, Option.bind_some, stepClient, hstop, if_true, wakeWorkers,
        wakeAllProducers, Option.map_some, q]
    have hunlock : (tracked policy).next (q (.unlockDone .alreadyStopped) p.1.shared) (.client t none) =
        some (q (.done .alreadyStopped) p.1.shared.unlock) := by
      simp only [tracked, next, track, q, Function.update_self, Option.bind_some, stepClient,
        wakeWorkers, wakeAllProducers, Option.map_some, Function.update_idem]
    refine ⟨t, q (.done .alreadyStopped) p.1.shared.unlock, ?_, Function.update_self .., ?_⟩
    · simp only [System.run_cons, htest, hunlock, Option.bind_some, System.run_nil]
    · exact fun hs => h (.inr ⟨hs.exited, hs.finished⟩)
  | _ => exact absurd trivial h

end Main

end LowLatency.ThreadPool
