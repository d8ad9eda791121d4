import Mathlib.Algebra.BigOperators.Intervals
import LowLatency.PipelineDemo.Accepted
import LowLatency.ThreadPool.Idle

/-!
# What `run_pipeline` returns

When the pool has completed as many tasks as there are, no task is running (`Driven.awaited`): the
counters that the main thread then reads have their last values, and a pop that finds nothing means that
the sink is empty. Until the main thread has seen that, it uses neither.
-/

namespace LowLatency.PipelineDemo

open Concurrency ThreadPool

variable {g : Args}

/-- The pool has completed all tasks. -/
def Awaited (c : State g) : Prop := g.total ≤ c.pool.shared.completed

section Completed

variable {s s' : Shared ℕ g.workers (Caller g)} {w : Fin g.workers → Worker ℕ} {i : Fin g.workers}
  {t : Caller g}

theorem stepWorker_completed {x y : Worker ℕ} (hs : stepWorker i s x = some (s', y)) :
    s.completed ≤ s'.completed := by
  cases x with
  | lock | woken =>
    obtain ⟨s₁, hlock, he⟩ := Option.map_eq_some_iff.mp hs
    cases he
    obtain ⟨_, rfl⟩ := lock_eq_some hlock
    exact le_rfl
  | predicate | exitTest | pop =>
    simp only [stepWorker] at hs
    split at hs <;> cases hs <;> exact le_rfl
  | completedAdd =>
    cases hs
    exact Nat.le_succ _
  | asleep | exited => cases hs
  | _ =>
    cases hs
    exact le_rfl

theorem stepClient_completed {x y : Client ℕ} (hs : stepClient .block w t s x = some (s', y)) :
    s'.completed = s.completed := by
  cases x with
  | enqueueLock | notFullWoken | tryLock | shutdownLock | idleLock | sizeLock =>
    obtain ⟨s₁, hlock, he⟩ := Option.map_eq_some_iff.mp hs
    cases he
    obtain ⟨_, rfl⟩ := lock_eq_some hlock
    rfl
  | enqueuePolicy | enqueueStop | tryStop | tryTest | shutdownTest | awaitSubmits | push =>
    simp only [stepClient] at hs
    split at hs <;> cases hs <;> rfl
  | join k =>
    simp only [stepClient] at hs
    split at hs
    · split at hs <;> cases hs
      rfl
    · cases hs
      rfl
  | notFullAsleep | done => cases hs
  | _ =>
    cases hs
    rfl

end Completed

namespace Driven

variable {c : State g}

theorem length_accepted_le (h : Driven c) : c.pool.shared.accepted.length ≤ g.total := by
  have hcard := Multiset.card_le_card h.accepted_le
  rwa [Multiset.coe_card, List.length_map, Multiset.card_range] at hcard

theorem length_taken (h : Driven c) : c.pool.shared.taken.length =
    tally (fun x => Multiset.card (Worker.holding x)) c.pool.workers +
      c.pool.shared.executed.length := by
  have hcard := congrArg Multiset.card h.inv.executed
  rw [Multiset.card_add, Multiset.coe_card, Multiset.coe_card] at hcard
  rw [hcard]
  congr 1
  exact map_sum Multiset.cardHom _ _

theorem settled_le (h : Driven c) (st : User g → Option SinkStage) :
    ∑ i, settled (c.bodies i) (st (some i)) ≤
      tally (fun x => Multiset.card (Worker.holding x)) c.pool.workers := by
  refine Finset.sum_le_sum fun i _ => ?_
  cases hb : c.bodies i with
  | none => exact Nat.zero_le _
  | some b =>
    obtain ⟨j, hj, -⟩ := h.running.task i b hb
    rw [hj]
    show settled (some b) _ ≤ 1
    cases b with
    | push seq =>
      simp only [settled, LockFreeQueue.inserted]
      split <;> omega
    | returned => exact le_rfl
    | _ => exact Nat.zero_le _

theorem tail_le (h : Driven c) {lat : Multiset ℕ} {items : List ℕ} {st : User g → Option SinkStage}
    (hc : Counted c lat items st) : c.sink.shared.tail ≤ g.total := by
  have hput := hc.put
  have hsettled := h.settled_le st
  have htaken := h.length_taken
  have hle := h.inv.taken.length_le
  have htotal := h.length_accepted_le
  omega

theorem awaited (h : Driven c) (ha : Awaited c) : (∀ i, c.bodies i = none) ∧
    c.pool.shared.executed.length = g.total ∧
      (c.pool.shared.executed : Multiset (Job ℕ)) = c.pool.shared.accepted := by
  have hcompleted := h.inv.completed
  have hle := h.inv.taken.length_le
  have htotal := h.length_accepted_le
  have hawaited : g.total ≤ c.pool.shared.completed := ha
  have hzero : ∀ i, (c.pool.workers i).uncounted = 0 := by
    intro i
    have := le_tally Worker.uncounted c.pool.workers i
    omega
  have hholding : ∀ i, (c.pool.workers i).holding = 0 := by
    intro i
    have hi := hzero i
    cases hw : c.pool.workers i with
    | notifyNotFull | unlock | busyAdd | execute =>
      rw [hw] at hi
      cases hi
    | _ => rfl
  have hexec := h.inv.executed
  rw [tally_eq_zero hholding, zero_add] at hexec
  have hlen := congrArg Multiset.card hexec
  rw [Multiset.coe_card, Multiset.coe_card] at hlen
  have htaken : c.pool.shared.taken = c.pool.shared.accepted :=
    h.inv.taken.eq_of_length (by omega)
  refine ⟨fun i => ?_, by omega, by rw [← hexec, htaken]⟩
  cases hb : c.bodies i with
  | none => rfl
  | some b =>
    obtain ⟨j, hj, -⟩ := h.running.task i b hb
    have hi := hzero i
    rw [hj] at hi
    cases hi

end Driven

/-! ## The main thread -/

namespace Main

/-- The latencies that have been collected. -/
def lat : Main → List ℕ
  | .drain r | .shutdown r | .stopping r | .done r => r.lat
  | _ => []

def drains : Main → Bool
  | .drain _ => true
  | _ => false

end Main

/-- The sum of all task numbers. -/
def Args.sum (g : Args) : ℕ := g.total * (g.total - 1) / 2

/-- The counters of a result. -/
structure Totals (g : Args) (dropped : ℕ) (r : PipeResult) : Prop where
  total : r.total = g.total
  processed : r.processed = g.total
  checksum : r.checksum = BitVec.ofNat 64 g.sum
  expect_checksum : r.expect_checksum = g.expect_checksum
  dropped : r.dropped = dropped

/-- What the main thread knows; `o` is the stage of its pop. -/
def MainFact (c : State g) (items : List ℕ) (o : Option SinkStage) : Main → Prop
  | .join | .await => True
  | .loadProcessed => Awaited c
  | .loadChecksum processed => Awaited c ∧ processed = g.total
  | .loadDropped processed checksum =>
    Awaited c ∧ processed = g.total ∧ checksum = BitVec.ofNat 64 g.sum
  | .drain r => Awaited c ∧ Totals g c.dropped r ∧ (o = some (.settled .nothing) → items = [])
  | .shutdown r | .stopping r | .done r =>
    Awaited c ∧ Totals g c.dropped r ∧ items = [] ∧ r.lat.Pairwise (· ≤ ·)

/-- The counters, the sink and the main thread. -/
structure Reported (c : State g) (items : List ℕ) (st : User g → Option SinkStage) : Prop where
  counted : Counted c c.main.lat items st
  idle : c.main.drains = false → c.sink.locals none = none
  fact : MainFact c items (st none) c.main

theorem MainFact.awaited {c : State g} {items : List ℕ} {o : Option SinkStage}
    (h : MainFact c items o c.main) : c.main = .join ∨ c.main = .await ∨ Awaited c := by
  generalize c.main = m at h
  cases m with
  | join => exact .inl rfl
  | await => exact .inr (.inl rfl)
  | loadProcessed => exact .inr (.inr h)
  | _ => exact .inr (.inr h.1)

theorem MainFact.mono {c c' : State g} {items : List ℕ} {o : Option SinkStage} {m : Main}
    (h : MainFact c items o m) (hcompleted : c.pool.shared.completed ≤ c'.pool.shared.completed)
    (hdropped : c'.dropped = c.dropped) : MainFact c' items o m := by
  have hawaited : Awaited c → Awaited c' := fun ha => le_trans ha hcompleted
  cases m with
  | join | await => trivial
  | loadProcessed => exact hawaited h
  | _ =>
    simp only [MainFact, hdropped] at h ⊢
    exact ⟨hawaited h.1, h.2⟩

section Steps

variable {c c' : State g} {items : List ℕ} {st : User g → Option SinkStage}

theorem Reported.last (hd : Driven c) (h : Reported c items st) (ha : Awaited c)
    (hj : c.main.joined = true) : c.processed = g.total ∧ c.checksum = BitVec.ofNat 64 g.sum ∧
      c.sink.shared.tail + c.dropped = g.total := by
  obtain ⟨hbodies, hlen, hexec⟩ := hd.awaited ha
  have hprocessed := h.counted.processed
  have hchecksum := h.counted.checksum
  have hput := h.counted.put
  have hhands : ∀ f : Body → ℕ, hands f c.bodies = 0 := fun f =>
    hands_eq_zero_of_hand fun i => by
      rw [hbodies i]
      rfl
  have hsettled : ∑ i, settled (c.bodies i) (st (some i)) = 0 :=
    Finset.sum_eq_zero fun i _ => by
      rw [hbodies i]
      rfl
  have hsum : (c.pool.shared.executed.map Job.task).sum = g.sum := by
    have htasks := congrArg (Multiset.map Job.task) hexec
    rw [Multiset.map_coe, Multiset.map_coe, hd.accepted_joined hj] at htasks
    rw [← Multiset.sum_coe, htasks]
    have hrange := Finset.sum_range_id g.total
    rwa [Finset.sum_eq_multiset_sum, Finset.range_val, Multiset.map_id'] at hrange
  rw [hhands, Nat.add_zero] at hprocessed hchecksum
  refine ⟨hprocessed.trans hlen, ?_, by omega⟩
  rw [hchecksum, hsum]

theorem Reported.pool (h : Reported c items st) (hcounted : Counted c' c'.main.lat items st)
    (hcompleted : c.pool.shared.completed ≤ c'.pool.shared.completed)
    (hsink : c'.sink = c.sink) (hdropped : c'.dropped = c.dropped) (hmain : c'.main = c.main) :
    Reported c' items st where
  counted := hcounted
  idle := by
    rw [hmain, hsink]
    exact h.idle
  fact := by
    rw [hmain]
    exact h.fact.mono hcompleted hdropped

theorem Reported.body (hd : Driven c) (h : Reported c items st) (htotal : g.total < 2 ^ 62)
    {i : Fin g.workers} {b : Body} {m : ℕ} {spurious : Bool} (hb : c.bodies i = some b)
    (hs : stepBody i m spurious c b = some c') : ∃ items' st', Reported c' items' st' := by
  have hframe := stepBody_frame hb hs
  have htail := hd.tail_le h.counted
  obtain ⟨items', st', hcounted⟩ := h.counted.body (by omega) hb hs
  refine ⟨items', st', ?_, ?_, ?_⟩
  · rw [hframe.main]
    exact hcounted
  · rw [hframe.main, hframe.collector]
    exact h.idle
  · rw [hframe.main]
    rcases h.fact.awaited with hm | hm | ha
    · rw [hm]
      trivial
    · rw [hm]
      trivial
    · cases hb.symm.trans ((hd.awaited ha).1 i)

theorem Counted.collects {lat lat' : Multiset ℕ} {items' : List ℕ} {st' : User g → Option SinkStage}
    (h : Counted c lat items st)
    {k : Config (User g) (LockFreeQueue.Shared ℕ) (LockFreeQueue.Local ℕ)} {m : Main}
    (hrel : LockFreeQueue.Relates sinkRing k.shared k.locals items' st')
    (hothers : ∀ i, st' (some i) = st (some i) ∧ k.locals (some i) = c.sink.locals (some i))
    (htail : k.shared.tail = c.sink.shared.tail)
    (hpopping : ∀ x, k.locals none = some x → x.pushes = false)
    (htaken : (k.shared.leftQueue : Multiset ℕ) = lat' + LockFreeQueue.removed (st' none)) :
    Counted { c with sink := k, main := m } lat' items' st' where
  processed := h.processed
  checksum := h.checksum
  relates := hrel
  pushing i x hx := h.pushing i x ((hothers i).2 ▸ hx)
  pushed i seq hseq := by
    rw [(hothers i).2]
    exact h.pushed i seq hseq
  popping := hpopping
  put := by
    simp only [(hothers _).1]
    rw [htail]
    exact h.put
  taken := htaken

theorem Reported.pop_called (h : Reported c items st) {r : PipeResult} (hm : c.main = .drain r)
    {k : Config (User g) (LockFreeQueue.Shared ℕ) (LockFreeQueue.Local ℕ)}
    (hk : (sink g).next c.sink (.call none .pop) = some k) :
    ∃ st', Reported { c with sink := k } items st' := by
  obtain ⟨hl, -, rfl⟩ := Object.next_call hk
  obtain ⟨hst, hrel⟩ : st none = none ∧ LockFreeQueue.Relates sinkRing c.sink.shared
      (Function.update c.sink.locals none (some ((LockFreeQueue.object .u64 sinkRing).start .pop))) items
      (Function.update st none (some (.called .pop))) :=
    (LockFreeQueue.simulation LockFreeQueue.Word.u64_compares two_le_sinkRing).call
      h.counted.relates hl rfl
  have hfact := h.fact
  rw [hm] at hfact
  refine ⟨_, h.counted.collects hrel (fun i => ⟨rfl, rfl⟩) rfl ?_ ?_, ?_, ?_⟩
  · intro x hx
    simp only [Function.update_self, Option.some.injEq] at hx
    subst hx
    rfl
  · rw [h.counted.taken, hst, Function.update_self]
    rfl
  · intro hdrains
    rw [hm] at hdrains
    cases hdrains
  · rw [hm]
    refine ⟨hfact.1, hfact.2.1, ?_⟩
    rw [Function.update_self]
    intro he
    cases he

theorem Reported.pop_next (hd : Driven c) (h : Reported c items st) (htotal : g.total < 2 ^ 62)
    {r : PipeResult} (hm : c.main = .drain r) {x : LockFreeQueue.Local ℕ} {spurious : Bool}
    (hx : c.sink.locals none = some x) (hr : LockFreeQueue.result x = none)
    {k : Config (User g) (LockFreeQueue.Shared ℕ) (LockFreeQueue.Local ℕ)}
    (hk : (sink g).next c.sink (.step none spurious) = some k) :
    ∃ items' st', Reported { c with sink := k } items' st' := by
  obtain ⟨x', hl, -, rfl⟩ := Object.next_step hk
  obtain rfl := Option.some.inj (hx.symm.trans hl)
  have hpops := h.counted.popping x hx
  have htail := hd.tail_le h.counted
  have hfact := h.fact
  rw [hm] at hfact
  obtain ⟨ha, htotals, -⟩ := hfact
  obtain ⟨items', st', hrel, hothers, hput, htaken, hnothing⟩ :=
    h.counted.relates.pop_step LockFreeQueue.Word.u64_compares two_le_sinkRing spurious hx hpops hr
      (fitting (by omega))
  have hkind := (LockFreeQueue.step_pops (w := .u64) (r := sinkRing) (s := c.sink.shared)
    spurious hpops hr).2.2
  refine ⟨items', st', h.counted.collects hrel
    (fun i => ⟨hothers _ (Option.some_ne_none i), rfl⟩) hput ?_ ?_, ?_, ?_⟩
  · intro y hy
    simp only [Function.update_self, Option.some.injEq] at hy
    subst hy
    exact hkind
  · have htaken' := h.counted.taken
    refine add_right_cancel (b := LockFreeQueue.removed (st none)) ?_
    show ((LockFreeQueue.step .u64 sinkRing spurious c.sink.shared x).1.leftQueue : Multiset ℕ) + _ = _
    rw [htaken, htaken', add_right_comm]
  · intro hdrains
    rw [hm] at hdrains
    cases hdrains
  · rw [hm]
    refine ⟨ha, htotals, fun he => ?_⟩
    rcases hnothing he with hnil | ⟨u, hu⟩
    · exact hnil
    · -- what has inserted its item is a push, and no task is running
      obtain ⟨y, hy, hpushes⟩ := h.counted.relates.pushes_of_put hu
      cases u with
      | none =>
        obtain rfl := Option.some.inj (hx.symm.trans hy)
        rw [hpops] at hpushes
        cases hpushes
      | some i =>
        obtain ⟨-, seq, hseq⟩ := h.counted.pushing i y hy
        cases hseq.symm.trans ((hd.awaited ha).1 i)

theorem Reported.pop_returned (h : Reported c items st) {r : PipeResult} (hm : c.main = .drain r)
    {x : LockFreeQueue.Local ℕ} {o : Outcome ℕ} (hx : c.sink.locals none = some x)
    (hr : LockFreeQueue.result x = some o)
    {k : Config (User g) (LockFreeQueue.Shared ℕ) (LockFreeQueue.Local ℕ)}
    (hk : (sink g).next c.sink (.ret none) = some k) :
    ∃ st', Reported { c with
      sink := k
      main :=
        match o with
        | .got v => .drain { r with lat := r.lat ++ [v] }
        | _ => .shutdown { r with lat := r.lat.mergeSort (· ≤ ·) } } items st' := by
  have hpops := h.counted.popping x hx
  obtain ⟨x', _, hl, _, rfl⟩ := Object.next_ret hk
  obtain ⟨hst, hrel⟩ := (LockFreeQueue.simulation LockFreeQueue.Word.u64_compares
    two_le_sinkRing).ret h.counted.relates hx hr
  have hfact := h.fact
  rw [hm] at hfact
  obtain ⟨ha, htotals, hnothing⟩ := hfact
  have htaken := h.counted.taken
  rw [hst, hm] at htaken
  have hidle : ∀ y, Function.update c.sink.locals none none none = some y → y.pushes = false := by
    intro y hy
    rw [Function.update_self] at hy
    cases hy
  rw [LockFreeQueue.eq_done hr] at hpops
  cases o with
  | got v =>
    refine ⟨_, h.counted.collects hrel (fun i => ⟨rfl, rfl⟩) rfl hidle ?_, ?_, ?_⟩
    · rw [htaken, Function.update_self]
      show ((r.lat : List ℕ) : Multiset ℕ) + {v} = ((r.lat ++ [v] : List ℕ) : Multiset ℕ) + 0
      rw [add_zero, ← Multiset.coe_add, Multiset.coe_singleton]
    · intro hdrains
      cases hdrains
    · refine ⟨ha, ⟨htotals.total, htotals.processed, htotals.checksum, htotals.expect_checksum,
        htotals.dropped⟩, fun he => ?_⟩
      rw [Function.update_self] at he
      cases he
  | nothing =>
    refine ⟨_, h.counted.collects hrel (fun i => ⟨rfl, rfl⟩) rfl hidle ?_, ?_, ?_⟩
    · rw [htaken, Function.update_self]
      show ((r.lat : List ℕ) : Multiset ℕ) + 0 =
        ((r.lat.mergeSort (· ≤ ·) : List ℕ) : Multiset ℕ) + 0
      rw [Multiset.coe_eq_coe.mpr (List.mergeSort_perm r.lat _)]
    · intro _
      rfl
    · exact ⟨ha, ⟨htotals.total, htotals.processed, htotals.checksum, htotals.expect_checksum,
        htotals.dropped⟩, hnothing hst, List.pairwise_mergeSort' (· ≤ ·) r.lat⟩
  | put | refused => cases hpops

theorem Reported.main (h : Reported c items st) {m : Main} {d : ThreadPool.State ℕ g.workers (Caller g)}
    (hexec : d.shared.executed = c.pool.shared.executed)
    (hcompleted : d.shared.completed = c.pool.shared.completed) (hidle : c.sink.locals none = none)
    (hlat : m.lat = c.main.lat)
    (hfact : MainFact c items (st none) m) : Reported { c with pool := d, main := m } items st where
  counted := by
    have hcounted := h.counted
    rw [← hlat] at hcounted
    exact hcounted.congr hexec rfl rfl rfl rfl rfl
  idle _ := hidle
  fact := hfact.mono hcompleted.ge rfl

theorem Reported.stepMain (hd : Driven c) (h : Reported c items st) (htotal : g.total < 2 ^ 62)
    {spurious : Bool} (hn : stepMain spurious c c.main = some c') :
    ∃ items' st', Reported c' items' st' := by
  have hfact := h.fact
  have hlast := h.last hd
  have hidle := h.idle
  have hmain := fun m d => h.main (m := m) (d := d)
  generalize hm : c.main = m at hn hfact hlast hidle hmain
  cases m with
  | join =>
    simp only [PipelineDemo.stepMain] at hn
    split at hn <;> cases hn
    exact ⟨items, st, hmain _ c.pool rfl rfl (hidle rfl) rfl trivial⟩
  | await =>
    simp only [PipelineDemo.stepMain] at hn
    split at hn <;> cases hn
    · exact ⟨items, st, h⟩
    next hawaited =>
      exact ⟨items, st, hmain _ c.pool rfl rfl (hidle rfl) rfl (Nat.le_of_not_lt hawaited)⟩
  | loadProcessed =>
    cases hn
    obtain ⟨hprocessed, -, -⟩ := hlast hfact rfl
    exact ⟨items, st, hmain _ c.pool rfl rfl (hidle rfl) rfl ⟨hfact, hprocessed⟩⟩
  | loadChecksum processed =>
    cases hn
    obtain ⟨-, hchecksum, -⟩ := hlast hfact.1 rfl
    exact ⟨items, st, hmain _ c.pool rfl rfl (hidle rfl) rfl ⟨hfact.1, hfact.2, hchecksum⟩⟩
  | loadDropped processed checksum =>
    cases hn
    obtain ⟨ha, hprocessed, hchecksum⟩ := hfact
    refine ⟨items, st, hmain _ c.pool rfl rfl (hidle rfl) rfl
      ⟨ha, ⟨rfl, hprocessed, hchecksum, rfl, rfl⟩, fun he => ?_⟩⟩
    rw [h.counted.relates.told.idle (hidle rfl)] at he
    cases he
  | drain r =>
    simp only [PipelineDemo.stepMain] at hn
    cases hx : c.sink.locals none with
    | none =>
      rw [hx] at hn
      obtain ⟨k, hk, rfl⟩ := Option.map_eq_some_iff.mp hn
      exact ⟨items, h.pop_called hm hk⟩
    | some x =>
      simp only [hx] at hn
      cases hr : LockFreeQueue.result x with
      | none =>
        rw [hr] at hn
        obtain ⟨k, hk, rfl⟩ := Option.map_eq_some_iff.mp hn
        exact h.pop_next hd htotal hm hx hr hk
      | some o =>
        rw [hr] at hn
        obtain ⟨k, hk, rfl⟩ := Option.map_eq_some_iff.mp hn
        exact ⟨items, h.pop_returned hm hx hr hk⟩
  | shutdown r =>
    obtain ⟨d, hcall, rfl⟩ := Option.map_eq_some_iff.mp hn
    obtain ⟨-, rfl⟩ := next_call (show ThreadPool.next .block c.pool _ = some d from hcall)
    exact ⟨items, st, hmain _ _ rfl rfl (hidle rfl) rfl hfact⟩
  | stopping r =>
    obtain ⟨d, hret, rfl⟩ := Option.map_eq_some_iff.mp hn
    obtain ⟨-, -, rfl⟩ := next_ret (show ThreadPool.next .block c.pool _ = some d from hret)
    exact ⟨items, st, hmain _ _ rfl rfl (hidle rfl) rfl hfact⟩
  | done => cases hn

theorem Reported.next (hd : Driven c) (h : Reported c items st) (htotal : g.total < 2 ^ 62)
    {a : Action g} (hn : (system g).next c a = some c') : ∃ items' st', Reported c' items' st' := by
  -- the callers of the pool and its sleepers
  have hpool : ∀ d : ThreadPool.State ℕ g.workers (Caller g),
      d.shared.executed = c.pool.shared.executed → d.shared.completed = c.pool.shared.completed →
      ∀ sent, ∃ items' st', Reported { c with pool := d, sent := sent } items' st' :=
    fun d hexec hcompleted sent => ⟨items, st,
      h.pool (h.counted.congr hexec rfl rfl rfl rfl rfl) hcompleted.ge rfl rfl rfl⟩
  cases a with
  | submit p =>
    simp only [system, PipelineDemo.next] at hn
    split at hn
    · obtain ⟨d, hcall, rfl⟩ := Option.map_eq_some_iff.mp hn
      obtain ⟨-, he⟩ := next_call (show ThreadPool.next .block c.pool _ = some d from hcall)
      exact hpool d (by rw [he]) (by rw [he]) _
    · cases hn
  | submitted p =>
    simp only [system, PipelineDemo.next] at hn
    split at hn
    · obtain ⟨d, hret, rfl⟩ := Option.map_eq_some_iff.mp hn
      obtain ⟨-, -, he⟩ := next_ret (show ThreadPool.next .block c.pool _ = some d from hret)
      exact hpool d (by rw [he]) (by rw [he]) _
    · cases hn
  | worker i wakes =>
    obtain ⟨b, hb, hn⟩ := Option.bind_eq_some_iff.mp hn
    obtain ⟨d, hd', rfl⟩ := Option.map_eq_some_iff.mp hn
    obtain ⟨s, y, l, hs, -, rfl⟩ :=
      next_worker (show ThreadPool.next .block c.pool _ = some d from hd')
    exact ⟨items, st, h.pool (h.counted.turn hd.running (turn_of_step hs hb))
      (stepWorker_completed hs) rfl rfl rfl⟩
  | caller t wakes =>
    obtain ⟨d, hd', rfl⟩ := Option.map_eq_some_iff.mp hn
    obtain ⟨x, s, y, w, -, hs, -, rfl⟩ :=
      next_client (show ThreadPool.next .block c.pool _ = some d from hd')
    exact hpool _ (stepClient_executed hs).2 (stepClient_completed hs) _
  | spuriousWorker i =>
    obtain ⟨d, hd', rfl⟩ := Option.map_eq_some_iff.mp hn
    obtain ⟨-, he⟩ := next_spuriousWorker (show ThreadPool.next .block c.pool _ = some d from hd')
    exact hpool d (by rw [he]) (by rw [he]) _
  | spuriousCaller t =>
    obtain ⟨d, hd', rfl⟩ := Option.map_eq_some_iff.mp hn
    obtain ⟨-, he⟩ := next_spuriousClient (show ThreadPool.next .block c.pool _ = some d from hd')
    exact hpool d (by rw [he]) (by rw [he]) _
  | body i m spurious =>
    obtain ⟨b, hb, hn⟩ := Option.bind_eq_some_iff.mp hn
    exact h.body hd htotal hb hn
  | main spurious => exact h.stepMain hd htotal hn

end Steps

theorem hands_initial (f : Body → ℕ) : hands f (initial g).bodies = 0 :=
  hands_eq_zero_of_hand fun _ => rfl

theorem reported_initial : Reported (initial g) [] fun _ => none where
  counted :=
    { processed := by
        rw [hands_initial]
        rfl
      checksum := by
        rw [hands_initial]
        rfl
      relates := ⟨LockFreeQueue.inv_init sinkRing, LockFreeQueue.accounted_init sinkRing, rfl,
        fun _ => .none⟩
      pushing := fun _ _ h => by cases h
      pushed := fun _ _ h => by cases h
      popping := fun _ h => by cases h
      put := by
        have hsettled : ∑ i, settled ((initial g).bodies i) none = 0 :=
          Finset.sum_eq_zero fun _ _ => rfl
        rw [hsettled]
        rfl
      taken := rfl }
  idle _ := rfl
  fact := trivial

/-! ## The result -/

/-- `total * (total - 1)` wraps around before it is halved. -/
theorem Args.expect_checksum_toNat (g : Args) : g.expect_checksum.toNat = g.sum % 2 ^ 63 := by
  have hmul : BitVec.ofNat 64 g.total * (BitVec.ofNat 64 g.total - 1) =
      BitVec.ofNat 64 (g.total * (g.total - 1)) := by
    cases g.total with
    | zero =>
      rw [Nat.zero_mul]
      exact BitVec.zero_mul
    | succ n =>
      have hsub : BitVec.ofNat 64 (n + 1) - 1 = BitVec.ofNat 64 n := by
        rw [BitVec.ofNat_add]
        exact BitVec.add_sub_cancel _ _
      rw [hsub, ← BitVec.ofNat_mul, Nat.add_sub_cancel]
  obtain ⟨m, hm⟩ := (Nat.even_mul_pred_self g.total)
  unfold Args.expect_checksum Args.sum
  rw [hmul, hm, BitVec.toNat_udiv, BitVec.toNat_ofNat]
  show (m + m) % 2 ^ 64 / 2 = (m + m) / 2 % 2 ^ 63
  omega

/-- What `run_pipeline` has come to when it returns `r`. -/
structure Outcomes (g : Args) (c : State g) (r : PipeResult) : Prop where
  total : r.total = g.total
  processed : r.processed = r.total
  executed : ((c.pool.shared.executed.map Job.task : List ℕ) : Multiset ℕ) = Multiset.range r.total
  samples : r.lat.length + r.dropped = r.total
  sorted : r.lat.Pairwise (· ≤ ·)
  collected : (r.lat : Multiset ℕ) = c.sink.shared.pushClaims.map Prod.snd
  -- beyond 63 bits the expected checksum has lost a bit that the checksum still has
  checksum : r.checksum = r.expect_checksum ↔ g.sum % 2 ^ 64 < 2 ^ 63

/-- **The result of the demo**: for all arguments in the range of `int` and every run, when
`run_pipeline` returns, each task has been executed once, the latencies collected and those counted as
dropped are as many as the tasks, and the checksums agree as long as their sum has no bit 63. -/
theorem run_pipeline_result (g : Args) (hproducers : g.producers < 2 ^ 31) (hper : g.per < 2 ^ 31)
    (c : State g) (h : (system g).Reachable (initial g) c) (r : PipeResult) (hr : c.main = .done r) :
    Outcomes g c r := by
  have htotal : g.total < 2 ^ 62 := by
    have hmul := Nat.mul_lt_mul'' hproducers hper
    rwa [← pow_add] at hmul
  have hinv := System.Reachable.invariant
    (I := fun c => Driven c ∧ ∃ items st, Reported c items st) h
    ⟨driven_initial, _, _, reported_initial⟩ fun c a c' hc hn => by
      obtain ⟨hd, items, st, hrep⟩ := hc
      exact ⟨hd.next hn, hrep.next hd htotal hn⟩
  obtain ⟨hd, items, st, hrep⟩ := hinv
  have hfact := hrep.fact
  have hjoined : c.main.joined = true := by
    rw [hr]
    rfl
  rw [hr] at hfact
  obtain ⟨ha, htotals, hitems, hsorted⟩ := hfact
  obtain ⟨-, -, hput⟩ := hrep.last hd ha hjoined
  obtain ⟨-, -, hexec⟩ := hd.awaited ha
  have hcounted := hrep.counted
  have hidle : st none = none := by
    refine hcounted.relates.told.idle (hrep.idle ?_)
    rw [hr]
    rfl
  -- the sink is empty, so what was pushed has been collected
  have hleft := c.sink.shared.leftQueue_append
  rw [← hcounted.relates.items_eq, hitems, List.append_nil] at hleft
  have hcollected : (r.lat : Multiset ℕ) = c.sink.shared.pushClaims.map Prod.snd := by
    have htaken := hcounted.taken
    rw [hr, hidle, hleft] at htaken
    exact (htaken.trans (add_zero _)).symm
  refine ⟨htotals.total, htotals.processed.trans htotals.total.symm, ?_, ?_, hsorted, hcollected, ?_⟩
  · rw [htotals.total, ← hd.accepted_joined hjoined, ← Multiset.map_coe, hexec, Multiset.map_coe]
  · have hlen := congrArg Multiset.card hcollected
    rw [Multiset.coe_card, Multiset.coe_card, List.length_map,
      hcounted.relates.inv.ordered.length_pushClaims] at hlen
    rw [hlen, htotals.dropped, htotals.total]
    exact hput
  · rw [htotals.checksum, htotals.expect_checksum, ← BitVec.toNat_inj, BitVec.toNat_ofNat,
      g.expect_checksum_toNat]
    omega

/-- The whole run of `one`; the clock says 5. -/
def runOne : List (Action one) :=
  List.flatten [submitOne, [.submitted 0], List.replicate 7 (.worker 0 none),
    List.replicate 9 (.body 0 5 false), List.replicate 5 (.worker 0 none),
    List.replicate 17 (.main false), List.replicate 5 (.caller none none),
    List.replicate 4 (.worker 0 none), List.replicate 4 (.caller none none), [.main false]]

/-- The result, if `run_pipeline` has returned. -/
def Main.returned : Main → Option (ℕ × List ℕ)
  | .done r => some (r.processed, r.lat)
  | _ => none

theorem run_pipeline_result_runOne : ∃ (c : State one) (r : PipeResult),
    c.main = .done r ∧ r.processed = 1 ∧ r.lat = [5] ∧ Outcomes one c r := by
  have hrun : ((system one).run (initial one) runOne).bind (fun c => c.main.returned) =
      some (1, [5]) := by decide +kernel
  obtain ⟨c, hc, hres⟩ := Option.bind_eq_some_iff.mp hrun
  cases hm : c.main with
  | done r =>
    rw [hm] at hres
    obtain ⟨hprocessed, hlat⟩ := Prod.mk.inj (Option.some.inj hres)
    exact ⟨c, r, hm, hprocessed, hlat, run_pipeline_result one (by decide) (by decide) c
      (System.reachable_of_run hc) r hm⟩
  | _ =>
    rw [hm] at hres
    cases hres

end LowLatency.PipelineDemo
