import LowLatency.LockFreeQueue.Linearizable
import LowLatency.PipelineDemo.Submission

/-!
# What the tasks count

A worker at `execute` runs the task that it has taken, and a task that runs belongs to such a worker
(`Running`). `Counted` says what the counters and the sink hold in terms of the tasks executed and of
how far the running ones have come. To the demo the sink is the list of `LockFreeQueue.spec`, whose
value and stages `Counted` names.
-/

namespace LowLatency.PipelineDemo

open Concurrency ThreadPool

namespace Body

def seq : Body → ℕ
  | .processedAdd seq | .checksumAdd seq | .latency seq | .push seq | .droppedAdd seq
  | .returned seq => seq

/-- What the task has added to `processed`. -/
def processed : Body → ℕ
  | .processedAdd _ => 0
  | _ => 1

/-- What the task has added to `checksum`. -/
def summed : Body → ℕ
  | .processedAdd _ | .checksumAdd _ => 0
  | b => b.seq

end Body

/-- The stage of an operation on the sink. -/
abbrev SinkStage := Stage (LockFreeQueue.Op ℕ) (Outcome ℕ)

/-- The latency of the task is in the sink or counted as dropped. -/
def settled : Option Body → Option SinkStage → ℕ
  | some (.push _), o => LockFreeQueue.inserted o
  | some (.returned _), _ => 1
  | _, _ => 0

variable {g : Args}

/-- A worker at `execute` runs the task that it has taken. -/
structure Running (w : Fin g.workers → Worker ℕ) (bodies : Fin g.workers → Option Body) : Prop where
  task : ∀ i b, bodies i = some b → ∃ j, w i = .execute j ∧ b.seq = j.task
  body : ∀ i j, w i = .execute j → ∃ b, bodies i = some b

/-- What the counters and the sink hold; `lat` is what the main thread has collected. -/
structure Counted (c : State g) (lat : Multiset ℕ) (items : List ℕ)
    (st : User g → Option SinkStage) : Prop where
  processed : c.processed = c.pool.shared.executed.length + hands Body.processed c.bodies
  checksum : c.checksum = BitVec.ofNat 64
    ((c.pool.shared.executed.map Job.task).sum + hands Body.summed c.bodies)
  relates : LockFreeQueue.Relates sinkRing c.sink.shared c.sink.locals items st
  pushing : ∀ i x, c.sink.locals (some i) = some x →
    x.pushes = true ∧ ∃ seq, c.bodies i = some (.push seq)
  pushed : ∀ i seq, c.bodies i = some (.push seq) → ∃ x, c.sink.locals (some i) = some x
  popping : ∀ x, c.sink.locals none = some x → x.pushes = false
  put : c.sink.shared.tail + c.dropped =
    c.pool.shared.executed.length + ∑ i, settled (c.bodies i) (st (some i))
  taken : (c.sink.shared.leftQueue : Multiset ℕ) = lat + LockFreeQueue.removed (st none)

section Running

variable {s s' : Shared ℕ g.workers (Caller g)} {w w' : Fin g.workers → Worker ℕ}
  {bodies : Fin g.workers → Option Body} {b' : Option Body} {i : Fin g.workers} {y : Worker ℕ}

theorem Running.woken (h : Running w bodies) (hw : Woken Worker.sleeping Worker.wake w w') :
    Running w' bodies where
  task i b hb := by
    obtain ⟨j, hj, hseq⟩ := h.task i b hb
    rcases hw i with he | ⟨hs, _⟩
    · exact ⟨j, he.trans hj, hseq⟩
    · rw [hj] at hs
      cases hs
  body i j hj := by
    rcases hw i with he | ⟨_, he⟩
    · exact h.body i j (he ▸ hj)
    · cases he.symm.trans hj

/-- What a worker's instruction does to its task and to the list of executed tasks. -/
inductive Turn (s s' : Shared ℕ g.workers (Caller g)) : Worker ℕ → Worker ℕ → Option Body →
    Option Body → Prop
  | begins (j : Job ℕ) (b : Option Body) : s'.executed = s.executed →
    Turn s s' (.busyAdd j) (.execute j) b (some (.processedAdd j.task))
  | ends (j : Job ℕ) (seq : ℕ) : s'.executed = s.executed ++ [j] →
    Turn s s' (.execute j) (.busySub j) (some (.returned seq)) none
  | stays (x y : Worker ℕ) (b : Option Body) : (∀ j, x ≠ .execute j) → (∀ j, y ≠ .execute j) →
    s'.executed = s.executed → Turn s s' x y b b

theorem turn_of_step {x : Worker ℕ} {b : Option Body} (hs : stepWorker i s x = some (s', y))
    (hb : bodyAfter x b = some b') : Turn s s' x y b b' := by
  cases x with
  | busyAdd j =>
    cases hs
    cases hb
    exact .begins j b rfl
  | execute j =>
    cases hs
    cases b with
    | none => cases hb
    | some body =>
      cases body with
      | returned seq =>
        cases hb
        exact .ends j seq rfl
      | _ => cases hb
  | lock | woken =>
    obtain ⟨s₁, hlock, he⟩ := Option.map_eq_some_iff.mp hs
    cases he
    obtain ⟨_, rfl⟩ := lock_eq_some hlock
    cases hb
    exact .stays _ _ _ (fun j hj => by cases hj) (fun j hj => by cases hj) rfl
  | predicate | exitTest | pop =>
    simp only [stepWorker] at hs
    cases hb
    split at hs <;> cases hs <;>
      exact .stays _ _ _ (fun j hj => by cases hj) (fun j hj => by cases hj) rfl
  | asleep | exited => cases hs
  | _ =>
    cases hs
    cases hb
    exact .stays _ _ _ (fun j hj => by cases hj) (fun j hj => by cases hj) rfl

theorem Running.next (h : Running w bodies) (ht : Turn s s' (w i) y (bodies i) b') :
    Running (Function.update w i y) (Function.update bodies i b') := by
  have hown : ∀ b, b' = some b → ∃ j, y = .execute j ∧ b.seq = j.task := by
    intro b hb
    generalize hx : w i = x at ht
    generalize hbody : bodies i = o at ht
    cases ht with
    | begins j =>
      obtain rfl := Option.some.inj hb
      exact ⟨j, rfl, rfl⟩
    | ends => cases hb
    | stays _ _ _ hnot =>
      obtain ⟨j, hj, _⟩ := h.task i b (hbody.trans hb)
      exact absurd (hx.symm.trans hj) (hnot j)
  have hbody : ∀ j, y = .execute j → ∃ b, b' = some b := by
    intro j hj
    generalize w i = x at ht
    generalize bodies i = o at ht
    cases ht with
    | begins => exact ⟨_, rfl⟩
    | ends => cases hj
    | stays _ _ _ _ hnot => exact absurd hj (hnot j)
  constructor
  · intro k b hb
    by_cases hk : k = i
    · subst hk
      rw [Function.update_self] at hb ⊢
      exact hown b hb
    · rw [Function.update_of_ne hk] at hb ⊢
      exact h.task k b hb
  · intro k j hj
    by_cases hk : k = i
    · subst hk
      rw [Function.update_self] at hj ⊢
      exact hbody j hj
    · rw [Function.update_of_ne hk] at hj ⊢
      exact h.body k j hj

theorem Running.body_next (h : Running w bodies) {b b' : Body} (hb : bodies i = some b)
    (hseq : b'.seq = b.seq) : Running w (Function.update bodies i (some b')) := by
  obtain ⟨j, hj, hjseq⟩ := h.task i b hb
  constructor
  · intro k b'' hk
    rcases update_eq_some hk with ⟨rfl, ho⟩ | ⟨_, hk⟩
    · obtain rfl := Option.some.inj ho
      exact ⟨j, hj, hseq.trans hjseq⟩
    · exact h.task k b'' hk
  · intro k j' hj'
    by_cases hk : k = i
    · subst hk
      exact ⟨b', Function.update_self ..⟩
    · rw [Function.update_of_ne hk]
      exact h.body k j' hj'

end Running

/-! ## The counters -/

section Counted

variable {c c' : State g} {lat : Multiset ℕ} {items items' : List ℕ}
  {st st' : User g → Option SinkStage} {i : Fin g.workers} {b : Bool}

theorem Counted.congr (h : Counted c lat items st)
    (hexec : c'.pool.shared.executed = c.pool.shared.executed) (hbodies : c'.bodies = c.bodies)
    (hsink : c'.sink = c.sink) (hprocessed : c'.processed = c.processed)
    (hchecksum : c'.checksum = c.checksum) (hdropped : c'.dropped = c.dropped) :
    Counted c' lat items st := by
  obtain ⟨h1, h2, h3, h4, h5, h6, h7, h8⟩ := h
  constructor <;> simp only [hexec, hbodies, hsink, hprocessed, hchecksum, hdropped] <;> assumption

/-- The change of one task, which comes to `o`. -/
structure Moves (c c' : State g) (i : Fin g.workers) (o : Option Body)
    (st st' : User g → Option SinkStage) : Prop where
  bodies : c'.bodies = Function.update c.bodies i o
  processed : c'.processed + (c.pool.shared.executed.length + hand Body.processed (c.bodies i)) =
    c.processed + (c'.pool.shared.executed.length + hand Body.processed o)
  checksum : ∃ d, c'.checksum = c.checksum + BitVec.ofNat 64 d ∧
    (c'.pool.shared.executed.map Job.task).sum + hand Body.summed o =
      (c.pool.shared.executed.map Job.task).sum + hand Body.summed (c.bodies i) + d
  put : c'.sink.shared.tail + c'.dropped +
      (c.pool.shared.executed.length + settled (c.bodies i) (st (some i))) =
    c.sink.shared.tail + c.dropped + (c'.pool.shared.executed.length + settled o (st' (some i)))
  others : ∀ u, u ≠ some i → st' u = st u ∧ c'.sink.locals u = c.sink.locals u
  pushing : ∀ x, c'.sink.locals (some i) = some x → x.pushes = true ∧ ∃ seq, o = some (.push seq)
  pushed : ∀ seq, o = some (.push seq) → ∃ x, c'.sink.locals (some i) = some x
  taken : c'.sink.shared.leftQueue = c.sink.shared.leftQueue

theorem Counted.moves (h : Counted c lat items st) {o : Option Body} (hm : Moves c c' i o st st')
    (hrel : LockFreeQueue.Relates sinkRing c'.sink.shared c'.sink.locals items' st') :
    Counted c' lat items' st' := by
  have hsome : ∀ {k : Fin g.workers}, k ≠ i → (some k : User g) ≠ some i :=
    fun hk he => hk (Option.some.inj he)
  have hbody : ∀ {k}, k ≠ i → c'.bodies k = c.bodies k := fun hk => by
    rw [hm.bodies, Function.update_of_ne hk]
  have hself : c'.bodies i = o := by rw [hm.bodies, Function.update_self]
  have hproc := hands_update Body.processed c.bodies i o
  have hsum := hands_update Body.summed c.bodies i o
  rw [← hm.bodies] at hproc hsum
  constructor
  · have hold := h.processed
    have hmove := hm.processed
    omega
  · obtain ⟨d, hd, hadd⟩ := hm.checksum
    rw [hd, h.checksum, ← BitVec.ofNat_add]
    congr 1
    omega
  · exact hrel
  · intro k x hx
    by_cases hk : k = i
    · subst hk
      rw [hself]
      exact hm.pushing x hx
    · rw [(hm.others _ (hsome hk)).2] at hx
      rw [hbody hk]
      exact h.pushing k x hx
  · intro k seq hseq
    by_cases hk : k = i
    · subst hk
      exact hm.pushed seq (hself ▸ hseq)
    · rw [(hm.others _ (hsome hk)).2]
      rw [hbody hk] at hseq
      exact h.pushed k seq hseq
  · intro x hx
    rw [(hm.others none (Option.some_ne_none i).symm).2] at hx
    exact h.popping x hx
  · have hex := sum_exchange (f := fun k => settled (c.bodies k) (st (some k)))
      (g := fun k => settled (c'.bodies k) (st' (some k))) i fun k hk => by
        rw [hbody hk, (hm.others _ (hsome hk)).1]
    rw [hself] at hex
    have hold := h.put
    have hmove := hm.put
    omega
  · rw [hm.taken, (hm.others none (Option.some_ne_none i).symm).1]
    exact h.taken

theorem Counted.turn (h : Counted c lat items st) (hrun : Running c.pool.workers c.bodies)
    {d : ThreadPool.State ℕ g.workers (Caller g)} {y : Worker ℕ} {b' : Option Body}
    (ht : Turn c.pool.shared d.shared (c.pool.workers i) y (c.bodies i) b') :
    Counted { c with pool := d, bodies := Function.update c.bodies i b' } lat items st := by
  refine h.moves (?_ : Moves c _ i b' st st) h.relates
  have htask := hrun.task i
  have hpushing := h.pushing i
  have hpushed := h.pushed i
  generalize hx : c.pool.workers i = x at ht htask
  generalize hb : c.bodies i = o at ht htask hpushing hpushed
  cases ht with
  | begins j _ hexec =>
    cases o with
    | some b =>
      obtain ⟨_, hj, _⟩ := htask b rfl
      cases hj
    | none =>
      refine ⟨rfl, ?_, ⟨0, (BitVec.add_zero _).symm, ?_⟩, ?_, fun u _ => ⟨rfl, rfl⟩, ?_, ?_, rfl⟩
      · simp only [hexec, hb]
        rfl
      · simp only [hexec, hb]
        rfl
      · simp only [hexec, hb]
        rfl
      · intro z hz
        obtain ⟨_, seq, hseq⟩ := hpushing z hz
        cases hseq
      · intro seq hseq
        cases hseq
  | ends j seq hexec =>
    obtain ⟨j', hj', hseq⟩ := htask _ rfl
    cases hj'
    have hseq : seq = j.task := hseq
    refine ⟨rfl, ?_, ⟨0, (BitVec.add_zero _).symm, ?_⟩, ?_, fun u _ => ⟨rfl, rfl⟩, ?_, ?_, rfl⟩
    · simp only [hexec, hb, List.length_append, List.length_singleton]
      rfl
    · simp only [hexec, hb, List.map_append, List.sum_append]
      show _ + (j.task + 0) + 0 = _ + seq + 0
      omega
    · simp only [hexec, hb, List.length_append, List.length_singleton]
      rfl
    · intro z hz
      obtain ⟨_, seq', hseq'⟩ := hpushing z hz
      cases hseq'
    · intro seq' hseq'
      cases hseq'
  | stays _ _ _ _ _ hexec =>
    refine ⟨rfl, ?_, ⟨0, (BitVec.add_zero _).symm, ?_⟩, ?_, fun u _ => ⟨rfl, rfl⟩, hpushing, hpushed,
      rfl⟩
    · simp only [hexec, hb]
    · simp only [hexec, hb, Nat.add_zero]
    · simp only [hexec, hb]

/-- The sink's counters fit the signed comparison of its operations. -/
theorem fitting {k : LockFreeQueue.Shared ℕ} {x : LockFreeQueue.Local ℕ} (hle : k.tail < 2 ^ 62) :
    LockFreeQueue.Fitting sinkRing (· < 2 ^ 63) k x := by
  intro m hm
  have hsize : sinkRing.size = 2 ^ 20 := rfl
  show m < 2 ^ 63
  omega

theorem two_le_sinkRing : 2 ≤ sinkRing.size := by
  show 2 ≤ 2 ^ 20
  norm_num

/-- What the rest of the demo sees of an access of a task. -/
structure BodyFrame (c c' : State g) (i : Fin g.workers) (b : Body) : Prop where
  pool : c'.pool = c.pool
  sent : c'.sent = c.sent
  main : c'.main = c.main
  bodies : ∃ b', c'.bodies = Function.update c.bodies i (some b') ∧ b'.seq = b.seq
  collector : c'.sink.locals none = c.sink.locals none

theorem stepBody_frame {b : Body} {m : ℕ} {spurious : Bool} (hb : c.bodies i = some b)
    (hs : stepBody i m spurious c b = some c') : BodyFrame c c' i b := by
  cases b with
  | processedAdd | checksumAdd | droppedAdd =>
    cases hs
    exact ⟨rfl, rfl, rfl, ⟨_, rfl, rfl⟩, rfl⟩
  | latency seq =>
    obtain ⟨k, hk, rfl⟩ := Option.map_eq_some_iff.mp hs
    obtain ⟨-, -, rfl⟩ := Object.next_call hk
    exact ⟨rfl, rfl, rfl, ⟨_, rfl, rfl⟩, rfl⟩
  | push seq =>
    simp only [stepBody] at hs
    split at hs
    · obtain ⟨k, hk, rfl⟩ := Option.map_eq_some_iff.mp hs
      obtain ⟨x, -, -, rfl⟩ := Object.next_step hk
      refine ⟨rfl, rfl, rfl, ⟨.push seq, ?_, rfl⟩, rfl⟩
      rw [← hb, Function.update_eq_self]
    · obtain ⟨k, hk, rfl⟩ := Option.map_eq_some_iff.mp hs
      obtain ⟨x, o, -, -, rfl⟩ := Object.next_ret hk
      refine ⟨rfl, rfl, rfl, ⟨_, rfl, ?_⟩, rfl⟩
      split <;> rfl
  | returned => cases hs

theorem Counted.quiet (h : Counted c lat items st) {b b' : Body} (hb : c.bodies i = some b)
    (hpush : ∀ seq, b ≠ .push seq) (hpush' : ∀ seq, b' ≠ .push seq) {p : ℕ} {k : SizeT} {d : ℕ}
    (hp : p + b.processed = c.processed + b'.processed)
    (hk : ∃ e, k = c.checksum + BitVec.ofNat 64 e ∧ b'.summed = b.summed + e)
    (hd : d + settled (some b) (st (some i)) = c.dropped + settled (some b') (st (some i))) :
    Counted { c with
      processed := p
      checksum := k
      dropped := d
      bodies := Function.update c.bodies i (some b') } lat items st := by
  have hidle : ∀ x, c.sink.locals (some i) ≠ some x := by
    intro x hx
    obtain ⟨_, seq, hseq⟩ := h.pushing i x hx
    exact hpush seq (Option.some.inj (hb.symm.trans hseq))
  obtain ⟨e, hk, he⟩ := hk
  refine h.moves (?_ : Moves c _ i (some b') st st) h.relates
  refine ⟨rfl, ?_, ⟨e, hk, ?_⟩, ?_, fun u _ => ⟨rfl, rfl⟩, fun x hx => absurd hx (hidle x), ?_, rfl⟩
  · show p + (c.pool.shared.executed.length + hand Body.processed (c.bodies i)) =
      c.processed + (c.pool.shared.executed.length + b'.processed)
    rw [hb]
    show p + (_ + b.processed) = _
    omega
  · show (c.pool.shared.executed.map Job.task).sum + b'.summed =
      (c.pool.shared.executed.map Job.task).sum + hand Body.summed (c.bodies i) + e
    rw [hb, he, Nat.add_assoc]
    rfl
  · show c.sink.shared.tail + d +
        (c.pool.shared.executed.length + settled (c.bodies i) (st (some i))) =
      c.sink.shared.tail + c.dropped +
        (c.pool.shared.executed.length + settled (some b') (st (some i)))
    rw [hb]
    omega
  · intro seq hseq
    exact absurd (Option.some.inj hseq) (hpush' seq)

theorem Counted.push_called (h : Counted c lat items st) {seq m : ℕ}
    (hb : c.bodies i = some (.latency seq)) (hs : stepBody i m b c (.latency seq) = some c') :
    ∃ st', Counted c' lat items st' := by
  obtain ⟨k, hk, rfl⟩ := Option.map_eq_some_iff.mp hs
  obtain ⟨hl, hm, rfl⟩ := Object.next_call hk
  obtain ⟨hst, hrel⟩ := (LockFreeQueue.simulation LockFreeQueue.Word.u64_compares
    two_le_sinkRing).call h.relates hl hm
  refine ⟨_, h.moves (i := i) (o := some (.push seq)) ?_ hrel⟩
  refine ⟨rfl, ?_, ⟨0, (BitVec.add_zero _).symm, ?_⟩, ?_, ?_, ?_, ?_, rfl⟩
  · simp only [hb]
    rfl
  · simp only [hb]
    rfl
  · simp only [hb, Function.update_self]
    rfl
  · intro u hu
    exact ⟨Function.update_of_ne hu .., Function.update_of_ne hu ..⟩
  · intro x hx
    simp only [Function.update_self, Option.some.injEq] at hx
    subst hx
    exact ⟨rfl, seq, rfl⟩
  · intro _ _
    exact ⟨_, Function.update_self ..⟩

theorem Counted.push_next (h : Counted c lat items st) {seq : ℕ} (hle : c.sink.shared.tail < 2 ^ 62)
    (hb : c.bodies i = some (.push seq)) {x : LockFreeQueue.Local ℕ}
    (hx : c.sink.locals (some i) = some x) (hr : LockFreeQueue.result x = none)
    {k : Config (User g) (LockFreeQueue.Shared ℕ) (LockFreeQueue.Local ℕ)}
    (hk : (sink g).next c.sink (.step (some i) b) = some k) :
    ∃ items' st', Counted { c with sink := k } lat items' st' := by
  obtain ⟨hpushes, -⟩ := h.pushing i x hx
  obtain ⟨x', hl, _, rfl⟩ := Object.next_step hk
  obtain rfl := Option.some.inj (hx.symm.trans hl)
  obtain ⟨items', st', hrel, hothers, hput, htaken⟩ :=
    h.relates.push_step LockFreeQueue.Word.u64_compares two_le_sinkRing b hx hpushes hr (fitting hle)
  have hkind := (LockFreeQueue.step_pushes (w := .u64) (r := sinkRing) (s := c.sink.shared)
    b hpushes hr).2.2
  refine ⟨items', st', h.moves (i := i) (o := some (.push seq)) ?_ hrel⟩
  refine ⟨?_, ?_, ⟨0, (BitVec.add_zero _).symm, ?_⟩, ?_, ?_, ?_, ?_, htaken⟩
  · show c.bodies = _
    rw [← hb, Function.update_eq_self]
  · simp only [hb]
  · simp only [hb, Nat.add_zero]
  · simp only [hb, settled]
    show (LockFreeQueue.step .u64 sinkRing b c.sink.shared x).1.tail + _ + _ = _
    omega
  · intro u hu
    exact ⟨hothers u hu, Function.update_of_ne hu ..⟩
  · intro y hy
    simp only [Function.update_self, Option.some.injEq] at hy
    subst hy
    exact ⟨hkind, seq, rfl⟩
  · intro _ _
    exact ⟨_, Function.update_self ..⟩

theorem Counted.push_returned (h : Counted c lat items st) {seq : ℕ}
    (hb : c.bodies i = some (.push seq)) {x : LockFreeQueue.Local ℕ} {o : Outcome ℕ}
    (hx : c.sink.locals (some i) = some x) (hr : LockFreeQueue.result x = some o)
    {k : Config (User g) (LockFreeQueue.Shared ℕ) (LockFreeQueue.Local ℕ)}
    (hk : (sink g).next c.sink (.ret (some i)) = some k) :
    ∃ st', Counted { c with
      sink := k
      bodies := Function.update c.bodies i
        (some (if o = .put then .returned seq else .droppedAdd seq)) } lat items st' := by
  obtain ⟨hpushes, -⟩ := h.pushing i x hx
  obtain ⟨x', _, hl, _, rfl⟩ := Object.next_ret hk
  obtain ⟨hst, hrel⟩ := (LockFreeQueue.simulation LockFreeQueue.Word.u64_compares
    two_le_sinkRing).ret h.relates hx hr
  have hprocessed : (if o = .put then Body.returned seq else .droppedAdd seq).processed = 1 := by
    split <;> rfl
  have hsummed : (if o = .put then Body.returned seq else .droppedAdd seq).summed = seq := by
    split <;> rfl
  have hsettled : LockFreeQueue.inserted (some (.settled o) : Option SinkStage) =
      settled (some (if o = .put then .returned seq else .droppedAdd seq)) none := by
    rw [LockFreeQueue.eq_done hr] at hpushes
    cases o with
    | put | refused => rfl
    | got | nothing => cases hpushes
  refine ⟨_, h.moves (i := i) (o := some (if o = .put then .returned seq else .droppedAdd seq)) ?_
    hrel⟩
  refine ⟨rfl, ?_, ⟨0, (BitVec.add_zero _).symm, ?_⟩, ?_, ?_, ?_, ?_, rfl⟩
  · simp only [hb, hand, hprocessed]
    rfl
  · simp only [hb, hand, hsummed]
    rfl
  · simp only [hb, hst, Function.update_self, ← hsettled]
    rfl
  · intro u hu
    exact ⟨Function.update_of_ne hu .., Function.update_of_ne hu ..⟩
  · intro y hy
    cases (Function.update_self ..).symm.trans hy
  · intro seq' hseq'
    split at hseq' <;> cases hseq'

theorem Counted.body (h : Counted c lat items st) (hle : c.sink.shared.tail < 2 ^ 62) {x : Body}
    {m : ℕ} (hb : c.bodies i = some x) (hs : stepBody i m b c x = some c') :
    ∃ items' st', Counted c' lat items' st' := by
  cases x with
  | processedAdd seq =>
    cases hs
    exact ⟨items, st, h.quiet hb (fun _ he => by cases he) (fun _ he => by cases he) rfl
      ⟨0, (BitVec.add_zero _).symm, rfl⟩ rfl⟩
  | checksumAdd seq =>
    cases hs
    exact ⟨items, st, h.quiet hb (fun _ he => by cases he) (fun _ he => by cases he) rfl
      ⟨seq, rfl, (Nat.zero_add seq).symm⟩ rfl⟩
  | latency seq => exact ⟨items, h.push_called hb hs⟩
  | push seq =>
    obtain ⟨x, hx⟩ := h.pushed i seq hb
    simp only [stepBody, hx, Option.bind_some] at hs
    cases hr : LockFreeQueue.result x with
    | none =>
      rw [hr] at hs
      obtain ⟨k, hk, rfl⟩ := Option.map_eq_some_iff.mp hs
      exact h.push_next hle hb hx hr hk
    | some o =>
      rw [hr] at hs
      obtain ⟨k, hk, rfl⟩ := Option.map_eq_some_iff.mp hs
      exact ⟨items, h.push_returned hb hx hr hk⟩
  | droppedAdd seq =>
    cases hs
    exact ⟨items, st, h.quiet hb (fun _ he => by cases he) (fun _ he => by cases he) rfl
      ⟨0, (BitVec.add_zero _).symm, rfl⟩ rfl⟩
  | returned seq => cases hs

end Counted

end LowLatency.PipelineDemo
