import LowLatency.Concurrency.StoreBuffer
import LowLatency.LockFreeQueue.Concurrent
import LowLatency.LockFreeQueue.Linearizable

/-!
# The queue under x86-TSO

`program` is the queue in instructions of x86. The plain stores are those to a claimed slot: to its data
and then to its sequence number. They may reach memory when the operation has returned long since, but
before the same thread claims another position, since the compare-exchange waits for them.

So the memory of a run is that of a run with stores that take effect at once and two operations in
progress per thread, one of which does nothing but publish its slot late (`Follows`). An operation that
reads a sequence number from its own thread's buffer runs ahead of its counterpart there, which loads it
when it has reached memory.
-/

namespace LowLatency.LockFreeQueue

open Concurrency

variable {α Tid : Type*} [Inhabited α]

/-- A plain store: to the data or to the sequence number of the slot of a claimed position. -/
inductive Store (α : Type*) where
  | write (pos : ℕ) (item : α)
  | publish (pos : ℕ)
  | clear (pos : ℕ)
  | release (pos : ℕ) (item : α)

/-- The arrival of a store in memory. -/
def Store.apply (w : Word) (r : Ring) (s : Shared α) : Store α → Shared α
  | .write pos item => s.setData (r.slot pos) item
  | .publish pos => s.setSequence (r.slot pos) (w.wrap (pos + 1))
  | .clear pos => s.setData (r.slot pos) default
  | .release pos item =>
    { s.setSequence (r.slot pos) (w.wrap (pos + r.size)) with
      popReturns := s.popReturns ++ [(pos, item)] }

/-- The next instruction. The compare-exchange of x86 fails on a mismatch only. -/
def instr (w : Word) (r : Ring) : Local α → Instr (Shared α) (Store α) (Local α)
  | .pushLoadTail item => .load fun s => .pushLoadSequence item s.tail
  | .pushLoadSequence item pos => .load fun s =>
    let dif := w.dif (s.sequence (r.slot pos)) pos
    if dif = 0 then .pushClaim item pos
    else if dif < 0 then .done (.refused item)
    else .pushLoadTail item
  | .pushClaim item pos => .locked fun s =>
    if s.tail = pos then
      ({ s with tail := w.wrap (pos + 1), pushClaims := s.pushClaims ++ [(pos, item)] },
        .pushWrite item pos)
    else (s, .pushLoadSequence item s.tail)
  | .pushWrite item pos => .store fun _ => (.write pos item, .pushPublish pos)
  | .pushPublish pos => .store fun _ => (.publish pos, .done .put)
  | .popLoadHead => .load fun s => .popLoadSequence s.head
  | .popLoadSequence pos => .load fun s =>
    let dif := w.dif (s.sequence (r.slot pos)) (w.wrap (pos + 1))
    if dif = 0 then .popClaim pos
    else if dif < 0 then .done .nothing
    else .popLoadHead
  | .popClaim pos => .locked fun s =>
    if s.head = pos then
      ({ s with
          head := w.wrap (pos + 1)
          popClaims := s.popClaims ++ [(pos, s.data (r.slot pos))] },
        .popRead pos)
    else (s, .popLoadSequence s.head)
  -- the item is moved out of the slot
  | .popRead pos => .store fun s => (.clear pos, .popPublish pos (s.data (r.slot pos)))
  | .popPublish pos item => .store fun _ => (.release pos item, .done (.got item))
  | .done o => .load fun _ => .done o

def program (w : Word) (r : Ring) : Program (Op α) (Outcome α) (Shared α) (Store α) (Local α) where
  start := start
  instr := instr w r
  apply := Store.apply w r
  result := result

/-- With stores that take effect at once it is the same queue. -/
theorem sequential_step (w : Word) (r : Ring) (b : Bool) (s : Shared α) (x : Local α) :
    (program w r).sequential.step b s x = step w r false s x := by
  cases x with
  | pushLoadSequence | popLoadSequence =>
    simp only [Program.sequential, program, instr, step]
    split_ifs <;> rfl
  | pushClaim | popClaim =>
    simp only [Program.sequential, program, instr, step, and_true]
  | _ => rfl

theorem step_load {w : Word} {r : Ring} {x : Local α} {f : Shared α → Local α}
    (hi : instr w r x = .load f) (s : Shared α) : step w r false s x = (s, f s) := by
  rw [← sequential_step (b := false)]
  simp only [Program.sequential, program, hi]

theorem step_locked {w : Word} {r : Ring} {x : Local α} {f : Shared α → Shared α × Local α}
    (hi : instr w r x = .locked f) (s : Shared α) : step w r false s x = f s := by
  rw [← sequential_step (b := false)]
  simp only [Program.sequential, program, hi]

/-! ## The late operation -/

/-- The position that an operation without a claim has loaded. -/
def Local.position : Local α → Option ℕ
  | .pushLoadSequence _ pos | .pushClaim _ pos | .popLoadSequence pos | .popClaim pos => some pos
  | _ => none

/-- The stores that an operation past its claim has still to make are those in the buffer. -/
inductive Owes (r : Ring) (m : Shared α) : Option (Local α) → List (Store α) → Prop
  | nothing : Owes r m none []
  | write (item : α) (pos : ℕ) :
    Owes r m (some (.pushWrite item pos)) [.write pos item, .publish pos]
  | publish (pos : ℕ) : Owes r m (some (.pushPublish pos)) [.publish pos]
  | clear (pos : ℕ) (item : α) : m.data (r.slot pos) = item →
    Owes r m (some (.popRead pos)) [.clear pos, .release pos item]
  | release (pos : ℕ) (item : α) : Owes r m (some (.popPublish pos item)) [.release pos item]

/-- The current operation has loaded its position after the late one had claimed its own. -/
def After (y : Option (Local α)) (x : Local α) : Prop :=
  ∀ y' p pos, y = some y' → y'.claimed = some p → x.position = some pos → y'.pushes = x.pushes →
    p < pos

/-- An operation `o` with its thread's buffer, the same operation `x` with stores that take effect at
once, and the late operation `y` of the thread. -/
inductive Follows (r : Ring) (m : Shared α) :
    Option (Local α) → List (Store α) → Option (Local α) → Option (Local α) → Prop
  | idle {buf : List (Store α)} {y : Option (Local α)} : Owes r m y buf → Follows r m none buf none y
  | running {x : Local α} {buf : List (Store α)} {y : Option (Local α)} : x.claimed = none →
    Owes r m y buf → After y x → Follows r m (some x) buf (some x) y
  /-- A push has seen its slot free before the late pop has released it in memory. -/
  | pushAhead {item : α} {p : ℕ} {buf : List (Store α)} {y : Local α} : Owes r m (some y) buf →
    y.claimed = some p → y.pushes = false →
    Follows r m (some (.pushClaim item (p + r.size))) buf
      (some (.pushLoadSequence item (p + r.size))) (some y)
  /-- A pop has seen the item before the late push has published it in memory. -/
  | popAhead {p : ℕ} {buf : List (Store α)} {y : Local α} : Owes r m (some y) buf →
    y.claimed = some p → y.pushes = true →
    Follows r m (some (.popClaim p)) buf (some (.popLoadSequence p)) (some y)
  | claimed {x : Local α} {p : ℕ} : x.claimed = some p → Follows r m (some x) [] (some x) none
  | written (item : α) (pos : ℕ) :
    Follows r m (some (.pushPublish pos)) [.write pos item] (some (.pushWrite item pos)) none
  | cleared (pos : ℕ) (item : α) : m.data (r.slot pos) = item →
    Follows r m (some (.popPublish pos item)) [.clear pos] (some (.popRead pos)) none
  | finished {o : Outcome α} {x : Local α} {buf : List (Store α)} : Owes r m (some x) buf →
    AtStage m x (.settled o) → Follows r m (some (.done o)) buf (some x) none

section Follows

variable {r : Ring} {m m' : Shared α} {o x y : Option (Local α)} {buf : List (Store α)}

omit [Inhabited α] in
theorem Owes.mono (h : Owes r m y buf)
    (hdata : ∀ z p, y = some z → z.claimed = some p → m'.data (r.slot p) = m.data (r.slot p)) :
    Owes r m' y buf := by
  cases h with
  | nothing => exact .nothing
  | write item pos => exact .write item pos
  | publish pos => exact .publish pos
  | clear pos item hitem => exact .clear pos item ((hdata _ pos rfl rfl).trans hitem)
  | release pos item => exact .release pos item

omit [Inhabited α] in
/-- What the others do leaves the data of claimed slots alone. -/
theorem Follows.mono (h : Follows r m o buf x y)
    (hx : ∀ z p, x = some z → z.claimed = some p → m'.data (r.slot p) = m.data (r.slot p))
    (hy : ∀ z p, y = some z → z.claimed = some p → m'.data (r.slot p) = m.data (r.slot p))
    (hclaims : ∀ c ∈ m.pushClaims, c ∈ m'.pushClaims) : Follows r m' o buf x y := by
  cases h with
  | idle howes => exact .idle (howes.mono hy)
  | running hc howes hafter => exact .running hc (howes.mono hy) hafter
  | pushAhead howes hc hk => exact .pushAhead (howes.mono hy) hc hk
  | popAhead howes hc hk => exact .popAhead (howes.mono hy) hc hk
  | claimed hc => exact .claimed hc
  | written item pos => exact .written item pos
  | cleared pos item hitem => exact .cleared pos item ((hx _ pos rfl rfl).trans hitem)
  | finished howes hstage => exact .finished (howes.mono hx) (hstage.mono hclaims)

omit [Inhabited α] in
theorem Owes.exists_of_cons {st : Store α} (h : Owes r m y (st :: buf)) : ∃ z, y = some z := by
  cases h <;> exact ⟨_, rfl⟩

omit [Inhabited α] in
theorem After.congr {z z' x : Local α} (h : After (some z) x) (hc : z'.claimed = z.claimed)
    (hk : z'.pushes = z.pushes) : After (some z') x := by
  rintro _ p pos ⟨⟩ hp hpos he
  exact h z p pos rfl (hc ▸ hp) hpos (hk ▸ he)

omit [Inhabited α] in
theorem Owes.nil (h : Owes r m y []) : y = none := by
  cases h
  rfl

theorem view_frame (w : Word) (r : Ring) (m : Shared α) (buf : List (Store α)) :
    ((program w r).view m buf).tail = m.tail ∧ ((program w r).view m buf).head = m.head := by
  induction buf generalizing m with
  | nil => exact ⟨rfl, rfl⟩
  | cons st buf ih =>
    rw [Program.view_cons, (ih _).1, (ih _).2]
    cases st <;> exact ⟨rfl, rfl⟩

/-- A thread sees the sequence number that is in memory, or the one that it has stored itself. -/
theorem Owes.sequence (h : Owes r m y buf) (w : Word) (pos : ℕ) :
    ((program w r).view m buf).sequence (r.slot pos) = m.sequence (r.slot pos) ∨
      ∃ z p, y = some z ∧ z.claimed = some p ∧ r.slot p = r.slot pos ∧
        ((program w r).view m buf).sequence (r.slot pos) =
          w.wrap (if z.pushes then p + 1 else p + r.size) := by
  have hown : ∀ (s : Shared α) (p n : ℕ), (s.setSequence (r.slot p) n).sequence (r.slot pos) =
      s.sequence (r.slot pos) ∨
        r.slot p = r.slot pos ∧ (s.setSequence (r.slot p) n).sequence (r.slot pos) = n := by
    intro s p n
    rw [Shared.setSequence_sequence]
    split
    next he => exact .inr ⟨he.symm, rfl⟩
    · exact .inl rfl
  cases h with
  | nothing => exact .inl rfl
  | write item p =>
    rcases hown (m.setData (r.slot p) item) p (w.wrap (p + 1)) with he | ⟨hslot, he⟩
    · exact .inl (he.trans (Shared.setData_sequence ..))
    · exact .inr ⟨_, p, rfl, rfl, hslot, he⟩
  | publish p =>
    rcases hown m p (w.wrap (p + 1)) with he | ⟨hslot, he⟩
    · exact .inl he
    · exact .inr ⟨_, p, rfl, rfl, hslot, he⟩
  | clear p item =>
    rcases hown (m.setData (r.slot p) default) p (w.wrap (p + r.size)) with he | ⟨hslot, he⟩
    · exact .inl (he.trans (Shared.setData_sequence ..))
    · exact .inr ⟨_, p, rfl, rfl, hslot, he⟩
  | release p item =>
    rcases hown m p (w.wrap (p + r.size)) with he | ⟨hslot, he⟩
    · exact .inl he
    · exact .inr ⟨_, p, rfl, rfl, hslot, he⟩

/-- The oldest store of an operation past its claim is what its counterpart does next. -/
theorem Owes.flush {st : Store α} {z : Local α} (h : Owes r m (some z) (st :: buf)) (w : Word) :
    result z = none ∧ (step w r false m z).1 = st.apply w r m ∧
      ((Owes r (st.apply w r m) (some (step w r false m z).2) buf ∧
          (step w r false m z).2.claimed = z.claimed ∧ (step w r false m z).2.pushes = z.pushes) ∨
        buf = [] ∧ ∃ o, (step w r false m z).2 = .done o ∧ ∀ g, AtStage m z g → g = .settled o) := by
  cases h with
  | write item pos => exact ⟨rfl, rfl, .inl ⟨.publish pos, rfl, rfl⟩⟩
  | publish pos => exact ⟨rfl, rfl, .inr ⟨rfl, .put, rfl, fun g hg => hg⟩⟩
  | clear pos item hitem =>
    refine ⟨rfl, rfl, .inl ⟨?_, rfl, rfl⟩⟩
    subst hitem
    exact .release pos _
  | release pos item => exact ⟨rfl, rfl, .inr ⟨rfl, .got item, rfl, fun g hg => hg⟩⟩

theorem step_pushLoadSequence (item : α) {pos n : ℕ} (hseq : m.sequence (r.slot pos) = n)
    (hn : n < 2 ^ 63) (hpos : pos < 2 ^ 63) : step .u64 r false m (.pushLoadSequence item pos) =
      (m, if n = pos then .pushClaim item pos else if n < pos then .done (.refused item)
        else .pushLoadTail item) := by
  have hdif := Word.u64_compares.dif_eq hn hpos
  simp only [step, hseq, hdif, Int.sub_eq_zero, Int.natCast_inj, sub_neg, Nat.cast_lt]
  split_ifs <;> rfl

theorem step_popLoadSequence {pos n : ℕ} (hseq : m.sequence (r.slot pos) = n) (hn : n < 2 ^ 63)
    (hpos : pos + 1 < 2 ^ 63) : step .u64 r false m (.popLoadSequence pos) =
      (m, if n = pos + 1 then .popClaim pos else if n < pos + 1 then .done .nothing
        else .popLoadHead) := by
  have hdif := Word.u64_compares.dif_eq hn hpos
  simp only [step, hseq, Word.u64_compares.wrap_eq hpos, hdif, Int.sub_eq_zero, Int.natCast_inj,
    sub_neg, Nat.cast_lt]
  split_ifs <;> rfl

omit [Inhabited α] in
/-- An operation that has loaded something has still claimed nothing. -/
theorem claimed_of_load {w : Word} {x : Local α} {f : Shared α → Local α} (hi : instr w r x = .load f)
    (s : Shared α) : (f s).claimed = none := by
  cases x with
  | pushLoadSequence | popLoadSequence =>
    cases hi
    dsimp only
    split_ifs <;> rfl
  | pushLoadTail | popLoadHead | done =>
    cases hi
    rfl
  | _ => cases hi

omit [Inhabited α] in
/-- A load of a sequence number does not move the position. -/
theorem After.load_sequence {w : Word} {x : Local α} {f : Shared α → Local α} {pos : ℕ}
    (hi : instr w r x = .load f) (hx : x.position = some pos) (h : After y x) (s : Shared α) :
    After y (f s) := by
  have hsame : (f s).position = none ∨ (f s).position = x.position ∧ (f s).pushes = x.pushes := by
    cases x with
    | pushLoadSequence | popLoadSequence =>
      cases hi
      dsimp only
      split_ifs
      · exact .inr ⟨rfl, rfl⟩
      · exact .inl rfl
      · exact .inl rfl
    | pushClaim | popClaim => cases hi
    | _ => cases hx
  intro z p q hz hp hq hk
  rcases hsame with hnone | ⟨hpos, hpush⟩
  · rw [hnone] at hq
    cases hq
  · exact h z p q hz hp (hpos ▸ hq) (hk.trans hpush)

end Follows

end LowLatency.LockFreeQueue
