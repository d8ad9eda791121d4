import LowLatency.Concurrency.Snapshot
import LowLatency.SPSCRingBuffer.Fifo

/-!
# The diagnostics

`size()`, `empty()` and `full()` may be called by any thread. Each loads both counters, and the two
sides may do anything between the loads. `empty()` loads `head_` first; the other two load `tail_` first,
so that they may see a `head_` past their `tail_`. There `size()` answers 0, but `full()` subtracts all
the same: the difference wraps, and the ring passes for full.
-/

namespace LowLatency.SPSCRingBuffer

open Concurrency

variable {α : Type*}

inductive Query where
  | size
  | empty
  | full
  deriving DecidableEq

inductive Answer where
  | size (n : SizeT)
  | bool (b : Bool)
  deriving DecidableEq

/-- What the functions load and compute. -/
def probe (r : Ring) : Query → Probe (Config Side (Shared α) (Local α)) SizeT Answer
  | .size => ⟨fun c => c.shared.tail, fun c => c.shared.head,
      fun t h => .size (if h ≤ t then t - h else 0)⟩
  | .empty => ⟨fun c => c.shared.head, fun c => c.shared.tail, fun h t => .bool (decide (h = t))⟩
  | .full => ⟨fun c => c.shared.tail, fun c => c.shared.head,
      fun t h => .bool (decide (count r ≤ t - h))⟩

/-- What the answer says is so at a moment of the call. -/
def Sound (r : Ring) (seen : List (Config Side (Shared α) (Local α))) : Query → Answer → Prop
  | .size, .size n => n.toNat ≤ r.size ∧
      ∃ c, seen.head? = some c ∧ n.toNat ≤ c.shared.queue.length
  | .empty, .bool b => b = true → ∃ c ∈ seen, c.shared.queue = []
  | .full, .bool b => b = true → ∃ c ∈ seen, c.shared.queue.length = r.size
  | _, _ => False

/-! ## Two loads -/

section Loads

variable {moved : α → α} {r : Ring} {c c₁ c₂ : Config Side (Shared α) (Local α)}

theorem counters_le {ok : Config Side (Shared α) (Local α) → Action Side (Op α) → Prop}
    (h₁ : Inv r c₁.shared c₁.locals) (h : (system moved r).Reach ok c₁ c₂) :
    Inv r c₂.shared c₂.locals ∧ c₁.shared.published ≤ c₂.shared.published ∧
      c₁.shared.freed ≤ c₂.shared.freed := by
  refine h.invariant (I := fun d => Inv r d.shared d.locals ∧
    c₁.shared.published ≤ d.shared.published ∧ c₁.shared.freed ≤ d.shared.freed)
    ⟨h₁, le_rfl, le_rfl⟩ ?_
  rintro d a d' ⟨hinv, hpub, hfreed⟩ _ hn
  refine ⟨hinv.next hn, ?_⟩
  cases a with
  | call u op =>
    obtain ⟨-, -, rfl⟩ := Object.next_call hn
    exact ⟨hpub, hfreed⟩
  | step u b =>
    obtain ⟨x, hx, -, rfl⟩ := Object.next_step hn
    cases u with
    | producer =>
      obtain ⟨-, hsame, -, hmore⟩ :=
        @step_producer_frame _ moved r b d.shared x (hinv.fits _ _ hx)
      exact ⟨hpub.trans hmore, hfreed.trans_eq hsame.symm⟩
    | consumer =>
      obtain ⟨-, hsame, hmore⟩ :=
        @step_consumer_frame _ moved r b d.shared x (hinv.fits _ _ hx)
      exact ⟨hpub.trans_eq hsame.symm, hfreed.trans hmore⟩
  | ret u =>
    obtain ⟨x, o, -, -, rfl⟩ := Object.next_ret hn
    exact ⟨hpub, hfreed⟩

/-- While the counts are words, the counters are the counts. -/
theorem Inv.toNat_counters (h : Inv r c.shared c.locals) (hlt : c.shared.published < 2 ^ 64) :
    c.shared.tail.toNat = c.shared.published ∧ c.shared.head.toNat = c.shared.freed := by
  have hfreed := h.slots.freed_le.trans h.slots.popped_le
  rw [h.tail, h.head, BitVec.toNat_ofNat, BitVec.toNat_ofNat]
  exact ⟨Nat.mod_eq_of_lt hlt, Nat.mod_eq_of_lt (hfreed.trans_lt hlt)⟩

theorem Inv.queue_length (h : Inv r c.shared c.locals) :
    c.shared.queue.length = c.shared.published - c.shared.freed :=
  h.slots.queue_length

theorem Inv.queue_le (h : Inv r c.shared c.locals) : c.shared.queue.length ≤ r.size := by
  have hpub := h.slots.published_le
  have hroom := h.slots.room
  rw [h.queue_length]
  omega

variable (h₁ : Inv r c₁.shared c₁.locals) (h₂ : Inv r c₂.shared c₂.locals)
  (hpub : c₁.shared.published ≤ c₂.shared.published) (hfreed : c₁.shared.freed ≤ c₂.shared.freed)
  (hlt : c₂.shared.published < 2 ^ 64)

include h₁ h₂ hpub hlt in
/-- Equal counters, `head_` loaded first: nothing was in the buffer then. -/
theorem empty_of_loads (heq : c₁.shared.head = c₂.shared.tail) : c₁.shared.queue = [] := by
  obtain ⟨-, hhead⟩ := h₁.toNat_counters (hpub.trans_lt hlt)
  obtain ⟨htail, -⟩ := h₂.toNat_counters hlt
  rw [heq, htail] at hhead
  rw [← List.length_eq_zero_iff, h₁.queue_length]
  omega

include h₁ h₂ hpub hfreed hlt in
/-- The difference that `size()` and `full()` compute when `head_` is not past the loaded `tail_`. -/
theorem difference_of_loads (hle : c₂.shared.head ≤ c₁.shared.tail) :
    (c₁.shared.tail - c₂.shared.head).toNat ≤ c₁.shared.queue.length := by
  obtain ⟨htail, -⟩ := h₁.toNat_counters (hpub.trans_lt hlt)
  obtain ⟨-, hhead⟩ := h₂.toNat_counters hlt
  rw [BitVec.toNat_sub_of_le hle, htail, hhead, h₁.queue_length]
  omega

include h₁ h₂ hpub hlt in
/-- When `head_` is past the loaded `tail_`, the ring passes for full, whatever it holds. -/
theorem full_of_past (hpast : c₁.shared.tail < c₂.shared.head)
    (hroom : c₂.shared.freed + r.size ≤ 2 ^ 64) :
    count r ≤ c₁.shared.tail - c₂.shared.head := by
  obtain ⟨htail, -⟩ := h₁.toNat_counters (hpub.trans_lt hlt)
  obtain ⟨-, hhead⟩ := h₂.toNat_counters hlt
  have hsize := r.size_le
  have hpast : c₁.shared.tail.toNat < c₂.shared.head.toNat := hpast
  show (count r).toNat ≤ _
  rw [toNat_count, BitVec.toNat_sub]
  omega

end Loads

/-! ## Sound answers -/

/-- The steps taken while fewer than `2 ^ 64` items have been pushed. -/
def PublishedBelow (c : Config Side (Shared α) (Local α)) (_ : Action Side (Op α)) : Prop :=
  c.shared.published < 2 ^ 64

/-- The steps and loads made while fewer than `2 ^ 64` items have been pushed. -/
def PushesBelow (c : Config Side (Shared α) (Local α) ×
    Observer (Config Side (Shared α) (Local α)) Query SizeT Answer)
    (_ : Probing (Action Side (Op α)) Query) : Prop :=
  c.1.shared.published < 2 ^ 64

instance (c : Config Side (Shared α) (Local α) ×
    Observer (Config Side (Shared α) (Local α)) Query SizeT Answer)
    (a : Probing (Action Side (Op α)) Query) : Decidable (PushesBelow c a) := by
  unfold PushesBelow
  infer_instance

/-- At the end of the call `head_` is not past the `tail_` of its beginning. -/
def HeadNotPast (seen : List (Config Side (Shared α) (Local α))) : Prop :=
  ∀ c₁ c₂, seen.head? = some c₁ → seen.getLast? = some c₂ → c₂.shared.head ≤ c₁.shared.tail

section Calls

variable {moved : α → α} {r : Ring} {k : Query} {res : Answer}
  {c : Config Side (Shared α) (Local α)} {seen : List (Config Side (Shared α) (Local α))}

theorem exists_counters
    (h : ((system moved r).observed (probe r)).Reach PushesBelow (initial α, .resting)
      (c, .answered k res seen)) :
    ∃ c₁ c₂, seen.head? = some c₁ ∧ seen.getLast? = some c₂ ∧ Inv r c₁.shared c₁.locals ∧
      Inv r c₂.shared c₂.locals ∧ c₁.shared.published ≤ c₂.shared.published ∧
      c₁.shared.freed ≤ c₂.shared.freed ∧ c₂.shared.published < 2 ^ 64 ∧
      res = (probe (α := α) r k).answer ((probe r k).first c₁) ((probe r k).second c₂) := by
  have hbelow : ∀ (c : Config Side (Shared α) (Local α) ×
      Observer (Config Side (Shared α) (Local α)) Query SizeT Answer) (a : Action Side (Op α)),
      PushesBelow c (.step a) → PublishedBelow c.1 a := fun _ _ hok => hok
  obtain ⟨c₁, c₂, hc₁, hc₂, hreach₁, hreach₂, hres, hlt⟩ :=
    System.exists_loads hbelow h
  have h₁ : Inv r c₁.shared c₁.locals :=
    (inv_inductive moved r).reachable (inv_init r) hreach₁.reachable
  obtain ⟨h₂, hpub, hfreed⟩ := counters_le h₁ hreach₂
  exact ⟨c₁, c₂, hc₁, hc₂, h₁, h₂, hpub, hfreed, hlt, hres⟩

/-- A `full()` that loads a `head_` past its `tail_` answers yes, whatever the ring held. -/
theorem full_of_headPast
    (h : ((system moved r).observed (probe r)).Reach PushesBelow (initial α, .resting)
      (c, .answered .full res seen)) (hpast : ¬ HeadNotPast seen)
    (hroom : ∀ d ∈ seen, d.shared.freed + r.size ≤ 2 ^ 64) : res = .bool true := by
  obtain ⟨c₁, c₂, hc₁, hc₂, h₁, h₂, hpub, -, hlt, rfl⟩ := exists_counters h
  have hlt' : c₁.shared.tail < c₂.shared.head := by
    by_contra hle
    refine hpast fun d₁ d₂ hd₁ hd₂ => ?_
    obtain rfl := Option.some.inj (hc₁.symm.trans hd₁)
    obtain rfl := Option.some.inj (hc₂.symm.trans hd₂)
    exact BitVec.not_lt.mp hle
  have hfull := full_of_past h₁ h₂ hpub hlt hlt' (hroom c₂ (List.mem_of_getLast? hc₂))
  exact congrArg Answer.bool (decide_eq_true hfull)

end Calls

/-- **Sound diagnostics.** Each answer holds at a moment of its call, provided that `full()` does not
load a `head_` past the `tail_` it has loaded. -/
theorem sound_of_headNotPast (moved : α → α) (r : Ring) (k : Query) (res : Answer)
    (c : Config Side (Shared α) (Local α)) (seen : List (Config Side (Shared α) (Local α)))
    (h : ((system moved r).observed (probe r)).Reach PushesBelow (initial α, .resting)
      (c, .answered k res seen)) (hload : k = .full → HeadNotPast seen) : Sound r seen k res := by
  obtain ⟨c₁, c₂, hc₁, hc₂, h₁, h₂, hpub, hfreed, hlt, rfl⟩ := exists_counters h
  have hmem := List.mem_of_head? hc₁
  cases k with
  | size =>
    have hdiff : (if c₂.shared.head ≤ c₁.shared.tail then c₁.shared.tail - c₂.shared.head
        else 0 : SizeT).toNat ≤ c₁.shared.queue.length := by
      split_ifs with hle
      · exact difference_of_loads h₁ h₂ hpub hfreed hlt hle
      · exact Nat.zero_le _
    exact ⟨hdiff.trans h₁.queue_le, c₁, hc₁, hdiff⟩
  | empty =>
    intro heq
    exact ⟨c₁, hmem, empty_of_loads h₁ h₂ hpub hlt (of_decide_eq_true heq)⟩
  | full =>
    intro hfull
    have hle := hload rfl c₁ c₂ hc₁ hc₂
    have hdiff := difference_of_loads h₁ h₂ hpub hfreed hlt hle
    have hcount : (count r).toNat ≤ (c₁.shared.tail - c₂.shared.head).toNat :=
      of_decide_eq_true hfull
    rw [toNat_count] at hcount
    exact ⟨c₁, hmem, h₁.queue_le.antisymm (hcount.trans hdiff)⟩

/-! ## Schedules -/

/-- The run answers `res` to `k`, and `test` holds throughout the call. -/
theorem exists_answer (k : Query) (res : Answer)
    (as : List (Probing (Action Side (Op ℕ)) Query))
    (test : Config Side (Shared ℕ) (Local ℕ) → Bool)
    (h : ((((system id Ring.two).observed (probe Ring.two)).runWhile PushesBelow
      (initial ℕ, .resting) as).map fun c => c.2.throughout k res test) = some true) :
    ∃ (c : Config Side (Shared ℕ) (Local ℕ)) (seen : List (Config Side (Shared ℕ) (Local ℕ))),
      ((system id Ring.two).observed (probe Ring.two)).Reach PushesBelow
        (initial ℕ, .resting) (c, .answered k res seen) ∧ ∀ d ∈ seen, test d = true :=
  System.exists_answered h

def pushOne : List (Probing (Action Side (Op ℕ)) Query) :=
  .step (.call .producer (.tryPush 7 .copy)) :: (Action.steps .producer 4).map .step ++
    [.step (.ret .producer)]

def popOne : List (Probing (Action Side (Op ℕ)) Query) :=
  .step (.call .consumer .tryPop) :: (Action.steps .consumer 5).map .step ++
    [.step (.ret .consumer)]

/-- An item passes through the empty ring of two slots between the loads of `full()`. -/
def passedThrough : List (Probing (Action Side (Op ℕ)) Query) :=
  [.call .full] ++ pushOne ++ popOne ++ [.load]

/-- `full()` answers yes although the ring was never full during the call. -/
theorem full_unsound : ∃ (c : Config Side (Shared ℕ) (Local ℕ))
    (seen : List (Config Side (Shared ℕ) (Local ℕ))),
    ((system id Ring.two).observed (probe Ring.two)).Reach PushesBelow
      (initial ℕ, .resting) (c, .answered .full (.bool true) seen) ∧
      ∀ d ∈ seen, d.shared.queue.length < Ring.two.size := by
  obtain ⟨c, seen, hreach, hfew⟩ := exists_answer .full (.bool true) passedThrough
    (fun d => decide (d.shared.queue.length < Ring.two.size)) (by decide +kernel)
  exact ⟨c, seen, hreach, fun d hd => of_decide_eq_true (hfew d hd)⟩

/-- Two pushes fill the ring of two slots. -/
def filled : List (Probing (Action Side (Op ℕ)) Query) :=
  pushOne ++ pushOne ++ [.call .full, .load]

theorem sound_filled : ∃ seen : List (Config Side (Shared ℕ) (Local ℕ)),
    Sound Ring.two seen .full (.bool true) := by
  obtain ⟨c, seen, hreach, hsame⟩ := exists_answer .full (.bool true) filled
    (fun d => decide (d.shared.head = 0 ∧ d.shared.tail = 2)) (by decide +kernel)
  refine ⟨seen, sound_of_headNotPast id Ring.two .full _ c seen hreach fun _ c₁ c₂ hc₁ hc₂ => ?_⟩
  have h₁ := of_decide_eq_true (hsame c₁ (List.mem_of_head? hc₁))
  have h₂ := of_decide_eq_true (hsame c₂ (List.mem_of_getLast? hc₂))
  rw [h₁.2, h₂.1]
  decide

end LowLatency.SPSCRingBuffer
