import Mathlib.Data.List.Basic
import LowLatency.Concurrency.Object
import LowLatency.Pools.Exceptions

/-!
# Switching the trace sink

`setTraceSink` and the loads of `makeTraceableTask`, which are the same code in `ThreadPool` and in
`WorkStealingThreadPool`. The setting is two atomics; `trace_enabled` is stored last by a call that
installs a sink, and first by one that removes it. Calls that overlap can leave a pair behind that no
call has asked for, a sink with `trace_enabled` false. It traces nothing, and this is what the last
call to store `trace_enabled` has asked for (`Inv.settled`).

Calls are numbered in the order in which they begin. `calls` and what follows it in `Shared` is
history.
-/

namespace LowLatency.Pools.TraceSink

open Concurrency

variable {F Tid : Type*}

/-- A `std::shared_ptr` to a `TaskTraceSink`, made by the call `call`; the function may be empty. -/
structure SharedPtr (F : Type*) where
  call : ℕ
  function : Option F
  deriving DecidableEq

/-- A call of `setTraceSink`: its argument, and the calls that had returned when it began. -/
structure Call (F : Type*) where
  sink : Option F
  after : List ℕ

structure Shared (F : Type*) where
  trace_enabled : Bool
  trace_sink : Option (SharedPtr F)
  calls : List (Call F)
  returned : List ℕ
  enabledStores : List ℕ
  sinkStores : List ℕ

def init : Shared F := ⟨false, none, [], [], [], []⟩

/-- What the task of a submission executes: the callable alone, or a closure that also calls the sink
it has captured, through a pointer that may be null. -/
inductive Traceable (F : Type*) where
  | untraced
  | traced (sink : Option (SharedPtr F))
  deriving DecidableEq

inductive Op (F : Type*) where
  | setTraceSink (sink : Option F)
  | makeTraceableTask

/-- The next access of a thread. -/
inductive Local (F : Type*) where
  | setTest (sink : Option F)
  | setSink (k : ℕ) (sink : F)
  | setEnabled (k : ℕ)
  | clearEnabled (k : ℕ)
  | clearSink (k : ℕ)
  | setReturn (k : ℕ)
  | setDone
  | makeLoadEnabled
  | makeLoadSink
  | made (task : Traceable F)

def start : Op F → Local F
  | .setTraceSink sink => .setTest sink
  | .makeTraceableTask => .makeLoadEnabled

namespace Shared

/-- A call begins. -/
def began (s : Shared F) (sink : Option F) : Shared F :=
  { s with calls := s.calls ++ [⟨sink, s.returned⟩] }

def storeEnabled (s : Shared F) (k : ℕ) (enabled : Bool) : Shared F :=
  { s with trace_enabled := enabled, enabledStores := s.enabledStores ++ [k] }

def storeSink (s : Shared F) (k : ℕ) (sink : Option (SharedPtr F)) : Shared F :=
  { s with trace_sink := sink, sinkStores := s.sinkStores ++ [k] }

/-- Call `k` returns. -/
def ended (s : Shared F) (k : ℕ) : Shared F := { s with returned := s.returned ++ [k] }

end Shared

/-- The task that `makeTraceableTask` makes with the pointer it has loaded. -/
def traceable (sink : Option (SharedPtr F)) : Traceable F :=
  if sink.isNone then .untraced else .traced sink

def step (_ : Bool) (s : Shared F) : Local F → Shared F × Local F
  | .setTest (some sink) => (s.began (some sink), .setSink s.calls.length sink)
  | .setTest none => (s.began none, .clearEnabled s.calls.length)
  | .setSink k sink => (s.storeSink k (some ⟨k, some sink⟩), .setEnabled k)
  | .setEnabled k => (s.storeEnabled k true, .setReturn k)
  | .clearEnabled k => (s.storeEnabled k false, .clearSink k)
  | .clearSink k => (s.storeSink k none, .setReturn k)
  | .setReturn k => (s.ended k, .setDone)
  | .makeLoadEnabled => (s, if s.trace_enabled then .makeLoadSink else .made .untraced)
  | .makeLoadSink => (s, .made (traceable s.trace_sink))
  | .setDone => (s, .setDone)
  | .made task => (s, .made task)

/-- What a call returns: nothing, or a task. -/
def result : Local F → Option (Option (Traceable F))
  | .setDone => some none
  | .made task => some (some task)
  | _ => none

def object (F : Type*) : Object (Op F) (Option (Traceable F)) (Shared F) (Local F) :=
  ⟨start, step, result⟩

/-- Any number of threads that switch the sink and submit. -/
abbrev system (F Tid : Type*) [DecidableEq Tid] :
    System (Config Tid (Shared F) (Local F)) (Action Tid (Op F)) :=
  (object F).client fun _ _ => true

def initial (F Tid : Type*) : Config Tid (Shared F) (Local F) := ⟨init, fun _ => none⟩

/-- Call `k` began after call `j` had returned. -/
def Shared.Follows (s : Shared F) (k j : ℕ) : Prop := ∃ call, s.calls[k]? = some call ∧ j ∈ call.after

/-- The thread is in a call of `setTraceSink`. -/
def Local.switching : Local F → Bool
  | .setTest _ | .setSink .. | .setEnabled _ | .clearEnabled _ | .clearSink _ | .setReturn _
  | .setDone => true
  | _ => false

/-- All calls of `setTraceSink` have returned. -/
def Quiet (l : Tid → Option (Local F)) : Prop := ∀ t x, l t = some x → x.switching = false

/-! ## One atomic and the calls that store it -/

section Stores

variable {s : Shared F} {β : Type*} {stores : List ℕ} {first value : β} {of : ℕ → Option F → β}

/-- The argument of call `k`. -/
def Shared.setting (s : Shared F) (k : ℕ) : Option (Option F) := s.calls[k]?.map Call.sink

/-- A call that began after another one had returned comes later in the list. -/
def History (s : Shared F) : Prop := ∀ k j, s.Follows k j → j ∈ s.returned ∧ j < k

/-- An atomic that the calls `stores` have stored, in that order, each as its argument asks for. -/
structure Stored (s : Shared F) (stores : List ℕ) (first value : β) (of : ℕ → Option F → β) :
    Prop where
  begun : ∀ k ∈ stores, k < s.calls.length
  order : stores.Pairwise fun a b => ¬ s.Follows a b
  last : (stores = [] ∧ value = first) ∨
    ∃ k sink, stores.getLast? = some k ∧ s.setting k = some sink ∧ value = of k sink

theorem Shared.Follows.lt_length {k j : ℕ} (h : s.Follows k j) : k < s.calls.length := by
  obtain ⟨call, hcall, _⟩ := h
  exact (List.getElem?_eq_some_iff.mp hcall).1

theorem setting_lt {k : ℕ} {sink : Option F} (h : s.setting k = some sink) :
    k < s.calls.length := by
  obtain ⟨call, hcall, _⟩ := Option.map_eq_some_iff.mp h
  exact (List.getElem?_eq_some_iff.mp hcall).1

theorem setting_began {k : ℕ} (sink : Option F) (hk : k < s.calls.length) :
    (s.began sink).setting k = s.setting k := by
  unfold Shared.setting Shared.began
  rw [List.getElem?_append_left hk]

theorem setting_began_self (sink : Option F) :
    (s.began sink).setting s.calls.length = some sink := by
  unfold Shared.setting Shared.began
  rw [List.getElem?_concat_length]
  rfl

theorem follows_began {k j : ℕ} (sink : Option F) (hk : k < s.calls.length) :
    (s.began sink).Follows k j ↔ s.Follows k j := by
  unfold Shared.Follows Shared.began
  rw [List.getElem?_append_left hk]

theorem follows_began_self {j : ℕ} (sink : Option F) :
    (s.began sink).Follows s.calls.length j ↔ j ∈ s.returned := by
  unfold Shared.Follows Shared.began
  simp

namespace Stored

theorem init : Stored (init : Shared F) [] first first of where
  begun _ h := absurd h List.not_mem_nil
  order := List.Pairwise.nil
  last := .inl ⟨rfl, rfl⟩

theorem began (h : Stored s stores first value of) (sink : Option F) :
    Stored (s.began sink) stores first value of where
  begun k hk := (h.begun k hk).trans (by simp [Shared.began])
  order := by
    refine h.order.imp_of_mem fun {a b} ha _ hab => ?_
    rwa [follows_began sink (h.begun a ha)]
  last := by
    refine h.last.imp_right ?_
    rintro ⟨k, x, hlast, hk, hvalue⟩
    exact ⟨k, x, hlast, (setting_began sink (setting_lt hk)).trans hk, hvalue⟩

theorem of_calls (h : Stored s stores first value of) {s' : Shared F} (hcalls : s'.calls = s.calls) :
    Stored s' stores first value of := by
  have hfollows : ∀ k j, s'.Follows k j ↔ s.Follows k j := by
    intro k j
    unfold Shared.Follows
    rw [hcalls]
  refine ⟨fun k hk => hcalls ▸ h.begun k hk, ?_, ?_⟩
  · exact h.order.imp fun hab => by rwa [hfollows]
  · unfold Shared.setting
    rw [hcalls]
    exact h.last

theorem store (h : Stored s stores first value of) (hs : History s) {k : ℕ} {sink : Option F}
    (hk : s.setting k = some sink) (hrun : k ∉ s.returned) :
    Stored s (stores ++ [k]) first (of k sink) of where
  begun j hj := by
    rcases List.mem_append.mp hj with hj | hj
    · exact h.begun j hj
    · obtain rfl := List.mem_singleton.mp hj
      exact setting_lt hk
  order := by
    rw [List.pairwise_append]
    refine ⟨h.order, List.pairwise_singleton .., ?_⟩
    intro a _ b hb hfollows
    obtain rfl := List.mem_singleton.mp hb
    exact hrun (hs a b hfollows).1
  last := .inr ⟨k, sink, List.getLast?_concat .., hk, rfl⟩

/-- When every call has stored the atomic, it shows the argument of a call that no call followed. -/
theorem settled (h : Stored s stores first value of) (hs : History s)
    (hall : ∀ k < s.calls.length, k ∈ stores) :
    (s.calls = [] ∧ value = first) ∨
      ∃ k sink, s.setting k = some sink ∧ (∀ j, ¬ s.Follows j k) ∧ value = of k sink := by
  rcases h.last with ⟨hnil, hvalue⟩ | ⟨k, sink, hlast, hk, hvalue⟩
  · refine .inl ⟨List.eq_nil_of_length_eq_zero ?_, hvalue⟩
    by_contra hne
    have hmem := hall 0 (Nat.pos_of_ne_zero hne)
    rw [hnil] at hmem
    cases hmem
  · refine .inr ⟨k, sink, hk, fun j hj => ?_, hvalue⟩
    obtain ⟨init, rfl⟩ := List.getLast?_eq_some_iff.mp hlast
    have horder := (List.pairwise_append.mp h.order).2.2
    rcases List.mem_append.mp (hall j hj.lt_length) with hmem | hmem
    · exact horder j hmem k (List.mem_singleton_self k) hj
    · obtain rfl := List.mem_singleton.mp hmem
      exact lt_irrefl j (hs j j hj).2

end Stored

end Stores

/-! ## The invariant -/

/-- The call of `setTraceSink` that the thread executes. -/
def Local.call : Local F → Option ℕ
  | .setSink k _ | .setEnabled k | .clearEnabled k | .clearSink k | .setReturn k => some k
  | _ => none

/-- The pointer that call `k` stores. -/
def pointer (k : ℕ) (sink : Option F) : Option (SharedPtr F) := sink.map fun f => ⟨k, some f⟩

/-- What holds of a thread in between two accesses. -/
def Stage (s : Shared F) : Local F → Prop
  | .setSink k f => s.setting k = some (some f)
  | .setEnabled k => (∃ f, s.setting k = some (some f)) ∧ k ∈ s.sinkStores
  | .clearEnabled k => s.setting k = some none
  | .clearSink k => s.setting k = some none ∧ k ∈ s.enabledStores
  | .setReturn k => k ∈ s.enabledStores ∧ k ∈ s.sinkStores
  | .made (.traced p) => ∃ k f, p = pointer k (some f) ∧ s.setting k = some (some f)
  | _ => True

structure Inv (s : Shared F) (l : Tid → Option (Local F)) : Prop where
  stage : ∀ t x, l t = some x → Stage s x
  running : ∀ t x k, l t = some x → x.call = some k → k < s.calls.length ∧ k ∉ s.returned
  alone : ∀ t u x y k, l t = some x → l u = some y → x.call = some k → y.call = some k → t = u
  begun : ∀ k < s.calls.length, k ∈ s.returned ∨ ∃ t x, l t = some x ∧ x.call = some k
  stored : ∀ k ∈ s.returned, k ∈ s.enabledStores ∧ k ∈ s.sinkStores
  history : History s
  enabled : Stored s s.enabledStores false s.trace_enabled fun _ sink => sink.isSome
  sink : Stored s s.sinkStores none s.trace_sink pointer

theorem inv_init : Inv (init : Shared F) fun _ : Tid => none where
  stage _ _ h := by cases h
  running _ _ _ h := by cases h
  alone _ _ _ _ _ h := by cases h
  begun _ h := by cases h
  stored _ h := by cases h
  history k j h := by
    obtain ⟨_, hcall, _⟩ := h
    cases hcall
  enabled := .init
  sink := .init

namespace Inv

variable [DecidableEq Tid] {s s' : Shared F} {l : Tid → Option (Local F)} {t : Tid} {x y : Local F}

/-- The history grows, and a thread goes on in the call that it is in. -/
theorem go (h : Inv s l) (hx : l t = some x) (hcall : y.call = x.call)
    (hcalls : s'.calls = s.calls) (hreturned : s'.returned = s.returned)
    (henabled : s.enabledStores ⊆ s'.enabledStores) (hsink : s.sinkStores ⊆ s'.sinkStores)
    (hstage : Stage s' y)
    (he : Stored s' s'.enabledStores false s'.trace_enabled fun _ sink => sink.isSome)
    (hp : Stored s' s'.sinkStores none s'.trace_sink pointer) :
    Inv s' (Function.update l t (some y)) := by
  have hset : ∀ k, s'.setting k = s.setting k := by
    intro k
    unfold Shared.setting
    rw [hcalls]
  have hkeep : ∀ z, Stage s z → Stage s' z := by
    intro z hz
    cases z with
    | setSink | clearEnabled => exact (hset _).trans hz
    | setEnabled =>
      obtain ⟨⟨f, hf⟩, hmem⟩ := hz
      exact ⟨⟨f, (hset _).trans hf⟩, hsink hmem⟩
    | clearSink => exact ⟨(hset _).trans hz.1, henabled hz.2⟩
    | setReturn => exact ⟨henabled hz.1, hsink hz.2⟩
    | made task =>
      cases task with
      | untraced => trivial
      | traced p =>
        obtain ⟨k, f, hpk, hf⟩ := hz
        exact ⟨k, f, hpk, (hset k).trans hf⟩
    | _ => trivial
  -- the calls in progress are those of before, with the same threads
  have hback : ∀ u z k, Function.update l t (some y) u = some z → z.call = some k →
      ∃ z', l u = some z' ∧ z'.call = some k := by
    intro u z k hu hz
    rcases update_eq_some hu with ⟨rfl, hy⟩ | ⟨_, hu⟩
    · exact ⟨x, hx, by rw [← hcall, Option.some.inj hy]; exact hz⟩
    · exact ⟨z, hu, hz⟩
  refine ⟨?_, ?_, ?_, ?_, ?_, ?_, he, hp⟩
  · intro u z hu
    rcases update_eq_some hu with ⟨rfl, hy⟩ | ⟨_, hu⟩
    · exact Option.some.inj hy ▸ hstage
    · exact hkeep z (h.stage u z hu)
  · intro u z k hu hz
    obtain ⟨z', hu', hz'⟩ := hback u z k hu hz
    rw [hcalls, hreturned]
    exact h.running u z' k hu' hz'
  · intro u v z w k hu hv hz hw
    obtain ⟨z', hu', hz'⟩ := hback u z k hu hz
    obtain ⟨w', hv', hw'⟩ := hback v w k hv hw
    exact h.alone u v z' w' k hu' hv' hz' hw'
  · intro k hk
    rw [hcalls] at hk
    rw [hreturned]
    refine (h.begun k hk).imp_right ?_
    rintro ⟨u, z, hu, hz⟩
    by_cases hut : u = t
    · subst hut
      obtain rfl := Option.some.inj (hx.symm.trans hu)
      exact ⟨u, y, Function.update_self .., hcall.trans hz⟩
    · exact ⟨u, z, (Function.update_of_ne hut ..).trans hu, hz⟩
  · intro k hk
    rw [hreturned] at hk
    exact ⟨henabled (h.stored k hk).1, hsink (h.stored k hk).2⟩
  · intro k j hkj
    rw [hreturned]
    refine h.history k j ?_
    unfold Shared.Follows at hkj ⊢
    rwa [hcalls] at hkj

theorem began (h : Inv s l) (hx : l t = some x) (hidle : x.call = none) (sink : Option F)
    (hcall : y.call = some s.calls.length) (hstage : Stage (s.began sink) y) :
    Inv (s.began sink) (Function.update l t (some y)) := by
  have hlen : (s.began sink).calls.length = s.calls.length + 1 := by
    unfold Shared.began
    rw [List.length_append, List.length_singleton]
  have hkeep : ∀ z, Stage s z → Stage (s.began sink) z := by
    have hset : ∀ {k o}, s.setting k = some o → (s.began sink).setting k = some o :=
      fun hk => (setting_began sink (setting_lt hk)).trans hk
    intro z hz
    cases z with
    | setSink | clearEnabled => exact hset hz
    | setEnabled => exact ⟨hz.1.imp fun f hf => hset hf, hz.2⟩
    | clearSink => exact ⟨hset hz.1, hz.2⟩
    | setReturn => exact hz
    | made task =>
      cases task with
      | untraced => trivial
      | traced p =>
        obtain ⟨k, f, hpk, hf⟩ := hz
        exact ⟨k, f, hpk, hset hf⟩
    | _ => trivial
  -- the new number is that of no call in progress
  have hnew : ∀ u z k, u ≠ t → Function.update l t (some y) u = some z → z.call = some k →
      k ≠ s.calls.length := by
    rintro u z k hut hu hz rfl
    rw [Function.update_of_ne hut] at hu
    exact lt_irrefl _ (h.running u z _ hu hz).1
  refine ⟨?_, ?_, ?_, ?_, h.stored, ?_, h.enabled.began sink, h.sink.began sink⟩
  · intro u z hu
    rcases update_eq_some hu with ⟨rfl, hy⟩ | ⟨_, hu⟩
    · exact Option.some.inj hy ▸ hstage
    · exact hkeep z (h.stage u z hu)
  · intro u z k hu hz
    rcases update_eq_some hu with ⟨rfl, hy⟩ | ⟨_, hu⟩
    · obtain rfl := Option.some.inj hy
      obtain rfl : s.calls.length = k := Option.some.inj (hcall.symm.trans hz)
      have hreturned : s.calls.length ∉ s.returned := fun hmem =>
        lt_irrefl _ (h.enabled.begun _ (h.stored _ hmem).1)
      exact ⟨by omega, hreturned⟩
    · have hrun := h.running u z k hu hz
      exact ⟨by omega, hrun.2⟩
  · intro u v z w k hu hv hz hw
    by_cases hut : u = t <;> by_cases hvt : v = t
    · exact hut.trans hvt.symm
    · subst hut
      rw [Function.update_self] at hu
      obtain rfl := Option.some.inj hu
      exact absurd (Option.some.inj (hz.symm.trans hcall)) (hnew v w k hvt hv hw)
    · subst hvt
      rw [Function.update_self] at hv
      obtain rfl := Option.some.inj hv
      exact absurd (Option.some.inj (hw.symm.trans hcall)) (hnew u z k hut hu hz)
    · rw [Function.update_of_ne hut] at hu
      rw [Function.update_of_ne hvt] at hv
      exact h.alone u v z w k hu hv hz hw
  · intro k hk
    rcases Nat.lt_or_ge k s.calls.length with hlt | hge
    · refine (h.begun k hlt).imp_right ?_
      rintro ⟨u, z, hu, hz⟩
      refine ⟨u, z, ?_, hz⟩
      rw [Function.update_of_ne, hu]
      rintro rfl
      obtain rfl := Option.some.inj (hx.symm.trans hu)
      rw [hidle] at hz
      cases hz
    · obtain rfl : k = s.calls.length := by omega
      exact .inr ⟨t, y, Function.update_self .., hcall⟩
  · intro k j hkj
    have hk := hkj.lt_length
    rcases Nat.lt_or_ge k s.calls.length with hlt | hge
    · exact h.history k j ((follows_began sink hlt).mp hkj)
    · obtain rfl : k = s.calls.length := by omega
      have hj := (follows_began_self sink).mp hkj
      exact ⟨hj, h.enabled.begun j (h.stored j hj).1⟩

theorem ended (h : Inv s l) {k : ℕ} (hx : l t = some (.setReturn k)) :
    Inv (s.ended k) (Function.update l t (some .setDone)) := by
  have hkeep : ∀ z, Stage s z → Stage (s.ended k) z := by
    intro z hz
    cases z with
    | made task => cases task <;> exact hz
    | _ => exact hz
  -- a call in progress is one of before, of another thread
  have hback : ∀ u z j, Function.update l t (some .setDone) u = some z → z.call = some j →
      l u = some z ∧ u ≠ t := by
    intro u z j hu hz
    rcases update_eq_some hu with ⟨rfl, hy⟩ | ⟨hut, hu⟩
    · obtain rfl := Option.some.inj hy
      cases hz
    · exact ⟨hu, hut⟩
  refine ⟨?_, ?_, ?_, ?_, ?_, ?_, h.enabled.of_calls rfl, h.sink.of_calls rfl⟩
  · intro u z hu
    rcases update_eq_some hu with ⟨rfl, hy⟩ | ⟨_, hu⟩
    · exact Option.some.inj hy ▸ trivial
    · exact hkeep z (h.stage u z hu)
  · intro u z j hu hz
    obtain ⟨hu, hut⟩ := hback u z j hu hz
    refine ⟨(h.running u z j hu hz).1, fun hmem => ?_⟩
    rcases List.mem_append.mp hmem with hmem | hmem
    · exact (h.running u z j hu hz).2 hmem
    · obtain rfl := List.mem_singleton.mp hmem
      exact hut (h.alone u t z _ j hu hx hz rfl)
  · intro u v z w j hu hv hz hw
    exact h.alone u v z w j (hback u z j hu hz).1 (hback v w j hv hw).1 hz hw
  · intro j hj
    rcases h.begun j hj with hmem | ⟨u, z, hu, hz⟩
    · exact .inl (List.mem_append_left _ hmem)
    · by_cases hut : u = t
      · subst hut
        obtain rfl := Option.some.inj (hx.symm.trans hu)
        obtain rfl : k = j := Option.some.inj hz
        exact .inl (List.mem_append_right _ (List.mem_singleton_self k))
      · exact .inr ⟨u, z, (Function.update_of_ne hut ..).trans hu, hz⟩
  · intro j hj
    rcases List.mem_append.mp hj with hj | hj
    · exact h.stored j hj
    · obtain rfl := List.mem_singleton.mp hj
      exact h.stage t _ hx
  · intro j i hji
    have hold := h.history j i hji
    exact ⟨List.mem_append_left _ hold.1, hold.2⟩

omit [DecidableEq Tid] in
theorem stage_traceable (h : Inv s l) : Stage s (.made (traceable s.trace_sink)) := by
  rcases h.sink.last with ⟨_, hvalue⟩ | ⟨k, sink, _, hk, hvalue⟩
  · rw [hvalue]
    trivial
  · rw [hvalue]
    cases sink with
    | none => trivial
    | some f => exact ⟨k, f, rfl, hk⟩

theorem step (h : Inv s l) (hx : l t = some x) (hr : result x = none) (b : Bool) :
    Inv (step b s x).1 (Function.update l t (some (TraceSink.step b s x).2)) := by
  have hstage := h.stage t x hx
  cases x with
  | setTest sink =>
    cases sink with
    | none => exact h.began hx rfl none rfl (setting_began_self none)
    | some f => exact h.began hx rfl (some f) rfl (setting_began_self (some f))
  | setSink k f =>
    have hrun := (h.running t _ k hx rfl).2
    refine h.go hx rfl rfl rfl (List.Subset.refl _) (List.subset_append_left ..) ?_
      (h.enabled.of_calls rfl) ((h.sink.store h.history hstage hrun).of_calls rfl)
    exact ⟨⟨f, hstage⟩, List.mem_append_right _ (List.mem_singleton_self k)⟩
  | setEnabled k =>
    obtain ⟨⟨f, hf⟩, hmem⟩ := hstage
    have hrun := (h.running t _ k hx rfl).2
    refine h.go hx rfl rfl rfl (List.subset_append_left ..) (List.Subset.refl _) ?_
      ((h.enabled.store h.history hf hrun).of_calls rfl) (h.sink.of_calls rfl)
    exact ⟨List.mem_append_right _ (List.mem_singleton_self k), hmem⟩
  | clearEnabled k =>
    have hrun := (h.running t _ k hx rfl).2
    refine h.go hx rfl rfl rfl (List.subset_append_left ..) (List.Subset.refl _) ?_
      ((h.enabled.store h.history hstage hrun).of_calls rfl) (h.sink.of_calls rfl)
    exact ⟨hstage, List.mem_append_right _ (List.mem_singleton_self k)⟩
  | clearSink k =>
    have hrun := (h.running t _ k hx rfl).2
    refine h.go hx rfl rfl rfl (List.Subset.refl _) (List.subset_append_left ..) ?_
      (h.enabled.of_calls rfl) ((h.sink.store h.history hstage.1 hrun).of_calls rfl)
    exact ⟨hstage.2, List.mem_append_right _ (List.mem_singleton_self k)⟩
  | setReturn k => exact h.ended hx
  | makeLoadEnabled =>
    have hcall : ∀ b : Bool, (if b then Local.makeLoadSink else Local.made .untraced : Local F).call =
        none ∧ Stage s (if b then Local.makeLoadSink else Local.made .untraced) := by
      intro b
      cases b <;> exact ⟨rfl, trivial⟩
    exact h.go hx (hcall _).1 rfl rfl (List.Subset.refl _) (List.Subset.refl _) (hcall _).2 h.enabled
      h.sink
  | makeLoadSink =>
    exact h.go hx rfl rfl rfl (List.Subset.refl _) (List.Subset.refl _) h.stage_traceable h.enabled
      h.sink
  | setDone | made => cases hr

/-- A thread that is in no call of `setTraceSink` that has begun comes or goes. -/
theorem client (h : Inv s l) {o : Option (Local F)} (hx : ∀ x, l t = some x → x.call = none)
    (hy : ∀ y, o = some y → y.call = none ∧ Stage s y) : Inv s (Function.update l t o) := by
  have hback : ∀ u z k, Function.update l t o u = some z → z.call = some k → l u = some z := by
    intro u z k hu hz
    rcases update_eq_some hu with ⟨_, ho⟩ | ⟨_, hu⟩
    · rw [(hy z ho).1] at hz
      cases hz
    · exact hu
  refine ⟨?_, ?_, ?_, ?_, h.stored, h.history, h.enabled, h.sink⟩
  · intro u z hu
    rcases update_eq_some hu with ⟨_, ho⟩ | ⟨_, hu⟩
    · exact (hy z ho).2
    · exact h.stage u z hu
  · exact fun u z k hu hz => h.running u z k (hback u z k hu hz) hz
  · exact fun u v z w k hu hv hz hw =>
      h.alone u v z w k (hback u z k hu hz) (hback v w k hv hw) hz hw
  · intro k hk
    refine (h.begun k hk).imp_right ?_
    rintro ⟨u, z, hu, hz⟩
    refine ⟨u, z, ?_, hz⟩
    rw [Function.update_of_ne, hu]
    rintro rfl
    rw [hx z hu] at hz
    cases hz

end Inv

theorem inv_inductive [DecidableEq Tid] : (object F).Inductive (fun (_ : Tid) _ => true)
    (fun _ _ => True) Inv where
  call {s l t op} h hl _ := by
    refine h.client (fun x hx => ?_) fun y hy => ?_
    · rw [hl] at hx
      cases hx
    · obtain rfl := Option.some.inj hy
      cases op <;> exact ⟨rfl, trivial⟩
  step b h hx hr _ := h.step hx hr b
  ret {s l t x r} h hx hr := by
    refine h.client (fun y hy => ?_) fun y hy => by cases hy
    obtain rfl := Option.some.inj (hx.symm.trans hy)
    cases x <;> first | rfl | cases hr

/-! ## What submissions capture -/

/-- The task of a submission whose two loads see the same state. -/
def submission (s : Shared F) : Traceable F :=
  if s.trace_enabled then traceable s.trace_sink else .untraced

/-- The function that the task calls after the callable. -/
def Traceable.function : Traceable F → Option F
  | .untraced => none
  | .traced sink => sink.bind SharedPtr.function

theorem function_traceable (sink : Option (SharedPtr F)) :
    (traceable sink).function = sink.bind SharedPtr.function := by
  cases sink <;> rfl

/-- The submission executes what `makeTraceableTask` makes of the values loaded. -/
theorem function_submission {σ ε : Type} (s : Shared (TaskTraceSink σ ε)) :
    (submission s).function = captured s.trace_enabled (s.trace_sink.bind SharedPtr.function) := by
  unfold submission captured
  split_ifs
  · exact function_traceable s.trace_sink
  · rfl

theorem Inv.settled {s : Shared F} {l : Tid → Option (Local F)} (h : Inv s l) (hquiet : Quiet l) :
    (s.calls = [] ∧ submission s = .untraced) ∨
      ∃ k sink, s.setting k = some sink ∧ (∀ j, ¬ s.Follows j k) ∧
        submission s = traceable (pointer k sink) := by
  have hall : ∀ k < s.calls.length, k ∈ s.enabledStores ∧ k ∈ s.sinkStores := by
    intro k hk
    rcases h.begun k hk with hmem | ⟨t, x, hx, hcall⟩
    · exact h.stored k hmem
    · have hidle := hquiet t x hx
      cases x <;> first | (cases hidle; done) | cases hcall
  have henabled := h.enabled.settled h.history fun k hk => (hall k hk).1
  have hsink := h.sink.settled h.history fun k hk => (hall k hk).2
  unfold submission
  rcases hsink with ⟨hnil, hp⟩ | ⟨k, sink, hk, hlast, hp⟩
  · refine .inl ⟨hnil, ?_⟩
    rw [hp]
    split_ifs <;> rfl
  rcases henabled with ⟨hnil, _⟩ | ⟨j, sink', hj, hlast', he⟩
  · have hlt := setting_lt hk
    rw [hnil] at hlt
    cases hlt
  cases sink' with
  | some f => exact .inr ⟨k, sink, hk, hlast, by rw [he, hp]; rfl⟩
  | none =>
    -- the last call to store `trace_enabled` removes the sink
    exact .inr ⟨j, none, hj, hlast', by rw [he]; rfl⟩

/-- No call of `setTraceSink` begins. -/
def Switchless {Tid F : Type*} (_ : Config Tid (Shared F) (Local F)) : Action Tid (Op F) → Prop
  | .call _ (.setTraceSink _) => False
  | _ => True

instance (c : Config Tid (Shared F) (Local F)) (a : Action Tid (Op F)) :
    Decidable (Switchless c a) :=
  match a with
  | .call _ (.setTraceSink _) => .isFalse id
  | .call _ .makeTraceableTask => .isTrue trivial
  | .step _ _ => .isTrue trivial
  | .ret _ => .isTrue trivial

/-- Since `c`, no sink was switched, and thread `t` has begun no more than to submit. -/
structure Later (c : Config Tid (Shared F) (Local F)) (t : Tid)
    (c' : Config Tid (Shared F) (Local F)) : Prop where
  shared : c'.shared = c.shared
  quiet : Quiet c'.locals
  enabled : c'.locals t = some .makeLoadSink → c.shared.trace_enabled = true
  made : ∀ task, c'.locals t = some (.made task) → task = submission c.shared

section Later

variable [DecidableEq Tid] {c c₁ c₂ : Config Tid (Shared F) (Local F)} {t u : Tid}

theorem Later.move (h : Later c t c₁) {o : Option (Local F)}
    (hquiet : ∀ y, o = some y → y.switching = false)
    (henabled : o = some .makeLoadSink → c.shared.trace_enabled = true)
    (hmade : u = t → ∀ task, o = some (.made task) → task = submission c.shared) :
    Later c t ⟨c₁.shared, Function.update c₁.locals u o⟩ := by
  refine ⟨h.shared, fun v y hv => ?_, fun hv => ?_, fun task hv => ?_⟩ <;>
    rcases update_eq_some hv with ⟨he, ho⟩ | ⟨_, hv⟩
  · exact hquiet y ho
  · exact h.quiet v y hv
  · exact henabled ho
  · exact h.enabled hv
  · exact hmade he.symm task ho
  · exact h.made task hv

theorem Later.next {a : Action Tid (Op F)} (h : Later c t c₁) (ha : Switchless c₁ a)
    (hn : (system F Tid).next c₁ a = some c₂) : Later c t c₂ := by
  cases a with
  | call u op =>
    obtain ⟨_, _, rfl⟩ := Object.next_call hn
    cases op with
    | setTraceSink => cases ha
    | makeTraceableTask =>
      refine h.move (fun y hy => ?_) (fun hy => ?_) fun _ task hy => ?_ <;> cases hy
      rfl
  | ret u =>
    obtain ⟨_, _, _, _, rfl⟩ := Object.next_ret hn
    refine h.move (fun y hy => ?_) (fun hy => ?_) fun _ task hy => ?_ <;> cases hy
  | step u b =>
    obtain ⟨x, hx, hr, rfl⟩ := Object.next_step hn
    have hidle := h.quiet u x hx
    cases x with
    | makeLoadEnabled =>
      show Later c t ⟨c₁.shared, Function.update c₁.locals u (some
        (if c₁.shared.trace_enabled then .makeLoadSink else .made .untraced))⟩
      rw [h.shared]
      by_cases hon : c.shared.trace_enabled = true
      · rw [if_pos hon, ← h.shared]
        refine h.move (fun y hy => ?_) (fun _ => hon) fun _ task hy => ?_ <;> cases hy
        rfl
      · rw [if_neg hon, ← h.shared]
        refine h.move (fun y hy => ?_) (fun hy => ?_) fun _ task hy => ?_ <;> cases hy
        · rfl
        · unfold submission
          rw [if_neg hon]
    | makeLoadSink =>
      refine h.move (fun y hy => ?_) (fun hy => ?_) fun hut task hy => ?_ <;> cases hy
      · rfl
      · unfold submission
        rw [if_pos (h.enabled (hut ▸ hx)), h.shared]
    | made => cases hr
    | _ => cases hidle

end Later

/-- **Switching the sink is safe and quiescently consistent.** The pointer that a task captures is not
null, and its function not empty. Its sink is the argument of a call that had begun when the pointer
was loaded. When all calls have returned, later submissions capture the setting of a call that no call
followed, or nothing if there was none. -/
theorem switches_settle [DecidableEq Tid] (c : Config Tid (Shared F) (Local F))
    (hc : (system F Tid).Reachable (initial F Tid) c) :
    (∀ t sink, c.locals t = some (.made (.traced sink)) → ∃ p f, sink = some p ∧
      p.function = some f) ∧
    (∀ t b c', c.locals t = some .makeLoadSink → (system F Tid).next c (.step t b) = some c' →
      ∀ sink, c'.locals t = some (.made (.traced sink)) → ∃ k call f,
        c.shared.calls[k]? = some call ∧ call.sink = some f ∧ sink = some ⟨k, some f⟩) ∧
    (Quiet c.locals → ∀ t, c.locals t = none → ∀ c', (system F Tid).Reach Switchless c c' →
      ∀ task, c'.locals t = some (.made task) →
        (c.shared.calls = [] ∧ task = .untraced) ∨ ∃ k call, c.shared.calls[k]? = some call ∧
          (∀ j, ¬ c.shared.Follows j k) ∧ task = traceable (pointer k call.sink)) := by
  have hinv : Inv c.shared c.locals := Object.Inductive.reachable inv_inductive inv_init hc
  refine ⟨fun t sink ht => ?_, fun t b c' ht hn sink hsink => ?_,
    fun hquiet t ht c' hc' task htask => ?_⟩
  · obtain ⟨k, f, rfl, _⟩ := hinv.stage t _ ht
    exact ⟨⟨k, some f⟩, f, rfl, rfl⟩
  · obtain ⟨x, hx, _, rfl⟩ := Object.next_step hn
    obtain rfl := Option.some.inj (ht.symm.trans hx)
    dsimp only at hsink
    rw [Function.update_self] at hsink
    -- the load leaves the calls that had begun before it
    have hmade : traceable c.shared.trace_sink = .traced sink :=
      Local.made.inj (Option.some.inj hsink)
    have hstage := hinv.stage_traceable
    rw [hmade] at hstage
    obtain ⟨k, f, rfl, hk⟩ := hstage
    obtain ⟨call, hcall, hf⟩ := Option.map_eq_some_iff.mp hk
    exact ⟨k, call, f, hcall, hf, rfl⟩
  · have hlater : Later c t c' := by
      refine hc'.invariant ⟨rfl, hquiet, fun he => ?_, fun _ he => ?_⟩ fun _ _ _ h hok hn =>
        h.next hok hn
      · rw [ht] at he
        cases he
      · rw [ht] at he
        cases he
    rw [hlater.made task htask]
    refine (hinv.settled hquiet).imp_right ?_
    rintro ⟨k, sink, hk, hlast, hsub⟩
    obtain ⟨call, hcall, rfl⟩ := Option.map_eq_some_iff.mp hk
    exact ⟨k, call, hcall, hlast, hsub⟩

/-- Thread 0 installs the sink 7 while thread 1 removes the sink: `trace_enabled` ends up true, and
the pointer null. -/
def overlappingSwitches : List (Action (Fin 2) (Op ℕ)) :=
  List.flatten [[.call 0 (.setTraceSink (some 7))], Action.steps 0 2, [.call 1 (.setTraceSink none)],
    Action.steps 1 2, Action.steps 0 2, Action.steps 1 2, [.ret 0, .ret 1]]

theorem switches_settle_overlapping : ∃ c : Config (Fin 2) (Shared ℕ) (Local ℕ),
    c.shared.trace_enabled = true ∧ c.shared.trace_sink = none ∧ ∃ k call,
      c.shared.calls[k]? = some call ∧ (∀ j, ¬ c.shared.Follows j k) ∧ call.sink = none := by
  have hrun : ((system ℕ (Fin 2)).run (initial ℕ (Fin 2)) overlappingSwitches).bind (fun c =>
      ((system ℕ (Fin 2)).runWhile Switchless c (.call 0 .makeTraceableTask :: Action.steps 0 2)).map
        fun c' => (c.shared.trace_enabled && c.shared.trace_sink.isNone && c.shared.calls.length == 2,
          (c.locals 0).isNone && (c.locals 1).isNone, (c'.locals 0).bind result)) =
      some (true, true, some (some .untraced)) := by
    decide +kernel
  obtain ⟨c, hc, hlater⟩ := Option.bind_eq_some_iff.mp hrun
  obtain ⟨c', hc', he⟩ := Option.map_eq_some_iff.mp hlater
  simp only [Prod.mk.injEq, Bool.and_eq_true, beq_iff_eq, Option.isNone_iff_eq_none] at he
  obtain ⟨⟨⟨henabled, hsink⟩, hcalls⟩, ⟨hzero, hone⟩, hresult⟩ := he
  have hquiet : Quiet c.locals := by
    intro t x hx
    rcases Fin.exists_fin_two.mp ⟨t, rfl⟩ with rfl | rfl
    · rw [hzero] at hx
      cases hx
    · rw [hone] at hx
      cases hx
  obtain ⟨x, hx, hr⟩ := Option.bind_eq_some_iff.mp hresult
  have hmade : x = .made .untraced := by
    cases x <;> cases hr
    rfl
  rcases (switches_settle c (System.reachable_of_run hc)).2.2 hquiet 0 hzero c'
    (System.reach_of_runWhile hc') .untraced (hmade ▸ hx) with ⟨hnil, _⟩ | ⟨k, call, hk, hlast, hcall⟩
  · rw [hnil] at hcalls
    cases hcalls
  · refine ⟨c, henabled, hsink, k, call, hk, hlast, ?_⟩
    cases hs : call.sink with
    | none => rfl
    | some f =>
      rw [hs] at hcall
      cases hcall

end LowLatency.Pools.TraceSink
