import LowLatency.Concurrency.Refinement
import LowLatency.LockFreeQueue.StoreBuffer

/-!
# The queue keeps its order under x86-TSO

Every instruction of a thread and every store that reaches memory is answered by the thread's two
counterparts with stores that take effect at once (`Sim`). Thus the queue stays a FIFO, and a thread
that has claimed a slot has it for itself until its stores to it have reached memory (`Agrees`).
-/

namespace LowLatency.LockFreeQueue

open Concurrency

variable {α Tid : Type*} [Inhabited α]

/-- The memory is the same, and every thread's two operations follow its one. -/
structure Sim (r : Ring) (c : Program.Config Tid (Shared α) (Store α) (Local α))
    (d : Config (Tid × Bool) (Shared α) (Local α)) : Prop where
  shared : d.shared = c.mem
  follows : ∀ t, ∃ b, Follows r c.mem (c.locals t) (c.pending t) (d.locals (t, b)) (d.locals (t, !b))
  inv : Inv r d.shared d.locals

section Sim

variable [DecidableEq Tid] {r : Ring} {c c' : Program.Config Tid (Shared α) (Store α) (Local α)}
  {d d' : Config (Tid × Bool) (Shared α) (Local α)} {t : Tid}

theorem Inv.follow (h : Inv r d.shared d.locals) (h2 : 2 ≤ r.size)
    (hreach : (system (Tid × Bool) .u64 r).Reach (Signed r) d d') : Inv r d'.shared d'.locals := by
  refine (inv_inductive Word.u64_sound h2).reach h (hreach.mono fun e a hok => ?_)
  cases a with
  | step u b =>
    intro x _ n hn
    have hok : e.shared.tail + r.size < 2 ^ 63 := hok
    show n < 2 ^ 64
    omega
  | call | ret => trivial

/-- What one thread does; `d'` is what its counterparts come to. -/
theorem Sim.move (h : Sim r c d) (h2 : 2 ≤ r.size)
    (hreach : (system (Tid × Bool) .u64 r).Reach (Signed r) d d') (hshared : d'.shared = c'.mem)
    (hc : ∀ u, u ≠ t → c'.locals u = c.locals u ∧ c'.pending u = c.pending u)
    (hd : ∀ u b, u ≠ t → d'.locals (u, b) = d.locals (u, b))
    (hdata : ∀ u b z p, u ≠ t → d.locals (u, b) = some z → z.claimed = some p →
      c'.mem.data (r.slot p) = c.mem.data (r.slot p))
    (hclaims : ∀ e ∈ c.mem.pushClaims, e ∈ c'.mem.pushClaims)
    (ht : ∃ b, Follows r c'.mem (c'.locals t) (c'.pending t) (d'.locals (t, b))
      (d'.locals (t, !b))) : Sim r c' d' where
  shared := hshared
  inv := h.inv.follow h2 hreach
  follows u := by
    by_cases hu : u = t
    · subst hu
      exact ht
    · obtain ⟨b, hb⟩ := h.follows u
      refine ⟨b, ?_⟩
      rw [(hc u hu).1, (hc u hu).2, hd u b hu, hd u _ hu]
      exact hb.mono (fun z p hz hp => hdata u b z p hu hz hp)
        (fun z p hz hp => hdata u _ z p hu hz hp) hclaims

omit [Inhabited α] [DecidableEq Tid] in
theorem other_ne (t : Tid) (b : Bool) : (t, !b) ≠ (t, b) := fun he => by
  simpa using congrArg Prod.snd he

/-- Only the thread's own registers and its own buffer change. -/
theorem Sim.stay (h : Sim r c d) (h2 : 2 ≤ r.size) {o : Option (Local α)} {l : List (Store α)}
    {b : Bool}
    (hb : Follows r c.mem o l (d.locals (t, b)) (d.locals (t, !b))) :
    Sim r ⟨c.mem, Function.update c.pending t l, Function.update c.locals t o⟩ d := by
  refine h.move (t := t) h2 System.Reach.refl h.shared (fun u hu => ?_) (fun _ _ _ => rfl)
    (fun _ _ _ _ _ _ _ => rfl) (fun _ he => he) ⟨b, ?_⟩
  · exact ⟨Function.update_of_ne hu .., Function.update_of_ne hu ..⟩
  · simp only [Function.update_self]
    exact hb

/-- The counterpart moves on as well; the slots of the other threads keep their data. -/
theorem Sim.step (h : Sim r c d) (h2 : 2 ≤ r.size) (hfit : c.mem.tail + r.size < 2 ^ 63)
    {u : Bool} {z : Local α} (hz : d.locals (t, u) = some z) (hr : result z = none)
    {m : Shared α} {z' : Local α} (hs : LockFreeQueue.step .u64 r false c.mem z = (m, z'))
    (hdata : ∀ v b x p, v ≠ t → d.locals (v, b) = some x → x.claimed = some p →
      m.data (r.slot p) = c.mem.data (r.slot p))
    (hclaims : ∀ e ∈ c.mem.pushClaims, e ∈ m.pushClaims)
    {o : Option (Local α)} {l : List (Store α)} {b : Bool}
    (hb : Follows r m o l (Function.update d.locals (t, u) (some z') (t, b))
      (Function.update d.locals (t, u) (some z') (t, !b))) :
    (system (Tid × Bool) .u64 r).Reach (Signed r) d ⟨m, Function.update d.locals (t, u) (some z')⟩ ∧
      Sim r ⟨m, Function.update c.pending t l, Function.update c.locals t o⟩
        ⟨m, Function.update d.locals (t, u) (some z')⟩ := by
  have hshared := h.shared
  have hs' : (object .u64 r).step false d.shared z = (m, z') := hshared ▸ hs
  have hreach : (system (Tid × Bool) .u64 r).Reach (Signed r) d
      ⟨((object .u64 r).step false d.shared z).1,
        Function.update d.locals (t, u) (some ((object .u64 r).step false d.shared z).2)⟩ :=
    Object.reach_step false hz hr (by rw [← hshared] at hfit; exact hfit)
  rw [hs'] at hreach
  refine ⟨hreach, h.move (t := t) h2 hreach rfl (fun v hv => ?_) (fun v b' hv => ?_) hdata hclaims
    ⟨b, ?_⟩⟩
  · exact ⟨Function.update_of_ne hv .., Function.update_of_ne hv ..⟩
  · exact Function.update_of_ne (fun he => hv (congrArg Prod.fst he)) ..
  · simp only [Function.update_self]
    exact hb

theorem Sim.call (h : Sim r c d) (h2 : 2 ≤ r.size) (hfit : c.mem.tail + r.size < 2 ^ 63) {op : Op α}
    (hl : c.locals t = none) : ∃ d', (system (Tid × Bool) .u64 r).Reach (Signed r) d d' ∧
      Sim r { c with locals := Function.update c.locals t (some (start op)) } d' := by
  obtain ⟨b, hb⟩ := h.follows t
  rw [hl] at hb
  generalize hx : d.locals (t, b) = x at hb
  cases hb with
  | idle howes =>
    have hreach : (system (Tid × Bool) .u64 r).Reach (Signed r) d
        { d with locals := Function.update d.locals (t, b) (some ((object .u64 r).start op)) } :=
      Object.reach_call hx rfl (by rw [← h.shared] at hfit; exact hfit)
    have hclaimed : (start op).claimed = none := by cases op <;> rfl
    have hposition : (start op).position = none := by cases op <;> rfl
    refine ⟨_, hreach, h.move (t := t) h2 hreach h.shared (fun v hv => ?_) (fun v b' hv => ?_)
      (fun _ _ _ _ _ _ _ => rfl) (fun _ he => he) ⟨b, ?_⟩⟩
    · exact ⟨Function.update_of_ne hv .., rfl⟩
    · exact Function.update_of_ne (fun he => hv (congrArg Prod.fst he)) ..
    · simp only [Function.update_self]
      rw [Function.update_of_ne (other_ne t b)]
      refine .running hclaimed howes fun z p pos _ _ hpos _ => ?_
      rw [hposition] at hpos
      cases hpos

theorem Sim.ret (h : Sim r c d) (h2 : 2 ≤ r.size) (hfit : c.mem.tail + r.size < 2 ^ 63)
    {z : Local α} {o : Outcome α} (hl : c.locals t = some z) (hr : result z = some o) :
    ∃ d', (system (Tid × Bool) .u64 r).Reach (Signed r) d d' ∧
      Sim r { c with locals := Function.update c.locals t none } d' := by
  obtain ⟨b, hb⟩ := h.follows t
  rw [hl, eq_done hr] at hb
  generalize hx : d.locals (t, b) = x at hb
  generalize hy : d.locals (t, !b) = y at hb
  generalize hbuf : c.pending t = buf at hb
  cases hb with
  | running _ howes =>
    have hreach : (system (Tid × Bool) .u64 r).Reach (Signed r) d
        { d with locals := Function.update d.locals (t, b) none } :=
      Object.reach_ret hx rfl (by rw [← h.shared] at hfit; exact hfit)
    refine ⟨_, hreach, h.move (t := t) h2 hreach h.shared (fun v hv => ?_) (fun v b' hv => ?_)
      (fun _ _ _ _ _ _ _ => rfl) (fun _ he => he) ⟨b, ?_⟩⟩
    · exact ⟨Function.update_of_ne hv .., rfl⟩
    · exact Function.update_of_ne (fun he => hv (congrArg Prod.fst he)) ..
    · simp only [Function.update_self]
      rw [Function.update_of_ne (other_ne t b), hy, hbuf]
      exact .idle howes
  | finished howes =>
    -- from now on the operation is the late one
    have hidle : Follows r c.mem none buf (d.locals (t, !b)) (d.locals (t, !!b)) := by
      rw [hy, Bool.not_not, hx]
      exact .idle howes
    have hstay := h.stay h2 hidle
    rw [← hbuf, Function.update_eq_self] at hstay
    exact ⟨d, System.Reach.refl, hstay⟩
  | claimed hc => cases hc

/-- A load that sees what its counterpart would see in memory. -/
theorem Sim.load_same (h : Sim r c d) (h2 : 2 ≤ r.size) (hfit : c.mem.tail + r.size < 2 ^ 63)
    {z : Local α} {f : Shared α → Local α} {b : Bool} (hz : d.locals (t, b) = some z)
    (hr : result z = none) (hi : instr .u64 r z = .load f)
    (howes : Owes r c.mem (d.locals (t, !b)) (c.pending t))
    (hsame : f ((program .u64 r).view c.mem (c.pending t)) = f c.mem)
    (hafter : After (d.locals (t, !b)) (f c.mem)) :
    ∃ d', (system (Tid × Bool) .u64 r).Reach (Signed r) d d' ∧ Sim r { c with
      locals := Function.update c.locals t
        (some (f ((program .u64 r).view c.mem (c.pending t)))) } d' := by
  rw [hsame]
  have hmove := h.step (o := some (f c.mem)) (l := c.pending t) (b := b) h2 hfit hz hr
    (step_load hi c.mem) (fun _ _ _ _ _ _ _ => rfl) (fun _ he => he) (by
      rw [Function.update_self, Function.update_of_ne (other_ne t b)]
      exact .running (claimed_of_load hi _) howes hafter)
  rw [Function.update_eq_self] at hmove
  exact ⟨_, hmove⟩

omit [Inhabited α] in
theorem lap {p q : ℕ} (hslot : r.slot p = r.slot q) (hlt : p < q) : p + r.size ≤ q := by
  by_contra hnear
  have heq := r.slot_inj hslot (by omega) (by omega)
  omega

theorem Good.sequence_claimed {m : Shared α} {x : Local α} {p : ℕ} (h : Good r m x)
    (hp : x.claimed = some p) : m.sequence (r.slot p) = if x.pushes then p else p + 1 := by
  cases x with
  | pushWrite | pushPublish | popRead | popPublish =>
    cases hp
    exact h.2.2.1
  | _ => cases hp

/-- A push loads the sequence number of its slot. If it is the push that may have the slot next when
the thread's own late pop has released it, then it goes ahead. -/
theorem Sim.load_push (h : Sim r c d) (h2 : 2 ≤ r.size) (hfit : c.mem.tail + r.size < 2 ^ 63)
    {item : α} {pos : ℕ} {f : Shared α → Local α}
    (hi : instr .u64 r (.pushLoadSequence item pos) = .load f) {b : Bool}
    (hz : d.locals (t, b) = some (.pushLoadSequence item pos))
    (howes : Owes r c.mem (d.locals (t, !b)) (c.pending t))
    (hafter : After (d.locals (t, !b)) (.pushLoadSequence item pos)) :
    ∃ d', (system (Tid × Bool) .u64 r).Reach (Signed r) d d' ∧ Sim r { c with
      locals := Function.update c.locals t
        (some (f ((program .u64 r).view c.mem (c.pending t)))) } d' := by
  have hordered := h.inv.ordered
  have hgood := fun u x hx => h.inv.good u x hx
  rw [h.shared] at hordered hgood
  have hpos : pos ≤ c.mem.tail := hgood _ _ hz
  have hf : ∀ s n, s.sequence (r.slot pos) = n → n < 2 ^ 63 → f s =
      if n = pos then .pushClaim item pos else if n < pos then .done (.refused item)
        else .pushLoadTail item := fun s n hs hn =>
    congrArg Prod.snd ((step_load hi s).symm.trans (step_pushLoadSequence item hs hn (by omega)))
  have hle := hordered.sequence_le pos
  have hsame : f ((program .u64 r).view c.mem (c.pending t)) = f c.mem → _ := fun hsame =>
    h.load_same h2 hfit hz rfl hi howes hsame (hafter.load_sequence hi rfl _)
  rcases howes.sequence .u64 pos with hseq | ⟨y, p, hy, hp, hslot, hseq⟩
  · exact hsame ((hf _ _ hseq (by omega)).trans (hf _ _ rfl (by omega)).symm)
  · have hmem := (hgood _ y hy).sequence_claimed hp
    have hclaim := (hgood _ y hy).claimed hordered hp
    rw [Word.u64_compares.wrap_eq (by split <;> omega)] at hseq
    rw [hslot] at hmem
    cases hk : y.pushes with
    | true =>
      rw [hk] at hseq hmem
      have hlap := lap hslot (hafter y p pos hy hp rfl hk)
      refine hsame ?_
      rw [hf _ _ hseq (by simp only [if_true]; omega), hf _ _ hmem (by simp only [if_true]; omega)]
      simp only [if_true]
      rw [if_neg (by omega), if_pos (by omega), if_neg (by omega), if_pos (by omega)]
    | false =>
      rw [hk] at hseq hmem
      simp only [Bool.false_eq_true, if_false] at hseq hmem
      by_cases hnext : p + r.size = pos
      · refine ⟨d, System.Reach.refl, ?_⟩
        rw [hf _ _ hseq (by omega), if_pos hnext]
        have hstay := h.stay (o := some (.pushClaim item pos)) (b := b) (l := c.pending t) h2 (by
          rw [hz, hy, ← hnext]
          rw [hy] at howes
          exact .pushAhead howes hp hk)
        rwa [Function.update_eq_self] at hstay
      · refine hsame ?_
        rw [hf _ _ hseq (by omega), hf _ _ hmem (by omega), if_neg hnext]
        rcases Nat.lt_or_ge p pos with hlt | hge
        · have hlap := lap hslot hlt
          rw [if_pos (by omega), if_neg (by omega), if_pos (by omega)]
        · rw [if_neg (by omega), if_neg (by omega), if_neg (by omega)]

/-- A pop loads the sequence number of its slot. If the item there is that of the thread's own late
push, then it goes ahead. -/
theorem Sim.load_pop (h : Sim r c d) (h2 : 2 ≤ r.size) (hfit : c.mem.tail + r.size < 2 ^ 63)
    {pos : ℕ} {f : Shared α → Local α}
    (hi : instr .u64 r (.popLoadSequence pos) = .load f) {b : Bool}
    (hz : d.locals (t, b) = some (.popLoadSequence pos))
    (howes : Owes r c.mem (d.locals (t, !b)) (c.pending t))
    (hafter : After (d.locals (t, !b)) (.popLoadSequence pos)) :
    ∃ d', (system (Tid × Bool) .u64 r).Reach (Signed r) d d' ∧ Sim r { c with
      locals := Function.update c.locals t
        (some (f ((program .u64 r).view c.mem (c.pending t)))) } d' := by
  have hordered := h.inv.ordered
  have hgood := fun u x hx => h.inv.good u x hx
  rw [h.shared] at hordered hgood
  have hpos : pos ≤ c.mem.head := hgood _ _ hz
  have hhead := hordered.head_le
  have hf : ∀ s n, s.sequence (r.slot pos) = n → n < 2 ^ 63 → f s =
      if n = pos + 1 then .popClaim pos else if n < pos + 1 then .done .nothing
        else .popLoadHead := fun s n hs hn =>
    congrArg Prod.snd ((step_load hi s).symm.trans (step_popLoadSequence hs hn (by omega)))
  have hle := hordered.sequence_le pos
  have hsame : f ((program .u64 r).view c.mem (c.pending t)) = f c.mem → _ := fun hsame =>
    h.load_same h2 hfit hz rfl hi howes hsame (hafter.load_sequence hi rfl _)
  rcases howes.sequence .u64 pos with hseq | ⟨y, p, hy, hp, hslot, hseq⟩
  · exact hsame ((hf _ _ hseq (by omega)).trans (hf _ _ rfl (by omega)).symm)
  · have hmem := (hgood _ y hy).sequence_claimed hp
    have hclaim := (hgood _ y hy).claimed hordered hp
    rw [Word.u64_compares.wrap_eq (by split <;> omega)] at hseq
    rw [hslot] at hmem
    cases hk : y.pushes with
    | true =>
      rw [hk] at hseq hmem
      simp only [if_true] at hseq hmem
      by_cases hown : p = pos
      · refine ⟨d, System.Reach.refl, ?_⟩
        rw [hf _ _ hseq (by omega), if_pos (by omega)]
        have hstay := h.stay (o := some (.popClaim pos)) (b := b) (l := c.pending t) h2 (by
          rw [hz, hy, ← hown]
          rw [hy] at howes
          exact .popAhead howes hp hk)
        rwa [Function.update_eq_self] at hstay
      · refine hsame ?_
        rw [hf _ _ hseq (by omega), hf _ _ hmem (by omega), if_neg (by omega)]
        rcases Nat.lt_or_ge p pos with hlt | hge
        · rw [if_pos (by omega), if_neg (by omega), if_pos (by omega)]
        · have hlap := lap hslot.symm (by omega)
          rw [if_neg (by omega), if_neg (by omega), if_neg (by omega)]
    | false =>
      rw [hk] at hseq hmem
      simp only [Bool.false_eq_true, if_false] at hseq hmem
      have hlap := lap hslot (hafter y p pos hy hp rfl hk)
      refine hsame ?_
      rw [hf _ _ hseq (by omega), hf _ _ hmem (by omega), if_neg (by omega), if_pos (by omega),
        if_neg (by omega), if_pos (by omega)]

theorem Sim.load (h : Sim r c d) (h2 : 2 ≤ r.size) (hfit : c.mem.tail + r.size < 2 ^ 63)
    {z : Local α} {f : Shared α → Local α} (hl : c.locals t = some z) (hr : result z = none)
    (hi : instr .u64 r z = .load f) :
    ∃ d', (system (Tid × Bool) .u64 r).Reach (Signed r) d d' ∧ Sim r { c with
      locals := Function.update c.locals t
        (some (f ((program .u64 r).view c.mem (c.pending t)))) } d' := by
  obtain ⟨b, hb⟩ := h.follows t
  have hview := view_frame .u64 r c.mem (c.pending t)
  have hgood := fun u x hx => h.inv.good u x hx
  have hclaim := fun u x p hx hp => (h.inv.good u x hx).claimed h.inv.ordered (p := p) hp
  rw [h.shared] at hgood hclaim
  rw [hl] at hb
  generalize hx : d.locals (t, b) = x at hb
  generalize hy : d.locals (t, !b) = y at hb
  generalize hbuf : c.pending t = buf at hb
  cases hb with
  | running hc howes hafter =>
    rw [← hy, ← hbuf] at howes
    rw [← hbuf]
    cases z with
    | pushLoadTail item =>
      cases hi
      refine h.load_same h2 hfit hx hr rfl howes (by rw [hview.1]) fun y' p pos hy' hp hq _ => ?_
      obtain rfl : c.mem.tail = pos := Option.some.inj hq
      exact (hclaim _ y' p hy' hp).1
    | pushLoadSequence item pos => exact h.load_push h2 hfit hi hx howes (hy ▸ hafter)
    | popLoadHead =>
      cases hi
      refine h.load_same h2 hfit hx hr rfl howes (by rw [hview.2]) fun y' p pos hy' hp hq hk => ?_
      obtain rfl : c.mem.head = pos := Option.some.inj hq
      have hg := hgood _ y' hy'
      cases y' with
      | popRead | popPublish =>
        obtain rfl := Option.some.inj hp
        exact hg.1
      | pushWrite | pushPublish => cases hk
      | _ => cases hp
    | popLoadSequence pos => exact h.load_pop h2 hfit hi hx howes (hy ▸ hafter)
    | done => cases hr
    | _ => cases hi
  | pushAhead | popAhead => cases hi
  | claimed hc =>
    cases z with
    | pushWrite | pushPublish | popRead | popPublish => cases hi
    | _ => cases hc
  | written | cleared => cases hi
  | finished => cases hr

theorem Sim.store (h : Sim r c d) (h2 : 2 ≤ r.size) {z : Local α} {f : Shared α → Store α × Local α}
    (hl : c.locals t = some z) (hi : instr .u64 r z = .store f) :
    Sim r ⟨c.mem, Function.update c.pending t (c.pending t ++
        [(f ((program .u64 r).view c.mem (c.pending t))).1]),
      Function.update c.locals t (some (f ((program .u64 r).view c.mem (c.pending t))).2)⟩ d := by
  obtain ⟨b, hb⟩ := h.follows t
  rw [hl] at hb
  refine h.stay (b := b) h2 ?_
  generalize c.pending t = buf at hb
  have hgood := fun u x hx => h.inv.good u x hx
  rw [h.shared] at hgood
  generalize hx : d.locals (t, b) = x at hb
  generalize d.locals (t, !b) = y at hb
  cases hb with
  | running hc =>
    cases z with
    | pushWrite | pushPublish | popRead | popPublish => cases hc
    | _ => cases hi
  | pushAhead | popAhead | finished => cases hi
  | claimed =>
    cases z with
    | pushWrite item pos =>
      cases hi
      exact .written item pos
    | pushPublish pos =>
      cases hi
      exact .finished (.publish pos) rfl
    | popRead pos =>
      cases hi
      exact .cleared pos _ rfl
    | popPublish pos item =>
      cases hi
      exact .finished (.release pos item) rfl
    | _ => cases hi
  | written item pos =>
    cases hi
    exact .finished (.write item pos) rfl
  | cleared pos item hitem =>
    cases hi
    refine .finished (.clear pos item hitem) ⟨item, ?_, rfl⟩
    have hclaim := (hgood _ _ hx).2.2.2
    rwa [hitem] at hclaim

/-- A locked instruction finds the buffer empty, so nothing is late. -/
theorem Sim.locked (h : Sim r c d) (h2 : 2 ≤ r.size) (hfit : c.mem.tail + r.size < 2 ^ 63)
    {z : Local α} {f : Shared α → Shared α × Local α} (hl : c.locals t = some z)
    (hr : result z = none) (hi : instr .u64 r z = .locked f) (hempty : c.pending t = []) :
    ∃ d', (system (Tid × Bool) .u64 r).Reach (Signed r) d d' ∧
      Sim r ⟨(f c.mem).1, c.pending, Function.update c.locals t (some (f c.mem).2)⟩ d' := by
  obtain ⟨b, hb⟩ := h.follows t
  rw [hl, hempty] at hb
  have hs := step_locked hi c.mem
  -- what the compare-exchange does to memory and to the registers
  have hlocked : (f c.mem).1.buffer = c.mem.buffer ∧ c.mem.pushClaims <+: (f c.mem).1.pushClaims ∧
      ((∃ p, (f c.mem).2.claimed = some p) ∨ (f c.mem).2.claimed = none) := by
    cases z with
    | pushClaim item pos =>
      cases hi
      dsimp only
      split
      · exact ⟨rfl, List.prefix_append _ _, .inl ⟨pos, rfl⟩⟩
      · exact ⟨rfl, List.prefix_refl _, .inr rfl⟩
    | popClaim pos =>
      cases hi
      dsimp only
      split
      · exact ⟨rfl, List.prefix_refl _, .inl ⟨pos, rfl⟩⟩
      · exact ⟨rfl, List.prefix_refl _, .inr rfl⟩
    | _ => cases hi
  obtain ⟨hbuffer, hclaims, hclaimed⟩ := hlocked
  generalize hx : d.locals (t, b) = x at hb
  generalize hy : d.locals (t, !b) = y at hb
  have hdata : ∀ j, (f c.mem).1.data j = c.mem.data j := fun j => by
    unfold Shared.data
    rw [hbuffer]
  have hdone : x = some z → y = none → ∃ d', (system (Tid × Bool) .u64 r).Reach (Signed r) d d' ∧
      Sim r ⟨(f c.mem).1, c.pending, Function.update c.locals t (some (f c.mem).2)⟩ d' := by
    rintro rfl rfl
    have hmove := h.step (o := some (f c.mem).2) (b := b) h2 hfit hx hr hs
      (fun _ _ _ p _ _ _ => hdata _) (fun e he => hclaims.subset he) (by
        rw [Function.update_self, Function.update_of_ne (other_ne t b), hy]
        rcases hclaimed with ⟨p, hp⟩ | hp
        · exact .claimed hp
        · exact .running hp .nothing fun _ _ _ he => by cases he)
    rw [← hempty, Function.update_eq_self] at hmove
    exact ⟨_, hmove⟩
  cases hb with
  | running hc howes => exact hdone rfl howes.nil
  | claimed hc => exact hdone rfl rfl
  | pushAhead howes => cases howes
  | popAhead howes => cases howes
  | finished => cases hr

/-! ### Stores reach memory -/

omit [DecidableEq Tid] in
/-- An operation past its claim changes the data of its own slot at most. -/
theorem step_claimed_frame {z : Local α} {p j : ℕ} (hc : z.claimed = some p) (m : Shared α)
    (hj : j ≠ r.slot p) : (step .u64 r false m z).1.data j = m.data j ∧
      (step .u64 r false m z).1.pushClaims = m.pushClaims := by
  cases z with
  | pushWrite item pos | popRead pos =>
    cases hc
    exact ⟨(Shared.setData_data ..).trans (if_neg hj), rfl⟩
  | pushPublish pos | popPublish pos item =>
    cases hc
    exact ⟨Shared.setSequence_data .., rfl⟩
  | _ => cases hc

omit [DecidableEq Tid] in
theorem Sim.data_other (h : Sim r c d) {u : Bool} {z : Local α} {p : ℕ} (hz : d.locals (t, u) = some z)
    (hp : z.claimed = some p) (v : Tid) (b : Bool) (x : Local α) (q : ℕ) (hv : v ≠ t)
    (hx : d.locals (v, b) = some x) (hq : x.claimed = some q) :
    (LockFreeQueue.step .u64 r false c.mem z).1.data (r.slot q) = c.mem.data (r.slot q) :=
  (step_claimed_frame hp c.mem
    (h.inv.slot_ne (fun he => hv (congrArg Prod.fst he).symm) hz hx hp hq)).1

omit [Inhabited α] in
theorem Owes.claims {m : Shared α} {z : Local α} {buf : List (Store α)}
    (h : Owes r m (some z) buf) : ∃ p, z.claimed = some p := by
  cases h with
  | write item pos | publish pos | clear pos | release pos => exact ⟨pos, rfl⟩

/-- What the late operation or the current one still owes reaches memory. -/
theorem Sim.flush_owed (h : Sim r c d) (h2 : 2 ≤ r.size) (hfit : c.mem.tail + r.size < 2 ^ 63)
    {u : Bool} {z : Local α} (hz : d.locals (t, u) = some z) {st : Store α} {buf : List (Store α)}
    (howes : Owes r c.mem (some z) (st :: buf)) {b : Bool}
    (hb : Follows r (st.apply .u64 r c.mem) (c.locals t) buf
      (Function.update d.locals (t, u) (some (LockFreeQueue.step .u64 r false c.mem z).2) (t, b))
      (Function.update d.locals (t, u) (some (LockFreeQueue.step .u64 r false c.mem z).2) (t, !b))) :
    ∃ d', (system (Tid × Bool) .u64 r).Reach (Signed r) d d' ∧
      Sim r { c with
        mem := st.apply .u64 r c.mem, pending := Function.update c.pending t buf } d' := by
  obtain ⟨hr, hmem, -⟩ := howes.flush .u64
  obtain ⟨p, hp⟩ := howes.claims
  have hframe := h.data_other hz hp
  rw [← hmem] at hb ⊢
  have hclaims : (LockFreeQueue.step .u64 r false c.mem z).1.pushClaims = c.mem.pushClaims :=
    (step_claimed_frame hp c.mem (Nat.succ_ne_self _)).2
  have hsub : ∀ e ∈ c.mem.pushClaims, e ∈ (LockFreeQueue.step .u64 r false c.mem z).1.pushClaims :=
    fun e he => hclaims.symm ▸ he
  have hmove := h.step h2 hfit hz hr rfl hframe hsub hb
  rw [Function.update_eq_self] at hmove
  exact ⟨_, hmove⟩

/-- The last store of the late operation reaches memory, and its counterpart returns. -/
theorem Sim.late_returns (h : Sim r c d) (hfit : c.mem.tail + r.size < 2 ^ 63)
    {u : Bool} {z : Local α} {o : Outcome α} (hz : d.locals (t, u) = some z) (hr : result z = none)
    (hdone : (LockFreeQueue.step .u64 r false c.mem z).2 = .done o)
    (htail : (LockFreeQueue.step .u64 r false c.mem z).1.tail = c.mem.tail) :
    (system (Tid × Bool) .u64 r).Reach (Signed r) d
      ⟨(LockFreeQueue.step .u64 r false c.mem z).1, Function.update d.locals (t, u) none⟩ := by
  have hshared := h.shared
  have hstep : (system (Tid × Bool) .u64 r).Reach (Signed r) d
      ⟨((object .u64 r).step false d.shared z).1,
        Function.update d.locals (t, u) (some ((object .u64 r).step false d.shared z).2)⟩ :=
    Object.reach_step false hz hr (by rw [← hshared] at hfit; exact hfit)
  have hs : (object .u64 r).step false d.shared z =
      ((LockFreeQueue.step .u64 r false c.mem z).1, .done o) := by
    rw [hshared, ← hdone]
    rfl
  rw [hs] at hstep
  have hret : (system (Tid × Bool) .u64 r).Reach (Signed r)
      ⟨(LockFreeQueue.step .u64 r false c.mem z).1, Function.update d.locals (t, u) (some (.done o))⟩
      ⟨(LockFreeQueue.step .u64 r false c.mem z).1,
        Function.update (Function.update d.locals (t, u) (some (.done o))) (t, u) none⟩ :=
    Object.reach_ret (Function.update_self ..) rfl (by
      show (LockFreeQueue.step .u64 r false c.mem z).1.tail + r.size < 2 ^ 63
      rwa [htail])
  rw [Function.update_idem] at hret
  exact hstep.trans hret

/-- A store of the late operation reaches memory. After its last one nothing is late. -/
theorem Sim.flush_late (h : Sim r c d) (h2 : 2 ≤ r.size) (hfit : c.mem.tail + r.size < 2 ^ 63)
    {b : Bool} {z : Local α} (hz : d.locals (t, !b) = some z) {st : Store α} {buf : List (Store α)}
    (howes : Owes r c.mem (some z) (st :: buf))
    (hmore : ∀ z', Owes r (st.apply .u64 r c.mem) (some z') buf → z'.claimed = z.claimed →
      z'.pushes = z.pushes →
      Follows r (st.apply .u64 r c.mem) (c.locals t) buf (d.locals (t, b)) (some z'))
    (hlast : buf = [] → ∃ d', (system (Tid × Bool) .u64 r).Reach (Signed r)
        ⟨st.apply .u64 r c.mem, Function.update d.locals (t, !b) none⟩ d' ∧
      d'.shared = st.apply .u64 r c.mem ∧ (∀ v b', v ≠ t → d'.locals (v, b') = d.locals (v, b')) ∧
      Follows r (st.apply .u64 r c.mem) (c.locals t) [] (d'.locals (t, b)) (d'.locals (t, !b))) :
    ∃ d', (system (Tid × Bool) .u64 r).Reach (Signed r) d d' ∧
      Sim r { c with
        mem := st.apply .u64 r c.mem, pending := Function.update c.pending t buf } d' := by
  obtain ⟨hr, hmem, ⟨howes', hclaimed, hpushes⟩ | ⟨rfl, o, hdone, -⟩⟩ := howes.flush .u64
  · refine h.flush_owed h2 hfit hz howes (b := b) ?_
    rw [Function.update_self, Function.update_of_ne (other_ne t b).symm]
    exact hmore _ howes' hclaimed hpushes
  · obtain ⟨p, hp⟩ := howes.claims
    have hframe := h.data_other hz hp
    have hclaims := (step_claimed_frame (r := r) hp c.mem (Nat.succ_ne_self _)).2
    have hlate := h.late_returns hfit hz hr hdone (by
      rw [hmem]
      cases st <;> rfl)
    rw [hmem] at hframe hclaims hlate
    obtain ⟨d', hreach, hshared, hothers, hfollows⟩ := hlast rfl
    refine ⟨d', hlate.trans hreach, h.move (t := t) h2 (hlate.trans hreach) hshared (fun v hv => ?_)
      hothers hframe (fun e he => hclaims.symm ▸ he) ⟨b, ?_⟩⟩
    · exact ⟨rfl, Function.update_of_ne hv ..⟩
    · simp only [Function.update_self]
      exact hfollows

theorem Sim.flush_idle (h : Sim r c d) (h2 : 2 ≤ r.size) (hfit : c.mem.tail + r.size < 2 ^ 63)
    {b : Bool} {z : Local α} (hz : d.locals (t, !b) = some z) {st : Store α} {buf : List (Store α)}
    (howes : Owes r c.mem (some z) (st :: buf))
    (hfollows : ∀ y, Owes r (st.apply .u64 r c.mem) y buf → (∀ z', y = some z' →
      z'.claimed = z.claimed ∧ z'.pushes = z.pushes) →
      Follows r (st.apply .u64 r c.mem) (c.locals t) buf (d.locals (t, b)) y) :
    ∃ d', (system (Tid × Bool) .u64 r).Reach (Signed r) d d' ∧
      Sim r { c with
        mem := st.apply .u64 r c.mem, pending := Function.update c.pending t buf } d' := by
  refine h.flush_late h2 hfit hz howes (fun z' hz' hc hp => hfollows _ hz' ?_) fun hnil => ?_
  · rintro _ ⟨⟩
    exact ⟨hc, hp⟩
  · subst hnil
    refine ⟨_, System.Reach.refl, rfl, fun v b' hv => ?_, ?_⟩
    · exact Function.update_of_ne (fun he => hv (congrArg Prod.fst he)) ..
    · dsimp only
      rw [Function.update_self, Function.update_of_ne (other_ne t b).symm]
      exact hfollows none .nothing fun _ he => by cases he

/-- The current operation has run ahead; now its counterpart loads the sequence number as well. -/
theorem reach_loaded {m : Shared α} {l : Tid × Bool → Option (Local α)} {u u' : Tid × Bool}
    (hne : u ≠ u') {x x' : Local α} (hfit : m.tail + r.size < 2 ^ 63) (hx : l u = some x) (hr : result x = none)
    (hs : step .u64 r false m x = (m, x')) :
    (system (Tid × Bool) .u64 r).Reach (Signed r) ⟨m, Function.update l u' none⟩
      ⟨m, Function.update (Function.update l u' none) u (some x')⟩ := by
  have hstep : (system (Tid × Bool) .u64 r).Reach (Signed r) ⟨m, Function.update l u' none⟩
      ⟨((object .u64 r).step false m x).1, Function.update (Function.update l u' none) u
        (some ((object .u64 r).step false m x).2)⟩ :=
    Object.reach_step false ((Function.update_of_ne hne ..).trans hx) hr hfit
  have hs' : (object .u64 r).step false m x = (m, x') := hs
  rwa [hs'] at hstep

theorem Sim.flush_ahead (h : Sim r c d) (h2 : 2 ≤ r.size) (hfit : c.mem.tail + r.size < 2 ^ 63)
    {b : Bool} {x x' z : Local α} (hx : d.locals (t, b) = some x) (hz : d.locals (t, !b) = some z)
    {st : Store α} {buf : List (Store α)} (howes : Owes r c.mem (some z) (st :: buf))
    (hr : result x = none) (hunclaimed : x'.claimed = none)
    (hloads : buf = [] →
      LockFreeQueue.step .u64 r false (st.apply .u64 r c.mem) x = (st.apply .u64 r c.mem, x'))
    (hl : c.locals t = some x')
    (hmore : ∀ z', Owes r (st.apply .u64 r c.mem) (some z') buf → z'.claimed = z.claimed →
      z'.pushes = z.pushes → Follows r (st.apply .u64 r c.mem) (some x') buf (some x) (some z')) :
    ∃ d', (system (Tid × Bool) .u64 r).Reach (Signed r) d d' ∧
      Sim r { c with
        mem := st.apply .u64 r c.mem, pending := Function.update c.pending t buf } d' := by
  refine h.flush_late h2 hfit hz howes (fun z' hz' hc hp => ?_) fun hnil => ?_
  · rw [hl, hx]
    exact hmore z' hz' hc hp
  · have htail : (st.apply .u64 r c.mem).tail = c.mem.tail := by cases st <;> rfl
    refine ⟨_, reach_loaded (other_ne t b).symm (by rwa [htail]) hx hr (hloads hnil), rfl,
      fun v b' hv => ?_, ?_⟩
    · have hne : ∀ u : Bool, (v, b') ≠ (t, u) := fun u he => hv (congrArg Prod.fst he)
      dsimp only
      rw [Function.update_of_ne (hne b), Function.update_of_ne (hne !b)]
    · dsimp only
      rw [Function.update_self, Function.update_of_ne (other_ne t b), Function.update_self, hl]
      exact .running hunclaimed .nothing fun _ _ _ he => by cases he

theorem Sim.flush (h : Sim r c d) (h2 : 2 ≤ r.size) (hfit : c.mem.tail + r.size < 2 ^ 63)
    {st : Store α} {buf : List (Store α)} (hbuf : c.pending t = st :: buf) :
    ∃ d', (system (Tid × Bool) .u64 r).Reach (Signed r) d d' ∧
      Sim r { c with
        mem := st.apply .u64 r c.mem, pending := Function.update c.pending t buf } d' := by
  obtain ⟨b, hb⟩ := h.follows t
  rw [hbuf] at hb
  have hgood := fun u x hx => h.inv.good u x hx
  have hclaim := fun u x p hx hp => (h.inv.good u x hx).claimed h.inv.ordered (p := p) hp
  rw [h.shared] at hgood hclaim
  generalize hl : c.locals t = o at hb
  generalize hx : d.locals (t, b) = x at hb
  generalize hy : d.locals (t, !b) = y at hb
  cases hb with
  | idle howes =>
    obtain ⟨z, rfl⟩ := howes.exists_of_cons
    refine h.flush_idle h2 hfit hy howes fun y' hy' _ => ?_
    rw [hl, hx]
    exact .idle hy'
  | running hc howes hafter =>
    obtain ⟨z, rfl⟩ := howes.exists_of_cons
    refine h.flush_idle h2 hfit hy howes fun y' hy' hsame => ?_
    rw [hl, hx]
    refine .running hc hy' ?_
    cases y' with
    | none => exact fun _ _ _ he => by cases he
    | some z' => exact hafter.congr (hsame z' rfl).1 (hsame z' rfl).2
  | @pushAhead item p _ z howes hc hk =>
    have hp := (hclaim _ z p hy hc).1
    refine h.flush_ahead h2 hfit hx hy howes rfl rfl (fun hnil => ?_) hl fun z' hz' hc' hk' =>
      .pushAhead hz' (hc'.trans hc) (hk'.trans hk)
    subst hnil
    cases howes with
    | publish => cases hk
    | release pos item' =>
      obtain rfl : pos = p := Option.some.inj hc
      refine (step_pushLoadSequence item (n := pos + r.size) ?_ (by omega) (by omega)).trans ?_
      · show ((c.mem.setSequence (r.slot pos) (Word.u64.wrap (pos + r.size))).sequence _) = _
        rw [r.slot_add_size, Shared.setSequence_sequence, if_pos rfl,
          Word.u64_compares.wrap_eq (by omega)]
      · rw [if_pos rfl]
  | @popAhead p _ z howes hc hk =>
    have hp := (hclaim _ z p hy hc).1
    refine h.flush_ahead h2 hfit hx hy howes rfl rfl (fun hnil => ?_) hl fun z' hz' hc' hk' =>
      .popAhead hz' (hc'.trans hc) (hk'.trans hk)
    subst hnil
    cases howes with
    | publish pos =>
      obtain rfl : pos = p := Option.some.inj hc
      refine (step_popLoadSequence (n := pos + 1) ?_ (by omega) (by omega)).trans ?_
      · show ((c.mem.setSequence (r.slot pos) (Word.u64.wrap (pos + 1))).sequence _) = _
        rw [Shared.setSequence_sequence, if_pos rfl, Word.u64_compares.wrap_eq (by omega)]
      · rw [if_pos rfl]
    | release => cases hk
  | written item pos =>
    have hframe := h.data_other hx rfl
    have hmove := h.step (o := some (.pushPublish pos)) (l := []) (b := b) h2 hfit hx rfl rfl hframe
      (fun _ he => he) (by
        rw [Function.update_self, Function.update_of_ne (other_ne t b), hy]
        exact .claimed rfl)
    rw [← hl, Function.update_eq_self] at hmove
    exact ⟨_, hmove⟩
  | cleared pos item hitem =>
    have hframe := h.data_other hx rfl
    have hmove := h.step (o := some (.popPublish pos item)) (l := []) (b := b) h2 hfit hx rfl rfl hframe
      (fun _ he => he) (by
        rw [Function.update_self, Function.update_of_ne (other_ne t b), hy, hitem]
        exact .claimed rfl)
    rw [← hl, Function.update_eq_self] at hmove
    exact ⟨_, hmove⟩
  | @finished o z _ howes hstage =>
    refine h.flush_owed h2 hfit hx howes (b := b) ?_
    rw [Function.update_self, Function.update_of_ne (other_ne t b), hl, hy]
    obtain ⟨-, hmem, ⟨howes', hclaimed, hpushes⟩ | ⟨rfl, o', hdone, hsettled⟩⟩ := howes.flush .u64
    · refine .finished howes' ?_
      cases howes with
      | write | publish | release => exact hstage
      | clear pos item hitem =>
        obtain ⟨item', hitem', hgot⟩ := hstage
        have hclaim := (hgood _ _ hx).2.2.2
        have hordered := h.inv.ordered
        rw [h.shared] at hordered
        rw [hgot, hordered.eq_of_mem hitem' hclaim]
        rfl
    · obtain rfl : o = o' := by simpa using hsettled _ hstage
      rw [hdone]
      exact .running rfl .nothing fun _ _ _ he => by cases he

/-! ## Runs -/

/-- The steps taken while the positions and the sequence numbers fit the signed comparison. -/
def SignedMemory (r : Ring) (c : Program.Config Tid (Shared α) (Store α) (Local α))
    (_ : Program.Action Tid (Op α)) : Prop :=
  c.mem.tail + r.size < 2 ^ 63

instance (c : Program.Config Tid (Shared α) (Store α) (Local α)) (a : Program.Action Tid (Op α)) :
    Decidable (SignedMemory r c a) := by
  unfold SignedMemory
  infer_instance

theorem Sim.next (h : Sim r c d) (h2 : 2 ≤ r.size) {a : Program.Action Tid (Op α)}
    (hfit : SignedMemory r c a)
    (hn : ((program .u64 r).client fun _ _ => true).next c a = some c') :
    ∃ d', (system (Tid × Bool) .u64 r).Reach (Signed r) d d' ∧ Sim r c' d' := by
  cases a with
  | call t op =>
    obtain ⟨hl, -, rfl⟩ := Program.next_call hn
    exact h.call h2 hfit hl
  | step t =>
    obtain ⟨z, hl, hr, ⟨f, hi, rfl⟩ | ⟨f, hi, rfl⟩ | ⟨f, hi, hempty, rfl⟩⟩ := Program.next_step hn
    · exact h.load h2 hfit hl hr hi
    · exact ⟨d, System.Reach.refl, h.store h2 hl hi⟩
    · exact h.locked h2 hfit hl hr hi hempty
  | flush t =>
    obtain ⟨st, buf, hbuf, rfl⟩ := Program.next_flush hn
    exact h.flush h2 hfit hbuf
  | ret t =>
    obtain ⟨z, o, hl, hr, rfl⟩ := Program.next_ret hn
    exact h.ret h2 hfit hl hr

omit [DecidableEq Tid] in
theorem sim_initial (r : Ring) : Sim r (Program.Config.new Tid (Store α) (Local α) init)
    (initial (Tid × Bool)) where
  shared := rfl
  follows _ := ⟨false, .idle .nothing⟩
  inv := inv_init r

end Sim

/-! ## What the threads can rely on -/

/-- The position of a stored slot. -/
def Store.position : Store α → ℕ
  | .write pos _ | .publish pos | .clear pos | .release pos _ => pos

/-- A thread has claimed the position, and its stores to the slot have not all reached memory. -/
def Holds (c : Program.Config Tid (Shared α) (Store α) (Local α)) (t : Tid) (p : ℕ) : Prop :=
  (∃ x, c.locals t = some x ∧ x.claimed = some p) ∨ ∃ st ∈ c.pending t, st.position = p

section Holds

variable {r : Ring} {m : Shared α} {o x y : Option (Local α)} {buf : List (Store α)}

omit [Inhabited α] in
theorem Owes.position {st : Store α} (h : Owes r m y buf) (hst : st ∈ buf) :
    ∃ z, y = some z ∧ z.claimed = some st.position := by
  cases h with
  | nothing => cases hst
  | publish | release =>
    obtain rfl := List.mem_singleton.mp hst
    exact ⟨_, rfl, rfl⟩
  | write | clear =>
    refine ⟨_, rfl, ?_⟩
    rcases List.mem_pair.mp hst with rfl | rfl <;> rfl

omit [Inhabited α] in
/-- One of the two counterparts has claimed what the thread holds. -/
theorem Follows.holds {p : ℕ} (h : Follows r m o buf x y)
    (hp : (∃ z, o = some z ∧ z.claimed = some p) ∨ ∃ st ∈ buf, st.position = p) :
    ∃ z, (x = some z ∨ y = some z) ∧ z.claimed = some p := by
  cases h with
  | idle howes =>
    obtain ⟨_, h, _⟩ | ⟨st, hst, rfl⟩ := hp
    · cases h
    · obtain ⟨z, hz, hc⟩ := howes.position hst
      exact ⟨z, .inr hz, hc⟩
  | running hfree howes =>
    obtain ⟨_, ⟨⟩, hc⟩ | ⟨st, hst, rfl⟩ := hp
    · rw [hfree] at hc
      cases hc
    · obtain ⟨z, hz, hc⟩ := howes.position hst
      exact ⟨z, .inr hz, hc⟩
  | pushAhead howes | popAhead howes =>
    obtain ⟨_, ⟨⟩, hc⟩ | ⟨st, hst, rfl⟩ := hp
    · cases hc
    · obtain ⟨z, hz, hc⟩ := howes.position hst
      exact ⟨z, .inr hz, hc⟩
  | claimed hc =>
    obtain ⟨z, hz, hp⟩ | ⟨st, hst, _⟩ := hp
    · exact ⟨z, .inl hz, hp⟩
    · cases hst
  | written item pos =>
    obtain ⟨_, ⟨⟩, hc⟩ | ⟨st, hst, rfl⟩ := hp
    · exact ⟨_, .inl rfl, hc⟩
    · obtain rfl := List.mem_singleton.mp hst
      exact ⟨_, .inl rfl, rfl⟩
  | cleared pos item =>
    obtain ⟨_, ⟨⟩, hc⟩ | ⟨st, hst, rfl⟩ := hp
    · exact ⟨_, .inl rfl, hc⟩
    · obtain rfl := List.mem_singleton.mp hst
      exact ⟨_, .inl rfl, rfl⟩
  | finished howes =>
    obtain ⟨_, ⟨⟩, hc⟩ | ⟨st, hst, rfl⟩ := hp
    · cases hc
    · obtain ⟨z, hz, hc⟩ := howes.position hst
      exact ⟨z, .inl hz, hc⟩

omit [Inhabited α] in
/-- What an operation returns is what one of its counterparts has come to. -/
theorem Follows.result {g : Outcome α} (h : Follows r m (some (.done g)) buf x y) :
    ∃ z, (x = some z ∨ y = some z) ∧ AtStage m z (.settled g) := by
  cases h with
  | running => exact ⟨_, .inl rfl, rfl⟩
  | claimed hc => cases hc
  | finished _ hstage => exact ⟨_, .inl rfl, hstage⟩

end Holds

/-- A run `d` with stores that take effect at once has the memory of `c`. -/
structure Agrees (r : Ring) (c : Program.Config Tid (Shared α) (Store α) (Local α))
    (d : Config (Tid × Bool) (Shared α) (Local α)) : Prop where
  shared : d.shared = c.mem
  fifo : Fifo r d
  /-- An operation of `c` that is done has the outcome of one in `d` that has taken effect. -/
  results : ∀ t g, c.locals t = some (.done g) →
    ∃ b x, d.locals (t, b) = some x ∧ AtStage d.shared x (.settled g)
  /-- Two threads do not hold the same slot. -/
  exclusive : ∀ t u p q, t ≠ u → Holds c t p → Holds c u q → r.slot p ≠ r.slot q

theorem Sim.agrees {r : Ring} {c : Program.Config Tid (Shared α) (Store α) (Local α)}
    {d : Config (Tid × Bool) (Shared α) (Local α)} (h : Sim r c d) : Agrees r c d where
  shared := h.shared
  fifo := h.inv.toFifo
  results t g hl := by
    obtain ⟨b, hb⟩ := h.follows t
    rw [hl] at hb
    rw [h.shared]
    obtain ⟨z, hx | hy, hz⟩ := hb.result
    · exact ⟨b, z, hx, hz⟩
    · exact ⟨!b, z, hy, hz⟩
  exclusive t u p q htu hp hq := by
    have hclaimed : ∀ v n, Holds c v n → ∃ b z, d.locals (v, b) = some z ∧ z.claimed = some n := by
      intro v n hv
      obtain ⟨b, hb⟩ := h.follows v
      obtain ⟨z, hx | hy, hz⟩ := hb.holds hv
      · exact ⟨b, z, hx, hz⟩
      · exact ⟨!b, z, hy, hz⟩
    obtain ⟨b, z, hz, hp⟩ := hclaimed t p hp
    obtain ⟨b', z', hz', hq⟩ := hclaimed u q hq
    exact h.inv.slot_ne (fun he => htu (congrArg Prod.fst he).symm) hz' hz hq hp

/-- **The queue under x86-TSO.** For every ring of at least two slots, any number of threads and any
delays of their stores, memory is that of a run with stores that take effect at once. -/
theorem tso_agrees [DecidableEq Tid] (r : Ring) (h2 : 2 ≤ r.size)
    (c : Program.Config Tid (Shared α) (Store α) (Local α))
    (h : ((program .u64 r).client fun _ _ => true).Reach (SignedMemory r)
      (Program.Config.new Tid (Store α) (Local α) init) c) :
    ∃ d, (system (Tid × Bool) .u64 r).Reach (Signed r) (initial (Tid × Bool)) d ∧ Agrees r c d := by
  obtain ⟨d, hd, hsim⟩ := System.Reach.follow h (sim_initial r) fun c a c' d hsim hok hn =>
    hsim.next h2 hok hn
  exact ⟨d, hd, hsim.agrees⟩

/-- The push of thread 0 has returned, but its stores have not reached memory: a pop that starts now
finds nothing. -/
def popBesideStores : List (Program.Action (Fin 2) (Op ℕ)) :=
  List.flatten [[.call 0 (.push 7)], Program.Action.steps 0 5, [.ret 0, .call 1 .pop],
    Program.Action.steps 1 2]

theorem tso_agrees_popBesideStores :
    ∃ c : Program.Config (Fin 2) (Shared ℕ) (Store ℕ) (Local ℕ),
      (c.locals 1).bind result = some .nothing ∧ c.mem.pushClaims = [(0, 7)] ∧
        (c.pending 0).length = 2 ∧
        ∃ d, (system (Fin 2 × Bool) .u64 Ring.two).Reach (Signed Ring.two) (initial (Fin 2 × Bool)) d ∧
          Agrees Ring.two c d := by
  have hrun : (((program .u64 Ring.two).client fun _ _ => true).runWhile (SignedMemory Ring.two)
      (Program.Config.new (Fin 2) (Store ℕ) (Local ℕ) init) popBesideStores).map
        (fun c => ((c.locals 1).bind result, c.mem.pushClaims, (c.pending 0).length)) =
      some (some .nothing, [(0, 7)], 2) := by decide +kernel
  obtain ⟨c, hc, hres⟩ := Option.map_eq_some_iff.mp hrun
  obtain ⟨hl, hrest⟩ := Prod.mk.inj hres
  obtain ⟨hpush, hlength⟩ := Prod.mk.inj hrest
  exact ⟨c, hl, hpush, hlength, tso_agrees Ring.two (by decide) c (System.reach_of_runWhile hc)⟩

end LowLatency.LockFreeQueue
