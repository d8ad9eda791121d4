import LowLatency.Concurrency.StoreBuffer

/-!
# Rely and guarantee with store buffers

`RelyGuarantee` is a rule for programs whose operations are proved thread by thread: `Shows t m o` says
where thread `t` is when it sees the memory `m`, and `rely t m m'` what the others may do to the
memory it sees. A store is issued against what its thread sees and reaches memory when the others have
changed it; it is still the store that the operation would make there (`Owed`). So every thread sees a
memory that satisfies the invariant, and so is memory itself (`Guarded`).
-/

namespace LowLatency.Concurrency.Program

variable {Tid Op Res Mem Store Local : Type*} (P : Program Op Res Mem Store Local)

/-- Each pending store is one that an operation would make that sees the memory it will reach. -/
def Owed (shows : Mem → Option Local → Prop) : Mem → List Store → Prop
  | _, [] => True
  | m, st :: buf =>
    (∃ x f, shows m (some x) ∧ P.result x = none ∧ P.instr x = .store f ∧ (f m).1 = st) ∧
      Owed shows (P.apply m st) buf

/-- What is to be shown of each instruction: it keeps the invariant and the place of its thread, and
does nothing on which another thread relies. -/
structure RelyGuarantee (may : Tid → Op → Bool) (I : Mem → Prop)
    (Shows : Tid → Mem → Option Local → Prop) (rely : Tid → Mem → Mem → Prop) : Prop where
  call : ∀ {t m op}, I m → Shows t m none → may t op = true → Shows t m (some (P.start op))
  load : ∀ {t m x f}, I m → Shows t m (some x) → P.result x = none → P.instr x = .load f →
    Shows t m (some (f m))
  store : ∀ {t m x f}, I m → Shows t m (some x) → P.result x = none → P.instr x = .store f →
    I (P.apply m (f m).1) ∧ Shows t (P.apply m (f m).1) (some (f m).2) ∧
      ∀ u, u ≠ t → rely u m (P.apply m (f m).1)
  locked : ∀ {t m x f}, I m → Shows t m (some x) → P.result x = none → P.instr x = .locked f →
    I (f m).1 ∧ Shows t (f m).1 (some (f m).2) ∧ ∀ u, u ≠ t → rely u m (f m).1
  ret : ∀ {t m x r}, I m → Shows t m (some x) → P.result x = some r → Shows t m none
  /-- The others leave a thread where it is. -/
  stable : ∀ {t m m' o}, I m → I m' → rely t m m' → Shows t m o → Shows t m' o
  /-- And it makes the same store. -/
  store_stable : ∀ {t m m' x f}, I m → I m' → rely t m m' → Shows t m (some x) →
    P.result x = none → P.instr x = .store f →
    (f m').1 = (f m).1 ∧ rely t (P.apply m (f m).1) (P.apply m' (f m).1)

/-- Memory and what the threads see of it satisfy the invariant, and every thread is where it shows. -/
structure Guarded (I : Mem → Prop) (Shows : Tid → Mem → Option Local → Prop) (m : Mem)
    (p : Tid → List Store) (l : Tid → Option Local) : Prop where
  inv : I m
  owed : ∀ t, P.Owed (Shows t) m (p t)
  shown : ∀ t, Shows t (P.view m (p t)) (l t)

variable {P} {may : Tid → Op → Bool} {I : Mem → Prop} {Shows : Tid → Mem → Option Local → Prop}
  {rely : Tid → Mem → Mem → Prop}

namespace RelyGuarantee

variable {t : Tid} {m m' : Mem} {buf : List Store}

/-- What a thread sees satisfies the invariant. -/
theorem view (h : P.RelyGuarantee may I Shows rely) (hI : I m) (hbuf : P.Owed (Shows t) m buf) :
    I (P.view m buf) := by
  induction buf generalizing m with
  | nil => exact hI
  | cons st buf ih =>
    obtain ⟨⟨x, f, hx, hr, hi, rfl⟩, hbuf⟩ := hbuf
    exact ih (h.store hI hx hr hi).1 hbuf

theorem owed_concat {x : Local} {f : Mem → Store × Local} (hbuf : P.Owed (Shows t) m buf)
    (hx : Shows t (P.view m buf) (some x)) (hr : P.result x = none) (hi : P.instr x = .store f) :
    P.Owed (Shows t) m (buf ++ [(f (P.view m buf)).1]) := by
  induction buf generalizing m with
  | nil => exact ⟨⟨x, f, hx, hr, hi, rfl⟩, trivial⟩
  | cons st buf ih => exact ⟨hbuf.1, ih hbuf.2 hx⟩

/-- The others change memory: the pending stores are those that the thread would make there. -/
theorem owed_stable (h : P.RelyGuarantee may I Shows rely) (hI : I m) (hI' : I m')
    (hrely : rely t m m') (hbuf : P.Owed (Shows t) m buf) :
    P.Owed (Shows t) m' buf ∧ rely t (P.view m buf) (P.view m' buf) := by
  induction buf generalizing m m' with
  | nil => exact ⟨trivial, hrely⟩
  | cons st buf ih =>
    obtain ⟨⟨x, f, hx, hr, hi, rfl⟩, hbuf⟩ := hbuf
    obtain ⟨hsame, hrely'⟩ := h.store_stable hI hI' hrely hx hr hi
    have hx' := h.stable hI hI' hrely hx
    have hkept := (h.store hI' hx' hr hi).1
    rw [hsame] at hkept
    obtain ⟨howed, hview⟩ := ih (h.store hI hx hr hi).1 hkept hrely' hbuf
    exact ⟨⟨⟨x, f, hx', hr, hi, hsame⟩, howed⟩, hview⟩

variable {p : Tid → List Store} {l : Tid → Option Local}

theorem others (h : P.RelyGuarantee may I Shows rely) (hg : P.Guarded I Shows m p l) (hI' : I m')
    {u : Tid} (hrely : rely u m m') :
    P.Owed (Shows u) m' (p u) ∧ Shows u (P.view m' (p u)) (l u) := by
  obtain ⟨howed, hview⟩ := h.owed_stable hg.inv hI' hrely (hg.owed u)
  exact ⟨howed, h.stable (h.view hg.inv (hg.owed u)) (h.view hI' howed) hview (hg.shown u)⟩

variable [DecidableEq Tid]

theorem registers (hg : P.Guarded I Shows m p l) {o : Option Local}
    (ho : Shows t (P.view m (p t)) o) : P.Guarded I Shows m p (Function.update l t o) where
  inv := hg.inv
  owed := hg.owed
  shown u := by
    by_cases hu : u = t
    · subst hu
      rwa [Function.update_self]
    · rw [Function.update_of_ne hu]
      exact hg.shown u

theorem guarded_inductive (h : P.RelyGuarantee may I Shows rely) :
    P.Inductive may (fun _ _ _ => True) (P.Guarded I Shows) where
  call {m p l t op} hg hl hmay := by
    have hshown := hg.shown t
    rw [hl] at hshown
    exact registers hg (h.call (h.view hg.inv (hg.owed t)) hshown hmay)
  load {m p l t x f} hg hl hr hi _ := by
    have hshown := hg.shown t
    rw [hl] at hshown
    exact registers hg (h.load (h.view hg.inv (hg.owed t)) hshown hr hi)
  store {m p l t x f} hg hl hr hi _ := by
    have hshown := hg.shown t
    rw [hl] at hshown
    have hview := h.view hg.inv (hg.owed t)
    refine ⟨hg.inv, fun u => ?_, fun u => ?_⟩
    · by_cases hu : u = t
      · subst hu
        rw [Function.update_self]
        exact owed_concat (hg.owed u) hshown hr hi
      · rw [Function.update_of_ne hu]
        exact hg.owed u
    · by_cases hu : u = t
      · subst hu
        rw [Function.update_self, Function.update_self, view_concat]
        exact (h.store hview hshown hr hi).2.1
      · rw [Function.update_of_ne hu, Function.update_of_ne hu]
        exact hg.shown u
  locked {m p l t x f} hg hl hr hi hempty _ := by
    have hshown := hg.shown t
    rw [hl, hempty] at hshown
    obtain ⟨hI', hnext, hrely⟩ := h.locked hg.inv hshown hr hi
    refine ⟨hI', fun u => ?_, fun u => ?_⟩
    · by_cases hu : u = t
      · subst hu
        rw [hempty]
        trivial
      · exact (h.others hg hI' (hrely u hu)).1
    · by_cases hu : u = t
      · subst hu
        rw [Function.update_self, hempty]
        exact hnext
      · rw [Function.update_of_ne hu]
        exact (h.others hg hI' (hrely u hu)).2
  flush {m p l t st buf} hg hp := by
    have howed := hg.owed t
    have hshown := hg.shown t
    rw [hp] at howed hshown
    obtain ⟨⟨x, f, hx, hr, hi, rfl⟩, hrest⟩ := howed
    obtain ⟨hI', -, hrely⟩ := h.store hg.inv hx hr hi
    refine ⟨hI', fun u => ?_, fun u => ?_⟩
    · by_cases hu : u = t
      · subst hu
        rw [Function.update_self]
        exact hrest
      · rw [Function.update_of_ne hu]
        exact (h.others hg hI' (hrely u hu)).1
    · by_cases hu : u = t
      · subst hu
        rw [Function.update_self]
        exact hshown
      · rw [Function.update_of_ne hu]
        exact (h.others hg hI' (hrely u hu)).2
  ret {m p l t x r} hg hl hr := by
    have hshown := hg.shown t
    rw [hl] at hshown
    exact registers hg (h.ret (h.view hg.inv (hg.owed t)) hshown hr)

theorem reachable (h : P.RelyGuarantee may I Shows rely) {m₀ : Mem} (hI : I m₀)
    (hshows : ∀ t, Shows t m₀ none) {c : Config Tid Mem Store Local}
    (hr : (P.client may).Reachable (Config.new Tid Store Local m₀) c) :
    P.Guarded I Shows c.mem c.pending c.locals := by
  refine h.guarded_inductive.reachable ?_ hr
  exact ⟨hI, fun _ => trivial, hshows⟩

end RelyGuarantee

end LowLatency.Concurrency.Program
