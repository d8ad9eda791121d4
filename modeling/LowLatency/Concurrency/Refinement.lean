import LowLatency.Concurrency.Object

/-!
# Runs that follow runs

When every admitted step of a system is answered by a run of another one, so is every run
(`Reach.follow`). The answers are put together from single actions of a client system.
-/

namespace LowLatency.Concurrency

theorem System.Reach.follow {σ A σ' A' : Type*} {S : System σ A} {T : System σ' A'}
    {ok : σ → A → Prop} {ok' : σ' → A' → Prop} {Rel : σ → σ' → Prop} {s₀ s : σ} {d₀ : σ'}
    (h : S.Reach ok s₀ s) (h0 : Rel s₀ d₀)
    (hstep : ∀ s a s' d, Rel s d → ok s a → S.next s a = some s' →
      ∃ d', T.Reach ok' d d' ∧ Rel s' d') : ∃ d, T.Reach ok' d₀ d ∧ Rel s d := by
  induction h with
  | refl => exact ⟨d₀, System.Reach.refl, h0⟩
  | tail _ hs ih =>
    obtain ⟨a, hok, hn⟩ := hs
    obtain ⟨d, hd, hrel⟩ := ih
    obtain ⟨d', hd', hrel'⟩ := hstep _ a _ d hrel hok hn
    exact ⟨d', hd.trans hd', hrel'⟩

namespace Object

variable {Tid Op Res Shared Local : Type*} [DecidableEq Tid] {O : Object Op Res Shared Local}
  {may : Tid → Op → Bool} {ok : Config Tid Shared Local → Action Tid Op → Prop}
  {c : Config Tid Shared Local} {t : Tid} {x : Local}

theorem reach_call {op : Op} (hl : c.locals t = none) (hm : may t op = true)
    (hok : ok c (.call t op)) : (O.client may).Reach ok c
      { c with locals := Function.update c.locals t (some (O.start op)) } := by
  refine System.Reach.refl.tail hok ?_
  simp only [client, hl, hm, if_true]

theorem reach_step (b : Bool) (hl : c.locals t = some x) (hr : O.result x = none)
    (hok : ok c (.step t b)) : (O.client may).Reach ok c
      ⟨(O.step b c.shared x).1, Function.update c.locals t (some (O.step b c.shared x).2)⟩ := by
  refine System.Reach.refl.tail hok ?_
  simp only [client, hl, hr]

theorem reach_ret {r : Res} (hl : c.locals t = some x) (hr : O.result x = some r)
    (hok : ok c (.ret t)) : (O.client may).Reach ok c
      { c with locals := Function.update c.locals t none } := by
  refine System.Reach.refl.tail hok ?_
  simp only [client, hl, hr]

end Object

end LowLatency.Concurrency
