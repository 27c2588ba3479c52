import UbtExex.Lib.Stateful

/-!
# Steps that nothing shows

A relation on states says that two states look alike.  Some steps are hidden: they
succeed, and lead to a state that looks like the one before.  The others are shown:
from states that look alike they end alike.  Then two runs with the same shown steps
end alike, wherever their hidden steps are.

## Main definitions

* `EndAlike` — two runs both succeed in states that look alike, or both fail.
* `Hiding` — hidden steps and shown ones.

## Main results

* `Hiding.endAlike` — **runs with the same shown steps end alike.**
-/

namespace Stutter

open EStateM

variable {ε σ α : Type}

/-- Both runs succeed, in states that look alike, or both fail. -/
inductive EndAlike {β γ : Type} (alike : σ → σ → Prop) :
    EStateM.Result ε σ β → EStateM.Result ε σ γ → Prop
  | ok {b : β} {c : γ} {s t : σ} (h : alike s t) : EndAlike alike (.ok b s) (.ok c t)
  | error {e e' : ε} {s t : σ} : EndAlike alike (.error e s) (.error e' t)

namespace EndAlike

variable {β γ δ : Type} {alike : σ → σ → Prop} {r : EStateM.Result ε σ β}
  {r' : EStateM.Result ε σ γ} {r'' : EStateM.Result ε σ δ}

theorem symm (hsymm : ∀ s t, alike s t → alike t s) (h : EndAlike alike r r') :
    EndAlike alike r' r := by
  cases h with
  | ok h => exact .ok (hsymm _ _ h)
  | error => exact .error

theorem trans (htrans : ∀ s t u, alike s t → alike t u → alike s u) (h : EndAlike alike r r')
    (h' : EndAlike alike r' r'') : EndAlike alike r r'' := by
  cases h with
  | ok h =>
    cases h' with
    | ok h' => exact .ok (htrans _ _ _ h h')
  | error =>
    cases h' with
    | error => exact .error

/-- Two runs of which each succeeds when the other does. -/
theorem of_ok (h : ∀ b s, r = .ok b s → ∃ c t, r' = .ok c t ∧ alike s t)
    (h' : ∀ c t, r' = .ok c t → r.isOk = true) : EndAlike alike r r' := by
  cases r with
  | ok b s =>
    obtain ⟨c, t, rfl, hst⟩ := h b s rfl
    exact .ok hst
  | error e s =>
    cases r' with
    | ok c t => exact nomatch h' c t rfl
    | error e' t => exact .error

/-- If one run succeeds, so does the other. -/
theorem of_isOk (h : EndAlike alike r r') (hok : r.isOk = true) :
    r'.isOk = true ∧ alike r.state r'.state := by
  cases h with
  | ok h => exact ⟨rfl, h⟩
  | error => cases hok

/-- Two runs that go on from states that look alike. -/
theorem bind {alike' : σ → σ → Prop} {x : EStateM ε σ β} {y : EStateM ε σ γ} {f : β → EStateM ε σ δ}
    {g : γ → EStateM ε σ δ} {s t : σ} (h : EndAlike alike (x s) (y t))
    (hf : ∀ b c s' t', x s = .ok b s' → y t = .ok c t' → alike s' t' →
      EndAlike alike' (f b s') (g c t')) :
    EndAlike alike' ((x >>= f) s) ((y >>= g) t) := by
  rw [bind_apply, bind_apply]
  generalize hx : x s = r at h
  generalize hy : y t = r' at h
  cases h with
  | ok h => exact hf _ _ _ _ hx hy h
  | error => exact .error

end EndAlike

/-- States that look alike, and steps of which some are hidden.  `inv` is what every
step needs and keeps; `valid` are the steps that are considered. -/
structure Hiding (step : α → EStateM ε σ Unit) (hidden : α → Bool) (valid : α → Prop)
    (inv : σ → Prop) (alike : σ → σ → Prop) : Prop where
  symm : ∀ s t, alike s t → alike t s
  trans : ∀ s t u, alike s t → alike t u → alike s u
  kept : ∀ a s s', valid a → inv s → step a s = .ok () s' → inv s'
  /-- A hidden step succeeds, and does not show. -/
  hides : ∀ a s, valid a → hidden a = true → inv s → ∃ s', step a s = .ok () s' ∧ alike s s'
  /-- A shown step ends alike from states that look alike. -/
  shows_alike : ∀ a s t, valid a → hidden a = false → inv s → inv t → alike s t →
    EndAlike alike (step a s) (step a t)

namespace Hiding

variable {step : α → EStateM ε σ Unit} {hidden : α → Bool} {valid : α → Prop} {inv : σ → Prop}
  {alike : σ → σ → Prop}

/-- **A run ends like its shown steps alone.** -/
theorem endAlike_filter (h : Hiding step hidden valid inv alike) {as : List α}
    (has : ∀ a ∈ as, valid a) {s t : σ} (hs : inv s) (ht : inv t) (hst : alike s t) :
    EndAlike alike (as.forM step s) ((as.filter fun a => !hidden a).forM step t) := by
  induction as generalizing s t with
  | nil => exact .ok hst
  | cons a as ih =>
    obtain ⟨ha, hrest⟩ := List.forall_mem_cons.mp has
    cases hhidden : hidden a with
    | true =>
      -- the run without the step waits
      obtain ⟨s', hrun, hlike⟩ := h.hides a s ha hhidden hs
      change EndAlike alike ((step a >>= fun _ => as.forM step) s) _
      rw [List.filter_cons_of_neg (by simp [hhidden]), bind_apply, hrun]
      exact ih hrest (h.kept a s s' ha hs hrun) ht
        (h.trans s' s t (h.symm s s' hlike) hst)
    | false =>
      rw [List.filter_cons_of_pos (by simp [hhidden])]
      change EndAlike alike ((step a >>= fun _ => as.forM step) s)
        ((step a >>= fun _ => (as.filter fun a => !hidden a).forM step) t)
      refine (h.shows_alike a s t ha hhidden hs ht hst).bind fun u v s' t' hrun hrun' hlike => ?_
      exact ih hrest (h.kept a s s' ha hs hrun) (h.kept a t t' ha ht hrun') hlike

/-- **Runs with the same shown steps end alike**, from states that look alike. -/
theorem endAlike (h : Hiding step hidden valid inv alike) {as bs : List α}
    (has : ∀ a ∈ as, valid a) (hbs : ∀ b ∈ bs, valid b)
    (hshown : (as.filter fun a => !hidden a) = bs.filter fun b => !hidden b) {s t : σ}
    (hs : inv s) (ht : inv t) (hst : alike s t) :
    EndAlike alike (as.forM step s) (bs.forM step t) := by
  have hleft := h.endAlike_filter has hs ht hst
  have hright := h.endAlike_filter hbs ht ht (h.trans t s t (h.symm s t hst) hst)
  rw [hshown] at hleft
  exact hleft.trans h.trans (hright.symm h.symm)

end Hiding

end Stutter
