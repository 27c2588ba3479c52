import Mathlib.Data.List.Infix

/-!
# Histories of writes

A log of writes, newest first, over a first state.  Each write is known by the states
before and after it.  The moments of the log are its suffixes: what had been written by
then.

## Main definitions

* `History.stateAt` — the state at a moment.
* `History.Chained` — each write starts from the state that the one before it left.

## Main results

* `History.observe_eq` — **what no write between two moments changes is the same at both.**
-/

namespace History

variable {σ ω : Type*} {before after : ω → σ} {s₀ : σ} {ws ws' : List ω}

/-- The state when the writes of a log have been made. -/
def stateAt (after : ω → σ) (s₀ : σ) : List ω → σ
  | [] => s₀
  | w :: _ => after w

/-- Each write starts from the state that the one before it left. -/
def Chained (before after : ω → σ) (s₀ : σ) : List ω → Prop
  | [] => True
  | w :: ws => before w = stateAt after s₀ ws ∧ Chained before after s₀ ws

section Map

variable {τ : Type*} (g : σ → τ)

/-- What is seen of the state of a log. -/
theorem stateAt_map (after : ω → σ) (s₀ : σ) (ws : List ω) :
    stateAt (fun w => g (after w)) (g s₀) ws = g (stateAt after s₀ ws) := by
  cases ws <;> rfl

/-- What is seen of the writes of a chained log is chained. -/
theorem Chained.map (h : Chained before after s₀ ws) :
    Chained (fun w => g (before w)) (fun w => g (after w)) (g s₀) ws := by
  induction ws with
  | nil => trivial
  | cons w ws ih =>
    refine ⟨?_, ih h.2⟩
    rw [stateAt_map]
    exact congrArg g h.1

end Map

/-- What had been written at a moment of a chained log is chained. -/
theorem Chained.of_suffix (h : Chained before after s₀ ws) (hs : ws' <:+ ws) :
    Chained before after s₀ ws' := by
  induction ws with
  | nil =>
    rw [List.suffix_nil.mp hs]
    trivial
  | cons w ws ih =>
    rcases List.suffix_cons_iff.mp hs with rfl | hs
    · exact h
    · exact ih h.2 hs

/-- **What no write between two moments changes is the same at both**: induction on the
log of the later one. -/
theorem observe_eq {α : Type*} (obs : σ → α) (h : Chained before after s₀ ws) (hs : ws' <:+ ws)
    (hquiet : ∀ w older, ws' <:+ older → w :: older <:+ ws → obs (after w) = obs (before w)) :
    obs (stateAt after s₀ ws) = obs (stateAt after s₀ ws') := by
  induction ws with
  | nil => rw [List.suffix_nil.mp hs]
  | cons w ws ih =>
    rcases List.suffix_cons_iff.mp hs with rfl | hs
    · rfl
    · have hlast : obs (after w) = obs (before w) := hquiet w ws hs (List.suffix_refl _)
      have hrest := ih h.2 hs fun w' older hw' hsuffix =>
        hquiet w' older hw' (hsuffix.trans (List.suffix_cons w ws))
      rw [stateAt, hlast, h.1, hrest]

end History
