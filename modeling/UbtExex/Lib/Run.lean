import Mathlib.Data.List.Basic

/-!
# Runs of a labelled transition system

A run of `step : σ → ε → σ → Prop` from `s₀` is recorded newest step first, each
step by the state it started from and its label.

## Main results

* `Run.invariant` — an invariant that the steps allowed by `cond` preserve holds
  in every state of a run of such steps.
* `Run.good_iff` — **when each step from a sound state keeps a property exactly
  under a condition, a whole run keeps it exactly when every step meets it.**
* `Run.cond_of_good` — one half of it, when only some steps show the condition.
-/

/-- `Run step s₀ h s`: the run `h`, newest step first, leads from `s₀` to `s`. -/
inductive Run {σ ε : Type*} (step : σ → ε → σ → Prop) (s₀ : σ) : List (σ × ε) → σ → Prop
  | nil : Run step s₀ [] s₀
  | snoc {h : List (σ × ε)} {s s' : σ} {e : ε} (hr : Run step s₀ h s) (hs : step s e s') :
      Run step s₀ ((s, e) :: h) s'

namespace Run

variable {σ ε : Type*} {step : σ → ε → σ → Prop} {s₀ s : σ} {h : List (σ × ε)}

/-- A run goes through the state it starts from. -/
theorem start_mem (hr : Run step s₀ h s) : s₀ ∈ s :: h.map Prod.fst := by
  induction hr with
  | nil => exact List.mem_cons_self
  | snoc hr hs ih => exact List.mem_cons_of_mem _ ih

/-- **The invariant rule**: the invariant holds of the last state, and of every
state on the way. -/
theorem invariant {inv : σ → Prop} {cond : σ → ε → Prop} (h₀ : inv s₀)
    (hstep : ∀ s e s', inv s → cond s e → step s e s' → inv s')
    (hr : Run step s₀ h s) (hc : ∀ p ∈ h, cond p.1 p.2) : inv s ∧ ∀ p ∈ h, inv p.1 := by
  induction hr with
  | nil => exact ⟨h₀, by simp⟩
  | snoc hr hs ih =>
    obtain ⟨hce, hc⟩ := List.forall_mem_cons.mp hc
    obtain ⟨hi, hih⟩ := ih hc
    exact ⟨hstep _ _ _ hi hce hs, List.forall_mem_cons.mpr ⟨hi, hih⟩⟩

/-- **The exactness rule.**  Suppose that from a state that is sound, the next
state is good exactly when the step meets `cond`, and is then sound again.  Then
all the states of a run are good exactly when all of its steps meet `cond`. -/
theorem good_iff {inv good : σ → Prop} {cond : σ → ε → Prop} (h₀ : inv s₀)
    (hgood : ∀ s, inv s → good s)
    (hstep : ∀ s e s', inv s → step s e s' → (good s' ↔ cond s e) ∧ (cond s e → inv s'))
    (hr : Run step s₀ h s) :
    (good s ∧ ∀ p ∈ h, good p.1) ↔ ∀ p ∈ h, cond p.1 p.2 := by
  induction hr with
  | nil => simp [hgood _ h₀]
  | @snoc h s s' e hr hs ih =>
    simp only [List.forall_mem_cons]
    -- once the steps before it are known to meet `cond`, the last one is judged from a sound state
    have key : (∀ p ∈ h, cond p.1 p.2) → (good s' ↔ cond s e) := fun hc =>
      (hstep s e s' (hr.invariant h₀ (fun s e s' hi hc hs => (hstep s e s' hi hs).2 hc) hc).1 hs).1
    constructor
    · rintro ⟨hs', hgs, hgh⟩
      have hc := ih.mp ⟨hgs, hgh⟩
      exact ⟨(key hc).mp hs', hc⟩
    · rintro ⟨hce, hc⟩
      obtain ⟨hgs, hgh⟩ := ih.mpr hc
      exact ⟨(key hc).mpr hce, hgs, hgh⟩

/-- Suppose that from a sound state a step that meets `cond` leads to a sound state,
and that a step that meets `aux` and leads to a good state meets `cond`.  Then the
steps of a run through good states meet `cond`, if they meet `aux`. -/
theorem cond_of_good {inv good : σ → Prop} {cond aux : σ → ε → Prop} (h₀ : inv s₀)
    (hinv : ∀ s e s', inv s → step s e s' → cond s e → inv s')
    (hcond : ∀ s e s', inv s → step s e s' → aux s e → good s' → cond s e)
    (hr : Run step s₀ h s) (haux : ∀ p ∈ h, aux p.1 p.2) (hgood : good s ∧ ∀ p ∈ h, good p.1) :
    ∀ p ∈ h, cond p.1 p.2 := by
  induction hr with
  | nil => simp
  | @snoc h s s' e hr hs ih =>
    rw [List.forall_mem_cons] at haux hgood ⊢
    have hc := ih haux.2 hgood.2
    have hi := (hr.invariant h₀ (fun s e s' hi hc hs => hinv s e s' hi hs hc) hc).1
    exact ⟨hcond _ _ _ hi hs haux.1 hgood.1, hc⟩

end Run
