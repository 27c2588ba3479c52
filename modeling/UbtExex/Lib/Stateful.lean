import Mathlib.Logic.Basic

/-!
# Programs over a state that keep it when they fail

`EStateM ε σ` is the shape of a method on `&mut self` that returns a `Result`:
both outcomes carry the state that was reached.  This file has the inversion
lemmas that peel such programs apart, and a rule for properties that hold of the
state whichever way the program ends.

## Main definitions

* `EStateM.Result.state r` — the state reached, in either outcome.
* `Keeps I x` — every run of `x` keeps the property `I` of the state.
* `SucceedsAs x y` — `y` succeeds as `x` does, which may have more checks.

## Main results

* `bind_eq_ok` — how a sequence succeeds.
* `of_eq_ok` — a specification of the form "it succeeds, and then" read from a run.
* `state_forM` — **a property of the state reached that every step keeps, however
  it ends, is kept by a list of steps**, when a successful step also re-establishes
  what the next one needs.
* `Keeps.bind`, `Keeps.forM` — **a program keeps what its parts keep.**
-/

namespace EStateM

variable {ε σ α β : Type}

/-- The state reached, in either outcome. -/
def Result.state : EStateM.Result ε σ α → σ
  | .ok _ s => s
  | .error _ s => s

/-- The program succeeded. -/
def Result.isOk : EStateM.Result ε σ α → Bool
  | .ok _ _ => true
  | .error _ _ => false

theorem Result.exists_ok {r : EStateM.Result ε σ α} (h : r.isOk = true) :
    ∃ a, r = .ok a r.state := by
  cases r with
  | ok a s => exact ⟨a, rfl⟩
  | error e s => cases h

theorem bind_apply (x : EStateM ε σ α) (f : α → EStateM ε σ β) (s : σ) :
    (x >>= f) s = match x s with
      | .ok a s' => f a s'
      | .error e s' => .error e s' := rfl

theorem bind_eq_ok {x : EStateM ε σ α} {f : α → EStateM ε σ β} {s s'' : σ} {b : β} :
    (x >>= f) s = .ok b s'' ↔ ∃ a s', x s = .ok a s' ∧ f a s' = .ok b s'' := by
  rw [bind_apply]
  cases x s with
  | ok a s' => simp [and_assoc]
  | error e s' => simp

theorem map_eq_ok {x : EStateM ε σ α} {f : α → β} {s s' : σ} {b : β} :
    (f <$> x) s = .ok b s' ↔ ∃ a, x s = .ok a s' ∧ f a = b := by
  have hmap : (f <$> x) s = (x >>= fun a => pure (f a)) s := rfl
  rw [hmap, bind_eq_ok]
  constructor
  · rintro ⟨a, s₁, hx, hf⟩
    cases hf
    exact ⟨a, hx, rfl⟩
  · rintro ⟨a, hx, rfl⟩
    exact ⟨a, s', hx, rfl⟩

/-- What a successful run is known to reach holds of every successful run. -/
theorem of_eq_ok {x : EStateM ε σ α} {s s' : σ} {a b : α} {post : σ → Prop}
    (hx : ∃ s'', x s = .ok b s'' ∧ post s'') (h : x s = .ok a s') : post s' := by
  obtain ⟨s'', hrun, hpost⟩ := hx
  rw [h] at hrun
  injection hrun with _ hs
  rw [hs]
  exact hpost

/-- **The state rule for a list of steps.**  `inv` is what a step needs and a
successful step gives back; `post` is what holds of the state in either outcome. -/
theorem state_forM (inv post : σ → Prop) {f : α → EStateM ε σ PUnit} (hip : ∀ s, inv s → post s)
    (hf : ∀ a s, inv s → post (f a s).state ∧ ∀ u s', f a s = .ok u s' → inv s') :
    ∀ (l : List α) (s : σ), inv s → post (l.forM f s).state := by
  intro l
  induction l with
  | nil => intro s hs; exact hip s hs
  | cons a l ih =>
    intro s hs
    obtain ⟨hpost, hinv⟩ := hf a s hs
    change post ((f a >>= fun _ => l.forM f) s).state
    rw [bind_apply]
    cases h : f a s with
    | ok u s' => exact ih s' (hinv u s' h)
    | error e s' => rw [h] at hpost; exact hpost

/-- **A list of steps that always succeed**, followed through what is seen of the state. -/
theorem forM_eq_ok {τ : Type} (view : σ → τ) {f : α → EStateM ε σ PUnit} {g : τ → α → τ}
    (hf : ∀ a s, ∃ s', f a s = .ok ⟨⟩ s' ∧ view s' = g (view s) a) (l : List α) (s : σ) :
    ∃ s', l.forM f s = .ok ⟨⟩ s' ∧ view s' = l.foldl g (view s) := by
  induction l generalizing s with
  | nil => exact ⟨s, rfl, rfl⟩
  | cons a l ih =>
    obtain ⟨s₁, hrun, hview⟩ := hf a s
    obtain ⟨s₂, hrun', hview'⟩ := ih s₁
    refine ⟨s₂, ?_, ?_⟩
    · change (f a >>= fun _ => l.forM f) s = _
      rw [bind_apply, hrun]
      exact hrun'
    · rw [hview', hview, List.foldl_cons]

/-! ### Properties that every run keeps -/

/-- Every run of the program keeps the property of the state, however it ends. -/
def Keeps (I : σ → Prop) (x : EStateM ε σ α) : Prop := ∀ s, I s → I (x s).state

namespace Keeps

variable {I : σ → Prop}

theorem pure (a : α) : Keeps I (Pure.pure a : EStateM ε σ α) := fun _ hs => hs

/-- **A sequence keeps what its parts keep.** -/
theorem bind {x : EStateM ε σ α} {f : α → EStateM ε σ β} (hx : Keeps I x)
    (hf : ∀ a, Keeps I (f a)) : Keeps I (x >>= f) := by
  intro s hs
  have h := hx s hs
  rw [bind_apply]
  cases hrun : x s with
  | ok a s' =>
    rw [hrun] at h
    exact hf a s' h
  | error e s' =>
    rw [hrun] at h
    exact h

/-- A program that reads its own state first. -/
theorem get_bind {f : σ → EStateM ε σ α} (h : ∀ s, Keeps I (f s)) : Keeps I (get >>= f) :=
  fun s => h s s

/-- **A list of steps keeps what each step keeps.** -/
theorem forM {f : α → EStateM ε σ PUnit} {l : List α} (h : ∀ a ∈ l, Keeps I (f a)) :
    Keeps I (l.forM f) := by
  induction l with
  | nil => exact pure _
  | cons a l ih =>
    obtain ⟨ha, hl⟩ := List.forall_mem_cons.mp h
    exact bind ha fun _ => ih hl

end Keeps

/-! ### Programs with more checks -/

/-- The second program succeeds whenever the first does, with the same outcome. -/
def SucceedsAs (x y : EStateM ε σ α) : Prop := ∀ s a s', x s = .ok a s' → y s = .ok a s'

namespace SucceedsAs

theorem refl (x : EStateM ε σ α) : SucceedsAs x x := fun _ _ _ h => h

theorem bind {x y : EStateM ε σ α} {f g : α → EStateM ε σ β} (hx : SucceedsAs x y)
    (hf : ∀ a, SucceedsAs (f a) (g a)) : SucceedsAs (x >>= f) (y >>= g) := by
  intro s b s'' h
  obtain ⟨a, s', hfirst, hrest⟩ := bind_eq_ok.mp h
  exact bind_eq_ok.mpr ⟨a, s', hx s a s' hfirst, hf a s' b s'' hrest⟩

/-- A check before the program, which changes nothing. -/
theorem check {c : EStateM ε σ PUnit} {x y : EStateM ε σ α}
    (hc : ∀ s u s', c s = .ok u s' → s' = s) (hx : SucceedsAs x y) :
    SucceedsAs (c >>= fun _ => x) y := by
  intro s a s'' h
  obtain ⟨u, s', hcheck, hrest⟩ := bind_eq_ok.mp h
  rw [hc s u s' hcheck] at hrest
  exact hx s a s'' hrest

/-- **A loop whose steps have more checks.** -/
theorem foldlM {f g : β → α → EStateM ε σ β} (hf : ∀ b a, SucceedsAs (f b a) (g b a))
    (l : List α) (b : β) : SucceedsAs (l.foldlM f b) (l.foldlM g b) := by
  induction l generalizing b with
  | nil => exact refl _
  | cons a l ih =>
    rw [List.foldlM_cons, List.foldlM_cons]
    exact bind (hf b a) ih

end SucceedsAs

end EStateM
