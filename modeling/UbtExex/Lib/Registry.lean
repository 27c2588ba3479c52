import Mathlib.Logic.Basic

/-!
# Write-once registries

A registry assigns a value to a key once: registering the same value again is
accepted, another value for a registered key is refused.  A program registers a
list of claims by a fold that stops at the first refusal.  What the registry's
state is does not matter here, only the partial assignment `view` read from it.

## Main definitions

* `Registers view key val f` — the step `f` registers `val i` under `key i`.

## Main results

* `Registers.foldlM_accepts` — **claims that agree with one owner of each key are
  all accepted.**
* `Registers.foldlM_sound` — **accepted claims are registered, registered values
  stay, and no other key changes.**
* `Registers.foldlM_ok_iff` — **claims are accepted exactly when they contradict
  neither the registry nor each other.**
* `Registers.foldlM_perm` — **their order does not matter.**
* `mem_foldlM` — what a registry holds after a list of claims that each add to it.
* `foldlM_invariant` — what every accepted claim keeps, an accepted list keeps.
-/

namespace Registry

variable {τ ι K V ε : Type} [DecidableEq K] {view : τ → K → Option V} {key : ι → K} {val : ι → V}
  {f : τ → ι → Except ε τ}

/-- The step `f` registers the claim `val i` under `key i`, or refuses it. -/
structure Registers (view : τ → K → Option V) (key : ι → K) (val : ι → V)
    (f : τ → ι → Except ε τ) : Prop where
  /-- A claim that contradicts nothing is accepted. -/
  accepts : ∀ t i, (∀ v, view t (key i) = some v → v = val i) → ∃ t', f t i = .ok t'
  /-- An accepted claim contradicted nothing, and is all that changes. -/
  sound : ∀ t i t', f t i = .ok t' → (∀ v, view t (key i) = some v → v = val i) ∧
    ∀ k, view t' k = if key i = k then some (val i) else view t k

/-- Every value of `view t` is the one its owner gives it. -/
def OwnedBy (view : τ → K → Option V) (own : K → V) (t : τ) : Prop :=
  ∀ k v, view t k = some v → v = own k

/-- The claims contradict neither what is registered nor each other. -/
structure Consistent (view : τ → K → Option V) (key : ι → K) (val : ι → V) (t : τ)
    (l : List ι) : Prop where
  registered : ∀ i ∈ l, ∀ v, view t (key i) = some v → v = val i
  among : ∀ i ∈ l, ∀ j ∈ l, key i = key j → val i = val j

omit [DecidableEq K] in
theorem Consistent.of_mem {l l' : List ι} {t : τ} (h : Consistent view key val t l)
    (hl : ∀ i ∈ l', i ∈ l) : Consistent view key val t l' where
  registered i hi := h.registered i (hl i hi)
  among i hi j hj := h.among i (hl i hi) j (hl j hj)

namespace Registers

variable (hf : Registers view key val f)
include hf

theorem ownedBy_step {own : K → V} {t t' : τ} {i : ι} (ht : OwnedBy view own t)
    (hi : val i = own (key i)) (h : f t i = .ok t') : OwnedBy view own t' := by
  intro k v hv
  rw [(hf.sound t i t' h).2 k] at hv
  split at hv
  · next hk => rw [← hk, ← hi]; exact (Option.some.inj hv).symm
  · exact ht k v hv

/-- **Claims that agree with one owner of each key are all accepted.** -/
theorem foldlM_accepts {own : K → V} {l : List ι} {t : τ} (ht : OwnedBy view own t)
    (hl : ∀ i ∈ l, val i = own (key i)) :
    ∃ t', l.foldlM f t = .ok t' ∧ OwnedBy view own t' := by
  induction l generalizing t with
  | nil => exact ⟨t, rfl, ht⟩
  | cons i l ih =>
    obtain ⟨hi, hl⟩ := List.forall_mem_cons.mp hl
    obtain ⟨t₁, h₁⟩ := hf.accepts t i fun v hv => (ht _ v hv).trans hi.symm
    obtain ⟨t', h', ht'⟩ := ih (hf.ownedBy_step ht hi h₁) hl
    refine ⟨t', ?_, ht'⟩
    rw [List.foldlM_cons, h₁]
    exact h'

/-- **Accepted claims are registered, registered values stay, and no other key
changes.** -/
theorem foldlM_sound {l : List ι} {t t' : τ} (h : l.foldlM f t = .ok t') :
    (∀ k v, view t k = some v → view t' k = some v) ∧
      (∀ i ∈ l, view t' (key i) = some (val i)) ∧
      ∀ k, (∀ i ∈ l, key i ≠ k) → view t' k = view t k := by
  induction l generalizing t with
  | nil => cases h; simp
  | cons i l ih =>
    rw [List.foldlM_cons] at h
    cases h₁ : f t i with
    | error e => rw [h₁] at h; cases h
    | ok t₁ =>
      rw [h₁] at h
      obtain ⟨hstay, hreg, hother⟩ := ih h
      obtain ⟨hold, hview⟩ := hf.sound t i t₁ h₁
      have hstay₁ : ∀ k v, view t k = some v → view t₁ k = some v := by
        intro k v hv
        rw [hview]
        split
        · next hk => rw [hold v (hk ▸ hv)]
        · exact hv
      refine ⟨fun k v hv => hstay k v (hstay₁ k v hv), ?_, ?_⟩
      · refine List.forall_mem_cons.mpr ⟨hstay _ _ ?_, hreg⟩
        rw [hview, if_pos rfl]
      · intro k hk
        obtain ⟨hki, hkl⟩ := List.forall_mem_cons.mp hk
        rw [hother k hkl, hview, if_neg hki]

/-- After accepted claims a key has the value it had, or that of a claim for it. -/
theorem view_foldlM {l : List ι} {t t' : τ} (h : l.foldlM f t = .ok t') {k : K} {v : V} :
    view t' k = some v ↔ view t k = some v ∨ ∃ i ∈ l, key i = k ∧ val i = v := by
  obtain ⟨hstay, hreg, hother⟩ := hf.foldlM_sound h
  constructor
  · intro hv
    by_cases hk : ∃ i ∈ l, key i = k
    · obtain ⟨i, hi, rfl⟩ := hk
      rw [hreg i hi] at hv
      exact .inr ⟨i, hi, rfl, Option.some.inj hv⟩
    · rw [hother k fun i hi hik => hk ⟨i, hi, hik⟩] at hv
      exact .inl hv
  · rintro (hv | ⟨i, hi, rfl, rfl⟩)
    · exact hstay k v hv
    · exact hreg i hi

/-- **Claims are accepted exactly when they contradict neither the registry nor each
other.** -/
theorem foldlM_ok_iff {l : List ι} {t : τ} :
    (∃ t', l.foldlM f t = .ok t') ↔ Consistent view key val t l := by
  constructor
  · rintro ⟨t', h⟩
    obtain ⟨hstay, hreg, -⟩ := hf.foldlM_sound h
    constructor
    · intro i hi v hv
      have hv' := hstay _ v hv
      rw [hreg i hi] at hv'
      exact (Option.some.inj hv').symm
    · intro i hi j hj hij
      have hi' := hreg i hi
      rw [hij, hreg j hj] at hi'
      exact (Option.some.inj hi').symm
  · intro hl
    induction l generalizing t with
    | nil => exact ⟨t, rfl⟩
    | cons i l ih =>
      obtain ⟨t₁, h₁⟩ := hf.accepts t i (hl.registered i List.mem_cons_self)
      -- the accepted claim is now registered, and the others agreed with it
      have hl₁ : Consistent view key val t₁ l := by
        refine ⟨fun j hj v hv => ?_, fun j hj j' hj' => hl.among j (List.mem_cons_of_mem _ hj) j'
          (List.mem_cons_of_mem _ hj')⟩
        rw [(hf.sound t i t₁ h₁).2] at hv
        split at hv
        · next hk =>
          rw [← Option.some.inj hv]
          exact hl.among i List.mem_cons_self j (List.mem_cons_of_mem _ hj) hk
        · exact hl.registered j (List.mem_cons_of_mem _ hj) v hv
      obtain ⟨t', h'⟩ := ih hl₁
      refine ⟨t', ?_⟩
      rw [List.foldlM_cons, h₁]
      exact h'

end Registers

/-- If a claim can be refused with one error only, so can a list of claims. -/
theorem foldlM_error {d : ε} (he : ∀ t i e, f t i = .error e → e = d) {l : List ι} {t : τ}
    {e : ε} (h : l.foldlM f t = .error e) : e = d := by
  induction l generalizing t with
  | nil => cases h
  | cons i l ih =>
    rw [List.foldlM_cons] at h
    cases h₁ : f t i with
    | error e₁ =>
      rw [h₁] at h
      obtain rfl := Except.error.inj h
      exact he t i e₁ h₁
    | ok t₁ =>
      rw [h₁] at h
      exact ih h

/-- What every accepted claim keeps, an accepted list keeps. -/
theorem foldlM_invariant {P : τ → Prop} (hf : ∀ t i t', f t i = .ok t' → P t → P t') {l : List ι}
    {t t' : τ} (h : l.foldlM f t = .ok t') (ht : P t) : P t' := by
  induction l generalizing t with
  | nil =>
    obtain rfl := Except.ok.inj h
    exact ht
  | cons i l ih =>
    rw [List.foldlM_cons] at h
    cases h₁ : f t i with
    | error e => rw [h₁] at h; cases h
    | ok t₁ =>
      rw [h₁] at h
      exact ih h (hf t i t₁ h₁ ht)

/-- **After a list of claims a registry holds what it held and what they add.** -/
theorem mem_foldlM {α : Type} {M : τ → α → Prop} {A : ι → α → Prop}
    (hf : ∀ t i t', f t i = .ok t' → ∀ a, M t' a ↔ M t a ∨ A i a) {l : List ι} {t t' : τ}
    (h : l.foldlM f t = .ok t') (a : α) : M t' a ↔ M t a ∨ ∃ i ∈ l, A i a := by
  induction l generalizing t with
  | nil =>
    obtain rfl := Except.ok.inj h
    simp
  | cons i l ih =>
    rw [List.foldlM_cons] at h
    cases h₁ : f t i with
    | error e => rw [h₁] at h; cases h
    | ok t₁ =>
      rw [h₁] at h
      rw [ih h, hf t i t₁ h₁]
      simp only [List.mem_cons, exists_eq_or_imp, or_assoc]

/-- **The order of the claims does not matter**, if the registry is determined by its
assignment and by what it holds besides, among the registries with the property `P`. -/
theorem Registers.foldlM_perm {α : Type} {M : τ → α → Prop} {A : ι → α → Prop} {P : τ → Prop}
    {d : ε} (hf : Registers view key val f) (he : ∀ t i e, f t i = .error e → e = d)
    (hM : ∀ t i t', f t i = .ok t' → ∀ a, M t' a ↔ M t a ∨ A i a)
    (hP : ∀ t i t', f t i = .ok t' → P t → P t')
    (hext : ∀ t t', P t → P t' → (∀ k, view t k = view t' k) → (∀ a, M t a ↔ M t' a) → t = t')
    {l l' : List ι} (hl : l.Perm l') {t : τ} (ht : P t) : l.foldlM f t = l'.foldlM f t := by
  have hok : (∃ t₁, l.foldlM f t = .ok t₁) ↔ ∃ t₁, l'.foldlM f t = .ok t₁ := by
    rw [hf.foldlM_ok_iff, hf.foldlM_ok_iff]
    exact ⟨fun h => h.of_mem fun i hi => hl.mem_iff.mpr hi,
      fun h => h.of_mem fun i hi => hl.mem_iff.mp hi⟩
  -- either both orders are refused, with the one error there is, or none
  cases h : l.foldlM f t with
  | error e =>
    cases h' : l'.foldlM f t with
    | error e' => rw [foldlM_error he h, foldlM_error he h']
    | ok t' =>
      obtain ⟨t₁, h₁⟩ := hok.mpr ⟨t', h'⟩
      rw [h] at h₁
      cases h₁
  | ok t₁ =>
    obtain ⟨t₂, h₂⟩ := hok.mp ⟨t₁, h⟩
    rw [h₂]
    refine congrArg _ (hext t₁ t₂ (foldlM_invariant hP h ht) (foldlM_invariant hP h₂ ht) ?_ ?_)
    · refine fun k => Option.ext fun v => ?_
      rw [hf.view_foldlM h, hf.view_foldlM h₂]
      simp only [hl.mem_iff]
    · intro a
      rw [mem_foldlM hM h, mem_foldlM hM h₂]
      simp only [hl.mem_iff]

end Registry
