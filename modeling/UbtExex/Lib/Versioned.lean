import Mathlib.Data.List.Basic

/-!
# Stores with a history of commits

A versioned store is a current value together with the values it had before each
of its commits, newest first.  `rollback n` undoes the last `n` commits and fails
when the history is shorter than that.

A store may forget its oldest versions: `keep` and `limitTo` say how many it can go
back to.

`Tracks R v bs` says that `v` is in step with the list `bs` (newest first): each version
that a rollback can still reach is related by `R` to what is left of `bs`.  A rollback
then keeps in step with dropping from `bs`, and so does forgetting versions.

## Main results

* `rollback_eq_none_iff` — when a rollback fails.
* `tryRollback_add_iff` — when two rollbacks that may fail are one.
* `rollback_inj` — a number that decreases along the history tells versions apart.
* `rollback_keep` — rollbacks when older versions were forgotten.
* `Tracks.rollback` — **rolling back `n` commits tracks the list without its
  `n` newest elements**, and `Tracks.limitTo`, that forgetting versions changes nothing.
-/

/-- A value and the values it had before each commit, newest first. -/
structure Versioned (α : Type*) where
  /-- The value after the last commit. -/
  current : α
  /-- The values before each commit, newest first. -/
  past : List α
  deriving DecidableEq

namespace Versioned

variable {α β : Type*}

/-- Replace the current value, keeping the old one in the history. -/
def commit (v : Versioned α) (a : α) : Versioned α := ⟨a, v.current :: v.past⟩

/-- Undo the last `n` commits; `none` when there are fewer. -/
def rollback : ℕ → Versioned α → Option (Versioned α)
  | 0, v => some v
  | _ + 1, ⟨_, []⟩ => none
  | n + 1, ⟨_, a :: as⟩ => rollback n ⟨a, as⟩

@[simp] theorem rollback_zero (v : Versioned α) : v.rollback 0 = some v := by
  cases v; rfl

theorem rollback_eq_none_iff {n : ℕ} {v : Versioned α} :
    v.rollback n = none ↔ v.past.length < n := by
  obtain ⟨a, as⟩ := v
  induction n generalizing a as with
  | zero => simp
  | succ n ih =>
    cases as with
    | nil => simp [rollback]
    | cons a' as => simpa [rollback] using ih a' as

/-- A successful rollback is to one of the values of the history. -/
theorem rollback_eq_some_iff {n : ℕ} {v v' : Versioned α} :
    v.rollback n = some v' ↔
      (v.current :: v.past).drop n = v'.current :: v'.past := by
  obtain ⟨a, as⟩ := v
  induction n generalizing a as with
  | zero => cases v'; simp [rollback]
  | succ n ih =>
    cases as with
    | nil => simp [rollback]
    | cons a' as => simpa [rollback] using ih a' as

/-- The value reached is at position `n` of the history. -/
theorem getElem?_of_rollback {n : ℕ} {v v' : Versioned α} (h : v.rollback n = some v') :
    (v.current :: v.past)[n]? = some v'.current := by
  rw [rollback_eq_some_iff] at h
  rw [← List.head?_drop, h]
  rfl

/-- A number that decreases along the history tells the versions apart. -/
theorem rollback_inj {f : α → ℕ} {v u u' : Versioned α} {n n' : ℕ}
    (hf : (v.current :: v.past).Pairwise fun a b => f b < f a) (h : v.rollback n = some u)
    (h' : v.rollback n' = some u') (heq : f u.current = f u'.current) : n = n' := by
  have hu := getElem?_of_rollback h
  have hu' := getElem?_of_rollback h'
  obtain ⟨hn, hget⟩ := List.getElem?_eq_some_iff.mp hu
  obtain ⟨hn', hget'⟩ := List.getElem?_eq_some_iff.mp hu'
  rw [List.pairwise_iff_getElem] at hf
  rw [← hget, ← hget'] at heq
  rcases Nat.lt_trichotomy n n' with hlt | rfl | hlt
  · have := hf n n' hn hn' hlt
    omega
  · rfl
  · have := hf n' n hn' hn hlt
    omega

/-- A rollback takes as many versions off the history. -/
theorem length_past_of_rollback {n : ℕ} {v v' : Versioned α} (h : v.rollback n = some v') :
    v'.past.length + n = v.past.length := by
  have hlength := congrArg List.length (rollback_eq_some_iff.mp h)
  rw [List.length_drop, List.length_cons, List.length_cons] at hlength
  omega

/-- Two rollbacks one after the other are one. -/
theorem rollback_add (a b : ℕ) (v : Versioned α) :
    v.rollback (a + b) = (v.rollback a).bind (rollback b) := by
  obtain ⟨x, xs⟩ := v
  induction a generalizing x xs with
  | zero => rw [Nat.zero_add, rollback_zero, Option.bind_some]
  | succ a ih =>
    rw [Nat.add_right_comm]
    cases xs with
    | nil => rfl
    | cons x' xs => exact ih x' xs

/-- The store after a rollback, which changes nothing if it fails. -/
def tryRollback (n : ℕ) (v : Versioned α) : Versioned α := (v.rollback n).getD v

/-- **Two rollbacks that may fail are one** exactly if the history is as long as both
together, or too short for each. -/
theorem tryRollback_add_iff {a b : ℕ} (ha : 0 < a) (hb : 0 < b) (v : Versioned α) :
    (v.tryRollback a).tryRollback b = v.tryRollback (a + b) ↔
      a + b ≤ v.past.length ∨ (v.past.length < a ∧ v.past.length < b) := by
  unfold tryRollback
  rw [rollback_add]
  cases hfirst : v.rollback a with
  | none =>
    have hshort := rollback_eq_none_iff.mp hfirst
    rw [Option.bind_none, Option.getD_none]
    cases hsecond : v.rollback b with
    | none =>
      have hshort' := rollback_eq_none_iff.mp hsecond
      exact iff_of_true rfl (.inr ⟨hshort, hshort'⟩)
    | some w =>
      -- the second rollback alone succeeds, and leaves a shorter history
      have hlength := length_past_of_rollback hsecond
      rw [Option.getD_some]
      refine iff_of_false (fun heq => ?_) (by omega)
      rw [heq] at hlength
      omega
  | some w =>
    have hlength := length_past_of_rollback hfirst
    rw [Option.bind_some, Option.getD_some]
    cases hsecond : w.rollback b with
    | none =>
      have hshort := rollback_eq_none_iff.mp hsecond
      rw [Option.getD_none, Option.getD_none]
      refine iff_of_false (fun heq => ?_) (by omega)
      rw [heq] at hlength
      omega
    | some u =>
      have hlength' := length_past_of_rollback hsecond
      exact iff_of_true rfl (.inl (by omega))

/-- The store when only the last `n` commits can still be undone. -/
def keep (n : ℕ) (v : Versioned α) : Versioned α := ⟨v.current, v.past.take n⟩

/-- A rollback within the history that is kept reaches the same value. -/
theorem rollback_keep {n k : ℕ} (hn : n ≤ k) (v : Versioned α) :
    (v.keep k).rollback n = (v.rollback n).map (keep (k - n)) := by
  obtain ⟨a, as⟩ := v
  induction n generalizing a as k with
  | zero => simp
  | succ n ih =>
    obtain ⟨k, rfl⟩ : ∃ j, k = j + 1 := ⟨k - 1, by omega⟩
    cases as with
    | nil => rfl
    | cons a' as =>
      rw [Nat.add_sub_add_right]
      exact ih (Nat.le_of_succ_le_succ hn) a' as

/-- A rollback beyond the history that is kept fails. -/
theorem rollback_keep_eq_none {n k : ℕ} (hn : k < n) (v : Versioned α) :
    (v.keep k).rollback n = none := by
  rw [rollback_eq_none_iff]
  exact Nat.lt_of_le_of_lt (List.length_take_le _ _) hn

/-- The store when its history is limited, if it is. -/
def limitTo : Option ℕ → Versioned α → Versioned α
  | none, v => v
  | some n, v => v.keep n

@[simp] theorem current_limitTo (limit : Option ℕ) (v : Versioned α) :
    (v.limitTo limit).current = v.current := by
  cases limit <;> rfl

@[simp] theorem limitTo_none (v : Versioned α) : v.limitTo none = v := rfl

/-- A history within the limit stays as it is. -/
theorem limitTo_of_le {limit : Option ℕ} {v : Versioned α}
    (h : ∀ n, limit = some n → v.past.length ≤ n) : v.limitTo limit = v := by
  cases limit with
  | none => rfl
  | some n =>
    change (⟨v.current, v.past.take n⟩ : Versioned α) = v
    rw [List.take_of_length_le (h n rfl)]

theorem length_past_limitTo_some (n : ℕ) (v : Versioned α) :
    (v.limitTo (some n)).past.length = min n v.past.length := List.length_take

/-- `v` is in step with `bs`: its current value is related to `bs`, and the value before
its last `n` commits, if it is still known, to `bs` without its `n` newest elements. -/
def Tracks (R : α → List β → Prop) (v : Versioned α) (bs : List β) : Prop :=
  ∀ n v', n ≤ bs.length → v.rollback n = some v' → R v'.current (bs.drop n)

namespace Tracks

variable {R : α → List β → Prop} {v v' : Versioned α} {bs : List β}

theorem base (h : R v.current []) : Tracks R v [] := by
  intro n v' hn hv'
  obtain rfl := Nat.le_zero.mp hn
  rw [rollback_zero, Option.some.injEq] at hv'
  rw [← hv']
  exact h

theorem current (h : Tracks R v bs) : R v.current bs :=
  h 0 v (Nat.zero_le _) (rollback_zero v)

theorem commit {a : α} {b : β} (ha : R a (b :: bs)) (h : Tracks R v bs) :
    Tracks R (v.commit a) (b :: bs) := by
  intro n v' hn hv'
  cases n with
  | zero =>
    rw [rollback_zero, Option.some.injEq] at hv'
    rw [← hv']
    exact ha
  | succ n => exact h n v' (Nat.le_of_succ_le_succ hn) hv'

/-- **Rolling back `n` commits tracks the list without its `n` newest elements.** -/
theorem rollback {n : ℕ} (h : Tracks R v bs) (hn : n ≤ bs.length)
    (hv' : v.rollback n = some v') : Tracks R v' (bs.drop n) := by
  intro k w hk hw
  rw [List.length_drop] at hk
  rw [List.drop_drop]
  refine h (n + k) w (by omega) ?_
  rw [rollback_add, hv', Option.bind_some, hw]

/-- What is kept of the history is still in step. -/
theorem keep (h : Tracks R v bs) (k : ℕ) : Tracks R (v.keep k) bs := by
  intro n w hn hw
  have hle : n ≤ k := by
    by_contra hlt
    rw [rollback_keep_eq_none (Nat.lt_of_not_le hlt)] at hw
    cases hw
  rw [rollback_keep hle] at hw
  obtain ⟨w', hw', rfl⟩ := Option.map_eq_some_iff.mp hw
  exact h n w' hn hw'

theorem limitTo (h : Tracks R v bs) (limit : Option ℕ) : Tracks R (v.limitTo limit) bs := by
  cases limit with
  | none => exact h
  | some k => exact h.keep k

end Tracks

end Versioned
