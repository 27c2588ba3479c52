import Std.Data.ExtTreeMap
import UbtExex.Lib.Writes

/-!
# Ordered tables

Lookup lemmas for `Std.ExtTreeMap` with keys compared by `compare`, in the form
the development uses them: a decidable equality of keys instead of a comparison
result, and the effect of a list of insertions or deletions.

## Main results

* `getElem?_insertAll` — after a list of insertions a key holds its last write.
* `getElem?_eraseAll` — after a list of deletions.
* `eq_of_sorted_of_mem_iff` — a strictly sorted list is determined by its members.
-/

open Std

namespace Tables

variable {K V : Type} [Ord K] [TransOrd K]

/-- Insert the pairs of a list, from left to right. -/
def insertAll (t : ExtTreeMap K V) (ws : List (K × V)) : ExtTreeMap K V :=
  ws.foldl (fun t w => t.insert w.1 w.2) t

@[simp] theorem insertAll_nil (t : ExtTreeMap K V) : insertAll t [] = t := rfl

@[simp] theorem insertAll_cons (t : ExtTreeMap K V) (w : K × V) (ws : List (K × V)) :
    insertAll t (w :: ws) = insertAll (t.insert w.1 w.2) ws := rfl

/-- Delete the keys of a list. -/
def eraseAll (t : ExtTreeMap K V) (ks : List K) : ExtTreeMap K V :=
  ks.foldl (fun t k => t.erase k) t

variable [LawfulEqOrd K] [DecidableEq K]

theorem getElem?_insert (t : ExtTreeMap K V) (k a : K) (v : V) :
    (t.insert k v)[a]? = if k = a then some v else t[a]? := by
  rw [ExtTreeMap.getElem?_insert]
  simp only [LawfulEqCmp.compare_eq_iff_eq]

theorem getElem?_erase (t : ExtTreeMap K V) (k a : K) :
    (t.erase k)[a]? = if k = a then none else t[a]? := by
  rw [ExtTreeMap.getElem?_erase]
  simp only [LawfulEqCmp.compare_eq_iff_eq]

/-- **After a list of insertions a key holds its last write, or what it held.** -/
theorem getElem?_insertAll (t : ExtTreeMap K V) (ws : List (K × V)) (a : K) :
    (insertAll t ws)[a]? = (Writes.lastWrite ws a).or t[a]? := by
  induction ws generalizing t with
  | nil => simp
  | cons w ws ih =>
    rw [insertAll_cons, ih, getElem?_insert, Writes.lastWrite_cons]
    by_cases h : w.1 = a <;> simp [h]

/-- **After a list of deletions the keys of the list are gone, and no others.** -/
theorem getElem?_eraseAll (t : ExtTreeMap K V) (ks : List K) (a : K) :
    (eraseAll t ks)[a]? = if a ∈ ks then none else t[a]? := by
  induction ks generalizing t with
  | nil => simp [eraseAll]
  | cons k ks ih =>
    change (eraseAll (t.erase k) ks)[a]? = _
    rw [ih, getElem?_erase]
    by_cases h : a ∈ ks
    · simp [h]
    · by_cases hk : k = a
      · simp [hk]
      · simp [h, hk, Ne.symm hk]

/-- Writing a table's own rows over another table: its rows win. -/
theorem getElem?_insertAll_toList (t u : ExtTreeMap K V) (a : K) :
    (insertAll t u.toList)[a]? = (u[a]?).or t[a]? := by
  rw [getElem?_insertAll]
  congr 1
  cases h : u[a]? with
  | none =>
    rw [Writes.lastWrite_eq_none]
    rintro ⟨k, v⟩ hw rfl
    rw [ExtTreeMap.mem_toList_iff_getElem?_eq_some] at hw
    simp [h] at hw
  | some v =>
    have hmem : (a, v) ∈ u.toList := ExtTreeMap.mem_toList_iff_getElem?_eq_some.mpr h
    cases hl : Writes.lastWrite u.toList a with
    | none => exact absurd rfl (Writes.lastWrite_eq_none.mp hl _ hmem)
    | some v' =>
      have := ExtTreeMap.mem_toList_iff_getElem?_eq_some.mp (Writes.mem_of_lastWrite hl)
      rw [h] at this
      exact this.symm

/-- A list that strictly increases in a transitive, irreflexive order is
determined by its members. -/
theorem eq_of_sorted_of_mem_iff {α : Type*} {r : α → α → Prop} [IsTrans α r] [Std.Irrefl r]
    {l l' : List α} (hl : l.Pairwise r) (hl' : l'.Pairwise r) (h : ∀ a, a ∈ l ↔ a ∈ l') :
    l = l' := by
  have hnd : ∀ {l : List α}, l.Pairwise r → l.Nodup := fun hl =>
    hl.imp fun hab => fun e => Std.Irrefl.irrefl _ (e ▸ hab)
  refine List.Perm.eq_of_pairwise (fun a b _ _ hab hba => ?_) hl hl'
    ((List.perm_ext_iff_of_nodup (hnd hl) (hnd hl')).mpr h)
  exact absurd (IsTrans.trans _ _ _ hab hba) (Std.Irrefl.irrefl a)

end Tables
