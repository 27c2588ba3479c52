import Mathlib.Data.List.Nodup

/-!
# Groups laid out one after the other

The items of a list of groups are written one group after the other.  A group is
found again by the position of its first item, up to the position of the first item
of the next group; and when every item tells the label of its group, the items
found are those with the label.

## Main definitions

* `offset items gs i` — the number of items before group `i`.
* `slice l start stop` — the items of a list from one position up to another.

## Main results

* `slice_flatMap` — **the items between two offsets are those of the group.**
* `filter_flatMap` — the items of a group are those with its label.
* `findIdx_flatMap` — the offset is the position of the first item with the label.
-/

namespace Grouped

variable {γ α κ : Type*} (items : γ → List α) (gs : List γ)

/-- The number of items before group `i`. -/
def offset (i : ℕ) : ℕ := ((gs.take i).flatMap items).length

/-- The items of a list from position `start` up to position `stop`. -/
def slice (l : List α) (start stop : ℕ) : List α := (l.drop start).take (stop - start)

@[simp] theorem offset_zero : offset items gs 0 = 0 := rfl

theorem offset_length : offset items gs gs.length = (gs.flatMap items).length := by
  rw [offset, List.take_length]

variable {items gs} {i : ℕ}

theorem offset_cons_succ (g : γ) : offset items (g :: gs) (i + 1) =
    (items g).length + offset items gs i := by
  rw [offset, List.take_succ_cons, List.flatMap_cons, List.length_append]
  rfl

/-- The items before a group, the group, and the items behind it. -/
theorem flatMap_split (h : i < gs.length) :
    gs.flatMap items =
      (gs.take i).flatMap items ++ (items gs[i] ++ (gs.drop (i + 1)).flatMap items) := by
  rw [← List.flatMap_cons, ← List.drop_eq_getElem_cons h, ← List.flatMap_append,
    List.take_append_drop]

theorem offset_succ (h : i < gs.length) :
    offset items gs (i + 1) = offset items gs i + (items gs[i]).length := by
  rw [offset, List.take_succ_eq_append_getElem h, List.flatMap_append, List.length_append,
    List.flatMap_cons, List.flatMap_nil, List.append_nil]
  rfl

/-- **The items between two offsets are those of the group.** -/
theorem slice_flatMap (h : i < gs.length) :
    slice (gs.flatMap items) (offset items gs i) (offset items gs (i + 1)) = items gs[i] := by
  rw [slice, offset_succ h, Nat.add_sub_cancel_left, flatMap_split h, offset, List.drop_left,
    List.take_left]

/-- There are no more groups than items, if no group is empty. -/
theorem length_le_length_flatMap (h : ∀ g ∈ gs, items g ≠ []) :
    gs.length ≤ (gs.flatMap items).length := by
  induction gs with
  | nil => exact Nat.le_refl _
  | cons g gs ih =>
    obtain ⟨hg, hgs⟩ := List.forall_mem_cons.mp h
    have hpos := List.length_pos_of_ne_nil hg
    have hle := ih hgs
    rw [List.flatMap_cons, List.length_append, List.length_cons]
    omega

section Labels

variable {key : α → κ} {label : γ → κ}

/-- With distinct labels the items before and behind a group have other labels. -/
theorem key_ne_of_mem (hkey : ∀ g ∈ gs, ∀ a ∈ items g, key a = label g)
    (hnd : (gs.map label).Nodup) (h : i < gs.length) {a : α}
    (ha : a ∈ (gs.take i).flatMap items ∨ a ∈ (gs.drop (i + 1)).flatMap items) :
    key a ≠ label gs[i] := by
  have hsplit : gs.take i ++ gs[i] :: gs.drop (i + 1) = gs := by
    rw [← List.drop_eq_getElem_cons h, List.take_append_drop]
  have hpair : (gs.take i ++ gs[i] :: gs.drop (i + 1)).Pairwise fun g g' => label g ≠ label g' := by
    rw [hsplit]
    exact List.pairwise_map.mp hnd
  obtain ⟨-, hbehind, hbefore⟩ := List.pairwise_append.mp hpair
  rcases ha with ha | ha
  · obtain ⟨g, hg, ha⟩ := List.mem_flatMap.mp ha
    rw [hkey g (List.mem_of_mem_take hg) a ha]
    exact hbefore g hg _ List.mem_cons_self
  · obtain ⟨g, hg, ha⟩ := List.mem_flatMap.mp ha
    rw [hkey g (List.mem_of_mem_drop hg) a ha]
    exact Ne.symm (List.rel_of_pairwise_cons hbehind hg)

variable [DecidableEq κ]

/-- **The items of a group are those with its label.** -/
theorem filter_flatMap (hkey : ∀ g ∈ gs, ∀ a ∈ items g, key a = label g)
    (hnd : (gs.map label).Nodup) (h : i < gs.length) :
    (gs.flatMap items).filter (fun a => key a = label gs[i]) = items gs[i] := by
  rw [flatMap_split h, List.filter_append, List.filter_append]
  have hbefore : ((gs.take i).flatMap items).filter (fun a => key a = label gs[i]) = [] := by
    rw [List.filter_eq_nil_iff]
    intro a ha
    simpa using key_ne_of_mem hkey hnd h (Or.inl ha)
  have hbehind : ((gs.drop (i + 1)).flatMap items).filter (fun a => key a = label gs[i]) = [] := by
    rw [List.filter_eq_nil_iff]
    intro a ha
    simpa using key_ne_of_mem hkey hnd h (Or.inr ha)
  have hgroup : (items gs[i]).filter (fun a => key a = label gs[i]) = items gs[i] := by
    rw [List.filter_eq_self]
    intro a ha
    simpa using hkey gs[i] (List.getElem_mem h) a ha
  rw [hbefore, hbehind, hgroup, List.nil_append, List.append_nil]

/-- **The offset of a group is the position of the first item with its label.** -/
theorem findIdx_flatMap (hkey : ∀ g ∈ gs, ∀ a ∈ items g, key a = label g)
    (hnd : (gs.map label).Nodup) (h : i < gs.length) (hne : items gs[i] ≠ []) :
    (gs.flatMap items).findIdx (fun a => key a = label gs[i]) = offset items gs i := by
  rw [flatMap_split h, List.findIdx_append, if_neg]
  · obtain ⟨a, as, ha⟩ := List.exists_cons_of_ne_nil hne
    have hkeya : key a = label gs[i] := hkey gs[i] (List.getElem_mem h) a (by rw [ha]; simp)
    rw [ha, List.cons_append, List.findIdx_cons]
    simp [hkeya, offset]
  · rw [Nat.not_lt, Nat.le_iff_lt_or_eq]
    right
    rw [eq_comm, List.findIdx_eq_length]
    intro a ha
    simpa using key_ne_of_mem hkey hnd h (Or.inl ha)

end Labels

end Grouped
