import Mathlib.Data.List.Sort
import Mathlib.Logic.Function.Basic

/-!
# Write lists and their undo logs

A store is a total function from keys to values, and a *write list* is a list of
key–value pairs applied from left to right, so that the last write to a key wins.
The *undo log* of a write list records, for every write that changes the value
of its key, the key and the value it had just before; applying the log in
reverse order restores the store, whatever keys repeat.

## Main definitions

* `applyAll m ws` — the store `m` after the writes `ws`.
* `lastWrite ws k` — the value the last write to `k` gives it, if there is one.
* `undoLog m ws` — the undo log of `ws` over the store `m`.

## Main results

* `applyAll_eq_lastWrite` — the value at a key is its last write, or the old value.
* `lastWrite_insertionSort` — sorting a write list by key, stably, changes nothing.
* `applyAll_undoLog_reverse` — **the undo log restores the store.**
* `applyAll_undoAll` — so do the undo logs of several write lists, last list first.
* `applyAll_perm`, `insertionSort_perm`, `undoLog_perm` — **writes to distinct keys may
  come in any order.**
-/

namespace Writes

variable {K V : Type*} [DecidableEq K]

/-! ### Applying a write list -/

/-- The store `m` after the writes of a list, from left to right. -/
def applyAll (m : K → V) : List (K × V) → K → V
  | [] => m
  | (k, v) :: ws => applyAll (Function.update m k v) ws

@[simp] theorem applyAll_nil (m : K → V) : applyAll m [] = m := rfl

@[simp] theorem applyAll_cons (m : K → V) (w : K × V) (ws : List (K × V)) :
    applyAll m (w :: ws) = applyAll (Function.update m w.1 w.2) ws := rfl

@[simp] theorem applyAll_append (m : K → V) (ws ws' : List (K × V)) :
    applyAll m (ws ++ ws') = applyAll (applyAll m ws) ws' := by
  induction ws generalizing m with
  | nil => rfl
  | cons w ws ih => exact ih _

/-- The value the last write to `k` gives it, if there is one. -/
def lastWrite : List (K × V) → K → Option V
  | [], _ => none
  | (k', v) :: ws, k => (lastWrite ws k).or (if k' = k then some v else none)

@[simp] theorem lastWrite_nil (k : K) : lastWrite ([] : List (K × V)) k = none := rfl

theorem lastWrite_cons (w : K × V) (ws : List (K × V)) (k : K) :
    lastWrite (w :: ws) k = (lastWrite ws k).or (if w.1 = k then some w.2 else none) := rfl

/-- **The value at a key is its last write, or the old value when it has none.** -/
theorem applyAll_eq_lastWrite (m : K → V) (ws : List (K × V)) (k : K) :
    applyAll m ws k = (lastWrite ws k).getD (m k) := by
  induction ws generalizing m with
  | nil => rfl
  | cons w ws ih =>
    rw [applyAll_cons, ih, lastWrite_cons]
    cases lastWrite ws k with
    | some v => rfl
    | none =>
      by_cases h : w.1 = k
      · subst h; simp
      · simp [h, Function.update_of_ne (Ne.symm h)]

/-- Write lists with the same last writes have the same effect. -/
theorem applyAll_congr {ws ws' : List (K × V)} (h : ∀ k, lastWrite ws k = lastWrite ws' k)
    (m : K → V) : applyAll m ws = applyAll m ws' := by
  funext k
  rw [applyAll_eq_lastWrite, applyAll_eq_lastWrite, h k]

theorem lastWrite_append (ws ws' : List (K × V)) (k : K) :
    lastWrite (ws ++ ws') k = (lastWrite ws' k).or (lastWrite ws k) := by
  induction ws with
  | nil => simp
  | cons w ws ih => rw [List.cons_append, lastWrite_cons, lastWrite_cons, ih, Option.or_assoc]

theorem lastWrite_eq_none {ws : List (K × V)} {k : K} :
    lastWrite ws k = none ↔ ∀ w ∈ ws, w.1 ≠ k := by
  induction ws with
  | nil => simp
  | cons w ws ih =>
    rw [lastWrite_cons, Option.or_eq_none_iff, ih]
    simp only [List.forall_mem_cons, ite_eq_right_iff, reduceCtorEq, imp_false]
    exact and_comm

theorem mem_of_lastWrite {ws : List (K × V)} {k : K} {v : V} (h : lastWrite ws k = some v) :
    (k, v) ∈ ws := by
  induction ws with
  | nil => simp at h
  | cons w ws ih =>
    rw [lastWrite_cons, Option.or_eq_some_iff] at h
    rcases h with h | ⟨-, h⟩
    · exact List.mem_cons_of_mem _ (ih h)
    · split at h
      · next hk => subst hk; obtain rfl := Option.some.inj h; exact List.mem_cons_self
      · simp at h

/-- With distinct keys every write is the last one to its key. -/
theorem lastWrite_of_nodup {ws : List (K × V)} {k : K} {v : V} (hnd : (ws.map Prod.fst).Nodup)
    (hmem : (k, v) ∈ ws) : lastWrite ws k = some v := by
  induction ws with
  | nil => cases hmem
  | cons w ws ih =>
    obtain ⟨hw, hnd⟩ := List.nodup_cons.mp hnd
    rw [lastWrite_cons]
    rcases List.mem_cons.mp hmem with rfl | hmem
    · have hnone : lastWrite ws k = none := by
        rw [lastWrite_eq_none]
        intro w' hw' hk
        exact hw (List.mem_map.mpr ⟨w', hw', hk⟩)
      rw [hnone, if_pos rfl]
      rfl
    · rw [ih hnd hmem]
      rfl

/-- Writes to distinct keys have the same last writes in any order. -/
theorem lastWrite_perm {ws ws' : List (K × V)} (h : ws.Perm ws') (hnd : (ws.map Prod.fst).Nodup)
    (k : K) : lastWrite ws k = lastWrite ws' k := by
  cases hlast : lastWrite ws' k with
  | none =>
    rw [lastWrite_eq_none] at hlast ⊢
    exact fun w hw => hlast w (h.mem_iff.mp hw)
  | some v => exact lastWrite_of_nodup hnd (h.mem_iff.mpr (mem_of_lastWrite hlast))

/-- **Writes to distinct keys may come in any order.** -/
theorem applyAll_perm {ws ws' : List (K × V)} (h : ws.Perm ws') (hnd : (ws.map Prod.fst).Nodup)
    (m : K → V) : applyAll m ws = applyAll m ws' := applyAll_congr (lastWrite_perm h hnd) m

/-- Renaming the keys keeps the last write to a key that no other one is renamed to. -/
theorem lastWrite_map {K' : Type*} [DecidableEq K'] (f : K → K') {ws : List (K × V)} {k : K}
    (happart : ∀ w ∈ ws, f w.1 = f k → w.1 = k) :
    lastWrite (ws.map fun w => (f w.1, w.2)) (f k) = lastWrite ws k := by
  induction ws with
  | nil => rfl
  | cons w ws ih =>
    obtain ⟨hw, hws⟩ := List.forall_mem_cons.mp happart
    rw [List.map_cons, lastWrite_cons, lastWrite_cons, ih hws]
    have hiff : f w.1 = f k ↔ w.1 = k := ⟨hw, fun h => congrArg f h⟩
    simp only [hiff]

theorem applyAll_of_forall_ne {m : K → V} {ws : List (K × V)} {k : K}
    (h : ∀ w ∈ ws, w.1 ≠ k) : applyAll m ws k = m k := by
  rw [applyAll_eq_lastWrite, lastWrite_eq_none.mpr h, Option.getD_none]

/-- Only the writes to `k` matter at `k`. -/
theorem lastWrite_filter (ws : List (K × V)) (k : K) :
    lastWrite (ws.filter fun w => w.1 = k) k = lastWrite ws k := by
  induction ws with
  | nil => rfl
  | cons w ws ih =>
    by_cases h : w.1 = k
    · rw [List.filter_cons_of_pos (by simpa using h), lastWrite_cons, lastWrite_cons, ih]
    · rw [List.filter_cons_of_neg (by simpa using h), lastWrite_cons, ih, if_neg h, Option.or_none]

/-- **Sorting by key, stably, does not change the last writes.** -/
theorem lastWrite_insertionSort (r : K → K → Prop) [DecidableRel r] (hr : ∀ k, r k k)
    (ws : List (K × V)) (k : K) :
    lastWrite (ws.insertionSort fun a b => r a.1 b.1) k = lastWrite ws k := by
  -- stability: the writes to one key are already sorted, so they keep their order
  have hsub : (ws.filter fun w => w.1 = k).Sublist (ws.insertionSort fun a b => r a.1 b.1) := by
    refine List.sublist_insertionSort ?_ List.filter_sublist
    rw [List.pairwise_filter]
    refine List.pairwise_of_forall fun a b ha hb => ?_
    simp only [decide_eq_true_eq] at ha hb
    rw [ha, hb]
    exact hr k
  have hsub' : (ws.filter fun w => w.1 = k).Sublist
      ((ws.insertionSort fun a b => r a.1 b.1).filter fun w => w.1 = k) := by
    have := hsub.filter fun w => w.1 = k
    rwa [List.filter_filter, show (fun w : K × V => decide (w.1 = k) && decide (w.1 = k))
      = fun w => decide (w.1 = k) from funext fun w => Bool.and_self _] at this
  have hlen := (((List.perm_insertionSort (fun a b : K × V => r a.1 b.1) ws).filter
    fun w => w.1 = k).length_eq).symm
  rw [← lastWrite_filter, ← hsub'.eq_of_length hlen, lastWrite_filter]

omit [DecidableEq K] in
/-- **Sorted by key, writes to distinct keys are one list, whatever order they came in.** -/
theorem insertionSort_perm (r : K → K → Prop) [DecidableRel r] (htotal : ∀ a b, r a b ∨ r b a)
    (htrans : ∀ a b c, r a b → r b c → r a c) (hanti : ∀ a b, r a b → r b a → a = b)
    {ws ws' : List (K × V)} (h : ws.Perm ws') (hnd : (ws.map Prod.fst).Nodup) :
    (ws.insertionSort fun a b => r a.1 b.1) = ws'.insertionSort fun a b => r a.1 b.1 := by
  let le : K × V → K × V → Prop := fun a b => r a.1 b.1
  have : Std.Total le := ⟨fun a b => htotal a.1 b.1⟩
  have : IsTrans (K × V) le := ⟨fun a b c => htrans a.1 b.1 c.1⟩
  -- two sorted permutations of a list without ties are equal
  have hsame : (ws.insertionSort le).Perm (ws'.insertionSort le) :=
    ((List.perm_insertionSort le ws).trans h).trans (List.perm_insertionSort le ws').symm
  refine hsame.eq_of_pairwise ?_ (List.pairwise_insertionSort le ws)
    (List.pairwise_insertionSort le ws')
  intro a b ha hb hab hba
  rw [List.mem_insertionSort] at ha hb
  exact List.inj_on_of_nodup_map hnd ha (h.mem_iff.mpr hb) (hanti _ _ hab hba)

/-! ### Undo logs -/

variable [DecidableEq V]

/-- The keys a write list changes, each with the value it had just before. -/
def undoLog (m : K → V) : List (K × V) → List (K × V)
  | [] => []
  | (k, v) :: ws =>
      if m k ≠ v then (k, m k) :: undoLog (Function.update m k v) ws
      else undoLog (Function.update m k v) ws

@[simp] theorem undoLog_nil (m : K → V) : undoLog m [] = [] := rfl

theorem undoLog_cons (m : K → V) (w : K × V) (ws : List (K × V)) :
    undoLog m (w :: ws) = (if m w.1 ≠ w.2 then [(w.1, m w.1)] else [])
      ++ undoLog (Function.update m w.1 w.2) ws := by
  obtain ⟨k, v⟩ := w
  by_cases h : m k = v <;> simp [undoLog, h]

/-- An undo log has keys of its write list only. -/
theorem exists_of_mem_undoLog {m : K → V} {ws : List (K × V)} {w : K × V}
    (h : w ∈ undoLog m ws) : ∃ w' ∈ ws, w'.1 = w.1 := by
  induction ws generalizing m with
  | nil => simp at h
  | cons w' ws ih =>
    rw [undoLog_cons, List.mem_append] at h
    rcases h with h | h
    · split at h
      · rw [List.mem_singleton.mp h]
        exact ⟨w', List.mem_cons_self, rfl⟩
      · simp at h
    · obtain ⟨w'', hmem, hkey⟩ := ih h
      exact ⟨w'', List.mem_cons_of_mem _ hmem, hkey⟩

/-- With distinct keys the undo log holds the old values of the keys that change. -/
theorem undoLog_of_nodup {ws : List (K × V)} (hnd : (ws.map Prod.fst).Nodup) (m : K → V) :
    undoLog m ws = (ws.filter fun w => m w.1 ≠ w.2).map fun w => (w.1, m w.1) := by
  induction ws generalizing m with
  | nil => rfl
  | cons w ws ih =>
    obtain ⟨hw, hnd⟩ := List.nodup_cons.mp hnd
    -- the first write is not read again, so the rest may look at the state before
    have hother : ∀ w' ∈ ws, Function.update m w.1 w.2 w'.1 = m w'.1 := by
      intro w' hw'
      exact Function.update_of_ne (fun hk => hw (List.mem_map.mpr ⟨w', hw', hk⟩)) _ _
    have hfilter : ws.filter (fun w' => Function.update m w.1 w.2 w'.1 ≠ w'.2) =
        ws.filter fun w' => m w'.1 ≠ w'.2 :=
      List.filter_congr fun w' hw' => by rw [hother w' hw']
    rw [undoLog_cons, ih hnd, hfilter]
    have hmap : ((ws.filter fun w' => m w'.1 ≠ w'.2).map fun w' =>
        (w'.1, Function.update m w.1 w.2 w'.1)) =
        (ws.filter fun w' => m w'.1 ≠ w'.2).map fun w' => (w'.1, m w'.1) :=
      List.map_congr_left fun w' hw' => by rw [hother w' (List.mem_of_mem_filter hw')]
    rw [hmap]
    by_cases h : m w.1 = w.2
    · simp [h]
    · simp [h]

/-- **The undo logs of writes to distinct keys in two orders have the same records.** -/
theorem undoLog_perm {ws ws' : List (K × V)} (h : ws.Perm ws') (hnd : (ws.map Prod.fst).Nodup)
    (m : K → V) : (undoLog m ws).Perm (undoLog m ws') := by
  rw [undoLog_of_nodup hnd, undoLog_of_nodup ((h.map Prod.fst).nodup_iff.mp hnd)]
  exact (h.filter _).map _

/-- The undo log of writes to distinct keys has distinct keys. -/
theorem nodup_undoLog {ws : List (K × V)} (hnd : (ws.map Prod.fst).Nodup) (m : K → V) :
    ((undoLog m ws).map Prod.fst).Nodup := by
  rw [undoLog_of_nodup hnd, List.map_map]
  exact hnd.sublist (List.filter_sublist.map Prod.fst)

/-- **Applying the undo log in reverse restores the store.** -/
theorem applyAll_undoLog_reverse (m : K → V) (ws : List (K × V)) :
    applyAll (applyAll m ws) (undoLog m ws).reverse = m := by
  induction ws generalizing m with
  | nil => rfl
  | cons w ws ih =>
    rw [undoLog_cons, List.reverse_append, applyAll_append, applyAll_cons, ih]
    by_cases h : m w.1 = w.2
    · simp [← h]
    · simp [h]

/-- The undo of several write lists applied one after the other: the last list is
undone first. -/
def undoAll (m : K → V) : List (List (K × V)) → List (K × V)
  | [] => []
  | ws :: wss => undoAll (applyAll m ws) wss ++ (undoLog m ws).reverse

/-- **Undoing several write lists restores the store.** -/
theorem applyAll_undoAll (m : K → V) (wss : List (List (K × V))) :
    applyAll (applyAll m wss.flatten) (undoAll m wss) = m := by
  induction wss generalizing m with
  | nil => rfl
  | cons ws wss ih =>
    rw [List.flatten_cons, applyAll_append, undoAll, applyAll_append, ih,
      applyAll_undoLog_reverse]

end Writes
