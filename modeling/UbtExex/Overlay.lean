import UbtExex.Exex

/-!
# The overlay over MDBX

The dirty overlay and the stored stems together are read as one map from keys to
values: the overlay's node of a stem if there is one, the stored node otherwise.
Writing an entry is an update of that map whether or not its stem is seeded
already, the recorded deltas are the undo log of the entries over it, and draining
the overlay into MDBX does not change it.

## Main definitions

* `overlayStem`, `overlayValue` — the two layers read as one.
* `undoDeltas` — the undo log of a write list, as deltas.

## Main results

* `overlayValue_applyEntries`, `deltas_applyEntries` — **the loop of `commit`
  applies the entries and records their undo log.**
* `overlayValue_applyDeltas` — `apply_deltas_reverse` applies a delta list.
* `overlayValue_flush` — **draining the overlay changes no value.**
-/

open Std

namespace UbtExex

/-! ### One map -/

/-- The node of a stem: the overlay's, or else the stored one. -/
def overlayStem (db : UbtDatabase) (dirty : ExtTreeMap Stem StemNode) (stem : Stem) :
    Option StemNode :=
  (dirty[stem]?).or (db.loadStem stem)

/-- The value of a key in the two layers, zero when absent. -/
def overlayValue (db : UbtDatabase) (dirty : ExtTreeMap Stem StemNode) (key : TreeKey) : B256 :=
  ((overlayStem db dirty key.stem).getD .new).value key.subindex

theorem getStem_eq (s : UbtExEx) (stem : Stem) :
    s.getStem stem = overlayStem s.db s.dirtyStems stem := by
  unfold UbtExEx.getStem overlayStem
  cases s.dirtyStems[stem]? <;> rfl

theorem logical_eq (s : UbtExEx) : s.logical = overlayValue s.db s.dirtyStems := by
  funext key
  unfold UbtExEx.logical overlayValue
  rw [getStem_eq]
  cases overlayStem s.db s.dirtyStems key.stem <;> simp

@[simp] theorem overlayStem_empty (db : UbtDatabase) (stem : Stem) :
    overlayStem db ∅ stem = db.loadStem stem := by
  simp [overlayStem]

theorem overlayValue_empty (db : UbtDatabase) : overlayValue db ∅ = db.value := by
  funext key
  rw [UbtDatabase.value_eq_loadStem, overlayValue, overlayStem_empty]

/-- With an empty overlay the stored values are the state. -/
theorem logical_of_clean {s : UbtExEx} (h : s.dirtyStems = ∅) : s.logical = s.db.value := by
  rw [logical_eq, h, overlayValue_empty]

/-- A fresh start has no values. -/
theorem logical_fresh (config : UbtConfig) (key : TreeKey) :
    (Machine.fresh config).exex.logical key = 0 := by
  simp [UbtExEx.logical, UbtExEx.getStem, UbtDatabase.loadStem, Machine.fresh, UbtExEx.restore,
    Disk.empty, UbtDatabase.empty]

theorem overlayStem_congr {db db' : UbtDatabase} (h : db.stems = db'.stems)
    (dirty : ExtTreeMap Stem StemNode) : overlayStem db dirty = overlayStem db' dirty := by
  funext stem
  unfold overlayStem UbtDatabase.loadStem
  rw [h]

theorem overlayValue_congr {db db' : UbtDatabase} (h : db.stems = db'.stems)
    (dirty : ExtTreeMap Stem StemNode) : overlayValue db dirty = overlayValue db' dirty := by
  funext key
  unfold overlayValue
  rw [overlayStem_congr h]

/-! ### Seeding and writing -/

theorem getElem?_seedStem (db : UbtDatabase) (dirty : ExtTreeMap Stem StemNode)
    (stem stem' : Stem) :
    (seedStem db dirty stem)[stem']? =
      if stem = stem' then some ((overlayStem db dirty stem).getD .new) else dirty[stem']? := by
  unfold seedStem overlayStem
  cases hd : dirty[stem]? with
  | some node =>
    by_cases h : stem = stem'
    · simp [← h, hd]
    · simp [h]
  | none =>
    cases hl : db.loadStem stem with
    | some node => simp [Tables.getElem?_insert]
    | none => simp [Tables.getElem?_insert]

theorem stemNode_seedStem (db : UbtDatabase) (dirty : ExtTreeMap Stem StemNode) (stem : Stem) :
    stemNode (seedStem db dirty stem) stem = (overlayStem db dirty stem).getD .new := by
  unfold stemNode
  rw [getElem?_seedStem, if_pos rfl, Option.getD_some]

/-- The overlay after a value is written under a seeded stem. -/
def writeStem (db : UbtDatabase) (dirty : ExtTreeMap Stem StemNode) (key : TreeKey) (v : B256) :
    ExtTreeMap Stem StemNode :=
  let dirty := seedStem db dirty key.stem
  dirty.insert key.stem ((stemNode dirty key.stem).setValue key.subindex v)

theorem overlayStem_writeStem (db : UbtDatabase) (dirty : ExtTreeMap Stem StemNode)
    (key : TreeKey) (v : B256) (stem : Stem) :
    overlayStem db (writeStem db dirty key v) stem =
      if key.stem = stem then
        some (((overlayStem db dirty key.stem).getD .new).setValue key.subindex v)
      else overlayStem db dirty stem := by
  unfold writeStem
  simp only [stemNode_seedStem]
  unfold overlayStem
  rw [Tables.getElem?_insert, getElem?_seedStem]
  by_cases h : key.stem = stem
  · simp [h]
  · simp [h]

/-- **Writing a value updates the map at its key, whatever seeded the stem.** -/
theorem overlayValue_writeStem (db : UbtDatabase) (dirty : ExtTreeMap Stem StemNode)
    (key : TreeKey) (v : B256) :
    overlayValue db (writeStem db dirty key v) =
      Function.update (overlayValue db dirty) key v := by
  funext key'
  unfold overlayValue
  rw [overlayStem_writeStem]
  by_cases hk : key' = key
  · subst hk
    rw [if_pos rfl, Option.getD_some, StemNode.value_setValue, if_pos rfl, Function.update_self]
  · rw [Function.update_of_ne hk]
    -- another key of the same stem is read from the node written back
    by_cases hs : key.stem = key'.stem
    · have hi : key.subindex ≠ key'.subindex := by
        intro hi
        apply hk
        cases key; cases key'
        simp only [TreeKey.mk.injEq] at hs hi ⊢
        exact ⟨hs.symm, hi.symm⟩
      rw [if_pos hs, Option.getD_some, StemNode.value_setValue, if_neg hi, hs]
    · rw [if_neg hs]

/-! ### The loop of `commit` -/

/-- A key with a value, as a delta. -/
def deltaOf (w : TreeKey × B256) : Delta := (w.1.stem, w.1.subindex, w.2)

/-- The key and the value a delta restores. -/
def deltaWrite (d : Delta) : TreeKey × B256 := (⟨d.1, d.2.1⟩, d.2.2)

/-- The undo log of a write list over a state: the values it found to differ. -/
def undoDeltas (m : TreeKey → B256) (ws : List (TreeKey × B256)) : List Delta :=
  (Writes.undoLog m ws).map deltaOf

theorem map_deltaWrite_undoDeltas (m : TreeKey → B256) (ws : List (TreeKey × B256)) :
    (undoDeltas m ws).map deltaWrite = Writes.undoLog m ws := by
  unfold undoDeltas
  rw [List.map_map]
  exact List.map_id _

theorem dirtyStems_applyEntry (db : UbtDatabase) (o : Overlay) (e : PendingEntry) :
    (applyEntry db o e).dirtyStems = writeStem db o.dirtyStems e.key e.value := rfl

theorem deltas_applyEntry (db : UbtDatabase) (o : Overlay) (e : PendingEntry) :
    (applyEntry db o e).deltas =
      o.deltas ++ if overlayValue db o.dirtyStems e.key ≠ e.value then
        [deltaOf (e.key, overlayValue db o.dirtyStems e.key)] else [] := by
  have hold : ((stemNode (seedStem db o.dirtyStems e.key.stem) e.key.stem).getValue
      e.key.subindex).getD 0 = overlayValue db o.dirtyStems e.key := by
    rw [stemNode_seedStem]
    rfl
  simp only [applyEntry, hold]
  split
  · rfl
  · rw [List.append_nil]

/-- The loop, from any state it may be in. -/
theorem foldl_applyEntry (db : UbtDatabase) (entries : List PendingEntry) (o : Overlay) :
    overlayValue db (entries.foldl (applyEntry db) o).dirtyStems =
        Writes.applyAll (overlayValue db o.dirtyStems) (entries.map PendingEntry.write) ∧
      (entries.foldl (applyEntry db) o).deltas =
        o.deltas ++ undoDeltas (overlayValue db o.dirtyStems) (entries.map PendingEntry.write) := by
  induction entries generalizing o with
  | nil => simp [undoDeltas]
  | cons e es ih =>
    have hval : overlayValue db (applyEntry db o e).dirtyStems =
        Function.update (overlayValue db o.dirtyStems) e.key e.value := by
      rw [dirtyStems_applyEntry, overlayValue_writeStem]
    obtain ⟨hvals, hdeltas⟩ := ih (applyEntry db o e)
    rw [hval] at hvals hdeltas
    rw [List.foldl_cons, List.map_cons]
    -- the old value is read from the overlay that the entries before left
    refine ⟨hvals, ?_⟩
    rw [hdeltas, deltas_applyEntry, List.append_assoc]
    congr 1
    unfold undoDeltas
    rw [Writes.undoLog_cons, List.map_append]
    congr 1
    by_cases h : overlayValue db o.dirtyStems e.key = e.value
    · simp [PendingEntry.write, h]
    · simp [PendingEntry.write, h]

/-- **The loop of `commit` applies the entries in order.** -/
theorem overlayValue_applyEntries (db : UbtDatabase) (dirty : ExtTreeMap Stem StemNode)
    (entries : List PendingEntry) :
    overlayValue db (applyEntries db dirty entries).dirtyStems =
      Writes.applyAll (overlayValue db dirty) (entries.map PendingEntry.write) :=
  (foldl_applyEntry db entries _).1

/-- **The loop of `commit` records the undo log of the entries.** -/
theorem deltas_applyEntries (db : UbtDatabase) (dirty : ExtTreeMap Stem StemNode)
    (entries : List PendingEntry) :
    (applyEntries db dirty entries).deltas =
      undoDeltas (overlayValue db dirty) (entries.map PendingEntry.write) :=
  (foldl_applyEntry db entries _).2

/-! ### Undoing -/

theorem applyDelta_eq (db : UbtDatabase) (dirty : ExtTreeMap Stem StemNode) (d : Delta) :
    applyDelta db dirty d = writeStem db dirty (deltaWrite d).1 (deltaWrite d).2 := rfl

theorem overlayValue_applyDelta (db : UbtDatabase) (dirty : ExtTreeMap Stem StemNode)
    (d : Delta) :
    overlayValue db (applyDelta db dirty d) =
      Function.update (overlayValue db dirty) (deltaWrite d).1 (deltaWrite d).2 := by
  rw [applyDelta_eq, overlayValue_writeStem]

/-- **Applying a delta list writes its old values, in the order it is given.** -/
theorem overlayValue_applyDeltas (db : UbtDatabase) (ds : List Delta)
    (dirty : ExtTreeMap Stem StemNode) :
    overlayValue db (ds.foldl (applyDelta db) dirty) =
      Writes.applyAll (overlayValue db dirty) (ds.map deltaWrite) := by
  induction ds generalizing dirty with
  | nil => rfl
  | cons d ds ih => rw [List.foldl_cons, ih, overlayValue_applyDelta]; rfl

/-! ### Known stems -/

/-- A stem is known when one of the layers has a node for it. -/
def Known (db : UbtDatabase) (dirty : ExtTreeMap Stem StemNode) (stem : Stem) : Prop :=
  (overlayStem db dirty stem).isSome

theorem known_writeStem {db : UbtDatabase} {dirty : ExtTreeMap Stem StemNode} {key : TreeKey}
    {v : B256} {stem : Stem} :
    Known db (writeStem db dirty key v) stem ↔ key.stem = stem ∨ Known db dirty stem := by
  unfold Known
  rw [overlayStem_writeStem]
  split <;> simp_all

theorem known_foldl_applyEntry {db : UbtDatabase} {entries : List PendingEntry} {o : Overlay}
    {stem : Stem} :
    Known db (entries.foldl (applyEntry db) o).dirtyStems stem ↔
      (∃ e ∈ entries, e.key.stem = stem) ∨ Known db o.dirtyStems stem := by
  induction entries generalizing o with
  | nil => simp
  | cons e es ih =>
    rw [List.foldl_cons, ih, dirtyStems_applyEntry, known_writeStem]
    simp only [List.mem_cons, exists_eq_or_imp]
    rw [or_left_comm, or_assoc]

theorem known_foldl_applyDelta {db : UbtDatabase} {ds : List Delta}
    {dirty : ExtTreeMap Stem StemNode} {stem : Stem} (h : Known db dirty stem) :
    Known db (ds.foldl (applyDelta db) dirty) stem := by
  induction ds generalizing dirty with
  | nil => exact h
  | cons d ds ih =>
    rw [List.foldl_cons, applyDelta_eq]
    exact ih (known_writeStem.mpr (Or.inr h))

/-- An entry of a known stem adds no new stem. -/
theorem newStemAddresses_of_old {db : UbtDatabase} {o : Overlay} {e : PendingEntry}
    (h : Known db o.dirtyStems e.key.stem) :
    (applyEntry db o e).newStemAddresses = o.newStemAddresses := by
  unfold Known overlayStem at h
  unfold applyEntry
  cases hd : o.dirtyStems[e.key.stem]? with
  | some node => simp
  | none =>
    rw [hd, Option.none_or] at h
    simp [Option.isSome_iff_ne_none.mp h]

/-- An entry of a stem that neither layer has adds its stem. -/
theorem newStemAddresses_of_new {db : UbtDatabase} {o : Overlay} {e : PendingEntry}
    (h : ¬Known db o.dirtyStems e.key.stem) :
    (applyEntry db o e).newStemAddresses = o.newStemAddresses ++ [(e.key.stem, e.address)] := by
  unfold Known overlayStem at h
  rw [Option.not_isSome_iff_eq_none, Option.or_eq_none_iff] at h
  unfold applyEntry
  simp [h.1, h.2]

/-- No stem is new when all stems are known. -/
theorem newStemAddresses_of_known {db : UbtDatabase} {dirty : ExtTreeMap Stem StemNode}
    {entries : List PendingEntry} (h : ∀ e ∈ entries, Known db dirty e.key.stem) :
    (applyEntries db dirty entries).newStemAddresses = [] := by
  have hfold : ∀ o : Overlay, o.newStemAddresses = [] →
      (∀ e ∈ entries, Known db o.dirtyStems e.key.stem) →
      (entries.foldl (applyEntry db) o).newStemAddresses = [] := by
    clear h
    induction entries with
    | nil => exact fun o ho _ => ho
    | cons e es ih =>
      intro o ho hes
      obtain ⟨he, hes⟩ := List.forall_mem_cons.mp hes
      refine ih (applyEntry db o e) ?_ fun e' he' => ?_
      · rw [newStemAddresses_of_old he]
        exact ho
      · exact known_writeStem.mpr (Or.inr (hes e' he'))
  exact hfold _ rfl h

/-! ### Draining -/

theorem overlayStem_flush (db : UbtDatabase) (dirty : ExtTreeMap Stem StemNode) (stem : Stem) :
    overlayStem (db.batchUpdateStems dirty.toList) ∅ stem = overlayStem db dirty stem := by
  rw [overlayStem_empty, UbtDatabase.loadStem_batchUpdateStems]
  rfl

/-- **Draining the overlay into MDBX changes no value.** -/
theorem overlayValue_flush (db : UbtDatabase) (dirty : ExtTreeMap Stem StemNode) :
    (db.batchUpdateStems dirty.toList).value = overlayValue db dirty := by
  rw [← overlayValue_empty]
  funext key
  unfold overlayValue
  rw [overlayStem_flush]

end UbtExex
