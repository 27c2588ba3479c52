import UbtExex.Types

/-!
# The MDBX store

The four tables of `UbtDatabase` and the operations on them.  Each operation that
writes is one MDBX write transaction: it takes effect as a whole, and a failed one
leaves the tables as they were.  The cursor of a table yields its rows in
increasing key order.  Values are stored as they are: `bincode` reads back what it
wrote.

## Main definitions

* `UbtHead`, `UbtDatabase` — the checkpoint and the tables.
* `UbtDatabase.iterEntriesSorted` — the entries the root is computed from.

## Main results

* `mem_iterEntriesSorted`, `pairwise_iterEntriesSorted` — **the entries are the
  non-zero values of the stems, each once, in increasing order.**
* `iterEntriesSorted_congr` — equal stored values give equal entry lists.
* `loadBlockDeltas_prune`, `loadBlockDeltas_save`, `loadBlockDeltas_delete` — what
  the operations on the delta table do to each row.
-/

open Std

namespace UbtExex

/-- A recorded old value: the stem, the subindex and the value it had. -/
abbrev Delta := Stem × UInt8 × B256

/-- The checkpoint stored under `head` in `ubt_meta`. -/
structure UbtHead where
  blockNumber : ℕ
  blockHash : B256
  root : B256
  stemCount : ℕ
  deriving DecidableEq

/-- The tables of the MDBX environment. -/
structure UbtDatabase where
  /-- `ubt_stems`. -/
  stems : ExtTreeMap Stem StemNode
  /-- `ubt_stem_addresses`. -/
  stemAddresses : ExtTreeMap Stem Address
  /-- The `head` row of `ubt_meta`. -/
  head : Option UbtHead
  /-- `ubt_block_deltas`. -/
  blockDeltas : ExtTreeMap ℕ (List Delta)

namespace UbtDatabase

/-- A freshly created environment. -/
def empty : UbtDatabase := ⟨∅, ∅, none, ∅⟩

/-! ### The head and the stems -/

/-- `load_head`. -/
def loadHead (db : UbtDatabase) : Option UbtHead := db.head

/-- `save_head`. -/
def saveHead (db : UbtDatabase) (head : UbtHead) : UbtDatabase := { db with head := some head }

/-- `load_stem`. -/
def loadStem (db : UbtDatabase) (stem : Stem) : Option StemNode := db.stems[stem]?

/-- `load_value`. -/
def loadValue (db : UbtDatabase) (key : TreeKey) : Option B256 :=
  (db.loadStem key.stem).bind fun node => node.getValue key.subindex

/-- `batch_update_stems`: put every node of the batch, in one transaction. -/
def batchUpdateStems (db : UbtDatabase) (updates : List (Stem × StemNode)) : UbtDatabase :=
  { db with stems := Tables.insertAll db.stems updates }

/-- `iter_stems`. -/
def iterStems (db : UbtDatabase) : List (Stem × StemNode) := db.stems.toList

/-- `iter_entries_sorted`: the entries by stem, then by subindex. -/
def iterEntriesSorted (db : UbtDatabase) : List (TreeKey × B256) :=
  db.stems.toList.flatMap fun (stem, node) =>
    node.subindices.filterMap fun subindex =>
      (node.values[subindex]?).map fun value => (⟨stem, subindex⟩, value)

/-- The value stored for a key, zero when there is none. -/
def value (db : UbtDatabase) (key : TreeKey) : B256 :=
  ((db.loadStem key.stem).map fun node => node.value key.subindex).getD 0

/-! ### Stem addresses -/

/-- `batch_save_stem_addresses`: a stem keeps the address it was first given;
another one is an error, and then nothing is written. -/
def batchSaveStemAddresses (db : UbtDatabase) (mappings : List (Stem × Address)) :
    Except UbtError UbtDatabase := do
  let addresses ← mappings.foldlM (fun (t : ExtTreeMap Stem Address) (m : Stem × Address) =>
    match t[m.1]? with
    | some existing =>
        if existing ≠ m.2 then .error (.database (.mdbx "Stem address mismatch in MDBX")) else .ok t
    | none => .ok (t.insert m.1 m.2)) db.stemAddresses
  return { db with stemAddresses := addresses }

/-- `load_stem_address`. -/
def loadStemAddress (db : UbtDatabase) (stem : Stem) : Option Address := db.stemAddresses[stem]?

/-- Only the address table changes. -/
theorem batchSaveStemAddresses_eq_ok {db db' : UbtDatabase} {mappings : List (Stem × Address)}
    (h : db.batchSaveStemAddresses mappings = .ok db') :
    db' = { db with stemAddresses := db'.stemAddresses } := by
  unfold batchSaveStemAddresses at h
  simp only [bind, Except.bind] at h
  split at h
  · cases h
  · obtain rfl := Except.ok.inj h
    rfl

/-! ### Block deltas -/

/-- `save_block_deltas`. -/
def saveBlockDeltas (db : UbtDatabase) (blockNumber : ℕ) (deltas : List Delta) : UbtDatabase :=
  { db with blockDeltas := db.blockDeltas.insert blockNumber deltas }

/-- `load_block_deltas`: no row reads as the empty list. -/
def loadBlockDeltas (db : UbtDatabase) (blockNumber : ℕ) : List Delta :=
  (db.blockDeltas[blockNumber]?).getD []

/-- `delete_block_deltas`. -/
def deleteBlockDeltas (db : UbtDatabase) (blockNumber : ℕ) : UbtDatabase :=
  { db with blockDeltas := db.blockDeltas.erase blockNumber }

/-- `prune_deltas_before`: collect the older rows with a cursor, then delete them. -/
def pruneDeltasBefore (db : UbtDatabase) (blockNumber : ℕ) : UbtDatabase :=
  let toDelete := (db.blockDeltas.toList.map Prod.fst).filter fun bn => bn < blockNumber
  { db with blockDeltas := Tables.eraseAll db.blockDeltas toDelete }

/-! ### Stored values -/

theorem value_eq_loadStem (db : UbtDatabase) (key : TreeKey) :
    db.value key = ((db.loadStem key.stem).getD .new).value key.subindex := by
  unfold value
  cases db.loadStem key.stem <;> simp

theorem mem_iterStems {db : UbtDatabase} {row : Stem × StemNode} :
    row ∈ db.iterStems ↔ db.loadStem row.1 = some row.2 :=
  ExtTreeMap.mem_toList_iff_getElem?_eq_some

theorem value_of_mem_iterStems {db : UbtDatabase} {row : Stem × StemNode}
    (h : row ∈ db.iterStems) (i : UInt8) : db.value ⟨row.1, i⟩ = row.2.value i := by
  rw [value_eq_loadStem, mem_iterStems.mp h]
  rfl

/-- The stored values are those of the stems. -/
theorem value_of_stems {db db' : UbtDatabase} (h : db'.stems = db.stems) : db'.value = db.value := by
  funext key
  unfold value loadStem
  rw [h]

theorem loadStem_batchUpdateStems (db : UbtDatabase) (dirty : ExtTreeMap Stem StemNode)
    (stem : Stem) :
    (db.batchUpdateStems dirty.toList).loadStem stem = (dirty[stem]?).or (db.loadStem stem) :=
  Tables.getElem?_insertAll_toList _ _ _

/-! ### Entries -/

/-- The order of the entries: by stem, then by subindex. -/
def EntryLt (a b : TreeKey × B256) : Prop :=
  a.1.stem < b.1.stem ∨ a.1.stem = b.1.stem ∧ a.1.subindex < b.1.subindex

instance : IsTrans (TreeKey × B256) EntryLt where
  trans a b c := by
    rintro (h | ⟨h, hi⟩) (h' | ⟨h', hi'⟩)
    · exact Or.inl (BitVec.lt_trans h h')
    · exact Or.inl (h' ▸ h)
    · exact Or.inl (h ▸ h')
    · exact Or.inr ⟨h.trans h', UInt8.lt_trans hi hi'⟩

instance : Std.Irrefl (α := TreeKey × B256) EntryLt where
  irrefl a := by
    rintro (h | ⟨-, h⟩)
    · exact BitVec.lt_irrefl _ h
    · exact UInt8.lt_irrefl _ h

/-- **The entries are exactly the non-zero stored values.** -/
theorem mem_iterEntriesSorted {db : UbtDatabase} {key : TreeKey} {v : B256} :
    (key, v) ∈ db.iterEntriesSorted ↔ v ≠ 0 ∧ db.value key = v := by
  obtain ⟨stem, i⟩ := key
  have hrow : ∀ (node : StemNode) (w : TreeKey × B256),
      w ∈ (node.subindices.filterMap fun j =>
        (node.values[j]?).map fun u => ((⟨stem, j⟩ : TreeKey), u)) ↔
        w.1.stem = stem ∧ node.values[w.1.subindex]? = some w.2 := by
    intro node w
    obtain ⟨⟨ws, wi⟩, wv⟩ := w
    simp only [List.mem_filterMap, Option.map_eq_some_iff, Prod.mk.injEq, TreeKey.mk.injEq]
    constructor
    · rintro ⟨j, -, u, hj, ⟨rfl, rfl⟩, rfl⟩
      exact ⟨rfl, hj⟩
    · rintro ⟨rfl, hw⟩
      refine ⟨wi, ?_, wv, hw, ⟨rfl, rfl⟩, rfl⟩
      rw [StemNode.subindices, ExtTreeMap.mem_keys]
      exact ExtTreeMap.mem_iff_isSome_getElem?.mpr (by rw [hw]; rfl)
  unfold iterEntriesSorted value loadStem
  rw [List.mem_flatMap]
  constructor
  · rintro ⟨⟨stem', node⟩, hnode, hmem⟩
    rw [ExtTreeMap.mem_toList_iff_getElem?_eq_some] at hnode
    simp only [List.mem_filterMap, Option.map_eq_some_iff, Prod.mk.injEq, TreeKey.mk.injEq] at hmem
    obtain ⟨j, -, u, hj, ⟨rfl, rfl⟩, rfl⟩ := hmem
    rw [hnode]
    exact StemNode.values_eq_some_iff.mp hj
  · rintro ⟨hv, hval⟩
    cases hnode : db.stems[stem]? with
    | none => rw [hnode] at hval; exact absurd hval.symm hv
    | some node =>
      rw [hnode] at hval
      refine ⟨(stem, node), ExtTreeMap.mem_toList_iff_getElem?_eq_some.mpr hnode, ?_⟩
      exact (hrow node _).mpr ⟨rfl, StemNode.values_eq_some_iff.mpr ⟨hv, hval⟩⟩

/-- **The entries strictly increase.** -/
theorem pairwise_iterEntriesSorted (db : UbtDatabase) :
    db.iterEntriesSorted.Pairwise EntryLt := by
  unfold iterEntriesSorted
  rw [List.pairwise_flatMap]
  constructor
  · rintro ⟨stem, node⟩ -
    rw [List.pairwise_filterMap]
    refine (ExtTreeMap.ordered_keys (t := node.values)).imp fun {i j} hij => ?_
    intro w hw w' hw'
    simp only [Option.map_eq_some_iff] at hw hw'
    obtain ⟨-, -, rfl⟩ := hw
    obtain ⟨-, -, rfl⟩ := hw'
    exact Or.inr ⟨rfl, Std.compare_eq_lt.mp hij⟩
  · refine (ExtTreeMap.ordered_keys_toList (t := db.stems)).imp fun {a b} hab => ?_
    intro w hw w' hw'
    simp only [List.mem_filterMap, Option.map_eq_some_iff] at hw hw'
    obtain ⟨-, -, -, -, rfl⟩ := hw
    obtain ⟨-, -, -, -, rfl⟩ := hw'
    exact Or.inl (compareOfLessAndEq_eq_lt.mp hab)

/-- Equal stored values give equal entry lists, whatever empty nodes are stored. -/
theorem iterEntriesSorted_congr {db db' : UbtDatabase} (h : ∀ key, db.value key = db'.value key) :
    db.iterEntriesSorted = db'.iterEntriesSorted := by
  refine Tables.eq_of_sorted_of_mem_iff (pairwise_iterEntriesSorted db)
    (pairwise_iterEntriesSorted db') ?_
  rintro ⟨key, v⟩
  rw [mem_iterEntriesSorted, mem_iterEntriesSorted, h key]

/-- The entry list determines the stored values. -/
theorem value_congr {db db' : UbtDatabase} (h : db.iterEntriesSorted = db'.iterEntriesSorted)
    (key : TreeKey) : db.value key = db'.value key := by
  -- a zero value has no entry on either side, any other has one
  by_cases hz : db.value key = 0
  · by_contra hne
    have hmem : (key, db'.value key) ∈ db'.iterEntriesSorted :=
      mem_iterEntriesSorted.mpr ⟨fun hz' => hne (hz.trans hz'.symm), rfl⟩
    rw [← h, mem_iterEntriesSorted] at hmem
    exact hne hmem.2
  · have hmem : (key, db.value key) ∈ db.iterEntriesSorted :=
      mem_iterEntriesSorted.mpr ⟨hz, rfl⟩
    rw [h, mem_iterEntriesSorted] at hmem
    exact hmem.2.symm

/-! ### Rows of the delta table -/

@[simp] theorem loadBlockDeltas_save (db : UbtDatabase) (n m : ℕ) (ds : List Delta) :
    (db.saveBlockDeltas n ds).loadBlockDeltas m = if n = m then ds else db.loadBlockDeltas m := by
  unfold loadBlockDeltas saveBlockDeltas
  rw [Tables.getElem?_insert]
  split <;> rfl

@[simp] theorem loadBlockDeltas_delete (db : UbtDatabase) (n m : ℕ) :
    (db.deleteBlockDeltas n).loadBlockDeltas m = if n = m then [] else db.loadBlockDeltas m := by
  unfold loadBlockDeltas deleteBlockDeltas
  rw [Tables.getElem?_erase]
  split <;> rfl

@[simp] theorem loadBlockDeltas_prune (db : UbtDatabase) (n m : ℕ) :
    (db.pruneDeltasBefore n).loadBlockDeltas m = if m < n then [] else db.loadBlockDeltas m := by
  unfold loadBlockDeltas pruneDeltasBefore
  rw [Tables.getElem?_eraseAll]
  -- a row below the bound is collected if it exists, and reads as empty if not
  by_cases h : m < n
  · rw [if_pos h]
    split
    · rfl
    · next hmem =>
      cases hrow : db.blockDeltas[m]? with
      | none => rfl
      | some ds =>
        refine absurd ?_ hmem
        rw [List.mem_filter]
        exact ⟨List.mem_map_of_mem (ExtTreeMap.mem_toList_iff_getElem?_eq_some.mpr hrow),
          by simpa using h⟩
  · rw [if_neg h, if_neg]
    rw [List.mem_filter]
    simpa using fun _ => Nat.le_of_not_lt h

end UbtDatabase

end UbtExex
