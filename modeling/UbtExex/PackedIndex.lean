import UbtExex.Export
import UbtExex.Index
import UbtExex.Lib.Bytes

/-!
# The rows of the key index as they are stored

A row of `ubt_stems` is 52 bytes: the address of the stem and its bitmap.  A batch
is merged on these bytes, in the order in which the hash map that groups it happens
to be iterated.  Neither the bytes nor that order can be seen in the records: the
stored table is at any time the packed table of records.

## Main definitions

* `packValue`, `splitValue` — the bytes of a row.
* `Batch`, `applyBatch` — a call of `apply_updates` on the stored table.
* `forEachStem` — a callback on the stored rows, in order.

## Main results

* `splitValue_packValue` — **a row is read back.**
* `applyBatch_packTable` — **a call on the stored table is the call on the records.**
-/

open Std

namespace UbtExex

namespace PackedIndex

open KeyIndex

/-! ### Rows -/

/-- `Address::into_array`. -/
def intoArray (address : Address) : Vector UInt8 20 :=
  ⟨(Bytes.beBytes 20 address.toNat).toArray, by simp⟩

/-- `Address::from` for an array. -/
def addressFrom (bytes : Vector UInt8 20) : Address :=
  BitVec.ofNat 160 (Bytes.ofBeBytes bytes.toList)

/-- `pack_value`. -/
def packValue (address : Address) (bitmap : Vector UInt8 32) : Vector UInt8 52 :=
  intoArray address ++ bitmap

/-- `split_value`. -/
def splitValue (bytes : Vector UInt8 52) : Except UbtError (Address × Vector UInt8 32) :=
  let addrBytes : Vector UInt8 20 := bytes.extract 0 20
  let bitmap : Vector UInt8 32 := bytes.extract 20 52
  .ok (addressFrom addrBytes, bitmap)

theorem addressFrom_intoArray (address : Address) : addressFrom (intoArray address) = address := by
  unfold addressFrom intoArray
  rw [Vector.toList_mk, List.toList_toArray, Bytes.ofBeBytes_beBytes address.isLt]
  simp only [BitVec.ofNat_toNat, BitVec.setWidth_eq]

/-- **A row is read back.** -/
theorem splitValue_packValue (address : Address) (bitmap : Vector UInt8 32) :
    splitValue (packValue address bitmap) = .ok (address, bitmap) := by
  have haddr : (packValue address bitmap).extract 0 20 = intoArray address := by
    refine Vector.ext fun i hi => ?_
    unfold packValue
    rw [Vector.getElem_extract, Vector.getElem_append_left (by omega)]
    simp
  have hbitmap : (packValue address bitmap).extract 20 52 = bitmap := by
    refine Vector.ext fun i hi => ?_
    unfold packValue
    rw [Vector.getElem_extract, Vector.getElem_append_right (by omega) (by omega)]
    simp
  unfold splitValue
  dsimp only
  rw [haddr, hbitmap, addressFrom_intoArray]

/-! ### Batches -/

/-- The stored table `ubt_stems`. -/
abbrev PackedTable := ExtTreeMap Stem (Vector UInt8 52)

/-- A call of `apply_updates`, with the order in which its hash map is iterated. -/
structure Batch where
  updates : List (Stem × UInt8 × Address)
  order : List (Stem × StemRecord) → List (Stem × StemRecord)
  /-- Every row of the hash map comes once. -/
  order_perm : ∀ rows, (order rows).Perm rows

/-- The stored table and the count of new stems, with one more row of a batch. -/
def mergePacked (t : PackedTable × ℕ) (row : Stem × StemRecord) :
    Except UbtError (PackedTable × ℕ) :=
  match t.1[row.1]? with
  | some existing => do
    let (existingAddr, existingBitmap) ← splitValue existing
    if existingAddr ≠ row.2.address then .error addressMismatch
    else .ok (t.1.insert row.1 (packValue row.2.address
      (Vector.zipWith (· ||| ·) row.2.bitmap existingBitmap)), t.2)
  | none => .ok (t.1.insert row.1 (packValue row.2.address row.2.bitmap), t.2 + 1)

/-- `apply_updates`: the table that the transaction commits, and the number of stems
added.  Without updates no transaction begins. -/
def applyBatch (t : PackedTable) (b : Batch) : Except UbtError (PackedTable × ℕ) := do
  let perStem ← b.updates.foldlM groupUpdate ∅
  if perStem.isEmpty then return (t, 0)
  else (b.order perStem.toList).foldlM mergePacked (t, 0)

/-- `for_each_stem`, over the state of the callback. -/
def forEachStem {σ : Type} (t : PackedTable) (f : σ → Stem → StemRecord → Except UbtError σ)
    (s : σ) : Except UbtError σ :=
  t.toList.foldlM (fun s entry => do
    let (address, bitmap) ← splitValue entry.2
    f s entry.1 ⟨address, bitmap⟩) s

/-! ### Packed tables of records -/

/-- The stored table of a table of records. -/
def packTable (t : ExtTreeMap Stem StemRecord) : PackedTable :=
  t.map fun _ r => packValue r.address r.bitmap

theorem getElem?_packTable (t : ExtTreeMap Stem StemRecord) (stem : Stem) :
    (packTable t)[stem]? = (t[stem]?).map fun r : StemRecord => packValue r.address r.bitmap :=
  ExtTreeMap.getElem?_map

theorem packTable_insert (t : ExtTreeMap Stem StemRecord) (stem : Stem) (r : StemRecord) :
    packTable (t.insert stem r) = (packTable t).insert stem (packValue r.address r.bitmap) := by
  refine ExtTreeMap.ext_getElem? fun stem' => ?_
  rw [getElem?_packTable, Tables.getElem?_insert, Tables.getElem?_insert, getElem?_packTable]
  split <;> rfl

/-- A row is merged into the stored table as into the records. -/
theorem mergePacked_packTable (t : ExtTreeMap Stem StemRecord) (n : ℕ) (row : Stem × StemRecord) :
    mergePacked (packTable t, n) row = (mergeRow (t, n) row).map fun s => (packTable s.1, s.2) := by
  unfold mergePacked mergeRow
  dsimp only
  rw [getElem?_packTable]
  cases t[row.1]? with
  | none =>
    rw [Option.map_none]
    dsimp only [Except.map]
    rw [packTable_insert]
  | some existing =>
    rw [Option.map_some]
    dsimp only
    rw [splitValue_packValue]
    change (if existing.address ≠ row.2.address then _ else _) = _
    split
    · rfl
    · dsimp only [Except.map]
      rw [packTable_insert]

theorem foldlM_mergePacked_packTable (rows : List (Stem × StemRecord))
    (t : ExtTreeMap Stem StemRecord) (n : ℕ) :
    rows.foldlM mergePacked (packTable t, n) =
      (rows.foldlM mergeRow (t, n)).map fun s => (packTable s.1, s.2) := by
  induction rows generalizing t n with
  | nil => rfl
  | cons row rows ih =>
    rw [List.foldlM_cons, List.foldlM_cons, mergePacked_packTable]
    cases mergeRow (t, n) row with
    | error e => rfl
    | ok s => exact ih s.1 s.2

/-- **A call on the stored table is the call on the records.** -/
theorem applyBatch_packTable (ki : KeyIndex) (b : Batch) :
    applyBatch (packTable ki.stemTable) b =
      (ki.applyUpdates b.updates).map fun p => (packTable p.1.stemTable, p.2) := by
  unfold applyBatch applyUpdates
  cases b.updates.foldlM groupUpdate ∅ with
  | error e => rfl
  | ok perStem =>
    change (if perStem.isEmpty = true then _ else _) =
      (perStem.toList.foldlM mergeRow (ki.stemTable, 0) >>= _).map _
    -- the map of the batch is iterated in some order, which does not matter
    have hrows : (b.order perStem.toList).foldlM mergePacked (packTable ki.stemTable, 0) =
        (perStem.toList.foldlM mergeRow (ki.stemTable, 0)).map fun s => (packTable s.1, s.2) := by
      rw [foldlM_mergePacked_packTable, foldlM_mergeRow_perm (b.order_perm _)]
    split
    -- a batch without updates returns before the transaction begins
    · next hempty =>
      rw [ExtTreeMap.isEmpty_iff] at hempty
      subst hempty
      rfl
    · rw [hrows]
      cases perStem.toList.foldlM mergeRow (ki.stemTable, 0) with
      | error e => rfl
      | ok s => rfl

/-- A callback gets the records. -/
theorem forEachStem_packTable {σ : Type} (ki : KeyIndex)
    (f : σ → Stem → StemRecord → Except UbtError σ) (s : σ) :
    forEachStem (packTable ki.stemTable) f s =
      ki.forEachStem.foldlM (fun s row => f s row.1 row.2) s := by
  unfold forEachStem KeyIndex.forEachStem packTable
  rw [ExtTreeMap.toList_map, List.foldlM_map]
  refine congrArg (fun g => List.foldlM g s _) (funext fun s => funext fun row => ?_)
  rw [splitValue_packValue]
  rfl

end PackedIndex

end UbtExex
