import UbtExex.Lib.Versioned
import UbtExex.Types

/-!
# The NOMT store

A map from key paths to byte strings with a history of commits.  A 32-byte value
and the 8 bytes of a block number have different lengths, so the two are kept
apart as constructors.

The history here has no bound of its own: a `Nomt` holds all commits that can be rolled
back.  That NOMT forgets the older ones is a step of its own, `Versioned.limitTo`, and
whoever takes it or leaves it out says so.

## Main definitions

* `nomtUpdates` — the sorted update list of a commit.
* `NomtMap.value`, `NomtMap.headBlock` — what is read back.

## Main results

* `NomtMap.value_update`, `NomtMap.read_head_update` — **after a commit the map holds
  the last write of each key, and the block number under the head key.**
-/

open Std

namespace UbtExex

/-- A stored byte string: a word, or a block number as `to_be_bytes` writes it. -/
inductive NomtValue
  | b256 (v : B256)
  | u64Be (n : ℕ)
  deriving DecidableEq

/-- One version of the NOMT map. -/
abbrev NomtMap := ExtTreeMap KeyPath NomtValue

/-- The NOMT store: a map with the history of the commits that it can undo. -/
abbrev Nomt := Versioned NomtMap

/-- `NOMT_HEAD_KEY`: 32 bytes of `0xff`. -/
def nomtHeadKey : KeyPath := BitVec.allOnes 256

/-- The update of one entry: its value under the path of its key. -/
def entryUpdate (e : PendingEntry) : KeyPath × NomtValue :=
  (treeIndexFromKey e.key.stem e.key.subindex, .b256 e.value)

/-- The updates of a commit: the entries and the head key, sorted by path.  The
sort is stable, so the last of several entries for one key stays the last. -/
def nomtUpdates (entries : List PendingEntry) (blockNumber : ℕ) : List (KeyPath × NomtValue) :=
  (entries.map entryUpdate ++ [(nomtHeadKey, NomtValue.u64Be blockNumber)]).insertionSort
    fun a b => a.1 ≤ b.1

namespace NomtMap

/-- The number read under the head key, as startup reads it: anything but the 8
bytes of a number reads as zero. -/
def headBlock (t : NomtMap) : ℕ :=
  match t[nomtHeadKey]? with
  | some (.u64Be n) => n
  | _ => 0

/-- The word read for a key, zero when absent. -/
def value (t : NomtMap) (key : TreeKey) : B256 :=
  match t[key.path]? with
  | some (.b256 v) => v
  | _ => 0

/-- The map after the updates of a commit. -/
def update (t : NomtMap) (entries : List PendingEntry) (blockNumber : ℕ) : NomtMap :=
  Tables.insertAll t (nomtUpdates entries blockNumber)

theorem getElem?_update (t : NomtMap) (entries : List PendingEntry) (n : ℕ) (path : KeyPath) :
    (t.update entries n)[path]? =
      if nomtHeadKey = path then some (.u64Be n)
      else (Writes.lastWrite (entries.map entryUpdate) path).or t[path]? := by
  unfold update nomtUpdates
  rw [Tables.getElem?_insertAll, Writes.lastWrite_insertionSort _ fun _ => BitVec.le_refl _, Writes.lastWrite_append]
  by_cases h : nomtHeadKey = path
  · simp [Writes.lastWrite_cons, h]
  · simp [Writes.lastWrite_cons, h]

theorem read_head_update (t : NomtMap) (entries : List PendingEntry) (n : ℕ) :
    (t.update entries n)[nomtHeadKey]? = some (.u64Be n) := by
  rw [getElem?_update, if_pos rfl]

@[simp] theorem headBlock_update (t : NomtMap) (entries : List PendingEntry) (n : ℕ) :
    (t.update entries n).headBlock = n := by
  unfold headBlock
  rw [read_head_update]

/-- The last write to a path is the last write to the key of the path. -/
theorem lastWrite_path (entries : List PendingEntry) (key : TreeKey) :
    Writes.lastWrite (entries.map entryUpdate) key.path =
      (Writes.lastWrite (entries.map PendingEntry.write) key).map NomtValue.b256 := by
  induction entries with
  | nil => rfl
  | cons e es ih =>
    rw [List.map_cons, List.map_cons, Writes.lastWrite_cons, Writes.lastWrite_cons, ih]
    have hpath : (entryUpdate e).1 = key.path ↔ e.write.1 = key := TreeKey.path_injective.eq_iff
    simp only [hpath]
    cases Writes.lastWrite (es.map PendingEntry.write) key with
    | some v => rfl
    | none => simp only [Option.none_or, Option.map_none]; split <;> rfl

/-- **After a commit a key holds the last of its writes, or the word it held.** -/
theorem value_update (t : NomtMap) (entries : List PendingEntry) (n : ℕ) {key : TreeKey}
    (hkey : key.path ≠ nomtHeadKey) :
    (t.update entries n).value key =
      Writes.applyAll t.value (entries.map PendingEntry.write) key := by
  rw [Writes.applyAll_eq_lastWrite]
  unfold value
  rw [getElem?_update, if_neg hkey.symm, lastWrite_path]
  cases Writes.lastWrite (entries.map PendingEntry.write) key with
  | some v => rfl
  | none => rfl

end NomtMap

/-- `begin_session`, `finish` and `commit` of one update list. -/
def Nomt.commitUpdates (t : Nomt) (entries : List PendingEntry) (blockNumber : ℕ) : Nomt :=
  t.commit (t.current.update entries blockNumber)

end UbtExex
