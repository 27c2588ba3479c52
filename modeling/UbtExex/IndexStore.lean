import UbtExex.ByteStore
import UbtExex.PackedIndex

/-!
# The key index in redb

`KeyIndex` as it runs on redb: two tables of fixed-width rows, each made when it is
first written to.  An operation is one transaction, and its hash map is iterated in
some order.  Every error of redb becomes an `UbtError` with its text, except that a
table which does not exist reads as an empty one.

redb is a parameter: it may fail any of its calls, and then the call has no effect.

## Main definitions

* `Redb` — which calls fail, and with what text.
* `packHead`, `unpackHead` — the bytes of the head row.
* `openIndex`, `applyUpdates`, `saveHead`, `loadHead`, `forEachStem` — the operations.

## Main results

* `unpackHead_packHead` — **a head row is read back.**
-/

open Std Transaction

namespace UbtExex.IndexStore

open KeyIndex PackedIndex
open ByteStore (refuse ofUbtError io)

/-- `UbtError`. -/
abbrev Error := ByteStore.UbtError

/-! ### The head row -/

/-- `META_HEAD_KEY`. -/
def metaHeadKey : String := "head"

/-- `pack_head`. -/
def packHead (blockNumber : ℕ) (blockHash root : B256) (stemCount : ℕ) : Vector UInt8 80 :=
  ⟨(Bytes.leBytes 8 blockNumber ++ (Bytes.beBytes 32 blockHash.toNat ++
    (Bytes.beBytes 32 root.toNat ++ Bytes.leBytes 8 stemCount))).toArray, by simp⟩

/-- `unpack_head`. -/
def unpackHead (bytes : Vector UInt8 80) : Except Error HeadRecord :=
  .ok
    { blockNumber := Bytes.ofLeBytes (Bytes.field bytes.toList 0 8)
      blockHash := BitVec.ofNat 256 (Bytes.ofBeBytes (Bytes.field bytes.toList 8 32))
      root := BitVec.ofNat 256 (Bytes.ofBeBytes (Bytes.field bytes.toList 40 32))
      stemCount := Bytes.ofLeBytes (Bytes.field bytes.toList 72 8) }

/-! ### redb -/

/-- The rows of a table, which may not exist. -/
abbrev Table (K V : Type) [Ord K] := Option (ExtTreeMap K V)

/-- The tables of the file. -/
structure Tables where
  ubtStems : Table Stem (Vector UInt8 52)
  ubtMeta : Table String (Vector UInt8 80)

/-- A new file. -/
def Tables.empty : Tables := ⟨none, none⟩

/-- `TableDefinition`. -/
structure TableDefinition (K V : Type) [Ord K] where
  rows : Tables → Table K V
  put : Tables → ExtTreeMap K V → Tables

/-- `STEM_TABLE`. -/
def stemTable : TableDefinition Stem (Vector UInt8 52) :=
  ⟨Tables.ubtStems, fun t rows => { t with ubtStems := some rows }⟩

/-- `META_TABLE`. -/
def metaTable : TableDefinition String (Vector UInt8 80) :=
  ⟨Tables.ubtMeta, fun t rows => { t with ubtMeta := some rows }⟩

/-- redb, as far as its user sees it fail: the text of the error that the call with a
number fails with. -/
structure Redb where
  fault : ℕ → Option String

/-- An operation of the key index. -/
abbrev IndexM := EStateM Error (Session Tables)

variable (lib : Redb) {K V : Type} [Ord K]

/-- A call into redb. -/
def redbCall {α : Type} (f : Store Tables → α × Store Tables) : IndexM α :=
  call lib.fault (fun st => .ok (f st)) >>= fun
    | .ok a => pure a
    | .error text => throw (refuse text)

/-- The copy that the write transaction works on. -/
def workingCopy (st : Store Tables) : Tables := st.working.getD st.committed

/-- `begin_write`. -/
def beginWrite : IndexM PUnit := redbCall lib fun st => (⟨⟩, .opened st.committed st.committed)

/-- `WriteTransaction::open_table`: a table that does not exist is made. -/
def openTable (T : TableDefinition K V) : IndexM PUnit := redbCall lib fun st =>
  (⟨⟩, .opened st.committed (T.put (workingCopy st) ((T.rows (workingCopy st)).getD ∅)))

/-- `Table::get`. -/
def tableGet (T : TableDefinition K V) [TransOrd K] (key : K) : IndexM (Option V) :=
  redbCall lib fun st => (((T.rows (workingCopy st)).getD ∅)[key]?, st)

/-- `Table::insert`. -/
def tableInsert (T : TableDefinition K V) [TransOrd K] (key : K) (value : V) : IndexM PUnit :=
  redbCall lib fun st => (⟨⟩, .opened st.committed
    (T.put (workingCopy st) (((T.rows (workingCopy st)).getD ∅).insert key value)))

/-- `WriteTransaction::commit`. -/
def commitWrite : IndexM PUnit := redbCall lib fun st => (⟨⟩, .closed (workingCopy st))

/-- `begin_read`: a snapshot. -/
def beginRead : IndexM Tables := redbCall lib fun st => (st.committed, st)

/-- `ReadTransaction::open_table`: none is `TableDoesNotExist`. -/
def openReadTable (T : TableDefinition K V) (snapshot : Tables) : IndexM (Table K V) :=
  redbCall lib fun st => (T.rows snapshot, st)

/-- `get` in a table of a snapshot. -/
def readGet [TransOrd K] (rows : ExtTreeMap K V) (key : K) : IndexM (Option V) :=
  redbCall lib fun st => (rows[key]?, st)

/-- A step of an iterator, or its end. -/
def stepIter : IndexM PUnit := redbCall lib fun st => (⟨⟩, st)

/-! ### The operations -/

/-- `KeyIndex::open`: the file is opened, or created if there is none. -/
def openIndex (createDirAll : Except String Unit) : IndexM PUnit := do
  io createDirAll
  redbCall lib fun st => (⟨⟩, st)

/-- What the rows give. -/
def ofRows {α : Type} : Except UbtError α → IndexM α
  | .ok a => pure a
  | .error e => throw (ofUbtError e)

/-- Merge a row of a batch into the table, and count it if it is new. -/
def mergeStored (newStems : ℕ) (row : Stem × StemRecord) : IndexM ℕ := do
  match ← tableGet lib stemTable row.1 with
  | some existing => do
    let (existingAddr, existingBitmap) ← ofRows (splitValue existing)
    if existingAddr ≠ row.2.address then ofRows (.error addressMismatch)
    else do
      tableInsert lib stemTable row.1 (packValue row.2.address
        (Vector.zipWith (· ||| ·) row.2.bitmap existingBitmap))
      return newStems
  | none => do
    tableInsert lib stemTable row.1 (packValue row.2.address row.2.bitmap)
    return newStems + 1

/-- One write transaction on one table. -/
def inWriteTxn {α : Type} (T : TableDefinition K V) (body : IndexM α) : IndexM α := do
  beginWrite lib
  guarded do
    let a ← openTable lib T >>= fun _ => body
    commitWrite lib
    return a

/-- `apply_updates`: a batch that is refused or has no updates begins no transaction. -/
def applyUpdates (b : Batch) : IndexM ℕ := do
  let perStem ← ofRows (b.updates.foldlM groupUpdate ∅)
  if perStem.isEmpty then return 0
  else inWriteTxn lib stemTable ((b.order perStem.toList).foldlM (mergeStored lib) 0)

/-- `save_head`. -/
def saveHead (blockNumber : UInt64) (blockHash root : B256) (stemCount : UInt64) : IndexM PUnit :=
  inWriteTxn lib metaTable (tableInsert lib metaTable metaHeadKey
    (packHead blockNumber.toNat blockHash root stemCount.toNat))

/-- `load_head`. -/
def loadHead : IndexM (Option HeadRecord) := do
  let readTxn ← beginRead lib
  match ← openReadTable lib metaTable readTxn with
  | none => return none
  | some table =>
    match ← readGet lib table metaHeadKey with
    | none => return none
    | some value =>
      match unpackHead value with
      | .ok head => return some head
      | .error e => throw e

/-- The rows that an iterator has not passed, with the callback on each. -/
def forEachRow {β : Type} (f : β → Stem → StemRecord → Except Error β) :
    List (Stem × Vector UInt8 52) → β → IndexM β
  | [], s => do
    stepIter lib
    return s
  | (stem, value) :: rows, s => do
    stepIter lib
    let (address, bitmap) ← ofRows (splitValue value)
    match f s stem ⟨address, bitmap⟩ with
    | .ok s' => forEachRow f rows s'
    | .error e => throw e

/-- `for_each_stem`, over the state of the callback. -/
def forEachStem {β : Type} (f : β → Stem → StemRecord → Except Error β) (s : β) : IndexM β := do
  let readTxn ← beginRead lib
  match ← openReadTable lib stemTable readTxn with
  | none => return s
  | some table => do
    stepIter lib
    forEachRow lib f table.toList s

/-! ### Head rows -/

/-- **A head row is read back.** -/
theorem unpackHead_packHead {n count : ℕ} {blockHash root : B256} (hn : n < 2 ^ 64)
    (hc : count < 2 ^ 64) :
    unpackHead (packHead n blockHash root count) = .ok ⟨n, blockHash, root, count⟩ := by
  have hword : ∀ w : B256, BitVec.ofNat 256 (Bytes.ofBeBytes (Bytes.beBytes 32 w.toNat)) = w := by
    intro w
    have hlt : w.toNat < 256 ^ 32 := by have := w.isLt; omega
    rw [Bytes.ofBeBytes_beBytes hlt, BitVec.ofNat_toNat, BitVec.setWidth_eq]
  have hbytes : (packHead n blockHash root count).toList =
      Bytes.leBytes 8 n ++ (Bytes.beBytes 32 blockHash.toNat ++
        (Bytes.beBytes 32 root.toNat ++ Bytes.leBytes 8 count)) := rfl
  have hnumber := @Bytes.ofLeBytes_leBytes 8 n (by omega)
  have hcount := @Bytes.ofLeBytes_leBytes 8 count (by omega)
  -- each field is the first one behind those before it
  have hfirst : Bytes.field (packHead n blockHash root count).toList 0 8 = Bytes.leBytes 8 n := by
    rw [hbytes, Bytes.field_zero (by simp)]
  have hhash : Bytes.field (packHead n blockHash root count).toList 8 32 =
      Bytes.beBytes 32 blockHash.toNat := by
    rw [hbytes, Bytes.field_append (by simp), Bytes.length_leBytes, Bytes.field_zero (by simp)]
  have hroot : Bytes.field (packHead n blockHash root count).toList 40 32 =
      Bytes.beBytes 32 root.toNat := by
    rw [hbytes, Bytes.field_append (by simp), Bytes.field_append (by simp), Bytes.length_leBytes,
      Bytes.length_beBytes, Bytes.field_zero (by simp)]
  have hlast : Bytes.field (packHead n blockHash root count).toList 72 8 =
      Bytes.leBytes 8 count := by
    rw [hbytes, Bytes.field_append (by simp), Bytes.field_append (by simp),
      Bytes.field_append (by simp), Bytes.length_leBytes, Bytes.length_beBytes,
      Bytes.length_beBytes, Bytes.field_all (by simp)]
  unfold unpackHead
  rw [hfirst, hhash, hroot, hlast, hword, hword, hnumber, hcount]

end UbtExex.IndexStore
