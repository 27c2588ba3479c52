import UbtExex.Lib.Bytes
import UbtExex.Mdbx
import UbtExex.Persistence

/-!
# The MDBX store in bytes

`UbtDatabase` as it runs on the wrapper: four named tables, keys in big-endian
bytes, values as `bincode` writes them.  Every operation is one transaction, and
`?` leaves it at the first error.

What `bincode` makes of a value is a parameter.  It may depend on the moment, since
a `HashMap` is written in the order it is iterated in; what was written is read
back.

## Main definitions

* `UbtError` — the errors of the store, with the texts of their causes.
* `Codec`, `Bincode` — serialisation.
* `inRwTxn`, `inRoTxn`, `whileNext` — the frames that the operations share.
* `openDatabase`, `saveHead`, `batchUpdateStems`, `batchSaveStemAddresses`,
  `pruneDeltasBefore`, … — the operations.
-/

open Std Transaction

namespace UbtExex.ByteStore

open Mdbx

/-! ### Names and errors -/

/-- `STEMS_DB`. -/
def stemsDb : String := "ubt_stems"

/-- `STEM_ADDR_DB`. -/
def stemAddrDb : String := "ubt_stem_addresses"

/-- `META_DB`. -/
def metaDb : String := "ubt_meta"

/-- `DELTAS_DB`. -/
def deltasDb : String := "ubt_block_deltas"

/-- `META_KEY_HEAD`: the bytes of `head`. -/
def metaKeyHead : Bytes := [0x68, 0x65, 0x61, 0x64]

/-- `STEM_LEN`. -/
def stemLen : ℕ := 31

/-- `DatabaseError`. -/
inductive DatabaseError
  /-- `"MDBX error: {0}"`. -/
  | mdbx (message : String)
  /-- `"Failed to open database at {path}: {reason}"`. -/
  | openFailed (path reason : String)
  /-- `"Transaction failed: {0}"`. -/
  | transaction (message : String)
  deriving DecidableEq, Repr

/-- `UbtError`, with the texts of the errors below it. -/
inductive UbtError
  | database (e : DatabaseError)
  | serialization (message : String)
  | io (message : String)
  | rootVerificationFailed (expected computed : B256)
  deriving DecidableEq, Repr

/-- An operation of the store. -/
abbrev StoreM := EStateM UbtError (Session Tables)

/-- A refused call, behind a text. -/
def mdbxErr (text : String) (e : Mdbx.Error) : UbtError :=
  .database (.mdbx (text ++ e.toString))

/-- A transaction that could not be opened or committed, behind a text. -/
def transactionErr (text : String) (e : Mdbx.Error) : UbtError :=
  .database (.transaction (text ++ e.toString))

/-- `DatabaseError::Mdbx` with a text of its own. -/
def refuse (message : String) : UbtError := .database (.mdbx message)

/-- An error of the typed stores. -/
def ofUbtError : UbtExex.UbtError → UbtError
  | .database (.mdbx message) => refuse message
  | .rootVerificationFailed expected computed => .rootVerificationFailed expected computed

/-! ### Bytes -/

/-- `stem.as_bytes()`. -/
def stemBytes (stem : Stem) : Bytes := Bytes.beBytes stemLen stem.toNat

/-- `Stem::new`, of a key of its length. -/
def stemOfBytes (key : Bytes) : Stem := BitVec.ofNat 248 (Bytes.ofBeBytes key)

/-- `address.as_slice()`. -/
def addressBytes (address : Address) : Bytes := Bytes.beBytes 20 address.toNat

/-- `Address::from`, of 20 bytes. -/
def addressOfBytes (bytes : Bytes) : Address := BitVec.ofNat 160 (Bytes.ofBeBytes bytes)

/-- `block_number.to_be_bytes()`. -/
def blockBytes (blockNumber : ℕ) : Bytes := Bytes.beBytes 8 blockNumber

/-- What `bincode` makes of a type. -/
structure Codec (α : Type) where
  /-- The bytes of a value, written at a moment. -/
  serialize : ℕ → α → Except String Bytes
  deserialize : Bytes → Except String α
  /-- What was written is read back. -/
  deserialize_serialize : ∀ {moment a bytes}, serialize moment a = .ok bytes →
    deserialize bytes = .ok a

/-- The serialised types, and how a stem is printed. -/
structure Bincode where
  head : Codec UbtHead
  stemNode : Codec StemNode
  deltas : Codec (List Delta)
  /-- `{:?}` of a stem. -/
  debugStem : Stem → String

/-- `bincode::serialize`. -/
def serialize {α : Type} (codec : Codec α) (a : α) : StoreM Bytes := fun s =>
  match codec.serialize s.calls a with
  | .ok bytes => .ok bytes s
  | .error message => .error (.serialization message) s

/-- `bincode::deserialize`. -/
def deserialize {α : Type} (codec : Codec α) (bytes : Bytes) : StoreM α :=
  match codec.deserialize bytes with
  | .ok a => pure a
  | .error message => throw (.serialization message)

/-! ### Frames of the operations -/

variable (lib : Libmdbx) (bin : Bincode)

/-- The texts before the errors of a write transaction. -/
structure Texts where
  begin : String := ""
  openDb : String := ""
  commit : String := ""

/-- One write transaction on one table. -/
def inRwTxn {α : Type} (texts : Texts) (name : String)
    (body : RwTransaction → Database → StoreM α) : StoreM α := do
  let txn ← (beginRwTxn lib).adaptExcept (transactionErr texts.begin)
  guarded do
    let a ← (txn.openDb lib name).adaptExcept (mdbxErr texts.openDb) >>= body txn
    (txn.commit lib).adaptExcept (transactionErr texts.commit)
    return a

/-- One read-only transaction on one table. -/
def inRoTxn {α : Type} (name : String) (body : RoTransaction → Database → StoreM α) : StoreM α := do
  let txn ← (beginRoTxn lib).adaptExcept (transactionErr "")
  let db ← (txn.openDb lib name).adaptExcept (mdbxErr "")
  body txn db

/-- `while let Some((key, value)) = cursor.next()? { .. }`, over the rows that the
cursor has not passed. -/
def whileNext {β : Type} (text : String) (body : β → Bytes × Bytes → StoreM β) :
    List (Bytes × Bytes) → β → StoreM β
  | [], acc => do
      let _ ← (Cursor.next lib ⟨[]⟩).adaptExcept (mdbxErr text)
      return acc
  | row :: rows, acc => do
      let _ ← (Cursor.next lib ⟨row :: rows⟩).adaptExcept (mdbxErr text)
      whileNext text body rows (← body acc row)

/-! ### Opening -/

/-- A file system call. -/
def io {σ : Type} : Except String Unit → EStateM UbtError (Session σ) PUnit
  | .ok _ => pure ⟨⟩
  | .error reason => throw (.io reason)

/-- The tables in the order in which they are created. -/
def tableNames : List String := [stemsDb, metaDb, deltasDb, stemAddrDb]

/-- `UbtDatabase::open`: the directory, the environment, and in one transaction the
tables. -/
def openDatabase (path : String) (createDirAll : Except String Unit) : StoreM PUnit := do
  io createDirAll
  (openEnvironment lib).adaptExcept fun e => .database (.openFailed path e.toString)
  let txn ← (beginRwTxn lib).adaptExcept (transactionErr "")
  guarded do
    let created ← tableNames.forM fun name => do
      let _ ← (txn.createDb lib name).adaptExcept (mdbxErr "")
    (txn.commit lib).adaptExcept (transactionErr "")
    return created

/-- `sync`. -/
def sync : StoreM PUnit := (Mdbx.sync lib).adaptExcept (mdbxErr "")

/-! ### The head and the stems -/

/-- `load_head`. -/
def loadHead : StoreM (Option UbtHead) := inRoTxn lib metaDb fun txn db => do
  match ← (txn.get lib db metaKeyHead).adaptExcept (mdbxErr "") with
  | some bytes => return some (← deserialize bin.head bytes)
  | none => return none

/-- `save_head`. -/
def saveHead (head : UbtHead) : StoreM PUnit := inRwTxn lib {} metaDb fun txn db => do
  let bytes ← serialize bin.head head
  (txn.put lib db metaKeyHead bytes).adaptExcept (mdbxErr "")

/-- `load_stem`. -/
def loadStem (stem : Stem) : StoreM (Option StemNode) := inRoTxn lib stemsDb fun txn db => do
  match ← (txn.get lib db (stemBytes stem)).adaptExcept (mdbxErr "") with
  | some bytes => return some (← deserialize bin.stemNode bytes)
  | none => return none

/-- `load_value`. -/
def loadValue (key : TreeKey) : StoreM (Option B256) := do
  return (← loadStem lib bin key.stem).bind fun node => node.getValue key.subindex

/-- `batch_update_stems`. -/
def batchUpdateStems (updates : List (Stem × StemNode)) : StoreM PUnit :=
  if updates.isEmpty then pure ⟨⟩
  else inRwTxn lib {} stemsDb fun txn db => updates.forM fun (stem, stemNode) => do
    let value ← serialize bin.stemNode stemNode
    (txn.put lib db (stemBytes stem) value).adaptExcept (mdbxErr "")

/-- Collect something from every row of the stems: keys of another length are passed
over. -/
def scanStems {β : Type} (collect : Stem → StemNode → List β) : StoreM (List β) :=
  inRoTxn lib stemsDb fun txn db => do
    let cursor ← (txn.cursor lib db).adaptExcept (mdbxErr "")
    whileNext lib "" (fun acc (key, value) =>
      if key.length = stemLen then do
        let stemNode ← deserialize bin.stemNode value
        return acc ++ collect (stemOfBytes key) stemNode
      else pure acc) cursor.rows []

/-- `iter_stems`. -/
def iterStems : StoreM (List (Stem × StemNode)) :=
  scanStems lib bin fun stem stemNode => [(stem, stemNode)]

/-- `iter_entries_sorted`: the entries of a stem in the order of their subindices. -/
def iterEntriesSorted : StoreM (List (TreeKey × B256)) :=
  scanStems lib bin fun stem stemNode => stemNode.subindices.filterMap fun subindex =>
    (stemNode.values[subindex]?).map fun value => (⟨stem, subindex⟩, value)

/-! ### Stem addresses -/

/-- Save the address of a stem that must have none. -/
def saveNewMapping (stem : Stem) (address : Address) (txn : RwTransaction) (db : Database) :
    StoreM PUnit := do
  match ← (txn.get lib db (stemBytes stem)).adaptExcept (mdbxErr "") with
  | some _ => throw (refuse s!"Stem address already exists for {bin.debugStem stem}")
  | none => (txn.put lib db (stemBytes stem) (addressBytes address)).adaptExcept (mdbxErr "")

/-- `save_stem_address`. -/
def saveStemAddress (stem : Stem) (address : Address) : StoreM PUnit :=
  inRwTxn lib {} stemAddrDb (saveNewMapping lib bin stem address)

/-- One mapping of a batch: a stem that has an address keeps it, and must be given the
same one. -/
def saveMapping (txn : RwTransaction) (db : Database) (mapping : Stem × Address) :
    StoreM PUnit := do
  match ← (txn.get lib db (stemBytes mapping.1)).adaptExcept (mdbxErr "") with
  | some existing =>
      if existing = addressBytes mapping.2 then pure ⟨⟩
      else throw (refuse "Stem address mismatch in MDBX")
  | none =>
      (txn.put lib db (stemBytes mapping.1) (addressBytes mapping.2)).adaptExcept (mdbxErr "")

/-- `batch_save_stem_addresses`. -/
def batchSaveStemAddresses (mappings : List (Stem × Address)) : StoreM PUnit :=
  if mappings.isEmpty then pure ⟨⟩
  else inRwTxn lib {} stemAddrDb fun txn db => mappings.forM (saveMapping lib txn db)

/-- `load_stem_address`. -/
def loadStemAddress (stem : Stem) : StoreM (Option Address) :=
  inRoTxn lib stemAddrDb fun txn db => do
    match ← (txn.get lib db (stemBytes stem)).adaptExcept (mdbxErr "") with
    | some bytes =>
        if bytes.length ≠ 20 then
          throw (refuse s!"Invalid address length: expected 20, got {bytes.length}")
        else return some (addressOfBytes bytes)
    | none => return none

/-! ### Block deltas -/

/-- `save_block_deltas`. -/
def saveBlockDeltas (blockNumber : ℕ) (deltas : List Delta) : StoreM PUnit :=
  inRwTxn lib {} deltasDb fun txn db => do
    let value ← serialize bin.deltas deltas
    (txn.put lib db (blockBytes blockNumber) value).adaptExcept (mdbxErr "")

/-- `load_block_deltas`. -/
def loadBlockDeltas (blockNumber : ℕ) : StoreM (List Delta) :=
  inRoTxn lib deltasDb fun txn db => do
    match ← (txn.get lib db (blockBytes blockNumber)).adaptExcept (mdbxErr "") with
    | some bytes => deserialize bin.deltas bytes
    | none => return []

/-- `delete_block_deltas`. -/
def deleteBlockDeltas (blockNumber : ℕ) : StoreM PUnit :=
  inRwTxn lib {} deltasDb fun txn db =>
    (txn.del lib db (blockBytes blockNumber)).adaptExcept (mdbxErr "")

/-- Delete the rows of the blocks that a test chooses: collect their keys with a
cursor, then delete them.  Keys that are not 8 bytes long stay. -/
def deleteDeltasWhere (chosen : ℕ → Bool) (cursorText nextText delText : String)
    (txn : RwTransaction) (db : Database) : StoreM ℕ := do
  let cursor ← (txn.cursor lib db).adaptExcept (mdbxErr cursorText)
  let toDelete ← whileNext lib nextText (fun toDelete (key, _) =>
    if key.length = 8 && chosen (Bytes.ofBeBytes key) then pure (toDelete ++ [key])
    else pure toDelete) cursor.rows []
  let count := toDelete.length
  toDelete.forM fun key => (txn.del lib db key).adaptExcept (mdbxErr delText)
  return count

/-- `prune_deltas_before`: returns how many rows were deleted. -/
def pruneDeltasBefore (blockNumber : ℕ) : StoreM ℕ :=
  inRwTxn lib
    { begin := "Failed to begin prune transaction: "
      openDb := "Failed to open deltas db: "
      commit := "Failed to commit prune: " } deltasDb
    (deleteDeltasWhere lib (fun bn => bn < blockNumber) "Failed to create cursor: "
      "Cursor iteration failed: " "Failed to delete delta: ")

/-- `delete_deltas_after`. -/
def deleteDeltasAfter (blockNumber : ℕ) : StoreM PUnit := do
  let _ ← inRwTxn lib {} deltasDb (deleteDeltasWhere lib (fun bn => blockNumber < bn) "" "" "")
  return ⟨⟩

end UbtExex.ByteStore
