import UbtExex.Lib.Bytes
import UbtExex.Exex
import UbtExex.Index

/-!
# PIR2 export

The exporters of `pir_export.rs` and the endpoints of `rpc.rs` that call them, as
programs that read the stores and write files.  Every read of a store is a
transaction of its own, so an exporter runs over a sequence of stores: those at its
coming reads.  A buffered write reaches its file in any case, since the buffer is
written out when it is dropped; the files of a failed export stay behind.

NOMT and the key index are taken to be open already: that opening them may fail is left to
the endpoints of the server.

## Main definitions

* `StateHeader`, `StorageEntry`, `stemIndexRow` — what the files are made of.
* `ExportM`, `readStore` — programs over the stores at their coming reads.
* `exportFullStateFromMdbx`, `exportContractStateFromMdbx`, `exportFullStateFromNomt`,
  `exportContractStateFromNomt`, `getStateDelta` — **the exporters.**
* `ensureNomtSynced`, `exportState`, `getRoot` — the endpoints.
-/

open Std Bytes

namespace UbtExex

/-! ### File formats -/

/-- `STATE_MAGIC`. -/
def stateMagic : List UInt8 := [0x50, 0x49, 0x52, 0x32]

/-- `STATE_HEADER_SIZE`. -/
def stateHeaderSize : ℕ := 64

/-- `STATE_ENTRY_SIZE`. -/
def stateEntrySize : ℕ := 84

/-- `STEM_INDEX_ENTRY_SIZE`. -/
def stemIndexEntrySize : ℕ := 39

/-- `StateHeader`. -/
structure StateHeader where
  magic : List UInt8
  version : ℕ
  entrySize : ℕ
  entryCount : ℕ
  blockNumber : ℕ
  chainId : ℕ
  blockHash : B256
  deriving DecidableEq

namespace StateHeader

/-- `StateHeader::new`. -/
def new (entryCount blockNumber chainId : ℕ) (blockHash : B256) : StateHeader where
  magic := stateMagic
  version := 1
  entrySize := stateEntrySize
  entryCount := entryCount
  blockNumber := blockNumber
  chainId := chainId
  blockHash := blockHash

/-- `StateHeader::to_bytes`. -/
def toBytes (h : StateHeader) : List UInt8 :=
  h.magic ++ (leBytes 2 h.version ++ (leBytes 2 h.entrySize ++ (leBytes 8 h.entryCount ++
    (leBytes 8 h.blockNumber ++ (leBytes 8 h.chainId ++ beBytes 32 h.blockHash.toNat)))))

end StateHeader

/-- `StorageEntry`. -/
structure StorageEntry where
  address : Address
  treeIndex : KeyPath
  value : B256
  deriving DecidableEq

/-- `StorageEntry::to_bytes`. -/
def StorageEntry.toBytes (e : StorageEntry) : List UInt8 :=
  beBytes 20 e.address.toNat ++ (beBytes 32 e.treeIndex.toNat ++ beBytes 32 e.value.toNat)

/-- A row of the stem index: the stem and its offset. -/
def stemIndexRow (r : Stem × ℕ) : List UInt8 := beBytes 31 r.1.toNat ++ leBytes 8 r.2

/-! ### Programs over stores and files -/

/-- The files of the output directory. -/
inductive FileName
  /-- `state.bin`. -/
  | state
  /-- `stem-index.bin`. -/
  | stemIndex
  /-- `contract-{}.bin`. -/
  | contract (contract : Address)
  /-- `contract-{}-stem-index.bin`. -/
  | contractStemIndex (contract : Address)
  /-- `delta-{}-{}.bin`. -/
  | delta (fromBlock toBlock : ℕ)
  deriving DecidableEq

/-- The contents of the output directory. -/
abbrev Dir := FileName → Option (List UInt8)

/-- What an exporter runs in: the output directory, and the stores at each of its
coming reads. -/
structure ExportEnv where
  dir : Dir
  stores : ℕ → Disk

/-- The exporters. -/
abbrev ExportM := EStateM UbtError ExportEnv

/-- One read transaction. -/
def readStore {α : Type} (f : Disk → α) : ExportM α := fun env =>
  .ok (f (env.stores 0)) { env with stores := fun n => env.stores (n + 1) }

/-- `File::create`: an old file is emptied. -/
def createFile (file : FileName) : ExportM Unit :=
  modify fun env => { env with dir := Function.update env.dir file (some []) }

/-- `write_all` at the end of a file. -/
def writeAll (file : FileName) (bytes : List UInt8) : ExportM Unit := modify fun env =>
  { env with dir := Function.update env.dir file (some ((env.dir file).getD [] ++ bytes)) }

/-- `seek(SeekFrom::Start(0))`, then `write_all`. -/
def overwriteStart (file : FileName) (bytes : List UInt8) : ExportM Unit := modify fun env =>
  { env with
    dir := Function.update env.dir file (some (bytes ++ ((env.dir file).getD []).drop bytes.length)) }

/-- An error with a message. -/
def mdbxError (message : String) : UbtError := .database (.mdbx message)

/-- A stem has no address. -/
def missingAddressesError (missing : List Stem) : UbtError :=
  let n := missing.length
  mdbxError (s!"Missing stem->address mappings for {n} stems. PIR export requires a fresh UBT build.")

/-! ### Writing the files -/

/-- What the loop over the stems counts and collects. -/
structure ExportLoop where
  entryOffset : ℕ
  stemIndexEntries : List (Stem × ℕ)
  missingAddresses : List Stem

/-- `ExportResult`. -/
structure ExportResult where
  blockNumber : ℕ
  blockHash : B256
  root : B256
  entryCount : ℕ
  stemCount : ℕ
  stateFile : FileName
  stemIndexFile : FileName
  deriving DecidableEq

/-- Create a file with the placeholder of its header. -/
def startFile (file : FileName) (chainId blockNumber : ℕ) (blockHash : B256) : ExportM Unit := do
  createFile file
  writeAll file (StateHeader.new 0 blockNumber chainId blockHash).toBytes

/-- Write a record, and count it. -/
def writeEntry (file : FileName) (e : StorageEntry) (entryOffset : ℕ) : ExportM ℕ := do
  writeAll file e.toBytes
  return entryOffset + 1

/-- Overwrite the placeholder by the final header, and write the stem index. -/
def finishFiles (stateFile indexFile : FileName) (chainId blockNumber : ℕ) (blockHash root : B256)
    (l : ExportLoop) : ExportM ExportResult := do
  overwriteStart stateFile (StateHeader.new l.entryOffset blockNumber chainId blockHash).toBytes
  createFile indexFile
  writeAll indexFile (leBytes 8 l.stemIndexEntries.length)
  l.stemIndexEntries.forM fun r => writeAll indexFile (stemIndexRow r)
  return ⟨blockNumber, blockHash, root, l.entryOffset, l.stemIndexEntries.length, stateFile,
    indexFile⟩

/-! ### Exports from MDBX -/

/-- The body of the loop over the stems: their address is read first; stems of other
contracts and stems without values are skipped. -/
def exportStem (wanted : Address → Bool) (file : FileName) (l : ExportLoop)
    (row : Stem × StemNode) : ExportM ExportLoop := do
  match ← readStore fun d => d.db.loadStemAddress row.1 with
  | none => return { l with missingAddresses := l.missingAddresses ++ [row.1] }
  | some address =>
    if wanted address then
      let subindices := row.2.subindices
      if subindices.isEmpty then return l
      else
        let entryOffset ← subindices.foldlM (fun offset i =>
          writeEntry file ⟨address, treeIndexFromKey row.1 i, row.2.value i⟩ offset) l.entryOffset
        return { l with
          entryOffset := entryOffset
          stemIndexEntries := l.stemIndexEntries ++ [(row.1, l.entryOffset)] }
    else return l

/-- An export from MDBX: the head, then all stems, then their addresses one by one. -/
def exportFromMdbx (wanted : Address → Bool) (stateFile indexFile : FileName) (chainId : ℕ) :
    ExportM ExportResult := do
  match ← readStore fun d => d.db.loadHead with
  | none => throw (mdbxError "No canonical state yet")
  | some head =>
    startFile stateFile chainId head.blockNumber head.blockHash
    let stems ← readStore fun d => d.db.iterStems
    let l ← stems.foldlM (exportStem wanted stateFile) ⟨0, [], []⟩
    if l.missingAddresses.isEmpty then
      finishFiles stateFile indexFile chainId head.blockNumber head.blockHash head.root l
    else throw (missingAddressesError l.missingAddresses)

/-- `export_full_state_from_mdbx`. -/
def exportFullStateFromMdbx (chainId : ℕ) : ExportM ExportResult :=
  exportFromMdbx (fun _ => true) .state .stemIndex chainId

/-- `export_contract_state_from_mdbx`. -/
def exportContractStateFromMdbx (contract : Address) (chainId : ℕ) : ExportM ExportResult :=
  exportFromMdbx (fun address => address = contract) (.contract contract)
    (.contractStemIndex contract) chainId

/-! ### Exports from NOMT -/

/-- `iter_bitmap_subindices`. -/
def iterBitmapSubindices (bitmap : Vector UInt8 32) : List UInt8 :=
  ((List.range 256).map UInt8.ofNat).filter (KeyIndex.hasBit bitmap)

/-- `read_nomt_value`: an absent value reads as zero, one that is not 32 bytes long is
an error. -/
def readNomtValue (treeIndex : KeyPath) : ExportM B256 := do
  match ← readStore fun d => d.nomt.current[treeIndex]? with
  | some (.b256 value) => return value
  | some (.u64Be _) => throw (mdbxError "Invalid NOMT value length")
  | none => return 0

/-- Write the record of a registered key with the value that NOMT has for it. -/
def exportSubindex (file : FileName) (address : Address) (stem : Stem) (p : ℕ × Bool)
    (subindex : UInt8) : ExportM (ℕ × Bool) := do
  let treeIndex := treeIndexFromKey stem subindex
  let value ← readNomtValue treeIndex
  let entryOffset ← writeEntry file ⟨address, treeIndex, value⟩ p.1
  return (entryOffset, true)

/-- The callback for a stem of the key index: its registered keys are looked up in
NOMT one by one. -/
def exportRecord (wanted : Address → Bool) (file : FileName) (l : ExportLoop)
    (row : Stem × StemRecord) : ExportM ExportLoop := do
  if wanted row.2.address then
    let p ← (iterBitmapSubindices row.2.bitmap).foldlM
      (exportSubindex file row.2.address row.1) (l.entryOffset, false)
    return { l with
      entryOffset := p.1
      stemIndexEntries := if p.2 then l.stemIndexEntries ++ [(row.1, l.entryOffset)]
        else l.stemIndexEntries }
  else return l

/-- An export from NOMT: the head and the stems of the key index, and the values of
NOMT.  With `checkEmpty` an export without records is an error if the head counts stems. -/
def exportFromNomt (wanted : Address → Bool) (checkEmpty : Bool) (stateFile indexFile : FileName)
    (chainId : ℕ) : ExportM ExportResult := do
  match ← readStore fun d => d.keyIndex.loadHead with
  | none => throw (mdbxError "Missing key index head metadata")
  | some head =>
    startFile stateFile chainId head.blockNumber head.blockHash
    let rows ← readStore fun d => d.keyIndex.stemTable.toList
    let l ← rows.foldlM (exportRecord wanted stateFile) ⟨0, [], []⟩
    if checkEmpty && l.entryOffset == 0 && head.stemCount > 0 then
      throw (mdbxError "Key index empty while state head indicates non-zero stems")
    else finishFiles stateFile indexFile chainId head.blockNumber head.blockHash head.root l

/-- `export_full_state_from_nomt`. -/
def exportFullStateFromNomt (chainId : ℕ) : ExportM ExportResult :=
  exportFromNomt (fun _ => true) true .state .stemIndex chainId

/-- `export_contract_state_from_nomt`. -/
def exportContractStateFromNomt (contract : Address) (chainId : ℕ) : ExportM ExportResult :=
  exportFromNomt (fun address => address = contract) false (.contract contract)
    (.contractStemIndex contract) chainId

/-! ### Deltas -/

/-- `StateDeltaResult`. -/
structure StateDeltaResult where
  fromBlock : ℕ
  toBlock : ℕ
  headBlock : ℕ
  entryCount : ℕ
  deltaFile : FileName
  deriving DecidableEq

/-- The order of the touched keys: by stem, then by subindex. -/
def TreeKey.le (a b : TreeKey) : Prop :=
  a.stem < b.stem ∨ a.stem = b.stem ∧ a.subindex ≤ b.subindex

instance : DecidableRel TreeKey.le := fun a b => by unfold TreeKey.le; infer_instance

/-- Collect the keys of the deltas of a block. -/
def touchBlock (keys : List TreeKey) (block : ℕ) : ExportM (List TreeKey) := do
  let deltas ← readStore fun d => d.db.loadBlockDeltas block
  return keys ++ deltas.map fun d => ⟨d.1, d.2.1⟩

/-- The keys of the deltas of a number of blocks, read block by block. -/
def touchedKeys (blocks : List ℕ) : ExportM (List TreeKey) := blocks.foldlM touchBlock []

/-- The touched keys, each once and in order. -/
def sortKeys (keys : List TreeKey) : List TreeKey := keys.dedup.insertionSort TreeKey.le

/-- The body of the loop over the touched keys: the address, then the value. -/
def exportKey (file : FileName) (l : ℕ × List Stem) (key : TreeKey) :
    ExportM (ℕ × List Stem) := do
  match ← readStore fun d => d.db.loadStemAddress key.stem with
  | none => return (l.1, l.2 ++ [key.stem])
  | some address =>
    let value ← readStore fun d => d.db.loadValue key
    let entryCount ← writeEntry file
      ⟨address, treeIndexFromKey key.stem key.subindex, value.getD 0⟩ l.1
    return (entryCount, l.2)

/-- `get_state_delta`. -/
def getStateDelta (fromBlock toBlock chainId deltaRetention : ℕ) : ExportM StateDeltaResult := do
  match ← readStore fun d => d.db.loadHead with
  | none => throw (mdbxError "No canonical state yet")
  | some head =>
    let headBlock := head.blockNumber
    let minBlock := headBlock - deltaRetention
    if fromBlock > toBlock then
      throw (mdbxError (s!"from_block {fromBlock} is greater than to_block {toBlock}"))
    else if toBlock > headBlock then
      throw (mdbxError (s!"to_block {toBlock} is ahead of persisted head {headBlock}"))
    else if fromBlock < minBlock then
      throw (mdbxError
        (s!"from_block {fromBlock} is before delta retention window (min: {minBlock})"))
    else
      let keys ← touchedKeys (List.range' fromBlock (toBlock + 1 - fromBlock))
      let file := FileName.delta fromBlock toBlock
      startFile file chainId headBlock head.blockHash
      let l ← (sortKeys keys).foldlM (exportKey file) (0, [])
      if l.2.isEmpty then
        overwriteStart file (StateHeader.new l.1 headBlock chainId head.blockHash).toBytes
        return ⟨fromBlock, toBlock, headBlock, l.1, file⟩
      else throw (missingAddressesError l.2)

/-! ### Endpoints -/

/-- `ensure_nomt_synced` when NOMT and the key index open: unlike at startup, a head that is
not 8 bytes long is an error. -/
def ensureNomtSynced : ExportM Unit := do
  let nomtHead ← match ← readStore fun d => d.nomt.current[nomtHeadKey]? with
    | some (.u64Be n) => pure n
    | some (.b256 _) => throw (mdbxError "Invalid NOMT head value")
    | none => pure 0
  match ← readStore fun d => d.keyIndex.loadHead with
  | none => throw (mdbxError "Missing key index head metadata")
  | some head =>
    let keyIndexHead := head.blockNumber
    if nomtHead ≠ keyIndexHead then
      throw (mdbxError (s!"NOMT head {nomtHead} does not match key index head {keyIndexHead}"))

/-- `export_state` when the stores open. -/
def exportState (defaultChainId : ℕ) (chainId : Option ℕ) : ExportM ExportResult := do
  ensureNomtSynced
  exportFullStateFromNomt (chainId.getD defaultChainId)

/-- `GetRootResult`. -/
structure GetRootResult where
  blockNumber : ℕ
  blockHash : B256
  root : B256
  stemCount : ℕ
  deriving DecidableEq

/-- `get_root` when the key index opens: its head, or the message of the error. -/
def getRoot (d : Disk) : Except String GetRootResult :=
  match d.keyIndex.loadHead with
  | none => .error "No canonical state yet"
  | some head => .ok ⟨head.blockNumber, head.blockHash, head.root, head.stemCount⟩

end UbtExex
