import UbtExex.Lib.Stateful
import UbtExex.Chain
import UbtExex.KeyIndex
import UbtExex.Nomt

/-!
# The execution extension

`UbtExEx` and its operations, as programs over a machine: the extension itself and
the journal of the durable writes it made.  Every durable write is one step: it
takes effect as a whole, and a crash leaves the stores as they were after some
step.  Operations of the stores fail only where the source itself raises an error.

## Main definitions

* `UbtExEx`, `Machine`, `ExM` — the extension, its journal and its programs.
* `commit`, `revert`, `shutdown` — the operations.
* `UbtExEx.new`, `UbtExEx.getHead` — startup and the resume point.
* `handle` — the match of the main loop on a notification.
* `UbtExEx.logical` — the state seen through `get_stem`.
-/

open Std

namespace UbtExex

/-! ### State -/

/-- The three durable stores. -/
structure Disk where
  db : UbtDatabase
  nomt : Nomt
  keyIndex : KeyIndex

/-- `UbtExEx`: the stores and the fields kept in memory. -/
structure UbtExEx extends Disk where
  lastBlock : ℕ
  lastHash : B256
  lastRoot : B256
  pendingEntries : List PendingEntry
  dirtyStems : ExtTreeMap Stem StemNode
  flushInterval : ℕ
  deltaRetention : ℕ
  lastPersistedBlock : ℕ
  lastPersistedHash : B256
  stemCount : ℕ

/-- The durable writes of `commit`, `revert` and `shutdown`. -/
inductive DurableStep
  | nomtCommit
  | nomtRollback
  | batchSaveStemAddresses
  | applyUpdates
  | saveBlockDeltas
  | deleteBlockDeltas
  | batchUpdateStems
  | saveHead
  | keyIndexSaveHead
  | pruneDeltasBefore
  deriving DecidableEq

/-- One durable write: its kind, and the stores before and after it. -/
structure DurableWrite where
  step : DurableStep
  before : Disk
  after : Disk

/-- The extension and its durable writes, newest first. -/
structure Machine where
  exex : UbtExEx
  journal : List DurableWrite

/-- Methods on `&mut self` that return a `Result`. -/
abbrev ExM := EStateM UbtError Machine

/-! ### Primitives -/

namespace Machine

/-- Change fields kept in memory. -/
def update (m : Machine) (f : UbtExEx → UbtExEx) : Machine := { m with exex := f m.exex }

/-- Change the stores by one durable write. -/
def persist (m : Machine) (step : DurableStep) (f : Disk → Disk) : Machine where
  exex := { m.exex with toDisk := f m.exex.toDisk }
  journal := ⟨step, m.exex.toDisk, f m.exex.toDisk⟩ :: m.journal

end Machine

/-- Change fields kept in memory. -/
def update (f : UbtExEx → UbtExEx) : ExM Unit := modify fun m => m.update f

/-- A durable write. -/
def persist (step : DurableStep) (f : Disk → Disk) : ExM Unit := modify fun m => m.persist step f

/-- A durable write that can be refused; then nothing is written. -/
def tryPersist {α : Type} (step : DurableStep) (f : Disk → Except UbtError (Disk × α)) : ExM α :=
  fun m => match f m.exex.toDisk with
    | .ok (disk, a) => .ok a (m.persist step fun _ => disk)
    | .error e => .error e m

/-! ### The overlay -/

/-- Seed a stem of the overlay from MDBX, or with a new node. -/
def seedStem (db : UbtDatabase) (dirty : ExtTreeMap Stem StemNode) (stem : Stem) :
    ExtTreeMap Stem StemNode :=
  match dirty[stem]? with
  | some _ => dirty
  | none =>
    match db.loadStem stem with
    | some existing => dirty.insert stem existing
    | none => dirty.insert stem .new

/-- The node of a stem after seeding it. -/
def stemNode (dirty : ExtTreeMap Stem StemNode) (stem : Stem) : StemNode :=
  (dirty[stem]?).getD .new

/-- What the loop of `commit` over the entries builds up. -/
structure Overlay where
  dirtyStems : ExtTreeMap Stem StemNode
  deltas : List Delta
  newStemAddresses : List (Stem × Address)

/-- The body of the loop of `commit`: seed the stem, record the old value when the
new one differs, write the new one. -/
def applyEntry (db : UbtDatabase) (o : Overlay) (e : PendingEntry) : Overlay :=
  let dirty := seedStem db o.dirtyStems e.key.stem
  -- new means new to the overlay and to MDBX, before the stem is seeded
  let isNew := (o.dirtyStems[e.key.stem]?).isNone && (db.loadStem e.key.stem).isNone
  let node := stemNode dirty e.key.stem
  let oldValue := (node.getValue e.key.subindex).getD 0
  { dirtyStems := dirty.insert e.key.stem (node.setValue e.key.subindex e.value)
    deltas := if oldValue ≠ e.value then o.deltas ++ [(e.key.stem, e.key.subindex, oldValue)]
      else o.deltas
    newStemAddresses := if isNew then o.newStemAddresses ++ [(e.key.stem, e.address)]
      else o.newStemAddresses }

/-- The loop of `commit` over the entries. -/
def applyEntries (db : UbtDatabase) (dirty : ExtTreeMap Stem StemNode)
    (entries : List PendingEntry) : Overlay :=
  entries.foldl (applyEntry db) ⟨dirty, [], []⟩

/-- The body of the loop of `apply_deltas_reverse`. -/
def applyDelta (db : UbtDatabase) (dirty : ExtTreeMap Stem StemNode) (d : Delta) :
    ExtTreeMap Stem StemNode :=
  let dirty := seedStem db dirty d.1
  dirty.insert d.1 ((stemNode dirty d.1).setValue d.2.1 d.2.2)

/-- `apply_deltas_reverse`. -/
def applyDeltasReverse (deltas : List Delta) : ExM Unit := update fun s =>
  { s with dirtyStems := deltas.reverse.foldl (applyDelta s.db) s.dirtyStems }

/-! ### Commit -/

variable (U : Ubt)

/-- `compute_root_streaming`: the root of the entries stored in MDBX. -/
def computeRoot (db : UbtDatabase) : B256 := U.buildRootHash db.iterEntriesSorted

/-- Drain the overlay into MDBX. -/
def flushDirty : ExM Unit := do
  -- the overlay is emptied first, then written in one transaction
  let dirty := (← get).exex.dirtyStems.toList
  update fun s => { s with dirtyStems := ∅ }
  unless dirty.isEmpty do
    persist .batchUpdateStems fun d => { d with db := d.db.batchUpdateStems dirty }

/-- `should_flush`. -/
def UbtExEx.shouldFlush (s : UbtExEx) (blockNumber : ℕ) : Bool :=
  blockNumber ≤ s.lastPersistedBlock || blockNumber - s.lastPersistedBlock ≥ s.flushInterval

/-- Save the addresses of the stems that were new. -/
def saveStemAddresses (newStemAddresses : List (Stem × Address)) : ExM Unit :=
  unless newStemAddresses.isEmpty do
    tryPersist .batchSaveStemAddresses fun d => do
      let db ← d.db.batchSaveStemAddresses newStemAddresses
      return ({ d with db := db }, ())

/-- Update the key index; the number of new stems is returned. -/
def indexEntries (entries : List PendingEntry) : ExM ℕ :=
  tryPersist .applyUpdates fun d => do
    let (keyIndex, newStems) ← d.keyIndex.applyUpdates
      (entries.map fun e => (e.key.stem, e.key.subindex, e.address))
    return ({ d with keyIndex := keyIndex }, newStems)

/-- Save the deltas of a block, unless it has none. -/
def saveDeltas (blockNumber : ℕ) (deltas : List Delta) : ExM Unit :=
  unless deltas.isEmpty do
    persist .saveBlockDeltas fun d => { d with db := d.db.saveBlockDeltas blockNumber deltas }

/-- The first part of `commit`, up to setting `last_block` and `last_hash`. -/
def recordBlock (blockNumber : ℕ) (blockHash : B256) : ExM Unit := do
  let entries := (← get).exex.pendingEntries
  update fun s => { s with pendingEntries := [] }
  persist .nomtCommit fun d => { d with nomt := d.nomt.commitUpdates entries blockNumber }
  let s := (← get).exex
  let o := applyEntries s.db s.dirtyStems entries
  update fun s => { s with dirtyStems := o.dirtyStems }
  saveStemAddresses o.newStemAddresses
  let newStems ← indexEntries entries
  update fun s => { s with stemCount := s.stemCount + newStems }
  saveDeltas blockNumber o.deltas
  update fun s => { s with lastBlock := blockNumber, lastHash := blockHash }

/-- Prune the deltas that fell out of the retention window. -/
def pruneDeltas (blockNumber : ℕ) : ExM Unit := do
  let s := (← get).exex
  if blockNumber > s.deltaRetention then
    persist .pruneDeltasBefore fun d =>
      { d with db := d.db.pruneDeltasBefore (blockNumber - s.deltaRetention) }

/-- The branch of `commit` that flushes: the stems, the root, both heads, then the
pruning of old deltas. -/
def flush (blockNumber : ℕ) (blockHash : B256) : ExM B256 := do
  flushDirty
  let s := (← get).exex
  let root := computeRoot U s.db
  persist .saveHead fun d =>
    { d with db := d.db.saveHead ⟨blockNumber, blockHash, root, s.stemCount⟩ }
  persist .keyIndexSaveHead fun d =>
    { d with keyIndex := d.keyIndex.saveHead ⟨blockNumber, blockHash, root, s.stemCount⟩ }
  update fun s => { s with
    lastPersistedBlock := blockNumber, lastPersistedHash := blockHash, lastRoot := root }
  pruneDeltas blockNumber
  return root

/-- `commit`: the root returned is that of the last flush. -/
def commit (blockNumber : ℕ) (blockHash : B256) : ExM B256 := do
  recordBlock blockNumber blockHash
  let s := (← get).exex
  if s.shouldFlush blockNumber then flush U blockNumber blockHash else return s.lastRoot

/-! ### Revert -/

/-- The body of the loop of `revert`: apply the deltas stored for a block, and
delete them if the block was never persisted. -/
def revertBlock (blockNumber : ℕ) : ExM Unit := do
  let s := (← get).exex
  applyDeltasReverse (s.db.loadBlockDeltas blockNumber)
  if blockNumber > s.lastPersistedBlock then
    persist .deleteBlockDeltas fun d => { d with db := d.db.deleteBlockDeltas blockNumber }

/-- Write the overlay, the root and the MDBX head of the current block, as `revert`
and `shutdown` do; the root is returned. -/
def saveCurrent : ExM B256 := do
  flushDirty
  let s := (← get).exex
  let root := computeRoot U s.db
  persist .saveHead fun d =>
    { d with db := d.db.saveHead ⟨s.lastBlock, s.lastHash, root, s.stemCount⟩ }
  return root

/-- `revert`.  A failed NOMT rollback is only logged. -/
def revert (chain : Chain) : ExM Unit := do
  persist .nomtRollback fun d =>
    { d with nomt := (d.nomt.rollback chain.blocks.length).getD d.nomt }
  chain.numbersDescending.forM revertBlock
  update fun s =>
    if chain.first.number > 0 then
      { s with lastBlock := chain.first.number - 1, lastHash := chain.first.parentHash }
    else { s with lastBlock := 0, lastHash := 0 }
  let s := (← get).exex
  -- compared with the block persisted before the revert
  let revertedPersisted := chain.blocks.any fun b => b.number ≤ s.lastPersistedBlock
  if revertedPersisted then
    let root ← saveCurrent U
    update fun s => { s with
      lastPersistedBlock := s.lastBlock, lastPersistedHash := s.lastHash, lastRoot := root }

/-- `shutdown`. -/
def shutdown : ExM Unit := do
  let _ ← saveCurrent U

/-! ### Reads -/

namespace UbtExEx

/-- `get_stem`: the overlay first, MDBX otherwise. -/
def getStem (s : UbtExEx) (stem : Stem) : Option StemNode :=
  match s.dirtyStems[stem]? with
  | some node => some node
  | none => s.db.loadStem stem

/-- `get_value`: a value of the overlay first, MDBX otherwise. -/
def getValue (s : UbtExEx) (key : TreeKey) : Option B256 :=
  match (s.dirtyStems[key.stem]?).bind fun node => node.getValue key.subindex with
  | some value => some value
  | none => s.db.loadValue key

/-- The state seen through `get_stem`, absent read as zero. -/
def logical (s : UbtExEx) (key : TreeKey) : B256 :=
  ((s.getStem key.stem).map fun node => node.value key.subindex).getD 0

end UbtExEx

/-! ### Startup -/

/-- The fields of `UbtConfig` that the extension reads. -/
structure UbtConfig where
  flushInterval : ℕ
  deltaRetention : ℕ

/-- The in-memory fields that `new` restores from the MDBX head. -/
def UbtExEx.restore (config : UbtConfig) (disk : Disk) (head : Option UbtHead) : UbtExEx :=
  let head := head.getD ⟨0, 0, 0, 0⟩
  { toDisk := disk
    lastBlock := head.blockNumber
    lastHash := head.blockHash
    lastRoot := head.root
    pendingEntries := []
    dirtyStems := ∅
    flushInterval := config.flushInterval
    deltaRetention := config.deltaRetention
    lastPersistedBlock := head.blockNumber
    lastPersistedHash := head.blockHash
    stemCount := head.stemCount }

/-- The comparison of the two heads at startup: NOMT is rolled back when it is
ahead, and the persisted block number is lowered when it is behind. -/
def UbtExEx.syncNomt (s : UbtExEx) : UbtExEx :=
  let nomtHead := s.nomt.current.headBlock
  if nomtHead > s.lastPersistedBlock then
    { s with nomt := (s.nomt.rollback (nomtHead - s.lastPersistedBlock)).getD s.nomt }
  else if nomtHead < s.lastPersistedBlock then { s with lastPersistedBlock := nomtHead }
  else s

/-- `new`, over the stores found on disk: verify the root, then compare the heads. -/
def UbtExEx.new (config : UbtConfig) (disk : Disk) : Except UbtError UbtExEx :=
  match disk.db.loadHead with
  | some head =>
    let computed := computeRoot U disk.db
    -- the root is that of MDBX alone: NOMT is not read here
    if computed = head.root then .ok (restore config disk (some head)).syncNomt
    else .error (.rootVerificationFailed head.root computed)
  | none => .ok (restore config disk none).syncNomt

/-- `get_head`: the block to resume after, none for block zero. -/
def UbtExEx.getHead (s : UbtExEx) : Option (ℕ × B256) :=
  if s.lastPersistedBlock = 0 then none else some (s.lastPersistedBlock, s.lastPersistedHash)

/-- The stores of a fresh data directory. -/
def Disk.empty : Disk := ⟨.empty, ⟨∅, []⟩, .empty⟩

/-- The machine of a fresh start. -/
def Machine.fresh (config : UbtConfig) : Machine := ⟨.restore config .empty none, []⟩

theorem UbtExEx.new_empty (config : UbtConfig) :
    UbtExEx.new U config .empty = .ok (Machine.fresh config).exex := by
  simp [UbtExEx.new, UbtDatabase.loadHead, Disk.empty, UbtDatabase.empty, UbtExEx.syncNomt,
    UbtExEx.restore, NomtMap.headBlock, Machine.fresh]

/-! ### The main loop -/

/-- `process_chain`: push the entries of the chain's bundle. -/
def processChain (chain : Chain) : ExM Unit := update fun s =>
  { s with pendingEntries := s.pendingEntries ++ chainEntries U chain.bundle }

/-- `ExExNotification`. -/
inductive Notification
  | chainCommitted (new : Chain)
  | chainReorged (old new : Chain)
  | chainReverted (old : Chain)

/-- The match of the main loop on a notification. -/
def handle : Notification → ExM Unit
  | .chainCommitted new => do
    processChain U new
    let _ ← commit U new.tip.number new.tip.hash
  | .chainReorged old new => do
    revert U old
    processChain U new
    let _ ← commit U new.tip.number new.tip.hash
  | .chainReverted old => revert U old

end UbtExex
