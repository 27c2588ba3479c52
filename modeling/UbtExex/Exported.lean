import UbtExex.Export
import UbtExex.Overlay

/-!
# What an export writes

The exporters count offsets and collect rows while they write records.  Here the
files of an export are described as a whole, from the list of the stems that are
exported: each exporter succeeds under a condition on the stores, and then its files
are those of its list.

## Main definitions

* `ExportedStem` — a stem of an export, with the address and the values.
* `stateBytes`, `indexBytes` — the files of a list of exported stems.
* `mdbxStems`, `nomtStems` — the stems that the exporters export.

## Main results

* `exportFromMdbx_run` — an export from MDBX, whatever the stores at its reads.
* `exportFromMdbx_ok_iff`, `exportFromNomt_ok_iff` — **when an export over fixed stores
  succeeds, and what it then writes.**
* `getStateDelta_ok_iff` — the same for a delta file.
-/

open Std Bytes

namespace UbtExex

/-! ### Files as a whole -/

/-- A stem of an export: its address and its values by subindex. -/
structure ExportedStem where
  stem : Stem
  address : Address
  values : List (UInt8 × B256)

/-- The records of a stem. -/
def ExportedStem.entries (r : ExportedStem) : List StorageEntry :=
  r.values.map fun v => ⟨r.address, treeIndexFromKey r.stem v.1, v.2⟩

/-- The records of an export. -/
def exportedEntries (rows : List ExportedStem) : List StorageEntry :=
  rows.flatMap ExportedStem.entries

/-- The rows of the stem index, when `n` records stand before the first stem. -/
def exportedOffsets : ℕ → List ExportedStem → List (Stem × ℕ)
  | _, [] => []
  | n, r :: rows => (r.stem, n) :: exportedOffsets (n + r.values.length) rows

/-- The state file of a list of records. -/
def stateBytes (chainId : ℕ) (block : ℕ × B256) (entries : List StorageEntry) : List UInt8 :=
  (StateHeader.new entries.length block.1 chainId block.2).toBytes ++
    entries.flatMap StorageEntry.toBytes

/-- The index file of a list of rows. -/
def indexBytes (offsets : List (Stem × ℕ)) : List UInt8 :=
  leBytes 8 offsets.length ++ offsets.flatMap stemIndexRow

@[simp] theorem exportedEntries_nil : exportedEntries [] = [] := rfl

theorem exportedEntries_append (rows rows' : List ExportedStem) :
    exportedEntries (rows ++ rows') = exportedEntries rows ++ exportedEntries rows' :=
  List.flatMap_append

theorem length_entries (r : ExportedStem) : r.entries.length = r.values.length := by
  rw [ExportedStem.entries, List.length_map]

theorem exportedOffsets_append (n : ℕ) (rows rows' : List ExportedStem) :
    exportedOffsets n (rows ++ rows') =
      exportedOffsets n rows ++ exportedOffsets (n + (exportedEntries rows).length) rows' := by
  induction rows generalizing n with
  | nil => simp [exportedOffsets]
  | cons r rows ih =>
    have hcons : exportedEntries (r :: rows) = r.entries ++ exportedEntries rows := rfl
    rw [List.cons_append, exportedOffsets, ih, exportedOffsets, List.cons_append, hcons,
      List.length_append, length_entries, Nat.add_assoc]

@[simp] theorem length_exportedOffsets (n : ℕ) (rows : List ExportedStem) :
    (exportedOffsets n rows).length = rows.length := by
  induction rows generalizing n with
  | nil => rfl
  | cons r rows ih => rw [exportedOffsets, List.length_cons, ih, List.length_cons]

@[simp] theorem length_header (h : StateHeader) (hm : h.magic.length = 4) :
    h.toBytes.length = stateHeaderSize := by
  simp [StateHeader.toBytes, hm, stateHeaderSize]

@[simp] theorem length_newHeader (count n chainId : ℕ) (hash : B256) :
    (StateHeader.new count n chainId hash).toBytes.length = stateHeaderSize :=
  length_header _ rfl

theorem length_entry (e : StorageEntry) : e.toBytes.length = stateEntrySize := by
  simp [StorageEntry.toBytes, stateEntrySize]

theorem length_stateBytes (chainId : ℕ) (block : ℕ × B256) (entries : List StorageEntry) :
    (stateBytes chainId block entries).length = stateHeaderSize + stateEntrySize * entries.length := by
  rw [stateBytes, List.length_append, length_newHeader,
    length_flatMap_of_width fun e _ => length_entry e]

/-! ### Writing -/

namespace ExportEnv

/-- The environment with other contents of a file. -/
def put (env : ExportEnv) (file : FileName) (bytes : List UInt8) : ExportEnv :=
  { env with dir := Function.update env.dir file (some bytes) }

/-- The environment after `k` reads. -/
def skip (env : ExportEnv) (k : ℕ) : ExportEnv := { env with stores := fun n => env.stores (n + k) }

@[simp] theorem put_put (env : ExportEnv) (file : FileName) (a b : List UInt8) :
    (env.put file a).put file b = env.put file b := by
  unfold put
  rw [Function.update_idem]

@[simp] theorem skip_zero (env : ExportEnv) : env.skip 0 = env := rfl

theorem skip_skip (env : ExportEnv) (j k : ℕ) : (env.skip j).skip k = env.skip (k + j) := by
  unfold skip
  simp only [Nat.add_assoc]

@[simp] theorem stores_put (env : ExportEnv) (file : FileName) (bytes : List UInt8) :
    (env.put file bytes).stores = env.stores := rfl

theorem dir_put (env : ExportEnv) (file file' : FileName) (bytes : List UInt8) :
    (env.put file bytes).dir file' = if file' = file then some bytes else env.dir file' := by
  show Function.update env.dir file (some bytes) file' = _
  rw [Function.update_apply]

end ExportEnv

section Run

variable (env : ExportEnv) (file : FileName) (a b : List UInt8)

theorem readStore_bind {α β : Type} (f : Disk → α) (g : α → ExportM β) :
    (readStore f >>= g) env = g (f (env.stores 0)) (env.skip 1) := rfl

theorem skip_put (k : ℕ) : (env.put file a).skip k = (env.skip k).put file a := rfl

theorem createFile_apply : createFile file env = .ok () (env.put file []) := rfl

theorem writeAll_put : writeAll file b (env.put file a) = .ok () (env.put file (a ++ b)) := by
  show EStateM.Result.ok () (ExportEnv.put (env.put file a) file _) = _
  rw [ExportEnv.put_put, ExportEnv.dir_put, if_pos rfl, Option.getD_some]

theorem overwriteStart_put :
    overwriteStart file b (env.put file a) = .ok () (env.put file (b ++ a.drop b.length)) := by
  show EStateM.Result.ok () (ExportEnv.put (env.put file a) file _) = _
  rw [ExportEnv.put_put, ExportEnv.dir_put, if_pos rfl, Option.getD_some]

theorem writeRows_put {α : Type} (l : List α) (g : α → List UInt8) :
    (l.forM fun r => writeAll file (g r)) (env.put file a) =
      .ok () (env.put file (a ++ l.flatMap g)) := by
  induction l generalizing a with
  | nil => rw [List.flatMap_nil, List.append_nil]; rfl
  | cons r l ih =>
    show (writeAll file (g r) >>= fun _ => l.forM fun r => writeAll file (g r)) _ = _
    rw [EStateM.bind_apply, writeAll_put]
    dsimp only
    rw [ih, List.flatMap_cons, List.append_assoc]

theorem startFile_apply (chainId n : ℕ) (hash : B256) :
    startFile file chainId n hash env =
      .ok () (env.put file (StateHeader.new 0 n chainId hash).toBytes) := by
  show writeAll file _ (env.put file []) = _
  rw [writeAll_put, List.nil_append]

theorem writeEntry_put (e : StorageEntry) (n : ℕ) :
    writeEntry file e n (env.put file a) = .ok (n + 1) (env.put file (a ++ e.toBytes)) := by
  unfold writeEntry
  rw [EStateM.bind_apply, writeAll_put]
  rfl

theorem writeEntries_put {α : Type} (l : List α) (g : α → StorageEntry) (n : ℕ) :
    l.foldlM (fun offset r => writeEntry file (g r) offset) n (env.put file a) =
      .ok (n + l.length) (env.put file (a ++ (l.map g).flatMap StorageEntry.toBytes)) := by
  induction l generalizing n a with
  | nil => rw [List.map_nil, List.flatMap_nil, List.append_nil]; rfl
  | cons r l ih =>
    rw [List.foldlM_cons, EStateM.bind_apply, writeEntry_put]
    dsimp only
    rw [ih, List.map_cons, List.flatMap_cons, List.append_assoc, List.length_cons, Nat.add_assoc,
      Nat.add_comm 1]

/-- The final header goes over the start of the state file, and the index file is new. -/
theorem finishFiles_apply (indexFile : FileName) (chainId n : ℕ) (hash root : B256)
    (l : ExportLoop) :
    finishFiles file indexFile chainId n hash root l (env.put file a) =
      .ok ⟨n, hash, root, l.entryOffset, l.stemIndexEntries.length, file, indexFile⟩
        ((env.put file ((StateHeader.new l.entryOffset n chainId hash).toBytes ++
          a.drop stateHeaderSize)).put indexFile (indexBytes l.stemIndexEntries)) := by
  unfold finishFiles
  rw [EStateM.bind_apply, overwriteStart_put]
  dsimp only
  rw [EStateM.bind_apply, createFile_apply]
  dsimp only
  rw [EStateM.bind_apply, writeAll_put]
  dsimp only
  rw [EStateM.bind_apply, writeRows_put]
  dsimp only
  rw [length_newHeader, List.nil_append]
  rfl

/-- The state file with the final header over the placeholder, and the index file. -/
theorem finishFiles_put (indexFile : FileName) (chainId n : ℕ) (hash root : B256)
    (entries : List StorageEntry) (offsets : List (Stem × ℕ)) (missing : List Stem)
    (henv : ∃ count, a = (StateHeader.new count n chainId hash).toBytes ++
      entries.flatMap StorageEntry.toBytes) :
    finishFiles file indexFile chainId n hash root ⟨entries.length, offsets, missing⟩
        (env.put file a) =
      .ok ⟨n, hash, root, entries.length, offsets.length, file, indexFile⟩
        ((env.put file (stateBytes chainId (n, hash) entries)).put indexFile
          (indexBytes offsets)) := by
  obtain ⟨count, rfl⟩ := henv
  rw [finishFiles_apply, ← length_newHeader count n chainId hash, List.drop_left]
  rfl

end Run

/-! ### The loops over the stems -/

/-- What a loop has counted and collected after more stems. -/
def ExportLoop.add (l : ExportLoop) (rows : List ExportedStem) (missing : List Stem) :
    ExportLoop where
  entryOffset := l.entryOffset + (exportedEntries rows).length
  stemIndexEntries := l.stemIndexEntries ++ exportedOffsets l.entryOffset rows
  missingAddresses := l.missingAddresses ++ missing

@[simp] theorem ExportLoop.add_nil (l : ExportLoop) : l.add [] [] = l := by
  simp [ExportLoop.add, exportedOffsets]

theorem ExportLoop.add_add (l : ExportLoop) (rows rows' : List ExportedStem)
    (missing missing' : List Stem) :
    (l.add rows missing).add rows' missing' = l.add (rows ++ rows') (missing ++ missing') := by
  unfold ExportLoop.add
  simp only [exportedEntries_append, exportedOffsets_append, List.length_append, List.append_assoc,
    Nat.add_assoc]

/-- The stems with the addresses that are read for them, one after the other. -/
def addressed : (ℕ → Disk) → List (Stem × StemNode) → List ((Stem × StemNode) × Option Address)
  | _, [] => []
  | stores, row :: rows =>
    (row, (stores 0).db.loadStemAddress row.1) :: addressed (fun n => stores (n + 1)) rows

theorem mem_of_mem_addressed {stores : ℕ → Disk} {rows : List (Stem × StemNode)}
    {c : (Stem × StemNode) × Option Address} (h : c ∈ addressed stores rows) : c.1 ∈ rows := by
  induction rows generalizing stores with
  | nil => exact absurd h List.not_mem_nil
  | cons row rows ih =>
    rcases List.mem_cons.mp h with rfl | h
    · exact List.mem_cons_self
    · exact List.mem_cons_of_mem _ (ih h)

/-- What is exported of a stem of MDBX. -/
def mdbxStem (wanted : Address → Bool) (c : (Stem × StemNode) × Option Address) :
    Option ExportedStem :=
  c.2.bind fun address =>
    if wanted address ∧ c.1.2.subindices ≠ [] then
      some ⟨c.1.1, address, c.1.2.subindices.map fun i => (i, c.1.2.value i)⟩
    else none

/-- The stem, if it has no address. -/
def unaddressed (c : (Stem × StemNode) × Option Address) : Option Stem :=
  if c.2 = none then some c.1.1 else none

/-- **The records of a stored stem are its non-zero values.** -/
theorem value_of_mem_mdbxStem {wanted : Address → Bool} {db : UbtDatabase} {row : Stem × StemNode}
    {address : Option Address} {r : ExportedStem} {e : StorageEntry} (hrow : row ∈ db.iterStems)
    (hr : mdbxStem wanted (row, address) = some r) (he : e ∈ r.entries) :
    ∃ (key : TreeKey) (a : Address), db.value key ≠ 0 ∧ key.stem = row.1 ∧ address = some a ∧
      e = ⟨a, key.path, db.value key⟩ := by
  obtain ⟨a, haddr, hr⟩ := Option.bind_eq_some_iff.mp hr
  dsimp only at hr
  split at hr
  · obtain rfl := Option.some.inj hr
    obtain ⟨v, hv, rfl⟩ := List.mem_map.mp he
    obtain ⟨i, hi, rfl⟩ := List.mem_map.mp hv
    have hvalue : db.value ⟨row.1, i⟩ = row.2.value i := UbtDatabase.value_of_mem_iterStems hrow i
    refine ⟨⟨row.1, i⟩, a, ?_, rfl, haddr, ?_⟩
    · rw [hvalue]
      exact StemNode.mem_subindices.mp hi
    · rw [hvalue]
      rfl
  · cases hr

theorem filterMap_cons_toList {α β : Type} (f : α → Option β) (a : α) (l : List α) :
    (a :: l).filterMap f = (f a).toList ++ l.filterMap f := by
  rw [List.filterMap_cons]
  cases f a <;> rfl

theorem flatMap_exportedEntries {α : Type} (f : α → Option ExportedStem) (l : List α) :
    (l.flatMap fun a => exportedEntries (f a).toList) = exportedEntries (l.filterMap f) := by
  induction l with
  | nil => rfl
  | cons a l ih => rw [List.flatMap_cons, ih, filterMap_cons_toList, exportedEntries_append]

section MdbxLoop

variable {wanted : Address → Bool} {file : FileName}

theorem exportStem_put (l : ExportLoop) (row : Stem × StemNode) (env : ExportEnv)
    (a : List UInt8) :
    let c := (row, (env.stores 0).db.loadStemAddress row.1)
    exportStem wanted file l row (env.put file a) =
      .ok (l.add (mdbxStem wanted c).toList (unaddressed c).toList)
        ((env.skip 1).put file (a ++ (exportedEntries (mdbxStem wanted c).toList).flatMap
          StorageEntry.toBytes)) := by
  intro c
  unfold exportStem
  rw [readStore_bind, skip_put, ExportEnv.stores_put]
  cases haddr : (env.stores 0).db.loadStemAddress row.1 with
  | none =>
    have hc : c = (row, none) := by rw [← haddr]
    simp [hc, mdbxStem, unaddressed, ExportLoop.add, exportedOffsets]
    rfl
  | some address =>
    have hc : c = (row, some address) := by rw [← haddr]
    by_cases hw : wanted address = true
    · by_cases hempty : row.2.subindices = []
      · simp [hc, mdbxStem, unaddressed, hw, hempty]
        rfl
      -- only here is anything written: the stem has an address and a value
      · have hempty' : row.2.subindices.isEmpty = false := by simpa using hempty
        simp only [hw, if_true, hempty', Bool.false_eq_true, if_false]
        rw [EStateM.bind_apply, writeEntries_put]
        simp [hc, mdbxStem, unaddressed, hw, hempty, ExportLoop.add, exportedOffsets,
          exportedEntries, ExportedStem.entries, Function.comp_def, List.flatMap_map]
        rfl
    · simp [hc, mdbxStem, unaddressed, hw]
      rfl

/-- **The loop over the stems of MDBX.** -/
theorem exportStems_put (stems : List (Stem × StemNode)) (l : ExportLoop) (env : ExportEnv)
    (a : List UInt8) :
    let cs := addressed env.stores stems
    stems.foldlM (exportStem wanted file) l (env.put file a) =
      .ok (l.add (cs.filterMap (mdbxStem wanted)) (cs.filterMap unaddressed))
        ((env.skip stems.length).put file (a ++ (exportedEntries
          (cs.filterMap (mdbxStem wanted))).flatMap StorageEntry.toBytes)) := by
  induction stems generalizing l env a with
  | nil =>
    simp [addressed]
    rfl
  | cons row rows ih =>
    intro cs
    rw [List.foldlM_cons, EStateM.bind_apply, exportStem_put]
    dsimp only
    rw [ih, ExportLoop.add_add, ExportEnv.skip_skip, List.append_assoc, ← List.flatMap_append,
      ← exportedEntries_append]
    have hcs : cs = (row, (env.stores 0).db.loadStemAddress row.1) ::
        addressed (env.skip 1).stores rows := rfl
    rw [hcs, filterMap_cons_toList, filterMap_cons_toList]
    rfl

end MdbxLoop

/-! ### Exports from MDBX -/

/-- What an export returns. -/
def exportResult (stateFile indexFile : FileName) (block : ℕ × B256) (root : B256)
    (rows : List ExportedStem) : ExportResult :=
  ⟨block.1, block.2, root, (exportedEntries rows).length, rows.length, stateFile, indexFile⟩

/-- The environment with the files of an export. -/
def ExportEnv.putExport (env : ExportEnv) (stateFile indexFile : FileName) (chainId : ℕ)
    (block : ℕ × B256) (rows : List ExportedStem) : ExportEnv :=
  (env.put stateFile (stateBytes chainId block (exportedEntries rows))).put indexFile
    (indexBytes (exportedOffsets 0 rows))

section PutExport

variable {env : ExportEnv} {stateFile indexFile : FileName} {chainId : ℕ} {block : ℕ × B256}
  {rows : List ExportedStem}

theorem dir_putExport_state (hne : stateFile ≠ indexFile) :
    (env.putExport stateFile indexFile chainId block rows).dir stateFile =
      some (stateBytes chainId block (exportedEntries rows)) := by
  rw [ExportEnv.putExport, ExportEnv.dir_put, if_neg hne, ExportEnv.dir_put, if_pos rfl]

theorem dir_putExport_index :
    (env.putExport stateFile indexFile chainId block rows).dir indexFile =
      some (indexBytes (exportedOffsets 0 rows)) := by
  rw [ExportEnv.putExport, ExportEnv.dir_put, if_pos rfl]

end PutExport

section Mdbx

variable {wanted : Address → Bool} {stateFile indexFile : FileName} {chainId : ℕ}

/-- **An export from MDBX, whatever the stores at its reads**: the head is that of the
first read, the values are those of the second, and the addresses follow. -/
theorem exportFromMdbx_run (env : ExportEnv) :
    exportFromMdbx wanted stateFile indexFile chainId env =
      match (env.stores 0).db.loadHead with
      | none => .error (mdbxError "No canonical state yet") (env.skip 1)
      | some head =>
        let stems := (env.stores 1).db.iterStems
        let cs := addressed (env.skip 2).stores stems
        let rows := cs.filterMap (mdbxStem wanted)
        if cs.filterMap unaddressed = [] then
          .ok (exportResult stateFile indexFile (head.blockNumber, head.blockHash) head.root rows)
            ((env.skip (stems.length + 2)).putExport stateFile indexFile chainId
              (head.blockNumber, head.blockHash) rows)
        else .error (missingAddressesError (cs.filterMap unaddressed))
          ((env.skip (stems.length + 2)).put stateFile
            ((StateHeader.new 0 head.blockNumber chainId head.blockHash).toBytes ++
              (exportedEntries rows).flatMap StorageEntry.toBytes)) := by
  unfold exportFromMdbx
  rw [readStore_bind]
  cases (env.stores 0).db.loadHead with
  | none => rfl
  | some head =>
    dsimp only
    rw [EStateM.bind_apply, startFile_apply]
    dsimp only
    rw [readStore_bind, skip_put, ExportEnv.skip_skip, ExportEnv.stores_put]
    have hstems : ((env.skip 1).stores 0).db.iterStems = (env.stores 1).db.iterStems := rfl
    rw [hstems, EStateM.bind_apply, exportStems_put]
    dsimp only
    rw [ExportEnv.skip_skip]
    set cs := addressed (env.skip 2).stores (env.stores 1).db.iterStems
    -- the check after the loop, when the records are in the file already
    by_cases hmissing : cs.filterMap unaddressed = []
    · have hempty : (ExportLoop.add ⟨0, [], []⟩ (cs.filterMap (mdbxStem wanted))
          (cs.filterMap unaddressed)).missingAddresses.isEmpty = true := by
        simp [ExportLoop.add, hmissing]
      have hloop : ExportLoop.add ⟨0, [], []⟩ (cs.filterMap (mdbxStem wanted))
          (cs.filterMap unaddressed) =
          ⟨(exportedEntries (cs.filterMap (mdbxStem wanted))).length,
            exportedOffsets 0 (cs.filterMap (mdbxStem wanted)), cs.filterMap unaddressed⟩ := by
        simp [ExportLoop.add]
      rw [if_pos hempty, if_pos hmissing, hloop, finishFiles_put _ _ _ _ _ _ _ _ _ _ _ ⟨0, rfl⟩,
        length_exportedOffsets]
      rfl
    · have hempty : (ExportLoop.add ⟨0, [], []⟩ (cs.filterMap (mdbxStem wanted))
          (cs.filterMap unaddressed)).missingAddresses.isEmpty = false := by
        simpa [ExportLoop.add] using hmissing
      rw [if_neg (by rw [hempty]; simp), if_neg hmissing]
      rfl

/-- **The state file of an export from MDBX**: its header is that of the head of the first
read, and its records are non-zero values of the second. -/
theorem exportFromMdbx_file {env env' : ExportEnv} {res : ExportResult}
    (hne : stateFile ≠ indexFile)
    (h : exportFromMdbx wanted stateFile indexFile chainId env = .ok res env') :
    ∃ head entries, (env.stores 0).db.loadHead = some head ∧
      env'.dir stateFile = some (stateBytes chainId (head.blockNumber, head.blockHash) entries) ∧
      ∀ e ∈ entries, ∃ key : TreeKey, (env.stores 1).db.value key ≠ 0 ∧
        e.treeIndex = key.path ∧ e.value = (env.stores 1).db.value key := by
  rw [exportFromMdbx_run] at h
  cases hhead : (env.stores 0).db.loadHead with
  | none =>
    rw [hhead] at h
    cases h
  | some head =>
    rw [hhead] at h
    dsimp only at h
    split at h
    · injection h with _ henv
      subst henv
      refine ⟨head, _, rfl, dir_putExport_state hne, fun e he => ?_⟩
      obtain ⟨r, hr, her⟩ := List.mem_flatMap.mp he
      obtain ⟨c, hc, hstem⟩ := List.mem_filterMap.mp hr
      obtain ⟨key, a, hv, -, -, rfl⟩ :=
        value_of_mem_mdbxStem (mem_of_mem_addressed hc) hstem her
      exact ⟨key, hv, rfl, rfl⟩
    · cases h

end Mdbx

/-! ### Fixed stores -/

/-- The environment of an export that nothing runs beside. -/
def ExportEnv.over (d : Disk) (dir : Dir) : ExportEnv := ⟨dir, fun _ => d⟩

@[simp] theorem ExportEnv.stores_over (d : Disk) (dir : Dir) (n : ℕ) :
    (ExportEnv.over d dir).stores n = d := rfl

@[simp] theorem ExportEnv.skip_over (d : Disk) (dir : Dir) (k : ℕ) :
    (ExportEnv.over d dir).skip k = .over d dir := rfl

theorem addressed_const (d : Disk) (stems : List (Stem × StemNode)) :
    addressed (fun _ => d) stems = stems.map fun row => (row, d.db.loadStemAddress row.1) := by
  induction stems with
  | nil => rfl
  | cons row rows ih => rw [addressed, ih, List.map_cons]

/-- What is exported of the stems of MDBX. -/
def mdbxStems (wanted : Address → Bool) (db : UbtDatabase) : List ExportedStem :=
  db.iterStems.filterMap fun row => mdbxStem wanted (row, db.loadStemAddress row.1)

/-- Every stored stem has an address. -/
def Addressed (db : UbtDatabase) : Prop :=
  ∀ row ∈ db.iterStems, (db.loadStemAddress row.1).isSome

theorem unaddressed_eq_nil {db : UbtDatabase} :
    (db.iterStems.filterMap fun row => unaddressed (row, db.loadStemAddress row.1)) = [] ↔
      Addressed db := by
  rw [List.filterMap_eq_nil_iff]
  refine forall₂_congr fun row _ => ?_
  unfold unaddressed
  cases db.loadStemAddress row.1 <;> simp

/-- **When an export from fixed MDBX stores succeeds, and what it then writes.** -/
theorem exportFromMdbx_ok_iff {wanted : Address → Bool} {stateFile indexFile : FileName}
    {chainId : ℕ} {d : Disk} {dir : Dir} {res : ExportResult} {env : ExportEnv} :
    exportFromMdbx wanted stateFile indexFile chainId (.over d dir) = .ok res env ↔
      ∃ head, d.db.loadHead = some head ∧ Addressed d.db ∧
        res = exportResult stateFile indexFile (head.blockNumber, head.blockHash) head.root
          (mdbxStems wanted d.db) ∧
        env = (ExportEnv.over d dir).putExport stateFile indexFile chainId
          (head.blockNumber, head.blockHash) (mdbxStems wanted d.db) := by
  rw [exportFromMdbx_run]
  simp only [ExportEnv.stores_over, ExportEnv.skip_over]
  cases hhead : d.db.loadHead with
  | none => simp
  | some head =>
    have hcs : addressed (ExportEnv.over d dir).stores d.db.iterStems =
        d.db.iterStems.map fun row => (row, d.db.loadStemAddress row.1) :=
      addressed_const d _
    simp only [hcs, List.filterMap_map, Function.comp_def, Option.some.injEq, exists_eq_left']
    by_cases haddr : Addressed d.db
    · rw [if_pos (unaddressed_eq_nil.mpr haddr)]
      constructor
      · intro h
        injection h with hres henv
        exact ⟨haddr, hres.symm, henv.symm⟩
      · rintro ⟨-, rfl, rfl⟩
        rfl
    · rw [if_neg fun h => haddr (unaddressed_eq_nil.mp h)]
      constructor
      · intro h
        cases h
      · exact fun h => absurd h.1 haddr

section Addressed

variable {wanted : Address → Bool} {stateFile indexFile : FileName} {chainId : ℕ} {d : Disk}
  {dir : Dir}

/-- An export from stores with a head and all addresses. -/
theorem exportFromMdbx_of_addressed {head : UbtHead} (hhead : d.db.loadHead = some head)
    (h : Addressed d.db) :
    exportFromMdbx wanted stateFile indexFile chainId (.over d dir) =
      .ok (exportResult stateFile indexFile (head.blockNumber, head.blockHash) head.root
          (mdbxStems wanted d.db))
        ((ExportEnv.over d dir).putExport stateFile indexFile chainId
          (head.blockNumber, head.blockHash) (mdbxStems wanted d.db)) :=
  exportFromMdbx_ok_iff.mpr ⟨head, hhead, h, rfl, rfl⟩

/-- An export from stores with a head and without all addresses. -/
theorem exportFromMdbx_of_unaddressed {head : UbtHead} (hhead : d.db.loadHead = some head)
    (h : ¬Addressed d.db) :
    ∃ missing, exportFromMdbx wanted stateFile indexFile chainId (.over d dir) =
      .error (missingAddressesError missing) ((ExportEnv.over d dir).put stateFile
        ((StateHeader.new 0 head.blockNumber chainId head.blockHash).toBytes ++
          (exportedEntries (mdbxStems wanted d.db)).flatMap StorageEntry.toBytes)) := by
  have hcs : addressed (ExportEnv.over d dir).stores d.db.iterStems =
      d.db.iterStems.map fun row => (row, d.db.loadStemAddress row.1) :=
    addressed_const d _
  have hmissing : ¬(d.db.iterStems.filterMap fun row =>
      unaddressed (row, d.db.loadStemAddress row.1)) = [] := fun hnil =>
    h (unaddressed_eq_nil.mp hnil)
  rw [exportFromMdbx_run]
  simp only [ExportEnv.stores_over, ExportEnv.skip_over, hhead, hcs, List.filterMap_map,
    Function.comp_def]
  rw [if_neg hmissing]
  exact ⟨_, rfl⟩

/-- An export from stores without a head. -/
theorem exportFromMdbx_of_headless (hhead : d.db.loadHead = none) :
    exportFromMdbx wanted stateFile indexFile chainId (.over d dir) =
      .error (mdbxError "No canonical state yet") ((ExportEnv.over d dir).skip 1) := by
  rw [exportFromMdbx_run, ExportEnv.stores_over, hhead]

end Addressed

/-! ### Exports from NOMT -/

/-- **The rule for loops that may stop**: a step that succeeds exactly on the elements
with a property, and then changes one file. -/
theorem foldlM_put_ok_iff {α β : Type} {env : ExportEnv} {file : FileName}
    {f : β → α → ExportM β} {P : α → Prop} {g : β → α → β} {out : α → List UInt8}
    (hstep : ∀ b x a b' env', f b x (env.put file a) = .ok b' env' ↔
      P x ∧ b' = g b x ∧ env' = env.put file (a ++ out x))
    (l : List α) (b : β) (a : List UInt8) (b' : β) (env' : ExportEnv) :
    l.foldlM f b (env.put file a) = .ok b' env' ↔
      (∀ x ∈ l, P x) ∧ b' = l.foldl g b ∧ env' = env.put file (a ++ l.flatMap out) := by
  induction l generalizing b a with
  | nil =>
    rw [List.foldlM_nil, List.flatMap_nil, List.append_nil, List.foldl_nil]
    constructor
    · intro h
      injection h with hb henv
      exact ⟨by simp, hb.symm, henv.symm⟩
    · rintro ⟨-, rfl, rfl⟩
      rfl
  | cons x l ih =>
    rw [List.foldlM_cons, EStateM.bind_eq_ok, List.forall_mem_cons, List.foldl_cons,
      List.flatMap_cons, ← List.append_assoc]
    constructor
    · rintro ⟨b₁, env₁, hx, hl⟩
      obtain ⟨hP, rfl, rfl⟩ := (hstep ..).mp hx
      obtain ⟨hPs, hb, henv⟩ := (ih ..).mp hl
      exact ⟨⟨hP, hPs⟩, hb, henv⟩
    · rintro ⟨⟨hP, hPs⟩, hb, henv⟩
      exact ⟨_, _, (hstep ..).mpr ⟨hP, rfl, rfl⟩, (ih ..).mpr ⟨hPs, hb, henv⟩⟩

/-- The word of a key can be read: what is stored there is not a block number. -/
def WordAt (t : NomtMap) (key : TreeKey) : Prop := ∀ n, t[key.path]? ≠ some (.u64Be n)

/-- What is exported of a stem of the key index. -/
def nomtStem (wanted : Address → Bool) (t : NomtMap) (row : Stem × StemRecord) :
    Option ExportedStem :=
  if wanted row.2.address ∧ iterBitmapSubindices row.2.bitmap ≠ [] then
    some ⟨row.1, row.2.address,
      (iterBitmapSubindices row.2.bitmap).map fun i => (i, t.value ⟨row.1, i⟩)⟩
  else none

theorem entries_nomtStem {wanted : Address → Bool} {t : NomtMap} {row : Stem × StemRecord}
    (hw : wanted row.2.address = true) :
    exportedEntries (nomtStem wanted t row).toList = (iterBitmapSubindices row.2.bitmap).map
      fun i => ⟨row.2.address, treeIndexFromKey row.1 i, t.value ⟨row.1, i⟩⟩ := by
  by_cases hempty : iterBitmapSubindices row.2.bitmap = []
  · simp [nomtStem, hempty]
  · simp [nomtStem, hempty, hw, exportedEntries, ExportedStem.entries, Function.comp_def]

theorem nomtStem_of_unwanted {wanted : Address → Bool} {t : NomtMap} {row : Stem × StemRecord}
    (hw : ¬wanted row.2.address = true) : nomtStem wanted t row = none := by
  unfold nomtStem
  rw [if_neg fun h => hw h.1]

/-- What the callback for a stem counts and collects. -/
theorem add_nomtStem {wanted : Address → Bool} {row : Stem × StemRecord}
    (hw : wanted row.2.address = true) (t : NomtMap) (l : ExportLoop) :
    ({ l with
      entryOffset := l.entryOffset + (iterBitmapSubindices row.2.bitmap).length
      stemIndexEntries := if (!(iterBitmapSubindices row.2.bitmap).isEmpty) = true then
        l.stemIndexEntries ++ [(row.1, l.entryOffset)] else l.stemIndexEntries } : ExportLoop) =
      l.add (nomtStem wanted t row).toList [] := by
  by_cases hempty : iterBitmapSubindices row.2.bitmap = []
  · simp [nomtStem, hempty]
  · simp [nomtStem, hempty, hw, ExportLoop.add, exportedEntries, ExportedStem.entries,
      exportedOffsets]

theorem foldl_add_nomtStem (wanted : Address → Bool) (t : NomtMap)
    (rows : List (Stem × StemRecord)) (l : ExportLoop) :
    rows.foldl (fun l row => l.add (nomtStem wanted t row).toList []) l =
      l.add (rows.filterMap (nomtStem wanted t)) [] := by
  induction rows generalizing l with
  | nil => simp
  | cons row rows ih =>
    rw [List.foldl_cons, ih, ExportLoop.add_add, filterMap_cons_toList, List.append_nil]

/-- What the loop over the subindices of a stem counts. -/
theorem foldl_exported (is : List UInt8) (p : ℕ × Bool) :
    is.foldl (fun (p : ℕ × Bool) (_ : UInt8) => (p.1 + 1, true)) p =
      (p.1 + is.length, p.2 || !is.isEmpty) := by
  induction is generalizing p with
  | nil => simp
  | cons i is ih =>
    rw [List.foldl_cons, ih]
    simp [Nat.add_assoc, Nat.add_comm 1]

/-- What is exported of the stems of the key index. -/
def nomtStems (wanted : Address → Bool) (d : Disk) : List ExportedStem :=
  d.keyIndex.stemTable.toList.filterMap (nomtStem wanted d.nomt.current)

/-- The words of all registered keys of a stem can be read, if it is exported. -/
def RowReadable (wanted : Address → Bool) (t : NomtMap) (row : Stem × StemRecord) : Prop :=
  wanted row.2.address = true → ∀ i ∈ iterBitmapSubindices row.2.bitmap, WordAt t ⟨row.1, i⟩

/-- The words of all registered keys that are exported can be read. -/
def Readable (wanted : Address → Bool) (d : Disk) : Prop :=
  ∀ row ∈ d.keyIndex.stemTable.toList, RowReadable wanted d.nomt.current row

section Nomt

variable {wanted : Address → Bool} {d : Disk} {dir : Dir} {file : FileName}

theorem readNomtValue_apply (treeIndex : KeyPath) (env : ExportEnv) :
    readNomtValue treeIndex env =
      match (env.stores 0).nomt.current[treeIndex]? with
      | some (.b256 value) => .ok value (env.skip 1)
      | some (.u64Be _) => .error (mdbxError "Invalid NOMT value length") (env.skip 1)
      | none => .ok 0 (env.skip 1) := by
  unfold readNomtValue
  rw [readStore_bind]
  cases (env.stores 0).nomt.current[treeIndex]? with
  | none => rfl
  | some w => cases w <;> rfl

theorem readNomtValue_ok_iff (key : TreeKey) (a : List UInt8) (v : B256) (env' : ExportEnv) :
    readNomtValue key.path ((ExportEnv.over d dir).put file a) = .ok v env' ↔
      WordAt d.nomt.current key ∧ v = d.nomt.current.value key ∧
        env' = (ExportEnv.over d dir).put file a := by
  rw [readNomtValue_apply, ExportEnv.stores_put, ExportEnv.stores_over, skip_put,
    ExportEnv.skip_over]
  unfold WordAt NomtMap.value
  cases d.nomt.current[key.path]? with
  | none =>
    simp only [reduceCtorEq, ne_eq, not_false_eq_true, implies_true, true_and]
    constructor
    · intro h
      injection h with hv henv
      exact ⟨hv.symm, henv.symm⟩
    · rintro ⟨rfl, rfl⟩
      rfl
  | some w =>
    cases w with
    | b256 w =>
      simp only [Option.some.injEq, reduceCtorEq, ne_eq, not_false_eq_true, implies_true, true_and]
      constructor
      · intro h
        injection h with hv henv
        exact ⟨hv.symm, henv.symm⟩
      · rintro ⟨rfl, rfl⟩
        rfl
    -- eight bytes are no word: the read fails
    | u64Be n =>
      constructor
      · intro h
        cases h
      · exact fun h => absurd rfl (h.1 n)

theorem exportSubindex_ok_iff (address : Address) (stem : Stem) (p : ℕ × Bool) (i : UInt8)
    (a : List UInt8) (p' : ℕ × Bool) (env' : ExportEnv) :
    exportSubindex file address stem p i ((ExportEnv.over d dir).put file a) = .ok p' env' ↔
      WordAt d.nomt.current ⟨stem, i⟩ ∧ p' = (p.1 + 1, true) ∧
        env' = (ExportEnv.over d dir).put file (a ++ StorageEntry.toBytes
          ⟨address, treeIndexFromKey stem i, d.nomt.current.value ⟨stem, i⟩⟩) := by
  unfold exportSubindex
  rw [EStateM.bind_eq_ok]
  constructor
  · rintro ⟨v, env₁, hread, hwrite⟩
    obtain ⟨hword, rfl, rfl⟩ := (readNomtValue_ok_iff ⟨stem, i⟩ ..).mp hread
    rw [EStateM.bind_apply, writeEntry_put] at hwrite
    injection hwrite with hp henv
    exact ⟨hword, hp.symm, henv.symm⟩
  · rintro ⟨hword, rfl, rfl⟩
    refine ⟨_, _, (readNomtValue_ok_iff ⟨stem, i⟩ ..).mpr ⟨hword, rfl, rfl⟩, ?_⟩
    rw [EStateM.bind_apply, writeEntry_put]
    rfl

/-- **The callback for a stem of the key index.** -/
theorem exportRecord_ok_iff (l : ExportLoop) (row : Stem × StemRecord) (a : List UInt8)
    (l' : ExportLoop) (env' : ExportEnv) :
    exportRecord wanted file l row ((ExportEnv.over d dir).put file a) = .ok l' env' ↔
      RowReadable wanted d.nomt.current row ∧
        l' = l.add (nomtStem wanted d.nomt.current row).toList [] ∧
        env' = (ExportEnv.over d dir).put file (a ++ (exportedEntries
          (nomtStem wanted d.nomt.current row).toList).flatMap StorageEntry.toBytes) := by
  unfold exportRecord RowReadable
  by_cases hw : wanted row.2.address = true
  · rw [if_pos hw, EStateM.bind_eq_ok]
    have hloop := @foldlM_put_ok_iff _ _ (.over d dir) file _ _ _ _
      (exportSubindex_ok_iff row.2.address row.1)
      (iterBitmapSubindices row.2.bitmap) (l.entryOffset, false) a
    simp only [hloop, foldl_exported, hw, true_implies]
    -- both sides count and write the same records
    have hl := add_nomtStem hw d.nomt.current l
    have hbytes : ((iterBitmapSubindices row.2.bitmap).flatMap fun i => StorageEntry.toBytes
        ⟨row.2.address, treeIndexFromKey row.1 i, d.nomt.current.value ⟨row.1, i⟩⟩) =
        (exportedEntries (nomtStem wanted d.nomt.current row).toList).flatMap
          StorageEntry.toBytes := by
      rw [entries_nomtStem hw, List.flatMap_map]
    rw [← hl, ← hbytes]
    constructor
    · rintro ⟨p, env₁, ⟨hword, rfl, rfl⟩, hret⟩
      injection hret with hl' henv
      exact ⟨hword, hl'.symm, henv.symm⟩
    · rintro ⟨hword, rfl, rfl⟩
      exact ⟨_, _, ⟨hword, rfl, rfl⟩, rfl⟩
  · rw [if_neg hw]
    rw [nomtStem_of_unwanted hw]
    constructor
    · intro h
      injection h with hl henv
      exact ⟨fun h => absurd h hw, by simpa using hl.symm, by simpa using henv.symm⟩
    · rintro ⟨-, rfl, rfl⟩
      simp
      rfl

/-- **The loop over the stems of the key index.** -/
theorem exportRecords_ok_iff (rows : List (Stem × StemRecord)) (l : ExportLoop) (a : List UInt8)
    (l' : ExportLoop) (env' : ExportEnv) :
    rows.foldlM (exportRecord wanted file) l ((ExportEnv.over d dir).put file a) = .ok l' env' ↔
      (∀ row ∈ rows, RowReadable wanted d.nomt.current row) ∧
        l' = l.add (rows.filterMap (nomtStem wanted d.nomt.current)) [] ∧
        env' = (ExportEnv.over d dir).put file (a ++ (exportedEntries
          (rows.filterMap (nomtStem wanted d.nomt.current))).flatMap StorageEntry.toBytes) := by
  rw [foldlM_put_ok_iff exportRecord_ok_iff, foldl_add_nomtStem, ← flatMap_exportedEntries,
    List.flatMap_assoc]

/-- The check for an export without records. -/
theorem checkEmpty_iff (checkEmpty : Bool) (entries : List StorageEntry) (stemCount : ℕ) :
    (checkEmpty && entries.length == 0 && stemCount > 0) = true ↔
      ¬(checkEmpty = true → entries = [] → stemCount = 0) := by
  simp only [Bool.and_eq_true, beq_iff_eq, List.length_eq_zero_iff, decide_eq_true_eq]
  constructor
  · rintro ⟨⟨hc, he⟩, hpos⟩ h
    have := h hc he
    omega
  · intro h
    rw [Classical.not_imp, Classical.not_imp] at h
    exact ⟨⟨h.1, h.2.1⟩, by have := h.2.2; omega⟩

/-- **When an export from fixed NOMT stores succeeds, and what it then writes.** -/
theorem exportFromNomt_ok_iff {checkEmpty : Bool} {stateFile indexFile : FileName} {chainId : ℕ}
    {res : ExportResult} {env : ExportEnv} :
    exportFromNomt wanted checkEmpty stateFile indexFile chainId (.over d dir) = .ok res env ↔
      ∃ head, d.keyIndex.loadHead = some head ∧ Readable wanted d ∧
        (checkEmpty = true → exportedEntries (nomtStems wanted d) = [] → head.stemCount = 0) ∧
        res = exportResult stateFile indexFile (head.blockNumber, head.blockHash) head.root
          (nomtStems wanted d) ∧
        env = (ExportEnv.over d dir).putExport stateFile indexFile chainId
          (head.blockNumber, head.blockHash) (nomtStems wanted d) := by
  unfold exportFromNomt
  rw [readStore_bind, ExportEnv.stores_over, ExportEnv.skip_over]
  cases hhead : d.keyIndex.loadHead with
  | none =>
    simp only [reduceCtorEq, false_and, exists_false, iff_false]
    intro h
    cases h
  | some head =>
    have hloop : ExportLoop.add ⟨0, [], []⟩ (nomtStems wanted d) [] =
        ⟨(exportedEntries (nomtStems wanted d)).length,
          exportedOffsets 0 (nomtStems wanted d), []⟩ := by
      simp [ExportLoop.add]
    have hcheck := checkEmpty_iff checkEmpty (exportedEntries (nomtStems wanted d)) head.stemCount
    have hfinish := finishFiles_put (.over d dir) stateFile
      ((StateHeader.new 0 head.blockNumber chainId head.blockHash).toBytes ++
        (exportedEntries (nomtStems wanted d)).flatMap StorageEntry.toBytes)
      indexFile chainId head.blockNumber head.blockHash head.root
      (exportedEntries (nomtStems wanted d)) (exportedOffsets 0 (nomtStems wanted d)) [] ⟨0, rfl⟩
    rw [length_exportedOffsets] at hfinish
    dsimp only
    rw [EStateM.bind_apply, startFile_apply]
    dsimp only
    rw [readStore_bind, EStateM.bind_eq_ok]
    simp only [Option.some.injEq, exists_eq_left']
    constructor
    · rintro ⟨l, env₁, hl, hfin⟩
      obtain ⟨hread, rfl, rfl⟩ := (exportRecords_ok_iff ..).mp hl
      change (if (checkEmpty && (ExportLoop.add ⟨0, [], []⟩ (nomtStems wanted d) []).entryOffset == 0
        && head.stemCount > 0) = true then _ else finishFiles stateFile indexFile chainId
          head.blockNumber head.blockHash head.root
          (ExportLoop.add ⟨0, [], []⟩ (nomtStems wanted d) []) : ExportM ExportResult) _ = _ at hfin
      rw [hloop] at hfin
      by_cases hc : checkEmpty = true → exportedEntries (nomtStems wanted d) = [] →
          head.stemCount = 0
      · rw [if_neg fun h => hcheck.mp h hc] at hfin
        have hfin := hfinish.symm.trans hfin
        injection hfin with hres henv
        exact ⟨hread, hc, hres.symm, henv.symm⟩
      · rw [if_pos (hcheck.mpr hc)] at hfin
        cases hfin
    · rintro ⟨hread, hc, rfl, rfl⟩
      refine ⟨_, _, (exportRecords_ok_iff ..).mpr ⟨hread, rfl, rfl⟩, ?_⟩
      change (if (checkEmpty && (ExportLoop.add ⟨0, [], []⟩ (nomtStems wanted d) []).entryOffset == 0
        && head.stemCount > 0) = true then _ else finishFiles stateFile indexFile chainId
          head.blockNumber head.blockHash head.root
          (ExportLoop.add ⟨0, [], []⟩ (nomtStems wanted d) []) : ExportM ExportResult) _ = _
      rw [hloop, if_neg fun h => hcheck.mp h hc]
      exact hfinish

/-- The full export from NOMT when all registered keys can be read. -/
theorem exportFullStateFromNomt_of_readable {chainId : ℕ} {head : HeadRecord}
    (hhead : d.keyIndex.loadHead = some head) (h : Readable (fun _ => true) d)
    (hempty : exportedEntries (nomtStems (fun _ => true) d) = [] → head.stemCount = 0) :
    exportFullStateFromNomt chainId (.over d dir) =
      .ok (exportResult .state .stemIndex (head.blockNumber, head.blockHash) head.root
          (nomtStems (fun _ => true) d))
        ((ExportEnv.over d dir).putExport .state .stemIndex chainId
          (head.blockNumber, head.blockHash) (nomtStems (fun _ => true) d)) :=
  exportFromNomt_ok_iff.mpr ⟨head, hhead, h, fun _ => hempty, rfl, rfl⟩

end Nomt

/-! ### Delta files -/

/-- The keys of the deltas of blocks that are read one after the other. -/
def touched : (ℕ → Disk) → List ℕ → List TreeKey
  | _, [] => []
  | stores, block :: blocks =>
    ((stores 0).db.loadBlockDeltas block).map (fun d => ⟨d.1, d.2.1⟩) ++
      touched (fun n => stores (n + 1)) blocks

theorem touchBlocks_apply (blocks : List ℕ) (keys : List TreeKey) (env : ExportEnv) :
    blocks.foldlM touchBlock keys env =
      .ok (keys ++ touched env.stores blocks) (env.skip blocks.length) := by
  induction blocks generalizing keys env with
  | nil => rw [touched, List.append_nil]; rfl
  | cons block blocks ih =>
    rw [List.foldlM_cons, EStateM.bind_apply]
    show (blocks.foldlM touchBlock _ : ExportM _) (env.skip 1) = _
    rw [ih, ExportEnv.skip_skip, List.append_assoc]
    rfl

/-- The addresses and the values of keys that are read one after the other: there is
no read of the value without an address. -/
def readKeys : (ℕ → Disk) → List TreeKey → List (TreeKey × Option (Address × B256))
  | _, [] => []
  | stores, key :: keys =>
    match (stores 0).db.loadStemAddress key.stem with
    | none => (key, none) :: readKeys (fun n => stores (n + 1)) keys
    | some address => (key, some (address, (stores 1).db.value key)) ::
        readKeys (fun n => stores (n + 2)) keys

/-- What is read for a key is its value at one of the reads. -/
theorem value_of_mem_readKeys {stores : ℕ → Disk} {keys : List TreeKey} {key : TreeKey}
    {a : Address} {v : B256} (h : (key, some (a, v)) ∈ readKeys stores keys) :
    key ∈ keys ∧ ∃ k < 2 * keys.length, v = (stores k).db.value key := by
  induction keys generalizing stores with
  | nil => exact absurd h List.not_mem_nil
  | cons key' keys ih =>
    rw [readKeys] at h
    split at h
    · rcases List.mem_cons.mp h with h | h
      · cases h
      · obtain ⟨hkey, k, hk, hv⟩ := ih h
        refine ⟨List.mem_cons_of_mem _ hkey, k + 1, ?_, hv⟩
        rw [List.length_cons]
        omega
    · rcases List.mem_cons.mp h with h | h
      · cases h
        refine ⟨List.mem_cons_self, 1, ?_, rfl⟩
        rw [List.length_cons]
        omega
      · obtain ⟨hkey, k, hk, hv⟩ := ih h
        refine ⟨List.mem_cons_of_mem _ hkey, k + 2, ?_, hv⟩
        rw [List.length_cons]
        omega

/-- The record of a key. -/
def keyEntry (c : TreeKey × Option (Address × B256)) : Option StorageEntry :=
  c.2.map fun p => ⟨p.1, c.1.path, p.2⟩

/-- The stem of a key, if it has no address. -/
def keyMissing (c : TreeKey × Option (Address × B256)) : Option Stem :=
  if c.2 = none then some c.1.stem else none

theorem loadValue_getD (db : UbtDatabase) (key : TreeKey) :
    (db.loadValue key).getD 0 = db.value key := by
  unfold UbtDatabase.loadValue UbtDatabase.value
  cases db.loadStem key.stem <;> rfl

/-- **The loop over the touched keys.** -/
theorem exportKeys_put {file : FileName} (keys : List TreeKey) (l : ℕ × List Stem)
    (env : ExportEnv) (a : List UInt8) :
    let cs := readKeys env.stores keys
    ∃ k, keys.foldlM (exportKey file) l (env.put file a) =
      .ok (l.1 + (cs.filterMap keyEntry).length, l.2 ++ cs.filterMap keyMissing)
        ((env.skip k).put file (a ++ (cs.filterMap keyEntry).flatMap StorageEntry.toBytes)) := by
  induction keys generalizing l env a with
  | nil =>
    refine ⟨0, ?_⟩
    simp [readKeys]
    rfl
  | cons key keys ih =>
    rw [List.foldlM_cons]
    cases haddr : (env.stores 0).db.loadStemAddress key.stem with
    | none =>
      obtain ⟨k, hk⟩ := ih (l.1, l.2 ++ [key.stem]) (env.skip 1) a
      have hcs : readKeys env.stores (key :: keys) =
          (key, none) :: readKeys (env.skip 1).stores keys := by
        rw [readKeys, haddr]
        rfl
      refine ⟨k + 1, ?_⟩
      rw [EStateM.bind_apply, exportKey, readStore_bind, skip_put, ExportEnv.stores_put, haddr]
      refine hk.trans ?_
      rw [ExportEnv.skip_skip, hcs]
      simp [List.filterMap_cons, keyEntry, keyMissing]
    | some address =>
      obtain ⟨k, hk⟩ := ih (l.1 + 1, l.2) (env.skip 2)
        (a ++ StorageEntry.toBytes ⟨address, key.path, (env.stores 1).db.value key⟩)
      have hcs : readKeys env.stores (key :: keys) =
          (key, some (address, (env.stores 1).db.value key)) ::
            readKeys (env.skip 2).stores keys := by
        rw [readKeys, haddr]
        rfl
      have hvalue : (((env.skip 1).put file a).stores 0).db.loadValue key =
          (env.stores 1).db.loadValue key := rfl
      refine ⟨k + 2, ?_⟩
      rw [EStateM.bind_apply, exportKey, readStore_bind, skip_put, ExportEnv.stores_put, haddr]
      dsimp only
      rw [readStore_bind, skip_put, ExportEnv.skip_skip, hvalue, loadValue_getD,
        EStateM.bind_apply, writeEntry_put]
      refine hk.trans ?_
      rw [ExportEnv.skip_skip, hcs]
      simp [keyEntry, keyMissing, Nat.add_assoc, Nat.add_comm 1]

/-- What a delta export returns. -/
def deltaResult (fromBlock toBlock headBlock : ℕ) (entries : List StorageEntry) :
    StateDeltaResult :=
  ⟨fromBlock, toBlock, headBlock, entries.length, .delta fromBlock toBlock⟩

/-- The blocks of a range. -/
def blockRange (fromBlock toBlock : ℕ) : List ℕ :=
  List.range' fromBlock (toBlock + 1 - fromBlock)

theorem mem_blockRange {fromBlock toBlock n : ℕ} :
    n ∈ blockRange fromBlock toBlock ↔ fromBlock ≤ n ∧ n ≤ toBlock := by
  unfold blockRange
  rw [List.mem_range'_1]
  omega

/-- **A delta export, whatever the stores at its reads**: the head is that of the first
read, then follow the deltas of the blocks, and then the address and the value of each
key. -/
theorem getStateDelta_run (fromBlock toBlock chainId retention : ℕ) (env : ExportEnv) :
    ∃ k, getStateDelta fromBlock toBlock chainId retention env =
      match (env.stores 0).db.loadHead with
      | none => .error (mdbxError "No canonical state yet") (env.skip 1)
      | some head =>
        let minBlock := head.blockNumber - retention
        if fromBlock > toBlock then
          .error (mdbxError (s!"from_block {fromBlock} is greater than to_block {toBlock}"))
            (env.skip 1)
        else if toBlock > head.blockNumber then
          .error (mdbxError
            (s!"to_block {toBlock} is ahead of persisted head {head.blockNumber}")) (env.skip 1)
        else if fromBlock < minBlock then
          .error (mdbxError
            (s!"from_block {fromBlock} is before delta retention window (min: {minBlock})"))
            (env.skip 1)
        else
          let blocks := blockRange fromBlock toBlock
          let cs := readKeys (env.skip (blocks.length + 1)).stores
            (sortKeys (touched (env.skip 1).stores blocks))
          if cs.filterMap keyMissing = [] then
            .ok (deltaResult fromBlock toBlock head.blockNumber (cs.filterMap keyEntry))
              ((env.skip k).put (.delta fromBlock toBlock)
                (stateBytes chainId (head.blockNumber, head.blockHash) (cs.filterMap keyEntry)))
          else .error (missingAddressesError (cs.filterMap keyMissing))
            ((env.skip k).put (.delta fromBlock toBlock)
              ((StateHeader.new 0 head.blockNumber chainId head.blockHash).toBytes ++
                (cs.filterMap keyEntry).flatMap StorageEntry.toBytes)) := by
  unfold getStateDelta
  rw [readStore_bind]
  cases (env.stores 0).db.loadHead with
  | none => exact ⟨0, rfl⟩
  | some head =>
    have hblocks : List.range' fromBlock (toBlock + 1 - fromBlock) = blockRange fromBlock toBlock :=
      rfl
    obtain ⟨k, hkeys⟩ := @exportKeys_put (.delta fromBlock toBlock)
      (sortKeys (touched (env.skip 1).stores (blockRange fromBlock toBlock))) (0, [])
      (env.skip ((blockRange fromBlock toBlock).length + 1))
      (StateHeader.new 0 head.blockNumber chainId head.blockHash).toBytes
    refine ⟨k + ((blockRange fromBlock toBlock).length + 1), ?_⟩
    dsimp only
    by_cases hle : fromBlock > toBlock
    · rw [if_pos hle, if_pos hle]
      rfl
    · rw [if_neg hle, if_neg hle]
      by_cases hhd : toBlock > head.blockNumber
      · rw [if_pos hhd, if_pos hhd]
        rfl
      · rw [if_neg hhd, if_neg hhd]
        by_cases hmin : fromBlock < head.blockNumber - retention
        · rw [if_pos hmin, if_pos hmin]
          rfl
        · rw [if_neg hmin, if_neg hmin, EStateM.bind_apply, touchedKeys, touchBlocks_apply,
            hblocks]
          dsimp only
          rw [ExportEnv.skip_skip, EStateM.bind_apply, startFile_apply]
          dsimp only
          rw [EStateM.bind_apply, List.nil_append, hkeys]
          simp only [List.nil_append, Nat.zero_add]
          set cs := readKeys (env.skip ((blockRange fromBlock toBlock).length + 1)).stores
            (sortKeys (touched (env.skip 1).stores (blockRange fromBlock toBlock)))
          by_cases hmissing : cs.filterMap keyMissing = []
          · rw [hmissing, if_pos List.isEmpty_nil, if_pos rfl, EStateM.bind_apply,
              overwriteStart_put, length_newHeader,
              ← length_newHeader 0 head.blockNumber chainId head.blockHash, List.drop_left,
              ExportEnv.skip_skip]
            rfl
          · rw [if_neg (by simpa using hmissing), if_neg hmissing, ExportEnv.skip_skip]
            rfl

/-- **A delta export that succeeds, whatever the stores at its reads.** -/
theorem getStateDelta_ok_iff {fromBlock toBlock chainId retention : ℕ} {env : ExportEnv} :
    ∃ k, ∀ res env', getStateDelta fromBlock toBlock chainId retention env = .ok res env' ↔
      ∃ head, (env.stores 0).db.loadHead = some head ∧ fromBlock ≤ toBlock ∧
        toBlock ≤ head.blockNumber ∧ head.blockNumber - retention ≤ fromBlock ∧
        let blocks := blockRange fromBlock toBlock
        let cs := readKeys (env.skip (blocks.length + 1)).stores
          (sortKeys (touched (env.skip 1).stores blocks))
        cs.filterMap keyMissing = [] ∧
        res = deltaResult fromBlock toBlock head.blockNumber (cs.filterMap keyEntry) ∧
        env' = (env.skip k).put (.delta fromBlock toBlock)
          (stateBytes chainId (head.blockNumber, head.blockHash) (cs.filterMap keyEntry)) := by
  obtain ⟨k, hrun⟩ := getStateDelta_run fromBlock toBlock chainId retention env
  refine ⟨k, fun res env' => ?_⟩
  rw [hrun]
  cases (env.stores 0).db.loadHead with
  | none => simp only [reduceCtorEq, false_and, exists_false]
  | some head =>
    simp only [Option.some.injEq, exists_eq_left', gt_iff_lt, ← Nat.not_lt]
    split_ifs with hle hhd hmin hmissing
    · simp [hle]
    · simp [hhd]
    · simp [hmin]
    · simp only [hle, hhd, hmin, hmissing, not_false_eq_true, true_and]
      constructor
      · intro h
        injection h with hres henv
        exact ⟨hres.symm, henv.symm⟩
      · rintro ⟨rfl, rfl⟩
        rfl
    · simp [hmissing]

/-- The keys that a delta export reads: those of the deltas read before, each once. -/
def deltaReadKeys (stores : ℕ → Disk) (fromBlock toBlock : ℕ) : List TreeKey :=
  sortKeys (touched (fun n => stores (n + 1)) (blockRange fromBlock toBlock))

/-- The number of reads of a delta export after that of the head. -/
def deltaReads (stores : ℕ → Disk) (fromBlock toBlock : ℕ) : ℕ :=
  (blockRange fromBlock toBlock).length + 2 * (deltaReadKeys stores fromBlock toBlock).length

/-- **A delta file**: its header is that of the head of the first read, and its records
are values of the touched keys, each at a read of its own. -/
theorem getStateDelta_file {fromBlock toBlock chainId retention : ℕ} {env env' : ExportEnv}
    {res : StateDeltaResult}
    (h : getStateDelta fromBlock toBlock chainId retention env = .ok res env') :
    ∃ head entries, (env.stores 0).db.loadHead = some head ∧
      env'.dir (.delta fromBlock toBlock) =
        some (stateBytes chainId (head.blockNumber, head.blockHash) entries) ∧
      ∀ e ∈ entries, ∃ key ∈ deltaReadKeys env.stores fromBlock toBlock,
        ∃ k ≤ deltaReads env.stores fromBlock toBlock,
          e.treeIndex = key.path ∧ e.value = (env.stores k).db.value key := by
  obtain ⟨k, hk⟩ := @getStateDelta_ok_iff fromBlock toBlock chainId retention env
  obtain ⟨head, hhead, -, -, -, -, -, rfl⟩ := (hk res env').mp h
  refine ⟨head, _, hhead, by rw [ExportEnv.dir_put, if_pos rfl], fun e he => ?_⟩
  obtain ⟨⟨key, read⟩, hc, hentry⟩ := List.mem_filterMap.mp he
  obtain ⟨⟨a, v⟩, rfl, rfl⟩ := Option.map_eq_some_iff.mp hentry
  obtain ⟨hkey, i, hi, hv⟩ := value_of_mem_readKeys hc
  refine ⟨key, hkey, i + ((blockRange fromBlock toBlock).length + 1), ?_, rfl, hv⟩
  unfold deltaReads deltaReadKeys
  change i < 2 * (sortKeys (touched (fun n => env.stores (n + 1)) _)).length at hi
  omega

theorem touched_const (d : Disk) (blocks : List ℕ) :
    touched (fun _ => d) blocks =
      blocks.flatMap fun block => (d.db.loadBlockDeltas block).map fun d => ⟨d.1, d.2.1⟩ := by
  induction blocks with
  | nil => rfl
  | cons block blocks ih => rw [touched, ih, List.flatMap_cons]

theorem readKeys_const (d : Disk) (keys : List TreeKey) :
    readKeys (fun _ => d) keys = keys.map fun key =>
      (key, (d.db.loadStemAddress key.stem).map fun address => (address, d.db.value key)) := by
  induction keys with
  | nil => rfl
  | cons key keys ih =>
    rw [readKeys, List.map_cons]
    cases d.db.loadStemAddress key.stem with
    | none => rw [← ih]; rfl
    | some address => rw [← ih]; rfl

/-- The keys of the deltas of a range of blocks, each once and in order. -/
def deltaKeys (db : UbtDatabase) (fromBlock toBlock : ℕ) : List TreeKey :=
  sortKeys ((blockRange fromBlock toBlock).flatMap fun block =>
    (db.loadBlockDeltas block).map fun d => ⟨d.1, d.2.1⟩)

/-- The record of a key: the address of its stem and its stored value. -/
def deltaEntry (db : UbtDatabase) (key : TreeKey) : StorageEntry :=
  ⟨(db.loadStemAddress key.stem).getD 0, key.path, db.value key⟩

theorem mem_sortKeys {keys : List TreeKey} {key : TreeKey} : key ∈ sortKeys keys ↔ key ∈ keys := by
  unfold sortKeys
  rw [(List.perm_insertionSort _ _).mem_iff, List.mem_dedup]

theorem mem_deltaKeys {db : UbtDatabase} {fromBlock toBlock : ℕ} {key : TreeKey} :
    key ∈ deltaKeys db fromBlock toBlock ↔ ∃ n, fromBlock ≤ n ∧ n ≤ toBlock ∧
      ∃ d ∈ db.loadBlockDeltas n, (⟨d.1, d.2.1⟩ : TreeKey) = key := by
  unfold deltaKeys
  rw [mem_sortKeys, List.mem_flatMap]
  simp only [mem_blockRange, List.mem_map, and_assoc]

theorem keyMissing_readKeys {d : Disk} {keys : List TreeKey} :
    (readKeys (fun _ => d) keys).filterMap keyMissing = [] ↔
      ∀ key ∈ keys, (d.db.loadStemAddress key.stem).isSome := by
  rw [readKeys_const, List.filterMap_map, List.filterMap_eq_nil_iff]
  refine forall₂_congr fun key _ => ?_
  simp only [Function.comp_apply, keyMissing]
  cases d.db.loadStemAddress key.stem <;> simp

theorem keyEntry_readKeys (d : Disk) (keys : List TreeKey) :
    (readKeys (fun _ => d) keys).filterMap keyEntry =
      (keys.filter fun key => (d.db.loadStemAddress key.stem).isSome).map (deltaEntry d.db) := by
  rw [readKeys_const, List.filterMap_map]
  induction keys with
  | nil => rfl
  | cons key keys ih =>
    rw [filterMap_cons_toList, ih, List.filter_cons]
    cases haddr : d.db.loadStemAddress key.stem with
    | none => simp [keyEntry, haddr]
    | some address => simp [keyEntry, deltaEntry, haddr]

/-- **When a delta export over fixed stores succeeds, and what it then writes.** -/
theorem getStateDelta_fixed_ok_iff {fromBlock toBlock chainId retention : ℕ} {d : Disk} {dir : Dir}
    {res : StateDeltaResult} {env : ExportEnv} :
    getStateDelta fromBlock toBlock chainId retention (.over d dir) = .ok res env ↔
      ∃ head, d.db.loadHead = some head ∧ fromBlock ≤ toBlock ∧ toBlock ≤ head.blockNumber ∧
        head.blockNumber - retention ≤ fromBlock ∧
        (∀ key ∈ deltaKeys d.db fromBlock toBlock, (d.db.loadStemAddress key.stem).isSome) ∧
        res = deltaResult fromBlock toBlock head.blockNumber
          ((deltaKeys d.db fromBlock toBlock).map (deltaEntry d.db)) ∧
        env = (ExportEnv.over d dir).put (.delta fromBlock toBlock)
          (stateBytes chainId (head.blockNumber, head.blockHash)
            ((deltaKeys d.db fromBlock toBlock).map (deltaEntry d.db))) := by
  obtain ⟨k, hk⟩ := @getStateDelta_ok_iff fromBlock toBlock chainId retention (.over d dir)
  have hstores : (ExportEnv.over d dir).stores = fun _ => d := rfl
  rw [hk]
  simp only [ExportEnv.skip_over, hstores, touched_const, keyMissing_readKeys, keyEntry_readKeys]
  refine exists_congr fun head => and_congr_right fun _ => and_congr_right fun _ =>
    and_congr_right fun _ => and_congr_right fun _ => and_congr_right fun hkeys => ?_
  rw [List.filter_eq_self.mpr hkeys]
  rfl

end UbtExex
