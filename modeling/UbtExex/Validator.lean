import Mathlib.Data.List.Chain
import UbtExex.FailedExport
import UbtExex.Lib.Encoded
import UbtExex.Pir2

/-!
# The format validator

The script of the integration test checks a state file before a client takes it: the
magic, the record size and the file size of the header, and that no tree index is
smaller than the one before.  It asks less than `decodeState` does, since it does not
look at the version, and takes records with equal tree indices.

## Main definitions

* `validateHeader`, `validateOrdering`, `validateFormat` — the script.
* `Acceptable` — what the script asks of a file.
* `ExportRun`, `exportAll` — calls of the exporters, one after the other.

## Main results

* `validateFormat_ok_iff` — **the script accepts exactly the acceptable files.**
* `validated_file_is_export` — **which files of an output directory the script accepts**,
  after any calls of the exporters.
-/

open Std Bytes

namespace UbtExex

/-! ### The script -/

/-- Why the script rejects a file, with the values that its message prints. -/
inductive InvalidFormat
  /-- `File too small: {} < 64`. -/
  | fileTooSmall (size : ℕ)
  /-- `Invalid magic: expected PIR2, got {}`. -/
  | invalidMagic (magic : List UInt8)
  /-- `Invalid entry size: expected 84, got {}`. -/
  | invalidEntrySize (entrySize : ℕ)
  /-- `Size mismatch: expected {}, got {}`. -/
  | sizeMismatch (expected size : ℕ)
  /-- `Entry {} is out of order`. -/
  | outOfOrder (i : ℕ)
  deriving DecidableEq

/-- What the script prints of a header; of the hash the first 8 bytes. -/
structure HeaderSummary where
  version : ℕ
  entryCount : ℕ
  blockNumber : ℕ
  chainId : ℕ
  blockHash : List UInt8
  deriving DecidableEq

/-- `validate_header`. -/
def validateHeader (data : List UInt8) : Except InvalidFormat HeaderSummary :=
  if data.length < stateHeaderSize then .error (.fileTooSmall data.length)
  else
    let magic := field data 0 4
    if magic ≠ stateMagic then .error (.invalidMagic magic)
    else
      let version := ofLeBytes (field data 4 2)
      let entrySize := ofLeBytes (field data 6 2)
      let entryCount := ofLeBytes (field data 8 8)
      let blockNumber := ofLeBytes (field data 16 8)
      let chainId := ofLeBytes (field data 24 8)
      let blockHash := field data 32 32
      if entrySize ≠ stateEntrySize then .error (.invalidEntrySize entrySize)
      else
        let expectedSize := stateHeaderSize + entryCount * stateEntrySize
        if data.length ≠ expectedSize then .error (.sizeMismatch expectedSize data.length)
        else .ok ⟨version, entryCount, blockNumber, chainId, blockHash.take 8⟩

/-- The bytes of a record's tree index. -/
def treeIndexAt (data : List UInt8) (i : ℕ) : List UInt8 :=
  field data (stateHeaderSize + i * stateEntrySize + 20) 32

/-- The body of the loop over the records: byte strings compare from the left. -/
def checkEntry (data : List UInt8) (prevKey : Option (List UInt8)) (i : ℕ) :
    Except InvalidFormat (Option (List UInt8)) :=
  let treeIndex := treeIndexAt data i
  if prevKey.any fun prev => compare treeIndex prev = .lt then .error (.outOfOrder i)
  else .ok (some treeIndex)

/-- `validate_ordering`. -/
def validateOrdering (data : List UInt8) (entryCount : ℕ) : Except InvalidFormat Unit := do
  let _ ← (List.range entryCount).foldlM (checkEntry data) none

/-- `main`: the header, then the order of the records. -/
def validateFormat (data : List UInt8) : Except InvalidFormat HeaderSummary := do
  let result ← validateHeader data
  validateOrdering data result.entryCount
  return result

/-! ### What the script asks -/

/-- The records of a file, as many as its header counts. -/
def countedEntries (data : List UInt8) : List StorageEntry :=
  (rows data stateHeaderSize stateEntrySize (StateHeader.ofBytes data).entryCount).map
    StorageEntry.ofBytes

/-- What the script asks of a file: of the header the magic, the record size and the
count, and records whose tree indices do not decrease. -/
structure Acceptable (data : List UInt8) : Prop where
  magic : (StateHeader.ofBytes data).magic = stateMagic
  entrySize : (StateHeader.ofBytes data).entrySize = stateEntrySize
  size : data.length = stateHeaderSize + stateEntrySize * (StateHeader.ofBytes data).entryCount
  sorted : (countedEntries data).Pairwise fun e e' => e.treeIndex ≤ e'.treeIndex

/-- What the script prints of the header of a file. -/
def headerSummary (data : List UInt8) : HeaderSummary :=
  let header := StateHeader.ofBytes data
  ⟨header.version, header.entryCount, header.blockNumber, header.chainId,
    (field data 32 32).take 8⟩

theorem validateHeader_ok_iff {data : List UInt8} {result : HeaderSummary} :
    validateHeader data = .ok result ↔ (StateHeader.ofBytes data).magic = stateMagic ∧
      (StateHeader.ofBytes data).entrySize = stateEntrySize ∧
      data.length = stateHeaderSize + stateEntrySize * (StateHeader.ofBytes data).entryCount ∧
      result = headerSummary data := by
  have hcomm : stateHeaderSize + ofLeBytes (field data 8 8) * stateEntrySize =
      stateHeaderSize + stateEntrySize * (StateHeader.ofBytes data).entryCount :=
    congrArg _ (Nat.mul_comm _ _)
  unfold validateHeader
  simp only
  split_ifs with hsmall hmagic hentry hsize
  · -- a file that is too small has not the counted size either
    refine ⟨False.elim, fun h => ?_⟩
    have hlength := h.2.2.1
    omega
  · exact ⟨False.elim, fun h => absurd h.1 hmagic⟩
  · exact ⟨False.elim, fun h => absurd h.2.1 hentry⟩
  · exact ⟨False.elim, fun h => absurd (h.2.2.1.trans hcomm.symm) hsize⟩
  · rw [Except.ok.injEq]
    exact ⟨fun h => ⟨not_not.mp hmagic, not_not.mp hentry, (not_not.mp hsize).trans hcomm,
      h.symm⟩, fun h => h.2.2.2.symm⟩

/-- **The loop over the records** ends if no tree index is smaller than the one before. -/
theorem foldlM_checkEntry_isOk (data : List UInt8) (l : List ℕ) (prevKey : Option (List UInt8)) :
    (l.foldlM (checkEntry data) prevKey).isOk ↔
      List.IsChain (fun a b => compare b a ≠ .lt) (prevKey.toList ++ l.map (treeIndexAt data)) := by
  induction l generalizing prevKey with
  | nil => cases prevKey <;> simp [Except.isOk, Except.toBool, pure, Except.pure]
  | cons i l ih =>
    rw [List.foldlM_cons, List.map_cons]
    cases prevKey with
    | none => exact ih (some (treeIndexAt data i))
    | some prev =>
      have hstep : checkEntry data (some prev) i =
          if compare (treeIndexAt data i) prev = .lt then .error (.outOfOrder i)
          else .ok (some (treeIndexAt data i)) := by
        simp [checkEntry]
      rw [hstep, Option.toList_some, List.singleton_append, List.isChain_cons_cons]
      by_cases hlt : compare (treeIndexAt data i) prev = .lt
      · rw [if_pos hlt]
        simp [hlt, bind, Except.bind, Except.isOk, Except.toBool]
      · rw [if_neg hlt]
        exact (ih (some (treeIndexAt data i))).trans (and_iff_right hlt).symm

/-- The tree index of a record that is there, as a number. -/
theorem toNat_treeIndex_ofBytes {data : List UInt8} {i count : ℕ} (hi : i < count)
    (hsize : data.length = stateHeaderSize + stateEntrySize * count) :
    (treeIndexAt data i).length = 32 ∧
      (StorageEntry.ofBytes (field data (stateHeaderSize + stateEntrySize * i)
        stateEntrySize)).treeIndex.toNat = ofBeBytes (treeIndexAt data i) := by
  have hlength : (treeIndexAt data i).length = 32 := by
    unfold treeIndexAt field
    rw [List.length_take, List.length_drop]
    unfold stateHeaderSize stateEntrySize at *
    omega
  have hfield : field (field data (stateHeaderSize + stateEntrySize * i) stateEntrySize) 20 32 =
      treeIndexAt data i := by
    unfold treeIndexAt
    rw [field_field (by decide), Nat.mul_comm]
  refine ⟨hlength, ?_⟩
  unfold StorageEntry.ofBytes
  rw [hfield, BitVec.toNat_ofNat, Nat.mod_eq_of_lt]
  exact ofBeBytes_lt hlength

theorem validateOrdering_ok_iff {data : List UInt8} {count : ℕ}
    (hsize : data.length = stateHeaderSize + stateEntrySize * count) :
    validateOrdering data count = .ok () ↔
      ((rows data stateHeaderSize stateEntrySize count).map StorageEntry.ofBytes).Pairwise
        fun e e' => e.treeIndex ≤ e'.treeIndex := by
  have hchain : validateOrdering data count = .ok () ↔
      ((List.range count).map (treeIndexAt data)).IsChain fun a b => compare b a ≠ .lt := by
    rw [← List.nil_append (List.map _ _), ← Option.toList_none, ← foldlM_checkEntry_isOk]
    unfold validateOrdering
    cases (List.range count).foldlM (checkEntry data) none <;>
      simp [bind, Except.bind, pure, Except.pure, Except.isOk, Except.toBool]
  -- the bytes of the tree indices have one width, so they compare as the numbers
  have horder : ∀ i < count, ∀ j < count,
      (compare (treeIndexAt data j) (treeIndexAt data i) ≠ .lt ↔
        ofBeBytes (treeIndexAt data i) ≤ ofBeBytes (treeIndexAt data j)) := by
    intro i hi j hj
    have hlength := (toNat_treeIndex_ofBytes hi hsize).1
    have hlength' := (toNat_treeIndex_ofBytes hj hsize).1
    rw [← beBytes_ofBeBytes hlength, ← beBytes_ofBeBytes hlength',
      compare_beBytes (ofBeBytes_lt hlength') (ofBeBytes_lt hlength),
      ofBeBytes_beBytes (ofBeBytes_lt hlength), ofBeBytes_beBytes (ofBeBytes_lt hlength'),
      Nat.compare_ne_lt]
  have htrans : IsTrans ℕ fun i j =>
      ofBeBytes (treeIndexAt data i) ≤ ofBeBytes (treeIndexAt data j) :=
    ⟨fun _ _ _ => Nat.le_trans⟩
  rw [hchain, List.isChain_map, List.IsChain.iff_of_mem_imp fun i j hi hj =>
    horder i (List.mem_range.mp hi) j (List.mem_range.mp hj), List.isChain_iff_pairwise, rows,
    List.map_map, List.pairwise_map]
  refine List.Pairwise.iff_of_mem fun {i j} hi hj => ?_
  show _ ↔ BitVec.toNat _ ≤ BitVec.toNat _
  rw [Function.comp_apply, Function.comp_apply,
    (toNat_treeIndex_ofBytes (List.mem_range.mp hi) hsize).2,
    (toNat_treeIndex_ofBytes (List.mem_range.mp hj) hsize).2]

theorem except_bind_ok {ε α β : Type} {x : Except ε α} {f : α → Except ε β} {b : β} :
    (x >>= f) = .ok b ↔ ∃ a, x = .ok a ∧ f a = .ok b := by
  cases x <;> simp [bind, Except.bind]

/-- **The script accepts exactly the acceptable files**, and prints their header. -/
theorem validateFormat_ok_iff {data : List UInt8} {result : HeaderSummary} :
    validateFormat data = .ok result ↔ Acceptable data ∧ result = headerSummary data := by
  have hcases : validateFormat data = .ok result ↔ validateHeader data = .ok result ∧
      validateOrdering data result.entryCount = .ok () := by
    unfold validateFormat
    rw [except_bind_ok]
    constructor
    · intro ⟨summary, hheader, hrest⟩
      obtain ⟨u, horder, hresult⟩ := except_bind_ok.mp hrest
      obtain rfl : summary = result := Except.ok.inj hresult
      exact ⟨hheader, horder⟩
    · intro ⟨hheader, horder⟩
      exact ⟨result, hheader, except_bind_ok.mpr ⟨(), horder, rfl⟩⟩
  rw [hcases, validateHeader_ok_iff]
  constructor
  · rintro ⟨⟨hmagic, hentry, hsize, rfl⟩, horder⟩
    exact ⟨⟨hmagic, hentry, hsize, (validateOrdering_ok_iff hsize).mp horder⟩, rfl⟩
  · rintro ⟨h, rfl⟩
    exact ⟨⟨h.magic, h.entrySize, h.size, rfl⟩, (validateOrdering_ok_iff h.size).mpr h.sorted⟩

/-! ### Finished and unfinished files -/

theorem acceptable_stateBytes {chainId : ℕ} {block : ℕ × B256} {entries : List StorageEntry}
    (hfits : FitsU64 chainId block entries.length)
    (hsorted : entries.Pairwise fun e e' => e.treeIndex < e'.treeIndex) :
    Acceptable (stateBytes chainId block entries) := by
  have hheader : StateHeader.ofBytes (stateBytes chainId block entries) =
      StateHeader.new entries.length block.1 chainId block.2 :=
    ofBytes_toBytes_header _ _ hfits.count hfits.block hfits.chainId
  have hentries : countedEntries (stateBytes chainId block entries) = entries := by
    unfold countedEntries
    rw [hheader]
    exact rows_stateBytes chainId block entries
  refine ⟨by rw [hheader]; rfl, by rw [hheader]; rfl, ?_, ?_⟩
  · rw [hheader]
    exact length_stateBytes chainId block entries
  · rw [hentries]
    exact hsorted.imp fun h => BitVec.le_of_lt h

theorem headerSummary_stateBytes {chainId : ℕ} {block : ℕ × B256} {entries : List StorageEntry}
    (hfits : FitsU64 chainId block entries.length) :
    headerSummary (stateBytes chainId block entries) =
      ⟨1, entries.length, block.1, chainId, (beBytes 32 block.2.toNat).take 8⟩ := by
  have hheader : StateHeader.ofBytes (stateBytes chainId block entries) =
      StateHeader.new entries.length block.1 chainId block.2 :=
    ofBytes_toBytes_header _ _ hfits.count hfits.block hfits.chainId
  unfold headerSummary
  rw [hheader, stateBytes, field_blockHash]
  rfl

theorem length_unfinishedBytes {chainId : ℕ} {block : ℕ × B256} {entries : List StorageEntry} :
    (unfinishedBytes chainId block entries).length =
      stateHeaderSize + stateEntrySize * entries.length := by
  rw [unfinishedBytes, List.length_append, length_newHeader,
    length_flatMap_of_width fun e _ => length_entry e]

theorem length_unfinishedBytes_eq_iff {chainId : ℕ} {block : ℕ × B256}
    {entries : List StorageEntry} :
    (unfinishedBytes chainId block entries).length = stateHeaderSize ↔ entries = [] := by
  rw [length_unfinishedBytes, ← List.length_eq_zero_iff]
  unfold stateEntrySize
  omega

/-- **A header that counts no records is accepted only when none follows.** -/
theorem acceptable_unfinishedBytes_iff {chainId : ℕ} {block : ℕ × B256}
    {entries : List StorageEntry} (hblock : block.1 < 2 ^ 64) (hchain : chainId < 2 ^ 64) :
    Acceptable (unfinishedBytes chainId block entries) ↔ entries = [] := by
  have hheader : StateHeader.ofBytes (unfinishedBytes chainId block entries) =
      StateHeader.new 0 block.1 chainId block.2 :=
    ofBytes_toBytes_header _ _ (by decide) hblock hchain
  have hlength := @length_unfinishedBytes chainId block entries
  constructor
  · intro h
    have hsize := h.size
    rw [hheader] at hsize
    exact length_unfinishedBytes_eq_iff.mp hsize
  · intro rfl
    refine ⟨by rw [hheader]; rfl, by rw [hheader]; rfl, by rw [hheader, hlength]; rfl, ?_⟩
    unfold countedEntries
    rw [hheader]
    exact List.Pairwise.nil

/-! ### Exports that succeed -/

namespace NomtFaults

open EStateM

variable (faults : NomtFaults)

theorem failWith_ok {failure : Option String} {env env' : ExportEnv} {u : Unit}
    (h : failWith failure env = .ok u env') : env' = env := by
  cases failure with
  | none =>
    cases h
    rfl
  | some message => cases h

/-- **An export that succeeds over a NOMT with faults** succeeds without them. -/
theorem exportFromNomt_succeedsAs (wanted : Address → Bool) (checkEmpty : Bool)
    (opening : Option String) (stateFile indexFile : FileName) (chainId : ℕ) :
    SucceedsAs (faults.exportFromNomt wanted checkEmpty opening stateFile indexFile chainId)
      (UbtExex.exportFromNomt wanted checkEmpty stateFile indexFile chainId) := by
  have hread : ∀ treeIndex, SucceedsAs (faults.readNomtValue treeIndex)
      (UbtExex.readNomtValue treeIndex) :=
    fun treeIndex => .check (fun _ _ _ => failWith_ok) (.refl _)
  have hrecord : ∀ l row, SucceedsAs (faults.exportRecord wanted stateFile l row)
      (UbtExex.exportRecord wanted stateFile l row) := by
    intro l row
    unfold exportRecord UbtExex.exportRecord
    split
    · refine .bind (.foldlM (fun p i => ?_) _ _) fun _ => .refl _
      exact .bind (hread _) fun _ => .refl _
    · exact .refl _
  unfold exportFromNomt UbtExex.exportFromNomt
  refine .bind (.refl _) fun head => ?_
  cases head with
  | none => exact .refl _
  | some head =>
    refine .bind (.refl _) fun _ => .check (fun _ _ _ => failWith_ok) ?_
    refine .bind (.refl _) fun rows => ?_
    exact .bind (.foldlM hrecord _ _) fun _ => .refl _

end NomtFaults

/-- A file of records, not an index. -/
def FileName.isState : FileName → Bool
  | state | contract _ | delta _ _ => true
  | stemIndex | contractStemIndex _ => false

namespace ExportCall

/-- The block under whose header the call exports. -/
def block (d : Disk) : ExportCall → Option (ℕ × B256)
  | fullFromMdbx | contractFromMdbx _ | delta _ _ _ => d.dbBlock
  | fullFromNomt | contractFromNomt _ => d.keyIndexBlock

/-- The records that the call exports. -/
def entries (d : Disk) : ExportCall → List StorageEntry
  | fullFromMdbx => exportedEntries (mdbxStems (fun _ => true) d.db)
  | fullFromNomt => exportedEntries (nomtStems (fun _ => true) d)
  | contractFromMdbx contract =>
    exportedEntries (mdbxStems (fun address => address = contract) d.db)
  | contractFromNomt contract =>
    exportedEntries (nomtStems (fun address => address = contract) d)
  | delta fromBlock toBlock _ => (deltaKeys d.db fromBlock toBlock).map (deltaEntry d.db)

theorem isState_file (call : ExportCall) : call.file.isState = true := by
  cases call <;> rfl

/-- **The records of a call strictly increase.** -/
theorem pairwise_entries (d : Disk) (call : ExportCall) :
    (call.entries d).Pairwise fun e e' => e.treeIndex < e'.treeIndex := by
  cases call with
  | fullFromMdbx => exact (mdbxStems_ordered _ _).sorted
  | fullFromNomt => exact (nomtStems_ordered _ _).sorted
  | contractFromMdbx contract => exact (mdbxStems_ordered _ _).sorted
  | contractFromNomt contract => exact (nomtStems_ordered _ _).sorted
  | delta fromBlock toBlock retention => exact List.pairwise_map.mpr (pairwise_sortKeys _)

/-- What a successful call does to the files of records: its own has all its records
under the header of its block, and the others are as before. -/
def Finishes (chainId : ℕ) (d : Disk) (call : ExportCall) (dir dir' : Dir) : Prop :=
  ∃ block, call.block d = some block ∧
    dir' call.file = some (stateBytes chainId block (call.entries d)) ∧
    ∀ file, file.isState → file ≠ call.file → dir' file = dir file

section Finishes

variable {chainId : ℕ} {d : Disk} {call : ExportCall} {dir : Dir}

theorem finishes_putExport {block : ℕ × B256} {rows : List ExportedStem} {indexFile : FileName}
    (hblock : call.block d = some block) (hrows : exportedEntries rows = call.entries d)
    (hindex : indexFile.isState = false) :
    call.Finishes chainId d dir
      ((ExportEnv.over d dir).putExport call.file indexFile chainId block rows).dir := by
  have hother : ∀ file : FileName, file.isState → file ≠ indexFile := by
    rintro file hfile rfl
    rw [hindex] at hfile
    cases hfile
  refine ⟨block, hblock, ?_, ?_⟩
  · rw [dir_putExport_state (hother _ call.isState_file), hrows]
  · intro file hfile hne
    unfold ExportEnv.putExport
    rw [ExportEnv.dir_put, if_neg (hother file hfile), ExportEnv.dir_put, if_neg hne]
    rfl

theorem finishes_mdbx {wanted : Address → Bool} {indexFile : FileName} {res : ExportResult}
    {env : ExportEnv}
    (h : exportFromMdbx wanted call.file indexFile chainId (.over d dir) = .ok res env)
    (hblock : call.block d = d.dbBlock)
    (hrows : exportedEntries (mdbxStems wanted d.db) = call.entries d)
    (hindex : indexFile.isState = false) : call.Finishes chainId d dir env.dir := by
  obtain ⟨head, hhead, -, -, rfl⟩ := exportFromMdbx_ok_iff.mp h
  refine finishes_putExport ?_ hrows hindex
  rw [hblock, Disk.dbBlock, hhead]
  rfl

theorem finishes_nomt {faults : NomtFaults} {wanted : Address → Bool} {checkEmpty : Bool}
    {opening : Option String} {indexFile : FileName} {res : ExportResult} {env : ExportEnv}
    (h : faults.exportFromNomt wanted checkEmpty opening call.file indexFile chainId (.over d dir) =
      .ok res env)
    (hblock : call.block d = d.keyIndexBlock)
    (hrows : exportedEntries (nomtStems wanted d) = call.entries d)
    (hindex : indexFile.isState = false) : call.Finishes chainId d dir env.dir := by
  obtain ⟨head, hhead, -, -, -, rfl⟩ :=
    exportFromNomt_ok_iff.mp (faults.exportFromNomt_succeedsAs _ _ _ _ _ _ _ _ _ h)
  refine finishes_putExport ?_ hrows hindex
  rw [hblock, Disk.keyIndexBlock, hhead]
  rfl

/-- **What a successful call leaves in the files of records.** -/
theorem finishes_of_isOk {faults : NomtFaults}
    (h : (call.run faults chainId (.over d dir)).isOk = true) :
    call.Finishes chainId d dir (call.run faults chainId (.over d dir)).state.dir := by
  obtain ⟨u, hrun⟩ := EStateM.Result.exists_ok h
  generalize (call.run faults chainId (.over d dir)).state = env at hrun ⊢
  -- the result that the exporter returns is dropped at the end
  cases call with
  | fullFromMdbx =>
    obtain ⟨res, env', hres, hpure⟩ := EStateM.bind_eq_ok.mp hrun
    cases hpure
    exact finishes_mdbx hres rfl rfl rfl
  | contractFromMdbx contract =>
    obtain ⟨res, env', hres, hpure⟩ := EStateM.bind_eq_ok.mp hrun
    cases hpure
    exact finishes_mdbx hres rfl rfl rfl
  | fullFromNomt =>
    obtain ⟨res, env', hres, hpure⟩ := EStateM.bind_eq_ok.mp hrun
    cases hpure
    obtain ⟨u', env'', hopen, hexport⟩ := EStateM.bind_eq_ok.mp hres
    rw [NomtFaults.failWith_ok hopen] at hexport
    exact finishes_nomt hexport rfl rfl rfl
  | contractFromNomt contract =>
    obtain ⟨res, env', hres, hpure⟩ := EStateM.bind_eq_ok.mp hrun
    cases hpure
    exact finishes_nomt hres rfl rfl rfl
  | delta fromBlock toBlock retention =>
    obtain ⟨res, env', hres, hpure⟩ := EStateM.bind_eq_ok.mp hrun
    cases hpure
    obtain ⟨head, hhead, -, -, -, -, -, rfl⟩ := getStateDelta_fixed_ok_iff.mp hres
    refine ⟨(head.blockNumber, head.blockHash), by rw [block, Disk.dbBlock, hhead]; rfl, ?_, ?_⟩
    · exact (ExportEnv.dir_put ..).trans (if_pos rfl)
    · exact fun file _ hne => (ExportEnv.dir_put ..).trans (if_neg hne)

end Finishes

end ExportCall

/-! ### Calls one after the other -/

/-- A call of an exporter, with the NOMT faults and the stores that it meets. -/
structure ExportRun where
  call : ExportCall
  faults : NomtFaults
  chainId : ℕ
  disk : Disk

namespace ExportRun

variable (r : ExportRun) (dir : Dir)

/-- The call returns a result. -/
def Succeeds : Prop := (r.call.run r.faults r.chainId (.over r.disk dir)).isOk = true

/-- The call gets as far as to create its file. -/
def Creates : Prop := r.Succeeds dir ∨ r.call.FailsLate r.faults r.disk

/-- The output directory after the call. -/
def after : Dir := (r.call.run r.faults r.chainId (.over r.disk dir)).state.dir

/-- The counters of the call fit into their 64 bits. -/
def Fits : Prop :=
  ∀ block, r.call.block r.disk = some block →
    FitsU64 r.chainId block (r.call.entries r.disk).length

variable {r dir}

theorem after_of_not_creates (h : ¬r.Creates dir) : r.after dir = dir :=
  (r.call.failsAs r.faults r.chainId r.disk dir).untouched (fun hlate => h (.inr hlate))
    (Bool.eq_false_iff.mpr fun hok => h (.inl hok))

/-- **A call leaves the files of the other calls alone**, however it ends. -/
theorem after_of_ne {file : FileName} (hfile : file.isState) (hne : r.call.file ≠ file) :
    r.after dir file = dir file := by
  by_cases hok : r.Succeeds dir
  · obtain ⟨block, -, -, hother⟩ := ExportCall.finishes_of_isOk hok
    exact hother file hfile hne.symm
  · by_cases hlate : r.call.FailsLate r.faults r.disk
    · have hdir := ((r.call.failsAs r.faults r.chainId r.disk dir).torn hlate).2
      unfold after
      rw [hdir, Function.update_of_ne hne.symm]
    · rw [after_of_not_creates fun h => h.elim hok hlate]

end ExportRun

/-- What a call that fails late leaves is a header that counts no records, and some. -/
theorem ExportCall.torso_eq {faults : NomtFaults} {chainId : ℕ} {d : Disk} {call : ExportCall}
    {bs : List UInt8} (h : call.torso faults chainId d = some bs) :
    ∃ block entries, call.block d = some block ∧ bs = unfinishedBytes chainId block entries := by
  have hmap : ∀ {head : Type} {o : Option head} {g : head → ℕ × B256}
      {es : List StorageEntry},
      (o.map fun x => unfinishedBytes chainId (g x) es) = some bs →
        ∃ block entries, o.map g = some block ∧ bs = unfinishedBytes chainId block entries := by
    intro head o g es hbs
    obtain ⟨x, rfl, rfl⟩ := Option.map_eq_some_iff.mp hbs
    exact ⟨g x, es, rfl, rfl⟩
  cases call with
  | fullFromMdbx => exact hmap h
  | fullFromNomt => exact hmap h
  | contractFromMdbx contract => exact hmap h
  | contractFromNomt contract => exact hmap h
  | delta fromBlock toBlock retention => exact hmap h

/-- The output directory after calls of the exporters, from one without files. -/
def exportAll (runs : List ExportRun) : Dir := runs.foldl (fun dir r => r.after dir) fun _ => none

/-- None of the calls gets as far as to create the file. -/
def NotCreated (file : FileName) : Dir → List ExportRun → Prop
  | _, [] => True
  | dir, r :: rs => (r.call.file = file → ¬r.Creates dir) ∧ NotCreated file (r.after dir) rs

theorem notCreated_concat {file : FileName} {dir : Dir} {rs : List ExportRun} {r : ExportRun} :
    NotCreated file dir (rs ++ [r]) ↔ NotCreated file dir rs ∧
      (r.call.file = file → ¬r.Creates (rs.foldl (fun dir r => r.after dir) dir)) := by
  induction rs generalizing dir with
  | nil => simp [NotCreated]
  | cons r' rs ih =>
    rw [List.cons_append, NotCreated, NotCreated, ih, and_assoc, List.foldl_cons]

/-- **A file of records was written by the last call that created it.** -/
theorem exists_creator {runs : List ExportRun} {file : FileName} (hfile : file.isState)
    {bs : List UInt8} (h : exportAll runs file = some bs) :
    ∃ before r later, runs = before ++ r :: later ∧ r.call.file = file ∧
      r.Creates (exportAll before) ∧ NotCreated file (exportAll (before ++ [r])) later ∧
      r.after (exportAll before) file = some bs := by
  induction runs using List.reverseRecOn with
  | nil => cases h
  | append_singleton runs s ih =>
    have hlast : exportAll (runs ++ [s]) = s.after (exportAll runs) := by
      unfold exportAll
      rw [List.foldl_append]
      rfl
    by_cases hcreate : s.call.file = file ∧ s.Creates (exportAll runs)
    · rw [hlast] at h
      exact ⟨runs, s, [], rfl, hcreate.1, hcreate.2, trivial, h⟩
    · -- the file is that of the calls before
      have hkept : s.after (exportAll runs) file = exportAll runs file := by
        by_cases hne : s.call.file = file
        · rw [ExportRun.after_of_not_creates fun hc => hcreate ⟨hne, hc⟩]
        · exact ExportRun.after_of_ne hfile hne
      rw [hlast, hkept] at h
      obtain ⟨before, r, later, rfl, hcall, hcreates, hlater, hbs⟩ := ih h
      refine ⟨before, r, later ++ [s], by simp, hcall, hcreates, ?_, hbs⟩
      refine notCreated_concat.mpr ⟨hlater, fun hsame hc => hcreate ⟨hsame, ?_⟩⟩
      have hstate : exportAll (before ++ r :: later) =
          later.foldl (fun dir r => r.after dir) (exportAll (before ++ [r])) := by
        unfold exportAll
        rw [← List.foldl_append, List.append_assoc, List.singleton_append]
      rwa [hstate]

/-- **Which files of an output directory the script accepts**, after any calls of the
exporters, successful or not: those whose last creator succeeded, which are the records of
that call under the header of its block, and those that are a header and nothing else. -/
theorem validated_file_is_export {runs : List ExportRun} (hfits : ∀ r ∈ runs, r.Fits)
    {file : FileName} (hfile : file.isState) {bs : List UInt8} (h : exportAll runs file = some bs) :
    ∃ before r later, runs = before ++ r :: later ∧ r.call.file = file ∧
      r.Creates (exportAll before) ∧ NotCreated file (exportAll (before ++ [r])) later ∧
      ((∃ result, validateFormat bs = .ok result) ↔
        r.Succeeds (exportAll before) ∨ bs.length = stateHeaderSize) ∧
      (r.Succeeds (exportAll before) → ∃ block, r.call.block r.disk = some block ∧
        decodeState bs = some (StateHeader.new (r.call.entries r.disk).length block.1 r.chainId
          block.2, r.call.entries r.disk) ∧
        validateFormat bs = .ok ⟨1, (r.call.entries r.disk).length, block.1, r.chainId,
          (beBytes 32 block.2.toNat).take 8⟩) := by
  obtain ⟨before, r, later, rfl, hcall, hcreates, hlater, hbs⟩ := exists_creator hfile h
  have hr : r.Fits := hfits r (by simp)
  have hdone : r.Succeeds (exportAll before) → ∃ block, r.call.block r.disk = some block ∧
      decodeState bs = some (StateHeader.new (r.call.entries r.disk).length block.1 r.chainId
        block.2, r.call.entries r.disk) ∧
      validateFormat bs = .ok ⟨1, (r.call.entries r.disk).length, block.1, r.chainId,
        (beBytes 32 block.2.toNat).take 8⟩ := by
    intro hok
    obtain ⟨block, hblock, hfinished, -⟩ := ExportCall.finishes_of_isOk hok
    have hfit := hr block hblock
    obtain rfl : stateBytes r.chainId block (r.call.entries r.disk) = bs := by
      rw [← hcall] at hbs
      exact Option.some.inj (hfinished.symm.trans hbs)
    refine ⟨block, hblock, decodeState_stateBytes hfit.count hfit.block hfit.chainId, ?_⟩
    exact validateFormat_ok_iff.mpr ⟨acceptable_stateBytes hfit (r.call.pairwise_entries r.disk),
      (headerSummary_stateBytes hfit).symm⟩
  refine ⟨before, r, later, rfl, hcall, hcreates, hlater, ?_, hdone⟩
  obtain hok | hlate := hcreates
  · obtain ⟨block, -, -, haccepted⟩ := hdone hok
    exact iff_of_true ⟨_, haccepted⟩ (.inl hok)
  · -- the header of a call that failed late counts no records
    have htorn := (r.call.failsAs r.faults r.chainId r.disk (exportAll before)).torn hlate
    have hfailed : ¬r.Succeeds (exportAll before) := by
      unfold ExportRun.Succeeds
      rw [htorn.1]
      decide
    have htorso : r.call.torso r.faults r.chainId r.disk = some bs := by
      unfold ExportRun.after at hbs
      rwa [htorn.2, hcall, Function.update_self] at hbs
    obtain ⟨block, entries, hblock, rfl⟩ := ExportCall.torso_eq htorso
    have hfit := hr block hblock
    have haccept := @acceptable_unfinishedBytes_iff r.chainId block entries hfit.block hfit.chainId
    rw [or_iff_right hfailed, length_unfinishedBytes_eq_iff, ← haccept]
    constructor
    · exact fun ⟨result, hresult⟩ => (validateFormat_ok_iff.mp hresult).1
    · exact fun h => ⟨_, validateFormat_ok_iff.mpr ⟨h, rfl⟩⟩

/-- After a full export that succeeds and one that stops at a stem without an address, the
script does not accept the state file: the creator is the second call, and a record follows
the header. -/
theorem validated_file_is_export_torn :
    let first : ExportRun := ⟨.fullFromMdbx, .none, 1, { Disk.empty with db := oneAddressed 1 }⟩
    let second : ExportRun := ⟨.fullFromMdbx, .none, 1, { Disk.empty with db := oneAddressed 2 }⟩
    ∃ bs, exportAll [first, second] .state = some bs ∧
      validateFormat bs = .error (.sizeMismatch 64 148) ∧
      ∃ before r later, [first, second] = before ++ r :: later ∧ r.call.file = .state ∧
        ((∃ result, validateFormat bs = .ok result) ↔
          r.Succeeds (exportAll before) ∨ bs.length = stateHeaderSize) := by
  intro first second
  have hfirst : first.Fits := by
    intro block hblock
    obtain rfl := Option.some.inj hblock
    exact ⟨by decide, by decide, by decide +kernel⟩
  have hsecond : second.Fits := by
    intro block hblock
    obtain rfl := Option.some.inj hblock
    exact ⟨by decide, by decide, by decide +kernel⟩
  have hfits : ∀ r ∈ [first, second], r.Fits := by simp [hfirst, hsecond]
  have hstate : exportAll [first, second] .state =
      some ((exportAll [first, second] .state).getD []) := by decide +kernel
  obtain ⟨before, r, later, hruns, hcall, -, -, hiff, -⟩ :=
    validated_file_is_export hfits rfl hstate
  exact ⟨_, hstate, by decide +kernel, before, r, later, hruns, hcall, hiff⟩

end UbtExex
