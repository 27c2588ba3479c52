import UbtExex.Exportable
import UbtExex.NomtSync
import UbtExex.Pir2
import UbtExex.Replay

/-!
# Two pipelines, one state

The export from NOMT lists the registered keys of the key index and reads their words
from NOMT; the export from MDBX lists the stored nodes and reads their addresses from
another table.  After a flush both list the same values in the same order, and only the
first has records for keys that hold zero.

## Main definitions

* `EverWritten` — the keys that commits write.
* `Accumulated` — what a run of commits has built up in both pipelines.

## Main results

* `mem_exportedEntries_mdbx`, `mem_exportedEntries_nomt` — **the records of each export.**
* `Accumulated.step` — one commit.
* `exports_agree` — **the NOMT export without its zeros is the MDBX export.**
-/

open Std

namespace UbtExex

/-! ### The records of each export -/

/-- **The records of an export from MDBX**: one for each non-zero stored value. -/
theorem mem_exportedEntries_mdbx {db : UbtDatabase} {e : StorageEntry} :
    e ∈ exportedEntries (mdbxStems (fun _ => true) db) ↔ ∃ (key : TreeKey) (address : Address),
      db.value key ≠ 0 ∧ db.loadStemAddress key.stem = some address ∧
        e = ⟨address, key.path, db.value key⟩ := by
  unfold exportedEntries mdbxStems
  rw [List.mem_flatMap]
  constructor
  · rintro ⟨r, hr, he⟩
    obtain ⟨row, hrow, hstem⟩ := List.mem_filterMap.mp hr
    obtain ⟨key, address, hne, hkey, hload, rfl⟩ := value_of_mem_mdbxStem hrow hstem he
    exact ⟨key, address, hne, by rw [hkey, hload], rfl⟩
  · rintro ⟨⟨stem, i⟩, address, hne, hload, rfl⟩
    cases hstem : db.loadStem stem with
    | none =>
      rw [UbtDatabase.value_eq_loadStem, hstem] at hne
      exact absurd (StemNode.value_new _) hne
    | some node =>
      have hrow : (stem, node) ∈ db.iterStems := UbtDatabase.mem_iterStems.mpr hstem
      rw [UbtDatabase.value_of_mem_iterStems hrow] at hne ⊢
      have hi : i ∈ node.subindices := StemNode.mem_subindices.mpr hne
      refine ⟨⟨stem, address, node.subindices.map fun i => (i, node.value i)⟩,
        List.mem_filterMap.mpr ⟨_, hrow, ?_⟩, ?_⟩
      · dsimp only at hload ⊢
        rw [hload, mdbxStem, Option.bind_some, if_pos ⟨rfl, List.ne_nil_of_mem hi⟩]
      · exact List.mem_map.mpr ⟨_, List.mem_map_of_mem hi, rfl⟩

theorem mem_iterBitmapSubindices {bitmap : Vector UInt8 32} {i : UInt8} :
    i ∈ iterBitmapSubindices bitmap ↔ KeyIndex.hasBit bitmap i = true := by
  unfold iterBitmapSubindices
  rw [List.mem_filter, List.mem_map]
  constructor
  · exact fun h => h.2
  · intro h
    refine ⟨⟨i.toNat, List.mem_range.mpr i.toNat_lt, UInt8.ofNat_toNat⟩, h⟩

/-- A key with its bit has a row with that bit. -/
theorem KeyIndex.bit_eq_true_iff {ki : KeyIndex} {key : TreeKey} :
    ki.bit key = true ↔ ∃ r, ki.stemTable[key.stem]? = some r ∧
      key.subindex ∈ iterBitmapSubindices r.bitmap := by
  unfold bit rowBit
  rw [Option.any_eq_true]
  simp only [mem_iterBitmapSubindices]

/-- **The records of an export from NOMT**: one for each registered key. -/
theorem mem_exportedEntries_nomt {d : Disk} {e : StorageEntry} :
    e ∈ exportedEntries (nomtStems (fun _ => true) d) ↔ ∃ (key : TreeKey) (address : Address),
      d.keyIndex.bit key = true ∧ d.keyIndex.address key.stem = some address ∧
        e = ⟨address, key.path, d.nomt.current.value key⟩ := by
  unfold exportedEntries nomtStems
  rw [List.mem_flatMap]
  constructor
  · rintro ⟨r, hr, he⟩
    obtain ⟨⟨stem, row⟩, hrow, hstem⟩ := List.mem_filterMap.mp hr
    rw [ExtTreeMap.mem_toList_iff_getElem?_eq_some] at hrow
    unfold nomtStem at hstem
    split at hstem
    · obtain rfl := Option.some.inj hstem
      obtain ⟨v, hv, rfl⟩ := List.mem_map.mp he
      obtain ⟨i, hi, rfl⟩ := List.mem_map.mp hv
      refine ⟨⟨stem, i⟩, row.address, KeyIndex.bit_eq_true_iff.mpr ⟨row, hrow, hi⟩, ?_, rfl⟩
      rw [KeyIndex.address, KeyIndex.rowAddress, hrow]
      rfl
    · cases hstem
  · rintro ⟨⟨stem, i⟩, address, hbit, haddr, rfl⟩
    obtain ⟨row, hrow, hi⟩ := KeyIndex.bit_eq_true_iff.mp hbit
    dsimp only at hrow hi haddr
    rw [KeyIndex.address, KeyIndex.rowAddress, hrow] at haddr
    obtain rfl := Option.some.inj haddr
    refine ⟨⟨stem, row.address, (iterBitmapSubindices row.bitmap).map fun i =>
        (i, d.nomt.current.value ⟨stem, i⟩)⟩, List.mem_filterMap.mpr
      ⟨(stem, row), ExtTreeMap.mem_toList_iff_getElem?_eq_some.mpr hrow, ?_⟩, ?_⟩
    · unfold nomtStem
      rw [if_pos ⟨rfl, List.ne_nil_of_mem hi⟩]
    · exact List.mem_map.mpr ⟨_, List.mem_map_of_mem hi, rfl⟩

/-! ### Runs of commits -/

/-- The key is written by one of the commits. -/
def EverWritten (cs : List BlockCommit) (key : TreeKey) : Prop :=
  ∃ c ∈ cs, ∃ e ∈ c.entries, e.key = key

theorem everWritten_append {cs cs' : List BlockCommit} {key : TreeKey} :
    EverWritten (cs ++ cs') key ↔ EverWritten cs key ∨ EverWritten cs' key := by
  unfold EverWritten
  simp only [List.mem_append, or_and_right, exists_or]

theorem everWritten_singleton {c : BlockCommit} {key : TreeKey} :
    EverWritten [c] key ↔ ∃ e ∈ c.entries, e.key = key := by
  simp [EverWritten]

/-- A commit leaves words under all keys that had words. -/
theorem WordAt.update {t : NomtMap} {key : TreeKey} (h : WordAt t key)
    (hkey : key.path ≠ nomtHeadKey) (entries : List PendingEntry) (n : ℕ) :
    WordAt (t.update entries n) key := by
  intro k hk
  rw [NomtMap.getElem?_update, if_neg hkey.symm, NomtMap.lastWrite_path] at hk
  cases hlast : Writes.lastWrite (entries.map PendingEntry.write) key with
  | none =>
    rw [hlast] at hk
    exact h k hk
  | some v =>
    rw [hlast] at hk
    cases hk

/-- After the commits `cs`: everything persisted can be exported, exactly the written
keys are registered, NOMT holds the logical state in words, and no stem is counted
unless a key is registered. -/
structure Accumulated (own : Stem → Address) (cs : List BlockCommit) (m : Machine) : Prop extends
    Sound own m where
  bits : ∀ key, m.exex.keyIndex.bit key = true ↔ EverWritten cs key
  nomt : NomtSynced m.exex
  words : ∀ key : TreeKey, key.path ≠ nomtHeadKey → WordAt m.exex.nomt.current key
  stemCount : m.exex.stemCount = 0 ∨ ∃ key, EverWritten cs key

variable {U : Ubt} {own : Stem → Address}

theorem accumulated_fresh (own : Stem → Address) (config : UbtConfig) :
    Accumulated own [] (.fresh config) where
  held := (exportable_empty own).held rfl fun e he => absurd he List.not_mem_nil
  writes := by simp [Machine.fresh]
  bits key := by
    simp [EverWritten, KeyIndex.bit, KeyIndex.rowBit, Machine.fresh, UbtExEx.restore, Disk.empty,
      KeyIndex.empty]
  nomt := nomtSynced_fresh config
  words key _ n := by simp [Machine.fresh, UbtExEx.restore, Disk.empty]
  stemCount := Or.inl rfl

/-- The table of the key index and the number of stems after a commit. -/
theorem commitBlock_index {c : BlockCommit} {m m' : Machine} {root : B256}
    (hrun : commitBlock U c m = .ok root m') :
    ∃ ki k, m.exex.keyIndex.applyUpdates (indexUpdates c.entries) = .ok (ki, k) ∧
      m'.exex.keyIndex.stemTable = ki.stemTable ∧ m'.exex.stemCount = m.exex.stemCount + k := by
  obtain ⟨db, ki, k, -, hki, he⟩ := commitBlock_effect hrun
  refine ⟨ki, k, hki, ?_, ?_⟩
  · rw [he]
    unfold committed
    split <;> rfl
  · rw [he]
    unfold committed
    split <;> rfl

/-- **One commit.** -/
theorem Accumulated.step {cs : List BlockCommit} {c : BlockCommit} {m m' : Machine} {root : B256}
    (h : Accumulated own cs m) (hown : OwnedEntries own c.entries)
    (hrun : commitBlock U c m = .ok root m') : Accumulated own (cs ++ [c]) m' := by
  have hc := commitBlock_ok U hrun
  obtain ⟨ki, k, hki, htable, hcount⟩ := commitBlock_index hrun
  refine ⟨?_, ?_, ?_, ?_, ?_⟩
  · have hpending : Sound own (m.withEntries c.entries) :=
      h.toSound.extends ⟨h.held.toExportable, h.held.known, h.held.overlay, hown⟩ (.update _ _)
    have hkeeps := keeps_commit U c.number c.hash _ hpending
    unfold commitBlock at hrun
    rw [hrun] at hkeeps
    exact hkeeps
  · intro key
    have hbit : m'.exex.keyIndex.bit key = ki.bit key := by
      unfold KeyIndex.bit
      rw [htable]
    rw [hbit, KeyIndex.bit_applyUpdates hki, h.bits, everWritten_append, everWritten_singleton]
    refine or_congr_right ?_
    unfold indexUpdates
    constructor
    · rintro ⟨u, hu, rfl⟩
      obtain ⟨e, he, rfl⟩ := List.mem_map.mp hu
      exact ⟨e, he, rfl⟩
    · rintro ⟨e, he, rfl⟩
      exact ⟨_, List.mem_map_of_mem he, rfl⟩
  · unfold NomtSynced
    rw [hc.lastBlock, hc.nomt, hc.logical]
    exact h.nomt.update c.entries
  · intro key hkey
    rw [hc.nomt]
    exact (h.words key hkey).update hkey c.entries c.number
  -- only entries add to the number of stems
  · cases hentries : c.entries with
    | nil =>
      rw [hentries] at hki
      obtain rfl : k = 0 := by
        have hok : m.exex.keyIndex.applyUpdates (indexUpdates []) = .ok (m.exex.keyIndex, 0) := rfl
        rw [hok] at hki
        exact (Prod.mk.inj (Except.ok.inj hki)).2.symm
      rw [hcount]
      refine h.stemCount.imp id ?_
      rintro ⟨key, hkey⟩
      exact ⟨key, everWritten_append.mpr (Or.inl hkey)⟩
    | cons e es =>
      refine Or.inr ⟨e.key, everWritten_append.mpr (Or.inr (everWritten_singleton.mpr ⟨e, ?_, rfl⟩))⟩
      rw [hentries]
      exact List.mem_cons_self

/-- **Runs of commits.** -/
theorem Accumulated.commitAll {done cs : List BlockCommit} {m m' : Machine}
    (h : Accumulated own done m) (hown : ∀ c ∈ cs, OwnedEntries own c.entries)
    (hrun : UbtExex.commitAll U cs m = .ok () m') : Accumulated own (done ++ cs) m' := by
  induction cs generalizing done m with
  | nil =>
    injection hrun with _ hm
    rw [List.append_nil, ← hm]
    exact h
  | cons c cs ih =>
    obtain ⟨hc, hcs⟩ := List.forall_mem_cons.mp hown
    obtain ⟨root, m₁, hrun₁, hrest⟩ := commitAll_cons.mp hrun
    have h' := ih (h.step hc hrun₁) hcs hrest
    rw [List.append_assoc] at h'
    exact h'

/-! ### The exports after a flush -/

/-- A list of records in increasing order is determined by its members. -/
theorem records_eq {entries entries' : List StorageEntry}
    (h : entries.Pairwise fun e e' => e.treeIndex < e'.treeIndex)
    (h' : entries'.Pairwise fun e e' => e.treeIndex < e'.treeIndex)
    (hmem : ∀ e, e ∈ entries ↔ e ∈ entries') : entries = entries' := by
  have : IsTrans StorageEntry fun e e' => e.treeIndex < e'.treeIndex :=
    ⟨fun _ _ _ => BitVec.lt_trans⟩
  have : Std.Irrefl fun e e' : StorageEntry => e.treeIndex < e'.treeIndex :=
    ⟨fun _ => BitVec.lt_irrefl _⟩
  exact Tables.eq_of_sorted_of_mem_iff h h' hmem

/-- The stem of a stored value is registered. -/
theorem Exportable.registered {d : Disk} (h : Exportable own d) {key : TreeKey}
    (hv : d.db.value key ≠ 0) : Registered own d key.stem := by
  apply h.stems
  rw [UbtDatabase.value_eq_loadStem] at hv
  cases hstem : d.db.loadStem key.stem with
  | some node => rfl
  | none =>
    rw [hstem] at hv
    exact absurd (StemNode.value_new _) hv

/-- **Without their zeros the records from NOMT are those from MDBX**, when NOMT holds
the stored values of all registered keys. -/
theorem nomtEntries_filter {d : Disk} (h : Exportable own d)
    (hvalue : ∀ key, d.keyIndex.bit key = true → d.nomt.current.value key = d.db.value key) :
    (exportedEntries (nomtStems (fun _ => true) d)).filter (fun e => e.value ≠ 0) =
      exportedEntries (mdbxStems (fun _ => true) d.db) := by
  refine records_eq ((nomtStems_ordered _ d).sorted.filter _) (mdbxStems_ordered _ d.db).sorted ?_
  intro e
  rw [List.mem_filter, mem_exportedEntries_nomt, mem_exportedEntries_mdbx, decide_eq_true_eq]
  constructor
  · rintro ⟨⟨key, address, hbit, haddr, rfl⟩, hne⟩
    rw [hvalue key hbit] at hne ⊢
    -- both tables have the address of the owner
    have hr := h.registered hne
    rw [hr.index] at haddr
    obtain rfl := Option.some.inj haddr
    exact ⟨key, own key.stem, hne, hr.address, rfl⟩
  · rintro ⟨key, address, hne, haddr, rfl⟩
    have hbit := h.bits key hne
    have hr := h.registered hne
    rw [hr.address] at haddr
    obtain rfl := Option.some.inj haddr
    exact ⟨⟨key, own key.stem, hbit, hr.index, by rw [hvalue key hbit]⟩, hne⟩

/-- A registered key has a stem with an address. -/
theorem KeyIndex.address_of_bit {ki : KeyIndex} {key : TreeKey} (h : ki.bit key = true) :
    ∃ address, ki.address key.stem = some address := by
  obtain ⟨r, hr, -⟩ := bit_eq_true_iff.mp h
  refine ⟨r.address, ?_⟩
  rw [address, rowAddress, hr]
  rfl

/-- Both full exports succeed, under the header of one block.  The records from NOMT are
those of the keys that the commits wrote, in increasing order, and those from MDBX are
the same without the zeros. -/
def ExportsAgree (d : Disk) (block : ℕ × B256) (cs : List BlockCommit) (chainId : ℕ) (dir : Dir) :
    Prop :=
  ∃ entries resN envN resM envM,
    exportFullStateFromNomt chainId (.over d dir) = .ok resN envN ∧
    exportFullStateFromMdbx chainId (.over d dir) = .ok resM envM ∧
    envN.dir .state = some (stateBytes chainId block entries) ∧
    envM.dir .state = some (stateBytes chainId block (entries.filter fun e => e.value ≠ 0)) ∧
    entries.Pairwise (fun e e' => e.treeIndex < e'.treeIndex) ∧
    ∀ path, (∃ e ∈ entries, e.treeIndex = path) ↔
      ∃ c ∈ cs, ∃ e ∈ c.entries, e.key.path = path

/-- **The NOMT export without its zeros is the MDBX export**, after any commits from a
fresh start of which the last one flushes.  Each stem has one address, and no key is at
the path of the NOMT head. -/
theorem exports_agree {config : UbtConfig} {cs : List BlockCommit} {c : BlockCommit}
    {m₁ m : Machine} {root : B256} (hown : ∀ b ∈ cs ++ [c], OwnedEntries own b.entries)
    (hkeys : ∀ b ∈ cs ++ [c], ∀ e ∈ b.entries, e.key.path ≠ nomtHeadKey)
    (hrun : commitAll U cs (.fresh config) = .ok () m₁) (hlast : commitBlock U c m₁ = .ok root m)
    (hflush : m₁.exex.shouldFlush c.number = true) (chainId : ℕ) (dir : Dir) :
    ExportsAgree m.exex.toDisk (c.number, c.hash) (cs ++ [c]) chainId dir := by
  have hcs : ∀ b ∈ cs, OwnedEntries own b.entries := fun b hb => hown b (List.mem_append_left _ hb)
  have hc : OwnedEntries own c.entries := hown c (List.mem_append_right _ List.mem_cons_self)
  have hacc : Accumulated own (cs ++ [c]) m :=
    ((accumulated_fresh own config).commitAll hcs hrun).step hc hlast
  have hd := hacc.held.toExportable
  -- registered keys were written, so none is at the path of the NOMT head
  have hpath : ∀ key, m.exex.keyIndex.bit key = true → key.path ≠ nomtHeadKey := by
    intro key hbit
    obtain ⟨b, hb, e, he, rfl⟩ := (hacc.bits key).mp hbit
    exact hkeys b hb e he
  have hclean : m.exex.dirtyStems = ∅ := ((commitBlock_ok U hlast).flushed hflush).1
  have hvalue : ∀ key, m.exex.keyIndex.bit key = true →
      m.exex.nomt.current.value key = m.exex.db.value key := by
    intro key hbit
    rw [hacc.nomt.value key (hpath key hbit), logical_of_clean hclean]
  -- both heads are those of the last commit
  have hhead := head_commit U hlast
  have hindex := keyIndexHead_commit U hlast
  have hflush' : (m₁.withEntries c.entries).exex.shouldFlush c.number = true := hflush
  rw [if_pos hflush'] at hhead hindex
  have hreadable : Readable (fun _ => true) m.exex.toDisk := by
    intro row hrow _ i hi
    refine hacc.words _ (hpath _ (KeyIndex.bit_eq_true_iff.mpr ⟨row.2, ?_, hi⟩))
    exact ExtTreeMap.mem_toList_iff_getElem?_eq_some.mp hrow
  have hcount : exportedEntries (nomtStems (fun _ => true) m.exex.toDisk) = [] →
      m.exex.stemCount = 0 := by
    intro hnil
    refine hacc.stemCount.resolve_right ?_
    rintro ⟨key, hkey⟩
    have hbit := (hacc.bits key).mpr hkey
    obtain ⟨address, haddr⟩ := KeyIndex.address_of_bit hbit
    have hmem := mem_exportedEntries_nomt.mpr ⟨key, address, hbit, haddr, rfl⟩
    rw [hnil] at hmem
    exact List.not_mem_nil hmem
  refine ⟨exportedEntries (nomtStems (fun _ => true) m.exex.toDisk), _, _, _, _,
    exportFullStateFromNomt_of_readable hindex hreadable hcount,
    exportFromMdbx_of_addressed hhead hd.addressed, ?_, ?_, (nomtStems_ordered _ _).sorted, ?_⟩
  · exact dir_putExport_state (by simp)
  · rw [nomtEntries_filter hd hvalue]
    exact dir_putExport_state (by simp)
  · intro path
    constructor
    · rintro ⟨r, hr, rfl⟩
      obtain ⟨key, address, hbit, -, rfl⟩ := mem_exportedEntries_nomt.mp hr
      obtain ⟨b, hb, e, he, rfl⟩ := (hacc.bits key).mp hbit
      exact ⟨b, hb, e, he, rfl⟩
    · rintro ⟨b, hb, e, he, rfl⟩
      have hbit := (hacc.bits e.key).mpr ⟨b, hb, e, he, rfl⟩
      obtain ⟨address, haddr⟩ := KeyIndex.address_of_bit hbit
      exact ⟨_, mem_exportedEntries_nomt.mpr ⟨e.key, address, hbit, haddr, rfl⟩, rfl⟩

/-- A block that sets two keys, and a block that clears one of them. -/
def clearingCommits : List BlockCommit :=
  [⟨1, 11, [⟨⟨1, 1⟩, 5, 7⟩, ⟨⟨1, 2⟩, 6, 7⟩]⟩, ⟨2, 12, [⟨⟨1, 1⟩, 0, 7⟩, ⟨⟨2, 0⟩, 4, 7⟩]⟩]

/-- The first of them by an extension that flushes every second block. -/
def firstOfTwo : Machine := (commitAll sampleUbt (clearingCommits.take 1) (.fresh ⟨2, 10⟩)).state

/-- The exports agree after the second. -/
theorem exports_agree_two_blocks :
    ExportsAgree (commitBlock sampleUbt ⟨2, 12, [⟨⟨1, 1⟩, 0, 7⟩, ⟨⟨2, 0⟩, 4, 7⟩]⟩
      firstOfTwo).state.exex.toDisk (2, 12) clearingCommits 1 fun _ => none := by
  obtain ⟨_, hrun⟩ := EStateM.Result.exists_ok
    (show (commitAll sampleUbt (clearingCommits.take 1) (.fresh ⟨2, 10⟩)).isOk = true by
      decide +kernel)
  obtain ⟨_, hlast⟩ := EStateM.Result.exists_ok
    (show (commitBlock sampleUbt ⟨2, 12, [⟨⟨1, 1⟩, 0, 7⟩, ⟨⟨2, 0⟩, 4, 7⟩]⟩ firstOfTwo).isOk = true by
      decide +kernel)
  exact @exports_agree _ (fun _ => 7) _ (clearingCommits.take 1) _ _ _ _
    (by simp [clearingCommits, OwnedEntries]) (by simp [clearingCommits]; decide) hrun hlast
    (by decide +kernel) 1 _

end UbtExex
