import UbtExex.Exported
import UbtExex.Lib.Grouped

/-!
# PIR2 files

The layout of the exported files, read by position: a header of 64 bytes and records
of 84 bytes, and an index with a count and rows of 39 bytes.  What an exporter writes
is read back, its records strictly increase, and through its index each exported key
is found, and no other.

Positions and counts are written in 8 bytes, as the counters of the exporters have
them, so they are read back as long as they fit.

## Main definitions

* `decodeState`, `decodeIndex` — the contents of the two files.
* `Indexed`, `lookup` — an index for a list of records, and a search through it.
* `Pir2State`, `Pir2Export` — well-formed files.

## Main results

* `decodeState_stateBytes`, `decodeIndex_indexBytes` — **what is written is read back.**
* `Indexed.lookup_eq_some_iff` — **a search finds exactly the exported keys.**
* `pir2_well_formed` — all exporters write well-formed files.
-/

open Std Bytes

namespace UbtExex

/-! ### Reading by position -/

/-- The header at the start of a file. -/
def StateHeader.ofBytes (bs : List UInt8) : StateHeader where
  magic := field bs 0 4
  version := ofLeBytes (field bs 4 2)
  entrySize := ofLeBytes (field bs 6 2)
  entryCount := ofLeBytes (field bs 8 8)
  blockNumber := ofLeBytes (field bs 16 8)
  chainId := ofLeBytes (field bs 24 8)
  blockHash := BitVec.ofNat 256 (ofBeBytes (field bs 32 32))

/-- The record with the given bytes. -/
def StorageEntry.ofBytes (bs : List UInt8) : StorageEntry where
  address := BitVec.ofNat 160 (ofBeBytes (field bs 0 20))
  treeIndex := BitVec.ofNat 256 (ofBeBytes (field bs 20 32))
  value := BitVec.ofNat 256 (ofBeBytes (field bs 52 32))

/-- The row of the stem index with the given bytes. -/
def stemIndexRowOf (bs : List UInt8) : Stem × ℕ :=
  (BitVec.ofNat 248 (ofBeBytes (field bs 0 31)), ofLeBytes (field bs 31 8))

/-- The header and the records of a state file. -/
def decodeState (bs : List UInt8) : Option (StateHeader × List StorageEntry) :=
  let header := StateHeader.ofBytes bs
  if header.magic = stateMagic ∧ header.version = 1 ∧ header.entrySize = stateEntrySize ∧
      bs.length = stateHeaderSize + stateEntrySize * header.entryCount then
    some (header, (rows bs stateHeaderSize stateEntrySize header.entryCount).map StorageEntry.ofBytes)
  else none

/-- The rows of a stem index file. -/
def decodeIndex (bs : List UInt8) : Option (List (Stem × ℕ)) :=
  let count := ofLeBytes (field bs 0 8)
  if 8 ≤ bs.length ∧ bs.length = 8 + stemIndexEntrySize * count then
    some ((rows bs 8 stemIndexEntrySize count).map stemIndexRowOf)
  else none

/-! ### What is written is read back -/

theorem ofBytes_toBytes_entry (e : StorageEntry) : StorageEntry.ofBytes e.toBytes = e := by
  obtain ⟨address, treeIndex, value⟩ := e
  have haddress : field (beBytes 20 address.toNat ++ (beBytes 32 treeIndex.toNat ++
      beBytes 32 value.toNat)) 0 20 = beBytes 20 address.toNat := field_zero (by simp)
  have hindex : field (beBytes 20 address.toNat ++ (beBytes 32 treeIndex.toNat ++
      beBytes 32 value.toNat)) 20 32 = beBytes 32 treeIndex.toNat := by
    rw [field_append (by simp), length_beBytes]
    exact field_zero (by simp)
  have hvalue : field (beBytes 20 address.toNat ++ (beBytes 32 treeIndex.toNat ++
      beBytes 32 value.toNat)) 52 32 = beBytes 32 value.toNat := by
    rw [field_append (by simp), length_beBytes, field_append (by simp), length_beBytes]
    exact field_all (by simp)
  unfold StorageEntry.ofBytes StorageEntry.toBytes
  rw [haddress, hindex, hvalue, ofBeBytes_beBytes address.isLt, ofBeBytes_beBytes treeIndex.isLt,
    ofBeBytes_beBytes value.isLt]
  simp only [BitVec.ofNat_toNat, BitVec.setWidth_eq]

theorem stemIndexRowOf_stemIndexRow {r : Stem × ℕ} (h : r.2 < 2 ^ 64) :
    stemIndexRowOf (stemIndexRow r) = r := by
  obtain ⟨stem, offset⟩ := r
  have hstem : field (beBytes 31 stem.toNat ++ leBytes 8 offset) 0 31 = beBytes 31 stem.toNat :=
    field_zero (by simp)
  have hoffset : field (beBytes 31 stem.toNat ++ leBytes 8 offset) 31 8 = leBytes 8 offset := by
    rw [field_append (by simp), length_beBytes]
    exact field_all (by simp)
  unfold stemIndexRowOf stemIndexRow
  rw [hstem, hoffset, ofBeBytes_beBytes stem.isLt, ofLeBytes_leBytes h]
  simp only [BitVec.ofNat_toNat, BitVec.setWidth_eq]

/-- The hash of the block is in the last 32 bytes of the header. -/
theorem field_blockHash (count n chainId : ℕ) (hash : B256) (rest : List UInt8) :
    field ((StateHeader.new count n chainId hash).toBytes ++ rest) 32 32 = beBytes 32 hash.toNat := by
  have hmagic : stateMagic.length = 4 := rfl
  have hsplit : (StateHeader.new count n chainId hash).toBytes ++ rest =
      stateMagic ++ (leBytes 2 1 ++ (leBytes 2 stateEntrySize ++ (leBytes 8 count ++
        (leBytes 8 n ++ (leBytes 8 chainId ++ (beBytes 32 hash.toNat ++ rest)))))) := by
    simp only [StateHeader.toBytes, StateHeader.new, List.append_assoc]
  rw [hsplit, field_append (by simp [hmagic]), hmagic, field_append (by simp), length_leBytes,
    field_append (by simp), length_leBytes, field_append (by simp), length_leBytes,
    field_append (by simp), length_leBytes, field_append (by simp), length_leBytes]
  exact field_zero (by simp)

/-- The header in front of other bytes is read back, if its numbers fit. -/
theorem ofBytes_toBytes_header {count n chainId : ℕ} (hash : B256) (rest : List UInt8)
    (hcount : count < 2 ^ 64) (hn : n < 2 ^ 64) (hchain : chainId < 2 ^ 64) :
    StateHeader.ofBytes ((StateHeader.new count n chainId hash).toBytes ++ rest) =
      StateHeader.new count n chainId hash := by
  have hmagic : stateMagic.length = 4 := rfl
  set bs := (StateHeader.new count n chainId hash).toBytes ++ rest with hbs
  -- the fields in order, so that each is read behind the widths of those before
  have hsplit : bs = stateMagic ++ (leBytes 2 1 ++ (leBytes 2 stateEntrySize ++ (leBytes 8 count ++
      (leBytes 8 n ++ (leBytes 8 chainId ++ (beBytes 32 hash.toNat ++ rest)))))) := by
    rw [hbs]
    simp only [StateHeader.toBytes, StateHeader.new, List.append_assoc]
  have h₀ : field bs 0 4 = stateMagic := by
    rw [hsplit]
    exact field_zero hmagic
  have h₁ : field bs 4 2 = leBytes 2 1 := by
    rw [hsplit, field_append (by simp [hmagic]), hmagic]
    exact field_zero (by simp)
  have h₂ : field bs 6 2 = leBytes 2 stateEntrySize := by
    rw [hsplit, field_append (by simp [hmagic]), hmagic, field_append (by simp), length_leBytes]
    exact field_zero (by simp)
  have h₃ : field bs 8 8 = leBytes 8 count := by
    rw [hsplit, field_append (by simp [hmagic]), hmagic, field_append (by simp), length_leBytes,
      field_append (by simp), length_leBytes]
    exact field_zero (by simp)
  have h₄ : field bs 16 8 = leBytes 8 n := by
    rw [hsplit, field_append (by simp [hmagic]), hmagic, field_append (by simp), length_leBytes,
      field_append (by simp), length_leBytes, field_append (by simp), length_leBytes]
    exact field_zero (by simp)
  have h₅ : field bs 24 8 = leBytes 8 chainId := by
    rw [hsplit, field_append (by simp [hmagic]), hmagic, field_append (by simp), length_leBytes,
      field_append (by simp), length_leBytes, field_append (by simp), length_leBytes,
      field_append (by simp), length_leBytes]
    exact field_zero (by simp)
  have h₆ : field bs 32 32 = beBytes 32 hash.toNat := field_blockHash count n chainId hash rest
  unfold StateHeader.ofBytes StateHeader.new
  rw [h₀, h₁, h₂, h₃, h₄, h₅, h₆, ofLeBytes_leBytes (w := 2) (n := 1) (by decide),
    ofLeBytes_leBytes (w := 2) (n := stateEntrySize) (by decide), ofLeBytes_leBytes hcount,
    ofLeBytes_leBytes hn, ofLeBytes_leBytes hchain, ofBeBytes_beBytes hash.isLt]
  simp only [BitVec.ofNat_toNat, BitVec.setWidth_eq]

/-- **The records of a state file are read back**, whatever its header. -/
theorem rows_stateBytes (chainId : ℕ) (block : ℕ × B256) (entries : List StorageEntry) :
    (rows (stateBytes chainId block entries) stateHeaderSize stateEntrySize entries.length).map
      StorageEntry.ofBytes = entries := by
  rw [stateBytes, rows_append _ _ _ (by rw [length_newHeader]), length_newHeader, Nat.sub_self,
    rows_flatMap fun e _ => length_entry e, List.map_map]
  exact (List.map_congr_left fun e _ => ofBytes_toBytes_entry e).trans (List.map_id _)

/-- A state file determines the hash of its block and its records. -/
theorem stateBytes_inj {chainId chainId' : ℕ} {block block' : ℕ × B256}
    {entries entries' : List StorageEntry}
    (h : stateBytes chainId block entries = stateBytes chainId' block' entries') :
    block.2 = block'.2 ∧ entries = entries' := by
  constructor
  · have hhash := field_blockHash entries.length block.1 chainId block.2
      (entries.flatMap StorageEntry.toBytes)
    change field (stateBytes chainId block entries) 32 32 = _ at hhash
    rw [h, stateBytes, field_blockHash] at hhash
    have hnat := congrArg ofBeBytes hhash
    rw [ofBeBytes_beBytes block'.2.isLt, ofBeBytes_beBytes block.2.isLt] at hnat
    exact (BitVec.eq_of_toNat_eq hnat).symm
  · have hlength := congrArg List.length h
    rw [length_stateBytes, length_stateBytes] at hlength
    -- all records have one width, so the lengths give the counts
    have hcount : entries.length = entries'.length := by
      unfold stateEntrySize at hlength
      omega
    rw [← rows_stateBytes chainId block entries, h, hcount, rows_stateBytes]

/-- **A state file is read back**, if its numbers fit. -/
theorem decodeState_stateBytes {chainId : ℕ} {block : ℕ × B256} {entries : List StorageEntry}
    (hcount : entries.length < 2 ^ 64) (hn : block.1 < 2 ^ 64) (hchain : chainId < 2 ^ 64) :
    decodeState (stateBytes chainId block entries) =
      some (StateHeader.new entries.length block.1 chainId block.2, entries) := by
  have hheader : StateHeader.ofBytes (stateBytes chainId block entries) =
      StateHeader.new entries.length block.1 chainId block.2 :=
    ofBytes_toBytes_header _ _ hcount hn hchain
  unfold decodeState
  simp only [hheader]
  rw [if_pos ⟨rfl, rfl, rfl, length_stateBytes _ _ _⟩]
  exact congrArg (fun es => some (_, es)) (rows_stateBytes chainId block entries)

theorem length_stemIndexRow (r : Stem × ℕ) : (stemIndexRow r).length = stemIndexEntrySize := by
  simp [stemIndexRow, stemIndexEntrySize]

theorem length_indexBytes (offsets : List (Stem × ℕ)) :
    (indexBytes offsets).length = 8 + stemIndexEntrySize * offsets.length := by
  rw [indexBytes, List.length_append, length_leBytes,
    length_flatMap_of_width fun r _ => length_stemIndexRow r]

/-- **An index file is read back**, if its numbers fit. -/
theorem decodeIndex_indexBytes {offsets : List (Stem × ℕ)} (hcount : offsets.length < 2 ^ 64)
    (hoffsets : ∀ r ∈ offsets, r.2 < 2 ^ 64) :
    decodeIndex (indexBytes offsets) = some offsets := by
  have hfield : ofLeBytes (field (indexBytes offsets) 0 8) = offsets.length := by
    rw [indexBytes, field_zero (by simp)]
    exact ofLeBytes_leBytes hcount
  have hlength := length_indexBytes offsets
  unfold decodeIndex
  simp only [hfield]
  rw [if_pos ⟨by omega, hlength⟩]
  have hrows : rows (indexBytes offsets) 8 stemIndexEntrySize offsets.length =
      offsets.map stemIndexRow := by
    rw [indexBytes, rows_append _ _ _ (by simp), length_leBytes,
      rows_flatMap fun r _ => length_stemIndexRow r]
  rw [hrows, List.map_map]
  exact congrArg some ((List.map_congr_left fun r hr =>
    stemIndexRowOf_stemIndexRow (hoffsets r hr)).trans (List.map_id _))

/-! ### Searching through the index -/

/-- The stem of a tree index: its first 31 bytes. -/
def keyStem (treeIndex : KeyPath) : Stem := treeIndex.extractLsb' 8 248

@[simp] theorem keyStem_treeIndexFromKey (stem : Stem) (i : UInt8) :
    keyStem (treeIndexFromKey stem i) = stem := by
  unfold keyStem treeIndexFromKey
  exact BitVec.extractLsb'_append_eq_left

/-- The position behind the records of a row: the offset of the next row, or the number
of records. -/
def rowEnd (count : ℕ) (index : List (Stem × ℕ)) (i : ℕ) : ℕ :=
  ((index[i + 1]?).map Prod.snd).getD count

/-- A search through the index: the row of the stem, then the record among those of the
row. -/
def lookup (entries : List StorageEntry) (index : List (Stem × ℕ)) (key : TreeKey) :
    Option StorageEntry :=
  let i := index.findIdx fun r => r.1 = key.stem
  (index[i]?).bind fun r =>
    (Grouped.slice entries r.2 (rowEnd entries.length index i)).find? fun e => e.treeIndex = key.path

/-- An index for a list of records: one row for each of their stems, in increasing
order, with the position of its first record; its records go on up to the offset of
the next row. -/
structure Indexed (entries : List StorageEntry) (index : List (Stem × ℕ)) : Prop where
  stems : index.Pairwise fun r r' => r.1 < r'.1
  covered : ∀ e ∈ entries, ∃ r ∈ index, r.1 = keyStem e.treeIndex
  first : ∀ r ∈ index, r.2 < entries.length ∧
    entries.findIdx (fun e => keyStem e.treeIndex = r.1) = r.2
  records : ∀ i (h : i < index.length),
    Grouped.slice entries index[i].2 (rowEnd entries.length index i) =
      entries.filter fun e => keyStem e.treeIndex = index[i].1

/-- Among records that strictly increase each tree index is found at most once. -/
theorem find?_treeIndex {entries : List StorageEntry}
    (hsorted : entries.Pairwise fun e e' => e.treeIndex < e'.treeIndex) (path : KeyPath)
    (e : StorageEntry) :
    entries.find? (fun e => e.treeIndex = path) = some e ↔ e ∈ entries ∧ e.treeIndex = path := by
  constructor
  · intro h
    exact ⟨List.mem_of_find?_eq_some h, by simpa using List.find?_some h⟩
  · rintro ⟨hmem, hpath⟩
    cases hfind : entries.find? (fun e => e.treeIndex = path) with
    | none =>
      have := List.find?_eq_none.mp hfind e hmem
      simp [hpath] at this
    | some e' =>
      have hpath' : e'.treeIndex = path := by simpa using List.find?_some hfind
      -- a strictly increasing list has no tree index twice
      have hnodup : (entries.map StorageEntry.treeIndex).Nodup := by
        refine List.pairwise_map.mpr (hsorted.imp fun {a b} hlt heq => ?_)
        rw [heq] at hlt
        exact BitVec.lt_irrefl _ hlt
      rw [List.inj_on_of_nodup_map hnodup (List.mem_of_find?_eq_some hfind) hmem
        (hpath'.trans hpath.symm)]

/-- **A search through an index finds a record exactly for the exported keys.** -/
theorem Indexed.lookup_eq_some_iff {entries : List StorageEntry} {index : List (Stem × ℕ)}
    (h : Indexed entries index)
    (hsorted : entries.Pairwise fun e e' => e.treeIndex < e'.treeIndex) (key : TreeKey)
    (e : StorageEntry) :
    lookup entries index key = some e ↔ e ∈ entries ∧ e.treeIndex = key.path := by
  have hstem : keyStem key.path = key.stem := keyStem_treeIndexFromKey _ _
  unfold lookup
  simp only
  rcases Nat.lt_or_ge (index.findIdx fun r => r.1 = key.stem) index.length with hlt | hge
  · -- the stem has a row
    have hrow : index[index.findIdx fun r => r.1 = key.stem].1 = key.stem := by
      simpa using List.findIdx_getElem (w := hlt)
    rw [List.getElem?_eq_getElem hlt, Option.bind_some, h.records _ hlt, hrow, List.find?_filter,
      ← find?_treeIndex hsorted]
    refine Eq.congr_left (congrArg (fun p => entries.find? p) ?_)
    funext e'
    by_cases he' : e'.treeIndex = key.path
    · simp [he', hstem]
    · simp [he']
  · -- no record has the stem
    rw [List.getElem?_eq_none hge, Option.bind_none]
    constructor
    · intro hnone
      cases hnone
    · rintro ⟨hmem, hpath⟩
      obtain ⟨r, hr, hrs⟩ := h.covered e hmem
      have hfound : (index.findIdx fun r => r.1 = key.stem) < index.length :=
        List.findIdx_lt_length_of_exists ⟨r, hr, by simp [hrs, hpath, hstem]⟩
      omega

/-! ### Exported stems in order -/

/-- Stems in increasing order, each with values in increasing order. -/
structure RowsOrdered (rows : List ExportedStem) : Prop where
  stems : rows.Pairwise fun r r' => r.stem < r'.stem
  nonempty : ∀ r ∈ rows, r.values ≠ []
  values : ∀ r ∈ rows, r.values.Pairwise fun v v' => v.1 < v'.1

theorem toNat_treeIndexFromKey (stem : Stem) (i : UInt8) :
    (treeIndexFromKey stem i).toNat = stem.toNat * 256 + i.toNat := by
  unfold treeIndexFromKey
  rw [BitVec.toNat_append, ← Nat.shiftLeft_add_eq_or_of_lt (by exact i.toBitVec.isLt),
    Nat.shiftLeft_eq]
  rfl

/-- Tree indices are ordered by their stems first. -/
theorem treeIndex_lt_of_stem {stem stem' : Stem} (h : stem < stem') (i i' : UInt8) :
    treeIndexFromKey stem i < treeIndexFromKey stem' i' := by
  rw [BitVec.lt_def] at h ⊢
  rw [toNat_treeIndexFromKey, toNat_treeIndexFromKey]
  have := i.toNat_lt
  omega

theorem treeIndex_lt_of_subindex (stem : Stem) {i i' : UInt8} (h : i < i') :
    treeIndexFromKey stem i < treeIndexFromKey stem i' := by
  rw [BitVec.lt_def, toNat_treeIndexFromKey, toNat_treeIndexFromKey]
  have := UInt8.lt_iff_toNat_lt.mp h
  omega

theorem keyStem_of_mem_entries {r : ExportedStem} {e : StorageEntry} (he : e ∈ r.entries) :
    keyStem e.treeIndex = r.stem := by
  obtain ⟨v, -, rfl⟩ := List.mem_map.mp he
  exact keyStem_treeIndexFromKey _ _

/-- **The records of ordered stems strictly increase.** -/
theorem RowsOrdered.sorted {rows : List ExportedStem} (h : RowsOrdered rows) :
    (exportedEntries rows).Pairwise fun e e' => e.treeIndex < e'.treeIndex := by
  unfold exportedEntries
  rw [List.pairwise_flatMap]
  constructor
  · intro r hr
    exact List.pairwise_map.mpr ((h.values r hr).imp fun {v v'} hlt =>
      treeIndex_lt_of_subindex r.stem hlt)
  · refine h.stems.imp fun {r r'} hlt e he e' he' => ?_
    obtain ⟨v, -, rfl⟩ := List.mem_map.mp he
    obtain ⟨v', -, rfl⟩ := List.mem_map.mp he'
    exact treeIndex_lt_of_stem hlt _ _

theorem getElem?_exportedOffsets (n : ℕ) (rows : List ExportedStem) (i : ℕ) :
    (exportedOffsets n rows)[i]? =
      (rows[i]?).map fun r => (r.stem, n + Grouped.offset ExportedStem.entries rows i) := by
  induction rows generalizing n i with
  | nil => rfl
  | cons r rows ih =>
    cases i with
    | zero => rfl
    | succ i =>
      rw [exportedOffsets, List.getElem?_cons_succ, List.getElem?_cons_succ, ih,
        Grouped.offset_cons_succ, length_entries, Nat.add_assoc]

theorem map_fst_exportedOffsets (n : ℕ) (rows : List ExportedStem) :
    (exportedOffsets n rows).map Prod.fst = rows.map ExportedStem.stem := by
  induction rows generalizing n with
  | nil => rfl
  | cons r rows ih => rw [exportedOffsets, List.map_cons, List.map_cons, ih]

/-- **The offsets of ordered stems are an index for their records.** -/
theorem RowsOrdered.indexed {rows : List ExportedStem} (h : RowsOrdered rows) :
    Indexed (exportedEntries rows) (exportedOffsets 0 rows) := by
  have hkey : ∀ r ∈ rows, ∀ e ∈ r.entries, keyStem e.treeIndex = r.stem :=
    fun r _ e he => keyStem_of_mem_entries he
  have hnodup : (rows.map ExportedStem.stem).Nodup := by
    refine List.pairwise_map.mpr (h.stems.imp fun {r r'} hlt heq => ?_)
    rw [heq] at hlt
    exact BitVec.lt_irrefl _ hlt
  have hrow : ∀ i (hi : i < rows.length), (exportedOffsets 0 rows)[i]? =
      some (rows[i].stem, Grouped.offset ExportedStem.entries rows i) := by
    intro i hi
    rw [getElem?_exportedOffsets, List.getElem?_eq_getElem hi, Option.map_some, Nat.zero_add]
  have hnonempty : ∀ i (hi : i < rows.length), rows[i].entries ≠ [] := by
    intro i hi hnil
    exact h.nonempty _ (List.getElem_mem hi) (List.map_eq_nil_iff.mp hnil)
  refine ⟨?_, ?_, ?_, ?_⟩
  · have hstems := List.pairwise_map.mpr h.stems
    rw [← map_fst_exportedOffsets 0] at hstems
    exact List.pairwise_map.mp hstems
  · intro e he
    obtain ⟨r, hr, he⟩ := List.mem_flatMap.mp he
    have hmem : r.stem ∈ (exportedOffsets 0 rows).map Prod.fst := by
      rw [map_fst_exportedOffsets]
      exact List.mem_map_of_mem hr
    obtain ⟨r', hr', heq⟩ := List.mem_map.mp hmem
    exact ⟨r', hr', heq.trans (keyStem_of_mem_entries he).symm⟩
  · intro r hr
    obtain ⟨i, hi, rfl⟩ := List.mem_iff_getElem.mp hr
    have hi' : i < rows.length := by simpa using hi
    rw [(List.getElem?_eq_some_iff.mp (hrow i hi')).2]
    refine ⟨?_, Grouped.findIdx_flatMap hkey hnodup hi' (hnonempty i hi')⟩
    show Grouped.offset ExportedStem.entries rows i < (rows.flatMap ExportedStem.entries).length
    have hpos := List.length_pos_of_ne_nil (hnonempty i hi')
    rw [Grouped.flatMap_split hi', List.length_append, List.length_append]
    show Grouped.offset ExportedStem.entries rows i <
      Grouped.offset ExportedStem.entries rows i + _
    omega
  · intro i hi
    have hi' : i < rows.length := by simpa using hi
    have hend : rowEnd (exportedEntries rows).length (exportedOffsets 0 rows) i =
        Grouped.offset ExportedStem.entries rows (i + 1) := by
      unfold rowEnd
      rcases Nat.lt_or_ge (i + 1) rows.length with hlt | hge
      · rw [hrow _ hlt]
        rfl
      · rw [List.getElem?_eq_none (by simpa using hge), Option.map_none, Option.getD_none,
          show i + 1 = rows.length by omega, Grouped.offset_length]
        rfl
    rw [hend, (List.getElem?_eq_some_iff.mp (hrow i hi')).2]
    exact (Grouped.slice_flatMap hi').trans (Grouped.filter_flatMap hkey hnodup hi').symm

/-- What is exported of rows in increasing order, each with increasing subindices. -/
theorem RowsOrdered.filterMap {β : Type} {l : List (Stem × β)}
    {f : Stem × β → Option ExportedStem} (hl : l.Pairwise fun row row' => row.1 < row'.1)
    (hf : ∀ row r, f row = some r → r.stem = row.1 ∧ ∃ (is : List UInt8) (v : UInt8 → B256),
      is ≠ [] ∧ is.Pairwise (· < ·) ∧ r.values = is.map fun i => (i, v i)) :
    RowsOrdered (l.filterMap f) := by
  refine ⟨?_, ?_, ?_⟩
  · refine List.pairwise_filterMap.mpr (hl.imp fun {row row'} hlt => ?_)
    intro r hr r' hr'
    rw [(hf row r hr).1, (hf row' r' hr').1]
    exact hlt
  · intro r hr
    obtain ⟨row, -, h⟩ := List.mem_filterMap.mp hr
    obtain ⟨-, is, v, hne, -, hvalues⟩ := hf row r h
    rw [hvalues]
    exact fun hnil => hne (List.map_eq_nil_iff.mp hnil)
  · intro r hr
    obtain ⟨row, -, h⟩ := List.mem_filterMap.mp hr
    obtain ⟨-, is, v, -, hsorted, hvalues⟩ := hf row r h
    rw [hvalues]
    exact List.pairwise_map.mpr hsorted

theorem mdbxStems_ordered (wanted : Address → Bool) (db : UbtDatabase) :
    RowsOrdered (mdbxStems wanted db) := by
  refine .filterMap ((ExtTreeMap.ordered_keys_toList (t := db.stems)).imp fun {row row'} hlt =>
    compareOfLessAndEq_eq_lt.mp hlt) fun row r h => ?_
  obtain ⟨address, -, h⟩ := Option.bind_eq_some_iff.mp h
  split at h
  · next hcond =>
    obtain rfl := Option.some.inj h
    refine ⟨rfl, row.2.subindices, row.2.value, hcond.2, ?_, rfl⟩
    exact (ExtTreeMap.ordered_keys (t := row.2.values)).imp fun {i j} hij =>
      Std.compare_eq_lt.mp hij
  · cases h

/-- The registered subindices of a bitmap strictly increase. -/
theorem pairwise_iterBitmapSubindices (bitmap : Vector UInt8 32) :
    (iterBitmapSubindices bitmap).Pairwise (· < ·) := by
  unfold iterBitmapSubindices
  refine List.Pairwise.filter _ (List.pairwise_map.mpr ?_)
  refine (List.pairwise_lt_range (n := 256)).imp_of_mem fun {i j} hi hj hlt => ?_
  rw [List.mem_range] at hi hj
  rw [UInt8.lt_iff_toNat_lt, UInt8.toNat_ofNat', UInt8.toNat_ofNat', Nat.mod_eq_of_lt hi,
    Nat.mod_eq_of_lt hj]
  exact hlt

theorem nomtStems_ordered (wanted : Address → Bool) (d : Disk) :
    RowsOrdered (nomtStems wanted d) := by
  refine .filterMap ((ExtTreeMap.ordered_keys_toList (t := d.keyIndex.stemTable)).imp
    fun {row row'} hlt => compareOfLessAndEq_eq_lt.mp hlt) fun row r h => ?_
  unfold nomtStem at h
  split at h
  · next hcond =>
    obtain rfl := Option.some.inj h
    exact ⟨rfl, iterBitmapSubindices row.2.bitmap, fun i => d.nomt.current.value ⟨row.1, i⟩,
      hcond.2, pairwise_iterBitmapSubindices _, rfl⟩
  · cases h

/-! ### Sorted keys -/

instance : IsTrans TreeKey TreeKey.le where
  trans a b c := by
    rintro (h | ⟨h, hi⟩) (h' | ⟨h', hi'⟩)
    · exact Or.inl (BitVec.lt_trans h h')
    · exact Or.inl (h' ▸ h)
    · exact Or.inl (h ▸ h')
    · exact Or.inr ⟨h.trans h', UInt8.le_trans hi hi'⟩

instance : Std.Total (α := TreeKey) TreeKey.le where
  total a b := by
    rcases BitVec.lt_trichotomy a.stem b.stem with h | h | h
    · exact Or.inl (Or.inl h)
    · rcases UInt8.le_total a.subindex b.subindex with hi | hi
      · exact Or.inl (Or.inr ⟨h, hi⟩)
      · exact Or.inr (Or.inr ⟨h.symm, hi⟩)
    · exact Or.inr (Or.inl h)

/-- **The paths of the touched keys strictly increase.** -/
theorem pairwise_sortKeys (keys : List TreeKey) :
    (sortKeys keys).Pairwise fun k k' => k.path < k'.path := by
  unfold sortKeys
  have hnodup : (keys.dedup.insertionSort TreeKey.le).Nodup :=
    (List.perm_insertionSort _ _).nodup_iff.mpr keys.nodup_dedup
  refine (List.pairwise_insertionSort TreeKey.le keys.dedup).imp₂ (fun {k k'} hle hne => ?_) hnodup
  rcases hle with hlt | ⟨heq, hi⟩
  · exact treeIndex_lt_of_stem hlt _ _
  -- keys of one stem, which are distinct
  · have hlt : k.subindex < k'.subindex := by
      refine UInt8.lt_of_le_of_ne hi fun hsub => hne ?_
      cases k
      cases k'
      exact congrArg₂ TreeKey.mk heq hsub
    unfold TreeKey.path
    rw [heq]
    exact treeIndex_lt_of_subindex _ hlt

/-! ### Well-formed files -/

/-- A state file with the given records under the header of a block: the magic, version
1, records of 84 bytes, and as many as the header counts; their tree indices strictly
increase. -/
structure Pir2State (file : Option (List UInt8)) (block : ℕ × B256) (chainId : ℕ)
    (entries : List StorageEntry) : Prop where
  decodes : ∃ bs, file = some bs ∧ bs.length = 64 + 84 * entries.length ∧
    decodeState bs = some (⟨[0x50, 0x49, 0x52, 0x32], 1, 84, entries.length, block.1, chainId,
      block.2⟩, entries)
  sorted : entries.Pairwise fun e e' => e.treeIndex < e'.treeIndex

/-- The two files of an export, the second an index for the records of the first. -/
def Pir2Export (dir : Dir) (stateFile indexFile : FileName) (block : ℕ × B256) (chainId : ℕ) :
    Prop :=
  ∃ entries index bs, Pir2State (dir stateFile) block chainId entries ∧
    dir indexFile = some bs ∧ decodeIndex bs = some index ∧ Indexed entries index ∧
    ∀ key e, lookup entries index key = some e ↔ e ∈ entries ∧ e.treeIndex = key.path

/-- The counters of an export are 64 bits wide in the source. -/
structure FitsU64 (chainId : ℕ) (block : ℕ × B256) (count : ℕ) : Prop where
  chainId : chainId < 2 ^ 64
  block : block.1 < 2 ^ 64
  count : count < 2 ^ 64

theorem pir2State_stateBytes {chainId : ℕ} {block : ℕ × B256} {entries : List StorageEntry}
    (hfits : FitsU64 chainId block entries.length)
    (hsorted : entries.Pairwise fun e e' => e.treeIndex < e'.treeIndex) :
    Pir2State (some (stateBytes chainId block entries)) block chainId entries where
  decodes := ⟨_, rfl, length_stateBytes _ _ _,
    decodeState_stateBytes hfits.count hfits.block hfits.chainId⟩
  sorted := hsorted

/-- **The files of ordered stems are well formed.** -/
theorem pir2Export_putExport {env : ExportEnv} {stateFile indexFile : FileName} {chainId : ℕ}
    {block : ℕ × B256} {rows : List ExportedStem} (hne : stateFile ≠ indexFile)
    (hrows : RowsOrdered rows) (hfits : FitsU64 chainId block (exportedEntries rows).length) :
    Pir2Export (env.putExport stateFile indexFile chainId block rows).dir stateFile indexFile block
      chainId := by
  have hindexed := hrows.indexed
  refine ⟨exportedEntries rows, exportedOffsets 0 rows, indexBytes (exportedOffsets 0 rows), ?_,
    ?_, ?_, hindexed, hindexed.lookup_eq_some_iff hrows.sorted⟩
  · rw [dir_putExport_state hne]
    exact pir2State_stateBytes hfits hrows.sorted
  · exact dir_putExport_index
  · -- each row has a record, so there are no more rows than records
    have hoffsets : ∀ r ∈ exportedOffsets 0 rows, r.2 < 2 ^ 64 :=
      fun r hr => Nat.lt_trans (hindexed.first r hr).1 hfits.count
    refine decodeIndex_indexBytes ?_ hoffsets
    have hle : rows.length ≤ (exportedEntries rows).length :=
      Grouped.length_le_length_flatMap fun r hr hnil =>
        hrows.nonempty r hr (List.map_eq_nil_iff.mp hnil)
    rw [length_exportedOffsets]
    exact Nat.lt_of_le_of_lt hle hfits.count

/-- The block of the MDBX head. -/
def Disk.dbBlock (d : Disk) : Option (ℕ × B256) :=
  d.db.loadHead.map fun head => (head.blockNumber, head.blockHash)

/-- The block of the head of the key index. -/
def Disk.keyIndexBlock (d : Disk) : Option (ℕ × B256) :=
  d.keyIndex.loadHead.map fun head => (head.blockNumber, head.blockHash)

/-- If an exporter succeeds, and its counters fit into their 64 bits, it has exported the
given block to well-formed files. -/
def WritesPir2 (exporter : ExportM ExportResult) (env : ExportEnv) (block : Option (ℕ × B256))
    (stateFile indexFile : FileName) (chainId : ℕ) : Prop :=
  ∀ res env', exporter env = .ok res env' →
    FitsU64 chainId (res.blockNumber, res.blockHash) res.entryCount →
      block = some (res.blockNumber, res.blockHash) ∧
        Pir2Export env'.dir stateFile indexFile (res.blockNumber, res.blockHash) chainId

theorem exportFromMdbx_writesPir2 {wanted : Address → Bool} {stateFile indexFile : FileName}
    (hne : stateFile ≠ indexFile) (d : Disk) (dir : Dir) (chainId : ℕ) :
    WritesPir2 (exportFromMdbx wanted stateFile indexFile chainId) (.over d dir) d.dbBlock
      stateFile indexFile chainId := by
  intro res env h hfits
  obtain ⟨head, hhead, -, rfl, rfl⟩ := exportFromMdbx_ok_iff.mp h
  refine ⟨?_, pir2Export_putExport hne (mdbxStems_ordered _ _) hfits⟩
  rw [Disk.dbBlock, hhead]
  rfl

theorem exportFromNomt_writesPir2 {wanted : Address → Bool} {checkEmpty : Bool}
    {stateFile indexFile : FileName} (hne : stateFile ≠ indexFile) (d : Disk) (dir : Dir)
    (chainId : ℕ) :
    WritesPir2 (exportFromNomt wanted checkEmpty stateFile indexFile chainId) (.over d dir)
      d.keyIndexBlock stateFile indexFile chainId := by
  intro res env h hfits
  obtain ⟨head, hhead, -, -, rfl, rfl⟩ := exportFromNomt_ok_iff.mp h
  refine ⟨?_, pir2Export_putExport hne (nomtStems_ordered _ _) hfits⟩
  rw [Disk.keyIndexBlock, hhead]
  rfl

/-- If a delta export succeeds, it has one record for each key that the deltas of the
range touch, and, if its counters fit, they are under the header of the MDBX head. -/
def WritesPir2Delta (fromBlock toBlock chainId retention : ℕ) (d : Disk) (dir : Dir) : Prop :=
  ∀ res env, getStateDelta fromBlock toBlock chainId retention (.over d dir) = .ok res env →
    ∃ block entries, d.dbBlock = some block ∧
      (∀ key : TreeKey, (∃ e ∈ entries, e.treeIndex = key.path) ↔
        ∃ n, fromBlock ≤ n ∧ n ≤ toBlock ∧
          ∃ delta ∈ d.db.loadBlockDeltas n, (⟨delta.1, delta.2.1⟩ : TreeKey) = key) ∧
      (FitsU64 chainId block res.entryCount →
        Pir2State (env.dir (.delta fromBlock toBlock)) block chainId entries)

theorem getStateDelta_writesPir2 (fromBlock toBlock chainId retention : ℕ) (d : Disk) (dir : Dir) :
    WritesPir2Delta fromBlock toBlock chainId retention d dir := by
  intro res env h
  obtain ⟨head, hhead, -, -, -, -, rfl, rfl⟩ := getStateDelta_fixed_ok_iff.mp h
  refine ⟨(head.blockNumber, head.blockHash),
    (deltaKeys d.db fromBlock toBlock).map (deltaEntry d.db), by rw [Disk.dbBlock, hhead]; rfl,
    fun key => ?_, fun hfits => ?_⟩
  · rw [← mem_deltaKeys]
    constructor
    · rintro ⟨e, he, hpath⟩
      obtain ⟨k, hk, rfl⟩ := List.mem_map.mp he
      rw [← TreeKey.path_injective hpath]
      exact hk
    · exact fun hk => ⟨_, List.mem_map_of_mem hk, rfl⟩
  · rw [ExportEnv.dir_put, if_pos rfl]
    exact pir2State_stateBytes hfits (List.pairwise_map.mpr (pairwise_sortKeys _))

/-- **All exporters write well-formed files**, for every contents of the stores. -/
theorem pir2_well_formed (d : Disk) (dir : Dir) (chainId : ℕ) :
    WritesPir2 (exportFullStateFromMdbx chainId) (.over d dir) d.dbBlock .state .stemIndex chainId ∧
      (∀ contract, WritesPir2 (exportContractStateFromMdbx contract chainId) (.over d dir) d.dbBlock
        (.contract contract) (.contractStemIndex contract) chainId) ∧
      WritesPir2 (exportFullStateFromNomt chainId) (.over d dir) d.keyIndexBlock .state .stemIndex
        chainId ∧
      (∀ contract, WritesPir2 (exportContractStateFromNomt contract chainId) (.over d dir)
        d.keyIndexBlock (.contract contract) (.contractStemIndex contract) chainId) ∧
      ∀ fromBlock toBlock retention, WritesPir2Delta fromBlock toBlock chainId retention d dir := by
  refine ⟨exportFromMdbx_writesPir2 (by simp) d dir chainId, fun contract => ?_,
    exportFromNomt_writesPir2 (by simp) d dir chainId, fun contract => ?_, ?_⟩
  · exact exportFromMdbx_writesPir2 (by simp) d dir chainId
  · exact exportFromNomt_writesPir2 (by simp) d dir chainId
  · exact fun fromBlock toBlock retention =>
      getStateDelta_writesPir2 fromBlock toBlock chainId retention d dir

/-- Stores with one stem that has two values. -/
def pairDisk : Disk where
  db :=
    { stems := (∅ : ExtTreeMap Stem StemNode).insert 7 ((StemNode.new.setValue 1 5).setValue 3 6)
      stemAddresses := (∅ : ExtTreeMap Stem Address).insert 7 9
      head := some ⟨1, 11, 0, 1⟩
      blockDeltas := ∅ }
  nomt := ⟨∅, []⟩
  keyIndex := .empty

/-- The full export of these stores has two records. -/
theorem pir2_well_formed_pair :
    ∃ res env, exportFullStateFromMdbx 1 (.over pairDisk fun _ => none) = .ok res env ∧
      res.entryCount = 2 ∧ Pir2Export env.dir .state .stemIndex (1, 11) 1 := by
  have haddressed : Addressed pairDisk.db := by
    unfold Addressed
    decide +kernel
  have hcount : (exportedEntries (mdbxStems (fun _ => true) pairDisk.db)).length = 2 := by
    decide +kernel
  have hrun : exportFullStateFromMdbx 1 (.over pairDisk fun _ => none) = .ok _ _ :=
    exportFromMdbx_ok_iff.mpr ⟨_, rfl, haddressed, rfl, rfl⟩
  refine ⟨_, _, hrun, hcount, ((pir2_well_formed pairDisk _ 1).1 _ _ hrun ?_).2⟩
  refine ⟨by decide, by decide, ?_⟩
  show (exportedEntries (mdbxStems (fun _ => true) pairDisk.db)).length < 2 ^ 64
  rw [hcount]
  decide

end UbtExex
