import UbtExex.Pir2

/-!
# Contract exports

A contract export runs the loop of the full export and skips the stems of other
contracts.  Its offsets count the records it has written itself.  So its files are
those of the full export without the records and rows of other contracts, each
offset counted anew.

## Main definitions

* `restrictIndex` — the rows of a contract's stems, with offsets among its records.
* `Restricts` — a contract export against the full one.

## Main results

* `exportedOffsets_filter` — the index of the stems of a contract.
* `contract_export_restricts` — **contract exports are restrictions of full ones.**
-/

open Std

namespace UbtExex

/-- The index rows whose records are those of a contract, each with the number of its
records that stand before them. -/
def restrictIndex (contract : Address) (entries : List StorageEntry) (index : List (Stem × ℕ)) :
    List (Stem × ℕ) :=
  index.filterMap fun r =>
    if (entries[r.2]?).map StorageEntry.address = some contract then
      some (r.1, ((entries.take r.2).filter fun e => e.address = contract).length)
    else none

/-- Whenever the full exporter succeeds, so does the exporter of a contract, and its
files are the restrictions of the full ones, under the same header but for the count. -/
def Restricts (full contractOnly : ExportM ExportResult) (contract : Address) (chainId : ℕ)
    (env : ExportEnv) : Prop :=
  ∀ res envFull, full env = .ok res envFull →
    ∃ res' env' block entries index, contractOnly env = .ok res' env' ∧
      envFull.dir .state = some (stateBytes chainId block entries) ∧
      envFull.dir .stemIndex = some (indexBytes index) ∧
      env'.dir (.contract contract) =
        some (stateBytes chainId block (entries.filter fun e => e.address = contract)) ∧
      env'.dir (.contractStemIndex contract) =
        some (indexBytes (restrictIndex contract entries index))

/-! ### Stems of a contract -/

theorem filter_entries (contract : Address) (r : ExportedStem) :
    (r.entries.filter fun e => e.address = contract) =
      if r.address = contract then r.entries else [] := by
  unfold ExportedStem.entries
  rw [List.filter_map]
  split
  · next h =>
    congr 1
    rw [List.filter_eq_self]
    simp [h]
  · next h =>
    rw [List.map_eq_nil_iff, List.filter_eq_nil_iff]
    simp [h]

/-- **The records of the stems of a contract are the records of the contract.** -/
theorem exportedEntries_filter (contract : Address) (rows : List ExportedStem) :
    exportedEntries (rows.filter fun r => r.address = contract) =
      (exportedEntries rows).filter fun e => e.address = contract := by
  induction rows with
  | nil => rfl
  | cons r rows ih =>
    have hcons : exportedEntries (r :: rows) = r.entries ++ exportedEntries rows := rfl
    rw [hcons, List.filter_append, filter_entries, ← ih, List.filter_cons]
    by_cases h : r.address = contract
    · simp only [h, decide_true, if_true]
      rfl
    · simp [h]

/-- **The index of the stems of a contract is the restricted index**, behind any records
that stand before them. -/
theorem exportedOffsets_filter (contract : Address) (rows : List ExportedStem)
    (hne : ∀ r ∈ rows, r.values ≠ []) (before : List StorageEntry) :
    exportedOffsets (before.filter fun e => e.address = contract).length
        (rows.filter fun r => r.address = contract) =
      restrictIndex contract (before ++ exportedEntries rows)
        (exportedOffsets before.length rows) := by
  induction rows generalizing before with
  | nil => rfl
  | cons r rows ih =>
    obtain ⟨hr, hrows⟩ := List.forall_mem_cons.mp hne
    obtain ⟨v, vs, hv⟩ := List.exists_cons_of_ne_nil hr
    have hentries : before ++ exportedEntries (r :: rows) =
        (before ++ r.entries) ++ exportedEntries rows := (List.append_assoc _ _ _).symm
    have hfirst : ((before ++ exportedEntries (r :: rows))[before.length]?).map
        StorageEntry.address = some r.address := by
      have hcons : exportedEntries (r :: rows) = r.entries ++ exportedEntries rows := rfl
      rw [List.getElem?_append_right (Nat.le_refl _), Nat.sub_self, hcons, ExportedStem.entries, hv]
      rfl
    have htake : (before ++ exportedEntries (r :: rows)).take before.length = before :=
      List.take_left
    have hlength : (before ++ r.entries).length = before.length + r.values.length := by
      rw [List.length_append, length_entries]
    have hih := ih hrows (before ++ r.entries)
    rw [hlength, ← hentries, List.filter_append, List.length_append, filter_entries] at hih
    rw [exportedOffsets, restrictIndex, List.filterMap_cons]
    simp only [hfirst, htake, Option.some.injEq]
    by_cases h : r.address = contract
    · rw [if_pos h, length_entries] at hih
      rw [List.filter_cons_of_pos (by simpa using h), exportedOffsets, if_pos h, hih]
      rfl
    · rw [if_neg h, List.length_nil, Nat.add_zero] at hih
      rw [List.filter_cons_of_neg (by simpa using h), if_neg h, hih]
      rfl

/-- **The files of the stems of a contract are the restrictions of those of all stems.** -/
theorem restricts_of_rows {full contractOnly : ExportM ExportResult} {contract : Address}
    {chainId : ℕ} {env : ExportEnv} {rows : List ExportedStem} (hrows : RowsOrdered rows)
    (h : ∀ res envFull, full env = .ok res envFull → ∃ block res',
      envFull = env.putExport .state .stemIndex chainId block rows ∧
        contractOnly env = .ok res' (env.putExport (.contract contract)
          (.contractStemIndex contract) chainId block (rows.filter fun r => r.address = contract))) :
    Restricts full contractOnly contract chainId env := by
  intro res envFull hfull
  obtain ⟨block, res', rfl, hcontract⟩ := h res envFull hfull
  refine ⟨res', _, block, exportedEntries rows, exportedOffsets 0 rows, hcontract, ?_, ?_, ?_, ?_⟩
  · exact dir_putExport_state (by simp)
  · exact dir_putExport_index
  · rw [dir_putExport_state (by simp), exportedEntries_filter]
  · have hindex := exportedOffsets_filter contract rows hrows.nonempty []
    rw [dir_putExport_index]
    exact congrArg (fun index => some (indexBytes index)) hindex

/-! ### The two pairs of exporters -/

theorem mdbxStems_contract (contract : Address) (db : UbtDatabase) :
    mdbxStems (fun address => address = contract) db =
      (mdbxStems (fun _ => true) db).filter fun r => r.address = contract := by
  unfold mdbxStems
  rw [List.filter_filterMap]
  refine List.filterMap_congr fun row _ => ?_
  unfold mdbxStem
  cases db.loadStemAddress row.1 with
  | none => rfl
  | some address =>
    simp only [Option.bind_some, decide_eq_true_eq]
    by_cases haddress : address = contract <;> by_cases hne : row.2.subindices = [] <;>
      simp [haddress, hne, Option.filter]

theorem nomtStems_contract (contract : Address) (d : Disk) :
    nomtStems (fun address => address = contract) d =
      (nomtStems (fun _ => true) d).filter fun r => r.address = contract := by
  unfold nomtStems
  rw [List.filter_filterMap]
  refine List.filterMap_congr fun row _ => ?_
  unfold nomtStem
  simp only [decide_eq_true_eq]
  by_cases haddress : row.2.address = contract <;>
    by_cases hne : iterBitmapSubindices row.2.bitmap = [] <;>
      simp [haddress, hne, Option.filter]

/-- **Contract exports are restrictions of full exports**, from MDBX and from NOMT, for
every contents of the stores and every contract. -/
theorem contract_export_restricts (d : Disk) (dir : Dir) (chainId : ℕ) (contract : Address) :
    Restricts (exportFullStateFromMdbx chainId) (exportContractStateFromMdbx contract chainId)
        contract chainId (.over d dir) ∧
      Restricts (exportFullStateFromNomt chainId) (exportContractStateFromNomt contract chainId)
        contract chainId (.over d dir) := by
  constructor
  · refine restricts_of_rows (mdbxStems_ordered (fun _ => true) d.db) fun res env hfull => ?_
    obtain ⟨head, hhead, haddressed, -, rfl⟩ := exportFromMdbx_ok_iff.mp hfull
    refine ⟨_, _, rfl, exportFromMdbx_ok_iff.mpr ⟨head, hhead, haddressed, rfl, ?_⟩⟩
    rw [mdbxStems_contract]
  · refine restricts_of_rows (nomtStems_ordered (fun _ => true) d) fun res env hfull => ?_
    obtain ⟨head, hhead, hreadable, -, -, rfl⟩ := exportFromNomt_ok_iff.mp hfull
    have hcontract : Readable (fun address => address = contract) d :=
      fun row hrow _ => hreadable row hrow rfl
    refine ⟨_, _, rfl, exportFromNomt_ok_iff.mpr ⟨head, hhead, hcontract, by simp, rfl, ?_⟩⟩
    rw [nomtStems_contract]

/-- Stores in which a stem of contract 8 lies between two stems of contract 9. -/
def interleavedDisk : Disk where
  db :=
    { stems := (((∅ : ExtTreeMap Stem StemNode).insert 5 (StemNode.new.setValue 0 50)).insert 6
        (StemNode.new.setValue 1 60)).insert 7 ((StemNode.new.setValue 1 70).setValue 3 71)
      stemAddresses := (((∅ : ExtTreeMap Stem Address).insert 5 9).insert 6 8).insert 7 9
      head := some ⟨1, 11, 0, 3⟩
      blockDeltas := ∅ }
  nomt := ⟨∅, []⟩
  keyIndex := .empty

/-- The values and the index of contract 9, in the full export and in its own. -/
example :
    let full := (exportFullStateFromMdbx 1 (.over interleavedDisk fun _ => none)).state.dir
    let own := (exportContractStateFromMdbx 9 1 (.over interleavedDisk fun _ => none)).state.dir
    let values (file : Option (List UInt8)) :=
      (file.bind decodeState).map fun f => f.2.map StorageEntry.value
    (values (full .state) = some [50, 60, 70, 71] ∧
        (full .stemIndex).bind decodeIndex = some [(5, 0), (6, 1), (7, 2)]) ∧
      values (own (.contract 9)) = some [50, 70, 71] ∧
        (own (.contractStemIndex 9)).bind decodeIndex = some [(5, 0), (7, 1)] := by
  decide +kernel

end UbtExex
