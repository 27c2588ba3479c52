import UbtExex.Contract
import UbtExex.Delivery
import UbtExex.TwoExports

/-!
# What clients find

The files that are exported from the stores of a node that was shut down.  A search
through them finds, for an item of an account, the last value that the canonical bundles
wrote to it, under the address of the account; and nothing is found for an item that they
did not write or that they cleared.  The files depend on these bundles only: not on what
was reverted, on how blocks were grouped or on when they were flushed.

## Main definitions

* `itemRecord` — the record of an item of an account.
* `ServesItems` — an export in which clients find items.
* `SameExport` — an export that writes the same from two nodes.

## Main results

* `StoredAt.lookup_eq` — what a search for a key finds.
* `items_served` — **clients find the last values of the canonical bundles.**
* `StoredAt.rows_eq`, `nodes_agree` — **nodes with the same canonical state export the same
  files, byte by byte.**
-/

open Std

namespace UbtExex

variable {U : Ubt} {own : Stem → Address}

/-! ### Records of the stored state -/

section Stored

variable {block block' : ℕ × B256} {σ : TreeKey → B256} {d d' : Disk}

/-- The stem of a value of the state is registered. -/
theorem StoredAt.registered (h : StoredAt U own block σ d) {key : TreeKey} (hne : σ key ≠ 0) :
    Registered own d key.stem := by
  rw [← h.value] at hne
  exact h.exportable.registered hne

/-- **The records of the full export are the values of the state**, under the owners of
their stems. -/
theorem StoredAt.mem_entries (h : StoredAt U own block σ d) {e : StorageEntry} :
    e ∈ exportedEntries (mdbxStems (fun _ => true) d.db) ↔
      ∃ key : TreeKey, σ key ≠ 0 ∧ e = ⟨own key.stem, key.path, σ key⟩ := by
  rw [mem_exportedEntries_mdbx, h.value]
  constructor
  · intro ⟨key, address, hne, haddress, he⟩
    rw [(h.registered hne).address] at haddress
    obtain rfl := Option.some.inj haddress
    exact ⟨key, hne, he⟩
  · intro ⟨key, hne, he⟩
    exact ⟨key, own key.stem, hne, (h.registered hne).address, he⟩

/-- A search among records of wanted values finds the value of the key. -/
theorem lookup_of_mem {entries : List StorageEntry} {index : List (Stem × ℕ)}
    (hindexed : Indexed entries index)
    (hsorted : entries.Pairwise fun e e' => e.treeIndex < e'.treeIndex) {wanted : Address → Prop}
    [DecidablePred wanted]
    (hmem : ∀ e, e ∈ entries ↔
      ∃ key : TreeKey, σ key ≠ 0 ∧ wanted (own key.stem) ∧ e = ⟨own key.stem, key.path, σ key⟩)
    (key : TreeKey) :
    lookup entries index key =
      if σ key ≠ 0 ∧ wanted (own key.stem) then some ⟨own key.stem, key.path, σ key⟩ else none := by
  split
  · next hfound =>
    rw [hindexed.lookup_eq_some_iff hsorted, hmem]
    exact ⟨⟨key, hfound.1, hfound.2, rfl⟩, rfl⟩
  · next hnot =>
    cases hlookup : lookup entries index key with
    | none => rfl
    | some e =>
      -- a record at this path is that of this key
      obtain ⟨he, hpath⟩ := (hindexed.lookup_eq_some_iff hsorted key e).mp hlookup
      obtain ⟨key', hne, hwanted, rfl⟩ := (hmem e).mp he
      obtain rfl := TreeKey.path_injective hpath
      exact absurd ⟨hne, hwanted⟩ hnot

/-- The state file says what its records are. -/
theorem Pir2State.entries_eq {chainId : ℕ} {entries entries' : List StorageEntry}
    (h : Pir2State (some (stateBytes chainId block entries)) block chainId entries')
    (hfits : FitsU64 chainId block entries.length) : entries' = entries := by
  obtain ⟨bs, hbs, -, hdecode⟩ := h.decodes
  obtain rfl := Option.some.inj hbs
  rw [decodeState_stateBytes hfits.count hfits.block hfits.chainId] at hdecode
  exact (congrArg Prod.snd (Option.some.inj hdecode)).symm

/-- The two files of an export as a client reads them: the records, under the header of the
block, and the rows of the index. -/
structure ReadAs (dir : Dir) (stateFile indexFile : FileName) (block : ℕ × B256) (chainId : ℕ)
    (entries : List StorageEntry) (index : List (Stem × ℕ)) : Prop where
  state : Pir2State (dir stateFile) block chainId entries
  index : ∃ bs, dir indexFile = some bs ∧ decodeIndex bs = some index

/-- What a search for a key finds in the export of a state: its value, if it is not zero and
the owner of its stem is wanted. -/
def keyRecord (own : Stem → Address) (wanted : Address → Prop) [DecidablePred wanted]
    (σ : TreeKey → B256) (key : TreeKey) : Option StorageEntry :=
  if σ key ≠ 0 ∧ wanted (own key.stem) then some ⟨own key.stem, key.path, σ key⟩ else none

/-- **The files of ordered stems with the records of wanted values** are read back, and a
search through them finds the values. -/
theorem readAs_putExport {env : ExportEnv} {stateFile indexFile : FileName} {chainId : ℕ}
    {rows : List ExportedStem} (hne : stateFile ≠ indexFile) (hrows : RowsOrdered rows)
    (hfits : FitsU64 chainId block (exportedEntries rows).length) {wanted : Address → Prop}
    [DecidablePred wanted]
    (hmem : ∀ e, e ∈ exportedEntries rows ↔
      ∃ key : TreeKey, σ key ≠ 0 ∧ wanted (own key.stem) ∧ e = ⟨own key.stem, key.path, σ key⟩) :
    ∃ entries index, ReadAs (env.putExport stateFile indexFile chainId block rows).dir stateFile
        indexFile block chainId entries index ∧
      ∀ key, lookup entries index key = keyRecord own wanted σ key := by
  have hexport : Pir2Export (env.putExport stateFile indexFile chainId block rows).dir stateFile
      indexFile block chainId := pir2Export_putExport hne hrows hfits
  obtain ⟨entries, index, bs, hstate, hbs, hindex, hindexed, -⟩ := hexport
  have hstate' := hstate
  rw [dir_putExport_state hne] at hstate'
  obtain rfl := hstate'.entries_eq hfits
  exact ⟨_, index, ⟨hstate, bs, hbs, hindex⟩, lookup_of_mem hindexed hrows.sorted hmem⟩

/-- An export that succeeds, and in whose files, if its counters fit, a search for a key
finds the record of the key. -/
def Finds (exporter : ExportM ExportResult) (env : ExportEnv) (stateFile indexFile : FileName)
    (block : ℕ × B256) (chainId : ℕ) (record : TreeKey → Option StorageEntry) : Prop :=
  ∃ res env', exporter env = .ok res env' ∧
    (FitsU64 chainId block res.entryCount → ∃ entries index,
      ReadAs env'.dir stateFile indexFile block chainId entries index ∧
        ∀ key, lookup entries index key = record key)

/-- **The full export of a stored state.** -/
theorem StoredAt.finds (h : StoredAt U own block σ d) (chainId : ℕ) (dir : Dir) :
    Finds (exportFullStateFromMdbx chainId) (.over d dir) .state .stemIndex block chainId
      (keyRecord own (fun _ => True) σ) := by
  obtain ⟨stemCount, hhead⟩ := h.head
  refine ⟨_, _, exportFromMdbx_of_addressed hhead h.exportable.addressed, fun hfits => ?_⟩
  refine readAs_putExport (by simp) (mdbxStems_ordered _ _) hfits fun e => ?_
  rw [h.mem_entries]
  simp

/-- **The export of a contract from a stored state.** -/
theorem StoredAt.finds_contract (h : StoredAt U own block σ d) (contract : Address) (chainId : ℕ)
    (dir : Dir) :
    Finds (exportContractStateFromMdbx contract chainId) (.over d dir) (.contract contract)
      (.contractStemIndex contract) block chainId
      (keyRecord own (fun address => address = contract) σ) := by
  obtain ⟨stemCount, hhead⟩ := h.head
  refine ⟨_, _, exportFromMdbx_of_addressed hhead h.exportable.addressed, fun hfits => ?_⟩
  refine readAs_putExport (by simp) (mdbxStems_ordered _ _) hfits fun e => ?_
  -- they are the records of the full export under the address of the contract
  rw [mdbxStems_contract, exportedEntries_filter, List.mem_filter, h.mem_entries, decide_eq_true_eq]
  constructor
  · intro ⟨⟨key, hne, he⟩, haddress⟩
    refine ⟨key, hne, ?_, he⟩
    rw [← haddress, he]
  · intro ⟨key, hne, howner, he⟩
    refine ⟨⟨key, hne, he⟩, ?_⟩
    rw [he]
    exact howner

/-! ### Items -/

/-- The record of an item of an account: the last value that the chains wrote to it, if it
is not zero. -/
def itemRecord (U : Ubt) (chains : List Chain) (address : Address) (item : Item) :
    Option StorageEntry :=
  match Writes.lastWrite (chainsItems U chains) (address, item) with
  | some v => if v ≠ 0 then some ⟨address, (U.key address item).path, v⟩ else none
  | none => none

/-- The entry of an item that a bundle writes. -/
theorem itemEntry_mem {bundle : Bundle} {w : (Address × Item) × B256}
    (hw : w ∈ bundleItems U bundle) : itemEntry U w.1.1 (w.1.2, w.2) ∈ chainEntries U bundle := by
  obtain ⟨⟨address, account⟩, hp, hw⟩ := List.mem_flatMap.mp hw
  obtain ⟨w', hw', rfl⟩ := List.mem_map.mp hw
  refine List.mem_flatMap.mpr ⟨_, hp, ?_⟩
  show itemEntry U address w' ∈ accountEntries U address account
  rw [accountEntries_eq]
  exact List.mem_map_of_mem hw'

/-- The stem of an item that owned chains write is that of its account. -/
theorem own_of_lastWrite {chains : List Chain}
    (hown : ∀ c ∈ chains, OwnedEntries own (chainEntries U c.bundle)) {address : Address}
    {item : Item} {v : B256}
    (hlast : Writes.lastWrite (chainsItems U chains) (address, item) = some v) :
    own (U.key address item).stem = address := by
  obtain ⟨c, hc, hw⟩ := List.mem_flatMap.mp (Writes.mem_of_lastWrite hlast)
  exact (hown c hc _ (itemEntry_mem hw)).symm

/-- The state of chains at an item that shares its key with no other. -/
theorem chainsState_item {chains : List Chain} {address : Address} {item : Item}
    (hapart : Apart U chains address item) :
    chainsState U chains (U.key address item) =
      (Writes.lastWrite (chainsItems U chains) (address, item)).getD 0 := by
  have hlast : Writes.lastWrite ((chainsItems U chains).map fun w => (U.key w.1.1 w.1.2, w.2))
      (U.key address item) = Writes.lastWrite (chainsItems U chains) (address, item) :=
    Writes.lastWrite_map (fun p : Address × Item => U.key p.1 p.2) (k := (address, item)) hapart
  rw [chainsState, Writes.applyAll_eq_lastWrite, hlast]

/-- **What is found under the key of an item is its record.** -/
theorem keyRecord_item {chains : List Chain}
    (hown : ∀ c ∈ chains, OwnedEntries own (chainEntries U c.bundle)) (wanted : Address → Prop)
    [DecidablePred wanted] {address : Address} {item : Item}
    (hapart : Apart U chains address item) :
    keyRecord own wanted (chainsState U chains) (U.key address item) =
      if wanted address then itemRecord U chains address item else none := by
  unfold keyRecord itemRecord
  rw [chainsState_item hapart]
  cases hlast : Writes.lastWrite (chainsItems U chains) (address, item) with
  | none => simp
  | some v =>
    rw [own_of_lastWrite hown hlast]
    by_cases hv : v = 0 <;> by_cases hwanted : wanted address <;> simp [hv, hwanted]

/-- An export that succeeds, and in whose files, if its counters fit, clients find the items
of wanted accounts: a search for an item that shares its key with no other item finds its
record. -/
def ServesItems (U : Ubt) (chains : List Chain) (wanted : Address → Prop) [DecidablePred wanted]
    (exporter : ExportM ExportResult) (env : ExportEnv) (stateFile indexFile : FileName)
    (block : ℕ × B256) (chainId : ℕ) : Prop :=
  ∃ res env', exporter env = .ok res env' ∧
    (FitsU64 chainId block res.entryCount → ∃ entries index,
      ReadAs env'.dir stateFile indexFile block chainId entries index ∧
        ∀ address item, Apart U chains address item →
          lookup entries index (U.key address item) =
            if wanted address then itemRecord U chains address item else none)

theorem Finds.servesItems {chains : List Chain}
    (hown : ∀ c ∈ chains, OwnedEntries own (chainEntries U c.bundle)) {wanted : Address → Prop}
    [DecidablePred wanted] {exporter : ExportM ExportResult} {env : ExportEnv}
    {stateFile indexFile : FileName} {chainId : ℕ}
    (h : Finds exporter env stateFile indexFile block chainId
      (keyRecord own wanted (chainsState U chains))) :
    ServesItems U chains wanted exporter env stateFile indexFile block chainId := by
  obtain ⟨res, env', hrun, hfound⟩ := h
  refine ⟨res, env', hrun, fun hfits => ?_⟩
  obtain ⟨entries, index, hread, hlookup⟩ := hfound hfits
  refine ⟨entries, index, hread, fun address item hapart => ?_⟩
  rw [hlookup, keyRecord_item hown wanted hapart]

end Stored

/-- **Clients find the last values of the canonical bundles.**  After any notifications from
a fresh start that revert whole chains and find their rows, and a shutdown, the full export
and the export of each contract succeed, under the header of the tip; and a search through
their files for an item finds, under the address of the account, the last value that the
canonical bundles wrote to it, and nothing if there is none or it is zero. -/
theorem items_served {base : ℕ × B256} {config : UbtConfig} {h : List (Standing × Notification)}
    {s : Standing} {c : Chain} {m : Machine} (hrun : Run (Delivery U base) (.fresh config) h s)
    (hkept : ∀ p ∈ h, DeliveryKept U own p.1 p.2) (hlast : s.chains.getLast? = some c)
    (hstop : shutdown U s.node.machine = .ok () m) (chainId : ℕ) (dir : Dir) :
    ServesItems U s.chains (fun _ => True) (exportFullStateFromMdbx chainId)
        (.over m.exex.toDisk dir) .state .stemIndex c.tipBlock chainId ∧
      ∀ contract, ServesItems U s.chains (fun address => address = contract)
        (exportContractStateFromMdbx contract chainId) (.over m.exex.toDisk dir)
        (.contract contract) (.contractStemIndex contract) c.tipBlock chainId := by
  obtain ⟨hown, hstored⟩ := delivered_shutdown hrun hkept hlast hstop
  constructor
  · exact (hstored.finds chainId dir).servesItems hown
  · exact fun contract => (hstored.finds_contract contract chainId dir).servesItems hown

/-! ### Two nodes -/

/-- Ordered stems are determined by their members. -/
theorem RowsOrdered.eq_of_mem_iff {rows rows' : List ExportedStem} (h : RowsOrdered rows)
    (h' : RowsOrdered rows') (hmem : ∀ r, r ∈ rows ↔ r ∈ rows') : rows = rows' := by
  have : IsTrans ExportedStem fun r r' => r.stem < r'.stem := ⟨fun _ _ _ => BitVec.lt_trans⟩
  have : Std.Irrefl fun r r' : ExportedStem => r.stem < r'.stem := ⟨fun _ => BitVec.lt_irrefl _⟩
  exact Tables.eq_of_sorted_of_mem_iff h.stems h'.stems hmem

section Nodes

variable {block block' : ℕ × B256} {σ : TreeKey → B256} {d d' : Disk} {wanted : Address → Bool}

/-- What is exported of a stem by one node is exported by another that stored the same
state. -/
theorem StoredAt.mem_rows (h : StoredAt U own block σ d) (h' : StoredAt U own block' σ d')
    {r : ExportedStem} (hr : r ∈ mdbxStems wanted d.db) : r ∈ mdbxStems wanted d'.db := by
  obtain ⟨⟨stem, node⟩, hrow, hstem⟩ := List.mem_filterMap.mp hr
  obtain ⟨address, haddress, hif⟩ := Option.bind_eq_some_iff.mp hstem
  split at hif
  · next hcond =>
    have hvalue : ∀ i, d'.db.value ⟨stem, i⟩ = node.value i := by
      intro i
      rw [h'.value, ← h.value]
      exact UbtDatabase.value_of_mem_iterStems hrow i
    -- the stem has a value, so the other node has stored it too
    obtain ⟨i, hi⟩ := List.exists_mem_of_ne_nil _ hcond.2
    have hne : node.value i ≠ 0 := StemNode.mem_subindices.mp hi
    have hσ : σ ⟨stem, i⟩ ≠ 0 := by
      rw [← h.value, UbtDatabase.value_of_mem_iterStems hrow i]
      exact hne
    have hstem₁ : d.db.loadStemAddress stem = some (own stem) := (h.registered hσ).address
    have hstem₂ : d'.db.loadStemAddress stem = some (own stem) := (h'.registered hσ).address
    obtain rfl : own stem = address := Option.some.inj (hstem₁.symm.trans haddress)
    cases hnode : d'.db.loadStem stem with
    | none =>
      have hzero := hvalue i
      rw [UbtDatabase.value_eq_loadStem, hnode] at hzero
      exact absurd (hzero.symm.trans (StemNode.value_new i)) hne
    | some node' =>
      obtain rfl : node' = node := by
        refine StemNode.ext_value fun j => ?_
        rw [← hvalue j, UbtDatabase.value_eq_loadStem, hnode]
        rfl
      refine List.mem_filterMap.mpr ⟨(stem, node'), UbtDatabase.mem_iterStems.mpr hnode, ?_⟩
      unfold mdbxStem
      dsimp only
      rw [hstem₂, Option.bind_some, if_pos hcond]
      exact hif
  · cases hif

/-- **The stems that are exported depend on the state only.** -/
theorem StoredAt.rows_eq (h : StoredAt U own block σ d) (h' : StoredAt U own block' σ d') :
    mdbxStems wanted d.db = mdbxStems wanted d'.db :=
  (mdbxStems_ordered wanted d.db).eq_of_mem_iff (mdbxStems_ordered wanted d'.db) fun _ =>
    ⟨h.mem_rows h', h'.mem_rows h⟩

/-- An export that writes the same from two stores, and says the same about it. -/
def SameExport (exporter : ExportM ExportResult) (d d' : Disk) (dir : Dir) : Prop :=
  ∃ res env env', exporter (.over d dir) = .ok res env ∧ exporter (.over d' dir) = .ok res env' ∧
    env.dir = env'.dir

/-- **Stores with one state at one block are exported alike.** -/
theorem StoredAt.sameExport (h : StoredAt U own block σ d) (h' : StoredAt U own block σ d')
    (wanted : Address → Bool) (stateFile indexFile : FileName) (chainId : ℕ) (dir : Dir) :
    SameExport (exportFromMdbx wanted stateFile indexFile chainId) d d' dir := by
  obtain ⟨stemCount, hhead⟩ := h.head
  obtain ⟨stemCount', hhead'⟩ := h'.head
  have hroot : computeRoot U d.db = computeRoot U d'.db :=
    computeRoot_of_value (h.value.trans h'.value.symm)
  have hrun : exportFromMdbx wanted stateFile indexFile chainId (.over d' dir) = .ok _ _ :=
    exportFromMdbx_of_addressed hhead' h'.exportable.addressed
  rw [← h.rows_eq h', ← hroot] at hrun
  refine ⟨_, _, _, exportFromMdbx_of_addressed hhead h.exportable.addressed, hrun, ?_⟩
  rfl

end Nodes

/-- **Nodes agree.**  Two nodes with any flush intervals, that started fresh and were notified
of any chains, reverted and replaced any of them and were shut down, end with the same root
and the same exported files, byte by byte, if they are at the same block and the canonical
bundles write the same last value to each key. -/
theorem nodes_agree {base base' : ℕ × B256} {config config' : UbtConfig}
    {h h' : List (Standing × Notification)} {s s' : Standing} {c c' : Chain} {m m' : Machine}
    (hrun : Run (Delivery U base) (.fresh config) h s)
    (hkept : ∀ p ∈ h, DeliveryKept U own p.1 p.2) (hlast : s.chains.getLast? = some c)
    (hstop : shutdown U s.node.machine = .ok () m)
    (hrun' : Run (Delivery U base') (.fresh config') h' s')
    (hkept' : ∀ p ∈ h', DeliveryKept U own p.1 p.2) (hlast' : s'.chains.getLast? = some c')
    (hstop' : shutdown U s'.node.machine = .ok () m')
    (hblock : c.tipBlock = c'.tipBlock)
    (hstate : chainsState U s.chains = chainsState U s'.chains) :
    computeRoot U m.exex.db = computeRoot U m'.exex.db ∧ ∀ chainId dir,
      SameExport (exportFullStateFromMdbx chainId) m.exex.toDisk m'.exex.toDisk dir ∧
        ∀ contract, SameExport (exportContractStateFromMdbx contract chainId) m.exex.toDisk
          m'.exex.toDisk dir := by
  obtain ⟨-, hstored⟩ := delivered_shutdown hrun hkept hlast hstop
  obtain ⟨-, hstored'⟩ := delivered_shutdown hrun' hkept' hlast' hstop'
  rw [← hblock, ← hstate] at hstored'
  refine ⟨computeRoot_of_value (hstored.value.trans hstored'.value.symm), fun chainId dir => ?_⟩
  constructor
  · exact hstored.sameExport hstored' _ _ _ chainId dir
  · exact fun contract => hstored.sameExport hstored' _ _ _ chainId dir

/-! ### A replaced chain -/

/-- A sibling of `block1` whose bundle sets slot 1. -/
def siblingChain : Chain := accountChain block1' slotAccount

/-- A node that is notified of `block1`, with another account in its bundle. -/
def beforeReorg : Standing :=
  (Standing.fresh ⟨1, 10⟩).deliver sampleUbt (accountChain block1 createdAccount)

/-- The node after `block1` was replaced by its sibling. -/
def afterReorg : Standing :=
  (beforeReorg.takeBack sampleUbt [] (accountChain block1 createdAccount)).deliver sampleUbt
    siblingChain

/-- A node that is notified of the sibling only, and does not flush it. -/
def withoutReorg : Standing := (Standing.fresh ⟨5, 3⟩).deliver sampleUbt siblingChain

theorem afterReorg_run : Run (Delivery sampleUbt (0, 0)) (.fresh ⟨1, 10⟩)
    [(beforeReorg, .chainReorged (accountChain block1 createdAccount) siblingChain),
      (.fresh ⟨1, 10⟩, .chainCommitted (accountChain block1 createdAccount))] afterReorg := by
  refine .snoc (.snoc .nil (Standing.deliver_committed ?_ ?_)) ?_
  · exact ⟨rfl, rfl, trivial⟩
  · decide +kernel
  · have hgone : (accountChain block1 createdAccount).blocks =
        [accountChain block1 createdAccount].flatMap Chain.blocks := rfl
    refine Standing.deliver_reorged rfl hgone rfl ?_ ?_
    · exact ⟨rfl, rfl, trivial⟩
    · decide +kernel

theorem afterReorg_kept : ∀ p ∈ [(beforeReorg,
    Notification.chainReorged (accountChain block1 createdAccount) siblingChain),
      (.fresh ⟨1, 10⟩, .chainCommitted (accountChain block1 createdAccount))],
    DeliveryKept sampleUbt (fun _ => 7) p.1 p.2 := by
  refine List.forall_mem_cons.mpr ⟨⟨⟨?_, trivial⟩, ?_⟩, List.forall_mem_singleton.mpr ?_⟩
  · decide +kernel
  · unfold OwnedEntries
    decide +kernel
  · unfold DeliveryKept OwnedEntries
    decide +kernel

/-- The items of the first node, after it was shut down, are those of the sibling: slot 1 is
found, and the basic data that only the replaced block wrote is not. -/
theorem items_served_replaced : ∃ res env entries index,
    exportFullStateFromMdbx 1
        (.over (shutdown sampleUbt afterReorg.node.machine).state.exex.toDisk fun _ => none) =
      .ok res env ∧
      ReadAs env.dir .state .stemIndex (1, 21) 1 entries index ∧
      lookup entries index (slotKey 7 1) = some ⟨7, (slotKey 7 1).path, 5⟩ ∧
      lookup entries index (sampleUbt.getBasicDataKey 7) = none := by
  have hlast : afterReorg.chains.getLast? = some siblingChain := rfl
  obtain ⟨res, env, hrun, hfound⟩ := (items_served afterReorg_run afterReorg_kept hlast
    (shutdown_eq_ok _ _) 1 fun _ => none).1
  have hcount : res.entryCount = 1 := by
    obtain ⟨head, -, -, rfl, -⟩ := exportFromMdbx_ok_iff.mp hrun
    show (exportedEntries (mdbxStems (fun _ => true) _)).length = 1
    decide +kernel
  obtain ⟨entries, index, hread, hlookup⟩ := hfound ⟨by decide, by decide, by rw [hcount]; decide⟩
  have hslot := hlookup 7 (.storageSlot 1) (by unfold Apart; decide +kernel)
  have hbasic := hlookup 7 .basicData (by unfold Apart; decide +kernel)
  rw [if_pos trivial] at hslot hbasic
  refine ⟨res, env, entries, index, hrun, hread, hslot.trans ?_, hbasic.trans ?_⟩
  · decide +kernel
  · decide +kernel

theorem withoutReorg_run : Run (Delivery sampleUbt (0, 0)) (.fresh ⟨5, 3⟩)
    [(.fresh ⟨5, 3⟩, .chainCommitted siblingChain)] withoutReorg := by
  refine .snoc .nil (Standing.deliver_committed ?_ ?_)
  · exact ⟨rfl, rfl, trivial⟩
  · decide +kernel

/-- Both nodes, after they were shut down, have one root and export the same files. -/
theorem nodes_agree_replaced :
    let m := (shutdown sampleUbt afterReorg.node.machine).state
    let m' := (shutdown sampleUbt withoutReorg.node.machine).state
    computeRoot sampleUbt m.exex.db = computeRoot sampleUbt m'.exex.db ∧ ∀ chainId dir,
      SameExport (exportFullStateFromMdbx chainId) m.exex.toDisk m'.exex.toDisk dir ∧
        ∀ contract, SameExport (exportContractStateFromMdbx contract chainId) m.exex.toDisk
          m'.exex.toDisk dir := by
  have hlast : afterReorg.chains.getLast? = some siblingChain := rfl
  have hlast' : withoutReorg.chains.getLast? = some siblingChain := rfl
  refine nodes_agree afterReorg_run afterReorg_kept hlast (shutdown_eq_ok _ _) withoutReorg_run
    (List.forall_mem_singleton.mpr ?_) hlast' (shutdown_eq_ok _ _) rfl rfl
  unfold DeliveryKept OwnedEntries
  decide +kernel

end UbtExex
