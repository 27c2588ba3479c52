import UbtExex.Finished
import UbtExex.Replica

/-!
# Exports and their root

A client that has the state file of an export can compute a root from its records, and
compare it with the root that `get_root` serves.  The file is written from NOMT, with
records for keys that hold zero; the root was computed from MDBX, when the head of the
key index was saved.  They agree whenever the gate lets the export through, as long as no
commit without a flush comes back to the number of that head and no revert goes back further
than NOMT can.

## Main definitions

* `rootOfRecords` — the root that a client computes.
* `RootKept` — the condition on a step, before it is made.
* `Rooted` — the head of the key index has the root of its block.

## Main results

* `rootOfRecords_eq` — **records with the values of a state have its root.**
* `Rooted.step` — one step.
* `exports_verify` — **what is exported has the root that is served.**
-/

open Std

namespace UbtExex

/-! ### The root of records -/

/-- The key of a tree index. -/
def TreeKey.ofPath (treeIndex : KeyPath) : TreeKey :=
  ⟨keyStem treeIndex, ⟨treeIndex.extractLsb' 0 8⟩⟩

@[simp] theorem TreeKey.ofPath_path (key : TreeKey) : TreeKey.ofPath key.path = key := by
  have hlow : BitVec.extractLsb' 0 8 key.path = key.subindex.toBitVec :=
    BitVec.extractLsb'_append_eq_right
  unfold TreeKey.ofPath
  rw [hlow, show keyStem key.path = key.stem from keyStem_treeIndexFromKey _ _]

/-- The order of the tree indices is that of the keys. -/
theorem TreeKey.lt_of_path {key key' : TreeKey} {v v' : B256} (h : key.path < key'.path) :
    UbtDatabase.EntryLt (key, v) (key', v') := by
  have hlt := BitVec.lt_def.mp h
  unfold TreeKey.path at hlt
  rw [toNat_treeIndexFromKey, toNat_treeIndexFromKey] at hlt
  have hi := key.subindex.toNat_lt
  have hi' := key'.subindex.toNat_lt
  rcases Nat.lt_trichotomy key.stem.toNat key'.stem.toNat with hs | hs | hs
  · exact Or.inl (BitVec.lt_def.mpr hs)
  · refine Or.inr ⟨BitVec.eq_of_toNat_eq hs, UInt8.lt_iff_toNat_lt.mpr ?_⟩
    change key.subindex.toNat < key'.subindex.toNat
    omega
  · omega

/-- The root that a client computes from the records of a file: zeros are left out. -/
def rootOfRecords (U : Ubt) (entries : List StorageEntry) : B256 :=
  U.buildRootHash ((entries.filter fun e => e.value ≠ 0).map fun e =>
    (TreeKey.ofPath e.treeIndex, e.value))

/-- **Records with the values of a state have its root**: they increase, and those that are
not zero are the values of the state. -/
theorem rootOfRecords_eq {U : Ubt} {entries : List StorageEntry} {db : UbtDatabase}
    (hsorted : entries.Pairwise fun e e' => e.treeIndex < e'.treeIndex)
    (hpaths : ∀ e ∈ entries, ∃ key : TreeKey, e.treeIndex = key.path)
    (hvalues : ∀ (key : TreeKey) (v : B256), v ≠ 0 →
      ((∃ e ∈ entries, e.treeIndex = key.path ∧ e.value = v) ↔ db.value key = v)) :
    rootOfRecords U entries = computeRoot U db := by
  unfold rootOfRecords computeRoot
  congr 1
  refine Tables.eq_of_sorted_of_mem_iff ?_ (UbtDatabase.pairwise_iterEntriesSorted db) ?_
  · rw [List.pairwise_map]
    refine (hsorted.filter _).imp_of_mem ?_
    intro e e' he he' hlt
    obtain ⟨key, hkey⟩ := hpaths e (List.mem_of_mem_filter he)
    obtain ⟨key', hkey'⟩ := hpaths e' (List.mem_of_mem_filter he')
    rw [hkey, hkey'] at hlt ⊢
    rw [TreeKey.ofPath_path, TreeKey.ofPath_path]
    exact TreeKey.lt_of_path hlt
  · rintro ⟨key, v⟩
    rw [UbtDatabase.mem_iterEntriesSorted, List.mem_map]
    constructor
    · rintro ⟨e, he, heq⟩
      obtain ⟨hmem, hne⟩ := List.mem_filter.mp he
      obtain ⟨key', hkey'⟩ := hpaths e hmem
      rw [hkey', TreeKey.ofPath_path] at heq
      obtain ⟨rfl, rfl⟩ := Prod.mk.inj heq
      have hv : e.value ≠ 0 := of_decide_eq_true hne
      exact ⟨hv, (hvalues key' e.value hv).mp ⟨e, hmem, hkey', rfl⟩⟩
    · rintro ⟨hne, hv⟩
      obtain ⟨e, he, hkey, rfl⟩ := (hvalues key v hne).mpr hv
      refine ⟨e, List.mem_filter.mpr ⟨he, decide_eq_true hne⟩, ?_⟩
      rw [hkey, TreeKey.ofPath_path]

variable {U : Ubt} {own : Stem → Address} {base : ℕ × B256} {σ₀ : TreeKey → B256} {R : ℕ}
  {limit : Option ℕ}

/-- **The records from MDBX have the root of the stored stems.** -/
theorem Exportable.rootOfRecords {d : Disk} (h : Exportable own d) :
    rootOfRecords U (exportedEntries (mdbxStems (fun _ => true) d.db)) = computeRoot U d.db := by
  refine rootOfRecords_eq (mdbxStems_ordered _ d.db).sorted ?_ ?_
  · intro e he
    obtain ⟨key, address, -, -, rfl⟩ := mem_exportedEntries_mdbx.mp he
    exact ⟨key, rfl⟩
  · intro key v hne
    constructor
    · rintro ⟨e, he, hpath, rfl⟩
      obtain ⟨key', address, -, -, rfl⟩ := mem_exportedEntries_mdbx.mp he
      rw [TreeKey.path_injective hpath]
    · rintro rfl
      have hmem := mem_exportedEntries_mdbx.mpr ⟨key, _, hne, (h.registered hne).address, rfl⟩
      exact ⟨_, hmem, rfl, rfl⟩

/-- **The records from NOMT have the root of a state** that NOMT holds, if what is not zero in
it is registered and no key is at the path of the NOMT head. -/
theorem rootOfRecords_nomt {d : Disk} {db : UbtDatabase}
    (hnomt : ∀ key : TreeKey, key.path ≠ nomtHeadKey → d.nomt.current.value key = db.value key)
    (hbits : ∀ key, db.value key ≠ 0 → d.keyIndex.bit key = true)
    (hhead : ∀ key : TreeKey, key.path = nomtHeadKey → d.keyIndex.bit key = false) :
    rootOfRecords U (stateEntries d) = computeRoot U db := by
  have hvalue : ∀ key, d.keyIndex.bit key = true → d.nomt.current.value key = db.value key := by
    intro key hbit
    refine hnomt key fun hpath => ?_
    exact absurd (hbit.symm.trans (hhead key hpath)) (by decide)
  refine rootOfRecords_eq (nomtStems_ordered _ d).sorted ?_ ?_
  · intro e he
    obtain ⟨key, address, -, -, rfl⟩ := mem_exportedEntries_nomt.mp he
    exact ⟨key, rfl⟩
  · intro key v hne
    constructor
    · rintro ⟨e, he, hpath, rfl⟩
      obtain ⟨key', address, hbit, -, rfl⟩ := mem_exportedEntries_nomt.mp he
      obtain rfl := TreeKey.path_injective hpath
      exact (hvalue _ hbit).symm
    · rintro rfl
      have hbit := hbits key hne
      obtain ⟨address, haddress⟩ := KeyIndex.address_of_bit hbit
      have hmem := mem_exportedEntries_nomt.mpr ⟨key, address, hbit, haddress, rfl⟩
      exact ⟨_, hmem, rfl, hvalue key hbit⟩

/-! ### One step -/

/-- The condition on a step: the entries of a commit have one address for each stem, none is
at the path of the NOMT head, and without a flush the commit does not come to the number of
the head of the key index; a revert finds the rows of its blocks and stays within NOMT's
log. -/
def RootKept (own : Stem → Address) (limit : Option ℕ) (t : Tracked) : Event → Prop
  | .commit bs es => OwnedEntries own es ∧ (∀ e ∈ es, e.key.path ≠ nomtHeadKey) ∧
    ∀ b ∈ bs.head?, t.machine.exex.shouldFlush b.block.number = false →
      ∀ head, t.machine.exex.keyIndex.loadHead = some head → head.blockNumber ≠ b.block.number
  | .revert old => RowsFound t (.revert old) ∧ LogHolds limit t (.revert old)

/-- Such a step also keeps the gate sound. -/
theorem RootKept.nodeKept {t : Tracked} {e : Event} (h : RootKept own limit t e) :
    NodeKept own limit t e := by
  cases e with
  | revert old => exact h
  | commit bs es =>
    obtain ⟨hown, -, hnumber⟩ := h
    refine ⟨hown, ?_⟩
    cases bs with
    | nil => trivial
    | cons b bs =>
      intro hflush head hload heq
      exact absurd heq (hnumber b rfl hflush head hload)

/-- With a flush interval of at most one every commit flushes. -/
theorem RootKept.of_interval {t : Tracked} {bs : List CanonicalBlock} {es : List PendingEntry}
    (hinterval : t.machine.exex.flushInterval ≤ 1) (hown : OwnedEntries own es)
    (hpaths : ∀ e ∈ es, e.key.path ≠ nomtHeadKey) : RootKept own limit t (.commit bs es) := by
  refine ⟨hown, hpaths, ?_⟩
  intro b _ hflush
  have htrue : t.machine.exex.shouldFlush b.block.number = true := by
    rw [shouldFlush_eq_true]
    omega
  exact absurd (hflush.symm.trans htrue) (by decide)

/-- The head of the key index has the root of its block, if that is canonical, and no key is
registered at the path of the NOMT head. -/
structure Rooted (U : Ubt) (own : Stem → Address) (limit : Option ℕ) (base : ℕ × B256)
    (σ₀ : TreeKey → B256) (retention : ℕ) (t : Tracked) : Prop extends
    NodeSound U own limit base σ₀ retention t where
  root : ∀ head, t.machine.exex.keyIndex.loadHead = some head →
    ∀ k, head.blockNumber = (tipOf base (t.ledger.blocks.drop k)).1 →
      ∀ db : UbtDatabase, db.value = stateAfter σ₀ (t.ledger.blocks.drop k) →
        head.root = computeRoot U db
  headKey : ∀ key : TreeKey, key.path = nomtHeadKey → t.machine.exex.keyIndex.bit key = false

/-- A commit registers the keys of its entries, and no others. -/
theorem bit_commitEntries {n : ℕ} {hash : B256} {es : List PendingEntry} {m m' : Machine}
    {root : B256} (hpending : m.exex.pendingEntries = [])
    (hrun : commitEntries U n hash es m = .ok root m') (key : TreeKey) :
    m'.exex.keyIndex.bit key = true ↔
      m.exex.keyIndex.bit key = true ∨ ∃ e ∈ es, e.key = key := by
  obtain ⟨db, ki, k, -, hki, he, -⟩ := commit_effect U hrun
  have hentries : (m.push es).exex.pendingEntries = es := by
    change m.exex.pendingEntries ++ es = es
    rw [hpending, List.nil_append]
  have htable : m'.exex.keyIndex.stemTable = ki.stemTable := by
    rw [he]
    unfold committed
    split <;> rfl
  have hbit : m'.exex.keyIndex.bit key = ki.bit key := by
    unfold KeyIndex.bit
    rw [htable]
  rw [hbit, KeyIndex.bit_applyUpdates hki, hentries]
  refine or_congr_right ?_
  unfold indexUpdates
  simp only [List.mem_map, exists_exists_and_eq_and]

/-- **One step.** -/
theorem Rooted.step {t t' : Tracked} {e : Event} (h : Rooted U own limit base σ₀ R t)
    (hkept : RootKept own limit t e) (hstep : LoggedStep U limit base t e t') :
    Rooted U own limit base σ₀ R t' := by
  have hnode := h.toNodeSound.step hkept.nodeKept hstep
  obtain ⟨t₁, ⟨hone, hstep⟩, rfl⟩ := hstep
  cases hstep with
  | @commit m m' L hi b bs es root hlink hwrites hrun =>
    obtain rfl : bs = [] := List.eq_nil_of_length_eq_zero (Nat.succ.inj hone)
    obtain ⟨-, hpaths, hnumber⟩ := hkept
    have hcom := commit_ok U hrun
    have hki := keyIndexHead_commit U hrun
    have hlinked : Linked base L.blocks := h.anchored.linked
    -- the blocks below the new one have smaller numbers
    have hbelow : ∀ k, (tipOf base (L.blocks.drop k)).1 < b.block.number := fun k =>
      Nat.lt_of_le_of_lt (hlinked.tip_drop_le k) (hlink.1 ▸ Nat.lt_succ_self _)
    refine ⟨hnode, ?_, ?_⟩
    · intro head hload k hk db hdb
      cases hf : (m.push es).exex.shouldFlush b.block.number with
      | true =>
        -- the head is that of the new block, which no older one is
        rw [if_pos hf] at hki
        obtain rfl := Option.some.inj (hki.symm.trans hload)
        obtain ⟨hdirty, -, -, hlast, hroot, -⟩ := hcom.flushed hf
        cases k with
        | succ k => exact absurd hk (Nat.ne_of_gt (hbelow k))
        | zero =>
          have hlogical : m'.exex.logical = stateAfter σ₀ (b :: L.blocks) :=
            hnode.anchored.logical
          have hvalue : m'.exex.db.value = db.value := by
            rw [← logical_of_clean hdirty, hlogical]
            exact hdb.symm
          exact (hlast.trans hroot).trans (computeRoot_of_value hvalue)
      | false =>
        rw [if_neg (by rw [hf]; decide)] at hki
        have hload : m.exex.keyIndex.loadHead = some head := hki.symm.trans hload
        cases k with
        | zero => exact absurd hk (hnumber b rfl hf head hload)
        | succ k => exact h.root head hload k hk db hdb
    · intro key hpath
      have hold : m.exex.keyIndex.bit key = false := h.headKey key hpath
      change m'.exex.keyIndex.bit key = false
      rw [Bool.eq_false_iff, ne_eq, bit_commitEntries h.anchored.pending hrun key, not_or]
      refine ⟨by rw [hold]; decide, ?_⟩
      rintro ⟨e, he, rfl⟩
      exact hpaths e he hpath
  | @revert m m' L hi old hold hrun =>
    have hki : m'.exex.keyIndex = m.exex.keyIndex := (revert_ok U hrun).keyIndex
    refine ⟨hnode, ?_, ?_⟩
    · intro head hload k hk db hdb
      change head.blockNumber = (tipOf base ((L.dropBlocks _).blocks.drop k)).1 at hk
      change db.value = stateAfter σ₀ ((L.dropBlocks _).blocks.drop k) at hdb
      rw [L.blocks_dropBlocks, List.drop_drop] at hk hdb
      change m'.exex.keyIndex.loadHead = some head at hload
      rw [hki] at hload
      exact h.root head hload _ hk db hdb
    · intro key hpath
      change m'.exex.keyIndex.bit key = false
      rw [hki]
      exact h.headKey key hpath

/-! ### What a client can check -/

/-- What a client can check between two operations: the records of a state file that
`export_state` replies with have the root of the reply and the one that `get_root` serves, for
the block of the header; and those of an export from MDBX have the root of its result. -/
structure Verifiable (U : Ubt) (t : Tracked) : Prop where
  served : ∀ (rpc : UbtRpc) params files opens res env,
    rpc.exportState params (.over t.machine.exex.toDisk files opens) = .ok res env →
      (∀ head, t.machine.exex.keyIndex.loadHead = some head →
        FitsU64 (params.chainId.getD rpc.defaultChainId) (head.blockNumber, head.blockHash)
          (stateEntries t.machine.exex.toDisk).length) →
      ∃ header entries r, fetch env.files params.outputPath res.stateFile = some (header, entries) ∧
        getRoot t.machine.exex.toDisk = .ok r ∧
        (header.blockNumber, header.blockHash) = (r.blockNumber, r.blockHash) ∧
        res.root = r.root ∧ rootOfRecords U entries = r.root
  stored : ∀ chainId dir res env,
    exportFullStateFromMdbx chainId (.over t.machine.exex.toDisk dir) = .ok res env →
      ∃ entries, env.dir .state =
          some (stateBytes chainId (res.blockNumber, res.blockHash) entries) ∧
        rootOfRecords U entries = res.root

theorem Rooted.verifiable {t : Tracked} (h : Rooted U own limit base σ₀ R t) : Verifiable U t where
  served := by
    intro rpc params files opens res env hok hfits
    obtain ⟨-, hgate, e, hexport, rfl⟩ := UbtRpc.exportState_ok_iff.mp hok
    obtain ⟨head, hload, htip, hnomt, -⟩ := h.gated.gateSound _ _ hgate
    obtain ⟨head', hload', -, -, rfl, rfl⟩ := exportFromNomt_ok_iff.mp hexport
    obtain rfl := Option.some.inj (hload.symm.trans hload')
    -- the state is that of the stores after a drain
    let db : UbtDatabase :=
      { t.machine.exex.db with stems := drainedStems t.machine.exex }
    have hvalue : db.value = t.machine.exex.logical := value_drained rfl
    have hstate : db.value = stateAfter σ₀ t.ledger.blocks := hvalue.trans h.anchored.logical
    have hroot : head.root = computeRoot U db :=
      h.root head hload 0 (congrArg Prod.fst htip) db hstate
    have hrecords : rootOfRecords U (stateEntries t.machine.exex.toDisk) = computeRoot U db := by
      refine rootOfRecords_nomt ?_ ?_ h.headKey
      · intro key hkey
        rw [hstate]
        exact hnomt.value key hkey
      · intro key hne
        rw [hvalue] at hne
        exact h.sound.held.overlay key hne
    have hserved : getRoot t.machine.exex.toDisk =
        .ok ⟨head.blockNumber, head.blockHash, head.root, head.stemCount⟩ := by
      unfold getRoot
      rw [hload]
    exact ⟨_, _, _, fetch_eq (dir_putExport_state (by simp)) (hfits head hload), hserved, rfl, rfl,
      hrecords.trans hroot.symm⟩
  stored := by
    intro chainId dir res env hok
    obtain ⟨head, hload, -, rfl, rfl⟩ := exportFromMdbx_ok_iff.mp hok
    refine ⟨_, dir_putExport_state (by simp), ?_⟩
    exact h.sound.held.toExportable.rootOfRecords.trans (h.anchored.root head hload).symm

/-! ### Runs -/

/-- Stores that a node may start over, so that its exports can be checked: the head of the key
index has the root of the stored stems, if it is at the block of the MDBX head. -/
structure Checkable (U : Ubt) (own : Stem → Address) (disk : Disk) : Prop extends
    Startable own disk where
  indexRoot : ∀ head, disk.keyIndex.loadHead = some head →
    head.blockNumber = (headTip disk.db).1 → head.root = computeRoot U disk.db
  headKey : ∀ key : TreeKey, key.path = nomtHeadKey → disk.keyIndex.bit key = false

theorem checkable_empty (U : Ubt) (own : Stem → Address) : Checkable U own .empty where
  toStartable := startable_empty own
  indexRoot head h := by cases h
  headKey key _ := by simp [Disk.empty, KeyIndex.bit, KeyIndex.empty, KeyIndex.rowBit]

theorem Rooted.start {config : UbtConfig} {disk : Disk} {s : UbtExEx}
    (hnew : UbtExEx.new U config disk = .ok s) (h : Checkable U own disk) :
    Rooted U own limit (headTip disk.db) disk.db.value config.deltaRetention
      (.start ⟨s, []⟩) := by
  have hindex := keyIndex_of_new hnew
  refine ⟨.start hnew h.toStartable, ?_, ?_⟩
  · intro head hload k hk db hdb
    change s.keyIndex.loadHead = some head at hload
    rw [hindex] at hload
    have hnil : (Tracked.start ⟨s, []⟩).ledger.blocks.drop k = [] := List.drop_nil
    rw [hnil] at hk hdb
    rw [h.indexRoot head hload hk]
    exact computeRoot_of_value hdb.symm
  · intro key hpath
    change s.keyIndex.bit key = false
    rw [hindex]
    exact h.headKey key hpath

/-- **What is exported has the root that is served**, in every state of a run of single-block
commits and reverts from stores in sync, if no commit without a flush comes back to the number
of the head of the key index and no revert goes back further than NOMT's log. -/
theorem exports_verify {config : UbtConfig} {disk : Disk} {s : UbtExEx}
    {h : List (Tracked × Event)} {t : Tracked} (hnew : UbtExEx.new U config disk = .ok s)
    (hdisk : Checkable U own disk)
    (hrun : Run (LoggedStep U limit (headTip disk.db)) (.start ⟨s, []⟩) h t)
    (hkept : ∀ p ∈ h, RootKept own limit p.1 p.2) :
    Verifiable U t ∧ ∀ p ∈ h, Verifiable U p.1 := by
  obtain ⟨hlast, hall⟩ := hrun.invariant (Rooted.start hnew hdisk)
    (fun _ _ _ hi hcond hstep => hi.step hcond hstep) hkept
  exact ⟨hlast.verifiable, fun p hp => (hall p hp).verifiable⟩

/-! ### A flushed block that is replaced -/

/-- After two flushed blocks, when NOMT can undo one commit only. -/
def rootedSecond : Tracked := secondCommitted.limitLog (some 1)

/-- After the second of them is reverted. -/
def rootedReverted : Tracked := rootedSecond.afterRevert sampleUbt secondChain

/-- After its sibling is committed. -/
def rootedReplaced : Tracked :=
  rootedReverted.afterCommit sampleUbt (slotBlock block2' 3) [slotEntry 3]

theorem rootedReplaced_run : Run (LoggedStep sampleUbt (some 1) (0, 0)) (.start (.fresh ⟨1, 10⟩))
    [(rootedReverted, .commit [slotBlock block2' 3] [slotEntry 3]),
      (rootedSecond, .revert secondChain),
      (staleCommitted, .commit [⟨block2, [(slotKey 7 1, 2)]⟩] [slotEntry 2]),
      (.start (.fresh ⟨1, 10⟩), .commit [⟨block1, [(slotKey 7 1, 1)]⟩] [slotEntry 1])]
    rootedReplaced := by
  have hreverted : LoggedStep sampleUbt (some 1) (0, 0) rootedSecond (.revert secondChain)
      rootedReverted := by
    refine .of_short (Tracked.afterRevert_step rfl) ?_
    rintro l ⟨⟩
    decide +kernel
  have hreplaced : LoggedStep sampleUbt (some 1) (0, 0) rootedReverted
      (.commit [slotBlock block2' 3] [slotEntry 3]) rootedReplaced := by
    refine .of_short (Tracked.afterCommit_step ⟨rfl, rfl, trivial⟩ (fun _ => rfl) ?_) ?_
    · decide +kernel
    · rintro l ⟨⟩
      decide +kernel
  -- NOMT forgets the first commit when the second is made
  have hsecond : LoggedStep sampleUbt (some 1) (0, 0) staleCommitted
      (.commit [⟨block2, [(slotKey 7 1, 2)]⟩] [slotEntry 2]) rootedSecond :=
    ⟨secondCommitted, secondCommitted_step, rfl⟩
  have hfirst := staleCommitted_logged (Nat.le_refl 1)
  exact .snoc (.snoc (.snoc (.snoc .nil hfirst) hsecond) hreverted) hreplaced

/-- A state file of the sibling, with the root that `get_root` serves; after the revert the
gate lets no export through. -/
theorem exports_verify_replaced : Verifiable sampleUbt rootedReplaced ∧
    (feedRpc.exportState ⟨"out", none⟩
      (.over rootedReplaced.machine.exex.toDisk (fun _ _ => none) unlocked)).isOk = true ∧
    (feedRpc.exportState ⟨"out", none⟩
      (.over rootedReverted.machine.exex.toDisk (fun _ _ => none) unlocked)).isOk = false := by
  have hpaths : ∀ value, ∀ e ∈ [slotEntry value], e.key.path ≠ nomtHeadKey := by
    intro value e he
    obtain rfl := List.mem_singleton.mp he
    change (slotKey 7 1).path ≠ nomtHeadKey
    decide +kernel
  have hrow : RowsFound rootedSecond (.revert secondChain) := by
    refine ⟨?_, fun b hb => ?_, trivial⟩
    · decide +kernel
    · cases hb
  have hlog : LogHolds (some 1) rootedSecond (.revert secondChain) := by
    intro _
    change 1 ≤ rootedSecond.machine.exex.nomt.past.length
    decide +kernel
  have hdisk : Checkable sampleUbt (fun _ => 7) .empty := checkable_empty sampleUbt _
  refine ⟨(exports_verify (UbtExEx.new_empty sampleUbt ⟨1, 10⟩) hdisk rootedReplaced_run ?_).1,
    ?_, ?_⟩
  · refine List.forall_mem_cons.mpr ⟨.of_interval ?_ (slotEntry_owned 3) (hpaths 3),
      List.forall_mem_cons.mpr ⟨⟨hrow, hlog⟩,
        List.forall_mem_cons.mpr ⟨.of_interval ?_ (slotEntry_owned 2) (hpaths 2),
          List.forall_mem_cons.mpr ⟨.of_interval ?_ (slotEntry_owned 1) (hpaths 1), by simp⟩⟩⟩⟩
    · decide +kernel
    · decide +kernel
    · decide +kernel
  · decide +kernel
  · decide +kernel

end UbtExex
