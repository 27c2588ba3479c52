import UbtExex.Journal

/-!
# What a commit does

A commit either records its block — NOMT, the overlay, the addresses, the key index
and the deltas — or stops at an address mismatch.  If it records the block it may
flush, which always succeeds.

## Main definitions

* `Recorded`, `Committed` — the effect of a successful commit, up to its flush and with it.

## Main results

* `Recorded.committed_kept`, `Recorded.committed_flushed` — a commit without and with a flush.
* `commit_ok` — **a successful commit applies its entries and stores their undo log
  under its block number, whether or not it flushes.**
* `commit_journal` — the durable writes of a commit, successful or not.
* `commit_accepts` — a commit whose stems are known succeeds.
-/

open Std

namespace UbtExex

/-! ### Recording the block -/

theorem tryPersist_ok {α : Type} {step : DurableStep} {f : Disk → Except UbtError (Disk × α)}
    {m : Machine} {d : Disk} {a : α} (h : f m.exex.toDisk = .ok (d, a)) :
    tryPersist step f m = .ok a (m.persist step fun _ => d) := by
  unfold tryPersist
  rw [h]

theorem tryPersist_error {α : Type} {step : DurableStep}
    {f : Disk → Except UbtError (Disk × α)} {m : Machine} {e : UbtError}
    (h : f m.exex.toDisk = .error e) : tryPersist step f m = .error e m := by
  unfold tryPersist
  rw [h]

/-- Saving addresses changes nothing else. -/
theorem saveStemAddresses_spec (news : List (Stem × Address)) (m : Machine) :
    (∃ e, m.exex.db.batchSaveStemAddresses news = .error e ∧
        saveStemAddresses news m = .error e m) ∨
      ∃ db m', m.exex.db.batchSaveStemAddresses news = .ok db ∧
        saveStemAddresses news m = .ok () m' ∧ m'.exex = { m.exex with db := db } ∧
        m.Extends (fun w => w.step = .batchSaveStemAddresses ∧ w.after = m'.exex.toDisk) m' := by
  unfold saveStemAddresses
  cases news with
  | nil => exact Or.inr ⟨m.exex.db, m, rfl, rfl, rfl, .refl m⟩
  | cons a l =>
    simp only [List.isEmpty_cons, Bool.false_eq_true, ↓reduceIte]
    cases hsave : m.exex.db.batchSaveStemAddresses (a :: l) with
    | error e =>
      refine Or.inl ⟨e, rfl, tryPersist_error ?_⟩
      rw [hsave]
      rfl
    | ok db =>
      refine Or.inr ⟨db, m.persist .batchSaveStemAddresses
        fun _ => { m.exex.toDisk with db := db }, rfl, tryPersist_ok ?_, rfl, .persist ⟨rfl, rfl⟩⟩
      rw [hsave]
      rfl

/-- The updates the key index is given for a list of entries. -/
def indexUpdates (entries : List PendingEntry) : List (Stem × UInt8 × Address) :=
  entries.map fun e => (e.key.stem, e.key.subindex, e.address)

/-- Updating the key index changes nothing else. -/
theorem indexEntries_cases (entries : List PendingEntry) (m : Machine) :
    (∃ e, m.exex.keyIndex.applyUpdates (indexUpdates entries) = .error e ∧
        indexEntries entries m = .error e m) ∨
      ∃ keyIndex n m', m.exex.keyIndex.applyUpdates (indexUpdates entries) = .ok (keyIndex, n) ∧
        indexEntries entries m = .ok n m' ∧ m'.exex = { m.exex with keyIndex := keyIndex } ∧
        m.Extends (fun w => w.step = .applyUpdates ∧ w.after = m'.exex.toDisk) m' := by
  unfold indexEntries
  cases hki : m.exex.keyIndex.applyUpdates (indexUpdates entries) with
  | error e =>
    refine Or.inl ⟨e, rfl, tryPersist_error ?_⟩
    rw [← indexUpdates, hki]
    rfl
  | ok r =>
    refine Or.inr ⟨r.1, r.2, m.persist .applyUpdates
      fun _ => { m.exex.toDisk with keyIndex := r.1 }, rfl, tryPersist_ok ?_, rfl,
      .persist ⟨rfl, rfl⟩⟩
    rw [← indexUpdates, hki]
    rfl

/-- The table after the deltas of a block are saved, unless it has none. -/
def savedDeltas (t : ExtTreeMap ℕ (List Delta)) (n : ℕ) (deltas : List Delta) :
    ExtTreeMap ℕ (List Delta) :=
  if deltas.isEmpty then t else t.insert n deltas

theorem saveDeltas_spec (n : ℕ) (deltas : List Delta) (m : Machine) :
    ∃ m', saveDeltas n deltas m = .ok () m' ∧
      m'.exex = { m.exex with
        db := { m.exex.db with blockDeltas := savedDeltas m.exex.db.blockDeltas n deltas } } ∧
      m.Extends (fun w => w.step = .saveBlockDeltas ∧ w.after = m'.exex.toDisk) m' := by
  unfold saveDeltas
  cases deltas with
  | nil => exact ⟨m, rfl, rfl, .refl m⟩
  | cons d ds => exact ⟨m.persist .saveBlockDeltas _, rfl, rfl, .persist ⟨rfl, rfl⟩⟩

/-- The loop's result for the pending entries. -/
def pendingOverlay (s : UbtExEx) : Overlay := applyEntries s.db s.dirtyStems s.pendingEntries

/-- The extension after its block is recorded, with the tables of addresses, the key
index and the number of stems that were new. -/
def recorded (s : UbtExEx) (n : ℕ) (hash : B256) (db : UbtDatabase) (keyIndex : KeyIndex)
    (newStems : ℕ) : UbtExEx :=
  { s with
    db := { db with blockDeltas := savedDeltas db.blockDeltas n (pendingOverlay s).deltas }
    nomt := s.nomt.commitUpdates s.pendingEntries n
    keyIndex := keyIndex
    pendingEntries := []
    dirtyStems := (pendingOverlay s).dirtyStems
    stemCount := s.stemCount + newStems
    lastBlock := n
    lastHash := hash }

/-- A durable write that records a block: NOMT first, then the tables of addresses,
the key index and the deltas. -/
inductive Recording (s : UbtExEx) (n : ℕ) (w : DurableWrite) : Prop
  | nomt (hstep : w.step = .nomtCommit)
      (hafter : w.after = { s.toDisk with nomt := s.nomt.commitUpdates s.pendingEntries n })
  | addresses {db : UbtDatabase} (hstep : w.step = .batchSaveStemAddresses)
      (hdb : s.db.batchSaveStemAddresses (pendingOverlay s).newStemAddresses = .ok db)
      (hafter : w.after = ⟨db, s.nomt.commitUpdates s.pendingEntries n, s.keyIndex⟩)
  | index {db : UbtDatabase} {keyIndex : KeyIndex} {k : ℕ} (hstep : w.step = .applyUpdates)
      (hdb : s.db.batchSaveStemAddresses (pendingOverlay s).newStemAddresses = .ok db)
      (hindex : s.keyIndex.applyUpdates (indexUpdates s.pendingEntries) = .ok (keyIndex, k))
      (hafter : w.after = ⟨db, s.nomt.commitUpdates s.pendingEntries n, keyIndex⟩)
  | deltas {db : UbtDatabase} {keyIndex : KeyIndex} {k : ℕ} {b : B256}
      (hstep : w.step = .saveBlockDeltas)
      (hdb : s.db.batchSaveStemAddresses (pendingOverlay s).newStemAddresses = .ok db)
      (hindex : s.keyIndex.applyUpdates (indexUpdates s.pendingEntries) = .ok (keyIndex, k))
      (hafter : w.after = (recorded s n b db keyIndex k).toDisk)

/-- **Recording a block stops at an address mismatch, or changes the extension as
shown.** -/
theorem recordBlock_spec (n : ℕ) (hash : B256) (m : Machine) :
    (∃ e m', (m.exex.db.batchSaveStemAddresses (pendingOverlay m.exex).newStemAddresses = .error e ∨
          m.exex.keyIndex.applyUpdates (indexUpdates m.exex.pendingEntries) = .error e) ∧
        recordBlock n hash m = .error e m' ∧ m.Extends (Recording m.exex n) m') ∨
      ∃ db keyIndex k m',
        m.exex.db.batchSaveStemAddresses (pendingOverlay m.exex).newStemAddresses = .ok db ∧
        m.exex.keyIndex.applyUpdates (indexUpdates m.exex.pendingEntries) = .ok (keyIndex, k) ∧
        recordBlock n hash m = .ok () m' ∧ m'.exex = recorded m.exex n hash db keyIndex k ∧
        m.Extends (Recording m.exex n) m' := by
  set o := pendingOverlay m.exex with ho
  -- the machine when the loop over the entries is done
  let m₁ := ((m.update fun s => { s with pendingEntries := [] }).persist .nomtCommit fun d =>
    { d with nomt := d.nomt.commitUpdates m.exex.pendingEntries n }).update
      fun s => { s with dirtyStems := o.dirtyStems }
  have hrun : recordBlock n hash m = (saveStemAddresses o.newStemAddresses >>= fun _ =>
      indexEntries m.exex.pendingEntries >>= fun k =>
      update (fun s => { s with stemCount := s.stemCount + k }) >>= fun _ =>
      saveDeltas n o.deltas >>= fun _ =>
      update fun s => { s with lastBlock := n, lastHash := hash }) m₁ := rfl
  have h₁ : m.Extends (Recording m.exex n) m₁ := by
    refine ⟨[_], rfl, ?_⟩
    intro w hw
    obtain rfl := List.mem_singleton.mp hw
    exact .nomt rfl rfl
  rw [hrun]
  rcases saveStemAddresses_spec o.newStemAddresses m₁ with
    ⟨e, hdb, hs⟩ | ⟨db, m₂, hdb, hs, he₂, hj₂⟩
  -- refused addresses: NOMT is committed already
  · exact Or.inl ⟨e, m₁, Or.inl hdb, bind_apply_of_error hs, h₁⟩
  have hdb' : m.exex.db.batchSaveStemAddresses o.newStemAddresses = .ok db := hdb
  rw [bind_apply_of_ok hs]
  have h₂ : m.Extends (Recording m.exex n) m₂ := h₁.trans (hj₂.mono fun w hw => by
    obtain ⟨hstep, hafter⟩ := hw
    rw [he₂] at hafter
    exact .addresses hstep hdb' hafter)
  have hki₂ : m₂.exex.keyIndex = m.exex.keyIndex := by rw [he₂]; rfl
  rcases indexEntries_cases m.exex.pendingEntries m₂ with
    ⟨e, hki, hi⟩ | ⟨ki, k, m₃, hki, hi, he₃, hj₃⟩
  · rw [hki₂] at hki
    -- a refused batch: NOMT and the addresses are written already
    exact Or.inl ⟨e, m₂, Or.inr hki, bind_apply_of_error hi, h₂⟩
  rw [bind_apply_of_ok hi, update_bind_apply]
  rw [hki₂] at hki
  rw [he₂] at he₃
  have h₃ : m.Extends (Recording m.exex n) m₃ := h₂.trans (hj₃.mono fun w hw => by
    obtain ⟨hstep, hafter⟩ := hw
    rw [he₃] at hafter
    exact .index hstep hdb' hki hafter)
  obtain ⟨m₄, hd, he₄, hj₄⟩ :=
    saveDeltas_spec n o.deltas (m₃.update fun s => { s with stemCount := s.stemCount + k })
  rw [Machine.exex_update, he₃] at he₄
  have h₄ : m.Extends (Recording m.exex n) m₄ := (h₃.trans (.update _ _)).trans (hj₄.mono fun w hw => by
    obtain ⟨hstep, hafter⟩ := hw
    rw [he₄] at hafter
    exact .deltas (b := hash) hstep hdb' hki hafter)
  rw [bind_apply_of_ok hd, update_apply]
  refine Or.inr ⟨db, ki, k, _, hdb', hki, rfl, ?_, h₄.trans (.update _ _)⟩
  rw [Machine.exex_update, he₄]
  rfl

/-- As far as the checkpoint is concerned, a write that records a block shows the new
NOMT over the old stems and the old head. -/
theorem Recording.quiet {s : UbtExEx} {n : ℕ} {w : DurableWrite} (h : Recording s n w) :
    w.step ≠ .batchUpdateStems ∧
      Shows w.after (s.nomt.commitUpdates s.pendingEntries n) s.db.stems s.db.head := by
  cases h with
  | nomt hstep hafter =>
    rw [hstep, hafter]
    exact ⟨by decide, rfl, rfl, rfl⟩
  | addresses hstep hdb hafter =>
    rw [hstep, hafter, UbtDatabase.batchSaveStemAddresses_eq_ok hdb]
    exact ⟨by decide, rfl, rfl, rfl⟩
  | index hstep hdb hindex hafter =>
    rw [hstep, hafter, UbtDatabase.batchSaveStemAddresses_eq_ok hdb]
    exact ⟨by decide, rfl, rfl, rfl⟩
  | deltas hstep hdb hindex hafter =>
    rw [hstep, hafter, UbtDatabase.batchSaveStemAddresses_eq_ok hdb]
    exact ⟨by decide, rfl, rfl, rfl⟩

/-- Recording a block, as far as the checkpoint is concerned: every durable write shows
the new NOMT over the old checkpoint. -/
theorem recordBlock_cases (n : ℕ) (hash : B256) (m : Machine) :
    let o := pendingOverlay m.exex
    let nomt := m.exex.nomt.commitUpdates m.exex.pendingEntries n
    let quiet := fun w : DurableWrite =>
      w.step ≠ .batchUpdateStems ∧ Shows w.after nomt m.exex.db.stems m.exex.db.head
    (∃ e m', recordBlock n hash m = .error e m' ∧ m.Extends quiet m' ∧
        (o.newStemAddresses ≠ [] ∨ ∃ e,
          m.exex.keyIndex.applyUpdates (indexUpdates m.exex.pendingEntries) = .error e)) ∨
      ∃ addresses keyIndex k m', recordBlock n hash m = .ok () m' ∧ m.Extends quiet m' ∧
        m.exex.keyIndex.applyUpdates (indexUpdates m.exex.pendingEntries) = .ok (keyIndex, k) ∧
        m'.exex = { m.exex with
          db := { m.exex.db with
            stemAddresses := addresses
            blockDeltas := savedDeltas m.exex.db.blockDeltas n o.deltas }
          nomt := nomt
          keyIndex := keyIndex
          pendingEntries := []
          dirtyStems := o.dirtyStems
          stemCount := m.exex.stemCount + k
          lastBlock := n
          lastHash := hash } := by
  intro o nomt quiet
  rcases recordBlock_spec n hash m with
    ⟨e, m', herr, hrun, hj⟩ | ⟨db, ki, k, m', hdb, hki, hrun, he, hj⟩
  · refine Or.inl ⟨e, m', hrun, hj.mono fun w hw => hw.quiet, ?_⟩
    refine herr.imp (fun hdb hnil => ?_) fun hki => ⟨e, hki⟩
    rw [show (pendingOverlay m.exex).newStemAddresses = [] from hnil] at hdb
    cases hdb
  · refine Or.inr ⟨db.stemAddresses, ki, k, m', hrun, hj.mono fun w hw => hw.quiet, hki, ?_⟩
    rw [he, UbtDatabase.batchSaveStemAddresses_eq_ok hdb]
    rfl

/-! ### Flushing -/

/-- The tables after the deltas that fell out of the retention window are pruned. -/
def retainDeltas (db : UbtDatabase) (n retention : ℕ) : UbtDatabase :=
  if n > retention then db.pruneDeltasBefore (n - retention) else db

theorem loadBlockDeltas_retainDeltas (db : UbtDatabase) (n retention k : ℕ) :
    (retainDeltas db n retention).loadBlockDeltas k =
      if k < n - retention then [] else db.loadBlockDeltas k := by
  unfold retainDeltas
  split
  · rw [UbtDatabase.loadBlockDeltas_prune]
  · rw [if_neg (by omega)]

@[simp] theorem stems_retainDeltas (db : UbtDatabase) (n retention : ℕ) :
    (retainDeltas db n retention).stems = db.stems := by
  unfold retainDeltas
  split <;> rfl

@[simp] theorem head_retainDeltas (db : UbtDatabase) (n retention : ℕ) :
    (retainDeltas db n retention).head = db.head := by
  unfold retainDeltas
  split <;> rfl

theorem pruneDeltas_spec (n : ℕ) (m : Machine) :
    ∃ m', pruneDeltas n m = .ok () m' ∧
      m'.exex = { m.exex with db := retainDeltas m.exex.db n m.exex.deltaRetention } ∧
      m.Extends (fun w => w.step = .pruneDeltasBefore ∧ w.after = m'.exex.toDisk) m' := by
  unfold pruneDeltas retainDeltas
  rw [get_bind_apply]
  by_cases h : n > m.exex.deltaRetention
  · refine ⟨m.persist .pruneDeltasBefore fun d =>
      { d with db := d.db.pruneDeltasBefore (n - m.exex.deltaRetention) }, ?_, ?_,
      .persist ⟨rfl, rfl⟩⟩
    · simp only [h, ↓reduceIte]
      rfl
    · simp only [h, ↓reduceIte]
      rfl
  · refine ⟨m, ?_, ?_, .refl m⟩
    · simp only [h, ↓reduceIte]
      rfl
    · simp only [h, ↓reduceIte]

variable (U : Ubt)

/-- **A flush always succeeds**, and changes the extension as shown. -/
theorem flush_spec (n : ℕ) (hash : B256) (m : Machine) :
    ∃ root m', flush U n hash m = .ok root m' ∧ root = computeRoot U m'.exex.db ∧
      m'.exex = { m.exex with
        db := retainDeltas ((m.exex.db.batchUpdateStems m.exex.dirtyStems.toList).saveHead
          ⟨n, hash, root, m.exex.stemCount⟩) n m.exex.deltaRetention
        keyIndex := m.exex.keyIndex.saveHead ⟨n, hash, root, m.exex.stemCount⟩
        dirtyStems := ∅
        lastPersistedBlock := n
        lastPersistedHash := hash
        lastRoot := root } ∧
      m.Extends (Checkpoint U m.exex.nomt m.exex.db.stems (drainedStems m.exex) m.exex.db.head
        n hash) m' := by
  obtain ⟨m₁, hrun₁, he₁, hj₁⟩ := flushDirty_spec m
  have hstems₁ : m₁.exex.db.stems = drainedStems m.exex := by rw [he₁]; rfl
  set root := computeRoot U m₁.exex.db with hroot
  set hd : UbtHead := ⟨n, hash, root, m.exex.stemCount⟩ with hhd
  -- the machine when the heads are saved
  let m₂ := ((m₁.persist .saveHead fun d => { d with db := d.db.saveHead hd }).persist
    .keyIndexSaveHead fun d =>
      { d with keyIndex := d.keyIndex.saveHead ⟨n, hash, root, m.exex.stemCount⟩ }).update
    fun s => { s with lastPersistedBlock := n, lastPersistedHash := hash, lastRoot := root }
  obtain ⟨m₃, hrun₃, he₃, hj₃⟩ := pruneDeltas_spec n m₂
  have hcount : m₁.exex.stemCount = m.exex.stemCount := by rw [he₁]
  have hrun : flush U n hash m = (pruneDeltas n >>= fun _ => pure root) m₂ := by
    unfold flush
    rw [bind_apply_of_ok hrun₁, get_bind_apply]
    simp only [persist_bind_apply, update_bind_apply, hcount]
    rfl
  have he : m₃.exex = { m.exex with
      db := retainDeltas ((m.exex.db.batchUpdateStems m.exex.dirtyStems.toList).saveHead hd) n
        m.exex.deltaRetention
      keyIndex := m.exex.keyIndex.saveHead ⟨n, hash, root, m.exex.stemCount⟩
      dirtyStems := ∅
      lastPersistedBlock := n
      lastPersistedHash := hash
      lastRoot := root } := by
    rw [he₃]
    simp only [m₂, Machine.exex_update, Machine.exex_persist, he₁]
  have hstems₃ : m₃.exex.db.stems = drainedStems m.exex := by rw [he, stems_retainDeltas]; rfl
  have hhead₃ : m₃.exex.db.head = some hd := by rw [he, head_retainDeltas]; rfl
  have hroot₃ : root = computeRoot U m₃.exex.db :=
    computeRoot_congr U (hstems₁.trans hstems₃.symm)
  refine ⟨root, m₃, by rw [hrun, bind_apply_of_ok hrun₃]; rfl, hroot₃, he, ?_⟩
  have h₁ := checkpoint_flushDirty U n hash he₁ hj₁
  have h₂ : m₁.Extends (Checkpoint U m.exex.nomt m.exex.db.stems (drainedStems m.exex)
      m.exex.db.head n hash) m₂ := by
    refine ⟨[_, _], rfl, ?_⟩
    intro w hw
    simp only [List.mem_cons, List.not_mem_nil, or_false] at hw
    have hnomt₁ : m₁.exex.nomt = m.exex.nomt := by rw [he₁]
    rcases hw with rfl | rfl
    · exact .head (by simp) hd ⟨hnomt₁, hstems₁, rfl⟩ rfl rfl (computeRoot_congr U rfl)
    · exact .head (by simp) hd ⟨hnomt₁, hstems₁, rfl⟩ rfl rfl (computeRoot_congr U rfl)
  refine (h₁.trans h₂).trans (hj₃.mono fun w hw => ?_)
  obtain ⟨hstep, hafter⟩ := hw
  refine .head (by rw [hstep]; decide) hd ?_ rfl rfl (by rw [hafter]; exact hroot₃)
  rw [hafter]
  exact ⟨by rw [he], hstems₃, hhead₃⟩

/-! ### Commit -/

/-- The writes of the pending entries. -/
def UbtExEx.pendingWrites (s : UbtExEx) : List (TreeKey × B256) :=
  s.pendingEntries.map PendingEntry.write

/-- The undo log of the pending entries: what a commit of them finds to differ. -/
def UbtExEx.pendingUndo (s : UbtExEx) : List Delta := undoDeltas s.logical s.pendingWrites

/-- The stems after a commit of the pending entries that flushes. -/
def recordedStems (s : UbtExEx) : ExtTreeMap Stem StemNode :=
  Tables.insertAll s.db.stems (pendingOverlay s).dirtyStems.toList

theorem deltas_pendingOverlay (s : UbtExEx) : (pendingOverlay s).deltas = s.pendingUndo := by
  unfold pendingOverlay UbtExEx.pendingUndo
  rw [deltas_applyEntries, logical_eq]
  rfl

theorem overlayValue_pendingOverlay (s : UbtExEx) :
    overlayValue s.db (pendingOverlay s).dirtyStems = Writes.applyAll s.logical s.pendingWrites := by
  unfold pendingOverlay
  rw [overlayValue_applyEntries, logical_eq]
  rfl

/-- The flushed stems hold the state after the pending entries. -/
theorem value_recordedStems {s : UbtExEx} {db : UbtDatabase} (h : db.stems = recordedStems s) :
    db.value = Writes.applyAll s.logical s.pendingWrites := by
  have hflush := overlayValue_flush s.db (pendingOverlay s).dirtyStems
  rw [overlayValue_pendingOverlay, ← overlayValue_empty] at hflush
  rw [← hflush, ← overlayValue_empty]
  exact overlayValue_congr h ∅

/-- The effect of a successful commit of block `n`. -/
structure Committed (n : ℕ) (hash : B256) (m m' : Machine) (root : B256) : Prop where
  pendingEntries : m'.exex.pendingEntries = []
  lastBlock : m'.exex.lastBlock = n
  lastHash : m'.exex.lastHash = hash
  flushInterval : m'.exex.flushInterval = m.exex.flushInterval
  deltaRetention : m'.exex.deltaRetention = m.exex.deltaRetention
  nomt : m'.exex.nomt = m.exex.nomt.commitUpdates m.exex.pendingEntries n
  logical : m'.exex.logical = Writes.applyAll m.exex.logical m.exex.pendingWrites
  /-- The undo log is stored under `n`, unless it is empty; a flush prunes. -/
  rows : ∀ k, m'.exex.db.loadBlockDeltas k =
    if m.exex.shouldFlush n = true ∧ k < n - m.exex.deltaRetention then []
    else if n = k ∧ m.exex.pendingUndo ≠ [] then m.exex.pendingUndo
    else m.exex.db.loadBlockDeltas k
  address_entry : ∀ e ∈ m.exex.pendingEntries,
    m'.exex.keyIndex.address e.key.stem = some e.address
  address_stays : ∀ stem a, m.exex.keyIndex.address stem = some a →
    m'.exex.keyIndex.address stem = some a
  known_entry : ∀ e ∈ m.exex.pendingEntries, Known m'.exex.db m'.exex.dirtyStems e.key.stem
  known_stays : ∀ stem, Known m.exex.db m.exex.dirtyStems stem →
    Known m'.exex.db m'.exex.dirtyStems stem
  flushed : m.exex.shouldFlush n = true →
    m'.exex.dirtyStems = ∅ ∧ m'.exex.lastPersistedBlock = n ∧ m'.exex.lastPersistedHash = hash ∧
      m'.exex.lastRoot = root ∧ root = computeRoot U m'.exex.db ∧
      ∃ stemCount, m'.exex.db.head = some ⟨n, hash, root, stemCount⟩
  kept : m.exex.shouldFlush n = false →
    m'.exex.lastPersistedBlock = m.exex.lastPersistedBlock ∧
      m'.exex.lastPersistedHash = m.exex.lastPersistedHash ∧
      m'.exex.lastRoot = m.exex.lastRoot ∧ root = m.exex.lastRoot ∧
      m'.exex.db.stems = m.exex.db.stems ∧ m'.exex.db.head = m.exex.db.head

/-- The row of a block after its commit: its undo log, or what it was if that is empty. -/
theorem Committed.row {n : ℕ} {hash : B256} {m m' : Machine} {root : B256}
    (h : Committed U n hash m m' root) : m'.exex.db.loadBlockDeltas n =
      if m.exex.pendingUndo = [] then m.exex.db.loadBlockDeltas n else m.exex.pendingUndo := by
  have hn : ¬(m.exex.shouldFlush n = true ∧ n < n - m.exex.deltaRetention) := by omega
  rw [h.rows, if_neg hn]
  by_cases hnil : m.exex.pendingUndo = []
  · rw [if_neg fun hc => hc.2 hnil, if_pos hnil]
  · rw [if_pos ⟨rfl, hnil⟩, if_neg hnil]

theorem loadBlockDeltas_savedDeltas {db : UbtDatabase} {n : ℕ} {deltas : List Delta} {k : ℕ}
    {stems : ExtTreeMap Stem StemNode} {addresses : ExtTreeMap Stem Address}
    {head : Option UbtHead} :
    (⟨stems, addresses, head, savedDeltas db.blockDeltas n deltas⟩ : UbtDatabase).loadBlockDeltas k =
      if n = k ∧ deltas ≠ [] then deltas else db.loadBlockDeltas k := by
  unfold savedDeltas UbtDatabase.loadBlockDeltas
  cases deltas with
  | nil => simp
  | cons d ds =>
    simp only [List.isEmpty_cons, Bool.false_eq_true, ↓reduceIte, Tables.getElem?_insert]
    by_cases h : n = k
    · simp [h]
    · simp [h]

/-- The effect of recording block `n`: a commit up to its flush. -/
structure Recorded (n : ℕ) (hash : B256) (m m' : Machine) : Prop where
  pendingEntries : m'.exex.pendingEntries = []
  lastBlock : m'.exex.lastBlock = n
  lastHash : m'.exex.lastHash = hash
  flushInterval : m'.exex.flushInterval = m.exex.flushInterval
  deltaRetention : m'.exex.deltaRetention = m.exex.deltaRetention
  nomt : m'.exex.nomt = m.exex.nomt.commitUpdates m.exex.pendingEntries n
  logical : m'.exex.logical = Writes.applyAll m.exex.logical m.exex.pendingWrites
  rows : ∀ k, m'.exex.db.loadBlockDeltas k =
    if n = k ∧ m.exex.pendingUndo ≠ [] then m.exex.pendingUndo else m.exex.db.loadBlockDeltas k
  address_entry : ∀ e ∈ m.exex.pendingEntries,
    m'.exex.keyIndex.address e.key.stem = some e.address
  address_stays : ∀ stem a, m.exex.keyIndex.address stem = some a →
    m'.exex.keyIndex.address stem = some a
  known : ∀ stem, Known m'.exex.db m'.exex.dirtyStems stem ↔
    (∃ e ∈ m.exex.pendingEntries, e.key.stem = stem) ∨ Known m.exex.db m.exex.dirtyStems stem
  checkpoint : m'.exex.lastPersistedBlock = m.exex.lastPersistedBlock ∧
    m'.exex.lastPersistedHash = m.exex.lastPersistedHash ∧ m'.exex.lastRoot = m.exex.lastRoot ∧
    m'.exex.db.stems = m.exex.db.stems ∧ m'.exex.db.head = m.exex.db.head

theorem recordBlock_ok {n : ℕ} {hash : B256} {m m' : Machine}
    (h : recordBlock n hash m = .ok () m') : Recorded n hash m m' := by
  rcases recordBlock_cases n hash m with ⟨e, m₁, hrec, -, -⟩ | ⟨addrs, ki, k, m₁, hrec, -, hki, he⟩
  · rw [hrec] at h
    cases h
  obtain rfl : m₁ = m' := by
    injection hrec.symm.trans h
  obtain ⟨hstay, hentry, -⟩ := KeyIndex.applyUpdates_sound hki
  exact {
    pendingEntries := by rw [he]
    lastBlock := by rw [he]
    lastHash := by rw [he]
    flushInterval := by rw [he]
    deltaRetention := by rw [he]
    nomt := by rw [he]
    logical := by
      rw [logical_eq, ← overlayValue_pendingOverlay, he]
      exact overlayValue_congr rfl _
    rows := fun j => by
      rw [he, ← deltas_pendingOverlay]
      exact loadBlockDeltas_savedDeltas
    address_entry := fun e hmem => by
      rw [he]
      exact hentry (e.key.stem, e.key.subindex, e.address) (List.mem_map_of_mem hmem)
    address_stays := by
      rw [he]
      exact hstay
    known := fun stem => by
      rw [← known_foldl_applyEntry (o := ⟨m.exex.dirtyStems, [], []⟩), he]
      exact Iff.rfl
    checkpoint := by
      rw [he]
      exact ⟨rfl, rfl, rfl, rfl, rfl⟩ }

section Branches

variable {U : Ubt} {n : ℕ} {hash : B256} {m m₁ m' : Machine} {root : B256}

/-- What is decided before the block is recorded and what is decided after it is the same. -/
theorem Recorded.shouldFlush (h : Recorded n hash m m₁) (k : ℕ) :
    m₁.exex.shouldFlush k = m.exex.shouldFlush k := by
  unfold UbtExEx.shouldFlush
  rw [h.flushInterval, h.checkpoint.1]

/-- A commit that does not flush. -/
theorem Recorded.committed_kept (h : Recorded n hash m m₁) (hf : m.exex.shouldFlush n = false) :
    Committed U n hash m m₁ m₁.exex.lastRoot where
  pendingEntries := h.pendingEntries
  lastBlock := h.lastBlock
  lastHash := h.lastHash
  flushInterval := h.flushInterval
  deltaRetention := h.deltaRetention
  nomt := h.nomt
  logical := h.logical
  rows k := by
    have hkeep : ¬(m.exex.shouldFlush n = true ∧ k < n - m.exex.deltaRetention) := by
      rw [hf]
      exact fun hk => nomatch hk.1
    rw [h.rows, if_neg hkeep]
  address_entry := h.address_entry
  address_stays := h.address_stays
  known_entry e he := (h.known _).mpr (Or.inl ⟨e, he, rfl⟩)
  known_stays stem hs := (h.known _).mpr (Or.inr hs)
  flushed ht := absurd (hf.symm.trans ht) (by decide)
  kept _ := by
    obtain ⟨hblock, hhash, hroot, hstems, hhead⟩ := h.checkpoint
    exact ⟨hblock, hhash, hroot, hroot, hstems, hhead⟩

/-- A commit that flushes. -/
theorem Recorded.committed_flushed (h : Recorded n hash m m₁) (hf : m.exex.shouldFlush n = true)
    (hrun : flush U n hash m₁ = .ok root m') : Committed U n hash m m' root := by
  obtain ⟨root', m₂, hrun', hroot, he, -⟩ := flush_spec U n hash m₁
  obtain ⟨rfl, rfl⟩ : root' = root ∧ m₂ = m' := by
    injection hrun'.symm.trans hrun with hroot hm
    exact ⟨hroot, hm⟩
  have hdirty : m₂.exex.dirtyStems = ∅ := by rw [he]
  have hstems : m₂.exex.db.stems = drainedStems m₁.exex := by rw [he, stems_retainDeltas]; rfl
  -- every stem is what it was before the flush
  have hoverlay : overlayStem m₂.exex.db m₂.exex.dirtyStems =
      overlayStem m₁.exex.db m₁.exex.dirtyStems := by
    funext stem
    rw [hdirty, overlayStem_drained hstems]
  have hknown : ∀ stem, Known m₁.exex.db m₁.exex.dirtyStems stem →
      Known m₂.exex.db m₂.exex.dirtyStems stem := by
    intro stem hs
    unfold Known
    rw [hoverlay]
    exact hs
  exact {
    pendingEntries := by rw [he]; exact h.pendingEntries
    lastBlock := by rw [he]; exact h.lastBlock
    lastHash := by rw [he]; exact h.lastHash
    flushInterval := by rw [he]; exact h.flushInterval
    deltaRetention := by rw [he]; exact h.deltaRetention
    nomt := by rw [he]; exact h.nomt
    logical := by
      rw [← h.logical, logical_eq, logical_eq]
      funext key
      unfold overlayValue
      rw [hoverlay]
    rows := fun k => by
      have hrow : m₂.exex.db.loadBlockDeltas k =
          if k < n - m.exex.deltaRetention then [] else m₁.exex.db.loadBlockDeltas k := by
        rw [he, loadBlockDeltas_retainDeltas, h.deltaRetention]
        rfl
      rw [hrow, h.rows]
      simp only [hf, true_and]
    address_entry := by rw [he]; exact h.address_entry
    address_stays := by rw [he]; exact h.address_stays
    known_entry := fun e hmem => hknown _ ((h.known _).mpr (Or.inl ⟨e, hmem, rfl⟩))
    known_stays := fun stem hs => hknown _ ((h.known _).mpr (Or.inr hs))
    flushed := fun _ => by
      refine ⟨hdirty, by rw [he], by rw [he], by rw [he], hroot, m₁.exex.stemCount, ?_⟩
      rw [he, head_retainDeltas]
      rfl
    kept := fun ht => absurd (hf.symm.trans ht) (by decide) }

end Branches

/-- **A successful commit applies its entries and stores their undo log under its
block number, whether or not it flushes.** -/
theorem commit_ok {n : ℕ} {hash : B256} {m m' : Machine} {root : B256}
    (h : commit U n hash m = .ok root m') : Committed U n hash m m' root := by
  obtain ⟨_, m₁, hrec, h⟩ := EStateM.bind_eq_ok.mp h
  have hrecorded := recordBlock_ok hrec
  rw [get_bind_apply, hrecorded.shouldFlush] at h
  cases hf : m.exex.shouldFlush n with
  | false =>
    rw [hf] at h
    cases h
    exact hrecorded.committed_kept hf
  | true =>
    rw [hf, if_pos rfl] at h
    exact hrecorded.committed_flushed hf h

/-- The durable writes of a commit, whether it succeeds or not. -/
theorem commit_journal (n : ℕ) (hash : B256) (m : Machine) :
    m.Extends (Checkpoint U (m.exex.nomt.commitUpdates m.exex.pendingEntries n) m.exex.db.stems
      (recordedStems m.exex) m.exex.db.head n hash) (commit U n hash m).state := by
  unfold commit
  rcases recordBlock_cases n hash m with ⟨e, m₁, hrec, hj, -⟩ | ⟨addrs, ki, k, m₁, hrec, hj, -, he₁⟩
  · rw [bind_apply_of_error hrec]
    exact hj.mono fun w hw => .quiet hw.1 hw.2
  rw [bind_apply_of_ok hrec, get_bind_apply]
  have h₁ := hj.mono (Q := Checkpoint U (m.exex.nomt.commitUpdates m.exex.pendingEntries n)
    m.exex.db.stems (recordedStems m.exex) m.exex.db.head n hash) fun w hw => .quiet hw.1 hw.2
  obtain ⟨root, m₂, hrun, -, -, hj₂⟩ := flush_spec U n hash m₁
  have hstems : drainedStems m₁.exex = recordedStems m.exex := by rw [he₁]; rfl
  rw [hstems, he₁] at hj₂
  split
  · rw [hrun]
    exact h₁.trans hj₂
  · exact h₁

/-- A commit succeeds when its stems are known, with their addresses in the key index. -/
theorem commit_accepts {n : ℕ} {hash : B256} {m : Machine}
    (hknown : ∀ e ∈ m.exex.pendingEntries, Known m.exex.db m.exex.dirtyStems e.key.stem)
    (haddr : ∀ e ∈ m.exex.pendingEntries, m.exex.keyIndex.address e.key.stem = some e.address) :
    ∃ root m', commit U n hash m = .ok root m' := by
  let own := fun stem => (m.exex.keyIndex.address stem).getD 0
  have hindex : ∀ stem a, m.exex.keyIndex.address stem = some a → a = own stem := by
    intro stem a ha
    simp only [own, ha, Option.getD_some]
  have hups : ∀ u ∈ indexUpdates m.exex.pendingEntries, u.2.2 = own u.1 := by
    intro u hu
    obtain ⟨e, he, rfl⟩ := List.mem_map.mp hu
    exact hindex _ _ (haddr e he)
  obtain ⟨ki, k, hki⟩ := KeyIndex.applyUpdates_accepts hindex hups
  unfold commit
  rcases recordBlock_cases n hash m with ⟨e, m₁, -, -, hbad⟩ | ⟨-, -, -, m₁, hrec, -, -, -⟩
  · rcases hbad with hnew | ⟨e, herr⟩
    · exact absurd (newStemAddresses_of_known hknown) hnew
    · rw [hki] at herr
      cases herr
  · rw [bind_apply_of_ok hrec, get_bind_apply]
    obtain ⟨root, m₂, hrun, -⟩ := flush_spec U n hash m₁
    split
    · exact ⟨root, m₂, hrun⟩
    · exact ⟨_, _, rfl⟩

end UbtExex
