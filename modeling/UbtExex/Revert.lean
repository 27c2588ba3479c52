import UbtExex.Commit

/-!
# What a revert and a shutdown do

A revert always succeeds.  It rolls NOMT back by the number of blocks, applies the
delta rows stored under their numbers from the highest block down, and moves the
head to the parent of the lowest; if one of the blocks was persisted, it writes the
checkpoint of that parent at once.

## Main definitions

* `storedUndo` — the writes that undo a list of blocks, as the delta table has them.
* `Unwound`, `Reverted` — the effect of a revert, up to its checkpoint and with it.

## Main results

* `Unwound.reverted_kept`, `Unwound.reverted_persisted` — a revert without and with a
  checkpoint.
* `revert_spec` — **a revert applies the stored deltas, and nothing else.**
* `shutdown_spec` — a shutdown writes the checkpoint of the last block.
-/

open Std

namespace UbtExex

/-! ### The loop over the blocks -/

/-- The writes that undo the blocks of a list, in the order the delta rows are applied. -/
def storedUndo (db : UbtDatabase) (numbers : List ℕ) : List (TreeKey × B256) :=
  numbers.flatMap fun n => (db.loadBlockDeltas n).reverse.map deltaWrite

/-- The effect of undoing the blocks of a list. -/
structure Undone (numbers : List ℕ) (m m' : Machine) : Prop where
  frame : ∃ dirty rows,
    m'.exex = { m.exex with dirtyStems := dirty, db := { m.exex.db with blockDeltas := rows } }
  logical : m'.exex.logical = Writes.applyAll m.exex.logical (storedUndo m.exex.db numbers)
  rows : ∀ k, m'.exex.db.loadBlockDeltas k =
    if k ∈ numbers ∧ m.exex.lastPersistedBlock < k then [] else m.exex.db.loadBlockDeltas k
  known : ∀ stem, Known m.exex.db m.exex.dirtyStems stem →
    Known m'.exex.db m'.exex.dirtyStems stem
  journal : m.Extends (fun w => w.step ≠ .batchUpdateStems ∧
    Shows w.after m.exex.nomt m.exex.db.stems m.exex.db.head) m'

theorem revertBlock_spec (n : ℕ) (m : Machine) :
    ∃ m', revertBlock n m = .ok () m' ∧ Undone [n] m m' := by
  -- the machine when the deltas are applied
  let m₁ := m.update fun s =>
    { s with dirtyStems := (m.exex.db.loadBlockDeltas n).reverse.foldl (applyDelta s.db) s.dirtyStems }
  have hlog : m₁.exex.logical = Writes.applyAll m.exex.logical (storedUndo m.exex.db [n]) := by
    rw [logical_eq, logical_eq]
    change overlayValue m.exex.db ((m.exex.db.loadBlockDeltas n).reverse.foldl
      (applyDelta m.exex.db) m.exex.dirtyStems) = _
    rw [overlayValue_applyDeltas]
    simp [storedUndo]
  have hknown : ∀ stem, Known m.exex.db m.exex.dirtyStems stem →
      Known m₁.exex.db m₁.exex.dirtyStems stem := fun stem hs => known_foldl_applyDelta hs
  by_cases hp : n > m.exex.lastPersistedBlock
  · refine ⟨m₁.persist .deleteBlockDeltas fun d => { d with db := d.db.deleteBlockDeltas n },
      ?_, ⟨⟨_, _, rfl⟩, ?_, ?_, ?_, ?_⟩⟩
    · unfold revertBlock applyDeltasReverse
      simp only [get_bind_apply, update_bind_apply, hp, ↓reduceIte]
      rfl
    · rw [← hlog, logical_eq, logical_eq]
      exact overlayValue_congr rfl _
    · intro k
      change (m.exex.db.deleteBlockDeltas n).loadBlockDeltas k = _
      simp only [UbtDatabase.loadBlockDeltas_delete, List.mem_singleton]
      by_cases hk : n = k
      · subst hk
        rw [if_pos rfl, if_pos ⟨rfl, hp⟩]
      · rw [if_neg hk, if_neg fun h => hk h.1.symm]
    · exact hknown
    · refine ⟨[_], rfl, ?_⟩
      intro w hw
      obtain rfl := List.mem_singleton.mp hw
      exact ⟨(by decide : DurableStep.deleteBlockDeltas ≠ .batchUpdateStems), rfl, rfl, rfl⟩
  · refine ⟨m₁, ?_, ⟨⟨_, _, rfl⟩, hlog, ?_, hknown, .update _ _⟩⟩
    · unfold revertBlock applyDeltasReverse
      simp only [get_bind_apply, update_bind_apply, hp, ↓reduceIte]
      rfl
    · intro k
      rw [if_neg]
      · rfl
      · rintro ⟨hk, hlt⟩
        obtain rfl := List.mem_singleton.mp hk
        exact hp hlt

/-- **The loop applies the rows of the blocks in order**, as they were before it. -/
theorem revertBlocks_spec (numbers : List ℕ) (hnd : numbers.Nodup) (m : Machine) :
    ∃ m', numbers.forM revertBlock m = .ok () m' ∧ Undone numbers m m' := by
  induction numbers generalizing m with
  | nil => exact ⟨m, rfl, ⟨_, _, rfl⟩, rfl, by simp, fun _ h => h, .refl m⟩
  | cons n ns ih =>
    obtain ⟨hn, hnd⟩ := List.nodup_cons.mp hnd
    obtain ⟨m₁, hrun₁, h₁⟩ := revertBlock_spec n m
    obtain ⟨m₂, hrun₂, h₂⟩ := ih hnd m₁
    obtain ⟨dirty₁, rows₁, he₁⟩ := h₁.frame
    obtain ⟨dirty₂, rows₂, he₂⟩ := h₂.frame
    have hp : m₁.exex.lastPersistedBlock = m.exex.lastPersistedBlock := by rw [he₁]
    -- the rows of the remaining blocks are still those of `m`
    have hstored : storedUndo m₁.exex.db ns = storedUndo m.exex.db ns := by
      unfold storedUndo
      refine List.flatMap_congr fun k hk => ?_
      have hkn : ¬(k ∈ [n] ∧ m.exex.lastPersistedBlock < k) := by
        rintro ⟨hk', -⟩
        rw [List.mem_singleton.mp hk'] at hk
        exact hn hk
      rw [h₁.rows, if_neg hkn]
    refine ⟨m₂, ?_, ⟨dirty₂, rows₂, ?_⟩, ?_, ?_, fun s hs => h₂.known s (h₁.known s hs), ?_⟩
    · change (revertBlock n >>= fun _ => ns.forM revertBlock) m = _
      rw [bind_apply_of_ok hrun₁, hrun₂]
    · rw [he₂, he₁]
    · rw [h₂.logical, h₁.logical, hstored, ← Writes.applyAll_append]
      simp [storedUndo]
    · intro k
      rw [h₂.rows, h₁.rows, hp]
      simp only [List.mem_cons]
      by_cases hlt : m.exex.lastPersistedBlock < k
      · by_cases hk : k ∈ ns
        · simp [hk, hlt]
        · simp [hk, hlt]
      · simp [hlt]
    · refine h₁.journal.trans (h₂.journal.mono fun w hw => ?_)
      rw [he₁] at hw
      exact hw

/-! ### The checkpoint of the current block -/

variable (U : Ubt)

theorem saveCurrent_spec (m : Machine) :
    ∃ root m', saveCurrent U m = .ok root m' ∧ root = computeRoot U m'.exex.db ∧
      m'.exex = { m.exex with
        db := (m.exex.db.batchUpdateStems m.exex.dirtyStems.toList).saveHead
          ⟨m.exex.lastBlock, m.exex.lastHash, root, m.exex.stemCount⟩
        dirtyStems := ∅ } ∧
      m.Extends (Checkpoint U m.exex.nomt m.exex.db.stems (drainedStems m.exex) m.exex.db.head
        m.exex.lastBlock m.exex.lastHash) m' := by
  obtain ⟨m₁, hrun₁, he₁, hj₁⟩ := flushDirty_spec m
  set root := computeRoot U m₁.exex.db with hroot
  set hd : UbtHead := ⟨m₁.exex.lastBlock, m₁.exex.lastHash, root, m₁.exex.stemCount⟩ with hhd
  refine ⟨root, m₁.persist .saveHead fun d => { d with db := d.db.saveHead hd }, ?_, ?_, ?_, ?_⟩
  · unfold saveCurrent
    rw [bind_apply_of_ok hrun₁, get_bind_apply]
    rfl
  · exact computeRoot_congr U rfl
  · rw [Machine.exex_persist, hhd, he₁]
  · have hstems₁ : m₁.exex.db.stems = drainedStems m.exex := by rw [he₁]; rfl
    have h₁ := checkpoint_flushDirty U m.exex.lastBlock m.exex.lastHash he₁ hj₁
    have hnomt₁ : m₁.exex.nomt = m.exex.nomt := by rw [he₁]
    have hnum : hd.blockNumber = m.exex.lastBlock := by rw [hhd, he₁]
    have hhash : hd.blockHash = m.exex.lastHash := by rw [hhd, he₁]
    refine h₁.trans (.persist ?_)
    exact .head (by simp) hd ⟨hnomt₁, hstems₁, rfl⟩ hnum hhash (computeRoot_congr U rfl)

/-! ### Revert -/

/-- The hash of the block that a revert of `old` leads back to. -/
def Chain.revertHash (old : Chain) : B256 := if old.first.number > 0 then old.first.parentHash else 0

/-- The effect of a revert. -/
structure Reverted (old : Chain) (m m' : Machine) : Prop where
  pendingEntries : m'.exex.pendingEntries = m.exex.pendingEntries
  lastBlock : m'.exex.lastBlock = old.first.number - 1
  lastHash : m'.exex.lastHash = old.revertHash
  flushInterval : m'.exex.flushInterval = m.exex.flushInterval
  deltaRetention : m'.exex.deltaRetention = m.exex.deltaRetention
  keyIndex : m'.exex.keyIndex = m.exex.keyIndex
  nomt : m'.exex.nomt = (m.exex.nomt.rollback old.blocks.length).getD m.exex.nomt
  logical : m'.exex.logical =
    Writes.applyAll m.exex.logical (storedUndo m.exex.db old.numbersDescending)
  rows : ∀ k, m'.exex.db.loadBlockDeltas k =
    if k ∈ old.numbersDescending ∧ m.exex.lastPersistedBlock < k then []
    else m.exex.db.loadBlockDeltas k
  persisted : (∃ b ∈ old.blocks, b.number ≤ m.exex.lastPersistedBlock) →
    m'.exex.dirtyStems = ∅ ∧ m'.exex.lastPersistedBlock = old.first.number - 1 ∧
      m'.exex.lastPersistedHash = old.revertHash ∧ m'.exex.lastRoot = computeRoot U m'.exex.db ∧
      ∃ stemCount, m'.exex.db.head =
        some ⟨old.first.number - 1, old.revertHash, computeRoot U m'.exex.db, stemCount⟩
  kept : (¬∃ b ∈ old.blocks, b.number ≤ m.exex.lastPersistedBlock) →
    m'.exex.lastPersistedBlock = m.exex.lastPersistedBlock ∧
      m'.exex.lastPersistedHash = m.exex.lastPersistedHash ∧
      m'.exex.lastRoot = m.exex.lastRoot ∧ m'.exex.db.stems = m.exex.db.stems ∧
      m'.exex.db.head = m.exex.db.head
  journal : ∃ stems', (∀ db : UbtDatabase, db.stems = stems' → db.value = m'.exex.logical) ∧
    m.Extends (Checkpoint U ((m.exex.nomt.rollback old.blocks.length).getD m.exex.nomt)
      m.exex.db.stems stems' m.exex.db.head (old.first.number - 1) old.revertHash) m'

theorem Chain.nodup_numbersDescending (old : Chain) : old.numbersDescending.Nodup := by
  unfold Chain.numbersDescending
  rw [List.nodup_reverse, List.Nodup, List.pairwise_map]
  exact old.blocks_sorted.imp fun h => Nat.ne_of_lt h

/-- The effect of a revert up to its checkpoint. -/
structure Unwound (old : Chain) (m m' : Machine) : Prop where
  frame : ∃ dirty rows, m'.exex = { m.exex with
    db := { m.exex.db with blockDeltas := rows }
    nomt := (m.exex.nomt.rollback old.blocks.length).getD m.exex.nomt
    dirtyStems := dirty
    lastBlock := old.first.number - 1
    lastHash := old.revertHash }
  logical : m'.exex.logical =
    Writes.applyAll m.exex.logical (storedUndo m.exex.db old.numbersDescending)
  rows : ∀ k, m'.exex.db.loadBlockDeltas k =
    if k ∈ old.numbersDescending ∧ m.exex.lastPersistedBlock < k then []
    else m.exex.db.loadBlockDeltas k
  journal : ∀ stems', m.Extends (Checkpoint U
    ((m.exex.nomt.rollback old.blocks.length).getD m.exex.nomt) m.exex.db.stems stems'
      m.exex.db.head (old.first.number - 1) old.revertHash) m'

/-- The extension when the checkpoint that a revert wrote is the last persisted one. -/
def markPersisted (root : B256) (s : UbtExEx) : UbtExEx :=
  { s with lastPersistedBlock := s.lastBlock, lastPersistedHash := s.lastHash, lastRoot := root }

/-- What a revert does when the deltas of its blocks are applied. -/
theorem revert_run {old : Chain} {m m₂ : Machine}
    (hblocks : old.numbersDescending.forM revertBlock (m.persist .nomtRollback fun d =>
      { d with nomt := (d.nomt.rollback old.blocks.length).getD d.nomt }) = .ok () m₂)
    (hpersisted : m₂.exex.lastPersistedBlock = m.exex.lastPersistedBlock) :
    revert U old m =
      (if (old.blocks.any fun b => b.number ≤ m.exex.lastPersistedBlock) then
        saveCurrent U >>= fun root => update (markPersisted root) else pure ())
        (m₂.update fun s =>
          { s with lastBlock := old.first.number - 1, lastHash := old.revertHash }) := by
  have hhead : (fun s : UbtExEx => if old.first.number > 0 then
      { s with lastBlock := old.first.number - 1, lastHash := old.first.parentHash }
      else { s with lastBlock := 0, lastHash := 0 }) =
        fun s => { s with lastBlock := old.first.number - 1, lastHash := old.revertHash } := by
    funext s
    unfold Chain.revertHash
    by_cases h : old.first.number > 0
    · simp only [h, ↓reduceIte]
    · have hz : old.first.number - 1 = 0 := by omega
      simp only [h, ↓reduceIte, hz]
  unfold revert
  rw [hhead, persist_bind_apply, bind_apply_of_ok hblocks, update_bind_apply, get_bind_apply]
  change (if (old.blocks.any fun b => b.number ≤ m₂.exex.lastPersistedBlock) = true then _
    else _ : ExM Unit) _ = _
  rw [hpersisted]
  rfl

/-- **A revert takes back the blocks, and then writes a checkpoint or not.** -/
theorem revert_unwound (old : Chain) (m : Machine) :
    ∃ m₁, Unwound U old m m₁ ∧ revert U old m =
      (if (old.blocks.any fun b => b.number ≤ m.exex.lastPersistedBlock) then
        saveCurrent U >>= fun root => update (markPersisted root) else pure ()) m₁ := by
  let nomt := (m.exex.nomt.rollback old.blocks.length).getD m.exex.nomt
  let m₁ := m.persist .nomtRollback fun d =>
    { d with nomt := (d.nomt.rollback old.blocks.length).getD d.nomt }
  obtain ⟨m₂, hrun₂, h₂⟩ := revertBlocks_spec old.numbersDescending old.nodup_numbersDescending m₁
  obtain ⟨dirty, rows, he₂⟩ := h₂.frame
  refine ⟨_, ⟨⟨dirty, rows, ?_⟩, ?_, ?_, ?_⟩, revert_run U hrun₂ (by rw [he₂]; rfl)⟩
  · rw [Machine.exex_update, he₂]
    rfl
  · have hlogical := h₂.logical
    rw [logical_eq, he₂] at hlogical
    rw [logical_eq, Machine.exex_update, he₂]
    exact hlogical
  · intro k
    have hrow := h₂.rows k
    rw [he₂] at hrow
    rw [Machine.exex_update, he₂]
    exact hrow
  · intro stems'
    have h₁ : m.Extends (Checkpoint U nomt m.exex.db.stems stems' m.exex.db.head
        (old.first.number - 1) old.revertHash) m₁ := by
      refine ⟨[_], rfl, ?_⟩
      intro w hw
      obtain rfl := List.mem_singleton.mp hw
      exact .quiet (by simp) ⟨rfl, rfl, rfl⟩
    exact (h₁.trans (h₂.journal.mono fun w hw => .quiet hw.1 hw.2)).trans (.update _ _)

section Branches

variable {U} {old : Chain} {m m₁ : Machine}

/-- A revert of blocks that were not persisted. -/
theorem Unwound.reverted_kept (h : Unwound U old m m₁)
    (hnone : ¬∃ b ∈ old.blocks, b.number ≤ m.exex.lastPersistedBlock) : Reverted U old m m₁ := by
  obtain ⟨dirty, rows, he⟩ := h.frame
  exact {
    pendingEntries := by rw [he]
    lastBlock := by rw [he]
    lastHash := by rw [he]
    flushInterval := by rw [he]
    deltaRetention := by rw [he]
    keyIndex := by rw [he]
    nomt := by rw [he]
    logical := h.logical
    rows := h.rows
    persisted := fun hp => absurd hp hnone
    kept := fun _ => by rw [he]; exact ⟨rfl, rfl, rfl, rfl, rfl⟩
    journal := ⟨drainedStems m₁.exex, fun db hdb => value_drained hdb, h.journal _⟩ }

/-- A revert of a persisted block: the checkpoint of the parent is written. -/
theorem Unwound.reverted_persisted (h : Unwound U old m m₁)
    (hsome : ∃ b ∈ old.blocks, b.number ≤ m.exex.lastPersistedBlock) :
    ∃ root m₂, saveCurrent U m₁ = .ok root m₂ ∧
      Reverted U old m (m₂.update (markPersisted root)) := by
  obtain ⟨dirty, rows, he⟩ := h.frame
  obtain ⟨root, m₂, hrun, hroot, he₂, hj₂⟩ := saveCurrent_spec U m₁
  rw [he] at he₂
  have hstems : m₂.exex.db.stems = drainedStems m₁.exex := by rw [he₂, he]; rfl
  have hdirty : m₂.exex.dirtyStems = ∅ := by rw [he₂]
  have hlogical : m₂.exex.logical = m₁.exex.logical := by
    rw [logical_of_clean hdirty, value_drained hstems]
  have hmark : (m₂.update (markPersisted root)).exex = markPersisted root m₂.exex := rfl
  have hmarked : (m₂.update (markPersisted root)).exex.logical = m₂.exex.logical := rfl
  refine ⟨root, m₂, hrun, ?_⟩
  exact {
    pendingEntries := by rw [hmark, he₂]; rfl
    lastBlock := by rw [hmark, he₂]; rfl
    lastHash := by rw [hmark, he₂]; rfl
    flushInterval := by rw [hmark, he₂]; rfl
    deltaRetention := by rw [hmark, he₂]; rfl
    keyIndex := by rw [hmark, he₂]; rfl
    nomt := by rw [hmark, he₂]; rfl
    logical := by rw [hmarked, hlogical, h.logical]
    rows := fun k => by
      rw [← h.rows, hmark, he₂, he]
      rfl
    persisted := fun _ => by
      have hhead : m₂.exex.db.head =
          some ⟨old.first.number - 1, old.revertHash, computeRoot U m₂.exex.db,
            m.exex.stemCount⟩ := by
        rw [← hroot, he₂]
        rfl
      refine ⟨hdirty, ?_, ?_, hroot, m.exex.stemCount, hhead⟩
      · rw [hmark, he₂]
        rfl
      · rw [hmark, he₂]
        rfl
    kept := fun hno => absurd hsome hno
    journal := by
      refine ⟨drainedStems m₁.exex, fun db hdb => ?_, ?_⟩
      · rw [hmarked, hlogical, value_drained hdb]
      · have hj := (h.journal (drainedStems m₁.exex)).trans (hj₂.mono fun w hw => by
          rw [he] at hw ⊢
          exact hw)
        exact hj.trans (.update _ _) }

end Branches

/-- **A revert always succeeds**: it applies the stored deltas of its blocks. -/
theorem revert_spec (old : Chain) (m : Machine) :
    ∃ m', revert U old m = .ok () m' ∧ Reverted U old m m' := by
  obtain ⟨m₁, hunwound, hrun⟩ := revert_unwound U old m
  have hany : (old.blocks.any fun b => b.number ≤ m.exex.lastPersistedBlock) = true ↔
      ∃ b ∈ old.blocks, b.number ≤ m.exex.lastPersistedBlock := by
    simp
  by_cases hpersisted : ∃ b ∈ old.blocks, b.number ≤ m.exex.lastPersistedBlock
  · obtain ⟨root, m₂, hsave, hreverted⟩ := hunwound.reverted_persisted hpersisted
    refine ⟨_, ?_, hreverted⟩
    rw [hrun, if_pos (hany.mpr hpersisted), bind_apply_of_ok hsave, update_apply]
  · refine ⟨m₁, ?_, hunwound.reverted_kept hpersisted⟩
    rw [hrun, if_neg fun h => hpersisted (hany.mp h)]
    rfl

/-! ### Shutdown -/

/-- A shutdown writes the checkpoint of the last block and changes no value. -/
theorem shutdown_spec (m : Machine) :
    ∃ m', shutdown U m = .ok () m' ∧ m'.exex.logical = m.exex.logical ∧
      m'.exex.db.value = m.exex.logical ∧ m'.exex.nomt = m.exex.nomt ∧
      (∃ stemCount, m'.exex.db.head =
        some ⟨m.exex.lastBlock, m.exex.lastHash, computeRoot U m'.exex.db, stemCount⟩) ∧
      m.Extends (Checkpoint U m.exex.nomt m.exex.db.stems (drainedStems m.exex) m.exex.db.head
        m.exex.lastBlock m.exex.lastHash) m' := by
  obtain ⟨root, m', hrun, hroot, he, hj⟩ := saveCurrent_spec U m
  have hstems : m'.exex.db.stems = drainedStems m.exex := by rw [he]; rfl
  refine ⟨m', ?_, ?_, value_drained hstems, by rw [he], ⟨m.exex.stemCount, ?_⟩, hj⟩
  · unfold shutdown
    rw [bind_apply_of_ok hrun]
    rfl
  · have hdirty : m'.exex.dirtyStems = ∅ := by rw [he]
    rw [logical_of_clean hdirty, value_drained hstems]
  · rw [← hroot, he]
    rfl

variable {U} in
/-- What a shutdown leaves. -/
theorem shutdown_effect {m m' : Machine} (h : shutdown U m = .ok () m') :
    let db := m.exex.db.batchUpdateStems m.exex.dirtyStems.toList
    m'.exex = { m.exex with
      db := db.saveHead ⟨m.exex.lastBlock, m.exex.lastHash, computeRoot U db, m.exex.stemCount⟩
      dirtyStems := ∅ } := by
  intro db
  obtain ⟨root, m₁, hrun, hroot, he, -⟩ := saveCurrent_spec U m
  have hroot' : root = computeRoot U db := by
    rw [hroot]
    exact computeRoot_congr U (by rw [he]; rfl)
  have hsave : shutdown U m = .ok () m₁ := by
    unfold shutdown
    rw [bind_apply_of_ok hrun]
    rfl
  obtain rfl : m₁ = m' := by
    injection hsave.symm.trans h
  rw [he, hroot']

/-- What holds after every successful revert. -/
theorem revert_ok {old : Chain} {m m' : Machine} (h : revert U old m = .ok () m') :
    Reverted U old m m' :=
  EStateM.of_eq_ok (revert_spec U old m) h

/-- A revert succeeds. -/
theorem revert_eq_ok (old : Chain) (m : Machine) :
    revert U old m = .ok () (revert U old m).state := by
  obtain ⟨m', hrun, -⟩ := revert_spec U old m
  rw [hrun]
  rfl

/-- A shutdown succeeds. -/
theorem shutdown_eq_ok (m : Machine) : shutdown U m = .ok () (shutdown U m).state := by
  obtain ⟨m', hrun, -⟩ := shutdown_spec U m
  rw [hrun]
  rfl

end UbtExex
