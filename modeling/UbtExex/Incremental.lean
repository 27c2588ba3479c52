import UbtExex.DeltaTable
import UbtExex.Exported
import UbtExex.Reorg

/-!
# Incremental exports

Whether the delta file of the blocks above an earlier head takes the values stored
then to those stored now.  A key that changed since is in the undo log of a commit
that is still canonical, so it is in the file as long as the row of that commit is.
Rows are pruned by the greatest head ever flushed, requests are refused by the head
there is now; when a revert has lowered the head, a request can be let through
whose rows are gone.

## Main definitions

* `AtCheckpoint` — the state of a machine is what it has stored.
* `overwrite` — the values after the records of a delta file.
* `DeltaComplete` — what is asked of `get_state_delta`.
* `WholeCommits` — that a revert cuts no commit.
* `DeltasKept` — the condition on a state: no row in the window was pruned.

## Main results

* `Ledger.mem_undo_of_changed` — **a key that changed is in an undo log.**
* `Chronicle.step` — one commit or revert.
* `incremental_complete` — **delta files are complete in every state of a run that
  meets the conditions.**
* `incremental_incomplete` — a revert below the head that pruned.
-/

open Std

namespace UbtExex

/-! ### Whole commits -/

namespace Ledger

/-- The blocks of the newest commits are the newest blocks. -/
theorem take_blocks (L : Ledger) (j : ℕ) :
    L.blocks.take (blocks (L.take j)).length = blocks (L.take j) := by
  have hsplit : L.blocks = blocks (L.take j) ++ blocks (L.drop j) := by
    unfold blocks
    rw [← List.flatMap_append, List.take_append_drop]
  rw [hsplit, List.take_left]

/-- Dropping the blocks of the newest commits drops these commits. -/
theorem dropBlocks_take {L : Ledger} (hne : ∀ c ∈ L, c.blocks ≠ []) (j : ℕ) :
    L.dropBlocks (blocks (L.take j)).length = L.drop j := by
  induction L generalizing j with
  | nil => simp [dropBlocks]
  | cons c L ih =>
    obtain ⟨hc, hL⟩ := List.forall_mem_cons.mp hne
    have hpos := List.length_pos_of_ne_nil hc
    cases j with
    | zero => simp [dropBlocks]
    | succ j =>
      rw [List.take_succ_cons, List.drop_succ_cons, blocks_cons, List.length_append, dropBlocks,
        if_neg (by omega), if_neg (by omega), Nat.add_sub_cancel_left]
      exact ih hL j

/-- Commits of one block each: the blocks of the older commits are the older blocks. -/
theorem blocks_drop {L : Ledger} (h : ∀ c ∈ L, c.blocks.length = 1) (k : ℕ) :
    blocks (L.drop k) = L.blocks.drop k := by
  induction L generalizing k with
  | nil => simp [blocks]
  | cons c L ih =>
    obtain ⟨hc, hL⟩ := List.forall_mem_cons.mp h
    cases k with
    | zero => rfl
    | succ k =>
      have hnil : c.blocks.drop (k + 1) = [] := List.drop_eq_nil_of_le (by omega)
      rw [List.drop_succ_cons, ih hL, blocks_cons, List.drop_append, hnil, hc, List.nil_append,
        Nat.add_sub_cancel]

/-- If the newest `j` commits have no block up to the tip of the oldest ones, then none
of the oldest ones is among them. -/
theorem drop_stored (base : ℕ × B256) {L₁ L₀ : Ledger} {j : ℕ}
    (hne : ∀ c ∈ L₁ ++ L₀, c.blocks ≠ [])
    (hnew : ∀ b ∈ blocks ((L₁ ++ L₀).take j), ¬b.block.number ≤ (tipOf base L₀.blocks).1) :
    (L₁ ++ L₀).drop j = L₁.drop j ++ L₀ := by
  rw [List.drop_append]
  cases L₀ with
  | nil => rw [List.drop_nil]
  | cons c L₀ =>
    have hle : j ≤ L₁.length := by
      by_contra hgt
      obtain ⟨b, bs, hb⟩ := List.exists_cons_of_ne_nil (hne c (by simp))
      refine hnew b (List.mem_flatMap.mpr ⟨c, ?_, by rw [hb]; simp⟩) (Nat.le_of_eq ?_)
      · rw [List.take_append]
        refine List.mem_append_right _ ?_
        rw [show j - L₁.length = (j - L₁.length - 1) + 1 by omega]
        simp
      · rw [blocks_cons, hb]
        rfl
    rw [Nat.sub_eq_zero_of_le hle, List.drop_zero]

/-- Whole commits are cut cleanly. -/
theorem cutClean_take {σ₀ : TreeKey → B256} (L : Ledger) (j : ℕ) :
    L.CutClean σ₀ (blocks (L.take j)).length := by
  induction L generalizing j with
  | nil => trivial
  | cons c L ih =>
    cases j with
    | zero =>
      refine ⟨fun h => absurd h (Nat.lt_irrefl 0), ?_⟩
      rw [show (blocks (List.take 0 (c :: L))).length - c.blocks.length = 0 from Nat.zero_sub _]
      exact ih 0
    | succ j =>
      rw [List.take_succ_cons, blocks_cons, List.length_append]
      refine ⟨fun _ hlt => absurd hlt (by omega), ?_⟩
      rw [Nat.add_sub_cancel_left]
      exact ih j

theorem Undoable.of_append {σ₀ : TreeKey → B256} {L₁ L₀ : Ledger}
    (h : Undoable σ₀ (L₁ ++ L₀)) : Undoable σ₀ L₀ := by
  induction L₁ with
  | nil => exact h
  | cons c L₁ ih => exact ih h.2.2

theorem Undoable.drop {σ₀ : TreeKey → B256} {L : Ledger} (h : L.Undoable σ₀) (k : ℕ) :
    Undoable σ₀ (L.drop k) := by
  rw [← List.take_append_drop k L] at h
  exact h.of_append

/-- **A key whose value is not that of the base is in the undo log of a commit.** -/
theorem mem_undo_of_changed {σ₀ : TreeKey → B256} {L : Ledger} {key : TreeKey}
    (h : L.Undoable σ₀) (hchanged : stateAfter σ₀ L.blocks key ≠ σ₀ key) :
    ∃ c ∈ L, ∃ d ∈ c.undo, (deltaWrite d).1 = key := by
  induction L with
  | nil => exact absurd rfl hchanged
  | cons c L ih =>
    obtain ⟨-, hundo, hL⟩ := h
    by_cases hbelow : stateAfter σ₀ (blocks L) key = σ₀ key
    · -- this commit changed the value, so its undo log has the key
      by_contra hnone
      simp only [List.mem_cons, not_exists, not_and] at hnone
      apply hchanged
      rw [← hbelow, ← hundo, Writes.applyAll_of_forall_ne]
      · rfl
      · intro w hw
        obtain ⟨d, hd, rfl⟩ := List.mem_map.mp hw
        exact hnone c (Or.inl rfl) d (List.mem_reverse.mp hd)
    · obtain ⟨c', hc', hd⟩ := ih hL hbelow
      exact ⟨c', List.mem_cons_of_mem _ hc', hd⟩

end Ledger

/-! ### Checkpoints -/

/-- A machine between operations whose state is what it has stored. -/
structure AtCheckpoint (m : Machine) : Prop where
  pending : m.exex.pendingEntries = []
  clean : m.exex.dirtyStems = ∅
  persisted : m.exex.lastPersistedBlock = m.exex.lastBlock
  saved : ∀ head, m.exex.db.loadHead = some head → head.blockNumber = m.exex.lastBlock

theorem AtCheckpoint.fresh (config : UbtConfig) : AtCheckpoint (.fresh config) where
  pending := rfl
  clean := rfl
  persisted := rfl
  saved head h := by cases h

variable {U : Ubt} {base : ℕ × B256}

/-- **Where a step leaves the head of the last block, the machine is at a checkpoint**:
after a commit that flushes, and after a revert of persisted blocks. -/
theorem ChainStep.atCheckpoint {t t' : Tracked} {e : Event} (hf : Following base t)
    (hpersists : match e with
      | .commit bs _ => ∀ b ∈ bs.head?, t.machine.exex.shouldFlush b.block.number = true
      | .revert old => ∃ b ∈ old.blocks, b.number ≤ t.machine.exex.lastPersistedBlock)
    (hstep : ChainStep U base t e t') : AtCheckpoint t'.machine := by
  cases hstep with
  | @commit m m' L hi b bs es root hlink hwrites hrun =>
    have hc := commit_ok U hrun
    obtain ⟨hclean, hlast, -, -, -, count, hhead⟩ := hc.flushed (hpersists b rfl)
    refine ⟨hc.pendingEntries, hclean, hlast.trans hc.lastBlock.symm, ?_⟩
    intro head hload
    obtain rfl := Option.some.inj (hhead.symm.trans hload)
    exact hc.lastBlock.symm
  | @revert m m' L hi old hold hrun =>
    have hr := revert_ok U hrun
    obtain ⟨hclean, hlast, -, -, count, hhead⟩ := hr.persisted hpersists
    refine ⟨hr.pendingEntries.trans hf.pending, hclean, hlast.trans hr.lastBlock.symm, ?_⟩
    intro head hload
    obtain rfl := Option.some.inj (hhead.symm.trans hload)
    exact hr.lastBlock.symm

/-! ### What is asked of a delta file -/

/-- The values after the records of a delta file are written over them. -/
def overwrite (σ : TreeKey → B256) (entries : List StorageEntry) (key : TreeKey) : B256 :=
  (Writes.lastWrite (entries.map fun e => (e.treeIndex, e.value)) key.path).getD (σ key)

/-- A delta file of all blocks above `n₀`, if it is written, takes the values `σ` to
those stored. -/
def DeltaComplete (σ : TreeKey → B256) (n₀ : ℕ) (m : Machine) : Prop :=
  ∀ head, m.exex.db.loadHead = some head → n₀ < head.blockNumber →
    ∀ chainId dir res env, getStateDelta (n₀ + 1) head.blockNumber chainId m.exex.deltaRetention
        (.over m.exex.toDisk dir) = .ok res env →
      ∃ entries, env.dir (.delta (n₀ + 1) head.blockNumber) =
          some (stateBytes chainId (head.blockNumber, head.blockHash) entries) ∧
        overwrite σ entries = m.exex.db.value

/-- A revert undoes whole commits. -/
def WholeCommits (t : Tracked) : Event → Prop
  | .commit _ _ => True
  | .revert old => ∃ j, old.blocks.length = (Ledger.blocks (t.ledger.take j)).length

/-- As long as the block above `n₀` is in the window of the head, no block was flushed
that it was out of the window of. -/
def DeltasKept (n₀ : ℕ) (t : Tracked) : Prop :=
  ∀ head, t.machine.exex.db.loadHead = some head →
    head.blockNumber ≤ n₀ + 1 + t.machine.exex.deltaRetention →
      t.highest ≤ n₀ + 1 + t.machine.exex.deltaRetention

/-- The values of the keys of a delta file are those stored. -/
theorem overwrite_deltaEntries (σ : TreeKey → B256) (db : UbtDatabase) (keys : List TreeKey)
    (key : TreeKey) :
    overwrite σ (keys.map (deltaEntry db)) key = if key ∈ keys then db.value key else σ key := by
  have hmap : (keys.map (deltaEntry db)).map (fun e => (e.treeIndex, e.value)) =
      (keys.map fun k => (k, db.value k)).map fun w => (w.1.path, w.2) := by
    rw [List.map_map, List.map_map]
    rfl
  unfold overwrite
  rw [hmap, Writes.lastWrite_map TreeKey.path fun w _ h => TreeKey.path_injective h]
  by_cases hmem : key ∈ keys
  · rw [if_pos hmem]
    cases hlast : Writes.lastWrite (keys.map fun k => (k, db.value k)) key with
    | none => exact absurd rfl (Writes.lastWrite_eq_none.mp hlast _ (List.mem_map_of_mem hmem))
    | some v =>
      obtain ⟨k, -, heq⟩ := List.mem_map.mp (Writes.mem_of_lastWrite hlast)
      cases heq
      rfl
  · rw [if_neg hmem, Writes.lastWrite_eq_none.mpr]
    · rfl
    · intro w hw heq
      obtain ⟨k, hk, rfl⟩ := List.mem_map.mp hw
      exact hmem (heq ▸ hk)

/-! ### One step -/

/-- The stored head stays at the last persisted block. -/
theorem Committed.saved {n : ℕ} {hash : B256} {m m' : Machine} {root : B256}
    (hc : Committed U n hash m m' root) (h : ∀ head, m.exex.db.loadHead = some head →
      head.blockNumber = m.exex.lastPersistedBlock) {head : UbtHead}
    (hload : m'.exex.db.loadHead = some head) :
    head.blockNumber = m'.exex.lastPersistedBlock := by
  cases hflush : m.exex.shouldFlush n with
  | true =>
    obtain ⟨-, hlast, -, -, -, count, hhead⟩ := hc.flushed hflush
    obtain rfl := Option.some.inj (hhead.symm.trans hload)
    exact hlast.symm
  | false =>
    obtain ⟨hlast, -, -, -, -, hhead⟩ := hc.kept hflush
    exact (h head (hhead.symm.trans hload)).trans hlast.symm

theorem Reverted.saved {old : Chain} {m m' : Machine} (hr : Reverted U old m m')
    (h : ∀ head, m.exex.db.loadHead = some head → head.blockNumber = m.exex.lastPersistedBlock)
    {head : UbtHead} (hload : m'.exex.db.loadHead = some head) :
    head.blockNumber = m'.exex.lastPersistedBlock := by
  by_cases hpersisted : ∃ b ∈ old.blocks, b.number ≤ m.exex.lastPersistedBlock
  · obtain ⟨-, hlast, -, -, count, hhead⟩ := hr.persisted hpersisted
    obtain rfl := Option.some.inj (hhead.symm.trans hload)
    exact hlast.symm
  · obtain ⟨hlast, -, -, -, hhead⟩ := hr.kept hpersisted
    exact (h head (hhead.symm.trans hload)).trans hlast.symm

/-- The stored values are those after the oldest commits of the ledger, and the rows of
its commits are there unless a flush has pruned them. -/
structure Chronicle (m₀ : Machine) (t : Tracked) : Prop extends
    Converged m₀.tip m₀.exex.logical t where
  retention : t.machine.exex.deltaRetention = m₀.exex.deltaRetention
  rows : t.highest ≤ m₀.exex.lastBlock + 1 + m₀.exex.deltaRetention →
    ∀ c ∈ t.ledger, c.undo ≠ [] → ∀ b ∈ c.blocks.head?,
      t.machine.exex.db.loadBlockDeltas b.block.number = c.undo
  stored : ∃ L₁ L₀ : Ledger, t.ledger = L₁ ++ L₀ ∧
    t.machine.exex.db.value = stateAfter m₀.exex.logical L₀.blocks ∧
    t.machine.exex.lastPersistedBlock = (tipOf m₀.tip L₀.blocks).1
  saved : ∀ head, t.machine.exex.db.loadHead = some head →
    head.blockNumber = t.machine.exex.lastPersistedBlock

variable {m₀ : Machine}

theorem Chronicle.start (h : AtCheckpoint m₀) : Chronicle m₀ (.start m₀) where
  toConverged := .start h.pending
  retention := rfl
  rows := by simp [Tracked.start]
  stored := ⟨[], [], rfl, (logical_of_clean h.clean).symm, h.persisted⟩
  saved head hload := (h.saved head hload).trans h.persisted.symm

/-- **A commit keeps the chronicle**, whether or not it flushes. -/
theorem Chronicle.commit {t t' : Tracked} {bs : List CanonicalBlock} {es : List PendingEntry}
    (h : Chronicle m₀ t) (hstep : ChainStep U m₀.tip t (.commit bs es) t') : Chronicle m₀ t' := by
  have hconv := h.toConverged.step (e := .commit bs es) trivial hstep
  cases hstep with
  | @commit m m' L hi b bs _ root hlink hwrites hrun =>
    have hc := commit_ok U hrun
    refine ⟨hconv, hc.deltaRetention.trans h.retention, ?_, ?_, ?_⟩
    · intro hwindow c hcmem hundo b' hb'
      have hlinked := hconv.linked
      have hmem : b' ∈ c.blocks := List.mem_of_mem_head? hb'
      have hbase : m₀.exex.lastBlock < b'.block.number :=
        (hlinked.base_lt (List.mem_flatMap.mpr ⟨c, hcmem, hmem⟩)).1
      have hhi : hi ≤ m₀.exex.lastBlock + 1 + m₀.exex.deltaRetention := by
        refine Nat.le_trans ?_ hwindow
        show hi ≤ if _ then _ else _
        split
        · exact Nat.le_max_left _ _
        · exact Nat.le_refl _
      -- a flush that stays in the window prunes no row of the ledger
      have hprune : ¬((m.push es).exex.shouldFlush b.block.number = true ∧
          b'.block.number < b.block.number - (m.push es).exex.deltaRetention) := by
        rintro ⟨hflush, hlt⟩
        have hR : (m.push es).exex.deltaRetention = m₀.exex.deltaRetention := h.retention
        change (if (m.push es).exex.shouldFlush b.block.number then max hi b.block.number else hi) ≤ _
          at hwindow
        rw [if_pos hflush] at hwindow
        rw [hR] at hlt
        omega
      show m'.exex.db.loadBlockDeltas _ = _
      rw [hc.rows, if_neg hprune]
      rcases List.mem_cons.mp hcmem with rfl | hcL
      · obtain rfl := Option.some.inj hb'
        rw [if_pos ⟨rfl, hundo⟩]
      · have hlt : (tipOf m₀.tip L.blocks).1 < b.block.number :=
          (hlink.base_lt List.mem_cons_self).1
        have hle : b'.block.number ≤ (tipOf m₀.tip L.blocks).1 :=
          (h.linked.base_lt (List.mem_flatMap.mpr ⟨c, hcL, hmem⟩)).2
        rw [if_neg fun hn => absurd hn.1 (by omega)]
        exact h.rows hhi c hcL hundo b' hb'
    · cases hflush : (m.push es).exex.shouldFlush b.block.number with
      | true =>
        obtain ⟨hclean, hlast, -⟩ := hc.flushed hflush
        refine ⟨[], _, rfl, ?_, hlast⟩
        rw [← hconv.logical]
        exact (logical_of_clean hclean).symm
      | false =>
        obtain ⟨hlast, -, -, -, hstems, -⟩ := hc.kept hflush
        obtain ⟨L₁, L₀, hL, hvalue, hpersisted⟩ := h.stored
        refine ⟨_ :: L₁, L₀, congrArg (List.cons _) hL, ?_, hlast.trans hpersisted⟩
        rw [← hvalue]
        exact UbtDatabase.value_of_stems hstems
    · exact fun head hload => hc.saved h.saved hload

/-- **A revert of whole commits that finds their rows keeps the chronicle.** -/
theorem Chronicle.revert {t t' : Tracked} {old : Chain} (h : Chronicle m₀ t)
    (hwhole : WholeCommits t (.revert old)) (hrows : RowsFound t (.revert old))
    (hstep : ChainStep U m₀.tip t (.revert old) t') : Chronicle m₀ t' := by
  obtain ⟨j, hj⟩ := hwhole
  have hcut : t.ledger.CutClean m₀.exex.logical old.blocks.length := by
    rw [hj]
    exact t.ledger.cutClean_take j
  have hconv := h.toConverged.step (e := .revert old) ⟨hrows, hcut⟩ hstep
  have hdrop : t.ledger.dropBlocks old.blocks.length = t.ledger.drop j := by
    rw [hj]
    exact Ledger.dropBlocks_take h.nonempty j
  cases hstep with
  | @revert m m' L hi _ hold hrun =>
    change L.dropBlocks _ = L.drop j at hdrop
    have hr := revert_ok U hrun
    have hlinked := h.linked
    change Linked m₀.tip L.blocks at hlinked
    refine ⟨hconv, hr.deltaRetention.trans h.retention, ?_, ?_, ?_⟩
    · intro hwindow c hcmem hundo b hb
      have hmem : b ∈ c.blocks := List.mem_of_mem_head? hb
      have hkept : b ∈ L.blocks.drop old.blocks.length := by
        rw [← L.blocks_dropBlocks]
        exact List.mem_flatMap.mpr ⟨c, hcmem, hmem⟩
      show m'.exex.db.loadBlockDeltas _ = _
      rw [hr.rows, if_neg fun hn => not_mem_reverted hlinked hold hkept hn.1]
      refine h.rows hwindow c ?_ hundo b hb
      change c ∈ L.dropBlocks _ at hcmem
      rw [hdrop] at hcmem
      exact List.mem_of_mem_drop hcmem
    · by_cases hpersisted : ∃ b ∈ old.blocks, b.number ≤ m.exex.lastPersistedBlock
      · obtain ⟨hclean, hlast, -⟩ := hr.persisted hpersisted
        refine ⟨[], _, rfl, ?_, ?_⟩
        · rw [← hconv.logical]
          exact (logical_of_clean hclean).symm
        · exact hlast.trans (hr.lastBlock.symm.trans (congrArg Prod.fst hconv.tip))
      · obtain ⟨hlast, -, -, hstems, -⟩ := hr.kept hpersisted
        obtain ⟨L₁, L₀, hL, hvalue, htip⟩ := h.stored
        change L = L₁ ++ L₀ at hL
        have hsplit : L.drop j = L₁.drop j ++ L₀ := by
          rw [hL]
          refine Ledger.drop_stored m₀.tip (fun c hc => h.nonempty c (hL ▸ hc)) fun b hb hle => ?_
          have htake : b ∈ L.blocks.take old.blocks.length := by
            rw [hj, L.take_blocks j, hL]
            exact hb
          have hmem : b.block ∈ old.blocks.reverse := hold ▸ List.mem_map_of_mem htake
          exact hpersisted ⟨b.block, List.mem_reverse.mp hmem, Nat.le_trans hle htip.ge⟩
        refine ⟨L₁.drop j, L₀, hdrop.trans hsplit, ?_, hlast.trans htip⟩
        rw [← hvalue]
        exact UbtDatabase.value_of_stems hstems
    · exact fun head hload => hr.saved h.saved hload

/-- **Where no row in the window was pruned, a delta file is complete.** -/
theorem Chronicle.deltaComplete {t : Tracked} (h : Chronicle m₀ t)
    (hkept : DeltasKept m₀.exex.lastBlock t) :
    DeltaComplete m₀.exex.logical m₀.exex.lastBlock t.machine := by
  intro head hload hlt chainId dir res env hexport
  obtain ⟨head', hload', -, -, hmin, -, -, rfl⟩ := getStateDelta_fixed_ok_iff.mp hexport
  obtain rfl := Option.some.inj (hload.symm.trans hload')
  refine ⟨_, by rw [ExportEnv.dir_put, if_pos rfl], ?_⟩
  funext key
  rw [overwrite_deltaEntries]
  split
  · rfl
  · next hmissing =>
    obtain ⟨L₁, L₀, hL, hvalue, hpersisted⟩ := h.stored
    have hundo := h.undoable
    have hlinked := h.linked
    rw [hL] at hundo hlinked
    have hlinked₀ : Linked m₀.tip L₀.blocks := by
      unfold Ledger.blocks at hlinked
      rw [List.flatMap_append] at hlinked
      exact hlinked.of_append
    rw [hvalue]
    by_contra hchanged
    obtain ⟨c, hc, d, hd, hkey⟩ :=
      Ledger.mem_undo_of_changed hundo.of_append (Ne.symm hchanged)
    have hcL : c ∈ t.ledger := hL ▸ List.mem_append_right _ hc
    obtain ⟨b, bs, hb⟩ := List.exists_cons_of_ne_nil (h.nonempty c hcL)
    have hrow := h.rows (by
      rw [← h.retention]
      exact hkept head hload (by omega)) c hcL (List.ne_nil_of_mem hd) b (by rw [hb]; rfl)
    -- the row of the commit is in the range of the request
    have hrange := hlinked₀.base_lt
      (List.mem_flatMap.mpr ⟨c, hc, (by rw [hb]; exact List.mem_cons_self : b ∈ c.blocks)⟩)
    rw [← hpersisted, ← h.saved head hload] at hrange
    refine hmissing (mem_deltaKeys.mpr ⟨b.block.number, hrange.1, hrange.2, d, ?_, hkey⟩)
    exact hrow ▸ hd

/-! ### Runs -/

/-- **In every run from a checkpoint whose reverts undo whole commits and find their
rows, the delta file of all blocks above the checkpoint is complete in every state
in whose window no row was pruned.** -/
theorem incremental_complete {h : List (Tracked × Event)} {t : Tracked} (hstart : AtCheckpoint m₀)
    (hrun : Run (ChainStep U m₀.tip) (.start m₀) h t)
    (hwhole : ∀ p ∈ h, WholeCommits p.1 p.2) (hrows : ∀ p ∈ h, RowsFound p.1 p.2) :
    (DeltasKept m₀.exex.lastBlock t →
        DeltaComplete m₀.exex.db.value m₀.exex.lastBlock t.machine) ∧
      ∀ p ∈ h, DeltasKept m₀.exex.lastBlock p.1 →
        DeltaComplete m₀.exex.db.value m₀.exex.lastBlock p.1.machine := by
  have hstep : ∀ s e s', Chronicle m₀ s → WholeCommits s e ∧ RowsFound s e →
      ChainStep U m₀.tip s e s' → Chronicle m₀ s' := by
    intro s e s' hs hcond hstep
    cases e with
    | commit bs es => exact hs.commit hstep
    | revert old => exact hs.revert hcond.1 hcond.2 hstep
  obtain ⟨hlast, hall⟩ := hrun.invariant (Chronicle.start hstart) hstep
    fun p hp => ⟨hwhole p hp, hrows p hp⟩
  rw [← logical_of_clean hstart.clean]
  exact ⟨hlast.deltaComplete, fun p hp => (hall p hp).deltaComplete⟩

/-! ### A revert below the head that pruned -/

/-- After block 1 of an extension that flushes every block and retains one row. -/
def windowStart : Tracked :=
  (Tracked.start (.fresh ⟨1, 1⟩)).afterCommit sampleUbt (slotBlock block1 1) [slotEntry 1]

/-- The child of `block2`. -/
def block3 : Block := ⟨3, 13, 12⟩

/-- The child of `block3`. -/
def block4 : Block := ⟨4, 14, 13⟩

/-- After block 2, which changes the slot. -/
def windowSecond : Tracked :=
  (Tracked.start windowStart.machine).afterCommit sampleUbt (slotBlock block2 2) [slotEntry 2]

/-- After block 3, which does not. -/
def windowThird : Tracked := windowSecond.afterCommit sampleUbt (slotBlock block3 2) [slotEntry 2]

/-- After block 4, which prunes the row of block 2. -/
def windowFourth : Tracked := windowThird.afterCommit sampleUbt (slotBlock block4 2) [slotEntry 2]

/-- The chain of a single block. -/
def singleChain (block : Block) : Chain :=
  ⟨[block], .empty, Chain.single_ne_nil block, Chain.single_sorted block⟩

theorem windowStart_step : SingleStep sampleUbt (0, 0) (.start (.fresh ⟨1, 1⟩))
    (.commit [slotBlock block1 1] [slotEntry 1]) windowStart :=
  Tracked.afterCommit_step ⟨rfl, rfl, trivial⟩ (fun _ => rfl) (by decide +kernel)

theorem atCheckpoint_windowStart : AtCheckpoint windowStart.machine := by
  refine ChainStep.atCheckpoint (Following.start (m := .fresh ⟨1, 1⟩) rfl) ?_ windowStart_step.2
  intro b hb
  obtain rfl := Option.some.inj hb
  decide +kernel

theorem windowThird_run : Run (ChainStep sampleUbt windowStart.machine.tip) (.start windowStart.machine)
    [(windowSecond, .commit [slotBlock block3 2] [slotEntry 2]),
      (.start windowStart.machine, .commit [slotBlock block2 2] [slotEntry 2])] windowThird :=
  .snoc (.snoc .nil (Tracked.afterCommit_step ⟨rfl, rfl, trivial⟩ (fun _ => rfl)
    (by decide +kernel)).2) (Tracked.afterCommit_step ⟨rfl, rfl, trivial⟩ (fun _ => rfl)
    (by decide +kernel)).2

/-- The file of the blocks above block 1 is complete after block 3 is reverted. -/
theorem incremental_complete_third_reverted :
    DeltaComplete windowStart.machine.exex.db.value 1
      (windowThird.afterRevert sampleUbt (singleChain block3)).machine := by
  have hrun : Run (ChainStep sampleUbt windowStart.machine.tip) (.start windowStart.machine) _
      (windowThird.afterRevert sampleUbt (singleChain block3)) :=
    .snoc windowThird_run (Tracked.afterRevert_step rfl).2
  refine (incremental_complete atCheckpoint_windowStart hrun ?_ ?_).1 ?_
  · refine List.forall_mem_cons.mpr ⟨⟨1, rfl⟩, ?_⟩
    simp [WholeCommits]
  · refine List.forall_mem_cons.mpr ⟨⟨?_, ?_⟩, ?_⟩
    · intro b hb
      obtain rfl := List.mem_singleton.mp hb
      decide +kernel
    · exact ⟨by simp [singleChain], trivial⟩
    · simp [RowsFound]
  · intro head _ _
    decide +kernel

/-- **A delta file misses a key**: block 2 changes a slot, block 4 prunes the row of
block 2 and is reverted; the request for blocks 2 and 3 is in the window of the
head again, and its file is empty. -/
theorem incremental_incomplete :
    ¬∀ (U : Ubt) (config : UbtConfig) (h₀ h : List (Tracked × Event)) (t₀ t : Tracked),
      Run (ChainStep U (0, 0)) (.start (.fresh config)) h₀ t₀ → AtCheckpoint t₀.machine →
      Run (ChainStep U t₀.machine.tip) (.start t₀.machine) h t →
      (∀ p ∈ h, WholeCommits p.1 p.2) →
        DeltaComplete t₀.machine.exex.db.value t₀.machine.exex.lastBlock t.machine := by
  intro hall
  have hrun : Run (ChainStep sampleUbt windowStart.machine.tip) (.start windowStart.machine) _
      (windowFourth.afterRevert sampleUbt (singleChain block4)) :=
    .snoc (.snoc windowThird_run (Tracked.afterCommit_step ⟨rfl, rfl, trivial⟩ (fun _ => rfl)
      (by decide +kernel)).2) (Tracked.afterRevert_step rfl).2
  have hcomplete := hall sampleUbt ⟨1, 1⟩ _ _ _ _ (.snoc .nil windowStart_step.2)
    atCheckpoint_windowStart hrun (by
      refine List.forall_mem_cons.mpr ⟨⟨1, rfl⟩, ?_⟩
      simp [WholeCommits])
  set m := (windowFourth.afterRevert sampleUbt (singleChain block4)).machine with hm
  have hlast : windowStart.machine.exex.lastBlock = 1 := by decide +kernel
  have hnumber : m.exex.db.loadHead.map UbtHead.blockNumber = some 3 := by decide +kernel
  obtain ⟨head, hload, hthree⟩ := Option.map_eq_some_iff.mp hnumber
  have hkeys : deltaKeys m.exex.db 2 3 = [] := by decide +kernel
  have hretention : m.exex.deltaRetention = 1 := by decide +kernel
  have hexport := (@getStateDelta_fixed_ok_iff 2 3 0 1 m.exex.toDisk (fun _ => none) _ _).mpr
    ⟨head, hload, by decide, Nat.le_of_eq hthree.symm, by omega, by simp [hkeys], rfl, rfl⟩
  rw [hlast] at hcomplete
  have hfile := hcomplete head hload (by omega) 0 (fun _ => none) _ _ (by
    rw [hthree, hretention]
    exact hexport)
  obtain ⟨entries, hfile, hvalue⟩ := hfile
  -- the file has no records
  rw [hkeys, hthree, ExportEnv.dir_put, if_pos rfl] at hfile
  have hlength := congrArg List.length (Option.some.inj hfile)
  rw [length_stateBytes, length_stateBytes] at hlength
  obtain rfl : entries = [] := by simpa [stateEntrySize] using hlength
  have hslot := congrFun hvalue (slotKey 7 1)
  revert hslot
  decide +kernel

end UbtExex
