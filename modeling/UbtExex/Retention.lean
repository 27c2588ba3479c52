import UbtExex.NomtLog
import UbtExex.Owned

/-!
# What retention keeps

A flush prunes the delta rows that are more than the retention window below its
block.  Whatever a run does, the rows it prunes are exactly too old, and a canonical
block whose commit changed a value keeps its undo log as long as it is within the
window of the greatest block ever flushed: rows are only overwritten by a new commit
of their number, deleted with their block, or pruned.

## Main definitions

* `RowsKept` — the retained undo logs that are not empty are in the table.
* `RetentionSound` — what holds of the delta table in every state of a run.

## Main results

* `rowsKept_step` — **one step keeps the undo logs in the window.**
* `retention_sound` — **a flush leaves nothing older than the window, and a revert
  finds the undo data of every block within it.**
-/

open Std

namespace UbtExex

variable {U : Ubt} {base : ℕ × B256}

/-! ### What is kept -/

/-- The undo log that the last commit of a canonical block found is its row, if it is
not empty and the block is within the window of the greatest flushed block. -/
def RowsKept (t : Tracked) : Prop :=
  ∀ c ∈ t.ledger, c.undo ≠ [] → ∀ b ∈ c.blocks,
    t.highest ≤ b.block.number + t.machine.exex.deltaRetention →
      t.machine.exex.db.loadBlockDeltas b.block.number = c.undo

/-- The rows are kept, every commit has one block, and the machine is at the tip. -/
structure Retaining (base : ℕ × B256) (retention : ℕ) (t : Tracked) : Prop extends
    Following base t where
  single : ∀ c ∈ t.ledger, c.blocks.length = 1
  retention : t.machine.exex.deltaRetention = retention
  kept : RowsKept t

/-- **One step keeps the undo logs in the window.** -/
theorem rowsKept_step {t t' : Tracked} {e : Event} {R : ℕ} (ht : Retaining base R t)
    (hs : SingleStep U base t e t') : Retaining base R t' := by
  obtain ⟨hsingle, hs⟩ := hs
  have hf := ht.toFollowing.step hs
  cases hs with
  | @commit m m' L hi b bs es root hlink hwrites hrun =>
    obtain rfl : bs = [] := List.length_eq_zero_iff.mp (Nat.succ.inj hsingle)
    have hc := commit_ok U hrun
    have hR : m'.exex.deltaRetention = m.exex.deltaRetention := hc.deltaRetention
    refine ⟨hf, List.forall_mem_cons.mpr ⟨rfl, ht.single⟩, hR.trans ht.retention,
      List.forall_mem_cons.mpr ⟨?_, ?_⟩⟩
    · -- the new row is the undo log of the commit
      intro hne b' hb' _
      obtain rfl := List.mem_singleton.mp hb'
      exact (hc.row U).trans (if_neg hne)
    -- `highest` only grows, so a block in the new window was in the old one
    · intro c hcL hne b' hb' hwin
      change _ ≤ b'.block.number + m'.exex.deltaRetention at hwin
      rw [hR] at hwin
      obtain ⟨hwin', hrow⟩ := row_stays_commit ht.linked hlink hrun hcL hb' hwin
      exact hrow.trans (ht.kept c hcL hne b' hb' hwin')
  | @revert m m' L hi old hold hrun =>
    have hR : m'.exex.deltaRetention = m.exex.deltaRetention := (revert_ok U hrun).deltaRetention
    refine ⟨hf, fun c hc => ht.single c (Ledger.mem_of_mem_dropBlocks ht.single c hc),
      hR.trans ht.retention, ?_⟩
    -- a revert deletes only rows of the blocks it takes back, which leave the ledger
    intro c hc hne b hb hwin
    change hi ≤ b.block.number + m'.exex.deltaRetention at hwin
    rw [hR] at hwin
    exact (row_stays_revert ht.linked hold hrun hc hb).trans
      (ht.kept c (Ledger.mem_of_mem_dropBlocks ht.single c hc) hne b hb hwin)

theorem Retaining.limitLog {t : Tracked} {R : ℕ} (h : Retaining base R t) (limit : Option ℕ) :
    Retaining base R (t.limitLog limit) :=
  ⟨⟨h.pending, h.linked, h.tip, h.nonempty⟩, h.single, h.retention, h.kept⟩

/-! ### What is pruned -/

theorem getElem?_retainDeltas (db : UbtDatabase) {n retention k : ℕ} (hk : k < n - retention) :
    (retainDeltas db n retention).blockDeltas[k]? = none := by
  unfold retainDeltas
  rw [if_pos (by omega)]
  unfold UbtDatabase.pruneDeltasBefore
  dsimp only
  rw [Tables.getElem?_eraseAll]
  cases hrow : db.blockDeltas[k]? with
  | none => exact ite_self _
  | some ds =>
    rw [if_pos]
    refine List.mem_filter.mpr ⟨?_, by simpa using hk⟩
    exact List.mem_map.mpr ⟨(k, ds), ExtTreeMap.mem_toList_iff_getElem?_eq_some.mpr hrow, rfl⟩

/-- **A commit that flushes leaves no row older than the window of its block.** -/
theorem no_row_of_flush {n : ℕ} {hash : B256} {m m' : Machine} {root : B256}
    (h : commit U n hash m = .ok root m') (hflush : m.exex.shouldFlush n = true) {k : ℕ}
    (hk : k < n - m.exex.deltaRetention) : m'.exex.db.blockDeltas[k]? = none := by
  obtain ⟨db, keyIndex, j, -, -, he, -⟩ := commit_effect U h
  rw [he]
  unfold committed
  rw [if_pos hflush]
  exact getElem?_retainDeltas _ hk

/-! ### What a revert finds -/

/-- The part of `revert` that precedes the turn of a block: the NOMT rollback, and the
blocks of higher numbers. -/
def revertAbove (old : Chain) (numbers : List ℕ) : ExM Unit := do
  persist .nomtRollback fun d =>
    { d with nomt := (d.nomt.rollback old.blocks.length).getD d.nomt }
  numbers.forM revertBlock

/-- When the turn of a block comes its row is what it was before the revert. -/
theorem row_revertAbove {old : Chain} {above below : List ℕ} {n : ℕ}
    (hold : old.numbersDescending = above ++ n :: below) (m : Machine) :
    ∃ m₁, revertAbove old above m = .ok () m₁ ∧
      m₁.exex.db.loadBlockDeltas n = m.exex.db.loadBlockDeltas n := by
  have hnd := old.nodup_numbersDescending
  rw [hold, List.nodup_append] at hnd
  obtain ⟨habove, -, hapart⟩ := hnd
  unfold revertAbove
  rw [persist_bind_apply]
  obtain ⟨m₁, hrun, hundone⟩ := revertBlocks_spec above habove
    (m.persist .nomtRollback fun d =>
      { d with nomt := (d.nomt.rollback old.blocks.length).getD d.nomt })
  refine ⟨m₁, hrun, ?_⟩
  -- the blocks above have other numbers, so their rows were others
  rw [hundone.rows, if_neg fun h => hapart n h.1 n List.mem_cons_self rfl]
  rfl

/-! ### Runs -/

/-- What holds of the delta table in every state of a run with a given retention:
after a further commit that flushes no row below its window is left; the undo logs in
the window are kept; and a revert finds those of the blocks it takes back. -/
structure RetentionSound (U : Ubt) (base : ℕ × B256) (retention : ℕ) (t : Tracked) : Prop where
  pruned : ∀ b es t', SingleStep U base t (.commit [b] es) t' →
    t.machine.exex.shouldFlush b.block.number = true → b.block.number > retention →
      ∀ k, k < b.block.number - retention → t'.machine.exex.db.blockDeltas[k]? = none
  kept : ∀ c ∈ t.ledger, c.undo ≠ [] → ∀ b ∈ c.blocks,
    t.highest ≤ b.block.number + retention →
      t.machine.exex.db.loadBlockDeltas b.block.number = c.undo
  found : ∀ old t', SingleStep U base t (.revert old) t' →
    ∀ c ∈ t.ledger, c.undo ≠ [] → ∀ b ∈ c.blocks, t.highest ≤ b.block.number + retention →
      ∀ above below, old.numbersDescending = above ++ b.block.number :: below →
        ∃ m₁, revertAbove old above t.machine = .ok () m₁ ∧
          m₁.exex.db.loadBlockDeltas b.block.number = c.undo

theorem Retaining.sound {t : Tracked} {R : ℕ} (ht : Retaining base R t) :
    RetentionSound U base R t := by
  have hkept : ∀ c ∈ t.ledger, c.undo ≠ [] → ∀ b ∈ c.blocks, t.highest ≤ b.block.number + R →
      t.machine.exex.db.loadBlockDeltas b.block.number = c.undo := by
    intro c hc hne b hb hwin
    rw [← ht.retention] at hwin
    exact ht.kept c hc hne b hb hwin
  refine ⟨?_, hkept, ?_⟩
  · rintro b es t' ⟨-, hs⟩ hflush - k hk
    rw [← ht.retention] at hk
    cases hs with
    | commit hlink hwrites hrun => exact no_row_of_flush hrun hflush hk
  · intro old t' _ c hc hne b hb hwin above below hold
    obtain ⟨m₁, hrun, hrow⟩ := row_revertAbove hold t.machine
    exact ⟨m₁, hrun, hrow.trans (hkept c hc hne b hb hwin)⟩

/-- **Retention keeps what a reorg needs and nothing older.**  In every state of every
run of commits of one block and reverts, with any flush interval and any retention, and
whatever was flushed before the run: a commit that flushes leaves no row below the window
of its block; the undo log of each canonical block in the window of the greatest flushed
block is its row, if it is not empty; and a revert finds it there. -/
theorem retention_sound {m₀ : Machine} {flushedBefore : ℕ} {h : List (Tracked × Event)}
    {t : Tracked} (hpending : m₀.exex.pendingEntries = [])
    (hrun : Run (SingleStep U m₀.tip) ⟨m₀, [], flushedBefore⟩ h t) :
    RetentionSound U m₀.tip m₀.exex.deltaRetention t ∧
      ∀ p ∈ h, RetentionSound U m₀.tip m₀.exex.deltaRetention p.1 := by
  have h₀ : Retaining m₀.tip m₀.exex.deltaRetention ⟨m₀, [], flushedBefore⟩ := by
    refine ⟨⟨hpending, trivial, rfl, ?_⟩, ?_, rfl, ?_⟩
    · intro c hc
      cases hc
    · intro c hc
      cases hc
    · intro c hc
      cases hc
  obtain ⟨ht, hpast⟩ := hrun.invariant h₀
    (fun _ _ _ hi (_ : True) hs => rowsKept_step hi hs) fun _ _ => trivial
  exact ⟨ht.sound, fun p hp => (hpast p hp).sound⟩

/-- After two of three blocks, when every block is flushed and one row is retained. -/
def prunedSecond : Tracked :=
  ((Tracked.start (.fresh ⟨1, 1⟩)).afterCommit sampleUbt (slotBlock block1 1)
    [slotEntry 1]).afterCommit sampleUbt (slotBlock block2 2) [slotEntry 2]

/-- After the third. -/
def prunedThird : Tracked :=
  prunedSecond.afterCommit sampleUbt (slotBlock ⟨3, 13, 12⟩ 3) [slotEntry 3]

/-- The chain of the third block alone. -/
def prunedChain : Chain :=
  ⟨[⟨3, 13, 12⟩], .empty, Chain.single_ne_nil _, Chain.single_sorted _⟩

theorem prunedThird_run : Run (SingleStep sampleUbt (0, 0)) (.start (.fresh ⟨1, 1⟩))
    [(prunedThird, .revert prunedChain),
      (prunedSecond, .commit [slotBlock ⟨3, 13, 12⟩ 3] [slotEntry 3]),
      ((Tracked.start (.fresh ⟨1, 1⟩)).afterCommit sampleUbt (slotBlock block1 1) [slotEntry 1],
        .commit [slotBlock block2 2] [slotEntry 2]),
      (.start (.fresh ⟨1, 1⟩), .commit [slotBlock block1 1] [slotEntry 1])]
    (prunedThird.afterRevert sampleUbt prunedChain) := by
  refine .snoc (.snoc (.snoc (.snoc .nil ?_) ?_) ?_) (Tracked.afterRevert_step rfl)
  · exact Tracked.afterCommit_step ⟨rfl, rfl, trivial⟩ (fun _ => rfl) (by decide +kernel)
  · exact Tracked.afterCommit_step ⟨rfl, rfl, trivial⟩ (fun _ => rfl) (by decide +kernel)
  · exact Tracked.afterCommit_step ⟨rfl, rfl, trivial⟩ (fun _ => rfl) (by decide +kernel)

/-- The third block prunes the row of the first, and is reverted by its own. -/
theorem retention_sound_pruned :
    (prunedSecond.machine.exex.db.blockDeltas[1]?.isSome = true ∧
      prunedThird.machine.exex.db.blockDeltas[1]? = none ∧
      prunedThird.machine.exex.db.loadBlockDeltas 3 ≠ []) ∧
    RetentionSound sampleUbt (0, 0) 1 prunedThird ∧
      RetentionSound sampleUbt (0, 0) 1 (prunedThird.afterRevert sampleUbt prunedChain) := by
  obtain ⟨hlast, hall⟩ := @retention_sound sampleUbt (.fresh ⟨1, 1⟩) 0 _ _ rfl prunedThird_run
  refine ⟨?_, hall _ List.mem_cons_self, hlast⟩
  decide +kernel

end UbtExex
