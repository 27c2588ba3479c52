import UbtExex.Follow

/-!
# Reorganisations

Whether the state seen through `get_stem` follows the canonical chain.  A commit of
a chain stores one undo log, under the number of its newest block, and a revert
applies the rows stored under the numbers of the blocks it is given.  So the state
follows the chain as long as reverts find the rows that the commits recorded and do
not cut a commit whose remaining blocks changed a value.

## Main definitions

* `Converged` — the machine's state is that of its ledger, which can be undone.
* `RevertRecorded`, `NoteRecorded` — the condition on a revert, before it is made.

## Main results

* `Converged.step` — one commit or revert that meets the condition.
* `Converged.logical_revert_iff` — that a clean cut is also needed.
* `reorg_convergence` — **every run whose reverts meet the condition follows the
  canonical chain.**
* `reorg_cuts_commit` — a revert that cuts a commit does not.
-/

open Std

namespace UbtExex

/-! ### One step -/

/-- The machine's state is the last-write-wins fold of the canonical blocks. -/
structure Converged (base : ℕ × B256) (σ₀ : TreeKey → B256) (t : Tracked) : Prop extends
    Following base t where
  logical : t.machine.exex.logical = stateAfter σ₀ t.ledger.blocks
  undoable : t.ledger.Undoable σ₀

/-- The rows stored for the blocks of `old` are those their commits recorded, and the
blocks kept of a commit that `old` cuts changed no value. -/
def RevertRecorded (σ₀ : TreeKey → B256) (t : Tracked) (old : Chain) : Prop :=
  t.ledger.RowsRecorded t.machine.exex.db old.blocks.length ∧
    t.ledger.CutClean σ₀ old.blocks.length

/-- The rows of the reverted blocks are those their commits recorded. -/
def RowsFound (t : Tracked) : Event → Prop
  | .commit _ _ => True
  | .revert old => t.ledger.RowsRecorded t.machine.exex.db old.blocks.length

/-- The condition on a commit or a revert: none on a commit. -/
def EventRecorded (σ₀ : TreeKey → B256) (t : Tracked) : Event → Prop
  | .commit _ _ => True
  | .revert old => RevertRecorded σ₀ t old

/-- The condition on a notification. -/
def NoteRecorded (σ₀ : TreeKey → B256) (t : Tracked) : Notification → Prop
  | .chainCommitted _ => True
  | .chainReorged old _ => RevertRecorded σ₀ t old
  | .chainReverted old => RevertRecorded σ₀ t old

/-- A notification that reverts no more blocks than deltas are retained for. -/
def Shallow (t : Tracked) : Notification → Prop
  | .chainCommitted _ => True
  | .chainReorged old _ => old.blocks.length ≤ t.machine.exex.deltaRetention
  | .chainReverted old => old.blocks.length ≤ t.machine.exex.deltaRetention

variable {U : Ubt} {base : ℕ × B256} {σ₀ : TreeKey → B256}

/-- The undo log of a commit takes its state back. -/
theorem applyAll_pendingUndo (s : UbtExEx) :
    Writes.applyAll (Writes.applyAll s.logical s.pendingWrites)
      (s.pendingUndo.reverse.map deltaWrite) = s.logical := by
  unfold UbtExEx.pendingUndo
  rw [List.map_reverse, map_deltaWrite_undoDeltas, Writes.applyAll_undoLog_reverse]

theorem pendingWrites_push {m : Machine} (h : m.exex.pendingEntries = [])
    (es : List PendingEntry) : (m.push es).exex.pendingWrites = es.map PendingEntry.write := by
  unfold UbtExEx.pendingWrites Machine.push
  rw [Machine.exex_update, h, List.nil_append]

/-- **A revert that finds the recorded rows takes the state to that of the remaining
blocks exactly when it cuts cleanly.** -/
theorem Converged.logical_revert_iff {t : Tracked} {old : Chain} {m' : Machine}
    (hc : Converged base σ₀ t) (hrows : t.ledger.RowsRecorded t.machine.exex.db old.blocks.length)
    (hold : (t.ledger.blocks.take old.blocks.length).map CanonicalBlock.block = old.blocks.reverse)
    (hrun : revert U old t.machine = .ok () m') :
    m'.exex.logical = stateAfter σ₀ (t.ledger.blocks.drop old.blocks.length) ↔
      t.ledger.CutClean σ₀ old.blocks.length := by
  have hr := revert_ok U hrun
  rw [Ledger.cutClean_iff, hr.logical, numbers_reverted hold, hc.logical,
    Ledger.applyAll_storedUndo hc.undoable hc.linked hrows]

/-- **A commit, and a revert that meets the condition, keep to the canonical chain.** -/
theorem Converged.step {t t' : Tracked} {e : Event} (hc : Converged base σ₀ t)
    (hcond : EventRecorded σ₀ t e) (hs : ChainStep U base t e t') : Converged base σ₀ t' := by
  have hf := hc.toFollowing.step hs
  cases hs with
  | @commit m m' L hi b bs es root hlink hwrites hrun =>
    have hcom := commit_ok U hrun
    have hlogical : m'.exex.logical = stateAfter σ₀ (b :: bs ++ L.blocks) := by
      rw [hcom.logical, pendingWrites_push hc.pending, Writes.applyAll_congr hwrites,
        stateAfter_append, ← hc.logical]
      rfl
    -- the undo log was taken over the state before, which is that of the ledger
    refine ⟨hf, hlogical, List.cons_ne_nil _ _, ?_, hc.undoable⟩
    change Writes.applyAll (stateAfter σ₀ (b :: bs ++ L.blocks)) _ = stateAfter σ₀ L.blocks
    rw [← hlogical, hcom.logical, applyAll_pendingUndo, ← hc.logical]
    rfl
  | @revert m m' L hi old hold hrun =>
    obtain ⟨hrows, hcut⟩ := hcond
    -- what the rows undo is whole commits; the cut says that this is enough
    refine ⟨hf, ?_, hc.undoable.dropBlocks hcut⟩
    rw [L.blocks_dropBlocks]
    exact (hc.logical_revert_iff hrows hold hrun).mpr hcut

/-- **A notification that meets the condition keeps to the canonical chain.** -/
theorem Converged.noteStep {t t' : Tracked} {note : Notification} (hc : Converged base σ₀ t)
    (hcond : NoteRecorded σ₀ t note) (hs : NoteStep U base t note t') : Converged base σ₀ t' := by
  cases hs with
  | chainCommitted _ hstep => exact hc.step (e := .commit _ _) trivial hstep
  | chainReorged hold _ hstep =>
    have hc₁ := hc.step (e := .revert _) hcond hold
    exact hc₁.step (e := .commit _ _) trivial hstep
  | chainReverted hold => exact hc.step (e := .revert _) hcond hold

theorem Converged.start {m : Machine} (h : m.exex.pendingEntries = []) :
    Converged m.tip m.exex.logical (.start m) :=
  ⟨.start h, rfl, trivial⟩

/-! ### Runs -/

/-- **In every run whose reverts find the recorded rows and cut commits cleanly, the
state seen through `get_stem` is, after each notification, the last-write-wins fold
of the canonical blocks over the initial state.** -/
theorem reorg_convergence {m₀ : Machine} {h : List (Tracked × Notification)} {t : Tracked}
    (hpending : m₀.exex.pendingEntries = [])
    (hrun : Run (NoteStep U m₀.tip) (.start m₀) h t)
    (hrecorded : ∀ p ∈ h, NoteRecorded m₀.exex.logical p.1 p.2) :
    t.machine.exex.logical = stateAfter m₀.exex.logical t.ledger.blocks ∧
      ∀ p ∈ h, p.1.machine.exex.logical = stateAfter m₀.exex.logical p.1.ledger.blocks := by
  obtain ⟨hlast, hall⟩ := hrun.invariant (Converged.start hpending)
    (fun s e s' hs hcond hstep => hs.noteStep hcond hstep) hrecorded
  exact ⟨hlast.logical, fun p hp => (hall p hp).logical⟩

/-! ### A run that commits two blocks as one chain and reverts the second -/

/-- The machine of a fresh start that flushes every block. -/
def reorgStart : Machine := .fresh ⟨1, 10⟩

/-- The chain of `block1` and `block2`, whose bundle ends with `value` in slot 1. -/
def pairChain (value : U256) : Chain :=
  ⟨[block1, block2], slotBundle 7 1 value, by decide, by decide⟩

/-- The chain of `block2` alone. -/
def secondChain : Chain := ⟨[block2], .empty, by decide, by decide⟩

/-- The two blocks with their writes, newest first. -/
def pairBlocks (ws₁ ws₂ : List (TreeKey × B256)) : List CanonicalBlock :=
  [⟨block2, ws₂⟩, ⟨block1, ws₁⟩]

/-- The state after the chain of two blocks is committed. -/
def pairCommitted (value : U256) (ws₁ ws₂ : List (TreeKey × B256)) : Tracked where
  machine := (commitEntries sampleUbt 2 12 (chainEntries sampleUbt (pairChain value).bundle)
    reorgStart).state
  ledger := [⟨pairBlocks ws₁ ws₂,
    (reorgStart.push (chainEntries sampleUbt (pairChain value).bundle)).exex.pendingUndo⟩]
  highest := 2

/-- The state after the second block is reverted. -/
def secondReverted (value : U256) (ws₁ ws₂ : List (TreeKey × B256)) : Tracked where
  machine := (revert sampleUbt secondChain (pairCommitted value ws₁ ws₂).machine).state
  ledger := (pairCommitted value ws₁ ws₂).ledger.dropBlocks 1
  highest := 2

theorem pairCommitted_step {value : U256} {ws₁ ws₂ : List (TreeKey × B256)}
    (hok : (commitEntries sampleUbt 2 12 (chainEntries sampleUbt (pairChain value).bundle)
      reorgStart).isOk = true)
    (hwrites : ∀ key, Writes.lastWrite ((chainEntries sampleUbt (pairChain value).bundle).map
      PendingEntry.write) key = Writes.lastWrite (ws₁ ++ ws₂) key) :
    NoteStep sampleUbt (0, 0) (.start reorgStart) (.chainCommitted (pairChain value))
      (pairCommitted value ws₁ ws₂) := by
  obtain ⟨root, hrun⟩ := EStateM.Result.exists_ok hok
  have hw : blockWrites (pairBlocks ws₁ ws₂) = ws₁ ++ ws₂ := by
    simp [blockWrites, pairBlocks]
  have hblocks : (pairBlocks ws₁ ws₂).map CanonicalBlock.block = (pairChain value).blocks.reverse :=
    rfl
  have hlink : Linked (tipOf (0, 0) (Tracked.start reorgStart).ledger.blocks)
      (pairBlocks ws₁ ws₂) := ⟨rfl, rfl, rfl, rfl, trivial⟩
  refine .chainCommitted hblocks (.commit hlink (fun key => ?_) hrun)
  exact (hwrites key).trans (congrArg (fun ws => Writes.lastWrite ws key) hw.symm)

theorem secondReverted_step (value : U256) (ws₁ ws₂ : List (TreeKey × B256)) :
    NoteStep sampleUbt (0, 0) (pairCommitted value ws₁ ws₂) (.chainReverted secondChain)
      (secondReverted value ws₁ ws₂) :=
  .chainReverted (.revert rfl (revert_eq_ok sampleUbt _ _))

/-- The run of the two notifications. -/
theorem pairRun {value : U256} {ws₁ ws₂ : List (TreeKey × B256)}
    (hok : (commitEntries sampleUbt 2 12 (chainEntries sampleUbt (pairChain value).bundle)
      reorgStart).isOk = true)
    (hwrites : ∀ key, Writes.lastWrite ((chainEntries sampleUbt (pairChain value).bundle).map
      PendingEntry.write) key = Writes.lastWrite (ws₁ ++ ws₂) key) :
    Run (NoteStep sampleUbt reorgStart.tip) (.start reorgStart)
      [(pairCommitted value ws₁ ws₂, .chainReverted secondChain),
        (.start reorgStart, .chainCommitted (pairChain value))]
      (secondReverted value ws₁ ws₂) :=
  .snoc (.snoc .nil (pairCommitted_step hok hwrites)) (secondReverted_step value ws₁ ws₂)

/-- The condition holds of a run whose first block wrote nothing. -/
theorem reorg_convergence_clean_cut :
    (secondReverted 2 [] [(slotKey 7 1, 2)]).machine.exex.logical =
      stateAfter reorgStart.exex.logical (secondReverted 2 [] [(slotKey 7 1, 2)]).ledger.blocks :=
  (reorg_convergence rfl (pairRun (by decide) fun _ => rfl) (by
    refine List.forall_mem_cons.mpr ⟨⟨⟨?_, trivial⟩, ⟨fun _ _ => rfl, trivial⟩⟩, ?_⟩
    · decide
    · exact List.forall_mem_cons.mpr ⟨trivial, by simp⟩)).1

/-- **A revert that cuts a commit undoes the whole commit**: after blocks 1 and 2 are
committed as one chain and block 2 is reverted, slot 1 does not hold the value that
block 1 gave it. -/
theorem reorg_cuts_commit :
    ¬∀ (U : Ubt) (m₀ : Machine) (h : List (Tracked × Notification)) (t : Tracked),
      m₀.exex.pendingEntries = [] → Run (NoteStep U m₀.tip) (.start m₀) h t →
      (∀ p ∈ h, Shallow p.1 p.2) →
      t.machine.exex.logical = stateAfter m₀.exex.logical t.ledger.blocks := by
  intro hall
  have hwrites : ∀ key, Writes.lastWrite ((chainEntries sampleUbt (pairChain 2).bundle).map
      PendingEntry.write) key =
      Writes.lastWrite ([(slotKey 7 1, 1)] ++ [(slotKey 7 1, 2)]) key := by
    intro key
    -- the bundle has the last value of slot 1, the blocks have both
    by_cases hk : slotKey 7 1 = key
    · subst hk
      decide
    · rw [Writes.lastWrite_eq_none.mpr, Writes.lastWrite_eq_none.mpr]
      · simpa using hk
      · simpa [chainEntries, accountEntries, storageEntries, pairChain, slotBundle,
          PendingEntry.write, slotKey, u256ToB256] using hk
  have h := hall sampleUbt reorgStart _ _ rfl (pairRun (by decide) hwrites)
    (List.forall_mem_cons.mpr ⟨(by decide : 1 ≤ (pairCommitted 2 [(slotKey 7 1, 1)]
      [(slotKey 7 1, 2)]).machine.exex.deltaRetention), List.forall_mem_cons.mpr ⟨trivial, by simp⟩⟩)
  have hkey := congrFun h (slotKey 7 1)
  revert hkey
  decide

end UbtExex
