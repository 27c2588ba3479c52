import UbtExex.Commits

/-!
# Reverts in pieces

A reverted chain may be delivered in one notification or, newest blocks first, in
several.  The deltas are applied in the same order either way, but a revert of a
persisted block writes a checkpoint, so the pieces may write several of them and lower
the persisted block in between, and each piece rolls NOMT back on its own.  The
extension ends the same, field by field, as long as NOMT has the history.

## Main definitions

* `undoBlock`, `reverted` — a revert as a function of the extension.
* `UbtExEx.checkpointed` — the extension after a checkpoint of its block.

## Main results

* `revert_eq` — the effect of a revert.
* `reverted_pieces` — **two pieces leave what the whole leaves, up to NOMT.**
* `revert_in_pieces` — **a chain may be reverted in any pieces**; in two pieces exactly
  if NOMT has the history for both, or for neither.
-/

open Std

namespace UbtExex

/-! ### A revert as a function -/

/-- The extension after the deltas of a block are applied, and deleted if the block was
never persisted. -/
def undoBlock (s : UbtExEx) (n : ℕ) : UbtExEx :=
  { s with
    dirtyStems := (s.db.loadBlockDeltas n).reverse.foldl (applyDelta s.db) s.dirtyStems
    db := if n > s.lastPersistedBlock then s.db.deleteBlockDeltas n else s.db }

theorem revertBlock_eq (n : ℕ) (m : Machine) :
    ∃ m', revertBlock n m = .ok () m' ∧ m'.exex = undoBlock m.exex n := by
  unfold revertBlock applyDeltasReverse undoBlock
  rw [get_bind_apply, update_bind_apply]
  by_cases hp : n > m.exex.lastPersistedBlock
  · rw [if_pos hp, if_pos hp]
    exact ⟨_, rfl, rfl⟩
  · rw [if_neg hp, if_neg hp]
    exact ⟨_, rfl, rfl⟩

theorem revertBlocks_eq (numbers : List ℕ) (m : Machine) :
    ∃ m', numbers.forM revertBlock m = .ok () m' ∧ m'.exex = numbers.foldl undoBlock m.exex :=
  EStateM.forM_eq_ok Machine.exex revertBlock_eq numbers m

variable (U : Ubt)

/-- The extension after its overlay, its root and its block are persisted. -/
def UbtExEx.checkpointed (s : UbtExEx) : UbtExEx :=
  let db := s.db.batchUpdateStems s.dirtyStems.toList
  let root := computeRoot U db
  { s with
    db := db.saveHead ⟨s.lastBlock, s.lastHash, root, s.stemCount⟩
    dirtyStems := ∅
    lastPersistedBlock := s.lastBlock
    lastPersistedHash := s.lastHash
    lastRoot := root }

/-- The extension after the deltas of a chain, before its checkpoint. -/
def unwound (s : UbtExEx) (old : Chain) : UbtExEx :=
  { old.numbersDescending.foldl undoBlock s with
    nomt := s.nomt.tryRollback old.blocks.length
    lastBlock := old.first.number - 1
    lastHash := old.revertHash }

/-- Some block of the chain is persisted. -/
def reachesPersisted (s : UbtExEx) (old : Chain) : Bool :=
  old.blocks.any fun b => b.number ≤ s.lastPersistedBlock

/-- The extension after a revert. -/
def reverted (s : UbtExEx) (old : Chain) : UbtExEx :=
  if reachesPersisted s old then (unwound s old).checkpointed U else unwound s old

/-- Undoing blocks changes the overlay and the delta rows only. -/
theorem undoBlocks_frame (numbers : List ℕ) (s : UbtExEx) :
    ∃ dirty rows, numbers.foldl undoBlock s =
      { s with dirtyStems := dirty, db := { s.db with blockDeltas := rows } } := by
  induction numbers generalizing s with
  | nil => exact ⟨_, _, rfl⟩
  | cons n ns ih =>
    obtain ⟨dirty, rows, he⟩ := ih (undoBlock s n)
    refine ⟨dirty, rows, ?_⟩
    rw [List.foldl_cons, he]
    unfold undoBlock
    split <;> rfl

/-- NOMT and the last block are not read. -/
theorem undoBlocks_with (numbers : List ℕ) (s : UbtExEx) (nomt : Nomt) (n : ℕ) (hash : B256) :
    numbers.foldl undoBlock { s with nomt := nomt, lastBlock := n, lastHash := hash } =
      { numbers.foldl undoBlock s with nomt := nomt, lastBlock := n, lastHash := hash } := by
  induction numbers generalizing s with
  | nil => rfl
  | cons k ks ih => exact ih (undoBlock s k)

/-- **The effect of a revert.** -/
theorem revert_eq (old : Chain) (m : Machine) :
    ∃ m', revert U old m = .ok () m' ∧ m'.exex = reverted U m.exex old := by
  let m₁ := m.persist .nomtRollback fun d =>
    { d with nomt := (d.nomt.rollback old.blocks.length).getD d.nomt }
  obtain ⟨m₂, hrun₂, he₂⟩ := revertBlocks_eq old.numbersDescending m₁
  obtain ⟨dirty, rows, hframe⟩ := undoBlocks_frame old.numbersDescending m.exex
  have he : m₂.exex = { old.numbersDescending.foldl undoBlock m.exex with
      nomt := m.exex.nomt.tryRollback old.blocks.length
      lastBlock := m.exex.lastBlock
      lastHash := m.exex.lastHash } :=
    he₂.trans (undoBlocks_with old.numbersDescending m.exex _ m.exex.lastBlock m.exex.lastHash)
  have hpersisted : m₂.exex.lastPersistedBlock = m.exex.lastPersistedBlock := by rw [he, hframe]
  let m₃ := m₂.update fun s =>
    { s with lastBlock := old.first.number - 1, lastHash := old.revertHash }
  have he₃ : m₃.exex = unwound m.exex old := by
    rw [Machine.exex_update, he]
    rfl
  unfold reverted reachesPersisted
  rw [revert_run U hrun₂ hpersisted]
  by_cases hany : (old.blocks.any fun b => b.number ≤ m.exex.lastPersistedBlock) = true
  · obtain ⟨root, m₄, hrun₄, hroot, he₄, -⟩ := saveCurrent_spec U m₃
    rw [if_pos hany, if_pos hany, bind_apply_of_ok hrun₄, update_apply]
    refine ⟨_, rfl, ?_⟩
    have hroot₄ : root = computeRoot U
        (m₃.exex.db.batchUpdateStems m₃.exex.dirtyStems.toList) := by
      rw [hroot]
      exact computeRoot_congr U (by rw [he₄]; rfl)
    rw [Machine.exex_update, he₄, hroot₄, he₃]
    rfl
  · rw [if_neg hany, if_neg hany]
    exact ⟨m₃, rfl, he₃⟩

/-! ### Two pieces -/

/-- What a checkpoint leaves of an extension: all but the stems, the head, the overlay and
the fields of the persisted block. -/
def UbtExEx.masked (s : UbtExEx) : UbtExEx :=
  { s with
    db := { s.db with stems := ∅, head := none }
    dirtyStems := ∅
    lastPersistedBlock := 0
    lastPersistedHash := 0
    lastRoot := 0 }

/-- A checkpoint with the given stems. -/
def UbtExEx.withStems (s : UbtExEx) (stems : ExtTreeMap Stem StemNode) : UbtExEx :=
  let db := { s.db with stems := stems }
  let root := computeRoot U db
  { s with
    db := db.saveHead ⟨s.lastBlock, s.lastHash, root, s.stemCount⟩
    lastPersistedBlock := s.lastBlock
    lastPersistedHash := s.lastHash
    lastRoot := root }

theorem checkpointed_eq (s : UbtExEx) :
    s.checkpointed U = s.masked.withStems U (drainedStems s) := rfl

/-- Draining layers that are read as one map gives one table. -/
theorem drainedStems_congr {s s' : UbtExEx}
    (h : ∀ stem, overlayStem s.db s.dirtyStems stem = overlayStem s'.db s'.dirtyStems stem) :
    drainedStems s = drainedStems s' := by
  apply ExtTreeMap.ext_getElem?
  intro stem
  have hread : ∀ t : UbtExEx, (drainedStems t)[stem]? = overlayStem t.db t.dirtyStems stem :=
    fun t => (overlayStem_empty _ stem).symm.trans (overlayStem_flush t.db t.dirtyStems stem)
  rw [hread, hread, h]

/-- **A checkpoint** depends on what is read through the overlay. -/
theorem checkpointed_congr {s s' : UbtExEx}
    (hstem : ∀ stem, overlayStem s.db s.dirtyStems stem = overlayStem s'.db s'.dirtyStems stem)
    (hmasked : s.masked = s'.masked) : s.checkpointed U = s'.checkpointed U := by
  rw [checkpointed_eq, checkpointed_eq, hmasked, drainedStems_congr hstem]

theorem foldl_applyDelta_congr {db db' : UbtDatabase} (ds : List Delta)
    {dirty dirty' : ExtTreeMap Stem StemNode}
    (h : ∀ stem, overlayStem db dirty stem = overlayStem db' dirty' stem) (stem : Stem) :
    overlayStem db (ds.foldl (applyDelta db) dirty) stem =
      overlayStem db' (ds.foldl (applyDelta db') dirty') stem := by
  induction ds generalizing dirty dirty' with
  | nil => exact h stem
  | cons d ds ih =>
    rw [List.foldl_cons, List.foldl_cons]
    apply ih
    intro stem'
    rw [applyDelta_eq, applyDelta_eq, overlayStem_writeStem, overlayStem_writeStem, h, h]

/-- Undoing persisted blocks deletes no row. -/
theorem undoBlocks_persisted {numbers : List ℕ} {s : UbtExEx}
    (h : ∀ n ∈ numbers, n ≤ s.lastPersistedBlock) :
    numbers.foldl undoBlock s =
      { s with
        dirtyStems := (numbers.flatMap fun n => (s.db.loadBlockDeltas n).reverse).foldl
          (applyDelta s.db) s.dirtyStems } := by
  induction numbers generalizing s with
  | nil => rfl
  | cons n ns ih =>
    obtain ⟨hn, hns⟩ := List.forall_mem_cons.mp h
    have hstep : undoBlock s n = { s with
        dirtyStems := (s.db.loadBlockDeltas n).reverse.foldl (applyDelta s.db) s.dirtyStems } := by
      unfold undoBlock
      rw [if_neg (by omega)]
    rw [List.foldl_cons, hstep, List.flatMap_cons, List.foldl_append]
    exact ih hns

/-- The extension after the deltas of a chain of persisted blocks. -/
theorem unwound_persisted {s : UbtExEx} {old : Chain}
    (h : ∀ b ∈ old.blocks, b.number ≤ s.lastPersistedBlock) :
    unwound s old = { s with
      dirtyStems := (old.numbersDescending.flatMap fun n =>
        (s.db.loadBlockDeltas n).reverse).foldl (applyDelta s.db) s.dirtyStems
      nomt := s.nomt.tryRollback old.blocks.length
      lastBlock := old.first.number - 1
      lastHash := old.revertHash } := by
  have hnumbers : ∀ n ∈ old.numbersDescending, n ≤ s.lastPersistedBlock := by
    intro n hn
    obtain ⟨b, hb, rfl⟩ := List.mem_map.mp (List.mem_reverse.mp hn)
    exact h b hb
  unfold unwound
  rw [undoBlocks_persisted hnumbers]

theorem reachesPersisted_of_forall {s : UbtExEx} {old : Chain}
    (h : ∀ b ∈ old.blocks, b.number ≤ s.lastPersistedBlock) : reachesPersisted s old = true :=
  List.any_eq_true.mpr ⟨_, List.head_mem old.blocks_ne_nil,
    decide_eq_true (h _ (List.head_mem old.blocks_ne_nil))⟩

section Pieces

variable {old lower upper : Chain}

theorem numbersDescending_append (h : old.blocks = lower.blocks ++ upper.blocks) :
    old.numbersDescending = upper.numbersDescending ++ lower.numbersDescending := by
  unfold Chain.numbersDescending
  rw [h, List.map_append, List.reverse_append]

theorem first_append (h : old.blocks = lower.blocks ++ upper.blocks) :
    old.first = lower.first := by
  unfold Chain.first
  simp only [h]
  exact List.head_append_of_ne_nil lower.blocks_ne_nil

/-- The blocks of the lower piece are below the first block of the upper one. -/
theorem lower_lt (h : old.blocks = lower.blocks ++ upper.blocks) {b : Block}
    (hb : b ∈ lower.blocks) : b.number < upper.first.number := by
  have hsorted := old.blocks_sorted
  rw [h] at hsorted
  exact (List.pairwise_append.mp hsorted).2.2 b hb _ (List.head_mem upper.blocks_ne_nil)

theorem reachesPersisted_append (h : old.blocks = lower.blocks ++ upper.blocks) (s : UbtExEx) :
    reachesPersisted s old = (reachesPersisted s lower || reachesPersisted s upper) := by
  unfold reachesPersisted
  rw [h, List.any_append]

/-- The deltas of the whole are those of the upper piece, then those of the lower one. -/
theorem unwound_append (h : old.blocks = lower.blocks ++ upper.blocks) (s : UbtExEx) :
    unwound s old = { lower.numbersDescending.foldl undoBlock
        (upper.numbersDescending.foldl undoBlock s) with
      nomt := s.nomt.tryRollback old.blocks.length
      lastBlock := lower.first.number - 1
      lastHash := lower.revertHash } := by
  unfold unwound Chain.revertHash
  rw [numbersDescending_append h, List.foldl_append, first_append h]

/-- The upper piece writes a checkpoint, and the lower one another over it. -/
theorem checkpointed_pieces (h : old.blocks = lower.blocks ++ upper.blocks) {s : UbtExEx}
    (hbelow : ∀ b ∈ lower.blocks, b.number ≤ s.lastPersistedBlock) :
    (unwound ((unwound s upper).checkpointed U) lower).checkpointed U =
      { (unwound s old).checkpointed U with
        nomt := (s.nomt.tryRollback upper.blocks.length).tryRollback lower.blocks.length } := by
  set u := upper.numbersDescending.foldl undoBlock s with hu
  have hpersisted : u.lastPersistedBlock = s.lastPersistedBlock := by
    obtain ⟨dirty, rows, he⟩ := undoBlocks_frame upper.numbersDescending s
    rw [hu, he]
  have hnumbers : ∀ n ∈ lower.numbersDescending, n ≤ u.lastPersistedBlock := by
    intro n hn
    obtain ⟨b, hb, rfl⟩ := List.mem_map.mp (List.mem_reverse.mp hn)
    rw [hpersisted]
    exact hbelow b hb
  have hbelow' : ∀ b ∈ lower.blocks,
      b.number ≤ ((unwound s upper).checkpointed U).lastPersistedBlock := by
    intro b hb
    have hlt := lower_lt h hb
    change b.number ≤ upper.first.number - 1
    omega
  rw [unwound_persisted hbelow', unwound_append h, ← hu, undoBlocks_persisted hnumbers]
  change _ = UbtExEx.checkpointed U { u with
    dirtyStems := (lower.numbersDescending.flatMap fun n =>
      (u.db.loadBlockDeltas n).reverse).foldl (applyDelta u.db) u.dirtyStems
    nomt := (s.nomt.tryRollback upper.blocks.length).tryRollback lower.blocks.length
    lastBlock := lower.first.number - 1
    lastHash := lower.revertHash }
  -- the stems of the first checkpoint are what was read through the overlay
  refine checkpointed_congr U (foldl_applyDelta_congr _ fun stem => ?_) rfl
  exact overlayStem_flush u.db u.dirtyStems stem

/-- **Two pieces leave what the whole leaves, up to NOMT.** -/
theorem reverted_pieces (h : old.blocks = lower.blocks ++ upper.blocks) (s : UbtExEx) :
    reverted U (reverted U s upper) lower = { reverted U s old with
      nomt := (s.nomt.tryRollback upper.blocks.length).tryRollback lower.blocks.length } := by
  by_cases hupper : reachesPersisted s upper = true
  · have hbelow : ∀ b ∈ lower.blocks, b.number ≤ s.lastPersistedBlock := by
      intro b hb
      obtain ⟨b', hb', hle⟩ := List.any_eq_true.mp hupper
      have hlt := lower_lt h hb
      have hfirst := upper.first_le hb'
      have hle' : b'.number ≤ s.lastPersistedBlock := of_decide_eq_true hle
      omega
    have hsecond : reachesPersisted ((unwound s upper).checkpointed U) lower = true := by
      refine reachesPersisted_of_forall fun b hb => ?_
      have hlt := lower_lt h hb
      change b.number ≤ upper.first.number - 1
      omega
    unfold reverted
    rw [if_pos hupper, if_pos hsecond, reachesPersisted_append h, hupper, Bool.or_true, if_pos rfl]
    exact checkpointed_pieces U h hbelow
  · -- the upper piece writes no checkpoint, so the persisted block stays
    have hsame : reachesPersisted (unwound s upper) lower = reachesPersisted s old := by
      obtain ⟨dirty, rows, he⟩ := undoBlocks_frame upper.numbersDescending s
      rw [reachesPersisted_append h, Bool.eq_false_iff.mpr hupper, Bool.or_false]
      unfold reachesPersisted unwound
      rw [he]
    have hunwound : unwound (unwound s upper) lower = { unwound s old with
        nomt := (s.nomt.tryRollback upper.blocks.length).tryRollback lower.blocks.length } := by
      rw [unwound_append h]
      unfold unwound
      rw [undoBlocks_with]
    unfold reverted
    rw [if_neg hupper, hsame, hunwound]
    split <;> rfl

end Pieces

/-! ### Any pieces -/

theorem nomt_reverted (s : UbtExEx) (old : Chain) :
    (reverted U s old).nomt = s.nomt.tryRollback old.blocks.length := by
  unfold reverted
  split <;> rfl

/-- Of a chain only the blocks matter. -/
theorem reverted_congr {old old' : Chain} (h : old.blocks = old'.blocks) (s : UbtExEx) :
    reverted U s old = reverted U s old' := by
  obtain ⟨blocks, bundle, hne, hsorted⟩ := old
  obtain ⟨blocks', bundle', hne', hsorted'⟩ := old'
  subst h
  rfl

/-- **Two pieces are one** exactly if NOMT has the history for both, or for neither. -/
theorem reverted_pieces_eq_iff {old lower upper : Chain}
    (h : old.blocks = lower.blocks ++ upper.blocks) (s : UbtExEx) :
    reverted U (reverted U s upper) lower = reverted U s old ↔
      old.blocks.length ≤ s.nomt.past.length ∨
        (s.nomt.past.length < upper.blocks.length ∧ s.nomt.past.length < lower.blocks.length) := by
  have hlength : old.blocks.length = upper.blocks.length + lower.blocks.length := by
    rw [h, List.length_append, Nat.add_comm]
  have hnomt := nomt_reverted U s old
  rw [reverted_pieces U h, hlength, ← Versioned.tryRollback_add_iff
    (List.length_pos_of_ne_nil upper.blocks_ne_nil) (List.length_pos_of_ne_nil lower.blocks_ne_nil),
    ← hlength, ← hnomt]
  constructor
  · intro heq
    exact congrArg (fun t : UbtExEx => t.nomt) heq
  · intro heq
    rw [heq]

/-- **A chain may be reverted in any pieces**, the newest first, if NOMT has its history. -/
theorem foldl_reverted {pieces : List Chain} {old : Chain} {s : UbtExEx}
    (h : old.blocks = pieces.reverse.flatMap Chain.blocks)
    (hhistory : old.blocks.length ≤ s.nomt.past.length) :
    pieces.foldl (reverted U) s = reverted U s old := by
  induction pieces generalizing old s with
  | nil => exact absurd h old.blocks_ne_nil
  | cons upper rest ih =>
    rw [List.reverse_cons, List.flatMap_append, List.flatMap_singleton] at h
    by_cases hrest : rest.reverse.flatMap Chain.blocks = []
    · -- no other piece has blocks, so there is none
      have hnil : rest = [] := by
        rcases rest with _ | ⟨c, cs⟩
        · rfl
        · have hc := List.flatMap_eq_nil_iff.mp hrest c (by simp)
          exact absurd hc c.blocks_ne_nil
      rw [hrest, List.nil_append] at h
      rw [hnil, reverted_congr U h]
      rfl
    · have hsorted := old.blocks_sorted
      rw [h] at hsorted
      let lower : Chain := ⟨rest.reverse.flatMap Chain.blocks, .empty, hrest,
        (List.pairwise_append.mp hsorted).1⟩
      have hlength : old.blocks.length = lower.blocks.length + upper.blocks.length := by
        rw [h, List.length_append]
      have hpast : lower.blocks.length ≤ (reverted U s upper).nomt.past.length := by
        rw [nomt_reverted]
        unfold Versioned.tryRollback
        cases hroll : s.nomt.rollback upper.blocks.length with
        | none =>
          have hshort := Versioned.rollback_eq_none_iff.mp hroll
          omega
        | some v =>
          have hpast := Versioned.length_past_of_rollback hroll
          rw [Option.getD_some]
          omega
      rw [List.foldl_cons, @ih lower _ rfl hpast]
      exact (reverted_pieces_eq_iff U h s).mpr (.inl hhistory)

/-- **A reverted chain may be delivered in any pieces**, the newest blocks first.  If NOMT
has the history of the chain, reverts of the pieces, one after the other, leave exactly the
extension that one revert of the chain leaves.  For two pieces this holds exactly if NOMT
has the history of both, or is too short for each of them. -/
theorem revert_in_pieces (old : Chain) (m : Machine) :
    (∀ pieces : List Chain, old.blocks = pieces.reverse.flatMap Chain.blocks →
      old.blocks.length ≤ m.exex.nomt.past.length →
      ∃ m₁ m₂, pieces.forM (revert U) m = .ok () m₁ ∧ revert U old m = .ok () m₂ ∧
        m₁.exex = m₂.exex) ∧
      ∀ lower upper : Chain, old.blocks = lower.blocks ++ upper.blocks →
        ∃ m₁ m₂, [upper, lower].forM (revert U) m = .ok () m₁ ∧ revert U old m = .ok () m₂ ∧
          (m₁.exex = m₂.exex ↔ old.blocks.length ≤ m.exex.nomt.past.length ∨
            (m.exex.nomt.past.length < upper.blocks.length ∧
              m.exex.nomt.past.length < lower.blocks.length)) := by
  obtain ⟨m₂, hrun₂, he₂⟩ := revert_eq U old m
  constructor
  · intro pieces hblocks hhistory
    obtain ⟨m₁, hrun₁, he₁⟩ := EStateM.forM_eq_ok Machine.exex (revert_eq U) pieces m
    exact ⟨m₁, m₂, hrun₁, hrun₂, by rw [he₁, he₂, foldl_reverted U hblocks hhistory]⟩
  · intro lower upper hblocks
    obtain ⟨m₁, hrun₁, he₁⟩ := EStateM.forM_eq_ok Machine.exex (revert_eq U) [upper, lower] m
    refine ⟨m₁, m₂, hrun₁, hrun₂, ?_⟩
    rw [he₁, he₂]
    exact reverted_pieces_eq_iff U hblocks m.exex

/-- After two commits both blocks are reverted at once, and one by one. -/
theorem revert_in_pieces_two_blocks :
    let m := (commitAll sampleUbt (sampleCommits.take 2) (.fresh ⟨2, 10⟩)).state
    let old : Chain := ⟨[block1, block2], .empty, List.cons_ne_nil _ _, by decide⟩
    let lower : Chain := ⟨[block1], .empty, Chain.single_ne_nil _, Chain.single_sorted _⟩
    let upper : Chain := ⟨[block2], .empty, Chain.single_ne_nil _, Chain.single_sorted _⟩
    m.exex.nomt.past.length = 2 ∧
      ∃ m₁ m₂, [upper, lower].forM (revert sampleUbt) m = .ok () m₁ ∧
        revert sampleUbt old m = .ok () m₂ ∧ m₁.exex = m₂.exex := by
  intro m old lower upper
  have hpast : m.exex.nomt.past.length = 2 := by decide +kernel
  refine ⟨hpast, (revert_in_pieces sampleUbt old m).1 [upper, lower] rfl ?_⟩
  rw [hpast]
  exact Nat.le_refl 2

end UbtExex
