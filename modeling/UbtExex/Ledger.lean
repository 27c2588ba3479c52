import UbtExex.Revert

/-!
# The canonical chain

What the extension is meant to follow: the blocks that are canonical, each with the
writes its execution makes, grouped as they were committed.  Block lists are newest
first here, so that a reorganisation drops blocks from the front.  The state after
a list of blocks is the last-write-wins fold of their writes.

A commit records one undo log for all its blocks.  When a reorganisation cuts a
commit, its remaining blocks stay as a commit with nothing to undo; this is right
exactly when those blocks changed no value.

## Main definitions

* `Linked` — blocks that follow one another by number and by parent hash.
* `stateAfter` — the state after a list of blocks.
* `Ledger`, `Ledger.dropBlocks` — the commits of the canonical chain.
* `Ledger.RowsRecorded`, `Ledger.CutClean` — when undoing a number of blocks works.

## Main results

* `Ledger.blocks_dropBlocks` — dropping drops exactly the newest blocks.
* `Ledger.applyAll_storedUndo` — **recorded rows undo whole commits.**
* `Ledger.cutClean_iff` — when this is what undoing the newest blocks asks for.
-/

open Std

namespace UbtExex

/-! ### Linked blocks -/

/-- A canonical block and the writes of its execution. -/
structure CanonicalBlock where
  block : Block
  writes : List (TreeKey × B256)

/-- The number and the hash of the newest block, or those of the base. -/
def tipOf (base : ℕ × B256) : List CanonicalBlock → ℕ × B256
  | [] => base
  | b :: _ => (b.block.number, b.block.hash)

/-- Each block is the child of the next older one, the oldest of the base. -/
def Linked (base : ℕ × B256) : List CanonicalBlock → Prop
  | [] => True
  | b :: bs => b.block.number = (tipOf base bs).1 + 1 ∧ b.block.parentHash = (tipOf base bs).2 ∧
      Linked base bs

theorem tipOf_append (base : ℕ × B256) (bs bs' : List CanonicalBlock) :
    tipOf base (bs ++ bs') = tipOf (tipOf base bs') bs := by
  cases bs <;> rfl

theorem linked_append {base : ℕ × B256} {bs bs' : List CanonicalBlock} :
    Linked base (bs ++ bs') ↔ Linked base bs' ∧ Linked (tipOf base bs') bs := by
  induction bs with
  | nil => simp [Linked]
  | cons b bs ih =>
    rw [List.cons_append, Linked, Linked, ih, tipOf_append]
    constructor
    · rintro ⟨hn, hh, hl, hl'⟩
      exact ⟨hl, hn, hh, hl'⟩
    · rintro ⟨hl, hn, hh, hl'⟩
      exact ⟨hn, hh, hl, hl'⟩

namespace Linked

variable {base : ℕ × B256} {bs bs' : List CanonicalBlock}

theorem of_append (h : Linked base (bs ++ bs')) : Linked base bs' := (linked_append.mp h).1

/-- The blocks below the newest ones are linked. -/
theorem drop (h : Linked base bs) (k : ℕ) : Linked base (bs.drop k) := by
  rw [← List.take_append_drop k bs] at h
  exact h.of_append

theorem tip_eq (h : Linked base bs) : (tipOf base bs).1 = base.1 + bs.length := by
  induction bs with
  | nil => rfl
  | cons b bs ih =>
    obtain ⟨hn, -, hl⟩ := h
    have := ih hl
    simp only [tipOf, List.length_cons]
    omega

theorem tip_drop_le (h : Linked base bs) (k : ℕ) :
    (tipOf base (bs.drop k)).1 ≤ (tipOf base bs).1 := by
  rw [(h.drop k).tip_eq, h.tip_eq, List.length_drop]
  omega

theorem base_lt (h : Linked base bs) {b : CanonicalBlock} (hb : b ∈ bs) :
    base.1 < b.block.number ∧ b.block.number ≤ (tipOf base bs).1 := by
  induction bs with
  | nil => cases hb
  | cons c bs ih =>
    obtain ⟨hn, -, hl⟩ := h
    have htip := hl.tip_eq
    simp only [tipOf]
    rcases List.mem_cons.mp hb with rfl | hb
    · omega
    · have := ih hl hb
      omega

/-- The block numbers strictly decrease. -/
theorem pairwise (h : Linked base bs) :
    bs.Pairwise fun b b' => b'.block.number < b.block.number := by
  induction bs with
  | nil => exact List.Pairwise.nil
  | cons c bs ih =>
    obtain ⟨hn, -, hl⟩ := h
    refine List.pairwise_cons.mpr ⟨fun b hb => ?_, ih hl⟩
    have := (hl.base_lt hb).2
    omega

end Linked

/-! ### The state after a list of blocks -/

/-- The state after a list of blocks, newest first. -/
def stateAfter (σ₀ : TreeKey → B256) : List CanonicalBlock → TreeKey → B256
  | [] => σ₀
  | b :: bs => Writes.applyAll (stateAfter σ₀ bs) b.writes

/-- The writes of a list of blocks, from the oldest to the newest. -/
def blockWrites (bs : List CanonicalBlock) : List (TreeKey × B256) :=
  bs.reverse.flatMap CanonicalBlock.writes

theorem stateAfter_append (σ₀ : TreeKey → B256) (bs bs' : List CanonicalBlock) :
    stateAfter σ₀ (bs ++ bs') = Writes.applyAll (stateAfter σ₀ bs') (blockWrites bs) := by
  induction bs with
  | nil => rfl
  | cons b bs ih =>
    rw [List.cons_append, stateAfter, ih]
    simp [blockWrites]

/-! ### The ledger -/

/-- A commit of the canonical chain: its blocks, newest first, and the deltas it
found. -/
structure LedgerEntry where
  blocks : List CanonicalBlock
  undo : List Delta

/-- The commits of the canonical chain, newest first. -/
abbrev Ledger := List LedgerEntry

/-- The delta row that a commit stores under the number of one of its blocks: the
undo log under the newest, nothing under the others. -/
def LedgerEntry.rowAt (c : LedgerEntry) (number : ℕ) : List Delta :=
  if (c.blocks.head?.map fun b => b.block.number) = some number then c.undo else []

namespace Ledger

/-- The canonical blocks, newest first. -/
def blocks (L : Ledger) : List CanonicalBlock := L.flatMap LedgerEntry.blocks

@[simp] theorem blocks_nil : blocks [] = [] := rfl

@[simp] theorem blocks_cons (c : LedgerEntry) (L : Ledger) :
    blocks (c :: L) = c.blocks ++ L.blocks := rfl

/-- The ledger without its `k` newest blocks.  A commit that is cut keeps its older
blocks, with nothing to undo. -/
def dropBlocks : Ledger → ℕ → Ledger
  | [], _ => []
  | c :: L, k =>
    if k = 0 then c :: L
    else if k < c.blocks.length then ⟨c.blocks.drop k, []⟩ :: L
    else dropBlocks L (k - c.blocks.length)

/-- **Dropping drops exactly the newest blocks.** -/
theorem blocks_dropBlocks (L : Ledger) (k : ℕ) : (L.dropBlocks k).blocks = L.blocks.drop k := by
  induction L generalizing k with
  | nil => simp [dropBlocks]
  | cons c L ih =>
    unfold dropBlocks
    split
    · next hk => subst hk; rfl
    · split
      · next hlt =>
        rw [blocks_cons, blocks_cons, List.drop_append_of_le_length (by omega)]
      · next hge =>
        have hnil : c.blocks.drop k = [] := List.drop_eq_nil_of_le (by omega)
        rw [ih, blocks_cons, List.drop_append, hnil, List.nil_append]

/-- The delta rows of the `k` newest blocks are those their commits recorded. -/
def RowsRecorded (db : UbtDatabase) : Ledger → ℕ → Prop
  | [], _ => True
  | c :: L, k =>
    (∀ b ∈ c.blocks.take k, db.loadBlockDeltas b.block.number = c.rowAt b.block.number) ∧
      RowsRecorded db L (k - c.blocks.length)

/-- If dropping `k` blocks cuts a commit, the blocks it keeps changed no value. -/
def CutClean (σ₀ : TreeKey → B256) : Ledger → ℕ → Prop
  | [], _ => True
  | c :: L, k =>
    (0 < k → k < c.blocks.length →
      stateAfter σ₀ (c.blocks.drop k ++ blocks L) = stateAfter σ₀ (blocks L)) ∧
      CutClean σ₀ L (k - c.blocks.length)

/-- Every commit has blocks, and its undo log takes the state after them back to
the state before. -/
def Undoable (σ₀ : TreeKey → B256) : Ledger → Prop
  | [] => True
  | c :: L => c.blocks ≠ [] ∧
      Writes.applyAll (stateAfter σ₀ (c.blocks ++ blocks L)) (c.undo.reverse.map deltaWrite) =
        stateAfter σ₀ (blocks L) ∧
      Undoable σ₀ L

theorem storedUndo_append (db : UbtDatabase) (ns ns' : List ℕ) :
    storedUndo db (ns ++ ns') = storedUndo db ns ++ storedUndo db ns' := by
  unfold storedUndo
  rw [List.flatMap_append]

/-- The rows of the blocks taken from one commit are its undo log, if any block is taken. -/
theorem storedUndo_take {db : UbtDatabase} {c : LedgerEntry} {k : ℕ}
    (hne : c.blocks ≠ [])
    (hord : c.blocks.Pairwise fun b b' => b'.block.number < b.block.number)
    (hrows : ∀ b ∈ c.blocks.take (k + 1),
      db.loadBlockDeltas b.block.number = c.rowAt b.block.number) :
    storedUndo db ((c.blocks.take (k + 1)).map fun b => b.block.number) =
      c.undo.reverse.map deltaWrite := by
  obtain ⟨blocks, undo⟩ := c
  cases blocks with
  | nil => exact absurd rfl hne
  | cons b bs =>
    simp only [List.take_succ_cons, List.forall_mem_cons, List.map_cons] at hrows ⊢
    obtain ⟨hb, hbs⟩ := hrows
    -- the row is under the newest block of the commit, the others have none
    have hnone : storedUndo db ((bs.take k).map fun b => b.block.number) = [] := by
      unfold storedUndo
      rw [List.flatMap_eq_nil_iff]
      intro n hn
      obtain ⟨b', hb', rfl⟩ := List.mem_map.mp hn
      have hlt := (List.pairwise_cons.mp hord).1 b' (List.mem_of_mem_take hb')
      have hrow : LedgerEntry.rowAt ⟨b :: bs, undo⟩ b'.block.number = [] := by
        unfold LedgerEntry.rowAt
        refine if_neg fun h => ?_
        simp only [List.head?_cons, Option.map_some, Option.some.injEq] at h
        omega
      rw [hbs b' hb', hrow]
      rfl
    have hfirst : LedgerEntry.rowAt ⟨b :: bs, undo⟩ b.block.number = undo := if_pos rfl
    rw [← List.singleton_append, storedUndo_append, hnone, List.append_nil]
    simp only [storedUndo, List.flatMap_cons, List.flatMap_nil, List.append_nil]
    rw [hb, hfirst]

/-- The blocks below the commits that the `k` newest blocks belong to. -/
def belowCut : Ledger → ℕ → List CanonicalBlock
  | [], _ => []
  | c :: L, k => if k = 0 then c.blocks ++ blocks L else belowCut L (k - c.blocks.length)

@[simp] theorem belowCut_zero (L : Ledger) : L.belowCut 0 = L.blocks := by
  cases L <;> rfl

/-- **Recorded rows undo whole commits**: all those that the `k` newest blocks belong
to. -/
theorem applyAll_storedUndo {base : ℕ × B256} {σ₀ : TreeKey → B256} {db : UbtDatabase}
    {L : Ledger} {k : ℕ} (hundo : L.Undoable σ₀) (hlink : Linked base L.blocks)
    (hrows : L.RowsRecorded db k) :
    Writes.applyAll (stateAfter σ₀ L.blocks)
        (storedUndo db ((L.blocks.take k).map fun b => b.block.number)) =
      stateAfter σ₀ (L.belowCut k) := by
  induction L generalizing k with
  | nil => simp [storedUndo, belowCut]
  | cons c L ih =>
    cases k with
    | zero => simp [storedUndo]
    | succ k =>
      obtain ⟨hne, hback, hundo⟩ := hundo
      obtain ⟨hrow, hrows⟩ := hrows
      -- the newest commit is undone first, as its blocks come first
      obtain ⟨hlinkL, hlinkc⟩ := linked_append.mp hlink
      have hthis := storedUndo_take hne hlinkc.pairwise hrow
      rw [blocks_cons, List.take_append, List.map_append, storedUndo_append,
        Writes.applyAll_append, hthis, hback, ih hundo hlinkL hrows]
      rfl

/-- **A cut is clean exactly when undoing whole commits is undoing the blocks.** -/
theorem cutClean_iff {σ₀ : TreeKey → B256} {L : Ledger} {k : ℕ} :
    L.CutClean σ₀ k ↔ stateAfter σ₀ (L.belowCut k) = stateAfter σ₀ (L.blocks.drop k) := by
  induction L generalizing k with
  | nil => simp [CutClean, belowCut]
  | cons c L ih =>
    unfold CutClean
    rw [ih, blocks_cons, List.drop_append]
    cases k with
    | zero => simp [belowCut]
    | succ k =>
      have hbelow : belowCut (c :: L) (k + 1) = belowCut L (k + 1 - c.blocks.length) := rfl
      rw [hbelow]
      by_cases hk : k + 1 < c.blocks.length
      · -- the commit is cut: what is below it is untouched
        have hz : k + 1 - c.blocks.length = 0 := by omega
        rw [hz, belowCut_zero, List.drop_zero]
        constructor
        · rintro ⟨hclean, -⟩
          exact (hclean (Nat.succ_pos k) hk).symm
        · intro h
          exact ⟨fun _ _ => h.symm, rfl⟩
      · have hnil : c.blocks.drop (k + 1) = [] := List.drop_eq_nil_of_le (by omega)
        rw [hnil, List.nil_append]
        exact and_iff_right fun _ hlt => absurd hlt hk

/-- Dropping blocks at a clean cut leaves an undoable ledger. -/
theorem Undoable.dropBlocks {σ₀ : TreeKey → B256} {L : Ledger} {k : ℕ} (hundo : L.Undoable σ₀)
    (hcut : L.CutClean σ₀ k) : (L.dropBlocks k).Undoable σ₀ := by
  induction L generalizing k with
  | nil => exact trivial
  | cons c L ih =>
    obtain ⟨hne, hback, hundoL⟩ := hundo
    obtain ⟨hclean, hcut⟩ := hcut
    unfold Ledger.dropBlocks
    split
    · exact ⟨hne, hback, hundoL⟩
    · next hk =>
      split
      · next hlt =>
        -- a cut commit has an empty undo log: only a clean cut makes it undoable
        refine ⟨?_, hclean (Nat.pos_of_ne_zero hk) hlt, hundoL⟩
        exact fun h => absurd (List.drop_eq_nil_iff.mp h) (by omega)
      · exact ih hundoL hcut

end Ledger

end UbtExex
