import UbtExex.Owned

/-!
# The order of the entries of a block

The entries of a block come from the iteration of hash maps, in an order that no two
nodes share.  As long as they have distinct keys and one address for each stem, a
commit does not depend on it: everything it leaves is the same, except for the order
of the deltas of the block, and that order does not matter when they are undone.

## Main definitions

* `DistinctEntries` — entries with distinct keys and one address for each stem.
* `SameCommit` — equality up to the order of the deltas of one block.

## Main results

* `commit_order_independent` — **a commit does not depend on the order of its entries.**
-/

open Std

namespace UbtExex

/-- Entries with distinct keys, none of them the head key, and with one address for
each stem. -/
structure DistinctEntries (es : List PendingEntry) : Prop where
  keys : (es.map PendingEntry.key).Nodup
  not_head : ∀ e ∈ es, e.key.path ≠ nomtHeadKey
  address : ∀ e ∈ es, ∀ e' ∈ es, e.key.stem = e'.key.stem → e.address = e'.address

namespace DistinctEntries

variable {es es' : List PendingEntry}

theorem perm (h : DistinctEntries es) (hperm : es.Perm es') : DistinctEntries es' where
  keys := (hperm.map PendingEntry.key).nodup_iff.mp h.keys
  not_head e he := h.not_head e (hperm.mem_iff.mpr he)
  address e he e' he' := h.address e (hperm.mem_iff.mpr he) e' (hperm.mem_iff.mpr he')

/-- The writes of the entries have distinct keys. -/
theorem writes (h : DistinctEntries es) :
    ((es.map PendingEntry.write).map Prod.fst).Nodup := by
  rw [List.map_map]
  exact h.keys

/-! ### The update list -/

/-- The updates handed to NOMT have distinct paths. -/
theorem paths (h : DistinctEntries es) (n : ℕ) :
    ((es.map entryUpdate ++ [(nomtHeadKey, NomtValue.u64Be n)]).map Prod.fst).Nodup := by
  rw [List.map_append, List.map_map, List.nodup_append]
  refine ⟨?_, List.nodup_singleton _, ?_⟩
  · have hpaths : es.map (Prod.fst ∘ entryUpdate) = (es.map PendingEntry.key).map TreeKey.path := by
      rw [List.map_map]
      rfl
    rw [hpaths]
    exact h.keys.map TreeKey.path_injective
  · intro p hp q hq
    obtain ⟨e, he, rfl⟩ := List.mem_map.mp hp
    rw [List.map_singleton, List.mem_singleton] at hq
    rw [hq]
    exact h.not_head e he

/-- **The sorted update list does not depend on the order of the entries.** -/
theorem nomtUpdates_perm (h : DistinctEntries es) (hperm : es.Perm es') (n : ℕ) :
    nomtUpdates es n = nomtUpdates es' n := by
  unfold nomtUpdates
  exact Writes.insertionSort_perm (· ≤ ·) BitVec.le_total (fun _ _ _ => BitVec.le_trans)
    (fun _ _ => BitVec.le_antisymm) ((hperm.map entryUpdate).append_right _) (h.paths n)

end DistinctEntries

/-! ### The overlay -/

theorem getElem?_writeStem (db : UbtDatabase) (dirty : ExtTreeMap Stem StemNode) (key : TreeKey)
    (v : B256) (stem : Stem) :
    (writeStem db dirty key v)[stem]? =
      if key.stem = stem then
        some (((overlayStem db dirty key.stem).getD .new).setValue key.subindex v)
      else dirty[stem]? := by
  unfold writeStem
  simp only [stemNode_seedStem]
  rw [Tables.getElem?_insert, getElem?_seedStem]
  split <;> rfl

/-- The overlay has nodes for the stems it had and for those of the entries, and keeps
the nodes of the others. -/
theorem getElem?_dirtyStems_foldl {db : UbtDatabase} {es : List PendingEntry} {o : Overlay}
    {stem : Stem} :
    ((∃ e ∈ es, e.key.stem = stem) →
        ((es.foldl (applyEntry db) o).dirtyStems[stem]?).isSome) ∧
      ((∀ e ∈ es, e.key.stem ≠ stem) →
        (es.foldl (applyEntry db) o).dirtyStems[stem]? = o.dirtyStems[stem]?) := by
  induction es generalizing o with
  | nil => simp
  | cons e es ih =>
    rw [List.foldl_cons]
    have hstep : (applyEntry db o e).dirtyStems[stem]? = if e.key.stem = stem then
        some (((overlayStem db o.dirtyStems e.key.stem).getD .new).setValue e.key.subindex e.value)
      else o.dirtyStems[stem]? := by
      rw [dirtyStems_applyEntry, getElem?_writeStem]
    constructor
    -- a later entry of the stem leaves a node in any case; otherwise this entry is the last
    · intro htouched
      by_cases hlater : ∃ e' ∈ es, e'.key.stem = stem
      · exact ih.1 hlater
      · have hnow : e.key.stem = stem := by
          obtain ⟨e', he', hs⟩ := htouched
          rcases List.mem_cons.mp he' with rfl | he'
          · exact hs
          · exact absurd ⟨e', he', hs⟩ hlater
        rw [ih.2 fun e' he' hs => hlater ⟨e', he', hs⟩, hstep, if_pos hnow]
        rfl
    · intro huntouched
      obtain ⟨he, hes⟩ := List.forall_mem_cons.mp huntouched
      rw [ih.2 hes, hstep, if_neg he]

/-- The values of a node of the overlay are those read through it. -/
theorem value_of_getElem? {db : UbtDatabase} {dirty : ExtTreeMap Stem StemNode} {stem : Stem}
    {node : StemNode} (h : dirty[stem]? = some node) (i : UInt8) :
    node.value i = overlayValue db dirty ⟨stem, i⟩ := by
  unfold overlayValue overlayStem
  rw [h]
  rfl

namespace DistinctEntries

variable {es es' : List PendingEntry}

/-- **The overlay does not depend on the order of the entries**: a stem they touch has
the values they write over those it had. -/
theorem dirtyStems_perm (h : DistinctEntries es) (hperm : es.Perm es') (db : UbtDatabase)
    (dirty : ExtTreeMap Stem StemNode) :
    (applyEntries db dirty es).dirtyStems = (applyEntries db dirty es').dirtyStems := by
  refine ExtTreeMap.ext_getElem? fun stem => ?_
  have hvalue : overlayValue db (applyEntries db dirty es).dirtyStems =
      overlayValue db (applyEntries db dirty es').dirtyStems := by
    rw [overlayValue_applyEntries, overlayValue_applyEntries]
    exact Writes.applyAll_perm (hperm.map PendingEntry.write) h.writes _
  unfold applyEntries at hvalue ⊢
  by_cases htouched : ∃ e ∈ es, e.key.stem = stem
  · have htouched' : ∃ e ∈ es', e.key.stem = stem := by
      obtain ⟨e, he, hs⟩ := htouched
      exact ⟨e, hperm.mem_iff.mp he, hs⟩
    -- a touched stem has a node in both overlays, with the values read through them
    obtain ⟨node, hnode⟩ := Option.isSome_iff_exists.mp (getElem?_dirtyStems_foldl.1 htouched)
    obtain ⟨node', hnode'⟩ := Option.isSome_iff_exists.mp (getElem?_dirtyStems_foldl.1 htouched')
    rw [hnode, hnode']
    refine congrArg some (StemNode.ext_value fun i => ?_)
    rw [value_of_getElem? hnode, value_of_getElem? hnode', hvalue]
  -- any other stem keeps its node
  · have huntouched : ∀ e ∈ es, e.key.stem ≠ stem := fun e he hs => htouched ⟨e, he, hs⟩
    rw [getElem?_dirtyStems_foldl.2 huntouched,
      getElem?_dirtyStems_foldl.2 fun e he => huntouched e (hperm.mem_iff.mpr he)]

/-- **The deltas are the same up to their order.** -/
theorem deltas_perm (h : DistinctEntries es) (hperm : es.Perm es') (db : UbtDatabase)
    (dirty : ExtTreeMap Stem StemNode) :
    ((applyEntries db dirty es).deltas).Perm (applyEntries db dirty es').deltas := by
  rw [deltas_applyEntries, deltas_applyEntries]
  exact (Writes.undoLog_perm (hperm.map PendingEntry.write) h.writes _).map deltaOf

end DistinctEntries

/-! ### New stems -/

/-- New stems come once, and are known afterwards. -/
theorem nodup_newStemAddresses {db : UbtDatabase} {es : List PendingEntry} {o : Overlay}
    (hnd : o.newStemAddresses.Nodup)
    (hknown : ∀ p ∈ o.newStemAddresses, Known db o.dirtyStems p.1) :
    (es.foldl (applyEntry db) o).newStemAddresses.Nodup := by
  induction es generalizing o with
  | nil => exact hnd
  | cons e es ih =>
    rw [List.foldl_cons]
    by_cases hk : Known db o.dirtyStems e.key.stem
    · have hnew := newStemAddresses_of_old hk
      refine ih (by rw [hnew]; exact hnd) fun p hp => ?_
      rw [hnew] at hp
      rw [dirtyStems_applyEntry, known_writeStem]
      exact .inr (hknown p hp)
    · have hnew := newStemAddresses_of_new hk
      refine ih ?_ fun p hp => ?_
      · rw [hnew, List.nodup_append]
        refine ⟨hnd, List.nodup_singleton _, fun p hp q hq hpq => hk ?_⟩
        have hknown' := hknown p hp
        rw [hpq, List.mem_singleton.mp hq] at hknown'
        exact hknown'
      · rw [dirtyStems_applyEntry, known_writeStem]
        rw [hnew, List.mem_append, List.mem_singleton] at hp
        rcases hp with hp | rfl
        · exact .inr (hknown p hp)
        · exact .inl rfl

/-- With one address for each stem, the new stems are those of the entries that neither
layer had. -/
theorem mem_newStemAddresses_iff {db : UbtDatabase} {es : List PendingEntry} {o : Overlay}
    (haddr : ∀ e ∈ es, ∀ e' ∈ es, e.key.stem = e'.key.stem → e.address = e'.address)
    {p : Stem × Address} :
    p ∈ (es.foldl (applyEntry db) o).newStemAddresses ↔ p ∈ o.newStemAddresses ∨
      ∃ e ∈ es, ¬Known db o.dirtyStems e.key.stem ∧ (e.key.stem, e.address) = p := by
  induction es generalizing o with
  | nil => simp
  | cons e es ih =>
    have hstep : p ∈ (applyEntry db o e).newStemAddresses ↔ p ∈ o.newStemAddresses ∨
        ¬Known db o.dirtyStems e.key.stem ∧ (e.key.stem, e.address) = p := by
      by_cases hk : Known db o.dirtyStems e.key.stem
      · rw [newStemAddresses_of_old hk]
        simp [hk]
      · rw [newStemAddresses_of_new hk, List.mem_append, List.mem_singleton]
        simp [hk, eq_comm]
    rw [List.foldl_cons, ih fun e' he' e'' he'' => haddr e' (List.mem_cons_of_mem _ he') e''
      (List.mem_cons_of_mem _ he''), hstep]
    simp only [dirtyStems_applyEntry, known_writeStem, List.exists_mem_cons_iff]
    constructor
    · rintro ((hp | hp) | ⟨e', he', hk, hp⟩)
      · exact .inl hp
      · exact .inr (.inl hp)
      · exact .inr (.inr ⟨e', he', fun hold => hk (.inr hold), hp⟩)
    · rintro (hp | hp | ⟨e', he', hk, hp⟩)
      · exact .inl (.inl hp)
      · exact .inl (.inr hp)
      -- a later entry of the same stem carries the same address
      · by_cases hs : e.key.stem = e'.key.stem
        · have ha := haddr e List.mem_cons_self e' (List.mem_cons_of_mem _ he') hs
          rw [← hs, ← ha] at hp
          rw [← hs] at hk
          exact .inl (.inr ⟨hk, hp⟩)
        · exact .inr ⟨e', he', fun hor => hor.elim hs hk, hp⟩

/-- **The new stems are the same up to their order.** -/
theorem DistinctEntries.newStemAddresses_perm {es es' : List PendingEntry}
    (h : DistinctEntries es) (hperm : es.Perm es') (db : UbtDatabase)
    (dirty : ExtTreeMap Stem StemNode) :
    ((applyEntries db dirty es).newStemAddresses).Perm
      (applyEntries db dirty es').newStemAddresses := by
  have hnd : ∀ es : List PendingEntry, (applyEntries db dirty es).newStemAddresses.Nodup :=
    fun es => nodup_newStemAddresses List.nodup_nil fun p hp => nomatch hp
  rw [List.perm_ext_iff_of_nodup (hnd es) (hnd es')]
  intro p
  unfold applyEntries
  rw [mem_newStemAddresses_iff h.address, mem_newStemAddresses_iff (h.perm hperm).address]
  simp only [hperm.mem_iff]

/-! ### The commit -/

/-- The pending overlay of given entries. -/
theorem pendingOverlay_withEntries (m : Machine) (es : List PendingEntry) :
    pendingOverlay (m.withEntries es).exex =
      applyEntries m.exex.db m.exex.dirtyStems es := rfl

/-- The machine when the loop over the entries is done. -/
def entriesApplied (m : Machine) (es : List PendingEntry) (n : ℕ) : Machine :=
  (((m.withEntries es).update fun s => { s with pendingEntries := [] }).persist .nomtCommit
    fun d => { d with nomt := d.nomt.commitUpdates es n }).update fun s =>
      { s with dirtyStems := (applyEntries m.exex.db m.exex.dirtyStems es).dirtyStems }

/-- The part of the record of a block that can be refused. -/
def saveAddresses (o : Overlay) (es : List PendingEntry) : ExM ℕ :=
  saveStemAddresses o.newStemAddresses >>= fun _ => indexEntries es

/-- The part that follows. -/
def saveBlock (n : ℕ) (hash : B256) (deltas : List Delta) (newStems : ℕ) : ExM Unit := do
  update fun s => { s with stemCount := s.stemCount + newStems }
  saveDeltas n deltas
  update fun s => { s with lastBlock := n, lastHash := hash }

theorem recordBlock_withEntries (n : ℕ) (hash : B256) (m : Machine) (es : List PendingEntry) :
    let o := applyEntries m.exex.db m.exex.dirtyStems es
    recordBlock n hash (m.withEntries es) =
      (saveAddresses o es >>= saveBlock n hash o.deltas) (entriesApplied m es n) := by
  intro o
  unfold saveAddresses
  rw [bind_assoc]
  rfl

theorem saveBlock_ok (n : ℕ) (hash : B256) (deltas : List Delta) (k : ℕ) (m : Machine) :
    ∃ m', saveBlock n hash deltas k m = .ok () m' := by
  unfold saveBlock
  rw [update_bind_apply]
  obtain ⟨m', hrun, -⟩ := saveDeltas_spec n deltas
    (m.update fun s => { s with stemCount := s.stemCount + k })
  rw [bind_apply_of_ok hrun]
  exact ⟨_, rfl⟩

namespace DistinctEntries

variable {es es' : List PendingEntry}

/-- The machine when the loop is done does not depend on the order. -/
theorem entriesApplied_perm (h : DistinctEntries es) (hperm : es.Perm es') (m : Machine) (n : ℕ) :
    entriesApplied m es n = entriesApplied m es' n := by
  have hempty : ∀ es, (m.withEntries es).update (fun s => { s with pendingEntries := [] }) =
      m.withEntries [] := fun _ => rfl
  unfold entriesApplied
  have hnomt : ∀ t : Nomt, t.commitUpdates es n = t.commitUpdates es' n := by
    intro t
    unfold Nomt.commitUpdates NomtMap.update
    rw [h.nomtUpdates_perm hperm]
  simp only [hempty, hnomt, h.dirtyStems_perm hperm]

/-- What can be refused does not depend on the order. -/
theorem saveAddresses_perm (h : DistinctEntries es) (hperm : es.Perm es') (db : UbtDatabase)
    (dirty : ExtTreeMap Stem StemNode) :
    saveAddresses (applyEntries db dirty es) es = saveAddresses (applyEntries db dirty es') es' := by
  have hnews := h.newStemAddresses_perm hperm db dirty
  have haddresses : saveStemAddresses (applyEntries db dirty es).newStemAddresses =
      saveStemAddresses (applyEntries db dirty es').newStemAddresses := by
    unfold saveStemAddresses
    rw [hnews.isEmpty_eq]
    simp only [UbtDatabase.batchSaveStemAddresses_perm hnews]
  have hindex : indexEntries es = indexEntries es' := by
    unfold indexEntries
    simp only [KeyIndex.applyUpdates_perm (hperm.map fun e => (e.key.stem, e.key.subindex, e.address))]
  unfold saveAddresses
  rw [haddresses, hindex]

end DistinctEntries

/-- The extensions are equal but for the tables of deltas. -/
def SameButDeltas (s s' : UbtExEx) : Prop :=
  s' = { s with db := { s.db with blockDeltas := s'.db.blockDeltas } }

variable (U : Ubt)

/-- A flush does not look at the deltas. -/
theorem SameButDeltas.flushed {s s' : UbtExEx} (h : SameButDeltas s s') (n : ℕ) (hash : B256) :
    SameButDeltas (flushed U s n hash) (flushed U s' n hash) := by
  unfold SameButDeltas at h ⊢
  rw [h]
  unfold UbtExex.flushed retainDeltas
  dsimp only
  split <;> rfl

theorem SameButDeltas.logical {s s' : UbtExEx} (h : SameButDeltas s s') :
    s'.logical = s.logical := by
  rw [h]
  rfl

/-- Recording a block leaves the same but the deltas. -/
theorem DistinctEntries.sameButDeltas_committed {es es' : List PendingEntry}
    (h : DistinctEntries es) (hperm : es.Perm es') (m : Machine) (n : ℕ) (hash : B256)
    (db : UbtDatabase) (keyIndex : KeyIndex) (k : ℕ) :
    SameButDeltas (committed U (m.withEntries es).exex n hash db keyIndex k)
      (committed U (m.withEntries es').exex n hash db keyIndex k) := by
  have hrecorded : SameButDeltas (recorded (m.withEntries es).exex n hash db keyIndex k)
      (recorded (m.withEntries es').exex n hash db keyIndex k) := by
    have hnomt : m.exex.nomt.commitUpdates es n = m.exex.nomt.commitUpdates es' n := by
      unfold Nomt.commitUpdates NomtMap.update
      rw [h.nomtUpdates_perm hperm]
    unfold SameButDeltas recorded
    rw [pendingOverlay_withEntries, pendingOverlay_withEntries, h.dirtyStems_perm hperm]
    change UbtExEx.mk ⟨_, m.exex.nomt.commitUpdates es' n, _⟩ _ _ _ _ _ _ _ _ _ _ =
      UbtExEx.mk ⟨_, m.exex.nomt.commitUpdates es n, _⟩ _ _ _ _ _ _ _ _ _ _
    rw [hnomt]
    rfl
  have hflag : (m.withEntries es').exex.shouldFlush n = (m.withEntries es).exex.shouldFlush n := rfl
  unfold committed
  rw [hflag]
  split
  · exact hrecorded.flushed U n hash
  · exact hrecorded

/-- What two commits of block `n` share whose entries differ in their order: all but
the order of the deltas of the block, which undo to one state. -/
structure SameCommit (n : ℕ) (s s' : UbtExEx) : Prop where
  logical : s'.logical = s.logical
  stems : s'.db.stems = s.db.stems
  head : s'.db.loadHead = s.db.loadHead
  stemAddresses : s'.db.stemAddresses = s.db.stemAddresses
  keyIndex : s'.keyIndex = s.keyIndex
  stemCount : s'.stemCount = s.stemCount
  nomt : s'.nomt = s.nomt
  rest : SameButDeltas s s'
  rows : ∀ k, k ≠ n → s'.db.loadBlockDeltas k = s.db.loadBlockDeltas k
  deltas : (s.db.loadBlockDeltas n).Perm (s'.db.loadBlockDeltas n)
  undone : ∀ m, (applyDeltasReverse (s'.db.loadBlockDeltas n) m).state.exex.logical =
    (applyDeltasReverse (s.db.loadBlockDeltas n) m).state.exex.logical

/-- Deltas of distinct keys are undone alike in any order. -/
theorem logical_applyDeltasReverse_perm {ds ds' : List Delta} (h : ds.Perm ds')
    (hnd : ((ds.map deltaWrite).map Prod.fst).Nodup) (m : Machine) :
    (applyDeltasReverse ds' m).state.exex.logical =
      (applyDeltasReverse ds m).state.exex.logical := by
  have hstate : ∀ ds, (applyDeltasReverse ds m).state.exex.logical =
      Writes.applyAll m.exex.logical (ds.reverse.map deltaWrite) := by
    intro ds
    rw [logical_eq, logical_eq, ← overlayValue_applyDeltas]
    rfl
  rw [hstate, hstate]
  -- undoing runs from the last delta to the first
  have hrev : ds.reverse.Perm ds'.reverse :=
    (List.reverse_perm ds).trans (h.trans (List.reverse_perm ds').symm)
  refine (Writes.applyAll_perm (hrev.map deltaWrite) ?_ _).symm
  exact (((List.reverse_perm ds).map deltaWrite).map Prod.fst).nodup_iff.mpr hnd

/-- Commits of the same entries in two orders that leave the same but the deltas leave
deltas that differ in their order only. -/
theorem DistinctEntries.sameCommit {n : ℕ} {hash : B256} {m m₁ m₂ : Machine} {root₁ root₂ : B256}
    {es es' : List PendingEntry} (hes : DistinctEntries es) (hperm : es.Perm es')
    (h₁ : commit U n hash (m.withEntries es) = .ok root₁ m₁)
    (h₂ : commit U n hash (m.withEntries es') = .ok root₂ m₂)
    (hsame : SameButDeltas m₁.exex m₂.exex) : SameCommit n m₁.exex m₂.exex := by
  have hundo : (m.withEntries es).exex.pendingUndo.Perm (m.withEntries es').exex.pendingUndo := by
    have := hes.deltas_perm hperm m.exex.db m.exex.dirtyStems
    rwa [← pendingOverlay_withEntries, ← pendingOverlay_withEntries, deltas_pendingOverlay,
      deltas_pendingOverlay] at this
  have hnil : (m.withEntries es').exex.pendingUndo = [] ↔
      (m.withEntries es).exex.pendingUndo = [] := by
    rw [← List.isEmpty_iff, ← List.isEmpty_iff, hundo.isEmpty_eq]
  have hkeys : (((m.withEntries es).exex.pendingUndo.map deltaWrite).map Prod.fst).Nodup := by
    unfold UbtExEx.pendingUndo
    rw [map_deltaWrite_undoDeltas]
    exact Writes.nodup_undoLog hes.writes _
  have hrows₁ := (commit_ok U h₁).rows
  have hrows₂ := (commit_ok U h₂).rows
  have hflag : (m.withEntries es').exex.shouldFlush n = (m.withEntries es).exex.shouldFlush n := rfl
  -- the row of the block is the undo log of either order, or what it was
  have hrow : m₂.exex.db.loadBlockDeltas n = m₁.exex.db.loadBlockDeltas n ∨
      m₁.exex.db.loadBlockDeltas n = (m.withEntries es).exex.pendingUndo ∧
        m₂.exex.db.loadBlockDeltas n = (m.withEntries es').exex.pendingUndo := by
    rw [(commit_ok U h₁).row, (commit_ok U h₂).row]
    by_cases h : (m.withEntries es).exex.pendingUndo = []
    · rw [if_pos h, if_pos (hnil.mpr h)]
      exact .inl rfl
    · rw [if_neg h, if_neg fun hc => h (hnil.mp hc)]
      exact .inr ⟨rfl, rfl⟩
  refine ⟨hsame.logical, ?_, ?_, ?_, ?_, ?_, ?_, hsame, fun k hk => ?_, ?_, fun m' => ?_⟩
  · rw [hsame]
  · rw [hsame]; rfl
  · rw [hsame]
  · rw [hsame]
  · rw [hsame]
  · rw [hsame]
  · rw [hrows₁, hrows₂, hflag, if_neg fun h : n = k ∧ _ => hk h.1.symm,
      if_neg fun h : n = k ∧ _ => hk h.1.symm]
    rfl
  · rcases hrow with h | ⟨h, h'⟩
    · rw [h]
    · rw [h, h']
      exact hundo
  · rcases hrow with h | ⟨h, h'⟩
    · rw [h]
    · rw [h, h']
      exact logical_applyDeltasReverse_perm hundo hkeys m'

/-- **A commit does not depend on the order of its entries.**  Entries with distinct
keys and one address for each stem are handed to NOMT in one order whatever theirs is;
in any two orders their commits fail alike, in the same state, or return the same root
and leave the same but for the order of the deltas of the block. -/
theorem commit_order_independent (n : ℕ) (hash : B256) (m : Machine) {es es' : List PendingEntry}
    (hes : DistinctEntries es) (hperm : es.Perm es') :
    nomtUpdates es n = nomtUpdates es' n ∧
      ((∃ e m', commit U n hash (m.withEntries es) = .error e m' ∧
          commit U n hash (m.withEntries es') = .error e m') ∨
        ∃ root m₁ m₂, commit U n hash (m.withEntries es) = .ok root m₁ ∧
          commit U n hash (m.withEntries es') = .ok root m₂ ∧ SameCommit n m₁.exex m₂.exex) := by
  refine ⟨hes.nomtUpdates_perm hperm n, ?_⟩
  rcases recordBlock_spec n hash (m.withEntries es) with
    ⟨e, m', -, hrun, -⟩ | ⟨db, ki, k, -, hdb, hki, -, -, -⟩
  · -- the failing part is the same program on the same machine
    rw [recordBlock_withEntries] at hrun
    cases hsave : saveAddresses (applyEntries m.exex.db m.exex.dirtyStems es) es
        (entriesApplied m es n) with
    | ok k m₃ =>
      rw [bind_apply_of_ok hsave] at hrun
      obtain ⟨m₄, hok⟩ := saveBlock_ok n hash
        (applyEntries m.exex.db m.exex.dirtyStems es).deltas k m₃
      rw [hok] at hrun
      cases hrun
    | error e' m₃ =>
      have hsave' := hsave
      rw [hes.saveAddresses_perm hperm, hes.entriesApplied_perm hperm] at hsave'
      refine .inl ⟨e', m₃, ?_, ?_⟩
      · exact bind_apply_of_error (by rw [recordBlock_withEntries, bind_apply_of_error hsave])
      · exact bind_apply_of_error (by rw [recordBlock_withEntries, bind_apply_of_error hsave'])
  -- both tables accept either order, with the same result
  · have hdb' := (UbtDatabase.batchSaveStemAddresses_perm
      (hes.newStemAddresses_perm hperm m.exex.db m.exex.dirtyStems) m.exex.db).symm.trans hdb
    have hups : (indexUpdates es).Perm (indexUpdates es') := hperm.map _
    have hki' := (KeyIndex.applyUpdates_perm hups m.exex.keyIndex).symm.trans hki
    obtain ⟨m₁, hrun₁, he₁⟩ := commit_eq U n hash hdb hki
    obtain ⟨m₂, hrun₂, he₂⟩ := @commit_eq U n hash (m.withEntries es') db ki k hdb' hki'
    have hsame : SameButDeltas m₁.exex m₂.exex := by
      rw [he₁, he₂]
      exact hes.sameButDeltas_committed U hperm m n hash db ki k
    have hroot : m₂.exex.lastRoot = m₁.exex.lastRoot := by rw [hsame]
    rw [← he₁] at hrun₁
    rw [← he₂, hroot] at hrun₂
    exact .inr ⟨_, m₁, m₂, hrun₁, hrun₂, hes.sameCommit U hperm hrun₁ hrun₂ hsame⟩

/-- Three entries under two stems. -/
def sampleEntries : List PendingEntry := [⟨⟨1, 1⟩, 5, 7⟩, ⟨⟨1, 2⟩, 6, 7⟩, ⟨⟨2, 0⟩, 4, 8⟩]

/-- A fresh start commits the sample entries and their reverse alike. -/
theorem commit_order_independent_sample :
    nomtUpdates sampleEntries 1 = nomtUpdates sampleEntries.reverse 1 ∧
      ∃ root m₁ m₂,
        commit sampleUbt 1 11 ((Machine.fresh ⟨2, 10⟩).withEntries sampleEntries) = .ok root m₁ ∧
        commit sampleUbt 1 11 ((Machine.fresh ⟨2, 10⟩).withEntries sampleEntries.reverse) =
          .ok root m₂ ∧ SameCommit 1 m₁.exex m₂.exex := by
  have hes : DistinctEntries sampleEntries := ⟨by decide, by decide, by decide⟩
  obtain ⟨hupdates, hfail | hok⟩ := commit_order_independent sampleUbt 1 11 (.fresh ⟨2, 10⟩) hes
    (List.reverse_perm sampleEntries).symm
  · obtain ⟨e, m', herr, -⟩ := hfail
    have hrun : (commit sampleUbt 1 11
        ((Machine.fresh ⟨2, 10⟩).withEntries sampleEntries)).isOk = true := by decide +kernel
    rw [herr] at hrun
    cases hrun
  · exact ⟨hupdates, hok⟩

end UbtExex
