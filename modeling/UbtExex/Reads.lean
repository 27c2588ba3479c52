import UbtExex.Crash

/-!
# The two read paths

`get_stem` reads a stem from the overlay if the overlay has it.  `get_value` falls
through to MDBX for every subindex that the overlay's node does not hold, so also for
one that it has deleted.  The two agree exactly when MDBX holds no value that the
state does not have any more.

## Main definitions

* `PathsAgree` — both paths give the same for every key.
* `NoDeletedRead` — the condition on an operation, before it is made.

## Main results

* `pathsAgree_iff` — when the paths agree.
* `pathsAgree_step` — one operation.
* `read_paths_agree_iff` — **the paths agree all along a run if and only if no operation
  that does not flush deletes a stored value.**
* `getValue_reads_deleted` — a value that is deleted and still read.
-/

open Std

namespace UbtExex

/-! ### When the paths agree -/

theorem StemNode.getValue_eq_none_iff {n : StemNode} {i : UInt8} :
    n.getValue i = none ↔ n.value i = 0 := by
  have hz : n.getValue i ≠ some 0 := n.values_ne_zero i
  unfold StemNode.value
  cases h : n.getValue i with
  | none => simp
  | some v =>
    rw [Option.getD_some]
    exact iff_of_false (by simp) fun hv => hz (by rw [h, hv])

theorem UbtDatabase.loadValue_eq_none_iff {db : UbtDatabase} {key : TreeKey} :
    db.loadValue key = none ↔ db.value key = 0 := by
  unfold UbtDatabase.loadValue UbtDatabase.value
  cases db.loadStem key.stem with
  | none => simp
  | some node => exact StemNode.getValue_eq_none_iff

/-- `get_value` gives what the node of `get_stem` holds. -/
def PathsAgree (s : UbtExEx) : Prop :=
  ∀ key : TreeKey, s.getValue key = (s.getStem key.stem).bind fun node => node.getValue key.subindex

/-- **The paths differ at a key exactly when it is deleted and its old value stored.** -/
theorem getValue_eq_iff (s : UbtExEx) (key : TreeKey) :
    (s.getValue key = (s.getStem key.stem).bind fun node => node.getValue key.subindex) ↔
      (s.logical key = 0 → s.db.value key = 0) := by
  unfold UbtExEx.getValue UbtExEx.logical UbtExEx.getStem
  cases hdirty : s.dirtyStems[key.stem]? with
  | none =>
    -- a stem outside the overlay is read from MDBX by both paths
    have hvalue : s.db.value key =
        ((s.db.loadStem key.stem).map fun node => node.value key.subindex).getD 0 := rfl
    constructor
    · intro _ h
      rw [hvalue]
      exact h
    · exact fun _ => rfl
  | some node =>
    simp only [Option.bind_some, Option.map_some, Option.getD_some]
    cases hget : node.getValue key.subindex with
    | some v =>
      have hne : node.value key.subindex ≠ 0 := by
        rw [ne_eq, ← StemNode.getValue_eq_none_iff, hget]
        simp
      exact ⟨fun _ h => absurd h hne, fun _ => rfl⟩
    | none =>
      rw [StemNode.getValue_eq_none_iff.mp hget]
      simp only [true_imp_iff]
      exact UbtDatabase.loadValue_eq_none_iff

theorem pathsAgree_iff {s : UbtExEx} :
    PathsAgree s ↔ ∀ key, s.logical key = 0 → s.db.value key = 0 :=
  forall_congr' fun key => getValue_eq_iff s key

/-- With an empty overlay both paths read MDBX. -/
theorem pathsAgree_of_clean {s : UbtExEx} (h : s.dirtyStems = ∅) : PathsAgree s := by
  rw [pathsAgree_iff, logical_of_clean h]
  exact fun _ h => h

/-! ### One operation -/

/-- An operation that writes no checkpoint leaves no key at zero that MDBX holds a
value for: a commit by its entries, a revert by the stored deltas that it applies. -/
def NoDeletedRead (s : UbtExEx) : Op → Prop
  | .commit n _ es => s.shouldFlush n = false → ∀ key,
      Writes.lastWrite ((s.pendingEntries ++ es).map PendingEntry.write) key = some 0 →
        s.db.value key = 0
  | .revert old => (¬∃ b ∈ old.blocks, b.number ≤ s.lastPersistedBlock) → ∀ key,
      Writes.lastWrite (storedUndo s.db old.numbersDescending) key = some 0 → s.db.value key = 0
  | .shutdown => True

/-- Writes over the stored values, when the paths agree before them. -/
theorem pathsAgree_writes {s s' : UbtExEx} {ws : List (TreeKey × B256)} (h : PathsAgree s)
    (hlogical : s'.logical = Writes.applyAll s.logical ws) (hvalue : s'.db.value = s.db.value) :
    PathsAgree s' ↔ ∀ key, Writes.lastWrite ws key = some 0 → s.db.value key = 0 := by
  rw [pathsAgree_iff] at h ⊢
  rw [hlogical, hvalue]
  refine forall_congr' fun key => ?_
  rw [Writes.applyAll_eq_lastWrite]
  cases Writes.lastWrite ws key with
  | none => simpa using h key
  | some v => simp

variable {U : Ubt}

/-- **One operation**: the paths agree after it exactly when it meets the condition. -/
theorem pathsAgree_step {m m' : Machine} {op : Op} (h : PathsAgree m.exex)
    (hstep : OpStep U m op m') : PathsAgree m'.exex ↔ NoDeletedRead m.exex op := by
  cases op with
  | commit n hash es =>
    obtain ⟨root, hrun⟩ := Op.commit_eq_ok hstep
    have hc := commit_ok U hrun
    have hpush : (m.push es).exex.logical = m.exex.logical := rfl
    cases hf : m.exex.shouldFlush n with
    | true =>
      have hclean := (hc.flushed hf).1
      refine ⟨fun _ hnot => ?_, fun _ => pathsAgree_of_clean hclean⟩
      rw [hf] at hnot
      cases hnot
    | false =>
      obtain ⟨-, -, -, -, hstems, -⟩ := hc.kept hf
      rw [pathsAgree_writes h hc.logical (UbtDatabase.value_of_stems hstems)]
      exact ⟨fun hkeys _ => hkeys, fun hkeys => hkeys hf⟩
  | revert old =>
    have hr := revert_ok U hstep
    by_cases hpers : ∃ b ∈ old.blocks, b.number ≤ m.exex.lastPersistedBlock
    · have hclean := (hr.persisted hpers).1
      exact ⟨fun _ hnot => absurd hpers hnot, fun _ => pathsAgree_of_clean hclean⟩
    · obtain ⟨-, -, -, hstems, -⟩ := hr.kept hpers
      rw [pathsAgree_writes h hr.logical (UbtDatabase.value_of_stems hstems)]
      exact ⟨fun hkeys _ => hkeys, fun hkeys => hkeys hpers⟩
  | shutdown =>
    have hclean : m'.exex.dirtyStems = ∅ := by rw [shutdown_effect hstep]
    exact ⟨fun _ => trivial, fun _ => pathsAgree_of_clean hclean⟩

/-! ### Runs -/

/-- **In every run from an empty overlay the two read paths agree in all states if and
only if no commit and no revert that writes no checkpoint leaves a key at zero that
MDBX holds a value for**, whatever the flush interval. -/
theorem read_paths_agree_iff {m₀ m : Machine} {h : List (Machine × Op)}
    (hclean : m₀.exex.dirtyStems = ∅) (hrun : Run (OpStep U) m₀ h m) :
    (PathsAgree m.exex ∧ ∀ p ∈ h, PathsAgree p.1.exex) ↔ ∀ p ∈ h, NoDeletedRead p.1.exex p.2 := by
  refine @Run.good_iff _ _ (OpStep U) m₀ m h (fun m => PathsAgree m.exex)
    (fun m => PathsAgree m.exex) (fun m op => NoDeletedRead m.exex op) (pathsAgree_of_clean hclean)
    (fun _ hm => hm) ?_ hrun
  intro m op m' hm hop
  have hiff := pathsAgree_step hm hop
  exact ⟨hiff, hiff.mpr⟩

/-- An extension that flushes every block keeps to the condition. -/
theorem noDeletedRead_of_interval {s : UbtExEx} {n : ℕ} {hash : B256} {es : List PendingEntry}
    (h : s.flushInterval ≤ 1) : NoDeletedRead s (.commit n hash es) := by
  intro hf
  unfold UbtExEx.shouldFlush at hf
  simp only [Bool.or_eq_false_iff, decide_eq_false_iff_not] at hf
  omega

/-! ### A deleted value that is read -/

/-- The commit of blocks 1 and 2, which sets slot 1 of account 7. -/
def setSlot : Op := .commit 2 12 [⟨slotKey 7 1, 1, 7⟩]

/-- The commit of block 3, which clears the slot. -/
def clearSlot : Op := .commit 3 13 [⟨slotKey 7 1, 0, 7⟩]

/-- The machine after the slot is set. -/
def slotSet (config : UbtConfig) : Machine := (setSlot.run sampleUbt (.fresh config)).state

/-- The machine after the slot is cleared. -/
def slotCleared (config : UbtConfig) : Machine := (clearSlot.run sampleUbt (slotSet config)).state

/-- A commit of block 3 that clears another slot, which is not stored. -/
def clearOther : Op := .commit 3 13 [⟨slotKey 7 2, 0, 7⟩]

/-- The machine after the other slot is cleared. -/
def otherCleared (config : UbtConfig) : Machine := (clearOther.run sampleUbt (slotSet config)).state

/-- The paths agree when every block is flushed, and when a commit that does not flush clears
what is not stored. -/
theorem read_paths_agree_two_intervals : PathsAgree (slotCleared ⟨1, 10⟩).exex ∧
    (slotSet ⟨2, 10⟩).exex.shouldFlush 3 = false ∧ PathsAgree (otherCleared ⟨2, 10⟩).exex := by
  have hset : ∀ config : UbtConfig, (setSlot.run sampleUbt (.fresh config)).isOk = true →
      OpStep sampleUbt (.fresh config) setSlot (slotSet config) := fun _ => .of_isOk
  refine ⟨?_, by decide +kernel, ?_⟩
  · have hclear : OpStep sampleUbt (slotSet ⟨1, 10⟩) clearSlot (slotCleared ⟨1, 10⟩) :=
      .of_isOk (by decide +kernel)
    have hrun := Run.snoc (.snoc .nil (hset ⟨1, 10⟩ (by decide +kernel))) hclear
    refine ((read_paths_agree_iff rfl hrun).mpr ?_).1
    refine List.forall_mem_cons.mpr ⟨noDeletedRead_of_interval (by decide +kernel), ?_⟩
    exact List.forall_mem_cons.mpr ⟨noDeletedRead_of_interval (by decide +kernel), by simp⟩
  · have hclear : OpStep sampleUbt (slotSet ⟨2, 10⟩) clearOther (otherCleared ⟨2, 10⟩) :=
      .of_isOk (by decide +kernel)
    have hrun := Run.snoc (.snoc .nil (hset ⟨2, 10⟩ (by decide +kernel))) hclear
    refine ((read_paths_agree_iff rfl hrun).mpr ?_).1
    refine List.forall_mem_cons.mpr ⟨?_, List.forall_mem_cons.mpr ⟨?_, by simp⟩⟩
    · -- only the other slot is written
      intro _ key hzero
      have hpending : (slotSet ⟨2, 10⟩).exex.pendingEntries = [] := by decide +kernel
      obtain ⟨e, he, hwrite⟩ := List.mem_map.mp (Writes.mem_of_lastWrite hzero)
      rw [hpending, List.nil_append] at he
      obtain rfl := List.mem_singleton.mp he
      obtain rfl : slotKey 7 2 = key := congrArg Prod.fst hwrite
      decide +kernel
    · -- the second block is flushed
      intro hflush
      exact absurd hflush (by decide +kernel)

/-- **A deleted value is read**: with a flush interval of two the value of block 2 is
stored, block 3 clears it in the overlay, and `get_value` finds it in MDBX. -/
theorem getValue_reads_deleted :
    ¬∀ (U : Ubt) (config : UbtConfig) (h : List (Machine × Op)) (m : Machine),
      Run (OpStep U) (.fresh config) h m → PathsAgree m.exex := by
  intro hall
  have hset : OpStep sampleUbt (.fresh ⟨2, 10⟩) setSlot (slotSet ⟨2, 10⟩) :=
    .of_isOk (by decide +kernel)
  have hclear : OpStep sampleUbt (slotSet ⟨2, 10⟩) clearSlot (slotCleared ⟨2, 10⟩) :=
    .of_isOk (by decide +kernel)
  have hagree := hall _ _ _ _ (.snoc (.snoc .nil hset) hclear) (slotKey 7 1)
  revert hagree
  decide +kernel

end UbtExex
