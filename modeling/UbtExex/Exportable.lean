import UbtExex.Exported
import UbtExex.NomtLog
import UbtExex.Owned

/-!
# Everything persisted can be exported

A value can reach the stored stems by three routes: an entry of a commit, a stem that
was seeded from MDBX, and an old value restored from a stored delta.  By each of them
its stem has its address in both tables, and its key a bit in the key index, before
the value is stored; and neither table ever loses anything.

## Main definitions

* `Registered`, `Writable` — the address of a stem and the bit of a key are there.
* `Exportable` — the invariant of the durable stores.
* `Held` — the invariant of the extension, with the overlay and the pending entries.
* `Reached` — the stores that runs leave, across crashes and restarts.

## Main results

* `keeps_run` — **every operation keeps the invariant at each of its durable writes.**
* `persisted_exportable` — **everything persisted can be exported, and everything can be
  committed again.**
-/

open Std

namespace UbtExex

/-! ### The invariant -/

/-- The stem has the address of its owner in both tables. -/
structure Registered (own : Stem → Address) (d : Disk) (stem : Stem) : Prop where
  address : d.db.loadStemAddress stem = some (own stem)
  index : d.keyIndex.address stem = some (own stem)

/-- The key may get the value: its stem is registered, and so is the key, unless the
value is zero. -/
structure Writable (own : Stem → Address) (d : Disk) (w : TreeKey × B256) : Prop where
  stem : Registered own d w.1.stem
  bit : w.2 ≠ 0 → d.keyIndex.bit w.1 = true

/-- What is stored, or can be restored from a stored delta, is registered. -/
structure Exportable (own : Stem → Address) (d : Disk) : Prop extends OwnedDisk own d where
  stems : ∀ stem, (d.db.loadStem stem).isSome → Registered own d stem
  bits : ∀ key, d.db.value key ≠ 0 → d.keyIndex.bit key = true
  deltas : ∀ n, ∀ delta ∈ d.db.loadBlockDeltas n, Writable own d (deltaWrite delta)

/-- The same with the overlay over the stored stems, and the pending entries owned. -/
structure Held (own : Stem → Address) (s : UbtExEx) : Prop extends Exportable own s.toDisk where
  known : ∀ stem, Known s.db s.dirtyStems stem → Registered own s.toDisk stem
  overlay : ∀ key, s.logical key ≠ 0 → s.keyIndex.bit key = true
  pending : OwnedEntries own s.pendingEntries

theorem exportable_empty (own : Stem → Address) : Exportable own .empty where
  toOwnedDisk := ownedDisk_empty own
  stems stem h := by simp [Disk.empty, UbtDatabase.empty, UbtDatabase.loadStem] at h
  bits key h := by
    simp [Disk.empty, UbtDatabase.empty, UbtDatabase.value, UbtDatabase.loadStem] at h
  deltas n delta h := by
    simp [Disk.empty, UbtDatabase.empty, UbtDatabase.loadBlockDeltas] at h

/-- With an empty overlay there is nothing to add to what is stored. -/
theorem Exportable.held {own : Stem → Address} {s : UbtExEx} (h : Exportable own s.toDisk)
    (hdirty : s.dirtyStems = ∅) (hpending : OwnedEntries own s.pendingEntries) : Held own s where
  toExportable := h
  known stem hk := by
    rw [hdirty, Known, overlayStem_empty] at hk
    exact h.stems stem hk
  overlay key hv := by
    rw [logical_of_clean hdirty] at hv
    exact h.bits key hv
  pending := hpending

/-! ### Grown tables -/

/-- The tables of addresses and keys have grown beside the same stems. -/
structure Grown (d d' : Disk) : Prop where
  stems : d'.db.stems = d.db.stems
  addresses : ∀ stem a, d.db.loadStemAddress stem = some a → d'.db.loadStemAddress stem = some a
  index : ∀ stem a, d.keyIndex.address stem = some a → d'.keyIndex.address stem = some a
  bits : ∀ key, d.keyIndex.bit key = true → d'.keyIndex.bit key = true

namespace Grown

variable {own : Stem → Address} {d d' : Disk}

theorem registered (h : Grown d d') {stem : Stem} (hr : Registered own d stem) :
    Registered own d' stem :=
  ⟨h.addresses _ _ hr.address, h.index _ _ hr.index⟩

theorem writable (h : Grown d d') {w : TreeKey × B256} (hw : Writable own d w) :
    Writable own d' w :=
  ⟨h.registered hw.stem, fun hv => h.bits _ (hw.bit hv)⟩

/-- **Grown tables keep the invariant**, if each delta is an old one or may be written. -/
theorem exportable (h : Grown d d') (he : Exportable own d) (hown : OwnedDisk own d')
    (hdeltas : ∀ n, ∀ delta ∈ d'.db.loadBlockDeltas n,
      delta ∈ d.db.loadBlockDeltas n ∨ Writable own d' (deltaWrite delta)) :
    Exportable own d' where
  toOwnedDisk := hown
  stems stem hs := by
    unfold UbtDatabase.loadStem at hs
    rw [h.stems] at hs
    exact h.registered (he.stems stem hs)
  bits key hv := by
    rw [UbtDatabase.value_of_stems h.stems] at hv
    exact h.bits key (he.bits key hv)
  deltas n delta hd := by
    rcases hdeltas n delta hd with hold | hnew
    · exact h.writable (he.deltas n delta hold)
    · exact hnew

end Grown

/-! ### What the tables beside do not see -/

/-- The stores hold the same, apart from the heads, NOMT and lost deltas. -/
structure Beside (d d' : Disk) : Prop where
  stems : d'.db.stems = d.db.stems
  addresses : d'.db.stemAddresses = d.db.stemAddresses
  index : d'.keyIndex.stemTable = d.keyIndex.stemTable
  deltas : ∀ n, ∀ delta ∈ d'.db.loadBlockDeltas n, delta ∈ d.db.loadBlockDeltas n

namespace Beside

variable {own : Stem → Address} {d d' : Disk}

theorem refl (d : Disk) : Beside d d := ⟨rfl, rfl, rfl, fun _ _ h => h⟩

/-- Beside it nothing is lost. -/
theorem grown (h : Beside d d') : Grown d d' where
  stems := h.stems
  addresses stem a ha := by
    unfold UbtDatabase.loadStemAddress
    rw [h.addresses]
    exact ha
  index stem a ha := by
    unfold KeyIndex.address
    rw [h.index]
    exact ha
  bits key hbit := by
    unfold KeyIndex.bit
    rw [h.index]
    exact hbit

theorem nomt (d : Disk) (nomt : Nomt) : Beside d { d with nomt := nomt } :=
  ⟨rfl, rfl, rfl, fun _ _ h => h⟩

theorem saveHead (d : Disk) (head : UbtHead) : Beside d { d with db := d.db.saveHead head } :=
  ⟨rfl, rfl, rfl, fun _ _ h => h⟩

theorem keyIndexSaveHead (d : Disk) (head : HeadRecord) :
    Beside d { d with keyIndex := d.keyIndex.saveHead head } :=
  ⟨rfl, rfl, rfl, fun _ _ h => h⟩

theorem pruneDeltas (d : Disk) (n : ℕ) : Beside d { d with db := d.db.pruneDeltasBefore n } := by
  refine ⟨rfl, rfl, rfl, fun k delta h => ?_⟩
  rw [UbtDatabase.loadBlockDeltas_prune] at h
  split at h
  · exact absurd h List.not_mem_nil
  · exact h

theorem deleteDeltas (d : Disk) (n : ℕ) : Beside d { d with db := d.db.deleteBlockDeltas n } := by
  refine ⟨rfl, rfl, rfl, fun k delta h => ?_⟩
  rw [UbtDatabase.loadBlockDeltas_delete] at h
  split at h
  · exact absurd h List.not_mem_nil
  · exact h

/-- **The invariant does not depend on them.** -/
theorem exportable (h : Beside d d') (he : Exportable own d) : Exportable own d' := by
  refine h.grown.exportable he ⟨fun stem a ha => ?_, fun stem a ha => ?_⟩ ?_
  · unfold UbtDatabase.loadStemAddress at ha
    rw [h.addresses] at ha
    exact he.addresses stem a ha
  · unfold KeyIndex.address at ha
    rw [h.index] at ha
    exact he.index stem a ha
  · exact fun n delta hd => Or.inl (h.deltas n delta hd)

theorem held {s s' : UbtExEx} (h : Beside s.toDisk s'.toDisk) (hs : Held own s)
    (hdirty : s'.dirtyStems = s.dirtyStems) (hpending : s'.pendingEntries = s.pendingEntries) :
    Held own s' where
  toExportable := h.exportable hs.toExportable
  known stem hk := by
    rw [Known, hdirty, overlayStem_congr h.stems] at hk
    exact h.grown.registered (hs.known stem hk)
  overlay key hv := by
    rw [logical_eq, hdirty, overlayValue_congr h.stems, ← logical_eq] at hv
    exact h.grown.bits key (hs.overlay key hv)
  pending := by
    rw [hpending]
    exact hs.pending

end Beside

/-- What can be exported does not depend on how far NOMT can be rolled back. -/
theorem Exportable.limitLog {own : Stem → Address} {d : Disk} (h : Exportable own d)
    (limit : Option ℕ) : Exportable own (d.limitLog limit) := (Beside.nomt d _).exportable h

/-! ### Writing into the overlay -/

section Overlay

variable {own : Stem → Address} {s : UbtExEx}

/-- Writing a value that may be written keeps the invariant. -/
theorem Held.write (hs : Held own s) {w : TreeKey × B256} (hw : Writable own s.toDisk w) :
    Held own { s with dirtyStems := writeStem s.db s.dirtyStems w.1 w.2 } where
  toExportable := hs.toExportable
  known stem hk := by
    rcases known_writeStem.mp hk with rfl | hk
    · exact hw.stem
    · exact hs.known stem hk
  overlay key hv := by
    have hlogical : ({ s with dirtyStems := writeStem s.db s.dirtyStems w.1 w.2 } : UbtExEx).logical =
        Function.update s.logical w.1 w.2 := by
      rw [logical_eq, logical_eq]
      exact overlayValue_writeStem ..
    rw [hlogical] at hv
    -- only the written key can have become non-zero
    by_cases hkey : key = w.1
    · rw [hkey, Function.update_self] at hv
      rw [hkey]
      exact hw.bit hv
    · rw [Function.update_of_ne hkey] at hv
      exact hs.overlay key hv
  pending := hs.pending

/-- **Restoring the old values of stored deltas keeps the invariant.** -/
theorem Held.applyDeltas (hs : Held own s) {ds : List Delta}
    (hds : ∀ delta ∈ ds, Writable own s.toDisk (deltaWrite delta)) :
    Held own { s with dirtyStems := ds.foldl (applyDelta s.db) s.dirtyStems } := by
  induction ds generalizing s with
  | nil => exact hs
  | cons delta ds ih =>
    obtain ⟨hd, hds⟩ := List.forall_mem_cons.mp hds
    exact ih (hs.write hd) hds

/-- **Draining the overlay keeps the invariant.** -/
theorem Held.drained (hs : Held own s) :
    Held own { s with db := s.db.batchUpdateStems s.dirtyStems.toList, dirtyStems := ∅ } := by
  refine Exportable.held ⟨⟨hs.addresses, hs.index⟩, ?_, ?_, ?_⟩ rfl hs.pending
  · intro stem hstem
    have hr := hs.known stem (by
      rw [UbtDatabase.loadStem_batchUpdateStems] at hstem
      exact hstem)
    exact ⟨hr.address, hr.index⟩
  · intro key hv
    rw [overlayValue_flush, ← logical_eq] at hv
    exact hs.overlay key hv
  · intro n delta hd
    have hw := hs.deltas n delta hd
    exact ⟨⟨hw.stem.address, hw.stem.index⟩, hw.bit⟩

end Overlay

/-! ### Recording a block -/

section Recording

variable {own : Stem → Address} {s : UbtExEx} {n : ℕ} {hash : B256} {db : UbtDatabase}
  {ki : KeyIndex} {k : ℕ}

theorem grown_recorded (n : ℕ) (hash : B256)
    (hdb : s.db.batchSaveStemAddresses (pendingOverlay s).newStemAddresses = .ok db)
    (hki : s.keyIndex.applyUpdates (indexUpdates s.pendingEntries) = .ok (ki, k)) :
    Grown s.toDisk (recorded s n hash db ki k).toDisk where
  stems := by
    rw [UbtDatabase.batchSaveStemAddresses_eq_ok hdb]
    rfl
  addresses := (UbtDatabase.batchSaveStemAddresses_sound hdb).1
  index := (KeyIndex.applyUpdates_sound hki).1
  bits key hbit := (KeyIndex.bit_applyUpdates hki key).mpr (Or.inl hbit)

/-- **A recorded block has registered the keys of its entries.** -/
theorem Held.writable_entry (n : ℕ) (hash : B256) (hs : Held own s)
    (hdb : s.db.batchSaveStemAddresses (pendingOverlay s).newStemAddresses = .ok db)
    (hki : s.keyIndex.applyUpdates (indexUpdates s.pendingEntries) = .ok (ki, k))
    {e : PendingEntry} (he : e ∈ s.pendingEntries) (v : B256) :
    Writable own (recorded s n hash db ki k).toDisk (e.key, v) := by
  have hu : (e.key.stem, e.key.subindex, e.address) ∈ indexUpdates s.pendingEntries :=
    List.mem_map_of_mem he
  refine ⟨⟨?_, ?_⟩, fun _ => ?_⟩
  · -- the stem is known already, or it is new and its address is saved
    have hknown : Known s.db (pendingOverlay s).dirtyStems e.key.stem :=
      known_foldl_applyEntry.mpr (Or.inl ⟨e, he, rfl⟩)
    obtain ⟨hstay, hentry, -⟩ := UbtDatabase.batchSaveStemAddresses_sound hdb
    rcases known_or_new hknown with hold | ⟨a, hnew⟩
    · exact hstay _ _ (hs.known _ hold).address
    · obtain ⟨e', he', heq⟩ := mem_newStemAddresses hnew
      obtain ⟨hstem, ha⟩ := Prod.mk.inj heq
      have hrow : db.loadStemAddress e.key.stem = some a := hentry _ hnew
      change db.loadStemAddress e.key.stem = some (own e.key.stem)
      rw [hrow, ha, hs.pending e' he', ← hstem]
  · have hrow := (KeyIndex.applyUpdates_sound hki).2.1 _ hu
    rw [hs.pending e he] at hrow
    exact hrow
  · exact (KeyIndex.bit_applyUpdates hki e.key).mpr (Or.inr ⟨_, hu, rfl⟩)

/-- **Recording a block keeps the invariant.** -/
theorem Held.recorded (hs : Held own s)
    (hdb : s.db.batchSaveStemAddresses (pendingOverlay s).newStemAddresses = .ok db)
    (hki : s.keyIndex.applyUpdates (indexUpdates s.pendingEntries) = .ok (ki, k)) :
    Held own (UbtExex.recorded s n hash db ki k) := by
  have hgrown := grown_recorded n hash hdb hki
  obtain ⟨hadd, hidx⟩ := hs.toOwnedDisk.accepted hs.pending hdb hki
  have hstems : db.stems = s.db.stems := hgrown.stems
  refine ⟨hgrown.exportable hs.toExportable ⟨hadd, hidx⟩ ?_, ?_, ?_, ?_⟩
  · -- the deltas of the block are under the keys of its entries
    intro j delta hd
    change delta ∈ (⟨db.stems, db.stemAddresses, db.head, savedDeltas db.blockDeltas n
      (pendingOverlay s).deltas⟩ : UbtDatabase).loadBlockDeltas j at hd
    rw [loadBlockDeltas_savedDeltas] at hd
    split at hd
    · rw [deltas_pendingOverlay] at hd
      obtain ⟨w, hw, rfl⟩ := List.mem_map.mp hd
      obtain ⟨w', hmem, hkey⟩ := Writes.exists_of_mem_undoLog hw
      obtain ⟨e, he, rfl⟩ := List.mem_map.mp hmem
      have hwritable := hs.writable_entry n hash hdb hki he w.2
      have hw' : deltaWrite (deltaOf w) = (e.key, w.2) := Prod.ext hkey.symm rfl
      rw [hw']
      exact Or.inr hwritable
    · refine Or.inl ?_
      rw [UbtDatabase.batchSaveStemAddresses_eq_ok hdb] at hd
      exact hd
  · intro stem hk
    change Known db (pendingOverlay s).dirtyStems stem at hk
    rw [Known, overlayStem_congr hstems] at hk
    rcases known_foldl_applyEntry.mp hk with ⟨e, he, rfl⟩ | hold
    · exact (hs.writable_entry n hash hdb hki he 0).stem
    · exact hgrown.registered (hs.known stem hold)
  · intro key hv
    rw [logical_eq] at hv
    change overlayValue db (pendingOverlay s).dirtyStems key ≠ 0 at hv
    rw [overlayValue_congr hstems, overlayValue_pendingOverlay] at hv
    -- a key that an entry writes has its bit from this block, any other had it before
    by_cases hmem : ∃ w ∈ s.pendingWrites, w.1 = key
    · obtain ⟨w, hw, rfl⟩ := hmem
      obtain ⟨e, he, rfl⟩ := List.mem_map.mp hw
      exact (hs.writable_entry n hash hdb hki he 1).bit
        (show (1 : B256) ≠ 0 by decide)
    · rw [Writes.applyAll_of_forall_ne fun w hw hkey => hmem ⟨w, hw, hkey⟩] at hv
      exact hgrown.bits key (hs.overlay key hv)
  · exact fun e he => absurd he List.not_mem_nil

/-- Each durable write that records a block keeps the invariant. -/
theorem Recording.exportable (hs : Held own s) {w : DurableWrite} (h : Recording s n w) :
    Exportable own w.after := by
  have hdeltas : ∀ (db : UbtDatabase) (nomt : Nomt) (ki : KeyIndex),
      db.blockDeltas = s.db.blockDeltas → ∀ j, ∀ delta ∈ db.loadBlockDeltas j,
        delta ∈ s.db.loadBlockDeltas j ∨ Writable own ⟨db, nomt, ki⟩ (deltaWrite delta) := by
    intro db nomt ki hrows j delta hd
    unfold UbtDatabase.loadBlockDeltas at hd
    rw [hrows] at hd
    exact Or.inl hd
  cases h with
  | nomt hstep hafter =>
    rw [hafter]
    exact Beside.exportable (d := s.toDisk) ⟨rfl, rfl, rfl, fun _ _ hd => hd⟩ hs.toExportable
  | @addresses db hstep hdb hafter =>
    rw [hafter]
    -- the key index is written later, but it will be: the entries are owned
    obtain ⟨-, ki, k, -, hki⟩ := hs.toOwnedDisk.accepts hs.pending
    obtain ⟨hadd, -⟩ := hs.toOwnedDisk.accepted hs.pending hdb hki
    have heq := UbtDatabase.batchSaveStemAddresses_eq_ok hdb
    refine Grown.exportable (d := s.toDisk) ⟨?_, ?_, fun _ _ h => h, fun _ h => h⟩ hs.toExportable
      ⟨hadd, hs.index⟩ (hdeltas _ _ _ ?_)
    · rw [heq]
    · exact (UbtDatabase.batchSaveStemAddresses_sound hdb).1
    · rw [heq]
  | @index db ki k hstep hdb hki hafter =>
    rw [hafter]
    have heq := UbtDatabase.batchSaveStemAddresses_eq_ok hdb
    obtain ⟨hadd, hidx⟩ := hs.toOwnedDisk.accepted hs.pending hdb hki
    have hgrown := grown_recorded n 0 hdb hki
    refine Grown.exportable (d := s.toDisk) ⟨?_, hgrown.addresses, hgrown.index, hgrown.bits⟩ hs.toExportable
      ⟨hadd, hidx⟩ (hdeltas _ _ _ ?_)
    · rw [heq]
    · rw [heq]
  | deltas hstep hdb hindex hafter =>
    rw [hafter]
    exact (hs.recorded hdb hindex).toExportable

end Recording

/-! ### Programs -/

/-- The invariant of a machine: of the extension, and of the stores after each of its
durable writes. -/
structure Sound (own : Stem → Address) (m : Machine) : Prop where
  held : Held own m.exex
  writes : ∀ w ∈ m.journal, Exportable own w.after

section Programs

open EStateM

variable {own : Stem → Address}

theorem Sound.limitLog {t : Tracked} (h : Sound own t.machine) (limit : Option ℕ) :
    Sound own (t.limitLog limit).machine := by
  have hbeside := Beside.nomt t.machine.exex.toDisk (t.machine.exex.nomt.limitTo limit)
  exact ⟨@Beside.held own _ (t.limitLog limit).machine.exex hbeside h.held rfl rfl, h.writes⟩

theorem Sound.extends {m m' : Machine} (hm : Sound own m) (hheld : Held own m'.exex)
    (hj : m.Extends (fun w => Exportable own w.after) m') : Sound own m' :=
  ⟨hheld, hj.forall_mem (fun _ hw => hw) hm.writes⟩

/-- Changes of the fields beside the overlay. -/
theorem keeps_update {f : UbtExEx → UbtExEx}
    (h : ∀ s, (f s).toDisk = s.toDisk ∧ (f s).dirtyStems = s.dirtyStems ∧
      (f s).pendingEntries = s.pendingEntries) : Keeps (Sound own) (update f) := by
  intro m hm
  obtain ⟨hdisk, hdirty, hpending⟩ := h m.exex
  refine hm.extends ?_ (.update m f)
  have hbeside : Beside m.exex.toDisk (f m.exex).toDisk := by
    rw [hdisk]
    exact .refl _
  exact hbeside.held hm.held hdirty hpending

/-- Writes of the heads and of NOMT, and deletions of deltas. -/
theorem keeps_persist {step : DurableStep} {f : Disk → Disk} (h : ∀ d, Beside d (f d)) :
    Keeps (Sound own) (persist step f) := by
  intro m hm
  have hheld : Held own { m.exex with toDisk := f m.exex.toDisk } :=
    Beside.held (h m.exex.toDisk) hm.held rfl rfl
  exact hm.extends hheld (.persist hheld.toExportable)

theorem keeps_flushDirty : Keeps (Sound own) flushDirty := by
  intro m hm
  obtain ⟨m', hrun, he, hj⟩ := flushDirty_spec m
  have hheld : Held own m'.exex := by
    rw [he]
    exact hm.held.drained
  rw [hrun]
  refine hm.extends hheld (hj.mono fun w hw => ?_)
  rw [hw.2.2]
  exact hheld.toExportable

theorem keeps_pruneDeltas (n : ℕ) : Keeps (Sound own) (pruneDeltas n) := by
  refine .get_bind fun m => ?_
  dsimp only
  split
  · exact keeps_persist fun d => .pruneDeltas d _
  · exact .pure _

variable (U : Ubt)

theorem keeps_flush (n : ℕ) (hash : B256) : Keeps (Sound own) (flush U n hash) := by
  refine keeps_flushDirty.bind fun _ => .get_bind fun m => ?_
  dsimp only
  apply (keeps_persist fun d => .saveHead d _).bind fun _ => ?_
  apply (keeps_persist fun d => .keyIndexSaveHead d _).bind fun _ => ?_
  refine Keeps.bind (keeps_update ?_) fun _ => ?_
  · exact fun _ => ⟨rfl, rfl, rfl⟩
  · exact (keeps_pruneDeltas n).bind fun _ => .pure _

/-- Owned entries are never refused, and recording them keeps the invariant. -/
theorem keeps_recordBlock (n : ℕ) (hash : B256) : Keeps (Sound own) (recordBlock n hash) := by
  intro m hm
  rcases recordBlock_spec n hash m with
    ⟨e, m', herr, -, -⟩ | ⟨db, ki, k, m', hdb, hki, hrun, he, hj⟩
  -- neither table refuses owned entries
  · obtain ⟨db, ki, k, hdb, hki⟩ := hm.held.toOwnedDisk.accepts hm.held.pending
    rcases herr with herr | herr
    · rw [hdb] at herr
      cases herr
    · rw [hki] at herr
      cases herr
  · rw [hrun]
    refine hm.extends ?_ (hj.mono fun w hw => hw.exportable hm.held)
    change Held own m'.exex
    rw [he]
    exact hm.held.recorded hdb hki

theorem keeps_commit (n : ℕ) (hash : B256) : Keeps (Sound own) (commit U n hash) := by
  refine (keeps_recordBlock n hash).bind fun _ => .get_bind fun m => ?_
  dsimp only
  split
  · exact keeps_flush U n hash
  · exact .pure _

/-- The deltas that a revert restores are stored ones. -/
theorem keeps_revertBlock (n : ℕ) : Keeps (Sound own) (revertBlock n) := by
  intro m hm
  have hrows : ∀ delta ∈ (m.exex.db.loadBlockDeltas n).reverse,
      Writable own m.exex.toDisk (deltaWrite delta) := by
    intro delta hd
    exact hm.held.deltas n delta (List.mem_reverse.mp hd)
  have happlied : Sound own (m.update fun s =>
      { s with dirtyStems := (m.exex.db.loadBlockDeltas n).reverse.foldl (applyDelta s.db) s.dirtyStems }) :=
    hm.extends (hm.held.applyDeltas hrows) (.update _ _)
  unfold revertBlock applyDeltasReverse
  rw [get_bind_apply, update_bind_apply]
  split
  · exact keeps_persist (fun d => .deleteDeltas d n) _ happlied
  · exact happlied

theorem keeps_saveCurrent : Keeps (Sound own) (saveCurrent U) := by
  refine keeps_flushDirty.bind fun _ => .get_bind fun m => ?_
  dsimp only
  apply (keeps_persist fun d => .saveHead d _).bind fun _ => ?_
  exact .pure _

theorem keeps_revert (old : Chain) : Keeps (Sound own) (revert U old) := by
  unfold revert
  apply (keeps_persist fun d => .nomt d _).bind fun _ => ?_
  apply (Keeps.forM fun n _ => keeps_revertBlock n).bind fun _ => ?_
  refine Keeps.bind (keeps_update fun s => ?_) fun _ => .get_bind fun m => ?_
  · split
    · exact ⟨rfl, rfl, rfl⟩
    · exact ⟨rfl, rfl, rfl⟩
  · dsimp only
    split
    · refine (keeps_saveCurrent U).bind fun _ => keeps_update ?_
      exact fun _ => ⟨rfl, rfl, rfl⟩
    · exact .pure _

/-- The entries that the operation commits are owned. -/
def Op.Owned (own : Stem → Address) : Op → Prop
  | .commit _ _ entries => OwnedEntries own entries
  | _ => True

/-- **Every operation keeps the invariant at each of its durable writes.** -/
theorem keeps_run {op : Op} (hop : op.Owned own) : Keeps (Sound own) (op.run U) := by
  cases op with
  | commit n hash es =>
    intro m hm
    rw [Op.state_commit]
    have hpush : Held own (m.push es).exex :=
      ⟨hm.held.toExportable, hm.held.known, hm.held.overlay, hm.held.pending.append hop⟩
    exact keeps_commit U n hash _ (hm.extends hpush (.update _ _))
  | revert old => exact keeps_revert U old
  | shutdown => exact (keeps_saveCurrent U).bind fun _ => .pure _

/-- **Owned operations succeed.** -/
theorem Sound.run_ok {op : Op} {m : Machine} (hm : Sound own m) (hop : op.Owned own) :
    ∃ m', op.run U m = .ok () m' := by
  cases op with
  | commit n hash es =>
    have hpending : OwnedEntries own (m.push es).exex.pendingEntries := hm.held.pending.append hop
    obtain ⟨root, m', hrun, -⟩ := commit_owned U n hash (m := m.push es) hm.held.toOwnedDisk hpending
    exact ⟨m', bind_apply_of_ok hrun⟩
  | revert old => exact ⟨_, revert_eq_ok U old m⟩
  | shutdown => exact ⟨_, shutdown_eq_ok U m⟩

/-- **A run of owned operations succeeds.** -/
theorem Sound.perform_ok {ops : List Op} {m : Machine} (hm : Sound own m)
    (hops : ∀ op ∈ ops, op.Owned own) : ∃ m', perform U ops m = .ok () m' := by
  induction ops generalizing m with
  | nil => exact ⟨m, rfl⟩
  | cons op ops ih =>
    obtain ⟨hop, hops⟩ := List.forall_mem_cons.mp hops
    obtain ⟨m₁, hrun⟩ := hm.run_ok U hop
    have hm₁ : Sound own m₁ := by
      have h := keeps_run U hop m hm
      rw [hrun] at h
      exact h
    obtain ⟨m', hrest⟩ := ih hm₁ hops
    exact ⟨m', EStateM.bind_eq_ok.mpr ⟨(), m₁, hrun, hrest⟩⟩

end Programs

/-! ### Crashes and restarts -/

section Reached

variable (U : Ubt) (own : Stem → Address)

/-- The stores that runs of owned operations leave on disk: fresh ones, those after a
startup, and those after any durable write of a run that starts from a startup. -/
inductive Reached : Disk → Prop
  | empty : Reached .empty
  | opened {config : UbtConfig} {d : Disk} {s : UbtExEx} (hd : Reached d)
      (hnew : UbtExEx.new U config d = .ok s) : Reached s.toDisk
  | crashed {config : UbtConfig} {d : Disk} {s : UbtExEx} {ops : List Op} {w : DurableWrite}
      (hd : Reached d) (hnew : UbtExEx.new U config d = .ok s) (hops : ∀ op ∈ ops, op.Owned own)
      (hw : w ∈ writesOf (perform U ops) s) : Reached w.after

variable {U own}

/-- A startup changes NOMT only. -/
theorem beside_new {config : UbtConfig} {d : Disk} {s : UbtExEx}
    (hnew : UbtExEx.new U config d = .ok s) : Beside d s.toDisk := by
  obtain ⟨-, rfl⟩ := (new_eq_ok_iff U).mp hnew
  have hdisk := (restore_eq config d).1
  unfold UbtExEx.syncNomt
  dsimp only
  split
  · rw [hdisk]
    exact .nomt d _
  · split
    · rw [hdisk]
      exact .refl d
    · rw [hdisk]
      exact .refl d

/-- A startup over stores with the invariant begins a run with the invariant. -/
theorem Exportable.sound_new {config : UbtConfig} {d : Disk} {s : UbtExEx}
    (h : Exportable own d) (hnew : UbtExEx.new U config d = .ok s) : Sound own ⟨s, []⟩ := by
  have hrestored := restored_of_new hnew
  refine ⟨((beside_new hnew).exportable h).held hrestored.dirtyStems ?_, by simp⟩
  rw [hrestored.pendingEntries]
  exact fun e he => absurd he List.not_mem_nil

/-- **The invariant holds of all stores that are reached.** -/
theorem Reached.exportable {d : Disk} (h : Reached U own d) : Exportable own d := by
  induction h with
  | empty => exact exportable_empty own
  | opened hd hnew ih => exact (beside_new hnew).exportable ih
  | crashed hd hnew hops hw ih =>
    -- the write is one of a run that began at a startup over such stores
    have hkeeps := EStateM.Keeps.forM fun op hop => keeps_run U (hops op hop)
    exact (hkeeps _ (ih.sound_new hnew)).writes _ hw

/-- Every stem that is exported has an address. -/
theorem Exportable.addressed {d : Disk} (h : Exportable own d) : Addressed d.db := by
  intro row hrow
  have hstem : d.db.loadStem row.1 = some row.2 := UbtDatabase.mem_iterStems.mp hrow
  rw [(h.stems row.1 (by rw [hstem]; rfl)).address]
  rfl

/-- **Everything persisted can be exported, and everything can be committed again.**  In
all stores that are reached, each stored stem has one address in both tables, and each
non-zero value a bit in the key index.  The full export fails only where no head is
saved yet, and after a restart no operation fails. -/
theorem persisted_exportable {d : Disk} (h : Reached U own d) :
    (∀ stem, (d.db.loadStem stem).isSome →
      ∃ a, d.db.loadStemAddress stem = some a ∧ d.keyIndex.address stem = some a) ∧
      (∀ key v, d.db.loadValue key = some v → v ≠ 0 → d.keyIndex.bit key = true) ∧
      (∀ chainId dir e env, exportFullStateFromMdbx chainId (.over d dir) = .error e env →
        d.db.loadHead = none ∧ e = mdbxError "No canonical state yet") ∧
      ∀ config s ops, UbtExEx.new U config d = .ok s → (∀ op ∈ ops, op.Owned own) →
        ∃ m, perform U ops ⟨s, []⟩ = .ok () m := by
  have hd := h.exportable
  refine ⟨?_, ?_, ?_, ?_⟩
  · intro stem hstem
    have hr := hd.stems stem hstem
    exact ⟨own stem, hr.address, hr.index⟩
  · intro key v hload hv
    apply hd.bits
    unfold UbtDatabase.loadValue at hload
    obtain ⟨node, hnode, hget⟩ := Option.bind_eq_some_iff.mp hload
    rw [UbtDatabase.value_eq_loadStem, hnode, Option.getD_some, StemNode.value, hget]
    exact hv
  · intro chainId dir e env herr
    unfold exportFullStateFromMdbx at herr
    cases hhead : d.db.loadHead with
    | some head =>
      rw [exportFromMdbx_of_addressed hhead hd.addressed] at herr
      cases herr
    | none =>
      rw [exportFromMdbx_of_headless hhead] at herr
      injection herr with herr
      exact ⟨rfl, herr.symm⟩
  · intro config s ops hnew hops
    exact (hd.sound_new hnew).perform_ok U hops

/-- A crash between the stems and the head of the second of two blocks. -/
theorem reached_secondStems : Reached sampleUbt (fun _ => 7) secondStems.after := by
  refine @Reached.crashed _ _ ⟨1, 10⟩ _ _ crashOps _ .empty (UbtExEx.new_empty _ _) ?_
    (List.get_mem _ _)
  simp [crashOps, Op.Owned, OwnedEntries]

/-- After that crash the slot that was written has its address and its bit. -/
theorem persisted_exportable_secondStems :
    (∃ a, secondStems.after.db.loadStemAddress (slotKey 7 1).stem = some a ∧
        secondStems.after.keyIndex.address (slotKey 7 1).stem = some a) ∧
      secondStems.after.keyIndex.bit (slotKey 7 1) = true :=
  ⟨(persisted_exportable reached_secondStems).1 _ (by decide +kernel),
    (persisted_exportable reached_secondStems).2.1 _ 2 (by decide +kernel) (by decide)⟩

end Reached

end UbtExex
