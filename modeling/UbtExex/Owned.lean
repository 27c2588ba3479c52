import UbtExex.Commits
import UbtExex.Index

/-!
# Stems with one owner

Every stem belongs to one account, whose address goes into two tables when the stem
is first written.  As long as the entries give each stem the address of its owner,
nothing a commit does can fail, and the tables hold what the entries say, however
often they are committed.

## Main definitions

* `flushed` — the extension after a flush.
* `OwnedEntries`, `OwnedDisk` — entries and tables that give each stem its owner.

## Main results

* `commit_effect` — **what a successful commit leaves, field by field.**
* `commit_owned` — **a commit of owned entries over owned tables succeeds.**
-/

open Std

namespace UbtExex

/-! ### New stems -/

/-- The new stems of a loop are those of entries whose stem was not known. -/
theorem mem_newStemAddresses_foldl {db : UbtDatabase} {entries : List PendingEntry} {o : Overlay}
    {p : Stem × Address} (hp : p ∈ (entries.foldl (applyEntry db) o).newStemAddresses) :
    p ∈ o.newStemAddresses ∨ ∃ e ∈ entries, p = (e.key.stem, e.address) := by
  induction entries generalizing o with
  | nil => exact Or.inl hp
  | cons e es ih =>
    rcases ih hp with hp | ⟨e', he', hp⟩
    · unfold applyEntry at hp
      dsimp only at hp
      split at hp
      · rcases List.mem_append.mp hp with hp | hp
        · exact Or.inl hp
        · exact Or.inr ⟨e, List.mem_cons_self, List.mem_singleton.mp hp⟩
      · exact Or.inl hp
    · exact Or.inr ⟨e', List.mem_cons_of_mem _ he', hp⟩

theorem mem_newStemAddresses {db : UbtDatabase} {dirty : ExtTreeMap Stem StemNode}
    {entries : List PendingEntry} {p : Stem × Address}
    (hp : p ∈ (applyEntries db dirty entries).newStemAddresses) :
    ∃ e ∈ entries, p = (e.key.stem, e.address) :=
  (mem_newStemAddresses_foldl hp).resolve_left List.not_mem_nil

theorem newStemAddresses_stay {db : UbtDatabase} {entries : List PendingEntry} {o : Overlay}
    {p : Stem × Address} (hp : p ∈ o.newStemAddresses) :
    p ∈ (entries.foldl (applyEntry db) o).newStemAddresses := by
  induction entries generalizing o with
  | nil => exact hp
  | cons e es ih =>
    apply ih
    unfold applyEntry
    dsimp only
    split
    · exact List.mem_append_left _ hp
    · exact hp

/-- A stem that the loop makes known was known before or is new. -/
theorem known_or_new {db : UbtDatabase} {entries : List PendingEntry} {o : Overlay} {stem : Stem}
    (hk : Known db (entries.foldl (applyEntry db) o).dirtyStems stem) :
    Known db o.dirtyStems stem ∨
      ∃ a, (stem, a) ∈ (entries.foldl (applyEntry db) o).newStemAddresses := by
  induction entries generalizing o with
  | nil => exact Or.inl hk
  | cons e es ih =>
    rcases ih hk with hk | hnew
    · rw [dirtyStems_applyEntry, known_writeStem] at hk
      rcases hk with rfl | hk
      · by_cases hold : Known db o.dirtyStems e.key.stem
        · exact Or.inl hold
        · -- the entry's stem is in neither layer, so this step lists it
          refine Or.inr ⟨e.address, newStemAddresses_stay (o := applyEntry db o e) ?_⟩
          rw [newStemAddresses_of_new hold]
          exact List.mem_append_right _ List.mem_cons_self
      · exact Or.inl hk
    · exact Or.inr hnew

/-! ### The effect of a commit -/

variable (U : Ubt)

/-- The extension after a flush of the block. -/
def flushed (s : UbtExEx) (n : ℕ) (hash : B256) : UbtExEx :=
  let db := s.db.batchUpdateStems s.dirtyStems.toList
  let root := computeRoot U db
  { s with
    db := retainDeltas (db.saveHead ⟨n, hash, root, s.stemCount⟩) n s.deltaRetention
    keyIndex := s.keyIndex.saveHead ⟨n, hash, root, s.stemCount⟩
    dirtyStems := ∅
    lastPersistedBlock := n
    lastPersistedHash := hash
    lastRoot := root }

theorem flush_eq (n : ℕ) (hash : B256) (m : Machine) :
    ∃ m', flush U n hash m = .ok (flushed U m.exex n hash).lastRoot m' ∧
      m'.exex = flushed U m.exex n hash := by
  obtain ⟨root, m', hrun, hroot, he, -⟩ := flush_spec U n hash m
  have hroot' : root = (flushed U m.exex n hash).lastRoot := by
    rw [hroot]
    exact computeRoot_congr U (by rw [he, stems_retainDeltas]; rfl)
  refine ⟨m', by rw [hrun, hroot'], ?_⟩
  rw [he, hroot']
  rfl

/-- The extension after a block is committed. -/
def committed (s : UbtExEx) (n : ℕ) (hash : B256) (db : UbtDatabase) (keyIndex : KeyIndex)
    (newStems : ℕ) : UbtExEx :=
  if s.shouldFlush n then flushed U (recorded s n hash db keyIndex newStems) n hash
  else recorded s n hash db keyIndex newStems

/-- A block whose addresses are accepted is committed. -/
theorem commit_eq (n : ℕ) (hash : B256) {m : Machine} {db : UbtDatabase} {keyIndex : KeyIndex}
    {k : ℕ}
    (hdb : m.exex.db.batchSaveStemAddresses (pendingOverlay m.exex).newStemAddresses = .ok db)
    (hindex : m.exex.keyIndex.applyUpdates (indexUpdates m.exex.pendingEntries) =
      .ok (keyIndex, k)) :
    ∃ m', commit U n hash m = .ok (committed U m.exex n hash db keyIndex k).lastRoot m' ∧
      m'.exex = committed U m.exex n hash db keyIndex k := by
  unfold commit
  rcases recordBlock_spec n hash m with
    ⟨e, m₁, herr, -, -⟩ | ⟨db', ki', k', m₁, hdb', hki', hrec, he₁, -⟩
  · rcases herr with herr | herr
    · rw [hdb] at herr; cases herr
    · rw [hindex] at herr; cases herr
  obtain rfl := Except.ok.inj (hdb.symm.trans hdb')
  obtain ⟨rfl, rfl⟩ := Prod.mk.inj (Except.ok.inj (hindex.symm.trans hki'))
  rw [bind_apply_of_ok hrec, get_bind_apply]
  have hflag : m₁.exex.shouldFlush n = m.exex.shouldFlush n := by rw [he₁]; rfl
  unfold committed
  rw [hflag]
  cases m.exex.shouldFlush n with
  | false =>
    refine ⟨m₁, ?_, he₁⟩
    rw [← he₁]
    rfl
  | true =>
    obtain ⟨m₂, hrun, he₂⟩ := flush_eq U n hash m₁
    rw [he₁] at hrun he₂
    exact ⟨m₂, hrun, he₂⟩

/-- **What a successful commit leaves, field by field.** -/
theorem commit_effect {n : ℕ} {hash : B256} {m m' : Machine} {root : B256}
    (h : commit U n hash m = .ok root m') :
    ∃ db keyIndex k,
      m.exex.db.batchSaveStemAddresses (pendingOverlay m.exex).newStemAddresses = .ok db ∧
      m.exex.keyIndex.applyUpdates (indexUpdates m.exex.pendingEntries) = .ok (keyIndex, k) ∧
      m'.exex = committed U m.exex n hash db keyIndex k ∧ root = m'.exex.lastRoot := by
  rcases recordBlock_spec n hash m with
    ⟨e, m₁, -, hrec, -⟩ | ⟨db, ki, k, m₁, hdb, hki, -, -, -⟩
  · unfold commit at h
    rw [bind_apply_of_error hrec] at h
    cases h
  · obtain ⟨m₂, hrun, he⟩ := commit_eq U n hash hdb hki
    rw [h] at hrun
    obtain ⟨rfl, rfl⟩ : root = _ ∧ m' = m₂ := by
      injection hrun with hroot hm
      exact ⟨hroot, hm⟩
    exact ⟨db, ki, k, hdb, hki, he, by rw [he]⟩

/-- The head of the key index after a commit. -/
theorem keyIndexHead_commit {n : ℕ} {hash : B256} {m m' : Machine} {root : B256}
    (h : commit U n hash m = .ok root m') :
    m'.exex.keyIndex.loadHead =
      if m.exex.shouldFlush n then some ⟨n, hash, m'.exex.lastRoot, m'.exex.stemCount⟩
      else m.exex.keyIndex.loadHead := by
  obtain ⟨db, ki, k, -, hki, he, -⟩ := commit_effect U h
  rw [he]
  unfold committed
  split
  · rfl
  · exact (KeyIndex.applyUpdates_sound hki).2.2

/-- The MDBX head after a commit. -/
theorem head_commit {n : ℕ} {hash : B256} {m m' : Machine} {root : B256}
    (h : commit U n hash m = .ok root m') :
    m'.exex.db.loadHead =
      if m.exex.shouldFlush n then some ⟨n, hash, m'.exex.lastRoot, m'.exex.stemCount⟩
      else m.exex.db.loadHead := by
  obtain ⟨db, ki, k, hdb, -, he, -⟩ := commit_effect U h
  rw [he]
  unfold committed
  split
  · exact head_retainDeltas ..
  · show db.head = m.exex.db.head
    rw [UbtDatabase.batchSaveStemAddresses_eq_ok hdb]

/-! ### One owner for each stem -/

/-- The entries give each stem the address of its owner. -/
def OwnedEntries (own : Stem → Address) (entries : List PendingEntry) : Prop :=
  ∀ e ∈ entries, e.address = own e.key.stem

theorem OwnedEntries.append {own : Stem → Address} {es es' : List PendingEntry}
    (h : OwnedEntries own es) (h' : OwnedEntries own es') : OwnedEntries own (es ++ es') := by
  intro e he
  rcases List.mem_append.mp he with he | he
  · exact h e he
  · exact h' e he

/-- The addresses in both tables are those of the owners. -/
structure OwnedDisk (own : Stem → Address) (d : Disk) : Prop where
  addresses : ∀ stem a, d.db.loadStemAddress stem = some a → a = own stem
  index : ∀ stem a, d.keyIndex.address stem = some a → a = own stem

theorem ownedDisk_empty (own : Stem → Address) : OwnedDisk own .empty where
  addresses stem a h := by
    simp [Disk.empty, UbtDatabase.loadStemAddress, UbtDatabase.empty] at h
  index stem a h := by
    simp [Disk.empty, KeyIndex.address, KeyIndex.rowAddress, KeyIndex.empty] at h

variable {own : Stem → Address}

/-- Owned tables accept the addresses of owned entries. -/
theorem OwnedDisk.accepts {s : UbtExEx} (hs : OwnedDisk own s.toDisk)
    (he : OwnedEntries own s.pendingEntries) :
    ∃ db keyIndex k,
      s.db.batchSaveStemAddresses (pendingOverlay s).newStemAddresses = .ok db ∧
      s.keyIndex.applyUpdates (indexUpdates s.pendingEntries) = .ok (keyIndex, k) := by
  have hnew : ∀ p ∈ (pendingOverlay s).newStemAddresses, p.2 = own p.1 := by
    intro p hp
    obtain ⟨e, hmem, rfl⟩ := mem_newStemAddresses hp
    exact he e hmem
  have hups : ∀ u ∈ indexUpdates s.pendingEntries, u.2.2 = own u.1 := by
    intro u hu
    obtain ⟨e, hmem, rfl⟩ := List.mem_map.mp hu
    exact he e hmem
  obtain ⟨db, hdb⟩ := UbtDatabase.batchSaveStemAddresses_accepts hs.addresses hnew
  obtain ⟨ki, k, hki⟩ := KeyIndex.applyUpdates_accepts hs.index hups
  exact ⟨db, ki, k, hdb, hki⟩

/-- Accepted addresses of owned entries leave owned tables. -/
theorem OwnedDisk.accepted {s : UbtExEx} {db : UbtDatabase} {keyIndex : KeyIndex} {k : ℕ}
    (hs : OwnedDisk own s.toDisk) (he : OwnedEntries own s.pendingEntries)
    (hdb : s.db.batchSaveStemAddresses (pendingOverlay s).newStemAddresses = .ok db)
    (hindex : s.keyIndex.applyUpdates (indexUpdates s.pendingEntries) = .ok (keyIndex, k)) :
    (∀ stem a, db.loadStemAddress stem = some a → a = own stem) ∧
      ∀ stem a, keyIndex.address stem = some a → a = own stem := by
  constructor
  · intro stem a ha
    obtain ⟨-, hentry, hother⟩ := UbtDatabase.batchSaveStemAddresses_sound hdb
    -- the address of a stem is the saved one, or that of the table before
    by_cases hnew : ∃ p ∈ (pendingOverlay s).newStemAddresses, p.1 = stem
    · obtain ⟨p, hp, rfl⟩ := hnew
      obtain ⟨e, hmem, rfl⟩ := mem_newStemAddresses hp
      rw [hentry _ hp] at ha
      rw [← Option.some.inj ha]
      exact he e hmem
    · rw [hother stem fun p hp hst => hnew ⟨p, hp, hst⟩] at ha
      exact hs.addresses stem a ha
  · intro stem a ha
    obtain ⟨hstay, hentry, -⟩ := KeyIndex.applyUpdates_sound hindex
    rcases (KeyIndex.isSome_applyUpdates hindex stem).mp (by rw [ha]; rfl) with hold | ⟨u, hu, rfl⟩
    · obtain ⟨a', ha'⟩ := Option.isSome_iff_exists.mp hold
      rw [hstay stem a' ha'] at ha
      rw [← Option.some.inj ha]
      exact hs.index stem a' ha'
    · obtain ⟨e, hmem, rfl⟩ := List.mem_map.mp hu
      have := hentry _ hu
      rw [ha] at this
      rw [Option.some.inj this]
      exact he e hmem

/-- A flush leaves the addresses as they are. -/
theorem OwnedDisk.committed {s : UbtExEx} {n : ℕ} {hash : B256} {db : UbtDatabase}
    {keyIndex : KeyIndex} {k : ℕ} (hs : OwnedDisk own s.toDisk)
    (he : OwnedEntries own s.pendingEntries)
    (hdb : s.db.batchSaveStemAddresses (pendingOverlay s).newStemAddresses = .ok db)
    (hindex : s.keyIndex.applyUpdates (indexUpdates s.pendingEntries) = .ok (keyIndex, k)) :
    OwnedDisk own (UbtExex.committed U s n hash db keyIndex k).toDisk := by
  obtain ⟨hadd, hidx⟩ := hs.accepted he hdb hindex
  unfold UbtExex.committed
  split
  · constructor
    · unfold flushed retainDeltas
      split <;> exact hadd
    · exact hidx
  · exact ⟨hadd, hidx⟩

/-- **A commit of owned entries over owned tables succeeds**, and leaves owned tables. -/
theorem commit_owned (n : ℕ) (hash : B256) {m : Machine} (hs : OwnedDisk own m.exex.toDisk)
    (he : OwnedEntries own m.exex.pendingEntries) :
    ∃ root m', commit U n hash m = .ok root m' ∧ OwnedDisk own m'.exex.toDisk := by
  obtain ⟨db, ki, k, hdb, hki⟩ := hs.accepts he
  obtain ⟨m', hrun, he'⟩ := commit_eq U n hash hdb hki
  refine ⟨_, m', hrun, ?_⟩
  rw [he']
  exact hs.committed U he hdb hki

end UbtExex
