import UbtExex.Owned
import UbtExex.Startup

/-!
# Kill and replay

At a kill the stores are at different blocks: the stems and the heads at the last
flush, NOMT, the addresses, the key index and the deltas at the last commit.  A
restart takes NOMT back to the last flush.  The replay of the commits since then
finds the other tables ahead of it: what it would add is already there, and it
leaves them as they are until it has caught up.

## Main definitions

* `Aside` — the tables that no flush writes.
* `Alike` — extensions that differ in these tables and in the count of stems only.
* `AtRest` — an extension as a restart would find it.
* `SameStores` — what the two runs are compared by.

## Main results

* `lastRest` — a run is at rest after a part of it and never flushes again.
* `catchUp` — **a replay leaves the tables that are ahead as they are.**
* `kill_and_replay` — **a run that is killed ends as the one that is not.**
-/

open Std

namespace UbtExex

/-! ### The tables beside the checkpoint -/

/-- The tables that grow with every commit, whether or not it flushes. -/
structure Aside where
  stemAddresses : ExtTreeMap Stem Address
  blockDeltas : ExtTreeMap ℕ (List Delta)
  stemTable : ExtTreeMap Stem StemRecord

/-- The tables beside the checkpoint. -/
def Disk.aside (d : Disk) : Aside :=
  ⟨d.db.stemAddresses, d.db.blockDeltas, d.keyIndex.stemTable⟩

/-- A head without its number of stems. -/
def UbtHead.block (hd : UbtHead) : ℕ × B256 × B256 := (hd.blockNumber, hd.blockHash, hd.root)

/-- A head without its number of stems. -/
def HeadRecord.block (hd : HeadRecord) : ℕ × B256 × B256 :=
  (hd.blockNumber, hd.blockHash, hd.root)

/-- Extensions that differ in the tables beside the checkpoint and in the number of
stems only. -/
structure Alike (s s' : UbtExEx) : Prop where
  stems : s.db.stems = s'.db.stems
  head : s.db.head.map UbtHead.block = s'.db.head.map UbtHead.block
  nomt : s.nomt = s'.nomt
  indexHead : s.keyIndex.head.map HeadRecord.block = s'.keyIndex.head.map HeadRecord.block
  lastBlock : s.lastBlock = s'.lastBlock
  lastHash : s.lastHash = s'.lastHash
  lastRoot : s.lastRoot = s'.lastRoot
  pendingEntries : s.pendingEntries = s'.pendingEntries
  dirtyStems : s.dirtyStems = s'.dirtyStems
  flushInterval : s.flushInterval = s'.flushInterval
  deltaRetention : s.deltaRetention = s'.deltaRetention
  lastPersistedBlock : s.lastPersistedBlock = s'.lastPersistedBlock
  lastPersistedHash : s.lastPersistedHash = s'.lastPersistedHash

/-- The loop of `commit` reads the stems only. -/
theorem applyEntries_congr {db db' : UbtDatabase} (h : db.stems = db'.stems)
    (dirty : ExtTreeMap Stem StemNode) (entries : List PendingEntry) :
    applyEntries db dirty entries = applyEntries db' dirty entries := by
  have hload : db.loadStem = db'.loadStem := by
    funext stem
    unfold UbtDatabase.loadStem
    rw [h]
  have hstep : applyEntry db = applyEntry db' := by
    funext o e
    unfold applyEntry seedStem
    rw [hload]
  unfold applyEntries
  rw [hstep]

namespace Alike

variable {s s' : UbtExEx}

theorem pendingOverlay (h : Alike s s') : pendingOverlay s = UbtExex.pendingOverlay s' := by
  unfold UbtExex.pendingOverlay
  rw [h.dirtyStems, h.pendingEntries, applyEntries_congr h.stems]

theorem logical (h : Alike s s') : s.logical = s'.logical := by
  rw [logical_eq, logical_eq, h.dirtyStems, overlayValue_congr h.stems]

theorem shouldFlush (h : Alike s s') : s.shouldFlush = s'.shouldFlush := by
  funext n
  unfold UbtExEx.shouldFlush
  rw [h.lastPersistedBlock, h.flushInterval]

theorem withEntries {m m' : Machine} (h : Alike m.exex m'.exex) (entries : List PendingEntry) :
    Alike (m.withEntries entries).exex (m'.withEntries entries).exex :=
  { h with pendingEntries := rfl }

theorem recorded (h : Alike s s') (n : ℕ) (hash : B256) {db db' : UbtDatabase}
    {ki ki' : KeyIndex} (k k' : ℕ) (hstems : db.stems = s.db.stems) (hstems' : db'.stems = s'.db.stems)
    (hhead : db.head = s.db.head) (hhead' : db'.head = s'.db.head)
    (hki : ki.head = s.keyIndex.head) (hki' : ki'.head = s'.keyIndex.head) :
    Alike (recorded s n hash db ki k) (UbtExex.recorded s' n hash db' ki' k') where
  stems := (hstems.trans h.stems).trans hstems'.symm
  head := by
    show db.head.map _ = db'.head.map _
    rw [hhead, hhead', h.head]
  nomt := by
    show s.nomt.commitUpdates _ _ = s'.nomt.commitUpdates _ _
    rw [h.nomt, h.pendingEntries]
  indexHead := by
    show ki.head.map _ = ki'.head.map _
    rw [hki, hki', h.indexHead]
  lastBlock := rfl
  lastHash := rfl
  lastRoot := h.lastRoot
  pendingEntries := rfl
  dirtyStems := by
    show (UbtExex.pendingOverlay s).dirtyStems = _
    rw [h.pendingOverlay]
    rfl
  flushInterval := h.flushInterval
  deltaRetention := h.deltaRetention
  lastPersistedBlock := h.lastPersistedBlock
  lastPersistedHash := h.lastPersistedHash

/-- The stems after a flush. -/
theorem batchUpdateStems (h : Alike s s') :
    (s.db.batchUpdateStems s.dirtyStems.toList).stems =
      (s'.db.batchUpdateStems s'.dirtyStems.toList).stems := by
  unfold UbtDatabase.batchUpdateStems
  rw [h.stems, h.dirtyStems]

theorem flushed (U : Ubt) (h : Alike s s') (n : ℕ) (hash : B256) :
    Alike (flushed U s n hash) (UbtExex.flushed U s' n hash) := by
  have hroot := computeRoot_congr U h.batchUpdateStems
  constructor
  case stems =>
    show (retainDeltas _ _ _).stems = (retainDeltas _ _ _).stems
    rw [stems_retainDeltas, stems_retainDeltas]
    exact h.batchUpdateStems
  case head =>
    show (retainDeltas _ _ _).head.map _ = (retainDeltas _ _ _).head.map _
    rw [head_retainDeltas, head_retainDeltas]
    show some (_, _, computeRoot U _) = some (_, _, computeRoot U _)
    rw [hroot]
  case indexHead =>
    show some (_, _, computeRoot U _) = some (_, _, computeRoot U _)
    rw [hroot]
  case nomt => exact h.nomt
  case lastBlock => exact h.lastBlock
  case lastHash => exact h.lastHash
  case lastRoot => exact hroot
  case pendingEntries => exact h.pendingEntries
  case dirtyStems => rfl
  case flushInterval => exact h.flushInterval
  case deltaRetention => exact h.deltaRetention
  case lastPersistedBlock => rfl
  case lastPersistedHash => rfl

/-- **Commits of the same block keep extensions alike.** -/
theorem committed (U : Ubt) (h : Alike s s') {n : ℕ} {hash : B256} {db db' : UbtDatabase}
    {ki ki' : KeyIndex} {k k' : ℕ}
    (hdb : s.db.batchSaveStemAddresses (UbtExex.pendingOverlay s).newStemAddresses = .ok db)
    (hki : s.keyIndex.applyUpdates (indexUpdates s.pendingEntries) = .ok (ki, k))
    (hdb' : s'.db.batchSaveStemAddresses (UbtExex.pendingOverlay s').newStemAddresses = .ok db')
    (hki' : s'.keyIndex.applyUpdates (indexUpdates s'.pendingEntries) = .ok (ki', k')) :
    Alike (committed U s n hash db ki k) (UbtExex.committed U s' n hash db' ki' k') := by
  have hrec : Alike (UbtExex.recorded s n hash db ki k) (UbtExex.recorded s' n hash db' ki' k') := by
    apply h.recorded
    · rw [UbtDatabase.batchSaveStemAddresses_eq_ok hdb]
    · rw [UbtDatabase.batchSaveStemAddresses_eq_ok hdb']
    · rw [UbtDatabase.batchSaveStemAddresses_eq_ok hdb]
    · rw [UbtDatabase.batchSaveStemAddresses_eq_ok hdb']
    · exact (KeyIndex.applyUpdates_sound hki).2.2
    · exact (KeyIndex.applyUpdates_sound hki').2.2
  unfold UbtExex.committed
  rw [h.shouldFlush]
  split
  · exact hrec.flushed U n hash
  · exact hrec

end Alike

/-! ### Blocks that the tables already hold -/

/-- Block `n` of `s` would add nothing to the tables: its stems have their addresses,
its keys are registered, and its deltas are stored. -/
structure Absorbed (t : Aside) (s : UbtExEx) (n : ℕ) : Prop where
  addresses : ∀ p ∈ (pendingOverlay s).newStemAddresses, t.stemAddresses[p.1]? = some p.2
  owners : ∀ u ∈ indexUpdates s.pendingEntries, KeyIndex.rowAddress t.stemTable u.1 = some u.2.2
  bits : ∀ u ∈ indexUpdates s.pendingEntries, KeyIndex.rowBit t.stemTable ⟨u.1, u.2.1⟩ = true
  deltas : (pendingOverlay s).deltas ≠ [] → t.blockDeltas[n]? = some (pendingOverlay s).deltas

/-- Addresses that are in the table already are accepted and change nothing. -/
theorem UbtDatabase.batchSaveStemAddresses_known {db : UbtDatabase}
    {mappings : List (Stem × Address)}
    (h : ∀ m ∈ mappings, db.stemAddresses[m.1]? = some m.2) :
    db.batchSaveStemAddresses mappings = .ok db := by
  let own : Stem → Address := fun stem => (db.loadStemAddress stem).getD 0
  have hown : ∀ stem a, db.loadStemAddress stem = some a → a = own stem := by
    intro stem a ha
    show a = (db.loadStemAddress stem).getD 0
    rw [ha, Option.getD_some]
  obtain ⟨db', hok⟩ := db.batchSaveStemAddresses_accepts hown
    fun m hm => hown m.1 m.2 (h m hm)
  obtain ⟨-, hentry, hother⟩ := batchSaveStemAddresses_sound hok
  have htable : db'.stemAddresses = db.stemAddresses := by
    apply ExtTreeMap.ext_getElem?
    intro stem
    by_cases hst : ∃ m ∈ mappings, m.1 = stem
    · obtain ⟨m, hm, rfl⟩ := hst
      exact (hentry m hm).trans (h m hm).symm
    · exact hother stem fun m hm he => hst ⟨m, hm, he⟩
  rw [hok, batchSaveStemAddresses_eq_ok hok, htable]

/-- Keys that are registered already are accepted and change nothing. -/
theorem KeyIndex.applyUpdates_known {ki : KeyIndex} {updates : List (Stem × UInt8 × Address)}
    (howner : ∀ u ∈ updates, ki.address u.1 = some u.2.2)
    (hbit : ∀ u ∈ updates, ki.bit ⟨u.1, u.2.1⟩ = true) :
    ∃ n, ki.applyUpdates updates = .ok (ki, n) := by
  let own : Stem → Address := fun stem => (ki.address stem).getD 0
  have hown : ∀ stem a, ki.address stem = some a → a = own stem := by
    intro stem a ha
    show a = (ki.address stem).getD 0
    rw [ha, Option.getD_some]
  obtain ⟨ki', n, hok⟩ := applyUpdates_accepts hown fun u hu => hown u.1 u.2.2 (howner u hu)
  obtain ⟨hstay, -, hhead⟩ := applyUpdates_sound hok
  have htable : ki'.stemTable = ki.stemTable := by
    apply table_ext
    · intro stem
      show ki'.address stem = ki.address stem
      cases hold : ki.address stem with
      | some a => exact hstay stem a hold
      | none =>
        -- a stem of the batch would have had an address
        rw [← Option.not_isSome_iff_eq_none, isSome_applyUpdates hok]
        rintro (h | ⟨u, hu, rfl⟩)
        · rw [hold] at h; cases h
        · rw [howner u hu] at hold; cases hold
    · intro key
      show ki'.bit key = ki.bit key
      rw [Bool.eq_iff_iff, bit_applyUpdates hok]
      constructor
      · rintro (h | ⟨u, hu, rfl⟩)
        · exact h
        · exact hbit u hu
      · exact Or.inl
  refine ⟨n, ?_⟩
  rw [hok]
  cases ki; cases ki'
  simp only at htable hhead
  rw [htable, hhead]

namespace Absorbed

variable {s s' : UbtExEx} {n : ℕ}

/-- What a block would add depends on what the tables beside the checkpoint do not
hold. -/
theorem of_alike {t : Aside} (h : Absorbed t s n) (hs : Alike s' s) : Absorbed t s' n := by
  obtain ⟨haddr, howner, hbit, hdelta⟩ := h
  rw [← hs.pendingOverlay] at haddr hdelta
  rw [← hs.pendingEntries] at howner hbit
  exact ⟨haddr, howner, hbit, hdelta⟩

/-- **A block that the tables already hold leaves them as they are.** -/
theorem recorded (h : Absorbed s.aside s n) (hash : B256) :
    ∃ db ki k, s.db.batchSaveStemAddresses (pendingOverlay s).newStemAddresses = .ok db ∧
      s.keyIndex.applyUpdates (indexUpdates s.pendingEntries) = .ok (ki, k) ∧
      (recorded s n hash db ki k).aside = s.aside := by
  obtain ⟨k, hki⟩ := KeyIndex.applyUpdates_known h.owners h.bits
  refine ⟨s.db, s.keyIndex, k, UbtDatabase.batchSaveStemAddresses_known h.addresses, hki, ?_⟩
  have hrow : savedDeltas s.db.blockDeltas n (pendingOverlay s).deltas = s.db.blockDeltas := by
    unfold savedDeltas
    split
    · rfl
    · next hne =>
      have hrow := h.deltas fun hnil => hne (by rw [hnil]; rfl)
      apply ExtTreeMap.ext_getElem?
      intro j
      rw [Tables.getElem?_insert]
      split
      · next heq => rw [← heq]; exact hrow.symm
      · rfl
  unfold Disk.aside
  show (⟨s.db.stemAddresses, savedDeltas _ _ _, s.keyIndex.stemTable⟩ : Aside) = _
  rw [hrow]

/-- The tables hold a block that was recorded. -/
theorem of_recorded {hash : B256} {db : UbtDatabase} {ki : KeyIndex} {k : ℕ}
    (hdb : s.db.batchSaveStemAddresses (pendingOverlay s).newStemAddresses = .ok db)
    (hki : s.keyIndex.applyUpdates (indexUpdates s.pendingEntries) = .ok (ki, k)) :
    Absorbed (UbtExex.recorded s n hash db ki k).aside s n where
  addresses := (UbtDatabase.batchSaveStemAddresses_sound hdb).2.1
  owners := (KeyIndex.applyUpdates_sound hki).2.1
  bits u hu := (KeyIndex.bit_applyUpdates hki _).mpr (Or.inr ⟨u, hu, rfl⟩)
  deltas hne := by
    show (savedDeltas _ _ _)[n]? = _
    unfold savedDeltas
    rw [if_neg (by simpa using hne), Tables.getElem?_insert, if_pos rfl]

/-- Recording another block keeps what the tables hold. -/
theorem stays {u : UbtExEx} {j : ℕ} (h : Absorbed u.aside s n) (hj : n ≠ j) {hash : B256}
    {db : UbtDatabase} {ki : KeyIndex} {k : ℕ}
    (hdb : u.db.batchSaveStemAddresses (pendingOverlay u).newStemAddresses = .ok db)
    (hki : u.keyIndex.applyUpdates (indexUpdates u.pendingEntries) = .ok (ki, k)) :
    Absorbed (UbtExex.recorded u j hash db ki k).aside s n where
  addresses p hp := (UbtDatabase.batchSaveStemAddresses_sound hdb).1 _ _ (h.addresses p hp)
  owners v hv := (KeyIndex.applyUpdates_sound hki).1 _ _ (h.owners v hv)
  bits v hv := (KeyIndex.bit_applyUpdates hki _).mpr (Or.inl (h.bits v hv))
  deltas hne := by
    have hold : db.blockDeltas = u.db.blockDeltas := by
      rw [UbtDatabase.batchSaveStemAddresses_eq_ok hdb]
    show (savedDeltas db.blockDeltas _ _)[n]? = _
    rw [hold]
    unfold savedDeltas
    split
    · exact h.deltas hne
    · rw [Tables.getElem?_insert, if_neg (Ne.symm hj)]
      exact h.deltas hne

end Absorbed

/-! ### Commits that do not flush -/

variable {U : Ubt}

theorem commitBlock_effect {c : BlockCommit} {m m' : Machine} {root : B256}
    (h : commitBlock U c m = .ok root m') :
    ∃ db ki k,
      m.exex.db.batchSaveStemAddresses
          (pendingOverlay (m.withEntries c.entries).exex).newStemAddresses = .ok db ∧
      m.exex.keyIndex.applyUpdates (indexUpdates c.entries) = .ok (ki, k) ∧
      m'.exex = committed U (m.withEntries c.entries).exex c.number c.hash db ki k := by
  obtain ⟨db, ki, k, hdb, hki, he, -⟩ := commit_effect U h
  exact ⟨db, ki, k, hdb, hki, he⟩

theorem committed_unflushed {s : UbtExEx} {n : ℕ} (hash : B256) (db : UbtDatabase) (ki : KeyIndex)
    (k : ℕ) (h : s.shouldFlush n = false) :
    committed U s n hash db ki k = recorded s n hash db ki k := by
  unfold committed
  rw [h]
  rfl

theorem Absorbed.stays_commitAll {s : UbtExEx} {n : ℕ} {cs : List BlockCommit} {m m' : Machine}
    (h : Absorbed m.exex.aside s n) (hn : ∀ c ∈ cs, n ≠ c.number)
    (hflush : ∀ c ∈ cs, m.exex.shouldFlush c.number = false)
    (hrun : commitAll U cs m = .ok () m') : Absorbed m'.exex.aside s n := by
  induction cs generalizing m with
  | nil => cases hrun; exact h
  | cons c cs ih =>
    obtain ⟨root, m₁, hc, hcs⟩ := commitAll_cons.mp hrun
    obtain ⟨db, ki, k, hdb, hki, he⟩ := commitBlock_effect hc
    have hfirst : (m.withEntries c.entries).exex.shouldFlush c.number = false :=
      hflush c List.mem_cons_self
    rw [committed_unflushed _ _ _ _ hfirst] at he
    have h₁ : Absorbed m₁.exex.aside s n := by
      rw [he]
      exact h.stays (u := (m.withEntries c.entries).exex) (hn c List.mem_cons_self) hdb hki
    refine ih h₁ (fun c' hc' => hn c' (List.mem_cons_of_mem _ hc')) (fun c' hc' => ?_) hcs
    rw [he]
    exact hflush c' (List.mem_cons_of_mem _ hc')

/-- **A replay leaves the tables that are ahead as they are**, and catches up with
the other tables: induction on the commits, none of which flushes. -/
theorem catchUp {n : ℕ} {cs : List BlockCommit} {m m' r : Machine} (hcons : Consecutive n cs)
    (hflush : ∀ c ∈ cs, m.exex.shouldFlush c.number = false)
    (hrun : commitAll U cs m = .ok () m') (hr : Alike r.exex m.exex)
    (haside : r.exex.aside = m'.exex.aside) :
    ∃ r', commitAll U cs r = .ok () r' ∧ Alike r'.exex m'.exex ∧
      r'.exex.aside = m'.exex.aside := by
  induction cs generalizing n m r with
  | nil => cases hrun; exact ⟨r, rfl, hr, haside⟩
  | cons c cs ih =>
    obtain ⟨root, m₁, hc, hcs⟩ := commitAll_cons.mp hrun
    obtain ⟨db, ki, k, hdb, hki, he⟩ := commitBlock_effect hc
    have hfirst : (m.withEntries c.entries).exex.shouldFlush c.number = false :=
      hflush c List.mem_cons_self
    have hrest : ∀ c' ∈ cs, m₁.exex.shouldFlush c'.number = false := by
      intro c' hc'
      rw [he, committed_unflushed _ _ _ _ hfirst]
      exact hflush c' (List.mem_cons_of_mem _ hc')
    -- what the first run recorded for `c` is still in its tables at the end
    have habs : Absorbed m₁.exex.aside (m.withEntries c.entries).exex c.number := by
      rw [he, committed_unflushed _ _ _ _ hfirst]
      exact Absorbed.of_recorded (s := (m.withEntries c.entries).exex) hdb hki
    have hother : ∀ c' ∈ cs, c.number ≠ c'.number := by
      intro c' hc'
      have := (hcons.2.number_lt c' hc').1
      have := hcons.1
      omega
    have habs' := habs.stays_commitAll hother hrest hcs
    rw [← haside] at habs'
    have hr' := hr.withEntries c.entries
    obtain ⟨db', ki', k', hdb', hki', haside'⟩ :=
      Absorbed.recorded (s := (r.withEntries c.entries).exex) (habs'.of_alike hr') c.hash
    obtain ⟨r₁, hrun₁, he₁⟩ := commit_eq U c.number c.hash hdb' hki'
    have halike : Alike r₁.exex m₁.exex := by
      rw [he₁, he]
      exact hr'.committed U hdb' hki' hdb hki
    have haside₁ : r₁.exex.aside = m'.exex.aside := by
      rw [he₁, committed_unflushed _ _ _ _ (by rw [hr'.shouldFlush]; exact hfirst), haside']
      exact haside
    obtain ⟨r', hrun', hend⟩ := ih hcons.2 hrest hcs halike haside₁
    exact ⟨r', commitAll_cons.mpr ⟨_, r₁, hrun₁, hrun'⟩, hend⟩

/-! ### Commits from equal tables -/

theorem UbtDatabase.batchSaveStemAddresses_congr {db db' d : UbtDatabase}
    {mappings : List (Stem × Address)} (h : db'.stemAddresses = db.stemAddresses)
    (hok : db.batchSaveStemAddresses mappings = .ok d) :
    ∃ d', db'.batchSaveStemAddresses mappings = .ok d' ∧ d'.stemAddresses = d.stemAddresses := by
  unfold batchSaveStemAddresses at hok ⊢
  rw [h]
  simp only [bind, Except.bind] at hok ⊢
  split at hok
  · cases hok
  · obtain rfl := Except.ok.inj hok
    exact ⟨_, rfl, rfl⟩

theorem KeyIndex.applyUpdates_congr {ki ki' d : KeyIndex} {k : ℕ}
    {updates : List (Stem × UInt8 × Address)} (h : ki'.stemTable = ki.stemTable)
    (hok : ki.applyUpdates updates = .ok (d, k)) :
    ∃ d', ki'.applyUpdates updates = .ok (d', k) ∧ d'.stemTable = d.stemTable := by
  obtain ⟨perStem, hgroup, hmerge, -⟩ := applyUpdates_stages hok
  refine ⟨{ ki' with stemTable := d.stemTable }, ?_, rfl⟩
  unfold applyUpdates
  rw [hgroup]
  show (perStem.toList.foldlM mergeRow (ki'.stemTable, 0) >>= _) = _
  rw [h, hmerge]
  rfl

/-- What a flush prunes depends on the rows only. -/
theorem aside_flushed {s s' : UbtExEx} (h : s.aside = s'.aside)
    (hretention : s.deltaRetention = s'.deltaRetention) (n : ℕ) (hash : B256) :
    (flushed U s n hash).aside = (flushed U s' n hash).aside := by
  have haddr : s.db.stemAddresses = s'.db.stemAddresses := congrArg Aside.stemAddresses h
  have hrows : s.db.blockDeltas = s'.db.blockDeltas := congrArg Aside.blockDeltas h
  have htable : s.keyIndex.stemTable = s'.keyIndex.stemTable := congrArg Aside.stemTable h
  unfold flushed retainDeltas Disk.aside UbtDatabase.pruneDeltasBefore UbtDatabase.saveHead
    UbtDatabase.batchUpdateStems KeyIndex.saveHead
  simp only [hretention]
  split
  · simp only [haddr, hrows, htable]
  · simp only [haddr, hrows, htable]

/-- **A commit from extensions that are alike, with equal tables.** -/
theorem commitBlock_alike {c : BlockCommit} {m m' r : Machine} {root : B256}
    (hr : Alike r.exex m.exex) (haside : r.exex.aside = m.exex.aside)
    (h : commitBlock U c m = .ok root m') :
    ∃ root' r', commitBlock U c r = .ok root' r' ∧ Alike r'.exex m'.exex ∧
      r'.exex.aside = m'.exex.aside := by
  obtain ⟨db, ki, k, hdb, hki, he⟩ := commitBlock_effect h
  have hr' := hr.withEntries c.entries
  obtain ⟨db', hdb', htable⟩ :=
    UbtDatabase.batchSaveStemAddresses_congr (congrArg Aside.stemAddresses haside) hdb
  obtain ⟨ki', hki', hindex⟩ :=
    KeyIndex.applyUpdates_congr (congrArg Aside.stemTable haside) hki
  rw [← hr'.pendingOverlay] at hdb'
  obtain ⟨r', hrun, he'⟩ :=
    commit_eq U (m := r.withEntries c.entries) c.number c.hash hdb' hki'
  refine ⟨_, r', hrun, ?_, ?_⟩
  · rw [he', he]
    exact hr'.committed U hdb' hki' hdb hki
  · have hrows : db'.blockDeltas = db.blockDeltas := by
      rw [UbtDatabase.batchSaveStemAddresses_eq_ok hdb',
        UbtDatabase.batchSaveStemAddresses_eq_ok hdb]
      exact congrArg Aside.blockDeltas haside
    have hrec : (recorded (r.withEntries c.entries).exex c.number c.hash db' ki' k).aside =
        (recorded (m.withEntries c.entries).exex c.number c.hash db ki k).aside := by
      show (⟨db'.stemAddresses, savedDeltas db'.blockDeltas _ _, ki'.stemTable⟩ : Aside) =
        ⟨db.stemAddresses, savedDeltas db.blockDeltas _ _, ki.stemTable⟩
      rw [hr'.pendingOverlay, htable, hrows, hindex]
    rw [he', he]
    unfold committed
    rw [hr'.shouldFlush]
    split
    · exact aside_flushed hrec hr.deltaRetention _ _
    · exact hrec

theorem commitAll_alike {cs : List BlockCommit} {m m' r : Machine}
    (hr : Alike r.exex m.exex) (haside : r.exex.aside = m.exex.aside)
    (h : commitAll U cs m = .ok () m') :
    ∃ r', commitAll U cs r = .ok () r' ∧ Alike r'.exex m'.exex ∧
      r'.exex.aside = m'.exex.aside := by
  induction cs generalizing m r with
  | nil => cases h; exact ⟨r, rfl, hr, haside⟩
  | cons c cs ih =>
    obtain ⟨root, m₁, hc, hcs⟩ := commitAll_cons.mp h
    obtain ⟨root', r₁, hrun₁, hr₁, haside₁⟩ := commitBlock_alike hr haside hc
    obtain ⟨r', hrun', hend⟩ := ih hr₁ haside₁ hcs
    exact ⟨r', commitAll_cons.mpr ⟨_, r₁, hrun₁, hrun'⟩, hend⟩

/-! ### The last flush before the kill -/

/-- The extension is as a restart would find it, at the block of its heads. -/
structure AtRest (U : Ubt) (config : UbtConfig) (s : UbtExEx) : Prop where
  restored : s = .restore config s.toDisk s.db.head
  root : RootOk U s.db

/-- `m'` is ahead of `m` by the commits `cs`, of which none flushed. -/
structure Ahead (cs : List BlockCommit) (m m' : Machine) : Prop where
  stems : m'.exex.db.stems = m.exex.db.stems
  head : m'.exex.db.head = m.exex.db.head
  indexHead : m'.exex.keyIndex.head = m.exex.keyIndex.head
  nomt : m'.exex.nomt.rollback cs.length = some m.exex.nomt
  shouldFlush : m'.exex.shouldFlush = m.exex.shouldFlush
  flushInterval : m'.exex.flushInterval = m.exex.flushInterval
  deltaRetention : m'.exex.deltaRetention = m.exex.deltaRetention

theorem Ahead.refl (m : Machine) : Ahead [] m m :=
  ⟨rfl, rfl, rfl, Versioned.rollback_zero _, rfl, rfl, rfl⟩

/-- A commit that does not flush goes one further ahead. -/
theorem Ahead.commit {cs : List BlockCommit} {c : BlockCommit} {m m₁ m' : Machine} {root : B256}
    (h : Ahead cs m m₁) (hrun : commitBlock U c m₁ = .ok root m')
    (hflush : m₁.exex.shouldFlush c.number = false) : Ahead (cs ++ [c]) m m' := by
  obtain ⟨db, ki, k, hdb, hki, he⟩ := commitBlock_effect hrun
  have hdb' := UbtDatabase.batchSaveStemAddresses_eq_ok hdb
  rw [committed_unflushed (s := (m₁.withEntries c.entries).exex) _ _ _ _ hflush] at he
  constructor
  case stems =>
    rw [he, ← h.stems]
    show db.stems = _
    rw [hdb']
  case head =>
    rw [he, ← h.head]
    show db.head = _
    rw [hdb']
  case indexHead =>
    rw [he, ← h.indexHead]
    exact (KeyIndex.applyUpdates_sound hki).2.2
  case nomt =>
    rw [he, List.length_append, List.length_singleton, ← h.nomt]
    rfl
  case shouldFlush =>
    rw [he, ← h.shouldFlush]
    rfl
  case flushInterval =>
    rw [he, ← h.flushInterval]
    rfl
  case deltaRetention =>
    rw [he, ← h.deltaRetention]
    rfl

/-- A flush leaves the extension at rest. -/
theorem AtRest.of_flush {config : UbtConfig} {c : BlockCommit} {m m' : Machine} {root : B256}
    (hrun : commitBlock U c m = .ok root m') (hflush : m.exex.shouldFlush c.number = true)
    (hinterval : m.exex.flushInterval = config.flushInterval)
    (hretention : m.exex.deltaRetention = config.deltaRetention) :
    AtRest U config m'.exex := by
  obtain ⟨db, ki, k, hdb, hki, he⟩ := commitBlock_effect hrun
  have hflush' : (m.withEntries c.entries).exex.shouldFlush c.number = true := hflush
  unfold committed at he
  rw [if_pos hflush'] at he
  have hhead : m'.exex.db.head = some ⟨c.number, c.hash, m'.exex.lastRoot, m'.exex.stemCount⟩ := by
    rw [he]
    unfold flushed
    rw [head_retainDeltas]
    rfl
  constructor
  · rw [hhead, he]
    unfold UbtExEx.restore
    rw [← hinterval, ← hretention]
    rfl
  · intro hd hmem
    rw [UbtDatabase.loadHead, hhead] at hmem
    obtain rfl := Option.mem_some_iff.mp hmem
    rw [he]
    apply computeRoot_congr U
    show _ = (retainDeltas _ _ _).stems
    rw [stems_retainDeltas]
    rfl

/-- **A run is at rest after a part of it, and never flushes again.** -/
theorem lastRest {config : UbtConfig} {cs : List BlockCommit} {m m' : Machine}
    (hm : AtRest U config m.exex) (hrun : commitAll U cs m = .ok () m') :
    ∃ pre suf m₁, cs = pre ++ suf ∧ commitAll U pre m = .ok () m₁ ∧ AtRest U config m₁.exex ∧
      commitAll U suf m₁ = .ok () m' ∧ Ahead suf m₁ m' ∧
      ∀ c ∈ suf, m₁.exex.shouldFlush c.number = false := by
  induction cs using List.reverseRecOn generalizing m' with
  | nil =>
    cases hrun
    exact ⟨[], [], m, rfl, rfl, hm, rfl, Ahead.refl m, by simp⟩
  | append_singleton cs c ih =>
    obtain ⟨m₂, hcs, hc⟩ := commitAll_append.mp hrun
    obtain ⟨root, m₃, hc, hnil⟩ := commitAll_cons.mp hc
    cases hnil
    obtain ⟨pre, suf, m₁, rfl, hpre, hrest, hsuf, hahead, hno⟩ := ih hcs
    cases hflush : m₂.exex.shouldFlush c.number with
    | false =>
      refine ⟨pre, suf ++ [c], m₁, List.append_assoc .., hpre, hrest, ?_,
        hahead.commit hc hflush, ?_⟩
      · exact commitAll_append.mpr ⟨m₂, hsuf, commitAll_cons.mpr ⟨root, m', hc, rfl⟩⟩
      · intro c' hc'
        rcases List.mem_append.mp hc' with hc' | hc'
        · exact hno c' hc'
        · rw [List.mem_singleton.mp hc', ← hahead.shouldFlush]
          exact hflush
    | true =>
      -- the flush is a new point of rest, with nothing after it
      have hconfig := hrest.restored
      have hrest' : AtRest U config m'.exex := by
        apply AtRest.of_flush hc hflush
        · rw [hahead.flushInterval, hconfig]
          rfl
        · rw [hahead.deltaRetention, hconfig]
          rfl
      exact ⟨pre ++ suf ++ [c], [], m', (List.append_nil _).symm, hrun, hrest', rfl,
        Ahead.refl m', by simp⟩

/-! ### The restart -/

theorem Consecutive.of_append {n : ℕ} {cs cs' : List BlockCommit}
    (h : Consecutive n (cs ++ cs')) : Consecutive n cs ∧ Consecutive (n + cs.length) cs' := by
  induction cs generalizing n with
  | nil => exact ⟨trivial, h⟩
  | cons c cs ih =>
    obtain ⟨hcs, hcs'⟩ := ih h.2
    refine ⟨⟨h.1, hcs⟩, ?_⟩
    rwa [List.length_cons, Nat.add_comm cs.length 1, ← Nat.add_assoc]

/-- After blocks 1 to `n` both the extension and NOMT are at block `n`. -/
theorem numbers_commitAll {config : UbtConfig} {cs : List BlockCommit} {m : Machine}
    (hcons : Consecutive 1 cs) (hrun : commitAll U cs (.fresh config) = .ok () m) :
    m.exex.lastBlock = cs.length ∧ m.exex.nomt.current.headBlock = cs.length := by
  rcases cs.eq_nil_or_concat with rfl | ⟨cs, c, rfl⟩
  · cases hrun
    exact ⟨rfl, by simp [Machine.fresh, UbtExEx.restore, Disk.empty, NomtMap.headBlock]⟩
  · rw [List.concat_eq_append] at hcons hrun ⊢
    obtain ⟨m₁, -, hc⟩ := commitAll_append.mp hrun
    obtain ⟨root, m₂, hc, hnil⟩ := commitAll_cons.mp hc
    cases hnil
    obtain ⟨-, hnumber, -⟩ := hcons.of_append
    have hcommitted := commitBlock_ok U hc
    rw [hcommitted.lastBlock, hcommitted.nomt, List.length_append, List.length_singleton]
    refine ⟨by omega, ?_⟩
    show (NomtMap.update _ _ _).headBlock = _
    rw [NomtMap.headBlock_update]
    omega

/-- **A restart succeeds, and takes NOMT back to the last flush.** -/
theorem restart {config : UbtConfig} {cs : List BlockCommit} {m m' : Machine}
    (hrest : AtRest U config m.exex) (hahead : Ahead cs m m')
    (hblocks : m'.exex.nomt.current.headBlock = m.exex.lastBlock + cs.length) :
    ∃ s, UbtExEx.new U config m'.exex.toDisk = .ok s ∧ Alike s m.exex ∧
      s.aside = m'.exex.aside ∧ s.lastPersistedBlock = m.exex.lastBlock := by
  have hroot : RootOk U m'.exex.db := by
    intro hd hmem
    rw [UbtDatabase.loadHead, hahead.head] at hmem
    rw [hrest.root hd hmem]
    exact computeRoot_congr U hahead.stems.symm
  have hnew : UbtExEx.new U config m'.exex.toDisk =
      .ok (UbtExEx.restore config m'.exex.toDisk m'.exex.db.head).syncNomt :=
    (new_eq_ok_iff U).mpr ⟨hroot, rfl⟩
  -- NOMT is ahead by as many blocks as commits, so the rollback is to the last flush
  have hsync : (UbtExEx.restore config m'.exex.toDisk m'.exex.db.head).syncNomt =
      { UbtExEx.restore config m'.exex.toDisk m'.exex.db.head with nomt := m.exex.nomt } := by
    have hlast : (UbtExEx.restore config m'.exex.toDisk m'.exex.db.head).lastPersistedBlock =
        m.exex.lastBlock := by
      rw [hahead.head, hrest.restored]
      rfl
    unfold UbtExEx.syncNomt
    rw [hlast]
    have hnomt : (UbtExEx.restore config m'.exex.toDisk m'.exex.db.head).nomt = m'.exex.nomt := rfl
    simp only [hnomt, hblocks]
    have hrollback := hahead.nomt
    cases hcs : cs.length with
    | zero =>
      rw [hcs, Versioned.rollback_zero] at hrollback
      rw [if_neg (by omega), if_neg (by omega), ← Option.some.inj hrollback]
      rfl
    | succ j =>
      rw [if_pos (by omega), Nat.add_sub_cancel_left, ← hcs, hrollback, Option.getD_some, hlast]
  refine ⟨_, hnew, ?_, ?_, ?_⟩
  · rw [hsync, hrest.restored, hahead.head]
    constructor
    case stems => exact hahead.stems
    case head =>
      show m'.exex.db.head.map _ = _
      rw [hahead.head]
      rfl
    case indexHead =>
      show m'.exex.keyIndex.head.map _ = _
      rw [hahead.indexHead]
      rfl
    all_goals rfl
  · rw [hsync]
    rfl
  · rw [hsync, hahead.head, hrest.restored]
    rfl

/-- The blocks after the head that is resumed from, all of them without a head. -/
def toReplay (head : Option (ℕ × B256)) (cs : List BlockCommit) : List BlockCommit :=
  match head with
  | none => cs
  | some (n, _) => cs.filter fun c => n < c.number

theorem toReplay_getHead {s : UbtExEx} {cs : List BlockCommit} (h : Consecutive 1 cs) :
    toReplay s.getHead cs = cs.drop s.lastPersistedBlock := by
  have hfilter : ∀ (n j : ℕ) (cs : List BlockCommit), Consecutive (n + 1) cs →
      (cs.filter fun c => n + j < c.number) = cs.drop j := by
    intro n j cs
    induction cs generalizing n j with
    | nil => simp
    | cons c cs ih =>
      rintro ⟨hc, hcs⟩
      cases j with
      | zero =>
        rw [List.drop_zero, List.filter_eq_self]
        intro c' hc'
        rcases List.mem_cons.mp hc' with rfl | hc'
        · simp [hc]
        · have := (hcs.number_lt c' hc').1
          simp
          omega
      | succ j =>
        have := ih (n + 1) j hcs
        rw [List.filter_cons_of_neg (by simp; omega), List.drop_succ_cons, ← this]
        congr 1
        funext c'
        rw [show n + (j + 1) = n + 1 + j by omega]
  unfold toReplay UbtExEx.getHead
  split
  · next hnone =>
    split at hnone
    · next hz => rw [hz, List.drop_zero]
    · cases hnone
  · next n hash hsome =>
    split at hsome
    · cases hsome
    · obtain ⟨rfl, -⟩ := Prod.mk.inj (Option.some.inj hsome)
      simpa using hfilter 0 s.lastPersistedBlock cs h

/-! ### Convergence -/

/-- The same state, stores and heads, apart from the number of stems. -/
structure SameStores (s s' : UbtExEx) : Prop where
  logical : s.logical = s'.logical
  stems : s.db.stems = s'.db.stems
  stemAddresses : s.db.stemAddresses = s'.db.stemAddresses
  blockDeltas : s.db.blockDeltas = s'.db.blockDeltas
  stemTable : s.keyIndex.stemTable = s'.keyIndex.stemTable
  nomt : s.nomt.current = s'.nomt.current
  head : s.db.loadHead.map UbtHead.block = s'.db.loadHead.map UbtHead.block
  indexHead : s.keyIndex.loadHead.map HeadRecord.block = s'.keyIndex.loadHead.map HeadRecord.block

theorem Alike.sameStores {s s' : UbtExEx} (h : Alike s s') (haside : s.aside = s'.aside) :
    SameStores s s' where
  logical := h.logical
  stems := h.stems
  stemAddresses := congrArg Aside.stemAddresses haside
  blockDeltas := congrArg Aside.blockDeltas haside
  stemTable := congrArg Aside.stemTable haside
  nomt := congrArg Versioned.current h.nomt
  head := h.head
  indexHead := h.indexHead

/-- Commits of owned entries over owned tables succeed. -/
theorem commitAll_owned {own : Stem → Address} {cs : List BlockCommit} {m : Machine}
    (hm : OwnedDisk own m.exex.toDisk) (hcs : ∀ c ∈ cs, OwnedEntries own c.entries) :
    ∃ m', commitAll U cs m = .ok () m' := by
  induction cs generalizing m with
  | nil => exact ⟨m, rfl⟩
  | cons c cs ih =>
    obtain ⟨root, m₁, hrun, hm₁⟩ :=
      commit_owned U (m := m.withEntries c.entries) c.number c.hash hm
        (hcs c List.mem_cons_self)
    obtain ⟨m', hrun'⟩ := ih hm₁ fun c' hc' => hcs c' (List.mem_cons_of_mem _ hc')
    exact ⟨m', commitAll_cons.mpr ⟨root, m₁, hrun, hrun'⟩⟩

/-- **A run that is killed ends as the one that is not.**  Blocks 1, 2, 3, … are
committed from a fresh start; the process is killed after `k` of them; the restart
succeeds, and so does the replay of the blocks after the head it resumes from. -/
theorem kill_and_replay {own : Stem → Address} {config : UbtConfig} {cs : List BlockCommit}
    (hcons : Consecutive 1 cs) (hown : ∀ c ∈ cs, OwnedEntries own c.entries) (k : ℕ) :
    ∃ killed s r m, commitAll U (cs.take k) (.fresh config) = .ok () killed ∧
      UbtExEx.new U config killed.exex.toDisk = .ok s ∧
      commitAll U (toReplay s.getHead cs) ⟨s, []⟩ = .ok () r ∧
      commitAll U cs (.fresh config) = .ok () m ∧ SameStores r.exex m.exex := by
  have hfresh : AtRest U config (Machine.fresh config).exex :=
    ⟨rfl, fun hd hmem => by cases hmem⟩
  obtain ⟨m, hrun⟩ := commitAll_owned (U := U) (m := .fresh config) (ownedDisk_empty own) hown
  have hsplit := hrun
  rw [← List.take_append_drop k cs] at hsplit
  obtain ⟨killed, hkilled, hlater⟩ := commitAll_append.mp hsplit
  obtain ⟨pre, suf, m₁, heq, hpre, hrest, hsuf, hahead, hno⟩ := lastRest hfresh hkilled
  have hconsTake : Consecutive 1 (pre ++ suf) := heq ▸ hcons.take k
  obtain ⟨hconsPre, hconsSuf⟩ := hconsTake.of_append
  have hlast := (numbers_commitAll hconsPre hpre).1
  have hblocks : killed.exex.nomt.current.headBlock = m₁.exex.lastBlock + suf.length := by
    rw [(numbers_commitAll (hcons.take k) hkilled).2, hlast, heq, List.length_append]
  obtain ⟨s, hnew, halike, haside, hpersisted⟩ := restart hrest hahead hblocks
  have hreplay : toReplay s.getHead cs = suf ++ cs.drop k := by
    rw [toReplay_getHead hcons, hpersisted, hlast]
    conv_lhs => rw [← List.take_append_drop k cs, heq, List.append_assoc]
    exact List.drop_left
  obtain ⟨r₁, hrun₁, halike₁, haside₁⟩ := catchUp (r := ⟨s, []⟩) hconsSuf hno hsuf halike haside
  obtain ⟨r, hrun₂, halike₂, haside₂⟩ := commitAll_alike halike₁ haside₁ hlater
  refine ⟨killed, s, r, m, hkilled, hnew, ?_, hrun, halike₂.sameStores haside₂⟩
  rw [hreplay]
  exact commitAll_append.mpr ⟨r₁, hrun₁, hrun₂⟩

/-- Three blocks that write two stems, one key of them three times. -/
def replayedCommits : List BlockCommit :=
  [⟨1, 11, [⟨⟨1, 1⟩, 5, 7⟩, ⟨⟨1, 2⟩, 6, 7⟩]⟩, ⟨2, 12, [⟨⟨1, 1⟩, 8, 7⟩, ⟨⟨2, 0⟩, 4, 7⟩]⟩,
    ⟨3, 13, [⟨⟨1, 1⟩, 0, 7⟩]⟩]

/-- The process is killed after the third block, one block after a flush. -/
theorem kill_and_replay_three_blocks :
    ∃ killed s r m,
      commitAll sampleUbt (replayedCommits.take 3) (.fresh ⟨2, 10⟩) = .ok () killed ∧
        UbtExEx.new sampleUbt ⟨2, 10⟩ killed.exex.toDisk = .ok s ∧
        commitAll sampleUbt (toReplay s.getHead replayedCommits) ⟨s, []⟩ = .ok () r ∧
        commitAll sampleUbt replayedCommits (.fresh ⟨2, 10⟩) = .ok () m ∧
        SameStores r.exex m.exex :=
  have hcons : Consecutive 1 replayedCommits := ⟨rfl, rfl, rfl, trivial⟩
  have hown : ∀ c ∈ replayedCommits, OwnedEntries (fun _ => 7) c.entries := by
    unfold OwnedEntries
    decide
  kill_and_replay hcons hown 3

end UbtExex
