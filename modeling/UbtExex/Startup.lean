import UbtExex.Commits
import UbtExex.Crash
import UbtExex.NomtSync

/-!
# Startup after a crash

At startup the two stores can be at different blocks.  NOMT is ahead of MDBX when
commits were made since the last flush; it is then rolled back by the difference of
the block numbers.  This is right exactly when there were as many commits as blocks,
and the crash did not come between the write of the stems and that of the head.

## Main definitions

* `headNumber`, `NomtExact`, `InSync` — stores that agree on block and state.
* `Disk.keep` — the stores when NOMT has forgotten its older versions.
* `StemsKept` — the condition on the durable write of the crash.

## Main results

* `Unsaved.step` — NOMT still holds the saved state, behind the commits since.
* `startup_rollback_exact_iff` — **the rollback at startup is exact if and only if every
  commit since the saved head has one block and the stems are those of the head.**
* `startup_rollback_fails` — a rollback after a commit of two blocks.
-/

open Std

namespace UbtExex

/-! ### What startup restores -/

/-- The block of the MDBX head, zero when there is none. -/
def headNumber (db : UbtDatabase) : ℕ := (db.loadHead.map UbtHead.blockNumber).getD 0

theorem headNumber_congr {db db' : UbtDatabase} (h : db'.head = db.head) :
    headNumber db' = headNumber db := by
  unfold headNumber UbtDatabase.loadHead
  rw [h]

theorem headNumber_of_head {db : UbtDatabase} {hd : UbtHead} (h : db.head = some hd) :
    headNumber db = hd.blockNumber := by
  unfold headNumber UbtDatabase.loadHead
  rw [h]
  rfl

/-- The hash of the block of the MDBX head, zero when there is none. -/
def headHash (db : UbtDatabase) : B256 := (db.loadHead.map UbtHead.blockHash).getD 0

/-- NOMT holds the stored values and the number of the stored head. -/
structure NomtExact (db : UbtDatabase) (t : NomtMap) : Prop where
  value : ∀ key : TreeKey, key.path ≠ nomtHeadKey → t.value key = db.value key
  head : t[nomtHeadKey]? = db.loadHead.map fun hd => NomtValue.u64Be hd.blockNumber

theorem NomtExact.headBlock {db : UbtDatabase} {t : NomtMap} (h : NomtExact db t) :
    t.headBlock = headNumber db := by
  unfold NomtMap.headBlock headNumber
  rw [h.head]
  cases db.loadHead <;> rfl

variable {U : Ubt} {config : UbtConfig} {disk : Disk} {s : UbtExEx}

/-- What `restore` sets, whether or not there is a head. -/
theorem restore_eq (config : UbtConfig) (disk : Disk) :
    let s := UbtExEx.restore config disk disk.db.loadHead
    s.toDisk = disk ∧ s.dirtyStems = ∅ ∧ s.lastBlock = headNumber disk.db ∧
      s.lastHash = headHash disk.db ∧ s.lastPersistedBlock = headNumber disk.db ∧
      s.lastPersistedHash = headHash disk.db := by
  unfold UbtExEx.restore headNumber headHash
  cases disk.db.loadHead with
  | none => exact ⟨rfl, rfl, rfl, rfl, rfl, rfl⟩
  | some hd => exact ⟨rfl, rfl, rfl, rfl, rfl, rfl⟩

/-- The NOMT store after startup. -/
def syncedNomt (disk : Disk) : Nomt :=
  if headNumber disk.db < disk.nomt.current.headBlock then
    (disk.nomt.rollback (disk.nomt.current.headBlock - headNumber disk.db)).getD disk.nomt
  else disk.nomt

/-- **What startup makes of the stores it finds.** -/
structure Restored (config : UbtConfig) (disk : Disk) (s : UbtExEx) : Prop where
  db : s.db = disk.db
  nomt : s.nomt = syncedNomt disk
  pendingEntries : s.pendingEntries = []
  dirtyStems : s.dirtyStems = ∅
  lastBlock : s.lastBlock = headNumber disk.db
  lastHash : s.lastHash = headHash disk.db
  lastRoot : ∀ hd ∈ disk.db.loadHead, s.lastRoot = hd.root
  flushInterval : s.flushInterval = config.flushInterval
  deltaRetention : s.deltaRetention = config.deltaRetention
  lastPersistedBlock : s.lastPersistedBlock = min (headNumber disk.db) disk.nomt.current.headBlock
  lastPersistedHash : s.lastPersistedHash = headHash disk.db

/-- A startup leaves the key index as it is. -/
theorem keyIndex_of_new (hnew : UbtExEx.new U config disk = .ok s) : s.keyIndex = disk.keyIndex := by
  obtain ⟨-, rfl⟩ := (new_eq_ok_iff U).mp hnew
  obtain ⟨hdisk, -⟩ := restore_eq config disk
  have hki := congrArg Disk.keyIndex hdisk
  unfold UbtExEx.syncNomt
  dsimp only
  split
  · exact hki
  · split
    · exact hki
    · exact hki

theorem restored_of_new (h : UbtExEx.new U config disk = .ok s) : Restored config disk s := by
  obtain ⟨-, rfl⟩ := (new_eq_ok_iff U).mp h
  obtain ⟨hdisk, hdirty, hblock, hhash, hpers, hphash⟩ := restore_eq config disk
  have hroot : ∀ hd ∈ disk.db.loadHead,
      (UbtExEx.restore config disk disk.db.loadHead).lastRoot = hd.root := by
    intro hd hhd
    rw [Option.mem_def] at hhd
    rw [hhd]
    rfl
  set s := UbtExEx.restore config disk disk.db.loadHead with hs
  have hnomt : s.nomt = disk.nomt := congrArg Disk.nomt hdisk
  have hdb : s.db = disk.db := congrArg Disk.db hdisk
  unfold UbtExEx.syncNomt
  simp only
  rw [hnomt, hpers]
  by_cases hahead : disk.nomt.current.headBlock > headNumber disk.db
  · rw [if_pos hahead]
    refine ⟨hdb, ?_, rfl, hdirty, hblock, hhash, hroot, rfl, rfl, ?_, hphash⟩
    · exact (if_pos hahead).symm
    · change headNumber disk.db = _
      omega
  · have hsame : syncedNomt disk = disk.nomt := if_neg hahead
    rw [if_neg hahead]
    by_cases hbehind : disk.nomt.current.headBlock < headNumber disk.db
    · rw [if_pos hbehind]
      refine ⟨hdb, hnomt.trans hsame.symm, rfl, hdirty, hblock, hhash, hroot, rfl, rfl, ?_, hphash⟩
      change disk.nomt.current.headBlock = _
      omega
    · rw [if_neg hbehind]
      refine ⟨hdb, hnomt.trans hsame.symm, rfl, hdirty, hblock, hhash, hroot, rfl, rfl, ?_, hphash⟩
      omega

/-- Right after startup the stored values are the state. -/
theorem Restored.logical (h : Restored config disk s) : s.logical = disk.db.value := by
  rw [logical_of_clean h.dirtyStems, h.db]

/-! ### Stores in sync -/

/-- NOMT is at the MDBX head, and its versions are at ever smaller blocks. -/
structure InSync (disk : Disk) : Prop where
  exact : NomtExact disk.db disk.nomt.current
  heads : (disk.nomt.current :: disk.nomt.past).Pairwise fun t t' => t'.headBlock < t.headBlock

theorem inSync_empty : InSync .empty where
  exact := ⟨fun key _ => by
    simp [NomtMap.value, Disk.empty, UbtDatabase.value, UbtDatabase.loadStem, UbtDatabase.empty],
    by simp [Disk.empty, UbtDatabase.loadHead, UbtDatabase.empty]⟩
  heads := List.pairwise_singleton _ _

/-- Startup leaves stores in sync as they are. -/
theorem InSync.syncedNomt (h : InSync disk) : UbtExex.syncedNomt disk = disk.nomt := by
  refine if_neg ?_
  rw [h.exact.headBlock]
  omega

/-- The stores when only the last `n` commits of NOMT can be undone. -/
def Disk.keep (n : ℕ) (disk : Disk) : Disk := { disk with nomt := disk.nomt.keep n }

/-! ### Commits since the saved head -/

/-- The number of the commits at blocks above that of the saved head. -/
def unsavedCount (db : UbtDatabase) (cs : List BlockCommit) : ℕ :=
  cs.countP fun c => headNumber db < c.number

/-- Block numbers that increase from `n` on: each commit has one or more blocks. -/
def Increasing : ℕ → List BlockCommit → Prop
  | _, [] => True
  | n, c :: cs => n < c.number ∧ Increasing c.number cs

/-- After the commits `cs`: NOMT holds the logical state, and it still holds, behind
the commits since the saved head, the state and the number of that head. -/
structure Unsaved (cs : List BlockCommit) (m : Machine) : Prop where
  shows : NomtShows m.exex.logical m.exex.lastBlock m.exex.nomt.current
  heads : (m.exex.nomt.current :: m.exex.nomt.past).Pairwise fun t t' => t'.headBlock < t.headBlock
  numbers : ∀ c ∈ cs, c.number ≤ m.exex.lastBlock
  head_le : headNumber m.exex.db ≤ m.exex.lastBlock
  saved : ∃ v, m.exex.nomt.rollback (unsavedCount m.exex.db cs) = some v ∧
    NomtExact m.exex.db v.current

/-- A NOMT commit at a greater block keeps the block numbers of the versions in order. -/
theorem Unsaved.heads_commitUpdates {cs : List BlockCommit} {m : Machine} (hu : Unsaved cs m)
    {n : ℕ} (hn : m.exex.lastBlock < n) (es : List PendingEntry) :
    let v := m.exex.nomt.commitUpdates es n
    (v.current :: v.past).Pairwise fun t t' => t'.headBlock < t.headBlock := by
  refine List.pairwise_cons.mpr ⟨?_, hu.heads⟩
  have hcur : m.exex.nomt.current.headBlock = m.exex.lastBlock := hu.shows.headBlock
  have hnew : (m.exex.nomt.commitUpdates es n).current.headBlock = n :=
    NomtMap.headBlock_update _ _ _
  intro t ht
  rw [hnew]
  rcases List.mem_cons.mp ht with rfl | ht
  · omega
  · have := (List.pairwise_cons.mp hu.heads).1 t ht
    omega

/-- The saved state is behind one more commit. -/
theorem Unsaved.rollback_commitUpdates {cs : List BlockCommit} {m : Machine} (hu : Unsaved cs m)
    {c : BlockCommit} (hc : m.exex.lastBlock < c.number) {db : UbtDatabase}
    (hdb : db.head = m.exex.db.head) :
    ∃ v, (m.exex.nomt.commitUpdates c.entries c.number).rollback (unsavedCount db (cs ++ [c])) =
      some v ∧ NomtExact m.exex.db v.current := by
  obtain ⟨v, hv, hexact⟩ := hu.saved
  have hhead : headNumber db = headNumber m.exex.db := headNumber_congr hdb
  have hcount : unsavedCount db (cs ++ [c]) = unsavedCount m.exex.db cs + 1 := by
    have hlt : headNumber m.exex.db < c.number := Nat.lt_of_le_of_lt hu.head_le hc
    unfold unsavedCount
    rw [List.countP_append, hhead, List.countP_singleton, if_pos (by simpa using hlt)]
  exact ⟨v, by rw [hcount]; exact hv, hexact⟩

/-- Whether NOMT is exact depends on the stored values and the head only. -/
theorem NomtExact.congr {db db' : UbtDatabase} {t : NomtMap} (h : NomtExact db t)
    (hvalue : ∀ key : TreeKey, key.path ≠ nomtHeadKey → db'.value key = db.value key)
    (hhead : db'.head = db.head) : NomtExact db' t where
  value key hkey := (h.value key hkey).trans (hvalue key hkey).symm
  head := by rw [h.head, UbtDatabase.loadHead, UbtDatabase.loadHead, hhead]

/-- **One commit** keeps the saved state behind the commits since. -/
theorem Unsaved.step {cs : List BlockCommit} {c : BlockCommit} {m m' : Machine} {root : B256}
    (hu : Unsaved cs m) (hc : m.exex.lastBlock < c.number)
    (hrun : commitBlock U c m = .ok root m') : Unsaved (cs ++ [c]) m' := by
  have hcom := commitBlock_ok U hrun
  have hnomt : m'.exex.nomt = m.exex.nomt.commitUpdates c.entries c.number := hcom.nomt
  have hlogical : m'.exex.logical = Writes.applyAll m.exex.logical c.writes := hcom.logical
  have hshows : NomtShows m'.exex.logical m'.exex.lastBlock m'.exex.nomt.current := by
    rw [hlogical, hcom.lastBlock, hnomt]
    exact hu.shows.update c.entries
  have hnumbers : ∀ c' ∈ cs ++ [c], c'.number ≤ m'.exex.lastBlock := by
    intro c' hc'
    rw [hcom.lastBlock]
    rcases List.mem_append.mp hc' with hold | hnew
    · have := hu.numbers c' hold
      omega
    · rw [List.mem_singleton.mp hnew]
  have hheads : (m'.exex.nomt.current :: m'.exex.nomt.past).Pairwise
      fun t t' => t'.headBlock < t.headBlock := by
    rw [hnomt]
    exact hu.heads_commitUpdates hc c.entries
  cases hf : (m.withEntries c.entries).exex.shouldFlush c.number with
  | true =>
    -- the new head is that of this commit: nothing is unsaved
    obtain ⟨hdirty, -, -, -, -, stemCount, hhead⟩ := hcom.flushed hf
    have hnumber : headNumber m'.exex.db = c.number := headNumber_of_head hhead
    have hzero : unsavedCount m'.exex.db (cs ++ [c]) = 0 := by
      unfold unsavedCount
      rw [List.countP_eq_zero]
      intro c' hc'
      have := hnumbers c' hc'
      rw [hcom.lastBlock] at this
      simpa [hnumber] using this
    refine ⟨hshows, hheads, hnumbers, by rw [hnumber, hcom.lastBlock], m'.exex.nomt, ?_, ?_, ?_⟩
    · rw [hzero, Versioned.rollback_zero]
    · intro key hkey
      rw [hshows.value key hkey, logical_of_clean hdirty]
    · rw [hnomt, UbtDatabase.loadHead, hhead]
      exact NomtMap.read_head_update _ _ _
  | false =>
    obtain ⟨-, -, -, -, hstems, hhead⟩ := hcom.kept hf
    have hnumber : headNumber m'.exex.db = headNumber m.exex.db := headNumber_congr hhead
    obtain ⟨v, hv, hexact⟩ := hu.rollback_commitUpdates hc hhead
    refine ⟨hshows, hheads, hnumbers, ?_, v, ?_, hexact.congr ?_ hhead⟩
    · have := hu.head_le
      rw [hnumber, hcom.lastBlock]
      omega
    · rw [hnomt]
      exact hv
    · intro key _
      exact congrFun (UbtDatabase.value_of_stems hstems) key

/-- **Commits keep the saved state behind those since the saved head.** -/
theorem Unsaved.commitAll {done cs : List BlockCommit} {m m' : Machine} (hu : Unsaved done m)
    (hinc : Increasing m.exex.lastBlock cs) (hrun : UbtExex.commitAll U cs m = .ok () m') :
    Unsaved (done ++ cs) m' := by
  induction cs generalizing done m with
  | nil =>
    cases hrun
    rwa [List.append_nil]
  | cons c cs ih =>
    obtain ⟨hc, hinc⟩ := hinc
    obtain ⟨root, m₁, h₁, hrest⟩ := commitAll_cons.mp hrun
    have hu₁ := hu.step hc h₁
    have hlast : m₁.exex.lastBlock = c.number := (commitBlock_ok U h₁).lastBlock
    rw [← hlast] at hinc
    have hthis := ih hu₁ hinc hrest
    rwa [List.append_assoc, List.singleton_append] at hthis

/-- A startup over stores in sync has nothing unsaved. -/
theorem Unsaved.start (hnew : UbtExEx.new U config disk = .ok s) (hsync : InSync disk) :
    Unsaved [] ⟨s, []⟩ := by
  have hr := restored_of_new hnew
  have hnomt : s.nomt = disk.nomt := hr.nomt.trans hsync.syncedNomt
  refine ⟨⟨fun key hkey => ?_, ?_⟩, ?_, by simp, ?_, s.nomt, rfl, ?_⟩
  · rw [hnomt, hr.logical]
    exact hsync.exact.value key hkey
  · rw [hnomt, hr.lastBlock]
    exact hsync.exact.headBlock
  · rw [hnomt]
    exact hsync.heads
  · rw [hr.db, hr.lastBlock]
  · rw [hnomt, hr.db]
    exact hsync.exact

/-! ### The rollback at startup -/

/-- A write of the stems changes no stored value. -/
def StemsKept (w : DurableWrite) : Prop :=
  w.step = .batchUpdateStems →
    ∀ key : TreeKey, key.path ≠ nomtHeadKey → w.after.db.value key = w.before.db.value key

theorem Increasing.of_append {n : ℕ} (hash : B256) {cs : List BlockCommit} {c : BlockCommit}
    (h : Increasing n (cs ++ [c])) :
    Increasing n cs ∧ (lastCommit (n, hash) cs).1 < c.number := by
  induction cs generalizing n hash with
  | nil => exact ⟨trivial, h.1⟩
  | cons c' cs ih =>
    obtain ⟨hc', hcs⟩ := h
    obtain ⟨hinc, hlt⟩ := ih c'.hash hcs
    rw [lastCommit_cons]
    exact ⟨⟨hc', hinc⟩, hlt⟩

/-- A rollback by a difference of block numbers, when the saved state of `db` is behind
`count` commits and the stored head is still that of `db`. -/
theorem rollback_exact_iff {db db' : UbtDatabase} {nomt v : Nomt} {count L : ℕ}
    (hheads : (nomt.current :: nomt.past).Pairwise fun t t' => t'.headBlock < t.headBlock)
    (hv : nomt.rollback count = some v) (hexact : NomtExact db v.current) (hL : count ≤ L)
    (hhead : db'.head = db.head) (hahead : headNumber db' < nomt.current.headBlock) :
    NomtExact db' (((nomt.keep L).rollback
        (nomt.current.headBlock - headNumber db')).getD (nomt.keep L)).current ↔
      count = nomt.current.headBlock - headNumber db' ∧
        ∀ key : TreeKey, key.path ≠ nomtHeadKey → db'.value key = db.value key := by
  set d := nomt.current.headBlock - headNumber db' with hd
  constructor
  · intro h
    have hcount : count = d := by
      cases hroll : (nomt.keep L).rollback d with
      | none =>
        -- a refused rollback leaves NOMT ahead
        rw [hroll] at h
        have := h.headBlock
        change nomt.current.headBlock = _ at this
        omega
      | some u =>
        rw [hroll] at h
        have hle : d ≤ L := by
          by_contra hlt
          rw [Versioned.rollback_keep_eq_none (Nat.lt_of_not_le hlt)] at hroll
          cases hroll
        rw [Versioned.rollback_keep hle] at hroll
        obtain ⟨u', hu', rfl⟩ := Option.map_eq_some_iff.mp hroll
        -- both versions are at the block of the head
        have hsame : headNumber db' = headNumber db := headNumber_congr hhead
        refine Versioned.rollback_inj hheads hv hu' ?_
        rw [hexact.headBlock, ← hsame]
        exact h.headBlock.symm
    refine ⟨hcount, fun key hkey => ?_⟩
    rw [← hcount, Versioned.rollback_keep hL, hv] at h
    rw [← hexact.value key hkey]
    exact (h.value key hkey).symm
  · rintro ⟨hcount, hvalue⟩
    rw [← hcount, Versioned.rollback_keep hL, hv]
    exact hexact.congr hvalue hhead

/-- **The rollback at startup is exact if and only if there were as many commits since
the saved head as blocks, and the stored values are those of the head.**  The run
starts from stores in sync, the crash comes after any durable write of the commit `c`
that follows the commits `cs`, and NOMT then still holds the `L` newest of its
versions, among them those of all commits since the saved head. -/
theorem startup_rollback_exact_iff {config' : UbtConfig} {s' : UbtExEx} {cs : List BlockCommit}
    {c : BlockCommit} {m : Machine} {w : DurableWrite} {L : ℕ}
    (hnew : UbtExEx.new U config disk = .ok s) (hsync : InSync disk)
    (hinc : Increasing (headNumber disk.db) (cs ++ [c]))
    (hrun : commitAll U cs ⟨s, []⟩ = .ok () m) (hw : w ∈ writesOf (commitBlock U c) m.exex)
    (hahead : headNumber w.after.db < w.after.nomt.current.headBlock)
    (hhistory : unsavedCount w.after.db (cs ++ [c]) ≤ L)
    (hnext : UbtExEx.new U config' (w.after.keep L) = .ok s') :
    NomtExact s'.db s'.nomt.current ↔
      unsavedCount w.after.db (cs ++ [c]) =
          w.after.nomt.current.headBlock - headNumber w.after.db ∧ StemsKept w := by
  -- the state before the commit that crashes
  have hr := restored_of_new hnew
  obtain ⟨hcs, hc⟩ := hinc.of_append s.lastHash
  rw [← hr.lastBlock] at hcs hc
  have hu : Unsaved cs m := (Unsaved.start hnew hsync).commitAll hcs hrun
  have hc : m.exex.lastBlock < c.number := by
    have htip : m.exex.lastBlock = (lastCommit (s.lastBlock, s.lastHash) cs).1 :=
      congrArg Prod.fst (tip_commitAll hrun)
    rwa [htip]
  -- the store after startup
  have hr' := restored_of_new hnext
  have hdb' : s'.db = w.after.db := hr'.db
  have hnomt' : s'.nomt = ((w.after.nomt.keep L).rollback
      (w.after.nomt.current.headBlock - headNumber w.after.db)).getD (w.after.nomt.keep L) :=
    hr'.nomt.trans (if_pos hahead)
  have hiff : w.after.nomt = m.exex.nomt.commitUpdates c.entries c.number →
      w.after.db.head = m.exex.db.head →
      (NomtExact s'.db s'.nomt.current ↔ unsavedCount w.after.db (cs ++ [c]) =
          w.after.nomt.current.headBlock - headNumber w.after.db ∧
        ∀ key : TreeKey, key.path ≠ nomtHeadKey → w.after.db.value key = m.exex.db.value key) := by
    intro hnomt hhead
    obtain ⟨v, hv, hexact⟩ := hu.rollback_commitUpdates hc hhead
    have hheads := hu.heads_commitUpdates hc c.entries
    rw [hdb', hnomt']
    rw [hnomt] at hahead ⊢
    exact rollback_exact_iff hheads hv hexact hhistory hhead hahead
  -- NOMT has the commit, and unless the new head is saved, the head is still the old one
  have hpoint := mem_writesOf (x := commitBlock U c)
    (commit_journal U c.number c.hash (Machine.withEntries ⟨m.exex, []⟩ c.entries)) w hw
  cases hpoint with
  | quiet hstep hafter =>
    rw [hiff hafter.nomt hafter.head]
    have hkept : StemsKept w := fun h => absurd h hstep
    have hsame : ∀ key : TreeKey, key.path ≠ nomtHeadKey →
        w.after.db.value key = m.exex.db.value key := fun key _ =>
      congrFun (UbtDatabase.value_of_stems hafter.stems) key
    exact and_congr_right fun _ => iff_of_true hsame hkept
  | stems hstep hbefore hafter =>
    rw [hiff hafter.nomt hafter.head]
    refine and_congr_right fun _ => ?_
    unfold StemsKept
    have hbefore : w.before.db.value = m.exex.db.value := UbtDatabase.value_of_stems hbefore.stems
    rw [hbefore]
    exact (imp_iff_right hstep).symm
  | head hstep hd hafter hn hh hroot =>
    -- the new head is saved: NOMT is not ahead
    have hnumber : headNumber w.after.db = c.number := (headNumber_of_head hafter.head).trans hn
    rw [hafter.nomt, hnumber] at hahead
    have hcur : (m.exex.nomt.commitUpdates c.entries c.number).current.headBlock = c.number :=
      NomtMap.headBlock_update _ _ _
    change c.number < (m.exex.nomt.commitUpdates c.entries c.number).current.headBlock at hahead
    omega

/-! ### A commit of two blocks -/

/-- A commit that sets slot 1. -/
def slotCommit (number : ℕ) (hash value : B256) : BlockCommit :=
  ⟨number, hash, [⟨slotKey 7 1, value, 7⟩]⟩

/-- An extension that flushes every tenth block, after a first commit. -/
def firstUnsaved : Machine := (commitAll sampleUbt [slotCommit 1 11 1] (.fresh ⟨10, 10⟩)).state

/-- The first durable write of the second commit. -/
def secondNomtCommit : DurableWrite :=
  (writesOf (commitBlock sampleUbt (slotCommit 2 12 2)) firstUnsaved.exex).get
    ⟨2, by decide +kernel⟩

/-- The rollback is exact after a crash in the second of two commits of one block. -/
theorem startup_rollback_exact_two_commits : ∃ s',
    UbtExEx.new sampleUbt ⟨10, 10⟩ (secondNomtCommit.after.keep 5) = .ok s' ∧
      NomtExact s'.db s'.nomt.current := by
  have hok : (commitAll sampleUbt [slotCommit 1 11 1] (.fresh ⟨10, 10⟩)).isOk = true := by
    decide +kernel
  obtain ⟨u, hrun⟩ := EStateM.Result.exists_ok hok
  have hinc : Increasing (headNumber Disk.empty.db) ([slotCommit 1 11 1] ++ [slotCommit 2 12 2]) :=
    ⟨by decide, by decide, trivial⟩
  have hroot : RootOk sampleUbt (secondNomtCommit.after.keep 5).db := by decide +kernel
  have hstart : ∃ s', UbtExEx.new sampleUbt ⟨10, 10⟩ (secondNomtCommit.after.keep 5) = .ok s' :=
    (new_ok_iff sampleUbt).mpr hroot
  obtain ⟨s', hnext⟩ := hstart
  refine ⟨s', hnext, ?_⟩
  refine (startup_rollback_exact_iff (UbtExEx.new_empty sampleUbt ⟨10, 10⟩) inSync_empty hinc hrun
    (List.get_mem _ _) (by decide +kernel) (by decide +kernel) hnext).mpr ⟨by decide +kernel, ?_⟩
  intro hstep
  exact absurd hstep (by decide +kernel)

/-- The first durable write of a commit of two blocks over a fresh start. -/
def pairNomtCommit : DurableWrite :=
  (writesOf (commitBlock sampleUbt (slotCommit 2 12 2)) (Machine.fresh ⟨10, 10⟩).exex).get
    ⟨3, by decide +kernel⟩

/-- **A rollback by block numbers fails after a commit of two blocks**: two commits are
to be undone, NOMT has one, and it stays ahead of MDBX. -/
theorem startup_rollback_fails :
    ¬∀ (U : Ubt) (config config' : UbtConfig) (disk : Disk) (s s' : UbtExEx)
      (cs : List BlockCommit) (c : BlockCommit) (m : Machine) (w : DurableWrite) (L : ℕ),
      UbtExEx.new U config disk = .ok s → InSync disk →
      Increasing (headNumber disk.db) (cs ++ [c]) → commitAll U cs ⟨s, []⟩ = .ok () m →
      w ∈ writesOf (commitBlock U c) m.exex →
      headNumber w.after.db < w.after.nomt.current.headBlock →
      unsavedCount w.after.db (cs ++ [c]) ≤ L → UbtExEx.new U config' (w.after.keep L) = .ok s' →
      NomtExact s'.db s'.nomt.current := by
  intro hall
  have hroot : RootOk sampleUbt (pairNomtCommit.after.keep 5).db := by decide +kernel
  have hstart : ∃ s', UbtExEx.new sampleUbt ⟨10, 10⟩ (pairNomtCommit.after.keep 5) = .ok s' :=
    (new_ok_iff sampleUbt).mpr hroot
  obtain ⟨s', hnext⟩ := hstart
  have hexact := hall sampleUbt ⟨10, 10⟩ ⟨10, 10⟩ .empty _ s' [] (slotCommit 2 12 2) _ pairNomtCommit 5
    (UbtExEx.new_empty sampleUbt ⟨10, 10⟩) inSync_empty ⟨by decide, trivial⟩ rfl
    (List.get_mem _ _) (by decide +kernel) (by decide +kernel) hnext
  -- NOMT is still at block 2, while there is no head
  have hhead := hexact.headBlock
  have hr := restored_of_new hnext
  rw [hr.db, hr.nomt] at hhead
  revert hhead
  decide +kernel

end UbtExex
