import UbtExex.Crash
import UbtExex.Owned
import UbtExex.Startup

/-!
# The count of stems

The count is raised by what the key index reports as new.  The key index is durable
with every commit, the count only with the MDBX head.  So after a crash the count can
be behind the key index, and no later commit makes up for it, since the stems that
were missed are not new any more.

## Main definitions

* `LifeStep` — an operation, or a restart after a shutdown or a crash.
* `lastStart` — the stores that the last startup found.
* `CountSaved`, `CountsExact` — the count that is restored, and those that are served.
* `unsavedStems`, `Tally` — the stems that are not in the saved count yet.
* `EndsSaved` — a process that ends with none of them.

## Main results

* `tally_run` — **how far the count is off changes with restarts only.**
* `countSaved_lastStart_iff` — **a startup finds the count saved if and only if all processes
  ended with all stems in the saved count.**
* `stem_counts_exact_iff` — **after a commit that flushes the counts are exact if and only
  if the last startup found the count saved.**
* `stem_counts_off_after_crash` — a crash after which they are not.
-/

open Std EStateM

namespace UbtExex

/-! ### Lives -/

/-- What happens to an extension over several processes. -/
inductive LifeEvent
  /-- An operation. -/
  | op (op : Op)
  /-- A startup over the stores that the last process left. -/
  | restart (found : Disk)

/-- An operation succeeds, or the process ends and the next startup succeeds: a process
can end between two operations, or at any durable write of an operation. -/
inductive LifeStep (U : Ubt) : Machine → LifeEvent → Machine → Prop
  | op {m m' : Machine} {op : Op} (h : OpStep U m op m') : LifeStep U m (.op op) m'
  | restart {m : Machine} {found : Disk} {config : UbtConfig} {s : UbtExEx}
      (hfound : found = m.exex.toDisk ∨ ∃ op : Op, ∃ w ∈ writesOf (op.run U) m.exex, w.after = found)
      (hnew : UbtExEx.new U config found = .ok s) : LifeStep U m (.restart found) ⟨s, []⟩

/-- The stores that the last startup found, those of a fresh start if it was the first. -/
def lastStart : List (Machine × LifeEvent) → Disk
  | [] => .empty
  | (_, .op _) :: h => lastStart h
  | (_, .restart found) :: _ => found

/-! ### Counts -/

/-- The number of stems in the MDBX head, zero without a head. -/
def UbtDatabase.savedCount (db : UbtDatabase) : ℕ := (db.loadHead.map UbtHead.stemCount).getD 0

/-- The MDBX head has the number of stems in the key index. -/
def CountSaved (d : Disk) : Prop := d.db.savedCount = d.keyIndex.forEachStem.length

instance (d : Disk) : Decidable (CountSaved d) :=
  inferInstanceAs (Decidable (d.db.savedCount = d.keyIndex.forEachStem.length))

/-- The count and those of both heads are the number of stems in the key index. -/
structure CountsExact (s : UbtExEx) : Prop where
  count : s.stemCount = s.keyIndex.forEachStem.length
  head : s.db.loadHead.map UbtHead.stemCount = some s.keyIndex.forEachStem.length
  indexHead : s.keyIndex.loadHead.map HeadRecord.stemCount = some s.keyIndex.forEachStem.length

/-- Since a startup over `found` the count has grown with the key index. -/
def Counted (found : Disk) (s : UbtExEx) : Prop :=
  s.stemCount + found.keyIndex.forEachStem.length =
    found.db.savedCount + s.keyIndex.forEachStem.length

variable {U : Ubt}

/-- A startup restores the count of the head. -/
theorem stemCount_of_new {config : UbtConfig} {d : Disk} {s : UbtExEx}
    (h : UbtExEx.new U config d = .ok s) : s.stemCount = d.db.savedCount := by
  obtain ⟨-, rfl⟩ := (new_eq_ok_iff U).mp h
  -- whichever way the two heads compare, only NOMT is rolled back
  have hsync : ∀ s : UbtExEx, s.syncNomt.stemCount = s.stemCount := by
    intro s
    unfold UbtExEx.syncNomt
    dsimp only
    split
    · rfl
    · split
      · rfl
      · rfl
  rw [hsync]
  unfold UbtDatabase.savedCount UbtExEx.restore
  cases d.db.loadHead <;> rfl

/-! ### Stems that are not in the saved count yet -/

/-- The stems that durable writes, newest first, added to the key index after the last of them
that saved the MDBX head; if none of them did, with those from before the writes. -/
def unsavedStems (before : ℕ) : List DurableWrite → ℕ
  | [] => before
  | w :: ws =>
    if w.step = .saveHead then 0
    else unsavedStems before ws +
      (w.after.keyIndex.forEachStem.length - w.before.keyIndex.forEachStem.length)

/-- The saved count is behind the key index by as much as at the startup over `found`, and by
`k` stems. -/
def Behind (found d : Disk) (k : ℕ) : Prop :=
  d.keyIndex.forEachStem.length + found.db.savedCount =
    d.db.savedCount + found.keyIndex.forEachStem.length + k

/-- What is counted in a process that started over `found`, `before` stems of which were not
saved when its journal began. -/
structure Tally (found : Disk) (before : ℕ) (m : Machine) : Prop where
  counted : Counted found m.exex
  now : Behind found m.exex.toDisk (unsavedStems before m.journal)
  points : ∀ later w earlier, m.journal = later ++ w :: earlier →
    Behind found w.after (unsavedStems before (w :: earlier))

section Tally

variable {found : Disk} {before : ℕ} {m : Machine}

theorem Tally.write (h : Tally found before m) {m' : Machine} {w : DurableWrite}
    (hjournal : m'.journal = w :: m.journal) (hafter : w.after = m'.exex.toDisk)
    (hcounted : Counted found m'.exex)
    (hnow : Behind found m'.exex.toDisk (unsavedStems before (w :: m.journal))) :
    Tally found before m' where
  counted := hcounted
  now := by
    rw [hjournal]
    exact hnow
  points later w' earlier hj := by
    rw [hjournal] at hj
    cases later with
    | nil =>
      obtain ⟨rfl, rfl⟩ := List.cons.inj hj
      rw [hafter]
      exact hnow
    | cons w'' later => exact h.points later w' earlier (List.cons.inj hj).2

/-- A durable write that changes neither number. -/
theorem Tally.persist (h : Tally found before m) {step : DurableStep} {f : Disk → Disk}
    (hstep : step ≠ .saveHead) (hdb : (f m.exex.toDisk).db.savedCount = m.exex.db.savedCount)
    (hindex : (f m.exex.toDisk).keyIndex.forEachStem = m.exex.keyIndex.forEachStem) :
    Tally found before (m.persist step f) := by
  refine h.write rfl rfl ?_ ?_
  · have hcounted := h.counted
    unfold Counted at hcounted ⊢
    change m.exex.stemCount + _ = _ + (f m.exex.toDisk).keyIndex.forEachStem.length
    rw [hindex]
    exact hcounted
  · have hnow := h.now
    unfold Behind at hnow ⊢
    unfold unsavedStems
    rw [if_neg hstep]
    change (f m.exex.toDisk).keyIndex.forEachStem.length + _ =
      (f m.exex.toDisk).db.savedCount + _ + (_ + ((f m.exex.toDisk).keyIndex.forEachStem.length -
        m.exex.keyIndex.forEachStem.length))
    rw [hindex, hdb, Nat.sub_self]
    exact hnow

theorem tally_persist {step : DurableStep} {f : Disk → Disk} (hstep : step ≠ .saveHead)
    (hdb : ∀ d, (f d).db.head = d.db.head)
    (hindex : ∀ d, (f d).keyIndex.stemTable = d.keyIndex.stemTable) :
    Keeps (Tally found before) (persist step f) := by
  intro m hm
  refine hm.persist hstep ?_ ?_
  · unfold UbtDatabase.savedCount UbtDatabase.loadHead
    rw [hdb]
  · unfold KeyIndex.forEachStem
    rw [hindex]

theorem tally_update {f : UbtExEx → UbtExEx}
    (h : ∀ s, (f s).toDisk = s.toDisk ∧ (f s).stemCount = s.stemCount) :
    Keeps (Tally found before) (update f) := by
  intro m hm
  obtain ⟨hdisk, hcount⟩ := h m.exex
  refine ⟨?_, ?_, hm.points⟩
  · have hcounted := hm.counted
    unfold Counted at hcounted ⊢
    change (f m.exex).stemCount + _ = _ + (f m.exex).toDisk.keyIndex.forEachStem.length
    rw [hcount, hdisk]
    exact hcounted
  · change Behind found (f m.exex).toDisk _
    rw [hdisk]
    exact hm.now

/-- The MDBX head is saved with the count. -/
theorem Tally.saveHead (h : Tally found before m) (n : ℕ) (hash root : B256) :
    Tally found before (m.persist .saveHead fun d =>
      { d with db := d.db.saveHead ⟨n, hash, root, m.exex.stemCount⟩ }) := by
  have hcounted := h.counted
  refine h.write rfl rfl hcounted ?_
  unfold Counted at hcounted
  change m.exex.keyIndex.forEachStem.length + _ = m.exex.stemCount + _ + 0
  omega

theorem tally_flushDirty : Keeps (Tally found before) flushDirty := by
  refine .get_bind fun m => ?_
  refine Keeps.bind (tally_update fun _ => ⟨rfl, rfl⟩) fun _ => ?_
  split
  · exact .pure _
  · exact tally_persist (by decide) (fun _ => rfl) fun _ => rfl

theorem tally_saveStemAddresses (news : List (Stem × Address)) :
    Keeps (Tally found before) (saveStemAddresses news) := by
  unfold saveStemAddresses
  split
  · exact .pure _
  · intro m hm
    cases hdb : m.exex.db.batchSaveStemAddresses news with
    | error e =>
      rw [tryPersist_error (by rw [hdb]; rfl)]
      exact hm
    | ok db =>
      rw [tryPersist_ok (d := { m.exex.toDisk with db := db }) (by rw [hdb]; rfl)]
      have hstep : DurableStep.batchSaveStemAddresses ≠ .saveHead := by decide
      refine hm.persist (f := fun _ => { m.exex.toDisk with db := db }) hstep ?_ rfl
      rw [UbtDatabase.batchSaveStemAddresses_eq_ok hdb]
      rfl

/-- **What `apply_updates` adds to the key index is added to the count.** -/
theorem tally_indexEntries (entries : List PendingEntry) {x : ExM Unit}
    (hx : Keeps (Tally found before) x) :
    Keeps (Tally found before) (indexEntries entries >>= fun newStems =>
      update (fun s => { s with stemCount := s.stemCount + newStems }) >>= fun _ => x) := by
  intro m hm
  cases hki : m.exex.keyIndex.applyUpdates (indexUpdates entries) with
  | error e =>
    have hrun : indexEntries entries m = .error e m := by
      refine tryPersist_error ?_
      rw [← indexUpdates, hki]
      rfl
    rw [bind_apply_of_error hrun]
    exact hm
  | ok r =>
    have hrun : indexEntries entries m = .ok r.2 (m.persist .applyUpdates
        fun _ => { m.exex.toDisk with keyIndex := r.1 }) := by
      refine tryPersist_ok ?_
      rw [← indexUpdates, hki]
      rfl
    have hlength : r.1.forEachStem.length = m.exex.keyIndex.forEachStem.length + r.2 :=
      KeyIndex.length_applyUpdates hki
    have hcounted := hm.counted
    have hnow := hm.now
    unfold Counted at hcounted
    unfold Behind at hnow
    rw [bind_apply_of_ok hrun, update_bind_apply]
    refine hx _ (hm.write rfl rfl ?_ ?_)
    · change m.exex.stemCount + r.2 + _ = _ + r.1.forEachStem.length
      omega
    · have hstep : DurableStep.applyUpdates ≠ .saveHead := by decide
      unfold Behind unsavedStems
      rw [if_neg hstep]
      change r.1.forEachStem.length + _ = m.exex.db.savedCount + _ +
        (_ + (r.1.forEachStem.length - m.exex.keyIndex.forEachStem.length))
      change m.exex.keyIndex.forEachStem.length + _ = m.exex.db.savedCount + _ + _ at hnow
      omega

theorem tally_recordBlock (n : ℕ) (hash : B256) :
    Keeps (Tally found before) (recordBlock n hash) := by
  refine .get_bind fun m => Keeps.bind (tally_update fun _ => ⟨rfl, rfl⟩) fun _ => ?_
  refine Keeps.bind (tally_persist (by decide) (fun _ => rfl) fun _ => rfl) fun _ => ?_
  refine .get_bind fun m => Keeps.bind (tally_update fun _ => ⟨rfl, rfl⟩) fun _ => ?_
  refine (tally_saveStemAddresses _).bind fun _ => tally_indexEntries _ ?_
  refine Keeps.bind ?_ fun _ => tally_update fun _ => ⟨rfl, rfl⟩
  unfold saveDeltas
  split
  · exact .pure _
  · exact tally_persist (by decide) (fun _ => rfl) fun _ => rfl

theorem tally_revertBlock (n : ℕ) : Keeps (Tally found before) (revertBlock n) := by
  refine .get_bind fun m => Keeps.bind (tally_update fun _ => ⟨rfl, rfl⟩) fun _ => ?_
  split
  · exact tally_persist (by decide) (fun _ => rfl) fun _ => rfl
  · exact .pure _

theorem tally_flush (n : ℕ) (hash : B256) : Keeps (Tally found before) (flush U n hash) := by
  refine tally_flushDirty.bind fun _ m hm => ?_
  have hindex : Keeps (Tally found before) (persist .keyIndexSaveHead fun d =>
      { d with
        keyIndex := d.keyIndex.saveHead ⟨n, hash, computeRoot U m.exex.db, m.exex.stemCount⟩ }) :=
    tally_persist (by decide) (fun _ => rfl) fun _ => rfl
  rw [get_bind_apply, persist_bind_apply]
  refine hindex.bind (fun _ => ?_) _ (hm.saveHead n hash _)
  refine Keeps.bind (tally_update fun _ => ⟨rfl, rfl⟩) fun _ => Keeps.bind ?_ fun _ => .pure _
  refine .get_bind fun m => ?_
  dsimp only
  split
  · exact tally_persist (by decide) (fun _ => rfl) fun _ => rfl
  · exact .pure _

theorem tally_saveCurrent : Keeps (Tally found before) (saveCurrent U) := by
  refine tally_flushDirty.bind fun _ m hm => ?_
  rw [get_bind_apply, persist_bind_apply]
  exact hm.saveHead m.exex.lastBlock m.exex.lastHash _

/-- A revert does not touch the count, whatever it restores. -/
theorem tally_revert (old : Chain) : Keeps (Tally found before) (revert U old) := by
  unfold revert
  refine Keeps.bind (tally_persist (by decide) (fun _ => rfl) fun _ => rfl) fun _ => ?_
  refine (Keeps.forM fun n _ => tally_revertBlock n).bind fun _ => ?_
  refine Keeps.bind (tally_update fun s => ?_) fun _ => .get_bind fun m => ?_
  · split
    · exact ⟨rfl, rfl⟩
    · exact ⟨rfl, rfl⟩
  · dsimp only
    split
    · exact tally_saveCurrent.bind fun _ => tally_update fun _ => ⟨rfl, rfl⟩
    · exact .pure _

/-- **An operation does not change how far the count is off**, nor does any durable write of
it but for the stems that are not saved yet. -/
theorem tally_run (op : Op) : Keeps (Tally found before) (op.run U) := by
  cases op with
  | commit n hash es =>
    intro m hm
    rw [Op.state_commit]
    refine Keeps.bind (tally_recordBlock n hash) (fun _ => .get_bind fun m => ?_) (m.push es)
      ⟨hm.counted, hm.now, hm.points⟩
    dsimp only
    split
    · exact tally_flush n hash
    · exact .pure _
  | revert old => exact tally_revert old
  | shutdown => exact tally_saveCurrent.bind fun _ => .pure _

theorem Tally.step {op : Op} {m' : Machine} (h : Tally found before m) (hop : OpStep U m op m') :
    Tally found before m' := by
  have hrun : op.run U m = .ok () m' := hop
  have hkept := tally_run (U := U) op m h
  rw [hrun] at hkept
  exact hkept

/-- A startup begins a tally of its own. -/
theorem tally_new {config : UbtConfig} {s : UbtExEx} (h : UbtExEx.new U config found = .ok s) :
    Tally found 0 ⟨s, []⟩ where
  counted := by
    unfold Counted
    rw [stemCount_of_new h, keyIndex_of_new h]
  now := by
    have hdb : s.db = found.db := (restored_of_new h).db
    unfold Behind
    change s.keyIndex.forEachStem.length + _ = s.db.savedCount + _ + 0
    rw [keyIndex_of_new h, hdb]
    omega
  points later w earlier hj := by
    cases later with
    | nil => cases hj
    | cons w' later => cases hj

end Tally

/-! ### Runs -/

/-- **In every run the count is off by as much as at the last startup.** -/
theorem tally_life {config : UbtConfig} {h : List (Machine × LifeEvent)} {m : Machine}
    (hrun : Run (LifeStep U) (.fresh config) h m) : Tally (lastStart h) 0 m := by
  induction hrun with
  | nil => exact tally_new (UbtExEx.new_empty U config)
  | snoc hr hs ih =>
    cases hs with
    | op hop => exact ih.step hop
    | restart hfound hnew => exact tally_new hnew

/-! ### Ends of processes -/

/-- The process ends between two operations, or at a durable write of one, and `apply_updates`
added no stem since the MDBX head was saved. -/
inductive EndsSaved (U : Ubt) (m : Machine) : Disk → Prop
  | between (h : unsavedStems 0 m.journal = 0) : EndsSaved U m m.exex.toDisk
  | during {op : Op} {later earlier : List DurableWrite} {w : DurableWrite}
      (hw : writesOf (op.run U) m.exex = later ++ w :: earlier)
      (h : unsavedStems (unsavedStems 0 m.journal) (w :: earlier) = 0) : EndsSaved U m w.after

/-- The condition on what happens: a process that ends does so with all stems in the saved
count. -/
def StemsSaved (U : Ubt) (m : Machine) : LifeEvent → Prop
  | .op _ => True
  | .restart found => EndsSaved U m found

/-- What the durable writes of an operation leave. -/
theorem Tally.during {found : Disk} {m : Machine} (h : Tally found 0 m) {op : Op}
    {later earlier : List DurableWrite} {w : DurableWrite}
    (hw : writesOf (op.run U) m.exex = later ++ w :: earlier) :
    Behind found w.after (unsavedStems (unsavedStems 0 m.journal) (w :: earlier)) := by
  have hnone : ∀ later w earlier, ([] : List DurableWrite) = later ++ w :: earlier →
      Behind found w.after (unsavedStems (unsavedStems 0 m.journal) (w :: earlier)) := by
    intro later w earlier hj
    cases later with
    | nil => cases hj
    | cons w' later => cases hj
  have hstart : Tally found (unsavedStems 0 m.journal) ⟨m.exex, []⟩ := ⟨h.counted, h.now, hnone⟩
  exact (tally_run (U := U) op _ hstart).points later w earlier hw

theorem EndsSaved.behind {found : Disk} {m : Machine} {d : Disk} (h : EndsSaved U m d)
    (ht : Tally found 0 m) : Behind found d 0 := by
  cases h with
  | between hnone =>
    have hnow := ht.now
    rw [hnone] at hnow
    exact hnow
  | during hw hnone =>
    have hpoint := ht.during hw
    rw [hnone] at hpoint
    exact hpoint

/-- Wherever a process ends, the saved count is behind by the stems that are not saved. -/
theorem Tally.ends {found : Disk} {m : Machine} (h : Tally found 0 m) {d : Disk}
    (hfound : d = m.exex.toDisk ∨ ∃ op : Op, ∃ w ∈ writesOf (op.run U) m.exex, w.after = d) :
    ∃ k, Behind found d k ∧ (k = 0 → EndsSaved U m d) := by
  rcases hfound with rfl | ⟨op, w, hw, rfl⟩
  · exact ⟨_, h.now, .between⟩
  · obtain ⟨later, earlier, hsplit⟩ := List.append_of_mem hw
    exact ⟨_, h.during hsplit, .during hsplit⟩

/-- The saved count is never too high. -/
theorem savedCount_lastStart_le {config : UbtConfig} {h : List (Machine × LifeEvent)} {m : Machine}
    (hrun : Run (LifeStep U) (.fresh config) h m) :
    (lastStart h).db.savedCount ≤ (lastStart h).keyIndex.forEachStem.length := by
  induction hrun with
  | nil => exact Nat.zero_le _
  | snoc hr hs ih =>
    cases hs with
    | op hop => exact ih
    | restart hfound hnew =>
      obtain ⟨k, hbehind, -⟩ := (tally_life hr).ends hfound
      unfold Behind at hbehind
      unfold lastStart
      omega

/-- **The last startup found the count saved if and only if no process ended between an
`apply_updates` that added a stem and the next save of the MDBX head**: the count survives all
other kills, and is not made up for after one of these. -/
theorem countSaved_lastStart_iff {config : UbtConfig} {h : List (Machine × LifeEvent)} {m : Machine}
    (hrun : Run (LifeStep U) (.fresh config) h m) :
    CountSaved (lastStart h) ↔ ∀ p ∈ h, StemsSaved U p.1 p.2 := by
  induction hrun with
  | nil => exact ⟨fun _ p hp => absurd hp List.not_mem_nil, fun _ => rfl⟩
  | @snoc h m m' e hr hs ih =>
    rw [List.forall_mem_cons]
    cases hs with
    | op hop => exact ih.trans (and_iff_right trivial).symm
    | @restart found config s hfound hnew =>
      have htally := tally_life hr
      have hle := savedCount_lastStart_le hr
      constructor
      · intro hsaved
        obtain ⟨k, hbehind, hends⟩ := htally.ends hfound
        have hsaved : found.db.savedCount = found.keyIndex.forEachStem.length := hsaved
        have hboth : CountSaved (lastStart h) ∧ k = 0 := by
          unfold Behind at hbehind
          unfold CountSaved
          omega
        exact ⟨hends hboth.2, ih.mp hboth.1⟩
      · intro ⟨hend, hrest⟩
        have hbehind := EndsSaved.behind hend htally
        have hbefore := ih.mpr hrest
        unfold Behind at hbehind
        unfold CountSaved at hbefore
        change found.db.savedCount = found.keyIndex.forEachStem.length
        omega

/-! ### Flushes -/

/-- A commit that flushes saves the count in both heads. -/
theorem countsExact_flush_iff {n : ℕ} {hash : B256} {m m' : Machine} {root : B256}
    (hrun : commit U n hash m = .ok root m') (hflush : m.exex.shouldFlush n = true) :
    CountsExact m'.exex ↔ m'.exex.stemCount = m'.exex.keyIndex.forEachStem.length := by
  have hdb := head_commit U hrun
  have hki := keyIndexHead_commit U hrun
  rw [hflush, if_pos rfl] at hdb hki
  refine ⟨fun h => h.count, fun h => ⟨h, ?_, ?_⟩⟩
  · rw [hdb, Option.map_some, h]
  · rw [hki, Option.map_some, h]

/-- **After a commit that flushes, the count and those of both heads are the number of
stems in the key index if and only if the last startup found the count saved**, in
every run of operations and restarts from a fresh start. -/
theorem stem_counts_exact_iff {config : UbtConfig} {h : List (Machine × LifeEvent)} {m m' : Machine}
    {n : ℕ} {hash : B256} {es : List PendingEntry} (hrun : Run (LifeStep U) (.fresh config) h m)
    (hcommit : OpStep U m (.commit n hash es) m') (hflush : m.exex.shouldFlush n = true) :
    CountsExact m'.exex ↔ CountSaved (lastStart h) := by
  have hcounted := ((tally_life hrun).step hcommit).counted
  obtain ⟨root, hok⟩ := Op.commit_eq_ok hcommit
  rw [countsExact_flush_iff (m := m.push es) hok hflush]
  unfold Counted at hcounted
  unfold CountSaved
  omega

/-! ### A crash that loses a stem -/

/-- The commit of block 1, which writes the first stem. -/
def firstStem : Op := .commit 1 11 [⟨slotKey 7 1, 1, 7⟩]

/-- The commit of block 2, which writes nothing. -/
def nextBlock : Op := .commit 2 12 []

/-- After block 1, which an extension that flushes every second block does not flush. -/
def stemIndexed : Machine := (firstStem.run sampleUbt (.fresh ⟨2, 10⟩)).state

/-- After a shutdown then. -/
def stemSaved : Machine := (Op.shutdown.run sampleUbt stemIndexed).state

/-- The extension that the next startup makes of the stores of a machine. -/
def restarted (m : Machine) (config : UbtConfig) : Machine :=
  ⟨(UbtExEx.restore config m.exex.toDisk m.exex.db.loadHead).syncNomt, []⟩

theorem restarted_step {m : Machine} {config : UbtConfig} (h : RootOk sampleUbt m.exex.db) :
    LifeStep sampleUbt m (.restart m.exex.toDisk) (restarted m config) :=
  .restart (Or.inl rfl) ((new_eq_ok_iff sampleUbt).mpr ⟨h, rfl⟩)

theorem stemIndexed_step :
    LifeStep sampleUbt (.fresh ⟨2, 10⟩) (.op firstStem) stemIndexed :=
  .op (.of_isOk (by decide +kernel))

/-- The counts are exact after a shutdown and a restart. -/
theorem stem_counts_exact_shutdown :
    CountsExact (nextBlock.run sampleUbt (restarted stemSaved ⟨1, 10⟩)).state.exex := by
  have hsaved : LifeStep sampleUbt stemIndexed (.op .shutdown) stemSaved :=
    .op (.of_isOk (by decide +kernel))
  have hrun : Run (LifeStep sampleUbt) (.fresh ⟨2, 10⟩) _ (restarted stemSaved ⟨1, 10⟩) :=
    .snoc (.snoc (.snoc .nil stemIndexed_step) hsaved) (restarted_step (by decide +kernel))
  refine (stem_counts_exact_iff hrun (.of_isOk (by decide +kernel)) (by decide +kernel)).mpr ?_
  show CountSaved stemSaved.exex.toDisk
  decide +kernel

/-- **A crash before the flush loses a stem**: block 1 adds a stem to the key index and
the process ends; both blocks are committed again, the second is flushed, and the
count is zero. -/
theorem stem_counts_off_after_crash :
    ¬∀ (U : Ubt) (config : UbtConfig) (h : List (Machine × LifeEvent)) (m m' : Machine) (n : ℕ)
      (hash : B256) (es : List PendingEntry), Run (LifeStep U) (.fresh config) h m →
        OpStep U m (.commit n hash es) m' → m.exex.shouldFlush n = true → CountsExact m'.exex := by
  intro hall
  have hagain : LifeStep sampleUbt (restarted stemIndexed ⟨2, 10⟩) (.op firstStem)
      (firstStem.run sampleUbt (restarted stemIndexed ⟨2, 10⟩)).state :=
    .op (.of_isOk (by decide +kernel))
  have hrun := Run.snoc (.snoc (.snoc .nil stemIndexed_step)
    (@restarted_step _ ⟨2, 10⟩ (by decide +kernel))) hagain
  have hcount := (hall sampleUbt _ _ _ _ 2 12 [] hrun (.of_isOk (by decide +kernel))
    (by decide +kernel)).count
  revert hcount
  decide +kernel

end UbtExex
