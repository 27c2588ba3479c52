import UbtExex.NomtLog

/-!
# Resuming after a crash

The block that `get_head` names after a startup, in runs that commit one block at a
time.  MDBX is at a block of the canonical chain at every crash point, and NOMT is at
that block or ahead of it, unless a revert that undoes the block of the MDBX head was
interrupted: then the startup lowers the number of that block and keeps its hash.
NOMT can undo a limited number of commits, and reverts go back no further than its log.

## Main definitions

* `AtBlock` — the stored values and the head are those of a canonical block.
* `Attempt` — an operation that may be started, and the chain it leads to.
* `commitRecords` — the delta rows and the roots that commits record.
* `NoRowLeft` — no stored row stands where commits find nothing to store.

## Main results

* `Anchored.step`, `Anchored.run` — MDBX stays at a canonical block.
* `commitRecords_eq` — commits from equal states store the same rows and return the same
  roots.
* `resume_point` — **unless NOMT is behind MDBX, the resume point is a canonical block,
  MDBX is at it, and commits from there record what they would without the crash.**
* `resume_point_wrong_hash` — a revert interrupted after the rollback of NOMT.
-/

open Std

namespace UbtExex

/-! ### The stores at a block -/

/-- The block of the stored head. -/
def headTip (db : UbtDatabase) : ℕ × B256 := (headNumber db, headHash db)

/-- The stored values and the head are those of a block of the chain `bs`, or of the
base it starts from. -/
def AtBlock (base : ℕ × B256) (σ₀ : TreeKey → B256) (bs : List CanonicalBlock)
    (db : UbtDatabase) : Prop :=
  ∃ k, headTip db = tipOf base (bs.drop k) ∧ db.value = stateAfter σ₀ (bs.drop k)

/-- Only the stored values and the head matter. -/
theorem AtBlock.congr {base : ℕ × B256} {σ₀ : TreeKey → B256} {bs : List CanonicalBlock}
    {db db' : UbtDatabase} (h : AtBlock base σ₀ bs db) (hvalue : db'.value = db.value)
    (hhead : db'.head = db.head) : AtBlock base σ₀ bs db' := by
  obtain ⟨k, htip, hstate⟩ := h
  refine ⟨k, ?_, hvalue.trans hstate⟩
  rw [← htip]
  unfold headTip headNumber headHash UbtDatabase.loadHead
  rw [hhead]

/-- A longer chain has the blocks of the shorter one. -/
theorem AtBlock.cons {base : ℕ × B256} {σ₀ : TreeKey → B256} {bs : List CanonicalBlock}
    {db : UbtDatabase} (h : AtBlock base σ₀ bs db) (b : CanonicalBlock) :
    AtBlock base σ₀ (b :: bs) db := by
  obtain ⟨k, htip, hstate⟩ := h
  exact ⟨k + 1, htip, hstate⟩

/-- A block that is not above the tip of the shorter chain is one of its blocks. -/
theorem AtBlock.drop {base : ℕ × B256} {σ₀ : TreeKey → B256} {bs : List CanonicalBlock}
    {db : UbtDatabase} {j : ℕ} (h : AtBlock base σ₀ bs db) (hl : Linked base bs)
    (hle : headNumber db ≤ (tipOf base (bs.drop j)).1) : AtBlock base σ₀ (bs.drop j) db := by
  obtain ⟨k, htip, hstate⟩ := h
  have hnumber : ∀ i, (tipOf base (bs.drop i)).1 = base.1 + (bs.length - i) := by
    intro i
    rw [← List.take_append_drop i bs] at hl
    rw [hl.of_append.tip_eq, List.length_drop]
  have hk : headNumber db = base.1 + (bs.length - k) := by
    rw [← hnumber, ← htip]
    rfl
  rw [hk, hnumber] at hle
  rcases Nat.le_total j k with hjk | hkj
  · refine ⟨k - j, ?_, ?_⟩
    · rw [List.drop_drop, Nat.add_sub_cancel' hjk]
      exact htip
    · rw [List.drop_drop, Nat.add_sub_cancel' hjk]
      exact hstate
  · -- the block is at or below the base of both chains
    have hsame : bs.drop k = (bs.drop j).drop 0 := by
      rcases Nat.eq_or_lt_of_le hkj with rfl | hlt
      · rfl
      · rw [List.drop_zero, List.drop_eq_nil_of_le (by omega), List.drop_eq_nil_of_le (by omega)]
    rw [hsame] at htip hstate
    exact ⟨0, htip, hstate⟩

/-! ### Runs -/

/-- The machine and NOMT keep to a ledger of commits of one block, and MDBX is at a
canonical block. -/
structure Anchored (U : Ubt) (base : ℕ × B256) (σ₀ : TreeKey → B256) (t : Tracked) : Prop
    extends Shown base σ₀ t where
  single : ∀ c ∈ t.ledger, c.blocks.length = 1
  persisted : t.machine.exex.lastPersistedBlock = headNumber t.machine.exex.db
  saved : AtBlock base σ₀ t.ledger.blocks t.machine.exex.db
  root : RootOk U t.machine.exex.db

variable {U : Ubt} {base : ℕ × B256} {σ₀ : TreeKey → B256} {limit : Option ℕ}

theorem Anchored.touched {t : Tracked} {e : Event} (hc : Anchored U base σ₀ t) (old : Chain)
    (_ : e = .revert old) : ∀ c ∈ t.ledger.touched old.blocks.length, c.blocks.length = 1 :=
  fun c hmem => hc.single c (Ledger.mem_of_mem_touched c hmem)

theorem Anchored.eventUnit {t : Tracked} {e : Event} (hc : Anchored U base σ₀ t)
    (hrows : RowsFound t e) : EventUnit t e := by
  cases e with
  | commit bs es => exact trivial
  | revert old => exact ⟨hrows, hc.touched old rfl⟩

theorem headTip_of_head {db : UbtDatabase} {hd : UbtHead} (h : db.head = some hd) :
    headTip db = (hd.blockNumber, hd.blockHash) := by
  unfold headTip headNumber headHash UbtDatabase.loadHead
  rw [h]
  rfl

/-- The tables after a checkpoint of the newest block. -/
theorem AtBlock.of_head {bs : List CanonicalBlock} {db : UbtDatabase} {hd : UbtHead}
    (hhead : db.head = some hd) (htip : (hd.blockNumber, hd.blockHash) = tipOf base bs)
    (hvalue : db.value = stateAfter σ₀ bs) : AtBlock base σ₀ bs db :=
  ⟨0, (headTip_of_head hhead).trans htip, hvalue⟩

/-- **One commit of a block, or one revert that finds its rows and that NOMT can undo,
leaves MDBX at a canonical block.** -/
theorem Anchored.step {t t' : Tracked} {e : Event} (hc : Anchored U base σ₀ t)
    (hrows : RowsFound t e) (hlog : LogReaches t e) (hstep : SingleStep U base t e t') :
    Anchored U base σ₀ t' := by
  obtain ⟨hsingle, hstep⟩ := hstep
  have hsync := hc.toShown.step (hc.eventUnit hrows) hlog hstep
  cases hstep with
  | @commit m m' L hi b bs es root hlink hwrites hrun =>
    obtain rfl : bs = [] := List.length_eq_zero_iff.mp (Nat.succ.inj hsingle)
    have hcom := commit_ok U hrun
    have hone : ∀ c ∈ (⟨[b], (m.push es).exex.pendingUndo⟩ :: L : Ledger), c.blocks.length = 1 :=
      List.forall_mem_cons.mpr ⟨rfl, hc.single⟩
    have hlogical : m'.exex.logical = stateAfter σ₀ (b :: L.blocks) := hsync.logical
    cases hf : (m.push es).exex.shouldFlush b.block.number with
    | true =>
      obtain ⟨hdirty, hpers, -, -, hroot, stemCount, hhead⟩ := hcom.flushed hf
      have hvalue : m'.exex.db.value = stateAfter σ₀ (b :: L.blocks) := by
        rw [← hlogical, logical_of_clean hdirty]
      refine ⟨hsync, hone, ?_, AtBlock.of_head hhead rfl hvalue, rootOk_of_head hhead hroot⟩
      exact hpers.trans (congrArg Prod.fst (headTip_of_head hhead)).symm
    | false =>
      obtain ⟨hpers, -, -, -, hstems, hhead⟩ := hcom.kept hf
      have hsaved : AtBlock base σ₀ (b :: L.blocks) m'.exex.db :=
        (hc.saved.congr (UbtDatabase.value_of_stems hstems) hhead).cons b
      refine ⟨hsync, hone, ?_, hsaved, rootOk_congr hstems.symm hhead.symm hc.root⟩
      exact hpers.trans (hc.persisted.trans (headNumber_congr hhead).symm)
  | @revert m m' L hi old hold hrun =>
    have hr := revert_ok U hrun
    have hone : ∀ c ∈ L.dropBlocks old.blocks.length, c.blocks.length = 1 :=
      fun c hmem => hc.single c (Ledger.mem_of_mem_dropBlocks hc.single c hmem)
    have htip := tip_dropped hc.linked hold
    have hlogical : m'.exex.logical = stateAfter σ₀ (L.blocks.drop old.blocks.length) := by
      rw [← L.blocks_dropBlocks]
      exact hsync.logical
    by_cases hpers : ∃ b ∈ old.blocks, b.number ≤ m.exex.lastPersistedBlock
    · obtain ⟨hdirty, hblock, -, -, stemCount, hhead⟩ := hr.persisted hpers
      have hvalue : m'.exex.db.value = stateAfter σ₀ (L.blocks.drop old.blocks.length) := by
        rw [← hlogical, logical_of_clean hdirty]
      refine ⟨hsync, hone, ?_, ?_, rootOk_of_head hhead rfl⟩
      · exact hblock.trans (congrArg Prod.fst (headTip_of_head hhead)).symm
      · rw [L.blocks_dropBlocks]
        exact AtBlock.of_head hhead htip.symm hvalue
    · obtain ⟨hblock, -, -, hstems, hhead⟩ := hr.kept hpers
      have hnumber : headNumber m'.exex.db = headNumber m.exex.db := headNumber_congr hhead
      -- no reverted block was persisted, so the head is below them
      have hbelow : headNumber m'.exex.db ≤ (tipOf base (L.blocks.drop old.blocks.length)).1 := by
        have hfirst : ¬old.first.number ≤ m.exex.lastPersistedBlock :=
          fun hle => hpers ⟨old.first, List.head_mem _, hle⟩
        have hp : m.exex.lastPersistedBlock = headNumber m.exex.db := hc.persisted
        rw [htip, hnumber, ← hp]
        change _ ≤ old.first.number - 1
        omega
      have hsaved : AtBlock base σ₀ L.blocks m'.exex.db :=
        hc.saved.congr (UbtDatabase.value_of_stems hstems) hhead
      refine ⟨hsync, hone, ?_, ?_, rootOk_congr hstems.symm hhead.symm hc.root⟩
      · exact hblock.trans (hc.persisted.trans hnumber.symm)
      · rw [L.blocks_dropBlocks]
        exact hsaved.drop hc.linked hbelow

theorem Anchored.limitLog {t : Tracked} (hc : Anchored U base σ₀ t) (limit : Option ℕ) :
    Anchored U base σ₀ (t.limitLog limit) :=
  ⟨hc.toShown.limitLog limit, hc.single, hc.persisted, hc.saved, hc.root⟩

/-- **One step that the log allows** leaves MDBX at a canonical block and NOMT at the tip. -/
theorem Anchored.logged {t t' : Tracked} {e : Event} (hc : Anchored U base σ₀ t)
    (hall : Unforgotten limit t) (hrows : RowsFound t e) (hlog : LogHolds limit t e)
    (hstep : LoggedStep U limit base t e t') :
    Anchored U base σ₀ t' ∧ Unforgotten limit t' := by
  obtain ⟨t₁, hstep, rfl⟩ := hstep
  have hreaches := hlog.reaches hall hc.touched hstep.2
  have hhistory := hall.step hc.toFollowing hc.touched hstep.2
  exact ⟨(hc.step hrows hreaches hstep).limitLog limit, hhistory.limitLog⟩

/-- **Every run that the log allows**, its reverts finding their rows. -/
theorem Anchored.run {t₀ t : Tracked} {h : List (Tracked × Event)} (hc : Anchored U base σ₀ t₀)
    (hall : Unforgotten limit t₀) (hrun : Run (LoggedStep U limit base) t₀ h t)
    (hkept : ∀ p ∈ h, RowsFound p.1 p.2 ∧ LogHolds limit p.1 p.2) :
    Anchored U base σ₀ t ∧ Unforgotten limit t := by
  have hstep : ∀ t e t', Anchored U base σ₀ t ∧ Unforgotten limit t →
      RowsFound t e ∧ LogHolds limit t e → LoggedStep U limit base t e t' →
        Anchored U base σ₀ t' ∧ Unforgotten limit t' :=
    fun _ _ _ ht hcond hstep => ht.1.logged ht.2 hcond.1 hcond.2 hstep
  exact (hrun.invariant ⟨hc, hall⟩ hstep hkept).1

/-- A startup over stores in sync. -/
theorem Anchored.start {config : UbtConfig} {disk : Disk} {s : UbtExEx}
    (hnew : UbtExEx.new U config disk = .ok s) (hsync : InSync disk) :
    Anchored U (headTip disk.db) disk.db.value (.start ⟨s, []⟩) := by
  have hr := restored_of_new hnew
  have hnomt : s.nomt = disk.nomt := hr.nomt.trans hsync.syncedNomt
  have hsynced : NomtSynced s := by
    refine ⟨fun key hkey => ?_, ?_⟩
    · rw [hnomt, hr.logical]
      exact hsync.exact.value key hkey
    · rw [hnomt, hr.lastBlock]
      exact hsync.exact.headBlock
  have htip : Machine.tip ⟨s, []⟩ = headTip disk.db := by
    unfold Machine.tip headTip
    rw [hr.lastBlock, hr.lastHash]
  have hstart := Synced.start (m := ⟨s, []⟩) hr.pendingEntries hsynced
  rw [htip, hr.logical] at hstart
  refine ⟨hstart.toShown, ?_, ?_, ⟨0, ?_, ?_⟩, ?_⟩
  · intro c hc
    cases hc
  · change s.lastPersistedBlock = headNumber s.db
    rw [hr.lastPersistedBlock, hr.db, hsync.exact.headBlock, Nat.min_self]
  · change headTip s.db = headTip disk.db
    rw [hr.db]
  · change s.db.value = disk.db.value
    rw [hr.db]
  · change RootOk U s.db
    rw [hr.db]
    exact ((new_eq_ok_iff U).mp hnew).1

/-! ### A crash in the next operation -/

/-- An operation that the main loop may start in a state: the event it handles, and
the chain it leads to, newest block first. -/
inductive Attempt (base : ℕ × B256) (t : Tracked) : Event → Op → List CanonicalBlock → Prop
  /-- A block that extends the tip is committed. -/
  | commit {b : CanonicalBlock} {es : List PendingEntry}
      (hlink : Linked (tipOf base t.ledger.blocks) [b])
      (hwrites : ∀ key, Writes.lastWrite (es.map PendingEntry.write) key =
        Writes.lastWrite (blockWrites [b]) key) :
      Attempt base t (.commit [b] es) (.commit b.block.number b.block.hash es)
        (b :: t.ledger.blocks)
  /-- The newest blocks are reverted. -/
  | revert {old : Chain}
      (hold : (t.ledger.blocks.take old.blocks.length).map CanonicalBlock.block =
        old.blocks.reverse) :
      Attempt base t (.revert old) (.revert old) (t.ledger.blocks.drop old.blocks.length)

/-- What an operation writes: NOMT is at the newest block of the chain it leads to
from the first write on, and the head it saves is that of this block. -/
structure Leads (U : Ubt) (base : ℕ × B256) (σ₀ : TreeKey → B256) (db : UbtDatabase)
    (bs : List CanonicalBlock) (w : DurableWrite) : Prop where
  shape : ∃ nomt stems', Checkpoint U nomt db.stems stems' db.head (tipOf base bs).1
    (tipOf base bs).2 w ∧ nomt.current.headBlock = (tipOf base bs).1 ∧
      ∀ db' : UbtDatabase, db'.stems = stems' → db'.value = stateAfter σ₀ bs
  /-- The block of the old head is one of the chain, if it is not above the newest. -/
  old : headNumber db ≤ (tipOf base bs).1 → AtBlock base σ₀ bs db

/-- The invariant does not depend on the journal. -/
theorem Anchored.forgetJournal {t : Tracked} (hc : Anchored U base σ₀ t) :
    Anchored U base σ₀ ⟨⟨t.machine.exex, []⟩, t.ledger, t.highest⟩ :=
  ⟨⟨⟨⟨hc.pending, hc.linked, hc.tip, hc.nonempty⟩, hc.logical, hc.undoable⟩, hc.nomt⟩,
    hc.single, hc.persisted, hc.saved, hc.root⟩

theorem Anchored.leads_commit {t : Tracked} {b : CanonicalBlock} {es : List PendingEntry}
    {w : DurableWrite} (hc : Anchored U base σ₀ t)
    (hwrites : ∀ key, Writes.lastWrite (es.map PendingEntry.write) key =
      Writes.lastWrite (blockWrites [b]) key)
    (hw : w ∈ writesOf ((Op.commit b.block.number b.block.hash es).run U) t.machine.exex) :
    Leads U base σ₀ t.machine.exex.db (b :: t.ledger.blocks) w := by
  -- the commit is that of the pushed entries, over an empty journal
  let m₀ : Machine := ⟨t.machine.exex, []⟩
  have hj := commit_journal U b.block.number b.block.hash (m₀.push es)
  have hpoint := mem_writesOf (x := (Op.commit b.block.number b.block.hash es).run U)
    (by rw [Op.state_commit]; exact hj) w hw
  have hpushed : (m₀.push es).exex.pendingWrites = es.map PendingEntry.write :=
    pendingWrites_push (m := m₀) hc.pending es
  have hlogical : (m₀.push es).exex.logical = stateAfter σ₀ t.ledger.blocks := hc.logical
  refine ⟨⟨_, _, hpoint, NomtMap.headBlock_update _ _ _, fun db' hdb' => ?_⟩,
    fun _ => hc.saved.cons b⟩
  rw [value_recordedStems hdb', hpushed, hlogical, Writes.applyAll_congr hwrites,
    ← stateAfter_append]
  rfl

theorem Anchored.leads_revert {t : Tracked} {old : Chain} {w : DurableWrite}
    (hc : Anchored U base σ₀ t)
    (hold : (t.ledger.blocks.take old.blocks.length).map CanonicalBlock.block =
      old.blocks.reverse)
    (hrow : RowsFound t (.revert old)) (hlog : LogReaches t (.revert old))
    (hw : w ∈ writesOf (revert U old) t.machine.exex) :
    Leads U base σ₀ t.machine.exex.db (t.ledger.blocks.drop old.blocks.length) w := by
  obtain ⟨m', hrun, hr⟩ := revert_spec U old ⟨t.machine.exex, []⟩
  obtain ⟨stems', hvalue, hj⟩ := hr.journal
  have hpoint := mem_writesOf (x := revert U old) (by rw [hrun]; exact hj) w hw
  have htip := tip_dropped hc.linked hold
  -- after the revert NOMT and the state are those of the remaining blocks
  have hstep : ChainStep U base ⟨⟨t.machine.exex, []⟩, t.ledger, t.highest⟩ (.revert old)
      ⟨m', t.ledger.dropBlocks old.blocks.length, t.highest⟩ := .revert hold hrun
  have hunit := hc.forgetJournal.eventUnit (e := .revert old) hrow
  have hafter := hc.forgetJournal.toShown.step hunit hlog hstep
  have hlogical : m'.exex.logical = stateAfter σ₀ (t.ledger.blocks.drop old.blocks.length) := by
    rw [← t.ledger.blocks_dropBlocks]
    exact hafter.logical
  have hhead : m'.exex.nomt.current.headBlock = m'.exex.lastBlock := hafter.nomtSynced.headBlock
  rw [hr.nomt, hr.lastBlock] at hhead
  refine ⟨⟨_, stems', ?_, hhead.trans (congrArg Prod.fst htip).symm, fun db' hdb' => ?_⟩,
    fun hle => hc.saved.drop hc.linked hle⟩
  · rw [htip]
    exact hpoint
  · rw [hvalue db' hdb', hlogical]

/-- **The writes of an operation lead to the chain it is meant to lead to.** -/
theorem Anchored.leads {t : Tracked} {e : Event} {op : Op} {bs : List CanonicalBlock}
    {w : DurableWrite} (hc : Anchored U base σ₀ t) (hop : Attempt base t e op bs)
    (hrow : RowsFound t e) (hlog : LogReaches t e) (hw : w ∈ writesOf (op.run U) t.machine.exex) :
    Leads U base σ₀ t.machine.exex.db bs w := by
  cases hop with
  | commit hlink hwrites => exact hc.leads_commit hwrites hw
  | revert hold => exact hc.leads_revert hold hrow hlog hw

/-- What an attempt needs of NOMT's log is there. -/
theorem Attempt.logReaches {t : Tracked} {e : Event} {op : Op} {bs : List CanonicalBlock}
    (hop : Attempt base t e op bs) (hc : Anchored U base σ₀ t) (hall : Unforgotten limit t)
    (hlog : LogHolds limit t e) : LogReaches t e := by
  cases hop with
  | commit hlink hwrites => trivial
  | @revert old hold =>
    have hstep : ChainStep U base ⟨t.machine, t.ledger, t.highest⟩ (.revert old) _ :=
      .revert hold (revert_eq_ok U old t.machine)
    exact hlog.reaches hall hc.touched hstep

/-- **MDBX is at a block of the chain after a crash**, unless NOMT is behind it. -/
theorem Leads.atBlock {db : UbtDatabase} {bs : List CanonicalBlock} {w : DurableWrite}
    (hl : Leads U base σ₀ db bs w) (hroot : RootOk U db) (hroot' : RootOk U w.after.db)
    (hcollision : computeRoot U w.after.db = computeRoot U w.before.db →
      w.after.db.iterEntriesSorted = w.before.db.iterEntriesSorted)
    (hhead : w.after.db.loadHead ≠ none)
    (hbehind : headNumber w.after.db ≤ w.after.nomt.current.headBlock) :
    AtBlock base σ₀ bs w.after.db := by
  obtain ⟨⟨nomt, stems', hpoint, hnomt, hvalue⟩, hold⟩ := hl
  cases hpoint with
  | quiet hstep hafter =>
    rw [hafter.nomt, hnomt, headNumber_congr hafter.head] at hbehind
    exact (hold hbehind).congr (UbtDatabase.value_of_stems hafter.stems) hafter.head
  | stems hstep hbefore hafter =>
    rw [hafter.nomt, hnomt, headNumber_congr hafter.head] at hbehind
    -- the old head is accepted over the new stems, so they hold the old values
    obtain ⟨hd, hhd⟩ := Option.ne_none_iff_exists'.mp hhead
    have hroots : computeRoot U w.after.db = computeRoot U w.before.db := by
      rw [← hroot' hd hhd, computeRoot_congr U hbefore.stems]
      exact hroot hd (hafter.head.symm.trans hhd)
    have hsame : w.after.db.value = w.before.db.value :=
      funext (UbtDatabase.value_congr (hcollision hroots))
    refine (hold hbehind).congr ?_ hafter.head
    rw [hsame]
    exact UbtDatabase.value_of_stems hbefore.stems
  | head hstep hd hafter hn hh hrootd =>
    refine AtBlock.of_head hafter.head ?_ (hvalue _ hafter.stems)
    rw [hn, hh]

/-! ### Commits from there on -/

/-- Commit a block; what it records is the row that then stands under its number in the
delta table, and the root that it returns. -/
def commitRecorded (U : Ubt) (c : BlockCommit) : ExM (List Delta × B256) := do
  let root ← commitBlock U c
  return ((← get).exex.db.loadBlockDeltas c.number, root)

/-- Commit blocks one after the other, with what each of them records. -/
def commitRecords (U : Ubt) : List BlockCommit → ExM (List (List Delta × B256))
  | [] => return []
  | c :: cs => do
    let r ← commitRecorded U c
    let rs ← commitRecords U cs
    return r :: rs

/-- No row is left under the number of a block that changes no value, when the blocks
are committed in the state `σ`. -/
def NoRowLeft (db : UbtDatabase) : (TreeKey → B256) → List BlockCommit → Prop
  | _, [] => True
  | σ, c :: cs => (undoDeltas σ c.writes = [] → db.loadBlockDeltas c.number = []) ∧
      NoRowLeft db (Writes.applyAll σ c.writes) cs

/-- It is enough that there is no row under any of the numbers. -/
theorem NoRowLeft.of_empty {db : UbtDatabase} {cs : List BlockCommit}
    (h : ∀ c ∈ cs, db.loadBlockDeltas c.number = []) (σ : TreeKey → B256) :
    NoRowLeft db σ cs := by
  induction cs generalizing σ with
  | nil => trivial
  | cons c cs ih =>
    obtain ⟨hc, hcs⟩ := List.forall_mem_cons.mp h
    exact ⟨fun _ => hc, ih hcs _⟩

/-- A row that is pruned is not left. -/
theorem NoRowLeft.of_pruned {db db' : UbtDatabase} {σ : TreeKey → B256} {cs : List BlockCommit}
    (h : NoRowLeft db σ cs)
    (hrows : ∀ c ∈ cs, db'.loadBlockDeltas c.number = [] ∨
      db'.loadBlockDeltas c.number = db.loadBlockDeltas c.number) : NoRowLeft db' σ cs := by
  induction cs generalizing σ with
  | nil => trivial
  | cons c cs ih =>
    obtain ⟨hc, hcs⟩ := h
    obtain ⟨hrow, hrest⟩ := List.forall_mem_cons.mp hrows
    refine ⟨fun hnil => ?_, ih hcs hrest⟩
    rcases hrow with hpruned | hsame
    · exact hpruned
    · rw [hsame, hc hnil]

/-- Two extensions with the same state and the same flush schedule. -/
structure SameState (s s' : UbtExEx) : Prop where
  logical : s.logical = s'.logical
  lastPersistedBlock : s.lastPersistedBlock = s'.lastPersistedBlock
  lastRoot : s.lastRoot = s'.lastRoot
  flushInterval : s.flushInterval = s'.flushInterval
  deltaRetention : s.deltaRetention = s'.deltaRetention

theorem SameState.shouldFlush {s s' : UbtExEx} (h : SameState s s') (n : ℕ) :
    s.shouldFlush n = s'.shouldFlush n := by
  unfold UbtExEx.shouldFlush
  rw [h.lastPersistedBlock, h.flushInterval]

theorem commitRecorded_eq_ok {c : BlockCommit} {m m' : Machine} {r : List Delta × B256}
    (h : commitRecorded U c m = .ok r m') :
    commitBlock U c m = .ok r.2 m' ∧ r.1 = m'.exex.db.loadBlockDeltas c.number := by
  unfold commitRecorded at h
  rw [EStateM.bind_eq_ok] at h
  obtain ⟨root, m₁, hrun, hpure⟩ := h
  rw [get_bind_apply] at hpure
  cases hpure
  exact ⟨hrun, rfl⟩

/-- The undo log of a commit is that of its writes. -/
theorem pendingUndo_withEntries (m : Machine) (c : BlockCommit) :
    (m.withEntries c.entries).exex.pendingUndo = undoDeltas m.exex.logical c.writes := rfl

/-- **One commit from equal states** leads to equal states and returns the same root. -/
theorem SameState.commit {c : BlockCommit} {m m' n n' : Machine} {root root' : B256}
    (h : SameState m.exex n.exex) (hm : commitBlock U c m = .ok root m')
    (hn : commitBlock U c n = .ok root' n') : root = root' ∧ SameState m'.exex n'.exex := by
  have hcm := commitBlock_ok U hm
  have hcn := commitBlock_ok U hn
  have hlogical : m'.exex.logical = n'.exex.logical := by
    rw [logical_commitBlock hm, logical_commitBlock hn, h.logical]
  have hinterval : m'.exex.flushInterval = n'.exex.flushInterval :=
    hcm.flushInterval.trans (h.flushInterval.trans hcn.flushInterval.symm)
  have hretention : m'.exex.deltaRetention = n'.exex.deltaRetention :=
    hcm.deltaRetention.trans (h.deltaRetention.trans hcn.deltaRetention.symm)
  have hflag := h.shouldFlush c.number
  cases hf : n.exex.shouldFlush c.number with
  | true =>
    obtain ⟨hdirty, hpers, -, hlast, hroot, -⟩ := hcm.flushed (hflag.trans hf)
    obtain ⟨hdirty', hpers', -, hlast', hroot', -⟩ := hcn.flushed hf
    -- both roots are those of the flushed state
    have hvalue : m'.exex.db.value = n'.exex.db.value := by
      rw [← logical_of_clean hdirty, ← logical_of_clean hdirty', hlogical]
    have hroots : root = root' := by rw [hroot, hroot', computeRoot_of_value hvalue]
    exact ⟨hroots, hlogical, hpers.trans hpers'.symm, by rw [hlast, hlast', hroots], hinterval,
      hretention⟩
  | false =>
    obtain ⟨hpers, -, hlast, hroot, -⟩ := hcm.kept (hflag.trans hf)
    obtain ⟨hpers', -, hlast', hroot', -⟩ := hcn.kept hf
    have hroots : root = root' := hroot.trans (h.lastRoot.trans hroot'.symm)
    refine ⟨hroots, hlogical, ?_, ?_, hinterval, hretention⟩
    · exact hpers.trans (h.lastPersistedBlock.trans hpers'.symm)
    · exact hlast.trans (h.lastRoot.trans hlast'.symm)

/-- A commit keeps or prunes the rows of the other blocks. -/
theorem loadBlockDeltas_commitBlock {c : BlockCommit} {m m' : Machine} {root : B256}
    (h : commitBlock U c m = .ok root m') {k : ℕ} (hk : c.number ≠ k) :
    m'.exex.db.loadBlockDeltas k = [] ∨
      m'.exex.db.loadBlockDeltas k = m.exex.db.loadBlockDeltas k := by
  rw [(commitBlock_ok U h).rows]
  split
  · exact .inl rfl
  · rw [if_neg fun hthis => hk hthis.1]
    exact .inr rfl

/-- **Commits from equal states do the same to the delta table**: rows that agree go on
agreeing, and so do those of the commit itself if the rows agree that it finds there or
it changes a value. -/
theorem SameState.row {c : BlockCommit} {m m' n n' : Machine} {root root' : B256}
    (h : SameState m.exex n.exex) (hm : commitBlock U c m = .ok root m')
    (hn : commitBlock U c n = .ok root' n') {k : ℕ}
    (hk : m.exex.db.loadBlockDeltas k = n.exex.db.loadBlockDeltas k ∨
      c.number = k ∧ undoDeltas m.exex.logical c.writes ≠ []) :
    m'.exex.db.loadBlockDeltas k = n'.exex.db.loadBlockDeltas k := by
  have hundo : (n.withEntries c.entries).exex.pendingUndo =
      (m.withEntries c.entries).exex.pendingUndo := by
    rw [pendingUndo_withEntries, pendingUndo_withEntries, h.logical]
  have hflag : (n.withEntries c.entries).exex.shouldFlush c.number =
      (m.withEntries c.entries).exex.shouldFlush c.number := (h.shouldFlush c.number).symm
  have hretention : (n.withEntries c.entries).exex.deltaRetention =
      (m.withEntries c.entries).exex.deltaRetention := h.deltaRetention.symm
  rw [(commitBlock_ok U hm).rows, (commitBlock_ok U hn).rows, hundo, hflag, hretention]
  split
  · rfl
  · split
    · rfl
    · next hnot =>
      rcases hk with hk | hk
      · exact hk
      · exact absurd hk hnot

/-- **Commits from equal states record the same rows and the same roots**, and leave the
same rows under their numbers, if no row was left there that they do not replace. -/
theorem commitRecords_eq {cs : List BlockCommit} {m m' n n' : Machine}
    {rs rs' : List (List Delta × B256)} (h : SameState m.exex n.exex)
    (hnodup : (cs.map BlockCommit.number).Nodup) (hleft : NoRowLeft m.exex.db m.exex.logical cs)
    (hnone : ∀ c ∈ cs, n.exex.db.loadBlockDeltas c.number = [])
    (hm : commitRecords U cs m = .ok rs m') (hn : commitRecords U cs n = .ok rs' n') :
    rs = rs' ∧ ∀ k, m.exex.db.loadBlockDeltas k = n.exex.db.loadBlockDeltas k ∨
        k ∈ cs.map BlockCommit.number →
      m'.exex.db.loadBlockDeltas k = n'.exex.db.loadBlockDeltas k := by
  induction cs generalizing m n rs rs' with
  | nil =>
    cases hm
    cases hn
    exact ⟨rfl, fun k hk => hk.resolve_right List.not_mem_nil⟩
  | cons c cs ih =>
    unfold commitRecords at hm hn
    simp only [EStateM.bind_eq_ok] at hm hn
    obtain ⟨⟨row, root⟩, m₁, hm₁, qs, m₂, hm₂, hmp⟩ := hm
    obtain ⟨⟨row', root'⟩, n₁, hn₁, qs', n₂, hn₂, hnp⟩ := hn
    cases hmp
    cases hnp
    obtain ⟨hmc, hrow⟩ := commitRecorded_eq_ok hm₁
    obtain ⟨hnc, hrow'⟩ := commitRecorded_eq_ok hn₁
    obtain ⟨hc, hcs⟩ := List.nodup_cons.mp hnodup
    obtain ⟨hleftc, hleft⟩ := hleft
    obtain ⟨hnonec, hnone⟩ := List.forall_mem_cons.mp hnone
    obtain ⟨hroots, h₁⟩ := h.commit hmc hnc
    -- the rows of this commit agree, whether it replaces them or finds none
    have hsame : m₁.exex.db.loadBlockDeltas c.number = n₁.exex.db.loadBlockDeltas c.number := by
      refine h.row hmc hnc ?_
      by_cases hnil : undoDeltas m.exex.logical c.writes = []
      · exact .inl ((hleftc hnil).trans hnonec.symm)
      · exact .inr ⟨rfl, hnil⟩
    have hother : ∀ c' ∈ cs, c.number ≠ c'.number := by
      intro c' hc' heq
      exact hc (heq ▸ List.mem_map_of_mem hc')
    have hleft₁ : NoRowLeft m₁.exex.db m₁.exex.logical cs := by
      rw [logical_commitBlock hmc]
      exact hleft.of_pruned fun c' hc' => loadBlockDeltas_commitBlock hmc (hother c' hc')
    have hnone₁ : ∀ c' ∈ cs, n₁.exex.db.loadBlockDeltas c'.number = [] := by
      intro c' hc'
      rcases loadBlockDeltas_commitBlock hnc (hother c' hc') with hpruned | hkept
      · exact hpruned
      · rw [hkept, hnone c' hc']
    obtain ⟨rfl, hrows⟩ := ih h₁ hcs hleft₁ hnone₁ hm₂ hn₂
    dsimp only at hroots hrow hrow'
    refine ⟨by rw [hroots, hrow, hrow', hsame], fun k hk => hrows k ?_⟩
    rw [List.map_cons, List.mem_cons] at hk
    rcases hk with hk | rfl | hk
    · exact .inl (h.row hmc hnc (.inl hk))
    · exact .inl hsame
    · exact .inr hk

/-- An extension whose last flush was that of block `n`, in the state `σ`, with no delta row
above that block. -/
structure FlushedAt (U : Ubt) (n : ℕ) (σ : TreeKey → B256) (s : UbtExEx) : Prop where
  logical : s.logical = σ
  value : s.db.value = σ
  lastPersistedBlock : s.lastPersistedBlock = n
  lastRoot : s.lastRoot = computeRoot U s.db
  rows : ∀ k, n < k → s.db.loadBlockDeltas k = []

/-- Every commit that flushes leaves the extension so, if it found no row above its
block. -/
theorem Committed.flushedAt {n : ℕ} {hash : B256} {m m' : Machine} {root : B256}
    (hc : Committed U n hash m m' root) (hflush : m.exex.shouldFlush n = true)
    (hrows : ∀ k, n < k → m.exex.db.loadBlockDeltas k = []) :
    FlushedAt U n m'.exex.logical m'.exex := by
  obtain ⟨hdirty, hpers, -, hlast, hroot, -⟩ := hc.flushed hflush
  refine ⟨rfl, ?_, hpers, hlast.trans hroot, fun k hk => ?_⟩
  · rw [logical_of_clean hdirty]
  · rw [hc.rows, if_neg fun h => by omega, if_neg fun h => by omega, hrows k hk]

/-- A startup over stores at a block is in the state of an extension that flushed it. -/
theorem FlushedAt.sameState {config : UbtConfig} {d : Disk} {n : ℕ} {σ : TreeKey → B256}
    {s u : UbtExEx} (hu : FlushedAt U n σ u) (hr : Restored config d s) (hroot : RootOk U d.db)
    (hhead : d.db.loadHead ≠ none) (hvalue : d.db.value = σ) (hpers : s.lastPersistedBlock = n)
    (hinterval : u.flushInterval = s.flushInterval)
    (hretention : u.deltaRetention = s.deltaRetention) : SameState s u := by
  obtain ⟨hd, hhd⟩ := Option.ne_none_iff_exists'.mp hhead
  have hstored : d.db.value = u.db.value := hvalue.trans hu.value.symm
  refine ⟨?_, hpers.trans hu.lastPersistedBlock.symm, ?_, hinterval.symm, hretention.symm⟩
  · exact (hr.logical.trans hvalue).trans hu.logical.symm
  · rw [hr.lastRoot hd hhd, hroot hd hhd, hu.lastRoot, computeRoot_of_value hstored]

/-- **The resume point after a crash.**  The run starts from stores in sync; it commits
single blocks and reverts, every revert finding its rows and going back no further than
NOMT's log, which has any limit; the crash comes after any durable write of the next
operation.  If the next startup succeeds, `get_head` names a block, and NOMT is not behind
MDBX, then the block is one of the chain that the operation leads to, and MDBX holds the
state after it.  Commits of the blocks above it store the same delta rows and return the
same roots as from an extension that flushed that block and went on, if the crash left no
row under a block that changes no value. -/
theorem resume_point {limit : Option ℕ} {config config' : UbtConfig} {disk : Disk}
    {s s' : UbtExEx} {h : List (Tracked × Event)} {t : Tracked} {e : Event} {op : Op}
    {bs : List CanonicalBlock} {w : DurableWrite} {n : ℕ} {hash : B256}
    (hnew : UbtExEx.new U config disk = .ok s) (hsync : InSync disk)
    (hrun : Run (LoggedStep U limit (headTip disk.db)) (.start ⟨s, []⟩) h t)
    (hkept : ∀ p ∈ h, RowsFound p.1 p.2 ∧ LogHolds limit p.1 p.2)
    (hop : Attempt (headTip disk.db) t e op bs) (hrow : RowsFound t e)
    (hlog : LogHolds limit t e) (hw : w ∈ writesOf (op.run U) t.machine.exex)
    (hcollision : computeRoot U w.after.db = computeRoot U w.before.db →
      w.after.db.iterEntriesSorted = w.before.db.iterEntriesSorted)
    (hnext : UbtExEx.new U config' (w.after.limitLog limit) = .ok s')
    (hget : s'.getHead = some (n, hash))
    (hbehind : headNumber w.after.db ≤ w.after.nomt.current.headBlock) :
    ∃ k, (n, hash) = tipOf (headTip disk.db) (bs.drop k) ∧
      s'.db.value = stateAfter disk.db.value (bs.drop k) ∧
      ∀ u, FlushedAt U n (stateAfter disk.db.value (bs.drop k)) u.exex →
        u.exex.flushInterval = s'.flushInterval → u.exex.deltaRetention = s'.deltaRetention →
        ∀ cs : List BlockCommit, (cs.map BlockCommit.number).Nodup → (∀ c ∈ cs, n < c.number) →
          NoRowLeft w.after.db (stateAfter disk.db.value (bs.drop k)) cs →
          ∀ rs rs' m m', commitRecords U cs ⟨s', []⟩ = .ok rs m →
            commitRecords U cs u = .ok rs' m' →
            rs = rs' ∧ ∀ c ∈ cs,
              m.exex.db.loadBlockDeltas c.number = m'.exex.db.loadBlockDeltas c.number := by
  obtain ⟨hc, hall⟩ := (Anchored.start hnew hsync).run (.start limit ⟨s, []⟩) hrun hkept
  have hr := restored_of_new hnext
  have hdb : s'.db = w.after.db := hr.db
  have hroot' : RootOk U w.after.db := ((new_eq_ok_iff U).mp hnext).1
  have hlp : s'.lastPersistedBlock = headNumber w.after.db := by
    have hpers : s'.lastPersistedBlock = min (headNumber w.after.db)
        (w.after.nomt.limitTo limit).current.headBlock := hr.lastPersistedBlock
    rw [hpers, Versioned.current_limitTo, Nat.min_eq_left hbehind]
  -- the head that is resumed from is a stored one
  have htip : (n, hash) = headTip w.after.db ∧ headNumber w.after.db ≠ 0 := by
    unfold UbtExEx.getHead at hget
    rw [hlp, hr.lastPersistedHash] at hget
    split at hget
    · cases hget
    · next hne => exact ⟨(Option.some.inj hget).symm, hne⟩
  obtain ⟨htip, hne⟩ := htip
  have hhead : w.after.db.loadHead ≠ none := by
    intro hnone
    refine hne ?_
    unfold headNumber
    rw [hnone]
    rfl
  have hleads := hc.leads hop hrow (hop.logReaches hc hall hlog) hw
  have hat := hleads.atBlock hc.root hroot' hcollision hhead hbehind
  obtain ⟨k, hk, hstate⟩ := hat
  refine ⟨k, htip.trans hk, by rw [hdb, hstate], ?_⟩
  intro u hu hinterval hretention cs hnodup habove hleft rs rs' m m' hm hm'
  have hpers : s'.lastPersistedBlock = n := hlp.trans (congrArg Prod.fst htip).symm
  have hsame : SameState s' u.exex :=
    hu.sameState hr hroot' hhead hstate hpers hinterval hretention
  have hlogical : s'.logical = stateAfter disk.db.value (bs.drop k) := hr.logical.trans hstate
  have hleft' : NoRowLeft s'.db s'.logical cs := by
    rw [hdb, hlogical]
    exact hleft
  have hnone : ∀ c ∈ cs, u.exex.db.loadBlockDeltas c.number = [] :=
    fun c hc => hu.rows _ (habove c hc)
  obtain ⟨hrecords, hrows'⟩ :=
    commitRecords_eq (m := ⟨s', []⟩) hsame hnodup hleft' hnone hm hm'
  exact ⟨hrecords, fun c hc => hrows' _ (.inr (List.mem_map_of_mem hc))⟩

/-! ### A revert interrupted after the rollback of NOMT -/

/-- After a child of `block1` sets slot 1 again, and is flushed as well. -/
def secondCommitted : Tracked where
  machine := (commitEntries sampleUbt 2 12 [slotEntry 2] staleCommitted.machine).state
  ledger := ⟨[⟨block2, [(slotKey 7 1, 2)]⟩],
    (staleCommitted.machine.push [slotEntry 2]).exex.pendingUndo⟩ :: staleCommitted.ledger
  highest := 2

theorem secondCommitted_step :
    SingleStep sampleUbt (0, 0) staleCommitted
      (.commit [⟨block2, [(slotKey 7 1, 2)]⟩] [slotEntry 2]) secondCommitted := by
  have hok : (commitEntries sampleUbt 2 12 [slotEntry 2] staleCommitted.machine).isOk = true := by
    decide +kernel
  obtain ⟨root, hrun⟩ := EStateM.Result.exists_ok hok
  exact ⟨rfl, .commit ⟨rfl, rfl, trivial⟩ (fun _ => rfl) hrun⟩

/-- The first durable write of the second commit. -/
def secondCommitWrite : DurableWrite :=
  (writesOf ((Op.commit 2 12 [slotEntry 2]).run sampleUbt) staleCommitted.machine.exex).get
    ⟨5, by decide +kernel⟩

/-- After the first commit nothing is stored above its block. -/
theorem staleCommitted_flushedAt :
    FlushedAt sampleUbt 1 (stateAfter Disk.empty.db.value [⟨block1, [(slotKey 7 1, 1)]⟩])
      staleCommitted.machine.exex := by
  have hc := (Anchored.start (UbtExEx.new_empty sampleUbt ⟨1, 10⟩) inSync_empty).step
    (e := .commit [⟨block1, [(slotKey 7 1, 1)]⟩] [slotEntry 1]) trivial trivial staleCommitted_step
  have hok : (commitEntries sampleUbt 1 11 [slotEntry 1] (.fresh ⟨1, 10⟩)).isOk = true := by
    decide +kernel
  obtain ⟨root, hrun⟩ := EStateM.Result.exists_ok hok
  have hflushed := (commit_ok sampleUbt hrun).flushedAt (by decide) fun k _ => rfl
  have hlogical : staleCommitted.machine.exex.logical =
      stateAfter Disk.empty.db.value [⟨block1, [(slotKey 7 1, 1)]⟩] := hc.logical
  rw [← hlogical]
  exact hflushed

/-- The first commit fits into every log. -/
theorem staleCommitted_logged {l : ℕ} (hl : 1 ≤ l) : LoggedStep sampleUbt (some l) (0, 0)
    (.start (.fresh ⟨1, 10⟩)) (.commit [⟨block1, [(slotKey 7 1, 1)]⟩] [slotEntry 1])
    staleCommitted := by
  refine .of_short staleCommitted_step fun l' h => ?_
  obtain rfl := Option.some.inj h
  have hlength : staleCommitted.machine.exex.nomt.past.length = 1 := by decide +kernel
  omega

/-- The resume point after a crash in the second of two commits is the first block, and
the second block and one that changes nothing record what they would without it. -/
theorem resume_point_second_commit : ∃ s',
    UbtExEx.new sampleUbt ⟨1, 10⟩ (secondCommitWrite.after.limitLog (some 100)) = .ok s' ∧
      s'.getHead = some (1, 11) ∧
      (∃ k, (1, 11) = tipOf (0, 0)
        ([⟨block2, [(slotKey 7 1, 2)]⟩, ⟨block1, [(slotKey 7 1, 1)]⟩].drop k)) ∧
      ∀ rs rs' m m',
        commitRecords sampleUbt [⟨2, 12, [slotEntry 2]⟩, ⟨3, 13, []⟩] ⟨s', []⟩ = .ok rs m →
        commitRecords sampleUbt [⟨2, 12, [slotEntry 2]⟩, ⟨3, 13, []⟩] staleCommitted.machine =
          .ok rs' m' → rs = rs' := by
  have hstart : ∃ s',
      UbtExEx.new sampleUbt ⟨1, 10⟩ (secondCommitWrite.after.limitLog (some 100)) = .ok s' :=
    (new_ok_iff sampleUbt).mpr (by decide +kernel)
  obtain ⟨s', hnext⟩ := hstart
  have hr := restored_of_new hnext
  have hget : s'.getHead = some (1, 11) := by
    unfold UbtExEx.getHead
    rw [hr.lastPersistedBlock, hr.lastPersistedHash]
    decide +kernel
  have hop : Attempt (0, 0) staleCommitted (.commit [⟨block2, [(slotKey 7 1, 2)]⟩] [slotEntry 2])
      (.commit 2 12 [slotEntry 2]) [⟨block2, [(slotKey 7 1, 2)]⟩, ⟨block1, [(slotKey 7 1, 1)]⟩] :=
    .commit ⟨rfl, rfl, trivial⟩ (fun _ => rfl)
  obtain ⟨k, hk, -, hrecords⟩ := resume_point (UbtExEx.new_empty sampleUbt ⟨1, 10⟩) inSync_empty
    (.snoc .nil (staleCommitted_logged (by decide)))
    (List.forall_mem_cons.mpr ⟨⟨trivial, fun _ => trivial⟩, by simp⟩) hop trivial (fun _ => trivial)
    (List.get_mem _ ⟨5, by decide +kernel⟩) (by decide +kernel) hnext hget (by decide +kernel)
  refine ⟨s', hnext, hget, ⟨k, hk⟩, fun rs rs' m m' hm hm' => ?_⟩
  -- the resume point is the first block, with one block above it
  have hdrop : [(⟨block2, [(slotKey 7 1, 2)]⟩ : CanonicalBlock), ⟨block1, [(slotKey 7 1, 1)]⟩].drop k =
      [⟨block1, [(slotKey 7 1, 1)]⟩] := by
    match k with
    | 0 => exact absurd hk (by decide)
    | 1 => rfl
    | k + 2 =>
      rw [List.drop_succ_cons, List.drop_succ_cons, List.drop_nil] at hk
      exact absurd hk (by decide)
  rw [hdrop] at hrecords
  have hleft : NoRowLeft secondCommitWrite.after.db
      (stateAfter Disk.empty.db.value [⟨block1, [(slotKey 7 1, 1)]⟩])
      [⟨2, 12, [slotEntry 2]⟩, ⟨3, 13, []⟩] := by
    refine .of_empty ?_ _
    decide +kernel
  exact (hrecords staleCommitted.machine staleCommitted_flushedAt hr.flushInterval.symm
    hr.deltaRetention.symm [⟨2, 12, [slotEntry 2]⟩, ⟨3, 13, []⟩] (by decide) (by decide) hleft
    rs rs' m m' hm hm').1

/-- The rollback of NOMT, by a revert of the second block. -/
def rollbackWrite : DurableWrite :=
  (writesOf ((Op.revert secondChain).run sampleUbt) secondCommitted.machine.exex).get
    ⟨2, by decide +kernel⟩

theorem secondCommitted_logged {l : ℕ} (hl : 2 ≤ l) : LoggedStep sampleUbt (some l) (0, 0)
    staleCommitted (.commit [⟨block2, [(slotKey 7 1, 2)]⟩] [slotEntry 2]) secondCommitted := by
  refine .of_short secondCommitted_step fun l' h => ?_
  obtain rfl := Option.some.inj h
  have hlength : secondCommitted.machine.exex.nomt.past.length = 2 := by decide +kernel
  omega

/-- **A revert that is interrupted after the rollback of NOMT leaves a resume point with
the hash of the reverted block**: NOMT is at block 1 and MDBX at block 2, and the
startup takes the number from the one and the hash from the other. -/
theorem resume_point_wrong_hash :
    ¬∀ (U : Ubt) (limit : Option ℕ) (config config' : UbtConfig) (disk : Disk) (s s' : UbtExEx)
      (h : List (Tracked × Event)) (t : Tracked) (e : Event) (op : Op) (bs : List CanonicalBlock)
      (w : DurableWrite) (n : ℕ) (hash : B256),
      UbtExEx.new U config disk = .ok s → InSync disk →
      Run (LoggedStep U limit (headTip disk.db)) (.start ⟨s, []⟩) h t →
      (∀ p ∈ h, RowsFound p.1 p.2 ∧ LogHolds limit p.1 p.2) →
      Attempt (headTip disk.db) t e op bs → RowsFound t e → LogHolds limit t e →
      w ∈ writesOf (op.run U) t.machine.exex →
      (computeRoot U w.after.db = computeRoot U w.before.db →
        w.after.db.iterEntriesSorted = w.before.db.iterEntriesSorted) →
      UbtExEx.new U config' (w.after.limitLog limit) = .ok s' → s'.getHead = some (n, hash) →
      ∃ k, (n, hash) = tipOf (headTip disk.db) (bs.drop k) ∧
        s'.db.value = stateAfter disk.db.value (bs.drop k) := by
  intro hall
  have hstart : ∃ s',
      UbtExEx.new sampleUbt ⟨1, 10⟩ (rollbackWrite.after.limitLog (some 100)) = .ok s' :=
    (new_ok_iff sampleUbt).mpr (by decide +kernel)
  obtain ⟨s', hnext⟩ := hstart
  have hr := restored_of_new hnext
  have hget : s'.getHead = some (1, 12) := by
    unfold UbtExEx.getHead
    rw [hr.lastPersistedBlock, hr.lastPersistedHash]
    decide +kernel
  have hrun : Run (LoggedStep sampleUbt (some 100) (0, 0)) (.start (.fresh ⟨1, 10⟩)) _
      secondCommitted :=
    .snoc (.snoc .nil (staleCommitted_logged (by decide))) (secondCommitted_logged (by decide))
  have hcommits : ∀ t bs es, RowsFound t (.commit bs es) ∧ LogHolds (some 100) t (.commit bs es) :=
    fun _ _ _ => ⟨trivial, fun _ => trivial⟩
  have hop : Attempt (0, 0) secondCommitted (.revert secondChain) (.revert secondChain)
      [⟨block1, [(slotKey 7 1, 1)]⟩] := .revert rfl
  have hrow : RowsFound secondCommitted (.revert secondChain) := by
    refine ⟨?_, fun b hb => ?_, trivial⟩
    · decide +kernel
    · cases hb
  have hlog : LogHolds (some 100) secondCommitted (.revert secondChain) := by
    intro _
    unfold LogReaches
    decide +kernel
  obtain ⟨k, hk, -⟩ := hall sampleUbt (some 100) ⟨1, 10⟩ ⟨1, 10⟩ .empty _ s' _ _ _ _ _ rollbackWrite
    1 12 (UbtExEx.new_empty sampleUbt ⟨1, 10⟩) inSync_empty hrun
    (List.forall_mem_cons.mpr ⟨hcommits _ _ _, List.forall_mem_cons.mpr ⟨hcommits _ _ _, by simp⟩⟩)
    hop hrow hlog (List.get_mem _ ⟨2, by decide +kernel⟩) (by decide +kernel) hnext hget
  -- the only blocks are the first one, with another hash, and the base
  cases k with
  | zero => exact absurd hk (by decide)
  | succ k =>
    rw [List.drop_succ_cons, List.drop_nil] at hk
    exact absurd hk (by decide)

end UbtExex
