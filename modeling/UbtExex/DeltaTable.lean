import UbtExex.Follow

/-!
# The delta table

Whether the row of a canonical block is the undo log of its own commit, in runs that
commit one block at a time.  A revert leaves the rows of blocks that were persisted
in the table, and a commit that changes no value writes no row, so a row of a
discarded block can be taken for that of its successor.  This is the only way the
table goes wrong.

## Main definitions

* `SingleStep` — a commit of one block, or a revert.
* `RowsExact` — the retained rows of the canonical blocks are their undo logs.
* `NoStaleRow` — the condition on a commit, before it is made.

## Main results

* `rowsExact_step` — one step keeps the rows exact if and only if it meets the condition.
* `delta_table_exact_iff` — **the table is exact all along a run if and only if every
  commit meets the condition.**
* `delta_table_stale_row` — a run that leaves a row of a discarded block.
-/

open Std

namespace UbtExex

/-- An event that commits one block, or reverts. -/
def Event.Single : Event → Prop
  | .commit bs _ => bs.length = 1
  | .revert _ => True

/-- A commit of one block, or a revert. -/
def SingleStep (U : Ubt) (base : ℕ × B256) (t : Tracked) (e : Event) (t' : Tracked) : Prop :=
  e.Single ∧ ChainStep U base t e t'

/-- The row of each canonical block that is not older than the retention window of
the greatest flushed block is the undo log that its commit found. -/
def RowsExact (t : Tracked) : Prop :=
  ∀ c ∈ t.ledger, ∀ b ∈ c.blocks,
    t.highest ≤ b.block.number + t.machine.exex.deltaRetention →
      t.machine.exex.db.loadBlockDeltas b.block.number = c.undo

/-- A commit that changes no value finds no row under its block number. -/
def NoStaleRow (t : Tracked) : Event → Prop
  | .commit (b :: _) es =>
    (t.machine.push es).exex.pendingUndo = [] →
      t.highest ≤ b.block.number + t.machine.exex.deltaRetention →
        t.machine.exex.db.loadBlockDeltas b.block.number = []
  | _ => True

/-- The rows are exact, every commit has one block, and the machine is at the tip. -/
structure Tabled (base : ℕ × B256) (t : Tracked) : Prop extends Following base t where
  single : ∀ c ∈ t.ledger, c.blocks.length = 1
  exact : RowsExact t

variable {U : Ubt} {base : ℕ × B256}

/-- Dropping blocks from commits of one block drops commits. -/
theorem Ledger.mem_of_mem_dropBlocks {L : Ledger} {k : ℕ} (h : ∀ c ∈ L, c.blocks.length = 1) :
    ∀ c ∈ L.dropBlocks k, c ∈ L := by
  induction L generalizing k with
  | nil => intro c hc; exact hc
  | cons c L ih =>
    obtain ⟨hc, hL⟩ := List.forall_mem_cons.mp h
    unfold Ledger.dropBlocks
    split
    · intro c' hc'; exact hc'
    · next hk =>
      rw [if_neg (by omega)]
      intro c' hc'
      exact List.mem_cons_of_mem _ (ih hL c' hc')

/-- A commit keeps the row of an older canonical block that the window still covers. -/
theorem row_stays_commit {m m' : Machine} {L : Ledger} {hi : ℕ} {b : CanonicalBlock}
    {es : List PendingEntry} {root : B256} (hl : Linked base L.blocks)
    (hlink : Linked (tipOf base L.blocks) [b])
    (hrun : commitEntries U b.block.number b.block.hash es m = .ok root m')
    {c : LedgerEntry} (hc : c ∈ L) {b' : CanonicalBlock} (hb' : b' ∈ c.blocks)
    (hwin : (if m.exex.shouldFlush b.block.number then max hi b.block.number else hi) ≤
      b'.block.number + m.exex.deltaRetention) :
    hi ≤ b'.block.number + m.exex.deltaRetention ∧
      m'.exex.db.loadBlockDeltas b'.block.number = m.exex.db.loadBlockDeltas b'.block.number := by
  have hmem : b' ∈ L.blocks := List.mem_flatMap.mpr ⟨c, hc, hb'⟩
  have hlt : b'.block.number < b.block.number := by
    have := (hl.base_lt hmem).2
    have := hlink.1
    simp only [tipOf] at *
    omega
  refine ⟨?_, ?_⟩
  · split at hwin <;> omega
  · rw [(commit_ok U hrun).rows, if_neg, if_neg (fun h => by omega)]
    · rfl
    · rintro ⟨hf, hprune⟩
      have hf' : m.exex.shouldFlush b.block.number = true := hf
      have hprune' : b'.block.number < b.block.number - m.exex.deltaRetention := hprune
      rw [if_pos hf'] at hwin
      omega

/-- A revert keeps the row of a block that stays canonical. -/
theorem row_stays_revert {m m' : Machine} {L : Ledger} {old : Chain}
    (hl : Linked base L.blocks)
    (hold : (L.blocks.take old.blocks.length).map CanonicalBlock.block = old.blocks.reverse)
    (hrun : revert U old m = .ok () m') {c : LedgerEntry}
    (hc : c ∈ L.dropBlocks old.blocks.length) {b : CanonicalBlock} (hb : b ∈ c.blocks) :
    m'.exex.db.loadBlockDeltas b.block.number = m.exex.db.loadBlockDeltas b.block.number := by
  have hkept : b ∈ L.blocks.drop old.blocks.length := by
    rw [← L.blocks_dropBlocks]
    exact List.mem_flatMap.mpr ⟨c, hc, hb⟩
  have hnot := not_mem_reverted hl hold hkept
  rw [(revert_ok U hrun).rows, if_neg fun h => hnot h.1]

/-- The rows of a commit: what it writes, what it prunes and what it leaves. -/
theorem rowsExact_commit {m m' : Machine} {L : Ledger} {hi : ℕ} {b : CanonicalBlock}
    {es : List PendingEntry} {root : B256} (ht : Tabled base ⟨m, L, hi⟩)
    (hlink : Linked (tipOf base L.blocks) [b])
    (hrun : commitEntries U b.block.number b.block.hash es m = .ok root m') :
    RowsExact ⟨m', ⟨[b], (m.push es).exex.pendingUndo⟩ :: L,
        if m.exex.shouldFlush b.block.number then max hi b.block.number else hi⟩ ↔
      NoStaleRow ⟨m, L, hi⟩ (.commit [b] es) := by
  have hc := commit_ok U hrun
  set undo := (m.push es).exex.pendingUndo with hundo
  have hR : m'.exex.deltaRetention = m.exex.deltaRetention := hc.deltaRetention
  -- the new block is never older than the window of the blocks flushed before it
  have hnew : (if m.exex.shouldFlush b.block.number then max hi b.block.number else hi) ≤
      b.block.number + m.exex.deltaRetention ↔ hi ≤ b.block.number + m.exex.deltaRetention := by
    split <;> omega
  have hrow_new : m'.exex.db.loadBlockDeltas b.block.number =
      if undo = [] then m.exex.db.loadBlockDeltas b.block.number else undo := hc.row U
  constructor
  · intro hexact hnil hwin
    have := hexact _ List.mem_cons_self b List.mem_cons_self (by
      change _ ≤ b.block.number + m'.exex.deltaRetention
      rw [hR]
      exact hnew.mpr hwin)
    rw [hrow_new, if_pos hnil] at this
    exact this.trans hnil
  · intro hstale
    refine List.forall_mem_cons.mpr ⟨?_, ?_⟩
    · intro b' hb' hwin
      obtain rfl := List.mem_singleton.mp hb'
      change _ ≤ b'.block.number + m'.exex.deltaRetention at hwin
      rw [hR] at hwin
      rw [hrow_new]
      by_cases hnil : undo = []
      · rw [if_pos hnil, hstale hnil (hnew.mp hwin)]
        exact hnil.symm
      · rw [if_neg hnil]
    · intro c hcL b' hb' hwin
      change _ ≤ b'.block.number + m'.exex.deltaRetention at hwin
      rw [hR] at hwin
      obtain ⟨hwin', hrow⟩ := row_stays_commit ht.linked hlink hrun hcL hb' hwin
      rw [hrow]
      exact ht.exact c hcL b' hb' hwin'

/-- A revert leaves the rows of the blocks that stay canonical. -/
theorem rowsExact_revert {m m' : Machine} {L : Ledger} {hi : ℕ} {old : Chain}
    (ht : Tabled base ⟨m, L, hi⟩)
    (hold : (L.blocks.take old.blocks.length).map CanonicalBlock.block = old.blocks.reverse)
    (hrun : revert U old m = .ok () m') :
    RowsExact ⟨m', L.dropBlocks old.blocks.length, hi⟩ := by
  intro c hc b hb hwin
  have hR : m'.exex.deltaRetention = m.exex.deltaRetention := (revert_ok U hrun).deltaRetention
  change hi ≤ b.block.number + m'.exex.deltaRetention at hwin
  rw [hR] at hwin
  rw [row_stays_revert ht.linked hold hrun hc hb]
  exact ht.exact c (Ledger.mem_of_mem_dropBlocks ht.single c hc) b hb hwin

/-- **One step keeps the rows exact if and only if it meets the condition.** -/
theorem rowsExact_step {t t' : Tracked} {e : Event} (ht : Tabled base t)
    (hs : SingleStep U base t e t') :
    (RowsExact t' ↔ NoStaleRow t e) ∧ (NoStaleRow t e → Tabled base t') := by
  obtain ⟨hsingle, hs⟩ := hs
  have hf := ht.toFollowing.step hs
  cases hs with
  | @commit m m' L hi b bs es root hlink hwrites hrun =>
    obtain rfl : bs = [] := List.length_eq_zero_iff.mp (Nat.succ.inj hsingle)
    have hiff := rowsExact_commit ht hlink hrun
    exact ⟨hiff, fun hcond => ⟨hf, List.forall_mem_cons.mpr ⟨rfl, ht.single⟩, hiff.mpr hcond⟩⟩
  | @revert m m' L hi old hold hrun =>
    have hexact := rowsExact_revert ht hold hrun
    refine ⟨⟨fun _ => trivial, fun _ => hexact⟩, fun _ => ⟨hf, ?_, hexact⟩⟩
    intro c hc
    exact ht.single c (Ledger.mem_of_mem_dropBlocks ht.single c hc)

/-- **The delta table is exact in every state of a run if and only if every commit
that changes no value finds no row under its block number.** -/
theorem delta_table_exact_iff {m₀ : Machine} {h : List (Tracked × Event)} {t : Tracked}
    (hpending : m₀.exex.pendingEntries = [])
    (hrun : Run (SingleStep U m₀.tip) (.start m₀) h t) :
    (RowsExact t ∧ ∀ p ∈ h, RowsExact p.1) ↔ ∀ p ∈ h, NoStaleRow p.1 p.2 := by
  have h₀ : Tabled m₀.tip (.start m₀) := by
    refine ⟨.start hpending, ?_, ?_⟩
    · intro c hc
      cases hc
    · intro c hc
      cases hc
  exact hrun.good_iff h₀ (fun _ ht => ht.exact) fun _ _ _ ht hs => rowsExact_step ht hs

/-! ### Steps from functions -/

/-- What is tracked after a block is committed. -/
def Tracked.afterCommit (U : Ubt) (t : Tracked) (b : CanonicalBlock) (es : List PendingEntry) :
    Tracked where
  machine := (commitEntries U b.block.number b.block.hash es t.machine).state
  ledger := ⟨[b], (t.machine.push es).exex.pendingUndo⟩ :: t.ledger
  highest := if t.machine.exex.shouldFlush b.block.number then max t.highest b.block.number
    else t.highest

/-- What is tracked after a chain is reverted. -/
def Tracked.afterRevert (U : Ubt) (t : Tracked) (old : Chain) : Tracked where
  machine := (revert U old t.machine).state
  ledger := t.ledger.dropBlocks old.blocks.length
  highest := t.highest

theorem Tracked.afterCommit_step {t : Tracked} {b : CanonicalBlock} {es : List PendingEntry}
    (hlink : Linked (tipOf base t.ledger.blocks) [b])
    (hwrites : ∀ key, Writes.lastWrite (es.map PendingEntry.write) key =
      Writes.lastWrite (blockWrites [b]) key)
    (hok : (commitEntries U b.block.number b.block.hash es t.machine).isOk = true) :
    SingleStep U base t (.commit [b] es) (t.afterCommit U b es) := by
  obtain ⟨root, hrun⟩ := EStateM.Result.exists_ok hok
  exact ⟨rfl, .commit hlink hwrites hrun⟩

theorem Tracked.afterRevert_step {t : Tracked} {old : Chain}
    (hold : (t.ledger.blocks.take old.blocks.length).map CanonicalBlock.block =
      old.blocks.reverse) :
    SingleStep U base t (.revert old) (t.afterRevert U old) :=
  ⟨trivial, .revert hold (revert_eq_ok U _ _)⟩

/-! ### A run that leaves a row of a discarded block -/

/-- The chain of `block1` alone. -/
def firstChain : Chain :=
  ⟨[block1], .empty, Chain.single_ne_nil block1, Chain.single_sorted block1⟩

/-- A sibling of `block1`. -/
def block1' : Block := ⟨1, 21, 0⟩

/-- An entry that sets slot 1. -/
def slotEntry (value : B256) : PendingEntry := ⟨slotKey 7 1, value, 7⟩

/-- A block that sets slot 1 to its value. -/
def slotBlock (block : Block) (value : B256) : CanonicalBlock := ⟨block, [(slotKey 7 1, value)]⟩

/-- After `block1` is committed with a change to slot 1, and flushed. -/
def staleCommitted : Tracked where
  machine := (commitEntries sampleUbt 1 11 [slotEntry 1] (.fresh ⟨1, 10⟩)).state
  ledger := [⟨[⟨block1, [(slotKey 7 1, 1)]⟩],
    ((Machine.fresh ⟨1, 10⟩).push [slotEntry 1]).exex.pendingUndo⟩]
  highest := 1

/-- After `block1` is reverted. -/
def staleReverted : Tracked where
  machine := (revert sampleUbt firstChain staleCommitted.machine).state
  ledger := []
  highest := 1

/-- After its sibling is committed, which changes nothing. -/
def staleRecommitted : Tracked where
  machine := (commitEntries sampleUbt 1 21 [] staleReverted.machine).state
  ledger := [⟨[⟨block1', []⟩], (staleReverted.machine.push []).exex.pendingUndo⟩]
  highest := 1

theorem staleCommitted_step :
    SingleStep sampleUbt (0, 0) (.start (.fresh ⟨1, 10⟩))
      (.commit [⟨block1, [(slotKey 7 1, 1)]⟩] [slotEntry 1]) staleCommitted := by
  have hok : (commitEntries sampleUbt 1 11 [slotEntry 1] (.fresh ⟨1, 10⟩)).isOk = true := by
    decide +kernel
  obtain ⟨root, hrun⟩ := EStateM.Result.exists_ok hok
  exact ⟨rfl, .commit ⟨rfl, rfl, trivial⟩ (fun _ => rfl) hrun⟩

theorem staleReverted_step :
    SingleStep sampleUbt (0, 0) staleCommitted (.revert firstChain) staleReverted :=
  ⟨trivial, .revert rfl (revert_eq_ok sampleUbt _ _)⟩

theorem staleRecommitted_step :
    SingleStep sampleUbt (0, 0) staleReverted (.commit [⟨block1', []⟩] []) staleRecommitted := by
  have hok : (commitEntries sampleUbt 1 21 [] staleReverted.machine).isOk = true := by
    decide +kernel
  obtain ⟨root, hrun⟩ := EStateM.Result.exists_ok hok
  exact ⟨rfl, .commit ⟨rfl, rfl, trivial⟩ (fun _ => rfl) hrun⟩

/-- A first commit and its revert meet the condition. -/
theorem delta_table_exact_reverted : RowsExact staleReverted ∧
    ∀ p ∈ [(staleCommitted, Event.revert firstChain),
      (.start (.fresh ⟨1, 10⟩), .commit [⟨block1, [(slotKey 7 1, 1)]⟩] [slotEntry 1])],
      RowsExact p.1 := by
  have hrun : Run (SingleStep sampleUbt (Machine.fresh ⟨1, 10⟩).tip) (.start (.fresh ⟨1, 10⟩)) _
    staleReverted := .snoc (.snoc .nil staleCommitted_step) staleReverted_step
  refine (delta_table_exact_iff rfl hrun).mpr ?_
  refine List.forall_mem_cons.mpr ⟨trivial, List.forall_mem_cons.mpr ⟨?_, by simp⟩⟩
  intro hnil
  revert hnil
  decide +kernel

/-- **A row of a discarded block survives**: block 1 changes a slot, is flushed and
reverted, and its sibling changes nothing; the row of block 1 is still there. -/
theorem delta_table_stale_row :
    ¬∀ (U : Ubt) (m₀ : Machine) (h : List (Tracked × Event)) (t : Tracked),
      m₀.exex.pendingEntries = [] → Run (SingleStep U m₀.tip) (.start m₀) h t → RowsExact t := by
  intro hall
  have hexact := hall sampleUbt (.fresh ⟨1, 10⟩) _ _ rfl
    (.snoc (.snoc (.snoc .nil staleCommitted_step) staleReverted_step) staleRecommitted_step)
  have hrow := hexact _ List.mem_cons_self _ List.mem_cons_self (by decide +kernel)
  revert hrow
  decide +kernel

end UbtExex
