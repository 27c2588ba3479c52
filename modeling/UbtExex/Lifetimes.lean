import UbtExex.Finished
import UbtExex.Incremental
import UbtExex.Resume

/-!
# Lifetimes

A node that is shut down, killed between two operations or killed after any durable
write of one, and started again, over and over.  Commits are of one block each, and
reverts may undo blocks from before a restart.

A kill is clean unless it comes between the write of changed stems and that of the head,
or when the stored head is above NOMT.  After clean kills a startup always succeeds and the
node is at a block of its chain again, with all stores in sync; and it has lost fewer
blocks than the flush interval, and the one under way.

NOMT can undo a limited number of commits.  Reverts have to stay within its log, and so
does the rollback of a startup, which it does if the flush interval is no longer than the
limit.

## Main definitions

* `Incident`, `IncidentStep` — an operation, or an end of the process and a startup.
* `CleanKill` — the condition on the durable write of a kill.
* `IncidentKept` — the condition on an incident, before it happens.
* `Windowed` — a kill loses fewer blocks than the flush interval.
* `Lives` — what holds of a node between incidents.

## Main results

* `UnderWay.leads` — where the writes of an operation lead.
* `Anchored.resumed` — **a startup over stores at a block of the chain goes on there.**
* `lifetimes` — **every lifetime with clean kills keeps all stores in sync.**
-/

open Std

namespace UbtExex

/-! ### Incidents -/

/-- What is tracked after a startup: the blocks above the one resumed from are lost. -/
def Tracked.resumed (t : Tracked) (s : UbtExEx) : Tracked where
  machine := ⟨s, []⟩
  ledger := t.ledger.drop (t.machine.exex.lastBlock - s.lastBlock)
  highest := t.highest

/-- An operation that is under way, and what is tracked when it is done.  A shutdown stays
at the block the node is at. -/
inductive UnderWay (U : Ubt) (base : ℕ × B256) (t : Tracked) : Op → Tracked → Prop
  | commit {b : CanonicalBlock} {es : List PendingEntry} {t₁ : Tracked}
      (hstep : SingleStep U base t (.commit [b] es) t₁) :
      UnderWay U base t (.commit b.block.number b.block.hash es) t₁
  | revert {old : Chain} {t₁ : Tracked} (hstep : SingleStep U base t (.revert old) t₁) :
      UnderWay U base t (.revert old) t₁
  | shutdown : UnderWay U base t .shutdown t

/-- What happens to a node. -/
inductive Incident
  /-- A block is committed, or some are reverted. -/
  | op (e : Event)
  /-- The process is shut down and started again. -/
  | restart (config : UbtConfig)
  /-- The process is killed between two operations and started again. -/
  | killed (config : UbtConfig)
  /-- The process is killed after a durable write of an operation and started again. -/
  | killedIn (op : Op) (w : DurableWrite) (config : UbtConfig)

/-- One incident.  NOMT has a limited log. -/
inductive IncidentStep (U : Ubt) (limit : Option ℕ) (base : ℕ × B256) :
    Tracked → Incident → Tracked → Prop
  | op {t t' : Tracked} {e : Event} (hstep : LoggedStep U limit base t e t') :
      IncidentStep U limit base t (.op e) t'
  | restart {t : Tracked} {m : Machine} {config : UbtConfig} {s : UbtExEx}
      (hrun : shutdown U t.machine = .ok () m)
      (hnew : UbtExEx.new U config m.exex.toDisk = .ok s) :
      IncidentStep U limit base t (.restart config) (t.resumed s)
  | killed {t : Tracked} {config : UbtConfig} {s : UbtExEx}
      (hnew : UbtExEx.new U config t.machine.exex.toDisk = .ok s) :
      IncidentStep U limit base t (.killed config) (t.resumed s)
  | killedIn {t t₁ : Tracked} {op : Op} {w : DurableWrite} {config : UbtConfig} {s : UbtExEx}
      (hop : UnderWay U base t op t₁) (hw : w ∈ writesOf (op.run U) t.machine.exex)
      (hnew : UbtExEx.new U config (w.after.limitLog limit) = .ok s) :
      IncidentStep U limit base t (.killedIn op w config) (t₁.resumed s)

/-- The condition on the durable write after which a process is killed: it did not change
the stored stems under the old head, and the stored head is not above NOMT. -/
structure CleanKill (w : DurableWrite) : Prop where
  stems : w.step = .batchUpdateStems → w.after.db.value = w.before.db.value
  nomt : headNumber w.after.db ≤ w.after.nomt.current.headBlock

/-- A revert finds the rows of its blocks, and goes back no further than NOMT's log. -/
def OpKept (limit : Option ℕ) (t : Tracked) : Op → Prop
  | .revert old => RowsFound t (.revert old) ∧ LogHolds limit t (.revert old)
  | _ => True

/-- The condition on an incident, before it happens: reverts find their rows and stay within
NOMT's log, a kill in an operation is clean, and the startup after a kill finds the blocks
that it rolls back in the log. -/
def IncidentKept (limit : Option ℕ) (t : Tracked) : Incident → Prop
  | .op e => RowsFound t e ∧ LogHolds limit t e
  | .restart _ => True
  | .killed _ => StartHolds limit t.machine.exex.toDisk
  | .killedIn op w _ => OpKept limit t op ∧ CleanKill w ∧ StartHolds limit (w.after.limitLog limit)

variable {U : Ubt} {base : ℕ × B256} {σ₀ : TreeKey → B256} {limit : Option ℕ}

/-! ### Where the writes of an operation lead -/

/-- From its first durable write on NOMT is as the operation leaves it. -/
theorem Checkpoint.nomt_after {nomt : Nomt} {stems stems' : ExtTreeMap Stem StemNode}
    {head : Option UbtHead} {n : ℕ} {hash : B256} {w : DurableWrite}
    (h : Checkpoint U nomt stems stems' head n hash w) : w.after.nomt = nomt := by
  cases h with
  | quiet _ hafter => exact hafter.nomt
  | stems _ _ hafter => exact hafter.nomt
  | head _ _ hafter _ _ _ => exact hafter.nomt

theorem nomt_after_commit {t t₁ : Tracked} {b : CanonicalBlock} {es : List PendingEntry}
    {w : DurableWrite} (hstep : SingleStep U base t (.commit [b] es) t₁)
    (hw : w ∈ writesOf ((Op.commit b.block.number b.block.hash es).run U) t.machine.exex) :
    w.after.nomt = t₁.machine.exex.nomt := by
  obtain ⟨-, hstep⟩ := hstep
  cases hstep with
  | @commit m m' L hi _ _ _ root hlink hwrites hrun =>
    let m₀ : Machine := ⟨m.exex, []⟩
    have hj := commit_journal U b.block.number b.block.hash (m₀.push es)
    have hpoint := mem_writesOf (by rw [Op.state_commit]; exact hj) w hw
    rw [hpoint.nomt_after, (commit_ok U hrun).nomt]
    rfl

theorem nomt_after_revert {t t₁ : Tracked} {old : Chain} {w : DurableWrite}
    (hstep : SingleStep U base t (.revert old) t₁)
    (hw : w ∈ writesOf (revert U old) t.machine.exex) :
    w.after.nomt = t₁.machine.exex.nomt := by
  obtain ⟨-, hstep⟩ := hstep
  cases hstep with
  | @revert m m' L hi _ hold hrun =>
    obtain ⟨m₁, hrun₁, hr⟩ := revert_spec U old ⟨m.exex, []⟩
    obtain ⟨stems', -, hj⟩ := hr.journal
    have hpoint := mem_writesOf (by rw [hrun₁]; exact hj) w hw
    rw [hpoint.nomt_after, (revert_ok U hrun).nomt]

/-- **The writes of an operation lead to what is tracked when it is done.** -/
theorem UnderWay.leads {t t₁ : Tracked} {op : Op} {w : DurableWrite}
    (hc : Anchored U base σ₀ t) (hall : Unforgotten limit t) (hop : UnderWay U base t op t₁)
    (hkept : OpKept limit t op) (hw : w ∈ writesOf (op.run U) t.machine.exex) :
    Leads U base σ₀ t.machine.exex.db t₁.ledger.blocks w ∧
      w.after.nomt = t₁.machine.exex.nomt := by
  cases hop with
  | @commit b es t₁ hstep =>
    refine ⟨?_, nomt_after_commit hstep hw⟩
    obtain ⟨-, hstep⟩ := hstep
    cases hstep with
    | commit hlink hwrites hrun => exact hc.leads_commit hwrites hw
  | @revert old t₁ hstep =>
    refine ⟨?_, nomt_after_revert hstep hw⟩
    have hreaches := hkept.2.reaches hall hc.touched hstep.2
    obtain ⟨-, hstep⟩ := hstep
    cases hstep with
    | @revert m m' L hi _ hold hrun =>
      have hleads := hc.leads_revert hold hkept.1 hreaches hw
      rw [← Ledger.blocks_dropBlocks] at hleads
      exact hleads
  | shutdown =>
    obtain ⟨m, hrun, -, -, -, -, hj⟩ := shutdown_spec U ⟨t.machine.exex, []⟩
    have hpoint := mem_writesOf (x := UbtExex.shutdown U) (by rw [hrun]; exact hj) w hw
    have htip : (t.machine.exex.lastBlock, t.machine.exex.lastHash) =
        tipOf base t.ledger.blocks := hc.tip
    refine ⟨⟨⟨t.machine.exex.nomt, drainedStems t.machine.exex, ?_, ?_, fun db hdb => ?_⟩,
      fun _ => hc.saved⟩, ?_⟩
    · rw [← htip]
      exact hpoint
    · rw [← htip]
      exact hc.nomtSynced.headBlock
    · rw [value_drained hdb]
      exact hc.logical
    · rw [hpoint.nomt_after]

/-- **After a clean kill MDBX is at a block of the chain**, and a startup accepts it. -/
theorem CleanKill.saved {db : UbtDatabase} {bs : List CanonicalBlock} {w : DurableWrite}
    (hclean : CleanKill w) (hl : Leads U base σ₀ db bs w) (hroot : RootOk U db) :
    AtBlock base σ₀ bs w.after.db ∧ RootOk U w.after.db := by
  obtain ⟨⟨nomt, stems', hpoint, hnomt, hvalue⟩, hold⟩ := hl
  have hbehind := hclean.nomt
  cases hpoint with
  | quiet hstep hafter =>
    rw [hafter.nomt, hnomt, headNumber_congr hafter.head] at hbehind
    refine ⟨(hold hbehind).congr (UbtDatabase.value_of_stems hafter.stems) hafter.head, ?_⟩
    exact rootOk_congr hafter.stems.symm hafter.head.symm hroot
  | stems hstep hbefore hafter =>
    rw [hafter.nomt, hnomt, headNumber_congr hafter.head] at hbehind
    -- the new stems hold the old values, so the old head still goes with them
    have hvalue : w.after.db.value = db.value :=
      (hclean.stems hstep).trans (UbtDatabase.value_of_stems hbefore.stems)
    refine ⟨(hold hbehind).congr hvalue hafter.head, fun hd hhd => ?_⟩
    rw [computeRoot_of_value hvalue]
    exact hroot hd (hafter.head.symm.trans hhd)
  | head hstep hd hafter hn hh hroot' =>
    refine ⟨AtBlock.of_head hafter.head ?_ (hvalue _ hafter.stems), ?_⟩
    · rw [hn, hh]
    · exact rootOk_of_head hafter.head hroot'

/-- The number of the head after a durable write: the old one, or that of the newest block
of the chain. -/
theorem Leads.headNumber_after {db : UbtDatabase} {bs : List CanonicalBlock} {w : DurableWrite}
    (hl : Leads U base σ₀ db bs w) :
    headNumber w.after.db = headNumber db ∨ headNumber w.after.db = (tipOf base bs).1 := by
  obtain ⟨⟨nomt, stems', hpoint, -, -⟩, -⟩ := hl
  cases hpoint with
  | quiet hstep hafter => exact .inl (headNumber_congr hafter.head)
  | stems hstep hbefore hafter => exact .inl (headNumber_congr hafter.head)
  | head hstep hd hafter hn hh hroot =>
    right
    rw [headNumber_of_head hafter.head, hn]

/-! ### Startups -/

/-- The block that stores are at, counted from the newest. -/
theorem AtBlock.drop_eq {bs : List CanonicalBlock} {db : UbtDatabase}
    (h : AtBlock base σ₀ bs db) (hl : Linked base bs) :
    headNumber db ≤ (tipOf base bs).1 ∧
      headTip db = tipOf base (bs.drop ((tipOf base bs).1 - headNumber db)) ∧
      db.value = stateAfter σ₀ (bs.drop ((tipOf base bs).1 - headNumber db)) := by
  obtain ⟨k, htip, hstate⟩ := h
  have hnumber : headNumber db = base.1 + (bs.drop k).length := by
    rw [← (hl.drop k).tip_eq, ← htip]
    rfl
  have hlength : (bs.drop k).length = bs.length - k := List.length_drop
  have htop := hl.tip_eq
  -- the same blocks are dropped, all of them if the stores are at the base
  have hdrop : bs.drop ((tipOf base bs).1 - headNumber db) = bs.drop k := by
    rcases Nat.le_total k bs.length with hle | hge
    · rw [show (tipOf base bs).1 - headNumber db = k by omega]
    · rw [List.drop_eq_nil_of_le hge, List.drop_eq_nil_of_le (by omega)]
  rw [hdrop]
  exact ⟨by omega, htip, hstate⟩

namespace Ledger

/-- Commits of one block each: there are as many as blocks. -/
theorem length_blocks {L : Ledger} (h : ∀ c ∈ L, c.blocks.length = 1) :
    (blocks L).length = L.length := by
  induction L with
  | nil => rfl
  | cons c L ih =>
    obtain ⟨hc, hL⟩ := List.forall_mem_cons.mp h
    rw [blocks_cons, List.length_append, hc, ih hL, List.length_cons, Nat.add_comm]

end Ledger

/-- How far stores at a block of the chain are behind it. -/
theorem AtBlock.behind_le {L : Ledger} {db : UbtDatabase} (h : AtBlock base σ₀ L.blocks db)
    (hl : Linked base L.blocks) (hsingle : ∀ c ∈ L, c.blocks.length = 1) :
    (tipOf base L.blocks).1 - headNumber db ≤ L.length := by
  obtain ⟨-, htip, -⟩ := h.drop_eq hl
  have htop := hl.tip_eq
  have hcount : L.blocks.length = L.length := Ledger.length_blocks hsingle
  have hdrop := (hl.drop ((tipOf base L.blocks).1 - headNumber db)).tip_eq
  rw [← htip] at hdrop
  change headNumber db = _ at hdrop
  omega

/-- A startup whose rollback the log allows makes it. -/
theorem rollback_syncedNomt {d : Disk} (hle : headNumber d.db ≤ d.nomt.current.headBlock)
    (hreaches : d.nomt.current.headBlock - headNumber d.db ≤ d.nomt.past.length) :
    d.nomt.rollback (d.nomt.current.headBlock - headNumber d.db) = some (syncedNomt d) := by
  obtain ⟨v, hv⟩ := Option.ne_none_iff_exists'.mp fun hnone =>
    Nat.not_lt.mpr hreaches (Versioned.rollback_eq_none_iff.mp hnone)
  unfold syncedNomt
  split
  · rw [hv, Option.getD_some]
  · have hzero : d.nomt.current.headBlock - headNumber d.db = 0 := by omega
    rw [hzero, Versioned.rollback_zero]

/-- **A startup over stores at a block of the chain goes on there**: the state is that of the
block, the ledger ends with it, and NOMT is rolled back to it if its log reaches as far. -/
theorem Anchored.resumed {t : Tracked} {config : UbtConfig} {d : Disk} {s : UbtExEx}
    (hc : Anchored U base σ₀ t) (hnew : UbtExEx.new U config d = .ok s)
    (hnomt : NomtTracks base σ₀ d.nomt t.ledger) (hat : AtBlock base σ₀ t.ledger.blocks d.db)
    (hreaches : d.nomt.current.headBlock - headNumber d.db ≤ d.nomt.past.length) :
    Anchored U base σ₀ (t.resumed s) ∧ s.lastPersistedBlock = s.lastBlock ∧
      s.nomt.past.length + (d.nomt.current.headBlock - headNumber d.db) = d.nomt.past.length := by
  have hr := restored_of_new hnew
  obtain ⟨hle, htip, hvalue⟩ := hat.drop_eq hc.linked
  have hlength := hat.behind_le hc.linked hc.single
  have hlast : t.machine.exex.lastBlock = (tipOf base t.ledger.blocks).1 := congrArg Prod.fst hc.tip
  have hhead : d.nomt.current.headBlock = t.machine.exex.lastBlock :=
    hnomt.current.headBlock.trans hlast.symm
  rw [← hlast] at hle htip hvalue hlength
  have hv := rollback_syncedNomt (hhead ▸ hle) hreaches
  rw [← hr.nomt, hhead] at hv
  rw [hhead]
  set j := t.machine.exex.lastBlock - headNumber d.db
  have hblocks : Ledger.blocks (t.ledger.drop j) = t.ledger.blocks.drop j :=
    Ledger.blocks_drop hc.single j
  have hledger : (t.resumed s).ledger = t.ledger.drop j := by
    unfold Tracked.resumed
    rw [hr.lastBlock]
  have hpers : s.lastPersistedBlock = headNumber d.db := by
    rw [hr.lastPersistedBlock, hhead, Nat.min_eq_left hle]
  refine ⟨⟨⟨⟨⟨hr.pendingEntries, ?_, ?_, ?_⟩, ?_, ?_⟩, ?_⟩, ?_, ?_, ?_, ?_⟩, ?_, ?_⟩
  · rw [hledger, hblocks]
    exact hc.linked.drop j
  · rw [hledger, hblocks]
    change (s.lastBlock, s.lastHash) = _
    rw [hr.lastBlock, hr.lastHash]
    exact htip
  · intro c hmem
    rw [hledger] at hmem
    exact hc.nonempty c (List.mem_of_mem_drop hmem)
  · rw [hledger, hblocks]
    exact hr.logical.trans hvalue
  · rw [hledger]
    exact hc.undoable.drop j
  · rw [hledger]
    -- NOMT is ahead of the head by one version for each lost block
    change NomtTracks base σ₀ s.nomt _
    exact hnomt.rollback hlength hv
  · intro c hmem
    rw [hledger] at hmem
    exact hc.single c (List.mem_of_mem_drop hmem)
  · change s.lastPersistedBlock = headNumber s.db
    rw [hpers, hr.db]
  · rw [hledger, hblocks]
    refine ⟨0, ?_, ?_⟩
    · change headTip s.db = _
      rw [hr.db]
      exact htip
    · change s.db.value = _
      rw [hr.db]
      exact hvalue
  · change RootOk U s.db
    rw [hr.db]
    exact ((new_eq_ok_iff U).mp hnew).1
  · rw [hpers, hr.lastBlock]
  · exact Versioned.length_past_of_rollback hv

/-! ### What a kill loses -/

/-- The blocks above the last persisted one are fewer than the flush interval. -/
structure Windowed (s : UbtExEx) : Prop where
  persisted : s.lastPersistedBlock ≤ s.lastBlock
  recent : s.lastBlock < s.lastPersistedBlock + max 1 s.flushInterval

theorem Windowed.commit {n : ℕ} {hash : B256} {m m' : Machine} {root : B256}
    (hwin : Windowed m.exex) (hcom : Committed U n hash m m' root) (hn : n = m.exex.lastBlock + 1) :
    Windowed m'.exex := by
  have hlower := hwin.persisted
  have hupper := hwin.recent
  have hblock := hcom.lastBlock
  have hinterval := hcom.flushInterval
  cases hf : m.exex.shouldFlush n with
  | true =>
    obtain ⟨-, hpers, -⟩ := hcom.flushed hf
    constructor
    · omega
    · omega
  | false =>
    -- not flushed: the block is within the interval of the last persisted one
    obtain ⟨hpers, -⟩ := hcom.kept hf
    have hlate : ¬(n ≤ m.exex.lastPersistedBlock ∨
        m.exex.flushInterval ≤ n - m.exex.lastPersistedBlock) := by
      intro h
      exact absurd (hf.symm.trans (shouldFlush_eq_true.mpr h)) (by decide)
    constructor
    · omega
    · omega

theorem Windowed.revert {old : Chain} {m m' : Machine} (hwin : Windowed m.exex)
    (hr : Reverted U old m m') (hbelow : m'.exex.lastBlock ≤ m.exex.lastBlock) :
    Windowed m'.exex := by
  have hlower := hwin.persisted
  have hupper := hwin.recent
  have hblock := hr.lastBlock
  have hinterval := hr.flushInterval
  by_cases hpers : ∃ b ∈ old.blocks, b.number ≤ m.exex.lastPersistedBlock
  · obtain ⟨-, hlast, -⟩ := hr.persisted hpers
    constructor
    · omega
    · omega
  · obtain ⟨hlast, -⟩ := hr.kept hpers
    have hfirst : ¬old.first.number ≤ m.exex.lastPersistedBlock := by
      intro hle
      exact hpers ⟨old.first, List.head_mem _, hle⟩
    constructor
    · omega
    · omega

/-- **One commit of a block, or one revert, keeps the window.** -/
theorem Windowed.step {t t' : Tracked} {e : Event} (hc : Anchored U base σ₀ t)
    (hwin : Windowed t.machine.exex) (hstep : SingleStep U base t e t') :
    Windowed t'.machine.exex ∧ t'.machine.exex.flushInterval = t.machine.exex.flushInterval ∧
      t'.machine.exex.lastBlock ≤ t.machine.exex.lastBlock + 1 := by
  obtain ⟨hsingle, hstep⟩ := hstep
  have htip := congrArg Prod.fst hc.tip
  cases hstep with
  | @commit m m' L hi b bs es root hlink hwrites hrun =>
    obtain rfl : bs = [] := List.length_eq_zero_iff.mp (Nat.succ.inj hsingle)
    have hcom := commit_ok U hrun
    have hnext : b.block.number = m.exex.lastBlock + 1 := hlink.1.trans (congrArg (· + 1) htip.symm)
    have hpushed : Windowed (m.push es).exex := ⟨hwin.persisted, hwin.recent⟩
    have hkept := hpushed.commit hcom hnext
    exact ⟨hkept, hcom.flushInterval, Nat.le_of_eq (hcom.lastBlock.trans hnext)⟩
  | @revert m m' L hi old hold hrun =>
    have hr := revert_ok U hrun
    have hbelow : m'.exex.lastBlock ≤ m.exex.lastBlock := by
      have hdropped := congrArg Prod.fst (tip_dropped hc.linked hold)
      have hle := hc.linked.tip_drop_le old.blocks.length
      rw [hr.lastBlock]
      calc old.first.number - 1 = (tipOf base (L.blocks.drop old.blocks.length)).1 := hdropped.symm
        _ ≤ (tipOf base L.blocks).1 := hle
        _ = m.exex.lastBlock := htip.symm
    exact ⟨hwin.revert hr hbelow, hr.flushInterval, Nat.le_succ_of_le hbelow⟩

/-- After a startup nothing is lost by another one. -/
theorem Windowed.fresh {s : UbtExEx} (h : s.lastPersistedBlock = s.lastBlock) : Windowed s := by
  constructor
  · exact Nat.le_of_eq h
  · omega

/-- What NOMT forgets does not count. -/
theorem Windowed.limitLog {t : Tracked} (h : Windowed t.machine.exex) (limit : Option ℕ) :
    Windowed (t.limitLog limit).machine.exex := ⟨h.persisted, h.recent⟩

/-- **What a kill loses**: at most as many blocks as the flush interval, with that of the
operation under way. -/
theorem UnderWay.lost {t t₁ : Tracked} {op : Op} {w : DurableWrite}
    (hc : Anchored U base σ₀ t) (hwin : Windowed t.machine.exex)
    (hop : UnderWay U base t op t₁) (hc₁ : Anchored U base σ₀ t₁)
    (hl : Leads U base σ₀ t.machine.exex.db t₁.ledger.blocks w) :
    t₁.machine.exex.lastBlock ≤ headNumber w.after.db + max 1 t.machine.exex.flushInterval := by
  have hlast : t₁.machine.exex.lastBlock = (tipOf base t₁.ledger.blocks).1 :=
    congrArg Prod.fst hc₁.tip
  have hupper := hwin.recent
  have hpers := hc.persisted
  -- an operation adds at most one block
  have hone : t₁.machine.exex.lastBlock ≤ t.machine.exex.lastBlock + 1 := by
    cases hop with
    | commit hstep => exact (hwin.step hc hstep).2.2
    | revert hstep => exact (hwin.step hc hstep).2.2
    | shutdown => exact Nat.le_succ _
  rcases hl.headNumber_after with hold | hnewest
  · omega
  · omega

/-! ### What is left of the log -/

/-- If the flush interval is no longer than the limit, the blocks above the last persisted
one are in NOMT's log. -/
def LogCovers (limit : Option ℕ) (s : UbtExEx) : Prop :=
  ∀ l, limit = some l → max 1 s.flushInterval ≤ l →
    s.lastBlock - s.lastPersistedBlock ≤ s.nomt.past.length

/-- **The log grows and shrinks with the chain.** -/
theorem log_step {t t' : Tracked} {e : Event} (hc : Anchored U base σ₀ t)
    (hlog : LogReaches t e) (hstep : SingleStep U base t e t') :
    t'.machine.exex.lastBlock + t.machine.exex.nomt.past.length =
      t.machine.exex.lastBlock + t'.machine.exex.nomt.past.length := by
  obtain ⟨hone, hstep⟩ := hstep
  have htip : t.machine.exex.lastBlock = (tipOf base t.ledger.blocks).1 := congrArg Prod.fst hc.tip
  cases hstep with
  | @commit m m' L hi b bs es root hlink hwrites hrun =>
    obtain rfl : bs = [] := List.length_eq_zero_iff.mp (Nat.succ.inj hone)
    have hblock := (commit_ok U hrun).lastBlock
    have hnext : b.block.number = (tipOf base L.blocks).1 + 1 := hlink.1
    have hpast : m'.exex.nomt.past.length = m.exex.nomt.past.length + 1 := by
      rw [nomt_commitEntries hc.pending hrun]
      rfl
    dsimp only at htip ⊢
    omega
  | @revert m m' L hi old hold hrun =>
    have hr := revert_ok U hrun
    have hblock := hr.lastBlock
    have hdropped := congrArg Prod.fst (tip_dropped hc.linked hold)
    have htop := hc.linked.tip_eq
    have hbelow := (hc.linked.drop old.blocks.length).tip_eq
    have hle := length_reverted_le hold
    obtain ⟨v, hv⟩ := Option.ne_none_iff_exists'.mp fun hnone =>
      Nat.not_lt.mpr hlog (Versioned.rollback_eq_none_iff.mp hnone)
    have hpast := Versioned.length_past_of_rollback hv
    have hnomt : m'.exex.nomt = v := by rw [hr.nomt, hv, Option.getD_some]
    rw [← hnomt] at hpast
    rw [List.length_drop] at hbelow
    dsimp only at htip htop hbelow hdropped hpast ⊢
    omega

/-- An operation leaves the last persisted block, or persists its own. -/
theorem persisted_step {t t' : Tracked} {e : Event} (hstep : SingleStep U base t e t') :
    t'.machine.exex.flushInterval = t.machine.exex.flushInterval ∧
      (t'.machine.exex.lastPersistedBlock = t.machine.exex.lastPersistedBlock ∨
        t'.machine.exex.lastPersistedBlock = t'.machine.exex.lastBlock) := by
  obtain ⟨-, hstep⟩ := hstep
  cases hstep with
  | @commit m m' L hi b bs es root hlink hwrites hrun =>
    have hcom := commit_ok U hrun
    refine ⟨hcom.flushInterval, ?_⟩
    cases hf : (m.push es).exex.shouldFlush b.block.number with
    | true => exact .inr ((hcom.flushed hf).2.1.trans hcom.lastBlock.symm)
    | false => exact .inl (hcom.kept hf).1
  | @revert m m' L hi old hold hrun =>
    have hr := revert_ok U hrun
    refine ⟨hr.flushInterval, ?_⟩
    by_cases hpers : ∃ b ∈ old.blocks, b.number ≤ m.exex.lastPersistedBlock
    · exact .inr ((hr.persisted hpers).2.1.trans hr.lastBlock.symm)
    · exact .inl (hr.kept hpers).1

theorem LogCovers.step {t t' : Tracked} {e : Event} (h : LogCovers limit t.machine.exex)
    (hc : Anchored U base σ₀ t) (hlog : LogReaches t e) (hstep : SingleStep U base t e t') :
    LogCovers limit t'.machine.exex := by
  intro l hlimit hinterval
  have hlength := log_step hc hlog hstep
  obtain ⟨hsame, hpers⟩ := persisted_step hstep
  rw [hsame] at hinterval
  have hcovered := h l hlimit hinterval
  rcases hpers with hold | hnew
  · omega
  · omega

/-- What a limited log keeps is enough. -/
theorem LogCovers.limitLog {t : Tracked} (h : LogCovers limit t.machine.exex)
    (hwin : Windowed t.machine.exex) : LogCovers limit (t.limitLog limit).machine.exex := by
  rintro l rfl hinterval
  have hinterval : max 1 t.machine.exex.flushInterval ≤ l := hinterval
  have hcovered := h l rfl hinterval
  have hrecent := hwin.recent
  change t.machine.exex.lastBlock - t.machine.exex.lastPersistedBlock ≤
    (t.machine.exex.nomt.limitTo (some l)).past.length
  rw [Versioned.length_past_limitTo_some]
  omega

/-- After a startup there is nothing to cover. -/
theorem LogCovers.fresh {s : UbtExEx} (h : s.lastPersistedBlock = s.lastBlock) :
    LogCovers limit s := by
  intro l _ _
  omega

/-! ### One incident -/

/-- What is kept between incidents. -/
structure Alive (U : Ubt) (limit : Option ℕ) (base : ℕ × B256) (σ₀ : TreeKey → B256)
    (t : Tracked) : Prop extends Anchored U base σ₀ t where
  unforgotten : Unforgotten limit t
  window : Windowed t.machine.exex
  covered : LogCovers limit t.machine.exex

/-- A shutdown leaves stores of the newest block, and its node as it was. -/
theorem Anchored.shutdown {t : Tracked} {m : Machine} (hc : Anchored U base σ₀ t)
    (hrun : UbtExex.shutdown U t.machine = .ok () m) :
    headTip m.exex.db = tipOf base t.ledger.blocks ∧
      AtBlock base σ₀ t.ledger.blocks m.exex.db ∧ m.exex.nomt = t.machine.exex.nomt := by
  obtain ⟨m₁, hrun₁, -, hvalue, hnomt, ⟨stemCount, hhead⟩, -⟩ := shutdown_spec U t.machine
  obtain rfl : m₁ = m := by
    injection hrun₁.symm.trans hrun
  have hat := AtBlock.of_head hhead hc.tip (hvalue.trans hc.logical)
  exact ⟨(headTip_of_head hhead).trans hc.tip, hat, hnomt⟩

/-- What an operation under way needs of the log is there. -/
theorem OpKept.reaches {t t₁ : Tracked} {op : Op} (hc : Anchored U base σ₀ t)
    (hall : Unforgotten limit t) (hop : UnderWay U base t op t₁) (hkept : OpKept limit t op) :
    Anchored U base σ₀ t₁ ∧ Unforgotten limit t₁ ∧
      t₁.machine.exex.lastBlock + t.machine.exex.nomt.past.length =
        t.machine.exex.lastBlock + t₁.machine.exex.nomt.past.length := by
  cases hop with
  | @commit b es t₁ hstep =>
    have hreaches : LogReaches t (.commit [b] es) := trivial
    refine ⟨hc.step (e := .commit [b] es) trivial hreaches hstep, fun hnone => ?_,
      log_step hc hreaches hstep⟩
    exact (hall hnone).step hc.toFollowing hc.touched hstep.2
  | @revert old t₁ hstep =>
    have hreaches := hkept.2.reaches hall hc.touched hstep.2
    refine ⟨hc.step hkept.1 hreaches hstep, fun hnone => ?_, log_step hc hreaches hstep⟩
    exact (hall hnone).step hc.toFollowing hc.touched hstep.2
  | shutdown => exact ⟨hc, hall, rfl⟩

/-- The stores after a clean kill: MDBX is at a block of the chain that the operation leads to,
and NOMT is in step with that chain. -/
theorem Anchored.killedIn {t t₁ : Tracked} {op : Op} {w : DurableWrite}
    (hc : Anchored U base σ₀ t) (hall : Unforgotten limit t) (hop : UnderWay U base t op t₁)
    (hkept : OpKept limit t op) (hw : w ∈ writesOf (op.run U) t.machine.exex)
    (hclean : CleanKill w) :
    AtBlock base σ₀ t₁.ledger.blocks (w.after.limitLog limit).db ∧
      RootOk U (w.after.limitLog limit).db ∧
      NomtTracks base σ₀ (w.after.limitLog limit).nomt t₁.ledger := by
  obtain ⟨hleads, hnomt⟩ := hop.leads hc hall hkept hw
  obtain ⟨hat, hroot⟩ := hclean.saved hleads hc.root
  obtain ⟨hc₁, -, -⟩ := hkept.reaches hc hall hop
  refine ⟨hat, hroot, ?_⟩
  change NomtTracks base σ₀ (w.after.nomt.limitTo limit) _
  rw [hnomt]
  exact Versioned.Tracks.limitTo hc₁.nomt limit

/-- A startup that the log allows, over stores at a block of the chain that is tracked. -/
theorem Alive.resumed {t : Tracked} {config : UbtConfig} {d : Disk} {s : UbtExEx}
    (hc : Anchored U base σ₀ t) (hall : Unforgotten limit t)
    (hnew : UbtExEx.new U config d = .ok s) (hnomt : NomtTracks base σ₀ d.nomt t.ledger)
    (hsame : limit = none → d.nomt = t.machine.exex.nomt)
    (hat : AtBlock base σ₀ t.ledger.blocks d.db) (hstart : StartHolds limit d) :
    Alive U limit base σ₀ (t.resumed s) := by
  have hhead : d.nomt.current.headBlock = (tipOf base t.ledger.blocks).1 := hnomt.current.headBlock
  have hbehind := hat.behind_le hc.linked hc.single
  have hreaches : d.nomt.current.headBlock - headNumber d.db ≤ d.nomt.past.length := by
    cases limit with
    | some l => exact hstart (by simp)
    | none =>
      have hkept : t.ledger.length ≤ t.machine.exex.nomt.past.length := hall rfl
      rw [hhead, hsame rfl]
      omega
  obtain ⟨hc', hpers, hpast⟩ := hc.resumed hnew hnomt hat hreaches
  refine ⟨hc', fun hnone => ?_, .fresh hpers, .fresh hpers⟩
  have hkept : t.ledger.length ≤ t.machine.exex.nomt.past.length := hall hnone
  have hlast : t.machine.exex.lastBlock = (tipOf base t.ledger.blocks).1 := congrArg Prod.fst hc.tip
  have hblock := (restored_of_new hnew).lastBlock
  change (t.ledger.drop (t.machine.exex.lastBlock - s.lastBlock)).length ≤ s.nomt.past.length
  rw [hsame hnone] at hpast hhead
  rw [List.length_drop]
  omega

/-- **One incident keeps the node in sync.** -/
theorem Alive.step {t t' : Tracked} {i : Incident} (ha : Alive U limit base σ₀ t)
    (hkept : IncidentKept limit t i) (hstep : IncidentStep U limit base t i t') :
    Alive U limit base σ₀ t' := by
  have hc := ha.toAnchored
  have hall := ha.unforgotten
  cases hstep with
  | op hstep =>
    obtain ⟨hrows, hlog⟩ := hkept
    obtain ⟨hc', hall'⟩ := hc.logged hall hrows hlog hstep
    obtain ⟨t₁, hstep, rfl⟩ := hstep
    have hreaches := hlog.reaches hall hc.touched hstep.2
    have hwin := (ha.window.step hc hstep).1
    exact ⟨hc', hall', hwin.limitLog limit, (ha.covered.step hc hreaches hstep).limitLog hwin⟩
  | @restart m config s hrun hnew =>
    obtain ⟨htip, hat, hnomt⟩ := hc.shutdown hrun
    have htracks : NomtTracks base σ₀ m.exex.nomt t.ledger := by
      rw [hnomt]
      exact hc.nomt
    -- the head that a shutdown saves is that of NOMT
    refine Alive.resumed hc hall hnew htracks (fun _ => hnomt) hat fun _ => ?_
    have hhead := htracks.current.headBlock
    have hnumber : headNumber m.exex.db = (tipOf base t.ledger.blocks).1 := congrArg Prod.fst htip
    change m.exex.nomt.current.headBlock - headNumber m.exex.db ≤ _
    omega
  | @killed config s hnew => exact Alive.resumed hc hall hnew hc.nomt (fun _ => rfl) hc.saved hkept
  | @killedIn t₁ op w config s hop hw hnew =>
    obtain ⟨hop', hclean, hstart⟩ := hkept
    obtain ⟨hc₁, hall₁, -⟩ := hop'.reaches hc hall hop
    obtain ⟨hat, -, htracks⟩ := hc.killedIn hall hop hop' hw hclean
    refine Alive.resumed hc₁ hall₁ hnew htracks ?_ hat hstart
    rintro rfl
    exact (hop.leads hc hall hop' hw).2

/-! ### Lifetimes -/

/-- What holds of a node between incidents: it is at the tip of its chain with all stores
in sync.  A startup after a clean kill succeeds and loses at most as many blocks as the flush
interval, and they are in NOMT's log if the flush interval is no longer than the limit. -/
structure Lives (U : Ubt) (limit : Option ℕ) (base : ℕ × B256) (σ₀ : TreeKey → B256)
    (t : Tracked) : Prop where
  tip : (t.machine.exex.lastBlock, t.machine.exex.lastHash) = tipOf base t.ledger.blocks
  logical : t.machine.exex.logical = stateAfter σ₀ t.ledger.blocks
  nomt : NomtSynced t.machine.exex
  saved : AtBlock base σ₀ t.ledger.blocks t.machine.exex.db
  recovers : ∀ op t₁ w config, UnderWay U base t op t₁ → OpKept limit t op →
    w ∈ writesOf (op.run U) t.machine.exex → CleanKill w →
      ∃ s, UbtExEx.new U config (w.after.limitLog limit) = .ok s ∧
        s.lastBlock ≤ t₁.machine.exex.lastBlock ∧
        t₁.machine.exex.lastBlock ≤ s.lastBlock + max 1 t.machine.exex.flushInterval ∧
        ∀ l, limit = some l → max 1 t.machine.exex.flushInterval ≤ l →
          StartHolds limit (w.after.limitLog limit)

theorem Alive.lives {t : Tracked} (ha : Alive U limit base σ₀ t) : Lives U limit base σ₀ t where
  tip := ha.tip
  logical := ha.logical
  nomt := ha.nomtSynced
  saved := ha.saved
  recovers := by
    intro op t₁ w config hop hkept hw hclean
    have hc := ha.toAnchored
    obtain ⟨hc₁, -, hlength⟩ := hkept.reaches hc ha.unforgotten hop
    obtain ⟨hleads, hnomt⟩ := hop.leads hc ha.unforgotten hkept hw
    obtain ⟨hat, hroot, htracks⟩ := hc.killedIn ha.unforgotten hop hkept hw hclean
    have hstart : ∃ s, UbtExEx.new U config (w.after.limitLog limit) = .ok s :=
      (new_ok_iff U).mpr hroot
    obtain ⟨s, hnew⟩ := hstart
    have hblock : s.lastBlock = headNumber w.after.db := (restored_of_new hnew).lastBlock
    have hlast : t₁.machine.exex.lastBlock = (tipOf base t₁.ledger.blocks).1 :=
      congrArg Prod.fst hc₁.tip
    have hlost := hop.lost hc ha.window hc₁ hleads
    have hle : headNumber w.after.db ≤ (tipOf base t₁.ledger.blocks).1 :=
      (hat.drop_eq hc₁.linked).1
    refine ⟨s, hnew, by omega, by omega, ?_⟩
    rintro l rfl hinterval -
    have hcovered := ha.covered l rfl hinterval
    have hpers := hc.persisted
    have hhead := htracks.current.headBlock
    change (w.after.nomt.limitTo (some l)).current.headBlock - headNumber w.after.db ≤
      (w.after.nomt.limitTo (some l)).past.length
    change (w.after.nomt.limitTo (some l)).current.headBlock = _ at hhead
    rw [Versioned.length_past_limitTo_some, hnomt]
    rw [hnomt] at hhead
    -- the head is the old one, or that of the tip
    rcases hleads.headNumber_after with hold | hnewest
    · omega
    · omega

/-- A node that started over stores in sync is alive after any incidents. -/
theorem alive_run {config : UbtConfig} {disk : Disk} {s : UbtExEx}
    {h : List (Tracked × Incident)} {t : Tracked} (hnew : UbtExEx.new U config disk = .ok s)
    (hsync : InSync disk)
    (hrun : Run (IncidentStep U limit (headTip disk.db)) (.start ⟨s, []⟩) h t)
    (hkept : ∀ p ∈ h, IncidentKept limit p.1 p.2) :
    Alive U limit (headTip disk.db) disk.db.value t := by
  induction hrun with
  | nil =>
    have hr := restored_of_new hnew
    have hpers : s.lastPersistedBlock = s.lastBlock := by
      rw [hr.lastPersistedBlock, hr.lastBlock, hsync.exact.headBlock, Nat.min_self]
    exact ⟨.start hnew hsync, .start limit _, .fresh hpers, .fresh hpers⟩
  | snoc hr hs ih =>
    obtain ⟨hlast, hall⟩ := List.forall_mem_cons.mp hkept
    exact (ih hall).step hlast hs

/-- **Every lifetime with clean kills keeps all stores in sync**: from stores in sync on,
after any incidents, the node is at the tip of a chain of linked blocks with the state of
all of them, in MDBX with the blocks in memory and in NOMT, and it can be killed again.
Reverts and startups stay within the log that NOMT keeps. -/
theorem lifetimes {config : UbtConfig} {disk : Disk} {s : UbtExEx}
    {h : List (Tracked × Incident)} {t : Tracked} (hnew : UbtExEx.new U config disk = .ok s)
    (hsync : InSync disk)
    (hrun : Run (IncidentStep U limit (headTip disk.db)) (.start ⟨s, []⟩) h t)
    (hkept : ∀ p ∈ h, IncidentKept limit p.1 p.2) :
    Lives U limit (headTip disk.db) disk.db.value t :=
  (alive_run hnew hsync hrun hkept).lives

/-! ### A kill in the second commit -/

/-- The stores after a kill by the first durable write of the second commit, when NOMT can
undo one commit only. -/
def killedStores : Disk := secondCommitWrite.after.limitLog (some 1)

/-- The startup after the kill. -/
def startedAgain : UbtExEx :=
  (UbtExEx.restore ⟨1, 10⟩ killedStores killedStores.db.loadHead).syncNomt

theorem startedAgain_new : UbtExEx.new sampleUbt ⟨1, 10⟩ killedStores = .ok startedAgain :=
  (new_eq_ok_iff sampleUbt).mpr ⟨by decide +kernel, rfl⟩

theorem secondCommitWrite_clean : CleanKill secondCommitWrite := by
  constructor
  · intro hstep
    exact absurd hstep (by decide +kernel)
  · decide +kernel

/-- The startup rolls back the one commit that NOMT can undo. -/
theorem killedStores_reached : killedStores.nomt.current.headBlock - headNumber killedStores.db ≤
    killedStores.nomt.past.length := by
  decide +kernel

/-- The second block is lost. -/
theorem startedAgain_ledger :
    (secondCommitted.resumed startedAgain).ledger = staleCommitted.ledger := by
  have hlost : secondCommitted.machine.exex.lastBlock - startedAgain.lastBlock = 1 := by
    decide +kernel
  unfold Tracked.resumed
  rw [hlost]
  rfl

/-- A node that is killed after the first durable write of its second commit is at the first
block after the startup, which takes back the only commit that NOMT can undo. -/
theorem lifetimes_second_commit : ∃ s',
    UbtExEx.new sampleUbt ⟨1, 10⟩ killedStores = .ok s' ∧
      (secondCommitted.resumed s').ledger = staleCommitted.ledger ∧
        Lives sampleUbt (some 1) (0, 0) (UbtDatabase.value .empty) (secondCommitted.resumed s') := by
  have hrun : Run (IncidentStep sampleUbt (some 1) (0, 0)) (.start (.fresh ⟨1, 10⟩)) _
      (secondCommitted.resumed startedAgain) :=
    .snoc (.snoc .nil (.op (staleCommitted_logged (by decide))))
      (.killedIn (.commit secondCommitted_step) (List.get_mem _ ⟨5, by decide +kernel⟩)
        startedAgain_new)
  refine ⟨startedAgain, startedAgain_new, startedAgain_ledger,
    lifetimes (UbtExEx.new_empty sampleUbt ⟨1, 10⟩) inSync_empty hrun ?_⟩
  exact List.forall_mem_cons.mpr ⟨⟨trivial, secondCommitWrite_clean, fun _ => killedStores_reached⟩,
    List.forall_mem_cons.mpr ⟨⟨trivial, fun _ => trivial⟩, by simp⟩⟩

end UbtExex
