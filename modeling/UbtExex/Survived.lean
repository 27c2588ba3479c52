import UbtExex.Lifetimes
import UbtExex.Replica
import UbtExex.Served

/-!
# Nodes that were killed

What is exported from the stores of a node that was killed and restarted and at last shut
down.  Everything it has stored has its address and its bit at every durable write, so the
exports succeed; and they show only the canonical state at its block.  A node that was
killed any number of times exports the same as one that never was.

## Main definitions

* `Incident.Owned` — an incident whose commits have the entries of their owners.
* `Lifetime` — a node that lived through incidents.

## Main results

* `IncidentStep.sound` — every incident leaves stores that can be exported.
* `Lifetime.stored` — **after a lifetime a shutdown leaves the state of the chain.**
* `killed_nodes_agree` — **kills, restarts and reverts do not show in the exports.**
-/

open Std

namespace UbtExex

variable {U : Ubt} {own : Stem → Address} {base : ℕ × B256} {limit : Option ℕ}

/-! ### Incidents with owned entries -/

/-- The entries that are committed belong to the owners of their stems. -/
def Event.Owned (own : Stem → Address) : Event → Prop
  | .commit _ es => OwnedEntries own es
  | .revert _ => True

/-- The entries that are committed, also by an operation that is interrupted. -/
def Incident.Owned (own : Stem → Address) : Incident → Prop
  | .op e => e.Owned own
  | .killedIn interrupted _ _ => interrupted.Owned own
  | _ => True

/-- An event is an operation of the extension. -/
theorem ChainStep.sound {t t' : Tracked} {e : Event} (hs : Sound own t.machine)
    (hown : e.Owned own) (hstep : ChainStep U base t e t') : Sound own t'.machine := by
  cases hstep with
  | @commit m m' L hi b bs es root hlink hwrites hrun =>
    have hop : (Op.commit b.block.number b.block.hash es).Owned own := hown
    have hkeeps := keeps_run U hop m hs
    rw [Op.state_commit, hrun] at hkeeps
    exact hkeeps
  | @revert m m' L hi old hold hrun =>
    have hkeeps := keeps_revert U old m hs
    rw [hrun] at hkeeps
    exact hkeeps

/-- **Every incident leaves stores that can be exported**, wherever the process is killed. -/
theorem IncidentStep.sound {t t' : Tracked} {i : Incident} (hs : Sound own t.machine)
    (hown : i.Owned own) (hstep : IncidentStep U limit base t i t') : Sound own t'.machine := by
  cases hstep with
  | op hstep =>
    obtain ⟨t₁, hstep, rfl⟩ := hstep
    exact (hstep.2.sound hs hown).limitLog limit
  | restart hrun hnew => exact (StoredAt.of_shutdown hs hrun).exportable.sound_new hnew
  | killed hnew => exact hs.held.toExportable.sound_new hnew
  | @killedIn t₁ op w config s hop hw hnew =>
    -- the operation runs over an empty journal, all of whose writes are sound
    have hempty : Sound own ⟨t.machine.exex, []⟩ := ⟨hs.held, by simp⟩
    have hkeeps := keeps_run U hown _ hempty
    exact ((hkeeps.writes w hw).limitLog limit).sound_new hnew

/-- **Every lifetime** leaves stores that can be exported. -/
theorem lifetime_sound {h : List (Tracked × Incident)} {t₀ t : Tracked}
    (hs : Sound own t₀.machine) (hrun : Run (IncidentStep U limit base) t₀ h t)
    (hown : ∀ p ∈ h, p.2.Owned own) : Sound own t.machine := by
  induction hrun with
  | nil => exact hs
  | snoc hr hstep ih =>
    obtain ⟨hlast, hall⟩ := List.forall_mem_cons.mp hown
    exact hstep.sound (ih hall) hlast

/-! ### The stores after a lifetime -/

/-- A node that started over stores in sync, and lived through incidents with clean kills,
from its start up to now. -/
structure Lifetime (U : Ubt) (own : Stem → Address) (limit : Option ℕ) (disk : Disk)
    (t : Tracked) : Prop where
  sync : InSync disk
  exportable : Exportable own disk
  run : ∃ config s h, UbtExEx.new U config disk = .ok s ∧
    Run (IncidentStep U limit (headTip disk.db)) (.start ⟨s, []⟩) h t ∧
      ∀ p ∈ h, IncidentKept limit p.1 p.2 ∧ p.2.Owned own

/-- **After a lifetime a shutdown leaves the state of the chain**, at its newest block, in
stores that can be exported. -/
theorem Lifetime.stored {disk : Disk} {t : Tracked} {m : Machine}
    (hl : Lifetime U own limit disk t)
    (hstop : shutdown U t.machine = .ok () m) :
    StoredAt U own (tipOf (headTip disk.db) t.ledger.blocks)
      (stateAfter disk.db.value t.ledger.blocks) m.exex.toDisk := by
  obtain ⟨config, s, h, hnew, hrun, hkept⟩ := hl.run
  have halive := alive_run hnew hl.sync hrun fun p hp => (hkept p hp).1
  have hstart : Sound own (Tracked.start ⟨s, []⟩).machine := hl.exportable.sound_new hnew
  have hsound := lifetime_sound hstart hrun fun p hp => (hkept p hp).2
  have htip : t.machine.tip = tipOf (headTip disk.db) t.ledger.blocks := halive.tip
  have hstored := StoredAt.of_shutdown hsound hstop
  rw [halive.logical, htip] at hstored
  exact hstored

/-- **Kills, restarts and reverts do not show in the exports.**  Two nodes that were shut
down after any lifetimes have the same root and export the same files, byte by byte, if they
are at the same block and the blocks of their chains lead to the same state. -/
theorem killed_nodes_agree {limit' : Option ℕ} {disk disk' : Disk} {t t' : Tracked}
    {m m' : Machine} (hl : Lifetime U own limit disk t) (hstop : shutdown U t.machine = .ok () m)
    (hl' : Lifetime U own limit' disk' t') (hstop' : shutdown U t'.machine = .ok () m')
    (hblock : tipOf (headTip disk.db) t.ledger.blocks = tipOf (headTip disk'.db) t'.ledger.blocks)
    (hstate : stateAfter disk.db.value t.ledger.blocks =
      stateAfter disk'.db.value t'.ledger.blocks) :
    computeRoot U m.exex.db = computeRoot U m'.exex.db ∧ ∀ chainId dir,
      SameExport (exportFullStateFromMdbx chainId) m.exex.toDisk m'.exex.toDisk dir ∧
        ∀ contract, SameExport (exportContractStateFromMdbx contract chainId) m.exex.toDisk
          m'.exex.toDisk dir := by
  have hstored := hl.stored hstop
  have hstored' := hl'.stored hstop'
  rw [← hblock, ← hstate] at hstored'
  refine ⟨computeRoot_of_value (hstored.value.trans hstored'.value.symm), fun chainId dir => ?_⟩
  constructor
  · exact hstored.sameExport hstored' _ _ _ chainId dir
  · exact fun contract => hstored.sameExport hstored' _ _ _ chainId dir

/-! ### A node that was killed, and one that was not -/

/-- The node that was killed commits the second block again. -/
def killedNode : Tracked :=
  (secondCommitted.resumed startedAgain).afterCommit sampleUbt (slotBlock block2 2) [slotEntry 2]

/-- A node that commits the first block, and does not flush it. -/
def quietFirst : Tracked :=
  (Tracked.start (.fresh ⟨5, 10⟩)).afterCommit sampleUbt (slotBlock block1 1) [slotEntry 1]

/-- The same node commits the second block. -/
def quietNode : Tracked := quietFirst.afterCommit sampleUbt (slotBlock block2 2) [slotEntry 2]

theorem killedNode_lifetime : Lifetime sampleUbt (fun _ => 7) (some 1) .empty killedNode where
  sync := inSync_empty
  exportable := exportable_empty _
  run := by
    have hstep : SingleStep sampleUbt (0, 0) (secondCommitted.resumed startedAgain)
        (.commit [slotBlock block2 2] [slotEntry 2]) killedNode := by
      refine Tracked.afterCommit_step ⟨?_, ?_, trivial⟩ (fun _ => rfl) ?_
      · decide +kernel
      · decide +kernel
      · decide +kernel
    have hlogged : LoggedStep sampleUbt (some 1) (0, 0) (secondCommitted.resumed startedAgain)
        (.commit [slotBlock block2 2] [slotEntry 2]) killedNode := by
      refine .of_short hstep ?_
      rintro l ⟨⟩
      decide +kernel
    have hrun : Run (IncidentStep sampleUbt (some 1) (0, 0)) (.start (.fresh ⟨1, 10⟩)) _ killedNode :=
      .snoc (.snoc (.snoc .nil (.op (staleCommitted_logged (by decide))))
        (.killedIn (.commit secondCommitted_step) (List.get_mem _ ⟨5, by decide +kernel⟩)
          startedAgain_new)) (.op hlogged)
    refine ⟨⟨1, 10⟩, _, _, UbtExEx.new_empty sampleUbt ⟨1, 10⟩, hrun, ?_⟩
    refine List.forall_mem_cons.mpr ⟨⟨⟨trivial, fun _ => trivial⟩, slotEntry_owned 2⟩,
      List.forall_mem_cons.mpr
        ⟨⟨⟨trivial, secondCommitWrite_clean, fun _ => killedStores_reached⟩, slotEntry_owned 2⟩,
          List.forall_mem_cons.mpr ⟨⟨⟨trivial, fun _ => trivial⟩, slotEntry_owned 1⟩, by simp⟩⟩⟩

theorem quietNode_lifetime : Lifetime sampleUbt (fun _ => 7) none .empty quietNode where
  sync := inSync_empty
  exportable := exportable_empty _
  run := by
    have hfirst : SingleStep sampleUbt (0, 0) (.start (.fresh ⟨5, 10⟩))
        (.commit [slotBlock block1 1] [slotEntry 1]) quietFirst :=
      Tracked.afterCommit_step ⟨rfl, rfl, trivial⟩ (fun _ => rfl) (by decide +kernel)
    have hsecond : SingleStep sampleUbt (0, 0) quietFirst
        (.commit [slotBlock block2 2] [slotEntry 2]) quietNode :=
      Tracked.afterCommit_step ⟨rfl, rfl, trivial⟩ (fun _ => rfl) (by decide +kernel)
    have hrun : Run (IncidentStep sampleUbt none (0, 0)) (.start (.fresh ⟨5, 10⟩)) _ quietNode :=
      .snoc (.snoc .nil (.op ⟨_, hfirst, rfl⟩)) (.op ⟨_, hsecond, rfl⟩)
    refine ⟨⟨5, 10⟩, _, _, UbtExEx.new_empty sampleUbt ⟨5, 10⟩, hrun, ?_⟩
    exact List.forall_mem_cons.mpr ⟨⟨⟨trivial, fun _ => trivial⟩, slotEntry_owned 2⟩,
      List.forall_mem_cons.mpr ⟨⟨⟨trivial, fun _ => trivial⟩, slotEntry_owned 1⟩, by simp⟩⟩

/-- The node that was killed exports what the other one exports. -/
theorem killed_nodes_agree_second_commit :
    let m := (shutdown sampleUbt killedNode.machine).state
    let m' := (shutdown sampleUbt quietNode.machine).state
    computeRoot sampleUbt m.exex.db = computeRoot sampleUbt m'.exex.db ∧ ∀ chainId dir,
      SameExport (exportFullStateFromMdbx chainId) m.exex.toDisk m'.exex.toDisk dir ∧
        ∀ contract, SameExport (exportContractStateFromMdbx contract chainId) m.exex.toDisk
          m'.exex.toDisk dir := by
  have hledger : killedNode.ledger.blocks = quietNode.ledger.blocks := by
    unfold killedNode Tracked.afterCommit
    rw [Ledger.blocks_cons, startedAgain_ledger]
    rfl
  refine killed_nodes_agree killedNode_lifetime (shutdown_eq_ok _ _) quietNode_lifetime
    (shutdown_eq_ok _ _) ?_ ?_
  · rw [hledger]
  · rw [hledger]

end UbtExex
