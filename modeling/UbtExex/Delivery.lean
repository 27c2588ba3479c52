import UbtExex.Accounts
import UbtExex.Exportable
import UbtExex.Incremental

/-!
# From bundles to the stores

The chains that the node is notified of, through `process_chain`, commits and reverts,
to the stores that a shutdown leaves.  Chains may have any number of blocks and may be
reverted and replaced as long as no commit is cut; then neither the reverts nor the
flush interval show, and the stores have the last writes of the bundles that are still
canonical.

The node does not look at the parent of the first chain it is notified of, so here the
chain starts from any base; the machine is at the tip once a chain was committed.

## Main definitions

* `Chain.canonical` — the blocks of a chain, with the writes of its bundle.
* `Standing`, `Delivery` — a node with the canonical chains, and one notification.
* `DeliveryKept` — the condition on a notification, before it is handled.
* `StoredAt` — stores that hold a state at a block.

## Main results

* `Delivery.noteStep` — deliveries are notifications to the main loop.
* `Delivered.step` — one notification.
* `delivered_shutdown` — **a shutdown leaves the state of the canonical bundles.**
-/

open Std

namespace UbtExex

/-! ### Chains as blocks -/

/-- The blocks of a chain, newest first.  A bundle is what all of them wrote, so its
writes are under the tip. -/
def Chain.canonical (U : Ubt) (c : Chain) : List CanonicalBlock :=
  ⟨c.tip, (chainEntries U c.bundle).map PendingEntry.write⟩ ::
    c.blocks.dropLast.reverse.map fun block => ⟨block, []⟩

/-- The number and the hash of the tip. -/
def Chain.tipBlock (c : Chain) : ℕ × B256 := (c.tip.number, c.tip.hash)

variable {U : Ubt}

theorem Chain.map_block_canonical (c : Chain) :
    (c.canonical U).map CanonicalBlock.block = c.blocks.reverse := by
  have hsplit : c.blocks.dropLast ++ [c.tip] = c.blocks :=
    List.dropLast_append_getLast c.blocks_ne_nil
  unfold canonical
  rw [List.map_cons, List.map_map]
  have hid : CanonicalBlock.block ∘ (fun block => (⟨block, []⟩ : CanonicalBlock)) = id := rfl
  rw [hid, List.map_id]
  conv_rhs => rw [← hsplit, List.reverse_append]
  rfl

theorem Chain.blockWrites_canonical (c : Chain) :
    blockWrites (c.canonical U) = (chainEntries U c.bundle).map PendingEntry.write := by
  unfold blockWrites canonical
  rw [List.reverse_cons, List.flatMap_append, List.flatMap_singleton]
  have hnone : (c.blocks.dropLast.reverse.map fun block =>
      (⟨block, []⟩ : CanonicalBlock)).reverse.flatMap CanonicalBlock.writes = [] := by
    rw [List.flatMap_eq_nil_iff]
    intro b hb
    obtain ⟨block, -, rfl⟩ := List.mem_map.mp (List.mem_reverse.mp hb)
    rfl
  rw [hnone, List.nil_append]

/-- The blocks of chains, newest first. -/
def canonicalBlocks (U : Ubt) (cs : List Chain) : List CanonicalBlock :=
  cs.reverse.flatMap (Chain.canonical U)

theorem canonicalBlocks_append (cs cs' : List Chain) :
    canonicalBlocks U (cs ++ cs') = canonicalBlocks U cs' ++ canonicalBlocks U cs := by
  unfold canonicalBlocks
  rw [List.reverse_append, List.flatMap_append]

theorem canonicalBlocks_singleton (c : Chain) : canonicalBlocks U [c] = c.canonical U :=
  List.flatMap_singleton _ _

/-- The canonical blocks are those of the chains. -/
theorem map_block_canonicalBlocks (cs : List Chain) :
    (canonicalBlocks U cs).map CanonicalBlock.block = (cs.flatMap Chain.blocks).reverse := by
  induction cs with
  | nil => rfl
  | cons c cs ih =>
    have hsplit : canonicalBlocks U (c :: cs) = canonicalBlocks U cs ++ c.canonical U := by
      rw [← canonicalBlocks_singleton, ← canonicalBlocks_append]
      rfl
    rw [hsplit, List.map_append, ih, c.map_block_canonical, List.flatMap_cons, List.reverse_append]

/-- The writes of canonical blocks are those of the bundles, under the keys of their
items. -/
theorem blockWrites_canonicalBlocks (cs : List Chain) :
    blockWrites (canonicalBlocks U cs) =
      (chainsItems U cs).map fun w => (U.key w.1.1 w.1.2, w.2) := by
  induction cs with
  | nil => rfl
  | cons c cs ih =>
    have hsplit : canonicalBlocks U (c :: cs) = canonicalBlocks U cs ++ c.canonical U := by
      rw [← canonicalBlocks_singleton, ← canonicalBlocks_append]
      rfl
    have hitems : chainsItems U (c :: cs) = bundleItems U c.bundle ++ chainsItems U cs :=
      List.flatMap_cons
    have happend : blockWrites (canonicalBlocks U cs ++ c.canonical U) =
        blockWrites (c.canonical U) ++ blockWrites (canonicalBlocks U cs) := by
      unfold blockWrites
      rw [List.reverse_append, List.flatMap_append]
    rw [hsplit, happend, ih, c.blockWrites_canonical, chainEntries_write, hitems, List.map_append]

/-- The state after canonical chains over empty stores. -/
def chainsState (U : Ubt) (cs : List Chain) : TreeKey → B256 :=
  Writes.applyAll (fun _ => 0) ((chainsItems U cs).map fun w => (U.key w.1.1 w.1.2, w.2))

theorem stateAfter_canonicalBlocks (cs : List Chain) :
    stateAfter (fun _ => 0) (canonicalBlocks U cs) = chainsState U cs := by
  have h := stateAfter_append (fun _ => 0) (canonicalBlocks U cs) []
  rw [List.append_nil] at h
  rw [h, blockWrites_canonicalBlocks]
  rfl

/-! ### Notifications -/

/-- A node, and the chains that are canonical, in the order of their blocks. -/
structure Standing where
  node : Tracked
  chains : List Chain

/-- A node with fresh stores. -/
def Standing.fresh (config : UbtConfig) : Standing := ⟨.start (.fresh config), []⟩

/-- One notification.  What is reverted is the newest of the canonical chains, whole. -/
inductive Delivery (U : Ubt) (base : ℕ × B256) : Standing → Notification → Standing → Prop
  | chainCommitted {t t' : Tracked} {kept : List Chain} {new : Chain}
      (hstep : ChainStep U base t (.commit (new.canonical U) (chainEntries U new.bundle)) t') :
      Delivery U base ⟨t, kept⟩ (.chainCommitted new) ⟨t', kept ++ [new]⟩
  | chainReorged {t t₁ t' : Tracked} {kept gone : List Chain} {old new : Chain}
      (hgone : old.blocks = gone.flatMap Chain.blocks)
      (hold : ChainStep U base t (.revert old) t₁)
      (hstep : ChainStep U base t₁ (.commit (new.canonical U) (chainEntries U new.bundle)) t') :
      Delivery U base ⟨t, kept ++ gone⟩ (.chainReorged old new) ⟨t', kept ++ [new]⟩
  | chainReverted {t t' : Tracked} {kept gone : List Chain} {old : Chain}
      (hgone : old.blocks = gone.flatMap Chain.blocks)
      (hold : ChainStep U base t (.revert old) t') :
      Delivery U base ⟨t, kept ++ gone⟩ (.chainReverted old) ⟨t', kept⟩

/-- **A delivery is a notification to the main loop.** -/
theorem Delivery.noteStep {base : ℕ × B256} {s s' : Standing} {note : Notification}
    (h : Delivery U base s note s') : NoteStep U base s.node note s'.node := by
  cases h with
  | @chainCommitted _ _ _ new hstep => exact .chainCommitted new.map_block_canonical hstep
  | @chainReorged _ _ _ _ _ _ new _ hold hstep =>
    exact .chainReorged hold new.map_block_canonical hstep
  | chainReverted _ hold => exact .chainReverted hold

/-- The rows of the reverted blocks are those their commits recorded. -/
def Standing.RowsFound (s : Standing) (old : Chain) : Prop :=
  s.node.ledger.RowsRecorded s.node.machine.exex.db old.blocks.length

/-- The condition on a notification: the entries that it commits have one address for each
stem, and the rows that it needs to revert are found. -/
def DeliveryKept (U : Ubt) (own : Stem → Address) (s : Standing) : Notification → Prop
  | .chainCommitted new => OwnedEntries own (chainEntries U new.bundle)
  | .chainReorged old new => s.RowsFound old ∧ OwnedEntries own (chainEntries U new.bundle)
  | .chainReverted old => s.RowsFound old

/-! ### One notification -/

/-- After the canonical chains: each of them is a commit of the ledger, the machine has
their state and can undo it, and everything persisted can be exported. -/
structure Delivered (U : Ubt) (own : Stem → Address) (base : ℕ × B256) (s : Standing) : Prop where
  pending : s.node.machine.exex.pendingEntries = []
  linked : Linked base s.node.ledger.blocks
  aligned : s.node.ledger.map LedgerEntry.blocks = s.chains.reverse.map (Chain.canonical U)
  logical : s.node.machine.exex.logical = stateAfter (fun _ => 0) s.node.ledger.blocks
  undoable : s.node.ledger.Undoable fun _ => 0
  sound : Sound own s.node.machine
  owned : ∀ c ∈ s.chains, OwnedEntries own (chainEntries U c.bundle)
  tip : ∀ c ∈ s.chains.getLast?, s.node.machine.tip = c.tipBlock

namespace Delivered

variable {own : Stem → Address} {base : ℕ × B256}

theorem fresh (config : UbtConfig) : Delivered U own base (.fresh config) where
  pending := rfl
  linked := trivial
  aligned := rfl
  logical := funext fun key => logical_fresh config key
  undoable := trivial
  sound := (exportable_empty own).sound_new (UbtExEx.new_empty U config)
  owned c hc := by cases hc
  tip c hc := by cases hc

variable {t t' : Tracked} {kept gone : List Chain}

/-- The canonical blocks are those of the ledger. -/
theorem blocks_eq {s : Standing} (h : Delivered U own base s) :
    s.node.ledger.blocks = canonicalBlocks U s.chains := by
  unfold Ledger.blocks canonicalBlocks
  rw [List.flatMap_def, h.aligned, List.flatMap_def]

theorem blocks_ne_nil {s : Standing} (h : Delivered U own base s) :
    ∀ c ∈ s.node.ledger, c.blocks ≠ [] := by
  intro c hc
  have hmem : c.blocks ∈ s.chains.reverse.map (Chain.canonical U) := by
    rw [← h.aligned]
    exact List.mem_map_of_mem hc
  obtain ⟨chain, -, heq⟩ := List.mem_map.mp hmem
  rw [← heq]
  exact List.cons_ne_nil _ _

/-- A commit of a chain. -/
theorem commit (h : Delivered U own base ⟨t, kept⟩) {new : Chain}
    (hown : OwnedEntries own (chainEntries U new.bundle))
    (hstep : ChainStep U base t (.commit (new.canonical U) (chainEntries U new.bundle)) t') :
    Delivered U own base ⟨t', kept ++ [new]⟩ := by
  have hblocks := new.map_block_canonical (U := U)
  generalize hcanonical : new.canonical U = bs at hstep hblocks
  cases hstep with
  | @commit m m' L hi b bs es root hlink hwrites hrun =>
    have hcom := commit_ok U hrun
    have htip : new.tip = b.block := tip_eq_of_blocks hblocks
    have hlogical : m'.exex.logical = stateAfter (fun _ => 0) (b :: bs ++ L.blocks) := by
      rw [hcom.logical, pendingWrites_push h.pending, Writes.applyAll_congr hwrites,
        stateAfter_append, ← h.logical]
      rfl
    refine ⟨hcom.pendingEntries, linked_append.mpr ⟨h.linked, hlink⟩, ?_, hlogical, ?_, ?_, ?_, ?_⟩
    · have haligned : L.map LedgerEntry.blocks = kept.reverse.map (Chain.canonical U) := h.aligned
      dsimp only
      rw [List.map_cons, haligned, List.reverse_append, List.map_append, List.reverse_singleton,
        List.map_singleton, hcanonical]
      rfl
    · -- the undo log was taken over the state of the ledger
      refine ⟨List.cons_ne_nil _ _, ?_, h.undoable⟩
      change Writes.applyAll (stateAfter (fun _ => 0) (b :: bs ++ L.blocks)) _ =
        stateAfter (fun _ => 0) L.blocks
      rw [← hlogical, hcom.logical, applyAll_pendingUndo, ← h.logical]
      rfl
    · have hop : (Op.commit b.block.number b.block.hash (chainEntries U new.bundle)).Owned own :=
        hown
      have hkeeps := keeps_run U hop m h.sound
      rw [Op.state_commit, hrun] at hkeeps
      exact hkeeps
    · intro c hc
      rcases List.mem_append.mp hc with hc | hc
      · exact h.owned c hc
      · obtain rfl := List.mem_singleton.mp hc
        exact hown
    · intro c hc
      rw [List.getLast?_append, List.getLast?_singleton, Option.some_or] at hc
      obtain rfl := Option.mem_some.mp hc
      unfold Machine.tip Chain.tipBlock
      rw [hcom.lastBlock, hcom.lastHash, htip]

/-- A chain that is reverted has the blocks of the newest commits. -/
theorem length_gone {s : Standing} (h : Delivered U own base s) {old : Chain}
    (hchains : s.chains = kept ++ gone) (hgone : old.blocks = gone.flatMap Chain.blocks) :
    old.blocks.length = (Ledger.blocks (s.node.ledger.take gone.length)).length := by
  have htake : (s.node.ledger.take gone.length).map LedgerEntry.blocks =
      gone.reverse.map (Chain.canonical U) := by
    rw [List.map_take, h.aligned, hchains, List.reverse_append, List.map_append]
    exact List.take_left' (by simp)
  have hblocks : Ledger.blocks (s.node.ledger.take gone.length) = canonicalBlocks U gone := by
    unfold Ledger.blocks canonicalBlocks
    rw [List.flatMap_def, htake, List.flatMap_def]
  have hlength := congrArg List.length (map_block_canonicalBlocks (U := U) gone)
  rw [List.length_map, List.length_reverse] at hlength
  rw [hblocks, hlength, hgone]

/-- A revert of whole chains. -/
theorem revert (h : Delivered U own base ⟨t, kept ++ gone⟩) {old : Chain}
    (hgone : old.blocks = gone.flatMap Chain.blocks)
    (hrows : t.ledger.RowsRecorded t.machine.exex.db old.blocks.length)
    (hstep : ChainStep U base t (.revert old) t') : Delivered U own base ⟨t', kept⟩ := by
  have hlength : old.blocks.length = (Ledger.blocks (t.ledger.take gone.length)).length :=
    h.length_gone rfl hgone
  cases hstep with
  | @revert m m' L hi old hold hrun =>
    have hr := revert_ok U hrun
    have hdrop : L.dropBlocks old.blocks.length = L.drop gone.length := by
      rw [hlength]
      exact Ledger.dropBlocks_take h.blocks_ne_nil gone.length
    have hcut : L.CutClean (fun _ => 0) old.blocks.length := by
      rw [hlength]
      exact Ledger.cutClean_take L gone.length
    have haligned : (L.drop gone.length).map LedgerEntry.blocks =
        kept.reverse.map (Chain.canonical U) := by
      have hall : L.map LedgerEntry.blocks = (kept ++ gone).reverse.map (Chain.canonical U) :=
        h.aligned
      rw [List.map_drop, hall, List.reverse_append, List.map_append]
      exact List.drop_left' (by simp)
    have hlogical : m'.exex.logical =
        stateAfter (fun _ => 0) (L.dropBlocks old.blocks.length).blocks := by
      have hbefore : m.exex.logical = stateAfter (fun _ => 0) L.blocks := h.logical
      rw [hr.logical, numbers_reverted hold, hbefore,
        Ledger.applyAll_storedUndo h.undoable h.linked hrows, Ledger.cutClean_iff.mp hcut,
        L.blocks_dropBlocks]
    refine ⟨hr.pendingEntries.trans h.pending, ?_, ?_, hlogical, h.undoable.dropBlocks hcut,
      ?_, ?_, ?_⟩
    · dsimp only
      rw [L.blocks_dropBlocks]
      exact h.linked.drop _
    · dsimp only
      rw [hdrop]
      exact haligned
    · have hkeeps := keeps_revert U old m h.sound
      rw [hrun] at hkeeps
      exact hkeeps
    · exact fun c hc => h.owned c (List.mem_append_left _ hc)
    · intro c hc
      -- the newest commit that is left is that of the newest chain that is left
      have htip := tip_dropped h.linked hold
      have hblocks : L.blocks.drop old.blocks.length = canonicalBlocks U kept := by
        rw [← L.blocks_dropBlocks, hdrop]
        unfold Ledger.blocks canonicalBlocks
        rw [List.flatMap_def, haligned, List.flatMap_def]
      obtain ⟨before, rfl⟩ := List.getLast?_eq_some_iff.mp hc
      rw [hblocks, canonicalBlocks_append, canonicalBlocks_singleton] at htip
      unfold Machine.tip
      rw [hr.lastBlock, hr.lastHash, ← htip]
      rfl

/-- **One notification.** -/
theorem step {s s' : Standing} {note : Notification} (h : Delivered U own base s)
    (hkept : DeliveryKept U own s note) (hstep : Delivery U base s note s') :
    Delivered U own base s' := by
  cases hstep with
  | chainCommitted hstep => exact h.commit hkept hstep
  | chainReorged hgone hold hstep =>
    have h₁ := h.revert hgone hkept.1 hold
    exact h₁.commit hkept.2 hstep
  | chainReverted hgone hold => exact h.revert hgone hkept hold

end Delivered

/-! ### Steps from functions -/

/-- A node after it is notified of a chain. -/
def Standing.deliver (U : Ubt) (s : Standing) (new : Chain) : Standing where
  node :=
    { machine := (commitEntries U new.tip.number new.tip.hash (chainEntries U new.bundle)
        s.node.machine).state
      ledger := ⟨new.canonical U,
        (s.node.machine.push (chainEntries U new.bundle)).exex.pendingUndo⟩ :: s.node.ledger
      highest := if s.node.machine.exex.shouldFlush new.tip.number then
        max s.node.highest new.tip.number else s.node.highest }
  chains := s.chains ++ [new]

/-- The commit of a chain that extends the tip. -/
theorem Standing.chainStep_deliver {base : ℕ × B256} {s : Standing} {new : Chain}
    (hlink : Linked (tipOf base s.node.ledger.blocks) (new.canonical U))
    (hok : (commitEntries U new.tip.number new.tip.hash (chainEntries U new.bundle)
      s.node.machine).isOk = true) :
    ChainStep U base s.node (.commit (new.canonical U) (chainEntries U new.bundle))
      (s.deliver U new).node := by
  obtain ⟨root, hrun⟩ := EStateM.Result.exists_ok hok
  refine ChainStep.commit hlink (fun key => ?_) hrun
  exact congrArg (fun ws => Writes.lastWrite ws key) (new.blockWrites_canonical (U := U)).symm

theorem Standing.deliver_committed {base : ℕ × B256} {s : Standing} {new : Chain}
    (hlink : Linked (tipOf base s.node.ledger.blocks) (new.canonical U))
    (hok : (commitEntries U new.tip.number new.tip.hash (chainEntries U new.bundle)
      s.node.machine).isOk = true) : Delivery U base s (.chainCommitted new) (s.deliver U new) :=
  .chainCommitted (chainStep_deliver hlink hok)

/-- A node after whole chains are reverted. -/
def Standing.takeBack (U : Ubt) (s : Standing) (kept : List Chain) (old : Chain) : Standing :=
  ⟨s.node.afterRevert U old, kept⟩

theorem Standing.deliver_reorged {base : ℕ × B256} {s : Standing} {kept gone : List Chain}
    {old new : Chain} (hchains : s.chains = kept ++ gone)
    (hgone : old.blocks = gone.flatMap Chain.blocks)
    (hold : (s.node.ledger.blocks.take old.blocks.length).map CanonicalBlock.block =
      old.blocks.reverse)
    (hlink : Linked (tipOf base (s.takeBack U kept old).node.ledger.blocks) (new.canonical U))
    (hok : (commitEntries U new.tip.number new.tip.hash (chainEntries U new.bundle)
      (s.takeBack U kept old).node.machine).isOk = true) :
    Delivery U base s (.chainReorged old new) ((s.takeBack U kept old).deliver U new) := by
  obtain ⟨t, chains⟩ := s
  obtain rfl : chains = kept ++ gone := hchains
  exact .chainReorged hgone (.revert hold (revert_eq_ok U _ _)) (chainStep_deliver hlink hok)

/-! ### Runs -/

/-- Stores that hold a state at a block: the stored values are those of the state, under
the owners of their stems, and the head has the root of the stored stems. -/
structure StoredAt (U : Ubt) (own : Stem → Address) (block : ℕ × B256) (σ : TreeKey → B256)
    (d : Disk) : Prop where
  exportable : Exportable own d
  value : d.db.value = σ
  head : ∃ stemCount, d.db.loadHead = some ⟨block.1, block.2, computeRoot U d.db, stemCount⟩

/-- A shutdown stores the state of the last block. -/
theorem StoredAt.of_shutdown {own : Stem → Address} {m m' : Machine} (hs : Sound own m)
    (hstop : shutdown U m = .ok () m') :
    StoredAt U own m.tip m.exex.logical m'.exex.toDisk := by
  obtain ⟨m₁, hrun, -, hvalue, -, ⟨stemCount, hhead⟩, -⟩ := shutdown_spec U m
  obtain rfl : m₁ = m' := by
    injection hrun.symm.trans hstop
  have hop : Op.shutdown.Owned own := trivial
  have hkeeps := keeps_run U hop m hs
  change Sound own (shutdown U m).state at hkeeps
  rw [hstop] at hkeeps
  exact ⟨hkeeps.held.toExportable, hvalue, stemCount, hhead⟩

/-- **A shutdown leaves the state of the canonical bundles**, at the tip of the last chain,
whatever was reverted and replaced before. -/
theorem delivered_shutdown {own : Stem → Address} {base : ℕ × B256} {config : UbtConfig}
    {h : List (Standing × Notification)} {s : Standing} {c : Chain} {m : Machine}
    (hrun : Run (Delivery U base) (.fresh config) h s)
    (hkept : ∀ p ∈ h, DeliveryKept U own p.1 p.2) (hlast : s.chains.getLast? = some c)
    (hstop : shutdown U s.node.machine = .ok () m) :
    (∀ c ∈ s.chains, OwnedEntries own (chainEntries U c.bundle)) ∧
      StoredAt U own c.tipBlock (chainsState U s.chains) m.exex.toDisk := by
  have hfresh : Delivered U own base (.fresh config) := .fresh config
  obtain ⟨hs, -⟩ := hrun.invariant hfresh (fun _ _ _ hi hcond hstep => hi.step hcond hstep) hkept
  have hlogical : s.node.machine.exex.logical = chainsState U s.chains := by
    rw [hs.logical, hs.blocks_eq, stateAfter_canonicalBlocks]
  have htip := hs.tip c hlast
  have hstored := StoredAt.of_shutdown hs.sound hstop
  rw [htip, hlogical] at hstored
  exact ⟨hs.owned, hstored⟩

end UbtExex
