import UbtExex.Lib.Run
import UbtExex.Ledger

/-!
# Following a chain

The runs the extension goes through: chains are committed on top of the current tip,
and newest blocks of the canonical chain are reverted, in any grouping.  The machine
runs next to the ledger of what is canonical, which is not part of the program: it
says what the state ought to be.

## Main definitions

* `Tracked` — a machine with the ledger it follows.
* `ChainStep` — one commit or one revert.
* `NoteStep` — one notification, handled as the main loop does.

## Main results

* `NoteStep.handle_eq`, `NoteStep.of_handle` — **notifications are exactly what
  `handle` does to the machine.**
* `Following.step` — the machine's last block is the tip of the canonical chain.
-/

open Std

namespace UbtExex

/-! ### Steps -/

/-- Push entries, as `process_chain` does. -/
def Machine.push (m : Machine) (entries : List PendingEntry) : Machine :=
  m.update fun s => { s with pendingEntries := s.pendingEntries ++ entries }

variable (U : Ubt)

/-- Push entries and commit them. -/
def commitEntries (n : ℕ) (hash : B256) (entries : List PendingEntry) : ExM B256 := fun m =>
  commit U n hash (m.push entries)

/-- A machine, the ledger it follows, and the greatest block it ever flushed. -/
structure Tracked where
  machine : Machine
  ledger : Ledger
  highest : ℕ

/-- What happens to a machine. -/
inductive Event
  /-- A chain of blocks, newest first, is committed with the entries of its bundle. -/
  | commit (blocks : List CanonicalBlock) (entries : List PendingEntry)
  /-- A chain is reverted. -/
  | revert (old : Chain)

/-- One commit or revert, over a chain that starts at `base`. -/
inductive ChainStep (base : ℕ × B256) : Tracked → Event → Tracked → Prop
  /-- The blocks extend the tip, and the entries hold the final value of each key
  that the blocks write. -/
  | commit {m m' : Machine} {L : Ledger} {hi : ℕ} {b : CanonicalBlock} {bs : List CanonicalBlock}
      {es : List PendingEntry} {root : B256}
      (hlink : Linked (tipOf base L.blocks) (b :: bs))
      (hwrites : ∀ key, Writes.lastWrite (es.map PendingEntry.write) key =
        Writes.lastWrite (blockWrites (b :: bs)) key)
      (hrun : commitEntries U b.block.number b.block.hash es m = .ok root m') :
      ChainStep base ⟨m, L, hi⟩ (.commit (b :: bs) es)
        ⟨m', ⟨b :: bs, (m.push es).exex.pendingUndo⟩ :: L,
          if m.exex.shouldFlush b.block.number then max hi b.block.number else hi⟩
  /-- The reverted blocks are the newest ones. -/
  | revert {m m' : Machine} {L : Ledger} {hi : ℕ} {old : Chain}
      (hold : (L.blocks.take old.blocks.length).map CanonicalBlock.block = old.blocks.reverse)
      (hrun : revert U old m = .ok () m') :
      ChainStep base ⟨m, L, hi⟩ (.revert old) ⟨m', L.dropBlocks old.blocks.length, hi⟩

/-- One notification: a chain is committed, reverted, or replaced by another one. -/
inductive NoteStep (base : ℕ × B256) : Tracked → Notification → Tracked → Prop
  | chainCommitted {t t' : Tracked} {new : Chain} {bs : List CanonicalBlock}
      (hnew : bs.map CanonicalBlock.block = new.blocks.reverse)
      (hstep : ChainStep U base t (.commit bs (chainEntries U new.bundle)) t') :
      NoteStep base t (.chainCommitted new) t'
  | chainReorged {t t₁ t' : Tracked} {old new : Chain} {bs : List CanonicalBlock}
      (hold : ChainStep U base t (.revert old) t₁)
      (hnew : bs.map CanonicalBlock.block = new.blocks.reverse)
      (hstep : ChainStep U base t₁ (.commit bs (chainEntries U new.bundle)) t') :
      NoteStep base t (.chainReorged old new) t'
  | chainReverted {t t' : Tracked} {old : Chain}
      (hold : ChainStep U base t (.revert old) t') :
      NoteStep base t (.chainReverted old) t'

/-! ### Notifications are what `handle` does -/

variable {U}

/-- The newest of a chain's blocks is its tip. -/
theorem tip_eq_of_blocks {new : Chain} {b : CanonicalBlock} {bs : List CanonicalBlock}
    (hnew : (b :: bs).map CanonicalBlock.block = new.blocks.reverse) : new.tip = b.block := by
  have hrev : new.blocks = (b.block :: bs.map CanonicalBlock.block).reverse := by
    rw [← List.map_cons, hnew, List.reverse_reverse]
  unfold Chain.tip
  simp only [hrev, List.reverse_cons, List.getLast_append_singleton]

theorem handle_chainCommitted {m m' : Machine} {new : Chain} :
    handle U (.chainCommitted new) m = .ok () m' ↔ ∃ root,
      commitEntries U new.tip.number new.tip.hash (chainEntries U new.bundle) m = .ok root m' := by
  change (commit U new.tip.number new.tip.hash >>= fun _ => pure ())
    (m.push (chainEntries U new.bundle)) = .ok () m' ↔ _
  rw [EStateM.bind_eq_ok]
  constructor
  · rintro ⟨root, s, hs, hm⟩
    cases hm
    exact ⟨root, hs⟩
  · rintro ⟨root, hs⟩
    exact ⟨root, m', hs, rfl⟩

theorem handle_chainReorged {m m₁ m' : Machine} {old new : Chain}
    (h₁ : revert U old m = .ok () m₁) :
    handle U (.chainReorged old new) m = .ok () m' ↔
      handle U (.chainCommitted new) m₁ = .ok () m' := by
  change (revert U old >>= fun _ => handle U (.chainCommitted new)) m = _ ↔ _
  rw [bind_apply_of_ok h₁]

theorem ChainStep.handle_commit {base : ℕ × B256} {t t' : Tracked} {new : Chain}
    {bs : List CanonicalBlock} (hnew : bs.map CanonicalBlock.block = new.blocks.reverse)
    (hstep : ChainStep U base t (.commit bs (chainEntries U new.bundle)) t') :
    handle U (.chainCommitted new) t.machine = .ok () t'.machine := by
  cases hstep with
  | commit hlink hwrites hrun =>
    rw [handle_chainCommitted, tip_eq_of_blocks hnew]
    exact ⟨_, hrun⟩

/-- **A notification changes the machine as `handle` does.** -/
theorem NoteStep.handle_eq {base : ℕ × B256} {t t' : Tracked} {note : Notification}
    (h : NoteStep U base t note t') : handle U note t.machine = .ok () t'.machine := by
  cases h with
  | chainCommitted hnew hstep => exact hstep.handle_commit hnew
  | chainReorged hold hnew hstep =>
    have hnewRun := hstep.handle_commit hnew
    cases hold with
    | revert _ hrun =>
      rw [handle_chainReorged hrun]
      exact hnewRun
  | chainReverted hold =>
    cases hold with
    | revert _ hrun => exact hrun

/-- **What `handle` does to a machine for well-formed blocks is a notification.** -/
theorem NoteStep.of_handle {base : ℕ × B256} {t : Tracked} {new : Chain}
    {bs : List CanonicalBlock} {m' : Machine}
    (hnew : bs.map CanonicalBlock.block = new.blocks.reverse)
    (hlink : Linked (tipOf base t.ledger.blocks) bs)
    (hwrites : ∀ key, Writes.lastWrite ((chainEntries U new.bundle).map PendingEntry.write) key =
      Writes.lastWrite (blockWrites bs) key)
    (hrun : handle U (.chainCommitted new) t.machine = .ok () m') :
    ∃ t', NoteStep U base t (.chainCommitted new) t' ∧ t'.machine = m' := by
  obtain ⟨m, L, hi⟩ := t
  cases bs with
  | nil => exact absurd (List.reverse_eq_nil_iff.mp hnew.symm) new.blocks_ne_nil
  | cons b bs =>
    rw [handle_chainCommitted, tip_eq_of_blocks hnew] at hrun
    obtain ⟨root, hrun⟩ := hrun
    exact ⟨_, .chainCommitted hnew (.commit hlink hwrites hrun), rfl⟩

/-! ### The tip -/

/-- The oldest of linked blocks is the child of the base. -/
theorem Linked.oldest {base : ℕ × B256} {bs : List CanonicalBlock} (h : Linked base bs)
    (hne : bs ≠ []) :
    (bs.getLast hne).block.number = base.1 + 1 ∧ (bs.getLast hne).block.parentHash = base.2 := by
  induction bs with
  | nil => exact absurd rfl hne
  | cons b bs ih =>
    obtain ⟨hn, hh, hl⟩ := h
    cases bs with
    | nil => exact ⟨hn, hh⟩
    | cons b' bs => exact ih hl (List.cons_ne_nil _ _)

/-- A revert of the newest blocks leads back to the tip of the others. -/
theorem tip_dropped {base : ℕ × B256} {bs : List CanonicalBlock} {old : Chain}
    (hl : Linked base bs)
    (hold : (bs.take old.blocks.length).map CanonicalBlock.block = old.blocks.reverse) :
    tipOf base (bs.drop old.blocks.length) = (old.first.number - 1, old.revertHash) := by
  have hl' : Linked (tipOf base (bs.drop old.blocks.length)) (bs.take old.blocks.length) := by
    rw [← List.take_append_drop old.blocks.length bs] at hl
    exact (linked_append.mp hl).2
  have hne : bs.take old.blocks.length ≠ [] := by
    intro h
    rw [h] at hold
    exact old.blocks_ne_nil (List.reverse_eq_nil_iff.mp hold.symm)
  obtain ⟨hn, hh⟩ := hl'.oldest hne
  have hfirst : ((bs.take old.blocks.length).getLast hne).block = old.first := by
    have hlast : ((bs.take old.blocks.length).map CanonicalBlock.block).getLast
        (by simpa using hne) = old.first := by
      simp only [hold, List.getLast_reverse]
      rfl
    rw [← hlast, List.getLast_map]
  rw [hfirst] at hn hh
  unfold Chain.revertHash
  rw [if_pos (by omega), hh, hn]
  rfl

/-- The numbers of reverted blocks are those of the newest blocks of the ledger. -/
theorem numbers_reverted {bs : List CanonicalBlock} {old : Chain} {k : ℕ}
    (hold : (bs.take k).map CanonicalBlock.block = old.blocks.reverse) :
    old.numbersDescending = (bs.take k).map fun b => b.block.number := by
  unfold Chain.numbersDescending
  rw [← List.map_reverse, ← hold, List.map_map]
  rfl

/-- The blocks that a revert keeps are not under the numbers it reverts. -/
theorem not_mem_reverted {base : ℕ × B256} {bs : List CanonicalBlock} {old : Chain}
    (hl : Linked base bs)
    (hold : (bs.take old.blocks.length).map CanonicalBlock.block = old.blocks.reverse)
    {b : CanonicalBlock} (hb : b ∈ bs.drop old.blocks.length) :
    b.block.number ∉ old.numbersDescending := by
  rw [numbers_reverted hold]
  intro hmem
  obtain ⟨b', hb', heq⟩ := List.mem_map.mp hmem
  have hpair := hl.pairwise
  rw [← List.take_append_drop old.blocks.length bs, List.pairwise_append] at hpair
  have := hpair.2.2 b' hb' b hb
  omega

/-- The machine is between operations, at the tip of its ledger. -/
structure Following (base : ℕ × B256) (t : Tracked) : Prop where
  pending : t.machine.exex.pendingEntries = []
  linked : Linked base t.ledger.blocks
  tip : (t.machine.exex.lastBlock, t.machine.exex.lastHash) = tipOf base t.ledger.blocks
  nonempty : ∀ c ∈ t.ledger, c.blocks ≠ []

theorem Ledger.dropBlocks_nonempty {L : Ledger} {k : ℕ} (h : ∀ c ∈ L, c.blocks ≠ []) :
    ∀ c ∈ L.dropBlocks k, c.blocks ≠ [] := by
  induction L generalizing k with
  | nil => exact h
  | cons c L ih =>
    unfold Ledger.dropBlocks
    split
    · exact h
    · split
      · next hlt =>
        refine List.forall_mem_cons.mpr ⟨?_, (List.forall_mem_cons.mp h).2⟩
        exact fun hd => absurd (List.drop_eq_nil_iff.mp hd) (by omega)
      · exact ih (List.forall_mem_cons.mp h).2

/-- **Every commit and every revert leaves the machine at the tip of its ledger.** -/
theorem Following.step {base : ℕ × B256} {t t' : Tracked} {e : Event} (hf : Following base t)
    (hs : ChainStep U base t e t') : Following base t' := by
  cases hs with
  | @commit m m' L hi b bs es root hlink hwrites hrun =>
    have hc := commit_ok U hrun
    exact {
      pending := hc.pendingEntries
      linked := linked_append.mpr ⟨hf.linked, hlink⟩
      tip := by rw [hc.lastBlock, hc.lastHash]; rfl
      nonempty := List.forall_mem_cons.mpr ⟨List.cons_ne_nil _ _, hf.nonempty⟩ }
  | @revert m m' L hi old hold hrun =>
    have hr := revert_ok U hrun
    have hblocks := L.blocks_dropBlocks old.blocks.length
    refine ⟨hr.pendingEntries.trans hf.pending, ?_, ?_, Ledger.dropBlocks_nonempty hf.nonempty⟩
    · rw [hblocks]
      exact hf.linked.drop _
    · rw [hblocks, tip_dropped hf.linked hold, hr.lastBlock, hr.lastHash]

/-- A machine before its run: no block is canonical yet. -/
def Tracked.start (m : Machine) : Tracked := ⟨m, [], m.exex.lastPersistedBlock⟩

/-- The block a machine is at. -/
def Machine.tip (m : Machine) : ℕ × B256 := (m.exex.lastBlock, m.exex.lastHash)

theorem Following.start {m : Machine} (h : m.exex.pendingEntries = []) :
    Following m.tip (.start m) :=
  ⟨h, trivial, rfl, by simp [Tracked.start]⟩

end UbtExex
