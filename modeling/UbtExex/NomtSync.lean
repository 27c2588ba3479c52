import UbtExex.Reorg

/-!
# NOMT beside the overlay

Whether NOMT holds the same state as overlay and MDBX after every notification.  A
commit of a chain is one NOMT commit, and a revert rolls NOMT back by the number of
reverted blocks.  So the two stay together as long as the commits that a revert
touches have one block each, their rows are found, and NOMT can still undo as many
commits.  A run here is one of a NOMT that forgets none of its commits; the program
leaves the length of NOMT's log at its default, the last 100 commits, which is modelled
where runs have a limit.

## Main definitions

* `NomtShows`, `NomtSynced` — NOMT holds a state and its block number.
* `Ledger.touched` — the commits that the newest blocks belong to.
* `NomtTracks` — NOMT is in step with the ledger, as far back as it can be rolled back.
* `LogReaches` — what a revert needs of NOMT's log.
* `NoteUnit` — the condition on a notification, before it is handled.

## Main results

* `Shown.step`, `Synced.step` — one commit or revert that meets the condition.
* `nomt_never_diverges` — **every run that meets the condition keeps NOMT in sync.**
* `nomt_diverges` — a revert of a commit of two blocks does not.
-/

open Std

namespace UbtExex

/-! ### What NOMT shows -/

/-- A NOMT map holds a state, except under the head key, where it has a number. -/
structure NomtShows (σ : TreeKey → B256) (n : ℕ) (t : NomtMap) : Prop where
  value : ∀ key : TreeKey, key.path ≠ nomtHeadKey → t.value key = σ key
  headBlock : t.headBlock = n

/-- NOMT holds the logical state and the number of the last block. -/
def NomtSynced (s : UbtExEx) : Prop := NomtShows s.logical s.lastBlock s.nomt.current

/-- A commit's updates take NOMT to the state after its entries. -/
theorem NomtShows.update {σ : TreeKey → B256} {n n' : ℕ} {t : NomtMap} (h : NomtShows σ n t)
    (entries : List PendingEntry) :
    NomtShows (Writes.applyAll σ (entries.map PendingEntry.write)) n' (t.update entries n') where
  value key hkey := by
    rw [NomtMap.value_update t entries n' hkey, Writes.applyAll_eq_lastWrite,
      Writes.applyAll_eq_lastWrite, h.value key hkey]
  headBlock := NomtMap.headBlock_update t entries n'

/-! ### One step -/

/-- The commits that the `k` newest blocks belong to. -/
def Ledger.touched : Ledger → ℕ → List LedgerEntry
  | [], _ => []
  | c :: L, k => if k = 0 then [] else c :: touched L (k - c.blocks.length)

/-- The rows of the reverted blocks are those their commits recorded, and these
commits have one block each. -/
def RevertUnit (t : Tracked) (old : Chain) : Prop :=
  t.ledger.RowsRecorded t.machine.exex.db old.blocks.length ∧
    ∀ c ∈ t.ledger.touched old.blocks.length, c.blocks.length = 1

/-- The condition on a notification: none on one that only commits. -/
def NoteUnit (t : Tracked) : Notification → Prop
  | .chainCommitted _ => True
  | .chainReorged old _ => RevertUnit t old
  | .chainReverted old => RevertUnit t old

/-- The condition on a commit or a revert. -/
def EventUnit (t : Tracked) : Event → Prop
  | .commit _ _ => True
  | .revert old => RevertUnit t old

theorem Ledger.mem_of_mem_touched {L : Ledger} {k : ℕ} : ∀ c ∈ L.touched k, c ∈ L := by
  induction L generalizing k with
  | nil => intro c hc; exact hc
  | cons c L ih =>
    unfold Ledger.touched
    split
    · intro c' hc'
      cases hc'
    · intro c' hc'
      rcases List.mem_cons.mp hc' with rfl | hc'
      · exact List.mem_cons_self
      · exact List.mem_cons_of_mem _ (ih c' hc')

/-- Dropping blocks of commits of one block each drops as many commits. -/
theorem Ledger.dropBlocks_of_touched {L : Ledger} {k : ℕ} (hk : k ≤ L.blocks.length)
    (h : ∀ c ∈ L.touched k, c.blocks.length = 1) :
    L.dropBlocks k = L.drop k ∧ k ≤ L.length := by
  induction L generalizing k with
  | nil =>
    have hz : k = 0 := Nat.le_zero.mp hk
    subst hz
    exact ⟨rfl, le_rfl⟩
  | cons c L ih =>
    cases k with
    | zero => exact ⟨rfl, Nat.zero_le _⟩
    | succ k =>
      have htouched : touched (c :: L) (k + 1) = c :: touched L (k + 1 - c.blocks.length) := rfl
      rw [htouched] at h
      obtain ⟨hc, hL⟩ := List.forall_mem_cons.mp h
      rw [hc] at hL
      rw [blocks_cons, List.length_append, hc] at hk
      obtain ⟨hdrop, hle⟩ := ih (by omega) hL
      refine ⟨?_, Nat.succ_le_succ hle⟩
      unfold Ledger.dropBlocks
      rw [if_neg (Nat.succ_ne_zero k), if_neg (by omega), hc]
      exact hdrop

/-- Commits of one block each are not cut. -/
theorem Ledger.cutClean_of_touched {σ₀ : TreeKey → B256} {L : Ledger} {k : ℕ}
    (h : ∀ c ∈ L.touched k, c.blocks.length = 1) : L.CutClean σ₀ k := by
  induction L generalizing k with
  | nil => exact trivial
  | cons c L ih =>
    cases k with
    | zero =>
      refine ⟨fun hpos => absurd hpos (by omega), ih ?_⟩
      rw [Nat.zero_sub]
      cases L <;> simp [touched]
    | succ k =>
      have htouched : touched (c :: L) (k + 1) = c :: touched L (k + 1 - c.blocks.length) := rfl
      rw [htouched] at h
      obtain ⟨hc, hL⟩ := List.forall_mem_cons.mp h
      exact ⟨fun _ hlt => by omega, ih hL⟩

/-- NOMT is in step with the ledger, as far back as it can be rolled back. -/
def NomtTracks (base : ℕ × B256) (σ₀ : TreeKey → B256) (v : Nomt) (L : Ledger) : Prop :=
  Versioned.Tracks
    (fun map (L : Ledger) => NomtShows (stateAfter σ₀ L.blocks) (tipOf base L.blocks).1 map) v L

/-- NOMT can undo every commit of the ledger. -/
def HistoryKept (t : Tracked) : Prop := t.ledger.length ≤ t.machine.exex.nomt.past.length

/-- A revert undoes no more commits than NOMT can. -/
def LogReaches (t : Tracked) : Event → Prop
  | .commit _ _ => True
  | .revert old => old.blocks.length ≤ t.machine.exex.nomt.past.length

/-- The machine keeps to its ledger, and so does NOMT. -/
structure Shown (base : ℕ × B256) (σ₀ : TreeKey → B256) (t : Tracked) : Prop extends
    Converged base σ₀ t where
  nomt : NomtTracks base σ₀ t.machine.exex.nomt t.ledger

/-- The same with a NOMT that has forgotten nothing since the start. -/
structure Synced (base : ℕ × B256) (σ₀ : TreeKey → B256) (t : Tracked) : Prop extends
    Shown base σ₀ t where
  history : HistoryKept t

variable {U : Ubt} {base : ℕ × B256} {σ₀ : TreeKey → B256}

theorem Shown.nomtSynced {t : Tracked} (h : Shown base σ₀ t) : NomtSynced t.machine.exex := by
  have hcur := h.nomt.current
  have hblock : t.machine.exex.lastBlock = (tipOf base t.ledger.blocks).1 :=
    congrArg Prod.fst h.tip
  unfold NomtSynced
  rw [h.logical, hblock]
  exact hcur

/-- The blocks of a revert are some of those of the ledger. -/
theorem length_reverted_le {L : Ledger} {old : Chain}
    (hold : (L.blocks.take old.blocks.length).map CanonicalBlock.block = old.blocks.reverse) :
    old.blocks.length ≤ L.blocks.length := by
  have := congrArg List.length hold
  rw [List.length_map, List.length_take, List.length_reverse] at this
  omega

/-- A commit of a chain is one NOMT commit of its entries. -/
theorem nomt_commitEntries {n : ℕ} {hash : B256} {es : List PendingEntry} {m m' : Machine}
    {root : B256} (hpending : m.exex.pendingEntries = [])
    (hrun : commitEntries U n hash es m = .ok root m') :
    m'.exex.nomt = m.exex.nomt.commitUpdates es n := by
  rw [(commit_ok U hrun).nomt]
  change m.exex.nomt.commitUpdates (m.exex.pendingEntries ++ es) n = _
  -- nothing is pending before: NOMT gets the entries of this chain alone
  rw [hpending, List.nil_append]

/-- **A commit, and a revert of commits of one block that NOMT can undo, keep NOMT in step
with the ledger**, whatever rows the revert finds. -/
theorem nomtTracks_step {t t' : Tracked} {e : Event} (hf : Following base t)
    (htracks : NomtTracks base σ₀ t.machine.exex.nomt t.ledger)
    (hsingle : ∀ old, e = .revert old →
      ∀ c ∈ t.ledger.touched old.blocks.length, c.blocks.length = 1)
    (hlog : LogReaches t e) (hstep : ChainStep U base t e t') :
    NomtTracks base σ₀ t'.machine.exex.nomt t'.ledger := by
  cases hstep with
  | @commit m m' L hi b bs es root hlink hwrites hrun =>
    have hshow : NomtShows (Writes.applyAll (stateAfter σ₀ L.blocks) (blockWrites (b :: bs)))
        b.block.number (m.exex.nomt.current.update es b.block.number) := by
      rw [← Writes.applyAll_congr hwrites]
      exact htracks.current.update es
    change NomtTracks base σ₀ m'.exex.nomt _
    rw [nomt_commitEntries hf.pending hrun]
    refine Versioned.Tracks.commit ?_ htracks
    rw [Ledger.blocks_cons, stateAfter_append]
    exact hshow
  | @revert m m' L hi old hold hrun =>
    -- one NOMT commit for each block: the rollback of as many versions is accepted
    obtain ⟨hdrop, hle⟩ :=
      Ledger.dropBlocks_of_touched (length_reverted_le hold) (hsingle old rfl)
    have hreaches : ¬m.exex.nomt.past.length < old.blocks.length := Nat.not_lt.mpr hlog
    obtain ⟨v, hv⟩ := Option.ne_none_iff_exists'.mp
      (fun hnone => hreaches (Versioned.rollback_eq_none_iff.mp hnone))
    change NomtTracks base σ₀ m'.exex.nomt (L.dropBlocks old.blocks.length)
    rw [(revert_ok U hrun).nomt, hv, hdrop]
    exact htracks.rollback hle hv

/-- A NOMT that has forgotten nothing can undo what a revert undoes. -/
theorem HistoryKept.logReaches {t t' : Tracked} {e : Event} (h : HistoryKept t)
    (hsingle : ∀ old, e = .revert old →
      ∀ c ∈ t.ledger.touched old.blocks.length, c.blocks.length = 1)
    (hstep : ChainStep U base t e t') : LogReaches t e := by
  cases hstep with
  | commit hlink hwrites hrun => trivial
  | @revert m m' L hi old hold hrun =>
    obtain ⟨-, hle⟩ := Ledger.dropBlocks_of_touched (length_reverted_le hold) (hsingle old rfl)
    exact Nat.le_trans hle h

/-- **It goes on forgetting nothing.** -/
theorem HistoryKept.step {t t' : Tracked} {e : Event} (h : HistoryKept t) (hf : Following base t)
    (hsingle : ∀ old, e = .revert old →
      ∀ c ∈ t.ledger.touched old.blocks.length, c.blocks.length = 1)
    (hstep : ChainStep U base t e t') : HistoryKept t' := by
  cases hstep with
  | @commit m m' L hi b bs es root hlink hwrites hrun =>
    change L.length + 1 ≤ m'.exex.nomt.past.length
    rw [nomt_commitEntries hf.pending hrun]
    exact Nat.succ_le_succ h
  | @revert m m' L hi old hold hrun =>
    obtain ⟨hdrop, hle⟩ :=
      Ledger.dropBlocks_of_touched (length_reverted_le hold) (hsingle old rfl)
    have hkept : L.length ≤ m.exex.nomt.past.length := h
    change (L.dropBlocks old.blocks.length).length ≤ m'.exex.nomt.past.length
    rw [(revert_ok U hrun).nomt, hdrop, List.length_drop]
    cases hv : m.exex.nomt.rollback old.blocks.length with
    | none =>
      rw [Option.getD_none]
      omega
    | some v =>
      have hlength := Versioned.length_past_of_rollback hv
      rw [Option.getD_some]
      omega

/-- The condition on an event is enough for `Converged.step`. -/
theorem EventUnit.recorded {t : Tracked} {e : Event} (h : EventUnit t e) :
    EventRecorded σ₀ t e := by
  cases e with
  | commit bs es => trivial
  | revert old => exact ⟨h.1, Ledger.cutClean_of_touched h.2⟩

theorem EventUnit.single {t : Tracked} {e : Event} (h : EventUnit t e) (old : Chain)
    (he : e = .revert old) : ∀ c ∈ t.ledger.touched old.blocks.length, c.blocks.length = 1 := by
  subst he
  exact h.2

/-- **A commit, and a revert of commits of one block whose rows are found and that NOMT can
undo, keep NOMT in sync.** -/
theorem Shown.step {t t' : Tracked} {e : Event} (hs : Shown base σ₀ t) (hcond : EventUnit t e)
    (hlog : LogReaches t e) (hstep : ChainStep U base t e t') : Shown base σ₀ t' where
  toConverged := hs.toConverged.step hcond.recorded hstep
  nomt := nomtTracks_step hs.toFollowing hs.nomt hcond.single hlog hstep

/-- **With a NOMT that forgets nothing**, a commit, and a revert of commits of one block
whose rows are found, keep it in sync. -/
theorem Synced.step {t t' : Tracked} {e : Event} (hs : Synced base σ₀ t)
    (hcond : EventUnit t e) (hstep : ChainStep U base t e t') : Synced base σ₀ t' where
  toShown := hs.toShown.step hcond (hs.history.logReaches hcond.single hstep) hstep
  history := hs.history.step hs.toFollowing hcond.single hstep

theorem Synced.noteStep {t t' : Tracked} {note : Notification} (hs : Synced base σ₀ t)
    (hcond : NoteUnit t note) (hstep : NoteStep U base t note t') : Synced base σ₀ t' := by
  cases hstep with
  | chainCommitted _ hcommit => exact hs.step (e := .commit _ _) trivial hcommit
  | chainReorged hold _ hcommit =>
    have hs₁ := hs.step (e := .revert _) hcond hold
    exact hs₁.step (e := .commit _ _) trivial hcommit
  | chainReverted hold => exact hs.step (e := .revert _) hcond hold

theorem Synced.start {m : Machine} (hpending : m.exex.pendingEntries = [])
    (hnomt : NomtSynced m.exex) : Synced m.tip m.exex.logical (.start m) :=
  ⟨⟨.start hpending, .base hnomt⟩, Nat.zero_le _⟩

/-! ### Runs -/

/-- **In every run from a synced state whose reverts touch only commits of one block
and find their rows, NOMT holds the logical state and the number of the last block
after each notification**, if it forgets none of its commits. -/
theorem nomt_never_diverges {m₀ : Machine} {h : List (Tracked × Notification)} {t : Tracked}
    (hpending : m₀.exex.pendingEntries = []) (hnomt : NomtSynced m₀.exex)
    (hrun : Run (NoteStep U m₀.tip) (.start m₀) h t)
    (hunit : ∀ p ∈ h, NoteUnit p.1 p.2) :
    NomtSynced t.machine.exex ∧ ∀ p ∈ h, NomtSynced p.1.machine.exex := by
  obtain ⟨hlast, hall⟩ := hrun.invariant (Synced.start hpending hnomt)
    (fun s e s' hs hcond hstep => hs.noteStep hcond hstep) hunit
  exact ⟨hlast.nomtSynced, fun p hp => (hall p hp).nomtSynced⟩

/-! ### A run that reverts a commit of two blocks -/

/-- A fresh start is in sync: both stores are empty. -/
theorem nomtSynced_fresh (config : UbtConfig) : NomtSynced (Machine.fresh config).exex := by
  refine ⟨fun key _ => ?_, rfl⟩
  have hvalue : (Machine.fresh config).exex.nomt.current.value key = 0 := by
    simp [NomtMap.value, Machine.fresh, UbtExEx.restore, Disk.empty]
  rw [hvalue, logical_fresh]

/-- The reverted blocks are exactly those of the newest commits. -/
def Aligned (t : Tracked) (old : Chain) : Prop :=
  ∃ top rest, t.ledger = top ++ rest ∧
    (Ledger.blocks top).map CanonicalBlock.block = old.blocks.reverse

/-- The entries of a commit write distinct keys, none of them the head key. -/
def DistinctKeys (es : List PendingEntry) : Prop :=
  (es.map PendingEntry.key).Nodup ∧ ∀ e ∈ es, e.key.path ≠ nomtHeadKey

/-- A notification that reverts whole commits and commits distinct keys. -/
def NoteAligned (U : Ubt) (t : Tracked) : Notification → Prop
  | .chainCommitted new => DistinctKeys (chainEntries U new.bundle)
  | .chainReorged old new => Aligned t old ∧ DistinctKeys (chainEntries U new.bundle)
  | .chainReverted old => Aligned t old

/-- The chain of `block1` alone, which sets slot 1. -/
def slotChain : Chain :=
  ⟨[block1], slotBundle 7 1 1, Chain.single_ne_nil block1, Chain.single_sorted block1⟩

/-- After `slotChain` is committed. -/
def slotCommitted : Tracked where
  machine := (commitEntries sampleUbt 1 11 (chainEntries sampleUbt slotChain.bundle)
    reorgStart).state
  ledger := [⟨[⟨block1, [(slotKey 7 1, 1)]⟩],
    (reorgStart.push (chainEntries sampleUbt slotChain.bundle)).exex.pendingUndo⟩]
  highest := 1

/-- After `slotChain` is reverted. -/
def slotReverted : Tracked where
  machine := (revert sampleUbt slotChain slotCommitted.machine).state
  ledger := []
  highest := 1

theorem slotCommitted_step : NoteStep sampleUbt (0, 0) (.start reorgStart)
    (.chainCommitted slotChain) slotCommitted := by
  have hok : (commitEntries sampleUbt 1 11 (chainEntries sampleUbt slotChain.bundle)
      reorgStart).isOk = true := by decide +kernel
  obtain ⟨root, hrun⟩ := EStateM.Result.exists_ok hok
  exact .chainCommitted rfl (.commit ⟨rfl, rfl, trivial⟩ (fun _ => rfl) hrun)

/-- The condition holds of a run that commits one block and reverts it. -/
theorem nomt_never_diverges_single_block : NomtSynced slotReverted.machine.exex := by
  have hstep : NoteStep sampleUbt (0, 0) slotCommitted (.chainReverted slotChain) slotReverted :=
    .chainReverted (.revert rfl (revert_eq_ok sampleUbt _ _))
  have hrun : Run (NoteStep sampleUbt reorgStart.tip) (.start reorgStart) _ slotReverted :=
    .snoc (.snoc .nil slotCommitted_step) hstep
  refine (nomt_never_diverges rfl (nomtSynced_fresh _) hrun ?_).1
  refine List.forall_mem_cons.mpr ⟨⟨⟨?_, trivial⟩, ?_⟩, List.forall_mem_cons.mpr ⟨trivial, by simp⟩⟩
  · decide +kernel
  · intro c hc
    obtain rfl := List.mem_singleton.mp hc
    rfl

/-- After both blocks of `pairChain` are reverted. -/
def pairReverted : Tracked where
  machine := (revert sampleUbt (pairChain 2)
    (pairCommitted 2 [] [(slotKey 7 1, 2)]).machine).state
  ledger := []
  highest := 2

/-- **A revert of a commit of two blocks leaves NOMT behind**: NOMT has one commit, the
rollback of two is refused, and NOMT keeps the block that MDBX has left. -/
theorem nomt_diverges :
    ¬∀ (U : Ubt) (m₀ : Machine) (h : List (Tracked × Notification)) (t : Tracked),
      m₀.exex.pendingEntries = [] → NomtSynced m₀.exex →
      Run (NoteStep U m₀.tip) (.start m₀) h t → (∀ p ∈ h, NoteAligned U p.1 p.2) →
      NomtSynced t.machine.exex := by
  intro hall
  have hstep : NoteStep sampleUbt (0, 0) (pairCommitted 2 [] [(slotKey 7 1, 2)])
      (.chainReverted (pairChain 2)) pairReverted :=
    .chainReverted (.revert rfl (revert_eq_ok sampleUbt _ _))
  have hrun : Run (NoteStep sampleUbt reorgStart.tip) (.start reorgStart) _ pairReverted :=
    .snoc (.snoc .nil (pairCommitted_step (by decide) fun _ => rfl)) hstep
  have hsynced := hall sampleUbt reorgStart _ pairReverted rfl (nomtSynced_fresh _) hrun
    (List.forall_mem_cons.mpr ⟨⟨(pairCommitted 2 [] [(slotKey 7 1, 2)]).ledger, [], rfl, rfl⟩,
      List.forall_mem_cons.mpr ⟨⟨by decide, by decide⟩, by simp⟩⟩)
  have hhead := hsynced.headBlock
  revert hhead
  decide +kernel

end UbtExex
