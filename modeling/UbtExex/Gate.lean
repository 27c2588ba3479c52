import UbtExex.Exported
import UbtExex.NomtLog
import UbtExex.Owned

/-!
# The export gate

An export from NOMT takes the block of its header from the key index and the values
from NOMT.  The gate before it compares two block numbers: NOMT changes with every
commit and is rolled back by every revert, the head of the key index changes with a
flush only.  So the gate can find a head at a number that has a new block since, and
this happens exactly when a commit that does not flush reaches the number of the
head with another hash.

## Main definitions

* `GateSound` — what the gate lets through is the state after the block of the header.
* `GateKept` — the condition on a commit, before it is made.

## Main results

* `ensureNomtSynced_ok_iff` — what the gate checks.
* `gateSound_step` — one step.
* `gate_sound_iff` — **the gate is sound all along a run if and only if every commit
  meets the condition.**
* `gate_passes_discarded_block` — a run that comes back to the number of the head.
-/

open Std

namespace UbtExex

/-! ### What the gate checks -/

theorem compareHeads_ok_iff {n n' : ℕ} {message : String} {env env' : ExportEnv} :
    (if n ≠ n' then throw (mdbxError message) else pure () : ExportM Unit) env = .ok () env' ↔
      env' = env ∧ n = n' := by
  by_cases hn : n = n'
  · rw [if_neg (not_not.mpr hn)]
    constructor
    · intro h
      injection h with _ henv
      exact ⟨henv.symm, hn⟩
    · rintro ⟨rfl, -⟩
      rfl
  · rw [if_pos hn]
    constructor
    · intro h
      cases h
    · exact fun h => absurd h.2 hn

/-- **The gate compares the numbers of two heads.** -/
theorem ensureNomtSynced_ok_iff {d : Disk} {dir : Dir} {env : ExportEnv} :
    ensureNomtSynced (.over d dir) = .ok () env ↔
      env = .over d dir ∧ ∃ head, d.keyIndex.loadHead = some head ∧
        (∀ v, d.nomt.current[nomtHeadKey]? ≠ some (.b256 v)) ∧
        d.nomt.current.headBlock = head.blockNumber := by
  unfold ensureNomtSynced NomtMap.headBlock
  rw [readStore_bind, ExportEnv.stores_over, ExportEnv.skip_over]
  cases hread : d.nomt.current[nomtHeadKey]? with
  | none =>
    dsimp only
    rw [pure_bind, readStore_bind, ExportEnv.stores_over, ExportEnv.skip_over]
    cases d.keyIndex.loadHead with
    | none => exact iff_of_false (fun h => nomatch h) (by simp)
    | some head =>
      refine compareHeads_ok_iff.trans ?_
      simp
  | some w =>
    cases w with
    | u64Be n =>
      dsimp only
      rw [pure_bind, readStore_bind, ExportEnv.stores_over, ExportEnv.skip_over]
      cases d.keyIndex.loadHead with
      | none => exact iff_of_false (fun h => nomatch h) (by simp)
      | some head =>
        refine compareHeads_ok_iff.trans ?_
        simp
    | b256 v =>
      constructor
      · intro h
        cases h
      · rintro ⟨-, head, -, hne, -⟩
        exact absurd rfl (hne v)

/-! ### One step -/

/-- If the gate lets an export through, then the head of the key index is the tip of
the canonical chain, NOMT holds the state after it, and so does the state file that
is written right then, under the number and the hash of that block. -/
def GateSound (base : ℕ × B256) (σ₀ : TreeKey → B256) (t : Tracked) : Prop :=
  ∀ dir env, ensureNomtSynced (.over t.machine.exex.toDisk dir) = .ok () env →
    ∃ head, t.machine.exex.keyIndex.loadHead = some head ∧
      (head.blockNumber, head.blockHash) = tipOf base t.ledger.blocks ∧
      NomtShows (stateAfter σ₀ t.ledger.blocks) head.blockNumber t.machine.exex.nomt.current ∧
      ∀ chainId res env', exportFullStateFromNomt chainId env = .ok res env' →
        ∃ entries, env'.dir .state =
            some (stateBytes chainId (tipOf base t.ledger.blocks) entries) ∧
          ∀ e ∈ entries, ∃ key : TreeKey, e.treeIndex = key.path ∧
            (key.path ≠ nomtHeadKey → e.value = stateAfter σ₀ t.ledger.blocks key)

/-- A commit that does not flush does not reach the number of the head of the key
index with another hash. -/
def GateKept (t : Tracked) : Event → Prop
  | .commit (b :: _) _ => t.machine.exex.shouldFlush b.block.number = false →
      ∀ head, t.machine.exex.keyIndex.loadHead = some head →
        head.blockNumber = b.block.number → head.blockHash = b.block.hash
  | _ => True

/-- NOMT keeps to the ledger, and the canonical block at the number of the head of the
key index, if there is one, is that of the head. -/
structure Gated (base : ℕ × B256) (σ₀ : TreeKey → B256) (t : Tracked) : Prop extends
    Following base t where
  single : ∀ c ∈ t.ledger, c.blocks.length = 1
  nomt : NomtTracks base σ₀ t.machine.exex.nomt t.ledger
  head : ∀ head, t.machine.exex.keyIndex.loadHead = some head →
    ∀ k, head.blockNumber = (tipOf base (t.ledger.blocks.drop k)).1 →
      head.blockHash = (tipOf base (t.ledger.blocks.drop k)).2

variable {U : Ubt} {base : ℕ × B256} {σ₀ : TreeKey → B256}

/-- The values of a full export are those of NOMT. -/
theorem value_of_mem_nomtStems {wanted : Address → Bool} {d : Disk} {e : StorageEntry}
    (he : e ∈ exportedEntries (nomtStems wanted d)) :
    ∃ key : TreeKey, e.treeIndex = key.path ∧ e.value = d.nomt.current.value key := by
  obtain ⟨r, hr, he⟩ := List.mem_flatMap.mp he
  obtain ⟨row, -, hrow⟩ := List.mem_filterMap.mp hr
  unfold nomtStem at hrow
  split at hrow
  · obtain rfl := Option.some.inj hrow
    obtain ⟨v, hv, rfl⟩ := List.mem_map.mp he
    obtain ⟨i, -, rfl⟩ := List.mem_map.mp hv
    exact ⟨⟨row.1, i⟩, rfl, rfl⟩
  · cases hrow

/-- **Where the head is that of the tip, or at another number, the gate is sound.** -/
theorem gateSound_of_head {t : Tracked}
    (hnomt : NomtShows (stateAfter σ₀ t.ledger.blocks) (tipOf base t.ledger.blocks).1
      t.machine.exex.nomt.current)
    (hhead : ∀ head, t.machine.exex.keyIndex.loadHead = some head →
      head.blockNumber = (tipOf base t.ledger.blocks).1 →
        head.blockHash = (tipOf base t.ledger.blocks).2) :
    GateSound base σ₀ t := by
  intro dir env hgate
  obtain ⟨rfl, head, hload, -, hnumber⟩ := ensureNomtSynced_ok_iff.mp hgate
  have hnumber : head.blockNumber = (tipOf base t.ledger.blocks).1 :=
    hnumber.symm.trans hnomt.headBlock
  have htip : (head.blockNumber, head.blockHash) = tipOf base t.ledger.blocks := by
    rw [hnumber, hhead head hload hnumber]
  refine ⟨head, hload, htip, by rw [hnumber]; exact hnomt, ?_⟩
  intro chainId res env' hexport
  obtain ⟨head', hload', -, -, -, rfl⟩ := exportFromNomt_ok_iff.mp hexport
  obtain rfl := Option.some.inj (hload.symm.trans hload')
  refine ⟨exportedEntries (nomtStems (fun _ => true) t.machine.exex.toDisk), ?_, ?_⟩
  · rw [dir_putExport_state (by simp), htip]
  · intro e he
    obtain ⟨key, hpath, hvalue⟩ := value_of_mem_nomtStems he
    exact ⟨key, hpath, fun hne => hvalue.trans (hnomt.value key hne)⟩

/-- Where the gate is sound, a state that `export_state` writes is that of the tip. -/
theorem GateSound.exportState {t : Tracked} (h : GateSound base σ₀ t) {dir : Dir}
    {defaultChainId : ℕ} {chainId : Option ℕ} {res : ExportResult} {env : ExportEnv}
    (hok : UbtExex.exportState defaultChainId chainId (.over t.machine.exex.toDisk dir) =
      .ok res env) :
    ∃ entries, env.dir .state =
        some (stateBytes (chainId.getD defaultChainId) (tipOf base t.ledger.blocks) entries) ∧
      ∀ e ∈ entries, ∃ key : TreeKey, e.treeIndex = key.path ∧
        (key.path ≠ nomtHeadKey → e.value = stateAfter σ₀ t.ledger.blocks key) := by
  unfold UbtExex.exportState at hok
  rw [EStateM.bind_eq_ok] at hok
  obtain ⟨u, env₁, hgate, hexport⟩ := hok
  obtain ⟨head, -, -, -, hfile⟩ := h dir env₁ hgate
  exact hfile _ res env hexport

theorem Gated.gateSound {t : Tracked} (h : Gated base σ₀ t) : GateSound base σ₀ t :=
  gateSound_of_head h.nomt.current fun head hload => h.head head hload 0

/-- Right after a commit the gate passes exactly when the head has the number of the
block, and then it is sound exactly when the head also has its hash. -/
theorem gateSound_commit_iff {t : Tracked} {b : CanonicalBlock} {bs : List CanonicalBlock}
    (hblocks : t.ledger.blocks = b :: bs)
    (hnomt : NomtShows (stateAfter σ₀ t.ledger.blocks) (tipOf base t.ledger.blocks).1
      t.machine.exex.nomt.current)
    (hread : t.machine.exex.nomt.current[nomtHeadKey]? = some (.u64Be b.block.number)) :
    GateSound base σ₀ t ↔ ∀ head, t.machine.exex.keyIndex.loadHead = some head →
      head.blockNumber = b.block.number → head.blockHash = b.block.hash := by
  constructor
  · intro hsound head hload hnumber
    -- the gate compares numbers only, so it passes whatever the hash is
    have hgate : ensureNomtSynced (.over t.machine.exex.toDisk fun _ => none) =
        .ok () (.over t.machine.exex.toDisk fun _ => none) := by
      refine ensureNomtSynced_ok_iff.mpr ⟨rfl, head, hload, ?_, ?_⟩
      · intro v hv
        rw [hread] at hv
        cases hv
      · rw [hnumber]
        unfold NomtMap.headBlock
        rw [hread]
    obtain ⟨head', hload', htip, -⟩ := hsound _ _ hgate
    obtain rfl := Option.some.inj (hload.symm.trans hload')
    rw [hblocks] at htip
    exact congrArg Prod.snd htip
  · intro hhead
    apply gateSound_of_head hnomt
    rw [hblocks]
    exact hhead

/-- The head after a commit is that of the block if the commit flushes, and otherwise
the head from before. -/
theorem gateKept_commit_iff {m m' : Machine} {L : Ledger} {hi : ℕ} {b : CanonicalBlock}
    {es : List PendingEntry}
    (hki : m'.exex.keyIndex.loadHead = if m.exex.shouldFlush b.block.number then
      some ⟨b.block.number, b.block.hash, m'.exex.lastRoot, m'.exex.stemCount⟩
      else m.exex.keyIndex.loadHead) :
    (∀ head, m'.exex.keyIndex.loadHead = some head →
      head.blockNumber = b.block.number → head.blockHash = b.block.hash) ↔
      GateKept ⟨m, L, hi⟩ (.commit [b] es) := by
  rw [hki]
  unfold GateKept
  cases hflush : m.exex.shouldFlush b.block.number with
  | true =>
    rw [if_pos rfl]
    constructor
    · intro _ hno
      cases hno.symm.trans hflush
    · rintro - head hhead -
      rw [← Option.some.inj hhead]
  | false =>
    rw [if_neg (by simp)]
    exact ⟨fun hh _ => hh, fun hh => hh hflush⟩

/-- A revert leaves the head of the key index, whose block may still be canonical. -/
theorem Gated.dropBlocks {m m' : Machine} {L : Ledger} {hi n : ℕ} (h : Gated base σ₀ ⟨m, L, hi⟩)
    (hfollow : Following base ⟨m', L.dropBlocks n, hi⟩)
    (hnomt : NomtTracks base σ₀ m'.exex.nomt (L.dropBlocks n))
    (hki : m'.exex.keyIndex = m.exex.keyIndex) : Gated base σ₀ ⟨m', L.dropBlocks n, hi⟩ := by
  refine ⟨hfollow, fun c hc => h.single c (Ledger.mem_of_mem_dropBlocks h.single c hc), hnomt, ?_⟩
  intro head hload k hnumber
  have hload : m'.exex.keyIndex.loadHead = some head := hload
  rw [hki] at hload
  rw [L.blocks_dropBlocks, List.drop_drop] at hnumber ⊢
  exact h.head head hload _ hnumber

theorem Gated.touched {t : Tracked} {e : Event} (h : Gated base σ₀ t) (old : Chain)
    (_ : e = .revert old) : ∀ c ∈ t.ledger.touched old.blocks.length, c.blocks.length = 1 :=
  fun c hc => h.single c (Ledger.mem_of_mem_touched c hc)

/-- **One step from a sound state**, with a revert that NOMT can undo: the next state is
sound exactly when the step meets the condition. -/
theorem gateSound_step {t t' : Tracked} {e : Event} (h : Gated base σ₀ t)
    (hlog : LogReaches t e) (hstep : SingleStep U base t e t') :
    (GateSound base σ₀ t' ↔ GateKept t e) ∧ (GateKept t e → Gated base σ₀ t') := by
  obtain ⟨hone, hstep⟩ := hstep
  have hfollow := h.toFollowing.step hstep
  have hnomt := nomtTracks_step h.toFollowing h.nomt h.touched hlog hstep
  cases hstep with
  | @commit m m' L hi b bs es root hlink hwrites hrun =>
    obtain rfl : bs = [] := List.eq_nil_of_length_eq_zero (Nat.succ.inj hone)
    have hki := keyIndexHead_commit U hrun
    have hflag : (m.push es).exex.shouldFlush b.block.number = m.exex.shouldFlush b.block.number :=
      rfl
    rw [hflag] at hki
    -- the blocks below the new one have smaller numbers
    have hbelow : ∀ k, (tipOf base (L.blocks.drop k)).1 < b.block.number := fun k =>
      Nat.lt_of_le_of_lt (h.linked.tip_drop_le k) (hlink.1 ▸ Nat.lt_succ_self _)
    have hread : m'.exex.nomt.current[nomtHeadKey]? = some (.u64Be b.block.number) := by
      rw [(commit_ok U hrun).nomt]
      exact NomtMap.read_head_update _ _ _
    have hblocks : Ledger.blocks (⟨[b], (m.push es).exex.pendingUndo⟩ :: L) = b :: L.blocks := rfl
    have hiff := gateSound_commit_iff (t := ⟨m', ⟨[b], (m.push es).exex.pendingUndo⟩ :: L,
      if m.exex.shouldFlush b.block.number then max hi b.block.number else hi⟩)
      hblocks hnomt.current hread
    have hkept := @gateKept_commit_iff m m' L hi b es hki
    refine ⟨hiff.trans hkept, fun hcond => ?_⟩
    refine ⟨hfollow, List.forall_mem_cons.mpr ⟨rfl, h.single⟩, hnomt, ?_⟩
    intro head hload k hnumber
    cases k with
    | zero => exact hkept.mpr hcond head hload hnumber
    | succ k =>
      have hnumber : head.blockNumber = (tipOf base (L.blocks.drop k)).1 := hnumber
      have hload : m'.exex.keyIndex.loadHead = some head := hload
      rw [hki] at hload
      split at hload
      -- after a flush the head is above every older block
      · obtain rfl := Option.some.inj hload
        have hequal : b.block.number = (tipOf base (L.blocks.drop k)).1 := hnumber
        exact absurd hequal (Nat.ne_of_gt (hbelow k))
      · exact h.head head hload k hnumber
  | @revert m m' L hi old hold hrun =>
    have hgated := h.dropBlocks hfollow hnomt (revert_ok U hrun).keyIndex
    exact ⟨⟨fun _ => trivial, fun _ => hgated.gateSound⟩, fun _ => hgated⟩

theorem Gated.limitLog {t : Tracked} (h : Gated base σ₀ t) (limit : Option ℕ) :
    Gated base σ₀ (t.limitLog limit) :=
  ⟨⟨h.pending, h.linked, h.tip, h.nonempty⟩, h.single, Versioned.Tracks.limitTo h.nomt limit,
    h.head⟩

/-- **One step that NOMT's log allows** and that meets the condition keeps the gate sound. -/
theorem Gated.logged {limit : Option ℕ} {t t' : Tracked} {e : Event} (h : Gated base σ₀ t)
    (hall : Unforgotten limit t) (hkept : GateKept t e) (hlog : LogHolds limit t e)
    (hstep : LoggedStep U limit base t e t') : Gated base σ₀ t' := by
  obtain ⟨t₁, hstep, rfl⟩ := hstep
  have hreaches := hlog.reaches hall h.touched hstep.2
  exact ((gateSound_step h hreaches hstep).2 hkept).limitLog limit

/-! ### Runs -/

theorem Gated.start {m : Machine} (hpending : m.exex.pendingEntries = [])
    (hnomt : NomtShows σ₀ m.tip.1 m.exex.nomt.current)
    (hhead : ∀ head, m.exex.keyIndex.loadHead = some head →
      head.blockNumber = m.tip.1 → head.blockHash = m.tip.2) :
    Gated m.tip σ₀ (.start m) where
  toFollowing := .start hpending
  single := by simp [Tracked.start]
  nomt := .base hnomt
  head head hload k hnumber := by
    have hnil : (Tracked.start m).ledger.blocks.drop k = [] := List.drop_nil
    rw [hnil] at hnumber ⊢
    exact hhead head hload hnumber

/-- The same with a NOMT that has forgotten nothing since the start. -/
structure Recalled (base : ℕ × B256) (σ₀ : TreeKey → B256) (t : Tracked) : Prop extends
    Gated base σ₀ t where
  history : HistoryKept t

theorem Recalled.start {m : Machine} (hpending : m.exex.pendingEntries = [])
    (hnomt : NomtShows σ₀ m.tip.1 m.exex.nomt.current)
    (hhead : ∀ head, m.exex.keyIndex.loadHead = some head →
      head.blockNumber = m.tip.1 → head.blockHash = m.tip.2) :
    Recalled m.tip σ₀ (.start m) where
  toGated := .start hpending hnomt hhead
  history := Nat.zero_le _

theorem Recalled.logReaches {t t' : Tracked} {e : Event} (h : Recalled base σ₀ t)
    (hstep : SingleStep U base t e t') : LogReaches t e :=
  h.history.logReaches h.touched hstep.2

/-- **The export gate is sound all along a run if and only if no commit without a flush
reaches the number of the head of the key index with another hash.**  The run starts
between operations, with NOMT at its block and with no other head at that number; NOMT
forgets none of its commits. -/
theorem gate_sound_iff {m₀ : Machine} {h : List (Tracked × Event)} {t : Tracked}
    (hpending : m₀.exex.pendingEntries = [])
    (hnomt : NomtShows σ₀ m₀.tip.1 m₀.exex.nomt.current)
    (hhead : ∀ head, m₀.exex.keyIndex.loadHead = some head →
      head.blockNumber = m₀.tip.1 → head.blockHash = m₀.tip.2)
    (hrun : Run (SingleStep U m₀.tip) (.start m₀) h t) :
    (GateSound m₀.tip σ₀ t ∧ ∀ p ∈ h, GateSound m₀.tip σ₀ p.1) ↔
      ∀ p ∈ h, GateKept p.1 p.2 :=
  hrun.good_iff (Recalled.start hpending hnomt hhead) (fun _ hg => hg.toGated.gateSound)
    fun _ _ _ hg hstep => by
      obtain ⟨hiff, hgated⟩ := gateSound_step hg.toGated (hg.logReaches hstep) hstep
      have hhistory := hg.history.step hg.toFollowing hg.touched hstep.2
      exact ⟨hiff, fun hkept => ⟨hgated hkept, hhistory⟩⟩

/-! ### A run that comes back to the number of the head -/

/-- A sibling of `block2`. -/
def block2' : Block := ⟨2, 22, 11⟩

/-- After the first two blocks of an extension that flushes every second block. -/
def gateFlushed : Tracked :=
  ((Tracked.start (.fresh ⟨2, 10⟩)).afterCommit sampleUbt (slotBlock block1 1)
    [slotEntry 1]).afterCommit sampleUbt (slotBlock block2 2) [slotEntry 2]

/-- After the second block is reverted, and its sibling committed. -/
def gateRecommitted : Tracked :=
  (gateFlushed.afterRevert sampleUbt secondChain).afterCommit sampleUbt (slotBlock block2' 3)
    [slotEntry 3]

theorem gateFlushed_run : Run (SingleStep sampleUbt (0, 0)) (.start (.fresh ⟨2, 10⟩))
    [((Tracked.start (.fresh ⟨2, 10⟩)).afterCommit sampleUbt (slotBlock block1 1) [slotEntry 1],
        .commit [slotBlock block2 2] [slotEntry 2]),
      (.start (.fresh ⟨2, 10⟩), .commit [slotBlock block1 1] [slotEntry 1])] gateFlushed :=
  .snoc (.snoc .nil (Tracked.afterCommit_step ⟨rfl, rfl, trivial⟩ (fun _ => rfl) (by decide +kernel)))
    (Tracked.afterCommit_step ⟨rfl, rfl, trivial⟩ (fun _ => rfl) (by decide +kernel))

/-- The gate is sound after each of two blocks, the second of them flushed. -/
theorem gate_sound_two_blocks : GateSound (0, 0) (fun _ => 0) gateFlushed := by
  have hrun : Run (SingleStep sampleUbt (Machine.fresh ⟨2, 10⟩).tip) (.start (.fresh ⟨2, 10⟩)) _
    gateFlushed := gateFlushed_run
  refine ((gate_sound_iff rfl ⟨?_, rfl⟩ ?_ hrun).mpr ?_).1
  · intro key _
    simp [NomtMap.value, Machine.fresh, UbtExEx.restore, Disk.empty]
  · intro head hload
    cases hload
  · refine List.forall_mem_cons.mpr ⟨?_, List.forall_mem_cons.mpr ⟨?_, by simp⟩⟩
    · intro hno
      revert hno
      decide +kernel
    · intro _ head hload
      cases hload

/-- **The gate passes a block that was discarded**: block 2 is flushed and reverted, and
its sibling is committed without a flush; the key index still has the head of the
discarded block, at the number of its sibling. -/
theorem gate_passes_discarded_block :
    ¬∀ (U : Ubt) (config : UbtConfig) (h : List (Tracked × Event)) (t : Tracked),
      Run (SingleStep U (0, 0)) (.start (.fresh config)) h t → GateSound (0, 0) (fun _ => 0) t := by
  intro hall
  have hrun : Run (SingleStep sampleUbt (0, 0)) (.start (.fresh ⟨2, 10⟩)) _ gateRecommitted :=
    .snoc (.snoc gateFlushed_run (Tracked.afterRevert_step rfl))
      (Tracked.afterCommit_step ⟨rfl, rfl, trivial⟩ (fun _ => rfl) (by decide +kernel))
  have hok : (ensureNomtSynced (.over gateRecommitted.machine.exex.toDisk fun _ => none)).isOk =
      true := by decide +kernel
  obtain ⟨u, hgate⟩ := EStateM.Result.exists_ok hok
  obtain ⟨head, hload, htip, -⟩ := hall _ _ _ _ hrun _ _ hgate
  have hhash : (gateRecommitted.machine.exex.keyIndex.loadHead.map HeadRecord.blockHash) =
      some 12 := by decide +kernel
  rw [hload] at hhash
  have hfound : head.blockHash = 12 := Option.some.inj hhash
  have hwanted : head.blockHash = 22 := congrArg Prod.snd htip
  rw [hfound] at hwanted
  exact absurd hwanted (by decide)

end UbtExex
