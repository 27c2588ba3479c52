import UbtExex.Lib.Stutter
import UbtExex.Replay

/-!
# Graceful restarts

A flush moves the overlay into MDBX, and a restart after a shutdown reads everything
back.  Neither shows: two extensions that are given the same commits, one after the
other, end alike whatever their flush intervals and wherever they were restarted.
They refuse the same commits, see the same stems, and have the same NOMT with its
history, the same addresses and the same key index; after a shutdown their MDBX tables
are the same, up to deltas that one of them has pruned.

## Main definitions

* `SameView` — two extensions that differ in what is flushed.
* `SessionEvent` — a commit, or a shutdown and a startup with another configuration.
* `SameTables` — stores that differ in the head of the key index and in pruned deltas.

## Main results

* `SameView.commit` — **a commit ends alike on both sides**, whichever of them flushes.
* `SameView.gracefulRestart` — **a graceful restart does not show.**
* `restarts_invisible` — **runs with the same commits end alike.**
-/

open Std Stutter

namespace UbtExex

/-! ### Extensions that look alike -/

/-- What neither a flush nor a graceful restart changes; of the deltas the rows of the
blocks that are kept. -/
structure SameView (kept : ℕ → Prop) (s s' : UbtExEx) : Prop where
  pendingEntries : s.pendingEntries = s'.pendingEntries
  stem : ∀ stem, overlayStem s.db s.dirtyStems stem = overlayStem s'.db s'.dirtyStems stem
  addresses : s.db.stemAddresses = s'.db.stemAddresses
  rows : ∀ k, kept k → s.db.loadBlockDeltas k = s'.db.loadBlockDeltas k
  index : s.keyIndex.stemTable = s'.keyIndex.stemTable
  nomt : s.nomt = s'.nomt
  lastBlock : s.lastBlock = s'.lastBlock
  lastHash : s.lastHash = s'.lastHash
  stemCount : s.stemCount = s'.stemCount

namespace SameView

variable {kept : ℕ → Prop} {s s' s'' : UbtExEx}

theorem refl (s : UbtExEx) : SameView kept s s :=
  ⟨rfl, fun _ => rfl, rfl, fun _ _ => rfl, rfl, rfl, rfl, rfl, rfl⟩

theorem symm (h : SameView kept s s') : SameView kept s' s where
  pendingEntries := h.pendingEntries.symm
  stem stem := (h.stem stem).symm
  addresses := h.addresses.symm
  rows k hk := (h.rows k hk).symm
  index := h.index.symm
  nomt := h.nomt.symm
  lastBlock := h.lastBlock.symm
  lastHash := h.lastHash.symm
  stemCount := h.stemCount.symm

theorem trans (h : SameView kept s s') (h' : SameView kept s' s'') : SameView kept s s'' where
  pendingEntries := h.pendingEntries.trans h'.pendingEntries
  stem stem := (h.stem stem).trans (h'.stem stem)
  addresses := h.addresses.trans h'.addresses
  rows k hk := (h.rows k hk).trans (h'.rows k hk)
  index := h.index.trans h'.index
  nomt := h.nomt.trans h'.nomt
  lastBlock := h.lastBlock.trans h'.lastBlock
  lastHash := h.lastHash.trans h'.lastHash
  stemCount := h.stemCount.trans h'.stemCount

end SameView

/-! ### Recording a block on both sides -/

/-- The loop of `commit`, over two pairs of layers that are read as one map: it leaves
two such pairs, and finds the same stems new. -/
theorem foldl_applyEntry_congr {db db' : UbtDatabase} (es : List PendingEntry) {o o' : Overlay}
    (hstem : ∀ stem, overlayStem db o.dirtyStems stem = overlayStem db' o'.dirtyStems stem)
    (hnews : o.newStemAddresses = o'.newStemAddresses) :
    (∀ stem, overlayStem db (es.foldl (applyEntry db) o).dirtyStems stem =
        overlayStem db' (es.foldl (applyEntry db') o').dirtyStems stem) ∧
      (es.foldl (applyEntry db) o).newStemAddresses =
        (es.foldl (applyEntry db') o').newStemAddresses := by
  induction es generalizing o o' with
  | nil => exact ⟨hstem, hnews⟩
  | cons e es ih =>
    rw [List.foldl_cons, List.foldl_cons]
    refine ih ?_ ?_
    · intro stem
      rw [dirtyStems_applyEntry, dirtyStems_applyEntry, overlayStem_writeStem,
        overlayStem_writeStem, hstem, hstem]
    · have hknown : Known db o.dirtyStems e.key.stem ↔ Known db' o'.dirtyStems e.key.stem := by
        unfold Known
        rw [hstem]
      by_cases hold : Known db o.dirtyStems e.key.stem
      · rw [newStemAddresses_of_old hold, newStemAddresses_of_old (hknown.mp hold), hnews]
      · rw [newStemAddresses_of_new hold, newStemAddresses_of_new (mt hknown.mpr hold), hnews]

theorem overlayValue_of_stem {db db' : UbtDatabase} {dirty dirty' : ExtTreeMap Stem StemNode}
    (h : ∀ stem, overlayStem db dirty stem = overlayStem db' dirty' stem) :
    overlayValue db dirty = overlayValue db' dirty' := by
  funext key
  unfold overlayValue
  rw [h]

section Commit

variable {kept : ℕ → Prop} {s s' : UbtExEx}

/-- The loop of `commit` over the pending entries, on both sides. -/
theorem SameView.pendingOverlay (h : SameView kept s s') :
    (∀ stem, overlayStem s.db (pendingOverlay s).dirtyStems stem =
        overlayStem s'.db (UbtExex.pendingOverlay s').dirtyStems stem) ∧
      (UbtExex.pendingOverlay s).newStemAddresses = (UbtExex.pendingOverlay s').newStemAddresses ∧
      (UbtExex.pendingOverlay s).deltas = (UbtExex.pendingOverlay s').deltas := by
  have hfold := @foldl_applyEntry_congr s.db s'.db s'.pendingEntries ⟨s.dirtyStems, [], []⟩
    ⟨s'.dirtyStems, [], []⟩ h.stem rfl
  have hdeltas := deltas_applyEntries s.db s.dirtyStems s'.pendingEntries
  rw [overlayValue_of_stem h.stem, ← deltas_applyEntries] at hdeltas
  unfold UbtExex.pendingOverlay
  rw [h.pendingEntries]
  exact ⟨hfold.1, hfold.2, hdeltas⟩

/-- **What is recorded of a block looks alike on both sides.** -/
theorem SameView.recorded (h : SameView kept s s') {n k : ℕ} {hash : B256} {db db' : UbtDatabase}
    {ki ki' : KeyIndex} {ws ws' : List (Stem × Address)}
    (hdb : s.db.batchSaveStemAddresses ws = .ok db)
    (hdb' : s'.db.batchSaveStemAddresses ws' = .ok db')
    (haddresses : db.stemAddresses = db'.stemAddresses) (hindex : ki.stemTable = ki'.stemTable) :
    SameView kept (recorded s n hash db ki k) (UbtExex.recorded s' n hash db' ki' k) := by
  obtain ⟨hstem, -, hdeltas⟩ := h.pendingOverlay
  -- the other tables are as before
  rw [UbtDatabase.batchSaveStemAddresses_eq_ok hdb, UbtDatabase.batchSaveStemAddresses_eq_ok hdb']
  refine
    { pendingEntries := rfl
      stem := hstem
      addresses := haddresses
      rows := fun j hj => ?_
      index := hindex
      nomt := ?_
      lastBlock := rfl
      lastHash := rfl
      stemCount := congrArg (· + k) h.stemCount }
  · unfold UbtExex.recorded
    rw [loadBlockDeltas_savedDeltas, loadBlockDeltas_savedDeltas, hdeltas]
    exact if_congr Iff.rfl rfl (h.rows j hj)
  · show s.nomt.commitUpdates s.pendingEntries n = s'.nomt.commitUpdates s'.pendingEntries n
    rw [h.nomt, h.pendingEntries]

theorem stemAddresses_retainDeltas (db : UbtDatabase) (n retention : ℕ) :
    (retainDeltas db n retention).stemAddresses = db.stemAddresses := by
  unfold retainDeltas
  split <;> rfl

variable (U : Ubt)

/-- **A flush does not show**, if its pruning leaves the kept rows. -/
theorem SameView.flushed (s : UbtExEx) (n : ℕ) (hash : B256)
    (hkept : ∀ k, kept k → n ≤ k + s.deltaRetention) :
    SameView kept s (flushed U s n hash) where
  pendingEntries := rfl
  stem stem := (overlayStem_drained (stems_retainDeltas _ _ _) stem).symm
  addresses := by
    unfold UbtExex.flushed
    rw [stemAddresses_retainDeltas]
    rfl
  rows k hk := by
    have hle := hkept k hk
    unfold UbtExex.flushed
    rw [loadBlockDeltas_retainDeltas, if_neg (by omega)]
    rfl
  index := rfl
  nomt := rfl
  lastBlock := rfl
  lastHash := rfl
  stemCount := rfl

/-- A commit leaves what it recorded, flushed or not. -/
theorem SameView.committed (s : UbtExEx) (n : ℕ) (hash : B256) (db : UbtDatabase) (ki : KeyIndex)
    (k : ℕ) (hkept : ∀ j, kept j → n ≤ j + s.deltaRetention) :
    SameView kept (UbtExex.recorded s n hash db ki k) (committed U s n hash db ki k) := by
  unfold UbtExex.committed
  split
  · exact SameView.flushed U _ n hash hkept
  · exact .refl _

end Commit

/-- The extension is between operations, NOMT is at its block, and it retains the deltas of
`W` blocks. -/
structure AtTip (W : ℕ) (s : UbtExEx) : Prop where
  pendingEntries : s.pendingEntries = []
  nomtHead : s.nomt.current.headBlock = s.lastBlock
  retention : W ≤ s.deltaRetention

theorem AtTip.commit {U : Ubt} {W n : ℕ} {hash : B256} {es : List PendingEntry} {m m' : Machine}
    {root : B256} (hs : AtTip W m.exex) (hrun : commitEntries U n hash es m = .ok root m') :
    AtTip W m'.exex := by
  have hc := commit_ok U hrun
  refine ⟨hc.pendingEntries, ?_, ?_⟩
  · rw [hc.nomt, hc.lastBlock]
    exact NomtMap.headBlock_update _ _ _
  · rw [hc.deltaRetention]
    exact hs.retention

/-- If a commit succeeds on one side, it does so on the other. -/
theorem SameView.commit_of_ok {U : Ubt} {kept : ℕ → Prop} {W n : ℕ} {hash root : B256}
    {m m' m₁ : Machine} (h : SameView kept m.exex m'.exex) (hm : W ≤ m.exex.deltaRetention)
    (hm' : W ≤ m'.exex.deltaRetention) (hkept : ∀ k, kept k → n ≤ k + W)
    (hrun : commit U n hash m = .ok root m₁) :
    ∃ root' m₁', commit U n hash m' = .ok root' m₁' ∧ SameView kept m₁.exex m₁'.exex := by
  obtain ⟨db, ki, k, hdb, hki, he, -⟩ := commit_effect U hrun
  -- the tables that accept the block agree
  obtain ⟨db', hdb', haddresses⟩ :=
    UbtDatabase.batchSaveStemAddresses_congr h.addresses.symm hdb
  obtain ⟨ki', hki', hindex⟩ :=
    KeyIndex.applyUpdates_congr h.index.symm hki
  rw [h.pendingOverlay.2.1] at hdb'
  rw [h.pendingEntries] at hki'
  obtain ⟨m₁', hrun', he'⟩ := commit_eq U n hash hdb' hki'
  refine ⟨_, m₁', hrun', ?_⟩
  rw [he, he']
  have hleft := @SameView.committed kept U m.exex n hash db ki k fun j hj =>
    (hkept j hj).trans (Nat.add_le_add_left hm j)
  have hright := @SameView.committed kept U m'.exex n hash db' ki' k fun j hj =>
    (hkept j hj).trans (Nat.add_le_add_left hm' j)
  exact hleft.symm.trans ((h.recorded hdb hdb' haddresses.symm hindex.symm).trans hright)

/-- **A commit ends alike on both sides**, whichever of them flushes. -/
theorem SameView.commit {U : Ubt} {kept : ℕ → Prop} {W n : ℕ} {hash : B256}
    {es : List PendingEntry} {m m' : Machine} (h : SameView kept m.exex m'.exex)
    (hm : AtTip W m.exex) (hm' : AtTip W m'.exex) (hkept : ∀ k, kept k → n ≤ k + W) :
    EndAlike (fun m m' => SameView kept m.exex m'.exex) (commitEntries U n hash es m)
      (commitEntries U n hash es m') := by
  have hpush : SameView kept (m.push es).exex (m'.push es).exex :=
    { h with pendingEntries := congrArg (· ++ es) h.pendingEntries }
  refine .of_ok (fun root m₁ hrun => ?_) fun root m₁' hrun' => ?_
  · exact hpush.commit_of_ok hm.retention hm'.retention hkept hrun
  · obtain ⟨root', m₁, hrun, -⟩ :=
      hpush.symm.commit_of_ok hm'.retention hm.retention hkept hrun'
    unfold commitEntries
    rw [hrun]
    rfl

/-! ### Graceful restarts -/

variable (U : Ubt)

/-- A startup over the stores that the process left. -/
def reopen (config : UbtConfig) : ExM Unit := fun m =>
  match UbtExEx.new U config m.exex.toDisk with
  | .ok s => .ok () { m with exex := s }
  | .error e => .error e m

/-- A shutdown, and a startup with a configuration. -/
def gracefulRestart (config : UbtConfig) : ExM Unit := do
  shutdown U
  reopen U config

variable {U}

/-- A shutdown does not show: it empties the overlay into MDBX and saves the head. -/
theorem SameView.shutdown (kept : ℕ → Prop) (m : Machine) :
    ∃ m', shutdown U m = .ok () m' ∧ SameView kept m.exex m'.exex ∧ m'.exex.dirtyStems = ∅ ∧
      m'.exex.db.head = some ⟨m.exex.lastBlock, m.exex.lastHash, computeRoot U m'.exex.db,
        m.exex.stemCount⟩ := by
  obtain ⟨root, m', hrun, hroot, he, -⟩ := saveCurrent_spec U m
  have hstems : m'.exex.db.stems = drainedStems m.exex := by rw [he]; rfl
  have hdirty : m'.exex.dirtyStems = ∅ := by rw [he]
  refine ⟨m', ?_, ?_, hdirty, ?_⟩
  · unfold UbtExex.shutdown
    rw [bind_apply_of_ok hrun]
    rfl
  · exact {
      pendingEntries := by rw [he]
      stem := fun stem => by rw [hdirty, overlayStem_drained hstems]
      addresses := by rw [he]; rfl
      rows := fun k _ => by rw [he]; rfl
      index := by rw [he]
      nomt := by rw [he]
      lastBlock := by rw [he]
      lastHash := by rw [he]
      stemCount := by rw [he] }
  · rw [← hroot, he]
    rfl

theorem syncNomt_of_eq {s : UbtExEx} (h : s.nomt.current.headBlock = s.lastPersistedBlock) :
    s.syncNomt = s := by
  unfold UbtExEx.syncNomt
  simp [h]

/-- **A graceful restart succeeds and does not show**, and the extension is between
operations after it. -/
theorem SameView.gracefulRestart {kept : ℕ → Prop} {W : ℕ} {m : Machine} (hm : AtTip W m.exex)
    {config : UbtConfig} (hconfig : W ≤ config.deltaRetention) :
    ∃ m', gracefulRestart U config m = .ok () m' ∧ SameView kept m.exex m'.exex ∧
      AtTip W m'.exex := by
  obtain ⟨m₁, hrun, hlike, hdirty, hhead⟩ := SameView.shutdown kept m
  set hd : UbtHead := ⟨m.exex.lastBlock, m.exex.lastHash, computeRoot U m₁.exex.db,
    m.exex.stemCount⟩ with hhd
  set s := UbtExEx.restore config m₁.exex.toDisk (some hd) with hs
  -- NOMT is at the block of the saved head, so there is nothing to roll back
  have hsync : s.nomt.current.headBlock = s.lastPersistedBlock := by
    change m₁.exex.nomt.current.headBlock = m.exex.lastBlock
    rw [← hlike.nomt, hm.nomtHead]
  have hnew : UbtExEx.new U config m₁.exex.toDisk = .ok s := by
    refine (new_eq_ok_iff U).mpr ⟨rootOk_of_head hhead rfl, ?_⟩
    change s = (UbtExEx.restore config m₁.exex.toDisk m₁.exex.db.head).syncNomt
    rw [hhead, ← hs, syncNomt_of_eq hsync]
  refine ⟨{ m₁ with exex := s }, ?_, hlike.trans ?_, ⟨rfl, hsync, hconfig⟩⟩
  · unfold UbtExex.gracefulRestart
    rw [bind_apply_of_ok hrun]
    unfold reopen
    rw [hnew]
  · exact {
      pendingEntries := hlike.pendingEntries.symm.trans hm.pendingEntries
      stem := fun stem => by rw [hdirty]; rfl
      addresses := rfl
      rows := fun _ _ => rfl
      index := rfl
      nomt := rfl
      lastBlock := hlike.lastBlock.symm
      lastHash := hlike.lastHash.symm
      stemCount := hlike.stemCount.symm }

/-! ### Sessions -/

/-- What happens to an extension between its first start and its last shutdown. -/
inductive SessionEvent
  | commit (c : BlockCommit)
  | restart (config : UbtConfig)

namespace SessionEvent

/-- The event is a restart. -/
def isRestart : SessionEvent → Bool
  | commit _ => false
  | restart _ => true

/-- The event as a program. -/
def run (U : Ubt) : SessionEvent → ExM Unit
  | commit c => do
    let _ ← commitEntries U c.number c.hash c.entries
  | restart config => gracefulRestart U config

/-- A restart keeps the deltas of `W` blocks at least, and a commit is within `W` blocks of
those that are kept. -/
def Retains (W : ℕ) (kept : ℕ → Prop) : SessionEvent → Prop
  | commit c => ∀ k, kept k → c.number ≤ k + W
  | restart config => W ≤ config.deltaRetention

end SessionEvent

/-- Commits show and restarts are hidden. -/
theorem hiding_sessionEvent (U : Ubt) (W : ℕ) (kept : ℕ → Prop) :
    Hiding (SessionEvent.run U) SessionEvent.isRestart (SessionEvent.Retains W kept)
      (fun m => AtTip W m.exex) fun m m' => SameView kept m.exex m'.exex where
  symm m m' h := h.symm
  trans m m' m'' h h' := h.trans h'
  kept e m m' he hm hrun := by
    cases e with
    | commit c =>
      obtain ⟨root, m₁, hcommit, hpure⟩ := EStateM.bind_eq_ok.mp hrun
      cases hpure
      exact hm.commit hcommit
    | restart config =>
      obtain ⟨m₁, hrun', -, hsettled⟩ := @SameView.gracefulRestart U kept W m hm config he
      change gracefulRestart U config m = .ok () m' at hrun
      rw [hrun'] at hrun
      cases hrun
      exact hsettled
  hides e m he hhidden hm := by
    cases e with
    | commit c => cases hhidden
    | restart config =>
      obtain ⟨m', hrun, hlike, -⟩ := SameView.gracefulRestart hm he
      exact ⟨m', hrun, hlike⟩
  shows_alike e m m' he hhidden hm hm' hlike := by
    cases e with
    | commit c => exact (hlike.commit hm hm' he).bind fun _ _ _ _ _ _ h => .ok h
    | restart config => cases hhidden

/-- The stores of two directories, up to the head of the key index and to the deltas of
blocks that are not kept. -/
structure SameTables (kept : ℕ → Prop) (d d' : Disk) : Prop where
  stems : d.db.stems = d'.db.stems
  addresses : d.db.stemAddresses = d'.db.stemAddresses
  head : d.db.head = d'.db.head
  rows : ∀ k, kept k → d.db.loadBlockDeltas k = d'.db.loadBlockDeltas k
  nomt : d.nomt = d'.nomt
  index : d.keyIndex.stemTable = d'.keyIndex.stemTable

/-- **After a shutdown** the stores of extensions that look alike are the same. -/
theorem SameView.sameTables {U : Ubt} {kept : ℕ → Prop} {m m' : Machine}
    (h : SameView kept m.exex m'.exex) :
    EndAlike (fun m m' => SameTables kept m.exex.toDisk m'.exex.toDisk) (UbtExex.shutdown U m)
      (UbtExex.shutdown U m') := by
  obtain ⟨m₁, hrun, hlike, hdirty, hhead⟩ := SameView.shutdown kept m
  obtain ⟨m₁', hrun', hlike', hdirty', hhead'⟩ := SameView.shutdown kept m'
  have h₁ := hlike.symm.trans (h.trans hlike')
  have hstems : m₁.exex.db.stems = m₁'.exex.db.stems := by
    apply ExtTreeMap.ext_getElem?
    intro stem
    have hstem := h₁.stem stem
    rw [hdirty, hdirty', overlayStem_empty, overlayStem_empty] at hstem
    exact hstem
  rw [hrun, hrun']
  refine .ok ⟨hstems, h₁.addresses, ?_, h₁.rows, h₁.nomt, h₁.index⟩
  rw [hhead, hhead', h.lastBlock, h.lastHash, h.stemCount, computeRoot_congr U hstems]

/-- The blocks at most `W` before every commit of a session. -/
def Within (W : ℕ) (es : List SessionEvent) (k : ℕ) : Prop :=
  ∀ c, SessionEvent.commit c ∈ es → c.number ≤ k + W

/-- A session over fresh stores, and the shutdown at its end. -/
def runSession (U : Ubt) (config : UbtConfig) (es : List SessionEvent) :
    EStateM.Result UbtError Machine Unit :=
  (es.forM (SessionEvent.run U) >>= fun _ => shutdown U) (.fresh config)

/-- **Graceful restarts and flushes do not show.**  Two sessions from fresh stores with the
same commits, under any flush intervals and with shutdowns and startups anywhere between
the commits, both run to their end or both stop at a refused commit.  At the end they have
the same stems, addresses, key index and NOMT history, the same block and the same count of
stems, and the same deltas of the blocks that all configurations retain; and a shutdown
leaves the same stores. -/
theorem restarts_invisible (U : Ubt) {W : ℕ} {config config' : UbtConfig}
    {es es' : List SessionEvent} (hconfig : W ≤ config.deltaRetention)
    (hconfig' : W ≤ config'.deltaRetention)
    (hes : ∀ config, SessionEvent.restart config ∈ es ++ es' → W ≤ config.deltaRetention)
    (hcommits : (es.filter fun e => !e.isRestart) = es'.filter fun e => !e.isRestart) :
    EndAlike (fun m m' => SameView (Within W es) m.exex m'.exex)
        (es.forM (SessionEvent.run U) (.fresh config))
        (es'.forM (SessionEvent.run U) (.fresh config')) ∧
      EndAlike (fun m m' => SameTables (Within W es) m.exex.toDisk m'.exex.toDisk)
        (runSession U config es) (runSession U config' es') := by
  -- the commits of the second session are those of the first
  have hmem : ∀ c, SessionEvent.commit c ∈ es' → SessionEvent.commit c ∈ es := by
    intro c hc
    have hfilter : SessionEvent.commit c ∈ es'.filter fun e => !e.isRestart :=
      List.mem_filter.mpr ⟨hc, rfl⟩
    rw [← hcommits] at hfilter
    exact List.mem_of_mem_filter hfilter
  have hvalid : ∀ e ∈ es ++ es', e.Retains W (Within W es) := by
    intro e he
    cases e with
    | commit c =>
      intro k hk
      rcases List.mem_append.mp he with hc | hc
      · exact hk c hc
      · exact hk c (hmem c hc)
    | restart config => exact hes config he
  have hfresh : ∀ config : UbtConfig, W ≤ config.deltaRetention →
      AtTip W (Machine.fresh config).exex := fun config h => ⟨rfl, rfl, h⟩
  have hstart : SameView (Within W es) (Machine.fresh config).exex (Machine.fresh config').exex :=
    ⟨rfl, fun _ => rfl, rfl, fun _ _ => rfl, rfl, rfl, rfl, rfl, rfl⟩
  have hruns := (hiding_sessionEvent U W (Within W es)).endAlike
    (fun e he => hvalid e (List.mem_append_left _ he))
    (fun e he => hvalid e (List.mem_append_right _ he)) hcommits (hfresh config hconfig)
    (hfresh config' hconfig') hstart
  exact ⟨hruns, hruns.bind fun _ _ m m' _ _ h => h.sameTables⟩

/-- The sample commits as a session, and with a restart after the second. -/
def sampleSession (restarts : List UbtConfig) : List SessionEvent :=
  (sampleCommits.take 2).map .commit ++
    (restarts.map .restart ++ (sampleCommits.drop 2).map .commit)

/-- The sample commits end alike with a restart and without. -/
theorem restarts_invisible_three_commits :
    (runSession sampleUbt ⟨10, 5⟩ (sampleSession [])).isOk = true ∧
      (runSession sampleUbt ⟨1, 7⟩ (sampleSession [⟨2, 6⟩])).isOk = true ∧
      SameTables (Within 5 (sampleSession []))
        (runSession sampleUbt ⟨10, 5⟩ (sampleSession [])).state.exex.toDisk
        (runSession sampleUbt ⟨1, 7⟩ (sampleSession [⟨2, 6⟩])).state.exex.toDisk := by
  have hes : ∀ config, SessionEvent.restart config ∈ sampleSession [] ++ sampleSession [⟨2, 6⟩] →
      5 ≤ config.deltaRetention := by
    intro config hconfig
    have hmem : config = ⟨2, 6⟩ := by
      simpa [sampleSession, sampleCommits] using hconfig
    rw [hmem]
    decide
  have hcommits : ((sampleSession []).filter fun e => !e.isRestart) =
      (sampleSession [⟨2, 6⟩]).filter fun e => !e.isRestart := by
    simp [sampleSession, sampleCommits, SessionEvent.isRestart]
  have hend : EndAlike
      (fun m m' => SameTables (Within 5 (sampleSession [])) m.exex.toDisk m'.exex.toDisk)
      (runSession sampleUbt ⟨10, 5⟩ (sampleSession []))
      (runSession sampleUbt ⟨1, 7⟩ (sampleSession [⟨2, 6⟩])) :=
    (@restarts_invisible sampleUbt 5 ⟨10, 5⟩ ⟨1, 7⟩ _ _ (by decide) (by decide) hes hcommits).2
  have hok : (runSession sampleUbt ⟨10, 5⟩ (sampleSession [])).isOk = true := by decide +kernel
  exact ⟨hok, hend.of_isOk hok⟩

end UbtExex
