import UbtExex.Revert

/-!
# Sequences of commits

A sequence of commits, whatever its block numbers and whichever of the commits
flush, is the last-write-wins fold of its entries; what is persisted after a flush
or a shutdown is exactly that fold.  The deltas stored by consecutive commits take
the state back, from the last block to the first, across any flush in between.

## Main definitions

* `BlockCommit`, `commitAll` — commits of given entry lists, one after the other.
* `Persisted` — the stored entries and the head are those of a state.
* `undoBlocks` — load the deltas of blocks and apply them in reverse.

## Main results

* `overlay_refines_map` — **overlay and MDBX refine a plain map, whatever the flush
  interval.**
* `undo_log_inverts_commits` — **the stored deltas undo commits, and the commits can
  be made again.**
-/

open Std

namespace UbtExex

/-! ### Commits of given entries -/

/-- A machine whose pending entries are a given list. -/
def Machine.withEntries (m : Machine) (entries : List PendingEntry) : Machine :=
  m.update fun s => { s with pendingEntries := entries }

/-- The arguments of a commit: the block and the pending entries. -/
structure BlockCommit where
  number : ℕ
  hash : B256
  entries : List PendingEntry

/-- The writes of a commit. -/
def BlockCommit.writes (c : BlockCommit) : List (TreeKey × B256) :=
  c.entries.map PendingEntry.write

variable (U : Ubt)

/-- Commit a block with its entries. -/
def commitBlock (c : BlockCommit) : ExM B256 := fun m =>
  commit U c.number c.hash (m.withEntries c.entries)

/-- Commit blocks one after the other. -/
def commitAll (cs : List BlockCommit) : ExM Unit := cs.forM fun c => do
  let _ ← commitBlock U c

/-- The effect of a commit of given entries. -/
theorem commitBlock_ok {c : BlockCommit} {m m' : Machine} {root : B256}
    (h : commitBlock U c m = .ok root m') :
    Committed U c.number c.hash (m.withEntries c.entries) m' root := commit_ok U h

variable {U}

@[simp] theorem commitAll_nil (m : Machine) : commitAll U [] m = .ok () m := rfl

theorem commitAll_cons {c : BlockCommit} {cs : List BlockCommit} {m m' : Machine} :
    commitAll U (c :: cs) m = .ok () m' ↔
      ∃ root m₁, commitBlock U c m = .ok root m₁ ∧ commitAll U cs m₁ = .ok () m' := by
  change ((commitBlock U c >>= fun _ => pure ()) >>= fun _ => commitAll U cs) m = _ ↔ _
  rw [EStateM.bind_eq_ok]
  constructor
  · rintro ⟨u, m₁, h₁, hrest⟩
    rw [EStateM.bind_eq_ok] at h₁
    obtain ⟨root, m₂, h₂, hpure⟩ := h₁
    cases hpure
    exact ⟨root, m₁, h₂, hrest⟩
  · rintro ⟨root, m₁, h₁, hrest⟩
    refine ⟨(), m₁, ?_, hrest⟩
    rw [bind_apply_of_ok h₁]
    rfl

theorem commitAll_append {cs cs' : List BlockCommit} {m m' : Machine} :
    commitAll U (cs ++ cs') m = .ok () m' ↔
      ∃ m₁, commitAll U cs m = .ok () m₁ ∧ commitAll U cs' m₁ = .ok () m' := by
  induction cs generalizing m with
  | nil => simp
  | cons c cs ih =>
    rw [List.cons_append, commitAll_cons]
    constructor
    · rintro ⟨root, m₁, h₁, hrest⟩
      obtain ⟨m₂, h₂, hrest⟩ := ih.mp hrest
      exact ⟨m₂, commitAll_cons.mpr ⟨root, m₁, h₁, h₂⟩, hrest⟩
    · rintro ⟨m₂, h₂, hrest⟩
      obtain ⟨root, m₁, h₁, h₂⟩ := commitAll_cons.mp h₂
      exact ⟨root, m₁, h₁, ih.mpr ⟨m₂, h₂, hrest⟩⟩

/-! ### The fold of the entries -/

/-- The state after commits: the last-write-wins fold of their entries. -/
def foldCommits (σ : TreeKey → B256) (cs : List BlockCommit) : TreeKey → B256 :=
  Writes.applyAll σ (cs.flatMap BlockCommit.writes)

theorem foldCommits_cons (σ : TreeKey → B256) (c : BlockCommit) (cs : List BlockCommit) :
    foldCommits σ (c :: cs) = foldCommits (Writes.applyAll σ c.writes) cs := by
  unfold foldCommits
  rw [List.flatMap_cons, Writes.applyAll_append]

theorem logical_commitBlock {c : BlockCommit} {m m' : Machine} {root : B256}
    (h : commitBlock U c m = .ok root m') :
    m'.exex.logical = Writes.applyAll m.exex.logical c.writes :=
  (commitBlock_ok U h).logical

/-- **The state after commits is the fold of their entries.** -/
theorem logical_commitAll {cs : List BlockCommit} {m m' : Machine}
    (h : commitAll U cs m = .ok () m') : m'.exex.logical = foldCommits m.exex.logical cs := by
  induction cs generalizing m with
  | nil => cases h; rfl
  | cons c cs ih =>
    obtain ⟨root, m₁, h₁, hrest⟩ := commitAll_cons.mp h
    rw [ih hrest, logical_commitBlock h₁, foldCommits_cons]

/-- The last block of a sequence of commits, or the one before it. -/
def lastCommit (tip : ℕ × B256) (cs : List BlockCommit) : ℕ × B256 :=
  (cs.getLast?.map fun c => (c.number, c.hash)).getD tip

theorem lastCommit_cons (tip : ℕ × B256) (c : BlockCommit) (cs : List BlockCommit) :
    lastCommit tip (c :: cs) = lastCommit (c.number, c.hash) cs := by
  unfold lastCommit
  cases cs with
  | nil => rfl
  | cons c' cs => rw [List.getLast?_cons_cons, List.getLast?_eq_some_getLast (by simp)]; rfl

theorem tip_commitAll {cs : List BlockCommit} {m m' : Machine}
    (h : commitAll U cs m = .ok () m') :
    (m'.exex.lastBlock, m'.exex.lastHash) =
      lastCommit (m.exex.lastBlock, m.exex.lastHash) cs := by
  induction cs generalizing m with
  | nil => cases h; rfl
  | cons c cs ih =>
    obtain ⟨root, m₁, h₁, hrest⟩ := commitAll_cons.mp h
    have hc := commitBlock_ok U h₁
    rw [ih hrest, hc.lastBlock, hc.lastHash, lastCommit_cons]

variable (U)

/-- The stored entries are the non-zero values of a state, each once and in order,
and the stored head is that of a block, with their root. -/
structure Persisted (σ : TreeKey → B256) (tip : ℕ × B256) (db : UbtDatabase) : Prop where
  entries : ∀ key v, (key, v) ∈ db.iterEntriesSorted ↔ v ≠ 0 ∧ σ key = v
  sorted : db.iterEntriesSorted.Pairwise UbtDatabase.EntryLt
  head : ∃ hd, db.loadHead = some hd ∧ (hd.blockNumber, hd.blockHash) = tip ∧
    hd.root = U.buildRootHash db.iterEntriesSorted

variable {U}

/-- A state determines what is persisted of it. -/
theorem Persisted.unique {σ : TreeKey → B256} {tip : ℕ × B256} {db db' : UbtDatabase}
    (h : Persisted U σ tip db) (h' : Persisted U σ tip db') :
    db.iterEntriesSorted = db'.iterEntriesSorted ∧
      (db.loadHead.map fun hd => (hd.blockNumber, hd.blockHash, hd.root)) =
        db'.loadHead.map fun hd => (hd.blockNumber, hd.blockHash, hd.root) := by
  have hentries : db.iterEntriesSorted = db'.iterEntriesSorted := by
    -- two sorted lists with the same members are equal
    refine Tables.eq_of_sorted_of_mem_iff h.sorted h'.sorted ?_
    rintro ⟨key, v⟩
    rw [h.entries, h'.entries]
  refine ⟨hentries, ?_⟩
  obtain ⟨hd, hhd, htip, hroot⟩ := h.head
  obtain ⟨hd', hhd', htip', hroot'⟩ := h'.head
  rw [hhd, hhd', Option.map_some, Option.map_some, hroot, hroot', hentries]
  obtain ⟨hn, hh⟩ := Prod.mk.inj (htip.trans htip'.symm)
  rw [hn, hh]

theorem persisted_of_value {σ : TreeKey → B256} {tip : ℕ × B256} {db : UbtDatabase}
    (hvalue : db.value = σ) {stemCount : ℕ}
    (hhead : db.head = some ⟨tip.1, tip.2, computeRoot U db, stemCount⟩) :
    Persisted U σ tip db where
  entries key v := by rw [UbtDatabase.mem_iterEntriesSorted, hvalue]
  sorted := UbtDatabase.pairwise_iterEntriesSorted db
  head := ⟨_, hhead, rfl, rfl⟩

/-- A commit that flushes persists its state. -/
theorem Committed.persisted {n : ℕ} {hash : B256} {m m' : Machine} {root : B256}
    (hc : Committed U n hash m m' root) (hflush : m.exex.shouldFlush n = true) :
    Persisted U m'.exex.logical (n, hash) m'.exex.db := by
  obtain ⟨hdirty, -, -, -, hroot, stemCount, hhead⟩ := hc.flushed hflush
  refine persisted_of_value ?_ (hroot ▸ hhead)
  rw [logical_of_clean hdirty]

/-- A shutdown persists the state. -/
theorem persisted_shutdown {m m' : Machine} (h : shutdown U m = .ok () m') :
    m'.exex.logical = m.exex.logical ∧
      Persisted U m.exex.logical (m.exex.lastBlock, m.exex.lastHash) m'.exex.db := by
  obtain ⟨hlogical, hvalue, -, ⟨stemCount, hhead⟩, -⟩ := EStateM.of_eq_ok (shutdown_spec U m) h
  exact ⟨hlogical, persisted_of_value hvalue hhead⟩

/-- **Overlay and MDBX refine a plain map, whatever the flush interval.**  After any
sequence of successful commits `get_stem` gives the fold of their entries; a further
commit that flushes, and a shutdown, persist exactly the non-zero entries of the
fold with their root; and another run of the same commits, from the same state and
block but with any flush interval and retention, ends with the same entries, root
and head block after a shutdown. -/
theorem overlay_refines_map {cs : List BlockCommit} {m₀ m : Machine}
    (hrun : commitAll U cs m₀ = .ok () m) :
    (∀ stem i, ((m.exex.getStem stem).map fun node => node.value i).getD 0 =
        foldCommits m₀.exex.logical cs ⟨stem, i⟩) ∧
      (∀ c root m', commitBlock U c m = .ok root m' → m.exex.shouldFlush c.number = true →
        Persisted U (foldCommits m₀.exex.logical (cs ++ [c])) (c.number, c.hash) m'.exex.db) ∧
      (∀ m', shutdown U m = .ok () m' →
        Persisted U (foldCommits m₀.exex.logical cs)
          (lastCommit (m₀.exex.lastBlock, m₀.exex.lastHash) cs) m'.exex.db) ∧
      ∀ m₀' m₁ m' m₁', m₀'.exex.logical = m₀.exex.logical →
        m₀'.exex.lastBlock = m₀.exex.lastBlock → m₀'.exex.lastHash = m₀.exex.lastHash →
        commitAll U cs m₀' = .ok () m₁ → shutdown U m = .ok () m' → shutdown U m₁ = .ok () m₁' →
        m'.exex.db.iterEntriesSorted = m₁'.exex.db.iterEntriesSorted ∧
          (m'.exex.db.loadHead.map fun hd => (hd.blockNumber, hd.blockHash, hd.root)) =
            m₁'.exex.db.loadHead.map fun hd => (hd.blockNumber, hd.blockHash, hd.root) := by
  have hshut : ∀ {m₀ m m' : Machine}, commitAll U cs m₀ = .ok () m → shutdown U m = .ok () m' →
      Persisted U (foldCommits m₀.exex.logical cs)
        (lastCommit (m₀.exex.lastBlock, m₀.exex.lastHash) cs) m'.exex.db := by
    intro m₀ m m' hrun hs
    have hp := (persisted_shutdown hs).2
    rwa [logical_commitAll hrun, tip_commitAll hrun] at hp
  refine ⟨fun stem i => ?_, fun c root m' hc hflush => ?_, fun m' => hshut hrun, ?_⟩
  · rw [← logical_commitAll hrun]
    rfl
  · have hrun' : commitAll U (cs ++ [c]) m₀ = .ok () m' :=
      commitAll_append.mpr ⟨m, hrun, commitAll_cons.mpr ⟨root, m', hc, rfl⟩⟩
    rw [← logical_commitAll hrun']
    exact (commitBlock_ok U hc).persisted hflush
  · intro m₀' m₁ m' m₁' hlogical hblock hhash hrun₁ hs hs₁
    have hp₁ := hshut hrun₁ hs₁
    rw [hlogical, hblock, hhash] at hp₁
    exact (hshut hrun hs).unique hp₁

/-- Three commits with a gap in their numbers, keys that are written again and a zero value. -/
def sampleCommits : List BlockCommit :=
  [⟨1, 11, [⟨⟨1, 1⟩, 5, 7⟩, ⟨⟨1, 2⟩, 6, 7⟩]⟩, ⟨2, 12, [⟨⟨1, 1⟩, 9, 7⟩, ⟨⟨2, 1⟩, 8, 7⟩]⟩,
    ⟨5, 15, [⟨⟨1, 2⟩, 0, 7⟩, ⟨⟨2, 0⟩, 4, 7⟩]⟩]

/-- The machine after the sample commits. -/
def sampleRun (config : UbtConfig) : Machine :=
  (commitAll sampleUbt sampleCommits (.fresh config)).state

/-- The sample commits end alike with flush intervals 2 and 0. -/
theorem overlay_refines_map_two_intervals :
    (shutdown sampleUbt (sampleRun ⟨2, 10⟩)).state.exex.db.iterEntriesSorted =
      (shutdown sampleUbt (sampleRun ⟨0, 3⟩)).state.exex.db.iterEntriesSorted := by
  have hrun : ∀ config : UbtConfig, (commitAll sampleUbt sampleCommits (.fresh config)).isOk = true →
      commitAll sampleUbt sampleCommits (.fresh config) = .ok () (sampleRun config) := by
    intro config hok
    exact (EStateM.Result.exists_ok hok).choose_spec
  have hmap := overlay_refines_map (hrun ⟨2, 10⟩ (by decide +kernel))
  exact (hmap.2.2.2 (.fresh ⟨0, 3⟩) _ _ _ rfl rfl rfl (hrun ⟨0, 3⟩ (by decide +kernel))
    (shutdown_eq_ok sampleUbt _) (shutdown_eq_ok sampleUbt _)).1

/-! ### Undoing commits -/

/-- Load the deltas of blocks and apply them in reverse, block by block. -/
def undoBlocks (numbers : List ℕ) : ExM Unit := numbers.forM fun n => do
  let s := (← get).exex
  applyDeltasReverse (s.db.loadBlockDeltas n)

/-- Undoing blocks changes the overlay only. -/
theorem undoBlocks_spec (numbers : List ℕ) (m : Machine) :
    ∃ dirty m', undoBlocks numbers m = .ok () m' ∧ m'.exex = { m.exex with dirtyStems := dirty } ∧
      m'.exex.logical = Writes.applyAll m.exex.logical (storedUndo m.exex.db numbers) ∧
      ∀ stem, Known m.exex.db m.exex.dirtyStems stem →
        Known m'.exex.db m'.exex.dirtyStems stem := by
  induction numbers generalizing m with
  | nil => exact ⟨m.exex.dirtyStems, m, rfl, rfl, rfl, fun _ h => h⟩
  | cons n ns ih =>
    let m₁ := m.update fun s => { s with
      dirtyStems := (m.exex.db.loadBlockDeltas n).reverse.foldl (applyDelta s.db) s.dirtyStems }
    obtain ⟨dirty, m', hrun, he, hlog, hknown⟩ := ih m₁
    refine ⟨dirty, m', hrun, he, ?_, fun stem hs => hknown stem (known_foldl_applyDelta hs)⟩
    have hlog₁ : m₁.exex.logical = Writes.applyAll m.exex.logical
        ((m.exex.db.loadBlockDeltas n).reverse.map deltaWrite) := by
      rw [logical_eq, logical_eq, ← overlayValue_applyDeltas]
      rfl
    rw [hlog, hlog₁, ← Writes.applyAll_append]
    rfl

/-- Commits at consecutive block numbers from `n`. -/
def Consecutive : ℕ → List BlockCommit → Prop
  | _, [] => True
  | n, c :: cs => c.number = n ∧ Consecutive (n + 1) cs

theorem Consecutive.number_lt {n : ℕ} {cs : List BlockCommit} (h : Consecutive n cs) :
    ∀ c ∈ cs, n ≤ c.number ∧ c.number < n + cs.length := by
  induction cs generalizing n with
  | nil => simp
  | cons c cs ih =>
    obtain ⟨hn, hcs⟩ := h
    refine List.forall_mem_cons.mpr ⟨by simp [hn], fun c' hc' => ?_⟩
    obtain ⟨hlo, hhi⟩ := ih hcs c' hc'
    rw [List.length_cons]
    omega

theorem Consecutive.take {n : ℕ} {cs : List BlockCommit} (h : Consecutive n cs) (j : ℕ) :
    Consecutive n (cs.take j) := by
  induction cs generalizing n j with
  | nil => simp [Consecutive]
  | cons c cs ih =>
    cases j with
    | zero => exact trivial
    | succ j => exact ⟨h.1, ih h.2 j⟩

/-- A commit keeps the rows of the other blocks that are not too old to be retained. -/
theorem row_commitBlock {c : BlockCommit} {m m' : Machine} {root : B256} {k : ℕ}
    (h : commitBlock U c m = .ok root m') (hk : k ≠ c.number)
    (hkeep : c.number ≤ k + m.exex.deltaRetention) :
    m'.exex.db.loadBlockDeltas k = m.exex.db.loadBlockDeltas k := by
  have hrow := (commitBlock_ok U h).rows k
  have hR : (m.withEntries c.entries).exex.deltaRetention = m.exex.deltaRetention := rfl
  rw [hrow, if_neg, if_neg]
  · rfl
  · rintro ⟨hck, -⟩
    exact hk hck.symm
  · rintro ⟨-, hlt⟩
    rw [hR] at hlt
    omega

/-- Later commits keep a row while its block is retained. -/
theorem row_commitAll {cs : List BlockCommit} {m m' : Machine} {k : ℕ}
    (h : commitAll U cs m = .ok () m')
    (hk : ∀ c ∈ cs, k < c.number ∧ c.number ≤ k + m.exex.deltaRetention) :
    m'.exex.db.loadBlockDeltas k = m.exex.db.loadBlockDeltas k := by
  induction cs generalizing m with
  | nil => cases h; rfl
  | cons c cs ih =>
    obtain ⟨root, m₁, h₁, hrest⟩ := commitAll_cons.mp h
    obtain ⟨⟨hlt, hle⟩, hcs⟩ := List.forall_mem_cons.mp hk
    have hR : m₁.exex.deltaRetention = m.exex.deltaRetention := (commitBlock_ok U h₁).deltaRetention
    rw [ih hrest (by rwa [hR]), row_commitBlock h₁ (Nat.ne_of_lt hlt) hle]

/-- The row of the committed block is the undo log of its entries, when it had no row. -/
theorem row_committed {c : BlockCommit} {m m' : Machine} {root : B256}
    (h : commitBlock U c m = .ok root m') (hempty : m.exex.db.loadBlockDeltas c.number = []) :
    m'.exex.db.loadBlockDeltas c.number = undoDeltas m.exex.logical c.writes := by
  have hundo : (m.withEntries c.entries).exex.pendingUndo = undoDeltas m.exex.logical c.writes := rfl
  rw [(commitBlock_ok U h).row, hundo]
  by_cases hnil : undoDeltas m.exex.logical c.writes = []
  · rw [if_pos hnil, hnil]
    exact hempty
  · rw [if_neg hnil]

/-- **The rows of consecutive commits are the undo of their write lists**: induction on
the commits, each keeping the rows of those before it. -/
theorem storedUndo_commitAll {n : ℕ} {cs : List BlockCommit} {m m' : Machine}
    (hcons : Consecutive n cs) (hdepth : cs.length ≤ m.exex.deltaRetention)
    (hempty : ∀ j, n ≤ j → j < n + cs.length → m.exex.db.loadBlockDeltas j = [])
    (h : commitAll U cs m = .ok () m') :
    storedUndo m'.exex.db (List.range' n cs.length).reverse =
      Writes.undoAll m.exex.logical (cs.map BlockCommit.writes) := by
  induction cs generalizing n m with
  | nil => rfl
  | cons c cs ih =>
    obtain ⟨root, m₁, h₁, hrest⟩ := commitAll_cons.mp h
    obtain ⟨rfl, hcons⟩ := hcons
    rw [List.length_cons] at hdepth hempty ⊢
    have hR : m₁.exex.deltaRetention = m.exex.deltaRetention := (commitBlock_ok U h₁).deltaRetention
    have hempty₁ : ∀ j, c.number + 1 ≤ j → j < c.number + 1 + cs.length →
        m₁.exex.db.loadBlockDeltas j = [] := by
      intro j hlo hhi
      rw [row_commitBlock h₁ (by omega) (by omega)]
      exact hempty j (by omega) (by omega)
    have hrow : m'.exex.db.loadBlockDeltas c.number =
        undoDeltas m.exex.logical c.writes := by
      rw [row_commitAll hrest, row_committed h₁ (hempty _ le_rfl (by omega))]
      intro c' hc'
      obtain ⟨hlo, hhi⟩ := hcons.number_lt c' hc'
      rw [hR]
      omega
    have hrest' := ih hcons (by omega) hempty₁ hrest
    rw [logical_commitBlock h₁] at hrest'
    rw [List.range'_succ, List.reverse_cons, List.map_cons, Writes.undoAll, ← hrest']
    unfold storedUndo
    rw [List.flatMap_append]
    congr 1
    rw [List.flatMap_singleton, hrow, List.map_reverse, map_deltaWrite_undoDeltas]

/-- What a second commit of the same entries needs: their stems are known, with their
addresses. -/
def Accepts (m : Machine) (cs : List BlockCommit) : Prop :=
  ∀ c ∈ cs, ∀ e ∈ c.entries, Known m.exex.db m.exex.dirtyStems e.key.stem ∧
    m.exex.keyIndex.address e.key.stem = some e.address

/-- A commit keeps what the second commit needs, and gives it for its own entries. -/
theorem accepts_commitBlock {c : BlockCommit} {cs : List BlockCommit} {m m' : Machine}
    {root : B256} (h : commitBlock U c m = .ok root m') (hcs : Accepts m cs) :
    Accepts m' (c :: cs) := by
  have hc := commitBlock_ok U h
  refine List.forall_mem_cons.mpr ⟨fun e he => ⟨hc.known_entry e he, hc.address_entry e he⟩, ?_⟩
  intro c' hc' e he
  obtain ⟨hknown, haddr⟩ := hcs c' hc' e he
  exact ⟨hc.known_stays _ hknown, hc.address_stays _ _ haddr⟩

theorem accepts_commitAll {cs cs' : List BlockCommit} {m m' : Machine}
    (h : commitAll U cs m = .ok () m') (hcs' : Accepts m cs') : Accepts m' (cs ++ cs') := by
  induction cs generalizing m cs' with
  | nil => cases h; exact hcs'
  | cons c cs ih =>
    obtain ⟨root, m₁, h₁, hrest⟩ := commitAll_cons.mp h
    have hall := ih hrest (accepts_commitBlock h₁ hcs')
    intro c' hc'
    refine hall c' ?_
    simp only [List.cons_append, List.mem_cons, List.mem_append] at hc' ⊢
    tauto

/-- Commits whose entries are accepted succeed. -/
theorem commitAll_of_accepts {cs : List BlockCommit} {m : Machine} (h : Accepts m cs) :
    ∃ m', commitAll U cs m = .ok () m' := by
  induction cs generalizing m with
  | nil => exact ⟨m, rfl⟩
  | cons c cs ih =>
    obtain ⟨hc, hcs⟩ := List.forall_mem_cons.mp h
    have hfirst : ∃ root m₁, commitBlock U c m = .ok root m₁ :=
      commit_accepts U (fun e he => (hc e he).1) fun e he => (hc e he).2
    obtain ⟨root, m₁, h₁⟩ := hfirst
    obtain ⟨m', hrest⟩ := ih fun c' hc' => (accepts_commitBlock h₁ hcs) c' (List.mem_cons_of_mem _ hc')
    exact ⟨m', commitAll_cons.mpr ⟨root, m₁, h₁, hrest⟩⟩

/-- **The undo log inverts commits.**  After commits at consecutive block numbers
without rows, at most as many as are retained: undoing the blocks from the last to
the first restores the logical state; draining the overlay then gives the entries
and the root of the state before the commits; and committing the same entries again
succeeds, through the same logical states. -/
theorem undo_log_inverts_commits {n : ℕ} {cs : List BlockCommit} {m m₁ : Machine}
    (hcons : Consecutive n cs) (hdepth : cs.length ≤ m.exex.deltaRetention)
    (hempty : ∀ j, n ≤ j → j < n + cs.length → m.exex.db.loadBlockDeltas j = [])
    (hrun : commitAll U cs m = .ok () m₁) :
    ∃ m₂ m₃, undoBlocks (List.range' n cs.length).reverse m₁ = .ok () m₂ ∧
      m₂.exex.logical = m.exex.logical ∧ flushDirty m₂ = .ok () m₃ ∧
      (∀ m₀, flushDirty m = .ok () m₀ →
        m₃.exex.db.iterEntriesSorted = m₀.exex.db.iterEntriesSorted ∧
          computeRoot U m₃.exex.db = computeRoot U m₀.exex.db) ∧
      ∀ j, ∃ m₁' m₃', commitAll U (cs.take j) m = .ok () m₁' ∧
        commitAll U (cs.take j) m₃ = .ok () m₃' ∧ m₃'.exex.logical = m₁'.exex.logical := by
  obtain ⟨dirty, m₂, hundo, he₂, hlog₂, hknown₂⟩ :=
    undoBlocks_spec (List.range' n cs.length).reverse m₁
  have hback : m₂.exex.logical = m.exex.logical := by
    rw [hlog₂, storedUndo_commitAll hcons hdepth hempty hrun, logical_commitAll hrun]
    exact Writes.applyAll_undoAll _ _
  obtain ⟨m₃, hflush, he₃, -⟩ := flushDirty_spec m₂
  have hvalue : ∀ {m m' : Machine}, flushDirty m = .ok () m' →
      m'.exex.logical = m.exex.logical ∧ m'.exex.db.value = m.exex.logical := by
    intro m m' hf
    obtain ⟨he, -⟩ := EStateM.of_eq_ok (flushDirty_spec m) hf
    have hdirty : m'.exex.dirtyStems = ∅ := by rw [he]
    have hstems : m'.exex.db.stems = drainedStems m.exex := by rw [he]; rfl
    refine ⟨?_, value_drained hstems⟩
    rw [logical_of_clean hdirty, value_drained hstems]
  have haccepts : Accepts m₃ cs := by
    intro c hc e he
    have hnone : Accepts m [] := fun c hc => nomatch hc
    obtain ⟨hk, ha⟩ := accepts_commitAll hrun hnone c (by simpa using hc) e he
    constructor
    · have hk₂ := hknown₂ _ hk
      unfold Known at hk₂ ⊢
      have hdirty : m₃.exex.dirtyStems = ∅ := by rw [he₃]
      have hstems : m₃.exex.db.stems = drainedStems m₂.exex := by rw [he₃]; rfl
      rw [hdirty, overlayStem_drained hstems]
      exact hk₂
    · rw [he₃, he₂]
      exact ha
  refine ⟨m₂, m₃, hundo, hback, hflush, fun m₀ hf₀ => ?_, fun j => ?_⟩
  · have hvals : ∀ key, m₃.exex.db.value key = m₀.exex.db.value key := by
      intro key
      rw [(hvalue hflush).2, (hvalue hf₀).2, hback]
    have hentries := UbtDatabase.iterEntriesSorted_congr hvals
    refine ⟨hentries, ?_⟩
    unfold computeRoot
    rw [hentries]
  · have hsplit : commitAll U (cs.take j ++ cs.drop j) m = .ok () m₁ := by
      rwa [List.take_append_drop]
    obtain ⟨m₁', hfirst, -⟩ := commitAll_append.mp hsplit
    have haccepts' : Accepts m₃ (cs.take j) := fun c hc => haccepts c (List.mem_of_mem_take hc)
    obtain ⟨m₃', hagain⟩ := commitAll_of_accepts (U := U) haccepts'
    refine ⟨m₁', m₃', hfirst, hagain, ?_⟩
    rw [logical_commitAll hagain, logical_commitAll hfirst, (hvalue hflush).1, hback]

/-- The first two sample commits, one flushed and one not, are undone from a fresh
start's second commit down. -/
theorem undo_log_inverts_two_commits :
    ∃ m₂ m₃, undoBlocks [2, 1]
        (commitAll sampleUbt (sampleCommits.take 2) (.fresh ⟨2, 10⟩)).state = .ok () m₂ ∧
      m₂.exex.logical = (Machine.fresh ⟨2, 10⟩).exex.logical ∧ flushDirty m₂ = .ok () m₃ := by
  have hok : (commitAll sampleUbt (sampleCommits.take 2) (.fresh ⟨2, 10⟩)).isOk = true := by
    decide +kernel
  obtain ⟨u, hrun⟩ := EStateM.Result.exists_ok hok
  have hcons : Consecutive 1 (sampleCommits.take 2) := ⟨rfl, rfl, trivial⟩
  obtain ⟨m₂, m₃, hundo, hback, hflush, -⟩ := undo_log_inverts_commits hcons (by decide)
    (fun _ _ _ => rfl) hrun
  exact ⟨m₂, m₃, hundo, hback, hflush⟩

end UbtExex
