import UbtExex.Lib.History
import UbtExex.Heads
import UbtExex.Pir2
import UbtExex.Resume

/-!
# Exports beside the extension

An export makes many read transactions while the extension makes its writes.  The
header is from the first read, the values are from later ones.  Between two writes the
stored values are those of the block of the stored head, except after the write of the
stems and before that of the head.  So the values are those of the header's block as
long as no write of the stems changed them between the header's head and the last read.

## Main definitions

* `StateOf` — the canonical states of the blocks of a run.
* `Logged`, `Coherent` — what the durable writes of a run leave.
* `RunLog` — the writes beside which the export reads.
* `Schedule` — where the reads of an export fall among the writes.
* `Undisturbed` — the condition on the writes between two reads.

## Main results

* `logged_perform` — **the journal of every run is the history of its stores.**
* `coherentLog_run` — **the writes of a run on the canonical chain are coherent.**
* `exports_see_one_snapshot` — **in every schedule that meets the condition the values
  of the file are those of the block in its header.**
* `export_torn` — a block written between the two reads.
-/

open Std EStateM

namespace UbtExex

/-! ### The log of a run -/

/-- The stores when the writes of a log have been made over `d`. -/
abbrev storesAt (d : Disk) (log : List DurableWrite) : Disk :=
  History.stateAt DurableWrite.after d log

/-- The journal is the history of the stores, and only writes of the stems change them. -/
structure Logged (d : Disk) (m : Machine) : Prop where
  disk : m.exex.toDisk = storesAt d m.journal
  chained : History.Chained DurableWrite.before DurableWrite.after d m.journal
  stems : ∀ w ∈ m.journal, w.step ≠ .batchUpdateStems → w.after.db.stems = w.before.db.stems

section Logged

variable {d : Disk}

theorem logged_update {f : UbtExEx → UbtExEx} (h : ∀ s, (f s).toDisk = s.toDisk) :
    Keeps (Logged d) (update f) := fun m hm =>
  ⟨(h m.exex).trans hm.disk, hm.chained, hm.stems⟩

theorem Logged.persist {m : Machine} (hm : Logged d m) {step : DurableStep} {f : Disk → Disk}
    (h : step ≠ .batchUpdateStems → (f m.exex.toDisk).db.stems = m.exex.toDisk.db.stems) :
    Logged d (m.persist step f) :=
  ⟨rfl, ⟨hm.disk, hm.chained⟩, List.forall_mem_cons.mpr ⟨h, hm.stems⟩⟩

theorem logged_persist {step : DurableStep} {f : Disk → Disk}
    (h : step ≠ .batchUpdateStems → ∀ d, (f d).db.stems = d.db.stems) :
    Keeps (Logged d) (persist step f) := fun m hm => hm.persist fun hstep => h hstep m.exex.toDisk

theorem logged_tryPersist {α : Type} {step : DurableStep} {f : Disk → Except UbtError (Disk × α)}
    (h : ∀ d d' a, f d = .ok (d', a) → d'.db.stems = d.db.stems) :
    Keeps (Logged d) (tryPersist step f) := by
  intro m hm
  cases hf : f m.exex.toDisk with
  | error e =>
    rw [tryPersist_error hf]
    exact hm
  | ok p =>
    rw [tryPersist_ok hf]
    exact hm.persist (f := fun _ => p.1) fun _ => h _ p.1 p.2 hf

theorem logged_flushDirty : Keeps (Logged d) flushDirty := by
  refine .get_bind fun m => ?_
  refine Keeps.bind (logged_update fun _ => rfl) fun _ => ?_
  split
  · exact .pure _
  · exact logged_persist fun h => absurd rfl h

theorem logged_pruneDeltas (n : ℕ) : Keeps (Logged d) (pruneDeltas n) := by
  refine .get_bind fun m => ?_
  dsimp only
  split
  · exact logged_persist fun _ _ => rfl
  · exact .pure _

theorem logged_saveStemAddresses (news : List (Stem × Address)) :
    Keeps (Logged d) (saveStemAddresses news) := by
  unfold saveStemAddresses
  split
  · exact .pure _
  · refine logged_tryPersist fun d d' a hf => ?_
    cases hdb : d.db.batchSaveStemAddresses news with
    | error e =>
      rw [hdb] at hf
      cases hf
    | ok db =>
      rw [hdb] at hf
      cases hf
      rw [UbtDatabase.batchSaveStemAddresses_eq_ok hdb]

theorem logged_indexEntries (entries : List PendingEntry) :
    Keeps (Logged d) (indexEntries entries) := by
  refine logged_tryPersist fun d d' a hf => ?_
  cases hki : d.keyIndex.applyUpdates
      (entries.map fun e => (e.key.stem, e.key.subindex, e.address)) with
  | error e =>
    rw [hki] at hf
    cases hf
  | ok p =>
    rw [hki] at hf
    cases hf
    rfl

theorem logged_saveDeltas (n : ℕ) (deltas : List Delta) :
    Keeps (Logged d) (saveDeltas n deltas) := by
  unfold saveDeltas
  split
  · exact .pure _
  · exact logged_persist fun _ _ => rfl

theorem logged_recordBlock (n : ℕ) (hash : B256) : Keeps (Logged d) (recordBlock n hash) := by
  refine .get_bind fun m => Keeps.bind (logged_update fun _ => rfl) fun _ => ?_
  refine Keeps.bind (logged_persist fun _ _ => rfl) fun _ => .get_bind fun m => ?_
  refine Keeps.bind (logged_update fun _ => rfl) fun _ => ?_
  refine (logged_saveStemAddresses _).bind fun _ => (logged_indexEntries _).bind fun _ => ?_
  refine Keeps.bind (logged_update fun _ => rfl) fun _ => ?_
  exact (logged_saveDeltas _ _).bind fun _ => logged_update fun _ => rfl

theorem logged_revertBlock (n : ℕ) : Keeps (Logged d) (revertBlock n) := by
  refine .get_bind fun m => Keeps.bind (logged_update fun _ => rfl) fun _ => ?_
  split
  · exact logged_persist fun _ _ => rfl
  · exact .pure _

variable (U : Ubt)

theorem logged_flush (n : ℕ) (hash : B256) : Keeps (Logged d) (flush U n hash) := by
  refine logged_flushDirty.bind fun _ => .get_bind fun m => ?_
  refine Keeps.bind (logged_persist fun _ _ => rfl) fun _ => ?_
  refine Keeps.bind (logged_persist fun _ _ => rfl) fun _ => ?_
  refine Keeps.bind (logged_update fun _ => rfl) fun _ => ?_
  exact (logged_pruneDeltas n).bind fun _ => .pure _

theorem logged_saveCurrent : Keeps (Logged d) (saveCurrent U) := by
  refine logged_flushDirty.bind fun _ => .get_bind fun m => ?_
  exact Keeps.bind (logged_persist fun _ _ => rfl) fun _ => .pure _

theorem logged_revert (old : Chain) : Keeps (Logged d) (revert U old) := by
  refine Keeps.bind (logged_persist fun _ _ => rfl) fun _ => ?_
  refine (Keeps.forM fun n _ => logged_revertBlock n).bind fun _ => ?_
  refine Keeps.bind (logged_update fun s => ?_) fun _ => .get_bind fun m => ?_
  · split <;> rfl
  · dsimp only
    split
    · exact (logged_saveCurrent U).bind fun _ => logged_update fun _ => rfl
    · exact .pure _

theorem logged_run (op : Op) : Keeps (Logged d) (op.run U) := by
  cases op with
  | commit n hash es =>
    intro m hm
    rw [Op.state_commit]
    refine Keeps.bind (logged_recordBlock n hash) (fun _ => .get_bind fun m => ?_) (m.push es)
      ⟨hm.disk, hm.chained, hm.stems⟩
    dsimp only
    split
    · exact logged_flush U n hash
    · exact .pure _
  | revert old => exact logged_revert U old
  | shutdown => exact (logged_saveCurrent U).bind fun _ => .pure _

/-- **The journal of every run is the history of its stores.** -/
theorem logged_perform (ops : List Op) (s : UbtExEx) :
    Logged s.toDisk (perform U ops ⟨s, []⟩).state :=
  Keeps.forM (fun op _ => logged_run U op) _ ⟨rfl, trivial, by simp⟩

end Logged

/-! ### The states of the blocks -/

/-- A set of states for each block: its number and its hash. -/
abbrev BlockStates := ℕ × B256 → (TreeKey → B256) → Prop

/-- The canonical states of a run: a block that was the tip of the chain has the fold of
the writes of that chain over the values the run started from. -/
def StateOf (base : ℕ × B256) (σ₀ : TreeKey → B256) (h : List (Tracked × ServiceEvent))
    (t : Tracked) : BlockStates := fun block σ =>
  ∃ u ∈ t :: h.map Prod.fst, tipOf base u.ledger.blocks = block ∧ stateAfter σ₀ u.ledger.blocks = σ

/-- A revert finds the rows that the commits recorded, and cuts commits cleanly. -/
def ServiceRecorded (σ₀ : TreeKey → B256) (t : Tracked) : ServiceEvent → Prop
  | .chain e => EventRecorded σ₀ t e
  | .shutdown => True

/-- The stored values are those of the block of the stored head. -/
def Coherent (S : BlockStates) (db : UbtDatabase) : Prop :=
  ∀ hd, db.loadHead = some hd → S (hd.blockNumber, hd.blockHash) db.value

/-- Only the write of the stems breaks coherence, and it leaves the head as it is. -/
structure CoherentWrite (S : BlockStates) (w : DurableWrite) : Prop where
  others : w.step ≠ .batchUpdateStems → Coherent S w.after.db
  stems : w.step = .batchUpdateStems → Coherent S w.before.db ∧ w.after.db.head = w.before.db.head

section Coherence

variable {S : BlockStates} {U : Ubt}

theorem Coherent.congr {db db' : UbtDatabase} (h : Coherent S db) (hstems : db'.stems = db.stems)
    (hhead : db'.head = db.head) : Coherent S db' := by
  intro hd hload
  unfold UbtDatabase.loadHead at hload
  rw [hhead] at hload
  rw [UbtDatabase.value_of_stems hstems]
  exact h hd hload

theorem coherent_of_head {db : UbtDatabase} {hd : UbtHead} (hhead : db.head = some hd)
    (h : S (hd.blockNumber, hd.blockHash) db.value) : Coherent S db := by
  intro hd' hload
  obtain rfl := Option.some.inj (hhead.symm.trans hload)
  exact h

/-- The writes of an operation from coherent stores, if the stems that it writes hold a
state of its block. -/
theorem Checkpoint.coherent {db : UbtDatabase} {nomt : Nomt} {stems' : ExtTreeMap Stem StemNode}
    {n : ℕ} {hash : B256} {w : DurableWrite}
    (h : Checkpoint U nomt db.stems stems' db.head n hash w) (hdb : Coherent S db)
    (hS : ∀ db' : UbtDatabase, db'.stems = stems' → S (n, hash) db'.value) : CoherentWrite S w := by
  cases h with
  | quiet hstep hafter =>
    exact ⟨fun _ => hdb.congr hafter.stems hafter.head, fun h => absurd h hstep⟩
  | stems hstep hbefore hafter =>
    exact ⟨fun h => absurd hstep h,
      fun _ => ⟨hdb.congr hbefore.stems hbefore.head, by rw [hafter.head, hbefore.head]⟩⟩
  | head hstep hd hafter hn hh hroot =>
    refine ⟨fun _ => coherent_of_head hafter.head ?_, fun h => absurd h hstep⟩
    rw [hn, hh]
    exact hS _ hafter.stems

/-- The writes of a commit that is refused. -/
theorem commit_error_journal {n : ℕ} {hash : B256} {m m' : Machine} {e : UbtError}
    (h : commit U n hash m = .error e m') :
    m.Extends (fun w => w.step ≠ .batchUpdateStems ∧ Shows w.after
      (m.exex.nomt.commitUpdates m.exex.pendingEntries n) m.exex.db.stems m.exex.db.head) m' := by
  unfold commit at h
  rcases recordBlock_cases n hash m with ⟨e', m₁, hrec, hj, -⟩ | ⟨-, -, -, m₁, hrec, -⟩
  · rw [bind_apply_of_error hrec] at h
    injection h with _ hm
    rw [← hm]
    exact hj
  · -- once the block is recorded nothing can fail
    rw [bind_apply_of_ok hrec, get_bind_apply] at h
    split at h
    · obtain ⟨root, m₂, hrun, -⟩ := flush_spec U n hash m₁
      rw [hrun] at h
      cases h
    · cases h

/-- A commit from coherent stores. -/
theorem coherent_commit {n : ℕ} {hash : B256} {m : Machine} (hm : Coherent S m.exex.db)
    (hS : ∀ root m', commit U n hash m = .ok root m' → S m'.tip m'.exex.logical) :
    m.Extends (CoherentWrite S) (commit U n hash m).state ∧
      ∀ root m', commit U n hash m = .ok root m' → Coherent S m'.exex.db := by
  cases hrun : commit U n hash m with
  | error e m' =>
    refine ⟨(commit_error_journal hrun).mono fun w hw => ?_, fun root m' h => by cases h⟩
    exact ⟨fun _ => hm.congr hw.2.stems hw.2.head, fun h => absurd h hw.1⟩
  | ok root m' =>
    have hc := commit_ok U hrun
    have hstate := hS root m' hrun
    have htip : m'.tip = (n, hash) := Prod.ext hc.lastBlock hc.lastHash
    rw [htip, hc.logical] at hstate
    have hj := commit_journal U n hash m
    rw [hrun] at hj
    refine ⟨hj.mono fun w hw => hw.coherent hm fun db' hdb' => ?_, fun root₁ m₁ h => ?_⟩
    · rw [value_recordedStems hdb']
      exact hstate
    · obtain ⟨rfl, rfl⟩ : root = root₁ ∧ m' = m₁ := by
        injection h with hroot hm
        exact ⟨hroot, hm⟩
      cases hf : m.exex.shouldFlush n with
      | true =>
        obtain ⟨hclean, -, -, -, -, stemCount, hhead⟩ := hc.flushed hf
        refine coherent_of_head hhead ?_
        rw [← logical_of_clean hclean, hc.logical]
        exact hstate
      | false =>
        obtain ⟨-, -, -, -, hstems, hhead⟩ := hc.kept hf
        exact hm.congr hstems hhead

/-- **One operation** from coherent stores: its writes are coherent, and if it succeeds
it leaves coherent stores. -/
theorem coherent_run (op : Op) {m : Machine} (hm : Coherent S m.exex.db)
    (hS : ∀ u m', op.run U m = .ok u m' → S m'.tip m'.exex.logical) :
    m.Extends (CoherentWrite S) (op.run U m).state ∧
      ∀ u m', op.run U m = .ok u m' → Coherent S m'.exex.db := by
  cases op with
  | commit n hash es =>
    have hpush : Coherent S (m.push es).exex.db := hm
    have hcommit := @coherent_commit S U n hash (m.push es) hpush fun root m' hrun =>
      hS () m' (bind_apply_of_ok hrun)
    rw [Op.state_commit]
    refine ⟨hcommit.1, fun u m' h => ?_⟩
    obtain ⟨root, hrun⟩ := Op.commit_eq_ok h
    exact hcommit.2 root m' hrun
  | revert old =>
    obtain ⟨m', hrun, hr⟩ := revert_spec U old m
    have hstate := hS () m' hrun
    have htip : m'.tip = (old.first.number - 1, old.revertHash) := Prod.ext hr.lastBlock hr.lastHash
    rw [htip] at hstate
    obtain ⟨stems', hvalue, hj⟩ := hr.journal
    change m.Extends _ (revert U old m).state ∧ ∀ u m₁, revert U old m = .ok u m₁ → _
    rw [hrun]
    refine ⟨hj.mono fun w hw => hw.coherent hm fun db' hdb' => ?_, fun u m₁ h => ?_⟩
    · rw [hvalue db' hdb']
      exact hstate
    · cases h
      by_cases hpers : ∃ b ∈ old.blocks, b.number ≤ m.exex.lastPersistedBlock
      · obtain ⟨hclean, -, -, -, stemCount, hhead⟩ := hr.persisted hpers
        refine coherent_of_head hhead ?_
        rw [← logical_of_clean hclean]
        exact hstate
      · obtain ⟨-, -, -, hstems, hhead⟩ := hr.kept hpers
        exact hm.congr hstems hhead
  | shutdown =>
    obtain ⟨m', hrun, hlogical, hvalue, -, ⟨stemCount, hhead⟩, hj⟩ := shutdown_spec U m
    have hstate := hS () m' hrun
    have htip : m'.tip = (m.exex.lastBlock, m.exex.lastHash) := by
      unfold Machine.tip
      rw [shutdown_effect hrun]
    rw [htip, hlogical] at hstate
    change m.Extends _ (shutdown U m).state ∧ ∀ u m₁, shutdown U m = .ok u m₁ → _
    rw [hrun]
    refine ⟨hj.mono fun w hw => hw.coherent hm fun db' hdb' => ?_, fun u m₁ h => ?_⟩
    · rw [value_drained hdb']
      exact hstate
    · cases h
      refine coherent_of_head hhead ?_
      rw [hvalue]
      exact hstate

/-- The operation of a step. -/
theorem ServiceStep.exists_op {base : ℕ × B256} {t t' : Tracked} {e : ServiceEvent}
    (h : ServiceStep U base t e t') : ∃ op : Op, op.run U t.machine = .ok () t'.machine := by
  cases h with
  | chain h =>
    cases h with
    | @commit m m' L hi b bs es root hlink hwrites hrun =>
      exact ⟨.commit b.block.number b.block.hash es, bind_apply_of_ok hrun⟩
    | @revert m m' L hi old hold hrun => exact ⟨.revert old, hrun⟩
  | shutdown h => exact ⟨.shutdown, h⟩

/-- **An operation that meets the condition keeps to the canonical chain.** -/
theorem Converged.serviceStep {base : ℕ × B256} {σ₀ : TreeKey → B256} {t t' : Tracked}
    {e : ServiceEvent} (hc : Converged base σ₀ t) (hcond : ServiceRecorded σ₀ t e)
    (hstep : ServiceStep U base t e t') : Converged base σ₀ t' := by
  cases hstep with
  | chain h => exact hc.step hcond h
  | @shutdown m m' L hi h =>
    obtain ⟨m₁, hrun, hlogical, -⟩ := shutdown_spec U m
    obtain rfl : m₁ = m' := by
      injection hrun.symm.trans h
    have he := shutdown_effect h
    refine ⟨⟨?_, hc.linked, ?_, hc.nonempty⟩, hlogical.trans hc.logical, hc.undoable⟩
    · change m₁.exex.pendingEntries = []
      rw [he]
      exact hc.pending
    · change (m₁.exex.lastBlock, m₁.exex.lastHash) = _
      rw [he]
      exact hc.tip

/-- What a run leaves: a journal that is the history of the stores, whose writes are
coherent. -/
structure CoherentLog (S : BlockStates) (d : Disk) (m : Machine) : Prop extends Logged d m where
  coherent : Coherent S m.exex.db
  writes : ∀ w ∈ m.journal, CoherentWrite S w

theorem Machine.Extends.forall_journal {P : DurableWrite → Prop} {m m' : Machine}
    (h : m.Extends P m') (hm : ∀ w ∈ m.journal, P w) : ∀ w ∈ m'.journal, P w := by
  obtain ⟨new, hnew, hP⟩ := h
  intro w hw
  rw [hnew, List.mem_append] at hw
  rcases hw with hw | hw
  · exact hP w hw
  · exact hm w hw

/-- **One operation** goes on with the history, refused or not. -/
theorem CoherentLog.run {d : Disk} {m : Machine} (h : CoherentLog S d m) (op : Op)
    (hS : ∀ u m', op.run U m = .ok u m' → S m'.tip m'.exex.logical) :
    Logged d (op.run U m).state ∧ (∀ w ∈ (op.run U m).state.journal, CoherentWrite S w) ∧
      ∀ u m', op.run U m = .ok u m' → CoherentLog S d m' := by
  obtain ⟨hj, hok⟩ := coherent_run op h.coherent hS
  have hlogged := logged_run U op m h.toLogged
  have hwrites := hj.forall_journal h.writes
  refine ⟨hlogged, hwrites, fun u m' hrun => ?_⟩
  rw [hrun] at hlogged hwrites
  exact ⟨hlogged, hok u m' hrun, hwrites⟩

/-- **A run goes on with the history**, if its states are among those of their tips. -/
theorem coherentLog_run {base : ℕ × B256} {d : Disk} {t₀ t : Tracked}
    {h : List (Tracked × ServiceEvent)} (h₀ : CoherentLog S d t₀.machine)
    (hrun : Run (ServiceStep U base) t₀ h t)
    (hS : ∀ u ∈ t :: h.map Prod.fst, S u.machine.tip u.machine.exex.logical) :
    CoherentLog S d t.machine := by
  induction hrun with
  | nil => exact h₀
  | @snoc h t t' e hrun hstep ih =>
    obtain ⟨ht', hrest⟩ := List.forall_mem_cons.mp hS
    obtain ⟨op, hop⟩ := hstep.exists_op
    refine ((ih hrest).run op fun u m' hrun' => ?_).2.2 () _ hop
    obtain rfl : t'.machine = m' := by
      injection hop.symm.trans hrun'
    exact ht'

/-- Right after a startup the stored values are those of the block of the head. -/
theorem coherent_new {config : UbtConfig} {d : Disk} {s : UbtExEx}
    (hnew : UbtExEx.new U config d = .ok s) (h : S (headTip d.db) d.db.value) :
    Coherent S s.db := by
  have hr := restored_of_new hnew
  rw [hr.db]
  intro hd hload
  have htip : headTip d.db = (hd.blockNumber, hd.blockHash) := by
    unfold headTip headNumber headHash
    rw [hload]
    rfl
  rw [← htip]
  exact h

end Coherence

/-! ### Schedules -/

/-- Where the reads of an export fall among the writes of a log: by each read, what had
been written grows. -/
structure Schedule (log : List DurableWrite) where
  past : ℕ → List DurableWrite
  grows : ∀ k, past k <:+ past (k + 1)
  within : ∀ k, past k <:+ log

namespace Schedule

variable {log : List DurableWrite}

/-- The stores at each read. -/
def stores (J : Schedule log) (d : Disk) : ℕ → Disk := fun k => storesAt d (J.past k)

/-- The schedule of reads at which given numbers of writes are still to come. -/
def ofLeft (log : List DurableWrite) (left : ℕ → ℕ) (h : ∀ k, left (k + 1) ≤ left k) :
    Schedule log where
  past k := log.drop (left k)
  grows k := List.drop_suffix_drop_left log (h k)
  within _ := List.drop_suffix _ _

theorem past_mono (J : Schedule log) {i j : ℕ} (h : i ≤ j) : J.past i <:+ J.past j := by
  induction h with
  | refl => exact List.suffix_refl _
  | step _ ih => exact ih.trans (J.grows _)

end Schedule

/-- No write of the stems changes a value of the keys, from the last write before one
read to the last write before another. -/
def Undisturbed (keys : TreeKey → Prop) (past past' : List DurableWrite) : Prop :=
  ∀ w older, past <:+ w :: older → w :: older <:+ past' → w.step = .batchUpdateStems →
    ∀ key, keys key → w.after.db.value key = w.before.db.value key

/-- Reads with no write of the stems in between are not disturbed. -/
theorem undisturbed_of_steps {keys : TreeKey → Prop} {past past' : List DurableWrite}
    (h : ∀ w ∈ past'.take (past'.length + 1 - past.length), w.step ≠ .batchUpdateStems) :
    Undisturbed keys past past' := by
  rintro w older hw ⟨newer, rfl⟩ hstep
  have hlength := hw.length_le
  refine absurd hstep (h w ?_)
  rw [List.take_append, List.mem_append]
  refine Or.inr ?_
  have htake : ∃ k, (newer ++ w :: older).length + 1 - past.length - newer.length = k + 1 := by
    simp only [List.length_append, List.length_cons] at hlength ⊢
    exact ⟨older.length + 1 - past.length, by omega⟩
  obtain ⟨k, hk⟩ := htake
  rw [hk, List.take_succ_cons]
  exact List.mem_cons_self

/-- **The values of the keys at every read are those of the block of the head that was
read first**, if no write of the stems in between changes them. -/
theorem values_of_undisturbed {S : BlockStates} {d : Disk} {log : List DurableWrite}
    (hlog : History.Chained DurableWrite.before DurableWrite.after d log)
    (hstems : ∀ w ∈ log, w.step ≠ .batchUpdateStems → w.after.db.stems = w.before.db.stems)
    (hd : Coherent S d.db) (hwrites : ∀ w ∈ log, CoherentWrite S w) (J : Schedule log)
    {keys : TreeKey → Prop} {last : ℕ} (hkeys : Undisturbed keys (J.past 0) (J.past last))
    {head : UbtHead} (hhead : (J.stores d 0).db.loadHead = some head) :
    ∃ σ, S (head.blockNumber, head.blockHash) σ ∧
      ∀ k ≤ last, ∀ key, keys key → (J.stores d k).db.value key = σ key := by
  -- the values of the keys stay as they are from the first read on
  have hstay : ∀ k ≤ last, ∀ key, keys key →
      (J.stores d k).db.value key = (J.stores d 0).db.value key := by
    intro k hk key hkey
    have hsuffix : J.past k <:+ J.past last := J.past_mono hk
    refine History.observe_eq (fun d : Disk => d.db.value key) (hlog.of_suffix (J.within k))
      (J.past_mono (Nat.zero_le k)) fun w older hw hlater => ?_
    have hmem : w ∈ log := (hlater.trans (J.within k)).subset List.mem_cons_self
    by_cases hstep : w.step = .batchUpdateStems
    · have hlast := hw.trans (List.suffix_cons w older)
      exact hkeys w older hlast (hlater.trans hsuffix) hstep key hkey
    · exact congrFun (UbtDatabase.value_of_stems (hstems w hmem hstep)) key
  -- and at the first read they are those of the block of the head
  have hfirst : ∃ σ, S (head.blockNumber, head.blockHash) σ ∧
      ∀ key, keys key → (J.stores d 0).db.value key = σ key := by
    unfold Schedule.stores at hhead ⊢
    cases hpast : J.past 0 with
    | nil =>
      rw [hpast] at hhead
      exact ⟨_, hd head hhead, fun key _ => rfl⟩
    | cons w older =>
      rw [hpast] at hhead
      have hmem : w ∈ log := (J.within 0).subset (by rw [hpast]; exact List.mem_cons_self)
      by_cases hstep : w.step = .batchUpdateStems
      · obtain ⟨hbefore, hsame⟩ := (hwrites w hmem).stems hstep
        refine ⟨_, hbefore head (hsame.symm.trans hhead), fun key hkey => ?_⟩
        refine hkeys w older ?_ ?_ hstep key hkey
        · rw [hpast]
        · rw [← hpast]
          exact J.past_mono (Nat.zero_le last)
      · exact ⟨_, (hwrites w hmem).others hstep head hhead, fun key _ => rfl⟩
  obtain ⟨σ, hσ, hvalues⟩ := hfirst
  exact ⟨σ, hσ, fun k hk key hkey => (hstay k hk key hkey).trans (hvalues key hkey)⟩

/-! ### Exports -/

/-- The writes that a run has made, or will have made when its next operation has been
refused. -/
inductive RunLog (U : Ubt) (t : Tracked) : List DurableWrite → Prop
  | done : RunLog U t t.machine.journal
  | refused {op : Op} {e : UbtError} {m : Machine} (h : op.run U t.machine = .error e m) :
      RunLog U t m.journal

/-- The values of a file are those of their keys in a state of the block in its header. -/
def OneSnapshot (S : BlockStates) (chainId : ℕ) (file : Option (List UInt8)) : Prop :=
  ∃ block σ entries, S block σ ∧ file = some (stateBytes chainId block entries) ∧
    ∀ e ∈ entries, ∃ key : TreeKey, e.treeIndex = key.path ∧ e.value = σ key

section Exports

variable (S : BlockStates) (d : Disk) {log : List DurableWrite} (J : Schedule log)

/-- If a full export beside the run succeeds, its file has one snapshot. -/
def FullExportSnapshot : Prop :=
  ∀ chainId dir res env, exportFullStateFromMdbx chainId ⟨dir, J.stores d⟩ = .ok res env →
    OneSnapshot S chainId (env.dir .state)

/-- If a delta export beside the run succeeds, its file has one snapshot. -/
def DeltaExportSnapshot (fromBlock toBlock : ℕ) : Prop :=
  ∀ chainId retention dir res env,
    getStateDelta fromBlock toBlock chainId retention ⟨dir, J.stores d⟩ = .ok res env →
      OneSnapshot S chainId (env.dir (.delta fromBlock toBlock))

/-- No exported value changes from the last write before the head is read to the last one
before the stems are read. -/
def FullExportUndisturbed : Prop :=
  Undisturbed (fun key => (J.stores d 1).db.value key ≠ 0) (J.past 0) (J.past 1)

/-- No value of a touched key changes from the last write before the head is read to the
last one before the last read. -/
def DeltaExportUndisturbed (fromBlock toBlock : ℕ) : Prop :=
  Undisturbed (fun key => key ∈ deltaReadKeys (J.stores d) fromBlock toBlock) (J.past 0)
    (J.past (deltaReads (J.stores d) fromBlock toBlock))

variable {S d J} {U : Ubt}

/-- **The reads of an export beside a run**, if the writes in between leave its keys. -/
theorem values_beside_run {config : UbtConfig} {disk : Disk} {s : UbtExEx}
    {h : List (Tracked × ServiceEvent)} {t : Tracked} (hnew : UbtExEx.new U config disk = .ok s)
    (hrun : Run (ServiceStep U (headTip disk.db)) (.start ⟨s, []⟩) h t)
    (hrecorded : ∀ p ∈ h, ServiceRecorded disk.db.value p.1 p.2) (hlog : RunLog U t log)
    {keys : TreeKey → Prop} {last : ℕ} (hkeys : Undisturbed keys (J.past 0) (J.past last))
    {head : UbtHead} (hhead : (J.stores s.toDisk 0).db.loadHead = some head) :
    ∃ σ, StateOf (headTip disk.db) disk.db.value h t (head.blockNumber, head.blockHash) σ ∧
      ∀ k ≤ last, ∀ key, keys key → (J.stores s.toDisk k).db.value key = σ key := by
  have hr := restored_of_new hnew
  -- the machine keeps to the canonical chain
  have hstart := Converged.start (m := ⟨s, []⟩) hr.pendingEntries
  have htip : Machine.tip ⟨s, []⟩ = headTip disk.db := Prod.ext hr.lastBlock hr.lastHash
  have hlogical : (⟨s, []⟩ : Machine).exex.logical = disk.db.value := hr.logical
  rw [htip, hlogical] at hstart
  obtain ⟨hc, hcs⟩ := hrun.invariant hstart
    (fun t e t' hc hcond hstep => hc.serviceStep hcond hstep) hrecorded
  set S := StateOf (headTip disk.db) disk.db.value h t
  have hS : ∀ u ∈ t :: h.map Prod.fst, S u.machine.tip u.machine.exex.logical := by
    intro u hu
    have hu' : Converged (headTip disk.db) disk.db.value u := by
      rcases List.mem_cons.mp hu with rfl | hmem
      · exact hc
      · obtain ⟨p, hp, rfl⟩ := List.mem_map.mp hmem
        exact hcs p hp
    exact ⟨u, hu, hu'.tip.symm, hu'.logical.symm⟩
  -- so what it writes is coherent, a refused operation at the end included
  have hfirst : S (headTip disk.db) disk.db.value := by
    exact ⟨_, hrun.start_mem, rfl, rfl⟩
  have hcoherent : Coherent S s.db := coherent_new hnew hfirst
  have hempty : CoherentLog S s.toDisk ⟨s, []⟩ :=
    ⟨⟨rfl, trivial, by simp⟩, hcoherent, by simp⟩
  have hlogged := coherentLog_run hempty hrun hS
  cases hlog with
  | done =>
    exact values_of_undisturbed hlogged.chained hlogged.stems hcoherent hlogged.writes J hkeys hhead
  | @refused op e m hop =>
    obtain ⟨hlast, hwrites, -⟩ := hlogged.run op fun u m' hrun' => by
      rw [hop] at hrun'
      cases hrun'
    rw [hop] at hlast hwrites
    exact values_of_undisturbed hlast.chained hlast.stems hcoherent hwrites J hkeys hhead

/-- **Exports see one snapshot in every schedule that meets the condition.**  The run
starts from a startup, its reverts find the recorded rows and cut commits cleanly; the
reads of one export fall anywhere among its writes. -/
theorem exports_see_one_snapshot {config : UbtConfig} {disk : Disk} {s : UbtExEx}
    {h : List (Tracked × ServiceEvent)} {t : Tracked} (hnew : UbtExEx.new U config disk = .ok s)
    (hrun : Run (ServiceStep U (headTip disk.db)) (.start ⟨s, []⟩) h t)
    (hrecorded : ∀ p ∈ h, ServiceRecorded disk.db.value p.1 p.2) (hlog : RunLog U t log) :
    (FullExportUndisturbed s.toDisk J →
        FullExportSnapshot (StateOf (headTip disk.db) disk.db.value h t) s.toDisk J) ∧
      ∀ fromBlock toBlock, DeltaExportUndisturbed s.toDisk J fromBlock toBlock →
        DeltaExportSnapshot (StateOf (headTip disk.db) disk.db.value h t) s.toDisk J fromBlock
          toBlock := by
  constructor
  · intro hundisturbed chainId dir res env hok
    obtain ⟨head, entries, hhead, hfile, hentries⟩ := exportFromMdbx_file (by simp) hok
    obtain ⟨σ, hσ, hvalues⟩ := values_beside_run hnew hrun hrecorded hlog hundisturbed hhead
    refine ⟨_, σ, entries, hσ, hfile, fun e he => ?_⟩
    obtain ⟨key, hne, htree, hvalue⟩ := hentries e he
    exact ⟨key, htree, hvalue.trans (hvalues 1 (Nat.le_refl 1) key hne)⟩
  · intro fromBlock toBlock hundisturbed chainId retention dir res env hok
    obtain ⟨head, entries, hhead, hfile, hentries⟩ := getStateDelta_file hok
    obtain ⟨σ, hσ, hvalues⟩ := values_beside_run hnew hrun hrecorded hlog hundisturbed hhead
    refine ⟨_, σ, entries, hσ, hfile, fun e he => ?_⟩
    obtain ⟨key, hkey, k, hk, htree, hvalue⟩ := hentries e he
    exact ⟨key, htree, hvalue.trans (hvalues k hk key hkey)⟩

end Exports

/-! ### A torn export -/

/-- Two commits of one slot, each of them flushed. -/
theorem twoCommits_run : Run (ServiceStep sampleUbt (0, 0)) (.start (.fresh ⟨1, 10⟩))
    [(staleCommitted, .chain (.commit [⟨block2, [(slotKey 7 1, 2)]⟩] [slotEntry 2])),
      (.start (.fresh ⟨1, 10⟩), .chain (.commit [⟨block1, [(slotKey 7 1, 1)]⟩] [slotEntry 1]))]
    secondCommitted :=
  .snoc (.snoc .nil (.chain staleCommitted_step.2)) (.chain secondCommitted_step.2)

/-- The head is read after the first of the two commits, and the stems when the second
has not written them yet. -/
def quietSchedule : Schedule secondCommitted.machine.journal :=
  .ofLeft _ (fun k => if k = 0 then 6 else 3) fun k => by
    rw [if_neg (Nat.succ_ne_zero k)]
    split <;> omega

/-- The stems are read when the second commit has written them, but not yet its head. -/
def tornSchedule : Schedule secondCommitted.machine.journal :=
  .ofLeft _ (fun k => if k = 0 then 6 else 2) fun k => by
    rw [if_neg (Nat.succ_ne_zero k)]
    split <;> omega

/-- The quiet export succeeds and sees one snapshot. -/
theorem exports_see_one_snapshot_quiet : ∃ res env,
    exportFullStateFromMdbx 1 ⟨fun _ => none, quietSchedule.stores Disk.empty⟩ = .ok res env ∧
      OneSnapshot (StateOf (0, 0) Disk.empty.db.value
        [(staleCommitted, .chain (.commit [⟨block2, [(slotKey 7 1, 2)]⟩] [slotEntry 2])),
          (.start (.fresh ⟨1, 10⟩),
            .chain (.commit [⟨block1, [(slotKey 7 1, 1)]⟩] [slotEntry 1]))]
        secondCommitted) 1 (env.dir .state) := by
  obtain ⟨res, hok⟩ := EStateM.Result.exists_ok
    (show (exportFullStateFromMdbx 1
      ⟨fun _ => none, quietSchedule.stores Disk.empty⟩).isOk = true by decide +kernel)
  have hquiet : FullExportUndisturbed Disk.empty quietSchedule :=
    undisturbed_of_steps (by decide +kernel)
  have hrecorded : ∀ p ∈
      [(staleCommitted, .chain (.commit [⟨block2, [(slotKey 7 1, 2)]⟩] [slotEntry 2])),
        (.start (.fresh ⟨1, 10⟩),
          .chain (.commit [⟨block1, [(slotKey 7 1, 1)]⟩] [slotEntry 1]))],
      ServiceRecorded Disk.empty.db.value p.1 p.2 :=
    List.forall_mem_cons.mpr ⟨trivial, List.forall_mem_cons.mpr ⟨trivial, by simp⟩⟩
  exact ⟨res, _, hok, (exports_see_one_snapshot (UbtExEx.new_empty sampleUbt ⟨1, 10⟩)
    twoCommits_run hrecorded .done).1 hquiet _ _ _ _ hok⟩

/-- **An export can be torn**: the header has block 1 and the record the value of block 2. -/
theorem export_torn :
    ¬∀ (U : Ubt) (config : UbtConfig) (disk : Disk) (s : UbtExEx)
      (h : List (Tracked × ServiceEvent)) (t : Tracked) (log : List DurableWrite)
      (J : Schedule log), UbtExEx.new U config disk = .ok s →
        Run (ServiceStep U (headTip disk.db)) (.start ⟨s, []⟩) h t → RunLog U t log →
        FullExportSnapshot (StateOf (headTip disk.db) disk.db.value h t) s.toDisk J ∧
          ∀ fromBlock toBlock,
            DeltaExportSnapshot (StateOf (headTip disk.db) disk.db.value h t) s.toDisk J fromBlock
              toBlock := by
  intro hall
  have hsnapshot := (hall sampleUbt ⟨1, 10⟩ .empty _ _ _ _ tornSchedule
    (UbtExEx.new_empty sampleUbt ⟨1, 10⟩) twoCommits_run .done).1
  obtain ⟨res, hok⟩ := EStateM.Result.exists_ok
    (show (exportFullStateFromMdbx 1
      ⟨fun _ => none, tornSchedule.stores Disk.empty⟩).isOk = true by decide +kernel)
  obtain ⟨block, σ, entries, ⟨u, hu, htip, rfl⟩, hfile, hvalues⟩ := hsnapshot 1 _ _ _ hok
  have hbytes : (exportFullStateFromMdbx 1
      ⟨fun _ => none, tornSchedule.stores Disk.empty⟩).state.dir .state =
        some (stateBytes 1 (1, 11) [⟨7, (slotKey 7 1).path, 2⟩]) := by
    decide +kernel
  obtain ⟨hhash, rfl⟩ := stateBytes_inj (Option.some.inj (hbytes.symm.trans hfile))
  obtain ⟨key, hpath, hvalue⟩ := hvalues _ List.mem_cons_self
  obtain rfl := TreeKey.path_injective hpath
  rw [← htip] at hhash
  -- the only chain of the run whose tip has this hash gives the slot another value
  simp only [List.map_cons, List.map_nil, List.mem_cons, List.not_mem_nil, or_false] at hu
  rcases hu with rfl | rfl | rfl
  · exact absurd hhash (by decide)
  · exact absurd hvalue (by decide +kernel)
  · exact absurd hhash (by decide)

end UbtExex
