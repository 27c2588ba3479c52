import UbtExex.Owned
import UbtExex.Startup

/-!
# Finished heights

After each notification that committed a chain, the main loop tells the node that it is
finished with the tip of that chain.  It does so without looking at the flush decision
of `commit`: the tip is on disk exactly if that commit flushed, or if the stored head
had already been at the tip or above it.

## Main definitions

* `FinishedHeight`, `MainLoop`, `onNotification` — the loop and the events it sends.
* `FinishedHeight.Durable` — the stores have reached the block of an event.
* `FlushedInTime` — the condition on a notification, before it is handled.

## Main results

* `durable_iff` — one notification.
* `finished_durable_iff` — **in every run the events are durable if and only if every
  committed chain is flushed in time.**
* `flushedInTime_of_interval` — an extension that flushes every block always does.
* `finished_not_durable` — an event for a block that is in memory only.
-/

open Std

namespace UbtExex

/-! ### The loop -/

/-- `ExExEvent::FinishedHeight`: its block, and the stores when it is sent. -/
structure FinishedHeight where
  number : ℕ
  hash : B256
  stores : Disk

/-- The main loop: the extension, and the events it has sent, newest first. -/
structure MainLoop where
  machine : Machine
  events : List FinishedHeight

/-- `committed_chain`. -/
def Notification.committedChain : Notification → Option Chain
  | .chainCommitted new => some new
  | .chainReorged _ new => some new
  | .chainReverted _ => none

variable (U : Ubt)

/-- The body of the main loop on a notification: handle it, then send an event for the
tip of the committed chain.  An error ends the loop. -/
def onNotification (note : Notification) : EStateM UbtError MainLoop Unit := fun l =>
  match handle U note l.machine with
  | .error e m => .error e { l with machine := m }
  | .ok _ m =>
    match note.committedChain with
    | some new => .ok () ⟨m, ⟨new.tip.number, new.tip.hash, m.exex.toDisk⟩ :: l.events⟩
    | none => .ok () { l with machine := m }

/-- One turn of the main loop. -/
def LoopStep (l : MainLoop) (note : Notification) (l' : MainLoop) : Prop :=
  onNotification U note l = .ok () l'

/-- The stores have reached the block of the event, and so has the head that a restart
over them resumes from. -/
structure FinishedHeight.Durable (f : FinishedHeight) : Prop where
  head : f.number ≤ headNumber f.stores.db
  resumes : ∀ config s, UbtExEx.new U config f.stores = .ok s → f.number ≤ s.lastPersistedBlock

/-! ### The condition -/

/-- The last persisted block and the block of the MDBX head when the commit of a
notification begins: a revert of persisted blocks moves both below the reverted chain. -/
def persistedBefore (s : UbtExEx) : Notification → ℕ × ℕ
  | .chainReorged old _ =>
    if old.blocks.any fun b => b.number ≤ s.lastPersistedBlock then
      (old.first.number - 1, old.first.number - 1)
    else (s.lastPersistedBlock, headNumber s.db)
  | _ => (s.lastPersistedBlock, headNumber s.db)

/-- The tip of the committed chain is not above the last persisted block, or a flush
interval above it, or not above the stored head. -/
def FlushedInTime (s : UbtExEx) (note : Notification) : Prop :=
  ∀ new, note.committedChain = some new →
    new.tip.number ≤ (persistedBefore s note).1 ∨
      s.flushInterval ≤ new.tip.number - (persistedBefore s note).1 ∨
      new.tip.number ≤ (persistedBefore s note).2

/-- An extension that flushes every block flushes every chain in time. -/
theorem flushedInTime_of_interval {s : UbtExEx} (h : s.flushInterval ≤ 1) (note : Notification) :
    FlushedInTime s note := by
  intro new _
  rcases Nat.lt_or_ge (persistedBefore s note).1 new.tip.number with hlt | hge
  · refine Or.inr (Or.inl ?_)
    omega
  · exact Or.inl hge

/-! ### One notification -/

variable {U}

theorem shouldFlush_eq_true {s : UbtExEx} {n : ℕ} :
    s.shouldFlush n = true ↔ n ≤ s.lastPersistedBlock ∨ s.flushInterval ≤ n - s.lastPersistedBlock := by
  simp [UbtExEx.shouldFlush]

/-- After a commit the head has reached the block if the commit flushed or the head had
been there. -/
theorem headNumber_commit_iff {n : ℕ} {hash : B256} {es : List PendingEntry} {m m' : Machine}
    {root : B256} (hrun : commitEntries U n hash es m = .ok root m') :
    n ≤ headNumber m'.exex.db ↔
      n ≤ m.exex.lastPersistedBlock ∨ m.exex.flushInterval ≤ n - m.exex.lastPersistedBlock ∨
        n ≤ headNumber m.exex.db := by
  have hflag : (m.push es).exex.shouldFlush n = m.exex.shouldFlush n := rfl
  have hhead := head_commit U hrun
  rw [hflag] at hhead
  rw [← or_assoc, ← shouldFlush_eq_true]
  by_cases hflush : m.exex.shouldFlush n = true
  · rw [if_pos hflush] at hhead
    have hn : headNumber m'.exex.db = n := headNumber_of_head hhead
    simp [hn, hflush]
  · rw [if_neg hflush] at hhead
    have hn : headNumber m'.exex.db = headNumber m.exex.db := headNumber_congr hhead
    simp [hn, hflush]

/-- Right after a commit NOMT is at its block, so a restart resumes from the MDBX head
or from that block. -/
theorem durable_commit_iff {n : ℕ} {hash : B256} {es : List PendingEntry} {m m' : Machine}
    {root : B256} (hrun : commitEntries U n hash es m = .ok root m') :
    FinishedHeight.Durable U ⟨n, hash, m'.exex.toDisk⟩ ↔ n ≤ headNumber m'.exex.db := by
  constructor
  · exact fun h => h.head
  · intro h
    refine ⟨h, fun config s hnew => ?_⟩
    have hnomt : m'.exex.nomt.current.headBlock = n := by
      rw [(commit_ok U hrun).nomt]
      exact NomtMap.headBlock_update _ _ _
    rw [(restored_of_new hnew).lastPersistedBlock]
    change n ≤ min (headNumber m'.exex.db) m'.exex.nomt.current.headBlock
    rw [hnomt]
    exact Nat.le_min.mpr ⟨h, Nat.le_refl n⟩

/-- What a revert leaves for the commit of a reorganisation. -/
theorem persistedBefore_revert {old new : Chain} {m m₁ : Machine}
    (hrun : revert U old m = .ok () m₁) :
    persistedBefore m.exex (.chainReorged old new) =
        (m₁.exex.lastPersistedBlock, headNumber m₁.exex.db) ∧
      m₁.exex.flushInterval = m.exex.flushInterval := by
  have hr := revert_ok U hrun
  refine ⟨?_, hr.flushInterval⟩
  by_cases hpersisted : ∃ b ∈ old.blocks, b.number ≤ m.exex.lastPersistedBlock
  · obtain ⟨-, hlast, -, -, stemCount, hhead⟩ := hr.persisted hpersisted
    have hany : (old.blocks.any fun b => b.number ≤ m.exex.lastPersistedBlock) = true := by
      simpa using hpersisted
    rw [persistedBefore, if_pos hany, hlast, headNumber_of_head hhead]
  · obtain ⟨hlast, -, -, -, hhead⟩ := hr.kept hpersisted
    have hany : ¬(old.blocks.any fun b => b.number ≤ m.exex.lastPersistedBlock) = true := by
      simpa using hpersisted
    rw [persistedBefore, if_neg hany, hlast, headNumber_congr hhead]

/-- The event for the block of a commit, when the last persisted block, the head and
the flush interval before the commit are known. -/
theorem durable_handle_iff {m m' : Machine} {new : Chain} {p : ℕ × ℕ} {interval : ℕ}
    (hrun : handle U (.chainCommitted new) m = .ok () m')
    (hp : p = (m.exex.lastPersistedBlock, headNumber m.exex.db))
    (hinterval : m.exex.flushInterval = interval) :
    FinishedHeight.Durable U ⟨new.tip.number, new.tip.hash, m'.exex.toDisk⟩ ↔
      new.tip.number ≤ p.1 ∨ interval ≤ new.tip.number - p.1 ∨ new.tip.number ≤ p.2 := by
  obtain ⟨root, hcommit⟩ := handle_chainCommitted.mp hrun
  rw [durable_commit_iff hcommit, headNumber_commit_iff hcommit, hp, hinterval]

/-- **One notification**: it sends an event exactly if it commits a chain, and then the
event is durable if and only if the chain is flushed in time. -/
theorem durable_iff {l l' : MainLoop} {note : Notification} (hstep : LoopStep U l note l') :
    (∀ f ∈ l'.events, f.Durable U) ↔
      FlushedInTime l.machine.exex note ∧ ∀ f ∈ l.events, f.Durable U := by
  unfold LoopStep onNotification at hstep
  cases hrun : handle U note l.machine with
  | error e m =>
    rw [hrun] at hstep
    cases hstep
  | ok u m' =>
    rw [hrun] at hstep
    -- the chain's tip is the only block the condition is about
    have hsent : ∀ new, note.committedChain = some new →
        ((FinishedHeight.Durable U ⟨new.tip.number, new.tip.hash, m'.exex.toDisk⟩) ↔
          FlushedInTime l.machine.exex note) → ((∀ f ∈ l'.events, f.Durable U) ↔
            FlushedInTime l.machine.exex note ∧ ∀ f ∈ l.events, f.Durable U) := by
      intro new hnew hiff
      simp only [hnew] at hstep
      injection hstep with _ hl
      rw [← hl, ← hiff]
      exact List.forall_mem_cons
    cases note with
    | chainCommitted new =>
      refine hsent new rfl ((durable_handle_iff hrun rfl rfl).trans ?_)
      simp [FlushedInTime, Notification.committedChain, persistedBefore]
    | chainReorged old new =>
      obtain ⟨m₁, hrevert, -⟩ := revert_spec U old l.machine
      obtain ⟨hp, hinterval⟩ := @persistedBefore_revert _ old new _ _ hrevert
      rw [handle_chainReorged hrevert] at hrun
      refine hsent new rfl ((durable_handle_iff hrun hp hinterval).trans ?_)
      simp [FlushedInTime, Notification.committedChain]
    | chainReverted old =>
      injection hstep with _ hl
      rw [← hl]
      refine (and_iff_right ?_).symm
      intro new hnew
      cases hnew

/-! ### Runs -/

/-- **In every run of the main loop all events are durable if and only if every committed
chain is flushed in time**, whatever the flush interval and wherever the run starts. -/
theorem finished_durable_iff {m₀ : Machine} {h : List (MainLoop × Notification)} {l : MainLoop}
    (hrun : Run (LoopStep U) ⟨m₀, []⟩ h l) :
    (∀ f ∈ l.events, f.Durable U) ↔ ∀ p ∈ h, FlushedInTime p.1.machine.exex p.2 := by
  induction hrun with
  | nil => simp
  | snoc hr hs ih => rw [durable_iff hs, ih, List.forall_mem_cons]

/-- The main loop after a chain is committed from a fresh start. -/
def chainLoop (new : Chain) (config : UbtConfig) : MainLoop :=
  (onNotification sampleUbt (.chainCommitted new) ⟨.fresh config, []⟩).state

theorem chainLoop_run {new : Chain} {config : UbtConfig}
    (h : (onNotification sampleUbt (.chainCommitted new) ⟨.fresh config, []⟩).isOk = true) :
    Run (LoopStep sampleUbt) ⟨.fresh config, []⟩
      [(⟨.fresh config, []⟩, .chainCommitted new)] (chainLoop new config) := by
  obtain ⟨_, hstep⟩ := EStateM.Result.exists_ok h
  exact .snoc .nil hstep

/-- One event is sent, and it is durable, for a block when every block is flushed, and for two
blocks when every second block is. -/
theorem finished_durable_two_intervals :
    ((chainLoop slotChain ⟨1, 10⟩).events.length = 1 ∧
      ∀ f ∈ (chainLoop slotChain ⟨1, 10⟩).events, f.Durable sampleUbt) ∧
    (chainLoop (pairChain 5) ⟨2, 10⟩).events.length = 1 ∧
      ∀ f ∈ (chainLoop (pairChain 5) ⟨2, 10⟩).events, f.Durable sampleUbt := by
  refine ⟨⟨by decide +kernel, ?_⟩, by decide +kernel, ?_⟩
  · refine (finished_durable_iff (chainLoop_run (by decide +kernel))).mpr ?_
    refine List.forall_mem_cons.mpr ⟨flushedInTime_of_interval ?_ _, by simp⟩
    decide
  · refine (finished_durable_iff (chainLoop_run (by decide +kernel))).mpr ?_
    refine List.forall_mem_cons.mpr ⟨?_, by simp⟩
    rintro new ⟨⟩
    decide +kernel

/-- **An event for a block that is in memory only**: with a flush interval of two the
event for block 1 is sent while no head is stored. -/
theorem finished_not_durable :
    ¬∀ (U : Ubt) (config : UbtConfig) (disk : Disk) (s : UbtExEx)
      (h : List (MainLoop × Notification)) (l : MainLoop),
      UbtExEx.new U config disk = .ok s → Run (LoopStep U) ⟨⟨s, []⟩, []⟩ h l →
        ∀ f ∈ l.events, f.number ≤ headNumber f.stores.db := by
  intro hall
  have hdurable := hall sampleUbt ⟨2, 10⟩ .empty _ _ _ (UbtExEx.new_empty _ _)
    (@chainLoop_run slotChain ⟨2, 10⟩ (by decide +kernel))
  revert hdurable
  decide +kernel

end UbtExex
