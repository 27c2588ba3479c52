import UbtExex.Follow

/-!
# Crashes

A crash leaves the stores as they were after some durable write.  The next startup
refuses them when the root of the MDBX head is not the root of the stored stems.
The two are written one after the other, so the stores found by a startup are
refused exactly when the crash came between the two writes, over an older head, and
the write of the stems changed a value.

## Main definitions

* `Op`, `perform` — the operations, and a run of them.
* `RootOk` — the root of the stored head is that of the stored stems.
* `SafePoint` — the condition on a durable write.

## Main results

* `new_ok_iff` — a startup succeeds exactly when the root is that of the stems.
* `crash_safe_iff` — **after a crash at any durable write of any run, the next startup
  succeeds exactly when the write is a safe point.**
* `crash_between_stems_and_head` — a crash point that is not safe.
-/

open Std

namespace UbtExex

/-! ### Runs of operations -/

/-- An operation of the extension, with its arguments. -/
inductive Op
  /-- Entries are pushed and committed. -/
  | commit (number : ℕ) (hash : B256) (entries : List PendingEntry)
  | revert (old : Chain)
  | shutdown

variable (U : Ubt)

/-- Run an operation. -/
def Op.run : Op → ExM Unit
  | .commit number hash entries => do
    let _ ← commitEntries U number hash entries
  | .revert old => UbtExex.revert U old
  | .shutdown => UbtExex.shutdown U

/-- An operation that succeeds. -/
def OpStep (m : Machine) (op : Op) (m' : Machine) : Prop := op.run U m = .ok () m'

variable {U} in
theorem OpStep.of_isOk {m : Machine} {op : Op} (h : (op.run U m).isOk = true) :
    OpStep U m op (op.run U m).state := by
  obtain ⟨_, hok⟩ := EStateM.Result.exists_ok h
  exact hok

/-- Run operations one after the other; the first that fails ends the process. -/
def perform (ops : List Op) : ExM Unit := ops.forM (Op.run U)

/-- The durable writes of a program over an extension, newest first: the points at
which it can crash. -/
def writesOf {α : Type} (x : ExM α) (s : UbtExEx) : List DurableWrite := (x ⟨s, []⟩).state.journal

/-- The durable writes of a program are those by which its journal grew. -/
theorem mem_writesOf {α : Type} {x : ExM α} {s : UbtExEx} {P : DurableWrite → Prop}
    (h : Machine.Extends P ⟨s, []⟩ (x ⟨s, []⟩).state) : ∀ w ∈ writesOf x s, P w := by
  obtain ⟨ws, hws, hp⟩ := h
  intro w hw
  unfold writesOf at hw
  rw [hws, List.append_nil] at hw
  exact hp w hw

variable {U} in
/-- A commit leaves the state it reached, whether it succeeds or not. -/
theorem Op.state_commit {n : ℕ} {hash : B256} {es : List PendingEntry} {m : Machine} :
    ((Op.commit n hash es).run U m).state = (commitEntries U n hash es m).state := by
  change ((commitEntries U n hash es >>= fun _ => pure ()) m).state = _
  cases h : commitEntries U n hash es m with
  | error e m' => rw [bind_apply_of_error h]; rfl
  | ok root m' => rw [bind_apply_of_ok h]; rfl

variable {U} in
theorem Op.commit_eq_ok {n : ℕ} {hash : B256} {es : List PendingEntry} {m m' : Machine} {u : Unit}
    (h : (Op.commit n hash es).run U m = .ok u m') :
    ∃ root, commitEntries U n hash es m = .ok root m' := by
  have h : (commitEntries U n hash es >>= fun _ => pure ()) m = .ok u m' := h
  rw [EStateM.bind_eq_ok] at h
  obtain ⟨root, m₁, hrun, hpure⟩ := h
  cases hpure
  exact ⟨root, hrun⟩

/-! ### Startup -/

/-- The root of the stored head, if there is one, is that of the stored stems. -/
def RootOk (db : UbtDatabase) : Prop := ∀ hd ∈ db.loadHead, hd.root = computeRoot U db

instance (db : UbtDatabase) : Decidable (RootOk U db) :=
  inferInstanceAs (Decidable (∀ hd ∈ db.loadHead, hd.root = computeRoot U db))

/-- **A startup succeeds exactly when the stored root is that of the stems**; then it
restores the extension from the head. -/
theorem new_eq_ok_iff {config : UbtConfig} {disk : Disk} {s : UbtExEx} :
    UbtExEx.new U config disk = .ok s ↔
      RootOk U disk.db ∧ s = (UbtExEx.restore config disk disk.db.loadHead).syncNomt := by
  unfold UbtExEx.new RootOk
  cases hhead : disk.db.loadHead with
  | none =>
    constructor
    · intro h
      exact ⟨by simp, (Except.ok.inj h).symm⟩
    · rintro ⟨-, rfl⟩
      rfl
  | some hd =>
    simp only [Option.mem_some_iff, forall_eq']
    by_cases hroot : hd.root = computeRoot U disk.db
    · rw [if_pos hroot.symm]
      constructor
      · intro h
        exact ⟨hroot, (Except.ok.inj h).symm⟩
      · rintro ⟨-, rfl⟩
        rfl
    · rw [if_neg (Ne.symm hroot)]
      constructor
      · intro h
        cases h
      · rintro ⟨h, -⟩
        exact absurd h hroot

theorem new_ok_iff {config : UbtConfig} {disk : Disk} :
    (∃ s, UbtExEx.new U config disk = .ok s) ↔ RootOk U disk.db := by
  constructor
  · rintro ⟨s, h⟩
    exact ((new_eq_ok_iff U).mp h).1
  · intro h
    exact ⟨_, (new_eq_ok_iff U).mpr ⟨h, rfl⟩⟩

variable {U}

/-- Whether the root is right depends on the stems and the head only. -/
theorem rootOk_congr {db db' : UbtDatabase} (hstems : db.stems = db'.stems)
    (hhead : db.head = db'.head) (h : RootOk U db) : RootOk U db' := by
  intro hd hhd
  rw [← computeRoot_congr U hstems]
  exact h hd (hhead.trans hhd)

theorem rootOk_of_head {db : UbtDatabase} {hd : UbtHead} (hhead : db.head = some hd)
    (hroot : hd.root = computeRoot U db) : RootOk U db := by
  intro hd' hhd'
  obtain rfl : hd = hd' := Option.some.inj (hhead.symm.trans hhd')
  exact hroot

/-! ### Crash points -/

/-- A write of the stems over a saved head changes no stored value. -/
def SafePoint (w : DurableWrite) : Prop :=
  w.step = .batchUpdateStems →
    w.before.db.loadHead = none ∨ ∀ key, w.after.db.value key = w.before.db.value key

variable (U) in
/-- What every durable write of a run satisfies. -/
structure CrashPoint (w : DurableWrite) : Prop where
  /-- Only the write of the stems can leave a wrong root. -/
  others : w.step ≠ .batchUpdateStems → RootOk U w.after.db
  /-- The write of the stems finds a right root, and keeps the head. -/
  stems : w.step = .batchUpdateStems → RootOk U w.before.db ∧ w.after.db.head = w.before.db.head

/-- The writes of an operation that starts from a right root. -/
theorem Checkpoint.crashPoint {db : UbtDatabase} {nomt : Nomt}
    {stems' : ExtTreeMap Stem StemNode} {n : ℕ} {hash : B256} {w : DurableWrite}
    (h : Checkpoint U nomt db.stems stems' db.head n hash w) (hroot : RootOk U db) :
    CrashPoint U w := by
  cases h with
  | quiet hstep hafter =>
    exact ⟨fun _ => rootOk_congr hafter.stems.symm hafter.head.symm hroot, fun h => absurd h hstep⟩
  | stems hstep hbefore hafter =>
    refine ⟨fun h => absurd hstep h, fun _ => ⟨?_, hafter.head.trans hbefore.head.symm⟩⟩
    exact rootOk_congr hbefore.stems.symm hbefore.head.symm hroot
  | head hstep hd hafter hn hh hhd =>
    exact ⟨fun _ => rootOk_of_head hafter.head hhd, fun h => absurd h hstep⟩

/-- **One operation**: its writes are crash points, and if it succeeds it leaves a
right root. -/
theorem crashPoint_run (op : Op) (m : Machine) (hroot : RootOk U m.exex.db) :
    m.Extends (CrashPoint U) (op.run U m).state ∧
      ∀ u m', op.run U m = .ok u m' → RootOk U m'.exex.db := by
  cases op with
  | commit n hash es =>
    have hj : m.Extends (CrashPoint U) (commitEntries U n hash es m).state := by
      refine (commit_journal U n hash (m.push es)).mono fun w hw => ?_
      have hpoint : Checkpoint U _ m.exex.db.stems _ m.exex.db.head n hash w := hw
      exact hpoint.crashPoint hroot
    refine ⟨by rw [Op.state_commit]; exact hj, fun u m' h => ?_⟩
    obtain ⟨root, hrun⟩ := Op.commit_eq_ok h
    have hc := commit_ok U hrun
    -- a commit that flushes saves a new head, any other keeps stems and head
    cases hf : (m.push es).exex.shouldFlush n with
    | true =>
      obtain ⟨-, -, -, -, hroot', stemCount, hhead⟩ := hc.flushed hf
      exact rootOk_of_head hhead hroot'
    | false =>
      obtain ⟨-, -, -, -, hstems, hhead⟩ := hc.kept hf
      exact rootOk_congr hstems.symm hhead.symm hroot
  | revert old =>
    obtain ⟨m', hrun, hr⟩ := revert_spec U old m
    obtain ⟨stems', -, hj⟩ := hr.journal
    change m.Extends _ (revert U old m).state ∧ ∀ u m₁, revert U old m = .ok u m₁ → _
    rw [hrun]
    refine ⟨hj.mono fun w hw => hw.crashPoint hroot, fun u m₁ h => ?_⟩
    cases h
    by_cases hpers : ∃ b ∈ old.blocks, b.number ≤ m.exex.lastPersistedBlock
    · obtain ⟨-, -, -, -, stemCount, hhead⟩ := hr.persisted hpers
      exact rootOk_of_head hhead rfl
    · obtain ⟨-, -, -, hstems, hhead⟩ := hr.kept hpers
      exact rootOk_congr hstems.symm hhead.symm hroot
  | shutdown =>
    obtain ⟨m', hrun, -, -, -, ⟨stemCount, hhead⟩, hj⟩ := shutdown_spec U m
    change m.Extends _ (shutdown U m).state ∧ ∀ u m₁, shutdown U m = .ok u m₁ → _
    rw [hrun]
    refine ⟨hj.mono fun w hw => hw.crashPoint hroot, fun u m₁ h => ?_⟩
    cases h
    exact rootOk_of_head hhead rfl

/-- **Every durable write of a run is a crash point.** -/
theorem crashPoint_perform (ops : List Op) {s : UbtExEx} (hroot : RootOk U s.db) :
    ∀ w ∈ writesOf (perform U ops) s, CrashPoint U w := by
  refine EStateM.state_forM
    (fun m : Machine => RootOk U m.exex.db ∧ ∀ w ∈ m.journal, CrashPoint U w)
    (fun m : Machine => ∀ w ∈ m.journal, CrashPoint U w)
    (fun m hm => hm.2) ?_ ops ⟨s, []⟩ ⟨hroot, by simp⟩
  rintro op m ⟨hroot, hm⟩
  obtain ⟨hj, hok⟩ := crashPoint_run op m hroot
  have hall := hj.forall_mem (fun w hw => hw) hm
  refine ⟨hall, fun u m' h => ⟨hok u m' h, ?_⟩⟩
  rw [h] at hall
  exact hall

/-- **After a crash at any durable write of any run, the stored root is right, and the
next startup succeeds, exactly when the write is a safe point.**  It is assumed that
the roots before and after the write are equal only for equal entries. -/
theorem crash_safe_iff {config : UbtConfig} {disk : Disk} {s : UbtExEx} {ops : List Op}
    {w : DurableWrite} (hnew : UbtExEx.new U config disk = .ok s) (hw : w ∈ writesOf (perform U ops) s)
    (hcollision : computeRoot U w.after.db = computeRoot U w.before.db →
      w.after.db.iterEntriesSorted = w.before.db.iterEntriesSorted) :
    (RootOk U w.after.db ∧ ∀ config', ∃ s', UbtExEx.new U config' w.after = .ok s') ↔
      SafePoint w := by
  have hroot : RootOk U s.db := by
    obtain ⟨hroot, rfl⟩ := (new_eq_ok_iff U).mp hnew
    have hdb : (UbtExEx.restore config disk disk.db.loadHead).syncNomt.db = disk.db := by
      unfold UbtExEx.syncNomt
      simp only
      split
      · rfl
      · split <;> rfl
    rw [hdb]
    exact hroot
  have hpoint := crashPoint_perform ops hroot w hw
  have hnext : (RootOk U w.after.db ∧ ∀ config', ∃ s', UbtExEx.new U config' w.after = .ok s') ↔
      RootOk U w.after.db := by
    constructor
    · exact fun h => h.1
    · exact fun h => ⟨h, fun config' => (new_ok_iff U).mpr h⟩
  rw [hnext]
  constructor
  · intro hafter hstep
    obtain ⟨hbefore, hhead⟩ := hpoint.stems hstep
    cases hhd : w.before.db.loadHead with
    | none => exact Or.inl rfl
    | some hd =>
      -- the head was kept, so its root is that of the stems before and of those after
      right
      have hroots : computeRoot U w.after.db = computeRoot U w.before.db :=
        (hafter hd (hhead.trans hhd)).symm.trans (hbefore hd hhd)
      exact UbtDatabase.value_congr (hcollision hroots)
  · intro hsafe
    by_cases hstep : w.step = .batchUpdateStems
    · obtain ⟨hbefore, hhead⟩ := hpoint.stems hstep
      rcases hsafe hstep with hnone | hvalue
      · intro hd hhd
        rw [UbtDatabase.loadHead, hhead] at hhd
        rw [UbtDatabase.loadHead] at hnone
        rw [hnone] at hhd
        cases hhd
      · intro hd hhd
        have hentries := UbtDatabase.iterEntriesSorted_congr hvalue
        unfold computeRoot
        rw [hentries]
        exact hbefore hd (hhead.symm.trans hhd)
    · exact hpoint.others hstep

/-! ### A crash between the stems and the head -/

/-- Two commits of one slot by an extension that flushes every block. -/
def crashOps : List Op :=
  [.commit 1 11 [⟨slotKey 7 1, 1, 7⟩], .commit 2 12 [⟨slotKey 7 1, 2, 7⟩]]

/-- The writes of the two commits. -/
def crashWrites : List DurableWrite :=
  writesOf (perform sampleUbt crashOps) (Machine.fresh ⟨1, 10⟩).exex

/-- The write of the stems by the first commit. -/
def firstStems : DurableWrite := crashWrites.get ⟨8, by decide +kernel⟩

/-- The write of the stems by the second commit. -/
def secondStems : DurableWrite := crashWrites.get ⟨2, by decide +kernel⟩

/-- The first write of the stems is safe: no head is saved yet. -/
theorem crash_safe_first_stems :
    firstStems.step = .batchUpdateStems ∧ RootOk sampleUbt firstStems.after.db := by
  have hnew := UbtExEx.new_empty sampleUbt ⟨1, 10⟩
  have hmem : firstStems ∈ writesOf (perform sampleUbt crashOps) (Machine.fresh ⟨1, 10⟩).exex :=
    List.get_mem _ _
  refine ⟨by decide +kernel, ((crash_safe_iff hnew hmem ?_).mpr ?_).1⟩
  · decide +kernel
  · intro _
    exact Or.inl (by decide +kernel)

/-- **A crash between the write of the stems and that of the head is not safe**: after
the second commit has written its stems, the head still has the root of the first. -/
theorem crash_between_stems_and_head :
    ¬∀ (U : Ubt) (config : UbtConfig) (disk : Disk) (s : UbtExEx) (ops : List Op),
      UbtExEx.new U config disk = .ok s →
      (∀ w ∈ writesOf (perform U ops) s, computeRoot U w.after.db = computeRoot U w.before.db →
        w.after.db.iterEntriesSorted = w.before.db.iterEntriesSorted) →
      ∀ w ∈ writesOf (perform U ops) s,
        RootOk U w.after.db ∧ ∀ config', ∃ s', UbtExEx.new U config' w.after = .ok s' := by
  intro hall
  have hcollision : ∀ w ∈ crashWrites,
      computeRoot sampleUbt w.after.db = computeRoot sampleUbt w.before.db →
        w.after.db.iterEntriesSorted = w.before.db.iterEntriesSorted := by decide +kernel
  have hmem : secondStems ∈ crashWrites := List.get_mem _ _
  obtain ⟨hroot, -⟩ := hall sampleUbt ⟨1, 10⟩ .empty _ crashOps (UbtExEx.new_empty _ _) hcollision
    secondStems hmem
  revert hroot
  decide +kernel

end UbtExex
