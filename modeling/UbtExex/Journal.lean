import UbtExex.Overlay

/-!
# Programs and their durable writes

How the primitives run, and what the journal of a program says about the stores at
each crash point.  As far as the stems, the MDBX head and NOMT are concerned, every
operation does the same: it changes NOMT first, works beside the checkpoint, writes
the stems, and then writes the head with the root of those stems.

## Main definitions

* `Machine.Extends` — the journal grew by writes with a property.
* `Shows`, `Checkpoint` — what the stores hold, and the shape of an operation's writes.

## Main results

* `flushDirty_spec`, `saveHead_spec` — the checkpointing part of the operations.
-/

open Std

namespace UbtExex

/-! ### Running the primitives -/

namespace Machine

@[simp] theorem exex_update (m : Machine) (f : UbtExEx → UbtExEx) :
    (m.update f).exex = f m.exex := rfl

@[simp] theorem exex_persist (m : Machine) (step : DurableStep) (f : Disk → Disk) :
    (m.persist step f).exex = { m.exex with toDisk := f m.exex.toDisk } := rfl

end Machine

section Run

variable {α : Type} (m : Machine)

@[simp] theorem get_bind_apply (f : Machine → ExM α) : ((get : ExM Machine) >>= f) m = f m m := rfl

@[simp] theorem update_apply (g : UbtExEx → UbtExEx) : update g m = .ok () (m.update g) := rfl

@[simp] theorem update_bind_apply (g : UbtExEx → UbtExEx) (f : Unit → ExM α) :
    (update g >>= f) m = f () (m.update g) := rfl

@[simp] theorem persist_bind_apply (step : DurableStep) (g : Disk → Disk) (f : Unit → ExM α) :
    (persist step g >>= f) m = f () (m.persist step g) := rfl

theorem bind_apply_of_ok {β : Type} {x : ExM β} {f : β → ExM α} {b : β} {m m' : Machine}
    (h : x m = .ok b m') : (x >>= f) m = f b m' := by
  rw [EStateM.bind_apply, h]

theorem bind_apply_of_error {β : Type} {x : ExM β} {f : β → ExM α} {e : UbtError}
    {m m' : Machine} (h : x m = .error e m') : (x >>= f) m = .error e m' := by
  rw [EStateM.bind_apply, h]

end Run

/-! ### Journals that grow -/

/-- The journal of `m'` is that of `m` with more writes, all of them with the property. -/
def Machine.Extends (P : DurableWrite → Prop) (m m' : Machine) : Prop :=
  ∃ ws, m'.journal = ws ++ m.journal ∧ ∀ w ∈ ws, P w

namespace Machine.Extends

variable {P Q : DurableWrite → Prop} {m m' m'' : Machine}

theorem of_journal_eq (h : m'.journal = m.journal) : m.Extends P m' := ⟨[], h, by simp⟩

theorem refl (m : Machine) : m.Extends P m := of_journal_eq rfl

theorem trans (h : m.Extends P m') (h' : m'.Extends P m'') : m.Extends P m'' := by
  obtain ⟨ws, hws, hp⟩ := h
  obtain ⟨ws', hws', hp'⟩ := h'
  refine ⟨ws' ++ ws, by rw [hws', hws, List.append_assoc], ?_⟩
  intro w hw
  rcases List.mem_append.mp hw with hw | hw
  · exact hp' w hw
  · exact hp w hw

theorem mono (h : m.Extends P m') (hPQ : ∀ w, P w → Q w) : m.Extends Q m' := by
  obtain ⟨ws, hws, hp⟩ := h
  exact ⟨ws, hws, fun w hw => hPQ w (hp w hw)⟩

theorem update (m : Machine) (f : UbtExEx → UbtExEx) : m.Extends P (m.update f) :=
  of_journal_eq rfl

theorem persist {step : DurableStep} {f : Disk → Disk}
    (h : P ⟨step, m.exex.toDisk, f m.exex.toDisk⟩) : m.Extends P (m.persist step f) :=
  ⟨[_], rfl, by simpa using h⟩

/-- Every write of the longer journal is new or an old one. -/
theorem forall_mem (h : m.Extends P m') {Q : DurableWrite → Prop} (hPQ : ∀ w, P w → Q w)
    (hm : ∀ w ∈ m.journal, Q w) : ∀ w ∈ m'.journal, Q w := by
  obtain ⟨ws, hws, hp⟩ := h
  intro w hw
  rw [hws] at hw
  rcases List.mem_append.mp hw with hw | hw
  · exact hPQ w (hp w hw)
  · exact hm w hw

end Machine.Extends

/-! ### The shape of an operation's writes -/

variable (U : Ubt)

/-- The root depends on the stems only. -/
theorem computeRoot_congr {db db' : UbtDatabase} (h : db.stems = db'.stems) :
    computeRoot U db = computeRoot U db' := by
  unfold computeRoot UbtDatabase.iterEntriesSorted
  rw [h]

/-- Equal stored values have equal roots. -/
theorem computeRoot_of_value {U : Ubt} {db db' : UbtDatabase} (h : db.value = db'.value) :
    computeRoot U db = computeRoot U db' := by
  unfold computeRoot
  rw [UbtDatabase.iterEntriesSorted_congr fun key => congrFun h key]

/-- What the stores hold, as far as a checkpoint is concerned. -/
structure Shows (d : Disk) (nomt : Nomt) (stems : ExtTreeMap Stem StemNode)
    (head : Option UbtHead) : Prop where
  nomt : d.nomt = nomt
  stems : d.db.stems = stems
  head : d.db.head = head

/-- A write of an operation that takes the stores from a checkpoint to the one of
block `n` with hash `h`.  Whatever the operation, NOMT changes with its first write. -/
inductive Checkpoint (nomt : Nomt) (stems stems' : ExtTreeMap Stem StemNode)
    (head : Option UbtHead) (n : ℕ) (h : B256) (w : DurableWrite) : Prop
  /-- A write beside the checkpoint. -/
  | quiet (hstep : w.step ≠ .batchUpdateStems) (hafter : Shows w.after nomt stems head)
  /-- The write of the stems. -/
  | stems (hstep : w.step = .batchUpdateStems) (hbefore : Shows w.before nomt stems head)
      (hafter : Shows w.after nomt stems' head)
  /-- The write of the head, or one after it. -/
  | head (hstep : w.step ≠ .batchUpdateStems) (hd : UbtHead)
      (hafter : Shows w.after nomt stems' (some hd)) (hn : hd.blockNumber = n)
      (hh : hd.blockHash = h) (hroot : hd.root = computeRoot U w.after.db)

/-- The stems after the overlay is drained. -/
def drainedStems (s : UbtExEx) : ExtTreeMap Stem StemNode :=
  Tables.insertAll s.db.stems s.dirtyStems.toList

/-- Draining the overlay changes no node that is read. -/
theorem overlayStem_drained {s : UbtExEx} {db : UbtDatabase} (h : db.stems = drainedStems s)
    (stem : Stem) : overlayStem db ∅ stem = overlayStem s.db s.dirtyStems stem := by
  have hdb : db.stems = (s.db.batchUpdateStems s.dirtyStems.toList).stems := h
  rw [overlayStem_congr hdb, overlayStem_flush]

/-- The drained stems hold the logical state. -/
theorem value_drained {s : UbtExEx} {db : UbtDatabase} (h : db.stems = drainedStems s) :
    db.value = s.logical := by
  rw [logical_eq, ← overlayValue_empty]
  funext key
  unfold overlayValue
  rw [overlayStem_drained h]

/-! ### The checkpointing part -/

/-- Draining the overlay: the stems are written, if there are any to write. -/
theorem flushDirty_spec (m : Machine) :
    ∃ m', flushDirty m = .ok () m' ∧
      m'.exex = { m.exex with
        db := m.exex.db.batchUpdateStems m.exex.dirtyStems.toList, dirtyStems := ∅ } ∧
      m.Extends (fun w => w.step = .batchUpdateStems ∧ w.before = m.exex.toDisk ∧
        w.after = m'.exex.toDisk) m' := by
  unfold flushDirty
  cases h : m.exex.dirtyStems.toList with
  | nil =>
    refine ⟨m.update fun s => { s with dirtyStems := ∅ }, ?_, rfl, .update _ _⟩
    simp only [get_bind_apply, update_bind_apply, h]
    rfl
  | cons a l =>
    refine ⟨(m.update fun s => { s with dirtyStems := ∅ }).persist .batchUpdateStems
      fun d => { d with db := d.db.batchUpdateStems (a :: l) }, ?_, rfl, ?_⟩
    · simp only [get_bind_apply, update_bind_apply, h]
      rfl
    · exact .persist ⟨rfl, rfl, rfl⟩

/-- The drain of the overlay is the first write of a checkpoint. -/
theorem checkpoint_flushDirty {m m' : Machine} (n : ℕ) (hash : B256)
    (he : m'.exex = { m.exex with
      db := m.exex.db.batchUpdateStems m.exex.dirtyStems.toList, dirtyStems := ∅ })
    (hj : m.Extends (fun w => w.step = .batchUpdateStems ∧ w.before = m.exex.toDisk ∧
      w.after = m'.exex.toDisk) m') :
    m.Extends (Checkpoint U m.exex.nomt m.exex.db.stems (drainedStems m.exex) m.exex.db.head
      n hash) m' := by
  refine hj.mono fun w hw => ?_
  obtain ⟨hstep, hbefore, hafter⟩ := hw
  refine .stems hstep ?_ ?_
  · rw [hbefore]
    exact ⟨rfl, rfl, rfl⟩
  · rw [hafter, he]
    exact ⟨rfl, rfl, rfl⟩

end UbtExex
