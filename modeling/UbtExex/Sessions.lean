import UbtExex.Lib.Calls
import UbtExex.Operations

/-!
# The store over the lives of its process

A process opens the store and calls it; an open that fails ends it.  Over any number
of processes, whatever calls into MDBX fail, the store behaves as the typed tables
do on the calls that succeeded.

## Main definitions

* `Call`, `Answer` — the calls of the store and what they return.
* `Call.perform`, `Call.apply` — a call to the bytes, and to the typed tables.
* `runProcesses`, `Lived` — the processes that used a store one after the other, what
  they saw, and how the typed tables explain it.

## Main results

* `perform_does` — **every call follows the typed one.**
* `runProcesses_lived` — **every run is explained by the typed tables**: a call that
  succeeded made no failing call into MDBX, answered as they do and changed them as
  they are changed; a call that failed changed nothing.
-/

open Std Transaction Encoded

namespace UbtExex.ByteStore

open Mdbx

/-! ### Calls -/

/-- A call of the store. -/
inductive Call
  | sync
  | loadHead
  | saveHead (head : UbtHead)
  | loadStem (stem : Stem)
  | loadValue (key : TreeKey)
  | batchUpdateStems (updates : List (Stem × StemNode))
  | iterStems
  | iterEntriesSorted
  | saveStemAddress (stem : Stem) (address : Address)
  | batchSaveStemAddresses (mappings : List (Stem × Address))
  | loadStemAddress (stem : Stem)
  | saveBlockDeltas (blockNumber : UInt64) (deltas : List Delta)
  | loadBlockDeltas (blockNumber : UInt64)
  | deleteBlockDeltas (blockNumber : UInt64)
  | pruneDeltasBefore (blockNumber : UInt64)
  | deleteDeltasAfter (blockNumber : UInt64)

/-- What a call returns. -/
inductive Answer
  | done
  | head (head : Option UbtHead)
  | stem (node : Option StemNode)
  | value (value : Option B256)
  | stems (stems : List (Stem × StemNode))
  | entries (entries : List (TreeKey × B256))
  | address (address : Option Address)
  | deltas (deltas : List Delta)
  | count (count : ℕ)

/-- The call on the tables of bytes. -/
def Call.perform (lib : Libmdbx) (bin : Bincode) : Call → StoreM Answer
  | .sync => do ByteStore.sync lib; return .done
  | .loadHead => do return .head (← ByteStore.loadHead lib bin)
  | .saveHead head => do ByteStore.saveHead lib bin head; return .done
  | .loadStem stem => do return .stem (← ByteStore.loadStem lib bin stem)
  | .loadValue key => do return .value (← ByteStore.loadValue lib bin key)
  | .batchUpdateStems updates => do ByteStore.batchUpdateStems lib bin updates; return .done
  | .iterStems => do return .stems (← ByteStore.iterStems lib bin)
  | .iterEntriesSorted => do return .entries (← ByteStore.iterEntriesSorted lib bin)
  | .saveStemAddress stem address => do ByteStore.saveStemAddress lib bin stem address; return .done
  | .batchSaveStemAddresses mappings => do
      ByteStore.batchSaveStemAddresses lib mappings
      return .done
  | .loadStemAddress stem => do return .address (← ByteStore.loadStemAddress lib stem)
  | .saveBlockDeltas n deltas => do ByteStore.saveBlockDeltas lib bin n.toNat deltas; return .done
  | .loadBlockDeltas n => do return .deltas (← ByteStore.loadBlockDeltas lib bin n.toNat)
  | .deleteBlockDeltas n => do ByteStore.deleteBlockDeltas lib n.toNat; return .done
  | .pruneDeltasBefore n => do return .count (← ByteStore.pruneDeltasBefore lib n.toNat)
  | .deleteDeltasAfter n => do ByteStore.deleteDeltasAfter lib n.toNat; return .done

/-- The call on the typed tables. -/
def Call.apply (debugStem : Stem → String) (db : UbtDatabase) :
    Call → Except UbtExex.UbtError (Answer × UbtDatabase)
  | .sync => .ok (.done, db)
  | .loadHead => .ok (.head db.loadHead, db)
  | .saveHead head => .ok (.done, db.saveHead head)
  | .loadStem stem => .ok (.stem (db.loadStem stem), db)
  | .loadValue key => .ok (.value (db.loadValue key), db)
  | .batchUpdateStems updates => .ok (.done, db.batchUpdateStems updates)
  | .iterStems => .ok (.stems db.iterStems, db)
  | .iterEntriesSorted => .ok (.entries db.iterEntriesSorted, db)
  | .saveStemAddress stem address =>
      (db.saveStemAddress debugStem stem address).map fun db => (.done, db)
  | .batchSaveStemAddresses mappings =>
      (db.batchSaveStemAddresses mappings).map fun db => (.done, db)
  | .loadStemAddress stem => .ok (.address (db.loadStemAddress stem), db)
  | .saveBlockDeltas n deltas => .ok (.done, db.saveBlockDeltas n.toNat deltas)
  | .loadBlockDeltas n => .ok (.deltas (db.loadBlockDeltas n.toNat), db)
  | .deleteBlockDeltas n => .ok (.done, db.deleteBlockDeltas n.toNat)
  | .pruneDeltasBefore n =>
      .ok (.count (db.deltaBlocks fun bn => bn < n.toNat).length, db.pruneDeltasBefore n.toNat)
  | .deleteDeltasAfter n => .ok (.done, db.deleteDeltasAfter n.toNat)

/-- `bincode` refused something that the call writes. -/
def Call.Unwritable (bin : Bincode) : Call → UbtError → Prop
  | .saveHead head, e => Refuses bin.head head e
  | .batchUpdateStems updates, e => ∃ u ∈ updates, Refuses bin.stemNode u.2 e
  | .saveBlockDeltas _ deltas, e => Refuses bin.deltas deltas e
  | _, _ => False

/-- The reasons of its own for which a call fails: it cannot write, or the typed
tables refuse it. -/
def Call.Own (bin : Bincode) (db : UbtDatabase) (call : Call) (e : UbtError) : Prop :=
  call.Unwritable bin e ∨ ∃ e', call.apply bin.debugStem db = .error e' ∧ SameError e' e

/-- What is known after a call: the tables represent the typed result. -/
abbrev Followed (bin : Bincode) : UbtDatabase → Call → Answer → Store Tables → Prop :=
  Calls.Followed (Represents bin) (Call.apply bin.debugStem)

variable {lib : Libmdbx} {bin : Bincode} {c : Tables} {db : UbtDatabase}

/-- **Every call follows the typed one.** -/
theorem perform_does (call : Call) (h : Represents bin c db) :
    Does lib.fault (Reports lib) (call.Own bin db) (call.perform lib bin) (.closed c)
      (Followed bin db call) (· = .closed c) := by
  -- a call that reads leaves the tables alone
  have hread : ∀ {α : Type} {x : StoreM α} {r : α} {f : α → Answer} {call : Call},
      Does lib.fault (Reports lib) (call.Own bin db) x (.closed c)
        (fun a st => a = r ∧ st = .closed c) (· = .closed c) →
      call.apply bin.debugStem db = .ok (f r, db) →
      Does lib.fault (Reports lib) (call.Own bin db) (x >>= fun a => pure (f a)) (.closed c)
        (Followed bin db call) (· = .closed c) := by
    intro α x r f call hx happly
    refine hx.bind ?_
    rintro a st ⟨rfl, rfl⟩
    exact Does.pure ⟨c, db, rfl, happly, h⟩
  -- a call that writes ends in the typed result
  have hwrite : ∀ {x : StoreM PUnit} {db' : UbtDatabase} {call : Call},
      Does lib.fault (Reports lib) (call.Own bin db) x (.closed c)
        (fun _ st => ∃ c', st = .closed c' ∧ Represents bin c' db') (· = .closed c) →
      call.apply bin.debugStem db = .ok (.done, db') →
      Does lib.fault (Reports lib) (call.Own bin db) (x >>= fun _ => pure .done) (.closed c)
        (Followed bin db call) (· = .closed c) := by
    intro x db' call hx happly
    refine hx.bind ?_
    rintro a st ⟨c', rfl, hc'⟩
    exact Does.pure ⟨c', db', rfl, happly, hc'⟩
  cases call with
  | sync => exact hwrite (sync_does.mono (fun _ st hst => ⟨c, hst, h⟩) (fun _ h => h)
      (fun _ h => h)) rfl
  | loadHead => exact hread (loadHead_does h) rfl
  | saveHead head => exact hwrite (saveHead_does h fun e he => Or.inl he) rfl
  | loadStem stem => exact hread (loadStem_does h) rfl
  | loadValue key => exact hread (loadValue_does h) rfl
  | batchUpdateStems updates =>
    exact hwrite (batchUpdateStems_does h fun u hu e he => Or.inl ⟨u, hu, he⟩) rfl
  | iterStems => exact hread (iterStems_does h) rfl
  | iterEntriesSorted => exact hread (iterEntriesSorted_does h) rfl
  | saveStemAddress stem address =>
    refine (saveStemAddress_does h fun e' e he' hsame => Or.inr ⟨e', ?_, hsame⟩).bind ?_
    · rintro _ st ⟨c', db', rfl, hdb', hc'⟩
      exact Does.pure ⟨c', db', rfl, by rw [Call.apply, hdb']; rfl, hc'⟩
    · rw [Call.apply, he']
      rfl
  | batchSaveStemAddresses mappings =>
    refine (batchSaveStemAddresses_does h fun e' e he' hsame => Or.inr ⟨e', ?_, hsame⟩).bind ?_
    · rintro _ st ⟨c', db', rfl, hdb', hc'⟩
      exact Does.pure ⟨c', db', rfl, by rw [Call.apply, hdb']; rfl, hc'⟩
    · rw [Call.apply, he']
      rfl
  | loadStemAddress stem => exact hread (loadStemAddress_does h) rfl
  | saveBlockDeltas n deltas =>
    exact hwrite (saveBlockDeltas_does h n.toNat_lt fun e he => Or.inl he) rfl
  | loadBlockDeltas n => exact hread (loadBlockDeltas_does h n.toNat_lt) rfl
  | deleteBlockDeltas n => exact hwrite (deleteBlockDeltas_does h n.toNat_lt) rfl
  | pruneDeltasBefore n =>
    refine (pruneDeltasBefore_does h).bind ?_
    rintro count st ⟨c', rfl, rfl, hc'⟩
    exact Does.pure ⟨c', _, rfl, rfl, hc'⟩
  | deleteDeltasAfter n => exact hwrite (deleteDeltasAfter_does h) rfl

/-! ### Runs -/

/-- **The store follows the typed tables**, whatever calls into MDBX fail. -/
theorem follows (lib : Libmdbx) (bin : Bincode) :
    Calls.Follows lib.fault (Reports lib) (fun db call => call.Own bin db) (Represents bin)
      (Call.perform lib bin) (Call.apply bin.debugStem) :=
  fun call _ _ h => perform_does call h

/-- How a process opens the store: where, and how creating the directory ends. -/
structure Opening where
  path : String
  createDirAll : Except String Unit

/-- `UbtDatabase::open` by a process. -/
def Opening.run (lib : Libmdbx) (o : Opening) : StoreM PUnit :=
  openDatabase lib o.path o.createDirAll

/-- The directory could not be created. -/
def NoDirectory (e : UbtError) : Prop := ∃ reason, e = .io reason

/-- Files that were never opened. -/
def fresh : Session Tables := ⟨.closed ∅, 0⟩

/-- One process after the other on the same files. -/
abbrev runProcesses (lib : Libmdbx) (bin : Bincode) (ps : List (Opening × List Call)) :
    List (Calls.Log UbtError Call Answer) × Session Tables :=
  Calls.runProcesses (Opening.run lib) (Call.perform lib bin) ps fresh

/-- The logs of the processes, read from the typed tables. -/
abbrev Lived (lib : Libmdbx) (bin : Bincode) :
    UbtDatabase → ℕ → List (Calls.Log UbtError Call Answer) → UbtDatabase → ℕ → Prop :=
  Calls.Lived lib.fault (Reports lib) (fun db call => call.Own bin db) NoDirectory
    (Call.apply bin.debugStem)

/-- **Every run is explained by the typed tables**: from files that were never opened,
over any processes and whatever calls into MDBX fail, a call that succeeded made no
failing call into MDBX, answered as the typed tables do and changed them as they are
changed; a call that failed changed nothing and is to blame on its last call into
MDBX, on `bincode` or on a typed refusal.  No transaction is left open, and the files
hold the typed tables.

It is an assumption on the library that a call that fails, a commit included, has no
effect. -/
theorem runProcesses_lived (lib : Libmdbx) (bin : Bincode) (ps : List (Opening × List Call)) :
    ∃ c db, (runProcesses lib bin ps).2.store = .closed c ∧ Created bin c db ∧
      Lived lib bin .empty 0 (runProcesses lib bin ps).1 db (runProcesses lib bin ps).2.calls := by
  have hopen : ∀ (o : Opening) (c : Tables) (db : UbtDatabase), Created bin c db →
      Does lib.fault (Reports lib) NoDirectory (o.run lib) (.closed c)
        (fun _ st => ∃ c', st = .closed c' ∧ Represents bin c' db)
        (fun st => ∃ c', st = .closed c' ∧ Created bin c' db) := fun o c db h =>
    (openDatabase_does h fun reason _ => ⟨reason, rfl⟩).mono (fun _ _ h => h)
      (fun _ hst => ⟨c, hst, h⟩) (fun _ h => h)
  obtain ⟨c, db, n, hs, hrep, hlogs⟩ := (follows lib bin).lived hopen (fun h => Or.inr h) ps
    (n := 0) (Or.inl ⟨rfl, rfl⟩ : Created bin ∅ .empty)
  have hs' : (runProcesses lib bin ps).2 = ⟨.closed c, n⟩ := hs
  rw [hs']
  exact ⟨c, db, rfl, hrep, hlogs⟩

end UbtExex.ByteStore
