import UbtExex.IndexOperations
import UbtExex.Lib.Calls

/-!
# The key index over the lives of its process

The key index opened and used by one process after the other, whatever calls into
redb fail, against the typed index.

## Main definitions

* `Call`, `Answer` — the calls of the index and what they return.
* `Call.perform`, `Call.apply` — a call to the file, and to the typed index.
* `runProcesses`, `Lived` — the processes that used a file one after the other, what
  they saw, and how the typed index explains it.

## Main results

* `follows` — **every call follows the typed one.**
* `indexProcesses_lived` — **every run is explained by the typed index.**
-/

open Std Transaction

namespace UbtExex.IndexStore

open KeyIndex PackedIndex
open ByteStore (refuse ofUbtError SameError io)

/-- A call of the key index.  The callback of `for_each_stem` is known by what it makes
of the records that it got so far. -/
inductive Call
  | applyUpdates (b : Batch)
  | saveHead (blockNumber : UInt64) (blockHash root : B256) (stemCount : UInt64)
  | loadHead
  | forEachStem (callback : List (Stem × StemRecord) → Except Error Unit)

/-- What a call returns. -/
inductive Answer
  | newStems (n : ℕ)
  | done
  | head (head : Option HeadRecord)
  /-- The records that the callback got. -/
  | records (records : List (Stem × StemRecord))

/-- The callback, over the records that it got. -/
def passTo (callback : List (Stem × StemRecord) → Except Error Unit)
    (seen : List (Stem × StemRecord)) (stem : Stem) (record : StemRecord) :
    Except Error (List (Stem × StemRecord)) := do
  callback (seen ++ [(stem, record)])
  return seen ++ [(stem, record)]

/-- The call on the file. -/
def Call.perform (lib : Redb) : Call → IndexM Answer
  | .applyUpdates b => do return .newStems (← IndexStore.applyUpdates lib b)
  | .saveHead n blockHash root count => do
      IndexStore.saveHead lib n blockHash root count
      return .done
  | .loadHead => do return .head (← IndexStore.loadHead lib)
  | .forEachStem callback => do
      return .records (← IndexStore.forEachStem lib (passTo callback) [])

/-- The call on the typed index. -/
def Call.apply (ki : KeyIndex) : Call → Except Error (Answer × KeyIndex)
  | .applyUpdates b =>
      match ki.applyUpdates b.updates with
      | .ok (ki', n) => .ok (.newStems n, ki')
      | .error e => .error (ofUbtError e)
  | .saveHead n blockHash root count =>
      .ok (.done, ki.saveHead ⟨n.toNat, blockHash, root, count.toNat⟩)
  | .loadHead => .ok (.head ki.loadHead, ki)
  | .forEachStem callback =>
      match ki.forEachStem.foldlM (fun seen row => passTo callback seen row.1 row.2) [] with
      | .ok records => .ok (.records records, ki)
      | .error e => .error e

/-- The one reason of its own for which a call fails: the typed index refuses it. -/
def Call.Own (ki : KeyIndex) (call : Call) (e : Error) : Prop := call.apply ki = .error e

/-- **The key index follows the typed one**, whatever calls into redb fail. -/
theorem follows (lib : Redb) :
    Calls.Follows lib.fault Reports (fun ki call => call.Own ki) Represents (Call.perform lib)
      Call.apply := by
  intro call ts ki h
  cases call with
  | applyUpdates b =>
    refine (applyUpdates_does h fun e' e he hsame => ?_).bind ?_
    · change Call.apply ki (.applyUpdates b) = .error e
      rw [Call.apply, he, hsame]
    · rintro n st ⟨ts', ki', rfl, hki, hrep⟩
      exact Does.pure ⟨ts', ki', rfl, by rw [Call.apply, hki], hrep⟩
  | saveHead n blockHash root count =>
    refine (saveHead_does h).bind ?_
    rintro _ st ⟨ts', rfl, hrep⟩
    exact Does.pure ⟨ts', _, rfl, rfl, hrep⟩
  | loadHead =>
    refine (loadHead_does h).bind ?_
    rintro a st ⟨rfl, rfl⟩
    exact Does.pure ⟨ts, ki, rfl, rfl, h⟩
  | forEachStem callback =>
    refine (forEachStem_does h fun e he => ?_).bind ?_
    · change Call.apply ki (.forEachStem callback) = .error e
      rw [Call.apply, he]
    · rintro records st ⟨hrecords, rfl⟩
      exact Does.pure ⟨ts, ki, rfl, by rw [Call.apply, hrecords], h⟩

/-! ### Runs -/

/-- The directory of the file could not be created. -/
def NoDirectory (e : Error) : Prop := ∃ reason, e = .io reason

/-- Opening the file leaves it as it is. -/
theorem openIndex_does {lib : Redb} {createDirAll : Except String Unit} {ts : Tables} :
    Does lib.fault Reports NoDirectory (openIndex lib createDirAll) (.closed ts)
      (fun _ st => st = .closed ts) (· = .closed ts) := by
  have hcall : Does lib.fault Reports NoDirectory
      (redbCall lib fun st => ((⟨⟩ : PUnit), st)) (.closed ts) (fun _ st => st = .closed ts)
      (· = .closed ts) := redbCall_does rfl rfl
  unfold openIndex
  cases createDirAll with
  | ok u => exact hcall
  | error reason =>
    have hio : Does lib.fault Reports NoDirectory (io (.error reason)) (.closed ts)
        (fun _ _ => False) (· = .closed ts) := Does.throw ⟨reason, rfl⟩ rfl
    exact hio.bind fun _ _ hfalse => hfalse.elim

/-- No file yet. -/
def fresh : Session Tables := ⟨.closed .empty, 0⟩

/-- One process after the other on the same file; each tries to create its directory. -/
abbrev runProcesses (lib : Redb) (ps : List (Except String Unit × List Call)) :
    List (Calls.Log Error Call Answer) × Session Tables :=
  Calls.runProcesses (openIndex lib) (Call.perform lib) ps fresh

/-- The logs of the processes, read from the typed index. -/
abbrev Lived (lib : Redb) :
    KeyIndex → ℕ → List (Calls.Log Error Call Answer) → KeyIndex → ℕ → Prop :=
  Calls.Lived lib.fault Reports (fun ki call => call.Own ki) NoDirectory Call.apply

/-- **Every run is explained by the typed index**: from no file, over any processes,
whatever calls into redb fail and in whatever order the hash maps are iterated, a call
that succeeded made no failing call into redb, answered as the typed index does and
changed it as it is changed; a call that failed changed nothing and is to blame on its
last call into redb, on a stem with two addresses or on its callback.

It is an assumption on redb that a call that fails, a commit included, has no effect. -/
theorem indexProcesses_lived (lib : Redb) (ps : List (Except String Unit × List Call)) :
    ∃ ts ki, (runProcesses lib ps).2.store = .closed ts ∧ Represents ts ki ∧
      Lived lib .empty 0 (runProcesses lib ps).1 ki (runProcesses lib ps).2.calls := by
  have hopen : ∀ (o : Except String Unit) (ts : Tables) (ki : KeyIndex), Represents ts ki →
      Does lib.fault Reports NoDirectory (openIndex lib o) (.closed ts)
        (fun _ st => ∃ ts', st = .closed ts' ∧ Represents ts' ki)
        (fun st => ∃ ts', st = .closed ts' ∧ Represents ts' ki) := fun o ts ki h =>
    openIndex_does.mono (fun _ _ hst => ⟨ts, hst, h⟩) (fun _ hst => ⟨ts, hst, h⟩) fun _ h => h
  obtain ⟨ts, ki, n, hs, hrep, hlogs⟩ := (follows lib).lived hopen (fun h => h) ps (n := 0)
    represents_empty
  have hs' : (runProcesses lib ps).2 = ⟨.closed ts, n⟩ := hs
  rw [hs']
  exact ⟨ts, ki, rfl, hrep, hlogs⟩

end UbtExex.IndexStore
