import UbtExex.Lib.Tables
import UbtExex.Lib.Transaction

/-!
# The wrapper around libmdbx

An environment has named tables of byte rows, which MDBX keeps in the order of
their keys: byte by byte, a proper prefix first.  Each function of the wrapper makes
one call into the library and makes a `Result` of its return code: "not found" is no
error where a row is looked up, deleted or stepped to, every other code but success
is one.

The library is a parameter: it may fail any of its calls with any other code, and
then the call has no effect.  A transaction reads its own snapshot and is over when
its value goes out of scope.

## Main definitions

* `Libmdbx` — which calls fail, and the texts of the codes.
* `Error.fromCode`, `check`, `found` — from return codes to results.
* `beginRoTxn`, `beginRwTxn`, `openTable`, `lookup`, `openCursor`, `Cursor.next`,
  `RwTransaction.put`, `RwTransaction.del`, `RwTransaction.commit` — the wrapper.

## Main results

* `Does.check`, `Does.found` — what is to be shown of a call of the wrapper.
-/

open Std Transaction

namespace UbtExex.Mdbx

/-- `Vec<u8>`. -/
abbrev Bytes := List UInt8

/-- A named table: its rows in the order of their keys. -/
abbrev Table := ExtTreeMap Bytes Bytes

/-- The named tables of an environment. -/
abbrev Tables := ExtTreeMap String Table

/-! ### Return codes -/

/-- `MDBX_SUCCESS`. -/
def mdbxSuccess : ℤ := 0

/-- `MDBX_NOTFOUND`. -/
def mdbxNotfound : ℤ := -30798

/-- `MDBX_BUSY`: there is a write transaction already. -/
def mdbxBusy : ℤ := -30778

/-- `MDBX_BAD_TXN`: there is no write transaction. -/
def mdbxBadTxn : ℤ := -30782

/-- `MDBX_BAD_DBI`: the handle is not one of the environment. -/
def mdbxBadDbi : ℤ := -30780

/-- libmdbx, as far as the wrapper sees it fail. -/
structure Libmdbx where
  /-- The code that the call with this number fails with. -/
  fault : ℕ → Option ℤ
  /-- Success and "not found" are no failures. -/
  fault_ne : ∀ {n rc}, fault n = some rc → rc ≠ mdbxSuccess ∧ rc ≠ mdbxNotfound
  /-- `mdbx_strerror`, a null pointer being no text. -/
  strerror : ℤ → Option String

/-- `Error`. -/
structure Error where
  code : ℤ
  message : String
  deriving DecidableEq, Repr

/-- `e.to_string()`. -/
def Error.toString (e : Error) : String := s!"MDBX error {e.code}: {e.message}"

variable (lib : Libmdbx)

/-- `Error::from_code`. -/
def Error.fromCode (code : ℤ) : Error where
  code := code
  message := (lib.strerror code).getD s!"Unknown error (code {code})"

/-- A function of the wrapper. -/
abbrev M := EStateM Error (Session Tables)

/-- `check_rc`, of a call with a result. -/
def checkRc {α : Type} : Except ℤ α → M α
  | .ok a => pure a
  | .error rc => throw (Error.fromCode lib rc)

/-- A call that must succeed. -/
def check {α : Type} (f : Store Tables → Except ℤ (α × Store Tables)) : M α :=
  call lib.fault f >>= checkRc lib

/-- A call that may find nothing. -/
def found {α : Type} (f : Store Tables → Except ℤ (α × Store Tables)) : M (Option α) :=
  call lib.fault f >>= fun
    | .ok a => pure (some a)
    | .error rc => if rc = mdbxNotfound then pure none else throw (Error.fromCode lib rc)

/-! ### Transactions -/

/-- A read-only transaction: a snapshot of the tables. -/
structure RoTransaction where
  tables : Tables

/-- The write transaction, which the store has the copy of. -/
structure RwTransaction where

/-- A table handle. -/
structure Database where
  dbi : String

/-- A cursor: the rows that it has not passed. -/
structure Cursor where
  rows : List (Bytes × Bytes)

/-- What a transaction sees of a store. -/
abbrev View := Store Tables → Except ℤ Tables

/-- A read-only transaction sees its snapshot. -/
def RoTransaction.view (txn : RoTransaction) : View := fun _ => .ok txn.tables

/-- The write transaction sees its own copy. -/
def RwTransaction.view (_ : RwTransaction) : View := fun st =>
  match st.working with
  | some tables => .ok tables
  | none => .error mdbxBadTxn

/-- `begin_ro_txn`. -/
def beginRoTxn : M RoTransaction := check lib fun st => .ok (⟨st.committed⟩, st)

/-- `begin_rw_txn`. -/
def beginRwTxn : M RwTransaction := check lib fun st =>
  match st.working with
  | none => .ok (⟨⟩, .opened st.committed st.committed)
  | some _ => .error mdbxBusy

/-- The rows behind a handle. -/
def tableOf (tables : Tables) (db : Database) : Except ℤ Table :=
  match tables[db.dbi]? with
  | some table => .ok table
  | none => .error mdbxBadDbi

/-- Open a table, which must exist. -/
def openTable (view : View) (name : String) : M Database := check lib fun st => do
  let tables ← view st
  match tables[name]? with
  | some _ => return (⟨name⟩, st)
  | none => throw mdbxNotfound

/-- Look a row up. -/
def lookup (view : View) (db : Database) (key : Bytes) : M (Option Bytes) :=
  found lib fun st => do
    let table ← tableOf (← view st) db
    match table[key]? with
    | some value => return (value, st)
    | none => throw mdbxNotfound

/-- A cursor that stands before the first row. -/
def openCursor (view : View) (db : Database) : M Cursor := check lib fun st => do
  let table ← tableOf (← view st) db
  return (⟨table.toList⟩, st)

/-- `RoTransaction::open_db`. -/
def RoTransaction.openDb (txn : RoTransaction) (name : String) : M Database :=
  openTable lib txn.view name

/-- `RoTransaction::get`. -/
def RoTransaction.get (txn : RoTransaction) (db : Database) (key : Bytes) : M (Option Bytes) :=
  lookup lib txn.view db key

/-- `RoTransaction::cursor`. -/
def RoTransaction.cursor (txn : RoTransaction) (db : Database) : M Cursor :=
  openCursor lib txn.view db

/-- `RwTransaction::open_db`. -/
def RwTransaction.openDb (txn : RwTransaction) (name : String) : M Database :=
  openTable lib txn.view name

/-- `RwTransaction::get`. -/
def RwTransaction.get (txn : RwTransaction) (db : Database) (key : Bytes) : M (Option Bytes) :=
  lookup lib txn.view db key

/-- `RwTransaction::cursor`. -/
def RwTransaction.cursor (txn : RwTransaction) (db : Database) : M Cursor :=
  openCursor lib txn.view db

/-- `Cursor::next`: the row that the cursor moves to, and the cursor after that. -/
def Cursor.next (c : Cursor) : M (Option ((Bytes × Bytes) × Cursor)) := found lib fun st =>
  match c.rows with
  | row :: rows => .ok ((row, ⟨rows⟩), st)
  | [] => .error mdbxNotfound

/-- `create_db`: an existing table is opened as it is. -/
def RwTransaction.createDb (txn : RwTransaction) (name : String) : M Database :=
  check lib fun st => do
    let tables ← txn.view st
    return (⟨name⟩, .opened st.committed (tables.insert name (tables[name]?.getD ∅)))

/-- `put`: an existing row is overwritten. -/
def RwTransaction.put (txn : RwTransaction) (db : Database) (key value : Bytes) : M PUnit :=
  check lib fun st => do
    let tables ← txn.view st
    let table ← tableOf tables db
    return (⟨⟩, .opened st.committed (tables.insert db.dbi (table.insert key value)))

/-- `del`: a missing row is no error. -/
def RwTransaction.del (txn : RwTransaction) (db : Database) (key : Bytes) : M PUnit := do
  let _ ← found lib fun st => do
    let tables ← txn.view st
    let table ← tableOf tables db
    match table[key]? with
    | some _ => return ((), .opened st.committed (tables.insert db.dbi (table.erase key)))
    | none => throw mdbxNotfound
  return ⟨⟩

/-- `commit`: the transaction is over whatever the call returns. -/
def RwTransaction.commit (txn : RwTransaction) : M PUnit := do
  let rc ← call lib.fault fun st => do
    let tables ← txn.view st
    return (PUnit.unit, .closed tables)
  drop
  checkRc lib rc

/-! ### The environment -/

/-- `EnvironmentBuilder::open`: create the handle, set the number of tables and the
geometry, open the files.  An error closes the handle. -/
def openEnvironment : M PUnit := do
  check lib fun st => .ok (PUnit.unit, st)
  check lib fun st => .ok (PUnit.unit, st)
  check lib fun st => .ok (PUnit.unit, st)
  check lib fun st => .ok (PUnit.unit, st)

/-- `Environment::sync`. -/
def sync : M PUnit := check lib fun st => .ok (⟨⟩, st)

/-! ### What the calls do -/

/-- The error that a code is reported as. -/
def Reports (rc : ℤ) (e : Error) : Prop := e = Error.fromCode lib rc

variable {lib} {own : Error → Prop} {α : Type} {f : Store Tables → Except ℤ (α × Store Tables)}
  {st : Store Tables} {fail : Store Tables → Prop}

/-- A call that must succeed, and that only a fault keeps from it. -/
theorem Does.check {post : α → Store Tables → Prop} {a : α} {s : Store Tables}
    (hf : f st = .ok (a, s)) (hpost : post a s) (hfail : fail st) :
    Does lib.fault (Reports lib) own (check lib f) st post fail := by
  refine Does.call_bind (fun a' st'' h => ?_) (fun c h => ?_) (fun k c hc n => ?_)
  · rw [hf] at h
    cases h
    exact Does.pure hpost
  · rw [hf] at h
    cases h
  · exact ⟨_, st, rfl, rfl, hfail⟩

/-- A call that may find nothing. -/
theorem Does.found {post : Option α → Store Tables → Prop}
    (hf : match f st with
      | .ok (a, st') => post (some a) st'
      | .error rc => rc = mdbxNotfound ∧ post none st) (hfail : fail st) :
    Does lib.fault (Reports lib) own (found lib f) st post fail := by
  refine Does.call_bind (fun a st' h => ?_) (fun c h => ?_) (fun k c hc n => ?_)
  · rw [h] at hf
    exact Does.pure hf
  · rw [h] at hf
    obtain ⟨rfl, hpost⟩ := hf
    simpa using Does.pure hpost
  · refine ⟨Error.fromCode lib c, st, ?_, rfl, hfail⟩
    simp only [(lib.fault_ne hc).2, ↓reduceIte]
    rfl

theorem Does.drop : Does lib.fault (Reports lib) own (drop : M PUnit) st
    (fun _ st' => st' = st.abort) fail where
  ok hrun := by cases hrun; exact ⟨Clean.refl _, rfl⟩
  error hrun := by cases hrun

section Calls

variable {c t tables : Tables} {table : Table} {view : View} {name : String} {key value : Bytes}

theorem beginRoTxn_does : Does lib.fault (Reports lib) own (beginRoTxn lib) (.closed c)
    (fun txn st => txn = ⟨c⟩ ∧ st = .closed c) (· = .closed c) :=
  Does.check rfl ⟨rfl, rfl⟩ rfl

theorem beginRwTxn_does : Does lib.fault (Reports lib) own (beginRwTxn lib) (.closed c)
    (fun _ st => st = .opened c c) (· = .closed c) :=
  Does.check rfl rfl rfl

theorem openTable_does (hview : view st = .ok tables) (hname : tables[name]? = some table)
    (hfail : fail st) : Does lib.fault (Reports lib) own (openTable lib view name) st
      (fun db st' => db = ⟨name⟩ ∧ st' = st) fail :=
  Does.check (a := ⟨name⟩) (s := st) (by simp [hview, hname, bind, Except.bind, pure, Except.pure])
    ⟨rfl, rfl⟩ hfail

theorem lookup_does (hview : view st = .ok tables) (hname : tables[name]? = some table)
    (hfail : fail st) : Does lib.fault (Reports lib) own (lookup lib view ⟨name⟩ key) st
      (fun r st' => r = table[key]? ∧ st' = st) fail := by
  refine Does.found ?_ hfail
  simp only [hview, tableOf, hname, bind, Except.bind, pure, Except.pure]
  cases table[key]? <;> simp [throw, throwThe, MonadExceptOf.throw]

theorem openCursor_does (hview : view st = .ok tables) (hname : tables[name]? = some table)
    (hfail : fail st) : Does lib.fault (Reports lib) own (openCursor lib view ⟨name⟩) st
      (fun cursor st' => cursor = ⟨table.toList⟩ ∧ st' = st) fail :=
  Does.check (a := ⟨table.toList⟩) (s := st)
    (by simp [hview, tableOf, hname, bind, Except.bind, pure, Except.pure]) ⟨rfl, rfl⟩ hfail

theorem next_does (cursor : Cursor) (hfail : fail st) :
    Does lib.fault (Reports lib) own (cursor.next lib) st
      (fun r st' => r = (cursor.rows.head?.map fun row => (row, ⟨cursor.rows.tail⟩)) ∧ st' = st)
      fail := by
  refine Does.found ?_ hfail
  cases cursor.rows <;> simp

theorem createDb_does (txn : RwTransaction) : Does lib.fault (Reports lib) own
    (txn.createDb lib name) (.opened c t)
      (fun _ st => st = .opened c (t.insert name (t[name]?.getD ∅))) (·.committed = c) :=
  Does.check rfl rfl rfl

theorem put_does (txn : RwTransaction) (hname : t[name]? = some table) :
    Does lib.fault (Reports lib) own (txn.put lib ⟨name⟩ key value) (.opened c t)
      (fun _ st => st = .opened c (t.insert name (table.insert key value))) (·.committed = c) :=
  Does.check (a := ⟨⟩) (s := .opened c (t.insert name (table.insert key value)))
    (by simp [RwTransaction.view, tableOf, hname, bind, Except.bind, pure, Except.pure]) rfl rfl

/-- Deleting a row that is not there changes nothing. -/
theorem insert_erase_of_none (hname : t[name]? = some table) (hkey : table[key]? = none) :
    t.insert name (table.erase key) = t := by
  have herase : table.erase key = table := by
    refine ExtTreeMap.ext_getElem? fun k => ?_
    rw [Tables.getElem?_erase]
    split
    · next h => rw [← h, hkey]
    · rfl
  refine ExtTreeMap.ext_getElem? fun n => ?_
  rw [herase, Tables.getElem?_insert]
  split
  · next h => rw [← h, hname]
  · rfl

theorem del_does (txn : RwTransaction) (hname : t[name]? = some table) :
    Does lib.fault (Reports lib) own (txn.del lib ⟨name⟩ key) (.opened c t)
      (fun _ st => st = .opened c (t.insert name (table.erase key))) (·.committed = c) := by
  have hpost : ∀ r : Option Unit, ∀ st, st = .opened c (t.insert name (table.erase key)) →
      Does lib.fault (Reports lib) own (pure ⟨⟩ : M PUnit) st
        (fun _ st => st = .opened c (t.insert name (table.erase key))) (·.committed = c) :=
    fun _ st hst => Does.pure hst
  refine Does.bind (Does.found ?_ rfl) hpost
  simp only [RwTransaction.view, tableOf, hname, bind, Except.bind, pure, Except.pure]
  cases hkey : table[key]? with
  | some value => simp
  | none => simp [throw, throwThe, MonadExceptOf.throw, insert_erase_of_none hname hkey]

theorem commit_does (txn : RwTransaction) : Does lib.fault (Reports lib) own (txn.commit lib)
    (.opened c t) (fun _ st => st = .closed t) (·.committed = c) := by
  refine Does.call_bind (fun a st h => ?_) (fun rc h => by cases h) (fun k rc hc n => ?_)
  · cases h
    exact Does.drop.bind fun _ st hst => Does.pure hst
  · exact ⟨_, .closed c, rfl, rfl, rfl⟩

theorem openEnvironment_does : Does lib.fault (Reports lib) own (openEnvironment lib) (.closed c)
    (fun _ st => st = .closed c) (· = .closed c) := by
  have hone : Does lib.fault (Reports lib) own (check lib fun st => .ok (PUnit.unit, st))
      (.closed c) (fun _ st => st = .closed c) (· = .closed c) := Does.check rfl rfl rfl
  have hthen : ∀ {x : M PUnit}, Does lib.fault (Reports lib) own x (.closed c)
      (fun _ st => st = .closed c) (· = .closed c) →
      Does lib.fault (Reports lib) own ((check lib fun st => .ok (PUnit.unit, st)) >>= fun _ => x)
        (.closed c) (fun _ st => st = .closed c) (· = .closed c) := fun hx =>
    hone.bind fun _ st hst => by subst hst; exact hx
  exact hthen (hthen (hthen hone))

theorem sync_does : Does lib.fault (Reports lib) own (sync lib) (.closed c)
    (fun _ st => st = .closed c) (· = .closed c) :=
  Does.check rfl rfl rfl

end Calls

end UbtExex.Mdbx
