import UbtExex.Represents

/-!
# The operations of the store follow the typed ones

One specification for each operation: from tables of bytes that represent the typed
tables it leads to tables that represent the typed result, or fails and leaves the
tables as they were.

## Main results

* `inRo_does`, `inRw_does` — reading from and writing to one of the four tables.
* `saveHead_does`, `batchUpdateStems_does`, `batchSaveStemAddresses_does`,
  `pruneDeltasBefore_does`, … — **every operation follows its typed counterpart.**
-/

open Std Transaction Encoded

namespace UbtExex

/-! ### Typed operations that only the store itself has -/

namespace UbtDatabase

/-- `save_stem_address`: the stem must be new. -/
def saveStemAddress (db : UbtDatabase) (debugStem : Stem → String) (stem : Stem)
    (address : Address) : Except UbtError UbtDatabase :=
  match db.stemAddresses[stem]? with
  | some _ => .error (.database (.mdbx s!"Stem address already exists for {debugStem stem}"))
  | none => .ok { db with stemAddresses := db.stemAddresses.insert stem address }

/-- The blocks with a delta row that a test chooses, in increasing order. -/
def deltaBlocks (db : UbtDatabase) (chosen : ℕ → Bool) : List ℕ :=
  (db.blockDeltas.toList.map Prod.fst).filter chosen

/-- `delete_deltas_after`. -/
def deleteDeltasAfter (db : UbtDatabase) (blockNumber : ℕ) : UbtDatabase :=
  { db with
    blockDeltas := Tables.eraseAll db.blockDeltas (db.deltaBlocks fun bn => blockNumber < bn) }

end UbtDatabase

namespace ByteStore

open Mdbx

/-- The store reports an error of the typed tables. -/
def SameError (e' : UbtExex.UbtError) (e : UbtError) : Prop := e = ofUbtError e'

variable {lib : Libmdbx} {bin : Bincode} {own : UbtError → Prop} {ts : Tables} {db : UbtDatabase}

/-! ### Opening -/

/-- A store that was not created has no tables yet. -/
def Created (bin : Bincode) (ts : Tables) (db : UbtDatabase) : Prop :=
  ts = ∅ ∧ db = .empty ∨ Represents bin ts db

/-- The tables after the creations. -/
def createAll (names : List String) (ts : Tables) : Tables :=
  names.foldl (fun t name => t.insert name (t[name]?.getD ∅)) ts

/-- A table that is created is there: with its rows, if it was there before. -/
theorem getElem?_createAll (names : List String) (ts : Tables) (name : String) :
    (createAll names ts)[name]? = if name ∈ names then some (ts[name]?.getD ∅) else ts[name]? := by
  induction names generalizing ts with
  | nil => rfl
  | cons n names ih =>
    change (createAll names (ts.insert n (ts[n]?.getD ∅)))[name]? = _
    rw [ih, Tables.getElem?_insert]
    by_cases hn : n = name
    · subst hn
      simp
    · simp [hn, Ne.symm hn]

theorem Created.represents (h : Created bin ts db) :
    Represents bin (createAll tableNames ts) db := by
  have hall : stemsDb ∈ tableNames ∧ stemAddrDb ∈ tableNames ∧ metaDb ∈ tableNames ∧
      deltasDb ∈ tableNames := by decide
  obtain ⟨hs, ha, hm, hd⟩ := hall
  rcases h with ⟨rfl, rfl⟩ | h
  · refine ⟨⟨∅, ?_, .empty⟩, ⟨∅, ?_, .empty⟩, ⟨∅, ?_, ?_⟩, ⟨∅, ?_, .empty⟩⟩
    · rw [getElem?_createAll, if_pos hs, ExtTreeMap.getElem?_empty, Option.getD_none]
    · rw [getElem?_createAll, if_pos ha, ExtTreeMap.getElem?_empty, Option.getD_none]
    · rw [getElem?_createAll, if_pos hm, ExtTreeMap.getElem?_empty, Option.getD_none]
    · rw [ExtTreeMap.getElem?_empty]; rfl
    · rw [getElem?_createAll, if_pos hd, ExtTreeMap.getElem?_empty, Option.getD_none]
  · have hkeep : ∀ {name : String} {P : Table → Prop}, name ∈ tableNames →
        (∃ t, ts[name]? = some t ∧ P t) → ∃ t, (createAll tableNames ts)[name]? = some t ∧ P t := by
      rintro name P hname ⟨t, ht, hP⟩
      exact ⟨t, by rw [getElem?_createAll, if_pos hname, ht, Option.getD_some], hP⟩
    exact ⟨hkeep hs h.stems, hkeep ha h.addresses, hkeep hm h.head, hkeep hd h.deltas⟩

theorem createTables_does (txn : RwTransaction) {names : List String} {t : Tables} :
    Does lib.fault (Reports lib) own
      (names.forM fun name => do
        let _ ← (txn.createDb lib name).adaptExcept (mdbxErr ""))
      (.opened ts t) (fun _ st => ∃ t', st = .opened ts t' ∧ t' = createAll names t)
      (·.committed = ts) := by
  have hround : ∀ name ∈ names, ∀ t st, st = .opened ts t → Does lib.fault (Reports lib) own
      (do let _ ← (txn.createDb lib name).adaptExcept (mdbxErr "")) st
      (fun _ st => st = .opened ts (t.insert name (t[name]?.getD ∅))) (·.committed = ts) := by
    rintro name - t st rfl
    exact (mdbxErr_does (createDb_does txn)).bind fun _ st hst => Does.pure hst
  exact (Does.forM_pure hround rfl).mono (fun _ st hst => ⟨_, hst, rfl⟩) (fun _ h => h)
    (fun _ h => h)

/-- **Opening creates what is missing and keeps what is there.** -/
theorem openDatabase_does {path : String} {createDirAll : Except String Unit}
    (h : Created bin ts db) (hown : ∀ reason, createDirAll = .error reason → own (.io reason)) :
    Does lib.fault (Reports lib) own (openDatabase lib path createDirAll) (.closed ts)
      (fun _ st => ∃ c', st = .closed c' ∧ Represents bin c' db) (· = .closed ts) := by
  have hdir : Does lib.fault (Reports lib) own (io createDirAll) (.closed ts)
      (fun _ st => st = .closed ts) (· = .closed ts) := by
    cases createDirAll with
    | ok u => exact Does.pure rfl
    | error reason => exact Does.throw (hown reason rfl) rfl
  have hopen : Does lib.fault (Mdbx.Reports lib) (fun _ => False) (openEnvironment lib) (.closed ts)
      (fun _ st => st = .closed ts) (· = .closed ts) := openEnvironment_does
  have henv : Does lib.fault (Reports lib) own
      ((openEnvironment lib).adaptExcept fun e => .database (.openFailed path e.toString))
      (.closed ts) (fun _ st => st = .closed ts) (· = .closed ts) :=
    hopen.adaptExcept (fun _ _ he => Or.inr (Or.inr ⟨path, by rw [he]⟩)) (fun _ h => h.elim)
  refine hdir.bind fun _ st hst => ?_
  subst hst
  refine henv.bind fun _ st hst => ?_
  subst hst
  refine (Does.transact (transactionErr_does beginRwTxn_does) (fun txn => createTables_does txn)
    (fun txn t => transactionErr_does (commit_does txn))).mono (fun _ st => ?_) (fun _ h => h)
    (fun _ h => h)
  rintro ⟨t, rfl, rfl⟩
  exact ⟨_, rfl, h.represents⟩

theorem sync_does : Does lib.fault (Reports lib) own (sync lib) (.closed ts)
    (fun _ st => st = .closed ts) (· = .closed ts) :=
  mdbxErr_does Mdbx.sync_does

/-! ### The head -/

/-- A row and the value it is read as. -/
theorem decode_of_map {α : Type} {codec : Codec α} {r : Option Bytes} {m : Option α}
    (h : r.map codec.deserialize = m.map .ok) :
    (r = none ∧ m = none) ∨ ∃ bytes a, r = some bytes ∧ m = some a ∧
      codec.deserialize bytes = .ok a := by
  cases r with
  | none => cases m with
    | none => exact Or.inl ⟨rfl, rfl⟩
    | some a => cases h
  | some bytes => cases m with
    | none => cases h
    | some a => exact Or.inr ⟨bytes, a, rfl, rfl, by simpa using h⟩

theorem loadHead_does (h : Represents bin ts db) :
    Does lib.fault (Reports lib) own (loadHead lib bin) (.closed ts)
      (fun a st => a = db.loadHead ∧ st = .closed ts) (· = .closed ts) := by
  obtain ⟨t, ht, hrow⟩ := h.head
  refine inRoTxn_does ht ((getRo_does ht).bind ?_)
  rintro r st ⟨rfl, rfl⟩
  rcases decode_of_map hrow with ⟨hr, hm⟩ | ⟨bytes, head, hr, hm, hd⟩
  · rw [hr]
    exact Does.pure ⟨hm.symm, rfl⟩
  · rw [hr]
    refine (deserialize_does hd).bind ?_
    rintro _ _ ⟨rfl, rfl⟩
    exact Does.pure ⟨hm.symm, rfl⟩

theorem saveHead_does {head : UbtHead} (h : Represents bin ts db)
    (hown : ∀ e, Refuses bin.head head e → own e) :
    Does lib.fault (Reports lib) own (saveHead lib bin head) (.closed ts)
      (fun _ st => ∃ c', st = .closed c' ∧ Represents bin c' (db.saveHead head))
      (· = .closed ts) := by
  obtain ⟨t, ht, -⟩ := h.head
  have hbody : ∀ txn : RwTransaction, Does lib.fault (Reports lib) own
      (do
        let bytes ← serialize bin.head head
        (txn.put lib ⟨metaDb⟩ metaKeyHead bytes).adaptExcept (mdbxErr ""))
      (inTable ts metaDb t) (fun _ st => ∃ t', st = inTable ts metaDb t' ∧
        (t'[metaKeyHead]?).map bin.head.deserialize = (some head).map .ok) (·.committed = ts) := by
    intro txn
    refine (serialize_does hown (by rfl)).bind ?_
    rintro bytes st ⟨hd, rfl⟩
    refine (putIn_does txn).mono (fun _ st hst => ?_) (fun _ h => h) (fun _ h => h)
    exact ⟨_, hst, by rw [Tables.getElem?_insert, if_pos rfl, Option.map_some, hd]; rfl⟩
  refine (inRwTxn_does ht hbody).mono (fun _ st => ?_) (fun _ h => h) (fun _ h => h)
  rintro ⟨t', rfl, hrow⟩
  exact ⟨_, rfl, h.setHead hrow⟩

/-! ### Stems -/

theorem loadStem_does {stem : Stem} (h : Represents bin ts db) :
    Does lib.fault (Reports lib) own (loadStem lib bin stem) (.closed ts)
      (fun a st => a = db.loadStem stem ∧ st = .closed ts) (· = .closed ts) := by
  obtain ⟨t, ht, hrows⟩ := h.stems
  refine inRoTxn_does ht ((getRo_does ht).bind ?_)
  rintro r st ⟨rfl, rfl⟩
  rcases decode_of_map (hrows.row stem trivial) with ⟨hr, hm⟩ | ⟨bytes, node, hr, hm, hd⟩
  · rw [show t[stemBytes stem]? = none from hr]
    exact Does.pure ⟨hm.symm, rfl⟩
  · rw [show t[stemBytes stem]? = some bytes from hr]
    refine (deserialize_does hd).bind ?_
    rintro _ _ ⟨rfl, rfl⟩
    exact Does.pure ⟨hm.symm, rfl⟩

theorem loadValue_does {key : TreeKey} (h : Represents bin ts db) :
    Does lib.fault (Reports lib) own (loadValue lib bin key) (.closed ts)
      (fun a st => a = db.loadValue key ∧ st = .closed ts) (· = .closed ts) := by
  refine (loadStem_does h).bind ?_
  rintro node st ⟨rfl, rfl⟩
  exact Does.pure ⟨rfl, rfl⟩

theorem batchUpdateStems_does {updates : List (Stem × StemNode)} (h : Represents bin ts db)
    (hown : ∀ u ∈ updates, ∀ e, Refuses bin.stemNode u.2 e → own e) :
    Does lib.fault (Reports lib) own (batchUpdateStems lib bin updates) (.closed ts)
      (fun _ st => ∃ c', st = .closed c' ∧ Represents bin c' (db.batchUpdateStems updates))
      (· = .closed ts) := by
  unfold batchUpdateStems
  split
  · next hempty =>
    obtain rfl := List.isEmpty_iff.mp hempty
    exact Does.pure ⟨ts, rfl, h⟩
  · obtain ⟨t, ht, hrows⟩ := h.stems
    -- every round writes a row, of the bytes and of the typed table
    have hround : ∀ txn : RwTransaction, ∀ u ∈ updates, ∀ m st,
        (∃ t, st = inTable ts stemsDb t ∧ Holds stemCode bin.stemNode.deserialize t m) →
        Does lib.fault (Reports lib) own
          (do
            let value ← serialize bin.stemNode u.2
            (txn.put lib ⟨stemsDb⟩ (stemBytes u.1) value).adaptExcept (mdbxErr "")) st
          (fun _ st => ∃ t, st = inTable ts stemsDb t ∧
            Holds stemCode bin.stemNode.deserialize t (m.insert u.1 u.2)) (·.committed = ts) := by
      rintro txn u hu m st ⟨t, rfl, hm⟩
      refine (serialize_does (hown u hu) (by rfl)).bind ?_
      rintro bytes st ⟨hd, rfl⟩
      refine (putIn_does txn).mono (fun _ st hst => ?_) (fun _ h => h) (fun _ h => h)
      exact ⟨_, hst, hm.insert (k := u.1) trivial hd⟩
    refine (inRwTxn_does ht fun txn => Does.forM_pure (hround txn) ⟨t, rfl, hrows⟩).mono
      (fun _ st => ?_) (fun _ h => h) (fun _ h => h)
    rintro ⟨t', rfl, hm⟩
    exact ⟨_, rfl, h.setStems hm⟩

/-- **A scan of the stems**: what a loop collects from the rows of the table is what
it would collect from the typed rows. -/
theorem scanStems_does {β : Type} {g : Stem → StemNode → List β} (h : Represents bin ts db) :
    Does lib.fault (Reports lib) own (scanStems lib bin g) (.closed ts)
      (fun a st => a = db.stems.toList.flatMap (fun row => g row.1 row.2) ∧ st = .closed ts)
      (· = .closed ts) := by
  obtain ⟨t, ht, hrows⟩ := h.stems
  refine inRoTxn_does ht ?_
  have hcursor : Does lib.fault (Reports lib) own
      ((RoTransaction.cursor lib ⟨ts⟩ ⟨stemsDb⟩).adaptExcept (mdbxErr "")) (.closed ts)
      (fun cursor st => cursor = ⟨t.toList⟩ ∧ st = .closed ts) (· = .closed ts) :=
    mdbxErr_does (openCursor_does rfl ht rfl)
  refine hcursor.bind ?_
  rintro cursor st ⟨rfl, rfl⟩
  -- what a row adds, whether it stands for a stem or not
  let add : Stem → Except String StemNode → List β := fun stem r =>
    match r with
    | .ok node => g stem node
    | .error _ => []
  have hadd : ∀ row ∈ t.toList, ∀ acc, Does lib.fault (Reports lib) own
      (if row.1.length = stemLen then do
        let stemNode ← deserialize bin.stemNode row.2
        return acc ++ g (stemOfBytes row.1) stemNode
      else pure acc) (.closed ts)
      (fun acc' st' => acc' = acc ++ (if row.1.length = stemCode.width then
        add (stemCode.ofBytes row.1) (bin.stemNode.deserialize row.2) else []) ∧ st' = .closed ts)
      (· = .closed ts) := by
    rintro ⟨key, value⟩ hmem acc
    by_cases hlen : key.length = stemLen
    · have hkey : t[stemCode.bytes (stemCode.ofBytes key)]? = some value := by
        rw [stemCode.bytes_ofBytes hlen]
        exact ExtTreeMap.mem_toList_iff_getElem?_eq_some.mp hmem
      obtain ⟨node, -, hd⟩ := hrows.decode_of_row (k := stemCode.ofBytes key) trivial hkey
      rw [if_pos hlen]
      refine (deserialize_does hd).bind ?_
      rintro _ _ ⟨rfl, rfl⟩
      have hwidth : key.length = stemCode.width := hlen
      exact Does.pure ⟨by rw [if_pos hwidth, hd]; rfl, rfl⟩
    · have hwidth : ¬ key.length = stemCode.width := hlen
      rw [if_neg hlen]
      exact Does.pure ⟨by rw [if_neg hwidth, List.append_nil], rfl⟩
  refine (whileNext_does hadd rfl []).mono ?_ (fun _ h => h) (fun _ h => h)
  rintro a st ⟨rfl, rfl⟩
  exact ⟨by rw [List.nil_append, hrows.flatMap_scan add], rfl⟩

theorem iterStems_does (h : Represents bin ts db) :
    Does lib.fault (Reports lib) own (iterStems lib bin) (.closed ts)
      (fun a st => a = db.iterStems ∧ st = .closed ts) (· = .closed ts) := by
  have hsingle : ∀ l : List (Stem × StemNode), (l.flatMap fun row => [(row.1, row.2)]) = l :=
    List.flatMap_singleton'
  refine (scanStems_does h).mono (fun a st => ?_) (fun _ h => h) (fun _ h => h)
  rintro ⟨rfl, rfl⟩
  exact ⟨hsingle _, rfl⟩

theorem iterEntriesSorted_does (h : Represents bin ts db) :
    Does lib.fault (Reports lib) own (iterEntriesSorted lib bin) (.closed ts)
      (fun a st => a = db.iterEntriesSorted ∧ st = .closed ts) (· = .closed ts) :=
  scanStems_does h

/-! ### Stem addresses -/

theorem loadStemAddress_does {stem : Stem} (h : Represents bin ts db) :
    Does lib.fault (Reports lib) own (loadStemAddress lib stem) (.closed ts)
      (fun a st => a = db.loadStemAddress stem ∧ st = .closed ts) (· = .closed ts) := by
  obtain ⟨t, ht, hrows⟩ := h.addresses
  refine inRoTxn_does ht ((getRo_does ht).bind ?_)
  rintro r st ⟨rfl, rfl⟩
  cases hr : t[stemBytes stem]? with
  | none => exact Does.pure ⟨(hrows.none_of_row (k := stem) trivial hr).symm, rfl⟩
  | some bytes =>
    obtain ⟨address, hm, hd⟩ := hrows.decode_of_row (k := stem) trivial hr
    obtain rfl := eq_addressBytes hd
    have hlen : (addressBytes address).length = 20 := Bytes.length_beBytes _ _
    have hread : addressOfBytes (addressBytes address) = address := by
      have hdec := decodeAddress_addressBytes address
      rw [decodeAddress, if_pos hlen] at hdec
      exact Except.ok.inj hdec
    simp only [hlen, ne_eq, not_true_eq_false, ↓reduceIte, hread]
    exact Does.pure ⟨hm.symm, rfl⟩

theorem saveStemAddress_does {stem : Stem} {address : Address} (h : Represents bin ts db)
    (hown : ∀ e' e, db.saveStemAddress bin.debugStem stem address = .error e' → SameError e' e →
      own e) :
    Does lib.fault (Reports lib) own (saveStemAddress lib bin stem address) (.closed ts)
      (fun _ st => ∃ c' db', st = .closed c' ∧
        db.saveStemAddress bin.debugStem stem address = .ok db' ∧ Represents bin c' db')
      (· = .closed ts) := by
  obtain ⟨t, ht, hrows⟩ := h.addresses
  have hbody : ∀ txn : RwTransaction, Does lib.fault (Reports lib) own
      (saveNewMapping lib bin stem address txn ⟨stemAddrDb⟩) (inTable ts stemAddrDb t)
      (fun _ st => ∃ t', st = inTable ts stemAddrDb t' ∧
        db.stemAddresses[stem]? = none ∧
        Holds stemCode decodeAddress t' (db.stemAddresses.insert stem address))
      (·.committed = ts) := by
    intro txn
    refine (getIn_does txn).bind ?_
    rintro r st ⟨rfl, rfl⟩
    cases hr : t[stemBytes stem]? with
    | some bytes =>
      obtain ⟨existing, hm, -⟩ := hrows.decode_of_row (k := stem) trivial hr
      refine Does.throw (hown (.database (.mdbx
        s!"Stem address already exists for {bin.debugStem stem}")) _ ?_ rfl) rfl
      rw [UbtDatabase.saveStemAddress, hm]
    | none =>
      have hm := hrows.none_of_row (k := stem) trivial hr
      refine (putIn_does txn).mono (fun _ st hst => ?_) (fun _ h => h) (fun _ h => h)
      exact ⟨_, hst, hm, hrows.insert (k := stem) trivial (decodeAddress_addressBytes address)⟩
  refine (inRwTxn_does ht hbody).mono (fun _ st => ?_) (fun _ h => h) (fun _ h => h)
  rintro ⟨t', rfl, hm, hrows'⟩
  exact ⟨_, _, rfl, by rw [UbtDatabase.saveStemAddress, hm], h.setAddresses hrows'⟩

/-- One mapping of a batch. -/
def keepFirst (m : ExtTreeMap Stem Address) (mapping : Stem × Address) :
    Except UbtExex.UbtError (ExtTreeMap Stem Address) :=
  match m[mapping.1]? with
  | some existing =>
      if existing ≠ mapping.2 then .error (.database (.mdbx "Stem address mismatch in MDBX"))
      else .ok m
  | none => .ok (m.insert mapping.1 mapping.2)

theorem batchSaveStemAddresses_eq (db : UbtDatabase) (mappings : List (Stem × Address)) :
    db.batchSaveStemAddresses mappings =
      (mappings.foldlM keepFirst db.stemAddresses).map
        fun addresses => { db with stemAddresses := addresses } := by
  change (mappings.foldlM keepFirst db.stemAddresses >>= fun addresses =>
    pure { db with stemAddresses := addresses }) = _
  cases mappings.foldlM keepFirst db.stemAddresses <;> rfl

/-- A round of the batch, of the bytes and of the typed table. -/
theorem saveMapping_does {t : Table} {m : ExtTreeMap Stem Address} (txn : RwTransaction)
    (mapping : Stem × Address) (hm : Holds stemCode decodeAddress t m) :
    Does lib.fault (Reports lib)
      (fun e => own e ∨ ∃ e', keepFirst m mapping = .error e' ∧ SameError e' e)
      (saveMapping lib txn ⟨stemAddrDb⟩ mapping) (inTable ts stemAddrDb t)
      (fun _ st => ∃ m', keepFirst m mapping = .ok m' ∧
        ∃ t', st = inTable ts stemAddrDb t' ∧ Holds stemCode decodeAddress t' m')
      (·.committed = ts) := by
  refine (getIn_does txn).bind ?_
  rintro r st ⟨rfl, rfl⟩
  unfold keepFirst
  cases hr : t[stemBytes mapping.1]? with
  | none =>
    rw [hm.none_of_row (k := mapping.1) trivial hr]
    refine (putIn_does txn).mono (fun _ st hst => ?_) (fun _ h => h) (fun _ h => h)
    exact ⟨_, rfl, _, hst,
      hm.insert (k := mapping.1) trivial (decodeAddress_addressBytes mapping.2)⟩
  | some bytes =>
    obtain ⟨existing, hsome, hd⟩ := hm.decode_of_row (k := mapping.1) trivial hr
    obtain rfl := eq_addressBytes hd
    rw [hsome]
    by_cases heq : existing = mapping.2
    · simp only [heq, ne_eq, not_true_eq_false, ↓reduceIte]
      exact Does.pure ⟨m, rfl, t, rfl, hm⟩
    · have hne : addressBytes existing ≠ addressBytes mapping.2 := by
        intro h
        have hread := decodeAddress_addressBytes mapping.2
        rw [← h, hd] at hread
        exact heq (Except.ok.inj hread)
      simp only [heq, hne, ne_eq, not_false_eq_true, ↓reduceIte]
      exact Does.throw (Or.inr ⟨_, rfl, rfl⟩) rfl

theorem batchSaveStemAddresses_does {mappings : List (Stem × Address)} (h : Represents bin ts db)
    (hown : ∀ e' e, db.batchSaveStemAddresses mappings = .error e' → SameError e' e → own e) :
    Does lib.fault (Reports lib) own (batchSaveStemAddresses lib mappings) (.closed ts)
      (fun _ st => ∃ c' db', st = .closed c' ∧ db.batchSaveStemAddresses mappings = .ok db' ∧
        Represents bin c' db') (· = .closed ts) := by
  rw [batchSaveStemAddresses_eq] at hown ⊢
  unfold batchSaveStemAddresses
  split
  · next hempty =>
    obtain rfl := List.isEmpty_iff.mp hempty
    exact Does.pure ⟨ts, db, rfl, rfl, h⟩
  · obtain ⟨t, ht, hrows⟩ := h.addresses
    have hloop : ∀ txn : RwTransaction, Does lib.fault (Reports lib) own
        (mappings.forM (saveMapping lib txn ⟨stemAddrDb⟩)) (inTable ts stemAddrDb t)
        (fun _ st => ∃ t', st = inTable ts stemAddrDb t' ∧
          ∃ m, mappings.foldlM keepFirst db.stemAddresses = .ok m ∧
            Holds stemCode decodeAddress t' m) (·.committed = ts) := by
      intro txn
      have hround : ∀ mapping ∈ mappings, ∀ m st,
          (∃ t', st = inTable ts stemAddrDb t' ∧ Holds stemCode decodeAddress t' m) →
          Does lib.fault (Reports lib)
            (fun e => own e ∨ ∃ e', keepFirst m mapping = .error e' ∧ SameError e' e)
            (saveMapping lib txn ⟨stemAddrDb⟩ mapping) st
            (fun _ st => ∃ m', keepFirst m mapping = .ok m' ∧
              ∃ t', st = inTable ts stemAddrDb t' ∧ Holds stemCode decodeAddress t' m')
            (·.committed = ts) := by
        rintro mapping - m st ⟨t', rfl, hm⟩
        exact saveMapping_does txn mapping hm
      refine (Does.forM hround ⟨t, rfl, hrows⟩).mono ?_ (fun _ h => h) ?_
      · rintro _ st ⟨m, hm, t', rfl, hrows'⟩
        exact ⟨t', rfl, m, hm, hrows'⟩
      · rintro e (he | ⟨e', he', hsame⟩)
        · exact he
        · exact hown e' e (by rw [he']; rfl) hsame
    refine (inRwTxn_does ht hloop).mono (fun _ st => ?_) (fun _ h => h) (fun _ h => h)
    rintro ⟨t', rfl, m, hm, hrows'⟩
    exact ⟨_, _, rfl, by rw [hm]; rfl, h.setAddresses hrows'⟩

/-! ### Block deltas -/

theorem saveBlockDeltas_does {n : ℕ} {deltas : List Delta} (h : Represents bin ts db)
    (hn : n < 2 ^ 64) (hown : ∀ e, Refuses bin.deltas deltas e → own e) :
    Does lib.fault (Reports lib) own (saveBlockDeltas lib bin n deltas) (.closed ts)
      (fun _ st => ∃ c', st = .closed c' ∧ Represents bin c' (db.saveBlockDeltas n deltas))
      (· = .closed ts) := by
  obtain ⟨t, ht, hrows⟩ := h.deltas
  have hbody : ∀ txn : RwTransaction, Does lib.fault (Reports lib) own
      (do
        let value ← serialize bin.deltas deltas
        (txn.put lib ⟨deltasDb⟩ (blockBytes n) value).adaptExcept (mdbxErr ""))
      (inTable ts deltasDb t) (fun _ st => ∃ t', st = inTable ts deltasDb t' ∧
        Holds blockCode bin.deltas.deserialize t' (db.blockDeltas.insert n deltas))
      (·.committed = ts) := by
    intro txn
    refine (serialize_does hown (by rfl)).bind ?_
    rintro bytes st ⟨hd, rfl⟩
    refine (putIn_does txn).mono (fun _ st hst => ?_) (fun _ h => h) (fun _ h => h)
    exact ⟨_, hst, hrows.insert (k := n) hn hd⟩
  refine (inRwTxn_does ht hbody).mono (fun _ st => ?_) (fun _ h => h) (fun _ h => h)
  rintro ⟨t', rfl, hrows'⟩
  exact ⟨_, rfl, h.setDeltas hrows'⟩

theorem loadBlockDeltas_does {n : ℕ} (h : Represents bin ts db) (hn : n < 2 ^ 64) :
    Does lib.fault (Reports lib) own (loadBlockDeltas lib bin n) (.closed ts)
      (fun a st => a = db.loadBlockDeltas n ∧ st = .closed ts) (· = .closed ts) := by
  obtain ⟨t, ht, hrows⟩ := h.deltas
  refine inRoTxn_does ht ((getRo_does ht).bind ?_)
  rintro r st ⟨rfl, rfl⟩
  unfold UbtDatabase.loadBlockDeltas
  cases hr : t[blockBytes n]? with
  | none =>
    rw [hrows.none_of_row (k := n) hn hr]
    exact Does.pure ⟨rfl, rfl⟩
  | some bytes =>
    obtain ⟨deltas, hm, hd⟩ := hrows.decode_of_row (k := n) hn hr
    rw [hm]
    exact deserialize_does hd

theorem deleteBlockDeltas_does {n : ℕ} (h : Represents bin ts db) (hn : n < 2 ^ 64) :
    Does lib.fault (Reports lib) own (deleteBlockDeltas lib n) (.closed ts)
      (fun _ st => ∃ c', st = .closed c' ∧ Represents bin c' (db.deleteBlockDeltas n))
      (· = .closed ts) := by
  obtain ⟨t, ht, hrows⟩ := h.deltas
  have hbody : ∀ txn : RwTransaction, Does lib.fault (Reports lib) own
      ((txn.del lib ⟨deltasDb⟩ (blockBytes n)).adaptExcept (mdbxErr "")) (inTable ts deltasDb t)
      (fun _ st => ∃ t', st = inTable ts deltasDb t' ∧
        Holds blockCode bin.deltas.deserialize t' (db.blockDeltas.erase n)) (·.committed = ts) :=
    fun txn => (delIn_does txn).mono (fun _ st hst => ⟨_, hst, hrows.erase (k := n) hn⟩)
      (fun _ h => h) (fun _ h => h)
  refine (inRwTxn_does ht hbody).mono (fun _ st => ?_) (fun _ h => h) (fun _ h => h)
  rintro ⟨t', rfl, hrows'⟩
  exact ⟨_, rfl, h.setDeltas hrows'⟩

theorem flatMap_chosen (chosen : ℕ → Bool) (l : List (ℕ × List Delta)) :
    (l.flatMap fun row => if chosen row.1 then [blockCode.bytes row.1] else []) =
      ((l.map Prod.fst).filter chosen).map blockCode.bytes := by
  induction l with
  | nil => rfl
  | cons row l ih =>
    rw [List.flatMap_cons, ih, List.map_cons, List.filter_cons]
    split <;> rfl

theorem eraseAll_bytes {ks : List ℕ} (hvalid : ∀ n ∈ ks, blockCode.valid n)
    (m : ExtTreeMap ℕ (List Delta)) :
    (ks.map blockCode.bytes).foldl (fun m key => m.erase (blockCode.ofBytes key)) m =
      Tables.eraseAll m ks := by
  induction ks generalizing m with
  | nil => rfl
  | cons n ks ih =>
    obtain ⟨hn, hks⟩ := List.forall_mem_cons.mp hvalid
    rw [List.map_cons, List.foldl_cons, blockCode.ofBytes_bytes hn, ih hks]
    rfl

/-- **Collecting keys with a cursor and deleting them** deletes the rows of the chosen
blocks, and counts them. -/
theorem deleteDeltasWhere_does {chosen : ℕ → Bool} {cursorText nextText delText : String}
    {t : Table} (txn : RwTransaction)
    (hrows : Holds blockCode bin.deltas.deserialize t db.blockDeltas) :
    Does lib.fault (Reports lib) own
      (deleteDeltasWhere lib chosen cursorText nextText delText txn ⟨deltasDb⟩)
      (inTable ts deltasDb t)
      (fun count st => ∃ t', st = inTable ts deltasDb t' ∧
        count = (db.deltaBlocks chosen).length ∧ Holds blockCode bin.deltas.deserialize t'
          (Tables.eraseAll db.blockDeltas (db.deltaBlocks chosen)))
      (·.committed = ts) := by
  have hcursor : Does lib.fault (Reports lib) own
      ((txn.cursor lib ⟨deltasDb⟩).adaptExcept (mdbxErr cursorText)) (inTable ts deltasDb t)
      (fun cursor st => cursor = ⟨t.toList⟩ ∧ st = inTable ts deltasDb t) (·.committed = ts) :=
    mdbxErr_does (openCursor_does rfl (getElem?_insert_self t) rfl)
  refine hcursor.bind ?_
  rintro cursor st ⟨rfl, rfl⟩
  -- the keys that the loop collects are those of the chosen blocks
  let add : ℕ → Except String (List Delta) → List Bytes := fun n _ =>
    if chosen n then [blockCode.bytes n] else []
  have hadd : ∀ row ∈ t.toList, ∀ acc : List Bytes, Does lib.fault (Reports lib) own
      (if row.1.length = 8 && chosen (Bytes.ofBeBytes row.1) then pure (acc ++ [row.1])
        else pure acc) (inTable ts deltasDb t)
      (fun acc' st' => acc' = acc ++ (if row.1.length = blockCode.width then
        add (blockCode.ofBytes row.1) (bin.deltas.deserialize row.2) else []) ∧
        st' = inTable ts deltasDb t) (·.committed = ts) := by
    rintro ⟨key, value⟩ - acc
    by_cases hlen : key.length = 8
    · have hwidth : key.length = blockCode.width := hlen
      have hkey : blockCode.bytes (blockCode.ofBytes key) = key := blockCode.bytes_ofBytes hwidth
      rw [if_pos hwidth]
      by_cases hchosen : chosen (Bytes.ofBeBytes key) = true
      · rw [if_pos (by simp [hlen, hchosen])]
        refine Does.pure ⟨?_, rfl⟩
        change acc ++ [key] = acc ++ if chosen (Bytes.ofBeBytes key) then _ else []
        rw [if_pos hchosen, hkey]
      · rw [if_neg (by simp [hchosen])]
        refine Does.pure ⟨?_, rfl⟩
        change acc = acc ++ if chosen (Bytes.ofBeBytes key) then _ else []
        rw [if_neg hchosen, List.append_nil]
    · have hwidth : ¬ key.length = blockCode.width := hlen
      rw [if_neg (by simp [hlen]), if_neg hwidth]
      exact Does.pure ⟨by rw [List.append_nil], rfl⟩
  refine (whileNext_does hadd rfl []).bind ?_
  rintro toDelete st ⟨rfl, rfl⟩
  rw [List.nil_append, hrows.flatMap_scan add, flatMap_chosen]
  have hvalid : ∀ n ∈ db.deltaBlocks chosen, blockCode.valid n := by
    intro n hn
    obtain ⟨row, hrow, rfl⟩ := List.mem_map.mp (List.mem_filter.mp hn).1
    exact hrows.valid row.1 row.2 (ExtTreeMap.mem_toList_iff_getElem?_eq_some.mp hrow)
  -- each deletion is one of a row of the typed table
  have hround : ∀ key ∈ (db.deltaBlocks chosen).map blockCode.bytes, ∀ m st,
      (∃ t', st = inTable ts deltasDb t' ∧ Holds blockCode bin.deltas.deserialize t' m) →
      Does lib.fault (Reports lib) own
        ((txn.del lib ⟨deltasDb⟩ key).adaptExcept (mdbxErr delText)) st
        (fun _ st' => ∃ t', st' = inTable ts deltasDb t' ∧
          Holds blockCode bin.deltas.deserialize t' (m.erase (blockCode.ofBytes key)))
        (·.committed = ts) := by
    rintro key hkey m st ⟨t', rfl, hm⟩
    obtain ⟨n, hn, rfl⟩ := List.mem_map.mp hkey
    rw [blockCode.ofBytes_bytes (hvalid n hn)]
    exact (delIn_does txn).mono (fun _ st hst => ⟨_, hst, hm.erase (hvalid n hn)⟩) (fun _ h => h)
      (fun _ h => h)
  refine (Does.forM_pure hround ⟨t, rfl, hrows⟩).bind ?_
  rintro _ st ⟨t', rfl, hm⟩
  rw [eraseAll_bytes hvalid] at hm
  exact Does.pure ⟨t', rfl, List.length_map _, hm⟩

/-- **Pruning** deletes the rows before the block, and returns how many there were. -/
theorem pruneDeltasBefore_does {n : ℕ} (h : Represents bin ts db) :
    Does lib.fault (Reports lib) own (pruneDeltasBefore lib n) (.closed ts)
      (fun count st => ∃ c', st = .closed c' ∧ count = (db.deltaBlocks fun bn => bn < n).length ∧
        Represents bin c' (db.pruneDeltasBefore n)) (· = .closed ts) := by
  obtain ⟨t, ht, hrows⟩ := h.deltas
  refine (inRwTxn_does ht fun txn => deleteDeltasWhere_does txn hrows).mono (fun count st => ?_)
    (fun _ h => h) (fun _ h => h)
  rintro ⟨t', rfl, hcount, hrows'⟩
  exact ⟨_, rfl, hcount, h.setDeltas hrows'⟩

theorem deleteDeltasAfter_does {n : ℕ} (h : Represents bin ts db) :
    Does lib.fault (Reports lib) own (deleteDeltasAfter lib n) (.closed ts)
      (fun _ st => ∃ c', st = .closed c' ∧ Represents bin c' (db.deleteDeltasAfter n))
      (· = .closed ts) := by
  obtain ⟨t, ht, hrows⟩ := h.deltas
  refine (inRwTxn_does ht fun txn => deleteDeltasWhere_does txn hrows).bind fun count st => ?_
  rintro ⟨t', rfl, -, hrows'⟩
  exact Does.pure ⟨_, rfl, h.setDeltas hrows'⟩

end ByteStore

end UbtExex
