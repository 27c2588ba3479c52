import UbtExex.IndexStore
import UbtExex.Operations

/-!
# The key index on redb follows the typed one

What each operation of the key index does to the file, whatever calls into redb fail:
it leaves the tables as they were, or they hold the typed index after the operation,
and the result is the typed one.

## Main definitions

* `Represents` — the tables hold an index.
* `Reports` — the error that reports the text of a failed call.

## Main results

* `applyUpdates_does`, `saveHead_does`, `loadHead_does`, `forEachStem_does` — **every
  operation follows its typed counterpart.**
-/

open Std Transaction

namespace UbtExex.IndexStore

open KeyIndex PackedIndex
open ByteStore (refuse ofUbtError SameError)

/-- The tables hold the index; a table that does not exist holds nothing. -/
structure Represents (ts : Tables) (ki : KeyIndex) : Prop where
  stems : ts.ubtStems.getD ∅ = packTable ki.stemTable
  head : ((ts.ubtMeta.getD ∅)[metaHeadKey]?).map unpackHead = ki.head.map .ok

/-- A new file holds the empty index. -/
theorem represents_empty : Represents .empty .empty where
  stems := by
    refine ExtTreeMap.ext_getElem? fun stem => ?_
    rw [getElem?_packTable]
    simp [Tables.empty, KeyIndex.empty]
  head := by simp [Tables.empty, KeyIndex.empty]

/-- The error with the text of a failed call. -/
def Reports (text : String) (e : Error) : Prop := e = refuse text

variable {lib : Redb} {own : Error → Prop} {α : Type} {ts t : Tables} {ki : KeyIndex}
  {st : Store Tables} {fail : Store Tables → Prop}

/-! ### Calls -/

/-- A call is made, or reports its failure. -/
theorem redbCall_does {f : Store Tables → α × Store Tables} {post : α → Store Tables → Prop}
    (hpost : post (f st).1 (f st).2) (hfail : fail st) :
    Does lib.fault Reports own (redbCall lib f) st post fail := by
  refine Does.call_bind (fun a st' h => ?_) (fun c h => ?_) (fun k c hc n => ?_)
  · have hf : f st = (a, st') := Except.ok.inj h
    rw [hf] at hpost
    exact Does.pure hpost
  · cases h
  · exact ⟨_, st, rfl, rfl, hfail⟩

theorem ofRows_does {x : Except UbtError α} {a : α} (h : x = .ok a) :
    Does lib.fault Reports own (ofRows x) st (fun a' st' => a' = a ∧ st' = st) fail := by
  subst h
  exact Does.pure ⟨rfl, rfl⟩

theorem stepIter_does : Does lib.fault Reports own (stepIter lib) (.closed ts)
    (fun _ st => st = .closed ts) (· = .closed ts) :=
  redbCall_does rfl rfl

section Tables

variable {K V : Type} [Ord K] {T : TableDefinition K V}

/-- **A write transaction on one table**: it takes effect as a whole, or not at all. -/
theorem inWriteTxn_does {body : IndexM α} {post : α → Tables → Prop}
    (hbody : Does lib.fault Reports own body (.opened ts (T.put ts ((T.rows ts).getD ∅)))
      (fun a st => ∃ t, st = .opened ts t ∧ post a t) (·.committed = ts)) :
    Does lib.fault Reports own (inWriteTxn lib T body) (.closed ts)
      (fun a st => ∃ t, st = .closed t ∧ post a t) (· = .closed ts) := by
  refine Does.transact (redbCall_does rfl rfl) (fun _ => ?_) fun _ t => redbCall_does rfl rfl
  have hopen : Does lib.fault Reports own (openTable lib T) (.opened ts ts)
      (fun _ st => st = .opened ts (T.put ts ((T.rows ts).getD ∅))) (·.committed = ts) :=
    redbCall_does rfl rfl
  refine hopen.bind fun _ st hst => ?_
  subst hst
  exact hbody

end Tables

/-! ### Batches -/

/-- The stems of a table, inside the transaction that writes it. -/
abbrev inStems (ts : Tables) (rows : PackedTable) : Store Tables :=
  .opened ts (stemTable.put ts rows)

/-- A round of the batch. -/
theorem mergeStored_does (rows : PackedTable) (n : ℕ) (row : Stem × StemRecord) :
    Does lib.fault Reports
      (fun e => own e ∨ ∃ e', mergePacked (rows, n) row = .error e' ∧ SameError e' e)
      (mergeStored lib n row) (inStems ts rows)
      (fun n' st => ∃ t', mergePacked (rows, n) row = .ok t' ∧ n' = t'.2 ∧ st = inStems ts t'.1)
      (·.committed = ts) := by
  have hget : Does lib.fault Reports
      (fun e => own e ∨ ∃ e', mergePacked (rows, n) row = .error e' ∧ SameError e' e)
      (tableGet lib stemTable row.1) (inStems ts rows)
      (fun r st => r = rows[row.1]? ∧ st = inStems ts rows) (·.committed = ts) :=
    redbCall_does ⟨rfl, rfl⟩ rfl
  have hinsert : ∀ {own : Error → Prop} (value : Vector UInt8 52),
      Does lib.fault Reports own (tableInsert lib stemTable row.1 value) (inStems ts rows)
        (fun _ st => st = inStems ts (rows.insert row.1 value)) (·.committed = ts) :=
    fun _ => redbCall_does rfl rfl
  refine hget.bind ?_
  rintro r st ⟨rfl, rfl⟩
  unfold mergePacked
  dsimp only
  cases rows[row.1]? with
  | none =>
    refine (hinsert _).bind fun _ st hst => ?_
    exact Does.pure ⟨_, rfl, rfl, hst⟩
  | some existing =>
    have hsplit : splitValue existing =
        .ok (addressFrom (existing.extract 0 20), existing.extract 20 52) := rfl
    refine (ofRows_does hsplit).bind ?_
    rintro p st ⟨rfl, rfl⟩
    by_cases hne : addressFrom (existing.extract 0 20) ≠ row.2.address
    · simp only [hsplit, hne, ne_eq, not_false_eq_true, ↓reduceIte]
      exact Does.throw (Or.inr ⟨_, if_pos hne, rfl⟩) rfl
    · simp only [hne, ↓reduceIte]
      refine (hinsert _).bind fun _ st hst => ?_
      exact Does.pure ⟨_, if_neg hne, rfl, hst⟩

/-- A packed table is that of one table of records only. -/
theorem represents_stems {t' : KeyIndex} (h : Represents ts ki) {rows : PackedTable}
    (hrows : rows = packTable t'.stemTable) (hhead : t'.head = ki.head) :
    Represents (stemTable.put ts rows) t' where
  stems := by rw [← hrows]; rfl
  head := by rw [hhead]; exact h.head

/-- **A batch** is merged as into the records, or refused as they refuse it. -/
theorem applyUpdates_does {b : Batch} (h : Represents ts ki)
    (hown : ∀ e' e, ki.applyUpdates b.updates = .error e' → SameError e' e → own e) :
    Does lib.fault Reports own (applyUpdates lib b) (.closed ts)
      (fun n st => ∃ ts' ki', st = .closed ts' ∧ ki.applyUpdates b.updates = .ok (ki', n) ∧
        Represents ts' ki') (· = .closed ts) := by
  -- the call on the packed table says how the typed call ends
  have hpacked := applyBatch_packTable ki b
  unfold applyBatch at hpacked
  unfold applyUpdates
  cases hgroup : b.updates.foldlM groupUpdate ∅ with
  | error e =>
    rw [hgroup] at hpacked
    have htyped : ki.applyUpdates b.updates = .error e := by
      cases hki : ki.applyUpdates b.updates with
      | error e' => rw [hki] at hpacked; exact congrArg _ (Except.error.inj hpacked).symm
      | ok p => rw [hki] at hpacked; cases hpacked
    have hthrow : Does lib.fault Reports own (ofRows (Except.error e : Except UbtError _))
        (.closed ts) (fun (_ : ExtTreeMap Stem StemRecord) _ => False) (· = .closed ts) :=
      Does.throw (hown e _ htyped rfl) rfl
    exact hthrow.bind fun _ _ hfalse => hfalse.elim
  | ok perStem =>
    rw [hgroup] at hpacked
    have hpacked : (if perStem.isEmpty = true then pure (packTable ki.stemTable, 0)
        else (b.order perStem.toList).foldlM mergePacked (packTable ki.stemTable, 0)) =
        (ki.applyUpdates b.updates).map fun p => (packTable p.1.stemTable, p.2) := hpacked
    refine (ofRows_does rfl).bind ?_
    rintro perStem st ⟨rfl, rfl⟩
    -- what a result of the packed call says about the typed one
    have hresult : ∀ {r : PackedTable × ℕ},
        (ki.applyUpdates b.updates).map (fun p => (packTable p.1.stemTable, p.2)) = .ok r →
        ∃ ki', ki.applyUpdates b.updates = .ok (ki', r.2) ∧ r.1 = packTable ki'.stemTable ∧
          ki'.head = ki.head := by
      intro r hr
      cases hki : ki.applyUpdates b.updates with
      | error e => rw [hki] at hr; cases hr
      | ok p =>
        rw [hki] at hr
        obtain rfl := Except.ok.inj hr
        obtain ⟨-, -, -, hhead⟩ := applyUpdates_stages (n := p.2) hki
        exact ⟨p.1, rfl, rfl, hhead⟩
    by_cases hempty : perStem.isEmpty = true
    · rw [if_pos hempty] at hpacked ⊢
      obtain ⟨ki', hki, hrows, hhead⟩ := hresult hpacked.symm
      refine Does.pure ⟨ts, ki', rfl, hki, ?_, hhead ▸ h.head⟩
      exact h.stems.trans hrows
    · rw [if_neg hempty] at hpacked ⊢
      have hloop : Does lib.fault Reports own
          ((b.order perStem.toList).foldlM (mergeStored lib) 0)
          (.opened ts (stemTable.put ts ((stemTable.rows ts).getD ∅)))
          (fun n st => ∃ t, st = .opened ts t ∧ ∃ ki', ki.applyUpdates b.updates = .ok (ki', n) ∧
            Represents t ki') (·.committed = ts) := by
        have hround : ∀ row ∈ b.order perStem.toList, ∀ (t : PackedTable × ℕ) n st,
            n = t.2 ∧ st = inStems ts t.1 →
            Does lib.fault Reports
              (fun e => own e ∨ ∃ e', mergePacked t row = .error e' ∧ SameError e' e)
              (mergeStored lib n row) st
              (fun n' st => ∃ t', mergePacked t row = .ok t' ∧ n' = t'.2 ∧ st = inStems ts t'.1)
              (·.committed = ts) := by
          rintro row - t n st ⟨rfl, rfl⟩
          exact mergeStored_does t.1 t.2 row
        have hstart : (stemTable.rows ts).getD ∅ = packTable ki.stemTable := h.stems
        rw [hstart]
        refine (Does.foldlM hround (t := (packTable ki.stemTable, 0)) ⟨rfl, rfl⟩).mono ?_
          (fun _ h => h) ?_
        · rintro n st ⟨t, ht, rfl, rfl⟩
          rw [ht] at hpacked
          obtain ⟨ki', hki, hrows, hhead⟩ := hresult hpacked.symm
          exact ⟨_, rfl, ki', hki, represents_stems h hrows hhead⟩
        · rintro e (he | ⟨e', he', hsame⟩)
          · exact he
          · rw [he'] at hpacked
            refine hown e' e ?_ hsame
            cases hki : ki.applyUpdates b.updates with
            | error e'' => rw [hki] at hpacked; exact congrArg _ (Except.error.inj hpacked).symm
            | ok p => rw [hki] at hpacked; cases hpacked
      refine (inWriteTxn_does hloop).mono (fun n st => ?_) (fun _ h => h) (fun _ h => h)
      rintro ⟨t, rfl, ki', hki, hrep⟩
      exact ⟨t, ki', rfl, hki, hrep⟩

/-! ### The head and the rows -/

theorem saveHead_does {n count : UInt64} {blockHash root : B256} (h : Represents ts ki) :
    Does lib.fault Reports own (saveHead lib n blockHash root count) (.closed ts)
      (fun _ st => ∃ ts', st = .closed ts' ∧
        Represents ts' (ki.saveHead ⟨n.toNat, blockHash, root, count.toNat⟩))
      (· = .closed ts) := by
  refine inWriteTxn_does (redbCall_does ⟨_, rfl, h.stems, ?_⟩ rfl)
  change Option.map unpackHead ((ExtTreeMap.insert _ metaHeadKey _)[metaHeadKey]?) = _
  rw [Tables.getElem?_insert, if_pos rfl, Option.map_some,
    unpackHead_packHead n.toNat_lt count.toNat_lt]
  rfl

theorem loadHead_does (h : Represents ts ki) :
    Does lib.fault Reports own (loadHead lib) (.closed ts)
      (fun a st => a = ki.loadHead ∧ st = .closed ts) (· = .closed ts) := by
  have hread : Does lib.fault Reports own (beginRead lib) (.closed ts)
      (fun txn st => txn = ts ∧ st = .closed ts) (· = .closed ts) := redbCall_does ⟨rfl, rfl⟩ rfl
  refine hread.bind ?_
  rintro txn st ⟨rfl, rfl⟩
  have hopen : Does lib.fault Reports own (openReadTable lib metaTable txn) (.closed txn)
      (fun r st => r = txn.ubtMeta ∧ st = .closed txn) (· = .closed txn) :=
    redbCall_does ⟨rfl, rfl⟩ rfl
  refine hopen.bind ?_
  rintro r st ⟨rfl, rfl⟩
  have hhead := h.head
  unfold KeyIndex.loadHead
  cases htable : txn.ubtMeta with
  | none =>
    rw [htable] at hhead
    have hnone : ki.head = none := by
      cases hki : ki.head with
      | none => rfl
      | some hd => rw [hki] at hhead; simp at hhead
    exact Does.pure ⟨hnone.symm, rfl⟩
  | some table =>
    rw [htable, Option.getD_some] at hhead
    have hget : Does lib.fault Reports own (readGet lib table metaHeadKey) (.closed txn)
        (fun r st => r = table[metaHeadKey]? ∧ st = .closed txn) (· = .closed txn) :=
      redbCall_does ⟨rfl, rfl⟩ rfl
    refine hget.bind ?_
    rintro r st ⟨rfl, rfl⟩
    cases hrow : table[metaHeadKey]? with
    | none =>
      rw [hrow, Option.map_none] at hhead
      exact Does.pure ⟨(Option.map_eq_none_iff.mp hhead.symm).symm, rfl⟩
    | some value =>
      rw [hrow, Option.map_some] at hhead
      obtain ⟨hd, hki, hunpack⟩ := Option.map_eq_some_iff.mp hhead.symm
      dsimp only
      rw [← hunpack, hki]
      exact Does.pure ⟨rfl, rfl⟩

/-- The rows of a packed table, with the callback on each. -/
theorem forEachRow_does {β : Type} {f : β → Stem → StemRecord → Except Error β}
    (records : List (Stem × StemRecord)) {s : β}
    (hown : ∀ e, records.foldlM (fun s row => f s row.1 row.2) s = .error e → own e) :
    Does lib.fault Reports own
      (forEachRow lib f (records.map fun r => (r.1, packValue r.2.address r.2.bitmap)) s)
      (.closed ts)
      (fun s' st => records.foldlM (fun s row => f s row.1 row.2) s = .ok s' ∧ st = .closed ts)
      (· = .closed ts) := by
  induction records generalizing s with
  | nil =>
    refine stepIter_does.bind fun _ st hst => ?_
    exact Does.pure ⟨rfl, hst⟩
  | cons record records ih =>
    refine stepIter_does.bind fun _ st hst => ?_
    subst hst
    refine (ofRows_does (splitValue_packValue _ _)).bind ?_
    rintro p st ⟨rfl, rfl⟩
    rw [List.foldlM_cons] at hown ⊢
    dsimp only
    cases hf : f s record.1 record.2 with
    | error e =>
      rw [hf] at hown
      exact Does.throw (hown e rfl) rfl
    | ok s' =>
      rw [hf] at hown
      exact ih hown

/-- **The callback gets the records in the order of their stems**, up to the first that
it refuses. -/
theorem forEachStem_does {β : Type} {f : β → Stem → StemRecord → Except Error β} {s : β}
    (h : Represents ts ki)
    (hown : ∀ e, ki.forEachStem.foldlM (fun s row => f s row.1 row.2) s = .error e → own e) :
    Does lib.fault Reports own (forEachStem lib f s) (.closed ts)
      (fun s' st => ki.forEachStem.foldlM (fun s row => f s row.1 row.2) s = .ok s' ∧
        st = .closed ts) (· = .closed ts) := by
  have hread : Does lib.fault Reports own (beginRead lib) (.closed ts)
      (fun txn st => txn = ts ∧ st = .closed ts) (· = .closed ts) := redbCall_does ⟨rfl, rfl⟩ rfl
  refine hread.bind ?_
  rintro txn st ⟨rfl, rfl⟩
  have hopen : Does lib.fault Reports own (openReadTable lib stemTable txn) (.closed txn)
      (fun r st => r = txn.ubtStems ∧ st = .closed txn) (· = .closed txn) :=
    redbCall_does ⟨rfl, rfl⟩ rfl
  refine hopen.bind ?_
  rintro r st ⟨rfl, rfl⟩
  have hrows : ((txn.ubtStems.getD ∅).toList : List (Stem × Vector UInt8 52)) =
      ki.forEachStem.map fun r => (r.1, packValue r.2.address r.2.bitmap) := by
    rw [h.stems, packTable, ExtTreeMap.toList_map]
    rfl
  cases htable : txn.ubtStems with
  | none =>
    rw [htable] at hrows
    have hnil : ki.forEachStem = [] := by
      rw [Option.getD_none, ExtTreeMap.toList_eq_nil_iff.mpr rfl] at hrows
      exact List.map_eq_nil_iff.mp hrows.symm
    rw [hnil]
    exact Does.pure ⟨rfl, rfl⟩
  | some table =>
    rw [htable, Option.getD_some] at hrows
    refine stepIter_does.bind fun _ st hst => ?_
    subst hst
    rw [hrows]
    exact forEachRow_does _ hown

end UbtExex.IndexStore
