import Mathlib.Data.List.TakeWhile
import UbtExex.Exported

/-!
# Failed exports

The exporters check the head and the range before they create their file, and the
addresses, the values of NOMT and the empty key index only after.  An export that
fails at a check of the second kind has emptied the file of the export before it, and
leaves the placeholder of a header and the records written so far.

## Main definitions

* `NomtFaults` — what of NOMT cannot be read, and the exporters from such a NOMT.
* `ExportCall` — the calls of the exporters.
* `ExportCall.FailsLate`, `ExportCall.torso` — that a call fails after it created its
  file, and what it then leaves there.
* `Undamaged` — a failed call changed no file that was there before.

## Main results

* `ExportCall.failsAs` — **what every failing call does to the output directory.**
* `failed_export_undamaged_iff` — **when a failed export leaves the files before it alone.**
-/

open Std Bytes

namespace UbtExex

/-! ### NOMT that cannot be read -/

/-- What of NOMT cannot be read, with the messages of its errors. -/
structure NomtFaults where
  /-- The store cannot be opened. -/
  openNomt : Option String
  /-- The read of a key fails. -/
  read : KeyPath → Option String

/-- Fail with the message, if there is one. -/
def failWith : Option String → ExportM Unit
  | none => pure ()
  | some message => throw (mdbxError message)

namespace NomtFaults

/-- Nothing fails. -/
protected def none : NomtFaults := ⟨Option.none, fun _ => Option.none⟩

variable (faults : NomtFaults)

/-- `read_nomt_value`. -/
def readNomtValue (treeIndex : KeyPath) : ExportM B256 := do
  failWith (faults.read treeIndex)
  UbtExex.readNomtValue treeIndex

/-- Write the record of a registered key with the value that NOMT has for it. -/
def exportSubindex (file : FileName) (address : Address) (stem : Stem) (p : ℕ × Bool)
    (subindex : UInt8) : ExportM (ℕ × Bool) := do
  let treeIndex := treeIndexFromKey stem subindex
  let value ← faults.readNomtValue treeIndex
  let entryOffset ← writeEntry file ⟨address, treeIndex, value⟩ p.1
  return (entryOffset, true)

/-- The callback for a stem of the key index. -/
def exportRecord (wanted : Address → Bool) (file : FileName) (l : ExportLoop)
    (row : Stem × StemRecord) : ExportM ExportLoop := do
  if wanted row.2.address then
    let p ← (iterBitmapSubindices row.2.bitmap).foldlM
      (faults.exportSubindex file row.2.address row.1) (l.entryOffset, false)
    return { l with
      entryOffset := p.1
      stemIndexEntries := if p.2 then l.stemIndexEntries ++ [(row.1, l.entryOffset)]
        else l.stemIndexEntries }
  else return l

/-- An export from NOMT; `opening` is the failure of an `open_nomt` that comes after the
file is created. -/
def exportFromNomt (wanted : Address → Bool) (checkEmpty : Bool) (opening : Option String)
    (stateFile indexFile : FileName) (chainId : ℕ) : ExportM ExportResult := do
  match ← readStore fun d => d.keyIndex.loadHead with
  | none => throw (mdbxError "Missing key index head metadata")
  | some head =>
    startFile stateFile chainId head.blockNumber head.blockHash
    -- the contract export opens NOMT only here
    failWith opening
    let rows ← readStore fun d => d.keyIndex.stemTable.toList
    let l ← rows.foldlM (faults.exportRecord wanted stateFile) ⟨0, [], []⟩
    if checkEmpty && l.entryOffset == 0 && head.stemCount > 0 then
      throw (mdbxError "Key index empty while state head indicates non-zero stems")
    else finishFiles stateFile indexFile chainId head.blockNumber head.blockHash head.root l

/-- `export_full_state_from_nomt`: NOMT is opened first. -/
def exportFullStateFromNomt (chainId : ℕ) : ExportM ExportResult := do
  failWith faults.openNomt
  faults.exportFromNomt (fun _ => true) true .none .state .stemIndex chainId

/-- `export_contract_state_from_nomt`: NOMT is opened after the file is created. -/
def exportContractStateFromNomt (contract : Address) (chainId : ℕ) : ExportM ExportResult :=
  faults.exportFromNomt (fun address => address = contract) false faults.openNomt
    (.contract contract) (.contractStemIndex contract) chainId

/-- A NOMT without faults is exported as before. -/
theorem exportFullStateFromNomt_none (chainId : ℕ) :
    NomtFaults.none.exportFullStateFromNomt chainId = UbtExex.exportFullStateFromNomt chainId :=
  rfl

theorem exportContractStateFromNomt_none (contract : Address) (chainId : ℕ) :
    NomtFaults.none.exportContractStateFromNomt contract chainId =
      UbtExex.exportContractStateFromNomt contract chainId :=
  rfl

/-- The value at a tree index can be read: neither does the read fail, nor is the value
stored there of the wrong length. -/
def canRead (t : NomtMap) (treeIndex : KeyPath) : Bool :=
  (faults.read treeIndex).isNone &&
    match t[treeIndex]? with
    | some (.u64Be _) => false
    | _ => true

end NomtFaults

/-! ### Loops that may stop -/

/-- The run writes the records one by one at the end of a file, up to the first without
the property; it fails if there is one. -/
def WritesUntil {β : Type} (p : StorageEntry → Bool) (env : ExportEnv) (file : FileName)
    (a : List UInt8) (entries : List StorageEntry) (b : β)
    (r : EStateM.Result UbtError ExportEnv β) : Prop :=
  if entries.all p then
    r = .ok b (env.put file (a ++ (entries.takeWhile p).flatMap StorageEntry.toBytes))
  else
    ∃ e, r = .error e (env.put file (a ++ (entries.takeWhile p).flatMap StorageEntry.toBytes))

section WritesUntil

variable {β : Type} {p : StorageEntry → Bool} {env : ExportEnv} {file : FileName}
  {a : List UInt8} {entries : List StorageEntry} {b : β}
  {r : EStateM.Result UbtError ExportEnv β}

theorem WritesUntil.of_all (h : WritesUntil p env file a entries b r) (hall : entries.all p) :
    r = .ok b (env.put file (a ++ entries.flatMap StorageEntry.toBytes)) := by
  unfold WritesUntil at h
  rw [if_pos hall, List.takeWhile_eq_self_iff.mpr (List.all_eq_true.mp hall)] at h
  exact h

theorem WritesUntil.of_not_all (h : WritesUntil p env file a entries b r)
    (hall : ¬entries.all p = true) :
    ∃ e, r = .error e
      (env.put file (a ++ (entries.takeWhile p).flatMap StorageEntry.toBytes)) := by
  unfold WritesUntil at h
  rw [if_neg hall] at h
  exact h

theorem writesUntil_nil (b : β) : WritesUntil p env file a [] b (.ok b (env.put file a)) := by
  unfold WritesUntil
  rw [if_pos List.all_nil, List.takeWhile_nil, List.flatMap_nil, List.append_nil]

/-- A return value that is computed after the records are written. -/
theorem WritesUntil.map {γ : Type} {x : ExportM β} (f : β → γ)
    (h : WritesUntil p env file a entries b (x (env.put file a))) :
    WritesUntil p env file a entries (f b) ((x >>= fun b => pure (f b)) (env.put file a)) := by
  unfold WritesUntil at h ⊢
  rw [EStateM.bind_apply]
  by_cases hall : entries.all p = true
  · rw [if_pos hall] at h ⊢
    rw [h]
    rfl
  · rw [if_neg hall] at h ⊢
    obtain ⟨e, he⟩ := h
    rw [he]
    exact ⟨e, rfl⟩

/-- **The rule for loops that stop**: a loop writes the records of its elements, up to
the first without the property, when each step does. -/
theorem foldlM_writesUntil {α : Type} {f : β → α → ExportM β} {g : β → α → β}
    {out : α → List StorageEntry}
    (hstep : ∀ b x a, WritesUntil p env file a (out x) (g b x) (f b x (env.put file a)))
    (l : List α) (b : β) (a : List UInt8) :
    WritesUntil p env file a (l.flatMap out) (l.foldl g b) (l.foldlM f b (env.put file a)) := by
  induction l generalizing b a with
  | nil =>
    unfold WritesUntil
    rw [List.flatMap_nil, if_pos List.all_nil, List.takeWhile_nil, List.flatMap_nil,
      List.append_nil]
    rfl
  | cons x l ih =>
    rw [List.foldlM_cons, EStateM.bind_apply, List.flatMap_cons, List.foldl_cons]
    unfold WritesUntil
    rw [List.all_append]
    -- either the first element writes everything and the others follow, or it stops the loop
    by_cases hx : (out x).all p = true
    · have htake : (out x ++ l.flatMap out).takeWhile p = out x ++ (l.flatMap out).takeWhile p :=
        List.takeWhile_append_of_pos (List.all_eq_true.mp hx)
      rw [(hstep b x a).of_all hx, hx, Bool.true_and, htake, List.flatMap_append,
        ← List.append_assoc]
      exact ih ..
    · obtain ⟨e, he⟩ := (hstep b x a).of_not_all hx
      have htake : (out x ++ l.flatMap out).takeWhile p = (out x).takeWhile p := by
        rw [List.takeWhile_append, if_neg]
        intro hlen
        refine hx (List.all_eq_true.mpr (List.takeWhile_eq_self_iff.mp ?_))
        exact (List.takeWhile_prefix p).eq_of_length hlen
      rw [he, htake, Bool.eq_false_of_not_eq_true hx, Bool.false_and, if_neg Bool.false_ne_true]
      exact ⟨e, rfl⟩

end WritesUntil

namespace NomtFaults

variable {faults : NomtFaults} {wanted : Address → Bool} {d : Disk} {dir : Dir} {file : FileName}

/-- The value of a record can be read from NOMT. -/
def canReadEntry (faults : NomtFaults) (d : Disk) (e : StorageEntry) : Bool :=
  faults.canRead d.nomt.current e.treeIndex

theorem failWith_bind {α : Type} (failure : Option String) (x : ExportM α) (env : ExportEnv) :
    (failWith failure >>= fun _ => x) env =
      failure.elim (x env) fun message => .error (mdbxError message) env := by
  cases failure <;> rfl

/-- **The read of a value**, which changes nothing. -/
theorem readNomtValue_put (stem : Stem) (i : UInt8) (a : List UInt8) :
    let env := (ExportEnv.over d dir).put file a
    if faults.canRead d.nomt.current (treeIndexFromKey stem i) then
      faults.readNomtValue (treeIndexFromKey stem i) env = .ok (d.nomt.current.value ⟨stem, i⟩) env
    else ∃ e, faults.readNomtValue (treeIndexFromKey stem i) env = .error e env := by
  intro env
  have hstores : env.stores 0 = d := rfl
  have hpath : (⟨stem, i⟩ : TreeKey).path = treeIndexFromKey stem i := rfl
  unfold readNomtValue canRead NomtMap.value
  rw [failWith_bind, readNomtValue_apply, hstores, hpath]
  cases faults.read (treeIndexFromKey stem i) with
  | some message => exact ⟨_, rfl⟩
  | none =>
    cases d.nomt.current[treeIndexFromKey stem i]? with
    | none => rfl
    | some w =>
      cases w with
      | b256 v => rfl
      | u64Be n => exact ⟨_, rfl⟩

/-- The record of a registered key is written if its value can be read. -/
theorem exportSubindex_writesUntil (address : Address) (stem : Stem) (p : ℕ × Bool) (i : UInt8)
    (a : List UInt8) :
    WritesUntil (faults.canReadEntry d) (.over d dir) file a
      [⟨address, treeIndexFromKey stem i, d.nomt.current.value ⟨stem, i⟩⟩] (p.1 + 1, true)
      (faults.exportSubindex file address stem p i ((ExportEnv.over d dir).put file a)) := by
  have hread := @readNomtValue_put faults d dir file stem i a
  have hentry : faults.canReadEntry d
      ⟨address, treeIndexFromKey stem i, d.nomt.current.value ⟨stem, i⟩⟩ =
      faults.canRead d.nomt.current (treeIndexFromKey stem i) := rfl
  dsimp only at hread
  unfold exportSubindex WritesUntil
  rw [EStateM.bind_apply, List.all_cons, List.all_nil, Bool.and_true, List.takeWhile_cons, hentry]
  by_cases hcan : faults.canRead d.nomt.current (treeIndexFromKey stem i) = true
  · rw [if_pos hcan] at hread
    rw [if_pos hcan, if_pos hcan, List.takeWhile_nil, List.flatMap_singleton, hread]
    dsimp only
    rw [EStateM.bind_apply, writeEntry_put]
    rfl
  · rw [if_neg hcan] at hread
    obtain ⟨e, he⟩ := hread
    rw [if_neg hcan, if_neg hcan, List.flatMap_nil, List.append_nil, he]
    exact ⟨e, rfl⟩

/-- **The callback for a stem of the key index.** -/
theorem exportRecord_writesUntil (l : ExportLoop) (row : Stem × StemRecord) (a : List UInt8) :
    WritesUntil (faults.canReadEntry d) (.over d dir) file a
      (exportedEntries (nomtStem wanted d.nomt.current row).toList)
      (l.add (nomtStem wanted d.nomt.current row).toList [])
      (faults.exportRecord wanted file l row ((ExportEnv.over d dir).put file a)) := by
  unfold exportRecord
  by_cases hw : wanted row.2.address = true
  · have hloop := @foldlM_writesUntil _ (faults.canReadEntry d) (.over d dir) file _ _ _ _
      (exportSubindex_writesUntil row.2.address row.1)
      (iterBitmapSubindices row.2.bitmap) (l.entryOffset, false) a
    rw [foldl_exported, ← List.map_eq_flatMap, ← entries_nomtStem hw] at hloop
    rw [if_pos hw, ← add_nomtStem hw]
    exact hloop.map _
  · rw [if_neg hw, nomtStem_of_unwanted hw, Option.toList_none, ExportLoop.add_nil]
    exact writesUntil_nil ..

/-- **The loop over the stems of the key index.** -/
theorem exportRecords_writesUntil (l : ExportLoop) (a : List UInt8) :
    WritesUntil (faults.canReadEntry d) (.over d dir) file a
      (exportedEntries (nomtStems wanted d)) (l.add (nomtStems wanted d) [])
      (d.keyIndex.stemTable.toList.foldlM (faults.exportRecord wanted file) l
        ((ExportEnv.over d dir).put file a)) := by
  have hloop := @foldlM_writesUntil _ (faults.canReadEntry d) (.over d dir) file _ _ _ _
    (@exportRecord_writesUntil faults wanted d dir file) d.keyIndex.stemTable.toList l a
  rw [foldl_add_nomtStem, flatMap_exportedEntries] at hloop
  exact hloop

end NomtFaults

/-! ### Failing early and failing late -/

/-- What stays in a file whose export did not finish: the placeholder of the header, and
the records written so far. -/
def unfinishedBytes (chainId : ℕ) (block : ℕ × B256) (entries : List StorageEntry) : List UInt8 :=
  (StateHeader.new 0 block.1 chainId block.2).toBytes ++ entries.flatMap StorageEntry.toBytes

/-- A call that fails late leaves `torso` in the file and the rest of the directory as it
was; one that fails before it created the file leaves the whole directory as it was. -/
structure FailsAs {β : Type} (late : Prop) (file : FileName) (torso : Option (List UInt8))
    (dir : Dir) (r : EStateM.Result UbtError ExportEnv β) : Prop where
  torn : late → r.isOk = false ∧ r.state.dir = Function.update dir file torso
  untouched : ¬late → r.isOk = false → r.state.dir = dir

/-- If the call failed, then the files that were in the directory before it are
unchanged. -/
def Undamaged {β : Type} (dir : Dir) (r : EStateM.Result UbtError ExportEnv β) : Prop :=
  r.isOk = false → ∀ file bytes, dir file = some bytes → r.state.dir file = some bytes

section FailsAs

variable {β : Type} {late : Prop} {file : FileName} {torso : Option (List UInt8)} {dir : Dir}
  {r : EStateM.Result UbtError ExportEnv β}

theorem FailsAs.of_ok {b : β} {env : ExportEnv} (h : ¬late) :
    FailsAs late file torso dir (.ok b env) :=
  ⟨fun hlate => absurd hlate h, fun _ hok => nomatch hok⟩

theorem FailsAs.of_early {e : UbtError} {env : ExportEnv} (h : ¬late) (hdir : env.dir = dir) :
    FailsAs late file torso dir (.error e env : EStateM.Result UbtError ExportEnv β) :=
  ⟨fun hlate => absurd hlate h, fun _ _ => hdir⟩

theorem FailsAs.of_late {e : UbtError} {env : ExportEnv} (h : late)
    (hdir : env.dir = Function.update dir file torso) :
    FailsAs late file torso dir (.error e env : EStateM.Result UbtError ExportEnv β) :=
  ⟨fun _ => ⟨rfl, hdir⟩, fun hearly => absurd h hearly⟩

/-- The value that a call returns does not matter. -/
theorem FailsAs.discard {x : ExportM β} {env : ExportEnv}
    (h : FailsAs late file torso dir (x env)) :
    FailsAs late file torso dir ((x >>= fun _ => pure ()) env) := by
  rw [EStateM.bind_apply]
  cases hx : x env with
  | ok b env' =>
    rw [hx] at h
    exact .of_ok fun hlate => nomatch (h.torn hlate).1
  | error e env' =>
    rw [hx] at h
    exact ⟨fun hlate => ⟨rfl, (h.torn hlate).2⟩, fun hearly _ => h.untouched hearly rfl⟩

/-- **A failed call leaves the earlier files alone** exactly if it fails before it creates
its file, or there was no such file, or it already was what the call leaves. -/
theorem FailsAs.undamaged_iff (h : FailsAs late file torso dir r) :
    Undamaged dir r ↔ ¬late ∨ dir file = none ∨ dir file = torso := by
  constructor
  · intro hkeep
    by_cases hlate : late
    -- the file that was there must be the torso that is there now
    · obtain ⟨hfail, hdir⟩ := h.torn hlate
      right
      cases hold : dir file with
      | none => exact .inl rfl
      | some bytes =>
        have hnew := hkeep hfail file bytes hold
        rw [hdir, Function.update_self] at hnew
        exact .inr hnew.symm
    · exact .inl hlate
  · intro hcond hfail file' bytes hold
    by_cases hlate : late
    · rw [(h.torn hlate).2, Function.update_apply]
      split
      next heq =>
        subst heq
        obtain hearly | hnone | htorso := hcond
        · exact absurd hlate hearly
        · rw [hnone] at hold
          cases hold
        · rw [← htorso, hold]
      next => exact hold
    · rw [h.untouched hlate hfail]
      exact hold

end FailsAs

/-! ### The exporters -/

section Exporters

variable {chainId : ℕ} {d : Disk} {dir : Dir} {wanted : Address → Bool}
  {stateFile indexFile : FileName}

/-- An export from MDBX fails late when there is a head and some stem has no address. -/
def MdbxFailsLate (db : UbtDatabase) : Prop := db.loadHead.isSome ∧ ¬Addressed db

/-- The records of all stems that have an address. -/
def mdbxTorso (wanted : Address → Bool) (db : UbtDatabase) (chainId : ℕ) : Option (List UInt8) :=
  db.loadHead.map fun head => unfinishedBytes chainId (head.blockNumber, head.blockHash)
    (exportedEntries (mdbxStems wanted db))

theorem exportFromMdbx_failsAs :
    FailsAs (MdbxFailsLate d.db) stateFile (mdbxTorso wanted d.db chainId) dir
      (exportFromMdbx wanted stateFile indexFile chainId (.over d dir)) := by
  unfold MdbxFailsLate mdbxTorso
  cases hhead : d.db.loadHead with
  | none =>
    rw [exportFromMdbx_of_headless hhead]
    exact .of_early (fun h => absurd h.1 (by simp)) rfl
  | some head =>
    by_cases haddr : Addressed d.db
    · rw [exportFromMdbx_of_addressed hhead haddr]
      exact .of_ok fun h => h.2 haddr
    · obtain ⟨missing, hrun⟩ := @exportFromMdbx_of_unaddressed wanted stateFile indexFile chainId
        d dir head hhead haddr
      rw [hrun]
      exact .of_late ⟨rfl, haddr⟩ rfl

/-- An export from NOMT fails late when the key index has a head and NOMT cannot be
opened after that, or the value of a registered key cannot be read, or nothing is
registered while the head counts stems. -/
def NomtFailsLate (faults : NomtFaults) (wanted : Address → Bool) (checkEmpty : Bool)
    (opening : Option String) (d : Disk) : Prop :=
  ∃ head, d.keyIndex.loadHead = some head ∧
    (opening.isSome ∨
      (∃ e ∈ exportedEntries (nomtStems wanted d), faults.canReadEntry d e = false) ∨
      checkEmpty = true ∧ exportedEntries (nomtStems wanted d) = [] ∧ head.stemCount ≠ 0)

/-- The records of the registered keys before the first that cannot be read. -/
def nomtTorso (faults : NomtFaults) (wanted : Address → Bool) (opening : Option String) (d : Disk)
    (chainId : ℕ) : Option (List UInt8) :=
  d.keyIndex.loadHead.map fun head => unfinishedBytes chainId (head.blockNumber, head.blockHash)
    (if opening.isSome then []
      else (exportedEntries (nomtStems wanted d)).takeWhile (faults.canReadEntry d))

theorem exportFromNomt_failsAs (faults : NomtFaults) (checkEmpty : Bool)
    (opening : Option String) :
    FailsAs (NomtFailsLate faults wanted checkEmpty opening d) stateFile
      (nomtTorso faults wanted opening d chainId) dir
      (faults.exportFromNomt wanted checkEmpty opening stateFile indexFile chainId
        (.over d dir)) := by
  unfold NomtFailsLate nomtTorso NomtFaults.exportFromNomt
  rw [readStore_bind, ExportEnv.stores_over, ExportEnv.skip_over]
  cases hhead : d.keyIndex.loadHead with
  | none => exact .of_early (by simp) rfl
  | some head =>
    simp only [Option.some.injEq, exists_eq_left', Option.map_some]
    rw [EStateM.bind_apply, startFile_apply]
    dsimp only
    rw [NomtFaults.failWith_bind]
    cases opening with
    | some message => exact .of_late (.inl rfl) (by simp [unfinishedBytes]; rfl)
    | none =>
      simp only [Option.isSome_none, Bool.false_eq_true, false_or, if_false, Option.elim_none]
      rw [readStore_bind, EStateM.bind_apply, ExportEnv.stores_put, skip_put,
        ExportEnv.stores_over, ExportEnv.skip_over]
      have hloop := @NomtFaults.exportRecords_writesUntil faults wanted d dir stateFile ⟨0, [], []⟩
        (StateHeader.new 0 head.blockNumber chainId head.blockHash).toBytes
      -- the loop stops at the first unreadable value; past it only the empty check is left
      by_cases hall : (exportedEntries (nomtStems wanted d)).all (faults.canReadEntry d) = true
      · have hread : ¬∃ e ∈ exportedEntries (nomtStems wanted d),
            faults.canReadEntry d e = false := by
          simpa using hall
        have htake : (exportedEntries (nomtStems wanted d)).takeWhile (faults.canReadEntry d) =
            exportedEntries (nomtStems wanted d) :=
          List.takeWhile_eq_self_iff.mpr (List.all_eq_true.mp hall)
        rw [hloop.of_all hall]
        dsimp only
        have hcheck := checkEmpty_iff checkEmpty (exportedEntries (nomtStems wanted d))
          head.stemCount
        have hcount : (ExportLoop.add ⟨0, [], []⟩ (nomtStems wanted d) []).entryOffset =
            (exportedEntries (nomtStems wanted d)).length := Nat.zero_add _
        by_cases hempty : checkEmpty = true → exportedEntries (nomtStems wanted d) = [] →
            head.stemCount = 0
        · rw [if_neg (by rw [hcount, hcheck]; exact not_not_intro hempty)]
          rw [finishFiles_apply]
          exact .of_ok fun h => h.elim hread fun h => h.2.2 (hempty h.1 h.2.1)
        · rw [if_pos (by rw [hcount, hcheck]; exact hempty)]
          rw [Classical.not_imp, Classical.not_imp] at hempty
          exact .of_late (.inr hempty) (by rw [htake]; rfl)
      · obtain ⟨e, he⟩ := hloop.of_not_all hall
        rw [he]
        exact .of_late (.inl (by simpa using hall)) rfl

/-- A delta export fails late when there is a head, the range is one it accepts, and the
stem of some touched key has no address. -/
def DeltaFailsLate (db : UbtDatabase) (fromBlock toBlock retention : ℕ) : Prop :=
  ∃ head, db.loadHead = some head ∧ fromBlock ≤ toBlock ∧ toBlock ≤ head.blockNumber ∧
    head.blockNumber - retention ≤ fromBlock ∧
    ∃ key ∈ deltaKeys db fromBlock toBlock, db.loadStemAddress key.stem = none

/-- The records of the touched keys whose stem has an address. -/
def deltaTorso (db : UbtDatabase) (fromBlock toBlock chainId : ℕ) : Option (List UInt8) :=
  db.loadHead.map fun head => unfinishedBytes chainId (head.blockNumber, head.blockHash)
    (((deltaKeys db fromBlock toBlock).filter fun key =>
      (db.loadStemAddress key.stem).isSome).map (deltaEntry db))

theorem getStateDelta_failsAs (fromBlock toBlock retention : ℕ) :
    FailsAs (DeltaFailsLate d.db fromBlock toBlock retention) (.delta fromBlock toBlock)
      (deltaTorso d.db fromBlock toBlock chainId) dir
      (getStateDelta fromBlock toBlock chainId retention (.over d dir)) := by
  unfold DeltaFailsLate deltaTorso
  obtain ⟨k, hrun⟩ := getStateDelta_run fromBlock toBlock chainId retention (.over d dir)
  have hstores : (ExportEnv.over d dir).stores = fun _ => d := rfl
  rw [hrun]
  simp only [ExportEnv.skip_over, hstores, touched_const, keyMissing_readKeys, keyEntry_readKeys]
  cases d.db.loadHead with
  | none => exact .of_early (by simp) rfl
  | some head =>
    simp only [Option.some.injEq, exists_eq_left', Option.map_some]
    -- the three checks of the range come before the file is created
    split_ifs with hle hhd hmin hkeys
    · exact .of_early (fun h => absurd h.1 (Nat.not_le.mpr hle)) rfl
    · exact .of_early (fun h => absurd h.2.1 (Nat.not_le.mpr hhd)) rfl
    · exact .of_early (fun h => absurd h.2.2.1 (Nat.not_le.mpr hmin)) rfl
    · refine .of_ok fun ⟨_, _, _, key, hkey, hnone⟩ => ?_
      have hsome := hkeys key hkey
      rw [hnone] at hsome
      cases hsome
    · have hkey : ∃ key ∈ deltaKeys d.db fromBlock toBlock,
          d.db.loadStemAddress key.stem = none := by
        simpa [deltaKeys] using hkeys
      exact .of_late ⟨Nat.not_lt.mp hle, Nat.not_lt.mp hhd, Nat.not_lt.mp hmin, hkey⟩ rfl

end Exporters

/-! ### Calls -/

/-- The calls of the exporters. -/
inductive ExportCall
  /-- `export_full_state_from_mdbx`. -/
  | fullFromMdbx
  /-- `export_full_state_from_nomt`. -/
  | fullFromNomt
  /-- `export_contract_state_from_mdbx`. -/
  | contractFromMdbx (contract : Address)
  /-- `export_contract_state_from_nomt`. -/
  | contractFromNomt (contract : Address)
  /-- `get_state_delta`. -/
  | delta (fromBlock toBlock deltaRetention : ℕ)

namespace ExportCall

/-- The call, without the result that it returns. -/
def run (faults : NomtFaults) (chainId : ℕ) : ExportCall → ExportM Unit
  | fullFromMdbx => do let _ ← exportFullStateFromMdbx chainId
  | fullFromNomt => do let _ ← faults.exportFullStateFromNomt chainId
  | contractFromMdbx contract => do let _ ← exportContractStateFromMdbx contract chainId
  | contractFromNomt contract => do let _ ← faults.exportContractStateFromNomt contract chainId
  | delta fromBlock toBlock deltaRetention => do
    let _ ← getStateDelta fromBlock toBlock chainId deltaRetention

/-- The file that the call creates first. -/
def file : ExportCall → FileName
  | fullFromMdbx | fullFromNomt => .state
  | contractFromMdbx contract | contractFromNomt contract => .contract contract
  | delta fromBlock toBlock _ => .delta fromBlock toBlock

/-- The call fails after it has created its file. -/
def FailsLate (faults : NomtFaults) (d : Disk) : ExportCall → Prop
  | fullFromMdbx | contractFromMdbx _ => MdbxFailsLate d.db
  | fullFromNomt =>
    faults.openNomt = none ∧ NomtFailsLate faults (fun _ => true) true none d
  | contractFromNomt contract =>
    NomtFailsLate faults (fun address => address = contract) false faults.openNomt d
  | delta fromBlock toBlock deltaRetention => DeltaFailsLate d.db fromBlock toBlock deltaRetention

/-- What the call leaves in its file when it fails late. -/
def torso (faults : NomtFaults) (chainId : ℕ) (d : Disk) : ExportCall → Option (List UInt8)
  | fullFromMdbx => mdbxTorso (fun _ => true) d.db chainId
  | fullFromNomt => nomtTorso faults (fun _ => true) none d chainId
  | contractFromMdbx contract => mdbxTorso (fun address => address = contract) d.db chainId
  | contractFromNomt contract =>
    nomtTorso faults (fun address => address = contract) faults.openNomt d chainId
  | delta fromBlock toBlock _ => deltaTorso d.db fromBlock toBlock chainId

variable (faults : NomtFaults) (chainId : ℕ) (d : Disk) (dir : Dir)

/-- **What every failing call does to the output directory.** -/
theorem failsAs (call : ExportCall) :
    FailsAs (call.FailsLate faults d) call.file (call.torso faults chainId d) dir
      (call.run faults chainId (.over d dir)) := by
  cases call with
  | fullFromMdbx => exact exportFromMdbx_failsAs.discard
  | contractFromMdbx contract => exact exportFromMdbx_failsAs.discard
  | contractFromNomt contract => exact (exportFromNomt_failsAs faults false _).discard
  | delta fromBlock toBlock retention => exact (getStateDelta_failsAs ..).discard
  | fullFromNomt =>
    refine FailsAs.discard ?_
    unfold NomtFaults.exportFullStateFromNomt FailsLate
    rw [NomtFaults.failWith_bind]
    cases hopen : faults.openNomt with
    | some message => exact .of_early (fun h => nomatch h.1) rfl
    | none =>
      have h := @exportFromNomt_failsAs chainId d dir (fun _ => true) .state .stemIndex faults true
        none
      exact ⟨fun hlate => h.torn hlate.2, fun hearly => h.untouched fun hlate => hearly ⟨rfl, hlate⟩⟩

end ExportCall

/-- **When a failed export leaves the files before it alone**: it fails before it creates
its file, or there was no such file, or the file already was the torso that the call
leaves. -/
theorem failed_export_undamaged_iff (call : ExportCall) (faults : NomtFaults) (chainId : ℕ)
    (d : Disk) (dir : Dir) :
    Undamaged dir (call.run faults chainId (.over d dir)) ↔
      ¬call.FailsLate faults d ∨ dir call.file = none ∨
        dir call.file = call.torso faults chainId d :=
  (call.failsAs faults chainId d dir).undamaged_iff

/-- MDBX with the stems up to a number, of which only the first has an address. -/
def oneAddressed (n : ℕ) : UbtDatabase where
  stems := Tables.insertAll ∅ ((List.range n).map fun k =>
    (BitVec.ofNat _ (k + 1), StemNode.new.setValue 0 (BitVec.ofNat _ (k + 5))))
  stemAddresses := Tables.insertAll ∅ [(1, 7)]
  head := some ⟨10 + n, BitVec.ofNat _ (100 + n), 0, n⟩
  blockDeltas := ∅

/-- An export succeeds; the next one fails at the stem without an address, and leaves a
header that counts no records, and the stem index of the export before it. -/
theorem failed_export_damages :
    let disk := fun n => { Disk.empty with db := oneAddressed n }
    let call := ExportCall.fullFromMdbx
    let before := (call.run .none 1 (.over (disk 1) fun _ => none)).state.dir
    ¬Undamaged before (call.run .none 1 (.over (disk 2) before)) := by
  intro disk call before h
  have hold : before .state = some ((before .state).getD []) := by decide +kernel
  have hnew := h (by decide +kernel) .state ((before .state).getD []) hold
  exact absurd hnew (by decide +kernel)

end UbtExex
