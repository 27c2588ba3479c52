import UbtExex.IndexSessions
import UbtExex.Sessions
import UbtExex.Snapshot

/-!
# The extension over the two files

Every durable write of an operation is one call of the MDBX store or of the key index,
or leaves both alone, as the writes of NOMT do.  So the writes of a run can be made on
the bytes of the two files, one call after the other; a call that fails ends the
process.

## Main definitions

* `Libraries` — libmdbx and redb under one schedule of failures.
* `Stores.apply`, `Stores.perform`, `Stores.Represents` — calls of the two stores.
* `Mirrors` — the calls that make the writes of a log.
* `fixedLayout` — a serialisation, for runs on fixed inputs.

## Main results

* `mirrored_perform` — **the writes of every run are calls of the stores.**
* `run_on_bytes` — **whatever call into MDBX or redb fails first, the two files are left
  as they are at one crash point of the run.**
-/

open Std EStateM Transaction

namespace UbtExex

/-- The stores that are files of bytes; the third one is NOMT. -/
def Disk.files (d : Disk) : UbtDatabase × KeyIndex := (d.db, d.keyIndex)

namespace Stores

/-- A call of one of the two stores. -/
abbrev Call := ByteStore.Call ⊕ IndexStore.Call

/-- What a call returns. -/
abbrev Answer := ByteStore.Answer ⊕ IndexStore.Answer

/-- The call on the typed stores. -/
abbrev apply (debugStem : Stem → String) :
    UbtDatabase × KeyIndex → Call →
      Except (UbtError ⊕ IndexStore.Error) (Answer × (UbtDatabase × KeyIndex)) :=
  Calls.applyEither (ByteStore.Call.apply debugStem) IndexStore.Call.apply

end Stores

variable {debugStem : Stem → String}

/-- The calls that make the writes of a log; both newest first. -/
abbrev Mirrors (debugStem : Stem → String) : List DurableWrite → List Stores.Call → Prop :=
  Calls.Mirrors (fun w => w.before.files) (fun w => w.after.files) (Stores.apply debugStem)

/-- The stem counts of saved heads are 64 bits wide. -/
def CountsFit (ws : List DurableWrite) : Prop :=
  ∀ w ∈ ws, ∀ head ∈ w.after.keyIndex.loadHead, head.stemCount < 2 ^ 64

/-- The journal is mirrored by calls. -/
def Mirrored (debugStem : Stem → String) (m : Machine) : Prop :=
  CountsFit m.journal → ∃ cs, Mirrors debugStem m.journal cs

/-- Block numbers that are 64 bits wide. -/
def Op.Fits : Op → Prop
  | .commit number _ _ => number < 2 ^ 64
  | .revert old => ∀ b ∈ old.blocks, b.number < 2 ^ 64
  | .shutdown => True

/-! ### The writes of the operations -/

theorem mirrored_update {f : UbtExEx → UbtExEx} : Keeps (Mirrored debugStem) (update f) :=
  fun _ hm => hm

/-- One more write, that is one more call. -/
theorem Mirrored.call {m : Machine} (hm : Mirrored debugStem m) {step : DurableStep}
    {f : Disk → Disk}
    (h : (∀ head ∈ (f m.exex.toDisk).keyIndex.loadHead, head.stemCount < 2 ^ 64) →
      ∃ call a, Stores.apply debugStem m.exex.toDisk.files call =
        .ok (a, (f m.exex.toDisk).files)) :
    Mirrored debugStem (m.persist step f) := by
  intro hfits
  obtain ⟨hhead, hfits⟩ := List.forall_mem_cons.mp hfits
  obtain ⟨cs, hcs⟩ := hm hfits
  obtain ⟨call, a, happly⟩ := h hhead
  exact ⟨call :: cs, .call happly hcs⟩

/-- A write beside the two files. -/
theorem mirrored_beside {step : DurableStep} {f : Disk → Disk} (h : ∀ d, (f d).files = d.files) :
    Keeps (Mirrored debugStem) (persist step f) := by
  intro m hm hfits
  obtain ⟨cs, hcs⟩ := hm (List.forall_mem_cons.mp hfits).2
  exact ⟨cs, .beside (h m.exex.toDisk) hcs⟩

/-- A write to the MDBX tables. -/
theorem mirrored_db {step : DurableStep} {f : UbtDatabase → UbtDatabase}
    (h : ∀ db, ∃ call a, ByteStore.Call.apply debugStem db call = .ok (a, f db)) :
    Keeps (Mirrored debugStem) (persist step fun d => { d with db := f d.db }) := by
  intro m hm
  refine hm.call (f := fun d => { d with db := f d.db }) fun _ => ?_
  obtain ⟨call, a, happly⟩ := h m.exex.db
  exact ⟨.inl call, .inl a, by rw [Stores.apply, Calls.applyEither, Disk.files, happly]; rfl⟩

theorem mirrored_tryPersist {α : Type} {step : DurableStep}
    {f : Disk → Except UbtError (Disk × α)}
    (h : ∀ d d' a, f d = .ok (d', a) →
      ∃ call ans, Stores.apply debugStem d.files call = .ok (ans, d'.files)) :
    Keeps (Mirrored debugStem) (tryPersist step f) := by
  intro m hm
  cases hf : f m.exex.toDisk with
  | error e =>
    rw [tryPersist_error hf]
    exact hm
  | ok p =>
    rw [tryPersist_ok hf]
    exact hm.call (f := fun _ => p.1) fun _ => h _ p.1 p.2 hf

theorem mirrored_flushDirty : Keeps (Mirrored debugStem) flushDirty := by
  refine .get_bind fun m => mirrored_update.bind fun _ => ?_
  split
  · exact .pure _
  · exact mirrored_db fun db => ⟨.batchUpdateStems _, _, rfl⟩

theorem toNat_u64 {n : ℕ} (hn : n < 2 ^ 64) : (UInt64.ofNat n).toNat = n :=
  UInt64.toNat_ofNat_of_lt' hn

theorem mirrored_pruneDeltas {n : ℕ} (hn : n < 2 ^ 64) :
    Keeps (Mirrored debugStem) (pruneDeltas n) := by
  refine .get_bind fun m => ?_
  dsimp only
  split
  · have hprune : ∀ db : UbtDatabase, ∃ call a, ByteStore.Call.apply debugStem db call =
        .ok (a, db.pruneDeltasBefore (n - m.exex.deltaRetention)) := by
      intro db
      refine ⟨.pruneDeltasBefore (.ofNat (n - m.exex.deltaRetention)),
        .count (db.deltaBlocks fun bn => bn < n - m.exex.deltaRetention).length, ?_⟩
      rw [ByteStore.Call.apply, toNat_u64 (by omega)]
    exact mirrored_db hprune
  · exact .pure _

theorem mirrored_saveStemAddresses (news : List (Stem × Address)) :
    Keeps (Mirrored debugStem) (saveStemAddresses news) := by
  unfold saveStemAddresses
  split
  · exact .pure _
  · refine mirrored_tryPersist fun d d' a hf =>
      ⟨.inl (.batchSaveStemAddresses news), .inl .done, ?_⟩
    cases hdb : d.db.batchSaveStemAddresses news with
    | error e =>
      rw [hdb] at hf
      cases hf
    | ok db =>
      rw [hdb] at hf
      cases hf
      rw [Stores.apply, Calls.applyEither, Disk.files, ByteStore.Call.apply, hdb]
      rfl

theorem mirrored_indexEntries (entries : List PendingEntry) :
    Keeps (Mirrored debugStem) (indexEntries entries) := by
  refine mirrored_tryPersist fun d d' a hf => ⟨.inr (.applyUpdates
    ⟨entries.map fun e => (e.key.stem, e.key.subindex, e.address), id, fun _ => .refl _⟩),
    .inr (.newStems a), ?_⟩
  cases hki : d.keyIndex.applyUpdates
      (entries.map fun e => (e.key.stem, e.key.subindex, e.address)) with
  | error e =>
    rw [hki] at hf
    cases hf
  | ok p =>
    rw [hki] at hf
    cases hf
    rw [Stores.apply, Calls.applyEither, Disk.files, IndexStore.Call.apply, hki]
    rfl

theorem mirrored_saveDeltas {n : ℕ} (hn : n < 2 ^ 64) (deltas : List Delta) :
    Keeps (Mirrored debugStem) (saveDeltas n deltas) := by
  unfold saveDeltas
  split
  · exact .pure _
  · exact mirrored_db fun db => ⟨.saveBlockDeltas (.ofNat n) deltas, .done, by
      rw [ByteStore.Call.apply, toNat_u64 hn]⟩

theorem mirrored_recordBlock {n : ℕ} (hn : n < 2 ^ 64) (hash : B256) :
    Keeps (Mirrored debugStem) (recordBlock n hash) := by
  refine .get_bind fun m => mirrored_update.bind fun _ => ?_
  refine Keeps.bind (mirrored_beside fun _ => rfl) fun _ => .get_bind fun m => ?_
  refine mirrored_update.bind fun _ => (mirrored_saveStemAddresses _).bind fun _ => ?_
  refine (mirrored_indexEntries _).bind fun _ => mirrored_update.bind fun _ => ?_
  exact (mirrored_saveDeltas hn _).bind fun _ => mirrored_update

theorem mirrored_revertBlock {n : ℕ} (hn : n < 2 ^ 64) :
    Keeps (Mirrored debugStem) (revertBlock n) := by
  refine .get_bind fun m => mirrored_update.bind fun _ => ?_
  split
  · exact mirrored_db fun db => ⟨.deleteBlockDeltas (.ofNat n), .done, by
      rw [ByteStore.Call.apply, toNat_u64 hn]⟩
  · exact .pure _

/-- The head of the key index, whose numbers must fit. -/
theorem mirrored_keyIndexSaveHead {n count : ℕ} (hn : n < 2 ^ 64) (hash root : B256) :
    Keeps (Mirrored debugStem) (persist .keyIndexSaveHead fun d =>
      { d with keyIndex := d.keyIndex.saveHead ⟨n, hash, root, count⟩ }) := by
  intro m hm
  refine hm.call
    (f := fun d => { d with keyIndex := d.keyIndex.saveHead ⟨n, hash, root, count⟩ })
    fun hfits => ⟨.inr (.saveHead (.ofNat n) hash root (.ofNat count)), .inr .done, ?_⟩
  have hcount : count < 2 ^ 64 := hfits _ rfl
  rw [Stores.apply, Calls.applyEither, Disk.files, IndexStore.Call.apply, toNat_u64 hn,
    toNat_u64 hcount]
  rfl

variable (U : Ubt)

theorem mirrored_flush {n : ℕ} (hn : n < 2 ^ 64) (hash : B256) :
    Keeps (Mirrored debugStem) (flush U n hash) := by
  refine mirrored_flushDirty.bind fun _ => .get_bind fun m => ?_
  refine Keeps.bind (mirrored_db fun db => ⟨.saveHead _, .done, rfl⟩) fun _ => ?_
  refine (mirrored_keyIndexSaveHead hn hash _).bind fun _ => mirrored_update.bind fun _ => ?_
  exact (mirrored_pruneDeltas hn).bind fun _ => .pure _

theorem mirrored_saveCurrent : Keeps (Mirrored debugStem) (saveCurrent U) := by
  refine mirrored_flushDirty.bind fun _ => .get_bind fun m => ?_
  exact Keeps.bind (mirrored_db fun db => ⟨.saveHead _, .done, rfl⟩) fun _ => .pure _

theorem mirrored_revert {old : Chain} (hold : ∀ b ∈ old.blocks, b.number < 2 ^ 64) :
    Keeps (Mirrored debugStem) (revert U old) := by
  refine Keeps.bind (mirrored_beside fun _ => rfl) fun _ => ?_
  refine (Keeps.forM fun n hn => mirrored_revertBlock ?_).bind fun _ => ?_
  · obtain ⟨b, hb, rfl⟩ := List.mem_map.mp (List.mem_reverse.mp hn)
    exact hold b hb
  refine mirrored_update.bind fun _ => .get_bind fun m => ?_
  dsimp only
  split
  · exact (mirrored_saveCurrent U).bind fun _ => mirrored_update
  · exact .pure _

theorem mirrored_run {op : Op} (hop : op.Fits) : Keeps (Mirrored debugStem) (op.run U) := by
  cases op with
  | commit n hash es =>
    intro m hm
    rw [Op.state_commit]
    refine Keeps.bind (mirrored_recordBlock hop hash) (fun _ => .get_bind fun m => ?_)
      (m.push es) hm
    dsimp only
    split
    · exact mirrored_flush U hop hash
    · exact .pure _
  | revert old => exact mirrored_revert U hop
  | shutdown => exact (mirrored_saveCurrent U).bind fun _ => .pure _

/-- **The writes of every run are calls of the stores.** -/
theorem mirrored_perform {ops : List Op} (hops : ∀ op ∈ ops, op.Fits) (s : UbtExEx) :
    Mirrored debugStem (perform U ops ⟨s, []⟩).state :=
  Keeps.forM (fun op hop => mirrored_run U (hops op hop)) _ fun _ => ⟨[], .nil⟩

/-! ### On the bytes of the two files -/

/-- libmdbx and redb under one schedule: what the call with a number fails with,
whichever library it is made to. -/
structure Libraries where
  fault : ℕ → Option (ℤ × String)
  fault_ne : ∀ {n f}, fault n = some f → f.1 ≠ Mdbx.mdbxSuccess ∧ f.1 ≠ Mdbx.mdbxNotfound
  strerror : ℤ → Option String

namespace Libraries

/-- libmdbx, under the schedule. -/
def mdbx (libs : Libraries) : Mdbx.Libmdbx where
  fault n := (libs.fault n).map Prod.fst
  fault_ne {n rc} h := by
    obtain ⟨f, hf, rfl⟩ := Option.map_eq_some_iff.mp h
    exact libs.fault_ne hf
  strerror := libs.strerror

/-- redb, under the schedule. -/
def redb (libs : Libraries) : IndexStore.Redb := ⟨fun n => (libs.fault n).map Prod.snd⟩

/-- The errors that report a failed call to either library. -/
def Reports (libs : Libraries) (f : ℤ × String) (e : ByteStore.UbtError) : Prop :=
  ByteStore.Reports libs.mdbx f.1 e ∨ IndexStore.Reports f.2 e

end Libraries

namespace Stores

/-- The call on the bytes. -/
abbrev perform (libs : Libraries) (bin : ByteStore.Bincode) :
    Call → EStateM ByteStore.UbtError (Session (Mdbx.Tables × IndexStore.Tables)) Answer :=
  Calls.performEither (ByteStore.Call.perform libs.mdbx bin) (IndexStore.Call.perform libs.redb)

/-- The bytes hold the typed stores. -/
abbrev Represents (bin : ByteStore.Bincode) (c : Mdbx.Tables × IndexStore.Tables)
    (d : UbtDatabase × KeyIndex) : Prop :=
  ByteStore.Represents bin c.1 d.1 ∧ IndexStore.Represents c.2 d.2

variable {libs : Libraries} {bin : ByteStore.Bincode}

/-- **The two stores follow the typed ones**, whatever calls fail. -/
theorem follows (libs : Libraries) (bin : ByteStore.Bincode) :
    Calls.Follows libs.fault libs.Reports
      (Calls.ownEither (fun db call => ByteStore.Call.Own bin db call)
        fun ki call => IndexStore.Call.Own ki call)
      (Represents bin) (perform libs bin) (apply bin.debugStem) := by
  refine (ByteStore.follows libs.mdbx bin).either (IndexStore.follows libs.redb)
    (fun n h => Option.map_eq_none_iff.mp h) (fun n h => Option.map_eq_none_iff.mp h) ?_ ?_
  · intro n rc e h hr
    obtain ⟨f, hf, rfl⟩ := Option.map_eq_some_iff.mp h
    exact ⟨f, hf, Or.inl hr⟩
  · intro n text e h hr
    obtain ⟨f, hf, rfl⟩ := Option.map_eq_some_iff.mp h
    exact ⟨f, hf, Or.inr hr⟩

/-- `bincode` refused to write something. -/
def NotWritten (e : ByteStore.UbtError) : Prop := ∃ message, e = .serialization message

/-- A call that the typed stores answer fails of its own in `bincode` only. -/
theorem notWritten_of_own {d d' : UbtDatabase × KeyIndex} {call : Call} {a : Answer}
    {e : ByteStore.UbtError} (happly : apply bin.debugStem d call = .ok (a, d'))
    (h : Calls.ownEither (fun db call => ByteStore.Call.Own bin db call)
      (fun ki call => IndexStore.Call.Own ki call) d call e) : NotWritten e := by
  cases call with
  | inl call =>
    have h : call.Own bin d.1 e := h
    rcases h with h | ⟨e', he', -⟩
    · cases call with
      | saveHead head => obtain ⟨-, message, -, he⟩ := h; exact ⟨message, he⟩
      | batchUpdateStems updates => obtain ⟨-, -, -, message, -, he⟩ := h; exact ⟨message, he⟩
      | saveBlockDeltas n deltas => obtain ⟨-, message, -, he⟩ := h; exact ⟨message, he⟩
      | _ => exact h.elim
    · rw [apply, Calls.applyEither, he'] at happly
      cases happly
  | inr call =>
    have h : call.apply d.2 = .error e := h
    rw [apply, Calls.applyEither, h] at happly
    cases happly

/-- **A run of the extension over the bytes of its two files.**  Its writes are calls of
the stores.  Any calls that make them, one after the other, lead to the files of its
last state; and whatever call into MDBX or redb fails first, the two files are left as
they are at one crash point of the run. -/
theorem run_on_bytes (U : Ubt) {ops : List Op} (hops : ∀ op ∈ ops, op.Fits) (s : UbtExEx)
    (hcounts : CountsFit (writesOf (UbtExex.perform U ops) s)) (libs : Libraries)
    (bin : ByteStore.Bincode) :
    (∃ calls, Mirrors bin.debugStem (writesOf (UbtExex.perform U ops) s) calls) ∧
      ∀ calls, Mirrors bin.debugStem (writesOf (UbtExex.perform U ops) s) calls →
        ∀ c, Represents bin c s.toDisk.files →
          Does libs.fault libs.Reports NotWritten
            (Calls.performAll (perform libs bin) calls.reverse) (.closed c)
            (fun _ st => ∃ c', st = .closed c' ∧
              Represents bin c' (UbtExex.perform U ops ⟨s, []⟩).state.exex.toDisk.files)
            (Calls.AtMoment (Represents bin) (fun w : DurableWrite => w.after.files)
              s.toDisk.files (writesOf (UbtExex.perform U ops) s)) := by
  refine ⟨mirrored_perform U hops s hcounts, fun calls hcalls c hc => ?_⟩
  have hlog := logged_perform U ops s
  have hchain := hlog.chained.map Disk.files
  refine ((follows libs bin).performAll notWritten_of_own hcalls hchain hc).mono (fun _ st => ?_)
    (fun _ h => h) (fun _ h => h)
  rintro ⟨c', rfl, hc'⟩
  rw [History.stateAt_map] at hc'
  exact ⟨c', rfl, by rw [hlog.disk]; exact hc'⟩

/-! ### A fixed layout -/

/-- Values one after the other, in rows of one width. -/
def rowsCodec {α : Type} (w : ℕ) (enc : α → Mdbx.Bytes) (dec : Mdbx.Bytes → α) (hw : 0 < w)
    (hlen : ∀ a, (enc a).length = w) (hdec : ∀ a, dec (enc a) = a) :
    ByteStore.Codec (List α) where
  serialize _ l := .ok (l.flatMap enc)
  deserialize bytes := .ok ((Bytes.rows bytes 0 w (bytes.length / w)).map dec)
  deserialize_serialize {moment l bytes} h := by
    obtain rfl := Except.ok.inj h
    have hrows := Bytes.rows_flatMap (l := l) fun a _ => hlen a
    rw [Bytes.length_flatMap_of_width fun a _ => hlen a, Nat.mul_div_cancel_left _ hw, hrows,
      List.map_map]
    exact congrArg _ (List.map_id'' hdec l)

/-- A bit vector is read back from its bytes. -/
theorem ofNat_ofBeBytes {w k : ℕ} (v : BitVec w) (h : 2 ^ w ≤ 256 ^ k) :
    BitVec.ofNat w (Bytes.ofBeBytes (Bytes.beBytes k v.toNat)) = v := by
  rw [Bytes.ofBeBytes_beBytes (Nat.lt_of_lt_of_le v.isLt h), BitVec.ofNat_toNat,
    BitVec.setWidth_eq]

/-- The values of a stem node: a subindex and 32 bytes each. -/
def valuesCodec : ByteStore.Codec (List (UInt8 × B256)) :=
  rowsCodec 33 (fun p => p.1 :: Bytes.beBytes 32 p.2.toNat)
    (fun bytes => (bytes.headD 0, BitVec.ofNat 256 (Bytes.ofBeBytes bytes.tail))) (by decide)
    (fun p => by simp) fun p => by
      simp only [List.headD_cons, List.tail_cons, ofNat_ofBeBytes p.2 (by decide : 2 ^ 256 ≤ 256 ^ 32)]

/-- Deltas: a subindex, a stem and 32 bytes each. -/
def deltasCodec : ByteStore.Codec (List Delta) :=
  rowsCodec 64 (fun d => d.2.1 :: (Bytes.beBytes 31 d.1.toNat ++ Bytes.beBytes 32 d.2.2.toNat))
    (fun bytes => (BitVec.ofNat 248 (Bytes.ofBeBytes (Bytes.field bytes.tail 0 31)), bytes.headD 0,
      BitVec.ofNat 256 (Bytes.ofBeBytes (Bytes.field bytes.tail 31 32)))) (by decide)
    (fun d => by simp) fun d => by
      have hstem := ofNat_ofBeBytes d.1 (by decide : 2 ^ 248 ≤ 256 ^ 31)
      have hvalue := ofNat_ofBeBytes d.2.2 (by decide : 2 ^ 256 ≤ 256 ^ 32)
      simp only [List.headD_cons, List.tail_cons]
      rw [Bytes.field_zero (by simp), Bytes.field_append (by simp), Bytes.length_beBytes,
        Nat.sub_self, Bytes.field_all (by simp), hstem, hvalue]

/-- The node with the given values. -/
def nodeOf (values : List (UInt8 × B256)) : StemNode :=
  values.foldl (fun node p => node.setValue p.1 p.2) .new

theorem nodeOf_values (node : StemNode) : nodeOf node.values.toList = node := by
  have hfold : ∀ (l : List (UInt8 × B256)) (n : StemNode), (∀ p ∈ l, p.2 ≠ 0) →
      (l.foldl (fun node p => node.setValue p.1 p.2) n).values = Tables.insertAll n.values l := by
    intro l
    induction l with
    | nil => intro n _; rfl
    | cons p l ih =>
      intro n hl
      obtain ⟨hp, hl⟩ := List.forall_mem_cons.mp hl
      have hset : (n.setValue p.1 p.2).values = n.values.insert p.1 p.2 := by
        unfold StemNode.setValue
        rw [dif_neg hp]
      rw [List.foldl_cons, ih _ hl, hset, Tables.insertAll_cons]
  have hne : ∀ p ∈ node.values.toList, p.2 ≠ 0 := by
    intro p hp hzero
    rw [ExtTreeMap.mem_toList_iff_getElem?_eq_some, hzero] at hp
    exact node.values_ne_zero p.1 hp
  refine StemNode.ext_values (ExtTreeMap.ext_getElem? fun i => ?_)
  rw [nodeOf, hfold _ _ hne, Tables.getElem?_insertAll_toList]
  simp [StemNode.new]

/-- A head as a row of the key index; numbers of more than 64 bits are refused. -/
def headCodec : ByteStore.Codec UbtHead where
  serialize _ head :=
    if head.blockNumber < 2 ^ 64 ∧ head.stemCount < 2 ^ 64 then
      .ok (IndexStore.packHead head.blockNumber head.blockHash head.root head.stemCount).toList
    else .error "out of range"
  deserialize bytes :=
    if h : bytes.length = 80 then
      match IndexStore.unpackHead ⟨bytes.toArray, h⟩ with
      | .ok head => .ok ⟨head.blockNumber, head.blockHash, head.root, head.stemCount⟩
      | .error _ => .error "invalid head"
    else .error "invalid length"
  deserialize_serialize {moment head bytes} h := by
    split at h
    · next hfits =>
      obtain rfl := Except.ok.inj h
      rw [dif_pos (by simp)]
      have hread : IndexStore.unpackHead
          (IndexStore.packHead head.blockNumber head.blockHash head.root head.stemCount) =
            .ok ⟨head.blockNumber, head.blockHash, head.root, head.stemCount⟩ :=
        IndexStore.unpackHead_packHead hfits.1 hfits.2
      have hbytes : ∀ (v : Vector UInt8 80) (h : v.toList.toArray.size = 80),
          (⟨v.toList.toArray, h⟩ : Vector UInt8 80) = v := fun _ _ => rfl
      rw [hbytes, hread]
    · cases h

/-- Every row in its fixed layout. -/
def fixedLayout : ByteStore.Bincode where
  head := headCodec
  stemNode :=
    { serialize := fun moment node => valuesCodec.serialize moment node.values.toList
      deserialize := fun bytes => (valuesCodec.deserialize bytes).map nodeOf
      deserialize_serialize := fun {moment node bytes} h => by
        rw [valuesCodec.deserialize_serialize h]
        exact congrArg _ (nodeOf_values node) }
  deltas := deltasCodec
  debugStem _ := "Stem"

/-- A call into either library that fails from the fifth on. -/
def failingLibraries : Libraries where
  fault n := if n < 5 then none else some (-30792, "I/O error")
  fault_ne {n f} h := by
    split at h
    · cases h
    · obtain rfl := Option.some.inj h
      decide
  strerror _ := none

/-- Two commits that flush, over two new files. -/
theorem run_on_bytes_two_commits :
    ∃ calls c, Mirrors fixedLayout.debugStem crashWrites calls ∧
      Does failingLibraries.fault failingLibraries.Reports NotWritten
        (Calls.performAll (perform failingLibraries fixedLayout) calls.reverse) (.closed c)
        (fun _ st => ∃ c', st = .closed c' ∧ Represents fixedLayout c' (UbtExex.perform sampleUbt
          crashOps ⟨(Machine.fresh ⟨1, 10⟩).exex, []⟩).state.exex.toDisk.files)
        (Calls.AtMoment (Represents fixedLayout) (fun w : DurableWrite => w.after.files)
          (Machine.fresh ⟨1, 10⟩).exex.toDisk.files crashWrites) := by
  have hcounts : CountsFit crashWrites := by
    unfold CountsFit
    decide +kernel
  have hops : ∀ op ∈ crashOps, op.Fits := by
    intro op hop
    rcases List.mem_pair.mp hop with rfl | rfl
    · exact (by decide : 1 < 2 ^ 64)
    · exact (by decide : 2 < 2 ^ 64)
  obtain ⟨⟨calls, hcalls⟩, hdoes⟩ :=
    run_on_bytes sampleUbt hops _ hcounts failingLibraries fixedLayout
  have hnew : Represents fixedLayout (ByteStore.createAll ByteStore.tableNames ∅, .empty)
      (Machine.fresh ⟨1, 10⟩).exex.toDisk.files :=
    ⟨ByteStore.Created.represents (Or.inl ⟨rfl, rfl⟩), IndexStore.represents_empty⟩
  exact ⟨calls, _, hcalls, hdoes calls hcalls _ hnew⟩

end Stores

end UbtExex
