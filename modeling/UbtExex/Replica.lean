import UbtExex.Incremental
import UbtExex.Resume
import UbtExex.Retention
import UbtExex.Rpc
import UbtExex.TwoExports

/-!
# A client that follows the exports

A client bootstraps from a state file and then asks for delta files, in requests of any
size, between the commits and the reverts of the node.  A delta file has the values at
the head, also if it covers the changes of older blocks only; so what the client holds
is the state of the last head it was shown, but for keys that changed above the blocks
it has asked for.

A call opens NOMT and the key index anew, and may find them locked by the node or by another
call: it is then refused, and nothing is lost.

## Main definitions

* `Replica` — what a client knows, and what it makes of a file.
* `Feed`, `FeedStep` — a node, the files of its clients and a client.
* `Ledger.Changed`, `Replica.Tracks` — which keys of a replica are up to date.
* `FeedKept` — the condition on a step, before it is made.

## Main results

* `Replica.Tracks.exported`, `Replica.Tracks.extended` — one file.
* `feed_step` — one step of the node or of the client.
* `replica_follows` — **in every run that meets the conditions, a client that has asked
  for all blocks up to the head it was shown holds exactly the state of that block.**
-/

open Std

namespace UbtExex

/-! ### Clients -/

/-- The records of a file are written over values. -/
def putRecords (σ : KeyPath → B256) (entries : List StorageEntry) : KeyPath → B256 :=
  Writes.applyAll σ (entries.map fun e => (e.treeIndex, e.value))

/-- What a client knows. -/
structure Replica where
  /-- The last of the blocks whose changes it has asked for. -/
  number : ℕ
  /-- The block in the header of the last file. -/
  head : ℕ × B256
  values : KeyPath → B256

namespace Replica

/-- A client starts from a state file. -/
def ofState (header : StateHeader) (entries : List StorageEntry) : Replica where
  number := header.blockNumber
  head := (header.blockNumber, header.blockHash)
  values := putRecords (fun _ => 0) entries

/-- A client goes on with a delta file that leaves no block out and takes it back neither
by its range nor by its head. -/
def extend (r : Replica) (fromBlock toBlock : ℕ) (header : StateHeader)
    (entries : List StorageEntry) : Replica :=
  if fromBlock ≤ r.number + 1 ∧ r.number ≤ toBlock ∧ r.head.1 ≤ header.blockNumber then
    ⟨toBlock, (header.blockNumber, header.blockHash), putRecords r.values entries⟩
  else r

end Replica

/-- A file that a reply names, as a client reads it. -/
def fetch (files : String → Dir) (outputPath : String) (file : FileName) :
    Option (StateHeader × List StorageEntry) :=
  (files outputPath file).bind decodeState

/-- What a client makes of a reply: it has no use for the state of one contract, and
without a state a delta file is of no use to it. -/
def receive (client : Option Replica) (files : String → Dir) : Request → Reply → Option Replica
  | .exportState params, .exported res =>
    match fetch files params.outputPath res.stateFile with
    | some (header, entries) => some (.ofState header entries)
    | none => client
  | .getStateDelta params, .delta res =>
    match fetch files params.outputPath res.deltaFile with
    | some (header, entries) =>
      client.map fun r => r.extend params.fromBlock params.toBlock header entries
    | none => client
  | _, _ => client

/-! ### Runs of a node and a client -/

/-- A node, the directories of its clients, and one of them. -/
structure Feed where
  node : Tracked
  files : String → Dir
  client : Option Replica

/-- A call between two operations of the node, in which the stores are opened as scheduled. -/
def Feed.ask (rpc : UbtRpc) (s : Feed) (req : Request) (opens : ℕ → Option String) : Feed :=
  match rpc.answer req (.over s.node.machine.exex.toDisk s.files opens) with
  | .ok reply env => ⟨s.node, env.files, receive s.client env.files req reply⟩
  | .error _ env => ⟨s.node, env.files, s.client⟩

/-- What happens next. -/
inductive FeedEvent
  /-- The node commits a block or reverts some. -/
  | node (e : Event)
  /-- The client makes a call; each store that it needs opens, or fails to open. -/
  | ask (req : Request) (opens : ℕ → Option String)
  /-- The client drops what it has. -/
  | forget

/-- One step of the node, whose NOMT has a limited log, or of the client. -/
inductive FeedStep (U : Ubt) (rpc : UbtRpc) (limit : Option ℕ) (base : ℕ × B256) :
    Feed → FeedEvent → Feed → Prop
  | node {t t' : Tracked} {files : String → Dir} {client : Option Replica} {e : Event}
      (hstep : LoggedStep U limit base t e t') :
      FeedStep U rpc limit base ⟨t, files, client⟩ (.node e) ⟨t', files, client⟩
  | ask (s : Feed) (req : Request) (opens : ℕ → Option String) :
      FeedStep U rpc limit base s (.ask req opens) (s.ask rpc req opens)
  | forget (s : Feed) : FeedStep U rpc limit base s .forget ⟨s.node, s.files, none⟩

/-! ### What a client holds -/

/-- The key is in the undo log of a commit above `n`, up to `n'`. -/
def Ledger.Changed (L : Ledger) (n n' : ℕ) (key : TreeKey) : Prop :=
  ∃ c ∈ L, (∃ b ∈ c.blocks, n < b.block.number ∧ b.block.number ≤ n') ∧
    ∃ d ∈ c.undo, (deltaWrite d).1 = key

/-- The client was shown a canonical block, and its values are those of that block, but
for keys that changed above the blocks it has asked for. -/
structure Replica.Tracks (base : ℕ × B256) (σ₀ : TreeKey → B256) (L : Ledger) (r : Replica) :
    Prop where
  le : r.number ≤ r.head.1
  block : ∃ k, r.head = tipOf base (L.blocks.drop k) ∧ ∀ key : TreeKey,
    key.path ≠ nomtHeadKey → ¬L.Changed r.number r.head.1 key →
      r.values key.path = stateAfter σ₀ (L.blocks.drop k) key

variable {U : Ubt} {base : ℕ × B256} {σ₀ : TreeKey → B256} {own : Stem → Address}
  {limit : Option ℕ}

/-- A block that is not above the tip of a chain is one of its blocks. -/
theorem Linked.exists_drop {bs : List CanonicalBlock} (hl : Linked base bs) {j k : ℕ}
    (hle : (tipOf base (bs.drop k)).1 ≤ (tipOf base (bs.drop j)).1) :
    ∃ i, bs.drop k = (bs.drop j).drop i := by
  have hk := (hl.drop k).tip_eq
  have hj := (hl.drop j).tip_eq
  rw [List.length_drop] at hk hj
  rcases Nat.le_total j k with hjk | hkj
  · exact ⟨k - j, by rw [List.drop_drop, Nat.add_sub_cancel' hjk]⟩
  · -- the two chains have as many blocks
    refine ⟨0, ?_⟩
    rcases Nat.eq_or_lt_of_le hkj with rfl | hlt
    · rfl
    · rw [List.drop_zero, List.drop_eq_nil_of_le (by omega), List.drop_eq_nil_of_le (by omega)]

namespace Ledger

/-- A key whose value is not that of an older block is in the undo log of a commit since. -/
theorem mem_undo_of_changed_since {L : Ledger} {key : TreeKey} (h : L.Undoable σ₀) (j : ℕ)
    (hchanged : stateAfter σ₀ L.blocks key ≠ stateAfter σ₀ (blocks (L.drop j)) key) :
    ∃ c ∈ L.take j, ∃ d ∈ c.undo, (deltaWrite d).1 = key := by
  induction L generalizing j with
  | nil => simp at hchanged
  | cons c L ih =>
    obtain ⟨-, hundo, hL⟩ := h
    cases j with
    | zero => exact absurd rfl hchanged
    | succ j =>
      rw [List.drop_succ_cons] at hchanged
      by_cases hbelow : stateAfter σ₀ (blocks L) key = stateAfter σ₀ (blocks (L.drop j)) key
      · -- this commit changed the value
        by_contra hnone
        simp only [List.take_succ_cons, List.mem_cons, not_exists, not_and] at hnone
        apply hchanged
        rw [← hbelow, ← hundo, Writes.applyAll_of_forall_ne]
        · rfl
        · intro w hw
          obtain ⟨d, hd, rfl⟩ := List.mem_map.mp hw
          exact hnone c (Or.inl rfl) d (List.mem_reverse.mp hd)
      · obtain ⟨c', hc', hd⟩ := ih hL j hbelow
        exact ⟨c', List.mem_cons_of_mem _ hc', hd⟩

/-- The blocks of the newest commits are above those of the others. -/
theorem number_of_mem_take {L : Ledger} (hl : Linked base L.blocks) {j : ℕ} {c : LedgerEntry}
    (hc : c ∈ L.take j) {b : CanonicalBlock} (hb : b ∈ c.blocks) :
    (tipOf base (blocks (L.drop j))).1 < b.block.number ∧
      b.block.number ≤ (tipOf base L.blocks).1 := by
  have hsplit : L.blocks = blocks (L.take j) ++ blocks (L.drop j) := by
    unfold blocks
    rw [← List.flatMap_append, List.take_append_drop]
  have hmem : b ∈ L.blocks :=
    List.mem_flatMap.mpr ⟨c, List.mem_of_mem_take hc, hb⟩
  refine ⟨?_, (hl.base_lt hmem).2⟩
  rw [hsplit] at hl
  exact ((linked_append.mp hl).2.base_lt (List.mem_flatMap.mpr ⟨c, hc, hb⟩)).1

theorem Changed.mono {L : Ledger} {n n₁ n₂ : ℕ} {key : TreeKey} (h : L.Changed n n₁ key)
    (hle : n₁ ≤ n₂) : L.Changed n n₂ key := by
  obtain ⟨c, hc, ⟨b, hb, hlt, hn⟩, hd⟩ := h
  exact ⟨c, hc, ⟨b, hb, hlt, Nat.le_trans hn hle⟩, hd⟩

/-- A change up to the tip of the older commits is in one of them. -/
theorem Changed.drop {L : Ledger} {n n' j : ℕ} {key : TreeKey} (h : L.Changed n n' key)
    (hl : Linked base L.blocks) (hle : n' ≤ (tipOf base (blocks (L.drop j))).1) :
    Changed (L.drop j) n n' key := by
  obtain ⟨c, hc, ⟨b, hb, hlt, hn⟩, hd⟩ := h
  refine ⟨c, ?_, ⟨b, hb, hlt, hn⟩, hd⟩
  rw [← List.take_append_drop j L] at hc
  rcases List.mem_append.mp hc with htake | hdrop
  · have habove := (number_of_mem_take hl htake hb).1
    omega
  · exact hdrop

end Ledger

/-! ### Operations of the node -/

/-- What holds of a node between its operations. -/
structure NodeSound (U : Ubt) (own : Stem → Address) (limit : Option ℕ) (base : ℕ × B256)
    (σ₀ : TreeKey → B256) (retention : ℕ) (t : Tracked) : Prop where
  anchored : Anchored U base σ₀ t
  gated : Gated base σ₀ t
  retaining : Retaining base retention t
  sound : Sound own t.machine
  unforgotten : Unforgotten limit t

/-- The condition on an operation: the entries of a commit have one address for each stem
and keep the gate sound, and a revert finds the rows of its blocks and stays within NOMT's
log. -/
def NodeKept (own : Stem → Address) (limit : Option ℕ) (t : Tracked) : Event → Prop
  | .commit bs es => OwnedEntries own es ∧ GateKept t (.commit bs es)
  | .revert old => RowsFound t (.revert old) ∧ LogHolds limit t (.revert old)

variable {R : ℕ}

/-- An operation keeps the addresses of the stems. -/
theorem Sound.single {t t' : Tracked} {e : Event} (h : Sound own t.machine)
    (hown : ∀ bs es, e = .commit bs es → OwnedEntries own es) (hstep : SingleStep U base t e t') :
    Sound own t'.machine := by
  obtain ⟨-, hstep⟩ := hstep
  cases hstep with
  | @commit m m' L hi b bs es root hlink hwrites hrun =>
    have hop : (Op.commit b.block.number b.block.hash es).Owned own := hown _ es rfl
    have hkeeps := keeps_run U hop m h
    rw [Op.state_commit, hrun] at hkeeps
    exact hkeeps
  | @revert m m' L hi old hold hrun =>
    have hkeeps := keeps_revert U old m h
    rw [hrun] at hkeeps
    exact hkeeps

theorem NodeSound.step {t t' : Tracked} {e : Event} (h : NodeSound U own limit base σ₀ R t)
    (hkept : NodeKept own limit t e) (hstep : LoggedStep U limit base t e t') :
    NodeSound U own limit base σ₀ R t' := by
  have hrows : RowsFound t e := by
    cases e with
    | commit bs es => trivial
    | revert old => exact hkept.1
  have hgate : GateKept t e := by
    cases e with
    | commit bs es => exact hkept.2
    | revert old => trivial
  have hlog : LogHolds limit t e := by
    cases e with
    | commit bs es => exact fun _ => trivial
    | revert old => exact hkept.2
  have hown : ∀ bs es, e = .commit bs es → OwnedEntries own es := by
    rintro bs es rfl
    exact hkept.1
  obtain ⟨hanchored, hunforgotten⟩ := h.anchored.logged h.unforgotten hrows hlog hstep
  have hgated := h.gated.logged h.unforgotten hgate hlog hstep
  obtain ⟨t₁, hstep, rfl⟩ := hstep
  have hretaining := rowsKept_step h.retaining hstep
  have hsound := h.sound.single hown hstep
  exact ⟨hanchored, hgated, hretaining.limitLog limit, hsound.limitLog limit, hunforgotten⟩

namespace Replica.Tracks

variable {r : Replica} {L : Ledger}

/-- A commit leaves the client where it is. -/
theorem commit (h : r.Tracks base σ₀ L) {c : LedgerEntry} (hc : c.blocks.length = 1) :
    r.Tracks base σ₀ (c :: L) := by
  obtain ⟨k, htip, hvalues⟩ := h.block
  obtain ⟨b, hb⟩ := List.length_eq_one_iff.mp hc
  have hdrop : (Ledger.blocks (c :: L)).drop (k + 1) = L.blocks.drop k := by
    rw [Ledger.blocks_cons, hb]
    rfl
  refine ⟨h.le, k + 1, by rw [hdrop]; exact htip, fun key hkey hstays => ?_⟩
  rw [hdrop]
  refine hvalues key hkey fun hchanged => hstays ?_
  obtain ⟨c', hc', hd⟩ := hchanged
  exact ⟨c', List.mem_cons_of_mem c hc', hd⟩

/-- So does a revert of blocks above the one the client was shown. -/
theorem drop (h : r.Tracks base σ₀ L) (hl : Linked base L.blocks)
    (hone : ∀ c ∈ L, c.blocks.length = 1) {j : ℕ}
    (hle : r.head.1 ≤ (tipOf base (L.blocks.drop j)).1) : r.Tracks base σ₀ (L.drop j) := by
  obtain ⟨k, htip, hvalues⟩ := h.block
  rw [htip] at hle
  obtain ⟨i, hi⟩ := hl.exists_drop hle
  have hdrop : (Ledger.blocks (L.drop j)).drop i = L.blocks.drop k := by
    rw [Ledger.blocks_drop hone, hi]
  refine ⟨h.le, i, by rw [hdrop]; exact htip, fun key hkey hstays => ?_⟩
  rw [hdrop]
  refine hvalues key hkey fun hchanged => hstays (hchanged.drop hl ?_)
  rw [Ledger.blocks_drop hone, htip]
  exact hle

end Replica.Tracks

/-! ### Files -/

theorem putRecords_of_mem {σ : KeyPath → B256} {entries : List StorageEntry} {path : KeyPath}
    {v : B256} (hmem : ∃ e ∈ entries, e.treeIndex = path)
    (hsame : ∀ e ∈ entries, e.treeIndex = path → e.value = v) : putRecords σ entries path = v := by
  unfold putRecords
  rw [Writes.applyAll_eq_lastWrite]
  cases hlast : Writes.lastWrite (entries.map fun e => (e.treeIndex, e.value)) path with
  | none =>
    obtain ⟨e, he, hpath⟩ := hmem
    exact absurd hpath (Writes.lastWrite_eq_none.mp hlast _ (List.mem_map_of_mem he))
  | some w =>
    obtain ⟨e, he, heq⟩ := List.mem_map.mp (Writes.mem_of_lastWrite hlast)
    injection heq with hpath hvalue
    rw [Option.getD_some, ← hvalue]
    exact hsame e he hpath

theorem putRecords_of_not_mem {σ : KeyPath → B256} {entries : List StorageEntry} {path : KeyPath}
    (h : ∀ e ∈ entries, e.treeIndex ≠ path) : putRecords σ entries path = σ path := by
  refine Writes.applyAll_of_forall_ne fun w hw => ?_
  obtain ⟨e, he, rfl⟩ := List.mem_map.mp hw
  exact h e he

theorem fetch_eq {files : String → Dir} {outputPath : String} {file : FileName} {dir : Dir}
    {chainId : ℕ} {block : ℕ × B256} {entries : List StorageEntry}
    (hfile : dir file = some (stateBytes chainId block entries))
    (hfits : FitsU64 chainId block entries.length) :
    fetch (Function.update files outputPath dir) outputPath file =
      some (StateHeader.new entries.length block.1 chainId block.2, entries) := by
  unfold fetch
  rw [Function.update_self, hfile, Option.bind_some]
  exact decodeState_stateBytes hfits.count hfits.block hfits.chainId

/-- The records that a state file has for the stores. -/
def stateEntries (d : Disk) : List StorageEntry := exportedEntries (nomtStems (fun _ => true) d)

/-- The records that a delta file has for the stores. -/
def rangeEntries (db : UbtDatabase) (fromBlock toBlock : ℕ) : List StorageEntry :=
  (deltaKeys db fromBlock toBlock).map (deltaEntry db)

/-- The records of a state file give every key its value in NOMT, if all keys that do not
hold zero are registered. -/
theorem putRecords_stateEntries {d : Disk} {key : TreeKey}
    (hbit : d.keyIndex.bit key = false → d.nomt.current.value key = 0) :
    putRecords (fun _ => 0) (stateEntries d) key.path = d.nomt.current.value key := by
  cases hkey : d.keyIndex.bit key with
  | true =>
    obtain ⟨address, haddress⟩ := KeyIndex.address_of_bit hkey
    refine putRecords_of_mem ⟨_, mem_exportedEntries_nomt.mpr ⟨key, address, hkey, haddress, rfl⟩,
      rfl⟩ fun e he hpath => ?_
    obtain ⟨key', address', -, -, rfl⟩ := mem_exportedEntries_nomt.mp he
    rw [TreeKey.path_injective hpath]
  | false =>
    rw [hbit hkey]
    refine putRecords_of_not_mem fun e he hpath => ?_
    obtain ⟨key', address', hkey', -, rfl⟩ := mem_exportedEntries_nomt.mp he
    rw [TreeKey.path_injective hpath, hkey] at hkey'
    cases hkey'

/-- The records of a delta file give the keys that changed the values stored. -/
theorem putRecords_rangeEntries (σ : KeyPath → B256) (db : UbtDatabase) (fromBlock toBlock : ℕ)
    (key : TreeKey) : putRecords σ (rangeEntries db fromBlock toBlock) key.path =
      if key ∈ deltaKeys db fromBlock toBlock then db.value key else σ key.path := by
  split
  · next hmem =>
    refine putRecords_of_mem ⟨_, List.mem_map_of_mem hmem, rfl⟩ fun e he hpath => ?_
    obtain ⟨key', -, rfl⟩ := List.mem_map.mp he
    have hsame : key' = key := TreeKey.path_injective hpath
    rw [hsame]
    rfl
  · next hmem =>
    refine putRecords_of_not_mem fun e he hpath => hmem ?_
    obtain ⟨key', hkey', rfl⟩ := List.mem_map.mp he
    have hsame : key' = key := TreeKey.path_injective hpath
    exact hsame ▸ hkey'

/-! ### Calls of the client -/

section Calls

variable {rpc : UbtRpc} {t : Tracked} {files : String → Dir} {opens : ℕ → Option String}
  {env : RpcEnv}

/-- **A state file that `export_state` replies with is the state of the tip.** -/
theorem NodeSound.exported (h : NodeSound U own limit base σ₀ R t) {params : ExportStateParams}
    {res : ExportResult}
    (hok : rpc.exportState params (.over t.machine.exex.toDisk files opens) = .ok res env)
    (hfits : ∀ head, t.machine.exex.keyIndex.loadHead = some head →
      FitsU64 (params.chainId.getD rpc.defaultChainId) (head.blockNumber, head.blockHash)
        (stateEntries t.machine.exex.toDisk).length) :
    ∃ header entries, fetch env.files params.outputPath res.stateFile = some (header, entries) ∧
      (Replica.ofState header entries).Tracks base σ₀ t.ledger := by
  obtain ⟨-, hgate, e, hexport, rfl⟩ := UbtRpc.exportState_ok_iff.mp hok
  obtain ⟨head, hload, htip, hnomt, -⟩ := h.gated.gateSound _ _ hgate
  obtain ⟨head', hload', -, -, rfl, rfl⟩ := exportFromNomt_ok_iff.mp hexport
  obtain rfl := Option.some.inj (hload.symm.trans hload')
  refine ⟨_, _, fetch_eq (dir_putExport_state (by simp)) (hfits head hload), ⟨Nat.le_refl _, 0,
    htip, fun key hkey _ => ?_⟩⟩
  have hlogical := h.anchored.logical
  have hvalue := hnomt.value key hkey
  refine (putRecords_stateEntries fun hbit => ?_).trans hvalue
  -- a key that does not hold zero is registered
  by_contra hne
  have hstate : t.machine.exex.logical key ≠ 0 := by
    rw [hlogical, ← hvalue]
    exact hne
  have hregistered := h.sound.held.overlay key hstate
  exact absurd (hregistered.symm.trans hbit) (by decide)

/-- The file that `get_state_delta` replies with. -/
theorem delta_reply {d : Disk} {params : GetStateDeltaParams} {res : StateDeltaResult}
    (hok : rpc.getStateDelta params (.over d files opens) = .ok res env) :
    ∃ head, d.db.loadHead = some head ∧ params.toBlock ≤ head.blockNumber ∧
      head.blockNumber ≤ params.fromBlock + rpc.deltaRetention ∧
      (FitsU64 (params.chainId.getD rpc.defaultChainId) (head.blockNumber, head.blockHash)
          (rangeEntries d.db params.fromBlock params.toBlock).length →
        fetch env.files params.outputPath res.deltaFile =
          some (StateHeader.new (rangeEntries d.db params.fromBlock params.toBlock).length
            head.blockNumber (params.chainId.getD rpc.defaultChainId) head.blockHash,
            rangeEntries d.db params.fromBlock params.toBlock)) := by
  obtain ⟨-, -, e, hexport, rfl⟩ := UbtRpc.getStateDelta_ok_iff.mp hok
  obtain ⟨head, hload, -, hto, hmin, -, rfl, rfl⟩ := getStateDelta_fixed_ok_iff.mp hexport
  refine ⟨head, hload, hto, by omega, fun hfits => ?_⟩
  refine @fetch_eq _ _ _ _ _ (head.blockNumber, head.blockHash) _ ?_ hfits
  rw [ExportEnv.dir_put]
  exact if_pos rfl

/-- **A delta file takes a client on to the stored head**, but for keys that changed above
the range of the file. -/
theorem NodeSound.extended (h : NodeSound U own limit base σ₀ R t) {r : Replica}
    (hr : r.Tracks base σ₀ t.ledger) {fromBlock toBlock : ℕ} {head : UbtHead}
    (hload : t.machine.exex.db.loadHead = some head) (hto : toBlock ≤ head.blockNumber)
    (hwindow : t.highest ≤ fromBlock + R) (hfrom : fromBlock ≤ r.number + 1)
    (hshown : r.head.1 ≤ head.blockNumber) :
    (⟨toBlock, (head.blockNumber, head.blockHash),
      putRecords r.values (rangeEntries t.machine.exex.db fromBlock toBlock)⟩ : Replica).Tracks
        base σ₀ t.ledger := by
  have hlinked := h.anchored.linked
  have hone := h.anchored.single
  obtain ⟨k₀, htip₀, hstored⟩ := h.anchored.saved
  rw [headTip_of_head hload] at htip₀
  refine ⟨hto, k₀, htip₀, fun key hkey hstays => ?_⟩
  change putRecords _ _ _ = _
  rw [putRecords_rangeEntries]
  split
  · rw [hstored]
  · next hmissing =>
    -- the key is in no undo log above the blocks that the client has asked for
    have hquiet : ¬t.ledger.Changed r.number head.blockNumber key := by
      intro ⟨c, hc, ⟨b, hb, hlt, hle⟩, d, hd, hdkey⟩
      by_cases hrange : toBlock < b.block.number
      · exact hstays ⟨c, hc, ⟨b, hb, hrange, hle⟩, d, hd, hdkey⟩
      · have hwin : t.highest ≤ b.block.number + t.machine.exex.deltaRetention := by
          rw [h.retaining.retention]
          omega
        have hrow := h.retaining.kept c hc (List.ne_nil_of_mem hd) b hb hwin
        refine hmissing (mem_deltaKeys.mpr ⟨b.block.number, by omega, by omega, d, ?_, hdkey⟩)
        rw [hrow]
        exact hd
    obtain ⟨k, htip, hvalues⟩ := hr.block
    rw [hvalues key hkey fun hchanged => hquiet (hchanged.mono hshown)]
    -- so it did not change between the two heads
    have hle : (tipOf base (t.ledger.blocks.drop k)).1 ≤
        (tipOf base (t.ledger.blocks.drop k₀)).1 := by
      rw [← htip, ← htip₀]
      exact hshown
    obtain ⟨i, hi⟩ := hlinked.exists_drop hle
    by_contra hne
    have hundo := h.anchored.undoable.drop k₀
    have hblocks : Ledger.blocks ((t.ledger.drop k₀).drop i) = t.ledger.blocks.drop k := by
      rw [Ledger.blocks_drop (fun c hc => hone c (List.mem_of_mem_drop hc)),
        Ledger.blocks_drop hone, hi]
    have hchanged : stateAfter σ₀ (Ledger.blocks (t.ledger.drop k₀)) key ≠
        stateAfter σ₀ (Ledger.blocks ((t.ledger.drop k₀).drop i)) key := by
      rw [hblocks, Ledger.blocks_drop hone]
      exact Ne.symm hne
    obtain ⟨c, hc, d, hd, hdkey⟩ := Ledger.mem_undo_of_changed_since hundo i hchanged
    have hcL : c ∈ t.ledger := List.mem_of_mem_drop (List.mem_of_mem_take hc)
    obtain ⟨b, hb⟩ := List.length_eq_one_iff.mp (hone c hcL)
    have hbc : b ∈ c.blocks := hb ▸ List.mem_singleton_self b
    have hlinked₀ : Linked base (Ledger.blocks (t.ledger.drop k₀)) := by
      rw [Ledger.blocks_drop hone]
      exact hlinked.drop k₀
    have hbetween := Ledger.number_of_mem_take hlinked₀ hc hbc
    rw [hblocks, Ledger.blocks_drop hone, ← htip, ← htip₀] at hbetween
    refine hquiet ⟨c, hcL, ⟨b, hbc, ?_, hbetween.2⟩, d, hd, hdkey⟩
    exact Nat.lt_of_le_of_lt hr.le hbetween.1

end Calls

/-! ### One step -/

/-- The client, if it has a state, tracks the ledger of the node. -/
def ClientSound (base : ℕ × B256) (σ₀ : TreeKey → B256) (s : Feed) : Prop :=
  ∀ r, s.client = some r → r.Tracks base σ₀ s.node.ledger

/-- The condition on a step: a revert spares the block that the client was shown last, the
counters of a file fit into 64 bits, and as long as the first block of a request for deltas
is in the window of the head, no block was flushed that it was out of the window of. -/
def FeedKept (own : Stem → Address) (limit : Option ℕ) (rpc : UbtRpc) (s : Feed) :
    FeedEvent → Prop
  | .node e => NodeKept own limit s.node e ∧
    ∀ old, e = .revert old → ∀ r, s.client = some r → ∀ b ∈ old.blocks, r.head.1 < b.number
  | .ask (.exportState params) _ => ∀ head, s.node.machine.exex.keyIndex.loadHead = some head →
    FitsU64 (params.chainId.getD rpc.defaultChainId) (head.blockNumber, head.blockHash)
      (stateEntries s.node.machine.exex.toDisk).length
  | .ask (.getStateDelta params) _ => ∀ head, s.node.machine.exex.db.loadHead = some head →
    FitsU64 (params.chainId.getD rpc.defaultChainId) (head.blockNumber, head.blockHash)
        (rangeEntries s.node.machine.exex.db params.fromBlock params.toBlock).length ∧
      (head.blockNumber ≤ params.fromBlock + rpc.deltaRetention →
        s.node.highest ≤ params.fromBlock + rpc.deltaRetention)
  | _ => True

section Steps

variable {rpc : UbtRpc} {s s' : Feed}

/-- An operation of the node leaves a client where it is, unless it reverts its block. -/
theorem ClientSound.node {t t' : Tracked} {files : String → Dir} {client : Option Replica}
    {e : Event} (hc : ClientSound base σ₀ ⟨t, files, client⟩)
    (hn : NodeSound U own limit base σ₀ R t) (hstep : LoggedStep U limit base t e t')
    (hspares : ∀ old, e = .revert old → ∀ r, client = some r → ∀ b ∈ old.blocks,
      r.head.1 < b.number) : ClientSound base σ₀ ⟨t', files, client⟩ := by
  intro r hr
  have htracks : r.Tracks base σ₀ t.ledger := hc r hr
  obtain ⟨t₁, ⟨hsingle, hstep⟩, rfl⟩ := hstep
  cases hstep with
  | @commit m m' L hi b bs es root hlink hwrites hrun => exact htracks.commit hsingle
  | @revert m m' L hi old hold hrun =>
    have hlinked := hn.anchored.linked
    have hone := hn.anchored.single
    have hlength : old.blocks.length ≤ L.blocks.length := by
      have hmap := congrArg List.length hold
      rw [List.length_map, List.length_take, List.length_reverse] at hmap
      omega
    obtain ⟨hdrop, -⟩ := Ledger.dropBlocks_of_touched hlength fun c hc =>
      hone c (Ledger.mem_of_mem_touched c hc)
    change r.Tracks base σ₀ (L.dropBlocks old.blocks.length)
    rw [hdrop]
    have hbelow := hspares old rfl r hr old.first (List.head_mem _)
    refine htracks.drop hlinked hone ?_
    rw [tip_dropped hlinked hold]
    change r.head.1 ≤ old.first.number - 1
    omega

/-- A call is answered, or refused. -/
theorem Feed.ask_cases (rpc : UbtRpc) (s : Feed) (req : Request) (opens : ℕ → Option String) :
    (∃ reply env,
      rpc.answer req (.over s.node.machine.exex.toDisk s.files opens) = .ok reply env ∧
        s.ask rpc req opens = ⟨s.node, env.files, receive s.client env.files req reply⟩) ∨
      ∃ files, s.ask rpc req opens = ⟨s.node, files, s.client⟩ := by
  unfold Feed.ask
  cases rpc.answer req (.over s.node.machine.exex.toDisk s.files opens) with
  | ok reply env => exact .inl ⟨reply, env, rfl, rfl⟩
  | error err env => exact .inr ⟨env.files, rfl⟩

/-- **A call keeps the client on its way**, whatever it asks for. -/
theorem ClientSound.ask (hc : ClientSound base σ₀ s) {req : Request} {opens : ℕ → Option String}
    (hn : NodeSound U own limit base σ₀ R s.node) (hretention : rpc.deltaRetention = R)
    (hkept : FeedKept own limit rpc s (.ask req opens)) :
    ClientSound base σ₀ (s.ask rpc req opens) := by
  subst hretention
  rcases s.ask_cases rpc req opens with ⟨reply, env, hrun, hask⟩ | ⟨files, hask⟩
  · rw [hask]
    intro r hr
    change receive s.client env.files req reply = some r at hr
    change r.Tracks base σ₀ s.node.ledger
    cases req with
    | exportState params =>
      obtain ⟨res, hreply, rfl⟩ := EStateM.map_eq_ok.mp hrun
      obtain ⟨header, entries, hfetch, htracks⟩ := hn.exported hreply hkept
      simp only [receive, hfetch] at hr
      exact Option.some.inj hr ▸ htracks
    | getStateDelta params =>
      obtain ⟨res, hreply, rfl⟩ := EStateM.map_eq_ok.mp hrun
      obtain ⟨head, hload, hto, hmin, hfetch⟩ := delta_reply hreply
      obtain ⟨hfits, hwindow⟩ := hkept head hload
      simp only [receive, hfetch hfits] at hr
      obtain ⟨r₀, hr₀, rfl⟩ := Option.map_eq_some_iff.mp hr
      have htracks := hc r₀ hr₀
      unfold Replica.extend
      split
      · next hgoes =>
        exact hn.extended htracks hload hto (hwindow hmin) hgoes.1 hgoes.2.2
      · exact htracks
    | exportContract params => exact hc r hr
    | getRoot => exact hc r hr
  · rw [hask]
    exact hc

theorem Feed.node_ask (rpc : UbtRpc) (s : Feed) (req : Request) (opens : ℕ → Option String) :
    (s.ask rpc req opens).node = s.node := by
  rcases s.ask_cases rpc req opens with ⟨reply, env, -, hask⟩ | ⟨files, hask⟩
  · rw [hask]
  · rw [hask]

/-- Node and client are sound. -/
structure FeedSound (U : Ubt) (own : Stem → Address) (limit : Option ℕ) (base : ℕ × B256)
    (σ₀ : TreeKey → B256) (retention : ℕ) (s : Feed) : Prop where
  node : NodeSound U own limit base σ₀ retention s.node
  client : ClientSound base σ₀ s

/-- **One step of the node or of the client.** -/
theorem feed_step {e : FeedEvent} (h : FeedSound U own limit base σ₀ R s)
    (hretention : rpc.deltaRetention = R) (hkept : FeedKept own limit rpc s e)
    (hstep : FeedStep U rpc limit base s e s') : FeedSound U own limit base σ₀ R s' := by
  cases hstep with
  | @node t t' files client e hstep =>
    exact ⟨h.node.step hkept.1 hstep, h.client.node h.node hstep hkept.2⟩
  | ask _ req opens =>
    refine ⟨?_, h.client.ask h.node hretention hkept⟩
    rw [s.node_ask rpc req opens]
    exact h.node
  | forget =>
    refine ⟨h.node, ?_⟩
    intro r hr
    cases hr

end Steps

/-! ### What a client has, and whether it is served -/

/-- A client that has asked for all blocks up to the head it was shown has the state of
this canonical block, which is what is stored as long as it is the stored head. -/
def ReplicaExact (base : ℕ × B256) (σ₀ : TreeKey → B256) (s : Feed) : Prop :=
  ∀ r, s.client = some r → r.number = r.head.1 →
    ∃ k, r.head = tipOf base (s.node.ledger.blocks.drop k) ∧
      (∀ key : TreeKey, key.path ≠ nomtHeadKey →
        r.values key.path = stateAfter σ₀ (s.node.ledger.blocks.drop k) key) ∧
      (headNumber s.node.machine.exex.db = r.number →
        headTip s.node.machine.exex.db = r.head ∧ ∀ key : TreeKey, key.path ≠ nomtHeadKey →
          r.values key.path = s.node.machine.exex.db.value key)

/-- Right after a commit that flushes, the changes of all blocks above those that a client
has asked for are handed out if and only if NOMT and the key index open and the first of the
blocks is in the window. -/
def ServedAfterFlush (U : Ubt) (own : Stem → Address) (limit : Option ℕ) (rpc : UbtRpc)
    (base : ℕ × B256) (s : Feed) : Prop :=
  ∀ b es t', LoggedStep U limit base s.node (.commit [b] es) t' → OwnedEntries own es →
    s.node.machine.exex.shouldFlush b.block.number = true → ∀ r, s.client = some r →
      ∀ files outputPath chainId opens, ((∃ reply env, rpc.answer
        (.getStateDelta ⟨r.number + 1, b.block.number, outputPath, chainId⟩)
          (.over t'.machine.exex.toDisk files opens) = .ok reply env) ↔
        (opens 0 = none ∧ opens 1 = none) ∧ b.block.number ≤ r.number + 1 + rpc.deltaRetention)

/-- Blocks of one number are one block of the chain. -/
theorem Linked.drop_eq {bs : List CanonicalBlock} (hl : Linked base bs) {j k : ℕ}
    (heq : (tipOf base (bs.drop k)).1 = (tipOf base (bs.drop j)).1) : bs.drop k = bs.drop j := by
  obtain ⟨i, hi⟩ := hl.exists_drop (Nat.le_of_eq heq)
  have hlength : (bs.drop k).length = (bs.drop j).length := by
    have hk := (hl.drop k).tip_eq
    have hj := (hl.drop j).tip_eq
    omega
  have hzero : i = 0 ∨ bs.drop j = [] := by
    rw [hi, List.length_drop] at hlength
    rcases Nat.eq_zero_or_pos i with rfl | hpos
    · exact .inl rfl
    · exact .inr (List.eq_nil_of_length_eq_zero (by omega))
  rcases hzero with rfl | hnil
  · exact hi
  · rw [hi, hnil, List.drop_nil]

section Results

variable {rpc : UbtRpc} {s : Feed}

theorem FeedSound.exact (h : FeedSound U own limit base σ₀ R s) : ReplicaExact base σ₀ s := by
  intro r hr hall
  have hn := h.node
  obtain ⟨k, htip, hvalues⟩ := (h.client r hr).block
  have hstate : ∀ key : TreeKey, key.path ≠ nomtHeadKey →
      r.values key.path = stateAfter σ₀ (s.node.ledger.blocks.drop k) key := by
    intro key hkey
    refine hvalues key hkey fun hchanged => ?_
    obtain ⟨c, -, ⟨b, -, hlt, hle⟩, -⟩ := hchanged
    omega
  refine ⟨k, htip, hstate, fun hnumber => ?_⟩
  obtain ⟨k₀, htip₀, hstored⟩ := hn.anchored.saved
  have hsame : s.node.ledger.blocks.drop k = s.node.ledger.blocks.drop k₀ := by
    refine hn.anchored.linked.drop_eq ?_
    rw [← htip, ← htip₀]
    exact hall.symm.trans hnumber.symm
  refine ⟨by rw [htip₀, htip, hsame], fun key hkey => ?_⟩
  rw [hstate key hkey, hstored, hsame]

/-- After a commit that flushes all three heads are that of its block. -/
theorem heads_of_flush {t t' : Tracked} {b : CanonicalBlock} {es : List PendingEntry}
    (hstep : LoggedStep U limit base t (.commit [b] es) t')
    (hflush : t.machine.exex.shouldFlush b.block.number = true) :
    t'.machine.exex.nomt.current[nomtHeadKey]? = some (.u64Be b.block.number) ∧
      (∃ head, t'.machine.exex.keyIndex.loadHead = some head ∧
        head.blockNumber = b.block.number) ∧
      ∃ head, t'.machine.exex.db.loadHead = some head ∧ head.blockNumber = b.block.number := by
  obtain ⟨t₁, ⟨-, hstep⟩, rfl⟩ := hstep
  cases hstep with
  | @commit m m' L hi _ _ _ root hlink hwrites hrun =>
    have hcom := commit_ok U hrun
    have hki := keyIndexHead_commit U hrun
    obtain ⟨-, -, -, -, -, count, hhead⟩ := hcom.flushed hflush
    refine ⟨?_, ⟨_, hki.trans (if_pos hflush), rfl⟩, ⟨_, hhead, rfl⟩⟩
    change (m'.exex.nomt.limitTo limit).current[nomtHeadKey]? = _
    rw [Versioned.current_limitTo, hcom.nomt]
    exact NomtMap.read_head_update _ _ _

/-- A client was not shown a block that is still to be committed. -/
theorem Replica.Tracks.lt_of_commit {t t' : Tracked} {r : Replica} {b : CanonicalBlock}
    {es : List PendingEntry} (h : r.Tracks base σ₀ t.ledger) (hl : Linked base t.ledger.blocks)
    (hstep : LoggedStep U limit base t (.commit [b] es) t') : r.number < b.block.number := by
  obtain ⟨k, htip, -⟩ := h.block
  have hshown := h.le
  have hle := hl.tip_drop_le k
  obtain ⟨t₁, ⟨-, hstep⟩, rfl⟩ := hstep
  cases hstep with
  | @commit m m' L hi _ _ _ root hlink hwrites hrun =>
    have hnext : b.block.number = (tipOf base L.blocks).1 + 1 := hlink.1
    have hle : (tipOf base (L.blocks.drop k)).1 ≤ (tipOf base L.blocks).1 := hle
    have hhead : r.head.1 = (tipOf base (L.blocks.drop k)).1 := congrArg Prod.fst htip
    omega

/-- The request for what a client lacks. -/
theorem FeedSound.served (h : FeedSound U own limit base σ₀ R s) :
    ServedAfterFlush U own limit rpc base s := by
  intro b es t' hstep hown hflush r hr files outputPath chainId opens
  have hn := h.node
  have hn' : NodeSound U own limit base σ₀ R t' := by
    refine hn.step (e := .commit [b] es) ⟨hown, fun hno => ?_⟩ hstep
    exact absurd (hflush.symm.trans hno) (by decide)
  have habove := (h.client r hr).lt_of_commit hn.anchored.linked hstep
  obtain ⟨hword, ⟨kihead, hki, hkinumber⟩, head, hload, hnumber⟩ := heads_of_flush hstep hflush
  have hgate : ensureNomtSynced (.over t'.machine.exex.toDisk (files outputPath)) =
      .ok () (.over t'.machine.exex.toDisk (files outputPath)) := by
    refine ensureNomtSynced_ok_iff.mpr ⟨rfl, kihead, hki, fun v hv => ?_, ?_⟩
    · rw [hword] at hv
      cases hv
    · unfold NomtMap.headBlock
      rw [hword, hkinumber]
  constructor
  · intro ⟨reply, env, hok⟩
    obtain ⟨res, hreply, -⟩ := EStateM.map_eq_ok.mp hok
    obtain ⟨hopens, -⟩ := UbtRpc.getStateDelta_ok_iff.mp hreply
    obtain ⟨head', hload', -, hmin, -⟩ := delta_reply hreply
    obtain rfl := Option.some.inj (hload.symm.trans hload')
    rw [← hnumber]
    exact ⟨hopens, hmin⟩
  · intro ⟨hopens, hwindow⟩
    -- the stems of stored deltas have addresses
    have haddress : ∀ key ∈ deltaKeys t'.machine.exex.db (r.number + 1) b.block.number,
        (t'.machine.exex.db.loadStemAddress key.stem).isSome := by
      intro key hkey
      obtain ⟨n, -, -, d, hd, rfl⟩ := mem_deltaKeys.mp hkey
      have hwritable := hn'.sound.held.deltas n d hd
      have hstem := hwritable.stem.address
      rw [Option.isSome_iff_exists]
      exact ⟨_, hstem⟩
    have hexport := (@getStateDelta_fixed_ok_iff (r.number + 1) b.block.number
      (chainId.getD rpc.defaultChainId) rpc.deltaRetention t'.machine.exex.toDisk
      (files outputPath) _ _).mpr
      ⟨head, hload, by omega, by omega, by omega, haddress, rfl, rfl⟩
    have hreply := (@UbtRpc.getStateDelta_ok_iff rpc t'.machine.exex.toDisk files opens _
      ⟨r.number + 1, b.block.number, outputPath, chainId⟩ _).mpr ⟨hopens, hgate, _, hexport, rfl⟩
    exact ⟨_, _, EStateM.map_eq_ok.mpr ⟨_, hreply, rfl⟩⟩

end Results

/-! ### Runs -/

/-- Stores that a node may start over: NOMT and MDBX agree, what is stored is registered,
and the head of the key index is not another block of the same number. -/
structure Startable (own : Stem → Address) (disk : Disk) : Prop extends InSync disk,
    Exportable own disk where
  indexHead : ∀ head, disk.keyIndex.loadHead = some head → head.blockNumber = (headTip disk.db).1 →
    head.blockHash = (headTip disk.db).2

theorem startable_empty (own : Stem → Address) : Startable own .empty where
  toInSync := inSync_empty
  toExportable := exportable_empty own
  indexHead head h := by cases h

theorem NodeSound.start {config : UbtConfig} {disk : Disk} {s : UbtExEx}
    (hnew : UbtExEx.new U config disk = .ok s) (h : Startable own disk) :
    NodeSound U own limit (headTip disk.db) disk.db.value config.deltaRetention
      (.start ⟨s, []⟩) := by
  have hc := Anchored.start hnew h.toInSync
  have hr := restored_of_new hnew
  have htip : Machine.tip ⟨s, []⟩ = headTip disk.db := by
    unfold Machine.tip headTip
    rw [hr.lastBlock, hr.lastHash]
  have hindex := keyIndex_of_new hnew
  have hgated := @Gated.start disk.db.value ⟨s, []⟩ hr.pendingEntries (by
    rw [htip]
    exact hc.nomt.current) fun head hload hnumber => by
      have hload : s.keyIndex.loadHead = some head := hload
      rw [hindex] at hload
      rw [htip] at hnumber ⊢
      exact h.indexHead head hload hnumber
  rw [htip] at hgated
  refine ⟨hc, hgated, ⟨hc.toFollowing, ?_, hr.deltaRetention, ?_⟩,
    h.toExportable.sound_new hnew, .start limit _⟩
  · intro c hc
    cases hc
  · intro c hc
    cases hc

/-- **A client that follows the exports.**  A node starts over stores in sync and commits
and reverts single blocks, and a server is built for it; a client with nothing at first makes
calls of all kinds between its operations, in which the stores open or fail to, and may start
over at any time.  In every run whose steps meet the conditions, a client that has asked for
all blocks up to the head it was shown holds, in every state, exactly the values of that
canonical block, and those that are stored while this is the stored head; and after every
commit that flushes it is served what it lacks if and only if the stores open and that is in
the window. -/
theorem replica_follows {config : UbtConfig} {disk : Disk} {s₀ : UbtExEx}
    {opened : Except UbtError Unit} {chainId : ℕ} {rpc : UbtRpc} {files : String → Dir}
    {h : List (Feed × FeedEvent)} {s : Feed}
    (hnew : UbtExEx.new U config disk = .ok s₀) (hstart : Startable own disk)
    (hrpc : UbtRpc.fromPaths opened chainId config = .ok rpc)
    (hrun : Run (FeedStep U rpc limit (headTip disk.db)) ⟨.start ⟨s₀, []⟩, files, none⟩ h s)
    (hkept : ∀ p ∈ h, FeedKept own limit rpc p.1 p.2) :
    (ReplicaExact (headTip disk.db) disk.db.value s ∧
        ServedAfterFlush U own limit rpc (headTip disk.db) s) ∧
      ∀ p ∈ h, ReplicaExact (headTip disk.db) disk.db.value p.1 ∧
        ServedAfterFlush U own limit rpc (headTip disk.db) p.1 := by
  have hretention : rpc.deltaRetention = config.deltaRetention := by
    cases opened with
    | error e => cases hrpc
    | ok u =>
      cases hrpc
      rfl
  have h₀ : FeedSound U own limit (headTip disk.db) disk.db.value config.deltaRetention
      ⟨.start ⟨s₀, []⟩, files, none⟩ := by
    refine ⟨.start hnew hstart, ?_⟩
    intro r hr
    cases hr
  obtain ⟨hlast, hall⟩ := hrun.invariant h₀
    (fun _ _ _ hs hcond hstep => feed_step hs hretention hcond hstep) hkept
  exact ⟨⟨hlast.exact, hlast.served⟩, fun p hp => ⟨(hall p hp).exact, (hall p hp).served⟩⟩

/-! ### A client that takes a state and a delta -/

theorem slotEntry_owned (value : B256) : OwnedEntries (fun _ => 7) [slotEntry value] := by
  intro e he
  obtain rfl := List.mem_singleton.mp he
  rfl

/-- The endpoints of a node that flushes every block and retains ten rows. -/
def feedRpc : UbtRpc := ⟨1, 10⟩

/-- No store is locked. -/
def unlocked : ℕ → Option String := fun _ => none

/-- The second store to be opened is locked. -/
def secondLocked : ℕ → Option String := fun n => if n = 1 then some "locked" else none

/-- After block 1. -/
def feedFirst : Feed where
  node := (Tracked.start (.fresh ⟨1, 10⟩)).afterCommit sampleUbt (slotBlock block1 1) [slotEntry 1]
  files _ _ := none
  client := none

/-- The client is refused. -/
def feedRefused : Feed := feedFirst.ask feedRpc (.exportState ⟨"out", none⟩) secondLocked

/-- The client has taken the state of block 1. -/
def feedExported : Feed := feedRefused.ask feedRpc (.exportState ⟨"out", none⟩) unlocked

/-- After block 2, which changes the slot. -/
def feedSecond : Feed where
  node := feedFirst.node.afterCommit sampleUbt (slotBlock block2 2) [slotEntry 2]
  files := feedExported.files
  client := feedExported.client

/-- The client has taken the changes of block 2. -/
def feedExtended : Feed := feedSecond.ask feedRpc (.getStateDelta ⟨2, 2, "out", none⟩) unlocked

theorem feedExtended_run : Run (FeedStep sampleUbt feedRpc (some 100) (0, 0))
    ⟨.start (.fresh ⟨1, 10⟩), fun _ _ => none, none⟩
    [(feedSecond, .ask (.getStateDelta ⟨2, 2, "out", none⟩) unlocked),
      (feedExported, .node (.commit [slotBlock block2 2] [slotEntry 2])),
      (feedRefused, .ask (.exportState ⟨"out", none⟩) unlocked),
      (feedFirst, .ask (.exportState ⟨"out", none⟩) secondLocked),
      (⟨.start (.fresh ⟨1, 10⟩), fun _ _ => none, none⟩,
        .node (.commit [slotBlock block1 1] [slotEntry 1]))] feedExtended := by
  have hnode : feedExported.node = feedFirst.node :=
    (feedRefused.node_ask feedRpc _ _).trans (feedFirst.node_ask feedRpc _ _)
  have hexported : feedExported = ⟨feedFirst.node, feedExported.files, feedExported.client⟩ := by
    rw [← hnode]
  have hsecond : FeedStep sampleUbt feedRpc (some 100) (0, 0) feedExported
      (.node (.commit [slotBlock block2 2] [slotEntry 2])) feedSecond := by
    rw [hexported]
    refine .node (.of_short (Tracked.afterCommit_step ⟨rfl, rfl, trivial⟩ (fun _ => rfl) ?_) ?_)
    · decide +kernel
    · decide +kernel
  refine .snoc (.snoc (.snoc (.snoc ?_ (.ask _ _ _)) (.ask _ _ _)) hsecond) (.ask _ _ _)
  refine .snoc .nil (.node (.of_short ?_ ?_))
  · refine Tracked.afterCommit_step ⟨rfl, rfl, trivial⟩ (fun _ => rfl) ?_
    decide +kernel
  · decide +kernel

/-- The client has what is stored after block 2, and it is served after block 3. -/
theorem replica_follows_extended :
    (feedExtended.client.map fun r => (r.number, r.head, r.values (slotKey 7 1).path)) =
        some (2, (2, 12), 2) ∧
      ReplicaExact (0, 0) Disk.empty.db.value feedExtended ∧
        ServedAfterFlush sampleUbt (fun _ => 7) (some 100) feedRpc (0, 0) feedExtended := by
  have hresult := @replica_follows sampleUbt (fun _ => 7) (some 100) ⟨1, 10⟩ .empty _ (.ok ()) 1
    feedRpc _ _ _ (UbtExEx.new_empty sampleUbt _) (startable_empty _) rfl feedExtended_run ?_
  · exact ⟨by decide +kernel, hresult.1⟩
  · have hcommit : ∀ (s : Feed) (b : CanonicalBlock) (value : B256),
        s.node.machine.exex.shouldFlush b.block.number = true →
          FeedKept (fun _ => 7) (some 100) feedRpc s (.node (.commit [b] [slotEntry value])) := by
      intro s b value hflush
      refine ⟨⟨slotEntry_owned value, fun hno => ?_⟩, fun old he => ?_⟩
      · exact absurd (hflush.symm.trans hno) (by decide)
      · cases he
    have hexport : ∀ (s : Feed) opens, s.node = feedFirst.node →
        FeedKept (fun _ => 7) (some 100) feedRpc s (.ask (.exportState ⟨"out", none⟩) opens) := by
      intro s opens hnode head hload
      rw [hnode] at hload ⊢
      have hnumber : feedFirst.node.machine.exex.keyIndex.loadHead.map HeadRecord.blockNumber =
          some 1 := by
        decide +kernel
      rw [hload] at hnumber
      have hsmall : head.blockNumber < 2 ^ 64 := by
        rw [Option.some.inj hnumber]
        decide
      exact ⟨by decide, hsmall, by decide +kernel⟩
    have hdelta : FeedKept (fun _ => 7) (some 100) feedRpc feedSecond
        (.ask (.getStateDelta ⟨2, 2, "out", none⟩) unlocked) := by
      intro head hload
      have hnumber : feedSecond.node.machine.exex.db.loadHead.map UbtHead.blockNumber = some 2 := by
        decide +kernel
      rw [hload] at hnumber
      have hsmall : head.blockNumber < 2 ^ 64 := by
        rw [Option.some.inj hnumber]
        decide
      exact ⟨⟨by decide, hsmall, by decide +kernel⟩, fun _ => by decide +kernel⟩
    have hrefused : feedRefused.node = feedFirst.node := feedFirst.node_ask feedRpc _ _
    refine List.forall_mem_cons.mpr ⟨hdelta, List.forall_mem_cons.mpr ⟨hcommit _ _ _ ?_,
      List.forall_mem_cons.mpr ⟨hexport _ _ hrefused, List.forall_mem_cons.mpr ⟨hexport _ _ rfl,
        List.forall_mem_cons.mpr ⟨hcommit _ _ _ ?_, by simp⟩⟩⟩⟩⟩
    · decide +kernel
    · decide +kernel

end UbtExex
