import UbtExex.Gate

/-!
# The RPC endpoints

The requests of `rpc.rs` as programs over the stores and the directories that clients
name.  Each export is behind the gate; whatever is refused is answered with one code and
the text of the error, and its reply names the files that were written.

The endpoints open NOMT and the key index anew for every request, and the server opens the
MDBX environment when it is built.  Any of these can fail, and does while another handle
holds the lock of the store; a schedule says what becomes of each of them.

## Main definitions

* `UbtError.toString` — the texts of errors.
* `RpcEnv`, `RpcM`, `inDir` — endpoints run in a directory that the client names.
* `openStore` — NOMT or the key index is opened, or fails to open.
* `UbtRpc.fromPaths` — the server is built, unless the MDBX environment fails to open.
* `UbtRpc.exportState`, `UbtRpc.exportContract`, `UbtRpc.getStateDelta`, `UbtRpc.getRoot`
  — the endpoints.
* `Request`, `Reply`, `UbtRpc.answer` — a call of any of them.

## Main results

* `checkNomtSynced_ok_iff`, `guarded_ok_iff` — when a guarded endpoint over fixed stores
  replies.
* `UbtRpc.exportState_ok_iff`, `UbtRpc.getStateDelta_ok_iff` — **a request is answered
  exactly if all stores open, the gate passes and the exporter succeeds.**
* `guarded_refused` — **an endpoint that is refused before its exporter writes nothing.**
-/

open Std

namespace UbtExex

/-! ### Errors -/

/-- The text of a `DatabaseError`. -/
def DatabaseError.toString : DatabaseError → String
  | .mdbx message => s!"MDBX error: {message}"

/-- The text of a `UbtError`. -/
def UbtError.toString : UbtError → String
  | .database e => s!"Database error: {e.toString}"
  | .rootVerificationFailed expected computed =>
    s!"Root verification failed: expected 0x{expected.toHex}, computed 0x{computed.toHex}"

/-- `ErrorObjectOwned`, without data. -/
structure ErrorObject where
  code : ℤ
  message : String
  deriving DecidableEq

/-- `ErrorObjectOwned::owned(-32000, message, None)`. -/
def serverError (message : String) : ErrorObject := ⟨-32000, message⟩

/-! ### Programs over directories -/

/-- The directories that clients have named, the stores at each of the coming reads, and what
becomes of each of the coming attempts to open one: the text of the error if it fails. -/
structure RpcEnv where
  files : String → Dir
  stores : ℕ → Disk
  opens : ℕ → Option String

/-- The endpoints. -/
abbrev RpcM := EStateM ErrorObject RpcEnv

/-- An exporter in the directory of a client; `map_err` keeps the text of its error. -/
def inDir {α : Type} (outputPath : String) (x : ExportM α) : RpcM α := fun env =>
  match x ⟨env.files outputPath, env.stores⟩ with
  | .ok a e => .ok a ⟨Function.update env.files outputPath e.dir, e.stores, env.opens⟩
  | .error err e =>
    .error (serverError err.toString)
      ⟨Function.update env.files outputPath e.dir, e.stores, env.opens⟩

/-- The next attempt to open a store. -/
def nextOpen : RpcM (Option String) := fun env =>
  .ok (env.opens 0) { env with opens := fun n => env.opens (n + 1) }

/-- `Nomt::open` or `KeyIndex::open`; `map_err` keeps the text of the error. -/
def openStore : RpcM Unit := do
  match ← nextOpen with
  | none => return
  | some text => throw (serverError text)

/-- Stores that do not change. -/
def RpcEnv.over (d : Disk) (files : String → Dir) (opens : ℕ → Option String) : RpcEnv :=
  ⟨files, fun _ => d, opens⟩

theorem inDir_ok_iff {α : Type} {outputPath : String} {x : ExportM α} {env env' : RpcEnv} {a : α} :
    inDir outputPath x env = .ok a env' ↔
      ∃ e, x ⟨env.files outputPath, env.stores⟩ = .ok a e ∧
        env' = ⟨Function.update env.files outputPath e.dir, e.stores, env.opens⟩ := by
  unfold inDir
  cases x ⟨env.files outputPath, env.stores⟩ with
  | error err e => simp
  | ok b e =>
    constructor
    · intro h
      injection h with hb he
      exact ⟨e, by rw [hb], he.symm⟩
    · intro ⟨e', he, henv⟩
      injection he with hb he
      rw [hb, he, henv]

/-- A program that only reads leaves the directories as they are. -/
theorem files_inDir {α : Type} {outputPath : String} {x : ExportM α} {env : RpcEnv}
    (h : (x ⟨env.files outputPath, env.stores⟩).state.dir = env.files outputPath) :
    (inDir outputPath x env).state.files = env.files := by
  unfold inDir
  cases hx : x ⟨env.files outputPath, env.stores⟩ with
  | ok a e =>
    rw [hx] at h
    change Function.update env.files outputPath e.dir = _
    rw [show e.dir = env.files outputPath from h, Function.update_eq_self]
  | error err e =>
    rw [hx] at h
    change Function.update env.files outputPath e.dir = _
    rw [show e.dir = env.files outputPath from h, Function.update_eq_self]

/-- A program that only reads, over stores that do not change. -/
theorem inDir_over_ok_iff {α : Type} {outputPath : String} {x : ExportM α} {d : Disk}
    {files : String → Dir} {opens : ℕ → Option String} {a : α} {env : RpcEnv}
    (hx : ∀ a e, x (.over d (files outputPath)) = .ok a e → e = .over d (files outputPath)) :
    inDir outputPath x (.over d files opens) = .ok a env ↔
      x (.over d (files outputPath)) = .ok a (.over d (files outputPath)) ∧
        env = .over d files opens := by
  have hfiles : Function.update files outputPath (files outputPath) = files :=
    Function.update_eq_self outputPath files
  have hsame : (⟨Function.update files outputPath (files outputPath), fun _ => d, opens⟩ : RpcEnv) =
      .over d files opens := by
    rw [hfiles]
    rfl
  rw [inDir_ok_iff]
  constructor
  · rintro ⟨e, hrun, rfl⟩
    obtain rfl := hx a e hrun
    exact ⟨hrun, hsame⟩
  · rintro ⟨hrun, rfl⟩
    exact ⟨_, hrun, hsame.symm⟩

/-- What follows an attempt to open a store, if that succeeds. -/
theorem openStore_bind_over {α : Type} {x : RpcM α} {d : Disk} {files : String → Dir}
    {opens : ℕ → Option String} {env : RpcEnv} {a : α} :
    (openStore >>= fun _ => x) (.over d files opens) = .ok a env ↔
      opens 0 = none ∧ x (.over d files fun n => opens (n + 1)) = .ok a env := by
  rw [EStateM.bind_apply]
  unfold openStore
  rw [EStateM.bind_apply]
  unfold nextOpen RpcEnv.over
  dsimp only
  cases opens 0 with
  | none =>
    rw [eq_self, true_and]
    rfl
  | some text =>
    constructor
    · intro h
      cases h
    · intro ⟨h, _⟩
      cases h

/-- Programs one after the other leave the directories as they are if each of them does. -/
theorem files_bind {α β : Type} {x : RpcM α} {f : α → RpcM β} {env : RpcEnv}
    {files : String → Dir} (hx : (x env).state.files = files)
    (hf : ∀ a env₁, env₁.files = files → (f a env₁).state.files = files) :
    ((x >>= f) env).state.files = files := by
  rw [EStateM.bind_apply]
  cases hrun : x env with
  | error err env₁ =>
    rw [hrun] at hx
    exact hx
  | ok a env₁ =>
    rw [hrun] at hx
    exact hf a env₁ hx

theorem files_openStore (env : RpcEnv) : (openStore env).state.files = env.files := by
  unfold openStore
  rw [EStateM.bind_apply]
  unfold nextOpen
  dsimp only
  cases env.opens 0 <;> rfl

/-! ### The endpoints -/

/-- `ExportStateParams`. -/
structure ExportStateParams where
  outputPath : String
  chainId : Option ℕ

/-- `ExportContractParams`. -/
structure ExportContractParams where
  contract : Address
  outputPath : String
  chainId : Option ℕ

/-- `GetStateDeltaParams`. -/
structure GetStateDeltaParams where
  fromBlock : ℕ
  toBlock : ℕ
  outputPath : String
  chainId : Option ℕ

/-- `UbtRpc`: what the endpoints are given besides the stores. -/
structure UbtRpc where
  defaultChainId : ℕ
  deltaRetention : ℕ

/-- The number of the NOMT head. -/
def readNomtHead : ExportM ℕ := do
  match ← readStore fun d => d.nomt.current[nomtHeadKey]? with
  | some (.u64Be n) => return n
  | some (.b256 _) => throw (mdbxError "Invalid NOMT head value")
  | none => return 0

/-- The number of the key index head is compared with that of the NOMT head. -/
def compareHeads (nomtHead : ℕ) : ExportM Unit := do
  match ← readStore fun d => d.keyIndex.loadHead with
  | none => throw (mdbxError "Missing key index head metadata")
  | some head =>
    let keyIndexHead := head.blockNumber
    if nomtHead ≠ keyIndexHead then
      throw (mdbxError (s!"NOMT head {nomtHead} does not match key index head {keyIndexHead}"))

/-- `ensure_nomt_synced` with the stores that it opens: NOMT, and the key index when the NOMT
head has been read. -/
def checkNomtSynced (outputPath : String) : RpcM Unit := do
  openStore
  let nomtHead ← inDir outputPath readNomtHead
  openStore
  inDir outputPath (compareHeads nomtHead)

/-- An endpoint behind the gate. -/
def guarded {α : Type} (outputPath : String) (x : RpcM α) : RpcM α := do
  checkNomtSynced outputPath
  x

/-- What `export_contract_state_from_nomt` does before it opens NOMT. -/
def startContract (contract : Address) (chainId : ℕ) : ExportM Unit := do
  match ← readStore fun d => d.keyIndex.loadHead with
  | none => throw (mdbxError "Missing key index head metadata")
  | some head => startFile (.contract contract) chainId head.blockNumber head.blockHash

namespace UbtRpc

/-- `UbtRpc::from_paths`, as the main loop calls it: the MDBX environment is opened again, and
the retention is the configured one. -/
def fromPaths (opened : Except UbtError Unit) (chainId : ℕ) (config : UbtConfig) :
    Except UbtError UbtRpc := do
  opened
  return ⟨chainId, config.deltaRetention⟩

variable (rpc : UbtRpc)

/-- `export_state`; an `ExportStateResult` has the fields of an `ExportResult`. -/
def exportState (params : ExportStateParams) : RpcM ExportResult :=
  guarded params.outputPath do
    openStore
    openStore
    inDir params.outputPath (exportFullStateFromNomt (params.chainId.getD rpc.defaultChainId))

/-- `export_contract`. -/
def exportContract (params : ExportContractParams) : RpcM ExportResult :=
  let chainId := params.chainId.getD rpc.defaultChainId
  guarded params.outputPath do
    openStore
    -- NOMT is opened after the header is written
    match ← nextOpen with
    | none => inDir params.outputPath (exportContractStateFromNomt params.contract chainId)
    | some text =>
      inDir params.outputPath (startContract params.contract chainId)
      throw (serverError text)

/-- `get_state_delta`. -/
def getStateDelta (params : GetStateDeltaParams) : RpcM StateDeltaResult :=
  guarded params.outputPath
    (inDir params.outputPath
      (UbtExex.getStateDelta params.fromBlock params.toBlock
        (params.chainId.getD rpc.defaultChainId) rpc.deltaRetention))

/-- `get_root`: the only endpoint without the gate. -/
def getRoot : RpcM GetRootResult := do
  openStore
  fun env =>
    let env' : RpcEnv := { env with stores := fun n => env.stores (n + 1) }
    match UbtExex.getRoot (env.stores 0) with
    | .ok res => .ok res env'
    | .error message => .error (serverError message) env'

end UbtRpc

/-- A call. -/
inductive Request
  /-- `ubt_exportState`. -/
  | exportState (params : ExportStateParams)
  /-- `ubt_exportContract`. -/
  | exportContract (params : ExportContractParams)
  /-- `ubt_getStateDelta`. -/
  | getStateDelta (params : GetStateDeltaParams)
  /-- `ubt_getRoot`. -/
  | getRoot

/-- What a call that succeeds is answered with. -/
inductive Reply
  | exported (res : ExportResult)
  | delta (res : StateDeltaResult)
  | root (res : GetRootResult)

/-- The endpoint of a call. -/
def UbtRpc.answer (rpc : UbtRpc) : Request → RpcM Reply
  | .exportState params => Reply.exported <$> rpc.exportState params
  | .exportContract params => Reply.exported <$> rpc.exportContract params
  | .getStateDelta params => Reply.delta <$> rpc.getStateDelta params
  | .getRoot => Reply.root <$> UbtRpc.getRoot

/-! ### What the gate does -/

/-- The gate is one program over the stores. -/
theorem ensureNomtSynced_eq : ensureNomtSynced = readNomtHead >>= compareHeads := by
  funext env
  unfold ensureNomtSynced readNomtHead
  rw [readStore_bind, EStateM.bind_apply, readStore_bind]
  cases (env.stores 0).nomt.current[nomtHeadKey]? with
  | none => rfl
  | some w => cases w <;> rfl

/-- It reads, and writes nothing. -/
theorem readNomtHead_dir (env : ExportEnv) : (readNomtHead env).state.dir = env.dir := by
  unfold readNomtHead
  rw [readStore_bind]
  cases (env.stores 0).nomt.current[nomtHeadKey]? with
  | none => rfl
  | some w => cases w <;> rfl

theorem compareHeads_dir (n : ℕ) (env : ExportEnv) : (compareHeads n env).state.dir = env.dir := by
  unfold compareHeads
  rw [readStore_bind]
  cases (env.stores 0).keyIndex.loadHead with
  | none => rfl
  | some head =>
    dsimp only
    split <;> rfl

theorem readNomtHead_over {d : Disk} {dir : Dir} {n : ℕ} {e : ExportEnv}
    (h : readNomtHead (.over d dir) = .ok n e) : e = .over d dir := by
  unfold readNomtHead at h
  rw [readStore_bind, ExportEnv.stores_over, ExportEnv.skip_over] at h
  cases hread : d.nomt.current[nomtHeadKey]? with
  | none =>
    rw [hread] at h
    cases h
    rfl
  | some w =>
    rw [hread] at h
    cases w with
    | u64Be n' =>
      cases h
      rfl
    | b256 v => cases h

theorem compareHeads_over {d : Disk} {dir : Dir} {n : ℕ} {e : ExportEnv}
    (h : compareHeads n (.over d dir) = .ok () e) : e = .over d dir := by
  unfold compareHeads at h
  rw [readStore_bind, ExportEnv.stores_over, ExportEnv.skip_over] at h
  cases hload : d.keyIndex.loadHead with
  | none =>
    rw [hload] at h
    cases h
  | some head =>
    rw [hload] at h
    exact (compareHeads_ok_iff.mp h).1

/-- **When the gate over fixed stores passes**: both stores open, and the heads agree. -/
theorem checkNomtSynced_ok_iff {outputPath : String} {d : Disk} {files : String → Dir}
    {opens : ℕ → Option String} {env : RpcEnv} :
    checkNomtSynced outputPath (.over d files opens) = .ok () env ↔
      (opens 0 = none ∧ opens 1 = none) ∧
        ensureNomtSynced (.over d (files outputPath)) = .ok () (.over d (files outputPath)) ∧
          env = .over d files fun n => opens (n + 2) := by
  unfold checkNomtSynced
  rw [openStore_bind_over, EStateM.bind_eq_ok, ensureNomtSynced_eq, EStateM.bind_eq_ok]
  constructor
  · intro ⟨hfirst, n, env₁, hread, hrest⟩
    obtain ⟨hhead, rfl⟩ := (inDir_over_ok_iff fun _ _ => readNomtHead_over).mp hread
    obtain ⟨hsecond, hrest⟩ := openStore_bind_over.mp hrest
    obtain ⟨hcompare, rfl⟩ := (inDir_over_ok_iff fun _ _ => compareHeads_over).mp hrest
    exact ⟨⟨hfirst, hsecond⟩, ⟨n, _, hhead, hcompare⟩, rfl⟩
  · intro ⟨⟨hfirst, hsecond⟩, ⟨n, e, hread, hcompare⟩, henv⟩
    obtain rfl := readNomtHead_over hread
    refine ⟨hfirst, n, _, (inDir_over_ok_iff fun _ _ => readNomtHead_over).mpr ⟨hread, rfl⟩, ?_⟩
    refine openStore_bind_over.mpr ⟨hsecond, ?_⟩
    exact (inDir_over_ok_iff fun _ _ => compareHeads_over).mpr ⟨hcompare, henv⟩

/-- **When a guarded endpoint over fixed stores replies**: the gate passes, and what is
behind it succeeds. -/
theorem guarded_ok_iff {α : Type} {outputPath : String} {x : RpcM α} {d : Disk}
    {files : String → Dir} {opens : ℕ → Option String} {a : α} {env : RpcEnv} :
    guarded outputPath x (.over d files opens) = .ok a env ↔
      (opens 0 = none ∧ opens 1 = none) ∧
        ensureNomtSynced (.over d (files outputPath)) = .ok () (.over d (files outputPath)) ∧
          x (.over d files fun n => opens (n + 2)) = .ok a env := by
  unfold guarded
  rw [EStateM.bind_eq_ok]
  constructor
  · intro ⟨u, env₁, hgate, hx⟩
    obtain ⟨hopens, hpasses, rfl⟩ := checkNomtSynced_ok_iff.mp hgate
    exact ⟨hopens, hpasses, hx⟩
  · intro ⟨hopens, hgate, hx⟩
    exact ⟨(), _, checkNomtSynced_ok_iff.mpr ⟨hopens, hgate, rfl⟩, hx⟩

namespace UbtRpc

variable {rpc : UbtRpc} {d : Disk} {files : String → Dir} {opens : ℕ → Option String}
  {env : RpcEnv}

/-- **When `export_state` replies**: four stores open, and the export behind the gate
succeeds. -/
theorem exportState_ok_iff {params : ExportStateParams} {res : ExportResult} :
    rpc.exportState params (.over d files opens) = .ok res env ↔
      (∀ n < 4, opens n = none) ∧
        ensureNomtSynced (.over d (files params.outputPath)) =
          .ok () (.over d (files params.outputPath)) ∧
        ∃ e, exportFullStateFromNomt (params.chainId.getD rpc.defaultChainId)
            (.over d (files params.outputPath)) = .ok res e ∧
          env = ⟨Function.update files params.outputPath e.dir, e.stores,
            fun n => opens (n + 4)⟩ := by
  unfold exportState
  rw [guarded_ok_iff, openStore_bind_over, openStore_bind_over, inDir_ok_iff]
  constructor
  · intro ⟨⟨h₀, h₁⟩, hgate, h₂, h₃, hexport⟩
    refine ⟨fun n hn => ?_, hgate, hexport⟩
    match n with
    | 0 => exact h₀
    | 1 => exact h₁
    | 2 => exact h₂
    | 3 => exact h₃
    | n + 4 => omega
  · intro ⟨hopens, hgate, hexport⟩
    exact ⟨⟨hopens 0 (by omega), hopens 1 (by omega)⟩, hgate, hopens 2 (by omega),
      hopens 3 (by omega), hexport⟩

/-- **When `get_state_delta` replies**: the two stores of the gate open, it passes, and the
exporter succeeds. -/
theorem getStateDelta_ok_iff {params : GetStateDeltaParams} {res : StateDeltaResult} :
    rpc.getStateDelta params (.over d files opens) = .ok res env ↔
      (opens 0 = none ∧ opens 1 = none) ∧
        ensureNomtSynced (.over d (files params.outputPath)) =
          .ok () (.over d (files params.outputPath)) ∧
        ∃ e, UbtExex.getStateDelta params.fromBlock params.toBlock
            (params.chainId.getD rpc.defaultChainId) rpc.deltaRetention
            (.over d (files params.outputPath)) = .ok res e ∧
          env = ⟨Function.update files params.outputPath e.dir, e.stores,
            fun n => opens (n + 2)⟩ := by
  unfold getStateDelta
  rw [guarded_ok_iff, inDir_ok_iff]
  exact Iff.rfl

end UbtRpc

/-- The gate leaves the directories as they are, also over stores that change. -/
theorem files_checkNomtSynced (outputPath : String) (env : RpcEnv) :
    (checkNomtSynced outputPath env).state.files = env.files := by
  unfold checkNomtSynced
  refine files_bind (files_openStore env) fun _ env₁ h₁ => ?_
  refine files_bind ?_ fun n env₂ h₂ => ?_
  · rw [files_inDir (readNomtHead_dir _), h₁]
  · refine files_bind ?_ fun _ env₃ h₃ => ?_
    · rw [files_openStore, h₂]
    · rw [files_inDir (compareHeads_dir n _), h₃]

/-- **An endpoint that is refused before its exporter writes nothing**: a store does not open,
or the gate does not pass; the answer is that of the gate. -/
theorem guarded_refused {α : Type} {outputPath : String} {x : RpcM α} {env env' : RpcEnv}
    {err : ErrorObject} (hgate : checkNomtSynced outputPath env = .error err env') :
    guarded outputPath x env = .error err env' ∧ env'.files = env.files := by
  have hfiles := files_checkNomtSynced outputPath env
  rw [hgate] at hfiles
  refine ⟨?_, hfiles⟩
  unfold guarded
  rw [EStateM.bind_apply, hgate]

end UbtExex
