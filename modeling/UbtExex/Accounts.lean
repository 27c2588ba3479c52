import UbtExex.Follow

/-!
# Accounts

The leaves of an account: basic data, code hash, code chunks and storage slots.  What
`process_chain` extracts from a bundle is a list of writes to the items of accounts;
a key of the tree stands for an item as long as no other item that is written has the
same key.  A bundle writes the items it lists and clears nothing, so a destroyed
account is gone exactly when there was nothing left to clear.

## Main definitions

* `Item`, `Ubt.key` — the items of an account and their keys.
* `accountItems`, `bundleItems` — what a bundle writes, item by item.
* `commitChains` — chains committed one after the other by the main loop.
* `Apart` — an item that shares its key with no other written item.
* `Cleared`, `NothingLeft` — the account is gone, and the condition for it.

## Main results

* `logical_commitChains_item` — **an item holds what the last bundle that has its
  account writes to it, or else what it held before.**
* `destroyed_account_cleared_iff` — **after the last bundle of a destroyed account its
  keys are absent if and only if nothing was left to clear.**
* `destroyed_account_keeps_leaf` — a destroyed account that keeps its basic data.
-/

open Std

namespace UbtExex

/-! ### Items -/

/-- What a key is derived from, next to the address. -/
inductive Item
  | basicData
  | codeHash
  | codeChunk (i : ℕ)
  | storageSlot (slot : B256)
  deriving DecidableEq

variable (U : Ubt)

/-- The key of an item of an account. -/
def Ubt.key (address : Address) : Item → TreeKey
  | .basicData => U.getBasicDataKey address
  | .codeHash => U.getCodeHashKey address
  | .codeChunk i => U.getCodeChunkKey address i
  | .storageSlot slot => U.getStorageSlotKey address slot

/-- The code size that the basic-data leaf of an info holds. -/
def AccountInfo.codeSize (info : AccountInfo) : BitVec 32 :=
  BitVec.ofNat 32 ((info.code.map List.length).getD 0)

/-- The code hash is a real one: neither zero nor that of the empty code. -/
def AccountInfo.HasCode (info : AccountInfo) : Prop :=
  info.codeHash ≠ 0 ∧ info.codeHash ≠ keccakEmpty

instance (info : AccountInfo) : Decidable info.HasCode :=
  inferInstanceAs (Decidable (info.codeHash ≠ 0 ∧ info.codeHash ≠ keccakEmpty))

/-- The writes of the code chunks. -/
def chunkItems (code : List UInt8) : List (Item × B256) :=
  (U.chunkifyCode code).mapIdx fun i chunk => (.codeChunk i, chunk)

/-- The writes of an account's info. -/
def infoItems (info : AccountInfo) : List (Item × B256) :=
  (.basicData, U.basicDataLeaf info.nonce (balanceToU128 info.balance) info.codeSize) ::
  if info.HasCode then (.codeHash, info.codeHash) :: ((info.code.map (chunkItems U)).getD []) else []

/-- The writes of an account's storage. -/
def storageItems (storage : List (U256 × U256)) : List (Item × B256) :=
  storage.map fun (slot, value) => (.storageSlot (u256ToB256 slot), u256ToB256 value)

/-- The writes of an account of a bundle. -/
def accountItems (account : BundleAccount) : List (Item × B256) :=
  (account.info.map (infoItems U)).getD [] ++ storageItems account.storage

/-- The writes of a bundle. -/
def bundleItems (bundle : Bundle) : List ((Address × Item) × B256) :=
  bundle.state.flatMap fun (address, account) =>
    (accountItems U account).map fun w => ((address, w.1), w.2)

/-- The entry that writes a value to an item of an account. -/
def itemEntry (address : Address) (w : Item × B256) : PendingEntry := ⟨U.key address w.1, w.2, address⟩

variable {U}

theorem infoEntries_eq (address : Address) (info : AccountInfo) :
    infoEntries U address info = (infoItems U info).map (itemEntry U address) := by
  unfold infoEntries infoItems
  rw [List.map_cons]
  refine congrArg₂ List.cons rfl ?_
  by_cases h : info.HasCode
  · rw [if_pos h, if_pos (show info.codeHash ≠ 0 ∧ info.codeHash ≠ keccakEmpty from h), List.map_cons]
    refine congrArg₂ List.cons rfl ?_
    cases info.code with
    | none => rfl
    | some code =>
      apply List.ext_getElem?
      intro i
      simp [codeEntries, chunkItems, itemEntry, Ubt.key, Option.map_map, Function.comp_def]
  · rw [if_neg h, if_neg (show ¬(info.codeHash ≠ 0 ∧ info.codeHash ≠ keccakEmpty) from h)]
    rfl

theorem accountEntries_eq (address : Address) (account : BundleAccount) :
    accountEntries U address account = (accountItems U account).map (itemEntry U address) := by
  unfold accountEntries accountItems
  rw [List.map_append]
  refine congrArg₂ (· ++ ·) ?_ ?_
  · cases account.info with
    | none => rfl
    | some info => exact infoEntries_eq address info
  · simp [storageEntries, storageItems, itemEntry, Ubt.key]

/-- **The entries of a bundle are its writes, under the keys of their items.** -/
theorem chainEntries_write (bundle : Bundle) :
    (chainEntries U bundle).map PendingEntry.write =
      (bundleItems U bundle).map fun w => (U.key w.1.1 w.1.2, w.2) := by
  unfold chainEntries bundleItems
  rw [List.map_flatMap, List.map_flatMap]
  apply List.flatMap_congr
  rintro ⟨address, account⟩ -
  show (accountEntries U address account).map _ = ((accountItems U account).map _).map _
  rw [accountEntries_eq, List.map_map, List.map_map]
  rfl

/-! ### Every item is written once -/

theorem mem_chunkItems {code : List UInt8} {w : Item × B256} :
    w ∈ chunkItems U code ↔ ∃ i, (U.chunkifyCode code)[i]? = some w.2 ∧ w.1 = .codeChunk i := by
  unfold chunkItems
  rw [List.mem_mapIdx]
  constructor
  · rintro ⟨i, hi, rfl⟩
    exact ⟨i, List.getElem?_eq_getElem hi, rfl⟩
  · rintro ⟨i, hi, hw⟩
    obtain ⟨hlt, hval⟩ := List.getElem?_eq_some_iff.mp hi
    refine ⟨i, hlt, ?_⟩
    rw [hval, ← hw]

theorem mem_storageItems {storage : List (U256 × U256)} {w : Item × B256} :
    w ∈ storageItems storage ↔ ∃ p ∈ storage, w = (.storageSlot p.1, p.2) := by
  unfold storageItems
  rw [List.mem_map]
  constructor
  · rintro ⟨p, hp, rfl⟩
    exact ⟨p, hp, rfl⟩
  · rintro ⟨p, hp, rfl⟩
    exact ⟨p, hp, rfl⟩

theorem nodup_chunkItems (code : List UInt8) : ((chunkItems U code).map Prod.fst).Nodup := by
  have hkeys : (chunkItems U code).map Prod.fst =
      (List.range (U.chunkifyCode code).length).map Item.codeChunk := by
    apply List.ext_getElem?
    intro i
    unfold chunkItems
    rw [List.getElem?_map, List.getElem?_map, List.getElem?_mapIdx]
    rcases Nat.lt_or_ge i (U.chunkifyCode code).length with hlt | hge
    · rw [List.getElem?_eq_getElem hlt, List.getElem?_range hlt]
      rfl
    · rw [List.getElem?_eq_none hge, List.getElem?_eq_none (by simpa using hge)]
      rfl
  rw [hkeys]
  refine List.Nodup.map ?_ List.nodup_range
  intro i j h
  injection h

theorem nodup_storageItems {storage : List (U256 × U256)} (h : (storage.map Prod.fst).Nodup) :
    ((storageItems storage).map Prod.fst).Nodup := by
  have hkeys : (storageItems storage).map Prod.fst =
      (storage.map Prod.fst).map Item.storageSlot := by
    unfold storageItems
    rw [List.map_map, List.map_map]
    rfl
  rw [hkeys]
  refine h.map ?_
  intro s s' hs
  injection hs

/-- The items of an info are not storage slots. -/
theorem infoItems_not_storage {info : AccountInfo} {w : Item × B256} (hw : w ∈ infoItems U info)
    (slot : B256) : w.1 ≠ .storageSlot slot := by
  unfold infoItems at hw
  rcases List.mem_cons.mp hw with rfl | hw
  · exact Item.noConfusion
  · split at hw
    · rcases List.mem_cons.mp hw with rfl | hw
      · exact Item.noConfusion
      · cases hcode : info.code with
        | none =>
          rw [hcode] at hw
          cases hw
        | some code =>
          rw [hcode] at hw
          obtain ⟨i, -, hi⟩ := mem_chunkItems.mp hw
          rw [hi]
          exact Item.noConfusion
    · cases hw

theorem nodup_infoItems (info : AccountInfo) : ((infoItems U info).map Prod.fst).Nodup := by
  -- the chunks are distinct, and neither the code hash nor the basic data is a chunk
  have hchunks : (((info.code.map (chunkItems U)).getD []).map Prod.fst).Nodup := by
    cases info.code with
    | none => exact List.nodup_nil
    | some code => exact nodup_chunkItems code
  have hmem : ∀ item ∈ ((info.code.map (chunkItems U)).getD []).map Prod.fst,
      ∃ i, item = .codeChunk i := by
    intro item hitem
    obtain ⟨w, hw, rfl⟩ := List.mem_map.mp hitem
    cases hcode : info.code with
    | none =>
      rw [hcode] at hw
      cases hw
    | some code =>
      rw [hcode] at hw
      obtain ⟨i, -, hi⟩ := mem_chunkItems.mp hw
      exact ⟨i, hi⟩
  unfold infoItems
  split
  · rw [List.map_cons, List.map_cons, List.nodup_cons, List.nodup_cons]
    refine ⟨?_, ?_, hchunks⟩
    · intro h
      rcases List.mem_cons.mp h with h | h
      · cases h
      · obtain ⟨i, hi⟩ := hmem _ h
        cases hi
    · intro h
      obtain ⟨i, hi⟩ := hmem _ h
      cases hi
  · exact List.nodup_singleton _

/-- **An account of a bundle has at most one write to each of its items.** -/
theorem nodup_accountItems (account : BundleAccount) :
    ((accountItems U account).map Prod.fst).Nodup := by
  unfold accountItems
  rw [List.map_append, List.nodup_append]
  refine ⟨?_, nodup_storageItems account.storage_nodup, ?_⟩
  · cases account.info with
    | none => exact List.nodup_nil
    | some info => exact nodup_infoItems info
  · intro item hitem item' hitem' heq
    obtain ⟨w, hw, rfl⟩ := List.mem_map.mp hitem
    obtain ⟨w', hw', rfl⟩ := List.mem_map.mp hitem'
    obtain ⟨p, -, rfl⟩ := mem_storageItems.mp hw'
    cases hinfo : account.info with
    | none =>
      rw [hinfo] at hw
      cases hw
    | some info =>
      rw [hinfo] at hw
      exact infoItems_not_storage hw _ heq

/-! ### What a bundle writes to an account -/

/-- A bundle without an account writes to none of its items. -/
theorem lastWrite_bundleItems_of_not_mem {bundle : Bundle} {address : Address} (item : Item)
    (h : address ∉ bundle.state.map Prod.fst) :
    Writes.lastWrite (bundleItems U bundle) (address, item) = none := by
  rw [Writes.lastWrite_eq_none]
  intro w hw heq
  obtain ⟨⟨address', account⟩, hp, hw⟩ := List.mem_flatMap.mp hw
  obtain ⟨w', -, rfl⟩ := List.mem_map.mp hw
  refine h (List.mem_map.mpr ⟨_, hp, ?_⟩)
  exact congrArg Prod.fst heq

/-- **A bundle writes to an account what the account lists.** -/
theorem lastWrite_bundleItems {bundle : Bundle} {address : Address} {account : BundleAccount}
    (h : (address, account) ∈ bundle.state) (item : Item) :
    Writes.lastWrite (bundleItems U bundle) (address, item) =
      Writes.lastWrite (accountItems U account) item := by
  obtain ⟨state, hnd⟩ := bundle
  induction state with
  | nil => cases h
  | cons p state ih =>
    obtain ⟨hp, hnd'⟩ := List.nodup_cons.mp hnd
    have happ : bundleItems U ⟨p :: state, hnd⟩ =
        (accountItems U p.2).map (fun w => ((p.1, w.1), w.2)) ++ bundleItems U ⟨state, hnd'⟩ :=
      List.flatMap_cons
    rw [happ, Writes.lastWrite_append]
    rcases List.mem_cons.mp h with rfl | hmem
    · -- the other accounts have other addresses
      rw [lastWrite_bundleItems_of_not_mem item hp, Option.none_or]
      refine Writes.lastWrite_map (fun i => (address, i)) fun w _ hw => ?_
      exact congrArg Prod.snd hw
    · have hnone : Writes.lastWrite ((accountItems U p.2).map fun w => ((p.1, w.1), w.2))
          (address, item) = none := by
        rw [Writes.lastWrite_eq_none]
        intro w hw heq
        obtain ⟨w', -, rfl⟩ := List.mem_map.mp hw
        have haddr : p.1 = address := congrArg Prod.fst heq
        exact hp (haddr ▸ List.mem_map_of_mem hmem)
      rw [ih hnd' hmem, hnone, Option.or_none]

/-! ### Chains committed one after the other -/

/-- Handle chains that are committed one after the other. -/
def commitChains (U : Ubt) (chains : List Chain) : ExM Unit :=
  chains.forM fun chain => handle U (.chainCommitted chain)

/-- The writes of chains to the items of accounts. -/
def chainsItems (U : Ubt) (chains : List Chain) : List ((Address × Item) × B256) :=
  chains.flatMap fun chain => bundleItems U chain.bundle

theorem commitChains_cons {chain : Chain} {chains : List Chain} {m m' : Machine} :
    commitChains U (chain :: chains) m = .ok () m' ↔
      ∃ m₁, handle U (.chainCommitted chain) m = .ok () m₁ ∧
        commitChains U chains m₁ = .ok () m' := by
  change (handle U (.chainCommitted chain) >>= fun _ => commitChains U chains) m = _ ↔ _
  rw [EStateM.bind_eq_ok]
  constructor
  · rintro ⟨u, m₁, h₁, h⟩
    exact ⟨m₁, h₁, h⟩
  · rintro ⟨m₁, h₁, h⟩
    exact ⟨(), m₁, h₁, h⟩

/-- **The state after chains is the fold of their writes**, under the keys of the items. -/
theorem logical_commitChains {chains : List Chain} {m m' : Machine}
    (hpending : m.exex.pendingEntries = []) (h : commitChains U chains m = .ok () m') :
    m'.exex.pendingEntries = [] ∧ m'.exex.logical = Writes.applyAll m.exex.logical
      ((chainsItems U chains).map fun w => (U.key w.1.1 w.1.2, w.2)) := by
  induction chains generalizing m with
  | nil =>
    cases h
    exact ⟨hpending, rfl⟩
  | cons chain chains ih =>
    obtain ⟨m₁, h₁, hrest⟩ := commitChains_cons.mp h
    obtain ⟨root, hrun⟩ := handle_chainCommitted.mp h₁
    have hc := commit_ok U hrun
    obtain ⟨hpending', hlogical⟩ := ih hc.pendingEntries hrest
    have hpushed : (m.push (chainEntries U chain.bundle)).exex.pendingWrites =
        (bundleItems U chain.bundle).map fun w => (U.key w.1.1 w.1.2, w.2) := by
      rw [← chainEntries_write]
      unfold UbtExEx.pendingWrites Machine.push
      rw [Machine.exex_update, hpending, List.nil_append]
    refine ⟨hpending', ?_⟩
    have hsplit : chainsItems U (chain :: chains) =
        bundleItems U chain.bundle ++ chainsItems U chains := List.flatMap_cons
    rw [hlogical, hc.logical, hpushed, hsplit, List.map_append, Writes.applyAll_append]
    rfl

/-- An item shares its key with no other item that the chains write. -/
def Apart (U : Ubt) (chains : List Chain) (address : Address) (item : Item) : Prop :=
  ∀ w ∈ chainsItems U chains, U.key w.1.1 w.1.2 = U.key address item → w.1 = (address, item)

/-- **An item holds what the last bundle with its account writes to it, or else what it
held before.** -/
theorem logical_commitChains_item {chain : Chain} {later : List Chain} {m m' : Machine}
    {address : Address} {account : BundleAccount} {item : Item}
    (hpending : m.exex.pendingEntries = [])
    (hrun : commitChains U (chain :: later) m = .ok () m')
    (haccount : (address, account) ∈ chain.bundle.state)
    (hlater : ∀ c ∈ later, address ∉ c.bundle.state.map Prod.fst)
    (hapart : Apart U (chain :: later) address item) :
    m'.exex.logical (U.key address item) =
      (Writes.lastWrite (accountItems U account) item).getD (m.exex.logical (U.key address item)) := by
  have hnone : Writes.lastWrite (chainsItems U later) (address, item) = none := by
    rw [Writes.lastWrite_eq_none]
    intro w hw heq
    obtain ⟨c, hc, hw⟩ := List.mem_flatMap.mp hw
    have hbundle := Writes.lastWrite_eq_none.mp
      (lastWrite_bundleItems_of_not_mem (U := U) item (hlater c hc))
    exact hbundle w hw heq
  have hsplit : chainsItems U (chain :: later) =
      bundleItems U chain.bundle ++ chainsItems U later := List.flatMap_cons
  have hlast : Writes.lastWrite ((chainsItems U (chain :: later)).map fun w =>
      (U.key w.1.1 w.1.2, w.2)) (U.key address item) =
      Writes.lastWrite (chainsItems U (chain :: later)) (address, item) :=
    Writes.lastWrite_map (fun p : Address × Item => U.key p.1 p.2) (k := (address, item)) hapart
  rw [(logical_commitChains hpending hrun).2, Writes.applyAll_eq_lastWrite, hlast, hsplit,
    Writes.lastWrite_append, hnone, Option.none_or, lastWrite_bundleItems haccount]

/-! ### Destroyed accounts -/

/-- The bundle says that the account does not exist any more, or was created again
after it was destroyed. -/
def BundleAccount.Destroyed (account : BundleAccount) : Prop :=
  account.info = none ∨ account.wasDestroyed = true

instance (account : BundleAccount) : Decidable account.Destroyed :=
  inferInstanceAs (Decidable (account.info = none ∨ account.wasDestroyed = true))

/-- The account is gone: its keys are absent, but for what its new creation writes. -/
def Cleared (U : Ubt) (chains : List Chain) (address : Address) (account : BundleAccount)
    (σ : TreeKey → B256) : Prop :=
  ∀ item, Apart U chains address item →
    account.info = none ∨ item ∉ (accountItems U account).map Prod.fst →
    σ (U.key address item) = 0

/-- Nothing is left to clear: the keys that the account does not write are absent, and
if it does not exist any more it writes zeros only. -/
def NothingLeft (U : Ubt) (chains : List Chain) (address : Address) (account : BundleAccount)
    (σ : TreeKey → B256) : Prop :=
  (∀ item, Apart U chains address item → item ∉ (accountItems U account).map Prod.fst →
      σ (U.key address item) = 0) ∧
    (account.info = none → ∀ p ∈ account.storage, Apart U chains address (.storageSlot p.1) →
      p.2 = 0)

/-- **After the last bundle of a destroyed account its keys are absent if and only if
nothing was left to clear before it**: `process_chain` clears nothing. -/
theorem destroyed_account_cleared_iff {earlier later : List Chain} {chain : Chain}
    {m₀ m₁ m₂ : Machine} {address : Address} {account : BundleAccount}
    (hpending : m₀.exex.pendingEntries = []) (hearlier : commitChains U earlier m₀ = .ok () m₁)
    (hrun : commitChains U (chain :: later) m₁ = .ok () m₂)
    (haccount : (address, account) ∈ chain.bundle.state)
    (hlater : ∀ c ∈ later, address ∉ c.bundle.state.map Prod.fst) :
    (account.Destroyed → Cleared U (chain :: later) address account m₂.exex.logical) ↔
      (account.Destroyed → NothingLeft U (chain :: later) address account m₁.exex.logical) := by
  refine imp_congr_right fun _ => ?_
  have hpending₁ := (logical_commitChains hpending hearlier).1
  have hitem : ∀ item, Apart U (chain :: later) address item →
      m₂.exex.logical (U.key address item) =
        (Writes.lastWrite (accountItems U account) item).getD
          (m₁.exex.logical (U.key address item)) := fun item hapart =>
    logical_commitChains_item hpending₁ hrun haccount hlater hapart
  -- what the account does not write stays as it was
  have hkept : ∀ item, Apart U (chain :: later) address item →
      item ∉ (accountItems U account).map Prod.fst →
      m₂.exex.logical (U.key address item) = m₁.exex.logical (U.key address item) := by
    intro item hapart hnot
    have hnone : Writes.lastWrite (accountItems U account) item = none := by
      rw [Writes.lastWrite_eq_none]
      intro w hw hwi
      exact hnot (List.mem_map.mpr ⟨w, hw, hwi⟩)
    rw [hitem item hapart, hnone, Option.getD_none]
  -- an account that does not exist any more writes its slots only
  have hslot : ∀ p ∈ account.storage, Apart U (chain :: later) address (.storageSlot p.1) →
      m₂.exex.logical (U.key address (.storageSlot p.1)) = p.2 := by
    intro p hp hapart
    have hmem : (Item.storageSlot p.1, p.2) ∈ accountItems U account :=
      List.mem_append_right _ (mem_storageItems.mpr ⟨p, hp, rfl⟩)
    rw [hitem _ hapart, Writes.lastWrite_of_nodup (nodup_accountItems account) hmem]
    rfl
  constructor
  · intro hcleared
    refine ⟨fun item hapart hnot => ?_, fun hnone p hp hapart => ?_⟩
    · rw [← hkept item hapart hnot]
      exact hcleared item hapart (Or.inr hnot)
    · rw [← hslot p hp hapart]
      exact hcleared _ hapart (Or.inl hnone)
  · rintro ⟨hleft, hzero⟩ item hapart hgone
    by_cases hmem : item ∈ (accountItems U account).map Prod.fst
    · rcases hgone with hnone | hnot
      · obtain ⟨w, hw, rfl⟩ := List.mem_map.mp hmem
        unfold accountItems at hw
        rw [hnone] at hw
        obtain ⟨p, hp, rfl⟩ := mem_storageItems.mp hw
        rw [hslot p hp hapart]
        exact hzero hnone p hp hapart
      · exact absurd hmem hnot
    · rw [hkept item hapart hmem]
      exact hleft item hapart hmem

/-! ### A destroyed account that keeps its basic data -/

/-- A bundle with one account. -/
def accountBundle (address : Address) (account : BundleAccount) : Bundle :=
  ⟨[(address, account)], List.nodup_singleton _⟩

/-- An account with nonce 1 and without code. -/
def createdAccount : BundleAccount := ⟨some ⟨0, 1, keccakEmpty, none⟩, [], false, List.nodup_nil⟩

/-- An account whose only non-zero leaf is slot 1. -/
def slotAccount : BundleAccount :=
  ⟨some ⟨0, 0, keccakEmpty, none⟩, [(1, 5)], false, List.nodup_singleton _⟩

/-- An account that does not exist any more, with no slot touched. -/
def goneAccount : BundleAccount := ⟨none, [], true, List.nodup_nil⟩

/-- An account that does not exist any more, with slot 1 cleared. -/
def goneSlotAccount : BundleAccount := ⟨none, [(1, 0)], true, List.nodup_singleton _⟩

/-- A chain of one block with one account in its bundle. -/
def accountChain (block : Block) (account : BundleAccount) : Chain :=
  ⟨[block], accountBundle 7 account, Chain.single_ne_nil block, Chain.single_sorted block⟩

/-- An account whose only non-zero leaf is a slot that its destruction lists is cleared. -/
theorem destroyed_account_cleared_slot : ∃ m₁ m₂,
    commitChains sampleUbt [accountChain block1 slotAccount] (.fresh ⟨1, 10⟩) = .ok () m₁ ∧
      commitChains sampleUbt [accountChain block2 goneSlotAccount] m₁ = .ok () m₂ ∧
      Cleared sampleUbt [accountChain block2 goneSlotAccount] 7 goneSlotAccount m₂.exex.logical := by
  have hok₁ : (commitChains sampleUbt [accountChain block1 slotAccount]
      (.fresh ⟨1, 10⟩)).isOk = true := by decide +kernel
  obtain ⟨u₁, hrun₁⟩ := EStateM.Result.exists_ok hok₁
  have hok₂ : (commitChains sampleUbt [accountChain block2 goneSlotAccount]
      (commitChains sampleUbt [accountChain block1 slotAccount]
        (.fresh ⟨1, 10⟩)).state).isOk = true := by decide +kernel
  obtain ⟨u₂, hrun₂⟩ := EStateM.Result.exists_ok hok₂
  have hwrites : (chainsItems sampleUbt [accountChain block1 slotAccount]).map
      (fun w => (sampleUbt.key w.1.1 w.1.2, w.2)) =
      [(sampleUbt.getBasicDataKey 7, 0), (slotKey 7 1, 5)] := by decide
  refine ⟨_, _, hrun₁, hrun₂, ?_⟩
  refine (destroyed_account_cleared_iff rfl hrun₁ hrun₂ List.mem_cons_self (by simp)).mpr
    (fun _ => ⟨fun item hapart hnot => ?_, fun _ p hp _ => ?_⟩) (Or.inl rfl)
  · -- the item is not slot 1, so it has another key
    have hkey : slotKey 7 1 ≠ sampleUbt.key 7 item := by
      intro heq
      have hslot := hapart ((7, .storageSlot 1), 0) List.mem_cons_self heq
      have hitem : Item.storageSlot 1 = item := congrArg Prod.snd hslot
      exact hnot (hitem ▸ List.mem_cons_self)
    rw [(logical_commitChains rfl hrun₁).2, hwrites, Writes.applyAll_cons, Writes.applyAll_cons,
      Writes.applyAll_nil, Function.update_of_ne hkey.symm]
    by_cases hbasic : sampleUbt.key 7 item = sampleUbt.getBasicDataKey 7
    · rw [hbasic, Function.update_self]
    · rw [Function.update_of_ne hbasic]
      exact logical_fresh _ _
  · obtain rfl := List.mem_singleton.mp hp
    rfl

/-- **A destroyed account keeps its basic data**: the bundle that destroys it does not
write to the leaf that its first bundle wrote. -/
theorem destroyed_account_keeps_leaf :
    ¬∀ (U : Ubt) (earlier later : List Chain) (chain : Chain) (m₀ m₁ m₂ : Machine)
      (address : Address) (account : BundleAccount), m₀.exex.pendingEntries = [] →
      commitChains U earlier m₀ = .ok () m₁ → commitChains U (chain :: later) m₁ = .ok () m₂ →
      (address, account) ∈ chain.bundle.state →
      (∀ c ∈ later, address ∉ c.bundle.state.map Prod.fst) →
      account.Destroyed → Cleared U (chain :: later) address account m₂.exex.logical := by
  intro hall
  have hok₁ : (commitChains sampleUbt [accountChain block1 createdAccount]
      (.fresh ⟨1, 10⟩)).isOk = true := by decide +kernel
  obtain ⟨u₁, hrun₁⟩ := EStateM.Result.exists_ok hok₁
  have hok₂ : (commitChains sampleUbt [accountChain block2 goneAccount]
      (commitChains sampleUbt [accountChain block1 createdAccount]
        (.fresh ⟨1, 10⟩)).state).isOk = true := by decide +kernel
  obtain ⟨u₂, hrun₂⟩ := EStateM.Result.exists_ok hok₂
  have hcleared := hall sampleUbt _ [] _ _ _ _ 7 goneAccount rfl hrun₁ hrun₂ List.mem_cons_self
    (by simp) (Or.inl rfl) .basicData (fun w hw => nomatch hw) (Or.inl rfl)
  revert hcleared
  decide +kernel

end UbtExex
