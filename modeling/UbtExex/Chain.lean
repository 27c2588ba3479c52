import UbtExex.Types

/-!
# Chains and bundles

What `reth` hands to the extension: a chain is a non-empty map from block numbers
to blocks, together with the bundle of the state changes of all its blocks.  The
bundle has one account per address and one value per slot; the order in which its
maps are iterated is the order of the lists.

## Main definitions

* `Block`, `Chain` — blocks, and chains in increasing block order.
* `BundleAccount`, `Bundle` — the accounts a chain changed.
* `chainEntries` — **the entries `process_chain` extracts from a bundle.**
-/

namespace UbtExex

/-! ### Bundles -/

/-- The fields of `AccountInfo`.  The code is the original byte slice, `none` when
it is not loaded. -/
structure AccountInfo where
  balance : U256
  nonce : BitVec 64
  codeHash : B256
  code : Option (List UInt8)
  deriving DecidableEq

/-- The fields of `BundleAccount`. -/
structure BundleAccount where
  /-- `none` when the account does not exist any more. -/
  info : Option AccountInfo
  /-- The slots of the account with their present values. -/
  storage : List (U256 × U256)
  /-- `status.was_destroyed()`. -/
  wasDestroyed : Bool
  storage_nodup : (storage.map Prod.fst).Nodup

/-- The accounts a chain changed. -/
structure Bundle where
  state : List (Address × BundleAccount)
  state_nodup : (state.map Prod.fst).Nodup

/-- The bundle of a chain that changed nothing. -/
def Bundle.empty : Bundle := ⟨[], List.nodup_nil⟩

/-! ### Blocks and chains -/

/-- The fields of a sealed block header. -/
structure Block where
  number : ℕ
  hash : B256
  parentHash : B256
  deriving DecidableEq

/-- A chain: its blocks by increasing number, and their bundle. -/
structure Chain where
  blocks : List Block
  bundle : Bundle
  blocks_ne_nil : blocks ≠ []
  blocks_sorted : blocks.Pairwise fun b b' => b.number < b'.number

namespace Chain

/-- `Chain::tip`: the block with the greatest number. -/
def tip (c : Chain) : Block := c.blocks.getLast c.blocks_ne_nil

/-- The block with the least number. -/
def first (c : Chain) : Block := c.blocks.head c.blocks_ne_nil

/-- A single block makes a chain. -/
theorem single_ne_nil (block : Block) : [block] ≠ [] := List.cons_ne_nil _ _

theorem single_sorted (block : Block) : [block].Pairwise fun b b' => b.number < b'.number :=
  List.pairwise_singleton _ _

/-- No block of a chain is below its first. -/
theorem first_le (c : Chain) {b : Block} (hb : b ∈ c.blocks) : c.first.number ≤ b.number := by
  rcases c with ⟨_ | ⟨b', bs⟩, bundle, hne, hsorted⟩
  · exact absurd rfl hne
  · rcases List.mem_cons.mp hb with rfl | hb
    · exact le_rfl
    · exact Nat.le_of_lt (List.rel_of_pairwise_cons hsorted hb)

/-- The block numbers from the greatest to the least. -/
def numbersDescending (c : Chain) : List ℕ := (c.blocks.map Block.number).reverse

end Chain

/-! ### Extraction of entries -/

/-- `KECCAK_EMPTY`. -/
def keccakEmpty : B256 := 0xc5d2460186f7233c927e7db2dcc703c0e500b653ca82273b7bfad8045d85a470

/-- `balance_to_u128`: balances that do not fit saturate. -/
def balanceToU128 (balance : U256) : BitVec 128 :=
  if balance.toNat > 2 ^ 128 - 1 then BitVec.allOnes 128 else balance.setWidth 128

/-- `u256_to_b256`: the big-endian bytes of the number. -/
def u256ToB256 (value : U256) : B256 := value

variable (U : Ubt)

/-- The entries of the code chunks, numbered from zero. -/
def codeEntries (address : Address) (code : List UInt8) : List PendingEntry :=
  (U.chunkifyCode code).mapIdx fun i chunk => ⟨U.getCodeChunkKey address i, chunk, address⟩

/-- The entries of an account's info: the basic-data leaf, and when the code hash
is a real one the code-hash leaf and the chunks of the code, if it is loaded. -/
def infoEntries (address : Address) (info : AccountInfo) : List PendingEntry :=
  let codeSize : BitVec 32 := BitVec.ofNat 32 ((info.code.map List.length).getD 0)
  ⟨U.getBasicDataKey address,
    U.basicDataLeaf info.nonce (balanceToU128 info.balance) codeSize, address⟩ ::
  if info.codeHash ≠ 0 ∧ info.codeHash ≠ keccakEmpty then
    ⟨U.getCodeHashKey address, info.codeHash, address⟩ ::
    match info.code with
    | some code => codeEntries U address code
    | none => []
  else []

/-- The entries of an account's storage. -/
def storageEntries (address : Address) (storage : List (U256 × U256)) : List PendingEntry :=
  storage.map fun (slot, value) =>
    ⟨U.getStorageSlotKey address (u256ToB256 slot), u256ToB256 value, address⟩

/-- The entries of one account. -/
def accountEntries (address : Address) (account : BundleAccount) : List PendingEntry :=
  (match account.info with
    | some info => infoEntries U address info
    | none => []) ++ storageEntries U address account.storage

/-- The entries that `process_chain` pushes for a bundle. -/
def chainEntries (bundle : Bundle) : List PendingEntry :=
  bundle.state.flatMap fun (address, account) => accountEntries U address account

/-! ### A small environment -/

/-- Simple keys and hashes, for runs on fixed inputs. -/
def sampleUbt : Ubt where
  getBasicDataKey address := ⟨address ++ 0#88, 0⟩
  getCodeHashKey address := ⟨address ++ 0#88, 1⟩
  getCodeChunkKey address i :=
    ⟨address ++ BitVec.ofNat 88 ((128 + i) / 256), UInt8.ofNat ((128 + i) % 256)⟩
  getStorageSlotKey address slot := ⟨address ++ slot.setWidth 88, 64⟩
  basicDataLeaf nonce balance codeSize :=
    codeSize.setWidth 256 <<< 192 ||| nonce.setWidth 256 <<< 128 ||| balance.setWidth 256
  chunkifyCode code := code.map fun b => b.toBitVec.setWidth 256
  buildRootHash entries := entries.foldl (fun h e => h * 3 + e.1.path + e.2) 1

/-- A bundle with one slot of one account. -/
def slotBundle (address : Address) (slot value : U256) : Bundle :=
  ⟨[(address, ⟨none, [(slot, value)], false, List.nodup_singleton _⟩)], List.nodup_singleton _⟩

/-- The key of a slot in the small environment. -/
def slotKey (address : Address) (slot : U256) : TreeKey := sampleUbt.getStorageSlotKey address slot

/-- The first block over a fresh start. -/
def block1 : Block := ⟨1, 11, 0⟩

/-- The child of `block1`. -/
def block2 : Block := ⟨2, 12, 11⟩

end UbtExex
