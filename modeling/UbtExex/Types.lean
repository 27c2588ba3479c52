import Mathlib.Data.BitVec
import UbtExex.Lib.Tables

/-!
# The types of the `ubt` crate and of the EVM primitives

Fixed-width byte arrays are bit vectors read in big-endian order, so that the
lexicographic order of the bytes is the order of the numbers.  A `StemNode` is a
finite map from subindices to non-zero values: `set_value` with zero removes the
subindex, and no other operation of the crate writes one.

What the extension only calls — key derivation, code chunking, leaf encoding and
the root builder — is the parameter `Ubt` of the development.

## Main definitions

* `Stem`, `TreeKey`, `StemNode` — keys and stem nodes of the tree.
* `treeIndexFromKey` — the 32-byte path of a key in NOMT.
* `Ubt` — the functions of the `ubt` crate.
* `UbtError` — the errors of the extension.
-/

open Std

namespace UbtExex

/-! ### Byte arrays -/

/-- A 32-byte word. -/
abbrev B256 := BitVec 256

/-- A 256-bit unsigned integer. -/
abbrev U256 := BitVec 256

/-- A 20-byte account address. -/
abbrev Address := BitVec 160

/-- A 31-byte stem. -/
abbrev Stem := BitVec 248

/-- A 32-byte NOMT key path. -/
abbrev KeyPath := BitVec 256

/-- The rows of the tables are ordered by the bytes of their keys. -/
instance Stem.transOrd : TransOrd Stem := inferInstance

instance KeyPath.transOrd : TransOrd KeyPath := inferInstance

/-- A key of the tree: a stem and a subindex under it. -/
structure TreeKey where
  stem : Stem
  subindex : UInt8
  deriving DecidableEq

/-- `tree_index_from_key`: the 31 bytes of the stem followed by the subindex. -/
def treeIndexFromKey (stem : Stem) (subindex : UInt8) : KeyPath := stem ++ subindex.toBitVec

theorem treeIndexFromKey_inj {stem stem' : Stem} {i i' : UInt8}
    (h : treeIndexFromKey stem i = treeIndexFromKey stem' i') : stem = stem' ∧ i = i' := by
  unfold treeIndexFromKey at h
  have hs := congrArg (fun x => BitVec.extractLsb' 8 248 x) h
  have hi := congrArg (fun x => BitVec.extractLsb' 0 8 x) h
  simp only [BitVec.extractLsb'_append_eq_left, BitVec.extractLsb'_append_eq_right] at hs hi
  exact ⟨hs, UInt8.toBitVec_inj.mp hi⟩

/-- The NOMT path of a tree key. -/
def TreeKey.path (k : TreeKey) : KeyPath := treeIndexFromKey k.stem k.subindex

theorem TreeKey.path_injective : Function.Injective TreeKey.path := by
  intro k k' h
  obtain ⟨hs, hi⟩ := treeIndexFromKey_inj h
  cases k; cases k'
  exact congrArg₂ TreeKey.mk hs hi

/-! ### Stem nodes -/

/-- A stem node: a finite map from subindices to non-zero values. -/
structure StemNode where
  values : ExtTreeMap UInt8 B256
  /-- A zero value is never stored: it means that the subindex is absent. -/
  values_ne_zero : ∀ i : UInt8, values[i]? ≠ some 0

namespace StemNode

@[ext] theorem ext_values {n n' : StemNode} (h : n.values = n'.values) : n = n' := by
  cases n; cases n'; cases h; rfl

/-- `StemNode::new`: the node without values. -/
def new : StemNode := ⟨∅, by simp⟩

/-- `StemNode::get_value`. -/
def getValue (n : StemNode) (subindex : UInt8) : Option B256 := n.values[subindex]?

/-- `StemNode::set_value`: a zero value removes the subindex. -/
def setValue (n : StemNode) (subindex : UInt8) (value : B256) : StemNode :=
  if hv : value = 0 then
    ⟨n.values.erase subindex, by
      intro i
      rw [Tables.getElem?_erase]
      split
      · simp
      · exact n.values_ne_zero i⟩
  else
    ⟨n.values.insert subindex value, by
      intro i
      rw [Tables.getElem?_insert]
      split
      · simpa using hv
      · exact n.values_ne_zero i⟩

/-- The value at a subindex, zero when absent. -/
def value (n : StemNode) (subindex : UInt8) : B256 := (n.getValue subindex).getD 0

@[simp] theorem value_new (i : UInt8) : new.value i = 0 := by
  simp [value, getValue, new]

theorem value_setValue (n : StemNode) (i j : UInt8) (v : B256) :
    (n.setValue i v).value j = if i = j then v else n.value j := by
  unfold value getValue setValue
  by_cases hv : v = 0
  · simp only [hv, ↓reduceDIte, Tables.getElem?_erase]
    split <;> rfl
  · simp only [hv, ↓reduceDIte, Tables.getElem?_insert]
    split <;> rfl

/-- A subindex holds a value exactly when the value read there is not zero. -/
theorem values_eq_some_iff {n : StemNode} {i : UInt8} {v : B256} :
    n.values[i]? = some v ↔ v ≠ 0 ∧ n.value i = v := by
  have hz := n.values_ne_zero i
  unfold value getValue
  cases h : n.values[i]? with
  | none => simp only [Option.getD_none, reduceCtorEq, false_iff]; rintro ⟨hv, rfl⟩; exact hv rfl
  | some w =>
    rw [h] at hz
    simp only [Option.some.injEq, Option.getD_some, ne_eq] at hz ⊢
    constructor
    · rintro rfl; exact ⟨hz, rfl⟩
    · exact fun hv => hv.2

/-- A node is determined by the values read from it. -/
theorem ext_value {n n' : StemNode} (h : ∀ i, n.value i = n'.value i) : n = n' := by
  refine ext_values (ExtTreeMap.ext_getElem? fun i => Option.ext fun v => ?_)
  rw [values_eq_some_iff, values_eq_some_iff, h i]

/-- The subindices of a node in increasing order. -/
def subindices (n : StemNode) : List UInt8 := n.values.keys

theorem mem_subindices {n : StemNode} {i : UInt8} : i ∈ n.subindices ↔ n.value i ≠ 0 := by
  rw [subindices, ExtTreeMap.mem_keys, ExtTreeMap.mem_iff_isSome_getElem?]
  constructor
  · intro h
    obtain ⟨v, hv⟩ := Option.isSome_iff_exists.mp h
    obtain ⟨hne, rfl⟩ := values_eq_some_iff.mp hv
    exact hne
  · intro h
    rw [values_eq_some_iff.mpr ⟨h, rfl⟩]
    rfl

end StemNode

/-! ### The `ubt` crate -/

/-- The functions of the `ubt` crate that the extension calls. -/
structure Ubt where
  /-- `get_basic_data_key`. -/
  getBasicDataKey : Address → TreeKey
  /-- `get_code_hash_key`. -/
  getCodeHashKey : Address → TreeKey
  /-- `get_code_chunk_key`. -/
  getCodeChunkKey : Address → ℕ → TreeKey
  /-- `get_storage_slot_key`. -/
  getStorageSlotKey : Address → B256 → TreeKey
  /-- `BasicDataLeaf::new(nonce, balance, code_size)` and its `encode`. -/
  basicDataLeaf : BitVec 64 → BitVec 128 → BitVec 32 → B256
  /-- `chunkify_code`, with every chunk encoded. -/
  chunkifyCode : List UInt8 → List B256
  /-- `StreamingTreeBuilder::build_root_hash_parallel` of a sorted list of entries. -/
  buildRootHash : List (TreeKey × B256) → B256

/-- `PendingEntry`: a write waiting for the next commit. -/
structure PendingEntry where
  key : TreeKey
  value : B256
  address : Address
  deriving DecidableEq

/-- The key and the value an entry writes. -/
def PendingEntry.write (e : PendingEntry) : TreeKey × B256 := (e.key, e.value)

/-! ### Errors -/

/-- `DatabaseError`, with the text of its message. -/
inductive DatabaseError
  /-- `"MDBX error: {0}"`. -/
  | mdbx (message : String)
  deriving DecidableEq, Repr

/-- `UbtError`. -/
inductive UbtError
  /-- A store refused an operation. -/
  | database (e : DatabaseError)
  /-- The root of the stored stems is not the root of the stored head. -/
  | rootVerificationFailed (expected computed : B256)
  deriving DecidableEq, Repr

end UbtExex
