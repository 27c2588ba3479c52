import UbtExex.Lib.Registry
import UbtExex.Persistence

/-!
# The key index

The per-stem table of addresses and subindex bitmaps, with its own head row.  A
batch of updates is first grouped by stem and then merged into the table in one
transaction; both stages refuse a stem with two addresses.

## Main definitions

* `KeyIndex.applyUpdates` — group a batch, then merge it.
* `KeyIndex.forEachStem` — the rows in order.

## Main results

* `KeyIndex.applyUpdates_accepts` — **a batch whose addresses agree with one owner
  of each stem, as those of the table do, is accepted.**
* `KeyIndex.applyUpdates_sound` — **an accepted batch has its addresses in the
  table, and addresses never change.**
-/

open Std

namespace UbtExex

/-- `StemRecord`: the address of a stem and a bit for each subindex written under it. -/
structure StemRecord where
  address : Address
  bitmap : Vector UInt8 32
  deriving DecidableEq

/-- `HeadRecord`. -/
structure HeadRecord where
  blockNumber : ℕ
  blockHash : B256
  root : B256
  stemCount : ℕ
  deriving DecidableEq

/-- The tables of the key index. -/
structure KeyIndex where
  /-- `ubt_stems`. -/
  stemTable : ExtTreeMap Stem StemRecord
  /-- The `head` row of `ubt_meta`. -/
  head : Option HeadRecord

namespace KeyIndex

/-- A freshly created index. -/
def empty : KeyIndex := ⟨∅, none⟩

/-- The message of both address checks. -/
def addressMismatch : UbtError := .database (.mdbx "Stem address mismatch in key index")

/-- A subindex has a byte in the bitmap. -/
theorem byteIndex_lt (subindex : UInt8) : subindex.toNat / 8 < 32 := by
  have := subindex.toNat_lt
  omega

/-- `set_bit`: the bit of a subindex, in byte `subindex / 8`. -/
def setBit (bitmap : Vector UInt8 32) (subindex : UInt8) : Vector UInt8 32 :=
  have byte_lt := byteIndex_lt subindex
  bitmap.set (subindex.toNat / 8) (bitmap[subindex.toNat / 8] ||| (1 <<< (subindex % 8)))

/-- The rows gathered so far for a batch, with one more update. -/
def groupUpdate (perStem : ExtTreeMap Stem StemRecord) (u : Stem × UInt8 × Address) :
    Except UbtError (ExtTreeMap Stem StemRecord) :=
  let entry := (perStem[u.1]?).getD ⟨u.2.2, Vector.replicate 32 0⟩
  if entry.address ≠ u.2.2 then .error addressMismatch
  else .ok (perStem.insert u.1 ⟨entry.address, setBit entry.bitmap u.2.1⟩)

/-- The table and the count of new stems, with one more row of a batch. -/
def mergeRow (t : ExtTreeMap Stem StemRecord × ℕ) (row : Stem × StemRecord) :
    Except UbtError (ExtTreeMap Stem StemRecord × ℕ) :=
  match t.1[row.1]? with
  | some existing =>
    if existing.address ≠ row.2.address then .error addressMismatch
    else .ok (t.1.insert row.1
      ⟨row.2.address, Vector.zipWith (· ||| ·) row.2.bitmap existing.bitmap⟩, t.2)
  | none => .ok (t.1.insert row.1 row.2, t.2 + 1)

/-- `apply_updates`: the index after a batch, and the number of stems it added. -/
def applyUpdates (ki : KeyIndex) (updates : List (Stem × UInt8 × Address)) :
    Except UbtError (KeyIndex × ℕ) := do
  let perStem ← updates.foldlM groupUpdate ∅
  let t ← perStem.toList.foldlM mergeRow (ki.stemTable, 0)
  return ({ ki with stemTable := t.1 }, t.2)

/-- `save_head`. -/
def saveHead (ki : KeyIndex) (head : HeadRecord) : KeyIndex := { ki with head := some head }

/-- `load_head`. -/
def loadHead (ki : KeyIndex) : Option HeadRecord := ki.head

/-- `for_each_stem`: the rows that the callback gets, in the order of their stems. -/
def forEachStem (ki : KeyIndex) : List (Stem × StemRecord) := ki.stemTable.toList

/-! ### Addresses -/

/-- The address of a row. -/
def rowAddress (t : ExtTreeMap Stem StemRecord) (stem : Stem) : Option Address :=
  (t[stem]?).map StemRecord.address

/-- The address the index has for a stem. -/
def address (ki : KeyIndex) (stem : Stem) : Option Address := rowAddress ki.stemTable stem

theorem rowAddress_insert (t : ExtTreeMap Stem StemRecord) (stem stem' : Stem) (r : StemRecord) :
    rowAddress (t.insert stem r) stem' =
      if stem = stem' then some r.address else rowAddress t stem' := by
  unfold rowAddress
  rw [Tables.getElem?_insert]
  split <;> rfl

theorem registers_groupUpdate :
    Registry.Registers rowAddress (fun u : Stem × UInt8 × Address => u.1) (fun u => u.2.2)
      groupUpdate where
  accepts t u hu := by
    unfold groupUpdate
    cases h : t[u.1]? with
    | none => exact ⟨_, if_neg (by simp)⟩
    | some r =>
      have hr : r.address = u.2.2 := hu _ (by simp [rowAddress, h])
      exact ⟨_, if_neg (by simpa using hr)⟩
  sound t u t' h := by
    unfold groupUpdate at h
    simp only [ne_eq, ite_not] at h
    split at h
    · next hr =>
      obtain rfl := Except.ok.inj h
      constructor
      · intro v hv
        simp only [rowAddress, Option.map_eq_some_iff] at hv
        obtain ⟨r, hrow, rfl⟩ := hv
        simpa [hrow] using hr
      · intro stem
        rw [rowAddress_insert, hr]
    · cases h

theorem registers_mergeRow :
    Registry.Registers (fun t : ExtTreeMap Stem StemRecord × ℕ => rowAddress t.1)
      (fun row : Stem × StemRecord => row.1) (fun row => row.2.address) mergeRow where
  accepts t row hrow := by
    unfold mergeRow
    cases h : t.1[row.1]? with
    | none => exact ⟨_, rfl⟩
    | some r =>
      have hr : r.address = row.2.address := hrow _ (by simp [rowAddress, h])
      exact ⟨_, if_neg (by simpa using hr)⟩
  sound t row t' h := by
    unfold mergeRow at h
    cases hrow : t.1[row.1]? with
    | none =>
      rw [hrow] at h
      obtain rfl := Except.ok.inj h
      exact ⟨by simp [rowAddress, hrow], fun stem => rowAddress_insert _ _ _ _⟩
    | some r =>
      rw [hrow] at h
      simp only [ne_eq, ite_not] at h
      split at h
      · next hr =>
        obtain rfl := Except.ok.inj h
        exact ⟨by simp [rowAddress, hrow, hr], fun stem => rowAddress_insert _ _ _ _⟩
      · cases h

/-- **A batch whose addresses agree with one owner of each stem, as those of the
table do, is accepted.** -/
theorem applyUpdates_accepts {ki : KeyIndex} {own : Stem → Address}
    {updates : List (Stem × UInt8 × Address)}
    (hki : ∀ stem a, ki.address stem = some a → a = own stem)
    (hu : ∀ u ∈ updates, u.2.2 = own u.1) : ∃ ki' n, ki.applyUpdates updates = .ok (ki', n) := by
  have hempty : Registry.OwnedBy rowAddress own ∅ := by
    intro stem a ha
    simp [rowAddress] at ha
  obtain ⟨perStem, hgroup, howned⟩ := registers_groupUpdate.foldlM_accepts hempty hu
  have hrows : ∀ row ∈ perStem.toList, row.2.address = own row.1 := by
    rintro ⟨stem, r⟩ hrow
    rw [ExtTreeMap.mem_toList_iff_getElem?_eq_some] at hrow
    exact howned stem r.address (by simp [rowAddress, hrow])
  obtain ⟨t, hmerge, -⟩ := registers_mergeRow.foldlM_accepts (t := (ki.stemTable, 0)) hki hrows
  refine ⟨{ ki with stemTable := t.1 }, t.2, ?_⟩
  unfold applyUpdates
  rw [hgroup]
  change (List.foldlM mergeRow (ki.stemTable, 0) perStem.toList >>= _) = _
  rw [hmerge]
  rfl

/-- The two stages of an accepted batch. -/
theorem applyUpdates_stages {ki ki' : KeyIndex} {n : ℕ} {updates : List (Stem × UInt8 × Address)}
    (h : ki.applyUpdates updates = .ok (ki', n)) :
    ∃ perStem, updates.foldlM groupUpdate ∅ = .ok perStem ∧
      perStem.toList.foldlM mergeRow (ki.stemTable, 0) = .ok (ki'.stemTable, n) ∧
      ki'.head = ki.head := by
  unfold applyUpdates at h
  cases hgroup : updates.foldlM groupUpdate ∅ with
  | error e => rw [hgroup] at h; cases h
  | ok perStem =>
    rw [hgroup] at h
    change (List.foldlM mergeRow (ki.stemTable, 0) perStem.toList >>= _) = _ at h
    cases hmerge : perStem.toList.foldlM mergeRow (ki.stemTable, 0) with
    | error e => rw [hmerge] at h; cases h
    | ok t =>
      rw [hmerge] at h
      obtain ⟨rfl, rfl⟩ := Prod.mk.inj (Except.ok.inj h)
      exact ⟨perStem, rfl, hmerge, rfl⟩

/-- **An accepted batch has its addresses in the table, addresses never change, and
the head row is untouched.** -/
theorem applyUpdates_sound {ki ki' : KeyIndex} {n : ℕ} {updates : List (Stem × UInt8 × Address)}
    (h : ki.applyUpdates updates = .ok (ki', n)) :
    (∀ stem a, ki.address stem = some a → ki'.address stem = some a) ∧
      (∀ u ∈ updates, ki'.address u.1 = some u.2.2) ∧ ki'.head = ki.head := by
  obtain ⟨perStem, hgroup, hmerge, hhead⟩ := applyUpdates_stages h
  obtain ⟨-, hreg, -⟩ := registers_groupUpdate.foldlM_sound hgroup
  obtain ⟨hstay, hrows, -⟩ := registers_mergeRow.foldlM_sound hmerge
  refine ⟨hstay, fun u hu => ?_, hhead⟩
  have hrow := hreg u hu
  simp only [rowAddress, Option.map_eq_some_iff] at hrow
  obtain ⟨r, hr, ha⟩ := hrow
  rw [← ha]
  exact hrows (u.1, r) (ExtTreeMap.mem_toList_iff_getElem?_eq_some.mpr hr)

end KeyIndex

end UbtExex
