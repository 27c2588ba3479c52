import Mathlib.Data.Nat.Bitwise
import UbtExex.KeyIndex

/-!
# What the address tables hold

The key index and the table of stem addresses only ever grow: after an accepted
batch they hold what they held and what the batch adds, in whatever order and
however often it is given.  So the index is described by the address of each stem
and by the set of bits of its bitmap, and these determine the table.

## Main definitions

* `KeyIndex.bit` — whether a key is registered.

## Main results

* `KeyIndex.bit_applyUpdates`, `KeyIndex.isSome_applyUpdates` — **an accepted batch
  adds exactly its keys and its stems.**
* `KeyIndex.length_applyUpdates` — the count it returns.
* `KeyIndex.applyUpdates_ok_iff` — **which batches are accepted.**
* `KeyIndex.applyUpdates_perm`, `KeyIndex.applyUpdates_registered`,
  `KeyIndex.applyUpdates_append` — **batches permuted, repeated and divided.**
* `KeyIndex.table_ext` — addresses and bits determine the table.
* `UbtDatabase.batchSaveStemAddresses_accepts`, `UbtDatabase.batchSaveStemAddresses_sound`
  — the same for the MDBX table.
-/

open Std

namespace UbtExex

namespace KeyIndex

/-! ### Bitmaps -/

/-- A bit of a bitmap: that of a subindex, in byte `subindex / 8`. -/
def hasBit (bitmap : Vector UInt8 32) (subindex : UInt8) : Bool :=
  have byte_lt := byteIndex_lt subindex
  (bitmap[subindex.toNat / 8] &&& (1 <<< (subindex % 8))) != 0

theorem toNat_bit (subindex : UInt8) :
    ((1 : UInt8) <<< (subindex % 8)).toNat = 2 ^ (subindex.toNat % 8) := by
  have h : ∀ k : Fin 8, ((1 : UInt8) <<< (UInt8.ofNat k.val)).toNat = 2 ^ k.val := by decide
  have hk := h ⟨subindex.toNat % 8, Nat.mod_lt _ (by omega)⟩
  rw [← hk]
  congr 2
  apply UInt8.toNat_inj.mp
  simp
  omega

/-- A bit of a byte, as a bit of its number. -/
theorem bit_ne_zero (byte subindex : UInt8) :
    ((byte &&& (1 <<< (subindex % 8))) != 0) = byte.toNat.testBit (subindex.toNat % 8) := by
  rw [Bool.eq_iff_iff, bne_iff_ne, ne_eq, ← UInt8.toNat_inj, UInt8.toNat_and, toNat_bit,
    Nat.and_two_pow]
  cases byte.toNat.testBit (subindex.toNat % 8) <;> simp

theorem hasBit_eq (bitmap : Vector UInt8 32) (i : UInt8) (h : i.toNat / 8 < 32) :
    hasBit bitmap i = (bitmap[i.toNat / 8]).toNat.testBit (i.toNat % 8) :=
  bit_ne_zero _ _

theorem byte_lt (i : UInt8) : i.toNat / 8 < 32 := by
  have := i.toNat_lt
  omega

/-- Setting a bit sets that bit only. -/
theorem hasBit_setBit (bitmap : Vector UInt8 32) (i j : UInt8) :
    hasBit (setBit bitmap i) j = (decide (i = j) || hasBit bitmap j) := by
  have hi := byte_lt i
  have hj := byte_lt j
  rw [hasBit_eq _ _ hj, hasBit_eq _ _ hj]
  unfold setBit
  rw [Vector.getElem_set]
  by_cases hbyte : i.toNat / 8 = j.toNat / 8
  · have hij : i = j ↔ i.toNat % 8 = j.toNat % 8 := by
      rw [← UInt8.toNat_inj]
      omega
    simp only [hbyte, ↓reduceIte, UInt8.toNat_or, toNat_bit, Nat.testBit_or, Nat.testBit_two_pow,
      hij]
    exact Bool.or_comm _ _
  · have hij : i ≠ j := fun h => hbyte (by rw [h])
    simp [hbyte, hij]

theorem hasBit_replicate (i : UInt8) : hasBit (Vector.replicate 32 0) i = false := by
  rw [hasBit_eq _ _ (byte_lt i)]
  simp

theorem hasBit_zipWith (a b : Vector UInt8 32) (i : UInt8) :
    hasBit (Vector.zipWith (· ||| ·) a b) i = (hasBit a i || hasBit b i) := by
  have hi := byte_lt i
  rw [hasBit_eq _ _ hi, hasBit_eq _ _ hi, hasBit_eq _ _ hi]
  simp

/-- A bitmap is determined by its bits. -/
theorem bitmap_ext {a b : Vector UInt8 32} (h : ∀ i, hasBit a i = hasBit b i) : a = b := by
  refine Vector.ext fun k hk => ?_
  apply UInt8.toNat_inj.mp
  refine Nat.eq_of_testBit_eq fun j => ?_
  rcases Nat.lt_or_ge j 8 with hj | hj
  · have hi : (UInt8.ofNat (8 * k + j)).toNat = 8 * k + j := by
      rw [UInt8.toNat_ofNat']
      omega
    have hbyte : (UInt8.ofNat (8 * k + j)).toNat / 8 = k := by omega
    have hbit : (UInt8.ofNat (8 * k + j)).toNat % 8 = j := by omega
    have := h (UInt8.ofNat (8 * k + j))
    rw [hasBit_eq _ _ (byte_lt _), hasBit_eq _ _ (byte_lt _), hbit] at this
    simpa only [hbyte] using this
  · have hlt : ∀ x : UInt8, x.toNat < 2 ^ j := fun x =>
      Nat.lt_of_lt_of_le x.toNat_lt (Nat.pow_le_pow_right (by omega) hj)
    rw [Nat.testBit_lt_two_pow (hlt _), Nat.testBit_lt_two_pow (hlt _)]

/-! ### Registered keys -/

/-- The bit of a key in a table. -/
def rowBit (t : ExtTreeMap Stem StemRecord) (key : TreeKey) : Bool :=
  (t[key.stem]?).any fun r => hasBit r.bitmap key.subindex

/-- The key is registered. -/
def bit (ki : KeyIndex) (key : TreeKey) : Bool := rowBit ki.stemTable key

theorem rowBit_insert (t : ExtTreeMap Stem StemRecord) (stem : Stem) (r : StemRecord)
    (key : TreeKey) :
    rowBit (t.insert stem r) key =
      if stem = key.stem then hasBit r.bitmap key.subindex else rowBit t key := by
  unfold rowBit
  rw [Tables.getElem?_insert]
  split <;> rfl

/-- **Addresses and bits determine a table.** -/
theorem table_ext {t t' : ExtTreeMap Stem StemRecord}
    (haddr : ∀ stem, rowAddress t stem = rowAddress t' stem)
    (hbit : ∀ key, rowBit t key = rowBit t' key) : t = t' := by
  refine ExtTreeMap.ext_getElem? fun stem => ?_
  have ha := haddr stem
  have hb := fun i => hbit ⟨stem, i⟩
  unfold rowAddress at ha
  unfold rowBit at hb
  cases h : t[stem]? with
  | none =>
    cases h' : t'[stem]? with
    | none => rfl
    | some r' => rw [h, h'] at ha; cases ha
  | some r =>
    cases h' : t'[stem]? with
    | none => rw [h, h'] at ha; cases ha
    | some r' =>
      simp only [h, h', Option.map_some, Option.some.injEq, Option.any_some] at ha hb
      cases r
      cases r'
      simp only [Option.some.injEq, StemRecord.mk.injEq]
      exact ⟨ha, bitmap_ext hb⟩

theorem rowBit_groupUpdate (t : ExtTreeMap Stem StemRecord) (u : Stem × UInt8 × Address)
    (t' : ExtTreeMap Stem StemRecord) (h : groupUpdate t u = .ok t') (key : TreeKey) :
    rowBit t' key = true ↔ rowBit t key = true ∨ ⟨u.1, u.2.1⟩ = key := by
  unfold groupUpdate at h
  simp only [ne_eq, ite_not] at h
  split at h
  · obtain rfl := Except.ok.inj h
    rw [rowBit_insert]
    by_cases hstem : u.1 = key.stem
    · have hkey : (⟨u.1, u.2.1⟩ : TreeKey) = key ↔ u.2.1 = key.subindex := by
        cases key
        simp only [TreeKey.mk.injEq] at hstem ⊢
        simp [hstem]
      rw [if_pos hstem, hasBit_setBit, hkey, Bool.or_eq_true, decide_eq_true_eq, or_comm]
      refine or_congr_left ?_
      unfold rowBit
      rw [← hstem]
      cases t[u.1]? with
      | none => simp [hasBit_replicate]
      | some r => rfl
    · have hkey : (⟨u.1, u.2.1⟩ : TreeKey) ≠ key := fun hk => hstem (by rw [← hk])
      rw [if_neg hstem]
      simp [hkey]
  · cases h

theorem rowBit_mergeRow (t : ExtTreeMap Stem StemRecord × ℕ) (row : Stem × StemRecord)
    (t' : ExtTreeMap Stem StemRecord × ℕ) (h : mergeRow t row = .ok t') (key : TreeKey) :
    rowBit t'.1 key = true ↔
      rowBit t.1 key = true ∨ row.1 = key.stem ∧ hasBit row.2.bitmap key.subindex = true := by
  unfold mergeRow at h
  cases hrow : t.1[row.1]? with
  | none =>
    rw [hrow] at h
    obtain rfl := Except.ok.inj h
    rw [rowBit_insert]
    by_cases hstem : row.1 = key.stem
    · have hold : rowBit t.1 key = false := by
        unfold rowBit
        rw [← hstem, hrow]
        rfl
      simp [hstem, hold]
    · simp [hstem]
  | some r =>
    rw [hrow] at h
    simp only [ne_eq, ite_not] at h
    split at h
    · obtain rfl := Except.ok.inj h
      rw [rowBit_insert]
      by_cases hstem : row.1 = key.stem
      · have hold : rowBit t.1 key = hasBit r.bitmap key.subindex := by
          unfold rowBit
          rw [← hstem, hrow]
          rfl
        rw [if_pos hstem, hasBit_zipWith, hold, Bool.or_eq_true, or_comm]
        simp [hstem]
      · simp [hstem]
    · cases h

/-- **An accepted batch registers exactly its keys.** -/
theorem bit_applyUpdates {ki ki' : KeyIndex} {n : ℕ} {updates : List (Stem × UInt8 × Address)}
    (h : ki.applyUpdates updates = .ok (ki', n)) (key : TreeKey) :
    ki'.bit key = true ↔ ki.bit key = true ∨ ∃ u ∈ updates, ⟨u.1, u.2.1⟩ = key := by
  obtain ⟨perStem, hgroup, hmerge, -⟩ := applyUpdates_stages h
  have hrows := Registry.mem_foldlM
    (M := fun (t : ExtTreeMap Stem StemRecord × ℕ) key => rowBit t.1 key = true)
    rowBit_mergeRow hmerge key
  have hempty : ¬rowBit ∅ key = true := by simp [rowBit]
  have hups := Registry.mem_foldlM (M := fun t key => rowBit t key = true) rowBit_groupUpdate
    hgroup key
  rw [or_iff_right hempty] at hups
  unfold bit
  rw [hrows, ← hups]
  -- the grouped rows have exactly the bits of the updates
  refine or_congr_right ?_
  unfold rowBit
  constructor
  · rintro ⟨⟨stem, r⟩, hmem, hstem, hb⟩
    rw [ExtTreeMap.mem_toList_iff_getElem?_eq_some] at hmem
    simp only at hstem hb
    rw [← hstem, hmem]
    exact hb
  · intro hb
    rw [Option.any_eq_true] at hb
    obtain ⟨r, hr, hb⟩ := hb
    exact ⟨(key.stem, r), ExtTreeMap.mem_toList_iff_getElem?_eq_some.mpr hr, rfl, hb⟩

/-- **An accepted batch adds exactly its stems.** -/
theorem isSome_applyUpdates {ki ki' : KeyIndex} {n : ℕ} {updates : List (Stem × UInt8 × Address)}
    (h : ki.applyUpdates updates = .ok (ki', n)) (stem : Stem) :
    (ki'.address stem).isSome ↔ (ki.address stem).isSome ∨ ∃ u ∈ updates, u.1 = stem := by
  obtain ⟨hstay, hentry, -⟩ := applyUpdates_sound h
  constructor
  · intro hs
    by_contra hno
    rw [not_or, not_exists] at hno
    obtain ⟨hold, hups⟩ := hno
    -- no stage of the batch touches another stem
    obtain ⟨perStem, hgroup, hmerge, -⟩ := applyUpdates_stages h
    have hgroup' := (registers_groupUpdate.foldlM_sound hgroup).2.2 stem fun u hu hst =>
      hups u ⟨hu, hst⟩
    have hrow : perStem[stem]? = none := by
      simpa [rowAddress] using hgroup'
    have hmerge' := (registers_mergeRow.foldlM_sound hmerge).2.2 stem fun row hmem hst => by
      obtain ⟨stem', r⟩ := row
      simp only at hst
      rw [ExtTreeMap.mem_toList_iff_getElem?_eq_some, hst, hrow] at hmem
      cases hmem
    exact hold (by rw [address, ← hmerge']; exact hs)
  · rintro (hs | ⟨u, hu, rfl⟩)
    · obtain ⟨a, ha⟩ := Option.isSome_iff_exists.mp hs
      rw [hstay stem a ha]
      rfl
    · rw [hentry u hu]
      rfl

/-- **The addresses after an accepted batch.** -/
theorem address_applyUpdates {ki ki' : KeyIndex} {n : ℕ} {updates : List (Stem × UInt8 × Address)}
    (h : ki.applyUpdates updates = .ok (ki', n)) {stem : Stem} {a : Address} :
    ki'.address stem = some a ↔
      ki.address stem = some a ∨ ∃ u ∈ updates, u.1 = stem ∧ u.2.2 = a := by
  obtain ⟨hstay, hentry, -⟩ := applyUpdates_sound h
  constructor
  · intro ha
    rcases (isSome_applyUpdates h stem).mp (by rw [ha]; rfl) with hold | ⟨u, hu, rfl⟩
    · obtain ⟨a', ha'⟩ := Option.isSome_iff_exists.mp hold
      have hsame := hstay stem a' ha'
      rw [ha] at hsame
      exact .inl (by rw [ha', Option.some.inj hsame])
    · rw [hentry u hu] at ha
      exact .inr ⟨u, hu, rfl, Option.some.inj ha⟩
  · rintro (ha | ⟨u, hu, rfl, rfl⟩)
    · exact hstay stem a ha
    · exact hentry u hu

/-- The batch gives each stem one address, that of the index if it has one. -/
abbrev Consistent (ki : KeyIndex) (updates : List (Stem × UInt8 × Address)) : Prop :=
  Registry.Consistent address (fun u => u.1) (fun u => u.2.2) ki updates

/-- **A batch is accepted exactly when it gives each stem one address, that of the
index if it has one.** -/
theorem applyUpdates_ok_iff {ki : KeyIndex} {updates : List (Stem × UInt8 × Address)} :
    (∃ ki' n, ki.applyUpdates updates = .ok (ki', n)) ↔ ki.Consistent updates := by
  constructor
  · rintro ⟨ki', n, h⟩
    obtain ⟨hstay, hentry, -⟩ := applyUpdates_sound h
    constructor
    · intro u hu a ha
      have := hstay _ a ha
      rw [hentry u hu] at this
      exact (Option.some.inj this).symm
    · intro u hu u' hu' hstem
      have := hentry u hu
      rw [hstem, hentry u' hu'] at this
      exact (Option.some.inj this).symm
  · intro hc
    -- the owner of a stem is the address of the batch, or else that of the index
    refine @applyUpdates_accepts _ (fun stem =>
      ((updates.find? fun u => u.1 = stem).map fun u => u.2.2).getD ((ki.address stem).getD 0)) _
        ?_ ?_
    · intro stem a ha
      cases hfind : updates.find? fun u => u.1 = stem with
      | none => simp [ha]
      | some u =>
        have hstem : u.1 = stem := by simpa using List.find?_some hfind
        subst hstem
        exact hc.registered u (List.mem_of_find?_eq_some hfind) a ha
    · intro u hu
      cases hfind : updates.find? fun u' => u'.1 = u.1 with
      | none => exact absurd (decide_eq_true rfl) (List.find?_eq_none.mp hfind u hu)
      | some u' =>
        have hstem : u'.1 = u.1 := by simpa using List.find?_some hfind
        exact hc.among u hu u' (List.mem_of_find?_eq_some hfind) hstem.symm

/-! ### The number of stems -/

theorem length_forEachStem (ki : KeyIndex) : ki.forEachStem.length = ki.stemTable.size :=
  ExtTreeMap.length_toList

/-- A row that is merged adds to the table what it adds to the count. -/
theorem size_mergeRow {t t' : ExtTreeMap Stem StemRecord × ℕ} {row : Stem × StemRecord}
    (h : mergeRow t row = .ok t') : t'.1.size + t.2 = t.1.size + t'.2 := by
  unfold mergeRow at h
  cases hrow : t.1[row.1]? with
  | none =>
    rw [hrow] at h
    obtain rfl := Except.ok.inj h
    have hnot : ¬t.1.contains row.1 = true := by
      rw [ExtTreeMap.contains_eq_isSome_getElem?, hrow]
      simp
    rw [ExtTreeMap.size_insert, if_neg hnot]
    omega
  | some r =>
    rw [hrow] at h
    simp only [ne_eq, ite_not] at h
    split at h
    · obtain rfl := Except.ok.inj h
      have hmem : t.1.contains row.1 = true := by
        rw [ExtTreeMap.contains_eq_isSome_getElem?, hrow]
        rfl
      rw [ExtTreeMap.size_insert, if_pos hmem]
    · cases h

/-- **The count that an accepted batch returns is that of the rows it adds.** -/
theorem length_applyUpdates {ki ki' : KeyIndex} {n : ℕ} {updates : List (Stem × UInt8 × Address)}
    (h : ki.applyUpdates updates = .ok (ki', n)) :
    ki'.forEachStem.length = ki.forEachStem.length + n := by
  obtain ⟨perStem, -, hmerge, -⟩ := applyUpdates_stages h
  rw [length_forEachStem, length_forEachStem]
  -- the invariant of the merge: the table has grown by the count
  have hkept : ∀ (t : ExtTreeMap Stem StemRecord × ℕ) (row : Stem × StemRecord)
      (t' : ExtTreeMap Stem StemRecord × ℕ), mergeRow t row = .ok t' →
        t.1.size = ki.stemTable.size + t.2 → t'.1.size = ki.stemTable.size + t'.2 := by
    intro t row t' hrow ht
    have := size_mergeRow hrow
    omega
  exact Registry.foldlM_invariant hkept hmerge (by simp)

/-! ### Order -/

theorem groupUpdate_error {t : ExtTreeMap Stem StemRecord} {u : Stem × UInt8 × Address}
    {e : UbtError} (h : groupUpdate t u = .error e) : e = addressMismatch := by
  unfold groupUpdate at h
  simp only [ne_eq, ite_not] at h
  split at h
  · cases h
  · exact (Except.error.inj h).symm

theorem mergeRow_error {t : ExtTreeMap Stem StemRecord × ℕ} {row : Stem × StemRecord}
    {e : UbtError} (h : mergeRow t row = .error e) : e = addressMismatch := by
  unfold mergeRow at h
  split at h
  · simp only [ne_eq, ite_not] at h
    split at h
    · cases h
    · exact (Except.error.inj h).symm
  · cases h

/-- The updates of a batch are grouped in any order. -/
theorem foldlM_groupUpdate_perm {us us' : List (Stem × UInt8 × Address)} (h : us.Perm us')
    (t : ExtTreeMap Stem StemRecord) : us.foldlM groupUpdate t = us'.foldlM groupUpdate t :=
  registers_groupUpdate.foldlM_perm (P := fun _ => True) (fun _ _ _ => groupUpdate_error)
    rowBit_groupUpdate (fun _ _ _ _ _ => trivial)
    (fun _ _ _ _ haddr hbit => table_ext haddr fun key => Bool.eq_iff_iff.mpr (hbit key)) h trivial

/-- The rows of a batch are merged in any order. -/
theorem foldlM_mergeRow_perm {rows rows' : List (Stem × StemRecord)} (h : rows.Perm rows')
    (t : ExtTreeMap Stem StemRecord) :
    rows.foldlM mergeRow (t, 0) = rows'.foldlM mergeRow (t, 0) := by
  refine registers_mergeRow.foldlM_perm (P := fun s => s.1.size = t.size + s.2)
    (fun _ _ _ => mergeRow_error) rowBit_mergeRow ?_ ?_ h rfl
  · intro s row s' hrow hs
    have := size_mergeRow hrow
    omega
  · intro s s' hs hs' haddr hbit
    have htable : s.1 = s'.1 := table_ext haddr fun key => Bool.eq_iff_iff.mpr (hbit key)
    rw [htable] at hs
    exact Prod.ext htable (by omega)

/-- **The order of a batch does not matter.** -/
theorem applyUpdates_perm {us us' : List (Stem × UInt8 × Address)} (h : us.Perm us')
    (ki : KeyIndex) : ki.applyUpdates us = ki.applyUpdates us' := by
  unfold applyUpdates
  rw [foldlM_groupUpdate_perm h]

/-! ### Repeated and divided batches -/

/-- Addresses, keys and the head row determine an index. -/
theorem index_ext {ki ki' : KeyIndex} (haddr : ∀ stem a, ki.address stem = some a ↔
      ki'.address stem = some a) (hbit : ∀ key, ki.bit key = true ↔ ki'.bit key = true)
    (hhead : ki.head = ki'.head) : ki = ki' := by
  cases ki
  cases ki'
  rw [mk.injEq]
  exact ⟨table_ext (fun stem => Option.ext (haddr stem)) fun key =>
    Bool.eq_iff_iff.mpr (hbit key), hhead⟩

/-- **A batch of registered keys changes nothing.** -/
theorem applyUpdates_registered {ki : KeyIndex} {updates : List (Stem × UInt8 × Address)}
    (h : ∀ u ∈ updates, ki.address u.1 = some u.2.2 ∧ ki.bit ⟨u.1, u.2.1⟩ = true) :
    ki.applyUpdates updates = .ok (ki, 0) := by
  have hc : ki.Consistent updates := by
    refine ⟨fun u hu a ha => ?_, fun u hu u' hu' hstem => ?_⟩
    · rw [(h u hu).1] at ha
      exact (Option.some.inj ha).symm
    · have := (h u hu).1
      rw [hstem, (h u' hu').1] at this
      exact (Option.some.inj this).symm
  obtain ⟨ki', n, hok⟩ := applyUpdates_ok_iff.mpr hc
  have hki : ki' = ki := by
    refine index_ext (fun stem a => ?_) (fun key => ?_) (applyUpdates_sound hok).2.2
    · rw [address_applyUpdates hok, or_iff_left_of_imp]
      rintro ⟨u, hu, rfl, rfl⟩
      exact (h u hu).1
    · rw [bit_applyUpdates hok, or_iff_left_of_imp]
      rintro ⟨u, hu, rfl⟩
      exact (h u hu).2
  subst hki
  have hlen := length_applyUpdates hok
  have hn : n = 0 := by omega
  rw [hok, hn]

/-- **An accepted batch can be given in two parts.** -/
theorem applyUpdates_append {ki ki' : KeyIndex} {n : ℕ}
    {us₁ us₂ : List (Stem × UInt8 × Address)} (h : ki.applyUpdates (us₁ ++ us₂) = .ok (ki', n)) :
    ∃ ki₁ n₁ n₂, ki.applyUpdates us₁ = .ok (ki₁, n₁) ∧ ki₁.applyUpdates us₂ = .ok (ki', n₂) := by
  have hc : ki.Consistent (us₁ ++ us₂) := applyUpdates_ok_iff.mp ⟨ki', n, h⟩
  have hc₁ : ki.Consistent us₁ := hc.of_mem fun u hu => List.mem_append_left _ hu
  obtain ⟨ki₁, n₁, h₁⟩ := applyUpdates_ok_iff.mpr hc₁
  have hc₂ : ki₁.Consistent us₂ := by
    refine ⟨fun u hu a ha => ?_, fun u hu u' hu' => hc.among u (List.mem_append_right _ hu) u'
      (List.mem_append_right _ hu')⟩
    rcases (address_applyUpdates h₁).mp ha with hold | ⟨u', hu', hstem, rfl⟩
    · exact hc.registered u (List.mem_append_right _ hu) a hold
    · exact hc.among u' (List.mem_append_left _ hu') u (List.mem_append_right _ hu) hstem
  obtain ⟨ki₂, n₂, h₂⟩ := applyUpdates_ok_iff.mpr hc₂
  have hki : ki₂ = ki' := by
    refine index_ext (fun stem a => ?_) (fun key => ?_) ?_
    · rw [address_applyUpdates h₂, address_applyUpdates h₁, address_applyUpdates h]
      simp only [List.mem_append, or_and_right, exists_or, or_assoc]
    · rw [bit_applyUpdates h₂, bit_applyUpdates h₁, bit_applyUpdates h]
      simp only [List.mem_append, or_and_right, exists_or, or_assoc]
    · rw [(applyUpdates_sound h₂).2.2, (applyUpdates_sound h₁).2.2, (applyUpdates_sound h).2.2]
  subst hki
  exact ⟨ki₁, n₁, n₂, h₁, h₂⟩

end KeyIndex

/-! ### The table of stem addresses -/

namespace UbtDatabase

/-- The body of the loop of `batch_save_stem_addresses`. -/
theorem registers_saveAddress :
    Registry.Registers (fun (t : ExtTreeMap Stem Address) (stem : Stem) => t[stem]?)
      (fun m : Stem × Address => m.1) (fun m => m.2)
      (fun t m => match t[m.1]? with
        | some existing =>
          if existing ≠ m.2 then .error (.database (.mdbx "Stem address mismatch in MDBX"))
          else .ok t
        | none => (.ok (t.insert m.1 m.2) : Except UbtError _)) where
  accepts t m hm := by
    cases h : t[m.1]? with
    | none => exact ⟨_, rfl⟩
    | some a =>
      have ha : a = m.2 := hm a h
      exact ⟨t, if_neg (by simpa using ha)⟩
  sound t m t' h := by
    cases hrow : t[m.1]? with
    | none =>
      rw [hrow] at h
      obtain rfl := Except.ok.inj h
      exact ⟨(fun v hv => by cases hv), fun stem => Tables.getElem?_insert _ _ _ _⟩
    | some a =>
      rw [hrow] at h
      simp only [ne_eq, ite_not] at h
      split at h
      · next ha =>
        obtain rfl := Except.ok.inj h
        refine ⟨fun v hv => (Option.some.inj hv).symm.trans ha, fun stem => ?_⟩
        split
        · next hk => rw [← hk, hrow, ha]
        · rfl
      · cases h

/-- **Mappings that agree with one owner of each stem, as those of the table do, are
accepted.** -/
theorem batchSaveStemAddresses_accepts {db : UbtDatabase} {own : Stem → Address}
    {mappings : List (Stem × Address)} (hdb : ∀ stem a, db.loadStemAddress stem = some a → a = own stem)
    (hm : ∀ m ∈ mappings, m.2 = own m.1) :
    ∃ db', db.batchSaveStemAddresses mappings = .ok db' := by
  obtain ⟨t, ht, -⟩ := registers_saveAddress.foldlM_accepts hdb hm
  refine ⟨{ db with stemAddresses := t }, ?_⟩
  exact congrArg (fun r => r >>= fun t => (pure { db with stemAddresses := t } :
    Except UbtError UbtDatabase)) ht

/-- **Accepted mappings are in the table, addresses never change, and no other stem
gets one.** -/
theorem batchSaveStemAddresses_sound {db db' : UbtDatabase} {mappings : List (Stem × Address)}
    (h : db.batchSaveStemAddresses mappings = .ok db') :
    (∀ stem a, db.loadStemAddress stem = some a → db'.loadStemAddress stem = some a) ∧
      (∀ m ∈ mappings, db'.loadStemAddress m.1 = some m.2) ∧
      ∀ stem, (∀ m ∈ mappings, m.1 ≠ stem) →
        db'.loadStemAddress stem = db.loadStemAddress stem := by
  unfold batchSaveStemAddresses at h
  simp only [bind, Except.bind] at h
  split at h
  · cases h
  · next t ht =>
    obtain rfl := Except.ok.inj h
    exact registers_saveAddress.foldlM_sound ht

/-- **The order of the mappings does not matter.** -/
theorem batchSaveStemAddresses_perm {ms ms' : List (Stem × Address)} (h : ms.Perm ms')
    (db : UbtDatabase) : db.batchSaveStemAddresses ms = db.batchSaveStemAddresses ms' := by
  have hfold := registers_saveAddress.foldlM_perm (P := fun _ => True)
    (M := fun _ (a : Empty) => a.elim) (A := fun _ a => a.elim)
    (d := .database (.mdbx "Stem address mismatch in MDBX")) ?_ (fun _ _ _ _ a => a.elim)
    (fun _ _ _ _ _ => trivial) (fun _ _ _ _ haddr _ => ExtTreeMap.ext_getElem? haddr) h
    (t := db.stemAddresses) trivial
  · unfold batchSaveStemAddresses
    exact congrArg (fun r => r >>= fun t => (pure { db with stemAddresses := t } :
      Except UbtError UbtDatabase)) hfold
  · intro t m e he
    split at he
    · simp only [ne_eq, ite_not] at he
      split at he
      · cases he
      · exact (Except.error.inj he).symm
    · cases he

end UbtDatabase

end UbtExex
