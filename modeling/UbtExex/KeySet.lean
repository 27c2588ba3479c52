import Mathlib.Data.List.Dedup
import UbtExex.PackedIndex
import UbtExex.Pir2
import UbtExex.TwoExports

/-!
# The key index is a set of keys

Whatever batches an index is given, and in whatever order their hash maps are
iterated, its stored table lists the keys of the accepted batches in order, each
stem with its one address, and the counts that the calls return add up to the
number of stems.  A batch is refused exactly when it would give a stem a second
address, and then it leaves no trace, so batches may be permuted and repeated, and
accepted ones may be divided.  A refused batch may not: its first part can be
accepted.

## Main definitions

* `Fed` — the stored table and the accepted batches after a sequence of calls.
* `enumerate` — the keys that the exporters read from the table.
* `Refused` — a batch that would give a stem two addresses.

## Main results

* `key_index_is_key_set` — **the index is the set of the keys of the accepted batches.**
* `divided_batch_accepted` — a refused batch may not be divided.
-/

open Std

namespace UbtExex

namespace PackedIndex

open KeyIndex

/-! ### Sequences of calls -/

/-- What a sequence of calls leaves: the stored table, and the batches for which
`apply_updates` returned `Ok`, with the counts. -/
structure Fed where
  table : PackedTable
  accepted : List (Batch × ℕ)

/-- One more call.  On an error the transaction is dropped. -/
def Fed.call (s : Fed) (b : Batch) : Fed :=
  match applyBatch s.table b with
  | .ok (t, n) => ⟨t, s.accepted ++ [(b, n)]⟩
  | .error _ => s

/-- A sequence of calls on a fresh index. -/
def fed (batches : List Batch) : Fed := batches.foldl Fed.call ⟨∅, []⟩

/-- The keys that `for_each_stem` and `iter_bitmap_subindices` enumerate, each with
the address of its stem. -/
def enumerate (t : PackedTable) : Except UbtError (List (Stem × UInt8 × Address)) :=
  forEachStem t (fun keys stem r =>
    .ok (keys ++ (iterBitmapSubindices r.bitmap).map fun i => (stem, i, r.address))) []

/-- The order of the keys: by stem, then by subindex. -/
def KeyLt (k k' : Stem × UInt8 × Address) : Prop := k.1 < k'.1 ∨ k.1 = k'.1 ∧ k.2.1 < k'.2.1

/-- Some stem occurs in the batch with two addresses, or with another one than the
table has for it. -/
def Refused (t : PackedTable) (us : List (Stem × UInt8 × Address)) : Prop :=
  ∃ u ∈ us, (∃ u' ∈ us, u'.1 = u.1 ∧ u'.2.2 ≠ u.2.2) ∨
    ∃ bytes a bitmap, t[u.1]? = some bytes ∧ splitValue bytes = .ok (a, bitmap) ∧ a ≠ u.2.2

/-! ### The records behind the stored table -/

/-- A call on the records. -/
def feedRecords (ki : KeyIndex) (us : List (Stem × UInt8 × Address)) : KeyIndex :=
  match ki.applyUpdates us with
  | .ok (ki', _) => ki'
  | .error _ => ki

/-- The records after a sequence of calls. -/
def recordsAfter (batches : List Batch) : KeyIndex :=
  batches.foldl (fun ki b => feedRecords ki b.updates) .empty

/-- The stored table packs the records, which hold the keys of the accepted batches. -/
structure Represents (s : Fed) (ki : KeyIndex) : Prop where
  table : s.table = packTable ki.stemTable
  address : ∀ stem a, ki.address stem = some a ↔
    ∃ b ∈ s.accepted, ∃ u ∈ b.1.updates, u.1 = stem ∧ u.2.2 = a
  bit : ∀ key, ki.bit key = true ↔
    ∃ b ∈ s.accepted, ∃ u ∈ b.1.updates, (⟨u.1, u.2.1⟩ : TreeKey) = key
  counts : (s.accepted.map fun b => b.2).sum = ki.forEachStem.length

theorem represents_empty : Represents ⟨∅, []⟩ .empty where
  table := by
    refine ExtTreeMap.ext_getElem? fun stem => ?_
    rw [getElem?_packTable]
    simp [KeyIndex.empty]
  address := by simp [KeyIndex.empty, KeyIndex.address, rowAddress]
  bit := by simp [KeyIndex.empty, KeyIndex.bit, rowBit]
  counts := rfl

/-- **A call keeps the table packed and the records those of the accepted batches.** -/
theorem Represents.call {s : Fed} {ki : KeyIndex} (h : Represents s ki) (b : Batch) :
    Represents (s.call b) (feedRecords ki b.updates) := by
  have hcall := applyBatch_packTable ki b
  rw [← h.table] at hcall
  unfold Fed.call feedRecords
  cases hups : ki.applyUpdates b.updates with
  | error e =>
    rw [hcall, hups]
    exact h
  | ok p =>
    obtain ⟨ki', n⟩ := p
    rw [hcall, hups]
    change Represents ⟨packTable ki'.stemTable, s.accepted ++ [(b, n)]⟩ ki'
    refine ⟨rfl, fun stem a => ?_, fun key => ?_, ?_⟩
    -- the accepted batches are now those from before and this one
    · rw [address_applyUpdates hups, h.address]
      simp only [List.mem_append, List.mem_singleton, or_and_right, exists_or, exists_eq_left]
    · rw [bit_applyUpdates hups, h.bit]
      simp only [List.mem_append, List.mem_singleton, or_and_right, exists_or, exists_eq_left]
    · rw [length_applyUpdates hups, List.map_append, List.sum_append, h.counts]
      simp

theorem Represents.foldl {s : Fed} {ki : KeyIndex} (h : Represents s ki) (batches : List Batch) :
    Represents (batches.foldl Fed.call s)
      (batches.foldl (fun ki b => feedRecords ki b.updates) ki) := by
  induction batches generalizing s ki with
  | nil => exact h
  | cons b batches ih => exact ih (h.call b)

theorem represents_fed (batches : List Batch) : Represents (fed batches) (recordsAfter batches) :=
  represents_empty.foldl batches

/-! ### Which batches are refused -/

theorem refused_packTable_iff (ki : KeyIndex) (us : List (Stem × UInt8 × Address)) :
    Refused (packTable ki.stemTable) us ↔ ¬ki.Consistent us := by
  have hstored : ∀ stem a, (∃ bytes a' bitmap, (packTable ki.stemTable)[stem]? = some bytes ∧
      splitValue bytes = .ok (a', bitmap) ∧ a' ≠ a) ↔ ∃ a', ki.address stem = some a' ∧ a' ≠ a := by
    intro stem a
    rw [getElem?_packTable, KeyIndex.address, rowAddress]
    cases ki.stemTable[stem]? with
    | none => simp
    | some r => simp [splitValue_packValue]
  unfold Refused
  simp only [hstored]
  constructor
  · rintro ⟨u, hu, ⟨u', hu', hstem, hne⟩ | ⟨a, ha, hne⟩⟩ hc
    · exact hne (hc.among u' hu' u hu hstem)
    · exact hne (hc.registered u hu a ha)
  · intro hc
    by_contra hno
    -- a stem has two addresses either in the table or within the batch
    refine hc ⟨fun u hu a ha => ?_, fun u hu u' hu' hstem => ?_⟩
    · by_contra hne
      exact hno ⟨u, hu, .inr ⟨a, ha, hne⟩⟩
    · by_contra hne
      exact hno ⟨u', hu', .inl ⟨u, hu, hstem, hne⟩⟩

/-- **A call returns an error exactly for a batch that is to be refused.** -/
theorem applyBatch_error_iff {s : Fed} {ki : KeyIndex} (h : Represents s ki) (b : Batch) :
    (∃ e, applyBatch s.table b = .error e) ↔ Refused s.table b.updates := by
  rw [h.table, applyBatch_packTable, refused_packTable_iff, ← applyUpdates_ok_iff]
  cases ki.applyUpdates b.updates with
  | error e => simp [Except.map]
  | ok p => exact iff_of_false (fun ⟨e, he⟩ => by cases he) fun hno => hno ⟨p.1, p.2, rfl⟩

/-- A refused batch leaves no trace. -/
theorem call_of_error {s : Fed} {b : Batch} (h : ∃ e, applyBatch s.table b = .error e) :
    s.call b = s := by
  obtain ⟨e, he⟩ := h
  unfold Fed.call
  rw [he]

theorem fed_concat (batches : List Batch) (b : Batch) :
    fed (batches ++ [b]) = (fed batches).call b := by
  unfold fed
  rw [List.foldl_append]
  rfl

/-! ### The enumeration -/

/-- The keys of the records, in their order. -/
def recordKeys (ki : KeyIndex) : List (Stem × UInt8 × Address) :=
  ki.forEachStem.flatMap fun row =>
    (iterBitmapSubindices row.2.bitmap).map fun i => (row.1, i, row.2.address)

theorem enumerate_packTable (ki : KeyIndex) :
    enumerate (packTable ki.stemTable) = .ok (recordKeys ki) := by
  have hrows : ∀ (rows : List (Stem × StemRecord)) (keys : List (Stem × UInt8 × Address)),
      rows.foldlM (fun keys row => (.ok (keys ++ (iterBitmapSubindices row.2.bitmap).map
        fun i => (row.1, i, row.2.address)) : Except UbtError _)) keys =
        .ok (keys ++ rows.flatMap fun row =>
          (iterBitmapSubindices row.2.bitmap).map fun i => (row.1, i, row.2.address)) := by
    intro rows
    induction rows with
    | nil => intro keys; rw [List.flatMap_nil, List.append_nil]; rfl
    | cons row rows ih =>
      intro keys
      rw [List.foldlM_cons, List.flatMap_cons, ← List.append_assoc]
      exact ih _
  unfold enumerate
  rw [forEachStem_packTable]
  exact (hrows ki.forEachStem []).trans (congrArg _ (List.nil_append _))

/-- The keys strictly increase. -/
theorem pairwise_recordKeys (ki : KeyIndex) : (recordKeys ki).Pairwise KeyLt := by
  unfold recordKeys
  rw [List.pairwise_flatMap]
  constructor
  · intro row _
    exact List.pairwise_map.mpr ((pairwise_iterBitmapSubindices _).imp fun h => .inr ⟨rfl, h⟩)
  · refine (ExtTreeMap.ordered_keys_toList (t := ki.stemTable)).imp fun {row row'} hlt => ?_
    intro k hk k' hk'
    obtain ⟨i, -, rfl⟩ := List.mem_map.mp hk
    obtain ⟨i', -, rfl⟩ := List.mem_map.mp hk'
    exact .inl (compareOfLessAndEq_eq_lt.mp hlt)

theorem mem_recordKeys {ki : KeyIndex} {u : Stem × UInt8 × Address} :
    u ∈ recordKeys ki ↔ ki.address u.1 = some u.2.2 ∧ ki.bit ⟨u.1, u.2.1⟩ = true := by
  unfold recordKeys KeyIndex.forEachStem
  rw [List.mem_flatMap, KeyIndex.bit_eq_true_iff, KeyIndex.address, rowAddress]
  constructor
  · rintro ⟨⟨stem, r⟩, hrow, hk⟩
    obtain ⟨i, hi, rfl⟩ := List.mem_map.mp hk
    rw [ExtTreeMap.mem_toList_iff_getElem?_eq_some] at hrow
    exact ⟨by rw [hrow]; rfl, r, hrow, hi⟩
  · rintro ⟨haddr, r, hrow, hi⟩
    rw [hrow] at haddr
    refine ⟨(u.1, r), ExtTreeMap.mem_toList_iff_getElem?_eq_some.mpr hrow, ?_⟩
    exact List.mem_map.mpr ⟨u.2.1, hi, Prod.ext rfl (Prod.ext rfl (Option.some.inj haddr))⟩

/-- The table lists the keys of the accepted batches in order, and the counts add up
to the number of their stems. -/
structure IsKeySet (s : Fed) : Prop where
  keys : ∃ keys, enumerate s.table = .ok keys ∧ keys.Pairwise KeyLt ∧
    ∀ u, u ∈ keys ↔ ∃ b ∈ s.accepted, u ∈ b.1.updates
  counts : (s.accepted.map fun b => b.2).sum =
    ((s.accepted.flatMap fun b => b.1.updates).map fun u => u.1).dedup.length

theorem Represents.isKeySet {s : Fed} {ki : KeyIndex} (h : Represents s ki) : IsKeySet s where
  keys := by
    refine ⟨recordKeys ki, ?_, pairwise_recordKeys ki, fun u => ?_⟩
    · rw [h.table, enumerate_packTable]
    · rw [mem_recordKeys, h.bit]
      constructor
      · rintro ⟨haddr, b, hb, u', hu', hkey⟩
        obtain ⟨hstem, hi⟩ := TreeKey.mk.inj hkey
        -- the stem has one address, so the update that sets the bit carries it
        have haddr' := (h.address u'.1 u'.2.2).mpr ⟨b, hb, u', hu', rfl, rfl⟩
        rw [hstem, haddr] at haddr'
        obtain rfl : u = u' := Prod.ext hstem.symm (Prod.ext hi.symm (Option.some.inj haddr'))
        exact ⟨b, hb, hu'⟩
      · rintro ⟨b, hb, hu⟩
        exact ⟨(h.address _ _).mpr ⟨b, hb, u, hu, rfl, rfl⟩, b, hb, u, hu, rfl⟩
  counts := by
    rw [h.counts, ← @List.length_map _ _ ki.forEachStem fun row => row.1]
    -- one row a stem: both lists have the same members, each once
    have hnodup : (ki.forEachStem.map fun row => row.1).Nodup := by
      refine List.pairwise_map.mpr ?_
      refine (ExtTreeMap.ordered_keys_toList (t := ki.stemTable)).imp fun {row row'} hlt heq => ?_
      have hlt' : row.1 < row'.1 := compareOfLessAndEq_eq_lt.mp hlt
      rw [heq] at hlt'
      exact BitVec.lt_irrefl _ hlt'
    refine ((List.perm_ext_iff_of_nodup hnodup (List.nodup_dedup _)).mpr fun stem => ?_).length_eq
    rw [List.mem_dedup, List.mem_map, List.mem_map]
    constructor
    · rintro ⟨⟨stem', r⟩, hrow, rfl⟩
      rw [KeyIndex.forEachStem, ExtTreeMap.mem_toList_iff_getElem?_eq_some] at hrow
      obtain ⟨b, hb, u, hu, hstem, -⟩ :=
        (h.address stem' r.address).mp (by rw [KeyIndex.address, rowAddress, hrow]; rfl)
      exact ⟨u, List.mem_flatMap.mpr ⟨b, hb, hu⟩, hstem⟩
    · rintro ⟨u, hu, rfl⟩
      obtain ⟨b, hb, hu⟩ := List.mem_flatMap.mp hu
      have haddr := (h.address u.1 u.2.2).mpr ⟨b, hb, u, hu, rfl, rfl⟩
      rw [KeyIndex.address, rowAddress, Option.map_eq_some_iff] at haddr
      obtain ⟨r, hr, -⟩ := haddr
      exact ⟨(u.1, r), ExtTreeMap.mem_toList_iff_getElem?_eq_some.mpr hr, rfl⟩

/-! ### Divided, repeated and permuted batches -/

theorem feedRecords_of_ok {ki ki' : KeyIndex} {n : ℕ} {us : List (Stem × UInt8 × Address)}
    (h : ki.applyUpdates us = .ok (ki', n)) : feedRecords ki us = ki' := by
  unfold feedRecords
  rw [h]

theorem feedRecords_of_not_consistent {ki : KeyIndex} {us : List (Stem × UInt8 × Address)}
    (h : ¬ki.Consistent us) : feedRecords ki us = ki := by
  rw [← applyUpdates_ok_iff] at h
  unfold feedRecords
  cases hups : ki.applyUpdates us with
  | error e => rfl
  | ok p => exact absurd ⟨p.1, p.2, hups⟩ h

/-- An accepted batch in two parts. -/
theorem feedRecords_append {ki : KeyIndex} {us₁ us₂ : List (Stem × UInt8 × Address)}
    (h : ki.Consistent (us₁ ++ us₂)) :
    feedRecords (feedRecords ki us₁) us₂ = feedRecords ki (us₁ ++ us₂) := by
  obtain ⟨ki', n, hups⟩ := applyUpdates_ok_iff.mpr h
  obtain ⟨ki₁, n₁, n₂, h₁, h₂⟩ := applyUpdates_append hups
  rw [feedRecords_of_ok hups, feedRecords_of_ok h₁, feedRecords_of_ok h₂]

/-- The batch changes nothing: it contradicts the index or itself, or its keys are
registered. -/
def Settled (ki : KeyIndex) (us : List (Stem × UInt8 × Address)) : Prop :=
  ¬ki.Consistent us ∨ ∀ u ∈ us, ki.address u.1 = some u.2.2 ∧ ki.bit ⟨u.1, u.2.1⟩ = true

theorem Settled.feedRecords {ki : KeyIndex} {us : List (Stem × UInt8 × Address)}
    (h : Settled ki us) : feedRecords ki us = ki := by
  rcases h with hc | hkeys
  · exact feedRecords_of_not_consistent hc
  · exact feedRecords_of_ok (applyUpdates_registered hkeys)

/-- A batch that has been given is settled. -/
theorem settled_feedRecords (ki : KeyIndex) (us : List (Stem × UInt8 × Address)) :
    Settled (feedRecords ki us) us := by
  by_cases hc : ki.Consistent us
  · obtain ⟨ki', n, hups⟩ := applyUpdates_ok_iff.mpr hc
    rw [feedRecords_of_ok hups]
    -- accepted: now its keys are registered
    refine .inr fun u hu => ⟨(address_applyUpdates hups).mpr (.inr ⟨u, hu, rfl, rfl⟩), ?_⟩
    exact (bit_applyUpdates hups _).mpr (.inr ⟨u, hu, rfl⟩)
  · rw [feedRecords_of_not_consistent hc]
    exact .inl hc

/-- Further batches keep it settled: addresses and keys stay. -/
theorem Settled.step {ki : KeyIndex} {us : List (Stem × UInt8 × Address)} (h : Settled ki us)
    (vs : List (Stem × UInt8 × Address)) : Settled (PackedIndex.feedRecords ki vs) us := by
  by_cases hv : ki.Consistent vs
  · obtain ⟨ki', n, hups⟩ := applyUpdates_ok_iff.mpr hv
    rw [feedRecords_of_ok hups]
    rcases h with hc | hkeys
    -- a batch that now agrees with the larger index agreed before
    · refine .inl fun hc' => hc ⟨fun u hu a ha => ?_, hc'.among⟩
      exact hc'.registered u hu a ((address_applyUpdates hups).mpr (.inl ha))
    · refine .inr fun u hu => ⟨(address_applyUpdates hups).mpr (.inl (hkeys u hu).1), ?_⟩
      exact (bit_applyUpdates hups _).mpr (.inl (hkeys u hu).2)
  · rw [feedRecords_of_not_consistent hv]
    exact h

theorem Settled.foldl {ki : KeyIndex} {us : List (Stem × UInt8 × Address)} (h : Settled ki us)
    (mid : List Batch) :
    Settled (mid.foldl (fun ki b => PackedIndex.feedRecords ki b.updates) ki) us := by
  induction mid generalizing ki with
  | nil => exact h
  | cons b mid ih => exact ih (h.step b.updates)

/-- Sequences after which the records are the same leave the same table. -/
theorem table_fed_congr {bs bs' : List Batch} (h : recordsAfter bs = recordsAfter bs') :
    (fed bs).table = (fed bs').table := by
  rw [(represents_fed bs).table, (represents_fed bs').table, h]

/-- **The key index is the set of the keys of the accepted batches.**  After any
sequence of calls a batch is refused exactly when it would give a stem two addresses,
and then the table is as it was; the table lists the keys of the accepted batches; and
a batch may be divided if it is accepted, repeated at any later time, and permuted. -/
theorem key_index_is_key_set (batches : List Batch) :
    (∀ b, ((∃ e, applyBatch (fed batches).table b = .error e) ↔
        Refused (fed batches).table b.updates) ∧
      (Refused (fed batches).table b.updates →
        (fed (batches ++ [b])).table = (fed batches).table)) ∧
    IsKeySet (fed batches) ∧
    (∀ b b₁ b₂ post, b.updates = b₁.updates ++ b₂.updates →
      ¬Refused (fed batches).table b.updates →
        (fed (batches ++ b₁ :: b₂ :: post)).table = (fed (batches ++ b :: post)).table) ∧
    (∀ b b' mid post, b'.updates = b.updates →
      (fed (batches ++ b :: (mid ++ b' :: post))).table =
        (fed (batches ++ b :: (mid ++ post))).table) ∧
    ∀ b b' post, b'.updates.Perm b.updates →
      (fed (batches ++ b' :: post)).table = (fed (batches ++ b :: post)).table := by
  have hrep := represents_fed batches
  refine ⟨fun b => ⟨applyBatch_error_iff hrep b, fun href => ?_⟩, hrep.isKeySet, ?_, ?_, ?_⟩
  · rw [fed_concat, call_of_error ((applyBatch_error_iff hrep b).mpr href)]
  · intro b b₁ b₂ post hb hok
    rw [hrep.table, refused_packTable_iff, not_not, hb] at hok
    apply table_fed_congr
    simp only [recordsAfter, List.foldl_append, List.foldl_cons]
    rw [hb]
    exact congrArg (fun ki => post.foldl _ ki) (feedRecords_append hok)
  · intro b b' mid post hb
    apply table_fed_congr
    simp only [recordsAfter, List.foldl_append, List.foldl_cons]
    rw [hb, ((settled_feedRecords _ b.updates).foldl mid).feedRecords]
  · intro b b' post hb
    apply table_fed_congr
    simp only [recordsAfter, List.foldl_append, List.foldl_cons]
    unfold feedRecords
    rw [applyUpdates_perm hb]

/-- A batch whose hash map is iterated in the order of the stems. -/
def Batch.inOrder (updates : List (Stem × UInt8 × Address)) : Batch :=
  ⟨updates, id, fun rows => List.Perm.refl rows⟩

/-- **A refused batch may not be divided**: the stem `1` with two addresses is refused,
but accepted with the first of them alone. -/
theorem divided_batch_accepted :
    ¬∀ pre post b b₁ b₂, b.updates = b₁.updates ++ b₂.updates →
      (fed (pre ++ b₁ :: b₂ :: post)).table = (fed (pre ++ b :: post)).table := by
  intro h
  have hdiv := h [] [] (.inOrder [(1, 0, 7), (1, 1, 8)]) (.inOrder [(1, 0, 7)])
    (.inOrder [(1, 1, 8)]) rfl
  have hrow := congrArg (fun t : PackedTable => (t[(1 : Stem)]?).isSome) hdiv
  revert hrow
  decide +kernel

end PackedIndex

end UbtExex
