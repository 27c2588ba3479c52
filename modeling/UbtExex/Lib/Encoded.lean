import UbtExex.Lib.Bytes
import UbtExex.Lib.Tables

/-!
# Maps in tables of bytes

A key code writes keys as byte strings of one width, in the order of the keys.  A
table of bytes holds a map when its rows at the codes of the keys are the values of
the map, encoded; it may have rows at keys of other widths, which stand for nothing.

## Main definitions

* `KeyCode` — order-preserving codes of one width.
* `Holds` — a table of bytes holds a map.

## Main results

* `Bytes.compare_beBytes` — **big-endian bytes compare as the numbers do.**
* `Holds.insert`, `Holds.erase` — writing and deleting a row.
* `Holds.scan` — **the rows of the right width, in the order of the table, are the
  rows of the map.**
* `Holds.flatMap_scan` — a loop over such rows.
-/

open Std

/-! ### The order of big-endian bytes -/

namespace Bytes

theorem beBytes_succ (w n : ℕ) :
    beBytes (w + 1) n = beBytes w (n / 256) ++ [UInt8.ofNat (n % 256)] := by
  rw [beBytes, leBytes, List.reverse_cons, beBytes]

/-- Strings of one length compare by their first parts, then by their last bytes. -/
theorem compare_concat {as bs : List UInt8} (h : as.length = bs.length) (a b : UInt8) :
    compare (as ++ [a]) (bs ++ [b]) = (compare as bs).then (compare a b) := by
  induction as generalizing bs with
  | nil =>
    obtain rfl := List.length_eq_zero_iff.mp h.symm
    simp [List.compare_cons_cons]
  | cons x as ih =>
    cases bs with
    | nil => simp at h
    | cons y bs =>
      rw [List.cons_append, List.cons_append, List.compare_cons_cons, List.compare_cons_cons,
        ih (by simpa using h), Ordering.then_assoc]

theorem compare_div_mod (m n : ℕ) :
    compare m n = (compare (m / 256) (n / 256)).then (compare (m % 256) (n % 256)) := by
  have hm := Nat.div_add_mod m 256
  have hn := Nat.div_add_mod n 256
  rcases Nat.lt_trichotomy (m / 256) (n / 256) with h | h | h
  · rw [Nat.compare_eq_lt.mpr h, Nat.compare_eq_lt.mpr (by omega)]
    rfl
  · rw [Nat.compare_eq_eq.mpr h, Ordering.eq_then]
    rcases Nat.lt_trichotomy (m % 256) (n % 256) with h' | h' | h'
    · rw [Nat.compare_eq_lt.mpr h', Nat.compare_eq_lt.mpr (by omega)]
    · rw [Nat.compare_eq_eq.mpr h', Nat.compare_eq_eq.mpr (by omega)]
    · rw [Nat.compare_eq_gt.mpr h', Nat.compare_eq_gt.mpr (by omega)]
  · rw [Nat.compare_eq_gt.mpr h, Nat.compare_eq_gt.mpr (by omega)]
    rfl

/-- **Big-endian bytes compare as the numbers do.** -/
theorem compare_beBytes {w m n : ℕ} (hm : m < 256 ^ w) (hn : n < 256 ^ w) :
    compare (beBytes w m) (beBytes w n) = compare m n := by
  induction w generalizing m n with
  | zero =>
    obtain rfl : m = 0 := by simpa using hm
    obtain rfl : n = 0 := by simpa using hn
    rfl
  | succ w ih =>
    have hbyte : compare (UInt8.ofNat (m % 256)) (UInt8.ofNat (n % 256)) =
        compare (m % 256) (n % 256) := by
      simp only [compare, compareOfLessAndEq, UInt8.lt_iff_toNat_lt, ← UInt8.toNat_inj,
        UInt8.toNat_ofNat', Nat.mod_mod]
    rw [beBytes_succ, beBytes_succ, compare_concat (by simp), hbyte,
      ih (Nat.div_lt_of_lt_mul (by rwa [Nat.pow_succ, Nat.mul_comm] at hm))
        (Nat.div_lt_of_lt_mul (by rwa [Nat.pow_succ, Nat.mul_comm] at hn)), ← compare_div_mod]

/-- Every string of `w` bytes is the code of a number. -/
theorem beBytes_ofBeBytes {w : ℕ} {bs : List UInt8} (h : bs.length = w) :
    beBytes w (ofBeBytes bs) = bs := by
  have hle : ∀ bs : List UInt8, leBytes bs.length (ofLeBytes bs) = bs := by
    intro bs
    induction bs with
    | nil => rfl
    | cons b bs ih =>
      have hb : b.toNat < 256 := b.toNat_lt
      rw [List.length_cons, leBytes, ofLeBytes]
      congr 1
      · rw [show (b.toNat + 256 * ofLeBytes bs) % 256 = b.toNat by omega]
        exact UInt8.ofNat_toNat
      · rw [show (b.toNat + 256 * ofLeBytes bs) / 256 = ofLeBytes bs by omega, ih]
  rw [beBytes, ofBeBytes, ← h, ← List.length_reverse, hle, List.reverse_reverse]

theorem ofLeBytes_lt (bs : List UInt8) : ofLeBytes bs < 256 ^ bs.length := by
  induction bs with
  | nil => simp [ofLeBytes]
  | cons b bs ih =>
    have hb : b.toNat < 256 := b.toNat_lt
    rw [ofLeBytes, List.length_cons, Nat.pow_succ]
    omega

theorem ofBeBytes_lt {w : ℕ} {bs : List UInt8} (h : bs.length = w) : ofBeBytes bs < 256 ^ w := by
  rw [ofBeBytes, ← h, ← List.length_reverse]
  exact ofLeBytes_lt _

end Bytes

/-! ### Codes and tables -/

namespace Encoded

/-- Keys as byte strings of one width, in the order of the keys. -/
structure KeyCode (K : Type) [Ord K] where
  width : ℕ
  /-- The keys that have a code. -/
  valid : K → Prop
  bytes : K → List UInt8
  ofBytes : List UInt8 → K
  length_bytes : ∀ k, (bytes k).length = width
  valid_ofBytes : ∀ {bs}, bs.length = width → valid (ofBytes bs)
  bytes_ofBytes : ∀ {bs}, bs.length = width → bytes (ofBytes bs) = bs
  ofBytes_bytes : ∀ {k}, valid k → ofBytes (bytes k) = k
  compare_bytes : ∀ {k k'}, valid k → valid k' → compare (bytes k) (bytes k') = compare k k'

variable {K V ε : Type} [Ord K]

theorem KeyCode.bytes_eq_iff (code : KeyCode K) {k k' : K} (hk : code.valid k)
    (hk' : code.valid k') : code.bytes k = code.bytes k' ↔ k = k' := by
  constructor
  · intro h
    rw [← code.ofBytes_bytes hk, h, code.ofBytes_bytes hk']
  · exact congrArg code.bytes

variable [TransOrd K]

/-- The table holds the map: at every key the encoded value, and no key without a
code has a value. -/
structure Holds (code : KeyCode K) (decode : List UInt8 → Except ε V)
    (t : ExtTreeMap (List UInt8) (List UInt8)) (m : ExtTreeMap K V) : Prop where
  row : ∀ k, code.valid k → (t[code.bytes k]?).map decode = (m[k]?).map .ok
  valid : ∀ k v, m[k]? = some v → code.valid k

namespace Holds

variable {code : KeyCode K} {decode : List UInt8 → Except ε V}
  {t : ExtTreeMap (List UInt8) (List UInt8)} {m : ExtTreeMap K V}

theorem empty : Holds code decode ∅ ∅ where
  row k _ := by simp
  valid k v h := by simp at h

/-- A row that is there decodes to the value of the map. -/
theorem decode_of_row (h : Holds code decode t m) {k : K} {bs : List UInt8} (hk : code.valid k)
    (hrow : t[code.bytes k]? = some bs) : ∃ v, m[k]? = some v ∧ decode bs = .ok v := by
  have hk' := h.row k hk
  rw [hrow] at hk'
  cases hm : m[k]? with
  | none => rw [hm] at hk'; cases hk'
  | some v =>
    rw [hm] at hk'
    exact ⟨v, rfl, by simpa using hk'⟩

theorem none_of_row (h : Holds code decode t m) {k : K} (hk : code.valid k)
    (hrow : t[code.bytes k]? = none) : m[k]? = none := by
  have hk' := h.row k hk
  rw [hrow] at hk'
  cases hm : m[k]? with
  | none => rfl
  | some v => rw [hm] at hk'; cases hk'

variable [LawfulEqOrd K]

/-- **A scan of the table**: its rows of the right width, in its order, are the rows
of the map. -/
theorem scan (h : Holds code decode t m) :
    (t.toList.filter fun row => row.1.length = code.width).map
      (fun row => (code.ofBytes row.1, decode row.2)) =
        m.toList.map fun row => (row.1, .ok row.2) := by
  -- both lists increase in their keys and have the same members
  let lt : K × Except ε V → K × Except ε V → Prop := fun a b => compare a.1 b.1 = .lt
  have : IsTrans (K × Except ε V) lt := ⟨fun _ _ _ hab hbc => TransCmp.lt_trans hab hbc⟩
  have : Std.Irrefl lt := ⟨fun a ha => by simp [lt] at ha⟩
  refine Tables.eq_of_sorted_of_mem_iff (r := lt) ?_ ?_ ?_
  · rw [List.pairwise_map]
    refine ((ExtTreeMap.ordered_keys_toList (t := t)).filter _).imp_of_mem fun {a b} ha hb hab => ?_
    have hwa : a.1.length = code.width := by simpa using (List.mem_filter.mp ha).2
    have hwb : b.1.length = code.width := by simpa using (List.mem_filter.mp hb).2
    change compare (code.ofBytes a.1) (code.ofBytes b.1) = .lt
    rw [← code.compare_bytes (code.valid_ofBytes hwa) (code.valid_ofBytes hwb),
      code.bytes_ofBytes hwa, code.bytes_ofBytes hwb]
    exact hab
  · rw [List.pairwise_map]
    exact ExtTreeMap.ordered_keys_toList (t := m)
  · rintro ⟨k, r⟩
    simp only [List.mem_map, List.mem_filter, decide_eq_true_eq, Prod.exists, Prod.mk.injEq]
    constructor
    · rintro ⟨kb, bs, ⟨hmem, hw⟩, rfl, rfl⟩
      rw [ExtTreeMap.mem_toList_iff_getElem?_eq_some] at hmem
      obtain ⟨v, hv, hd⟩ := h.decode_of_row (k := code.ofBytes kb) (code.valid_ofBytes hw)
        (by rw [code.bytes_ofBytes hw]; exact hmem)
      exact ⟨code.ofBytes kb, v, ExtTreeMap.mem_toList_iff_getElem?_eq_some.mpr hv, rfl, hd.symm⟩
    · rintro ⟨k', v, hmem, rfl, rfl⟩
      rw [ExtTreeMap.mem_toList_iff_getElem?_eq_some] at hmem
      have hk := h.valid k' v hmem
      have hrow := h.row k' hk
      rw [hmem] at hrow
      cases ht : t[code.bytes k']? with
      | none => rw [ht] at hrow; cases hrow
      | some bs =>
        rw [ht] at hrow
        exact ⟨code.bytes k', bs, ⟨ExtTreeMap.mem_toList_iff_getElem?_eq_some.mpr ht,
          code.length_bytes k'⟩, code.ofBytes_bytes hk, by simpa using hrow⟩

/-- Collecting something from each row of the right width is collecting it from the
rows of the map. -/
theorem flatMap_scan {β : Type} (h : Holds code decode t m) (g : K → Except ε V → List β) :
    (t.toList.flatMap fun row =>
      if row.1.length = code.width then g (code.ofBytes row.1) (decode row.2) else []) =
      m.toList.flatMap fun row => g row.1 (.ok row.2) := by
  have hfilter : ∀ l : List (List UInt8 × List UInt8), (l.flatMap fun row =>
      if row.1.length = code.width then g (code.ofBytes row.1) (decode row.2) else []) =
      ((l.filter fun row => row.1.length = code.width).map
        fun row => (code.ofBytes row.1, decode row.2)).flatMap fun r => g r.1 r.2 := by
    intro l
    induction l with
    | nil => rfl
    | cons row l ih =>
      rw [List.flatMap_cons, ih, List.filter_cons]
      by_cases hw : row.1.length = code.width
      · simp [hw]
      · simp [hw]
  rw [hfilter, h.scan, List.flatMap_map]

variable [DecidableEq K]

/-- Writing a row. -/
theorem insert (h : Holds code decode t m) {k : K} {v : V} {bs : List UInt8} (hk : code.valid k)
    (hv : decode bs = .ok v) : Holds code decode (t.insert (code.bytes k) bs) (m.insert k v) where
  row k' hk' := by
    rw [Tables.getElem?_insert, Tables.getElem?_insert, apply_ite (Option.map decode),
      apply_ite (Option.map Except.ok), h.row k' hk']
    simp only [code.bytes_eq_iff hk hk', Option.map_some, hv]
  valid k' v' hv' := by
    rw [Tables.getElem?_insert] at hv'
    split at hv'
    · next hkk => exact hkk ▸ hk
    · exact h.valid k' v' hv'

/-- Deleting a row. -/
theorem erase (h : Holds code decode t m) {k : K} (hk : code.valid k) :
    Holds code decode (t.erase (code.bytes k)) (m.erase k) where
  row k' hk' := by
    rw [Tables.getElem?_erase, Tables.getElem?_erase, apply_ite (Option.map decode),
      apply_ite (Option.map Except.ok), h.row k' hk']
    simp only [code.bytes_eq_iff hk hk', Option.map_none]
  valid k' v' hv' := by
    rw [Tables.getElem?_erase] at hv'
    split at hv'
    · cases hv'
    · exact h.valid k' v' hv'

end Holds

end Encoded
