import Mathlib.Data.List.Basic
import Mathlib.Tactic.Ring

/-!
# Fixed-width byte fields

Numbers as little-endian and big-endian byte strings of a given width, and files
made of fields and of rows of one width, which are read back by position.

## Main definitions

* `leBytes`, `beBytes` — a number in `w` bytes, without the higher ones.
* `field`, `rows` — the bytes at a position, and a number of rows from a position on.

## Main results

* `ofLeBytes_leBytes`, `ofBeBytes_beBytes` — **a number that fits is read back.**
* `rows_flatMap` — **rows that were written one after the other are read back.**
-/

namespace Bytes

/-! ### Numbers -/

/-- The `w` lowest bytes of a number, the lowest first. -/
def leBytes : ℕ → ℕ → List UInt8
  | 0, _ => []
  | w + 1, n => UInt8.ofNat (n % 256) :: leBytes w (n / 256)

/-- The number with the given bytes, the lowest first. -/
def ofLeBytes : List UInt8 → ℕ
  | [] => 0
  | b :: bs => b.toNat + 256 * ofLeBytes bs

/-- The `w` lowest bytes of a number, the highest first. -/
def beBytes (w n : ℕ) : List UInt8 := (leBytes w n).reverse

/-- The number with the given bytes, the highest first. -/
def ofBeBytes (bs : List UInt8) : ℕ := ofLeBytes bs.reverse

@[simp] theorem length_leBytes (w n : ℕ) : (leBytes w n).length = w := by
  induction w generalizing n with
  | zero => rfl
  | succ w ih => rw [leBytes, List.length_cons, ih]

@[simp] theorem length_beBytes (w n : ℕ) : (beBytes w n).length = w := by
  rw [beBytes, List.length_reverse, length_leBytes]

theorem ofLeBytes_leBytes_mod (w n : ℕ) : ofLeBytes (leBytes w n) = n % 256 ^ w := by
  induction w generalizing n with
  | zero => simp [leBytes, ofLeBytes, Nat.mod_one]
  | succ w ih =>
    have hbyte : (UInt8.ofNat (n % 256)).toNat = n % 256 := by
      rw [UInt8.toNat_ofNat']
      omega
    rw [leBytes, ofLeBytes, ih, hbyte, Nat.pow_succ, Nat.mul_comm (256 ^ w), Nat.mod_mul]

/-- **A number that fits is read back.** -/
theorem ofLeBytes_leBytes {w n : ℕ} (h : n < 256 ^ w) : ofLeBytes (leBytes w n) = n := by
  rw [ofLeBytes_leBytes_mod, Nat.mod_eq_of_lt h]

/-- **A number that fits is read back.** -/
theorem ofBeBytes_beBytes {w n : ℕ} (h : n < 256 ^ w) : ofBeBytes (beBytes w n) = n := by
  rw [ofBeBytes, beBytes, List.reverse_reverse, ofLeBytes_leBytes h]

/-! ### Fields -/

/-- The `w` bytes from a position on. -/
def field (bs : List UInt8) (start w : ℕ) : List UInt8 := (bs.drop start).take w

/-- A field behind a first part. -/
theorem field_append {a b : List UInt8} {start w : ℕ} (h : a.length ≤ start) :
    field (a ++ b) start w = field b (start - a.length) w := by
  unfold field
  rw [List.drop_append, List.drop_of_length_le h, List.nil_append]

/-- The first part is a field. -/
theorem field_zero {a b : List UInt8} {w : ℕ} (h : a.length = w) : field (a ++ b) 0 w = a := by
  unfold field
  rw [List.drop_zero, ← h, List.take_left]

/-- The bytes of a file from a position on. -/
theorem field_all {a : List UInt8} {w : ℕ} (h : a.length = w) : field a 0 w = a := by
  unfold field
  rw [List.drop_zero, ← h, List.take_length]

/-- A field of a field. -/
theorem field_field {bs : List UInt8} {start w i v : ℕ} (h : i + v ≤ w) :
    field (field bs start w) i v = field bs (start + i) v := by
  unfold field
  rw [List.drop_take, List.take_take, List.drop_drop, Nat.min_eq_left (by omega)]

/-! ### Rows -/

/-- `count` rows of `w` bytes, from a position on. -/
def rows (bs : List UInt8) (start w count : ℕ) : List (List UInt8) :=
  (List.range count).map fun i => field bs (start + w * i) w

variable {α : Type*}

theorem length_flatMap_of_width {f : α → List UInt8} {w : ℕ} {l : List α}
    (h : ∀ a ∈ l, (f a).length = w) : (l.flatMap f).length = w * l.length := by
  induction l with
  | nil => rfl
  | cons a l ih =>
    rw [List.flatMap_cons, List.length_append, h a List.mem_cons_self,
      ih fun b hb => h b (List.mem_cons_of_mem _ hb), List.length_cons]
    ring

theorem rows_append {a b : List UInt8} (start w count : ℕ) (h : a.length ≤ start) :
    rows (a ++ b) start w count = rows b (start - a.length) w count := by
  unfold rows
  apply List.map_congr_left
  intro i _
  rw [field_append (by omega), Nat.sub_add_comm h]

/-- **Rows that were written one after the other are read back.** -/
theorem rows_flatMap {f : α → List UInt8} {w : ℕ} {l : List α} (h : ∀ a ∈ l, (f a).length = w) :
    rows (l.flatMap f) 0 w l.length = l.map f := by
  induction l with
  | nil => rfl
  | cons a l ih =>
    have ha : (f a).length = w := h a List.mem_cons_self
    have hl := ih fun b hb => h b (List.mem_cons_of_mem _ hb)
    have hshift : ∀ i, field (f a ++ l.flatMap f) (0 + w * (i + 1)) w =
        field (l.flatMap f) (0 + w * i) w := by
      intro i
      have hnext : 0 + w * (i + 1) = w + w * i := by ring
      rw [hnext, field_append (by omega), ha, Nat.add_sub_cancel_left, Nat.zero_add]
    rw [List.map_cons, ← hl, List.flatMap_cons]
    unfold rows
    rw [List.length_cons, List.range_succ_eq_map, List.map_cons, List.map_map]
    refine congrArg₂ _ (field_zero ha) ?_
    exact List.map_congr_left fun i _ => hshift i

end Bytes
