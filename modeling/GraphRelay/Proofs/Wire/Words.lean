import GraphRelay.Wire.Word
import Mathlib.Algebra.GroupWithZero.Nat

/-!
# Words and the numbers they stand for

`word` and `unword` are inverse to each other as far as the width goes, so a word of the right
length and a number in range determine each other.
-/
namespace GraphRelay.Wire

theorem unword_word (width n : Nat) : unword (word width n) = n % 256 ^ width := by
  induction width generalizing n with
  | zero => simp [word, unword, Nat.mod_one]
  | succ width ih =>
    have digit : (UInt8.ofNat n).toNat = n % 256 := UInt8.toNat_ofNat'
    rw [word, unword, ih, digit, Nat.pow_succ', Nat.mod_mul]

theorem unword_word_of_lt {width n : Nat} (h : n < 256 ^ width) : unword (word width n) = n := by
  rw [unword_word, Nat.mod_eq_of_lt h]

theorem unword_lt (bs : Bytes) : unword bs < 256 ^ bs.length := by
  induction bs with
  | nil => simp [unword]
  | cons b bs ih =>
    have hb : b.toNat < 256 := b.toNat_lt
    rw [unword, List.length_cons, Nat.pow_succ']
    omega

theorem word_unword (bs : Bytes) : word bs.length (unword bs) = bs := by
  induction bs with
  | nil => rfl
  | cons b bs ih =>
    have hb : b.toNat < 256 := b.toNat_lt
    have low : UInt8.ofNat (b.toNat + 256 * unword bs) = b := by
      apply UInt8.toNat_inj.1
      rw [UInt8.toNat_ofNat', Nat.add_mul_mod_self_left, Nat.mod_eq_of_lt hb]
    have high : (b.toNat + 256 * unword bs) / 256 = unword bs := by omega
    rw [unword, List.length_cons, word, low, high, ih]

@[simp] theorem length_int32 (v : Int32) : (int32 v).length = 4 := length_word ..

@[simp] theorem length_int64 (v : Int64) : (int64 v).length = 8 := length_word ..

@[simp] theorem length_count (n : Nat) : (count n).length = 8 := length_word ..

@[simp] theorem toInt32_int32 (v : Int32) : toInt32 (int32 v) = v := by
  have bound : v.toUInt32.toNat < 256 ^ 4 := v.toUInt32.toNat_lt
  rw [toInt32, int32, unword_word_of_lt bound, UInt32.ofNat_toNat, Int32.toInt32_toUInt32]

@[simp] theorem toInt64_int64 (v : Int64) : toInt64 (int64 v) = v := by
  have bound : v.toUInt64.toNat < 256 ^ 8 := v.toUInt64.toNat_lt
  rw [toInt64, int64, unword_word_of_lt bound, UInt64.ofNat_toNat, Int64.toInt64_toUInt64]

theorem int32_toInt32 {bs : Bytes} (h : bs.length = 4) : int32 (toInt32 bs) = bs := by
  have bound : unword bs < UInt32.size := by simpa [h] using unword_lt bs
  rw [toInt32, int32, UInt32.toUInt32_toInt32, UInt32.toNat_ofNat_of_lt' bound, ← h, word_unword]

theorem int64_toInt64 {bs : Bytes} (h : bs.length = 8) : int64 (toInt64 bs) = bs := by
  have bound : unword bs < UInt64.size := by simpa [h] using unword_lt bs
  rw [toInt64, int64, UInt64.toUInt64_toInt64, UInt64.toNat_ofNat_of_lt' bound, ← h, word_unword]

theorem exists_int32_append {bs : Bytes} (long : 4 ≤ bs.length) :
    ∃ v rest, bs = int32 v ++ rest := by
  refine ⟨toInt32 (bs.take 4), bs.drop 4, ?_⟩
  rw [int32_toInt32 (List.length_take_of_le long), List.take_append_drop]

theorem exists_count_append {bs : Bytes} (long : 8 ≤ bs.length) :
    ∃ n rest, n < UInt64.size ∧ bs = count n ++ rest := by
  have back := word_unword (bs.take 8)
  have bound := unword_lt (bs.take 8)
  rw [List.length_take_of_le long] at back bound
  exact ⟨unword (bs.take 8), bs.drop 8, bound, by rw [count, back, List.take_append_drop]⟩

theorem length_flatMap_int64 (values : List Int64) :
    (values.flatMap Wire.int64).length = 8 * values.length := by
  induction values with
  | nil => rfl
  | cons v values ih =>
    rw [List.flatMap_cons, List.length_append, ih, length_int64, List.length_cons]
    omega

/-- Pieces of one width, put together and cut again. -/
theorem words_flatten {width : Nat} (pos : 0 < width) {pieces : List Bytes}
    (h : ∀ p ∈ pieces, p.length = width) : words width pieces.flatten = pieces := by
  have count : pieces.flatten.length = pieces.length * width := by
    rw [List.length_flatten, List.eq_replicate_of_mem (a := width) (l := pieces.map List.length)]
    · simp
    · simpa using h
  rw [words, count, Nat.mul_div_cancel _ pos]
  clear count
  induction pieces with
  | nil => rfl
  | cons p pieces ih =>
    have hp : p.length = width := h p (by simp)
    rw [List.flatten_cons, List.length_cons, Wire.pieces, ← hp, List.take_left, List.drop_left, hp,
      ih fun q hq => h q (by simp [hq])]

theorem length_pieces (width n : Nat) (bs : Bytes) : (pieces width n bs).length = n := by
  induction n generalizing bs with
  | zero => rfl
  | succ n ih => rw [pieces, List.length_cons, ih]

/-- Bytes that are so many words long are the words they are cut into. -/
theorem flatten_pieces {width n : Nat} {bs : Bytes} (whole : bs.length = n * width) :
    (pieces width n bs).flatten = bs ∧ ∀ p ∈ pieces width n bs, p.length = width := by
  induction n generalizing bs with
  | zero =>
    have empty : bs = [] := List.eq_nil_of_length_eq_zero (by omega)
    simp [pieces, empty]
  | succ n ih =>
    rw [Nat.succ_mul] at whole
    have left : (bs.drop width).length = n * width := by
      rw [List.length_drop]
      omega
    have first : (bs.take width).length = width := by
      rw [List.length_take]
      omega
    obtain ⟨rest, widths⟩ := ih left
    rw [pieces, List.flatten_cons, rest, List.take_append_drop]
    exact ⟨rfl, List.forall_mem_cons.2 ⟨first, widths⟩⟩

/-- Whole words, each of them read and written again. -/
theorem flatMap_map_words {α : Type} {width n : Nat} {bs : Bytes} {readWord : Bytes → α}
    {writeWord : α → Bytes} (positive : 0 < width) (whole : bs.length = n * width)
    (back : ∀ p : Bytes, p.length = width → writeWord (readWord p) = p) :
    ((words width bs).map readWord).flatMap writeWord = bs := by
  obtain ⟨together, widths⟩ := flatten_pieces whole
  have count : bs.length / width = n := by rw [whole, Nat.mul_div_cancel _ positive]
  rw [words, count, List.flatMap_map, List.flatMap_def,
    List.map_congr_left fun p member => back p (widths p member), List.map_id', together]

/-- Whole words read as integers and written again. -/
theorem flatMap_int64_words {n : Nat} {bs : Bytes} (whole : bs.length = n * 8) :
    ((words 8 bs).map toInt64).flatMap int64 = bs :=
  flatMap_map_words (by decide) whole fun _ => int64_toInt64

theorem toNatClampNeg_ofNat_length {n : Nat} (h : n < 0x8000000000000000) :
    (Int64.ofNat n).toNatClampNeg = n ∧ ¬Int64.ofNat n < 0 := by
  have value : (Int64.ofNat n).toInt = n := Int64.toInt_ofNat_of_lt h
  refine ⟨by simp [Int64.toNatClampNeg, value], ?_⟩
  rw [Int64.lt_iff_toInt_lt, value]
  simp

theorem ofNat_toNatClampNeg {d : Int64} (h : ¬d < 0) :
    Int64.ofNat d.toNatClampNeg = d ∧ d.toNatClampNeg < 0x8000000000000000 := by
  have nonneg : 0 ≤ d.toInt := by simpa [Int64.lt_iff_toInt_lt] using h
  have bound := d.toInt_lt
  have small : d.toNatClampNeg < 0x8000000000000000 := by
    rw [Int64.toNatClampNeg]
    omega
  refine ⟨?_, small⟩
  rw [← Int64.toInt_inj, Int64.toInt_ofNat_of_lt small, Int64.toNatClampNeg]
  exact Int.toNat_of_nonneg nonneg

end GraphRelay.Wire
