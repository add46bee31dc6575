import GraphRelay.Proofs.Tensor.Acceptance

/-!
# Typed views of tensors

Integers, ids and single-precision numbers are read from the tensors they were laid out in, and a vector
of integers is laid out again from what is read of it. Whichever way a tensor is made, it counts as many
elements as its dimensions multiply to.
-/
namespace GraphRelay.Tensor

variable {t : Tensor}

theorem exists_ofIds_iff {ids : List Nat} :
    (∃ t, ofIds ids = .ok t) ↔ ∀ id ∈ ids, id ≤ 2 ^ 63 - 1 := by
  simp only [ofIds_eq_ok_iff, exists_and_left, exists_eq, and_true]
  exact forall₂_congr fun _ _ => Nat.lt_succ_iff

/-- Ids are there exactly when no integer is negative, and they are these integers. -/
theorem exists_toIds_iff {values : List Int64} (read : t.toInt64s = .ok values) :
    (∃ ids, t.toIds = .ok ids) ↔ ∀ v ∈ values, 0 ≤ v := by
  rw [toIds, read]
  dsimp only
  split
  · next v found =>
    have negative : v < 0 := by simpa using List.find?_some found
    refine iff_of_false (by simp) fun nonneg => ?_
    exact Int64.not_lt.2 (nonneg v (List.mem_of_find?_eq_some found)) negative
  · next none =>
    refine iff_of_true ⟨_, rfl⟩ fun v hv => Int64.not_lt.1 ?_
    simpa using List.find?_eq_none.1 none v hv

/-- Bit patterns survive being laid out and read again. -/
theorem toFloatBits_ofFloatBits {shape : List Int64} {bits : List UInt32}
    (made : ofFloatBits shape bits = .ok t) : t.toFloatBits = .ok bits := by
  obtain ⟨-, rfl⟩ := ofBytes_eq_ok_iff.1 made
  have cut : Wire.words 4 (bits.flatMap fun b => Wire.word 4 b.toNat) =
      bits.map fun b => Wire.word 4 b.toNat :=
    Wire.words_flatten (by decide) (by simp)
  have back : ∀ b ∈ bits, UInt32.ofNat (Wire.unword (Wire.word 4 b.toNat)) = b := by
    intro b _
    rw [Wire.unword_word_of_lt b.toNat_lt, UInt32.ofNat_toNat]
  rw [toFloatBits, if_pos rfl, cut, List.map_map]
  exact congrArg Except.ok ((List.map_congr_left back).trans (List.map_id _))

/-- The tensors that can be made of values at hand. -/
inductive Made : Tensor → Prop where
  | ofBytes {type : ElementType} {shape : List Int64} {data : Bytes} {t : Tensor}
      (h : Tensor.ofBytes type shape data = .ok t) : Made t
  | ofInt64s (values : List Int64) : Made (ofInt64s values)
  | ofIds {ids : List Nat} {t : Tensor} (h : Tensor.ofIds ids = .ok t) : Made t
  | ofFloatBits {shape : List Int64} {bits : List UInt32} {t : Tensor}
      (h : Tensor.ofFloatBits shape bits = .ok t) : Made t

/-- A buffer that can be addressed is as long as type and dimensions ask. -/
theorem Made.consistent (h : Made t) (held : t.byteLength < addressable) : t.Consistent := by
  cases h with
  | ofBytes h => exact (ofBytes_eq_ok_iff.1 h).1
  | ofInt64s values => exact consistent_ofInt64s held
  | ofIds h =>
    obtain ⟨-, rfl⟩ := ofIds_eq_ok_iff.1 h
    exact consistent_ofInt64s held
  | ofFloatBits h => exact (ofBytes_eq_ok_iff.1 h).1

theorem elementCount_eq (consistent : t.Consistent) (sized : 0 < t.type.byteSize) :
    t.elementCount = exactCount t.shape := by
  obtain ⟨fills, -⟩ := consistent_iff.1 consistent
  rw [elementCount, Nat.max_eq_left sized, Int.natCast_div, ← fills.size]
  exact Int.mul_ediv_cancel _ (by omega)

/-- What is laid out is read back: integers always, ids below the sign bit and no others, and any bit
patterns. A vector of integers is laid out again from its integers, which are ids when none is negative.
A tensor that can be addressed and whose elements have a size counts the elements of its dimensions. -/
theorem views_invert_constructors :
    (∀ values, (ofInt64s values).toInt64s = .ok values) ∧
    (∀ ids : List Nat, ((∃ t, ofIds ids = .ok t) ↔ ∀ id ∈ ids, id ≤ 2 ^ 63 - 1) ∧
      ∀ t, ofIds ids = .ok t → t.toIds = .ok ids) ∧
    (∀ shape bits t, ofFloatBits shape bits = .ok t → t.toFloatBits = .ok bits) ∧
    (∀ shape data t, ofBytes .int64 shape data = .ok t → shape.length = 1 →
      ∃ values, t.toInt64s = .ok values ∧ ofInt64s values = t ∧
        ((∃ ids, t.toIds = .ok ids) ↔ ∀ v ∈ values, 0 ≤ v)) ∧
    ∀ t, Made t → t.byteLength < addressable → 0 < t.type.byteSize →
      t.elementCount = exactCount t.shape := by
  refine ⟨toInt64s_ofInt64s, fun ids => ⟨exists_ofIds_iff, fun t made => ?_⟩,
    fun _ _ _ => toFloatBits_ofFloatBits, fun shape data t made dimensions => ?_,
    fun _ made held => elementCount_eq (made.consistent held)⟩
  · obtain ⟨small, rfl⟩ := ofIds_eq_ok_iff.1 made
    exact toIds_ofInt64s small
  · obtain ⟨consistent, rfl⟩ := ofBytes_eq_ok_iff.1 made
    have vector : isIdVector ⟨.int64, shape, data⟩ = true := isIdVector_iff.2 ⟨rfl, dimensions⟩
    obtain ⟨values, read, -⟩ := exists_toInt64s vector consistent
    exact ⟨values, read, (eq_ofInt64s vector consistent read).symm, exists_toIds_iff read⟩

/-- Ids on either side of the sign bit, a number that is none with a zero below zero, and an integer
below zero. -/
theorem views_invert_extremes :
    (∃ t, ofIds [0, 0x7fffffffffffffff] = .ok t ∧ t.toIds = .ok [0, 0x7fffffffffffffff]) ∧
    ¬(∃ t, ofIds [0, 0x8000000000000000] = .ok t) ∧
    (∃ t, ofFloatBits [2, 1] [0x7fc00001, 0x80000000] = .ok t ∧
      t.toFloatBits = .ok [0x7fc00001, 0x80000000] ∧ t.elementCount = exactCount [2, 1]) ∧
    ¬∃ ids, (Tensor.mk .int64 [1] (List.replicate 8 255)).toIds = .ok ids := by
  obtain ⟨-, ids, floats, vectors, counts⟩ := views_invert_constructors
  have held : ofBytes .int64 [1] (List.replicate 8 255) =
      .ok ⟨.int64, [1], List.replicate 8 255⟩ := rfl
  refine ⟨?_, fun wide => ?_, ?_, fun read => ?_⟩
  · obtain ⟨t, made⟩ := (ids [0, 0x7fffffffffffffff]).1.2 (by decide)
    exact ⟨t, made, (ids _).2 t made⟩
  · exact absurd ((ids [0, 0x8000000000000000]).1.1 wide) (by decide)
  · have made : ofFloatBits [2, 1] [0x7fc00001, 0x80000000] =
        .ok ⟨.float32, [2, 1], [1, 0, 192, 127, 0, 0, 0, 128]⟩ := rfl
    exact ⟨_, made, floats _ _ _ made, counts _ (.ofFloatBits made) (by decide) (by decide)⟩
  · obtain ⟨values, same, -, nonneg⟩ := vectors _ _ _ held rfl
    obtain rfl : values = [-1] := Except.ok.inj (same.symm.trans rfl)
    exact absurd (nonneg.1 read (-1) List.mem_cons_self) (by decide)

end GraphRelay.Tensor
