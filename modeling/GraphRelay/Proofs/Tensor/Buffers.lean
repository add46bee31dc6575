import GraphRelay.Proofs.Message.ArrayMetaFormat
import GraphRelay.Proofs.Traversal

/-!
# Tensors and their buffers

A tensor is taken from another peer exactly when its buffer is as long as type and dimensions ask.
Ids that fit 64 bits survive being laid out and read again.
-/
namespace GraphRelay

namespace Tensor

/-- The buffer is as long as type and dimensions ask. -/
def Consistent (t : Tensor) : Prop := sizeInBytes t.type t.shape = .ok t.data.length

theorem shaped_eq_ok_iff {type : ElementType} {shape : List Int64} {data : Bytes} {t : Tensor} :
    shaped type shape data = .ok t ↔ t.Consistent ∧ t = ⟨type, shape, data⟩ := by
  rw [shaped]
  split
  · next f refused =>
    refine iff_of_false nofun ?_
    rintro ⟨consistent, rfl⟩
    rw [Consistent, refused] at consistent
    cases consistent
  · next n size =>
    split
    · next fits =>
      rw [Except.ok.injEq, eq_comm]
      refine (and_iff_right_of_imp ?_).symm
      rintro rfl
      exact size.trans (congrArg _ fits.symm)
    · next unfit =>
      refine iff_of_false nofun ?_
      rintro ⟨consistent, rfl⟩
      exact unfit (Except.ok.inj (consistent.symm.trans size))

theorem received_eq_ok_iff {type : ElementType} {shape : List Int64} {data : Bytes} {t : Tensor} :
    received type shape data = .ok t ↔ t.Consistent ∧ t = ⟨type, shape, data⟩ := by
  rw [received, mapError_ok_iff, shaped_eq_ok_iff]

theorem isIdVector_iff {t : Tensor} :
    t.isIdVector = true ↔ t.type = .int64 ∧ t.shape.length = 1 := by
  rw [isIdVector, Bool.and_eq_true, decide_eq_true_iff, decide_eq_true_iff, rank]

theorem receivedIds_eq_ok_iff {shape : List Int64} {data : Bytes} {t : Tensor} :
    receivedIds shape data = .ok t ↔
      t.isIdVector ∧ t.Consistent ∧ shape = t.shape ∧ data = t.data := by
  rw [receivedIds, isIdVector_iff]
  split
  · next vector =>
    rw [received_eq_ok_iff]
    constructor
    · rintro ⟨consistent, rfl⟩
      exact ⟨⟨rfl, vector⟩, consistent, rfl, rfl⟩
    · rintro ⟨⟨int64, -⟩, consistent, rfl, rfl⟩
      refine ⟨consistent, ?_⟩
      rw [← int64]
  · next other =>
    refine iff_of_false nofun ?_
    rintro ⟨⟨-, vector⟩, -, rfl, -⟩
    exact other vector

theorem isIdVector_ofInt64s (values : List Int64) : (ofInt64s values).isIdVector := rfl

theorem consistent_ofInt64s {values : List Int64} (h : (ofInt64s values).data.length < addressable) :
    (ofInt64s values).Consistent := by
  have length : (ofInt64s values).data.length = 8 * values.length :=
    Wire.length_flatMap_int64 values
  rw [length] at h
  have size : addressable = 0x10000000000000000 := rfl
  obtain ⟨clamp, nonneg⟩ : (Int64.ofNat values.length).toNatClampNeg = values.length ∧
      ¬Int64.ofNat values.length < 0 := Wire.toNatClampNeg_ofNat_length (by omega)
  have eight : ElementType.int64.byteSize = 8 := rfl
  have count : countElements 1 [.ofNat values.length] = .ok values.length := by
    rw [countElements, if_neg nonneg, clamp, Nat.one_mul, if_neg (by omega), countElements]
  rw [Consistent, length, ofInt64s, sizeInBytes, count]
  dsimp only
  rw [eight, if_neg (by omega), Nat.mul_comm]

theorem toInt64s_ofInt64s (values : List Int64) : (ofInt64s values).toInt64s = .ok values := by
  have cut : Wire.words 8 (values.flatMap Wire.int64) = values.map Wire.int64 :=
    Wire.words_flatten (by decide) (by simp)
  have back : values.map (Wire.toInt64 ∘ Wire.int64) = values :=
    (List.map_congr_left fun v _ => Wire.toInt64_int64 v).trans (List.map_id _)
  rw [ofInt64s, toInt64s, if_pos rfl, cut, List.map_map, back]

theorem ofIds_eq_ok_iff {ids : List Nat} {t : Tensor} :
    ofIds ids = .ok t ↔ (∀ id ∈ ids, id < idLimit) ∧ t = ofInt64s (ids.map .ofNat) := by
  rw [ofIds]
  split
  · next id found =>
    refine iff_of_false nofun fun h => ?_
    have wide : idLimit ≤ id := by simpa using List.find?_some found
    exact Nat.not_lt.2 wide (h.1 id (List.mem_of_find?_eq_some found))
  · next none =>
    have small : ∀ id ∈ ids, id < idLimit := fun id member => by
      simpa using List.find?_eq_none.1 none id member
    rw [Except.ok.injEq, eq_comm]
    exact (and_iff_right small).symm

theorem toIds_ofInt64s {ids : List Nat} (h : ∀ id ∈ ids, id < idLimit) :
    (ofInt64s (ids.map .ofNat)).toIds = .ok ids := by
  have clamp : ∀ id ∈ ids, (Int64.ofNat id).toNatClampNeg = id ∧ ¬Int64.ofNat id < 0 :=
    fun id member => Wire.toNatClampNeg_ofNat_length (h id member)
  have none : (ids.map Int64.ofNat).find? (· < 0) = none := by
    rw [List.find?_eq_none]
    intro v member
    obtain ⟨id, hid, rfl⟩ := List.mem_map.1 member
    simpa using (clamp id hid).2
  rw [toIds, toInt64s_ofInt64s]
  dsimp only
  rw [none]
  dsimp only
  rw [List.map_map, Except.ok.injEq]
  exact (List.map_congr_left fun id hid => (clamp id hid).1).trans (List.map_id _)

/-- A vector is its integers laid out. -/
theorem eq_ofInt64s {t : Tensor} {values : List Int64} (vector : t.isIdVector = true)
    (consistent : t.Consistent) (read : t.toInt64s = .ok values) : t = ofInt64s values := by
  obtain ⟨type, dimensions⟩ := isIdVector_iff.1 vector
  obtain ⟨d, shape⟩ := List.length_eq_one_iff.1 dimensions
  have eight : ElementType.int64.byteSize = 8 := rfl
  have size : ¬d < 0 ∧ t.data.length = d.toNatClampNeg * 8 := by
    rw [Consistent, type, shape, sizeInBytes, countElements, Nat.one_mul] at consistent
    by_cases negative : d < 0
    · simp [negative] at consistent
    by_cases huge : addressable ≤ d.toNatClampNeg
    · simp [negative, huge] at consistent
    by_cases long : addressable ≤ d.toNatClampNeg * 8
    · simp [negative, huge, countElements, eight, long] at consistent
    simp only [negative, huge, countElements, eight, long, if_false, Except.ok.injEq] at consistent
    exact ⟨negative, consistent.symm⟩
  obtain ⟨nonneg, length⟩ := size
  rw [toInt64s, if_pos type, Except.ok.injEq] at read
  subst read
  have count : (Wire.words 8 t.data).length = d.toNatClampNeg := by
    rw [Wire.words, Wire.length_pieces]
    omega
  rw [ofInt64s, List.length_map, count, (Wire.ofNat_toNatClampNeg nonneg).1,
    Wire.flatMap_int64_words length, ← type, ← shape]

/-- Ids are read from a vector exactly when they lay out as that vector. -/
theorem toIds_eq_ok_iff {t : Tensor} {ids : List Nat} (vector : t.isIdVector = true)
    (consistent : t.Consistent) : t.toIds = .ok ids ↔ ofIds ids = .ok t := by
  rw [ofIds_eq_ok_iff]
  constructor
  · intro read
    rw [toIds] at read
    split at read
    · cases read
    next values held =>
    split at read
    · cases read
    next none =>
    obtain rfl := Except.ok.inj read
    have nonneg : ∀ v ∈ values, Int64.ofNat v.toNatClampNeg = v ∧ v.toNatClampNeg < idLimit :=
      fun v member => Wire.ofNat_toNatClampNeg (by simpa using List.find?_eq_none.1 none v member)
    refine ⟨List.forall_mem_map.2 fun v member => (nonneg v member).2, ?_⟩
    rw [eq_ofInt64s vector consistent held, List.map_map]
    exact congrArg ofInt64s
      ((List.map_congr_left fun v member => (nonneg v member).1).trans (List.map_id _)).symm
  · rintro ⟨small, rfl⟩
    exact toIds_ofInt64s small

/-- The integers of a vector lay out as its buffer. -/
theorem exists_toInt64s {t : Tensor} (vector : t.isIdVector = true) (consistent : t.Consistent) :
    ∃ values, t.toInt64s = .ok values ∧ t.data = values.flatMap Wire.int64 := by
  have read : t.toInt64s = .ok ((Wire.words 8 t.data).map Wire.toInt64) :=
    if_pos (isIdVector_iff.1 vector).1
  exact ⟨_, read, congrArg data (eq_ofInt64s vector consistent read)⟩

theorem byteLength_of_consistent {t : Tensor} (consistent : t.Consistent) :
    ∃ n, t.data.length = n * t.type.byteSize := by
  rw [Consistent, sizeInBytes] at consistent
  split at consistent
  · cases consistent
  · split at consistent
    · cases consistent
    · exact ⟨_, (Except.ok.inj consistent).symm⟩

/-- The bit patterns of single-precision numbers lay out as their buffer. -/
theorem exists_toFloatBits {t : Tensor} (float32 : t.type = .float32) (consistent : t.Consistent) :
    ∃ bits, t.toFloatBits = .ok bits ∧ t.data = bits.flatMap fun b => Wire.word 4 b.toNat := by
  refine ⟨_, if_pos float32, ?_⟩
  obtain ⟨n, whole⟩ := byteLength_of_consistent consistent
  rw [float32] at whole
  refine (Wire.flatMap_map_words (by decide) whole fun p width => ?_).symm
  have bound := Wire.unword_lt p
  rw [show p.length = 4 from width] at bound
  have small : (UInt32.ofNat (Wire.unword p)).toNat = Wire.unword p :=
    UInt32.toNat_ofNat_of_lt' bound
  have back := Wire.word_unword p
  rw [show p.length = 4 from width] at back
  rw [small, back]

end Tensor
end GraphRelay
