import GraphRelay.Proofs.Tensor.Buffers
import Mathlib.Algebra.BigOperators.Group.List.Lemmas
import Mathlib.Algebra.BigOperators.Ring.List
import Mathlib.Algebra.Order.BigOperators.GroupWithZero.List
import Mathlib.Algebra.Order.Ring.Int
import Mathlib.Data.List.TakeWhile

/-!
# Which buffers make a tensor

A buffer fills a shape when no dimension is negative and the dimensions, multiplied without any bound,
times the bytes of an element come to its length. A buffer with any bytes in it makes a tensor exactly
when it fills its shape. An empty one may fill its shape and be refused all the same, as the dimensions
are multiplied from the first on and those in front of the first zero can leave 64 bits by themselves.
-/
namespace GraphRelay.Tensor

/-- The dimensions multiplied without any bound. -/
def exactCount (shape : List Int64) : Int := (shape.map Int64.toInt).prod

/-- The buffer holds exactly the elements that the dimensions ask for. -/
structure Fills (type : ElementType) (shape : List Int64) (data : Bytes) : Prop where
  nonneg : ∀ d ∈ shape, 0 ≤ d
  size : exactCount shape * type.byteSize = data.length

/-- The dimensions in front of the first that is zero. -/
def leading (shape : List Int64) : List Int64 := shape.takeWhile (· ≠ 0)

section Counts

variable {d : Int64} {shape : List Int64}

@[simp] theorem exactCount_nil : exactCount [] = 1 := rfl

@[simp] theorem exactCount_cons (d : Int64) (shape : List Int64) :
    exactCount (d :: shape) = d.toInt * exactCount shape := List.prod_cons

theorem exactCount_perm {other : List Int64} (same : other.Perm shape) :
    exactCount other = exactCount shape := (same.map Int64.toInt).prod_eq

theorem toInt_pos (nonneg : 0 ≤ d) (nonzero : d ≠ 0) : 0 < d.toInt := by
  have atLeast : 0 ≤ d.toInt := Int64.le_iff_toInt_le.1 nonneg
  have other : d.toInt ≠ 0 := fun zero => nonzero (Int64.toInt_inj.1 zero)
  omega

theorem exactCount_pos (nonneg : ∀ d ∈ shape, 0 ≤ d) (nonzero : ∀ d ∈ shape, d ≠ 0) :
    0 < exactCount shape := by
  refine List.prod_pos fun x hx => ?_
  obtain ⟨d, hd, rfl⟩ := List.mem_map.1 hx
  exact toInt_pos (nonneg d hd) (nonzero d hd)

theorem exactCount_nonneg (nonneg : ∀ d ∈ shape, 0 ≤ d) : 0 ≤ exactCount shape := by
  refine List.prod_nonneg fun x hx => ?_
  obtain ⟨d, hd, rfl⟩ := List.mem_map.1 hx
  exact Int64.le_iff_toInt_le.1 (nonneg d hd)

theorem exactCount_eq_zero (zero : 0 ∈ shape) : exactCount shape = 0 :=
  List.prod_eq_zero (List.mem_map_of_mem (f := Int64.toInt) zero)

theorem leading_zero (shape : List Int64) : leading (0 :: shape) = [] := rfl

theorem leading_cons (nonzero : d ≠ 0) (shape : List Int64) :
    leading (d :: shape) = d :: leading shape :=
  List.takeWhile_cons_of_pos (decide_eq_true nonzero)

theorem leading_of_nonzero (nonzero : 0 ∉ shape) : leading shape = shape := by
  rw [leading, List.takeWhile_eq_self_iff]
  intro d hd
  exact decide_eq_true fun zero => nonzero (zero ▸ hd)

theorem ne_zero_of_mem_leading (hd : d ∈ leading shape) : d ≠ 0 := by
  simpa using List.mem_takeWhile_imp hd

theorem exactCount_leading_pos (nonneg : ∀ d ∈ shape, 0 ≤ d) : 0 < exactCount (leading shape) :=
  exactCount_pos (fun d hd => nonneg d ((List.takeWhile_sublist _).mem hd))
    fun _ => ne_zero_of_mem_leading

end Counts

/-- The count never leaves 64 bits up to the first zero, and nothing can make it leave them from
there on. -/
theorem countElements_eq_ok_iff {n k : Nat} {shape : List Int64} (small : n < addressable) :
    countElements n shape = .ok k ↔ (∀ d ∈ shape, 0 ≤ d) ∧
      n * exactCount (leading shape) < addressable ∧ (k : Int) = n * exactCount shape := by
  induction shape generalizing n with
  | nil =>
    have bound : (n : Int) < addressable := Int.ofNat_lt.2 small
    rw [countElements, Except.ok.injEq]
    simp [leading, bound, eq_comm]
  | cons d shape ih =>
    rw [countElements, List.forall_mem_cons]
    by_cases negative : d < 0
    · rw [if_pos negative]
      exact iff_of_false (by simp) fun h => Int64.not_lt.2 h.1.1 negative
    have nonneg : 0 ≤ d := Int64.not_lt.1 negative
    have next : ((n * d.toNatClampNeg : Nat) : Int) = n * d.toInt := by
      rw [Int64.toInt_eq_toNatClampNeg nonneg, Int.natCast_mul]
    rw [if_neg negative, and_iff_right nonneg, exactCount_cons, ← mul_assoc, ← next]
    by_cases zero : d = 0
    · subst zero
      have none : n * (0 : Int64).toNatClampNeg = 0 := Nat.mul_zero n
      have bound : (n : Int) < addressable := Int.ofNat_lt.2 small
      rw [none, if_neg (by decide), ih (by decide), leading_zero]
      refine and_congr_right fun _ => and_congr_left fun _ => iff_of_true ?_ (by simpa using bound)
      rw [Int.natCast_zero, Int.zero_mul]
      decide
    · rw [leading_cons zero, exactCount_cons, ← mul_assoc, ← next]
      split
      · next huge =>
        refine iff_of_false (by simp) ?_
        rintro ⟨others, fits, -⟩
        have most : ((n * d.toNatClampNeg : Nat) : Int) * 1 ≤
            (n * d.toNatClampNeg : Nat) * exactCount (leading shape) :=
          Int.mul_le_mul_of_nonneg_left (exactCount_leading_pos others) (Int.natCast_nonneg _)
        omega
      · next small => exact ih (Nat.lt_of_not_le small)

theorem sizeInBytes_eq_ok_iff {type : ElementType} {shape : List Int64} {m : Nat} :
    sizeInBytes type shape = .ok m ↔ (∀ d ∈ shape, 0 ≤ d) ∧
      exactCount (leading shape) < addressable ∧ exactCount shape * type.byteSize = m ∧
      m < addressable := by
  have counted (k : Nat) := @countElements_eq_ok_iff 1 k shape (by decide)
  simp only [Int.natCast_one, Int.one_mul] at counted
  rw [sizeInBytes]
  split
  · next refused =>
    refine iff_of_false (by simp) ?_
    rintro ⟨nonneg, bounded, -⟩
    have count := Int.toNat_of_nonneg (exactCount_nonneg nonneg)
    rw [(counted _).2 ⟨nonneg, bounded, count⟩] at refused
    cases refused
  · next n made =>
    obtain ⟨nonneg, bounded, count⟩ := (counted n).1 made
    rw [and_iff_right nonneg, and_iff_right bounded, ← count, ← Int.natCast_mul, Int.natCast_inj]
    split
    · next huge => exact iff_of_false (by simp) fun h => Nat.not_lt.2 huge (h.1 ▸ h.2)
    · next small =>
      rw [Except.ok.injEq]
      exact (and_iff_left_of_imp fun same => same ▸ Nat.lt_of_not_le small).symm

theorem consistent_iff {t : Tensor} : t.Consistent ↔ Fills t.type t.shape t.data ∧
    t.data.length < addressable ∧ exactCount (leading t.shape) < addressable := by
  rw [Consistent, sizeInBytes_eq_ok_iff]
  constructor
  · rintro ⟨nonneg, bounded, size, held⟩
    exact ⟨⟨nonneg, size⟩, held, bounded⟩
  · rintro ⟨⟨nonneg, size⟩, held, bounded⟩
    exact ⟨nonneg, bounded, size, held⟩

theorem ofBytes_eq_ok_iff {type : ElementType} {shape : List Int64} {data : Bytes} {t : Tensor} :
    ofBytes type shape data = .ok t ↔ t.Consistent ∧ t = ⟨type, shape, data⟩ := by
  rw [ofBytes, mapError_ok_iff, shaped_eq_ok_iff]

theorem kind_of_ofBytes_eq_error {type : ElementType} {shape : List Int64} {data : Bytes} {f : Fault}
    (refused : ofBytes type shape data = .error f) : f.kind = .precondition := by
  rw [ofBytes] at refused
  cases made : shaped type shape data with
  | ok t =>
    rw [made] at refused
    cases refused
  | error reason =>
    rw [made] at refused
    cases refused
    rfl

section Acceptance

variable {type : ElementType} {shape : List Int64} {data : Bytes}

theorem exists_ofBytes_iff : (∃ t, ofBytes type shape data = .ok t) ↔ Fills type shape data ∧
    data.length < addressable ∧ exactCount (leading shape) < addressable := by
  simp only [ofBytes_eq_ok_iff]
  constructor
  · rintro ⟨t, consistent, rfl⟩
    exact consistent_iff.1 consistent
  · exact fun h => ⟨_, consistent_iff.2 h, rfl⟩

theorem Fills.perm {other : List Int64} (h : Fills type shape data) (same : other.Perm shape) :
    Fills type other data :=
  ⟨fun d hd => h.nonneg d (same.mem_iff.1 hd), by rw [exactCount_perm same, h.size]⟩

/-- A buffer with bytes in it leaves room for no dimension and no element of size zero. -/
theorem Fills.leading_le (h : Fills type shape data) (bytes : data ≠ []) :
    exactCount (leading shape) ≤ data.length := by
  have some : 0 < data.length := List.length_pos_iff.2 bytes
  have size := h.size
  have nonzero : 0 ∉ shape := by
    intro zero
    rw [exactCount_eq_zero zero, Int.zero_mul] at size
    omega
  have element : 0 < type.byteSize := by
    refine Nat.pos_of_ne_zero fun none => ?_
    rw [none, Int.natCast_zero, Int.mul_zero] at size
    omega
  rw [leading_of_nonzero nonzero, ← size]
  exact le_mul_of_one_le_right (exactCount_nonneg h.nonneg) (by omega)

/-- Of all orders of the dimensions the one with its zeros last asks for the most. -/
theorem exactCount_leading_le {other : List Int64} (nonneg : ∀ d ∈ shape, 0 ≤ d)
    (same : other.Perm shape) :
    exactCount (leading other) ≤ exactCount (shape.filter (· ≠ 0)) := by
  have own : (leading other).filter (· ≠ 0) = leading other :=
    List.filter_eq_self.2 fun _ hd => decide_eq_true (ne_zero_of_mem_leading hd)
  have part : (leading other).Sublist (other.filter (· ≠ 0)) :=
    own ▸ (List.takeWhile_sublist _).filter _
  have pos : 0 < exactCount (shape.filter (· ≠ 0)) := by
    refine exactCount_pos (fun d hd => nonneg d (List.mem_of_mem_filter hd)) fun d hd => ?_
    simpa using List.of_mem_filter hd
  rw [← exactCount_perm (same.filter _)] at pos ⊢
  exact Int.le_of_dvd pos (part.map Int64.toInt).prod_dvd_prod

theorem exists_zeros_last (shape : List Int64) :
    ∃ other : List Int64, other.Perm shape ∧ leading other = shape.filter (· ≠ 0) := by
  refine ⟨_, List.filter_append_perm (· ≠ 0) shape, ?_⟩
  have zeros : leading (shape.filter fun d => !decide (d ≠ 0)) = [] := by
    cases last : shape.filter fun d => !decide (d ≠ 0) with
    | nil => rfl
    | cons d zeros =>
      have member : d ∈ shape.filter fun d => !decide (d ≠ 0) := last ▸ List.mem_cons_self
      obtain rfl : d = 0 := by simpa using (List.mem_filter.1 member).2
      exact leading_zero zeros
  rw [leading, List.takeWhile_append_of_pos fun d hd => (List.mem_filter.1 hd).2]
  exact (congrArg _ zeros).trans (List.append_nil _)

end Acceptance

/-- What is accepted is kept as it was given, and a refusal is a fault of precondition. A buffer with
bytes in it is accepted exactly when it fills its shape. An empty one needs, besides, that the dimensions
in front of the first zero stay below 64 bits, and for every order of the dimensions that all but the
zeros do. -/
theorem ofBytes_accepts (type : ElementType) (shape : List Int64) (data : Bytes) :
    (∀ t, ofBytes type shape data = .ok t → t = ⟨type, shape, data⟩) ∧
    (∀ f, ofBytes type shape data = .error f → f.kind = .precondition) ∧
    ((∃ t, ofBytes type shape data = .ok t) ↔ Fills type shape data ∧ data.length < addressable ∧
      exactCount (leading shape) < addressable) ∧
    (data ≠ [] → ((∃ t, ofBytes type shape data = .ok t) ↔
      Fills type shape data ∧ data.length < addressable)) ∧
    ((∀ other : List Int64, other.Perm shape → ∃ t, ofBytes type other data = .ok t) ↔
      Fills type shape data ∧ data.length < addressable ∧
        exactCount (shape.filter (· ≠ 0)) < addressable) := by
  refine ⟨fun t made => (ofBytes_eq_ok_iff.1 made).2, fun f => kind_of_ofBytes_eq_error,
    exists_ofBytes_iff, fun bytes => ?_, ?_⟩
  · rw [exists_ofBytes_iff]
    refine and_congr_right fun fills => and_iff_left_of_imp fun held => ?_
    exact Int.lt_of_le_of_lt (fills.leading_le bytes) (Int.ofNat_lt.2 held)
  · constructor
    · intro every
      obtain ⟨other, same, last⟩ := exists_zeros_last shape
      obtain ⟨fills, held, bounded⟩ := exists_ofBytes_iff.1 (every other same)
      exact ⟨fills.perm same.symm, held, last ▸ bounded⟩
    · rintro ⟨fills, held, bounded⟩ other same
      refine exists_ofBytes_iff.2 ⟨fills.perm same, held, ?_⟩
      exact Int.lt_of_le_of_lt (exactCount_leading_le fills.nonneg same) bounded

/-- Four numbers in two rows, and none in a shape that starts with its zero. -/
theorem ofBytes_accepts_rows :
    (∃ t, ofBytes .float32 [2, 2] (List.replicate 16 0) = .ok t) ∧
    ¬(∃ t, ofBytes .float32 [2, 2] (List.replicate 12 0) = .ok t) ∧
    (∃ t, ofBytes .int64 [0, 0x100000000, 0x100000000] [] = .ok t) := by
  refine ⟨((ofBytes_accepts ..).2.2.2.1 (by decide)).2 ⟨⟨by simp, by decide⟩, by decide⟩,
    fun accepted => ?_, (ofBytes_accepts ..).2.2.1.2 ⟨⟨by simp, by decide⟩, by decide, by decide⟩⟩
  have short := (((ofBytes_accepts ..).2.2.2.1 (by decide)).1 accepted).1.size
  exact absurd short (by decide)

/-- A tensor without elements that is refused for its size, and that is taken with its zero in front. -/
theorem zero_last_refused :
    Fills .int64 [0x100000000, 0x100000000, 0] [] ∧
    ofBytes .int64 [0x100000000, 0x100000000, 0] [] = .error (.shape .sizeOverflow) ∧
    ofBytes .int64 [0, 0x100000000, 0x100000000] [] =
      .ok ⟨.int64, [0, 0x100000000, 0x100000000], []⟩ :=
  ⟨⟨by simp, by decide⟩, rfl, rfl⟩

end GraphRelay.Tensor
