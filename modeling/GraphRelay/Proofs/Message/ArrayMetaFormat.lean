import GraphRelay.Message.ArrayMeta
import GraphRelay.Proofs.Wire.Readers

/-!
# The wire format of array metadata

Every announcement has one form on the wire and every accepted message is the form of one
announcement. The shape list is read against the number of entries that its header declares; that
number goes down by what was read and never runs below zero.
-/
namespace GraphRelay

theorem MessageKind.ofTag_eq_ok {t : Int32} {k : MessageKind} : ofTag t = .ok k ↔ t = k.tag := by
  constructor
  · intro h
    unfold ofTag at h
    split at h
    · rename_i found
      cases h
      simpa [eq_comm] using List.find?_some found
    · cases h
  · rintro rfl
    cases k <;> rfl

theorem MessageKind.kind_of_ofTag_eq_error {t : Int32} {e : Fault} (h : ofTag t = .error e) :
    e.kind = .protocol := by
  unfold ofTag at h
  split at h
  · cases h
  · cases h
    rfl

namespace ArrayMeta

open Wire Wire.Reader

/-- The entries of one shape: its number of dimensions and the dimensions. -/
def shapeEntries (shape : List Int64) : List Int64 := .ofNat shape.length :: shape

/-- The bytes of one shape. -/
def shapeBytes (shape : List Int64) : Bytes := (shapeEntries shape).flatMap Wire.int64

/-- The form of an announcement on the wire. -/
def layout (m : ArrayMeta) : Bytes :=
  if m.shapes.isEmpty then Wire.int32 m.kind.tag
  else Wire.int32 m.kind.tag ++ Wire.int32 (.ofNat m.shapes.length) ++ Wire.count m.entryCount
    ++ m.entries.flatMap Wire.int64

/-- The counts of an announcement fit the words that carry them. -/
structure Representable (m : ArrayMeta) : Prop where
  arrays_lt : m.shapes.length < 0x80000000
  entryCount_lt : m.entryCount < UInt64.size
  dimensions_lt : ∀ shape ∈ m.shapes, shape.length < 0x8000000000000000

theorem length_layout (m : ArrayMeta) : m.layout.length = m.encodedLength := by
  unfold layout encodedLength
  split
  · exact length_int32 _
  · simp only [List.length_append, length_int32, length_count, length_flatMap_int64, entryCount]

theorem encode_eq_ok_iff {m : ArrayMeta} {bs : Bytes} :
    m.encode = .ok bs ↔ m.shapes.length < 0x80000000 ∧ bs = m.layout := by
  unfold encode layout
  split
  · rename_i empty
    simp [List.isEmpty_iff.1 empty, eq_comm (a := bs)]
  · split
    · rename_i many
      simp [Nat.not_lt.2 many]
    · rename_i fits
      simp [Nat.lt_of_not_le fits, eq_comm (a := bs)]

theorem encode_eq_error {m : ArrayMeta} {e : Fault} (h : m.encode = .error e) :
    e = .arrayCountOverflow m.shapes.length := by
  unfold encode at h
  split at h
  · cases h
  · split at h
    · cases h
      rfl
    · cases h

theorem representable_nil (kind : MessageKind) : Representable ⟨kind, []⟩ :=
  ⟨by simp, by simp [entryCount, entries, UInt64.size], by simp⟩

/-- What has no more shapes than the count can tell and fits a buffer is representable. -/
theorem representable_of_length {m : ArrayMeta} (arrays : m.shapes.length < 0x80000000)
    (fits : m.layout.length < addressable) : Representable m := by
  rw [length_layout, encodedLength] at fits
  have bound : 8 * m.entryCount < UInt64.size := by
    split at fits
    · rename_i empty
      have none : m.entryCount = 0 := by simp [entryCount, entries, List.isEmpty_iff.1 empty]
      simp [none]
    · exact Nat.lt_of_le_of_lt (Nat.le_add_left ..) fits
  refine ⟨arrays, by omega, fun shape member => ?_⟩
  have own : shape.length + 1 ≤ m.entryCount := by
    have sub : (shapeEntries shape).Sublist m.entries :=
      List.sublist_flatten_of_mem (List.mem_map_of_mem member)
    simpa [shapeEntries, entryCount] using sub.length_le
  have size : UInt64.size = 0x10000000000000000 := rfl
  omega

/-- A shape is read from its own bytes if its entries are still left; the bytes that follow decide
nothing. -/
theorem readShape_reads (left : Nat) :
    Reads (readShape left) (fun shape => shape.length < left ∧ shape.length < 0x8000000000000000)
      shapeBytes := by
  intro c shape c'
  have dims := many_reads int64_reads
  simp only [readShape, unless_eq_ok, bind_eq_ok, remaining_eq_ok]
  constructor
  · rintro ⟨some, d, c₁, hd, _, _, ⟨rfl, rfl⟩, pass, hmany⟩
    simp only [Bool.or_eq_true, decide_eq_true_eq, not_or, Nat.not_le, Nat.not_lt] at pass
    obtain ⟨⟨nonneg, below⟩, -⟩ := pass
    obtain ⟨-, split, total⟩ := (int64_reads c d _).1 hd
    obtain ⟨⟨length, -⟩, split', total'⟩ := (dims _ _ shape c').1 hmany
    obtain ⟨same, small⟩ := ofNat_toNatClampNeg nonneg
    rw [← length] at same small below
    refine ⟨⟨below, small⟩, ?_, total'.trans total⟩
    rw [split, split', shapeBytes, shapeEntries, same, List.flatMap_cons, List.append_assoc]
  · rintro ⟨⟨below, small⟩, split, total⟩
    obtain ⟨clamp, nonneg⟩ := toNatClampNeg_ofNat_length small
    rw [shapeBytes, shapeEntries, List.flatMap_cons, List.append_assoc] at split
    have first := (int64_reads c (.ofNat shape.length)
      ⟨c.total, shape.flatMap Wire.int64 ++ c'.rest⟩).2 ⟨trivial, split, rfl⟩
    have others := (dims shape.length ⟨c.total, shape.flatMap Wire.int64 ++ c'.rest⟩ shape c').2
      ⟨⟨rfl, fun _ _ => trivial⟩, rfl, total⟩
    refine ⟨by omega, _, _, first, _, _, ⟨rfl, rfl⟩, ?_, ?_⟩
    · have room : shape.length ≤ (shape.flatMap Wire.int64 ++ c'.rest).length / 8 := by
        rw [List.length_append, length_flatMap_int64]
        omega
      simp only [clamp, Bool.or_eq_true, decide_eq_true_eq, not_or, Nat.not_le, Nat.not_lt]
      exact ⟨⟨nonneg, below⟩, room⟩
    · rw [clamp]
      exact others

theorem readShape_guarded (left : Nat) : Guarded (readShape left) := by
  refine unless_guarded rfl fun _ => bind_guarded int64_guarded fun d => ?_
  exact bind_guarded remaining_guarded fun _ =>
    unless_guarded rfl fun _ => many_guarded int64_guarded _

/-- The entries of several shapes, which is what the declared number counts. -/
def shapesEntries (shapes : List (List Int64)) : Nat := (shapes.map (·.length + 1)).sum

theorem entryCount_eq (m : ArrayMeta) : m.entryCount = shapesEntries m.shapes := by
  simp [entryCount, entries, shapesEntries]

theorem flatMap_entries (m : ArrayMeta) :
    m.entries.flatMap Wire.int64 = m.shapes.flatMap shapeBytes := by
  rw [entries, List.flatMap_assoc]
  rfl

/-- Shapes are read one after the other; those read and those left make up the declared number. -/
theorem readShapes_reads (arrays left : Nat) :
    Reads (readShapes arrays left)
      (fun p => p.1.length = arrays ∧ (∀ shape ∈ p.1, shape.length < 0x8000000000000000) ∧
        p.2 + shapesEntries p.1 = left)
      (fun p => p.1.flatMap shapeBytes) := by
  induction arrays generalizing left with
  | zero =>
    rintro c ⟨shapes, left'⟩ c'
    rw [readShapes, pure_eq_ok]
    cases c
    cases c'
    simp only [List.length_eq_zero_iff, Cursor.mk.injEq, Prod.mk.injEq]
    constructor
    · rintro ⟨⟨rfl, rfl⟩, rfl, rfl⟩
      simp [shapesEntries]
    · rintro ⟨⟨rfl, -, total⟩, split, rfl⟩
      exact ⟨⟨rfl, by simpa [shapesEntries] using total⟩, rfl, by simpa using split.symm⟩
  | succ arrays ih =>
    rintro c ⟨shapes, left'⟩ c''
    simp only [readShapes, bind_eq_ok, pure_eq_ok, Prod.mk.injEq]
    constructor
    · rintro ⟨shape, c', hshape, ⟨rest, _⟩, _, hrest, ⟨rfl, rfl⟩, rfl⟩
      obtain ⟨⟨below, small⟩, split, total⟩ := (readShape_reads left c shape c').1 hshape
      obtain ⟨⟨length, dims, sum⟩, split', total'⟩ := (ih _ c' (rest, _) _).1 hrest
      refine ⟨⟨by simpa using length, ?_, ?_⟩, ?_, total'.trans total⟩
      · simpa [small] using dims
      · simp only [shapesEntries, List.map_cons, List.sum_cons] at sum ⊢
        omega
      · rw [split, split', List.flatMap_cons, List.append_assoc]
    · rintro ⟨⟨length, dims, sum⟩, split, total⟩
      cases shapes with
      | nil => simp at length
      | cons shape rest =>
        simp only [shapesEntries, List.map_cons, List.sum_cons] at sum
        rw [List.flatMap_cons, List.append_assoc] at split
        have first := (readShape_reads left c shape ⟨c.total, rest.flatMap shapeBytes ++ c''.rest⟩).2
          ⟨⟨by omega, dims shape (by simp)⟩, split, rfl⟩
        have others := (ih (left - (shape.length + 1))
          ⟨c.total, rest.flatMap shapeBytes ++ c''.rest⟩ (rest, left') c'').2
          ⟨⟨by simpa using length, fun s hs => dims s (by simp [hs]), by
            simp only [shapesEntries]
            omega⟩, rfl, total⟩
        exact ⟨shape, _, first, (rest, left'), c'', others, ⟨rfl, rfl⟩, rfl⟩

theorem readShapes_guarded (arrays left : Nat) : Guarded (readShapes arrays left) := by
  induction arrays generalizing left with
  | zero => exact pure_guarded _
  | succ arrays ih =>
    exact bind_guarded (readShape_guarded left) fun _ =>
      bind_guarded (ih _) fun _ => pure_guarded _

theorem reader_guarded : Guarded reader := by
  refine bind_guarded int32_guarded fun t => bind_guarded ?_ fun kind => ?_
  · intro c e h
    exact MessageKind.kind_of_ofTag_eq_error (lift_eq_error.1 h)
  · refine bind_guarded remaining_guarded fun _ => ite_guarded (pure_guarded _) ?_
    refine bind_guarded int32_guarded fun arrays => unless_guarded rfl fun _ => ?_
    refine bind_guarded count_guarded fun declared => ?_
    refine bind_guarded (readShapes_guarded _ _) fun p => ?_
    exact unless_guarded rfl fun _ => bind_guarded finish_guarded fun _ => pure_guarded _

/-- What stands behind the tag of an announcement that has shapes. -/
def shapeSection (m : ArrayMeta) : Bytes :=
  Wire.int32 (.ofNat m.shapes.length) ++ (Wire.count m.entryCount ++ m.shapes.flatMap shapeBytes)

theorem layout_of_nil (kind : MessageKind) :
    layout ⟨kind, []⟩ = Wire.int32 kind.tag ++ [] := (List.append_nil _).symm

theorem layout_of_ne_nil {m : ArrayMeta} (h : m.shapes ≠ []) :
    m.layout = Wire.int32 m.kind.tag ++ m.shapeSection := by
  rw [layout, if_neg (by simpa using h), flatMap_entries, shapeSection]
  simp only [List.append_assoc]

theorem toNatClampNeg_ofNat_arrays {n : Nat} (pos : 0 < n) (h : n < 0x80000000) :
    (Int32.ofNat n).toNatClampNeg = n ∧ ¬Int32.ofNat n ≤ 0 := by
  have value : (Int32.ofNat n).toInt = n := Int32.toInt_ofNat_of_lt h
  refine ⟨by simp [Int32.toNatClampNeg, value], ?_⟩
  rw [Int32.le_iff_toInt_le, value]
  simp [Nat.ne_of_gt pos]

theorem ofNat_toNatClampNeg_arrays {d : Int32} (h : ¬d ≤ 0) :
    Int32.ofNat d.toNatClampNeg = d ∧ 0 < d.toNatClampNeg ∧ d.toNatClampNeg < 0x80000000 := by
  have pos : 0 < d.toInt := by simpa [Int32.le_iff_toInt_le] using h
  have bound := d.toInt_lt
  have range : 0 < d.toNatClampNeg ∧ d.toNatClampNeg < 0x80000000 := by
    rw [Int32.toNatClampNeg]
    omega
  refine ⟨?_, range⟩
  rw [← Int32.toInt_inj, Int32.toInt_ofNat_of_lt range.2, Int32.toNatClampNeg]
  exact Int.toNat_of_nonneg (Int.le_of_lt pos)

/-- Whatever is accepted is the form of what comes out. -/
theorem layout_of_reader {c c' : Cursor} {m : ArrayMeta} (h : reader c = .ok (m, c')) :
    Representable m ∧ c.rest = m.layout := by
  simp only [reader, bind_eq_ok, lift_eq_ok] at h
  obtain ⟨t, c₁, ht, kind, _, ⟨hkind, rfl⟩, _, _, hleft, h⟩ := h
  obtain ⟨rfl, rfl⟩ := remaining_eq_ok.1 hleft
  obtain ⟨-, split, -⟩ := (int32_reads c t _).1 ht
  rw [MessageKind.ofTag_eq_ok.1 hkind] at split
  split at h
  · rename_i done
    obtain ⟨rfl, rfl⟩ := pure_eq_ok.1 h
    rw [List.eq_nil_of_length_eq_zero done] at split
    exact ⟨representable_nil kind, split⟩
  · simp only [bind_eq_ok, unless_eq_ok] at h
    obtain ⟨arrays, c₂, harrays, positive, declared, c₃, hdeclared, ⟨shapes, left⟩, c₄, hshapes,
      allUsed, _, _, hend, hm⟩ := h
    obtain ⟨empty, rfl⟩ := finish_eq_ok.1 hend
    obtain ⟨rfl, rfl⟩ := pure_eq_ok.1 hm
    obtain ⟨-, splitArrays, -⟩ := (int32_reads _ arrays c₂).1 harrays
    obtain ⟨fits, splitDeclared, -⟩ := (count_reads c₂ declared c₃).1 hdeclared
    obtain ⟨⟨length, dims, sum⟩, splitShapes, -⟩ := (readShapes_reads _ _ c₃ (shapes, left) _).1 hshapes
    obtain ⟨same, pos, small⟩ := ofNat_toNatClampNeg_arrays positive
    rw [← length] at same pos small
    have used : (⟨kind, shapes⟩ : ArrayMeta).entryCount = declared := by
      rw [Decidable.not_not.1 allUsed, Nat.zero_add] at sum
      rw [entryCount_eq, sum]
    refine ⟨⟨small, used ▸ fits, dims⟩, ?_⟩
    rw [layout_of_ne_nil (List.ne_nil_of_length_pos pos), shapeSection, used, split, splitArrays,
      splitDeclared, splitShapes, empty, same, List.append_nil]

/-- The form of an announcement is accepted and brings it back. -/
theorem reader_of_layout {c : Cursor} {m : ArrayMeta} (h : Representable m)
    (split : c.rest = m.layout) : reader c = .ok (m, ⟨c.total, []⟩) := by
  obtain ⟨kind, shapes⟩ := m
  simp only [reader, bind_eq_ok, lift_eq_ok]
  cases shapes with
  | nil =>
    rw [layout_of_nil] at split
    have tag := (int32_reads c kind.tag ⟨c.total, []⟩).2 ⟨trivial, split, rfl⟩
    exact ⟨_, _, tag, kind, _, ⟨MessageKind.ofTag_eq_ok.2 rfl, rfl⟩, _, _,
      remaining_eq_ok.2 ⟨rfl, rfl⟩, rfl⟩
  | cons shape rest =>
    generalize hm : (⟨kind, shape :: rest⟩ : ArrayMeta) = m at *
    have nonempty : m.shapes ≠ [] := by simp [← hm]
    have sameKind : m.kind = kind := by simp [← hm]
    obtain ⟨clamp, positive⟩ :=
      toNatClampNeg_ofNat_arrays (List.length_pos_iff.2 nonempty) h.arrays_lt
    rw [layout_of_ne_nil nonempty, sameKind] at split
    have tag := (int32_reads c kind.tag ⟨c.total, m.shapeSection⟩).2 ⟨trivial, split, rfl⟩
    have arrays := (int32_reads ⟨c.total, m.shapeSection⟩ (.ofNat m.shapes.length)
      ⟨c.total, Wire.count m.entryCount ++ m.shapes.flatMap shapeBytes⟩).2 ⟨trivial, rfl, rfl⟩
    have declared := (count_reads ⟨c.total, Wire.count m.entryCount ++ m.shapes.flatMap shapeBytes⟩
      m.entryCount ⟨c.total, m.shapes.flatMap shapeBytes⟩).2 ⟨h.entryCount_lt, rfl, rfl⟩
    have shapes := (readShapes_reads m.shapes.length m.entryCount
      ⟨c.total, m.shapes.flatMap shapeBytes⟩ (m.shapes, 0) ⟨c.total, []⟩).2
      ⟨⟨rfl, h.dimensions_lt, by rw [entryCount_eq, Nat.zero_add]⟩, (List.append_nil _).symm, rfl⟩
    refine ⟨_, _, tag, kind, _, ⟨MessageKind.ofTag_eq_ok.2 rfl, rfl⟩, _, _,
      remaining_eq_ok.2 ⟨rfl, rfl⟩, ?_⟩
    rw [if_neg (by simp [shapeSection])]
    simp only [bind_eq_ok, unless_eq_ok]
    refine ⟨_, _, arrays, positive, _, _, declared, (m.shapes, 0), _, clamp ▸ shapes, by simp,
      (), _, finish_eq_ok.2 ⟨rfl, rfl⟩, ?_⟩
    rw [pure_eq_ok, ← hm]
    simp

theorem decode_eq_ok_iff {bs : Bytes} {m : ArrayMeta} :
    decode bs = .ok m ↔ Representable m ∧ bs = m.layout := by
  rw [decode, run_eq_ok]
  constructor
  · rintro ⟨c, h⟩
    exact layout_of_reader h
  · rintro ⟨h, split⟩
    exact ⟨_, reader_of_layout h split⟩

theorem kind_of_decode_eq_error {bs : Bytes} {e : Fault} (h : decode bs = .error e) :
    e.kind = .protocol :=
  reader_guarded _ e (run_eq_error.1 h)

/-- The wire format is a bijection between announcements and accepted messages; the length of a
message is a 64-bit number. Only an array count beyond 31 bits is refused for sending, and whatever
else arrives is refused as a violation of the protocol. The number of entries left covers each shape
before it is taken off, so it counts down exactly. -/
theorem decode_eq_ok_iff_encode_eq_ok (bs : Bytes) (m : ArrayMeta) :
    (bs.length < addressable → (decode bs = .ok m ↔ encode m = .ok bs)) ∧
    ((∃ out, encode m = .ok out) ↔ m.shapes.length < 2 ^ 31) ∧
    (∀ e, encode m = .error e → e = .arrayCountOverflow m.shapes.length) ∧
    (∀ out, encode m = .ok out → out.length = m.encodedLength) ∧
    ((∃ m', decode bs = .ok m') ∨ ∃ e, decode bs = .error e ∧ e.kind = .protocol) ∧
    (∀ left c shape c', readShape left c = .ok (shape, c') → shape.length + 1 ≤ left) ∧
    ∀ arrays declared c shapes left c', readShapes arrays declared c = .ok ((shapes, left), c') →
      left + (shapes.map (·.length + 1)).sum = declared := by
  refine ⟨fun fits => ?_, ?_, fun e h => encode_eq_error h, ?_, ?_, ?_, ?_⟩
  · rw [decode_eq_ok_iff, encode_eq_ok_iff]
    constructor
    · rintro ⟨h, split⟩
      exact ⟨h.arrays_lt, split⟩
    · rintro ⟨arrays, rfl⟩
      exact ⟨representable_of_length arrays fits, rfl⟩
  · constructor
    · rintro ⟨out, h⟩
      exact (encode_eq_ok_iff.1 h).1
    · intro arrays
      exact ⟨_, encode_eq_ok_iff.2 ⟨arrays, rfl⟩⟩
  · intro out h
    rw [(encode_eq_ok_iff.1 h).2, length_layout]
  · cases h : decode bs with
    | ok m' => exact .inl ⟨m', rfl⟩
    | error e => exact .inr ⟨e, rfl, kind_of_decode_eq_error h⟩
  · intro left c shape c' h
    exact ((readShape_reads left c shape c').1 h).1.1
  · intro arrays declared c shapes left c' h
    exact ((readShapes_reads arrays declared c (shapes, left) c').1 h).1.2.2

/-- Two arrays of the shapes `[3]` and `[-1, 2]`, there and back. -/
theorem decode_two_shapes :
    (layout ⟨.push, [[3], [-1, 2]]⟩).length < addressable ∧
      decode (layout ⟨.push, [[3], [-1, 2]]⟩) = .ok ⟨.push, [[3], [-1, 2]]⟩ := by
  have fits : (layout ⟨.push, [[3], [-1, 2]]⟩).length < addressable := by decide
  exact ⟨fits, ((decode_eq_ok_iff_encode_eq_ok _ ⟨.push, [[3], [-1, 2]]⟩).1 fits).2 rfl⟩

end ArrayMeta

end GraphRelay
