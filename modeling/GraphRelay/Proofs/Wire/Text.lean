import GraphRelay.Wire.Word
import Mathlib.Data.List.Basic

/-!
# The bytes of texts

Exactly the bytes of a text are read as that text.
-/
namespace GraphRelay.Wire

theorem toText?_eq_some_iff {bs : Bytes} {s : String} : toText? bs = some s ↔ bs = text s := by
  have bytes : bs = text s ↔ (⟨bs.toArray⟩ : ByteArray) = s.toByteArray := by
    constructor
    · rintro rfl
      rfl
    · intro same
      rw [text, String.toUTF8, ← same]
  rw [bytes, toText?, String.fromUTF8?]
  split
  · next valid => rw [Option.some.injEq, String.fromUTF8, ← String.toByteArray_inj]
  · next invalid =>
    refine iff_of_false nofun fun same => invalid ?_
    rw [same]
    exact s.isValidUTF8

theorem text_eq_flatMap (s : String) : text s = s.toList.flatMap String.utf8EncodeChar := by
  rw [text, String.toUTF8, ← String.utf8Encode_toList, List.utf8Encode, List.data_toByteArray]

/-- Without characters beyond ASCII every character is one byte. -/
theorem text_eq_map {s : String} (ascii : ∀ c ∈ s.toList, c.toNat < 128) :
    text s = s.toList.map fun c => UInt8.ofNat c.toNat := by
  rw [text_eq_flatMap, ← List.flatMap_pure_eq_map]
  refine List.flatMap_congr fun c hc => ?_
  simp only [String.utf8EncodeChar]
  exact if_pos (Nat.le_of_lt_succ (ascii c hc))

end GraphRelay.Wire
