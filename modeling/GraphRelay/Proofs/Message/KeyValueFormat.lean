import GraphRelay.Message.KeyValue
import GraphRelay.Proofs.Message.ArrayMetaFormat
import GraphRelay.Proofs.Traversal
import GraphRelay.Proofs.Wire.Text

/-!
# The wire format of key/value headers

The kind of a message decides which sections it has. A header is accepted exactly in the form in
which it is sent, and brings the message back without its tensors.
-/
namespace GraphRelay

open Wire Wire.Reader

namespace KeyValue

/-- Exactly the sections that belong to the kind are there. -/
structure Complete (m : KeyValue) : Prop where
  keyValue : m.kind.isKeyValue = true
  name : m.name.isSome = m.kind.carriesName
  ids : m.ids.isSome = m.kind.carriesIds
  values : m.values.isSome = m.kind.carriesValues

variable {m : KeyValue} {bs : Bytes}

theorem misplacedSection?_eq_none_iff : m.misplacedSection? = none ↔
    m.name.isSome = m.kind.carriesName ∧ m.ids.isSome = m.kind.carriesIds ∧
      m.values.isSome = m.kind.carriesValues := by
  rw [misplacedSection?, Option.map_eq_none_iff, List.find?_eq_none]
  simp only [List.forall_mem_cons, ne_eq, decide_not, Bool.not_eq_eq_eq_not, Bool.not_true,
    decide_eq_false_iff_not, Decidable.not_not, List.not_mem_nil, false_implies, implies_true,
    and_true]
  exact and_congr eq_comm (and_congr eq_comm eq_comm)

theorem validate_eq_ok_iff : m.validate = .ok () ↔ m.Complete := by
  rw [validate]
  split
  · next other => exact iff_of_false nofun fun h => by simp [h.keyValue] at other
  next keyValue =>
  have keyValue : m.kind.isKeyValue = true := by simpa using keyValue
  cases found : m.misplacedSection? with
  | none =>
    obtain ⟨name, ids, values⟩ := misplacedSection?_eq_none_iff.1 found
    exact iff_of_true rfl ⟨keyValue, name, ids, values⟩
  | some misplaced =>
    obtain ⟨part, missing⟩ := misplaced
    refine iff_of_false (by cases missing <;> exact nofun) fun h => ?_
    have none := misplacedSection?_eq_none_iff.2 ⟨h.name, h.ids, h.values⟩
    rw [none] at found
    cases found

theorem encodeHeader_eq_ok_iff : m.encodeHeader = .ok bs ↔ m.Complete ∧ bs = m.header := by
  rw [encodeHeader, map_ok_iff, ← validate_eq_ok_iff]
  constructor
  · rintro ⟨⟨⟩, valid, rfl⟩
    exact ⟨valid, rfl⟩
  · rintro ⟨valid, rfl⟩
    exact ⟨(), valid, rfl⟩

/-- The bytes of the name section. -/
def nameBytes (s : String) : Bytes := Wire.count (Wire.text s).length ++ Wire.text s

theorem nameReader_reads :
    Reads nameReader (fun s => (Wire.text s).length < UInt64.size) nameBytes := by
  intro c name c'
  simp only [nameReader, bind_eq_ok]
  constructor
  · rintro ⟨length, c₁, hlength, bytes, c₂, hbytes, hname⟩
    obtain ⟨small, split, total⟩ := (count_reads c length c₁).1 hlength
    obtain ⟨size, split', total'⟩ := (take_reads length c₁ bytes c₂).1 hbytes
    cases found : toText? bytes with
    | none =>
      rw [found] at hname
      exact absurd hname throw_ne_ok
    | some text =>
      rw [found] at hname
      obtain ⟨rfl, rfl⟩ := pure_eq_ok.1 hname
      obtain rfl := toText?_eq_some_iff.1 found
      subst size
      refine ⟨small, ?_, total'.trans total⟩
      rw [split, split', nameBytes, List.append_assoc, id]
  · rintro ⟨small, split, total⟩
    rw [nameBytes, List.append_assoc] at split
    have first := (count_reads c (text name).length ⟨c.total, text name ++ c'.rest⟩).2
      ⟨small, split, rfl⟩
    have second := (take_reads _ ⟨c.total, text name ++ c'.rest⟩ (text name) c').2
      ⟨rfl, rfl, total⟩
    refine ⟨_, _, first, _, _, second, ?_⟩
    rw [toText?_eq_some_iff.2 rfl]
    exact pure_eq_ok.2 ⟨rfl, rfl⟩

/-- What a header alone tells of a message. -/
structure IsHeader (m : KeyValue) : Prop where
  keyValue : m.kind.isKeyValue = true
  name : m.name.isSome = m.kind.carriesName
  name_lt : (Wire.text (m.name.getD "")).length < UInt64.size
  ids : m.ids = none
  values : m.values = none

/-- The section that only some kinds have. -/
def nameSection (m : KeyValue) : Bytes :=
  if m.kind.carriesName then nameBytes (m.name.getD "") else []

theorem header_eq (m : KeyValue) :
    m.header = Wire.int32 m.kind.tag ++ (Wire.int32 m.rank ++ m.nameSection) := by
  rw [header, nameSection, nameBytes]
  simp only [List.append_assoc]

/-- Behind kind and rank a header ends with its name section. -/
theorem nameSection_eq_ok {kind : MessageKind} (keyValue : kind.isKeyValue = true) {rank : Int32}
    {c c' : Cursor} :
    (if kind.carriesName = true then do
        let name ← nameReader
        let m ← pure { bare kind rank with name := some name }
        finish
        pure m
      else do
        let m ← pure (bare kind rank)
        finish
        pure m : Reader KeyValue) c = .ok (m, c') ↔
      (m.kind = kind ∧ m.rank = rank) ∧ m.IsHeader ∧ c.rest = m.nameSection ∧
        c' = ⟨c.total, []⟩ := by
  rw [nameSection]
  split
  · next named =>
    simp only [bind_eq_ok, pure_eq_ok, finish_eq_ok]
    constructor
    · rintro ⟨name, ⟨total, rest⟩, hname, _, _, ⟨rfl, rfl⟩, ⟨⟩, _, ⟨empty, rfl⟩, rfl, rfl⟩
      obtain ⟨small, split, same⟩ := (nameReader_reads c name _).1 hname
      obtain rfl : rest = [] := empty
      rw [List.append_nil] at split
      refine ⟨⟨rfl, rfl⟩, ⟨keyValue, named.symm, small, rfl, rfl⟩, ?_,
        congrArg (Cursor.mk · []) same⟩
      exact split.trans (if_pos named).symm
    · obtain ⟨_, _, name, ids, values⟩ := m
      rintro ⟨⟨rfl, rfl⟩, ⟨-, present, small, rfl, rfl⟩, split, rfl⟩
      obtain ⟨name, rfl⟩ := Option.isSome_iff_exists.1 (present.trans named)
      have read := (nameReader_reads c name ⟨c.total, []⟩).2
        ⟨small, by simpa [named] using split, rfl⟩
      exact ⟨name, _, read, _, _, ⟨rfl, rfl⟩, (), _, ⟨rfl, rfl⟩, rfl, rfl⟩
  · next unnamed =>
    have unnamed : kind.carriesName = false := by simpa using unnamed
    simp only [bind_eq_ok, pure_eq_ok, finish_eq_ok]
    constructor
    · rintro ⟨_, _, ⟨rfl, rfl⟩, ⟨⟩, _, ⟨empty, rfl⟩, rfl, rfl⟩
      refine ⟨⟨rfl, rfl⟩, ⟨keyValue, unnamed.symm, Nat.zero_lt_succ _, rfl, rfl⟩, ?_, ?_⟩
      · simpa [bare, unnamed] using empty
      · rw [← empty]
    · obtain ⟨_, _, name, ids, values⟩ := m
      rintro ⟨⟨rfl, rfl⟩, ⟨-, absent, -, rfl, rfl⟩, split, rfl⟩
      obtain rfl : name = none := by simpa [unnamed] using absent
      have empty : c.rest = [] := by simpa [unnamed] using split
      exact ⟨_, _, ⟨rfl, rfl⟩, (), _, ⟨empty, rfl⟩, rfl, by rw [← empty]⟩

theorem decodeHeader_eq_ok_iff : decodeHeader bs = .ok m ↔ m.IsHeader ∧ bs = m.header := by
  rw [decodeHeader, run_eq_ok, header_eq]
  simp only [headerReader, bind_eq_ok, lift_eq_ok, unless_eq_ok]
  constructor
  · rintro ⟨_, t, _, htag, kind, _, ⟨hkind, rfl⟩, keyValue, rank, c, hrank, last⟩
    obtain ⟨-, split, -⟩ := (int32_reads _ t _).1 htag
    obtain ⟨-, split', -⟩ := (int32_reads _ rank c).1 hrank
    obtain ⟨⟨rfl, rfl⟩, header, rest, -⟩ := (nameSection_eq_ok (by simpa using keyValue)).1 last
    refine ⟨header, ?_⟩
    rw [← rest, ← split', ← MessageKind.ofTag_eq_ok.1 hkind]
    exact split
  · rintro ⟨header, rfl⟩
    have pass : ¬(!m.kind.isKeyValue) = true := by simpa using header.keyValue
    rw [Cursor.start]
    exact ⟨_, _, _, int32_reads.accepts trivial _ _, m.kind, _,
      ⟨MessageKind.ofTag_eq_ok.2 rfl, rfl⟩, pass, m.rank, _, int32_reads.accepts trivial _ _,
      (nameSection_eq_ok header.keyValue).2 ⟨⟨rfl, rfl⟩, header, rfl, rfl⟩⟩

end KeyValue

end GraphRelay
