import GraphRelay.Proofs.Message.KeyValueFormat

/-!
# Headers that are refused

`Refused bs f` says what is wrong with bytes that are no header and where reading them stops. Every
message that has the sections of its kind is read back from its header without its tensors, and all
other bytes are refused with the fault that `Refused` gives them.
-/
namespace GraphRelay

theorem MessageKind.ofTag_of_unknown {t : Int32} (unknown : ∀ k : MessageKind, k.tag ≠ t) :
    ofTag t = .error (.unknownKind t.toInt) := by
  have none : all.find? (·.tag = t) = none := by
    rw [List.find?_eq_none]
    intro k _
    simpa using unknown k
  rw [ofTag, none]

theorem MessageKind.isKeyValue_of_carriesName {kind : MessageKind}
    (named : kind.carriesName = true) : kind.isKeyValue = true := by
  cases kind <;> first | rfl | cases named

namespace KeyValue

open Wire Wire.Reader

/-- Why bytes are no header. Reading stops in front of the kind, the rank, the length of the name or
the name if it is cut off, and otherwise behind what is wrong. -/
inductive Refused : Bytes → Fault → Prop where
  | cutKind {bs : Bytes} (short : bs.length < 4) : Refused bs (.truncated 4 0 bs.length)
  | unknownKind {tag : Int32} {rest : Bytes} (unknown : ∀ k : MessageKind, k.tag ≠ tag) :
      Refused (Wire.int32 tag ++ rest) (.unknownKind tag.toInt)
  | otherKind {kind : MessageKind} {rest : Bytes} (other : kind.isKeyValue = false) :
      Refused (Wire.int32 kind.tag ++ rest) (.receivedNotKeyValue kind.name)
  | cutRank {kind : MessageKind} {rest : Bytes} (keyValue : kind.isKeyValue = true)
      (short : rest.length < 4) :
      Refused (Wire.int32 kind.tag ++ rest) (.truncated 4 4 (4 + rest.length))
  | cutLength {kind : MessageKind} {rank : Int32} {rest : Bytes} (named : kind.carriesName = true)
      (short : rest.length < 8) :
      Refused (Wire.int32 kind.tag ++ (Wire.int32 rank ++ rest)) (.truncated 8 8 (8 + rest.length))
  | cutName {kind : MessageKind} {rank : Int32} {n : Nat} {rest : Bytes}
      (named : kind.carriesName = true) (small : n < UInt64.size) (short : rest.length < n) :
      Refused (Wire.int32 kind.tag ++ (Wire.int32 rank ++ (Wire.count n ++ rest)))
        (.truncated n 16 (16 + rest.length))
  | nameEncoding {kind : MessageKind} {rank : Int32} {name rest : Bytes}
      (named : kind.carriesName = true) (small : name.length < UInt64.size)
      (invalid : toText? name = none) :
      Refused (Wire.int32 kind.tag ++ (Wire.int32 rank ++ (Wire.count name.length ++ (name ++ rest))))
        .nameEncoding
  | trailing {m : KeyValue} {rest : Bytes} (header : m.IsHeader) (more : rest ≠ []) :
      Refused (m.header ++ rest) (.trailing rest.length (m.header.length + rest.length))

theorem Refused.kind_eq {bs : Bytes} {f : Fault} (h : Refused bs f) : f.kind = .protocol := by
  cases h <;> rfl

/-- What is read behind the kind. -/
def bodyReader (kind : MessageKind) : Reader KeyValue := do
  let rank ← Reader.int32
  let m ←
    if kind.carriesName then do
      let name ← nameReader
      pure { bare kind rank with name := some name }
    else pure (bare kind rank)
  finish
  return m

section Reading

variable {kind : MessageKind} {m : KeyValue} {bs rest : Bytes} {f : Fault} (total : Nat)

theorem decodeHeader_eq_error : decodeHeader bs = .error f ↔ headerReader ⟨bs.length, bs⟩ = .error f :=
  run_eq_error

theorem headerReader_of_kind (keyValue : kind.isKeyValue = true) :
    headerReader ⟨total, Wire.int32 kind.tag ++ rest⟩ = bodyReader kind ⟨total, rest⟩ := by
  rw [headerReader, bind_of_ok (int32_reads.accepts trivial total rest),
    bind_of_ok (lift_of_ok (MessageKind.ofTag_eq_ok.2 rfl))]
  simp [keyValue, bodyReader]

theorem headerReader_of_other (other : kind.isKeyValue = false) :
    headerReader ⟨total, Wire.int32 kind.tag ++ rest⟩ = .error (.receivedNotKeyValue kind.name) := by
  rw [headerReader, bind_of_ok (int32_reads.accepts trivial total rest),
    bind_of_ok (lift_of_ok (MessageKind.ofTag_eq_ok.2 rfl))]
  simp only [other]
  exact bind_of_error (throw_eq_error.2 rfl)

theorem headerReader_of_unknown {tag : Int32} (unknown : ∀ k : MessageKind, k.tag ≠ tag) :
    headerReader ⟨total, Wire.int32 tag ++ rest⟩ = .error (.unknownKind tag.toInt) := by
  rw [headerReader, bind_of_ok (int32_reads.accepts trivial total rest)]
  exact bind_of_error (lift_eq_error.2 (MessageKind.ofTag_of_unknown unknown))

theorem bodyReader_of_name (rank : Int32) (named : kind.carriesName = true)
    (refused : nameReader ⟨total, rest⟩ = .error f) :
    bodyReader kind ⟨total, Wire.int32 rank ++ rest⟩ = .error f := by
  rw [bodyReader, bind_of_ok (int32_reads.accepts trivial total rest)]
  simp only [named, if_true]
  exact bind_of_error refused

theorem bodyReader_of_more (header : m.IsHeader) (more : rest ≠ []) :
    bodyReader m.kind ⟨total, Wire.int32 m.rank ++ (m.nameSection ++ rest)⟩ =
      .error (.trailing rest.length total) := by
  have last : finish ⟨total, rest⟩ = .error (.trailing rest.length total) := finish_of_ne_nil more
  rw [bodyReader, bind_of_ok (int32_reads.accepts trivial total _), nameSection]
  split
  · have name := nameReader_reads.accepts header.name_lt total rest
    rw [bind_of_ok name, bind_of_ok rfl]
    exact bind_of_error last
  · rw [bind_of_ok rfl]
    exact bind_of_error last

theorem nameReader_of_cut {n : Nat} (small : n < UInt64.size) (short : rest.length < n) :
    nameReader ⟨total, Wire.count n ++ rest⟩ =
      .error (.truncated n (total - rest.length) total) := by
  rw [nameReader, bind_of_ok (count_reads.accepts small total rest)]
  exact bind_of_error (take_of_lt short)

theorem nameReader_of_invalid {name : Bytes} (small : name.length < UInt64.size)
    (invalid : toText? name = none) :
    nameReader ⟨total, Wire.count name.length ++ (name ++ rest)⟩ = .error .nameEncoding := by
  have taken : Reader.take name.length ⟨total, name ++ rest⟩ = .ok (name, ⟨total, rest⟩) :=
    (take_reads name.length).accepts rfl total rest
  rw [nameReader, bind_of_ok (count_reads.accepts small total _), bind_of_ok taken, invalid]
  rfl

end Reading

variable {m : KeyValue} {bs : Bytes} {f : Fault}

theorem decodeHeader_of_refused (h : Refused bs f) : decodeHeader bs = .error f := by
  rw [decodeHeader_eq_error]
  cases h with
  | cutKind short =>
    rw [headerReader]
    refine bind_of_error (map_of_error ((take_of_lt short).trans ?_))
    simp [Cursor.offset]
  | unknownKind unknown => exact headerReader_of_unknown _ unknown
  | otherKind other => exact headerReader_of_other _ other
  | cutRank keyValue short =>
    rw [headerReader_of_kind _ keyValue, bodyReader]
    refine bind_of_error (map_of_error ((take_of_lt short).trans ?_))
    simp [Cursor.offset]
  | cutLength named short =>
    rw [headerReader_of_kind _ (MessageKind.isKeyValue_of_carriesName named)]
    refine bodyReader_of_name _ _ named (bind_of_error (map_of_error ((take_of_lt short).trans ?_)))
    simp [Cursor.offset]
    omega
  | cutName named small short =>
    rw [headerReader_of_kind _ (MessageKind.isKeyValue_of_carriesName named)]
    refine bodyReader_of_name _ _ named ((nameReader_of_cut _ small short).trans ?_)
    simp
    omega
  | nameEncoding named small invalid =>
    rw [headerReader_of_kind _ (MessageKind.isKeyValue_of_carriesName named)]
    exact bodyReader_of_name _ _ named (nameReader_of_invalid _ small invalid)
  | trailing header more =>
    rw [header_eq, List.append_assoc, List.append_assoc, headerReader_of_kind _ header.keyValue,
      bodyReader_of_more _ header more]
    simp
    omega

theorem decodeHeader_eq_ok_or_refused (bs : Bytes) :
    (∃ m, decodeHeader bs = .ok m) ∨ ∃ f, Refused bs f := by
  have complete : ∀ m : KeyValue, m.IsHeader → ∀ rest,
      (∃ m', decodeHeader (m.header ++ rest) = .ok m') ∨ ∃ f, Refused (m.header ++ rest) f := by
    intro m header rest
    by_cases more : rest = []
    · exact .inl ⟨m, decodeHeader_eq_ok_iff.2 ⟨header, by simp [more]⟩⟩
    · exact .inr ⟨_, .trailing header more⟩
  by_cases cut : bs.length < 4
  · exact .inr ⟨_, .cutKind cut⟩
  obtain ⟨tag, body, rfl⟩ := exists_int32_append (Nat.le_of_not_lt cut)
  by_cases unknown : ∀ k : MessageKind, k.tag ≠ tag
  · exact .inr ⟨_, .unknownKind unknown⟩
  obtain ⟨kind, rfl⟩ : ∃ k : MessageKind, k.tag = tag := by simpa using unknown
  by_cases keyValue : kind.isKeyValue = true
  swap
  · exact .inr ⟨_, .otherKind (by simpa using keyValue)⟩
  by_cases short : body.length < 4
  · exact .inr ⟨_, .cutRank keyValue short⟩
  obtain ⟨rank, rest, rfl⟩ := exists_int32_append (Nat.le_of_not_lt short)
  by_cases named : kind.carriesName = true
  swap
  · have whole := complete (bare kind rank)
      ⟨keyValue, by simp [bare, named], Nat.zero_lt_succ _, rfl, rfl⟩ rest
    simpa [header_eq, nameSection, bare, named] using whole
  by_cases eight : rest.length < 8
  · exact .inr ⟨_, .cutLength named eight⟩
  obtain ⟨n, rest, small, rfl⟩ := exists_count_append (Nat.le_of_not_lt eight)
  by_cases overrun : rest.length < n
  · exact .inr ⟨_, .cutName named small overrun⟩
  obtain ⟨name, rest, rfl, rfl⟩ : ∃ name more, rest = name ++ more ∧ name.length = n :=
    ⟨rest.take n, rest.drop n, (List.take_append_drop n rest).symm,
      List.length_take_of_le (Nat.le_of_not_lt overrun)⟩
  cases text : toText? name with
  | none => exact .inr ⟨_, .nameEncoding named small text⟩
  | some name =>
    obtain rfl := toText?_eq_some_iff.1 text
    have whole := complete { bare kind rank with name := some name }
      ⟨keyValue, named.symm, small, rfl, rfl⟩ rest
    simpa [header_eq, nameSection, nameBytes, bare, named] using whole

theorem decodeHeader_eq_error_iff : decodeHeader bs = .error f ↔ Refused bs f := by
  refine ⟨fun refused => ?_, decodeHeader_of_refused⟩
  rcases decodeHeader_eq_ok_or_refused bs with ⟨m, read⟩ | ⟨f', h⟩
  · rw [read] at refused
    cases refused
  · have other := decodeHeader_of_refused h
    rw [refused] at other
    cases other
    exact h

theorem decodeHeader_of_encodeHeader (small : (Wire.text (m.name.getD "")).length < UInt64.size)
    (sent : m.encodeHeader = .ok bs) :
    decodeHeader bs = .ok { m with ids := none, values := none } := by
  obtain ⟨complete, rfl⟩ := encodeHeader_eq_ok_iff.1 sent
  exact decodeHeader_eq_ok_iff.2 ⟨⟨complete.keyValue, complete.name, small, rfl, rfl⟩, rfl⟩

theorem encodeHeader_of_decodeHeader {h : KeyValue} (read : decodeHeader bs = .ok h)
    (ids values : Option Tensor) (carriesIds : ids.isSome = h.kind.carriesIds)
    (carriesValues : values.isSome = h.kind.carriesValues) :
    encodeHeader { h with ids := ids, values := values } = .ok bs := by
  obtain ⟨header, rfl⟩ := decodeHeader_eq_ok_iff.1 read
  exact encodeHeader_eq_ok_iff.2 ⟨⟨header.keyValue, header.name, carriesIds, carriesValues⟩, rfl⟩

/-- No header is the beginning of another one. -/
theorem exists_refused_of_append {before after : Bytes} (more : after ≠ [])
    (small : (Wire.text (m.name.getD "")).length < UInt64.size)
    (sent : m.encodeHeader = .ok (before ++ after)) : ∃ f, Refused before f := by
  rcases decodeHeader_eq_ok_or_refused before with ⟨h, read⟩ | refused
  · obtain ⟨header, rfl⟩ := decodeHeader_eq_ok_iff.1 read
    have long := decodeHeader_of_refused (.trailing header more)
    rw [decodeHeader_of_encodeHeader small sent] at long
    cases long
  · exact refused

theorem exists_completed {h : KeyValue} (read : decodeHeader bs = .ok h) : ∃ m : KeyValue,
    (Wire.text (m.name.getD "")).length < UInt64.size ∧ m.encodeHeader = .ok bs := by
  have present : ∀ b : Bool, ∃ t : Option Tensor, t.isSome = b
    | true => ⟨some (.ofInt64s []), rfl⟩
    | false => ⟨none, rfl⟩
  obtain ⟨ids, carriesIds⟩ := present h.kind.carriesIds
  obtain ⟨values, carriesValues⟩ := present h.kind.carriesValues
  exact ⟨{ h with ids := ids, values := values }, (decodeHeader_eq_ok_iff.1 read).1.name_lt,
    encodeHeader_of_decodeHeader read ids values carriesIds carriesValues⟩

/-- The header codec is exact, the length of a name being a 64-bit number. A message has a header if
its sections are those of its kind, and the header brings it back without its tensors, but no shorter
beginning of it does. What is read from bytes, with any tensors that its kind carries, has these bytes
as its header, and bytes that are the header of no message are refused as a violation of the protocol,
for the reason that `Refused` gives. -/
theorem header_codec_exact :
    (∀ m : KeyValue, (∃ bs, m.encodeHeader = .ok bs) ↔ m.Complete) ∧
    (∀ (m : KeyValue) (bs : Bytes), (Wire.text (m.name.getD "")).length < UInt64.size →
      m.encodeHeader = .ok bs → decodeHeader bs = .ok { m with ids := none, values := none } ∧
      ∀ before after, bs = before ++ after → after ≠ [] →
        ∃ f, decodeHeader before = .error f ∧ Refused before f) ∧
    (∀ (bs : Bytes) (h : KeyValue), decodeHeader bs = .ok h → h.ids = none ∧ h.values = none ∧
      ∀ ids values : Option Tensor, ids.isSome = h.kind.carriesIds →
        values.isSome = h.kind.carriesValues →
        encodeHeader { h with ids := ids, values := values } = .ok bs) ∧
    (∀ bs : Bytes, (∃ m : KeyValue, (Wire.text (m.name.getD "")).length < UInt64.size ∧
      m.encodeHeader = .ok bs) ∨ ∃ f, decodeHeader bs = .error f ∧ f.kind = .protocol) ∧
    ∀ (bs : Bytes) (f : Fault), decodeHeader bs = .error f ↔ Refused bs f := by
  refine ⟨fun m => ?_, fun m bs small sent => ⟨decodeHeader_of_encodeHeader small sent, ?_⟩,
    fun bs h read => ?_, fun bs => ?_, fun _ _ => decodeHeader_eq_error_iff⟩
  · constructor
    · rintro ⟨bs, sent⟩
      exact (encodeHeader_eq_ok_iff.1 sent).1
    · intro complete
      exact ⟨m.header, encodeHeader_eq_ok_iff.2 ⟨complete, rfl⟩⟩
  · rintro before after rfl more
    obtain ⟨f, refused⟩ := exists_refused_of_append more small sent
    exact ⟨f, decodeHeader_of_refused refused, refused⟩
  · have header := (decodeHeader_eq_ok_iff.1 read).1
    exact ⟨header.ids, header.values, encodeHeader_of_decodeHeader read⟩
  · rcases decodeHeader_eq_ok_or_refused bs with ⟨h, read⟩ | ⟨f, refused⟩
    · exact .inl (exists_completed read)
    · exact .inr ⟨f, decodeHeader_of_refused refused, refused.kind_eq⟩

/-- A push of the parameter `w`, there and back, cut within the length of its name, and with a name
that would be longer than any message. -/
theorem header_codec_push :
    encodeHeader (push 7 "w" (.ofInt64s [2]) (.ofInt64s [])) =
      .ok [3, 0, 0, 0, 7, 0, 0, 0, 1, 0, 0, 0, 0, 0, 0, 0, 119] ∧
    decodeHeader [3, 0, 0, 0, 7, 0, 0, 0, 1, 0, 0, 0, 0, 0, 0, 0, 119] =
      .ok ⟨.push, 7, some "w", none, none⟩ ∧
    encodeHeader ⟨.push, 7, some "w", some (.ofInt64s []), some (.ofInt64s [5])⟩ =
      .ok [3, 0, 0, 0, 7, 0, 0, 0, 1, 0, 0, 0, 0, 0, 0, 0, 119] ∧
    (∃ f, decodeHeader [3, 0, 0, 0, 7, 0, 0, 0, 1, 0, 0] = .error f ∧
      Refused [3, 0, 0, 0, 7, 0, 0, 0, 1, 0, 0] f) ∧
    decodeHeader [3, 0, 0, 0, 7, 0, 0, 0, 255, 255, 255, 255, 255, 255, 255, 255] =
      .error (.truncated 18446744073709551615 16 16) := by
  obtain ⟨-, readBack, completes, -, refusals⟩ := header_codec_exact
  have sent : encodeHeader (push 7 "w" (.ofInt64s [2]) (.ofInt64s [])) =
      .ok [3, 0, 0, 0, 7, 0, 0, 0, 1, 0, 0, 0, 0, 0, 0, 0, 119] := by decide
  obtain ⟨read, cut⟩ := readBack _ _ (by decide) sent
  refine ⟨sent, read, (completes _ _ read).2.2 _ _ rfl rfl, cut _ _ rfl (by simp), ?_⟩
  exact (refusals _ _).2
    (@Refused.cutName .push 7 18446744073709551615 [] rfl (by decide) (by decide))

end KeyValue

end GraphRelay
