import GraphRelay.Csv.Codec
import GraphRelay.Proofs.Wire.Text

/-!
# Tables of plain fields

Fields without commas, quotes and line ends are written and read as they stand between the commas: a
text with one line for each row of a table has the rows of the table as its records, and fields that
are texts are decoded as those texts.
-/
namespace GraphRelay.Csv

/-- A byte without a meaning of its own. -/
def isPlain (b : UInt8) : Bool := b ≠ comma && b ≠ quote && !isBreak b

theorem isPlain_iff {b : UInt8} :
    isPlain b = true ↔ b ≠ comma ∧ b ≠ quote ∧ ¬isBreak b = true := by
  simp [isPlain, and_assoc]

theorem isPlain_of_comma_lt {b : UInt8} (lt : comma < b) : isPlain b = true := by
  refine isPlain_iff.2 ⟨?_, ?_, ?_⟩
  · rintro rfl
    exact absurd lt (by decide)
  · rintro rfl
    exact absurd lt (by decide)
  · simp only [isBreak, Bool.or_eq_true, decide_eq_true_eq]
    rintro (rfl | rfl) <;> exact absurd lt (by decide)

/-- Not empty, and every character is an ASCII character behind the comma. -/
def PlainText (s : String) : Prop := s ≠ "" ∧ ∀ c ∈ s.toList, 44 < c.toNat ∧ c.toNat < 128

/-- The rows have a field and as many as one another, and every field is plain. -/
structure PlainTexts (table : List (List String)) : Prop where
  rectangular : ∃ width, 0 < width ∧ ∀ row ∈ table, row.length = width
  plain : ∀ row ∈ table, ∀ s ∈ row, PlainText s

/-- What edge lists rely on: plain fields that were written are read back. -/
structure Codec.Lawful (csv : Codec) : Prop where
  read_write : ∀ table, PlainTexts table → csv.read (csv.write table) = table.map .ok

theorem PlainText.field {s : String} (h : PlainText s) :
    Wire.text s ≠ [] ∧ ∀ b ∈ Wire.text s, isPlain b = true := by
  obtain ⟨filled, printed⟩ := h
  rw [Wire.text_eq_map fun c hc => (printed c hc).2]
  refine ⟨by simpa using filled, List.forall_mem_map.2 fun c hc => ?_⟩
  obtain ⟨behind, ascii⟩ := printed c hc
  refine isPlain_of_comma_lt (UInt8.lt_iff_toNat_lt.2 ?_)
  rw [UInt8.toNat_ofNat', Nat.mod_eq_of_lt (by omega)]
  exact behind

theorem PlainText.ascii {s : String} (h : PlainText s) : ∀ b ∈ Wire.text s, b.toNat < 128 := by
  rw [Wire.text_eq_map fun c hc => (h.2 c hc).2, List.forall_mem_map]
  intro c hc
  rw [UInt8.toNat_ofNat', Nat.mod_eq_of_lt (Nat.lt_trans (h.2 c hc).2 (by decide))]
  exact (h.2 c hc).2

/-- The fields with commas between them, and a line feed. -/
def plainLine (row : List Bytes) : Bytes := joinFields row ++ [10]

/-- Every row of the table has a field, and no field is empty or needs quotes. -/
def PlainTable (table : List (List Bytes)) : Prop :=
  ∀ row ∈ table, row ≠ [] ∧ ∀ field ∈ row, field ≠ [] ∧ ∀ b ∈ field, isPlain b = true

/-- An unquoted field may begin or go on. -/
def Phase.isOpen : Phase → Bool
  | between | fieldStart | plain => true
  | quoted | afterQuote => false

namespace Reading

/-- A reading without its places: the phase, the draft and the rows so far, last first. -/
structure Holds (r : Reading) (phase : Phase) (draft : Draft) (rows : List (List Bytes)) : Prop where
  phase : r.phase = phase
  draft : r.draft = draft
  rows : r.records.map Record.fields = rows

variable {r : Reading} {phase : Phase} {draft : Draft} {fields row : List Bytes} {field : Bytes}
  {rows table : List (List Bytes)}

theorem holds_start (mark : Nat) : (start mark).Holds .between .empty [] := ⟨rfl, rfl, rfl⟩

theorem Holds.step_plain (h : r.Holds phase draft rows) (isOpen : phase.isOpen = true) {b : UInt8}
    (plain : isPlain b = true) : (r.step b).Holds .plain (draft.push b) rows := by
  obtain ⟨rfl, rfl, rfl⟩ := h
  obtain ⟨noComma, noQuote, noBreak⟩ := isPlain_iff.1 plain
  have kept (r : Reading) : r.plain b = r.keep b .plain := by
    rw [Reading.plain, if_neg noComma, if_neg noBreak]
  cases reached : r.phase with
  | between =>
    simp only [step, reached, if_neg noBreak, if_neg noQuote, kept]
    exact ⟨rfl, rfl, rfl⟩
  | fieldStart =>
    simp only [step, reached, if_neg noQuote, kept]
    exact ⟨rfl, rfl, rfl⟩
  | plain =>
    simp only [step, reached, kept]
    exact ⟨rfl, rfl, rfl⟩
  | quoted => simp [reached, Phase.isOpen] at isOpen
  | afterQuote => simp [reached, Phase.isOpen] at isOpen

theorem Holds.step_comma (h : r.Holds .plain draft rows) :
    (r.step comma).Holds .fieldStart draft.endField rows := by
  obtain ⟨phase, rfl, rfl⟩ := h
  simp only [step, phase, Reading.plain, if_pos]
  exact ⟨rfl, rfl, rfl⟩

theorem Holds.step_lineFeed (h : r.Holds .plain draft rows) :
    (r.step 10).Holds .between .empty (draft.record :: rows) := by
  obtain ⟨phase, rfl, rfl⟩ := h
  have noComma : (10 : UInt8) ≠ comma := by decide
  have isEnd : isBreak 10 = true := by decide
  simp only [step, phase, Reading.plain, if_neg noComma, if_pos isEnd]
  exact ⟨rfl, rfl, rfl⟩

/-- The bytes of a field are collected, whatever stood in the field before. -/
theorem Holds.foldl_plain (h : r.Holds .plain draft rows) (plain : ∀ b ∈ field, isPlain b = true) :
    (field.foldl step r).Holds .plain ⟨draft.fields, field.reverse ++ draft.field⟩ rows := by
  induction field generalizing r draft with
  | nil => exact h
  | cons b field ih =>
    rw [List.forall_mem_cons] at plain
    have next := ih (h.step_plain rfl plain.1) plain.2
    rwa [List.foldl_cons, List.reverse_cons, List.append_assoc]

theorem Holds.foldl_field (h : r.Holds phase ⟨fields, []⟩ rows) (isOpen : phase.isOpen = true)
    (nonempty : field ≠ []) (plain : ∀ b ∈ field, isPlain b = true) :
    (field.foldl step r).Holds .plain ⟨fields, field.reverse⟩ rows := by
  cases field with
  | nil => exact absurd rfl nonempty
  | cons b field =>
    rw [List.forall_mem_cons] at plain
    have next := (h.step_plain isOpen plain.1).foldl_plain plain.2
    rwa [List.foldl_cons, List.reverse_cons]

/-- A line completes the record of the fields before it and its own. -/
theorem Holds.foldl_line (h : r.Holds phase ⟨fields, []⟩ rows) (isOpen : phase.isOpen = true)
    (filled : row ≠ []) (plain : ∀ field ∈ row, field ≠ [] ∧ ∀ b ∈ field, isPlain b = true) :
    ((plainLine row).foldl step r).Holds .between .empty ((fields.reverse ++ row) :: rows) := by
  induction row using joinFields.induct generalizing r phase fields with
  | case1 => exact absurd rfl filled
  | case2 field =>
    obtain ⟨nonempty, plain⟩ := plain field (by simp)
    have closed := (h.foldl_field isOpen nonempty plain).step_lineFeed
    simpa [plainLine, joinFields, Draft.record, Draft.endField] using closed
  | case3 field row more ih =>
    rw [List.forall_mem_cons] at plain
    obtain ⟨⟨nonempty, here⟩, later⟩ := plain
    have passed := (h.foldl_field isOpen nonempty here).step_comma
    rw [Draft.endField, List.reverse_reverse] at passed
    have closed := ih passed rfl (by simpa using more) later
    simpa [plainLine, joinFields] using closed

theorem Holds.foldl_table (h : r.Holds .between .empty rows) (plain : PlainTable table) :
    ((table.flatMap plainLine).foldl step r).Holds .between .empty (table.reverse ++ rows) := by
  induction table generalizing r rows with
  | nil => exact h
  | cons row table ih =>
    obtain ⟨⟨filled, here⟩, later⟩ := List.forall_mem_cons.1 plain
    have next := ih (h.foldl_line rfl filled here) later
    simpa using next

end Reading

theorem records_plain {table : List (List Bytes)} (plain : PlainTable table)
    (unmarked : byteOrderMark.isPrefixOf (table.flatMap plainLine) = false) :
    (records (table.flatMap plainLine)).map Record.fields = table := by
  have read := (Reading.holds_start 0).foldl_table plain
  rw [List.append_nil] at read
  simp [records, unmarked, Reading.finish, read.phase, read.rows]

theorem decodeFields_text (position : Position) (i : Nat) (texts : List String) :
    decodeFields position i (texts.map Wire.text) = .ok texts := by
  induction texts generalizing i with
  | nil => rfl
  | cons s texts ih =>
    rw [List.map_cons, decodeFields, Wire.toText?_eq_some_iff.2 rfl]
    simp only [ih]
    rfl

theorem Record.texts_eq_ok {r : Record} {texts : List String}
    (fields : r.fields = texts.map Wire.text) : r.texts = .ok texts := by
  rw [Record.texts, fields, decodeFields_text]

theorem map_texts {records : List Record} {table : List (List String)}
    (fields : records.map Record.fields = table.map (List.map Wire.text)) :
    records.map Record.texts = table.map .ok := by
  induction records generalizing table with
  | nil =>
    obtain rfl : table = [] := List.map_eq_nil_iff.1 fields.symm
    rfl
  | cons r records ih =>
    cases table with
    | nil => cases fields
    | cons row table =>
      rw [List.map_cons, List.map_cons, List.cons.injEq] at fields
      rw [List.map_cons, List.map_cons, Record.texts_eq_ok fields.1, ih fields.2]

theorem writeField_of_plain {s : String} (plain : PlainText s) : writeField s = Wire.text s := by
  have unquoted : needsQuotes (Wire.text s) = false := by
    rw [needsQuotes, List.any_eq_false]
    intro b hb
    obtain ⟨noComma, noQuote, noBreak⟩ := isPlain_iff.1 (plain.field.2 b hb)
    simp [noComma, noQuote, noBreak]
  simp [writeField, unquoted]

theorem exists_joinFields_cons (field : Bytes) (row : List Bytes) :
    ∃ rest, joinFields (field :: row) = field ++ rest := by
  cases row with
  | nil => exact ⟨[], (List.append_nil field).symm⟩
  | cons next row => exact ⟨_, rfl⟩

/-- A row of plain texts is one line, and an ASCII character begins it. -/
theorem writeRow_of_plain {row : List String} (filled : row ≠ []) (plain : ∀ s ∈ row, PlainText s) :
    writeRow row = plainLine (row.map Wire.text) ∧
      ∃ b rest, writeRow row = b :: rest ∧ b.toNat < 128 := by
  obtain ⟨s, row, rfl⟩ := List.exists_cons_of_ne_nil filled
  have fields : (s :: row).map writeField = (s :: row).map Wire.text :=
    List.map_congr_left fun s hs => writeField_of_plain (plain s hs)
  have first := plain s List.mem_cons_self
  obtain ⟨b, text, own⟩ := List.exists_cons_of_ne_nil first.field.1
  obtain ⟨rest, line⟩ := exists_joinFields_cons (Wire.text s) (row.map Wire.text)
  have nonempty : (joinFields ((s :: row).map Wire.text)).isEmpty = false := by
    rw [List.map_cons, line, own]
    rfl
  have written : writeRow (s :: row) = plainLine ((s :: row).map Wire.text) := by
    simp only [writeRow, fields, nonempty]
    rfl
  refine ⟨written, b, text ++ rest ++ [10], ?_, first.ascii b (own ▸ List.mem_cons_self)⟩
  rw [written, plainLine, List.map_cons, line, own]
  rfl

theorem not_byteOrderMark {b : UInt8} (ascii : b.toNat < 128) (rest : Bytes) :
    byteOrderMark.isPrefixOf (b :: rest) = false := by
  have other : (0xef == b) = false := by
    rw [beq_eq_false_iff_ne]
    rintro rfl
    exact absurd ascii (by decide)
  rw [byteOrderMark, List.isPrefixOf_cons_cons, other, Bool.false_and]

theorem Codec.standard_lawful : Codec.standard.Lawful where
  read_write table h := by
    obtain ⟨width, positive, widths⟩ := h.rectangular
    have filled : ∀ row ∈ table, row ≠ [] := by
      rintro row hrow rfl
      exact absurd (widths _ hrow) (Nat.ne_of_lt positive)
    have lines : table.flatMap writeRow =
        (table.map (List.map Wire.text)).flatMap plainLine := by
      rw [List.flatMap_map]
      exact List.flatMap_congr fun row hrow =>
        (writeRow_of_plain (filled row hrow) (h.plain row hrow)).1
    have plain : PlainTable (table.map (List.map Wire.text)) := by
      refine List.forall_mem_map.2 fun row hrow => ⟨by simpa using filled row hrow, ?_⟩
      exact List.forall_mem_map.2 fun s hs => (h.plain row hrow s hs).field
    have unmarked : byteOrderMark.isPrefixOf (table.flatMap writeRow) = false := by
      cases table with
      | nil => rfl
      | cons row table =>
        have first := List.mem_cons_self (a := row) (l := table)
        obtain ⟨-, b, rest, begins, ascii⟩ :=
          writeRow_of_plain (filled row first) (h.plain row first)
        rw [List.flatMap_cons, begins, List.cons_append]
        exact not_byteOrderMark ascii _
    rw [lines] at unmarked
    change (records (table.flatMap writeRow)).map Record.texts = _
    rw [lines]
    exact map_texts (records_plain plain unmarked)

end GraphRelay.Csv
