import GraphRelay.Command.Partition
import GraphRelay.Command.Serve
import GraphRelay.Command.Stats
import GraphRelay.Proofs.Command.Outline

/-!
# What a report shows

Reports on graphs and parts can be told from what is printed for them, as text and structured. A
report on a message can be told up to its name, where a dash may also stand for none, and up to its
values, of which the texts are shown.
-/
namespace GraphRelay
open Text Outline

section

variable {output output' : Option String}

theorem plain_elim_text (output : Option String) : Plain (output.elim null text) := by
  cases output with
  | none => exact .null
  | some s => exact .text s

theorem elim_text_inj : output.elim null text = output'.elim null text ↔ output = output' := by
  cases output <;> cases output' <;> simp

end

namespace StatsReport

variable {r r' : StatsReport}

theorem text_inj : r.text = r'.text ↔ r = r' := by
  refine ⟨?_, fun same => same ▸ rfl⟩
  delta text
  intro same
  have same := congrArg (String.toList · ++ []) same
  simp only [toString_text, String.toList_append, List.append_assoc] at same
  obtain ⟨vertices, same⟩ :=
    toString_nat_label_inj (by simp [isNumeral]) (List.append_cancel_left same)
  obtain ⟨edges, same⟩ := toString_nat_label_inj (by simp [isNumeral]) same
  obtain ⟨multigraph, same⟩ := toString_bool_append_inj same
  obtain ⟨maxInDegree, same⟩ := toString_nat_label_inj (by simp [isNumeral])
    (List.append_cancel_left (List.append_cancel_left same))
  obtain ⟨maxOutDegree, same⟩ := toString_nat_label_inj (by simp [isNumeral]) same
  obtain ⟨isolated, -⟩ := toString_nat_label_inj (by simp [isNumeral]) same
  cases r
  cases r'
  simp_all

theorem plain_outline (r : StatsReport) : Plain r.outline := by
  refine .members ?_
  simp only [List.forall_mem_cons]
  exact ⟨.nat r.vertices, .nat r.edges, .truth r.multigraph, .nat r.maxInDegree,
    .nat r.maxOutDegree, .nat r.isolated, List.forall_mem_nil _⟩

theorem render_outline_inj {depth : Nat} :
    r.outline.render depth = r'.outline.render depth ↔ r = r' := by
  rw [render_inj r.plain_outline r'.plain_outline]
  cases r
  cases r'
  simp [outline]

end StatsReport

namespace PartReport

variable {r r' : PartReport} {m n : Nat} {output output' : Option String}

theorem toString_nat_output_inj
    (same : (toString m).toList ++ ((output.elim "" (" -> " ++ ·)).toList ++ "\n".toList) =
      (toString n).toList ++ ((output'.elim "" (" -> " ++ ·)).toList ++ "\n".toList)) :
    m = n ∧ output = output' := by
  have stops (output : Option String) :
      Stops isNumeral ((output.elim "" (" -> " ++ ·)).toList ++ "\n".toList) := by
    cases output <;> simp [Stops, isNumeral]
  obtain ⟨digits, behind⟩ := (Numeral.toString_nat m).append_inj (Numeral.toString_nat n)
    (stops output) (stops output') same
  refine ⟨toString_nat_inj.1 digits, ?_⟩
  have targets := String.toList_inj.1 (List.append_cancel_right behind)
  cases output <;> cases output' <;> simp_all

theorem text_inj : r.text = r'.text ↔ r = r' := by
  refine ⟨?_, fun same => same ▸ rfl⟩
  delta text
  intro same
  have same := congrArg String.toList same
  simp only [toString_text, String.toList_append, List.append_assoc] at same
  obtain ⟨part, same⟩ :=
    toString_nat_label_inj (by simp [isNumeral]) (List.append_cancel_left same)
  obtain ⟨inner, same⟩ := toString_nat_label_inj (by simp [isNumeral]) same
  obtain ⟨halo, same⟩ := toString_nat_label_inj (by simp [isNumeral]) same
  obtain ⟨edges, same⟩ :=
    toString_nat_label_inj (by simp [isNumeral]) (List.append_cancel_left same)
  obtain ⟨innerEdges, output⟩ := toString_nat_output_inj same
  cases r
  cases r'
  simp_all

theorem plain_outline (r : PartReport) : Plain r.outline := by
  refine .members ?_
  simp only [List.forall_mem_cons]
  exact ⟨.nat r.part, .nat r.innerVertices, .nat r.haloVertices, .nat r.edges, .nat r.innerEdges,
    plain_elim_text r.output, List.forall_mem_nil _⟩

theorem render_outline_inj {depth : Nat} :
    r.outline.render depth = r'.outline.render depth ↔ r = r' := by
  rw [render_inj r.plain_outline r'.plain_outline]
  cases r
  cases r'
  simp [outline, elim_text_inj]

end PartReport

/-- The characters of words and numbers. -/
def isWord (c : Char) : Bool := isNumeral c || c.isAlpha

/-- A text that can stand in a list of items. -/
abbrev Word (text : String) : Prop := Run isWord text

theorem Text.Run.word {s : String} (h : Numeral s) : Word s :=
  h.mono fun c numeral => by simp [isWord, numeral]

section

variable {items items' : List String}

theorem toList_quoteList (items : List String) :
    (quoteList items).toList =
      '[' :: ([',', ' '].intercalate (items.map String.toList) ++ [']']) := by
  simp [quoteList]

theorem equals_notMem_quoteList (words : ∀ s ∈ items, Word s) : '=' ∉ (quoteList items).toList := by
  cases items with
  | nil => simp [toList_quoteList]
  | cons s items =>
    intro occurs
    have among : '=' ∈ [',', ' '].intercalate ((s :: items).map String.toList) := by
      simpa [toList_quoteList] using occurs
    have behind := List.mem_append_right [',', ' '] among
    rw [List.map_cons, append_intercalate, ← List.map_cons, List.mem_flatMap] at behind
    obtain ⟨_, listed, occurs⟩ := behind
    obtain ⟨t, ht, rfl⟩ := List.mem_map.1 listed
    have inside : '=' ∈ t.toList := by simpa using occurs
    exact absurd ((words t ht).chars '=' inside) (by decide)

theorem quoteList_inj (words : ∀ s ∈ items, Word s) (words' : ∀ s ∈ items', Word s) :
    quoteList items = quoteList items' ↔ items = items' := by
  refine ⟨fun same => ?_, fun same => same ▸ rfl⟩
  have same := congrArg String.toList same
  rw [toList_quoteList, toList_quoteList, List.cons.injEq] at same
  have same := same.2
  have opens {s : String} (h : Word s) (more : List String) :
      [',', ' '].intercalate ((s :: more).map String.toList) ++ [']'] ≠ [']'] := by
    intro short
    have first := append_intercalate [',', ' '] s.toList (more.map String.toList)
    rw [← List.map_cons, List.append_left_eq_self.1 short] at first
    simp [h.nonempty] at first
  cases items with
  | nil =>
    cases items' with
    | nil => rfl
    | cons s' items' => exact absurd same.symm (opens (words' s' List.mem_cons_self) items')
  | cons s items =>
    cases items' with
    | nil => exact absurd same (opens (words s List.mem_cons_self) items)
    | cons s' items' =>
      have told : ∀ x ∈ s :: items, ∀ y ∈ s' :: items', Tells isWord String.toList x y :=
        fun x hx y hy _ _ => (words x hx).append_inj (words' y hy)
      exact (intercalate_inj told rfl rfl (by decide) same).1

end

namespace MessageKind

variable {k k' : MessageKind}

theorem name_inj : k.name = k'.name ↔ k = k' := by
  cases k <;> cases k' <;> decide

theorem run_name (k : MessageKind) : Run Char.isAlpha k.name := by
  cases k <;> exact ⟨by simp [name], by simp [name]⟩

end MessageKind

namespace MessageReport

variable {r r' : MessageReport}

theorem valueText_word (bits : UInt32) : Word (valueText bits) := by
  rw [valueText]
  split
  · exact (textLayout.numeral_signed _ _).word
  · split <;> exact ⟨by simp, by simp [isWord, isNumeral]⟩
  · exact ⟨by simp, by simp [isWord, isNumeral]⟩

theorem plain_valueOutline (bits : UInt32) : Plain (valueOutline bits) := by
  rw [valueOutline]
  split
  · exact .number (outlineLayout.numeral_signed _ _)
  · exact .null

theorem plain_outline (r : MessageReport) : Plain r.outline := by
  refine .members ?_
  simp only [List.forall_mem_cons]
  exact ⟨.int r.sender.toInt, .text r.kind.name, .int r.rank.toInt, plain_elim_text r.name,
    .list (List.forall_mem_map.2 fun i _ => .int i.toInt),
    .list (List.forall_mem_map.2 fun bits _ => plain_valueOutline bits), List.forall_mem_nil _⟩

theorem render_outline_inj {depth : Nat} :
    r.outline.render depth = r'.outline.render depth ↔
      r.sender = r'.sender ∧ r.kind = r'.kind ∧ r.rank = r'.rank ∧ r.name = r'.name ∧
        r.ids = r'.ids ∧ r.values.map valueOutline = r'.values.map valueOutline := by
  have ids : r.ids.map (fun i => Outline.int i.toInt) = r'.ids.map (fun i => Outline.int i.toInt) ↔
      r.ids = r'.ids :=
    List.map_inj_right fun _ _ same => Int64.toInt_inj.1 (int_inj.1 same)
  rw [render_inj r.plain_outline r'.plain_outline]
  simp [outline, ids, elim_text_inj, MessageKind.name_inj, Int32.toInt_inj]

theorem word_ids (ids : List Int64) : ∀ s ∈ ids.map fun i => toString i.toInt, Word s :=
  List.forall_mem_map.2 fun _ _ => (Numeral.toString_int _).word

theorem word_values (values : List UInt32) : ∀ s ∈ values.map valueText, Word s :=
  List.forall_mem_map.2 fun bits _ => valueText_word bits

theorem toList_text (r : MessageReport) :
    r.text.toList =
      "from=".toList ++ ((toString r.sender.toInt).toList ++ (" kind=".toList ++
        (r.kind.name.toList ++ (" rank=".toList ++ ((toString r.rank.toInt).toList ++
          (" name=".toList ++ ((r.name.getD "-").toList ++ " ids".toList))))))) ++
      '=' :: ((quoteList (r.ids.map fun i => toString i.toInt)).toList ++ " values".toList) ++
      '=' :: ((quoteList (r.values.map valueText)).toList ++ ['\n']) := by
  delta text
  simp [toString_text, -Nat.toString_eq_repr]

/-- The name may hold anything, so the lists are found from behind. -/
theorem text_inj :
    r.text = r'.text ↔
      r.sender = r'.sender ∧ r.kind = r'.kind ∧ r.rank = r'.rank ∧
        r.name.getD "-" = r'.name.getD "-" ∧ r.ids = r'.ids ∧
          r.values.map valueText = r'.values.map valueText := by
  constructor
  · intro same
    have same := congrArg String.toList same
    rw [toList_text, toList_text] at same
    obtain ⟨front, values⟩ := append_cons_inj_of_notMem
      (by simpa using equals_notMem_quoteList (word_values r.values))
      (by simpa using equals_notMem_quoteList (word_values r'.values)) same
    obtain ⟨front, ids⟩ := append_cons_inj_of_notMem
      (by simpa using equals_notMem_quoteList (word_ids r.ids))
      (by simpa using equals_notMem_quoteList (word_ids r'.ids)) front
    have values := (quoteList_inj (word_values r.values) (word_values r'.values)).1
      (String.toList_inj.1 (List.append_cancel_right values))
    have ids := (quoteList_inj (word_ids r.ids) (word_ids r'.ids)).1
      (String.toList_inj.1 (List.append_cancel_right ids))
    obtain ⟨sender, kinds⟩ :=
      toString_int_label_inj (by simp [isNumeral]) (List.append_cancel_left front)
    obtain ⟨kind, ranks⟩ := r.kind.run_name.label_inj r'.kind.run_name (by simp) kinds
    obtain ⟨rank, name⟩ := toString_int_label_inj (by simp [isNumeral]) ranks
    exact ⟨Int32.toInt_inj.1 sender, MessageKind.name_inj.1 kind,
      Int32.toInt_inj.1 rank, String.toList_inj.1 (List.append_cancel_right name),
      List.map_inj_right (fun i j same => Int64.toInt_inj.1 (toString_int_inj.1 same)) |>.1 ids,
      values⟩
  · rintro ⟨sender, kind, rank, name, ids, values⟩
    delta text
    simp only [sender, kind, rank, name, ids, values]

end MessageReport

end GraphRelay
