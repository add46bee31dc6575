import GraphRelay.Proofs.Csv.PlainTables
import GraphRelay.Proofs.Decimal
import GraphRelay.Proofs.EdgeList.Loading

/-!
# Edge lists that are written and read back

The digits of an id need no quotes and have no blanks around them, so the fields of a written file are
its ids and the same edges come back. Whether a requested number of vertices is accepted depends on
the ids alone.
-/
namespace GraphRelay

theorem Text.trim_eq_self {s : String} (inked : ∀ c ∈ s.toList, Text.isBlank c = false) :
    Text.trim s = s := by
  have kept {cs : List Char} (inked : ∀ c ∈ cs, Text.isBlank c = false) :
      cs.dropWhile Text.isBlank = cs := by
    cases cs with
    | nil => rfl
    | cons c cs => exact List.dropWhile_cons_of_neg (by simp [inked c])
  rw [Text.trim, Text.trimChars, kept inked, kept (by simpa using inked), List.reverse_reverse,
    String.ofList_toList]

namespace Decimal

variable {c : Char}

theorem toNat_of_isDigit (digit : c.isDigit = true) : 48 ≤ c.toNat ∧ c.toNat ≤ 57 :=
  Char.isDigit_iff_toNat.1 digit

theorem isBlank_of_isDigit (digit : c.isDigit = true) : Text.isBlank c = false := by
  have bounds := toNat_of_isDigit digit
  simp only [Text.isBlank, Text.scatteredBlanks, List.contains_eq_mem, List.mem_cons,
    List.not_mem_nil, or_false, Bool.decide_or, Bool.or_eq_false_iff, Bool.and_eq_false_imp,
    decide_eq_true_eq, decide_eq_false_iff_not, Nat.not_le]
  omega

theorem trim_toString (n : Nat) : Text.trim (toString n) = toString n :=
  Text.trim_eq_self fun _ hc => isBlank_of_isDigit (isDigit_of_mem_toString hc)

theorem plainText_toString (n : Nat) : Csv.PlainText (toString n) := by
  refine ⟨fun empty => toList_toString_ne_nil n (by simp [empty]), fun c hc => ?_⟩
  have bounds := toNat_of_isDigit (isDigit_of_mem_toString hc)
  omega

end Decimal

namespace EdgeList

variable {csv : Csv.Codec} {sources targets : List Nat} {row : Nat × Nat}

theorem plainTexts_written (rows : List (Nat × Nat)) :
    Csv.PlainTexts (["src", "dst"] :: rows.map shown) where
  rectangular := ⟨2, by decide, List.forall_mem_cons.2 ⟨rfl, List.forall_mem_map.2 fun _ _ => rfl⟩⟩
  plain := by
    have header : Csv.PlainText "src" ∧ Csv.PlainText "dst" := by simp [Csv.PlainText]
    rw [List.forall_mem_cons, List.forall_mem_map]
    refine ⟨?_, fun row _ => ?_⟩
    · rw [List.forall_mem_cons, List.forall_mem_singleton]
      exact header
    · rw [shown, List.forall_mem_cons, List.forall_mem_singleton]
      exact ⟨Decimal.plainText_toString row.1, Decimal.plainText_toString row.2⟩

/-- An id is read from its own digits. -/
theorem vertexIn_toString {texts : List String} {index v : Nat} (small : v < UInt64.size)
    (here : texts[index]? = some (toString v)) (column : String) (i : Nat) :
    vertexIn texts index column i = .ok v := by
  have filled : (toString v).isEmpty = false := by
    rw [String.isEmpty_eq_false_iff, ne_eq, ← String.toList_eq_nil_iff]
    exact Decimal.toList_toString_ne_nil v
  simp only [vertexIn, here, Option.getD_some, Decimal.trim_toString, filled,
    Decimal.parse?_toString small]
  rfl

theorem readRow_shown (small : row.1 < UInt64.size ∧ row.2 < UInt64.size) (i : Nat) :
    readRow writtenSource 0 1 (.ok (shown row)) i = .ok row := by
  have source : vertexIn (shown row) 0 writtenSource.sourceColumn i = .ok row.1 :=
    vertexIn_toString small.1 rfl _ i
  have target : vertexIn (shown row) 1 writtenSource.targetColumn i = .ok row.2 :=
    vertexIn_toString small.2 rfl _ i
  simp only [readRow, Except.mapError, bind, Except.bind, source, target]
  rfl

theorem mapM_readRow {rows : List (Nat × Nat)}
    (small : ∀ row ∈ rows, row.1 < UInt64.size ∧ row.2 < UInt64.size) :
    ((rows.map shown).map Except.ok).zipIdx.mapM
      (fun p => readRow writtenSource 0 1 p.1 p.2) = .ok rows := by
  refine mapM_eq_ok_iff.2 (List.forall₂_iff_get.2 ⟨by simp, fun i hi hj => ?_⟩)
  simpa using readRow_shown (small _ (List.getElem_mem hj)) i

theorem rowsIn_write (lawful : csv.Lawful)
    (small : ∀ row ∈ sources.zip targets, row.1 < UInt64.size ∧ row.2 < UInt64.size) :
    rowsIn csv writtenSource (write csv sources targets) = .ok (sources.zip targets) := by
  have table := lawful.read_write _ (plainTexts_written (sources.zip targets))
  have first : column ["src", "dst"] writtenSource.sourceColumn = .ok 0 := by decide
  have second : column ["src", "dst"] writtenSource.targetColumn = .ok 1 := by decide
  rw [rowsIn, write, table]
  simp only [List.map_cons, headers, Except.mapError, first, second, bind, Except.bind]
  exact mapM_readRow small

theorem exists_load_write (lawful : csv.Lawful) (same : sources.length = targets.length)
    (small : ∀ v ∈ sources ++ targets, v + 1 < UInt64.size) :
    ∃ l, load csv writtenSource (.ok (write csv sources targets)) = .ok l ∧ l.sources = sources ∧
      l.targets = targets ∧ l.vertexCount = (sources ++ targets).max?.elim 0 (· + 1) := by
  obtain ⟨rows, rfl, rfl⟩ : ∃ rows : List (Nat × Nat),
      sources = rows.map Prod.fst ∧ targets = rows.map Prod.snd :=
    ⟨sources.zip targets, (List.map_fst_zip (Nat.le_of_eq same)).symm,
      (List.map_snd_zip (Nat.le_of_eq same.symm)).symm⟩
  have paired : (rows.map Prod.fst).zip (rows.map Prod.snd) = rows := by
    rw [List.zip_map']
    simp
  have room : needed rows < UInt64.size := by
    rw [← Nat.le_sub_one_iff_lt (by decide), needed, elim_max?_le_iff]
    exact fun v hv => Nat.lt_sub_of_add_lt (small v hv)
  have read : rowsIn csv writtenSource (write csv (rows.map Prod.fst) (rows.map Prod.snd)) =
      .ok rows := by
    rw [rowsIn_write lawful, paired]
    rw [paired]
    exact needed_le_iff.1 (Nat.le_of_lt room)
  have made : ofRows writtenSource.vertexCount rows = .ok ⟨needed rows, rows⟩ :=
    ofRows_eq_ok_iff.2 ⟨room, Nat.le_refl _, rfl⟩
  exact ⟨_, load_eq_ok_iff.2 ⟨_, rows, rfl, read, made⟩, rfl, rfl, rfl⟩

/-- A requested number of vertices suffices exactly when it is above every id. -/
theorem exists_load_iff {source : EdgeListSource} {content : Bytes} {rows : List (Nat × Nat)}
    {n : Nat} (small : n < UInt64.size) (read : rowsIn csv source content = .ok rows)
    (requested : source.vertexCount = some n) :
    (∃ l, load csv source (.ok content) = .ok l) ↔ ∀ row ∈ rows, row.1 < n ∧ row.2 < n := by
  rw [← needed_le_iff]
  constructor
  · rintro ⟨l, loaded⟩
    obtain ⟨bytes, rows', ⟨⟩, read', made⟩ := load_eq_ok_iff.1 loaded
    obtain rfl := Except.ok.inj (read.symm.trans read')
    obtain ⟨-, enough, -⟩ := ofRows_eq_ok_iff.1 made
    rwa [requested] at enough
  · intro enough
    have made : ofRows source.vertexCount rows = .ok ⟨n, rows⟩ := by
      rw [requested, ofRows_eq_ok_iff]
      exact ⟨Nat.lt_of_le_of_lt enough small, enough, rfl⟩
    exact ⟨_, load_eq_ok_iff.2 ⟨content, rows, rfl, read, made⟩⟩

/-- What was written is read back. Whatever is read has room for its ids, and a requested number of
vertices is accepted exactly when it is above every id. The graph whose edges are the rows in order is
made exactly when its counters, one more than the vertices, can be counted. -/
theorem load_round_trip (csv : Csv.Codec) :
    (csv.Lawful → ∀ sources targets : List Nat, sources.length = targets.length →
      (∀ v ∈ sources ++ targets, v + 1 < UInt64.size) →
      ∃ l, load csv writtenSource (.ok (write csv sources targets)) = .ok l ∧ l.sources = sources ∧
        l.targets = targets ∧ l.vertexCount = (sources ++ targets).max?.elim 0 (· + 1)) ∧
    (∀ source content l, load csv source content = .ok l →
      (∃ bytes, content = .ok bytes ∧ rowsIn csv source bytes = .ok l.rows) ∧ l.Inside ∧
        (l.vertexCount + 1 < UInt64.size → ∃ g, l.graph = some (.ok g) ∧
          g.vertexCount = l.vertexCount ∧ g.edgesById = EditableGraph.numbered 0 l.rows) ∧
        (UInt64.size ≤ l.vertexCount + 1 → l.graph = none)) ∧
    ∀ source bytes rows n, n < UInt64.size → rowsIn csv source bytes = .ok rows →
      source.vertexCount = some n →
      ((∃ l, load csv source (.ok bytes) = .ok l) ↔ ∀ row ∈ rows, row.1 < n ∧ row.2 < n) := by
  refine ⟨fun lawful _ _ => exists_load_write lawful, fun source content l loaded => ?_,
    fun _ _ _ _ => exists_load_iff⟩
  obtain ⟨bytes, rows, read, parsed, made⟩ := load_eq_ok_iff.1 loaded
  have own : l.rows = rows := by
    obtain ⟨-, -, rfl⟩ := ofRows_eq_ok_iff.1 made
    rfl
  have inside := inside_of_load loaded
  refine ⟨⟨bytes, read, own ▸ parsed⟩, inside, fun room => ?_, inside.graph_eq_none⟩
  obtain ⟨g, built, -, count, byId⟩ := exists_graph inside room
  exact ⟨g, built, count, byId⟩

/-- Edges that were written, and a file with blanks, another column and two requests. -/
theorem load_round_trip_columns :
    (∃ l, load .standard writtenSource (.ok (write .standard [3, 0, 3] [0, 3, 3])) = .ok l ∧
      l.sources = [3, 0, 3] ∧ l.targets = [0, 3, 3] ∧ l.vertexCount = 4) ∧
    (∃ l g, load .standard ⟨"from", "to", some 4⟩
        (.ok (Wire.text "w,TO, from\n7,2,3\n\n,3,+1\n")) = .ok l ∧
      l.graph = some (.ok g) ∧ g.edgesById = [⟨3, 2, 0⟩, ⟨1, 3, 1⟩]) ∧
    ¬∃ l, load .standard ⟨"from", "to", some 3⟩
        (.ok (Wire.text "w,TO, from\n7,2,3\n\n,3,+1\n")) = .ok l := by
  obtain ⟨written, loaded, accepted⟩ := load_round_trip .standard
  have rows : rowsIn .standard ⟨"from", "to", none⟩
      (Wire.text "w,TO, from\n7,2,3\n\n,3,+1\n") = .ok [(3, 2), (1, 3)] := by decide
  refine ⟨written Csv.Codec.standard_lawful _ _ rfl (by decide), ?_, ?_⟩
  · obtain ⟨l, here⟩ := (accepted ⟨"from", "to", some 4⟩ _ _ 4 (by decide) rows rfl).2 (by decide)
    obtain ⟨⟨bytes, ⟨⟩, own⟩, -, build, -⟩ := loaded _ _ _ here
    obtain own : [(3, 2), (1, 3)] = l.rows := Except.ok.inj (rows.symm.trans own)
    have count : l.vertexCount = 4 := by
      obtain ⟨_, _, -, -, made⟩ := load_eq_ok_iff.1 here
      obtain ⟨-, -, rfl⟩ := ofRows_eq_ok_iff.1 made
      rfl
    obtain ⟨g, made, -, byId⟩ := build (by rw [count]; decide)
    rw [← own] at byId
    exact ⟨l, g, here, made, byId⟩
  · rw [accepted ⟨"from", "to", some 3⟩ _ _ 3 (by decide) rows rfl]
    decide

/-- The largest id of all that leave room for a number of vertices: its list is loaded, but there are
as many vertices as there can be, so that one more counter is too many. -/
theorem loaded_without_graph :
    load .standard writtenSource (.ok (Wire.text "src,dst\n0,18446744073709551614\n")) =
        .ok ⟨18446744073709551615, [(0, 18446744073709551614)]⟩ ∧
      graph ⟨18446744073709551615, [(0, 18446744073709551614)]⟩ = none := by
  decide

end EdgeList

end GraphRelay
