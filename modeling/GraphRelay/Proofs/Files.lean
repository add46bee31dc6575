import GraphRelay.Files
import GraphRelay.Proofs.Traversal

/-!
# Files that were written

A path of what has some name in a directory ends in that name. Writing a file leaves all directories as
they are, so that the same paths lead to the same places and the same files can be written as before,
and what was written is read wherever nothing else was written since.
-/
namespace GraphRelay

theorem splitSlashes_ne_nil (cs : List Char) : splitSlashes cs ≠ [] := by
  cases cs with
  | nil => exact List.cons_ne_nil _ _
  | cons c cs =>
    rw [splitSlashes]
    split
    · exact List.cons_ne_nil _ _
    · split <;> exact List.cons_ne_nil _ _

theorem splitSlashes_append (cs ds : List Char) :
    splitSlashes (cs ++ '/' :: ds) = splitSlashes cs ++ splitSlashes ds := by
  induction cs with
  | nil => rfl
  | cons c cs ih =>
    rw [List.cons_append, splitSlashes, splitSlashes]
    split
    · rw [ih, List.cons_append]
    · obtain ⟨name, names, split⟩ := List.exists_cons_of_ne_nil (splitSlashes_ne_nil cs)
      rw [ih, split]
      rfl

theorem splitSlashes_of_not_mem {cs : List Char} (h : '/' ∉ cs) : splitSlashes cs = [cs] := by
  induction cs with
  | nil => rfl
  | cons c cs ih =>
    rw [List.mem_cons, not_or] at h
    rw [splitSlashes, if_neg (Ne.symm h.1), ih h.2]

/-- Below a directory only the last name depends on what lies there. -/
theorem exists_pathNames_pathBelow (directory : String) : ∃ above, ∀ name : String,
    '/' ∉ name.toList → pathNames (pathBelow directory name) = above ++ [name] := by
  have slash (cs : List Char) (name : String) (h : '/' ∉ name.toList) :
      (splitSlashes (cs ++ '/' :: name.toList)).map String.ofList =
        (splitSlashes cs).map String.ofList ++ [name] := by
    rw [splitSlashes_append, splitSlashes_of_not_mem h, List.map_append, List.map_singleton,
      String.ofList_toList]
  by_cases ends : directory.toList.getLast? = some '/'
  · obtain ⟨cs, own⟩ := List.getLast?_eq_some_iff.1 ends
    refine ⟨(splitSlashes cs).map String.ofList, fun name h => ?_⟩
    rw [pathNames, pathBelow, if_pos ends, String.toList_append, own, List.append_assoc]
    exact slash cs name h
  · refine ⟨(splitSlashes directory.toList).map String.ofList, fun name h => ?_⟩
    rw [pathNames, pathBelow, if_neg ends, String.toList_append, String.toList_append,
      List.append_assoc]
    exact slash _ name h

namespace FileTree

variable {t t' : FileTree} {path other name : String} {here p q : FilePlace} {content found : Bytes}

theorem isDirectory_iff : t.isDirectory p = true ↔ p <+: t.workingDirectory ∨
    (∃ d ∈ t.directories, p <+: d) ∨ ∃ f ∈ t.files, p <+: f.1 ∧ p.length < f.1.length := by
  simp only [isDirectory, Bool.or_eq_true, List.any_eq_true, Bool.and_eq_true, decide_eq_true_eq,
    List.isPrefixOf_iff_prefix, or_assoc]

theorem isDirectory_of_prefix (le : q <+: p) (h : t.isDirectory p = true) :
    t.isDirectory q = true := by
  rw [isDirectory_iff] at h ⊢
  obtain working | ⟨d, made, le'⟩ | ⟨f, listed, le', short⟩ := h
  · exact .inl (le.trans working)
  · exact .inr (.inl ⟨d, made, le.trans le'⟩)
  · exact .inr (.inr ⟨f, listed, le.trans le', Nat.lt_of_le_of_lt le.length_le short⟩)

/-- What it takes to go on from a place, and how far a name leads. -/
theorem step_eq_ok_iff : t.step here name = .ok q ↔ t.file? here = none ∧ t.isDirectory here = true ∧
    (if name = "" ∨ name = "." then here = q
      else if name = ".." then here.dropLast = q
      else name.utf8ByteSize ≤ longestName ∧ here ++ [name] = q) := by
  rw [step]
  cases t.file? here with
  | some _ => simp
  | none =>
    cases t.isDirectory here with
    | false => simp
    | true =>
      simp only [Option.isSome_none, Bool.false_eq_true, if_false, Bool.not_true, true_and,
        Bool.or_eq_true, decide_eq_true_eq]
      split
      · rw [Except.ok.injEq]
      · split
        · rw [Except.ok.injEq]
        · split
          · next long => exact iff_of_false (by simp) fun h => absurd h.1 (Nat.not_le.2 long)
          · next short => rw [Except.ok.injEq, and_iff_right (Nat.not_lt.1 short)]

/-- Where a name leads that is no directory, it leads into the directory that one came from. -/
theorem isDirectory_dropLast_of_step (led : t.step here name = .ok q) :
    t.isDirectory q.dropLast = true := by
  obtain ⟨-, directory, next⟩ := step_eq_ok_iff.1 led
  split at next
  · exact isDirectory_of_prefix (next ▸ List.dropLast_prefix here) directory
  · split at next
    · exact isDirectory_of_prefix
        (next ▸ (List.dropLast_prefix _).trans (List.dropLast_prefix here)) directory
    · rwa [← next.2, List.dropLast_concat]

theorem resolve_eq_ok_iff : t.resolve path = .ok p ↔ path.isEmpty = false ∧
    path.utf8ByteSize ≤ longestPath ∧ (pathNames path).foldlM t.step (t.start path) = .ok p := by
  rw [resolve, follow]
  split
  · next empty => simp [empty]
  · next filled =>
    split
    · next long => exact iff_of_false (by simp) fun h => absurd h.2.1 (Nat.not_le.2 long)
    · next short => simp [filled, Nat.not_lt.1 short]

theorem isDirectory_dropLast_of_resolve (led : t.resolve path = .ok p) :
    t.isDirectory p.dropLast = true := by
  obtain ⟨-, -, led⟩ := resolve_eq_ok_iff.1 led
  have some : pathNames path ≠ [] := by simp [pathNames, splitSlashes_ne_nil]
  rw [← List.dropLast_append_getLast some, List.foldlM_append] at led
  obtain ⟨here, -, led⟩ := bind_ok_iff.1 led
  rw [List.foldlM_cons] at led
  obtain ⟨next, led, ⟨⟩⟩ := bind_ok_iff.1 led
  exact isDirectory_dropLast_of_step led

theorem lookup_filter_ne {files : List (FilePlace × Bytes)} (p q : FilePlace) :
    (files.filter (·.1 ≠ p)).lookup q = if q = p then none else files.lookup q := by
  induction files with
  | nil => simp
  | cons f files ih =>
    obtain ⟨place, content⟩ := f
    by_cases here : place = p
    · subst here
      rw [List.filter_cons_of_neg (by simp), ih]
      split
      · rfl
      next other => rw [List.lookup_cons, beq_eq_false_iff_ne.2 other]
    · rw [List.filter_cons_of_pos (by simpa using here), List.lookup_cons, ih, List.lookup_cons]
      by_cases found : q = place
      · subst found
        simp [here]
      · rw [beq_eq_false_iff_ne.2 found]

theorem file?_put (t : FileTree) (p q : FilePlace) (content : Bytes) :
    (t.put p content).file? q = if q = p then some content else t.file? q := by
  rw [file?, put, List.lookup_append, lookup_filter_ne]
  by_cases same : q = p
  · subst same
    simp
  · simp [same, List.lookup_cons, file?, beq_eq_false_iff_ne.2 same]

theorem prefix_dropLast (le : q <+: p) (short : q.length < p.length) : q <+: p.dropLast := by
  rw [List.dropLast_eq_take, List.prefix_take_iff]
  exact ⟨le, Nat.le_sub_one_of_lt short⟩

/-- A file in a directory makes nothing a directory that was none. -/
theorem isDirectory_put (directory : t.isDirectory p.dropLast = true) (content : Bytes)
    (q : FilePlace) : (t.put p content).isDirectory q = t.isDirectory q := by
  rw [Bool.eq_iff_iff, isDirectory_iff]
  constructor
  · rintro (working | made | ⟨f, listed, le, short⟩)
    · exact isDirectory_iff.2 (.inl working)
    · exact isDirectory_iff.2 (.inr (.inl made))
    · obtain kept | new := List.mem_append.1 listed
      · exact isDirectory_iff.2 (.inr (.inr ⟨f, List.mem_of_mem_filter kept, le, short⟩))
      · obtain rfl := List.mem_singleton.1 new
        exact isDirectory_of_prefix (prefix_dropLast le short) directory
  · intro h
    obtain working | made | ⟨f, listed, le, short⟩ := isDirectory_iff.1 h
    · exact .inl working
    · exact .inr (.inl made)
    · refine .inr (.inr ?_)
      by_cases here : f.1 = p
      · exact ⟨(p, content), by simp [put], here ▸ le, here ▸ short⟩
      · exact ⟨f, by simp [put, listed, here], le, short⟩

/-- The path leads somewhere, and not to a directory. -/
def Writable (t : FileTree) (path : String) : Prop :=
  ∃ p, t.resolve path = .ok p ∧ t.isDirectory p = false

theorem write_eq_ok_iff : t.write path content = .ok t' ↔
    ∃ p, t.resolve path = .ok p ∧ t.isDirectory p = false ∧ t.put p content = t' := by
  rw [write, bind_ok_iff]
  refine exists_congr fun p => and_congr_right fun _ => ?_
  cases t.isDirectory p <;> simp

theorem writable_iff : t.Writable path ↔ ∃ t', t.write path content = .ok t' := by
  constructor
  · rintro ⟨p, led, free⟩
    exact ⟨_, write_eq_ok_iff.2 ⟨p, led, free, rfl⟩⟩
  · rintro ⟨t', written⟩
    obtain ⟨p, led, free, -⟩ := write_eq_ok_iff.1 written
    exact ⟨p, led, free⟩

section Put

variable (directory : t.isDirectory p.dropLast = true) (free : t.isDirectory p = false)

include directory free

/-- No way leads over a new file, for it takes the place of no directory. -/
theorem step_put_eq_ok_iff : (t.put p content).step here name = .ok q ↔ t.step here name = .ok q := by
  rw [step_eq_ok_iff, step_eq_ok_iff, isDirectory_put directory, file?_put]
  by_cases same : here = p
  · subst same
    simp [free]
  · rw [if_neg same]

theorem resolve_put_eq_ok_iff : (t.put p content).resolve path = .ok q ↔ t.resolve path = .ok q := by
  have along (names : List String) (here : FilePlace) :
      names.foldlM (t.put p content).step here = .ok q ↔ names.foldlM t.step here = .ok q := by
    induction names generalizing here with
    | nil => rfl
    | cons name names ih =>
      rw [List.foldlM_cons, List.foldlM_cons, bind_ok_iff, bind_ok_iff]
      simp only [ih, step_put_eq_ok_iff directory free]
  rw [resolve_eq_ok_iff, resolve_eq_ok_iff]
  exact and_congr_right fun _ => and_congr_right fun _ => along ..

end Put

theorem read_eq_ok_iff :
    t.read path = .ok content ↔ ∃ p, t.resolve path = .ok p ∧ t.file? p = some content := by
  rw [read, bind_ok_iff]
  refine exists_congr fun p => and_congr_right fun _ => ?_
  cases t.file? p <;> simp

/-- What was written is read. -/
theorem read_of_write (written : t.write path content = .ok t') : t'.read path = .ok content := by
  obtain ⟨p, led, free, rfl⟩ := write_eq_ok_iff.1 written
  have directory := isDirectory_dropLast_of_resolve led
  refine read_eq_ok_iff.2 ⟨p, (resolve_put_eq_ok_iff directory free).2 led, ?_⟩
  rw [file?_put, if_pos rfl]

/-- Writing one file leaves the same files to be written. -/
theorem writable_of_write (written : t.write path content = .ok t') (other : String) :
    t'.Writable other ↔ t.Writable other := by
  obtain ⟨p, led, free, rfl⟩ := write_eq_ok_iff.1 written
  have directory := isDirectory_dropLast_of_resolve led
  refine exists_congr fun q => ?_
  rw [resolve_put_eq_ok_iff directory free, isDirectory_put directory]

/-- Wherever they lead, two paths lead apart. -/
def Apart (path other : String) : Prop :=
  ∀ (t : FileTree) (p q : FilePlace), t.resolve path = .ok p → t.resolve other = .ok q → p ≠ q

theorem Apart.symm {path other : String} (h : Apart path other) : Apart other path :=
  fun t p q led led' => (h t q p led' led).symm

/-- A file stays as it is while others are written. -/
theorem read_of_write_apart (written : t.write path content = .ok t') (apart : Apart path other)
    (had : t.read other = .ok found) : t'.read other = .ok found := by
  obtain ⟨p, led, free, rfl⟩ := write_eq_ok_iff.1 written
  obtain ⟨q, led', here⟩ := read_eq_ok_iff.1 had
  have directory := isDirectory_dropLast_of_resolve led
  refine read_eq_ok_iff.2 ⟨q, (resolve_put_eq_ok_iff directory free).2 led', ?_⟩
  rwa [file?_put, if_neg (apart t p q led led').symm]

/-- A name that leads to something in a directory. -/
def IsProper (name : String) : Prop := '/' ∉ name.toList ∧ name ≠ "" ∧ name ≠ "." ∧ name ≠ ".."

theorem getLast?_of_resolve_pathBelow {directory : String} (proper : IsProper name)
    (led : t.resolve (pathBelow directory name) = .ok p) : p.getLast? = some name := by
  obtain ⟨above, names⟩ := exists_pathNames_pathBelow directory
  obtain ⟨-, -, led⟩ := resolve_eq_ok_iff.1 led
  rw [names name proper.1, List.foldlM_append] at led
  obtain ⟨here, -, led⟩ := bind_ok_iff.1 led
  rw [List.foldlM_cons] at led
  obtain ⟨next, led, ⟨⟩⟩ := bind_ok_iff.1 led
  obtain ⟨-, -, last⟩ := step_eq_ok_iff.1 led
  rw [if_neg (by simp [proper.2.1, proper.2.2.1]), if_neg proper.2.2.2] at last
  rw [← last.2, List.getLast?_concat]

/-- Different names lead to different places in a directory. -/
theorem apart_pathBelow {directory first second : String} (proper : IsProper first)
    (proper' : IsProper second) (other : first ≠ second) :
    Apart (pathBelow directory first) (pathBelow directory second) := by
  rintro t p q led led' rfl
  have last := getLast?_of_resolve_pathBelow proper led
  rw [getLast?_of_resolve_pathBelow proper' led', Option.some.injEq] at last
  exact other last.symm

end FileTree

end GraphRelay
