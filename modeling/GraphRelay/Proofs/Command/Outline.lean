import GraphRelay.Command.Outline
import GraphRelay.Proofs.Numerals

/-!
# What a structured report shows

Two outlines with proper numbers that are rendered alike are the same outline. No reader is needed to
say so: each piece of a rendering settles where it ends, whatever follows it.
-/
namespace GraphRelay.Outline
open Text

variable {α : Type} {p : Char → Bool} {f : α → List Char} {a b : α} {as bs : List α}
  {rest rest' sep : List Char} {s s' left right : String} {d : Char} {depth : Nat} {o o' : Outline}

/-- Before anything that stops at `p`, the texts of `a` and `b` differ unless `a` and `b` agree. -/
def Tells (p : Char → Bool) (f : α → List Char) (a b : α) : Prop :=
  ∀ ⦃rest rest'⦄, Stops p rest → Stops p rest' → f a ++ rest = f b ++ rest' → a = b ∧ rest = rest'

/-- Items behind commas, up to a character that ends them. -/
theorem flatMap_comma_inj (told : ∀ a ∈ as, ∀ b ∈ bs, Tells p f a b) (comma : p ',' = false)
    (stop : p d = false) (ending : d ≠ ',')
    (same : (as.flatMap fun a => ',' :: sep ++ f a) ++ d :: rest =
      (bs.flatMap fun b => ',' :: sep ++ f b) ++ d :: rest') :
    as = bs ∧ rest = rest' := by
  have stops (cs : List α) (r : List Char) :
      Stops p ((cs.flatMap fun a => ',' :: sep ++ f a) ++ d :: r) := by
    cases cs with
    | nil => exact stops_cons.2 stop
    | cons c cs => exact stops_cons.2 comma
  induction as generalizing bs with
  | nil =>
    cases bs with
    | nil => simpa using same
    | cons b bs => exact absurd (List.cons.inj same).1 ending
  | cons a as ih =>
    cases bs with
    | nil => exact absurd (List.cons.inj same).1.symm ending
    | cons b bs =>
      simp only [List.flatMap_cons, List.cons_append, List.append_assoc, List.cons.injEq,
        true_and] at same
      obtain ⟨rfl, more⟩ := told a List.mem_cons_self b List.mem_cons_self (stops as rest)
        (stops bs rest') (List.append_cancel_left same)
      obtain ⟨rfl, behind⟩ := ih (fun a ha b hb =>
        told a (List.mem_cons_of_mem _ ha) b (List.mem_cons_of_mem _ hb)) more
      exact ⟨rfl, behind⟩

theorem append_intercalate (sep l : List Char) (ls : List (List Char)) :
    sep ++ sep.intercalate (l :: ls) = (l :: ls).flatMap (sep ++ ·) := by
  induction ls generalizing l with
  | nil => simp
  | cons m ls ih => rw [List.intercalate_cons_cons, List.flatMap_cons, ← ih]; simp

/-- Items with commas between them, up to a character that ends them. -/
theorem intercalate_inj (told : ∀ x ∈ a :: as, ∀ y ∈ b :: bs, Tells p f x y)
    (comma : p ',' = false) (stop : p d = false) (ending : d ≠ ',')
    (same : (',' :: sep).intercalate ((a :: as).map f) ++ d :: rest =
      (',' :: sep).intercalate ((b :: bs).map f) ++ d :: rest') :
    a :: as = b :: bs ∧ rest = rest' := by
  have behind (c : α) (cs : List α) (r : List Char) :
      ((c :: cs).flatMap fun a => ',' :: sep ++ f a) ++ d :: r =
        ',' :: sep ++ ((',' :: sep).intercalate ((c :: cs).map f) ++ d :: r) := by
    rw [← List.append_assoc, List.map_cons, append_intercalate, ← List.map_cons, List.flatMap_map]
  have both : ((a :: as).flatMap fun a => ',' :: sep ++ f a) ++ d :: rest =
      ((b :: bs).flatMap fun b => ',' :: sep ++ f b) ++ d :: rest' := by
    rw [behind, behind, same]
  exact flatMap_comma_inj told comma stop ending both

/-- The character that an escape or a bare character stands for, and what follows; a quote ends the
text. -/
def unescape : List Char → Option (Char × List Char)
  | '\\' :: 'u' :: _ :: _ :: high :: low :: rest =>
    (Decimal.digits? 16 [high, low]).map fun n => (Char.ofNat n, rest)
  | '\\' :: c :: rest =>
    let meant :=
      match c with
      | 'n' => '\n'
      | 'r' => '\r'
      | 't' => '\t'
      | 'b' => '\x08'
      | 'f' => '\x0c'
      | c => c
    some (meant, rest)
  | '"' :: _ => none
  | c :: rest => some (c, rest)
  | [] => none

theorem digits?_hexDigits :
    ∀ n < 32, Decimal.digits? 16 (hexDigits n) = some n := by decide

theorem unescape_escape (c : Char) (rest : List Char) :
    unescape (escape c ++ rest) = some (c, rest) := by
  unfold escape
  split
  · next quote => subst quote; rfl
  split
  · next backslash => subst backslash; rfl
  split
  · next newline => subst newline; rfl
  split
  · next ret => subst ret; rfl
  split
  · next tab => subst tab; rfl
  split
  · next backspace => subst backspace; rfl
  split
  · next feed => subst feed; rfl
  split
  · next control =>
    have low : c.toNat < 32 := control
    have read := digits?_hexDigits c.toNat low
    simp only [hexDigits] at read ⊢
    simp [unescape, read]
  · next quote backslash _ _ _ _ _ _ =>
    simp [unescape, backslash]

theorem flatMap_escape_inj {cs cs' : List Char}
    (same : cs.flatMap escape ++ '"' :: rest = cs'.flatMap escape ++ '"' :: rest') :
    cs = cs' ∧ rest = rest' := by
  have closed (r : List Char) : unescape ('"' :: r) = none := rfl
  have opened (c : Char) (cs r : List Char) :
      unescape ((c :: cs).flatMap escape ++ '"' :: r) = some (c, cs.flatMap escape ++ '"' :: r) := by
    rw [List.flatMap_cons, List.append_assoc, unescape_escape]
  have read := congrArg unescape same
  induction cs generalizing cs' with
  | nil =>
    cases cs' with
    | nil => simpa using same
    | cons c cs' =>
      rw [opened] at read
      exact absurd read nofun
  | cons c cs ih =>
    cases cs' with
    | nil =>
      rw [opened] at read
      exact absurd read nofun
    | cons c' cs' =>
      rw [opened, opened, Option.some.injEq, Prod.mk.injEq] at read
      obtain ⟨rfl, more⟩ := read
      obtain ⟨rfl, behind⟩ := ih more (congrArg unescape more)
      exact ⟨rfl, behind⟩

theorem quoted_append_inj (same : (quoted s).toList ++ rest = (quoted s').toList ++ rest') :
    s = s' ∧ rest = rest' := by
  simp only [quoted, String.toList_append, String.toList_ofList, List.append_assoc] at same
  obtain ⟨texts, behind⟩ := flatMap_escape_inj (List.append_cancel_left same)
  exact ⟨String.toList_inj.1 texts, behind⟩

theorem Tells.behind (told : Tells p f a b) (front : List Char) :
    Tells p (fun a => front ++ f a) a b := by
  intro rest rest' stops stops' same
  simp only [List.append_assoc] at same
  exact told stops stops' (List.append_cancel_left same)

section

variable {line : α → String} {close : Char} {more : List Char}

theorem block_nil (closes : right.toList = close :: more) :
    (block left right depth (([] : List α).map line)).toList ++ rest =
      left.toList ++ close :: (more ++ rest) := by
  simp [block, closes]

theorem block_cons :
    (block left right depth ((a :: as).map line)).toList ++ rest =
      left.toList ++ '\n' :: ([',', '\n'].intercalate
        ((a :: as).map fun a => (indent (depth + 1)).toList ++ (line a).toList) ++
          '\n' :: ((indent depth).toList ++ (right.toList ++ rest))) := by
  have nonempty : (((a :: as).map line).isEmpty = true) = False := by simp
  have lineEnd : "\n".toList = ['\n'] := rfl
  have separator : ",\n".toList = [',', '\n'] := rfl
  simp only [block, nonempty, if_false, String.toList_append, String.toList_intercalate, lineEnd,
    separator, List.map_map, Function.comp_def, List.append_assoc, List.cons_append, List.nil_append]

/-- The lines between brackets are settled by the text, and so is what follows the brackets. -/
theorem block_inj (told : ∀ a ∈ as, ∀ b ∈ bs, Tells isNumeral (fun a => (line a).toList) a b)
    (closes : right.toList = close :: more) (other : close ≠ '\n')
    (same : (block left right depth (as.map line)).toList ++ rest =
      (block left right depth (bs.map line)).toList ++ rest') :
    as = bs ∧ rest = rest' := by
  cases as with
  | nil =>
    cases bs with
    | nil => exact ⟨rfl, List.append_cancel_left same⟩
    | cons b bs =>
      rw [block_nil closes, block_cons] at same
      exact absurd (List.cons.inj (List.append_cancel_left same)).1 other
  | cons a as =>
    cases bs with
    | nil =>
      rw [block_nil closes, block_cons] at same
      exact absurd (List.cons.inj (List.append_cancel_left same)).1.symm other
    | cons b bs =>
      rw [block_cons, block_cons] at same
      obtain ⟨items, ended⟩ := intercalate_inj
        (fun x hx y hy => (told x hx y hy).behind (indent (depth + 1)).toList) rfl rfl (by decide)
        (List.cons.inj (List.append_cancel_left same)).2
      exact ⟨items, List.append_cancel_left (List.append_cancel_left ended)⟩

end

theorem renderItems_eq (items : List Outline) : renderItems depth items = items.map (render depth) := by
  induction items with
  | nil => rfl
  | cons item items ih => rw [renderItems, ih, List.map_cons]

/-- The line of a member. -/
def member (depth : Nat) (m : String × Outline) : String := quoted m.1 ++ ": " ++ m.2.render depth

theorem renderMembers_eq (ms : List (String × Outline)) :
    renderMembers depth ms = ms.map (member depth) := by
  induction ms with
  | nil => rfl
  | cons m ms ih => rw [renderMembers, ih, List.map_cons, member]

/-- All numbers in an outline have digits that can stand for a number. -/
inductive Plain : Outline → Prop
  | null : Plain null
  | truth (b : Bool) : Plain (truth b)
  | number {digits : String} (numeral : Numeral digits) : Plain (number digits)
  | text (s : String) : Plain (text s)
  | list {items : List Outline} (plain : ∀ item ∈ items, Plain item) : Plain (list items)
  | members {ms : List (String × Outline)} (plain : ∀ m ∈ ms, Plain m.2) : Plain (members ms)

theorem Plain.nat (n : Nat) : Plain (nat n) := .number (.toString_nat n)

theorem Plain.int (i : Int) : Plain (int i) := .number (.toString_int i)

@[simp] theorem nat_inj {m n : Nat} : nat m = nat n ↔ m = n := by
  rw [nat, nat, number.injEq, toString_nat_inj]

@[simp] theorem int_inj {i j : Int} : int i = int j ↔ i = j := by
  rw [int, int, number.injEq, toString_int_inj]

theorem Tells.member {m m' : String × Outline}
    (told : Tells p (fun o => (render depth o).toList) m.2 m'.2) :
    Tells p (fun m => (member depth m).toList) m m' := by
  intro rest rest' stops stops' same
  simp only [Outline.member, String.toList_append, List.append_assoc] at same
  obtain ⟨name, colon⟩ := quoted_append_inj same
  obtain ⟨item, behind⟩ := told stops stops' (List.append_cancel_left colon)
  exact ⟨Prod.ext name item, behind⟩

/-- What tells the sort of an outline in its rendering. -/
def mark : Outline → Char
  | null => 'n'
  | truth _ => 't'
  | number _ => '0'
  | text _ => '"'
  | list _ => '['
  | members _ => '\x7b'

/-- The sort of an outline from the first character of its rendering. -/
def markOf (c : Char) : Char := if isNumeral c then '0' else if c = 'f' then 't' else c

theorem head?_block {c : Char} {lines : List String} (opens : left.toList = [c]) :
    (block left right depth lines).toList.head? = some c := by
  rw [block]
  split <;> simp [opens]

theorem Plain.begins (h : Plain o) (depth : Nat) :
    ∃ c, (o.render depth).toList.head? = some c ∧ markOf c = o.mark := by
  cases h with
  | null => exact ⟨'n', by simp [render], rfl⟩
  | truth b =>
    cases b with
    | false => exact ⟨'f', head?_toString_bool _, rfl⟩
    | true => exact ⟨'t', head?_toString_bool _, rfl⟩
  | @number digits numeral =>
    obtain ⟨c, cs, same⟩ := List.exists_cons_of_ne_nil numeral.nonempty
    have first : isNumeral c = true := numeral.chars c (same ▸ List.mem_cons_self)
    exact ⟨c, by rw [render, same, List.head?_cons], by rw [markOf, if_pos first, mark]⟩
  | text s => exact ⟨'"', by simp [render, quoted], rfl⟩
  | list _ => exact ⟨'[', by rw [render, head?_block]; rfl, rfl⟩
  | members _ => exact ⟨'\x7b', by rw [render, head?_block]; rfl, rfl⟩

theorem Plain.mark_eq (h : Plain o) (h' : Plain o')
    (same : (o.render depth).toList ++ rest = (o'.render depth).toList ++ rest') :
    o.mark = o'.mark := by
  obtain ⟨c, front, mark⟩ := h.begins depth
  obtain ⟨c', front', mark'⟩ := h'.begins depth
  have heads := congrArg List.head? same
  rw [List.head?_append, List.head?_append, front, front'] at heads
  obtain rfl : c = c' := by simpa using heads
  rw [← mark, ← mark']

/-- What an outline with proper numbers is and where its rendering ends is settled by the text, if no
part of a number follows. -/
theorem Plain.tells (h : Plain o) (h' : Plain o') (depth : Nat) :
    Tells isNumeral (fun o => (render depth o).toList) o o' := by
  induction h generalizing o' depth with
  | null =>
    intro rest rest' stops stops' same
    have marks := Plain.null.mark_eq h' same
    cases h' with
    | null => exact ⟨rfl, List.append_cancel_left same⟩
    | _ => exact absurd marks (by simp [mark])
  | truth b =>
    intro rest rest' stops stops' same
    have marks := (Plain.truth b).mark_eq h' same
    cases h' with
    | truth b' =>
      obtain ⟨rfl, behind⟩ := toString_bool_append_inj same
      exact ⟨rfl, behind⟩
    | _ => exact absurd marks (by simp [mark])
  | number numeral =>
    intro rest rest' stops stops' same
    have marks := (Plain.number numeral).mark_eq h' same
    cases h' with
    | number numeral' =>
      obtain ⟨rfl, behind⟩ := numeral.append_inj numeral' stops stops' same
      exact ⟨rfl, behind⟩
    | _ => exact absurd marks (by simp [mark])
  | text s =>
    intro rest rest' stops stops' same
    have marks := (Plain.text s).mark_eq h' same
    cases h' with
    | text s' =>
      obtain ⟨rfl, behind⟩ := quoted_append_inj same
      exact ⟨rfl, behind⟩
    | _ => exact absurd marks (by simp [mark])
  | list plain ih =>
    intro rest rest' stops stops' same
    have marks := (Plain.list plain).mark_eq h' same
    cases h' with
    | list plain' =>
      simp only [render, renderItems_eq] at same
      obtain ⟨rfl, behind⟩ := block_inj
        (fun item hi item' hi' => ih item hi (plain' item' hi') (depth + 1)) rfl (by decide) same
      exact ⟨rfl, behind⟩
    | _ => exact absurd marks (by simp [mark])
  | members plain ih =>
    intro rest rest' stops stops' same
    have marks := (Plain.members plain).mark_eq h' same
    cases h' with
    | members plain' =>
      simp only [render, renderMembers_eq] at same
      obtain ⟨rfl, behind⟩ := block_inj
        (fun m hm m' hm' => (ih m hm (plain' m' hm') (depth + 1)).member) rfl (by decide) same
      exact ⟨rfl, behind⟩
    | _ => exact absurd marks (by simp [mark])

/-- Outlines with proper numbers that are rendered alike are the same. -/
theorem render_inj (h : Plain o) (h' : Plain o') :
    o.render depth = o'.render depth ↔ o = o' := by
  refine ⟨fun same => ?_, fun same => same ▸ rfl⟩
  exact (h.tells h' depth stops_nil stops_nil (congrArg (·.toList ++ []) same)).1

end GraphRelay.Outline
