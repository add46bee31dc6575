import GraphRelay.Link.Endpoint
import GraphRelay.Proofs.Decimal
import GraphRelay.Proofs.Traversal
import Mathlib.Data.List.DropRight

/-!
# Endpoints as they are written

Which texts name an endpoint, and which one. However an endpoint was written, it is read back from the
text in which it is shown.
-/
namespace GraphRelay.Endpoint

variable {c : Char} {cs front back lead rest host core : List Char} {text : String} {e : Endpoint}

theorem afterLead?_eq_some_iff : afterLead? lead cs = some rest ↔ cs = lead ++ rest := by
  rw [afterLead?]
  split
  · next leads =>
    obtain ⟨rest', rfl⟩ := List.isPrefixOf_iff_prefix.1 leads
    simp
  · next other =>
    refine iff_of_false nofun fun same => other ?_
    rw [same, List.isPrefixOf_iff_prefix]
    exact List.prefix_append ..

theorem splitLast?_append (absent : c ∉ back) :
    splitLast? c (front ++ c :: back) = some (front, back) := by
  have different : ∀ b ∈ back.reverse, decide (b ≠ c) = true := by
    rintro b hb
    exact decide_eq_true fun same => absent (same ▸ List.mem_reverse.1 hb)
  have tail : (front ++ c :: back).reverse.takeWhile (· ≠ c) = back.reverse := by
    rw [List.reverse_append, List.reverse_cons, List.append_assoc,
      List.takeWhile_append_of_pos different]
    simp
  have before : (front ++ c :: back).length - back.reverse.length - 1 = front.length := by
    simp only [List.length_append, List.length_cons, List.length_reverse]
    omega
  simp only [splitLast?, tail, before, List.take_left, List.reverse_reverse]
  rw [if_pos (by simp)]

theorem splitLast?_eq_some_iff :
    splitLast? c cs = some (front, back) ↔ cs = front ++ c :: back ∧ c ∉ back := by
  constructor
  · intro split
    have occurs : c ∈ cs := by
      by_contra absent
      simp [splitLast?, absent] at split
    obtain ⟨behind, before, same, absent⟩ := List.eq_append_cons_of_mem (List.mem_reverse.2 occurs)
    have absent : c ∉ behind.reverse := fun hc => absent (List.mem_reverse.1 hc)
    obtain rfl : cs = before.reverse ++ c :: behind.reverse := by
      simpa using congrArg List.reverse same
    rw [splitLast?_append absent, Option.some.injEq, Prod.mk.injEq] at split
    obtain ⟨rfl, rfl⟩ := split
    exact ⟨rfl, absent⟩
  · rintro ⟨rfl, absent⟩
    exact splitLast?_append absent

/-- `core` is what is left of `host` without the opening brackets in front and the closing brackets
behind. -/
structure Bracketed (host core : List Char) : Prop where
  surrounded : ∃ opens closes,
    host = List.replicate opens '[' ++ core ++ List.replicate closes ']'
  head : core.head? ≠ some '['
  last : core.getLast? ≠ some ']'

theorem dropWhile_replicate_append (n : Nat) (head : cs.head? ≠ some c) :
    (List.replicate n c ++ cs).dropWhile (· = c) = cs := by
  rw [List.dropWhile_append_of_pos (by simp)]
  cases cs with
  | nil => rfl
  | cons d cs =>
    have other : d ≠ c := by simpa using head
    simp [other]

theorem Bracketed.strip (h : Bracketed host core) : stripBrackets host = core := by
  obtain ⟨opens, closes, rfl⟩ := h.surrounded
  have front : (core ++ List.replicate closes ']').head? ≠ some '[' := by
    cases core with
    | nil => cases closes <;> simp [List.replicate_succ]
    | cons c core => exact h.head
  have behind : core.reverse.head? ≠ some ']' := by
    rw [List.head?_reverse]
    exact h.last
  rw [stripBrackets, List.append_assoc, dropWhile_replicate_append opens front, List.reverse_append,
    List.reverse_replicate, dropWhile_replicate_append closes behind, List.reverse_reverse]

theorem exists_replicate (c : Char) (cs : List Char) : ∃ n,
    List.replicate n c ++ cs.dropWhile (· = c) = cs ∧ (cs.dropWhile (· = c)).head? ≠ some c := by
  refine ⟨(cs.takeWhile (· = c)).length, ?_, fun starts => ?_⟩
  · have all : ∀ b ∈ cs.takeWhile (· = c), b = c := by
      intro b hb
      simpa using List.mem_takeWhile_imp hb
    rw [← List.eq_replicate_of_mem all, List.takeWhile_append_dropWhile]
  · have stops := List.head?_dropWhile_not (fun b => decide (b = c)) cs
    simp [starts] at stops

theorem bracketed_stripBrackets (host : List Char) : Bracketed host (stripBrackets host) := by
  obtain ⟨opens, front, head⟩ := exists_replicate '[' host
  obtain ⟨closes, back, last⟩ := exists_replicate ']' (host.dropWhile (· = '[')).reverse
  have split : host.dropWhile (· = '[') = stripBrackets host ++ List.replicate closes ']' := by
    rw [stripBrackets, ← List.reverse_inj, List.reverse_append, List.reverse_reverse,
      List.reverse_replicate, back]
  refine ⟨⟨opens, closes, ?_⟩, fun starts => head ?_, ?_⟩
  · rw [List.append_assoc, ← split, front]
  · rw [split, List.head?_append, starts]
    rfl
  · rwa [stripBrackets, List.getLast?_reverse]

theorem stripBrackets_eq_iff : stripBrackets host = core ↔ Bracketed host core :=
  ⟨fun same => same ▸ bracketed_stripBrackets host, Bracketed.strip⟩

/-- Nothing is left of brackets alone. -/
theorem stripBrackets_eq_nil_iff : stripBrackets host = [] ↔
    ∃ opens closes, host = List.replicate opens '[' ++ List.replicate closes ']' := by
  rw [stripBrackets_eq_iff]
  constructor
  · rintro ⟨⟨opens, closes, same⟩, -, -⟩
    exact ⟨opens, closes, by rwa [List.append_nil] at same⟩
  · rintro ⟨opens, closes, same⟩
    exact ⟨⟨opens, closes, by rwa [List.append_nil]⟩, nofun, nofun⟩

/-- What stands before the last colon names the host and what stands behind it is the port. -/
structure Written (host port : String) (e : Endpoint) : Prop where
  port_colon : ':' ∉ port.toList
  port_number : Decimal.Spells port.toList e.port.toNat
  host_core : Bracketed host.toList e.host.toList
  host_nonempty : e.host ≠ ""

/-- An endpoint is named by what comes of each part of the text. -/
theorem parse_eq_ok_iff_parts : parse text = .ok e ↔
    ∃ rest host port n, afterLead? scheme.toList text.toList = some rest ∧
      splitLast? ':' rest = some (host, port) ∧ stripBrackets host ≠ [] ∧
      Decimal.parse? 65536 (String.ofList port) = some n ∧
      ⟨String.ofList (stripBrackets host), .ofNat n⟩ = e := by
  cases led : afterLead? scheme.toList text.toList with
  | none => simp [parse, led]
  | some rest =>
    cases cut : splitLast? ':' rest with
    | none => simp [parse, led, cut]
    | some parts =>
      obtain ⟨host, port⟩ := parts
      by_cases empty : stripBrackets host = []
      · simp [parse, led, cut, empty, bind, Except.bind]
      · cases number : Decimal.parse? 65536 (String.ofList port) with
        | none => simp [parse, led, cut, empty, number]
        | some n => simp [parse, led, cut, empty, number]

theorem parse_eq_ok_iff : parse text = .ok e ↔
    ∃ host port, text = "socket://" ++ host ++ ":" ++ port ∧ Written host port e := by
  rw [parse_eq_ok_iff_parts]
  constructor
  · rintro ⟨rest, host, port, n, led, cut, nonempty, number, rfl⟩
    obtain ⟨rfl, colon⟩ := splitLast?_eq_some_iff.1 cut
    obtain ⟨spelt, small⟩ := Decimal.parse?_eq_some_iff.1 number
    refine ⟨String.ofList host, String.ofList port, ?_, ?_, ?_, ?_, ?_⟩
    · rw [← String.toList_inj, afterLead?_eq_some_iff.1 led]
      simp [scheme]
    · simpa using colon
    · rwa [UInt16.toNat_ofNat_of_lt' small]
    · simpa using bracketed_stripBrackets host
    · simpa using nonempty
  · rintro ⟨host, port, rfl, written⟩
    refine ⟨host.toList ++ ':' :: port.toList, host.toList, port.toList, e.port.toNat, ?_, ?_, ?_, ?_,
      ?_⟩
    · rw [afterLead?_eq_some_iff]
      simp [scheme]
    · exact splitLast?_eq_some_iff.2 ⟨rfl, written.port_colon⟩
    · rw [written.host_core.strip]
      simpa using written.host_nonempty
    · rw [String.ofList_toList]
      exact Decimal.parse?_eq_some_iff.2 ⟨written.port_number, e.port.toNat_lt⟩
    · rw [written.host_core.strip, String.ofList_toList, UInt16.ofNat_toNat]

/-- What makes a text that of some endpoint. -/
theorem exists_parse_iff : (∃ e, parse text = .ok e) ↔
    ∃ host port, text = "socket://" ++ host ++ ":" ++ port ∧ ':' ∉ port.toList ∧
      (∃ n < 65536, Decimal.Spells port.toList n) ∧
      ∀ opens closes, host.toList ≠ List.replicate opens '[' ++ List.replicate closes ']' := by
  constructor
  · rintro ⟨e, parsed⟩
    obtain ⟨host, port, named, written⟩ := parse_eq_ok_iff.1 parsed
    refine ⟨host, port, named, written.port_colon, ⟨_, e.port.toNat_lt, written.port_number⟩, ?_⟩
    intro opens closes brackets
    have nothing := stripBrackets_eq_nil_iff.2 ⟨opens, closes, brackets⟩
    rw [written.host_core.strip] at nothing
    exact written.host_nonempty (by simpa using nothing)
  · rintro ⟨host, port, named, colon, ⟨n, small, spelt⟩, brackets⟩
    refine ⟨⟨String.ofList (stripBrackets host.toList), .ofNat n⟩,
      parse_eq_ok_iff.2 ⟨host, port, named, colon, ?_, ?_, ?_⟩⟩
    · rwa [UInt16.toNat_ofNat_of_lt' small]
    · simpa using bracketed_stripBrackets host.toList
    · intro nothing
      obtain ⟨opens, closes, same⟩ := stripBrackets_eq_nil_iff.1 (by simpa using nothing)
      exact brackets opens closes same

/-- The host as it is shown. -/
def shownHost (e : Endpoint) : String :=
  if e.host.toList.contains ':' then "[" ++ e.host ++ "]" else e.host

theorem text_eq (e : Endpoint) :
    e.text = "socket://" ++ e.shownHost ++ ":" ++ toString e.port.toNat := rfl

theorem Bracketed.shown {host : String} (h : Bracketed host.toList e.host.toList) :
    Bracketed e.shownHost.toList e.host.toList := by
  refine ⟨?_, h.head, h.last⟩
  rw [shownHost]
  split
  · exact ⟨1, 1, by simp⟩
  · exact ⟨0, 0, by simp⟩

theorem Written.shown {host port : String} (h : Written host port e) :
    Written e.shownHost (toString e.port.toNat) e where
  port_colon colon := absurd (Decimal.isDigit_of_mem_toString colon) (by decide)
  port_number := Decimal.spells_toString e.port.toNat
  host_core := h.host_core.shown
  host_nonempty := h.host_nonempty

/-- Exactly the texts that name a host and a port are read, and the endpoint that is read is read
again from the text in which it is shown. -/
theorem parse_canonical (text : String) :
    (∀ e, parse text = .ok e ↔
      ∃ host port, text = "socket://" ++ host ++ ":" ++ port ∧ Written host port e) ∧
    ((∃ e, parse text = .ok e) ↔
      ∃ host port, text = "socket://" ++ host ++ ":" ++ port ∧ ':' ∉ port.toList ∧
        (∃ n < 65536, Decimal.Spells port.toList n) ∧
        ∀ opens closes, host.toList ≠ List.replicate opens '[' ++ List.replicate closes ']') ∧
    ∀ e, parse text = .ok e → parse e.text = .ok e := by
  refine ⟨fun e => parse_eq_ok_iff, exists_parse_iff, fun e parsed => ?_⟩
  obtain ⟨host, port, -, written⟩ := parse_eq_ok_iff.1 parsed
  exact parse_eq_ok_iff.2 ⟨_, _, e.text_eq, written.shown⟩

/-- Too many brackets around a host with colons, and a port with a sign and a leading zero. -/
theorem parse_canonical_brackets :
    parse "socket://[[fe80::1]x]]]:+0443" = .ok ⟨"fe80::1]x", 443⟩ ∧
      parse "socket://[fe80::1]x]:443" = .ok ⟨"fe80::1]x", 443⟩ := by
  have parsed : parse "socket://[[fe80::1]x]]]:+0443" = .ok ⟨"fe80::1]x", 443⟩ := by decide
  exact ⟨parsed, (parse_canonical _).2.2 _ parsed⟩

end GraphRelay.Endpoint
