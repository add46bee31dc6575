import GraphRelay.Link.Frame
import GraphRelay.Proofs.Wire.Words
import GraphRelay.Tensor

/-!
# What the bytes of a stream carry

Frames are found in the bytes of a stream alone: how the bytes come in reads makes no difference. What a
stream carries is described without reading it, and reading finds just that.
-/
namespace GraphRelay.Frame

variable {limit room : Nat} {reads : Reads} {payload bytes : Bytes}

/-- No read of a stream is empty before its end. -/
def Proper (reads : Reads) : Prop := ∀ chunk ∈ reads, chunk ≠ []

theorem Proper.eq_nil (proper : Proper reads) (empty : reads.flatten = []) : reads = [] := by
  cases reads with
  | nil => rfl
  | cons chunk rest =>
    have nonempty := proper chunk (by simp)
    simp_all

theorem read_eq (proper : Proper reads) (wanted : 0 < room) :
    (read room reads).1 ++ (read room reads).2.flatten = reads.flatten ∧
      (read room reads).1.length ≤ room ∧ Proper (read room reads).2 ∧
      ((read room reads).1 = [] → reads = []) := by
  cases reads with
  | nil => simp [read, Proper]
  | cons chunk rest =>
    have nonempty := proper chunk (by simp)
    have later : Proper rest := fun c member => proper c (by simp [member])
    rw [read]
    split
    · next short => exact ⟨rfl, short, later, fun empty => absurd empty nonempty⟩
    · next long =>
      have taken : (chunk.take room).length = room := by
        rw [List.length_take]
        omega
      refine ⟨?_, Nat.le_of_eq taken, ?_, fun empty => ?_⟩
      · rw [List.flatten_cons, ← List.append_assoc, List.take_append_drop, List.flatten_cons]
      · rintro c (_ | ⟨_, member⟩)
        · intro empty
          have all := List.drop_eq_nil_iff.1 empty
          omega
        · exact later c member
      · change chunk.take room = [] at empty
        rw [empty, List.length_nil] at taken
        omega

/-- What comes are the first bytes wanted, or all bytes if there are not so many. -/
theorem fill_eq (wanted : Nat) (proper : Proper reads) :
    (fill wanted reads).1 = reads.flatten.take wanted ∧
      (fill wanted reads).2.flatten = reads.flatten.drop wanted ∧ Proper (fill wanted reads).2 := by
  fun_induction fill wanted reads with
  | case1 reads => simpa using proper
  | case2 wanted reads pos rest got =>
    obtain ⟨-, -, -, empty⟩ := read_eq proper (Nat.pos_of_ne_zero pos)
    obtain rfl := empty (by rw [got])
    obtain rfl : rest = [] := by simpa [read] using got.symm
    simpa using proper
  | case3 wanted reads pos b bs rest got more left filled ih =>
    obtain ⟨whole, short, later, -⟩ := read_eq proper (Nat.pos_of_ne_zero pos)
    rw [got] at whole short later
    obtain ⟨taken, dropped, kept⟩ := ih later
    rw [filled] at taken dropped kept
    have length : (b :: bs).length = bs.length + 1 := rfl
    rw [← whole]
    refine ⟨?_, ?_, kept⟩
    · rw [List.take_append, List.take_of_length_le short, length, ← taken]
    · rw [List.drop_append, List.drop_eq_nil_of_le short, length, ← dropped, List.nil_append]

theorem unword_count {n : Nat} (small : n < addressable) : Wire.unword (Wire.count n) = n :=
  Wire.unword_word_of_lt small

/-- The length that eight bytes stand for. -/
theorem exists_count {header : Bytes} (h : header.length = 8) :
    ∃ n, n < addressable ∧ header = Wire.count n := by
  refine ⟨Wire.unword header, ?_, ?_⟩
  · have bound := Wire.unword_lt header
    rwa [h] at bound
  · rw [Wire.count, ← h, Wire.word_unword]

def cutHeader : Fault := .system "recv" "unexpected end of file"

def cutPayload : Fault := .system "recv" "failed to fill whole buffer"

/-- The frames at the front of some bytes, and why no frame comes after them unless the bytes end
there. -/
inductive Carries (limit : Nat) : Bytes → List Bytes → Option Fault → Prop where
  | ended : Carries limit [] [] none
  | frame {payload bytes : Bytes} {frames : List Bytes} {failure : Option Fault} :
      payload.length ≤ limit → payload.length < addressable → Carries limit bytes frames failure →
      Carries limit (encode payload ++ bytes) (payload :: frames) failure
  | cutHeader {bytes : Bytes} : bytes ≠ [] → bytes.length < 8 →
      Carries limit bytes [] (some Frame.cutHeader)
  | oversized {n : Nat} {bytes : Bytes} : limit < n → n < addressable →
      Carries limit (Wire.count n ++ bytes) [] (some (.frameOversized n limit))
  | cutPayload {n : Nat} {bytes : Bytes} : n ≤ limit → n < addressable → bytes.length < n →
      Carries limit (Wire.count n ++ bytes) [] (some Frame.cutPayload)

variable {frames : List Bytes} {failure : Option Fault}

theorem exists_carries (limit : Nat) (bytes : Bytes) :
    ∃ frames failure, Carries limit bytes frames failure := by
  induction size : bytes.length using Nat.strongRecOn generalizing bytes with
  | _ size ih =>
    by_cases empty : bytes = []
    · exact ⟨[], none, empty ▸ .ended⟩
    by_cases cut : bytes.length < 8
    · exact ⟨[], _, .cutHeader empty cut⟩
    have whole : (bytes.take 8).length = 8 := by
      rw [List.length_take]
      omega
    obtain ⟨n, small, header⟩ := exists_count whole
    have split : bytes = Wire.count n ++ bytes.drop 8 := by rw [← header, List.take_append_drop]
    rw [split]
    by_cases long : limit < n
    · exact ⟨[], _, .oversized long small⟩
    have fits : n ≤ limit := Nat.le_of_not_lt long
    by_cases cut : (bytes.drop 8).length < n
    · exact ⟨[], _, .cutPayload fits small cut⟩
    have length : ((bytes.drop 8).take n).length = n := by
      rw [List.length_take]
      omega
    obtain ⟨frames, failure, later⟩ := ih ((bytes.drop 8).drop n).length
      (by simp only [List.length_drop]; omega) _ rfl
    have short : ((bytes.drop 8).take n).length ≤ limit := by omega
    have addressed : ((bytes.drop 8).take n).length < addressable := by omega
    have first := Carries.frame short addressed later
    rw [encode, length, List.append_assoc, List.take_append_drop] at first
    exact ⟨_, failure, first⟩

/-- Bytes end where a frame could begin exactly if they are nothing but frames. -/
theorem Carries.eq_encodeAll (h : Carries limit bytes frames none) : bytes = encodeAll frames := by
  generalize whole : none = failure at h
  induction h with
  | ended => rfl
  | frame _ _ _ ih => rw [ih whole, encodeAll, encodeAll, List.flatMap_cons]
  | cutHeader | oversized | cutPayload => cases whole

theorem Carries.admissible (h : Carries limit bytes frames failure) :
    ∀ payload ∈ frames, payload.length ≤ limit ∧ payload.length < addressable := by
  induction h with
  | frame fits small _ ih => exact List.forall_mem_cons.2 ⟨⟨fits, small⟩, ih⟩
  | ended | cutHeader | oversized | cutPayload => nofun

theorem Carries.length_le (h : Carries limit bytes frames failure) :
    8 * frames.length ≤ bytes.length := by
  induction h with
  | frame _ _ _ ih =>
    rw [encode, List.length_append, List.length_append, Wire.length_count, List.length_cons]
    omega
  | ended | cutHeader | oversized | cutPayload => exact Nat.zero_le _

/-- No failure of a stream is one of the queue behind it. -/
theorem Carries.failure_ne (h : Carries limit bytes frames failure) (n capacity : Nat) :
    failure ≠ some (.oversized n capacity) := by
  induction h with
  | frame _ _ _ ih => exact ih
  | ended | cutHeader | oversized | cutPayload => nofun

/-- Why a stream of these payloads fails, if it does: because of the first that is too long. -/
def overrun (limit : Nat) (payloads : List Bytes) : Option Fault :=
  (payloads.find? (limit < ·.length)).map fun payload => .frameOversized payload.length limit

/-- A stream of payloads carries them up to the first that is too long. -/
theorem carries_encodeAll {payloads : List Bytes}
    (small : ∀ payload ∈ payloads, payload.length < addressable) :
    Carries limit (encodeAll payloads) (payloads.takeWhile (·.length ≤ limit))
      (overrun limit payloads) := by
  induction payloads with
  | nil => exact .ended
  | cons payload payloads ih =>
    obtain ⟨here, later⟩ := List.forall_mem_cons.1 small
    rw [encodeAll, List.flatMap_cons, List.takeWhile_cons, overrun, List.find?_cons]
    by_cases fits : payload.length ≤ limit
    · simp only [fits, decide_true, Nat.not_lt.2 fits, decide_false, if_true]
      exact .frame fits here (ih later)
    · have long : limit < payload.length := Nat.lt_of_not_le fits
      simp only [fits, decide_false, long, decide_true, Bool.false_eq_true, if_false]
      rw [encode, List.append_assoc]
      exact .oversized long here

/-- A stream of payloads none of which is too long carries them all. -/
theorem carries_of_fit {payloads : List Bytes}
    (fit : ∀ payload ∈ payloads, payload.length ≤ limit ∧ payload.length < addressable) :
    Carries limit (encodeAll payloads) payloads none := by
  induction payloads with
  | nil => exact .ended
  | cons payload payloads ih =>
    obtain ⟨here, later⟩ := List.forall_mem_cons.1 fit
    exact .frame here.1 here.2 (ih later)

theorem next_eq (proper : Proper reads) {n : Nat} (small : n < addressable)
    (split : reads.flatten = Wire.count n ++ bytes) : next limit reads =
      if limit < n then .failed (.frameOversized n limit)
      else if bytes.length < n then .failed cutPayload
      else .frame (bytes.take n) (fill n (fill 8 reads).2).2 := by
  obtain ⟨header, left, proper⟩ := fill_eq 8 proper
  have length : (Wire.count n).length = 8 := Wire.length_count n
  rw [split, List.take_left' length] at header
  rw [split, List.drop_left' length] at left
  obtain ⟨payload, -, -⟩ := fill_eq n proper
  rw [left] at payload
  have nonempty : (Wire.count n).isEmpty = false := by
    rw [List.isEmpty_eq_false_iff_exists_mem]
    exact List.exists_mem_of_length_pos (by omega)
  have short : (bytes.take n).length < n ↔ bytes.length < n := by
    rw [List.length_take]
    omega
  unfold next
  simp only [header, nonempty, length, unword_count small, payload, short, Nat.lt_irrefl, if_false,
    Bool.false_eq_true, cutPayload]

theorem Carries.next_frame (h : Carries limit reads.flatten (payload :: frames) failure)
    (proper : Proper reads) : ∃ rest, next limit reads = .frame payload rest ∧ Proper rest ∧
      rest.flatten.length + 8 ≤ reads.flatten.length ∧
      Carries limit rest.flatten frames failure := by
  generalize whole : reads.flatten = bytes at h ⊢
  cases h with
  | @frame _ bytes _ _ fits small later =>
    have split : reads.flatten = Wire.count payload.length ++ (payload ++ bytes) := by
      rw [whole, encode, List.append_assoc]
    obtain ⟨-, left, kept⟩ := fill_eq 8 proper
    obtain ⟨-, left', kept'⟩ := fill_eq payload.length kept
    have rest : (fill payload.length (fill 8 reads).2).2.flatten = bytes := by
      rw [left', left, split, List.drop_left' (Wire.length_count _), List.drop_left]
    refine ⟨_, ?_, kept', ?_, rest ▸ later⟩
    · rw [next_eq proper small split, if_neg (Nat.not_lt.2 fits), if_neg (by simp), List.take_left]
    · rw [rest, encode, List.length_append, List.length_append, Wire.length_count]
      omega

/-- What a reader finds where no frame is left. -/
def ending : Option Fault → Next
  | none => .ended
  | some f => .failed f

theorem Carries.next_ending (h : Carries limit reads.flatten [] failure) (proper : Proper reads) :
    next limit reads = ending failure := by
  generalize whole : reads.flatten = bytes at h
  cases h with
  | ended =>
    obtain rfl := proper.eq_nil whole
    simp [Frame.next, fill, read, ending]
  | cutHeader nonempty short =>
    obtain ⟨header, -, -⟩ := fill_eq 8 proper
    rw [whole, List.take_of_length_le (Nat.le_of_lt short)] at header
    simp only [Frame.next, header, List.isEmpty_iff, nonempty, short, if_false, if_true,
      Frame.cutHeader, ending]
  | oversized long small => exact (next_eq proper small whole).trans (if_pos long)
  | cutPayload fits small cut =>
    refine (next_eq proper small whole).trans ?_
    rw [if_neg (Nat.not_lt.2 fits), if_pos cut, ending]

theorem Carries.nextMany {n : Nat} (h : Carries limit reads.flatten frames failure)
    (proper : Proper reads) (enough : frames.length ≤ n) :
    nextMany limit n reads = (frames, ending failure) := by
  induction n generalizing reads frames with
  | zero =>
    obtain rfl := List.eq_nil_of_length_eq_zero (Nat.le_zero.1 enough)
    rw [Frame.nextMany, h.next_ending proper]
  | succ n ih =>
    unfold Frame.nextMany
    cases frames with
    | nil =>
      rw [h.next_ending proper]
      cases failure <;> rfl
    | cons payload frames =>
      obtain ⟨rest, found, kept, -, later⟩ := h.next_frame proper
      rw [found]
      simp only [ih later kept (Nat.le_of_succ_le_succ enough)]

theorem Carries.readAll (h : Carries limit reads.flatten frames failure) (proper : Proper reads) :
    readAll limit reads = (frames, failure) := by
  have few := h.length_le
  rw [Frame.readAll, h.nextMany proper (by omega)]
  cases failure <;> rfl

/-- Bytes carry one thing only. -/
theorem Carries.unique {frames' : List Bytes} {failure' : Option Fault}
    (h : Carries limit reads.flatten frames failure) (proper : Proper reads)
    (h' : Carries limit reads.flatten frames' failure') : frames' = frames ∧ failure' = failure :=
  Prod.mk.inj ((h'.readAll proper).symm.trans (h.readAll proper))

end GraphRelay.Frame
