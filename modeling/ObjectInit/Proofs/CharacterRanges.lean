import ObjectInit.Proofs.Characters

/-!
# Bytes and characters of spans

Spans count bytes, and the remarks in a snippet count characters. `Span.charRange` cuts the text two
times, to count the characters before the span and those in it, and adds the two numbers.
`Text.CharsBefore` says how many characters there are before an offset. It relates an offset to one
number at most and keeps the order, so the sum is the number of characters before the end of the
span.

Main results:

* `Text.isBoundary_iff_charsBefore`: the offsets before which there is a number of characters.
* `Text.CharsBefore.le_iff`: offsets have the same order as the numbers of characters before them.
* `Text.CharsBefore.slice?`: the characters between two offsets.
* `Span.charRange_of_delimits`: the characters of a span, and those of the spans in it.
-/

namespace ObjectInit

namespace Text

variable {text : String} {n n' k k' : Nat}

/-! ## Characters before an offset -/

/-- The first `n` bytes of the text are `k` characters. -/
def CharsBefore (text : String) (n k : Nat) : Prop :=
  ∃ front rest, text.toList = front ++ rest ∧ byteLength front = n ∧ front.length = k

theorem isBoundary_iff_charsBefore : IsBoundary text n ↔ ∃ k, CharsBefore text n k := by
  rw [isBoundary_iff]
  constructor
  · rintro ⟨front, rest, eq, length⟩
    exact ⟨front.length, front, rest, eq, length, rfl⟩
  · rintro ⟨_, front, rest, eq, length, -⟩
    exact ⟨front, rest, eq, length⟩

theorem length_le_byteLength (cs : List Char) : cs.length ≤ byteLength cs := by
  induction cs with
  | nil => exact Nat.le_refl 0
  | cons c cs ih =>
    have := c.utf8Size_pos
    rw [List.length_cons, byteLength_cons]
    omega

namespace CharsBefore

theorem zero (text : String) : CharsBefore text 0 0 := ⟨[], text.toList, rfl, rfl, rfl⟩

theorem le_offset (h : CharsBefore text n k) : k ≤ n := by
  obtain ⟨front, rest, -, rfl, rfl⟩ := h
  exact length_le_byteLength front

theorem le_length (h : CharsBefore text n k) : k ≤ text.length := by
  obtain ⟨front, rest, eq, -, rfl⟩ := h
  rw [← String.length_toList, eq, List.length_append]
  exact Nat.le_add_right _ _

/-- One of two parts at the front of a text goes on where the other one ends, so it has more bytes
    and more characters. -/
theorem le_iff (h : CharsBefore text n k) (h' : CharsBefore text n' k') : n ≤ n' ↔ k ≤ k' := by
  obtain ⟨front, rest, eq, rfl, rfl⟩ := h
  obtain ⟨front', rest', eq', rfl, rfl⟩ := h'
  constructor
  · intro le
    obtain ⟨middle, rfl⟩ := exists_middle (eq.symm.trans eq') le
    rw [List.length_append]
    exact Nat.le_add_right _ _
  · intro le
    obtain ⟨middle, rfl⟩ : front <+: front' :=
      List.prefix_of_prefix_length_le ⟨rest, eq.symm⟩ ⟨rest', eq'.symm⟩ le
    rw [byteLength_append]
    exact Nat.le_add_right _ _

/-! ## Characters between two offsets -/

/-- What is cut out between two offsets are the characters from the one number to the other. -/
theorem slice? (h : CharsBefore text n k) (h' : CharsBefore text n' k') (le : n ≤ n') :
    Text.slice? text.toList n n' = some (text.toList.extract k k') := by
  obtain ⟨front, rest, eq, rfl, rfl⟩ := h
  obtain ⟨front', rest', eq', rfl, rfl⟩ := h'
  obtain ⟨middle, rfl⟩ := exists_middle (eq.symm.trans eq') le
  have between : text.toList.extract front.length (front ++ middle).length = middle := by
    rw [eq', List.extract_eq_take_drop]
    simp
  rw [between, byteLength_append]
  exact slice?_eq_some_iff.2 ⟨front, rest', by rw [eq', List.append_assoc], rfl, rfl⟩

theorem toByteArray_extract (h : CharsBefore text n k) (h' : CharsBefore text n' k')
    (le : n ≤ n') : (String.ofList (text.toList.extract k k')).toByteArray =
      text.toByteArray.extract n n' := by
  obtain ⟨len, rfl⟩ := Nat.exists_eq_add_of_le le
  exact toByteArray_of_slice? (h.slice? h' le)

/-- The number of characters between two offsets. -/
theorem map_length_slice? (h : CharsBefore text n k) (h' : CharsBefore text n' k') (le : n ≤ n') :
    (Text.slice? text.toList n n').map List.length = some (k' - k) := by
  have inside := h'.le_length
  rw [h.slice? h' le, Option.map_some, List.extract_eq_take_drop, List.length_take,
    List.length_drop, String.length_toList, Nat.min_eq_left (by omega)]

end CharsBefore

end Text

namespace Span

variable {text : String} {s : Span} {first behind : Nat}

/-- The span begins and ends at boundaries of characters of the text. -/
structure Delimits (s : Span) (text : String) : Prop where
  start : Text.IsBoundary text s.start
  stop : Text.IsBoundary text (s.start + s.len)
  /-- The end is an offset, as all boundaries are in a text of fewer than `offsetLimit` bytes. -/
  fits : s.start + s.len < offsetLimit

instance : Decidable (s.Delimits text) :=
  decidable_of_iff (Text.IsBoundary text s.start ∧ Text.IsBoundary text (s.start + s.len) ∧
    s.start + s.len < offsetLimit)
    ⟨fun ⟨h, h', h''⟩ => ⟨h, h', h''⟩, fun ⟨h, h', h''⟩ => ⟨h, h', h''⟩⟩

/-- The characters before the span and those in it are counted apart. Together they are the
    characters before the end of the span. -/
theorem charRange_eq (start : Text.CharsBefore text s.start first)
    (stop : Text.CharsBefore text (s.start + s.len) behind)
    (fits : s.start + s.len < offsetLimit) : s.charRange text = .ok (first, behind) := by
  have inOrder : s.start ≤ s.start + s.len := Nat.le_add_right _ _
  have sum : first + (behind - first) = behind :=
    Nat.add_sub_cancel' ((start.le_iff stop).1 inOrder)
  have before := (Text.CharsBefore.zero text).map_length_slice? start (Nat.zero_le _)
  have within := start.map_length_slice? stop inOrder
  have total : addOffset first (behind - first) = .ok behind := by
    rw [addOffset_eq (sum.symm ▸ Nat.lt_of_le_of_lt stop.le_offset fits), sum]
  simp [charRange, before, within, stop_eq fits, total, bind, Except.bind, pure, Except.pure]

/-- The characters with numbers in the range of a span have the bytes of the span, and those before
    the range have the bytes before the span. Of two spans, the one does not start before the other
    exactly if its range does not, and does not end behind the other exactly if its range does not.
    So a span is contained in another one just as its range is. -/
theorem charRange_of_delimits (h : s.Delimits text) :
    ∃ first behind, s.charRange text = .ok (first, behind) ∧ first ≤ behind ∧
      behind ≤ text.length ∧
      (String.ofList (text.toList.extract 0 first)).toByteArray =
        text.toByteArray.extract 0 s.start ∧
      (String.ofList (text.toList.extract first behind)).toByteArray =
        text.toByteArray.extract s.start (s.start + s.len) ∧
      ∀ t : Span, t.Delimits text →
        ∃ first' behind', t.charRange text = .ok (first', behind') ∧
          (s.start ≤ t.start ↔ first ≤ first') ∧
          (t.start + t.len ≤ s.start + s.len ↔ behind' ≤ behind) := by
  obtain ⟨first, start⟩ := Text.isBoundary_iff_charsBefore.1 h.start
  obtain ⟨behind, stop⟩ := Text.isBoundary_iff_charsBefore.1 h.stop
  have inOrder : s.start ≤ s.start + s.len := Nat.le_add_right _ _
  refine ⟨first, behind, charRange_eq start stop h.fits, (start.le_iff stop).1 inOrder,
    stop.le_length, (Text.CharsBefore.zero text).toByteArray_extract start (Nat.zero_le _),
    start.toByteArray_extract stop inOrder, fun t ht => ?_⟩
  obtain ⟨first', start'⟩ := Text.isBoundary_iff_charsBefore.1 ht.start
  obtain ⟨behind', stop'⟩ := Text.isBoundary_iff_charsBefore.1 ht.stop
  exact ⟨first', behind', charRange_eq start' stop' ht.fits, start.le_iff start',
    stop'.le_iff stop⟩

/-- A text with characters of one to four bytes. -/
def mixedText : String := "aä→𝄞b"

/-- The span of three characters of different sizes, and the span of the one in their middle. -/
theorem charRange_of_delimits_mixedText :
    let s : Span := ⟨1, 9⟩
    let t : Span := ⟨3, 3⟩
    s.Delimits mixedText ∧ t.Delimits mixedText ∧
      s.charRange mixedText = .ok (1, 4) ∧ t.charRange mixedText = .ok (2, 3) ∧
      (String.ofList (mixedText.toList.extract 0 1)).toByteArray =
        mixedText.toByteArray.extract 0 1 ∧
      (String.ofList (mixedText.toList.extract 1 4)).toByteArray =
        mixedText.toByteArray.extract 1 10 ∧
      (s.start ≤ t.start ↔ 1 ≤ 2) ∧ (t.start + t.len ≤ s.start + s.len ↔ 3 ≤ 4) := by
  intro s t
  have hs : s.Delimits mixedText := by decide +kernel
  have ht : t.Delimits mixedText := by decide +kernel
  have range : s.charRange mixedText = .ok (1, 4) := rfl
  have range' : t.charRange mixedText = .ok (2, 3) := rfl
  obtain ⟨first, behind, eq, -, -, before, within, inside⟩ := charRange_of_delimits hs
  obtain ⟨first', behind', eq', starts, ends⟩ := inside t ht
  cases eq.symm.trans range
  cases eq'.symm.trans range'
  exact ⟨hs, ht, range, range', before, within, starts, ends⟩

end Span

end ObjectInit
