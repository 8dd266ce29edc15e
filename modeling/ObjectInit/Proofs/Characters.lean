import Mathlib.Order.Basic
import ObjectInit.Source.Files

/-!
# Boundaries of characters

An offset is the boundary of a character if a text can be cut there into two texts. `Text.slice?`
cuts out of a text what is between two boundaries.

Main results:

* `Text.slice?_eq_some_iff`: what is cut out, and where.
* `Text.isSome_slice?_iff`: something is cut out between boundaries only.
* `Text.toByteArray_of_slice?`: a slice has the bytes of the text from one boundary to the other.
-/

namespace ObjectInit.Text

variable {cs front middle rest : List Char} {text : String} {start len n : Nat}

/-! ## Lengths in bytes -/

theorem byteLength_append (cs ds : List Char) :
    byteLength (cs ++ ds) = byteLength cs + byteLength ds := by
  induction cs with
  | nil => simp
  | cons c cs ih => simp [ih, Nat.add_assoc]

theorem eq_nil_of_byteLength (h : byteLength cs = 0) : cs = [] := by
  cases cs with
  | nil => rfl
  | cons c cs =>
    have := c.utf8Size_pos
    rw [byteLength_cons] at h
    omega

theorem utf8ByteSize_ofList (cs : List Char) : (String.ofList cs).utf8ByteSize = byteLength cs := by
  induction cs with
  | nil => rfl
  | cons c cs ih =>
    rw [← List.singleton_append, String.ofList_append, String.utf8ByteSize_append, ih,
      ← String.singleton_eq_ofList, String.utf8ByteSize_singleton]
    rfl

/-! ## Slices -/

/-- A slice has a part of the text before it and one behind it. -/
theorem slice?_eq_some_iff : slice? cs start (start + len) = some middle ↔
    ∃ front rest, cs = front ++ (middle ++ rest) ∧ byteLength front = start ∧
      byteLength middle = len := by
  unfold slice?
  rw [Nat.add_sub_cancel_left]
  constructor
  · intro h
    obtain ⟨⟨front, back⟩, cut, h⟩ := Option.bind_eq_some_iff.1 h
    obtain ⟨⟨middle', rest⟩, cut', h⟩ := Option.bind_eq_some_iff.1 h
    cases h
    obtain ⟨rfl, length⟩ := splitBytes?_eq_some_iff.1 cut
    obtain ⟨rfl, length'⟩ := splitBytes?_eq_some_iff.1 cut'
    exact ⟨front, rest, rfl, length, length'⟩
  · rintro ⟨front, rest, rfl, rfl, rfl⟩
    rw [splitBytes?_eq_some_iff.2 ⟨rfl, rfl⟩]
    show (splitBytes? _ (middle ++ rest)).bind _ = _
    rw [splitBytes?_eq_some_iff.2 ⟨rfl, rfl⟩]
    rfl

/-! ## Boundaries -/

/-- A character of the text starts at the offset, or the text ends there. -/
def IsBoundary (text : String) (n : Nat) : Prop := (⟨n⟩ : String.Pos.Raw).IsValid text

instance : Decidable (IsBoundary text n) :=
  inferInstanceAs (Decidable ((⟨n⟩ : String.Pos.Raw).IsValid text))

theorem isBoundary_iff :
    IsBoundary text n ↔ ∃ front rest, text.toList = front ++ rest ∧ byteLength front = n := by
  rw [IsBoundary, String.Pos.Raw.isValid_iff_exists_append]
  constructor
  · rintro ⟨s, t, rfl, eq⟩
    refine ⟨s.toList, t.toList, String.toList_append, ?_⟩
    rw [← utf8ByteSize_ofList, String.ofList_toList]
    exact (String.Pos.Raw.ext_iff.1 eq).symm
  · rintro ⟨front, rest, eq, rfl⟩
    refine ⟨.ofList front, .ofList rest, ?_, ?_⟩
    · rw [← String.ofList_append, ← eq, String.ofList_toList]
    · rw [← utf8ByteSize_ofList]
      rfl

/-- A text that is cut at two offsets has something between them. -/
theorem exists_middle {front' rest' : List Char} (eq : front ++ rest = front' ++ rest')
    (le : byteLength front ≤ byteLength front') : ∃ middle, front' = front ++ middle := by
  rcases List.append_eq_append_iff.1 eq with ⟨middle, rfl, -⟩ | ⟨back, rfl, -⟩
  · exact ⟨middle, rfl⟩
  · have none : back = [] := by
      rw [byteLength_append] at le
      exact eq_nil_of_byteLength (by omega)
    exact ⟨[], by rw [none, List.append_nil, List.append_nil]⟩

theorem isSome_slice?_iff : (slice? text.toList start (start + len)).isSome ↔
    IsBoundary text start ∧ IsBoundary text (start + len) := by
  rw [Option.isSome_iff_exists, isBoundary_iff, isBoundary_iff]
  constructor
  · rintro ⟨middle, h⟩
    obtain ⟨front, rest, eq, rfl, rfl⟩ := slice?_eq_some_iff.1 h
    exact ⟨⟨front, _, eq, rfl⟩, front ++ middle, rest, by rw [eq, List.append_assoc],
      byteLength_append front middle⟩
  · rintro ⟨⟨front, back, eq, rfl⟩, front', rest, eq', length⟩
    obtain ⟨middle, rfl⟩ := exists_middle (eq.symm.trans eq') (by omega)
    rw [byteLength_append] at length
    refine ⟨middle, slice?_eq_some_iff.2 ⟨front, rest, ?_, rfl, by omega⟩⟩
    rw [eq', List.append_assoc]

theorem toByteArray_of_slice? (h : slice? text.toList start (start + len) = some middle) :
    (String.ofList middle).toByteArray = text.toByteArray.extract start (start + len) := by
  obtain ⟨front, rest, eq, rfl, rfl⟩ := slice?_eq_some_iff.1 h
  have parts : text = .ofList front ++ (.ofList middle ++ .ofList rest) := by
    rw [← String.ofList_append, ← String.ofList_append, ← eq, String.ofList_toList]
  calc (String.ofList middle).toByteArray
    _ = ((String.ofList middle).toByteArray ++ (String.ofList rest).toByteArray).extract 0
          (String.ofList middle).toByteArray.size :=
      (ByteArray.extract_append_eq_left rfl).symm
    _ = text.toByteArray.extract ((String.ofList front).toByteArray.size + 0)
          ((String.ofList front).toByteArray.size + (String.ofList middle).toByteArray.size) := by
      rw [parts, String.toByteArray_append, String.toByteArray_append,
        ByteArray.extract_append_size_add]
    _ = text.toByteArray.extract (byteLength front) (byteLength front + byteLength middle) := by
      rw [String.size_toByteArray, String.size_toByteArray, utf8ByteSize_ofList,
        utf8ByteSize_ofList, Nat.add_zero]

end ObjectInit.Text
