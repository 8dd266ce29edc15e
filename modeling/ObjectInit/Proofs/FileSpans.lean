import Mathlib.Algebra.Ring.Nat
import ObjectInit.Program.Build
import ObjectInit.Proofs.Characters
import ObjectInit.Report.Session

/-!
# Spans and files

Source files lie one behind the other in one address space, so a span that is not empty lies inside
of one file at most. Files that are added later do not change this.

Main results:

* `Files.Contains.unique`: no two files contain the same span, unless it is empty.
* `Files.find_spec`: what the search for the file of a span finds.
* `Files.Contains.exists_textOf`: the text of a span.
* `Files.Contains.append`: files that are added later.
* `Session.spans_in_files`: a span of a file leads back to the file and to its text.
-/

namespace ObjectInit

namespace Files

variable {fs : Files} {id id' : FileId} {s : Span}

/-! ## Offsets -/

/-- The span lies inside of the file. -/
structure Contains (fs : Files) (id : FileId) (s : Span) : Prop where
  exists_file : id < fs.toList.length
  start : fs.offset id ≤ s.start
  stop : s.start + s.len ≤ fs.offset id + (fs.get id).size

instance : Decidable (fs.Contains id s) :=
  decidable_of_iff (id < fs.toList.length ∧ fs.offset id ≤ s.start ∧
    s.start + s.len ≤ fs.offset id + (fs.get id).size)
    ⟨fun ⟨h, h', h''⟩ => ⟨h, h', h''⟩, fun ⟨h, h', h''⟩ => ⟨h, h', h''⟩⟩

theorem offset_eq_sum (fs : Files) (id : FileId) :
    fs.offset id = ((fs.toList.take id).map SourceFile.size).sum := by
  rw [offset, List.sum_eq_foldl, List.foldl_map]

/-- The next file begins where the file ends. -/
theorem offset_succ (h : id < fs.toList.length) :
    fs.offset (id + 1) = fs.offset id + (fs.get id).size := by
  rw [offset_eq_sum, offset_eq_sum, List.take_add_one, List.map_append, List.sum_append]
  simp [get, h]

theorem offset_mono (h : id ≤ id') : fs.offset id ≤ fs.offset id' := by
  obtain ⟨d, rfl⟩ := Nat.exists_eq_add_of_le h
  rw [offset_eq_sum, offset_eq_sum, List.take_add, List.map_append, List.sum_append]
  exact Nat.le_add_right _ _

/-! ## Files that contain a span -/

/-- A file ends before every later one begins. -/
theorem Contains.le_of_pos (h : fs.Contains id s) (h' : fs.Contains id' s) (pos : 0 < s.len) :
    id' ≤ id := by
  by_contra lt
  have ends : fs.offset (id + 1) ≤ fs.offset id' := offset_mono (Nat.lt_of_not_le lt)
  rw [offset_succ h.exists_file] at ends
  have := h.stop
  have := h'.start
  omega

theorem Contains.unique (h : fs.Contains id s) (h' : fs.Contains id' s) (pos : 0 < s.len) :
    id = id' :=
  Nat.le_antisymm (h'.le_of_pos h pos) (h.le_of_pos h' pos)

theorem Contains.stop_le_sum (h : fs.Contains id s) :
    s.start + s.len ≤ (fs.toList.map SourceFile.size).sum := by
  calc s.start + s.len
    _ ≤ fs.offset (id + 1) := offset_succ h.exists_file ▸ h.stop
    _ ≤ fs.offset fs.toList.length := offset_mono h.exists_file
    _ = (fs.toList.map SourceFile.size).sum := by rw [offset_eq_sum, List.take_length]

/-! ## The search -/

theorem findFrom_cons (fits : s.start + s.len < offsetLimit) (id : FileId) (offset : Nat)
    (f : SourceFile) (rest : List SourceFile) :
    findFrom s id offset (f :: rest) =
      if offset ≤ s.start ∧ s.start + s.len ≤ offset + f.size then .ok (some id)
      else findFrom s (id + 1) (offset + f.size) rest := by
  rw [findFrom, Span.stop_eq fits]
  by_cases h : offset ≤ s.start <;>
    by_cases h' : s.start + s.len ≤ offset + f.size <;>
    simp [h, h', bind, Except.bind, pure, Except.pure]

/-- The search goes on behind files that do not contain the span, and stops at the first one that
    does. -/
theorem findFrom_spec (fits : s.start + s.len < offsetLimit) (id : FileId)
    (skipped : ∀ j < id, ¬fs.Contains j s) :
    (∃ j, findFrom s id (fs.offset id) (fs.toList.drop id) = .ok (some j) ∧ fs.Contains j s) ∨
      findFrom s id (fs.offset id) (fs.toList.drop id) = .ok none ∧ ∀ j, ¬fs.Contains j s := by
  by_cases more : id < fs.toList.length
  · have file : fs.toList[id] = fs.get id := by simp [get, more]
    rw [List.drop_eq_getElem_cons more, file, findFrom_cons fits, ← offset_succ more]
    split
    · next inside => exact .inl ⟨id, rfl, more, inside.1, offset_succ more ▸ inside.2⟩
    · next outside =>
      refine findFrom_spec fits (id + 1) fun j lt contains => ?_
      rcases Nat.lt_succ_iff_lt_or_eq.1 lt with lt | rfl
      · exact skipped j lt contains
      · exact outside ⟨contains.start, offset_succ more ▸ contains.stop⟩
  · rw [List.drop_eq_nil_of_le (Nat.le_of_not_lt more)]
    exact .inr ⟨rfl, fun j contains =>
      skipped j (Nat.lt_of_lt_of_le contains.exists_file (Nat.le_of_not_lt more)) contains⟩
termination_by fs.toList.length - id
decreasing_by exact Nat.sub_succ_lt_self _ _ more

/-- What the search finds: a file that contains the span, or nothing if there is none. -/
theorem find_spec (fs : Files) (fits : s.start + s.len < offsetLimit) :
    (∃ id, fs.find s = .ok (some id) ∧ fs.Contains id s) ∨
      fs.find s = .ok none ∧ ∀ id, ¬fs.Contains id s :=
  findFrom_spec fits 0 fun _ lt => absurd lt (Nat.not_lt_zero _)

theorem Contains.find (h : fs.Contains id s) (pos : 0 < s.len)
    (fits : s.start + s.len < offsetLimit) : fs.find s = .ok (some id) := by
  rcases find_spec fs fits with ⟨id', found, h'⟩ | ⟨-, none⟩
  · rw [found, h'.unique h pos]
  · exact absurd h (none id)

theorem find_eq_none (fits : s.start + s.len < offsetLimit) (h : ∀ id, ¬fs.Contains id s) :
    fs.find s = .ok none := by
  rcases find_spec fs fits with ⟨id, -, contains⟩ | ⟨none, -⟩
  · exact absurd contains (h id)
  · exact none

theorem Contains.relative (h : fs.Contains id s) :
    fs.relative id s = .ok ⟨s.start - fs.offset id, s.len⟩ := Span.seenFrom_eq h.start

/-! ## Texts of spans -/

/-- The text of a span has the bytes of the file where the span is, unless it cuts a character. -/
theorem Contains.exists_textOf (start : Nat) (h : fs.Contains id s) (pos : 0 < s.len)
    (fits : s.start + s.len < offsetLimit) (place : s.start = fs.offset id + start) :
    ∃ text, fs.textOf s = .ok text ∧
      if Text.IsBoundary (fs.get id).text start ∧ Text.IsBoundary (fs.get id).text (start + s.len)
      then text.toByteArray = (fs.get id).text.toByteArray.extract start (start + s.len)
      else text = "" := by
  have relative : fs.relative id s = .ok ⟨start, s.len⟩ := by
    rw [h.relative, place, Nat.add_sub_cancel_left]
  have inFile : start + s.len < offsetLimit := by omega
  have stop : (Span.mk start s.len).stop = .ok (start + s.len) := Span.stop_eq inFile
  have cut : fs.textOf s =
      .ok (.ofList ((Text.slice? (fs.get id).text.toList start (start + s.len)).getD [])) := by
    simp [Files.textOf, h.find pos fits, relative, stop, bind, Except.bind, pure, Except.pure]
  refine ⟨_, cut, ?_⟩
  split
  · next ends =>
    obtain ⟨middle, eq⟩ := Option.isSome_iff_exists.1 (Text.isSome_slice?_iff.2 ends)
    rw [eq, Option.getD_some, Text.toByteArray_of_slice? eq]
  · next ends =>
    rw [← Text.isSome_slice?_iff, Option.not_isSome_iff_eq_none] at ends
    rw [ends]
    rfl

theorem textOf_eq_empty (fits : s.start + s.len < offsetLimit) (h : ∀ id, ¬fs.Contains id s) :
    fs.textOf s = .ok "" := by
  simp [textOf, find_eq_none fits h, bind, Except.bind, pure, Except.pure]

/-! ## Later files -/

theorem get_append (more : List SourceFile) (h : id < fs.toList.length) :
    (Files.mk (fs.toList ++ more)).get id = fs.get id := by
  rw [get, get, List.getD_eq_getElem?_getD, List.getD_eq_getElem?_getD, List.getElem?_append_left h]

theorem offset_append (more : List SourceFile) (h : id ≤ fs.toList.length) :
    (Files.mk (fs.toList ++ more)).offset id = fs.offset id := by
  rw [offset, offset, List.take_append_of_le_length h]

/-- A file contains the spans in it also after more files were added. -/
theorem Contains.append (more : List SourceFile) (h : fs.Contains id s) :
    (Files.mk (fs.toList ++ more)).Contains id s where
  exists_file := by
    rw [List.length_append]
    exact Nat.lt_add_right _ h.exists_file
  start := by
    rw [offset_append more (Nat.le_of_lt h.exists_file)]
    exact h.start
  stop := by
    rw [offset_append more (Nat.le_of_lt h.exists_file), get_append more h.exists_file]
    exact h.stop

end Files

namespace Session

/-- Adds source files one after the other and returns their numbers. -/
def addFiles (s : Session) : List SourceFile → List FileId × Session
  | [] => ([], s)
  | f :: files =>
    let (id, s) := s.addFile f
    let (ids, s) := s.addFiles files
    (id :: ids, s)

theorem addFiles_eq (s : Session) (files : List SourceFile) :
    s.addFiles files = (List.range' s.files.toList.length files.length,
      { s with files := ⟨s.files.toList ++ files⟩ }) := by
  induction files generalizing s with
  | nil => simp [addFiles]
  | cons f files ih => simp [addFiles, ih, addFile, Files.add, List.range'_succ]

/-- The numbers that are returned for files lead to these files, and so they do after more files
    were added. The span of some bytes of such a file leads back to the file, to the place of the
    bytes in it, and to the bytes as a text, unless it cuts a character. A span that is not empty
    and does not lie inside of a file leads to no file and to no text. -/
theorem spans_in_files (s : Session) (files later : List SourceFile)
    (fits : ((s.addFiles files).2.files.toList.map SourceFile.size).sum < offsetLimit) :
    let fs := (s.addFiles files).2.files
    let fs' := ((s.addFiles files).2.addFiles later).2.files
    (s.addFiles files).1.map fs'.get = files ∧
      (∀ id ∈ (s.addFiles files).1, ∀ start len, 0 < len → start + len ≤ (fs.get id).size →
        let span := ⟨fs.offset id + start, len⟩
        fs'.find span = .ok (some id) ∧ fs'.relative id span = .ok ⟨start, len⟩ ∧
          ∃ text, fs'.textOf span = .ok text ∧
            if Text.IsBoundary (fs.get id).text start ∧
                Text.IsBoundary (fs.get id).text (start + len)
            then text.toByteArray = (fs.get id).text.toByteArray.extract start (start + len)
            else text = "") ∧
      ∀ span : Span, 0 < span.len → span.start + span.len < offsetLimit →
        (∀ id, ¬fs'.Contains id span) → fs'.find span = .ok none ∧ fs'.textOf span = .ok "" := by
  intro fs fs'
  have added : fs = ⟨s.files.toList ++ files⟩ := by simp [fs, addFiles_eq]
  have extended : fs' = ⟨fs.toList ++ later⟩ := by simp [fs, fs', addFiles_eq]
  refine ⟨?files, fun id mem start len pos inside => ?inside, fun span pos fits none => ?outside⟩
  case files =>
    rw [extended, added, addFiles_eq]
    apply List.ext_getElem
    · simp
    · intro i _ lt
      simp [Files.get, List.getElem?_append_right, List.getElem?_append_left, lt]
  case inside =>
    have lt : id < fs.toList.length := by
      rw [addFiles_eq, List.mem_range'_1] at mem
      rw [added, List.length_append]
      exact mem.2
    have contains : fs.Contains id ⟨fs.offset id + start, len⟩ :=
      ⟨lt, Nat.le_add_right _ _, Nat.add_assoc .. ▸ Nat.add_le_add_left inside _⟩
    have fits := Nat.lt_of_le_of_lt contains.stop_le_sum fits
    have contains' : fs'.Contains id ⟨fs.offset id + start, len⟩ := extended ▸ contains.append later
    have offset : fs'.offset id = fs.offset id := by
      rw [extended, Files.offset_append later (Nat.le_of_lt lt)]
    have file : fs'.get id = fs.get id := by rw [extended, Files.get_append later lt]
    refine ⟨contains'.find pos fits, ?_, ?_⟩
    · rw [contains'.relative, offset, Nat.add_sub_cancel_left]
    · have text := contains'.exists_textOf start pos fits (by rw [offset])
      rwa [file] at text
  case outside => exact ⟨Files.find_eq_none fits none, Files.textOf_eq_empty fits none⟩

/-- A file that has a character of two bytes, an empty one, and one more. -/
def threeFiles : List SourceFile := [⟨"aä", none⟩, ⟨"", none⟩, ⟨"b", none⟩]

/-- A session without files. -/
def ofNoFiles : Session := ⟨.initial, {}, {}, 0⟩

/-- The last file begins where the empty one does. Spans lead to it and not to the empty one; a span
    that cuts the character has no text, and one across files leads nowhere. -/
theorem spans_in_files_threeFiles :
    let fs := (ofNoFiles.addFiles threeFiles).2.files
    let fs' := ((ofNoFiles.addFiles threeFiles).2.addFiles [⟨"c", none⟩]).2.files
    (fs.toList.map SourceFile.size).sum < offsetLimit ∧
      fs.offset 1 = 3 ∧ fs.offset 2 = 3 ∧
      fs'.find ⟨fs.offset 2, 1⟩ = .ok (some 2) ∧
      fs'.relative 2 ⟨fs.offset 2, 1⟩ = .ok ⟨0, 1⟩ ∧
      (∃ text, fs'.textOf ⟨fs.offset 0 + 1, 2⟩ = .ok text ∧
        text.toByteArray = (fs.get 0).text.toByteArray.extract 1 3) ∧
      fs'.textOf ⟨fs.offset 0 + 2, 1⟩ = .ok "" ∧
      fs'.find ⟨2, 2⟩ = .ok none := by
  intro fs fs'
  have fits : (fs.toList.map SourceFile.size).sum < offsetLimit := by decide +kernel
  obtain ⟨-, inside, outside⟩ := spans_in_files ofNoFiles threeFiles [⟨"c", none⟩] fits
  obtain ⟨found, relative, -⟩ := inside 2 (by decide +kernel) 0 1 (by decide) (by decide +kernel)
  obtain ⟨-, -, text, textOf, bytes⟩ :=
    inside 0 (by decide +kernel) 1 2 (by decide) (by decide +kernel)
  obtain ⟨-, -, part, partOf, empty⟩ :=
    inside 0 (by decide +kernel) 2 1 (by decide) (by decide +kernel)
  rw [if_pos (by decide +kernel)] at bytes
  rw [if_neg (by decide +kernel)] at empty
  have ofFile : ∀ id < 4, ¬fs'.Contains id ⟨2, 2⟩ := by decide +kernel
  have across (id) (contains : fs'.Contains id ⟨2, 2⟩) : False :=
    ofFile id contains.exists_file contains
  exact ⟨fits, by decide +kernel, by decide +kernel, found, relative, ⟨text, textOf, bytes⟩,
    empty ▸ partOf, (outside ⟨2, 2⟩ (by decide) (by decide) across).1⟩

end Session

end ObjectInit
