/-!
# Source files

The files are laid out one behind the other in one address space of byte offsets, and a `Span` is a
range in it. So a span alone tells its file: `Files.find` returns the first file that contains it,
and `Files.textOf` its text. Offsets are 64-bit words that never wrap: an operation whose result
does not fit ends with an `OffsetFault`.

Spans count the bytes of a text's UTF-8 form, readers count characters. `Text.splitBytes?` cuts a
text at a byte offset, provided that a character starts there, and `Span.charRange` translates.

The name that something has in the checker's source, where it is another one, stands in parentheses.

Main results:

* `Text.splitBytes?_eq_some_iff`: the two parts are those whose concatenation is the text and of
  which the first one has the given number of bytes.
-/

namespace ObjectInit

/-! ## Spans -/

/-- Every byte offset is below this bound. -/
def offsetLimit : Nat := UInt64.size

/-- Why an offset could not be computed. -/
inductive OffsetFault where
  /-- A sum reached `offsetLimit`. -/
  | tooLarge
  /-- A difference is below zero. -/
  | belowZero
  /-- A span would end before it starts. -/
  | negativeLength
  deriving DecidableEq

/-- The text shown for a fault. -/
def OffsetFault.message : OffsetFault → String
  | .tooLarge => "attempt to add with overflow"
  | .belowZero => "attempt to subtract with overflow"
  | .negativeLength => "Span length must not be negative"

/-- The sum of two offsets, if it is an offset. -/
def addOffset (a b : Nat) : Except OffsetFault Nat :=
  if a + b < offsetLimit then .ok (a + b) else .error .tooLarge

theorem addOffset_eq {a b : Nat} (fits : a + b < offsetLimit) : addOffset a b = .ok (a + b) :=
  if_pos fits

/-- The range of `len` bytes from `start` on. -/
structure Span where
  start : Nat
  len : Nat
  deriving DecidableEq, Inhabited

namespace Span

/-- The span of what was synthesized and has no source. -/
def empty : Span := ⟨0, 0⟩

def isEmpty (s : Span) : Bool := s.len == 0

/-- The offset of the first byte behind the span (`end`). -/
def stop (s : Span) : Except OffsetFault Nat := addOffset s.start s.len

theorem stop_eq {s : Span} (fits : s.start + s.len < offsetLimit) :
    s.stop = .ok (s.start + s.len) := addOffset_eq fits

/-- The span from the start of `s` to the end of `t` (`until`). -/
def upTo (s t : Span) : Except OffsetFault Span := do
  let stop ← t.stop
  if s.start ≤ stop then .ok ⟨s.start, stop - s.start⟩ else .error .negativeLength

/-- The span as seen from a file that begins at `offset` (`relative_to`). -/
def seenFrom (s : Span) (offset : Nat) : Except OffsetFault Span :=
  if offset ≤ s.start then .ok ⟨s.start - offset, s.len⟩ else .error .belowZero

theorem seenFrom_eq {s : Span} {offset : Nat} (le : offset ≤ s.start) :
    s.seenFrom offset = .ok ⟨s.start - offset, s.len⟩ := if_pos le

/-- Spans are ordered by their start, then by their length. -/
def compare (s t : Span) : Ordering :=
  (Ord.compare s.start t.start).then (Ord.compare s.len t.len)

instance : Ord Span := ⟨Span.compare⟩

end Span

/-! ## Byte offsets in texts -/

namespace Text

/-- The number of bytes of a text. -/
def byteLength : List Char → Nat
  | [] => 0
  | c :: cs => c.utf8Size + byteLength cs

@[simp] theorem byteLength_nil : byteLength [] = 0 := rfl

@[simp] theorem byteLength_cons (c : Char) (cs : List Char) :
    byteLength (c :: cs) = c.utf8Size + byteLength cs := rfl

/-- Splits off the first `n` bytes; `none` unless they end where a character does. -/
def splitBytes? : Nat → List Char → Option (List Char × List Char)
  | 0, cs => some ([], cs)
  | _ + 1, [] => none
  | n + 1, c :: cs =>
    if c.utf8Size ≤ n + 1 then
      (splitBytes? (n + 1 - c.utf8Size) cs).map fun (front, rest) => (c :: front, rest)
    else
      none

theorem splitBytes?_eq_some_iff {n : Nat} {cs front rest : List Char} :
    splitBytes? n cs = some (front, rest) ↔ cs = front ++ rest ∧ byteLength front = n := by
  fun_induction splitBytes? n cs generalizing front rest with
  | case1 cs =>
    cases front with
    | nil => simp
    | cons c front =>
      have := c.utf8Size_pos
      simp
      omega
  | case2 n => cases front <;> simp
  | case3 n c cs hle ih =>
    cases front with
    | nil => simp
    | cons d front =>
      have heq : byteLength front = n + 1 - c.utf8Size ↔
          c.utf8Size + byteLength front = n + 1 := by omega
      constructor
      · intro h
        obtain ⟨⟨f, r⟩, hs, hf⟩ := Option.map_eq_some_iff.1 h
        obtain ⟨⟨rfl, rfl⟩, rfl⟩ : (c = d ∧ f = front) ∧ r = rest := by simpa using hf
        obtain ⟨rfl, hlen⟩ := ih.1 hs
        exact ⟨rfl, heq.1 hlen⟩
      · rintro ⟨hcs, hlen⟩
        obtain ⟨rfl, rfl⟩ := List.cons.inj hcs
        rw [ih.2 ⟨rfl, heq.2 hlen⟩]
        rfl
  | case4 n c cs hle =>
    cases front with
    | nil => simp
    | cons d front =>
      simp only [List.cons_append, List.cons.injEq, byteLength_cons, false_iff, reduceCtorEq]
      rintro ⟨⟨rfl, -⟩, hlen⟩
      omega

/-- The characters between two byte offsets; `none` unless both are character boundaries. -/
def slice? (cs : List Char) (start stop : Nat) : Option (List Char) := do
  let (_, rest) ← splitBytes? start cs
  let (middle, _) ← splitBytes? (stop - start) rest
  return middle

end Text

namespace Span

/-- The characters of `text` that the span covers, as the numbers of the first one and of the first
    one behind (`char_bounds`). An offset that is not the boundary of a character is kept as it
    is. -/
def charRange (s : Span) (text : String) : Except OffsetFault (Nat × Nat) := do
  let cs := text.toList
  let start := ((Text.slice? cs 0 s.start).map List.length).getD s.start
  let stop ← s.stop
  let len := ((Text.slice? cs s.start stop).map List.length).getD s.len
  return (start, ← addOffset start len)

end Span

/-! ## Files -/

/-- The number of a file, in the order in which the files were added (`CodeId`). -/
abbrev FileId := Nat

/-- A source file with its path, if it has one (`Code`). -/
structure SourceFile where
  text : String
  path : Option String
  deriving DecidableEq, Inhabited

/-- The number of bytes that the file takes. -/
def SourceFile.size (f : SourceFile) : Nat := f.text.utf8ByteSize

/-- The source files in the order of their offsets (`InputFiles`). -/
structure Files where
  toList : List SourceFile := []

namespace Files

def isEmpty (fs : Files) : Bool := fs.toList.isEmpty

/-- The file is placed behind the others (`add_input`). -/
def add (fs : Files) (f : SourceFile) : Files := ⟨fs.toList ++ [f]⟩

/-- The file of a number (`get_input`). -/
def get (fs : Files) (id : FileId) : SourceFile := fs.toList.getD id default

/-- Where a file begins: behind all files before it. -/
def offset (fs : Files) (id : FileId) : Nat :=
  (fs.toList.take id).foldl (fun n file => n + file.size) 0

/-- The span of a whole file. -/
def span (fs : Files) (id : FileId) : Span := ⟨fs.offset id, (fs.get id).size⟩

/-- The span as seen from the start of a file (`get_relative_span`). -/
def relative (fs : Files) (id : FileId) (s : Span) : Except OffsetFault Span :=
  s.seenFrom (fs.offset id)

/-- Searches files of which the first one has the number `id` and begins at `offset`. -/
def findFrom (s : Span) (id : FileId) (offset : Nat) :
    List SourceFile → Except OffsetFault (Option FileId)
  | [] => .ok none
  | f :: rest => do
    if offset ≤ s.start then
      if (← s.stop) ≤ offset + f.size then
        return some id
    findFrom s (id + 1) (offset + f.size) rest

/-- The first file that contains the span (`find_span_code`). -/
def find (fs : Files) (s : Span) : Except OffsetFault (Option FileId) := findFrom s 0 0 fs.toList

/-- The text of a span; empty if no file contains it or if it cuts a character (`get_span_str`). -/
def textOf (fs : Files) (s : Span) : Except OffsetFault String := do
  let some id ← fs.find s | return ""
  let inFile ← fs.relative id s
  let stop ← inFile.stop
  let cs := (Text.slice? (fs.get id).text.toList inFile.start stop).getD []
  return String.ofList cs

end Files

end ObjectInit
