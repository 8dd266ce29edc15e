import ObjectInit.Diagnostic.SafetyError
import ObjectInit.Source.Files

/-!
# Snippets

A snippet presents an error or a diagnostic: a title, the places in the source files that have to
do with it, and notes. `SafetyError.snippet` and `Diagnostic.snippet` build them. Spans that are
empty or outside of the files are left out. The `Config` says how much is shown. On a terminal, the
kind and the title of a snippet are shown, then the notes (`Snippet.render`); the source lines are
not drawn.

The name that something has in the checker's source, where it is another one, stands in parentheses.
-/

namespace ObjectInit

/-- Which classes are checked, and how much is shown of what is found. -/
structure Config where
  /-- Abstract classes are checked too (`check_abstract_classes`). -/
  includeAbstract : Bool := true
  /-- How many calls of a trace are shown, the innermost ones; all of them if there is no limit
      (`trace_limit`). -/
  shownCalls : Option Nat := some 16
  /-- Inconsistencies of the trees are shown (`report_internal`). -/
  showDiagnostics : Bool := true
  deriving DecidableEq

inductive Severity where
  | error
  | warning
  | info
  deriving DecidableEq

/-- A remark on a span that is relative to its file (`SourceAnnotationOwned`). -/
structure Annotation where
  severity : Severity
  span : Span
  label : String
  deriving DecidableEq

/-- The remarks on one file (`SliceOwned`). -/
structure Slice where
  file : FileId
  source : SourceFile
  annotations : List Annotation
  deriving DecidableEq

/-- What is shown of an error or a diagnostic (`SnippetOwned`). -/
structure Snippet where
  severity : Severity
  /-- The kind of what is presented. -/
  kind : String
  title : String
  slices : List Slice
  notes : List String
  deriving DecidableEq

namespace Slice

/-- Adds a remark to the slice of a file, which becomes the last one if it is new. -/
def addTo (files : Files) (id : FileId) (a : Annotation) : List Slice → List Slice
  | [] => [⟨id, files.get id, [a]⟩]
  | s :: rest =>
    if s.file = id then
      { s with annotations := s.annotations ++ [a] } :: rest
    else
      s :: addTo files id a rest

/-- Adds a remark on a span, if it is not empty and some file contains it (`SliceBuilder`). -/
def annotate (files : Files) (slices : List Slice) (a : Annotation) :
    Except OffsetFault (List Slice) := do
  if a.span.isEmpty then
    return slices
  let some id ← files.find a.span | return slices
  return addTo files id { a with span := ← files.relative id a.span } slices

/-- Adds remarks one after the other. -/
def ofAnnotations (files : Files) (as : List Annotation) : Except OffsetFault (List Slice) :=
  as.foldlM (annotate files) []

end Slice

/-- The last `limit` elements. -/
def lastUpTo {α : Type} (limit : Option Nat) (xs : List α) : List α :=
  match limit with
  | none => xs
  | some n => xs.drop (xs.length - n)

namespace SafetyError

/-- The remarks on an error: one at its own span, one at each call that is shown. -/
def annotations (e : SafetyError) (shownCalls : Option Nat) : List Annotation :=
  let calls := (lastUpTo shownCalls e.trace).filter (· != e.span)
  ⟨.error, e.span, e.label⟩ :: calls.map (⟨.info, ·, "Called from here"⟩)

/-- The causes of a failed promotion as a list (`display_causes`). -/
def explainCauses : List SafetyError → String
  | [] => "No concrete cause was found"
  | [e] => "Caused by: " ++ e.message
  | es => "Caused by:\n  * " ++ "\n  * ".intercalate (es.map message)

/-- A failed promotion has a note on its causes. -/
def notes : SafetyError → List String
  | failedPromotion _ causes _ => [explainCauses causes]
  | _ => []

/-- How an error is shown (`as_annotation_snippet`). -/
def snippet (e : SafetyError) (config : Config) (files : Files) : Except OffsetFault Snippet := do
  let slices ← Slice.ofAnnotations files (e.annotations config.shownCalls)
  return ⟨.error, "Init", e.message, slices, e.notes⟩

end SafetyError

/-- The note on every diagnostic. -/
def Diagnostic.note : String :=
  "If you think this is a bug, please submit an issue at the github repository."

/-- How a diagnostic is shown (`as_annotation_snippet`). -/
def Diagnostic.snippet (d : Diagnostic) (files : Files) : Except OffsetFault Snippet := do
  let slices ← Slice.ofAnnotations files [⟨.warning, d.span, "While checking this"⟩]
  return ⟨.warning, "Internal", d.message, slices, [note]⟩

/-! ## On a terminal -/

namespace Text

/-- Splits a text into lines. A line ends before a line feed, to which a carriage return in front of
    it belongs; there is no empty line at the end. -/
def lines : List Char → List (List Char)
  | [] => []
  | '\n' :: rest => [] :: lines rest
  | '\r' :: '\n' :: rest => [] :: lines rest
  | c :: rest =>
    match lines rest with
    | [] => [[c]]
    | line :: others => (c :: line) :: others

end Text

namespace Terminal

/-- A text in a style that is given by the parameters of the control sequence. -/
def styled (style text : String) : String := "\x1b[" ++ style ++ "m" ++ text ++ "\x1b[0m"

def bold (text : String) : String := styled "1" text

end Terminal

open Terminal in
/-- The kind of what is presented, in the colour of its severity. -/
def Severity.heading (severity : Severity) (kind : String) : String :=
  match severity with
  | .error => styled "1;38;5;9" ("error[" ++ kind ++ "]")
  | .warning => styled "1;38;5;11" ("warning[" ++ kind ++ "]")
  | .info => styled "1;38;5;12" ("info[" ++ kind ++ "]")

namespace Snippet

/-- The first lines of a snippet. -/
def header (s : Snippet) : String :=
  let heading := s.severity.heading s.kind
  if s.title.isEmpty then heading else heading ++ ": " ++ Terminal.bold s.title

/-- The lines of a note. The first one is marked, the others are indented by as much. -/
def noteLines (note : String) : List String :=
  match Text.lines note.toList with
  | [] => []
  | first :: rest =>
    (" " ++ Terminal.styled "1;38;5;12" "=" ++ " " ++ Terminal.bold "note" ++ ": " ++
        String.ofList first) ::
      rest.map fun line => "         " ++ String.ofList line

/-- A snippet as it is shown when no source lines are drawn. -/
def render (s : Snippet) : String := "\n".intercalate (s.header :: s.notes.flatMap noteLines)

end Snippet

end ObjectInit
