import ObjectInit.Source.Files

/-!
# Initialization errors

A `SafetyError` is a use of an object that may happen before the object is initialized. It is
reported with the `Trace` of the calls that led to it. Errors that explain why a promotion failed
are its causes, so errors form trees, and `SafetyErrors.flatten` walks through them. A `Diagnostic`
reports that the trees of the program are inconsistent.

The name that something has in the checker's source, where it is another one, stands in parentheses.
-/

namespace ObjectInit

/-! ## Traces -/

/-- The calls that led to the current evaluation, the innermost first. -/
structure Trace where
  frames : List Span := []
  deriving DecidableEq, Inhabited

namespace Trace

def empty : Trace := ⟨[]⟩

def isEmpty (t : Trace) : Bool := t.frames.isEmpty

def size (t : Trace) : Nat := t.frames.length

/-- The innermost call. -/
def last? (t : Trace) : Option Span := t.frames.head?

/-- Adds an innermost call. Empty spans and repetitions of the innermost call are left out. -/
def add (t : Trace) (s : Span) : Trace :=
  if s.isEmpty || t.last? == some s then t else ⟨s :: t.frames⟩

/-- The calls, the outermost first (`to_vec`). -/
def toList (t : Trace) : List Span := t.frames.reverse

/-- An added call becomes the last one. -/
theorem toList_add (t : Trace) (s : Span) :
    (t.add s).toList = if s.isEmpty || t.last? == some s then t.toList else t.toList ++ [s] := by
  unfold add
  split <;> simp [toList]

/-- The trace of calls that are added one after the other. -/
def ofList (spans : List Span) : Trace := spans.foldl add empty

/-- The written form of a trace. -/
def render (t : Trace) : String :=
  let frames := t.toList.map fun s =>
    "Span \x7b start: " ++ toString s.start ++ ", len: " ++ toString s.len ++ " \x7d"
  "[" ++ ", ".intercalate frames ++ "]"

end Trace

/-! ## Errors -/

/-- Where an error was found, and by which calls, the outermost first. -/
structure Place where
  span : Span
  trace : List Span
  deriving DecidableEq, Inhabited

/-- An unsafe use of an object (`InitError`). -/
inductive SafetyError where
  /-- A field is read from an object of which nothing is known (`AccessCold`). -/
  | readCold (field : String) (place : Place)
  /-- A field is read before it is initialized (`AccessNonInit`). -/
  | readUninitialized (field : String) (place : Place)
  /-- A method or constructor is called on an object of which nothing is known. -/
  | callCold (method : String) (place : Place)
  /-- The source of a member is unknown, and the member is not known to be safe. -/
  | callUnknown (method : String) (place : Place)
  /-- A value is not known to be initialized although it has to be (`PromoteError`). -/
  | notHot (reason : String) (place : Place)
  /-- The attempt to promote a value found errors (`UnsafePromotion`). -/
  | failedPromotion (reason : String) (causes : List SafetyError) (place : Place)

/-- An inconsistency of the trees of the program (`InternalDiagnostic`). -/
structure Diagnostic where
  message : String
  span : Span
  deriving DecidableEq, Inhabited

namespace SafetyError

def place : SafetyError → Place
  | readCold _ place => place
  | readUninitialized _ place => place
  | callCold _ place => place
  | callUnknown _ place => place
  | notHot _ place => place
  | failedPromotion _ _ place => place

def span (e : SafetyError) : Span := e.place.span

/-- The calls that led to the error, the outermost first. -/
def trace (e : SafetyError) : List Span := e.place.trace

/-- The errors that a failed promotion found. -/
def causes : SafetyError → List SafetyError
  | failedPromotion _ causes _ => causes
  | _ => []

mutual

/-- The text of an error, in which causes stand in parentheses. -/
def message : SafetyError → String
  | readCold field _ =>
    "Access field '" ++ field ++ "' on a value with an unknown initialization status"
  | readUninitialized field _ => "Access non-initialized field '" ++ field ++ "'"
  | callCold method _ =>
    "Call method '" ++ method ++ "' on a value with an unknown initialization status"
  | callUnknown method _ =>
    "Calling the external method '" ++ method ++ "' may cause initialization errors"
  | notHot reason _ => reason
  | failedPromotion reason causes _ => reason ++ parenthesize causes

/-- The texts of causes, each one behind a space and in parentheses. -/
def parenthesize : List SafetyError → String
  | [] => ""
  | e :: es => " (" ++ e.message ++ ")" ++ parenthesize es

end

/-- The text beside the place of the error in the source. -/
def label : SafetyError → String
  | readCold .. => "The value has an unknown initialization status"
  | readUninitialized field _ => "'" ++ field ++ "' is not initialized at this point"
  | callCold .. => "The receiver has an unknown initialization status"
  | callUnknown .. => "No source code is available for this member"
  | notHot .. => "This value is not fully initialized"
  | failedPromotion .. => "Promoting this value failed"

mutual

/-- The number of errors in the tree. -/
def size : SafetyError → Nat
  | failedPromotion _ causes _ => 1 + sizeAll causes
  | _ => 1

/-- The number of errors in a list of trees. -/
def sizeAll : List SafetyError → Nat
  | [] => 0
  | e :: es => e.size + sizeAll es

end

end SafetyError

namespace SafetyErrors

/-- Takes `n` errors off a stack. The causes of an error replace it on the top. -/
def walk : Nat → List SafetyError → List SafetyError
  | 0, _ => []
  | _ + 1, [] => []
  | n + 1, e :: stack => e :: walk n (e.causes ++ stack)

/-- Every error, each one followed by its causes, theirs and so on (`iter_flat`). -/
def flatten (es : List SafetyError) : List SafetyError := walk (SafetyError.sizeAll es) es

/-- The texts of the errors, each one on a line. -/
def render (es : List SafetyError) : String := String.join (es.map fun e => e.message ++ "\n")

end SafetyErrors

end ObjectInit
