import ObjectInit.Analysis.Answer
import ObjectInit.Report.Snippet

/-!
# Checking programs

`checkClass` analyses the construction of one class and `checkSelected` that of every class which
the configuration selects, each with a store of its own. A `Session` keeps a program together with
its source files and the configuration.
-/

namespace ObjectInit

/-- What was found in one or several classes (`CheckOutput`). -/
structure Report where
  errors : List SafetyError := []
  diagnostics : List Diagnostic := []

namespace Report

def isOk (r : Report) : Bool := r.errors.isEmpty

/-- What was found in both. -/
def append (r r' : Report) : Report := ⟨r.errors ++ r'.errors, r.diagnostics ++ r'.diagnostics⟩

/-- The snippets of the errors. -/
def errorSnippets (r : Report) (config : Config) (files : Files) :
    Except OffsetFault (List Snippet) :=
  r.errors.mapM (·.snippet config files)

/-- The snippets of the diagnostics. -/
def diagnosticSnippets (r : Report) (files : Files) : Except OffsetFault (List Snippet) :=
  r.diagnostics.mapM (·.snippet files)

/-- The errors, and the diagnostics if they are to be shown, with empty lines in between. -/
def format (r : Report) (config : Config) (files : Files) : Except OffsetFault String := do
  let errors ← r.errorSnippets config files
  let diagnostics ← if config.showDiagnostics then r.diagnosticSnippets files else pure []
  return "\n\n".intercalate ((errors ++ diagnostics).map Snippet.render)

end Report

/-- What the construction of an instance of a class does wrong (`check_class`). -/
def checkClass (p : Program) (depth : Nat) (c : ClassId) : Except Halt Report := do
  let (errors, s) ← (answer p depth (.check c)).run .initial
  return ⟨errors, s.diagnostics⟩

/-- The construction of the class is checked: there is source for it, it can have instances of its
    own, or it is abstract and the configuration asks for such classes (`is_checked_class`). -/
def Program.isSelected (p : Program) (config : Config) (c : ClassId) : Bool :=
  let flags := (p.cls c).flags
  (p.cls c).hasSource && !flags.has .trait && !flags.has .package && !flags.has .root &&
    (config.includeAbstract || !flags.has .abstractClass)

/-- Checks every class that the configuration selects (`check_program`). -/
def checkSelected (p : Program) (depth : Nat) (config : Config) :
    Except Halt (List (ClassId × Report)) :=
  (p.classIds.filter (p.isSelected config)).mapM fun c => do
    return (c, ← checkClass p depth c)

/-- A program with its source files and the configuration (`CheckConfig`). -/
structure Session where
  program : Program
  config : Config := {}
  files : Files := {}
  /-- The number of single classes that were checked. -/
  checksRun : Nat := 0

namespace Session

/-- Counts one more check and returns its number (`next_check_id`). -/
def nextCheck (s : Session) : Nat × Session :=
  (s.checksRun, { s with checksRun := s.checksRun + 1 })

/-- Adds a source file and returns its number (`add_source`). -/
def addFile (s : Session) (f : SourceFile) : FileId × Session :=
  (s.files.toList.length, { s with files := s.files.add f })

/-- Checks a class, whatever the configuration says. -/
def checkClass (s : Session) (c : ClassId) : Except Halt (Report × Session) := do
  return (← ObjectInit.checkClass s.program depthLimit c, s.nextCheck.2)

/-- Checks the first class of a simple name, if there is one (`check_class_named`). -/
def checkNamed (s : Session) (name : String) : Except Halt (Option Report × Session) := do
  match s.program.classNamed? name with
  | none => return (none, s)
  | some c =>
    let (report, s) ← s.checkClass c
    return (some report, s)

/-- Checks the classes that the configuration selects and puts together what is found. -/
def checkSelected (s : Session) : Except Halt Report := do
  let reports ← ObjectInit.checkSelected s.program depthLimit s.config
  return (reports.map (·.2)).foldl Report.append {}

end Session

end ObjectInit
