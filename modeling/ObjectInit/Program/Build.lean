import ObjectInit.Program.Basic

/-!
# Building programs

A program is built step by step: a step of type `Build` adds an item to the tables or fills in a
part of one. Symbols are declared first and get their bodies afterwards. `Program.initial` holds the
classes that every program has.
-/

namespace ObjectInit

/-- Where a class is defined (`ClassOwner`). -/
inductive Site where
  /-- At the top level. -/
  | package
  /-- As a member of a class. -/
  | cls (cls : ClassId)
  /-- Inside a method, a constructor or an initializer. -/
  | inside (symbol : SymbolId)
  deriving DecidableEq

/-- The class that encloses the classes defined at a site. -/
def Program.siteOwner (p : Program) : Site → ClassId
  | .package => .root
  | .cls c => c
  | .inside s => p.homeClass s

/-- Why a step is refused. -/
inductive BuildFault where
  /-- The class has no primary constructor. -/
  | noConstructor (cls : ClassId)
  deriving DecidableEq

/-- The text shown for a refused step. -/
def BuildFault.message : BuildFault → String
  | .noConstructor _ => "Class has no constructor"

/-- A step of the construction of a program (`ProgramBuilder`). -/
abbrev Build := StateT Program (Except BuildFault)

namespace Build

/-! ## The tables -/

/-- Adds a class (`push_class`). -/
def newClass (c : ClassDef) : Build ClassId :=
  modifyGet fun p => (⟨p.classes.size⟩, { p with classes := p.classes.push c })

/-- Adds a symbol (`push_symbol`). -/
def newSymbol (s : Symbol) : Build SymbolId :=
  modifyGet fun p => (⟨p.symbols.size⟩, { p with symbols := p.symbols.push s })

/-- Adds an expression (`push_expr`). -/
def newExpr (node : Node) : Build ExprId :=
  modifyGet fun p => (⟨p.exprs.size⟩, { p with exprs := p.exprs.push ⟨.empty, node⟩ })

def modifyClass (c : ClassId) (f : ClassDef → ClassDef) : Build Unit :=
  modify fun p => { p with classes := p.classes.modify c.index f }

def modifySymbol (s : SymbolId) (f : Symbol → Symbol) : Build Unit :=
  modify fun p => { p with symbols := p.symbols.modify s.index f }

def modifyExpr (e : ExprId) (f : Expr → Expr) : Build Unit :=
  modify fun p => { p with exprs := p.exprs.modify e.index f }

/-- The primary constructor of a class. -/
def primaryConstructor (c : ClassId) : Build SymbolId := do
  match ((← get).cls c).primaryConstructor with
  | some ctor => return ctor
  | none => throw (.noConstructor c)

/-! ## Members -/

/-- Declares a member (`add_member`). The class body does not change. -/
def declareMember (c : ClassId) (name : String) (flags : Flags SymbolFlag) : Build SymbolId := do
  let s ← newSymbol { (default : Symbol) with name, owner := .cls c, flags }
  modifyClass c fun c => { c with decls := c.decls ++ [s] }
  return s

/-- Declares a parameter of a method, a constructor or a closure (`add_param`). -/
def declareParam (owner : SymbolId) (name : String) : Build SymbolId := do
  let s ← newSymbol
    { (default : Symbol) with name, owner := .symbol owner, flags := .ofList [.param] }
  modifySymbol owner fun o => { o with params := o.params ++ [s] }
  return s

/-- Declares parameters in their order (`add_params`). -/
def declareParams (owner : SymbolId) (names : List String) : Build Unit :=
  names.forM fun name => do let _ ← declareParam owner name

/-- Declares a symbol with its parameters, which is no member of a class. -/
def declareInside (owner : Owner) (name : String) (flags : Flags SymbolFlag)
    (params : List String) : Build SymbolId := do
  let s ← newSymbol { (default : Symbol) with name, owner, flags }
  declareParams s params
  return s

/-- Appends a statement to the class body, if the source of the class is known (`add_stat`). -/
def appendStat (c : ClassId) (stat : ExprId) : Build Unit :=
  modifyClass c fun c =>
    { c with template := c.template.map fun t => { t with body := t.body ++ [stat] } }

/-- Declares a member and defines it in the class body (`add_defined_member`). -/
def define (c : ClassId) (name : String) (flags : Flags SymbolFlag) : Build SymbolId := do
  let s ← declareMember c name flags
  let stat ← newExpr (if flags.has .method then .methodDef s else .valDef s)
  appendStat c stat
  return s

/-- Defines a method and declares its parameters (`add_method_with_flags`). -/
def defineMethod (c : ClassId) (name : String) (params : List String) (flags : Flags SymbolFlag) :
    Build SymbolId := do
  let s ← define c name flags
  declareParams s params
  return s

/-- Declares an abstract method (`add_abstract_method`). -/
def declareMethod (c : ClassId) (name : String) (params : List String) : Build SymbolId := do
  let s ← declareMember c name (.ofList [.method, .deferred])
  declareParams s params
  return s

/-- The markers of a primary constructor. -/
def primaryConstructorFlags : Flags SymbolFlag :=
  .ofList [.method, .constructor, .primaryConstructor]

/-! ## Classes -/

/-- Enters a member class into the class that it is a member of. -/
def enterMember (c : ClassId) : Site → Build Unit
  | .cls owner => do
    modifyClass owner fun o => { o with memberClasses := o.memberClasses ++ [c] }
    appendStat owner (← newExpr (.typeDef (some c)))
  | _ => return

/-- Declares the primary constructor, whose body is the template if the source is known. -/
def definePrimaryConstructor (c : ClassId) (hasSource : Bool) : Build Unit := do
  let ctor ← declareMember c "<init>" primaryConstructorFlags
  modifyClass c fun c => { c with primaryConstructor := some ctor }
  if hasSource then
    let template ← newExpr (.template c)
    modifySymbol ctor fun s => { s with body := some template }

/-- Defines a class (`add_class_with_flags`). An interface of a foreign language has no constructor,
    and without source a class has no template. -/
def defineClass (name : String) (site : Site) (flags : Flags ClassFlag) (hasSource : Bool) :
    Build ClassId := do
  let owner := (← get).siteOwner site
  let c ← newClass { (default : ClassDef) with name, flags, owner := some owner }
  enterMember c site
  unless flags.has .foreignInterface do
    definePrimaryConstructor c hasSource
  if hasSource then
    modifyClass c fun c => { c with template := some ⟨[], []⟩ }
  return c

/-- Adds a class parameter: a parameter of the primary constructor and a field that stores it
    (`add_class_param`). -/
def defineClassParam (c : ClassId) (name : String) : Build SymbolId := do
  let _ ← declareParam (← primaryConstructor c) name
  declareMember c name (.ofList [.paramAccessor])

/-- Lists a parent of a class, with the arguments for its constructor (`extend_with_prefix`). -/
def extend (c : ClassId) (parent : ClassRef) (args : List Arg) : Build Unit := do
  let ctor := ((← get).cls parent.cls).primaryConstructor
  modifyClass c fun c =>
    { c with
      parents := c.parents ++ [parent.cls]
      template := c.template.map fun t =>
        { t with parents := t.parents ++ [⟨.empty, parent, ctor, args⟩] } }

/-! ## Expressions -/

/-- Sets the body of a declared function and adds its literal (`closure`). -/
def addClosure (function : SymbolId) (body : ExprId) : Build ExprId := do
  modifySymbol function fun s => { s with body := some body }
  newExpr (.closure ((← get).symbol function).params body)

/-- Adds a call of another constructor on the instance under construction
    (`this_constructor_call`). -/
def addConstructorCall (c : ClassId) (ctor : SymbolId) (args : List Arg) : Build ExprId := do
  let this ← newExpr (.thisOf c)
  newExpr (.call (.select this ctor) args)

/-! ## The initial program -/

/-- Adds one of the classes that every program has, with its methods. -/
def addBuiltin (name : String) (owner : Option ClassId) (flags : List ClassFlag)
    (methods : List (String × List SymbolFlag)) : Build ClassId := do
  let c ← newClass { (default : ClassDef) with name, owner, flags := .ofList flags }
  methods.forM fun (name, flags) => do let _ ← declareMember c name (.ofList flags)
  return c

/-- Adds the root package, `Any`, `Object` and the trait of functions, in this order (`new`). -/
def addBuiltins : Build Unit := do
  let _ ← addBuiltin "<root>" none [.package] []
  let _ ← addBuiltin "Any" (some .root) [.root, .abstractClass]
    (["==", "!=", "equals", "hashCode", "toString", "getClass", "isInstanceOf", "asInstanceOf",
      "##"].map (·, [.method]))
  let object ← addBuiltin "Object" (some .root) [.root] []
  let ctor ← declareMember object "<init>" primaryConstructorFlags
  modifyClass object fun c => { c with parents := [.any], primaryConstructor := some ctor }
  ["eq", "ne", "synchronized"].forM fun name => do
    let _ ← declareMember object name (.ofList [.method])
  let _ ← addBuiltin "Function" (some .root) [.trait, .abstractClass]
    [("apply", [.method, .deferred])]

end Build

/-- The method `apply` of functions; calling it on a closure runs the closure. -/
def SymbolId.functionApply : SymbolId := ⟨13⟩

/-- The program before any command. -/
def Program.initial : Program :=
  match Build.addBuiltins.run ⟨#[], #[], #[]⟩ with
  | .ok (_, p) => p
  | .error _ => default

end ObjectInit
