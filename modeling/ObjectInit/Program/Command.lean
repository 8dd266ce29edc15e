import ObjectInit.Program.Build

/-!
# Commands

A `Command` is one step of building a program, as data: `Command.run` carries it out and tells which
item it created. Every program is `Program.initial` after some commands, completed by
`Program.finish`.
-/

namespace ObjectInit

/-- The kinds of fields that are defined in a class body. -/
inductive FieldKind where
  | value
  | variable
  | lazy
  | privateValue
  deriving DecidableEq

/-- The markers of a field of this kind. -/
def FieldKind.flags : FieldKind → Flags SymbolFlag
  | .value => .none
  | .variable => .ofList [.mutable]
  | .lazy => .ofList [.lazy]
  | .privateValue => .ofList [.privateMember]

/-- One step in building a program. -/
inductive Command where
  /-- Defines a class, trait or object (`add_class_with_flags`). -/
  | defineClass (name : String) (site : Site) (flags : Flags ClassFlag) (hasSource : Bool)
  | setClassSpan (cls : ClassId) (span : Span)
  /-- Lists a parent (`extend_with_prefix`). The first one that is listed takes the place of the
      super class. If it is a trait, `Program.finish` puts `Object` in front of it, whatever comes
      after it. -/
  | extend (cls : ClassId) (parent : ClassRef) (args : List Arg)
  /-- Declares a member without defining it in the class body (`add_member`). -/
  | declareMember (cls : ClassId) (name : String) (flags : Flags SymbolFlag)
  | declareParam (owner : SymbolId) (name : String)
  /-- Adds a class parameter and creates the field that stores it (`add_class_param`). -/
  | defineClassParam (cls : ClassId) (name : String)
  | defineField (cls : ClassId) (name : String) (kind : FieldKind)
  | defineMethod (cls : ClassId) (name : String) (params : List String) (flags : Flags SymbolFlag)
  | declareMethod (cls : ClassId) (name : String) (params : List String)
  | defineConstructor (cls : ClassId) (params : List String)
  | declareLocal (owner : SymbolId) (name : String)
  | declareLocalMethod (owner : SymbolId) (name : String) (params : List String)
  /-- Declares the function of a function literal (`add_anonymous_function`). -/
  | declareFunction (owner : Owner) (params : List String)
  | setBody (symbol : SymbolId) (body : ExprId)
  | setSymbolSpan (symbol : SymbolId) (span : Span)
  | appendStat (cls : ClassId) (stat : ExprId)
  | setSpan (expr : ExprId) (span : Span)
  | wildcard
  | literal
  | thisOf (cls : ClassId)
  /-- A plain reference to a local, a parameter or a member of an enclosing class. -/
  | ident (symbol : SymbolId)
  /-- A reference to a member that is reached through a path (`ident_with_prefix`). -/
  | identFrom (base : Path) (symbol : SymbolId)
  | select (qualifier : ExprId) (symbol : SymbolId)
  | call (qualifier : ExprId) (method : SymbolId) (args : List Arg)
  /-- A call of a method that is named alone (`call_ident`). -/
  | callNamed (method : SymbolId) (args : List Arg)
  | superCall (home base : ClassId) (method : SymbolId) (args : List Arg)
  /-- A call of another constructor of the same class (`this_constructor_call`). -/
  | constructorCall (cls : ClassId) (ctor : SymbolId) (args : List Arg)
  /-- An instance of an unqualified class, made by its primary constructor. -/
  | newInstance (cls : ClassId) (args : List Arg)
  | newInstanceWith (type : ClassRef) (ctor : SymbolId) (args : List Arg)
  | assign (target value : ExprId)
  | ifElse (cond onTrue onFalse : ExprId)
  | matchOn (scrutinee : ExprId) (branches : List ExprId)
  | whileLoop (cond body : ExprId)
  | tryCatch (body : ExprId) (handlers : List ExprId) (finalizer : Option ExprId)
  | sequence (elems : List ExprId)
  /-- The literal of a declared function, which gets this body. -/
  | closure (function : SymbolId) (body : ExprId)
  | block (stats : List ExprId) (expr : ExprId)
  | typed (expr : ExprId) (unchecked : Bool)
  | annotated (expr : ExprId) (unchecked : Bool)
  | ret (expr : ExprId)
  | namedArg (expr : ExprId)
  | valDef (symbol : SymbolId)
  | methodDef (symbol : SymbolId)
  | typeDef (cls : Option ClassId)

/-- The item that a command creates or returns. -/
inductive Created where
  | nothing
  | cls (cls : ClassId)
  | symbol (symbol : SymbolId)
  | expr (expr : ExprId)
  deriving DecidableEq

/-- The path of a plain reference to a symbol: a member is reached from its class, everything else
    needs no path (`ident_type`). -/
def Program.plainPath (p : Program) (s : SymbolId) : Path :=
  match (p.symbol s).owner with
  | .cls c => .thisOf c
  | .symbol _ => .bare

open Build in
/-- Carries out a command and tells what it created. -/
def Command.run : Command → Build Created
  | .defineClass name site flags hasSource => .cls <$> Build.defineClass name site flags hasSource
  | .setClassSpan c span => do modifyClass c fun c => { c with span }; return .nothing
  | .extend c parent args => do Build.extend c parent args; return .nothing
  | .declareMember c name flags => .symbol <$> Build.declareMember c name flags
  | .declareParam owner name => .symbol <$> Build.declareParam owner name
  | .defineClassParam c name => .symbol <$> Build.defineClassParam c name
  | .defineField c name kind => .symbol <$> define c name kind.flags
  | .defineMethod c name params flags =>
    .symbol <$> Build.defineMethod c name params (flags.union (.ofList [.method]))
  | .declareMethod c name params => .symbol <$> Build.declareMethod c name params
  | .defineConstructor c params =>
    .symbol <$> Build.defineMethod c "<init>" params (.ofList [.method, .constructor])
  | .declareLocal owner name => .symbol <$> declareInside (.symbol owner) name .none []
  | .declareLocalMethod owner name params =>
    .symbol <$> declareInside (.symbol owner) name (.ofList [.method]) params
  | .declareFunction owner params =>
    .symbol <$> declareInside owner "$anonfun" (.ofList [.method]) params
  | .setBody s body => do modifySymbol s fun s => { s with body := some body }; return .nothing
  | .setSymbolSpan s span => do modifySymbol s fun s => { s with span }; return .nothing
  | .appendStat c stat => do Build.appendStat c stat; return .nothing
  | .setSpan e span => do modifyExpr e fun e => { e with span }; return .expr e
  | .wildcard => .expr <$> newExpr .wildcard
  | .literal => .expr <$> newExpr .literal
  | .thisOf c => .expr <$> newExpr (.thisOf c)
  | .ident s => do return .expr (← newExpr (.ident s (.member ((← get).plainPath s) s)))
  | .identFrom base s => .expr <$> newExpr (.ident s (.member base s))
  | .select qualifier s => .expr <$> newExpr (.select qualifier s)
  | .call qualifier method args => .expr <$> newExpr (.call (.select qualifier method) args)
  | .callNamed method args => do
    return .expr (← newExpr (.call (.ident method ((← get).plainPath method)) args))
  | .superCall home base method args => .expr <$> newExpr (.call (.super home base method) args)
  | .constructorCall c ctor args => .expr <$> addConstructorCall c ctor args
  | .newInstance c args => do
    return .expr (← newExpr (.new ⟨.bare, c⟩ (← primaryConstructor c) args))
  | .newInstanceWith type ctor args => .expr <$> newExpr (.new type ctor args)
  | .assign target value => .expr <$> newExpr (.assign target value)
  | .ifElse cond onTrue onFalse => .expr <$> newExpr (.ifElse cond onTrue onFalse)
  | .matchOn scrutinee branches => .expr <$> newExpr (.matchOn scrutinee branches)
  | .whileLoop cond body => .expr <$> newExpr (.whileLoop cond body)
  | .tryCatch body handlers finalizer => .expr <$> newExpr (.tryCatch body handlers finalizer)
  | .sequence elems => .expr <$> newExpr (.sequence elems)
  | .closure function body => .expr <$> addClosure function body
  | .block stats e => .expr <$> newExpr (.block stats e)
  | .typed e unchecked => .expr <$> newExpr (.typed e unchecked)
  | .annotated e unchecked => .expr <$> newExpr (.annotated e unchecked)
  | .ret e => .expr <$> newExpr (.ret e)
  | .namedArg e => .expr <$> newExpr (.namedArg e)
  | .valDef s => .expr <$> newExpr (.valDef s)
  | .methodDef s => .expr <$> newExpr (.methodDef s)
  | .typeDef c => .expr <$> newExpr (.typeDef c)

/-- Carries out commands one after the other. -/
def Command.runAll (commands : List Command) : Build Unit :=
  commands.forM fun command => do let _ ← command.run

end ObjectInit
