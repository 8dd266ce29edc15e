import ObjectInit.Program.Flags
import ObjectInit.Source.Files

/-!
# Trees

The resolved trees of a program: paths to terms, expressions, symbols and classes. They refer to
each other by number, in the order in which they are created; `Program` holds the tables that the
numbers point into. Each kind of number is a type of its own, ordered by the numbers.

The name that something has in the checker's source, where it is another one, stands in parentheses.
-/

namespace ObjectInit

/-! ## Numbers -/

/-- A class, trait, singleton object or package. -/
structure ClassId where
  index : Nat
  deriving DecidableEq, Inhabited

/-- A field, method, constructor, parameter or local definition. -/
structure SymbolId where
  index : Nat
  deriving DecidableEq, Inhabited

/-- An expression. -/
structure ExprId where
  index : Nat
  deriving DecidableEq, Inhabited

/-! ### Order -/

instance : Ord ClassId := ⟨compareOn ClassId.index⟩

instance : Ord SymbolId := ⟨compareOn SymbolId.index⟩

instance : Ord ExprId := ⟨compareOn ExprId.index⟩

instance : Std.TransOrd ClassId := inferInstanceAs (Std.TransCmp (compareOn ClassId.index))

instance : Std.TransOrd SymbolId := inferInstanceAs (Std.TransCmp (compareOn SymbolId.index))

instance : Std.TransOrd ExprId := inferInstanceAs (Std.TransCmp (compareOn ExprId.index))

instance : Std.LawfulEqOrd ClassId where
  eq_of_compare h := congrArg ClassId.mk (Nat.compare_eq_eq.1 h)

instance : Std.LawfulEqOrd SymbolId where
  eq_of_compare h := congrArg SymbolId.mk (Nat.compare_eq_eq.1 h)

instance : Std.LawfulEqOrd ExprId where
  eq_of_compare h := congrArg ExprId.mk (Nat.compare_eq_eq.1 h)

/-! ### Written forms -/

/-- The written form of a class number. -/
def ClassId.label (c : ClassId) : String := "class#" ++ toString c.index

/-- The written form of a symbol number. -/
def SymbolId.label (s : SymbolId) : String := "sym#" ++ toString s.index

/-- The written form of an expression number. -/
def ExprId.label (e : ExprId) : String := "expr#" ++ toString e.index

namespace ClassId

/-- The root package, which contains every top-level class. -/
def root : ClassId := ⟨0⟩

/-- The class `Any`, which has no parents. -/
def any : ClassId := ⟨1⟩

/-- The class `Object`, the super class of every class whose first parent is no class. -/
def object : ClassId := ⟨2⟩

/-- The trait of functions. -/
def function : ClassId := ⟨3⟩

end ClassId

/-! ## Paths -/

/-- How a term is reached (`Type`). Paths tell the receiver of an identifier and the outer instance
    of a class. -/
inductive Path where
  /-- Nothing: the path before a local or a parameter, or before an unqualified class. -/
  | bare
  /-- A literal. -/
  | constant
  /-- The instance of an enclosing class. -/
  | thisOf (cls : ClassId)
  /-- A member selected from another path. -/
  | member (base : Path) (symbol : SymbolId)
  /-- A parameter of a dependent method type. -/
  | paramRef
  deriving DecidableEq, Inhabited

/-- The part of a member's path before the member (`prefix`). -/
def Path.base? : Path → Option Path
  | .member base _ => some base
  | _ => none

/-- A class together with the path it was selected from (`TypeRef`). -/
structure ClassRef where
  path : Path
  cls : ClassId
  deriving DecidableEq, Inhabited

/-- The class was selected from something (`has_prefix`). -/
def ClassRef.isQualified (r : ClassRef) : Bool := r.path != .bare

/-! ## Expressions -/

/-- An argument of a call. The callee evaluates an argument by name when it uses it. -/
structure Arg where
  expr : ExprId
  byName : Bool
  deriving DecidableEq, Inhabited

/-- What a call calls. -/
inductive Callee where
  /-- A method of a base class, called through `super` in the code of `home`. The search for the
      method starts at `base`. -/
  | super (home base : ClassId) (method : SymbolId)
  /-- A method of the value of an expression. -/
  | select (qualifier : ExprId) (method : SymbolId)
  /-- A method named alone. The path is bare for local methods. -/
  | ident (method : SymbolId) (path : Path)
  deriving DecidableEq

/-- The form of an expression (`ExprKind`). -/
inductive Node where
  /-- The default initializer. -/
  | wildcard
  | literal
  /-- A local, a parameter or a member, with the path of the symbol itself. -/
  | ident (symbol : SymbolId) (path : Path)
  /-- The instance of an enclosing class. -/
  | thisOf (cls : ClassId)
  | select (qualifier : ExprId) (symbol : SymbolId)
  | call (callee : Callee) (args : List Arg)
  | new (type : ClassRef) (ctor : SymbolId) (args : List Arg)
  /-- The target is an identifier or a selection. -/
  | assign (target value : ExprId)
  | ifElse (cond onTrue onFalse : ExprId)
  /-- A pattern match; the branches are the bodies of its clauses. -/
  | matchOn (scrutinee : ExprId) (branches : List ExprId)
  | whileLoop (cond body : ExprId)
  | tryCatch (body : ExprId) (handlers : List ExprId) (finalizer : Option ExprId)
  /-- A sequence of elements, such as the values of a repeated parameter. -/
  | sequence (elems : List ExprId)
  /-- A function literal. -/
  | closure (params : List SymbolId) (body : ExprId)
  | block (stats : List ExprId) (expr : ExprId)
  /-- A type ascription; an unchecked one exempts the expression from the analysis. -/
  | typed (expr : ExprId) (unchecked : Bool)
  /-- An annotated expression; an unchecked one is exempt from the analysis. -/
  | annotated (expr : ExprId) (unchecked : Bool)
  | ret (expr : ExprId)
  | namedArg (expr : ExprId)
  /-- The definition of a value, whose initializer is the body of the symbol. -/
  | valDef (symbol : SymbolId)
  | methodDef (symbol : SymbolId)
  /-- The definition of a type, and its class if it is one. -/
  | typeDef (cls : Option ClassId)
  /-- The template of a class, which is the body of its primary constructor. -/
  | template (cls : ClassId)
  deriving DecidableEq, Inhabited

structure Expr where
  span : Span
  node : Node
  deriving DecidableEq, Inhabited

/-! ## Symbols -/

/-- What a symbol is defined in (`SymbolOwner`). -/
inductive Owner where
  /-- A member of a class. -/
  | cls (cls : ClassId)
  /-- A parameter of a symbol, or a definition inside its body. -/
  | symbol (symbol : SymbolId)
  deriving DecidableEq

structure Symbol where
  name : String
  span : Span
  owner : Owner
  flags : Flags SymbolFlag
  /-- The parameters of a method or constructor. -/
  params : List SymbolId
  /-- The initializer or the body, if the source is known. -/
  body : Option ExprId
  deriving DecidableEq

namespace Symbol

instance : Inhabited Symbol := ⟨"", .empty, .cls .root, .none, [], none⟩

def isMethod (s : Symbol) : Bool := s.flags.has .method

def isConstructor (s : Symbol) : Bool := s.flags.has .constructor

def isPrimaryConstructor (s : Symbol) : Bool := s.flags.has .primaryConstructor

def isLazy (s : Symbol) : Bool := s.flags.has .lazy

def isDeferred (s : Symbol) : Bool := s.flags.has .deferred

def isPrivate (s : Symbol) : Bool := s.flags.has .privateMember

def isProtected (s : Symbol) : Bool := s.flags.has .protectedMember

def isParamAccessor (s : Symbol) : Bool := s.flags.has .paramAccessor

def hasSource (s : Symbol) : Bool := s.body.isSome

/-- The symbol belongs to another symbol and not to a class. -/
def isLocal (s : Symbol) : Bool :=
  match s.owner with
  | .cls _ => false
  | .symbol _ => true

end Symbol

/-! ## Classes -/

/-- A parent as it is listed in a class definition. -/
structure Parent where
  span : Span
  type : ClassRef
  /-- The constructor to call, if the parent has one. -/
  ctor : Option SymbolId
  args : List Arg
  deriving DecidableEq, Inhabited

/-- The definition of a class: the calls of its parents' constructors, then its statements in the
    order of their declaration. -/
structure Template where
  parents : List Parent
  body : List ExprId
  deriving DecidableEq, Inhabited

/-- A class with what is declared in it (`ClassInfo`). -/
structure ClassDef where
  name : String
  span : Span
  flags : Flags ClassFlag
  /-- The lexically enclosing class. The root package has none. -/
  owner : Option ClassId
  /-- The parents, the super class first. -/
  parents : List ClassId
  /-- The base classes in the order of their linearization, which starts with the class itself. -/
  linearization : List ClassId
  /-- The fields, methods and constructors declared in the class. -/
  decls : List SymbolId
  /-- The classes declared as members of the class. -/
  memberClasses : List ClassId
  primaryConstructor : Option SymbolId
  /-- The definition, if the source is known. -/
  template : Option Template
  deriving DecidableEq

namespace ClassDef

instance : Inhabited ClassDef := ⟨"", .empty, .none, none, [], [], [], [], none, none⟩

def isTrait (c : ClassDef) : Bool := c.flags.has .trait

def isPackage (c : ClassDef) : Bool := c.flags.has .package

def hasSource (c : ClassDef) : Bool := c.template.isSome

/-- The first parent. -/
def superClass (c : ClassDef) : Option ClassId := c.parents.head?

end ClassDef

end ObjectInit
