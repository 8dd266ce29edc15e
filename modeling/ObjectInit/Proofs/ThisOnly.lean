import ObjectInit.Analysis.Evaluation
import ObjectInit.Proofs.Bases

/-!
# Code that names members of its own instance only

In a part of the language every use of a member has the form `this.x`, and no object is created on
the way. What such code can read is then a matter of the trees alone: an expression leads to its
parts and, where it names a method or a lazy field, to the body of the member that stands for it in
the class under construction. Initialization is in order if no statement of a class body leads to
the read of a strict field that only a later statement defines.

This file describes the part of the language (`Program.ThisOnly`) and the reads that come too early
(`Program.ReadsEarly`).
-/

namespace ObjectInit

/-! ## Where code leads -/

/-- An expression with the class in whose code it stands. -/
structure Code where
  expr : ExprId
  cls : ClassId
  deriving DecidableEq

/-- The expressions that are evaluated as parts of an expression, in their order. The target of an
    assignment is not evaluated. -/
def Node.parts : Node → List ExprId
  | .assign _ value => [value]
  | .ifElse cond onTrue onFalse => [cond, onTrue, onFalse]
  | .matchOn scrutinee branches => scrutinee :: branches
  | .whileLoop cond body => [cond, body]
  | .tryCatch body handlers finalizer => body :: (handlers ++ finalizer.toList)
  | .sequence elems => elems
  | .block stats result => stats ++ [result]
  | .ret e => [e]
  | _ => []

/-- The member that an expression names through `this`, without arguments. -/
def Node.member? : Node → Option SymbolId
  | .ident s (.member (.thisOf _) _) => some s
  | .call (.ident s (.thisOf _)) [] => some s
  | _ => none

namespace Program

variable (p : Program) (c : ClassId)

/-- A use of the member evaluates its body: it is a method or a lazy field. -/
def isEvaluated (s : SymbolId) : Bool := (p.symbol s).isMethod || (p.symbol s).isLazy

/-- The code of a member that is evaluated. -/
def bodyOf (s : SymbolId) : List Code := (p.symbol s).body.toList.map (⟨·, p.homeClass s⟩)

/-- What the evaluation of code in an instance of `c` leads to next. -/
def next (k : Code) : List Code :=
  (p.expr k.expr).node.parts.map (⟨·, k.cls⟩) ++
    match (p.expr k.expr).node.member? with
    | some s =>
      if p.isEvaluated (p.virtualTarget c s) then p.bodyOf (p.virtualTarget c s) else []
    | none => []

/-- The code is reached from other code in any number of steps. -/
def Reaches : Code → Code → Prop := Relation.ReflTransGen fun k k' => k' ∈ p.next c k

/-- The strict field of an instance of `c` that an expression reads. -/
def readOf? (e : ExprId) : Option SymbolId :=
  match (p.expr e).node.member? with
  | some s => if p.isEvaluated (p.virtualTarget c s) then none else some (p.virtualTarget c s)
  | none => none

/-- The error that a field is read before it is initialized. Fields of classes without source are
    not known at all. -/
def readError (f : SymbolId) : Place → SafetyError :=
  if (p.cls (p.homeClass f)).hasSource then
    .readUninitialized (p.symbol f).name
  else
    .callUnknown (p.symbol f).name

/-! ## The part of the language -/

/-- The member that stands for a named one can be used: what has to be evaluated has a body, and a
    method is no constructor. -/
def CanUse (s : SymbolId) : Prop :=
  (p.isEvaluated (p.virtualTarget c s) = true →
      (p.symbol (p.virtualTarget c s)).body.isSome = true) ∧
    ((p.symbol (p.virtualTarget c s)).isMethod = true →
      (p.symbol (p.virtualTarget c s)).isPrimaryConstructor = false)

/-- The form of the expression is part of the language: literals and wildcards; members of the own
    class named through `this`, where a field stands for no method; assignments to identifiers;
    conditionals, matches, loops, handlers, sequences, blocks and returns. -/
def Permits (k : Code) : Prop :=
  match (p.expr k.expr).node with
  | .wildcard | .literal => True
  | .ident s path =>
    path = .member (.thisOf k.cls) s ∧ p.CanUse c s ∧
      ((p.symbol s).isMethod = false → (p.symbol (p.virtualTarget c s)).isMethod = false)
  | .call (.ident s path) args => path = .thisOf k.cls ∧ args = [] ∧ p.CanUse c s
  | .assign target _ => ∃ s path, (p.expr target).node = .ident s path
  | .ifElse .. | .matchOn .. | .whileLoop .. | .tryCatch .. | .sequence _ | .block .. | .ret _ =>
    True
  | _ => False

/-- All code that is reached is part of the language. -/
def IsThisOnly (k : Code) : Prop := ∀ k', p.Reaches c k k' → p.Permits c k'

/-! ## Class bodies -/

/-- The statements of the body of a class. -/
def bodyStatements (b : ClassId) : List Code :=
  ((p.cls b).template.elim [] Template.body).map (⟨·, b⟩)

/-- The statements of all class bodies, in the order in which an instance of `c` is initialized:
    those of the bases first. -/
def statements : List Code := (p.cls c).linearization.reverse.flatMap p.bodyStatements

/-- The code that a statement of a class body evaluates. -/
def start? (stat : Code) : Option Code :=
  match (p.expr stat.expr).node with
  | .valDef f => if (p.symbol f).isLazy then none else (p.symbol f).body.map (⟨·, stat.cls⟩)
  | .methodDef _ | .typeDef _ => none
  | _ => some stat

/-- The strict field that a statement of a class body defines. -/
def defined? (stat : Code) : Option SymbolId :=
  match (p.expr stat.expr).node with
  | .valDef f => if (p.symbol f).isLazy then none else some f
  | _ => none

/-- One of the statements leads to an expression that reads a strict field, and no earlier one
    defines the field. -/
def ReadsEarly (stats : List Code) (k : Code) (f : SymbolId) : Prop :=
  ∃ before stat after start, stats = before ++ stat :: after ∧ p.start? stat = some start ∧
    p.Reaches c start k ∧ p.readOf? c k.expr = some f ∧ f ∉ before.filterMap p.defined?

/-- A class at the top level, without parameters, whose constructor runs its own template. The
    template lists its parents without prefix and without arguments, and defines fields of its own
    class, each at most once. -/
structure PlainBase (p : Program) (b : ClassId) (t : Template) : Prop where
  topLevel : (p.cls b).owner = some .root
  template : (p.cls b).template = some t
  constructor : ∃ ctor e, (p.cls b).primaryConstructor = some ctor ∧
    (p.symbol ctor).body = some e ∧ (p.expr e).node = .template b
  params : p.paramFields b = []
  parents : ∀ parent ∈ t.parents, parent.type.path = .bare ∧ parent.args = []
  ownFields : ∀ stat ∈ t.body, ∀ f, p.defined? ⟨stat, b⟩ = some f → (p.symbol f).owner = .cls b
  distinct : (t.body.filterMap fun stat => p.defined? ⟨stat, b⟩).Nodup

/-- The construction of instances of `c` stays within the part of the language. -/
structure ThisOnly (p : Program) (c : ClassId) : Prop where
  isClass : (p.cls c).isTrait = false
  bases : ∀ b ∈ (p.cls c).linearization, b ≠ .object → b ≠ .any → ∃ t, p.PlainBase b t
  /-- All bases that are no traits are super classes. -/
  chain : ∀ b ∈ (p.cls c).linearization, (p.cls b).isTrait = false → b ≠ .object → b ≠ .any →
    Relation.ReflTransGen p.IsSuperClass c b
  code : ∀ stat ∈ p.statements c, ∀ start, p.start? stat = some start → p.IsThisOnly c start

end Program

end ObjectInit
