import ObjectInit.Program.Basic

/-!
# Members

The members that a class declares or inherits, and which member a name stands for in the instances
of a class: the first one that fits in the order of the linearization (`Program.virtualTarget`), or
in a tail of it for calls through `super` (`Program.superTarget`).
-/

namespace ObjectInit

namespace Program

variable (p : Program)

/-! ## Declarations -/

/-- The methods of the root classes are known to be safe, although they have no source
    (`can_ignore_method_call`). -/
def isHarmless (method : SymbolId) : Bool :=
  match (p.symbol method).owner with
  | .cls c => p.isRoot c
  | .symbol _ => false

/-- The fields that store the parameters of a class (`param_accessors`). -/
def paramFields (c : ClassId) : List SymbolId :=
  (p.cls c).decls.filter fun s => (p.symbol s).isParamAccessor

/-- The fields that the class declares, those of its parameters included. -/
def fields (c : ClassId) : List SymbolId :=
  (p.cls c).decls.filter fun s => !(p.symbol s).isMethod

/-! ## Bases -/

/-- The traits that the class adds to its super class, the base-most first. -/
def mixins (c superClass : ClassId) : List ClassId :=
  (((p.cls c).linearization.drop 1).takeWhile (· != superClass)).reverse

/-- The members of an object that its promotion (`try_promote`) tries out: everything that the
    classes with source declare, abstract members and constructors excepted. -/
def triedMembers (c : ClassId) : List SymbolId :=
  let declared := ((p.cls c).linearization.filter fun base => (p.cls base).hasSource).flatMap
    fun base => (p.cls base).decls
  declared.filter fun s => !(p.symbol s).isDeferred && !(p.symbol s).isConstructor

/-- The fields among them that can be read from outside. -/
def triedFields (c : ClassId) : List SymbolId :=
  (p.triedMembers c).filter fun s =>
    let symbol := p.symbol s
    !symbol.isMethod && !symbol.isPrivate && !symbol.isProtected &&
      (symbol.hasSource || symbol.isParamAccessor)

/-- The methods among them whose source is known. -/
def triedMethods (c : ClassId) : List SymbolId :=
  (p.triedMembers c).filter fun s => (p.symbol s).isMethod && (p.symbol s).hasSource

/-- Instances of member classes could have the object as their outer instance. -/
def hasMemberClasses (c : ClassId) : Bool :=
  (p.cls c).linearization.any fun base => !(p.cls base).memberClasses.isEmpty

/-! ## Dispatch -/

/-- `candidate` implements `s`: it has the same name and can be inherited, or it is `s` itself. -/
def implements (s candidate : SymbolId) : Bool :=
  let c := p.symbol candidate
  (c.name == (p.symbol s).name && !c.isDeferred && !c.isConstructor && !c.isPrivate) ||
    (candidate == s && !c.isDeferred)

/-- The first declaration in the classes, taken in their order, that implements `s`
    (`find_overriding`). -/
def implementation? (bases : List ClassId) (s : SymbolId) : Option SymbolId :=
  bases.findSome? fun base => (p.cls base).decls.find? (p.implements s)

/-- The member that `s` stands for in instances of a class (`resolve`). Private members,
    constructors and local definitions stand for themselves. -/
def virtualTarget (c : ClassId) (s : SymbolId) : SymbolId :=
  let symbol := p.symbol s
  if symbol.isPrivate || symbol.isConstructor || symbol.isLocal then
    s
  else
    (p.implementation? (p.cls c).linearization s).getD s

/-- The bases of a class from `base` on, or those of `base` if it is no base of the class. -/
def basesFrom (c base : ClassId) : List ClassId :=
  let bases := (p.cls c).linearization
  if bases.contains base then
    bases.dropWhile (· != base)
  else
    (p.cls base).linearization

/-- The member that `s` stands for in instances of a class when it is called through `super`
    (`resolve_super`). -/
def superTarget (c base : ClassId) (s : SymbolId) : SymbolId :=
  (p.implementation? (p.basesFrom c base) s).getD s

end Program

end ObjectInit
