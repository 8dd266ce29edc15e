import ObjectInit.Program.Tree

/-!
# Programs

A program is three tables, of its classes, symbols and expressions. This file looks things up in
them: `Program.homeClass` climbs from a symbol to its class, `Program.isInside` climbs through the
classes around a class.
-/

namespace ObjectInit

/-- A resolved program. -/
structure Program where
  classes : Array ClassDef
  symbols : Array Symbol
  exprs : Array Expr
  deriving Inhabited

namespace Program

variable (p : Program)

def cls (c : ClassId) : ClassDef := p.classes.getD c.index default

def symbol (s : SymbolId) : Symbol := p.symbols.getD s.index default

def expr (e : ExprId) : Expr := p.exprs.getD e.index default

theorem cls_of_size_le {p : Program} {c : ClassId} (h : p.classes.size ≤ c.index) :
    p.cls c = default := by
  rw [cls, Array.getD, dif_neg (Nat.not_lt.2 h)]

theorem expr_of_size_le {p : Program} {e : ExprId} (h : p.exprs.size ≤ e.index) :
    p.expr e = default := by
  rw [expr, Array.getD, dif_neg (Nat.not_lt.2 h)]

/-- All classes, those every program has included. -/
def classIds : List ClassId := (List.range p.classes.size).map ClassId.mk

/-- All expressions. -/
def exprIds : List ExprId := (List.range p.exprs.size).map ExprId.mk

/-- The first class with this simple name (`find_class`). -/
def classNamed? (name : String) : Option ClassId :=
  p.classIds.find? fun c => (p.cls c).name == name

/-- The first member of this name that is declared in the class itself (`find_decl`). -/
def declNamed? (c : ClassId) (name : String) : Option SymbolId :=
  (p.cls c).decls.find? fun s => (p.symbol s).name == name

/-! ## Nesting -/

/-- The class that is reached from `s` in at most `n` steps from a symbol to its owner. -/
def climb : Nat → SymbolId → ClassId
  | 0, _ => .root
  | n + 1, s =>
    match (p.symbol s).owner with
    | .cls c => c
    | .symbol owner => climb n owner

/-- The class that contains the symbol (`enclosing_class`). Where no symbol owns itself, not even
    through others, the climb passes each symbol at most once and so ends at a class. -/
def homeClass (s : SymbolId) : ClassId := p.climb p.symbols.size s

/-- The class around a class (`lexically_enclosing_class`). The root package is around itself. -/
def classAround (c : ClassId) : ClassId := (p.cls c).owner.getD .root

/-- `container` is met among `c` and the `n` classes around it. -/
def reaches (container : ClassId) : Nat → ClassId → Bool
  | 0, c => c == container
  | n + 1, c =>
    c == container ||
      match (p.cls c).owner with
      | none => false
      | some owner => reaches container n owner

/-- The class is `container` or lies inside it (`is_contained_in`). -/
def isInside (c container : ClassId) : Bool := p.reaches container p.classes.size c

/-! ## Properties of classes -/

/-- There is only one instance of the class, as for packages and singleton objects
    (`is_static_owner`). -/
def hasOneInstance (c : ClassId) : Bool :=
  (p.cls c).flags.has .package || (p.cls c).flags.has .singleton

def isPackage (c : ClassId) : Bool := (p.cls c).isPackage

/-- The class is `Any` or `Object` (`is_root_class`). -/
def isRoot (c : ClassId) : Bool := (p.cls c).flags.has .root

end Program

end ObjectInit
