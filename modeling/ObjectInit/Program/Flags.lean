/-!
# Flags

A set of markers out of a fixed enumeration. The members are kept in the order of the enumeration,
so two sets with the same members are equal and are written alike.

Main results:

* `Flags.has_ofList`, `Flags.has_union`: which markers a list and a union have.
-/

namespace ObjectInit

/-- An enumeration of markers: all of them in their fixed order, and how each one is written. -/
class Flag (φ : Type) where
  all : List φ
  mem_all : ∀ f, f ∈ all
  name : φ → String

/-- A set of markers; `Flags.ofList` builds it in the order of the enumeration. -/
structure Flags (φ : Type) where
  members : List φ
  deriving DecidableEq

namespace Flags

variable {φ : Type}

/-- No marker. -/
def none : Flags φ := ⟨[]⟩

instance : Inhabited (Flags φ) := ⟨none⟩

variable [DecidableEq φ]

/-- The set has the marker `f`. -/
def has (s : Flags φ) (f : φ) : Bool := s.members.contains f

/-- The set has every marker of `t` (`contains`). -/
def includes (s t : Flags φ) : Bool := t.members.all s.has

/-- The two sets have a marker in common (`intersects`). -/
def meets (s t : Flags φ) : Bool := t.members.any s.has

variable [Flag φ]

/-- The set of the listed markers. -/
def ofList (fs : List φ) : Flags φ := ⟨(Flag.all (φ := φ)).filter fs.contains⟩

def union (s t : Flags φ) : Flags φ := ofList (s.members ++ t.members)

theorem has_ofList (fs : List φ) (f : φ) : (ofList fs).has f = fs.contains f := by
  by_cases h : f ∈ fs <;> simp [ofList, has, h, Flag.mem_all f]

theorem has_union (s t : Flags φ) (f : φ) : (s.union t).has f = (s.has f || t.has f) := by
  rw [union, has_ofList]
  simp [has]

/-- The names of the markers, quoted, in braces. -/
def render (s : Flags φ) : String :=
  "\x7b" ++ ", ".intercalate (s.members.map fun f => "\"" ++ Flag.name f ++ "\"") ++ "\x7d"

end Flags

/-- The markers of a class. -/
inductive ClassFlag where
  | trait
  | abstractClass
  /-- A singleton object. -/
  | singleton
  | package
  /-- An interface of a foreign language, whose instances are opaque. -/
  | foreignInterface
  /-- `Any` or `Object`, whose methods are known to be safe. -/
  | root
  deriving DecidableEq

instance : Flag ClassFlag where
  all := [.trait, .abstractClass, .singleton, .package, .foreignInterface, .root]
  mem_all f := by cases f <;> decide
  name
    | .trait => "trait"
    | .abstractClass => "abstract"
    | .singleton => "module"
    | .package => "package"
    | .foreignInterface => "java-interface"
    | .root => "root"

/-- The markers of a symbol. -/
inductive SymbolFlag where
  /-- A method; constructors are methods too. -/
  | method
  | lazy
  /-- A parameter of a method, a constructor or a closure. -/
  | param
  /-- A field that stores a class parameter. -/
  | paramAccessor
  /-- An abstract member. -/
  | deferred
  | privateMember
  | protectedMember
  | constructor
  | primaryConstructor
  /-- A variable. -/
  | mutable
  deriving DecidableEq

instance : Flag SymbolFlag where
  all := [.method, .lazy, .param, .paramAccessor, .deferred, .privateMember, .protectedMember,
    .constructor, .primaryConstructor, .mutable]
  mem_all f := by cases f <;> decide
  name
    | .method => "method"
    | .lazy => "lazy"
    | .param => "param"
    | .paramAccessor => "param-accessor"
    | .deferred => "deferred"
    | .privateMember => "private"
    | .protectedMember => "protected"
    | .constructor => "constructor"
    | .primaryConstructor => "primary-constructor"
    | .mutable => "mutable"

end ObjectInit
