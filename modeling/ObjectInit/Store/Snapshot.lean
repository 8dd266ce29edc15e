import Std.Data.ExtTreeSet
import ObjectInit.Diagnostic.SafetyError
import ObjectInit.Program.Basic
import ObjectInit.Store.Heap

/-!
# The store of an analysis

Everything that the analysis of a class reads and changes: the heap, what the analysis remembers
about its own work (the `Cache` of evaluated expressions and the set of `Trusted` values), the
context of the current evaluation, and the diagnostics so far. A `Snapshot` lists a store in a fixed
order: addresses by class and number, fields and outers by theirs.

Main results:

* `Cache.find?_insert`, `Cache.find?_erase`, `Trusted.contains_insert`, `Trusted.contains_erase`: a
  change is seen where it was made, and nowhere else.
-/

namespace ObjectInit

/-! ## Memos -/

namespace Cache

/-- What an evaluation is remembered by. -/
structure Key where
  receiver : Addr
  expr : ExprId
  deriving DecidableEq, Inhabited

namespace Key

/-- Keys are compared by their receiver, then by their expression. -/
def compare : Key → Key → Ordering :=
  compareLex (compareOn receiver) (compareOn expr)

instance : Ord Key := ⟨Key.compare⟩

instance : Std.TransOrd Key := inferInstanceAs (Std.TransCmp
  (compareLex (compareOn receiver) (compareOn expr)))

theorem compare_eq_iff {k l : Key} : k.compare l = .eq ↔ k = l := by
  rcases k with ⟨a, e⟩
  rcases l with ⟨b, f⟩
  simp [compare, compareLex, compareOn, Ordering.then_eq_eq]

instance : Std.LawfulEqOrd Key where
  eq_of_compare := compare_eq_iff.1

end Key

end Cache

/-- The values of evaluated expressions, by the receiver of the evaluation and the expression. An
    entry belongs either to a finished evaluation or to one in progress. -/
structure Cache where
  entries : Std.ExtTreeMap Cache.Key Value := ∅

namespace Cache

def size (c : Cache) : Nat := c.entries.size

/-- The value of an evaluation that is finished or in progress (`get`). -/
def find? (c : Cache) (receiver : Addr) (e : ExprId) : Option Value := c.entries[Key.mk receiver e]?

def insert (c : Cache) (receiver : Addr) (e : ExprId) (v : Value) : Cache :=
  ⟨c.entries.insert ⟨receiver, e⟩ v⟩

def erase (c : Cache) (receiver : Addr) (e : ExprId) : Cache := ⟨c.entries.erase ⟨receiver, e⟩⟩

theorem find?_insert (c : Cache) (a : Addr) (e : ExprId) (v : Value) (b : Addr) (g : ExprId) :
    (c.insert a e v).find? b g = if b = a ∧ g = e then some v else c.find? b g := by
  simp [find?, insert, Std.ExtTreeMap.getElem?_insert, @eq_comm _ a, @eq_comm _ e]

theorem find?_erase (c : Cache) (a : Addr) (e : ExprId) (b : Addr) (g : ExprId) :
    (c.erase a e).find? b g = if b = a ∧ g = e then none else c.find? b g := by
  simp [find?, erase, Std.ExtTreeMap.getElem?_erase, @eq_comm _ a, @eq_comm _ e]

end Cache

/-- The values that may be treated as hot (`Promoted`). -/
structure Trusted where
  values : Std.ExtTreeSet Value := ∅

namespace Trusted

def contains (t : Trusted) (v : Value) : Bool := t.values.contains v

def insert (t : Trusted) (v : Value) : Trusted := ⟨t.values.insert v⟩

def erase (t : Trusted) (v : Value) : Trusted := ⟨t.values.erase v⟩

theorem contains_insert (t : Trusted) (v w : Value) :
    (t.insert v).contains w = (w == v || t.contains w) := by
  rw [Bool.eq_iff_iff]
  simp [contains, insert, @eq_comm _ v]

theorem contains_erase (t : Trusted) (v w : Value) :
    (t.erase v).contains w = (w != v && t.contains w) := by
  rw [Bool.eq_iff_iff]
  simp [contains, erase, @eq_comm _ v]

end Trusted

/-! ## Stores -/

/-- What belongs to the current evaluation alone. -/
structure Context where
  env : Env := .empty
  /-- The calls that led to the evaluation. -/
  trace : Trace := .empty

/-- Everything that an analysis reads and changes (`Interpreter`). -/
structure Store extends Context where
  heap : Heap := {}
  cache : Cache := {}
  trusted : Trusted := {}
  /-- The diagnostics in the order in which they were reported. -/
  diagnostics : List Diagnostic := []

/-- The store at the start of an analysis. -/
def Store.initial : Store := {}

/-! ## Snapshots -/

/-- An object with its fields and outers in ascending order. -/
structure ObjectView where
  addr : Addr
  cls : ClassId
  fields : List (SymbolId × Value)
  outers : List (ClassId × Value)

structure Snapshot where
  objects : List ObjectView
  /-- How the objects at the warm addresses `0, 1, …` were created. -/
  creations : List Creation
  cache : List (Addr × ExprId × Value)
  /-- The number of all entries of the cache. -/
  cacheSize : Nat
  /-- The addresses that may be treated as hot. -/
  trusted : List Addr

/-- The objects under construction of all classes, then the warm objects. -/
def Store.addrs (s : Store) (p : Program) : List Addr :=
  p.classIds.map Addr.thisOf ++
    s.heap.creations.toList.mapIdx fun i creation => .warm ⟨creation.cls, i⟩

def Object.view (o : Object) (a : Addr) : ObjectView :=
  ⟨a, o.cls, o.fields.toList, o.outers.toList⟩

/-- What a store holds for the addresses and expressions of a program. -/
def Store.snapshot (s : Store) (p : Program) : Snapshot :=
  let addrs := s.addrs p
  { objects := addrs.filterMap fun a => (s.heap.read a).map (·.view a)
    creations := s.heap.creations.toList
    cache := addrs.flatMap fun a =>
      p.exprIds.filterMap fun e => (s.cache.find? a e).map fun v => (a, e, v)
    cacheSize := s.cache.size
    trusted := addrs.filter fun a => s.trusted.contains (.ref a) }

end ObjectInit
