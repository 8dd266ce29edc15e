import ObjectInit.Store.Numbering
import ObjectInit.Value.Order

/-!
# The heap

The heap maps addresses to objects and numbers the ways in which warm objects are created. It only
grows: an object is allocated once, and a field or an outer is set once. A field without a value is
not initialized yet. Every attempt to break these rules ends with a `HeapFault`.

The name that something has in the checker's source, where it is another one, stands in parentheses.

Main results:

* `Heap.read_of_allocate`, `Heap.field?_of_setField`, `Heap.outer?_of_setOuter`: what a change
  that is not refused does to what can be read.
* `Heap.creation?_warmOf`, `Heap.creation?_of_warmOf`: a warm address stands for the way of
  creation that it was given to, now and later.
-/

namespace ObjectInit

/-- How a warm object was created, which is what identifies it (`WarmKey`). -/
structure Creation where
  cls : ClassId
  outer : Value
  ctor : SymbolId
  /-- The widened constructor arguments. -/
  args : List Value
  deriving DecidableEq, Inhabited

/-- Creations are compared by their classes, constructors and arguments, and last by their outer
    instances. -/
def Creation.compare : Creation → Creation → Ordering :=
  compareLex (compareOn Creation.cls) <| compareLex (compareOn Creation.ctor) <|
    compareLex (compareOn Creation.args) (compareOn Creation.outer)

instance : Ord Creation := ⟨Creation.compare⟩

instance : Std.TransOrd Creation := inferInstanceAs (Std.TransCmp
  (compareLex (compareOn Creation.cls) <| compareLex (compareOn Creation.ctor) <|
    compareLex (compareOn Creation.args) (compareOn Creation.outer)))

theorem Creation.compare_eq_iff {a b : Creation} : a.compare b = .eq ↔ a = b := by
  rcases a with ⟨c, o, f, vs⟩
  rcases b with ⟨d, p, g, ws⟩
  simp [Creation.compare, compareLex, compareOn, Ordering.then_eq_eq]
  grind

instance : Std.LawfulEqOrd Creation where
  eq_of_compare := Creation.compare_eq_iff.1

/-- The state of an object (`Objekt`). -/
structure Object where
  cls : ClassId
  fields : Std.ExtTreeMap SymbolId Value
  /-- The outer instances, by the base class that they belong to. -/
  outers : Std.ExtTreeMap ClassId Value

/-- An object none of whose fields is initialized. -/
def Object.new (cls : ClassId) (outers : List (ClassId × Value)) : Object :=
  ⟨cls, ∅, .ofList outers⟩

/-- Why the heap cannot be changed or read. -/
inductive HeapFault where
  | allocatedTwice (addr : Addr)
  | missing (addr : Addr)
  | fieldSetTwice (addr : Addr) (field : SymbolId)
  | outerSetTwice (addr : Addr) (cls : ClassId)
  /-- The heap gave out no such warm address. -/
  | unknownWarm (warm : Warm)
  deriving DecidableEq

/-- The text shown for a fault. -/
def HeapFault.message : HeapFault → String
  | .allocatedTwice a => "Object " ++ a.render ++ " was written twice"
  | .missing a => "Object " ++ a.render ++ " does not exist"
  | .fieldSetTwice a f =>
    "Field " ++ f.label ++ " of object " ++ a.render ++ " was initialized twice"
  | .outerSetTwice a c =>
    "Outer " ++ c.label ++ " of object " ++ a.render ++ " was initialized twice"
  | .unknownWarm w => "Object " ++ (Addr.warm w).render ++ " was never created"

structure Heap where
  objects : Std.ExtTreeMap Addr Object := ∅
  /-- How the object at each warm address was created, by the number of the address. -/
  creations : Numbering Creation := .empty

namespace Heap

/-- The warm address of the objects that are created in this way (`intern_warm`). Its number is that
    of the creation. Numbers have no bound here; where they are kept in 32 bits, this holds for the
    first `2^32` creations, after which the next one would be refused. -/
def warmOf (h : Heap) (creation : Creation) : Warm × Heap :=
  (⟨creation.cls, h.creations.number creation⟩,
    { h with creations := h.creations.add creation })

/-- How the objects at a warm address were created (`warm_key`). -/
def creation? (h : Heap) (w : Warm) : Option Creation := h.creations.item? w.index

def read (h : Heap) (a : Addr) : Option Object := h.objects[a]?

def contains (h : Heap) (a : Addr) : Bool := (h.read a).isSome

/-- The value of a field that is initialized. -/
def field? (h : Heap) (a : Addr) (f : SymbolId) : Option Value := do
  (← h.read a).fields[f]?

/-- The outer instance that is recorded for a base class. -/
def outer? (h : Heap) (a : Addr) (c : ClassId) : Option Value := do
  (← h.read a).outers[c]?

/-- Stores a new object (`write`). -/
def allocate (h : Heap) (a : Addr) (o : Object) : Except HeapFault Heap :=
  if h.contains a then
    .error (.allocatedTwice a)
  else
    .ok { h with objects := h.objects.insert a o }

/-- Initializes a field (`update_field`). -/
def setField (h : Heap) (a : Addr) (f : SymbolId) (v : Value) : Except HeapFault Heap :=
  match h.read a with
  | none => .error (.missing a)
  | some o =>
    if o.fields.contains f then
      .error (.fieldSetTwice a f)
    else
      .ok { h with objects := h.objects.insert a { o with fields := o.fields.insert f v } }

/-- Records the outer instance of a base class (`update_outer`). -/
def setOuter (h : Heap) (a : Addr) (c : ClassId) (v : Value) : Except HeapFault Heap :=
  match h.read a with
  | none => .error (.missing a)
  | some o =>
    if o.outers.contains c then
      .error (.outerSetTwice a c)
    else
      .ok { h with objects := h.objects.insert a { o with outers := o.outers.insert c v } }

/-! ## What is read after a change -/

theorem read_insert (h : Heap) (a : Addr) (o : Object) (b : Addr) :
    { h with objects := h.objects.insert a o }.read b = if b = a then some o else h.read b := by
  simp [read, Std.ExtTreeMap.getElem?_insert, @eq_comm _ b]

theorem read_of_allocate {h h' : Heap} {a : Addr} {o : Object} (ok : h.allocate a o = .ok h')
    (b : Addr) : h'.read b = if b = a then some o else h.read b := by
  unfold allocate at ok
  split at ok
  · cases ok
  · cases ok
    exact h.read_insert a o b

theorem read_of_setField {h h' : Heap} {a : Addr} {f : SymbolId} {v : Value}
    (ok : h.setField a f v = .ok h') : ∃ o, h.read a = some o ∧ o.fields[f]? = none ∧
      ∀ b, h'.read b =
        if b = a then some { o with fields := o.fields.insert f v } else h.read b := by
  unfold setField at ok
  split at ok
  · cases ok
  · rename_i o ho
    split at ok
    · cases ok
    · rename_i hf
      cases ok
      exact ⟨o, ho, by simpa using hf, h.read_insert a _⟩

theorem field?_of_setField {h h' : Heap} {a : Addr} {f : SymbolId} {v : Value}
    (ok : h.setField a f v = .ok h') (b : Addr) (g : SymbolId) :
    h'.field? b g = if b = a ∧ g = f then some v else h.field? b g := by
  obtain ⟨o, ho, -, hr⟩ := read_of_setField ok
  by_cases hb : b = a <;> by_cases hg : g = f <;>
    simp [field?, hr, hb, hg, ho, Std.ExtTreeMap.getElem?_insert, @eq_comm _ f]

theorem read_of_setOuter {h h' : Heap} {a : Addr} {c : ClassId} {v : Value}
    (ok : h.setOuter a c v = .ok h') : ∃ o, h.read a = some o ∧ o.outers[c]? = none ∧
      ∀ b, h'.read b =
        if b = a then some { o with outers := o.outers.insert c v } else h.read b := by
  unfold setOuter at ok
  split at ok
  · cases ok
  · rename_i o ho
    split at ok
    · cases ok
    · rename_i hc
      cases ok
      exact ⟨o, ho, by simpa using hc, h.read_insert a _⟩

theorem outer?_of_setOuter {h h' : Heap} {a : Addr} {c : ClassId} {v : Value}
    (ok : h.setOuter a c v = .ok h') (b : Addr) (d : ClassId) :
    h'.outer? b d = if b = a ∧ d = c then some v else h.outer? b d := by
  obtain ⟨o, ho, -, hr⟩ := read_of_setOuter ok
  by_cases hb : b = a <;> by_cases hd : d = c <;>
    simp [outer?, hr, hb, hd, ho, Std.ExtTreeMap.getElem?_insert, @eq_comm _ c]

theorem creation?_warmOf (h : Heap) (creation : Creation) :
    (h.warmOf creation).2.creation? (h.warmOf creation).1 = some creation := by
  simp [warmOf, creation?, Numbering.item?_add]

theorem creation?_of_warmOf {h : Heap} {w : Warm} {old : Creation}
    (hw : h.creation? w = some old) (creation : Creation) :
    (h.warmOf creation).2.creation? w = some old :=
  Numbering.item?_add_of_eq_some hw creation

end Heap

end ObjectInit
