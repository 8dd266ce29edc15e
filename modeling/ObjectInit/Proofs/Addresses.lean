import Mathlib.Algebra.Ring.Nat
import ObjectInit.Proofs.Bounds
import ObjectInit.Proofs.Reached

/-!
# Addresses

Values take addresses from the heap to environments, closures and the cache and back. Wherever an
address occurs in the analysis of a class, there is an object in its place (`Regime.placed`), and a
warm address stands for a way of creation that was given a number before. The outer instance of a
way of creation is hot, cold, the object under construction, or a warm object that was numbered
earlier and is not itself inside of a warm object.

Main results:

* `Regime.placed_lawful`: single steps of the analysis respect this.
-/

namespace ObjectInit

/-! ## Addresses that occur -/

/-- The address occurs in the value. -/
inductive Value.Mentions (a : Addr) : Value → Prop where
  | ref : Mentions a (.ref a)
  | receiver {body : ExprId} {params : List SymbolId} {d : ClassId} {env : Env} :
    Mentions a (.closure body params ⟨a, d⟩ env)
  | captured {body : ExprId} {params : List SymbolId} {frame : Frame} {env : Env} {x : SymbolId}
    {v : Value} (h : env.lookup x = some v) (hv : Mentions a v) :
    Mentions a (.closure body params frame env)
  | member {vs : List Value} {v : Value} (h : v ∈ vs) (hv : Mentions a v) : Mentions a (.oneOf vs)

/-- The address occurs in the store, or in an environment that is left for the time being. -/
inductive Store.Mentions (s : Store) (left : List Env) (a : Addr) : Prop where
  | field {b : Addr} {f : SymbolId} {v : Value} (h : s.heap.field? b f = some v)
    (hv : v.Mentions a)
  | outer {b : Addr} {d : ClassId} {v : Value} (h : s.heap.outer? b d = some v) (hv : v.Mentions a)
  | env {env : Env} {x : SymbolId} {v : Value} (henv : env ∈ s.env :: left)
    (h : env.lookup x = some v) (hv : v.Mentions a)
  | receiver {e : ExprId} {v : Value} (h : s.cache.find? a e = some v)
  | cached {b : Addr} {e : ExprId} {v : Value} (h : s.cache.find? b e = some v) (hv : v.Mentions a)

/-- The number of ways to create an object, apart from the outer instance: by one of the `new`
    expressions, with arguments that are hot or cold. -/
def Program.newCount (p : Program) : Nat :=
  (p.exprs.toList.map fun e => match e.node with
    | .new _ _ args => 2 ^ args.length
    | _ => 0).sum

/-- The addresses in the store are in order, in the analysis of a class. -/
structure Store.InPlace (p : Program) (c : ClassId) (s : Store) (left : List Env) : Prop where
  /-- A warm address stands for a way to create objects of its class. -/
  known : ∀ w, s.Mentions left (.warm w) →
    ∃ creation, s.heap.creation? w = some creation ∧ creation.cls = w.cls
  /-- An outer instance is not inside of two warm objects, and it was numbered earlier. -/
  outer : ∀ w creation, s.heap.creation? w = some creation → creation.IsOutmost c ∨
    ∃ w' creation', creation.outer = .ref (.warm w') ∧ w'.index < w.index ∧
      s.heap.creation? w' = some creation' ∧ creation'.cls = w'.cls ∧
        ∀ w'', creation'.outer ≠ .ref (.warm w'')
  args : ∀ w creation, s.heap.creation? w = some creation →
    ∀ v ∈ creation.args, v = .hot ∨ v = .cold
  size : s.heap.creations.size ≤ 3 * p.newCount + 3 * p.newCount * p.newCount
  /-- Every address has an object. -/
  object : ∀ a, s.Mentions left a → s.heap.contains a = true

/-! ## How many ways there are -/

theorem Value.length_widened (n : Nat) : (widened n).length = 2 ^ n := by
  induction n with
  | zero => rfl
  | succ n ih =>
    rw [widened, List.length_flatMap]
    simp [ih, Nat.pow_succ]

namespace Program

variable (p : Program) (c : ClassId)

theorem length_creations_hot : (p.creations .hot).length = p.newCount := by
  rw [creations, List.length_flatMap, newCount]
  congr 2
  funext e
  cases e.node <;> simp [Value.length_widened]

theorem creationLimit_eq : p.creationLimit c = 3 * p.newCount + 3 * p.newCount * p.newCount := by
  have outmost : (p.outmost c).length = 3 * p.newCount := by
    simp only [Program.outmost, List.length_flatMap, length_creations, length_creations_hot,
      List.map_const', List.length_cons, List.length_nil, List.sum_replicate_nat]
  rw [creationLimit, outmost, length_creations_hot]

end Program

/-! ## The regime -/

variable {p : Program} {c : ClassId}

namespace Regime

/-- All code may run, and addresses refer to objects that are there. -/
def placing (p : Program) (c : ClassId) : Regime p where
  rel _ _ := True
  inv _ := True
  addr m a := m.heap.Knows c a ∧ m.heap.contains a = true
  fresh _ _ _ := True
  bound _ := 0
  code _ _ _ := True
  body _ _ _ := True
  member _ := True
  ctor _ _ _ := True
  created := p.Creates

/-- All addresses in the memory refer to objects that are there, and the outer instances of objects
    were numbered before them. -/
structure Placed (p : Program) (c : ClassId) (m : Memory) : Prop
    extends (placing p c).Stocks m where
  receivers : ∀ a e v, m.cache.find? a e = some v → (placing p c).addr m a
  creations : m.heap.Bounded p c
  earlier : ∀ w creation w', m.heap.creation? w = some creation →
    creation.outer = .ref (.warm w') → w'.index < w.index

/-- All code may run, and all addresses refer to objects that are there. -/
def placed (p : Program) (c : ClassId) : Regime p := { placing p c with inv := Placed p c }

variable {m m' : Memory} {B B' : Nat} {v : Value} {a : Addr} {h : Heap}

theorem fits_placed : (placed p c).Fits m B v ↔ (placing p c).Fits m B v :=
  ⟨fun h => h.imp (fun _ => id) (fun _ _ => id) fun _ _ => id,
    fun h => h.imp (fun _ => id) (fun _ _ => id) fun _ _ => id⟩

theorem addr_placing (ha : (placing p c).addr m a) (ext : m.heap.Extends m'.heap) :
    (placing p c).addr m' a :=
  ⟨ha.1.mono ext, ext.contains ha.2⟩

/-- What fits depends only on which objects there are. -/
theorem steady_placing : (placing p c).Steady := by
  intro m m' B B' v ext h
  induction h generalizing B' with
  | hot => exact .hot
  | cold => exact .cold
  | ref ha => exact .ref (addr_placing ha ext)
  | closure receiver code _ _ ih =>
    exact .closure (addr_placing receiver ext) code trivial fun x v hv => ih x v hv
  | oneOf _ ih => exact .oneOf fun v hv => ih v hv

/-- The addresses that occur in a fitting value may be referred to. -/
theorem Fits.mentions {R : Regime p} (h : R.Fits m B v) (hv : v.Mentions a) : R.addr m a := by
  induction hv generalizing B with
  | ref => exact h.of_ref
  | receiver =>
    cases h with
    | closure receiver => exact receiver
  | captured hx _ ih =>
    cases h with
    | closure _ _ _ captured => exact ih (captured _ _ hx)
  | member hv _ ih => exact ih (h.of_oneOf _ hv)

/-! ## Memories with all objects in place -/

namespace Placed

variable {e : ExprId}

theorem enter (placed : Placed p c m) (ha : (placing p c).addr m a) : Placed p c (m.enter a e) where
  toStocks := placed.toStocks.enter steady_placing
  receivers b g v hv := by
    rw [Memory.find?_enter] at hv
    split at hv
    · next same => exact same.1 ▸ ha
    · exact placed.receivers b g v hv
  creations := placed.creations
  earlier := placed.earlier

theorem leave (placed : Placed p c m) (ha : (placing p c).addr m a) {final : Bool}
    (hv : (placing p c).Fits m B v) : Placed p c (m.leave a e final v) where
  toStocks := placed.toStocks.leave steady_placing hv
  receivers b g u hu := by
    by_cases same : b = a ∧ g = e
    · exact same.1 ▸ ha
    · rw [Memory.find?_leave_of_ne same] at hu
      exact placed.receivers b g u hu
  creations := placed.creations
  earlier := placed.earlier

/-- The ways of creation stay the same. -/
theorem of_heap (placed : Placed p c m) (ext : m.heap.Extends h)
    (stocks : (placing p c).Stocks { m with heap := h }) (same : h.creations = m.heap.creations) :
    Placed p c { m with heap := h } where
  toStocks := stocks
  receivers b e v hv := addr_placing (placed.receivers b e v hv) ext
  creations := placed.creations.of_creations same
  earlier w creation w' hw := by
    have hw : h.creation? w = some creation := hw
    rw [Heap.creation?, same] at hw
    exact placed.earlier w creation w' hw

theorem allocate (placed : Placed p c m) {d d' : ClassId} (hv : (placing p c).Fits m 0 v)
    (ok : m.heap.allocate a (.new d [(d', v)]) = .ok h) : Placed p c { m with heap := h } :=
  placed.of_heap (.of_allocate ok) (placed.toStocks.allocate steady_placing hv ok)
    (Heap.creations_of_allocate ok)

theorem setField (placed : Placed p c m) {f : SymbolId} (hv : (placing p c).Fits m 0 v)
    (ok : m.heap.setField a f v = .ok h) : Placed p c { m with heap := h } :=
  placed.of_heap (.of_setField ok) (placed.toStocks.setField steady_placing hv ok)
    (Heap.creations_of_setField ok)

theorem setOuter (placed : Placed p c m) {d : ClassId} (hv : (placing p c).Fits m 0 v)
    (ok : m.heap.setOuter a d v = .ok h) : Placed p c { m with heap := h } :=
  placed.of_heap (.of_setOuter ok) (placed.toStocks.setOuter steady_placing hv ok)
    (Heap.creations_of_setOuter ok)

/-- A way of creation is numbered, before there is an object of this kind. -/
theorem warmOf (placed : Placed p c m) {creation : Creation}
    (creates : p.Creates creation.cls creation.ctor creation.args.length)
    (args : ∀ v ∈ creation.args, v = .hot ∨ v = .cold)
    (remembers : (Regime.placed p c).Remembers m creation.outer) :
    Placed p c { m with heap := (m.heap.warmOf creation).2 } := by
  have ext := Heap.Extends.warmOf m.heap creation
  have encloses := remembers.encloses placed.creations fun _ ha => ha.1
  have outer : (placing p c).Fits m 0 creation.outer := fits_placed.1 remembers.fits
  exact {
    toStocks := placed.toStocks.warmOf steady_placing outer
    receivers := fun b e v hv => addr_placing (placed.receivers b e v hv) ext
    creations := placed.creations.warmOf creates args encloses
    earlier := fun w creation' w' hw houter => by
      rcases Numbering.item?_of_add hw with old | ⟨last, rfl⟩
      · exact placed.earlier w creation' w' old houter
      · rw [houter] at outer
        obtain ⟨known, hknown, -⟩ := outer.of_ref.1
        rw [last]
        exact Numbering.lt_size_of_item? hknown }

end Placed

/-- Single steps of the analysis leave all objects in place. -/
theorem placed_lawful : (placed p c).Lawful where
  refl _ := trivial
  trans _ _ _ _ _ := trivial
  addr_mono _ _ _ ext _ ha := addr_placing (p := p) ha ext.heap
  fresh_mono _ _ _ _ _ _ _ := trivial
  code_mono _ _ _ _ _ _ _ := trivial
  body_mono _ _ _ _ _ _ _ := trivial
  ctor_mono _ _ _ _ _ _ _ := trivial
  fresh_le _ _ _ _ _ _ := trivial
  body_of_code _ _ _ _ := trivial
  parts _ _ _ _ _ _ := trivial
  bound_le _ _ _ := Nat.le_refl 0
  captured _ _ _ _ _ _ _ := trivial
  bound_valDef _ _ _ := rfl
  valDef _ _ _ _ _ _ _ _ := trivial
  names _ _ _ _ _ _ := trivial
  method _ _ _ _ _ _ _ _ _ := trivial
  delegate _ _ _ _ _ _ _ _ _ _ _ _ _ _ _ _ := trivial
  new _ e _ type x args _ node := ⟨e, type, args, node, rfl, rfl⟩
  virtual _ _ _ := trivial
  super _ _ _ _ := trivial
  tried _ _ _ := trivial
  memberBody _ _ _ _ _ _ _ _ _ := trivial
  ctorBody _ _ _ _ _ _ _ _ := trivial
  cached m a e v inv hv := fits_placed.2 (inv.cached a e v hv)
  field m a f v inv hv := fits_placed.2 (inv.field a f v hv)
  outer m a d v inv hv := fits_placed.2 (inv.outer a d v hv)
  creation m w inv ha := by
    obtain ⟨creation, hw, -⟩ := ha.1
    exact ⟨creation, hw, fits_placed.2 (inv.enclosing w creation hw)⟩
  enter m e frame inv ha _ _ := ⟨trivial, inv.enter ha⟩
  leave m m' e frame final B v inv ha _ _ miss inside _ inv' hv _ _ := by
    have receiver : (placing p c).addr m' frame.receiver :=
      addr_placing ha ((Memory.extends_enter miss).trans inside).heap
    exact ⟨trivial, inv'.leave receiver (fits_placed.1 hv),
      fits_placed.2 (steady_placing (.refl m'.heap) (fits_placed.1 hv))⟩
  birth m d outer ctor args inv creates _ remembers hargs := by
    let creation : Creation := ⟨d, outer, ctor, args⟩
    have numbered : Placed p c { m with heap := (m.heap.warmOf creation).2 } :=
      inv.warmOf creates hargs remembers
    have ext := Heap.Extends.warmOf m.heap creation
    have known := m.heap.knows_warmOf (c := c) creation
    refine ⟨fun alive => ⟨trivial, numbered, known, alive⟩, fun h ok => ?_⟩
    have fits : (placing p c).Fits m 0 outer := fits_placed.1 remembers.fits
    have alive : h.contains (.warm (m.heap.warmOf creation).1) = true := by
      rw [Heap.contains, Heap.read_of_allocate ok, if_pos rfl]
      rfl
    exact ⟨trivial, numbered.allocate (steady_placing ext fits) ok,
      ⟨known.mono (.of_allocate ok), alive⟩, trivial⟩

/-- Every template may run. -/
theorem placed_builds (d : ClassId) (this : Addr) : (placed p c).Builds d this where
  field _ _ _ _ inv _ hv ok := ⟨trivial, inv.setField (fits_placed.1 hv) ok⟩
  outer _ _ _ _ _ _ _ _ _ inv _ hv ok := ⟨trivial, inv.setOuter (fits_placed.1 hv) ok⟩
  stat _ _ _ _ _ _ := trivial
  arg _ _ _ _ _ ha := ⟨ha, fun _ _ => ⟨trivial, 0, fun _ _ _ => trivial⟩⟩
  path _ _ _ _ _ _ := trivial
  listed _ _ _ _ _ _ _ := trivial
  mixin _ _ _ _ _ _ _ _ _ := trivial

/-- The contract under which all objects are in place. -/
def placement (p : Program) (c : ClassId) : Contract := (placed p c).building fun _ _ => True

/-- All questions leave the objects in place. -/
theorem placement_kept : (placement p c).Kept p Query.Free :=
  placed_lawful.free_kept placed_builds

end Regime

end ObjectInit
