import ObjectInit.Proofs.Delegation
import ObjectInit.Proofs.Reached

/-!
# The code of a class body

An expression may belong to the body of one class only (`Program.OnlyInBody`): whatever it is a part
of is a statement of this class or the initializer of one of its strict fields. In the check of a
class, such an expression is evaluated in the code of this class, and on an object under
construction only after the template of the class has stored the class parameters.

Main results:

* `Regime.confined_lawful`: single steps of the analysis respect this.
* `Query.started_of_check`, `Query.cls_of_check`: where the expression may have a value in a check,
  and where it may be evaluated.
-/

namespace ObjectInit

variable {p : Program} {e : ExprId} {c d : ClassId} {a this : Addr}

/-! ## Parts of a class body -/

namespace Program

/-- The second expression contains the first one. -/
inductive Encloses (p : Program) (e : ExprId) : ExprId → Prop
  | self : Encloses p e e
  | part {g g' : ExprId} (h : Encloses p e g') (child : g' ∈ (p.expr g).node.children) :
    Encloses p e g
  | valDef {g g' : ExprId} {x : SymbolId} (h : Encloses p e g')
    (node : (p.expr g).node = .valDef x) (body : (p.symbol x).body = some g') : Encloses p e g

/-- The expression belongs to the body of the class and to nothing else. -/
structure OnlyInBody (p : Program) (c : ClassId) (e : ExprId) : Prop where
  /-- It is part of no method, constructor or lazy field, and of the fields of this class only. -/
  bodies : ∀ g, p.Encloses e g → ∀ x, (p.symbol x).body = some g → p.homeClass x = c ∧
    (p.symbol x).isMethod = false ∧ (p.symbol x).isLazy = false ∧
      (p.symbol x).isConstructor = false
  /-- It is part of no other class body. -/
  stats : ∀ g, p.Encloses e g → ∀ d T, (p.cls d).template = some T → g ∈ T.body → d = c
  /-- It is part of no argument for a parent. -/
  args : ∀ g, p.Encloses e g → ∀ d T, (p.cls d).template = some T → ∀ parent ∈ T.parents,
    ∀ arg ∈ parent.args, arg.expr ≠ g

/-- The list has all expressions that contain the expression. -/
structure Wholes (p : Program) (e : ExprId) (wholes : List ExprId) : Prop where
  self : e ∈ wholes
  parts : ∀ i < p.exprs.size, ∀ g ∈ (p.expr ⟨i⟩).node.children, g ∈ wholes → ⟨i⟩ ∈ wholes
  valDefs : ∀ i < p.exprs.size, ∀ x ∈ (p.expr ⟨i⟩).node.valDef?, ∀ g ∈ (p.symbol x).body,
    g ∈ wholes → ⟨i⟩ ∈ wholes

/-- Of the expressions in the list, the body of the class has some, and nothing else has any. -/
structure Wholes.OnlyInBody (p : Program) (c : ClassId) (wholes : List ExprId) : Prop where
  bodies : ∀ i < p.symbols.size, ∀ g ∈ (p.symbol ⟨i⟩).body, g ∈ wholes → p.homeClass ⟨i⟩ = c ∧
    (p.symbol ⟨i⟩).isMethod = false ∧ (p.symbol ⟨i⟩).isLazy = false ∧
      (p.symbol ⟨i⟩).isConstructor = false
  stats : ∀ i < p.classes.size, ∀ T ∈ (p.cls ⟨i⟩).template, ∀ g ∈ T.body, g ∈ wholes → ⟨i⟩ = c
  args : ∀ i < p.classes.size, ∀ T ∈ (p.cls ⟨i⟩).template, ∀ parent ∈ T.parents,
    ∀ arg ∈ parent.args, arg.expr ∉ wholes

variable {wholes : List ExprId}

theorem Encloses.mem_wholes (table : p.Wholes e wholes) {g : ExprId} (h : p.Encloses e g) :
    g ∈ wholes := by
  induction h with
  | self => exact table.self
  | @part g g' _ child ih => exact table.parts g.index (index_lt_of_child child) g' child ih
  | @valDef g g' x _ node body ih =>
    refine table.valDefs g.index (index_lt_of_node (by rw [node]; nofun)) x ?_ g' body ih
    rw [node]
    rfl

/-- By a table of what contains the expression, it is tested whether it belongs to one class body
    only. -/
theorem OnlyInBody.of_wholes (wholes : List ExprId) (table : p.Wholes e wholes)
    (test : Wholes.OnlyInBody p c wholes) : p.OnlyInBody c e where
  bodies g h x body := test.bodies x.index (index_lt_of_body body) g body (h.mem_wholes table)
  stats g h d T hT hg := test.stats d.index (index_lt_of_template hT) T hT g hg (h.mem_wholes table)
  args g h d T hT parent hparent arg harg same := by
    refine test.args d.index (index_lt_of_template hT) T hT parent hparent arg harg ?_
    rw [same]
    exact h.mem_wholes table

end Program

/-! ## The regime -/

namespace Regime

/-- On an object under construction, the template of the class has stored the class parameters. -/
def Started (p : Program) (c : ClassId) (m : Memory) (a : Addr) : Prop :=
  ∀ k, a = .thisOf k → p.HoldsParams m.heap c a

/-- The code that contains the expression runs in the code of the class, on objects on which the
    template of the class has started. -/
def confining (p : Program) (c : ClassId) (e : ExprId) : Regime p where
  rel _ _ := True
  inv _ := True
  addr m a := m.heap.Has a
  fresh _ _ _ := True
  bound _ := 0
  code m g frame := p.Encloses e g → frame.cls = c ∧ Started p c m frame.receiver
  body m g frame := p.Encloses e g → frame.cls = c ∧ Started p c m frame.receiver
  member _ := True
  ctor _ a f := ∀ k, a = .thisOf k → (p.symbol f).isConstructor = true
  created _ _ _ := True

/-- What contains the expression has values only on objects on which the template has started. -/
structure Confined (p : Program) (c : ClassId) (e : ExprId) (m : Memory) : Prop
    extends (confining p c e).Stocks m where
  cachedOn : ∀ a g v, m.cache.find? a g = some v → p.Encloses e g → Started p c m a

/-- The regime under which the code that contains the expression is confined in this way. -/
def confined (p : Program) (c : ClassId) (e : ExprId) : Regime p :=
  { confining p c e with inv := Confined p c e }

variable {m m' : Memory} {B : Nat} {v : Value} {h : Heap}

theorem fits_confined : (confined p c e).Fits m B v ↔ (confining p c e).Fits m B v :=
  ⟨fun h => h.imp (fun _ h => h) (fun _ _ h => h) fun _ _ h => h,
    fun h => h.imp (fun _ h => h) (fun _ _ h => h) fun _ _ h => h⟩

theorem Started.mono (started : Started p c m a) (ext : m.heap.Extends m'.heap) :
    Started p c m' a := by
  intro k hk f hf
  obtain ⟨v, hv⟩ := Option.isSome_iff_exists.1 (started k hk f hf)
  exact Option.isSome_iff_exists.2 ⟨v, ext.field hv⟩

theorem code_confining {g : ExprId} {frame : Frame}
    (code : p.Encloses e g → frame.cls = c ∧ Started p c m frame.receiver)
    (ext : m.heap.Extends m'.heap) :
    p.Encloses e g → frame.cls = c ∧ Started p c m' frame.receiver :=
  fun inside => ⟨(code inside).1, (code inside).2.mono ext⟩

/-- What fits depends only on what is in the heap. -/
theorem steady_confining : (confining p c e).Steady := by
  intro m m' B B' v ext h
  induction h generalizing B' with
  | hot => exact .hot
  | cold => exact .cold
  | ref ha => exact .ref (ha.mono ext)
  | closure receiver code _ _ ih =>
    exact .closure (receiver.mono ext) (code_confining code ext) trivial fun x v hv => ih x v hv
  | oneOf _ ih => exact .oneOf fun v hv => ih v hv

namespace Confined

variable {g : ExprId}

theorem enter (confined : Confined p c e m) (started : p.Encloses e g → Started p c m a) :
    Confined p c e (m.enter a g) where
  toStocks := confined.toStocks.enter steady_confining
  cachedOn b g' v hv inside := by
    rw [Memory.find?_enter] at hv
    split at hv
    · next same =>
      obtain ⟨rfl, rfl⟩ := same
      exact started inside
    · exact confined.cachedOn b g' v hv inside

theorem leave (confined : Confined p c e m) {final : Bool}
    (started : p.Encloses e g → Started p c m a) (hv : (confining p c e).Fits m B v) :
    Confined p c e (m.leave a g final v) where
  toStocks := confined.toStocks.leave steady_confining hv
  cachedOn b g' u hu inside := by
    by_cases same : b = a ∧ g' = g
    · obtain ⟨rfl, rfl⟩ := same
      exact started inside
    · rw [Memory.find?_leave_of_ne same] at hu
      exact confined.cachedOn b g' u hu inside

/-- Nothing new is known of expressions. -/
theorem of_heap (confined : Confined p c e m) (ext : m.heap.Extends h)
    (stocks : (confining p c e).Stocks { m with heap := h }) :
    Confined p c e { m with heap := h } :=
  ⟨stocks, fun a g v hv inside => (confined.cachedOn a g v hv inside).mono ext⟩

theorem setField (confined : Confined p c e m) {f : SymbolId} (hv : (confining p c e).Fits m 0 v)
    (ok : m.heap.setField a f v = .ok h) : Confined p c e { m with heap := h } :=
  confined.of_heap (.of_setField ok) (confined.toStocks.setField steady_confining hv ok)

theorem setOuter (confined : Confined p c e m) (hv : (confining p c e).Fits m 0 v)
    (ok : m.heap.setOuter a d v = .ok h) : Confined p c e { m with heap := h } :=
  confined.of_heap (.of_setOuter ok) (confined.toStocks.setOuter steady_confining hv ok)

theorem allocate (confined : Confined p c e m) {d' : ClassId} (hv : (confining p c e).Fits m 0 v)
    (ok : m.heap.allocate a (.new d [(d', v)]) = .ok h) : Confined p c e { m with heap := h } :=
  confined.of_heap (.of_allocate ok) (confined.toStocks.allocate steady_confining hv ok)

theorem warmOf (confined : Confined p c e m) {creation : Creation}
    (outer : (confining p c e).Fits m 0 creation.outer) :
    Confined p c e { m with heap := (m.heap.warmOf creation).2 } :=
  confined.of_heap (.warmOf m.heap creation) (confined.toStocks.warmOf steady_confining outer)

end Confined

theorem confined_initial : Confined p c e Store.initial.memory where
  toStocks := stocks_initial
  cachedOn a g v hv := by simp [Store.memory, Store.initial, Cache.find?] at hv

/-! ## Single steps -/

/-- Single steps of the analysis keep the expression in the class body. -/
theorem confined_lawful (only : p.OnlyInBody c e) : (confined p c e).Lawful where
  refl _ := trivial
  trans _ _ _ _ _ := trivial
  addr_mono _ _ _ ext _ ha := ha.mono ext.heap
  fresh_mono _ _ _ _ _ _ _ := trivial
  code_mono _ _ _ _ ext _ code := code_confining code ext.heap
  body_mono _ _ _ _ ext _ body := code_confining body ext.heap
  ctor_mono _ _ _ _ _ _ h := h
  fresh_le _ _ _ _ _ _ := trivial
  body_of_code _ _ _ h := h
  parts _ _ _ body _ child inside := body (inside.part child)
  bound_le _ _ _ := Nat.le_refl 0
  captured _ _ _ _ _ _ _ := trivial
  bound_valDef _ _ _ := rfl
  valDef _ _ _ _ _ body node he' inside := body (inside.valDef node he')
  names _ _ _ _ _ _ := trivial
  method _ _ _ _ _ _ _ _ _ := trivial
  delegate _ _ _ _ _ _ _ _ _ _ constructor _ _ _ _ _ _ _ := constructor
  new _ _ _ _ _ _ _ _ := trivial
  virtual _ _ _ := trivial
  super _ _ _ _ := trivial
  tried _ _ _ := trivial
  memberBody m a x g _ _ _ runs body inside := by
    obtain ⟨home, noMethod, noLazy, -⟩ := only.bodies g inside x body
    refine ⟨home, fun k hk => ?_⟩
    -- On an object under construction, only methods and lazy fields are run.
    rcases runs k hk with h | h
    · rw [noMethod] at h
      cases h
    · rw [noLazy] at h
      cases h
  ctorBody m a x g _ _ ctor body inside := by
    obtain ⟨home, -, -, noConstructor⟩ := only.bodies g inside x body
    refine ⟨home, fun k hk => ?_⟩
    have constructor := ctor k hk
    rw [noConstructor] at constructor
    cases constructor
  cached m a g v inv hv := fits_confined.2 (inv.cached a g v hv)
  field m a f v inv hv := fits_confined.2 (inv.field a f v hv)
  outer m a d v inv hv := fits_confined.2 (inv.outer a d v hv)
  creation m w inv has := by
    obtain ⟨creation, hw⟩ := has.2 w rfl
    exact ⟨creation, hw, fits_confined.2 (inv.enclosing w creation hw)⟩
  enter m g frame inv _ body _ := ⟨trivial, inv.enter fun inside => (body inside).2⟩
  leave m m' g frame final B v inv _ body _ miss inside _ inv' hv _ _ := by
    have ext := ((Memory.extends_enter miss).trans inside).heap
    exact ⟨trivial, inv'.leave (fun inside => (body inside).2.mono ext) (fits_confined.1 hv),
      fits_confined.2 (steady_confining (.refl m'.heap) (fits_confined.1 hv))⟩
  birth m d outer ctor args inv _ _ remembers _ := by
    let creation : Creation := ⟨d, outer, ctor, args⟩
    have known := Heap.creation?_warmOf m.heap creation
    have ext := Heap.Extends.warmOf m.heap creation
    have fits : (confining p c e).Fits m 0 outer := fits_confined.1 remembers.fits
    have numbered : Confined p c e { m with heap := (m.heap.warmOf creation).2 } :=
      inv.warmOf fits
    refine ⟨fun exists_ => ⟨trivial, numbered, exists_, ?_⟩, fun h ok => ?_⟩
    · rintro w ⟨⟩
      exact ⟨_, known⟩
    · refine ⟨trivial, numbered.allocate (steady_confining ext fits) ok, ⟨?_, ?_⟩, nofun⟩
      · rw [Heap.contains, Heap.read_of_allocate ok, if_pos rfl]
        rfl
      · rintro w ⟨⟩
        exact ⟨_, (Heap.Extends.of_allocate ok).creation _ _ known⟩

variable {q : Program}

/-- Every template may run. -/
theorem confined_builds (coherent : q.Coherent) (only : q.finish.OnlyInBody c e) (d : ClassId)
    (this : Addr) : (confined q.finish c e).Builds d this where
  field _ _ _ _ inv _ hv ok := ⟨trivial, inv.setField (fits_confined.1 hv) ok⟩
  outer _ _ _ _ _ _ _ _ _ inv _ hv ok := ⟨trivial, inv.setOuter (fits_confined.1 hv) ok⟩
  stat m stored T hT g hg inside := by
    obtain rfl := only.stats g inside d T hT hg
    exact ⟨rfl, fun _ _ => stored⟩
  arg m T hT parent hparent ha := ⟨ha, fun arg harg =>
    ⟨fun inside => absurd rfl (only.args _ inside d T hT parent hparent arg harg),
      0, fun _ _ _ => trivial⟩⟩
  path _ _ _ _ _ _ := trivial
  listed m T hT parent hparent f hf _ _ := by
    rw [coherent.ctor_of_listed hT hparent] at hf
    exact (coherent.ownConstructors _ f hf).1
  mixin _ _ _ _ _ x _ f hf _ _ := (coherent.ownConstructors x f hf).1

end Regime

open Regime

/-! ## The check of a class -/

section Check

variable {q : Program} {k : ClassId} {γ δ : Type} {r : Query γ} {s t : Store}
  {active : List Cache.Key}

/-- In the check of a class, the code that contains the expression is confined in its class. -/
theorem Query.Way.confined {r' : Query δ} (way : (Query.check k).Way q.finish .initial active r s)
    (coherent : q.Coherent) (only : q.finish.OnlyInBody c e)
    (hasks : (r.plan q.finish).Asks q.finish s r' t) :
    ((Regime.confined q.finish c e).building fun _ _ => True).pre r' t := by
  have lawful := confined_lawful only
  have obeys : (Plan.check q.finish k).Obeys q.finish
      (((Regime.confined q.finish c e).building fun _ _ => True).only fun _ _ => True) .initial
      fun _ _ => True := by
    refine lawful.obeys_check (fun m ctor g primary body inside => ?_) fun _ h ok => ?_
    · -- The body of a constructor is not part of a class body.
      have constructor := (coherent.ownConstructors k ctor primary).1
      rw [(only.bodies g inside ctor body).2.2.2] at constructor
      cases constructor
    · refine ⟨confined_initial.allocate .hot ok, ?_, nofun⟩
      rw [Heap.contains, Heap.read_of_allocate ok, if_pos rfl]
      rfl
  exact Contract.Kept.pre_of_way (lawful.free_kept (confined_builds coherent only)) obeys way hasks

/-- In the check of a class, an expression that belongs to one class body has a value only on
    objects on which the template of this class has stored the class parameters, if they are under
    construction. -/
theorem Query.started_of_check (coherent : q.Coherent) (only : q.finish.OnlyInBody c e)
    {r' : Query δ} (way : (Query.check k).Way q.finish .initial active r s)
    (hasks : (r.plan q.finish).Asks q.finish s r' t) {v : Value}
    (cached : t.cache.find? a e = some v) : Started q.finish c t.memory a := by
  have pre := way.confined coherent only hasks
  have ready : (Regime.confined q.finish c e).Ready t := by
    by_cases general : r'.kind < 9
    · exact ((building_pre general).1 pre).1
    · have pre := (contract_pre_of_le (Nat.le_of_not_lt general)).1 pre
      cases r' with
      | template | body => exact pre.1
      | _ => exact pre.elim
  exact ready.inv.cachedOn a e v cached .self

/-- In the check of a class, an expression that belongs to one class body is evaluated in the code
    of this class. -/
theorem Query.cls_of_check (coherent : q.Coherent) (only : q.finish.OnlyInBody c e)
    {frame : Frame} {final : Bool} (way : (Query.check k).Way q.finish .initial active r s)
    (hasks : (r.plan q.finish).Asks q.finish s (.eval e frame final) t) : frame.cls = c := by
  have pre := way.confined coherent only hasks
  obtain ⟨-, -, body, -⟩ := (building_pre (by simp [Query.kind])).1 pre
  exact (body .self).1

end Check

end ObjectInit
