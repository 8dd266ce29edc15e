import ObjectInit.Proofs.Built
import Mathlib.Logic.Relation

/-!
# Commands as changes of the tables

Every command is a sequence of changes of a few kinds (`Program.Change`). Most of them are edits
(`Program.Edit`), which leave the shape of every class: an item is added, or an entry changes in
what does not matter for the hierarchy. The others add a class, give a new class its constructor or
its source, and list a parent. The walk through the commands is done here once; what the tables have
in common is then shown for each kind of change.

Main results:

* `Program.Change.grows`: nothing is removed, symbols keep what they were declared with, and a class
  keeps its constructor and its declarations.
* `Program.Edit.sameShapes`: edits leave the hierarchy.
* `Command.changes`: every command is a sequence of changes.
-/

namespace ObjectInit

/-! ## Parts that stay -/

/-- The symbols have the same name, owner and markers, and parameters are only added. -/
structure Symbol.Keeps (s s' : Symbol) : Prop where
  name : s'.name = s.name
  owner : s'.owner = s.owner
  flags : s'.flags = s.flags
  params : s.params <+: s'.params

theorem Symbol.Keeps.refl (s : Symbol) : s.Keeps s := ⟨rfl, rfl, rfl, List.prefix_rfl⟩

theorem Symbol.Keeps.trans {s s' s'' : Symbol} (h : s.Keeps s') (h' : s'.Keeps s'') : s.Keeps s'' :=
  ⟨h'.name.trans h.name, h'.owner.trans h.owner, h'.flags.trans h.flags, h.params.trans h'.params⟩

/-- A primary constructor stays, and declarations are only added. -/
structure ClassDef.Keeps (o o' : ClassDef) : Prop where
  primaryConstructor : ∀ ctor, o.primaryConstructor = some ctor → o'.primaryConstructor = some ctor
  decls : o.decls <+: o'.decls

theorem ClassDef.Keeps.refl (o : ClassDef) : o.Keeps o := ⟨fun _ h => h, List.prefix_rfl⟩

theorem ClassDef.Keeps.trans {o o' o'' : ClassDef} (h : o.Keeps o') (h' : o'.Keeps o'') :
    o.Keeps o'' where
  primaryConstructor ctor hctor := h'.primaryConstructor ctor (h.primaryConstructor ctor hctor)
  decls := h.decls.trans h'.decls

/-- The part of a class that decides how its objects are constructed, apart from the class body. -/
structure Shape where
  flags : Flags ClassFlag
  owner : Option ClassId
  parents : List ClassId
  primaryConstructor : Option SymbolId
  listed : Option (List Parent)

def ClassDef.shape (c : ClassDef) : Shape :=
  ⟨c.flags, c.owner, c.parents, c.primaryConstructor, c.template.map Template.parents⟩

/-- The change of a class leaves its shape and all that is declared in it. -/
structure ClassDef.Preserves (f : ClassDef → ClassDef) : Prop where
  shape : ∀ o, (f o).shape = o.shape
  decls : ∀ o, (f o).decls = o.decls
  memberClasses : ∀ o, (f o).memberClasses = o.memberClasses

/-- The class has nothing yet. -/
structure ClassDef.Blank (o : ClassDef) : Prop where
  parents : o.parents = []
  decls : o.decls = []
  memberClasses : o.memberClasses = []
  primaryConstructor : o.primaryConstructor = none
  template : o.template = none

namespace Program

variable {whole : Prop} {q q' q'' : Program} {c : ClassId}

/-! ## Kinds of changes -/

/-- The owner is in the tables. -/
def HasOwner (q : Program) : Owner → Prop
  | .cls c => c.index < q.classes.size
  | .symbol s => s.index < q.symbols.size

/-- A class that was added just now: it has no parents yet, and it is no parent. -/
structure Fresh (q : Program) (c : ClassId) : Prop where
  isNew : 3 ≤ c.index ∧ c.index < q.classes.size
  parents : (q.cls c).parents = []
  unlisted : ∀ d, c ∉ (q.cls d).parents

/-- A change that leaves the shapes of all classes. If `whole` holds, what it uses exists. -/
inductive Edit (whole : Prop) (q : Program) : Program → Prop where
  /-- A class is entered into the class that it lies in. -/
  | enterClass {c d : ClassId} (owner : (q.cls d).owner = some c) :
    Edit whole q { q with
      classes := q.classes.modify c.index fun o =>
        { o with memberClasses := o.memberClasses ++ [d] } }
  | alterClass {c : ClassId} {f : ClassDef → ClassDef} (kept : ClassDef.Preserves f) :
    Edit whole q { q with classes := q.classes.modify c.index f }
  | addMember {c : ClassId} {s : Symbol} (owner : s.owner = .cls c)
    (exist : whole → c.index < q.classes.size) :
    Edit whole q { q with
      symbols := q.symbols.push s
      classes := q.classes.modify c.index fun o =>
        { o with decls := o.decls ++ [⟨q.symbols.size⟩] } }
  | addSymbol {s : Symbol} (exist : whole → q.HasOwner s.owner) :
    Edit whole q { q with symbols := q.symbols.push s }
  | alterSymbol {s : SymbolId} {f : Symbol → Symbol} (kept : ∀ o : Symbol, o.Keeps (f o)) :
    Edit whole q { q with symbols := q.symbols.modify s.index f }
  | addExpr {node : Node} (exist : whole → ∀ e ∈ node.children, e.index < q.exprs.size) :
    Edit whole q { q with exprs := q.exprs.push ⟨.empty, node⟩ }
  | alterExpr {e : ExprId} {f : Expr → Expr} (kept : ∀ x, (f x).node = x.node) :
    Edit whole q { q with exprs := q.exprs.modify e.index f }

/-- One change of the tables. If `whole` holds, what it uses exists. -/
inductive Change (whole : Prop) (q : Program) : Program → Prop where
  | edit {q' : Program} (edit : q.Edit whole q') : Change whole q q'
  /-- A class is added that lies inside another one. -/
  | addClass {o : ClassDef} {d : ClassId} (owner : o.owner = some d)
    (exist : whole → d.index < q.classes.size) (blank : o.Blank) :
    Change whole q { q with classes := q.classes.push o }
  | setConstructor {c : ClassId} {ctor : SymbolId} (fresh : q.Fresh c)
    (first : (q.cls c).primaryConstructor = none) (isConstructor : q.IsConstructorOf ctor c) :
    Change whole q { q with
      classes := q.classes.modify c.index fun o => { o with primaryConstructor := some ctor } }
  | setSource {c : ClassId} (fresh : q.Fresh c) :
    Change whole q { q with
      classes := q.classes.modify c.index fun o => { o with template := some ⟨[], []⟩ } }
  /-- An existing class becomes a parent, called with its constructor. -/
  | extend {c : ClassId} {parent : ClassRef} {args : List Arg}
    (exist : parent.cls.index < q.classes.size) :
    Change whole q { q with
      classes := q.classes.modify c.index fun o =>
        { o with
          parents := o.parents ++ [parent.cls]
          template := o.template.map fun t =>
            { t with
              parents := t.parents ++
                [⟨.empty, parent, (q.cls parent.cls).primaryConstructor, args⟩] } } }

/-! ## What every change keeps -/

/-- The tables only grow, and classes and symbols keep what they have. -/
structure Grows (q q' : Program) : Prop where
  classes : q.classes.size ≤ q'.classes.size
  symbols : q.symbols.size ≤ q'.symbols.size
  exprs : q.exprs.size ≤ q'.exprs.size
  cls : ∀ c, (q.cls c).Keeps (q'.cls c)
  symbol : ∀ s : SymbolId, s.index < q.symbols.size → (q.symbol s).Keeps (q'.symbol s)

namespace Grows

theorem refl (q : Program) : q.Grows q :=
  ⟨Nat.le_refl _, Nat.le_refl _, Nat.le_refl _, fun _ => .refl _, fun _ _ => .refl _⟩

theorem trans (h : q.Grows q') (h' : q'.Grows q'') : q.Grows q'' where
  classes := Nat.le_trans h.classes h'.classes
  symbols := Nat.le_trans h.symbols h'.symbols
  exprs := Nat.le_trans h.exprs h'.exprs
  cls c := (h.cls c).trans (h'.cls c)
  symbol s hs := (h.symbol s hs).trans (h'.symbol s (Nat.lt_of_lt_of_le hs h.symbols))

theorem modifyClass {f : ClassDef → ClassDef} (kept : (q.cls c).Keeps (f (q.cls c))) :
    q.Grows { q with classes := q.classes.modify c.index f } where
  classes := Nat.le_of_eq Array.size_modify.symm
  symbols := Nat.le_refl _
  exprs := Nat.le_refl _
  cls d := by
    rw [cls_modify]
    split
    · next hd =>
      rw [hd.1]
      exact kept
    · exact .refl _
  symbol _ _ := .refl _

theorem addSymbol (o : Symbol) : q.Grows { q with symbols := q.symbols.push o } where
  classes := Nat.le_refl _
  symbols := by simp
  exprs := Nat.le_refl _
  cls _ := .refl _
  symbol s hs := by
    rw [symbol_push, if_neg (Nat.ne_of_lt hs)]
    exact .refl _

end Grows

theorem Edit.grows (edit : q.Edit whole q') : q.Grows q' := by
  cases edit with
  | enterClass => exact .modifyClass ⟨fun _ h => h, List.prefix_rfl⟩
  | @alterClass c f kept =>
    refine .modifyClass ⟨fun ctor hctor => ?_, ?_⟩
    · exact (congrArg Shape.primaryConstructor (kept.shape _)).trans hctor
    · exact (kept.decls _).symm ▸ List.prefix_rfl
  | @addMember c s =>
    have added := Grows.addSymbol (q := q) s
    exact added.trans (.modifyClass (c := c) ⟨fun _ h => h, List.prefix_append _ _⟩)
  | addSymbol => exact .addSymbol _
  | @alterSymbol s f kept =>
    refine ⟨Nat.le_refl _, by simp, Nat.le_refl _, fun _ => .refl _, fun t _ => ?_⟩
    rw [symbol_modify]
    split
    · next ht =>
      rw [ht.1]
      exact kept _
    · exact .refl _
  | addExpr | alterExpr =>
    exact ⟨Nat.le_refl _, Nat.le_refl _, by simp, fun _ => .refl _, fun _ _ => .refl _⟩

theorem Change.grows (change : q.Change whole q') : q.Grows q' := by
  cases change with
  | edit edit => exact edit.grows
  | addClass owner exist blank =>
    refine ⟨by simp, Nat.le_refl _, Nat.le_refl _, fun c => ?_, fun _ _ => .refl _⟩
    rw [cls_push]
    split
    · next new =>
      rw [cls_of_size_le (Nat.le_of_eq new.symm)]
      exact ⟨fun _ h => (nomatch h), List.nil_prefix⟩
    · exact .refl _
  | setConstructor _ first =>
    refine .modifyClass ⟨fun ctor hctor => ?_, List.prefix_rfl⟩
    rw [first] at hctor
    cases hctor
  | setSource | extend => exact .modifyClass ⟨fun _ h => h, List.prefix_rfl⟩

theorem Grows.of_changes (changes : Relation.ReflTransGen (Change whole) q q') : q.Grows q' := by
  induction changes with
  | refl => exact .refl q
  | tail _ change ih => exact ih.trans change.grows

/-! ## What edits keep -/

/-- The tables grow without a new class, and the classes keep their shapes. -/
structure SameShapes (q q' : Program) : Prop extends q.Grows q' where
  size : q'.classes.size = q.classes.size
  shape : ∀ c, (q'.cls c).shape = (q.cls c).shape

namespace SameShapes

theorem refl (q : Program) : q.SameShapes q := ⟨.refl q, rfl, fun _ => rfl⟩

theorem trans (h : q.SameShapes q') (h' : q'.SameShapes q'') : q.SameShapes q'' :=
  ⟨h.toGrows.trans h'.toGrows, h'.size.trans h.size, fun c => (h'.shape c).trans (h.shape c)⟩

theorem parents (h : q.SameShapes q') (c : ClassId) : (q'.cls c).parents = (q.cls c).parents :=
  congrArg Shape.parents (h.shape c)

theorem primaryConstructor (h : q.SameShapes q') (c : ClassId) :
    (q'.cls c).primaryConstructor = (q.cls c).primaryConstructor :=
  congrArg Shape.primaryConstructor (h.shape c)

end SameShapes

/-- A change of a class leaves the shapes of all classes if it leaves the one of this class. -/
theorem shape_modify {f : ClassDef → ClassDef} (kept : ∀ o, (f o).shape = o.shape) (d : ClassId) :
    (({ q with classes := q.classes.modify c.index f } : Program).cls d).shape =
      (q.cls d).shape := by
  rw [cls_modify]
  split
  · next hd => rw [kept, hd.1]
  · rfl

theorem Edit.sameShapes (edit : q.Edit whole q') : q.SameShapes q' := by
  have grows := edit.grows
  cases edit with
  | enterClass => exact ⟨grows, Array.size_modify, shape_modify fun _ => rfl⟩
  | alterClass kept => exact ⟨grows, Array.size_modify, shape_modify kept.shape⟩
  | addMember => exact ⟨grows, Array.size_modify, shape_modify fun _ => rfl⟩
  | addSymbol | alterSymbol | addExpr | alterExpr => exact ⟨grows, rfl, fun _ => rfl⟩

theorem SameShapes.of_edits (edits : Relation.ReflTransGen (Edit whole) q q') :
    q.SameShapes q' := by
  induction edits with
  | refl => exact .refl q
  | tail _ edit ih => exact ih.trans edit.sameShapes

/-- A new class stays one as long as no parents are listed. -/
theorem Fresh.after (h : q.Fresh c) (same : q.SameShapes q') : q'.Fresh c where
  isNew := ⟨h.isNew.1, same.size ▸ h.isNew.2⟩
  parents := (same.parents c).trans h.parents
  unlisted d := by
    rw [same.parents]
    exact h.unlisted d

/-- A new class gets its constructor or its source. -/
theorem Fresh.modify (h : q.Fresh c) {f : ClassDef → ClassDef}
    (parents : (f (q.cls c)).parents = []) :
    ({ q with classes := q.classes.modify c.index f } : Program).Fresh c := by
  refine ⟨⟨h.isNew.1, ?_⟩, ?_, fun d => ?_⟩
  · rw [show ({ q with classes := q.classes.modify c.index f } : Program).classes.size = _ from
      Array.size_modify]
    exact h.isNew.2
  · rw [cls_modify, if_pos ⟨rfl, h.isNew.2⟩]
    exact parents
  · rw [cls_modify]
    split
    · rw [parents]
      exact List.not_mem_nil
    · exact h.unlisted d

/-- Where all parents exist, an added class without parents is a new one. -/
theorem Coherent.fresh_push (h : q.Coherent) {o : ClassDef} (parents : o.parents = []) :
    ({ q with classes := q.classes.push o } : Program).Fresh ⟨q.classes.size⟩ := by
  refine ⟨⟨h.size, by simp⟩, ?_, fun d hd => ?_⟩
  · rw [cls_push, if_pos rfl]
    exact parents
  · rw [cls_push] at hd
    split at hd
    · rw [parents] at hd
      cases hd
    · exact Nat.lt_irrefl _ (h.parents d _ hd)

end Program

/-! ## Steps -/

namespace Build

variable {α β : Type} {R : Program → Program → Prop} {q : Program} {c : ClassId}

theorem run_bind_eq_ok {q' : Program} {x : Build α} {f : α → Build β} {b : β} :
    (x >>= f).run q = .ok (b, q') ↔ ∃ a t, x.run q = .ok (a, t) ∧ (f a).run t = .ok (b, q') := by
  rw [StateT.run_bind]
  cases x.run q with
  | error fault =>
    constructor
    · intro h
      cases h
    · rintro ⟨_, _, h, -⟩
      cases h
  | ok r =>
    constructor
    · intro h
      exact ⟨r.1, r.2, rfl, h⟩
    · rintro ⟨_, _, h, hf⟩
      cases h
      exact hf

/-- A declared member belongs to its class and has its markers. -/
theorem symbol_of_declareMember {q' : Program} {name : String} {flags : Flags SymbolFlag}
    {s : SymbolId} (run : (declareMember c name flags).run q = .ok (s, q')) :
    s.index < q'.symbols.size ∧ (q'.symbol s).owner = .cls c ∧ (q'.symbol s).flags = flags := by
  obtain ⟨_, _, added, run⟩ := run_bind_eq_ok.1 run
  cases added
  obtain ⟨_, _, modified, run⟩ := run_bind_eq_ok.1 run
  cases modified
  cases run
  simp only [Program.symbol, Array.getD_eq_getD_getElem?, Array.size_push, Array.getElem?_push_size,
    Option.getD_some, and_self, and_true]
  exact Nat.lt_succ_self _

/-- Where the step is not refused, it is a sequence of changes, and what it returns is as wanted. -/
def Steps (R : Program → Program → Prop) (x : Build α) (q : Program) (ok : α → Program → Prop) :
    Prop :=
  ∀ a q', x.run q = .ok (a, q') → Relation.ReflTransGen R q q' ∧ ok a q'

/-- Whatever the step returns. -/
def anything (_ : α) (_ : Program) : Prop := True

/-- The symbol that the step returns is in the table. -/
def existing (s : SymbolId) (q : Program) : Prop := s.index < q.symbols.size

namespace Steps

variable {ok : α → Program → Prop}

theorem of_anything {x : Build α} (h : Steps R x q ok) : Steps R x q anything :=
  fun a q' run => ⟨(h a q' run).1, trivial⟩

theorem pure {a : α} (h : ok a q) : Steps R (Pure.pure a : Build α) q ok := by
  intro b q' run
  cases run
  exact ⟨.refl, h⟩

theorem bind {x : Build β} {f : β → Build α} {ok' : β → Program → Prop} (hx : Steps R x q ok')
    (hf : ∀ b q', Relation.ReflTransGen R q q' → ok' b q' → Steps R (f b) q' ok) :
    Steps R (x >>= f) q ok := by
  intro a q'' run
  obtain ⟨b, q', hb, hfb⟩ := run_bind_eq_ok.1 run
  obtain ⟨steps, hok'⟩ := hx b q' hb
  obtain ⟨steps', hok⟩ := hf b q' steps hok' a q'' hfb
  exact ⟨steps.trans steps', hok⟩

theorem map {x : Build β} {f : β → α} (hx : Steps R x q anything) :
    Steps R (f <$> x) q anything := by
  rw [map_eq_pure_bind]
  exact hx.bind fun _ _ _ _ => .pure trivial

theorem get_bind {f : Program → Build α} (h : Steps R (f q) q ok) :
    Steps R (MonadState.get >>= f) q ok := by
  intro a q' run
  obtain ⟨p, t, got, run⟩ := run_bind_eq_ok.1 run
  cases got
  exact h a q' run

theorem forM {xs : List β} {f : β → Build PUnit}
    (hf : ∀ x q', Relation.ReflTransGen R q q' → Steps R (f x) q' anything) :
    Steps R (xs.forM f) q anything := by
  induction xs generalizing q with
  | nil => exact .pure trivial
  | cons x xs ih =>
    exact (hf x q .refl).bind fun _ q' steps _ =>
      ih fun x q'' steps' => hf x q'' (steps.trans steps')

variable {whole : Prop}

/-- Edits are changes, and what was true of the hierarchy stays. -/
theorem change {x : Build α} (h : Steps (Program.Edit whole) x q ok) :
    Steps (Program.Change whole) x q fun a q' => q.SameShapes q' ∧ ok a q' := by
  intro a q' run
  obtain ⟨edits, hok⟩ := h a q' run
  have changes := Relation.ReflTransGen.mono (fun _ _ => Program.Change.edit) _ _ edits
  exact ⟨changes, .of_edits edits, hok⟩

/-! ### The tables -/

theorem newExpr {node : Node} (exist : whole → ∀ e ∈ node.children, e.index < q.exprs.size) :
    Steps (Program.Edit whole) (Build.newExpr node) q fun e q' => e.index < q'.exprs.size := by
  intro e q' run
  cases run
  exact ⟨.single (.addExpr exist), by simp⟩

theorem modifyExpr {e : ExprId} {f : Expr → Expr} (kept : ∀ x, (f x).node = x.node) :
    Steps (Program.Edit whole) (Build.modifyExpr e f) q anything := by
  intro u q' run
  cases run
  exact ⟨.single (.alterExpr kept), trivial⟩

theorem newSymbol {o : Symbol} (exist : whole → q.HasOwner o.owner) :
    Steps (Program.Edit whole) (Build.newSymbol o) q existing := by
  intro s q' run
  cases run
  refine ⟨.single (.addSymbol exist), ?_⟩
  show q.symbols.size < (q.symbols.push o).size
  simp

theorem modifySymbol {s : SymbolId} {f : Symbol → Symbol} (kept : ∀ o : Symbol, o.Keeps (f o)) :
    Steps (Program.Edit whole) (Build.modifySymbol s f) q anything := by
  intro u q' run
  cases run
  exact ⟨.single (.alterSymbol kept), trivial⟩

theorem modifyClass {f : ClassDef → ClassDef} (kept : ClassDef.Preserves f) :
    Steps (Program.Edit whole) (Build.modifyClass c f) q anything := by
  intro u q' run
  cases run
  exact ⟨.single (.alterClass kept), trivial⟩

/-- The primary constructor of a class exists, since the tables are coherent. -/
theorem primaryConstructor (h : q.Coherent) : Steps R (Build.primaryConstructor c) q existing := by
  apply get_bind
  cases hctor : (q.cls c).primaryConstructor with
  | none =>
    intro ctor q' run
    cases run
  | some ctor => exact .pure (h.constructors c ctor hctor).1

/-! ### Members -/

theorem declareMember {name : String} {flags : Flags SymbolFlag}
    (exist : whole → c.index < q.classes.size) :
    Steps (Program.Edit whole) (Build.declareMember c name flags) q existing := by
  intro s q' run
  have index_lt := (symbol_of_declareMember run).1
  obtain ⟨_, _, added, run⟩ := run_bind_eq_ok.1 run
  cases added
  obtain ⟨_, _, modified, run⟩ := run_bind_eq_ok.1 run
  cases modified
  cases run
  exact ⟨.single (.addMember rfl exist), index_lt⟩

theorem declareParam {owner : SymbolId} {name : String}
    (exist : whole → owner.index < q.symbols.size) :
    Steps (Program.Edit whole) (Build.declareParam owner name) q anything := by
  refine bind (newSymbol exist) fun s _ _ _ => ?_
  exact bind (modifySymbol fun _ => ⟨rfl, rfl, rfl, List.prefix_append _ _⟩) fun _ _ _ _ =>
    pure trivial

theorem declareParams {owner : SymbolId} {names : List String}
    (exist : whole → owner.index < q.symbols.size) :
    Steps (Program.Edit whole) (Build.declareParams owner names) q anything := by
  apply forM
  intro name q' edits
  have later (h : whole) : owner.index < q'.symbols.size :=
    Nat.lt_of_lt_of_le (exist h) (Program.SameShapes.of_edits edits).symbols
  exact bind (declareParam later) fun _ _ _ _ => pure trivial

theorem declareInside {owner : Owner} {name : String} {flags : Flags SymbolFlag}
    {params : List String} (exist : whole → q.HasOwner owner) :
    Steps (Program.Edit whole) (Build.declareInside owner name flags params) q anything := by
  refine bind (newSymbol exist) fun s _ _ hs => ?_
  exact bind (declareParams fun _ => hs) fun _ _ _ _ => pure trivial

theorem appendStat {stat : ExprId} :
    Steps (Program.Edit whole) (Build.appendStat c stat) q anything := by
  refine modifyClass ⟨fun o => ?_, fun _ => rfl, fun _ => rfl⟩
  cases h : o.template with
  | none => simp [ClassDef.shape, h]
  | some t => simp [ClassDef.shape, h]

theorem define {name : String} {flags : Flags SymbolFlag}
    (exist : whole → c.index < q.classes.size) :
    Steps (Program.Edit whole) (Build.define c name flags) q existing := by
  refine bind (declareMember exist) fun s q₁ _ hs => ?_
  refine bind (newExpr fun _ e he => ?_) fun stat q₂ edits _ => ?_
  · split at he <;> cases he
  refine bind appendStat fun _ q₃ edits' _ => ?_
  have grows := (Program.SameShapes.of_edits (edits.trans edits')).toGrows
  exact pure (Nat.lt_of_lt_of_le hs grows.symbols)

theorem defineMethod {name : String} {params : List String} {flags : Flags SymbolFlag}
    (exist : whole → c.index < q.classes.size) :
    Steps (Program.Edit whole) (Build.defineMethod c name params flags) q anything := by
  refine bind (define exist) fun s _ _ hs => ?_
  exact bind (declareParams fun _ => hs) fun _ _ _ _ => pure trivial

theorem declareMethod {name : String} {params : List String}
    (exist : whole → c.index < q.classes.size) :
    Steps (Program.Edit whole) (Build.declareMethod c name params) q anything := by
  refine bind (declareMember exist) fun s _ _ hs => ?_
  exact bind (declareParams fun _ => hs) fun _ _ _ _ => pure trivial

theorem defineClassParam {name : String} (h : q.Coherent)
    (exist : whole → c.index < q.classes.size) :
    Steps (Program.Edit whole) (Build.defineClassParam c name) q anything := by
  refine bind (primaryConstructor h) fun ctor q₁ edits hctor => ?_
  refine bind (declareParam fun _ => hctor) fun _ q₂ edits' _ => ?_
  have grows := (Program.SameShapes.of_edits (edits.trans edits')).toGrows
  exact (declareMember fun h => Nat.lt_of_lt_of_le (exist h) grows.classes).of_anything

theorem addClosure {function : SymbolId} {body : ExprId}
    (exist : whole → body.index < q.exprs.size) :
    Steps (Program.Edit whole) (Build.addClosure function body) q anything := by
  refine bind (modifySymbol fun _ => ⟨rfl, rfl, rfl, List.prefix_rfl⟩) fun _ q₁ edits _ => ?_
  refine get_bind (newExpr fun h e he => ?_).of_anything
  rw [List.mem_singleton.1 he]
  exact Nat.lt_of_lt_of_le (exist h) (Program.SameShapes.of_edits edits).exprs

theorem addConstructorCall {ctor : SymbolId} {args : List Arg}
    (exist : whole → ∀ e ∈ args.map Arg.expr, e.index < q.exprs.size) :
    Steps (Program.Edit whole) (Build.addConstructorCall c ctor args) q anything := by
  refine bind (newExpr fun _ _ he => absurd he List.not_mem_nil) fun this q₁ edits hthis => ?_
  refine (newExpr fun h e he => ?_).of_anything
  rcases List.mem_cons.1 he with rfl | he
  · exact hthis
  · exact Nat.lt_of_lt_of_le (exist h e he) (Program.SameShapes.of_edits edits).exprs

/-! ### Classes -/

/-- A class is entered into the class that it lies in. -/
theorem enterMember {site : Site} (owner : ∀ d, site = .cls d → (q.cls c).owner = some d) :
    Steps (Program.Edit whole) (Build.enterMember c site) q anything := by
  cases site with
  | package | inside => exact pure trivial
  | cls d =>
    have enter : Steps (Program.Edit whole) (Build.modifyClass d fun o =>
        { o with memberClasses := o.memberClasses ++ [c] }) q anything := by
      intro u q' run
      cases run
      exact ⟨.single (.enterClass (owner d rfl)), trivial⟩
    refine bind enter fun _ _ _ _ => ?_
    exact bind (newExpr fun _ _ he => absurd he List.not_mem_nil) fun _ _ _ _ => appendStat

/-- A new class without a constructor gets one. -/
theorem definePrimaryConstructor {hasSource : Bool} (fresh : q.Fresh c)
    (first : (q.cls c).primaryConstructor = none) :
    Steps (Program.Change whole) (Build.definePrimaryConstructor c hasSource) q
      fun _ q' => q'.Fresh c := by
  have declared : Steps (Program.Edit whole) (Build.declareMember c "<init>"
      primaryConstructorFlags) q fun ctor q' => q'.IsConstructorOf ctor c := by
    intro ctor q' run
    obtain ⟨index_lt, owner, flags⟩ := symbol_of_declareMember run
    refine ⟨(declareMember (fun _ => fresh.isNew.2) ctor q' run).1, index_lt, owner, ?_⟩
    rw [Symbol.isPrimaryConstructor, Symbol.isConstructor, flags]
    decide
  refine bind declared.change fun ctor q₁ _ h₁ => ?_
  obtain ⟨same, isConstructor⟩ := h₁
  have set : Steps (Program.Change whole) (Build.modifyClass c fun o =>
      { o with primaryConstructor := some ctor }) q₁ fun _ q' => q'.Fresh c := by
    intro u q' run
    cases run
    have unset := (same.primaryConstructor c).trans first
    refine ⟨.single (.setConstructor (fresh.after same) unset isConstructor), ?_⟩
    exact (fresh.after same).modify (fresh.after same).parents
  refine bind set fun _ q₂ _ fresh₂ => ?_
  cases hasSource with
  | false => exact pure fresh₂
  | true =>
    have body : Steps (Program.Edit whole) (do
        let template ← Build.newExpr (.template c)
        Build.modifySymbol ctor fun s => { s with body := some template }) q₂ anything := by
      refine bind (newExpr fun _ _ he => absurd he List.not_mem_nil) fun _ _ _ _ => ?_
      exact modifySymbol fun _ => ⟨rfl, rfl, rfl, List.prefix_rfl⟩
    intro u q' run
    obtain ⟨changes, same', -⟩ := body.change u q' run
    exact ⟨changes, fresh₂.after same'⟩

theorem setSource {hasSource : Bool} (fresh : q.Fresh c) :
    Steps (Program.Change whole) (do
      if hasSource then Build.modifyClass c fun o => { o with template := some ⟨[], []⟩ }
      return c : Build ClassId) q anything := by
  cases hasSource with
  | false => exact pure trivial
  | true =>
    have set : Steps (Program.Change whole) (Build.modifyClass c fun o =>
        { o with template := some ⟨[], []⟩ }) q anything := by
      intro u q' run
      cases run
      exact ⟨.single (.setSource fresh), trivial⟩
    exact bind set fun _ _ _ _ => pure trivial

theorem defineClass {name : String} {site : Site} {flags : Flags ClassFlag} {hasSource : Bool}
    (h : q.Coherent) (exist : whole → (q.siteOwner site).index < q.classes.size) :
    Steps (Program.Change whole) (Build.defineClass name site flags hasSource) q anything := by
  apply get_bind
  have added : Steps (Program.Change whole) (Build.newClass { (default : ClassDef) with
      name, flags, owner := some (q.siteOwner site) }) q fun c q' =>
        q'.Fresh c ∧ (q'.cls c).owner = some (q.siteOwner site) ∧
          (q'.cls c).primaryConstructor = none := by
    intro c q' run
    cases run
    refine ⟨.single (.addClass rfl exist ⟨rfl, rfl, rfl, rfl, rfl⟩), h.fresh_push rfl, ?_⟩
    rw [Program.cls_push, if_pos rfl]
    exact ⟨rfl, rfl⟩
  refine bind added fun c q₁ _ h₁ => ?_
  obtain ⟨fresh, owner, unset⟩ := h₁
  have entered : Steps (Program.Edit whole) (Build.enterMember c site) q₁ anything := by
    apply enterMember
    rintro d rfl
    exact owner
  refine bind entered.change fun _ q₂ _ h₂ => ?_
  have fresh₂ := fresh.after h₂.1
  cases flags.has .foreignInterface with
  | true => exact setSource fresh₂
  | false =>
    refine bind (definePrimaryConstructor fresh₂ ?_) fun _ _ _ fresh₃ => setSource fresh₃
    exact (h₂.1.primaryConstructor c).trans unset

theorem extend {parent : ClassRef} {args : List Arg} (exist : parent.cls.index < q.classes.size) :
    Steps (Program.Change whole) (Build.extend c parent args) q anything := by
  apply get_bind
  intro u q' run
  cases run
  exact ⟨.single (.extend exist), trivial⟩

end Steps

end Build

/-! ## Commands -/

variable {whole : Prop} {q : Program}

/-- All commands are sequences of edits but the definition of a class and the listing of a
    parent. -/
theorem Command.edits (h : q.Coherent) {command : Command} (exist : whole → command.uses.Exist q) :
    (∃ name site flags hasSource, command = .defineClass name site flags hasSource) ∨
      (∃ c parent args, command = .extend c parent args) ∨
        Build.Steps (Program.Edit whole) command.run q Build.anything := by
  have cls {c : ClassId} (first : command.uses.classes.head? = some c) (h : whole) :
      c.index < q.classes.size :=
    (exist h).1 c (List.mem_of_mem_head? first)
  have symbol {s : SymbolId} (first : command.uses.symbols.head? = some s) (h : whole) :
      s.index < q.symbols.size :=
    (exist h).2.1 s (List.mem_of_mem_head? first)
  have exprs (h : whole) : ∀ e ∈ command.uses.exprs, e.index < q.exprs.size := (exist h).2.2
  cases command with
  | defineClass name site flags hasSource => exact .inl ⟨name, site, flags, hasSource, rfl⟩
  | extend c parent args => exact .inr (.inl ⟨c, parent, args, rfl⟩)
  | setClassSpan =>
    exact .inr <| .inr <| .bind (.modifyClass ⟨fun _ => rfl, fun _ => rfl, fun _ => rfl⟩)
      fun _ _ _ _ => .pure trivial
  | declareMember => exact .inr <| .inr <| .map (Build.Steps.declareMember (cls rfl)).of_anything
  | declareParam => exact .inr <| .inr <| .map (.declareParam (symbol rfl))
  | defineClassParam => exact .inr <| .inr <| .map (.defineClassParam h (cls rfl))
  | defineField => exact .inr <| .inr <| .map (Build.Steps.define (cls rfl)).of_anything
  | defineMethod | defineConstructor => exact .inr <| .inr <| .map (.defineMethod (cls rfl))
  | declareMethod => exact .inr <| .inr <| .map (.declareMethod (cls rfl))
  | declareLocal | declareLocalMethod => exact .inr <| .inr <| .map (.declareInside (symbol rfl))
  | declareFunction owner =>
    refine .inr <| .inr <| .map (.declareInside fun hw => ?_)
    cases owner with
    | cls c => exact cls rfl hw
    | symbol s => exact symbol rfl hw
  | setBody | setSymbolSpan =>
    exact .inr <| .inr <| .bind (.modifySymbol fun _ => ⟨rfl, rfl, rfl, List.prefix_rfl⟩)
      fun _ _ _ _ => .pure trivial
  | appendStat => exact .inr <| .inr <| .bind .appendStat fun _ _ _ _ => .pure trivial
  | setSpan => exact .inr <| .inr <| .bind (.modifyExpr fun _ => rfl) fun _ _ _ _ => .pure trivial
  | ident | callNamed =>
    exact .inr <| .inr <| .get_bind (.bind (.newExpr exprs) fun _ _ _ _ => .pure trivial)
  | constructorCall => exact .inr <| .inr <| .map (.addConstructorCall exprs)
  | newInstance =>
    refine .inr <| .inr <| .bind (.primaryConstructor h) fun _ q' edits _ => ?_
    refine .bind (.newExpr fun hw e he => ?_) fun _ _ _ _ => .pure trivial
    exact Nat.lt_of_lt_of_le (exprs hw e he) (Program.SameShapes.of_edits edits).exprs
  | closure function body =>
    exact .inr <| .inr <| .map (.addClosure fun hw => exprs hw body (List.mem_singleton_self body))
  | _ => exact .inr <| .inr <| .map (Build.Steps.newExpr exprs).of_anything

/-- A command is a sequence of changes if the parents that it lists exist. -/
theorem Command.changes (h : q.Coherent) {command : Command}
    (parents : ∀ c parent args, command = .extend c parent args → parent.cls.index < q.classes.size)
    (homes : whole → ∀ s, (q.homeClass s).index < q.classes.size)
    (exist : whole → command.uses.Exist q) :
    Build.Steps (Program.Change whole) command.run q Build.anything := by
  rcases Command.edits h exist with
    ⟨name, site, flags, hasSource, rfl⟩ | ⟨c, parent, args, rfl⟩ | hx
  · refine .map (.defineClass h fun hw => ?_)
    cases site with
    | package => exact Nat.lt_of_lt_of_le (show 0 < 3 by decide) h.size
    | cls c => exact (exist hw).1 c List.mem_cons_self
    | inside s => exact homes hw s
  · exact .bind (.extend (parents c parent args rfl)) fun _ _ _ _ => .pure trivial
  · exact hx.change.of_anything

end ObjectInit
