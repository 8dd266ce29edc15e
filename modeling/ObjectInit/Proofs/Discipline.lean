import ObjectInit.Proofs.Constructions

/-!
# How constructors are called

Constructors are called for the parents of a class and for new objects. Apart from that, a
constructor may call another one of its class on the same object. `Program.IsCode` says in the code
of which class an expression is evaluated, and `Program.Disciplined` that the code of a program
calls constructors in no other way.

Main results:

* `Program.IsCode.mem_homes`, `Program.Disciplined.of_homes`: tables of the code of a program, by
  which it is tested whether constructors are called in this way.
-/

namespace ObjectInit

variable {p : Program}

namespace Program

/-- The expression is evaluated in the code of the class, where the mark tells whether this is the
    code of a constructor. The templates themselves are left out. -/
inductive IsCode (p : Program) : Bool → ExprId → ClassId → Prop
  | body {x : SymbolId} {e : ExprId} (h : (p.symbol x).body = some e)
    (plain : ∀ d, (p.expr e).node ≠ .template d) :
    IsCode p (p.symbol x).isConstructor e (p.homeClass x)
  | stat {c : ClassId} {T : Template} {e : ExprId} (ht : (p.cls c).template = some T)
    (h : e ∈ T.body) : IsCode p false e c
  | arg {c : ClassId} {T : Template} {parent : Parent} {arg : Arg}
    (ht : (p.cls c).template = some T) (hp : parent ∈ T.parents) (h : arg ∈ parent.args) :
    IsCode p false arg.expr c
  | part {b : Bool} {e e' : ExprId} {c : ClassId} (h : IsCode p b e c)
    (child : e' ∈ (p.expr e).node.children) : IsCode p b e' c
  | valDef {b : Bool} {e e' : ExprId} {c : ClassId} {x : SymbolId} (h : IsCode p b e c)
    (node : (p.expr e).node = .valDef x) (body : (p.symbol x).body = some e') : IsCode p b e' c

/-- The expression calls a constructor on the value of the qualifier. -/
def CallsConstructor (p : Program) (e qualifier : ExprId) (f : SymbolId) : Prop :=
  ∃ args, (p.expr e).node = .call (.select qualifier f) args ∧ (p.symbol f).isConstructor = true

/-- The bodies of primary constructors are the templates of their classes, which occur nowhere
    else. -/
structure HoldsTemplates (p : Program) : Prop where
  bodies : ∀ x e d, (p.symbol x).body = some e → (p.expr e).node = .template d →
    (p.cls d).primaryConstructor = some x
  primaries : ∀ c x e, (p.cls c).primaryConstructor = some x → (p.symbol x).body = some e →
    (p.cls c).hasSource = true ∧ (p.expr e).node = .template c
  templates : ∀ b e c d, p.IsCode b e c → (p.expr e).node ≠ .template d

/-- The bodies of primary constructors are templates, which occur nowhere else. Constructors are
    called only through parents, for new objects, and in the code of other constructors of the same
    class on the same object. -/
structure Disciplined (p : Program) : Prop where
  bodies : ∀ x e d, (p.symbol x).body = some e → (p.expr e).node = .template d →
    (p.cls d).primaryConstructor = some x
  primaries : ∀ c x e, (p.cls c).primaryConstructor = some x → (p.symbol x).body = some e →
    (p.cls c).hasSource = true ∧ (p.expr e).node = .template c
  templates : ∀ b e c d, p.IsCode b e c → (p.expr e).node ≠ .template d
  names : ∀ b e c, p.IsCode b e c → ∀ x ∈ (p.expr e).node.names,
    (p.symbol x).isConstructor = false
  paths : ∀ c T, (p.cls c).template = some T → ∀ parent ∈ T.parents,
    ∀ x ∈ parent.type.path.symbols, (p.symbol x).isConstructor = false
  calls : ∀ b e c qualifier f, p.IsCode b e c → p.CallsConstructor e qualifier f →
    b = true ∧ p.homeClass f = c ∧ (p.expr qualifier).node = .thisOf c
  qualifiers : ∀ b e c qualifier f, p.IsCode b e c → p.CallsConstructor e qualifier f →
    ∀ b' d, p.IsCode b' qualifier d → d = c

/-- The fields that are defined in the body of a class. -/
def definedFields (p : Program) (c : ClassId) : List SymbolId :=
  match (p.cls c).template with
  | some T => T.body.filterMap fun e =>
    match (p.expr e).node with
    | .valDef x => some x
    | _ => none
  | none => []

/-- Each field is defined at most once, and not if it stores a class parameter. -/
def DefinesOnce (p : Program) : Prop :=
  (p.classIds.flatMap p.definedFields).Nodup ∧
    ∀ c ∈ p.classIds, ∀ x ∈ p.definedFields c, (p.symbol x).isParamAccessor = false

instance (p : Program) : Decidable p.DefinesOnce := inferInstanceAs (Decidable (_ ∧ _))

end Program

/-! ## Tables of code -/

namespace Node

def template? : Node → Option ClassId
  | .template c => some c
  | _ => none

def valDef? : Node → Option SymbolId
  | .valDef x => some x
  | _ => none

/-- The qualifier and the method of a call. -/
def methodCall? : Node → Option (ExprId × SymbolId)
  | .call (.select qualifier f) _ => some (qualifier, f)
  | _ => none

/-- The class of the object that is created, and the constructor that is called on it. -/
def newCall? : Node → Option (ClassId × SymbolId)
  | .new type x _ => some (type.cls, x)
  | _ => none

end Node

namespace Program

/-- The table lists all code. -/
structure Homes (p : Program) (homes : ExprId → List (Bool × ClassId)) : Prop where
  bodies : ∀ i < p.symbols.size, ∀ e ∈ (p.symbol ⟨i⟩).body, (p.expr e).node.template? = none →
    ((p.symbol ⟨i⟩).isConstructor, p.homeClass ⟨i⟩) ∈ homes e
  stats : ∀ i < p.classes.size, ∀ T ∈ (p.cls ⟨i⟩).template, ∀ e ∈ T.body, (false, ⟨i⟩) ∈ homes e
  args : ∀ i < p.classes.size, ∀ T ∈ (p.cls ⟨i⟩).template, ∀ parent ∈ T.parents,
    ∀ arg ∈ parent.args, (false, ⟨i⟩) ∈ homes arg.expr
  parts : ∀ i < p.exprs.size, ∀ h ∈ homes ⟨i⟩, ∀ e ∈ (p.expr ⟨i⟩).node.children, h ∈ homes e
  valDefs : ∀ i < p.exprs.size, ∀ h ∈ homes ⟨i⟩, ∀ x ∈ (p.expr ⟨i⟩).node.valDef?,
    ∀ e ∈ (p.symbol x).body, h ∈ homes e

/-- Templates are where they should be, by the table. -/
structure Homes.HoldsTemplates (p : Program) (homes : ExprId → List (Bool × ClassId)) : Prop where
  bodies : ∀ i < p.symbols.size, ∀ e ∈ (p.symbol ⟨i⟩).body, ∀ d ∈ (p.expr e).node.template?,
    (p.cls d).primaryConstructor = some ⟨i⟩
  primaries : ∀ i < p.classes.size, ∀ x ∈ (p.cls ⟨i⟩).primaryConstructor, ∀ e ∈ (p.symbol x).body,
    (p.cls ⟨i⟩).hasSource = true ∧ (p.expr e).node = .template ⟨i⟩
  templates : ∀ i < p.exprs.size, ∀ h ∈ homes ⟨i⟩, (p.expr ⟨i⟩).node.template? = none

/-- The code in the table calls constructors as it should. -/
structure Homes.Disciplined (p : Program) (homes : ExprId → List (Bool × ClassId)) : Prop where
  bodies : ∀ i < p.symbols.size, ∀ e ∈ (p.symbol ⟨i⟩).body, ∀ d ∈ (p.expr e).node.template?,
    (p.cls d).primaryConstructor = some ⟨i⟩
  primaries : ∀ i < p.classes.size, ∀ x ∈ (p.cls ⟨i⟩).primaryConstructor, ∀ e ∈ (p.symbol x).body,
    (p.cls ⟨i⟩).hasSource = true ∧ (p.expr e).node = .template ⟨i⟩
  templates : ∀ i < p.exprs.size, ∀ h ∈ homes ⟨i⟩, (p.expr ⟨i⟩).node.template? = none
  names : ∀ i < p.exprs.size, ∀ h ∈ homes ⟨i⟩, ∀ x ∈ (p.expr ⟨i⟩).node.names,
    (p.symbol x).isConstructor = false
  paths : ∀ i < p.classes.size, ∀ T ∈ (p.cls ⟨i⟩).template, ∀ parent ∈ T.parents,
    ∀ x ∈ parent.type.path.symbols, (p.symbol x).isConstructor = false
  calls : ∀ i < p.exprs.size, ∀ h ∈ homes ⟨i⟩, ∀ call ∈ (p.expr ⟨i⟩).node.methodCall?,
    (p.symbol call.2).isConstructor = true → h.1 = true ∧ p.homeClass call.2 = h.2 ∧
      (p.expr call.1).node = .thisOf h.2 ∧ ∀ h' ∈ homes call.1, h'.2 = h.2

variable {homes : ExprId → List (Bool × ClassId)}

theorem index_lt_of_child {e e' : ExprId} (h : e' ∈ (p.expr e).node.children) :
    e.index < p.exprs.size := by
  by_contra outside
  rw [expr_of_size_le (Nat.le_of_not_lt outside)] at h
  cases h

theorem index_lt_of_template {c : ClassId} {T : Template} (h : (p.cls c).template = some T) :
    c.index < p.classes.size :=
  index_lt_of_source (by rw [ClassDef.hasSource, h]; rfl)

theorem index_lt_of_body {x : SymbolId} {e : ExprId} (h : (p.symbol x).body = some e) :
    x.index < p.symbols.size := by
  by_contra outside
  rw [symbol, Array.getD, dif_neg outside] at h
  cases h

theorem index_lt_of_node {e : ExprId} (h : (p.expr e).node ≠ .wildcard) :
    e.index < p.exprs.size := by
  by_contra outside
  rw [expr_of_size_le (Nat.le_of_not_lt outside)] at h
  exact h rfl

theorem IsCode.mem_homes (table : p.Homes homes) {b : Bool} {e : ExprId} {c : ClassId}
    (h : p.IsCode b e c) : (b, c) ∈ homes e := by
  induction h with
  | @body x e h plain =>
    refine table.bodies x.index (index_lt_of_body h) e h ?_
    cases hn : (p.expr e).node with
    | template d => exact absurd hn (plain d)
    | _ => rfl
  | stat ht h => exact table.stats _ (index_lt_of_template ht) _ ht _ h
  | arg ht hp h => exact table.args _ (index_lt_of_template ht) _ ht _ hp _ h
  | part _ child ih => exact table.parts _ (index_lt_of_child child) _ ih _ child
  | @valDef b e e' c x _ node body ih =>
    refine table.valDefs e.index (index_lt_of_node (by rw [node]; nofun)) _ ih x ?_ e' body
    rw [node]
    rfl

/-- By a table of its code, it is tested whether templates are where they should be. -/
theorem HoldsTemplates.of_homes (table : p.Homes homes) (test : Homes.HoldsTemplates p homes) :
    p.HoldsTemplates where
  bodies x e d body node := by
    refine test.bodies x.index (index_lt_of_body body) e body d ?_
    rw [node]
    rfl
  primaries c x e hx := by
    by_cases h : c.index < p.classes.size
    · exact test.primaries c.index h x hx e
    · rw [cls_of_size_le (Nat.le_of_not_lt h)] at hx
      cases hx
  templates b e c d code node := by
    have := test.templates e.index (index_lt_of_node (by rw [node]; nofun)) _ (code.mem_homes table)
    rw [node] at this
    cases this

/-- By a table of its code, it is tested whether a program calls constructors as it should. -/
theorem Disciplined.of_homes (homes : ExprId → List (Bool × ClassId)) (table : p.Homes homes)
    (test : Homes.Disciplined p homes) : p.Disciplined where
  bodies := (HoldsTemplates.of_homes table ⟨test.bodies, test.primaries, test.templates⟩).bodies
  primaries :=
    (HoldsTemplates.of_homes table ⟨test.bodies, test.primaries, test.templates⟩).primaries
  templates :=
    (HoldsTemplates.of_homes table ⟨test.bodies, test.primaries, test.templates⟩).templates
  names b e c code x hx := by
    refine test.names e.index (index_lt_of_node fun node => ?_) _ (code.mem_homes table) x hx
    rw [node] at hx
    cases hx
  paths c T ht := test.paths c.index (index_lt_of_template ht) T ht
  calls b e c qualifier f code call := by
    obtain ⟨args, node, constructor⟩ := call
    have := test.calls e.index (index_lt_of_node (by rw [node]; nofun)) _ (code.mem_homes table)
      (qualifier, f) (by rw [node]; rfl) constructor
    exact ⟨this.1, this.2.1, this.2.2.1⟩
  qualifiers b e c qualifier f code call b' d code' := by
    obtain ⟨args, node, constructor⟩ := call
    have := test.calls e.index (index_lt_of_node (by rw [node]; nofun)) _ (code.mem_homes table)
      (qualifier, f) (by rw [node]; rfl) constructor
    exact this.2.2.2 _ (code'.mem_homes table)

end Program

end ObjectInit
