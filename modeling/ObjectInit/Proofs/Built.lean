import ObjectInit.Program.Command

/-!
# Programs that are built

Every program is `Program.initial` after some commands. It is built (`Program.Built`) if each class
exists when it is listed as a parent, and assembled (`Program.Assembled`) if everything that a
command uses exists by then. What commands make of the tables is said in `Program.Change`; this file
states what has to exist and what the tables of a built program have in common
(`Program.Coherent`), and looks up entries of tables that have changed.
-/

namespace ObjectInit

/-! ## Parts -/

/-- The classes that a path names. -/
def Path.classes : Path → List ClassId
  | .thisOf c => [c]
  | .member base _ => base.classes
  | _ => []

/-- The symbols that a path names. -/
def Path.symbols : Path → List SymbolId
  | .member base s => base.symbols ++ [s]
  | _ => []

/-- The expressions that a callee consists of. -/
def Callee.children : Callee → List ExprId
  | .select qualifier _ => [qualifier]
  | _ => []

/-- The expressions that an expression consists of. -/
def Node.children : Node → List ExprId
  | .select qualifier _ => [qualifier]
  | .call callee args => callee.children ++ args.map Arg.expr
  | .new _ _ args => args.map Arg.expr
  | .assign target value => [target, value]
  | .ifElse cond onTrue onFalse => [cond, onTrue, onFalse]
  | .matchOn scrutinee branches => scrutinee :: branches
  | .whileLoop cond body => [cond, body]
  | .tryCatch body handlers finalizer => body :: (handlers ++ finalizer.toList)
  | .sequence elems => elems
  | .closure _ body => [body]
  | .block stats result => stats ++ [result]
  | .typed e _ | .annotated e _ | .ret e | .namedArg e => [e]
  | _ => []

/-- The expressions that the definition of a class consists of: the statements, and the arguments
    for the constructors of the parents. -/
def Template.parts (t : Template) : List ExprId :=
  t.body ++ t.parents.flatMap fun parent => parent.args.map Arg.expr

/-- The expressions that are parts of other expressions or of the definitions of classes. -/
def Program.parts (p : Program) : List ExprId :=
  p.exprs.toList.flatMap (·.node.children) ++
    p.classes.toList.flatMap fun c => c.template.toList.flatMap Template.parts

namespace Program

variable {p : Program} {e e' : ExprId} {c : ClassId} {template : Template}

theorem mem_parts_of_child (h : e' ∈ (p.expr e).node.children) : e' ∈ p.parts := by
  refine List.mem_append_left _ (List.mem_flatMap.2 ⟨p.expr e, ?_, h⟩)
  unfold expr Array.getD at h ⊢
  split
  · exact Array.mem_toList_iff.2 (Array.getElem_mem _)
  · next outside =>
    rw [dif_neg outside] at h
    cases h

theorem mem_parts_of_template (ht : (p.cls c).template = some template)
    (h : e ∈ template.parts) : e ∈ p.parts := by
  refine List.mem_append_right _ (List.mem_flatMap.2 ⟨p.cls c, ?_, ?_⟩)
  · unfold cls Array.getD at ht ⊢
    split
    · exact Array.mem_toList_iff.2 (Array.getElem_mem _)
    · next outside =>
      rw [dif_neg outside] at ht
      cases ht
  · rw [ht]
    simpa using h

theorem mem_parts_of_stat (ht : (p.cls c).template = some template) (h : e ∈ template.body) :
    e ∈ p.parts :=
  mem_parts_of_template ht (List.mem_append_left _ h)

theorem mem_parts_of_arg (ht : (p.cls c).template = some template) {parent : Parent}
    (hparent : parent ∈ template.parents) {arg : Arg} (harg : arg ∈ parent.args) :
    arg.expr ∈ p.parts :=
  mem_parts_of_template ht
    (List.mem_append_right _ (List.mem_flatMap.2 ⟨parent, hparent, List.mem_map_of_mem harg⟩))

end Program

/-! ## What commands use -/

/-- Classes, symbols and expressions. -/
structure Uses where
  classes : List ClassId := []
  symbols : List SymbolId := []
  exprs : List ExprId := []

/-- All of them are in the tables. -/
def Uses.Exist (u : Uses) (q : Program) : Prop :=
  (∀ c ∈ u.classes, c.index < q.classes.size) ∧ (∀ s ∈ u.symbols, s.index < q.symbols.size) ∧
    ∀ e ∈ u.exprs, e.index < q.exprs.size

instance (u : Uses) (q : Program) : Decidable (u.Exist q) :=
  inferInstanceAs (Decidable (_ ∧ _ ∧ _))

/-- What a command uses. -/
def Command.uses : Command → Uses
  | .defineClass _ (.cls owner) _ _ => { classes := [owner] }
  | .defineClass _ (.inside s) _ _ => { symbols := [s] }
  | .defineClass _ .package _ _ => {}
  | .setClassSpan c _ | .declareMember c _ _ | .defineClassParam c _ | .defineField c _ _
  | .defineMethod c _ _ _ | .declareMethod c _ _ | .defineConstructor c _ | .thisOf c =>
    { classes := [c] }
  | .extend c parent args =>
    { classes := c :: parent.cls :: parent.path.classes, symbols := parent.path.symbols
      exprs := args.map Arg.expr }
  | .declareParam s _ | .declareLocal s _ | .declareLocalMethod s _ _ | .setSymbolSpan s _
  | .ident s | .valDef s | .methodDef s => { symbols := [s] }
  | .declareFunction (.cls c) _ => { classes := [c] }
  | .declareFunction (.symbol s) _ => { symbols := [s] }
  | .setBody s e | .closure s e => { symbols := [s], exprs := [e] }
  | .appendStat c e => { classes := [c], exprs := [e] }
  | .setSpan e _ => { exprs := [e] }
  | .wildcard | .literal => {}
  | .identFrom base s => { classes := base.classes, symbols := s :: base.symbols }
  | .select qualifier s => { symbols := [s], exprs := [qualifier] }
  | .call qualifier method args => { symbols := [method], exprs := qualifier :: args.map Arg.expr }
  | .callNamed method args => { symbols := [method], exprs := args.map Arg.expr }
  | .superCall home base method args =>
    { classes := [home, base], symbols := [method], exprs := args.map Arg.expr }
  | .constructorCall c ctor args =>
    { classes := [c], symbols := [ctor], exprs := args.map Arg.expr }
  | .newInstance c args => { classes := [c], exprs := args.map Arg.expr }
  | .newInstanceWith type ctor args =>
    { classes := type.cls :: type.path.classes, symbols := ctor :: type.path.symbols
      exprs := args.map Arg.expr }
  | .assign target value => { exprs := [target, value] }
  | .ifElse cond onTrue onFalse => { exprs := [cond, onTrue, onFalse] }
  | .matchOn scrutinee branches => { exprs := scrutinee :: branches }
  | .whileLoop cond body => { exprs := [cond, body] }
  | .tryCatch body handlers finalizer => { exprs := body :: (handlers ++ finalizer.toList) }
  | .sequence elems => { exprs := elems }
  | .block stats e => { exprs := stats ++ [e] }
  | .typed e _ | .annotated e _ | .ret e | .namedArg e => { exprs := [e] }
  | .typeDef c => { classes := c.toList }

/-- A listed parent as a class with its constructor. -/
def Parent.call (parent : Parent) : ClassId × Option SymbolId := (parent.type.cls, parent.ctor)

/-! ## Programs -/

namespace Program

/-- A program that commands build. A class has to exist when it is listed as a parent. -/
inductive Built : Program → Prop where
  | initial : Built .initial
  | command {q q' : Program} {command : Command} {created : Created} (h : Built q)
    (exist : ∀ c parent args, command = .extend c parent args →
      parent.cls.index < q.classes.size)
    (run : command.run.run q = .ok (created, q')) : Built q'

/-- A program that commands build which use only what exists. -/
inductive Assembled : Program → Prop where
  | initial : Assembled .initial
  | command {q q' : Program} {command : Command} {created : Created} (h : Assembled q)
    (exist : command.uses.Exist q) (run : command.run.run q = .ok (created, q')) : Assembled q'

theorem Assembled.built {q : Program} (h : q.Assembled) : q.Built := by
  induction h with
  | initial => exact .initial
  | command _ exist run ih =>
    refine .command ih (fun c parent args hcommand => ?_) run
    subst hcommand
    exact exist.1 parent.cls (by simp [Command.uses])

/-- Carries out a command, unless it is refused or uses what does not exist. -/
def after (q : Program) (command : Command) : Program :=
  if command.uses.Exist q then
    match command.run.run q with
    | .ok (_, q') => q'
    | .error _ => q
  else
    q

theorem Assembled.after {q : Program} (h : q.Assembled) (command : Command) :
    (q.after command).Assembled := by
  unfold Program.after
  split
  · next exist =>
    split
    · next run => exact .command h exist run
    · exact h
  · exact h

/-- The program that the commands build. -/
def assemble (commands : List Command) : Program := commands.foldl after .initial

theorem assembled_assemble (commands : List Command) : (assemble commands).Assembled := by
  suffices h : ∀ q : Program, q.Assembled → (commands.foldl after q).Assembled from
    h .initial .initial
  induction commands with
  | nil => exact fun q hq => hq
  | cons command commands ih => exact fun q hq => ih _ (hq.after command)

/-! ## Coherent tables -/

/-- A class as a parent, with its primary constructor. -/
def parentCall (q : Program) (c : ClassId) : ClassId × Option SymbolId :=
  (c, (q.cls c).primaryConstructor)

/-- The primary constructor of a class is one of its members and marked as what it is. -/
def IsConstructorOf (q : Program) (ctor : SymbolId) (c : ClassId) : Prop :=
  ctor.index < q.symbols.size ∧ (q.symbol ctor).owner = .cls c ∧
    (q.symbol ctor).isPrimaryConstructor = true ∧ (q.symbol ctor).isConstructor = true

instance (q : Program) (ctor : SymbolId) (c : ClassId) : Decidable (q.IsConstructorOf ctor c) :=
  inferInstanceAs (Decidable (_ ∧ _ ∧ _ ∧ _))

/-- What holds of the tables after every command. -/
structure Coherent (q : Program) : Prop where
  size : 3 ≤ q.classes.size
  root : (q.cls .root).isPackage = true
  object : (q.cls .object).isTrait = false
  noSource : (q.cls .any).hasSource = false ∧ (q.cls .object).hasSource = false
  topLevel : (q.cls .any).owner = some .root ∧ (q.cls .object).owner = some .root
  parents : ∀ c, ∀ d ∈ (q.cls c).parents, d.index < q.classes.size
  listed : ∀ c t, (q.cls c).template = some t →
    t.parents.map Parent.call = (q.cls c).parents.map q.parentCall
  constructors : ∀ c ctor, (q.cls c).primaryConstructor = some ctor → q.IsConstructorOf ctor c

/-! ## Entries of changed tables -/

variable {q : Program}

theorem cls_eq_default {c : ClassId} (h : ¬ c.index < q.classes.size) : q.cls c = default :=
  cls_of_size_le (Nat.le_of_not_lt h)

theorem cls_modify (c : ClassId) (f : ClassDef → ClassDef) (d : ClassId) :
    ({ q with classes := q.classes.modify c.index f } : Program).cls d =
      if d = c ∧ c.index < q.classes.size then f (q.cls c) else q.cls d := by
  have hindex : c.index = d.index ↔ d = c := by
    constructor
    · intro h
      cases c
      cases d
      cases h
      rfl
    · exact fun h => congrArg ClassId.index h.symm
  simp only [cls, Array.getD_eq_getD_getElem?, Array.getElem?_modify, hindex]
  by_cases hdc : d = c
  · subst hdc
    by_cases hlt : d.index < q.classes.size
    · simp [hlt]
    · simp [hlt]
  · simp [hdc]

theorem cls_push (o : ClassDef) (d : ClassId) :
    ({ q with classes := q.classes.push o } : Program).cls d =
      if d.index = q.classes.size then o else q.cls d := by
  simp only [cls, Array.getD_eq_getD_getElem?, Array.getElem?_push]
  split <;> rfl

theorem expr_push (node : Node) (e : ExprId) :
    ({ q with exprs := q.exprs.push ⟨.empty, node⟩ } : Program).expr e =
      if e.index = q.exprs.size then ⟨.empty, node⟩ else q.expr e := by
  simp only [expr, Array.getD_eq_getD_getElem?, Array.getElem?_push]
  split <;> rfl

theorem symbol_push (o : Symbol) (s : SymbolId) :
    ({ q with symbols := q.symbols.push o } : Program).symbol s =
      if s.index = q.symbols.size then o else q.symbol s := by
  simp only [symbol, Array.getD_eq_getD_getElem?, Array.getElem?_push]
  split <;> rfl

theorem symbol_modify (s : SymbolId) (f : Symbol → Symbol) (t : SymbolId) :
    ({ q with symbols := q.symbols.modify s.index f } : Program).symbol t =
      if t = s ∧ s.index < q.symbols.size then f (q.symbol s) else q.symbol t := by
  have hindex : s.index = t.index ↔ t = s := by
    constructor
    · intro h
      cases s
      cases t
      cases h
      rfl
    · exact fun h => congrArg SymbolId.index h.symm
  simp only [symbol, Array.getD_eq_getD_getElem?, Array.getElem?_modify, hindex]
  by_cases hts : t = s
  · subst hts
    by_cases hlt : t.index < q.symbols.size
    · simp [hlt]
    · simp [hlt]
  · simp [hts]

end Program

end ObjectInit
