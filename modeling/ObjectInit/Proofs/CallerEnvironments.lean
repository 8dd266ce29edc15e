import ObjectInit.Proofs.Twins
import ObjectInit.Proofs.Visits

/-!
# The environment of the caller

Methods, constructors and closures have environments of their own. The initializer of a lazy field
has none: it is evaluated in the environment of whatever reads the field first. What an answer
depends on there is listed by `Query.sight`: symbols that are looked up or bound, closures that
capture the environment, and new objects, which are cold where the environment is not hot.

Main results:

* `Plan.blind_plan`: the plan of a question is a twin of itself, if what it sees may be seen.
* `Query.sameIn`: then the question has the same answer in twin environments.
* `Query.select_in_two_environments`: reading a field in two environments of which nothing is seen.
* `Query.select_differs`, `Query.select_captures`: initializers that look up no symbol and have
  different values.
-/

namespace ObjectInit

/-! ## What is seen of an environment -/

/-- What an answer takes from the environment in which the question is asked. -/
structure Sight where
  /-- The symbols that are looked up or bound. -/
  names : List SymbolId := []
  /-- A closure captures the environment. -/
  captures : Bool := false
  /-- An object is created, which is cold where the environment is not hot. -/
  heat : Bool := false

/-- No hidden symbol is seen and no environment captured, and whether it is hot is found out only
    where this is allowed. -/
structure Sight.Fits (hidden : SymbolId → Prop) (tested : Prop) (sight : Sight) : Prop where
  names : ∀ x ∈ sight.names, ¬hidden x
  captures : sight.captures = false
  heat : sight.heat = true → tested

instance (hidden : SymbolId → Prop) (tested : Prop) [DecidablePred hidden] [Decidable tested]
    (sight : Sight) : Decidable (sight.Fits hidden tested) :=
  decidable_of_iff ((∀ x ∈ sight.names, ¬hidden x) ∧ sight.captures = false ∧
      (sight.heat = true → tested))
    ⟨fun ⟨names, captures, heat⟩ => ⟨names, captures, heat⟩,
      fun fits => ⟨fits.names, fits.captures, fits.heat⟩⟩

/-- The local or parameter that a path starts with. -/
def Path.local? : Path → Option SymbolId
  | .member .bare s => some s
  | .member base _ => base.local?
  | _ => none

namespace Program

variable (p : Program)

/-- The member is a local method, which sees the environment of its caller. -/
def seesCaller (target : SymbolId) : Bool :=
  !(p.symbol target).isPrimaryConstructor && !(p.symbol target).isConstructor &&
    (p.symbol target).isLocal

/-- A local method binds its parameters in the environment of its caller. -/
def memberSight (target : SymbolId) : Sight :=
  { names := if p.seesCaller target then (p.symbol target).params else [] }

def nodeSight : Node → Sight
  | .ident s path =>
    { names := (if (p.symbol s).isMethod then path.base?.getD .bare else path).local?.toList }
  | .call callee args =>
    { names := match callee with
        | .ident _ path => path.local?.toList
        | _ => []
      captures := args.any Arg.byName }
  | .new _ _ args => { captures := args.any Arg.byName }
  | .closure .. => { captures := true }
  | .block stats _ => { names := stats.filterMap (Plan.localDef? p) }
  | _ => {}

/-- The parameters that the fields of a class are set to. -/
def storedParams (c : ClassId) : List SymbolId :=
  let params := match (p.cls c).primaryConstructor with
    | some ctor => (p.symbol ctor).params
    | none => []
  (p.paramFields c).filterMap fun field =>
    params.find? fun s => (p.symbol s).name == (p.symbol field).name

def templateSight (c : ClassId) : Sight :=
  { names := p.storedParams c
    captures := (p.cls c).template.any fun t => t.parents.any fun parent =>
      parent.args.any Arg.byName }

end Program

namespace Query

variable {β γ : Type} (p : Program)

/-- What the plan of a question sees of the environment. An evaluation whose value is known sees
    nothing. -/
def sight : Query β → Store → Sight
  | .eval e frame _, s =>
    if (s.cache.find? frame.receiver e).isSome then {} else p.nodeSight (p.expr e).node
  | .call v method _ dispatch _, _ =>
    match v with
    | .ref a => p.memberSight (Plan.target p a method dispatch)
    | _ => {}
  | .construct v ctor _ _, _ =>
    match v with
    | .ref _ => p.memberSight ctor
    | _ => {}
  | .create outer c _ _ _, _ => { heat := outer.addr?.isSome && (p.cls c).hasSource }
  | .template c _, _ => p.templateSight c
  | .outerInstance type _ _, _ => { names := type.path.local?.toList }
  | _, _ => {}

/-- The code that the question runs itself has an environment of its own. -/
def ownsEnv : Query β → Bool
  | .call v method _ dispatch _ =>
    match v with
    | .ref a => !p.seesCaller (Plan.target p a method dispatch)
    | _ => true
  | .construct v ctor _ _ =>
    match v with
    | .ref _ => !p.seesCaller ctor
    | _ => true
  | .promote .. | .check _ => true
  | _ => false

def isEval : Query β → Bool
  | .eval .. => true
  | _ => false

/-- A question that may be asked in the environment of the caller, where code that has an
    environment of its own is not run. -/
def AskedIn (own : Bool) (γ : Type) (r : Query γ) : Prop := own = true → r.isEval = false

/-- On the way from the first question in the first store, the second question is asked in the
    second store, in the environment of the first one or in one that blocks and local methods added
    to. -/
inductive Beneath (p : Program) {β : Type} (q : Query β) (s : Store) :
    {γ : Type} → Query γ → Store → Prop where
  | start : Beneath p q s q s
  | asked {γ δ : Type} {r : Query γ} {r' : Query δ} {t u : Store} (h : Beneath p q s r t)
    (hasks : (r.plan p).Asks p t r' u) (shared : AskedIn (r.ownsEnv p) δ r') : Beneath p q s r' u

end Query

namespace Plan

variable {p : Program} {hidden : SymbolId → Prop} {tested : Prop} {own : Bool}
  {args : List ArgValue}

/-- The plan is a twin of itself. -/
abbrev Blind (hidden : SymbolId → Prop) (tested : Prop) (own : Bool) {α : Type} (x : Plan α) :
    Prop :=
  Twin hidden tested (Query.AskedIn own) x x

/-! ## Fields -/

theorem blind_failUnknown (member : SymbolId) (source : Span) :
    Blind hidden tested own (failUnknown p member source) :=
  .fail _ _

theorem blind_eval (e : ExprId) (frame : Frame) (final : Bool) :
    Blind hidden tested false (liftM (Query.eval e frame final) : Plan Outcome) :=
  .ask_self nofun

theorem blind_initializer (a : Addr) (field : SymbolId) (source : Span) :
    Blind hidden tested false (initializer p a field source) := by
  unfold initializer
  split
  · exact .calledFrom _ (blind_eval _ _ _)
  · exact blind_failUnknown field source

theorem blind_selectMissing (a : Addr) (field : SymbolId) (source : Span) :
    Blind hidden tested false (selectMissing p a field source) := by
  cases a with
  | warm w => exact .ite (fun _ => .pure _) fun _ => blind_initializer _ field source
  | thisOf c =>
    exact .ite (fun _ => .calledFrom _ (.fail _ _)) fun _ => blind_failUnknown field source

theorem blind_selectAt (a : Addr) (field : SymbolId) (source : Span) :
    Blind hidden tested false (selectAt p a field source) := by
  refine .ite (fun _ => blind_initializer a field source) fun _ => ?_
  refine .look_bind fun s env _ => ?_
  dsimp only
  split
  · exact .pure _
  · exact blind_selectMissing a field source

theorem blind_select (v : Value) (field : SymbolId) (source : Span) (virtual : Bool) :
    Blind hidden tested false (select p v field source virtual) := by
  cases v with
  | hot => exact .pure _
  | cold => exact .fail _ _
  | ref a => exact blind_selectAt a _ source
  | closure => exact (Twin.report _ source).bind fun _ => .pure _
  | oneOf vs => exact .joinEach fun v => .ask_self nofun

/-! ## Calls -/

theorem blind_promoteArgument (arg : ArgValue) :
    Blind hidden tested own (promoteArgument arg) :=
  .inTrace _ (.ask_self fun _ => rfl)

theorem blind_promoteArguments (args : List ArgValue) :
    Blind hidden tested own (promoteArguments args) :=
  .errorsOfEach blind_promoteArgument

/-- Only a local method sees the environment of its caller, in which it binds its parameters. -/
theorem blind_runMember (a : Addr) (target : SymbolId) (args : List ArgValue)
    (fits : (p.memberSight target).Fits hidden tested) :
    Blind hidden tested (!p.seesCaller target) (runMember p a target args) := by
  cases body : (p.symbol target).body with
  | none =>
    simp only [runMember, body]
    exact .pure _
  | some e =>
    rw [runMember_of_body body]
    dsimp only
    by_cases primary : (p.symbol target).isPrimaryConstructor
    · rw [if_pos primary]
      exact (Twin.inEnv_own _ _).bind fun _ => .pure _
    rw [if_neg primary]
    by_cases constructor : (p.symbol target).isConstructor
    · rw [if_pos constructor]
      exact .inEnv_own _ _
    rw [if_neg constructor]
    by_cases isLocal : (p.symbol target).isLocal
    · have sees : p.seesCaller target = true := by
        rw [Program.seesCaller, eq_false_of_ne_true primary, eq_false_of_ne_true constructor,
          isLocal]
        rfl
      have open' : ∀ b ∈ widenedBindings (p.symbol target).params args, ¬hidden b.1 := by
        intro b hb
        refine fits.names b.1 ?_
        rw [Program.memberSight, if_pos sees]
        exact (List.of_mem_zip hb).1
      rw [if_pos isLocal, sees]
      exact .look_bind fun s env twins => .inEnv (twins.extend open') (blind_eval _ _ _)
    · rw [if_neg isLocal]
      refine (Twin.inEnv_own _ _).bind fun o => ?_
      exact (blind_promoteArguments args).bind fun _ => .pure _

theorem blind_callTarget (a : Addr) (target : SymbolId) (args : List ArgValue) (source : Span)
    (fits : (p.memberSight target).Fits hidden tested) :
    Blind hidden tested (!p.seesCaller target) (callTarget p a target args source) := by
  refine .ite (fun _ => .calledFrom _ (blind_runMember a target args fits)) fun _ => ?_
  exact .ite (fun _ => .pure _) fun _ => blind_failUnknown target source

theorem blind_call (v : Value) (method : SymbolId) (args : List ArgValue) (dispatch : Dispatch)
    (source : Span) {s : Store}
    (fits : ((Query.call v method args dispatch source).sight p s).Fits hidden tested) :
    Blind hidden tested ((Query.call v method args dispatch source).ownsEnv p)
      (call p v method args dispatch source) := by
  cases v with
  | hot => exact (blind_promoteArguments args).bind fun _ => .pure _
  | cold =>
    refine (Twin.fail _ _).bind fun o => ?_
    exact (blind_promoteArguments args).bind fun _ => .pure _
  | ref a =>
    refine .ite (fun _ => blind_callTarget a _ args source fits) fun _ => ?_
    refine .look_bind fun s env _ => ?_
    dsimp only
    split
    · exact .pure _
    · exact .ask_self fun _ => rfl
  | closure body params frame env =>
    refine .ite (fun _ => ?_) fun _ => .pure _
    refine (Twin.calledFrom _ (.inEnv_own _ _)).bind fun o => ?_
    exact (blind_promoteArguments args).bind fun _ => .pure _
  | oneOf vs => exact .joinEach fun v => .ask_self fun _ => rfl

theorem blind_construct (v : Value) (ctor : SymbolId) (args : List ArgValue) (source : Span)
    {s : Store} (fits : ((Query.construct v ctor args source).sight p s).Fits hidden tested) :
    Blind hidden tested ((Query.construct v ctor args source).ownsEnv p)
      (construct p v ctor args source) := by
  cases v with
  | ref a => exact blind_callTarget a ctor args source fits
  | _ => exact (Twin.report _ source).bind fun _ => .pure _

/-! ## Enclosing instances -/

theorem blind_askEnclosing (target : ClassId) (v : Value) (c : ClassId) (source : Span) :
    Blind hidden tested own (liftM (Query.enclosingInstance target v c source) : Plan Value) :=
  .ask_self fun _ => rfl

theorem blind_enclosingInstance (target : ClassId) (v : Value) (c : ClassId) (source : Span) :
    Blind hidden tested own (enclosingInstance p target v c source) := by
  refine .ite (fun _ => .pure _) fun _ => .ite (fun _ => .pure _) fun _ => ?_
  cases v with
  | hot => exact .pure _
  | cold => exact .pure _
  | ref a =>
    refine .look_bind fun s env _ => ?_
    dsimp only
    split
    · exact blind_askEnclosing _ _ _ _
    · exact (Twin.report _ source).bind fun _ => .pure _
  | closure => exact (Twin.report _ source).bind fun _ => .pure _
  | oneOf vs => exact (Twin.mapM fun v _ => blind_askEnclosing _ _ _ _).bind fun _ => .pure _

theorem blind_evalPath (frame : Frame) (source : Span) {path : Path}
    (shown : ∀ x ∈ path.local?, ¬hidden x) :
    Blind hidden tested own (evalPath p frame source path) := by
  induction path with
  | bare | constant | paramRef => exact .pure _
  | thisOf target =>
    refine .ite (fun _ => .pure _) fun _ => ?_
    exact (blind_askEnclosing _ _ _ _).bind fun _ => .pure _
  | member base s ih =>
    cases base with
    | bare =>
      refine .look_bind fun t env twins => ?_
      dsimp only
      rw [twins.shown s (shown s rfl)]
      exact .pure _
    | _ =>
      refine (ih shown).bind fun receiver => ?_
      exact (Twin.ask_self fun _ => rfl).bind fun _ => .pure _

theorem blind_outerInstance (type : ClassRef) (frame : Frame) (source : Span)
    (shown : ∀ x ∈ type.path.local?, ¬hidden x) :
    Blind hidden tested own (outerInstance p type frame source) := by
  refine .ite (fun _ => ?_) fun _ => .ite (fun _ => .pure _) fun _ => ?_
  · exact (blind_askEnclosing _ _ _ _).bind fun _ => .pure _
  · exact blind_evalPath frame source shown

/-! ## Promotion -/

theorem blind_failPromotion (reason : String) (source : Span) :
    Blind hidden tested own (failPromotion reason source) :=
  (Twin.perform_self rfl).bind fun _ => .pure _

theorem blind_explain (reason : String) (causes : List SafetyError) (source : Span) :
    Blind hidden tested own (explain reason causes source) :=
  .ite (fun _ => .pure _) fun _ => (Twin.perform_self rfl).bind fun _ => .pure _

theorem blind_requireHot (o : Outcome) (reason : String) (source : Span) :
    Blind hidden tested own (requireHot o reason source) :=
  (Twin.ask_self fun _ => rfl).bind fun _ => .pure _

theorem blind_tryUse {use : Plan Outcome} (h : Blind hidden tested own use) (at' : Span)
    (reason : String) (source : Span) :
    Blind hidden tested own (tryUse use at' reason source) :=
  .calledFrom _ (h.bind fun o => (blind_requireHot o reason source).bind fun _ => .pure _)

theorem blind_promoteWarm (w : Warm) (reason : String) (source : Span) :
    Blind hidden tested own (promoteWarm p w reason source) := by
  refine .ite (fun _ => blind_failPromotion reason source) fun _ => ?_
  refine (Twin.errorsOfEach fun field => ?_).bind fun es => ?_
  · exact blind_tryUse (.ask_self fun _ => rfl) _ reason source
  refine .look_bind fun s env _ => ?_
  refine (Twin.errorsOfEach fun method => ?_).bind fun fs => ?_
  · exact blind_tryUse (.ask_self fun _ => rfl) _ reason source
  · exact blind_explain reason _ source

theorem blind_promoteBody (body : ExprId) (params : List SymbolId) (frame : Frame) (env : Env)
    (reason : String) (source : Span) :
    Blind hidden tested own (promoteBody body params frame env reason source) :=
  (Twin.inEnv_own _ _).bind fun o => (blind_requireHot o reason source).bind fun _ => .pure _

theorem blind_promote (v : Value) (reason : String) (source : Span) :
    Blind hidden tested own (promote p v reason source) := by
  cases v with
  | hot => exact .pure _
  | cold => exact blind_failPromotion reason source
  | oneOf vs => exact .errorsOfEach fun v => .ask_self fun _ => rfl
  | ref a =>
    refine (Twin.ask_self fun _ => rfl).bind fun promotable => .ite (fun _ => .pure _) fun _ => ?_
    cases a with
    | warm w => exact .within rfl (blind_promoteWarm w reason source) .pure
    | thisOf c => exact blind_failPromotion reason source
  | closure body params frame env =>
    refine (Twin.ask_self fun _ => rfl).bind fun promotable => .ite (fun _ => .pure _) fun _ => ?_
    exact .within rfl (blind_promoteBody body params frame env reason source) fun causes =>
      blind_explain reason causes source

theorem blind_capturesHot (v : Value) : Blind hidden tested own (capturesHot p v) := by
  cases v with
  | ref a =>
    cases a with
    | warm w =>
      refine (Twin.perform_self rfl).bind fun creation => ?_
      exact .ite (fun _ => .ask_self fun _ => rfl) fun _ => .pure _
    | thisOf c => exact .look_bind fun s env _ => .pure _
  | closure body params frame env => exact .ask_self fun _ => rfl
  | _ => exact .pure _

theorem blind_isPromotable (v : Value) : Blind hidden tested own (isPromotable p v) := by
  have captures (v : Value) : Blind hidden tested own (do
      let promotable ← capturesHot p v
      if promotable then Effect.trust v
      return promotable : Plan Bool) := by
    refine (blind_capturesHot v).bind fun promotable => ?_
    cases promotable with
    | true => exact (Twin.perform_self rfl).bind fun _ => .pure _
    | false => exact .pure _
  cases v with
  | hot => exact .pure _
  | cold => exact .pure _
  | ref a => exact .look_bind fun s env _ => .ite (fun _ => .pure _) fun _ => captures _
  | closure body params frame env =>
    exact .look_bind fun s env _ => .ite (fun _ => .pure _) fun _ => captures _
  | oneOf vs =>
    refine .look_bind fun s env _ => .ite (fun _ => .pure _) fun _ => ?_
    exact .allM fun v => .ask_self fun _ => rfl

/-! ## Expressions -/

/-- Arguments by name would capture the environment. -/
theorem blind_evalArguments (frame : Frame) {args : List Arg}
    (strict : args.any Arg.byName = false) :
    Blind hidden tested false (evalArguments p frame args) := by
  rw [List.any_eq_false] at strict
  refine (Twin.mapM fun arg harg => ?_).bind fun _ => .pure _
  unfold evalArgument
  rw [if_neg (strict arg harg)]
  exact (blind_eval _ _ _).bind fun o => .look_bind fun s env _ => .pure _

theorem blind_errorsOf (e : ExprId) (frame : Frame) :
    Blind hidden tested false (errorsOf e frame) :=
  (blind_eval e frame false).bind fun _ => .pure _

theorem blind_errorsOfHot (e : ExprId) (frame : Frame) (reason : String) :
    Blind hidden tested false (errorsOfHot p e frame reason) :=
  (blind_eval e frame false).bind fun o => (blind_requireHot o reason _).bind fun _ => .pure _

theorem blind_evalBranches (es : List ExprId) (frame : Frame) :
    Blind hidden tested false (evalBranches es frame) :=
  .joinEach fun e => blind_eval e frame false

theorem blind_callNamed (method : SymbolId) {path : Path} (args : List ArgValue) (frame : Frame)
    (source : Span) (shown : ∀ x ∈ path.local?, ¬hidden x) :
    Blind hidden tested own (callNamed p method path args frame source) := by
  refine .ite (fun _ => ?_) fun _ => ?_
  · exact (blind_askEnclosing _ _ _ _).bind fun receiver => .ask_self fun _ => rfl
  · refine (blind_evalPath frame source shown).bind fun receiver => ?_
    exact (Twin.ask_self fun _ => rfl).bind fun _ => .pure _

theorem blind_callCallee (callee : Callee) (args : List ArgValue) (frame : Frame) (source : Span)
    (shown : ∀ method path, callee = .ident method path → ∀ x ∈ path.local?, ¬hidden x) :
    Blind hidden tested false (callCallee p callee args frame source) := by
  cases callee with
  | super home base method =>
    exact (blind_askEnclosing _ _ _ _).bind fun receiver => .ask_self nofun
  | select qualifier method =>
    refine (blind_eval qualifier frame false).bind fun receiver => ?_
    refine .ite (fun _ => ?_) fun _ => ?_
    · exact (Twin.ask_self nofun).bind fun _ => .pure _
    · exact (Twin.ask_self nofun).bind fun _ => .pure _
  | ident method path => exact blind_callNamed method args frame source (shown method path rfl)

theorem blind_evalNew (type : ClassRef) (ctor : SymbolId) {args : List Arg} (frame : Frame)
    (source : Span) (strict : args.any Arg.byName = false) :
    Blind hidden tested false (evalNew p type ctor args frame source) := by
  refine (blind_evalArguments frame strict).bind fun evaluated => ?_
  refine .ite (fun _ => .pure _) fun _ => ?_
  refine (Twin.ask_self nofun).bind fun outer => ?_
  exact (Twin.calledFrom _ (.ask_self nofun)).bind fun _ => .pure _

theorem blind_evalBlock (frame : Frame) (result : ExprId) {stats : List ExprId}
    (shown : ∀ x ∈ stats.filterMap (localDef? p), ¬hidden x) :
    Blind hidden tested false (evalBlock p frame result stats) := by
  induction stats with
  | nil => exact blind_eval result frame false
  | cons stat stats ih =>
    have rest := ih fun x hx => shown x (by
      rw [List.filterMap_cons]
      split
      · exact hx
      · exact List.mem_cons_of_mem _ hx)
    refine (blind_eval stat frame false).bind fun o => ?_
    dsimp only
    split
    · next s hs =>
      have open' : ∀ b ∈ [(s, o.value)], ¬hidden b.1 := by
        intro b hb
        rw [List.mem_singleton.1 hb]
        refine shown s ?_
        rw [List.filterMap_cons, hs]
        exact List.mem_cons_self
      refine .look_bind fun t env twins => ?_
      exact (Twin.inEnv (twins.extend open') rest).bind fun _ => .pure _
    · exact rest.bind fun _ => .pure _

theorem blind_evalTarget (target : ExprId) (frame : Frame) :
    Blind hidden tested false (evalTarget p target frame) := by
  unfold evalTarget
  split
  · exact blind_errorsOf _ frame
  · exact .pure _

theorem blind_node (e : ExprId) (frame : Frame)
    (fits : (p.nodeSight (p.expr e).node).Fits hidden tested) :
    Blind hidden tested false (node p e frame) := by
  unfold node
  cases form : (p.expr e).node with
  | wildcard | literal | methodDef | typeDef => exact .pure _
  | ident s path =>
    rw [form] at fits
    have shown := fits.names
    simp only [Program.nodeSight, Option.mem_toList] at shown
    refine .ite (fun isMethod => ?_) fun noMethod => ?_
    · rw [if_pos isMethod] at shown
      exact blind_callNamed s [] frame _ shown
    · rw [if_neg noMethod] at shown
      exact blind_evalPath frame _ shown
  | thisOf target => exact blind_evalPath frame _ nofun
  | select qualifier s =>
    refine (blind_eval qualifier frame false).bind fun receiver => ?_
    refine .ite (fun _ => ?_) fun _ => ?_
    · exact (Twin.ask_self nofun).bind fun _ => .pure _
    · exact (Twin.ask_self nofun).bind fun _ => .pure _
  | call callee args =>
    rw [form] at fits
    refine (blind_evalArguments frame fits.captures).bind fun evaluated => ?_
    refine (blind_callCallee callee _ frame _ fun method path hcallee x hx => ?_).bind
      fun _ => .pure _
    refine fits.names x ?_
    rw [hcallee]
    exact Option.mem_toList.2 hx
  | new type ctor args =>
    rw [form] at fits
    exact blind_evalNew type ctor frame _ fits.captures
  | assign target value =>
    refine (blind_evalTarget target frame).bind fun es => ?_
    exact (blind_errorsOfHot value frame _).bind fun _ => .pure _
  | ifElse cond onTrue onFalse =>
    refine (blind_errorsOf cond frame).bind fun es => ?_
    refine (blind_eval onTrue frame false).bind fun o => ?_
    exact (blind_eval onFalse frame false).bind fun _ => .pure _
  | matchOn scrutinee branches =>
    refine (blind_errorsOfHot scrutinee frame _).bind fun es => ?_
    exact (blind_evalBranches branches frame).bind fun _ => .pure _
  | whileLoop cond body =>
    refine (blind_errorsOf cond frame).bind fun es => ?_
    exact (blind_errorsOf body frame).bind fun _ => .pure _
  | tryCatch body handlers finalizer =>
    refine (blind_eval body frame false).bind fun o => ?_
    refine (blind_evalBranches handlers frame).bind fun o' => ?_
    dsimp only
    split
    · exact (blind_errorsOf _ frame).bind fun _ => .pure _
    · exact .pure _
  | sequence elems =>
    exact (Twin.errorsOfEach fun e => blind_errorsOfHot e frame Reason.sequence).bind
      fun _ => .pure _
  | closure params body =>
    rw [form] at fits
    cases fits.captures
  | block stats result =>
    rw [form] at fits
    exact blind_evalBlock frame result fits.names
  | typed e unchecked | annotated e unchecked =>
    exact .ite (fun _ => .pure _) fun _ => blind_eval e frame false
  | ret e => exact (blind_errorsOfHot e frame _).bind fun _ => .pure _
  | namedArg e => exact blind_eval e frame false
  | valDef s =>
    dsimp only
    split
    · exact blind_eval _ frame true
    · exact .pure _
  | template c => exact .ask_self nofun

/-! ## Objects -/

theorem blind_createWarm (outer : Value) (c : ClassId) (ctor : SymbolId) (args : List ArgValue)
    (source : Span) : Blind hidden tested own (createWarm outer c ctor args source) := by
  refine (Twin.perform_self rfl).bind fun w => .look_bind fun s env _ => ?_
  refine .ite (fun _ => .pure _) fun _ => (Twin.perform_self rfl).bind fun _ => ?_
  exact (Twin.ask_self fun _ => rfl).bind fun _ => .pure _

theorem blind_rememberedOuter (a : Addr) : Blind hidden tested own (rememberedOuter a) := by
  cases a with
  | warm w =>
    refine (Twin.perform_self rfl).bind fun creation => ?_
    split
    · exact .pure _
    · exact .pure _
  | thisOf c => exact .pure _

/-- A new object is cold where the environment is not hot. -/
theorem blind_create (outer : Value) (c : ClassId) (ctor : SymbolId) (args : List ArgValue)
    (source : Span) (heat : outer.addr?.isSome && (p.cls c).hasSource → tested) :
    Blind hidden tested own (create p outer c ctor args source) := by
  cases outer with
  | hot =>
    refine (Twin.mapM fun arg _ => ?_).bind fun checked => ?_
    · exact (blind_promoteArgument arg).bind fun _ => .pure _
    refine .ite (fun _ => ?_) fun _ => .pure _
    exact (blind_createWarm _ _ _ _ _).bind fun _ => .pure _
  | cold => exact .fail _ _
  | ref a =>
    refine .ite (fun source' => ?_) fun _ => ?_
    · refine (blind_rememberedOuter a).bind fun remembered => ?_
      refine (blind_createWarm _ _ _ _ _).bind fun o => .look_bind fun s env twins => ?_
      dsimp only
      rw [twins.isHot_eq (heat source')]
      exact .ite (fun _ => .pure _) fun _ => .pure _
    · exact (blind_promoteArguments args).bind fun _ => .pure _
  | closure => exact (Twin.report _ source).bind fun _ => .pure _
  | oneOf vs => exact .joinEach fun v => .ask_self fun _ => rfl

theorem blind_setParams (c : ClassId) (this : Addr) (shown : ∀ x ∈ p.storedParams c, ¬hidden x) :
    Blind hidden tested own (setParams p c this) := by
  refine .forM fun field hfield => .look_bind fun s env twins => ?_
  dsimp only
  suffices same : ∀ params, (∀ x, params.find? (fun s => (p.symbol s).name ==
      (p.symbol field).name) = some x → ¬hidden x) →
      paramValue p params s.env (p.symbol field).name =
        paramValue p params env (p.symbol field).name by
    rw [same]
    · exact .perform_self rfl
    · exact fun x hx => shown x (List.mem_filterMap.2 ⟨field, hfield, hx⟩)
  intro params hparams
  unfold paramValue
  cases found : params.find? fun s => (p.symbol s).name == (p.symbol field).name with
  | none => rfl
  | some x => rw [Option.bind_some, Option.bind_some, twins.shown x (hparams x found)]

theorem blind_prepareParent (c : ClassId) (this : Addr) (type : ClassRef) (ctor : Option SymbolId)
    (args : List ArgValue) (source : Span) :
    Blind hidden tested own (prepareParent p c this type ctor args source) := by
  refine (Twin.ask_self fun _ => rfl).bind fun outer => ?_
  exact (Twin.perform_self rfl).bind fun _ => .pure _

theorem blind_prepareListed (c : ClassId) (this : Addr) {parent : Parent}
    (strict : parent.args.any Arg.byName = false) :
    Blind hidden tested false (prepareListed p c this parent) := by
  refine (blind_evalArguments _ strict).bind fun evaluated => ?_
  exact (blind_prepareParent c this _ _ _ _).bind fun _ => .pure _

theorem blind_initParents (c : ClassId) (this : Addr) {parents : List Parent}
    (strict : ∀ parent ∈ parents, parent.args.any Arg.byName = false) :
    Blind hidden tested false (initParents p c this parents) := by
  cases parents with
  | nil => exact .pure _
  | cons superClass listed =>
    refine (blind_prepareListed c this (strict superClass List.mem_cons_self)).bind fun first => ?_
    refine (Twin.mapM fun mixin _ => ?_).bind fun mixins => ?_
    · unfold prepareMixin
      split
      · next parent found =>
        exact blind_prepareListed c this
          (strict parent (List.mem_cons_of_mem _ (List.mem_of_find?_eq_some found)))
      · exact blind_prepareParent c this _ _ _ _
    · refine (Twin.errorsOfEach fun call => ?_).bind fun errors => .pure _
      exact (Twin.ask_self nofun).bind fun _ => .pure _

theorem blind_template (c : ClassId) (this : Addr)
    (fits : (p.templateSight c).Fits hidden tested) :
    Blind hidden tested false (template p c this) := by
  unfold template
  split
  · next t ht =>
    have strict : ∀ parent ∈ t.parents, parent.args.any Arg.byName = false := by
      have captures := fits.captures
      rw [Program.templateSight, ht, Option.any_some, List.any_eq_false] at captures
      exact fun parent hparent => eq_false_of_ne_true (captures parent hparent)
    have rest (es : List SafetyError) : Blind hidden tested false
        (do return ⟨.ref this, es ++ (← Query.body c this)⟩ : Plan Outcome) :=
      (Twin.ask_self nofun).bind fun _ => .pure _
    refine (blind_setParams c this fits.names).bind fun _ => ?_
    exact .ite (fun _ => rest []) fun _ => (blind_initParents c this strict).bind rest
  · exact .pure _

theorem blind_stat (c : ClassId) (this : Addr) (e : ExprId) :
    Blind hidden tested false (stat p c this e) := by
  unfold stat
  cases (p.expr e).node with
  | valDef field =>
    have rest (o : Outcome) : Blind hidden tested false
        (do Effect.setField this field o.value; return o.errors : Plan (List SafetyError)) :=
      (Twin.perform_self rfl).bind fun _ => .pure _
    refine .ite (fun _ => .pure _) fun _ => ?_
    dsimp only
    split
    · exact (blind_eval _ _ true).bind rest
    · exact rest .hot
  | methodDef | typeDef => exact .pure _
  | _ => exact (blind_eval e _ false).bind fun _ => .pure _

theorem blind_body (c : ClassId) (this : Addr) : Blind hidden tested false (body p c this) := by
  unfold body
  split
  · exact .errorsOfEach fun e => blind_stat c this e
  · exact .pure _

theorem blind_check (c : ClassId) : Blind hidden tested own (check p c) := by
  have rest (params : List SymbolId) (e : ExprId) : Blind hidden tested own
      (do return (← inEnv (.ofList (params.map (·, .hot))) <|
        calledFrom (p.cls c).span (Query.eval e ⟨.thisOf c, c⟩ true)).errors :
        Plan (List SafetyError)) :=
    (Twin.inEnv_own _ _).bind fun _ => .pure _
  unfold check
  split
  · split
    · refine .look_bind fun s env _ => .ite (fun _ => rest _ _) fun _ => ?_
      exact (Twin.perform_self rfl).bind fun _ => rest _ _
    · exact .pure _
  · exact .pure _

/-- A question sees of its environment what its sight tells. -/
theorem blind_plan {β : Type} {q : Query β} {s : Store} (noEval : q.isEval = false)
    (fits : (q.sight p s).Fits hidden tested) : Blind hidden tested (q.ownsEnv p) (q.plan p) := by
  cases q with
  | eval => cases noEval
  | select v field source virtual => exact blind_select v field source virtual
  | call v method args dispatch source => exact blind_call v method args dispatch source fits
  | construct v ctor args source => exact blind_construct v ctor args source fits
  | create outer c ctor args source => exact blind_create outer c ctor args source fits.heat
  | template c this => exact blind_template c this fits
  | body c this => exact blind_body c this
  | promote v reason source => exact blind_promote v reason source
  | isPromotable v => exact blind_isPromotable v
  | enclosingInstance target v c source => exact blind_enclosingInstance target v c source
  | outerInstance type frame source =>
    exact blind_outerInstance type frame source fun x hx => fits.names x (Option.mem_toList.2 hx)
  | check c => exact blind_check c

end Plan

/-! ## Answers in twin environments -/

namespace Query

variable {p : Program} {hidden : SymbolId → Prop} {tested : Prop} {n : Nat} {β γ δ : Type}
  {q : Query β} {r : Query γ} {r' : Query δ} {s t u : Store} {env : Env}

theorem Beneath.trans (h : q.Beneath p s r t) (h' : r.Beneath p t r' u) : q.Beneath p s r' u := by
  induction h' with
  | start => exact h
  | asked _ hasks shared ih => exact .asked ih hasks shared

theorem Beneath.way (h : q.Beneath p s r t) : ∃ active, q.Way p s active r t := by
  induction h with
  | start => exact ⟨[], .start⟩
  | asked _ hasks _ ih =>
    obtain ⟨active, way⟩ := ih
    exact ⟨_, way.asked hasks⟩

/-- An evaluation whose value is known sees nothing, and the others see what their expressions
    do. -/
theorem twin_eval {e : ExprId} {frame : Frame} {final : Bool}
    (fits : ((Query.eval e frame final).sight p s).Fits hidden tested) :
    Plan.Blind hidden tested false (match s.cache.find? frame.receiver e with
      | some v => pure (.ofValue v)
      | none => .within (.evaluation frame.receiver e final)
          (Plan.calledFrom (p.expr e).span (Plan.node p e frame)) .pure : Plan Outcome) := by
  rw [sight] at fits
  cases known : s.cache.find? frame.receiver e with
  | some v => exact .pure _
  | none =>
    rw [known] at fits
    exact .within rfl (.calledFrom _ (Plan.blind_node e frame fits)) .pure

/-- A question has the same answer in twin environments, if nothing that is asked there sees
    anything else. -/
theorem sameIn (n : Nat) (q : Query β) (twins : s.env.Twins hidden tested env)
    (fits : ∀ {γ : Type} (r : Query γ) t, q.Beneath p s r t →
      (r.sight p t).Fits hidden tested) :
    (answer p n q).SameIn (answer p n q) s env := by
  induction n generalizing β s env with
  | zero => rfl
  | succ n ih =>
    have own := fits q s .start
    have asked {δ : Type} (r : Query δ) (u : Store) (env' : Env) (hr : (q.plan p).Asks p s r u)
        (shared : AskedIn (q.ownsEnv p) δ r) (twins' : u.env.Twins hidden tested env') :
        (answer p n r).SameIn (answer p n r) u env' :=
      ih r twins' fun r' t h => fits r' t (Beneath.trans (.asked .start hr shared) h)
    cases q with
    | eval e frame final =>
      exact (twin_eval own).run twins fun r u env' hr => asked r u env' (.afterEffect rfl hr)
    | _ => exact (Plan.blind_plan rfl own).run twins asked

end Query

/-! ## Fields that are read in two environments -/

/-- A symbol that one of the two lists of bindings binds. -/
def BoundIn (b b' : List (SymbolId × Value)) (x : SymbolId) : Prop :=
  ((Env.ofList b).lookup x).isSome ∨ ((Env.ofList b').lookup x).isSome

instance (b b' : List (SymbolId × Value)) : DecidablePred (BoundIn b b') :=
  fun _ => inferInstanceAs (Decidable (_ ∨ _))

/-- A field is read in two environments, from stores that are the same apart from that. If it is not
    evaluated yet, as with a lazy field on its first use, its initializer is evaluated in the
    environment of the reader. Suppose that nothing which is evaluated in the first environment, or
    in one that blocks and local methods made of it, looks up or binds a symbol that one of the two
    environments binds; that no closure captures such an environment; and that no object with an
    address as its outer is created in it, unless both environments are hot or both are not. Then
    both runs have the same value, the same errors and the same store apart from the environment,
    and one of them ends if the other one does. -/
theorem Query.select_in_two_environments {p : Program} {s : Store} {a : Addr} {field : SymbolId}
    {source : Span} {virtual : Bool} {b b' : List (SymbolId × Value)}
    (fits : ∀ {γ : Type} (r : Query γ) t,
      (Query.select (.ref a) field source virtual).Beneath p { s with env := .ofList b } r t →
        (r.sight p t).Fits (BoundIn b b') ((Env.ofList b).isHot = (Env.ofList b').isHot))
    (n : Nat) :
    (answer p n (.select (.ref a) field source virtual)).run { s with env := .ofList b' } =
      ((answer p n (.select (.ref a) field source virtual)).run { s with env := .ofList b }).map
        fun (o, t) => (o, { t with env := .ofList b' }) :=
  sameIn n _ (Env.Twins.of_lists b b') fits

/-- A class `O` with a member class `W` and a lazy field `q`, whose initializer creates a `W`. In a
    method of `O`, a local method with the parameters `x` and `y` reads `q`. -/
def lazyInstance : Program := .ofCommands [
  .defineClass "O" .package .none true,
  .defineClass "W" (.cls ⟨4⟩) .none true,
  .defineField ⟨4⟩ "q" .lazy,
  .newInstanceWith ⟨.thisOf ⟨4⟩, ⟨5⟩⟩ ⟨15⟩ [],
  .setBody ⟨16⟩ ⟨4⟩,
  .defineMethod ⟨4⟩ "m" [] .none,
  .declareLocalMethod ⟨17⟩ "h" ["x", "y"],
  .ident ⟨16⟩,
  .setBody ⟨18⟩ ⟨6⟩]

/-- The store after the check of `O`, with these values of `x` and `y`. -/
def checkedO (bindings : List (SymbolId × Value)) : Store :=
  { (Query.check ⟨4⟩).storeAfter lazyInstance 10 .initial with env := .ofList bindings }

/-- The field `q` of the object under construction is read. -/
def readQ : Query Outcome := .select (.ref (.thisOf ⟨4⟩)) ⟨16⟩ .empty true

/-- Only `x` is cold. -/
def coldX : List (SymbolId × Value) := [(⟨19⟩, .cold), (⟨20⟩, .hot)]

/-- Only `y` is cold. -/
def coldY : List (SymbolId × Value) := [(⟨19⟩, .hot), (⟨20⟩, .cold)]

/-- In both environments the new object is cold. -/
theorem Query.select_in_two_environments_coldX_coldY :
    ∃ o t, readQ.Ends lazyInstance 10 (checkedO coldX) o t ∧
      readQ.Ends lazyInstance 10 (checkedO coldY) o { t with env := .ofList coldY } ∧
      o.value = .cold ∧ o.errors = [] := by
  obtain ⟨o, ends, ho⟩ := Query.ends_of_result? (fun o => o.value = .cold && o.errors.isEmpty)
    (p := lazyInstance) (n := 10) (s := checkedO coldX) (q := readQ) (by decide +kernel)
  obtain ⟨value, errors⟩ := Bool.and_eq_true_iff.1 ho
  refine ⟨o, _, ends, ?_, of_decide_eq_true value, List.isEmpty_iff.1 errors⟩
  have passed : readQ.passes lazyInstance (fun r t => (r.sight lazyInstance t).Fits
      (BoundIn coldX coldY) ((Env.ofList coldX).isHot = (Env.ofList coldY).isHot)) 10
      (checkedO coldX) := by decide +kernel
  have same : (answer lazyInstance 10 readQ).run (checkedO coldY) =
      ((answer lazyInstance 10 readQ).run (checkedO coldX)).map
        fun (o, t) => (o, { t with env := .ofList coldY }) :=
    Query.select_in_two_environments
      (fun r t h => of_decide_eq_true (h.way.choose_spec.passes ends passed)) 10
  rw [Query.Ends] at ends
  rw [Query.Ends, same, ends]
  rfl

/-- The initializer of `q` looks up no symbol and binds none, whatever `x` is. But the new object is
    known where `x` is hot, and cold where `x` is cold. -/
theorem Query.select_differs :
    (lazyInstance.symbol ⟨16⟩).isLazy ∧ (lazyInstance.symbol ⟨16⟩).body = some ⟨4⟩ ∧
      (checkedO []).cache.find? (.thisOf ⟨4⟩) ⟨4⟩ = none ∧
      (∀ v ∈ [Value.hot, .cold], ∀ {γ : Type} (r : Query γ) active t,
        readQ.Way lazyInstance (checkedO [(⟨19⟩, v)]) active r t →
          (r.sight lazyInstance t).names = []) ∧
      ∃ o t o' t', readQ.Answered lazyInstance (checkedO [(⟨19⟩, .hot)]) o t ∧
        readQ.Answered lazyInstance (checkedO [(⟨19⟩, .cold)]) o' t' ∧
        o.value = .ref (.warm ⟨⟨5⟩, 0⟩) ∧ o'.value = .cold := by
  obtain ⟨o, hot, ho⟩ := Query.ends_of_result? (fun o => o.value = .ref (.warm ⟨⟨5⟩, 0⟩))
    (p := lazyInstance) (n := 10) (s := checkedO [(⟨19⟩, .hot)]) (q := readQ) (by decide +kernel)
  obtain ⟨o', cold, ho'⟩ := Query.ends_of_result? (fun o => o.value = .cold)
    (p := lazyInstance) (n := 10) (s := checkedO [(⟨19⟩, .cold)]) (q := readQ) (by decide +kernel)
  refine ⟨by decide +kernel, by decide +kernel, by decide +kernel, fun v hv γ r active t way => ?_,
    o, _, o', _, ⟨10, hot⟩, ⟨10, cold⟩, of_decide_eq_true ho, of_decide_eq_true ho'⟩
  have passed : ∀ v ∈ [Value.hot, .cold], readQ.passes lazyInstance
      (fun r t => (r.sight lazyInstance t).names.isEmpty) 10 (checkedO [(⟨19⟩, v)]) := by
    decide +kernel
  rcases List.mem_pair.1 hv with rfl | rfl
  · exact List.isEmpty_iff.1 (way.passes hot (passed _ hv))
  · exact List.isEmpty_iff.1 (way.passes cold (passed _ hv))

/-- A class `O` with a lazy field `q`, whose initializer is a function literal. In a method of `O`,
    a local method with the parameter `x` reads `q`. -/
def lazyFunction : Program := .ofCommands [
  .defineClass "O" .package .none true,
  .defineField ⟨4⟩ "q" .lazy,
  .defineMethod ⟨4⟩ "m" [] .none,
  .declareLocalMethod ⟨16⟩ "h" ["x"],
  .declareFunction (.symbol ⟨15⟩) [],
  .literal,
  .closure ⟨19⟩ ⟨3⟩,
  .setBody ⟨15⟩ ⟨4⟩,
  .ident ⟨15⟩,
  .setBody ⟨17⟩ ⟨5⟩]

/-- The store after the check of the class with the function, with this value of `x`, if any. -/
def checkedWith (bindings : List (SymbolId × Value)) : Store :=
  { (Query.check ⟨4⟩).storeAfter lazyFunction 10 .initial with env := .ofList bindings }

/-- The field with the function is read. -/
def readFunction : Query Outcome := .select (.ref (.thisOf ⟨4⟩)) ⟨15⟩ .empty true

/-- The function literal of `q` looks up no symbol and binds none, whether `x` is bound or not, and
    both environments are hot. But the function carries the environment in which `q` was read. -/
theorem Query.select_captures :
    (lazyFunction.symbol ⟨15⟩).isLazy ∧ (lazyFunction.symbol ⟨15⟩).body = some ⟨4⟩ ∧
      (checkedWith []).cache.find? (.thisOf ⟨4⟩) ⟨4⟩ = none ∧
      (∀ b ∈ [[(⟨18⟩, Value.hot)], []], ∀ {γ : Type} (r : Query γ) active t,
        readFunction.Way lazyFunction (checkedWith b) active r t →
          (r.sight lazyFunction t).names = []) ∧
      ∀ b ∈ [[(⟨18⟩, Value.hot)], []], ∃ o t,
        readFunction.Answered lazyFunction (checkedWith b) o t ∧
        o.value = .closure ⟨3⟩ [] ⟨.thisOf ⟨4⟩, ⟨4⟩⟩ (.ofList b) := by
  have ends : ∀ b ∈ [[((⟨18⟩ : SymbolId), Value.hot)], []], ∃ o t,
      readFunction.Ends lazyFunction 10 (checkedWith b) o t ∧
      o.value = .closure ⟨3⟩ [] ⟨.thisOf ⟨4⟩, ⟨4⟩⟩ (.ofList b) := by
    intro b hb
    obtain ⟨o, ends, ho⟩ := Query.ends_of_result?
      (fun o => o.value = .closure ⟨3⟩ [] ⟨.thisOf ⟨4⟩, ⟨4⟩⟩ (.ofList b))
      (p := lazyFunction) (n := 10) (s := checkedWith b) (q := readFunction)
      (by rcases List.mem_pair.1 hb with rfl | rfl <;> decide +kernel)
    exact ⟨o, _, ends, of_decide_eq_true ho⟩
  have passed : ∀ b ∈ [[((⟨18⟩ : SymbolId), Value.hot)], []], readFunction.passes lazyFunction
      (fun r t => (r.sight lazyFunction t).names.isEmpty) 10 (checkedWith b) := by
    decide +kernel
  refine ⟨by decide +kernel, by decide +kernel, by decide +kernel, fun b hb γ r active t way => ?_,
    fun b hb => ?_⟩
  · obtain ⟨o, t', answered, -⟩ := ends b hb
    exact List.isEmpty_iff.1 (way.passes answered (passed b hb))
  · obtain ⟨o, t, answered, value⟩ := ends b hb
    exact ⟨o, t, ⟨10, answered⟩, value⟩

end ObjectInit
