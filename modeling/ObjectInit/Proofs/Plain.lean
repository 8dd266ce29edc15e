import ObjectInit.Proofs.Ways

/-!
# What plans do by themselves

Most of what happens in the store during an analysis happens while questions are answered. By itself
a plan raises and reports errors, trusts values and moves between environments and traces, each
environment being there for the question that is asked in it at once. Such plans are plain
(`Plan.Plain`). Only evaluations have a scope that the cache sees, and only the plans for objects
change the heap.

Main results:

* `Plan.Plain.bind`, `Plan.Plain.mapM`: how plain plans are put together.
* `Plan.plain_node`: evaluations are plain inside of their scope.
* `Query.plain_plan`: which plans are plain, and which of them may change the heap.
-/

namespace ObjectInit

/-- The effect changes the heap. -/
def Effect.changesHeap {β : Type} : Effect β → Bool
  | .allocate .. | .setField .. | .setOuter .. | .warmOf _ => true
  | _ => false

/-- The plan starts with a question, perhaps with another trace. -/
inductive Plan.AsksFirst : {α : Type} → Plan α → Prop
  | ask {α β : Type} {q : Query β} {next : β → Plan α} : AsksFirst (.ask q next)
  | look {α : Type} {next : Store → Plan α} (h : ∀ s, AsksFirst (next s)) :
    AsksFirst (.perform .look next)
  | trace {α β : Type} {trace : Trace} {part : Plan β} {next : β → Plan α} (h : AsksFirst part) :
    AsksFirst (.within (.trace trace) part next)

/-- The scope is not that of an evaluation, and another environment is there for a question. -/
def Scope.Admits {β : Type} : Scope β → Plan β → Prop
  | .env _, part => part.AsksFirst
  | .evaluation .., _ => False
  | .trace _, _ | .promotion _, _ => True

/-- The plan enters no evaluation, and another environment only to ask a question in it. Unless
    `writes` is true, it does not change the heap. -/
inductive Plan.Plain (writes : Bool) : {α : Type} → Plan α → Prop
  | pure {α : Type} (a : α) : Plain writes (.pure a)
  | ask {α β : Type} (q : Query β) {next : β → Plan α} (h : ∀ b, Plain writes (next b)) :
    Plain writes (.ask q next)
  | perform {α β : Type} (effect : Effect β) {next : β → Plan α}
    (allowed : effect.changesHeap → writes) (h : ∀ b, Plain writes (next b)) :
    Plain writes (.perform effect next)
  | within {α β : Type} (scope : Scope β) {part : Plan β} {next : β → Plan α}
    (admits : scope.Admits part) (hpart : Plain writes part) (h : ∀ b, Plain writes (next b)) :
    Plain writes (.within scope part next)

namespace Plan

variable {p : Program} {writes : Bool} {α β γ : Type}

/-! ## Parts -/

namespace AsksFirst

theorem calledFrom {x : Plan α} (source : Span) (h : x.AsksFirst) :
    (Plan.calledFrom source x).AsksFirst :=
  .look fun _ => .trace h

end AsksFirst

namespace Plain

theorem bind {x : Plan β} {f : β → Plan α} (hx : x.Plain writes)
    (hf : ∀ b, (f b).Plain writes) : (x >>= f).Plain writes := by
  induction hx with
  | pure b => exact hf b
  | ask q _ ih => exact .ask q fun b => ih b hf
  | perform effect allowed _ ih => exact .perform effect allowed fun b => ih b hf
  | within scope admits hpart _ _ ih => exact .within scope admits hpart fun b => ih b hf

/-- Only the answer is made into another one. -/
theorem ret {x : Plan β} (hx : x.Plain writes) (f : β → α) :
    (x >>= fun b => Pure.pure (f b)).Plain writes :=
  hx.bind fun b => .pure (f b)

theorem map {x : Plan β} (hx : x.Plain writes) (f : β → α) : (f <$> x).Plain writes := by
  rw [map_eq_pure_bind]
  exact hx.ret f

theorem asked (q : Query β) : (liftM q : Plan β).Plain writes := .ask q fun b => .pure b

theorem looked : (liftM Effect.look : Plan Store).Plain writes := .perform .look nofun .pure

theorem look_bind {f : Store → Plan α} (h : ∀ s, (f s).Plain writes) :
    ((liftM Effect.look : Plan Store) >>= f).Plain writes :=
  .perform .look nofun h

theorem raised (error : Place → SafetyError) (source : Span) :
    (liftM (Effect.raise error source) : Plan SafetyError).Plain writes :=
  .perform _ nofun .pure

theorem report (message : String) (source : Span) : (Plan.report message source).Plain writes :=
  .perform _ nofun .pure

theorem fail (error : Place → SafetyError) (source : Span) :
    (Plan.fail error source).Plain writes :=
  (raised error source).ret _

theorem inEnv {x : Plan α} (env : Env) (first : x.AsksFirst) (hx : x.Plain writes) :
    (Plan.inEnv env x).Plain writes :=
  .within (.env env) first hx .pure

theorem inTrace {x : Plan α} (trace : Trace) (hx : x.Plain writes) :
    (Plan.inTrace trace x).Plain writes :=
  .within (.trace trace) trivial hx .pure

theorem calledFrom {x : Plan α} (source : Span) (hx : x.Plain writes) :
    (Plan.calledFrom source x).Plain writes :=
  look_bind fun _ => inTrace _ hx

theorem ite {c : Prop} [Decidable c] {x y : Plan α} (hx : c → x.Plain writes)
    (hy : ¬c → y.Plain writes) : (if c then x else y).Plain writes := by
  by_cases h : c
  · rw [if_pos h]
    exact hx h
  · rw [if_neg h]
    exact hy h

/-! ### Parts for each element -/

theorem mapM {f : γ → Plan β} (xs : List γ) (hf : ∀ x, (f x).Plain writes) :
    (xs.mapM f).Plain writes := by
  induction xs with
  | nil => exact .pure []
  | cons x xs ih =>
    rw [List.mapM_cons]
    exact (hf x).bind fun _ => ih.ret _

theorem joinEach {f : γ → Plan Outcome} (xs : List γ) (hf : ∀ x, (f x).Plain writes) :
    (Plan.joinEach xs f).Plain writes :=
  (mapM xs hf).map _

theorem errorsOfEach {f : γ → Plan (List SafetyError)} (xs : List γ)
    (hf : ∀ x, (f x).Plain writes) : (Plan.errorsOfEach xs f).Plain writes :=
  (mapM xs hf).map _

end Plain

/-- An evaluation in an environment of its own. -/
theorem plain_evalIn (env : Env) (e : ExprId) (frame : Frame) (final : Bool) :
    (inEnv env (Query.eval e frame final)).Plain writes :=
  .inEnv env .ask (.asked _)

/-- An evaluation inside of a call, in an environment of its own. -/
theorem plain_evalCalled (env : Env) (source : Span) (e : ExprId) (frame : Frame) (final : Bool) :
    (inEnv env (calledFrom source (Query.eval e frame final))).Plain writes :=
  .inEnv env (.calledFrom source .ask) (.calledFrom source (.asked _))

/-! ## Members -/

theorem plain_initializer (a : Addr) (field : SymbolId) (source : Span) :
    (initializer p a field source).Plain writes := by
  unfold initializer
  split
  · exact .calledFrom source (.asked _)
  · exact .fail _ source

theorem plain_selectAt (a : Addr) (field : SymbolId) (source : Span) :
    (selectAt p a field source).Plain writes := by
  apply Plain.ite
  · exact fun _ => plain_initializer a field source
  intro _
  refine .look_bind fun s => ?_
  split
  · exact .pure _
  cases a with
  | warm w => exact .ite (fun _ => .pure _) fun _ => plain_initializer _ field source
  | thisOf c => exact .ite (fun _ => .calledFrom source (.fail _ source)) fun _ => .fail _ source

theorem plain_select (v : Value) (field : SymbolId) (source : Span) (virtual : Bool) :
    (select p v field source virtual).Plain writes := by
  cases v with
  | hot => exact .pure _
  | cold => exact .fail _ source
  | ref a => exact plain_selectAt a _ source
  | closure => exact (Plain.report _ source).ret _
  | oneOf vs => exact .joinEach vs fun v => .asked _

theorem plain_promoteArgument (arg : ArgValue) : (promoteArgument arg).Plain writes :=
  .inTrace arg.trace (.asked _)

theorem plain_promoteArguments (args : List ArgValue) : (promoteArguments args).Plain writes :=
  .errorsOfEach args plain_promoteArgument

theorem plain_runMember (a : Addr) (target : SymbolId) (args : List ArgValue) :
    (runMember p a target args).Plain writes := by
  cases body : (p.symbol target).body with
  | none =>
    simp only [runMember, body]
    exact .pure _
  | some e =>
    rw [runMember_of_body body]
    refine .ite (fun _ => ?_) fun _ => .ite (fun _ => ?_) fun _ => .ite (fun _ => ?_) fun _ => ?_
    · exact (plain_evalCalled _ _ e _ true).ret _
    · exact plain_evalIn _ e _ true
    · exact .look_bind fun s => plain_evalIn _ e _ true
    · exact (plain_evalIn _ e _ true).bind fun o => (plain_promoteArguments args).ret _

theorem plain_callTarget (a : Addr) (target : SymbolId) (args : List ArgValue) (source : Span) :
    (callTarget p a target args source).Plain writes :=
  .ite (fun _ => .calledFrom source (plain_runMember a target args)) fun _ =>
    .ite (fun _ => .pure _) fun _ => .fail _ source

theorem plain_callAt (a : Addr) (method : SymbolId) (args : List ArgValue) (dispatch : Dispatch)
    (source : Span) : (callAt p a method args dispatch source).Plain writes := by
  apply Plain.ite
  · exact fun _ => plain_callTarget a _ args source
  intro _
  refine .look_bind fun s => ?_
  split
  · exact .pure _
  · exact .asked _

theorem plain_call (v : Value) (method : SymbolId) (args : List ArgValue) (dispatch : Dispatch)
    (source : Span) : (call p v method args dispatch source).Plain writes := by
  cases v with
  | hot => exact (plain_promoteArguments args).ret _
  | cold => exact (Plain.fail _ source).bind fun o => (plain_promoteArguments args).ret _
  | ref a => exact plain_callAt a method args dispatch source
  | closure body params frame env =>
    refine .ite (fun _ => ?_) fun _ => .pure _
    exact (Plain.calledFrom source (plain_evalIn _ body frame true)).bind fun o =>
      (plain_promoteArguments args).ret _
  | oneOf vs => exact .joinEach vs fun v => .asked _

theorem plain_construct (v : Value) (ctor : SymbolId) (args : List ArgValue) (source : Span) :
    (construct p v ctor args source).Plain writes := by
  cases v with
  | ref a => exact plain_callTarget a ctor args source
  | _ => exact (Plain.report _ source).ret _

/-! ## Enclosing instances -/

theorem plain_enclosingInstance (target : ClassId) (v : Value) (c : ClassId) (source : Span) :
    (enclosingInstance p target v c source).Plain writes := by
  refine .ite (fun _ => .pure _) fun _ => .ite (fun _ => .pure _) fun _ => ?_
  cases v with
  | hot | cold => exact .pure _
  | ref a =>
    refine .look_bind fun s => ?_
    split
    · exact .asked _
    · exact (Plain.report _ source).ret _
  | closure => exact (Plain.report _ source).ret _
  | oneOf vs => exact (Plain.mapM vs fun v => .asked _).ret _

theorem plain_evalPath (frame : Frame) (source : Span) (path : Path) :
    (evalPath p frame source path).Plain writes := by
  induction path with
  | bare | constant | paramRef => exact .pure _
  | thisOf target => exact .ite (fun _ => .pure _) fun _ => (Plain.asked _).ret _
  | member base s ih =>
    cases base with
    | bare => exact Plain.looked.ret _
    | _ => exact ih.bind fun o => (Plain.asked _).ret _

theorem plain_outerInstance (type : ClassRef) (frame : Frame) (source : Span) :
    (outerInstance p type frame source).Plain writes := by
  refine .ite (fun _ => ?_) fun _ => .ite (fun _ => .pure _) fun _ => ?_
  · exact (Plain.asked _).ret _
  · exact plain_evalPath frame source type.path

/-! ## Promotion -/

theorem plain_capturesHot (v : Value) : (capturesHot p v).Plain writes := by
  cases v with
  | ref a =>
    cases a with
    | warm w =>
      refine .perform _ nofun fun creation => ?_
      exact Plain.ite (fun _ => .asked (.isPromotable creation.outer)) fun _ => .pure false
    | thisOf c => exact Plain.looked.ret _
  | closure => exact .asked _
  | _ => exact .pure _

theorem plain_isPromotable (v : Value) : (isPromotable p v).Plain writes := by
  have test (v : Value) : (do
      let promotable ← capturesHot p v
      if promotable then
        Effect.trust v
      return promotable : Plan Bool).Plain writes := by
    refine (plain_capturesHot v).bind fun b => ?_
    cases b with
    | true => exact .perform (.trust v) nofun fun _ => .pure true
    | false => exact .pure false
  cases v with
  | hot | cold => exact .pure _
  | ref | closure => exact .look_bind fun s => .ite (fun _ => .pure _) fun _ => test _
  | oneOf vs =>
    refine .look_bind fun s => .ite (fun _ => .pure _) fun untrusted => ?_
    clear untrusted
    induction vs with
    | nil => exact .pure true
    | cons v vs ih =>
      refine (Plain.asked (.isPromotable v)).bind fun b => ?_
      cases b with
      | true => exact ih
      | false => exact .pure false

theorem plain_failPromotion (reason : String) (source : Span) :
    (failPromotion reason source).Plain writes :=
  (Plain.raised _ source).ret _

theorem plain_explain (reason : String) (causes : List SafetyError) (source : Span) :
    (explain reason causes source).Plain writes :=
  .ite (fun _ => .pure _) fun _ => (Plain.raised _ source).ret _

/-- The errors of a part whose outcome has to be hot. -/
theorem plain_errorsOfRequireHot {use : Plan Outcome} (huse : use.Plain writes) (reason : String)
    (source : Span) : (do return (← requireHot (← use) reason source).errors).Plain writes :=
  huse.bind fun o => ((Plain.asked (.promote o.value reason source)).ret _).ret _

theorem plain_promoteWarm (w : Warm) (reason : String) (source : Span) :
    (promoteWarm p w reason source).Plain writes := by
  apply Plain.ite
  · exact fun _ => plain_failPromotion reason source
  intro _
  refine (Plain.errorsOfEach _ fun f => ?_).bind fun es => .look_bind fun s => ?_
  · exact .calledFrom _ (plain_errorsOfRequireHot (.asked _) reason source)
  refine (Plain.errorsOfEach _ fun m => ?_).bind fun fs => plain_explain reason _ source
  exact .calledFrom _ (plain_errorsOfRequireHot (.asked _) reason source)

theorem plain_promoteBody (body : ExprId) (params : List SymbolId) (frame : Frame) (env : Env)
    (reason : String) (source : Span) :
    (promoteBody body params frame env reason source).Plain writes :=
  plain_errorsOfRequireHot (plain_evalIn _ body frame false) reason source

theorem plain_promote (v : Value) (reason : String) (source : Span) :
    (promote p v reason source).Plain writes := by
  cases v with
  | hot => exact .pure _
  | cold => exact plain_failPromotion reason source
  | oneOf vs => exact .errorsOfEach vs fun v => .asked _
  | ref a =>
    refine (Plain.asked _).bind fun b => .ite (fun _ => .pure _) fun _ => ?_
    cases a with
    | thisOf c => exact plain_failPromotion reason source
    | warm w => exact .within _ trivial (plain_promoteWarm w reason source) .pure
  | closure body params frame env =>
    refine (Plain.asked _).bind fun b => .ite (fun _ => .pure _) fun _ => ?_
    exact .within _ trivial (plain_promoteBody body params frame env reason source) fun causes =>
      plain_explain reason causes source

/-! ## Evaluation -/

theorem plain_errorsOf (e : ExprId) (frame : Frame) : (errorsOf e frame).Plain writes :=
  (Plain.asked _).ret _

theorem plain_errorsOfHot (e : ExprId) (frame : Frame) (reason : String) :
    (errorsOfHot p e frame reason).Plain writes :=
  plain_errorsOfRequireHot (.asked _) reason _

theorem plain_evalBranches (es : List ExprId) (frame : Frame) :
    (evalBranches es frame).Plain writes :=
  .joinEach es fun _ => .asked _

theorem plain_evalArguments (frame : Frame) (args : List Arg) :
    (evalArguments p frame args).Plain writes := by
  refine (Plain.mapM args fun arg => ?_).ret _
  unfold evalArgument
  split
  · exact (Plain.map (Plain.looked.ret _) _).bind fun o => Plain.looked.ret _
  · exact (Plain.asked _).bind fun o => Plain.looked.ret _

theorem plain_callNamed (method : SymbolId) (path : Path) (args : List ArgValue) (frame : Frame)
    (source : Span) : (callNamed p method path args frame source).Plain writes :=
  .ite (fun _ => (Plain.asked _).bind fun _ => .asked _) fun _ =>
    (plain_evalPath frame source path).bind fun _ => (Plain.asked _).ret _

theorem plain_callCallee (callee : Callee) (args : List ArgValue) (frame : Frame) (source : Span) :
    (callCallee p callee args frame source).Plain writes := by
  cases callee with
  | super home base method => exact (Plain.asked _).bind fun _ => .asked _
  | select qualifier method =>
    refine (Plain.asked _).bind fun o => ?_
    exact .ite (fun _ => (Plain.asked _).ret _) fun _ => (Plain.asked _).ret _
  | ident method path => exact plain_callNamed method path args frame source

theorem plain_evalNew (type : ClassRef) (ctor : SymbolId) (args : List Arg) (frame : Frame)
    (source : Span) : (evalNew p type ctor args frame source).Plain writes := by
  refine (plain_evalArguments frame args).bind fun r => .ite (fun _ => .pure _) fun _ => ?_
  exact (Plain.asked _).bind fun o => (Plain.calledFrom source (.asked _)).ret _

theorem asksFirst_evalBlock (frame : Frame) (result : ExprId) (stats : List ExprId) :
    (evalBlock p frame result stats).AsksFirst := by
  cases stats with
  | nil => exact .ask
  | cons => exact .ask

theorem plain_evalBlock (frame : Frame) (result : ExprId) (stats : List ExprId) :
    (evalBlock p frame result stats).Plain writes := by
  induction stats with
  | nil => exact .asked _
  | cons stat stats ih =>
    refine (Plain.asked _).bind fun o => ?_
    split
    · exact .look_bind fun s => (Plain.inEnv _ (asksFirst_evalBlock frame result stats) ih).ret _
    · exact ih.ret _

theorem plain_evalTarget (target : ExprId) (frame : Frame) :
    (evalTarget p target frame).Plain writes := by
  unfold evalTarget
  split
  · exact plain_errorsOf _ frame
  · exact .pure _

/-- An evaluation is plain inside of its scope. -/
theorem plain_node (e : ExprId) (frame : Frame) : (node p e frame).Plain writes := by
  unfold node
  cases (p.expr e).node with
  | wildcard | literal | methodDef | typeDef => exact .pure _
  | ident s path =>
    exact .ite (fun _ => plain_callNamed s _ [] frame _) fun _ => plain_evalPath frame _ path
  | thisOf target => exact plain_evalPath frame _ _
  | select qualifier s =>
    refine (Plain.asked _).bind fun o => ?_
    exact .ite (fun _ => (Plain.asked _).ret _) fun _ => (Plain.asked _).ret _
  | call callee args =>
    exact (plain_evalArguments frame args).bind fun r => (plain_callCallee callee r.2 frame _).ret _
  | new type ctor args => exact plain_evalNew type ctor args frame _
  | assign target value =>
    exact (plain_evalTarget target frame).bind fun _ => (plain_errorsOfHot value frame _).ret _
  | ifElse cond onTrue onFalse =>
    refine (plain_errorsOf cond frame).bind fun es => ?_
    exact (Plain.asked _).bind fun o => (Plain.asked _).ret _
  | matchOn scrutinee branches =>
    exact (plain_errorsOfHot scrutinee frame _).bind fun _ =>
      (plain_evalBranches branches frame).ret _
  | whileLoop cond body =>
    exact (plain_errorsOf cond frame).bind fun _ => (plain_errorsOf body frame).ret _
  | tryCatch body handlers finalizer =>
    refine (Plain.asked _).bind fun o => (plain_evalBranches handlers frame).bind fun r => ?_
    cases finalizer with
    | none => exact .pure _
    | some e => exact (plain_errorsOf e frame).ret _
  | sequence elems => exact (Plain.errorsOfEach elems fun e => plain_errorsOfHot e frame _).ret _
  | closure params body => exact (Plain.looked.ret _).ret _
  | block stats result => exact plain_evalBlock frame result stats
  | typed e unchecked | annotated e unchecked => exact .ite (fun _ => .pure _) fun _ => .asked _
  | ret e => exact (plain_errorsOfHot e frame _).ret _
  | namedArg e => exact .asked _
  | valDef s =>
    cases hbody : (p.symbol s).body with
    | none =>
      simp only [hbody]
      exact .pure _
    | some e =>
      simp only [hbody]
      exact .asked _
  | template c => exact .asked _

/-! ## Objects -/

theorem plain_createWarm (outer : Value) (c : ClassId) (ctor : SymbolId) (args : List ArgValue)
    (source : Span) : (createWarm outer c ctor args source).Plain true := by
  refine .perform _ (fun _ => rfl) fun w => .look_bind fun s => .ite (fun _ => .pure _) fun _ => ?_
  exact .perform _ (fun _ => rfl) fun _ => (Plain.asked _).ret _

theorem plain_checkArgument (arg : ArgValue) : (checkArgument arg).Plain writes :=
  (plain_promoteArgument arg).ret _

theorem plain_rememberedOuter (a : Addr) : (rememberedOuter a).Plain writes := by
  cases a with
  | thisOf c => exact .pure _
  | warm w =>
    have read : (liftM (Effect.creationOf w) : Plan Creation).Plain writes := .perform _ nofun .pure
    refine read.bind fun creation => ?_
    split
    · exact .pure _
    · exact .pure _

theorem plain_create (outer : Value) (c : ClassId) (ctor : SymbolId) (args : List ArgValue)
    (source : Span) : (create p outer c ctor args source).Plain true := by
  cases outer with
  | hot =>
    refine (Plain.mapM args plain_checkArgument).bind fun checked => ?_
    exact .ite (fun _ => (plain_createWarm _ c ctor _ source).ret _) fun _ => .pure _
  | cold => exact .fail _ source
  | ref a =>
    refine .ite (fun _ => ?_) fun _ => (plain_promoteArguments args).ret _
    refine (plain_rememberedOuter a).bind fun v => (plain_createWarm v c ctor args source).bind ?_
    exact fun o => .look_bind fun s => .ite (fun _ => .pure _) fun _ => .pure _
  | closure => exact (Plain.report _ source).ret _
  | oneOf vs => exact .joinEach vs fun v => .asked _

theorem plain_setParams (c : ClassId) (this : Addr) : (setParams p c this).Plain true := by
  unfold setParams
  dsimp only
  generalize p.paramFields c = fields
  induction fields with
  | nil => exact .pure _
  | cons field fields ih =>
    exact (Plain.look_bind fun s => .perform _ (fun _ => rfl) .pure).bind fun _ => ih

theorem plain_prepareParent (c : ClassId) (this : Addr) (type : ClassRef) (ctor : Option SymbolId)
    (args : List ArgValue) (source : Span) :
    (prepareParent p c this type ctor args source).Plain true :=
  (Plain.asked _).bind fun _ => .perform _ (fun _ => rfl) fun _ => .pure _

theorem plain_prepareListed (c : ClassId) (this : Addr) (parent : Parent) :
    (prepareListed p c this parent).Plain true :=
  (plain_evalArguments _ parent.args).bind fun r =>
    (plain_prepareParent c this parent.type parent.ctor r.2 parent.span).ret _

theorem plain_prepareMixin (c : ClassId) (this : Addr) (superClass : Parent) (listed : List Parent)
    (mixin : ClassId) : (prepareMixin p c this superClass listed mixin).Plain true := by
  unfold prepareMixin
  split
  · exact plain_prepareListed c this _
  · exact plain_prepareParent c this _ _ _ _

theorem plain_initParents (c : ClassId) (this : Addr) (parents : List Parent) :
    (initParents p c this parents).Plain true := by
  cases parents with
  | nil => exact .pure _
  | cons superClass listed =>
    refine (plain_prepareListed c this superClass).bind fun first => ?_
    refine (Plain.mapM _ (plain_prepareMixin c this superClass listed)).bind fun mixins => ?_
    exact (Plain.errorsOfEach _ fun call => (Plain.asked _).ret _).ret _

theorem plain_template (c : ClassId) (this : Addr) : (template p c this).Plain true := by
  unfold template
  split
  · refine (plain_setParams c this).bind fun _ => ?_
    split
    · exact (Plain.asked _).ret _
    · exact (plain_initParents c this _).bind fun es => (Plain.asked _).ret _
  · exact .pure _

theorem plain_stat (c : ClassId) (this : Addr) (e : ExprId) : (stat p c this e).Plain true := by
  have set (field : SymbolId) (o : Outcome) : (do
      Effect.setField this field o.value
      return o.errors : Plan (List SafetyError)).Plain true :=
    .perform _ (fun _ => rfl) fun _ => .pure _
  unfold stat
  split
  · refine .ite (fun _ => .pure _) fun _ => ?_
    split
    · exact (Plain.asked _).bind (set _)
    · exact set _ .hot
  · exact .pure _
  · exact .pure _
  · exact (Plain.asked _).ret _

theorem plain_body (c : ClassId) (this : Addr) : (body p c this).Plain true := by
  unfold body
  split
  · exact .errorsOfEach _ (plain_stat c this)
  · exact .pure _

theorem plain_check (c : ClassId) : (check p c).Plain true := by
  have run (e : ExprId) (env : Env) : (do
      let o ← inEnv env (calledFrom (p.cls c).span (Query.eval e ⟨.thisOf c, c⟩ true))
      return o.errors : Plan (List SafetyError)).Plain true :=
    (plain_evalCalled env _ e _ true).ret _
  unfold check
  split
  · split
    · refine .look_bind fun s => ?_
      split
      · exact run _ _
      · exact .perform _ (fun _ => rfl) fun _ => run _ _
    · exact .pure _
  · exact .pure _

end Plan

/-! ## Questions -/

/-- The plan of the question may change the heap itself. -/
def Query.writes {β : Type} : Query β → Bool
  | .create .. | .template .. | .body .. | .check _ => true
  | _ => false

/-- The plans of all questions are plain except those of evaluations. -/
theorem Query.plain_plan {p : Program} {β : Type} (q : Query β)
    (h : q.evaluation = []) : (q.plan p).Plain q.writes := by
  cases q with
  | eval => cases h
  | select v field source virtual => exact Plan.plain_select v field source virtual
  | call v method args dispatch source => exact Plan.plain_call v method args dispatch source
  | construct v ctor args source => exact Plan.plain_construct v ctor args source
  | create outer c ctor args source => exact Plan.plain_create outer c ctor args source
  | template c this => exact Plan.plain_template c this
  | body c this => exact Plan.plain_body c this
  | promote v reason source => exact Plan.plain_promote v reason source
  | isPromotable v => exact Plan.plain_isPromotable v
  | enclosingInstance target v c source => exact Plan.plain_enclosingInstance target v c source
  | outerInstance type frame source => exact Plan.plain_outerInstance type frame source
  | check c => exact Plan.plain_check c

end ObjectInit
