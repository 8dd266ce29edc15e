import ObjectInit.Proofs.Alike
import ObjectInit.Proofs.Kept

/-!
# The analysis does not depend on traces

Every plan of the analysis is alike to itself, and to the plan for the same question with arguments
that were evaluated elsewhere. Evaluations, promotions and the tests that go with them look at the
cache and at the trusted values; of these only the parts are alike. Fields are set by the templates
of classes alone.

Main results:

* `Plan.alike_node`: what an evaluation does when the value of the expression is not known.
* `Plan.alike_call`, `Plan.alike_create`, `Plan.alike_template`: members and objects.
* `Query.Alike.plan`: the plans of all questions except evaluations, creations and promotions.
-/

namespace ObjectInit

variable {p : Program} {sets : Bool} {agree : Heap → Heap → Prop} {args args' : List ArgValue}

/-- The place in the heap at which the plan of the question looks is the same in both heaps. Objects
    that are created are left out. -/
def Query.FindsSame (p : Program) (h h' : Heap) {β : Type} : Query β → Prop
  | .select (.ref a) f _ virtual =>
    (p.symbol (if virtual then p.virtualTarget a.cls f else f)).isLazy = false →
      h.field? a (if virtual then p.virtualTarget a.cls f else f) =
        h'.field? a (if virtual then p.virtualTarget a.cls f else f)
  | .call (.ref a) m _ dispatch _ =>
    (p.symbol (Plan.target p a m dispatch)).isMethod = false →
      h.field? a (Plan.target p a m dispatch) = h'.field? a (Plan.target p a m dispatch)
  | .enclosingInstance target (.ref a) c _ =>
    target ≠ c → ¬p.isPackage target → h.outer? a c = h'.outer? a c
  | _ => True

theorem Heap.contains_of_eq (h h' : Heap) (a : Addr) (same : h = h') :
    h.contains a = h'.contains a :=
  same ▸ rfl

theorem Query.findsSame_of_eq {β : Type} {q : Query β} (h h' : Heap) (same : h = h') :
    q.FindsSame p h h' := by
  subst same
  cases q with
  | select v | call v =>
    cases v with
    | ref => exact fun _ => rfl
    | _ => trivial
  | enclosingInstance _ v =>
    cases v with
    | ref => exact fun _ _ => rfl
    | _ => trivial
  | _ => trivial

namespace Plan

/-! ## Fields -/

theorem alike_failUnknown (member : SymbolId) (source : Span) :
    Alike sets agree Outcome.Alike (failUnknown p member source) (failUnknown p member source) :=
  .fail _ _ _ _

theorem alike_initializer (a : Addr) (field : SymbolId) (source : Span) :
    Alike sets agree Outcome.Alike (initializer p a field source)
      (initializer p a field source) := by
  unfold initializer
  split
  · exact .calledFrom _ _ (.ask_self (.eval _ _ _) rfl)
  · exact alike_failUnknown field source

theorem alike_selectMissing (a : Addr) (field : SymbolId) (source : Span) :
    Alike sets agree Outcome.Alike (selectMissing p a field source)
      (selectMissing p a field source) := by
  cases a with
  | warm w =>
    exact .ite (fun _ => .pure (Outcome.Alike.refl _)) fun _ => alike_initializer _ field source
  | thisOf c =>
    exact .ite (fun _ => .calledFrom _ _ (.fail _ _ _ _)) fun _ => alike_failUnknown field source

theorem alike_selectAt (a : Addr) (field : SymbolId) (source : Span)
    (same : ∀ h h', agree h h' → (p.symbol field).isLazy = false →
      h.field? a field = h'.field? a field) :
    Alike sets agree Outcome.Alike (selectAt p a field source) (selectAt p a field source) := by
  refine .ite (fun _ => alike_initializer a field source) fun strict => ?_
  refine .look_bind fun s s' _ hheap => ?_
  rw [same _ _ hheap (Bool.not_eq_true _ ▸ strict)]
  split
  · exact .pure (Outcome.Alike.refl _)
  · exact alike_selectMissing a field source

theorem alike_select (v : Value) (field : SymbolId) (source : Span) (virtual : Bool)
    (same : ∀ h h', agree h h' → (Query.select v field source virtual).FindsSame p h h') :
    Alike sets agree Outcome.Alike (select p v field source virtual)
      (select p v field source virtual) := by
  cases v with
  | hot => exact .pure (Outcome.Alike.refl _)
  | cold => exact .fail _ _ _ _
  | ref a => exact alike_selectAt a _ source same
  | closure =>
    exact (Alike.report _ source).bind fun _ _ _ => .pure (Outcome.Alike.refl _)
  | oneOf vs => exact .joinEach vs fun v => .ask_self (.select v field source virtual) rfl

/-! ## Calls -/

theorem alike_eval (e : ExprId) (frame : Frame) (final : Bool) :
    Alike sets agree Outcome.Alike (liftM (Query.eval e frame final))
      (liftM (Query.eval e frame final)) :=
  .ask_self (.eval e frame final) rfl

theorem alike_askPromote (v : Value) (reason : String) (source : Span) :
    Alike sets agree ErrorsAlike (liftM (Query.promote v reason source))
      (liftM (Query.promote v reason source)) :=
  .ask_self (.promote v reason source) rfl

theorem alike_promoteArgument {arg arg' : ArgValue} (h : arg.Alike arg') :
    Alike sets agree ErrorsAlike (promoteArgument arg) (promoteArgument arg') := by
  unfold promoteArgument
  rw [h.1, h.2]
  exact .inTrace _ _ (alike_askPromote _ _ _)

theorem alike_promoteArguments (h : ArgsAlike args args') :
    Alike sets agree ErrorsAlike (promoteArguments args) (promoteArguments args') :=
  .errorsOfEach h fun _ _ => alike_promoteArgument

theorem ArgsAlike.widenedBindings_eq (h : ArgsAlike args args') (params : List SymbolId) :
    widenedBindings params args = widenedBindings params args' := by
  have hvalues : args.map (fun arg => arg.value.widen) = args'.map fun arg => arg.value.widen := by
    induction h with
    | nil => rfl
    | cons h _ ih => rw [List.map_cons, List.map_cons, h.1, ih]
  rw [widenedBindings, widenedBindings, hvalues]

theorem alike_runMember (a : Addr) (target : SymbolId) (h : ArgsAlike args args') :
    Alike sets agree Outcome.Alike (runMember p a target args) (runMember p a target args') := by
  cases body : (p.symbol target).body with
  | none =>
    simp only [runMember, body]
    exact .pure (Outcome.Alike.refl _)
  | some e =>
    have run : Alike sets agree Outcome.Alike (liftM (Query.eval e ⟨a, p.homeClass target⟩ true))
        (liftM (Query.eval e ⟨a, p.homeClass target⟩ true)) := .ask_self (.eval _ _ _) rfl
    rw [runMember_of_body body, runMember_of_body body, ArgsAlike.widenedBindings_eq h]
    refine .ite (fun _ => ?_) fun _ => .ite (fun _ => ?_) fun _ => .ite (fun _ => ?_) fun _ => ?_
    · exact (Alike.inEnv _ (.calledFrom _ _ run)).bind fun o o' ho => .pure ⟨rfl, ho.2⟩
    · exact .inEnv _ run
    · refine .look_bind fun s s' henv _ => ?_
      rw [henv]
      exact .inEnv _ run
    · refine (Alike.inEnv _ run).bind fun o o' ho => ?_
      exact (alike_promoteArguments h).bind fun es es' hes => .pure (ho.followedBy hes)

theorem alike_callTarget (a : Addr) (target : SymbolId) (source : Span) (h : ArgsAlike args args') :
    Alike sets agree Outcome.Alike (callTarget p a target args source)
      (callTarget p a target args' source) := by
  refine .ite (fun _ => .calledFrom _ _ (alike_runMember a target h)) fun _ => ?_
  exact .ite (fun _ => .pure (Outcome.Alike.refl _)) fun _ => alike_failUnknown target source

theorem alike_callAt (a : Addr) (method : SymbolId) (dispatch : Dispatch) (source : Span)
    (h : ArgsAlike args args') (same : ∀ h h', agree h h' →
      (Query.call (.ref a) method args dispatch source).FindsSame p h h') :
    Alike sets agree Outcome.Alike (callAt p a method args dispatch source)
      (callAt p a method args' dispatch source) := by
  refine .ite (fun _ => alike_callTarget a _ source h) fun isField => ?_
  refine .look_bind fun s s' _ hheap => ?_
  rw [same _ _ hheap (Bool.not_eq_true _ ▸ isField)]
  split
  · exact .pure (Outcome.Alike.refl _)
  · exact .ask_self (.select _ _ _ _) rfl

theorem alike_call (v : Value) (method : SymbolId) (dispatch : Dispatch) (source : Span)
    (h : ArgsAlike args args')
    (same : ∀ h h', agree h h' → (Query.call v method args dispatch source).FindsSame p h h') :
    Alike sets agree Outcome.Alike (call p v method args dispatch source)
      (call p v method args' dispatch source) := by
  cases v with
  | hot => exact (alike_promoteArguments h).bind fun es es' hes => .pure (.ofErrors hes)
  | cold =>
    refine (Alike.fail _ _ _ _).bind fun o o' ho => ?_
    exact (alike_promoteArguments h).bind fun es es' hes => .pure (ho.followedBy hes)
  | ref a => exact alike_callAt a method dispatch source h same
  | closure body params frame env =>
    refine .ite (fun _ => ?_) fun _ => .pure (Outcome.Alike.refl _)
    refine (Alike.calledFrom _ _ (.inEnv _ (alike_eval body frame true))).bind fun o o' ho => ?_
    exact (alike_promoteArguments h).bind fun es es' hes => .pure (ho.followedBy hes)
  | oneOf vs => exact .joinEach vs fun v => .ask_self (.call v method dispatch source h) rfl

theorem alike_construct (v : Value) (ctor : SymbolId) (source : Span) (h : ArgsAlike args args') :
    Alike sets agree Outcome.Alike (construct p v ctor args source)
      (construct p v ctor args' source) := by
  cases v with
  | ref a => exact alike_callTarget a ctor source h
  | _ => exact (Alike.report _ source).bind fun _ _ _ => .pure (Outcome.Alike.refl _)

/-! ## Enclosing instances -/

theorem alike_fromOuter (target : ClassId) (a : Addr) (c : ClassId) (source : Span)
    (same : ∀ h h', agree h h' → h.outer? a c = h'.outer? a c) :
    Alike sets agree Eq (fromOuter p target a c source) (fromOuter p target a c source) := by
  refine .look_bind fun s s' _ hheap => ?_
  rw [same _ _ hheap]
  split
  · exact .ask_self (.enclosingInstance _ _ _ _) rfl
  · exact (Alike.report _ source).bind fun _ _ _ => .pure rfl

theorem alike_enclosingInstance (target : ClassId) (v : Value) (c : ClassId) (source : Span)
    (same : ∀ h h', agree h h' → (Query.enclosingInstance target v c source).FindsSame p h h') :
    Alike sets agree Eq (enclosingInstance p target v c source)
      (enclosingInstance p target v c source) := by
  refine .ite (fun _ => .pure rfl) fun further => .ite (fun _ => .pure rfl) fun inside => ?_
  cases v with
  | hot => exact .pure rfl
  | cold => exact .pure rfl
  | ref a =>
    exact alike_fromOuter target a c source fun h h' hheap => same h h' hheap further inside
  | closure => exact (Alike.report _ source).bind fun _ _ _ => .pure rfl
  | oneOf vs =>
    have each (v : Value) : Alike sets agree Eq (liftM (Query.enclosingInstance target v c source))
        (liftM (Query.enclosingInstance target v c source)) :=
      .ask_self (.enclosingInstance target v c source) rfl
    refine (Alike.mapM_same vs each).bind fun us us' hus => ?_
    rw [List.forall₂_eq_eq_eq] at hus
    exact .pure (congrArg Value.joinAll hus)

theorem alike_evalPath (frame : Frame) (source : Span) (path : Path) :
    Alike sets agree Outcome.Alike (evalPath p frame source path)
      (evalPath p frame source path) := by
  induction path with
  | bare => exact .pure (Outcome.Alike.refl _)
  | constant => exact .pure (Outcome.Alike.refl _)
  | paramRef => exact .pure (Outcome.Alike.refl _)
  | thisOf target =>
    refine .ite (fun _ => .pure (Outcome.Alike.refl _)) fun _ => ?_
    have v : Alike sets agree Eq
        (liftM (Query.enclosingInstance target (.ref frame.receiver) frame.cls source))
        (liftM (Query.enclosingInstance target (.ref frame.receiver) frame.cls source)) :=
      .ask_self (.enclosingInstance _ _ _ _) rfl
    exact v.bind fun v v' hv => .pure (hv ▸ Outcome.Alike.refl _)
  | member base s ih =>
    cases base with
    | bare =>
      refine .look_bind fun t t' henv _ => ?_
      rw [henv]
      exact .pure (Outcome.Alike.refl _)
    | _ =>
      refine ih.bind fun receiver receiver' hreceiver => ?_
      rw [hreceiver.1]
      refine (Alike.ask_self (.select _ s source true) rfl).bind fun o o' ho => ?_
      exact .pure (ho.precededBy hreceiver.2)

theorem alike_outerInstance (type : ClassRef) (frame : Frame) (source : Span) :
    Alike sets agree Outcome.Alike (outerInstance p type frame source)
      (outerInstance p type frame source) := by
  refine .ite (fun _ => ?_) fun _ => .ite (fun _ => .pure (Outcome.Alike.refl _)) fun _ => ?_
  · exact (Alike.ask_self (.enclosingInstance _ _ _ _) rfl).bind fun v v' hv =>
      .pure (hv ▸ Outcome.Alike.refl _)
  · exact alike_evalPath frame source type.path

/-! ## Promotion -/

theorem alike_failPromotion (reason : String) (source : Span) :
    Alike sets agree ErrorsAlike (failPromotion reason source) (failPromotion reason source) :=
  (Alike.raise_self _ _ _ _).bind fun _ _ _ => .pure rfl

theorem alike_explain (reason : String) {causes causes' : List SafetyError} (source : Span)
    (h : ErrorsAlike causes causes') :
    Alike sets agree ErrorsAlike (explain reason causes source)
      (explain reason causes' source) := by
  unfold explain
  rw [h.isEmpty_eq]
  refine .ite (fun _ => .pure (ErrorsAlike.refl _)) fun _ => ?_
  exact (Alike.raise_self _ _ _ _).bind fun _ _ _ => .pure rfl

theorem alike_requireHot {o o' : Outcome} (h : o.Alike o') (reason : String) (source : Span) :
    Alike sets agree Outcome.Alike (requireHot o reason source) (requireHot o' reason source) := by
  unfold requireHot
  rw [h.1]
  exact (alike_askPromote o'.value reason source).bind fun es es' hes =>
    .pure (h.followedBy hes)

theorem alike_tryUse {use use' : Plan Outcome} (h : Alike sets agree Outcome.Alike use use')
    (at' : Span) (reason : String) (source : Span) :
    Alike sets agree ErrorsAlike (tryUse use at' reason source)
      (tryUse use' at' reason source) := by
  refine .calledFrom _ _ (h.bind fun o o' ho => ?_)
  exact (alike_requireHot ho reason source).bind fun o o' ho => .pure ho.2

theorem alike_promoteWarm (w : Warm) (reason : String) (source : Span) :
    Alike sets agree ErrorsAlike (promoteWarm p w reason source)
      (promoteWarm p w reason source) := by
  refine .ite (fun _ => alike_failPromotion reason source) fun _ => ?_
  refine (Alike.errorsOfEach_same _ fun field => ?_).bind fun es es' hes => ?_
  · exact alike_tryUse (.ask_self (.select _ field source true) rfl) _ reason source
  refine .look_bind fun s s' _ _ => ?_
  refine (Alike.errorsOfEach_same _ fun method => ?_).bind fun fs fs' hfs => ?_
  · refine alike_tryUse (.ask_self (.call _ method .virtual source ?_) rfl) _ reason source
    rw [ArgsAlike, List.forall₂_map_left_iff, List.forall₂_map_right_iff]
    exact List.forall₂_same.2 fun _ _ => ⟨rfl, rfl⟩
  · exact alike_explain reason source (hes.append hfs)

theorem alike_promoteBody (body : ExprId) (params : List SymbolId) (frame : Frame) (env : Env)
    (reason : String) (source : Span) :
    Alike sets agree ErrorsAlike (promoteBody body params frame env reason source)
      (promoteBody body params frame env reason source) := by
  refine (Alike.inEnv _ (.ask_self (.eval body frame false) rfl)).bind ?_
  intro o o' ho
  exact (alike_requireHot ho reason source).bind fun o o' ho => .pure ho.2

/-! ## Expressions -/

theorem alike_closure (params : List SymbolId) (body : ExprId) (frame : Frame) :
    Alike sets agree Eq (closure params body frame) (closure params body frame) :=
  .look_bind fun s s' henv _ => .pure (by rw [henv])

/-- The errors and the argument itself. -/
def EvaluatedAlike (r r' : List SafetyError × ArgValue) : Prop :=
  ErrorsAlike r.1 r'.1 ∧ r.2.Alike r'.2

theorem alike_evalArgument (frame : Frame) (arg : Arg) :
    Alike sets agree EvaluatedAlike (evalArgument p frame arg) (evalArgument p frame arg) := by
  have rest {o o' : Outcome} (ho : o.Alike o') : Alike sets agree EvaluatedAlike
      (do return (o.errors, ⟨o.value, (p.expr arg.expr).span, (← Effect.look).trace⟩))
      (do return (o'.errors, ⟨o'.value, (p.expr arg.expr).span, (← Effect.look).trace⟩)) :=
    .look_bind fun s s' _ _ => .pure ⟨ho.2, ho.1, rfl⟩
  refine .ite (fun _ => ?_) fun _ => ?_
  · refine Alike.bind (S := Outcome.Alike) ?_ fun o o' ho => rest ho
    exact (alike_closure [] arg.expr frame).map fun v v' hv => hv ▸ Outcome.Alike.refl _
  · exact (alike_eval arg.expr frame false).bind fun o o' ho => rest ho

theorem alike_evalArguments (frame : Frame) (args : List Arg) :
    Alike sets agree (fun r r' => ErrorsAlike r.1 r'.1 ∧ ArgsAlike r.2 r'.2)
      (evalArguments p frame args) (evalArguments p frame args) := by
  refine (Alike.mapM_same args (alike_evalArgument frame)).bind fun rs rs' hrs => .pure ?_
  refine ⟨.flatMap hrs fun _ _ hr => hr.1, ?_⟩
  rw [ArgsAlike, List.forall₂_map_left_iff, List.forall₂_map_right_iff]
  exact hrs.imp fun _ _ hr => hr.2

theorem alike_errorsOf (e : ExprId) (frame : Frame) :
    Alike sets agree ErrorsAlike (errorsOf e frame) (errorsOf e frame) :=
  (alike_eval e frame false).bind fun _ _ ho => .pure ho.2

theorem alike_errorsOfHot (e : ExprId) (frame : Frame) (reason : String) :
    Alike sets agree ErrorsAlike (errorsOfHot p e frame reason) (errorsOfHot p e frame reason) :=
  (alike_eval e frame false).bind fun _ _ ho =>
    (alike_requireHot ho reason _).bind fun _ _ ho => .pure ho.2

theorem alike_evalBranches (es : List ExprId) (frame : Frame) :
    Alike sets agree Outcome.Alike (evalBranches es frame) (evalBranches es frame) :=
  .joinEach es fun e => alike_eval e frame false

theorem alike_callNamed (method : SymbolId) (path : Path) (frame : Frame) (source : Span)
    (h : ArgsAlike args args') :
    Alike sets agree Outcome.Alike (callNamed p method path args frame source)
      (callNamed p method path args' frame source) := by
  refine .ite (fun _ => ?_) fun _ => ?_
  · refine (Alike.ask_self (.enclosingInstance _ _ _ _) rfl).bind fun v v' hv => ?_
    rw [hv]
    exact .ask_self (.call v' method .direct source h) rfl
  · refine (alike_evalPath frame source path).bind fun r r' hr => ?_
    rw [hr.1]
    exact (Alike.ask_self (.call _ method .virtual source h) rfl).bind
      fun o o' ho => .pure (ho.precededBy hr.2)

theorem alike_callCallee (callee : Callee) (frame : Frame) (source : Span)
    (h : ArgsAlike args args') :
    Alike sets agree Outcome.Alike (callCallee p callee args frame source)
      (callCallee p callee args' frame source) := by
  cases callee with
  | super home base method =>
    refine (Alike.ask_self (.enclosingInstance _ _ _ _) rfl).bind fun v v' hv => ?_
    rw [hv]
    exact .ask_self (.call v' method (.fromBase base) source h) rfl
  | select qualifier method =>
    refine (alike_eval qualifier frame false).bind fun r r' hr => ?_
    rw [hr.1]
    refine .ite (fun _ => ?_) fun _ => ?_
    · exact (Alike.ask_self (.construct _ method source h) rfl).bind
        fun o o' ho => .pure (ho.precededBy hr.2)
    · exact (Alike.ask_self (.call _ method .virtual source h) rfl).bind
        fun o o' ho => .pure (ho.precededBy hr.2)
  | ident method path => exact alike_callNamed method path frame source h

theorem alike_evalNew (type : ClassRef) (ctor : SymbolId) (args : List Arg) (frame : Frame)
    (source : Span) :
    Alike sets agree Outcome.Alike (evalNew p type ctor args frame source)
      (evalNew p type ctor args frame source) := by
  refine (alike_evalArguments frame args).bind ?_
  rintro ⟨es, values⟩ ⟨es', values'⟩ ⟨hes, hvalues⟩
  dsimp only
  rw [show es.isEmpty = es'.isEmpty from hes.isEmpty_eq]
  refine .ite (fun _ => .pure (.ofErrors hes)) fun _ => ?_
  refine (Alike.ask_self (.outerInstance type frame source) rfl).bind ?_
  intro outer outer' houter
  rw [houter.1]
  have created : Alike sets agree Outcome.Alike
      (calledFrom source (Query.create outer'.value type.cls ctor values source))
      (calledFrom source (Query.create outer'.value type.cls ctor values' source)) :=
    .calledFrom _ _ (.ask_self (.create _ _ ctor source hvalues) rfl)
  exact created.bind fun o o' ho => .pure (ho.precededBy houter.2)

theorem alike_evalBlock (frame : Frame) (result : ExprId) (stats : List ExprId) :
    Alike sets agree Outcome.Alike (evalBlock p frame result stats)
      (evalBlock p frame result stats) := by
  induction stats with
  | nil => exact alike_eval result frame false
  | cons stat stats ih =>
    refine (alike_eval stat frame false).bind fun o o' ho => ?_
    dsimp only
    split
    · refine .look_bind fun s s' henv _ => ?_
      rw [henv, ho.1]
      exact (Alike.inEnv _ ih).bind fun r r' hr => .pure (hr.precededBy ho.2)
    · exact ih.bind fun r r' hr => .pure (hr.precededBy ho.2)

theorem alike_evalTarget (target : ExprId) (frame : Frame) :
    Alike sets agree ErrorsAlike (evalTarget p target frame) (evalTarget p target frame) := by
  unfold evalTarget
  split
  · exact alike_errorsOf _ frame
  · exact .pure (ErrorsAlike.refl _)

/-- What an evaluation does when the value of the expression is not known. -/
theorem alike_node (e : ExprId) (frame : Frame) :
    Alike sets agree Outcome.Alike (node p e frame) (node p e frame) := by
  unfold node
  cases (p.expr e).node with
  | wildcard | literal | methodDef | typeDef => exact .pure (Outcome.Alike.refl _)
  | ident s path =>
    exact .ite (fun _ => alike_callNamed s _ frame _ .nil) fun _ => alike_evalPath frame _ path
  | thisOf target => exact alike_evalPath frame _ _
  | select qualifier s =>
    refine (alike_eval qualifier frame false).bind fun r r' hr => ?_
    rw [hr.1]
    refine .ite (fun _ => ?_) fun _ => ?_
    · exact (Alike.ask_self (.call _ s .virtual _ .nil) rfl).bind
        fun o o' ho => .pure (ho.precededBy hr.2)
    · exact (Alike.ask_self (.select _ s _ true) rfl).bind
        fun o o' ho => .pure (ho.precededBy hr.2)
  | call callee args =>
    refine (alike_evalArguments frame args).bind ?_
    rintro ⟨es, values⟩ ⟨es', values'⟩ ⟨hes, hvalues⟩
    exact (alike_callCallee callee frame _ hvalues).bind fun o o' ho =>
      .pure (ho.precededBy hes)
  | new type ctor args => exact alike_evalNew type ctor args frame _
  | assign target value =>
    refine (alike_evalTarget target frame).bind fun es es' hes => ?_
    exact (alike_errorsOfHot value frame _).bind fun fs fs' hfs =>
      .pure (.ofErrors (hes.append hfs))
  | ifElse cond onTrue onFalse =>
    refine (alike_errorsOf cond frame).bind fun es es' hes => ?_
    refine (alike_eval onTrue frame false).bind fun o o' ho => ?_
    exact (alike_eval onFalse frame false).bind fun r r' hr => .pure ((ho.join hr).precededBy hes)
  | matchOn scrutinee branches =>
    refine (alike_errorsOfHot scrutinee frame _).bind fun es es' hes => ?_
    exact (alike_evalBranches branches frame).bind fun o o' ho => .pure (ho.precededBy hes)
  | whileLoop cond body =>
    refine (alike_errorsOf cond frame).bind fun es es' hes => ?_
    exact (alike_errorsOf body frame).bind fun fs fs' hfs => .pure (.ofErrors (hes.append hfs))
  | tryCatch body handlers finalizer =>
    refine (alike_eval body frame false).bind fun o o' ho => ?_
    refine (alike_evalBranches handlers frame).bind fun r r' hr => ?_
    dsimp only
    split
    · exact (alike_errorsOf _ frame).bind fun es es' hes => .pure ((ho.join hr).followedBy hes)
    · exact .pure (ho.join hr)
  | sequence elems =>
    exact (Alike.errorsOfEach_same elems fun e => alike_errorsOfHot e frame Reason.sequence).bind
      fun es es' hes => .pure (.ofErrors hes)
  | closure params body =>
    exact (alike_closure params body frame).bind fun v v' hv => .pure (hv ▸ Outcome.Alike.refl _)
  | block stats result => exact alike_evalBlock frame result stats
  | typed e unchecked =>
    exact .ite (fun _ => .pure (Outcome.Alike.refl _)) fun _ => alike_eval e frame false
  | annotated e unchecked =>
    exact .ite (fun _ => .pure (Outcome.Alike.refl _)) fun _ => alike_eval e frame false
  | ret e =>
    exact (alike_errorsOfHot e frame _).bind fun es es' hes => .pure (.ofErrors hes)
  | namedArg e => exact alike_eval e frame false
  | valDef s =>
    dsimp only
    split
    · exact alike_eval _ frame true
    · exact .pure (Outcome.Alike.refl _)
  | template c => exact .ask_self (.template c frame.receiver) rfl

/-! ## Objects -/

theorem alike_createWarm (outer : Value) (c : ClassId) (ctor : SymbolId) (source : Span)
    (h : ArgsAlike args args') (same : ∀ h h' a, agree h h' → h.contains a = h'.contains a) :
    Alike sets agree Outcome.Alike (createWarm outer c ctor args source)
      (createWarm outer c ctor args' source) := by
  have hwidened : ArgsAlike (args.map ArgValue.widen) (args'.map ArgValue.widen) := by
    rw [ArgsAlike, List.forall₂_map_left_iff, List.forall₂_map_right_iff]
    exact h.imp fun _ _ ha => ⟨congrArg Value.widen ha.1, ha.2⟩
  unfold createWarm
  dsimp only
  rw [hwidened.map_value]
  refine (Alike.perform_self (.warmOf _) rfl (by nofun)).bind fun w w' hw => ?_
  rw [hw]
  refine .look_bind fun s s' _ hheap => ?_
  rw [same _ _ _ hheap]
  refine .ite (fun _ => .pure (Outcome.Alike.refl _)) fun _ => ?_
  refine (Alike.perform_self (.allocate _ _) rfl ?_).bind fun _ _ _ => ?_
  · rw [Effect.setsField_allocate_new]
    nofun
  exact (Alike.ask_self (.construct _ ctor source hwidened) rfl).bind
    fun o o' ho => .pure ⟨rfl, ho.2⟩

theorem alike_checkArgument {arg arg' : ArgValue} (h : arg.Alike arg') :
    Alike sets agree EvaluatedAlike (checkArgument arg) (checkArgument arg') := by
  refine (alike_promoteArgument h).bind fun es es' hes => .pure ⟨hes, ?_, h.2⟩
  dsimp only
  rw [hes.isEmpty_eq, h.1]

theorem alike_rememberedOuter (a : Addr) :
    Alike sets agree Eq (rememberedOuter a) (rememberedOuter a) := by
  cases a with
  | warm w =>
    refine (Alike.perform_self (.creationOf w) rfl (by nofun)).bind fun creation creation' h => ?_
    rw [h]
    split
    · exact .pure rfl
    · exact .pure rfl
  | thisOf c => exact .pure rfl

theorem alike_create (outer : Value) (c : ClassId) (ctor : SymbolId) (source : Span)
    (h : ArgsAlike args args') (same : ∀ h h' a, agree h h' → h.contains a = h'.contains a) :
    Alike sets agree Outcome.Alike (create p outer c ctor args source)
      (create p outer c ctor args' source) := by
  cases outer with
  | hot =>
    refine (Alike.mapM h fun _ _ => alike_checkArgument).bind fun rs rs' hrs => ?_
    have herrors : ErrorsAlike (rs.flatMap (·.1)) (rs'.flatMap (·.1)) :=
      .flatMap hrs fun _ _ hr => hr.1
    have hvalues : ArgsAlike (rs.map (·.2)) (rs'.map (·.2)) := by
      rw [ArgsAlike, List.forall₂_map_left_iff, List.forall₂_map_right_iff]
      exact hrs.imp fun _ _ hr => hr.2
    dsimp only
    rw [herrors.isEmpty_eq]
    refine .ite (fun _ => ?_) fun _ => .pure (.ofErrors herrors)
    exact (alike_createWarm .hot c ctor source hvalues same).bind fun o o' ho =>
      .pure (.ofErrors (herrors.append ho.2))
  | cold => exact .fail _ _ _ _
  | ref a =>
    refine .ite (fun _ => ?_) fun _ => ?_
    · refine (alike_rememberedOuter a).bind fun v v' hv => ?_
      rw [hv]
      refine (alike_createWarm v' c ctor source h same).bind fun o o' ho => ?_
      refine .look_bind fun s s' henv _ => ?_
      rw [henv]
      exact .ite (fun _ => .pure ho) fun _ => .pure ⟨rfl, ho.2⟩
    · exact (alike_promoteArguments h).bind fun es es' hes => .pure (.ofErrors hes)
  | closure => exact (Alike.report _ source).bind fun _ _ _ => .pure (Outcome.Alike.refl _)
  | oneOf vs => exact .joinEach vs fun v => .ask_self (.create v c ctor source h) rfl

/-! ## Templates -/

/-- Only the class parameters are set. -/
theorem alike_setParams (c : ClassId) (this : Addr) :
    Alike true agree Eq (setParams p c this) (setParams p c this) := by
  unfold setParams
  dsimp only
  induction p.paramFields c with
  | nil => exact .pure rfl
  | cons field fields ih =>
    change Alike true agree Eq (_ >>= fun _ => fields.forM _) (_ >>= fun _ => fields.forM _)
    refine Alike.bind (S := Eq) ?_ fun _ _ _ => ih
    refine .look_bind fun s s' henv _ => ?_
    rw [henv]
    exact .perform_self _ rfl fun _ => rfl

/-- The same constructor call, with arguments that may have been evaluated elsewhere. -/
def ParentCallAlike (call call' : ParentCall) : Prop :=
  call.ctor = call'.ctor ∧ ArgsAlike call.args call'.args ∧ call.source = call'.source

/-- The errors and the constructor call that waits. -/
def PreparedAlike (r r' : List SafetyError × Option ParentCall) : Prop :=
  ErrorsAlike r.1 r'.1 ∧ Option.Rel ParentCallAlike r.2 r'.2

theorem alike_prepareParent (c : ClassId) (this : Addr) (type : ClassRef) (ctor : Option SymbolId)
    (source : Span) (h : ArgsAlike args args') :
    Alike sets agree PreparedAlike (prepareParent p c this type ctor args source)
      (prepareParent p c this type ctor args' source) := by
  refine (Alike.ask_self (.outerInstance type _ source) rfl).bind ?_
  intro outer outer' houter
  rw [houter.1]
  refine (Alike.perform_self (.setOuter this type.cls outer'.value) rfl (by nofun)).bind
    fun _ _ _ => ?_
  refine .pure ⟨houter.2, ?_⟩
  dsimp only
  cases (if (p.cls type.cls).hasSource then ctor else none : Option SymbolId) with
  | none => exact .none
  | some ctor => exact .some ⟨rfl, h, rfl⟩

theorem alike_prepareListed (c : ClassId) (this : Addr) (parent : Parent) :
    Alike sets agree PreparedAlike (prepareListed p c this parent)
      (prepareListed p c this parent) := by
  refine (alike_evalArguments _ parent.args).bind ?_
  rintro ⟨es, values⟩ ⟨es', values'⟩ ⟨hes, hvalues⟩
  exact (alike_prepareParent c this parent.type parent.ctor parent.span hvalues).bind
    fun r r' hr => .pure ⟨hes.append hr.1, hr.2⟩

theorem alike_prepareMixin (c : ClassId) (this : Addr) (superClass : Parent) (listed : List Parent)
    (mixin : ClassId) :
    Alike sets agree PreparedAlike (prepareMixin p c this superClass listed mixin)
      (prepareMixin p c this superClass listed mixin) := by
  unfold prepareMixin
  split
  · exact alike_prepareListed c this _
  · exact alike_prepareParent c this _ _ _ .nil

theorem alike_initParents (c : ClassId) (this : Addr) (parents : List Parent) :
    Alike sets agree ErrorsAlike (initParents p c this parents) (initParents p c this parents) := by
  cases parents with
  | nil => exact .pure (.refl [])
  | cons superClass listed =>
    refine (alike_prepareListed c this superClass).bind fun first first' hfirst => ?_
    refine (Alike.mapM_same _ (alike_prepareMixin c this superClass listed)).bind ?_
    intro mixins mixins' hmixins
    have hprepared : List.Forall₂ PreparedAlike (first :: mixins) (first' :: mixins') :=
      .cons hfirst hmixins
    have hcalls : List.Forall₂ ParentCallAlike ((first :: mixins).filterMap (·.2))
        ((first' :: mixins').filterMap (·.2)) :=
      List.rel_filterMap (fun _ _ hr => hr.2) hprepared
    have herrors : ErrorsAlike ((first :: mixins).flatMap (·.1))
        ((first' :: mixins').flatMap (·.1)) := .flatMap hprepared fun _ _ hr => hr.1
    refine (Alike.errorsOfEach hcalls fun call call' hcall => ?_).bind fun es es' hes =>
      .pure (herrors.append hes)
    rw [hcall.1, hcall.2.2]
    exact (Alike.ask_self (.construct _ _ _ hcall.2.1) rfl).bind
      fun o o' ho => .pure ho.2

theorem alike_template (c : ClassId) (this : Addr) :
    Alike true agree Outcome.Alike (template p c this) (template p c this) := by
  unfold template
  split
  · refine (alike_setParams c this).bind fun _ _ _ => ?_
    have rest {es es' : List SafetyError} (hes : ErrorsAlike es es') :
        Alike true agree Outcome.Alike (do return ⟨.ref this, es ++ (← Query.body c this)⟩)
        (do return ⟨.ref this, es' ++ (← Query.body c this)⟩) :=
      (Alike.ask_self (.body c this) rfl).bind fun fs fs' hfs =>
        .pure ⟨rfl, hes.append hfs⟩
    refine .ite (fun _ => rest (.refl [])) fun _ => ?_
    exact (alike_initParents c this _).bind fun es es' hes => rest hes
  · exact .pure (Outcome.Alike.refl _)

/-- A statement sets the field that it defines. -/
theorem alike_stat (c : ClassId) (this : Addr) (e : ExprId) :
    Alike true agree ErrorsAlike (stat p c this e) (stat p c this e) := by
  unfold stat
  cases (p.expr e).node with
  | valDef field =>
    refine .ite (fun _ => .pure (.refl [])) fun _ => ?_
    have rest {o o' : Outcome} (ho : o.Alike o') : Alike true agree ErrorsAlike
        (do Effect.setField this field o.value; return o.errors)
        (do Effect.setField this field o'.value; return o'.errors) := by
      rw [ho.1]
      exact (Alike.perform_self _ rfl fun _ => rfl).bind fun _ _ _ => .pure ho.2
    dsimp only
    split
    · exact (alike_eval _ _ true).bind fun o o' ho => rest ho
    · exact rest (Outcome.Alike.refl _)
  | methodDef | typeDef => exact .pure (.refl [])
  | _ => exact (alike_eval e _ false).bind fun o o' ho => .pure ho.2

theorem alike_body (c : ClassId) (this : Addr) :
    Alike true agree ErrorsAlike (body p c this) (body p c this) := by
  unfold body
  split
  · exact .errorsOfEach_same _ (alike_stat c this)
  · exact .pure (.refl [])

theorem alike_check (c : ClassId) (same : ∀ h h' a, agree h h' → h.contains a = h'.contains a) :
    Alike sets agree ErrorsAlike (check p c) (check p c) := by
  have rest (params : List SymbolId) (e : ExprId) : Alike sets agree ErrorsAlike
      (do return (← inEnv (.ofList (params.map (·, .hot))) <|
        calledFrom (p.cls c).span (Query.eval e ⟨.thisOf c, c⟩ true)).errors)
      (do return (← inEnv (.ofList (params.map (·, .hot))) <|
        calledFrom (p.cls c).span (Query.eval e ⟨.thisOf c, c⟩ true)).errors) :=
    (Alike.inEnv _ (.calledFrom _ _ (alike_eval e _ true))).bind fun o o' ho => .pure ho.2
  unfold check
  split
  · split
    · refine .look_bind fun s s' _ hheap => ?_
      rw [same _ _ _ hheap]
      refine .ite (fun _ => rest _ _) fun _ => ?_
      refine (Alike.perform_self (.allocate _ _) rfl ?_).bind fun _ _ _ => rest _ _
      rw [Effect.setsField_allocate_new]
      nofun
    · exact .pure (.refl [])
  · exact .pure (.refl [])

end Plan

/-! ## Questions -/

/-- How the question is answered depends on what the store remembers, or on the objects that there
    are. -/
def Query.remembers {β : Type} : Query β → Bool
  | .eval .. | .create .. | .promote .. | .isPromotable _ => true
  | _ => false

/-- The plans of alike questions are alike, unless the answer is remembered. -/
theorem Query.Alike.plan {β : Type} {q q' : Query β} (h : q.Alike q')
    (hq : q.remembers = false) (same : ∀ h h', agree h h' → q.FindsSame p h h') :
    Plan.Alike true agree q.AnswersAlike (q.plan p) (q'.plan p) := by
  cases h with
  | eval | create | promote => cases hq
  | select v field source virtual => exact Plan.alike_select v field source virtual same
  | call v method dispatch source h => exact Plan.alike_call v method dispatch source h same
  | construct v ctor source h => exact Plan.alike_construct v ctor source h
  | template c this => exact Plan.alike_template c this
  | body c this => exact Plan.alike_body c this
  | enclosingInstance target v c source =>
    exact Plan.alike_enclosingInstance target v c source same
  | outerInstance type frame source => exact Plan.alike_outerInstance type frame source

end ObjectInit
