import ObjectInit.Proofs.Plain
import ObjectInit.Proofs.Scoped
import ObjectInit.Proofs.Uncached

/-!
# Tentative evaluations

An evaluation that is not final leaves nothing in the cache, so the expression is evaluated again
the next time. `Plan.Tries` says which expressions a plan evaluates in this way. Apart from the
bodies of closures that are promoted, these are parts of other expressions and of templates. The
bodies of members and of classes are evaluated for good.

Main results:

* `Plan.Tries.bind`, `Plan.Tries.mapM`: how the plans are put together.
* `Query.tries_uncached`: what the plans of all questions evaluate tentatively.
-/

namespace ObjectInit

/-- The expression that the question evaluates without keeping its value, with the frame. -/
def Query.tentative {β : Type} : Query β → Option (ExprId × Frame)
  | .eval e frame false => some (e, frame)
  | _ => none

/-- The question is whether a closure with this body can be promoted. -/
inductive Query.RunsClosure (body : ExprId) (frame : Frame) : {β : Type} → Query β → Prop where
  | mk (params : List SymbolId) (env : Env) (reason : String) (source : Span) :
    RunsClosure body frame (.promote (.closure body params frame env) reason source)

/-- Whatever the answers, the plan evaluates only such expressions without keeping their values. -/
inductive Plan.Tries (ok : ExprId → Frame → Prop) : {α : Type} → Plan α → Prop where
  | pure {α : Type} (a : α) : Tries ok (.pure a)
  | ask {α β : Type} (q : Query β) {next : β → Plan α}
    (allowed : ∀ e frame, q.tentative = some (e, frame) → ok e frame)
    (h : ∀ b, Tries ok (next b)) : Tries ok (.ask q next)
  | perform {α β : Type} (effect : Effect β) {next : β → Plan α} (h : ∀ b, Tries ok (next b)) :
    Tries ok (.perform effect next)
  | within {α β : Type} (scope : Scope β) {part : Plan β} {next : β → Plan α}
    (hpart : Tries ok part) (h : ∀ b, Tries ok (next b)) : Tries ok (.within scope part next)

namespace Plan

variable {p : Program} {ok : ExprId → Frame → Prop} {α β γ : Type}

/-! ## How plans are put together -/

namespace Tries

theorem mono {ok' : ExprId → Frame → Prop} {x : Plan α} (h : x.Tries ok)
    (weaker : ∀ e frame, ok e frame → ok' e frame) : x.Tries ok' := by
  induction h with
  | pure a => exact .pure a
  | ask q allowed _ ih => exact .ask q (fun e frame he => weaker e frame (allowed e frame he)) ih
  | perform effect _ ih => exact .perform effect ih
  | within scope _ _ ihPart ih => exact .within scope ihPart ih

theorem bind {x : Plan β} {f : β → Plan α} (hx : x.Tries ok) (hf : ∀ b, (f b).Tries ok) :
    (x >>= f).Tries ok := by
  induction hx with
  | pure b => exact hf b
  | ask q allowed _ ih => exact .ask q allowed fun b => ih b hf
  | perform effect _ ih => exact .perform effect fun b => ih b hf
  | within scope hpart _ _ ih => exact .within scope hpart fun b => ih b hf

/-- Only the answer is made into another one. -/
theorem ret {x : Plan β} (hx : x.Tries ok) (f : β → α) :
    (x >>= fun b => Pure.pure (f b)).Tries ok :=
  hx.bind fun b => .pure (f b)

theorem map {x : Plan β} (hx : x.Tries ok) (f : β → α) : (f <$> x).Tries ok := by
  rw [map_eq_pure_bind]
  exact hx.ret f

/-- A question that is no tentative evaluation. -/
theorem asked (q : Query β) (h : q.tentative = none) : (liftM q : Plan β).Tries ok := by
  refine .ask q (fun e frame he => ?_) fun b => .pure b
  rw [h] at he
  cases he

theorem tried {e : ExprId} {frame : Frame} (h : ok e frame) :
    (liftM (Query.eval e frame false) : Plan Outcome).Tries ok := by
  refine .ask _ (fun e' frame' he => ?_) fun b => .pure b
  cases he
  exact h

theorem performed (effect : Effect β) : (liftM effect : Plan β).Tries ok := .perform _ .pure

theorem report (message : String) (source : Span) : (Plan.report message source).Tries ok :=
  performed _

theorem fail (error : Place → SafetyError) (source : Span) : (Plan.fail error source).Tries ok :=
  (performed _).ret _

theorem inEnv {x : Plan α} (env : Env) (hx : x.Tries ok) : (Plan.inEnv env x).Tries ok :=
  .within (.env env) hx .pure

theorem inTrace {x : Plan α} (trace : Trace) (hx : x.Tries ok) :
    (Plan.inTrace trace x).Tries ok :=
  .within (.trace trace) hx .pure

theorem calledFrom {x : Plan α} (source : Span) (hx : x.Tries ok) :
    (Plan.calledFrom source x).Tries ok :=
  (performed _).bind fun _ => inTrace _ hx

theorem ite {c : Prop} [Decidable c] {x y : Plan α} (hx : c → x.Tries ok)
    (hy : ¬c → y.Tries ok) : (if c then x else y).Tries ok := by
  by_cases h : c
  · rw [if_pos h]
    exact hx h
  · rw [if_neg h]
    exact hy h

theorem mapM {f : γ → Plan β} (xs : List γ) (hf : ∀ x ∈ xs, (f x).Tries ok) :
    (xs.mapM f).Tries ok := by
  induction xs with
  | nil => exact .pure []
  | cons x xs ih =>
    obtain ⟨hx, hxs⟩ := List.forall_mem_cons.1 hf
    rw [List.mapM_cons]
    exact hx.bind fun _ => (ih hxs).ret _

theorem joinEach {f : γ → Plan Outcome} (xs : List γ) (hf : ∀ x ∈ xs, (f x).Tries ok) :
    (Plan.joinEach xs f).Tries ok :=
  (mapM xs hf).map _

theorem errorsOfEach {f : γ → Plan (List SafetyError)} (xs : List γ)
    (hf : ∀ x ∈ xs, (f x).Tries ok) : (Plan.errorsOfEach xs f).Tries ok :=
  (mapM xs hf).map _

end Tries

/-! ## Members -/

theorem tries_initializer (a : Addr) (field : SymbolId) (source : Span) :
    (initializer p a field source).Tries ok := by
  unfold initializer
  split
  · exact .calledFrom source (.asked _ rfl)
  · exact .fail _ source

theorem tries_selectAt (a : Addr) (field : SymbolId) (source : Span) :
    (selectAt p a field source).Tries ok := by
  refine .ite (fun _ => tries_initializer a field source) fun _ => (Tries.performed _).bind ?_
  intro s
  split
  · exact .pure _
  cases a with
  | warm w => exact .ite (fun _ => .pure _) fun _ => tries_initializer _ field source
  | thisOf c => exact .ite (fun _ => .calledFrom source (.fail _ source)) fun _ => .fail _ source

theorem tries_select (v : Value) (field : SymbolId) (source : Span) (virtual : Bool) :
    (select p v field source virtual).Tries ok := by
  cases v with
  | hot => exact .pure _
  | cold => exact .fail _ source
  | ref a => exact tries_selectAt a _ source
  | closure => exact (Tries.report _ source).ret _
  | oneOf vs => exact .joinEach vs fun v _ => .asked _ rfl

theorem tries_promoteArgument (arg : ArgValue) : (promoteArgument arg).Tries ok :=
  .inTrace arg.trace (.asked _ rfl)

theorem tries_promoteArguments (args : List ArgValue) : (promoteArguments args).Tries ok :=
  .errorsOfEach args fun arg _ => tries_promoteArgument arg

theorem tries_runMember (a : Addr) (target : SymbolId) (args : List ArgValue) :
    (runMember p a target args).Tries ok := by
  cases body : (p.symbol target).body with
  | none =>
    simp only [runMember, body]
    exact .pure _
  | some e =>
    rw [runMember_of_body body]
    refine .ite (fun _ => ?_) fun _ => .ite (fun _ => ?_) fun _ => .ite (fun _ => ?_) fun _ => ?_
    · exact (Tries.inEnv _ (.calledFrom _ (.asked _ rfl))).ret _
    · exact .inEnv _ (.asked _ rfl)
    · exact (Tries.performed _).bind fun s => .inEnv _ (.asked _ rfl)
    · exact (Tries.inEnv _ (.asked _ rfl)).bind fun o => (tries_promoteArguments args).ret _

theorem tries_callTarget (a : Addr) (target : SymbolId) (args : List ArgValue) (source : Span) :
    (callTarget p a target args source).Tries ok :=
  .ite (fun _ => .calledFrom source (tries_runMember a target args)) fun _ =>
    .ite (fun _ => .pure _) fun _ => .fail _ source

theorem tries_callAt (a : Addr) (method : SymbolId) (args : List ArgValue) (dispatch : Dispatch)
    (source : Span) : (callAt p a method args dispatch source).Tries ok := by
  refine .ite (fun _ => tries_callTarget a _ args source) fun _ => (Tries.performed _).bind ?_
  intro s
  split
  · exact .pure _
  · exact .asked _ rfl

theorem tries_call (v : Value) (method : SymbolId) (args : List ArgValue) (dispatch : Dispatch)
    (source : Span) : (call p v method args dispatch source).Tries ok := by
  cases v with
  | hot => exact (tries_promoteArguments args).ret _
  | cold => exact (Tries.fail _ source).bind fun o => (tries_promoteArguments args).ret _
  | ref a => exact tries_callAt a method args dispatch source
  | closure body params frame env =>
    refine .ite (fun _ => ?_) fun _ => .pure _
    exact (Tries.calledFrom source (.inEnv _ (.asked _ rfl))).bind fun o =>
      (tries_promoteArguments args).ret _
  | oneOf vs => exact .joinEach vs fun v _ => .asked _ rfl

theorem tries_construct (v : Value) (ctor : SymbolId) (args : List ArgValue) (source : Span) :
    (construct p v ctor args source).Tries ok := by
  cases v with
  | ref a => exact tries_callTarget a ctor args source
  | _ => exact (Tries.report _ source).ret _

/-! ## Enclosing instances -/

theorem tries_enclosingInstance (target : ClassId) (v : Value) (c : ClassId) (source : Span) :
    (enclosingInstance p target v c source).Tries ok := by
  refine .ite (fun _ => .pure _) fun _ => .ite (fun _ => .pure _) fun _ => ?_
  cases v with
  | hot | cold => exact .pure _
  | ref a =>
    refine (Tries.performed _).bind fun s => ?_
    split
    · exact .asked _ rfl
    · exact (Tries.report _ source).ret _
  | closure => exact (Tries.report _ source).ret _
  | oneOf vs => exact (Tries.mapM vs fun v _ => .asked _ rfl).ret _

theorem tries_evalPath (frame : Frame) (source : Span) (path : Path) :
    (evalPath p frame source path).Tries ok := by
  induction path with
  | bare | constant | paramRef => exact .pure _
  | thisOf target => exact .ite (fun _ => .pure _) fun _ => (Tries.asked _ rfl).ret _
  | member base s ih =>
    cases base with
    | bare => exact (Tries.performed _).ret _
    | _ => exact ih.bind fun o => (Tries.asked _ rfl).ret _

theorem tries_outerInstance (type : ClassRef) (frame : Frame) (source : Span) :
    (outerInstance p type frame source).Tries ok := by
  refine .ite (fun _ => ?_) fun _ => .ite (fun _ => .pure _) fun _ => ?_
  · exact (Tries.asked _ rfl).ret _
  · exact tries_evalPath frame source type.path

/-! ## Promotion -/

theorem tries_capturesHot (v : Value) : (capturesHot p v).Tries ok := by
  cases v with
  | ref a =>
    cases a with
    | warm w =>
      refine .perform _ fun creation => ?_
      exact Tries.ite (fun _ => .asked (.isPromotable creation.outer) rfl) fun _ => .pure false
    | thisOf c => exact (Tries.performed _).ret _
  | closure => exact .asked _ rfl
  | _ => exact .pure _

theorem tries_isPromotable (v : Value) : (isPromotable p v).Tries ok := by
  have test (v : Value) : (do
      let promotable ← capturesHot p v
      if promotable then
        Effect.trust v
      return promotable : Plan Bool).Tries ok := by
    refine (tries_capturesHot v).bind fun b => ?_
    cases b with
    | true => exact .perform (.trust v) fun _ => .pure true
    | false => exact .pure false
  cases v with
  | hot | cold => exact .pure _
  | ref | closure => exact (Tries.performed _).bind fun s => .ite (fun _ => .pure _) fun _ => test _
  | oneOf vs =>
    refine (Tries.performed _).bind fun s => .ite (fun _ => .pure _) fun untrusted => ?_
    clear untrusted
    induction vs with
    | nil => exact .pure true
    | cons v vs ih =>
      refine (Tries.asked (.isPromotable v) rfl).bind fun b => ?_
      cases b with
      | true => exact ih
      | false => exact .pure false

theorem tries_failPromotion (reason : String) (source : Span) :
    (failPromotion reason source).Tries ok :=
  (Tries.performed _).ret _

theorem tries_explain (reason : String) (causes : List SafetyError) (source : Span) :
    (explain reason causes source).Tries ok :=
  .ite (fun _ => .pure _) fun _ => (Tries.performed _).ret _

/-- The errors of a part whose outcome has to be hot. -/
theorem tries_errorsOfRequireHot {use : Plan Outcome} (huse : use.Tries ok) (reason : String)
    (source : Span) : (do return (← requireHot (← use) reason source).errors).Tries ok :=
  huse.bind fun o => ((Tries.asked (.promote o.value reason source) rfl).ret _).ret _

theorem tries_promoteWarm (w : Warm) (reason : String) (source : Span) :
    (promoteWarm p w reason source).Tries ok := by
  refine .ite (fun _ => tries_failPromotion reason source) fun _ => ?_
  refine (Tries.errorsOfEach _ fun f _ => ?_).bind fun es => (Tries.performed _).bind fun s => ?_
  · exact .calledFrom _ (tries_errorsOfRequireHot (.asked _ rfl) reason source)
  refine (Tries.errorsOfEach _ fun m _ => ?_).bind fun fs => tries_explain reason _ source
  exact .calledFrom _ (tries_errorsOfRequireHot (.asked _ rfl) reason source)

/-- The promotion of a closure evaluates its body tentatively. -/
theorem tries_promote (v : Value) (reason : String) (source : Span)
    (body : ∀ e frame, (Query.promote v reason source).RunsClosure e frame → ok e frame) :
    (promote p v reason source).Tries ok := by
  cases v with
  | hot => exact .pure _
  | cold => exact tries_failPromotion reason source
  | oneOf vs => exact .errorsOfEach vs fun v _ => .asked _ rfl
  | ref a =>
    refine (Tries.asked _ rfl).bind fun b => .ite (fun _ => .pure _) fun _ => ?_
    cases a with
    | thisOf c => exact tries_failPromotion reason source
    | warm w => exact .within _ (tries_promoteWarm w reason source) .pure
  | closure e params frame env =>
    refine (Tries.asked _ rfl).bind fun b => .ite (fun _ => .pure _) fun _ => ?_
    have run :
        (Plan.inEnv (env.extend (params.map (·, .hot))) (Query.eval e frame false)).Tries ok :=
      .inEnv _ (.tried (body e frame ⟨params, env, reason, source⟩))
    exact .within _ (tries_errorsOfRequireHot run reason source) fun causes =>
      tries_explain reason causes source

/-! ## Evaluation -/

section Parts

variable (parts : ∀ e frame, e ∈ p.parts → ok e frame)
include parts

theorem tries_child {e e' : ExprId} (h : e' ∈ (p.expr e).node.children) (frame : Frame) :
    (liftM (Query.eval e' frame false) : Plan Outcome).Tries ok :=
  .tried (parts e' frame (Program.mem_parts_of_child h))

theorem tries_errorsOf {e e' : ExprId} (h : e' ∈ (p.expr e).node.children) (frame : Frame) :
    (errorsOf e' frame).Tries ok :=
  (tries_child parts h frame).ret _

theorem tries_errorsOfHot {e e' : ExprId} (h : e' ∈ (p.expr e).node.children) (frame : Frame)
    (reason : String) : (errorsOfHot p e' frame reason).Tries ok :=
  tries_errorsOfRequireHot (tries_child parts h frame) reason _

theorem tries_evalBranches {e : ExprId} {es : List ExprId}
    (h : ∀ e' ∈ es, e' ∈ (p.expr e).node.children) (frame : Frame) :
    (evalBranches es frame).Tries ok :=
  .joinEach es fun e' he' => tries_child parts (h e' he') frame

theorem tries_evalArguments {args : List Arg} (h : ∀ arg ∈ args, arg.expr ∈ p.parts)
    (frame : Frame) : (evalArguments p frame args).Tries ok := by
  refine (Tries.mapM args fun arg harg => ?_).ret _
  unfold evalArgument
  split
  · exact (Tries.map ((Tries.performed _).ret _) _).bind fun o => (Tries.performed _).ret _
  · exact (Tries.tried (parts _ frame (h arg harg))).bind fun o => (Tries.performed _).ret _

omit parts in
theorem tries_callNamed (method : SymbolId) (path : Path) (args : List ArgValue) (frame : Frame)
    (source : Span) : (callNamed p method path args frame source).Tries ok :=
  .ite (fun _ => (Tries.asked _ rfl).bind fun _ => .asked _ rfl) fun _ =>
    (tries_evalPath frame source path).bind fun _ => (Tries.asked _ rfl).ret _

theorem tries_callCallee {e : ExprId} {callee : Callee}
    (h : ∀ e' ∈ callee.children, e' ∈ (p.expr e).node.children) (args : List ArgValue)
    (frame : Frame) (source : Span) : (callCallee p callee args frame source).Tries ok := by
  cases callee with
  | super home base method => exact (Tries.asked _ rfl).bind fun _ => .asked _ rfl
  | select qualifier method =>
    refine (tries_child parts (h qualifier (List.mem_singleton.2 rfl)) frame).bind fun o => ?_
    exact .ite (fun _ => (Tries.asked _ rfl).ret _) fun _ => (Tries.asked _ rfl).ret _
  | ident method path => exact tries_callNamed method path args frame source

theorem tries_evalNew {args : List Arg} (h : ∀ arg ∈ args, arg.expr ∈ p.parts) (type : ClassRef)
    (ctor : SymbolId) (frame : Frame) (source : Span) :
    (evalNew p type ctor args frame source).Tries ok := by
  refine (tries_evalArguments parts h frame).bind fun r => .ite (fun _ => .pure _) fun _ => ?_
  exact (Tries.asked _ rfl).bind fun o => (Tries.calledFrom source (.asked _ rfl)).ret _

theorem tries_evalBlock {e : ExprId} {result : ExprId} {stats : List ExprId}
    (hresult : result ∈ (p.expr e).node.children)
    (hstats : ∀ stat ∈ stats, stat ∈ (p.expr e).node.children) (frame : Frame) :
    (evalBlock p frame result stats).Tries ok := by
  induction stats with
  | nil => exact tries_child parts hresult frame
  | cons stat stats ih =>
    obtain ⟨hstat, hrest⟩ := List.forall_mem_cons.1 hstats
    refine (tries_child parts hstat frame).bind fun o => ?_
    split
    · exact (Tries.performed _).bind fun s => (Tries.inEnv _ (ih hrest)).ret _
    · exact (ih hrest).ret _

theorem tries_evalTarget (target : ExprId) (frame : Frame) :
    (evalTarget p target frame).Tries ok := by
  unfold evalTarget
  split
  · next qualifier s hnode =>
    exact tries_errorsOf parts (e := target) (by simp [hnode, Node.children]) frame
  · exact .pure _

/-- An evaluation evaluates the parts of its expression tentatively, and the initializer of a local
    value for good. -/
theorem tries_node (e : ExprId) (frame : Frame) : (node p e frame).Tries ok := by
  have child {e' : ExprId} (h : e' ∈ (p.expr e).node.children) :
      (liftM (Query.eval e' frame false) : Plan Outcome).Tries ok :=
    tries_child parts h frame
  have errors {e' : ExprId} (h : e' ∈ (p.expr e).node.children) : (errorsOf e' frame).Tries ok :=
    tries_errorsOf parts h frame
  have errorsHot {e' : ExprId} {reason : String} (h : e' ∈ (p.expr e).node.children) :
      (errorsOfHot p e' frame reason).Tries ok :=
    tries_errorsOfHot parts h frame reason
  unfold node
  cases hnode : (p.expr e).node with
  | wildcard | literal | methodDef | typeDef => exact .pure _
  | ident s path =>
    exact .ite (fun _ => tries_callNamed s _ [] frame _) fun _ => tries_evalPath frame _ path
  | thisOf target => exact tries_evalPath frame _ _
  | select qualifier s =>
    refine (child (by simp [hnode, Node.children])).bind fun o => ?_
    exact .ite (fun _ => (Tries.asked _ rfl).ret _) fun _ => (Tries.asked _ rfl).ret _
  | call callee args =>
    have hargs : ∀ arg ∈ args, arg.expr ∈ p.parts := fun arg harg =>
      Program.mem_parts_of_child (e := e) (by simp [hnode, Node.children, List.mem_map_of_mem harg])
    refine (tries_evalArguments parts hargs frame).bind fun r => ?_
    refine (tries_callCallee parts (e := e) (fun e' he' => ?_) r.2 frame _).ret _
    simp [hnode, Node.children, he']
  | new type ctor args =>
    have hargs : ∀ arg ∈ args, arg.expr ∈ p.parts := fun arg harg =>
      Program.mem_parts_of_child (e := e) (by simp [hnode, Node.children, List.mem_map_of_mem harg])
    exact tries_evalNew parts hargs type ctor frame _
  | assign target value =>
    exact (tries_evalTarget parts target frame).bind fun _ =>
      (errorsHot (by simp [hnode, Node.children])).ret _
  | ifElse cond onTrue onFalse =>
    refine (errors (by simp [hnode, Node.children])).bind fun es => ?_
    exact (child (by simp [hnode, Node.children])).bind fun o =>
      (child (by simp [hnode, Node.children])).ret _
  | matchOn scrutinee branches =>
    exact (errorsHot (by simp [hnode, Node.children])).bind fun _ =>
      (tries_evalBranches parts (e := e) (fun b hb => by simp [hnode, Node.children, hb])
        frame).ret _
  | whileLoop cond body =>
    exact (errors (by simp [hnode, Node.children])).bind fun _ =>
      (errors (by simp [hnode, Node.children])).ret _
  | tryCatch body handlers finalizer =>
    refine (child (by simp [hnode, Node.children])).bind fun o => ?_
    refine (tries_evalBranches parts (e := e) (fun b hb => by simp [hnode, Node.children, hb])
      frame).bind fun r => ?_
    cases finalizer with
    | none => exact .pure _
    | some e' => exact (errors (by simp [hnode, Node.children])).ret _
  | sequence elems =>
    exact (Tries.errorsOfEach elems fun e' he' =>
      errorsHot (by simp [hnode, Node.children, he'])).ret _
  | closure params body => exact ((Tries.performed _).ret _).ret _
  | block stats result =>
    exact tries_evalBlock parts (e := e) (by simp [hnode, Node.children])
      (fun stat hstat => by simp [hnode, Node.children, hstat]) frame
  | typed e' unchecked | annotated e' unchecked =>
    exact .ite (fun _ => .pure _) fun _ => child (by simp [hnode, Node.children])
  | ret e' => exact (errorsHot (by simp [hnode, Node.children])).ret _
  | namedArg e' => exact child (by simp [hnode, Node.children])
  | valDef s =>
    cases hbody : (p.symbol s).body with
    | none =>
      simp only [hbody]
      exact .pure _
    | some e' =>
      simp only [hbody]
      exact .asked _ rfl
  | template c => exact .asked _ rfl

/-! ## Objects -/

omit parts in
theorem tries_createWarm (outer : Value) (c : ClassId) (ctor : SymbolId) (args : List ArgValue)
    (source : Span) : (createWarm outer c ctor args source).Tries ok := by
  refine .perform _ fun w => (Tries.performed _).bind fun s => .ite (fun _ => .pure _) fun _ => ?_
  exact .perform _ fun _ => (Tries.asked _ rfl).ret _

omit parts in
theorem tries_rememberedOuter (a : Addr) : (rememberedOuter a).Tries ok := by
  cases a with
  | thisOf c => exact .pure _
  | warm w =>
    refine (Tries.performed _).bind fun creation => ?_
    split
    · exact .pure _
    · exact .pure _

omit parts in
theorem tries_create (outer : Value) (c : ClassId) (ctor : SymbolId) (args : List ArgValue)
    (source : Span) : (create p outer c ctor args source).Tries ok := by
  cases outer with
  | hot =>
    refine (Tries.mapM args fun arg _ => (tries_promoteArgument arg).ret _).bind fun checked => ?_
    exact .ite (fun _ => (tries_createWarm _ c ctor _ source).ret _) fun _ => .pure _
  | cold => exact .fail _ source
  | ref a =>
    refine .ite (fun _ => ?_) fun _ => (tries_promoteArguments args).ret _
    refine (tries_rememberedOuter a).bind fun v => (tries_createWarm v c ctor args source).bind ?_
    exact fun o => (Tries.performed _).bind fun s => .ite (fun _ => .pure _) fun _ => .pure _
  | closure => exact (Tries.report _ source).ret _
  | oneOf vs => exact .joinEach vs fun v _ => .asked _ rfl

omit parts in
theorem tries_setParams (c : ClassId) (this : Addr) : (setParams p c this).Tries ok := by
  unfold setParams
  dsimp only
  generalize p.paramFields c = fields
  induction fields with
  | nil => exact .pure _
  | cons field fields ih =>
    exact ((Tries.performed _).bind fun s => .perform _ .pure).bind fun _ => ih

omit parts in
theorem tries_prepareParent (c : ClassId) (this : Addr) (type : ClassRef) (ctor : Option SymbolId)
    (args : List ArgValue) (source : Span) :
    (prepareParent p c this type ctor args source).Tries ok :=
  (Tries.asked _ rfl).bind fun _ => .perform _ fun _ => .pure _

section Template

variable {c : ClassId} {template : Template} (ht : (p.cls c).template = some template)
include ht

theorem tries_prepareListed {parent : Parent} (h : parent ∈ template.parents) (this : Addr) :
    (prepareListed p c this parent).Tries ok :=
  (tries_evalArguments parts (fun _ harg => Program.mem_parts_of_arg ht h harg) _).bind fun r =>
    (tries_prepareParent c this parent.type parent.ctor r.2 parent.span).ret _

theorem tries_prepareMixin {listed : List Parent} (h : ∀ parent ∈ listed, parent ∈ template.parents)
    (this : Addr) (superClass : Parent) (mixin : ClassId) :
    (prepareMixin p c this superClass listed mixin).Tries ok := by
  unfold prepareMixin
  split
  · next parent found =>
    exact tries_prepareListed parts ht (h parent (List.mem_of_find?_eq_some found)) this
  · exact tries_prepareParent c this _ _ _ _

theorem tries_initParents {parents : List Parent}
    (h : ∀ parent ∈ parents, parent ∈ template.parents) (this : Addr) :
    (initParents p c this parents).Tries ok := by
  cases parents with
  | nil => exact .pure _
  | cons superClass listed =>
    obtain ⟨hsuper, hlisted⟩ := List.forall_mem_cons.1 h
    refine (tries_prepareListed parts ht hsuper this).bind fun first => ?_
    refine (Tries.mapM _ fun mixin _ =>
      tries_prepareMixin parts ht hlisted this superClass mixin).bind fun mixins => ?_
    exact (Tries.errorsOfEach _ fun call _ => (Tries.asked _ rfl).ret _).ret _

theorem tries_stat {e : ExprId} (h : e ∈ template.body) (this : Addr) :
    (stat p c this e).Tries ok := by
  have set (field : SymbolId) (o : Outcome) : (do
      Effect.setField this field o.value
      return o.errors : Plan (List SafetyError)).Tries ok :=
    (Tries.performed _).ret _
  unfold stat
  split
  · refine .ite (fun _ => .pure _) fun _ => ?_
    split
    · exact (Tries.asked _ rfl).bind (set _)
    · exact set _ .hot
  · exact .pure _
  · exact .pure _
  · exact (Tries.tried (parts e _ (Program.mem_parts_of_stat ht h))).ret _

end Template

theorem tries_template (c : ClassId) (this : Addr) : (template p c this).Tries ok := by
  unfold template
  split
  · next template ht =>
    refine (tries_setParams c this).bind fun _ => ?_
    split
    · exact (Tries.asked _ rfl).ret _
    · exact (tries_initParents parts ht (fun _ h => h) this).bind fun es =>
        (Tries.asked _ rfl).ret _
  · exact .pure _

theorem tries_body (c : ClassId) (this : Addr) : (body p c this).Tries ok := by
  unfold body
  split
  · next template ht => exact .errorsOfEach _ fun e he => tries_stat parts ht he this
  · exact .pure _

end Parts

theorem tries_check (c : ClassId) : (check p c).Tries ok := by
  have run (e : ExprId) (env : Env) : (do
      let o ← inEnv env (calledFrom (p.cls c).span (Query.eval e ⟨.thisOf c, c⟩ true))
      return o.errors : Plan (List SafetyError)).Tries ok :=
    (Tries.inEnv env (.calledFrom _ (.asked _ rfl))).ret _
  unfold check
  split
  · split
    · refine (Tries.performed _).bind fun s => ?_
      split
      · exact run _ _
      · exact .perform _ fun _ => run _ _
    · exact .pure _
  · exact .pure _

end Plan

/-- What a question evaluates tentatively are parts of expressions and of templates, and the body of
    a closure that is promoted. -/
theorem Query.tries_uncached {p : Program} {β : Type} (q : Query β) :
    (q.uncached p).Tries fun e frame => e ∈ p.parts ∨ q.RunsClosure e frame := by
  have parts (e : ExprId) (frame : Frame) (h : e ∈ p.parts) :
      e ∈ p.parts ∨ q.RunsClosure e frame := .inl h
  cases q with
  | eval e frame final => exact Plan.tries_node parts e frame
  | select v field source virtual => exact Plan.tries_select v field source virtual
  | call v method args dispatch source => exact Plan.tries_call v method args dispatch source
  | construct v ctor args source => exact Plan.tries_construct v ctor args source
  | create outer c ctor args source => exact Plan.tries_create outer c ctor args source
  | template c this => exact Plan.tries_template parts c this
  | body c this => exact Plan.tries_body parts c this
  | promote v reason source => exact Plan.tries_promote v reason source fun _ _ h => .inr h
  | isPromotable v => exact Plan.tries_isPromotable v
  | enclosingInstance target v c source => exact Plan.tries_enclosingInstance target v c source
  | outerInstance type frame source => exact Plan.tries_outerInstance type frame source
  | check c => exact Plan.tries_check c

end ObjectInit
