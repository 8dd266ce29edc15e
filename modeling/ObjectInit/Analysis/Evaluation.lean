import ObjectInit.Analysis.Invocation

/-!
# Evaluation of expressions

`Plan.eval` evaluates an expression unless its value is known already, and `Plan.node` tells what
each form of expression does. All branches of a conditional, a match and so on are evaluated and
their values are joined.

Code refers to the instances of the classes around it: `Plan.enclosingInstance` goes outwards
through the outers that the heap records, one enclosing class at a time. `Plan.evalPath` evaluates
paths and `Plan.outerInstance` finds the outer instance of a new object.
-/

namespace ObjectInit

namespace Reason

/-- The reason to promote an assigned value (`ASSIGN_MSG`). -/
def assign : String := "Only fully initialized values may be assigned"

/-- The reason to promote a value that is matched (`MATCH_MSG`). -/
def matchOn : String := "The value to be matched needs to be fully initialized"

/-- The reason to promote a returned value (`RETURN_MSG`). -/
def ret : String := "Only fully initialized values may be returned"

/-- The reason to promote an element of a sequence (`SEQ_MSG`). -/
def sequence : String := "Only fully initialized values may be used as elements of a sequence"

end Reason

namespace Plan

variable (p : Program)

/-! ## Enclosing instances -/

/-- Goes on from the object at `a` in the code of `c` to its outer instance
    (`resolve_this_addr`). -/
def fromOuter (target : ClassId) (a : Addr) (c : ClassId) (source : Span) : Plan Value := do
  match (← Effect.look).heap.outer? a c with
  | some outer => Query.enclosingInstance target outer (p.classAround c) source
  | none =>
    report ("The outer of '" ++ (p.cls c).name ++ "' is not initialized when resolving '" ++
      (p.cls target).name ++ ".this' on " ++ a.render) source
    return .hot

/-- The instance of `target` in the code of `c`, whose own instance is `v` (`resolve_this`). -/
def enclosingInstance (target : ClassId) (v : Value) (c : ClassId) (source : Span) :
    Plan Value := do
  if target = c then
    return v
  else if p.isPackage target then
    return .hot
  else
    match v with
    | .hot => return .hot
    | .cold => return .cold
    | .ref a => fromOuter p target a c source
    | .oneOf vs => return .joinAll (← vs.mapM fun v => Query.enclosingInstance target v c source)
    | .closure .. =>
      report ("Unexpected closure when resolving '" ++ (p.cls target).name ++ ".this' in '" ++
        (p.cls c).name ++ "'") source
      return .cold

/-- The value of the term that a path leads to (`eval_type`). Outside of a singleton object, its
    instance is initialized. -/
def evalPath (frame : Frame) (source : Span) : Path → Plan Outcome
  | .bare | .constant | .paramRef => return .hot
  | .member .bare s => return .ofValue (((← Effect.look).env.lookup s).getD .hot)
  | .member base s => do
    let receiver ← evalPath frame source base
    let o ← Query.select receiver.value s source true
    return o.precededBy receiver.errors
  | .thisOf target => do
    if p.hasOneInstance target && !p.isInside frame.cls target then
      return .hot
    else
      return .ofValue (← Query.enclosingInstance target (.ref frame.receiver) frame.cls source)

/-- The outer instance of a new object that is created in the code of a frame (`outer_value`). An
    unqualified class belongs to the instance of its enclosing class. -/
def outerInstance (type : ClassRef) (frame : Frame) (source : Span) : Plan Outcome := do
  if !type.isQualified then
    let v ← Query.enclosingInstance (p.classAround type.cls) (.ref frame.receiver) frame.cls source
    return .ofValue v
  else if (p.cls type.cls).flags.has .foreignInterface then
    return .hot
  else
    evalPath p frame source type.path

/-! ## Expressions -/

/-- A closure that captures the current environment. -/
def closure (params : List SymbolId) (body : ExprId) (frame : Frame) : Plan Value := do
  return .closure body params frame (← Effect.look).env

/-- Evaluates an argument. An argument by name becomes a closure. -/
def evalArgument (frame : Frame) (arg : Arg) : Plan (List SafetyError × ArgValue) := do
  let o ← if arg.byName then
      Outcome.ofValue <$> closure [] arg.expr frame
    else
      Query.eval arg.expr frame false
  return (o.errors, ⟨o.value, (p.expr arg.expr).span, (← Effect.look).trace⟩)

/-- Evaluates arguments one after the other (`eval_args`). -/
def evalArguments (frame : Frame) (args : List Arg) : Plan (List SafetyError × List ArgValue) := do
  let evaluated ← args.mapM (evalArgument p frame)
  return (evaluated.flatMap (·.1), evaluated.map (·.2))

/-- The errors of an expression whose value is not used. -/
def errorsOf (e : ExprId) (frame : Frame) : Plan (List SafetyError) := do
  return (← Query.eval e frame false).errors

/-- The errors of an expression whose value has to be hot. -/
def errorsOfHot (e : ExprId) (frame : Frame) (reason : String) : Plan (List SafetyError) := do
  return (← requireHot (← Query.eval e frame false) reason (p.expr e).span).errors

/-- Evaluates expressions and joins their values (`eval_all`). -/
def evalBranches (es : List ExprId) (frame : Frame) : Plan Outcome :=
  joinEach es fun e => Query.eval e frame false

/-- Calls a method that is named alone (`call_ident`). A local method has no receiver of its own and
    is called on the instance of the class that contains it. -/
def callNamed (method : SymbolId) (path : Path) (args : List ArgValue) (frame : Frame)
    (source : Span) : Plan Outcome := do
  if path = .bare then
    let home := p.homeClass method
    let receiver ← Query.enclosingInstance home (.ref frame.receiver) frame.cls source
    Query.call receiver method args .direct source
  else
    let receiver ← evalPath p frame source path
    let o ← Query.call receiver.value method args .virtual source
    return o.precededBy receiver.errors

/-- Calls what a call calls. -/
def callCallee (callee : Callee) (args : List ArgValue) (frame : Frame) (source : Span) :
    Plan Outcome := do
  match callee with
  | .super home base method =>
    let receiver ← Query.enclosingInstance home (.ref frame.receiver) frame.cls source
    Query.call receiver method args (.fromBase base) source
  | .select qualifier method =>
    let receiver ← Query.eval qualifier frame false
    let o ← if (p.symbol method).isConstructor then
        Query.construct receiver.value method args source
      else
        Query.call receiver.value method args .virtual source
    return o.precededBy receiver.errors
  | .ident method path => callNamed p method path args frame source

/-- Creates an object, unless there are errors in the arguments. -/
def evalNew (type : ClassRef) (ctor : SymbolId) (args : List Arg) (frame : Frame) (source : Span) :
    Plan Outcome := do
  let (errors, args) ← evalArguments p frame args
  if !errors.isEmpty then
    return .ofErrors errors
  let outer ← Query.outerInstance type frame source
  let o ← calledFrom source (Query.create outer.value type.cls ctor args source)
  return o.precededBy outer.errors

/-- The local value that a statement defines. -/
def localDef? (stat : ExprId) : Option SymbolId :=
  match (p.expr stat).node with
  | .valDef s => if (p.symbol s).isLocal then some s else none
  | _ => none

/-- Evaluates the statements of a block and its result. A local value is visible in the rest of the
    block. -/
def evalBlock (frame : Frame) (result : ExprId) : List ExprId → Plan Outcome
  | [] => Query.eval result frame false
  | stat :: stats => do
    let o ← Query.eval stat frame false
    let rest ← match localDef? p stat with
      | some s => inEnv ((← Effect.look).env.extend [(s, o.value)]) (evalBlock frame result stats)
      | none => evalBlock frame result stats
    return rest.precededBy o.errors

/-- The errors in the target of an assignment. -/
def evalTarget (target : ExprId) (frame : Frame) : Plan (List SafetyError) := do
  match (p.expr target).node with
  | .select qualifier _ => errorsOf qualifier frame
  | _ => return []

/-- Evaluates an expression by its form (`eval_uncached`). -/
def node (e : ExprId) (frame : Frame) : Plan Outcome := do
  let source := (p.expr e).span
  match (p.expr e).node with
  | .wildcard | .literal | .methodDef _ | .typeDef _ => return .hot
  | .ident s path =>
    if (p.symbol s).isMethod then
      callNamed p s (path.base?.getD .bare) [] frame source
    else
      evalPath p frame source path
  | .thisOf target => evalPath p frame source (.thisOf target)
  | .select qualifier s =>
    let receiver ← Query.eval qualifier frame false
    let o ← if (p.symbol s).isMethod then
        Query.call receiver.value s [] .virtual source
      else
        Query.select receiver.value s source true
    return o.precededBy receiver.errors
  | .call callee args =>
    let (errors, args) ← evalArguments p frame args
    let o ← callCallee p callee args frame source
    return o.precededBy errors
  | .new type ctor args => evalNew p type ctor args frame source
  | .assign target value =>
    let errors ← evalTarget p target frame
    return .ofErrors (errors ++ (← errorsOfHot p value frame Reason.assign))
  | .ifElse cond onTrue onFalse =>
    let errors ← errorsOf cond frame
    let o ← Query.eval onTrue frame false
    return (o.join (← Query.eval onFalse frame false)).precededBy errors
  | .matchOn scrutinee branches =>
    let errors ← errorsOfHot p scrutinee frame Reason.matchOn
    return (← evalBranches branches frame).precededBy errors
  | .whileLoop cond body =>
    let errors ← errorsOf cond frame
    return .ofErrors (errors ++ (← errorsOf body frame))
  | .tryCatch body handlers finalizer =>
    let o ← Query.eval body frame false
    let o := o.join (← evalBranches handlers frame)
    match finalizer with
    | some e => return o.followedBy (← errorsOf e frame)
    | none => return o
  | .sequence elems =>
    return .ofErrors (← errorsOfEach elems fun e => errorsOfHot p e frame Reason.sequence)
  | .closure params body => return .ofValue (← closure params body frame)
  | .block stats result => evalBlock p frame result stats
  | .typed e unchecked | .annotated e unchecked =>
    if unchecked then return .hot else Query.eval e frame false
  | .ret e => return .ofErrors (← errorsOfHot p e frame Reason.ret)
  | .namedArg e => Query.eval e frame false
  | .valDef s =>
    match (p.symbol s).body with
    | some e => Query.eval e frame true
    | none => return .hot
  | .template c => Query.template c frame.receiver

/-- Evaluates an expression in a frame. The value of an evaluation that is finished or in progress
    is taken from the cache. -/
def eval (e : ExprId) (frame : Frame) (final : Bool) : Plan Outcome := do
  match (← Effect.look).cache.find? frame.receiver e with
  | some v => return .ofValue v
  | none =>
    .within (.evaluation frame.receiver e final)
      (calledFrom (p.expr e).span (node p e frame)) .pure

end Plan

end ObjectInit
