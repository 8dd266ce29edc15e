import ObjectInit.Analysis.Plan
import ObjectInit.Program.Dispatch

/-!
# Promotion

A value may be promoted to hot when nothing uninitialized can be reached from it.
`Plan.isPromotable` looks only at what the value captured and at the heap. Where that is not
enough, `Plan.promote` tries out every use: it reads every field and calls every method of a warm
object, and it runs the body of a closure. While it does so, it takes the value to be hot, which
cuts cycles.
-/

namespace ObjectInit

/-- Every field of the object under construction is initialized. Fields of classes without source,
    lazy and abstract fields do not count. -/
def Heap.isComplete (h : Heap) (p : Program) (c : ClassId) : Bool :=
  (p.cls c).linearization.all fun base =>
    !(p.cls base).hasSource || (p.fields base).all fun field =>
      (p.symbol field).isLazy || (p.symbol field).isDeferred ||
        (h.field? (.thisOf c) field).isSome

namespace Plan

variable (p : Program)

/-- Everything that an object or a closure captured is hot: for a warm object the outer instance and
    the arguments, for a closure the receiver. -/
def capturesHot (v : Value) : Plan Bool := do
  match v with
  | .ref (.warm w) =>
    let creation ← Effect.creationOf w
    if creation.args.all Value.isHot then Query.isPromotable creation.outer else return false
  | .ref (.thisOf c) => return (← Effect.look).heap.isComplete p c
  | .closure _ _ frame _ => Query.isPromotable (.ref frame.receiver)
  | _ => return false

/-- Decides by what a value captured whether it may be treated as hot (`can_promote_extrinsic`).
    Successes are remembered. -/
def isPromotable (v : Value) : Plan Bool := do
  match v with
  | .hot => return true
  | .cold => return false
  | v =>
    if (← Effect.look).trusted.contains v then
      return true
    match v with
    | .oneOf vs => vs.allM fun v => Query.isPromotable v
    | v =>
      let promotable ← capturesHot p v
      if promotable then
        Effect.trust v
      return promotable

/-- The error that a value could not be promoted (`promote_error`). -/
def failPromotion (reason : String) (source : Span) : Plan (List SafetyError) := do
  return [← Effect.raise (.notHot reason) source]

/-- One error for all causes that keep a value from being promoted, none if there are none
    (`unsafe_promotion`). -/
def explain (reason : String) (causes : List SafetyError) (source : Span) :
    Plan (List SafetyError) := do
  if causes.isEmpty then
    return []
  else
    return [← Effect.raise (.failedPromotion reason causes) source]

/-- Adds the errors that keep the value of an outcome from being hot (`ensure_hot`). -/
def requireHot (o : Outcome) (reason : String) (source : Span) : Plan Outcome := do
  return o.followedBy (← Query.promote o.value reason source)

/-- The errors of one use, whose result has to be hot as well. -/
def tryUse (use : Plan Outcome) (at' : Span) (reason : String) (source : Span) :
    Plan (List SafetyError) :=
  calledFrom at' do return (← requireHot (← use) reason source).errors

/-- Tries out every field and every method of a warm object (`try_promote`). -/
def promoteWarm (w : Warm) (reason : String) (source : Span) : Plan (List SafetyError) := do
  if p.hasMemberClasses w.cls then
    failPromotion reason source
  else
    let v := Value.ref (.warm w)
    let ofFields ← errorsOfEach (p.triedFields w.cls) fun field =>
      tryUse (Query.select v field source true) (p.symbol field).span reason source
    let trace := (← Effect.look).trace
    let ofMethods ← errorsOfEach (p.triedMethods w.cls) fun method =>
      let args := (p.symbol method).params.map fun _ => ArgValue.mk .hot source trace
      tryUse (Query.call v method args .virtual source) (p.symbol method).span reason source
    explain reason (ofFields ++ ofMethods) source

/-- Runs the body of a closure with hot arguments and promotes its value. -/
def promoteBody (body : ExprId) (params : List SymbolId) (frame : Frame) (env : Env)
    (reason : String) (source : Span) : Plan (List SafetyError) := do
  let o ← inEnv (env.extend (params.map (·, .hot))) (Query.eval body frame false)
  return (← requireHot o reason source).errors

/-- The errors that keep a value from being hot. -/
def promote (v : Value) (reason : String) (source : Span) : Plan (List SafetyError) := do
  match v with
  | .hot => return []
  | .cold => failPromotion reason source
  | .oneOf vs => errorsOfEach vs fun v => Query.promote v reason source
  | v =>
    if ← Query.isPromotable v then
      return []
    match v with
    | .ref (.warm w) => .within (.promotion v) (promoteWarm p w reason source) .pure
    | .closure body params frame env =>
      .within (.promotion v) (promoteBody body params frame env reason source)
        fun causes => explain reason causes source
    | _ => failPromotion reason source

end Plan

end ObjectInit
