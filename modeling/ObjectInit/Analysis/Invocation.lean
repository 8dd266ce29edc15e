import ObjectInit.Analysis.Promotion

/-!
# Fields and calls

`Plan.select` reads a field. A field of an object under construction has to be initialized already.
A field of a warm object that has no value yet is evaluated on demand, as lazy fields are on all
objects.

`Plan.call` calls a method and `Plan.construct` a constructor. A method may do with its arguments
what it likes, so they have to be promoted. Constructors and local methods see widened arguments
instead.
-/

namespace ObjectInit

/-- The reason to promote an argument (`ARGUMENT_MSG`). -/
def Reason.argument : String := "Only fully initialized values may be used as arguments"

namespace Plan

variable (p : Program)

/-! ## Fields -/

/-- Reports a member whose source is unknown (`call_unknown`). -/
def failUnknown (member : SymbolId) (source : Span) : Plan Outcome :=
  fail (.callUnknown (p.symbol member).name) source

/-- Evaluates the initializer of a field of the object at `a`. -/
def initializer (a : Addr) (field : SymbolId) (source : Span) : Plan Outcome :=
  match (p.symbol field).body with
  | some e => calledFrom source (Query.eval e ⟨a, p.homeClass field⟩ true)
  | none => failUnknown p field source

/-- Reads a field that has no value in the heap. The parameters of a warm object have none only in
    traits, whose errors are found in the class under construction. -/
def selectMissing (a : Addr) (field : SymbolId) (source : Span) : Plan Outcome :=
  match a with
  | .warm _ =>
    if (p.symbol field).isParamAccessor then return .hot else initializer p a field source
  | .thisOf _ =>
    if (p.cls (p.homeClass field)).hasSource then
      calledFrom source (fail (.readUninitialized (p.symbol field).name) source)
    else
      failUnknown p field source

/-- Reads a field of the object at `a` (`select_addr`). -/
def selectAt (a : Addr) (field : SymbolId) (source : Span) : Plan Outcome := do
  if (p.symbol field).isLazy then
    initializer p a field source
  else
    match (← Effect.look).heap.field? a field with
    | some v => return .ofValue v
    | none => selectMissing p a field source

/-- Reads a field of a value. -/
def select (v : Value) (field : SymbolId) (source : Span) (virtual : Bool) : Plan Outcome := do
  match v with
  | .hot => return .hot
  | .cold => fail (.readCold (p.symbol field).name) source
  | .ref a => selectAt p a (if virtual then p.virtualTarget a.cls field else field) source
  | .closure .. =>
    report ("Unexpected selection of field '" ++ (p.symbol field).name ++ "' on a closure") source
    return .hot
  | .oneOf vs => joinEach vs fun v => Query.select v field source virtual

/-! ## Calls -/

/-- The errors that keep an argument from being hot, with the trace of the argument
    (`promote_arg`). -/
def promoteArgument (arg : ArgValue) : Plan (List SafetyError) :=
  inTrace arg.trace (Query.promote arg.value Reason.argument arg.source)

/-- The errors that keep the arguments from being hot (`promote_args`). -/
def promoteArguments (args : List ArgValue) : Plan (List SafetyError) :=
  errorsOfEach args promoteArgument

/-- Binds parameters to widened arguments. -/
def widenedBindings (params : List SymbolId) (args : List ArgValue) : List (SymbolId × Value) :=
  params.zip (args.map fun arg => arg.value.widen)

/-- Runs the body of a method or constructor with the object at `a` as receiver (`invoke`). A local
    method sees the environment of its caller. -/
def runMember (a : Addr) (target : SymbolId) (args : List ArgValue) : Plan Outcome := do
  let symbol := p.symbol target
  let some body := symbol.body | return .hot
  let cls := p.homeClass target
  let run : Plan Outcome := Query.eval body ⟨a, cls⟩ true
  let bindings := widenedBindings symbol.params args
  if symbol.isPrimaryConstructor then
    let o ← inEnv (.ofList bindings) (calledFrom (p.cls cls).span run)
    return ⟨.ref a, o.errors⟩
  else if symbol.isConstructor then
    inEnv (.ofList bindings) run
  else if symbol.isLocal then
    inEnv ((← Effect.look).env.extend bindings) run
  else
    let o ← inEnv (.ofList (symbol.params.map (·, .hot))) run
    return o.followedBy (← promoteArguments args)

/-- Calls a method or constructor that is found: the methods of the root classes are known to be
    safe, all others need a source. -/
def callTarget (a : Addr) (target : SymbolId) (args : List ArgValue) (source : Span) :
    Plan Outcome :=
  if (p.symbol target).hasSource then
    calledFrom source (runMember p a target args)
  else if p.isHarmless target then
    return .hot
  else
    failUnknown p target source

/-- The member that a call on the object at `a` reaches. -/
def target (a : Addr) (method : SymbolId) : Dispatch → SymbolId
  | .direct => method
  | .virtual => p.virtualTarget a.cls method
  | .fromBase base => p.superTarget a.cls base method

/-- Calls a method of the object at `a` (`call_addr`). A field may implement a method without
    parameters. -/
def callAt (a : Addr) (method : SymbolId) (args : List ArgValue) (dispatch : Dispatch)
    (source : Span) : Plan Outcome := do
  let target := target p a method dispatch
  if (p.symbol target).isMethod then
    callTarget p a target args source
  else
    match (← Effect.look).heap.field? a target with
    | some v => return .ofValue v
    | none => Query.select (.ref a) target source false

/-- Calls a method of a value. Calling `apply` on a closure runs its body; its other methods are
    taken to return the closure. -/
def call (v : Value) (method : SymbolId) (args : List ArgValue) (dispatch : Dispatch)
    (source : Span) : Plan Outcome := do
  match v with
  | .hot => return .ofErrors (← promoteArguments args)
  | .cold =>
    let o ← fail (.callCold (p.symbol method).name) source
    return o.followedBy (← promoteArguments args)
  | .ref a => callAt p a method args dispatch source
  | .closure body params frame env =>
    if (p.symbol method).name == "apply" then
      let o ← calledFrom source <|
        inEnv (env.extend (params.map (·, .hot))) (Query.eval body frame true)
      return o.followedBy (← promoteArguments args)
    else
      return .ofValue v
  | .oneOf vs => joinEach vs fun v => Query.call v method args dispatch source

/-- Calls a constructor on an object that is allocated already (`call_constructor`). -/
def construct (v : Value) (ctor : SymbolId) (args : List ArgValue) (source : Span) :
    Plan Outcome := do
  match v with
  | .ref a => callTarget p a ctor args source
  | v =>
    report ("Unexpected constructor call of '" ++ (p.cls (p.homeClass ctor)).name ++
      "' on " ++ v.render) source
    return .hot

end Plan

end ObjectInit
