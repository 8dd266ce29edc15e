import ObjectInit.Analysis.Evaluation

/-!
# Creation and construction of objects

`Plan.create` creates an object. With a hot outer instance and hot arguments the object is hot.
Otherwise it gets a warm address, which is the same for all objects of the same class that are
created in the same way, and its constructor runs when the address is new.

`Plan.template` initializes an object by the definition of a class: first the class parameters,
then the super class, then the traits that are mixed in, the base-most first, and finally the
statements of the class body in their order. The outers of all parents are recorded before the
first of their constructors runs. `Plan.check` starts the construction of an instance.
-/

namespace ObjectInit

/-- A call of a parent's constructor, which waits until the outers of all parents are known
    (`SuperCall`). -/
structure ParentCall where
  ctor : SymbolId
  args : List ArgValue
  source : Span

namespace Plan

variable (p : Program)

/-! ## Creation -/

/-- The warm object with a given outer instance (`instantiate_warm`). Its constructor runs unless
    the object exists already, finished or under construction. -/
def createWarm (outer : Value) (c : ClassId) (ctor : SymbolId) (args : List ArgValue)
    (source : Span) : Plan Outcome := do
  let args := args.map ArgValue.widen
  let w ← Effect.warmOf ⟨c, outer, ctor, args.map ArgValue.value⟩
  let a := Addr.warm w
  if (← Effect.look).heap.contains a then
    return .ofValue (.ref a)
  Effect.allocate a (.new c [(c, outer)])
  let o ← Query.construct (.ref a) ctor args source
  return ⟨.ref a, o.errors⟩

/-- Promotes an argument; one that cannot be promoted is widened. -/
def checkArgument (arg : ArgValue) : Plan (List SafetyError × ArgValue) := do
  let errors ← promoteArgument arg
  return (errors, { arg with value := if errors.isEmpty then .hot else arg.value.widen })

/-- The outer instance that an object remembers. One that itself has a warm outer instance is
    widened, so that there are finitely many ways to create an object. -/
def rememberedOuter (a : Addr) : Plan Value := do
  match a with
  | .warm w =>
    match (← Effect.creationOf w).outer with
    | .ref (.warm _) => return .cold
    | _ => return .ref a
  | .thisOf _ => return .ref a

/-- Creates an object with the given outer instance (`instantiate`). With a hot one, the constructor
    is tried out only if some arguments are unsafe. In an environment that is not hot, a new object
    is cold. -/
def create (outer : Value) (c : ClassId) (ctor : SymbolId) (args : List ArgValue)
    (source : Span) : Plan Outcome := do
  match outer with
  | .hot =>
    let checked ← args.mapM checkArgument
    let errors := checked.flatMap (·.1)
    if !errors.isEmpty && (p.cls c).hasSource then
      let o ← createWarm .hot c ctor (checked.map (·.2)) source
      return .ofErrors (errors ++ o.errors)
    else
      return .ofErrors errors
  | .cold => fail (.callCold (p.cls c).name) source
  | .ref a =>
    if (p.cls c).hasSource then
      let o ← createWarm (← rememberedOuter a) c ctor args source
      if (← Effect.look).env.isHot then
        return o
      else
        return ⟨.cold, o.errors⟩
    else
      return .ofErrors (← promoteArguments args)
  | .closure .. =>
    report ("Unexpected instantiation of '" ++ (p.cls c).name ++ "' with a closure as outer")
      source
    return .hot
  | .oneOf vs => joinEach vs fun v => Query.create v c ctor args source

/-! ## Construction -/

/-- The value of the parameter of a primary constructor by its name. -/
def paramValue (params : List SymbolId) (env : Env) (name : String) : Value :=
  ((params.find? fun s => (p.symbol s).name == name).bind env.lookup).getD .hot

/-- Stores the class parameters in their fields. -/
def setParams (c : ClassId) (this : Addr) : Plan Unit := do
  let params := match (p.cls c).primaryConstructor with
    | some ctor => (p.symbol ctor).params
    | none => []
  (p.paramFields c).forM fun field => do
    let env := (← Effect.look).env
    Effect.setField this field (paramValue p params env (p.symbol field).name)

/-- Records the outer of a parent and tells which constructor is to be called (`super_call`).
    Parents without source are not called. -/
def prepareParent (c : ClassId) (this : Addr) (type : ClassRef) (ctor : Option SymbolId)
    (args : List ArgValue) (source : Span) : Plan (List SafetyError × Option ParentCall) := do
  let outer ← Query.outerInstance type ⟨this, c⟩ source
  Effect.setOuter this type.cls outer.value
  let ctor := if (p.cls type.cls).hasSource then ctor else none
  return (outer.errors, ctor.map (⟨·, args, source⟩))

/-- Evaluates the arguments of a listed parent and records its outer (`init_parent`). -/
def prepareListed (c : ClassId) (this : Addr) (parent : Parent) :
    Plan (List SafetyError × Option ParentCall) := do
  let (argErrors, args) ← evalArguments p ⟨this, c⟩ parent.args
  let (errors, call) ← prepareParent p c this parent.type parent.ctor args parent.span
  return (argErrors ++ errors, call)

/-- Records the outer of a trait that is mixed in. A trait that needs arguments is always listed
    among the parents; one that is not listed is reached at the place of the super class. -/
def prepareMixin (c : ClassId) (this : Addr) (superClass : Parent) (listed : List Parent)
    (mixin : ClassId) : Plan (List SafetyError × Option ParentCall) :=
  match listed.find? fun parent => parent.type.cls == mixin with
  | some parent => prepareListed p c this parent
  | none =>
    let ctor := (p.cls mixin).primaryConstructor
    prepareParent p c this ⟨.bare, mixin⟩ ctor [] superClass.span

/-- Initializes the part of an object that its parents define. Traits leave this to the class that
    they are mixed into. -/
def initParents (c : ClassId) (this : Addr) (parents : List Parent) :
    Plan (List SafetyError) := do
  match parents with
  | [] => return []
  | superClass :: listed =>
    let first ← prepareListed p c this superClass
    let mixins ← (p.mixins c superClass.type.cls).mapM
      (prepareMixin p c this superClass listed)
    let prepared := first :: mixins
    let errors ← errorsOfEach (prepared.filterMap (·.2)) fun call => do
      return (← Query.construct (.ref this) call.ctor call.args call.source).errors
    return prepared.flatMap (·.1) ++ errors

/-- Initializes an object by the template of a class (`init`). -/
def template (c : ClassId) (this : Addr) : Plan Outcome := do
  let some template := (p.cls c).template | return .ofValue (.ref this)
  setParams p c this
  let ofParents ← if (p.cls c).isTrait then
      pure []
    else
      initParents p c this template.parents
  let ofBody ← Query.body c this
  return ⟨.ref this, ofParents ++ ofBody⟩

/-- Runs a statement of a class body. A strict field is set; lazy fields and methods wait for their
    first use. -/
def stat (c : ClassId) (this : Addr) (e : ExprId) : Plan (List SafetyError) := do
  match (p.expr e).node with
  | .valDef field =>
    if (p.symbol field).isLazy then
      return []
    let o ← match (p.symbol field).body with
      | some e => Query.eval e ⟨this, c⟩ true
      | none => pure .hot
    Effect.setField this field o.value
    return o.errors
  | .methodDef _ | .typeDef _ => return []
  | _ => return (← Query.eval e ⟨this, c⟩ false).errors

/-- Runs the statements of a class body. -/
def body (c : ClassId) (this : Addr) : Plan (List SafetyError) :=
  match (p.cls c).template with
  | some template => errorsOfEach template.body (stat p c this)
  | none => return []

/-- Constructs an instance of a class with hot parameters. Its object is under construction, and its
    outer instance is hot. -/
def check (c : ClassId) : Plan (List SafetyError) := do
  let some ctor := (p.cls c).primaryConstructor | return []
  let some template := (p.symbol ctor).body | return []
  let a := Addr.thisOf c
  unless (← Effect.look).heap.contains a do
    Effect.allocate a (.new c [(c, .hot)])
  let o ← inEnv (.ofList ((p.symbol ctor).params.map (·, .hot))) <|
    calledFrom (p.cls c).span (Query.eval template ⟨a, c⟩ true)
  return o.errors

end Plan

end ObjectInit
