import ObjectInit.Program.Tree
import ObjectInit.Store.Snapshot
import ObjectInit.Value.Join

/-!
# Questions and plans

The type `Query β` holds the questions that the analysis can be asked and whose answer is a `β`,
mostly an `Outcome`: an approximation of a value, and the errors on the way. Errors never end an
analysis.

A `Plan` says how an answer is found: which further questions to ask, what to read and change in
the store, and in which scope. Plans are data, so each question is answered by a plan without
recursion, and what holds of every effect and every scope holds of every plan. The plans are the
subject of the files beside this one. `Plan.run` carries out a plan in a store, given answers to the
questions that it asks.

The name that something has in the checker's source, where it is another one, stands in parentheses.

Main results:

* `LawfulMonad Plan`, and `Plan.run_bind`: a plan that goes on with another one is carried out by
  carrying out both.
-/

namespace ObjectInit

/-! ## Outcomes -/

/-- A value, and the errors that were found while it was computed. -/
structure Outcome where
  value : Value
  errors : List SafetyError

namespace Outcome

/-- A value without errors (`new`). -/
def ofValue (v : Value) : Outcome := ⟨v, []⟩

/-- A hot value without errors. -/
def hot : Outcome := ofValue .hot

/-- Errors after which the value is hopefully hot (`hot_with_errors`). -/
def ofErrors (es : List SafetyError) : Outcome := ⟨.hot, es⟩

/-- Adds errors that were found afterwards (`and_errors`). -/
def followedBy (o : Outcome) (es : List SafetyError) : Outcome := ⟨o.value, o.errors ++ es⟩

/-- Adds errors that were found before (`after_errors`). -/
def precededBy (o : Outcome) (es : List SafetyError) : Outcome := ⟨o.value, es ++ o.errors⟩

/-- Joins the values and keeps the errors of both. -/
def join (o o' : Outcome) : Outcome := ⟨o.value.join o'.value, o.errors ++ o'.errors⟩

/-- Joins all outcomes. -/
def joinAll (os : List Outcome) : Outcome := os.foldl join hot

end Outcome

/-- An evaluated argument (`ArgInfo`). -/
structure ArgValue where
  value : Value
  /-- The span of the argument. -/
  source : Span
  /-- The trace at the place where the argument was evaluated. -/
  trace : Trace

/-- Forgets which objects the argument refers to. -/
def ArgValue.widen (a : ArgValue) : ArgValue := { a with value := a.value.widen }

/-! ## Questions -/

/-- Which member a call of a method reaches (`need_resolve` and `super_class`). -/
inductive Dispatch where
  /-- The method itself, as for local methods. -/
  | direct
  /-- The member that stands for the method in the class of the receiver. -/
  | virtual
  /-- The member that a call through `super` reaches, searched from this base class on. -/
  | fromBase (base : ClassId)
  deriving DecidableEq

/-- A question to the analysis, with the type of its answers. Most questions name the span of the
    expression that asks, at which errors are reported. -/
inductive Query : Type → Type where
  /-- The value of an expression. A final value is kept for the rest of the analysis. -/
  | eval (e : ExprId) (frame : Frame) (final : Bool) : Query Outcome
  /-- The value of a field. A virtual access reads the member that overrides the field. -/
  | select (v : Value) (field : SymbolId) (source : Span) (virtual : Bool) : Query Outcome
  /-- The result of a method. -/
  | call (v : Value) (method : SymbolId) (args : List ArgValue) (dispatch : Dispatch)
      (source : Span) : Query Outcome
  /-- The result of a constructor on an allocated object. -/
  | construct (v : Value) (ctor : SymbolId) (args : List ArgValue) (source : Span) : Query Outcome
  /-- A new object, given its outer instance. -/
  | create (outer : Value) (cls : ClassId) (ctor : SymbolId) (args : List ArgValue)
      (source : Span) : Query Outcome
  /-- The initialization of an object by the template of a class: its parameters, its parents and
      its body. -/
  | template (cls : ClassId) (this : Addr) : Query Outcome
  /-- The errors in the statements of a template, after which the fields of the class are set. -/
  | body (cls : ClassId) (this : Addr) : Query (List SafetyError)
  /-- The errors that keep a value from being hot. -/
  | promote (v : Value) (reason : String) (source : Span) : Query (List SafetyError)
  /-- The captured values and the heap already show that a value is hot. -/
  | isPromotable (v : Value) : Query Bool
  /-- The instance of the class `target` in the code of `cls`, whose own instance is `v`. -/
  | enclosingInstance (target : ClassId) (v : Value) (cls : ClassId) (source : Span) : Query Value
  /-- The outer instance of a new object. -/
  | outerInstance (type : ClassRef) (frame : Frame) (source : Span) : Query Outcome
  /-- The errors in the construction of an instance of a class. -/
  | check (cls : ClassId) : Query (List SafetyError)

/-! ## Runs -/

/-- Why an analysis ends without an answer. -/
inductive Halt where
  /-- The heap refused a change. -/
  | fault (fault : HeapFault)
  /-- The questions were nested more deeply than allowed. -/
  | depth
  deriving DecidableEq

/-- A step of an analysis on its store. -/
abbrev Run := StateT Store (Except Halt)

/-! ## Effects -/

/-- A single access to the store. -/
inductive Effect : Type → Type where
  /-- Reads the store. -/
  | look : Effect Store
  /-- Makes an error at a span, with the current trace (`error`). -/
  | raise (error : Place → SafetyError) (source : Span) : Effect SafetyError
  | allocate (a : Addr) (o : Object) : Effect Unit
  | setField (a : Addr) (f : SymbolId) (v : Value) : Effect Unit
  | setOuter (a : Addr) (c : ClassId) (v : Value) : Effect Unit
  /-- The warm address of the objects that are created in a way. -/
  | warmOf (creation : Creation) : Effect Warm
  /-- How the objects at a warm address were created. -/
  | creationOf (w : Warm) : Effect Creation
  | report (d : Diagnostic) : Effect Unit
  /-- Remembers that a value may be treated as hot. -/
  | trust (v : Value) : Effect Unit

/-- Changes the heap. -/
def Run.changeHeap (change : Heap → Except HeapFault Heap) : Run Unit := fun s =>
  match change s.heap with
  | .ok heap => .ok ((), { s with heap })
  | .error fault => .error (.fault fault)

/-- Carries out an effect. -/
def Effect.run {β : Type} : Effect β → Run β
  | .look => get
  | .raise error source => do return error ⟨source, (← get).trace.toList⟩
  | .allocate a o => Run.changeHeap (·.allocate a o)
  | .setField a f v => Run.changeHeap (·.setField a f v)
  | .setOuter a c v => Run.changeHeap (·.setOuter a c v)
  | .warmOf creation => modifyGet fun s =>
    let (w, heap) := s.heap.warmOf creation
    (w, { s with heap })
  | .creationOf w => do
    match (← get).heap.creation? w with
    | some creation => return creation
    | none => throw (.fault (.unknownWarm w))
  | .report d => modify fun s => { s with diagnostics := s.diagnostics ++ [d] }
  | .trust v => modify fun s => { s with trusted := s.trusted.insert v }

/-! ## Scopes -/

/-- A change of the store that lasts for a part of a plan. The type is that of the answer of the
    part. -/
inductive Scope : Type → Type 1 where
  /-- Another environment. -/
  | env {β : Type} (env : Env) : Scope β
  /-- Another trace. -/
  | trace {β : Type} (trace : Trace) : Scope β
  /-- The evaluation of an expression. While it is in progress, its value is taken to be hot;
      afterwards a final value is kept. -/
  | evaluation (receiver : Addr) (e : ExprId) (final : Bool) : Scope Outcome
  /-- The promotion of a value. It is taken to be hot from now on, unless errors are found. -/
  | promotion (v : Value) : Scope (List SafetyError)

/-- Enters a scope. -/
def Scope.enter {β : Type} : Scope β → Store → Store
  | .env inner, s => { s with env := inner }
  | .trace inner, s => { s with trace := inner }
  | .evaluation receiver e _, s => { s with cache := s.cache.insert receiver e .hot }
  | .promotion v, s => { s with trusted := s.trusted.insert v }

/-- Leaves a scope that was entered in the context `before`, with the answer of the part. -/
def Scope.leave {β : Type} : Scope β → Context → β → Store → Store
  | .env _, before, _, s => { s with env := before.env }
  | .trace _, before, _, s => { s with trace := before.trace }
  | .evaluation receiver e final, _, o, s =>
    { s with
      cache := if final then s.cache.insert receiver e o.value else s.cache.erase receiver e }
  | .promotion v, _, errors, s =>
    if errors.isEmpty then s else { s with trusted := s.trusted.erase v }

/-! ## Plans -/

/-- How an answer is found. -/
inductive Plan : Type → Type 1 where
  | pure {α : Type} (a : α) : Plan α
  /-- Asks a question and goes on with the answer. -/
  | ask {α β : Type} (q : Query β) (next : β → Plan α) : Plan α
  | perform {α β : Type} (effect : Effect β) (next : β → Plan α) : Plan α
  /-- Carries out a part of the plan in a scope. -/
  | within {α β : Type} (scope : Scope β) (part : Plan β) (next : β → Plan α) : Plan α

namespace Plan

/-- Goes on with another plan. -/
def bind {α β : Type} : Plan α → (α → Plan β) → Plan β
  | .pure a, f => f a
  | .ask q next, f => .ask q fun b => (next b).bind f
  | .perform effect next, f => .perform effect fun b => (next b).bind f
  | .within scope part next, f => .within scope part fun b => (next b).bind f

instance : Monad Plan where
  pure := .pure
  bind := .bind

instance : MonadLift Query Plan := ⟨fun q => .ask q .pure⟩

instance : MonadLift Effect Plan := ⟨fun effect => .perform effect .pure⟩

theorem bind_pure_self {α : Type} (x : Plan α) : x.bind .pure = x := by
  induction x with
  | pure => rfl
  | ask q next ih => exact congrArg (Plan.ask q) (funext ih)
  | perform effect next ih => exact congrArg (Plan.perform effect) (funext ih)
  | within scope part next _ ih => exact congrArg (Plan.within scope part) (funext ih)

theorem bind_bind {α β γ : Type} (x : Plan α) (f : α → Plan β) (g : β → Plan γ) :
    (x.bind f).bind g = x.bind fun a => (f a).bind g := by
  induction x with
  | pure => rfl
  | ask q next ih => exact congrArg (Plan.ask q) (funext fun b => ih b f)
  | perform effect next ih => exact congrArg (Plan.perform effect) (funext fun b => ih b f)
  | within scope part next _ ih =>
    exact congrArg (Plan.within scope part) (funext fun b => ih b f)

instance : LawfulMonad Plan := LawfulMonad.mk' Plan bind_pure_self (fun _ _ => rfl) bind_bind

/-- Carries out a plan, given the answers to its questions. -/
def run (answer : {β : Type} → Query β → Run β) : {α : Type} → Plan α → Run α
  | _, .pure a => Pure.pure a
  | _, .ask q next => do run answer (next (← answer q))
  | _, .perform effect next => do run answer (next (← effect.run))
  | _, .within scope part next => do
    let before := (← get).toContext
    modify scope.enter
    let b ← run answer part
    modify (scope.leave before b)
    run answer (next b)

theorem run_bind {α β : Type} (answer : {γ : Type} → Query γ → Run γ) (x : Plan α)
    (f : α → Plan β) : (x >>= f).run answer = x.run answer >>= fun a => (f a).run answer := by
  change (x.bind f).run answer = _
  induction x with
  | pure a => simp [bind, run]
  | ask q next ih => simp [bind, run, ih]
  | perform effect next ih => simp [bind, run, ih]
  | within scope part next _ ih => simp [bind, run, ih]

/-! ## Parts of plans -/

/-- A part in an environment (`with_env`). -/
def inEnv {α : Type} (env : Env) (part : Plan α) : Plan α := .within (.env env) part .pure

/-- A part with a trace (`with_replaced_trace`). -/
def inTrace {α : Type} (trace : Trace) (part : Plan α) : Plan α :=
  .within (.trace trace) part .pure

/-- A part inside of a call at `source` (`with_trace`). -/
def calledFrom {α : Type} (source : Span) (part : Plan α) : Plan α := do
  inTrace ((← Effect.look).trace.add source) part

/-- Fails with an error, which goes with a hot value. -/
def fail (error : Place → SafetyError) (source : Span) : Plan Outcome := do
  return .ofErrors [← Effect.raise error source]

/-- Reports an inconsistency of the trees (`report_internal`). -/
def report (message : String) (source : Span) : Plan Unit := Effect.report ⟨message, source⟩

/-- Carries out a plan for each element and joins the outcomes. -/
def joinEach {α : Type} (xs : List α) (f : α → Plan Outcome) : Plan Outcome :=
  Outcome.joinAll <$> xs.mapM f

/-- Carries out a plan for each element and collects the errors. -/
def errorsOfEach {α : Type} (xs : List α) (f : α → Plan (List SafetyError)) :
    Plan (List SafetyError) :=
  List.flatten <$> xs.mapM f

end Plan

end ObjectInit
