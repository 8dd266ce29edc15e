import ObjectInit.Proofs.Courses
import ObjectInit.Proofs.Tentative
import ObjectInit.Proofs.Universes

/-!
# Closures of the program

An analysis makes closures of parts of the program only: of function literals and of arguments that
are passed by name. So in a session, every closure has a part of the program as its body, unless one
with another body is handed in from outside.

Main results:

* `Universe.ofProgram`: the values whose closures come from the program are a universe.
* `Plan.session_promotes_parts`: so what is evaluated as the body of a closure that is being
  promoted is a part of the program.
-/

namespace ObjectInit

variable {p : Program} {K : List Question} {s u : Store} {log : List Event} {α : Type}
  {r : Option α} {x : Plan α}

/-! ## The universe -/

/-- The closures in the value, and those that they captured, have parts of the program as bodies. -/
inductive Value.OfProgram (p : Program) : Value → Prop where
  | hot : OfProgram p .hot
  | cold : OfProgram p .cold
  | ref (a : Addr) : OfProgram p (.ref a)
  | closure {body : ExprId} {params : List SymbolId} {frame : Frame} {env : Env}
    (part : body ∈ p.parts) (captured : ∀ x v, env.lookup x = some v → OfProgram p v) :
    OfProgram p (.closure body params frame env)
  | oneOf {vs : List Value} (members : ∀ v ∈ vs, OfProgram p v) : OfProgram p (.oneOf vs)

namespace Value.OfProgram

theorem closure_iff {body : ExprId} {params : List SymbolId} {frame : Frame} {env : Env} :
    (Value.closure body params frame env).OfProgram p ↔
      body ∈ p.parts ∧ env.Binds (OfProgram p) := by
  constructor
  · rintro ⟨⟩
    exact ⟨‹_›, ‹_›⟩
  · exact fun h => .closure h.1 h.2

theorem oneOf_iff {vs : List Value} : (Value.oneOf vs).OfProgram p ↔ ∀ v ∈ vs, v.OfProgram p := by
  constructor
  · rintro ⟨⟩
    assumption
  · exact .oneOf

end Value.OfProgram

/-- The values whose closures come from the program, with any path of calls. -/
def Universe.ofProgram (p : Program) : Universe where
  value := Value.OfProgram p
  path _ := True
  code e := e ∈ p.parts
  hot := .hot
  cold := .cold
  ref := .ref
  closure _ _ _ _ := Value.OfProgram.closure_iff
  members _ := Value.OfProgram.oneOf_iff.1
  join _ _ := Value.join_induction .cold fun _ => Value.OfProgram.oneOf_iff
  add _ _ _ := trivial

theorem Universe.ofProgram_covers (p : Program) : (ofProgram p).Covers p := fun _ h => h

/-! ## Sessions -/

/-- The values that are handed in belong to the universe. -/
structure Request.In (U : Universe) (request : Request) : Prop where
  asks : U.Asks request.query
  env : request.context.env.Binds U.value
  path : U.path request.context.trace.toList

theorem Plan.keeps_session {U : Universe} {requests : List Request}
    (handed : ∀ request ∈ requests, request.In U) : (session requests).Keeps U fun _ => True := by
  induction requests with
  | nil => exact .pure trivial
  | cons request requests ih =>
    obtain ⟨first, rest⟩ := List.forall_mem_cons.1 handed
    exact ⟨first.env, first.path, first.asks, fun _ _ => ⟨trivial, trivial, ih rest⟩⟩

/-- In the course of a plan that keeps to a universe, only questions about what belongs to it are
    asked. -/
theorem Plan.Course.asks_in {U : Universe} (covers : U.Covers p) {want : α → Prop}
    (keeps : x.Keeps U want) (hs : U.Contains s) (course : x.Course p K s log r u) :
    ∀ e ∈ log, U.Asks e.query := by
  intro e he
  obtain ⟨γ, q, t, active, hasks, way⟩ := course.way e he
  obtain ⟨asks, ht⟩ := Universe.asks_of_asks covers keeps hs hasks
  exact (Universe.asks_of_way covers asks ht way).1

theorem Query.RunsClosure.mem_parts {β : Type} {q : Query β} {body : ExprId} {frame : Frame}
    (runs : q.RunsClosure body frame) (asks : (Universe.ofProgram p).Asks q) : body ∈ p.parts := by
  cases runs with
  | mk => exact (Value.OfProgram.closure_iff.1 asks).1

/-- Where only closures of the program are handed in, the bodies of all closures that are promoted
    are parts of the program. -/
theorem Plan.session_promotes_parts {requests : List Request}
    (handed : ∀ request ∈ requests, request.In (.ofProgram p)) {r : Option Unit}
    (course : (session requests).Course p [] .initial log r u) {event : Event}
    (logged : event ∈ log) {q : Question} (caller : q ∈ event.callers) {body : ExprId}
    {frame : Frame} (runs : q.query.RunsClosure body frame) : body ∈ p.parts := by
  rcases course.caller_logged event logged q caller with none | ⟨e, he, rfl⟩
  · exact absurd none List.not_mem_nil
  have initial : (Universe.ofProgram p).Contains .initial := Universe.contains_initial trivial
  exact runs.mem_parts (course.asks_in (Universe.ofProgram_covers p) (keeps_session handed)
    initial e he)

end ObjectInit
