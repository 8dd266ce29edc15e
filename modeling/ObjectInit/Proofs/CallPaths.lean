import Mathlib.Data.List.Chain
import ObjectInit.Proofs.Universes

/-!
# The call paths of errors

An error carries the path of the calls that led to it. Paths grow by `Trace.add`, which leaves out
empty spans and repetitions (`ProperPath`). At two places a path is put back that was saved before,
with an argument that is promoted later. Such an argument was evaluated further inside, so its path
goes through the current evaluation as well: the paths through an evaluation are a universe
(`Universe.through`), and errors do not leave it.

Main results:

* `ProperPath.add`: adding a call keeps a path proper.
* `Query.path_of_eval`: an evaluation finds errors on paths that go through it.
* `Query.errors_on_path`: the same with the errors of the check of a class.
-/

namespace ObjectInit

/-- The path contains no empty span and no call directly inside of the same call. -/
structure ProperPath (path : List Span) : Prop where
  nonempty : ∀ s ∈ path, s.isEmpty = false
  apart : path.IsChain (· ≠ ·)

theorem ProperPath.nil : ProperPath [] := ⟨nofun, .nil⟩

theorem Trace.prefix_add (t : Trace) (source : Span) : t.toList <+: (t.add source).toList := by
  rw [toList_add]
  split
  · exact List.prefix_rfl
  · exact List.prefix_append _ _

/-- A call that is added to a proper path leaves it proper. -/
theorem ProperPath.add {t : Trace} (h : ProperPath t.toList) (source : Span) :
    ProperPath (t.add source).toList := by
  rw [Trace.toList_add]
  split
  · exact h
  · next kept =>
    simp only [Bool.or_eq_true, beq_iff_eq, not_or, Bool.not_eq_true] at kept
    refine ⟨List.forall_mem_append.2 ⟨h.nonempty, List.forall_mem_singleton.2 kept.1⟩, ?_⟩
    refine List.isChain_append.2 ⟨h.apart, .singleton source, fun x hx y hy => ?_⟩
    obtain rfl : source = y := by simpa using hy
    rintro rfl
    rw [Trace.toList, List.getLast?_reverse] at hx
    exact kept.2 hx

/-- The proper paths that begin with the calls in `base`, with any values. -/
def Universe.through (base : List Span) : Universe where
  value _ := True
  path l := base <+: l ∧ ProperPath l
  code _ := True
  hot := trivial
  cold := trivial
  ref _ := trivial
  closure _ _ _ _ := iff_of_true trivial ⟨trivial, fun _ _ _ => trivial⟩
  members _ _ _ _ := trivial
  join _ _ _ _ := trivial
  add t source h := ⟨h.1.trans (t.prefix_add source), h.2.add source⟩

/-- Any store with a path of the universe belongs to it. -/
theorem Universe.through_contains {base : List Span} {s : Store}
    (path : base <+: s.trace.toList ∧ ProperPath s.trace.toList) : (through base).Contains s where
  env _ _ _ := trivial
  path := path
  field _ _ _ _ := trivial
  outer _ _ _ _ := trivial
  creation _ _ _ := ⟨trivial, fun _ _ => trivial⟩
  cached _ _ _ _ := trivial
  trusted _ _ := trivial

variable {p : Program} {c : ClassId} {n : Nat} {s t : Store} {e : ExprId} {frame : Frame}
  {final : Bool} {o : Outcome} {es : List SafetyError}

namespace Query

/-- The errors of an evaluation, and their causes, are found on paths that go through it. -/
theorem path_of_eval (proper : ProperPath s.trace.toList)
    (h : (Query.eval e frame final).Ends p n s o t) :
    (Universe.through (s.trace.add (p.expr e).span).toList).HasErrors o.errors := by
  cases n with
  | zero => exact absurd h ends_zero
  | succ n =>
    rw [ends_succ, Query.plan] at h
    cases hit : s.cache.find? frame.receiver e with
    | some v =>
      obtain ⟨rfl, -⟩ := (Plan.ends_eval_of_hit hit).1 h
      exact Universe.errors_nil
    | none =>
      obtain ⟨u, inside, -⟩ := (Plan.ends_eval_of_miss hit).1 h
      obtain ⟨v, node, -⟩ := Plan.ends_calledFrom.1 inside
      -- The node is evaluated with the call to it at the end of the path.
      have covers : (Universe.through (s.trace.add (p.expr e).span).toList).Covers p :=
        fun _ _ => trivial
      exact (Universe.of_ends covers (Plan.keeps_node covers e frame)
        (Universe.through_contains ⟨List.prefix_rfl, proper.add _⟩) node).1.errors

/-- The errors of the check of a class, and their causes, are found on paths that begin at the
    class. -/
theorem path_of_check (start : s.trace = .empty) (h : (Query.check c).Ends p n s es t) :
    (Universe.through (s.trace.add (p.cls c).span).toList).HasErrors es := by
  cases n with
  | zero => exact absurd h ends_zero
  | succ n =>
    rw [ends_succ, Query.plan] at h
    have none (hnone : Plan.check p c = pure []) : es = [] := by
      rw [hnone] at h
      exact (Plan.ends_pure.1 h).1
    cases hctor : (p.cls c).primaryConstructor with
    | none => exact none (by rw [Plan.check, hctor]) ▸ Universe.errors_nil
    | some ctor =>
      cases hbody : (p.symbol ctor).body with
      | none => exact none (by simp only [Plan.check, hctor, hbody]) ▸ Universe.errors_nil
      | some e =>
        obtain ⟨u, env, o, v, trace, evaluated, rfl, -⟩ := Plan.exists_ends_of_check hctor hbody h
        have proper : ProperPath u.trace.toList := by
          have empty : ProperPath Trace.empty.toList := .nil
          rw [trace, start]
          exact empty.add (p.cls c).span
        intro err herr cause nested
        obtain ⟨through, proper'⟩ := path_of_eval proper evaluated err herr cause nested
        exact ⟨trace ▸ (u.trace.prefix_add _).trans through, proper'⟩

/-- Where an expression is evaluated with a proper path of calls, every error and every cause nested
    in it carries a proper path that goes on from the call to the expression. The paths of the
    errors that the check of a class finds begin with the span of the class, if it is not empty. -/
theorem errors_on_path :
    (∀ (s : Store) e frame final o t, ProperPath s.trace.toList →
      (Query.eval e frame final).Answered p s o t →
        ∀ err ∈ o.errors, ∀ cause, Relation.ReflTransGen SafetyError.HasCause err cause →
          (s.trace.add (p.expr e).span).toList <+: cause.trace ∧ ProperPath cause.trace) ∧
      ∀ (s : Store) c es t, s.trace = .empty → (p.cls c).span.isEmpty = false →
        (Query.check c).Answered p s es t →
          ∀ err ∈ es, ∀ cause, Relation.ReflTransGen SafetyError.HasCause err cause →
            cause.trace.head? = some (p.cls c).span ∧ ProperPath cause.trace := by
  refine ⟨fun s e frame final o t proper ⟨n, h⟩ => path_of_eval proper h, ?_⟩
  intro s c es t start span ⟨n, h⟩ err herr cause nested
  obtain ⟨⟨rest, path⟩, proper⟩ := path_of_check start h err herr cause nested
  refine ⟨?_, proper⟩
  have first : (s.trace.add (p.cls c).span).toList = [(p.cls c).span] := by
    rw [start, Trace.toList_add, span]
    rfl
  rw [← path, first]
  rfl

/-- A class `A` with the fields `x` and `y`. The initializer of `x` returns a closure that reads
    `y`. -/
def capturesEarly : Program := .ofCommands [
  .defineClass "A" .package .none true,
  .setClassSpan ⟨4⟩ ⟨1, 30⟩,
  .defineField ⟨4⟩ "x" .value,
  .defineField ⟨4⟩ "y" .value,
  .identFrom (.thisOf ⟨4⟩) ⟨16⟩,
  .setSpan ⟨3⟩ ⟨12, 1⟩,
  .declareFunction (.symbol ⟨15⟩) [],
  .closure ⟨17⟩ ⟨3⟩,
  .ret ⟨4⟩,
  .setSpan ⟨5⟩ ⟨8, 5⟩,
  .setBody ⟨15⟩ ⟨5⟩]

/-- A store with two calls in its trace. -/
def twiceCalled : Store := { Store.initial with trace := .ofList [⟨1, 30⟩, ⟨2, 20⟩] }

/-- The traces of the errors and of their direct causes. -/
def tracesOf (es : List SafetyError) : List (List Span × List (List Span)) :=
  es.map fun e => (e.trace, e.causes.map SafetyError.trace)

/-- The closure cannot be returned before `y` is initialized. The path of the cause goes on to the
    access of `y`, from the check of `A` and from elsewhere. -/
theorem errors_on_path_capturesEarly :
    (∃ o t, (Query.eval ⟨5⟩ ⟨.thisOf ⟨4⟩, ⟨4⟩⟩ false).Answered capturesEarly twiceCalled o t ∧
      tracesOf o.errors = [([⟨1, 30⟩, ⟨2, 20⟩, ⟨8, 5⟩], [[⟨1, 30⟩, ⟨2, 20⟩, ⟨8, 5⟩, ⟨12, 1⟩]])] ∧
      ∀ err ∈ o.errors, ∀ cause ∈ err.causes,
        [⟨1, 30⟩, ⟨2, 20⟩, ⟨8, 5⟩] <+: cause.trace ∧ ProperPath cause.trace) ∧
    ∃ es t, (Query.check ⟨4⟩).Answered capturesEarly .initial es t ∧
      tracesOf es = [([⟨1, 30⟩, ⟨8, 5⟩], [[⟨1, 30⟩, ⟨8, 5⟩, ⟨12, 1⟩]])] ∧
      ∀ err ∈ es, ∀ cause ∈ err.causes, cause.trace.head? = some ⟨1, 30⟩ := by
  obtain ⟨o, evaluated, found⟩ := answered_of_result? (p := capturesEarly) (n := 20)
    (s := twiceCalled) (q := .eval ⟨5⟩ ⟨.thisOf ⟨4⟩, ⟨4⟩⟩ false)
    (fun o => tracesOf o.errors ==
      [([⟨1, 30⟩, ⟨2, 20⟩, ⟨8, 5⟩], [[⟨1, 30⟩, ⟨2, 20⟩, ⟨8, 5⟩, ⟨12, 1⟩]])]) (by decide +kernel)
  obtain ⟨es, checked, found'⟩ := answered_of_result? (p := capturesEarly) (n := 20)
    (s := .initial) (q := .check ⟨4⟩)
    (fun es => tracesOf es == [([⟨1, 30⟩, ⟨8, 5⟩], [[⟨1, 30⟩, ⟨8, 5⟩, ⟨12, 1⟩]])])
    (by decide +kernel)
  obtain ⟨ofEval, ofCheck⟩ := errors_on_path (p := capturesEarly)
  have proper : ProperPath twiceCalled.trace.toList := ⟨by decide, by decide⟩
  have path : (twiceCalled.trace.add (capturesEarly.expr ⟨5⟩).span).toList =
      [⟨1, 30⟩, ⟨2, 20⟩, ⟨8, 5⟩] := by decide +kernel
  have span : (capturesEarly.cls ⟨4⟩).span = ⟨1, 30⟩ := by decide +kernel
  refine ⟨⟨o, _, evaluated, beq_iff_eq.1 found, fun err herr cause hcause => ?_⟩,
    es, _, checked, beq_iff_eq.1 found', fun err herr cause hcause => ?_⟩
  · rw [← path]
    exact ofEval _ _ _ _ o _ proper evaluated err herr cause (.single hcause)
  · rw [← span]
    exact (ofCheck _ _ es _ rfl (by rw [span]; rfl) checked err herr cause (.single hcause)).1

end Query

end ObjectInit
