import ObjectInit.Proofs.CallerEnvironments
import ObjectInit.Proofs.Kept

/-!
# Calls of local methods

The body of a local method sees its arguments, but its value is kept without them. The first call
on a receiver therefore decides for all later ones: these have its value and find no errors,
whatever their arguments are. Which errors two calls find depends on their order as far as it
depends on which of them comes first. If the body does not look at the parameters in which the two
calls differ, it does not depend on that.

Main results:

* `Query.call_local_congr`: two calls with arguments whose difference the body does not see have the
  same answer and leave the same store.
* `Query.errors_of_local_calls_comm`: then two calls find errors in both orders or in none; and in
  general they do, if and only if each of them, made alone, does so.
* `Query.local_calls_order_matters`: a method for which the order makes a difference.
-/

namespace ObjectInit

variable {p : Program} {n : Nat} {s s' s₁ s₂ : Store} {a : Addr} {e : ExprId} {o o' : Outcome}
  {method : SymbolId} {args args' : List ArgValue} {source : Span}

/-! ## Calls of methods -/

/-- A call that is not dispatched runs the method itself. -/
theorem Query.ends_call_direct (isMethod : (p.symbol method).isMethod)
    (hasSource : (p.symbol method).hasSource) :
    (Query.call (.ref a) method args .direct source).Ends p (n + 1) s o s' ↔
      ∃ t, (Plan.runMember p a method args).Ends p n { s with trace := s.trace.add source } o t ∧
        s' = { t with trace := s.trace } := by
  have reached : Plan.target p a method .direct = method := rfl
  rw [Query.ends_succ, Query.plan, Plan.call, Plan.callAt_of_method reached isMethod hasSource,
    Plan.ends_calledFrom]

/-! ## Two calls -/

/-- After a call of a local method every other call of it has the same value, finds no errors and
    changes nothing. -/
theorem Query.call_local_again (isMethod : (p.symbol method).isMethod)
    (isLocal : (p.symbol method).isLocal) (hasSource : (p.symbol method).hasSource)
    (h : (Query.call (.ref a) method args .direct source).Answered p s o s') :
    (Query.call (.ref a) method args' .direct source).Answered p s' (.ofValue o.value) s' := by
  obtain ⟨e, body⟩ := Option.isSome_iff_exists.1 hasSource
  obtain ⟨m, h⟩ := h
  cases m with
  | zero => exact absurd h Query.ends_zero
  | succ m =>
    obtain ⟨t, hrun, hs'⟩ := (Query.ends_call_direct isMethod hasSource).1 h
    obtain ⟨v, kept, hv⟩ := Plan.runMember_kept body (.inl isLocal) (hrun.mono m.le_succ)
    have kept' : s'.cache.find? a e = some v := by rw [hs']; exact kept
    have again : (Plan.runMember p a method args').Ends p 1
        { s' with trace := s'.trace.add source } (.ofValue o.value)
        { s' with trace := s'.trace.add source } := by
      rw [hv]
      exact Plan.runMember_of_kept body (.inl isLocal) kept'
    exact ⟨2, (Query.ends_call_direct isMethod hasSource).2 ⟨_, again, rfl⟩⟩

/-- The environment in which a local method runs. -/
def Store.localEnv (p : Program) (s : Store) (method : SymbolId) (args : List ArgValue) : Env :=
  s.env.extend (Plan.widenedBindings (p.symbol method).params args)

/-- The body `e` of a local method, called on the object at `a` from `source`, does not see how the
    two lists of arguments differ: in the environment of the first call, or in one that blocks and
    local methods made of it, no symbol is looked up or bound that the other environment binds
    differently; no closure captures such an environment; and no object with an address as its outer
    is created in it, unless the symbols that differ have hot values in both environments or in
    none. -/
def Query.Overlooks (p : Program) (s : Store) (a : Addr) (method : SymbolId) (e : ExprId)
    (source : Span) (args args' : List ArgValue) : Prop :=
  let env := s.localEnv p method args
  let env' := s.localEnv p method args'
  ∀ {γ : Type} (r : Query γ) t,
    (Query.eval e ⟨a, p.homeClass method⟩ true).Beneath p
        { s with env, trace := s.trace.add source } r t →
      (r.sight p t).Fits (env.DiffersAt env')
        (env.isHotOn (env.DiffersAt env') = env'.isHotOn (env.DiffersAt env'))

/-- Whether the body sees the difference can be tested by evaluating it. -/
theorem Query.overlooks_of_passes {t : Store}
    (ends : (Query.eval e ⟨a, p.homeClass method⟩ true).Ends p n
      { s with env := s.localEnv p method args, trace := s.trace.add source } o t)
    (passed : (Query.eval e ⟨a, p.homeClass method⟩ true).passes p
      (fun r t => (r.sight p t).Fits
        ((s.localEnv p method args).DiffersAt (s.localEnv p method args'))
        ((s.localEnv p method args).isHotOn
            ((s.localEnv p method args).DiffersAt (s.localEnv p method args')) =
          (s.localEnv p method args').isHotOn
            ((s.localEnv p method args).DiffersAt (s.localEnv p method args'))))
      n { s with env := s.localEnv p method args, trace := s.trace.add source }) :
    Overlooks p s a method e source args args' := by
  intro γ r u h
  exact of_decide_eq_true (h.way.choose_spec.passes ends passed)

/-- A local method that is no constructor runs its body in the environment of the call. -/
theorem Plan.ends_runMember_local (sees : p.seesCaller method = true)
    (body : (p.symbol method).body = some e) :
    (Plan.runMember p a method args).Ends p n s o s' ↔
      ∃ t, (Query.eval e ⟨a, p.homeClass method⟩ true).Ends p n
          { s with env := s.localEnv p method args } o t ∧ s' = { t with env := s.env } := by
  simp only [Program.seesCaller, Bool.and_eq_true, Bool.not_eq_true'] at sees
  obtain ⟨⟨primary, constructor⟩, isLocal⟩ := sees
  rw [runMember_of_body body]
  simp only [primary, constructor, isLocal, Bool.false_eq_true, if_false, if_true]
  rw [ends_look_bind, ends_inEnv]
  exact exists_congr fun t => and_congr_left' ends_ask

/-- Calls with arguments whose difference the body does not see have the same answer and leave the
    same store. -/
theorem Query.call_local_congr (isMethod : (p.symbol method).isMethod)
    (sees : p.seesCaller method = true) (body : (p.symbol method).body = some e)
    (ordered : s.env.Ascending) (unseen : Overlooks p s a method e source args args')
    (h : (Query.call (.ref a) method args .direct source).Answered p s o s') :
    (Query.call (.ref a) method args' .direct source).Answered p s o s' := by
  have hasSource : (p.symbol method).hasSource := by
    rw [Symbol.hasSource, body]
    rfl
  obtain ⟨m, h⟩ := h
  cases m with
  | zero => exact absurd h ends_zero
  | succ m =>
    obtain ⟨t, hrun, rfl⟩ := (ends_call_direct isMethod hasSource).1 h
    obtain ⟨u, heval, rfl⟩ := (Plan.ends_runMember_local sees body).1 hrun
    have same := sameIn m (.eval e ⟨a, p.homeClass method⟩ true)
      (s := { s with env := s.localEnv p method args, trace := s.trace.add source })
      (Env.Twins.of_differs (ordered.extend _) (ordered.extend _)) unseen
    have heval : (Query.eval e ⟨a, p.homeClass method⟩ true).Ends p m
        { s with env := s.localEnv p method args, trace := s.trace.add source } o u := heval
    have heval' : (Query.eval e ⟨a, p.homeClass method⟩ true).Ends p m
        { s with env := s.localEnv p method args', trace := s.trace.add source } o
        { u with env := s.localEnv p method args' } := by
      rw [Ends] at heval ⊢
      exact same.trans (by rw [heval]; rfl)
    exact ⟨m + 1, (ends_call_direct isMethod hasSource).2
      ⟨_, (Plan.ends_runMember_local sees body).2 ⟨_, heval', rfl⟩, rfl⟩⟩

/-- Two questions can be asked one after the other in both orders, and errors are found in both
    orders or in none. -/
def Query.ErrorsCommute (p : Program) (q q' : Query Outcome) (s : Store) : Prop :=
  ∃ o s₁ o₁ t₁ o' s₂ o₂ t₂, q.Answered p s o s₁ ∧ q'.Answered p s₁ o₁ t₁ ∧
    q'.Answered p s o' s₂ ∧ q.Answered p s₂ o₂ t₂ ∧
    (o.errors ++ o₁.errors ≠ [] ↔ o'.errors ++ o₂.errors ≠ [])

/-- Two calls of a local method find errors in both orders or in none, if and only if each of them,
    made alone, does so. -/
theorem Query.errorsCommute_iff_alone (isMethod : (p.symbol method).isMethod)
    (isLocal : (p.symbol method).isLocal) (hasSource : (p.symbol method).hasSource)
    (alone : (Query.call (.ref a) method args .direct source).Answered p s o s₁)
    (alone' : (Query.call (.ref a) method args' .direct source).Answered p s o' s₂) :
    ErrorsCommute p (.call (.ref a) method args .direct source)
        (.call (.ref a) method args' .direct source) s ↔
      (o.errors ≠ [] ↔ o'.errors ≠ []) := by
  have again : (Query.call (.ref a) method args' .direct source).Answered p s₁
      (.ofValue o.value) s₁ := call_local_again isMethod isLocal hasSource alone
  have again' : (Query.call (.ref a) method args .direct source).Answered p s₂
      (.ofValue o'.value) s₂ := call_local_again isMethod isLocal hasSource alone'
  constructor
  · rintro ⟨q, t, q₁, t₁, q', t', q₂, t₂, hq, hq₁, hq', hq₂, iff⟩
    obtain ⟨rfl, rfl⟩ := hq.unique alone
    obtain ⟨rfl, rfl⟩ := hq'.unique alone'
    obtain ⟨rfl, rfl⟩ := hq₁.unique again
    obtain ⟨rfl, rfl⟩ := hq₂.unique again'
    simpa only [Outcome.ofValue, List.append_nil] using iff
  · intro iff
    refine ⟨o, s₁, _, s₁, o', s₂, _, s₂, alone, again, alone', again', ?_⟩
    simpa only [Outcome.ofValue, List.append_nil] using iff

/-- Two calls of a local method on one object, of which the first one returns. If the second one
    returns as well, they find errors in both orders or in none, if and only if each of them, made
    alone, does so. If the body does not see how their arguments differ, the second one has the same
    answer as the first one and leaves the same store, so they do. -/
theorem Query.errors_of_local_calls_comm (isMethod : (p.symbol method).isMethod)
    (isLocal : (p.symbol method).isLocal) (body : (p.symbol method).body = some e)
    (alone : (Query.call (.ref a) method args .direct source).Answered p s o s₁) :
    (∀ o' s₂, (Query.call (.ref a) method args' .direct source).Answered p s o' s₂ →
      (ErrorsCommute p (.call (.ref a) method args .direct source)
          (.call (.ref a) method args' .direct source) s ↔
        (o.errors ≠ [] ↔ o'.errors ≠ []))) ∧
    (p.seesCaller method = true → s.env.Ascending →
      Overlooks p s a method e source args args' →
        (Query.call (.ref a) method args' .direct source).Answered p s o s₁ ∧
          ErrorsCommute p (.call (.ref a) method args .direct source)
            (.call (.ref a) method args' .direct source) s) := by
  have hasSource : (p.symbol method).hasSource := by
    rw [Symbol.hasSource, body]
    rfl
  refine ⟨fun o' s₂ => errorsCommute_iff_alone isMethod isLocal hasSource alone,
    fun sees ordered unseen => ?_⟩
  have alone' := call_local_congr isMethod sees body ordered unseen alone
  exact ⟨alone', (errorsCommute_iff_alone isMethod isLocal hasSource alone alone').2 Iff.rfl⟩

/-! ## A method that depends on the order -/

/-- A class with a field `f` and a method `m`, in which a local method `h` reads `f` of its argument
    `x`. -/
def fieldOfArgument : Program := .ofCommands [
  .defineClass "A" .package .none true,
  .defineField ⟨4⟩ "f" .value,
  .defineMethod ⟨4⟩ "m" [] .none,
  .declareLocalMethod ⟨16⟩ "h" ["x"],
  .ident ⟨18⟩,
  .select ⟨3⟩ ⟨15⟩,
  .setBody ⟨17⟩ ⟨4⟩]

/-- Arguments with these values. -/
def argsOfH (values : List Value) : List ArgValue := values.map (⟨·, .empty, .empty⟩)

/-- A call of `h` with these arguments. -/
def callOfH (values : List Value) : Query Outcome :=
  .call (.ref (.thisOf ⟨4⟩)) ⟨17⟩ (argsOfH values) .direct .empty

/-- A hot argument before a cold one leads to no errors, but a cold argument before a hot one
    does. -/
theorem Query.local_calls_order_matters :
    let silent (v w : Value) : Run Bool := do
      let o ← answer fieldOfArgument 10 (callOfH [v])
      let o' ← answer fieldOfArgument 10 (callOfH [w])
      return (o.errors ++ o'.errors).isEmpty
    (fieldOfArgument.symbol ⟨17⟩).isMethod ∧ (fieldOfArgument.symbol ⟨17⟩).isLocal ∧
      (fieldOfArgument.symbol ⟨17⟩).hasSource ∧
      ((silent .hot .cold).run' .initial).toOption = some true ∧
      ((silent .cold .hot).run' .initial).toOption = some false := by
  decide +kernel

/-- The same class with a second parameter `y` of `h`, which nothing reads. -/
def fieldOfFirst : Program := .ofCommands [
  .defineClass "A" .package .none true,
  .defineField ⟨4⟩ "f" .value,
  .defineMethod ⟨4⟩ "m" [] .none,
  .declareLocalMethod ⟨16⟩ "h" ["x", "y"],
  .ident ⟨18⟩,
  .select ⟨3⟩ ⟨15⟩,
  .setBody ⟨17⟩ ⟨4⟩]

/-- The order makes no difference if only `y` differs, whether there are errors or not, and it makes
    one if `x` is hot in one call and cold in the other. -/
theorem Query.errors_of_local_calls_comm_fieldOfFirst :
    (∀ x ∈ [Value.hot, .cold],
      ErrorsCommute fieldOfFirst (callOfH [x, .hot]) (callOfH [x, .cold]) .initial) ∧
    ¬ErrorsCommute fieldOfFirst (callOfH [.hot, .hot]) (callOfH [.cold, .hot]) .initial := by
  have alone (x : Value) (hx : x ∈ [Value.hot, .cold]) : ∃ o s₁,
      (callOfH [x, .hot]).Answered fieldOfFirst .initial o s₁ ∧ (o.errors = [] ↔ x = .hot) := by
    obtain ⟨o, answered, ho⟩ := answered_of_result? (fun o => o.errors.isEmpty = decide (x = .hot))
      (p := fieldOfFirst) (n := 10) (s := .initial) (q := callOfH [x, .hot])
      (by rcases List.mem_pair.1 hx with rfl | rfl <;> decide +kernel)
    refine ⟨o, _, answered, ?_⟩
    rw [← List.isEmpty_iff, of_decide_eq_true ho, decide_eq_true_iff]
  have unseen (x : Value) (hx : x ∈ [Value.hot, .cold]) :
      Overlooks fieldOfFirst .initial (.thisOf ⟨4⟩) ⟨17⟩ ⟨4⟩ .empty
        (argsOfH [x, .hot]) (argsOfH [x, .cold]) := by
    obtain ⟨o, ends, -⟩ := ends_of_result? (fun _ => true) (p := fieldOfFirst) (n := 10)
      (s := { Store.initial with
        env := Store.initial.localEnv fieldOfFirst ⟨17⟩ (argsOfH [x, .hot])
        trace := Trace.empty.add .empty })
      (q := .eval ⟨4⟩ ⟨.thisOf ⟨4⟩, fieldOfFirst.homeClass ⟨17⟩⟩ true)
      (by rcases List.mem_pair.1 hx with rfl | rfl <;> decide +kernel)
    refine overlooks_of_passes ends ?_
    rcases List.mem_pair.1 hx with rfl | rfl <;> decide +kernel
  constructor
  · intro x hx
    obtain ⟨o, s₁, answered, -⟩ := alone x hx
    exact ((errors_of_local_calls_comm (e := ⟨4⟩) (by decide +kernel) (by decide +kernel)
      (by decide +kernel) answered).2 (by decide +kernel) trivial (unseen x hx)).2
  · obtain ⟨o, s₁, hot, ho⟩ := alone .hot List.mem_cons_self
    obtain ⟨o', s₂, cold, ho'⟩ := alone .cold (by decide)
    have iff := (errors_of_local_calls_comm (e := ⟨4⟩) (by decide +kernel) (by decide +kernel)
      (by decide +kernel) hot).1 o' s₂ cold
    rw [callOfH, callOfH, iff]
    simp [ho, ho']

end ObjectInit
