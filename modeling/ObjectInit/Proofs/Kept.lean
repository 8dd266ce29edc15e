import ObjectInit.Proofs.Runs

/-!
# Kept values

The value of a final evaluation is kept in the cache, by the receiver and the expression alone.
From then on every evaluation of the expression on the receiver is answered from the cache, whatever
the class, the environment and the trace. The bodies of members are evaluated in this way, so a
member that ran once is not run again.

Main results:

* `Query.eval_kept`, `Query.eval_of_kept`: after a final evaluation the cache holds its value, and
  an expression whose value is in the cache is not evaluated again.
* `Plan.runMember_kept`, `Plan.runMember_of_kept`: the same for the members of an object.
-/

namespace ObjectInit

variable {p : Program} {n : Nat} {s s' : Store} {e : ExprId} {o : Outcome} {v : Value}

/-! ## Evaluations -/

section Evaluations

variable {frame : Frame} {final : Bool}

theorem Plan.ends_eval_of_hit (hit : s.cache.find? frame.receiver e = some v) :
    (Plan.eval p e frame final).Ends p n s o s' ↔ o = .ofValue v ∧ s' = s := by
  rw [Plan.eval, Plan.ends_look_bind, hit]
  exact Plan.ends_pure

/-- An evaluation whose value is not known is carried out in a scope of its own. -/
theorem Plan.ends_eval_of_miss (miss : s.cache.find? frame.receiver e = none) :
    (Plan.eval p e frame final).Ends p n s o s' ↔
      ∃ t, (Plan.calledFrom (p.expr e).span (Plan.node p e frame)).Ends p n
          ((Scope.evaluation frame.receiver e final).enter s) o t ∧
        s' = (Scope.evaluation frame.receiver e final).leave s.toContext o t := by
  rw [Plan.eval, Plan.ends_look_bind, miss, Plan.ends_within]
  constructor
  · rintro ⟨b, t, ht, hb⟩
    obtain ⟨rfl, rfl⟩ := Plan.ends_pure.1 hb
    exact ⟨t, ht, rfl⟩
  · rintro ⟨t, ht, rfl⟩
    exact ⟨o, t, ht, Plan.ends_pure.2 ⟨rfl, rfl⟩⟩

/-- An expression whose value is in the cache is not evaluated again. -/
theorem Query.eval_of_kept (hit : s.cache.find? frame.receiver e = some v) :
    (Query.eval e frame final).Ends p (n + 1) s (.ofValue v) s :=
  (Plan.ends_eval_of_hit hit).2 ⟨rfl, rfl⟩

/-- After a final evaluation the cache holds its value. -/
theorem Query.eval_kept (h : (Query.eval e frame true).Ends p n s o s') :
    s'.cache.find? frame.receiver e = some o.value := by
  cases n with
  | zero => exact absurd h Query.ends_zero
  | succ n =>
    rw [Query.ends_succ, Query.plan] at h
    cases hit : s.cache.find? frame.receiver e with
    | some v =>
      obtain ⟨rfl, rfl⟩ := (Plan.ends_eval_of_hit hit).1 h
      exact hit
    | none =>
      obtain ⟨t, -, rfl⟩ := (Plan.ends_eval_of_miss hit).1 h
      simp [Scope.leave, Cache.find?_insert]

end Evaluations

/-! ## Fields -/

namespace Plan

section Fields

variable {a : Addr} {f : SymbolId} {source : Span}

theorem selectAt_of_lazy (lazy : (p.symbol f).isLazy) :
    selectAt p a f source = initializer p a f source :=
  if_pos lazy

theorem ends_selectAt_of_stored (strict : (p.symbol f).isLazy = false)
    (h : s.heap.field? a f = some v) :
    (selectAt p a f source).Ends p n s o s' ↔ o = .ofValue v ∧ s' = s := by
  rw [selectAt, strict, if_neg Bool.false_ne_true, ends_look_bind, h]
  exact ends_pure

theorem ends_selectAt_of_absent (strict : (p.symbol f).isLazy = false)
    (h : s.heap.field? a f = none) :
    (selectAt p a f source).Ends p n s o s' ↔ (selectMissing p a f source).Ends p n s o s' := by
  rw [selectAt, strict, if_neg Bool.false_ne_true, ends_look_bind, h]

/-- An initializer with a value in the cache is not evaluated again. -/
theorem initializer_of_kept (body : (p.symbol f).body = some e)
    (h : s.cache.find? a e = some v) :
    (initializer p a f source).Ends p (n + 1) s (.ofValue v) s := by
  rw [initializer, body]
  exact ends_calledFrom.2 ⟨_, ends_ask.2 (Query.eval_of_kept h), rfl⟩

/-- After an initializer was evaluated, the cache holds its value. -/
theorem initializer_kept (body : (p.symbol f).body = some e)
    (h : (initializer p a f source).Ends p n s o s') : s'.cache.find? a e = some o.value := by
  rw [initializer, body] at h
  obtain ⟨t, ht, rfl⟩ := ends_calledFrom.1 h
  exact Query.eval_kept (ends_ask.1 ht)

end Fields

end Plan

/-! ## Members -/

namespace Plan

variable {a : Addr} {target : SymbolId} {args : List ArgValue}

/-- A call that reaches a method with a body runs this method. -/
theorem callAt_of_method {method : SymbolId} {dispatch : Dispatch} {source : Span}
    (reached : Plan.target p a method dispatch = target) (isMethod : (p.symbol target).isMethod)
    (hasSource : (p.symbol target).hasSource) :
    callAt p a method args dispatch source = calledFrom source (runMember p a target args) := by
  rw [callAt, reached, if_pos isMethod, callTarget, if_pos hasSource]

/-- Hot arguments are promoted without errors. -/
theorem ends_promoteArguments_of_hot (hot : ∀ arg ∈ args, arg.value = .hot)
    {es : List SafetyError} :
    (promoteArguments args).Ends p (n + 1) s es s' ↔ es = [] ∧ s' = s := by
  induction args generalizing s es with
  | nil => exact ends_pure
  | cons arg args ih =>
    have hargs : ∀ arg ∈ args, arg.value = .hot := fun x hx => hot x (List.mem_cons_of_mem arg hx)
    have harg : ∀ {es t}, (promoteArgument arg).Ends p (n + 1) s es t ↔ es = [] ∧ t = s := by
      intro es t
      rw [promoteArgument, ends_inTrace, hot arg List.mem_cons_self]
      simp only [ends_ask, Query.ends_succ, Query.plan, promote, ends_pure]
      constructor
      · rintro ⟨_, ⟨rfl, rfl⟩, rfl⟩
        exact ⟨rfl, rfl⟩
      · rintro ⟨rfl, rfl⟩
        exact ⟨_, ⟨rfl, rfl⟩, rfl⟩
    rw [promoteArguments, ends_errorsOfEach_cons]
    constructor
    · rintro ⟨es₁, t, es₂, h₁, h₂, rfl⟩
      obtain ⟨rfl, rfl⟩ := harg.1 h₁
      obtain ⟨rfl, rfl⟩ := (ih hargs).1 h₂
      exact ⟨rfl, rfl⟩
    · rintro ⟨rfl, rfl⟩
      exact ⟨[], _, [], harg.2 ⟨rfl, rfl⟩, (ih hargs).2 ⟨rfl, rfl⟩, rfl⟩

/-- The result of a member whose body has the value `v`: a primary constructor returns its
    receiver. -/
def memberValue (p : Program) (a : Addr) (target : SymbolId) (v : Value) : Value :=
  if (p.symbol target).isPrimaryConstructor then .ref a else v

/-- What a member does with the value of its body, in the four forms that members have. -/
theorem runMember_of_body (body : (p.symbol target).body = some e) :
    runMember p a target args =
      let run : Plan Outcome := Query.eval e ⟨a, p.homeClass target⟩ true
      let bindings := widenedBindings (p.symbol target).params args
      if (p.symbol target).isPrimaryConstructor then do
        let o ← inEnv (.ofList bindings) (calledFrom (p.cls (p.homeClass target)).span run)
        return ⟨.ref a, o.errors⟩
      else if (p.symbol target).isConstructor then
        inEnv (.ofList bindings) run
      else if (p.symbol target).isLocal then do
        inEnv ((← Effect.look).env.extend bindings) run
      else do
        let o ← inEnv (.ofList ((p.symbol target).params.map (·, .hot))) run
        return o.followedBy (← promoteArguments args) := by
  rw [runMember, body]

/-- After a member ran, the cache holds the value of its body. -/
theorem runMember_kept (body : (p.symbol target).body = some e)
    (free : (p.symbol target).isLocal ∨ ∀ arg ∈ args, arg.value = .hot)
    (h : (runMember p a target args).Ends p (n + 1) s o s') :
    ∃ v, s'.cache.find? a e = some v ∧ o.value = memberValue p a target v := by
  rw [runMember_of_body body] at h
  by_cases primary : (p.symbol target).isPrimaryConstructor
  · rw [if_pos primary, bind_pure_comp, ends_map] at h
    obtain ⟨o', h, rfl⟩ := h
    obtain ⟨t, hcall, rfl⟩ := ends_inEnv.1 h
    obtain ⟨t, hrun, rfl⟩ := ends_calledFrom.1 hcall
    exact ⟨_, Query.eval_kept (ends_ask.1 hrun), (if_pos primary).symm⟩
  rw [if_neg primary] at h
  by_cases constructor : (p.symbol target).isConstructor
  · rw [if_pos constructor] at h
    obtain ⟨t, hrun, rfl⟩ := ends_inEnv.1 h
    exact ⟨_, Query.eval_kept (ends_ask.1 hrun), (if_neg primary).symm⟩
  rw [if_neg constructor] at h
  by_cases isLocal : (p.symbol target).isLocal
  · rw [if_pos isLocal, ends_look_bind] at h
    obtain ⟨t, hrun, rfl⟩ := ends_inEnv.1 h
    exact ⟨_, Query.eval_kept (ends_ask.1 hrun), (if_neg primary).symm⟩
  rw [if_neg isLocal, ends_bind] at h
  have hot := free.resolve_left isLocal
  obtain ⟨o', t, h, hargs⟩ := h
  rw [bind_pure_comp, ends_map] at hargs
  obtain ⟨es, hargs, rfl⟩ := hargs
  obtain ⟨rfl, rfl⟩ := (ends_promoteArguments_of_hot hot).1 hargs
  obtain ⟨t, hrun, rfl⟩ := ends_inEnv.1 h
  exact ⟨_, Query.eval_kept (ends_ask.1 hrun), (if_neg primary).symm⟩

/-- A member whose body has a value in the cache does not run again. -/
theorem runMember_of_kept (body : (p.symbol target).body = some e)
    (free : (p.symbol target).isLocal ∨ ∀ arg ∈ args, arg.value = .hot)
    (kept : s.cache.find? a e = some v) :
    (runMember p a target args).Ends p (n + 1) s (.ofValue (memberValue p a target v)) s := by
  have again (env : Env) (trace : Trace) :
      (liftM (Query.eval e ⟨a, p.homeClass target⟩ true) : Plan Outcome).Ends p (n + 1)
        { s with env, trace } (.ofValue v) { s with env, trace } :=
    ends_ask.2 (Query.eval_of_kept kept)
  have inside (env : Env) :
      (inEnv env (Query.eval e ⟨a, p.homeClass target⟩ true)).Ends p (n + 1) s (.ofValue v) s :=
    ends_inEnv.2 ⟨_, again env s.trace, rfl⟩
  rw [runMember_of_body body, memberValue]
  by_cases primary : (p.symbol target).isPrimaryConstructor
  · rw [if_pos primary, if_pos primary, bind_pure_comp, ends_map]
    refine ⟨.ofValue v, ends_inEnv.2 ⟨_, ends_calledFrom.2 ⟨_, again _ _, rfl⟩, rfl⟩, rfl⟩
  rw [if_neg primary, if_neg primary]
  by_cases constructor : (p.symbol target).isConstructor
  · rw [if_pos constructor]
    exact inside _
  rw [if_neg constructor]
  by_cases isLocal : (p.symbol target).isLocal
  · rw [if_pos isLocal, ends_look_bind]
    exact inside _
  rw [if_neg isLocal, ends_bind]
  have hot := free.resolve_left isLocal
  refine ⟨.ofValue v, s, inside _, ?_⟩
  rw [bind_pure_comp, ends_map]
  exact ⟨[], (ends_promoteArguments_of_hot hot).2 ⟨rfl, rfl⟩, rfl⟩

end Plan

end ObjectInit
