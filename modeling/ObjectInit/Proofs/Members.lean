import ObjectInit.Proofs.Promotion

/-!
# Members of promoted objects

The promotion of a warm object tries out its members one after the other, on one cache, and while
it does so it takes the object to be hot. The members are therefore safe from then on, with what
was found about them kept; they need not be safe where the promotion did not happen.

Main results:

* `Query.members_of_promoted`: after the promotion of a warm object every use of it finds no errors
  and has a value that is promoted without errors.
* `Query.member_unsafe_before_promotion`: before the promotion a use of it may have another value.
* `Query.param_unsafe_after_promotion`: a class parameter that was not initialized before the
  promotion may be initialized later.
-/

namespace ObjectInit

variable {p : Program} {n : Nat} {s s' t : Store} {v : Value} {reason : String} {source : Span}

/-! ## Fields that are read at once -/

/-- The field of the warm object at `w` has the value `v`, in the heap, in the cache or as a
    parameter that is taken to be hot. -/
inductive Store.Reads (p : Program) (s : Store) (w : Warm) (f : SymbolId) : Value → Prop where
  | kept {e : ExprId} {v : Value} (body : (p.symbol f).body = some e)
    (onDemand : (p.symbol f).isLazy ∨
      ((p.symbol f).isParamAccessor = false ∧ s.heap.field? (.warm w) f = none))
    (h : s.cache.find? (.warm w) e = some v) : Reads p s w f v
  | stored {v : Value} (strict : (p.symbol f).isLazy = false)
    (h : s.heap.field? (.warm w) f = some v) : Reads p s w f v
  | param (strict : (p.symbol f).isLazy = false) (isParam : (p.symbol f).isParamAccessor)
    (h : s.heap.field? (.warm w) f = none) : Reads p s w f .hot

variable {w : Warm} {f : SymbolId}

/-- No class parameter of the warm object at `w` is initialized between the two stores. -/
def Store.KeepsParams (s : Store) (p : Program) (w : Warm) (s' : Store) : Prop :=
  ∀ f, (p.symbol f).isParamAccessor → s.heap.field? (.warm w) f = none →
    s'.heap.field? (.warm w) f = none

/-- What holds of two stores holds of those in between. -/
theorem Store.KeepsParams.between {u u' : Store} (h : s.KeepsParams p w s') (hu : s.Keeps p u)
    (hu' : u'.Keeps p s') : u.KeepsParams p w u' := by
  intro f isParam absent
  exact hu'.heap.absent (h f isParam (hu.heap.absent absent))

/-- Such a field is read without errors, and nothing changes. -/
theorem Store.Reads.selectAt (h : s.Reads p w f v) :
    (Plan.selectAt p (.warm w) f source).Ends p (n + 1) s (.ofValue v) s := by
  cases h with
  | kept body onDemand h =>
    have kept : (Plan.initializer p (.warm w) f source).Ends p (n + 1) s (.ofValue v) s :=
      Plan.initializer_of_kept body h
    cases lazy : (p.symbol f).isLazy with
    | true =>
      rw [Plan.selectAt_of_lazy lazy]
      exact kept
    | false =>
      obtain ⟨hparam, absent⟩ := onDemand.resolve_left (by rw [lazy]; nofun)
      rw [Plan.ends_selectAt_of_absent lazy absent, Plan.selectMissing, hparam]
      exact kept
  | stored strict h => exact (Plan.ends_selectAt_of_stored strict h).2 ⟨rfl, rfl⟩
  | param strict isParam h =>
    rw [Plan.ends_selectAt_of_absent strict h, Plan.selectMissing, if_pos isParam]
    exact Plan.ends_pure.2 ⟨rfl, rfl⟩

/-- A field keeps its value. -/
theorem Store.Reads.mono (h : s.Reads p w f v) (later : s.Keeps p s')
    (params : s.KeepsParams p w s') : s'.Reads p w f v := by
  cases h with
  | stored strict h => exact .stored strict (later.heap.field h)
  | param strict isParam h => exact .param strict isParam (params f isParam h)
  | kept body onDemand h =>
    have kept := later.cached _ _ _ h
    rcases onDemand with lazy | ⟨hparam, absent⟩
    · exact .kept body (.inl lazy) kept
    · rcases later.filled _ f _ v hparam body h absent with still | filled
      · exact .kept body (.inr ⟨hparam, still⟩) kept
      · cases lazy : (p.symbol f).isLazy with
        | true => exact .kept body (.inl lazy) kept
        | false => exact .stored lazy filled

/-- A field that is set after it was read is set to the value that was read. -/
theorem Store.Reads.eq_of_field? {u : Value} (h : s.Reads p w f v)
    (absent : s.heap.field? (.warm w) f = none) (later : s.Keeps p s')
    (params : s.KeepsParams p w s') (present : s'.heap.field? (.warm w) f = some u) : u = v := by
  cases h with
  | stored strict h =>
    rw [absent] at h
    cases h
  | param strict isParam h =>
    rw [params f isParam h] at present
    cases present
  | kept body onDemand h =>
    cases hparam : (p.symbol f).isParamAccessor with
    | true =>
      rw [params f hparam absent] at present
      cases present
    | false =>
      rcases later.filled _ f _ v hparam body h absent with still | filled
      · rw [still] at present
        cases present
      · rw [filled] at present
        exact (Option.some.inj present).symm

/-- An initializer that ends without errors is known. -/
theorem Plan.body_of_initializer {a : Addr}
    (h : (Plan.initializer p a f source).Ends p n s (.ofValue v) s') :
    ∃ e, (p.symbol f).body = some e := by
  cases body : (p.symbol f).body with
  | some e => exact ⟨e, rfl⟩
  | none =>
    rw [Plan.initializer, body] at h
    have h := (Plan.ends_fail.1 h).1
    cases h

/-- A field that is set while its initializer is evaluated is hot. -/
theorem Plan.field?_of_initializer {a : Addr} {e : ExprId} {o : Outcome}
    (body : (p.symbol f).body = some e) (hparam : (p.symbol f).isParamAccessor = false)
    (absent : s.heap.field? a f = none) (h : (Plan.initializer p a f source).Ends p n s o s') :
    s'.heap.field? a f = none ∨ s'.heap.field? a f = some .hot := by
  rw [Plan.initializer, body] at h
  obtain ⟨t, ht, rfl⟩ := Plan.ends_calledFrom.1 h
  change t.heap.field? a f = none ∨ t.heap.field? a f = some .hot
  have ht := Plan.ends_ask.1 ht
  cases n with
  | zero => exact absurd ht Query.ends_zero
  | succ n =>
    rw [Query.ends_succ, Query.plan] at ht
    cases hit : s.cache.find? a e with
    | some u =>
      obtain ⟨-, rfl⟩ := (Plan.ends_eval_of_hit hit).1 ht
      exact .inl absent
    | none =>
      obtain ⟨u, hu, rfl⟩ := (Plan.ends_eval_of_miss hit).1 ht
      have inside := (Plan.Alike.calledFrom (p.expr e).span (p.expr e).span
        (Plan.alike_node e ⟨a, p.homeClass f⟩)).keeps (fun q s b s' h => h.keeps) hu
      -- While the initializer is evaluated, its value is taken to be hot.
      refine inside.filled a f e .hot hparam body ?_ absent
      exact (Cache.find?_insert _ _ _ _ _ _).trans (if_pos ⟨rfl, rfl⟩)

/-- After a field was read without errors, it is read at once. It has the value that was read,
    unless it was set while its initializer was evaluated; then it is hot. -/
theorem Plan.reads_of_selectAt
    (h : (Plan.selectAt p (.warm w) f source).Ends p n s (.ofValue v) s') :
    s'.Reads p w f v ∨ s.heap.field? (.warm w) f = none ∧ s'.heap.field? (.warm w) f = some .hot ∧
      s'.Reads p w f .hot := by
  cases lazy : (p.symbol f).isLazy with
  | true =>
    rw [Plan.selectAt_of_lazy lazy] at h
    obtain ⟨e, body⟩ := Plan.body_of_initializer h
    exact .inl (.kept body (.inl lazy) (Plan.initializer_kept body h))
  | false =>
    cases stored : s.heap.field? (.warm w) f with
    | some u =>
      obtain ⟨hv, rfl⟩ := (Plan.ends_selectAt_of_stored lazy stored).1 h
      cases hv
      exact .inl (.stored lazy stored)
    | none =>
      rw [Plan.ends_selectAt_of_absent lazy stored, Plan.selectMissing] at h
      cases hparam : (p.symbol f).isParamAccessor with
      | true =>
        rw [hparam, if_pos rfl] at h
        obtain ⟨hv, rfl⟩ := Plan.ends_pure.1 h
        cases hv
        exact .inl (.param lazy hparam stored)
      | false =>
        rw [hparam, if_neg Bool.false_ne_true] at h
        obtain ⟨e, body⟩ := Plan.body_of_initializer h
        have kept := Plan.initializer_kept body h
        rcases Plan.field?_of_initializer body hparam stored h with absent | present
        · exact .inl (.kept body (.inr ⟨hparam, absent⟩) kept)
        · exact .inr ⟨rfl, present, .stored lazy present⟩

/-! ## Methods that are called at once -/

/-- A call that reaches the member `target` of the warm object at `w` has the value `v`: its body
    was run, it needs none, or it is a field. -/
inductive Store.Calls (p : Program) (s : Store) (w : Warm) (target : SymbolId) : Value → Prop where
  | kept {e : ExprId} {v : Value} (isMethod : (p.symbol target).isMethod)
    (body : (p.symbol target).body = some e) (h : s.cache.find? (.warm w) e = some v) :
    Calls p s w target (Plan.memberValue p (.warm w) target v)
  | harmless (isMethod : (p.symbol target).isMethod) (unknown : (p.symbol target).body = none)
    (h : p.isHarmless target) : Calls p s w target .hot
  | stored {v : Value} (isField : (p.symbol target).isMethod = false)
    (h : s.heap.field? (.warm w) target = some v) : Calls p s w target v
  | read {v : Value} (isField : (p.symbol target).isMethod = false)
    (absent : s.heap.field? (.warm w) target = none) (h : s.Reads p w target v) :
    Calls p s w target v

variable {method target : SymbolId} {args : List ArgValue}

/-- Such a call finds no errors and changes nothing, whatever hot arguments it has. -/
theorem Store.Calls.callAt (h : s.Calls p w target v)
    (reached : Plan.target p (.warm w) method .virtual = target)
    (hot : ∀ arg ∈ args, arg.value = .hot) :
    (Plan.callAt p (.warm w) method args .virtual source).Ends p (n + 2) s (.ofValue v) s := by
  cases h with
  | kept isMethod body h =>
    rw [Plan.callAt_of_method reached isMethod (Option.isSome_iff_exists.2 ⟨_, body⟩),
      Plan.ends_calledFrom]
    exact ⟨_, Plan.runMember_of_kept body (.inr hot) h, rfl⟩
  | harmless isMethod unknown h =>
    have hasNone : ¬(p.symbol target).hasSource := by simp [Symbol.hasSource, unknown]
    rw [Plan.callAt, reached, if_pos isMethod, Plan.callTarget, if_neg hasNone, if_pos h]
    exact Plan.ends_pure.2 ⟨rfl, rfl⟩
  | stored isField h =>
    rw [Plan.callAt, reached, isField, if_neg Bool.false_ne_true, Plan.ends_look_bind, h]
    exact Plan.ends_pure.2 ⟨rfl, rfl⟩
  | read isField absent h =>
    rw [Plan.callAt, reached, isField, if_neg Bool.false_ne_true, Plan.ends_look_bind, absent,
      Plan.ends_ask]
    exact h.selectAt

/-- A call keeps its value. -/
theorem Store.Calls.mono (h : s.Calls p w target v) (later : s.Keeps p s')
    (params : s.KeepsParams p w s') : s'.Calls p w target v := by
  cases h with
  | kept isMethod body h => exact .kept isMethod body (later.cached _ _ _ h)
  | harmless isMethod unknown h => exact .harmless isMethod unknown h
  | stored isField h => exact .stored isField (later.heap.field h)
  | read isField absent h =>
    cases present : s'.heap.field? (.warm w) target with
    | none => exact .read isField present (h.mono later params)
    | some u =>
      cases h.eq_of_field? absent later params present
      exact .stored isField present

/-- A field that is set while it is read is hot. -/
theorem Plan.field?_of_selectAt (absent : s.heap.field? (.warm w) f = none)
    (params : s.KeepsParams p w s')
    (h : (Plan.selectAt p (.warm w) f source).Ends p n s (.ofValue v) s') :
    s'.heap.field? (.warm w) f = none ∨ s'.heap.field? (.warm w) f = some .hot := by
  cases hparam : (p.symbol f).isParamAccessor with
  | true => exact .inl (params f hparam absent)
  | false =>
    have initialized : (Plan.initializer p (.warm w) f source).Ends p n s (.ofValue v) s' := by
      cases lazy : (p.symbol f).isLazy with
      | true => rwa [Plan.selectAt_of_lazy lazy] at h
      | false =>
        rwa [Plan.ends_selectAt_of_absent lazy absent, Plan.selectMissing, hparam,
          if_neg Bool.false_ne_true] at h
    obtain ⟨e, body⟩ := Plan.body_of_initializer initialized
    exact Plan.field?_of_initializer body hparam absent initialized

/-- After a call that found no errors, the next one has a value at once. It is the same value,
    unless the call reached a field that was set meanwhile; then it is hot. -/
theorem Plan.calls_of_callAt (reached : Plan.target p (.warm w) method .virtual = target)
    (hot : ∀ arg ∈ args, arg.value = .hot) (params : s.KeepsParams p w s')
    (h : (Plan.callAt p (.warm w) method args .virtual source).Ends p n s (.ofValue v) s') :
    s'.Calls p w target v ∨ s'.Calls p w target .hot := by
  rw [Plan.callAt, reached] at h
  cases isMethod : (p.symbol target).isMethod with
  | true =>
    rw [isMethod, if_pos rfl, Plan.callTarget] at h
    cases body : (p.symbol target).body with
    | some e =>
      rw [if_pos (by simp [Symbol.hasSource, body]), Plan.ends_calledFrom] at h
      obtain ⟨t, hrun, rfl⟩ := h
      obtain ⟨u, kept, hu⟩ := Plan.runMember_kept body (.inr hot) (hrun.mono n.le_succ)
      cases hu
      exact .inl (.kept isMethod body kept)
    | none =>
      rw [if_neg (by simp [Symbol.hasSource, body])] at h
      by_cases harmless : p.isHarmless target
      · rw [if_pos harmless] at h
        cases (Plan.ends_pure.1 h).1
        exact .inl (.harmless isMethod body harmless)
      · rw [if_neg harmless] at h
        cases (Plan.ends_fail.1 h).1
  | false =>
    rw [isMethod, if_neg Bool.false_ne_true, Plan.ends_look_bind] at h
    cases stored : s.heap.field? (.warm w) target with
    | some u =>
      rw [stored] at h
      obtain ⟨hv, rfl⟩ := Plan.ends_pure.1 h
      cases hv
      exact .inl (.stored isMethod stored)
    | none =>
      rw [stored, Plan.ends_ask] at h
      cases n with
      | zero => exact absurd h Query.ends_zero
      | succ n =>
        have h : (Plan.selectAt p (.warm w) target source).Ends p n s (.ofValue v) s' := h
        rcases Plan.field?_of_selectAt stored params h with absent | present
        · rcases Plan.reads_of_selectAt h with reads | ⟨-, -, reads⟩
          · exact .inl (.read isMethod absent reads)
          · exact .inr (.read isMethod absent reads)
        · exact .inr (.stored isMethod present)

/-! ## All members -/

/-- The member is declared by a base class with source, and it is neither abstract nor a
    constructor. -/
structure Program.IsTried (p : Program) (c : ClassId) (s : SymbolId) : Prop where
  declared : ∃ base ∈ (p.cls c).linearization, (p.cls base).hasSource ∧ s ∈ (p.cls base).decls
  notDeferred : (p.symbol s).isDeferred = false
  notConstructor : (p.symbol s).isConstructor = false

/-- A field that can be read from outside and whose value is known. -/
structure Program.IsOpenField (p : Program) (c : ClassId) (f : SymbolId) : Prop
    extends p.IsTried c f where
  isField : (p.symbol f).isMethod = false
  notPrivate : (p.symbol f).isPrivate = false
  notProtected : (p.symbol f).isProtected = false
  known : (p.symbol f).hasSource ∨ (p.symbol f).isParamAccessor

/-- A method whose body is known. -/
structure Program.IsOpenMethod (p : Program) (c : ClassId) (m : SymbolId) : Prop
    extends p.IsTried c m where
  isMethod : (p.symbol m).isMethod
  known : (p.symbol m).hasSource

namespace Program

variable {c : ClassId}

theorem IsTried.mem {s : SymbolId} (h : p.IsTried c s) : s ∈ p.triedMembers c := by
  obtain ⟨base, hbase, hasSource, hs⟩ := h.declared
  refine List.mem_filter.2 ⟨List.mem_flatMap.2 ⟨base, ?_, hs⟩, ?_⟩
  · exact List.mem_filter.2 ⟨hbase, hasSource⟩
  · simp [h.notDeferred, h.notConstructor]

theorem IsOpenField.mem (h : p.IsOpenField c f) : f ∈ p.triedFields c := by
  refine List.mem_filter.2 ⟨h.toIsTried.mem, ?_⟩
  simpa [h.isField, h.notPrivate, h.notProtected] using h.known

theorem IsOpenMethod.mem (h : p.IsOpenMethod c method) : method ∈ p.triedMethods c :=
  List.mem_filter.2 ⟨h.toIsTried.mem, by simp [h.isMethod, h.known]⟩

end Program

/-- The answer to the question is a value that is promoted without errors. No errors are found on
    the way, and nothing changes. -/
def Query.AnsweredHot (p : Program) (s : Store) (q : Query Outcome) : Prop :=
  ∃ v, q.Answered p s (.ofValue v) s ∧
    ∀ reason source, (Query.promote v reason source).Answered p s [] s

/-- A promotion that tries out the members of a warm object without errors tries out each of them
    without errors, between the store in which it starts and the one in which it ends. -/
theorem Plan.uses_of_promoteWarm (h : (Plan.promoteWarm p w reason source).Ends p n s [] s') :
    (∀ f ∈ p.triedFields w.cls, ∃ u u', s.Keeps p u ∧ u'.Keeps p s' ∧
      (Plan.tryUse (Query.select (.ref (.warm w)) f source true) (p.symbol f).span reason
        source).Ends p n u [] u') ∧
    ∀ m ∈ p.triedMethods w.cls, ∃ u u' args, s.Keeps p u ∧ u'.Keeps p s' ∧
      (∀ arg ∈ args, ArgValue.value arg = .hot) ∧
      (Plan.tryUse (Query.call (.ref (.warm w)) m args .virtual source) (p.symbol m).span reason
        source).Ends p n u [] u' := by
  rw [Plan.promoteWarm] at h
  split at h
  · exact absurd h Plan.not_ends_failPromotion
  · obtain ⟨ofFields, t, hfields, h⟩ := Plan.ends_bind.1 h
    rw [Plan.ends_look_bind] at h
    obtain ⟨ofMethods, t', hmethods, h⟩ := Plan.ends_bind.1 h
    obtain ⟨hnone, rfl⟩ := Plan.ends_explain_nil h
    obtain ⟨rfl, rfl⟩ := List.append_eq_nil_iff.1 hnone
    obtain ⟨keptByFields, eachField⟩ := Plan.ends_errorsOfEach_nil
      (fun f => Plan.alike_tryUse (.ask_self (.select _ f source true) rfl) _ reason source) hfields
    obtain ⟨keptByMethods, eachMethod⟩ := Plan.ends_errorsOfEach_nil
      (fun m =>
        Plan.alike_tryUse (.ask_self (.call _ m .virtual source (.refl _)) rfl) _ reason source)
      hmethods
    constructor
    · intro f hf
      obtain ⟨u, u', hu, huse, hu'⟩ := eachField f hf
      exact ⟨u, u', hu, hu'.trans keptByMethods, huse⟩
    · intro m hm
      obtain ⟨u, u', hu, huse, hu'⟩ := eachMethod m hm
      refine ⟨u, u', _, keptByFields.trans hu, hu', ?_, huse⟩
      intro arg harg
      obtain ⟨_, -, rfl⟩ := List.mem_map.1 harg
      rfl

/-- A promotion of a warm object that is not promotable tries out its members. -/
theorem Query.promoteWarm_of_promote {s₁ : Store}
    (untrusted : (Query.isPromotable (.ref (.warm w))).Answered p s false s₁)
    (h : (Query.promote (.ref (.warm w)) reason source).Answered p s [] s') :
    ∃ n, (Plan.promoteWarm p w reason source).Ends p n
      ((Scope.promotion (.ref (.warm w))).enter s₁) [] s' := by
  obtain ⟨n, h⟩ := h
  cases n with
  | zero => exact absurd h Query.ends_zero
  | succ n =>
    rw [Query.ends_succ, Query.plan] at h
    simp only [Plan.promote, Plan.ends_bind, Plan.ends_ask] at h
    obtain ⟨b, u, hb, h⟩ := h
    obtain ⟨rfl, rfl⟩ := untrusted.unique ⟨n, hb⟩
    obtain ⟨es, u, hpart, h⟩ := Plan.ends_within.1 h
    obtain ⟨rfl, rfl⟩ := Plan.ends_pure.1 h
    exact ⟨n, hpart⟩

variable {u u' : Store} {at' : Span}

/-- A field that was tried out without errors is read without errors later. -/
theorem Query.select_answeredHot
    (tried : (Plan.tryUse (Query.select (.ref (.warm w)) f source true) at' reason source).Ends p n
      u [] u') (later : u'.Keeps p t) (params : u.KeepsParams p w t) (source' : Span) :
    (Query.select (.ref (.warm w)) f source' true).AnsweredHot p t := by
  obtain ⟨trace, v, x, hread, hx, accepted⟩ := Plan.ends_tryUse_nil tried
  have hread := Plan.ends_ask.1 hread
  have before : u.Keeps p x := hread.keeps.congr rfl rfl rfl rfl rfl rfl
  have after : x.Keeps p t := hx.trans later
  have reads : ∃ v, t.Reads p w (p.virtualTarget w.cls f) v ∧ t.Accepts v := by
    cases n with
    | zero => exact absurd hread Query.ends_zero
    | succ n =>
      have params : x.KeepsParams p w t := params.between before (.refl p t)
      rcases Plan.reads_of_selectAt hread with reads | ⟨-, -, reads⟩
      · exact ⟨v, reads.mono after params, accepted.mono later⟩
      · exact ⟨.hot, reads.mono after params, .hot⟩
  obtain ⟨v, reads, accepted⟩ := reads
  exact ⟨v, ⟨2, reads.selectAt⟩, accepted.promote⟩

/-- A method that was tried out without errors is called without errors later. -/
theorem Query.call_answeredHot (hot : ∀ arg ∈ args, arg.value = .hot)
    (tried : (Plan.tryUse (Query.call (.ref (.warm w)) method args .virtual source) at' reason
      source).Ends p n u [] u') (later : u'.Keeps p t) (params : u.KeepsParams p w t)
    {args' : List ArgValue} (hot' : ∀ arg ∈ args', arg.value = .hot) (source' : Span) :
    (Query.call (.ref (.warm w)) method args' .virtual source').AnsweredHot p t := by
  obtain ⟨trace, v, x, hcall, hx, accepted⟩ := Plan.ends_tryUse_nil tried
  have hcall := Plan.ends_ask.1 hcall
  have before : u.Keeps p x := hcall.keeps.congr rfl rfl rfl rfl rfl rfl
  have after : x.Keeps p t := hx.trans later
  have calls : ∃ v, t.Calls p w (p.virtualTarget w.cls method) v ∧ t.Accepts v := by
    cases n with
    | zero => exact absurd hcall Query.ends_zero
    | succ n =>
      have meanwhile : u.KeepsParams p w x := params.between (.refl p u) after
      have params : x.KeepsParams p w t := params.between before (.refl p t)
      rcases Plan.calls_of_callAt (s := { u with trace }) rfl hot meanwhile hcall with calls | calls
      · exact ⟨v, calls.mono after params, accepted.mono later⟩
      · exact ⟨.hot, calls.mono after params, .hot⟩
  obtain ⟨v, calls, accepted⟩ := calls
  exact ⟨v, ⟨3, calls.callAt rfl hot'⟩, accepted.promote⟩

/-- After the promotion of a warm object without errors, at any later time, every open field of it
    is read and every open method of it is called with hot arguments without errors, and the values
    are promoted without errors. -/
theorem Query.members_of_promoted {s₁ : Store}
    (untrusted : (Query.isPromotable (.ref (.warm w))).Answered p s false s₁)
    (promoted : (Query.promote (.ref (.warm w)) reason source).Answered p s [] s')
    (later : s'.Later p t) (params : s.KeepsParams p w t) :
    (∀ f, p.IsOpenField w.cls f → ∀ source,
      (Query.select (.ref (.warm w)) f source true).AnsweredHot p t) ∧
    ∀ m, p.IsOpenMethod w.cls m → ∀ args : List ArgValue, (∀ arg ∈ args, arg.value = .hot) →
      ∀ source, (Query.call (.ref (.warm w)) m args .virtual source).AnsweredHot p t := by
  obtain ⟨n, hpart⟩ := Query.promoteWarm_of_promote untrusted promoted
  obtain ⟨m, hpromotable⟩ := untrusted
  have enter : s.Keeps p ((Scope.promotion (.ref (.warm w))).enter s₁) :=
    hpromotable.keeps.trans (.trust p s₁ _)
  obtain ⟨fields, methods⟩ := Plan.uses_of_promoteWarm hpart
  constructor
  · intro f hf
    obtain ⟨u, u', hu, hu', tried⟩ := fields f hf.mem
    exact Query.select_answeredHot tried (hu'.trans later.keeps)
      (params.between (enter.trans hu) (.refl p t))
  · intro m hm args hot
    obtain ⟨u, u', args, hu, hu', hot', tried⟩ := methods m hm.mem
    exact Query.call_answeredHot hot' tried (hu'.trans later.keeps)
      (params.between (enter.trans hu) (.refl p t)) hot

/-! ## An object whose promotion matters -/

/-- A class `O` with a member class `W` and a field `late`. `W` has three lazy fields: `q` reads the
    private `p`, `p` reads `b` and is the instance of `O`, and `b` is `p`. -/
def cycleOfMembers : Program := .ofCommands [
  .defineClass "O" .package .none true,
  .defineClass "W" (.cls ⟨4⟩) .none true,
  .defineField ⟨5⟩ "q" .lazy,
  .defineField ⟨5⟩ "b" .lazy,
  .declareMember ⟨5⟩ "p" (.ofList [.lazy, .privateMember]),
  .defineField ⟨4⟩ "late" .value,
  .ident ⟨18⟩,
  .literal,
  .block [⟨6⟩] ⟨7⟩,
  .setBody ⟨16⟩ ⟨8⟩,
  .ident ⟨17⟩,
  .thisOf ⟨4⟩,
  .block [⟨9⟩] ⟨10⟩,
  .setBody ⟨18⟩ ⟨11⟩,
  .ident ⟨18⟩,
  .setBody ⟨17⟩ ⟨12⟩]

/-- The instance of `W` with the instance of `O` under construction as its outer. -/
def instanceOfW : Warm := ⟨⟨5⟩, 0⟩

/-- The creation of this instance. -/
def createW : Query Outcome := .create (.ref (.thisOf ⟨4⟩)) ⟨5⟩ ⟨15⟩ [] .empty

/-- The promotion of a value. -/
def promoteAnywhere (v : Value) : Query (List SafetyError) := .promote v "" .empty

/-- A read of `b`. -/
def readB : Query Outcome := .select (.ref (.warm instanceOfW)) ⟨17⟩ .empty true

/-- The instance of `W` is not promotable, and it is promoted without errors. Before the promotion a
    read of `b` finds the instance of `O`, which is not promoted without errors. -/
theorem Query.member_unsafe_before_promotion :
    let w := Value.ref (.warm instanceOfW)
    let promotion : Run (Bool × Bool) := do
      let o ← answer cycleOfMembers 20 createW
      let promotable ← answer cycleOfMembers 20 (.isPromotable o.value)
      let errors ← answer cycleOfMembers 20 (promoteAnywhere o.value)
      return (o.value == w && !promotable, errors.isEmpty)
    let read : Run (Bool × Bool) := do
      let _ ← answer cycleOfMembers 20 createW
      let o ← answer cycleOfMembers 20 readB
      let errors ← answer cycleOfMembers 20 (promoteAnywhere o.value)
      return (o.errors.isEmpty, errors.isEmpty)
    cycleOfMembers.IsOpenField ⟨5⟩ ⟨17⟩ ∧
      (promotion.run' .initial).toOption = some (true, true) ∧
      (read.run' .initial).toOption = some (true, false) := by
  refine ⟨⟨⟨⟨⟨5⟩, ?_⟩, ?_, ?_⟩, ?_, ?_, ?_, ?_⟩, ?_⟩ <;> decide +kernel

/-- The store after the creation. -/
def storeWithW : Store := createW.storeAfter cycleOfMembers 20 .initial

/-- After the promotion a read of `b` has a value that is promoted without errors. -/
theorem Query.members_of_promoted_readB :
    ∃ s₁ s', (Query.isPromotable (.ref (.warm instanceOfW))).Answered cycleOfMembers storeWithW
        false s₁ ∧
      (promoteAnywhere (.ref (.warm instanceOfW))).Answered cycleOfMembers storeWithW [] s' ∧
      storeWithW.KeepsParams cycleOfMembers instanceOfW s' ∧
      readB.AnsweredHot cycleOfMembers s' := by
  obtain ⟨b, promotable, hb⟩ := Query.answered_of_result? (fun b => !b)
    (p := cycleOfMembers) (n := 20) (s := storeWithW)
    (q := .isPromotable (.ref (.warm instanceOfW))) (by decide +kernel)
  obtain ⟨es, promoted, hes⟩ := Query.answered_of_result? List.isEmpty
    (p := cycleOfMembers) (n := 20) (s := storeWithW)
    (q := promoteAnywhere (.ref (.warm instanceOfW))) (by decide +kernel)
  rw [Bool.not_eq_true'] at hb
  rw [List.isEmpty_iff] at hes
  subst hb hes
  have noParams (f : SymbolId) : (cycleOfMembers.symbol f).isParamAccessor = false :=
    eq_of_beq <|
      Program.symbol_of_all (fun s => s.isParamAccessor == false) (by decide +kernel) rfl f
  have params (t : Store) : storeWithW.KeepsParams cycleOfMembers instanceOfW t := by
    intro f isParam
    rw [noParams f] at isParam
    cases isParam
  have openField : cycleOfMembers.IsOpenField instanceOfW.cls ⟨17⟩ := by
    refine ⟨⟨⟨⟨5⟩, ?_⟩, ?_, ?_⟩, ?_, ?_, ?_, ?_⟩ <;> decide +kernel
  exact ⟨_, _, promotable, promoted, params _,
    (Query.members_of_promoted promotable promoted .refl (params _)).1 ⟨17⟩ openField .empty⟩

/-! ## An object with a late parameter -/

/-- A class `O` with a member class `W` and a field `late`. `W` has a class parameter `q`, a
    constructor that does not initialize it, and a method `m` that does so with the instance of
    `O`. -/
def lateParam : Program := .ofCommands [
  .defineClass "O" .package .none true,
  .defineClass "W" (.cls ⟨4⟩) .none true,
  .defineClassParam ⟨5⟩ "q",
  .defineConstructor ⟨5⟩ [],
  .literal,
  .setBody ⟨18⟩ ⟨4⟩,
  .defineMethod ⟨5⟩ "m" [] .none,
  .thisOf ⟨4⟩,
  .setBody ⟨16⟩ ⟨6⟩,
  .valDef ⟨16⟩,
  .block [⟨7⟩] ⟨2⟩,
  .setBody ⟨19⟩ ⟨8⟩,
  .defineField ⟨4⟩ "late" .value]

/-- The promotion tries out `q` while it has no value, and then `m`. Afterwards `q` is the instance
    of `O`, which is not promoted without errors. -/
theorem Query.param_unsafe_after_promotion :
    let run : Run (Bool × Bool × Bool) := do
      let o ← answer lateParam 20 (.create (.ref (.thisOf ⟨4⟩)) ⟨5⟩ ⟨18⟩ [] .empty)
      let promotable ← answer lateParam 20 (.isPromotable o.value)
      let errors ← answer lateParam 20 (promoteAnywhere o.value)
      let q ← answer lateParam 20 (.select o.value ⟨17⟩ .empty true)
      let errors' ← answer lateParam 20 (promoteAnywhere q.value)
      return (promotable, errors.isEmpty, errors'.isEmpty)
    lateParam.IsOpenField ⟨5⟩ ⟨17⟩ ∧
      (run.run' .initial).toOption = some (false, true, false) := by
  refine ⟨⟨⟨⟨⟨5⟩, ?_⟩, ?_, ?_⟩, ?_, ?_, ?_, ?_⟩, ?_⟩ <;> decide +kernel

end ObjectInit
