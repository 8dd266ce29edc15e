import ObjectInit.Proofs.Captures

/-!
# Promotions that are tried again

A promotion that fails takes back its value, but the values of the members that were tried out stay
in the cache, without the errors that were found. Where these errors do not come from evaluations,
a second attempt runs into the same values: the members have the values that were found before, what
was promoted the first time is trusted, and what failed fails once more (`Inquiries.Lasting.again`).
Nothing is evaluated then, and neither the heap nor the cache changes.

Main results:

* `Inquiries.Lasting.use_again`: a member that is used a second time has the same value again.
* `Inquiries.Lasting.again`: the second attempt at a promotion finds errors if the first one did.
-/

namespace ObjectInit

variable {p : Program} {n : Nat} {α β γ : Type} {s s' t t' u u' r r' : Store} {v : Value}
  {reason : String} {source : Span}

/-! ## Runs of promotions -/

/-- The promotion of an object under construction fails if it is not complete. -/
theorem Query.Ends.promote_thisOf {c : ClassId} {es : List SafetyError}
    (h : (Query.promote (.ref (.thisOf c)) reason source).Ends p (n + 1) s es s') :
    ∃ b, (Query.isPromotable (.ref (.thisOf c))).Ends p n s b s' ∧ (es = [] ↔ b = true) := by
  rw [Query.ends_succ, Query.plan] at h
  simp only [Plan.promote, Plan.ends_bind, Plan.ends_ask] at h
  obtain ⟨b, t, hb, h⟩ := h
  cases b with
  | true =>
    obtain ⟨rfl, rfl⟩ := Plan.ends_pure.1 h
    exact ⟨true, hb, iff_of_true rfl rfl⟩
  | false =>
    obtain ⟨e, u, he, h⟩ := Plan.ends_bind.1 h
    obtain ⟨-, rfl⟩ := Plan.ends_raise.1 he
    obtain ⟨rfl, rfl⟩ := Plan.ends_pure.1 h
    exact ⟨false, hb, iff_of_false (List.cons_ne_nil _ _) Bool.false_ne_true⟩

/-- The members of a warm object that is not promotable are tried out in a scope of their own. -/
theorem Query.Ends.promote_warm {w : Warm} {es : List SafetyError}
    (h : (Query.promote (.ref (.warm w)) reason source).Ends p (n + 1) s es s') :
    ∃ b t, (Query.isPromotable (.ref (.warm w))).Ends p n s b t ∧ (b = true → es = []) ∧
      (b = false → ∃ u, (Plan.promoteWarm p w reason source).Ends p n
          ((Scope.promotion (.ref (.warm w))).enter t) es u ∧
        s' = (Scope.promotion (.ref (.warm w))).leave t.toContext es u) := by
  rw [Query.ends_succ, Query.plan] at h
  simp only [Plan.promote, Plan.ends_bind, Plan.ends_ask] at h
  obtain ⟨b, t, hb, h⟩ := h
  refine ⟨b, t, hb, ?_, ?_⟩
  · rintro rfl
    exact (Plan.ends_pure.1 h).1
  · rintro rfl
    obtain ⟨es', u, hpart, h⟩ := Plan.ends_within.1 h
    obtain ⟨rfl, rfl⟩ := Plan.ends_pure.1 h
    exact ⟨u, hpart, rfl⟩

/-- Errors are explained where they are, and nothing changes. -/
theorem Plan.store_of_explain {causes es : List SafetyError}
    (h : (Plan.explain reason causes source).Ends p n s es s') : s' = s := by
  unfold explain at h
  split at h
  · exact (ends_pure.1 h).2
  · obtain ⟨e, t, he, h⟩ := ends_bind.1 h
    obtain ⟨-, rfl⟩ := ends_raise.1 he
    exact (ends_pure.1 h).2

section Closures

variable {body : ExprId} {params : List SymbolId} {frame : Frame} {env : Env}

/-- The body of a closure that is not promotable is run in a scope of its own. -/
theorem Query.Ends.promote_closure {es : List SafetyError}
    (h : (Query.promote (.closure body params frame env) reason source).Ends p (n + 1) s es s') :
    ∃ b t, (Query.isPromotable (.closure body params frame env)).Ends p n s b t ∧
      (b = true → es = []) ∧
      (b = false → ∃ es' u, (Plan.promoteBody body params frame env reason source).Ends p n
          ((Scope.promotion (.closure body params frame env)).enter t) es' u ∧
        (es = [] ↔ es' = []) ∧
        s' = (Scope.promotion (.closure body params frame env)).leave t.toContext es' u) := by
  rw [Query.ends_succ, Query.plan] at h
  simp only [Plan.promote, Plan.ends_bind, Plan.ends_ask] at h
  obtain ⟨b, t, hb, h⟩ := h
  refine ⟨b, t, hb, ?_, ?_⟩
  · rintro rfl
    exact (Plan.ends_pure.1 h).1
  · rintro rfl
    obtain ⟨es', u, hpart, h⟩ := Plan.ends_within.1 h
    exact ⟨es', u, hpart, Plan.ends_explain_eq_nil h, Plan.store_of_explain h⟩

/-- The body of a closure is run with hot parameters, and its value is promoted. -/
theorem Plan.ends_promoteBody {es : List SafetyError}
    (h : (Plan.promoteBody body params frame env reason source).Ends p n s es s') :
    ∃ o t es', (Query.eval body frame false).Ends p n
        { s with env := env.extend (params.map (·, .hot)) } o t ∧
      (Query.promote o.value reason source).Ends p n { t with env := s.env } es' s' ∧
      es = o.errors ++ es' := by
  obtain ⟨o, t, hscope, h⟩ := ends_bind.1 h
  obtain ⟨t, hbody, rfl⟩ := ends_inEnv.1 hscope
  rw [bind_pure_comp, ends_map] at h
  obtain ⟨o', hrequire, rfl⟩ := h
  rw [requireHot, bind_pure_comp, ends_map] at hrequire
  obtain ⟨es', hpromote, rfl⟩ := hrequire
  exact ⟨o, t, es', ends_ask.1 hbody, ends_ask.1 hpromote, rfl⟩

end Closures

/-- A member is used, and the value is promoted. -/
theorem Plan.ends_tryUse {q : Query Outcome} {at' : Span} {es : List SafetyError}
    (h : (Plan.tryUse q at' reason source).Ends p n s es s') :
    ∃ o t es' u, q.Ends p n { s with trace := s.trace.add at' } o t ∧
      (Query.promote o.value reason source).Ends p n t es' u ∧ es = o.errors ++ es' ∧
      s' = { u with trace := s.trace } := by
  rw [tryUse, ends_calledFrom] at h
  obtain ⟨u, h, rfl⟩ := h
  obtain ⟨o, t, huse, h⟩ := ends_bind.1 h
  rw [bind_pure_comp, ends_map] at h
  obtain ⟨o', hrequire, rfl⟩ := h
  rw [requireHot, bind_pure_comp, ends_map] at hrequire
  obtain ⟨es', hpromote, rfl⟩ := hrequire
  exact ⟨o, t, es', u, ends_ask.1 huse, ends_ask.1 hpromote, rfl, rfl⟩

/-! ## Later stores -/

/-- What is in the heap and in the cache of the first store is in those of the second one, whatever
    is trusted. -/
def Store.Precedes (s : Store) (p : Program) (s' : Store) : Prop :=
  ∃ trusted, ({ s with trusted } : Store).Keeps p s'

namespace Store.Precedes

theorem refl (s : Store) : s.Precedes p s := ⟨s.trusted, .refl p s⟩

theorem heap (h : s.Precedes p s') : s.heap.Extends s'.heap := h.choose_spec.heap

theorem cached (h : s.Precedes p s') {a : Addr} {e : ExprId} (hit : s.cache.find? a e = some v) :
    s'.cache.find? a e = some v :=
  h.choose_spec.cached a e v hit

theorem congr (h : s.Precedes p s') (heap : t.heap = s.heap) (cache : t.cache = s.cache) :
    t.Precedes p s' :=
  h.imp fun _ h => h.congr heap cache rfl rfl rfl rfl

end Store.Precedes

theorem Store.Keeps.trans_precedes (h : s.Keeps p s') (later : s'.Precedes p t) :
    s.Precedes p t := by
  obtain ⟨trusted, later⟩ := later
  have first : ({ s with trusted } : Store).Keeps p { s' with trusted } :=
    ⟨h.heap, h.cached, fun _ hw => hw, h.filled⟩
  exact ⟨trusted, first.trans later⟩

theorem Scope.cache_leave_promotion (context : Context) (es : List SafetyError) (s : Store) :
    ((Scope.promotion v).leave context es s).cache = s.cache := by
  rw [leave]
  split <;> rfl

/-- The part of the first attempt from `t` to `t'` leads to `s'`: what is there is there at the end,
    and what becomes trusted is trusted at the end. -/
structure Store.LeadsTo (p : Program) (t t' s' : Store) : Prop where
  precedes : t'.Precedes p s'
  trusted : ∀ w, t'.trusted.contains w → s'.trusted.contains w ∨ t.trusted.contains w

/-- So do the parts of this part. -/
theorem Store.LeadsTo.part (h : t.LeadsTo p t' s') (before : t.Keeps p u) (after : u'.Keeps p t') :
    u.LeadsTo p u' s' where
  precedes := after.trans_precedes h.precedes
  trusted w hw := (h.trusted w (after.trusted w hw)).imp_right (before.trusted w)

/-- What is tried out in a promotion leads to `s'`, if the whole promotion does. -/
theorem Store.LeadsTo.inside {context : Context} {es : List SafetyError}
    (h : t.LeadsTo p ((Scope.promotion v).leave context es u') s')
    (keeps : t.trusted.Extends u.trusted) : ((Scope.promotion v).enter u).LeadsTo p u' s' where
  precedes := h.precedes.congr (Scope.heap_leave _ _ _ _).symm
    (Scope.cache_leave_promotion _ _ _).symm
  trusted w hw := by
    change _ ∨ (u.trusted.insert v).contains w
    rw [Trusted.contains_insert, Bool.or_eq_true, beq_iff_eq]
    by_cases same : w = v
    · exact .inr (.inl same)
    · have left := h.trusted w (Scope.contains_leave_promotion.2 ⟨hw, fun h => absurd h same⟩)
      exact left.imp_right fun hw => .inr (keeps w hw)

/-- In the second attempt, the store `r` is the one where the first attempt was at `t`: nothing has
    changed since the first attempt ended in `s'`, apart from what is trusted for the time being. -/
structure Store.Retraces (r s' t : Store) : Prop where
  heap : r.heap = s'.heap
  cache : r.cache = s'.cache
  trusted : ∀ w, r.trusted.contains w ↔ s'.trusted.contains w ∨ t.trusted.contains w

namespace Store.Retraces

theorem congr (h : r.Retraces s' t) (heap : r'.heap = r.heap) (cache : r'.cache = r.cache)
    (trusted : r'.trusted = r.trusted) (trusted' : t'.trusted = t.trusted) : r'.Retraces s' t' where
  heap := heap.trans h.heap
  cache := cache.trans h.cache
  trusted w := by rw [trusted, trusted', h.trusted]

/-- What became trusted in a part of the first attempt is trusted already. -/
theorem step (h : r.Retraces s' t) (keeps : t.trusted.Extends t'.trusted)
    (leads : t.LeadsTo p t' s') : r.Retraces s' t' where
  heap := h.heap
  cache := h.cache
  trusted w := by
    rw [h.trusted]
    exact ⟨fun hw => hw.imp_right (keeps w), fun hw => hw.elim .inl (leads.trusted w)⟩

/-- A promotion begins. -/
theorem enter (h : r.Retraces s' t) :
    ((Scope.promotion v).enter r).Retraces s' ((Scope.promotion v).enter t) where
  heap := h.heap
  cache := h.cache
  trusted w := by
    change (r.trusted.insert v).contains w ↔ _ ∨ (t.trusted.insert v).contains w
    simp only [Trusted.contains_insert, Bool.or_eq_true, h.trusted]
    tauto

/-- A promotion fails. -/
theorem leave (h : r.Retraces s' t) (absent : ¬s'.trusted.contains v) {context context' : Context}
    {es es' : List SafetyError} (errors : es ≠ []) (errors' : es' ≠ []) :
    ((Scope.promotion v).leave context' es' r).Retraces s'
      ((Scope.promotion v).leave context es t) where
  heap := (Scope.heap_leave _ _ _ _).trans h.heap
  cache := (Scope.cache_leave_promotion _ _ _).trans h.cache
  trusted w := by
    simp only [Scope.contains_leave_promotion, h.trusted, errors, errors', imp_false]
    constructor
    · tauto
    · rintro (hw | ⟨hw, other⟩)
      · exact ⟨.inl hw, fun same => absent (same ▸ hw)⟩
      · exact ⟨.inr hw, other⟩

end Store.Retraces

/-! ## Fields and methods that are used again -/

theorem Store.Reads.congr {w : Warm} {f : SymbolId} (h : s.Reads p w f v) (heap : t.heap = s.heap)
    (cache : t.cache = s.cache) : t.Reads p w f v := by
  cases h with
  | kept body onDemand h => exact .kept body (heap ▸ onDemand) (cache ▸ h)
  | stored strict h => exact .stored strict (heap ▸ h)
  | param strict isParam h => exact .param strict isParam (heap ▸ h)

/-- The field keeps its value, if it is not initialized meanwhile. -/
theorem Store.Reads.of_precedes {w : Warm} {f : SymbolId} (h : s.Reads p w f v)
    (later : s.Precedes p s')
    (settled : s.heap.field? (.warm w) f = none → s'.heap.field? (.warm w) f = none) :
    s'.Reads p w f v := by
  cases h with
  | stored strict h => exact .stored strict (later.heap.field h)
  | param strict isParam h => exact .param strict isParam (settled h)
  | kept body onDemand h =>
    exact .kept body (onDemand.imp_right fun h => ⟨h.1, settled h.2⟩) (later.cached h)

/-- A read of the field finds an error, since the field has to be evaluated and its source is
    unknown. -/
structure Store.Unreadable (s : Store) (p : Program) (w : Warm) (f : SymbolId) : Prop where
  unknown : (p.symbol f).body = none
  onDemand : (p.symbol f).isLazy ∨
    ((p.symbol f).isParamAccessor = false ∧ s.heap.field? (.warm w) f = none)

theorem Store.Unreadable.later {w : Warm} {f : SymbolId} (h : s.Unreadable p w f)
    (settled : s.heap.field? (.warm w) f = none → t.heap.field? (.warm w) f = none) :
    t.Unreadable p w f :=
  ⟨h.unknown, h.onDemand.imp_right fun h => ⟨h.1, settled h.2⟩⟩

theorem Store.Unreadable.ends_selectAt {w : Warm} {f : SymbolId} {o : Outcome}
    (h : s.Unreadable p w f) : (Plan.selectAt p (.warm w) f source).Ends p n s o s' ↔
      (Plan.failUnknown p f source).Ends p n s o s' := by
  have initializer : Plan.initializer p (.warm w) f source = Plan.failUnknown p f source := by
    rw [Plan.initializer, h.unknown]
  cases lazy : (p.symbol f).isLazy with
  | true => rw [Plan.selectAt_of_lazy lazy, initializer]
  | false =>
    obtain ⟨param, absent⟩ := h.onDemand.resolve_left (Bool.eq_false_iff.1 lazy)
    rw [Plan.ends_selectAt_of_absent lazy absent, Plan.selectMissing, param,
      if_neg Bool.false_ne_true, initializer]

/-- The same value, and errors where there are errors. -/
def Outcome.Recurs (o o' : Outcome) : Prop := o'.value = o.value ∧ (o'.errors = [] ↔ o.errors = [])

theorem Outcome.Recurs.refl (o : Outcome) : o.Recurs o := ⟨rfl, .rfl⟩

/-- What is not known is not known later, either. -/
theorem Outcome.Recurs.of_failUnknown {f : SymbolId} {o : Outcome}
    (h : (Plan.failUnknown p f source).Ends p n s o s') {m : Nat} {source' : Span} :
    ∃ o', (Plan.failUnknown p f source').Ends p m r o' r ∧ o.Recurs o' := by
  rw [Plan.failUnknown, Plan.ends_fail] at h
  obtain ⟨rfl, -⟩ := h
  exact ⟨_, Plan.ends_fail.2 ⟨rfl, rfl⟩, rfl, by simp [Outcome.ofErrors]⟩

/-! ## First attempts -/

/-- Questions, each with a store in which it is asked, and all questions that their plans ask. -/
structure Inquiries (p : Program) where
  asks : (γ : Type) → Query γ → Store → Prop
  closed : ∀ {β γ} {q : Query β} {r : Query γ} {s t}, asks β q s → (q.plan p).Asks p s r t →
    asks γ r t

instance : CoeFun (Inquiries p) fun _ => (γ : Type) → Query γ → Store → Prop := ⟨Inquiries.asks⟩

/-- What is asked on the way of the question. -/
def Query.inquiries (p : Program) (q : Query β) (s : Store) : Inquiries p where
  asks _ r t := ∃ active, q.Way p s active r t
  closed := fun ⟨_, way⟩ hasks => ⟨_, way.asked hasks⟩

/-- In the environment, the expression asks nothing and has the value. -/
def Program.Immediate (p : Program) (e : ExprId) (frame : Frame) (env : Env) (v : Value) : Prop :=
  ∀ s : Store, s.env = env → (Plan.node p e frame).Ends p 0 s (.ofValue v) s

/-- Whoever finishes an evaluation that is not final leaves the cache as it was. -/
theorem Cache.erase_insert {c : Cache} {a : Addr} {e : ExprId} (miss : c.find? a e = none) :
    (c.insert a e v).erase a e = c := by
  refine congrArg Cache.mk (Std.ExtTreeMap.ext_getElem? fun key => ?_)
  have found := Cache.find?_erase (c.insert a e v) a e key.receiver key.expr
  rw [Cache.find?_insert] at found
  by_cases same : key.receiver = a ∧ key.expr = e
  · obtain ⟨rfl, rfl⟩ := same
    rw [if_pos ⟨rfl, rfl⟩] at found
    exact found.trans miss.symm
  · rw [if_neg same, if_neg same] at found
    exact found

/-- An expression that has its value at once is evaluated without a trace. -/
theorem Query.ends_eval_of_immediate {e : ExprId} {frame : Frame}
    (immediate : p.Immediate e frame s.env v)
    (kept : ∀ u, s.cache.find? frame.receiver e = some u → u = v) :
    (Query.eval e frame false).Ends p (n + 1) s (.ofValue v) s := by
  cases hit : s.cache.find? frame.receiver e with
  | some u =>
    cases kept u hit
    exact Query.eval_of_kept hit
  | none =>
    let inside := { (Scope.evaluation frame.receiver e false).enter s with
      trace := s.trace.add (p.expr e).span }
    have node : (Plan.node p e frame).Ends p n inside (.ofValue v) inside :=
      (immediate inside rfl).mono (Nat.zero_le n)
    refine Query.ends_succ.2 ((Plan.ends_eval_of_miss hit).2
      ⟨_, Plan.ends_calledFrom.2 ⟨inside, node, rfl⟩, ?_⟩)
    change s = { s with cache := (s.cache.insert frame.receiver e .hot).erase frame.receiver e }
    rw [Cache.erase_insert hit]

namespace Inquiries

/-- The promotion of the value is among the questions, and it fails. -/
def Fail (asked : Inquiries p) (v : Value) (t : Store) : Prop :=
  ∃ reason source es t', asked _ (.promote v reason source) t ∧
    (Query.promote v reason source).Answered p t es t' ∧ es ≠ []

/-- What is asked in the first attempt, which ends in the store `s'`. Promotions fail for their
    values alone, and at the end there is nothing that makes up for it. -/
structure Lasting (asked : Inquiries p) (s' : Store) : Prop where
  /-- No evaluation finds errors. -/
  clean : ∀ {e frame final t o t'}, asked _ (.eval e frame final) t →
    (Query.eval e frame final).Answered p t o t' → o.errors = []
  /-- Nothing that a failing value captured has become hot, by what is trusted at the end and what
      was trusted then. -/
  refused : ∀ {v t}, v.isSingle → asked.Fail v t → ∀ u : Store, u.heap = s'.heap →
    (∀ w, u.trusted.contains w → s'.trusted.contains w ∨ t.trusted.contains w) →
      v.ShowsSame p t u
  /-- No field of a failing warm object has been initialized. -/
  settled : ∀ {w t}, asked.Fail (.ref (.warm w)) t → ∀ f, t.heap.field? (.warm w) f = none →
    s'.heap.field? (.warm w) f = none
  /-- The body of a failing closure has its value at once. -/
  bodies : ∀ {body params frame env t}, asked.Fail (.closure body params frame env) t →
    ∃ v, p.Immediate body frame (env.extend (params.map (·, .hot))) v ∧
      ∀ u, s'.cache.find? frame.receiver body = some u → u = v

/-- Everything that the plan asks is among the questions. -/
def Covers (asked : Inquiries p) (x : Plan α) (s : Store) : Prop :=
  ∀ (γ : Type) (r : Query γ) t, x.Asks p s r t → asked γ r t

variable {asked : Inquiries p}

namespace Covers

variable {x : Plan β} {f : β → Plan α} {b : β}

theorem plan {q : Query β} (h : asked β q s) : asked.Covers (q.plan p) s :=
  fun _ _ _ hasks => asked.closed h hasks

theorem ask {q : Query β} (h : asked.Covers (liftM q : Plan β) s) : asked β q s :=
  h _ _ _ .here

theorem left (h : asked.Covers (x >>= f) s) : asked.Covers x s :=
  fun γ r t hasks => h γ r t hasks.bind_left

theorem right (h : asked.Covers (x >>= f) s) (hx : x.Ends p n s b t) : asked.Covers (f b) t :=
  fun γ r u hasks => h γ r u (.bind_right hx hasks)

theorem look_bind {f : Store → Plan α}
    (h : asked.Covers ((liftM Effect.look : Plan Store) >>= f) s) : asked.Covers (f s) s :=
  h.right (n := 0) (Plan.ends_look.2 ⟨rfl, rfl⟩)

theorem inside {scope : Scope β} (h : asked.Covers (.within scope x f) s) :
    asked.Covers x (scope.enter s) :=
  fun γ r t hasks => h γ r t (.inside hasks)

theorem inEnv {env : Env} (h : asked.Covers (Plan.inEnv env x) s) :
    asked.Covers x { s with env } :=
  h.inside

theorem calledFrom (h : asked.Covers (Plan.calledFrom source x) s) :
    asked.Covers x { s with trace := s.trace.add source } :=
  fun γ r t hasks => h γ r t hasks.calledFrom

theorem promoteWarm {w : Warm} {n : Nat} {s t : Store}
    (h : asked.Covers (Plan.promote p (.ref (.warm w)) reason source) s)
    (test : (Query.isPromotable (.ref (.warm w))).Ends p n s false t) :
    asked.Covers (Plan.promoteWarm p w reason source)
      ((Scope.promotion (.ref (.warm w))).enter t) :=
  (h.right (Plan.ends_ask.2 test)).inside

theorem promoteBody {body : ExprId} {params : List SymbolId} {frame : Frame} {env : Env}
    {n : Nat} {s t : Store}
    (h : asked.Covers (Plan.promote p (.closure body params frame env) reason source) s)
    (test : (Query.isPromotable (.closure body params frame env)).Ends p n s false t) :
    asked.Covers (Plan.promoteBody body params frame env reason source)
      ((Scope.promotion (.closure body params frame env)).enter t) :=
  (h.right (Plan.ends_ask.2 test)).inside

end Covers

variable (hs : asked.Lasting s')
include hs

namespace Lasting

/-! ### Members -/

variable {a : Addr} {f : SymbolId} {o : Outcome}

/-- An initializer that is evaluated finds no errors. -/
theorem initializer_clean {e : ExprId} (body : (p.symbol f).body = some e)
    (covers : asked.Covers (Plan.initializer p a f source) u)
    (h : (Plan.initializer p a f source).Ends p n u o u') : o.errors = [] := by
  rw [Plan.initializer, body] at h covers
  obtain ⟨t, ht, rfl⟩ := Plan.ends_calledFrom.1 h
  exact hs.clean covers.calledFrom.ask ⟨n, Plan.ends_ask.1 ht⟩

/-- A member with a body that is run with hot arguments finds no errors. -/
theorem runMember_clean {e : ExprId} {args : List ArgValue} (body : (p.symbol f).body = some e)
    (hot : ∀ arg ∈ args, arg.value = .hot) (covers : asked.Covers (Plan.runMember p a f args) u)
    (h : (Plan.runMember p a f args).Ends p (n + 1) u o u') : o.errors = [] := by
  rw [Plan.runMember_of_body body] at h covers
  by_cases primary : (p.symbol f).isPrimaryConstructor
  · rw [if_pos primary] at covers
    rw [if_pos primary, bind_pure_comp, Plan.ends_map] at h
    obtain ⟨o', h, rfl⟩ := h
    obtain ⟨t, hcall, rfl⟩ := Plan.ends_inEnv.1 h
    obtain ⟨t, hrun, rfl⟩ := Plan.ends_calledFrom.1 hcall
    have clean : o'.errors = [] :=
      hs.clean covers.left.inEnv.calledFrom.ask ⟨_, Plan.ends_ask.1 hrun⟩
    exact clean
  rw [if_neg primary] at h covers
  by_cases constructor : (p.symbol f).isConstructor
  · rw [if_pos constructor] at h covers
    obtain ⟨t, hrun, rfl⟩ := Plan.ends_inEnv.1 h
    exact hs.clean covers.inEnv.ask ⟨_, Plan.ends_ask.1 hrun⟩
  rw [if_neg constructor] at h covers
  by_cases isLocal : (p.symbol f).isLocal
  · rw [if_pos isLocal] at covers
    rw [if_pos isLocal, Plan.ends_look_bind] at h
    obtain ⟨t, hrun, rfl⟩ := Plan.ends_inEnv.1 h
    exact hs.clean covers.look_bind.inEnv.ask ⟨_, Plan.ends_ask.1 hrun⟩
  rw [if_neg isLocal] at covers
  rw [if_neg isLocal, Plan.ends_bind] at h
  obtain ⟨o', t, h, hargs⟩ := h
  rw [bind_pure_comp, Plan.ends_map] at hargs
  obtain ⟨es, hargs, rfl⟩ := hargs
  obtain ⟨rfl, rfl⟩ := (Plan.ends_promoteArguments_of_hot hot).1 hargs
  obtain ⟨t, hrun, rfl⟩ := Plan.ends_inEnv.1 h
  exact List.append_eq_nil_iff.2 ⟨hs.clean covers.left.inEnv.ask ⟨_, Plan.ends_ask.1 hrun⟩, rfl⟩

/-- Where a read of a field finds errors, the source of the field is unknown. -/
theorem unreadable {w : Warm} (covers : asked.Covers (Plan.selectAt p (.warm w) f source) u)
    (h : (Plan.selectAt p (.warm w) f source).Ends p n u o u') (errors : o.errors ≠ []) :
    u.Unreadable p w f := by
  have unknown (covers : asked.Covers (Plan.initializer p (.warm w) f source) u)
      (h : (Plan.initializer p (.warm w) f source).Ends p n u o u') :
      (p.symbol f).body = none := by
    cases body : (p.symbol f).body with
    | none => rfl
    | some e => exact absurd (hs.initializer_clean body covers h) errors
  cases lazy : (p.symbol f).isLazy with
  | true =>
    rw [Plan.selectAt_of_lazy lazy] at h covers
    exact ⟨unknown covers h, .inl lazy⟩
  | false =>
    cases stored : u.heap.field? (.warm w) f with
    | some x =>
      obtain ⟨rfl, -⟩ := (Plan.ends_selectAt_of_stored lazy stored).1 h
      exact absurd rfl errors
    | none =>
      rw [Plan.ends_selectAt_of_absent lazy stored] at h
      rw [Plan.selectAt, lazy, if_neg Bool.false_ne_true] at covers
      have covers := covers.look_bind
      rw [stored] at covers
      change asked.Covers (Plan.selectMissing p (.warm w) f source) u at covers
      rw [Plan.selectMissing] at h covers
      cases param : (p.symbol f).isParamAccessor with
      | true =>
        rw [param, if_pos rfl] at h
        obtain ⟨rfl, -⟩ := Plan.ends_pure.1 h
        exact absurd rfl errors
      | false =>
        rw [param, if_neg Bool.false_ne_true] at h covers
        exact ⟨unknown covers h, .inr ⟨param, stored⟩⟩

section Again

variable {w : Warm} {m : SymbolId}
  (settled : ∀ f, t.heap.field? (.warm w) f = none → s'.heap.field? (.warm w) f = none)
  (later : t'.Precedes p s') (heap : r.heap = s'.heap) (cache : r.cache = s'.cache)
include settled later heap cache

/-- A field that is read a second time has the same value again. -/
theorem select_again {virtual : Bool}
    (ask : asked _ (.select (.ref (.warm w)) m source virtual) t)
    (h : (Query.select (.ref (.warm w)) m source virtual).Ends p n t o t') :
    ∃ o', (Query.select (.ref (.warm w)) m source virtual).Answered p r o' r ∧ o.Recurs o' := by
  cases n with
  | zero => exact absurd h Query.ends_zero
  | succ n =>
    have covers := Covers.plan ask
    have started := h.keeps.heap
    rw [Query.ends_succ] at h
    have absent (f : SymbolId) (hf : t'.heap.field? (.warm w) f = none) :
        s'.heap.field? (.warm w) f = none := settled f (started.absent hf)
    by_cases errors : o.errors = []
    · have ho : o = .ofValue o.value := by
        cases o
        cases errors
        rfl
      rw [ho] at h ⊢
      rcases Plan.reads_of_selectAt h with reads | ⟨before, after, -⟩
      · have reads := (reads.of_precedes later (absent _)).congr heap cache
        exact ⟨_, ⟨2, Query.ends_succ.2 reads.selectAt⟩, .refl _⟩
      · have filled := later.heap.field after
        rw [settled _ before] at filled
        cases filled
    · have unknown := hs.unreadable covers h errors
      have still : r.Unreadable p w _ := unknown.later fun h => by
        rw [heap]
        exact settled _ h
      obtain ⟨o', fails, recurs⟩ := Outcome.Recurs.of_failUnknown (unknown.ends_selectAt.1 h)
      exact ⟨o', ⟨1, Query.ends_succ.2 (still.ends_selectAt.2 fails)⟩, recurs⟩

omit settled heap in
/-- A method that is found for a second call has the same value again. -/
theorem callTarget_again {args args' : List ArgValue} (hot : ∀ arg ∈ args, arg.value = .hot)
    (hot' : ∀ arg ∈ args', arg.value = .hot)
    (covers : asked.Covers (Plan.callTarget p (.warm w) m args source) t)
    (h : (Plan.callTarget p (.warm w) m args source).Ends p n t o t') :
    ∃ k o', (Plan.callTarget p (.warm w) m args' source).Ends p k r o' r ∧ o.Recurs o' := by
  rw [Plan.callTarget] at h covers ⊢
  cases body : (p.symbol m).body with
  | some e =>
    have hasSource : (p.symbol m).hasSource := by simp [Symbol.hasSource, body]
    rw [if_pos hasSource] at h covers ⊢
    obtain ⟨x, hx, rfl⟩ := Plan.ends_calledFrom.1 h
    have clean := hs.runMember_clean body hot covers.calledFrom (hx.mono n.le_succ)
    obtain ⟨y, kept, value⟩ := Plan.runMember_kept body (.inr hot) (hx.mono n.le_succ)
    have hit : r.cache.find? (.warm w) e = some y := cache ▸ later.cached kept
    have second := Plan.runMember_of_kept (n := 0)
      (s := { r with trace := r.trace.add source }) body (.inr hot') hit
    exact ⟨1, _, Plan.ends_calledFrom.2 ⟨_, second, rfl⟩, value.symm, iff_of_true rfl clean⟩
  | none =>
    have hasNone : ¬(p.symbol m).hasSource := by simp [Symbol.hasSource, body]
    rw [if_neg hasNone] at h ⊢
    by_cases harmless : p.isHarmless m
    · rw [if_pos harmless] at h ⊢
      exact ⟨0, o, Plan.ends_pure.2 ⟨(Plan.ends_pure.1 h).1, rfl⟩, .refl o⟩
    · rw [if_neg harmless] at h ⊢
      exact ⟨0, Outcome.Recurs.of_failUnknown h⟩

/-- A method that is called a second time has the same value again. -/
theorem call_again {args args' : List ArgValue} (hot : ∀ arg ∈ args, arg.value = .hot)
    (hot' : ∀ arg ∈ args', arg.value = .hot)
    (ask : asked _ (.call (.ref (.warm w)) m args .virtual source) t)
    (h : (Query.call (.ref (.warm w)) m args .virtual source).Ends p n t o t') :
    ∃ o', (Query.call (.ref (.warm w)) m args' .virtual source).Answered p r o' r ∧
      o.Recurs o' := by
  cases n with
  | zero => exact absurd h Query.ends_zero
  | succ n =>
    have covers : asked.Covers (Plan.callAt p (.warm w) m args .virtual source) t := Covers.plan ask
    have h : (Plan.callAt p (.warm w) m args .virtual source).Ends p n t o t' := Query.ends_succ.1 h
    suffices ∃ k o', (Plan.callAt p (.warm w) m args' .virtual source).Ends p k r o' r ∧
        o.Recurs o' by
      obtain ⟨k, o', hk, recurs⟩ := this
      exact ⟨o', ⟨k + 1, Query.ends_succ.2 hk⟩, recurs⟩
    generalize reached : Plan.target p (.warm w) m .virtual = target at *
    rw [Plan.callAt, reached] at h covers ⊢
    cases isMethod : (p.symbol target).isMethod with
    | true =>
      rw [isMethod, if_pos rfl] at h covers
      rw [if_pos rfl]
      exact hs.callTarget_again later cache hot hot' covers h
    | false =>
      rw [isMethod, if_neg Bool.false_ne_true] at h covers
      rw [if_neg Bool.false_ne_true]
      rw [Plan.ends_look_bind] at h
      have covers := covers.look_bind
      cases stored : t.heap.field? (.warm w) target with
      | some x =>
        rw [stored] at h
        obtain ⟨rfl, rfl⟩ := Plan.ends_pure.1 h
        refine ⟨0, .ofValue x, Plan.ends_look_bind.2 ?_, .refl _⟩
        rw [heap, later.heap.field stored]
        exact Plan.ends_pure.2 ⟨rfl, rfl⟩
      | none =>
        rw [stored] at h covers
        obtain ⟨o', ⟨k, hk⟩, recurs⟩ :=
          hs.select_again settled later heap cache covers.ask (Plan.ends_ask.1 h)
        refine ⟨k, o', Plan.ends_look_bind.2 ?_, recurs⟩
        rw [heap, settled target stored]
        exact Plan.ends_ask.2 hk

end Again

/-! ### Promotions -/

/-- A use of the member `m` of the warm object at `w` as it is tried out: a field is read, a method
    is called with hot arguments. Two uses may differ in these arguments. -/
inductive Uses (w : Warm) (m : SymbolId) (source : Span) :
    Query Outcome → Query Outcome → Prop where
  | field : Uses w m source (.select (.ref (.warm w)) m source true)
    (.select (.ref (.warm w)) m source true)
  | method {args args' : List ArgValue} (hot : ∀ arg ∈ args, arg.value = .hot)
    (hot' : ∀ arg ∈ args', arg.value = .hot) :
    Uses w m source (.call (.ref (.warm w)) m args .virtual source)
      (.call (.ref (.warm w)) m args' .virtual source)

/-- In the store `r`, the plan finds errors if there are some in `es`, and it comes to where the
    first attempt was at `t`. -/
def Redoes (p : Program) (s' : Store) (x : Plan (List SafetyError)) (r : Store)
    (es : List SafetyError) (t : Store) : Prop :=
  x.Meets p r fun es' r' => (es' = [] ↔ es = []) ∧ r'.Retraces s' t

section Again

variable {w : Warm} {m : SymbolId} {es : List SafetyError}

/-- A member that is used a second time has the same value again. -/
theorem use_again {q q' : Query Outcome} (uses : Uses w m source q q')
    (settled : ∀ f, t.heap.field? (.warm w) f = none → s'.heap.field? (.warm w) f = none)
    (later : t'.Precedes p s') (retraces : r.Retraces s' u) (ask : asked _ q t)
    (h : q.Ends p n t o t') : ∃ o', q'.Answered p r o' r ∧ o.Recurs o' := by
  cases uses with
  | field => exact hs.select_again settled later retraces.heap retraces.cache ask h
  | method hot hot' => exact hs.call_again settled later retraces.heap retraces.cache hot hot' ask h

/-- Promotions with questions that are nested up to the depth `n` find errors again. -/
def AgainUpTo (asked : Inquiries p) (s' : Store) (n : Nat) : Prop :=
  ∀ v reason source t es t' r, asked _ (.promote v reason source) t →
    (Query.promote v reason source).Ends p n t es t' → t.LeadsTo p t' s' → r.Retraces s' t →
      Redoes p s' (Query.promote v reason source) r es t'

omit hs in
/-- What follows an outcome that recurs finds errors again. -/
theorem requireHot_again (again : AgainUpTo asked s' n) {o o' : Outcome} (recurs : o.Recurs o')
    (ask : asked _ (.promote o.value reason source) t)
    (h : (Query.promote o.value reason source).Ends p n t es t') (leads : t.LeadsTo p t' s')
    (retraces : r.Retraces s' t) :
    (Plan.requireHot o' reason source).Meets p r fun q r' =>
      (q.errors = [] ↔ o.errors ++ es = []) ∧ r'.Retraces s' t' := by
  obtain ⟨value, clean⟩ := recurs
  rw [Plan.requireHot, value]
  refine Plan.meets_bind ((again _ _ _ _ _ _ _ ask h leads retraces).imp ?_)
  rintro fs r' ⟨same, retraces⟩
  refine Plan.meets_pure ⟨?_, retraces⟩
  simp only [Outcome.followedBy, List.append_eq_nil_iff, clean, same]

/-- A member that is tried out finds errors again. -/
theorem tryUse_again (again : AgainUpTo asked s' n) {q q' : Query Outcome} {at' : Span}
    (uses : Uses w m source q q')
    (settled : ∀ f, t.heap.field? (.warm w) f = none → s'.heap.field? (.warm w) f = none)
    (covers : asked.Covers (Plan.tryUse q at' reason source) t)
    (h : (Plan.tryUse q at' reason source).Ends p n t es t') (leads : t.LeadsTo p t' s')
    (retraces : r.Retraces s' t) : Redoes p s' (Plan.tryUse q' at' reason source) r es t' := by
  obtain ⟨o, u, fs, u', hq, hpromote, rfl, rfl⟩ := Plan.ends_tryUse h
  have ask := covers.calledFrom.left.ask
  have ask' := (covers.calledFrom.right (Plan.ends_ask.2 hq)).left.left.ask
  have first : t.Keeps p u := (hq.keeps).congr rfl rfl rfl rfl rfl rfl
  have last : u.Keeps p { u' with trace := t.trace } :=
    (hpromote.keeps).congr rfl rfl rfl rfl rfl rfl
  have before : t.LeadsTo p u s' := leads.part (.refl p t) last
  have after : u.LeadsTo p u' s' :=
    leads.part first ((Store.Keeps.refl p u').congr rfl rfl rfl rfl rfl rfl)
  obtain ⟨o', ⟨k, hk⟩, recurs⟩ := hs.use_again (t := { t with trace := t.trace.add at' })
    (r := { r with trace := r.trace.add at' }) uses settled before.precedes
    (retraces.congr rfl rfl rfl rfl) ask hq
  refine Plan.meets_calledFrom (Plan.meets_bind ⟨k, o', _, Plan.ends_ask.2 hk, ?_⟩)
  refine Plan.meets_bind ((requireHot_again again recurs ask' hpromote after ?_).imp ?_)
  · exact (retraces.step first.trusted before).congr rfl rfl rfl rfl
  · rintro q r' ⟨same, retraces⟩
    exact Plan.meets_pure ⟨same, retraces.congr rfl rfl rfl rfl⟩

omit hs in
/-- If each element finds errors again, so does a list of them. -/
theorem errorsOfEach_again {xs : List α} {f f' : α → Plan (List SafetyError)}
    (alike : ∀ x, Plan.Alike false Eq ErrorsAlike (f x) (f x))
    (covers : asked.Covers (Plan.errorsOfEach xs f) t)
    (h : (Plan.errorsOfEach xs f).Ends p n t es t') (leads : t.LeadsTo p t' s')
    (retraces : r.Retraces s' t)
    (step : ∀ x ∈ xs, ∀ u es u' r, asked.Covers (f x) u → t.heap.Extends u.heap →
      (f x).Ends p n u es u' → u.LeadsTo p u' s' → r.Retraces s' u → Redoes p s' (f' x) r es u') :
    Redoes p s' (Plan.errorsOfEach xs f') r es t' := by
  induction xs generalizing t r es with
  | nil =>
    obtain ⟨rfl, rfl⟩ := Plan.ends_pure.1 h
    exact Plan.meets_pure ⟨.rfl, retraces⟩
  | cons x xs ih =>
    obtain ⟨fs, u, gs, hx, hxs, rfl⟩ := Plan.ends_errorsOfEach_cons.1 h
    rw [Plan.errorsOfEach_cons] at covers ⊢
    have first : t.Keeps p u := (alike x).keeps (fun q s b s' h => h.keeps) hx
    have rest : u.Keeps p t' :=
      (Plan.Alike.errorsOfEach_same xs alike).keeps (fun q s b s' h => h.keeps) hxs
    refine Plan.meets_bind ((step x List.mem_cons_self t fs u r covers.left (.refl _) hx
      (leads.part (.refl p t) rest) retraces).imp ?_)
    rintro fs' r' ⟨same, retraces'⟩
    refine Plan.meets_bind ((ih (covers.right hx).left hxs (leads.part first (.refl p t')) retraces'
      fun y hy v es v' r covers later h leads retraces => ?_).imp ?_)
    · exact step y (List.mem_cons_of_mem x hy) v es v' r covers (first.heap.trans later) h leads
        retraces
    · rintro gs' r'' ⟨same', retraces''⟩
      refine Plan.meets_pure ⟨?_, retraces''⟩
      simp only [List.append_eq_nil_iff, same, same']

omit hs in
/-- What failed at once fails again. -/
theorem failPromotion_again (h : (Plan.failPromotion reason source).Ends p n t es t')
    (retraces : r.Retraces s' t) : Redoes p s' (Plan.failPromotion reason source) r es t' := by
  obtain ⟨e, u, he, h⟩ := Plan.ends_bind.1 h
  obtain ⟨-, rfl⟩ := Plan.ends_raise.1 he
  obtain ⟨rfl, rfl⟩ := Plan.ends_pure.1 h
  exact ⟨0, _, r,
    Plan.ends_bind.2 ⟨_, r, Plan.ends_raise.2 ⟨rfl, rfl⟩, Plan.ends_pure.2 ⟨rfl, rfl⟩⟩,
    iff_of_false (List.cons_ne_nil _ _) (List.cons_ne_nil _ _), retraces⟩

omit hs in
/-- Errors are explained again. -/
theorem explain_again {causes : List SafetyError} (same : causes = [] ↔ es = [])
    (retraces : r.Retraces s' t) : Redoes p s' (Plan.explain reason causes source) r es t := by
  unfold Plan.explain
  by_cases none : causes = []
  · subst none
    exact Plan.meets_pure ⟨same, retraces⟩
  · rw [if_neg (by rwa [List.isEmpty_iff])]
    exact ⟨0, _, r, Plan.ends_bind.2 ⟨_, r, Plan.ends_raise.2 ⟨rfl, rfl⟩,
      Plan.ends_pure.2 ⟨rfl, rfl⟩⟩, iff_of_false (List.cons_ne_nil _ _) (none ∘ same.2), retraces⟩

/-- The members of a warm object that are tried out find errors again. -/
theorem promoteWarm_again (again : AgainUpTo asked s' n)
    (settled : ∀ f, t.heap.field? (.warm w) f = none → s'.heap.field? (.warm w) f = none)
    (covers : asked.Covers (Plan.promoteWarm p w reason source) t)
    (h : (Plan.promoteWarm p w reason source).Ends p n t es t') (leads : t.LeadsTo p t' s')
    (retraces : r.Retraces s' t) : Redoes p s' (Plan.promoteWarm p w reason source) r es t' := by
  by_cases classes : p.hasMemberClasses w.cls
  · rw [Plan.promoteWarm, if_pos classes] at h ⊢
    exact failPromotion_again h retraces
  rw [Plan.promoteWarm, if_neg classes] at h covers ⊢
  obtain ⟨fs, u, hfields, h⟩ := Plan.ends_bind.1 h
  have covers' := (covers.right hfields).look_bind.left
  rw [Plan.ends_look_bind] at h
  obtain ⟨ms, u', hmethods, hexplain⟩ := Plan.ends_bind.1 h
  obtain rfl := Plan.store_of_explain hexplain
  have alikeField (f : SymbolId) : Plan.Alike false Eq ErrorsAlike
      (Plan.tryUse (Query.select (.ref (.warm w)) f source true) (p.symbol f).span reason source)
      (Plan.tryUse (Query.select (.ref (.warm w)) f source true) (p.symbol f).span reason source) :=
    Plan.alike_tryUse (.ask_self (.select _ f source true) rfl) _ reason source
  have alikeMethod (trace : Trace) (m : SymbolId) : Plan.Alike false Eq ErrorsAlike
      (Plan.tryUse (Query.call (.ref (.warm w)) m
        ((p.symbol m).params.map fun _ => ArgValue.mk .hot source trace) .virtual source)
        (p.symbol m).span reason source)
      (Plan.tryUse (Query.call (.ref (.warm w)) m
        ((p.symbol m).params.map fun _ => ArgValue.mk .hot source trace) .virtual source)
        (p.symbol m).span reason source) :=
    Plan.alike_tryUse (.ask_self (.call _ m .virtual source (.refl _)) rfl) _ reason source
  have hot (trace : Trace) (m : SymbolId) :
      ∀ arg ∈ (p.symbol m).params.map fun _ => ArgValue.mk .hot source trace, arg.value = .hot := by
    intro arg harg
    obtain ⟨_, -, rfl⟩ := List.mem_map.1 harg
    rfl
  have first : t.Keeps p u :=
    (Plan.Alike.errorsOfEach_same _ alikeField).keeps (fun q s b s' h => h.keeps) hfields
  have rest : u.Keeps p t' :=
    (Plan.Alike.errorsOfEach_same _ (alikeMethod u.trace)).keeps (fun q s b s' h => h.keeps)
      hmethods
  refine Plan.meets_bind ((errorsOfEach_again alikeField covers.left hfields
    (leads.part (.refl p t) rest) retraces fun f _ v es v' r covers later h leads retraces =>
      hs.tryUse_again again .field (fun f absent => settled f (later.absent absent)) covers h leads
        retraces).imp ?_)
  rintro fs' r' ⟨same, retraces'⟩
  refine Plan.meets_look_bind (Plan.meets_bind ((errorsOfEach_again (alikeMethod u.trace) covers'
    hmethods (leads.part first (.refl p t')) retraces' fun m _ v es v' r covers later h leads
      retraces => hs.tryUse_again again (.method (hot u.trace m) (hot r'.trace m))
        (fun f absent => settled f ((first.heap.trans later).absent absent)) covers h leads
          retraces).imp ?_))
  rintro ms' r'' ⟨same', retraces''⟩
  refine explain_again ?_ retraces''
  rw [Plan.ends_explain_eq_nil hexplain]
  simp only [List.append_eq_nil_iff, same, same']

omit hs in
/-- The body of a closure that has its value at once finds errors again. -/
theorem promoteBody_again (again : AgainUpTo asked s' n) {body : ExprId}
    {params : List SymbolId} {frame : Frame} {env : Env} {v : Value}
    (immediate : p.Immediate body frame (env.extend (params.map (·, .hot))) v)
    (kept : ∀ u, s'.cache.find? frame.receiver body = some u → u = v)
    (covers : asked.Covers (Plan.promoteBody body params frame env reason source) t)
    (h : (Plan.promoteBody body params frame env reason source).Ends p n t es t')
    (leads : t.LeadsTo p t' s') (retraces : r.Retraces s' t) :
    Redoes p s' (Plan.promoteBody body params frame env reason source) r es t' := by
  have keeps : t.Keeps p t' := (Plan.alike_promoteBody body params frame env reason source).keeps
    (fun q s b s' h => h.keeps) h
  have first : (Query.eval body frame false).Ends p 1
      { t with env := env.extend (params.map (·, .hot)) } (.ofValue v)
      { t with env := env.extend (params.map (·, .hot)) } :=
    Query.ends_eval_of_immediate immediate fun u hit =>
      kept u ((keeps.trans_precedes leads.precedes).cached hit)
  have second : (Query.eval body frame false).Ends p 1
      { r with env := env.extend (params.map (·, .hot)) } (.ofValue v)
      { r with env := env.extend (params.map (·, .hot)) } := by
    refine Query.ends_eval_of_immediate immediate fun u hit => kept u ?_
    rwa [← retraces.cache]
  obtain ⟨o, u, fs, hbody, hpromote, rfl⟩ := Plan.ends_promoteBody h
  have run := Plan.ends_inEnv.2 ⟨u, Plan.ends_ask.2 hbody, rfl⟩
  have ask := (covers.right run).left.left.ask
  obtain ⟨rfl, rfl⟩ := Query.Answered.unique ⟨n, hbody⟩ ⟨1, first⟩
  refine Plan.meets_bind (Plan.meets_inEnv ⟨1, .ofValue v, _, Plan.ends_ask.2 second, ?_⟩)
  refine Plan.meets_bind ((requireHot_again again (.refl _) ask hpromote leads retraces).imp ?_)
  exact fun q r' h => Plan.meets_pure h

/-- A test that fails in the first attempt has the same answer in the second one. -/
theorem test_again {b : Bool} (single : v.isSingle) (failed : asked.Fail v t)
    (h : (Query.isPromotable v).Ends p n t b u) (later : u.Keeps p t') (leads : t.LeadsTo p t' s')
    (retraces : r.Retraces s' t) :
    (Query.isPromotable v).Ends p n r b r ∧ r.Retraces s' u := by
  have leads' := leads.part (.refl p t) later
  refine ⟨Query.isPromotable_again h ?_ (fun w hw => ?_) ?_, retraces.step h.keeps.trusted leads'⟩
  · rw [retraces.heap]
    exact h.keeps.heap.trans leads'.precedes.heap
  · exact (retraces.trusted w).2 (leads'.trusted w hw)
  · exact hs.refused single failed r retraces.heap fun w => (retraces.trusted w).1

/-- What is tried out in a promotion that fails finds errors again, and then the value is taken
    back. -/
theorem promotion_again (single : v.isSingle) (failed : asked.Fail v t)
    {part : Plan (List SafetyError)} (alike : Plan.Alike false Eq ErrorsAlike part part)
    (test : (Query.isPromotable v).Ends p n t false u)
    (h : part.Ends p n ((Scope.promotion v).enter u) es u') (errors : es ≠ [])
    (leads : t.LeadsTo p ((Scope.promotion v).leave u.toContext es u') s')
    (retraces : r.Retraces s' t)
    (redoes : ((Scope.promotion v).enter u).LeadsTo p u' s' →
      ((Scope.promotion v).enter r).Retraces s' ((Scope.promotion v).enter u) →
        Redoes p s' part ((Scope.promotion v).enter r) es u') :
    (Query.isPromotable v).Ends p n r false r ∧
      (Plan.within (.promotion v) part .pure).Meets p r fun es' r' => es' ≠ [] ∧
        r'.Retraces s' ((Scope.promotion v).leave u.toContext es u') := by
  have warm : v ≠ .cold := by
    rintro rfl
    cases single
  obtain ⟨answer, learns⟩ := Query.isPromotable_shows test
  have absent : ¬u.trusted.contains v := fun present => by
    rcases learns.shown v present with before | ⟨-, shown⟩
    · exact Plan.untrusted_of_isPromotable warm test before
    · cases answer.2 shown
  obtain ⟨second, retraces⟩ := hs.test_again single failed test
    (Plan.promotion_keeps (fun q s b s' h => h.keeps) alike (.refl p u) absent h) leads retraces
  have refused : ¬r.trusted.contains v := Plan.untrusted_of_isPromotable warm second
  refine ⟨second, Plan.meets_within ((redoes (leads.inside test.keeps.trusted)
    retraces.enter).imp ?_)⟩
  rintro es' r' ⟨same, retraces'⟩
  have errors' : es' ≠ [] := fun none => errors (same.1 none)
  refine ⟨errors', retraces'.leave (fun kept => refused ?_) errors errors'⟩
  exact (retraces.trusted v).2 (.inl kept)

/-- The second attempt at a promotion finds errors if the first one did. -/
theorem again (n : Nat) : AgainUpTo asked s' n := by
  induction n with
  | zero => exact fun _ _ _ _ _ _ _ _ h => absurd h Query.ends_zero
  | succ n ih =>
    intro v reason source t es t' r ask h leads retraces
    by_cases clean : es = []
    · subst clean
      have accepted : r.Accepts v := by
        refine (Query.accepts_of_promote h).of_trusted fun w hw => ?_
        exact (retraces.trusted w).2 (leads.trusted w hw)
      obtain ⟨m, hm⟩ := accepted.promote reason source
      exact ⟨m, [], r, Plan.ends_ask.2 hm, .rfl, retraces.step h.keeps.trusted leads⟩
    have failed : asked.Fail v t := ⟨reason, source, es, t', ask, ⟨_, h⟩, clean⟩
    have covers := Covers.plan ask
    refine Plan.meets_ask ?_
    cases v with
    | hot => exact absurd (Plan.ends_pure.1 (Query.ends_succ.1 h)).1 clean
    | cold => exact failPromotion_again (Query.ends_succ.1 h) retraces
    | oneOf vs =>
      refine errorsOfEach_again (fun v => Plan.alike_askPromote v reason source) covers
        (Query.ends_succ.1 h) leads retraces fun v _ u es u' r covers _ h leads retraces => ?_
      exact ih v reason source u es u' r covers.ask (Plan.ends_ask.1 h) leads retraces
    | ref a =>
      cases a with
      | thisOf c =>
        obtain ⟨b, hb, fails⟩ := h.promote_thisOf
        cases b with
        | true => exact absurd (fails.2 rfl) clean
        | false =>
          obtain ⟨second, retraces⟩ := hs.test_again rfl failed hb (.refl p t') leads retraces
          refine Plan.meets_bind ⟨n, false, r, Plan.ends_ask.2 second, ?_⟩
          refine ⟨0, _, r, Plan.ends_bind.2 ⟨_, r, Plan.ends_raise.2 ⟨rfl, rfl⟩,
            Plan.ends_pure.2 ⟨rfl, rfl⟩⟩, iff_of_false (List.cons_ne_nil _ _) clean, retraces⟩
      | warm w =>
        obtain ⟨b, u, test, found, tried⟩ := h.promote_warm
        cases b with
        | true => exact absurd (found rfl) clean
        | false =>
          obtain ⟨u', hpart, rfl⟩ := tried rfl
          have settled (f : SymbolId) (absent : u.heap.field? (.warm w) f = none) :=
            hs.settled failed f (test.keeps.heap.absent absent)
          obtain ⟨second, fails⟩ := hs.promotion_again rfl failed
            (Plan.alike_promoteWarm w reason source) test hpart clean leads retraces
            (hs.promoteWarm_again ih settled (covers.promoteWarm test) hpart)
          exact Plan.meets_bind ⟨n, false, r, Plan.ends_ask.2 second,
            fails.imp fun es' r' h => ⟨iff_of_false h.1 clean, h.2⟩⟩
    | closure body params frame env =>
      obtain ⟨b, u, test, found, tried⟩ := h.promote_closure
      cases b with
      | true => exact absurd (found rfl) clean
      | false =>
        obtain ⟨fs, u', hpart, same, rfl⟩ := tried rfl
        obtain ⟨x, immediate, kept⟩ := hs.bodies failed
        have errors : fs ≠ [] := fun none => clean (same.2 none)
        obtain ⟨second, fails⟩ := hs.promotion_again rfl failed
          (Plan.alike_promoteBody body params frame env reason source) test hpart errors leads
          retraces (promoteBody_again ih immediate kept (covers.promoteBody test) hpart)
        refine Plan.meets_bind ⟨n, false, r, Plan.ends_ask.2 second, ?_⟩
        exact Plan.meets_bind (x := .within (.promotion (.closure body params frame env))
          (Plan.promoteBody body params frame env reason source) .pure)
          (f := fun causes => Plan.explain reason causes source)
          (fails.imp fun es' r' h => explain_again (iff_of_false h.1 clean) h.2)

end Again

end Lasting

end Inquiries

end ObjectInit
