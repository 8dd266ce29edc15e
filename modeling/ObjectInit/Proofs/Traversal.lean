import ObjectInit.Proofs.Regimes

/-!
# Plans under a regime

Every plan keeps to a lawful regime: it asks only questions whose values fit, and its own value
fits. This holds of all plans but those that run a template, whose effects on the heap are a matter
of the regime.
-/

namespace ObjectInit.Regime

open Plan

variable {p : Program} {R : Regime p} {C : Contract} {s t : Store} {k : Nat}

/-! ## Questions -/

theorem carries_askSelect (g : R.Governs C) (ready : R.Ready s) (serves : R.Serves C s k)
    (hk : 4 < k) {v : Value} {f : SymbolId} {source : Span} {virtual : Bool} {B : Nat}
    (hv : R.Fits s.memory B v) (hf : R.member f) :
    R.Carries C (liftM (Query.select v f source virtual)) s fun o m => R.Fits m 0 o.value :=
  .ask g ready serves hk ⟨⟨B, hv⟩, hf⟩ (by simp [Query.kind])

theorem carries_askCall (g : R.Governs C) (ready : R.Ready s) (serves : R.Serves C s k)
    (hk : 6 < k) {v : Value} {f : SymbolId} {args : List ArgValue} {dispatch : Dispatch}
    {source : Span} {B : Nat} (hv : R.Fits s.memory B v) (hf : R.member f)
    (hargs : ∀ arg ∈ args, ∃ B, R.Fits s.memory B arg.value) :
    R.Carries C (liftM (Query.call v f args dispatch source)) s fun o m => R.Fits m B o.value :=
  Carries.imp (.ask g ready serves hk ⟨⟨B, hv⟩, hf, hargs⟩ (by simp [Query.kind]))
    fun _ _ _ ho => ho B hv

theorem carries_askEnclosing (g : R.Governs C) (ready : R.Ready s) (serves : R.Serves C s k)
    (hk : 1 < k) {target : ClassId} {v : Value} {c : ClassId} {source : Span}
    (hv : R.Fits s.memory 0 v) :
    R.Carries C (liftM (Query.enclosingInstance target v c source)) s fun v m => R.Fits m 0 v :=
  .ask g ready serves hk hv (by simp [Query.kind])

/-- An expression is evaluated whose value is not kept. -/
theorem carries_askEval (g : R.Governs C) (ready : R.Ready s) (serves : R.Serves C s k)
    (hk : 2 < k) {e : ExprId} {frame : Frame} (receiver : R.addr s.memory frame.receiver)
    (code : R.code s.memory e frame) :
    R.Carries C (liftM (Query.eval e frame false)) s fun o m => R.Fits m (R.bound e) o.value :=
  .ask g ready serves hk ⟨receiver, g.lawful.body_of_code _ e frame code, fun _ => code⟩
    (by simp [Query.kind])

/-- An expression is evaluated whose value is kept. -/
theorem carries_askBody (g : R.Governs C) (ready : R.Ready s) (serves : R.Serves C s k)
    (hk : 2 < k) {e : ExprId} {frame : Frame} (receiver : R.addr s.memory frame.receiver)
    (body : R.body s.memory e frame) :
    R.Carries C (liftM (Query.eval e frame true)) s fun o m => R.Fits m 0 o.value :=
  .ask g ready serves hk ⟨receiver, body, nofun⟩ (by simp [Query.kind])

/-! ## Fields -/

theorem carries_initializer (g : R.Governs C) (ready : R.Ready s) (serves : R.Serves C s k)
    (hk : 2 < k) {a : Addr} {f : SymbolId} {source : Span} (ha : R.addr s.memory a)
    (hf : R.member f) (runs : p.RunsOn f a) :
    R.Carries C (initializer p a f source) s fun o m => R.Fits m 0 o.value := by
  unfold initializer
  split
  · next e he =>
    exact .calledFrom <| carries_askBody g (ready.inTrace _) (serves.context g.lawful ready _) hk ha
      (g.lawful.memberBody _ a f e ready.inv ha hf runs he)
  · exact .fail g ready

theorem carries_selectMissing (g : R.Governs C) (ready : R.Ready s) (serves : R.Serves C s k)
    (hk : 2 < k) {a : Addr} {f : SymbolId} {source : Span} (ha : R.addr s.memory a)
    (hf : R.member f) :
    R.Carries C (selectMissing p a f source) s fun o m => R.Fits m 0 o.value := by
  unfold selectMissing
  split
  · split
    · exact .pure g ready .hot
    · exact carries_initializer g ready serves hk ha hf nofun
  · split
    · exact .calledFrom (.fail g (ready.inTrace _))
    · exact .fail g ready

theorem carries_selectAt (g : R.Governs C) (ready : R.Ready s) (serves : R.Serves C s k)
    (hk : 2 < k) {a : Addr} {f : SymbolId} {source : Span} (ha : R.addr s.memory a)
    (hf : R.member f) :
    R.Carries C (selectAt p a f source) s fun o m => R.Fits m 0 o.value := by
  unfold selectAt
  split
  · next lazy => exact carries_initializer g ready serves hk ha hf fun _ _ => .inr lazy
  · refine .look_bind ?_
    split
    · next v hv => exact .pure g ready (g.lawful.field _ a f v ready.inv hv)
    · exact carries_selectMissing g ready serves hk ha hf

theorem carries_select (g : R.Governs C) (ready : R.Ready s) (serves : R.Serves C s k)
    (hk : 2 < k) {v : Value} {f : SymbolId} {source : Span} {virtual : Bool}
    (parts : R.ServesParts C s (.select v f source virtual))
    (admits : R.Admits s.memory (.select v f source virtual)) :
    R.Carries C (select p v f source virtual) s fun o m => R.Fits m 0 o.value := by
  obtain ⟨⟨B, hv⟩, hf⟩ := admits
  unfold select
  split
  · exact .pure g ready .hot
  · exact .fail g ready
  · refine carries_selectAt g ready serves hk hv.of_ref ?_
    split
    · exact g.lawful.virtual _ _ hf
    · exact hf
  · exact .bind g ready (.report g ready) fun _ t _ ready' _ => .pure g ready' .hot
  · next vs =>
    refine .joinEach g ready fun u hu t step ready' => ?_
    exact .ask_part g ready' (parts.step g.lawful step) (.select hu f source virtual)
      ⟨⟨B, step.fits g.lawful (hv.of_oneOf u hu)⟩, hf⟩ (by simp [Query.kind])

/-! ## Promotions -/

theorem carries_promoteArgument (g : R.Governs C) (ready : R.Ready s) (serves : R.Serves C s k)
    (hk : 3 < k) {arg : ArgValue} (harg : ∃ B, R.Fits s.memory B arg.value) :
    R.Carries C (promoteArgument arg) s fun _ _ => True :=
  .inTrace <| .ask g (ready.inTrace _) (serves.context g.lawful ready _) hk harg
    (by simp [Query.kind])

theorem carries_promoteArguments (g : R.Governs C) (ready : R.Ready s) (serves : R.Serves C s k)
    (hk : 3 < k) {args : List ArgValue} (hargs : ∀ arg ∈ args, ∃ B, R.Fits s.memory B arg.value) :
    R.Carries C (promoteArguments args) s fun _ _ => True := by
  refine .errorsOfEach g ready fun arg harg t step ready' => ?_
  obtain ⟨B, hB⟩ := hargs arg harg
  exact carries_promoteArgument g ready' (serves.step g.lawful step) hk ⟨B, step.fits g.lawful hB⟩

theorem carries_capturesHot (g : R.Governs C) (ready : R.Ready s) {v : Value}
    (parts : R.ServesParts C s (.isPromotable v)) (hv : ∃ B, R.Fits s.memory B v) :
    R.Carries C (capturesHot p v) s fun _ _ => True := by
  obtain ⟨B, hv⟩ := hv
  unfold capturesHot
  split
  · next w =>
    obtain ⟨creation, hw, outer⟩ := g.lawful.creation _ w ready.inv hv.of_ref
    have known : (Effect.creationOf w).run.run s = .ok (creation, s) :=
      Effect.run_creationOf.2 ⟨hw, rfl⟩
    refine Plan.obeys_bind.2 ((Plan.obeys_perform_of_ok known).2 ?_)
    change R.Carries C (if creation.args.all Value.isHot then
      (Query.isPromotable creation.outer : Plan Bool) else Pure.pure false) s fun _ _ => True
    split
    · exact .ask_part g ready parts (.outer hw) ⟨0, outer⟩ (by simp [Query.kind])
    · exact .pure g ready trivial
  · exact .look_bind (.pure g ready trivial)
  · next body params frame env =>
    refine .ask_part g ready parts (.receiver body params frame env) ⟨B, ?_⟩ (by simp [Query.kind])
    cases hv with
    | closure receiver => exact .ref receiver
  · exact .pure g ready trivial

/-- A value that is trusted from now on. -/
theorem carries_trust (g : R.Governs C) (ready : R.Ready s) {v : Value} :
    R.Carries C (liftM (Effect.trust v)) s fun _ _ => True := by
  refine (Plan.obeys_perform_of_ok (a := ()) (t := { s with trusted := s.trusted.insert v }) rfl).2
    ⟨.of_eq g.lawful ready.inv rfl fun w hw => ?_, rfl, trivial⟩
  change (s.trusted.insert v).contains w = true
  rw [Trusted.contains_insert, hw, Bool.or_true]

theorem carries_allM (g : R.Governs C) (ready : R.Ready s) {vs : List Value}
    {test : Value → Plan Bool}
    (htest : ∀ v ∈ vs, ∀ t, R.Step s t → R.Ready t → R.Carries C (test v) t fun _ _ => True) :
    R.Carries C (vs.allM test) s fun _ _ => True := by
  induction vs generalizing s with
  | nil => exact .pure g ready trivial
  | cons v vs ih =>
    refine .bind g ready (htest v List.mem_cons_self s (.refl g.lawful ready.inv) ready)
      fun b t step ready' _ => ?_
    cases b with
    | true =>
      exact ih ready' fun u hu t' step' => htest u (List.mem_cons_of_mem v hu) t'
        (step.trans g.lawful step')
    | false => exact .pure g ready' trivial

theorem carries_isPromotable (g : R.Governs C) (ready : R.Ready s) {v : Value}
    (parts : R.ServesParts C s (.isPromotable v)) (hv : ∃ B, R.Fits s.memory B v) :
    R.Carries C (isPromotable p v) s fun _ _ => True := by
  have captures : R.Carries C (do
      let promotable ← capturesHot p v
      if promotable then
        Effect.trust v
      return promotable) s fun _ _ => True := by
    refine .bind g ready (carries_capturesHot g ready parts hv) fun b t _ ready' _ => ?_
    cases b with
    | true =>
      exact .bind g ready' (carries_trust g ready') fun _ u _ ready'' _ => .pure g ready'' trivial
    | false => exact .pure g ready' trivial
  unfold isPromotable
  split
  · exact .pure g ready trivial
  · exact .pure g ready trivial
  · refine .look_bind ?_
    dsimp only
    split
    · exact .pure g ready trivial
    · split
      · next vs =>
        obtain ⟨B, hv⟩ := hv
        refine carries_allM g ready fun u hu t step ready' => ?_
        exact .ask_part g ready' (parts.step g.lawful step) (.isPromotable hu)
          ⟨B, step.fits g.lawful (hv.of_oneOf u hu)⟩ (by simp [Query.kind])
      · exact captures

theorem carries_requireHot (g : R.Governs C) (ready : R.Ready s) (serves : R.Serves C s k)
    (hk : 3 < k) {o : Outcome} {reason : String} {source : Span} {B : Nat}
    (ho : R.Fits s.memory B o.value) :
    R.Carries C (requireHot o reason source) s fun o' m => R.Fits m B o'.value :=
  .bind g ready (.ask g ready serves hk ⟨B, ho⟩ (by simp [Query.kind])) fun _ _ step ready' _ =>
    .pure g ready' (step.fits g.lawful ho)

theorem carries_tryUse (g : R.Governs C) (ready : R.Ready s) (serves : R.Serves C s k) (hk : 3 < k)
    {use : Plan Outcome} {span : Span} {reason : String} {source : Span} {B : Nat}
    (huse : ∀ context, R.Carries C use { s with toContext := ⟨s.env, context⟩ }
      fun o m => R.Fits m B o.value) :
    R.Carries C (tryUse use span reason source) s fun _ _ => True := by
  refine .calledFrom <| .bind g (ready.inTrace _) (huse _) fun o t step ready' ho => ?_
  have serves' := (serves.context g.lawful ready _).step g.lawful step
  exact .bind g ready' (carries_requireHot g ready' serves' hk ho) fun _ _ _ ready'' _ =>
    .pure g ready'' trivial

/-- All uses of a warm object are tried out, if this may be done at all. -/
theorem carries_promoteWarm (g : R.Governs C) (ready : R.Ready s) (serves : R.Serves C s 9)
    {w : Warm} {reason : String} {source : Span} (hw : R.addr s.memory (.warm w)) :
    R.Carries C (promoteWarm p w reason source) s fun _ _ => True := by
  unfold promoteWarm
  split
  · exact .bind g ready (.raise g ready) fun _ _ _ ready' _ =>
      .pure g ready' trivial
  · refine .bind g ready (.errorsOfEach g ready fun f hf t step ready' => ?_)
      fun _ t step ready' _ => .look_bind <|
        .bind g ready' (.errorsOfEach g ready' fun f hf u step' ready'' => ?_)
          fun _ u step' ready'' _ => ?_
    · have serves' := serves.step g.lawful step
      refine carries_tryUse (B := 0) g ready' serves' (by decide) fun context => ?_
      exact carries_askSelect (B := 0) g (ready'.inTrace _) (serves'.context g.lawful ready' _)
        (by decide) (.ref (step.addr g.lawful hw)) (g.lawful.tried _ f (List.mem_filter.1 hf).1)
    · have step'' := step.trans g.lawful step'
      have serves' := serves.step g.lawful step''
      have hot (args : List SymbolId) (trace : Trace) :
          ∀ arg ∈ args.map fun _ => ArgValue.mk .hot source trace,
            ∃ B, R.Fits u.memory B arg.value := by
        intro arg harg
        obtain ⟨x, -, rfl⟩ := List.mem_map.1 harg
        exact ⟨0, .hot⟩
      refine carries_tryUse (B := 0) g ready'' serves' (by decide) fun context => ?_
      exact carries_askCall g (ready''.inTrace _) (serves'.context g.lawful ready'' _) (by decide)
        (.ref (step''.addr g.lawful hw)) (g.lawful.tried _ f (List.mem_filter.1 hf).1) (hot _ _)
    · unfold explain
      split
      · exact .pure g ready'' trivial
      · exact .bind g ready'' (.raise g ready'') fun _ _ _ ready₃ _ =>
          .pure g ready₃ trivial

theorem carries_failPromotion (g : R.Governs C) (ready : R.Ready s) {reason : String}
    {source : Span} : R.Carries C (failPromotion reason source) s fun _ _ => True :=
  .bind g ready (.raise g ready) fun _ _ _ ready' _ => .pure g ready' trivial

theorem carries_explain (g : R.Governs C) (ready : R.Ready s) {reason : String}
    {causes : List SafetyError} {source : Span} :
    R.Carries C (explain reason causes source) s fun _ _ => True := by
  unfold explain
  split
  · exact .pure g ready trivial
  · exact .bind g ready (.raise g ready) fun _ _ _ ready' _ => .pure g ready' trivial

/-- What is not promotable was not trusted, and may be taken to be hot for a while. -/
theorem carries_promotion {α : Type} (g : R.Governs C) (ready : R.Ready s)
    (serves : R.Serves C s 3) {v : Value} (hcold : v ≠ .cold) (hv : ∃ B, R.Fits s.memory B v)
    {part : Plan (List SafetyError)} {next : List SafetyError → Plan α} {done : α}
    (hpart : ∀ t, R.Step s t → R.Ready t → ¬s.trusted.contains v → t.trusted.contains v →
      R.Carries C part t fun _ _ => True)
    (hnext : ∀ es t, R.Ready t → R.Carries C (next es) t fun _ _ => True) :
    R.Carries C (do
      if ← Query.isPromotable v then
        return done
      .within (.promotion v) part next) s fun _ _ => True := by
  have pre : C.pre (Query.isPromotable v) s :=
    serves.pre _ s (.refl g.lawful ready.inv) (by simp [Query.kind]) ready hv
  refine Plan.obeys_bind.2 (Plan.obeys_ask.2 ⟨pre, fun b t hb hpost => ?_⟩)
  obtain ⟨rel, inv, -⟩ := g.post _ s b t (by simp [Query.kind]) hpost
  obtain ⟨n, ends⟩ := hb
  have step : R.Step s t := ⟨ends.keeps.memory, ends.keeps.trusted, rel, inv⟩
  have ready' := ready.step g.lawful step ends.env
  cases b with
  | true => exact ⟨step, ends.env, trivial⟩
  | false =>
    have untrusted := Plan.untrusted_of_isPromotable hcold ends
    have entered : R.Step t { t with trusted := t.trusted.insert v } := by
      refine .of_eq g.lawful inv rfl fun w hw => ?_
      change (t.trusted.insert v).contains w = true
      rw [Trusted.contains_insert, hw, Bool.or_true]
    have trusted : (t.trusted.insert v).contains v = true := by
      rw [Trusted.contains_insert, beq_self_eq_true, Bool.true_or]
    have inside := hpart _ (step.trans g.lawful entered) (ready'.step g.lawful entered rfl)
      untrusted trusted
    refine Plan.obeys_within.2 (Plan.Obeys.imp inside fun es u hu => ?_)
    have whole := (step.trans g.lawful entered).trans g.lawful hu.1
    -- Only the value itself may have lost its trust, and it had none before.
    have left : R.Step s ((Scope.promotion v).leave t.toContext es u) ∧
        ((Scope.promotion v).leave t.toContext es u).env = s.env := by
      rw [Scope.leave]
      split
      · exact ⟨whole, hu.2.1.trans ends.env⟩
      · refine ⟨⟨whole.memory, fun w hw => ?_, whole.rel, whole.inv⟩, hu.2.1.trans ends.env⟩
        change (u.trusted.erase v).contains w = true
        rw [Trusted.contains_erase, whole.trusted w hw, Bool.and_true, bne_iff_ne]
        rintro rfl
        exact untrusted hw
    refine Plan.Obeys.imp (hnext es _ (ready.step g.lawful left.1 left.2)) fun a r hr => ?_
    exact ⟨left.1.trans g.lawful hr.1, hr.2.1.trans left.2, hr.2.2⟩

/-- The questions that a promotion asks while the value is taken to be hot. -/
structure ServesTrial (R : Regime p) (C : Contract) (s : Store) (v : Value) : Prop where
  warm : ∀ w, v = .ref (.warm w) → ¬s.trusted.contains v → ∀ t, R.Step s t →
    t.trusted.contains v → R.Serves C t 9
  closure : ∀ body params frame env, v = .closure body params frame env →
    ¬s.trusted.contains v → ∀ t, R.Step s t → R.Ready t → t.trusted.contains v →
      ∀ u, R.Fits t.memory (R.bound body) u → ∀ reason source, C.pre (.promote u reason source) t

theorem carries_promote (g : R.Governs C) (ready : R.Ready s) (serves : R.Serves C s 3) {v : Value}
    {reason : String} {source : Span} (parts : R.ServesParts C s (.promote v reason source))
    (trial : R.ServesTrial C s v) (hv : ∃ B, R.Fits s.memory B v) :
    R.Carries C (promote p v reason source) s fun _ _ => True := by
  have ⟨B, fits⟩ := hv
  cases v with
  | hot => exact .pure g ready trivial
  | cold => exact carries_failPromotion g ready
  | oneOf vs =>
    refine .errorsOfEach g ready fun u hu t step ready' => ?_
    exact .ask_part g ready' (parts.step g.lawful step) (.promote hu reason source)
      ⟨B, step.fits g.lawful (fits.of_oneOf u hu)⟩ (by simp [Query.kind])
  | ref a =>
    cases a with
    | thisOf c =>
      refine .bind g ready (.ask g ready serves (by simp [Query.kind]) hv (by simp [Query.kind]))
        fun b t _ ready' _ => ?_
      cases b with
      | true => exact .pure g ready' trivial
      | false => exact carries_failPromotion g ready'
    | warm w =>
      refine carries_promotion (v := .ref (.warm w)) g ready serves nofun hv
        (fun t step ready' untrusted trusted => ?_) fun es t ready' => .pure g ready' trivial
      exact carries_promoteWarm g ready' (trial.warm w rfl untrusted t step trusted)
        (step.addr g.lawful fits.of_ref)
  | closure body params frame env =>
    refine carries_promotion (v := .closure body params frame env) g ready serves (by simp) hv
      (fun t step ready' untrusted trusted => ?_) fun es t ready' => carries_explain g ready'
    cases fits with
    | closure receiver code fresh captured =>
    have inner : R.FitsEnv t.memory (env.extend (params.map (·, .hot))) :=
      FitsEnv.extend (fun x v hx => step.fits g.lawful (captured x v hx)) fits_hotParams
    have result : R.Carries C (liftM (Query.eval body frame false))
        { t with env := env.extend (params.map (·, .hot)) } fun o m =>
          R.Fits m (R.bound body) o.value :=
      carries_askEval g (ready'.inEnv inner)
        ((serves.step g.lawful step).context g.lawful ready' _) (by decide)
        (step.addr g.lawful receiver) (step.code g.lawful code)
    refine .bind g ready' (.inEnv result) fun o u step' ready'' ho => ?_
    have pre := trial.closure body params frame env rfl untrusted u (step.trans g.lawful step')
      ready'' (step'.trusted _ trusted) o.value ho reason source
    have required : R.Carries C (requireHot o reason source) u fun _ _ => True :=
      .bind g ready'' (.ask_of_pre g pre (by simp [Query.kind])) fun _ _ _ ready₃ _ =>
        .pure g ready₃ trivial
    exact .bind g ready'' required fun _ _ _ ready₃ _ => .pure g ready₃ trivial

/-! ## Calls -/

theorem carries_runMember (g : R.Governs C) (ready : R.Ready s) (serves : R.Serves C s k)
    (hk : 3 < k) {a : Addr} {f : SymbolId} {args : List ArgValue} (ha : R.addr s.memory a)
    (hbody : ∀ e, (p.symbol f).body = some e → R.body s.memory e ⟨a, p.homeClass f⟩)
    (hargs : ∀ arg ∈ args, ∃ B, R.Fits s.memory B arg.value) :
    R.Carries C (runMember p a f args) s fun o m => R.Fits m 0 o.value := by
  cases he : (p.symbol f).body with
  | none =>
    rw [runMember, he]
    exact .pure g ready .hot
  | some e =>
    have run {env : Env} (fits : R.FitsEnv s.memory env) (trace : Trace) :
        R.Carries C (liftM (Query.eval e ⟨a, p.homeClass f⟩ true))
          { s with env := env, trace := trace } fun o m => R.Fits m 0 o.value :=
      carries_askBody g ((ready.inEnv fits).inTrace _) (serves.context g.lawful ready ⟨env, trace⟩)
        (Nat.lt_of_succ_lt hk) ha (hbody e he)
    rw [runMember_of_body he]
    dsimp only
    split
    · refine .bind g ready (.inEnv (.calledFrom (run (.ofList fits_widenedBindings) _)))
        fun o t step ready' _ => .pure g ready' (.ref (step.addr g.lawful ha))
    split
    · exact .inEnv (run (.ofList fits_widenedBindings) s.trace)
    split
    · exact .look_bind (.inEnv (run (ready.env.extend fits_widenedBindings) s.trace))
    · refine .bind g ready (.inEnv (run (.ofList fits_hotParams) s.trace))
        fun o t step ready' ho => ?_
      refine .bind g ready' (carries_promoteArguments g ready' (serves.step g.lawful step) hk
        fun arg harg => ?_) fun es u step' ready'' _ => .pure g ready'' (step'.fits g.lawful ho)
      obtain ⟨B, hB⟩ := hargs arg harg
      exact ⟨B, step.fits g.lawful hB⟩

theorem carries_callTarget (g : R.Governs C) (ready : R.Ready s) (serves : R.Serves C s k)
    (hk : 3 < k) {a : Addr} {f : SymbolId} {args : List ArgValue} {source : Span}
    (ha : R.addr s.memory a)
    (hbody : ∀ e, (p.symbol f).body = some e → R.body s.memory e ⟨a, p.homeClass f⟩)
    (hargs : ∀ arg ∈ args, ∃ B, R.Fits s.memory B arg.value) :
    R.Carries C (callTarget p a f args source) s fun o m => R.Fits m 0 o.value := by
  unfold callTarget
  split
  · exact .calledFrom <| carries_runMember g (ready.inTrace _) (serves.context g.lawful ready _) hk
      ha hbody hargs
  · split
    · exact .pure g ready .hot
    · exact .fail g ready

theorem carries_callAt (g : R.Governs C) (ready : R.Ready s) (serves : R.Serves C s k)
    (hk : 4 < k) {a : Addr} {f : SymbolId} {args : List ArgValue} {dispatch : Dispatch}
    {source : Span} (ha : R.addr s.memory a) (hf : R.member f)
    (hargs : ∀ arg ∈ args, ∃ B, R.Fits s.memory B arg.value) :
    R.Carries C (callAt p a f args dispatch source) s fun o m => R.Fits m 0 o.value := by
  have htarget : R.member (target p a f dispatch) := by
    cases dispatch with
    | direct => exact hf
    | virtual => exact g.lawful.virtual _ _ hf
    | fromBase base => exact g.lawful.super _ base _ hf
  unfold callAt
  dsimp only
  split
  · next isMethod =>
    exact carries_callTarget g ready serves (Nat.lt_of_succ_lt hk) ha
      (fun e he => g.lawful.memberBody _ a _ e ready.inv ha htarget (fun _ _ => .inl isMethod) he)
      hargs
  · refine .look_bind ?_
    split
    · next v hv => exact .pure g ready (g.lawful.field _ a _ v ready.inv hv)
    · exact carries_askSelect g ready serves hk (.ref (B := 0) ha) htarget

theorem carries_call (g : R.Governs C) (ready : R.Ready s) (serves : R.Serves C s k)
    (hk : 4 < k) {v : Value} {f : SymbolId} {args : List ArgValue} {dispatch : Dispatch}
    {source : Span} (parts : R.ServesParts C s (.call v f args dispatch source)) {B : Nat}
    (hv : R.Fits s.memory B v) (hf : R.member f)
    (hargs : ∀ arg ∈ args, ∃ B, R.Fits s.memory B arg.value) :
    R.Carries C (call p v f args dispatch source) s fun o m => R.Fits m B o.value := by
  have promoted {t : Store} (step : R.Step s t) (ready' : R.Ready t) :
      R.Carries C (promoteArguments args) t fun _ _ => True := by
    refine carries_promoteArguments g ready' (serves.step g.lawful step) (Nat.lt_of_succ_lt hk)
      fun arg harg => ?_
    obtain ⟨B, hB⟩ := hargs arg harg
    exact ⟨B, step.fits g.lawful hB⟩
  cases v with
  | hot =>
    exact .bind g ready (promoted (.refl g.lawful ready.inv) ready) fun _ _ _ ready' _ =>
      .pure g ready' .hot
  | cold =>
    refine .bind g ready (.fail (B := 0) g ready) fun o t step ready' ho => ?_
    exact .bind g ready' (promoted step ready') fun _ _ step' ready'' _ =>
      .pure g ready'' ((step'.fits g.lawful ho).of_zero g.lawful)
  | ref a =>
    exact (carries_callAt g ready serves hk hv.of_ref hf hargs).imp fun _ _ _ ho =>
      ho.of_zero g.lawful
  | closure body params frame env =>
    have closed := hv
    cases hv with
    | closure receiver code fresh captured =>
    unfold call
    dsimp only
    split
    · have inner : R.FitsEnv s.memory (env.extend (params.map (·, .hot))) :=
        FitsEnv.extend captured fits_hotParams
      have run : R.Carries C (liftM (Query.eval body frame true))
          { s with env := env.extend (params.map (·, .hot)), trace := s.trace.add source }
          fun o m => R.Fits m 0 o.value :=
        carries_askBody g ((ready.inEnv inner).inTrace _) (serves.context g.lawful ready ⟨_, _⟩)
          (by omega) receiver (g.lawful.body_of_code _ body frame code)
      refine .bind g ready (.calledFrom (.inEnv run)) fun o t step ready' ho => ?_
      exact .bind g ready' (promoted step ready') fun _ _ step' ready'' _ =>
        .pure g ready'' ((step'.fits g.lawful ho).of_zero g.lawful)
    · exact .pure g ready closed
  | oneOf vs =>
    refine .joinEach g ready fun u hu t step ready' => ?_
    have hu' := step.fits g.lawful (hv.of_oneOf u hu)
    refine Carries.imp (.ask_part g ready' (parts.step g.lawful step)
      (.call hu f args dispatch source) ⟨⟨B, hu'⟩, hf, fun arg harg => ?_⟩ (by simp [Query.kind]))
        fun _ _ _ ho => ho B hu'
    obtain ⟨B', hB⟩ := hargs arg harg
    exact ⟨B', step.fits g.lawful hB⟩

theorem carries_construct (g : R.Governs C) (ready : R.Ready s) (serves : R.Serves C s k)
    (hk : 3 < k) {v : Value} {f : SymbolId} {args : List ArgValue} {source : Span}
    (admits : R.Admits s.memory (.construct v f args source)) :
    R.Carries C (construct p v f args source) s fun o m => R.Fits m 0 o.value := by
  obtain ⟨⟨B, hv⟩, hf, hargs⟩ := admits
  unfold construct
  split
  · next a =>
    exact carries_callTarget g ready serves hk hv.of_ref
      (fun e he => g.lawful.ctorBody _ a f e ready.inv hv.of_ref (hf a rfl) he) hargs
  · exact .bind g ready (.report g ready) fun _ _ _ ready' _ => .pure g ready' .hot

/-! ## Objects -/

theorem carries_createWarm (g : R.Governs C) (ready : R.Ready s) (serves : R.Serves C s k)
    (hk : 7 < k) {outer : Value} {c : ClassId} {f : SymbolId} {args : List ArgValue} {source : Span}
    (created : R.created c f args.length) (hasSource : (p.cls c).hasSource = true)
    (remembers : R.Remembers s.memory outer) :
    R.Carries C (createWarm outer c f args source) s fun o m => R.Fits m 0 o.value := by
  have birth := g.lawful.birth s.memory c outer f ((args.map ArgValue.widen).map ArgValue.value)
    ready.inv (by simpa using created) hasSource remembers
    (by
      intro v hv
      simp only [List.map_map, List.mem_map] at hv
      obtain ⟨arg, -, rfl⟩ := hv
      exact Value.hot_or_cold_widen arg.value)
  dsimp only at birth
  generalize hr : s.memory.heap.warmOf
    ⟨c, outer, f, (args.map ArgValue.widen).map ArgValue.value⟩ = r at birth
  obtain ⟨w, h⟩ := r
  have warm : (Effect.warmOf ⟨c, outer, f, (args.map ArgValue.widen).map ArgValue.value⟩).run.run s
      = .ok (w, { s with heap := h }) := by
    change Except.ok ((s.heap.warmOf _).1, { s with heap := (s.heap.warmOf _).2 }) = _
    rw [show s.heap.warmOf _ = (w, h) from hr]
  have ext : s.heap.Extends h := by
    have := Heap.Extends.warmOf s.heap ⟨c, outer, f, (args.map ArgValue.widen).map ArgValue.value⟩
    rwa [show s.heap.warmOf _ = (w, h) from hr] at this
  unfold createWarm
  dsimp only
  refine Plan.obeys_bind.2 ((Plan.obeys_perform_of_ok warm).2 (Plan.obeys_look_bind.2 ?_))
  dsimp only
  split
  · next hcontains =>
    obtain ⟨rel, inv, addr⟩ := birth.1 hcontains
    exact ⟨⟨⟨ext, fun _ _ _ h => h⟩, fun _ h => h, rel, inv⟩, rfl, .ref addr⟩
  · next hcontains =>
    refine Plan.obeys_bind.2 (Plan.obeys_perform.2 ⟨fun fault hfault => ?_, fun u t ht => ?_⟩)
    · -- The address is not in use, so the allocation is not refused.
      change (Run.changeHeap (·.allocate (.warm w) (.new c [(c, outer)]))).run _ = _ at hfault
      simp only [Run.changeHeap, StateT.run, Heap.allocate, if_neg hcontains] at hfault
      cases hfault
    · obtain ⟨h', ok, rfl⟩ := Effect.run_allocate.1 ht
      obtain ⟨rel, inv, addr, ctor⟩ := birth.2 h' ok
      have step : R.Step s { s with heap := h' } :=
        ⟨⟨ext.trans (.of_allocate ok), fun _ _ _ h => h⟩, fun _ h => h, rel, inv⟩
      have ready' := ready.step g.lawful step rfl
      have constructed : R.Carries C (do
          let o ← Query.construct (.ref (.warm w)) f (args.map ArgValue.widen) source
          return ⟨.ref (.warm w), o.errors⟩ : Plan Outcome) { s with heap := h' }
          fun o m => R.Fits m 0 o.value := by
        refine .bind g ready' (.ask g ready' (serves.step g.lawful step) hk ⟨⟨0, .ref addr⟩, ?_, ?_⟩
          (by simp [Query.kind])) fun o t' step' ready'' _ =>
            .pure g ready'' (.ref (step'.addr g.lawful addr))
        · rintro a ⟨⟩
          exact ctor
        · intro arg harg
          obtain ⟨arg', -, rfl⟩ := List.mem_map.1 harg
          exact ⟨0, .of_hot_or_cold (Value.hot_or_cold_widen arg'.value)⟩
      exact Plan.Obeys.imp constructed fun o t' ho =>
        ⟨step.trans g.lawful ho.1, ho.2.1, ho.2.2⟩

theorem carries_rememberedOuter (g : R.Governs C) (ready : R.Ready s) {a : Addr}
    (ha : R.addr s.memory a) :
    R.Carries C (rememberedOuter a) s fun v m => R.Remembers m v := by
  cases a with
  | thisOf c => exact .pure g ready (.inr (.inr ⟨_, rfl, ha, nofun⟩))
  | warm w =>
    obtain ⟨creation, hw, -⟩ := g.lawful.creation _ w ready.inv ha
    have known : (Effect.creationOf w).run.run s = .ok (creation, s) :=
      Effect.run_creationOf.2 ⟨hw, rfl⟩
    refine Plan.obeys_bind.2 ((Plan.obeys_perform_of_ok known).2 ?_)
    change R.Carries C _ s fun v m => R.Remembers m v
    split
    · exact .pure g ready (.inr (.inl rfl))
    · next inside =>
      refine .pure g ready (.inr (.inr ⟨_, rfl, ha, fun w' creation' w'' heq hcreation => ?_⟩))
      cases heq
      cases hw.symm.trans hcreation
      exact inside w''

theorem carries_checkArgument (g : R.Governs C) (ready : R.Ready s) (serves : R.Serves C s k)
    (hk : 3 < k) {arg : ArgValue} (harg : ∃ B, R.Fits s.memory B arg.value) :
    R.Carries C (checkArgument arg) s fun _ _ => True :=
  .bind g ready (carries_promoteArgument g ready serves hk harg) fun _ _ _ ready' _ =>
    .pure g ready' trivial

theorem carries_create (g : R.Governs C) (ready : R.Ready s) (serves : R.Serves C s k)
    (hk : 7 < k) {outer : Value} {c : ClassId} {f : SymbolId} {args : List ArgValue}
    {source : Span} (parts : R.ServesParts C s (.create outer c f args source))
    (admits : R.Admits s.memory (.create outer c f args source)) :
    R.Carries C (create p outer c f args source) s fun o m => R.Fits m 0 o.value := by
  obtain ⟨⟨B, hv⟩, created, hargs⟩ := admits
  have later {t : Store} (step : R.Step s t) : ∀ arg ∈ args, ∃ B, R.Fits t.memory B arg.value := by
    intro arg harg
    obtain ⟨B, hB⟩ := hargs arg harg
    exact ⟨B, step.fits g.lawful hB⟩
  unfold create
  split
  · have checks : R.Carries C (args.mapM checkArgument) s fun checked _ =>
        checked.length = args.length ∧ ∀ _ ∈ checked, True :=
      .mapM g ready (fun _ _ _ _ _ h => h) fun arg harg t step ready' =>
        carries_checkArgument g ready' (serves.step g.lawful step) (by omega) (later step arg harg)
    refine .bind g ready checks fun checked t step ready' hchecked => ?_
    dsimp only
    split
    · next hsource =>
      refine .bind g ready' (carries_createWarm g ready' (serves.step g.lawful step) hk ?_ ?_
        (.inl rfl)) fun o u step' ready'' _ => .pure g ready'' .hot
      · rwa [List.length_map, hchecked.1]
      · exact (Bool.and_eq_true_iff.1 hsource).2
    · exact .pure g ready' .hot
  · exact .fail g ready
  · next a =>
    split
    · next hsource =>
      refine .bind g ready (carries_rememberedOuter g ready hv.of_ref)
        fun v t step ready' remembers => ?_
      refine .bind g ready' (carries_createWarm g ready' (serves.step g.lawful step) hk created
        hsource remembers) fun o u step' ready'' ho => .look_bind ?_
      split
      · exact .pure g ready'' ho
      · exact .pure g ready'' .cold
    · exact .bind g ready (carries_promoteArguments g ready serves (by omega) hargs)
        fun _ _ _ ready' _ => .pure g ready' .hot
  · exact .bind g ready (.report g ready) fun _ _ _ ready' _ => .pure g ready' .hot
  · next vs =>
    refine .joinEach g ready fun u hu t step ready' => ?_
    exact .ask_part g ready' (parts.step g.lawful step) (.create hu c f args source)
      ⟨⟨B, step.fits g.lawful (hv.of_oneOf u hu)⟩, created, later step⟩ (by simp [Query.kind])

end ObjectInit.Regime
