import ObjectInit.Proofs.Traversal

/-!
# Evaluations under a regime

The evaluation of an expression keeps to a lawful regime, and so do the plans of all questions that
lead to evaluations or follow from them.

Main results:

* `Regime.carries_node`: every form of expression keeps to a regime.
* `Regime.carries_plan`: so does the plan of every question that no template is involved in.
-/

namespace ObjectInit

/-! ## The instance that code runs on -/

theorem Query.Answered.enclosingInstance_self {p : Program} {c : ClassId} {u v : Value}
    {source : Span} {s t : Store}
    (h : (Query.enclosingInstance c v c source).Answered p s u t) : u = v := by
  obtain ⟨n, ends⟩ := h
  cases n with
  | zero => exact absurd ends Query.ends_zero
  | succ n =>
    rw [Query.ends_succ, Query.plan_enclosingInstance_self] at ends
    exact (Plan.ends_pure.1 ends).1

theorem Plan.node_thisOf {p : Program} {e : ExprId} {frame : Frame}
    (node : (p.expr e).node = .thisOf frame.cls) : Plan.node p e frame = (do
      return .ofValue (← Query.enclosingInstance frame.cls (.ref frame.receiver) frame.cls
        (p.expr e).span) : Plan Outcome) := by
  rw [Plan.node, node]
  exact Plan.evalPath_own frame _

/-- The value of the instance that code runs on, unless the cache has another one. -/
theorem Query.value_of_thisOf {p : Program} {e : ExprId} {frame : Frame} {final : Bool}
    {s t : Store} {o : Outcome} (node : (p.expr e).node = .thisOf frame.cls)
    (h : (Query.eval e frame final).Answered p s o t) :
    s.cache.find? frame.receiver e = some o.value ∨ o.value = .ref frame.receiver := by
  obtain ⟨n, ends⟩ := h
  cases n with
  | zero => exact absurd ends Query.ends_zero
  | succ n =>
    rw [Query.ends_succ, Query.plan, Plan.eval, Plan.ends_look_bind] at ends
    split at ends
    · next v hv =>
      obtain ⟨rfl, -⟩ := Plan.ends_pure.1 ends
      exact .inl hv
    · obtain ⟨b, u, hb, rest⟩ := Plan.ends_within.1 ends
      obtain ⟨rfl, -⟩ := Plan.ends_pure.1 rest
      obtain ⟨u', hb, -⟩ := Plan.ends_calledFrom.1 hb
      rw [Plan.node_thisOf node, bind_pure_comp, Plan.ends_map] at hb
      obtain ⟨v, hv, rfl⟩ := hb
      exact .inr (Query.Answered.enclosingInstance_self ⟨_, Plan.ends_ask.1 hv⟩)

namespace Regime

open Plan

variable {p : Program} {R : Regime p} {C : Contract} {s t : Store} {k : Nat}

/-! ## Enclosing instances -/

theorem carries_enclosingInstance (g : R.Governs C) (ready : R.Ready s) {target c : ClassId}
    {v : Value} {source : Span} (parts : R.ServesParts C s (.enclosingInstance target v c source))
    (hv : R.Fits s.memory 0 v) :
    R.Carries C (enclosingInstance p target v c source) s fun v m => R.Fits m 0 v := by
  unfold enclosingInstance
  split
  · exact .pure g ready hv
  split
  · exact .pure g ready .hot
  split
  · exact .pure g ready .hot
  · exact .pure g ready .cold
  · next a =>
    refine .look_bind ?_
    split
    · next outer houter =>
      exact .ask_part g ready parts (.around houter target source)
        (g.lawful.outer _ a c outer ready.inv houter) (by simp [Query.kind])
    · exact .bind g ready (.report g ready) fun _ _ _ ready' _ => .pure g ready' .hot
  · next vs =>
    have around : R.Carries C (vs.mapM fun v =>
        (Query.enclosingInstance target v c source : Plan Value)) s
        fun us m => us.length = vs.length ∧ ∀ u ∈ us, R.Fits m 0 u :=
      .mapM g ready (fun v m m' ext rel h => h.mono g.lawful ext rel) fun u hu t step ready' =>
        .ask_part g ready' (parts.step g.lawful step) (.enclosing hu target c source)
          (step.fits g.lawful (hv.of_oneOf u hu)) (by simp [Query.kind])
    exact .bind g ready around fun us t _ ready' hus => .pure g ready' (.joinAll hus.2)
  · exact .bind g ready (.report g ready) fun _ _ _ ready' _ => .pure g ready' .cold

theorem carries_evalPath (g : R.Governs C) (ready : R.Ready s) (serves : R.Serves C s k)
    (hk : 4 < k) {frame : Frame} {source : Span} {path : Path}
    (receiver : R.addr s.memory frame.receiver) (names : ∀ x ∈ path.symbols, R.member x) :
    R.Carries C (evalPath p frame source path) s fun o m => R.Fits m 0 o.value := by
  induction path generalizing s with
  | bare | constant | paramRef => exact .pure g ready .hot
  | thisOf target =>
    unfold evalPath
    split
    · exact .pure g ready .hot
    · exact .bind g ready (carries_askEnclosing g ready serves (by omega) (.ref receiver))
        fun v t _ ready' hv => .pure g ready' hv
  | member base x ih =>
    have hx : R.member x := names x (List.mem_append_right _ (List.mem_singleton_self x))
    have selected : R.Carries C (do
        let receiver ← evalPath p frame source base
        let o ← Query.select receiver.value x source true
        return o.precededBy receiver.errors) s fun o m => R.Fits m 0 o.value := by
      refine .bind g ready (ih ready serves receiver fun y hy =>
        names y (List.mem_append_left _ hy)) fun r t step ready' hr => ?_
      exact .bind g ready' (carries_askSelect g ready' (serves.step g.lawful step) hk hr hx)
        fun o u _ ready'' ho => .pure g ready'' ho
    cases base with
    | bare =>
      refine .look_bind (.pure g ready ?_)
      cases hv : s.env.lookup x with
      | none => exact .hot
      | some v => exact ready.env x v hv
    | constant | thisOf | member | paramRef => exact selected

theorem carries_outerInstance (g : R.Governs C) (ready : R.Ready s) (serves : R.Serves C s k)
    (hk : 4 < k) {type : ClassRef} {frame : Frame} {source : Span}
    (admits : R.Admits s.memory (.outerInstance type frame source)) :
    R.Carries C (outerInstance p type frame source) s fun o m => R.Fits m 0 o.value := by
  obtain ⟨receiver, names⟩ := admits
  unfold outerInstance
  split
  · exact .bind g ready (carries_askEnclosing g ready serves (by omega) (.ref receiver))
      fun v t _ ready' hv => .pure g ready' hv
  split
  · exact .pure g ready .hot
  · exact carries_evalPath g ready serves hk receiver names

/-! ## Expressions -/

theorem carries_closure (g : R.Governs C) (ready : R.Ready s) {params : List SymbolId}
    {body : ExprId} {frame : Frame} {B : Nat} (receiver : R.addr s.memory frame.receiver)
    (code : R.code s.memory body frame)
    (fresh : ∀ m env, R.fresh m B (.closure body params frame env)) :
    R.Carries C (closure params body frame) s fun v m => R.Fits m B v :=
  .look_bind (.pure g ready (.closure receiver code (fresh _ _) ready.env))

/-- Arguments whose expressions may run in the frame. -/
def FitsArgs (R : Regime p) (m : Memory) (args : List Arg) (frame : Frame) : Prop :=
  R.addr m frame.receiver ∧ ∀ arg ∈ args, R.code m arg.expr frame ∧
    ∃ B, ∀ m params env, R.fresh m B (.closure arg.expr params frame env)

theorem FitsArgs.step (lawful : R.Lawful) {args : List Arg} {frame : Frame}
    (h : R.FitsArgs s.memory args frame) (step : R.Step s t) : R.FitsArgs t.memory args frame :=
  ⟨step.addr lawful h.1, fun arg harg => ⟨step.code lawful (h.2 arg harg).1, (h.2 arg harg).2⟩⟩

theorem carries_evalArgument (g : R.Governs C) (ready : R.Ready s) (serves : R.Serves C s k)
    (hk : 2 < k) {frame : Frame} {args : List Arg} (fits : R.FitsArgs s.memory args frame)
    {arg : Arg} (harg : arg ∈ args) :
    R.Carries C (evalArgument p frame arg) s fun r m => ∃ B, R.Fits m B r.2.value := by
  obtain ⟨receiver, hargs⟩ := fits
  obtain ⟨code, B, fresh⟩ := hargs arg harg
  have result {o : Outcome} {t : Store} (ready' : R.Ready t) (ho : ∃ B, R.Fits t.memory B o.value) :
      R.Carries C (do
        return (o.errors, ⟨o.value, (p.expr arg.expr).span, (← Effect.look).trace⟩) :
          Plan (List SafetyError × ArgValue)) t fun r m => ∃ B, R.Fits m B r.2.value :=
    .look_bind (.pure g ready' ho)
  unfold evalArgument
  dsimp only
  split
  · have captured : R.Carries C (Outcome.ofValue <$> closure [] arg.expr frame) s
        fun o m => R.Fits m B o.value :=
      .map (carries_closure g ready receiver code fun m env => fresh m [] env)
    exact .bind g ready captured fun o t _ ready' ho => result ready' ⟨B, ho⟩
  · exact .bind g ready (carries_askEval g ready serves hk receiver code)
      fun o t _ ready' ho => result ready' ⟨_, ho⟩

theorem carries_evalArguments (g : R.Governs C) (ready : R.Ready s) (serves : R.Serves C s k)
    (hk : 2 < k) {frame : Frame} {args : List Arg} (fits : R.FitsArgs s.memory args frame) :
    R.Carries C (evalArguments p frame args) s fun r m =>
      r.2.length = args.length ∧ ∀ arg ∈ r.2, ∃ B, R.Fits m B arg.value := by
  have each : R.Carries C (args.mapM (evalArgument p frame)) s fun rs m =>
      rs.length = args.length ∧ ∀ r ∈ rs, ∃ B, R.Fits m B r.2.value := by
    refine .mapM g ready (fun r m m' ext rel h => ?_) fun arg harg t step ready' => ?_
    · obtain ⟨B, hB⟩ := h
      exact ⟨B, hB.mono g.lawful ext rel⟩
    · exact carries_evalArgument g ready' (serves.step g.lawful step) hk (fits.step g.lawful step)
        harg
  refine .bind g ready each fun rs t _ ready' hrs => .pure g ready' ⟨?_, fun arg harg => ?_⟩
  · rw [List.length_map, hrs.1]
  · obtain ⟨r, hr, rfl⟩ := List.mem_map.1 harg
    exact hrs.2 r hr

/-- The expression may be evaluated in the frame. -/
structure Runs (R : Regime p) (m : Memory) (e : ExprId) (frame : Frame) : Prop where
  receiver : R.addr m frame.receiver
  body : R.body m e frame

theorem Runs.step (lawful : R.Lawful) {e : ExprId} {frame : Frame} (h : R.Runs s.memory e frame)
    (step : R.Step s t) : R.Runs t.memory e frame :=
  ⟨step.addr lawful h.receiver, step.body lawful h.body⟩

theorem Runs.fitsArgs (lawful : R.Lawful) {e : ExprId} {frame : Frame} {m : Memory}
    (h : R.Runs m e frame) {args : List Arg}
    (hargs : ∀ arg ∈ args, arg.expr ∈ (p.expr e).node.children) : R.FitsArgs m args frame :=
  ⟨h.receiver, fun arg harg => ⟨lawful.parts m e frame h.body _ (hargs arg harg), R.bound e,
    fun m params env => lawful.captured m e _ (hargs arg harg) params frame env⟩⟩

theorem carries_part (g : R.Governs C) (ready : R.Ready s) (serves : R.Serves C s k) (hk : 2 < k)
    {e e' : ExprId} {frame : Frame} (runs : R.Runs s.memory e frame)
    (h : e' ∈ (p.expr e).node.children) :
    R.Carries C (liftM (Query.eval e' frame false)) s fun o m => R.Fits m (R.bound e) o.value :=
  (carries_askEval g ready serves hk runs.receiver (g.lawful.parts _ e frame runs.body e' h)).imp
    fun _ _ _ ho => ho.le g.lawful (g.lawful.bound_le e e' h)

theorem carries_errorsOf (g : R.Governs C) (ready : R.Ready s) (serves : R.Serves C s k)
    (hk : 2 < k) {e e' : ExprId} {frame : Frame} (runs : R.Runs s.memory e frame)
    (h : e' ∈ (p.expr e).node.children) :
    R.Carries C (errorsOf e' frame) s fun _ _ => True :=
  .bind g ready (carries_part g ready serves hk runs h) fun _ _ _ ready' _ => .pure g ready' trivial

theorem carries_errorsOfHot (g : R.Governs C) (ready : R.Ready s) (serves : R.Serves C s k)
    (hk : 3 < k) {e e' : ExprId} {frame : Frame} {reason : String}
    (runs : R.Runs s.memory e frame) (h : e' ∈ (p.expr e).node.children) :
    R.Carries C (errorsOfHot p e' frame reason) s fun _ _ => True := by
  refine .bind g ready (carries_part g ready serves (by omega) runs h) fun o _ step ready' ho => ?_
  exact .bind g ready' (carries_requireHot g ready' (serves.step g.lawful step) hk ho)
    fun _ _ _ ready'' _ => .pure g ready'' trivial

theorem carries_evalBranches (g : R.Governs C) (ready : R.Ready s) (serves : R.Serves C s k)
    (hk : 2 < k) {e : ExprId} {es : List ExprId} {frame : Frame} (runs : R.Runs s.memory e frame)
    (h : ∀ e' ∈ es, e' ∈ (p.expr e).node.children) :
    R.Carries C (evalBranches es frame) s fun o m => R.Fits m (R.bound e) o.value :=
  .joinEach g ready fun e' he' _ step ready' =>
    carries_part g ready' (serves.step g.lawful step) hk (runs.step g.lawful step) (h e' he')

/-! ## Calls in expressions -/

theorem carries_callNamed (g : R.Governs C) (ready : R.Ready s) (serves : R.Serves C s k)
    (hk : 6 < k) {method : SymbolId} {path : Path} {args : List ArgValue} {frame : Frame}
    {source : Span} (receiver : R.addr s.memory frame.receiver) (hmethod : R.member method)
    (names : ∀ x ∈ path.symbols, R.member x)
    (hargs : ∀ arg ∈ args, ∃ B, R.Fits s.memory B arg.value) :
    R.Carries C (callNamed p method path args frame source) s fun o m => R.Fits m 0 o.value := by
  have later {t : Store} (step : R.Step s t) : ∀ arg ∈ args, ∃ B, R.Fits t.memory B arg.value := by
    intro arg harg
    obtain ⟨B, hB⟩ := hargs arg harg
    exact ⟨B, step.fits g.lawful hB⟩
  unfold callNamed
  split
  · refine .bind g ready (carries_askEnclosing g ready serves (by omega) (.ref receiver))
      fun v t step ready' hv => ?_
    exact carries_askCall g ready' (serves.step g.lawful step) hk hv hmethod (later step)
  · refine .bind g ready (carries_evalPath g ready serves (by omega) receiver names)
      fun r t step ready' hr => ?_
    exact .bind g ready' (carries_askCall g ready' (serves.step g.lawful step) hk hr hmethod
      (later step)) fun o u _ ready'' ho => .pure g ready'' ho

theorem carries_callCallee (g : R.Governs C) (ready : R.Ready s) (serves : R.Serves C s 9)
    {e : ExprId} {frame : Frame} {callee : Callee} {actual : List Arg} {args : List ArgValue}
    {source : Span} (runs : R.Runs s.memory e frame)
    (node : (p.expr e).node = .call callee actual)
    (hargs : ∀ arg ∈ args, ∃ B, R.Fits s.memory B arg.value) :
    R.Carries C (callCallee p callee args frame source) s
      fun o m => R.Fits m (R.bound e) o.value := by
  have names := g.lawful.names s.memory e frame runs.body
  rw [node] at names
  have later {t : Store} (step : R.Step s t) : ∀ arg ∈ args, ∃ B, R.Fits t.memory B arg.value := by
    intro arg harg
    obtain ⟨B, hB⟩ := hargs arg harg
    exact ⟨B, step.fits g.lawful hB⟩
  cases callee with
  | super home base method =>
    refine .bind g ready (carries_askEnclosing g ready serves (by decide) (.ref runs.receiver))
      fun v t step ready' hv => ?_
    exact (carries_askCall g ready' (serves.step g.lawful step) (by decide) hv
      (names method (List.mem_singleton_self method)) (later step)).imp
        fun _ _ _ ho => ho.of_zero g.lawful
  | ident method path =>
    exact (carries_callNamed g ready serves (by decide) runs.receiver
      (names method List.mem_cons_self) (fun x hx => names x (List.mem_cons_of_mem method hx))
      hargs).imp fun _ _ _ ho => ho.of_zero g.lawful
  | select qualifier method =>
    have child : qualifier ∈ (p.expr e).node.children := by
      rw [node]
      exact List.mem_append_left _ (List.mem_singleton_self qualifier)
    have asked := carries_part g ready serves (by decide) runs child
    -- Which constructors may be called depends on the value of the qualifier.
    refine Plan.obeys_bind.2 (Plan.obeys_ask.2 ⟨(Plan.obeys_ask.1 asked).1, fun r t hr hpost => ?_⟩)
    obtain ⟨step, env, fits⟩ := (Plan.obeys_ask.1 asked).2 r t hr hpost
    have ready' := ready.step g.lawful step env
    have serves' := serves.step g.lawful step
    have rest : R.Carries C (do
        let o ← if (p.symbol method).isConstructor then
            (Query.construct r.value method args source : Plan Outcome)
          else
            (Query.call r.value method args .virtual source : Plan Outcome)
        return o.precededBy r.errors) t fun o m => R.Fits m (R.bound e) o.value := by
      split
      · next constructor =>
        refine .bind g ready' (.ask g ready' serves' (by simp [Query.kind])
          ⟨⟨_, fits⟩, fun a ha => ?_, later step⟩ (by simp [Query.kind])) fun o u _ ready'' ho =>
            .pure g ready'' (Fits.of_zero g.lawful ho)
        exact g.lawful.delegate s t e frame qualifier method actual r runs.body node constructor
          ready.inv hr step a ha
      · next ordinary =>
        exact .bind g ready' (carries_askCall g ready' serves' (by decide) fits
          (g.lawful.method _ e frame qualifier method actual runs.body node
            (by simpa using ordinary))
          (later step)) fun o u _ ready'' ho => .pure g ready'' ho
    exact Plan.Obeys.imp rest fun o u ho =>
      ⟨step.trans g.lawful ho.1, ho.2.1.trans env, ho.2.2⟩

theorem carries_evalNew (g : R.Governs C) (ready : R.Ready s) (serves : R.Serves C s 9)
    {e : ExprId} {frame : Frame} {type : ClassRef} {ctor : SymbolId} {args : List Arg}
    {source : Span} (runs : R.Runs s.memory e frame)
    (node : (p.expr e).node = .new type ctor args) :
    R.Carries C (evalNew p type ctor args frame source) s fun o m => R.Fits m 0 o.value := by
  have names := g.lawful.names s.memory e frame runs.body
  rw [node] at names
  have fits : R.FitsArgs s.memory args frame := by
    refine runs.fitsArgs g.lawful fun arg harg => ?_
    rw [node]
    exact List.mem_map_of_mem harg
  refine .bind g ready (carries_evalArguments g ready serves (by decide) fits)
    fun r t step ready' hr => ?_
  dsimp only
  split
  · exact .pure g ready' .hot
  have runs' := runs.step g.lawful step
  have outer : R.Carries C (liftM (Query.outerInstance type frame source)) t
      fun o m => R.Fits m 0 o.value :=
    .ask g ready' (serves.step g.lawful step) (by simp [Query.kind]) ⟨runs'.receiver, names⟩
      (by simp [Query.kind])
  refine .bind g ready' outer fun o u step' ready'' ho => ?_
  have created : R.Carries C (liftM (Query.create o.value type.cls ctor r.2 source))
      { u with trace := u.trace.add source } fun o m => R.Fits m 0 o.value := by
    refine .ask g (ready''.inTrace _)
      (((serves.step g.lawful step).step g.lawful step').context g.lawful ready'' _)
      (by simp [Query.kind]) ⟨⟨0, ho⟩, ?_, fun arg harg => ?_⟩ (by simp [Query.kind])
    · rw [hr.1]
      exact g.lawful.new _ e frame type ctor args runs.body node
    · obtain ⟨B, hB⟩ := hr.2 arg harg
      exact ⟨B, step'.fits g.lawful hB⟩
  exact .bind g ready'' (.calledFrom created) fun _ _ _ ready₃ h => .pure g ready₃ h

/-! ## Blocks -/

theorem node_of_localDef {stat : ExprId} {x : SymbolId} (h : localDef? p stat = some x) :
    (p.expr stat).node = .valDef x := by
  unfold localDef? at h
  split at h
  · next y hy =>
    split at h
    · cases h
      exact hy
    · cases h
  · cases h

theorem carries_evalBlock (g : R.Governs C) (ready : R.Ready s) (serves : R.Serves C s k)
    (hk : 2 < k) {e : ExprId} {frame : Frame} {result : ExprId} {stats : List ExprId}
    (runs : R.Runs s.memory e frame) (hresult : result ∈ (p.expr e).node.children)
    (hstats : ∀ stat ∈ stats, stat ∈ (p.expr e).node.children) :
    R.Carries C (evalBlock p frame result stats) s fun o m => R.Fits m (R.bound e) o.value := by
  induction stats generalizing s with
  | nil => exact carries_part g ready serves hk runs hresult
  | cons stat stats ih =>
    have child := hstats stat List.mem_cons_self
    have code := g.lawful.parts _ e frame runs.body stat child
    refine .bind g ready (carries_askEval g ready serves hk runs.receiver code)
      fun o t step ready' ho => ?_
    have serves' := serves.step g.lawful step
    have runs' := runs.step g.lawful step
    have remaining {u : Store} (ready'' : R.Ready u) (serves'' : R.Serves C u k)
        (runs'' : R.Runs u.memory e frame) :=
      ih ready'' serves'' runs'' fun stat' h => hstats stat' (List.mem_cons_of_mem stat h)
    split
    · next x hx =>
      -- The value of a local definition is kept, so it may be bound.
      have hbound := g.lawful.bound_valDef stat x (node_of_localDef hx)
      rw [hbound] at ho
      have fits : R.FitsEnv t.memory (t.env.extend [(x, o.value)]) := by
        refine ready'.env.extend fun b hb => ?_
        rw [List.mem_singleton.1 hb]
        exact ho
      exact .look_bind (.bind g ready' (.inEnv (remaining (ready'.inEnv fits)
        (serves'.context g.lawful ready' ⟨_, t.trace⟩) runs'))
          fun _ _ _ ready'' h => .pure g ready'' h)
    · exact .bind g ready' (remaining ready' serves' runs') fun _ _ _ ready'' h => .pure g ready'' h

/-! ## Forms of expressions -/

theorem carries_evalTarget (g : R.Governs C) (ready : R.Ready s) (serves : R.Serves C s k)
    (hk : 2 < k) {e target : ExprId} {frame : Frame} (runs : R.Runs s.memory e frame)
    (h : target ∈ (p.expr e).node.children) :
    R.Carries C (evalTarget p target frame) s fun _ _ => True := by
  have body := g.lawful.body_of_code _ target frame (g.lawful.parts _ e frame runs.body target h)
  unfold evalTarget
  split
  · next qualifier x node =>
    refine carries_errorsOf g ready serves hk ⟨runs.receiver, body⟩ ?_
    rw [node]
    exact List.mem_singleton_self qualifier
  · exact .pure g ready trivial

/-- A name alone stands for a call without arguments or for what its path leads to. -/
theorem carries_node_ident (g : R.Governs C) (ready : R.Ready s) (serves : R.Serves C s 9)
    {e : ExprId} {frame : Frame} {x : SymbolId} {path : Path} (runs : R.Runs s.memory e frame)
    (node : (p.expr e).node = .ident x path) :
    R.Carries C (Plan.node p e frame) s fun o m => R.Fits m (R.bound e) o.value := by
  have names := g.lawful.names s.memory e frame runs.body
  rw [node] at names
  have member : R.member x := names x List.mem_cons_self
  have onPath (y : SymbolId) (hy : y ∈ path.symbols) : R.member y :=
    names y (List.mem_cons_of_mem x hy)
  rw [Plan.node, node]
  dsimp only
  split
  · have onBase (y : SymbolId) (hy : y ∈ (path.base?.getD .bare).symbols) : R.member y := by
      cases path with
      | member base z => exact onPath y (List.mem_append_left _ hy)
      | _ => exact absurd hy List.not_mem_nil
    exact (carries_callNamed g ready serves (by decide) runs.receiver member onBase
      fun arg harg => absurd harg List.not_mem_nil).imp fun _ _ _ ho => ho.of_zero g.lawful
  · exact (carries_evalPath g ready serves (by decide) runs.receiver onPath).imp
      fun _ _ _ ho => ho.of_zero g.lawful

/-- A selection calls a method without arguments or reads a field. -/
theorem carries_node_select (g : R.Governs C) (ready : R.Ready s) (serves : R.Serves C s 9)
    {e qualifier : ExprId} {frame : Frame} {x : SymbolId} (runs : R.Runs s.memory e frame)
    (node : (p.expr e).node = .select qualifier x) :
    R.Carries C (Plan.node p e frame) s fun o m => R.Fits m (R.bound e) o.value := by
  have names := g.lawful.names s.memory e frame runs.body
  rw [node] at names
  have member : R.member x := names x (List.mem_singleton_self x)
  rw [Plan.node, node]
  refine .bind g ready (carries_part g ready serves (by decide) runs
    (by simp [node, Node.children])) fun r t step ready' hr => ?_
  have serves' := serves.step g.lawful step
  split
  · exact .bind g ready' (carries_askCall g ready' serves' (by decide) hr member
      fun arg harg => absurd harg List.not_mem_nil) fun _ _ _ ready'' ho => .pure g ready'' ho
  · exact .bind g ready' (carries_askSelect g ready' serves' (by decide) hr member)
      fun _ _ _ ready'' ho => .pure g ready'' (Fits.of_zero g.lawful ho)

/-- A call evaluates its arguments before it looks for what to call. -/
theorem carries_node_call (g : R.Governs C) (ready : R.Ready s) (serves : R.Serves C s 9)
    {e : ExprId} {frame : Frame} {callee : Callee} {args : List Arg}
    (runs : R.Runs s.memory e frame) (node : (p.expr e).node = .call callee args) :
    R.Carries C (Plan.node p e frame) s fun o m => R.Fits m (R.bound e) o.value := by
  have fits : R.FitsArgs s.memory args frame := by
    refine runs.fitsArgs g.lawful fun arg harg => ?_
    rw [node]
    exact List.mem_append_right _ (List.mem_map_of_mem harg)
  rw [Plan.node, node]
  refine .bind g ready (carries_evalArguments g ready serves (by decide) fits)
    fun r t step ready' hr => ?_
  exact .bind g ready' (carries_callCallee g ready' (serves.step g.lawful step)
    (runs.step g.lawful step) node hr.2) fun _ _ _ ready'' ho => .pure g ready'' ho

/-- What fits the body and the handlers fits the whole; the finalizer adds errors only. -/
theorem carries_node_tryCatch (g : R.Governs C) (ready : R.Ready s) (serves : R.Serves C s 9)
    {e body : ExprId} {frame : Frame} {handlers : List ExprId} {finalizer : Option ExprId}
    (runs : R.Runs s.memory e frame)
    (node : (p.expr e).node = .tryCatch body handlers finalizer) :
    R.Carries C (Plan.node p e frame) s fun o m => R.Fits m (R.bound e) o.value := by
  rw [Plan.node, node]
  refine .bind g ready (carries_part g ready serves (by decide) runs
    (by simp [node, Node.children])) fun o t step ready' ho => ?_
  have serves' := serves.step g.lawful step
  have runs' := runs.step g.lawful step
  refine .bind g ready' (carries_evalBranches g ready' serves' (by decide) runs'
    fun b hb => by simp [node, Node.children, hb]) fun o' u step' ready'' ho' => ?_
  have joined : R.Fits u.memory (R.bound e) (o.join o').value := (step'.fits g.lawful ho).join ho'
  cases finalizer with
  | none => exact .pure g ready'' joined
  | some last =>
    refine .bind g ready'' (carries_errorsOf g ready'' (serves'.step g.lawful step') (by decide)
      (runs'.step g.lawful step') (by simp [node, Node.children])) fun _ _ step'' ready₃ _ => ?_
    exact .pure g ready₃ (step''.fits g.lawful joined)

/-- Every form of expression but templates keeps to the regime. -/
theorem carries_node (g : R.Governs C) (ready : R.Ready s) (serves : R.Serves C s 9)
    {e : ExprId} {frame : Frame} (runs : R.Runs s.memory e frame)
    (plain : ∀ c, (p.expr e).node ≠ .template c) :
    R.Carries C (Plan.node p e frame) s fun o m => R.Fits m (R.bound e) o.value := by
  have evaluated {t : Store} (step : R.Step s t) (ready' : R.Ready t) {e' : ExprId}
      (h : e' ∈ (p.expr e).node.children) :
      R.Carries C (liftM (Query.eval e' frame false)) t fun o m => R.Fits m (R.bound e) o.value :=
    carries_part g ready' (serves.step g.lawful step) (by decide) (runs.step g.lawful step) h
  have used {t : Store} (step : R.Step s t) (ready' : R.Ready t) {e' : ExprId}
      (h : e' ∈ (p.expr e).node.children) : R.Carries C (errorsOf e' frame) t fun _ _ => True :=
    carries_errorsOf g ready' (serves.step g.lawful step) (by decide) (runs.step g.lawful step) h
  have usedHot {t : Store} (step : R.Step s t) (ready' : R.Ready t) {e' : ExprId}
      {reason : String} (h : e' ∈ (p.expr e).node.children) :
      R.Carries C (errorsOfHot p e' frame reason) t fun _ _ => True :=
    carries_errorsOfHot g ready' (serves.step g.lawful step) (by decide) (runs.step g.lawful step) h
  have here : R.Step s s := .refl g.lawful ready.inv
  cases node : (p.expr e).node with
  | ident x path => exact carries_node_ident g ready serves runs node
  | select qualifier x => exact carries_node_select g ready serves runs node
  | call callee args => exact carries_node_call g ready serves runs node
  | tryCatch body handlers finalizer => exact carries_node_tryCatch g ready serves runs node
  | wildcard | literal | methodDef | typeDef =>
    rw [Plan.node, node]
    exact .pure g ready .hot
  | thisOf target =>
    rw [Plan.node, node]
    exact (carries_evalPath g ready serves (by decide) runs.receiver
      fun x hx => absurd hx List.not_mem_nil).imp fun _ _ _ ho => ho.of_zero g.lawful
  | new type ctor args =>
    rw [Plan.node, node]
    exact (carries_evalNew g ready serves runs node).imp fun _ _ _ ho => ho.of_zero g.lawful
  | assign target value =>
    rw [Plan.node, node]
    refine .bind g ready (carries_evalTarget g ready serves (by decide) runs
      (by simp [node, Node.children])) fun _ t step ready' _ => ?_
    exact .bind g ready' (usedHot step ready' (by simp [node, Node.children]))
      fun _ _ _ ready'' _ => .pure g ready'' .hot
  | ifElse cond onTrue onFalse =>
    rw [Plan.node, node]
    refine .bind g ready (used here ready (by simp [node, Node.children]))
      fun _ t step ready' _ => ?_
    refine .bind g ready' (evaluated step ready' (by simp [node, Node.children]))
      fun o u step' ready'' ho => ?_
    exact .bind g ready'' (evaluated (step.trans g.lawful step') ready''
      (by simp [node, Node.children])) fun o' v step'' ready₃ ho' =>
        .pure g ready₃ ((step''.fits g.lawful ho).join ho')
  | matchOn scrutinee bs =>
    rw [Plan.node, node]
    refine .bind g ready (usedHot here ready (by simp [node, Node.children]))
      fun _ t step ready' _ => ?_
    exact .bind g ready' (carries_evalBranches g ready' (serves.step g.lawful step) (by decide)
      (runs.step g.lawful step) fun b hb => by simp [node, Node.children, hb])
        fun _ _ _ ready'' ho => .pure g ready'' ho
  | whileLoop cond body =>
    rw [Plan.node, node]
    refine .bind g ready (used here ready (by simp [node, Node.children]))
      fun _ t step ready' _ => ?_
    exact .bind g ready' (used step ready' (by simp [node, Node.children]))
      fun _ _ _ ready'' _ => .pure g ready'' .hot
  | sequence elems =>
    rw [Plan.node, node]
    have each : R.Carries C (errorsOfEach elems fun e' => errorsOfHot p e' frame Reason.sequence) s
        fun _ _ => True :=
      .errorsOfEach g ready fun e' he' t step ready' =>
        usedHot step ready' (by simp [node, Node.children, he'])
    exact .bind g ready each fun _ _ _ ready' _ => .pure g ready' .hot
  | closure params body =>
    rw [Plan.node, node]
    have child : body ∈ (p.expr e).node.children := by simp [node, Node.children]
    exact .bind g ready (carries_closure g ready runs.receiver
      (g.lawful.parts _ e frame runs.body body child)
      fun m env => g.lawful.captured m e body child params frame env)
        fun _ _ _ ready' h => .pure g ready' h
  | block stats result =>
    rw [Plan.node, node]
    exact carries_evalBlock g ready serves (by decide) runs (by simp [node, Node.children])
      fun stat h => by simp [node, Node.children, h]
  | typed e' unchecked | annotated e' unchecked =>
    rw [Plan.node, node]
    dsimp only
    split
    · exact .pure g ready .hot
    · exact evaluated here ready (by simp [node, Node.children])
  | ret e' =>
    rw [Plan.node, node]
    exact .bind g ready (usedHot here ready (by simp [node, Node.children]))
      fun _ _ _ ready' _ => .pure g ready' .hot
  | namedArg e' =>
    rw [Plan.node, node]
    exact evaluated here ready (by simp [node, Node.children])
  | valDef x =>
    rw [Plan.node, node]
    dsimp only
    split
    · next e' he' =>
      exact (carries_askBody g ready serves (by decide) runs.receiver
        (g.lawful.valDef _ e frame x e' runs.body node he')).imp
          fun _ _ _ ho => ho.of_zero g.lawful
    · exact .pure g ready .hot
  | template c => exact absurd node (plain c)

/-- The instance of the class that code belongs to is the receiver. -/
theorem carries_node_thisOf (g : R.Governs C) (ready : R.Ready s) (serves : R.Serves C s k)
    (hk : 1 < k) {e : ExprId} {frame : Frame} (receiver : R.addr s.memory frame.receiver)
    (node : (p.expr e).node = .thisOf frame.cls) :
    R.Carries C (Plan.node p e frame) s fun o _ => o.value = .ref frame.receiver := by
  have asked : R.Carries C (liftM (Query.enclosingInstance frame.cls (.ref frame.receiver) frame.cls
      (p.expr e).span)) s fun v m => R.Fits m 0 v :=
    carries_askEnclosing g ready serves hk (.ref receiver)
  have same : R.Carries C (liftM (Query.enclosingInstance frame.cls (.ref frame.receiver) frame.cls
      (p.expr e).span)) s fun v _ => v = .ref frame.receiver := by
    refine Plan.obeys_ask.2 ⟨(Plan.obeys_ask.1 asked).1, fun v t hv hpost => ?_⟩
    obtain ⟨step, env, -⟩ := (Plan.obeys_ask.1 asked).2 v t hv hpost
    exact ⟨step, env, hv.enclosingInstance_self⟩
  rw [node_thisOf node]
  exact .bind g ready same fun v t _ ready' hv => .pure g ready' hv

/-- An evaluation gives what is in the cache, or what the expression gives while it is in
    progress. -/
theorem obeys_eval {e : ExprId} {frame : Frame} {final : Bool} {want : Outcome → Store → Prop}
    (hit : ∀ v, s.cache.find? frame.receiver e = some v → want (.ofValue v) s)
    (miss : s.cache.find? frame.receiver e = none →
      (Plan.node p e frame).Obeys p C
        { s with
          cache := s.cache.insert frame.receiver e .hot
          trace := s.trace.add (p.expr e).span }
        fun o t => want o { t with
          cache := if final then t.cache.insert frame.receiver e o.value
            else t.cache.erase frame.receiver e
          trace := s.trace }) :
    (Plan.eval p e frame final).Obeys p C s want := by
  refine Plan.obeys_look_bind.2 ?_
  cases hfind : s.cache.find? frame.receiver e with
  | some v => exact hit v hfind
  | none => exact Plan.obeys_within.2 (Plan.obeys_calledFrom.2 (miss hfind))

/-- An evaluation keeps to the regime, if the expression does while it is in progress. -/
theorem carries_evaluation (g : R.Governs C) (ready : R.Ready s) {e : ExprId} {frame : Frame}
    {final : Bool} (admits : R.Admits s.memory (.eval e frame final))
    (inside : s.cache.find? frame.receiver e = none → ∀ t,
      t.memory = s.memory.enter frame.receiver e → t.trusted = s.trusted → R.Ready t →
        R.Carries C (Plan.node p e frame) t fun o m => R.Fits m (R.bound e) o.value ∧
          (e.index < p.exprs.size ∨ o.value = .hot) ∧
            ((p.expr e).node = .thisOf frame.cls → o.value = .ref frame.receiver)) :
    R.Carries C (Plan.eval p e frame final) s
      fun o m => R.Fits m (if final then 0 else R.bound e) o.value := by
  obtain ⟨receiver, body, code⟩ := admits
  refine obeys_eval (fun v hfind => ?_) fun hfind => ?_
  · exact ⟨.refl g.lawful ready.inv, rfl,
      (g.lawful.cached _ _ e v ready.inv hfind).of_zero g.lawful⟩
  · obtain ⟨rel, inv⟩ := g.lawful.enter s.memory e frame ready.inv receiver body hfind
    have ext := Memory.extends_enter (m := s.memory) hfind
    let entered : Store := { s with
      cache := s.cache.insert frame.receiver e .hot, trace := s.trace.add (p.expr e).span }
    have ready' : R.Ready entered := ⟨inv, ready.env.mono g.lawful ext rel⟩
    refine Plan.Obeys.imp (inside hfind entered rfl rfl ready')
      fun o t ⟨step, env, fits, known, this⟩ => ?_
    obtain ⟨rel', inv', fits'⟩ := g.lawful.leave s.memory t.memory e frame final (R.bound e) o.value
      ready.inv receiver body code hfind step.memory step.rel step.inv fits known this
    exact ⟨⟨Memory.extends_leave (m := s.memory) hfind step.memory final o.value, step.trusted,
      rel', inv'⟩, env, fits'⟩

/-- The evaluation of an expression keeps to the regime, if all questions that follow from it may be
    asked while it is in progress. -/
theorem carries_eval (g : R.Governs C) (ready : R.Ready s) {e : ExprId} {frame : Frame}
    {final : Bool} (admits : R.Admits s.memory (.eval e frame final))
    (inside : s.cache.find? frame.receiver e = none → e.index < p.exprs.size →
      (∀ c, (p.expr e).node ≠ .template c) → ∀ t,
        t.memory = s.memory.enter frame.receiver e → t.trusted = s.trusted → R.Ready t →
          R.Serves C t 9)
    (template : ∀ c, (p.expr e).node = .template c → R.Carries C (Plan.eval p e frame final) s
      fun o m => R.Fits m (if final then 0 else R.bound e) o.value) :
    R.Carries C (Plan.eval p e frame final) s
      fun o m => R.Fits m (if final then 0 else R.bound e) o.value := by
  by_cases isTemplate : ∃ c, (p.expr e).node = .template c
  · obtain ⟨c, node⟩ := isTemplate
    exact template c node
  have plain : ∀ c, (p.expr e).node ≠ .template c := fun c node => isTemplate ⟨c, node⟩
  refine carries_evaluation g ready admits fun miss t entered trusted ready' => ?_
  obtain ⟨rel, inv⟩ := g.lawful.enter s.memory e frame ready.inv admits.1 admits.2.1 miss
  have ext := Memory.extends_enter (m := s.memory) miss
  have runs : R.Runs t.memory e frame := by
    rw [entered]
    exact ⟨g.lawful.addr_mono _ _ _ ext rel admits.1, g.lawful.body_mono _ _ _ _ ext rel admits.2.1⟩
  by_cases inTable : e.index < p.exprs.size
  · have serves := inside miss inTable plain t entered trusted ready'
    by_cases this : (p.expr e).node = .thisOf frame.cls
    · refine (carries_node_thisOf g ready' serves (by decide) runs.receiver this).imp
        fun o u step ho => ⟨?_, .inl inTable, fun _ => ho⟩
      rw [ho]
      exact .ref (step.addr g.lawful runs.receiver)
    · exact (carries_node g ready' serves runs plain).imp
        fun _ _ _ ho => ⟨ho, .inl inTable, fun h => absurd h this⟩
  · -- There is no such expression, so nothing is evaluated.
    have node : (p.expr e).node = .wildcard := by
      rw [Program.expr_of_size_le (Nat.le_of_not_lt inTable)]
      rfl
    unfold Plan.node
    rw [node]
    exact .pure g ready' ⟨.hot, .inr rfl, nofun⟩

/-- The evaluation of a template keeps to the regime, if the template does while the evaluation is
    in progress. -/
theorem carries_eval_template (g : R.Governs C) (ready : R.Ready s) {e : ExprId} {frame : Frame}
    {final : Bool} (admits : R.Admits s.memory (.eval e frame final)) {c : ClassId}
    (node : (p.expr e).node = .template c)
    (template : s.cache.find? frame.receiver e = none → ∀ t,
      t.memory = s.memory.enter frame.receiver e → t.trusted = s.trusted → R.Ready t →
        R.Carries C (liftM (Query.template c frame.receiver)) t
          fun o m => R.Fits m (R.bound e) o.value) :
    R.Carries C (Plan.eval p e frame final) s
      fun o m => R.Fits m (if final then 0 else R.bound e) o.value := by
  have inTable : e.index < p.exprs.size := by
    by_contra h
    rw [Program.expr_of_size_le (Nat.le_of_not_lt h)] at node
    cases node
  refine carries_evaluation g ready admits fun miss t entered trusted ready' => ?_
  unfold Plan.node
  rw [node]
  exact (template miss t entered trusted ready').imp fun _ _ _ ho => ⟨ho, .inl inTable, nofun⟩

/-! ## Plans of questions -/

/-- The questions may be asked that the question leads to. -/
def Nests (R : Regime p) (C : Contract) (s : Store) {β : Type} (q : Query β) : Prop :=
  R.Serves C s q.kind ∧ R.ServesParts C s q ∧
    match q with
    | .eval e frame final =>
      (s.cache.find? frame.receiver e = none → e.index < p.exprs.size →
        (∀ c, (p.expr e).node ≠ .template c) → ∀ t,
          t.memory = s.memory.enter frame.receiver e → t.trusted = s.trusted → R.Ready t →
            R.Serves C t 9) ∧
      ∀ c, (p.expr e).node = .template c → R.Carries C (Plan.eval p e frame final) s
        fun o m => R.Fits m (if final then 0 else R.bound e) o.value
    | .promote v _ _ => R.ServesTrial C s v
    | _ => True

/-- The plans of all questions but those that run a template keep to the regime. -/
theorem carries_plan (g : R.Governs C) {β : Type} {q : Query β} (general : q.kind < 9)
    (ready : R.Ready s) (admits : R.Admits s.memory q) (nests : R.Nests C s q) :
    R.Carries C (q.plan p) s fun b m => R.Gives s.memory q b m := by
  obtain ⟨serves, parts, more⟩ := nests
  cases q with
  | eval e frame final => exact carries_eval g ready admits more.1 more.2
  | select v f source virtual =>
    exact carries_select g ready serves (by simp [Query.kind]) parts admits
  | call v f args dispatch source =>
    obtain ⟨⟨B, hv⟩, hf, hargs⟩ := admits
    -- The result fits wherever the receiver does.
    have : Nonempty {B // R.Fits s.memory B v} := ⟨⟨B, hv⟩⟩
    have whole := Plan.Obeys.all fun B : {B // R.Fits s.memory B v} =>
      carries_call g ready serves (by simp [Query.kind]) parts B.2 hf hargs
    exact Plan.Obeys.imp whole fun o t ho =>
      ⟨(ho ⟨B, hv⟩).1, (ho ⟨B, hv⟩).2.1, fun B hB => (ho ⟨B, hB⟩).2.2⟩
  | construct v f args source =>
    exact carries_construct g ready serves (by simp [Query.kind]) admits
  | create outer c f args source =>
    exact carries_create g ready serves (by simp [Query.kind]) parts admits
  | promote v reason source => exact carries_promote g ready serves parts more admits
  | isPromotable v => exact carries_isPromotable g ready parts admits
  | enclosingInstance target v c source => exact carries_enclosingInstance g ready parts admits
  | outerInstance type frame source =>
    exact carries_outerInstance g ready serves (by simp [Query.kind]) admits
  | template | body | check => exact absurd general (by simp [Query.kind])

theorem contract_pre {rest : Contract} {β : Type} {q : Query β} (general : q.kind < 9) :
    (R.contract rest).pre q s ↔ R.Ready s ∧ R.Admits s.memory q := by
  simp only [contract, if_neg (Nat.not_le.2 general)]

theorem contract_post {rest : Contract} {β : Type} {q : Query β} {b : β} (general : q.kind < 9) :
    (R.contract rest).post q s b t ↔
      R.rel s.memory t.memory ∧ R.inv t.memory ∧ R.Gives s.memory q b t.memory := by
  simp only [contract, if_neg (Nat.not_le.2 general)]

theorem contract_pre_of_le {rest : Contract} {β : Type} {q : Query β} (large : 9 ≤ q.kind) :
    (R.contract rest).pre q s ↔ rest.pre q s := by
  simp only [contract, if_pos large]

theorem contract_post_of_le {rest : Contract} {β : Type} {q : Query β} {b : β}
    (large : 9 ≤ q.kind) : (R.contract rest).post q s b t ↔ rest.post q s b t := by
  simp only [contract, if_pos large]

theorem Lawful.governs (lawful : R.Lawful) {rest : Contract}
    {allowed : {β : Type} → Query β → Store → Prop} :
    R.Governs ((R.contract rest).only allowed) :=
  ⟨lawful, fun _ _ _ _ general h => (contract_post general).1 h⟩

/-- The questions below a kind may be asked that are allowed. -/
theorem serves_contract {rest : Contract} {allowed : {β : Type} → Query β → Store → Prop}
    (hk : k ≤ 9) (h : ∀ {β : Type} (q : Query β) t, R.Step s t → q.kind < k → allowed q t) :
    R.Serves ((R.contract rest).only allowed) s k :=
  ⟨fun q t step hq ready admits =>
    ⟨(contract_pre (Nat.lt_of_lt_of_le hq hk)).2 ⟨ready, admits⟩, h q t step hq⟩⟩

/-- Where everything may be asked that fits, only the evaluation of templates needs care. -/
theorem Lawful.nests (_ : R.Lawful) {rest : Contract} {β : Type} {q : Query β}
    (general : q.kind < 9)
    (templates : match q with
      | .eval e frame final => ∀ c, (p.expr e).node = .template c →
        R.Carries ((R.contract rest).only (Query.Free q s)) (Plan.eval p e frame final) s
          fun o m => R.Fits m (if final then 0 else R.bound e) o.value
      | _ => True) : R.Nests ((R.contract rest).only (Query.Free q s)) s q := by
  have serves (u : Store) {k : Nat} (hk : k ≤ 9) :
      R.Serves ((R.contract rest).only (Query.Free q s)) u k :=
    serves_contract hk fun _ _ _ _ => trivial
  refine ⟨serves s (Nat.le_of_lt general), ⟨fun r t _ part ready admits =>
    ⟨(contract_pre ?_).2 ⟨ready, admits⟩, trivial⟩⟩, ?_⟩
  · cases part <;> simp [Query.kind]
  cases q with
  | eval e frame final => exact ⟨fun _ _ _ t _ _ _ => serves t (Nat.le_refl 9), templates⟩
  | promote v reason source =>
    refine ⟨fun w _ _ t _ _ => serves t (Nat.le_refl 9), ?_⟩
    intro body params frame env _ _ t _ ready _ u hu reason source
    exact ⟨(contract_pre (by simp [Query.kind])).2 ⟨ready, _, hu⟩, trivial⟩
  | _ => trivial

/-- The contract of a lawful regime is kept, if the plans that run templates keep to theirs. -/
theorem Lawful.kept (lawful : R.Lawful) {rest : Contract}
    {smaller : {γ : Type} → Query γ → Store → {β : Type} → Query β → Store → Prop}
    (nests : ∀ {β : Type} (q : Query β) s, q.kind < 9 → R.Ready s → R.Admits s.memory q →
      R.Nests ((R.contract rest).only (smaller q s)) s q)
    (templates : ∀ {β : Type} (q : Query β) s, 9 ≤ q.kind → rest.pre q s →
      (q.plan p).Obeys p ((R.contract rest).only (smaller q s)) s (rest.post q s)) :
    (R.contract rest).Kept p smaller := by
  intro β q s pre
  by_cases general : q.kind < 9
  · obtain ⟨ready, admits⟩ := (contract_pre general).1 pre
    refine Plan.Obeys.imp (carries_plan lawful.governs general ready admits
      (nests q s general ready admits)) fun b t h => ?_
    exact (contract_post general).2 ⟨h.1.rel, h.1.inv, h.2.2⟩
  · have large := Nat.le_of_not_lt general
    refine Plan.Obeys.imp (templates q s large ((contract_pre_of_le large).1 pre)) fun b t h => ?_
    exact (contract_post_of_le large).2 h

end Regime

end ObjectInit
