import ObjectInit.Proofs.Promotion
import ObjectInit.Proofs.Ways

/-!
# No error is lost

Errors never end an analysis; they are collected in the answers. What a question on the way finds is
contained in the answer to the question at the start: a plan tells (`Plan.Tells`) if its answer has
errors whenever the answer to one of its questions has some.

Main results:

* `Plan.Tells.bind`: how a plan that tells is put together.
* `Query.tells`: the plans of all questions tell.
* `Query.Way.clean`: if a question is answered without errors, so are all questions on the way.
-/

namespace ObjectInit

variable {p : Program} {n m : Nat} {α β γ : Type} {s s' t t' : Store}

/-! ## Plans that tell -/

namespace Plan

/-- If the answer of the plan satisfies `E`, its questions were answered without errors. -/
def Tells (p : Program) (x : Plan α) (E : α → Prop) : Prop :=
  ∀ n s a s', x.Ends p n s a s' → E a → ∀ (γ : Type) (q : Query γ) t, x.Asks p s q t →
    ∃ c t', q.Answered p t c t' ∧ q.Clean c

/-- If the answer of the plan satisfies `E`, the proposition holds. -/
def Shows (p : Program) (x : Plan α) (E : α → Prop) (P : Prop) : Prop :=
  ∀ n s a s', x.Ends p n s a s' → E a → P

variable {E : α → Prop} {F : β → Prop} {P : Prop}

/-- A plan that goes on with another one asks what both ask. -/
theorem Asks.of_bind {x : Plan β} {f : β → Plan α} {q : Query γ}
    (h : (x >>= f).Asks p s q t) :
    x.Asks p s q t ∨ ∃ n b u, x.Ends p n s b u ∧ (f b).Asks p u q t := by
  change (x.bind f).Asks p s q t at h
  induction x generalizing s with
  | pure b => exact .inr ⟨0, b, s, ends_pure.2 ⟨rfl, rfl⟩, h⟩
  | ask r next ih =>
    cases h with
    | here => exact .inl .here
    | @afterAsk _ _ _ _ _ _ u _ b n _ hr h =>
      rcases ih b h with h | ⟨m, c, v, hx, hf⟩
      · exact .inl (.afterAsk hr h)
      · exact .inr ⟨max n m, c, v, ends_ask_next.2
          ⟨b, u, hr.mono (Nat.le_max_left n m), hx.mono (Nat.le_max_right n m)⟩, hf⟩
  | perform effect next ih =>
    cases h with
    | @afterEffect _ _ _ _ _ _ u _ b _ heffect h =>
      rcases ih b h with h | ⟨m, c, v, hx, hf⟩
      · exact .inl (.afterEffect heffect h)
      · exact .inr ⟨m, c, v, ends_perform_next.2 ⟨b, u, heffect, hx⟩, hf⟩
  | within scope part next _ ih =>
    cases h with
    | inside h => exact .inl (.inside h)
    | @afterScope _ _ _ _ _ _ _ u _ b n _ hpart h =>
      rcases ih b h with h | ⟨m, c, v, hx, hf⟩
      · exact .inl (.afterScope hpart h)
      · exact .inr ⟨max n m, c, v, ends_within.2
          ⟨b, u, hpart.mono (Nat.le_max_left n m), hx.mono (Nat.le_max_right n m)⟩, hf⟩

theorem shows_pure {a : α} (h : E a → P) : (Pure.pure a : Plan α).Shows p E P := by
  intro n s b s' hb hE
  obtain ⟨rfl, rfl⟩ := ends_pure.1 hb
  exact h hE

theorem shows_bind {x : Plan β} {f : β → Plan α} (h : ∀ b, (f b).Shows p E P) :
    (x >>= f).Shows p E P := by
  intro n s a s' ha hE
  obtain ⟨b, t, -, hf⟩ := ends_bind.1 ha
  exact h b _ _ _ _ hf hE

theorem shows_precededBy {x : Plan Outcome} {es : List SafetyError} :
    (x >>= fun o => Pure.pure (o.precededBy es)).Shows p Outcome.Clean (es = []) :=
  shows_bind fun _ => shows_pure fun h => (Outcome.clean_precededBy.1 h).1

theorem shows_true {x : Plan α} : x.Shows p E True := fun _ _ _ _ _ _ => trivial

theorem shows_ite {c : Prop} [Decidable c] {x y : Plan α} (hx : c → x.Shows p E P)
    (hy : ¬c → y.Shows p E P) : (if c then x else y).Shows p E P := by
  by_cases h : c
  · rw [if_pos h]
    exact hx h
  · rw [if_neg h]
    exact hy h

namespace Tells

theorem pure (a : α) : (Pure.pure a : Plan α).Tells p E := by
  intro n s b s' _ _ γ q t h
  cases h

theorem ask (q : Query β) : (liftM q : Plan β).Tells p q.Clean := by
  intro n s b s' hb clean γ r t hasks
  cases hasks with
  | here => exact ⟨b, s', ⟨n, ends_ask.1 hb⟩, clean⟩
  | afterAsk _ hasks => cases hasks

theorem perform (effect : Effect β) : (liftM effect : Plan β).Tells p F := by
  intro n s b s' _ _ γ q t hasks
  cases hasks with
  | afterEffect _ hasks => cases hasks

/-- A plan tells what its first part asks, if its answer shows that the answer of that part was
    fine. -/
theorem bind {x : Plan β} {f : β → Plan α} (hx : x.Tells p F) (hf : ∀ b, (f b).Tells p E)
    (back : ∀ b, (f b).Shows p E (F b)) : (x >>= f).Tells p E := by
  intro n s a s' ha hE γ q t hasks
  obtain ⟨b, u, hb, hfb⟩ := ends_bind.1 ha
  rcases hasks.of_bind with hasks | ⟨m, c, v, hc, hasks⟩
  · exact hx n s b u hb (back b n u a s' hfb hE) γ q t hasks
  · obtain ⟨rfl, rfl⟩ := hb.unique hc
    exact hf b n u a s' hfb hE γ q t hasks

/-- The errors of a part are put in front of those of the last part. -/
theorem preceding {x : Plan Outcome} {es : List SafetyError} (hx : x.Tells p Outcome.Clean) :
    (x >>= fun o => Pure.pure (o.precededBy es)).Tells p Outcome.Clean :=
  hx.bind (fun _ => .pure _) fun _ => shows_pure fun h => (Outcome.clean_precededBy.1 h).2

/-- The answer is made from that of the last part. -/
theorem ret {x : Plan β} {f : β → α} (hx : x.Tells p F) (back : ∀ b, E (f b) → F b) :
    (x >>= fun b => Pure.pure (f b)).Tells p E :=
  hx.bind (fun _ => .pure _) fun b => shows_pure (back b)

/-- The answer is made from those of the last two parts. -/
theorem ret₂ {x : Plan β} {y : β → Plan γ} {G : γ → Prop} {f : β → γ → α} (hx : x.Tells p F)
    (hy : ∀ b, (y b).Tells p G) (back : ∀ b c, E (f b c) → F b ∧ G c) :
    (x >>= fun b => y b >>= fun c => Pure.pure (f b c)).Tells p E :=
  hx.bind (fun b => (hy b).ret fun c h => (back b c h).2)
    fun b => shows_bind fun c => shows_pure fun h => (back b c h).1

theorem map {x : Plan β} {f : β → α} (hx : x.Tells p F) (back : ∀ b, E (f b) → F b) :
    (f <$> x).Tells p E := by
  rw [map_eq_pure_bind]
  exact hx.ret back

theorem look_bind {f : Store → Plan α} (hf : ∀ s, (f s).Tells p E) :
    ((liftM Effect.look : Plan Store) >>= f).Tells p E :=
  (perform (F := fun _ => True) .look).bind hf fun _ => shows_true

theorem within {scope : Scope β} {part : Plan β} {next : β → Plan α} (hpart : part.Tells p F)
    (hnext : ∀ b, (next b).Tells p E) (back : ∀ b, (next b).Shows p E (F b)) :
    (Plan.within scope part next).Tells p E := by
  intro n s a s' ha hE γ q t hasks
  obtain ⟨b, u, hb, hnextb⟩ := ends_within.1 ha
  cases hasks with
  | inside hasks => exact hpart _ _ b u hb (back b _ _ _ _ hnextb hE) γ q t hasks
  | afterScope hc hasks =>
    obtain ⟨rfl, rfl⟩ := hb.unique hc
    exact hnext b _ _ _ _ hnextb hE γ q t hasks

theorem inEnv {x : Plan α} (env : Env) (hx : x.Tells p E) : (Plan.inEnv env x).Tells p E :=
  hx.within (fun b => .pure b) fun _ => shows_pure id

theorem inTrace {x : Plan α} (trace : Trace) (hx : x.Tells p E) :
    (Plan.inTrace trace x).Tells p E :=
  hx.within (fun b => .pure b) fun _ => shows_pure id

theorem calledFrom {x : Plan α} (source : Span) (hx : x.Tells p E) :
    (Plan.calledFrom source x).Tells p E :=
  look_bind fun _ => .inTrace _ hx

theorem fail (error : Place → SafetyError) (source : Span) {E : Outcome → Prop} :
    (Plan.fail error source).Tells p E :=
  (perform (F := fun _ => True) _).map fun _ _ => trivial

theorem ite {c : Prop} [Decidable c] {x y : Plan α} (hx : c → x.Tells p E)
    (hy : ¬c → y.Tells p E) : (if c then x else y).Tells p E := by
  by_cases h : c
  · rw [if_pos h]
    exact hx h
  · rw [if_neg h]
    exact hy h

/-! ### Parts for each element -/

theorem mapM {xs : List γ} {f : γ → Plan β} (hf : ∀ x, (f x).Tells p F) :
    (xs.mapM f).Tells p fun bs => ∀ b ∈ bs, F b := by
  induction xs with
  | nil => exact .pure _
  | cons x xs ih =>
    rw [List.mapM_cons]
    refine (hf x).bind (fun b => ?_) fun b => ?_
    · refine ih.bind (fun bs => .pure _) fun bs => shows_pure fun h c hc => ?_
      exact h c (List.mem_cons_of_mem b hc)
    · exact shows_bind fun bs => shows_pure fun h => h b List.mem_cons_self

theorem joinEach {xs : List γ} {f : γ → Plan Outcome} (hf : ∀ x, (f x).Tells p Outcome.Clean) :
    (Plan.joinEach xs f).Tells p Outcome.Clean :=
  (mapM hf).map fun _ => Outcome.clean_joinAll.1

theorem errorsOfEach {xs : List γ} {f : γ → Plan (List SafetyError)}
    (hf : ∀ x, (f x).Tells p (· = [])) : (Plan.errorsOfEach xs f).Tells p (· = []) :=
  (mapM hf).map fun _ => List.flatten_eq_nil_iff.1

end Tells

/-! ## Members -/

theorem tells_eval (e : ExprId) (frame : Frame) (final : Bool) :
    (liftM (Query.eval e frame final) : Plan Outcome).Tells p Outcome.Clean :=
  .ask _

theorem tells_initializer (a : Addr) (field : SymbolId) (source : Span) :
    (initializer p a field source).Tells p Outcome.Clean := by
  unfold initializer
  split
  · exact .calledFrom source (tells_eval _ _ _)
  · exact .fail _ source

theorem tells_selectMissing (a : Addr) (field : SymbolId) (source : Span) :
    (selectMissing p a field source).Tells p Outcome.Clean := by
  cases a with
  | warm w => exact .ite (fun _ => .pure _) fun _ => tells_initializer _ field source
  | thisOf c => exact .ite (fun _ => .calledFrom source (.fail _ source)) fun _ => .fail _ source

theorem tells_selectAt (a : Addr) (field : SymbolId) (source : Span) :
    (selectAt p a field source).Tells p Outcome.Clean := by
  refine .ite (fun _ => tells_initializer a field source) fun _ => .look_bind fun s => ?_
  split
  · exact .pure _
  · exact tells_selectMissing a field source

theorem tells_select (v : Value) (field : SymbolId) (source : Span) (virtual : Bool) :
    (select p v field source virtual).Tells p Outcome.Clean := by
  cases v with
  | hot => exact .pure _
  | cold => exact .fail _ source
  | ref a => exact tells_selectAt a _ source
  | closure => exact (Tells.perform (F := fun _ => True) _).ret fun _ _ => trivial
  | oneOf vs => exact .joinEach fun v => .ask _

theorem tells_promoteArgument (arg : ArgValue) :
    (promoteArgument arg).Tells p (· = []) :=
  .inTrace _ (.ask _)

theorem tells_promoteArguments (args : List ArgValue) :
    (promoteArguments args).Tells p (· = []) :=
  .errorsOfEach tells_promoteArgument

theorem tells_followedBy (o : Outcome) (args : List ArgValue) :
    (do return o.followedBy (← promoteArguments args)).Tells p Outcome.Clean :=
  (tells_promoteArguments args).ret fun _ h => (Outcome.clean_followedBy.1 h).2

theorem shows_followedBy (o : Outcome) (args : List ArgValue) :
    (do return o.followedBy (← promoteArguments args)).Shows p Outcome.Clean o.Clean :=
  shows_bind fun _ => shows_pure fun h => (Outcome.clean_followedBy.1 h).1

theorem tells_runMember (a : Addr) (target : SymbolId) (args : List ArgValue) :
    (runMember p a target args).Tells p Outcome.Clean := by
  cases body : (p.symbol target).body with
  | none =>
    simp only [runMember, body]
    exact .pure _
  | some e =>
    rw [runMember_of_body body]
    refine .ite (fun _ => ?_) fun _ => .ite (fun _ => ?_) fun _ => .ite (fun _ => ?_) fun _ => ?_
    · exact (Tells.inEnv _ (.calledFrom _ (tells_eval e _ true))).ret fun _ h => h
    · exact .inEnv _ (tells_eval e _ true)
    · exact .look_bind fun s => .inEnv _ (tells_eval e _ true)
    · exact (Tells.inEnv _ (tells_eval e _ true)).bind (fun o => tells_followedBy o args)
        fun o => shows_followedBy o args

theorem tells_callTarget (a : Addr) (target : SymbolId) (args : List ArgValue) (source : Span) :
    (callTarget p a target args source).Tells p Outcome.Clean :=
  .ite (fun _ => .calledFrom source (tells_runMember a target args)) fun _ =>
    .ite (fun _ => .pure _) fun _ => .fail _ source

theorem tells_callAt (a : Addr) (method : SymbolId) (args : List ArgValue) (dispatch : Dispatch)
    (source : Span) : (callAt p a method args dispatch source).Tells p Outcome.Clean := by
  refine .ite (fun _ => tells_callTarget a _ args source) fun _ => .look_bind fun s => ?_
  split
  · exact .pure _
  · exact .ask _

theorem tells_call (v : Value) (method : SymbolId) (args : List ArgValue) (dispatch : Dispatch)
    (source : Span) : (call p v method args dispatch source).Tells p Outcome.Clean := by
  cases v with
  | hot => exact (tells_promoteArguments args).ret fun _ h => h
  | cold =>
    exact (Tells.fail _ source).bind (fun o => tells_followedBy o args)
      fun o => shows_followedBy o args
  | ref a => exact tells_callAt a method args dispatch source
  | closure body params frame env =>
    refine .ite (fun _ => ?_) fun _ => .pure _
    exact (Tells.calledFrom source (.inEnv _ (tells_eval body frame true))).bind
      (fun o => tells_followedBy o args) fun o => shows_followedBy o args
  | oneOf vs => exact .joinEach fun v => .ask _

theorem tells_construct (v : Value) (ctor : SymbolId) (args : List ArgValue) (source : Span) :
    (construct p v ctor args source).Tells p Outcome.Clean := by
  cases v with
  | ref a => exact tells_callTarget a ctor args source
  | _ => exact (Tells.perform (F := fun _ => True) _).ret fun _ _ => trivial

/-! ## Enclosing instances -/

theorem tells_askInstance (target : ClassId) (v : Value) (c : ClassId) (source : Span) :
    (liftM (Query.enclosingInstance target v c source) : Plan Value).Tells p fun _ => True :=
  .ask _

theorem tells_enclosingInstance (target : ClassId) (v : Value) (c : ClassId) (source : Span) :
    (enclosingInstance p target v c source).Tells p fun _ => True := by
  refine .ite (fun _ => .pure _) fun _ => .ite (fun _ => .pure _) fun _ => ?_
  cases v with
  | hot | cold => exact .pure _
  | ref a =>
    refine .look_bind fun s => ?_
    split
    · exact tells_askInstance _ _ _ source
    · exact (Tells.perform (F := fun _ => True) _).ret fun _ _ => trivial
  | closure => exact (Tells.perform (F := fun _ => True) _).ret fun _ _ => trivial
  | oneOf vs =>
    exact (Tells.mapM fun v => tells_askInstance target v c source).ret fun _ _ _ _ => trivial

theorem tells_evalPath (frame : Frame) (source : Span) (path : Path) :
    (evalPath p frame source path).Tells p Outcome.Clean := by
  induction path with
  | bare => exact .pure _
  | constant => exact .pure _
  | paramRef => exact .pure _
  | thisOf target =>
    exact .ite (fun _ => .pure _) fun _ => (tells_askInstance _ _ _ _).ret fun _ _ => trivial
  | member base s ih =>
    have read : (do
        let receiver ← evalPath p frame source base
        let o ← Query.select receiver.value s source true
        return o.precededBy receiver.errors).Tells p Outcome.Clean :=
      ih.ret₂ (fun _ => .ask _) fun _ _ h => Outcome.clean_precededBy.1 h
    cases base with
    | bare => exact .look_bind fun _ => .pure _
    | _ => exact read

theorem tells_outerInstance (type : ClassRef) (frame : Frame) (source : Span) :
    (outerInstance p type frame source).Tells p Outcome.Clean := by
  refine .ite (fun _ => ?_) fun _ => .ite (fun _ => .pure _) fun _ => ?_
  · exact (tells_askInstance _ _ _ _).ret fun _ _ => trivial
  · exact tells_evalPath frame source type.path

/-! ## Promotion -/

theorem tells_askPromotable (v : Value) :
    (liftM (Query.isPromotable v) : Plan Bool).Tells p fun _ => True :=
  .ask _

theorem tells_capturesHot (v : Value) : (capturesHot p v).Tells p fun _ => True := by
  cases v with
  | ref a =>
    cases a with
    | warm w =>
      exact (Tells.perform (F := fun _ => True) _).bind
        (fun creation => .ite (fun _ => tells_askPromotable creation.outer) fun _ => .pure _)
        fun _ => shows_true
    | thisOf c => exact .look_bind fun _ => .pure _
  | closure _ _ frame => exact tells_askPromotable (.ref frame.receiver)
  | _ => exact .pure _

theorem tells_isPromotable (v : Value) : (isPromotable p v).Tells p fun _ => True := by
  have test (v : Value) : (do
      let promotable ← capturesHot p v
      if promotable then
        Effect.trust v
      return promotable : Plan Bool).Tells p fun _ => True := by
    refine (tells_capturesHot v).bind (fun b => ?_) fun _ => shows_true
    cases b with
    | true => exact (Tells.perform (F := fun _ => True) (.trust v)).ret fun _ _ => trivial
    | false => exact .pure _
  cases v with
  | hot | cold => exact .pure _
  | ref | closure => exact .look_bind fun s => .ite (fun _ => .pure _) fun _ => test _
  | oneOf vs =>
    refine .look_bind fun s => .ite (fun _ => .pure _) fun untrusted => ?_
    clear untrusted
    change (vs.allM fun v => (liftM (Query.isPromotable v) : Plan Bool)).Tells p fun _ => True
    induction vs with
    | nil => exact .pure _
    | cons v vs ih =>
      refine (tells_askPromotable v).bind (fun b => ?_) fun _ => shows_true
      cases b with
      | true => exact ih
      | false => exact .pure _

theorem tells_explain (reason : String) (causes : List SafetyError) (source : Span)
    {E : List SafetyError → Prop} : (explain reason causes source).Tells p E :=
  .ite (fun _ => .pure _) fun _ => (Tells.perform (F := fun _ => True) _).ret fun _ _ => trivial

theorem tells_failPromotion (reason : String) (source : Span) :
    (failPromotion reason source).Tells p (· = []) :=
  (Tells.perform (F := fun _ => True) _).ret fun _ _ => trivial

theorem tells_requireHot (o : Outcome) (reason : String) (source : Span) :
    (requireHot o reason source).Tells p Outcome.Clean :=
  (Tells.ask (.promote o.value reason source)).ret fun _ h => (Outcome.clean_followedBy.1 h).2

/-- The errors of an outcome that has to be hot. -/
theorem tells_errorsOfRequireHot {use : Plan Outcome} (huse : use.Tells p Outcome.Clean)
    (reason : String) (source : Span) :
    (do return (← requireHot (← use) reason source).errors).Tells p (· = []) := by
  refine huse.bind (fun o => (tells_requireHot o reason source).ret fun _ h => h) fun o => ?_
  intro n s es s' hes hnone
  obtain ⟨q, t, hq, h⟩ := ends_bind.1 hes
  obtain ⟨rfl, rfl⟩ := ends_pure.1 h
  obtain ⟨fs, u, -, h⟩ := ends_bind.1 hq
  obtain ⟨rfl, rfl⟩ := ends_pure.1 h
  exact (Outcome.clean_followedBy.1 hnone).1

theorem tells_tryUse {use : Plan Outcome} (huse : use.Tells p Outcome.Clean) (at' : Span)
    (reason : String) (source : Span) : (tryUse use at' reason source).Tells p (· = []) :=
  .calledFrom at' (tells_errorsOfRequireHot huse reason source)

theorem shows_explain (reason : String) (causes : List SafetyError) (source : Span) :
    (explain reason causes source).Shows p (· = []) (causes = []) := by
  intro n s es s' h hnone
  subst hnone
  exact (ends_explain_nil h).1

theorem tells_promoteWarm (w : Warm) (reason : String) (source : Span) :
    (promoteWarm p w reason source).Tells p (· = []) := by
  refine .ite (fun _ => tells_failPromotion reason source) fun _ => ?_
  refine (Tells.errorsOfEach fun f => tells_tryUse (.ask _) _ reason source).bind (fun es => ?_)
    fun es => ?_
  · refine .look_bind fun s => ?_
    refine (Tells.errorsOfEach fun m => tells_tryUse (.ask _) _ reason source).bind
      (fun fs => tells_explain reason _ source) fun fs n s gs s' h hnone => ?_
    exact (List.append_eq_nil_iff.1 (shows_explain reason _ source n s gs s' h hnone)).2
  · refine shows_bind fun s => shows_bind fun fs n s gs s' h hnone => ?_
    exact (List.append_eq_nil_iff.1 (shows_explain reason _ source n s gs s' h hnone)).1

theorem tells_promoteBody (body : ExprId) (params : List SymbolId) (frame : Frame) (env : Env)
    (reason : String) (source : Span) :
    (promoteBody body params frame env reason source).Tells p (· = []) :=
  tells_errorsOfRequireHot (.inEnv _ (tells_eval body frame false)) reason source

theorem tells_promote (v : Value) (reason : String) (source : Span) :
    (promote p v reason source).Tells p (· = []) := by
  cases v with
  | hot => exact .pure _
  | cold => exact tells_failPromotion reason source
  | oneOf vs => exact .errorsOfEach fun v => .ask _
  | ref a =>
    refine (tells_askPromotable _).bind (fun b => .ite (fun _ => .pure _) fun _ => ?_)
      fun _ => shows_true
    cases a with
    | thisOf c => exact tells_failPromotion reason source
    | warm w =>
      exact (tells_promoteWarm w reason source).within (fun _ => .pure _) fun _ => shows_pure id
  | closure body params frame env =>
    refine (tells_askPromotable _).bind (fun b => .ite (fun _ => .pure _) fun _ => ?_)
      fun _ => shows_true
    exact (tells_promoteBody body params frame env reason source).within
      (fun es => tells_explain reason es source) fun es => shows_explain reason es source

/-! ## Evaluation -/

theorem tells_errorsOf (e : ExprId) (frame : Frame) :
    (errorsOf e frame).Tells p (· = []) :=
  (tells_eval e frame false).ret fun _ h => h

theorem tells_errorsOfHot (e : ExprId) (frame : Frame) (reason : String) :
    (errorsOfHot p e frame reason).Tells p (· = []) :=
  tells_errorsOfRequireHot (tells_eval e frame false) reason _

theorem tells_evalBranches (es : List ExprId) (frame : Frame) :
    (evalBranches es frame).Tells p Outcome.Clean :=
  .joinEach fun e => tells_eval e frame false

theorem tells_evalArgument (frame : Frame) (arg : Arg) :
    (evalArgument p frame arg).Tells p (·.1 = []) := by
  have rest (o : Outcome) : (do
      return (o.errors, ⟨o.value, (p.expr arg.expr).span, (← Effect.look).trace⟩) :
        Plan (List SafetyError × ArgValue)).Tells p (·.1 = []) :=
    .look_bind fun _ => .pure _
  have shown (o : Outcome) : (do
      return (o.errors, ⟨o.value, (p.expr arg.expr).span, (← Effect.look).trace⟩) :
        Plan (List SafetyError × ArgValue)).Shows p (·.1 = []) o.Clean :=
    shows_bind fun _ => shows_pure id
  by_cases byName : arg.byName
  · rw [evalArgument, if_pos byName]
    have captured : (Outcome.ofValue <$> closure [] arg.expr frame).Tells p Outcome.Clean :=
      Tells.map (F := fun _ => True) (.look_bind fun _ => .pure _) fun _ _ => trivial
    exact captured.bind rest shown
  · rw [evalArgument, if_neg byName]
    exact (tells_eval arg.expr frame false).bind rest shown

theorem tells_evalArguments (frame : Frame) (args : List Arg) :
    (evalArguments p frame args).Tells p (·.1 = []) :=
  (Tells.mapM (tells_evalArgument frame)).ret fun _ h => List.flatMap_eq_nil_iff.1 h

theorem tells_callNamed (method : SymbolId) (path : Path) (args : List ArgValue) (frame : Frame)
    (source : Span) : (callNamed p method path args frame source).Tells p Outcome.Clean := by
  refine .ite (fun _ => ?_) fun _ => ?_
  · exact (tells_askInstance _ _ _ source).bind (fun _ => .ask _) fun _ => shows_true
  · exact (tells_evalPath frame source path).ret₂ (fun _ => .ask _)
      fun _ _ h => (Outcome.clean_precededBy.1 h)

theorem tells_callCallee (callee : Callee) (args : List ArgValue) (frame : Frame) (source : Span) :
    (callCallee p callee args frame source).Tells p Outcome.Clean := by
  cases callee with
  | super home base method =>
    exact (tells_askInstance _ _ _ source).bind (fun _ => .ask _) fun _ => shows_true
  | select qualifier method =>
    exact (tells_eval qualifier frame false).bind
      (fun r => .ite (fun _ => .preceding (.ask _)) fun _ => .preceding (.ask _))
      fun r => shows_ite (fun _ => shows_precededBy) fun _ => shows_precededBy
  | ident method path => exact tells_callNamed method path args frame source

theorem tells_evalNew (type : ClassRef) (ctor : SymbolId) (args : List Arg) (frame : Frame)
    (source : Span) : (evalNew p type ctor args frame source).Tells p Outcome.Clean := by
  refine (tells_evalArguments frame args).bind (fun r => ?_) fun r => ?_
  · refine .ite (fun _ => .pure _) fun _ => ?_
    exact (Tells.ask (.outerInstance type frame source)).ret₂
      (fun _ => .calledFrom source (.ask _)) fun _ _ h => Outcome.clean_precededBy.1 h
  · refine shows_ite (fun _ => shows_pure id) fun hnone => ?_
    intro n s o s' _ _
    simpa using hnone

theorem tells_evalBlock (frame : Frame) (result : ExprId) (stats : List ExprId) :
    (evalBlock p frame result stats).Tells p Outcome.Clean := by
  induction stats with
  | nil => exact tells_eval result frame false
  | cons stat stats ih =>
    rw [evalBlock]
    refine (tells_eval stat frame false).bind (fun o => ?_) fun o => ?_
    · split
      · exact .look_bind fun _ => .preceding (.inEnv _ ih)
      · exact .preceding ih
    · split
      · exact shows_bind fun _ => shows_precededBy
      · exact shows_precededBy

theorem tells_evalTarget (target : ExprId) (frame : Frame) :
    (evalTarget p target frame).Tells p (· = []) := by
  unfold evalTarget
  split
  · exact tells_errorsOf _ frame
  · exact .pure _

theorem tells_node (e : ExprId) (frame : Frame) : (node p e frame).Tells p Outcome.Clean := by
  unfold node
  cases (p.expr e).node with
  | wildcard | literal | methodDef | typeDef => exact .pure _
  | ident s path =>
    exact .ite (fun _ => tells_callNamed s _ [] frame _) fun _ => tells_evalPath frame _ path
  | thisOf target => exact tells_evalPath frame _ _
  | select qualifier s =>
    exact (tells_eval qualifier frame false).bind
      (fun r => .ite (fun _ => .preceding (.ask _)) fun _ => .preceding (.ask _))
      fun r => shows_ite (fun _ => shows_precededBy) fun _ => shows_precededBy
  | call callee args =>
    exact (tells_evalArguments frame args).bind
      (fun r => .preceding (tells_callCallee callee r.2 frame _)) fun r => shows_precededBy
  | new type ctor args => exact tells_evalNew type ctor args frame _
  | assign target value =>
    exact (tells_evalTarget target frame).ret₂ (fun _ => tells_errorsOfHot value frame _)
      fun _ _ h => List.append_eq_nil_iff.1 h
  | ifElse cond onTrue onFalse =>
    refine (tells_errorsOf cond frame).bind (fun es => ?_) fun es => ?_
    · exact (tells_eval onTrue frame false).ret₂ (fun _ => tells_eval onFalse frame false)
        fun _ _ h => Outcome.clean_join.1 (Outcome.clean_precededBy.1 h).2
    · exact shows_bind fun _ => shows_bind fun _ => shows_pure fun h =>
        (Outcome.clean_precededBy.1 h).1
  | matchOn scrutinee branches =>
    exact (tells_errorsOfHot scrutinee frame _).bind
      (fun _ => .preceding (tells_evalBranches branches frame)) fun _ => shows_precededBy
  | whileLoop cond body =>
    exact (tells_errorsOf cond frame).ret₂ (fun _ => tells_errorsOf body frame)
      fun _ _ h => List.append_eq_nil_iff.1 h
  | tryCatch body handlers finalizer =>
    cases finalizer with
    | none =>
      exact (tells_eval body frame false).ret₂ (fun _ => tells_evalBranches handlers frame)
        fun _ _ h => Outcome.clean_join.1 h
    | some e =>
      have both {o r : Outcome} {es : List SafetyError} (h : ((o.join r).followedBy es).Clean) :
          o.Clean ∧ r.Clean ∧ es = [] :=
        ⟨(Outcome.clean_join.1 (Outcome.clean_followedBy.1 h).1).1,
          (Outcome.clean_join.1 (Outcome.clean_followedBy.1 h).1).2,
          (Outcome.clean_followedBy.1 h).2⟩
      refine (tells_eval body frame false).bind (fun o => ?_) fun o => ?_
      · exact (tells_evalBranches handlers frame).ret₂ (fun _ => tells_errorsOf e frame)
          fun _ _ h => (both h).2
      · exact shows_bind fun _ => shows_bind fun _ => shows_pure fun h => (both h).1
  | sequence elems =>
    exact (Tells.errorsOfEach fun e => tells_errorsOfHot e frame Reason.sequence).ret fun _ h => h
  | closure params body =>
    exact Tells.ret (F := fun _ => True) (.look_bind fun _ => .pure _) fun _ _ => trivial
  | block stats result => exact tells_evalBlock frame result stats
  | typed e unchecked =>
    exact .ite (fun _ => .pure _) fun _ => tells_eval e frame false
  | annotated e unchecked =>
    exact .ite (fun _ => .pure _) fun _ => tells_eval e frame false
  | ret e => exact (tells_errorsOfHot e frame _).ret fun _ h => h
  | namedArg e => exact tells_eval e frame false
  | valDef s =>
    dsimp only
    split
    · exact tells_eval _ frame true
    · exact .pure _
  | template c => exact .ask _

theorem tells_evaluation (e : ExprId) (frame : Frame) (final : Bool) :
    (eval p e frame final).Tells p Outcome.Clean := by
  refine .look_bind fun s => ?_
  split
  · exact .pure _
  · exact (Tells.calledFrom _ (tells_node e frame)).within (fun _ => .pure _) fun _ => shows_pure id

/-! ## Objects -/

theorem tells_createWarm (outer : Value) (c : ClassId) (ctor : SymbolId) (args : List ArgValue)
    (source : Span) : (createWarm outer c ctor args source).Tells p Outcome.Clean := by
  refine (Tells.perform (F := fun _ => True) _).bind (fun w => ?_) fun _ => shows_true
  refine .look_bind fun s => .ite (fun _ => .pure _) fun _ => ?_
  refine (Tells.perform (F := fun _ => True) _).bind (fun _ => ?_) fun _ => shows_true
  exact (Tells.ask _).ret fun _ h => h

theorem tells_checkArgument (arg : ArgValue) : (checkArgument arg).Tells p (·.1 = []) :=
  (tells_promoteArgument arg).ret fun _ h => h

theorem tells_create (outer : Value) (c : ClassId) (ctor : SymbolId) (args : List ArgValue)
    (source : Span) : (create p outer c ctor args source).Tells p Outcome.Clean := by
  cases outer with
  | hot =>
    refine (Tells.mapM tells_checkArgument).bind (fun checked => ?_) fun checked => ?_
    · refine .ite (fun _ => ?_) fun _ => .pure _
      exact (tells_createWarm .hot c ctor _ source).ret fun _ h => (List.append_eq_nil_iff.1 h).2
    · refine shows_ite (fun _ => ?_) fun _ => shows_pure List.flatMap_eq_nil_iff.1
      exact shows_bind fun _ => shows_pure fun h =>
        List.flatMap_eq_nil_iff.1 (List.append_eq_nil_iff.1 h).1
  | cold => exact .fail _ source
  | ref a =>
    refine .ite (fun _ => ?_) fun _ => (tells_promoteArguments args).ret fun _ h => h
    have outer : (rememberedOuter a).Tells p fun _ => True := by
      cases a with
      | warm w =>
        refine (Tells.perform (F := fun _ => True) _).bind (fun _ => ?_) fun _ => shows_true
        split <;> exact .pure _
      | thisOf c => exact .pure _
    refine outer.bind (fun v => ?_) fun _ => shows_true
    refine (tells_createWarm v c ctor args source).bind (fun o => ?_) fun o => ?_
    · exact .look_bind fun s => .ite (fun _ => .pure _) fun _ => .pure _
    · exact shows_bind fun s => shows_ite (fun _ => shows_pure id) fun _ => shows_pure id
  | closure => exact (Tells.perform (F := fun _ => True) _).ret fun _ _ => trivial
  | oneOf vs => exact .joinEach fun v => .ask _

theorem tells_setParams (c : ClassId) (this : Addr) :
    (setParams p c this).Tells p fun _ => True := by
  unfold setParams
  dsimp only
  generalize p.paramFields c = fields
  induction fields with
  | nil => exact .pure _
  | cons field fields ih =>
    refine Tells.bind (F := fun _ => True) ?_ (fun _ => ih) fun _ => shows_true
    exact .look_bind fun s => .perform _

theorem tells_prepareParent (c : ClassId) (this : Addr) (type : ClassRef) (ctor : Option SymbolId)
    (args : List ArgValue) (source : Span) :
    (prepareParent p c this type ctor args source).Tells p (·.1 = []) := by
  refine (Tells.ask (.outerInstance type ⟨this, c⟩ source)).bind (fun o => ?_) fun o => ?_
  · exact (Tells.perform (F := fun _ => True) _).ret fun _ _ => trivial
  · exact shows_bind fun _ => shows_pure id

theorem tells_prepareListed (c : ClassId) (this : Addr) (parent : Parent) :
    (prepareListed p c this parent).Tells p (·.1 = []) :=
  (tells_evalArguments ⟨this, c⟩ parent.args).ret₂
    (fun r => tells_prepareParent c this parent.type parent.ctor r.2 parent.span)
    fun _ _ h => List.append_eq_nil_iff.1 h

theorem tells_prepareMixin (c : ClassId) (this : Addr) (superClass : Parent) (listed : List Parent)
    (mixin : ClassId) : (prepareMixin p c this superClass listed mixin).Tells p (·.1 = []) := by
  unfold prepareMixin
  split
  · exact tells_prepareListed c this _
  · exact tells_prepareParent c this _ _ _ _

theorem tells_initParents (c : ClassId) (this : Addr) (parents : List Parent) :
    (initParents p c this parents).Tells p (· = []) := by
  cases parents with
  | nil => exact .pure _
  | cons superClass listed =>
    refine (tells_prepareListed c this superClass).bind (fun first => ?_) fun first => ?_
    · refine (Tells.mapM (tells_prepareMixin c this superClass listed)).bind (fun mixins => ?_)
        fun mixins => ?_
      · refine (Tells.errorsOfEach fun call => ?_).ret fun _ h => (List.append_eq_nil_iff.1 h).2
        exact (Tells.ask _).ret fun _ h => h
      · refine shows_bind fun _ => shows_pure fun h mixin hmixin => ?_
        exact List.flatMap_eq_nil_iff.1 (List.append_eq_nil_iff.1 h).1 mixin
          (List.mem_cons_of_mem first hmixin)
    · refine shows_bind fun _ => shows_bind fun _ => shows_pure fun h => ?_
      exact List.flatMap_eq_nil_iff.1 (List.append_eq_nil_iff.1 h).1 first List.mem_cons_self

theorem tells_template (c : ClassId) (this : Addr) :
    (template p c this).Tells p Outcome.Clean := by
  unfold template
  split
  · refine (tells_setParams c this).bind (fun _ => ?_) fun _ => shows_true
    have rest (es : List SafetyError) : (do
        return ⟨.ref this, es ++ (← Query.body c this)⟩ : Plan Outcome).Tells p Outcome.Clean :=
      (Tells.ask (.body c this)).ret fun _ h => (List.append_eq_nil_iff.1 h).2
    refine .ite (fun _ => rest []) fun _ => ?_
    exact (tells_initParents c this _).bind rest
      fun _ => shows_bind fun _ => shows_pure fun h => (List.append_eq_nil_iff.1 h).1
  · exact .pure _

theorem tells_stat (c : ClassId) (this : Addr) (e : ExprId) :
    (stat p c this e).Tells p (· = []) := by
  unfold stat
  split
  next field _ =>
    refine .ite (fun _ => .pure _) fun _ => ?_
    have rest (o : Outcome) : (do
        Effect.setField this field o.value
        return o.errors : Plan (List SafetyError)).Tells p (· = []) :=
      (Tells.perform (F := fun _ => True) _).ret fun _ _ => trivial
    split
    · exact (tells_eval _ _ true).bind rest fun _ => shows_bind fun _ => shows_pure id
    · exact Tells.bind (F := fun _ => True) (.pure _) rest fun _ => shows_true
  · exact .pure _
  · exact .pure _
  · exact tells_errorsOf e ⟨this, c⟩

theorem tells_body (c : ClassId) (this : Addr) : (body p c this).Tells p (· = []) := by
  unfold body
  split
  · exact .errorsOfEach fun e => tells_stat c this e
  · exact .pure _

theorem tells_check (c : ClassId) : (check p c).Tells p (· = []) := by
  unfold check
  split
  · split
    · refine .look_bind fun s => ?_
      have rest (env : Env) (e : ExprId) (frame : Frame) : (do
          let o ← Plan.inEnv env (Plan.calledFrom (p.cls c).span (Query.eval e frame true))
          return o.errors : Plan (List SafetyError)).Tells p (· = []) :=
        (Tells.inEnv env (.calledFrom _ (tells_eval e frame true))).ret fun _ h => h
      refine .ite (fun _ => rest _ _ _) fun _ => ?_
      exact (Tells.perform (F := fun _ => True) _).bind (fun _ => rest _ _ _) fun _ => shows_true
    · exact .pure _
  · exact .pure _

end Plan

/-! ## Questions -/

/-- The plans of all questions tell. -/
theorem Query.tells (q : Query β) : (q.plan p).Tells p q.Clean := by
  cases q with
  | eval e frame final => exact Plan.tells_evaluation e frame final
  | select v field source virtual => exact Plan.tells_select v field source virtual
  | call v method args dispatch source => exact Plan.tells_call v method args dispatch source
  | construct v ctor args source => exact Plan.tells_construct v ctor args source
  | create outer c ctor args source => exact Plan.tells_create outer c ctor args source
  | template c this => exact Plan.tells_template c this
  | body c this => exact Plan.tells_body c this
  | promote v reason source => exact Plan.tells_promote v reason source
  | isPromotable v => exact Plan.tells_isPromotable v
  | enclosingInstance target v c source => exact Plan.tells_enclosingInstance target v c source
  | outerInstance type frame source => exact Plan.tells_outerInstance type frame source
  | check c => exact Plan.tells_check c

/-- If a question is answered without errors, so are all questions on the way. -/
theorem Query.Way.clean {q : Query β} {active : List Cache.Key} {r : Query γ}
    (way : q.Way p s active r t) {b : β} (answered : q.Answered p s b s') (clean : q.Clean b) :
    ∃ c t', r.Answered p t c t' ∧ r.Clean c := by
  induction way with
  | start => exact ⟨b, s', answered, clean⟩
  | asked _ hasks ih =>
    obtain ⟨c, u, ⟨n, hn⟩, clean⟩ := ih
    cases n with
    | zero => exact absurd hn Query.ends_zero
    | succ n => exact Query.tells _ n _ c u (Query.ends_succ.1 hn) clean _ _ _ hasks

end ObjectInit
