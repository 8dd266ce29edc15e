import ObjectInit.Proofs.BodyCode
import ObjectInit.Proofs.Developments
import ObjectInit.Proofs.Overloads
import ObjectInit.Proofs.Repetition
import ObjectInit.Proofs.Visits

/-!
# What a class body sees of the class parameters

A template first stores the class parameters in their fields, so a field has the value of its
parameter on the whole way of the template. An identifier of the field in the class body reads it,
unless another member takes the place of the field in the class of the object. The value that it
yields is the one in the field, if the cache has no other value for it: what enters the cache on the
way was completed on the way (`Query.Way.new_entry`), and so it is the value in the field, too. On
an object under construction the cache has no value for it before, since the code of a class body
runs on it only after the template has started (`Query.started_of_check`).

Main results:

* `Query.Way.new_entry`: where an entry that is new on the way comes from.
* `Query.Way.field_of_template`: the fields of the class parameters on the way of a template.
* `Query.ident_sees_parameter`: a class body sees its own class parameters.
* `Query.ident_misses_parameter`: this fails where another member takes the place of the field,
  where the identifier was evaluated before, and where it is shared with another class.
-/

namespace ObjectInit

variable {p : Program} {n : Nat} {α β γ : Type} {s s' t u : Store} {active : List Cache.Key}

/-! ## New entries on the way -/

section NewEntries

variable {a : Addr} {e : ExprId} {v : Value}

/-- An entry that is new where a plain plan asks a question is made while an earlier question of the
    plan is answered. -/
theorem Plan.Plain.exists_asks_before {writes : Bool} {x : Plan α} {q : Query γ}
    (plain : x.Plain writes) (h : x.Asks p s q t) (miss : s.cache.find? a e = none)
    (hit : t.cache.find? a e = some v) :
    ∃ (δ : Type) (r : Query δ) (u : Store) (c : δ) (u' : Store), x.Asks p s r u ∧
      r.Answered p u c u' ∧ u.cache.find? a e = none ∧ u'.cache.find? a e = some v := by
  induction h with
  | here =>
    rw [miss] at hit
    cases hit
  | @afterAsk _ _ _ r next s u _ b m _ hr h ih =>
    cases plain with
    | ask _ rest =>
      cases hu : u.cache.find? a e with
      | none =>
        obtain ⟨δ, r', w, c, w', hasks, found⟩ := ih (rest b) hu hit
        exact ⟨δ, r', w, c, w', .afterAsk hr hasks, found⟩
      | some w =>
        have later := (rest b).cache_asked h a e w hu
        cases hit.symm.trans later
        exact ⟨_, r, s, b, u, .here, ⟨m, hr⟩, miss, hu⟩
  | afterEffect heffect h ih =>
    cases plain with
    | perform _ _ rest =>
      rw [← (Effect.run_frame heffect).2] at miss
      obtain ⟨δ, r, w, c, w', hasks, found⟩ := ih (rest _) miss hit
      exact ⟨δ, r, w, c, w', .afterEffect heffect hasks, found⟩
  | inside h ih =>
    cases plain with
    | within scope admits part _ =>
      rw [← Scope.cache_enter admits] at miss
      obtain ⟨δ, r, w, c, w', hasks, found⟩ := ih part miss hit
      exact ⟨δ, r, w, c, w', .inside hasks, found⟩
  | @afterScope _ _ _ scope part next s u _ b m _ hpart h ih =>
    cases plain with
    | within _ admits part rest =>
      rw [← Scope.cache_enter admits] at miss
      cases hu : u.cache.find? a e with
      | none =>
        rw [← Scope.cache_leave admits s.toContext b] at hu
        obtain ⟨δ, r, w, c, w', hasks, found⟩ := ih (rest b) hu hit
        exact ⟨δ, r, w, c, w', .afterScope hpart hasks, found⟩
      | some w =>
        have later := (rest b).cache_asked h a e w (by rwa [Scope.cache_leave admits])
        cases hit.symm.trans later
        obtain ⟨δ, r, w, c, w', hasks, ends, found⟩ := part.exists_asks hpart miss hu
        exact ⟨δ, r, w, c, w', .inside hasks, ⟨m, ends⟩, found⟩

/-- An entry that is new on the way is the placeholder of an evaluation in progress, or the value of
    a final evaluation that was completed on the way. -/
theorem Query.Way.new_entry {q : Query β} {r : Query γ} (way : q.Way p s active r t)
    (miss : s.cache.find? a e = none) (hit : t.cache.find? a e = some v) :
    ⟨a, e⟩ ∈ active ∨ q.Completes p s a e v := by
  induction way generalizing v with
  | start =>
    rw [miss] at hit
    cases hit
  | @asked active _ _ r r' u t way hasks ih =>
    cases hu : u.cache.find? a e with
    | some w =>
      have later := (Query.cache_asked hasks).1 a e w hu
      cases hit.symm.trans later
      exact (ih hu).imp_left (List.mem_append_right _)
    | none =>
      -- The entry is made while an earlier question is answered.
      have completed {δ : Type} {r₁ : Query δ} {u₁ u₁' : Store} {c : δ}
          (hasks : (r.plan p).Asks p u r₁ u₁) (hr : r₁.Answered p u₁ c u₁')
          (miss : u₁.cache.find? a e = none) (hit : u₁'.cache.find? a e = some v) :
          q.Completes p s a e v := by
        obtain ⟨m, hr⟩ := hr
        obtain ⟨active', d, w, o, w', inner, found⟩ := hr.new_entry miss hit
        exact ⟨_, d, w, o, w', (way.asked hasks).trans inner, found⟩
      by_cases evaluates : r.evaluation = []
      · obtain ⟨_, _, _, _, _, hasks, hr, missed, found⟩ :=
          (r.plain_plan evaluates).exists_asks_before hasks hu hit
        exact .inr (completed hasks hr missed found)
      cases r with
      | eval g frame final =>
        obtain ⟨missed, inside⟩ := Plan.asks_eval hasks
        by_cases same : a = frame.receiver ∧ e = g
        · obtain ⟨rfl, rfl⟩ := same
          exact .inl (List.mem_append_left _ (List.mem_singleton_self _))
        · have entered :
              ((Scope.evaluation frame.receiver g final).enter u).cache.find? a e = none :=
            (Cache.find?_insert ..).trans ((if_neg same).trans hu)
          obtain ⟨_, _, _, _, _, hasks, hr, missed', found⟩ :=
            (Plan.plain_calledNode g frame).exists_asks_before inside entered hit
          exact .inr (completed (Plan.Asks.eval missed hasks) hr missed' found)
      | _ => exact absurd rfl evaluates

/-- The way of a question that asks nothing leads nowhere. -/
theorem Query.Way.evaluation_of_idle {q : Query β} {r : Query γ}
    (idle : ∀ {δ : Type} (r : Query δ) u, ¬(q.plan p).Asks p s r u) (way : q.Way p s active r t) :
    r.evaluation = q.evaluation := by
  suffices (⟨r⟩ : Question) = ⟨q⟩ ∧ t = s from
    congrArg (fun question => question.query.evaluation) this.1
  induction way with
  | start => exact ⟨rfl, rfl⟩
  | asked way hasks ih =>
    obtain ⟨same, rfl⟩ := ih
    cases same
    exact absurd hasks (idle _ _)

end NewEntries

/-! ## Identifiers of own fields -/

section Identifiers

variable {a : Addr} {c : ClassId} {e : ExprId} {f : SymbolId} {final : Bool} {v : Value}
  (ident : (p.expr e).node = .ident f (.member (.thisOf c) f))
  (value : (p.symbol f).isMethod = false) (strict : (p.symbol f).isLazy = false)
  (own : p.virtualTarget a.cls f = f)

include ident value in
/-- An identifier of a field is read from the instance of its class. -/
theorem Plan.node_ident : Plan.node p e ⟨a, c⟩ = (do
    let v ← Query.enclosingInstance c (.ref a) c (p.expr e).span
    let o ← Query.select v f (p.expr e).span true
    return o.precededBy [] : Plan Outcome) := by
  rw [Plan.node, ident]
  dsimp only
  rw [value, if_neg Bool.false_ne_true, Plan.evalPath, Plan.evalPath_own ⟨a, c⟩]
  · simp only [bind_assoc, pure_bind]
    rfl
  · exact fun bare => by cases bare

include own in
theorem Plan.select_of_own (source : Span) :
    (Query.select (.ref a) f source true).plan p = Plan.selectAt p a f source := by
  rw [Query.plan, Plan.select, if_pos rfl, own]

include strict in
/-- A field that has a value is read without a question. -/
theorem Plan.not_asks_selectAt {source : Span} {q : Query γ} (stored : s.heap.field? a f = some v) :
    ¬(Plan.selectAt p a f source).Asks p s q t := by
  intro h
  rw [Plan.selectAt, strict, if_neg Bool.false_ne_true] at h
  obtain ⟨_, _, hlook, h⟩ := h.of_perform_bind
  cases hlook
  rw [stored] at h
  cases h

include ident value strict own

/-- The identifier yields the value in the field, if it is not in the cache. -/
theorem Query.answered_ident (miss : u.cache.find? a e = none)
    (stored : u.heap.field? a f = some v) :
    ∃ t, (Query.eval e ⟨a, c⟩ final).Answered p u ⟨v, []⟩ t := by
  suffices (Plan.eval p e ⟨a, c⟩ final).Meets p u fun o _ => o = ⟨v, []⟩ by
    obtain ⟨n, o, t, ends, rfl⟩ := this
    exact ⟨t, n + 1, Query.ends_succ.2 ends⟩
  refine Plan.meets_look_bind ?_
  rw [miss]
  refine Plan.meets_within (Plan.meets_calledFrom ?_)
  rw [Plan.node_ident ident value]
  refine Plan.meets_bind (Plan.meets_ask ?_)
  rw [Query.plan_enclosingInstance_self]
  refine Plan.meets_pure (Plan.meets_bind (Plan.meets_ask ?_))
  rw [Plan.select_of_own own]
  refine ⟨0, .ofValue v, _, (Plan.ends_selectAt_of_stored strict ?_).2 ⟨rfl, rfl⟩,
    Plan.meets_pure rfl⟩
  exact stored

/-- Meanwhile nothing is evaluated. -/
theorem Query.not_way_of_ident (stored : u.heap.field? a f = some v) {q : Query γ}
    (hasks : (Plan.eval p e ⟨a, c⟩ final).Asks p u q s) {g : ExprId} {frame : Frame}
    {final' : Bool} : ¬q.Way p s active (.eval g frame final') t := by
  intro way
  obtain ⟨-, inside⟩ := Plan.asks_eval hasks
  have inside := inside.of_calledFrom
  rw [Plan.node_ident ident value] at inside
  have enclosing {source : Span} {γ : Type} (r : Query γ) (w w' : Store) :
      ¬((Query.enclosingInstance c (.ref a) c source).plan p).Asks p w r w' := by
    rw [Query.plan_enclosingInstance_self]
    exact fun h => by cases h
  rcases inside.of_bind with first | ⟨m, b, w, henclosing, rest⟩
  · cases first with
    | here => cases way.evaluation_of_idle fun r w => enclosing r _ w
    | afterAsk _ done => cases done
  cases Query.Answered.enclosingInstance_self ⟨m, Plan.ends_ask.1 henclosing⟩
  have stored' : w.heap.field? a f = some v := by
    have ext := Plan.ends_extends henclosing
    exact ext.field stored
  rcases rest.of_bind with second | ⟨_, _, _, -, done⟩
  · cases second with
    | here =>
      refine absurd (way.evaluation_of_idle fun r w' selected => ?_) (List.cons_ne_nil _ _)
      change ((Query.select (.ref a) f (p.expr e).span true).plan p).Asks p _ r w' at selected
      rw [Plan.select_of_own own] at selected
      exact Plan.not_asks_selectAt strict stored' selected
    | afterAsk _ done => cases done
  · cases done

end Identifiers

/-! ## Templates -/

section Templates

variable {a : Addr} {c : ClassId} {ctor f : SymbolId}

/-- The fields of the class parameters get the values of the parameters. -/
theorem Plan.field?_of_setParams {un : Unit} (hctor : (p.cls c).primaryConstructor = some ctor)
    (hf : f ∈ p.paramFields c) (h : (setParams p c a).Ends p n s un t) :
    t.heap.field? a f =
      some (paramValue p (p.symbol ctor).params s.env (p.symbol f).name) := by
  unfold setParams at h
  rw [hctor] at h
  dsimp only at h
  generalize p.paramFields c = fields at h hf
  induction fields generalizing s with
  | nil => cases hf
  | cons field fields ih =>
    obtain ⟨_, u, hfield, hrest⟩ := ends_bind.1 h
    rw [ends_look_bind] at hfield
    obtain ⟨heap, ok, rfl⟩ := Effect.run_setField.1 (ends_perform.1 hfield)
    rcases List.mem_cons.1 hf with rfl | hf
    · refine (ends_extends hrest).field ?_
      rw [Heap.field?_of_setField ok, if_pos ⟨rfl, rfl⟩]
    · have rest := ih hrest hf
      exact rest

/-- The fields of the class parameters had no values before. -/
theorem Plan.field?_before_setParams {un : Unit} (hf : f ∈ p.paramFields c)
    (h : (setParams p c a).Ends p n s un t) : s.heap.field? a f = none := by
  unfold setParams at h
  dsimp only at h
  generalize p.paramFields c = fields at h hf
  induction fields generalizing s with
  | nil => cases hf
  | cons field fields ih =>
    obtain ⟨_, u, hfield, hrest⟩ := ends_bind.1 h
    have ext := ends_extends hfield
    rcases List.mem_cons.1 hf with rfl | hf
    · rw [ends_look_bind] at hfield
      obtain ⟨heap, ok, rfl⟩ := Effect.run_setField.1 (ends_perform.1 hfield)
      obtain ⟨o, ho, unset, -⟩ := Heap.read_of_setField ok
      rw [Heap.field?, ho]
      exact unset
    · cases stored : s.heap.field? a f with
      | none => rfl
      | some v =>
        have later := ext.field stored
        rw [ih hrest hf] at later
        cases later

theorem Plan.not_asks_setParams {q : Query γ} : ¬(setParams p c a).Asks p s q t := by
  unfold setParams
  dsimp only
  generalize p.paramFields c = fields
  induction fields generalizing s with
  | nil => exact fun h => by cases h
  | cons field fields ih =>
    intro h
    rcases h.of_bind with first | ⟨_, _, _, -, rest⟩
    · obtain ⟨_, _, -, first⟩ := first.of_perform_bind
      cases first with
      | afterEffect _ done => cases done
    · exact ih rest

/-- A template stores the class parameters before it asks anything. -/
theorem Plan.ends_setParams_of_template {q : Query γ}
    (hasks : (Plan.template p c a).Asks p t q u) :
    ∃ n s, (setParams p c a).Ends p n t () s ∧ s.heap.Extends u.heap := by
  unfold Plan.template at hasks
  split at hasks
  · rcases hasks.of_bind with hasks | ⟨n, _, s, hparams, rest⟩
    · exact absurd hasks Plan.not_asks_setParams
    · exact ⟨n, s, hparams, rest.before Heap.Extends.advances⟩
  · cases hasks

/-- Wherever something is asked on the way of a template, the class parameters are in their
    fields. -/
theorem Query.Way.field_of_template {r : Query γ}
    (hctor : (p.cls c).primaryConstructor = some ctor) (hf : f ∈ p.paramFields c)
    (way : (Query.template c a).Way p t active r u) {δ : Type} {q : Query δ} {u' : Store}
    (hasks : (r.plan p).Asks p u q u') :
    u'.heap.field? a f =
      some (Plan.paramValue p (p.symbol ctor).params t.env (p.symbol f).name) := by
  induction way generalizing δ u' with
  | start =>
    obtain ⟨n, s, hparams, ext⟩ := Plan.ends_setParams_of_template hasks
    exact ext.field (Plan.field?_of_setParams hctor hf hparams)
  | asked _ hasks' ih => exact (hasks.before Heap.Extends.advances).field (ih hasks')

/-- A template that leads to another question found the fields of the class parameters unset. -/
theorem Query.Way.unset_of_template {r : Query γ} (hf : f ∈ p.paramFields c)
    (way : (Query.template c a).Way p t active r u) {δ : Type} {q : Query δ} {u' : Store}
    (hasks : (r.plan p).Asks p u q u') : t.heap.field? a f = none := by
  induction way generalizing δ u' with
  | start =>
    obtain ⟨n, s, hparams, -⟩ := Plan.ends_setParams_of_template hasks
    exact Plan.field?_before_setParams hf hparams
  | asked _ hasks' ih => exact ih hasks'

end Templates

/-! ## Own class parameters -/

section Parameters

variable {a : Addr} {c : ClassId} {ctor f x : SymbolId} {e : ExprId} {final : Bool}

/-- If the names of the parameters are distinct, a name stands for the parameter that has it. -/
theorem Plan.paramValue_of_mem {params : List SymbolId} (hx : x ∈ params)
    (distinct : (params.map fun y => (p.symbol y).name).Nodup) (env : Env) :
    paramValue p params env (p.symbol x).name = (env.lookup x).getD .hot := by
  have found : params.find? (fun y => (p.symbol y).name == (p.symbol x).name) = some x := by
    cases hy : params.find? fun y => (p.symbol y).name == (p.symbol x).name with
    | none =>
      have := List.find?_eq_none.1 hy x hx
      simp at this
    | some y =>
      have name : (p.symbol y).name = (p.symbol x).name := by simpa using List.find?_some hy
      rw [List.inj_on_of_nodup_map distinct (List.mem_of_find?_eq_some hy) hx name]
  rw [paramValue, found, Option.bind_some]

/-- On the way of a template, an identifier of a class parameter yields the value that the
    environment of the template has for it, if the field is not overridden, the identifier was not
    evaluated before, and meanwhile it is evaluated in the code of this class only. -/
theorem Query.ident_on_way (stores : p.StoresParam c ctor f x)
    (distinct : ((p.symbol ctor).params.map fun y => (p.symbol y).name).Nodup)
    (ident : (p.expr e).node = .ident f (.member (.thisOf c) f))
    (own : p.virtualTarget a.cls f = f) (fresh : t.cache.find? a e = none)
    (alone : ∀ active d final u, (Query.template c a).Way p t active (.eval e ⟨a, d⟩ final) u →
      d = c)
    (way : (Query.template c a).Way p t active (.eval e ⟨a, c⟩ final) u) :
    ∃ u', (Query.eval e ⟨a, c⟩ final).Answered p u ⟨(t.env.lookup x).getD .hot, []⟩ u' := by
  have value : (p.symbol f).isMethod = false := stores.flag .method
  have strict : (p.symbol f).isLazy = false := stores.flag .lazy
  have stored {active : List Cache.Key} {final : Bool} {u : Store}
      (way : (Query.template c a).Way p t active (.eval e ⟨a, c⟩ final) u) :
      u.heap.field? a f = some ((t.env.lookup x).getD .hot) := by
    cases way with
    | asked way hasks =>
      rw [way.field_of_template stores.primary stores.mem_paramFields hasks, ← stores.name,
        Plan.paramValue_of_mem stores.param distinct]
  cases hit : u.cache.find? a e with
  | none => exact answered_ident ident value strict own hit (stored way)
  | some v =>
    rcases way.new_entry fresh hit with inProgress | ⟨active', d, w, o, w', way', miss, ho, rfl⟩
    · obtain ⟨active', d, final', w, before, _, r, w', active'', hasks, after⟩ :=
        way.exists_evaluation inProgress
      cases alone _ _ _ _ before
      exact absurd after (not_way_of_ident ident value strict own (stored before) hasks)
    · cases alone _ _ _ _ way'
      obtain ⟨z, hz⟩ := answered_ident ident value strict own miss (stored way')
      obtain ⟨rfl, -⟩ := ho.unique hz
      exact ⟨u, 1, eval_of_kept hit⟩

end Parameters

/-! ## Activations -/

/-- The question activates the primary constructor of the class on the object: it calls the
    constructor, which binds its parameters to the widened arguments, or it checks the class with
    hot parameters. -/
inductive Query.Activates (p : Program) (c : ClassId) (a : Addr) :
    {β : Type} → Query β → List (SymbolId × Value) → Prop where
  | construct {ctor : SymbolId} (primary : (p.cls c).primaryConstructor = some ctor)
    (args : List ArgValue) (source : Span) :
    Activates p c a (.construct (.ref a) ctor args source)
      (Plan.widenedBindings (p.symbol ctor).params args)
  | check {ctor : SymbolId} (primary : (p.cls c).primaryConstructor = some ctor)
    (own : a = .thisOf c) :
    Activates p c a (.check c) ((p.symbol ctor).params.map (·, .hot))

section Activations

variable {q : Program} {a : Addr} {c : ClassId} {ctor : SymbolId}
  {bindings : List (SymbolId × Value)}

/-- An expression that is evaluated in an environment is asked for in it. -/
theorem Plan.Asks.env_of_inEnv {env : Env} {e : ExprId} {frame : Frame} {final : Bool}
    {source : Span} {g : Outcome → α} {r : Query γ} (hasks : (do
      let o ← Plan.inEnv env (Plan.calledFrom source (Query.eval e frame final))
      return g o : Plan α).Asks p s r t) : t.env = env := by
  rcases hasks.of_bind with hasks | ⟨_, _, _, -, done⟩
  · cases hasks.of_inEnv.of_calledFrom with
    | here => rfl
    | afterAsk _ done => cases done
  · cases done

/-- Without a body a constructor asks nothing. -/
theorem Plan.not_asks_construct_of_missing (body : (p.symbol ctor).body = none)
    {args : List ArgValue} {source : Span} {r : Query γ} :
    ¬(Plan.construct p (.ref a) ctor args source).Asks p s r t := by
  intro hasks
  have missing : ¬(p.symbol ctor).hasSource := by
    rw [Symbol.hasSource, body]
    exact Bool.false_ne_true
  rw [Plan.construct, Plan.callTarget, if_neg missing] at hasks
  split at hasks
  · cases hasks
  · rcases hasks.of_bind with raised | ⟨_, _, _, -, done⟩
    · cases raised with
      | afterEffect _ done => cases done
    · cases done

/-- What an activation asks is asked in the environment of the parameters. -/
theorem Query.Activates.env (coherent : q.Coherent) {r : Query β} {r' : Query γ}
    (activates : r.Activates q.finish c a bindings)
    (hasks : (r.plan q.finish).Asks q.finish s r' t) :
    t.env = .ofList bindings := by
  cases activates with
  | @construct ctor primary args source =>
    rw [Program.primaryConstructor_finish] at primary
    have marked : (q.finish.symbol ctor).isPrimaryConstructor :=
      (coherent.constructors c ctor primary).2.2.1
    change (Plan.construct q.finish (.ref a) ctor args source).Asks q.finish s r' t at hasks
    cases body : (q.finish.symbol ctor).body with
    | some e =>
      rw [Plan.construct_of_primary marked body] at hasks
      exact hasks.of_calledFrom.env_of_inEnv
    | none => exact absurd hasks (Plan.not_asks_construct_of_missing body)
  | @check ctor primary own =>
    change (Plan.check q.finish c).Asks q.finish s r' t at hasks
    unfold Plan.check at hasks
    rw [primary] at hasks
    dsimp only at hasks
    split at hasks
    · obtain ⟨_, _, hlook, hasks⟩ := hasks.of_perform_bind
      split at hasks
      · exact hasks.env_of_inEnv
      · obtain ⟨_, _, -, hasks⟩ := hasks.of_perform_bind
        exact hasks.env_of_inEnv
    · cases hasks

/-- The template of a class is run in the environment in which its expression is evaluated. -/
theorem Query.env_of_template {p : Program} {e : ExprId} {frame : Frame} {final : Bool}
    (node : (p.expr e).node = .template c) {r : Query γ}
    (hasks : ((Query.eval e frame final).plan p).Asks p s r t) : t.env = s.env := by
  have inside := (Plan.asks_eval hasks).2.of_calledFrom
  rw [Plan.node, node] at inside
  cases inside with
  | here => rfl
  | afterAsk _ done => cases done

/-- In a check of `m`, the primary constructor of `c` is activated on the object with the bindings,
    and this leads to the template of `c` in the store `t`. -/
def Program.RunsTemplate (p : Program) (m c : ClassId) (a : Addr)
    (bindings : List (SymbolId × Value)) (t : Store) : Prop :=
  ∃ (β : Type) (r : Query β) (active : List Cache.Key) (s s' : Store) (e : ExprId) (frame : Frame),
    (Query.check m).Way p .initial active r s ∧ r.Activates p c a bindings ∧
      (p.expr e).node = .template c ∧ (r.plan p).Asks p s (.eval e frame true) s' ∧
        ((Query.eval e frame true).plan p).Asks p s' (.template c a) t

/-- Let `f` be the field of a class parameter that was added to the class `c`, whose primary
    constructor has parameters of distinct names, and let the constructor be activated in a check,
    on an object in whose class `f` is not displaced. On the way of the template of `c`, an
    identifier of `f` that belongs to the body of `c` and to nothing else yields the value to which
    the constructor has bound the parameter. On a warm object, it may not have been evaluated before
    the template starts. -/
theorem Query.ident_sees_parameter {q₀ q₁ : Program} (built : q₀.Built) {name : String}
    {f : SymbolId} (run : (Command.defineClassParam c name).run.run q₀ = .ok (.symbol f, q₁))
    (later : q₁.Develops q)
    (distinct : ∀ ctor, (q.finish.cls c).primaryConstructor = some ctor →
      ((q.finish.symbol ctor).params.map fun y => (q.finish.symbol y).name).Nodup) :
    ∃ ctor x, (q.finish.cls c).primaryConstructor = some ctor ∧
      x ∈ (q.finish.symbol ctor).params ∧ (q.finish.symbol x).name = name ∧
      ∀ m a bindings t, q.finish.RunsTemplate m c a bindings t →
        q.finish.Undisplaced a.cls c f →
        ∀ e, (q.finish.expr e).node = .ident f (.member (q.finish.plainPath f) f) →
          q.finish.OnlyInBody c e → (∀ w, a = .warm w → t.cache.find? a e = none) →
          ∀ active d final u,
            (Query.template c a).Way q.finish t active (.eval e ⟨a, d⟩ final) u →
            ∃ u', (Query.eval e ⟨a, d⟩ final).Answered q.finish u
              ⟨((Env.ofList bindings).lookup x).getD .hot, []⟩ u' := by
  have built₁ : q₁.Built := .command built (fun _ _ _ h => by cases h) run
  have coherent := (later.built built₁).coherent
  obtain ⟨ctor, x, stores, hname⟩ := built.exists_storesParam run later
  refine ⟨ctor, x, stores.primary, stores.param, stores.name.trans hname, ?_⟩
  intro m a bindings t runs undisplaced e ident only first active d final u way
  obtain ⟨β, r, _, s, s', template, frame, toActivation, activates, node, hasks, htemplate⟩ := runs
  have toTemplate := toActivation.asked hasks
  have env : t.env = .ofList bindings :=
    (env_of_template node htemplate).trans (activates.env coherent hasks)
  -- What runs on the way of the template is on the way of the check, too.
  have alone {active : List Cache.Key} {d : ClassId} {final : Bool} {u : Store}
      (way : (Query.template c a).Way q.finish t active (.eval e ⟨a, d⟩ final) u) : d = c := by
    cases way with
    | asked way hasks =>
      exact cls_of_check coherent only ((toTemplate.asked htemplate).trans way) hasks
  have fresh : t.cache.find? a e = none := by
    cases a with
    | warm w => exact first w rfl
    | thisOf k =>
      by_contra hit
      obtain ⟨v, hit⟩ := Option.ne_none_iff_exists'.1 hit
      have started := started_of_check coherent only toTemplate htemplate hit k rfl f
        stores.mem_paramFields
      cases way with
      | asked way hasks =>
        have unset : t.memory.heap.field? (.thisOf k) f = none :=
          way.unset_of_template stores.mem_paramFields hasks
        rw [unset] at started
        cases started
  obtain rfl := alone way
  rw [Program.plainPath, stores.owner] at ident
  have own := undisplaced.virtualTarget (stores.flag .deferred)
  rw [← env]
  exact ident_on_way stores (distinct ctor stores.primary) ident own fresh
    (fun _ _ _ _ way => alone way) way

end Activations

/-! ### Computed activations -/

/-- In a check of `m`, the constructor `ctor` of `c` is called with the arguments on an object. This
    leads to the template of `c` in the store `t`, and the body of `c` then evaluates the expression
    in the store `u`. -/
structure Program.BodyEvaluates (p : Program) (m c : ClassId) (a : Addr) (ctor : SymbolId)
    (args : List ArgValue) (e : ExprId) (t u : Store) : Prop where
  called : ∃ active source s template s',
    (Query.check m).Way p .initial active (.construct (.ref a) ctor args source) s ∧
    (p.expr template).node = .template c ∧
    ((Query.construct (.ref a) ctor args source).plan p).Asks p s (.eval template ⟨a, c⟩ true) s' ∧
    ((Query.eval template ⟨a, c⟩ true).plan p).Asks p s' (.template c a) t
  evaluated : ∃ s, ((Query.template c a).plan p).Asks p t (.body c a) s ∧
    ((Query.body c a).plan p).Asks p s (.eval e ⟨a, c⟩ true) u

/-- The arguments with which a constructor is called on an object. -/
def Query.constructs? (a : Addr) (ctor : SymbolId) : {β : Type} → Query β → Option (List ArgValue)
  | _, .construct (.ref b) ctor' args _ => if b = a ∧ ctor' = ctor then some args else none
  | _, _ => none

theorem Query.eq_construct {q : Query β} {a : Addr} {ctor : SymbolId} {args : List ArgValue}
    (h : q.constructs? a ctor = some args) :
    ∃ source, (⟨q⟩ : Question) = ⟨.construct (.ref a) ctor args source⟩ := by
  unfold constructs? at h
  split at h
  · next b ctor' args' source =>
    split at h
    · next same =>
      obtain ⟨rfl, rfl⟩ := same
      cases h
      exact ⟨source, rfl⟩
    · cases h
  · cases h

/-- Whether an evaluation in a class body passes a test, as `Program.BodyEvaluates` describes it. -/
def Program.anyBodyEvaluation (p : Program) (n : Nat) (m c : ClassId) (a : Addr) (ctor : SymbolId)
    (template e : ExprId) (test : List ArgValue → Store → Store → Bool) : Bool :=
  ((Query.check m).events p n .initial).any fun event =>
    (event.query.constructs? a ctor).any fun args =>
      (event.query.asking p n event.store (.eval template ⟨a, c⟩ true)).any fun s =>
        ((Query.eval template ⟨a, c⟩ true).asking p n s (.template c a)).any fun t =>
          ((Query.template c a).asking p n t (.body c a)).any fun s' =>
            ((Query.body c a).asking p n s' (.eval e ⟨a, c⟩ true)).any fun u => test args t u

theorem Program.exists_bodyEvaluates {m c : ClassId} {a : Addr} {ctor : SymbolId}
    {template e : ExprId} {test : List ArgValue → Store → Store → Bool}
    (node : (p.expr template).node = .template c)
    (h : p.anyBodyEvaluation n m c a ctor template e test) :
    ∃ args t u, p.BodyEvaluates m c a ctor args e t u ∧ test args t u := by
  obtain ⟨⟨q, s, callers⟩, hevent, h⟩ := List.any_eq_true.1 h
  obtain ⟨args, construct, h⟩ := (Option.any_eq_true _ _).1 h
  obtain ⟨s', called, h⟩ := List.any_eq_true.1 h
  obtain ⟨t, ran, h⟩ := List.any_eq_true.1 h
  obtain ⟨w, body, h⟩ := List.any_eq_true.1 h
  obtain ⟨u, evaluated, passed⟩ := List.any_eq_true.1 h
  obtain ⟨source, eq⟩ := Query.eq_construct construct
  cases eq
  obtain ⟨active, way⟩ := (Query.way_of_mem_events hevent).1
  exact ⟨args, t, u,
    ⟨⟨active, source, s, template, s', way, node, Query.asks_of_mem_asking called,
      Query.asks_of_mem_asking ran⟩,
      w, Query.asks_of_mem_asking body, Query.asks_of_mem_asking evaluated⟩, passed⟩

/-- `class D(x) { val y = x }` and `class E extends D(this)`. -/
def passesThis : Program := .assemble [
  .defineClass "D" .package .none true,
  .defineClassParam ⟨4⟩ "x",
  .defineField ⟨4⟩ "y" .value,
  .ident ⟨16⟩,
  .setBody ⟨17⟩ ⟨2⟩,
  .defineClass "E" .package .none true,
  .thisOf ⟨5⟩,
  .extend ⟨5⟩ ⟨.bare, ⟨4⟩⟩ [⟨⟨4⟩, false⟩]]

theorem Program.BodyEvaluates.runsTemplate {m c : ClassId} {a : Addr} {ctor : SymbolId}
    {args : List ArgValue} {e : ExprId} (h : p.BodyEvaluates m c a ctor args e t u)
    (primary : (p.cls c).primaryConstructor = some ctor) :
    p.RunsTemplate m c a (Plan.widenedBindings (p.symbol ctor).params args) t := by
  obtain ⟨active, source, s, template, s', way, node, called, ran⟩ := h.called
  exact ⟨_, _, active, s, s', template, _, way, .construct primary args source, node, called, ran⟩

/-- In a check of `E`, the parameter of `D` is bound to a cold value, and so is the identifier. -/
theorem Query.ident_sees_parameter_passesThis :
    ∃ args t u u', passesThis.finish.BodyEvaluates ⟨5⟩ ⟨4⟩ (.thisOf ⟨5⟩) ⟨14⟩ args ⟨2⟩ t u ∧
      (Env.ofList (Plan.widenedBindings [⟨15⟩] args)).lookup ⟨15⟩ = some .cold ∧
      (Query.eval ⟨2⟩ ⟨.thisOf ⟨5⟩, ⟨4⟩⟩ true).Answered passesThis.finish u ⟨.cold, []⟩ u' := by
  have built : (Program.assemble [.defineClass "D" .package .none true]).Built :=
    (Program.assembled_assemble _).built
  obtain ⟨q, run, later⟩ : ∃ q, (Command.defineClassParam ⟨4⟩ "x").run.run
      (Program.assemble [.defineClass "D" .package .none true]) = .ok (.symbol ⟨16⟩, q) ∧
      q.Develops passesThis :=
    Program.exists_run_of_assemble [.defineClass "D" .package .none true]
      [.defineField ⟨4⟩ "y" .value, .ident ⟨16⟩, .setBody ⟨17⟩ ⟨2⟩,
        .defineClass "E" .package .none true, .thisOf ⟨5⟩,
        .extend ⟨5⟩ ⟨.bare, ⟨4⟩⟩ [⟨⟨4⟩, false⟩]]
      (.defineClassParam ⟨4⟩ "x") (by decide +kernel) (by decide +kernel)
  have constructor : (passesThis.finish.cls ⟨4⟩).primaryConstructor = some ⟨14⟩ := by decide +kernel
  have parameters : (passesThis.finish.symbol ⟨14⟩).params = [⟨15⟩] := by decide +kernel
  obtain ⟨ctor, x, primary, param, -, sees⟩ := ident_sees_parameter built run later
    fun ctor primary => by
      cases constructor.symm.trans primary
      rw [parameters]
      exact List.nodup_singleton _
  cases constructor.symm.trans primary
  rw [parameters, List.mem_singleton] at param
  subst param
  have found : passesThis.finish.anyBodyEvaluation 30 ⟨5⟩ ⟨4⟩ (.thisOf ⟨5⟩) ⟨14⟩ ⟨0⟩ ⟨2⟩
      fun args _ _ =>
        (Env.ofList (Plan.widenedBindings [⟨15⟩] args)).lookup ⟨15⟩ == some .cold := by
    decide +kernel
  obtain ⟨args, t, u, evaluates, bound⟩ := Program.exists_bodyEvaluates (by decide +kernel) found
  obtain ⟨w, body, evaluated⟩ := evaluates.evaluated
  have undisplaced : passesThis.finish.Undisplaced ⟨5⟩ ⟨4⟩ ⟨16⟩ :=
    ⟨[⟨5⟩], [⟨2⟩, ⟨1⟩], [⟨14⟩], [⟨17⟩], by decide +kernel, by decide +kernel, by decide +kernel,
      by decide +kernel⟩
  have only : passesThis.finish.OnlyInBody ⟨4⟩ ⟨2⟩ :=
    .of_wholes [⟨1⟩, ⟨2⟩]
      ⟨by decide +kernel, by decide +kernel, by decide +kernel⟩
      ⟨by decide +kernel, by decide +kernel, by decide +kernel⟩
  have runs := evaluates.runsTemplate primary
  obtain ⟨u', hu⟩ := sees ⟨5⟩ (.thisOf ⟨5⟩) _ t runs undisplaced ⟨2⟩ (by decide +kernel) only
    (fun _ same => by cases same) _ ⟨4⟩ true u ((Query.Way.asked .start body).asked evaluated)
  rw [parameters, beq_iff_eq.1 bound] at hu
  exact ⟨args, t, u, u', evaluates, beq_iff_eq.1 bound, hu⟩

/-! ### Class bodies that do not see their parameters -/

/-- The names of the parameters of each constructor are distinct. -/
def Program.DistinctParams (p : Program) : Prop :=
  ∀ c ∈ p.classIds, ∀ ctor ∈ (p.cls c).primaryConstructor.toList,
    ((p.symbol ctor).params.map fun x => (p.symbol x).name).Nodup

instance (p : Program) : Decidable p.DistinctParams :=
  inferInstanceAs (Decidable (∀ c ∈ p.classIds, ∀ _ ∈ _, List.Nodup _))

instance (p : Program) (c : ClassId) (ctor f x : SymbolId) :
    Decidable (p.StoresParam c ctor f x) :=
  decidable_of_iff
    ((p.cls c).primaryConstructor = some ctor ∧ x ∈ (p.symbol ctor).params ∧
      f ∈ (p.cls c).decls ∧ (p.symbol f).owner = .cls c ∧
      (p.symbol f).flags = .ofList [.paramAccessor] ∧ (p.symbol x).name = (p.symbol f).name)
    ⟨fun ⟨primary, param, decl, owner, flags, name⟩ => ⟨primary, param, decl, owner, flags, name⟩,
      fun h => ⟨h.primary, h.param, h.decl, h.owner, h.flags, h.name⟩⟩

/-- In a check of `m`, the body of a base `c` of the class of the object evaluates an identifier of
    its class parameter `f`, which the constructor has bound to a cold value, and gets a hot one. -/
def Program.MissesParameter (p : Program) (m c : ClassId) (a : Addr) (f : SymbolId) (e : ExprId) :
    Prop :=
  (p.expr e).node = .ident f (.member (p.plainPath f) f) ∧
    c ∈ (p.cls a.cls).linearization ∧ (p.cls c).hasSource ∧
    ∃ ctor x args t u o u', p.StoresParam c ctor f x ∧ p.BodyEvaluates m c a ctor args e t u ∧
      t.env.lookup x = some .cold ∧
      (Query.eval e ⟨a, c⟩ true).Answered p u o u' ∧ o.value = .hot

theorem Program.missesParameter_of_test {m c : ClassId} {a : Addr} {f : SymbolId} {e : ExprId}
    (ctor x : SymbolId) (template : ExprId)
    (known : (p.expr e).node = .ident f (.member (p.plainPath f) f) ∧
      c ∈ (p.cls a.cls).linearization ∧ (p.cls c).hasSource ∧ p.StoresParam c ctor f x ∧
      (p.expr template).node = .template c)
    (found : p.anyBodyEvaluation n m c a ctor template e fun _ t u =>
      t.env.lookup x == some .cold &&
        ((Query.eval e ⟨a, c⟩ true).result? p n u).any fun r => r.1.value == .hot) :
    p.MissesParameter m c a f e := by
  obtain ⟨ident, base, source, stores, node⟩ := known
  obtain ⟨args, t, u, evaluates, tested⟩ := exists_bodyEvaluates node found
  obtain ⟨bound, answered⟩ := Bool.and_eq_true_iff.1 tested
  obtain ⟨o, ho, hot⟩ := Query.answered_of_result? (fun o : Outcome => o.value == .hot) answered
  exact ⟨ident, base, source, ctor, x, args, t, u, o, _, stores, evaluates, beq_iff_eq.1 bound, ho,
    beq_iff_eq.1 hot⟩

/-- `class D(x) { val y = x }` and `class E(x) extends D(this)`. -/
def shadowsX : Program := .assemble [
  .defineClass "D" .package .none true,
  .defineClassParam ⟨4⟩ "x",
  .defineField ⟨4⟩ "y" .value,
  .ident ⟨16⟩,
  .setBody ⟨17⟩ ⟨2⟩,
  .defineClass "E" .package .none true,
  .defineClassParam ⟨5⟩ "x",
  .thisOf ⟨5⟩,
  .extend ⟨5⟩ ⟨.bare, ⟨4⟩⟩ [⟨⟨4⟩, false⟩]]

/-- A class `O` with member classes `class D(x, z) { val y = x }` and `class E extends D(O.this, y)`
    and a field `val e = new E`. -/
def readsEarlier : Program := .assemble [
  .defineClass "O" .package .none true,
  .defineClass "D" (.cls ⟨4⟩) .none true,
  .defineClassParam ⟨5⟩ "x",
  .defineClassParam ⟨5⟩ "z",
  .defineField ⟨5⟩ "y" .value,
  .ident ⟨17⟩,
  .setBody ⟨20⟩ ⟨4⟩,
  .defineClass "E" (.cls ⟨4⟩) .none true,
  .thisOf ⟨4⟩,
  .identFrom (.thisOf ⟨6⟩) ⟨20⟩,
  .extend ⟨6⟩ ⟨.bare, ⟨5⟩⟩ [⟨⟨7⟩, false⟩, ⟨⟨8⟩, false⟩],
  .defineField ⟨4⟩ "e" .value,
  .newInstance ⟨6⟩ [],
  .setBody ⟨22⟩ ⟨10⟩]

/-- `class F { val g = x }`, `class D(x) extends F { val y = x }` and `class E extends D(this)`. The
    two initializers are one expression. -/
def sharesIdent : Program := .assemble [
  .defineClass "F" .package .none true,
  .defineClass "D" .package .none true,
  .extend ⟨5⟩ ⟨.bare, ⟨4⟩⟩ [],
  .defineClassParam ⟨5⟩ "x",
  .ident ⟨17⟩,
  .defineField ⟨4⟩ "g" .value,
  .setBody ⟨18⟩ ⟨2⟩,
  .defineField ⟨5⟩ "y" .value,
  .setBody ⟨19⟩ ⟨2⟩,
  .defineClass "E" .package .none true,
  .thisOf ⟨6⟩,
  .extend ⟨6⟩ ⟨.bare, ⟨5⟩⟩ [⟨⟨6⟩, false⟩]]

/-- A class body does not see its own class parameter where the field is overridden in the class of
    the object, where the identifier was evaluated before the parameter was stored, and where
    another class evaluates it earlier. -/
theorem Query.ident_misses_parameter :
    (∀ q ∈ [shadowsX, readsEarlier, sharesIdent],
      q.Built ∧ q.finish.Acyclic ∧ q.finish.DistinctParams) ∧
    shadowsX.finish.MissesParameter ⟨5⟩ ⟨4⟩ (.thisOf ⟨5⟩) ⟨16⟩ ⟨2⟩ ∧
    readsEarlier.finish.MissesParameter ⟨4⟩ ⟨5⟩ (.warm ⟨⟨6⟩, 0⟩) ⟨17⟩ ⟨4⟩ ∧
    sharesIdent.finish.MissesParameter ⟨6⟩ ⟨5⟩ (.thisOf ⟨6⟩) ⟨17⟩ ⟨2⟩ := by
  have wellFormed {commands : List Command}
      (ranked : ∀ c ∈ (Program.assemble commands).finish.classIds,
        ∀ d ∈ ((Program.assemble commands).finish.cls c).parents, d.index < c.index)
      (distinct : (Program.assemble commands).finish.DistinctParams) :
      (Program.assemble commands).Built ∧ (Program.assemble commands).finish.Acyclic ∧
        (Program.assemble commands).finish.DistinctParams :=
    ⟨(Program.assembled_assemble _).built, Program.acyclic_of_rank ClassId.index ranked, distinct⟩
  refine ⟨?_, ?_, ?_, ?_⟩
  · simp only [List.forall_mem_cons, List.not_mem_nil, false_imp_iff, implies_true, and_true]
    exact ⟨wellFormed (by decide +kernel) (by decide +kernel),
      wellFormed (by decide +kernel) (by decide +kernel),
      wellFormed (by decide +kernel) (by decide +kernel)⟩
  · exact Program.missesParameter_of_test (n := 30) ⟨14⟩ ⟨15⟩ ⟨0⟩ (by decide +kernel)
      (by decide +kernel)
  · exact Program.missesParameter_of_test (n := 30) ⟨15⟩ ⟨16⟩ ⟨2⟩ (by decide +kernel)
      (by decide +kernel)
  · exact Program.missesParameter_of_test (n := 30) ⟨15⟩ ⟨16⟩ ⟨1⟩ (by decide +kernel)
      (by decide +kernel)

end ObjectInit
