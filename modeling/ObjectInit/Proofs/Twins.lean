import ObjectInit.Proofs.Environments
import ObjectInit.Proofs.Ways

/-!
# Twin environments

Two environments are twins (`Env.Twins`) if they bind all symbols alike, apart from hidden ones, and
if they are both hot or both not hot, where this matters. Two plans are twins (`Plan.Twin`) if they
take the same steps as long as the second one is carried out in a twin of the environment of the
first one. So a plan is a twin of itself if it looks up no hidden symbol, captures no environment
and does not find out, unless it may, whether the environment is hot.

Main results:

* `Env.Twins.extend`: twins stay twins when blocks and local methods add to them.
* `Plan.Twin.run`: twin plans have the same answers and leave the same store, apart from the
  environments.
-/

namespace ObjectInit

/-! ## Environments -/

/-- The environments differ in the values of hidden symbols only. Where it is tested whether they
    are hot, these values are all hot in both of them or in none. -/
structure Env.Twins (hidden : SymbolId → Prop) (tested : Prop) (env env' : Env) : Prop where
  ascending : env.Ascending
  ascending' : env'.Ascending
  shown : ∀ x, ¬hidden x → env.lookup x = env'.lookup x
  heat : tested → ((∀ x v, hidden x → env.lookup x = some v → v.isHot = true) ↔
    ∀ x v, hidden x → env'.lookup x = some v → v.isHot = true)

namespace Env.Twins

variable {hidden : SymbolId → Prop} {tested : Prop} {env env' : Env}

theorem isHot_eq (h : env.Twins hidden tested env') (ht : tested) : env.isHot = env'.isHot := by
  have shown (x : SymbolId) (v : Value) (hx : ¬hidden x) :
      env.lookup x = some v ↔ env'.lookup x = some v := by
    rw [h.shown x hx]
  rw [Bool.eq_iff_iff, isHot_iff h.ascending, isHot_iff h.ascending']
  constructor
  · intro hot x v hv
    by_cases hx : hidden x
    · exact (h.heat ht).1 (fun x v _ => hot x v) x v hx hv
    · exact hot x v ((shown x v hx).2 hv)
  · intro hot x v hv
    by_cases hx : hidden x
    · exact (h.heat ht).2 (fun x v _ => hot x v) x v hx hv
    · exact hot x v ((shown x v hx).1 hv)

/-- Further bindings hide no other symbols. -/
theorem extend (h : env.Twins hidden tested env') {bindings : List (SymbolId × Value)}
    (open' : ∀ b ∈ bindings, ¬hidden b.1) :
    (env.extend bindings).Twins hidden tested (env'.extend bindings) := by
  have unbound {x : SymbolId} (hx : hidden x) : ∀ b ∈ bindings, x ≠ b.1 :=
    fun b hb heq => open' b hb (heq ▸ hx)
  refine ⟨h.ascending.extend bindings, h.ascending'.extend bindings,
    fun x hx => lookup_extend_congr (h.shown x hx) bindings, fun ht => ?_⟩
  have same : ∀ e : Env, (∀ x v, hidden x → (e.extend bindings).lookup x = some v →
      v.isHot = true) ↔ ∀ x v, hidden x → e.lookup x = some v → v.isHot = true := by
    intro e
    refine forall_congr' fun x => forall_congr' fun v => forall_congr' fun hx => ?_
    rw [lookup_extend_of_unbound (unbound hx)]
  rw [same, same]
  exact h.heat ht

/-- Any two environments are twins as far as they bind nothing. -/
theorem of_lists (b b' : List (SymbolId × Value)) :
    (ofList b).Twins (fun x => ((ofList b).lookup x).isSome ∨ ((ofList b').lookup x).isSome)
      ((ofList b).isHot = (ofList b').isHot) (ofList b') := by
  refine ⟨ascending_ofList b, ascending_ofList b', fun x hx => ?_, fun ht => ?_⟩
  · rw [not_or, Option.not_isSome_iff_eq_none, Option.not_isSome_iff_eq_none] at hx
    rw [hx.1, hx.2]
  · have all (e : List (SymbolId × Value)) (P : SymbolId → Prop)
        (hP : ∀ x, ((ofList e).lookup x).isSome → P x) :
        (∀ x v, P x → (ofList e).lookup x = some v → v.isHot = true) ↔
          (ofList e).isHot = true := by
      rw [isHot_iff (ascending_ofList e)]
      exact ⟨fun h x v hv => h x v (hP x (hv ▸ rfl)) hv, fun h x v _ hv => h x v hv⟩
    rw [all b _ fun _ => .inl, all b' _ fun _ => .inr, ht]

end Env.Twins

/-- The two environments do not bind the symbol alike. -/
def Env.DiffersAt (env env' : Env) (x : SymbolId) : Prop := env.lookup x ≠ env'.lookup x

instance (env env' : Env) : DecidablePred (env.DiffersAt env') :=
  fun _ => inferInstanceAs (Decidable (_ ≠ _))

/-- The values of the marked symbols are hot. -/
def Env.isHotOn (marked : SymbolId → Prop) [DecidablePred marked] : Env → Bool
  | empty => true
  | bind s v rest => (!decide (marked s) || v.isHot) && rest.isHotOn marked

theorem Env.isHotOn_iff {marked : SymbolId → Prop} [DecidablePred marked] :
    ∀ {env : Env}, env.Ascending → (env.isHotOn marked = true ↔
      ∀ x v, marked x → env.lookup x = some v → v.isHot = true)
  | empty, _ => ⟨fun _ => nofun, fun _ => rfl⟩
  | bind s v rest, h => by
    rw [isHotOn, Bool.and_eq_true, isHotOn_iff h.2]
    constructor
    · rintro ⟨hv, hrest⟩ x w marked hx
      rw [lookup] at hx
      split at hx
      · next same =>
        cases hx
        simpa [same ▸ marked] using hv
      · exact hrest x w marked hx
    · refine fun all => ⟨?_, fun x w marked hx => all x w marked ?_⟩
      · by_cases marked : marked s
        · simpa [marked] using all s v marked (if_pos rfl)
        · simp [marked]
      · have hne : x ≠ s := fun heq => Nat.lt_irrefl _ (heq ▸ h.1 x w hx)
        rw [lookup, if_neg hne, hx]

/-- Two environments that bind the same symbols differently are twins as far as these symbols are
    hidden. -/
theorem Env.Twins.of_differs {env env' : Env} (h : env.Ascending) (h' : env'.Ascending) :
    env.Twins (env.DiffersAt env')
      (env.isHotOn (env.DiffersAt env') = env'.isHotOn (env.DiffersAt env')) env' := by
  refine ⟨h, h', fun x hx => not_not.1 hx, fun same => ?_⟩
  rw [← isHotOn_iff h, ← isHotOn_iff h', same]

/-! ## Plans -/

/-- The effect reads the whole store. -/
def Effect.isLook {β : Type} : Effect β → Bool
  | .look => true
  | _ => false

/-- The scope has an environment of its own. -/
def Scope.isEnv {β : Type} : Scope β → Bool
  | .env _ => true
  | _ => false

/-- Both plans take the same steps, if the second one is carried out in a twin of the environment of
    the first one. What is asked in these environments is as described by `asked`; a part with an
    environment of its own may ask anything. -/
inductive Plan.Twin (hidden : SymbolId → Prop) (tested : Prop)
    (asked : (γ : Type) → Query γ → Prop) : {α : Type} → Plan α → Plan α → Prop where
  | pure {α : Type} (a : α) : Twin hidden tested asked (.pure a) (.pure a)
  | ask {α β : Type} {q : Query β} {next next' : β → Plan α} (hq : asked β q)
    (h : ∀ b, Twin hidden tested asked (next b) (next' b)) :
    Twin hidden tested asked (.ask q next) (.ask q next')
  | look {α : Type} {next next' : Store → Plan α}
    (h : ∀ s env, s.env.Twins hidden tested env →
      Twin hidden tested asked (next s) (next' { s with env })) :
    Twin hidden tested asked (.perform .look next) (.perform .look next')
  | perform {α β : Type} {effect : Effect β} {next next' : β → Plan α}
    (plain : effect.isLook = false) (h : ∀ b, Twin hidden tested asked (next b) (next' b)) :
    Twin hidden tested asked (.perform effect next) (.perform effect next')
  | own {α β : Type} (env : Env) (part : Plan β) {next next' : β → Plan α}
    (h : ∀ b, Twin hidden tested asked (next b) (next' b)) :
    Twin hidden tested asked (.within (.env env) part next) (.within (.env env) part next')
  | env {α β : Type} {env env' : Env} {part part' : Plan β} {next next' : β → Plan α}
    (twins : env.Twins hidden tested env') (hpart : Twin hidden tested asked part part')
    (h : ∀ b, Twin hidden tested asked (next b) (next' b)) :
    Twin hidden tested asked (.within (.env env) part next) (.within (.env env') part' next')
  | within {α β : Type} {scope : Scope β} {part part' : Plan β} {next next' : β → Plan α}
    (plain : scope.isEnv = false) (hpart : Twin hidden tested asked part part')
    (h : ∀ b, Twin hidden tested asked (next b) (next' b)) :
    Twin hidden tested asked (.within scope part next) (.within scope part' next')

namespace Plan.Twin

variable {hidden : SymbolId → Prop} {tested : Prop} {asked : (γ : Type) → Query γ → Prop}
  {α β : Type}

theorem bind {x x' : Plan β} {f f' : β → Plan α} (hx : Twin hidden tested asked x x')
    (hf : ∀ b, Twin hidden tested asked (f b) (f' b)) :
    Twin hidden tested asked (x >>= f) (x' >>= f') := by
  induction hx with
  | pure a => exact hf a
  | ask hq h ih => exact .ask hq fun b => ih b hf
  | look h ih => exact .look fun s env twins => ih s env twins hf
  | perform plain h ih => exact .perform plain fun b => ih b hf
  | own env part h ih => exact .own env part fun b => ih b hf
  | env twins hpart h _ ih => exact .env twins hpart fun b => ih b hf
  | within plain hpart h _ ih => exact .within plain hpart fun b => ih b hf

theorem map {x x' : Plan β} (f : β → α) (hx : Twin hidden tested asked x x') :
    Twin hidden tested asked (f <$> x) (f <$> x') := by
  rw [map_eq_pure_bind, map_eq_pure_bind]
  exact hx.bind fun b => .pure (f b)

/-! ### Steps -/

theorem ask_self {q : Query β} (hq : asked β q) :
    Twin hidden tested asked (liftM q) (liftM q : Plan β) :=
  .ask hq .pure

theorem look_bind {f f' : Store → Plan α}
    (h : ∀ s env, s.env.Twins hidden tested env →
      Twin hidden tested asked (f s) (f' { s with env })) :
    Twin hidden tested asked ((liftM Effect.look : Plan Store) >>= f)
      ((liftM Effect.look : Plan Store) >>= f') :=
  .look h

theorem perform_self {effect : Effect β} (plain : effect.isLook = false) :
    Twin hidden tested asked (liftM effect) (liftM effect : Plan β) :=
  .perform plain .pure

theorem inEnv_own (env : Env) (x : Plan α) :
    Twin hidden tested asked (inEnv env x) (inEnv env x) :=
  .own env x .pure

theorem inEnv {env env' : Env} {x x' : Plan α} (twins : env.Twins hidden tested env')
    (hx : Twin hidden tested asked x x') :
    Twin hidden tested asked (inEnv env x) (Plan.inEnv env' x') :=
  .env twins hx .pure

theorem inTrace {x x' : Plan α} (trace : Trace) (hx : Twin hidden tested asked x x') :
    Twin hidden tested asked (inTrace trace x) (Plan.inTrace trace x') :=
  .within rfl hx .pure

theorem calledFrom {x x' : Plan α} (source : Span) (hx : Twin hidden tested asked x x') :
    Twin hidden tested asked (calledFrom source x) (Plan.calledFrom source x') :=
  look_bind fun _ _ _ => inTrace _ hx

theorem fail (error : Place → SafetyError) (source : Span) :
    Twin hidden tested asked (fail error source) (Plan.fail error source) :=
  (perform_self rfl).bind fun _ => .pure _

theorem report (message : String) (source : Span) :
    Twin hidden tested asked (report message source) (Plan.report message source) :=
  perform_self rfl

theorem ite {c : Prop} [Decidable c] {x x' y y' : Plan α}
    (hx : c → Twin hidden tested asked x x') (hy : ¬c → Twin hidden tested asked y y') :
    Twin hidden tested asked (if c then x else y) (if c then x' else y') := by
  by_cases h : c
  · rw [if_pos h, if_pos h]
    exact hx h
  · rw [if_neg h, if_neg h]
    exact hy h

/-! ### Steps for each element -/

theorem mapM {γ : Type} {xs : List γ} {f f' : γ → Plan β}
    (hf : ∀ x ∈ xs, Twin hidden tested asked (f x) (f' x)) :
    Twin hidden tested asked (xs.mapM f) (xs.mapM f') := by
  induction xs with
  | nil => exact .pure []
  | cons x xs ih =>
    rw [List.mapM_cons, List.mapM_cons]
    refine (hf x List.mem_cons_self).bind fun b => ?_
    exact (ih fun y hy => hf y (List.mem_cons_of_mem x hy)).bind fun bs => .pure (b :: bs)

theorem forM {γ : Type} {xs : List γ} {f f' : γ → Plan Unit}
    (hf : ∀ x ∈ xs, Twin hidden tested asked (f x) (f' x)) :
    Twin hidden tested asked (xs.forM f) (xs.forM f') := by
  induction xs with
  | nil => exact .pure _
  | cons x xs ih =>
    exact (hf x List.mem_cons_self).bind fun _ =>
      ih fun y hy => hf y (List.mem_cons_of_mem x hy)

theorem allM {γ : Type} {xs : List γ} {f f' : γ → Plan Bool}
    (hf : ∀ x, Twin hidden tested asked (f x) (f' x)) :
    Twin hidden tested asked (xs.allM f) (xs.allM f') := by
  induction xs with
  | nil => exact .pure _
  | cons x xs ih =>
    refine (hf x).bind fun b => ?_
    cases b with
    | true => exact ih
    | false => exact .pure false

theorem joinEach {γ : Type} {xs : List γ} {f f' : γ → Plan Outcome}
    (hf : ∀ x, Twin hidden tested asked (f x) (f' x)) :
    Twin hidden tested asked (joinEach xs f) (Plan.joinEach xs f') :=
  (mapM fun x _ => hf x).map _

theorem errorsOfEach {γ : Type} {xs : List γ} {f f' : γ → Plan (List SafetyError)}
    (hf : ∀ x, Twin hidden tested asked (f x) (f' x)) :
    Twin hidden tested asked (errorsOfEach xs f) (Plan.errorsOfEach xs f') :=
  (mapM fun x _ => hf x).map _

end Plan.Twin

/-! ## Runs -/

/-- Started in another environment, the second run ends as the first one does, in this
    environment. -/
def Run.SameIn {α : Type} (r r' : Run α) (s : Store) (env : Env) : Prop :=
  r'.run { s with env } = (r.run s).map fun (a, t) => (a, { t with env })

section Runs

variable {hidden : SymbolId → Prop} {tested : Prop} {asked : (γ : Type) → Query γ → Prop}
  {p : Program} {n : Nat} {α β : Type} {s t : Store} {env : Env} {b : β}

theorem Run.SameIn.bind {r r' : Run β} {f f' : β → Run α} (hr : r.SameIn r' s env)
    (hf : ∀ b t, r.run s = .ok (b, t) → (f b).SameIn (f' b) t env) :
    (r >>= f).SameIn (r' >>= f') s env := by
  unfold Run.SameIn at hr ⊢
  rw [StateT.run_bind, StateT.run_bind, hr]
  cases hs : r.run s with
  | error e => rfl
  | ok x => exact hf x.1 x.2 hs

/-- No effect but a look at the whole store depends on the environment. -/
theorem Effect.sameIn {effect : Effect β} (plain : effect.isLook = false) (s : Store) (env : Env) :
    effect.run.SameIn effect.run s env := by
  have changeHeap (change : Heap → Except HeapFault Heap) :
      (Run.changeHeap change).SameIn (Run.changeHeap change) s env := by
    unfold Run.SameIn Run.changeHeap
    simp only [StateT.run]
    cases change s.heap with
    | ok heap => rfl
    | error fault => rfl
  cases effect with
  | look => cases plain
  | allocate a o => exact changeHeap (·.allocate a o)
  | setField a f v => exact changeHeap (·.setField a f v)
  | setOuter a c v => exact changeHeap (·.setOuter a c v)
  | creationOf w =>
    unfold Run.SameIn Effect.run
    simp only [StateT.run_bind, StateT.run_get, pure_bind]
    cases s.heap.creation? w with
    | none => rfl
    | some creation => rfl
  | raise | warmOf | report | trust => rfl

/-- A part of a plan runs in its scope, and the plan goes on after it. -/
theorem Plan.run_within (answer : {γ : Type} → Query γ → Run γ) (scope : Scope β) (part : Plan β)
    (next : β → Plan α) (s : Store) :
    ((Plan.within scope part next).run answer).run s =
      (part.run answer).run (scope.enter s) >>= fun (b, t) =>
        ((next b).run answer).run (scope.leave s.toContext b t) := by
  rw [Plan.run]
  simp only [StateT.run_bind, StateT.run_get, StateT.run_modify, pure_bind]

theorem Scope.enter_env {scope : Scope β} (plain : scope.isEnv = false) (s : Store) (env : Env) :
    scope.enter { s with env } = { scope.enter s with env } := by
  cases scope with
  | env => cases plain
  | trace | evaluation | promotion => rfl

theorem Scope.env_enter {scope : Scope β} (plain : scope.isEnv = false) (s : Store) :
    (scope.enter s).env = s.env := by
  cases scope with
  | env => cases plain
  | trace | evaluation | promotion => rfl

theorem Scope.leave_env {scope : Scope β} (plain : scope.isEnv = false) (before : Context)
    (b : β) (t : Store) (env : Env) :
    scope.leave { before with env } b { t with env } = { scope.leave before b t with env } := by
  cases scope with
  | env => cases plain
  | trace | evaluation => rfl
  | promotion v =>
    by_cases hb : b.isEmpty
    · rw [leave, leave, if_pos hb, if_pos hb]
    · rw [leave, leave, if_neg hb, if_neg hb]

/-- Parts that end in the same way lead to plans that do, if the scopes are left in the same way. -/
theorem Run.SameIn.within {answer : {γ : Type} → Query γ → Run γ} {scope scope' : Scope β}
    {part part' : Plan β} {next next' : β → Plan α} (inside : Store → Store)
    (hpart : (part'.run answer).run (scope'.enter { s with env }) =
      ((part.run answer).run (scope.enter s)).map fun (b, t) => (b, inside t))
    (hleave : ∀ b t, scope'.leave { s.toContext with env } b (inside t) =
      { scope.leave s.toContext b t with env })
    (hnext : ∀ b t, (part.run answer).run (scope.enter s) = .ok (b, t) →
      ((next b).run answer).SameIn ((next' b).run answer) (scope.leave s.toContext b t) env) :
    ((Plan.within scope part next).run answer).SameIn
      ((Plan.within scope' part' next').run answer) s env := by
  rw [SameIn, Plan.run_within, Plan.run_within, hpart]
  cases hs : (part.run answer).run (scope.enter s) with
  | error e => rfl
  | ok x =>
    have next := hnext x.1 x.2 hs
    rw [SameIn, ← hleave] at next
    exact next

/-- Twin plans have the same answers in twin environments, if the questions that they ask there
    have. -/
theorem Plan.Twin.run {x x' : Plan α} (h : Twin hidden tested asked x x')
    (twins : s.env.Twins hidden tested env)
    (same : ∀ {γ : Type} (r : Query γ) u env', x.Asks p s r u → asked γ r →
      u.env.Twins hidden tested env' → (answer p n r).SameIn (answer p n r) u env') :
    (x.run fun q => answer p n q).SameIn (x'.run fun q => answer p n q) s env := by
  induction h generalizing s env with
  | pure a => rfl
  | ask hq h ih =>
    refine Run.SameIn.bind (same _ s env .here hq twins) fun b t hb => ?_
    have restored : t.env = s.env := Query.Ends.env hb
    exact ih b (restored ▸ twins) fun r u env' hr => same r u env' (.afterAsk hb hr)
  | look h ih => exact ih s env twins twins fun r u env' hr => same r u env' (.afterEffect rfl hr)
  | perform plain h ih =>
    refine Run.SameIn.bind (Effect.sameIn plain s env) fun b t hb => ?_
    have restored : t.env = s.env := (Effect.run_frame hb).1
    exact ih b (restored ▸ twins) fun r u env' hr => same r u env' (.afterEffect hb hr)
  | own inner part h ih =>
    refine .within id ?_ (fun _ _ => rfl) fun b t hb => ?_
    · exact (id_map _).symm
    · exact ih b twins fun r u env' hr => same r u env' (.afterScope hb hr)
  | @env _ _ _ env' _ _ _ _ inner hpart h ihPart ih =>
    refine .within (fun t => { t with env := env' }) ?_ (fun _ _ => rfl) fun b t hb => ?_
    · exact ihPart inner fun r u env' hr => same r u env' (.inside hr)
    · exact ih b twins fun r u env' hr => same r u env' (.afterScope hb hr)
  | @within _ _ scope part _ _ _ plain hpart h ihPart ih =>
    have entered : (scope.enter s).env = s.env := scope.env_enter plain s
    refine .within (fun t => { t with env }) ?_ (fun b t => scope.leave_env plain _ b t env)
      fun b t hb => ?_
    · rw [scope.enter_env plain]
      exact ihPart (entered ▸ twins) fun r u env' hr => same r u env' (.inside hr)
    · have restored : (scope.leave s.toContext b t).env = s.env := by
        have ends : part.Ends p n (scope.enter s) b t := hb
        exact (Store.Restores.of_scope scope (ends.persists Store.Restores.persists)).env
      exact ih b (restored ▸ twins) fun r u env' hr => same r u env' (.afterScope hb hr)

end Runs

end ObjectInit
