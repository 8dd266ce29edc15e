import Mathlib.Data.List.Forall2
import ObjectInit.Proofs.Runs

/-!
# Plans that differ in traces

The trace of calls is there for the readers of errors; nothing that the analysis computes depends
on it. Two plans are alike (`Plan.Alike`) if they take the same steps in the same scopes, apart from
traces and from what stands in errors, as long as they see the same environment and heaps that agree
and get the same answers. They may not look at anything else in the store and trust no values. The
plans that do so, for evaluations and promotions, are not alike to themselves.

Main results:

* `Plan.Alike.bind`: what goes on alike after plans that are alike is alike.
* `Plan.Alike.mapM`: plans for the elements of two lists.
-/

namespace ObjectInit

/-! ## Answers that differ in traces -/

/-- As many errors. -/
def ErrorsAlike (es es' : List SafetyError) : Prop := es.length = es'.length

namespace ErrorsAlike

theorem refl (es : List SafetyError) : ErrorsAlike es es := Eq.refl es.length

theorem append {es es' fs fs' : List SafetyError} (h : ErrorsAlike es es')
    (hf : ErrorsAlike fs fs') : ErrorsAlike (es ++ fs) (es' ++ fs') := by
  unfold ErrorsAlike at *
  rw [List.length_append, List.length_append, h, hf]

theorem flatten {ess ess' : List (List SafetyError)} (h : List.Forall₂ ErrorsAlike ess ess') :
    ErrorsAlike ess.flatten ess'.flatten := by
  induction h with
  | nil => exact refl []
  | cons h _ ih => exact h.append ih

theorem flatMap {α : Type} {R : α → α → Prop} {xs xs' : List α} {f f' : α → List SafetyError}
    (h : List.Forall₂ R xs xs') (hf : ∀ x x', R x x' → ErrorsAlike (f x) (f' x')) :
    ErrorsAlike (xs.flatMap f) (xs'.flatMap f') := by
  induction h with
  | nil => exact refl []
  | cons h _ ih => exact (hf _ _ h).append ih

theorem isEmpty_eq {es es' : List SafetyError} (h : ErrorsAlike es es') :
    es.isEmpty = es'.isEmpty := by
  unfold ErrorsAlike at h
  rw [Bool.eq_iff_iff, List.isEmpty_iff_length_eq_zero, List.isEmpty_iff_length_eq_zero, h]

end ErrorsAlike

/-- The same value, and as many errors. -/
def Outcome.Alike (o o' : Outcome) : Prop := o.value = o'.value ∧ ErrorsAlike o.errors o'.errors

namespace Outcome.Alike

theorem refl (o : Outcome) : o.Alike o := ⟨rfl, .refl _⟩

theorem ofErrors {es es' : List SafetyError} (h : ErrorsAlike es es') :
    (Outcome.ofErrors es).Alike (.ofErrors es') :=
  ⟨rfl, h⟩

theorem followedBy {o o' : Outcome} (h : o.Alike o') {es es' : List SafetyError}
    (hes : ErrorsAlike es es') : (o.followedBy es).Alike (o'.followedBy es') :=
  ⟨h.1, h.2.append hes⟩

theorem precededBy {o o' : Outcome} (h : o.Alike o') {es es' : List SafetyError}
    (hes : ErrorsAlike es es') : (o.precededBy es).Alike (o'.precededBy es') :=
  ⟨h.1, hes.append h.2⟩

theorem join {o o' q q' : Outcome} (h : o.Alike o') (hq : q.Alike q') :
    (o.join q).Alike (o'.join q') := by
  refine ⟨?_, h.2.append hq.2⟩
  rw [Outcome.join, Outcome.join, h.1, hq.1]

theorem joinAll {os os' : List Outcome} (h : List.Forall₂ Outcome.Alike os os') :
    (Outcome.joinAll os).Alike (Outcome.joinAll os') := by
  suffices ∀ o o' : Outcome, o.Alike o' → (os.foldl Outcome.join o).Alike (os'.foldl .join o') from
    this .hot .hot (refl _)
  induction h with
  | nil => exact fun o o' ho => ho
  | cons h _ ih => exact fun o o' ho => ih _ _ (ho.join h)

end Outcome.Alike

/-- The same argument, perhaps evaluated at another place. -/
def ArgValue.Alike (a a' : ArgValue) : Prop := a.value = a'.value ∧ a.source = a'.source

theorem ArgValue.Alike.refl (a : ArgValue) : a.Alike a := ⟨rfl, rfl⟩

/-- The same arguments, perhaps evaluated at other places. -/
abbrev ArgsAlike : List ArgValue → List ArgValue → Prop := List.Forall₂ ArgValue.Alike

theorem ArgsAlike.refl (args : List ArgValue) : ArgsAlike args args :=
  List.forall₂_same.2 fun a _ => ArgValue.Alike.refl a

theorem ArgsAlike.map_value {args args' : List ArgValue} (h : ArgsAlike args args') :
    args.map ArgValue.value = args'.map ArgValue.value := by
  induction h with
  | nil => rfl
  | cons h _ ih => rw [List.map_cons, List.map_cons, h.1, ih]

/-! ## Questions that differ in traces -/

/-- The same question, perhaps with arguments that were evaluated at other places. Whether a value
    is promotable depends on what the store remembers, and a check starts with an empty store; these
    questions are left out. -/
inductive Query.Alike : {β : Type} → Query β → Query β → Prop where
  | eval (e : ExprId) (frame : Frame) (final : Bool) :
    Alike (.eval e frame final) (.eval e frame final)
  | select (v : Value) (field : SymbolId) (source : Span) (virtual : Bool) :
    Alike (.select v field source virtual) (.select v field source virtual)
  | call (v : Value) (method : SymbolId) {args args' : List ArgValue} (dispatch : Dispatch)
    (source : Span) (h : ArgsAlike args args') :
    Alike (.call v method args dispatch source) (.call v method args' dispatch source)
  | construct (v : Value) (ctor : SymbolId) {args args' : List ArgValue} (source : Span)
    (h : ArgsAlike args args') :
    Alike (.construct v ctor args source) (.construct v ctor args' source)
  | create (outer : Value) (c : ClassId) (ctor : SymbolId) {args args' : List ArgValue}
    (source : Span) (h : ArgsAlike args args') :
    Alike (.create outer c ctor args source) (.create outer c ctor args' source)
  | template (c : ClassId) (this : Addr) : Alike (.template c this) (.template c this)
  | body (c : ClassId) (this : Addr) : Alike (.body c this) (.body c this)
  | promote (v : Value) (reason : String) (source : Span) :
    Alike (.promote v reason source) (.promote v reason source)
  | enclosingInstance (target : ClassId) (v : Value) (c : ClassId) (source : Span) :
    Alike (.enclosingInstance target v c source) (.enclosingInstance target v c source)
  | outerInstance (type : ClassRef) (frame : Frame) (source : Span) :
    Alike (.outerInstance type frame source) (.outerInstance type frame source)

/-- The same answer, apart from what stands in the errors. -/
def Query.AnswersAlike {β : Type} : Query β → β → β → Prop
  | .eval .. | .select .. | .call .. | .construct .. | .create .. | .template ..
  | .outerInstance .. => Outcome.Alike
  | .body .. | .promote .. | .check .. => ErrorsAlike
  | .isPromotable _ => Eq
  | .enclosingInstance .. => Eq

theorem Query.AnswersAlike.refl {β : Type} (q : Query β) (b : β) : q.AnswersAlike b b := by
  cases q with
  | body | promote | check => exact ErrorsAlike.refl b
  | isPromotable | enclosingInstance => rfl
  | _ => exact Outcome.Alike.refl b

/-! ## Plans that differ in traces -/

/-- The change can give a value to a field. -/
def Effect.setsField {β : Type} : Effect β → Bool
  | .setField .. => true
  | .allocate _ o => !o.fields.isEmpty
  | _ => false

/-- The effect tells more than what is in the heap, or it trusts a value. -/
def Effect.observes {β : Type} : Effect β → Bool
  | .look | .raise .. | .trust _ => true
  | _ => false

theorem Effect.setsField_allocate_new (a : Addr) (c : ClassId) (outers : List (ClassId × Value)) :
    (Effect.allocate a (.new c outers)).setsField = false := by
  simp [setsField, Object.new]

/-- Both plans take the same steps, apart from traces, and their answers are related by `R`, as long
    as the heaps that they see agree. Unless `sets` is true, they set no fields. -/
inductive Plan.Alike (sets : Bool) (agree : Heap → Heap → Prop) :
    {α : Type} → (α → α → Prop) → Plan α → Plan α → Prop where
  | pure {α : Type} {R : α → α → Prop} {a a' : α} (h : R a a') :
    Alike sets agree R (.pure a) (.pure a')
  | ask {α β : Type} {R : α → α → Prop} {q q' : Query β} {next next' : β → Plan α}
    (hq : q.Alike q') (h : ∀ b b', q.AnswersAlike b b' → Alike sets agree R (next b) (next' b')) :
    Alike sets agree R (.ask q next) (.ask q' next')
  | look {α : Type} {R : α → α → Prop} {next next' : Store → Plan α}
    (h : ∀ s s', s.env = s'.env → agree s.heap s'.heap →
      Alike sets agree R (next s) (next' s')) :
    Alike sets agree R (.perform .look next) (.perform .look next')
  | raise {α : Type} {R : α → α → Prop} {error error' : Place → SafetyError}
    {source source' : Span} {next next' : SafetyError → Plan α}
    (h : ∀ e e', Alike sets agree R (next e) (next' e')) :
    Alike sets agree R (.perform (.raise error source) next)
      (.perform (.raise error' source') next')
  | perform {α β : Type} {R : α → α → Prop} (effect : Effect β) {next next' : β → Plan α}
    (plain : effect.observes = false) (allowed : effect.setsField → sets)
    (h : ∀ b, Alike sets agree R (next b) (next' b)) :
    Alike sets agree R (.perform effect next) (.perform effect next')
  | env {α β : Type} {R : α → α → Prop} {S : β → β → Prop} (env : Env) {part part' : Plan β}
    {next next' : β → Plan α} (hpart : Alike sets agree S part part')
    (h : ∀ b b', S b b' → Alike sets agree R (next b) (next' b')) :
    Alike sets agree R (.within (.env env) part next) (.within (.env env) part' next')
  | trace {α β : Type} {R : α → α → Prop} {S : β → β → Prop} (trace trace' : Trace)
    {part part' : Plan β} {next next' : β → Plan α} (hpart : Alike sets agree S part part')
    (h : ∀ b b', S b b' → Alike sets agree R (next b) (next' b')) :
    Alike sets agree R (.within (.trace trace) part next) (.within (.trace trace') part' next')

namespace Plan.Alike

variable {sets : Bool} {agree : Heap → Heap → Prop} {α β : Type} {R : α → α → Prop}
  {S : β → β → Prop}

theorem bind {x x' : Plan β} {f f' : β → Plan α} (hx : Alike sets agree S x x')
    (hf : ∀ b b', S b b' → Alike sets agree R (f b) (f' b')) :
    Alike sets agree R (x >>= f) (x' >>= f') := by
  induction hx with
  | pure h => exact hf _ _ h
  | ask hq h ih => exact .ask hq fun b b' hb => ih b b' hb hf
  | look h ih => exact .look fun s s' henv hheap => ih s s' henv hheap hf
  | raise h ih => exact .raise fun e e' => ih e e' hf
  | perform effect plain allowed h ih => exact .perform effect plain allowed fun b => ih b hf
  | env env hpart h _ ih => exact .env env hpart fun b b' hb => ih b b' hb hf
  | trace trace trace' hpart h _ ih => exact .trace trace trace' hpart fun b b' hb => ih b b' hb hf

theorem map {x x' : Plan β} {f f' : β → α} (hx : Alike sets agree S x x')
    (hf : ∀ b b', S b b' → R (f b) (f' b')) : Alike sets agree R (f <$> x) (f' <$> x') := by
  rw [map_eq_pure_bind, map_eq_pure_bind]
  exact hx.bind fun b b' hb => .pure (hf b b' hb)

/-! ### Steps -/

theorem ask_self {q q' : Query β} (hq : q.Alike q') (hS : q.AnswersAlike = S) :
    Alike sets agree S (liftM q) (liftM q') :=
  .ask hq fun _ _ hb => .pure (hS ▸ hb)

theorem look_bind {f f' : Store → Plan α}
    (h : ∀ s s', s.env = s'.env → agree s.heap s'.heap → Alike sets agree R (f s) (f' s')) :
    Alike sets agree R ((liftM Effect.look : Plan Store) >>= f)
      ((liftM Effect.look : Plan Store) >>= f') :=
  .look h

theorem raise_self (error error' : Place → SafetyError) (source source' : Span) :
    Alike sets agree (fun _ _ => True) (liftM (Effect.raise error source))
      (liftM (Effect.raise error' source')) :=
  .raise fun _ _ => .pure trivial

theorem perform_self (effect : Effect β) (plain : effect.observes = false)
    (allowed : effect.setsField → sets) : Alike sets agree Eq (liftM effect) (liftM effect) :=
  .perform effect plain allowed fun _ => .pure rfl

theorem inEnv {x x' : Plan α} (env : Env) (hx : Alike sets agree R x x') :
    Alike sets agree R (inEnv env x) (inEnv env x') :=
  .env env hx fun _ _ h => .pure h

theorem inTrace {x x' : Plan α} (trace trace' : Trace) (hx : Alike sets agree R x x') :
    Alike sets agree R (inTrace trace x) (inTrace trace' x') :=
  .trace trace trace' hx fun _ _ h => .pure h

theorem calledFrom {x x' : Plan α} (source source' : Span) (hx : Alike sets agree R x x') :
    Alike sets agree R (calledFrom source x) (calledFrom source' x') :=
  look_bind fun _ _ _ _ => inTrace _ _ hx

theorem fail (error error' : Place → SafetyError) (source source' : Span) :
    Alike sets agree Outcome.Alike (fail error source) (fail error' source') :=
  (raise_self error error' source source').map fun _ _ _ => ⟨rfl, rfl⟩

theorem report (message : String) (source : Span) :
    Alike sets agree Eq (report message source) (report message source) :=
  perform_self _ rfl nofun

theorem ite {c : Prop} [Decidable c] {x x' y y' : Plan α} (hx : c → Alike sets agree R x x')
    (hy : ¬c → Alike sets agree R y y') :
    Alike sets agree R (if c then x else y) (if c then x' else y') := by
  by_cases h : c
  · rw [if_pos h, if_pos h]
    exact hx h
  · rw [if_neg h, if_neg h]
    exact hy h

/-! ### Steps for each element -/

theorem mapM {γ : Type} {T : γ → γ → Prop} {xs xs' : List γ} {f f' : γ → Plan β}
    (hxs : List.Forall₂ T xs xs') (hf : ∀ x x', T x x' → Alike sets agree S (f x) (f' x')) :
    Alike sets agree (List.Forall₂ S) (xs.mapM f) (xs'.mapM f') := by
  induction hxs with
  | nil => exact .pure .nil
  | cons h _ ih =>
    rw [List.mapM_cons, List.mapM_cons]
    refine (hf _ _ h).bind fun b b' hb => ih.bind fun bs bs' hbs => ?_
    exact .pure (.cons hb hbs)

/-- The same list of elements on both sides. -/
theorem mapM_same {γ : Type} (xs : List γ) {f f' : γ → Plan β}
    (hf : ∀ x, Alike sets agree S (f x) (f' x)) :
    Alike sets agree (List.Forall₂ S) (xs.mapM f) (xs.mapM f') :=
  mapM (T := Eq) (List.forall₂_same.2 fun _ _ => rfl) fun x _ h => h ▸ hf x

theorem joinEach {γ : Type} (xs : List γ) {f f' : γ → Plan Outcome}
    (hf : ∀ x, Alike sets agree Outcome.Alike (f x) (f' x)) :
    Alike sets agree Outcome.Alike (joinEach xs f) (joinEach xs f') :=
  (mapM_same xs hf).map fun _ _ => Outcome.Alike.joinAll

theorem errorsOfEach {γ : Type} {T : γ → γ → Prop} {xs xs' : List γ}
    {f f' : γ → Plan (List SafetyError)} (hxs : List.Forall₂ T xs xs')
    (hf : ∀ x x', T x x' → Alike sets agree ErrorsAlike (f x) (f' x')) :
    Alike sets agree ErrorsAlike (errorsOfEach xs f) (errorsOfEach xs' f') :=
  (mapM hxs hf).map fun _ _ => ErrorsAlike.flatten

theorem errorsOfEach_same {γ : Type} (xs : List γ) {f f' : γ → Plan (List SafetyError)}
    (hf : ∀ x, Alike sets agree ErrorsAlike (f x) (f' x)) :
    Alike sets agree ErrorsAlike (Plan.errorsOfEach xs f) (Plan.errorsOfEach xs f') :=
  (mapM_same xs hf).map fun _ _ => ErrorsAlike.flatten

/-- The answer of a plan is one of those that the plans have in common. -/
theorem exists_answer {p : Program} {n : Nat} {s s' : Store} {x x' : Plan α}
    (h : Alike sets Eq R x x') {a : α} (hx : x.Ends p n s a s') : ∃ a', R a a' := by
  induction h generalizing s s' with
  | pure hR =>
    obtain ⟨rfl, -⟩ := ends_pure.1 hx
    exact ⟨_, hR⟩
  | ask _ _ ih =>
    obtain ⟨b, t, -, hx⟩ := ends_ask_next.1 hx
    exact ih b b (Query.AnswersAlike.refl _ b) hx
  | look _ ih =>
    obtain ⟨b, t, -, hx⟩ := ends_perform_next.1 hx
    exact ih b b rfl rfl hx
  | raise _ ih =>
    obtain ⟨b, t, -, hx⟩ := ends_perform_next.1 hx
    exact ih b b hx
  | perform _ _ _ _ ih =>
    obtain ⟨b, t, -, hx⟩ := ends_perform_next.1 hx
    exact ih b hx
  | env _ _ _ ihPart ih | trace _ _ _ _ ihPart ih =>
    obtain ⟨b, t, hpart, hx⟩ := ends_within.1 hx
    obtain ⟨b', hS⟩ := ihPart hpart
    exact ih b b' hS hx

end Plan.Alike

end ObjectInit
