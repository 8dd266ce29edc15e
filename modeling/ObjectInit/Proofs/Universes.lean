import Mathlib.Logic.Relation
import ObjectInit.Proofs.Built
import ObjectInit.Proofs.Environments
import ObjectInit.Proofs.Kept
import ObjectInit.Proofs.Reached

/-!
# Universes

A universe says which values, which paths of calls and which bodies of closures may occur. It is
closed under what an analysis does: values are joined, environments are captured by closures, and
calls are added to traces. A plan keeps to a universe (`Plan.Keeps`) if, wherever it meets only what
belongs to the universe, it asks, changes and answers nothing else. All plans do (`Query.keeps`), so
an analysis that starts in a universe does not leave it: not in its answers, not in the stores on
the way, and not in the questions that are asked there.

Main results:

* `Plan.Keeps.bind`: how plans that keep to a universe are put together.
* `Query.keeps`: the plans of all questions keep to every universe.
* `Universe.answers_of_ends`, `Universe.contains_of_reaches`, `Universe.asks_of_way`: an analysis
  that starts in a universe stays there.
-/

namespace ObjectInit

/-- The second error is one of the causes of the first one. -/
def SafetyError.HasCause (e e' : SafetyError) : Prop := e' ∈ e.causes

/-- What may occur in an analysis. -/
structure Universe where
  /-- The value may occur. -/
  value : Value → Prop
  /-- The calls may lead to an evaluation, the outermost first. -/
  path : List Span → Prop
  /-- Closures may have this body. -/
  code : ExprId → Prop
  hot : value .hot
  cold : value .cold
  ref : ∀ a, value (.ref a)
  closure : ∀ body params frame env,
    value (.closure body params frame env) ↔ code body ∧ env.Binds value
  members : ∀ vs, value (.oneOf vs) → ∀ v ∈ vs, value v
  join : ∀ v w, value v → value w → value (v.join w)
  add : ∀ (t : Trace) source, path t.toList → path (t.add source).toList

namespace Universe

variable (U : Universe)

/-- Closures may have all parts of the program as their bodies. -/
def Covers (p : Program) : Prop := ∀ e ∈ p.parts, U.code e

/-! ## What belongs to a universe -/

/-- The errors and their causes at every depth were found on paths of the universe. -/
def HasErrors (es : List SafetyError) : Prop :=
  ∀ e ∈ es, ∀ e', Relation.ReflTransGen SafetyError.HasCause e e' → U.path e'.trace

structure HasOutcome (o : Outcome) : Prop where
  value : U.value o.value
  errors : U.HasErrors o.errors

structure HasArg (arg : ArgValue) : Prop where
  value : U.value arg.value
  path : U.path arg.trace.toList

def HasArgs (args : List ArgValue) : Prop := ∀ arg ∈ args, U.HasArg arg

structure HasCreation (creation : Creation) : Prop where
  outer : U.value creation.outer
  args : ∀ v ∈ creation.args, U.value v

/-- All values in the store and its trace belong to the universe. -/
structure Contains (s : Store) : Prop where
  env : s.env.Binds U.value
  path : U.path s.trace.toList
  field : ∀ a f v, s.heap.field? a f = some v → U.value v
  outer : ∀ a c v, s.heap.outer? a c = some v → U.value v
  creation : ∀ w creation, s.heap.creation? w = some creation → U.HasCreation creation
  cached : ∀ a e v, s.cache.find? a e = some v → U.value v
  trusted : ∀ v, s.trusted.contains v → U.value v

/-- The question is about what belongs to the universe. -/
def Asks {β : Type} : Query β → Prop
  | .select v .. | .promote v .. | .isPromotable v | .enclosingInstance _ v .. => U.value v
  | .call v _ args .. | .construct v _ args _ | .create v _ _ args _ => U.value v ∧ U.HasArgs args
  | .eval .. | .template .. | .body .. | .outerInstance .. | .check _ => True

/-- The answer belongs to the universe. -/
def Answers {β : Type} : Query β → β → Prop
  | .eval .. | .select .. | .call .. | .construct .. | .create .. | .template ..
  | .outerInstance .. => U.HasOutcome
  | .body .. | .promote .. | .check .. => U.HasErrors
  | .enclosingInstance .. => U.value
  | .isPromotable _ => fun _ => True

/-- The effect stores only what belongs to the universe. -/
def Performs {β : Type} : Effect β → Prop
  | .allocate _ o => ∃ c d v, o = .new c [(d, v)] ∧ U.value v
  | .setField _ _ v | .setOuter _ _ v | .trust v => U.value v
  | .warmOf creation => U.HasCreation creation
  | .look | .raise .. | .creationOf _ | .report _ => True

/-- What the effect reads belongs to the universe. -/
def Reads {β : Type} : Effect β → β → Prop
  | .look => U.Contains
  | .raise error _ => fun e => ∃ place, U.path place.trace ∧ e = error place
  | .creationOf _ => U.HasCreation
  | .allocate .. | .setField .. | .setOuter .. | .warmOf _ | .report _ | .trust _ => fun _ => True

/-- The scope is entered with what belongs to the universe. -/
def Enters {β : Type} : Scope β → Prop
  | .env env => env.Binds U.value
  | .trace trace => U.path trace.toList
  | .promotion v => U.value v
  | .evaluation .. => True

/-- What is kept when the scope is left belongs to the universe. -/
def Leaves {β : Type} : Scope β → β → Prop
  | .evaluation .. => fun o => U.value o.value
  | .env _ | .trace _ | .promotion _ => fun _ => True

end Universe

/-- Wherever the plan meets only what belongs to the universe, it asks, stores and enters nothing
    else, and it ends as `want` says. -/
def Plan.Keeps (U : Universe) : {α : Type} → Plan α → (α → Prop) → Prop
  | _, .pure a, want => want a
  | _, .ask q next, want => U.Asks q ∧ ∀ b, U.Answers q b → Plan.Keeps U (next b) want
  | _, .perform effect next, want =>
    U.Performs effect ∧ ∀ b, U.Reads effect b → Plan.Keeps U (next b) want
  | _, .within scope part next, want =>
    U.Enters scope ∧ Plan.Keeps U part fun b => U.Leaves scope b ∧ Plan.Keeps U (next b) want

variable {U : Universe} {p : Program} {n : Nat} {α β γ : Type} {s s' t : Store}

namespace Universe

/-! ## Errors, outcomes and values -/

theorem errors_nil : U.HasErrors [] := nofun

theorem errors_append {es fs : List SafetyError} (h : U.HasErrors es) (h' : U.HasErrors fs) :
    U.HasErrors (es ++ fs) :=
  List.forall_mem_append.2 ⟨h, h'⟩

theorem errors_flatMap {f : γ → List SafetyError} {xs : List γ}
    (h : ∀ x ∈ xs, U.HasErrors (f x)) : U.HasErrors (xs.flatMap f) := by
  intro e he
  obtain ⟨x, hx, he⟩ := List.mem_flatMap.1 he
  exact h x hx e he

/-- One error with its causes. -/
theorem errors_singleton {e : SafetyError} (causes : U.HasErrors e.causes) (h : U.path e.trace) :
    U.HasErrors [e] := by
  refine List.forall_mem_singleton.2 fun e' nested => ?_
  rcases nested.cases_head with rfl | ⟨cause, hcause, nested⟩
  · exact h
  · exact causes cause hcause e' nested

theorem HasOutcome.ofValue {v : Value} (h : U.value v) : U.HasOutcome (.ofValue v) :=
  ⟨h, errors_nil⟩

theorem outcome_hot : U.HasOutcome .hot := .ofValue U.hot

theorem HasErrors.outcome {es : List SafetyError} (h : U.HasErrors es) :
    U.HasOutcome (.ofErrors es) :=
  ⟨U.hot, h⟩

theorem HasOutcome.followedBy {o : Outcome} (h : U.HasOutcome o) {es : List SafetyError}
    (hes : U.HasErrors es) : U.HasOutcome (o.followedBy es) :=
  ⟨h.value, errors_append h.errors hes⟩

theorem HasOutcome.precededBy {o : Outcome} (h : U.HasOutcome o) {es : List SafetyError}
    (hes : U.HasErrors es) : U.HasOutcome (o.precededBy es) :=
  ⟨h.value, errors_append hes h.errors⟩

theorem HasOutcome.join {o o' : Outcome} (h : U.HasOutcome o) (h' : U.HasOutcome o') :
    U.HasOutcome (o.join o') :=
  ⟨U.join _ _ h.value h'.value, errors_append h.errors h'.errors⟩

theorem outcome_joinAll {os : List Outcome} (h : ∀ o ∈ os, U.HasOutcome o) :
    U.HasOutcome (Outcome.joinAll os) := by
  suffices ∀ q, U.HasOutcome q → U.HasOutcome (os.foldl Outcome.join q) from this .hot outcome_hot
  induction os with
  | nil => exact fun q hq => hq
  | cons o os ih =>
    exact fun q hq => ih (fun o' ho' => h o' (List.mem_cons_of_mem o ho')) _
      (hq.join (h o List.mem_cons_self))

theorem value_joinAll {vs : List Value} (h : ∀ v ∈ vs, U.value v) : U.value (Value.joinAll vs) :=
  Value.joinAll_induction U.hot U.join h

theorem value_widen (v : Value) : U.value v.widen := by
  rcases v.hot_or_cold_widen with h | h
  · exact h.symm ▸ U.hot
  · exact h.symm ▸ U.cold

theorem args_nil : U.HasArgs [] := nofun

theorem HasArg.widen {arg : ArgValue} (h : U.HasArg arg) : U.HasArg arg.widen :=
  ⟨value_widen arg.value, h.path⟩

theorem binds_hotParams (params : List SymbolId) :
    ∀ b ∈ params.map fun x => (x, Value.hot), U.value b.2 :=
  Env.of_hotParams U.hot

theorem binds_widened (params : List SymbolId) (args : List ArgValue) :
    (Env.ofList (Plan.widenedBindings params args)).Binds U.value :=
  .ofList (Env.of_widenedBindings U.hot U.cold)

/-! ## Stores -/

theorem contains_initial (path : U.path []) : U.Contains .initial where
  env := .empty
  path := path
  field a f v hv := by simp [Store.initial, Heap.field?, Heap.read] at hv
  outer a c v hv := by simp [Store.initial, Heap.outer?, Heap.read] at hv
  creation w creation hw := by
    simp [Store.initial, Heap.creation?, Numbering.item?, Numbering.empty] at hw
  cached a e v hv := by simp [Store.initial, Cache.find?] at hv
  trusted v hv := by simp [Store.initial, Trusted.contains] at hv

/-- What is read after a write was there before, or it was written. -/
theorem read_or_written {c : Prop} [Decidable c] {v w : Value} {old : Option Value}
    (hv : U.value v) (h : (if c then some v else old) = some w) : old = some w ∨ U.value w := by
  split at h
  · cases h
    exact .inr hv
  · exact .inl h

namespace Contains

variable (h : U.Contains s)
include h

theorem cache {cache : Cache}
    (cached : ∀ a e v, cache.find? a e = some v → s.cache.find? a e = some v ∨ U.value v) :
    U.Contains { s with cache := cache } where
  env := h.env
  path := h.path
  field := h.field
  outer := h.outer
  creation := h.creation
  cached a e v hv := (cached a e v hv).elim (h.cached a e v) id
  trusted := h.trusted

theorem keep {a : Addr} {e : ExprId} {v : Value} (hv : U.value v) :
    U.Contains { s with cache := s.cache.insert a e v } := by
  refine h.cache fun b g u hu => ?_
  rw [Cache.find?_insert] at hu
  exact read_or_written hv hu

theorem forget {a : Addr} {e : ExprId} :
    U.Contains { s with cache := s.cache.erase a e } := by
  refine h.cache fun b g u hu => ?_
  rw [Cache.find?_erase] at hu
  split at hu
  · cases hu
  · exact .inl hu

theorem trust {v : Value} (hv : U.value v) :
    U.Contains { s with trusted := s.trusted.insert v } := by
  refine { h with trusted := fun w hw => ?_ }
  simp only [Trusted.contains_insert, Bool.or_eq_true, beq_iff_eq] at hw
  rcases hw with rfl | hw
  · exact hv
  · exact h.trusted w hw

theorem distrust {v : Value} : U.Contains { s with trusted := s.trusted.erase v } := by
  refine { h with trusted := fun w hw => ?_ }
  simp only [Trusted.contains_erase, Bool.and_eq_true] at hw
  exact h.trusted w hw.2

theorem heap {heap : Heap}
    (field : ∀ a f v, heap.field? a f = some v → s.heap.field? a f = some v ∨ U.value v)
    (outer : ∀ a c v, heap.outer? a c = some v → s.heap.outer? a c = some v ∨ U.value v)
    (creations : heap.creations = s.heap.creations) : U.Contains { s with heap := heap } where
  env := h.env
  path := h.path
  field a f v hv := (field a f v hv).elim (h.field a f v) id
  outer a c v hv := (outer a c v hv).elim (h.outer a c v) id
  creation w creation hw := h.creation w creation (by rwa [Heap.creation?, ← creations])
  cached := h.cached
  trusted := h.trusted

/-- The store after an effect. -/
theorem run {effect : Effect β} (performs : U.Performs effect) {b : β}
    (ok : effect.run.run s = .ok (b, t)) : U.Reads effect b ∧ U.Contains t := by
  cases effect with
  | look =>
    cases ok
    exact ⟨h, h⟩
  | raise error source =>
    cases ok
    exact ⟨⟨_, h.path, rfl⟩, h⟩
  | allocate a o =>
    obtain ⟨c, d, v, rfl, hv⟩ := performs
    obtain ⟨heap, hheap, rfl⟩ := Effect.run_allocate.1 ok
    refine ⟨trivial, h.heap (fun b f u hu => ?_) (fun b e u hu => ?_)
      (Heap.creations_of_allocate hheap)⟩
    · rw [Heap.field?_of_allocate hheap] at hu
      exact .inl hu
    · rw [Heap.outer?_of_allocate hheap] at hu
      exact read_or_written hv hu
  | setField a f v =>
    obtain ⟨heap, hheap, rfl⟩ := Effect.run_setField.1 ok
    refine ⟨trivial, h.heap (fun b g u hu => ?_) (fun b e u hu => ?_)
      (Heap.creations_of_setField hheap)⟩
    · rw [Heap.field?_of_setField hheap] at hu
      exact read_or_written performs hu
    · rw [Heap.outer?_of_setField hheap] at hu
      exact .inl hu
  | setOuter a c v =>
    obtain ⟨heap, hheap, rfl⟩ := Effect.run_setOuter.1 ok
    refine ⟨trivial, h.heap (fun b g u hu => ?_) (fun b e u hu => ?_)
      (Heap.creations_of_setOuter hheap)⟩
    · rw [Heap.field?_of_setOuter hheap] at hu
      exact .inl hu
    · rw [Heap.outer?_of_setOuter hheap] at hu
      exact read_or_written performs hu
  | warmOf creation =>
    cases ok
    refine ⟨trivial, { h with creation := fun w old hw => ?_ }⟩
    rcases Numbering.item?_of_add hw with hw | ⟨-, rfl⟩
    · exact h.creation w old hw
    · exact performs
  | creationOf w =>
    obtain ⟨hw, rfl⟩ := Effect.run_creationOf.1 ok
    exact ⟨h.creation w _ hw, h⟩
  | report d =>
    cases ok
    exact ⟨trivial, { h with }⟩
  | trust v =>
    cases ok
    exact ⟨trivial, h.trust performs⟩

/-- The store inside of a scope. -/
theorem enter {scope : Scope β} (enters : U.Enters scope) : U.Contains (scope.enter s) := by
  cases scope with
  | env env => exact { h with env := enters }
  | trace trace => exact { h with path := enters }
  | evaluation receiver e final => exact h.keep U.hot
  | promotion v => exact h.trust enters

/-- The store behind a scope. -/
theorem leave {scope : Scope β} {b : β} (leaves : U.Leaves scope b) (inside : U.Contains t) :
    U.Contains (scope.leave s.toContext b t) := by
  cases scope with
  | env env => exact { inside with env := h.env }
  | trace trace => exact { inside with path := h.path }
  | evaluation receiver e final =>
    cases final with
    | true => exact inside.keep leaves
    | false => exact inside.forget
  | promotion v =>
    rw [Scope.leave]
    split
    · exact inside
    · exact inside.distrust

end Contains

end Universe

/-! ## Plans that keep to a universe -/

namespace Plan

open Universe

variable {E : α → Prop} {F : β → Prop}

namespace Keeps

theorem imp {x : Plan α} {E' : α → Prop} (h : x.Keeps U E) (hE : ∀ a, E a → E' a) :
    x.Keeps U E' := by
  induction x with
  | pure => exact hE _ h
  | ask q next ih => exact ⟨h.1, fun b hb => ih b (h.2 b hb) hE⟩
  | perform effect next ih => exact ⟨h.1, fun b hb => ih b (h.2 b hb) hE⟩
  | within scope part next ihPart ih =>
    exact ⟨h.1, ihPart h.2 fun b hb => ⟨hb.1, ih b hb.2 hE⟩⟩

theorem pure {a : α} (h : E a) : (Pure.pure a : Plan α).Keeps U E := h

theorem bind {x : Plan β} {f : β → Plan α} (hx : x.Keeps U F)
    (hf : ∀ b, F b → (f b).Keeps U E) : (x >>= f).Keeps U E := by
  change (x.bind f).Keeps U E
  induction x with
  | pure b => exact hf b hx
  | ask q next ih => exact ⟨hx.1, fun b hb => ih b (hx.2 b hb) hf⟩
  | perform effect next ih => exact ⟨hx.1, fun b hb => ih b (hx.2 b hb) hf⟩
  | within scope part next _ ih =>
    exact ⟨hx.1, hx.2.imp fun b hb => ⟨hb.1, ih b hb.2 hf⟩⟩

theorem ask {q : Query β} (h : U.Asks q) : (liftM q : Plan β).Keeps U (U.Answers q) :=
  ⟨h, fun _ hb => hb⟩

theorem perform (effect : Effect β) (h : U.Performs effect) :
    (liftM effect : Plan β).Keeps U (U.Reads effect) :=
  ⟨h, fun _ hb => hb⟩

theorem within {scope : Scope β} {part : Plan β} {next : β → Plan α} (enters : U.Enters scope)
    (hpart : part.Keeps U F) (leaves : ∀ b, F b → U.Leaves scope b)
    (hnext : ∀ b, F b → (next b).Keeps U E) : (Plan.within scope part next).Keeps U E :=
  ⟨enters, hpart.imp fun b hb => ⟨leaves b hb, hnext b hb⟩⟩

/-- The answer is made from that of the last part. -/
theorem ret {x : Plan β} {f : β → α} (hx : x.Keeps U F) (h : ∀ b, F b → E (f b)) :
    (x >>= fun b => Pure.pure (f b)).Keeps U E :=
  hx.bind h

theorem map {x : Plan β} {f : β → α} (hx : x.Keeps U F) (h : ∀ b, F b → E (f b)) :
    (f <$> x).Keeps U E := by
  rw [map_eq_pure_bind]
  exact hx.ret h

theorem look_bind {f : Store → Plan α} (hf : ∀ s, U.Contains s → (f s).Keeps U E) :
    ((liftM Effect.look : Plan Store) >>= f).Keeps U E :=
  bind (perform .look trivial) hf

theorem inEnv {x : Plan α} {env : Env} (henv : env.Binds U.value) (hx : x.Keeps U E) :
    (Plan.inEnv env x).Keeps U E :=
  within henv hx (fun _ _ => trivial) fun _ h => h

theorem inTrace {x : Plan α} {trace : Trace} (htrace : U.path trace.toList) (hx : x.Keeps U E) :
    (Plan.inTrace trace x).Keeps U E :=
  within htrace hx (fun _ _ => trivial) fun _ h => h

theorem calledFrom {x : Plan α} (source : Span) (hx : x.Keeps U E) :
    (Plan.calledFrom source x).Keeps U E :=
  look_bind fun _ hs => inTrace (U.add _ source hs.path) hx

/-- An error is found on the current path. -/
theorem raise (error : Place → SafetyError) (source : Span)
    (place : ∀ place, (error place).place = place)
    (causes : ∀ place, U.HasErrors (error place).causes) :
    (liftM (Effect.raise error source) : Plan SafetyError).Keeps U fun e => U.HasErrors [e] := by
  refine imp (perform (.raise error source) trivial) ?_
  rintro e ⟨at', path, rfl⟩
  refine errors_singleton (causes at') ?_
  rw [SafetyError.trace, place]
  exact path

theorem fail {error : Place → SafetyError} {source : Span}
    (place : ∀ place, (error place).place = place)
    (causes : ∀ place, (error place).causes = []) :
    (Plan.fail error source).Keeps U U.HasOutcome :=
  (raise error source place fun at' => (causes at').symm ▸ errors_nil).ret fun _ h => h.outcome

/-- A value that comes with a report. -/
theorem reported (message : String) (source : Span) {a : α} (h : E a) :
    (do report message source; return a : Plan α).Keeps U E :=
  bind (F := fun _ => True) (perform (.report ⟨message, source⟩) trivial) fun _ _ => h

theorem ite {c : Prop} [Decidable c] {x y : Plan α} (hx : c → x.Keeps U E)
    (hy : ¬c → y.Keeps U E) : (if c then x else y).Keeps U E := by
  by_cases h : c
  · rw [if_pos h]
    exact hx h
  · rw [if_neg h]
    exact hy h

/-! ### Parts for each element -/

theorem mapM {f : γ → Plan β} {xs : List γ} (hf : ∀ x ∈ xs, (f x).Keeps U F) :
    (xs.mapM f).Keeps U fun bs => ∀ b ∈ bs, F b := by
  induction xs with
  | nil => exact pure (E := fun bs => ∀ b ∈ bs, F b) nofun
  | cons x xs ih =>
    rw [List.mapM_cons]
    refine (hf x List.mem_cons_self).bind fun b hb => ?_
    refine (ih fun y hy => hf y (List.mem_cons_of_mem x hy)).ret fun bs hbs => ?_
    exact List.forall_mem_cons.2 ⟨hb, hbs⟩

theorem joinEach {f : γ → Plan Outcome} {xs : List γ}
    (hf : ∀ x ∈ xs, (f x).Keeps U U.HasOutcome) :
    (Plan.joinEach xs f).Keeps U U.HasOutcome :=
  (mapM hf).map fun _ h => outcome_joinAll h

theorem errorsOfEach {f : γ → Plan (List SafetyError)} {xs : List γ}
    (hf : ∀ x ∈ xs, (f x).Keeps U U.HasErrors) :
    (Plan.errorsOfEach xs f).Keeps U U.HasErrors :=
  (mapM hf).map fun ess h => by
    rw [← List.flatMap_id]
    exact errors_flatMap h

/-- The errors in hand are put in front of those of the last part. -/
theorem preceding {x : Plan Outcome} (hx : x.Keeps U U.HasOutcome) {es : List SafetyError}
    (h : U.HasErrors es) :
    (x >>= fun o => Pure.pure (o.precededBy es)).Keeps U U.HasOutcome :=
  hx.ret fun _ ho => ho.precededBy h

end Keeps

/-! ## Members -/

theorem keeps_eval (e : ExprId) (frame : Frame) (final : Bool) :
    (liftM (Query.eval e frame final) : Plan Outcome).Keeps U U.HasOutcome :=
  .ask trivial

theorem keeps_askSelect {v : Value} (hv : U.value v) (field : SymbolId) (source : Span)
    (virtual : Bool) :
    (liftM (Query.select v field source virtual) : Plan Outcome).Keeps U U.HasOutcome :=
  .ask hv

theorem keeps_askCall {v : Value} (hv : U.value v) (method : SymbolId) {args : List ArgValue}
    (h : U.HasArgs args) (dispatch : Dispatch) (source : Span) :
    (liftM (Query.call v method args dispatch source) : Plan Outcome).Keeps U U.HasOutcome :=
  .ask ⟨hv, h⟩

theorem keeps_askConstruct {v : Value} (hv : U.value v) (ctor : SymbolId) {args : List ArgValue}
    (h : U.HasArgs args) (source : Span) :
    (liftM (Query.construct v ctor args source) : Plan Outcome).Keeps U U.HasOutcome :=
  .ask ⟨hv, h⟩

theorem keeps_failUnknown (member : SymbolId) (source : Span) :
    (failUnknown p member source).Keeps U U.HasOutcome :=
  .fail (fun _ => rfl) fun _ => rfl

theorem keeps_initializer (a : Addr) (field : SymbolId) (source : Span) :
    (initializer p a field source).Keeps U U.HasOutcome := by
  unfold initializer
  split
  · exact .calledFrom source (keeps_eval _ _ _)
  · exact keeps_failUnknown field source

theorem keeps_selectMissing (a : Addr) (field : SymbolId) (source : Span) :
    (selectMissing p a field source).Keeps U U.HasOutcome := by
  cases a with
  | warm w => exact .ite (fun _ => .pure outcome_hot) fun _ => keeps_initializer _ field source
  | thisOf c =>
    exact .ite (fun _ => .calledFrom source (.fail (fun _ => rfl) fun _ => rfl)) fun _ =>
      keeps_failUnknown field source

theorem keeps_selectAt (a : Addr) (field : SymbolId) (source : Span) :
    (selectAt p a field source).Keeps U U.HasOutcome := by
  refine .ite (fun _ => keeps_initializer a field source) fun _ => .look_bind fun s hs => ?_
  split
  · next v hv => exact .pure (.ofValue (hs.field _ _ v hv))
  · exact keeps_selectMissing a field source

theorem keeps_select {v : Value} (hv : U.value v) (field : SymbolId) (source : Span)
    (virtual : Bool) : (select p v field source virtual).Keeps U U.HasOutcome := by
  cases v with
  | hot => exact .pure outcome_hot
  | cold => exact .fail (fun _ => rfl) fun _ => rfl
  | ref a => exact keeps_selectAt a _ source
  | closure => exact .reported _ source outcome_hot
  | oneOf vs => exact .joinEach fun v hmem => .ask (U.members vs hv v hmem)

theorem keeps_promoteArgument {arg : ArgValue} (h : U.HasArg arg) :
    (promoteArgument arg).Keeps U U.HasErrors :=
  .inTrace h.path (.ask h.value)

theorem keeps_promoteArguments {args : List ArgValue} (h : U.HasArgs args) :
    (promoteArguments args).Keeps U U.HasErrors :=
  .errorsOfEach fun arg harg => keeps_promoteArgument (h arg harg)

theorem keeps_followedBy {o : Outcome} (ho : U.HasOutcome o) {args : List ArgValue}
    (h : U.HasArgs args) :
    (do return o.followedBy (← promoteArguments args)).Keeps U U.HasOutcome :=
  (keeps_promoteArguments h).ret fun _ hes => ho.followedBy hes

theorem keeps_runMember (a : Addr) (target : SymbolId) {args : List ArgValue}
    (h : U.HasArgs args) : (runMember p a target args).Keeps U U.HasOutcome := by
  cases body : (p.symbol target).body with
  | none =>
    simp only [runMember, body]
    exact .pure outcome_hot
  | some e =>
    rw [runMember_of_body body]
    refine .ite (fun _ => ?_) fun _ => .ite (fun _ => ?_) fun _ => .ite (fun _ => ?_) fun _ => ?_
    · exact (Keeps.inEnv (binds_widened _ args) (.calledFrom _ (keeps_eval e _ true))).ret
        fun o ho => ⟨U.ref a, ho.errors⟩
    · exact .inEnv (binds_widened _ args) (keeps_eval e _ true)
    · exact .look_bind fun s hs =>
        .inEnv (hs.env.extend (Env.of_widenedBindings U.hot U.cold)) (keeps_eval e _ true)
    · exact (Keeps.inEnv (.ofList (binds_hotParams _)) (keeps_eval e _ true)).bind
        fun o ho => keeps_followedBy ho h

theorem keeps_callTarget (a : Addr) (target : SymbolId) {args : List ArgValue}
    (h : U.HasArgs args) (source : Span) :
    (callTarget p a target args source).Keeps U U.HasOutcome :=
  .ite (fun _ => .calledFrom source (keeps_runMember a target h)) fun _ =>
    .ite (fun _ => .pure outcome_hot) fun _ => keeps_failUnknown target source

theorem keeps_callAt (a : Addr) (method : SymbolId) {args : List ArgValue} (h : U.HasArgs args)
    (dispatch : Dispatch) (source : Span) :
    (callAt p a method args dispatch source).Keeps U U.HasOutcome := by
  refine .ite (fun _ => keeps_callTarget a _ h source) fun _ => .look_bind fun s hs => ?_
  split
  · next v hv => exact .pure (.ofValue (hs.field _ _ v hv))
  · exact .ask (U.ref a)

theorem keeps_call {v : Value} (hv : U.value v) (method : SymbolId) {args : List ArgValue}
    (h : U.HasArgs args) (dispatch : Dispatch) (source : Span) :
    (call p v method args dispatch source).Keeps U U.HasOutcome := by
  cases v with
  | hot => exact (keeps_promoteArguments h).ret fun _ hes => hes.outcome
  | cold =>
    exact (Keeps.fail (fun _ => rfl) fun _ => rfl).bind fun o ho => keeps_followedBy ho h
  | ref a => exact keeps_callAt a method h dispatch source
  | closure body params frame env =>
    refine .ite (fun _ => ?_) fun _ => .pure (.ofValue hv)
    have captured := ((U.closure body params frame env).1 hv).2
    exact (Keeps.calledFrom source
      (.inEnv (captured.extend (binds_hotParams params)) (keeps_eval body frame true))).bind
        fun o ho => keeps_followedBy ho h
  | oneOf vs => exact .joinEach fun v hmem => .ask ⟨U.members vs hv v hmem, h⟩

theorem keeps_construct (v : Value) (ctor : SymbolId) {args : List ArgValue} (h : U.HasArgs args)
    (source : Span) : (construct p v ctor args source).Keeps U U.HasOutcome := by
  cases v with
  | ref a => exact keeps_callTarget a ctor h source
  | _ => exact .reported _ source outcome_hot

/-! ## Enclosing instances -/

theorem keeps_askInstance (target : ClassId) {v : Value} (hv : U.value v) (c : ClassId)
    (source : Span) :
    (liftM (Query.enclosingInstance target v c source) : Plan Value).Keeps U U.value :=
  .ask hv

theorem keeps_enclosingInstance (target : ClassId) {v : Value} (hv : U.value v) (c : ClassId)
    (source : Span) : (enclosingInstance p target v c source).Keeps U U.value := by
  refine .ite (fun _ => .pure hv) fun _ => .ite (fun _ => .pure U.hot) fun _ => ?_
  cases v with
  | hot => exact .pure U.hot
  | cold => exact .pure U.cold
  | ref a =>
    refine .look_bind fun s hs => ?_
    split
    · next outer houter => exact keeps_askInstance _ (hs.outer _ _ outer houter) _ source
    · exact .reported _ source U.hot
  | closure => exact .reported _ source U.cold
  | oneOf vs =>
    exact (Keeps.mapM fun v hmem => keeps_askInstance target (U.members vs hv v hmem) c source).ret
      fun _ h => value_joinAll h

theorem keeps_evalPath (frame : Frame) (source : Span) (path : Path) :
    (evalPath p frame source path).Keeps U U.HasOutcome := by
  induction path with
  | bare | constant | paramRef => exact .pure outcome_hot
  | thisOf target =>
    exact .ite (fun _ => .pure outcome_hot) fun _ =>
      (keeps_askInstance _ (U.ref frame.receiver) _ _).ret fun _ hv => .ofValue hv
  | member base s ih =>
    have read : (do
        let receiver ← evalPath p frame source base
        let o ← Query.select receiver.value s source true
        return o.precededBy receiver.errors).Keeps U U.HasOutcome :=
      ih.bind fun receiver h => .preceding (keeps_askSelect h.value s source true) h.errors
    cases base with
    | bare =>
      refine .look_bind fun t ht => .pure (.ofValue ?_)
      cases hs : t.env.lookup s with
      | none => exact U.hot
      | some v => exact ht.env s v hs
    | _ => exact read

theorem keeps_outerInstance (type : ClassRef) (frame : Frame) (source : Span) :
    (outerInstance p type frame source).Keeps U U.HasOutcome := by
  refine .ite (fun _ => ?_) fun _ => .ite (fun _ => .pure outcome_hot) fun _ => ?_
  · exact (keeps_askInstance _ (U.ref frame.receiver) _ _).ret fun _ hv => .ofValue hv
  · exact keeps_evalPath frame source type.path

/-! ## Promotion -/

theorem keeps_askPromotable {v : Value} (hv : U.value v) :
    (liftM (Query.isPromotable v) : Plan Bool).Keeps U fun _ => True :=
  .ask hv

theorem keeps_capturesHot (v : Value) : (capturesHot p v).Keeps U fun _ => True := by
  cases v with
  | ref a =>
    cases a with
    | warm w =>
      refine (Keeps.perform (.creationOf w) trivial).bind fun creation h => ?_
      exact .ite (fun _ => keeps_askPromotable h.outer) fun _ => .pure trivial
    | thisOf c => exact .look_bind fun _ _ => .pure trivial
  | closure _ _ frame => exact keeps_askPromotable (U.ref frame.receiver)
  | _ => exact .pure trivial

theorem keeps_isPromotable {v : Value} (hv : U.value v) :
    (isPromotable p v).Keeps U fun _ => True := by
  have test : (do
      let promotable ← capturesHot p v
      if promotable then
        Effect.trust v
      return promotable : Plan Bool).Keeps U fun _ => True := by
    refine (keeps_capturesHot v).bind fun b _ => ?_
    cases b with
    | true => exact (Keeps.perform (.trust v) hv).ret fun _ _ => trivial
    | false => exact .pure trivial
  cases v with
  | hot | cold => exact .pure trivial
  | ref | closure => exact .look_bind fun s _ => .ite (fun _ => .pure trivial) fun _ => test
  | oneOf vs =>
    refine .look_bind fun s _ => .ite (fun _ => .pure trivial) fun untrusted => ?_
    have members := U.members vs hv
    clear untrusted test hv
    change (vs.allM fun v => (liftM (Query.isPromotable v) : Plan Bool)).Keeps U fun _ => True
    induction vs with
    | nil => exact .pure trivial
    | cons v vs ih =>
      refine (keeps_askPromotable (members v List.mem_cons_self)).bind fun b _ => ?_
      cases b with
      | true => exact ih fun u hu => members u (List.mem_cons_of_mem v hu)
      | false => exact .pure trivial

theorem keeps_explain (reason : String) {causes : List SafetyError} (h : U.HasErrors causes)
    (source : Span) : (explain reason causes source).Keeps U U.HasErrors :=
  .ite (fun _ => .pure errors_nil) fun _ =>
    (Keeps.raise (.failedPromotion reason causes) source (fun _ => rfl) fun _ => h).ret
      fun _ he => he

theorem keeps_failPromotion (reason : String) (source : Span) :
    (failPromotion reason source).Keeps U U.HasErrors :=
  (Keeps.raise (.notHot reason) source (fun _ => rfl) fun _ => errors_nil).ret fun _ he => he

theorem keeps_requireHot {o : Outcome} (ho : U.HasOutcome o) (reason : String) (source : Span) :
    (requireHot o reason source).Keeps U U.HasOutcome :=
  (Keeps.ask (q := .promote o.value reason source) ho.value).ret fun _ hes => ho.followedBy hes

/-- The errors of a part whose outcome has to be hot. -/
theorem keeps_errorsOfRequireHot {use : Plan Outcome} (huse : use.Keeps U U.HasOutcome)
    (reason : String) (source : Span) :
    (do return (← requireHot (← use) reason source).errors).Keeps U U.HasErrors :=
  huse.bind fun _ ho => (keeps_requireHot ho reason source).ret fun _ ho' => ho'.errors

theorem keeps_tryUse {use : Plan Outcome} (huse : use.Keeps U U.HasOutcome) (at' : Span)
    (reason : String) (source : Span) : (tryUse use at' reason source).Keeps U U.HasErrors :=
  .calledFrom at' (keeps_errorsOfRequireHot huse reason source)

theorem keeps_promoteWarm (w : Warm) (reason : String) (source : Span) :
    (promoteWarm p w reason source).Keeps U U.HasErrors := by
  refine .ite (fun _ => keeps_failPromotion reason source) fun _ => ?_
  have ofField (f : SymbolId) (at' : Span) :
      (tryUse (Query.select (.ref (.warm w)) f source true) at' reason source).Keeps U
        U.HasErrors :=
    keeps_tryUse (keeps_askSelect (U.ref _) f source true) at' reason source
  refine (Keeps.errorsOfEach fun f _ => ofField f _).bind fun ofFields hfields =>
    .look_bind fun s hs => ?_
  refine (Keeps.errorsOfEach fun m _ => ?_).bind fun ofMethods hmethods =>
    keeps_explain reason (errors_append hfields hmethods) source
  refine keeps_tryUse (keeps_askCall (U.ref _) m (fun arg harg => ?_) _ source) _ reason source
  obtain ⟨x, -, rfl⟩ := List.mem_map.1 harg
  exact ⟨U.hot, hs.path⟩

theorem keeps_promoteBody (body : ExprId) (params : List SymbolId) (frame : Frame) {env : Env}
    (captured : env.Binds U.value) (reason : String) (source : Span) :
    (promoteBody body params frame env reason source).Keeps U U.HasErrors :=
  keeps_errorsOfRequireHot
    (.inEnv (captured.extend (binds_hotParams params)) (keeps_eval body frame false)) reason source

theorem keeps_promote {v : Value} (hv : U.value v) (reason : String) (source : Span) :
    (promote p v reason source).Keeps U U.HasErrors := by
  cases v with
  | hot => exact .pure errors_nil
  | cold => exact keeps_failPromotion reason source
  | oneOf vs => exact .errorsOfEach fun v hmem => .ask (U.members vs hv v hmem)
  | ref a =>
    refine (keeps_askPromotable hv).bind fun b _ => .ite (fun _ => .pure errors_nil) fun _ => ?_
    cases a with
    | thisOf c => exact keeps_failPromotion reason source
    | warm w =>
      exact .within hv (keeps_promoteWarm w reason source) (fun _ _ => trivial) fun _ h => h
  | closure body params frame env =>
    refine (keeps_askPromotable hv).bind fun b _ => .ite (fun _ => .pure errors_nil) fun _ => ?_
    exact .within hv
      (keeps_promoteBody body params frame ((U.closure _ _ _ _).1 hv).2 reason source)
      (fun _ _ => trivial) fun _ h => keeps_explain reason h source

/-! ## Evaluation -/

theorem keeps_closure (params : List SymbolId) {body : ExprId} (code : U.code body)
    (frame : Frame) : (closure params body frame).Keeps U U.value :=
  .look_bind fun _ hs => .pure ((U.closure _ _ _ _).2 ⟨code, hs.env⟩)

theorem keeps_errorsOf (e : ExprId) (frame : Frame) : (errorsOf e frame).Keeps U U.HasErrors :=
  (keeps_eval e frame false).ret fun _ ho => ho.errors

theorem keeps_errorsOfHot (e : ExprId) (frame : Frame) (reason : String) :
    (errorsOfHot p e frame reason).Keeps U U.HasErrors :=
  keeps_errorsOfRequireHot (keeps_eval e frame false) reason _

theorem keeps_evalBranches (es : List ExprId) (frame : Frame) :
    (evalBranches es frame).Keeps U U.HasOutcome :=
  .joinEach fun e _ => keeps_eval e frame false

theorem keeps_evalArgument (frame : Frame) {arg : Arg} (code : U.code arg.expr) :
    (evalArgument p frame arg).Keeps U fun r => U.HasErrors r.1 ∧ U.HasArg r.2 := by
  have rest (o : Outcome) (ho : U.HasOutcome o) : (do
      return (o.errors, ⟨o.value, (p.expr arg.expr).span, (← Effect.look).trace⟩) :
        Plan (List SafetyError × ArgValue)).Keeps U fun r => U.HasErrors r.1 ∧ U.HasArg r.2 :=
    .look_bind fun s hs => .pure ⟨ho.errors, ho.value, hs.path⟩
  by_cases byName : arg.byName
  · rw [evalArgument, if_pos byName]
    exact ((keeps_closure [] code frame).map fun _ hv => .ofValue hv).bind rest
  · rw [evalArgument, if_neg byName]
    exact (keeps_eval arg.expr frame false).bind rest

theorem keeps_evalArguments (frame : Frame) {args : List Arg}
    (code : ∀ arg ∈ args, U.code arg.expr) :
    (evalArguments p frame args).Keeps U fun r => U.HasErrors r.1 ∧ U.HasArgs r.2 := by
  have each := Keeps.mapM fun arg harg => keeps_evalArgument (p := p) frame (code arg harg)
  refine each.ret fun rs hrs => ⟨?_, ?_⟩
  · exact errors_flatMap fun r hr => (hrs r hr).1
  · intro arg harg
    obtain ⟨r, hr, rfl⟩ := List.mem_map.1 harg
    exact (hrs r hr).2

theorem keeps_callNamed (method : SymbolId) (path : Path) {args : List ArgValue}
    (h : U.HasArgs args) (frame : Frame) (source : Span) :
    (callNamed p method path args frame source).Keeps U U.HasOutcome := by
  refine .ite (fun _ => ?_) fun _ => ?_
  · exact (keeps_askInstance _ (U.ref _) _ source).bind fun _ hv => keeps_askCall hv _ h _ source
  · exact (keeps_evalPath frame source path).bind fun receiver hr =>
      .preceding (keeps_askCall hr.value _ h _ source) hr.errors

theorem keeps_callCallee (callee : Callee) {args : List ArgValue} (h : U.HasArgs args)
    (frame : Frame) (source : Span) :
    (callCallee p callee args frame source).Keeps U U.HasOutcome := by
  cases callee with
  | super home base method =>
    exact (keeps_askInstance _ (U.ref _) _ source).bind fun _ hv => keeps_askCall hv _ h _ source
  | select qualifier method =>
    refine (keeps_eval qualifier frame false).bind fun receiver hr => ?_
    exact .ite (fun _ => .preceding (keeps_askConstruct hr.value _ h source) hr.errors) fun _ =>
      .preceding (keeps_askCall hr.value _ h _ source) hr.errors
  | ident method path => exact keeps_callNamed method path h frame source

theorem keeps_evalNew (type : ClassRef) (ctor : SymbolId) {args : List Arg}
    (code : ∀ arg ∈ args, U.code arg.expr) (frame : Frame) (source : Span) :
    (evalNew p type ctor args frame source).Keeps U U.HasOutcome := by
  refine (keeps_evalArguments frame code).bind fun r hr =>
    .ite (fun _ => .pure hr.1.outcome) fun _ => ?_
  refine (Keeps.ask (q := .outerInstance type frame source) trivial).bind fun outer ho => ?_
  have created := Keeps.ask (q := .create outer.value type.cls ctor r.2 source) ⟨ho.value, hr.2⟩
  exact .preceding (.calledFrom source created) ho.errors

theorem keeps_evalBlock (frame : Frame) (result : ExprId) (stats : List ExprId) :
    (evalBlock p frame result stats).Keeps U U.HasOutcome := by
  induction stats with
  | nil => exact keeps_eval result frame false
  | cons stat stats ih =>
    rw [evalBlock]
    refine (keeps_eval stat frame false).bind fun o ho => ?_
    split
    · refine .look_bind fun s hs => .preceding (.inEnv (hs.env.extend ?_) ih) ho.errors
      exact List.forall_mem_singleton.2 ho.value
    · exact .preceding ih ho.errors

theorem keeps_evalTarget (target : ExprId) (frame : Frame) :
    (evalTarget p target frame).Keeps U U.HasErrors := by
  unfold evalTarget
  split
  · exact keeps_errorsOf _ frame
  · exact .pure errors_nil

theorem keeps_node (covers : U.Covers p) (e : ExprId) (frame : Frame) :
    (node p e frame).Keeps U U.HasOutcome := by
  have code (e' : ExprId) (h : e' ∈ (p.expr e).node.children) : U.code e' :=
    covers e' (Program.mem_parts_of_child h)
  unfold node
  cases form : (p.expr e).node with
  | wildcard | literal | methodDef | typeDef => exact .pure outcome_hot
  | ident s path =>
    exact .ite (fun _ => keeps_callNamed s _ args_nil frame _) fun _ => keeps_evalPath frame _ path
  | thisOf target => exact keeps_evalPath frame _ _
  | select qualifier s =>
    refine (keeps_eval qualifier frame false).bind fun receiver hr => ?_
    exact .ite (fun _ => .preceding (keeps_askCall hr.value s args_nil _ _) hr.errors) fun _ =>
      .preceding (keeps_askSelect hr.value s _ true) hr.errors
  | call callee args =>
    have lazy (arg : Arg) (harg : arg ∈ args) : U.code arg.expr := by
      refine code arg.expr ?_
      rw [form]
      exact List.mem_append_right _ (List.mem_map_of_mem harg)
    exact (keeps_evalArguments frame lazy).bind fun r hr =>
      .preceding (keeps_callCallee callee hr.2 frame _) hr.1
  | new type ctor args =>
    refine keeps_evalNew type ctor (fun arg harg => code arg.expr ?_) frame _
    rw [form]
    exact List.mem_map_of_mem harg
  | assign target value =>
    exact (keeps_evalTarget target frame).bind fun es hes =>
      (keeps_errorsOfHot value frame _).ret fun _ hfs => (errors_append hes hfs).outcome
  | ifElse cond onTrue onFalse =>
    refine (keeps_errorsOf cond frame).bind fun es hes => ?_
    refine (keeps_eval onTrue frame false).bind fun o ho => ?_
    exact (keeps_eval onFalse frame false).ret fun q hq => (ho.join hq).precededBy hes
  | matchOn scrutinee branches =>
    exact (keeps_errorsOfHot scrutinee frame _).bind fun es hes =>
      .preceding (keeps_evalBranches branches frame) hes
  | whileLoop cond body =>
    exact (keeps_errorsOf cond frame).bind fun es hes =>
      (keeps_errorsOf body frame).ret fun _ hfs => (errors_append hes hfs).outcome
  | tryCatch body handlers finalizer =>
    refine (keeps_eval body frame false).bind fun o ho => ?_
    refine (keeps_evalBranches handlers frame).bind fun q hq => ?_
    cases finalizer with
    | none => exact .pure (ho.join hq)
    | some e => exact (keeps_errorsOf e frame).ret fun _ hes => (ho.join hq).followedBy hes
  | sequence elems =>
    exact (Keeps.errorsOfEach fun e _ => keeps_errorsOfHot e frame Reason.sequence).ret
      fun _ hes => hes.outcome
  | closure params body =>
    refine (keeps_closure params (code body ?_) frame).ret fun _ hv => .ofValue hv
    rw [form]
    exact List.mem_singleton_self body
  | block stats result => exact keeps_evalBlock frame result stats
  | typed e unchecked | annotated e unchecked =>
    exact .ite (fun _ => .pure outcome_hot) fun _ => keeps_eval e frame false
  | ret e => exact (keeps_errorsOfHot e frame _).ret fun _ hes => hes.outcome
  | namedArg e => exact keeps_eval e frame false
  | valDef s =>
    dsimp only
    split
    · exact keeps_eval _ frame true
    · exact .pure outcome_hot
  | template c => exact .ask trivial

/-- The value that is kept of an evaluation is that of its outcome. -/
theorem keeps_evaluation (covers : U.Covers p) (e : ExprId) (frame : Frame) (final : Bool) :
    (eval p e frame final).Keeps U U.HasOutcome := by
  refine .look_bind fun s hs => ?_
  split
  · next v hv => exact .pure (.ofValue (hs.cached _ _ v hv))
  · exact .within trivial (.calledFrom _ (keeps_node covers e frame)) (fun _ ho => ho.value)
      fun _ ho => ho

/-! ## Objects -/

theorem keeps_allocate (a : Addr) (c : ClassId) {v : Value} (hv : U.value v) :
    (liftM (Effect.allocate a (.new c [(c, v)])) : Plan Unit).Keeps U fun _ => True :=
  .perform _ ⟨c, c, v, rfl, hv⟩

theorem keeps_warmOf {creation : Creation} (h : U.HasCreation creation) :
    (liftM (Effect.warmOf creation) : Plan Warm).Keeps U fun _ => True :=
  .perform _ h

theorem keeps_setField (a : Addr) (f : SymbolId) {v : Value} (hv : U.value v) :
    (liftM (Effect.setField a f v) : Plan Unit).Keeps U fun _ => True :=
  .perform _ hv

theorem keeps_setOuter (a : Addr) (c : ClassId) {v : Value} (hv : U.value v) :
    (liftM (Effect.setOuter a c v) : Plan Unit).Keeps U fun _ => True :=
  .perform _ hv

theorem keeps_createWarm {outer : Value} (houter : U.value outer) (c : ClassId) (ctor : SymbolId)
    {args : List ArgValue} (h : U.HasArgs args) (source : Span) :
    (createWarm outer c ctor args source).Keeps U U.HasOutcome := by
  have widened : U.HasArgs (args.map ArgValue.widen) := by
    intro arg harg
    obtain ⟨arg, hmem, rfl⟩ := List.mem_map.1 harg
    exact (h arg hmem).widen
  have creation : U.HasCreation
      ⟨c, outer, ctor, (args.map ArgValue.widen).map ArgValue.value⟩ := by
    refine ⟨houter, fun v hv => ?_⟩
    obtain ⟨arg, hmem, rfl⟩ := List.mem_map.1 hv
    exact (widened arg hmem).value
  refine (keeps_warmOf creation).bind fun w _ => ?_
  refine .look_bind fun s _ => .ite (fun _ => .pure (.ofValue (U.ref _))) fun _ => ?_
  refine (keeps_allocate _ c houter).bind fun _ _ => ?_
  exact (keeps_askConstruct (U.ref _) ctor widened source).ret fun o ho => ⟨U.ref _, ho.errors⟩

theorem keeps_checkArgument {arg : ArgValue} (h : U.HasArg arg) :
    (checkArgument arg).Keeps U fun r => U.HasErrors r.1 ∧ U.HasArg r.2 := by
  refine (keeps_promoteArgument h).ret fun es hes => ⟨hes, ?_, h.path⟩
  dsimp only
  split
  · exact U.hot
  · exact value_widen arg.value

theorem keeps_rememberedOuter (a : Addr) : (rememberedOuter a).Keeps U U.value := by
  cases a with
  | warm w =>
    refine (Keeps.perform (.creationOf w) trivial).bind fun creation _ => ?_
    split
    · exact .pure U.cold
    · exact .pure (U.ref _)
  | thisOf c => exact .pure (U.ref _)

theorem keeps_create {outer : Value} (houter : U.value outer) (c : ClassId) (ctor : SymbolId)
    {args : List ArgValue} (h : U.HasArgs args) (source : Span) :
    (create p outer c ctor args source).Keeps U U.HasOutcome := by
  cases outer with
  | hot =>
    refine (Keeps.mapM fun arg harg => keeps_checkArgument (h arg harg)).bind fun checked hc => ?_
    have errors : U.HasErrors (checked.flatMap (·.1)) := errors_flatMap fun r hr => (hc r hr).1
    have safe : U.HasArgs (checked.map (·.2)) := by
      intro arg harg
      obtain ⟨r, hr, rfl⟩ := List.mem_map.1 harg
      exact (hc r hr).2
    refine .ite (fun _ => ?_) fun _ => .pure errors.outcome
    exact (keeps_createWarm U.hot c ctor safe source).ret fun o ho =>
      (errors_append errors ho.errors).outcome
  | cold => exact .fail (fun _ => rfl) fun _ => rfl
  | ref a =>
    refine .ite (fun _ => ?_) fun _ => (keeps_promoteArguments h).ret fun _ hes => hes.outcome
    refine (keeps_rememberedOuter a).bind fun v hv => ?_
    refine (keeps_createWarm hv c ctor h source).bind fun o ho => .look_bind fun s _ => ?_
    exact .ite (fun _ => .pure ho) fun _ => .pure ⟨U.cold, ho.errors⟩
  | closure => exact .reported _ source outcome_hot
  | oneOf vs => exact .joinEach fun v hmem => .ask ⟨U.members vs houter v hmem, h⟩

theorem value_paramValue {env : Env} (h : env.Binds U.value) (params : List SymbolId)
    (name : String) : U.value (paramValue p params env name) := by
  rw [paramValue]
  cases hv : (params.find? fun s => (p.symbol s).name == name).bind env.lookup with
  | none => exact U.hot
  | some v =>
    obtain ⟨x, -, hx⟩ := Option.bind_eq_some_iff.1 hv
    exact h x v hx

theorem keeps_setParams (c : ClassId) (this : Addr) :
    (setParams p c this).Keeps U fun _ => True := by
  unfold setParams
  dsimp only
  generalize p.paramFields c = fields
  induction fields with
  | nil => exact .pure trivial
  | cons field fields ih =>
    refine Keeps.bind (F := fun _ => True) ?_ fun _ _ => ih
    exact .look_bind fun s hs => keeps_setField this field (value_paramValue hs.env _ _)

/-- What is known of a parent whose outer is recorded. -/
def Prepares (U : Universe) (r : List SafetyError × Option ParentCall) : Prop :=
  U.HasErrors r.1 ∧ ∀ call ∈ r.2, U.HasArgs call.args

theorem keeps_prepareParent (c : ClassId) (this : Addr) (type : ClassRef) (ctor : Option SymbolId)
    {args : List ArgValue} (h : U.HasArgs args) (source : Span) :
    (prepareParent p c this type ctor args source).Keeps U (Prepares U) := by
  refine (Keeps.ask (q := .outerInstance type ⟨this, c⟩ source) trivial).bind fun o ho => ?_
  refine (keeps_setOuter this type.cls ho.value).ret
    fun _ _ => ⟨ho.errors, fun call hcall => ?_⟩
  obtain ⟨f, -, rfl⟩ := Option.map_eq_some_iff.1 hcall
  exact h

theorem keeps_prepareListed (c : ClassId) (this : Addr) {parent : Parent}
    (code : ∀ arg ∈ parent.args, U.code arg.expr) :
    (prepareListed p c this parent).Keeps U (Prepares U) :=
  (keeps_evalArguments ⟨this, c⟩ code).bind fun _ hr =>
    (keeps_prepareParent c this parent.type parent.ctor hr.2 parent.span).ret
      fun _ hq => ⟨errors_append hr.1 hq.1, hq.2⟩

theorem keeps_prepareMixin (c : ClassId) (this : Addr) (superClass : Parent)
    {listed : List Parent} (code : ∀ parent ∈ listed, ∀ arg ∈ parent.args, U.code arg.expr)
    (mixin : ClassId) : (prepareMixin p c this superClass listed mixin).Keeps U (Prepares U) := by
  unfold prepareMixin
  split
  · next parent found =>
    exact keeps_prepareListed c this (code parent (List.mem_of_find?_eq_some found))
  · exact keeps_prepareParent c this _ _ args_nil _

theorem keeps_initParents (c : ClassId) (this : Addr) {parents : List Parent}
    (code : ∀ parent ∈ parents, ∀ arg ∈ parent.args, U.code arg.expr) :
    (initParents p c this parents).Keeps U U.HasErrors := by
  cases parents with
  | nil => exact .pure errors_nil
  | cons superClass listed =>
    obtain ⟨ofSuper, ofListed⟩ := List.forall_mem_cons.1 code
    refine (keeps_prepareListed c this ofSuper).bind fun first hfirst => ?_
    refine (Keeps.mapM fun m _ => keeps_prepareMixin c this superClass ofListed m).bind
      fun mixins hmixins => ?_
    have prepared := List.forall_mem_cons.2 ⟨hfirst, hmixins⟩
    refine (Keeps.errorsOfEach fun call hcall => ?_).ret fun es hes =>
      errors_append (errors_flatMap fun r hr => (prepared r hr).1) hes
    obtain ⟨r, hr, hcall⟩ := List.mem_filterMap.1 hcall
    exact (keeps_askConstruct (U.ref this) call.ctor ((prepared r hr).2 call hcall) call.source).ret
      fun _ ho => ho.errors

theorem keeps_template (covers : U.Covers p) (c : ClassId) (this : Addr) :
    (template p c this).Keeps U U.HasOutcome := by
  unfold template
  split
  · next t ht =>
    have code (parent : Parent) (h : parent ∈ t.parents) (arg : Arg) (harg : arg ∈ parent.args) :
        U.code arg.expr :=
      covers arg.expr (Program.mem_parts_of_arg ht h harg)
    refine (keeps_setParams c this).bind fun _ _ => ?_
    have rest (es : List SafetyError) (hes : U.HasErrors es) : (do
        return ⟨.ref this, es ++ (← Query.body c this)⟩ : Plan Outcome).Keeps U U.HasOutcome :=
      (Keeps.ask (q := .body c this) trivial).ret fun _ hfs => ⟨U.ref this, errors_append hes hfs⟩
    exact .ite (fun _ => rest [] errors_nil) fun _ => (keeps_initParents c this code).bind rest
  · exact .pure (.ofValue (U.ref this))

theorem keeps_stat (c : ClassId) (this : Addr) (e : ExprId) :
    (stat p c this e).Keeps U U.HasErrors := by
  unfold stat
  split
  next field _ =>
    refine .ite (fun _ => .pure errors_nil) fun _ => ?_
    have rest (o : Outcome) (ho : U.HasOutcome o) : (do
        Effect.setField this field o.value
        return o.errors : Plan (List SafetyError)).Keeps U U.HasErrors :=
      (keeps_setField this field ho.value).ret fun _ _ => ho.errors
    split
    · exact (keeps_eval _ _ true).bind rest
    · exact rest .hot outcome_hot
  · exact .pure errors_nil
  · exact .pure errors_nil
  · exact keeps_errorsOf e ⟨this, c⟩

theorem keeps_body (c : ClassId) (this : Addr) : (body p c this).Keeps U U.HasErrors := by
  unfold body
  split
  · exact .errorsOfEach fun e _ => keeps_stat c this e
  · exact .pure errors_nil

theorem keeps_check (c : ClassId) : (check p c).Keeps U U.HasErrors := by
  unfold check
  split
  · split
    · refine .look_bind fun s _ => ?_
      have rest (params : List SymbolId) (e : ExprId) (frame : Frame) : (do
          let o ← Plan.inEnv (.ofList (params.map (·, .hot)))
            (Plan.calledFrom (p.cls c).span (Query.eval e frame true))
          return o.errors : Plan (List SafetyError)).Keeps U U.HasErrors :=
        (Keeps.inEnv (.ofList (binds_hotParams params))
          (.calledFrom _ (keeps_eval e frame true))).ret fun _ ho => ho.errors
      refine .ite (fun _ => rest _ _ _) fun _ => ?_
      exact (keeps_allocate _ c U.hot).bind fun _ _ => rest _ _ _
    · exact .pure errors_nil
  · exact .pure errors_nil

end Plan

/-! ## Questions -/

/-- The plans of all questions keep to the universe. -/
theorem Query.keeps (covers : U.Covers p) {q : Query β} (h : U.Asks q) :
    (q.plan p).Keeps U (U.Answers q) := by
  cases q with
  | eval e frame final => exact Plan.keeps_evaluation covers e frame final
  | select v field source virtual => exact Plan.keeps_select h field source virtual
  | call v method args dispatch source => exact Plan.keeps_call h.1 method h.2 dispatch source
  | construct v ctor args source => exact Plan.keeps_construct v ctor h.2 source
  | create outer c ctor args source => exact Plan.keeps_create h.1 c ctor h.2 source
  | template c this => exact Plan.keeps_template covers c this
  | body c this => exact Plan.keeps_body c this
  | promote v reason source => exact Plan.keeps_promote h reason source
  | isPromotable v => exact Plan.keeps_isPromotable h
  | enclosingInstance target v c source => exact Plan.keeps_enclosingInstance target h c source
  | outerInstance type frame source => exact Plan.keeps_outerInstance type frame source
  | check c => exact Plan.keeps_check c

namespace Plan

variable {E : α → Prop}

/-- A plan that keeps to a universe ends there, if its questions are answered there. -/
theorem Keeps.ends_of_answers
    (answers : ∀ {β : Type} (q : Query β) s b t, U.Asks q → U.Contains s → q.Ends p n s b t →
      U.Answers q b ∧ U.Contains t) {x : Plan α} (h : x.Keeps U E) (hs : U.Contains s) {a : α}
    (ends : x.Ends p n s a t) : E a ∧ U.Contains t := by
  induction x generalizing s t with
  | pure =>
    obtain ⟨rfl, rfl⟩ := ends_pure.1 ends
    exact ⟨h, hs⟩
  | ask q next ih =>
    obtain ⟨b, u, hb, ends⟩ := ends_ask_next.1 ends
    obtain ⟨hanswer, hu⟩ := answers q s b u h.1 hs hb
    exact ih b (h.2 b hanswer) hu ends
  | perform effect next ih =>
    obtain ⟨b, u, hb, ends⟩ := ends_perform_next.1 ends
    obtain ⟨hread, hu⟩ := hs.run h.1 hb
    exact ih b (h.2 b hread) hu ends
  | within scope part next ihPart ih =>
    obtain ⟨b, u, hpart, ends⟩ := ends_within.1 ends
    obtain ⟨⟨leaves, hnext⟩, hu⟩ := ihPart h.2 (hs.enter h.1) hpart
    exact ih b hnext (hs.leave leaves hu) ends

end Plan

namespace Universe

variable (covers : U.Covers p)
include covers

/-- A question about what belongs to the universe is answered there. -/
theorem answers_of_ends {q : Query β} (h : U.Asks q) (hs : U.Contains s) {b : β}
    (ends : q.Ends p n s b t) : U.Answers q b ∧ U.Contains t := by
  induction n generalizing β s t with
  | zero => exact absurd ends Query.ends_zero
  | succ n ih =>
    exact (Query.keeps covers h).ends_of_answers (fun q s b t hq hs hb => ih hq hs hb) hs
      (Query.ends_succ.1 ends)

/-- A plan that keeps to a universe ends there. -/
theorem of_ends {E : α → Prop} {x : Plan α} (h : x.Keeps U E) (hs : U.Contains s) {a : α}
    (ends : x.Ends p n s a t) : E a ∧ U.Contains t :=
  h.ends_of_answers (fun _ _ _ _ hq hs hb => answers_of_ends covers hq hs hb) hs ends

/-- A plan that keeps to a universe comes to stores of this universe only, and the environments that
    are left for the time being belong to it, too. -/
theorem contains_of_reaches {E : α → Prop} {x : Plan α} (h : x.Keeps U E) (hs : U.Contains s)
    {left : List Env} (reach : x.Reaches p s left t) :
    U.Contains t ∧ ∀ env ∈ left, env.Binds U.value := by
  induction reach with
  | here => exact ⟨hs, nofun⟩
  | inAsk _ ih => exact ih (Query.keeps covers h.1) hs
  | afterAsk hq _ ih =>
    obtain ⟨n, hq⟩ := hq
    obtain ⟨answer, ht⟩ := answers_of_ends covers h.1 hs hq
    exact ih (h.2 _ answer) ht
  | afterEffect heffect _ ih =>
    obtain ⟨read, ht⟩ := hs.run h.1 heffect
    exact ih (h.2 _ read) ht
  | inScope _ ih =>
    obtain ⟨hu, left⟩ := ih h.2 (hs.enter h.1)
    refine ⟨hu, fun env henv => ?_⟩
    rcases List.mem_append.1 henv with henv | henv
    · exact left env henv
    · rw [List.mem_singleton.1 henv]
      exact hs.env
  | afterScope hpart _ ih =>
    obtain ⟨⟨leaves, rest⟩, ht⟩ := of_ends covers h.2 (hs.enter h.1) hpart
    exact ih rest (hs.leave leaves ht)

/-- A plan that keeps to a universe asks only about what belongs to it. -/
theorem asks_of_asks {E : α → Prop} {x : Plan α} (h : x.Keeps U E) (hs : U.Contains s)
    {q : Query γ} (asks : x.Asks p s q t) : U.Asks q ∧ U.Contains t := by
  induction asks with
  | here => exact ⟨h.1, hs⟩
  | afterAsk hq _ ih =>
    obtain ⟨answer, ht⟩ := answers_of_ends covers h.1 hs hq
    exact ih (h.2 _ answer) ht
  | afterEffect heffect _ ih =>
    obtain ⟨read, ht⟩ := hs.run h.1 heffect
    exact ih (h.2 _ read) ht
  | inside _ ih => exact ih h.2 (hs.enter h.1)
  | afterScope hpart _ ih =>
    obtain ⟨⟨leaves, rest⟩, ht⟩ := of_ends covers h.2 (hs.enter h.1) hpart
    exact ih rest (hs.leave leaves ht)

/-- All questions on the way are about what belongs to the universe. -/
theorem asks_of_way {q : Query β} (h : U.Asks q) (hs : U.Contains s) {active : List Cache.Key}
    {r : Query γ} (way : q.Way p s active r t) : U.Asks r ∧ U.Contains t := by
  induction way with
  | start => exact ⟨h, hs⟩
  | asked _ hasks ih => exact asks_of_asks covers (Query.keeps covers ih.1) ih.2 hasks

end Universe

end ObjectInit
