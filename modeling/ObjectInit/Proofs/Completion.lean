import ObjectInit.Proofs.Scoped
import ObjectInit.Proofs.Ways

/-!
# Finished constructors

Whatever errors are found on the way, a constructor that comes to an end leaves a complete object:
its fields have values, and so have the fields of all its bases. The cache tells which templates
were begun on an object. A question may begin templates only if it brings them to their end
(`Store.Completes`), apart from those that were in progress when it was asked.

Main results:

* `Query.Ends.completes`: a template that a question begins on an object sets all its fields, and
  every template whose constructor it calls was begun before or does the same.
* `Query.complete_of_check`: after the check of a class, the object under construction has values
  for all fields of its classes with source, and it may be treated as hot.
-/

namespace ObjectInit

/-! ## Templates -/

namespace Program

variable (p : Program)

/-- The expression is the template of a class with source, and the body of its primary
    constructor. -/
def IsTemplateOf (e : ExprId) (c : ClassId) : Prop :=
  (p.cls c).hasSource = true ∧ ∃ ctor, (p.cls c).primaryConstructor = some ctor ∧
    (p.symbol ctor).body = some e ∧ (p.expr e).node = .template c

/-- The template of the class gives the field a value. -/
def Sets (c : ClassId) (f : SymbolId) : Prop :=
  f ∈ p.paramFields c ∨ ∃ t, (p.cls c).template = some t ∧
    ∃ e ∈ t.body, (p.expr e).node = .valDef f ∧ (p.symbol f).isLazy = false

/-- The class initializes its super class and its mixins, which traits leave to others. -/
def Calls (c d : ClassId) : Prop :=
  (p.cls c).isTrait = false ∧
    ∃ superClass, p.IsSuperClass c superClass ∧ (d = superClass ∨ d ∈ p.mixins c superClass)

variable {p}

instance (e : ExprId) (c : ClassId) : Decidable (p.IsTemplateOf e c) :=
  decidable_of_iff ((p.cls c).hasSource = true ∧
      ∃ ctor ∈ (p.cls c).primaryConstructor, (p.symbol ctor).body = some e ∧
        (p.expr e).node = .template c)
    (by simp [IsTemplateOf])

theorem IsTemplateOf.cls_unique {e : ExprId} {c d : ClassId} (hc : p.IsTemplateOf e c)
    (hd : p.IsTemplateOf e d) : c = d := by
  obtain ⟨_, _, _, _, hc⟩ := hc
  obtain ⟨_, _, _, _, hd⟩ := hd
  rw [hc] at hd
  cases hd
  rfl

theorem IsTemplateOf.expr_unique {e e' : ExprId} {c : ClassId} (he : p.IsTemplateOf e c)
    (he' : p.IsTemplateOf e' c) : e = e' := by
  obtain ⟨-, ctor, hctor, hbody, -⟩ := he
  obtain ⟨-, ctor', hctor', hbody', -⟩ := he'
  rw [hctor] at hctor'
  cases hctor'
  rw [hbody] at hbody'
  exact Option.some.inj hbody'

/-- Constructors of proper ancestors are called. -/
theorem Calls.ancestor {q : Program} (acyclic : q.finish.Acyclic) {c d : ClassId}
    (h : q.finish.Calls c d) : Relation.TransGen q.finish.IsParent c d := by
  obtain ⟨-, superClass, hsuper, rfl | hmixin⟩ := h
  · exact .single hsuper.isParent
  · have hmem := mem_tail_of_mixin hmixin
    rcases Relation.reflTransGen_iff_eq_or_transGen.1
        (ancestor_of_mem_linearization acyclic (List.mem_of_mem_tail hmem)) with rfl | h
    · cases hl : (q.finish.cls d).linearization with
      | nil =>
        rw [hl] at hmem
        cases hmem
      | cons b bases =>
        have hlt : d.index < q.classes.size := size_finish q ▸ hsuper.isParent.exists_child
        have hnodup := nodup_linearization acyclic d
        rw [linearization_finish acyclic hlt] at hl
        obtain ⟨rfl, rfl⟩ := List.cons.inj hl
        rw [linearization_finish acyclic hlt] at hnodup hmem
        exact absurd hmem (List.nodup_cons.1 hnodup).1
    · exact h

end Program

/-! ## Templates that were brought to their end -/

/-- The template of the class was begun on the object before `s`, or its fields are set in `t` and
    the same holds of all classes whose constructors it calls. -/
inductive Store.Initialized (p : Program) (s t : Store) (a : Addr) : ClassId → Prop where
  | begun {c : ClassId} {e : ExprId} (template : p.IsTemplateOf e c)
    (cached : (s.cache.find? a e).isSome) : Initialized p s t a c
  | completed {c : ClassId} (fields : ∀ f, p.Sets c f → (t.heap.field? a f).isSome)
    (parents : ∀ d e, p.Calls c d → p.IsTemplateOf e d → Initialized p s t a d) :
    Initialized p s t a c

/-- Between the two stores, templates were begun only to be brought to their end. -/
structure Store.Completes (p : Program) (s t : Store) : Prop where
  heap : s.heap.Extends t.heap
  templates : ∀ a c e, p.IsTemplateOf e c → (t.cache.find? a e).isSome → s.Initialized p t a c

variable {p : Program} {n : Nat} {α β : Type} {s t u s' : Store} {a : Addr} {c d : ClassId}

theorem Heap.Extends.isSome_field? {h h' : Heap} (ext : h.Extends h') {f : SymbolId}
    (hf : (h.field? a f).isSome) : (h'.field? a f).isSome := by
  obtain ⟨v, hv⟩ := Option.isSome_iff_exists.1 hf
  rw [ext.field hv]
  rfl

namespace Store

theorem Initialized.mono (h : s.Initialized p t a c) (ext : t.heap.Extends u.heap) :
    s.Initialized p u a c := by
  induction h with
  | begun template cached => exact .begun template cached
  | completed fields _ ih =>
    exact .completed (fun f hf => ext.isSome_field? (fields f hf)) ih

/-- What was begun before `t` was begun before `s` or brought to its end since. -/
theorem Initialized.before (first : s.Completes p t) (h : t.Initialized p u a c)
    (ext : t.heap.Extends u.heap) : s.Initialized p u a c := by
  induction h with
  | begun template cached => exact (first.templates a _ _ template cached).mono ext
  | completed fields _ ih => exact .completed fields ih

namespace Completes

theorem refl (p : Program) (s : Store) : s.Completes p s :=
  ⟨.refl _, fun _ _ _ template cached => .begun template cached⟩

theorem trans (h : s.Completes p t) (h' : t.Completes p u) : s.Completes p u :=
  ⟨h.heap.trans h'.heap, fun a c e template cached =>
    (h'.templates a c e template cached).before h h'.heap⟩

/-- Only the heap and the cache matter. -/
theorem congr {t' u' : Store} (h : t.Completes p u) (heap : t'.heap = t.heap)
    (cache : t'.cache = t.cache) (heap' : u'.heap = u.heap) (cache' : u'.cache = u.cache) :
    t'.Completes p u' := by
  have initialized {a : Addr} {c : ClassId} (hc : t.Initialized p u a c) :
      t'.Initialized p u' a c := by
    induction hc with
    | begun template cached => exact .begun template (cache ▸ cached)
    | completed fields _ ih => exact .completed (heap' ▸ fields) ih
  refine ⟨heap ▸ heap' ▸ h.heap, fun a c e template cached => initialized ?_⟩
  exact h.templates a c e template (cache' ▸ cached)

/-- Where the cache stays, no template is begun. -/
theorem of_cache (heap : s.heap.Extends t.heap) (cache : t.cache = s.cache) : s.Completes p t :=
  ⟨heap, fun _ _ _ template cached => .begun template (cache ▸ cached)⟩

end Completes

end Store

/-! ## Plans that evaluate nothing themselves -/

/-- Questions that are nested up to a depth lead from a store only to such that complete it. -/
def CompletesUpTo (p : Program) (n : Nat) : Prop :=
  ∀ {β : Type} (q : Query β) (s : Store) (b : β) (s' : Store), q.Ends p n s b s' → s.Completes p s'

theorem Effect.completes {effect : Effect β} {b : β} (h : effect.run.run s = .ok (b, t)) :
    s.Completes p t :=
  .of_cache (Effect.run_extends h) (Effect.run_frame h).2

namespace Plan

/-- Plans that only ask what is alike evaluate nothing themselves. -/
theorem Alike.completes {R : α → α → Prop} {x x' : Plan α} (h : Alike true Eq R x x')
    (hq : CompletesUpTo p n) {b : α} (hx : x.Ends p n s b t) : s.Completes p t := by
  induction h generalizing s t with
  | pure =>
    obtain ⟨rfl, rfl⟩ := ends_pure.1 hx
    exact .refl p _
  | ask _ _ ih =>
    obtain ⟨c, u, hc, hnext⟩ := ends_ask_next.1 hx
    exact (hq _ s c u hc).trans (ih c c (Query.AnswersAlike.refl _ c) hnext)
  | look _ ih =>
    obtain ⟨c, u, hc, hnext⟩ := ends_perform_next.1 hx
    exact (Effect.completes hc).trans (ih c c rfl rfl hnext)
  | raise _ ih =>
    obtain ⟨c, u, hc, hnext⟩ := ends_perform_next.1 hx
    exact (Effect.completes hc).trans (ih c c hnext)
  | perform _ _ _ _ ih =>
    obtain ⟨c, u, hc, hnext⟩ := ends_perform_next.1 hx
    exact (Effect.completes hc).trans (ih c hnext)
  | env _ hpart _ ihPart ih | trace _ _ hpart _ ihPart ih =>
    obtain ⟨c, u, hend, hnext⟩ := ends_within.1 hx
    obtain ⟨c', hS⟩ := hpart.exists_answer hend
    refine Store.Completes.trans ?_ (ih c c' hS hnext)
    exact (ihPart hend).congr rfl rfl rfl rfl

theorem isPromotable_completes {v : Value} {b : Bool}
    (h : (Query.isPromotable v).Ends p n s b t) : s.Completes p t := by
  obtain ⟨trusted, rfl⟩ := Query.isPromotable_frame h
  exact .of_cache (.refl _) rfl

theorem promote_completes (hq : CompletesUpTo p n) {v : Value} {reason : String} {source : Span}
    {es : List SafetyError} (h : (promote p v reason source).Ends p n s es t) :
    s.Completes p t := by
  have leave {w : Value} {es : List SafetyError} {u u' : Store} (hu : s.Completes p u)
      (hpart : ((Scope.promotion w).enter u).Completes p u') :
      s.Completes p ((Scope.promotion w).leave u.toContext es u') := by
    refine hu.trans (hpart.congr rfl rfl (Scope.heap_leave _ _ _ _) ?_)
    rw [Scope.leave]
    split <;> rfl
  cases v with
  | hot =>
    obtain ⟨-, rfl⟩ := ends_pure.1 h
    exact .refl p _
  | cold => exact (alike_failPromotion reason source).completes hq h
  | oneOf vs =>
    exact (Alike.errorsOfEach_same vs
      fun v => alike_askPromote v reason source).completes hq h
  | ref a =>
    simp only [promote, ends_bind, ends_ask] at h
    obtain ⟨b, u, hb, h⟩ := h
    have first := isPromotable_completes hb
    cases b with
    | true =>
      obtain ⟨-, rfl⟩ := ends_pure.1 h
      exact first
    | false =>
      cases a with
      | thisOf c =>
        exact first.trans ((alike_failPromotion reason source).completes hq h)
      | warm w =>
        obtain ⟨es', u', hpart, h⟩ := ends_within.1 h
        obtain ⟨-, rfl⟩ := ends_pure.1 h
        exact leave first ((alike_promoteWarm w reason source).completes hq hpart)
  | closure body params frame env =>
    simp only [promote, ends_bind, ends_ask] at h
    obtain ⟨b, u, hb, h⟩ := h
    have first := isPromotable_completes hb
    cases b with
    | true =>
      obtain ⟨-, rfl⟩ := ends_pure.1 h
      exact first
    | false =>
      obtain ⟨es', u', hpart, h⟩ := ends_within.1 h
      refine .trans ?_ ((alike_explain reason source (.refl es')).completes hq h)
      exact leave first ((alike_promoteBody body params frame env reason
        source).completes hq hpart)

/-! ## What a template does -/

/-- One element of a list between those before it and those after it. -/
theorem ends_errorsOfEach_of_mem {xs : List α} {f : α → Plan (List SafetyError)} {x : α}
    (hx : x ∈ xs) {es : List SafetyError} (h : (errorsOfEach xs f).Ends p n s es t) :
    ∃ before es₁ u es₂ u', (errorsOfEach before f).Ends p n s es₁ u ∧ (f x).Ends p n u es₂ u' ∧
      u'.heap.Extends t.heap := by
  induction xs generalizing s es with
  | nil => cases hx
  | cons y ys ih =>
    obtain ⟨es₁, u, es₂, hy, hys, -⟩ := ends_errorsOfEach_cons.1 h
    rcases List.mem_cons.1 hx with rfl | hx
    · exact ⟨[], [], s, es₁, u, ends_pure.2 ⟨rfl, rfl⟩, hy, ends_extends hys⟩
    · obtain ⟨before, fs₁, v, fs₂, v', hbefore, hx, hext⟩ := ih hx hys
      exact ⟨y :: before, es₁ ++ fs₁, v, fs₂, v',
        ends_errorsOfEach_cons.2 ⟨es₁, u, fs₁, hy, hbefore, rfl⟩, hx, hext⟩

/-- One element of a list has a result. -/
theorem ends_mapM_of_mem {xs : List α} {f : α → Plan β} {x : α} (hx : x ∈ xs) {bs : List β}
    (h : (xs.mapM f).Ends p n s bs t) : ∃ b ∈ bs, ∃ u u', (f x).Ends p n u b u' := by
  induction xs generalizing s bs with
  | nil => cases hx
  | cons y ys ih =>
    simp only [List.mapM_cons, ends_bind, ends_pure] at h
    obtain ⟨b, u, hy, bs, _, hys, rfl, rfl⟩ := h
    rcases List.mem_cons.1 hx with rfl | hx
    · exact ⟨b, List.mem_cons_self, s, u, hy⟩
    · obtain ⟨b', hb', hx⟩ := ih hx hys
      exact ⟨b', List.mem_cons_of_mem b hb', hx⟩

theorem isSome_field?_of_setField {f : SymbolId} {v : Value} {un : Unit}
    (h : (liftM (Effect.setField a f v) : Plan Unit).Ends p n s un t) :
    (t.heap.field? a f).isSome := by
  obtain ⟨heap, ok, rfl⟩ := Effect.run_setField.1 (ends_perform.1 h)
  rw [Heap.field?_of_setField ok, if_pos ⟨rfl, rfl⟩]
  rfl

/-- The fields of the class parameters get values. -/
theorem isSome_field?_of_setParams {un : Unit} (h : (setParams p c a).Ends p n s un t)
    {f : SymbolId} (hf : f ∈ p.paramFields c) : (t.heap.field? a f).isSome := by
  unfold setParams at h
  dsimp only at h
  generalize p.paramFields c = fields at h hf
  induction fields generalizing s with
  | nil => cases hf
  | cons field fields ih =>
    obtain ⟨_, u, hfield, hrest⟩ := ends_bind.1 h
    rcases List.mem_cons.1 hf with rfl | hf
    · rw [ends_look_bind] at hfield
      exact (ends_extends hrest).isSome_field? (isSome_field?_of_setField hfield)
    · exact ih hrest hf

/-- A strict field that the class body defines gets a value. -/
theorem isSome_field?_of_body {template : Template} (ht : (p.cls c).template = some template)
    {e : ExprId} (he : e ∈ template.body) {f : SymbolId} (hnode : (p.expr e).node = .valDef f)
    (strict : (p.symbol f).isLazy = false) {es : List SafetyError}
    (h : (body p c a).Ends p n s es t) : (t.heap.field? a f).isSome := by
  simp only [body, ht] at h
  obtain ⟨_, _, u, es', u', -, hstat, hext⟩ := ends_errorsOfEach_of_mem he h
  refine hext.isSome_field? ?_
  have set {v : Store} {o : Outcome}
      (h : (do Effect.setField a f o.value; return o.errors : Plan _).Ends p n v es' u') :
      (u'.heap.field? a f).isSome := by
    obtain ⟨_, w, hset, h⟩ := ends_bind.1 h
    obtain ⟨-, rfl⟩ := ends_pure.1 h
    exact isSome_field?_of_setField hset
  simp only [stat, hnode, strict, Bool.false_eq_true, if_false] at hstat
  split at hstat
  · obtain ⟨o, v, -, hstat⟩ := ends_bind.1 hstat
    exact set hstat
  · obtain ⟨o, v, -, hstat⟩ := ends_bind.1 hstat
    exact set hstat

/-- A parent with source and a constructor waits to be called. -/
theorem call_of_prepareParent (type : ClassRef) {ctor : SymbolId} {args : List ArgValue}
    {source : Span} (hsource : (p.cls type.cls).hasSource = true)
    {r : List SafetyError × Option ParentCall}
    (h : (prepareParent p c a type (some ctor) args source).Ends p n s r t) :
    ∃ call, r.2 = some call ∧ call.ctor = ctor := by
  simp only [prepareParent, ends_bind, ends_pure] at h
  obtain ⟨_, _, -, _, _, -, rfl, -⟩ := h
  rw [hsource, if_pos rfl]
  exact ⟨_, rfl, rfl⟩

theorem call_of_prepareListed {parent : Parent} {ctor : SymbolId}
    (hctor : parent.ctor = some ctor) (hsource : (p.cls parent.type.cls).hasSource = true)
    {r : List SafetyError × Option ParentCall}
    (h : (prepareListed p c a parent).Ends p n s r t) :
    ∃ call, r.2 = some call ∧ call.ctor = ctor := by
  simp only [prepareListed, ends_bind, ends_pure, hctor] at h
  obtain ⟨_, _, -, r', _, hprepared, rfl, -⟩ := h
  exact call_of_prepareParent parent.type (r := r') hsource hprepared

theorem call_of_prepareMixin {superClass : Parent} {listed : List Parent} {mixin : ClassId}
    {ctor : SymbolId} (hctor : (p.cls mixin).primaryConstructor = some ctor)
    (hlisted : ∀ parent ∈ listed, parent.ctor = (p.cls parent.type.cls).primaryConstructor)
    (hsource : (p.cls mixin).hasSource = true) {r : List SafetyError × Option ParentCall}
    (h : (prepareMixin p c a superClass listed mixin).Ends p n s r t) :
    ∃ call, r.2 = some call ∧ call.ctor = ctor := by
  unfold prepareMixin at h
  split at h
  next parent hfind =>
    have hcls : parent.type.cls = mixin := by simpa using List.find?_some hfind
    refine call_of_prepareListed ?_ (hcls ▸ hsource) h
    rw [hlisted parent (List.mem_of_find?_eq_some hfind), hcls, hctor]
  next => exact call_of_prepareParent ⟨.bare, mixin⟩ hsource (hctor ▸ h)

/-- After a primary constructor was called, its body is in the cache. -/
theorem cached_of_construct {ctor : SymbolId} {e : ExprId} (body : (p.symbol ctor).body = some e)
    (primary : (p.symbol ctor).isPrimaryConstructor = true) {args : List ArgValue} {source : Span}
    {o : Outcome} (h : (Query.construct (.ref a) ctor args source).Ends p n s o t) :
    (t.cache.find? a e).isSome := by
  cases n with
  | zero => exact absurd h Query.ends_zero
  | succ n =>
    have hsource : (p.symbol ctor).hasSource = true := by rw [Symbol.hasSource, body]; rfl
    rw [Query.ends_succ, Query.plan, construct, callTarget, if_pos hsource,
      ends_calledFrom, runMember_of_body body] at h
    obtain ⟨u, h, rfl⟩ := h
    dsimp only at h
    rw [if_pos primary, bind_pure_comp, ends_map] at h
    obtain ⟨o', h, rfl⟩ := h
    obtain ⟨u, hcall, rfl⟩ := ends_inEnv.1 h
    obtain ⟨u, hrun, rfl⟩ := ends_calledFrom.1 hcall
    exact Option.isSome_of_eq_some (Query.eval_kept (ends_ask.1 hrun))

section Templates

variable {q : Program}

/-- The super class of a class stands first among the parents that its template lists. -/
theorem exists_listed (coherent : q.Coherent) {template : Template}
    (ht : (q.finish.cls c).template = some template) (hd : q.finish.IsSuperClass c d) :
    ∃ first listed, template.parents = first :: listed ∧ first.type.cls = d := by
  obtain ⟨ds, hds⟩ := List.head?_eq_some_iff.1 hd
  have hlisted := coherent.parents_of_listed ht
  rw [hds] at hlisted
  obtain ⟨first, listed, hparents, hfirst, -⟩ := List.map_eq_cons_iff.1 hlisted
  exact ⟨first, listed, hparents, hfirst⟩

/-- When the parents are prepared, the constructors of those with source wait to be called. -/
theorem exists_call (coherent : q.Coherent) {template : Template}
    (ht : (q.finish.cls c).template = some template) {first : Parent} {listed : List Parent}
    (hparents : template.parents = first :: listed)
    (hd : d = first.type.cls ∨ d ∈ q.finish.mixins c first.type.cls)
    (hsource : (q.finish.cls d).hasSource = true) {ctor : SymbolId}
    (hctor : (q.finish.cls d).primaryConstructor = some ctor)
    {r : List SafetyError × Option ParentCall} {rs : List (List SafetyError × Option ParentCall)}
    (hfirst : (prepareListed q.finish c a first).Ends q.finish n s r t)
    (hmixins : ((q.finish.mixins c first.type.cls).mapM
      (prepareMixin q.finish c a first listed)).Ends q.finish n t rs u) :
    ∃ call ∈ (r :: rs).filterMap (·.2), call.ctor = ctor := by
  have hctors (parent : Parent) (hp : parent ∈ template.parents) := coherent.ctor_of_listed ht hp
  rw [hparents] at hctors
  suffices ∃ r' ∈ r :: rs, ∃ call, r'.2 = some call ∧ call.ctor = ctor by
    obtain ⟨r', hr', call, hcall, heq⟩ := this
    exact ⟨call, List.mem_filterMap.2 ⟨r', hr', hcall⟩, heq⟩
  rcases hd with rfl | hmixin
  · refine ⟨r, List.mem_cons_self, call_of_prepareListed ?_ hsource hfirst⟩
    rw [hctors first List.mem_cons_self, hctor]
  · obtain ⟨r', hr', _, _, hprepared⟩ := ends_mapM_of_mem hmixin hmixins
    refine ⟨r', List.mem_cons_of_mem r hr', call_of_prepareMixin hctor (fun parent hp => ?_)
      hsource hprepared⟩
    exact hctors parent (List.mem_cons_of_mem first hp)

/-- All parents whose constructors the template calls were begun before or are brought to their
    end. -/
theorem initialized_of_initParents (coherent : q.Coherent) (hq : CompletesUpTo q.finish n)
    {template : Template} (ht : (q.finish.cls c).template = some template)
    {es : List SafetyError}
    (h : (initParents q.finish c a template.parents).Ends q.finish n s es t)
    (hcalls : q.finish.Calls c d) {e : ExprId} (he : q.finish.IsTemplateOf e d) :
    s.Initialized q.finish t a d := by
  obtain ⟨-, superClass, hsuper, hd⟩ := hcalls
  have ⟨hsource, ctor, hctor, hbody, hnode⟩ := he
  obtain ⟨first, listed, hparents, rfl⟩ := exists_listed coherent ht hsuper
  rw [hparents] at h
  simp only [initParents, ends_bind, ends_pure] at h
  obtain ⟨r, u, hfirst, rs, v, hmixins, es', _, hcall, -, rfl⟩ := h
  obtain ⟨call, hmem, rfl⟩ := exists_call coherent ht hparents hd hsource hctor hfirst hmixins
  obtain ⟨before, _, w, _, w', hbefore, hconstruct, hext⟩ := ends_errorsOfEach_of_mem hmem hcall
  rw [bind_pure_comp, ends_map] at hconstruct
  obtain ⟨o, hconstruct, rfl⟩ := hconstruct
  -- Everything up to the end of the call completes what it begins.
  have untilCall : v.Completes q.finish w :=
    (Alike.errorsOfEach_same before fun call =>
      (Alike.ask_self (.construct (.ref a) call.ctor call.source (.refl call.args)) rfl).bind
        fun _ _ ho => .pure ho.2).completes hq hbefore
  have upToCall : s.Completes q.finish w :=
    ((alike_prepareListed c a first).completes hq hfirst).trans <|
      ((Alike.mapM_same _ (alike_prepareMixin c a first listed)).completes hq
        hmixins).trans untilCall
  have called := hq _ _ _ _ (ends_ask.1 hconstruct)
  have cached :=
    cached_of_construct hbody (coherent.constructors d _ ?_).2.2.1 (ends_ask.1 hconstruct)
  · exact ((upToCall.trans called).templates a d e he cached).mono hext
  · rwa [Program.primaryConstructor_finish] at hctor

/-- The template of a class sets its fields and calls the constructors of its parents. -/
theorem initialized_of_template (coherent : q.Coherent) (hq : CompletesUpTo q.finish n)
    {o : Outcome} (hsource : (q.finish.cls c).hasSource = true)
    (h : (template q.finish c a).Ends q.finish n s o t) :
    (∀ f, q.finish.Sets c f → (t.heap.field? a f).isSome) ∧
      ∀ d e, q.finish.Calls c d → q.finish.IsTemplateOf e d → s.Initialized q.finish t a d := by
  obtain ⟨T, ht⟩ := Option.isSome_iff_exists.1 hsource
  rw [template_of_source ht] at h
  simp only [ends_bind] at h
  obtain ⟨_, u, hparams, es, v, hparents, es', w, hbody, h⟩ := h
  obtain ⟨-, rfl⟩ := ends_pure.1 h
  have afterParams : u.heap.Extends t.heap := (ends_extends hparents).trans (ends_extends hbody)
  constructor
  · rintro f (hf | ⟨T', ht', e, he, hnode, strict⟩)
    · exact afterParams.isSome_field? (isSome_field?_of_setParams hparams hf)
    · cases ht.symm.trans ht'
      cases n with
      | zero => exact absurd (ends_ask.1 hbody) Query.ends_zero
      | succ n =>
        exact isSome_field?_of_body ht he hnode strict (Query.ends_succ.1 (ends_ask.1 hbody))
  · intro d e hcalls he
    rw [if_neg (by rw [hcalls.1]; exact Bool.false_ne_true)] at hparents
    have parents := initialized_of_initParents coherent hq ht hparents hcalls he
    exact (parents.before ((alike_setParams c a).completes hq hparams) (ends_extends hparents)).mono
      (ends_extends hbody)

/-! ### Evaluations -/

/-- The entries of an evaluation in progress apart, the same expressions are cached. -/
def OnlyAdds (s s₁ : Store) (frame : Frame) (e : ExprId) : Prop :=
  ∀ a g, ¬(a = frame.receiver ∧ g = e) → (s₁.cache.find? a g).isSome → (s.cache.find? a g).isSome

theorem onlyAdds_enter {e : ExprId} {frame : Frame} {final : Bool} :
    OnlyAdds s ((Scope.evaluation frame.receiver e final).enter s) frame e := by
  intro a g other hg
  change ((s.cache.insert frame.receiver e .hot).find? a g).isSome at hg
  rwa [Cache.find?_insert, if_neg other] at hg

theorem onlyAdds_leave {e : ExprId} {frame : Frame} {final : Bool} {o : Outcome}
    {before : Context} :
    OnlyAdds u ((Scope.evaluation frame.receiver e final).leave before o u) frame e := by
  intro a g other hg
  change ((if final then u.cache.insert frame.receiver e o.value
    else u.cache.erase frame.receiver e).find? a g).isSome at hg
  split at hg
  · rwa [Cache.find?_insert, if_neg other] at hg
  · rwa [Cache.find?_erase, if_neg other] at hg

variable {s₁ : Store} {e : ExprId} {frame : Frame}

/-- While the template of a class runs, the templates of its ancestors do not depend on it. -/
theorem initialized_above (acyclic : q.finish.Acyclic) (adds : OnlyAdds s s₁ frame e)
    (hc : q.finish.IsTemplateOf e c) (h : s₁.Initialized q.finish t a d)
    (above : Relation.TransGen q.finish.IsParent c d) : s.Initialized q.finish t a d := by
  induction h with
  | begun template cached =>
    refine .begun template (adds _ _ ?_ cached)
    rintro ⟨-, rfl⟩
    rw [hc.cls_unique template] at above
    exact acyclic _ above
  | completed fields _ ih =>
    exact .completed fields fun d' e' hcalls he' =>
      ih d' e' hcalls he' (above.trans (hcalls.ancestor acyclic))

/-- Where the own template was brought to its end, other templates do not depend on it any more. -/
theorem initialized_outside (adds : OnlyAdds s s₁ frame e)
    (own : ∀ c, p.IsTemplateOf e c → s.Initialized p t frame.receiver c)
    (h : s₁.Initialized p t a c) : s.Initialized p t a c := by
  induction h with
  | @begun c g template cached =>
    by_cases other : a = frame.receiver ∧ g = e
    · obtain ⟨rfl, rfl⟩ := other
      exact own c template
    · exact .begun template (adds a g other cached)
  | completed fields _ ih => exact .completed fields ih

/-- The template of a class that is evaluated is brought to its end. -/
theorem initialized_of_node (coherent : q.Coherent) (acyclic : q.finish.Acyclic)
    (hq : CompletesUpTo q.finish n) (adds : OnlyAdds s s₁ frame e)
    (hc : q.finish.IsTemplateOf e c) {o : Outcome}
    (h : (node q.finish e frame).Ends q.finish n s₁ o t) :
    s.Initialized q.finish t frame.receiver c := by
  have ⟨hsource, _, _, _, hnode⟩ := hc
  simp only [node, hnode, ends_ask] at h
  cases n with
  | zero => exact absurd h Query.ends_zero
  | succ n =>
    have hq' : CompletesUpTo q.finish n := fun q s b s' h => hq q s b s' (h.mono (Nat.le_succ n))
    obtain ⟨fields, parents⟩ := initialized_of_template coherent hq' hsource (Query.ends_succ.1 h)
    exact .completed fields fun d g hcalls hg =>
      initialized_above acyclic adds hc (parents d g hcalls hg) (hcalls.ancestor acyclic)

/-- An evaluation begins only templates that it brings to their end. -/
theorem eval_completes (coherent : q.Coherent) (acyclic : q.finish.Acyclic)
    (hq : CompletesUpTo q.finish n) {final : Bool} {o : Outcome}
    (h : (eval q.finish e frame final).Ends q.finish n s o t) : s.Completes q.finish t := by
  cases hit : s.cache.find? frame.receiver e with
  | some v =>
    obtain ⟨-, rfl⟩ := (ends_eval_of_hit hit).1 h
    exact .refl _ _
  | none =>
    obtain ⟨u, hu, rfl⟩ := (ends_eval_of_miss hit).1 h
    have inner := (Alike.calledFrom (q.finish.expr e).span (q.finish.expr e).span
      (alike_node e frame)).completes hq hu
    have own (c : ClassId) (hc : q.finish.IsTemplateOf e c) :
        s.Initialized q.finish ((Scope.evaluation frame.receiver e final).leave s.toContext o u)
          frame.receiver c := by
      obtain ⟨v, hnode, rfl⟩ := ends_calledFrom.1 hu
      refine (initialized_of_node coherent acyclic hq ?_ hc hnode).mono (.refl _)
      exact fun a g other hg => onlyAdds_enter a g other hg
    refine ⟨inner.heap, fun a c g hg cached => ?_⟩
    by_cases other : a = frame.receiver ∧ g = e
    · obtain ⟨rfl, rfl⟩ := other
      exact own c hg
    · have inside := inner.templates a c g hg (onlyAdds_leave a g other cached)
      exact initialized_outside onlyAdds_enter own (inside.mono (.refl _))

end Templates

end Plan

/-! ## Questions -/

/-- A template that a question begins on an object sets all its fields, and every template whose
    constructor it calls was begun before or does the same. -/
theorem Query.Ends.completes {q : Program} (coherent : q.Coherent) (acyclic : q.finish.Acyclic)
    {r : Query β} {b : β} (h : r.Ends q.finish n s b t) : s.Completes q.finish t := by
  induction n generalizing β s t with
  | zero => exact absurd h Query.ends_zero
  | succ n ih =>
    have hq : CompletesUpTo q.finish n := fun r s b t h => ih h
    rw [Query.ends_succ] at h
    cases r with
    | eval e frame final => exact Plan.eval_completes coherent acyclic hq h
    | select v field source virtual =>
      exact (Plan.alike_select v field source virtual Query.findsSame_of_eq).completes hq h
    | call v method args dispatch source =>
      exact (Plan.alike_call v method dispatch source (.refl args)
        Query.findsSame_of_eq).completes hq h
    | construct v ctor args source =>
      exact (Plan.alike_construct v ctor source (.refl args)).completes hq h
    | create outer c ctor args source =>
      exact (Plan.alike_create outer c ctor source (.refl args) Heap.contains_of_eq).completes hq h
    | template c this => exact (Plan.alike_template c this).completes hq h
    | body c this => exact (Plan.alike_body c this).completes hq h
    | promote v reason source => exact Plan.promote_completes hq h
    | isPromotable v => exact Plan.isPromotable_completes (n := n + 1) h
    | enclosingInstance target v c source =>
      exact (Plan.alike_enclosingInstance target v c source Query.findsSame_of_eq).completes hq h
    | outerInstance type frame source =>
      exact (Plan.alike_outerInstance type frame source).completes hq h
    | check c => exact (Plan.alike_check c Heap.contains_of_eq).completes hq h

/-! ## Objects under construction -/

/-- The bases of `c` have source, apart from the root classes, and those that are no traits are the
    chain of super classes. -/
structure Program.Constructs (p : Program) (c : ClassId) : Prop where
  templates : ∀ b ∈ (p.cls c).linearization, b ≠ .object → b ≠ .any → ∃ e, p.IsTemplateOf e b
  chain : ∀ b, b ≠ .any → (b ∈ (p.cls c).linearization ∧ (p.cls b).isTrait = false ↔
    Relation.ReflTransGen p.IsSuperClass c b)

/-- Each strict field of the class that is not abstract stores a parameter or is defined in the
    class body. -/
def Program.DefinesFields (p : Program) (c : ClassId) : Prop :=
  ∀ f ∈ p.fields c, (p.symbol f).isLazy = false → (p.symbol f).isDeferred = false →
    (p.symbol f).isParamAccessor = true ∨ ∃ T, (p.cls c).template = some T ∧
      ∃ e ∈ T.body, (p.expr e).node = .valDef f

instance (p : Program) (c : ClassId) : Decidable (p.DefinesFields c) :=
  decidable_of_iff (∀ f ∈ p.fields c, (p.symbol f).isLazy = false →
      (p.symbol f).isDeferred = false → (p.symbol f).isParamAccessor = true ∨
        ∃ T ∈ (p.cls c).template, ∃ e ∈ T.body, (p.expr e).node = .valDef f)
    (by simp [Program.DefinesFields])

/-- The bases are known where the first classes of the chain of super classes are the whole
    chain. -/
theorem Program.Constructs.of_superClasses (n : Nat)
    (templates : ∀ b ∈ (p.cls c).linearization, b ≠ .object → b ≠ .any →
      ∃ e ∈ p.exprIds, p.IsTemplateOf e b)
    (closed : ∀ d ∈ p.superClasses n c, ∀ e ∈ (p.cls d).superClass, e ∈ p.superClasses n c)
    (above : ∀ b ∈ (p.cls c).linearization, b ≠ .any → (p.cls b).isTrait = false →
      b ∈ p.superClasses n c)
    (below : ∀ b ∈ p.superClasses n c, b ≠ .any →
      b ∈ (p.cls c).linearization ∧ (p.cls b).isTrait = false) : p.Constructs c := by
  refine ⟨fun b hb hobject hany => ?_, fun b hb => ?_⟩
  · obtain ⟨e, -, he⟩ := templates b hb hobject hany
    exact ⟨e, he⟩
  · rw [chain_iff_mem_superClasses closed]
    exact ⟨fun h => above b h.1 hb h.2, fun h => below b h hb⟩

/-- Where no template was in progress before, the templates of all bases are brought to their end
    with that of the class. -/
theorem Program.Constructs.initialized {q : Program} (coherent : q.Coherent)
    (acyclic : q.finish.Acyclic) (constructs : q.finish.Constructs c)
    (roots : q.finish.RootsAlone) {b : ClassId}
    (chain : Relation.ReflTransGen q.finish.IsSuperClass c b)
    (fresh : ∀ e, s.cache.find? a e = none) {e : ExprId} (template : q.finish.IsTemplateOf e b)
    (h : s.Initialized q.finish t a b) {x : ClassId} (hx : x ∈ (q.finish.cls b).linearization)
    (hsource : (q.finish.cls x).hasSource = true) : s.Initialized q.finish t a x := by
  induction b using acyclic.induction generalizing e with
  | _ b ih =>
    have noSource {r : ClassId} (hr : (q.finish.cls r).hasSource = true) :
        r ≠ .object ∧ r ≠ .any := coherent.not_root_of_source (hasSource_finish r ▸ hr)
    have inBases {y : ClassId} (hy : y ∈ (q.finish.cls b).linearization)
        (hsource : (q.finish.cls y).hasSource = true) : ∃ e, q.finish.IsTemplateOf e y :=
      constructs.templates y (linearization_subset_of_chain acyclic chain hy)
        (noSource hsource).1 (noSource hsource).2
    have notTrait : (q.finish.cls b).isTrait = false :=
      ((constructs.chain b (noSource template.1).2).2 chain).2
    have parents : ∀ d e, q.finish.Calls b d → q.finish.IsTemplateOf e d →
        s.Initialized q.finish t a d := by
      cases h with
      | begun _ cached =>
        rw [fresh] at cached
        cases cached
      | completed _ parents => exact parents
    cases hsuper : (q.finish.cls b).superClass with
    | none =>
      have hlt : b.index < q.classes.size := index_lt_of_source (hasSource_finish b ▸ template.1)
      rw [linearization_finish acyclic hlt, List.head?_eq_none_iff.1 hsuper] at hx
      obtain rfl := List.mem_singleton.1 hx
      exact h
    | some d =>
      have hbases := coherent.linearization_eq acyclic hsuper
      rw [hbases, List.mem_cons, List.mem_append, List.mem_reverse] at hx
      rcases hx with rfl | hmixin | hx
      · exact h
      · obtain ⟨g, hg⟩ := inBases (y := x) (by
          rw [hbases]
          exact List.mem_cons_of_mem b (List.mem_append_left _ (List.mem_reverse.2 hmixin))) hsource
        exact parents x g ⟨notTrait, d, hsuper, .inr hmixin⟩ hg
      · by_cases hroot : d = .object ∨ d = .any
        · have known : x = .object ∨ x = .any := by
            rcases hroot with rfl | rfl
            · simpa [roots.1] using hx
            · exact .inr (by simpa [roots.2] using hx)
          rcases known with rfl | rfl
          · exact absurd rfl (noSource hsource).1
          · exact absurd rfl (noSource hsource).2
        · have hparent : q.finish.IsParent b d := Program.IsSuperClass.isParent hsuper
          have hd : d ∈ (q.finish.cls c).linearization :=
            ((constructs.chain d fun h => hroot (.inr h)).2 (chain.tail hsuper)).1
          obtain ⟨g, hg⟩ := constructs.templates d hd (fun h => hroot (.inl h))
            fun h => hroot (.inr h)
          exact ih d hparent (chain.tail hsuper) hg
            (parents d g ⟨notTrait, d, hsuper, .inl rfl⟩ hg) hx

/-- The check of a class with a template evaluates this template. -/
theorem Query.cached_of_check {e : ExprId} (template : p.IsTemplateOf e c) {es : List SafetyError}
    (h : (Query.check c).Ends p n s es t) : (t.cache.find? (.thisOf c) e).isSome := by
  obtain ⟨-, ctor, hctor, hbody, -⟩ := template
  cases n with
  | zero => exact absurd h Query.ends_zero
  | succ n =>
    obtain ⟨u, env, o, v, -, evaluated, -, rfl⟩ := Plan.exists_ends_of_check hctor hbody h
    exact Option.isSome_of_eq_some (Query.eval_kept evaluated)

/-- An object under construction whose fields all have values may be treated as hot. -/
theorem Query.isPromotable_of_complete (complete : s.heap.isComplete p c = true) :
    ∃ u, (Query.isPromotable (.ref (.thisOf c))).Answered p s true u := by
  suffices (Plan.isPromotable p (.ref (.thisOf c))).Meets p s fun b _ => b = true by
    obtain ⟨n, b, u, h, rfl⟩ := this
    exact ⟨u, n + 1, h⟩
  refine Plan.meets_look_bind ?_
  by_cases trusted : s.trusted.contains (.ref (.thisOf c))
  · rw [if_pos trusted]
    exact Plan.meets_pure rfl
  · rw [if_neg trusted]
    have captures : (Plan.capturesHot p (.ref (.thisOf c))).Meets p s fun b _ => b = true :=
      Plan.meets_look_bind (Plan.meets_pure complete)
    refine Plan.meets_bind (captures.imp fun b u hb => ?_)
    subst hb
    exact Plan.meets_bind (Plan.meets_perform rfl (Plan.meets_pure rfl))

/-- After the check of a class, the object under construction has values for all strict fields of
    its classes with source, and it may be treated as hot, whatever errors were found. -/
theorem Query.complete_of_check {q : Program} (built : q.Built) (acyclic : q.finish.Acyclic)
    (constructs : q.finish.Constructs c) (roots : q.finish.RootsAlone)
    (defined : ∀ b ∈ (q.finish.cls c).linearization, (q.finish.cls b).hasSource = true →
      q.finish.DefinesFields b)
    {es : List SafetyError} (h : (Query.check c).Answered q.finish .initial es t) :
    (∀ b ∈ (q.finish.cls c).linearization, (q.finish.cls b).hasSource = true →
      ∀ f ∈ q.finish.fields b, (q.symbol f).isLazy = false → (q.symbol f).isDeferred = false →
        (t.heap.field? (.thisOf c) f).isSome) ∧
    ∀ context : Context, ∃ u, (Query.isPromotable (.ref (.thisOf c))).Answered q.finish
      { t with toContext := context } true u := by
  obtain ⟨n, h⟩ := h
  have coherent := built.coherent
  have fields : ∀ b ∈ (q.finish.cls c).linearization, (q.finish.cls b).hasSource = true →
      ∀ f, q.finish.Sets b f → (t.heap.field? (.thisOf c) f).isSome := by
    intro b hb hsource f hf
    obtain ⟨hobject, hany⟩ := coherent.not_root_of_source (Program.hasSource_finish b ▸ hsource)
    have hclass : ∃ e, q.finish.IsTemplateOf e c := by
      by_cases hroot : c = .object ∨ c = .any
      · rcases hroot with rfl | rfl
        · rw [roots.1] at hb
          simp [hobject, hany] at hb
        · rw [roots.2] at hb
          simp [hany] at hb
      · refine constructs.templates c (Program.mem_linearization_self acyclic ?_)
          (fun h => hroot (.inl h)) fun h => hroot (.inr h)
        by_contra hlt
        rw [Program.cls_of_size_le (by rw [Program.size_finish]; omega)] at hb
        cases hb
    obtain ⟨e, template⟩ := hclass
    have fresh (g : ExprId) : Store.initial.cache.find? (.thisOf c) g = none := rfl
    have done :=
      (h.completes coherent acyclic).templates _ c e template (cached_of_check template h)
    cases constructs.initialized coherent acyclic roots .refl fresh template done hb hsource with
    | begun _ cached => cases cached
    | completed fields _ => exact fields f hf
  have strict : ∀ b ∈ (q.finish.cls c).linearization, (q.finish.cls b).hasSource = true →
      ∀ f ∈ q.finish.fields b, (q.symbol f).isLazy = false → (q.symbol f).isDeferred = false →
        (t.heap.field? (.thisOf c) f).isSome := by
    intro b hb hsource f hf hlazy hdeferred
    refine fields b hb hsource f ?_
    rcases defined b hb hsource f hf hlazy hdeferred with hparam | ⟨T, hT, e, he, hnode⟩
    · exact .inl (List.mem_filter.2 ⟨(List.mem_filter.1 hf).1, hparam⟩)
    · exact .inr ⟨T, hT, e, he, hnode, hlazy⟩
  refine ⟨strict, fun context => isPromotable_of_complete ?_⟩
  refine List.all_eq_true.2 fun b hb => ?_
  by_cases hsource : (q.finish.cls b).hasSource = true
  · rw [hsource, Bool.not_true, Bool.false_or]
    refine List.all_eq_true.2 fun f hf => ?_
    cases hlazy : (q.symbol f).isLazy with
    | true => rw [Program.symbol_finish, hlazy]; rfl
    | false =>
      cases hdeferred : (q.symbol f).isDeferred with
      | true => rw [Program.symbol_finish, hdeferred, hlazy]; rfl
      | false =>
        rw [Program.symbol_finish, hdeferred, hlazy]
        exact strict b hb hsource f hf hlazy hdeferred
  · rw [Bool.not_eq_true] at hsource
    rw [hsource]
    rfl

/-! ## A class with a mixin -/

/-- A class `C` with a field `z` that extends a class `A` with a field `y` and a trait `T` with a
    field `x`. The initializer of `z` reads `x`. -/
def mixesIn : Program := .assemble [
  .defineClass "T" .package (.ofList [.trait]) true,
  .defineField ⟨4⟩ "x" .value,
  .literal,
  .setBody ⟨15⟩ ⟨2⟩,
  .defineClass "A" .package .none true,
  .defineField ⟨5⟩ "y" .value,
  .literal,
  .setBody ⟨17⟩ ⟨5⟩,
  .defineClass "C" .package .none true,
  .defineField ⟨6⟩ "z" .value,
  .identFrom (.thisOf ⟨6⟩) ⟨15⟩,
  .setBody ⟨19⟩ ⟨8⟩,
  .extend ⟨6⟩ ⟨.bare, ⟨5⟩⟩ [],
  .extend ⟨6⟩ ⟨.bare, ⟨4⟩⟩ []]

/-- The check of `C` leaves `x`, `y` and `z` with values. -/
theorem Query.complete_of_check_mixesIn : ∃ es t,
    (Query.check ⟨6⟩).Answered mixesIn.finish .initial es t ∧
      (∀ f ∈ [⟨15⟩, ⟨17⟩, ⟨19⟩], (t.heap.field? (.thisOf ⟨6⟩) f).isSome) ∧
      ∃ u, (Query.isPromotable (.ref (.thisOf ⟨6⟩))).Answered mixesIn.finish t true u := by
  obtain ⟨es, h, -⟩ := Query.answered_of_result? List.isEmpty
    (p := mixesIn.finish) (n := 20) (s := .initial) (q := .check ⟨6⟩) (by decide +kernel)
  generalize Query.storeAfter _ _ _ _ = t at h
  have acyclic : mixesIn.finish.Acyclic :=
    Program.acyclic_of_rank (fun c => [0, 0, 1, 2, 2, 2, 3].getD c.index 0) (by decide +kernel)
  have constructs : mixesIn.finish.Constructs ⟨6⟩ :=
    .of_superClasses 4 (by decide +kernel) (by decide +kernel) (by decide +kernel)
      (by decide +kernel)
  have built : mixesIn.Built := (Program.assembled_assemble _).built
  obtain ⟨fields, promotable⟩ := Query.complete_of_check built acyclic constructs
    (by decide +kernel) (by decide +kernel) h
  refine ⟨es, t, h, fun f hf => ?_, promotable t.toContext⟩
  simp only [List.mem_cons, List.not_mem_nil, or_false] at hf
  rcases hf with rfl | rfl | rfl
  · exact fields ⟨4⟩ (by decide +kernel) (by decide +kernel) _ (by decide +kernel)
      (by decide +kernel) (by decide +kernel)
  · exact fields ⟨5⟩ (by decide +kernel) (by decide +kernel) _ (by decide +kernel)
      (by decide +kernel) (by decide +kernel)
  · exact fields ⟨6⟩ (by decide +kernel) (by decide +kernel) _ (by decide +kernel)
      (by decide +kernel) (by decide +kernel)

/-! ## Root classes with bases or parameters -/

/-- A trait `T` with a field `x` that extends `Any` and that `Object` extends, and a class `C` with
    a field `y`. -/
def traitUnderObject : Program := .assemble [
  .defineClass "T" .package (.ofList [.trait]) true,
  .defineField ⟨4⟩ "x" .value,
  .literal,
  .setBody ⟨15⟩ ⟨2⟩,
  .extend ⟨4⟩ ⟨.bare, .any⟩ [],
  .extend .object ⟨.bare, ⟨4⟩⟩ [],
  .defineClass "C" .package .none true,
  .defineField ⟨5⟩ "y" .value,
  .literal,
  .setBody ⟨17⟩ ⟨5⟩]

/-- `Object` has no template, so nothing initializes the traits that it extends: after the check of
    `C`, which finds no errors, the field `x` has no value and the object may not be treated as
    hot. -/
theorem Query.incomplete_under_object : ∃ t u,
    traitUnderObject.finish.Acyclic ∧ traitUnderObject.finish.Constructs ⟨5⟩ ∧
      (∀ b ∈ (traitUnderObject.finish.cls ⟨5⟩).linearization,
        (traitUnderObject.finish.cls b).parents.Nodup ∧ traitUnderObject.finish.DefinesFields b) ∧
      (Query.check ⟨5⟩).Answered traitUnderObject.finish .initial [] t ∧
      ⟨4⟩ ∈ (traitUnderObject.finish.cls ⟨5⟩).linearization ∧
      ⟨15⟩ ∈ traitUnderObject.finish.fields ⟨4⟩ ∧ t.heap.field? (.thisOf ⟨5⟩) ⟨15⟩ = none ∧
      (Query.isPromotable (.ref (.thisOf ⟨5⟩))).Answered traitUnderObject.finish t false u := by
  obtain ⟨es, h, hes⟩ := Query.answered_of_result? List.isEmpty
    (p := traitUnderObject.finish) (n := 20) (s := .initial) (q := .check ⟨5⟩) (by decide +kernel)
  obtain ⟨b, hb, hfalse⟩ := Query.answered_of_result? (!·)
    (p := traitUnderObject.finish) (n := 20)
    (s := (Query.check ⟨5⟩).storeAfter traitUnderObject.finish 20 .initial)
    (q := .isPromotable (.ref (.thisOf ⟨5⟩))) (by decide +kernel)
  rw [List.isEmpty_iff] at hes
  rw [Bool.not_eq_true'] at hfalse
  subst hes hfalse
  have acyclic : traitUnderObject.finish.Acyclic :=
    Program.acyclic_of_rank (fun c => [0, 0, 2, 3, 1, 3].getD c.index 0) (by decide +kernel)
  have constructs : traitUnderObject.finish.Constructs ⟨5⟩ :=
    .of_superClasses 3 (by decide +kernel) (by decide +kernel) (by decide +kernel)
      (by decide +kernel)
  exact ⟨_, _, acyclic, constructs, by decide +kernel, h, by decide +kernel, by decide +kernel,
    by decide +kernel, hb⟩

/-- `Object` with a class parameter, and a class `C` without fields. -/
def objectWithParam : Program := .assemble [
  .defineClassParam .object "x",
  .defineClass "C" .package .none true]

/-- Nothing initializes the fields of the root classes: the parameter of `Object` has no value after
    the check of `C`, although root classes inherit from nothing else. -/
theorem Query.param_of_object_unset : ∃ t,
    objectWithParam.finish.Constructs ⟨4⟩ ∧ objectWithParam.finish.RootsAlone ∧
      objectWithParam.finish.DefinesFields .object ∧
      (Query.check ⟨4⟩).Answered objectWithParam.finish .initial [] t ∧
      ⟨15⟩ ∈ objectWithParam.finish.fields .object ∧
      t.heap.field? (.thisOf ⟨4⟩) ⟨15⟩ = none := by
  obtain ⟨es, h, hes⟩ := Query.answered_of_result? List.isEmpty
    (p := objectWithParam.finish) (n := 20) (s := .initial) (q := .check ⟨4⟩) (by decide +kernel)
  rw [List.isEmpty_iff] at hes
  subst hes
  have constructs : objectWithParam.finish.Constructs ⟨4⟩ :=
    .of_superClasses 3 (by decide +kernel) (by decide +kernel) (by decide +kernel)
      (by decide +kernel)
  exact ⟨_, constructs, by decide +kernel, by decide +kernel, h, by decide +kernel,
    by decide +kernel⟩

end ObjectInit
