import ObjectInit.Proofs.Progress
import ObjectInit.Proofs.Scoped

/-!
# The initialization of an object

An object is initialized along the chain of super classes: the template of a class records the
outers of its parents, runs the templates of the super class and of the traits that are mixed in,
and then its own body. All in all the statements of the bases are carried out in their order, no
template is run twice and no outer is recorded twice.

Main results:

* `Plan.initializes_template`: the template of a class carries out the statements of all its bases.
-/

namespace ObjectInit

variable {q : Program} {c b d : ClassId}

/-! ## The classes of a construction -/

namespace Program

/-- The statements of a class are those of its super class, of the mixins and its own. -/
theorem statements_eq {p : Program} {front : List ClassId}
    (hfront : (p.cls b).linearization = b :: (front ++ (p.cls d).linearization)) :
    p.statements b =
      p.statements d ++ (front.reverse.flatMap p.bodyStatements ++ p.bodyStatements b) := by
  rw [statements, hfront, statements]
  simp only [List.reverse_cons, List.reverse_append, List.flatMap_append, List.flatMap_cons,
    List.flatMap_nil, List.append_nil, List.append_assoc]

namespace ThisOnly

/-- Every base with a source is a plain one. -/
theorem exists_plain (thisOnly : q.finish.ThisOnly c) (coherent : q.Coherent)
    (hb : b ∈ (q.finish.cls c).linearization) (source : (q.cls b).hasSource = true) :
    ∃ t, q.finish.PlainBase b t :=
  have notRoot := coherent.not_root_of_source source
  thisOnly.bases b hb notRoot.1 notRoot.2

/-- All bases are at the top level. -/
theorem classAround_eq (thisOnly : q.finish.ThisOnly c) (coherent : q.Coherent)
    (hb : b ∈ (q.finish.cls c).linearization) : q.finish.classAround b = .root := by
  have known := coherent.topLevel
  by_cases hobject : b = .object
  · rw [hobject, classAround, owner_finish, known.2]
    rfl
  by_cases hany : b = .any
  · rw [hany, classAround, owner_finish, known.1]
    rfl
  obtain ⟨t, plain⟩ := thisOnly.bases b hb hobject hany
  rw [classAround, plain.topLevel]
  rfl

/-- The fields that a base defines are its own, each defined once. -/
theorem defined_of_base (thisOnly : q.finish.ThisOnly c) (coherent : q.Coherent)
    (hb : b ∈ (q.finish.cls c).linearization) :
    ((q.finish.bodyStatements b).filterMap q.finish.defined?).Nodup ∧
      ∀ f ∈ (q.finish.bodyStatements b).filterMap q.finish.defined?,
        (q.finish.symbol f).owner = .cls b := by
  rw [bodyStatements]
  cases ht : (q.finish.cls b).template with
  | none => exact ⟨List.nodup_nil, nofun⟩
  | some T =>
    have source : (q.cls b).hasSource = true := by
      rw [← hasSource_finish, ClassDef.hasSource, ht]
      rfl
    obtain ⟨T', plain⟩ := thisOnly.exists_plain coherent hb source
    obtain rfl : T' = T := Option.some.inj (plain.template.symm.trans ht)
    rw [Option.elim_some, List.filterMap_map]
    refine ⟨plain.distinct, fun f hf => ?_⟩
    obtain ⟨stat, hstat, hdef⟩ := List.mem_filterMap.1 hf
    exact plain.ownFields stat hstat f hdef

/-- No two statements define the same field. -/
theorem distinct (thisOnly : q.finish.ThisOnly c) (coherent : q.Coherent)
    (acyclic : q.finish.Acyclic) :
    ((q.finish.statements c).filterMap q.finish.defined?).Nodup := by
  rw [statements, List.filterMap_flatMap, List.nodup_flatMap]
  refine ⟨fun b hb => (thisOnly.defined_of_base coherent (List.mem_reverse.1 hb)).1, ?_⟩
  have bases := List.nodup_reverse.2 (nodup_linearization acyclic c)
  refine List.Pairwise.imp_of_mem (fun {b d} hb hd hne f hf hf' => hne ?_) bases
  have owner := (thisOnly.defined_of_base coherent (List.mem_reverse.1 hb)).2 f hf
  rw [(thisOnly.defined_of_base coherent (List.mem_reverse.1 hd)).2 f hf'] at owner
  exact (Owner.cls.inj owner).symm

end ThisOnly

theorem bodyStatements_of_noSource {p : Program} (h : (p.cls b).hasSource = false) :
    p.bodyStatements b = [] := by
  rw [ClassDef.hasSource, Option.isSome_eq_false_iff, Option.isNone_iff_eq_none] at h
  rw [bodyStatements, h]
  rfl

/-- The root classes have no statements. -/
theorem Coherent.statements_of_root (coherent : q.Coherent) (roots : q.finish.RootsAlone)
    {r : ClassId} (hr : r = .object ∨ r = .any) : q.finish.statements r = [] := by
  have object : q.finish.bodyStatements .object = [] :=
    bodyStatements_of_noSource (by rw [hasSource_finish, coherent.noSource.2])
  have any : q.finish.bodyStatements .any = [] :=
    bodyStatements_of_noSource (by rw [hasSource_finish, coherent.noSource.1])
  rcases hr with rfl | rfl
  · simp [statements, roots.1, object, any]
  · simp [statements, roots.2, any]

end Program

/-! ## Outers -/

/-- The super class of a class is no trait. This holds of all classes but packages. -/
def Program.ExtendsClasses (p : Program) (c : ClassId) : Prop :=
  ∀ b ∈ (p.cls c).linearization, (p.cls b).isTrait = false → ∀ d ∈ (p.cls b).superClass,
    (p.cls d).isTrait = false

instance (p : Program) (c : ClassId) : Decidable (p.ExtendsClasses c) :=
  inferInstanceAs (Decidable (∀ b ∈ (p.cls c).linearization, _))

/-- The parent was prepared without errors. -/
def Program.IsPrepared (p : Program) (x : ClassId) (r : List SafetyError × Option ParentCall) :
    Prop :=
  ∃ source, r = ([], p.callOf x source)

namespace Plan

variable {p : Program} {x : ClassId}

/-- The outer instance of a class at the top level is hot, also in the code of its subclasses. -/
theorem initializes_outerInstance {type : ClassRef} (source : Span) (bare : type.path = .bare)
    (topLevel : p.classAround type.cls = .root) (root : p.isPackage .root = true)
    (notRoot : b ≠ .root) :
    (liftM (Query.outerInstance type ⟨.thisOf c, b⟩ source) : Plan Outcome).Initializes p c
      ⟨[], [], []⟩ fun o es => o = .hot ∧ es = [] := by
  have unqualified : type.isQualified = false := by
    rw [ClassRef.isQualified, bare]
    decide
  have enclosing : (liftM (Query.enclosingInstance .root (.ref (.thisOf c)) b source) :
      Plan Value).Initializes p c ⟨[], [], []⟩ fun v es => v = .hot ∧ es = [] := by
    refine .ask ?_
    rw [Query.plan, enclosingInstance, if_neg notRoot.symm, root, if_pos rfl]
    exact .pure ⟨rfl, rfl⟩ [] []
  refine .ask ?_
  rw [Query.plan, outerInstance, unqualified, topLevel]
  exact .ret enclosing fun v es hv => ⟨congrArg Outcome.ofValue hv.1, hv.2⟩

/-- An outer is recorded that was not recorded before. -/
theorem initializes_setOuter :
    (liftM (Effect.setOuter (.thisOf c) x .hot) : Plan Unit).Initializes p c ⟨[], [], [x]⟩
      fun _ es => es = [] := by
  intro s g V es allowed after
  have new : x ∉ g.outers := by
    have disjoint := (List.nodup_append.1 allowed.outers).2.2
    exact fun hmem => disjoint x hmem x (List.mem_singleton_self x) rfl
  have absent : s.heap.outer? (.thisOf c) x = none := by
    rw [Option.eq_none_iff_forall_ne_some]
    exact fun v hv => new (after.outers x v hv)
  obtain ⟨heap, ok⟩ := Heap.exists_setOuter after.alive absent .hot
  refine meets_perform (a := ()) (Effect.run_setOuter.2 ⟨heap, ok, rfl⟩) ⟨V, [], ?_, rfl⟩
  have stats : (g ++ ⟨[], [], [x]⟩ : Progress).stats = g.stats := List.append_nil _
  refine ⟨Heap.contains_of_setOuter ok, fun f => ?_, fun b v hv => ?_, ?_, ?_⟩
  · rw [Heap.field?_of_setOuter ok, stats]
    exact after.fields f
  · rw [Heap.outer?_of_setOuter ok] at hv
    split at hv
    · next heq => exact List.mem_append_right _ (List.mem_singleton.2 heq.2)
    · exact List.mem_append_left _ (after.outers b v hv)
  · rw [Progress.begun_append, List.append_nil]
    exact ⟨rfl, after.ready.templates, after.ready.visited, Nat.le_refl _⟩
  · rw [stats, List.append_nil]
    exact after.searched

theorem initializes_prepareParent (type : ClassRef) {ctor : Option SymbolId} (source : Span)
    (bare : type.path = .bare) (constructor : ctor = (p.cls type.cls).primaryConstructor)
    (topLevel : p.classAround type.cls = .root) (root : p.isPackage .root = true)
    (notRoot : b ≠ .root) :
    (prepareParent p b (.thisOf c) type ctor [] source).Initializes p c ⟨[], [], [type.cls]⟩
      fun r es => p.IsPrepared type.cls r ∧ es = [] := by
  refine .bind (l := ⟨[], [], []⟩) (m := ⟨[], [], [type.cls]⟩)
    (initializes_outerInstance source bare topLevel root notRoot) fun o es ho => ?_
  obtain ⟨rfl, rfl⟩ := ho
  refine .ret initializes_setOuter fun _ es hes => ⟨⟨source, ?_⟩, hes⟩
  rw [Program.callOf, constructor]
  split <;> rfl

theorem initializes_prepareListed (coherent : q.Coherent) (thisOnly : q.finish.ThisOnly c)
    {t : Template} (plain : q.finish.PlainBase b t) (notRoot : b ≠ .root)
    {parent : Parent} (hparent : parent ∈ t.parents)
    (hbase : parent.type.cls ∈ (q.finish.cls c).linearization) :
    (prepareListed q.finish b (.thisOf c) parent).Initializes q.finish c
      ⟨[], [], [parent.type.cls]⟩ fun r es => q.finish.IsPrepared parent.type.cls r ∧ es = [] := by
  obtain ⟨bare, noArgs⟩ := plain.parents parent hparent
  have evaluated : evalArguments q.finish ⟨.thisOf c, b⟩ parent.args = Pure.pure ([], []) := by
    rw [noArgs]
    rfl
  rw [prepareListed, evaluated, pure_bind]
  refine .ret (initializes_prepareParent parent.type parent.span bare
    (coherent.ctor_of_listed plain.template hparent) (thisOnly.classAround_eq coherent hbase)
    coherent.root_finish notRoot) fun r es hr => ⟨?_, hr.2⟩
  obtain ⟨source, rfl⟩ := hr.1
  exact ⟨source, rfl⟩

theorem initializes_prepareMixin (coherent : q.Coherent) (thisOnly : q.finish.ThisOnly c)
    {t : Template} (plain : q.finish.PlainBase b t) (notRoot : b ≠ .root)
    (superClass : Parent) {listed : List Parent} (hlisted : ∀ parent ∈ listed, parent ∈ t.parents)
    (hbase : x ∈ (q.finish.cls c).linearization) :
    (prepareMixin q.finish b (.thisOf c) superClass listed x).Initializes q.finish c
      ⟨[], [], [x]⟩ fun r es => q.finish.IsPrepared x r ∧ es = [] := by
  rw [prepareMixin]
  cases hfind : listed.find? fun parent => parent.type.cls == x with
  | some parent =>
    have found := List.find?_some hfind
    obtain rfl : parent.type.cls = x := by simpa using found
    exact initializes_prepareListed coherent thisOnly plain notRoot
      (hlisted parent (List.mem_of_find?_eq_some hfind)) hbase
  | none =>
    exact initializes_prepareParent ⟨.bare, x⟩ superClass.span rfl rfl
      (thisOnly.classAround_eq coherent hbase) coherent.root_finish notRoot

end Plan

/-! ## Templates -/

/-- A value is kept for the template of a class that is begun. -/
theorem Store.After.keep {p : Program} {g : Progress} {V : Set ExprId} {es : List SafetyError}
    {s t : Store} (after : s.After p c g V es) {e : ExprId}
    (hnode : (p.expr e).node = .template b) (begun : b ∈ g.begun) (v : Value)
    (heap : t.heap = s.heap) (cache : t.cache = s.cache.insert (.thisOf c) e v) :
    t.After p c g V es := by
  refine ⟨?_, ?_, ?_, ⟨rfl, fun e' u hu b' hb' => ?_, fun e' u hu hb' => ?_, Nat.le_refl _⟩,
    after.searched⟩
  · rw [heap]
    exact after.alive
  · rw [heap]
    exact after.fields
  · rw [heap]
    exact after.outers
  all_goals rw [cache, Cache.find?_insert] at hu
  · split at hu
    · next heq =>
      rw [heq.2, hnode] at hb'
      cases hb'
      exact begun
    · exact after.ready.templates e' u hu b' hb'
  · split at hu
    · next heq =>
      rw [heq.2] at hb'
      exact absurd hnode (hb' b)
    · exact after.ready.visited e' u hu hb'

namespace Plan

variable {x : ClassId}

/-- The template of a class is run when its expression is evaluated for the first time. -/
theorem initializes_evalTemplate {p : Program} {e : ExprId} (hnode : (p.expr e).node = .template x)
    {part : Progress} (run : (template p x (.thisOf c)).Initializes p c part
      fun o es => o.errors = es) :
    (liftM (Query.eval e ⟨.thisOf c, b⟩ true) : Plan Outcome).Initializes p c
      (⟨[], [x], []⟩ ++ part) fun o es => o.errors = es := by
  refine .ask ?_
  rw [Query.plan, eval]
  intro s g V es allowed after
  refine meets_look_bind ?_
  have new : s.cache.find? (.thisOf c) e = none := by
    rw [Option.eq_none_iff_forall_ne_some]
    intro v hv
    have disjoint := (List.nodup_append.1 allowed.begun).2.2
    exact disjoint x (after.ready.templates e v hv x hnode) x List.mem_cons_self rfl
  rw [new]
  have inner : (calledFrom (p.expr e).span (node p e ⟨.thisOf c, b⟩)).Initializes p c part
      fun o es => o.errors = es := by
    refine .calledFrom ?_
    rw [node, hnode]
    exact .ask run
  rw [← Progress.append_assoc] at allowed ⊢
  have begun : x ∈ (g ++ ⟨[], [x], []⟩ : Progress).begun :=
    List.mem_append_right _ (List.mem_singleton_self x)
  have entered := (after.more [x] []).keep hnode begun .hot
    (t := Scope.enter (.evaluation (.thisOf c) e true) s) rfl rfl
  refine meets_within ((inner _ _ V es allowed entered).imp fun o t ho => ?_)
  obtain ⟨V', es', after', herrors⟩ := ho
  have begun' : x ∈ (g ++ ⟨[], [x], []⟩ ++ part : Progress).begun := List.mem_append_left _ begun
  exact ⟨V', es', after'.keep hnode begun' o.value rfl rfl, herrors⟩

/-- A primary constructor is called on the object under construction. -/
theorem initializes_construct {p : Program} {ctor : SymbolId} {e : ExprId} (source : Span)
    (primary : (p.symbol ctor).isPrimaryConstructor = true) (hbody : (p.symbol ctor).body = some e)
    (hnode : (p.expr e).node = .template x) {part : Progress}
    (run : (template p x (.thisOf c)).Initializes p c part fun o es => o.errors = es) :
    (liftM (Query.construct (.ref (.thisOf c)) ctor [] source) : Plan Outcome).Initializes p c
      (⟨[], [x], []⟩ ++ part) fun o es => o.errors = es := by
  refine .ask ?_
  rw [Query.plan, construct, callTarget, Symbol.hasSource, hbody, Option.isSome_some, if_pos rfl,
    runMember_of_body hbody]
  dsimp only
  rw [primary, if_pos rfl]
  exact .calledFrom (.ret (.inEnv (.calledFrom (initializes_evalTemplate hnode run)))
    fun o es ho => ho)

/-- The statements of a class body are carried out. -/
theorem initializes_body {p : Program} (code : ∀ stat ∈ p.statements c, ∀ start,
      p.start? stat = some start → p.IsThisOnly c start)
    (distinct : ((p.statements c).filterMap p.defined?).Nodup) :
    (liftM (Query.body b (.thisOf c)) : Plan _).Initializes p c
      ⟨p.bodyStatements b, [], []⟩ Eq := by
  refine .ask ?_
  rw [Query.plan, body, Program.bodyStatements]
  cases (p.cls b).template with
  | none => exact .pure rfl [] []
  | some T =>
    exact .errorsOfEach (fun es => ⟨es.map (⟨·, b⟩), [], []⟩) rfl (fun _ _ => rfl)
      fun e _ => initializes_stat code distinct

/-! ## Parents -/

/-- The errors for the elements of two lists. -/
theorem initializes_errorsOfEach_append {p : Program} {β : Type} {xs ys : List β}
    {f : β → Plan (List SafetyError)} {l m : Progress}
    (hxs : (errorsOfEach xs f).Initializes p c l Eq)
    (hys : (errorsOfEach ys f).Initializes p c m Eq) :
    (errorsOfEach (xs ++ ys) f).Initializes p c (l ++ m) Eq := by
  have both : errorsOfEach (xs ++ ys) f =
      errorsOfEach xs f >>= fun es => errorsOfEach ys f >>= fun es' => Pure.pure (es ++ es') := by
    simp [errorsOfEach, List.mapM_append, map_bind]
  rw [both]
  exact .bind hxs fun es _ hes => .ret hys fun es' _ hes' => by rw [hes, hes']

/-- The call of a parent's constructor, as the template makes it. -/
abbrev callParent (c : ClassId) (call : ParentCall) : Plan (List SafetyError) := do
  return (← Query.construct (.ref (.thisOf c)) call.ctor call.args call.source).errors

/-- The constructor of a parent makes progress when it is called, and parents without source have no
    statements. -/
structure CallsInitialize (p : Program) (c x : ClassId) (part : Progress) : Prop where
  noSource : (p.cls x).hasSource = false → part.stats = []
  source : (p.cls x).hasSource = true → ∃ ctor, (p.cls x).primaryConstructor = some ctor ∧
    ∀ source, (liftM (Query.construct (.ref (.thisOf c)) ctor [] source) : Plan _).Initializes p c
      part fun o es => o.errors = es

theorem CallsInitialize.initializes {p : Program} {part : Progress}
    (calls : CallsInitialize p c x part) {r : List SafetyError × Option ParentCall}
    (prepared : p.IsPrepared x r) :
    (errorsOfEach r.2.toList (callParent c)).Initializes p c part Eq := by
  obtain ⟨source, rfl⟩ := prepared
  rw [Program.callOf]
  cases h : (p.cls x).hasSource with
  | false =>
    obtain ⟨stats, begun, outers⟩ := part
    obtain rfl : stats = [] := calls.noSource h
    exact .pure rfl begun outers
  | true =>
    obtain ⟨ctor, hctor, run⟩ := calls.source h
    rw [if_pos rfl, hctor, ← Progress.append_none part]
    show (errorsOfEach [_] _).Initializes p c _ _
    rw [errorsOfEach_cons]
    refine .bind (.ret (run source) fun o es ho => ho) fun es _ hes => ?_
    refine .ret (.pure rfl [] []) fun es' _ hes' => ?_
    rw [hes, hes']

theorem calls_cons {r : List SafetyError × Option ParentCall}
    {rs : List (List SafetyError × Option ParentCall)} :
    (r :: rs).filterMap (·.2) = r.2.toList ++ rs.filterMap (·.2) := by
  cases h : r.2 with
  | none =>
    rw [List.filterMap_cons_none h]
    rfl
  | some call =>
    rw [List.filterMap_cons_some h]
    rfl

/-- What was prepared without errors has none. -/
theorem errors_of_prepared {p : Program} {xs : List ClassId}
    {rs : List (List SafetyError × Option ParentCall)}
    (prepared : List.Forall₂ p.IsPrepared xs rs) : rs.flatMap (·.1) = [] := by
  induction prepared with
  | nil => rfl
  | cons hr _ ih =>
    obtain ⟨source, rfl⟩ := hr
    exact ih

/-- The constructors of the mixins are called one after the other. -/
theorem initializes_calls {p : Program} {xs : List ClassId}
    {rs : List (List SafetyError × Option ParentCall)} (prepared : List.Forall₂ p.IsPrepared xs rs)
    (calls : ∀ x ∈ xs, CallsInitialize p c x ⟨p.bodyStatements x, [x], []⟩) :
    (errorsOfEach (rs.filterMap (·.2)) (callParent c)).Initializes p c
      ⟨xs.flatMap p.bodyStatements, xs, []⟩ Eq := by
  induction prepared with
  | nil => exact .pure rfl [] []
  | @cons x r xs rs hr _ ih =>
    rw [calls_cons]
    exact initializes_errorsOfEach_append ((calls x List.mem_cons_self).initializes hr)
      (ih fun y hy => calls y (List.mem_cons_of_mem x hy))

/-! ## The whole template -/

section

variable (coherent : q.Coherent) (acyclic : q.finish.Acyclic) (roots : q.finish.RootsAlone)
  (thisOnly : q.finish.ThisOnly c)

include coherent acyclic thisOnly in
/-- The template of a trait carries out its statements. -/
theorem initializes_trait {T : Template} (plain : q.finish.PlainBase x T)
    (trait : (q.finish.cls x).isTrait = true) :
    (template q.finish x (.thisOf c)).Initializes q.finish c ⟨q.finish.bodyStatements x, [], []⟩
      fun o es => o.errors = es := by
  have noParams : setParams q.finish x (.thisOf c) = Pure.pure () := by
    rw [setParams, plain.params]
    rfl
  rw [template_of_source plain.template, noParams, pure_bind, if_pos trait, pure_bind]
  exact .ret (initializes_body thisOnly.code (thisOnly.distinct coherent acyclic))
    fun es es' hes => hes

include coherent thisOnly in
/-- The constructor of a plain base runs its template. -/
theorem CallsInitialize.of_template (part : Progress)
    (hx : x ∈ (q.finish.cls c).linearization)
    (noSource : (q.finish.cls x).hasSource = false → part.stats = [])
    (run : ∀ T, q.finish.PlainBase x T →
      (template q.finish x (.thisOf c)).Initializes q.finish c part fun o es => o.errors = es) :
    CallsInitialize q.finish c x (⟨[], [x], []⟩ ++ part) := by
  refine ⟨noSource, fun source => ?_⟩
  rw [Program.hasSource_finish] at source
  obtain ⟨T, plain⟩ := thisOnly.exists_plain coherent hx source
  obtain ⟨ctor, e, hctor, body, node⟩ := plain.constructor
  refine ⟨ctor, hctor, fun source => initializes_construct source ?_ body node (run T plain)⟩
  rw [Program.primaryConstructor_finish] at hctor
  exact (coherent.constructors x ctor hctor).2.2.1

include thisOnly in
/-- A base of a class under construction either has a template or is a root class. -/
theorem root_of_noSource (hx : x ∈ (q.finish.cls c).linearization)
    (noSource : (q.finish.cls x).hasSource = false) : x = .object ∨ x = .any := by
  by_contra notRoot
  rw [not_or] at notRoot
  obtain ⟨T, plain⟩ := thisOnly.bases x hx notRoot.1 notRoot.2
  rw [ClassDef.hasSource, plain.template] at noSource
  cases noSource

include coherent acyclic roots thisOnly in
/-- The parents of a class carry out the statements of the bases that come before it. -/
theorem initializes_initParents {T : Template} (plain : q.finish.PlainBase b T)
    (notRoot : b ≠ .root) (chain : Relation.ReflTransGen q.finish.IsSuperClass c b)
    {superClass : Parent} {listed : List Parent} (parents : T.parents = superClass :: listed)
    (above : ∀ T', q.finish.PlainBase superClass.type.cls T' →
      (template q.finish superClass.type.cls (.thisOf c)).Initializes q.finish c
        ⟨q.finish.statements superClass.type.cls,
          (q.finish.cls superClass.type.cls).linearization.tail,
          (q.finish.cls superClass.type.cls).linearization.tail⟩ fun o es => o.errors = es) :
    (initParents q.finish b (.thisOf c) T.parents).Initializes q.finish c
      (⟨[], [], [superClass.type.cls]⟩ ++
        (⟨[], [], q.finish.mixins b superClass.type.cls⟩ ++
          ((⟨[], [superClass.type.cls], []⟩ ++ ⟨q.finish.statements superClass.type.cls,
              (q.finish.cls superClass.type.cls).linearization.tail,
              (q.finish.cls superClass.type.cls).linearization.tail⟩) ++
            ⟨(q.finish.mixins b superClass.type.cls).flatMap q.finish.bodyStatements,
              q.finish.mixins b superClass.type.cls, []⟩))) Eq := by
  have hd : q.finish.IsSuperClass b superClass.type.cls := by
    rw [Program.IsSuperClass, ClassDef.superClass, ← coherent.parents_of_listed plain.template,
      parents]
    rfl
  have below : (q.finish.cls b).linearization ⊆ (q.finish.cls c).linearization :=
    Program.linearization_subset_of_chain acyclic chain
  have base : superClass.type.cls ∈ (q.finish.cls c).linearization :=
    Program.linearization_subset_of_chain acyclic (chain.tail hd)
      (Program.mem_linearization_self acyclic (coherent.parents_lt_finish hd.isParent))
  have mixin (x : ClassId) (hx : x ∈ q.finish.mixins b superClass.type.cls) :
      x ∈ (q.finish.cls c).linearization :=
    below (List.mem_of_mem_tail (Program.mem_tail_of_mixin hx))
  rw [parents, initParents]
  refine .bind (initializes_prepareListed coherent thisOnly plain notRoot ?_ base)
    fun r es hr => ?_
  · rw [parents]
    exact List.mem_cons_self
  obtain ⟨hr, rfl⟩ := hr
  refine .bind (.mapM (fun xs => ⟨[], [], xs⟩) rfl (fun _ _ => rfl) fun x hx =>
    initializes_prepareMixin coherent thisOnly plain notRoot superClass (fun parent h => ?_)
      (mixin x hx)) fun rs es hrs => ?_
  · rw [parents]
    exact List.mem_cons_of_mem _ h
  obtain ⟨hrs, rfl⟩ := hrs
  have superCalls := CallsInitialize.of_template coherent thisOnly
    ⟨q.finish.statements superClass.type.cls, _, _⟩ base
    (fun noSource => coherent.statements_of_root roots (root_of_noSource thisOnly base noSource))
    above
  have mixinCalls (x : ClassId) (hx : x ∈ q.finish.mixins b superClass.type.cls) :
      CallsInitialize q.finish c x ⟨q.finish.bodyStatements x, [x], []⟩ :=
    .of_template coherent thisOnly ⟨q.finish.bodyStatements x, [], []⟩ (mixin x hx)
      Program.bodyStatements_of_noSource fun T' plain' => by
        refine initializes_trait coherent acyclic thisOnly plain'
          (coherent.isTrait_of_mixin acyclic thisOnly.chain chain hd hx ?_)
        rw [← Program.hasSource_finish, ClassDef.hasSource, plain'.template]
        rfl
  dsimp only
  rw [errors_of_prepared (.cons hr hrs), calls_cons]
  exact .ret (initializes_errorsOfEach_append (superCalls.initializes hr)
    (initializes_calls hrs mixinCalls)) fun es es' hes => hes

include coherent acyclic roots thisOnly in
/-- The template of a class carries out the statements of all its bases. -/
theorem initializes_template (tables : q.Scoped) (classes : q.finish.ExtendsClasses c)
    {T : Template} (plain : q.finish.PlainBase b T)
    (chain : Relation.ReflTransGen q.finish.IsSuperClass c b)
    (notTrait : (q.finish.cls b).isTrait = false) :
    (template q.finish b (.thisOf c)).Initializes q.finish c
      ⟨q.finish.statements b, (q.finish.cls b).linearization.tail,
        (q.finish.cls b).linearization.tail⟩ fun o es => o.errors = es := by
  induction b using acyclic.induction generalizing T with
  | _ b ih =>
    have source : (q.finish.cls b).hasSource = true := by
      rw [ClassDef.hasSource, plain.template]
      rfl
    have exists_b : b.index < q.classes.size :=
      Program.index_lt_of_source ((Program.hasSource_finish b).symm.trans source)
    have inBases : b ∈ (q.finish.cls c).linearization :=
      Program.linearization_subset_of_chain acyclic chain
        (Program.mem_linearization_self acyclic exists_b)
    have notRoot : b ≠ .root := by
      rintro rfl
      rw [Program.hasSource_finish, ClassDef.hasSource, ((tables.classes .root).root rfl).1]
        at source
      cases source
    have noParams : setParams q.finish b (.thisOf c) = Pure.pure () := by
      rw [setParams, plain.params]
      rfl
    have body := initializes_body (b := b) thisOnly.code (thisOnly.distinct coherent acyclic)
    have rest (es es' : List SafetyError) (h : es = es') :
        (do
          return ⟨.ref (.thisOf c), es ++ (← Query.body b (.thisOf c))⟩ : Plan Outcome).Initializes
          q.finish c ⟨q.finish.bodyStatements b, [], []⟩ fun o es'' => o.errors = es' ++ es'' :=
      .ret body fun found es'' hfound => by rw [h, hfound]
    rw [template_of_source plain.template, noParams, pure_bind, notTrait, if_neg Bool.false_ne_true]
    have listed := coherent.parents_of_listed plain.template
    cases parents : T.parents with
    | nil =>
      -- Only packages have no parents.
      rw [parents] at listed
      have alone : (q.finish.cls b).linearization = [b] := by
        rw [Program.linearization_finish acyclic exists_b, ← listed]
        rfl
      have own : q.finish.statements b = q.finish.bodyStatements b := by
        rw [Program.statements, alone]
        exact List.append_nil _
      rw [alone, own, initParents, pure_bind]
      exact rest [] [] rfl
    | cons superClass others =>
      rw [← parents]
      have hd : q.finish.IsSuperClass b superClass.type.cls := by
        rw [Program.IsSuperClass, ClassDef.superClass, ← listed, parents]
        rfl
      have inherited := initializes_initParents coherent acyclic roots thisOnly plain notRoot chain
        parents fun T' plain' => ih _ hd.isParent plain' (chain.tail hd)
          (classes b inBases notTrait _ hd)
      refine (inherited.bind rest).perm ?_
      have bases := coherent.linearization_eq acyclic hd
      have super := Program.linearization_finish acyclic (coherent.parents_lt_finish hd.isParent)
      rw [Program.statements_eq bases, bases, List.tail_cons, List.reverse_reverse]
      generalize q.finish.mixins b superClass.type.cls = mixins
      rw [super, List.tail_cons]
      generalize Linearization.joinBases _ _ _ = above
      have reversed := mixins.reverse_perm.symm.append_right (superClass.type.cls :: above)
      refine ⟨?_, ?_, ?_⟩
      · simp
      · refine .trans ?_ (List.perm_append_comm.trans reversed)
        simp
      · refine .trans ?_ (List.perm_middle.symm.trans reversed)
        simp

end

end Plan

end ObjectInit
