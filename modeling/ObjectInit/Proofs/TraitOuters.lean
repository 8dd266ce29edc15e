import ObjectInit.Proofs.Ancestors
import ObjectInit.Proofs.Completion
import ObjectInit.Proofs.EnclosingInstances
import ObjectInit.Proofs.Entries

/-!
# The outers of traits

The template of a class records an outer for its super class and for each trait that it mixes in. A
parent that is listed with a prefix belongs to the object that the prefix leads to. For all others
the enclosing instance is looked for around the code of the class (`Store.Places`), so those that
are defined in the same class have the same outer.

Main results:

* `Plan.places_of_template`: the outers that a template records.
* `Query.Runs.chain`: the templates of the super classes run with that of a class.
* `Query.outers_agree`: a parent of a trait has the same outer as the trait.
* `Query.outers_differ`: this fails where the trait is listed with a prefix.
-/

namespace ObjectInit

variable {p : Program} {n : Nat} {α β γ : Type} {s t : Store} {a : Addr} {b c d x : ClassId}
  {source : Span}

/-! ## Parents whose outers are found from the code -/

/-- The class lists a parent only without prefix, if at all. -/
def Program.ListsBare (p : Program) (c x : ClassId) : Prop :=
  ∀ T, (p.cls c).template = some T → ∀ parent ∈ T.parents, parent.type.cls = x →
    parent.type.path = .bare

instance (p : Program) (c x : ClassId) : Decidable (p.ListsBare c x) :=
  decidable_of_iff (∀ T ∈ (p.cls c).template, ∀ parent ∈ T.parents, parent.type.cls = x →
      parent.type.path = .bare) (by simp [Program.ListsBare])

instance (p : Program) : DecidableRel p.IsParent :=
  fun c d => inferInstanceAs (Decidable (d ∈ (p.cls c).parents))

/-- A class that is no parent is not listed at all. -/
theorem Program.Coherent.listsBare_of_not_parent {q : Program} (coherent : q.Coherent)
    (h : ¬q.finish.IsParent c x) : q.finish.ListsBare c x := by
  intro T hT parent hparent hcls
  refine absurd ?_ h
  rw [Program.IsParent, ← coherent.parents_of_listed hT, ← hcls]
  exact List.mem_map_of_mem hparent

/-- The outer that is recorded for a parent is the instance around the code of the class. -/
def Store.Places (p : Program) (s : Store) (a : Addr) (c x : ClassId) : Prop :=
  ∃ w, s.heap.outer? a x = some w ∧ s.Encloses p a c (p.classAround x) w

theorem Store.Places.mono (h : s.Places p a c x) (ext : s.heap.Extends t.heap) :
    t.Places p a c x := by
  obtain ⟨w, recorded, encloses⟩ := h
  exact ⟨w, ext.outer recorded, encloses.mono ext⟩

namespace Plan

/-- Without a prefix, the outer of a class is looked for around the code. -/
theorem encloses_of_outerInstance {type : ClassRef} (bare : type.path = .bare) {o : Outcome}
    (h : (liftM (Query.outerInstance type ⟨a, c⟩ source) : Plan Outcome).EndsQuietly p n s o t) :
    t.Encloses p a c (p.classAround type.cls) o.value := by
  have unqualified : type.isQualified = false := by
    rw [ClassRef.isQualified, bare]
    decide
  rw [EndsQuietly, ends_ask] at h
  cases n with
  | zero => exact absurd h.1 Query.ends_zero
  | succ n =>
    rw [Query.ends_succ, Query.plan, outerInstance, unqualified] at h
    obtain ⟨w, u, hw, hret⟩ := EndsQuietly.of_bind h
    obtain ⟨rfl, rfl⟩ := endsQuietly_pure.1 hret
    exact .of_ends hw

theorem places_of_prepareParent (type : ClassRef) (bare : type.path = .bare)
    {ctor : Option SymbolId} {args : List ArgValue} {r : List SafetyError × Option ParentCall}
    (h : (prepareParent p c a type ctor args source).EndsQuietly p n s r t) :
    t.Places p a c type.cls := by
  obtain ⟨o, u, houter, h⟩ := h.of_bind
  obtain ⟨_, u', hset, h⟩ := h.of_bind
  obtain ⟨-, rfl⟩ := endsQuietly_pure.1 h
  obtain ⟨heap, ok, rfl⟩ := Effect.run_setOuter.1 (ends_perform.1 hset.1)
  refine ⟨o.value, ?_, (encloses_of_outerInstance bare houter).mono hset.extends⟩
  exact (Heap.outer?_of_setOuter ok ..).trans (if_pos ⟨rfl, rfl⟩)

theorem places_of_prepareListed {parent : Parent} (bare : parent.type.path = .bare)
    {r : List SafetyError × Option ParentCall}
    (h : (prepareListed p c a parent).EndsQuietly p n s r t) :
    t.Places p a c parent.type.cls := by
  obtain ⟨⟨_, args⟩, u, -, h⟩ := h.of_bind
  obtain ⟨_, t', hprepared, h⟩ := h.of_bind
  obtain ⟨-, rfl⟩ := endsQuietly_pure.1 h
  exact places_of_prepareParent parent.type bare hprepared

theorem places_of_prepareMixin {superClass : Parent} {listed : List Parent}
    (bare : ∀ parent ∈ listed, parent.type.cls = x → parent.type.path = .bare)
    {r : List SafetyError × Option ParentCall}
    (h : (prepareMixin p c a superClass listed x).EndsQuietly p n s r t) : t.Places p a c x := by
  unfold prepareMixin at h
  split at h
  next parent found =>
    have hcls : parent.type.cls = x := by simpa using List.find?_some found
    rw [← hcls]
    exact places_of_prepareListed (bare parent (List.mem_of_find?_eq_some found) hcls) h
  next => exact places_of_prepareParent ⟨.bare, x⟩ rfl h

section Templates

variable {q : Program}

theorem places_of_initParents (coherent : q.Coherent) {T : Template}
    (hT : (q.finish.cls c).template = some T) (calls : q.finish.Calls c x)
    (bare : q.finish.ListsBare c x) {es : List SafetyError}
    (h : (initParents q.finish c a T.parents).EndsQuietly q.finish n s es t) :
    t.Places q.finish a c x := by
  obtain ⟨-, superClass, hsuper, hx⟩ := calls
  obtain ⟨first, listed, hparents, rfl⟩ := exists_listed coherent hT hsuper
  have bare := bare T hT
  rw [hparents] at bare h
  obtain ⟨r, u, hfirst, h⟩ := h.of_bind
  obtain ⟨rs, u', hmixins, h⟩ := h.of_bind
  rcases hx with rfl | hmixin
  · have placed := places_of_prepareListed (bare first List.mem_cons_self rfl) hfirst
    exact placed.mono (hmixins.extends.trans h.extends)
  · obtain ⟨r', v, v', hprepared, ext⟩ := hmixins.of_mem_mapM hmixin
    have placed := places_of_prepareMixin
      (fun parent hparent => bare parent (List.mem_cons_of_mem first hparent)) hprepared
    exact placed.mono (ext.trans h.extends)

/-- The template of a class records the outers of the parents that it initializes. Those that it
    lists without prefix or not at all belong to the instances around its own code. -/
theorem places_of_template (coherent : q.Coherent) (source : (q.finish.cls c).hasSource = true)
    (calls : q.finish.Calls c x) (bare : q.finish.ListsBare c x) {o : Outcome}
    (h : (template q.finish c a).EndsQuietly q.finish n s o t) : t.Places q.finish a c x := by
  obtain ⟨T, hT⟩ := Option.isSome_iff_exists.1 source
  rw [template_of_source hT, calls.1, if_neg Bool.false_ne_true] at h
  obtain ⟨_, u, -, h⟩ := h.of_bind
  obtain ⟨_, v, hinit, h⟩ := h.of_bind
  exact (places_of_initParents coherent hT calls bare hinit).mono h.extends

end Templates

end Plan

/-! ## Templates that are run -/

/-- On the way of the question, the template of the class is run on the object. -/
def Query.Runs (p : Program) (q : Query β) (s : Store) (a : Addr) (c : ClassId) : Prop :=
  ∃ active t, q.Way p s active (.template c a) t

section Runs

variable {q : Query β} {r : Query γ} {active : List Cache.Key} {e : ExprId} {frame : Frame}
  {final : Bool} {s' t' : Store}

/-- A template is run when its expression is evaluated for the first time. -/
theorem Query.Way.runs (way : q.Way p s active (.eval e frame final) t)
    (miss : t.cache.find? frame.receiver e = none) (hnode : (p.expr e).node = .template c) :
    q.Runs p s frame.receiver c := by
  have asks : ((Query.eval e frame final).plan p).Asks p t (.template c frame.receiver)
      { (Scope.evaluation frame.receiver e final).enter t with
        trace := t.trace.add (p.expr e).span } := by
    refine .eval miss (.calledFrom ?_)
    rw [Plan.node, hnode]
    exact .here
  exact ⟨_, _, way.asked asks⟩

/-- The evaluations in progress started where there was no value. -/
theorem Query.Way.started (way : q.Way p s active r t) {key : Cache.Key} (h : key ∈ active) :
    ∃ active' frame final u, q.Way p s active' (.eval key.expr frame final) u ∧
      frame.receiver = key.receiver ∧ u.cache.find? frame.receiver key.expr = none := by
  obtain ⟨active', c, final, u, before, _, _, _, _, hasks, -⟩ := way.exists_evaluation h
  exact ⟨active', ⟨key.receiver, c⟩, final, u, before, rfl, (Plan.asks_eval hasks).1⟩

/-- If the template of a class is in the cache after a question on the way, it was run. -/
theorem Query.Way.runs_of_cached (way : q.Way p s active r t) {b : β}
    (h : q.Answered p s b s') {g : γ} (hr : r.Answered p t g t')
    (fresh : s.cache.find? a e = none) (cached : (t'.cache.find? a e).isSome)
    (hnode : (p.expr e).node = .template c) : q.Runs p s a c := by
  obtain ⟨n, h⟩ := h
  obtain ⟨m, g', t'', hr', stays⟩ := way.cache_after h
  obtain ⟨rfl, rfl⟩ := Query.Answered.unique hr ⟨m, hr'⟩
  obtain ⟨v, hv⟩ := Option.isSome_iff_exists.1 cached
  rcases stays a e v hv with inProgress | kept
  · obtain ⟨active', frame, final, u, way', rfl, miss⟩ := way.started inProgress
    exact way'.runs miss hnode
  · obtain ⟨active', c', u, o, u', way', miss, -⟩ := h.new_entry fresh kept
    exact way'.runs miss hnode

end Runs

namespace Plan

/-- What one element of a list asks is asked all in all. -/
theorem asks_errorsOfEach_of_mem {f : α → Plan (List SafetyError)} {xs : List α} {y : α}
    (hy : y ∈ xs) {es : List SafetyError} (h : (errorsOfEach xs f).Ends p n s es t) :
    ∃ u, ∀ {γ : Type} {r : Query γ} {v}, (f y).Asks p u r v →
      (errorsOfEach xs f).Asks p s r v := by
  induction xs generalizing s es with
  | nil => cases hy
  | cons x xs ih =>
    obtain ⟨es₁, u, es₂, hx, hxs, -⟩ := ends_errorsOfEach_cons.1 h
    rw [errorsOfEach_cons]
    rcases List.mem_cons.1 hy with rfl | hy
    · exact ⟨s, fun asks => asks.bind_left⟩
    · obtain ⟨u', asks⟩ := ih hy hxs
      exact ⟨u', fun h => .bind_right hx (asks h).bind_left⟩

variable {q : Program}

/-- The template of a class calls the constructors of the parents that it initializes. -/
theorem exists_asks_construct (coherent : q.Coherent) (source : (q.finish.cls c).hasSource = true)
    (calls : q.finish.Calls c d) (source' : (q.finish.cls d).hasSource = true) {ctor : SymbolId}
    (hctor : (q.finish.cls d).primaryConstructor = some ctor) {o : Outcome}
    (h : (template q.finish c a).Ends q.finish n s o t) :
    ∃ args at' u,
      (template q.finish c a).Asks q.finish s (.construct (.ref a) ctor args at') u := by
  obtain ⟨noTrait, superClass, hsuper, hd⟩ := calls
  obtain ⟨T, hT⟩ := Option.isSome_iff_exists.1 source
  obtain ⟨first, listed, hparents, rfl⟩ := exists_listed coherent hT hsuper
  rw [template_of_source hT, noTrait, if_neg Bool.false_ne_true, hparents] at h ⊢
  obtain ⟨_, u, hparams, h⟩ := ends_bind.1 h
  obtain ⟨_, u', hinit, -⟩ := ends_bind.1 h
  obtain ⟨r, v, hfirst, hinit⟩ := ends_bind.1 hinit
  obtain ⟨rs, v', hmixins, hinit⟩ := ends_bind.1 hinit
  obtain ⟨_, _, hcalls, -⟩ := ends_bind.1 hinit
  obtain ⟨call, hmem, rfl⟩ := exists_call coherent hT hparents hd source' hctor hfirst hmixins
  obtain ⟨w, asks⟩ := asks_errorsOfEach_of_mem hmem hcalls
  refine ⟨call.args, call.source, w, .bind_right hparams (.bind_left ?_)⟩
  exact .bind_right hfirst (.bind_right hmixins (asks (Asks.here.bind_left)).bind_left)

end Plan

/-! ## The chain of super classes -/

namespace Program

/-- The class inherits from `b`, and its super class does not. -/
def Introduces (p : Program) (c b : ClassId) : Prop :=
  b ∈ (p.cls c).linearization ∧ ∀ d, p.IsSuperClass c d → b ∉ (p.cls d).linearization

/-- The class and its super classes, as far as they inherit from `b`, are no traits and have
    templates. -/
def BuildsUp (p : Program) (c b : ClassId) : Prop :=
  ∀ d, Relation.ReflTransGen p.IsSuperClass c d → b ∈ (p.cls d).linearization →
    (p.cls d).isTrait = false ∧ ∃ e, p.IsTemplateOf e d

variable {q : Program}

/-- A class with bases is in the table. -/
theorem index_lt_of_base (h : x ∈ (q.finish.cls c).linearization) : c.index < q.classes.size := by
  by_contra hc
  rw [cls_of_size_le (by rw [size_finish]; omega)] at h
  cases h

/-- What a class inherits from is introduced by the class or by one of its super classes. -/
theorem exists_introduces (acyclic : q.finish.Acyclic)
    (hb : b ∈ (q.finish.cls c).linearization) :
    ∃ d, Relation.ReflTransGen q.finish.IsSuperClass c d ∧ q.finish.Introduces d b := by
  induction c using acyclic.induction with
  | _ c ih =>
    by_cases above : ∃ d, q.finish.IsSuperClass c d ∧ b ∈ (q.finish.cls d).linearization
    · obtain ⟨d, hd, hbd⟩ := above
      obtain ⟨e, chain, introduces⟩ := ih d hd.isParent hbd
      exact ⟨e, .head hd chain, introduces⟩
    · exact ⟨c, .refl, hb, fun d hd hbd => above ⟨d, hd, hbd⟩⟩

/-- Every base but the class itself is a parent of a base. -/
theorem Coherent.exists_child (coherent : q.Coherent) (acyclic : q.finish.Acyclic)
    (hx : x ∈ (q.finish.cls c).linearization) (hne : x ≠ c) :
    ∃ d ∈ (q.finish.cls c).linearization, q.finish.IsParent d x := by
  have hc := index_lt_of_base hx
  rcases Relation.ReflTransGen.cases_tail
      ((mem_linearization_iff coherent acyclic hc).1 hx) with rfl | ⟨d, hd, hparent⟩
  · exact absurd rfl hne
  · exact ⟨d, (mem_linearization_iff coherent acyclic hc).2 hd, hparent⟩

namespace Introduces

variable (coherent : q.Coherent) (acyclic : q.finish.Acyclic)
include coherent acyclic

/-- A class that is no trait initializes the traits that it introduces. -/
theorem calls (introduces : q.finish.Introduces c b) (noTrait : (q.finish.cls c).isTrait = false)
    (hne : b ≠ c) : q.finish.Calls c b := by
  have bases := introduces.1
  cases hsuper : (q.finish.cls c).superClass with
  | none =>
    rw [linearization_finish acyclic (index_lt_of_base bases), List.head?_eq_none_iff.1 hsuper]
      at bases
    exact absurd (List.mem_singleton.1 bases) hne
  | some d =>
    rw [coherent.linearization_eq acyclic hsuper, List.mem_cons, List.mem_append,
      List.mem_reverse] at bases
    rcases bases with rfl | mixin | inherited
    · exact absurd rfl hne
    · exact ⟨noTrait, d, hsuper, .inr mixin⟩
    · exact absurd inherited (introduces.2 d hsuper)

/-- It also initializes their parents, unless these are inherited in another way, too. -/
theorem calls_parent (introduces : q.finish.Introduces c b)
    (noTrait : (q.finish.cls c).isTrait = false) (parent : q.finish.IsParent b x)
    (alone : ∀ y ∈ (q.finish.cls c).linearization, q.finish.IsParent y x → y = b) :
    q.finish.Calls c x := by
  have hc := index_lt_of_base introduces.1
  have above := (mem_linearization_iff coherent acyclic hc).1 introduces.1
  by_cases inherited : ∃ d, q.finish.IsSuperClass c d ∧ x ∈ (q.finish.cls d).linearization
  · obtain ⟨d, hd, hx⟩ := inherited
    by_cases hne : x = d
    · exact ⟨noTrait, d, hd, .inl hne⟩
    · obtain ⟨y, hy, hyx⟩ := coherent.exists_child acyclic hx hne
      have hyc := linearization_subset_of_chain acyclic (.single hd) hy
      exact absurd (alone y hyc hyx ▸ hy) (introduces.2 d hd)
  · have bases := (mem_linearization_iff coherent acyclic hc).2 (above.tail parent)
    have own : q.finish.Introduces c x := ⟨bases, fun d hd hx => inherited ⟨d, hd, hx⟩⟩
    refine own.calls coherent acyclic noTrait fun same => ?_
    exact acyclic b (.head' parent (same ▸ above))

end Introduces

end Program

section Chain

variable {q : Program} {r : Query β} {g : β} {s' : Store}

/-- Where the template of a class is run, the templates of the parents are run that it calls. -/
theorem Query.Runs.calls (coherent : q.Coherent) (h : r.Answered q.finish s g s')
    (fresh : ∀ e, s.cache.find? a e = none) (source : (q.finish.cls c).hasSource = true)
    (runs : r.Runs q.finish s a c) (calls : q.finish.Calls c d) {e : ExprId}
    (template : q.finish.IsTemplateOf e d) : r.Runs q.finish s a d := by
  obtain ⟨active, t, way⟩ := runs
  obtain ⟨source', ctor, hctor, hbody, hnode⟩ := template
  obtain ⟨o, t', ⟨n, ht⟩, -⟩ := way.after Store.Grows.advances h
  cases n with
  | zero => exact absurd ht Query.ends_zero
  | succ n =>
    obtain ⟨args, at', u, asks⟩ :=
      Plan.exists_asks_construct coherent source calls source' hctor (Query.ends_succ.1 ht)
    have way' := way.asked asks
    obtain ⟨o', u', ⟨m, hu⟩, -⟩ := way'.after Store.Grows.advances h
    have primary := (coherent.constructors d ctor (by
      rwa [Program.primaryConstructor_finish] at hctor)).2.2.1
    exact way'.runs_of_cached h ⟨m, hu⟩ (fresh e) (Plan.cached_of_construct hbody primary hu) hnode

/-- The templates of the super classes are run with that of a class. -/
theorem Query.Runs.chain (coherent : q.Coherent) (acyclic : q.finish.Acyclic)
    (h : r.Answered q.finish s g s') (fresh : ∀ e, s.cache.find? a e = none)
    (builds : q.finish.BuildsUp c b) (runs : r.Runs q.finish s a c)
    (chain : Relation.ReflTransGen q.finish.IsSuperClass c d)
    (hb : b ∈ (q.finish.cls d).linearization) : r.Runs q.finish s a d := by
  induction chain with
  | refl => exact runs
  | @tail d e hcd hde ih =>
    have hbd := Program.linearization_subset_of_chain acyclic (.single hde) hb
    obtain ⟨noTrait, _, template⟩ := builds d hcd hbd
    obtain ⟨-, _, template'⟩ := builds e (hcd.tail hde) hb
    exact (ih hbd).calls coherent h fresh template.1 ⟨noTrait, e, hde, .inl rfl⟩ template'

end Chain

/-! ## Outers that agree -/

section Agree

variable {q : Program}

/-- A class is not around itself, unless it is a package. -/
theorem Program.Assembled.classAround_ne (assembled : q.Assembled)
    (noPackage : q.finish.isPackage (q.finish.classAround c) = false) :
    q.finish.classAround c ≠ c := by
  intro same
  by_cases root : c = .root
  · rw [same, root, assembled.built.coherent.root_finish] at noPackage
    cases noPackage
  · have around := (assembled.scoped.classes c).around root
    rw [Program.classAround, Program.owner_finish] at same
    rw [same] at around
    exact Nat.lt_irrefl _ around

/-- A template that runs without reports records the same outer for what its class introduces as for
    a parent of this, if the class lists the former without prefix, it lists the latter without
    prefix, and nothing else lists that. -/
theorem Plan.outers_of_template (assembled : q.Assembled) (acyclic : q.finish.Acyclic)
    (noTrait : (q.finish.cls d).isTrait = false) (source : (q.finish.cls d).hasSource = true)
    (introduces : q.finish.Introduces d b) (unprefixed : q.finish.ListsBare d b)
    (parent : q.finish.IsParent b x) (bare : q.finish.ListsBare b x)
    (alone : ∀ y ∈ (q.finish.cls d).linearization, q.finish.IsParent y x → y = b)
    (around : q.finish.classAround x = q.finish.classAround b)
    (noPackage : q.finish.isPackage (q.finish.classAround b) = false) {o : Outcome}
    (h : (template q.finish d a).EndsQuietly q.finish n s o t) :
    ∃ w, t.heap.outer? a b = some w ∧ t.heap.outer? a x = some w := by
  have coherent := assembled.built.coherent
  have listed : q.finish.ListsBare d x := by
    by_cases hdx : q.finish.IsParent d x
    · have self := Program.mem_linearization_self acyclic
        (Program.index_lt_of_base introduces.1)
      rwa [alone d self hdx]
    · exact coherent.listsBare_of_not_parent hdx
  obtain ⟨w, outer, encloses⟩ := Plan.places_of_template coherent source
    (introduces.calls_parent coherent acyclic noTrait parent alone) listed h
  refine ⟨w, ?_, outer⟩
  rw [around] at encloses
  by_cases hne : b = d
  · subst hne
    exact encloses.outer (assembled.classAround_ne noPackage) noPackage
  · obtain ⟨w', outer', encloses'⟩ := Plan.places_of_template coherent source
      (introduces.calls coherent acyclic noTrait hne) unprefixed h
    rw [outer', encloses'.unique encloses]

/-- Suppose that the check of a class ends without a report and that the template of a class `k`,
    which inherits from `b`, ran on the object at `a`. Let `x` be a parent that `b` lists without
    prefix and that no other base of `k` lists, in the same class as `b` and in no package. If the
    class on the chain of super classes that introduces `b` does not list it with a prefix, then the
    same outer is recorded on the object for `b` and for `x`. -/
theorem Query.outers_agree (assembled : q.Assembled) (acyclic : q.finish.Acyclic) {k : ClassId}
    {es : List SafetyError} (h : (Query.check c).Answered q.finish .initial es t)
    (quiet : t.diagnostics = []) {e : ExprId} (template : q.finish.IsTemplateOf e k)
    (ran : (t.cache.find? a e).isSome) (builds : q.finish.BuildsUp k b)
    (inherits : b ∈ (q.finish.cls k).linearization)
    (unprefixed : ∀ d, Relation.ReflTransGen q.finish.IsSuperClass k d →
      q.finish.Introduces d b → q.finish.ListsBare d b)
    (parent : q.finish.IsParent b x) (bare : q.finish.ListsBare b x)
    (alone : ∀ y ∈ (q.finish.cls k).linearization, q.finish.IsParent y x → y = b)
    (around : q.finish.classAround x = q.finish.classAround b)
    (noPackage : q.finish.isPackage (q.finish.classAround b) = false) :
    ∃ w, t.heap.outer? a b = some w ∧ t.heap.outer? a x = some w := by
  have coherent := assembled.built.coherent
  have fresh (g : ExprId) : Store.initial.cache.find? a g = none := rfl
  have ⟨_, _, _, _, hnode⟩ := template
  have runs : (Query.check c).Runs q.finish .initial a k :=
    Query.Way.start.runs_of_cached h h (fresh e) ran hnode
  obtain ⟨d, chain, introduces⟩ := Program.exists_introduces acyclic inherits
  obtain ⟨noTrait, _, source, -⟩ := builds d chain introduces.1
  obtain ⟨active, u, way⟩ := runs.chain coherent acyclic h fresh builds chain introduces.1
  obtain ⟨o, u', ⟨n, hu⟩, later⟩ := way.after Store.Grows.advances h
  cases n with
  | zero => exact absurd hu Query.ends_zero
  | succ n =>
    have started := (hu.persists Store.Grows.advances.persists).diagnostics
    have reported := later.diagnostics
    rw [quiet, List.prefix_nil] at reported
    rw [reported, List.prefix_nil] at started
    have quietly : (Plan.template q.finish d a).EndsQuietly q.finish n u o u' :=
      ⟨hu, reported.trans started.symm⟩
    have below := Program.linearization_subset_of_chain acyclic chain
    obtain ⟨w, hb, hx⟩ := Plan.outers_of_template assembled acyclic noTrait source introduces
      (unprefixed d chain introduces) parent bare (fun y hy => alone y (below hy)) around noPackage
      quietly
    exact ⟨w, later.heap.outer hb, later.heap.outer hx⟩

end Agree

/-- The conditions on the chain of super classes can be tested. -/
theorem Program.BuildsUp.of_superClasses (n : Nat)
    (closed : ∀ d ∈ p.superClasses n c, ∀ e ∈ (p.cls d).superClass, e ∈ p.superClasses n c)
    (builds : ∀ d ∈ p.superClasses n c, b ∈ (p.cls d).linearization →
      (p.cls d).isTrait = false ∧ ∃ e ∈ p.exprIds, p.IsTemplateOf e d) : p.BuildsUp c b := by
  intro d chain hb
  obtain ⟨noTrait, e, -, template⟩ := builds d ((chain_iff_mem_superClasses closed d).1 chain) hb
  exact ⟨noTrait, e, template⟩

/-- A class `D` with traits `B` and `A`, which extends `B`, and a class `E`. In `E` there are a
    class `S` that extends `A`, and `K` that extends `S`. An `E` is created in `D` and a `K` in
    `E`. -/
def nestedTraits : Program := .assemble [
  .defineClass "D" .package .none true,
  .defineClass "B" (.cls ⟨4⟩) (.ofList [.trait]) true,
  .defineClass "A" (.cls ⟨4⟩) (.ofList [.trait]) true,
  .extend ⟨6⟩ ⟨.bare, ⟨5⟩⟩ [],
  .defineClass "E" (.cls ⟨4⟩) .none true,
  .defineClass "S" (.cls ⟨7⟩) .none true,
  .extend ⟨8⟩ ⟨.bare, .object⟩ [],
  .extend ⟨8⟩ ⟨.bare, ⟨6⟩⟩ [],
  .defineClass "K" (.cls ⟨7⟩) .none true,
  .extend ⟨9⟩ ⟨.bare, ⟨8⟩⟩ [],
  .defineField ⟨7⟩ "k" .value,
  .newInstanceWith ⟨.thisOf ⟨7⟩, ⟨9⟩⟩ ⟨19⟩ [],
  .setBody ⟨20⟩ ⟨12⟩,
  .defineField ⟨4⟩ "e" .value,
  .newInstanceWith ⟨.thisOf ⟨4⟩, ⟨7⟩⟩ ⟨17⟩ [],
  .setBody ⟨21⟩ ⟨14⟩]

/-- The check of `D` records the same outer for `A` and `B` on the `K`. -/
theorem Query.outers_agree_nestedTraits :
    ∃ es t w, (Query.check ⟨4⟩).Answered nestedTraits.finish .initial es t ∧
      t.diagnostics = [] ∧ t.heap.outer? (.warm ⟨⟨9⟩, 1⟩) ⟨6⟩ = some w ∧
      t.heap.outer? (.warm ⟨⟨9⟩, 1⟩) ⟨5⟩ = some w := by
  obtain ⟨es, h, -⟩ := Query.answered_of_result? (fun _ => true)
    (p := nestedTraits.finish) (n := 30) (s := .initial) (q := .check ⟨4⟩) (by decide +kernel)
  have acyclic : nestedTraits.finish.Acyclic :=
    Program.acyclic_of_rank (fun c => [0, 0, 1, 2, 2, 2, 3, 2, 4, 5].getD c.index 0)
      (by decide +kernel)
  have closed : ∀ d ∈ nestedTraits.finish.superClasses 5 ⟨9⟩,
      ∀ e ∈ (nestedTraits.finish.cls d).superClass,
        e ∈ nestedTraits.finish.superClasses 5 ⟨9⟩ := by decide +kernel
  have unprefixed : ∀ d ∈ nestedTraits.finish.superClasses 5 ⟨9⟩,
      nestedTraits.finish.ListsBare d ⟨6⟩ := by decide +kernel
  have template : nestedTraits.finish.IsTemplateOf ⟨10⟩ ⟨9⟩ := by decide +kernel
  have quiet : ((Query.check ⟨4⟩).storeAfter nestedTraits.finish 30 .initial).diagnostics = [] := by
    decide +kernel
  obtain ⟨w, outer, outer'⟩ := Query.outers_agree (a := .warm ⟨⟨9⟩, 1⟩) (b := ⟨6⟩) (x := ⟨5⟩)
    (Program.assembled_assemble _) acyclic h quiet template (by decide +kernel)
    (.of_superClasses 5 closed (by decide +kernel)) (by decide +kernel)
    (fun d chain _ => unprefixed d ((Program.chain_iff_mem_superClasses closed d).1 chain))
    (by decide +kernel) (by decide +kernel) (by decide +kernel) (by decide +kernel)
    (by decide +kernel)
  exact ⟨es, _, w, h, quiet, outer, outer'⟩

/-- A class `C` with a class `D`, a field `x` with a `D`, and a class `K`. In `D` there are traits
    `B` and `A`, which extends `B`. The class `K` extends `x.A`, and `C` creates a `K`. -/
def traitOfField : Program := .assemble [
  .defineClass "C" .package .none true,
  .defineClass "D" (.cls ⟨4⟩) .none true,
  .defineClass "B" (.cls ⟨5⟩) (.ofList [.trait]) true,
  .defineClass "A" (.cls ⟨5⟩) (.ofList [.trait]) true,
  .extend ⟨7⟩ ⟨.bare, ⟨6⟩⟩ [],
  .defineClass "K" (.cls ⟨4⟩) .none true,
  .defineField ⟨4⟩ "x" .value,
  .newInstanceWith ⟨.thisOf ⟨4⟩, ⟨5⟩⟩ ⟨15⟩ [],
  .setBody ⟨19⟩ ⟨10⟩,
  .extend ⟨8⟩ ⟨.member (.thisOf ⟨4⟩) ⟨19⟩, ⟨7⟩⟩ [],
  .defineField ⟨4⟩ "k" .value,
  .newInstanceWith ⟨.thisOf ⟨4⟩, ⟨8⟩⟩ ⟨18⟩ [],
  .setBody ⟨20⟩ ⟨12⟩]

/-- The outer that is recorded for `A` is the `D` in `x`. But `B` is not listed by `K`, so its outer
    is looked for around the code of `K`, where there is no `D`: it is taken to be hot. -/
theorem Query.outers_differ :
    traitOfField.finish.Acyclic ∧ (traitOfField.finish.cls ⟨8⟩).isTrait = false ∧
      (∀ b ∈ [⟨6⟩, ⟨7⟩], b ∈ (traitOfField.finish.cls ⟨8⟩).linearization ∧
        (traitOfField.finish.cls b).hasSource) ∧
      traitOfField.finish.IsParent ⟨7⟩ ⟨6⟩ ∧ traitOfField.finish.ListsBare ⟨7⟩ ⟨6⟩ ∧
      (∀ b ∈ (traitOfField.finish.cls ⟨8⟩).linearization,
        traitOfField.finish.IsParent b ⟨6⟩ → b = ⟨7⟩) ∧
      traitOfField.finish.classAround ⟨6⟩ = ⟨5⟩ ∧ traitOfField.finish.classAround ⟨7⟩ = ⟨5⟩ ∧
      traitOfField.finish.isPackage ⟨5⟩ = false ∧
      ∃ es t, (Query.check ⟨4⟩).Answered traitOfField.finish .initial es t ∧
        t.diagnostics = [] ∧
        (∃ e, traitOfField.finish.IsTemplateOf e ⟨8⟩ ∧
          (t.cache.find? (.warm ⟨⟨8⟩, 1⟩) e).isSome) ∧
        t.heap.outer? (.warm ⟨⟨8⟩, 1⟩) ⟨7⟩ = some (.ref (.warm ⟨⟨5⟩, 0⟩)) ∧
        t.heap.outer? (.warm ⟨⟨8⟩, 1⟩) ⟨6⟩ = some .hot := by
  obtain ⟨es, h, -⟩ := Query.answered_of_result? (fun _ => true)
    (p := traitOfField.finish) (n := 30) (s := .initial) (q := .check ⟨4⟩) (by decide +kernel)
  have acyclic : traitOfField.finish.Acyclic :=
    Program.acyclic_of_rank (fun c => [0, 0, 1, 2, 2, 2, 2, 3, 4].getD c.index 0)
      (by decide +kernel)
  exact ⟨acyclic, by decide +kernel, by decide +kernel, by decide +kernel, by decide +kernel,
    by decide +kernel, by decide +kernel, by decide +kernel, by decide +kernel, es, _, h,
    by decide +kernel, ⟨⟨8⟩, by decide +kernel, by decide +kernel⟩, by decide +kernel,
    by decide +kernel⟩

end ObjectInit
