import ObjectInit.Proofs.Filling
import ObjectInit.Proofs.Order

/-!
# What the heap refuses

In the analysis of a disciplined program whose slots are apportioned, the heap refuses no change: a
template that is evaluated finds its slots unfilled, since it is evaluated once on each object and
nothing else fills them. So the check of a class ends with a result.

The conditions are needed. Where a class mixes in another class, where a constructor is called on an
object of an unrelated class, or where `new` uses the constructor of another class, an outer may be
recorded twice.

Main results:

* `Regime.filling_kept`: the plans of all questions change the heap in ways that it does not refuse.
* `Query.answered_of_check`: the check of a class comes to an end with a result.
-/

namespace ObjectInit

open Regime

variable {p : Program} {this : Addr} {c : ClassId} {s : Store}

namespace Plan

/-! ## Questions about templates -/

section

variable (lawful : ∀ except, (sparing p except).Lawful) (hp : p.Disciplined)

include lawful hp in
/-- A template that was not begun finds its slots unfilled. -/
theorem carries_evalTemplate (apportions : p.Apportions) {e : ExprId} {frame : Frame} {final : Bool}
    (ready : (sparing p ∅).Ready s) (admits : (sparing p ∅).Admits s.memory (.eval e frame final))
    (node : (p.expr e).node = .template c) :
    (sparing p ∅).Carries ((unrefused p).only fun _ _ => True) (Plan.eval p e frame final) s
      fun o m => (sparing p ∅).Fits m (if final then 0 else (sparing p ∅).bound e) o.value := by
  obtain ⟨receiver, body, code⟩ := admits
  have templates (b : Bool) : ¬p.IsCode b e frame.cls := fun code => hp.templates b e _ c code node
  obtain ⟨template, initializes⟩ : p.IsTemplateOf e frame.cls ∧
      p.InitializesAt frame.receiver frame.cls := by
    rcases body with ⟨b, code, -⟩ | h
    · exact absurd code (templates b)
    · exact h
  obtain rfl : frame.cls = c := by
    obtain ⟨_, -, -, node'⟩ := template.2
    rw [node] at node'
    exact (Node.template.inj node').symm
  refine obeys_eval (fun v hit => ?_) fun miss => ?_
  · have fits := (lawful ∅).cached _ _ e v ready.inv hit
    exact ⟨.refl (lawful ∅) ready.inv, rfl, fits.of_zero (lawful ∅)⟩
  have fresh : ¬s.memory.Begun p frame.receiver frame.cls := by
    rintro ⟨g, template', cached⟩
    rw [template'.expr_unique template, Store.memory, miss] at cached
    cases cached
  obtain ⟨rel, inv⟩ := (lawful ∅).enter s.memory e frame ready.inv receiver body miss
  have entered := Memory.extends_enter (m := s.memory) miss
  have awaits : Store.Awaits p frame.receiver frame.cls (p.slotsOf frame.cls)
      { s with
        cache := s.cache.insert frame.receiver e .hot, trace := s.trace.add (p.expr e).span } := by
    refine ⟨⟨inv, ready.env.mono (lawful ∅) entered rel⟩, receiver,
      ⟨e, template, ?_⟩, fun _ h => h, apportions.nodup _, fun x hx filled => ?_⟩
    · change ((s.memory.enter frame.receiver e).cache.find? frame.receiver e).isSome
      rw [Memory.find?_enter, if_pos ⟨rfl, rfl⟩]
      rfl
    · -- What is filled on the object was filled by another template.
      rcases ready.inv.2.filler frame.receiver x filled with rfl | ⟨d, begun, hd⟩
      · exact apportions.own _ _ initializes hx
      · rw [apportions.unique _ d _ x (ready.inv.2.begun _ d begun) initializes hd hx] at begun
        exact fresh begun
  unfold Plan.node
  rw [node]
  refine obeys_askTemplate (by simp [Query.kind]) awaits
    fun o t run post => ?_
  obtain ⟨n, ends⟩ := run
  obtain ⟨spares, inv', value⟩ := post
  have ext : (s.memory.enter frame.receiver e).Extends t.memory := ends.keeps.memory
  have fits (except : Set (Addr × ClassId)) (m : Memory) (heap : m.heap = t.heap) (B : Nat) :
      (sparing p except).Fits m B o.value := by
    rw [value]
    apply Fits.ref
    show m.heap.Has frame.receiver
    rw [heap]
    exact receiver.mono ext.heap
  obtain ⟨left, inv'', -⟩ := (lawful {(frame.receiver, frame.cls)}).leave s.memory t.memory e frame
    final 0 o.value ready.inv receiver body code miss ext spares inv' (fits _ _ rfl 0)
    (.inl (Program.index_lt_of_node (by simp [node]))) (by simp [node])
  refine ⟨⟨Memory.extends_leave miss ext final o.value, ends.keeps.trusted, ⟨left.begun, ?_⟩,
    inv''⟩, ends.env, fits _ _ rfl _⟩
  intro a d x begun _
  refine left.spared a d x begun ?_
  rintro ⟨rfl, rfl⟩
  exact fresh begun

end

variable {q : Program} (lawful : ∀ except, (sparing q.finish except).Lawful)
  (apportions : q.finish.Apportions) (coherent : q.Coherent) (hp : q.finish.Disciplined)

include lawful apportions coherent hp in
/-- The template of a class fills all its slots. -/
theorem obeys_template (awaits : s.Awaits q.finish this c (q.finish.slotsOf c)) :
    (template q.finish c this).Obeys q.finish ((unrefused q.finish).only fun _ _ => True) s
      ((filling q.finish).post (.template c this) s) := by
  obtain ⟨e, ⟨source, -⟩, -⟩ := awaits.begun
  obtain ⟨T, ht⟩ := Option.isSome_iff_exists.1 source
  rw [Program.slotsOf, if_pos source] at awaits
  rw [template_of_source ht]
  refine obeys_bind.2 (Obeys.imp (fills_setParams lawful apportions awaits)
    fun _ t h => ?_)
  obtain ⟨params, awaits', -⟩ := h
  have parents : (if (q.finish.cls c).isTrait then Pure.pure []
      else initParents q.finish c this T.parents : Plan _).Fills q.finish
        ((unrefused q.finish).only fun _ _ => True) this c (q.finish.bodySlots c) t
        fun _ _ => True := by
    cases trait : (q.finish.cls c).isTrait with
    | true =>
      have none : q.finish.recorded c = [] := by
        rw [Program.recorded, trait]
        split <;> rfl
      rw [none] at awaits'
      exact .pure lawful awaits' trivial
    | false => exact fills_initParents lawful apportions coherent hp ht trait awaits'
  refine obeys_bind.2 (Obeys.imp parents fun es u h => ?_)
  obtain ⟨called, awaits'', -⟩ := h
  refine obeys_bind.2 (obeys_askTemplate (by simp [Query.kind]) awaits'' fun es' v _ h => ?_)
  obtain ⟨spares, inv⟩ := h
  exact ⟨params.rel.trans (called.rel.trans spares), inv, rfl⟩

end Plan

section

variable {q : Program} (lawful : ∀ except, (sparing q.finish except).Lawful)
  (apportions : q.finish.Apportions) (coherent : q.Coherent) (hp : q.finish.Disciplined)

include lawful apportions coherent hp in
/-- The plans of all questions change the heap in ways that it does not refuse. -/
theorem Regime.filling_kept : (unrefused q.finish).Kept q.finish Query.Free := by
  refine (lawful ∅).kept (fun r s general ready admits => ?_) fun r s large awaits => ?_
  · refine (lawful ∅).nests general ?_
    cases r with
    | eval e frame final =>
      exact fun c node => Plan.carries_evalTemplate lawful hp apportions ready admits node
    | _ => trivial
  · cases r with
    | template c this => exact Plan.obeys_template lawful apportions coherent hp awaits
    | body c this =>
      exact Plan.Obeys.imp (Plan.fills_body lawful apportions awaits) fun _ _ h =>
        ⟨h.1.rel, h.1.inv⟩
    | check => exact awaits.elim
    | _ => exact absurd large (by simp [Query.kind])

end

/-! ## The check of a class -/

namespace Program

/-- The program is assembled of what exists, its classes inherit without cycles and from no package,
    and its class bodies define each field once. -/
structure WellFormed (q : Program) : Prop where
  assembled : q.Assembled
  acyclic : q.finish.Acyclic
  parents : ∀ c ∈ q.finish.classIds, (q.finish.cls c).parents.Nodup ∧
    ∀ d ∈ (q.finish.cls c).parents, q.finish.isPackage d = false
  templates : q.finish.HoldsTemplates
  once : q.finish.DefinesOnce

theorem Disciplined.holdsTemplates (hp : p.Disciplined) : p.HoldsTemplates :=
  ⟨hp.bodies, hp.primaries, hp.templates⟩

/-- By a table of its code, it is tested whether new objects are created by the constructors of
    their class. -/
theorem CreatesOwn.of_homes {homes : ExprId → List (Bool × ClassId)} (table : p.Homes homes)
    (test : ∀ i < p.exprs.size, homes ⟨i⟩ ≠ [] → ∀ call ∈ (p.expr ⟨i⟩).node.newCall?,
      p.homeClass call.2 = call.1) : p.CreatesOwn := by
  intro b e c type x args code node
  refine test e.index (index_lt_of_node (by rw [node]; nofun))
    (List.ne_nil_of_mem (code.mem_homes table)) (type.cls, x) ?_
  rw [node]
  rfl

end Program

variable {q : Program}

/-- The heap refuses nothing in the check of a class of a well-formed program, if constructors are
    called as they should, new objects are created by constructors of their class, and only traits
    are mixed in. So the check comes to an end with a result. -/
theorem Query.answered_of_check (wellFormed : q.WellFormed) (hp : q.finish.Disciplined)
    (creates : q.finish.CreatesOwn) (traits : q.finish.MixesTraits) (c : ClassId) :
    ∃ es t, (Query.check c).Answered q.finish .initial es t := by
  have coherent := wellFormed.assembled.built.coherent
  have apportions := Program.apportions coherent wellFormed.assembled.scoped wellFormed.acyclic
    wellFormed.once traits
  have lawful (except : Set (Addr × ClassId)) : (sparing q.finish except).Lawful :=
    sparing_lawful hp coherent.ownConstructors creates apportions
  have noRoot : ∀ d, ¬Relation.TransGen q.finish.IsParent d .root := by
    refine Program.not_ancestor_of_not_parent fun i hi listed => ?_
    have package := (wellFormed.parents ⟨i⟩ (Program.mem_classIds hi)).2 .root listed
    rw [coherent.root_finish] at package
    cases package
  have kept : (unrefused q.finish).Kept q.finish Query.Free :=
    filling_kept lawful apportions coherent hp
  have obeys : (Plan.check q.finish c).Obeys q.finish ((unrefused q.finish).only fun _ _ => True)
      .initial fun _ _ => True := by
    refine (lawful ∅).obeys_check (fun m ctor e hctor body => ?_) fun _ h ok => ?_
    · obtain ⟨source, node⟩ := hp.primaries c ctor e hctor body
      exact .inr ⟨⟨source, ctor, hctor, body, node⟩, .refl⟩
    · refine ⟨⟨called_initial.allocate .hot ok, apportioned_initial.allocate ok⟩, ?_, nofun⟩
      rw [Heap.contains, Heap.read_of_allocate ok, if_pos rfl]
      rfl
  obtain ⟨n, halts⟩ := Query.halts_of_check wellFormed.assembled noRoot c
  have ends : (unrefused q.finish).EndsWell (fun _ _ => True)
      ((answer q.finish n (.check c)).run .initial) := by
    cases n with
    | zero => trivial
    | succ n => exact Contract.Kept.run_endsWell (fun r s pre => kept.answer n pre) obeys
  cases result : (answer q.finish n (.check c)).run .initial with
  | ok r => exact ⟨r.1, r.2, n, result⟩
  | error halt =>
    rw [result] at ends halts
    cases halt with
    | fault f => exact ends.elim
    | depth => exact absurd rfl halts

/-- The check of a class that mixes in a trait, creates an object by a secondary constructor and has
    the primary one called by it. -/
theorem Query.answered_of_check_delegates : delegates.WellFormed ∧ delegates.finish.Disciplined ∧
    delegates.finish.CreatesOwn ∧ delegates.finish.MixesTraits ∧
      ∃ es t, (Query.check ⟨6⟩).Answered delegates.finish .initial es t := by
  have wellFormed : delegates.WellFormed :=
    ⟨Program.assembled_assemble _,
      Program.acyclic_of_rank (fun c => [0, 0, 1, 2, 2, 2, 3].getD c.index 0) (by decide +kernel),
      by decide +kernel, disciplined_delegates.holdsTemplates, by decide +kernel⟩
  have creates : delegates.finish.CreatesOwn := .of_homes homes_delegates (by decide +kernel)
  have traits : delegates.finish.MixesTraits := by decide +kernel
  exact ⟨wellFormed, disciplined_delegates, creates, traits,
    Query.answered_of_check wellFormed disciplined_delegates creates traits ⟨6⟩⟩

/-! ## Programs in which an outer is recorded twice -/

/-- A class `C` that extends a trait `T`, which extends a class `A`. So `C` mixes in `A`. -/
def mixesInClass : Program := .assemble [
  .defineClass "A" .package .none true,
  .defineClass "T" .package (.ofList [.trait]) true,
  .extend ⟨5⟩ ⟨.bare, ⟨4⟩⟩ [],
  .defineClass "C" .package .none true,
  .extend ⟨6⟩ ⟨.bare, ⟨5⟩⟩ []]

/-- A class `C` that calls the constructor of an unrelated class `B` on its own instances. -/
def callsUnrelated : Program := .assemble [
  .defineClass "B" .package .none true,
  .defineClass "C" .package .none true,
  .constructorCall ⟨5⟩ ⟨14⟩ [],
  .appendStat ⟨5⟩ ⟨3⟩]

/-- A class `C` with member classes `A` and `B`, where `B` extends `A`. A field of `C` is an
    instance of `A` that is created by the constructor of `B`. -/
def createsByOther : Program := .assemble [
  .defineClass "C" .package .none true,
  .defineClass "A" (.cls ⟨4⟩) .none true,
  .defineClass "B" (.cls ⟨4⟩) .none true,
  .extend ⟨6⟩ ⟨.bare, ⟨5⟩⟩ [],
  .defineField ⟨4⟩ "x" .value,
  .newInstanceWith ⟨.thisOf ⟨4⟩, ⟨5⟩⟩ ⟨16⟩ [],
  .setBody ⟨17⟩ ⟨6⟩]

theorem homes_mixesInClass : mixesInClass.finish.Homes fun _ => [] := by
  constructor <;> decide +kernel

theorem homes_callsUnrelated : callsUnrelated.finish.Homes fun e =>
    [[], [], [(false, ⟨5⟩)], [(false, ⟨5⟩)]].getD e.index [] := by
  constructor <;> decide +kernel

theorem homes_createsByOther : createsByOther.finish.Homes fun e =>
    [[], [(false, ⟨4⟩)], [], [(false, ⟨4⟩)], [], [(false, ⟨4⟩)], [(false, ⟨4⟩)]].getD e.index
      [] := by
  constructor <;> decide +kernel

/-- A well-formed program may have the heap refuse to record an outer twice: if a class is mixed in,
    if a constructor is called on an object of an unrelated class, or if a new object is created by
    the constructor of another class. -/
theorem Query.check_refused :
    (mixesInClass.WellFormed ∧ mixesInClass.finish.Disciplined ∧ mixesInClass.finish.CreatesOwn ∧
      (mixesInClass.finish.cls ⟨6⟩).hasSource = true ∧
        (Query.check ⟨6⟩).fault? mixesInClass.finish 20 .initial =
          some (.outerSetTwice (.thisOf ⟨6⟩) .object)) ∧
    (callsUnrelated.WellFormed ∧ callsUnrelated.finish.CreatesOwn ∧
      callsUnrelated.finish.MixesTraits ∧ (callsUnrelated.finish.cls ⟨5⟩).hasSource = true ∧
        (Query.check ⟨5⟩).fault? callsUnrelated.finish 20 .initial =
          some (.outerSetTwice (.thisOf ⟨5⟩) .object)) ∧
    (createsByOther.WellFormed ∧ createsByOther.finish.Disciplined ∧
      createsByOther.finish.MixesTraits ∧ (createsByOther.finish.cls ⟨4⟩).hasSource = true ∧
        (Query.check ⟨4⟩).fault? createsByOther.finish 20 .initial =
          some (.outerSetTwice (.warm ⟨⟨5⟩, 0⟩) ⟨5⟩)) := by
  have mixes : mixesInClass.finish.Disciplined :=
    .of_homes _ homes_mixesInClass (by constructor <;> decide +kernel)
  have calls : callsUnrelated.finish.HoldsTemplates :=
    .of_homes homes_callsUnrelated (by constructor <;> decide +kernel)
  have creates : createsByOther.finish.Disciplined :=
    .of_homes _ homes_createsByOther (by constructor <;> decide +kernel)
  refine ⟨⟨⟨Program.assembled_assemble _, ?_, by decide +kernel, mixes.holdsTemplates,
    by decide +kernel⟩, mixes, .of_homes homes_mixesInClass (by decide +kernel), by decide +kernel,
    by decide +kernel⟩, ⟨⟨Program.assembled_assemble _, ?_, by decide +kernel, calls,
    by decide +kernel⟩, .of_homes homes_callsUnrelated (by decide +kernel), by decide +kernel,
    by decide +kernel, by decide +kernel⟩, ⟨Program.assembled_assemble _, ?_, by decide +kernel,
    creates.holdsTemplates, by decide +kernel⟩, creates, by decide +kernel, by decide +kernel,
    by decide +kernel⟩
  · exact Program.acyclic_of_rank (fun c => [0, 0, 1, 2, 2, 3, 4].getD c.index 0)
      (by decide +kernel)
  · exact Program.acyclic_of_rank (fun c => [0, 0, 1, 2, 2, 2].getD c.index 0) (by decide +kernel)
  · exact Program.acyclic_of_rank (fun c => [0, 0, 1, 2, 2, 2, 3].getD c.index 0)
      (by decide +kernel)

end ObjectInit
