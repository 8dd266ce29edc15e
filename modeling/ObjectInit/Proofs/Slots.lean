import Mathlib.Data.List.Pairwise
import ObjectInit.Proofs.Delegation

/-!
# The slots of an object

The template of a class fills the fields of its parameters, the outers of the parents that it
initializes and the strict fields of the class body (`Program.slotsOf`). An object is initialized by
the template of its class and by those that this one starts, directly or not
(`Program.Initializes`).

The heap refuses to fill a slot twice. It never has to where the slots are apportioned
(`Program.Apportions`): the templates that initialize an object fill different slots.

Main results:

* `Program.apportions`: the slots are apportioned where fields are defined once and classes mix in
  traits only.
-/

namespace ObjectInit

/-- A place of an object that is filled once. -/
inductive Slot where
  | field (f : SymbolId)
  | outer (c : ClassId)
  deriving DecidableEq

namespace Slot

/-- Fills the slot of an object. -/
def fill (a : Addr) (v : Value) : Slot → Effect Unit
  | .field f => .setField a f v
  | .outer c => .setOuter a c v

end Slot

/-- The slot of the object has a value. -/
def Heap.Filled (h : Heap) (a : Addr) : Slot → Prop
  | .field f => (h.field? a f).isSome
  | .outer c => (h.outer? a c).isSome

namespace Program

variable (p : Program)

/-- The classes whose outers the template of a class records: the super class and what is mixed in.
    Traits leave this to the classes that they are mixed into. -/
def recorded (c : ClassId) : List ClassId :=
  match (p.cls c).superClass with
  | some d => if (p.cls c).isTrait then [] else d :: p.mixins c d
  | none => []

/-- The slots that a statement of a class body fills: the one of the strict field that it
    defines. -/
def statSlots (e : ExprId) : List Slot :=
  match (p.expr e).node with
  | .valDef f => if (p.symbol f).isLazy then [] else [.field f]
  | _ => []

/-- The slots that the statements of a class fill. -/
def bodySlots (c : ClassId) : List Slot :=
  match (p.cls c).template with
  | some template => template.body.flatMap p.statSlots
  | none => []

/-- The slots that the template of a class fills, in their order. -/
def slotsOf (c : ClassId) : List Slot :=
  if (p.cls c).hasSource then
    (p.paramFields c).map .field ++ ((p.recorded c).map .outer ++ p.bodySlots c)
  else
    []

/-- The template of `d` is one of those that initialize the instances of `c`. -/
def Initializes (c d : ClassId) : Prop :=
  Relation.ReflTransGen (fun c d => .outer d ∈ p.slotsOf c) c d

/-- The templates that initialize an object fill different slots of it, and none that is filled when
    the object is created. -/
structure Apportions (p : Program) : Prop where
  nodup : ∀ c, (p.slotsOf c).Nodup
  own : ∀ c d, p.Initializes c d → .outer c ∉ p.slotsOf d
  unique : ∀ c d e x, p.Initializes c d → p.Initializes c e → x ∈ p.slotsOf d →
    x ∈ p.slotsOf e → d = e

/-- The classes with source that a class with source mixes in are traits. -/
def MixesTraits (p : Program) : Prop :=
  ∀ c ∈ p.classIds, (p.cls c).hasSource = true → (p.cls c).isTrait = false →
    ∀ d ∈ (p.cls c).superClass, ∀ x ∈ p.mixins c d, (p.cls x).hasSource = true →
      (p.cls x).isTrait = true

instance : Decidable p.MixesTraits := inferInstanceAs (Decidable (∀ c ∈ p.classIds, _))

variable {p}

theorem mem_recorded {c x : ClassId} : x ∈ p.recorded c ↔ p.Calls c x := by
  simp only [recorded, Calls, IsSuperClass]
  cases h : (p.cls c).superClass with
  | none => simp
  | some d => cases ht : (p.cls c).isTrait <;> simp

theorem mem_slots_outer {c x : ClassId} :
    .outer x ∈ p.slotsOf c ↔ (p.cls c).hasSource = true ∧ p.Calls c x := by
  rw [← mem_recorded, slotsOf]
  split
  · next source =>
    have body : Slot.outer x ∉ p.bodySlots c := by
      intro h
      rw [bodySlots] at h
      split at h
      · obtain ⟨e, -, he⟩ := List.mem_flatMap.1 h
        rw [statSlots] at he
        split at he
        · split at he <;> simp at he
        · simp at he
      · simp at h
    simp [source, body]
  · next source => simp [source]

/-- The slots that a class body fills are those of some of the fields that it defines. -/
theorem bodySlots_sublist (p : Program) (c : ClassId) :
    (p.bodySlots c).Sublist ((p.definedFields c).map .field) := by
  rw [bodySlots, definedFields]
  cases (p.cls c).template with
  | none => exact List.Sublist.refl []
  | some T =>
    dsimp only
    induction T.body with
    | nil => exact List.Sublist.refl []
    | cons e stats ih =>
      rw [List.flatMap_cons, statSlots]
      split
      · next f node =>
        rw [List.filterMap_cons_some (by rw [node]), List.map_cons]
        split
        · exact ih.cons _
        · exact ih.cons_cons _
      · next other =>
        rw [List.filterMap_cons_none]
        · exact ih
        · split
          · next f node => exact absurd node (other f)
          · rfl

theorem mem_slots_field {c : ClassId} {f : SymbolId} (h : .field f ∈ p.slotsOf c) :
    (p.cls c).hasSource = true ∧ (f ∈ p.paramFields c ∨ f ∈ p.definedFields c) := by
  rw [slotsOf] at h
  split at h
  · next source =>
    refine ⟨source, ?_⟩
    simp only [List.mem_append, List.mem_map, reduceCtorEq, and_false, exists_false, false_or,
      Slot.field.injEq, exists_eq_right] at h
    refine h.imp id fun h => ?_
    simpa using (bodySlots_sublist p c).subset h
  · simp at h

/-! ## Classes that fill different slots -/

theorem mem_classIds {c : ClassId} (h : c.index < p.classes.size) : c ∈ p.classIds :=
  List.mem_map.2 ⟨c.index, List.mem_range.2 h, rfl⟩

/-- No field is defined in two classes. -/
theorem DefinesOnce.cls_unique (once : p.DefinesOnce) {c d : ClassId} {f : SymbolId}
    (hc : f ∈ p.definedFields c) (hd : f ∈ p.definedFields d) : c = d := by
  have known {c : ClassId} (h : f ∈ p.definedFields c) : c ∈ p.classIds := by
    apply mem_classIds
    rw [definedFields] at h
    split at h
    · next T ht => exact index_lt_of_template ht
    · cases h
  have : Std.Symm (Function.onFun List.Disjoint p.definedFields) := ⟨fun _ _ h => h.symm⟩
  by_contra other
  exact (List.nodup_flatMap.1 once.1).2.forall (known hc) (known hd) other hc hd

section

variable {q : Program} (coherent : q.Coherent) (tables : q.Scoped) (acyclic : q.finish.Acyclic)

include tables in
/-- The field of a parameter belongs to one class. -/
theorem owner_of_paramField {c : ClassId} {f : SymbolId} (h : f ∈ q.finish.paramFields c) :
    (q.finish.symbol f).owner = .cls c ∧ (q.finish.symbol f).isParamAccessor = true := by
  have ⟨declared, accessor⟩ := List.mem_filter.1 h
  rw [(kept_finish c).2.2.1] at declared
  exact ⟨((tables.classes c).declared f declared).2, accessor⟩

include tables in
/-- No field gets its value from two classes. -/
theorem field_unique (once : q.finish.DefinesOnce) {c d : ClassId} {f : SymbolId}
    (hc : .field f ∈ q.finish.slotsOf c) (hd : .field f ∈ q.finish.slotsOf d) : c = d := by
  have known {c : ClassId} (h : (q.finish.cls c).hasSource = true) : c ∈ q.finish.classIds :=
    mem_classIds (index_lt_of_source h)
  obtain ⟨sourceC, hc⟩ := mem_slots_field hc
  obtain ⟨sourceD, hd⟩ := mem_slots_field hd
  rcases hc with hc | hc <;> rcases hd with hd | hd
  · have ownerC := (owner_of_paramField tables hc).1
    have ownerD := (owner_of_paramField tables hd).1
    rw [ownerC] at ownerD
    exact Owner.cls.inj ownerD
  · have accessor := (owner_of_paramField tables hc).2
    rw [once.2 d (known sourceD) f hd] at accessor
    cases accessor
  · have accessor := (owner_of_paramField tables hd).2
    rw [once.2 c (known sourceC) f hc] at accessor
    cases accessor
  · exact once.cls_unique hc hd

/-- The templates that initialize an object belong to classes on the chain of super classes and to
    traits. -/
theorem chain_of_initializes (traits : q.finish.MixesTraits) {c d : ClassId}
    (h : q.finish.Initializes c d) (source : (q.finish.cls d).hasSource = true)
    (notTrait : (q.finish.cls d).isTrait = false) :
    Relation.ReflTransGen q.finish.IsSuperClass c d := by
  induction h with
  | refl => exact .refl
  | @tail d e _ step ih =>
    obtain ⟨sourceD, notTraitD, s, super, rfl | mixin⟩ := mem_slots_outer.1 step
    · exact (ih sourceD notTraitD).tail super
    · have trait := traits d (mem_classIds (index_lt_of_source sourceD)) sourceD notTraitD s super e
        mixin source
      rw [notTrait] at trait
      cases trait

include acyclic in
/-- A template that initializes an object belongs to a base of its class. -/
theorem ancestor_of_initializes {c d : ClassId} (h : q.finish.Initializes c d) :
    Relation.ReflTransGen q.finish.IsParent c d := by
  induction h with
  | refl => exact .refl
  | tail _ step ih => exact ih.trans ((mem_slots_outer.1 step).2.ancestor acyclic).to_reflTransGen

include coherent acyclic

/-- The classes whose outers a class records are bases of the class. -/
theorem mem_linearization_of_calls {c x : ClassId} (h : q.finish.Calls c x) :
    x ∈ (q.finish.cls c).linearization := by
  obtain ⟨-, d, super, rfl | mixin⟩ := h
  · rw [coherent.linearization_eq acyclic super]
    apply List.mem_cons_of_mem
    apply List.mem_append_right
    exact mem_linearization_self acyclic (coherent.parents_lt_finish super.isParent)
  · exact List.mem_of_mem_tail (mem_tail_of_mixin mixin)

/-- No outer is recorded twice by one class. -/
theorem nodup_recorded (c : ClassId) : (q.finish.recorded c).Nodup := by
  rw [recorded]
  split
  · next d super =>
    split
    · exact List.nodup_nil
    · have nodup := nodup_linearization acyclic c
      rw [coherent.linearization_eq acyclic super, List.nodup_cons, List.nodup_append] at nodup
      obtain ⟨-, mixins, -, disjoint⟩ := nodup
      refine List.nodup_cons.2 ⟨fun h => ?_, List.nodup_reverse.1 mixins⟩
      refine disjoint d (List.mem_reverse.2 h) d ?_ rfl
      exact mem_linearization_self acyclic
        (coherent.parents_lt_finish (IsSuperClass.isParent super))
  · exact List.nodup_nil

include tables in
/-- No template fills a slot twice. -/
theorem nodup_slots (once : q.finish.DefinesOnce) (c : ClassId) : (q.finish.slotsOf c).Nodup := by
  rw [slotsOf]
  split
  · next source =>
    have known : c ∈ q.finish.classIds := mem_classIds (index_lt_of_source source)
    have params : (q.finish.paramFields c).Nodup := by
      rw [paramFields, (kept_finish c).2.2.1]
      exact (tables.classes c).distinct.filter _
    have defined : (q.finish.definedFields c).Nodup := (List.nodup_flatMap.1 once.1).1 c known
    have field : Function.Injective Slot.field := fun f g h => Slot.field.inj h
    have outer : Function.Injective Slot.outer := fun c d h => Slot.outer.inj h
    have body (x : Slot) (h : x ∈ q.finish.bodySlots c) :
        ∃ f ∈ q.finish.definedFields c, .field f = x :=
      List.mem_map.1 ((bodySlots_sublist _ c).subset h)
    refine List.nodup_append.2 ⟨params.map field, List.nodup_append.2
      ⟨(nodup_recorded coherent acyclic c).map outer, (defined.map field).sublist
        (bodySlots_sublist _ c), ?_⟩, ?_⟩
    · intro x hx y hy same
      obtain ⟨d, -, rfl⟩ := List.mem_map.1 hx
      obtain ⟨f, -, rfl⟩ := body y hy
      cases same
    · intro x hx y hy same
      obtain ⟨f, hf, rfl⟩ := List.mem_map.1 hx
      rcases List.mem_append.1 hy with hy | hy
      · obtain ⟨d, -, rfl⟩ := List.mem_map.1 hy
        cases same
      · obtain ⟨g, hg, rfl⟩ := body y hy
        cases same
        have accessor := (owner_of_paramField tables hf).2
        rw [once.2 c known f hg] at accessor
        cases accessor
  · exact List.nodup_nil

/-- No two classes on a chain of super classes record the same outer. -/
theorem not_calls_above {c d x : ClassId}
    (chain : Relation.ReflTransGen q.finish.IsSuperClass c d) (other : c ≠ d)
    (hc : q.finish.Calls c x) (hd : q.finish.Calls d x) : False := by
  rcases Relation.ReflTransGen.cases_head chain with rfl | ⟨e, super, rest⟩
  · exact other rfl
  have nodup := nodup_linearization acyclic c
  rw [coherent.linearization_eq acyclic super, List.nodup_cons, List.nodup_append] at nodup
  have inherited : x ∈ (q.finish.cls e).linearization :=
    linearization_subset_of_chain acyclic rest (mem_linearization_of_calls coherent acyclic hd)
  obtain ⟨-, s, super', rfl | mixin⟩ := hc
  · -- The super class of `c` would be an ancestor of itself.
    obtain rfl := isSuperClass_unique super super'
    have below : Relation.ReflTransGen q.finish.IsParent e d :=
      Relation.ReflTransGen.mono (fun _ _ h => IsSuperClass.isParent h) _ _ rest
    exact acyclic e (.trans_right below (hd.ancestor acyclic))
  · obtain rfl := isSuperClass_unique super super'
    exact nodup.2.2.2 x (List.mem_reverse.2 mixin) x inherited rfl

include tables in
/-- The slots of all objects are apportioned where fields are defined once and classes mix in traits
    only. -/
theorem apportions (once : q.finish.DefinesOnce) (traits : q.finish.MixesTraits) :
    q.finish.Apportions where
  nodup := nodup_slots coherent tables acyclic once
  own c d h own := by
    have above := (mem_slots_outer.1 own).2.ancestor acyclic
    exact acyclic c (.trans_right (ancestor_of_initializes acyclic h) above)
  unique c d e x hd he hxd hxe := by
    cases x with
    | field f => exact field_unique tables once hxd hxe
    | outer x =>
      obtain ⟨sourceD, callsD⟩ := mem_slots_outer.1 hxd
      obtain ⟨sourceE, callsE⟩ := mem_slots_outer.1 hxe
      have chainD := chain_of_initializes traits hd sourceD callsD.1
      have chainE := chain_of_initializes traits he sourceE callsE.1
      by_contra other
      rcases Relation.ReflTransGen.total_of_right_unique isSuperClass_unique chainD chainE with
        h | h
      · exact not_calls_above coherent acyclic h other callsD callsE
      · exact not_calls_above coherent acyclic h (Ne.symm other) callsE callsD

end

end Program

end ObjectInit
