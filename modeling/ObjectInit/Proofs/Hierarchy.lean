import ObjectInit.Analysis.Construction
import ObjectInit.Proofs.Bases
import ObjectInit.Proofs.Built

/-!
# The hierarchy of a completed program

What completing a coherent program leaves of its classes: they keep their markers, constructors and
bodies, and list their parents with their constructors as before.

Main results:

* `Program.Coherent.listed_finish`: the calls of the parents' constructors.
* `Program.Coherent.linearization_eq`: the bases of a class are the class itself, the traits that it
  mixes in and the bases of its super class.
* `Program.Coherent.isTrait_of_mixin`: what a class mixes in are traits.
-/

namespace ObjectInit.Program

variable {q : Program}

theorem cls_withSuperClasses {c : ClassId} (h : c.index < q.classes.size) :
    q.withSuperClasses.cls c =
      if q.lacksSuperClass c then q.withObjectParent (q.cls c) else q.cls c := by
  simp only [withSuperClasses, cls, Array.getD_eq_getD_getElem?, Array.getElem?_mapIdx]
  rw [Array.getElem?_eq_getElem h]
  rfl

theorem index_lt_of_source {c : ClassId} (source : (q.cls c).hasSource = true) :
    c.index < q.classes.size := by
  by_contra hc
  rw [cls_of_size_le (Nat.le_of_not_lt hc)] at source
  cases source

/-- What completing a program does not change. -/
theorem kept_finish (c : ClassId) :
    (q.finish.cls c).flags = (q.cls c).flags ∧ (q.finish.cls c).owner = (q.cls c).owner ∧
      (q.finish.cls c).decls = (q.cls c).decls ∧
      (q.finish.cls c).primaryConstructor = (q.cls c).primaryConstructor ∧
      (q.finish.cls c).hasSource = (q.cls c).hasSource := by
  by_cases h : c.index < q.classes.size
  · rw [cls_finish h, cls_withSuperClasses h]
    split
    · refine ⟨rfl, rfl, rfl, rfl, ?_⟩
      simp [ClassDef.hasSource, withObjectParent]
    · exact ⟨rfl, rfl, rfl, rfl, rfl⟩
  · rw [cls_of_size_le (by rw [size_finish]; omega), cls_of_size_le (by omega)]
    exact ⟨rfl, rfl, rfl, rfl, rfl⟩

@[simp] theorem flags_finish (c : ClassId) : (q.finish.cls c).flags = (q.cls c).flags :=
  (kept_finish c).1

@[simp] theorem owner_finish (c : ClassId) : (q.finish.cls c).owner = (q.cls c).owner :=
  (kept_finish c).2.1

@[simp] theorem primaryConstructor_finish (c : ClassId) :
    (q.finish.cls c).primaryConstructor = (q.cls c).primaryConstructor :=
  (kept_finish c).2.2.2.1

@[simp] theorem hasSource_finish (c : ClassId) : (q.finish.cls c).hasSource = (q.cls c).hasSource :=
  (kept_finish c).2.2.2.2

@[simp] theorem symbol_finish (s : SymbolId) : q.finish.symbol s = q.symbol s := rfl

namespace Coherent

/-- The template of a class lists the parents of the class with their constructors. -/
theorem listed_finish (h : q.Coherent) {c : ClassId} {t : Template}
    (ht : (q.finish.cls c).template = some t) :
    t.parents.map Parent.call = (q.finish.cls c).parents.map q.parentCall := by
  by_cases hc : c.index < q.classes.size
  · rw [cls_finish hc, cls_withSuperClasses hc] at ht ⊢
    split at ht
    · next hlacks =>
      obtain ⟨t', ht', rfl⟩ := Option.map_eq_some_iff.1 ht
      simp only [if_pos hlacks, withObjectParent, List.map_cons, h.listed c t' ht']
      rfl
    · next hlacks =>
      simp only [if_neg hlacks]
      exact h.listed c t ht
  · rw [cls_of_size_le (by rw [size_finish]; omega)] at ht
    cases ht

/-- The parents of a class exist. -/
theorem parents_lt_finish (h : q.Coherent) {c d : ClassId} (hd : q.finish.IsParent c d) :
    d.index < q.classes.size := by
  have hc : c.index < q.classes.size := size_finish q ▸ hd.exists_child
  rw [IsParent, cls_finish hc, cls_withSuperClasses hc] at hd
  split at hd
  · rcases List.mem_cons.1 hd with rfl | hd
    · exact Nat.lt_of_lt_of_le (by decide) h.size
    · exact h.parents c d hd
  · exact h.parents c d hd

/-- The primary constructor of a class belongs to the class. -/
theorem homeClass_finish (h : q.Coherent) {c : ClassId} {ctor : SymbolId}
    (hctor : (q.cls c).primaryConstructor = some ctor) : q.finish.homeClass ctor = c := by
  obtain ⟨hlt, howner, -⟩ := h.constructors c ctor hctor
  have hsize : q.finish.symbols.size = q.symbols.size := rfl
  obtain ⟨n, hn⟩ := Nat.exists_eq_succ_of_ne_zero (Nat.ne_zero_of_lt hlt)
  rw [homeClass, hsize, hn, climb, symbol_finish, howner]

/-- The root classes have no source. -/
theorem not_root_of_source (h : q.Coherent) {c : ClassId} (source : (q.cls c).hasSource = true) :
    c ≠ .object ∧ c ≠ .any := by
  constructor
  · rintro rfl
    rw [h.noSource.2] at source
    cases source
  · rintro rfl
    rw [h.noSource.1] at source
    cases source

/-- A listed parent has the constructor of its class. -/
theorem ctor_of_listed (h : q.Coherent) {c : ClassId} {t : Template}
    (ht : (q.finish.cls c).template = some t) {parent : Parent} (hparent : parent ∈ t.parents) :
    parent.ctor = (q.finish.cls parent.type.cls).primaryConstructor := by
  have hcall := List.mem_map_of_mem (f := Parent.call) hparent
  rw [h.listed_finish ht] at hcall
  obtain ⟨d, -, hd⟩ := List.mem_map.1 hcall
  rw [parentCall, Parent.call, Prod.mk.injEq] at hd
  rw [← hd.1, primaryConstructor_finish]
  exact hd.2.symm

/-- The classes that the template of a class lists are its parents. -/
theorem parents_of_listed (h : q.Coherent) {c : ClassId} {t : Template}
    (ht : (q.finish.cls c).template = some t) :
    t.parents.map (·.type.cls) = (q.finish.cls c).parents := by
  have hlisted := congrArg (List.map Prod.fst) (h.listed_finish ht)
  simpa [Function.comp_def, Parent.call, parentCall] using hlisted

theorem root_finish (h : q.Coherent) : q.finish.isPackage .root = true := by
  rw [isPackage, ClassDef.isPackage, flags_finish]
  exact h.root

end Coherent

/-! ## Root classes -/

/-- The root classes inherit from nothing else. -/
def RootsAlone (p : Program) : Prop :=
  (p.cls .object).linearization = [.object, .any] ∧ (p.cls .any).linearization = [.any]

instance (p : Program) : Decidable p.RootsAlone := inferInstanceAs (Decidable (_ ∧ _))

/-! ## Mixins -/

/-- The constructor of a parent, called without arguments, unless it has no source. -/
def callOf (p : Program) (x : ClassId) (source : Span) : Option ParentCall :=
  if (p.cls x).hasSource then (p.cls x).primaryConstructor.map (⟨·, [], source⟩) else none

theorem mem_tail_of_mixin {p : Program} {c d x : ClassId} (h : x ∈ p.mixins c d) :
    x ∈ (p.cls c).linearization.tail := by
  rw [← List.drop_one]
  exact (List.takeWhile_sublist _).subset (List.mem_reverse.1 h)

/-- The traits that a class adds are those in front of the bases of its super class. -/
theorem mixins_eq {p : Program} {c d : ClassId} {front : List ClassId}
    (hfront : (p.cls c).linearization = c :: (front ++ (p.cls d).linearization))
    (hd : (p.cls d).linearization.head? = some d) (nodup : (p.cls c).linearization.Nodup) :
    p.mixins c d = front.reverse := by
  obtain ⟨rest, hrest⟩ := List.head?_eq_some_iff.1 hd
  rw [hfront, hrest] at nodup
  have notFront : ∀ x ∈ front, (x != d) = true := by
    intro x hx
    have disjoint := (List.nodup_append.1 (List.nodup_cons.1 nodup).2).2.2
    exact bne_iff_ne.2 (disjoint x hx d List.mem_cons_self)
  rw [mixins, hfront, List.drop_one, List.tail_cons, hrest, List.takeWhile_append_of_pos notFront,
    List.takeWhile_cons_of_neg (by simp), List.append_nil]

/-- The bases of a class are the class itself, the traits that it mixes in and the bases of its
    super class. -/
theorem Coherent.linearization_eq (h : q.Coherent) (acyclic : q.finish.Acyclic) {c d : ClassId}
    (hd : q.finish.IsSuperClass c d) :
    (q.finish.cls c).linearization =
      c :: ((q.finish.mixins c d).reverse ++ (q.finish.cls d).linearization) := by
  obtain ⟨front, hfront⟩ := linearization_of_superClass acyclic hd
  have head : (q.finish.cls d).linearization.head? = some d := by
    rw [linearization_finish acyclic (h.parents_lt_finish hd.isParent)]
    rfl
  rw [mixins_eq hfront head (nodup_linearization acyclic c), List.reverse_reverse, hfront]

/-- What a class adds to the bases of its super class are traits, where all other classes among the
    bases are super classes. -/
theorem Coherent.isTrait_of_mixin (h : q.Coherent) (acyclic : q.finish.Acyclic) {a c d x : ClassId}
    (above : ∀ b ∈ (q.finish.cls a).linearization, (q.finish.cls b).isTrait = false →
      b ≠ .object → b ≠ .any → Relation.ReflTransGen q.finish.IsSuperClass a b)
    (chain : Relation.ReflTransGen q.finish.IsSuperClass a c) (hd : q.finish.IsSuperClass c d)
    (hx : x ∈ q.finish.mixins c d) (source : (q.cls x).hasSource = true) :
    (q.finish.cls x).isTrait = true := by
  by_contra htrait
  have bases := h.linearization_eq acyclic hd
  have hcx : x ∈ (q.finish.cls c).linearization := by
    rw [bases]
    exact List.mem_cons_of_mem _ (List.mem_append_left _ (List.mem_reverse.2 hx))
  have notRoot := h.not_root_of_source source
  have chainX := above x (linearization_subset_of_chain acyclic chain hcx)
    (eq_false_of_ne_true htrait) notRoot.1 notRoot.2
  have nodup := nodup_linearization acyclic c
  rw [bases, List.nodup_cons, List.nodup_append] at nodup
  obtain ⟨notFront, -, -, disjoint⟩ := nodup
  have hne : c ≠ x := by
    rintro rfl
    exact notFront (List.mem_append_left _ (List.mem_reverse.2 hx))
  -- The chain is linear, so `x` stands after `c` on it or before.
  rcases Relation.ReflTransGen.total_of_right_unique isSuperClass_unique chain chainX with h | h
  · rcases Relation.ReflTransGen.cases_head h with rfl | ⟨d', hd', rest⟩
    · exact hne rfl
    · obtain rfl := isSuperClass_unique hd hd'
      have hdx := linearization_subset_of_chain acyclic rest
        (mem_linearization_self acyclic (index_lt_of_source source))
      exact disjoint x (List.mem_reverse.2 hx) x hdx rfl
  · have cycle : Relation.TransGen q.finish.IsParent x c := by
      rcases Relation.reflTransGen_iff_eq_or_transGen.1 h with rfl | h
      · exact absurd rfl hne
      · exact Relation.TransGen.mono (fun _ _ hstep => hstep.isParent) _ _ h
    exact acyclic x (cycle.trans_left (ancestor_of_mem_linearization acyclic hcx))

end ObjectInit.Program
