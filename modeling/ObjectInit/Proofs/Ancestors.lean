import ObjectInit.Proofs.Hierarchy
import ObjectInit.Proofs.Scoped

/-!
# Base classes as ancestors

Without cycles, the linearizations of a completed program are the only lists that satisfy their
equation. So neither the order in which the classes are visited nor the numbers that they got when
they were created have an influence on them. The linearization of a class orders its ancestors: each
one comes before its own ancestors, and the bases of the super class come last.

Main results:

* `Program.basesIn_eq_linearization`: a table that is right holds the linearizations.
* `Program.Renames.linearization_eq`: renumbering the classes renumbers the linearizations.
* `Program.mem_linearization_iff`: the bases of a class are the class itself and its ancestors.
* `Program.pairwise_linearization`: no class comes after an ancestor of its own.
* `Program.linearization_orders_ancestors`: all of this for the completion of a built program.
-/

namespace ObjectInit

namespace Linearization

/-- Joining bases keeps an order `r` of them, if each list of bases contains what has to come after
    one of its members. -/
theorem pairwise_joinBases {r : ClassId → ClassId → Prop} {bases : ClassId → List ClassId}
    {collected ps : List ClassId} (pairwise : ∀ d ∈ ps, (bases d).Pairwise fun a b => ¬r b a)
    (closed : ∀ d ∈ ps, ∀ a ∈ bases d, ∀ b, r a b → b ∈ bases d)
    (hpairwise : collected.Pairwise fun a b => ¬r b a)
    (hclosed : ∀ a ∈ collected, ∀ b, r a b → b ∈ collected) :
    (joinBases bases collected ps).Pairwise fun a b => ¬r b a := by
  induction ps generalizing collected with
  | nil => exact hpairwise
  | cons d ps ih =>
    rw [joinBases, List.foldl_cons, ← joinBases]
    refine ih (fun e he => pairwise e (List.mem_cons_of_mem d he))
      (fun e he => closed e (List.mem_cons_of_mem d he)) ?_ fun a ha b hab => ?_
    · refine List.pairwise_append.2 ⟨(pairwise d List.mem_cons_self).filter _, hpairwise, ?_⟩
      intro a ha b hb hba
      have absent := (List.mem_filter.1 ha).2
      simp [hclosed b hb a hba] at absent
    · rw [prepend, List.mem_append, List.mem_filter] at ha ⊢
      by_cases hb : b ∈ collected
      · exact .inr hb
      · rcases ha with ⟨ha, -⟩ | ha
        · exact .inl ⟨closed d List.mem_cons_self a ha b hab, by simpa using hb⟩
        · exact .inr (hclosed a ha b hab)

/-- Renaming the classes apart renames the joined bases. -/
theorem map_joinBases {f : ClassId → ClassId} (inj : Function.Injective f)
    {bases bases' : ClassId → List ClassId} {ps : List ClassId}
    (h : ∀ d ∈ ps, bases' (f d) = (bases d).map f) (collected : List ClassId) :
    joinBases bases' (collected.map f) (ps.map f) = (joinBases bases collected ps).map f := by
  induction ps generalizing collected with
  | nil => rfl
  | cons d ps ih =>
    have first : prepend (bases' (f d)) (collected.map f) =
        (prepend (bases d) collected).map f := by
      rw [h d List.mem_cons_self, prepend, prepend, List.map_append, List.filter_map]
      congr 2
      refine List.filter_congr fun x _ => ?_
      simp only [Function.comp_apply, List.contains_eq_mem, List.mem_map_of_injective inj]
    rw [List.map_cons, joinBases, List.foldl_cons, first, ← joinBases,
      ih (fun e he => h e (List.mem_cons_of_mem d he))]
    rfl

end Linearization

namespace Program

open Linearization Relation

variable {p q q' : Program}

/-! ## The only solution -/

/-- Without cycles, every table that is right holds the linearizations of the settled classes,
    whatever filled it. -/
theorem basesIn_eq_linearization (acyclic : q.finish.Acyclic) {done : Finished}
    (size : done.size = q.classes.size)
    (correct : Correct (fun c => (q.finish.cls c).parents) done) {c : ClassId}
    (settled : Settled done c) : basesIn done c = (q.finish.cls c).linearization := by
  induction c using acyclic.induction with
  | _ c ih =>
    by_cases hc : c.index < q.classes.size
    · obtain ⟨bases, hb⟩ := Option.isSome_iff_exists.1 (settled (size.symm ▸ hc))
      obtain ⟨heq, hparents⟩ := correct c bases hb
      rw [linearization_finish acyclic hc, basesIn, hb, Option.getD_some, heq]
      exact congrArg (c :: ·) (joinBases_congr (fun d hd => ih d hd (hparents d hd)) [])
    · rw [basesIn, Array.getD, dif_neg (size.symm ▸ hc),
        cls_of_size_le (by rwa [size_finish, ← Nat.not_lt])]
      rfl

/-- Visits in any order find the linearizations that completing the program computes. -/
theorem visitAll_eq_linearization (acyclic : q.finish.Acyclic) {order : List ClassId} {c : ClassId}
    (hc : c.index < q.classes.size) (visited : c ∈ order) :
    (visitAll q.classes.size (fun d => (q.finish.cls d).parents) order).getD c.index none =
      some (q.finish.cls c).linearization := by
  have leaf (x : ClassId) (hx : q.classes.size ≤ x.index) : (q.finish.cls x).parents = [] := by
    rw [cls_of_size_le (by rwa [size_finish])]
    rfl
  obtain ⟨size, correct, settled⟩ := visitAll_correct acyclic leaf order
  have entry := basesIn_eq_linearization acyclic size correct (settled c visited)
  obtain ⟨bases, hb⟩ := Option.isSome_iff_exists.1 (settled c visited (size.symm ▸ hc))
  rw [hb, ← entry, basesIn, hb, Option.getD_some]

/-- The classes of `p` are, under other numbers, classes of `p'` with the same parents. -/
structure Renames (f : ClassId → ClassId) (p p' : Program) : Prop where
  injective : Function.Injective f
  lt : ∀ c, c.index < p.classes.size → (f c).index < p'.classes.size
  parents : ∀ c, c.index < p.classes.size → (p'.cls (f c)).parents = (p.cls c).parents.map f

/-- The linearization of a class does not depend on the numbers of the classes. -/
theorem Renames.linearization_eq {f : ClassId → ClassId} (renames : q.finish.Renames f q'.finish)
    (coherent : q.Coherent) (acyclic : q.finish.Acyclic) (acyclic' : q'.finish.Acyclic)
    {c : ClassId} (hc : c.index < q.classes.size) :
    (q'.finish.cls (f c)).linearization = (q.finish.cls c).linearization.map f := by
  induction c using acyclic.induction with
  | _ c ih =>
    have hf : (f c).index < q'.classes.size :=
      size_finish q' ▸ renames.lt c ((size_finish q).symm ▸ hc)
    rw [linearization_finish acyclic' hf, linearization_finish acyclic hc, List.map_cons,
      renames.parents c ((size_finish q).symm ▸ hc)]
    exact congrArg (f c :: ·) (map_joinBases renames.injective
      (fun d hd => ih d hd (coherent.parents_lt_finish hd)) [])

/-! ## The order of the ancestors -/

/-- The bases of a class are the class itself and its ancestors. -/
theorem mem_linearization_iff (coherent : q.Coherent) (acyclic : q.finish.Acyclic) {c d : ClassId}
    (hc : c.index < q.classes.size) :
    d ∈ (q.finish.cls c).linearization ↔ ReflTransGen q.finish.IsParent c d := by
  refine ⟨ancestor_of_mem_linearization acyclic, fun h => ?_⟩
  induction h using ReflTransGen.head_induction_on with
  | refl => exact mem_linearization_self acyclic hc
  | head hparent _ ih =>
    rw [linearization_finish acyclic hc, List.mem_cons, mem_joinBases]
    exact .inr (.inr ⟨_, hparent, ih (coherent.parents_lt_finish hparent)⟩)

/-- Of two bases, the later one is no descendant of the earlier one. -/
theorem pairwise_linearization (coherent : q.Coherent) (acyclic : q.finish.Acyclic) (c : ClassId) :
    (q.finish.cls c).linearization.Pairwise fun a b => ¬TransGen q.finish.IsParent b a := by
  induction c using acyclic.induction with
  | _ c ih =>
    by_cases hc : c.index < q.classes.size
    · have closed (d : ClassId) (hd : d ∈ (q.finish.cls c).parents) (a : ClassId)
          (ha : a ∈ (q.finish.cls d).linearization) (b : ClassId)
          (hab : TransGen q.finish.IsParent a b) : b ∈ (q.finish.cls d).linearization := by
        rw [mem_linearization_iff coherent acyclic (coherent.parents_lt_finish hd)] at ha ⊢
        exact ha.trans hab.to_reflTransGen
      rw [linearization_finish acyclic hc, List.pairwise_cons]
      refine ⟨fun b hb hbc => ?_, pairwise_joinBases ih closed List.Pairwise.nil nofun⟩
      rcases mem_joinBases.1 hb with hb | ⟨d, hd, hb⟩
      · cases hb
      · exact acyclic c (hbc.trans_right (.head hd (ancestor_of_mem_linearization acyclic hb)))
    · rw [cls_of_size_le (by rwa [size_finish, ← Nat.not_lt])]
      exact List.Pairwise.nil

/-- A base comes before its own ancestors. -/
theorem sublist_linearization (coherent : q.Coherent) (acyclic : q.finish.Acyclic)
    {c x y : ClassId} (hx : x ∈ (q.finish.cls c).linearization)
    (hy : y ∈ (q.finish.cls c).linearization) (hxy : TransGen q.finish.IsParent x y) :
    [x, y].Sublist (q.finish.cls c).linearization := by
  have pairwise := pairwise_linearization coherent acyclic c
  obtain ⟨front, back, heq⟩ := List.append_of_mem hx
  rw [heq] at pairwise hy ⊢
  rcases List.mem_append.1 hy with hfront | hy
  · exact absurd hxy ((List.pairwise_append.1 pairwise).2.2 y hfront x List.mem_cons_self)
  · rcases List.mem_cons.1 hy with rfl | hback
    · exact absurd hxy (acyclic y)
    · exact ((List.singleton_sublist.2 hback).cons_cons x).trans (List.sublist_append_right _ _)

/-! ## Built programs -/

/-- In the completion of a built program without cycles, the linearization `L(c)` of a class with
    the parents `d₁, …, dₙ` is `c` before the bases that are collected by a fold over the parents,
    which puts what is new in `L(dᵢ)` in front. It is the same for every order in which the classes
    are visited or created. It lists the class and its ancestors, each of them once and before its
    own ancestors, and ends with the linearization of the first parent. -/
theorem linearization_orders_ancestors (built : q.Built) (acyclic : q.finish.Acyclic) {c : ClassId}
    (hc : c.index < q.finish.classes.size) :
    (q.finish.cls c).linearization =
        c :: (q.finish.cls c).parents.foldl
          (fun acc d => (q.finish.cls d).linearization.filter (fun x => !acc.contains x) ++ acc)
          [] ∧
      (∀ order, c ∈ order →
        (visitAll q.classes.size (fun d => (q.finish.cls d).parents) order).getD c.index none =
          some (q.finish.cls c).linearization) ∧
      (∀ (q' : Program) f, q.finish.Renames f q'.finish → q'.finish.Acyclic →
        (q'.finish.cls (f c)).linearization = (q.finish.cls c).linearization.map f) ∧
      (q.finish.cls c).linearization.Nodup ∧
      (∀ d, d ∈ (q.finish.cls c).linearization ↔ ReflTransGen q.finish.IsParent c d) ∧
      (∀ x ∈ (q.finish.cls c).linearization, ∀ y, TransGen q.finish.IsParent x y →
        [x, y].Sublist (q.finish.cls c).linearization) ∧
      ∀ d ∈ (q.finish.cls c).parents.head?,
        (q.finish.cls d).linearization <:+ (q.finish.cls c).linearization := by
  have coherent := built.coherent
  rw [size_finish] at hc
  have mem (d : ClassId) :
      d ∈ (q.finish.cls c).linearization ↔ ReflTransGen q.finish.IsParent c d :=
    mem_linearization_iff coherent acyclic hc
  refine ⟨linearization_finish acyclic hc, fun order visited => ?_, fun q' f renames acyclic' => ?_,
    nodup_linearization acyclic c, mem, fun x hx y hxy => ?_, fun d hd => ?_⟩
  · exact visitAll_eq_linearization acyclic hc visited
  · exact renames.linearization_eq coherent acyclic acyclic' hc
  · exact sublist_linearization coherent acyclic hx
      ((mem y).2 (((mem x).1 hx).trans hxy.to_reflTransGen)) hxy
  · obtain ⟨front, heq⟩ := linearization_of_superClass acyclic hd
    exact ⟨c :: front, heq.symm⟩

/-- A class `C` with the parents `A`, `T` and `S`, where `S` is a trait that extends `T`. -/
def diamond : Program := .assemble [
  .defineClass "A" .package .none true,
  .defineClass "T" .package (.ofList [.trait]) true,
  .defineClass "S" .package (.ofList [.trait]) true,
  .defineClass "C" .package .none true,
  .extend ⟨6⟩ ⟨.bare, ⟨5⟩⟩ [],
  .extend ⟨7⟩ ⟨.bare, ⟨4⟩⟩ [],
  .extend ⟨7⟩ ⟨.bare, ⟨5⟩⟩ [],
  .extend ⟨7⟩ ⟨.bare, ⟨6⟩⟩ []]

/-- The same classes, created in the opposite order. -/
def diamondReversed : Program := .assemble [
  .defineClass "C" .package .none true,
  .defineClass "S" .package (.ofList [.trait]) true,
  .defineClass "T" .package (.ofList [.trait]) true,
  .defineClass "A" .package .none true,
  .extend ⟨4⟩ ⟨.bare, ⟨7⟩⟩ [],
  .extend ⟨4⟩ ⟨.bare, ⟨6⟩⟩ [],
  .extend ⟨4⟩ ⟨.bare, ⟨5⟩⟩ [],
  .extend ⟨5⟩ ⟨.bare, ⟨6⟩⟩ []]

/-- The number that a class of `diamond` has in `diamondReversed`. -/
def reversed (c : ClassId) : ClassId := if 4 ≤ c.index ∧ c.index ≤ 7 then ⟨11 - c.index⟩ else c

theorem reversed_reversed (c : ClassId) : reversed (reversed c) = c := by
  cases c with
  | mk i =>
    by_cases h : 4 ≤ i ∧ i ≤ 7
    · have h' : 4 ≤ 11 - i ∧ 11 - i ≤ 7 := by omega
      simp only [reversed, if_pos h, if_pos h']
      congr 1
      omega
    · simp only [reversed, if_neg h]

theorem renames_diamond : diamond.finish.Renames reversed diamondReversed.finish := by
  have size : diamond.finish.classes.size = 8 := by decide +kernel
  have known : ∀ i < 8, (reversed ⟨i⟩).index < diamondReversed.finish.classes.size ∧
      (diamondReversed.finish.cls (reversed ⟨i⟩)).parents =
        (diamond.finish.cls ⟨i⟩).parents.map reversed := by decide +kernel
  exact ⟨Function.LeftInverse.injective reversed_reversed,
    fun c hc => (known c.index (size ▸ hc)).1, fun c hc => (known c.index (size ▸ hc)).2⟩

/-- The bases of `C`, as they are found by a visit of `C` alone and in the other order of
    creation. -/
theorem linearization_diamond :
    (diamond.finish.cls ⟨7⟩).linearization = [⟨7⟩, ⟨6⟩, ⟨5⟩, ⟨4⟩, .object, .any] ∧
      (visitAll diamond.classes.size (fun d => (diamond.finish.cls d).parents) [⟨7⟩]).getD 7 none =
        some [⟨7⟩, ⟨6⟩, ⟨5⟩, ⟨4⟩, .object, .any] ∧
      (diamondReversed.finish.cls ⟨4⟩).linearization =
        [⟨4⟩, ⟨5⟩, ⟨6⟩, ⟨7⟩, .object, .any] ∧
      [⟨6⟩, ⟨5⟩].Sublist (diamond.finish.cls ⟨7⟩).linearization ∧
      (diamond.finish.cls ⟨4⟩).linearization <:+ (diamond.finish.cls ⟨7⟩).linearization := by
  have built : diamond.Built := (assembled_assemble _).built
  have acyclic : diamond.finish.Acyclic :=
    acyclic_of_rank (fun c => [0, 0, 1, 2, 2, 2, 3, 4].getD c.index 0) (by decide +kernel)
  have acyclic' : diamondReversed.finish.Acyclic :=
    acyclic_of_rank (fun c => [0, 0, 1, 2, 4, 3, 2, 2].getD c.index 0) (by decide +kernel)
  have bases : (diamond.finish.cls ⟨7⟩).linearization = [⟨7⟩, ⟨6⟩, ⟨5⟩, ⟨4⟩, .object, .any] := by
    decide +kernel
  obtain ⟨-, visited, renamed, -, -, order, last⟩ :=
    linearization_orders_ancestors built acyclic (c := ⟨7⟩) (by decide +kernel)
  refine ⟨bases, ?_, ?_, order ⟨6⟩ ?_ ⟨5⟩ (.single ?_), last ⟨4⟩ (by decide +kernel)⟩
  · rw [← bases]
    exact visited [⟨7⟩] List.mem_cons_self
  · have := renamed diamondReversed reversed renames_diamond acyclic'
    rw [bases] at this
    exact this
  · rw [bases]
    decide
  · rw [IsParent]
    decide +kernel

end Program

end ObjectInit
