import Mathlib.Data.Fintype.EquivFin
import Mathlib.Logic.Relation
import Mathlib.Order.WellFounded
import ObjectInit.Program.Linearization

/-!
# Linearizations without cycles

`Linearization.visit` computes the linearizations of all classes in one pass over a table. Without
cycles the table ends up with the textbook linearization: the class itself before the joined
linearizations of its parents.

Main results:

* `Linearization.getD_all`: the equation that the computed linearizations satisfy.
* `Program.linearization_finish`: the same for the classes of a completed program.
* `Program.nodup_linearization`, `Program.ancestor_of_mem_linearization`: no class occurs twice,
  and only ancestors occur.
* `Program.linearization_of_superClass`: the linearization of a class ends with that of its super
  class.
-/

namespace ObjectInit

namespace Linearization

variable {parents : ClassId → List ClassId}

/-- The entry of a class, nothing if it is not finished. -/
def basesIn (done : Finished) (c : ClassId) : List ClassId := (done.getD c.index none).getD []

/-- The bases of a list of parents, put in front of those collected so far. -/
def joinBases (bases : ClassId → List ClassId) (collected ps : List ClassId) : List ClassId :=
  ps.foldl (fun collected parent => prepend (bases parent) collected) collected

/-- The class is finished, or there is no such class. -/
def Settled (done : Finished) (c : ClassId) : Prop :=
  c.index < done.size → (done.getD c.index none).isSome

/-- What is finished stays as it is. -/
def Extends (done done' : Finished) : Prop :=
  done'.size = done.size ∧
    ∀ (c : ClassId) bases, done.getD c.index none = some bases →
      done'.getD c.index none = some bases

/-- Every finished entry is the class before the joined entries of its parents, which are
    settled. -/
def Correct (parents : ClassId → List ClassId) (done : Finished) : Prop :=
  ∀ (c : ClassId) bases, done.getD c.index none = some bases →
    bases = c :: joinBases (basesIn done) [] (parents c) ∧ ∀ d ∈ parents c, Settled done d

theorem Extends.refl (done : Finished) : Extends done done := ⟨rfl, fun _ _ h => h⟩

theorem Extends.trans {a b c : Finished} (h : Extends a b) (h' : Extends b c) : Extends a c :=
  ⟨h'.1.trans h.1, fun d bases hd => h'.2 d bases (h.2 d bases hd)⟩

theorem Extends.settled {done done' : Finished} (h : Extends done done') {c : ClassId}
    (hc : Settled done c) : Settled done' c := by
  intro hlt
  obtain ⟨bases, hb⟩ := Option.isSome_iff_exists.1 (hc (h.1 ▸ hlt))
  rw [h.2 c bases hb]
  rfl

theorem Extends.basesIn {done done' : Finished} (h : Extends done done') {c : ClassId}
    (hc : Settled done c) : basesIn done' c = basesIn done c := by
  by_cases hlt : c.index < done.size
  · obtain ⟨bases, hb⟩ := Option.isSome_iff_exists.1 (hc hlt)
    rw [Linearization.basesIn, Linearization.basesIn, hb, h.2 c bases hb]
  · have hlt' : ¬ c.index < done'.size := h.1 ▸ hlt
    simp only [Linearization.basesIn, Array.getD, dif_neg hlt, dif_neg hlt']

theorem joinBases_congr {bases bases' : ClassId → List ClassId} {ps : List ClassId}
    (h : ∀ d ∈ ps, bases d = bases' d) (collected : List ClassId) :
    joinBases bases collected ps = joinBases bases' collected ps := by
  induction ps generalizing collected with
  | nil => rfl
  | cons d ps ih =>
    simp only [joinBases, List.foldl_cons]
    rw [h d List.mem_cons_self]
    exact ih (fun d hd => h d (List.mem_cons_of_mem _ hd)) _

theorem joinBases_eq {done done' : Finished} (h : Extends done done') {ps : List ClassId}
    (settled : ∀ d ∈ ps, Settled done d) (collected : List ClassId) :
    joinBases (basesIn done') collected ps = joinBases (basesIn done) collected ps :=
  joinBases_congr (fun d hd => h.basesIn (settled d hd)) collected

theorem exists_front_joinBases (bases : ClassId → List ClassId) (collected ps : List ClassId) :
    ∃ front, joinBases bases collected ps = front ++ collected := by
  induction ps generalizing collected with
  | nil => exact ⟨[], rfl⟩
  | cons d ps ih =>
    obtain ⟨front, h⟩ := ih (prepend (bases d) collected)
    rw [joinBases, List.foldl_cons, ← joinBases, h, prepend, ← List.append_assoc]
    exact ⟨_, rfl⟩

theorem mem_joinBases {bases : ClassId → List ClassId} {collected ps : List ClassId} {x : ClassId} :
    x ∈ joinBases bases collected ps ↔ x ∈ collected ∨ ∃ d ∈ ps, x ∈ bases d := by
  induction ps generalizing collected with
  | nil => simp [joinBases]
  | cons d ps ih =>
    rw [joinBases, List.foldl_cons, ← joinBases, ih]
    simp only [prepend, List.mem_append, List.mem_filter, List.mem_cons]
    by_cases hx : x ∈ collected <;> simp [hx]

theorem nodup_joinBases {bases : ClassId → List ClassId} {collected ps : List ClassId}
    (h : ∀ d ∈ ps, (bases d).Nodup) (hcollected : collected.Nodup) :
    (joinBases bases collected ps).Nodup := by
  induction ps generalizing collected with
  | nil => exact hcollected
  | cons d ps ih =>
    rw [joinBases, List.foldl_cons, ← joinBases]
    refine ih (fun e he => h e (List.mem_cons_of_mem d he)) ?_
    refine List.Nodup.append ((h d List.mem_cons_self).filter _) hcollected fun x hx hx' => ?_
    have := (List.mem_filter.1 hx).2
    simp [hx'] at this

theorem getD_setIfInBounds (done : Finished) (i j : Nat) (entry : Option (List ClassId)) :
    (done.setIfInBounds i entry).getD j none =
      if i = j ∧ j < done.size then entry else done.getD j none := by
  simp only [Array.getD_eq_getD_getElem?, Array.getElem?_setIfInBounds]
  by_cases hij : i = j
  · subst hij
    by_cases hlt : i < done.size
    · simp [hlt]
    · simp [hlt]
  · simp [hij]

/-! ## One visit -/

/-- What a visit of `c` does while the classes `active` are in progress. -/
structure Visited (parents : ClassId → List ClassId) (active : List ClassId) (c : ClassId)
    (done done' : Finished) : Prop where
  grows : Extends done done'
  correct : Correct parents done'
  /-- Classes in progress are left alone. -/
  kept : ∀ a ∈ active, done'.getD a.index none = done.getD a.index none
  settled : Settled done' c

/-- Where no class is its own ancestor, the classes in progress are below `c` and distinct, so there
    are enough steps left for each of them. -/
structure CanVisit (parents : ClassId → List ClassId) (n : Nat) (active : List ClassId)
    (c : ClassId) (done : Finished) : Prop where
  correct : Correct parents done
  leaf : ∀ x : ClassId, done.size ≤ x.index → parents x = []
  nodup : active.Nodup
  inTable : ∀ a ∈ active, a.index < done.size
  below : ∀ a ∈ active, Relation.TransGen (fun x y => y ∈ parents x) a c
  steps : done.size < n + active.length

theorem length_le_of_nodup {active : List ClassId} {count : Nat} (nodup : active.Nodup)
    (inTable : ∀ a ∈ active, a.index < count) : active.length ≤ count := by
  have hnodup : (active.map ClassId.index).Nodup :=
    nodup.map fun a b h => by cases a; cases b; exact congrArg ClassId.mk h
  have hsub : active.map ClassId.index ⊆ List.range count := by
    intro i hi
    obtain ⟨a, ha, rfl⟩ := List.mem_map.1 hi
    exact List.mem_range.2 (inTable a ha)
  have hle := (List.subperm_of_subset hnodup hsub).length_le
  rw [List.length_map, List.length_range] at hle
  exact hle

theorem CanVisit.grow {n : Nat} {active : List ClassId} {c : ClassId} {done done' : Finished}
    (can : CanVisit parents n active c done) (grows : Extends done done')
    (correct : Correct parents done') : CanVisit parents n active c done' := by
  refine ⟨correct, fun x hx => can.leaf x (grows.1 ▸ hx), can.nodup, fun a ha => ?_, can.below, ?_⟩
  · rw [grows.1]
    exact can.inTable a ha
  · rw [grows.1]
    exact can.steps

/-- The visits of several parents, one after the other. -/
theorem visit_all {n : Nat} {active : List ClassId}
    (visited : ∀ d done, CanVisit parents n active d done →
      Visited parents active d done (visit parents n active d done))
    (ps collected : List ClassId) (done : Finished) (correct : Correct parents done)
    (can : ∀ d ∈ ps, CanVisit parents n active d done) :
    ∃ done', ps.foldl (fun (collected, done) parent =>
          let done := visit parents n active parent done
          (prepend ((done.getD parent.index none).getD []) collected, done)) (collected, done) =
        (joinBases (basesIn done') collected ps, done') ∧
      Extends done done' ∧ Correct parents done' ∧ (∀ d ∈ ps, Settled done' d) ∧
      ∀ a ∈ active, done'.getD a.index none = done.getD a.index none := by
  induction ps generalizing collected done with
  | nil => exact ⟨done, rfl, .refl done, correct, nofun, fun _ _ => rfl⟩
  | cons d ps ih =>
    have first := visited d done (can d List.mem_cons_self)
    obtain ⟨done', heq, grows, correct', settled, kept⟩ :=
      ih (prepend (basesIn (visit parents n active d done) d) collected) _ first.correct
        fun e he => (can e (List.mem_cons_of_mem d he)).grow first.grows first.correct
    refine ⟨done', ?_, first.grows.trans grows, correct', ?_, ?_⟩
    · rw [List.foldl_cons]
      have hd : basesIn done' d = basesIn (visit parents n active d done) d :=
        grows.basesIn first.settled
      rw [joinBases, List.foldl_cons, hd]
      exact heq
    · intro e he
      rcases List.mem_cons.1 he with rfl | he
      · exact grows.settled first.settled
      · exact settled e he
    · intro a ha
      rw [kept a ha, first.kept a ha]

/-- A new entry leaves the others as they are. -/
theorem extends_set {done : Finished} {c : ClassId} {entry : List ClassId}
    (fresh : done.getD c.index none = none) :
    Extends done (done.setIfInBounds c.index (some entry)) := by
  refine ⟨Array.size_setIfInBounds, fun d bases hd => ?_⟩
  rw [getD_setIfInBounds, if_neg]
  · exact hd
  · rintro ⟨hcd, -⟩
    rw [hcd, hd] at fresh
    cases fresh

/-- The entry that a visit of `c` adds is right if those of its parents are. -/
theorem Correct.set {c : ClassId} {done : Finished} (correct : Correct parents done)
    (settled : ∀ d ∈ parents c, Settled done d) (fresh : done.getD c.index none = none) :
    Extends done (done.setIfInBounds c.index
        (some (c :: joinBases (basesIn done) [] (parents c)))) ∧
      Correct parents (done.setIfInBounds c.index
        (some (c :: joinBases (basesIn done) [] (parents c)))) := by
  have grows : Extends done (done.setIfInBounds c.index
      (some (c :: joinBases (basesIn done) [] (parents c)))) := extends_set fresh
  refine ⟨grows, fun d bases hd => ?_⟩
  rw [getD_setIfInBounds] at hd
  split at hd
  · next h =>
    have hcd : c = d := by cases c; cases d; exact congrArg ClassId.mk h.1
    subst hcd
    cases hd
    exact ⟨by rw [joinBases_eq grows settled], fun e he => grows.settled (settled e he)⟩
  · obtain ⟨heq, hsettled⟩ := correct d bases hd
    exact ⟨by rw [joinBases_eq grows hsettled]; exact heq,
      fun e he => grows.settled (hsettled e he)⟩

/-- Without cycles a visit finishes its class. -/
theorem visit_visited (acyclic : ∀ c, ¬ Relation.TransGen (fun x y => y ∈ parents x) c c) (n : Nat)
    (active : List ClassId) (c : ClassId) (done : Finished)
    (can : CanVisit parents n active c done) :
    Visited parents active c done (visit parents n active c done) := by
  induction n generalizing active c done with
  | zero =>
    have hle := length_le_of_nodup can.nodup can.inTable
    have := can.steps
    omega
  | succ n ih =>
    have hc : c ∉ active := fun h => acyclic c (can.below c h)
    unfold visit
    by_cases finished : (done.getD c.index none).isSome
    · rw [finished, Bool.true_or, if_pos rfl]
      exact ⟨.refl done, can.correct, fun _ _ => rfl, fun _ => finished⟩
    · have absent : done.getD c.index none = none := by simpa using finished
      rw [Bool.not_eq_true] at finished
      have hcontains : active.contains c = false := by simpa using hc
      rw [finished, hcontains, Bool.false_or, if_neg Bool.false_ne_true]
      have canParent : ∀ d ∈ parents c, CanVisit parents n (c :: active) d done := by
        intro d hd
        have hlt : c.index < done.size := by
          by_contra hlt
          rw [can.leaf c (Nat.le_of_not_lt hlt)] at hd
          cases hd
        refine ⟨can.correct, can.leaf, List.nodup_cons.2 ⟨hc, can.nodup⟩, ?_, ?_, ?_⟩
        · intro a ha
          rcases List.mem_cons.1 ha with rfl | ha
          · exact hlt
          · exact can.inTable a ha
        · intro a ha
          rcases List.mem_cons.1 ha with rfl | ha
          · exact .single hd
          · exact (can.below a ha).tail hd
        · have := can.steps
          rw [List.length_cons]
          omega
      obtain ⟨done', heq, grows, correct, settled, kept⟩ :=
        visit_all (ih (c :: active)) (parents c) [] done can.correct canParent
      rw [heq]
      have fresh : done'.getD c.index none = none := by
        rw [kept c List.mem_cons_self]
        exact absent
      obtain ⟨grows', correct'⟩ := correct.set settled fresh
      refine ⟨grows.trans grows', correct', fun a ha => ?_, fun hlt => ?_⟩
      · have hne : c.index ≠ a.index := fun h => hc (by cases c; cases a; cases h; exact ha)
        rw [getD_setIfInBounds, if_neg (fun h => hne h.1)]
        exact kept a (List.mem_cons_of_mem c ha)
      · rw [Array.size_setIfInBounds] at hlt
        rw [getD_setIfInBounds, if_pos ⟨rfl, hlt⟩]
        rfl

/-! ## The whole table -/

/-- The table that visits of the classes in this order fill. -/
def visitAll (count : Nat) (parents : ClassId → List ClassId) (order : List ClassId) : Finished :=
  order.foldl (fun done c => visit parents (count + 1) [] c done) (Array.replicate count none)

theorem getD_all_eq_basesIn (parents : ClassId → List ClassId) (count : Nat) (c : ClassId) :
    (all count parents).getD c.index [] =
      basesIn (visitAll count parents ((List.range count).map ClassId.mk)) c := by
  simp only [all, visitAll, List.foldl_map, basesIn, Array.getD_eq_getD_getElem?,
    List.getD_eq_getElem?_getD, List.getElem?_map, Array.getElem?_toList]
  generalize (List.range count).foldl _ _ = done
  cases done[c.index]? with
  | none => rfl
  | some bases => cases bases <;> rfl

theorem correct_replicate (parents : ClassId → List ClassId) (count : Nat) :
    Correct parents (Array.replicate count none) := by
  intro d bases hd
  simp [Array.getD_eq_getD_getElem?, Array.getElem?_replicate] at hd
  split at hd <;> simp at hd

/-- Without cycles, visits of some classes in any order leave a table that is right and has an entry
    for each of them. -/
theorem visitAll_correct (acyclic : ∀ c, ¬ Relation.TransGen (fun x y => y ∈ parents x) c c)
    {count : Nat} (leaf : ∀ c : ClassId, count ≤ c.index → parents c = []) (order : List ClassId) :
    (visitAll count parents order).size = count ∧ Correct parents (visitAll count parents order) ∧
      ∀ c ∈ order, Settled (visitAll count parents order) c := by
  suffices visits : ∀ (cs : List ClassId) (done : Finished), done.size = count →
      Correct parents done →
      ∃ done', cs.foldl (fun done c => visit parents (count + 1) [] c done) done = done' ∧
        Extends done done' ∧ Correct parents done' ∧ ∀ c ∈ cs, Settled done' c by
    obtain ⟨done, heq, grows, correct, settled⟩ :=
      visits order _ Array.size_replicate (correct_replicate parents count)
    rw [visitAll, heq]
    exact ⟨grows.1.trans Array.size_replicate, correct, settled⟩
  intro cs
  induction cs with
  | nil => exact fun done _ correct => ⟨done, rfl, .refl done, correct, nofun⟩
  | cons c cs ih =>
    intro done size correct
    have can : CanVisit parents (count + 1) [] c done := by
      refine ⟨correct, fun x hx => leaf x (size ▸ hx), List.nodup_nil, nofun, nofun, ?_⟩
      rw [size]
      exact Nat.lt_succ_self count
    have first := visit_visited acyclic (count + 1) [] c done can
    obtain ⟨done', heq, grows, correct', settled⟩ := ih _ (first.grows.1.trans size) first.correct
    refine ⟨done', heq, first.grows.trans grows, correct', fun d hd => ?_⟩
    rcases List.mem_cons.1 hd with rfl | hd
    · exact grows.settled first.settled
    · exact settled d hd

/-- Without cycles, the visits of all classes leave a table that is right and has an entry for each
    of them. -/
theorem exists_table (acyclic : ∀ c, ¬ Relation.TransGen (fun x y => y ∈ parents x) c c)
    {count : Nat} (leaf : ∀ c : ClassId, count ≤ c.index → parents c = []) :
    ∃ done : Finished, done.size = count ∧ Correct parents done ∧ (∀ c, Settled done c) ∧
      ∀ c : ClassId, (all count parents).getD c.index [] = basesIn done c := by
  obtain ⟨size, correct, settled⟩ :=
    visitAll_correct acyclic leaf ((List.range count).map ClassId.mk)
  refine ⟨_, size, correct, fun c hlt => ?_, getD_all_eq_basesIn parents count⟩
  exact settled c (List.mem_map.2 ⟨c.index, List.mem_range.2 (size ▸ hlt), rfl⟩) hlt

/-- Without cycles, the linearization of every class is computed from those of its parents. -/
theorem getD_all (acyclic : ∀ c, ¬ Relation.TransGen (fun x y => y ∈ parents x) c c) {count : Nat}
    (leaf : ∀ c : ClassId, count ≤ c.index → parents c = []) {c : ClassId} (h : c.index < count) :
    (all count parents).getD c.index [] =
      c :: joinBases (fun d => (all count parents).getD d.index []) [] (parents c) := by
  obtain ⟨done, size, correct, settled, entry⟩ := exists_table acyclic leaf
  obtain ⟨bases, hb⟩ := Option.isSome_iff_exists.1 (settled c (size.symm ▸ h))
  rw [entry, basesIn, hb, Option.getD_some, (correct c bases hb).1]
  exact congrArg (c :: ·) (joinBases_congr (fun d _ => (entry d).symm) [])

theorem getD_all_of_le (acyclic : ∀ c, ¬ Relation.TransGen (fun x y => y ∈ parents x) c c)
    {count : Nat} (leaf : ∀ c : ClassId, count ≤ c.index → parents c = []) {c : ClassId}
    (h : count ≤ c.index) : (all count parents).getD c.index [] = [] := by
  obtain ⟨done, size, -, -, entry⟩ := exists_table acyclic leaf
  rw [entry, basesIn, Array.getD, dif_neg (by omega)]
  rfl

/-! ## Members of linearizations -/

/-- Apart from the class itself, only parents are in a finished linearization. -/
def Listed (parents : ClassId → List ClassId) (done : Finished) : Prop :=
  ∀ c, ∀ x ∈ basesIn done c, x = c ∨ ∃ d, x ∈ parents d

/-- This holds where classes are their own ancestors, too. -/
theorem visit_listed (n : Nat) (active : List ClassId) (c : ClassId) {done : Finished}
    (listed : Listed parents done) : Listed parents (visit parents n active c done) := by
  induction n generalizing active c done with
  | zero => exact listed
  | succ n ih =>
    rw [visit]
    split
    · exact listed
    suffices h : ∀ ps ⊆ parents c, ∀ r : List ClassId × Finished,
        (∀ x ∈ r.1, ∃ d, x ∈ parents d) → Listed parents r.2 →
        (∀ x ∈ (ps.foldl (fun (collected, done) parent =>
          let done := visit parents n (c :: active) parent done
          (prepend ((done.getD parent.index none).getD []) collected, done)) r).1,
            ∃ d, x ∈ parents d) ∧
        Listed parents (ps.foldl (fun (collected, done) parent =>
          let done := visit parents n (c :: active) parent done
          (prepend ((done.getD parent.index none).getD []) collected, done)) r).2 by
      obtain ⟨collected, rest⟩ := h (parents c) (List.Subset.refl _) ([], done)
        (fun x hx => absurd hx List.not_mem_nil) listed
      intro d x hx
      rw [basesIn, getD_setIfInBounds] at hx
      split at hx
      · next hd =>
        obtain rfl : c = d := by
          cases c
          cases d
          exact congrArg ClassId.mk hd.1
        rcases List.mem_cons.1 hx with rfl | hx
        · exact .inl rfl
        · exact .inr (collected x hx)
      · exact rest d x hx
    intro ps
    induction ps with
    | nil => exact fun _ r hcollected hdone => ⟨hcollected, hdone⟩
    | cons d ps ihps =>
      intro hps r hcollected hdone
      have hd : d ∈ parents c := hps List.mem_cons_self
      have visited := ih (c :: active) d hdone
      refine ihps (fun x hx => hps (List.mem_cons_of_mem d hx)) _ (fun x hx => ?_) visited
      rcases List.mem_append.1 hx with hx | hx
      · rcases visited d x (List.mem_filter.1 hx).1 with rfl | h
        · exact ⟨c, hd⟩
        · exact h
      · exact hcollected x hx

theorem getD_all_listed {count : Nat} {c x : ClassId}
    (h : x ∈ (all count parents).getD c.index []) : x = c ∨ ∃ d, x ∈ parents d := by
  have empty : Listed parents (Array.replicate count none) := by
    intro d y hy
    rw [basesIn, Array.getD] at hy
    split at hy
    · simp at hy
    · cases hy
  have visits : ∀ (cs : List ClassId) (done : Finished), Listed parents done →
      Listed parents (cs.foldl (fun done c => visit parents (count + 1) [] c done) done) := by
    intro cs
    induction cs with
    | nil => exact fun _ h => h
    | cons c cs ih => exact fun done h => ih _ (visit_listed _ _ _ h)
  rw [getD_all_eq_basesIn] at h
  exact visits _ _ empty c x h

end Linearization

/-! ## Completed programs -/

namespace Program

open Linearization

variable (p q : Program)

/-- The class `d` is listed as a parent of `c`. -/
def IsParent (c d : ClassId) : Prop := d ∈ (p.cls c).parents

/-- The class `d` follows `c` on its chain of super classes. -/
def IsSuperClass (c d : ClassId) : Prop := (p.cls c).superClass = some d

/-- No class is its own ancestor. -/
def Acyclic : Prop := ∀ c, ¬ Relation.TransGen p.IsParent c c

@[simp] theorem size_withSuperClasses : q.withSuperClasses.classes.size = q.classes.size :=
  Array.size_mapIdx

@[simp] theorem size_finish : q.finish.classes.size = q.classes.size := by
  rw [finish, Array.size_mapIdx, size_withSuperClasses]

/-- The linearizations that completing a program computes. -/
def computedBases (q : Program) : List (List ClassId) :=
  Linearization.all q.classes.size fun c => (q.withSuperClasses.cls c).parents

/-- Completing a program adds a super class where there is none, and the linearization. -/
theorem cls_finish {q : Program} {c : ClassId} (h : c.index < q.classes.size) :
    q.finish.cls c = { q.withSuperClasses.cls c with
      linearization := q.computedBases.getD c.index [] } := by
  have h' : c.index < q.withSuperClasses.classes.size := by rwa [size_withSuperClasses]
  simp only [finish, cls, computedBases, Array.getD_eq_getD_getElem?, Array.getElem?_mapIdx,
    size_withSuperClasses]
  rw [Array.getElem?_eq_getElem h']
  rfl

theorem parents_finish (c : ClassId) :
    (q.finish.cls c).parents = (q.withSuperClasses.cls c).parents := by
  by_cases h : c.index < q.classes.size
  · rw [cls_finish h]
  · have hle := Nat.le_of_not_lt h
    rw [cls_of_size_le (by rwa [size_finish]), cls_of_size_le (by rwa [size_withSuperClasses])]

/-- Without cycles, a class is linearized as itself before the bases of its parents. -/
theorem linearization_finish {q : Program} (acyclic : q.finish.Acyclic) {c : ClassId}
    (h : c.index < q.classes.size) :
    (q.finish.cls c).linearization =
      c :: joinBases (fun d => (q.finish.cls d).linearization) [] (q.finish.cls c).parents := by
  have leaf (x : ClassId) (hx : q.classes.size ≤ x.index) :
      (q.withSuperClasses.cls x).parents = [] := by
    rw [cls_of_size_le (by rwa [size_withSuperClasses])]
    rfl
  have acyclic' (x : ClassId) :
      ¬ Relation.TransGen (fun x y => y ∈ (q.withSuperClasses.cls x).parents) x x := by
    intro hx
    refine acyclic x (Relation.TransGen.mono (fun y z hz => ?_) x x hx)
    rwa [IsParent, parents_finish]
  have entry (d : ClassId) : q.computedBases.getD d.index [] = (q.finish.cls d).linearization := by
    by_cases hd : d.index < q.classes.size
    · rw [cls_finish hd]
    · have hle := Nat.le_of_not_lt hd
      rw [computedBases, getD_all_of_le acyclic' leaf hle, cls_of_size_le (by rwa [size_finish])]
      rfl
  rw [← entry, computedBases, getD_all acyclic' leaf h, parents_finish]
  exact congrArg (c :: ·) (joinBases_congr (fun d _ => entry d) [])

/-- Apart from the class itself, base classes are parents of classes, also where classes are their
    own ancestors. -/
theorem mem_linearization_finish {q : Program} {c x : ClassId}
    (h : x ∈ (q.finish.cls c).linearization) : x = c ∨ ∃ d, q.finish.IsParent d x := by
  by_cases hc : c.index < q.classes.size
  · rw [cls_finish hc] at h
    rcases getD_all_listed h with rfl | ⟨d, hd⟩
    · exact .inl rfl
    · exact .inr ⟨d, by rwa [IsParent, parents_finish]⟩
  · rw [cls_of_size_le (by rw [size_finish]; omega)] at h
    cases h

/-! ## Ancestors -/

variable {p q}

theorem IsParent.exists_child {c d : ClassId} (h : p.IsParent c d) : c.index < p.classes.size := by
  by_contra hc
  rw [IsParent, cls_of_size_le (Nat.le_of_not_lt hc)] at h
  cases h

theorem IsSuperClass.isParent {c d : ClassId} (h : p.IsSuperClass c d) : p.IsParent c d := by
  obtain ⟨ds, hds⟩ := List.head?_eq_some_iff.1 h
  rw [IsParent, hds]
  exact List.mem_cons_self

/-- A class that no class lists as a parent is no ancestor. -/
theorem not_ancestor_of_not_parent {x : ClassId}
    (h : ∀ i < p.classes.size, x ∉ (p.cls ⟨i⟩).parents) (d : ClassId) :
    ¬Relation.TransGen p.IsParent d x := by
  intro hx
  obtain ⟨y, -, hy⟩ := Relation.TransGen.tail'_iff.1 hx
  exact h y.index hy.exists_child hy

theorem isSuperClass_unique : Relator.RightUnique p.IsSuperClass := by
  intro x y z hy hz
  rw [IsSuperClass, hy] at hz
  exact Option.some.inj hz

/-- Without cycles, the classes of the table are well-founded by ancestry. -/
theorem Acyclic.wellFounded (acyclic : p.Acyclic) :
    WellFounded fun i j : Fin p.classes.size => Relation.TransGen p.IsParent ⟨j.1⟩ ⟨i.1⟩ := by
  have trans : IsTrans (Fin p.classes.size)
      fun i j => Relation.TransGen p.IsParent ⟨j.1⟩ ⟨i.1⟩ :=
    ⟨fun _ _ _ hij hjk => hjk.trans hij⟩
  have irrefl : Std.Irrefl fun i j : Fin p.classes.size =>
      Relation.TransGen p.IsParent ⟨j.1⟩ ⟨i.1⟩ := ⟨fun i => acyclic ⟨i.1⟩⟩
  exact Finite.wellFounded_of_trans_of_irrefl _

/-- Without cycles, a property that passes from the parents of a class to the class holds of every
    class. -/
theorem Acyclic.induction (acyclic : p.Acyclic) {P : ClassId → Prop}
    (step : ∀ c, (∀ d, p.IsParent c d → P d) → P c) (c : ClassId) : P c := by
  have known (i : Fin p.classes.size) : P ⟨i.1⟩ := by
    induction i using acyclic.wellFounded.induction with
    | _ i ih =>
      refine step ⟨i.1⟩ fun d hd => ?_
      by_cases hlt : d.index < p.classes.size
      · exact ih ⟨d.index, hlt⟩ (.single hd)
      · exact step d fun e he => absurd he.exists_child hlt
  by_cases hlt : c.index < p.classes.size
  · exact known ⟨c.index, hlt⟩
  · exact step c fun d hd => absurd hd.exists_child hlt

/-- Where the parents of each class have a smaller rank, no class is its own ancestor. -/
theorem acyclic_of_rank (rank : ClassId → Nat)
    (h : ∀ c ∈ p.classIds, ∀ d ∈ (p.cls c).parents, rank d < rank c) : p.Acyclic := by
  have smaller {c d : ClassId} (hd : p.IsParent c d) : rank d < rank c := by
    refine h c ?_ d hd
    exact List.mem_map.2 ⟨c.index, List.mem_range.2 hd.exists_child, rfl⟩
  intro c hc
  have : ∀ d, Relation.TransGen p.IsParent c d → rank d < rank c := by
    intro d hd
    induction hd with
    | single h => exact smaller h
    | tail _ h ih => exact (smaller h).trans ih
  exact Nat.lt_irrefl _ (this c hc)

/-- The first classes of the chain of super classes that starts at a class. -/
def superClasses (p : Program) : Nat → ClassId → List ClassId
  | 0, c => [c]
  | n + 1, c => c :: ((p.cls c).superClass.elim [] (superClasses p n))

/-- Where no super class is left out, they are the whole chain. -/
theorem chain_iff_mem_superClasses {n : Nat} {c : ClassId}
    (closed : ∀ d ∈ p.superClasses n c, ∀ e ∈ (p.cls d).superClass, e ∈ p.superClasses n c)
    (b : ClassId) : Relation.ReflTransGen p.IsSuperClass c b ↔ b ∈ p.superClasses n c := by
  constructor
  · intro h
    induction h with
    | refl => cases n <;> exact List.mem_cons_self
    | tail _ hd ih => exact closed _ ih _ hd
  · clear closed
    induction n generalizing c with
    | zero =>
      intro h
      rw [List.mem_singleton.1 h]
    | succ n ih =>
      intro h
      rcases List.mem_cons.1 h with rfl | h
      · exact .refl
      · cases hd : (p.cls c).superClass with
        | none =>
          rw [hd] at h
          cases h
        | some d =>
          rw [hd] at h
          exact .head hd (ih h)

/-- Only the class itself and its ancestors occur in the linearization. -/
theorem ancestor_of_mem_linearization (acyclic : q.finish.Acyclic) {c d : ClassId}
    (h : d ∈ (q.finish.cls c).linearization) : Relation.ReflTransGen q.finish.IsParent c d := by
  induction c using acyclic.induction with
  | _ c ih =>
    by_cases hlt : c.index < q.classes.size
    · rw [linearization_finish acyclic hlt, List.mem_cons, mem_joinBases] at h
      rcases h with rfl | h | ⟨e, he, hd⟩
      · exact .refl
      · cases h
      · exact .head he (ih e he hd)
    · rw [cls_of_size_le (by rw [size_finish]; omega)] at h
      cases h

/-- All base classes are in the table. -/
theorem index_lt_of_mem_linearization (acyclic : q.finish.Acyclic) {c d : ClassId}
    (h : d ∈ (q.finish.cls c).linearization) : d.index < q.classes.size := by
  induction c using acyclic.induction with
  | _ c ih =>
    by_cases hlt : c.index < q.classes.size
    · rw [linearization_finish acyclic hlt, List.mem_cons, mem_joinBases] at h
      rcases h with rfl | h | ⟨e, he, hd⟩
      · exact hlt
      · cases h
      · exact ih e he hd
    · rw [cls_of_size_le (by rw [size_finish]; omega)] at h
      cases h

/-- No class occurs twice in a linearization. -/
theorem nodup_linearization (acyclic : q.finish.Acyclic) (c : ClassId) :
    (q.finish.cls c).linearization.Nodup := by
  induction c using acyclic.induction with
  | _ c ih =>
    by_cases hlt : c.index < q.classes.size
    · rw [linearization_finish acyclic hlt, List.nodup_cons]
      refine ⟨fun h => ?_, nodup_joinBases ih List.nodup_nil⟩
      rcases mem_joinBases.1 h with h | ⟨e, he, hc⟩
      · cases h
      · exact acyclic c (.head' he (ancestor_of_mem_linearization acyclic hc))
    · rw [cls_of_size_le (by rw [size_finish]; omega)]
      exact List.nodup_nil

/-- The linearization of a class ends with that of its super class. -/
theorem linearization_of_superClass (acyclic : q.finish.Acyclic) {c d : ClassId}
    (h : (q.finish.cls c).superClass = some d) :
    ∃ front, (q.finish.cls c).linearization =
      c :: (front ++ (q.finish.cls d).linearization) := by
  obtain ⟨ps, hps⟩ := List.head?_eq_some_iff.1 h
  have hc : c.index < q.classes.size := by
    rw [← size_finish]
    exact IsParent.exists_child (d := d) (by rw [IsParent, hps]; exact List.mem_cons_self)
  obtain ⟨front, hfront⟩ := exists_front_joinBases
    (fun d => (q.finish.cls d).linearization) (prepend (q.finish.cls d).linearization []) ps
  refine ⟨front, ?_⟩
  rw [linearization_finish acyclic hc, hps, joinBases, List.foldl_cons, ← joinBases, hfront,
    prepend]
  simp

theorem mem_linearization_self (acyclic : q.finish.Acyclic) {c : ClassId}
    (h : c.index < q.classes.size) : c ∈ (q.finish.cls c).linearization := by
  rw [linearization_finish acyclic h]
  exact List.mem_cons_self

/-- The linearization of a class ends with those of all its super classes. -/
theorem linearization_suffix_of_chain (acyclic : q.finish.Acyclic) {b c : ClassId}
    (chain : Relation.ReflTransGen q.finish.IsSuperClass c b) :
    (q.finish.cls b).linearization <:+ (q.finish.cls c).linearization := by
  induction chain with
  | refl => exact List.suffix_rfl
  | @tail d _ _ hstep ih =>
    obtain ⟨front, hfront⟩ := linearization_of_superClass acyclic hstep
    exact List.IsSuffix.trans ⟨d :: front, hfront.symm⟩ ih

/-- The bases of the super classes are bases of the class. -/
theorem linearization_subset_of_chain (acyclic : q.finish.Acyclic) {b c : ClassId}
    (chain : Relation.ReflTransGen q.finish.IsSuperClass c b) :
    (q.finish.cls b).linearization ⊆ (q.finish.cls c).linearization :=
  (linearization_suffix_of_chain acyclic chain).subset

end Program

end ObjectInit
