import ObjectInit.Proofs.Hierarchy
import ObjectInit.Proofs.Scoped

/-!
# Hierarchies with cycles

A class may list itself, one of its descendants or the same parent twice. `Linearization.Visits` is
the recursion that computes the linearizations, without a bound on its depth: a class that is in
progress is skipped, and what has been found of its bases so far is nothing. The recursion comes to
an end because the classes in progress are distinct.

What keeps duplicates out is that the bases of a finished class are finished themselves. So a class
in progress is no base of any class yet when it is put in front of the bases of its own parents.

Main results:

* `Linearization.visits_visitEach`: the recursion ends within the number of steps that
  `Linearization.visit` is given.
* `Linearization.Visits.sound`: what holds of the finished classes at every stage.
* `Program.finish_of_any_hierarchy`: completing a built program ends, and what the linearizations
  look like.
-/

namespace ObjectInit

namespace Linearization

open Relation

/-! ## The recursion -/

/-- Visiting the classes `todo` one after the other, while the classes `active` are in progress,
    turns the bases `collected` and the table `done` into `collected'` and `done'`. -/
inductive Visits (parents : ClassId → List ClassId) :
    List ClassId → List ClassId → List ClassId → Finished → List ClassId → Finished → Prop where
  | nil {active collected done} : Visits parents active [] collected done collected done
  /-- The class is finished or in progress. -/
  | skip {active c todo collected done collected' done'}
      (known : c.index < done.size)
      (seen : (done.getD c.index none).isSome ∨ c ∈ active)
      (rest : Visits parents active todo (prepend (basesIn done c) collected) done collected'
        done') :
      Visits parents active (c :: todo) collected done collected' done'
  /-- The parents of the class are visited first, while the class is in progress. -/
  | enter {active c todo collected done bases inner collected' done'}
      (known : c.index < done.size)
      (fresh : done.getD c.index none = none) (notActive : c ∉ active)
      (above : Visits parents (c :: active) (parents c) [] done bases inner)
      (rest : Visits parents active todo (prepend (c :: bases) collected)
        (inner.setIfInBounds c.index (some (c :: bases))) collected' done') :
      Visits parents active (c :: todo) collected done collected' done'

variable {parents : ClassId → List ClassId} {active todo collected collected' : List ClassId}
  {done done' : Finished}

/-- The recursion has one result. -/
theorem Visits.unique {bases : List ClassId} {table : Finished}
    (h : Visits parents active todo collected done collected' done')
    (h' : Visits parents active todo collected done bases table) :
    collected' = bases ∧ done' = table := by
  induction h generalizing bases table with
  | nil =>
    cases h'
    exact ⟨rfl, rfl⟩
  | skip _ seen _ ih =>
    cases h' with
    | skip _ _ rest => exact ih rest
    | enter _ fresh notActive =>
      rcases seen with seen | seen
      · rw [fresh] at seen
        cases seen
      · exact absurd seen notActive
  | enter _ fresh notActive _ _ ihAbove ihRest =>
    cases h' with
    | skip _ seen _ =>
      rcases seen with seen | seen
      · rw [fresh] at seen
        cases seen
      · exact absurd seen notActive
    | enter _ _ _ above rest =>
      obtain ⟨rfl, rfl⟩ := ihAbove above
      exact ihRest rest

/-! ## Termination -/

/-- The loop over the parents of a class. -/
def visitEach (parents : ClassId → List ClassId) (n : Nat) (active todo : List ClassId)
    (r : List ClassId × Finished) : List ClassId × Finished :=
  todo.foldl (fun (collected, done) c =>
    let done := visit parents n active c done
    (prepend (basesIn done c) collected, done)) r

theorem visitEach_cons (n : Nat) (c : ClassId) :
    visitEach parents n active (c :: todo) (collected, done) =
      visitEach parents n active todo
        (prepend (basesIn (visit parents n active c done) c) collected,
          visit parents n active c done) := rfl

theorem visit_succ (n : Nat) (active : List ClassId) (c : ClassId) (done : Finished) :
    visit parents (n + 1) active c done =
      if (done.getD c.index none).isSome || active.contains c then done
      else
        let r := visitEach parents n (c :: active) (parents c) ([], done)
        r.2.setIfInBounds c.index (some (c :: r.1)) := rfl

theorem Visits.size (h : Visits parents active todo collected done collected' done') :
    done'.size = done.size := by
  induction h with
  | nil => rfl
  | skip _ _ _ ih => exact ih
  | enter _ _ _ _ _ ihAbove ihRest => rw [ihRest, Array.size_setIfInBounds, ihAbove]

/-- With enough steps for the classes that can still be entered, the loop goes through the whole
    recursion. -/
theorem visits_visitEach (exist : ∀ c, ∀ d ∈ parents c, d.index < done.size) (n : Nat)
    (nodup : active.Nodup) (inTable : ∀ a ∈ active, a.index < done.size)
    (steps : done.size < n + active.length) (known : ∀ c ∈ todo, c.index < done.size)
    (collected : List ClassId) :
    Visits parents active todo collected done
      (visitEach parents n active todo (collected, done)).1
      (visitEach parents n active todo (collected, done)).2 := by
  induction n generalizing active todo collected done with
  | zero =>
    have := length_le_of_nodup nodup inTable
    omega
  | succ n ih =>
    induction todo generalizing collected done with
    | nil => exact .nil
    | cons c todo ihTodo =>
      have hc := known c List.mem_cons_self
      have hrest := fun d hd => known d (List.mem_cons_of_mem c hd)
      rw [visitEach_cons, visit_succ]
      by_cases seen : ((done.getD c.index none).isSome || active.contains c) = true
      · rw [if_pos seen]
        refine .skip hc ?_ (ihTodo exist inTable steps hrest _)
        rw [Bool.or_eq_true, List.contains_iff_mem] at seen
        exact seen
      · rw [if_neg seen]
        rw [Bool.not_eq_true, Bool.or_eq_false_iff] at seen
        have fresh : done.getD c.index none = none := by simpa using seen.1
        have notActive : c ∉ active := by simpa using seen.2
        have steps' : done.size < n + (c :: active).length := by
          rw [List.length_cons]
          omega
        have above := ih exist (List.nodup_cons.2 ⟨notActive, nodup⟩)
          (fun a ha => (List.mem_cons.1 ha).elim (fun h => h ▸ hc) (inTable a)) steps' (exist c) []
        generalize visitEach parents n (c :: active) (parents c) ([], done) = r at above ⊢
        have size : (r.2.setIfInBounds c.index (some (c :: r.1))).size = done.size := by
          rw [Array.size_setIfInBounds, above.size]
        have entry : basesIn (r.2.setIfInBounds c.index (some (c :: r.1))) c = c :: r.1 := by
          rw [basesIn, getD_setIfInBounds, if_pos ⟨rfl, above.size ▸ hc⟩]
          rfl
        rw [← size] at exist inTable steps hrest
        have rest := ihTodo exist inTable steps hrest (prepend (c :: r.1) collected)
        refine .enter hc fresh notActive above ?_
        dsimp only
        rw [entry]
        exact rest

/-! ## What is finished -/

/-- The classes in progress have no entry. An entry starts with its class, lists no class twice, and
    lists only classes that are finished and reachable from the class. -/
structure Sound (parents : ClassId → List ClassId) (active : List ClassId) (done : Finished) :
    Prop where
  fresh : ∀ a ∈ active, done.getD a.index none = none
  head : ∀ (c : ClassId) bases, done.getD c.index none = some bases → bases.head? = some c
  nodup : ∀ (c : ClassId) bases, done.getD c.index none = some bases → bases.Nodup
  finished : ∀ (c : ClassId) bases, done.getD c.index none = some bases →
    ∀ d ∈ bases, (done.getD d.index none).isSome
  reached : ∀ (c : ClassId) bases, done.getD c.index none = some bases →
    ∀ d ∈ bases, ReflTransGen (fun x y => y ∈ parents x) c d

/-- What is known of the bases of a class that is in progress. -/
structure Listing (done : Finished) (collected : List ClassId) : Prop where
  nodup : collected.Nodup
  finished : ∀ d ∈ collected, (done.getD d.index none).isSome

theorem Extends.isSome {c : ClassId} (h : Extends done done')
    (hc : (done.getD c.index none).isSome) : (done'.getD c.index none).isSome := by
  obtain ⟨bases, hb⟩ := Option.isSome_iff_exists.1 hc
  rw [h.2 c bases hb]
  rfl

theorem Listing.grow (h : Listing done collected) (grows : Extends done done') :
    Listing done' collected :=
  ⟨h.nodup, fun d hd => grows.isSome (h.finished d hd)⟩

theorem Listing.prepend {bases : List ClassId} (h : Listing done collected)
    (hbases : Listing done bases) : Listing done (prepend bases collected) := by
  refine ⟨(hbases.nodup.filter _).append h.nodup fun x hx hx' => ?_, fun d hd => ?_⟩
  · have := (List.mem_filter.1 hx).2
    simp [hx'] at this
  · rcases List.mem_append.1 hd with hd | hd
    · exact hbases.finished d (List.mem_filter.1 hd).1
    · exact h.finished d hd

/-- The bases that are found for a class which is finished or in progress. -/
theorem Sound.listing (sound : Sound parents active done) (c : ClassId) :
    Listing done (basesIn done c) := by
  rw [basesIn]
  cases hc : done.getD c.index none with
  | none => exact ⟨List.nodup_nil, List.forall_mem_nil _⟩
  | some bases => exact ⟨sound.nodup c bases hc, sound.finished c bases hc⟩

theorem Sound.reached_basesIn (sound : Sound parents active done) {c d : ClassId}
    (hd : d ∈ basesIn done c) : ReflTransGen (fun x y => y ∈ parents x) c d := by
  rw [basesIn] at hd
  cases hc : done.getD c.index none with
  | none =>
    rw [hc] at hd
    cases hd
  | some bases =>
    rw [hc] at hd
    exact sound.reached c bases hc d hd

/-- A class is finished when the bases of its parents are collected. It is none of them, since it
    was in progress. -/
theorem Sound.set {c : ClassId} {bases : List ClassId} (known : c.index < done.size)
    (notActive : c ∉ active) (sound : Sound parents (c :: active) done)
    (listing : Listing done bases)
    (reached : ∀ d ∈ bases, ∃ e ∈ parents c, ReflTransGen (fun x y => y ∈ parents x) e d) :
    Sound parents active (done.setIfInBounds c.index (some (c :: bases))) := by
  have fresh := sound.fresh c List.mem_cons_self
  have grows : Extends done (done.setIfInBounds c.index (some (c :: bases))) := extends_set fresh
  have new : (done.setIfInBounds c.index (some (c :: bases))).getD c.index none =
      some (c :: bases) := by
    rw [getD_setIfInBounds, if_pos ⟨rfl, known⟩]
  have unlisted : c ∉ bases := fun hc => by
    have := listing.finished c hc
    rw [fresh] at this
    cases this
  have entries {motive : ClassId → List ClassId → Prop} (self : motive c (c :: bases))
      (old : ∀ d ds, done.getD d.index none = some ds → motive d ds) (d : ClassId)
      (ds : List ClassId)
      (hd : (done.setIfInBounds c.index (some (c :: bases))).getD d.index none = some ds) :
      motive d ds := by
    rw [getD_setIfInBounds] at hd
    split at hd
    · next h =>
      obtain rfl : c = d := by
        cases c
        cases d
        exact congrArg ClassId.mk h.1
      cases hd
      exact self
    · exact old d ds hd
  refine ⟨fun a ha => ?_, entries rfl sound.head,
    entries (List.nodup_cons.2 ⟨unlisted, listing.nodup⟩) sound.nodup,
    entries (fun d hd => ?_) fun d ds hd e he => grows.isSome (sound.finished d ds hd e he),
    entries (fun d hd => ?_) sound.reached⟩
  · have hne : c.index ≠ a.index := fun h => notActive (by cases c; cases a; cases h; exact ha)
    rw [getD_setIfInBounds, if_neg fun h => hne h.1]
    exact sound.fresh a (List.mem_cons_of_mem c ha)
  · rcases List.mem_cons.1 hd with rfl | hd
    · rw [new]
      rfl
    · exact grows.isSome (listing.finished d hd)
  · rcases List.mem_cons.1 hd with rfl | hd
    · exact .refl
    · obtain ⟨e, he, hed⟩ := reached d hd
      exact .head he hed

/-- What one visit after the other leaves behind. -/
structure Collects (parents : ClassId → List ClassId) (active todo collected : List ClassId)
    (done : Finished) (collected' : List ClassId) (done' : Finished) : Prop where
  grows : Extends done done'
  sound : Sound parents active done'
  listing : Listing done' collected'
  reached : ∀ x ∈ collected', x ∈ collected ∨
    ∃ d ∈ todo, ReflTransGen (fun x y => y ∈ parents x) d x
  settled : ∀ c ∈ todo, (done'.getD c.index none).isSome ∨ c ∈ active

/-- A first visit and the others. -/
theorem Collects.cons {c : ClassId} {bases : List ClassId} {table : Finished}
    (grows : Extends done table) (settled : (table.getD c.index none).isSome ∨ c ∈ active)
    (reached : ∀ x ∈ bases, ReflTransGen (fun x y => y ∈ parents x) c x)
    (rest : Collects parents active todo (prepend bases collected) table collected' done') :
    Collects parents active (c :: todo) collected done collected' done' := by
  refine ⟨grows.trans rest.grows, rest.sound, rest.listing, fun x hx => ?_, fun d hd => ?_⟩
  · rcases rest.reached x hx with hx | ⟨d, hd, hx⟩
    · rcases List.mem_append.1 hx with hx | hx
      · exact .inr ⟨c, List.mem_cons_self, reached x (List.mem_filter.1 hx).1⟩
      · exact .inl hx
    · exact .inr ⟨d, List.mem_cons_of_mem c hd, hx⟩
  · rcases List.mem_cons.1 hd with rfl | hd
    · exact settled.imp_left rest.grows.isSome
    · exact rest.settled d hd

/-- At every stage of the recursion the finished entries are sound, and so are the bases that are
    collected. -/
theorem Visits.sound (h : Visits parents active todo collected done collected' done')
    (sound : Sound parents active done) (listing : Listing done collected) :
    Collects parents active todo collected done collected' done' := by
  induction h with
  | nil => exact ⟨.refl _, sound, listing, fun _ hx => .inl hx, nofun⟩
  | @skip active c todo collected done collected' done' _ seen _ ih =>
    exact .cons (.refl done) seen (fun x hx => sound.reached_basesIn hx)
      (ih sound (listing.prepend (sound.listing c)))
  | @enter active c todo collected done bases inner collected' done' known fresh notActive above _
      ihAbove ihRest =>
    have started : Sound parents (c :: active) done := by
      refine ⟨fun a ha => ?_, sound.head, sound.nodup, sound.finished, sound.reached⟩
      rcases List.mem_cons.1 ha with rfl | ha
      · exact fresh
      · exact sound.fresh a ha
    have parts := ihAbove started ⟨List.nodup_nil, nofun⟩
    have reached (d : ClassId) (hd : d ∈ bases) :
        ∃ e ∈ parents c, ReflTransGen (fun x y => y ∈ parents x) e d :=
      (parts.reached d hd).resolve_left List.not_mem_nil
    have known' : c.index < inner.size := above.size ▸ known
    have left := parts.sound.set known' notActive parts.listing reached
    have grows : Extends done (inner.setIfInBounds c.index (some (c :: bases))) :=
      parts.grows.trans (extends_set (parts.sound.fresh c List.mem_cons_self))
    have entry : (inner.setIfInBounds c.index (some (c :: bases))).getD c.index none =
        some (c :: bases) := by
      rw [getD_setIfInBounds, if_pos ⟨rfl, known'⟩]
    have own : Listing (inner.setIfInBounds c.index (some (c :: bases))) (c :: bases) :=
      ⟨left.nodup c _ entry, left.finished c _ entry⟩
    have settled :
        ((inner.setIfInBounds c.index (some (c :: bases))).getD c.index none).isSome := by
      rw [entry]
      rfl
    exact .cons grows (.inl settled) (left.reached c _ entry)
      (ihRest left ((listing.grow grows).prepend own))

/-! ## All classes -/

theorem snd_visitEach (n : Nat) (active todo : List ClassId) (r : List ClassId × Finished) :
    (visitEach parents n active todo r).2 =
      todo.foldl (fun done c => visit parents n active c done) r.2 := by
  induction todo generalizing r with
  | nil => rfl
  | cons c todo ih =>
    rw [visitEach_cons, ih]
    rfl

theorem sound_replicate (parents : ClassId → List ClassId) (count : Nat) :
    Sound parents [] (Array.replicate count none) := by
  have empty (c : ClassId) (bases : List ClassId)
      (h : (Array.replicate count (none : Option (List ClassId))).getD c.index none =
        some bases) : False := by
    rw [Array.getD] at h
    split at h
    · simp at h
    · cases h
  exact ⟨List.forall_mem_nil _, fun c bases h => (empty c bases h).elim,
    fun c bases h => (empty c bases h).elim, fun c bases h => (empty c bases h).elim,
    fun c bases h => (empty c bases h).elim⟩

/-- The visits of all classes, and what they leave. -/
theorem visits_all (count : Nat) (exist : ∀ c, ∀ d ∈ parents c, d.index < count) :
    ∃ bases done, Visits parents [] ((List.range count).map ClassId.mk) []
        (Array.replicate count none) bases done ∧ Sound parents [] done ∧
      ∀ c : ClassId, c.index < count →
        done.getD c.index none = some ((all count parents).getD c.index []) := by
  have known : ∀ c ∈ (List.range count).map ClassId.mk, c.index < count := by
    intro c hc
    obtain ⟨i, hi, rfl⟩ := List.mem_map.1 hc
    exact List.mem_range.1 hi
  have exist' : ∀ c, ∀ d ∈ parents c,
      d.index < (Array.replicate count (none : Option (List ClassId))).size := by
    rwa [Array.size_replicate]
  have visits := visits_visitEach exist' (count + 1) List.nodup_nil nofun
    (by rw [Array.size_replicate]; exact Nat.lt_succ_self count)
    (by rwa [Array.size_replicate]) []
  have collects := visits.sound (sound_replicate parents count) ⟨List.nodup_nil, nofun⟩
  refine ⟨_, _, visits, collects.sound, fun c hc => ?_⟩
  have settled := (collects.settled c
    (List.mem_map.2 ⟨c.index, List.mem_range.2 hc, rfl⟩)).resolve_right List.not_mem_nil
  obtain ⟨bases, hb⟩ := Option.isSome_iff_exists.1 settled
  have entry := getD_all_eq_basesIn parents count c
  rw [visitAll, ← snd_visitEach (count + 1) [] _ ([], Array.replicate count none), basesIn, hb]
    at entry
  rw [hb, entry]
  rfl

end Linearization

/-! ## Completed programs -/

namespace Program

open Linearization Relation

variable {q : Program}

/-- Whatever the parents of the classes are, completing a built program ends: the recursion over the
    classes and their parents has a result, and only one, which holds the linearizations. Each of
    them starts with its class, lists no class twice, and lists only classes that are reachable from
    its class by going from classes to their parents. -/
theorem finish_of_any_hierarchy (built : q.Built) :
    (∃ bases done,
      Visits (fun c => (q.finish.cls c).parents) [] ((List.range q.classes.size).map ClassId.mk) []
        (Array.replicate q.classes.size none) bases done) ∧
    (∀ bases done,
      Visits (fun c => (q.finish.cls c).parents) [] ((List.range q.classes.size).map ClassId.mk) []
        (Array.replicate q.classes.size none) bases done →
      ∀ c : ClassId, c.index < q.finish.classes.size →
        done.getD c.index none = some (q.finish.cls c).linearization) ∧
    ∀ c : ClassId, c.index < q.finish.classes.size →
      (q.finish.cls c).linearization.head? = some c ∧ (q.finish.cls c).linearization.Nodup ∧
        ∀ d ∈ (q.finish.cls c).linearization, ReflTransGen q.finish.IsParent c d := by
  have exist (c d : ClassId) (hd : d ∈ (q.finish.cls c).parents) : d.index < q.classes.size :=
    built.coherent.parents_lt_finish hd
  obtain ⟨bases, done, visits, sound, entries⟩ := visits_all q.classes.size exist
  have entry (c : ClassId) (hc : c.index < q.finish.classes.size) :
      done.getD c.index none = some (q.finish.cls c).linearization := by
    rw [size_finish] at hc
    have same : (fun c => (q.finish.cls c).parents) =
        fun c => (q.withSuperClasses.cls c).parents := funext q.parents_finish
    rw [entries c hc, cls_finish hc, computedBases, same]
  refine ⟨⟨bases, done, visits⟩, fun bases' done' visits' c hc => ?_, fun c hc => ?_⟩
  · rw [← (visits.unique visits').2]
    exact entry c hc
  · have hentry := entry c hc
    exact ⟨sound.head c _ hentry, sound.nodup c _ hentry, sound.reached c _ hentry⟩

/-- Two classes `A` and `B` that extend each other, and a class that lists itself and `A` twice. -/
def tangled : Program := .assemble [
  .defineClass "A" .package .none true,
  .defineClass "B" .package .none true,
  .defineClass "C" .package .none true,
  .extend ⟨4⟩ ⟨.bare, ⟨5⟩⟩ [],
  .extend ⟨5⟩ ⟨.bare, ⟨4⟩⟩ [],
  .extend ⟨6⟩ ⟨.bare, ⟨6⟩⟩ [],
  .extend ⟨6⟩ ⟨.bare, ⟨4⟩⟩ [],
  .extend ⟨6⟩ ⟨.bare, ⟨4⟩⟩ []]

/-- `B` was visited while `A` was in progress, so it does not list `A`. -/
theorem linearization_tangled :
    (tangled.finish.cls ⟨5⟩).linearization = [⟨5⟩] ∧
      (tangled.finish.cls ⟨6⟩).linearization = [⟨6⟩, ⟨4⟩, ⟨5⟩] ∧
      (tangled.finish.cls ⟨6⟩).linearization.Nodup ∧
      ReflTransGen tangled.finish.IsParent ⟨6⟩ ⟨5⟩ := by
  have built : tangled.Built := (assembled_assemble _).built
  obtain ⟨-, -, all⟩ := finish_of_any_hierarchy built
  obtain ⟨-, nodup, reached⟩ := all ⟨6⟩ (by decide +kernel)
  refine ⟨by decide +kernel, by decide +kernel, nodup, reached ⟨5⟩ ?_⟩
  decide +kernel

end Program

end ObjectInit
