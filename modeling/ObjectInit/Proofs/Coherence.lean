import ObjectInit.Proofs.Changes

/-!
# Built programs are coherent

In a built program, each class lists its parents twice in the same way, with their constructors, and
primary constructors are marked as such and belong to their class. Each kind of change keeps that.

Main results:

* `Program.Coherent.change`: every change keeps the tables coherent.
* `Program.Built.coherent`: the tables of a built program are coherent.
* `Program.Built.changes`: so every command on a built program is a sequence of changes.
-/

namespace ObjectInit.Program

variable {whole : Prop} {q q' : Program}

/-! ## Classes that change -/

/-- A change of one class that keeps the tables coherent. -/
structure Reshapes (q : Program) (c : ClassId) (o : ClassDef) : Prop where
  flags : o.flags = (q.cls c).flags
  owner : o.owner = (q.cls c).owner
  source : o.hasSource = true → (q.cls c).hasSource = true ∨ 3 ≤ c.index
  parents : ∀ d ∈ o.parents, d.index < q.classes.size
  listed : ∀ t, o.template = some t → t.parents.map Parent.call = o.parents.map q.parentCall
  constructor : ∀ ctor, o.primaryConstructor = some ctor → q.IsConstructorOf ctor c
  /-- The constructor of a class that is listed somewhere stays. -/
  calls : o.primaryConstructor = (q.cls c).primaryConstructor ∨
    c ∉ o.parents ∧ ∀ d, c ∉ (q.cls d).parents

theorem Coherent.reshapes (h : q.Coherent) (c : ClassId) : q.Reshapes c (q.cls c) :=
  ⟨rfl, rfl, .inl, h.parents c, h.listed c, h.constructors c, .inl rfl⟩

theorem Reshapes.noSource {c : ClassId} {o : ClassDef} (h : q.Reshapes c o) (old : c.index < 3)
    (none : (q.cls c).hasSource = false) : o.hasSource = false := by
  rw [Bool.eq_false_iff]
  intro source
  rcases h.source source with before | new
  · rw [none] at before
    cases before
  · omega

/-- The tables stay coherent if each class does so, and constructors stay what they are. -/
theorem Coherent.of_reshapes (h : q.Coherent) (size : q'.classes.size = q.classes.size)
    (kept : ∀ ctor c, q.IsConstructorOf ctor c → q'.IsConstructorOf ctor c)
    (classes : ∀ c, q.Reshapes c (q'.cls c))
    (calls : ∀ c, ∀ d ∈ (q'.cls c).parents, q'.parentCall d = q.parentCall d) : q'.Coherent where
  size := size ▸ h.size
  root := by
    rw [ClassDef.isPackage, (classes .root).flags]
    exact h.root
  object := by
    rw [ClassDef.isTrait, (classes .object).flags]
    exact h.object
  noSource := ⟨(classes .any).noSource (by decide) h.noSource.1,
    (classes .object).noSource (by decide) h.noSource.2⟩
  topLevel := ⟨(classes .any).owner.trans h.topLevel.1,
    (classes .object).owner.trans h.topLevel.2⟩
  parents c d hd := size ▸ (classes c).parents d hd
  listed c t ht := ((classes c).listed t ht).trans (List.map_congr_left (calls c)).symm
  constructors c ctor hctor := kept ctor c ((classes c).constructor ctor hctor)

/-! ## Edits -/

theorem IsConstructorOf.after {ctor : SymbolId} {c : ClassId} (h : q.IsConstructorOf ctor c)
    (same : q.SameShapes q') : q'.IsConstructorOf ctor c := by
  obtain ⟨hsize, howner, hprimary⟩ := h
  have kept := same.symbol ctor hsize
  refine ⟨Nat.lt_of_lt_of_le hsize same.symbols, kept.owner.trans howner, ?_⟩
  rw [Symbol.isPrimaryConstructor, Symbol.isConstructor, kept.flags]
  exact hprimary

theorem SameShapes.parentCall (h : q.SameShapes q') (c : ClassId) :
    q'.parentCall c = q.parentCall c :=
  congrArg (Prod.mk c) (h.primaryConstructor c)

/-- Edits keep the tables coherent. -/
theorem Coherent.after (h : q.Coherent) (same : q.SameShapes q') : q'.Coherent := by
  have listed (c : ClassId) :
      (q'.cls c).template.map Template.parents = (q.cls c).template.map Template.parents :=
    congrArg Shape.listed (same.shape c)
  have source (c : ClassId) : (q'.cls c).hasSource = (q.cls c).hasSource := by
    have := congrArg Option.isSome (listed c)
    rwa [Option.isSome_map, Option.isSome_map] at this
  refine h.of_reshapes same.size (fun _ _ hctor => hctor.after same) (fun c => ?_)
    fun _ d _ => same.parentCall d
  refine ⟨congrArg Shape.flags (same.shape c), congrArg Shape.owner (same.shape c),
    fun hc => .inl ((source c).symm.trans hc), fun d hd => ?_, fun t ht => ?_, fun ctor hctor => ?_,
    .inl (same.primaryConstructor c)⟩
  · rw [same.parents] at hd
    exact h.parents c d hd
  · have before := listed c
    rw [ht] at before
    obtain ⟨t', ht', heq⟩ := Option.map_eq_some_iff.1 before.symm
    rw [same.parents, ← heq, h.listed c t' ht']
  · rw [same.primaryConstructor] at hctor
    exact h.constructors c ctor hctor

/-! ## Other changes -/

/-- A new class without parents, constructor and source. -/
theorem Coherent.push (h : q.Coherent) {o : ClassDef} (parents : o.parents = [])
    (constructor : o.primaryConstructor = none) (template : o.template = none) :
    ({ q with classes := q.classes.push o } : Program).Coherent := by
  have old {c : ClassId} (hc : c.index < q.classes.size) :
      ({ q with classes := q.classes.push o } : Program).cls c = q.cls c := by
    rw [cls_push, if_neg (Nat.ne_of_lt hc)]
  have size : ({ q with classes := q.classes.push o } : Program).classes.size =
      q.classes.size + 1 := Array.size_push o
  have hsize := h.size
  have root : ClassId.root.index < q.classes.size := Nat.lt_of_lt_of_le (by decide) hsize
  have any : ClassId.any.index < q.classes.size := Nat.lt_of_lt_of_le (by decide) hsize
  have object : ClassId.object.index < q.classes.size := Nat.lt_of_lt_of_le (by decide) hsize
  have exist (c : ClassId) :
      ∀ d ∈ (({ q with classes := q.classes.push o } : Program).cls c).parents,
        d.index < q.classes.size := by
    intro d hd
    rw [cls_push] at hd
    split at hd
    · rw [parents] at hd
      cases hd
    · exact h.parents c d hd
  refine ⟨?_, ?_, ?_, ⟨?_, ?_⟩, ⟨?_, ?_⟩, fun c d hd => ?_, fun c t ht => ?_,
    fun c ctor hctor => ?_⟩
  · rw [size]
    omega
  · rw [old root]
    exact h.root
  · rw [old object]
    exact h.object
  · rw [old any]
    exact h.noSource.1
  · rw [old object]
    exact h.noSource.2
  · rw [old any]
    exact h.topLevel.1
  · rw [old object]
    exact h.topLevel.2
  · rw [size]
    exact Nat.lt_succ_of_lt (exist c d hd)
  · rw [cls_push] at ht
    split at ht
    · rw [template] at ht
      cases ht
    · next hc =>
      rw [cls_push, if_neg hc, h.listed c t ht]
      refine List.map_congr_left fun d hd => ?_
      rw [parentCall, parentCall, old (h.parents c d hd)]
  · rw [cls_push] at hctor
    split at hctor
    · rw [constructor] at hctor
      cases hctor
    · exact h.constructors c ctor hctor

/-- A class is changed coherently, and the others stay. -/
theorem Coherent.modify (h : q.Coherent) {c : ClassId} {f : ClassDef → ClassDef}
    (reshapes : q.Reshapes c (f (q.cls c))) :
    ({ q with classes := q.classes.modify c.index f } : Program).Coherent := by
  refine h.of_reshapes Array.size_modify (fun _ _ => id) (fun d => ?_) fun d x hx => ?_
  · rw [cls_modify]
    split
    · next hd =>
      rw [hd.1]
      exact reshapes
    · exact h.reshapes d
  · rw [parentCall, parentCall, cls_modify]
    split
    · next hxc =>
      rcases reshapes.calls with same | ⟨self, others⟩
      · rw [same, hxc.1]
      · rw [hxc.1, cls_modify] at hx
        split at hx
        · exact absurd hx self
        · exact absurd hx (others d)
    · rfl

/-- Each change keeps the tables coherent. -/
theorem Coherent.change (h : q.Coherent) (change : q.Change whole q') : q'.Coherent := by
  cases change with
  | edit edit => exact h.after edit.sameShapes
  | addClass _ _ blank => exact h.push blank.parents blank.primaryConstructor blank.template
  | @setConstructor c ctor fresh _ isConstructor =>
    refine h.modify ⟨rfl, rfl, .inl, h.parents c, h.listed c, fun s hs => ?_,
      .inr ⟨fresh.unlisted c, fresh.unlisted⟩⟩
    cases hs
    exact isConstructor
  | @setSource c fresh =>
    refine h.modify ⟨rfl, rfl, fun _ => .inr fresh.isNew.1, h.parents c, fun t ht => ?_,
      h.constructors c, .inl rfl⟩
    cases ht
    dsimp only
    rw [fresh.parents]
    rfl
  | @extend c parent args exist =>
    refine h.modify ⟨rfl, rfl, fun hsource => .inl ?_, fun d hd => ?_, fun t ht => ?_,
      h.constructors c, .inl rfl⟩
    · rw [ClassDef.hasSource, Option.isSome_map] at hsource
      exact hsource
    · rcases List.mem_append.1 hd with hd | hd
      · exact h.parents c d hd
      · rw [List.mem_singleton.1 hd]
        exact exist
    · obtain ⟨t', ht', rfl⟩ := Option.map_eq_some_iff.1 ht
      simp only [List.map_append, h.listed c t' ht']
      rfl

theorem Coherent.changes (h : q.Coherent) (changes : Relation.ReflTransGen (Change whole) q q') :
    q'.Coherent := by
  induction changes with
  | refl => exact h
  | tail _ change ih => exact ih.change change

/-! ## Built programs -/

/-- Where no class has a source, the tables are coherent if each of their classes is. -/
theorem coherent_of_table (size : 3 ≤ q.classes.size) (root : (q.cls .root).isPackage = true)
    (object : (q.cls .object).isTrait = false)
    (topLevel : (q.cls .any).owner = some .root ∧ (q.cls .object).owner = some .root)
    (noSource : ∀ i, i < q.classes.size → (q.cls ⟨i⟩).template = none)
    (parents : ∀ i, i < q.classes.size → ∀ d ∈ (q.cls ⟨i⟩).parents, d.index < q.classes.size)
    (constructors : ∀ i, i < q.classes.size →
      (q.cls ⟨i⟩).primaryConstructor.all fun ctor => q.IsConstructorOf ctor ⟨i⟩) :
    q.Coherent := by
  have absent {c : ClassId} (hc : ¬ c.index < q.classes.size) : q.cls c = default := by
    rw [cls, Array.getD, dif_neg hc]
  have none (c : ClassId) : (q.cls c).template = none := by
    by_cases hc : c.index < q.classes.size
    · exact noSource c.index hc
    · rw [absent hc]
      rfl
  refine ⟨size, root, object, ⟨?_, ?_⟩, topLevel, fun c d hd => ?_, fun c t ht => ?_,
    fun c ctor h => ?_⟩
  · rw [ClassDef.hasSource, none]
    rfl
  · rw [ClassDef.hasSource, none]
    rfl
  · by_cases hc : c.index < q.classes.size
    · exact parents c.index hc d hd
    · rw [absent hc] at hd
      cases hd
  · rw [none] at ht
    cases ht
  · by_cases hc : c.index < q.classes.size
    · have := constructors c.index hc
      rw [h] at this
      exact of_decide_eq_true this
    · rw [absent hc] at h
      cases h

theorem coherent_initial : Program.initial.Coherent :=
  coherent_of_table (by decide +kernel) (by decide +kernel) (by decide +kernel)
    (by decide +kernel) (by decide +kernel) (by decide +kernel) (by decide +kernel)

/-- Every program that is built is coherent. -/
theorem Built.coherent (h : q.Built) : q.Coherent := by
  induction h with
  | initial => exact coherent_initial
  | command _ exist run ih =>
    have changes : Build.Steps (Change False) _ _ Build.anything :=
      Command.changes ih exist nofun nofun
    exact ih.changes (changes _ _ run).1

/-- A command on a built program is a sequence of changes, if the parents that it lists exist. -/
theorem Built.changes (h : q.Built) {command : Command}
    (parents : ∀ c parent args, command = .extend c parent args →
      parent.cls.index < q.classes.size) :
    Build.Steps (Change False) command.run q Build.anything :=
  Command.changes h.coherent parents nofun nofun

end ObjectInit.Program
