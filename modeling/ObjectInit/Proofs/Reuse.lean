import ObjectInit.Proofs.Errors

/-!
# Objects that are found again

An object is found again when another one is to be created in the same way: the way of creation has
an address, and there is an object at it (`Heap.Holds`). So it is from the call of its constructor
on, also while the constructor runs.

Main results:

* `Query.holds_of_create`: an object that was created is there.
* `Query.create_again`: it is not created again.
-/

namespace ObjectInit

variable {p : Program} {n : Nat} {γ : Type} {s t : Store}

/-- The outer instance that a new object remembers, if the one that it gets is known. -/
def Heap.rememberedOuter? (h : Heap) : Addr → Option Value
  | .warm w => (h.creation? w).map fun creation =>
    match creation.outer with
    | .ref (.warm _) => .cold
    | _ => .ref (.warm w)
  | .thisOf c => some (.ref (.thisOf c))

/-- The heap has an object that was created in this way. -/
structure Heap.Holds (h : Heap) (b : Addr) (c : ClassId) (ctor : SymbolId) (args : List Value)
    (w : Warm) : Prop where
  cls : w.cls = c
  known : ∃ outer, h.rememberedOuter? b = some outer ∧
    h.creation? w = some ⟨c, outer, ctor, args⟩
  contains : h.contains (.warm w)

variable {b : Addr} {c : ClassId} {ctor : SymbolId} {args : List ArgValue} {source : Span}
  {o : Outcome} {w : Warm} {h h' : Heap} {values : List Value}

namespace Heap

/-- A creation that is known keeps its address. -/
theorem warmOf_of_creation? {creation : Creation} (known : h.creation? w = some creation)
    (cls : w.cls = creation.cls) : h.warmOf creation = (w, h) := by
  have number : h.creations.number? creation = some w.index :=
    (Numbering.number?_eq_some_iff ..).2 known
  obtain ⟨c, i⟩ := w
  cases cls
  simp [warmOf, Numbering.number, Numbering.add, number]

theorem rememberedOuter?_of_extends (ext : h.Extends h') {outer : Value}
    (known : h.rememberedOuter? b = some outer) : h'.rememberedOuter? b = some outer := by
  cases b with
  | thisOf d => exact known
  | warm v =>
    obtain ⟨creation, hv, rfl⟩ := Option.map_eq_some_iff.1 known
    rw [rememberedOuter?, ext.creation v creation hv]
    rfl

theorem contains_of_allocate {a : Addr} {object : Object} (ok : h.allocate a object = .ok h') :
    h'.contains a := by
  rw [contains, read_of_allocate ok, if_pos rfl]
  rfl

theorem Holds.of_extends (holds : h.Holds b c ctor values w) (ext : h.Extends h') :
    h'.Holds b c ctor values w := by
  obtain ⟨outer, remembered, created⟩ := holds.known
  exact ⟨holds.cls, ⟨outer, rememberedOuter?_of_extends ext remembered,
    ext.creation w _ created⟩, ext.contains holds.contains⟩

end Heap

namespace Plan

theorem ends_rememberedOuter {v : Value} :
    (rememberedOuter b).Ends p n s v t ↔ s.heap.rememberedOuter? b = some v ∧ t = s := by
  cases b with
  | thisOf d =>
    rw [rememberedOuter, ends_pure, Heap.rememberedOuter?, Option.some.injEq, eq_comm]
  | warm w =>
    have remembered (creation : Creation) {u : Store} : (match creation.outer with
        | .ref (.warm _) => Pure.pure .cold
        | _ => Pure.pure (.ref (.warm w)) : Plan Value).Ends p n u v t ↔
        v = (match creation.outer with
          | .ref (.warm _) => .cold
          | _ => .ref (.warm w)) ∧ t = u := by
      rcases creation with ⟨_, outer, _, _⟩
      cases outer with
      | ref a => cases a <;> exact ends_pure
      | _ => exact ends_pure
    rw [rememberedOuter, ends_bind, Heap.rememberedOuter?]
    constructor
    · rintro ⟨creation, u, hcreation, rest⟩
      obtain ⟨hw, rfl⟩ := Effect.run_creationOf.1 (ends_perform.1 hcreation)
      obtain ⟨rfl, rfl⟩ := (remembered creation).1 rest
      exact ⟨Option.map_eq_some_iff.2 ⟨creation, hw, rfl⟩, rfl⟩
    · rintro ⟨known, rfl⟩
      obtain ⟨creation, hw, rfl⟩ := Option.map_eq_some_iff.1 known
      exact ⟨creation, t, ends_perform.2 (Effect.run_creationOf.2 ⟨hw, rfl⟩),
        (remembered creation).2 ⟨rfl, rfl⟩⟩

theorem not_asks_rememberedOuter {q : Query γ} : ¬(rememberedOuter b).Asks p s q t := by
  intro h
  cases b with
  | thisOf d => cases h
  | warm w =>
    obtain ⟨creation, u, -, rest⟩ := h.of_perform_bind
    split at rest
    · cases rest
    · cases rest

section New

variable {outer : Value} {args : List ArgValue}
  (remembered : s.heap.rememberedOuter? b = some outer)

/-- The object that is created, with the store in which its constructor is called if it is new. -/
theorem createWarm_eq_bind : createWarm outer c ctor args source = (do
    let w ← Effect.warmOf ⟨c, outer, ctor, args.map fun arg => arg.value.widen⟩
    if (← Effect.look).heap.contains (.warm w) then
      return .ofValue (.ref (.warm w))
    Effect.allocate (.warm w) (.new c [(c, outer)])
    let o ← Query.construct (.ref (.warm w)) ctor (args.map ArgValue.widen) source
    return ⟨.ref (.warm w), o.errors⟩) := by
  rw [createWarm, List.map_map]
  rfl

include remembered

/-- Once the way of creation has an address and there is an object at it, the object is there. -/
theorem holds_of_warmOf {heap : Heap}
    (ext : (s.heap.warmOf ⟨c, outer, ctor, values⟩).2.Extends heap)
    (alive : heap.contains (.warm (s.heap.warmOf ⟨c, outer, ctor, values⟩).1)) :
    heap.Holds b c ctor values (s.heap.warmOf ⟨c, outer, ctor, values⟩).1 where
  cls := rfl
  known := by
    refine ⟨outer, ?_, ext.creation _ _ (Heap.creation?_warmOf ..)⟩
    exact Heap.rememberedOuter?_of_extends ((Heap.Extends.warmOf _ _).trans ext) remembered
  contains := alive

/-- An object is created, or it is there already. -/
theorem holds_of_createWarm {o : Outcome}
    (h : (createWarm outer c ctor args source).Ends p n s o t) :
    let values := args.map fun arg => arg.value.widen
    let w := (s.heap.warmOf ⟨c, outer, ctor, values⟩).1
    t.heap.Holds b c ctor values w ∧ o.value = .ref (.warm w) := by
  rw [createWarm_eq_bind] at h
  obtain ⟨w, u, hw, rest⟩ := ends_bind.1 h
  cases ends_perform.1 hw
  rw [ends_look_bind] at rest
  split at rest
  · next alive =>
    obtain ⟨rfl, rfl⟩ := ends_pure.1 rest
    exact ⟨holds_of_warmOf remembered (.refl _) alive, rfl⟩
  · obtain ⟨_, u, hallocate, last⟩ := ends_bind.1 rest
    obtain ⟨heap, ok, rfl⟩ := Effect.run_allocate.1 (ends_perform.1 hallocate)
    rw [bind_pure_comp, ends_map] at last
    obtain ⟨o', constructed, rfl⟩ := last
    have here := holds_of_warmOf remembered (.of_allocate ok) (Heap.contains_of_allocate ok)
    exact ⟨here.of_extends (ends_extends constructed), rfl⟩

/-- So it is there when its constructor is called. -/
theorem holds_of_asks_createWarm {q : Query γ}
    (h : (createWarm outer c ctor args source).Asks p s q t) :
    let values := args.map fun arg => arg.value.widen
    t.heap.Holds b c ctor values (s.heap.warmOf ⟨c, outer, ctor, values⟩).1 := by
  rw [createWarm_eq_bind] at h
  obtain ⟨w, u, hw, rest⟩ := h.of_perform_bind
  cases hw
  obtain ⟨v, u, hlook, rest⟩ := rest.of_perform_bind
  cases hlook
  split at rest
  · cases rest
  obtain ⟨_, u, hallocate, rest⟩ := rest.of_perform_bind
  obtain ⟨heap, ok, rfl⟩ := Effect.run_allocate.1 hallocate
  have here := holds_of_warmOf remembered (.of_allocate ok) (Heap.contains_of_allocate ok)
  rcases rest.of_bind with h | ⟨_, _, _, -, h⟩
  · exact here.of_extends (h.before Heap.Extends.advances)
  · cases h

/-- An object that is there is not created again. -/
theorem createWarm_again {w : Warm}
    (holds : s.heap.Holds b c ctor (args.map fun arg => arg.value.widen) w) :
    (createWarm outer c ctor args source).Ends p n s (.ofValue (.ref (.warm w))) s := by
  obtain ⟨outer', remembered', created⟩ := holds.known
  cases remembered.symm.trans remembered'
  have found := Heap.warmOf_of_creation? created holds.cls
  rw [createWarm_eq_bind]
  refine ends_bind.2 ⟨w, s, ends_perform.2 ?_, ?_⟩
  · change Except.ok ((s.heap.warmOf ⟨c, outer, ctor, _⟩).1,
      { s with heap := (s.heap.warmOf ⟨c, outer, ctor, _⟩).2 }) = _
    rw [found]
  · rw [ends_look_bind, if_pos holds.contains]
    exact ends_pure.2 ⟨rfl, rfl⟩

end New

/-- Where there is source, an object is created that remembers its outer instance. -/
theorem create_ref (source : Span) (hasSource : (p.cls c).hasSource) (args : List ArgValue) :
    create p (.ref b) c ctor args source = (do
      let o ← createWarm (← rememberedOuter b) c ctor args source
      if (← Effect.look).env.isHot then
        return o
      else
        return ⟨.cold, o.errors⟩) :=
  if_pos hasSource

end Plan

namespace Query

variable {args : List ArgValue} (hasSource : (p.cls c).hasSource)
include hasSource

/-- In a hot environment an object that is there is found. -/
theorem create_again (holds : s.heap.Holds b c ctor (args.map fun arg => arg.value.widen) w)
    (hot : s.env.isHot) :
    (Query.create (.ref b) c ctor args source).Answered p s (.ofValue (.ref (.warm w))) s := by
  obtain ⟨outer, remembered, -⟩ := holds.known
  refine ⟨1, ends_succ.2 ?_⟩
  change (Plan.create p (.ref b) c ctor args source).Ends p 0 s _ s
  rw [Plan.create_ref source hasSource]
  refine Plan.ends_bind.2 ⟨outer, s, Plan.ends_rememberedOuter.2 ⟨remembered, rfl⟩,
    Plan.ends_bind.2 ⟨_, s, Plan.createWarm_again remembered holds, ?_⟩⟩
  rw [Plan.ends_look_bind, if_pos hot]
  exact Plan.ends_pure.2 ⟨rfl, rfl⟩

/-- An object that was created is there afterwards. In a hot environment it is the value. -/
theorem holds_of_create (h : (Query.create (.ref b) c ctor args source).Answered p s o t) :
    ∃ outer, s.heap.rememberedOuter? b = some outer ∧
      let values := args.map fun arg => arg.value.widen
      let w := (s.heap.warmOf ⟨c, outer, ctor, values⟩).1
      t.heap.Holds b c ctor values w ∧
        o.value = if s.env.isHot then .ref (.warm w) else .cold := by
  obtain ⟨n, h⟩ := h
  cases n with
  | zero => exact absurd h ends_zero
  | succ n =>
    rw [ends_succ] at h
    change (Plan.create p (.ref b) c ctor args source).Ends p n s o t at h
    rw [Plan.create_ref source hasSource] at h
    obtain ⟨outer, u, houter, rest⟩ := Plan.ends_bind.1 h
    obtain ⟨remembered, rfl⟩ := Plan.ends_rememberedOuter.1 houter
    obtain ⟨o', u', hcreate, last⟩ := Plan.ends_bind.1 rest
    obtain ⟨holds, value⟩ := Plan.holds_of_createWarm remembered hcreate
    rw [Plan.ends_look_bind, hcreate.env] at last
    refine ⟨outer, remembered, ?_⟩
    split at last
    · next hot =>
      obtain ⟨rfl, rfl⟩ := Plan.ends_pure.1 last
      exact ⟨holds, by rw [if_pos hot, value]⟩
    · next cold =>
      obtain ⟨rfl, rfl⟩ := Plan.ends_pure.1 last
      exact ⟨holds, by rw [if_neg cold]⟩

/-- It is there as soon as its constructor is called. -/
theorem holds_of_asks_create {q : Query γ}
    (h : ((Query.create (.ref b) c ctor args source).plan p).Asks p s q t) :
    ∃ outer, s.heap.rememberedOuter? b = some outer ∧
      let values := args.map fun arg => arg.value.widen
      t.heap.Holds b c ctor values (s.heap.warmOf ⟨c, outer, ctor, values⟩).1 := by
  change (Plan.create p (.ref b) c ctor args source).Asks p s q t at h
  rw [Plan.create_ref source hasSource] at h
  rcases h.of_bind with h | ⟨n, outer, u, houter, rest⟩
  · exact absurd h Plan.not_asks_rememberedOuter
  obtain ⟨remembered, rfl⟩ := Plan.ends_rememberedOuter.1 houter
  refine ⟨outer, remembered, ?_⟩
  rcases rest.of_bind with h | ⟨_, _, _, -, rest⟩
  · exact Plan.holds_of_asks_createWarm remembered h
  · obtain ⟨_, _, -, last⟩ := rest.of_perform_bind
    split at last
    · cases last
    · cases last

end Query

end ObjectInit
