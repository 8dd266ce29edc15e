import Mathlib.Logic.Relation
import ObjectInit.Proofs.Ways

/-!
# What an analysis adds to the heap

The heap of an analysis changes in four ways: an object appears at a free address, a field or an
outer without a value gets one, or a new way of creation gets the next number. `Heap.Adds` says so
without the operations that the analysis uses, which refuse everything else.

Main results:

* `Heap.Adds.extends`: an addition takes nothing back.
* `Query.heap_adds`: the heap after a question comes about by additions to the one before it.
-/

namespace ObjectInit

/-- One addition to a heap, where nothing was before. -/
inductive Heap.Adds (h : Heap) : Heap → Prop
  | object {a : Addr} {o : Object} (absent : h.objects[a]? = none) :
    Adds h { h with objects := h.objects.insert a o }
  | field {a : Addr} {o : Object} {f : SymbolId} {v : Value} (present : h.objects[a]? = some o)
    (absent : o.fields[f]? = none) :
    Adds h { h with objects := h.objects.insert a { o with fields := o.fields.insert f v } }
  | outer {a : Addr} {o : Object} {c : ClassId} {v : Value} (present : h.objects[a]? = some o)
    (absent : o.outers[c]? = none) :
    Adds h { h with objects := h.objects.insert a { o with outers := o.outers.insert c v } }
  | creation {creation : Creation} (absent : creation ∉ h.creations.toList) :
    Adds h { h with creations := h.creations.add creation }

namespace Heap

variable {h h' : Heap}

/-! ## Single additions -/

/-- An addition takes nothing back. -/
theorem Adds.extends (adds : h.Adds h') : h.Extends h' := by
  cases adds with
  | @object a o absent =>
    refine .of_allocate (a := a) (o := o) ?_
    rw [allocate, contains, read, absent]
    rfl
  | @field a o f v present absent =>
    refine .of_setField (a := a) (f := f) (v := v) ?_
    have free : f ∉ o.fields := by simpa using absent
    rw [setField, read, present]
    simp [free]
  | @outer a o c v present absent =>
    refine .of_setOuter (a := a) (c := c) (v := v) ?_
    have free : c ∉ o.outers := by simpa using absent
    rw [setOuter, read, present]
    simp [free]
  | creation absent => exact .warmOf h _

/-- New ways of creation come behind the old ones. -/
theorem Adds.creations_prefix (adds : h.Adds h') :
    h.creations.toList <+: h'.creations.toList := by
  cases adds with
  | @creation creation absent =>
    rw [Numbering.mem_toList_iff] at absent
    rw [Numbering.toList_add, if_neg absent]
    exact List.prefix_append _ _
  | _ => exact List.prefix_rfl

theorem adds_of_allocate {a : Addr} {o : Object} (ok : h.allocate a o = .ok h') : h.Adds h' := by
  have absent := read_eq_none_of_allocate ok
  unfold allocate at ok
  split at ok
  · cases ok
  · cases ok
    exact .object absent

theorem adds_of_setField {a : Addr} {f : SymbolId} {v : Value} (ok : h.setField a f v = .ok h') :
    h.Adds h' := by
  unfold setField at ok
  split at ok
  · cases ok
  · next o present =>
    split at ok
    · cases ok
    · next absent =>
      cases ok
      exact .field present (by simpa using absent)

theorem adds_of_setOuter {a : Addr} {c : ClassId} {v : Value} (ok : h.setOuter a c v = .ok h') :
    h.Adds h' := by
  unfold setOuter at ok
  split at ok
  · cases ok
  · next o present =>
    split at ok
    · cases ok
    · next absent =>
      cases ok
      exact .outer present (by simpa using absent)

/-- A way of creation that has a number already changes nothing. -/
theorem adds_warmOf (h : Heap) (creation : Creation) :
    (h.warmOf creation).2 = h ∨ h.Adds (h.warmOf creation).2 := by
  cases hn : h.creations.number? creation with
  | none =>
    refine .inr (.creation ?_)
    rw [Numbering.mem_toList_iff, hn]
    exact Bool.false_ne_true
  | some i =>
    left
    simp [warmOf, Numbering.add, hn]

/-! ## Any number of additions -/

/-- The second heap comes about by additions to the first one. -/
abbrev Grows (h h' : Heap) : Prop := Relation.ReflTransGen Adds h h'

theorem Grows.extends (grows : h.Grows h') : h.Extends h' := by
  induction grows with
  | refl => exact .refl h
  | tail _ adds ih => exact ih.trans adds.extends

theorem Grows.creations_prefix (grows : h.Grows h') :
    h.creations.toList <+: h'.creations.toList := by
  induction grows with
  | refl => exact List.prefix_rfl
  | tail _ adds ih => exact ih.trans adds.creations_prefix

end Heap

variable {p : Program} {n : Nat} {α β : Type} {s s' : Store}

/-! ## Plans and questions -/

/-- An effect adds to the heap once, or leaves it as it is. -/
theorem Effect.run_grows {effect : Effect β} {b : β} (h : effect.run.run s = .ok (b, s')) :
    s.heap.Grows s'.heap := by
  cases effect with
  | allocate =>
    obtain ⟨heap, ok, rfl⟩ := run_allocate.1 h
    exact .single (Heap.adds_of_allocate ok)
  | setField =>
    obtain ⟨heap, ok, rfl⟩ := run_setField.1 h
    exact .single (Heap.adds_of_setField ok)
  | setOuter =>
    obtain ⟨heap, ok, rfl⟩ := run_setOuter.1 h
    exact .single (Heap.adds_of_setOuter ok)
  | warmOf creation =>
    cases h
    rcases s.heap.adds_warmOf creation with same | adds
    · change s.heap.Grows (s.heap.warmOf creation).2
      rw [same]
    · exact .single adds
  | creationOf =>
    obtain ⟨-, rfl⟩ := run_creationOf.1 h
    exact .refl
  | _ =>
    cases h
    exact .refl

/-- A plan only adds to the heap, if the questions that it asks do. -/
theorem Plan.ends_grows
    (hq : ∀ {β : Type} (q : Query β) s b s', q.Ends p n s b s' → s.heap.Grows s'.heap) (x : Plan α)
    {a : α} (h : x.Ends p n s a s') : s.heap.Grows s'.heap := by
  induction x generalizing s s' with
  | pure =>
    obtain ⟨-, rfl⟩ := ends_pure.1 h
    exact .refl
  | ask q next ih =>
    obtain ⟨b, t, hb, h⟩ := ends_ask_next.1 h
    exact (hq q s b t hb).trans (ih b h)
  | perform effect next ih =>
    obtain ⟨b, t, hb, h⟩ := ends_perform_next.1 h
    exact (Effect.run_grows hb).trans (ih b h)
  | within scope part next ihPart ih =>
    obtain ⟨b, t, hpart, h⟩ := ends_within.1 h
    have inside := ihPart hpart
    rw [Scope.heap_enter, ← Scope.heap_leave scope s.toContext b t] at inside
    exact inside.trans (ih b h)

theorem Query.Ends.grows {q : Query β} {b : β} (h : q.Ends p n s b s') :
    s.heap.Grows s'.heap := by
  induction n generalizing β s s' with
  | zero => exact absurd h Query.ends_zero
  | succ n ih => exact Plan.ends_grows (fun q s b s' h => ih h) _ (Query.ends_succ.1 h)

/-- Whatever is asked in whatever store: afterwards the objects are still there, in the same class
    and with the fields and outers that had values, and every warm address stands for the way of
    creation that it stood for. All that happens to the heap are additions. -/
theorem Query.heap_adds {q : Query β} {b : β} (h : q.Answered p s b s') :
    s.heap.Extends s'.heap ∧ s.heap.creations.toList <+: s'.heap.creations.toList ∧
      Relation.ReflTransGen Heap.Adds s.heap s'.heap := by
  obtain ⟨n, h⟩ := h
  have grows := h.grows
  exact ⟨grows.extends, grows.creations_prefix, grows⟩

/-- A class `A` with a field `x`. -/
def definesX : Program := .ofCommands [
  .defineClass "A" .package .none true,
  .defineField ⟨4⟩ "x" .value,
  .literal,
  .setBody ⟨15⟩ ⟨2⟩]

/-- The store after the check of `A`. -/
def definesX.checked : Store := (Query.check ⟨4⟩).storeAfter definesX 20 .initial

/-- An `A` that is created inside of the one that was checked is a second object. -/
theorem Query.heap_adds_definesX :
    ∃ o s', (Query.create (.ref (.thisOf ⟨4⟩)) ⟨4⟩ ⟨14⟩ [] default).Answered definesX
        definesX.checked o s' ∧
      (definesX.checked.heap.objects.size = 1 ∧ s'.heap.objects.size = 2) ∧
      definesX.checked.heap.Extends s'.heap ∧
      definesX.checked.heap.creations.toList <+: s'.heap.creations.toList ∧
      Relation.ReflTransGen Heap.Adds definesX.checked.heap s'.heap := by
  obtain ⟨o, answered, -⟩ := Query.answered_of_result? (p := definesX) (n := 20)
    (q := .create (.ref (.thisOf ⟨4⟩)) ⟨4⟩ ⟨14⟩ [] default) (s := definesX.checked)
    (fun o => o.errors.isEmpty) (by decide +kernel)
  exact ⟨o, _, answered, ⟨by decide +kernel, by decide +kernel⟩, Query.heap_adds answered⟩

end ObjectInit
