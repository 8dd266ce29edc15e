import ObjectInit.Proofs.Traceless

/-!
# What an analysis never takes back

Objects stay in the heap with the values of their fields and outers, the cache keeps its entries,
and trusted values stay trusted. A field whose initializer is in the cache can only get the value
from there.

Main results:

* `Query.Ends.keeps`: whatever is asked, what was there before the question is there afterwards.
* `Store.Later.keeps`: the same for any number of questions.
-/

namespace ObjectInit

/-! ## Heaps -/

/-- The same object, perhaps with more fields and outers. -/
structure Object.Extends (o o' : Object) : Prop where
  cls : o'.cls = o.cls
  field : ∀ (f : SymbolId) v, o.fields[f]? = some v → o'.fields[f]? = some v
  outer : ∀ (c : ClassId) v, o.outers[c]? = some v → o'.outers[c]? = some v

theorem Object.Extends.refl (o : Object) : o.Extends o :=
  ⟨rfl, fun _ _ h => h, fun _ _ h => h⟩

theorem Object.Extends.trans {o₁ o₂ o₃ : Object} (h : o₁.Extends o₂) (h' : o₂.Extends o₃) :
    o₁.Extends o₃ :=
  ⟨h'.cls.trans h.cls, fun f v hv => h'.field f v (h.field f v hv),
    fun c v hv => h'.outer c v (h.outer c v hv)⟩

/-- Every object of the first heap is in the second one, and every warm address stands for the same
    way of creation. -/
structure Heap.Extends (h h' : Heap) : Prop where
  read : ∀ a o, h.read a = some o → ∃ o', h'.read a = some o' ∧ o.Extends o'
  creation : ∀ w creation, h.creation? w = some creation → h'.creation? w = some creation

namespace Heap

variable {h h' : Heap}

theorem creations_of_allocate {a : Addr} {o : Object} (ok : h.allocate a o = .ok h') :
    h'.creations = h.creations := by
  unfold allocate at ok
  split at ok
  · cases ok
  · cases ok
    rfl

theorem creations_of_setField {a : Addr} {f : SymbolId} {v : Value}
    (ok : h.setField a f v = .ok h') : h'.creations = h.creations := by
  unfold setField at ok
  split at ok
  · cases ok
  · split at ok
    · cases ok
    · cases ok
      rfl

theorem creations_of_setOuter {a : Addr} {c : ClassId} {v : Value}
    (ok : h.setOuter a c v = .ok h') : h'.creations = h.creations := by
  unfold setOuter at ok
  split at ok
  · cases ok
  · split at ok
    · cases ok
    · cases ok
      rfl

theorem field?_of_setOuter {a : Addr} {c : ClassId} {v : Value} (ok : h.setOuter a c v = .ok h')
    (b : Addr) (f : SymbolId) : h'.field? b f = h.field? b f := by
  obtain ⟨o, ho, -, hread⟩ := read_of_setOuter ok
  rw [field?, field?, hread]
  by_cases hb : b = a
  · rw [if_pos hb, hb, ho]
    rfl
  · rw [if_neg hb]

theorem outer?_of_setField {a : Addr} {f : SymbolId} {v : Value} (ok : h.setField a f v = .ok h')
    (b : Addr) (c : ClassId) : h'.outer? b c = h.outer? b c := by
  obtain ⟨o, ho, -, hread⟩ := read_of_setField ok
  rw [outer?, outer?, hread]
  by_cases hb : b = a
  · rw [if_pos hb, hb, ho]
    rfl
  · rw [if_neg hb]

theorem read_eq_none_of_allocate {a : Addr} {o : Object} (ok : h.allocate a o = .ok h') :
    h.read a = none := by
  unfold allocate at ok
  split at ok
  · cases ok
  · next absent => simpa [contains] using absent

/-- A new object has no fields. -/
theorem field?_of_allocate {a : Addr} {c : ClassId} {outers : List (ClassId × Value)}
    (ok : h.allocate a (.new c outers) = .ok h') (b : Addr) (f : SymbolId) :
    h'.field? b f = h.field? b f := by
  rw [field?, field?, read_of_allocate ok]
  split
  · next hb =>
    rw [hb, read_eq_none_of_allocate ok]
    simp [Object.new]
  · rfl

/-- A new object has the outer that it was allocated with. -/
theorem outer?_of_allocate {a : Addr} {c d : ClassId} {v : Value}
    (ok : h.allocate a (.new c [(d, v)]) = .ok h') (b : Addr) (e : ClassId) :
    h'.outer? b e = if b = a ∧ e = d then some v else h.outer? b e := by
  rw [outer?, outer?, read_of_allocate ok]
  by_cases hb : b = a
  · rw [if_pos hb, hb, read_eq_none_of_allocate ok]
    simp [Object.new, Std.ExtTreeMap.getElem?_insert, @eq_comm _ e]
  · rw [if_neg hb, if_neg fun h => hb h.1]

/-- A field without a value can be initialized. -/
theorem exists_setField {a : Addr} (alive : h.contains a = true) {f : SymbolId}
    (absent : h.field? a f = none) (v : Value) : ∃ h', h.setField a f v = .ok h' := by
  obtain ⟨o, ho⟩ := Option.isSome_iff_exists.1 alive
  have unset : o.fields.contains f = false := by
    rw [field?, ho] at absent
    exact Bool.eq_false_iff.2 (by simpa using absent)
  rw [setField, ho]
  dsimp only
  rw [unset, if_neg Bool.false_ne_true]
  exact ⟨_, rfl⟩

/-- An outer that is not recorded can be. -/
theorem exists_setOuter {a : Addr} (alive : h.contains a = true) {c : ClassId}
    (absent : h.outer? a c = none) (v : Value) : ∃ h', h.setOuter a c v = .ok h' := by
  obtain ⟨o, ho⟩ := Option.isSome_iff_exists.1 alive
  have unset : o.outers.contains c = false := by
    rw [outer?, ho] at absent
    exact Bool.eq_false_iff.2 (by simpa using absent)
  rw [setOuter, ho]
  dsimp only
  rw [unset, if_neg Bool.false_ne_true]
  exact ⟨_, rfl⟩

theorem contains_of_setField {a : Addr} {f : SymbolId} {v : Value}
    (ok : h.setField a f v = .ok h') : h'.contains a = true := by
  obtain ⟨o, -, -, hread⟩ := read_of_setField ok
  rw [contains, hread, if_pos rfl]
  rfl

theorem contains_of_setOuter {a : Addr} {c : ClassId} {v : Value}
    (ok : h.setOuter a c v = .ok h') : h'.contains a = true := by
  obtain ⟨o, -, -, hread⟩ := read_of_setOuter ok
  rw [contains, hread, if_pos rfl]
  rfl

namespace Extends

theorem refl (h : Heap) : h.Extends h := ⟨fun _ o ho => ⟨o, ho, .refl o⟩, fun _ _ hc => hc⟩

theorem trans {h₁ h₂ h₃ : Heap} (h : h₁.Extends h₂) (h' : h₂.Extends h₃) : h₁.Extends h₃ := by
  refine ⟨fun a o ho => ?_, fun w creation hc => h'.creation w creation (h.creation w creation hc)⟩
  obtain ⟨o', ho', hext⟩ := h.read a o ho
  obtain ⟨o'', ho'', hext'⟩ := h'.read a o' ho'
  exact ⟨o'', ho'', hext.trans hext'⟩

theorem field (ext : h.Extends h') {a : Addr} {f : SymbolId} {v : Value}
    (hv : h.field? a f = some v) : h'.field? a f = some v := by
  obtain ⟨o, ho, hf⟩ := Option.bind_eq_some_iff.1 hv
  obtain ⟨o', ho', hext⟩ := ext.read a o ho
  exact Option.bind_eq_some_iff.2 ⟨o', ho', hext.field f v hf⟩

theorem absent (ext : h.Extends h') {a : Addr} {f : SymbolId} (hf : h'.field? a f = none) :
    h.field? a f = none := by
  cases present : h.field? a f with
  | none => rfl
  | some v =>
    rw [ext.field present] at hf
    cases hf

theorem outer (ext : h.Extends h') {a : Addr} {c : ClassId} {v : Value}
    (hv : h.outer? a c = some v) : h'.outer? a c = some v := by
  obtain ⟨o, ho, hc⟩ := Option.bind_eq_some_iff.1 hv
  obtain ⟨o', ho', hext⟩ := ext.read a o ho
  exact Option.bind_eq_some_iff.2 ⟨o', ho', hext.outer c v hc⟩

theorem contains (ext : h.Extends h') {a : Addr} (ha : h.contains a) : h'.contains a := by
  obtain ⟨o, ho⟩ := Option.isSome_iff_exists.1 ha
  obtain ⟨o', ho', -⟩ := ext.read a o ho
  exact Option.isSome_iff_exists.2 ⟨o', ho'⟩

/-- A change of one object, which gets more fields or outers. -/
theorem of_update {a : Addr} {o q : Object} (ho : h.read a = some o) (ext : o.Extends q)
    (hread : ∀ b, h'.read b = if b = a then some q else h.read b)
    (hcreations : h'.creations = h.creations) : h.Extends h' := by
  refine ⟨fun b r hr => ?_, fun w creation hc => ?_⟩
  · by_cases hb : b = a
    · subst hb
      rw [ho] at hr
      cases hr
      exact ⟨q, by rw [hread, if_pos rfl], ext⟩
    · exact ⟨r, by rw [hread, if_neg hb, hr], .refl r⟩
  · rw [creation?, hcreations]
    exact hc

theorem of_allocate {a : Addr} {o : Object} (ok : h.allocate a o = .ok h') : h.Extends h' := by
  have hread := read_of_allocate ok
  unfold allocate at ok
  split at ok
  · cases ok
  next absent =>
    cases ok
    refine ⟨fun b q hq => ⟨q, ?_, .refl q⟩, fun w creation hc => hc⟩
    have hb : b ≠ a := by
      rintro rfl
      exact absent (by rw [Heap.contains, hq]; rfl)
    rw [hread, if_neg hb, hq]

theorem of_setField {a : Addr} {f : SymbolId} {v : Value} (ok : h.setField a f v = .ok h') :
    h.Extends h' := by
  obtain ⟨o, ho, absent, hread⟩ := read_of_setField ok
  refine of_update (q := { o with fields := o.fields.insert f v }) ho
    ⟨rfl, fun g u hu => ?_, fun _ _ hc => hc⟩ hread (creations_of_setField ok)
  have hg : f ≠ g := by
    rintro rfl
    rw [absent] at hu
    cases hu
  simpa [Std.ExtTreeMap.getElem?_insert, hg] using hu

theorem of_setOuter {a : Addr} {c : ClassId} {v : Value} (ok : h.setOuter a c v = .ok h') :
    h.Extends h' := by
  obtain ⟨o, ho, absent, hread⟩ := read_of_setOuter ok
  refine of_update (q := { o with outers := o.outers.insert c v }) ho
    ⟨rfl, fun _ _ hf => hf, fun d u hu => ?_⟩ hread (creations_of_setOuter ok)
  have hd : c ≠ d := by
    rintro rfl
    rw [absent] at hu
    cases hu
  simpa [Std.ExtTreeMap.getElem?_insert, hd] using hu

theorem warmOf (h : Heap) (creation : Creation) : h.Extends (h.warmOf creation).2 :=
  ⟨fun _ o ho => ⟨o, ho, .refl o⟩, fun _ _ hc => creation?_of_warmOf hc creation⟩

end Extends

end Heap

/-! ## Stores -/

/-- What was in the first store is in the second one. A field without a value whose initializer has
    one in the cache gets this value if any; the fields of class parameters are initialized in
    another way. -/
structure Store.Keeps (p : Program) (s s' : Store) : Prop where
  heap : s.heap.Extends s'.heap
  cached : ∀ a e v, s.cache.find? a e = some v → s'.cache.find? a e = some v
  trusted : ∀ v, s.trusted.contains v → s'.trusted.contains v
  filled : ∀ a f e v, (p.symbol f).isParamAccessor = false → (p.symbol f).body = some e →
    s.cache.find? a e = some v → s.heap.field? a f = none →
      s'.heap.field? a f = none ∨ s'.heap.field? a f = some v

namespace Store.Keeps

variable {p : Program} {s s' : Store}

theorem refl (p : Program) (s : Store) : s.Keeps p s :=
  ⟨.refl s.heap, fun _ _ _ h => h, fun _ h => h, fun _ _ _ _ _ _ _ h => .inl h⟩

theorem trans {s₁ s₂ s₃ : Store} (h : s₁.Keeps p s₂) (h' : s₂.Keeps p s₃) : s₁.Keeps p s₃ := by
  refine ⟨h.heap.trans h'.heap, fun a e v hv => h'.cached a e v (h.cached a e v hv),
    fun v hv => h'.trusted v (h.trusted v hv), ?_⟩
  intro a f e v hf body hv absent
  rcases h.filled a f e v hf body hv absent with still | present
  · exact h'.filled a f e v hf body (h.cached a e v hv) still
  · exact .inr (h'.heap.field present)

/-- Only the heap, the cache and the trusted values matter. -/
theorem congr {t t' : Store} (h : s.Keeps p s') (hheap : t.heap = s.heap)
    (hcache : t.cache = s.cache) (htrusted : t.trusted = s.trusted) (hheap' : t'.heap = s'.heap)
    (hcache' : t'.cache = s'.cache) (htrusted' : t'.trusted = s'.trusted) : t.Keeps p t' := by
  obtain ⟨h₁, h₂, h₃, h₄⟩ := h
  constructor
  · rw [hheap, hheap']
    exact h₁
  · rw [hcache, hcache']
    exact h₂
  · rw [htrusted, htrusted']
    exact h₃
  · rw [hheap, hcache, hheap']
    exact h₄

/-- A change of the heap that gives no value to a field. -/
theorem of_heap {h' : Heap} (ext : s.heap.Extends h')
    (absent : ∀ a f, s.heap.field? a f = none → h'.field? a f = none) :
    s.Keeps p { s with heap := h' } :=
  ⟨ext, fun _ _ _ h => h, fun _ h => h, fun a f _ _ _ _ _ h => .inl (absent a f h)⟩

/-- A field is set to the value of its initializer, if that has one in the cache, or it is the field
    of a class parameter. -/
theorem of_setField {a : Addr} {f : SymbolId} {v : Value} {h' : Heap}
    (ok : s.heap.setField a f v = .ok h')
    (fits : ∀ e u, (p.symbol f).isParamAccessor = false → (p.symbol f).body = some e →
      s.cache.find? a e = some u → u = v) : s.Keeps p { s with heap := h' } := by
  refine ⟨.of_setField ok, fun _ _ _ h => h, fun _ h => h, ?_⟩
  intro b g e u hg body hu absent
  change h'.field? b g = none ∨ h'.field? b g = some u
  rw [Heap.field?_of_setField ok]
  by_cases hb : b = a ∧ g = f
  · obtain ⟨rfl, rfl⟩ := hb
    rw [if_pos ⟨rfl, rfl⟩, fits e u hg body hu]
    exact .inr rfl
  · rw [if_neg hb]
    exact .inl absent

/-- Another value is trusted. -/
theorem trust (p : Program) (s : Store) (v : Value) :
    s.Keeps p { s with trusted := s.trusted.insert v } := by
  refine ⟨.refl s.heap, fun _ _ _ h => h, fun w hw => ?_, fun _ _ _ _ _ _ _ h => .inl h⟩
  change (s.trusted.insert v).contains w = true
  rw [Trusted.contains_insert, hw, Bool.or_true]

end Store.Keeps

/-! ## Effects -/

section Effects

variable {p : Program} {β : Type} {s s' : Store}

/-- The effects that set no field take nothing back. -/
theorem Effect.keeps {effect : Effect β} {b : β} (h : effect.run.run s = .ok (b, s'))
    (sets : effect.setsField = false) : s.Keeps p s' := by
  cases effect with
  | look =>
    cases h
    exact .refl p s
  | raise error source =>
    cases h
    exact .refl p s
  | allocate a o =>
    obtain ⟨heap, ok, rfl⟩ := run_allocate.1 h
    refine .of_heap (.of_allocate ok) fun b f absent => ?_
    rw [Heap.field?, Heap.read_of_allocate ok]
    have empty : o.fields = ∅ := by simpa [setsField] using sets
    by_cases hb : b = a
    · rw [if_pos hb]
      simp [empty]
    · rw [if_neg hb]
      exact absent
  | setField a f v => cases sets
  | setOuter a c v =>
    obtain ⟨heap, ok, rfl⟩ := run_setOuter.1 h
    refine .of_heap (.of_setOuter ok) fun b f absent => ?_
    rw [Heap.field?_of_setOuter ok]
    exact absent
  | warmOf creation =>
    cases h
    exact .of_heap (.warmOf s.heap creation) fun a f absent => absent
  | creationOf w =>
    obtain ⟨-, rfl⟩ := run_creationOf.1 h
    exact .refl p _
  | report d =>
    cases h
    exact .congr (.refl p s) rfl rfl rfl rfl rfl rfl
  | trust v =>
    cases h
    exact .trust p s v

end Effects

/-! ## Plans -/

/-- All questions take nothing back, if they may be nested up to the depth `n`. -/
def KeepsUpTo (p : Program) (n : Nat) : Prop :=
  ∀ {β : Type} (q : Query β) (s : Store) (b : β) (s' : Store), q.Ends p n s b s' → s.Keeps p s'

section Plans

variable {p : Program} {n : Nat} {α : Type} {s s' : Store}

/-- A plan that sets no fields takes nothing back, if the questions that it asks do not. -/
theorem Plan.Alike.keeps {R : α → α → Prop} {x x' : Plan α} (h : Plan.Alike false Eq R x x')
    (hq : KeepsUpTo p n) {a : α} (hx : x.Ends p n s a s') : s.Keeps p s' := by
  induction h generalizing s s' with
  | pure =>
    obtain ⟨rfl, rfl⟩ := Plan.ends_pure.1 hx
    exact .refl p _
  | ask _ _ ih =>
    obtain ⟨b, t, hb, hnext⟩ := Plan.ends_ask_next.1 hx
    exact (hq _ s b t hb).trans (ih b b (Query.AnswersAlike.refl _ b) hnext)
  | look _ ih =>
    obtain ⟨b, t, hb, hnext⟩ := Plan.ends_perform_next.1 hx
    exact (Effect.keeps hb rfl).trans (ih b b rfl rfl hnext)
  | raise _ ih =>
    obtain ⟨b, t, hb, hnext⟩ := Plan.ends_perform_next.1 hx
    exact (Effect.keeps hb rfl).trans (ih b b hnext)
  | perform effect _ allowed _ ih =>
    obtain ⟨b, t, hb, hnext⟩ := Plan.ends_perform_next.1 hx
    exact (Effect.keeps hb (by simpa using allowed)).trans (ih b hnext)
  | env _ hpart _ ihPart ih | trace _ _ hpart _ ihPart ih =>
    obtain ⟨b, t, hend, hnext⟩ := Plan.ends_within.1 hx
    obtain ⟨b', hS⟩ := hpart.exists_answer hend
    refine Store.Keeps.trans ?_ (ih b b' hS hnext)
    exact (ihPart hend).congr rfl rfl rfl rfl rfl rfl

/-! ### Evaluations and promotions -/

/-- An evaluation adds at most its own entry to the cache, where there is none. -/
theorem Plan.eval_keeps (hq : KeepsUpTo p n) {e : ExprId} {frame : Frame} {final : Bool}
    {o : Outcome} (h : (Plan.eval p e frame final).Ends p n s o s') : s.Keeps p s' := by
  cases hit : s.cache.find? frame.receiver e with
  | some v =>
    obtain ⟨-, rfl⟩ := (Plan.ends_eval_of_hit hit).1 h
    exact .refl p _
  | none =>
    obtain ⟨t, ht, rfl⟩ := (Plan.ends_eval_of_miss hit).1 h
    have hpart := (Plan.Alike.calledFrom (p.expr e).span (p.expr e).span
      (Plan.alike_node e frame)).keeps hq ht
    have other {a : Addr} {g : ExprId} {v : Value} (hv : s.cache.find? a g = some v) :
        ¬(a = frame.receiver ∧ g = e) := by
      rintro ⟨rfl, rfl⟩
      rw [hit] at hv
      cases hv
    have enter {a : Addr} {g : ExprId} {v : Value} (hv : s.cache.find? a g = some v) :
        ((Scope.evaluation frame.receiver e final).enter s).cache.find? a g = some v := by
      change (s.cache.insert frame.receiver e .hot).find? a g = some v
      rw [Cache.find?_insert, if_neg (other hv), hv]
    refine ⟨hpart.heap, fun a g v hv => ?_, hpart.trusted, ?_⟩
    · have := hpart.cached a g v (enter hv)
      change (if final then t.cache.insert frame.receiver e o.value
        else t.cache.erase frame.receiver e).find? a g = some v
      split
      · rw [Cache.find?_insert, if_neg (other hv), this]
      · rw [Cache.find?_erase, if_neg (other hv), this]
    · exact fun a f g v hf body hv absent => hpart.filled a f g v hf body (enter hv) absent

/-- A value that is trusted is promotable. -/
theorem Plan.ends_isPromotable_of_trusted {v : Value} (trusted : s.trusted.contains v)
    (hcold : v ≠ .cold) {b : Bool} :
    (Plan.isPromotable p v).Ends p n s b s' ↔ b = true ∧ s' = s := by
  cases v with
  | cold => exact absurd rfl hcold
  | hot => exact Plan.ends_pure
  | _ =>
    simp only [Plan.isPromotable, Plan.ends_look_bind, trusted, if_true]
    exact Plan.ends_pure

theorem Plan.capturesHot_keeps (hq : KeepsUpTo p n) {v : Value} {b : Bool}
    (h : (Plan.capturesHot p v).Ends p n s b s') : s.Keeps p s' := by
  cases v with
  | ref a =>
    cases a with
    | warm w =>
      obtain ⟨creation, t, hcreation, h⟩ := Plan.ends_bind.1 h
      have hstart := Effect.keeps (p := p) (Plan.ends_perform.1 hcreation) rfl
      by_cases hot : creation.args.all Value.isHot
      · rw [if_pos hot] at h
        exact hstart.trans (hq _ _ _ _ (Plan.ends_ask.1 h))
      · rw [if_neg hot] at h
        obtain ⟨-, rfl⟩ := Plan.ends_pure.1 h
        exact hstart
    | thisOf c =>
      rw [Plan.capturesHot, Plan.ends_look_bind] at h
      obtain ⟨-, rfl⟩ := Plan.ends_pure.1 h
      exact .refl p _
  | closure body params frame env => exact hq _ _ _ _ (Plan.ends_ask.1 h)
  | _ =>
    obtain ⟨-, rfl⟩ := Plan.ends_pure.1 h
    exact .refl p _

/-- A test that is made for each element of a list takes nothing back. -/
theorem Plan.allM_keeps {γ : Type} {test : γ → Plan Bool}
    (htest : ∀ x s b s', (test x).Ends p n s b s' → s.Keeps p s') (xs : List γ) {b : Bool}
    (h : (xs.allM test).Ends p n s b s') : s.Keeps p s' := by
  induction xs generalizing s with
  | nil =>
    obtain ⟨-, rfl⟩ := Plan.ends_pure.1 h
    exact .refl p _
  | cons x xs ih =>
    obtain ⟨c, t, hx, h⟩ := Plan.ends_bind.1 h
    cases c with
    | true => exact (htest x s true t hx).trans (ih h)
    | false =>
      obtain ⟨-, rfl⟩ := Plan.ends_pure.1 h
      exact htest x _ _ _ hx

theorem Plan.isPromotable_keeps (hq : KeepsUpTo p n) {v : Value} {b : Bool}
    (h : (Plan.isPromotable p v).Ends p n s b s') : s.Keeps p s' := by
  cases v with
  | hot | cold =>
    obtain ⟨-, rfl⟩ := Plan.ends_pure.1 h
    exact .refl p _
  | oneOf vs =>
    rw [Plan.isPromotable, Plan.ends_look_bind] at h
    by_cases trusted : s.trusted.contains (.oneOf vs)
    · rw [if_pos trusted] at h
      obtain ⟨-, rfl⟩ := Plan.ends_pure.1 h
      exact .refl p _
    · rw [if_neg trusted] at h
      exact Plan.allM_keeps (fun v s b s' h => hq _ _ _ _ (Plan.ends_ask.1 h)) vs h
  | ref | closure =>
    simp only [Plan.isPromotable, Plan.ends_look_bind] at h
    split at h
    · obtain ⟨-, rfl⟩ := Plan.ends_pure.1 h
      exact .refl p _
    · obtain ⟨c, t, hcaptures, h⟩ := Plan.ends_bind.1 h
      have hstart := Plan.capturesHot_keeps hq hcaptures
      cases c with
      | false =>
        obtain ⟨-, rfl⟩ := Plan.ends_pure.1 h
        exact hstart
      | true =>
        obtain ⟨_, u, htrust, h⟩ := Plan.ends_bind.1 h
        obtain ⟨-, rfl⟩ := Plan.ends_pure.1 h
        exact hstart.trans (Effect.keeps (Plan.ends_perform.1 htrust) rfl)

/-- A value that is not promotable was not trusted. -/
theorem Plan.untrusted_of_isPromotable {v : Value} (hcold : v ≠ .cold)
    (h : (Query.isPromotable v).Ends p n s false s') : ¬s.trusted.contains v := by
  intro trusted
  cases n with
  | zero => exact Query.ends_zero h
  | succ n =>
    have := (Plan.ends_isPromotable_of_trusted trusted hcold).1 (Query.ends_succ.1 h)
    cases this.1

/-- Trying out a promotion takes nothing back that was there before the value was found not to be
    promotable. -/
theorem Plan.promotion_keeps (hq : KeepsUpTo p n) {v : Value} {part : Plan (List SafetyError)}
    (hpart : Plan.Alike false Eq ErrorsAlike part part) {s₀ : Store} (before : s₀.Keeps p s)
    (untrusted : ¬s₀.trusted.contains v) {es : List SafetyError} {t : Store}
    (h : part.Ends p n ((Scope.promotion v).enter s) es t) :
    s₀.Keeps p ((Scope.promotion v).leave s.toContext es t) := by
  have hkeeps := hpart.keeps hq h
  have enter : s.Keeps p ((Scope.promotion v).enter s) := .trust p s v
  have whole := before.trans (enter.trans hkeeps)
  cases hes : es.isEmpty with
  | true =>
    simp only [Scope.leave, hes, if_true]
    exact whole
  | false =>
    simp only [Scope.leave, hes]
    refine ⟨whole.heap, whole.cached, fun w hw => ?_, whole.filled⟩
    change (t.trusted.erase v).contains w = true
    have hne : w ≠ v := fun h => untrusted (h ▸ hw)
    rw [Trusted.contains_erase, whole.trusted w hw, bne_iff_ne.2 hne]
    rfl

/-- A promotion takes nothing back. -/
theorem Plan.promote_keeps (hq : KeepsUpTo p n) {v : Value} {reason : String} {source : Span}
    {es : List SafetyError} (h : (Plan.promote p v reason source).Ends p n s es s') :
    s.Keeps p s' := by
  cases v with
  | hot =>
    obtain ⟨-, rfl⟩ := Plan.ends_pure.1 h
    exact .refl p _
  | cold => exact (alike_failPromotion reason source).keeps hq h
  | oneOf vs =>
    exact (Plan.Alike.errorsOfEach_same vs fun v => alike_askPromote v reason source).keeps hq h
  | ref a =>
    simp only [Plan.promote, Plan.ends_bind, Plan.ends_ask] at h
    obtain ⟨b, t, hb, h⟩ := h
    have hstart := hq _ _ _ _ hb
    cases b with
    | true =>
      obtain ⟨-, rfl⟩ := Plan.ends_pure.1 h
      exact hstart
    | false =>
      cases a with
      | thisOf c => exact hstart.trans ((alike_failPromotion reason source).keeps hq h)
      | warm w =>
        obtain ⟨es', u, hpart, h⟩ := Plan.ends_within.1 h
        obtain ⟨-, rfl⟩ := Plan.ends_pure.1 h
        exact Plan.promotion_keeps hq (alike_promoteWarm w reason source) hstart
          (Plan.untrusted_of_isPromotable Value.noConfusion hb) hpart
  | closure body params frame env =>
    simp only [Plan.promote, Plan.ends_bind, Plan.ends_ask] at h
    obtain ⟨b, t, hb, h⟩ := h
    have hstart := hq _ _ _ _ hb
    cases b with
    | true =>
      obtain ⟨-, rfl⟩ := Plan.ends_pure.1 h
      exact hstart
    | false =>
      obtain ⟨es', u, hpart, h⟩ := Plan.ends_within.1 h
      refine .trans ?_ ((alike_explain reason source (.refl es')).keeps hq h)
      exact Plan.promotion_keeps hq (alike_promoteBody body params frame env reason source) hstart
        (Plan.untrusted_of_isPromotable Value.noConfusion hb) hpart

/-! ### Objects -/

/-- The fields of class parameters are set. -/
theorem Plan.setParams_keeps {c : ClassId} {this : Addr} {u : Unit}
    (h : (Plan.setParams p c this).Ends p n s u s') : s.Keeps p s' := by
  unfold Plan.setParams at h
  dsimp only at h
  have isParam (field : SymbolId) (hf : field ∈ p.paramFields c) :
      (p.symbol field).isParamAccessor := (List.mem_filter.1 hf).2
  generalize p.paramFields c = fields at h isParam
  induction fields generalizing s with
  | nil =>
    obtain ⟨-, rfl⟩ := Plan.ends_pure.1 h
    exact .refl p _
  | cons field fields ih =>
    obtain ⟨_, t, hfield, h⟩ := Plan.ends_bind.1 h
    refine .trans ?_ (ih h fun f hf => isParam f (List.mem_cons_of_mem field hf))
    rw [Plan.ends_look_bind, Plan.ends_perform, Effect.run_setField] at hfield
    obtain ⟨heap, ok, rfl⟩ := hfield
    refine .of_setField ok fun e u hf => ?_
    rw [isParam field List.mem_cons_self] at hf
    cases hf

/-- A statement of a class body sets a field to the value of its initializer. -/
theorem Plan.stat_keeps (hq : KeepsUpTo p n) {c : ClassId} {this : Addr} {e : ExprId}
    {es : List SafetyError} (h : (Plan.stat p c this e).Ends p n s es s') : s.Keeps p s' := by
  unfold Plan.stat at h
  cases hnode : (p.expr e).node with
  | valDef field =>
    simp only [hnode] at h
    by_cases lazy : (p.symbol field).isLazy
    · rw [if_pos lazy] at h
      obtain ⟨-, rfl⟩ := Plan.ends_pure.1 h
      exact .refl p _
    rw [if_neg lazy] at h
    cases body : (p.symbol field).body with
    | some e =>
      simp only [body, Plan.ends_bind, Plan.ends_ask] at h
      obtain ⟨o, t, ho, _, u, hset, h⟩ := h
      obtain ⟨-, rfl⟩ := Plan.ends_pure.1 h
      obtain ⟨heap, ok, rfl⟩ := Effect.run_setField.1 (Plan.ends_perform.1 hset)
      refine (hq _ _ _ _ ho).trans (.of_setField ok fun e' v _ body' hv => ?_)
      rw [body] at body'
      cases body'
      have kept := Query.eval_kept ho
      rw [kept] at hv
      exact (Option.some.inj hv).symm
    | none =>
      simp only [body, Plan.ends_bind] at h
      obtain ⟨o, t, ho, _, u, hset, h⟩ := h
      obtain ⟨rfl, rfl⟩ := Plan.ends_pure.1 ho
      obtain ⟨-, rfl⟩ := Plan.ends_pure.1 h
      obtain ⟨heap, ok, rfl⟩ := Effect.run_setField.1 (Plan.ends_perform.1 hset)
      refine .of_setField ok fun e' v _ body' => ?_
      rw [body] at body'
      cases body'
  | methodDef | typeDef =>
    simp only [hnode] at h
    obtain ⟨-, rfl⟩ := Plan.ends_pure.1 h
    exact .refl p _
  | _ =>
    simp only [hnode] at h
    exact ((alike_eval e ⟨this, c⟩ false).bind fun o o' ho => .pure ho.2).keeps hq h

theorem Plan.body_keeps (hq : KeepsUpTo p n) {c : ClassId} {this : Addr} {es : List SafetyError}
    (h : (Plan.body p c this).Ends p n s es s') : s.Keeps p s' := by
  unfold Plan.body at h
  split at h
  next template _ =>
    generalize template.body = stats at h
    induction stats generalizing s es with
    | nil =>
      obtain ⟨-, rfl⟩ := Plan.ends_pure.1 h
      exact .refl p _
    | cons stat stats ih =>
      obtain ⟨es₁, t, es₂, hstat, h, -⟩ := Plan.ends_errorsOfEach_cons.1 h
      exact (Plan.stat_keeps hq hstat).trans (ih h)
  next =>
    obtain ⟨-, rfl⟩ := Plan.ends_pure.1 h
    exact .refl p _

/-- The four parts of the template of a class with source. -/
theorem Plan.template_of_source {c : ClassId} {a : Addr} {T : Template}
    (ht : (p.cls c).template = some T) :
    Plan.template p c a = do
      Plan.setParams p c a
      let ofParents ← (if (p.cls c).isTrait then Pure.pure []
        else Plan.initParents p c a T.parents : Plan _)
      let ofBody ← Query.body c a
      return ⟨.ref a, ofParents ++ ofBody⟩ := by
  simp only [Plan.template, ht]
  split <;> rfl

theorem Plan.template_keeps (hq : KeepsUpTo p n) {c : ClassId} {this : Addr} {o : Outcome}
    (h : (Plan.template p c this).Ends p n s o s') : s.Keeps p s' := by
  unfold Plan.template at h
  split at h
  next template _ =>
    obtain ⟨_, t, hparams, h⟩ := Plan.ends_bind.1 h
    refine (Plan.setParams_keeps hparams).trans ?_
    have rest {es : List SafetyError} : Plan.Alike false Eq Outcome.Alike
        (do return ⟨.ref this, es ++ (← Query.body c this)⟩)
        (do return ⟨.ref this, es ++ (← Query.body c this)⟩) :=
      (Plan.Alike.ask_self (.body c this) rfl).bind fun fs fs' hfs =>
        .pure ⟨rfl, (ErrorsAlike.refl es).append hfs⟩
    by_cases trait : (p.cls c).isTrait
    · rw [if_pos trait] at h
      exact rest.keeps hq h
    · rw [if_neg trait] at h
      obtain ⟨es, u, hparents, h⟩ := Plan.ends_bind.1 h
      exact ((alike_initParents c this template.parents).keeps hq hparents).trans (rest.keeps hq h)
  next =>
    obtain ⟨-, rfl⟩ := Plan.ends_pure.1 h
    exact .refl p _

end Plans

/-! ## Questions -/

/-- Whatever is asked, what was there before the question is there afterwards. -/
theorem Query.Ends.keeps {p : Program} {n : Nat} {β : Type} {q : Query β} {s s' : Store} {b : β}
    (h : q.Ends p n s b s') : s.Keeps p s' := by
  induction n generalizing β s s' with
  | zero => exact absurd h Query.ends_zero
  | succ n ih =>
    have hq : KeepsUpTo p n := fun q s b s' h => ih h
    rw [Query.ends_succ] at h
    cases q with
    | eval e frame final => exact Plan.eval_keeps hq h
    | select v field source virtual =>
      exact (Plan.alike_select v field source virtual Query.findsSame_of_eq).keeps hq h
    | call v method args dispatch source =>
      exact (Plan.alike_call v method dispatch source (.refl args) Query.findsSame_of_eq).keeps hq h
    | construct v ctor args source =>
      exact (Plan.alike_construct v ctor source (.refl args)).keeps hq h
    | create outer c ctor args source =>
      exact (Plan.alike_create outer c ctor source (.refl args) Heap.contains_of_eq).keeps hq h
    | template c this => exact Plan.template_keeps hq h
    | body c this => exact Plan.body_keeps hq h
    | promote v reason source => exact Plan.promote_keeps hq h
    | isPromotable v => exact Plan.isPromotable_keeps hq h
    | enclosingInstance target v c source =>
      exact (Plan.alike_enclosingInstance target v c source Query.findsSame_of_eq).keeps hq h
    | outerInstance type frame source =>
      exact (Plan.alike_outerInstance type frame source).keeps hq h
    | check c => exact (Plan.alike_check c Heap.contains_of_eq).keeps hq h

/-- Where no element leads to errors, each one is tried between two stores that come one after the
    other. -/
theorem Plan.ends_errorsOfEach_nil {p : Program} {n : Nat} {α : Type} {xs : List α}
    {f : α → Plan (List SafetyError)} {s s' : Store}
    (hf : ∀ x, Plan.Alike false Eq ErrorsAlike (f x) (f x))
    (h : (Plan.errorsOfEach xs f).Ends p n s [] s') :
    s.Keeps p s' ∧
      ∀ x ∈ xs, ∃ t t', s.Keeps p t ∧ (f x).Ends p n t [] t' ∧ t'.Keeps p s' := by
  induction xs generalizing s with
  | nil =>
    obtain ⟨-, rfl⟩ := Plan.ends_pure.1 h
    exact ⟨.refl p _, nofun⟩
  | cons y ys ih =>
    obtain ⟨es₁, t, es₂, hy, hys, hes⟩ := Plan.ends_errorsOfEach_cons.1 h
    obtain ⟨rfl, rfl⟩ := List.append_eq_nil_iff.1 hes.symm
    have hstart : s.Keeps p t := (hf y).keeps (fun q s b s' h => h.keeps) hy
    obtain ⟨hrest, ih⟩ := ih hys
    refine ⟨hstart.trans hrest, fun x hx => ?_⟩
    rcases List.mem_cons.1 hx with rfl | hx
    · exact ⟨s, t, .refl p s, hy, hrest⟩
    · obtain ⟨u, u', hu, hx, hu'⟩ := ih x hx
      exact ⟨u, u', hstart.trans hu, hx, hu'⟩

/-! ## Later stores -/

/-- A store that comes about when questions are asked one after the other, each in an environment
    and with a trace of its own. -/
inductive Store.Later (p : Program) (s : Store) : Store → Prop where
  | refl : Later p s s
  | asked {t u : Store} {β : Type} {q : Query β} {b : β} (h : Later p s t) (context : Context)
    (hq : q.Answered p { t with toContext := context } b u) : Later p s u

theorem Store.Later.answered {p : Program} {s t u : Store} {β : Type} {q : Query β} {b : β}
    (h : s.Later p t) (hq : q.Answered p t b u) : s.Later p u :=
  h.asked t.toContext hq

/-- The store after an answer that is computed is a later one. -/
theorem Store.Later.storeAfter {p : Program} {n : Nat} {s t : Store} {β : Type} {q : Query β}
    (h : s.Later p t) (hq : (q.result? p n t).isSome) : s.Later p (q.storeAfter p n t) := by
  obtain ⟨b, hb, -⟩ := Query.answered_of_result? (q := q) (fun _ => true) (by rwa [Option.any_true])
  exact h.answered hb

theorem Store.Later.keeps {p : Program} {s t : Store} (h : s.Later p t) : s.Keeps p t := by
  induction h with
  | refl => exact .refl p s
  | asked _ context hq ih =>
    obtain ⟨n, hq⟩ := hq
    exact ih.trans (hq.keeps.congr rfl rfl rfl rfl rfl rfl)

end ObjectInit
