import ObjectInit.Proofs.Slots
import ObjectInit.Proofs.Termination

/-!
# Filling each slot once

In the analysis of a disciplined program whose slots are apportioned, the heap never refuses a
change. The cache tells which templates were begun on an object. What is filled on the object was
filled by one of them (`Regime.Apportioned`), and a question that is asked meanwhile leaves to each
of them what it has not filled yet (`Regime.Spares`). So a template finds its slots unfilled when it
begins, and each of them is still unfilled when its turn comes (`Store.Awaits`).

Main results:

* `Store.Awaits.fill`: the next slot is unfilled when its turn comes, and the rest goes on waiting.
* `Plan.fills_body`, `Plan.fills_initParents`: the parts of a template fill their slots.
-/

namespace ObjectInit

variable {p : Program} {a this : Addr} {c d : ClassId} {h h' : Heap} {m m' m'' : Memory} {v : Value}
  {x : Slot} {s t : Store}

/-! ## Changes of one slot -/

namespace Heap

/-- Fills a slot of an object. -/
def fill (h : Heap) (a : Addr) (v : Value) : Slot → Except HeapFault Heap
  | .field f => h.setField a f v
  | .outer c => h.setOuter a c v

theorem Extends.of_fill (ok : h.fill a v x = .ok h') : h.Extends h' := by
  cases x with
  | field f => exact .of_setField ok
  | outer c => exact .of_setOuter ok

/-- After a slot was filled, it and nothing else is filled that was not before. -/
theorem filled_of_fill (ok : h.fill a v x = .ok h') {b : Addr} {y : Slot} :
    h'.Filled b y ↔ h.Filled b y ∨ b = a ∧ y = x := by
  cases x with
  | field f =>
    cases y with
    | field g =>
      rw [Filled, field?_of_setField ok, Filled]
      by_cases same : b = a ∧ g = f <;> simp [same]
    | outer d =>
      rw [Filled, outer?_of_setField ok, Filled]
      simp
  | outer c =>
    cases y with
    | field g =>
      rw [Filled, field?_of_setOuter ok, Filled]
      simp
    | outer d =>
      rw [Filled, outer?_of_setOuter ok, Filled]
      by_cases same : b = a ∧ d = c <;> simp [same]

/-- The heap does not refuse to fill a slot of an object that is not filled. -/
theorem exists_fill (alive : h.contains a = true) (unfilled : ¬h.Filled a x) (v : Value) :
    ∃ h', h.fill a v x = .ok h' := by
  cases x with
  | field f => exact exists_setField alive (by simpa [Filled] using unfilled) v
  | outer c => exact exists_setOuter alive (by simpa [Filled] using unfilled) v

/-- When an object is allocated, only the outer of its own class is filled. -/
theorem filled_of_allocate (ok : h.allocate a (.new c [(d, v)]) = .ok h') {b : Addr} {y : Slot} :
    h'.Filled b y ↔ h.Filled b y ∨ b = a ∧ y = .outer d := by
  cases y with
  | field f =>
    rw [Filled, field?_of_allocate ok, Filled]
    simp
  | outer e =>
    rw [Filled, outer?_of_allocate ok, Filled]
    by_cases same : b = a ∧ e = d <;> simp [same]

theorem filled_warmOf {creation : Creation} : (h.warmOf creation).2.Filled a x ↔ h.Filled a x := by
  cases x <;> exact Iff.rfl

end Heap

theorem Slot.run_fill (ok : s.heap.fill a v x = .ok h) :
    (x.fill a v).run.run s = .ok ((), { s with heap := h }) := by
  cases x with
  | field f => exact Effect.run_setField.2 ⟨h, ok, rfl⟩
  | outer c => exact Effect.run_setOuter.2 ⟨h, ok, rfl⟩

/-! ## Templates in progress -/

/-- The template of the class was begun on the object. -/
def Memory.Begun (p : Program) (m : Memory) (a : Addr) (c : ClassId) : Prop :=
  ∃ e, p.IsTemplateOf e c ∧ (m.cache.find? a e).isSome

theorem Memory.Begun.mono (begun : m.Begun p a c) (ext : m.Extends m') : m'.Begun p a c := by
  obtain ⟨e, template, cached⟩ := begun
  obtain ⟨v, hv⟩ := Option.isSome_iff_exists.1 cached
  refine ⟨e, template, ?_⟩
  rw [ext.cached a e v hv]
  rfl

/-- The template of the class is one of those that initialize the object. -/
def Program.InitializesAt (p : Program) (a : Addr) (c : ClassId) : Prop := p.Initializes a.cls c

/-- New objects are created by the constructors of their class. -/
def Program.CreatesOwn (p : Program) : Prop :=
  ∀ b e c type x args, p.IsCode b e c → (p.expr e).node = .new type x args →
    p.homeClass x = type.cls

namespace Regime

/-- The templates that were begun stay so, and what they have not filled is left to them, with some
    exceptions. -/
structure Spares (p : Program) (except : Set (Addr × ClassId)) (m m' : Memory) : Prop where
  begun : ∀ a c, m.Begun p a c → m'.Begun p a c
  spared : ∀ a c x, m.Begun p a c → (a, c) ∉ except → x ∈ p.slotsOf c → m'.heap.Filled a x →
    m.heap.Filled a x

/-- What is filled on an object was filled when it was created or by a template that was begun on
    it. -/
structure Apportioned (p : Program) (m : Memory) : Prop where
  filler : ∀ a x, m.heap.Filled a x → x = .outer a.cls ∨ ∃ c, m.Begun p a c ∧ x ∈ p.slotsOf c
  begun : ∀ a c, m.Begun p a c → p.InitializesAt a c

/-- The regime under which templates are left what they have not filled. -/
def sparing (p : Program) (except : Set (Addr × ClassId)) : Regime p :=
  disciplined p p.InitializesAt (Spares p except) (Apportioned p)

variable {except except' : Set (Addr × ClassId)}

theorem Spares.refl : Spares p except m m := ⟨fun _ _ h => h, fun _ _ _ _ _ _ h => h⟩

theorem Spares.trans (first : Spares p except m m') (second : Spares p except m' m'') :
    Spares p except m m'' :=
  ⟨fun a c begun => second.begun a c (first.begun a c begun),
    fun a c x begun other hx filled => first.spared a c x begun other hx
      (second.spared a c x (first.begun a c begun) other hx filled)⟩

theorem Spares.mono (spares : Spares p except m m') (sub : except ⊆ except') :
    Spares p except' m m' :=
  ⟨spares.begun, fun a c x begun other => spares.spared a c x begun fun mem => other (sub mem)⟩

/-- Where the heap stays, nothing is filled. -/
theorem Spares.of_heap (ext : m.Extends m') (heap : m'.heap = m.heap) : Spares p except m m' := by
  refine ⟨fun a c begun => begun.mono ext, fun a c x _ _ _ filled => ?_⟩
  rw [← heap]
  exact filled

/-- Evaluations begin templates only on the objects that these initialize. -/
theorem apportioned_enter (hp : p.Disciplined) {e : ExprId} {frame : Frame}
    (apportioned : Apportioned p m) (body : BodyRuns p p.InitializesAt e frame)
    (miss : m.cache.find? frame.receiver e = none) :
    Apportioned p (m.enter frame.receiver e) := by
  have ext := Memory.extends_enter (m := m) miss
  constructor
  · intro a x filled
    rcases apportioned.filler a x filled with own | ⟨c, begun, hx⟩
    · exact .inl own
    · exact .inr ⟨c, begun.mono ext, hx⟩
  · rintro a c ⟨g, template, cached⟩
    rw [Memory.find?_enter] at cached
    split at cached
    · next same =>
      obtain ⟨rfl, rfl⟩ := same
      rcases body with ⟨b, code, -⟩ | ⟨template', runs⟩
      · obtain ⟨-, _, -, -, node⟩ := template
        exact absurd node (hp.templates b g frame.cls c code)
      · rw [template.cls_unique template']
        exact runs
    · exact apportioned.begun a c ⟨g, template, cached⟩

/-- Templates that were begun stay so when their evaluation ends. -/
theorem apportioned_leave (hp : p.Disciplined) {e : ExprId} {frame : Frame} {final : Bool}
    (code : final = false → CodeRuns p p.InitializesAt e frame)
    (cached : (m.cache.find? frame.receiver e).isSome) (apportioned : Apportioned p m) :
    Apportioned p (m.leave frame.receiver e final v) := by
  constructor
  · intro a x filled
    rcases apportioned.filler a x filled with own | ⟨c, ⟨g, template, hg⟩, hx⟩
    · exact .inl own
    · refine .inr ⟨c, ⟨g, template, ?_⟩, hx⟩
      by_cases same : a = frame.receiver ∧ g = e
      · obtain ⟨rfl, rfl⟩ := same
        rw [Memory.find?_leave_self]
        cases final with
        | true => rfl
        | false =>
          obtain ⟨b, code, -⟩ := code rfl
          obtain ⟨-, _, -, -, node⟩ := template
          exact absurd node (hp.templates b g frame.cls c code)
      · rw [Memory.find?_leave_of_ne same]
        exact hg
  · rintro a c ⟨g, template, hg⟩
    apply apportioned.begun a c
    refine ⟨g, template, ?_⟩
    by_cases same : a = frame.receiver ∧ g = e
    · obtain ⟨rfl, rfl⟩ := same
      exact cached
    · rw [Memory.find?_leave_of_ne same] at hg
      exact hg

/-- Nothing is filled at the start. -/
theorem apportioned_initial : Apportioned p Store.initial.memory := by
  refine ⟨fun a x filled => ?_, fun a c ⟨e, _, cached⟩ => ?_⟩
  · cases x <;>
      simp [Store.memory, Store.initial, Heap.Filled, Heap.field?, Heap.outer?, Heap.read] at filled
  · cases cached

/-- A new object has its own outer, and no template was begun on it. -/
theorem Apportioned.allocate (apportioned : Apportioned p m)
    (ok : m.heap.allocate a (.new a.cls [(a.cls, v)]) = .ok h) :
    Apportioned p { m with heap := h } := by
  refine ⟨fun b x filled => ?_, apportioned.begun⟩
  rcases (Heap.filled_of_allocate ok).1 filled with old | ⟨rfl, rfl⟩
  · exact apportioned.filler b x old
  · exact .inl rfl

/-- Single steps of the analysis leave to the templates what they have not filled. -/
theorem sparing_tracks (hp : p.Disciplined) (apportions : p.Apportions) :
    Tracks p p.InitializesAt (Spares p except) (Apportioned p) where
  refl _ := .refl
  trans _ _ _ := .trans
  enter m e frame apportioned body miss :=
    ⟨.of_heap (Memory.extends_enter miss) rfl, apportioned_enter hp apportioned body miss⟩
  leave m m' e frame final v _ body code miss ext spares apportioned := by
    have entered := Memory.extends_enter (m := m) miss
    have cached : (m'.cache.find? frame.receiver e).isSome := by
      rw [ext.cached _ _ _ (by rw [Memory.find?_enter, if_pos ⟨rfl, rfl⟩])]
      rfl
    refine ⟨⟨fun a c begun => ?_, fun a c x begun other hx filled => ?_⟩,
      apportioned_leave hp code cached apportioned⟩
    · exact begun.mono (Memory.extends_leave miss ext final v)
    · exact spares.spared a c x (begun.mono entered) other hx filled
  warmOf m creation apportioned := by
    refine ⟨⟨fun _ _ begun => begun, fun a c x _ _ _ filled => Heap.filled_warmOf.1 filled⟩, ?_⟩
    exact ⟨fun a x filled => apportioned.filler a x (Heap.filled_warmOf.1 filled),
      apportioned.begun⟩
  allocate m a v h apportioned _ ok := by
    refine ⟨⟨fun _ _ begun => begun, fun b c x begun _ hx filled => ?_⟩, apportioned.allocate ok⟩
    rcases (Heap.filled_of_allocate ok).1 filled with old | ⟨rfl, rfl⟩
    · exact old
    · exact absurd hx (apportions.own _ c (apportioned.begun b c begun))

theorem sparing_lawful (hp : p.Disciplined) (own : p.OwnConstructors) (creates : p.CreatesOwn)
    (apportions : p.Apportions) : (sparing p except).Lawful := by
  refine disciplined_lawful hp own (fun b e c type x args code node w hw => ?_)
    (sparing_tracks hp apportions)
  rw [creates b e c type x args code node, Program.InitializesAt, ← hw]
  exact .refl

end Regime

open Regime

/-! ## Plans that fill slots -/

/-- The template of the class is in progress on the object, and it still has to fill these slots. -/
structure Store.Awaits (p : Program) (this : Addr) (c : ClassId) (todo : List Slot) (s : Store) :
    Prop where
  ready : (sparing p ∅).Ready s
  has : s.heap.Has this
  begun : s.memory.Begun p this c
  own : ∀ x ∈ todo, x ∈ p.slotsOf c
  nodup : todo.Nodup
  unfilled : ∀ x ∈ todo, ¬s.heap.Filled this x

/-- The plan, which is carried out for the template of the class, fills slots of the object until
    those in `todo` are left. -/
def Plan.Fills {α : Type} (p : Program) (C : Contract) (this : Addr) (c : ClassId)
    (todo : List Slot) (x : Plan α) (s : Store) (ok : α → Memory → Prop) : Prop :=
  x.Obeys p C s fun a t =>
    (sparing p {(this, c)}).Step s t ∧ t.Awaits p this c todo ∧ ok a t.memory

variable {C : Contract} {todo todo' : List Slot} {α β γ : Type}

/-- The template may fill any of its slots that it has not filled. -/
theorem Store.Awaits.fill (apportions : p.Apportions) (awaits : s.Awaits p this c (x :: todo))
    (hv : (calling p p.InitializesAt).Fits s.memory 0 v) :
    ∃ h, s.heap.fill this v x = .ok h ∧
      (sparing p {(this, c)}).Step s { s with heap := h } ∧
      { s with heap := h }.Awaits p this c todo := by
  obtain ⟨new, nodup⟩ := List.nodup_cons.1 awaits.nodup
  obtain ⟨h, ok⟩ := Heap.exists_fill awaits.has.1 (awaits.unfilled x List.mem_cons_self) v
  have ext : s.memory.Extends { s.memory with heap := h } := ⟨.of_fill ok, fun _ _ _ hv => hv⟩
  obtain ⟨called, apportioned⟩ := awaits.ready.inv
  have own : x ∈ p.slotsOf c := awaits.own x List.mem_cons_self
  have called' : Called p p.InitializesAt { s.memory with heap := h } := by
    cases x with
    | field f => exact called.setField hv ok
    | outer d => exact called.setOuter hv ok
  have apportioned' : Apportioned p { s.memory with heap := h } := by
    refine ⟨fun b y filled => ?_, apportioned.begun⟩
    rcases (Heap.filled_of_fill ok).1 filled with old | ⟨rfl, rfl⟩
    · exact apportioned.filler b y old
    · exact .inr ⟨c, awaits.begun, own⟩
  have spares : Spares p {(this, c)} s.memory { s.memory with heap := h } := by
    refine ⟨fun _ _ begun => begun, fun b d y begun other hy filled => ?_⟩
    rcases (Heap.filled_of_fill ok).1 filled with old | ⟨rfl, rfl⟩
    · exact old
    · -- No other template that initializes the object fills this slot.
      have same := apportions.unique _ d c y (apportioned.begun b d begun)
        (apportioned.begun b c awaits.begun) hy own
      exact absurd (by rw [same]; exact Set.mem_singleton _) other
  refine ⟨h, ok, ⟨ext, fun _ h => h, spares, called', apportioned'⟩,
    ⟨⟨called', apportioned'⟩, fun y w hw => ?_⟩, awaits.has.mono (.of_fill ok), awaits.begun,
    fun y hy => awaits.own y (List.mem_cons_of_mem x hy), nodup, fun y hy filled => ?_⟩
  · exact fits_later (awaits.ready.env y w hw) (.of_fill ok)
  · rcases (Heap.filled_of_fill ok).1 filled with old | ⟨-, rfl⟩
    · exact awaits.unfilled y (List.mem_cons_of_mem x hy) old
    · exact new hy

/-- What leaves the templates what they have not filled leaves this one its slots. -/
theorem Store.Awaits.step (lawful : (sparing p ∅).Lawful) (awaits : s.Awaits p this c todo)
    (step : (sparing p ∅).Step s t) (env : t.env = s.env) : t.Awaits p this c todo where
  ready := awaits.ready.step lawful step env
  has := awaits.has.mono step.memory.heap
  begun := step.rel.begun this c awaits.begun
  own := awaits.own
  nodup := awaits.nodup
  unfilled x hx filled := awaits.unfilled x hx <|
    step.rel.spared this c x awaits.begun (Set.notMem_empty _) (awaits.own x hx) filled

theorem Regime.step_sparing (step : (sparing p ∅).Step s t) (except : Set (Addr × ClassId)) :
    (sparing p except).Step s t :=
  ⟨step.memory, step.trusted, step.rel.mono (Set.empty_subset except), step.inv⟩

namespace Plan.Fills

variable {ok : α → Memory → Prop} {okb : β → Memory → Prop}

theorem imp {x : Plan α} {ok' : α → Memory → Prop} (h : x.Fills p C this c todo s ok)
    (hok : ∀ a m, ok a m → ok' a m) : x.Fills p C this c todo s ok' :=
  Plan.Obeys.imp h fun a t ha => ⟨ha.1, ha.2.1, hok a t.memory ha.2.2⟩

theorem pure (lawful : ∀ except, (sparing p except).Lawful) (awaits : s.Awaits p this c todo)
    {a : α} (h : ok a s.memory) : (Pure.pure a : Plan α).Fills p C this c todo s ok :=
  ⟨step_sparing (.refl (lawful ∅) awaits.ready.inv) _, awaits, h⟩

theorem bind (lawful : ∀ except, (sparing p except).Lawful) {x : Plan β} {f : β → Plan α}
    (hx : x.Fills p C this c todo s okb)
    (hf : ∀ b t, (sparing p {(this, c)}).Step s t → t.Awaits p this c todo → okb b t.memory →
      (f b).Fills p C this c todo' t ok) : (x >>= f).Fills p C this c todo' s ok := by
  refine Plan.obeys_bind.2 (Plan.Obeys.imp hx fun b t ⟨step, awaits, hb⟩ => ?_)
  refine Plan.Obeys.imp (hf b t step awaits hb) fun a u ⟨step', awaits', ha⟩ => ?_
  exact ⟨step.trans (lawful _) step', awaits', ha⟩

theorem look_bind {f : Store → Plan α} (h : (f s).Fills p C this c todo s ok) :
    ((liftM Effect.look : Plan Store) >>= f).Fills p C this c todo s ok :=
  Plan.obeys_look_bind.2 h

theorem map {x : Plan β} {f : β → α} (h : x.Fills p C this c todo s fun b m => ok (f b) m) :
    (f <$> x).Fills p C this c todo s ok :=
  Plan.obeys_map.2 h

/-- Questions that lead to no template of the object fill none of its slots. -/
theorem of_carries (lawful : ∀ except, (sparing p except).Lawful)
    (awaits : s.Awaits p this c todo) {x : Plan α} (h : (sparing p ∅).Carries C x s ok) :
    x.Fills p C this c todo s ok :=
  Plan.Obeys.imp h fun _ _ ⟨step, env, ha⟩ =>
    ⟨step_sparing step _, awaits.step (lawful ∅) step env, ha⟩

/-- The next slot is filled. -/
theorem fill (apportions : p.Apportions) (awaits : s.Awaits p this c (x :: todo))
    (hv : (sparing p ∅).Fits s.memory 0 v) :
    (liftM (x.fill this v) : Plan Unit).Fills p C this c todo s fun _ _ => True := by
  obtain ⟨h, ok, step, awaits'⟩ := awaits.fill apportions (fits_disciplined.1 hv)
  exact (Plan.obeys_perform_of_ok (Slot.run_fill ok)).2 ⟨step, awaits', trivial⟩

/-- A plan for each element of a list, which fills the slots of this element. -/
theorem mapM (lawful : ∀ except, (sparing p except).Lawful) {xs : List γ} {f : γ → Plan β}
    {slots : γ → List Slot} (kept : ∀ b m m', m.heap.Extends m'.heap → okb b m → okb b m')
    (awaits : s.Awaits p this c (xs.flatMap slots ++ todo))
    (hf : ∀ x ∈ xs, ∀ t todo, t.Awaits p this c (slots x ++ todo) →
      (f x).Fills p C this c todo t okb) :
    (xs.mapM f).Fills p C this c todo s fun bs m => ∀ b ∈ bs, okb b m := by
  induction xs generalizing s with
  | nil =>
    rw [List.mapM_nil]
    exact pure lawful awaits nofun
  | cons x xs ih =>
    rw [List.flatMap_cons, List.append_assoc] at awaits
    rw [List.mapM_cons]
    refine bind lawful (hf x List.mem_cons_self s _ awaits) fun b t _ awaits' hb => ?_
    refine bind lawful (ih awaits' fun y hy => hf y (List.mem_cons_of_mem x hy))
      fun bs u step awaits'' hbs => pure lawful awaits'' fun b' hb' => ?_
    rcases List.mem_cons.1 hb' with rfl | hb'
    · exact kept _ _ _ step.memory.heap hb
    · exact hbs b' hb'

end Plan.Fills

/-! ## Templates -/

/-- The template of a class begins with all of its slots unfilled. -/
def Regime.filling (p : Program) : Contract where
  pre q s := match q with
    | .template c this => s.Awaits p this c (p.slotsOf c)
    | .body c this => s.Awaits p this c (p.bodySlots c)
    | _ => False
  post q s b t := match q, b with
    | .template c this, o => (sparing p {(this, c)}).rel s.memory t.memory ∧
      (sparing p ∅).inv t.memory ∧ o.value = .ref this
    | .body c this, _ => (sparing p {(this, c)}).rel s.memory t.memory ∧
      (sparing p ∅).inv t.memory
    | _, _ => True
  fault _ := False

/-- The contract under which the heap refuses nothing. -/
def Regime.unrefused (p : Program) : Contract := (sparing p ∅).contract (filling p)

/-- A question about a template that may be asked is answered as it promises. -/
theorem Plan.obeys_askTemplate {q : Query α} {want : α → Store → Prop} (large : 9 ≤ q.kind)
    (pre : (filling p).pre q s)
    (hw : ∀ b t, q.Answered p s b t → (filling p).post q s b t → want b t) :
    (liftM q : Plan α).Obeys p ((unrefused p).only fun _ _ => True) s want :=
  Plan.obeys_ask.2 ⟨⟨(contract_pre_of_le large).2 pre, trivial⟩, fun b t answered post =>
    hw b t answered ((contract_post_of_le large).1 post)⟩

namespace Plan

theorem serves_unrefused {n : Nat} (hn : n ≤ 9) :
    (sparing p ∅).Serves ((unrefused p).only fun _ _ => True) s n :=
  serves_contract hn fun _ _ _ _ => trivial

section

variable (lawful : ∀ except, (sparing p except).Lawful) (apportions : p.Apportions)

include lawful apportions

theorem fills_setParams (awaits : s.Awaits p this c ((p.paramFields c).map .field ++ todo)) :
    (setParams p c this).Fills p ((unrefused p).only fun _ _ => True) this c todo s
      fun _ _ => True := by
  unfold setParams
  dsimp only
  generalize p.paramFields c = fields at awaits
  induction fields generalizing s with
  | nil => exact .pure lawful awaits trivial
  | cons f fields ih =>
    exact .bind lawful (.look_bind (.fill (x := .field f) apportions awaits
      (awaits.ready.paramValue _ _))) fun _ t _ awaits' _ => ih awaits'

/-- The outer of a parent is recorded, and its constructor may be called. -/
theorem fills_prepareParent (type : ClassRef) {ctor : Option SymbolId} {args : List ArgValue}
    {source : Span} (awaits : s.Awaits p this c (.outer type.cls :: todo))
    (path : ∀ x ∈ type.path.symbols, (p.symbol x).isConstructor = false)
    (hctor : ∀ f, ctor = some f → p.homeClass f = type.cls)
    (hargs : ∀ arg ∈ args, ∃ B, (sparing p ∅).Fits s.memory B arg.value) :
    (prepareParent p c this type ctor args source).Fills p ((unrefused p).only fun _ _ => True)
      this c todo s fun r m => (sparing p ∅).Waits m this r := by
  have outer : (sparing p ∅).Carries ((unrefused p).only fun _ _ => True)
      (liftM (Query.outerInstance type ⟨this, c⟩ source)) s
      fun o m => (sparing p ∅).Fits m 0 o.value :=
    .ask (lawful ∅).governs awaits.ready (serves_unrefused (Nat.le_refl 9)) (by simp [Query.kind])
      ⟨awaits.has, path⟩ (by simp [Query.kind])
  refine .bind lawful (.of_carries lawful awaits outer) fun o t step awaits' ho => ?_
  refine .bind lawful (.fill (x := .outer type.cls) apportions awaits' ho)
    fun _ u step' awaits'' _ => .pure lawful awaits'' fun call hcall => ?_
  obtain ⟨f, hf, rfl⟩ := Option.map_eq_some_iff.1 hcall
  have listed : ctor = some f := by
    split at hf
    · exact hf
    · cases hf
  constructor
  · show p.Initializes this.cls (p.homeClass f)
    rw [hctor f listed]
    exact .tail (awaits.ready.inv.2.begun this c awaits.begun) (awaits.own _ List.mem_cons_self)
  · intro arg harg
    obtain ⟨B, fits⟩ := hargs arg harg
    exact ⟨B, fits_later fits (step.memory.heap.trans step'.memory.heap)⟩

theorem fills_stat {T : Template} (ht : (p.cls c).template = some T) {e : ExprId} (he : e ∈ T.body)
    (awaits : s.Awaits p this c (p.statSlots e ++ todo)) :
    (stat p c this e).Fills p ((unrefused p).only fun _ _ => True) this c todo s
      fun _ _ => True := by
  have code : (sparing p ∅).code s.memory e ⟨this, c⟩ := ⟨false, .stat ht he, nofun⟩
  have set {f : SymbolId} {o : Outcome} {u : Store} (awaits : u.Awaits p this c (.field f :: todo))
      (ho : (sparing p ∅).Fits u.memory 0 o.value) :
      (do Effect.setField this f o.value; return o.errors : Plan _).Fills p
        ((unrefused p).only fun _ _ => True) this c todo u fun _ _ => True :=
    .bind lawful (.fill (x := .field f) apportions awaits ho) fun _ _ _ awaits' _ =>
      .pure lawful awaits' trivial
  rw [Program.statSlots] at awaits
  unfold stat
  cases node : (p.expr e).node with
  | valDef f =>
    rw [node] at awaits
    dsimp only at awaits ⊢
    by_cases lazy : (p.symbol f).isLazy
    · rw [if_pos lazy] at awaits ⊢
      exact .pure lawful awaits trivial
    · rw [if_neg lazy] at awaits ⊢
      cases body : (p.symbol f).body with
      | some e' =>
        have runs := (lawful ∅).valDef _ e ⟨this, c⟩ f e' ((lawful ∅).body_of_code _ e _ code) node
          body
        exact .bind lawful (.of_carries lawful awaits (carries_askBody (lawful ∅).governs
          awaits.ready (serves_unrefused (Nat.le_refl 9)) (by decide) awaits.has runs))
            fun o t _ awaits' ho => set awaits' ho
      | none =>
        have missing : (Pure.pure .hot : Plan Outcome).Fills p ((unrefused p).only fun _ _ => True)
            this c (.field f :: todo) s fun o m => (sparing p ∅).Fits m 0 o.value :=
          .pure lawful awaits .hot
        exact .bind lawful missing fun o t _ awaits' ho => set awaits' ho
  | methodDef | typeDef =>
    rw [node] at awaits
    exact .pure lawful awaits trivial
  | _ =>
    rw [node] at awaits
    exact .bind lawful (.of_carries lawful awaits (carries_askEval (lawful ∅).governs
      awaits.ready (serves_unrefused (Nat.le_refl 9)) (by decide) awaits.has code))
        fun _ _ _ awaits' _ => .pure lawful awaits' trivial

/-- The statements of a class fill its body slots. -/
theorem fills_body (awaits : s.Awaits p this c (p.bodySlots c)) :
    (body p c this).Fills p ((unrefused p).only fun _ _ => True) this c [] s fun _ _ => True := by
  rw [Program.bodySlots] at awaits
  unfold body
  cases ht : (p.cls c).template with
  | none =>
    rw [ht] at awaits
    exact .pure lawful awaits trivial
  | some T =>
    rw [ht] at awaits
    dsimp only at awaits ⊢
    rw [← List.append_nil (T.body.flatMap p.statSlots)] at awaits
    refine .map (.imp (.mapM lawful (fun _ _ _ _ _ => trivial) awaits fun e he t todo awaits' =>
      fills_stat lawful apportions ht he awaits') fun _ _ _ => trivial)

end

/-! ## Parents -/

section Parents

variable {q : Program} (lawful : ∀ except, (sparing q.finish except).Lawful)
  (apportions : q.finish.Apportions) (coherent : q.Coherent) (hp : q.finish.Disciplined)
  {T : Template} (ht : (q.finish.cls c).template = some T)

include lawful apportions coherent hp ht

theorem fills_prepareListed {parent : Parent} (mem : parent ∈ T.parents)
    (awaits : s.Awaits q.finish this c (.outer parent.type.cls :: todo)) :
    (prepareListed q.finish c this parent).Fills q.finish
      ((unrefused q.finish).only fun _ _ => True) this c todo s
      fun r m => (sparing q.finish ∅).Waits m this r := by
  have args : (sparing q.finish ∅).FitsArgs s.memory parent.args ⟨this, c⟩ :=
    ⟨awaits.has, fun _ harg => ⟨⟨false, .arg ht mem harg, nofun⟩, 0, fun _ _ _ => trivial⟩⟩
  refine .bind lawful (.of_carries lawful awaits (carries_evalArguments (lawful ∅).governs
    awaits.ready (serves_unrefused (Nat.le_refl 9)) (by decide) args)) fun r t _ awaits' hr => ?_
  refine .bind lawful (fills_prepareParent lawful apportions parent.type awaits'
    (hp.paths c T ht parent mem) (fun f hf => ?_) hr.2) fun _ _ _ awaits'' waits =>
      .pure lawful awaits'' waits
  rw [coherent.ctor_of_listed ht mem] at hf
  exact (coherent.ownConstructors _ f hf).2

theorem fills_prepareMixin {superClass : Parent} {listed : List Parent}
    (parents : T.parents = superClass :: listed)
    (awaits : s.Awaits q.finish this c (.outer d :: todo)) :
    (prepareMixin q.finish c this superClass listed d).Fills q.finish
      ((unrefused q.finish).only fun _ _ => True) this c todo s
      fun r m => (sparing q.finish ∅).Waits m this r := by
  unfold prepareMixin
  split
  · next parent hfind =>
    obtain rfl : parent.type.cls = d := by simpa using List.find?_some hfind
    refine fills_prepareListed lawful apportions coherent hp ht ?_ awaits
    rw [parents]
    exact List.mem_cons_of_mem _ (List.mem_of_find?_eq_some hfind)
  · refine fills_prepareParent lawful apportions ⟨.bare, d⟩ awaits
      (fun x hx => absurd hx List.not_mem_nil) (fun f hf => ?_)
      fun arg harg => absurd harg List.not_mem_nil
    exact (coherent.ownConstructors d f hf).2

/-- The template of a class that is no trait records the outers before it calls constructors. -/
theorem fills_initParents (notTrait : (q.finish.cls c).isTrait = false)
    (awaits : s.Awaits q.finish this c ((q.finish.recorded c).map .outer ++ todo)) :
    (initParents q.finish c this T.parents).Fills q.finish
      ((unrefused q.finish).only fun _ _ => True) this c todo s fun _ _ => True := by
  have classes := coherent.parents_of_listed ht
  rw [Program.recorded, ClassDef.superClass, ← classes] at awaits
  cases parents : T.parents with
  | nil =>
    rw [parents] at awaits
    exact .pure lawful awaits trivial
  | cons superClass listed =>
    rw [parents] at awaits
    simp only [List.map_cons, List.head?_cons, notTrait, if_neg Bool.false_ne_true,
      List.cons_append] at awaits
    rw [List.map_eq_flatMap] at awaits
    have first : superClass ∈ T.parents := by
      rw [parents]
      exact List.mem_cons_self
    refine .bind lawful (fills_prepareListed lawful apportions coherent hp ht first awaits)
      fun r t _ awaits' waits => ?_
    have mixed : ((q.finish.mixins c superClass.type.cls).mapM
        (prepareMixin q.finish c this superClass listed)).Fills q.finish
          ((unrefused q.finish).only fun _ _ => True) this c todo t
          fun rs m => ∀ r ∈ rs, (sparing q.finish ∅).Waits m this r :=
      .mapM lawful (fun r m m' ext h => waits_later h ext) awaits' fun d _ u todo awaits =>
        fills_prepareMixin lawful apportions coherent hp ht parents awaits
    refine .bind lawful mixed fun rs u step awaits'' mixins => ?_
    have prepared : ∀ r' ∈ r :: rs, (sparing q.finish ∅).Waits u.memory this r' := by
      intro r' hr'
      rcases List.mem_cons.1 hr' with rfl | hr'
      · exact waits_later waits step.memory.heap
      · exact mixins r' hr'
    refine .bind lawful (.of_carries lawful awaits'' (.errorsOfEach (lawful ∅).governs
      awaits''.ready fun call hcall v step' ready => ?_)) fun _ _ _ awaits₃ _ =>
        .pure lawful awaits₃ trivial
    obtain ⟨r', hr', hsome⟩ := List.mem_filterMap.1 hcall
    obtain ⟨ctor, args⟩ := waits_later (prepared r' hr') step'.memory.heap call hsome
    refine .bind (lawful ∅).governs ready (.ask (lawful ∅).governs ready
      (serves_unrefused (Nat.le_refl 9)) (by simp [Query.kind])
        ⟨⟨0, .ref (awaits''.has.mono step'.memory.heap)⟩, ?_, args⟩ (by simp [Query.kind]))
        fun _ _ _ ready' _ => .pure (lawful ∅).governs ready' trivial
    rintro a ⟨⟩
    exact ctor

end Parents

end Plan

end ObjectInit
