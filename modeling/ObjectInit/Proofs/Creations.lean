import ObjectInit.Proofs.Additions
import ObjectInit.Proofs.Plain

/-!
# The order in which warm objects are numbered

A way of creation is numbered when the first object is created in this way. Its outer instance is
known by then, so a warm object that is the outer instance of another one has a smaller number, and
the outer instances of a warm object come to an end. Only the creation of objects gives out numbers;
all other plans leave this to the questions that they ask.

Main results:

* `Plan.NumbersNothing.ordered`: a plan that numbers nothing itself keeps the order.
* `Query.Ends.ordered`, `Store.Later.ordered`: every question keeps the order.
-/

namespace ObjectInit

/-! ## Heaps in order -/

/-- The value may be the outer instance of something with the number `i`: a warm object has a
    smaller number. -/
inductive Value.NumberedBefore (i : Nat) : Value → Prop where
  | hot : NumberedBefore i .hot
  | cold : NumberedBefore i .cold
  | thisOf (c : ClassId) : NumberedBefore i (.ref (.thisOf c))
  | warm {w : Warm} (h : w.index < i) : NumberedBefore i (.ref (.warm w))

/-- The outer instances of warm objects have smaller numbers. -/
def Heap.Ordered (h : Heap) : Prop :=
  ∀ w creation, h.creation? w = some creation → creation.outer.NumberedBefore w.index

/-- Every smaller number is that of an item. -/
theorem Numbering.exists_item? {κ : Type} [Ord κ] [Std.TransOrd κ] {l : Numbering κ} {i : Nat}
    (h : i < l.size) : ∃ k, l.item? i = some k := by
  rw [← l.mem_items, Std.ExtTreeMap.mem_iff_isSome_getElem?] at h
  exact Option.isSome_iff_exists.1 h

namespace Heap.Ordered

variable {h h' : Heap}

theorem empty : ({} : Heap).Ordered := by
  intro w creation hw
  exact absurd (Numbering.lt_size_of_item? hw) (Nat.not_lt_zero _)

/-- A heap is in order if a later one is. -/
theorem of_extends (ordered : h'.Ordered) (ext : h.Extends h') : h.Ordered :=
  fun w creation hw => ordered w creation (ext.creation w creation hw)

theorem of_creations (ordered : h.Ordered) (same : h'.creations = h.creations) : h'.Ordered := by
  intro w creation hw
  rw [Heap.creation?, same] at hw
  exact ordered w creation hw

/-- A way of creation with a known outer instance gets a number. -/
theorem warmOf (ordered : h.Ordered) {creation : Creation}
    (outer : creation.outer.NumberedBefore h.creations.size) : (h.warmOf creation).2.Ordered := by
  intro w creation' hw
  rcases Numbering.item?_of_add hw with old | ⟨last, rfl⟩
  · exact ordered w creation' old
  · exact last ▸ outer

end Heap.Ordered

variable {p : Program} {n : Nat} {α β γ : Type} {s s' : Store}

/-! ## Plans that number nothing -/

/-- The effect gives out a number. -/
def Effect.numbers : Effect β → Bool
  | .warmOf _ => true
  | _ => false

theorem Effect.creations_of_run {effect : Effect β} {b : β} (h : effect.run.run s = .ok (b, s'))
    (quiet : effect.numbers = false) : s'.heap.creations = s.heap.creations := by
  cases effect with
  | warmOf => cases quiet
  | allocate =>
    obtain ⟨heap, ok, rfl⟩ := run_allocate.1 h
    exact Heap.creations_of_allocate ok
  | setField =>
    obtain ⟨heap, ok, rfl⟩ := run_setField.1 h
    exact Heap.creations_of_setField ok
  | setOuter =>
    obtain ⟨heap, ok, rfl⟩ := run_setOuter.1 h
    exact Heap.creations_of_setOuter ok
  | creationOf =>
    obtain ⟨-, rfl⟩ := run_creationOf.1 h
    rfl
  | _ =>
    cases h
    rfl

/-- The plan itself gives no number to a way of creation. -/
inductive Plan.NumbersNothing : {α : Type} → Plan α → Prop
  | pure {α : Type} (a : α) : NumbersNothing (.pure a)
  | ask {α β : Type} (q : Query β) {next : β → Plan α} (h : ∀ b, NumbersNothing (next b)) :
    NumbersNothing (.ask q next)
  | perform {α β : Type} (effect : Effect β) {next : β → Plan α} (quiet : effect.numbers = false)
    (h : ∀ b, NumbersNothing (next b)) : NumbersNothing (.perform effect next)
  | within {α β : Type} (scope : Scope β) {part : Plan β} {next : β → Plan α}
    (hpart : NumbersNothing part) (h : ∀ b, NumbersNothing (next b)) :
    NumbersNothing (.within scope part next)

namespace Plan

namespace NumbersNothing

theorem bind {x : Plan β} {f : β → Plan α} (hx : x.NumbersNothing)
    (hf : ∀ b, (f b).NumbersNothing) : (x >>= f).NumbersNothing := by
  induction hx with
  | pure b => exact hf b
  | ask q _ ih => exact .ask q fun b => ih b hf
  | perform effect quiet _ ih => exact .perform effect quiet fun b => ih b hf
  | within scope hpart _ _ ih => exact .within scope hpart fun b => ih b hf

theorem ret {x : Plan β} (hx : x.NumbersNothing) (f : β → α) :
    (x >>= fun b => Pure.pure (f b)).NumbersNothing :=
  hx.bind fun b => .pure (f b)

theorem map {x : Plan β} (hx : x.NumbersNothing) (f : β → α) : (f <$> x).NumbersNothing := by
  rw [map_eq_pure_bind]
  exact hx.ret f

theorem asked (q : Query β) : (liftM q : Plan β).NumbersNothing := .ask q fun b => .pure b

theorem look_bind {f : Store → Plan α} (h : ∀ s, (f s).NumbersNothing) :
    ((liftM Effect.look : Plan Store) >>= f).NumbersNothing :=
  .perform .look rfl h

theorem mapM {f : γ → Plan β} (xs : List γ) (hf : ∀ x, (f x).NumbersNothing) :
    (xs.mapM f).NumbersNothing := by
  induction xs with
  | nil => exact .pure []
  | cons x xs ih =>
    rw [List.mapM_cons]
    exact (hf x).bind fun _ => ih.ret _

theorem errorsOfEach {f : γ → Plan (List SafetyError)} (xs : List γ)
    (hf : ∀ x, (f x).NumbersNothing) : (Plan.errorsOfEach xs f).NumbersNothing :=
  (mapM xs hf).map _

/-- A plain plan that does not change the heap numbers nothing. -/
theorem of_plain {x : Plan α} (plain : x.Plain false) : x.NumbersNothing := by
  induction plain with
  | pure a => exact .pure a
  | ask q _ ih => exact .ask q ih
  | perform effect allowed _ ih =>
    refine .perform effect ?_ ih
    cases effect with
    | warmOf => exact absurd (allowed rfl) Bool.false_ne_true
    | _ => rfl
  | within scope _ _ _ ihPart ih => exact .within scope ihPart ih

/-- A plan that numbers nothing keeps the order, if the questions that it asks do. -/
theorem ordered {x : Plan α} (quiet : x.NumbersNothing)
    (hq : ∀ {β : Type} (q : Query β) s b s', q.Ends p n s b s' → s.heap.Ordered → s'.heap.Ordered)
    {a : α} (h : x.Ends p n s a s') (start : s.heap.Ordered) : s'.heap.Ordered := by
  induction quiet generalizing s s' with
  | pure =>
    obtain ⟨-, rfl⟩ := ends_pure.1 h
    exact start
  | ask q _ ih =>
    obtain ⟨b, t, hb, h⟩ := ends_ask_next.1 h
    exact ih b h (hq q s b t hb start)
  | perform effect quiet _ ih =>
    obtain ⟨b, t, hb, h⟩ := ends_perform_next.1 h
    exact ih b h (start.of_creations (Effect.creations_of_run hb quiet))
  | within scope _ _ ihPart ih =>
    obtain ⟨b, t, hpart, h⟩ := ends_within.1 h
    rw [← scope.heap_enter s] at start
    refine ih b h ?_
    rw [scope.heap_leave]
    exact ihPart hpart start

end NumbersNothing

/-! ### Objects -/

theorem numbersNothing_setParams (c : ClassId) (this : Addr) :
    (setParams p c this).NumbersNothing := by
  unfold setParams
  dsimp only
  generalize p.paramFields c = fields
  induction fields with
  | nil => exact .pure _
  | cons field fields ih =>
    exact (NumbersNothing.look_bind fun s => .perform _ rfl .pure).bind fun _ => ih

theorem numbersNothing_prepareParent (c : ClassId) (this : Addr) (type : ClassRef)
    (ctor : Option SymbolId) (args : List ArgValue) (source : Span) :
    (prepareParent p c this type ctor args source).NumbersNothing :=
  (NumbersNothing.asked _).bind fun _ => .perform _ rfl fun _ => .pure _

theorem numbersNothing_prepareListed (c : ClassId) (this : Addr) (parent : Parent) :
    (prepareListed p c this parent).NumbersNothing :=
  (NumbersNothing.of_plain (plain_evalArguments _ parent.args)).bind fun r =>
    (numbersNothing_prepareParent c this parent.type parent.ctor r.2 parent.span).ret _

theorem numbersNothing_prepareMixin (c : ClassId) (this : Addr) (superClass : Parent)
    (listed : List Parent) (mixin : ClassId) :
    (prepareMixin p c this superClass listed mixin).NumbersNothing := by
  unfold prepareMixin
  split
  · exact numbersNothing_prepareListed c this _
  · exact numbersNothing_prepareParent c this _ _ _ _

theorem numbersNothing_initParents (c : ClassId) (this : Addr) (parents : List Parent) :
    (initParents p c this parents).NumbersNothing := by
  cases parents with
  | nil => exact .pure _
  | cons superClass listed =>
    refine (numbersNothing_prepareListed c this superClass).bind fun first => ?_
    refine (NumbersNothing.mapM _ (numbersNothing_prepareMixin c this superClass listed)).bind
      fun mixins => ?_
    exact (NumbersNothing.errorsOfEach _ fun call => (NumbersNothing.asked _).ret _).ret _

theorem numbersNothing_template (c : ClassId) (this : Addr) :
    (template p c this).NumbersNothing := by
  unfold template
  split
  · refine (numbersNothing_setParams c this).bind fun _ => ?_
    split
    · exact (NumbersNothing.asked _).ret _
    · exact (numbersNothing_initParents c this _).bind fun es => (NumbersNothing.asked _).ret _
  · exact .pure _

theorem numbersNothing_stat (c : ClassId) (this : Addr) (e : ExprId) :
    (stat p c this e).NumbersNothing := by
  have set (field : SymbolId) (o : Outcome) : (do
      Effect.setField this field o.value
      return o.errors : Plan (List SafetyError)).NumbersNothing :=
    .perform _ rfl fun _ => .pure _
  unfold stat
  split
  · split
    · exact .pure _
    · split
      · exact (NumbersNothing.asked _).bind (set _)
      · exact set _ .hot
  · exact .pure _
  · exact .pure _
  · exact (NumbersNothing.asked _).ret _

theorem numbersNothing_body (c : ClassId) (this : Addr) : (body p c this).NumbersNothing := by
  unfold body
  split
  · exact .errorsOfEach _ (numbersNothing_stat c this)
  · exact .pure _

theorem numbersNothing_check (c : ClassId) : (check p c).NumbersNothing := by
  have run (e : ExprId) (env : Env) : (do
      let o ← inEnv env (calledFrom (p.cls c).span (Query.eval e ⟨.thisOf c, c⟩ true))
      return o.errors : Plan (List SafetyError)).NumbersNothing :=
    (NumbersNothing.of_plain (plain_evalCalled env _ e _ true)).ret _
  unfold check
  split
  · split
    · refine .look_bind fun s => ?_
      split
      · exact run _ _
      · exact .perform _ rfl fun _ => run _ _
    · exact .pure _
  · exact .pure _

theorem numbersNothing_eval (e : ExprId) (frame : Frame) (final : Bool) :
    (eval p e frame final).NumbersNothing := by
  refine .look_bind fun s => ?_
  split
  · exact .pure _
  · exact .within _ (.of_plain (.calledFrom _ (plain_node e frame))) .pure

/-! ### New objects -/

/-- The outer instance that an object remembers is known. -/
theorem numberedBefore_rememberedOuter {a : Addr} {v : Value}
    (h : (rememberedOuter a).Ends p n s v s') :
    s' = s ∧ v.NumberedBefore s.heap.creations.size := by
  cases a with
  | thisOf c =>
    obtain ⟨rfl, rfl⟩ := ends_pure.1 h
    exact ⟨rfl, .thisOf c⟩
  | warm w =>
    obtain ⟨creation, t, hcreation, rest⟩ := ends_bind.1 h
    obtain ⟨hw, rfl⟩ := Effect.run_creationOf.1 (ends_perform.1 hcreation)
    split at rest
    · obtain ⟨rfl, rfl⟩ := ends_pure.1 rest
      exact ⟨rfl, .cold⟩
    · obtain ⟨rfl, rfl⟩ := ends_pure.1 rest
      exact ⟨rfl, .warm (Numbering.lt_size_of_item? hw)⟩

section New

variable (hq : ∀ {β : Type} (q : Query β) s b s', q.Ends p n s b s' → s.heap.Ordered →
  s'.heap.Ordered)
include hq

/-- An object is created whose outer instance is known. -/
theorem ordered_createWarm {outer : Value} {c : ClassId} {ctor : SymbolId}
    {args : List ArgValue} {source : Span} {o : Outcome}
    (h : (createWarm outer c ctor args source).Ends p n s o s') (start : s.heap.Ordered)
    (known : outer.NumberedBefore s.heap.creations.size) : s'.heap.Ordered := by
  obtain ⟨w, t, hw, h⟩ := ends_bind.1 h
  cases ends_perform.1 hw
  refine NumbersNothing.ordered ?_ hq h (start.warmOf known)
  refine .look_bind fun s => ?_
  split
  · exact .pure _
  · exact .perform _ rfl fun _ => (NumbersNothing.asked _).ret _

theorem ordered_create {outer : Value} {c : ClassId} {ctor : SymbolId} {args : List ArgValue}
    {source : Span} {o : Outcome} (h : (create p outer c ctor args source).Ends p n s o s')
    (start : s.heap.Ordered) : s'.heap.Ordered := by
  cases outer with
  | hot =>
    obtain ⟨checked, t, hchecked, h⟩ := ends_bind.1 h
    have start := NumbersNothing.ordered (.of_plain (.mapM args plain_checkArgument)) hq hchecked
      start
    dsimp only at h
    split at h
    · obtain ⟨o', u, hcreate, h⟩ := ends_bind.1 h
      obtain ⟨-, rfl⟩ := ends_pure.1 h
      exact ordered_createWarm hq hcreate start .hot
    · obtain ⟨-, rfl⟩ := ends_pure.1 h
      exact start
  | ref a =>
    simp only [create] at h
    split at h
    · obtain ⟨v, t, hv, rest⟩ := ends_bind.1 h
      obtain ⟨rfl, known⟩ := numberedBefore_rememberedOuter hv
      obtain ⟨o', u, hcreate, last⟩ := ends_bind.1 rest
      have done := ordered_createWarm hq hcreate start known
      rw [ends_look_bind] at last
      split at last
      · obtain ⟨-, rfl⟩ := ends_pure.1 last
        exact done
      · obtain ⟨-, rfl⟩ := ends_pure.1 last
        exact done
    · exact NumbersNothing.ordered (.ret (.of_plain (plain_promoteArguments args)) _) hq h start
  | cold => exact NumbersNothing.ordered (.of_plain (.fail _ source)) hq h start
  | closure => exact NumbersNothing.ordered (.of_plain ((Plain.report _ source).ret _)) hq h start
  | oneOf vs =>
    exact NumbersNothing.ordered (.of_plain (.joinEach vs fun v => .asked _)) hq h start

end New

end Plan

/-! ## Questions -/

/-- Every question keeps the order. -/
theorem Query.Ends.ordered {q : Query β} {b : β} (h : q.Ends p n s b s')
    (start : s.heap.Ordered) : s'.heap.Ordered := by
  induction n generalizing β s s' with
  | zero => exact absurd h Query.ends_zero
  | succ n ih =>
    rw [Query.ends_succ] at h
    have hq {β : Type} (q : Query β) s b s' (h : q.Ends p n s b s') := ih h
    by_cases quiet : q.evaluation = [] ∧ q.writes = false
    · have plain := q.plain_plan (p := p) quiet.1
      rw [quiet.2] at plain
      exact (Plan.NumbersNothing.of_plain plain).ordered hq h start
    cases q with
    | create outer c ctor args source => exact Plan.ordered_create hq h start
    | eval e frame final => exact (Plan.numbersNothing_eval e frame final).ordered hq h start
    | template c this => exact (Plan.numbersNothing_template c this).ordered hq h start
    | body c this => exact (Plan.numbersNothing_body c this).ordered hq h start
    | check c => exact (Plan.numbersNothing_check c).ordered hq h start
    | _ => exact absurd ⟨rfl, rfl⟩ quiet

theorem Store.Later.ordered (h : s.Later p s') (start : s.heap.Ordered) : s'.heap.Ordered := by
  induction h with
  | refl => exact start
  | asked _ context hq ih =>
    obtain ⟨n, hq⟩ := hq
    exact hq.ordered ih

end ObjectInit
