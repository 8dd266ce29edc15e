import ObjectInit.Proofs.Bodies
import ObjectInit.Proofs.Delegation

/-!
# The order of construction

The class bodies of an object are carried out in the order opposite to the linearization of its
class. No other code gets at them: on the way, the templates of the object are begun only by the
templates of its subclasses (`Regime.besides`). The template of a class records the outers of its
parents, then it lets the super class and the traits that are mixed in run their bodies, and last it
runs its own.

Main results:

* `Regime.besides_kept`: questions about other things begin no template of the object.
* `Query.bodyEvents_of_check`: in the check of a class, the bodies of its bases are carried out one
  after the other, the base-most first, when the outers of all bases are recorded.
-/

namespace ObjectInit

/-! ## What does not construct an object -/

namespace Regime

variable {p : Program} {c : ClassId} {X Y : Set ClassId} {m m' : Memory} {s t : Store}

/-- Templates that were not begun on the object are not begun, apart from those of some classes. -/
def Rests (p : Program) (this : Addr) (X : Set ClassId) (m m' : Memory) : Prop :=
  ∀ e d, p.IsTemplateOf e d → d ∉ X → m.cache.find? this e = none → m'.cache.find? this e = none

/-- Constructors are called on other objects only. -/
def Others (this : Addr) (a : Addr) (_ : ClassId) : Prop := a ≠ this

/-- Constructors are called on other objects, and only the templates of some classes are begun on
    this one. -/
def besides (p : Program) (this : Addr) (X : Set ClassId) : Regime p :=
  disciplined p (Others this) (Rests p this X) fun _ => True

/-- On the object itself only code is evaluated. -/
theorem not_template_of_bodyRuns (hp : p.Disciplined) {e : ExprId} {frame : Frame} {d : ClassId}
    (h : BodyRuns p (Others frame.receiver) e frame) : ¬p.IsTemplateOf e d := by
  rintro ⟨-, x, hx, body, node⟩
  rcases h with ⟨b, code, -⟩ | ⟨-, other⟩
  · exact hp.templates b e frame.cls d code node
  · exact other rfl

theorem besides_tracks (hp : p.Disciplined) {this : Addr} :
    Tracks p (Others this) (Rests p this X) fun _ => True where
  refl _ _ _ _ _ miss := miss
  trans m m' m'' h h' e d template hd miss := h' e d template hd (h e d template hd miss)
  enter m e frame _ body _ := by
    refine ⟨fun g d template _ hg => ?_, trivial⟩
    rw [Memory.find?_enter, if_neg]
    · exact hg
    · rintro ⟨rfl, rfl⟩
      exact not_template_of_bodyRuns hp body template
  leave m m' e frame final v _ body _ miss ext rel _ := by
    refine ⟨fun g d template hd hg => ?_, trivial⟩
    have other : ¬(this = frame.receiver ∧ g = e) := by
      rintro ⟨rfl, rfl⟩
      exact not_template_of_bodyRuns hp body template
    rw [Memory.find?_leave_of_ne other]
    refine rel g d template hd ?_
    rw [Memory.find?_enter, if_neg other, hg]
  warmOf _ _ _ := ⟨fun _ _ _ _ miss => miss, trivial⟩
  allocate _ _ _ _ _ _ _ := ⟨fun _ _ _ _ miss => miss, trivial⟩

theorem besides_lawful (hp : p.Disciplined) (own : p.OwnConstructors) :
    (besides p (.thisOf c) X).Lawful :=
  disciplined_lawful hp own (fun _ _ _ _ _ _ _ _ _ _ h => by cases h) (besides_tracks hp)

theorem besides_stores {this a : Addr} : (besides p this X).Stores a :=
  fun _ _ _ _ inv _ hv ok =>
    ⟨fun _ _ _ _ miss => miss, inv.1.setField (fits_disciplined.1 hv) ok, trivial⟩

theorem besides_stats {m : Memory} {this a : Addr} {d : ClassId} :
    (besides p this X).RunsStats m d a :=
  fun _ ht _ he => ⟨false, .stat ht he, nofun⟩

theorem besides_builds (hp : p.Disciplined) {this a : Addr} (other : a ≠ this) {d : ClassId} :
    (besides p this X).Builds d a where
  field := besides_stores
  outer _ _ _ _ _ _ _ _ _ inv _ hv ok :=
    ⟨fun _ _ _ _ miss => miss, inv.1.setOuter (fits_disciplined.1 hv) ok, trivial⟩
  stat _ _ := besides_stats
  arg _ _ ht _ hparent ha := ⟨ha, fun _ harg => ⟨⟨false, .arg ht hparent harg, nofun⟩,
    ⟨0, fun _ _ _ => trivial⟩⟩⟩
  path _ ht _ hparent := hp.paths d _ ht _ hparent
  listed _ _ _ _ _ _ _ := other
  mixin _ _ _ _ _ _ _ _ _ := other

/-- The contract under which no template is begun on the object. -/
def resting (p : Program) (this : Addr) : Contract :=
  (besides p this ∅).building fun _ a => a ≠ this

/-- Questions about other things begin no template of the object. -/
theorem besides_kept (hp : p.Disciplined) (own : p.OwnConstructors) :
    (resting p (.thisOf c)).Kept p Query.Free := by
  have lawful := besides_lawful (c := c) (X := ∅) hp own
  have nests {β : Type} (q : Query β) (s : Store) (general : q.kind < 9)
      (ready : (besides p (.thisOf c) ∅).Ready s)
      (admits : (besides p (.thisOf c) ∅).Admits s.memory q) :
      (besides p (.thisOf c) ∅).Nests ((resting p (.thisOf c)).only (Query.Free q s)) s q := by
    refine lawful.nests general ?_
    cases q with
    | eval e frame final =>
      refine fun d node => carries_eval_template lawful.governs ready admits node
        fun miss t entered _ ready' => ?_
      have known : (besides p (.thisOf c) ∅).addr t.memory frame.receiver := by
        rw [entered]
        exact admits.1
      have other : frame.receiver ≠ .thisOf c := by
        rcases admits.2.1 with ⟨b, code, -⟩ | ⟨-, other⟩
        · exact absurd node (hp.templates b e frame.cls d code)
        · exact other
      exact (carries_askTemplate ready' known other trivial).imp fun _ _ _ ho => ho.of_zero lawful
    | _ => trivial
  have builds (d : ClassId) (a : Addr) (other : a ≠ .thisOf c) :
      (besides p (.thisOf c) ∅).Builds d a := besides_builds hp other
  intro β q s pre
  exact lawful.building_kept builds nests (fun _ _ _ _ _ _ _ => trivial) q s pre

theorem never_bodies {s : Store} : ¬(resting p (.thisOf c)).pre (.body d (.thisOf c)) s :=
  fun h => h.2.2.1 rfl

/-- What may be asked does not depend on the classes whose templates are begun. -/
theorem Ready.keep {this : Addr} (ready : (besides p this Y).Ready s)
    (step : (besides p this X).Step s t) (env : t.env = s.env) : (besides p this Y).Ready t := by
  refine ⟨step.inv, fun x v hv => ?_⟩
  rw [env] at hv
  exact fits_disciplined.2 (steady_calling step.memory.heap (fits_disciplined.1 (ready.env x v hv)))

theorem Ready.rests {this : Addr} (ready : (besides p this Y).Ready s) :
    (besides p this X).Step s s :=
  ⟨.refl _, fun _ h => h, fun _ _ _ _ h => h, ready.inv⟩

theorem Step.andThen {this : Addr} {u : Store} (step : (besides p this X).Step s t)
    (step' : (besides p this X).Step t u) : (besides p this X).Step s u :=
  ⟨step.memory.trans step'.memory, fun v hv => step'.trusted v (step.trusted v hv),
    fun e d template hd miss => step'.rel e d template hd (step.rel e d template hd miss),
    step'.inv⟩

theorem Step.weaken {this : Addr} (step : (besides p this X).Step s t) (sub : X ⊆ Y) :
    (besides p this Y).Step s t :=
  ⟨step.memory, step.trusted, fun e d template hd => step.rel e d template fun hx => hd (sub hx),
    step.inv⟩

end Regime

open Regime

/-! ## What constructs the object -/

/-- While the plan is carried out, only the templates of some classes are begun on the object under
    construction, and it ends as wanted after class bodies were started and finished. -/
def Plan.Builds {α : Type} (p : Program) (c : ClassId) (n : Nat) (X : Set ClassId) (x : Plan α)
    (s : Store) (ok : α → Memory → List BodyEvent → Prop) : Prop :=
  x.Passes p n (fun r t => r.bodyEvents p (.thisOf c) n t) s fun a t l =>
    (besides p (.thisOf c) X).Step s t ∧ t.env = s.env ∧ ok a t.memory l

/-- Questions may be asked while the object is under construction. -/
structure Store.Builds (p : Program) (c : ClassId) (s : Store) : Prop where
  ready : (besides p (.thisOf c) ∅).Ready s
  has : s.heap.Has (.thisOf c)

variable {p : Program} {c d : ClassId} {n : Nat} {X Y : Set ClassId} {s t : Store} {α β : Type}

theorem Store.Builds.step (builds : s.Builds p c) (step : (besides p (.thisOf c) X).Step s t)
    (env : t.env = s.env) : t.Builds p c :=
  ⟨builds.ready.keep step env, builds.has.mono step.memory.heap⟩

namespace Plan.Builds

variable {ok : α → Memory → List BodyEvent → Prop} {okb : β → Memory → List BodyEvent → Prop}

theorem imp {x : Plan α} {ok' : α → Memory → List BodyEvent → Prop} (h : x.Builds p c n X s ok)
    (sub : X ⊆ Y) (hok : ∀ a m l, s.memory.Extends m → ok a m l → ok' a m l) :
    x.Builds p c n Y s ok' :=
  Passes.imp h fun a t l ha => ⟨ha.1.weaken sub, ha.2.1, hok a t.memory l ha.1.memory ha.2.2⟩

theorem pure (builds : s.Builds p c) {a : α} (h : ok a s.memory []) :
    (Pure.pure a : Plan α).Builds p c n X s ok :=
  passes_pure ⟨builds.ready.rests, rfl, h⟩

/-- One plan after the other. -/
theorem andThen {Z : Set ClassId} (builds : s.Builds p c) {x : Plan β} {f : β → Plan α}
    (hX : X ⊆ Z) (hY : Y ⊆ Z) (hx : x.Builds p c n X s okb)
    (hf : ∀ b t l, (besides p (.thisOf c) X).Step s t → t.Builds p c → okb b t.memory l →
      (f b).Builds p c n Y t fun a m l' => ok a m (l ++ l')) : (x >>= f).Builds p c n Z s ok := by
  refine passes_bind (Passes.imp hx fun b t l ⟨step, env, hb⟩ => ?_)
  exact Passes.imp (hf b t l step (builds.step step env) hb) fun a u l' ⟨step', env', ha⟩ =>
    ⟨(step.weaken hX).andThen (step'.weaken hY), env'.trans env, ha⟩

theorem bind (builds : s.Builds p c) {x : Plan β} {f : β → Plan α}
    (hx : x.Builds p c n X s okb)
    (hf : ∀ b t l, (besides p (.thisOf c) X).Step s t → t.Builds p c → okb b t.memory l →
      (f b).Builds p c n X t fun a m l' => ok a m (l ++ l')) : (x >>= f).Builds p c n X s ok :=
  andThen builds (Set.Subset.refl X) (Set.Subset.refl X) hx hf

theorem inEnv {env : Env} {part : Plan α} (h : part.Builds p c n X { s with env := env } ok) :
    (Plan.inEnv env part).Builds p c n X s ok :=
  passes_inEnv <| Passes.imp h fun _ _ _ ha =>
    ⟨⟨ha.1.memory, ha.1.trusted, ha.1.rel, ha.1.inv⟩, rfl, ha.2.2⟩

theorem calledFrom {source : Span} {part : Plan α}
    (h : part.Builds p c n X { s with trace := s.trace.add source } ok) :
    (Plan.calledFrom source part).Builds p c n X s ok :=
  passes_calledFrom <| Passes.imp h fun _ _ _ ha =>
    ⟨⟨ha.1.memory, ha.1.trusted, ha.1.rel, ha.1.inv⟩, ha.2.1, ha.2.2⟩

/-- What happens on the way of a question happens in its plan, unless it is about a class body. -/
theorem ask {q : Query α} (before : ∀ s, q.eventsBefore (.thisOf c) s = [])
    (after : ∀ n s, q.eventsAfter p n (.thisOf c) s = [])
    (h : ∀ n, (q.plan p).Builds p c n X s ok) : (liftM q : Plan α).Builds p c n X s ok := by
  refine passes_ask fun a t ends => ?_
  cases n with
  | zero => exact absurd ends Query.ends_zero
  | succ n =>
    rw [Query.bodyEvents, before, after, List.nil_append, List.append_nil]
    exact h n a t (Query.ends_succ.1 ends)

/-- Parts of a plan that nothing happens in. -/
theorem of_carries (hp : p.Disciplined) (own : p.OwnConstructors) {x : Plan α}
    {allowed : {β : Type} → Query β → Store → Prop} {okm : α → Memory → Prop}
    (h : (besides p (.thisOf c) ∅).Carries ((resting p (.thisOf c)).only allowed) x s okm) :
    x.Builds p c n X s fun a m l => okm a m ∧ l = [] :=
  (Contract.Kept.passes (besides_kept hp own) (fun _ _ => never_bodies) h).imp
    fun _ _ _ ⟨⟨step, env, ha⟩, hl⟩ => ⟨step.weaken (Set.empty_subset X), env, ha, hl⟩

/-- Plans for the elements of a list, in which nothing happens. -/
theorem mapM {γ : Type} (builds : s.Builds p c) {xs : List γ} {f : γ → Plan β}
    {okr : γ → β → Memory → Prop} (kept : ∀ x b m m', m.Extends m' → okr x b m → okr x b m')
    (hf : ∀ x ∈ xs, ∀ t, (besides p (.thisOf c) X).Step s t → t.Builds p c →
      (f x).Builds p c n X t fun b m l => okr x b m ∧ l = []) :
    (xs.mapM f).Builds p c n X s fun bs m l =>
      List.Forall₂ (fun x b => okr x b m) xs bs ∧ l = [] := by
  induction xs generalizing s with
  | nil =>
    rw [List.mapM_nil]
    exact pure builds ⟨.nil, rfl⟩
  | cons x xs ih =>
    rw [List.mapM_cons]
    refine bind builds (hf x List.mem_cons_self s builds.ready.rests builds)
      fun b t l step builds' hb => ?_
    obtain ⟨hb, rfl⟩ := hb
    refine bind builds' (ih builds' fun y hy u step' =>
      hf y (List.mem_cons_of_mem x hy) u (step.andThen step')) fun bs u l step' builds'' hbs => ?_
    obtain ⟨hbs, rfl⟩ := hbs
    exact pure builds'' ⟨.cons (kept x b _ _ step'.memory hb) hbs, rfl⟩

end Plan.Builds

/-! ## Parents -/

/-- The outer of a parent is recorded, and its constructor waits to be called if it has source. -/
def Program.Prepares (p : Program) (c x : ClassId) (r : List SafetyError × Option ParentCall)
    (m : Memory) : Prop :=
  (∃ source, r.2 = p.callOf x source) ∧ (m.heap.outer? (.thisOf c) x).isSome

namespace Plan

section

variable (hp : p.Disciplined) (own : p.OwnConstructors) (builds : s.Builds p c)

include builds in
theorem builds_setOuter {x : ClassId} {v : Value}
    (hv : (besides p (.thisOf c) ∅).Fits s.memory 0 v) :
    (liftM (Effect.setOuter (.thisOf c) x v) : Plan Unit).Builds p c n X s fun _ m l =>
      (m.heap.outer? (.thisOf c) x).isSome ∧ l = [] := by
  refine passes_perform fun a t run => ?_
  obtain ⟨h, ok, rfl⟩ := Effect.run_setOuter.1 run
  refine ⟨⟨⟨.of_setOuter ok, fun _ _ _ h => h⟩, fun _ h => h, fun _ _ _ _ miss => miss,
    builds.ready.inv.1.setOuter (fits_disciplined.1 hv) ok, trivial⟩, rfl, ?_, rfl⟩
  change (h.outer? _ _).isSome
  rw [Heap.outer?_of_setOuter ok, if_pos ⟨rfl, rfl⟩]
  rfl

include hp own builds

theorem builds_setParams :
    (setParams p d (.thisOf c)).Builds p c n X s fun _ _ l => l = [] := by
  have lawful := besides_lawful (c := c) (X := ∅) hp own
  have carried : (besides p (.thisOf c) ∅).Carries
      ((resting p (.thisOf c)).only (Query.Free (.check c) s)) (setParams p d (.thisOf c)) s
      fun _ m => p.HoldsParams m.heap d (.thisOf c) :=
    besides_stores.carries_setParams lawful.governs (fun _ => trivial) builds.ready builds.has
  exact (Builds.of_carries hp own carried).imp (Set.Subset.refl X) fun _ _ _ _ h => h.2

theorem builds_prepareParent {type : ClassRef} {ctor : Option SymbolId} (source : Span)
    (bare : type.path = .bare) (hctor : ctor = (p.cls type.cls).primaryConstructor) :
    (prepareParent p d (.thisOf c) type ctor [] source).Builds p c n X s fun r m l =>
      p.Prepares c type.cls r m ∧ l = [] := by
  have lawful := besides_lawful (c := c) (X := ∅) hp own
  have outer : (besides p (.thisOf c) ∅).Carries
      ((resting p (.thisOf c)).only (Query.Free (.check c) s))
      (liftM (Query.outerInstance type ⟨.thisOf c, d⟩ source)) s
      fun o m => (besides p (.thisOf c) ∅).Fits m 0 o.value := by
    refine .ask (k := 9) lawful.governs builds.ready (serves_building (Nat.le_refl 9)
      fun _ _ _ _ => trivial) (by simp [Query.kind]) ⟨builds.has, fun x hx => ?_⟩
      (by simp [Query.kind])
    rw [bare] at hx
    cases hx
  refine .bind builds (.of_carries hp own outer) fun o t l step builds' ho => ?_
  obtain ⟨ho, rfl⟩ := ho
  refine .bind builds' (builds_setOuter builds' ho) fun _ u l step' builds'' recorded => ?_
  obtain ⟨recorded, rfl⟩ := recorded
  refine .pure builds'' ⟨⟨⟨source, ?_⟩, recorded⟩, rfl⟩
  rw [Program.callOf, hctor]
  split <;> rfl

theorem builds_prepareListed {parent : Parent} (bare : parent.type.path = .bare)
    (noArgs : parent.args = [])
    (hctor : parent.ctor = (p.cls parent.type.cls).primaryConstructor) :
    (prepareListed p d (.thisOf c) parent).Builds p c n X s fun r m l =>
      p.Prepares c parent.type.cls r m ∧ l = [] := by
  have evaluated : evalArguments p ⟨.thisOf c, d⟩ parent.args = Pure.pure ([], []) := by
    rw [noArgs]
    rfl
  rw [prepareListed, evaluated, pure_bind]
  refine .bind builds (builds_prepareParent hp own builds parent.span bare hctor)
    fun r t l step builds' hr => .pure builds' ?_
  obtain ⟨⟨⟨source, hr⟩, recorded⟩, rfl⟩ := hr
  exact ⟨⟨⟨source, hr⟩, recorded⟩, rfl⟩

theorem builds_prepareMixin {superClass : Parent} {listed : List Parent} {x : ClassId}
    (plain : ∀ parent ∈ listed, parent.type.path = .bare ∧ parent.args = [])
    (hctors : ∀ parent ∈ listed, parent.ctor = (p.cls parent.type.cls).primaryConstructor) :
    (prepareMixin p d (.thisOf c) superClass listed x).Builds p c n X s fun r m l =>
      p.Prepares c x r m ∧ l = [] := by
  unfold prepareMixin
  split
  · next parent hfind =>
    have found := List.find?_some hfind
    obtain rfl : parent.type.cls = x := by simpa using found
    have mem := List.mem_of_find?_eq_some hfind
    exact builds_prepareListed hp own builds (plain parent mem).1 (plain parent mem).2
      (hctors parent mem)
  · exact builds_prepareParent hp own builds superClass.span rfl rfl

end

end Plan

/-! ## Templates -/

/-- Class bodies that are carried out one after the other. -/
def bodySteps (cs : List ClassId) : List (BodyStep × ClassId) :=
  cs.flatMap fun c => [(.started, c), (.finished, c)]

theorem bodySteps_append (cs ds : List ClassId) :
    bodySteps (cs ++ ds) = bodySteps cs ++ bodySteps ds :=
  List.flatMap_append

/-- The classes with source. -/
def Program.sources (p : Program) (xs : List ClassId) : List ClassId :=
  xs.filter fun x => (p.cls x).hasSource

theorem Program.sources_append (xs ys : List ClassId) :
    p.sources (xs ++ ys) = p.sources xs ++ p.sources ys :=
  List.filter_append ..

theorem Program.sources_of_source {x : ClassId} (h : (p.cls x).hasSource = true) :
    p.sources [x] = [x] :=
  List.filter_cons_of_pos h

theorem Program.sources_of_not_source {x : ClassId} (h : (p.cls x).hasSource = false) :
    p.sources [x] = [] :=
  List.filter_cons_of_neg (by rw [h]; exact Bool.false_ne_true)

def BodyEvent.stage (e : BodyEvent) : BodyStep × ClassId := (e.step, e.cls)

theorem Program.Disciplined.not_qualifier (hp : p.Disciplined) {e : ExprId} {x : ClassId}
    (template : p.IsTemplateOf e x) : ¬p.IsQualifier e := by
  rintro ⟨b, e', d, f, code, args, node, -⟩
  obtain ⟨-, _, -, -, node'⟩ := template
  refine hp.templates b e d x (code.part ?_) node'
  rw [node]
  exact List.mem_append_left _ (List.mem_singleton_self e)

namespace Plan

variable {x : ClassId} {e : ExprId} (ok : Heap → List BodyEvent → Prop)

section

variable (hp : p.Disciplined) (builds : s.Builds p c) (template : p.IsTemplateOf e x)
  (miss : s.cache.find? (.thisOf c) e = none)

include hp builds template miss

/-- The evaluation of a template begins this template. -/
theorem builds_evaluation {part : Plan Outcome}
    (run : ∀ t : Store, t.memory = s.memory.enter (.thisOf c) e → t.Builds p c →
      part.Builds p c n Y t fun o m l => o.value = .ref (.thisOf c) ∧ ok m.heap l) :
    (Plan.within (.evaluation (.thisOf c) e true) part .pure).Builds p c n (insert x Y) s
      fun _ m l => ok m.heap l := by
  have entered : (Scope.enter (.evaluation (.thisOf c) e true) s).Builds p c :=
    ⟨⟨⟨builds.ready.inv.1.enter, trivial⟩, fun y v hv => fits_disciplined.2
      (steady_calling (.refl s.heap) (fits_disciplined.1 (builds.ready.env y v hv)))⟩, builds.has⟩
  refine passes_within (Passes.imp (run _ rfl entered) fun o t l ⟨step, env, value, hok⟩ => ?_)
  refine passes_pure ⟨⟨?_, step.trusted, fun g d hg hd hmiss => ?_, ?_, trivial⟩, env, ?_⟩
  · exact Memory.extends_leave (m := s.memory) miss step.memory true o.value
  · rw [Set.mem_insert_iff, not_or] at hd
    have other : ¬(Addr.thisOf c = .thisOf c ∧ g = e) := by
      rintro ⟨-, rfl⟩
      exact hd.1 (hg.cls_unique template)
    have inside : (s.memory.enter (.thisOf c) e).cache.find? (.thisOf c) g = none := by
      rw [Memory.find?_enter, if_neg other]
      exact hmiss
    change (t.memory.leave (.thisOf c) e true o.value).cache.find? (.thisOf c) g = none
    rw [Memory.find?_leave_of_ne other]
    exact step.rel g d hg hd.2 inside
  · have fits : (calling p (Others (.thisOf c))).Fits t.memory 0 o.value := by
      rw [value]
      exact .ref (builds.has.mono step.memory.heap)
    have left : Called p (Others (.thisOf c)) (t.memory.leave (.thisOf c) e true o.value) :=
      step.inv.1.leave fits fun hq => absurd hq (hp.not_qualifier template)
    exact left
  · rw [List.append_nil]
    exact hok

/-- A template that was not begun runs. -/
theorem builds_eval
    (run : ∀ n (t : Store), t.memory = s.memory.enter (.thisOf c) e → t.Builds p c →
      (Plan.template p x (.thisOf c)).Builds p c n Y t
        fun o m l => o.value = .ref (.thisOf c) ∧ ok m.heap l) :
    (liftM (Query.eval e ⟨.thisOf c, x⟩ true) : Plan Outcome).Builds p c n (insert x Y) s
      fun _ m l => ok m.heap l := by
  refine .ask (fun _ => rfl) (fun _ _ => rfl) fun n => ?_
  rw [Query.plan, Plan.eval]
  refine passes_look_bind ?_
  rw [miss]
  refine builds_evaluation ok hp builds template miss fun t ht builds' => .calledFrom ?_
  obtain ⟨-, _, -, -, node⟩ := template
  unfold Plan.node
  rw [node]
  refine .ask (fun _ => rfl) (fun _ _ => rfl) fun n => ?_
  exact run n _ ht ⟨builds'.ready.inTrace _, builds'.has⟩

/-- The template of a class runs when the constructor is called. -/
theorem builds_construct {ctor : SymbolId} (hctor : (p.cls x).primaryConstructor = some ctor)
    (primary : (p.symbol ctor).isPrimaryConstructor = true) (own : p.OwnConstructors)
    {source : Span}
    (run : ∀ n (t : Store), t.memory = s.memory.enter (.thisOf c) e → t.Builds p c →
      (Plan.template p x (.thisOf c)).Builds p c n Y t
        fun o m l => o.value = .ref (.thisOf c) ∧ ok m.heap l) :
    (liftM (Query.construct (.ref (.thisOf c)) ctor [] source) : Plan Outcome).Builds p c n
      (insert x Y) s fun _ m l => ok m.heap l := by
  have ⟨_, ctor', hctor', body, _⟩ := template
  rw [hctor] at hctor'
  cases hctor'
  refine .ask (fun _ => rfl) (fun _ _ => rfl) fun n => ?_
  have called : callTarget p (.thisOf c) ctor [] source = calledFrom source (do
      let o ← inEnv (.ofList (widenedBindings (p.symbol ctor).params []))
        (calledFrom (p.cls x).span (Query.eval e ⟨.thisOf c, x⟩ true))
      return ⟨.ref (.thisOf c), o.errors⟩) := by
    rw [callTarget, if_pos (by rw [Symbol.hasSource, body]; rfl), runMember]
    simp only [body, primary, if_true, (own x ctor hctor).2]
  rw [Query.plan, construct, called]
  refine .calledFrom ?_
  have traced : { s with trace := s.trace.add source }.Builds p c :=
    ⟨builds.ready.inTrace _, builds.has⟩
  refine .bind traced (.inEnv (.calledFrom (builds_eval ok hp ?_ template miss run)))
    fun o t l _ builds' ho => .pure builds' ?_
  · exact ⟨(builds.ready.inEnv (.ofList fits_widenedBindings)).inTrace _, builds.has⟩
  · rw [List.append_nil]
    exact ho

end

section

variable (hp : p.Disciplined) (own : p.OwnConstructors) (builds : s.Builds p c)

include hp own builds

/-- The statements of a class run from the start to the end, and nothing else happens. -/
theorem builds_body : (liftM (Query.body x (.thisOf c)) : Plan (List SafetyError)).Builds p c n ∅ s
    fun _ _ l => l.map BodyEvent.stage = bodySteps [x] := by
  have lawful := besides_lawful (c := c) (X := ∅) hp own
  refine passes_ask fun es t ends => ?_
  cases n with
  | zero => exact absurd ends Query.ends_zero
  | succ n =>
    have quiet : (Plan.body p x (.thisOf c)).Builds p c n ∅ s fun _ _ l => True ∧ l = [] :=
      .of_carries hp own <| besides_stores.carries_body
        (C := (resting p (.thisOf c)).only (Query.Free (.check c) s)) besides_stats lawful.governs
        (fun _ => trivial) builds.ready
        (serves_building (k := 9) (Nat.le_refl 9) fun _ _ _ _ => trivial) (by decide) builds.has
    obtain ⟨step, env, -, nothing⟩ := quiet es t (Query.ends_succ.1 ends)
    refine ⟨step, env, ?_⟩
    have finished : (Query.body x (.thisOf c)).eventsAfter p (n + 1) (.thisOf c) s =
        [⟨.finished, x, t.heap⟩] := by
      rw [Query.Ends] at ends
      simp only [Query.eventsAfter, ends, if_true]
    rw [Query.bodyEvents, finished, Query.plan, nothing]
    simp only [Query.eventsBefore, if_true]
    rfl

/-- A trait leaves its parents to the class that it is mixed into. -/
theorem builds_traitTemplate (source : (p.cls x).hasSource = true)
    (trait : (p.cls x).isTrait = true) :
    (Plan.template p x (.thisOf c)).Builds p c n ∅ s fun o _ l =>
      o.value = .ref (.thisOf c) ∧ l.map BodyEvent.stage = bodySteps [x] := by
  obtain ⟨T, hT⟩ := Option.isSome_iff_exists.1 source
  rw [template_of_source hT, if_pos trait]
  refine .bind builds (builds_setParams hp own builds) fun _ t l _ builds' hl => ?_
  subst hl
  have none : (Pure.pure [] : Plan (List SafetyError)).Builds p c n ∅ t fun _ _ l => l = [] :=
    .pure builds' rfl
  refine .bind builds' none fun _ _ l _ builds' hl => ?_
  subst hl
  refine .bind builds' (builds_body hp own builds') fun es u l _ builds'' hl => ?_
  refine .pure builds'' ⟨rfl, ?_⟩
  rw [List.append_nil]
  exact hl

end

/-- Calls the constructors of the parents that wait. -/
def callParents (this : Addr) (rs : List (List SafetyError × Option ParentCall)) :
    Plan (List SafetyError) :=
  errorsOfEach (rs.filterMap (·.2)) fun call => do
    return (← Query.construct (.ref this) call.ctor call.args call.source).errors

/-- The first parent is constructed if it has source, then the others are. -/
theorem builds_callParents_cons {Z : Set ClassId} {r : List SafetyError × Option ParentCall}
    {rs : List (List SafetyError × Option ParentCall)} {source : Span}
    (first : Memory → List BodyEvent → Prop) {all : Memory → List BodyEvent → Prop}
    (builds : s.Builds p c)
    (hcall : r.2 = p.callOf x source) (hx : (p.cls x).hasSource = true → ∃ e, p.IsTemplateOf e x)
    (hX : X ⊆ Z) (hY : Y ⊆ Z)
    (constructed : ∀ e ctor, p.IsTemplateOf e x → (p.cls x).primaryConstructor = some ctor →
      (liftM (Query.construct (.ref (.thisOf c)) ctor [] source) : Plan Outcome).Builds p c n X s
        fun _ m l => first m l)
    (skipped : (p.cls x).hasSource = false → first s.memory [])
    (rest : ∀ t l, (besides p (.thisOf c) X).Step s t → t.Builds p c → first t.memory l →
      (callParents (.thisOf c) rs).Builds p c n Y t fun _ m l' => all m (l ++ l')) :
    (callParents (.thisOf c) (r :: rs)).Builds p c n Z s fun _ m l => all m l := by
  rw [Program.callOf] at hcall
  by_cases hsource : (p.cls x).hasSource = true
  · obtain ⟨e, template⟩ := hx hsource
    have ⟨_, ctor, hctor, _, _⟩ := template
    rw [if_pos hsource, hctor, Option.map_some] at hcall
    rw [callParents, List.filterMap_cons_some hcall, errorsOfEach_cons]
    have called : (do
        return (← Query.construct (.ref (.thisOf c)) ctor [] source).errors :
          Plan (List SafetyError)).Builds p c n X s fun _ m l => first m l := by
      refine .bind builds (constructed e ctor template hctor) fun o t l _ builds' hl =>
        .pure builds' ?_
      rw [List.append_nil]
      exact hl
    refine .andThen builds hX hY called fun es t l step builds' hl => ?_
    refine .bind builds' (rest t l step builds' hl) fun es' u l' _ builds'' hl' => .pure builds'' ?_
    rw [List.append_nil]
    exact hl'
  · rw [Bool.not_eq_true] at hsource
    rw [if_neg (by rw [hsource]; exact Bool.false_ne_true)] at hcall
    rw [callParents, List.filterMap_cons_none hcall]
    exact (rest s [] builds.ready.rests builds (skipped hsource)).imp hY fun _ _ _ _ h => h

/-- The traits that are mixed in run their bodies in their order. -/
theorem builds_mixins (hp : p.Disciplined) (own : p.OwnConstructors)
    (primary : ∀ x ctor, (p.cls x).primaryConstructor = some ctor →
      (p.symbol ctor).isPrimaryConstructor = true)
    (builds : s.Builds p c) {xs : List ClassId}
    {rs : List (List SafetyError × Option ParentCall)} {m : Memory}
    (prepared : List.Forall₂ (fun x r => p.Prepares c x r m) xs rs) (nodup : xs.Nodup)
    (traits : ∀ x ∈ xs, (p.cls x).hasSource = true →
      (p.cls x).isTrait = true ∧ ∃ e, p.IsTemplateOf e x)
    (fresh : ∀ x ∈ xs, ∀ e, p.IsTemplateOf e x → s.cache.find? (.thisOf c) e = none) :
    (callParents (.thisOf c) rs).Builds p c n {x | x ∈ xs} s fun _ _ l =>
      l.map BodyEvent.stage = bodySteps (p.sources xs) := by
  induction prepared generalizing s with
  | nil => exact .pure builds rfl
  | @cons x r xs rs hr _ ih =>
    obtain ⟨⟨source, hcall⟩, -⟩ := hr
    rw [List.nodup_cons] at nodup
    -- The other traits are not begun by this one.
    have later {t : Store} (step : (besides p (.thisOf c) {x}).Step s t) :
        ∀ y ∈ xs, ∀ e, p.IsTemplateOf e y → t.cache.find? (.thisOf c) e = none := by
      refine fun y hy e he => step.rel e y he ?_ (fresh y (List.mem_cons_of_mem x hy) e he)
      rintro rfl
      exact nodup.1 hy
    refine builds_callParents_cons (X := insert x ∅) (Y := {y | y ∈ xs})
      (fun _ l => l.map BodyEvent.stage = bodySteps (p.sources [x])) builds hcall
      (fun hsource => (traits x List.mem_cons_self hsource).2) ?_ ?_
      (fun e ctor template hctor => ?_) (fun hsource => ?_) fun t l step builds' hl => ?_
    · exact fun y hy => by simp_all
    · exact fun y hy => List.mem_cons_of_mem x hy
    · have source' := template.1
      refine builds_construct (fun _ l => l.map BodyEvent.stage = bodySteps (p.sources [x])) hp
        builds template (fresh x List.mem_cons_self e template) hctor (primary x ctor hctor) own
        fun n t _ builds' => ?_
      rw [Program.sources_of_source source']
      exact builds_traitTemplate hp own builds' source' (traits x List.mem_cons_self source').1
    · rw [Program.sources_of_not_source hsource]
      rfl
    · refine (ih builds' nodup.2 (fun y hy => traits y (List.mem_cons_of_mem x hy))
        (later (step.weaken (by simp)))).imp (Set.Subset.refl _) fun _ _ l' _ hl' => ?_
      rw [List.map_append, hl, hl', ← bodySteps_append, ← Program.sources_append,
        List.singleton_append]

end Plan

/-! ## The chain of super classes -/

/-- The class lists its parents without arguments and without prefix. -/
def Program.ListsPlainly (p : Program) (d : ClassId) : Prop :=
  ∀ T, (p.cls d).template = some T → ∀ parent ∈ T.parents,
    parent.type.path = .bare ∧ parent.args = []

instance (p : Program) (d : ClassId) : Decidable (p.ListsPlainly d) :=
  decidable_of_iff (∀ T ∈ (p.cls d).template, ∀ parent ∈ T.parents,
    parent.type.path = .bare ∧ parent.args = []) Iff.rfl

/-- The outers of the bases of a class are recorded, apart from those of the class itself and of
    `Any`. -/
def Heap.Records (h : Heap) (p : Program) (c d : ClassId) : Prop :=
  ∀ x ∈ (p.cls d).linearization, x ≠ d → x ≠ .any → (h.outer? (.thisOf c) x).isSome

/-- The class bodies of all bases of a class were carried out, when outers were recorded. -/
structure Constructed (p : Program) (c d : ClassId) (h : Heap) (l : List BodyEvent) : Prop where
  stages : l.map BodyEvent.stage = bodySteps (p.sources (p.cls d).linearization.reverse)
  before : ∀ e ∈ l, e.heap.Records p c d
  recorded : h.Records p c d

theorem Heap.Extends.isSome_outer? {h h' : Heap} (ext : h.Extends h') {a : Addr} {x : ClassId}
    (hx : (h.outer? a x).isSome) : (h'.outer? a x).isSome := by
  obtain ⟨v, hv⟩ := Option.isSome_iff_exists.1 hx
  rw [ext.outer hv]
  rfl

theorem Heap.Records.mono {h h' : Heap} (records : h.Records p c d) (ext : h.Extends h') :
    h'.Records p c d :=
  fun x hx hne hany => ext.isSome_outer? (records x hx hne hany)

/-- What happens in a plan happens after its start. -/
theorem Plan.Builds.later {x : Plan α} {ok : α → Memory → List BodyEvent → Prop}
    (h : x.Builds p c n X s ok) :
    x.Builds p c n X s fun a m l => ok a m l ∧ ∀ e ∈ l, s.heap.Extends e.heap :=
  fun a t ends => ⟨(h a t ends).1, (h a t ends).2.1, (h a t ends).2.2,
    Plan.extends_of_visits fun _ _ => Query.extends_of_bodyEvents⟩

section Chain

variable {q : Program}

/-- Nothing runs for the root classes. -/
theorem constructed_root (coherent : q.Coherent) (roots : q.finish.RootsAlone) {r : ClassId}
    (hr : r = .object ∨ r = .any) (h : Heap) : Constructed q.finish c r h [] := by
  have records : h.Records q.finish c r := by
    intro x hx hne hany
    rcases hr with rfl | rfl
    · rw [roots.1] at hx
      simp [hne, hany] at hx
    · rw [roots.2] at hx
      simp [hany] at hx
  refine ⟨?_, nofun, records⟩
  rcases hr with rfl | rfl
  · rw [roots.1]
    simp [Program.sources, coherent.noSource, bodySteps]
  · rw [roots.2]
    simp [Program.sources, coherent.noSource, bodySteps]

namespace Plan

variable {x : ClassId}

variable (hp : q.finish.Disciplined) (coherent : q.Coherent) (acyclic : q.finish.Acyclic)
  (constructs : q.finish.Constructs c) (roots : q.finish.RootsAlone)
  (chain : Relation.ReflTransGen q.finish.IsSuperClass c d)

include hp coherent acyclic constructs roots chain

/-- The constructors of the parents let the bases of the super class run their bodies and then the
    traits that are mixed in. -/
theorem builds_callParents (hsuper : q.finish.IsSuperClass d x)
    {r : List SafetyError × Option ParentCall} {rs : List (List SafetyError × Option ParentCall)}
    {m : Memory} {source : Span} (builds : s.Builds q.finish c)
    (hcall : r.2 = q.finish.callOf x source)
    (prepared : List.Forall₂ (fun x r => q.finish.Prepares c x r m) (q.finish.mixins d x) rs)
    (fresh : ∀ y ∈ (q.finish.cls d).linearization, y ≠ d → ∀ e, q.finish.IsTemplateOf e y →
      s.cache.find? (.thisOf c) e = none)
    (super : ∀ e ctor, q.finish.IsTemplateOf e x →
      (q.finish.cls x).primaryConstructor = some ctor →
        (liftM (Query.construct (.ref (.thisOf c)) ctor [] source) : Plan Outcome).Builds q.finish c
          n {y | y ∈ (q.finish.cls x).linearization} s
          fun _ m l => Constructed q.finish c x m.heap l) :
    (callParents (.thisOf c) (r :: rs)).Builds q.finish c n
      {y | y ∈ (q.finish.cls d).linearization} s fun _ m l =>
        l.map BodyEvent.stage =
          bodySteps (q.finish.sources (q.finish.cls d).linearization.tail.reverse) ∧
        (∀ e ∈ l, e.heap.Records q.finish c x) ∧ m.heap.Records q.finish c x := by
  have own := coherent.ownConstructors
  have primary (x : ClassId) (ctor : SymbolId)
      (hctor : (q.finish.cls x).primaryConstructor = some ctor) :
      (q.finish.symbol ctor).isPrimaryConstructor = true := by
    rw [Program.primaryConstructor_finish] at hctor
    exact (coherent.constructors x ctor hctor).2.2.1
  have bases := coherent.linearization_eq acyclic hsuper
  have nodup := Program.nodup_linearization acyclic d
  rw [bases, List.nodup_cons, List.nodup_append] at nodup
  obtain ⟨notAgain, nodupMixins, -, disjoint⟩ := nodup
  have mixin {y : ClassId} (hy : y ∈ q.finish.mixins d x) :
      y ∈ (q.finish.cls d).linearization := by
    rw [bases]
    exact List.mem_cons_of_mem d (List.mem_append_left _ (List.mem_reverse.2 hy))
  have base {y : ClassId} (hy : y ∈ (q.finish.cls x).linearization) :
      y ∈ (q.finish.cls d).linearization := by
    rw [bases]
    exact List.mem_cons_of_mem d (List.mem_append_right _ hy)
  have template {y : ClassId} (hy : y ∈ (q.finish.cls d).linearization)
      (source : (q.finish.cls y).hasSource = true) : ∃ e, q.finish.IsTemplateOf e y := by
    have noRoot := coherent.not_root_of_source (Program.hasSource_finish y ▸ source)
    exact constructs.templates y (Program.linearization_subset_of_chain acyclic chain hy)
      noRoot.1 noRoot.2
  have head := Program.mem_linearization_self acyclic
    (coherent.parents_lt_finish (Program.IsSuperClass.isParent hsuper))
  refine builds_callParents_cons (X := {y | y ∈ (q.finish.cls x).linearization})
    (Y := {y | y ∈ q.finish.mixins d x}) (fun m l => Constructed q.finish c x m.heap l)
    builds hcall (fun source => template (base head) source) (fun y hy => base hy)
    (fun y hy => mixin hy) super (fun noSource => ?_) fun t l step builds' constructed => ?_
  · -- Only the root classes have no source.
    refine constructed_root coherent roots ?_ _
    by_contra noRoot
    rw [not_or] at noRoot
    obtain ⟨e, he⟩ := constructs.templates x
      (Program.linearization_subset_of_chain acyclic chain (base head)) noRoot.1 noRoot.2
    rw [he.1] at noSource
    cases noSource
  · refine (builds_mixins hp own primary builds' prepared (List.nodup_reverse.1 nodupMixins)
      (fun y hy source => ⟨?_, template (mixin hy) source⟩)
      fun y hy e he => ?_).later.imp (Set.Subset.refl _) fun _ m l' ext hl' => ?_
    · exact coherent.isTrait_of_mixin acyclic
        (fun b hb notTrait _ hany => (constructs.chain b hany).1 ⟨hb, notTrait⟩) chain hsuper hy
        (Program.hasSource_finish y ▸ source)
    · refine step.rel e y he (fun hbase => ?_) (fresh y (mixin hy) ?_ e he)
      · exact disjoint y (List.mem_reverse.2 hy) y hbase rfl
      · rintro rfl
        exact notAgain (List.mem_append_left _ (List.mem_reverse.2 hy))
    · refine ⟨?_, fun e he => ?_, constructed.recorded.mono ext.heap⟩
      · rw [List.map_append, constructed.stages, hl'.1, ← bodySteps_append,
          ← Program.sources_append, bases, List.tail_cons, List.reverse_append,
          List.reverse_reverse]
      · rcases List.mem_append.1 he with he | he
        · exact constructed.before e he
        · exact constructed.recorded.mono (hl'.2 e he)

/-- The template of a class records the outers of its parents before it calls their constructors. -/
theorem builds_initParents {T : Template} (hT : (q.finish.cls d).template = some T)
    (plain : q.finish.ListsPlainly d) (builds : s.Builds q.finish c)
    (fresh : ∀ x ∈ (q.finish.cls d).linearization, x ≠ d → ∀ e, q.finish.IsTemplateOf e x →
      s.cache.find? (.thisOf c) e = none)
    (super : ∀ x, q.finish.IsSuperClass d x → ∀ t : Store, t.Builds q.finish c →
      (∀ y ∈ (q.finish.cls x).linearization, ∀ e, q.finish.IsTemplateOf e y →
        t.cache.find? (.thisOf c) e = none) →
      ∀ e ctor source, q.finish.IsTemplateOf e x →
        (q.finish.cls x).primaryConstructor = some ctor →
          (liftM (Query.construct (.ref (.thisOf c)) ctor [] source) : Plan Outcome).Builds q.finish
            c n {y | y ∈ (q.finish.cls x).linearization} t
              fun _ m l => Constructed q.finish c x m.heap l) :
    (initParents q.finish d (.thisOf c) T.parents).Builds q.finish c n
      {x | x ∈ (q.finish.cls d).linearization} s fun _ m l =>
        l.map BodyEvent.stage =
          bodySteps (q.finish.sources (q.finish.cls d).linearization.tail.reverse) ∧
        (∀ e ∈ l, e.heap.Records q.finish c d) ∧ m.heap.Records q.finish c d := by
  have own := coherent.ownConstructors
  have listed := plain T hT
  have ctors (parent : Parent) (h : parent ∈ T.parents) := coherent.ctor_of_listed hT h
  have classes := coherent.parents_of_listed hT
  cases hparents : T.parents with
  | nil =>
    have hlt : d.index < q.classes.size :=
      Program.index_lt_of_source (by rw [← Program.hasSource_finish, ClassDef.hasSource, hT]; rfl)
    rw [hparents] at classes
    have bases : (q.finish.cls d).linearization = [d] := by
      rw [Program.linearization_finish acyclic hlt, ← classes]
      rfl
    refine .pure builds ⟨?_, List.forall_mem_nil _, fun x hx hne => ?_⟩
    · rw [bases]
      rfl
    · rw [bases] at hx
      exact absurd (List.mem_singleton.1 hx) hne
  | cons first others =>
    rw [hparents] at listed ctors classes
    have hsuper : q.finish.IsSuperClass d first.type.cls := by
      rw [Program.IsSuperClass, ClassDef.superClass, ← classes]
      rfl
    have bases := coherent.linearization_eq acyclic hsuper
    have nodup := Program.nodup_linearization acyclic d
    rw [bases, List.nodup_cons] at nodup
    refine .andThen (X := ∅) builds (Set.empty_subset _) (Set.Subset.refl _)
      (builds_prepareListed hp own builds (listed first List.mem_cons_self).1
        (listed first List.mem_cons_self).2 (ctors first List.mem_cons_self))
      fun r t l step builds' hr => ?_
    obtain ⟨⟨⟨source, hcall⟩, outer⟩, rfl⟩ := hr
    have mixed : ((q.finish.mixins d first.type.cls).mapM
        (prepareMixin q.finish d (.thisOf c) first others)).Builds q.finish c n ∅ t fun rs m l =>
          List.Forall₂ (fun x r => q.finish.Prepares c x r m)
            (q.finish.mixins d first.type.cls) rs ∧ l = [] := by
      refine .mapM builds' (fun x r m m' ext h => ⟨h.1, ext.heap.isSome_outer? h.2⟩)
        fun x hx u _ builds'' => builds_prepareMixin hp own builds''
          (fun parent hparent => listed parent (List.mem_cons_of_mem first hparent))
          fun parent hparent => ctors parent (List.mem_cons_of_mem first hparent)
    refine .andThen (X := ∅) builds' (Set.empty_subset _) (Set.Subset.refl _) mixed
      fun rs u l step' builds'' hrs => ?_
    obtain ⟨hrs, rfl⟩ := hrs
    -- Now the outers of all parents are recorded, and no template was begun.
    have fresh' (y : ClassId) (hy : y ∈ (q.finish.cls d).linearization) (hne : y ≠ d) (e : ExprId)
        (he : q.finish.IsTemplateOf e y) : u.cache.find? (.thisOf c) e = none :=
      (step.andThen step').rel e y he (Set.notMem_empty y) (fresh y hy hne e he)
    have mixedIn : ∀ y ∈ q.finish.mixins d first.type.cls, (u.heap.outer? (.thisOf c) y).isSome :=
      ((List.forall₂_and_left _ _).1 (hrs.imp fun y r (h : q.finish.Prepares c y r u.memory) =>
        ⟨h.2, h⟩)).1
    have records {h : Heap} (ext : u.heap.Extends h)
        (inherited : h.Records q.finish c first.type.cls) : h.Records q.finish c d := by
      intro y hy hne hany
      rw [bases, List.mem_cons, List.mem_append, List.mem_reverse] at hy
      rcases hy with rfl | hy | hy
      · exact absurd rfl hne
      · exact ext.isSome_outer? (mixedIn y hy)
      · by_cases same : y = first.type.cls
        · rw [same]
          exact (step'.memory.heap.trans ext).isSome_outer? outer
        · exact inherited y hy same hany
    have called := (builds_callParents hp coherent acyclic constructs roots chain hsuper builds''
      hcall hrs fresh' fun e ctor template hctor => super _ hsuper u builds'' (fun y hy e he =>
        fresh' y (by simp [bases, hy]) (by rintro rfl; exact nodup.1 (by simp [hy])) e he)
          e ctor source template hctor).later
    refine .bind builds'' called fun errors v l step'' last hl => .pure last ?_
    obtain ⟨⟨stages, before, recorded⟩, later⟩ := hl
    rw [List.append_nil, List.nil_append, List.nil_append]
    exact ⟨stages, fun e he => records (later e he) (before e he),
      records step''.memory.heap recorded⟩

/-- The template of a class lets all its bases run their bodies. -/
theorem builds_template
    (plain : ∀ b ∈ (q.finish.cls c).linearization, q.finish.ListsPlainly b) {e : ExprId}
    (template : q.finish.IsTemplateOf e d) (builds : s.Builds q.finish c)
    (fresh : ∀ x ∈ (q.finish.cls d).linearization, x ≠ d → ∀ e, q.finish.IsTemplateOf e x →
      s.cache.find? (.thisOf c) e = none) :
    (Plan.template q.finish d (.thisOf c)).Builds q.finish c n
      {x | x ∈ (q.finish.cls d).linearization} s fun o m l =>
        o.value = .ref (.thisOf c) ∧ Constructed q.finish c d m.heap l := by
  induction d using acyclic.induction generalizing n s e with
  | _ d ih =>
    have own := coherent.ownConstructors
    have source := template.1
    have hlt : d.index < q.classes.size :=
      Program.index_lt_of_source (Program.hasSource_finish d ▸ source)
    have noRoot := coherent.not_root_of_source (Program.hasSource_finish d ▸ source)
    have notTrait := ((constructs.chain d noRoot.2).2 chain).2
    have bases := Program.linearization_finish acyclic hlt
    have mem := Program.linearization_subset_of_chain acyclic chain
      (Program.mem_linearization_self acyclic hlt)
    obtain ⟨T, hT⟩ := Option.isSome_iff_exists.1 source
    rw [template_of_source hT, notTrait, if_neg Bool.false_ne_true]
    refine .andThen (X := ∅) builds (Set.empty_subset _) (Set.Subset.refl _)
      (builds_setParams hp own builds) fun _ t l step builds' hl => ?_
    subst hl
    refine .bind builds' (builds_initParents hp coherent acyclic constructs roots chain hT
      (plain d mem) builds' (fun x hx hne g hg => step.rel g x hg (Set.notMem_empty x)
        (fresh x hx hne g hg)) fun x hx u builds'' freshAll g ctor call template' hctor => ?_)
      fun _ u l step' builds'' hl => ?_
    · have primary := coherent.constructors x ctor (Program.primaryConstructor_finish x ▸ hctor)
      have hx' := coherent.parents_lt_finish (Program.IsSuperClass.isParent hx)
      have self := Program.mem_linearization_self acyclic hx'
      refine (builds_construct (Constructed q.finish c x) hp builds'' template'
        (freshAll x self g template') hctor primary.2.2.1 own fun n v hv builds''' =>
          ih x (Program.IsSuperClass.isParent hx) (chain.tail hx) template' builds'''
            fun y hy hne g' hg' => ?_).imp ?_ fun _ _ _ _ h => h
      · change v.memory.cache.find? (.thisOf c) g' = none
        rw [hv, Memory.find?_enter, if_neg]
        · exact freshAll y hy g' hg'
        · rintro ⟨-, rfl⟩
          exact hne (hg'.cls_unique template')
      · exact Set.insert_subset self (Set.Subset.refl _)
    · obtain ⟨stages, before, recorded⟩ := hl
      refine .bind builds'' (((builds_body hp own builds'').later).imp (Set.empty_subset _)
        fun _ _ _ _ h => h) fun _ v l' step'' last hl' => .pure last ⟨rfl, ?_, ?_, ?_⟩
      · obtain ⟨above, habove⟩ : ∃ above, (q.finish.cls d).linearization = d :: above := ⟨_, bases⟩
        rw [habove, List.tail_cons] at stages
        rw [habove, List.reverse_cons, Program.sources_append, bodySteps_append,
          Program.sources_of_source source, ← stages, ← hl'.1]
        simp
      · simp only [List.nil_append, List.append_nil, List.mem_append]
        rintro e (he | he)
        · exact before e he
        · exact recorded.mono (hl'.2 e he)
      · exact recorded.mono step''.memory.heap

end Plan

end Chain

/-! ## The check of a class -/

variable {q : Program}

/-- The object under construction exists at the start. -/
theorem Store.builds_allocated {h : Heap} {env : Env} {trace : Trace}
    (ok : Store.initial.heap.allocate (.thisOf c) (.new c [(c, .hot)]) = .ok h)
    (fits : (besides p (.thisOf c) ∅).FitsEnv { Store.initial.memory with heap := h } env) :
    { Store.initial with heap := h, env := env, trace := trace }.Builds p c := by
  refine ⟨⟨⟨called_initial.allocate .hot ok, trivial⟩, fits⟩, ?_, nofun⟩
  rw [Heap.contains, Heap.read_of_allocate ok, if_pos rfl]
  rfl

/-- The check of a class with a template runs the template on a new object. -/
theorem Plan.passes_check (hp : q.finish.Disciplined) (coherent : q.Coherent)
    (acyclic : q.finish.Acyclic) (constructs : q.finish.Constructs c) (roots : q.finish.RootsAlone)
    (plain : ∀ b ∈ (q.finish.cls c).linearization, q.finish.ListsPlainly b) {e : ExprId}
    (template : q.finish.IsTemplateOf e c) :
    (Plan.check q.finish c).Passes q.finish n (fun r t => r.bodyEvents q.finish (.thisOf c) n t)
      .initial fun _ _ l =>
        l.map BodyEvent.stage =
          bodySteps (q.finish.sources (q.finish.cls c).linearization.reverse) ∧
        ∀ e ∈ l, ∀ x ∈ (q.finish.cls c).linearization, x ≠ .any →
          (e.heap.outer? (.thisOf c) x).isSome := by
  have ⟨source, ctor, hctor, body, _⟩ := template
  simp only [Plan.check, hctor, body]
  refine passes_look_bind ?_
  have absent : Store.initial.heap.contains (.thisOf c) = false := rfl
  rw [absent, if_neg Bool.false_ne_true]
  refine passes_bind (passes_perform fun _ t run => ?_)
  obtain ⟨h, ok, rfl⟩ := Effect.run_allocate.1 run
  have own : (h.outer? (.thisOf c) c).isSome := by
    rw [Heap.outer?_of_allocate ok, if_pos ⟨rfl, rfl⟩]
    rfl
  have evaluated : (inEnv (.ofList ((q.finish.symbol ctor).params.map (·, .hot)))
      (calledFrom (q.finish.cls c).span (Query.eval e ⟨.thisOf c, c⟩ true))).Builds q.finish c n
        (insert c {x | x ∈ (q.finish.cls c).linearization}) { Store.initial with heap := h }
        fun _ m l => Constructed q.finish c c m.heap l := by
    refine .inEnv (.calledFrom (builds_eval (Constructed q.finish c c) hp
      (Store.builds_allocated ok (FitsEnv.ofList fits_hotParams)) template rfl fun n t ht builds =>
        builds_template hp coherent acyclic constructs roots .refl plain template builds
          fun x _ hne g hg => ?_))
    change t.memory.cache.find? (.thisOf c) g = none
    rw [ht, Memory.find?_enter, if_neg]
    · rfl
    · rintro ⟨-, rfl⟩
      exact hne (hg.cls_unique template)
  refine passes_bind (Passes.imp evaluated.later fun o t l h => passes_pure ?_)
  obtain ⟨_, _, constructed, later⟩ := h
  rw [List.nil_append, List.append_nil]
  refine ⟨constructed.stages, fun e he x hx hany => ?_⟩
  by_cases same : x = c
  · rw [same]
    exact (later e he).isSome_outer? own
  · exact constructed.before e he x hx same hany

/-- In the check of a class, the bodies of its bases are carried out one after the other on the
    object under construction, in the order opposite to the linearization, and before that the
    outers of all bases are recorded. -/
theorem Query.bodyEvents_of_check (built : q.Built) (acyclic : q.finish.Acyclic)
    (constructs : q.finish.Constructs c) (roots : q.finish.RootsAlone)
    (plain : ∀ b ∈ (q.finish.cls c).linearization, q.finish.ListsPlainly b)
    (hp : q.finish.Disciplined) {es : List SafetyError}
    (h : (Query.check c).Ends q.finish n .initial es t) :
    ((Query.check c).bodyEvents q.finish (.thisOf c) n .initial).map BodyEvent.stage =
        bodySteps (q.finish.sources (q.finish.cls c).linearization.reverse) ∧
      ∀ e ∈ (Query.check c).bodyEvents q.finish (.thisOf c) n .initial,
        ∀ x ∈ (q.finish.cls c).linearization, x ≠ .any →
          (e.heap.outer? (.thisOf c) x).isSome := by
  have coherent := built.coherent
  cases n with
  | zero => exact absurd h Query.ends_zero
  | succ n =>
    have events : (Query.check c).bodyEvents q.finish (.thisOf c) (n + 1) .initial =
        (Plan.check q.finish c).visits q.finish n
          (fun r t => r.bodyEvents q.finish (.thisOf c) n t) .initial := by
      rw [Query.bodyEvents]
      exact List.append_nil _
    rw [events]
    rw [Query.ends_succ] at h
    by_cases template : ∃ e, q.finish.IsTemplateOf e c
    · obtain ⟨e, template⟩ := template
      exact Plan.passes_check hp coherent acyclic constructs roots plain template es t h
    · -- Nothing is there to be run.
      have nothing : (Plan.check q.finish c).visits q.finish n
          (fun r t => r.bodyEvents q.finish (.thisOf c) n t) .initial = [] := by
        unfold Plan.check
        split
        · next ctor hctor =>
          split
          · next e body =>
            have primary := hp.primaries c ctor e hctor body
            exact absurd ⟨e, primary.1, ctor, hctor, body, primary.2⟩ template
          · rfl
        · rfl
      rw [nothing]
      refine ⟨?_, List.forall_mem_nil _⟩
      by_cases hlt : c.index < q.classes.size
      · have root : c = .object ∨ c = .any := by
          by_contra noRoot
          rw [not_or] at noRoot
          exact template (constructs.templates c (Program.mem_linearization_self acyclic hlt)
            noRoot.1 noRoot.2)
        exact (constructed_root (c := c) coherent roots root t.heap).stages
      · rw [Program.cls_of_size_le (by rw [Program.size_finish]; omega)]
        rfl

/-! ## A class with a mixin and a secondary constructor -/

/-- A class `C` with a field `z` that extends a class `A` with a field `y` and a trait `T` with a
    field `x`. The initializer of `z` creates an instance of `A` by a secondary constructor, which
    calls the primary one. -/
def delegates : Program := .assemble [
  .defineClass "T" .package (.ofList [.trait]) true,
  .defineField ⟨4⟩ "x" .value,
  .literal,
  .setBody ⟨15⟩ ⟨2⟩,
  .defineClass "A" .package .none true,
  .defineField ⟨5⟩ "y" .value,
  .literal,
  .setBody ⟨17⟩ ⟨5⟩,
  .defineConstructor ⟨5⟩ [],
  .constructorCall ⟨5⟩ ⟨16⟩ [],
  .setBody ⟨18⟩ ⟨8⟩,
  .defineClass "C" .package .none true,
  .defineField ⟨6⟩ "z" .value,
  .newInstanceWith ⟨.thisOf ⟨6⟩, ⟨5⟩⟩ ⟨18⟩ [],
  .setBody ⟨20⟩ ⟨11⟩,
  .extend ⟨6⟩ ⟨.bare, ⟨5⟩⟩ [],
  .extend ⟨6⟩ ⟨.bare, ⟨4⟩⟩ []]

theorem homes_delegates : delegates.finish.Homes fun e =>
    [[], [(false, ⟨4⟩)], [(false, ⟨4⟩)], [], [(false, ⟨5⟩)], [(false, ⟨5⟩)], [(false, ⟨5⟩)],
      [(true, ⟨5⟩)], [(true, ⟨5⟩)], [], [(false, ⟨6⟩)], [(false, ⟨6⟩)]].getD e.index [] := by
  constructor <;> decide +kernel

theorem disciplined_delegates : delegates.finish.Disciplined :=
  .of_homes _ homes_delegates (by constructor <;> decide +kernel)

/-- The bodies of `A`, of `T` and of `C` are carried out in this order, when the outers of `A` and
    of `T` are recorded. -/
theorem Query.bodyEvents_of_check_delegates : ∃ n es t,
    (Query.check ⟨6⟩).Ends delegates.finish n .initial es t ∧
      ((Query.check ⟨6⟩).bodyEvents delegates.finish (.thisOf ⟨6⟩) n .initial).map BodyEvent.stage =
        bodySteps [⟨5⟩, ⟨4⟩, ⟨6⟩] ∧
      ∀ e ∈ (Query.check ⟨6⟩).bodyEvents delegates.finish (.thisOf ⟨6⟩) n .initial,
        (e.heap.outer? (.thisOf ⟨6⟩) ⟨5⟩).isSome ∧ (e.heap.outer? (.thisOf ⟨6⟩) ⟨4⟩).isSome := by
  obtain ⟨es, ⟨n, h⟩, -⟩ := Query.answered_of_result? List.isEmpty
    (p := delegates.finish) (n := 20) (s := .initial) (q := .check ⟨6⟩) (by decide +kernel)
  generalize Query.storeAfter _ _ _ _ = t at h
  have acyclic : delegates.finish.Acyclic :=
    Program.acyclic_of_rank (fun c => [0, 0, 1, 2, 2, 2, 3].getD c.index 0) (by decide +kernel)
  have constructs : delegates.finish.Constructs ⟨6⟩ :=
    .of_superClasses 4 (by decide +kernel) (by decide +kernel) (by decide +kernel)
      (by decide +kernel)
  have built : delegates.Built := (Program.assembled_assemble _).built
  obtain ⟨stages, outers⟩ := Query.bodyEvents_of_check built acyclic constructs (by decide +kernel)
    (by decide +kernel) disciplined_delegates h
  have bases : delegates.finish.sources (delegates.finish.cls ⟨6⟩).linearization.reverse =
      [⟨5⟩, ⟨4⟩, ⟨6⟩] := by decide +kernel
  rw [bases] at stages
  exact ⟨n, es, t, h, stages, fun e he =>
    ⟨outers e he ⟨5⟩ (by decide +kernel) (by decide),
      outers e he ⟨4⟩ (by decide +kernel) (by decide)⟩⟩

/-! ## Root classes with bases -/

/-- A trait `T` with fields `x` and `y` that extends `Any` and that `Object` extends, and a class
    `C` without members. The initializer of `x` reads `y`. -/
def readerUnderObject : Program := .assemble [
  .defineClass "T" .package (.ofList [.trait]) true,
  .defineField ⟨4⟩ "x" .value,
  .defineField ⟨4⟩ "y" .value,
  .identFrom (.thisOf ⟨4⟩) ⟨16⟩,
  .setBody ⟨15⟩ ⟨3⟩,
  .literal,
  .setBody ⟨16⟩ ⟨4⟩,
  .extend ⟨4⟩ ⟨.bare, .any⟩ [],
  .extend .object ⟨.bare, ⟨4⟩⟩ [],
  .defineClass "C" .package .none true]

theorem disciplined_readerUnderObject : readerUnderObject.finish.Disciplined :=
  .of_homes (fun e => [[], [(false, ⟨4⟩)], [(false, ⟨4⟩)], [(false, ⟨4⟩)],
      [(false, ⟨4⟩)]].getD e.index [])
    (by constructor <;> decide +kernel) (by constructor <;> decide +kernel)

/-- `Object` has no template, so nothing runs the bodies of the traits that it extends. The check of
    `C` finds no error, though `T` is one of its bases and the body of `T` reads a field too
    early. -/
theorem Query.body_skipped_under_object : ∃ t,
    readerUnderObject.finish.Acyclic ∧ readerUnderObject.finish.Constructs ⟨5⟩ ∧
      (∀ b ∈ readerUnderObject.finish.classIds, (readerUnderObject.finish.cls b).parents.Nodup ∧
        readerUnderObject.finish.ListsPlainly b) ∧
      readerUnderObject.finish.DefinesOnce ∧ readerUnderObject.finish.Disciplined ∧
      (Query.check ⟨5⟩).Ends readerUnderObject.finish 20 .initial [] t ∧
      readerUnderObject.finish.sources
        (readerUnderObject.finish.cls ⟨5⟩).linearization.reverse = [⟨4⟩, ⟨5⟩] ∧
      ((Query.check ⟨5⟩).bodyEvents readerUnderObject.finish (.thisOf ⟨5⟩) 20 .initial).map
        BodyEvent.stage = bodySteps [⟨5⟩] := by
  obtain ⟨es, h, hes⟩ := Query.ends_of_result? List.isEmpty
    (p := readerUnderObject.finish) (n := 20) (s := .initial) (q := .check ⟨5⟩) (by decide +kernel)
  rw [List.isEmpty_iff] at hes
  subst hes
  have acyclic : readerUnderObject.finish.Acyclic :=
    Program.acyclic_of_rank (fun c => [0, 0, 2, 3, 1, 3].getD c.index 0) (by decide +kernel)
  have constructs : readerUnderObject.finish.Constructs ⟨5⟩ :=
    .of_superClasses 3 (by decide +kernel) (by decide +kernel) (by decide +kernel)
      (by decide +kernel)
  exact ⟨_, acyclic, constructs, by decide +kernel, by decide +kernel,
    disciplined_readerUnderObject, h, by decide +kernel, by decide +kernel⟩

/-! ## Other classes -/

/-- A class `C` with a field `x` and a member class `D`, which extends a trait `T` that extends a
    class `A`. The initializer of `x` creates an instance of `D`. -/
def createsMember : Program := .assemble [
  .defineClass "C" .package .none true,
  .defineClass "A" .package .none true,
  .defineClass "T" .package (.ofList [.trait]) true,
  .extend ⟨6⟩ ⟨.bare, ⟨5⟩⟩ [],
  .defineClass "D" (.cls ⟨4⟩) .none true,
  .extend ⟨7⟩ ⟨.bare, ⟨6⟩⟩ [],
  .defineField ⟨4⟩ "x" .value,
  .newInstanceWith ⟨.thisOf ⟨4⟩, ⟨7⟩⟩ ⟨17⟩ [],
  .setBody ⟨18⟩ ⟨6⟩]

theorem disciplined_createsMember : createsMember.finish.Disciplined :=
  .of_homes (fun e =>
      [[], [], [], [(false, ⟨4⟩)], [], [(false, ⟨4⟩)], [(false, ⟨4⟩)]].getD e.index [])
    (by constructor <;> decide +kernel) (by constructor <;> decide +kernel)

/-- The check of a class may break off where it creates an instance of another class whose bases are
    not the chain of its super classes. -/
theorem Query.check_breaks_off_in_member : createsMember.finish.Acyclic ∧
    createsMember.finish.Constructs ⟨4⟩ ∧ createsMember.finish.RootsAlone ∧
      (∀ b ∈ createsMember.finish.classIds, (createsMember.finish.cls b).parents.Nodup ∧
        createsMember.finish.ListsPlainly b) ∧
      createsMember.finish.DefinesOnce ∧ createsMember.finish.Disciplined ∧
      ∀ es t, ¬(Query.check ⟨4⟩).Answered createsMember.finish .initial es t := by
  have acyclic : createsMember.finish.Acyclic :=
    Program.acyclic_of_rank (fun c => [0, 0, 1, 2, 2, 2, 3, 4].getD c.index 0) (by decide +kernel)
  have constructs : createsMember.finish.Constructs ⟨4⟩ :=
    .of_superClasses 3 (by decide +kernel) (by decide +kernel) (by decide +kernel)
      (by decide +kernel)
  have refused : (Query.check ⟨4⟩).fault? createsMember.finish 20 .initial =
      some (.outerSetTwice (.warm ⟨⟨7⟩, 0⟩) .object) := by decide +kernel
  exact ⟨acyclic, constructs, by decide +kernel, by decide +kernel, by decide +kernel,
    disciplined_createsMember, fun _ _ => Query.not_answered_of_fault? refused⟩

end ObjectInit
