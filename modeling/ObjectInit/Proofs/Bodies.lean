import ObjectInit.Proofs.Contracts
import ObjectInit.Proofs.Visits

/-!
# Class bodies on the way

`Query.bodyEvents` lists when the class bodies of an object are started and finished on the way of a
question, by carrying the question out.

Main results:

* `Plan.passes_bind`, `Plan.passes_ask`: what happens in a plan happens in its parts, one after the
  other.
* `Contract.Kept.silent`: nothing happens where a contract forbids the class bodies of the object.
-/

namespace ObjectInit

/-! ## Events -/

inductive BodyStep where
  | started
  | finished
  deriving DecidableEq

/-- The statements of a class are started or finished on an object. -/
structure BodyEvent where
  step : BodyStep
  cls : ClassId
  /-- The heap at this time. -/
  heap : Heap

/-- What happens before a question is answered. -/
def Query.eventsBefore {β : Type} (a : Addr) : Query β → Store → List BodyEvent
  | .body c this, s => if this = a then [⟨.started, c, s.heap⟩] else []
  | _, _ => []

/-- What happens when a question was answered. -/
def Query.eventsAfter {β : Type} (p : Program) (n : Nat) (a : Addr) :
    Query β → Store → List BodyEvent
  | .body c this, s =>
    match (answer p n (.body c this)).run s with
    | .ok (_, t) => if this = a then [⟨.finished, c, t.heap⟩] else []
    | .error _ => []
  | _, _ => []

/-- When class bodies are started and finished on the object at `a`, on the way of a question whose
    questions are nested up to the given depth. -/
def Query.bodyEvents (p : Program) (a : Addr) : {β : Type} → Nat → Query β → Store → List BodyEvent
  | _, 0, _, _ => []
  | _, n + 1, q, s =>
    q.eventsBefore a s ++ (q.plan p).visits p n (fun r t => Query.bodyEvents p a n r t) s ++
      q.eventsAfter p (n + 1) a s

/-! ## What happens in a plan -/

variable {p : Program} {n : Nat} {α β ε : Type} {s t : Store}
  {events : {β : Type} → Query β → Store → List ε}

/-- If the plan comes to an end, it ends as wanted after what happened on the way. -/
def Plan.Passes (p : Program) (n : Nat) (events : {β : Type} → Query β → Store → List ε)
    (x : Plan α) (s : Store) (want : α → Store → List ε → Prop) : Prop :=
  ∀ a t, x.Ends p n s a t → want a t (x.visits p n events s)

namespace Plan

variable {want : α → Store → List ε → Prop}

theorem visits_bind (x : Plan β) (f : β → Plan α) :
    (x >>= f).visits p n events s = x.visits p n events s ++
      match (x.run fun q => answer p n q).run s with
      | .ok (b, t) => (f b).visits p n events t
      | .error _ => [] := by
  change (x.bind f).visits p n events s = _
  induction x generalizing s with
  | pure b => rfl
  | ask q next ih =>
    have run : (((Plan.ask q next).run fun q => answer p n q).run s) =
        (answer p n q >>= fun b => (next b).run fun q => answer p n q).run s := rfl
    rw [run, StateT.run_bind, Plan.bind, Plan.visits, Plan.visits, List.append_assoc]
    cases hq : (answer p n q).run s with
    | error e => rfl
    | ok r => exact congrArg _ (ih r.1 f)
  | perform effect next ih =>
    have run : (((Plan.perform effect next).run fun q => answer p n q).run s) =
        (effect.run >>= fun b => (next b).run fun q => answer p n q).run s := rfl
    rw [run, StateT.run_bind, Plan.bind, Plan.visits, Plan.visits]
    cases hq : effect.run.run s with
    | error e => rfl
    | ok r => exact ih r.1 f
  | within scope part next _ ih =>
    have run : (((Plan.within scope part next).run fun q => answer p n q).run s) =
        (do
          let before := (← get).toContext
          modify scope.enter
          let b ← part.run fun q => answer p n q
          modify (scope.leave before b)
          (next b).run fun q => answer p n q : Run _).run s := rfl
    rw [run, Plan.bind, Plan.visits, Plan.visits, List.append_assoc]
    simp only [StateT.run_bind, StateT.run_get, StateT.run_modify, pure_bind]
    cases hq : (part.run fun q => answer p n q).run (scope.enter s) with
    | error e => rfl
    | ok r => exact congrArg _ (ih r.1 f)

theorem Passes.imp {x : Plan α} {want' : α → Store → List ε → Prop}
    (h : x.Passes p n events s want) (hw : ∀ a t l, want a t l → want' a t l) :
    x.Passes p n events s want' :=
  fun a t ends => hw a t _ (h a t ends)

theorem passes_pure {a : α} (h : want a s []) :
    (Pure.pure a : Plan α).Passes p n events s want := by
  intro b t ends
  obtain ⟨rfl, rfl⟩ := ends_pure.1 ends
  exact h

theorem passes_bind {x : Plan β} {f : β → Plan α}
    (h : x.Passes p n events s fun b t l =>
      (f b).Passes p n events t fun a u l' => want a u (l ++ l')) :
    (x >>= f).Passes p n events s want := by
  intro a u ends
  obtain ⟨b, t, hx, hf⟩ := ends_bind.1 ends
  have := h b t hx a u hf
  rw [Ends] at hx
  rwa [visits_bind, hx]

theorem passes_ask {q : Query α}
    (h : ∀ a t, q.Ends p n s a t → want a t (events q s)) :
    (liftM q : Plan α).Passes p n events s want := by
  intro a t ends
  have hq := ends_ask.1 ends
  have : (liftM q : Plan α).visits p n events s = events q s := by
    change (Plan.ask q .pure).visits p n events s = events q s
    rw [Query.Ends] at hq
    rw [Plan.visits, hq]
    exact List.append_nil _
  rw [this]
  exact h a t hq

theorem passes_perform {effect : Effect α}
    (h : ∀ a t, effect.run.run s = .ok (a, t) → want a t []) :
    (liftM effect : Plan α).Passes p n events s want := by
  intro a t ends
  have run := ends_perform.1 ends
  have : (liftM effect : Plan α).visits p n events s = [] := by
    change (Plan.perform effect .pure).visits p n events s = []
    rw [Plan.visits, run]
    rfl
  rw [this]
  exact h a t run

theorem passes_look_bind {f : Store → Plan α} (h : (f s).Passes p n events s want) :
    ((liftM Effect.look : Plan Store) >>= f).Passes p n events s want := by
  refine passes_bind (passes_perform fun a t run => ?_)
  cases run
  exact h

theorem passes_within {scope : Scope β} {part : Plan β} {f : β → Plan α}
    (h : part.Passes p n events (scope.enter s) fun b t l =>
      (f b).Passes p n events (scope.leave s.toContext b t) fun a u l' => want a u (l ++ l')) :
    (Plan.within scope part f).Passes p n events s want := by
  intro a u ends
  obtain ⟨b, t, hpart, hf⟩ := ends_within.1 ends
  have := h b t hpart a u hf
  rw [Ends] at hpart
  rwa [Plan.visits, hpart]

theorem passes_inEnv {env : Env} {part : Plan α}
    (h : part.Passes p n events { s with env := env }
      fun a t l => want a { t with env := s.env } l) :
    (inEnv env part).Passes p n events s want := by
  refine passes_within (h.imp fun a t l ha => passes_pure ?_)
  rwa [List.append_nil]

theorem passes_inTrace {trace : Trace} {part : Plan α}
    (h : part.Passes p n events { s with trace := trace } fun a t l =>
      want a { t with trace := s.trace } l) :
    (inTrace trace part).Passes p n events s want := by
  refine passes_within (h.imp fun a t l ha => passes_pure ?_)
  rwa [List.append_nil]

theorem passes_calledFrom {source : Span} {part : Plan α}
    (h : part.Passes p n events { s with trace := s.trace.add source } fun a t l =>
      want a { t with trace := s.trace } l) :
    (calledFrom source part).Passes p n events s want :=
  passes_look_bind (passes_inTrace h)

end Plan

/-! ## Heaps on the way -/

/-- What happens in a plan happens after its start. -/
theorem Plan.extends_of_visits {events : {β : Type} → Query β → Store → List BodyEvent}
    (later : ∀ {β : Type} (q : Query β) s, ∀ e ∈ events q s, s.heap.Extends e.heap) {x : Plan α} :
    ∀ e ∈ x.visits p n events s, s.heap.Extends e.heap := by
  intro e he
  induction x generalizing s with
  | pure => cases he
  | ask q next ih =>
    rw [Plan.visits, List.mem_append] at he
    rcases he with he | he
    · exact later q s e he
    · cases hq : (answer p n q).run s with
      | error =>
        rw [hq] at he
        cases he
      | ok r =>
        rw [hq] at he
        exact (Query.Ends.keeps hq).heap.trans (ih r.1 he)
  | perform effect next ih =>
    rw [Plan.visits] at he
    cases hr : effect.run.run s with
    | error =>
      rw [hr] at he
      cases he
    | ok r =>
      rw [hr] at he
      exact (Effect.run_extends hr).trans (ih r.1 he)
  | within scope part next ihPart ih =>
    rw [Plan.visits, List.mem_append] at he
    rcases he with he | he
    · have := ihPart he
      rwa [Scope.heap_enter] at this
    · cases hr : (part.run fun q => answer p n q).run (scope.enter s) with
      | error =>
        rw [hr] at he
        cases he
      | ok r =>
        rw [hr] at he
        have before := Plan.ends_extends hr
        have after := ih r.1 he
        rw [Scope.heap_enter] at before
        rw [Scope.heap_leave] at after
        exact before.trans after

/-- What happens on the way of a question happens after its start. -/
theorem Query.extends_of_bodyEvents {a : Addr} {q : Query β} :
    ∀ e ∈ q.bodyEvents p a n s, s.heap.Extends e.heap := by
  induction n generalizing β s with
  | zero => nofun
  | succ n ih =>
    intro e he
    rw [Query.bodyEvents, List.mem_append, List.mem_append] at he
    rcases he with (he | he) | he
    · unfold Query.eventsBefore at he
      split at he
      · split at he
        · rw [List.mem_singleton.1 he]
          exact .refl _
        · cases he
      · cases he
    · exact Plan.extends_of_visits (fun q s => ih) e he
    · unfold Query.eventsAfter at he
      split at he
      · split at he
        · next hq =>
          split at he
          · rw [List.mem_singleton.1 he]
            exact (Query.Ends.keeps hq).heap
          · cases he
        · cases he
      · cases he

/-! ## Silence -/

namespace Contract.Kept

variable {C : Contract}
  {smaller : {γ : Type} → Query γ → Store → {β : Type} → Query β → Store → Prop}
  {allowed : {β : Type} → Query β → Store → Prop}

/-- Nothing happens in a plan that obeys a contract under which nothing happens. -/
theorem visits_eq_nil (kept : C.Kept p smaller)
    (nothing : ∀ {β : Type} (q : Query β) s, C.pre q s → events q s = []) {x : Plan α}
    {want : α → Store → Prop} (h : x.Obeys p (C.only allowed) s want) :
    x.visits p n events s = [] := by
  induction x generalizing s with
  | pure => rfl
  | ask q next ih =>
    rw [Plan.visits, nothing q s h.1.1, List.nil_append]
    cases hq : (ObjectInit.answer p n q).run s with
    | error => rfl
    | ok r => exact ih r.1 (h.2 r.1 r.2 ⟨n, hq⟩ (kept.post_of_ends h.1.1 hq))
  | perform effect next ih =>
    rw [Plan.visits]
    cases hr : effect.run.run s with
    | error => rfl
    | ok r => exact ih r.1 (h.2 r.1 r.2 hr)
  | within scope part next ihPart ih =>
    rw [Plan.visits, ihPart h, List.nil_append]
    have ended := run_endsWell (n := n) (x := part) (fun q s hq => kept.answer n hq) h
    cases hr : (part.run fun q => ObjectInit.answer p n q).run (scope.enter s) with
    | error => rfl
    | ok r =>
      rw [hr] at ended
      exact ih r.1 ended

/-- Where a contract forbids the class bodies of an object, none is started. -/
theorem silent (kept : C.Kept p smaller) {a : Addr} (never : ∀ c s, ¬C.pre (.body c a) s)
    (n : Nat) {q : Query β} (h : C.pre q s) : q.bodyEvents p a n s = [] := by
  induction n generalizing β s with
  | zero => rfl
  | succ n ih =>
    have inside : (q.plan p).visits p n (fun r t => Query.bodyEvents p a n r t) s = [] :=
      kept.visits_eq_nil (fun q s hq => ih hq) (kept q s h)
    rw [Query.bodyEvents, inside, List.append_nil]
    cases q with
    | body c this =>
      have other : this ≠ a := by
        rintro rfl
        exact never c s h
      simp only [Query.eventsBefore, Query.eventsAfter, if_neg other, List.nil_append]
      split <;> rfl
    | _ => rfl

/-- A plan that obeys such a contract ends as wanted, and no class body of the object is started. -/
theorem passes (kept : C.Kept p smaller) {a : Addr} (never : ∀ c s, ¬C.pre (.body c a) s)
    {x : Plan α} {want : α → Store → Prop} (h : x.Obeys p (C.only allowed) s want) :
    x.Passes p n (fun r t => r.bodyEvents p a n t) s fun b t l => want b t ∧ l = [] := by
  intro b t ends
  refine ⟨?_, kept.visits_eq_nil (fun q s hq => kept.silent never n hq) h⟩
  have ended := run_endsWell (n := n) (fun q s hq => kept.answer n hq) h
  rw [Plan.Ends] at ends
  rwa [ends] at ended

end Contract.Kept

end ObjectInit
