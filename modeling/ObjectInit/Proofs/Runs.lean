import ObjectInit.Analysis.Answer
import ObjectInit.Program.Command
import ObjectInit.Program.Linearization

/-!
# Runs that come to an end

`Plan.Ends` says that a plan is carried out to its end, with which answer and in which store;
`Query.Answered` says the same of a question, whatever depth it takes. Both are read off the parts
of a plan with the rewriting lemmas below, so proofs about the analysis follow its plans step by
step and never unfold how a plan is carried out.

Main results:

* `Plan.ends_bind`, `Plan.ends_ask`, `Plan.ends_within`: how the end of a plan is put together.
* `Query.Answered.unique`: a question has at most one answer in a store.
* `Plan.meets_bind`: the same for plans that are known to end in a given way.
-/

namespace ObjectInit

/-- Carried out in `s`, with questions nested up to the depth `n`, the plan ends with the answer `a`
    in the store `s'`. -/
def Plan.Ends {α : Type} (p : Program) (n : Nat) (x : Plan α) (s : Store) (a : α) (s' : Store) :
    Prop :=
  (x.run fun q => answer p n q).run s = .ok (a, s')

/-- Asked in `s`, with questions nested up to the depth `n`, the question is answered by `b`, and
    the store is `s'` afterwards. -/
def Query.Ends {β : Type} (p : Program) (n : Nat) (q : Query β) (s : Store) (b : β) (s' : Store) :
    Prop :=
  (answer p n q).run s = .ok (b, s')

/-- The question is answered within some depth. -/
def Query.Answered {β : Type} (p : Program) (q : Query β) (s : Store) (b : β) (s' : Store) : Prop :=
  ∃ n, q.Ends p n s b s'

variable {p : Program} {n : Nat} {α β : Type} {s s' : Store}

/-! ## Questions -/

@[simp] theorem Query.ends_zero {q : Query β} {b : β} : ¬ q.Ends p 0 s b s' := nofun

@[simp] theorem Query.ends_succ {q : Query β} {b : β} :
    q.Ends p (n + 1) s b s' ↔ (q.plan p).Ends p n s b s' := Iff.rfl

theorem Query.Ends.mono {q : Query β} {b : β} (h : q.Ends p n s b s') {m : Nat} (hnm : n ≤ m) :
    q.Ends p m s b s' := by
  rw [Query.Ends, answer_extends p hnm q s]
  · exact h
  · rw [h]
    nofun

/-- A question has at most one answer in a store. -/
theorem Query.Answered.unique {q : Query β} {b c : β} {t : Store} (h : q.Answered p s b s')
    (h' : q.Answered p s c t) : b = c ∧ s' = t := by
  obtain ⟨n, hn⟩ := h
  obtain ⟨m, hm⟩ := h'
  have hn' := hn.mono (Nat.le_max_left n m)
  have hm' := hm.mono (Nat.le_max_right n m)
  rw [Query.Ends, hn'] at hm'
  cases hm'
  exact ⟨rfl, rfl⟩

/-! ### Answers that are computed -/

/-- The answer to a question and the store afterwards, if the depth is enough for one. -/
def Query.result? (p : Program) (n : Nat) (q : Query β) (s : Store) : Option (β × Store) :=
  ((answer p n q).run s).toOption

/-- The store after an answer that is computed. -/
def Query.storeAfter (p : Program) (n : Nat) (q : Query β) (s : Store) : Store :=
  ((q.result? p n s).map (·.2)).getD s

/-- An answer that is computed and passes a test is an answer that passes it. -/
theorem Query.ends_of_result? {q : Query β} (test : β → Bool)
    (h : (q.result? p n s).any (test ·.1)) :
    ∃ b, q.Ends p n s b (q.storeAfter p n s) ∧ test b := by
  unfold storeAfter
  cases hr : (answer p n q).run s with
  | error e =>
    rw [result?, hr] at h
    cases h
  | ok r =>
    rw [result?, hr] at h
    rw [result?, hr]
    exact ⟨r.1, hr, h⟩

theorem Query.answered_of_result? {q : Query β} (test : β → Bool)
    (h : (q.result? p n s).any (test ·.1)) :
    ∃ b, q.Answered p s b (q.storeAfter p n s) ∧ test b := by
  obtain ⟨b, hb, hbt⟩ := ends_of_result? test h
  exact ⟨b, ⟨n, hb⟩, hbt⟩

/-- The change that the heap refuses on the way of a question, if the depth is enough to get
    there. -/
def Query.fault? (p : Program) (n : Nat) (q : Query β) (s : Store) : Option HeapFault :=
  match (answer p n q).run s with
  | .error (.fault f) => some f
  | _ => none

/-- A question has no answer where the heap refuses a change. -/
theorem Query.not_answered_of_fault? {q : Query β} {f : HeapFault} (h : q.fault? p n s = some f)
    {b : β} : ¬q.Answered p s b s' := by
  rintro ⟨m, hm⟩
  have refused : (answer p n q).run s = .error (.fault f) := by
    unfold fault? at h
    split at h
    · next hr =>
      cases h
      exact hr
    · cases h
  have later := answer_extends p (Nat.le_max_left n m) q s (by rw [refused]; nofun)
  have answered := hm.mono (Nat.le_max_right n m)
  rw [Query.Ends, later, refused] at answered
  cases answered

/-- The completed program that the commands build, if none of them is refused. -/
def Program.ofCommands (commands : List Command) : Program :=
  match (Command.runAll commands).run .initial with
  | .ok (_, q) => q.finish
  | .error _ => default

/-- What holds of all symbols in the table and of the default one holds of every symbol. -/
theorem Program.symbol_of_all (test : Symbol → Bool) (h : p.symbols.all test)
    (hdefault : test default) (s : SymbolId) : test (p.symbol s) := by
  rw [Array.all_eq_true] at h
  unfold Program.symbol Array.getD
  split
  next hs => exact h _ hs
  next => exact hdefault

/-! ## Changes of the heap -/

theorem Run.changeHeap_eq_ok (change : Heap → Except HeapFault Heap) {u : Unit} :
    (Run.changeHeap change).run s = .ok (u, s') ↔
      ∃ heap, change s.heap = .ok heap ∧ s' = { s with heap } := by
  unfold Run.changeHeap
  simp only [StateT.run]
  cases change s.heap with
  | ok heap =>
    constructor
    · intro h
      cases h
      exact ⟨heap, rfl, rfl⟩
    · rintro ⟨_, ⟨rfl⟩, rfl⟩
      rfl
  | error fault =>
    constructor
    · intro h
      cases h
    · rintro ⟨_, h, -⟩
      cases h

namespace Effect

variable {a : Addr} {u : Unit}

theorem run_allocate {o : Object} :
    (allocate a o).run.run s = .ok (u, s') ↔
      ∃ heap, s.heap.allocate a o = .ok heap ∧ s' = { s with heap } :=
  Run.changeHeap_eq_ok (·.allocate a o)

theorem run_setField {f : SymbolId} {v : Value} :
    (setField a f v).run.run s = .ok (u, s') ↔
      ∃ heap, s.heap.setField a f v = .ok heap ∧ s' = { s with heap } :=
  Run.changeHeap_eq_ok (·.setField a f v)

theorem run_setOuter {c : ClassId} {v : Value} :
    (setOuter a c v).run.run s = .ok (u, s') ↔
      ∃ heap, s.heap.setOuter a c v = .ok heap ∧ s' = { s with heap } :=
  Run.changeHeap_eq_ok (·.setOuter a c v)

theorem run_creationOf {w : Warm} {creation : Creation} :
    (creationOf w).run.run s = .ok (creation, s') ↔
      s.heap.creation? w = some creation ∧ s' = s := by
  unfold Effect.run
  simp only [StateT.run_bind, StateT.run_get, pure_bind]
  cases s.heap.creation? w with
  | none =>
    constructor
    · intro h
      cases h
    · rintro ⟨h, -⟩
      cases h
  | some creation' =>
    constructor
    · intro h
      cases h
      exact ⟨rfl, rfl⟩
    · rintro ⟨⟨rfl⟩, rfl⟩
      rfl

end Effect

/-! ## Plans -/

namespace Plan

theorem Ends.mono {x : Plan α} {a : α} (h : x.Ends p n s a s') {m : Nat} (hnm : n ≤ m) :
    x.Ends p m s a s' := by
  rw [Ends, run_extends (fun q => answer_extends p hnm q) x s]
  · exact h
  · rw [Ends] at h
    rw [h]
    nofun

/-- A plan ends in one way, whatever depth it takes. -/
theorem Ends.unique {x : Plan α} {a a' : α} {m : Nat} {t : Store} (h : x.Ends p n s a s')
    (h' : x.Ends p m s a' t) : a = a' ∧ s' = t := by
  have h := h.mono (Nat.le_max_left n m)
  have h' := h'.mono (Nat.le_max_right n m)
  rw [Ends, h] at h'
  cases h'
  exact ⟨rfl, rfl⟩

@[simp] theorem ends_pure {a b : α} : (Pure.pure a : Plan α).Ends p n s b s' ↔ b = a ∧ s' = s := by
  change (Except.ok (a, s) : Except Halt (α × Store)) = .ok (b, s') ↔ _
  simp [eq_comm]

@[simp] theorem ends_bind {x : Plan α} {f : α → Plan β} {b : β} :
    (x >>= f).Ends p n s b s' ↔ ∃ a t, x.Ends p n s a t ∧ (f a).Ends p n t b s' := by
  rw [Ends, run_bind, StateT.run_bind]
  cases h : (x.run fun q => answer p n q).run s with
  | error e =>
    constructor
    · nofun
    · rintro ⟨a, t, hx, -⟩
      rw [Ends, h] at hx
      cases hx
  | ok r =>
    obtain ⟨a, t⟩ := r
    constructor
    · exact fun hf => ⟨a, t, h, hf⟩
    · rintro ⟨a', t', hx, hf⟩
      rw [Ends, h] at hx
      cases hx
      exact hf

@[simp] theorem ends_map {x : Plan α} {f : α → β} {b : β} :
    (f <$> x).Ends p n s b s' ↔ ∃ a, x.Ends p n s a s' ∧ b = f a := by
  rw [map_eq_pure_bind, ends_bind]
  constructor
  · rintro ⟨a, t, hx, hb⟩
    obtain ⟨rfl, rfl⟩ := ends_pure.1 hb
    exact ⟨a, hx, rfl⟩
  · rintro ⟨a, hx, rfl⟩
    exact ⟨a, s', hx, ends_pure.2 ⟨rfl, rfl⟩⟩

theorem ends_lift_bind (x : Run α) :
    (x >>= fun a => (Plan.pure a).run fun q => answer p n q) = x := bind_pure x

@[simp] theorem ends_ask {q : Query β} {b : β} :
    (liftM q : Plan β).Ends p n s b s' ↔ q.Ends p n s b s' := by
  change ((answer p n q >>= fun a => (Plan.pure a).run fun q => answer p n q) : Run β).run s = _ ↔ _
  rw [ends_lift_bind]
  rfl

theorem ends_perform {effect : Effect β} {b : β} :
    (liftM effect : Plan β).Ends p n s b s' ↔ effect.run.run s = .ok (b, s') := by
  change ((effect.run >>= fun a => (Plan.pure a).run fun q => answer p n q) : Run β).run s = _ ↔ _
  rw [ends_lift_bind]

theorem ends_ask_next {q : Query β} {next : β → Plan α} {a : α} :
    (Plan.ask q next).Ends p n s a s' ↔ ∃ b t, q.Ends p n s b t ∧ (next b).Ends p n t a s' := by
  change ((liftM q : Plan β) >>= next).Ends p n s a s' ↔ _
  simp only [ends_bind, ends_ask]

theorem ends_perform_next {effect : Effect β} {next : β → Plan α} {a : α} :
    (Plan.perform effect next).Ends p n s a s' ↔
      ∃ b t, effect.run.run s = .ok (b, t) ∧ (next b).Ends p n t a s' := by
  change ((liftM effect : Plan β) >>= next).Ends p n s a s' ↔ _
  simp only [ends_bind, ends_perform]

theorem ends_within {scope : Scope β} {part : Plan β} {next : β → Plan α} {a : α} :
    (Plan.within scope part next).Ends p n s a s' ↔
      ∃ b t, part.Ends p n (scope.enter s) b t ∧
        (next b).Ends p n (scope.leave s.toContext b t) a s' := by
  change (StateT.run (do
    let before := (← get).toContext
    modify scope.enter
    let b ← part.run fun q => answer p n q
    modify (scope.leave before b)
    (next b).run fun q => answer p n q : Run α) s) = _ ↔ _
  simp only [StateT.run_bind, StateT.run_get, StateT.run_modify, pure_bind]
  cases h : (part.run fun q => answer p n q).run (scope.enter s) with
  | error e =>
    constructor
    · nofun
    · rintro ⟨b, t, hp, -⟩
      rw [Ends, h] at hp
      cases hp
  | ok r =>
    obtain ⟨b, t⟩ := r
    constructor
    · exact fun hn => ⟨b, t, h, hn⟩
    · rintro ⟨b', t', hp, hn⟩
      rw [Ends, h] at hp
      cases hp
      exact hn

/-! ### Effects and scopes -/

@[simp] theorem ends_look {a : Store} :
    (liftM Effect.look : Plan Store).Ends p n s a s' ↔ a = s ∧ s' = s := by
  rw [ends_perform]
  change (Except.ok (s, s) : Except Halt (Store × Store)) = .ok (a, s') ↔ _
  simp [eq_comm]

@[simp] theorem ends_look_bind {f : Store → Plan β} {b : β} :
    ((liftM Effect.look : Plan Store) >>= f).Ends p n s b s' ↔ (f s).Ends p n s b s' := by
  rw [ends_bind]
  constructor
  · rintro ⟨a, t, ha, hf⟩
    obtain ⟨rfl, rfl⟩ := ends_look.1 ha
    exact hf
  · exact fun hf => ⟨s, s, ends_look.2 ⟨rfl, rfl⟩, hf⟩

@[simp] theorem ends_raise {error : Place → SafetyError} {source : Span} {e : SafetyError} :
    (liftM (Effect.raise error source) : Plan SafetyError).Ends p n s e s' ↔
      e = error ⟨source, s.trace.toList⟩ ∧ s' = s := by
  rw [ends_perform]
  change (Except.ok (error ⟨source, s.trace.toList⟩, s) : Except Halt (SafetyError × Store)) =
    .ok (e, s') ↔ _
  simp [eq_comm]

@[simp] theorem ends_inEnv {env : Env} {part : Plan α} {a : α} :
    (inEnv env part).Ends p n s a s' ↔
      ∃ t, part.Ends p n { s with env := env } a t ∧ s' = { t with env := s.env } := by
  rw [inEnv, ends_within]
  constructor
  · rintro ⟨b, t, hp, hb⟩
    obtain ⟨rfl, rfl⟩ := ends_pure.1 hb
    exact ⟨t, hp, rfl⟩
  · rintro ⟨t, hp, rfl⟩
    exact ⟨a, t, hp, ends_pure.2 ⟨rfl, rfl⟩⟩

@[simp] theorem ends_inTrace {trace : Trace} {part : Plan α} {a : α} :
    (inTrace trace part).Ends p n s a s' ↔
      ∃ t, part.Ends p n { s with trace := trace } a t ∧ s' = { t with trace := s.trace } := by
  rw [inTrace, ends_within]
  constructor
  · rintro ⟨b, t, hp, hb⟩
    obtain ⟨rfl, rfl⟩ := ends_pure.1 hb
    exact ⟨t, hp, rfl⟩
  · rintro ⟨t, hp, rfl⟩
    exact ⟨a, t, hp, ends_pure.2 ⟨rfl, rfl⟩⟩

@[simp] theorem ends_calledFrom {source : Span} {part : Plan α} {a : α} :
    (calledFrom source part).Ends p n s a s' ↔
      ∃ t, part.Ends p n { s with trace := s.trace.add source } a t ∧
        s' = { t with trace := s.trace } := by
  rw [calledFrom, ends_look_bind, ends_inTrace]

@[simp] theorem ends_fail {error : Place → SafetyError} {source : Span} {o : Outcome} :
    (fail error source).Ends p n s o s' ↔
      o = .ofErrors [error ⟨source, s.trace.toList⟩] ∧ s' = s := by
  rw [fail, bind_pure_comp, ends_map]
  constructor
  · rintro ⟨e, he, rfl⟩
    obtain ⟨rfl, rfl⟩ := ends_raise.1 he
    exact ⟨rfl, rfl⟩
  · rintro ⟨rfl, rfl⟩
    exact ⟨_, ends_raise.2 ⟨rfl, rfl⟩, rfl⟩

/-! ### Parts for each element -/

theorem errorsOfEach_cons {x : α} {xs : List α} {f : α → Plan (List SafetyError)} :
    errorsOfEach (x :: xs) f =
      f x >>= fun es => errorsOfEach xs f >>= fun es' => Pure.pure (es ++ es') := by
  simp [errorsOfEach, List.mapM_cons, map_bind]

@[simp] theorem ends_errorsOfEach_cons {x : α} {xs : List α} {f : α → Plan (List SafetyError)}
    {es : List SafetyError} :
    (errorsOfEach (x :: xs) f).Ends p n s es s' ↔
      ∃ es₁ t es₂, (f x).Ends p n s es₁ t ∧ (errorsOfEach xs f).Ends p n t es₂ s' ∧
        es = es₁ ++ es₂ := by
  simp only [errorsOfEach, List.mapM_cons, ends_map, ends_bind, ends_pure]
  constructor
  · rintro ⟨_, ⟨es₁, t, hx, ess, _, hxs, rfl, rfl⟩, rfl⟩
    exact ⟨es₁, t, ess.flatten, hx, ⟨ess, hxs, rfl⟩, rfl⟩
  · rintro ⟨es₁, t, _, hx, ⟨ess, hxs, rfl⟩, rfl⟩
    exact ⟨es₁ :: ess, ⟨es₁, t, hx, ess, s', hxs, rfl, rfl⟩, rfl⟩

/-- Plans that find no errors and change nothing do so for a whole list. -/
theorem exists_ends_errorsOfEach_nil {xs : List α} {f : α → Plan (List SafetyError)}
    (h : ∀ x ∈ xs, ∃ n, (f x).Ends p n s [] s) : ∃ n, (errorsOfEach xs f).Ends p n s [] s := by
  induction xs with
  | nil => exact ⟨0, ends_pure.2 ⟨rfl, rfl⟩⟩
  | cons x xs ih =>
    obtain ⟨n, hx⟩ := h x List.mem_cons_self
    obtain ⟨m, hxs⟩ := ih fun y hy => h y (List.mem_cons_of_mem x hy)
    exact ⟨max n m, ends_errorsOfEach_cons.2
      ⟨[], s, [], hx.mono (Nat.le_max_left n m), hxs.mono (Nat.le_max_right n m), rfl⟩⟩

/-! ### Checks -/

/-- The check of a class with a template evaluates the template on the object under construction, in
    a call from the class. -/
theorem exists_ends_of_check {c : ClassId} {ctor : SymbolId} {e : ExprId}
    (hctor : (p.cls c).primaryConstructor = some ctor) (hbody : (p.symbol ctor).body = some e)
    {es : List SafetyError} (h : (check p c).Ends p n s es s') :
    ∃ (u : Store) (env : Env) (o : Outcome) (t : Store), u.trace = s.trace.add (p.cls c).span ∧
      (Query.eval e ⟨.thisOf c, c⟩ true).Ends p n u o t ∧ es = o.errors ∧
      s' = { t with env := env, trace := s.trace } := by
  have allocated : ∃ (v : Store) (env : Env), v.trace = s.trace ∧ (do
      let o ← inEnv env (calledFrom (p.cls c).span (Query.eval e ⟨.thisOf c, c⟩ true))
      return o.errors : Plan _).Ends p n v es s' := by
    simp only [check, hctor, hbody, ends_look_bind] at h
    split at h
    · exact ⟨s, _, rfl, h⟩
    · obtain ⟨_, v, hv, h⟩ := ends_bind.1 h
      obtain ⟨heap, -, rfl⟩ := Effect.run_allocate.1 (ends_perform.1 hv)
      exact ⟨{ s with heap := heap }, _, rfl, h⟩
  obtain ⟨v, env, trace, constructed⟩ := allocated
  rw [bind_pure_comp, ends_map] at constructed
  obtain ⟨o, hinside, rfl⟩ := constructed
  obtain ⟨w, hcall, rfl⟩ := ends_inEnv.1 hinside
  obtain ⟨t, heval, rfl⟩ := ends_calledFrom.1 hcall
  rw [← trace]
  exact ⟨_, v.env, o, t, rfl, ends_ask.1 heval, rfl, rfl⟩

/-! ## Plans that end as wanted -/

/-- Within some depth the plan comes to an end, and the answer and the store are as wanted. -/
def Meets (p : Program) (x : Plan α) (s : Store) (want : α → Store → Prop) : Prop :=
  ∃ n a s', x.Ends p n s a s' ∧ want a s'

variable {want : α → Store → Prop}

theorem Meets.imp {x : Plan α} {want' : α → Store → Prop} (h : x.Meets p s want)
    (hw : ∀ a t, want a t → want' a t) : x.Meets p s want' := by
  obtain ⟨n, a, t, hx, ha⟩ := h
  exact ⟨n, a, t, hx, hw a t ha⟩

theorem meets_pure {a : α} (h : want a s) : (Pure.pure a : Plan α).Meets p s want :=
  ⟨0, a, s, ends_pure.2 ⟨rfl, rfl⟩, h⟩

/-- The depths of both parts are enough for the whole. -/
theorem meets_bind {x : Plan β} {f : β → Plan α}
    (h : x.Meets p s fun b t => (f b).Meets p t want) : (x >>= f).Meets p s want := by
  obtain ⟨n, b, t, hx, m, a, u, hf, ha⟩ := h
  exact ⟨max n m, a, u, ends_bind.2
    ⟨b, t, hx.mono (Nat.le_max_left n m), hf.mono (Nat.le_max_right n m)⟩, ha⟩

theorem meets_map {x : Plan β} {f : β → α} (h : x.Meets p s fun b t => want (f b) t) :
    (f <$> x).Meets p s want := by
  rw [map_eq_pure_bind]
  exact meets_bind (h.imp fun b t hb => meets_pure hb)

/-- A question ends as its plan does. -/
theorem meets_ask {q : Query α} (h : (q.plan p).Meets p s want) :
    (liftM q : Plan α).Meets p s want := by
  obtain ⟨n, a, t, hq, ha⟩ := h
  exact ⟨n + 1, a, t, ends_ask.2 (Query.ends_succ.2 hq), ha⟩

theorem meets_perform {effect : Effect α} {a : α} {t : Store}
    (h : effect.run.run s = .ok (a, t)) (ha : want a t) :
    (liftM effect : Plan α).Meets p s want :=
  ⟨0, a, t, ends_perform.2 h, ha⟩

theorem meets_look_bind {f : Store → Plan α} (h : (f s).Meets p s want) :
    ((liftM Effect.look : Plan Store) >>= f).Meets p s want := by
  obtain ⟨n, a, t, hf, ha⟩ := h
  exact ⟨n, a, t, ends_look_bind.2 hf, ha⟩

theorem meets_within {scope : Scope α} {part : Plan α}
    (h : part.Meets p (scope.enter s) fun a t => want a (scope.leave s.toContext a t)) :
    (Plan.within scope part .pure).Meets p s want := by
  obtain ⟨n, a, t, hp, ha⟩ := h
  exact ⟨n, a, _, ends_within.2 ⟨a, t, hp, ends_pure.2 ⟨rfl, rfl⟩⟩, ha⟩

theorem meets_inEnv {env : Env} {part : Plan α}
    (h : part.Meets p { s with env := env } fun a t => want a { t with env := s.env }) :
    (inEnv env part).Meets p s want :=
  meets_within h

theorem meets_calledFrom {source : Span} {part : Plan α}
    (h : part.Meets p { s with trace := s.trace.add source }
      fun a t => want a { t with trace := s.trace }) :
    (calledFrom source part).Meets p s want :=
  meets_look_bind (meets_within h)

end Plan

/-! ## The instance that code runs on -/

/-- The code of a class lies inside the class. -/
theorem Program.isInside_self (p : Program) (c : ClassId) : p.isInside c c = true := by
  rw [isInside]
  cases p.classes.size with
  | zero => exact beq_self_eq_true c
  | succ n => rw [reaches, beq_self_eq_true, Bool.true_or]

/-- In the code of a class, its instance is at hand. -/
theorem Query.plan_enclosingInstance_self (c : ClassId) (v : Value) (source : Span) :
    (Query.enclosingInstance c v c source).plan p = .pure v :=
  if_pos rfl

theorem Plan.evalPath_own (frame : Frame) (source : Span) :
    evalPath p frame source (.thisOf frame.cls) = (do
      return .ofValue (← Query.enclosingInstance frame.cls (.ref frame.receiver) frame.cls
        source) : Plan Outcome) := by
  rw [evalPath, p.isInside_self, Bool.not_true, Bool.and_false, if_neg Bool.false_ne_true]

end ObjectInit
