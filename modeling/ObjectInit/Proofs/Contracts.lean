import ObjectInit.Proofs.Ways

/-!
# Contracts

A contract says which questions may be asked in a store, what their answers promise, and in which
ways the heap may refuse a change. A plan obeys a contract (`Plan.Obeys`) if it asks such questions
only and relies on no more than what is promised; where the plans of all questions obey a contract
and keep its promises, so do their answers.

Main results:

* `Plan.obeys_bind`: how a plan that obeys is put together.
* `Contract.Kept.answer`: what plans promise holds of the answers.
* `Contract.Kept.halts`: if every question on the way is smaller than the one that leads to it, then
  the questions are not nested without end.
-/

namespace ObjectInit

/-- What the answers to questions rely on, and what they promise. -/
structure Contract where
  /-- The question may be asked in this store. -/
  pre : {β : Type} → Query β → Store → Prop
  /-- The answer and the store afterwards are as promised. -/
  post : {β : Type} → Query β → Store → β → Store → Prop
  /-- The heap may refuse a change in this way. -/
  fault : HeapFault → Prop

/-- The same contract for a plan that may ask only some of the questions. -/
def Contract.only (C : Contract) (allowed : {β : Type} → Query β → Store → Prop) : Contract where
  pre q s := C.pre q s ∧ allowed q s
  post := C.post
  fault := C.fault

/-- Carried out in the store `s`, the plan asks only what it may, and it ends as `want` says if the
    answers are as promised. -/
def Plan.Obeys (p : Program) (C : Contract) :
    {α : Type} → Plan α → Store → (α → Store → Prop) → Prop
  | _, .pure a, s, want => want a s
  | _, .ask q next, s, want =>
    C.pre q s ∧ ∀ b t, q.Answered p s b t → C.post q s b t → Plan.Obeys p C (next b) t want
  | _, .perform effect next, s, want =>
    (∀ fault, effect.run.run s = .error (.fault fault) → C.fault fault) ∧
      ∀ b t, effect.run.run s = .ok (b, t) → Plan.Obeys p C (next b) t want
  | _, .within scope part next, s, want =>
    Plan.Obeys p C part (scope.enter s) fun b t =>
      Plan.Obeys p C (next b) (scope.leave s.toContext b t) want

variable {p : Program} {C : Contract} {α β : Type} {s s' : Store}

namespace Plan

variable {want : α → Store → Prop}

theorem Obeys.imp {x : Plan α} {want' : α → Store → Prop} (h : x.Obeys p C s want)
    (hw : ∀ a t, want a t → want' a t) : x.Obeys p C s want' := by
  induction x generalizing s with
  | pure => exact hw _ _ h
  | ask q next ih => exact ⟨h.1, fun b t hb hpost => ih b (h.2 b t hb hpost) hw⟩
  | perform effect next ih => exact ⟨h.1, fun b t hb => ih b (h.2 b t hb) hw⟩
  | within scope part next ihPart ih => exact ihPart h fun b t hb => ih b hb hw

/-- What is known in any number of ways is known in all of them. -/
theorem Obeys.all {ι : Type*} [Nonempty ι] {x : Plan α} {want : ι → α → Store → Prop}
    (h : ∀ i, x.Obeys p C s (want i)) : x.Obeys p C s fun a t => ∀ i, want i a t := by
  induction x generalizing s with
  | pure => exact h
  | ask q next ih =>
    exact ⟨(h (Classical.arbitrary ι)).1, fun b t hb hpost => ih b fun i => (h i).2 b t hb hpost⟩
  | perform effect next ih =>
    exact ⟨(h (Classical.arbitrary ι)).1, fun b t hb => ih b fun i => (h i).2 b t hb⟩
  | within scope part next ihPart ih =>
    exact (ihPart h).imp fun b t hb => ih b hb

@[simp] theorem obeys_pure {a : α} :
    (Pure.pure a : Plan α).Obeys p C s want ↔ want a s := Iff.rfl

@[simp] theorem obeys_bind {x : Plan β} {f : β → Plan α} :
    (x >>= f).Obeys p C s want ↔ x.Obeys p C s fun b t => (f b).Obeys p C t want := by
  change (x.bind f).Obeys p C s want ↔ _
  induction x generalizing s with
  | pure => exact Iff.rfl
  | ask q next ih =>
    simp only [Plan.bind, Obeys, ih]
  | perform effect next ih =>
    simp only [Plan.bind, Obeys, ih]
  | within scope part next _ ih =>
    simp only [Plan.bind, Obeys, ih]

@[simp] theorem obeys_map {x : Plan β} {f : β → α} :
    (f <$> x).Obeys p C s want ↔ x.Obeys p C s fun b t => want (f b) t := by
  rw [map_eq_pure_bind, obeys_bind]
  rfl

@[simp] theorem obeys_ask {q : Query α} :
    (liftM q : Plan α).Obeys p C s want ↔
      C.pre q s ∧ ∀ b t, q.Answered p s b t → C.post q s b t → want b t := Iff.rfl

theorem obeys_perform {effect : Effect α} :
    (liftM effect : Plan α).Obeys p C s want ↔
      (∀ fault, effect.run.run s = .error (.fault fault) → C.fault fault) ∧
        ∀ b t, effect.run.run s = .ok (b, t) → want b t := Iff.rfl

theorem obeys_within {scope : Scope β} {part : Plan β} {next : β → Plan α} :
    (Plan.within scope part next).Obeys p C s want ↔
      part.Obeys p C (scope.enter s) fun b t =>
        (next b).Obeys p C (scope.leave s.toContext b t) want := Iff.rfl

/-- An effect that is not refused. -/
theorem obeys_perform_of_ok {effect : Effect α} {a : α} {t : Store}
    (run : effect.run.run s = .ok (a, t)) :
    (liftM effect : Plan α).Obeys p C s want ↔ want a t := by
  rw [obeys_perform, run]
  constructor
  · exact fun h => h.2 a t rfl
  · intro h
    refine ⟨fun f hf => (by cases hf), fun b u hu => ?_⟩
    cases hu
    exact h

@[simp] theorem obeys_look_bind {f : Store → Plan α} :
    ((liftM Effect.look : Plan Store) >>= f).Obeys p C s want ↔ (f s).Obeys p C s want := by
  rw [obeys_bind, obeys_perform_of_ok (a := s) (t := s) rfl]

@[simp] theorem obeys_inEnv {env : Env} {part : Plan α} :
    (inEnv env part).Obeys p C s want ↔
      part.Obeys p C { s with env := env } fun a t => want a { t with env := s.env } := Iff.rfl

@[simp] theorem obeys_inTrace {trace : Trace} {part : Plan α} :
    (inTrace trace part).Obeys p C s want ↔
      part.Obeys p C { s with trace := trace } fun a t => want a { t with trace := s.trace } :=
  Iff.rfl

@[simp] theorem obeys_calledFrom {source : Span} {part : Plan α} :
    (calledFrom source part).Obeys p C s want ↔
      part.Obeys p C { s with trace := s.trace.add source }
        fun a t => want a { t with trace := s.trace } := by
  rw [calledFrom, obeys_look_bind, obeys_inTrace]

@[simp] theorem obeys_raise {error : Place → SafetyError} {source : Span}
    {want : SafetyError → Store → Prop} :
    (liftM (Effect.raise error source) : Plan SafetyError).Obeys p C s want ↔
      want (error ⟨source, s.trace.toList⟩) s :=
  obeys_perform_of_ok rfl

@[simp] theorem obeys_fail {error : Place → SafetyError} {source : Span}
    {want : Outcome → Store → Prop} :
    (fail error source).Obeys p C s want ↔
      want (.ofErrors [error ⟨source, s.trace.toList⟩]) s := by
  rw [fail, obeys_bind, obeys_raise]
  rfl

@[simp] theorem obeys_report {message : String} {source : Span} {want : Unit → Store → Prop} :
    (report message source).Obeys p C s want ↔
      want () { s with diagnostics := s.diagnostics ++ [⟨message, source⟩] } :=
  obeys_perform_of_ok rfl

end Plan

/-! ## Promises that are kept -/

/-- The plans of all questions obey the contract and end as it promises. Each may only ask what is
    smaller than its own question. -/
def Contract.Kept (p : Program) (C : Contract)
    (smaller : {γ : Type} → Query γ → Store → {β : Type} → Query β → Store → Prop) : Prop :=
  ∀ {γ : Type} (q : Query γ) (s : Store), C.pre q s →
    (q.plan p).Obeys p (C.only (smaller q s)) s (C.post q s)

/-- All questions may be asked on the way. -/
def Query.Free {γ : Type} (_ : Query γ) (_ : Store) {β : Type} (_ : Query β) (_ : Store) : Prop :=
  True

/-- The run of a plan ends as wanted, or it is refused a change in a way that is permitted, or its
    questions are nested too deeply. -/
def Contract.EndsWell (C : Contract) (want : α → Store → Prop) : Except Halt (α × Store) → Prop
  | .ok (a, t) => want a t
  | .error (.fault fault) => C.fault fault
  | .error .depth => True

/-- A scope by itself changes the store before its part and after it. -/
theorem Plan.run_scope {answer : {γ : Type} → Query γ → Run γ} (scope : Scope β) (part : Plan β) :
    ((Plan.within scope part .pure).run answer).run s =
      ((part.run answer).run (scope.enter s)).map
        fun x => (x.1, scope.leave s.toContext x.1 x.2) := by
  change (StateT.run (do
    let before := (← get).toContext
    modify scope.enter
    let b ← part.run answer
    modify (scope.leave before b)
    return b : Run β) s) = _
  simp only [StateT.run_bind, StateT.run_get, StateT.run_modify, pure_bind]
  cases (part.run answer).run (scope.enter s) <;> rfl

namespace Contract

variable {want : α → Store → Prop}

theorem EndsWell.imp {want' : α → Store → Prop} {x : Except Halt (α × Store)}
    (h : C.EndsWell want x) (hw : ∀ a t, x = .ok (a, t) → want a t → want' a t) :
    C.EndsWell want' x := by
  cases x with
  | ok r => exact hw r.1 r.2 rfl h
  | error halt =>
    cases halt with
    | fault f => exact h
    | depth => trivial

theorem EndsWell.bind {x : Run β} {f : β → Run α}
    (h : C.EndsWell (fun b t => C.EndsWell want ((f b).run t)) (x.run s)) :
    C.EndsWell want ((x >>= f).run s) := by
  rw [StateT.run_bind]
  cases hx : x.run s with
  | ok r =>
    rw [hx] at h
    exact h
  | error halt =>
    rw [hx] at h
    cases halt with
    | fault f => exact h
    | depth => trivial

theorem EndsWell.map {γ : Type} {x : Except Halt (γ × Store)} {f : γ × Store → α × Store}
    (h : C.EndsWell (fun c t => want (f (c, t)).1 (f (c, t)).2) x) : C.EndsWell want (x.map f) := by
  cases x with
  | ok r => exact h
  | error halt =>
    cases halt with
    | fault f => exact h
    | depth => trivial

namespace Kept

variable {smaller : {γ : Type} → Query γ → Store → {β : Type} → Query β → Store → Prop}
  {allowed : {β : Type} → Query β → Store → Prop} {n : Nat}

/-- A plan that obeys the contract ends well if the answers to its questions do. -/
theorem run_endsWell
    (answers : ∀ {β : Type} (q : Query β) s, C.pre q s →
      C.EndsWell (C.post q s) ((answer p n q).run s))
    {x : Plan α} (h : x.Obeys p (C.only allowed) s want) :
    C.EndsWell want ((x.run fun q => answer p n q).run s) := by
  induction x generalizing s with
  | pure => exact h
  | ask q next ih =>
    exact .bind <| (answers q s h.1.1).imp fun b t hr hb => ih b (h.2 b t ⟨n, hr⟩ hb)
  | perform effect next ih =>
    refine .bind ?_
    cases hr : effect.run.run s with
    | ok r => exact ih r.1 (h.2 r.1 r.2 hr)
    | error halt =>
      cases halt with
      | fault f => exact h.1 f hr
      | depth => trivial
  | within scope part next ihPart ih =>
    change C.EndsWell want (((Plan.within scope part .pure >>= next).run _).run s)
    rw [Plan.run_bind]
    refine .bind ?_
    rw [Plan.run_scope]
    exact .map <| (ihPart h).imp fun b t _ hb => ih b hb

/-- What the plans promise holds of the answers. -/
theorem answer (kept : C.Kept p smaller) (n : Nat) {q : Query β} (h : C.pre q s) :
    C.EndsWell (C.post q s) ((ObjectInit.answer p n q).run s) := by
  induction n generalizing β s with
  | zero => trivial
  | succ n ih => exact run_endsWell (fun q s hq => ih hq) (kept q s h)

theorem post_of_ends (kept : C.Kept p smaller) {q : Query β} {b : β} (h : C.pre q s)
    (ends : q.Ends p n s b s') : C.post q s b s' := by
  have := kept.answer n h
  rwa [ends] at this

end Kept

end Contract

/-! ## Nesting -/

/-- Within some depth the question is answered, or the heap refuses a change. -/
def Query.Halts (p : Program) (q : Query β) (s : Store) : Prop :=
  ∃ n, (answer p n q).run s ≠ .error .depth

/-- Within some depth the plan is carried out, or the heap refuses a change. -/
def Plan.Halts (p : Program) (x : Plan α) (s : Store) : Prop :=
  ∃ n, (x.run fun q => answer p n q).run s ≠ .error .depth

/-- A plan halts whose first part, which may depend on the depth, comes to an end and whose rest
    halts after it. -/
theorem Plan.halts_of_first {r : Nat → Run β} {f : β → Plan α}
    (extends_ : ∀ m n, m ≤ n → (r m).Extends (r n)) {n : Nat}
    (hn : (r n).run s ≠ .error .depth)
    (rest : ∀ b t, (r n).run s = .ok (b, t) → (f b).Halts p t) :
    ∃ n, (r n >>= fun b => (f b).run fun q => answer p n q).run s ≠ .error .depth := by
  cases hr : (r n).run s with
  | ok x =>
    obtain ⟨m, hm⟩ := rest x.1 x.2 hr
    refine ⟨max n m, ?_⟩
    have hfirst := extends_ n (max n m) (Nat.le_max_left n m) s hn
    have hrest :=
      Plan.run_extends (fun q => answer_extends p (Nat.le_max_right n m) q) (f x.1) x.2 hm
    rw [StateT.run_bind, hfirst, hr]
    exact fun h => hm (hrest.symm.trans h)
  | error halt =>
    refine ⟨n, ?_⟩
    rw [StateT.run_bind, hr]
    rw [hr] at hn
    exact fun h => hn (by cases h; rfl)

theorem Effect.run_ne_depth (effect : Effect β) : effect.run.run s ≠ .error .depth := by
  intro h
  cases effect with
  | allocate a o | setField a f v | setOuter a c v =>
    simp only [Effect.run, Run.changeHeap, StateT.run] at h
    split at h <;> cases h
  | creationOf w =>
    simp only [Effect.run, StateT.run_bind, StateT.run_get, pure_bind] at h
    cases hw : s.heap.creation? w with
    | none =>
      rw [hw] at h
      cases h
    | some creation =>
      rw [hw] at h
      cases h
  | _ => cases h

namespace Contract.Kept

variable {smaller : {γ : Type} → Query γ → Store → {β : Type} → Query β → Store → Prop}
  {allowed : {β : Type} → Query β → Store → Prop}

/-- A plan halts if the questions that it may ask do. -/
theorem plan_halts (kept : C.Kept p smaller)
    (asked : ∀ {β : Type} (q : Query β) s, C.pre q s → allowed q s → q.Halts p s)
    {want : α → Store → Prop} {x : Plan α} (h : x.Obeys p (C.only allowed) s want) :
    x.Halts p s := by
  induction x generalizing s with
  | pure a => exact ⟨0, nofun⟩
  | ask q next ih =>
    obtain ⟨n, hn⟩ := asked q s h.1.1 h.1.2
    refine Plan.halts_of_first (fun m n hmn => answer_extends p hmn q) hn fun b t hb => ?_
    exact ih b (h.2 b t ⟨n, hb⟩ (kept.post_of_ends h.1.1 hb))
  | perform effect next ih =>
    exact Plan.halts_of_first (r := fun _ => effect.run) (n := 0) (fun _ _ _ => .refl _)
      effect.run_ne_depth fun b t hb => ih b (h.2 b t hb)
  | within scope part next ihPart ih =>
    obtain ⟨n, hn⟩ := ihPart h
    have whole : (Plan.within scope part .pure >>= next).Halts p s := by
      unfold Plan.Halts
      simp only [Plan.run_bind]
      refine Plan.halts_of_first
        (r := fun n => (Plan.within scope part .pure).run fun q => ObjectInit.answer p n q)
        (fun m n hmn => Plan.run_extends (fun q => answer_extends p hmn q) _) (n := n) ?_ ?_
      · rw [Plan.run_scope]
        cases hr : (part.run fun q => ObjectInit.answer p n q).run (scope.enter s) with
        | ok r => nofun
        | error halt =>
          rw [hr] at hn
          exact fun h => hn (by cases h; rfl)
      · intro b t hb
        rw [Plan.run_scope] at hb
        cases hr : (part.run fun q => ObjectInit.answer p n q).run (scope.enter s) with
        | ok r =>
          rw [hr] at hb
          cases hb
          have hend := run_endsWell (n := n) (x := part) (fun q s hq => kept.answer n hq) h
          rw [hr] at hend
          exact ih r.1 hend
        | error halt =>
          rw [hr] at hb
          cases hb
    exact whole

/-- Where every question on the way is smaller than the one that leads to it, questions are not
    nested without end. -/
theorem halts (kept : C.Kept p smaller) {μ : Type*} {less : μ → μ → Prop}
    (wf : WellFounded less) (measure : {β : Type} → Query β → Store → μ)
    (decreases : ∀ {γ : Type} (q : Query γ) s {β : Type} (r : Query β) t, C.pre q s →
      smaller q s r t → less (measure r t) (measure q s))
    {q : Query β} (h : C.pre q s) : q.Halts p s := by
  induction hm : measure q s using wf.induction generalizing β s with
  | _ m ih =>
    subst hm
    obtain ⟨n, hn⟩ := kept.plan_halts
      (fun r t hr hsmall => ih (measure r t) (decreases q s r t h hsmall) hr rfl) (kept q s h)
    exact ⟨n + 1, hn⟩

end Contract.Kept

end ObjectInit
