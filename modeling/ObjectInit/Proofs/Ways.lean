import ObjectInit.Proofs.Context
import ObjectInit.Proofs.Growth

/-!
# What is asked on the way

Answering a question takes further questions. `Plan.Asks` tells which questions a plan asks itself,
and in which stores; `Query.Way` follows the questions that these lead to, and records which
evaluations are in progress meanwhile.

Main results:

* `Plan.Asks.after`, `Query.Way.after`: what is asked on the way is answered before the end.
* `Query.isPromotable_frame`: a test whether a value is promotable changes the trusted values only.
* `Plan.ends_extends`: a plan only adds to the heap.
-/

namespace ObjectInit

/-! ## Answers without errors -/

/-- The outcome is without errors. -/
def Outcome.Clean (o : Outcome) : Prop := o.errors = []

namespace Outcome

variable {o o' : Outcome} {es : List SafetyError}

@[simp] theorem clean_mk {v : Value} : (Outcome.mk v es).Clean ↔ es = [] := Iff.rfl

@[simp] theorem clean_ofErrors : (ofErrors es).Clean ↔ es = [] := Iff.rfl

@[simp] theorem clean_followedBy : (o.followedBy es).Clean ↔ o.Clean ∧ es = [] :=
  List.append_eq_nil_iff

@[simp] theorem clean_precededBy : (o.precededBy es).Clean ↔ es = [] ∧ o.Clean :=
  List.append_eq_nil_iff

@[simp] theorem clean_join : (o.join o').Clean ↔ o.Clean ∧ o'.Clean := List.append_eq_nil_iff

theorem clean_joinAll {os : List Outcome} : (joinAll os).Clean ↔ ∀ o ∈ os, o.Clean := by
  suffices ∀ q : Outcome, (os.foldl join q).Clean ↔ q.Clean ∧ ∀ o ∈ os, o.Clean from
    (this hot).trans (and_iff_right rfl)
  induction os with
  | nil => simp
  | cons o os ih =>
    intro q
    rw [List.foldl_cons, ih, clean_join, List.forall_mem_cons, and_assoc]

end Outcome

/-- The answer is without errors. -/
def Query.Clean {β : Type} : Query β → β → Prop
  | .eval .. | .select .. | .call .. | .construct .. | .create .. | .template ..
  | .outerInstance .. => Outcome.Clean
  | .body .. | .promote .. | .check .. => (· = [])
  | .isPromotable _ | .enclosingInstance .. => fun _ => True

/-! ## Questions on the way -/

/-- Carried out in the first store, the plan itself asks the question in the second store. -/
inductive Plan.Asks (p : Program) : {α γ : Type} → Plan α → Store → Query γ → Store → Prop where
  | here {α β : Type} {q : Query β} {next : β → Plan α} {s : Store} : Asks p (.ask q next) s q s
  | afterAsk {α β γ : Type} {q : Query β} {next : β → Plan α} {s t u : Store} {b : β} {n : Nat}
    {r : Query γ} (hq : q.Ends p n s b t) (h : Asks p (next b) t r u) : Asks p (.ask q next) s r u
  | afterEffect {α β γ : Type} {effect : Effect β} {next : β → Plan α} {s t u : Store} {b : β}
    {r : Query γ} (heffect : effect.run.run s = .ok (b, t)) (h : Asks p (next b) t r u) :
    Asks p (.perform effect next) s r u
  | inside {α β γ : Type} {scope : Scope β} {part : Plan β} {next : β → Plan α} {s u : Store}
    {r : Query γ} (h : Asks p part (scope.enter s) r u) : Asks p (.within scope part next) s r u
  | afterScope {α β γ : Type} {scope : Scope β} {part : Plan β} {next : β → Plan α}
    {s t u : Store} {b : β} {n : Nat} {r : Query γ} (hpart : part.Ends p n (scope.enter s) b t)
    (h : Asks p (next b) (scope.leave s.toContext b t) r u) :
    Asks p (.within scope part next) s r u

/-- The evaluation that the question stands for. -/
def Query.evaluation {β : Type} : Query β → List Cache.Key
  | .eval e frame _ => [⟨frame.receiver, e⟩]
  | _ => []

/-- On the way from the first question in the first store, the second question is asked in the
    second store, while the evaluations in the list are in progress. -/
inductive Query.Way (p : Program) {β : Type} (q : Query β) (s : Store) :
    List Cache.Key → {γ : Type} → Query γ → Store → Prop where
  | start : Way p q s [] q s
  | asked {active : List Cache.Key} {γ δ : Type} {r : Query γ} {r' : Query δ} {t u : Store}
    (h : Way p q s active r t) (hasks : (r.plan p).Asks p t r' u) :
    Way p q s (r.evaluation ++ active) r' u

variable {p : Program} {n : Nat} {α β γ : Type} {s s' t : Store}

namespace Plan.Asks

theorem calledFrom {part : Plan α} {source : Span} {q : Query γ}
    (h : part.Asks p { s with trace := s.trace.add source } q t) :
    (Plan.calledFrom source part).Asks p s q t :=
  .afterEffect (t := s) (b := s) rfl (.inside h)

/-- A plan that goes on with another one asks what it asks alone. -/
theorem bind_left {x : Plan β} {f : β → Plan α} {q : Query γ} (h : x.Asks p s q t) :
    (x >>= f).Asks p s q t := by
  change (x.bind f).Asks p s q t
  induction h with
  | here => exact .here
  | afterAsk hq _ ih => exact .afterAsk hq ih
  | afterEffect heffect _ ih => exact .afterEffect heffect ih
  | inside h => exact .inside h
  | afterScope hpart _ ih => exact .afterScope hpart ih

/-- It then asks what the other one asks. -/
theorem bind_right {x : Plan β} {f : β → Plan α} {b : β} {u : Store} {q : Query γ}
    (hx : x.Ends p n s b u) (h : (f b).Asks p u q t) : (x >>= f).Asks p s q t := by
  change (x.bind f).Asks p s q t
  induction x generalizing s with
  | pure =>
    obtain ⟨rfl, rfl⟩ := ends_pure.1 hx
    exact h
  | ask r next ih =>
    obtain ⟨c, v, hc, hx⟩ := ends_ask_next.1 hx
    exact .afterAsk hc (ih c hx h)
  | perform effect next ih =>
    obtain ⟨c, v, hc, hx⟩ := ends_perform_next.1 hx
    exact .afterEffect hc (ih c hx h)
  | within scope part next _ ih =>
    obtain ⟨c, v, hpart, hx⟩ := ends_within.1 hx
    exact .afterScope hpart (ih c hx h)

/-- An evaluation whose value is not known asks what its node asks. -/
theorem eval {e : ExprId} {frame : Frame} {final : Bool} {q : Query γ}
    (miss : s.cache.find? frame.receiver e = none)
    (h : (Plan.calledFrom (p.expr e).span (Plan.node p e frame)).Asks p
      ((Scope.evaluation frame.receiver e final).enter s) q t) :
    (Plan.eval p e frame final).Asks p s q t := by
  refine .afterEffect (t := s) (b := s) rfl ?_
  simp only [Plan.bind, miss]
  exact .inside h

/-! ### Questions behind effects and in scopes -/

variable {part : Plan α} {q : Query γ}

theorem of_perform_bind {effect : Effect β} {f : β → Plan α}
    (h : (liftM effect >>= f).Asks p s q t) :
    ∃ b u, effect.run.run s = .ok (b, u) ∧ (f b).Asks p u q t := by
  cases h with
  | afterEffect heffect h => exact ⟨_, _, heffect, h⟩

theorem of_inTrace {trace : Trace} (h : (inTrace trace part).Asks p s q t) :
    part.Asks p { s with trace := trace } q t := by
  cases h with
  | inside h => exact h
  | afterScope _ h => cases h

theorem of_inEnv {env : Env} (h : (inEnv env part).Asks p s q t) :
    part.Asks p { s with env := env } q t := by
  cases h with
  | inside h => exact h
  | afterScope _ h => cases h

theorem of_calledFrom {source : Span} (h : (Plan.calledFrom source part).Asks p s q t) :
    part.Asks p { s with trace := s.trace.add source } q t := by
  cases h with
  | afterEffect heffect h =>
    cases heffect
    exact of_inTrace h

end Plan.Asks

/-! ### Stores before and after -/

section Advances

variable {R : Store → Store → Prop} (hR : Store.Advances R)
include hR

/-- Where a plan asks a question, the store is a later one. -/
theorem Plan.Asks.before {x : Plan α} {q : Query γ} (hasks : x.Asks p s q t) : R s t := by
  induction hasks with
  | here => exact hR.refl _
  | afterAsk hq _ ih => exact hR.trans (hq.persists hR.persists) ih
  | afterEffect heffect _ ih => exact hR.trans (hR.effect heffect) ih
  | inside _ ih => exact hR.trans (hR.enter _ _) ih
  | afterScope hpart _ ih =>
    have inside := hR.trans (hR.enter _ _) (hpart.persists hR.persists)
    exact hR.trans inside (hR.trans (hR.leave _ _ _ _) ih)

/-- A plan that ends has its questions answered, and ends in a later store. -/
theorem Plan.Asks.after {x : Plan α} {q : Query γ} {a : α} (hasks : x.Asks p s q t)
    (h : x.Ends p n s a s') : ∃ c t', q.Ends p n t c t' ∧ R t' s' := by
  induction hasks generalizing s' with
  | here =>
    obtain ⟨b, t, hb, h⟩ := Plan.ends_ask_next.1 h
    exact ⟨b, t, hb, h.persists hR.persists⟩
  | afterAsk hq _ ih =>
    obtain ⟨b, t, hb, h⟩ := Plan.ends_ask_next.1 h
    obtain ⟨rfl, rfl⟩ := Query.Answered.unique ⟨_, hq⟩ ⟨_, hb⟩
    exact ih h
  | afterEffect heffect _ ih =>
    obtain ⟨b, t, hb, h⟩ := Plan.ends_perform_next.1 h
    cases heffect.symm.trans hb
    exact ih h
  | inside _ ih =>
    obtain ⟨b, t, hpart, h⟩ := Plan.ends_within.1 h
    obtain ⟨c, t', hc, later⟩ := ih hpart
    exact ⟨c, t', hc, hR.trans later (hR.trans (hR.leave _ _ _ _) (h.persists hR.persists))⟩
  | afterScope hpart _ ih =>
    obtain ⟨b, t, hpart', h⟩ := Plan.ends_within.1 h
    obtain ⟨rfl, rfl⟩ := hpart.unique hpart'
    exact ih h

/-- What is asked on the way of a question that is answered is answered, too, before the end. -/
theorem Query.Way.after {q : Query β} {r : Query γ} {active : List Cache.Key} {b : β}
    (way : q.Way p s active r t) (h : q.Answered p s b s') :
    ∃ c t', r.Answered p t c t' ∧ R t' s' := by
  induction way with
  | start => exact ⟨b, s', h, hR.refl _⟩
  | asked _ hasks ih =>
    obtain ⟨c, u, ⟨m, hc⟩, later⟩ := ih
    cases m with
    | zero => exact absurd hc Query.ends_zero
    | succ m =>
      obtain ⟨d, u', hd, later'⟩ := hasks.after hR (Query.ends_succ.1 hc)
      exact ⟨d, u', ⟨m, hd⟩, hR.trans later' later⟩

end Advances

/-! ## Effects -/

/-- An effect changes neither the environment nor the cache. -/
theorem Effect.run_frame {effect : Effect β} {b : β} (h : effect.run.run s = .ok (b, s')) :
    s'.env = s.env ∧ s'.cache = s.cache := by
  cases effect with
  | allocate =>
    obtain ⟨heap, -, rfl⟩ := run_allocate.1 h
    exact ⟨rfl, rfl⟩
  | setField =>
    obtain ⟨heap, -, rfl⟩ := run_setField.1 h
    exact ⟨rfl, rfl⟩
  | setOuter =>
    obtain ⟨heap, -, rfl⟩ := run_setOuter.1 h
    exact ⟨rfl, rfl⟩
  | creationOf =>
    obtain ⟨-, rfl⟩ := run_creationOf.1 h
    exact ⟨rfl, rfl⟩
  | _ =>
    cases h
    exact ⟨rfl, rfl⟩

/-! ## Tests -/

/-- A test that is made for each element changes the trusted values only, if each one does. -/
theorem Plan.allM_frame {test : α → Plan Bool}
    (htest : ∀ x s b s', (test x).Ends p n s b s' → ∃ trusted, s' = { s with trusted })
    (xs : List α) {b : Bool} (h : (xs.allM test).Ends p n s b s') :
    ∃ trusted, s' = { s with trusted } := by
  induction xs generalizing s with
  | nil =>
    obtain ⟨-, rfl⟩ := Plan.ends_pure.1 h
    exact ⟨_, rfl⟩
  | cons x xs ih =>
    obtain ⟨c, t, hx, h⟩ := Plan.ends_bind.1 h
    obtain ⟨trusted, rfl⟩ := htest x s c t hx
    cases c with
    | true =>
      obtain ⟨trusted', rfl⟩ := ih h
      exact ⟨trusted', rfl⟩
    | false =>
      obtain ⟨-, rfl⟩ := Plan.ends_pure.1 h
      exact ⟨trusted, rfl⟩

theorem Plan.capturesHot_frame
    (hq : ∀ v s b s', (Query.isPromotable v).Ends p n s b s' → ∃ trusted, s' = { s with trusted })
    {v : Value} {b : Bool} (h : (Plan.capturesHot p v).Ends p n s b s') :
    ∃ trusted, s' = { s with trusted } := by
  cases v with
  | ref a =>
    cases a with
    | warm w =>
      rw [Plan.capturesHot, Plan.ends_bind] at h
      obtain ⟨creation, t, hcreation, h⟩ := h
      obtain ⟨-, rfl⟩ := Effect.run_creationOf.1 (Plan.ends_perform.1 hcreation)
      by_cases hot : creation.args.all Value.isHot
      · rw [if_pos hot] at h
        exact hq _ _ _ _ (Plan.ends_ask.1 h)
      · rw [if_neg hot] at h
        obtain ⟨-, rfl⟩ := Plan.ends_pure.1 h
        exact ⟨_, rfl⟩
    | thisOf c =>
      rw [Plan.capturesHot, Plan.ends_look_bind] at h
      obtain ⟨-, rfl⟩ := Plan.ends_pure.1 h
      exact ⟨_, rfl⟩
  | closure body params frame env => exact hq _ _ _ _ (Plan.ends_ask.1 h)
  | _ =>
    obtain ⟨-, rfl⟩ := Plan.ends_pure.1 h
    exact ⟨_, rfl⟩

/-- The test whether a value is promotable changes the trusted values only. -/
theorem Query.isPromotable_frame {v : Value} {b : Bool}
    (h : (Query.isPromotable v).Ends p n s b s') : ∃ trusted, s' = { s with trusted } := by
  induction n generalizing v s b s' with
  | zero => exact absurd h Query.ends_zero
  | succ n ih =>
    rw [Query.ends_succ, Query.plan] at h
    cases v with
    | hot | cold =>
      obtain ⟨-, rfl⟩ := Plan.ends_pure.1 h
      exact ⟨_, rfl⟩
    | oneOf vs =>
      rw [Plan.isPromotable, Plan.ends_look_bind] at h
      by_cases trusted : s.trusted.contains (.oneOf vs)
      · rw [if_pos trusted] at h
        obtain ⟨-, rfl⟩ := Plan.ends_pure.1 h
        exact ⟨_, rfl⟩
      · rw [if_neg trusted] at h
        exact Plan.allM_frame (fun v s b s' h => ih (Plan.ends_ask.1 h)) vs h
    | ref | closure =>
      simp only [Plan.isPromotable, Plan.ends_look_bind] at h
      split at h
      · obtain ⟨-, rfl⟩ := Plan.ends_pure.1 h
        exact ⟨_, rfl⟩
      · obtain ⟨c, t, hcaptures, h⟩ := Plan.ends_bind.1 h
        obtain ⟨trusted, rfl⟩ := Plan.capturesHot_frame (fun v s b s' h => ih h) hcaptures
        cases c with
        | false =>
          obtain ⟨-, rfl⟩ := Plan.ends_pure.1 h
          exact ⟨trusted, rfl⟩
        | true =>
          obtain ⟨_, u, htrust, h⟩ := Plan.ends_bind.1 h
          obtain ⟨-, rfl⟩ := Plan.ends_pure.1 h
          cases Plan.ends_perform.1 htrust
          exact ⟨_, rfl⟩

/-! ## Heaps -/

/-- An effect only adds to the heap. -/
theorem Effect.run_extends {effect : Effect β} {b : β} (h : effect.run.run s = .ok (b, s')) :
    s.heap.Extends s'.heap := by
  cases effect with
  | allocate =>
    obtain ⟨heap, ok, rfl⟩ := run_allocate.1 h
    exact .of_allocate ok
  | setField =>
    obtain ⟨heap, ok, rfl⟩ := run_setField.1 h
    exact .of_setField ok
  | setOuter =>
    obtain ⟨heap, ok, rfl⟩ := run_setOuter.1 h
    exact .of_setOuter ok
  | creationOf =>
    obtain ⟨-, rfl⟩ := run_creationOf.1 h
    exact .refl _
  | warmOf creation =>
    cases h
    exact .warmOf _ creation
  | _ =>
    cases h
    exact .refl _

theorem Scope.heap_enter (scope : Scope β) (s : Store) : (scope.enter s).heap = s.heap := by
  cases scope <;> rfl

theorem Scope.heap_leave (scope : Scope β) (context : Context) (b : β) (s : Store) :
    (scope.leave context b s).heap = s.heap := by
  cases scope with
  | promotion v =>
    by_cases hb : b.isEmpty
    · rw [leave, if_pos hb]
    · rw [leave, if_neg hb]
  | _ => rfl

theorem Heap.Extends.advances : Store.Advances fun s s' => s.heap.Extends s'.heap where
  refl s := .refl s.heap
  trans h h' := h.trans h'
  effect := Effect.run_extends
  enter scope s := by
    rw [scope.heap_enter]
    exact .refl _
  leave scope context b s := by
    rw [scope.heap_leave]
    exact .refl _

/-- A plan only adds to the heap. -/
theorem Plan.ends_extends {x : Plan α} {a : α} (h : x.Ends p n s a s') : s.heap.Extends s'.heap :=
  h.persists Heap.Extends.advances.persists

end ObjectInit
