import ObjectInit.Proofs.Runs

/-!
# What every question restores

The environment and the trace are replaced at many places: blocks, members, closures, constructors
and promotions have an environment of their own, calls and arguments a trace of their own. All of
these are scopes of plans. A relation between stores that holds across effects and across scopes
therefore holds across whatever is asked (`Store.Persists`).

Main results:

* `Query.Ends.persists`: what holds across effects and scopes holds across every question.
* `Query.context_restored`: a question is asked and answered in the same environment and with the
  same trace, and the diagnostics are only added to.
-/

namespace ObjectInit

variable {p : Program} {n : Nat} {α β : Type} {s s' t : Store} {a : α} {b : β}

/-! ## Relations that hold across every question -/

/-- A relation between an earlier store and a later one that holds across every effect and, if it
    holds across the part inside, across every scope. -/
structure Store.Persists (R : Store → Store → Prop) : Prop where
  refl : ∀ s, R s s
  trans : ∀ {s t u}, R s t → R t u → R s u
  effect : ∀ {β : Type} {effect : Effect β} {s b s'}, effect.run.run s = .ok (b, s') → R s s'
  scope : ∀ {β : Type} (scope : Scope β) {s b t},
    R (scope.enter s) t → R s (scope.leave s.toContext b t)

section Persists

variable {R : Store → Store → Prop} (hR : Store.Persists R)
include hR

/-- Such a relation holds across a plan, if it holds across the questions that the plan asks. -/
theorem Plan.ends_persists (hq : ∀ {β : Type} (q : Query β) s b s', q.Ends p n s b s' → R s s')
    (x : Plan α) (h : x.Ends p n s a s') : R s s' := by
  induction x generalizing s s' with
  | pure =>
    obtain ⟨-, rfl⟩ := ends_pure.1 h
    exact hR.refl _
  | ask q next ih =>
    obtain ⟨b, t, hb, h⟩ := ends_ask_next.1 h
    exact hR.trans (hq q s b t hb) (ih b h)
  | perform effect next ih =>
    obtain ⟨b, t, hb, h⟩ := ends_perform_next.1 h
    exact hR.trans (hR.effect hb) (ih b h)
  | within scope part next ihPart ih =>
    obtain ⟨b, t, hpart, h⟩ := ends_within.1 h
    exact hR.trans (hR.scope scope (ihPart hpart)) (ih b h)

/-- Such a relation holds across every question. -/
theorem Query.Ends.persists {q : Query β} (h : q.Ends p n s b s') : R s s' := by
  induction n generalizing β s s' with
  | zero => exact absurd h Query.ends_zero
  | succ n ih =>
    exact Plan.ends_persists hR (fun q s b s' h => ih h) _ (Query.ends_succ.1 h)

theorem Plan.Ends.persists {x : Plan α} (h : x.Ends p n s a s') : R s s' :=
  Plan.ends_persists hR (fun _ _ _ _ h => h.persists hR) x h

end Persists

/-- A relation between an earlier store and a later one that holds across every effect, and also
    where a scope is entered or left. -/
structure Store.Advances (R : Store → Store → Prop) : Prop where
  refl : ∀ s, R s s
  trans : ∀ {s t u}, R s t → R t u → R s u
  effect : ∀ {β : Type} {effect : Effect β} {s b s'}, effect.run.run s = .ok (b, s') → R s s'
  enter : ∀ {β : Type} (scope : Scope β) s, R s (scope.enter s)
  leave : ∀ {β : Type} (scope : Scope β) context b s, R s (scope.leave context b s)

theorem Store.Advances.persists {R : Store → Store → Prop} (hR : Store.Advances R) :
    Store.Persists R :=
  ⟨hR.refl, hR.trans, hR.effect, fun scope s b t h =>
    hR.trans (hR.enter scope s) (hR.trans h (hR.leave scope s.toContext b t))⟩

/-! ## Environments, traces and diagnostics -/

/-- The second store has the environment and the trace of the first one, and its diagnostics begin
    with those of the first one. -/
structure Store.Restores (s s' : Store) : Prop where
  env : s'.env = s.env
  trace : s'.trace = s.trace
  diagnostics : s.diagnostics <+: s'.diagnostics

namespace Store.Restores

theorem refl (s : Store) : s.Restores s := ⟨rfl, rfl, List.prefix_rfl⟩

theorem trans {u : Store} (h : s.Restores t) (h' : t.Restores u) : s.Restores u :=
  ⟨h'.env.trans h.env, h'.trace.trans h.trace, h.diagnostics.trans h'.diagnostics⟩

theorem of_effect {effect : Effect β} (h : effect.run.run s = .ok (b, s')) : s.Restores s' := by
  cases effect with
  | allocate =>
    obtain ⟨heap, -, rfl⟩ := Effect.run_allocate.1 h
    exact ⟨rfl, rfl, List.prefix_rfl⟩
  | setField =>
    obtain ⟨heap, -, rfl⟩ := Effect.run_setField.1 h
    exact ⟨rfl, rfl, List.prefix_rfl⟩
  | setOuter =>
    obtain ⟨heap, -, rfl⟩ := Effect.run_setOuter.1 h
    exact ⟨rfl, rfl, List.prefix_rfl⟩
  | creationOf =>
    obtain ⟨-, rfl⟩ := Effect.run_creationOf.1 h
    exact refl _
  | report d =>
    cases h
    exact ⟨rfl, rfl, List.prefix_append _ _⟩
  | _ =>
    cases h
    exact ⟨rfl, rfl, List.prefix_rfl⟩

/-- The context in which a scope was entered is back when it is left: that of an environment or a
    trace is put back, the other scopes do not touch it. -/
theorem of_scope (scope : Scope β) (h : (scope.enter s).Restores t) :
    s.Restores (scope.leave s.toContext b t) := by
  cases scope with
  | env => exact ⟨rfl, h.trace, h.diagnostics⟩
  | trace => exact ⟨h.env, rfl, h.diagnostics⟩
  | evaluation => exact ⟨h.env, h.trace, h.diagnostics⟩
  | promotion v =>
    rw [Scope.leave]
    split
    · exact ⟨h.env, h.trace, h.diagnostics⟩
    · exact ⟨h.env, h.trace, h.diagnostics⟩

theorem persists : Store.Persists Store.Restores :=
  ⟨refl, trans, of_effect, fun scope => of_scope scope⟩

end Store.Restores

/-- A question is asked and answered in the same environment. -/
theorem Query.Ends.env {q : Query β} (h : q.Ends p n s b s') : s'.env = s.env :=
  (h.persists Store.Restores.persists).env

theorem Plan.Ends.env {x : Plan α} (h : x.Ends p n s a s') : s'.env = s.env :=
  (h.persists Store.Restores.persists).env

/-- Whatever is asked, the environment and the trace are the same afterwards, and the diagnostics
    are those from before, perhaps with further ones at the end. In particular every symbol is bound
    as before: what was bound while the question was answered is not visible any more. -/
theorem Query.context_restored {q : Query β} (h : q.Answered p s b s') :
    s'.toContext = s.toContext ∧ (∀ x, s'.env.lookup x = s.env.lookup x) ∧
      s.diagnostics <+: s'.diagnostics := by
  obtain ⟨n, h⟩ := h
  obtain ⟨henv, htrace, hdiagnostics⟩ := h.persists Store.Restores.persists
  refine ⟨?_, fun x => by rw [henv], hdiagnostics⟩
  change Context.mk s'.env s'.trace = ⟨s.env, s.trace⟩
  rw [henv, htrace]

/-! ### A block with a local value -/

/-- A class `A` with a field `f` and a method `m`. In `m` there is a block that binds `x` to a
    closure and then selects `f` of `x`. -/
def fieldOfClosure : Program := .ofCommands [
  .defineClass "A" .package .none true,
  .defineField ⟨4⟩ "f" .value,
  .defineMethod ⟨4⟩ "m" [] .none,
  .declareLocal ⟨16⟩ "x",
  .declareFunction (.symbol ⟨16⟩) [],
  .literal,
  .closure ⟨18⟩ ⟨3⟩,
  .setBody ⟨17⟩ ⟨4⟩,
  .valDef ⟨17⟩,
  .ident ⟨17⟩,
  .select ⟨6⟩ ⟨15⟩,
  .block [⟨5⟩] ⟨7⟩]

/-- A store in which `x` is cold. -/
def storeWithX : Store := { Store.initial with env := .ofList [(⟨17⟩, .cold)] }

/-- In the block `x` is the closure, and it is reported that a closure has no fields; after the
    block `x` is cold again. -/
theorem Query.context_restored_fieldOfClosure :
    ∃ o s', (Query.eval ⟨8⟩ ⟨.thisOf ⟨4⟩, ⟨4⟩⟩ false).Answered fieldOfClosure storeWithX o s' ∧
      o.errors = [] ∧ s'.diagnostics.length = 1 ∧ s'.toContext = storeWithX.toContext ∧
      s'.env.lookup ⟨17⟩ = some .cold := by
  obtain ⟨o, answered, ho⟩ := Query.answered_of_result? (·.errors.isEmpty) (p := fieldOfClosure)
    (n := 10) (s := storeWithX) (q := .eval ⟨8⟩ ⟨.thisOf ⟨4⟩, ⟨4⟩⟩ false) (by decide +kernel)
  obtain ⟨context, lookups, -⟩ := Query.context_restored answered
  exact ⟨o, _, answered, List.isEmpty_iff.1 ho, by decide +kernel, context,
    (lookups _).trans (by decide +kernel)⟩

end ObjectInit
