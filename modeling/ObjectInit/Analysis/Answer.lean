import ObjectInit.Analysis.Construction

/-!
# Answers

`Query.plan` gives the plan of each question, and `answer` carries the plans out. Questions lead to
further questions; how deeply they may nest is an argument of `answer`.

Main results:

* `answer_extends`: where a depth is enough for an answer, a larger one leads to the same answer.
-/

namespace ObjectInit

/-- How a question about a program is answered. -/
def Query.plan {β : Type} (p : Program) : Query β → Plan β
  | .eval e frame final => Plan.eval p e frame final
  | .select v field source virtual => Plan.select p v field source virtual
  | .call v method args dispatch source => Plan.call p v method args dispatch source
  | .construct v ctor args source => Plan.construct p v ctor args source
  | .create outer c ctor args source => Plan.create p outer c ctor args source
  | .template c this => Plan.template p c this
  | .body c this => Plan.body p c this
  | .promote v reason source => Plan.promote p v reason source
  | .isPromotable v => Plan.isPromotable p v
  | .enclosingInstance target v c source => Plan.enclosingInstance p target v c source
  | .outerInstance type frame source => Plan.outerInstance p type frame source
  | .check c => Plan.check p c

/-- The answer to a question, where questions may be nested up to the given depth. -/
def answer {β : Type} (p : Program) : Nat → Query β → Run β
  | 0, _ => throw .depth
  | n + 1, q => (q.plan p).run fun q => answer p n q

/-- A depth that no analysis reaches in practice. -/
def depthLimit : Nat := 1_000_000_000_000

/-! ## Larger depths -/

/-- The second run ends as the first one does, unless that one is nested too deeply. -/
def Run.Extends {α : Type} (r r' : Run α) : Prop :=
  ∀ s, r.run s ≠ .error .depth → r'.run s = r.run s

namespace Run.Extends

theorem refl {α : Type} (r : Run α) : r.Extends r := fun _ _ => rfl

theorem trans {α : Type} {r₁ r₂ r₃ : Run α} (h : r₁.Extends r₂) (h' : r₂.Extends r₃) :
    r₁.Extends r₃ :=
  fun s hs => (h' s (h s hs ▸ hs)).trans (h s hs)

theorem bind {α β : Type} {r r' : Run α} {f f' : α → Run β} (hr : r.Extends r')
    (hf : ∀ a, (f a).Extends (f' a)) : (r >>= f).Extends (r' >>= f') := by
  intro s h
  rw [StateT.run_bind] at h
  rw [StateT.run_bind, StateT.run_bind]
  cases hs : r.run s with
  | error e =>
    rw [hs] at h
    have he : e ≠ .depth := fun he => h (he ▸ rfl)
    rw [hr s (by simp [hs, he]), hs]
    rfl
  | ok p =>
    rw [hs] at h
    rw [hr s (by simp [hs]), hs]
    exact hf p.1 p.2 h

end Run.Extends

theorem Plan.run_extends {α : Type} {answer answer' : {γ : Type} → Query γ → Run γ}
    (h : ∀ {γ : Type} (q : Query γ), (answer q).Extends (answer' q)) (x : Plan α) :
    (x.run answer).Extends (x.run answer') := by
  induction x with
  | pure a => exact .refl _
  | ask q next ih => exact .bind (h q) ih
  | perform effect next ih => exact .bind (.refl _) ih
  | within scope part next ihPart ih =>
    exact .bind (.refl _) fun before =>
      .bind (.refl _) fun _ => .bind ihPart fun b => .bind (.refl _) fun _ => ih b

theorem answer_succ_extends (p : Program) (n : Nat) {β : Type} (q : Query β) :
    (answer p n q).Extends (answer p (n + 1) q) := by
  induction n generalizing β with
  | zero => exact fun s h => absurd rfl h
  | succ n ih => exact Plan.run_extends ih (q.plan p)

/-- An answer that is found within a depth is found within every larger one. -/
theorem answer_extends (p : Program) {m n : Nat} (h : m ≤ n) {β : Type} (q : Query β) :
    (answer p m q).Extends (answer p n q) := by
  induction h with
  | refl => exact .refl _
  | step _ ih => exact ih.trans (answer_succ_extends p _ q)

end ObjectInit
