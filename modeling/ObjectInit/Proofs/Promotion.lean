import ObjectInit.Proofs.Growth

/-!
# Promoted values

A value that was promoted without errors is trusted from then on, or it is a set of values that
are. Nothing that happens later takes this back.

Main results:

* `Query.accepts_of_promote`: a value that was promoted without errors is accepted.
* `Store.Accepts.promote`: an accepted value is promoted without errors, and nothing changes.
* `Plan.ends_tryUse_nil`: a use that was tried out without errors has an accepted value.
-/

namespace ObjectInit

variable {p : Program} {n : Nat} {s s' : Store} {v : Value} {reason : String} {source : Span}

/-! ## Accepted values -/

/-- Every value that is trusted in the first set is trusted in the second one. -/
def Trusted.Extends (t t' : Trusted) : Prop := ∀ v, t.contains v → t'.contains v

/-- The value is hot, or everything it may stand for is trusted. -/
inductive Store.Accepts (s : Store) : Value → Prop where
  | hot : Accepts s .hot
  | ref {a : Addr} (h : s.trusted.contains (.ref a)) : Accepts s (.ref a)
  | closure {body : ExprId} {params : List SymbolId} {frame : Frame} {env : Env}
    (h : s.trusted.contains (.closure body params frame env)) :
    Accepts s (.closure body params frame env)
  | oneOf {vs : List Value} (h : ∀ v ∈ vs, Accepts s v) : Accepts s (.oneOf vs)

theorem Store.Accepts.of_trusted (h : s.Accepts v) (later : s.trusted.Extends s'.trusted) :
    s'.Accepts v := by
  induction h with
  | hot => exact .hot
  | ref h => exact .ref (later _ h)
  | closure h => exact .closure (later _ h)
  | oneOf _ ih => exact .oneOf ih

theorem Store.Accepts.mono (h : s.Accepts v) (later : s.Keeps p s') : s'.Accepts v :=
  h.of_trusted later.trusted

/-- A single object or closure, which is trusted as such. -/
def Value.isSingle : Value → Bool
  | .ref _ | .closure .. => true
  | _ => false

/-- A value that is found promotable is trusted from then on. -/
theorem Query.trusted_of_isPromotable (single : v.isSingle)
    (h : (Query.isPromotable v).Ends p n s true s') : s'.trusted.contains v := by
  cases n with
  | zero => exact absurd h Query.ends_zero
  | succ n =>
    rw [Query.ends_succ, Query.plan] at h
    cases v with
    | hot | cold | oneOf => cases single
    | ref | closure =>
      simp only [Plan.isPromotable, Plan.ends_look_bind] at h
      split at h
      next trusted =>
        obtain ⟨-, rfl⟩ := Plan.ends_pure.1 h
        exact trusted
      next =>
        obtain ⟨c, t, -, h⟩ := Plan.ends_bind.1 h
        cases c with
        | false => cases (Plan.ends_pure.1 h).1
        | true =>
          obtain ⟨_, u, htrust, h⟩ := Plan.ends_bind.1 h
          obtain ⟨-, rfl⟩ := Plan.ends_pure.1 h
          cases Plan.ends_perform.1 htrust
          exact (Trusted.contains_insert _ _ _).trans (by simp)

theorem Plan.not_ends_failPromotion :
    ¬(Plan.failPromotion reason source).Ends p n s [] s' := by
  intro h
  obtain ⟨e, t, -, h⟩ := Plan.ends_bind.1 h
  cases (Plan.ends_pure.1 h).1

theorem Plan.ends_explain_nil {causes : List SafetyError}
    (h : (Plan.explain reason causes source).Ends p n s [] s') : causes = [] ∧ s' = s := by
  unfold Plan.explain at h
  cases causes with
  | nil => exact ⟨rfl, (Plan.ends_pure.1 h).2⟩
  | cons e es =>
    obtain ⟨e, t, -, h⟩ := Plan.ends_bind.1 h
    cases (Plan.ends_pure.1 h).1

/-- A value that was tried out without errors stays trusted. -/
theorem Plan.trusted_of_promotion {part : Plan (List SafetyError)}
    (hpart : Plan.Alike false Eq ErrorsAlike part part)
    (h : part.Ends p n ((Scope.promotion v).enter s) [] s') : s'.trusted.contains v := by
  refine (hpart.keeps (fun q s b s' h => h.keeps) h).trusted v ?_
  exact (Trusted.contains_insert _ _ _).trans (by simp)

/-- A value that was promoted without errors is accepted afterwards. -/
theorem Query.accepts_of_promote (h : (Query.promote v reason source).Ends p n s [] s') :
    s'.Accepts v := by
  induction n generalizing v s s' with
  | zero => exact absurd h Query.ends_zero
  | succ n ih =>
    rw [Query.ends_succ, Query.plan] at h
    cases v with
    | hot => exact .hot
    | cold => exact absurd h Plan.not_ends_failPromotion
    | oneOf vs =>
      refine .oneOf fun v hv => ?_
      obtain ⟨t, t', -, hpromote, later⟩ :=
        (Plan.ends_errorsOfEach_nil (fun v => Plan.alike_askPromote v reason source) h).2 v hv
      exact (ih (Plan.ends_ask.1 hpromote)).mono later
    | ref a =>
      simp only [Plan.promote, Plan.ends_bind, Plan.ends_ask] at h
      obtain ⟨b, t, hb, h⟩ := h
      cases b with
      | true =>
        obtain ⟨-, rfl⟩ := Plan.ends_pure.1 h
        exact .ref (Query.trusted_of_isPromotable rfl hb)
      | false =>
        cases a with
        | thisOf c => exact absurd h Plan.not_ends_failPromotion
        | warm w =>
          obtain ⟨es, u, hpart, h⟩ := Plan.ends_within.1 h
          obtain ⟨rfl, rfl⟩ := Plan.ends_pure.1 h
          exact .ref (Plan.trusted_of_promotion (Plan.alike_promoteWarm w reason source) hpart)
    | closure body params frame env =>
      simp only [Plan.promote, Plan.ends_bind, Plan.ends_ask] at h
      obtain ⟨b, t, hb, h⟩ := h
      cases b with
      | true =>
        obtain ⟨-, rfl⟩ := Plan.ends_pure.1 h
        exact .closure (Query.trusted_of_isPromotable rfl hb)
      | false =>
        obtain ⟨es, u, hpart, h⟩ := Plan.ends_within.1 h
        obtain ⟨rfl, rfl⟩ := Plan.ends_explain_nil h
        exact .closure (Plan.trusted_of_promotion
          (Plan.alike_promoteBody body params frame env reason source) hpart)

/-- A trusted value is promoted without errors. -/
theorem Query.promote_of_trusted (single : v.isSingle) (trusted : s.trusted.contains v) :
    (Query.promote v reason source).Ends p 2 s [] s := by
  have promotable : (Query.isPromotable v).Ends p 1 s true s :=
    (Plan.ends_isPromotable_of_trusted trusted (by rintro rfl; cases single)).2 ⟨rfl, rfl⟩
  rw [Query.ends_succ, Query.plan]
  cases v with
  | hot | cold | oneOf => cases single
  | ref | closure =>
    simp only [Plan.promote, Plan.ends_bind, Plan.ends_ask]
    exact ⟨true, s, promotable, Plan.ends_pure.2 ⟨rfl, rfl⟩⟩

/-- Accepted values are promoted without errors, and nothing changes. -/
theorem Store.Accepts.promote (h : s.Accepts v) (reason : String) (source : Span) :
    (Query.promote v reason source).Answered p s [] s := by
  induction h with
  | hot => exact ⟨1, Plan.ends_pure.2 ⟨rfl, rfl⟩⟩
  | ref h | closure h => exact ⟨2, Query.promote_of_trusted rfl h⟩
  | oneOf _ ih =>
    obtain ⟨n, hn⟩ := Plan.exists_ends_errorsOfEach_nil
      (f := fun v => Query.promote v reason source)
      fun v hv => (ih v hv).imp fun n h => Plan.ends_ask.2 h
    exact ⟨n + 1, hn⟩

/-- A use that was tried out without errors has a value that is accepted afterwards. -/
theorem Plan.ends_tryUse_nil {use : Plan Outcome} {at' : Span}
    (h : (Plan.tryUse use at' reason source).Ends p n s [] s') :
    ∃ trace v t, use.Ends p n { s with trace } (.ofValue v) t ∧ t.Keeps p s' ∧ s'.Accepts v := by
  rw [Plan.tryUse, Plan.ends_calledFrom] at h
  obtain ⟨u, h, rfl⟩ := h
  obtain ⟨o, t, huse, h⟩ := Plan.ends_bind.1 h
  rw [bind_pure_comp, Plan.ends_map] at h
  obtain ⟨o', h, herrors⟩ := h
  rw [Plan.requireHot, bind_pure_comp, Plan.ends_map] at h
  obtain ⟨es, hpromote, rfl⟩ := h
  obtain ⟨hnone, rfl⟩ := List.append_eq_nil_iff.1 herrors.symm
  have hpromote := Plan.ends_ask.1 hpromote
  have ho : o = .ofValue o.value := by
    cases o
    cases hnone
    rfl
  refine ⟨_, o.value, t, ho ▸ huse, hpromote.keeps.congr rfl rfl rfl rfl rfl rfl, ?_⟩
  exact (Query.accepts_of_promote hpromote).mono
    ((Store.Keeps.refl p u).congr rfl rfl rfl rfl rfl rfl)

end ObjectInit
