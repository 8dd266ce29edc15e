import ObjectInit.Proofs.Entries
import ObjectInit.Proofs.Members

/-!
# Trusted values

Only promotions and tests trust values by themselves: a promotion trusts a value while it is tried
out and takes this back if errors are found, and a test trusts what it finds promotable. Whatever
else becomes trusted does so while questions are answered. `Plan.Relays` says this of a run of a
plan; followed along the way of a question, it tells where a trusted value comes from.

Main results:

* `Query.Way.trusts`: what is trusted when a question is asked is trusted on its whole way.
* `Query.Way.trusted_after`: where no errors are found, what becomes trusted on the way stays so.
* `Query.Ends.new_trusted`: a value that becomes trusted was found promotable or was promoted on the
  way.
-/

namespace ObjectInit

theorem Trusted.extends_insert (t : Trusted) (v : Value) : t.Extends (t.insert v) := by
  intro w hw
  rw [contains_insert, hw, Bool.or_true]

theorem Trusted.not_contains_insert {t : Trusted} {v w : Value} (absent : ¬t.contains w)
    (other : w ≠ v) : ¬(t.insert v).contains w := by
  rwa [contains_insert, beq_false_of_ne other, Bool.false_or]

/-- What is trusted after a promotion: its value only if no errors were found. -/
theorem Scope.contains_leave_promotion {v w : Value} {context : Context}
    {es : List SafetyError} {t : Store} :
    ((Scope.promotion v).leave context es t).trusted.contains w ↔
      t.trusted.contains w ∧ (w = v → es = []) := by
  cases es with
  | nil => simp [leave]
  | cons e es =>
    change (t.trusted.erase v).contains w ↔ _
    rw [Trusted.contains_erase, Bool.and_eq_true, bne_iff_ne]
    simp [and_comm]

variable {p : Program} {n : Nat} {α β γ : Type} {s s' t : Store}

/-- The effect trusts a value. -/
def Effect.trusts : Effect β → Bool
  | .trust _ => true
  | _ => false

theorem Effect.run_trusted {effect : Effect β} {b : β} (h : effect.run.run s = .ok (b, s'))
    (trusts : effect.trusts = false) : s'.trusted = s.trusted := by
  cases effect with
  | trust => cases trusts
  | allocate =>
    obtain ⟨heap, -, rfl⟩ := run_allocate.1 h
    rfl
  | setField =>
    obtain ⟨heap, -, rfl⟩ := run_setField.1 h
    rfl
  | setOuter =>
    obtain ⟨heap, -, rfl⟩ := run_setOuter.1 h
    rfl
  | creationOf =>
    obtain ⟨-, rfl⟩ := run_creationOf.1 h
    rfl
  | _ =>
    cases h
    rfl

/-! ## Runs of plans -/

/-- What a run of a plan does to the trusted values: apart from the values in `own` they become
    trusted while questions are answered, and apart from those in `lost` they stay trusted. -/
structure Plan.Relays (p : Program) (n : Nat) (own lost : Value → Prop) (x : Plan α)
    (s s' : Store) : Prop where
  keeps : ∀ w, s.trusted.contains w → lost w ∨ s'.trusted.contains w
  asked : ∀ {γ : Type} {q : Query γ} {t}, x.Asks p s q t →
    ∀ w, s.trusted.contains w → lost w ∨ t.trusted.contains w
  answered : ∀ {γ : Type} {q : Query γ} {t}, x.Asks p s q t →
    ∃ c t', q.Ends p n t c t' ∧ ∀ w, t'.trusted.contains w → lost w ∨ s'.trusted.contains w
  gained : ∀ w, ¬s.trusted.contains w → s'.trusted.contains w →
    own w ∨ ∃ (γ : Type) (q : Query γ) (t : Store) (c : γ) (t' : Store), x.Asks p s q t ∧
      q.Ends p n t c t' ∧ ¬t.trusted.contains w ∧ t'.trusted.contains w

/-- The run trusts no values by itself and takes none back. -/
abbrev Plan.RelaysAll (p : Program) (n : Nat) (x : Plan α) (s s' : Store) : Prop :=
  x.Relays p n (fun _ => False) (fun _ => False) s s'

namespace Plan.Relays

variable {own lost : Value → Prop}

theorem pure (a : α) : (Pure.pure a : Plan α).Relays p n own lost s s :=
  ⟨fun _ => .inr, nofun, nofun, fun _ absent present => absurd present absent⟩

theorem ask {q : Query β} {next : β → Plan α} {b : β} (hb : q.Ends p n s b t)
    (rest : (next b).Relays p n own lost t s') :
    (Plan.ask q next).Relays p n own lost s s' := by
  have first : s.trusted.Extends t.trusted := hb.keeps.trusted
  refine ⟨fun w hw => rest.keeps w (first w hw), fun h => ?_, fun h => ?_, fun w absent hw => ?_⟩
  · cases h with
    | here => exact fun _ => .inr
    | afterAsk hq h =>
      obtain ⟨rfl, rfl⟩ := Query.Answered.unique ⟨_, hb⟩ ⟨_, hq⟩
      exact fun w hw => rest.asked h w (first w hw)
  · cases h with
    | here => exact ⟨b, t, hb, rest.keeps⟩
    | afterAsk hq h =>
      obtain ⟨rfl, rfl⟩ := Query.Answered.unique ⟨_, hb⟩ ⟨_, hq⟩
      exact rest.answered h
  · by_cases ht : t.trusted.contains w
    · exact .inr ⟨_, q, s, b, t, .here, hb, absent, ht⟩
    · refine (rest.gained w ht hw).imp_right ?_
      rintro ⟨γ, r, u, c, u', hasks, found⟩
      exact ⟨γ, r, u, c, u', .afterAsk hb hasks, found⟩

theorem asked_self {q : Query β} {b : β} (hb : q.Ends p n s b s') :
    (liftM q : Plan β).Relays p n own lost s s' :=
  .ask hb (.pure b)

/-- An effect that trusts no value. -/
theorem perform {effect : Effect β} {next : β → Plan α} {b : β}
    (hb : effect.run.run s = .ok (b, t)) (same : t.trusted = s.trusted)
    (rest : (next b).Relays p n own lost t s') :
    (Plan.perform effect next).Relays p n own lost s s' := by
  refine ⟨same ▸ rest.keeps, fun h => ?_, fun h => ?_, fun w absent hw => ?_⟩
  · cases h with
    | afterEffect heffect h =>
      cases heffect.symm.trans hb
      exact same ▸ rest.asked h
  · cases h with
    | afterEffect heffect h =>
      cases heffect.symm.trans hb
      exact rest.answered h
  · refine (rest.gained w (same ▸ absent) hw).imp_right ?_
    rintro ⟨γ, r, u, c, u', hasks, found⟩
    exact ⟨γ, r, u, c, u', .afterEffect hb hasks, found⟩

/-- The plan trusts one of its own values. -/
theorem trust {v : Value} {next : Unit → Plan α} (hv : own v)
    (rest : (next ()).Relays p n own lost { s with trusted := s.trusted.insert v } s') :
    (Plan.perform (.trust v) next).Relays p n own lost s s' := by
  have first : s.trusted.Extends (s.trusted.insert v) := Trusted.extends_insert _ _
  refine ⟨fun w hw => rest.keeps w (first w hw), fun h => ?_, fun h => ?_, fun w absent hw => ?_⟩
  · cases h with
    | afterEffect heffect h =>
      cases heffect
      exact fun w hw => rest.asked h w (first w hw)
  · cases h with
    | afterEffect heffect h =>
      cases heffect
      exact rest.answered h
  · by_cases same : w = v
    · exact .inl (same ▸ hv)
    · refine (rest.gained w (Trusted.not_contains_insert absent same) hw).imp_right ?_
      rintro ⟨γ, r, u, c, u', hasks, found⟩
      exact ⟨γ, r, u, c, u', .afterEffect rfl hasks, found⟩

theorem look_bind {f : Store → Plan α} (rest : (f s).Relays p n own lost s s') :
    ((liftM Effect.look : Plan Store) >>= f).Relays p n own lost s s' :=
  .perform (t := s) rfl rfl rest

/-- A scope that the trusted values do not see. -/
theorem within {scope : Scope β} {part : Plan β} {next : β → Plan α} {b : β}
    (enter : (scope.enter s).trusted = s.trusted)
    (leave : (scope.leave s.toContext b t).trusted = t.trusted)
    (hpart : part.Ends p n (scope.enter s) b t) (inside : part.RelaysAll p n (scope.enter s) t)
    (rest : (next b).Relays p n own lost (scope.leave s.toContext b t) s') :
    (Plan.within scope part next).Relays p n own lost s s' := by
  have first (w : Value) (hw : s.trusted.contains w) : t.trusted.contains w :=
    (inside.keeps w (enter ▸ hw)).resolve_left id
  have second (w : Value) (hw : t.trusted.contains w) : lost w ∨ s'.trusted.contains w :=
    rest.keeps w (leave ▸ hw)
  refine ⟨fun w hw => second w (first w hw), fun h => ?_, fun h => ?_, fun w absent hw => ?_⟩
  · cases h with
    | inside h => exact fun w hw => .inr ((inside.asked h w (enter ▸ hw)).resolve_left id)
    | afterScope hc h =>
      obtain ⟨rfl, rfl⟩ := hpart.unique hc
      exact fun w hw => rest.asked h w (leave ▸ first w hw)
  · cases h with
    | inside h =>
      obtain ⟨c, t', hc, stays⟩ := inside.answered h
      exact ⟨c, t', hc, fun w hw => second w ((stays w hw).resolve_left id)⟩
    | afterScope hc h =>
      obtain ⟨rfl, rfl⟩ := hpart.unique hc
      exact rest.answered h
  · by_cases ht : t.trusted.contains w
    · right
      obtain ⟨γ, r, u, c, u', hasks, found⟩ :=
        (inside.gained w (enter ▸ absent) ht).resolve_left id
      exact ⟨γ, r, u, c, u', .inside hasks, found⟩
    · refine (rest.gained w (leave ▸ ht) hw).imp_right ?_
      rintro ⟨γ, r, u, c, u', hasks, found⟩
      exact ⟨γ, r, u, c, u', .afterScope hpart hasks, found⟩

/-- The scope of a promotion: if no errors are found, the plan trusts the value, otherwise it takes
    the value back. -/
theorem promotion {v : Value} {part : Plan (List SafetyError)}
    {next : List SafetyError → Plan α} {es : List SafetyError}
    (hpart : part.Ends p n ((Scope.promotion v).enter s) es t)
    (inside : part.RelaysAll p n ((Scope.promotion v).enter s) t)
    (rest : (next es).RelaysAll p n ((Scope.promotion v).leave s.toContext es t) s') :
    (Plan.within (.promotion v) part next).Relays p n (fun w => w = v ∧ es = [])
      (fun w => w = v ∧ es ≠ []) s s' := by
  have enter : s.trusted.Extends (s.trusted.insert v) := Trusted.extends_insert _ _
  have leave (w : Value) (hw : t.trusted.contains w) : (w = v ∧ es ≠ []) ∨
      ((Scope.promotion v).leave s.toContext es t).trusted.contains w := by
    rw [Scope.contains_leave_promotion]
    by_cases taken : w = v ∧ es ≠ []
    · exact .inl taken
    · exact .inr ⟨hw, fun same => Classical.not_not.1 fun hes => taken ⟨same, hes⟩⟩
  have whole (w : Value) (hw : s.trusted.contains w) : (w = v ∧ es ≠ []) ∨
      ((Scope.promotion v).leave s.toContext es t).trusted.contains w :=
    leave w ((inside.keeps w (enter w hw)).resolve_left id)
  have rest_keeps (w : Value)
      (hw : ((Scope.promotion v).leave s.toContext es t).trusted.contains w) :
      s'.trusted.contains w :=
    (rest.keeps w hw).resolve_left id
  refine ⟨fun w hw => (whole w hw).imp_right (rest_keeps w), fun h => ?_, fun h => ?_,
    fun w absent hw => ?_⟩
  · cases h with
    | inside h => exact fun w hw => .inr ((inside.asked h w (enter w hw)).resolve_left id)
    | afterScope hc h =>
      obtain ⟨rfl, rfl⟩ := hpart.unique hc
      refine fun w hw => (whole w hw).imp_right fun hw => ?_
      exact (rest.asked h w hw).resolve_left id
  · cases h with
    | inside h =>
      obtain ⟨c, t', hc, stays⟩ := inside.answered h
      refine ⟨c, t', hc, fun w hw => ?_⟩
      exact (leave w ((stays w hw).resolve_left id)).imp_right (rest_keeps w)
    | afterScope hc h =>
      obtain ⟨rfl, rfl⟩ := hpart.unique hc
      obtain ⟨c, t', hc, stays⟩ := rest.answered h
      exact ⟨c, t', hc, fun w hw => .inr ((stays w hw).resolve_left id)⟩
  · by_cases left : ((Scope.promotion v).leave s.toContext es t).trusted.contains w
    · obtain ⟨ht, clean⟩ := Scope.contains_leave_promotion.1 left
      by_cases same : w = v
      · exact .inl ⟨same, clean same⟩
      · right
        obtain ⟨γ, r, u, c, u', hasks, found⟩ :=
          (inside.gained w (Trusted.not_contains_insert absent same) ht).resolve_left id
        exact ⟨γ, r, u, c, u', .inside hasks, found⟩
    · right
      obtain ⟨γ, r, u, c, u', hasks, found⟩ := (rest.gained w left hw).resolve_left id
      exact ⟨γ, r, u, c, u', .afterScope hpart hasks, found⟩

theorem imp {own' lost' : Value → Prop} {x : Plan α} (h : x.Relays p n own lost s s')
    (owns : ∀ w, own w → own' w) (loses : ∀ w, lost w → lost' w) :
    x.Relays p n own' lost' s s' := by
  refine ⟨fun w hw => (h.keeps w hw).imp_left (loses w), fun hasks w hw => ?_, fun hasks => ?_,
    fun w absent hw => (h.gained w absent hw).imp_left (owns w)⟩
  · exact (h.asked hasks w hw).imp_left (loses w)
  · obtain ⟨c, t', hc, stays⟩ := h.answered hasks
    exact ⟨c, t', hc, fun w hw => (stays w hw).imp_left (loses w)⟩

/-- A plan that relays everything goes on with another one. -/
theorem bind {x : Plan β} {f : β → Plan α} {b : β} (hx : x.Ends p n s b t)
    (first : x.RelaysAll p n s t) (rest : (f b).Relays p n own lost t s') :
    (x >>= f).Relays p n own lost s s' := by
  have keeps (w : Value) (hw : s.trusted.contains w) : t.trusted.contains w :=
    (first.keeps w hw).resolve_left id
  refine ⟨fun w hw => rest.keeps w (keeps w hw), fun h => ?_, fun h => ?_, fun w absent hw => ?_⟩
  · rcases h.of_bind with h | ⟨m, c, u, hc, h⟩
    · exact fun w hw => .inr ((first.asked h w hw).resolve_left id)
    · obtain ⟨rfl, rfl⟩ := hx.unique hc
      exact fun w hw => rest.asked h w (keeps w hw)
  · rcases h.of_bind with h | ⟨m, c, u, hc, h⟩
    · obtain ⟨c, t', hc, stays⟩ := first.answered h
      exact ⟨c, t', hc, fun w hw => rest.keeps w ((stays w hw).resolve_left id)⟩
    · obtain ⟨rfl, rfl⟩ := hx.unique hc
      exact rest.answered h
  · by_cases ht : t.trusted.contains w
    · right
      obtain ⟨γ, r, u, c, u', hasks, found⟩ := (first.gained w absent ht).resolve_left id
      exact ⟨γ, r, u, c, u', hasks.bind_left, found⟩
    · refine (rest.gained w ht hw).imp_right ?_
      rintro ⟨γ, r, u, c, u', hasks, found⟩
      exact ⟨γ, r, u, c, u', .bind_right hx hasks, found⟩

end Plan.Relays

/-! ## The plans -/

namespace Plan

/-- Plans that are alike relay everything. -/
theorem Alike.relays {R : α → α → Prop} {x x' : Plan α} (h : Alike true Eq R x x') {a : α}
    (hx : x.Ends p n s a s') {own lost : Value → Prop} : x.Relays p n own lost s s' := by
  induction h generalizing s s' own lost with
  | pure =>
    obtain ⟨rfl, rfl⟩ := ends_pure.1 hx
    exact .pure _
  | ask _ _ ih =>
    obtain ⟨b, t, hb, hx⟩ := ends_ask_next.1 hx
    exact .ask hb (ih b b (Query.AnswersAlike.refl _ b) hx)
  | look _ ih =>
    obtain ⟨b, t, hb, hx⟩ := ends_perform_next.1 hx
    cases hb
    exact .look_bind (ih _ _ rfl rfl hx)
  | raise _ ih =>
    obtain ⟨b, t, hb, hx⟩ := ends_perform_next.1 hx
    exact .perform hb (Effect.run_trusted hb rfl) (ih b b hx)
  | perform effect plain _ _ ih =>
    obtain ⟨b, t, hb, hx⟩ := ends_perform_next.1 hx
    have quiet : effect.trusts = false := by cases effect <;> first | rfl | cases plain
    exact .perform hb (Effect.run_trusted hb quiet) (ih b hx)
  | env _ hpart _ ihPart ih | trace _ _ hpart _ ihPart ih =>
    obtain ⟨b, t, hend, hx⟩ := ends_within.1 hx
    obtain ⟨b', hS⟩ := hpart.exists_answer hend
    exact .within rfl rfl hend (ihPart hend) (ih b b' hS hx)

section Tests

variable {own lost : Value → Prop} {v : Value} {b : Bool}

theorem relays_capturesHot (h : (capturesHot p v).Ends p n s b s') :
    (capturesHot p v).Relays p n own lost s s' := by
  cases v with
  | ref a =>
    cases a with
    | warm w =>
      obtain ⟨creation, t, hcreation, h⟩ := ends_bind.1 h
      have hcreation := ends_perform.1 hcreation
      refine .perform hcreation (Effect.run_trusted hcreation rfl) ?_
      change (if creation.args.all Value.isHot then (Query.isPromotable creation.outer : Plan Bool)
        else Pure.pure false).Relays p n own lost t s'
      by_cases hot : creation.args.all Value.isHot
      · rw [if_pos hot] at h
        rw [if_pos hot]
        exact .asked_self (ends_ask.1 h)
      · rw [if_neg hot] at h
        obtain ⟨-, rfl⟩ := ends_pure.1 h
        rw [if_neg hot]
        exact .pure _
    | thisOf c =>
      rw [capturesHot, ends_look_bind] at h
      obtain ⟨-, rfl⟩ := ends_pure.1 h
      exact .look_bind (.pure _)
  | closure body params frame env => exact .asked_self (ends_ask.1 h)
  | _ =>
    obtain ⟨-, rfl⟩ := ends_pure.1 h
    exact .pure _

/-- A test that is made for each of the values. -/
theorem relays_allM {vs : List Value}
    (h : (vs.allM fun v => (Query.isPromotable v : Plan Bool)).Ends p n s b s') :
    (vs.allM fun v => (Query.isPromotable v : Plan Bool)).Relays p n own lost s s' := by
  induction vs generalizing s with
  | nil =>
    obtain ⟨-, rfl⟩ := ends_pure.1 h
    exact .pure _
  | cons v vs ih =>
    obtain ⟨c, t, hv, h⟩ := ends_bind.1 h
    refine .ask (ends_ask.1 hv) ?_
    cases c with
    | true => exact ih h
    | false =>
      obtain ⟨-, rfl⟩ := ends_pure.1 h
      exact .pure _

/-- A test trusts the value itself, if it finds it promotable by what it captured. -/
theorem relays_isPromotable (h : (isPromotable p v).Ends p n s b s') :
    (isPromotable p v).Relays p n (fun w => w = v ∧ v.isSingle ∧ b = true) lost s s' := by
  cases v with
  | hot | cold =>
    obtain ⟨-, rfl⟩ := ends_pure.1 h
    exact .pure _
  | oneOf vs =>
    rw [isPromotable, ends_look_bind] at h
    refine .look_bind ?_
    by_cases trusted : s.trusted.contains (.oneOf vs)
    · rw [if_pos trusted] at h
      obtain ⟨-, rfl⟩ := ends_pure.1 h
      simp only [trusted, if_true]
      exact .pure _
    · rw [if_neg trusted] at h
      simp only [trusted]
      exact relays_allM h
  | ref | closure =>
    simp only [isPromotable, ends_look_bind] at h
    refine .look_bind ?_
    split at h
    next trusted =>
      obtain ⟨-, rfl⟩ := ends_pure.1 h
      simp only [trusted, if_true]
      exact .pure _
    next trusted =>
      obtain ⟨c, t, hcaptures, h⟩ := ends_bind.1 h
      simp only [trusted]
      refine .bind hcaptures (relays_capturesHot hcaptures) ?_
      cases c with
      | false =>
        obtain ⟨-, rfl⟩ := ends_pure.1 h
        exact .pure _
      | true =>
        obtain ⟨_, u, htrust, h⟩ := ends_bind.1 h
        obtain ⟨rfl, rfl⟩ := ends_pure.1 h
        cases ends_perform.1 htrust
        exact .trust ⟨rfl, rfl, rfl⟩ (.pure _)

end Tests

/-- An evaluation changes the cache only; inside of its scope it is like any other plan. -/
theorem relays_eval {e : ExprId} {frame : Frame} {final : Bool} {o : Outcome}
    (h : (eval p e frame final).Ends p n s o s') {own lost : Value → Prop} :
    (eval p e frame final).Relays p n own lost s s' := by
  cases hit : s.cache.find? frame.receiver e with
  | some v =>
    obtain ⟨-, rfl⟩ := (ends_eval_of_hit hit).1 h
    refine .look_bind ?_
    simp only [hit]
    exact .pure _
  | none =>
    obtain ⟨t, ht, rfl⟩ := (ends_eval_of_miss hit).1 h
    refine .look_bind ?_
    simp only [hit]
    exact .within rfl rfl ht ((Alike.calledFrom _ (p.expr e).span (alike_node e frame)).relays ht)
      (.pure _)

/-- The errors are explained if there are some. -/
theorem ends_explain_eq_nil {reason : String} {causes es : List SafetyError} {source : Span}
    (h : (explain reason causes source).Ends p n s es s') : es = [] ↔ causes = [] := by
  unfold explain at h
  cases causes with
  | nil => exact iff_of_true (ends_pure.1 h).1 rfl
  | cons e causes =>
    obtain ⟨e', t, -, h⟩ := ends_bind.1 h
    obtain ⟨rfl, -⟩ := ends_pure.1 h
    exact iff_of_false (List.cons_ne_nil _ _) (List.cons_ne_nil _ _)

/-- A promotion trusts the value if it is tried out without errors. -/
theorem relays_promote {v : Value} {reason : String} {source : Span} {es : List SafetyError}
    (h : (promote p v reason source).Ends p n s es s') :
    (promote p v reason source).Relays p n (fun w => w = v ∧ v.isSingle ∧ es = [])
      (fun w => w = v ∧ v.isSingle ∧ es ≠ []) s s' := by
  cases v with
  | hot =>
    obtain ⟨-, rfl⟩ := ends_pure.1 h
    exact .pure _
  | cold => exact (alike_failPromotion reason source).relays h
  | oneOf vs =>
    exact (Alike.errorsOfEach_same vs fun v => alike_askPromote v reason source).relays h
  | ref a =>
    simp only [promote, ends_bind, ends_ask] at h
    obtain ⟨b, t, hb, h⟩ := h
    refine .ask hb ?_
    cases b with
    | true =>
      obtain ⟨-, rfl⟩ := ends_pure.1 h
      exact .pure _
    | false =>
      cases a with
      | thisOf c => exact (alike_failPromotion reason source).relays h
      | warm w =>
        obtain ⟨es', u, hpart, h⟩ := ends_within.1 h
        obtain ⟨rfl, rfl⟩ := ends_pure.1 h
        exact (Relays.promotion hpart ((alike_promoteWarm w reason source).relays hpart)
          (.pure _)).imp (fun w hw => ⟨hw.1, rfl, hw.2⟩) fun w hw => ⟨hw.1, rfl, hw.2⟩
  | closure body params frame env =>
    simp only [promote, ends_bind, ends_ask] at h
    obtain ⟨b, t, hb, h⟩ := h
    refine .ask hb ?_
    cases b with
    | true =>
      obtain ⟨-, rfl⟩ := ends_pure.1 h
      exact .pure _
    | false =>
      obtain ⟨es', u, hpart, h⟩ := ends_within.1 h
      have same := ends_explain_eq_nil h
      exact (Relays.promotion hpart
        ((alike_promoteBody body params frame env reason source).relays hpart)
        ((alike_explain reason source (.refl es')).relays h)).imp
        (fun w hw => ⟨hw.1, rfl, same.2 hw.2⟩)
        fun w hw => ⟨hw.1, rfl, fun hes => hw.2 (same.1 hes)⟩

end Plan

/-! ## Questions -/

/-- Answering the question in this way, its plan may trust the value itself. -/
def Query.Trusts : Query β → β → Value → Prop
  | .promote v _ _, es, w => w = v ∧ v.isSingle ∧ es = []
  | .isPromotable v, b, w => w = v ∧ v.isSingle ∧ b = true
  | _, _, _ => False

/-- Answering the question in this way, its plan may take back its trust in the value. -/
def Query.TakesBack : Query β → β → Value → Prop
  | .promote v _ _, es, w => w = v ∧ v.isSingle ∧ es ≠ []
  | _, _, _ => False

section Questions

variable {q : Query β} {b : β}

theorem Query.Ends.relays (h : q.Ends p (n + 1) s b s') :
    (q.plan p).Relays p n (q.Trusts b) (q.TakesBack b) s s' := by
  rw [Query.ends_succ] at h
  cases q with
  | eval e frame final => exact Plan.relays_eval h
  | select v field source virtual =>
    exact (Plan.alike_select v field source virtual Query.findsSame_of_eq).relays h
  | call v method args dispatch source =>
    exact (Plan.alike_call v method dispatch source (.refl args) Query.findsSame_of_eq).relays h
  | construct v ctor args source => exact (Plan.alike_construct v ctor source (.refl args)).relays h
  | create outer c ctor args source =>
    exact (Plan.alike_create outer c ctor source (.refl args) Heap.contains_of_eq).relays h
  | template c this => exact (Plan.alike_template c this).relays h
  | body c this => exact (Plan.alike_body c this).relays h
  | promote v reason source => exact Plan.relays_promote h
  | isPromotable v => exact Plan.relays_isPromotable h
  | enclosingInstance target v c source =>
    exact (Plan.alike_enclosingInstance target v c source Query.findsSame_of_eq).relays h
  | outerInstance type frame source => exact (Plan.alike_outerInstance type frame source).relays h
  | check c => exact (Plan.alike_check c Heap.contains_of_eq).relays h

/-- A value is not taken back where it was trusted before. -/
theorem Query.untrusted_of_takesBack (h : q.Ends p n s b s') {w : Value} (takes : q.TakesBack b w) :
    ¬s.trusted.contains w := by
  intro trusted
  cases q with
  | promote v reason source =>
    obtain ⟨rfl, single, errors⟩ := takes
    exact errors (Query.Answered.unique ⟨n, h⟩ ⟨2, Query.promote_of_trusted single trusted⟩).1
  | _ => exact takes

/-- A question that is answered without errors takes nothing back. -/
theorem Query.not_takesBack (clean : q.Clean b) {w : Value} : ¬q.TakesBack b w := by
  intro takes
  cases q with
  | promote v reason source => exact takes.2.2 clean
  | _ => exact takes

variable {active : List Cache.Key} {r : Query γ}

/-- What is trusted when a question is asked is trusted on its whole way. -/
theorem Query.Way.trusts (way : q.Way p s active r t) (h : q.Answered p s b s') :
    (∃ c t', r.Answered p t c t') ∧ s.trusted.Extends t.trusted := by
  induction way with
  | start => exact ⟨⟨b, s', h⟩, fun _ hw => hw⟩
  | asked _ hasks ih =>
    obtain ⟨⟨c, u, m, hc⟩, trusts⟩ := ih
    cases m with
    | zero => exact absurd hc Query.ends_zero
    | succ m =>
      obtain ⟨d, u', hd, -⟩ := hc.relays.answered hasks
      refine ⟨⟨d, u', m, hd⟩, fun w hw => ?_⟩
      refine (hc.relays.asked hasks w (trusts w hw)).resolve_left fun takes => ?_
      exact Query.untrusted_of_takesBack hc takes (trusts w hw)

/-- If a question is answered without errors, so are those on its way, and what they trust is
    trusted from then on. -/
theorem Query.Way.trusted_after (way : q.Way p s active r t) (h : q.Answered p s b s')
    (clean : q.Clean b) :
    ∃ c t', r.Answered p t c t' ∧ r.Clean c ∧ t'.trusted.Extends s'.trusted := by
  induction way with
  | start => exact ⟨b, s', h, clean, fun _ hw => hw⟩
  | asked _ hasks ih =>
    obtain ⟨c, u, ⟨m, hc⟩, clean, stays⟩ := ih
    cases m with
    | zero => exact absurd hc Query.ends_zero
    | succ m =>
      obtain ⟨d, u', hd, further⟩ := hc.relays.answered hasks
      obtain ⟨d', u'', hd', clean'⟩ :=
        Query.tells _ m _ c u (Query.ends_succ.1 hc) clean _ _ _ hasks
      obtain ⟨rfl, rfl⟩ := Query.Answered.unique ⟨m, hd⟩ hd'
      refine ⟨d, u', ⟨m, hd⟩, clean', fun w hw => stays w ?_⟩
      exact (further w hw).resolve_left (Query.not_takesBack clean)

/-- On the way of the question the value, which was not trusted, was found promotable or was tried
    out without errors. -/
def Query.Gains (p : Program) (q : Query β) (s : Store) (w : Value) : Prop :=
  ∃ (active : List Cache.Key) (γ : Type) (r : Query γ) (t : Store) (c : γ) (t' : Store),
    q.Way p s active r t ∧ r.Answered p t c t' ∧ r.Trusts c w ∧ ¬t.trusted.contains w

/-- A value that becomes trusted is gained on the way. -/
theorem Query.Ends.new_trusted (h : q.Ends p n s b s') {w : Value}
    (absent : ¬s.trusted.contains w) (present : s'.trusted.contains w) : q.Gains p s w := by
  induction n generalizing β s s' with
  | zero => exact absurd h Query.ends_zero
  | succ n ih =>
    rcases h.relays.gained w absent present with own | ⟨γ, r, t, c, t', hasks, hc, found⟩
    · exact ⟨[], _, q, s, b, s', .start, ⟨_, h⟩, own, absent⟩
    · obtain ⟨active, δ, r', u, d, u', way, gained⟩ := ih hc found.1 found.2
      exact ⟨_, δ, r', u, d, u', (Query.Way.asked .start hasks).trans way, gained⟩

end Questions

/-! ## Promotions are final -/

/-- A store that comes about after the first one: when further questions were answered, or while one
    of them is and another one is asked on its way. -/
inductive Store.Ahead (p : Program) (s : Store) : Store → Prop where
  | after {t : Store} (h : s.Later p t) : Ahead p s t
  | during {t t' u : Store} {β γ : Type} {q : Query β} {b : β} {active : List Cache.Key}
    {r : Query γ} (h : s.Later p t) (context : Context)
    (hq : q.Answered p { t with toContext := context } b t')
    (way : q.Way p { t with toContext := context } active r u) : Ahead p s u

theorem Store.Ahead.trusts {u : Store} (h : s.Ahead p u) : s.trusted.Extends u.trusted := by
  cases h with
  | after h => exact h.keeps.trusted
  | during h context hq way => exact fun w hw => (way.trusts hq).2 w (h.keeps.trusted w hw)

end ObjectInit
