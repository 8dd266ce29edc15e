import ObjectInit.Proofs.Trust

/-!
# Promotions that rest on others

While a value is promoted it is taken to be hot, and further values may be promoted on this
assumption. If the promotion fails, only the value itself is taken back; what was concluded from the
assumption stays trusted.

Main results:

* `Query.trusted_on_assumptions`: a value that becomes trusted was promotable or promoted without
  errors at some time; what was trusted then is trusted at the end, or it was only assumed.
* `Query.unproven_after_failure`: a promotion that fails leaves a value behind that is not promoted
  without errors in the store before.
-/

namespace ObjectInit

variable {p : Program} {n : Nat} {β γ : Type} {s s' t : Store} {q : Query β} {b : β}

/-- When the question `r` is asked in `t`, on the way of `q` from `s`, a promotion of the value is
    in progress, and it fails. -/
def Query.Assumes (p : Program) (q : Query β) (s : Store) (w : Value) (r : Query γ) (t : Store) :
    Prop :=
  ∃ (active active' : List Cache.Key) (reason : String) (source : Span) (u : Store)
    (es : List SafetyError) (u' : Store), q.Way p s active (.promote w reason source) u ∧
      (Query.promote w reason source).Answered p u es u' ∧ es ≠ [] ∧
        (Query.promote w reason source).Way p u active' r t

/-- A question on the way is answered, and what is trusted then is trusted at the end, or it was
    only assumed. -/
theorem Query.Way.trusted_or_assumed {active : List Cache.Key} {r : Query γ}
    (way : q.Way p s active r t) (h : q.Answered p s b s') :
    ∃ c t', r.Answered p t c t' ∧
      ∀ w, t'.trusted.contains w → s'.trusted.contains w ∨ q.Assumes p s w r t := by
  induction way with
  | start => exact ⟨b, s', h, fun _ => .inl⟩
  | @asked active γ δ r r' t u way hasks ih =>
    obtain ⟨c, t', ⟨m, hc⟩, stays⟩ := ih
    cases m with
    | zero => exact absurd hc Query.ends_zero
    | succ m =>
      obtain ⟨d, u', hd, further⟩ := hc.relays.answered hasks
      refine ⟨d, u', ⟨m, hd⟩, fun w hw => ?_⟩
      rcases further w hw with takes | hw
      · -- The promotion that asks takes the value back.
        right
        cases r with
        | promote v reason source =>
          obtain ⟨rfl, -, errors⟩ := takes
          exact ⟨active, _, reason, source, t, c, t', way, ⟨_, hc⟩, errors, .asked .start hasks⟩
        | _ => exact absurd takes id
      · refine (stays w hw).imp_right ?_
        rintro ⟨active, active', reason, source, v, es, v', first, promoted, errors, second⟩
        exact ⟨active, _, reason, source, v, es, v', first, promoted, errors, .asked second hasks⟩

/-- A value that becomes trusted was found promotable or was tried out without errors on the way, in
    a store where it was not trusted. Whatever was trusted in that store is trusted at the end, or
    it was only assumed. -/
theorem Query.trusted_on_assumptions (h : q.Answered p s b s') {w : Value}
    (absent : ¬s.trusted.contains w) (present : s'.trusted.contains w) :
    ∃ (active : List Cache.Key) (γ : Type) (r : Query γ) (t : Store) (c : γ) (t' : Store),
      q.Way p s active r t ∧ r.Answered p t c t' ∧ r.Trusts c w ∧ ¬t.trusted.contains w ∧
        ∀ u, t.trusted.contains u → s'.trusted.contains u ∨ q.Assumes p s u r t := by
  obtain ⟨n, hn⟩ := h
  obtain ⟨active, γ, r, t, c, t', way, answered, trusts, untrusted⟩ := hn.new_trusted absent present
  refine ⟨active, γ, r, t, c, t', way, answered, trusts, untrusted, fun u hu => ?_⟩
  obtain ⟨d, u', hd, stays⟩ := way.trusted_or_assumed ⟨n, hn⟩
  obtain ⟨m, hm⟩ := hd
  exact stays u (hm.keeps.trusted u hu)

/-! ## Two objects that create each other -/

/-- A class `O` with member classes `W` and `X` and a field `late`. `W` has a method that creates an
    instance of `X` and one that returns the instance of `O`; `X` has a method that creates an
    instance of `W`. -/
def createEachOther : Program := .ofCommands [
  .defineClass "O" .package .none true,
  .defineClass "W" (.cls ⟨4⟩) .none true,
  .defineClass "X" (.cls ⟨4⟩) .none true,
  .defineField ⟨4⟩ "late" .value,
  .defineMethod ⟨5⟩ "x" [] .none,
  .defineMethod ⟨5⟩ "bad" [] .none,
  .defineMethod ⟨6⟩ "w" [] .none,
  .newInstanceWith ⟨.thisOf ⟨4⟩, ⟨6⟩⟩ ⟨16⟩ [],
  .setBody ⟨18⟩ ⟨9⟩,
  .thisOf ⟨4⟩,
  .setBody ⟨19⟩ ⟨10⟩,
  .newInstanceWith ⟨.thisOf ⟨4⟩, ⟨5⟩⟩ ⟨15⟩ [],
  .setBody ⟨20⟩ ⟨11⟩]

/-- The instance of `X` with the instance of `O` under construction as its outer, which is created
    after that of `W`. -/
def instanceOfX : Warm := ⟨⟨6⟩, 1⟩

/-- The creation of this instance. -/
def createX : Query Outcome := .create (.ref (.thisOf ⟨4⟩)) ⟨6⟩ ⟨16⟩ [] .empty

/-- The store after both creations. -/
def storeWithBoth : Store :=
  createX.storeAfter createEachOther 20 (createW.storeAfter createEachOther 20 .initial)

theorem later_storeWithBoth : Store.initial.Later createEachOther storeWithBoth :=
  Store.Later.storeAfter (Store.Later.storeAfter .refl (by decide +kernel)) (by decide +kernel)

/-- The store after the promotion of the instance of `W`. -/
def storePromotedBoth : Store :=
  (promoteAnywhere (.ref (.warm instanceOfW))).storeAfter createEachOther 20 storeWithBoth

/-- While the instance of `W` is promoted, the instance of `X` is tried out without errors, and what
    was trusted at that time is trusted at the end, or it was only assumed. -/
theorem Query.trusted_on_assumptions_instanceOfX :
    ∃ es active γ, ∃ (r : Query γ), ∃ t c t',
      (promoteAnywhere (.ref (.warm instanceOfW))).Answered createEachOther storeWithBoth es
        storePromotedBoth ∧
      (promoteAnywhere (.ref (.warm instanceOfW))).Way createEachOther storeWithBoth active r t ∧
      r.Answered createEachOther t c t' ∧ r.Trusts c (.ref (.warm instanceOfX)) ∧
      ∀ u, t.trusted.contains u → storePromotedBoth.trusted.contains u ∨
        (promoteAnywhere (.ref (.warm instanceOfW))).Assumes createEachOther storeWithBoth u r
          t := by
  obtain ⟨es, failed, -⟩ := Query.answered_of_result? (fun _ => true) (p := createEachOther)
    (n := 20) (s := storeWithBoth) (q := promoteAnywhere (.ref (.warm instanceOfW)))
    (by decide +kernel)
  obtain ⟨active, γ, r, t, c, t', way, answered, trusts, -, stays⟩ :=
    Query.trusted_on_assumptions failed (w := .ref (.warm instanceOfX)) (by decide +kernel)
      (by decide +kernel)
  exact ⟨es, active, γ, r, t, c, t', failed, way, answered, trusts, stays⟩

/-- The promotion of the instance of `W` fails, since its second method returns the instance of `O`.
    The instance of `X` is promoted meanwhile and stays trusted. Where the promotion started, that
    of the instance of `X` fails as well. -/
theorem Query.unproven_after_failure :
    Store.initial.Later createEachOther storeWithBoth ∧
      (∃ es, (promoteAnywhere (.ref (.warm instanceOfW))).Answered createEachOther storeWithBoth es
        storePromotedBoth ∧ es ≠ []) ∧
      ¬storeWithBoth.trusted.contains (.ref (.warm instanceOfX)) ∧
      storePromotedBoth.trusted.contains (.ref (.warm instanceOfX)) ∧
      ∃ es t, (promoteAnywhere (.ref (.warm instanceOfX))).Answered createEachOther storeWithBoth es
        t ∧ es ≠ [] := by
  obtain ⟨es, failed, hes⟩ := Query.answered_of_result? (!·.isEmpty) (p := createEachOther)
    (n := 20) (s := storeWithBoth) (q := promoteAnywhere (.ref (.warm instanceOfW)))
    (by decide +kernel)
  obtain ⟨es', failed', hes'⟩ := Query.answered_of_result? (!·.isEmpty) (p := createEachOther)
    (n := 20) (s := storeWithBoth) (q := promoteAnywhere (.ref (.warm instanceOfX)))
    (by decide +kernel)
  refine ⟨later_storeWithBoth, ⟨es, failed, ?_⟩, by decide +kernel, by decide +kernel, es', _,
    failed', ?_⟩
  · rintro rfl
    cases hes
  · rintro rfl
    cases hes'

end ObjectInit
