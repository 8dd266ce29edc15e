import ObjectInit.Proofs.Retries

/-!
# Promotions that fail

A promotion that fails takes back its value. Right afterwards it fails again, if it failed because
of the values that it came upon, and if none of these has become hot meanwhile.

Main results:

* `Query.fails_again`: a promotion that fails for its values alone fails again.
* `Query.lasting_of_passes`: a computation shows that a promotion fails for its values alone.
* `Query.fails_once`: promotions that fail the first time only.
-/

namespace ObjectInit

variable {p : Program} {n : Nat} {β γ : Type} {s s' t t' u : Store} {v : Value} {reason : String}
  {source : Span}

/-! ## Two attempts -/

/-- Where an object under construction is found not to be complete, nothing changes. -/
theorem Query.Ends.isPromotable_thisOf {c : ClassId}
    (h : (Query.isPromotable (.ref (.thisOf c))).Ends p n s false s') : s' = s := by
  cases n with
  | zero => exact absurd h Query.ends_zero
  | succ n =>
    rw [Query.ends_succ, Query.plan] at h
    simp only [Plan.isPromotable, Plan.capturesHot, Plan.ends_look_bind] at h
    split at h
    · exact (Plan.ends_pure.1 h).2
    · obtain ⟨b, t, hb, h⟩ := Plan.ends_bind.1 h
      rw [Plan.ends_look_bind] at hb
      obtain ⟨-, rfl⟩ := Plan.ends_pure.1 hb
      cases b with
      | true =>
        obtain ⟨_, u, -, h⟩ := Plan.ends_bind.1 h
        cases (Plan.ends_pure.1 h).1
      | false => exact (Plan.ends_pure.1 h).2

/-- A promotion that fails takes its value back. -/
theorem Query.untrusted_of_promote (single : v.isSingle) {es : List SafetyError}
    (h : (Query.promote v reason source).Ends p n s es s') (errors : es ≠ []) :
    ¬s'.trusted.contains v := by
  have taken {context : Context} {es : List SafetyError} {u : Store} (errors : es ≠ []) :
      ¬((Scope.promotion v).leave context es u).trusted.contains v :=
    fun trusted => errors ((Scope.contains_leave_promotion.1 trusted).2 rfl)
  cases n with
  | zero => exact absurd h Query.ends_zero
  | succ n =>
    cases v with
    | hot | cold | oneOf => cases single
    | ref a =>
      cases a with
      | thisOf c =>
        obtain ⟨b, hb, fails⟩ := h.promote_thisOf
        cases b with
        | true => exact absurd (fails.2 rfl) errors
        | false =>
          rw [hb.isPromotable_thisOf]
          exact Plan.untrusted_of_isPromotable Value.noConfusion hb
      | warm w =>
        obtain ⟨b, t, -, found, tried⟩ := h.promote_warm
        cases b with
        | true => exact absurd (found rfl) errors
        | false =>
          obtain ⟨u, -, rfl⟩ := tried rfl
          exact taken errors
    | closure body params frame env =>
      obtain ⟨b, t, -, found, tried⟩ := h.promote_closure
      cases b with
      | true => exact absurd (found rfl) errors
      | false =>
        obtain ⟨es', u, -, same, rfl⟩ := tried rfl
        exact taken fun none => errors (same.2 none)

/-- A promotion that fails takes its value back. If it failed for its values alone, the same
    promotion comes to an end right afterwards, it fails again and takes the value back, and what is
    in the heap, in the cache and trusted is the same as before. -/
theorem Query.fails_again {es : List SafetyError} (reached : Store.initial.Later p s)
    (failed : (Query.promote v reason source).Answered p s es s') (errors : es ≠ []) :
    ¬s'.trusted.contains v ∧
      (((Query.promote v reason source).inquiries p s).Lasting s' →
        ∃ es' s'', (Query.promote v reason source).Answered p s' es' s'' ∧ es' ≠ [] ∧
          ¬s''.trusted.contains v ∧ s''.heap = s'.heap ∧ s''.cache = s'.cache ∧
            ∀ w, s''.trusted.contains w ↔ s'.trusted.contains w) := by
  obtain ⟨n, hn⟩ := failed
  have untrusted : ¬s'.trusted.contains v := fun trusted =>
    Query.untrusted_of_promote ((reached.answered ⟨n, hn⟩).isSingle trusted) hn errors trusted
  refine ⟨untrusted, fun lasting => ?_⟩
  have leads : s.LeadsTo p s' s' := ⟨.refl s', fun _ => .inl⟩
  have retraces : s'.Retraces s' s :=
    ⟨rfl, rfl, fun w => ⟨.inl, fun hw => hw.elim id (hn.keeps.trusted w)⟩⟩
  obtain ⟨m, es', s'', second, same, retraced⟩ :=
    lasting.again n v reason source s es s' s' ⟨_, .start⟩ hn leads retraces
  have trusted (w : Value) : s''.trusted.contains w ↔ s'.trusted.contains w := by
    rw [retraced.trusted, or_self]
  refine ⟨es', s'', ⟨m, Plan.ends_ask.1 second⟩, fun none => errors (same.1 none), ?_,
    retraced.heap, retraced.cache, trusted⟩
  rwa [trusted]

/-! ## A test for the first attempt -/

/-- Each field of the object at `a` that has a value in the second heap has one in the first. -/
def Heap.fillsOnly (h h' : Heap) (a : Addr) : Bool :=
  (h'.read a).all fun o => o.fields.keys.all fun f => (h.field? a f).isSome

theorem Heap.field?_of_fillsOnly {h h' : Heap} {a : Addr} (fills : h.fillsOnly h' a) {f : SymbolId}
    (absent : h.field? a f = none) : h'.field? a f = none := by
  cases ho : h'.read a with
  | none => simp [field?, ho]
  | some o =>
    cases present : o.fields[f]? with
    | none => simpa [field?, ho] using present
    | some x =>
      rw [fillsOnly, ho, Option.all_some, List.all_eq_true] at fills
      have mem : f ∈ o.fields.keys := by
        rw [Std.ExtTreeMap.mem_keys, Std.ExtTreeMap.mem_iff_isSome_getElem?, present]
        rfl
      have filled := fills f mem
      rw [absent] at filled
      cases filled

/-- The value is an object under construction, or a warm object with such an outer instance, and
    neither is trusted or complete. -/
def Heap.refuses (h : Heap) (p : Program) (trusted : Value → Bool) : Value → Bool
  | .ref (.thisOf c) => !trusted (.ref (.thisOf c)) && !h.isComplete p c
  | .ref (.warm w) => !trusted (.ref (.warm w)) && (h.creation? w).any fun creation =>
      match creation.outer with
      | .ref (.thisOf c) => !trusted (.ref (.thisOf c)) && !h.isComplete p c
      | _ => false
  | _ => false

theorem Store.not_showsHot_thisOf {c : ClassId} (absent : ¬u.trusted.contains (.ref (.thisOf c)))
    (incomplete : ¬u.heap.isComplete p c) : ¬u.ShowsHot p (.ref (.thisOf c)) := by
  intro shown
  cases shown with
  | trusted present => exact absent present
  | thisOf fields => exact incomplete (Heap.isComplete_iff.2 fields)

/-- What such a value captured is not shown to be hot. -/
theorem Value.showsSame_of_refuses {trusted : Value → Bool}
    (refuses : u.heap.refuses p trusted v) (later : t.heap.Extends u.heap)
    (all : ∀ w, u.trusted.contains w → trusted w) : v.ShowsSame p t u := by
  have base {c : ClassId} (h : !trusted (.ref (.thisOf c)) && !u.heap.isComplete p c) :
      ¬u.ShowsHot p (.ref (.thisOf c)) := by
    simp only [Bool.and_eq_true, Bool.not_eq_true'] at h
    refine Store.not_showsHot_thisOf (fun present => ?_) (by simp [h.2])
    exact Bool.false_ne_true (h.1.symm.trans (all _ present))
  intro z captured shown
  cases v with
  | hot | cold | oneOf | closure => cases refuses
  | ref a =>
    cases a with
    | thisOf c =>
      cases captured with
      | self => exact absurd shown (base refuses)
    | warm w =>
      obtain ⟨untrusted, known⟩ := Bool.and_eq_true_iff.1 refuses
      obtain ⟨creation, known, outer⟩ := (Option.any_eq_true _ _).1 known
      obtain ⟨c, hc⟩ : ∃ c, creation.outer = .ref (.thisOf c) := by
        split at outer
        · exact ⟨_, ‹_›⟩
        · cases outer
      rw [hc] at outer
      have refused : ¬u.ShowsHot p (.ref (.warm w)) := by
        intro shown
        cases shown with
        | trusted present =>
          rw [all _ present] at untrusted
          cases untrusted
        | warm known' _ shown =>
          cases known.symm.trans known'
          exact base outer (hc ▸ shown)
      cases captured with
      | self => exact absurd shown refused
      | outer known' _ captured =>
        cases known.symm.trans (later.creation w _ known')
        rw [hc] at captured
        cases captured
        exact absurd shown (base outer)

/-- An object whose promotion failed in the store `t` is refused by all that is trusted then or at
    the end, and none of its fields is initialized afterwards. Closures do not fail. -/
def Value.fails (p : Program) (last t : Store) : Value → Bool
  | .ref a =>
    last.heap.refuses p (fun w => last.trusted.contains w || t.trusted.contains w) (.ref a) &&
      t.heap.fillsOnly last.heap a
  | .closure .. => false
  | _ => true

/-- The question is answered without errors if it evaluates, and what fails to be promoted fails for
    its value alone. -/
def Query.fails (p : Program) (n : Nat) (last : Store) : {β : Type} → Query β → Store → Bool
  | _, .eval e frame final, t => ((Query.eval e frame final).result? p n t).any (·.1.errors.isEmpty)
  | _, .promote v reason source, t =>
    ((Query.promote v reason source).result? p n t).any (·.1.isEmpty) || v.fails p last t
  | _, _, _ => true

/-- A computation shows that a promotion fails for its values alone. -/
theorem Query.lasting_of_passes {q : Query β} {b : β} (h : q.Ends p n s b s')
    (pass : q.passes p (Query.fails p n s') n s) : (q.inquiries p s).Lasting s' := by
  have tested {v : Value} {t : Store} (failed : (q.inquiries p s).Fail v t) :
      t.heap.Extends s'.heap ∧ Value.fails p s' t v := by
    obtain ⟨reason, source, es, t', ⟨active, way⟩, answered, errors⟩ := failed
    obtain ⟨c, u, ⟨m, hc⟩, later⟩ := way.after Heap.Extends.advances ⟨n, h⟩
    refine ⟨hc.keeps.heap.trans later, (Bool.or_eq_true_iff.1 (way.passes h pass)).resolve_left ?_⟩
    intro none
    obtain ⟨es', ends, none⟩ := Query.ends_of_result? (fun es : List SafetyError => es.isEmpty) none
    obtain ⟨rfl, -⟩ := answered.unique ⟨n, ends⟩
    exact errors (List.isEmpty_iff.1 none)
  constructor
  · rintro e frame final t o t' ⟨active, way⟩ answered
    obtain ⟨o', ends, clean⟩ :=
      Query.ends_of_result? (fun o : Outcome => o.errors.isEmpty) (way.passes h pass)
    obtain ⟨rfl, -⟩ := answered.unique ⟨n, ends⟩
    exact List.isEmpty_iff.1 clean
  · intro v t single failed u heap trusted
    obtain ⟨later, test⟩ := tested failed
    cases v with
    | hot | cold | oneOf => cases single
    | closure => cases test
    | ref a =>
      have refuses := (Bool.and_eq_true_iff.1 test).1
      rw [← heap] at refuses later
      exact Value.showsSame_of_refuses refuses later fun w hw =>
        Bool.or_eq_true_iff.2 (trusted w hw)
  · intro w t failed f absent
    exact Heap.field?_of_fillsOnly (Bool.and_eq_true_iff.1 (tested failed).2).2 absent
  · intro body params frame env t failed
    cases (tested failed).2

/-! ## An object that fails twice -/

/-- The instance of `W` fails, since its second method returns the instance of `O`, and it fails
    again right afterwards, with the instance of `X` trusted that was promoted meanwhile. -/
theorem Query.fails_again_instanceOfW :
    (∃ es, (promoteAnywhere (.ref (.warm instanceOfW))).Answered createEachOther storeWithBoth es
        storePromotedBoth ∧ es ≠ []) ∧
      storePromotedBoth.trusted.contains (.ref (.warm instanceOfX)) ∧
      ∃ es s'', (promoteAnywhere (.ref (.warm instanceOfW))).Answered createEachOther
          storePromotedBoth es s'' ∧
        es ≠ [] ∧ ¬s''.trusted.contains (.ref (.warm instanceOfW)) := by
  obtain ⟨es, first, hes⟩ := Query.ends_of_result? (!·.isEmpty) (p := createEachOther)
    (n := 20) (s := storeWithBoth) (q := promoteAnywhere (.ref (.warm instanceOfW)))
    (by decide +kernel)
  have errors : es ≠ [] := by
    rintro rfl
    cases hes
  have lasting := Query.lasting_of_passes first (by decide +kernel)
  obtain ⟨es', s'', second, again, absent, -⟩ :=
    (Query.fails_again later_storeWithBoth ⟨20, first⟩ errors).2 lasting
  exact ⟨⟨es, ⟨20, first⟩, errors⟩, by decide +kernel, es', s'', second, again, absent⟩

/-! ## Values that fail once -/

/-- The value fails in a store that an analysis leads to, and right afterwards it does not fail. -/
def Value.FailsOnce (v : Value) (p : Program) (s : Store) : Prop :=
  Store.initial.Later p s ∧ ∃ es s' s'', (promoteAnywhere v).Answered p s es s' ∧ es ≠ [] ∧
    (promoteAnywhere v).Answered p s' [] s''

theorem Value.failsOnce_of_result? (reached : Store.initial.Later p s)
    (first : ((promoteAnywhere v).result? p n s).any (!·.1.isEmpty))
    (second : ((promoteAnywhere v).result? p n ((promoteAnywhere v).storeAfter p n s)).any
      (·.1.isEmpty)) : v.FailsOnce p s := by
  obtain ⟨es, fails, some⟩ :=
    Query.answered_of_result? (fun es : List SafetyError => !es.isEmpty) first
  obtain ⟨es', again, none⟩ :=
    Query.answered_of_result? (fun es : List SafetyError => es.isEmpty) second
  rw [List.isEmpty_iff] at none
  subst none
  refine ⟨reached, es, _, _, fails, ?_, again⟩
  rintro rfl
  cases some

/-- A class `O` with a member class `W` and a field `late`. `W` has a method that reads `late`. -/
def readsLate : Program := .ofCommands [
  .defineClass "O" .package .none true,
  .defineClass "W" (.cls ⟨4⟩) .none true,
  .defineMethod ⟨5⟩ "bad" [] .none,
  .defineField ⟨4⟩ "late" .value,
  .ident ⟨17⟩,
  .setBody ⟨16⟩ ⟨5⟩]

/-- A class `O` with a member class `W` and a field `late`. `W` has a method with a local class `L`.
    `L` has a method that returns its outer instance and one that returns the instance of `O`. -/
def localClass : Program := .ofCommands [
  .defineClass "O" .package .none true,
  .defineClass "W" (.cls ⟨4⟩) .none true,
  .defineMethod ⟨5⟩ "m" [] .none,
  .defineClass "L" (.inside ⟨16⟩) .none true,
  .defineMethod ⟨6⟩ "x" [] .none,
  .defineMethod ⟨6⟩ "bad" [] .none,
  .defineField ⟨4⟩ "late" .value,
  .thisOf ⟨5⟩,
  .setBody ⟨18⟩ ⟨8⟩,
  .thisOf ⟨4⟩,
  .setBody ⟨19⟩ ⟨9⟩]

/-- The creation of an instance of `L`. -/
def createL : Query Outcome := .create (.ref (.warm instanceOfW)) ⟨6⟩ ⟨17⟩ [] .empty

/-- The instance of `L`, which is created after that of `W`. -/
def instanceOfL : Warm := ⟨⟨6⟩, 1⟩

/-- A class `O` with a member class `W` and a field `late`. `W` has a constructor that does not
    initialize its field `f`, whose initializer carries out the template of `W` and then returns the
    instance of `O`. There is a closure in `W` that reads `f`. -/
def setsItself : Program := .ofCommands [
  .defineClass "O" .package .none true,
  .defineClass "W" (.cls ⟨4⟩) .none true,
  .defineField ⟨5⟩ "f" .value,
  .defineConstructor ⟨5⟩ [],
  .literal,
  .setBody ⟨17⟩ ⟨5⟩,
  .defineField ⟨4⟩ "late" .value,
  .thisOf ⟨4⟩,
  .block [⟨2⟩] ⟨7⟩,
  .setBody ⟨16⟩ ⟨8⟩,
  .declareFunction (.cls ⟨5⟩) [],
  .ident ⟨16⟩,
  .closure ⟨19⟩ ⟨9⟩]

/-- The creation of an instance of `W` whose field is not initialized. -/
def createUnset : Query Outcome := .create (.ref (.thisOf ⟨4⟩)) ⟨5⟩ ⟨17⟩ [] .empty

/-- A promotion need not fail again if the errors come from an evaluation, whose value is kept
    without them; if the outer instance was promoted meanwhile, which is that of a local class; if
    the body of a closure has another value the second time; or if a field of the object was
    initialized. -/
theorem Query.fails_once :
    (Value.ref (.warm instanceOfW)).FailsOnce readsLate (createW.storeAfter readsLate 20 .initial) ∧
      (Value.ref (.warm instanceOfL)).FailsOnce localClass
        (createL.storeAfter localClass 20 (createW.storeAfter localClass 20 .initial)) ∧
      (Value.closure ⟨9⟩ [] ⟨.warm instanceOfW, ⟨5⟩⟩ .empty).FailsOnce setsItself
        (createUnset.storeAfter setsItself 20 .initial) ∧
      (Value.ref (.warm instanceOfW)).FailsOnce setsItself
        (createUnset.storeAfter setsItself 20 .initial) := by
  have created : Store.initial.Later readsLate (createW.storeAfter readsLate 20 .initial) :=
    .storeAfter .refl (by decide +kernel)
  have outer : Store.initial.Later localClass (createW.storeAfter localClass 20 .initial) :=
    .storeAfter .refl (by decide +kernel)
  have inner : Store.initial.Later localClass
      (createL.storeAfter localClass 20 (createW.storeAfter localClass 20 .initial)) :=
    outer.storeAfter (by decide +kernel)
  have unset : Store.initial.Later setsItself (createUnset.storeAfter setsItself 20 .initial) :=
    .storeAfter .refl (by decide +kernel)
  exact ⟨Value.failsOnce_of_result? (n := 20) created (by decide +kernel) (by decide +kernel),
    Value.failsOnce_of_result? (n := 20) inner (by decide +kernel) (by decide +kernel),
    Value.failsOnce_of_result? (n := 20) unset (by decide +kernel) (by decide +kernel),
    Value.failsOnce_of_result? (n := 20) unset (by decide +kernel) (by decide +kernel)⟩

end ObjectInit
