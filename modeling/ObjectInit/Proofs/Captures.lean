import ObjectInit.Proofs.Addresses
import ObjectInit.Proofs.Assumptions
import ObjectInit.Proofs.Creations
import ObjectInit.Proofs.Visits

/-!
# What captured values show

Whether a value is promotable can be read off what it captured, the heap and the values that are
trusted already: `Store.ShowsHot` says so without the recursion of the test, and without what the
test remembers. The test of a warm object goes on with its outer instance, which has a smaller
number, so it comes to an end.

Main results:

* `Query.isPromotable_shows`: the test decides the predicate and remembers only values for which it
  holds.
* `Query.isPromotable_again`: when a test is made again, its answer is the same, unless something
  that the value captured has become hot meanwhile.
* `Query.isPromotable_decides`: in the analysis of a program the test always comes to an end, what
  it remembers changes no later answer, and a value that passes it is promoted without errors.
* `Query.isPromotable_closure`: of what a closure captured, the test looks at the receiver only.
* `Query.isPromotable_misses_captured`: it finds a closure promotable that captured a cold value.
-/

namespace ObjectInit

variable {p : Program} {n : Nat} {β γ : Type} {s s' t u : Store} {v w : Value}

/-! ## The predicate -/

/-- What the value captured, the heap and the trusted values show that the value is hot. -/
inductive Store.ShowsHot (p : Program) (s : Store) : Value → Prop where
  | hot : ShowsHot p s .hot
  | trusted {v : Value} (h : s.trusted.contains v) (hcold : v ≠ .cold) : ShowsHot p s v
  /-- The arguments were hot, and the outer instance is shown to be hot. -/
  | warm {w : Warm} {creation : Creation} (known : s.heap.creation? w = some creation)
    (args : ∀ v ∈ creation.args, v = .hot) (outer : ShowsHot p s creation.outer) :
    ShowsHot p s (.ref (.warm w))
  /-- The strict fields of all classes with source have values, abstract ones excepted. -/
  | thisOf {c : ClassId}
    (fields : ∀ base ∈ (p.cls c).linearization, (p.cls base).hasSource →
      ∀ f ∈ p.fields base, (p.symbol f).isLazy = false → (p.symbol f).isDeferred = false →
        (s.heap.field? (.thisOf c) f).isSome) : ShowsHot p s (.ref (.thisOf c))
  | closure {body : ExprId} {params : List SymbolId} {frame : Frame} {env : Env}
    (receiver : ShowsHot p s (.ref frame.receiver)) :
    ShowsHot p s (.closure body params frame env)
  | oneOf {vs : List Value} (members : ∀ v ∈ vs, ShowsHot p s v) : ShowsHot p s (.oneOf vs)

theorem Heap.isComplete_iff {h : Heap} {c : ClassId} :
    h.isComplete p c ↔ ∀ base ∈ (p.cls c).linearization, (p.cls base).hasSource →
      ∀ f ∈ p.fields base, (p.symbol f).isLazy = false → (p.symbol f).isDeferred = false →
        (h.field? (.thisOf c) f).isSome := by
  simp only [isComplete, List.all_eq_true, Bool.or_eq_true, Bool.not_eq_true']
  refine forall₂_congr fun base _ => ?_
  cases (p.cls base).hasSource with
  | false => simp
  | true =>
    simp only [Bool.true_eq_false, false_or, forall_const]
    refine forall₂_congr fun f _ => ?_
    cases (p.symbol f).isLazy <;> cases (p.symbol f).isDeferred <;> simp

namespace Store.ShowsHot

theorem not_cold : ¬s.ShowsHot p .cold := by
  intro h
  cases h with
  | trusted _ hcold => exact hcold rfl

/-- More trusted values change nothing, if all of them are shown to be hot. -/
theorem of_trusted (heap : s'.heap = s.heap)
    (trusted : ∀ v, s'.trusted.contains v → v ≠ .cold → s.ShowsHot p v) (h : s'.ShowsHot p v) :
    s.ShowsHot p v := by
  induction h with
  | hot => exact .hot
  | trusted h hcold => exact trusted _ h hcold
  | warm known args _ ih => exact .warm (heap ▸ known) args ih
  | thisOf fields => exact .thisOf (heap ▸ fields)
  | closure _ ih => exact .closure ih
  | oneOf _ ih => exact .oneOf ih

end Store.ShowsHot

/-! ## What a test remembers -/

/-- The second store trusts more values, all of them single ones that are shown to be hot in the
    first store. Nothing else is different. -/
structure Store.Learns (p : Program) (s s' : Store) : Prop where
  same : ∃ trusted, s' = { s with trusted }
  keeps : s.trusted.Extends s'.trusted
  shown : ∀ v, s'.trusted.contains v → s.trusted.contains v ∨ v.isSingle ∧ s.ShowsHot p v

namespace Store.Learns

theorem refl (s : Store) : s.Learns p s := ⟨⟨_, rfl⟩, fun _ h => h, fun _ => .inl⟩

theorem heap (h : s.Learns p s') : s'.heap = s.heap := by
  obtain ⟨trusted, rfl⟩ := h.same
  rfl

/-- What is remembered changes nothing about what is shown to be hot. -/
theorem showsHot_iff (h : s.Learns p s') : s'.ShowsHot p v ↔ s.ShowsHot p v := by
  constructor
  · refine .of_trusted h.heap fun v hv hcold => ?_
    rcases h.shown v hv with old | ⟨-, new⟩
    · exact .trusted old hcold
    · exact new
  · exact .of_trusted h.heap.symm fun v hv hcold => .trusted (h.keeps v hv) hcold

theorem trans (h : s.Learns p t) (h' : t.Learns p u) : s.Learns p u := by
  refine ⟨?_, fun v hv => h'.keeps v (h.keeps v hv), fun v hv => ?_⟩
  · obtain ⟨first, rfl⟩ := h.same
    obtain ⟨second, rfl⟩ := h'.same
    exact ⟨second, rfl⟩
  · rcases h'.shown v hv with hv | ⟨single, new⟩
    · exact h.shown v hv
    · exact .inr ⟨single, h.showsHot_iff.1 new⟩

/-- A single value is remembered. -/
theorem trust (single : v.isSingle) (shown : s.ShowsHot p v) :
    s.Learns p { s with trusted := s.trusted.insert v } := by
  refine ⟨⟨_, rfl⟩, Trusted.extends_insert _ _, fun w hw => ?_⟩
  by_cases same : w = v
  · exact .inr ⟨same ▸ single, same ▸ shown⟩
  · by_cases old : s.trusted.contains w
    · exact .inl old
    · exact absurd hw (Trusted.not_contains_insert old same)

end Store.Learns

/-! ## The test decides the predicate -/

/-- A single value that is not trusted is tested by what it captured. -/
theorem Plan.ends_isPromotable_of_untrusted (single : v.isSingle)
    (untrusted : ¬s.trusted.contains v) {b : Bool} :
    (Plan.isPromotable p v).Ends p n s b s' ↔ ∃ t, (Plan.capturesHot p v).Ends p n s b t ∧
      s' = if b then { t with trusted := t.trusted.insert v } else t := by
  cases v with
  | hot | cold | oneOf => cases single
  | ref | closure =>
    simp only [isPromotable, ends_look_bind]
    rw [if_neg untrusted]
    constructor
    · intro h
      obtain ⟨c, t, hcaptures, rest⟩ := ends_bind.1 h
      cases c with
      | false =>
        obtain ⟨rfl, rfl⟩ := ends_pure.1 rest
        exact ⟨_, hcaptures, rfl⟩
      | true =>
        obtain ⟨_, u, htrust, last⟩ := ends_bind.1 rest
        obtain ⟨rfl, rfl⟩ := ends_pure.1 last
        cases ends_perform.1 htrust
        exact ⟨t, hcaptures, rfl⟩
    · rintro ⟨t, hcaptures, rfl⟩
      refine ends_bind.2 ⟨b, t, hcaptures, ?_⟩
      cases b with
      | false => exact ends_pure.2 ⟨rfl, rfl⟩
      | true => exact ends_bind.2 ⟨(), _, ends_perform.2 rfl, ends_pure.2 ⟨rfl, rfl⟩⟩

section Decides

variable (hq : ∀ v s b s', (Query.isPromotable v).Ends p n s b s' →
  (b = true ↔ s.ShowsHot p v) ∧ s.Learns p s') {b : Bool}
include hq

theorem Plan.capturesHot_shows (single : v.isSingle) (untrusted : ¬s.trusted.contains v)
    (h : (Plan.capturesHot p v).Ends p n s b s') :
    (b = true ↔ s.ShowsHot p v) ∧ s.Learns p s' := by
  cases v with
  | hot | cold | oneOf => cases single
  | ref a =>
    cases a with
    | warm w =>
      obtain ⟨creation, t, hcreation, rest⟩ := Plan.ends_bind.1 h
      obtain ⟨known, rfl⟩ := Effect.run_creationOf.1 (Plan.ends_perform.1 hcreation)
      have shown : t.ShowsHot p (.ref (.warm w)) ↔
          (∀ v ∈ creation.args, v = .hot) ∧ t.ShowsHot p creation.outer := by
        refine ⟨fun shown => ?_, fun ⟨args, outer⟩ => .warm known args outer⟩
        cases shown with
        | trusted trusted => exact absurd trusted untrusted
        | warm known' args outer =>
          cases known.symm.trans known'
          exact ⟨args, outer⟩
      have hot : creation.args.all Value.isHot ↔ ∀ v ∈ creation.args, v = .hot := by
        rw [List.all_eq_true]
        exact forall₂_congr fun v _ => by cases v <;> simp [Value.isHot]
      by_cases args : creation.args.all Value.isHot
      · rw [if_pos args] at rest
        obtain ⟨answer, learns⟩ := hq _ _ _ _ (Plan.ends_ask.1 rest)
        exact ⟨answer.trans ((and_iff_right (hot.1 args)).symm.trans shown.symm), learns⟩
      · rw [if_neg args] at rest
        obtain ⟨rfl, rfl⟩ := Plan.ends_pure.1 rest
        exact ⟨iff_of_false Bool.false_ne_true fun h => args (hot.2 (shown.1 h).1), .refl _⟩
    | thisOf c =>
      rw [Plan.capturesHot, Plan.ends_look_bind] at h
      obtain ⟨rfl, rfl⟩ := Plan.ends_pure.1 h
      refine ⟨Heap.isComplete_iff.trans ⟨.thisOf, fun shown => ?_⟩, .refl _⟩
      cases shown with
      | trusted trusted => exact absurd trusted untrusted
      | thisOf fields => exact fields
  | closure body params frame env =>
    obtain ⟨answer, learns⟩ := hq _ _ _ _ (Plan.ends_ask.1 h)
    refine ⟨answer.trans ⟨.closure, fun shown => ?_⟩, learns⟩
    cases shown with
    | trusted trusted => exact absurd trusted untrusted
    | closure receiver => exact receiver

theorem Plan.allM_shows {vs : List Value}
    (h : (vs.allM fun v => (Query.isPromotable v : Plan Bool)).Ends p n s b s') :
    (b = true ↔ ∀ v ∈ vs, s.ShowsHot p v) ∧ s.Learns p s' := by
  induction vs generalizing s with
  | nil =>
    obtain ⟨rfl, rfl⟩ := Plan.ends_pure.1 h
    exact ⟨iff_of_true rfl (List.forall_mem_nil _), .refl _⟩
  | cons v vs ih =>
    obtain ⟨c, t, hv, rest⟩ := Plan.ends_bind.1 h
    obtain ⟨answer, learns⟩ := hq _ _ _ _ (Plan.ends_ask.1 hv)
    rw [List.forall_mem_cons, ← answer]
    cases c with
    | true =>
      obtain ⟨others, learns'⟩ := ih rest
      refine ⟨?_, learns.trans learns'⟩
      rw [others, and_iff_right rfl]
      exact forall₂_congr fun v _ => learns.showsHot_iff
    | false =>
      obtain ⟨rfl, rfl⟩ := Plan.ends_pure.1 rest
      exact ⟨iff_of_false Bool.false_ne_true fun h => Bool.false_ne_true h.1, learns⟩

theorem Plan.isPromotable_shows_single (single : v.isSingle)
    (h : (Plan.isPromotable p v).Ends p n s b s') :
    (b = true ↔ s.ShowsHot p v) ∧ s.Learns p s' := by
  have warm : v ≠ .cold := by
    rintro rfl
    cases single
  by_cases trusted : s.trusted.contains v
  · obtain ⟨rfl, rfl⟩ := (Plan.ends_isPromotable_of_trusted trusted warm).1 h
    exact ⟨iff_of_true rfl (.trusted trusted warm), .refl _⟩
  · obtain ⟨t, hcaptures, rfl⟩ := (Plan.ends_isPromotable_of_untrusted single trusted).1 h
    obtain ⟨answer, learns⟩ := Plan.capturesHot_shows hq single trusted hcaptures
    cases b with
    | false => exact ⟨answer, learns⟩
    | true =>
      exact ⟨answer, learns.trans (.trust single (learns.showsHot_iff.2 (answer.1 rfl)))⟩

end Decides

/-- Whatever the store, the test decides whether the value is shown to be hot, and it remembers only
    values for which this is the case. -/
theorem Query.isPromotable_shows {b : Bool} (h : (Query.isPromotable v).Ends p n s b s') :
    (b = true ↔ s.ShowsHot p v) ∧ s.Learns p s' := by
  induction n generalizing v s b s' with
  | zero => exact absurd h Query.ends_zero
  | succ n ih =>
    have hq v s b s' (h : (Query.isPromotable v).Ends p n s b s') := ih h
    rw [Query.ends_succ, Query.plan] at h
    cases v with
    | hot =>
      obtain ⟨rfl, rfl⟩ := Plan.ends_pure.1 h
      exact ⟨iff_of_true rfl .hot, .refl _⟩
    | cold =>
      obtain ⟨rfl, rfl⟩ := Plan.ends_pure.1 h
      exact ⟨iff_of_false Bool.false_ne_true Store.ShowsHot.not_cold, .refl _⟩
    | oneOf vs =>
      rw [Plan.isPromotable, Plan.ends_look_bind] at h
      by_cases trusted : s.trusted.contains (.oneOf vs)
      · rw [if_pos trusted] at h
        obtain ⟨rfl, rfl⟩ := Plan.ends_pure.1 h
        exact ⟨iff_of_true rfl (.trusted trusted (Value.noConfusion ·)), .refl _⟩
      · rw [if_neg trusted] at h
        obtain ⟨answer, learns⟩ := Plan.allM_shows hq h
        refine ⟨answer.trans ⟨.oneOf, fun shown => ?_⟩, learns⟩
        cases shown with
        | trusted present => exact absurd present trusted
        | oneOf members => exact members
    | ref | closure => exact Plan.isPromotable_shows_single hq rfl h

/-! ## Tests that are made again -/

/-- The test of the value may come to the value `z`, through what it captured. -/
inductive Heap.Captures (h : Heap) (z : Value) : Value → Prop where
  | self : Captures h z z
  | outer {w : Warm} {creation : Creation} (known : h.creation? w = some creation)
    (args : ∀ v ∈ creation.args, v = .hot) (c : Captures h z creation.outer) :
    Captures h z (.ref (.warm w))
  | receiver {body : ExprId} {params : List SymbolId} {frame : Frame} {env : Env}
    (c : Captures h z (.ref frame.receiver)) : Captures h z (.closure body params frame env)
  | member {v : Value} {vs : List Value} (mem : v ∈ vs) (c : Captures h z v) :
    Captures h z (.oneOf vs)

/-- What the value captured shows no more in the second store than in the first one. -/
def Value.ShowsSame (p : Program) (v : Value) (t u : Store) : Prop :=
  ∀ z, t.heap.Captures z v → u.ShowsHot p z → t.ShowsHot p z

section Again

variable {b : Bool}
  (hq : ∀ v t b t', (Query.isPromotable v).Ends p n t b t' → t.heap.Extends u.heap →
    t'.trusted.Extends u.trusted → v.ShowsSame p t u → (Query.isPromotable v).Ends p n u b u)
include hq

theorem Plan.capturesHot_again (h : (Plan.capturesHot p v).Ends p n t b s')
    (heap : t.heap.Extends u.heap) (trusted : s'.trusted.Extends u.trusted)
    (untrusted : ¬t.trusted.contains v) (same : v.ShowsSame p t u) :
    (Plan.capturesHot p v).Ends p n u b u := by
  cases v with
  | hot | cold | oneOf =>
    obtain ⟨rfl, -⟩ := Plan.ends_pure.1 h
    exact Plan.ends_pure.2 ⟨rfl, rfl⟩
  | ref a =>
    cases a with
    | warm w =>
      obtain ⟨creation, t, hcreation, rest⟩ := Plan.ends_bind.1 h
      obtain ⟨known, rfl⟩ := Effect.run_creationOf.1 (Plan.ends_perform.1 hcreation)
      have later := Effect.run_creationOf.2 ⟨heap.creation w creation known, rfl⟩
      refine Plan.ends_bind.2 ⟨creation, u, Plan.ends_perform.2 later, ?_⟩
      by_cases args : creation.args.all Value.isHot
      · rw [if_pos args] at rest ⊢
        have hot : ∀ v ∈ creation.args, v = .hot := fun v hv => by
          have := List.all_eq_true.1 args v hv
          cases v <;> first | rfl | cases this
        exact Plan.ends_ask.2 (hq _ _ _ _ (Plan.ends_ask.1 rest) heap trusted
          fun z hz => same z (.outer known hot hz))
      · rw [if_neg args] at rest ⊢
        obtain ⟨rfl, -⟩ := Plan.ends_pure.1 rest
        exact Plan.ends_pure.2 ⟨rfl, rfl⟩
    | thisOf c =>
      rw [Plan.capturesHot, Plan.ends_look_bind] at h ⊢
      obtain ⟨rfl, rfl⟩ := Plan.ends_pure.1 h
      refine Plan.ends_pure.2 ⟨?_, rfl⟩
      rw [Bool.eq_iff_iff, Heap.isComplete_iff, Heap.isComplete_iff]
      constructor
      · intro fields base hbase source f hf strict concrete
        obtain ⟨x, hx⟩ := Option.isSome_iff_exists.1 (fields base hbase source f hf strict concrete)
        exact Option.isSome_iff_exists.2 ⟨x, heap.field hx⟩
      · intro fields
        cases same _ .self (.thisOf fields) with
        | trusted present => exact absurd present untrusted
        | thisOf fields => exact fields
  | closure body params frame env =>
    exact Plan.ends_ask.2 (hq _ _ _ _ (Plan.ends_ask.1 h) heap trusted
      fun z hz => same z (.receiver hz))

theorem Plan.allM_again {vs : List Value}
    (h : (vs.allM fun v => (Query.isPromotable v : Plan Bool)).Ends p n t b s')
    (heap : t.heap.Extends u.heap) (trusted : s'.trusted.Extends u.trusted)
    (same : ∀ v ∈ vs, v.ShowsSame p t u) :
    (vs.allM fun v => (Query.isPromotable v : Plan Bool)).Ends p n u b u := by
  induction vs generalizing t with
  | nil =>
    obtain ⟨rfl, -⟩ := Plan.ends_pure.1 h
    exact Plan.ends_pure.2 ⟨rfl, rfl⟩
  | cons v vs ih =>
    obtain ⟨c, t', hv, rest⟩ := Plan.ends_bind.1 h
    have learns := (Query.isPromotable_shows (Plan.ends_ask.1 hv)).2
    obtain ⟨others, last⟩ : t'.trusted.Extends s'.trusted ∧ (c = true →
        (vs.allM fun v => (Query.isPromotable v : Plan Bool)).Ends p n u b u) := by
      cases c with
      | true =>
        refine ⟨(Plan.allM_shows (fun _ _ _ _ => Query.isPromotable_shows) rest).2.keeps,
          fun _ => ih rest (learns.heap ▸ heap) fun w hw z hz shown => ?_⟩
        rw [learns.heap] at hz
        exact learns.showsHot_iff.2 (same w (List.mem_cons_of_mem v hw) z hz shown)
      | false =>
        obtain ⟨-, rfl⟩ := Plan.ends_pure.1 rest
        exact ⟨fun _ hw => hw, nofun⟩
    have first := hq _ _ _ _ (Plan.ends_ask.1 hv) heap (fun w hw => trusted w (others w hw))
      (same v List.mem_cons_self)
    refine Plan.ends_bind.2 ⟨c, u, Plan.ends_ask.2 first, ?_⟩
    cases c with
    | true => exact last rfl
    | false =>
      obtain ⟨rfl, -⟩ := Plan.ends_pure.1 rest
      exact Plan.ends_pure.2 ⟨rfl, rfl⟩

theorem Plan.isPromotable_again_single (single : v.isSingle)
    (h : (Plan.isPromotable p v).Ends p n t b s') (heap : t.heap.Extends u.heap)
    (trusted : s'.trusted.Extends u.trusted) (same : v.ShowsSame p t u)
    (answer : b = true ↔ t.ShowsHot p v) (keeps : t.trusted.Extends s'.trusted) :
    (Plan.isPromotable p v).Ends p n u b u := by
  have warm : v ≠ .cold := by
    rintro rfl
    cases single
  by_cases present : u.trusted.contains v
  · cases answer.2 (same _ .self (.trusted present warm))
    exact (Plan.ends_isPromotable_of_trusted present warm).2 ⟨rfl, rfl⟩
  · have absent : ¬t.trusted.contains v := fun earlier => present (trusted _ (keeps _ earlier))
    obtain ⟨t', hcaptures, rfl⟩ := (Plan.ends_isPromotable_of_untrusted single absent).1 h
    cases b with
    | true =>
      -- The value would be trusted already.
      refine absurd (trusted v ?_) present
      exact (Trusted.contains_insert _ _ _).trans (by simp)
    | false =>
      exact (Plan.ends_isPromotable_of_untrusted single present).2
        ⟨u, Plan.capturesHot_again hq hcaptures heap trusted absent same, rfl⟩

end Again

/-- A test that is made again, in a store that trusts what the first test trusted, has the same
    answer and changes nothing, if what the value captured shows no more than the first time. -/
theorem Query.isPromotable_again {b : Bool} (h : (Query.isPromotable v).Ends p n t b s')
    (heap : t.heap.Extends u.heap) (trusted : s'.trusted.Extends u.trusted)
    (same : v.ShowsSame p t u) : (Query.isPromotable v).Ends p n u b u := by
  induction n generalizing v t b s' with
  | zero => exact absurd h Query.ends_zero
  | succ n ih =>
    have hq v t b s' (h : (Query.isPromotable v).Ends p n t b s') := ih h
    have answer := (Query.isPromotable_shows h).1
    have keeps := (Query.isPromotable_shows h).2.keeps
    rw [Query.ends_succ, Query.plan] at h ⊢
    cases v with
    | hot | cold =>
      obtain ⟨rfl, -⟩ := Plan.ends_pure.1 h
      exact Plan.ends_pure.2 ⟨rfl, rfl⟩
    | oneOf vs =>
      by_cases present : u.trusted.contains (.oneOf vs)
      · cases answer.2 (same _ .self (.trusted present (Value.noConfusion ·)))
        exact (Plan.ends_isPromotable_of_trusted present (Value.noConfusion ·)).2 ⟨rfl, rfl⟩
      · have absent : ¬t.trusted.contains (.oneOf vs) :=
          fun earlier => present (trusted _ (keeps _ earlier))
        rw [Plan.isPromotable, Plan.ends_look_bind, if_neg absent] at h
        rw [Plan.isPromotable, Plan.ends_look_bind, if_neg present]
        exact Plan.allM_again hq h heap trusted fun v hv z hz => same z (.member hv hz)
    | ref | closure =>
      exact Plan.isPromotable_again_single hq rfl h heap trusted same answer keeps

/-! ## The test comes to an end -/

/-- The ways of creation of all warm objects that occur in the value are known. -/
def Heap.Identifies (h : Heap) (v : Value) : Prop :=
  ∀ w, v.Mentions (.warm w) → (h.creation? w).isSome

namespace Plan

/-- The plan comes to an end. -/
abbrev Finishes (p : Program) {α : Type} (x : Plan α) (s : Store) : Prop :=
  x.Meets p s fun _ _ => True

/-- The test of a single value comes to an end if that of what it captured does. -/
theorem finishes_isPromotable (single : v.isSingle) (h : (capturesHot p v).Finishes p s) :
    (isPromotable p v).Finishes p s := by
  have test : (do
      let promotable ← capturesHot p v
      if promotable then
        Effect.trust v
      return promotable : Plan Bool).Finishes p s := by
    refine meets_bind (h.imp fun c t _ => ?_)
    cases c with
    | false => exact meets_pure trivial
    | true => exact meets_bind (meets_perform rfl (meets_pure trivial))
  cases v with
  | hot | cold | oneOf => cases single
  | ref | closure =>
    refine meets_look_bind ?_
    split
    · exact meets_pure trivial
    · exact test

/-- The test of a warm object comes to an end if that of its outer instance does. -/
theorem finishes_capturesHot {w : Warm} {creation : Creation}
    (known : s.heap.creation? w = some creation)
    (h : (isPromotable p creation.outer).Finishes p s) :
    (capturesHot p (.ref (.warm w))).Finishes p s := by
  refine meets_bind (meets_perform (Effect.run_creationOf.2 ⟨known, rfl⟩) ?_)
  split
  · exact meets_ask h
  · exact meets_pure trivial

/-- The test of an outer instance goes on with smaller numbers. -/
theorem finishes_isPromotable_of_numbered (ordered : s.heap.Ordered) {i : Nat}
    (hi : i ≤ s.heap.creations.size) (before : v.NumberedBefore i) :
    (isPromotable p v).Finishes p s := by
  induction i using Nat.strong_induction_on generalizing v with
  | _ i ih =>
    cases before with
    | hot | cold => exact meets_pure trivial
    | thisOf c => exact finishes_isPromotable rfl (meets_look_bind (meets_pure trivial))
    | @warm w hw =>
      obtain ⟨creation, known⟩ := Numbering.exists_item? (Nat.lt_of_lt_of_le hw hi)
      refine finishes_isPromotable rfl (finishes_capturesHot known ?_)
      exact ih w.index hw (Nat.le_trans (Nat.le_of_lt hw) hi) (ordered w creation known)

theorem finishes_isPromotable_ref (ordered : s.heap.Ordered) {a : Addr}
    (known : s.heap.Identifies (.ref a)) : (isPromotable p (.ref a)).Finishes p s := by
  refine finishes_isPromotable_of_numbered ordered (Nat.le_refl _) ?_
  cases a with
  | thisOf c => exact .thisOf c
  | warm w =>
    obtain ⟨creation, hw⟩ := Option.isSome_iff_exists.1 (known w .ref)
    exact .warm (Numbering.lt_size_of_item? hw)

mutual

theorem finishes_isPromotable_of_identifies :
    ∀ (v : Value) {s : Store}, s.heap.Ordered → s.heap.Identifies v →
      (isPromotable p v).Finishes p s
  | .hot, _, _, _ | .cold, _, _, _ => meets_pure trivial
  | .ref _, _, ordered, known => finishes_isPromotable_ref ordered known
  | .closure _ _ ⟨_, _⟩ _, _, ordered, known => by
    refine finishes_isPromotable rfl (meets_ask (finishes_isPromotable_ref ordered fun w hw => ?_))
    cases hw with
    | ref => exact known w .receiver
  | .oneOf vs, _, ordered, known => by
    refine meets_look_bind ?_
    split
    · exact meets_pure trivial
    · exact finishes_allM_of_identifies vs ordered fun v hv w hw => known w (.member hv hw)

theorem finishes_allM_of_identifies :
    ∀ (vs : List Value) {s : Store}, s.heap.Ordered → (∀ v ∈ vs, s.heap.Identifies v) →
      (vs.allM fun v => (Query.isPromotable v : Plan Bool)).Finishes p s
  | [], _, _, _ => meets_pure trivial
  | v :: vs, s, ordered, known => by
    obtain ⟨n, b, t, hv, -⟩ :=
      finishes_isPromotable_of_identifies v ordered (known v List.mem_cons_self)
    have ends : (Query.isPromotable v).Ends p (n + 1) s b t := hv
    have heap := (Query.isPromotable_shows ends).2.heap
    refine meets_bind ⟨n + 1, b, t, ends_ask.2 ends, ?_⟩
    cases b with
    | false => exact meets_pure trivial
    | true =>
      refine finishes_allM_of_identifies vs (heap ▸ ordered) fun u hu => ?_
      rw [heap]
      exact known u (List.mem_cons_of_mem v hu)

end

end Plan

/-- The test of a value whose warm objects are known has an answer. -/
theorem Query.exists_isPromotable (ordered : s.heap.Ordered) (known : s.heap.Identifies v) :
    ∃ b s', (Query.isPromotable v).Answered p s b s' ∧ (b = true ↔ s.ShowsHot p v) ∧
      s.Learns p s' := by
  obtain ⟨n, b, s', h, -⟩ := Plan.finishes_isPromotable_of_identifies (p := p) v ordered known
  have ends : (Query.isPromotable v).Ends p (n + 1) s b s' := h
  exact ⟨b, s', ⟨n + 1, ends⟩, Query.isPromotable_shows ends⟩

/-! ## In the analysis of a program -/

section Analysis

variable {q : Query β} {r : Query γ} {b : β} {active : List Cache.Key}

/-- A question on the way is answered, and what is trusted then is trusted at the end, or it is a
    single value. -/
theorem Query.Way.trusted_or_single (way : q.Way p s active r t) (h : q.Answered p s b s') :
    ∃ c t', r.Answered p t c t' ∧
      ∀ w, t'.trusted.contains w → s'.trusted.contains w ∨ w.isSingle := by
  induction way with
  | start => exact ⟨b, s', h, fun _ => .inl⟩
  | @asked active γ δ r r' t u _ hasks ih =>
    obtain ⟨c, t', ⟨m, hc⟩, stays⟩ := ih
    cases m with
    | zero => exact absurd hc Query.ends_zero
    | succ m =>
      obtain ⟨d, u', hd, further⟩ := hc.relays.answered hasks
      refine ⟨d, u', ⟨m, hd⟩, fun w hw => ?_⟩
      rcases further w hw with takes | hw
      · cases r with
        | promote => exact .inr (takes.1 ▸ takes.2.1)
        | _ => exact absurd takes id
      · exact stays w hw

/-- In the stores that an analysis leads to, only single values are trusted. -/
theorem Store.Later.isSingle (h : Store.initial.Later p s) (trusted : s.trusted.contains v) :
    v.isSingle := by
  induction h with
  | refl =>
    have none : ¬Store.initial.trusted.contains v := by simp [Store.initial, Trusted.contains]
    exact absurd trusted none
  | @asked t u β q b h context hq ih =>
    by_cases before : t.trusted.contains v
    · exact ih before
    · obtain ⟨n, hn⟩ := hq
      obtain ⟨active, γ, r, t, c, t', -, -, trusts, -⟩ := hn.new_trusted before trusted
      cases r with
      | isPromotable x => exact trusts.1 ▸ trusts.2.1
      | promote x reason source => exact trusts.1 ▸ trusts.2.1
      | _ => exact absurd trusts id

namespace Store.Ahead

theorem ordered (h : Store.initial.Ahead p s) : s.heap.Ordered := by
  cases h with
  | after h => exact h.ordered .empty
  | during h context hq way =>
    obtain ⟨c, u, hc, later⟩ := way.after Heap.Extends.advances hq
    obtain ⟨n, hn⟩ := hc
    have ext := (Query.Ends.persists Heap.Extends.advances.persists hn).trans later
    exact ((h.asked context hq).ordered .empty).of_extends ext

/-- At any time only single values are trusted. -/
theorem isSingle (h : Store.initial.Ahead p s) (trusted : s.trusted.contains v) :
    v.isSingle := by
  cases h with
  | after h => exact h.isSingle trusted
  | during h context hq way =>
    obtain ⟨c, u, ⟨n, hn⟩, single⟩ := way.trusted_or_single hq
    exact (single v (hn.keeps.trusted v trusted)).elim (h.asked context hq).isSingle id

end Store.Ahead

end Analysis

/-! ### Promotion -/

/-- A single value that is found promotable is promoted without errors. -/
theorem Query.promote_of_isPromotable (single : v.isSingle)
    (h : (Query.isPromotable v).Answered p s true s') (reason : String) (source : Span) :
    (Query.promote v reason source).Answered p s [] s' := by
  obtain ⟨n, h⟩ := h
  refine ⟨n + 1, ?_⟩
  rw [Query.ends_succ, Query.plan]
  cases v with
  | hot | cold | oneOf => cases single
  | ref | closure =>
    simp only [Plan.promote, Plan.ends_bind, Plan.ends_ask]
    exact ⟨true, s', h, Plan.ends_pure.2 ⟨rfl, rfl⟩⟩

/-- If each value of a list is promoted without errors, whatever is remembered meanwhile, so are all
    one after the other. -/
theorem Plan.ends_errorsOfEach_of_learns {vs : List Value} {reason : String} {source : Span}
    (h : ∀ v ∈ vs, ∀ t, s.Learns p t →
      ∃ t', (Query.promote v reason source).Answered p t [] t' ∧ s.Learns p t')
    (learns : s.Learns p t) :
    ∃ n t', (Plan.errorsOfEach vs fun v => Query.promote v reason source).Ends p n t [] t' ∧
      s.Learns p t' := by
  induction vs generalizing t with
  | nil => exact ⟨0, t, Plan.ends_pure.2 ⟨rfl, rfl⟩, learns⟩
  | cons v vs ih =>
    obtain ⟨u, ⟨n, hu⟩, learns⟩ := h v List.mem_cons_self t learns
    obtain ⟨m, t', ht', learns⟩ := ih (fun v hv => h v (List.mem_cons_of_mem _ hv)) learns
    refine ⟨max n m, t', Plan.ends_errorsOfEach_cons.2 ⟨[], u, [], ?_, ?_, rfl⟩, learns⟩
    · exact (Plan.ends_ask.2 hu).mono (Nat.le_max_left n m)
    · exact ht'.mono (Nat.le_max_right n m)

/-- A value that is shown to be hot is promoted without errors, also when more such values were
    remembered meanwhile. -/
theorem Store.ShowsHot.promote (ordered : s.heap.Ordered)
    (singles : ∀ v, s.trusted.contains v → v.isSingle) (shown : s.ShowsHot p v)
    (known : s.heap.Identifies v) (reason : String) (source : Span) (learns : s.Learns p t) :
    ∃ t', (Query.promote v reason source).Answered p t [] t' ∧ s.Learns p t' := by
  have single {v : Value} (hv : v.isSingle) (shown : s.ShowsHot p v)
      (known : s.heap.Identifies v) {t : Store} (learns : s.Learns p t) :
      ∃ t', (Query.promote v reason source).Answered p t [] t' ∧ s.Learns p t' := by
    rw [← learns.heap] at ordered known
    obtain ⟨b, t', h, answer, learns'⟩ := Query.exists_isPromotable (p := p) ordered known
    cases answer.2 (learns.showsHot_iff.2 shown)
    exact ⟨t', Query.promote_of_isPromotable hv h reason source, learns.trans learns'⟩
  induction shown generalizing t with
  | hot => exact ⟨t, ⟨1, Plan.ends_pure.2 ⟨rfl, rfl⟩⟩, learns⟩
  | trusted h hcold => exact single (singles _ h) (.trusted h hcold) known learns
  | warm creation args outer => exact single rfl (.warm creation args outer) known learns
  | thisOf fields => exact single rfl (.thisOf fields) known learns
  | closure receiver => exact single rfl (.closure receiver) known learns
  | @oneOf vs _ ih =>
    obtain ⟨n, t', h, learns⟩ := Plan.ends_errorsOfEach_of_learns
      (fun v hv _ learns => ih v hv (fun w hw => known w (.member hv hw)) learns) learns
    exact ⟨t', ⟨n + 1, h⟩, learns⟩

/-- At any time in the analysis of a program, the test whether a value is promotable comes to an
    end, if the warm objects in the value are known. Its answer tells whether the value is shown to
    be hot. The test changes nothing but the trusted values, to which it adds only values that are
    shown to be hot, so the same values as before are shown to be hot, and tests have the same
    answers. A value that passes the test is promoted without errors. -/
theorem Query.isPromotable_decides (reached : Store.initial.Ahead p s)
    (known : s.heap.Identifies v) :
    ∃ b s', (Query.isPromotable v).Answered p s b s' ∧ (b = true ↔ s.ShowsHot p v) ∧
      ((∃ trusted, s' = { s with trusted }) ∧ s.trusted.Extends s'.trusted ∧
        ∀ u, s'.trusted.contains u → s.trusted.contains u ∨ s.ShowsHot p u) ∧
      (∀ u, s'.ShowsHot p u ↔ s.ShowsHot p u) ∧
      (∀ u, s.heap.Identifies u → ∀ c t, (Query.isPromotable u).Answered p s c t →
        ∃ t', (Query.isPromotable u).Answered p s' c t') ∧
      (b = true → ∀ reason source, ∃ t, (Query.promote v reason source).Answered p s [] t) := by
  obtain ⟨b, s', h, answer, learns⟩ := Query.exists_isPromotable (p := p) reached.ordered known
  refine ⟨b, s', h, answer, ⟨learns.same, learns.keeps, fun u hu => ?_⟩,
    fun u => learns.showsHot_iff, fun u hu c t ⟨n, ht⟩ => ?_, fun hb reason source => ?_⟩
  · exact (learns.shown u hu).imp_right And.right
  · have ordered := reached.ordered
    rw [← learns.heap] at hu ordered
    obtain ⟨c', t', h', answer', -⟩ := Query.exists_isPromotable (p := p) ordered hu
    have same : c' = true ↔ c = true :=
      answer'.trans (learns.showsHot_iff.trans (Query.isPromotable_shows ht).1.symm)
    cases Bool.eq_iff_iff.2 same
    exact ⟨t', h'⟩
  · obtain ⟨t, ht, -⟩ := (answer.1 hb).promote reached.ordered (fun _ => reached.isSingle) known
      reason source (.refl s)
    exact ⟨t, ht⟩

/-! ### An object inside of a complete one -/

/-- The store after an `A` was created inside of the one that was checked. -/
def definesX.withSecond : Store :=
  (Query.create (.ref (.thisOf ⟨4⟩)) ⟨4⟩ ⟨14⟩ [] default).storeAfter definesX 20 definesX.checked

/-- A closure in the second `A`. -/
def definesX.closureInSecond : Value := .closure ⟨0⟩ [] ⟨.warm ⟨⟨4⟩, 0⟩, ⟨4⟩⟩ .empty

/-- The field of the `A` that was checked has a value, which shows that this object is hot, then
    that the second one is, and at last that a closure in it is. -/
theorem Query.isPromotable_decides_definesX :
    Store.initial.Ahead definesX definesX.withSecond ∧
      definesX.withSecond.heap.Identifies definesX.closureInSecond ∧
      ∃ s', (Query.isPromotable definesX.closureInSecond).Answered definesX definesX.withSecond true
          s' ∧
        definesX.withSecond.ShowsHot definesX definesX.closureInSecond ∧
        ∃ t, (Query.promote definesX.closureInSecond "closure" default).Answered definesX
          definesX.withSecond [] t := by
  have checked : Store.initial.Later definesX definesX.checked :=
    .storeAfter .refl (by decide +kernel)
  have reached : Store.initial.Ahead definesX definesX.withSecond :=
    .after (checked.storeAfter (by decide +kernel))
  have known : definesX.withSecond.heap.Identifies definesX.closureInSecond := by
    intro w hw
    cases hw with
    | receiver => decide +kernel
    | captured bound => cases bound
  obtain ⟨c, tested, hc⟩ := Query.answered_of_result? id (p := definesX) (n := 20)
    (s := definesX.withSecond) (q := .isPromotable definesX.closureInSecond) (by decide +kernel)
  obtain ⟨b, s', answered, shown, -, -, -, promoted⟩ :=
    Query.isPromotable_decides (v := definesX.closureInSecond) reached known
  obtain ⟨rfl, -⟩ := answered.unique tested
  cases b with
  | false => cases hc
  | true => exact ⟨reached, known, s', answered, shown.1 rfl, promoted rfl "closure" default⟩

/-! ## Closures -/

section Closures

variable {body : ExprId} {params : List SymbolId} {frame : Frame} {env : Env} {b : Bool}

/-- The test of a closure asks about its receiver and about nothing else. -/
theorem Plan.ends_isPromotable_closure
    (untrusted : ¬s.trusted.contains (.closure body params frame env)) :
    (Plan.isPromotable p (.closure body params frame env)).Ends p n s b s' ↔
      ∃ t, (Query.isPromotable (.ref frame.receiver)).Ends p n s b t ∧
        s' = if b then { t with trusted := t.trusted.insert (.closure body params frame env) }
          else t := by
  rw [ends_isPromotable_of_untrusted rfl untrusted]
  simp only [capturesHot, ends_ask]

/-- A closure that is not trusted is found promotable exactly if its receiver is, whatever its body
    and whatever it captured in its environment. From then on so is every closure with this
    receiver. -/
theorem Query.isPromotable_closure
    (untrusted : ¬s.trusted.contains (.closure body params frame env)) :
    (∀ b, (∃ s', (Query.isPromotable (.closure body params frame env)).Answered p s b s') ↔
      ∃ t, (Query.isPromotable (.ref frame.receiver)).Answered p s b t) ∧
    ∀ s', (Query.isPromotable (.closure body params frame env)).Answered p s true s' →
      ∀ u, s'.Ahead p u →
        (Query.isPromotable (.ref frame.receiver)).Answered p u true u ∧
          ∀ body params c env, ∃ u',
            (Query.isPromotable (.closure body params ⟨frame.receiver, c⟩ env)).Answered p u true
              u' := by
  refine ⟨fun b => ⟨?_, ?_⟩, ?_⟩
  · rintro ⟨s', n, h⟩
    cases n with
    | zero => exact absurd h Query.ends_zero
    | succ n =>
      obtain ⟨t, hreceiver, -⟩ := (Plan.ends_isPromotable_closure untrusted).1 h
      exact ⟨t, n, hreceiver⟩
  · rintro ⟨t, n, h⟩
    exact ⟨_, n + 1, (Plan.ends_isPromotable_closure untrusted).2 ⟨t, h, rfl⟩⟩
  · rintro s' ⟨n, h⟩ u ahead
    cases n with
    | zero => exact absurd h Query.ends_zero
    | succ n =>
      obtain ⟨t, hreceiver, rfl⟩ := (Plan.ends_isPromotable_closure untrusted).1 h
      have trusted : u.trusted.contains (.ref frame.receiver) :=
        ahead.trusts _ (Trusted.extends_insert _ _ _ (Query.trusted_of_isPromotable rfl hreceiver))
      have receiver : (Query.isPromotable (.ref frame.receiver)).Ends p 1 u true u :=
        (Plan.ends_isPromotable_of_trusted trusted (Value.noConfusion ·)).2 ⟨rfl, rfl⟩
      refine ⟨⟨1, receiver⟩, fun body params c env => ?_⟩
      by_cases known : u.trusted.contains (.closure body params ⟨frame.receiver, c⟩ env)
      · exact ⟨u, 1, (Plan.ends_isPromotable_of_trusted known (Value.noConfusion ·)).2 ⟨rfl, rfl⟩⟩
      · exact ⟨_, 2, (Plan.ends_isPromotable_closure known).2 ⟨u, receiver, rfl⟩⟩

end Closures

/-- A class `O` with a field `f`. Its initializer calls a local method with the instance of `O`; the
    method returns a closure that returns the argument. -/
def returnsArgument : Program := .ofCommands [
  .defineClass "O" .package .none true,
  .defineField ⟨4⟩ "f" .value,
  .declareLocalMethod ⟨15⟩ "h" ["x"],
  .declareFunction (.symbol ⟨16⟩) [],
  .ident ⟨17⟩,
  .closure ⟨18⟩ ⟨2⟩,
  .setBody ⟨16⟩ ⟨3⟩,
  .thisOf ⟨4⟩,
  .callNamed ⟨16⟩ [⟨⟨4⟩, false⟩],
  .setBody ⟨15⟩ ⟨5⟩]

/-- The store after the check of `O`. -/
def returnsArgument.checked : Store := (Query.check ⟨4⟩).storeAfter returnsArgument 20 .initial

/-- The closure, with the cold argument in its environment. -/
def returnsArgument.closure : Value :=
  .closure ⟨2⟩ [] ⟨.thisOf ⟨4⟩, ⟨4⟩⟩ (.ofList [(⟨17⟩, .cold)])

/-- The instance of `O` is promotable after its check, and so is the closure. -/
theorem Query.isPromotable_closure_returnsArgument :
    ¬returnsArgument.checked.trusted.contains returnsArgument.closure ∧
      (∃ t, (Query.isPromotable (.ref (.thisOf ⟨4⟩))).Answered returnsArgument
        returnsArgument.checked true t) ∧
      ∃ s', (Query.isPromotable returnsArgument.closure).Answered returnsArgument
        returnsArgument.checked true s' := by
  have untrusted : ¬returnsArgument.checked.trusted.contains returnsArgument.closure := by
    decide +kernel
  obtain ⟨b, receiver, hb⟩ := Query.answered_of_result? id (p := returnsArgument) (n := 20)
    (s := returnsArgument.checked) (q := .isPromotable (.ref (.thisOf ⟨4⟩))) (by decide +kernel)
  cases b with
  | false => cases hb
  | true =>
    exact ⟨untrusted, ⟨_, receiver⟩,
      ((Query.isPromotable_closure untrusted).1 true).2 ⟨_, receiver⟩⟩

/-- The field `f` has the closure as its value. The closure is found promotable, although it
    captured a cold argument, which is not promotable. -/
theorem Query.isPromotable_misses_captured :
    Store.initial.Later returnsArgument returnsArgument.checked ∧
      returnsArgument.checked.heap.field? (.thisOf ⟨4⟩) ⟨15⟩ = some returnsArgument.closure ∧
      ¬returnsArgument.checked.trusted.contains returnsArgument.closure ∧
      (∃ s', (Query.isPromotable returnsArgument.closure).Answered returnsArgument
        returnsArgument.checked true s') ∧
      (∃ body params frame env, returnsArgument.closure = .closure body params frame env ∧
        env.lookup ⟨17⟩ = some .cold) ∧
      ¬∃ s', (Query.isPromotable .cold).Answered returnsArgument returnsArgument.checked true
        s' := by
  refine ⟨.storeAfter .refl (by decide +kernel), by decide +kernel, by decide +kernel, ?_,
    ⟨_, _, _, _, rfl, by decide +kernel⟩, ?_⟩
  · obtain ⟨b, h, hb⟩ := Query.answered_of_result? id (p := returnsArgument) (n := 20)
      (s := returnsArgument.checked) (q := .isPromotable returnsArgument.closure)
      (by decide +kernel)
    cases b with
    | false => cases hb
    | true => exact ⟨_, h⟩
  · rintro ⟨s', n, h⟩
    exact Store.ShowsHot.not_cold ((Query.isPromotable_shows h).1.1 rfl)

end ObjectInit
