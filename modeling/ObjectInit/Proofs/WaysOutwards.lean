import ObjectInit.Proofs.Growth
import ObjectInit.Proofs.Nesting
import ObjectInit.Proofs.Termination

/-!
# Ways outwards

The way from an object to the instance of an enclosing class goes through one class after the other,
along the outers that the heap records. Classes lie inside earlier ones, so it comes to an end.
Where every outer is hot, cold or an address, a way can be cut at each class that it passes: both
parts lead to the same value and report as much as the whole way.

Main results:

* `Query.answered_enclosingInstance`: every way ends, and does nothing but report.
* `Query.splits_enclosingInstance`: a way that is cut at a class on it.
* `Query.enclosingInstance_stepwise`: both of them for completed programs.
-/

namespace ObjectInit

variable {p q : Program} {s t u : Store} {a : Addr} {c d m target : ClassId} {v w : Value}
  {source : Span} {j k : Nat}

/-! ## Heaps and diagnostics -/

/-- The value is hot, cold or the address of an object. -/
inductive Value.IsPlain : Value → Prop
  | hot : IsPlain .hot
  | cold : IsPlain .cold
  | ref (a : Addr) : IsPlain (.ref a)

/-- Every outer that is recorded is plain, and none is recorded for the root package. -/
structure Heap.PlainOuters (h : Heap) : Prop where
  plain : ∀ a c v, h.outer? a c = some v → v.IsPlain
  root : ∀ a, h.outer? a .root = none

/-- Nothing happens but that `k` diagnostics are reported. -/
def Store.Reports (k : Nat) (s t : Store) : Prop :=
  ∃ ds, ds.length = k ∧ t = { s with diagnostics := s.diagnostics ++ ds }

namespace Store.Reports

theorem refl (s : Store) : s.Reports 0 s := ⟨[], rfl, by simp⟩

theorem one (s : Store) (d : Diagnostic) :
    s.Reports 1 { s with diagnostics := s.diagnostics ++ [d] } := ⟨[d], rfl, rfl⟩

theorem trans (h : s.Reports j t) (h' : t.Reports k u) : s.Reports (j + k) u := by
  obtain ⟨ds, rfl, rfl⟩ := h
  obtain ⟨ds', rfl, rfl⟩ := h'
  exact ⟨ds ++ ds', by simp, by simp⟩

theorem heap (h : s.Reports k t) : t.heap = s.heap := by
  obtain ⟨ds, -, rfl⟩ := h
  rfl

end Store.Reports

/-! ## Single steps -/

/-- A loop whose steps do nothing but report does nothing but report. -/
theorem Plan.meets_mapM {α β : Type} {f : α → Plan β} {xs : List α}
    (h : ∀ x ∈ xs, ∀ t j, s.Reports j t → (f x).Meets p t fun _ u => ∃ k, t.Reports k u) :
    (xs.mapM f).Meets p s fun _ t => ∃ k, s.Reports k t := by
  induction xs generalizing s with
  | nil => exact meets_pure ⟨0, .refl s⟩
  | cons x xs ih =>
    rw [List.mapM_cons]
    apply meets_bind
    apply (h x List.mem_cons_self s 0 (.refl s)).imp
    rintro b t ⟨j, first⟩
    apply meets_bind
    have rest : ∀ y ∈ xs, ∀ u k, t.Reports k u →
        (f y).Meets p u fun _ u' => ∃ k, u.Reports k u' :=
      fun y hy u k reports => h y (List.mem_cons_of_mem x hy) u (j + k) (first.trans reports)
    apply (ih rest).imp
    rintro bs u ⟨k, second⟩
    exact meets_pure ⟨j + k, first.trans second⟩

namespace Query

theorem answered_of_meets {want : Value → Store → Prop} {r : Query Value}
    (h : (r.plan p).Meets p s want) : ∃ w t, r.Answered p s w t ∧ want w t := by
  obtain ⟨n, w, t, ends, hw⟩ := h
  exact ⟨w, t, ⟨n + 1, ends_succ.2 ends⟩, hw⟩

theorem answered_of_plan_pure {r : Query Value} (h : r.plan p = .pure v) : r.Answered p s v s := by
  refine ⟨1, ?_⟩
  rw [ends_succ, h]
  exact Plan.ends_pure.2 ⟨rfl, rfl⟩

/-- The way ends where it starts. -/
theorem enclosingInstance_self (c : ClassId) (v : Value) (source : Span) (s : Store) :
    (Query.enclosingInstance c v c source).Answered p s v s :=
  answered_of_plan_pure (plan_enclosingInstance_self c v source)

theorem enclosingInstance_package (ne : target ≠ c) (package : p.isPackage target = true)
    (v : Value) (source : Span) (s : Store) :
    (Query.enclosingInstance target v c source).Answered p s .hot s := by
  apply answered_of_plan_pure
  rw [Query.plan]
  unfold Plan.enclosingInstance
  exact (if_neg ne).trans (if_pos package)

section

variable (ne : target ≠ c) (noPackage : p.isPackage target = false)

include ne noPackage

theorem plan_enclosingInstance_of_ne :
    (Query.enclosingInstance target v c source).plan p =
      match v with
      | .hot => Pure.pure .hot
      | .cold => Pure.pure .cold
      | .ref a => Plan.fromOuter p target a c source
      | .oneOf vs =>
        return .joinAll (← vs.mapM fun v => Query.enclosingInstance target v c source)
      | .closure .. => do
        Plan.report ("Unexpected closure when resolving '" ++ (p.cls target).name ++
          ".this' in '" ++ (p.cls c).name ++ "'") source
        return .cold := by
  have packageless : ¬p.isPackage target = true := by simp [noPackage]
  rw [Query.plan]
  unfold Plan.enclosingInstance
  exact (if_neg ne).trans (if_neg packageless)

/-- A missing outer is reported, and taken to be hot. -/
theorem enclosingInstance_missing (source : Span) (missing : s.heap.outer? a c = none) :
    ∃ t, (Query.enclosingInstance target (.ref a) c source).Answered p s .hot t ∧
      s.Reports 1 t := by
  have meets : ((Query.enclosingInstance target (.ref a) c source).plan p).Meets p s
      fun w t => w = .hot ∧ s.Reports 1 t := by
    rw [plan_enclosingInstance_of_ne ne noPackage]
    apply Plan.meets_look_bind
    rw [missing]
    apply Plan.meets_bind
    exact Plan.meets_perform rfl (Plan.meets_pure ⟨rfl, .one s _⟩)
  obtain ⟨w, t, answered, rfl, reports⟩ := answered_of_meets meets
  exact ⟨t, answered, reports⟩

/-- Otherwise the way goes on from the outer, in the class around. -/
theorem enclosingInstance_outer (outer : s.heap.outer? a c = some v)
    (h : (Query.enclosingInstance target v (p.classAround c) source).Answered p s w t) :
    (Query.enclosingInstance target (.ref a) c source).Answered p s w t := by
  obtain ⟨n, h⟩ := h
  refine ⟨n + 1, ?_⟩
  rw [ends_succ, plan_enclosingInstance_of_ne ne noPackage]
  apply Plan.ends_look_bind.2
  rw [outer]
  exact Plan.ends_ask.2 h

/-- A closure is in the code of no class, which is reported. -/
theorem enclosingInstance_closure {body : ExprId} {params : List SymbolId} {frame : Frame}
    {env : Env} (source : Span) (s : Store) :
    ∃ t, (Query.enclosingInstance target (.closure body params frame env) c source).Answered p s
      .cold t ∧ s.Reports 1 t := by
  have meets : ((Query.enclosingInstance target (.closure body params frame env) c source).plan
      p).Meets p s fun w t => w = .cold ∧ s.Reports 1 t := by
    rw [plan_enclosingInstance_of_ne ne noPackage]
    apply Plan.meets_bind
    exact Plan.meets_perform rfl (Plan.meets_pure ⟨rfl, .one s _⟩)
  obtain ⟨w, t, answered, rfl, reports⟩ := answered_of_meets meets
  exact ⟨t, answered, reports⟩

/-- The members of a set are followed one after the other. -/
theorem enclosingInstance_oneOf {vs : List Value} (source : Span)
    (h : ∀ v ∈ vs, ∀ t j, s.Reports j t → ∃ w u k,
      (Query.enclosingInstance target v c source).Answered p t w u ∧ t.Reports k u) :
    ∃ w t k, (Query.enclosingInstance target (.oneOf vs) c source).Answered p s w t ∧
      s.Reports k t := by
  have meets : ((Query.enclosingInstance target (.oneOf vs) c source).plan p).Meets p s
      fun _ t => ∃ k, s.Reports k t := by
    rw [plan_enclosingInstance_of_ne ne noPackage]
    apply Plan.meets_bind
    refine (Plan.meets_mapM fun v hv t j reports => ?_).imp fun _ t h => Plan.meets_pure h
    obtain ⟨w, u, k, ⟨n, ends⟩, reports'⟩ := h v hv t j reports
    exact ⟨n, w, u, Plan.ends_ask.2 ends, k, reports'⟩
  obtain ⟨w, t, answered, k, reports⟩ := answered_of_meets meets
  exact ⟨w, t, k, answered, reports⟩

end

/-- From a hot or a cold value, every way leads to this value. -/
theorem enclosingInstance_of_unknown (noPackage : p.isPackage target = false)
    (unknown : v = .hot ∨ v = .cold) :
    (Query.enclosingInstance target v c source).Answered p s v s := by
  by_cases same : target = c
  · rw [same]
    exact enclosingInstance_self c v source s
  · apply answered_of_plan_pure
    rw [plan_enclosingInstance_of_ne same noPackage]
    rcases unknown with rfl | rfl <;> rfl

/-! ## Whole ways -/

/-- Every way ends, and does nothing but report: an outer leads to a class further outside, and a
    set to its members in the same class. -/
theorem answered_enclosingInstance (nested : p.Nested) (plain : s.heap.PlainOuters)
    (target : ClassId) (v : Value) (c : ClassId) (source : Span) :
    ∃ w t k, (Query.enclosingInstance target v c source).Answered p s w t ∧ s.Reports k t := by
  -- Outwards the class comes earlier in the table; in the same class the value gets smaller.
  induction hc : c.index using Nat.strong_induction_on generalizing c v s with
  | _ _ outside =>
    induction hv : sizeOf v using Nat.strong_induction_on generalizing v s with
    | _ _ inside =>
      by_cases same : target = c
      · rw [same]
        exact ⟨v, s, 0, enclosingInstance_self c v source s, .refl s⟩
      cases package : p.isPackage target with
      | true => exact ⟨.hot, s, 0, enclosingInstance_package same package v source s, .refl s⟩
      | false =>
        cases v with
        | hot => exact ⟨.hot, s, 0, enclosingInstance_of_unknown package (.inl rfl), .refl s⟩
        | cold => exact ⟨.cold, s, 0, enclosingInstance_of_unknown package (.inr rfl), .refl s⟩
        | ref a =>
          cases outer : s.heap.outer? a c with
          | none =>
            obtain ⟨t, answered, reports⟩ := enclosingInstance_missing same package source outer
            exact ⟨.hot, t, 1, answered, reports⟩
          | some o =>
            have inner : c ≠ .root := by
              rintro rfl
              rw [plain.root a] at outer
              cases outer
            have further := nested.classAround_lt inner
            obtain ⟨w, t, k, answered, reports⟩ :=
              outside _ (hc ▸ further) plain o (p.classAround c) rfl
            exact ⟨w, t, k, enclosingInstance_outer same package outer answered, reports⟩
        | oneOf vs =>
          apply enclosingInstance_oneOf same package
          intro x hx t j reports
          have smaller := Value.sizeOf_lt_oneOf hx
          have plain' : t.heap.PlainOuters := reports.heap ▸ plain
          exact inside _ (hv ▸ smaller) plain' x rfl
        | closure body params frame env =>
          obtain ⟨t, answered, reports⟩ := enclosingInstance_closure same package source s
          exact ⟨.cold, t, 1, answered, reports⟩

/-- The way from `v` in `c` to `target` leads to the same value if it is cut at `m`, and both parts
    together report as many diagnostics as the whole way. -/
def Splits (p : Program) (s : Store) (target : ClassId) (v : Value) (m c : ClassId)
    (source : Span) : Prop :=
  ∃ w x s₁ s₂ s₃ j k,
    ((Query.enclosingInstance m v c source).Answered p s w s₁ ∧ s.Reports j s₁) ∧
    ((Query.enclosingInstance target w m source).Answered p s₁ x s₂ ∧ s₁.Reports k s₂) ∧
    (Query.enclosingInstance target v c source).Answered p s x s₃ ∧ s.Reports (j + k) s₃

/-- A way can be cut at each class on it. -/
theorem splits_enclosingInstance (nested : p.Nested) (plain : s.heap.PlainOuters)
    (hv : v.IsPlain) (inner : Relation.ReflTransGen p.LiesIn c m)
    (outer : Relation.ReflTransGen p.LiesIn m target) (package : p.isPackage m = false)
    (package' : p.isPackage target = false) : Splits p s target v m c source := by
  induction inner using Relation.ReflTransGen.head_induction_on generalizing v with
  | refl =>
    obtain ⟨x, t, k, answered, reports⟩ :=
      answered_enclosingInstance nested plain target v m source
    exact ⟨v, x, s, t, t, 0, k, ⟨enclosingInstance_self m v source s, .refl s⟩,
      ⟨answered, reports⟩, answered, (Nat.zero_add k).symm ▸ reports⟩
  | @head c c' lies rest ih =>
    -- Neither class is `c`, so all three ways take the same step.
    have before := nested.lt_of_liesIn lies
    have le := nested.index_le rest
    have le' := nested.index_le outer
    have ne : m ≠ c := by
      rintro rfl
      omega
    have ne' : target ≠ c := by
      rintro rfl
      omega
    have unknown (w : Value) (h : w = .hot ∨ w = .cold) : Splits p s target w m c source :=
      ⟨w, w, s, s, s, 0, 0, ⟨enclosingInstance_of_unknown package h, .refl s⟩,
        ⟨enclosingInstance_of_unknown package' h, .refl s⟩,
        enclosingInstance_of_unknown package' h, .refl s⟩
    cases hv with
    | hot => exact unknown .hot (.inl rfl)
    | cold => exact unknown .cold (.inr rfl)
    | ref a =>
      cases recorded : s.heap.outer? a c with
      | none =>
        obtain ⟨s₁, first, reports⟩ := enclosingInstance_missing ne package source recorded
        obtain ⟨s₃, whole, reports'⟩ := enclosingInstance_missing ne' package' source recorded
        exact ⟨.hot, .hot, s₁, s₁, s₃, 1, 0, ⟨first, reports⟩,
          ⟨enclosingInstance_of_unknown package' (.inl rfl), .refl s₁⟩, whole, reports'⟩
      | some o =>
        obtain ⟨w, x, s₁, s₂, s₃, j, k, ⟨first, reports⟩, second, whole, reports'⟩ :=
          ih (plain.plain a c o recorded)
        rw [← lies.classAround_eq] at first whole
        exact ⟨w, x, s₁, s₂, s₃, j, k, ⟨enclosingInstance_outer ne package recorded first, reports⟩,
          second, enclosingInstance_outer ne' package' recorded whole, reports'⟩

/-- The way to the class directly around `c` leads to the outer that is recorded. -/
theorem enclosingInstance_around (nested : p.Nested) (lies : p.LiesIn c d)
    (package : p.isPackage d = false) (recorded : s.heap.outer? a c = some v) (source : Span) :
    (Query.enclosingInstance d (.ref a) c source).Answered p s v s := by
  have ne : d ≠ c := by
    rintro rfl
    exact absurd (nested.lt_of_liesIn lies) (Nat.lt_irrefl _)
  apply enclosingInstance_outer ne package recorded
  rw [lies.classAround_eq]
  exact enclosingInstance_self d v source s

/-- In a completed program, every way outwards ends and does nothing but report. To the class around
    it leads to the outer that is recorded. If no outer is a set or a closure, the way from a class
    to one around it can be cut at each class in between, unless this is a package. -/
theorem enclosingInstance_stepwise (assembled : q.Assembled) (plain : s.heap.PlainOuters) :
    (∀ target v c source, ∃ w t k,
      (Query.enclosingInstance target v c source).Answered q.finish s w t ∧ s.Reports k t) ∧
    (∀ a c d v source, q.finish.LiesIn c d → q.finish.isPackage d = false →
      s.heap.outer? a c = some v →
      (Query.enclosingInstance d (.ref a) c source).Answered q.finish s v s) ∧
    ∀ target v m c source, v.IsPlain →
      q.finish.isInside c m = true → q.finish.isInside m target = true →
      q.finish.isPackage m = false → q.finish.isPackage target = false →
      Splits q.finish s target v m c source := by
  have nested := (assembled.grounded.finish assembled.built.coherent).toNested
  refine ⟨answered_enclosingInstance nested plain, ?_, ?_⟩
  · intro a c d v source lies package recorded
    exact enclosingInstance_around nested lies package recorded source
  · intro target v m c source hv inner outer package package'
    rw [nested.isInside_iff] at inner outer
    exact splits_enclosingInstance nested plain hv inner outer package package'

/-- Three classes inside each other. -/
def threeClasses : Program :=
  Program.assemble [.defineClass "O" .package .none true, .defineClass "I" (.cls ⟨4⟩) .none true,
    .defineClass "L" (.cls ⟨5⟩) .none true]

/-- The innermost object, whose outer is not there yet. -/
def innermost : Object := .new ⟨6⟩ [(⟨6⟩, .ref (.thisOf ⟨5⟩))]

def innermostAlone : Heap := { objects := .insert ∅ (.thisOf ⟨6⟩) innermost }

theorem allocate_innermost : ({} : Heap).allocate (.thisOf ⟨6⟩) innermost = .ok innermostAlone := by
  simp [Heap.allocate, Heap.contains, Heap.read, innermostAlone]

/-- Cut at the class in the middle, the way is as long as the whole one, and the second part reports
    what is missing. -/
theorem enclosingInstance_stepwise_missing :
    threeClasses.Assembled ∧ innermostAlone.PlainOuters ∧
      (Query.enclosingInstance ⟨5⟩ (.ref (.thisOf ⟨6⟩)) ⟨6⟩ .empty).Answered threeClasses.finish
        { heap := innermostAlone } (.ref (.thisOf ⟨5⟩)) { heap := innermostAlone } ∧
      Splits threeClasses.finish { heap := innermostAlone } ⟨4⟩ (.ref (.thisOf ⟨6⟩)) ⟨5⟩ ⟨6⟩
        .empty ∧
      innermostAlone.outer? (.thisOf ⟨5⟩) ⟨5⟩ = none := by
  have assembled : threeClasses.Assembled := Program.assembled_assemble _
  have outer := Heap.outer?_of_allocate allocate_innermost
  have plain : innermostAlone.PlainOuters := by
    constructor
    · intro a c v recorded
      rw [outer] at recorded
      split at recorded
      · cases recorded
        exact .ref _
      · cases recorded
    · intro a
      rw [outer, if_neg (by simp [ClassId.root])]
      rfl
  obtain ⟨-, step, splits⟩ :=
    enclosingInstance_stepwise (s := { heap := innermostAlone }) assembled plain
  refine ⟨assembled, plain, ?_, ?_, ?_⟩
  · exact step _ ⟨6⟩ ⟨5⟩ _ .empty (by decide +kernel) (by decide +kernel) (by rw [outer]; rfl)
  · exact splits ⟨4⟩ _ ⟨5⟩ ⟨6⟩ .empty (.ref _) (by decide +kernel) (by decide +kernel)
      (by decide +kernel) (by decide +kernel)
  · rw [outer]
    rfl

end Query

end ObjectInit
