import ObjectInit.Proofs.Scoped

/-!
# What lies inside what

Classes lie inside earlier classes, and symbols belong to earlier symbols or to a class. So whoever
climbs from owner to owner arrives at the root package, in every program on the way to the
completed one.

Main results:

* `Program.Nested.after`: a sequence of changes keeps the nesting.
* `Program.Grounded.leadsOut`: where all tables refer to earlier entries, every climb ends.
* `Program.Assembled.grounded_leadsOut`: this is so in every assembled program, completed or not.
-/

namespace ObjectInit.Program

variable {p q q' : Program} {c d e : ClassId} {s t : SymbolId}

/-- The class lies directly inside the other one. -/
def LiesIn (p : Program) (c d : ClassId) : Prop := (p.cls c).owner = some d

instance : Decidable (p.LiesIn c d) := inferInstanceAs (Decidable (_ = _))

/-- The symbol is a parameter of the other one, or is defined inside its body. -/
def BelongsTo (p : Program) (s t : SymbolId) : Prop := (p.symbol s).owner = .symbol t

/-! ## The nesting -/

/-- The root package is the outermost class. Owners come before what they own, and a class lists as
    members only what lies inside it. -/
structure Nested (p : Program) : Prop where
  root : (p.cls .root).owner = none
  classes : ∀ c, c ≠ .root → c.index < p.classes.size → ∃ d, p.LiesIn c d ∧ d.index < c.index
  symbols : ∀ s t, p.BelongsTo s t → t.index < s.index
  members : ∀ c, ∀ d ∈ (p.cls c).memberClasses, p.LiesIn d c

theorem eq_root_of_index (h : c.index = 0) : c = .root := by
  cases c
  cases h
  rfl

/-- Only classes of the table lie inside others. -/
theorem LiesIn.index_lt (h : p.LiesIn c d) : c.index < p.classes.size := by
  by_contra outside
  rw [LiesIn, cls_eq_default outside] at h
  cases h

theorem LiesIn.classAround_eq (h : p.LiesIn c d) : p.classAround c = d := by
  rw [LiesIn] at h
  rw [classAround, h, Option.getD_some]

theorem Nested.lt_of_liesIn (h : p.Nested) (lies : p.LiesIn c d) : d.index < c.index := by
  have inner : c ≠ .root := by
    rintro rfl
    rw [LiesIn, h.root] at lies
    cases lies
  obtain ⟨d', lies', lt⟩ := h.classes c inner lies.index_lt
  rw [LiesIn, lies] at lies'
  cases lies'
  exact lt

theorem Nested.index_le (h : p.Nested) (way : Relation.ReflTransGen p.LiesIn c d) :
    d.index ≤ c.index := by
  induction way with
  | refl => exact Nat.le_refl _
  | tail _ lies ih => exact Nat.le_trans (Nat.le_of_lt (h.lt_of_liesIn lies)) ih

/-- The nesting depends on owners and member classes alone. -/
theorem Nested.congr (h : q.Nested) (size : q'.classes.size = q.classes.size)
    (owner : ∀ c, (q'.cls c).owner = (q.cls c).owner)
    (members : ∀ c, (q'.cls c).memberClasses = (q.cls c).memberClasses)
    (symbols : ∀ s, (q'.symbol s).owner = (q.symbol s).owner) : q'.Nested := by
  refine ⟨?_, fun c hc lt => ?_, fun s t belongs => ?_, fun c d hd => ?_⟩
  · rw [owner]
    exact h.root
  · simpa [LiesIn, owner] using h.classes c hc (size ▸ lt)
  · apply h.symbols
    rw [BelongsTo, ← symbols]
    exact belongs
  · rw [members] at hd
    rw [LiesIn, owner]
    exact h.members c d hd

theorem Nested.addClass (h : q.Nested) {o : ClassDef} (owner : o.owner = some d)
    (exist : d.index < q.classes.size) (members : o.memberClasses = []) :
    ({ q with classes := q.classes.push o } : Program).Nested := by
  have kept {c e : ClassId} (lies : q.LiesIn c e) :
      ({ q with classes := q.classes.push o } : Program).LiesIn c e := by
    rw [LiesIn, cls_push, if_neg (Nat.ne_of_lt lies.index_lt)]
    exact lies
  refine ⟨?_, fun c hc lt => ?_, h.symbols, fun c e he => ?_⟩
  · rw [cls_push, if_neg (by show 0 ≠ _; omega)]
    exact h.root
  · by_cases new : c.index = q.classes.size
    · refine ⟨d, ?_, new ▸ exist⟩
      rw [LiesIn, cls_push, if_pos new]
      exact owner
    · have old : c.index < q.classes.size := by
        simp only [Array.size_push] at lt
        omega
      obtain ⟨e, lies, before⟩ := h.classes c hc old
      exact ⟨e, kept lies, before⟩
  · rw [cls_push] at he
    split at he
    · simp [members] at he
    · exact kept (h.members c e he)

/-- A change of one class leaves what it does not touch. -/
theorem kept_of_modify {α : Type} (g : ClassDef → α) {f : ClassDef → ClassDef}
    (kept : ∀ o, g (f o) = g o) (d : ClassId) :
    g (({ q with classes := q.classes.modify c.index f } : Program).cls d) = g (q.cls d) := by
  rw [cls_modify]
  split
  · next hd => rw [hd.1, kept]
  · rfl

theorem Nested.enterClass (h : q.Nested) (owner : q.LiesIn d c) :
    ({ q with classes := q.classes.modify c.index fun o =>
      { o with memberClasses := o.memberClasses ++ [d] } } : Program).Nested := by
  have same (e : ClassId) : (({ q with classes := q.classes.modify c.index fun o =>
      { o with memberClasses := o.memberClasses ++ [d] } } : Program).cls e).owner =
        (q.cls e).owner := by
    apply kept_of_modify ClassDef.owner
    exact fun _ => rfl
  refine ⟨?_, fun e he lt => ?_, h.symbols, fun e x hx => ?_⟩
  · rw [same]
    exact h.root
  · simpa [LiesIn, same] using h.classes e he (by simpa using lt)
  · rw [LiesIn, same]
    rw [cls_modify] at hx
    split at hx
    · next he =>
      rw [he.1]
      rcases List.mem_append.1 hx with hx | hx
      · exact h.members c x hx
      · rw [List.mem_singleton.1 hx]
        exact owner
    · exact h.members e x hx

theorem Nested.addSymbol (h : q.Nested) {o : Symbol}
    (exist : ∀ t, o.owner = .symbol t → t.index < q.symbols.size) :
    ({ q with symbols := q.symbols.push o } : Program).Nested := by
  refine ⟨h.root, h.classes, fun s t belongs => ?_, h.members⟩
  rw [BelongsTo, symbol_push] at belongs
  split at belongs
  · next new =>
    rw [new]
    exact exist t belongs
  · exact h.symbols s t belongs

theorem Nested.alterClass (h : q.Nested) {f : ClassDef → ClassDef}
    (owner : ∀ o, (f o).owner = o.owner) (members : ∀ o, (f o).memberClasses = o.memberClasses) :
    ({ q with classes := q.classes.modify c.index f } : Program).Nested := by
  apply h.congr
  · simp
  · exact kept_of_modify ClassDef.owner owner
  · exact kept_of_modify ClassDef.memberClasses members
  · exact fun _ => rfl

/-- Each edit that uses what exists keeps the nesting. -/
theorem Nested.edit (h : q.Nested) (edit : q.Edit True q') : q'.Nested := by
  cases edit with
  | enterClass owner => exact h.enterClass owner
  | alterClass kept =>
    exact h.alterClass (fun o => congrArg Shape.owner (kept.shape o)) kept.memberClasses
  | @addMember c s owner _ =>
    have added : ({ q with symbols := q.symbols.push s } : Program).Nested := by
      refine h.addSymbol fun t ht => ?_
      rw [owner] at ht
      cases ht
    exact added.alterClass (fun _ => rfl) fun _ => rfl
  | addSymbol exist =>
    refine h.addSymbol fun t ht => ?_
    have exist := exist trivial
    rw [ht] at exist
    exact exist
  | alterSymbol kept =>
    apply h.congr
    · rfl
    · exact fun _ => rfl
    · exact fun _ => rfl
    · intro t
      rw [symbol_modify]
      split
      · next ht => rw [ht.1, (kept _).owner]
      · rfl
  | addExpr | alterExpr => exact ⟨h.root, h.classes, h.symbols, h.members⟩

/-- Each change that uses what exists keeps the nesting. -/
theorem Nested.change (h : q.Nested) (change : q.Change True q') : q'.Nested := by
  cases change with
  | edit edit => exact h.edit edit
  | addClass owner exist blank => exact h.addClass owner (exist trivial) blank.memberClasses
  | setConstructor | setSource | extend => exact h.alterClass (fun _ => rfl) fun _ => rfl

/-- A sequence of changes keeps the nesting. -/
theorem Nested.after (h : q.Nested) (changes : Relation.ReflTransGen (Change True) q q') :
    q'.Nested := by
  induction changes with
  | refl => exact h
  | tail _ change ih => exact ih.change change

/-- Tables without member classes and without symbols inside others are nested if each class lies in
    an earlier one. -/
theorem nested_of_table (root : (q.cls .root).owner = none)
    (classes : ∀ i, i < q.classes.size → i ≠ 0 →
      (q.cls ⟨i⟩).owner.any fun d => decide (d.index < i))
    (symbols : ∀ i, i < q.symbols.size → (q.symbol ⟨i⟩).isLocal = false)
    (members : ∀ i, i < q.classes.size → (q.cls ⟨i⟩).memberClasses = []) : q.Nested := by
  refine ⟨root, fun c hc lt => ?_, fun s t belongs => ?_, fun c d hd => ?_⟩
  · have around := classes c.index lt fun h => hc (eq_root_of_index h)
    simpa [LiesIn, Option.any_eq_true] using around
  · exfalso
    by_cases lt : s.index < q.symbols.size
    · have member := symbols s.index lt
      rw [BelongsTo] at belongs
      simp [Symbol.isLocal, belongs] at member
    · rw [BelongsTo, symbol, Array.getD, dif_neg lt] at belongs
      cases belongs
  · by_cases lt : c.index < q.classes.size
    · simp [members c.index lt] at hd
    · simp [cls_eq_default lt] at hd
      cases hd

theorem nested_initial : Program.initial.Nested :=
  nested_of_table (by decide +kernel) (by decide +kernel) (by decide +kernel) (by decide +kernel)

theorem Assembled.nested (h : q.Assembled) : q.Nested := by
  induction h with
  | initial => exact nested_initial
  | command h exist run ih => exact ih.after (h.changes exist _ _ run).1

/-! ## All tables -/

/-- All tables refer to earlier entries, and what a class lists is its own. -/
structure Grounded (p : Program) : Prop extends p.Nested where
  size : 0 < p.classes.size
  homes : ∀ s c, (p.symbol s).owner = .cls c → c.index < p.classes.size
  exprs : ∀ e, ∀ e' ∈ (p.expr e).node.children, e'.index < e.index
  decls : ∀ c, (p.cls c).decls.Nodup ∧
    ∀ s ∈ (p.cls c).decls, s.index < p.symbols.size ∧ (p.symbol s).owner = .cls c
  parents : ∀ c t, (p.cls c).template = some t → t.parents.map (·.type.cls) = (p.cls c).parents

theorem Assembled.grounded (h : q.Assembled) : q.Grounded where
  toNested := h.nested
  size := h.scoped.size
  homes s := h.scoped.symbols s
  exprs := h.scoped.exprs
  decls c := ⟨(h.scoped.classes c).distinct, (h.scoped.classes c).declared⟩
  parents c t ht := by
    have listed := congrArg (List.map Prod.fst) (h.built.coherent.listed c t ht)
    simpa [Function.comp_def, Parent.call, parentCall] using listed

@[simp] theorem memberClasses_finish (c : ClassId) :
    (q.finish.cls c).memberClasses = (q.cls c).memberClasses := by
  by_cases hc : c.index < q.classes.size
  · rw [cls_finish hc, cls_withSuperClasses hc]
    split <;> rfl
  · rw [cls_of_size_le (by rw [size_finish]; omega), cls_eq_default hc]

/-- Completing a program adds parents and bases, and leaves what lies inside what. -/
theorem Grounded.finish (h : q.Grounded) (coherent : q.Coherent) : q.finish.Grounded where
  toNested := h.toNested.congr (size_finish q) owner_finish memberClasses_finish fun _ => rfl
  size := by
    rw [size_finish]
    exact h.size
  homes s c owner := by
    rw [size_finish]
    exact h.homes s c owner
  exprs := h.exprs
  decls c := by
    rw [(kept_finish c).2.2.1]
    exact h.decls c
  parents _ _ ht := coherent.parents_of_listed ht

/-! ## The ways outwards -/

/-- Whoever goes from owner to owner arrives: from a symbol at a member of its class, and from a
    class at the root package. -/
structure LeadsOut (p : Program) : Prop where
  symbols : ∀ s, ∃ t, Relation.ReflTransGen p.BelongsTo s t ∧
    (p.symbol t).owner = .cls (p.homeClass s)
  homes : ∀ s, Relation.ReflTransGen p.LiesIn (p.homeClass s) .root
  classes : ∀ c, c.index < p.classes.size → Relation.ReflTransGen p.LiesIn c .root
  inside : ∀ c d, p.isInside c d = true ↔ Relation.ReflTransGen p.LiesIn c d
  around : ∀ c n, c.index ≤ n → p.classAround^[n] c = .root

/-- A climb with enough steps passes all symbols on the way to the class. -/
theorem Nested.climb_spec (h : p.Nested) {n : Nat} (enough : s.index < n) :
    ∃ t, Relation.ReflTransGen p.BelongsTo s t ∧ (p.symbol t).owner = .cls (p.climb n s) := by
  induction n generalizing s with
  | zero => omega
  | succ n ih =>
    rw [climb]
    split
    · next c owner => exact ⟨s, .refl, owner⟩
    · next t belongs =>
      have before := h.symbols s t belongs
      obtain ⟨u, way, owner⟩ := ih (s := t) (by omega)
      exact ⟨u, .head belongs way, owner⟩

theorem Nested.homeClass_spec (h : p.Nested) (s : SymbolId) :
    ∃ t, Relation.ReflTransGen p.BelongsTo s t ∧ (p.symbol t).owner = .cls (p.homeClass s) := by
  by_cases lt : s.index < p.symbols.size
  · exact h.climb_spec lt
  · -- Outside of the table, symbols belong to the root package.
    have absent : p.symbol s = default := by rw [symbol, Array.getD, dif_neg lt]
    refine ⟨s, .refl, ?_⟩
    unfold homeClass
    cases p.symbols.size <;> rw [climb, absent] <;> rfl

/-- A search with enough steps meets all classes around a class. -/
theorem Nested.reaches_iff (h : p.Nested) {n : Nat} (enough : ∀ e, p.LiesIn c e → e.index < n) :
    p.reaches d n c = true ↔ Relation.ReflTransGen p.LiesIn c d := by
  induction n generalizing c with
  | zero =>
    have outermost (e : ClassId) : ¬p.LiesIn c e := fun lies => absurd (enough e lies) (by omega)
    rw [reaches, beq_iff_eq]
    constructor
    · rintro rfl
      exact .refl
    · intro way
      rcases Relation.ReflTransGen.cases_head way with same | ⟨e, lies, -⟩
      · exact same
      · exact absurd lies (outermost e)
  | succ n ih =>
    rw [reaches, Bool.or_eq_true, beq_iff_eq, Relation.ReflTransGen.cases_head_iff]
    apply or_congr Iff.rfl
    split
    · next none => simp [LiesIn, none]
    · next e lies =>
      have inner : ∀ x, p.LiesIn e x → x.index < n := by
        intro x lies'
        have := h.lt_of_liesIn lies'
        have := enough e lies
        omega
      rw [ih inner]
      constructor
      · exact fun way => ⟨e, lies, way⟩
      · rintro ⟨x, lies', way⟩
        rw [LiesIn, lies] at lies'
        cases lies'
        exact way

theorem Nested.isInside_iff (h : p.Nested) (c d : ClassId) :
    p.isInside c d = true ↔ Relation.ReflTransGen p.LiesIn c d := by
  apply h.reaches_iff
  intro e lies
  have := h.lt_of_liesIn lies
  have := lies.index_lt
  omega

/-- A class lies inside the root package, over as many classes as it takes. -/
theorem Nested.inside_root (h : p.Nested) (lt : c.index < p.classes.size) :
    Relation.ReflTransGen p.LiesIn c .root := by
  induction hn : c.index using Nat.strong_induction_on generalizing c with
  | _ n ih =>
    by_cases outermost : c = .root
    · rw [outermost]
    · obtain ⟨d, lies, before⟩ := h.classes c outermost lt
      exact .head lies (ih d.index (hn ▸ before) (Nat.lt_trans before lt) rfl)

theorem Nested.classAround_le (h : p.Nested) {n : Nat} (le : c.index ≤ n + 1) :
    (p.classAround c).index ≤ n := by
  unfold classAround
  cases owner : (p.cls c).owner with
  | none => exact Nat.zero_le n
  | some d =>
    have := h.lt_of_liesIn owner
    show d.index ≤ n
    omega

theorem Nested.classAround_lt (h : p.Nested) (inner : c ≠ .root) :
    (p.classAround c).index < c.index := by
  have pos : c.index ≠ 0 := fun zero => inner (eq_root_of_index zero)
  have := h.classAround_le (c := c) (n := c.index - 1) (by omega)
  omega

theorem Nested.classAround_iterate (h : p.Nested) {n : Nat} (le : c.index ≤ n) :
    p.classAround^[n] c = .root := by
  induction n generalizing c with
  | zero => exact eq_root_of_index (Nat.le_zero.1 le)
  | succ n ih =>
    rw [Function.iterate_succ_apply]
    exact ih (h.classAround_le le)

theorem Grounded.leadsOut (h : p.Grounded) : p.LeadsOut where
  symbols := h.homeClass_spec
  homes s := by
    obtain ⟨t, -, owner⟩ := h.homeClass_spec s
    exact h.inside_root (h.homes t _ owner)
  classes _ lt := h.inside_root lt
  inside := h.isInside_iff
  around _ _ le := h.classAround_iterate le

/-- The program that commands have built so far refers to earlier entries only, and so does the
    completed program. All ways outwards end at the root package. -/
theorem Assembled.grounded_leadsOut (h : q.Assembled) :
    q.Grounded ∧ q.LeadsOut ∧ q.finish.Grounded ∧ q.finish.LeadsOut := by
  have finished := h.grounded.finish h.built.coherent
  exact ⟨h.grounded, h.grounded.leadsOut, finished, finished.leadsOut⟩

/-- A class with a member class and a local class in its method, which has a parameter and calls
    itself. -/
def nestedClasses : Program :=
  assemble [.defineClass "A" .package .none true,
    .defineClass "B" (.cls ⟨4⟩) .none true,
    .defineMethod ⟨5⟩ "m" ["x"] .none,
    .defineClass "L" (.inside ⟨17⟩) .none true,
    .ident ⟨17⟩, .callNamed ⟨16⟩ [⟨⟨5⟩, false⟩],
    .extend ⟨6⟩ ⟨.bare, ⟨4⟩⟩ [⟨⟨6⟩, false⟩]]

/-- The local class is reached from the parameter of the method, and both lead to the root
    package. -/
theorem grounded_leadsOut_nestedClasses :
    nestedClasses.Assembled ∧ nestedClasses.Grounded ∧ nestedClasses.finish.LeadsOut ∧
      (nestedClasses.cls ⟨4⟩).memberClasses = [⟨5⟩] ∧
      nestedClasses.homeClass ⟨17⟩ = ⟨5⟩ ∧
      nestedClasses.LiesIn ⟨6⟩ ⟨5⟩ ∧
      nestedClasses.finish.isInside ⟨6⟩ ⟨4⟩ = true ∧
      (nestedClasses.finish.cls ⟨6⟩).parents = [⟨4⟩] := by
  have assembled : nestedClasses.Assembled := assembled_assemble _
  obtain ⟨grounded, -, -, leads⟩ := Assembled.grounded_leadsOut assembled
  exact ⟨assembled, grounded, leads, by decide +kernel, by decide +kernel, by decide +kernel,
    by decide +kernel, by decide +kernel⟩

end ObjectInit.Program
