import ObjectInit.Proofs.Initialization

/-!
# Exactness of the check

In the part of the language where members of the own instance only are named, the check of a class
is exact. It goes through the statements of all bases in the order of initialization and reports a
read if and only if it comes too early: a statement leads to it through methods and lazy fields,
and no earlier statement defines the field that it reads.

Main results:

* `Query.reports_of_check`: the check of a class comes to an end, and it reports exactly the reads
  that come too early.
-/

namespace ObjectInit

variable {q : Program} {c : ClassId}

namespace Program

/-- The errors are those of the reads that come too early while an instance of `c` is initialized.
    They are compared as a set, and for the reads that they are about: the trace of an error is that
    of the evaluation which comes upon the read, and a read that is part of several expressions may
    be reported with each of them. -/
structure Reports (p : Program) (c : ClassId) (es : List SafetyError) : Prop where
  sound : ∀ error ∈ es, ∃ k f, p.ReadsEarly c (p.statements c) k f ∧
    ∃ trace, error = p.readError f ⟨(p.expr k.expr).span, trace⟩
  complete : ∀ k f, p.ReadsEarly c (p.statements c) k f →
    ∃ trace, p.readError f ⟨(p.expr k.expr).span, trace⟩ ∈ es

/-- The constructors of the root classes do nothing. -/
def RootsIdle (p : Program) (c : ClassId) : Prop :=
  c = .object ∨ c = .any → ∀ ctor ∈ (p.cls c).primaryConstructor, (p.symbol ctor).body = none

instance (p : Program) (c : ClassId) : Decidable (p.RootsIdle c) :=
  inferInstanceAs (Decidable (_ → _))

theorem Searched.reports {p : Program} {V : Set ExprId} {es : List SafetyError}
    (searched : p.Searched c (p.statements c) V es) : p.Reports c es :=
  ⟨searched.sound, searched.told⟩

end Program

/-- Before anything is initialized, the object has no fields and the outer of its class. -/
theorem Store.after_allocated {p : Program} {h : Heap}
    (ok : Store.initial.heap.allocate (.thisOf c) (.new c [(c, .hot)]) = .ok h) :
    Store.After p c ⟨[], [], [c]⟩ ∅ [] { Store.initial with heap := h } := by
  have noField (f : SymbolId) : Store.initial.heap.field? (.thisOf c) f = none := by
    simp [Store.initial, Heap.field?, Heap.read]
  have noOuter (b : ClassId) : Store.initial.heap.outer? (.thisOf c) b = none := by
    simp [Store.initial, Heap.outer?, Heap.read]
  have unseen {e : ExprId} {v : Value}
      (hit : Store.initial.cache.find? (.thisOf c) e = some v) : False := by
    cases hit
  refine ⟨?_, fun f => ?_, fun b v hv => ?_, ⟨rfl, fun _ _ hit => (unseen hit).elim,
    fun _ _ hit => (unseen hit).elim, Nat.le_refl _⟩, Program.searched_nil⟩
  · rw [Heap.contains, Heap.read_of_allocate ok, if_pos rfl]
    rfl
  · exact (Heap.field?_of_allocate ok _ f).trans (noField f)
  · rw [Heap.outer?_of_allocate ok, noOuter] at hv
    split at hv
    · next own => exact List.mem_singleton.2 own.2
    · cases hv

/-- The check runs the template of the class on a new object. -/
theorem Plan.meets_check {p : Program} {ctor : SymbolId} {e : ExprId}
    (hctor : (p.cls c).primaryConstructor = some ctor) (hbody : (p.symbol ctor).body = some e)
    (hnode : (p.expr e).node = .template c) (bases : (c :: (p.cls c).linearization.tail).Nodup)
    (run : (template p c (.thisOf c)).Initializes p c ⟨p.statements c,
      (p.cls c).linearization.tail, (p.cls c).linearization.tail⟩ fun o es => o.errors = es) :
    (check p c).Meets p .initial fun es _ => p.Reports c es := by
  have empty : Store.initial.heap.contains (.thisOf c) = false := by
    simp [Store.initial, Heap.contains, Heap.read]
  obtain ⟨h, ok⟩ : ∃ h, Store.initial.heap.allocate (.thisOf c) (.new c [(c, .hot)]) = .ok h :=
    ⟨_, if_neg (by simp [empty])⟩
  have whole : (do
      let o ← inEnv (.ofList ((p.symbol ctor).params.map (·, .hot)))
        (calledFrom (p.cls c).span (Query.eval e ⟨.thisOf c, c⟩ true))
      return o.errors : Plan _).Initializes p c (⟨[], [c], []⟩ ++ ⟨p.statements c,
        (p.cls c).linearization.tail, (p.cls c).linearization.tail⟩) Eq :=
    .ret (.inEnv (.calledFrom (initializes_evalTemplate hnode run))) fun o es ho => ho
  unfold check
  rw [hctor]
  dsimp only
  rw [hbody]
  dsimp only
  refine meets_look_bind ?_
  rw [empty, if_neg Bool.false_ne_true]
  refine meets_bind (meets_perform (a := ()) (Effect.run_allocate.2 ⟨h, ok, rfl⟩) ?_)
  refine (whole _ ⟨[], [], [c]⟩ ∅ [] ⟨List.prefix_refl _, bases, bases⟩
    (Store.after_allocated ok)).imp fun es t hes => ?_
  obtain ⟨V, es', after, rfl⟩ := hes
  exact after.searched.reports

/-- A class without source, if it exists, is a root class here. -/
theorem Program.ThisOnly.statements_of_noSource (thisOnly : q.finish.ThisOnly c)
    (coherent : q.Coherent) (acyclic : q.finish.Acyclic) (roots : q.finish.RootsAlone)
    (noSource : (q.finish.cls c).hasSource = false) : q.finish.statements c = [] := by
  by_cases hc : c.index < q.classes.size
  · exact coherent.statements_of_root roots
      (Plan.root_of_noSource thisOnly (mem_linearization_self acyclic hc) noSource)
  · rw [statements, cls_of_size_le (by rw [size_finish]; omega)]
    rfl

/-- The check of a class comes to an end, and it reports exactly the reads that come too early. -/
theorem Query.reports_of_check (assembled : q.Assembled) (acyclic : q.finish.Acyclic)
    (thisOnly : q.finish.ThisOnly c) (classes : q.finish.ExtendsClasses c)
    (roots : q.finish.RootsAlone) (idle : q.finish.RootsIdle c) :
    ∃ es t, (Query.check c).Answered q.finish .initial es t ∧ q.finish.Reports c es := by
  have coherent := assembled.built.coherent
  suffices (Plan.check q.finish c).Meets q.finish .initial fun es _ => q.finish.Reports c es by
    obtain ⟨n, es, t, ends, reports⟩ := this
    exact ⟨es, t, ⟨n + 1, Query.ends_succ.2 ends⟩, reports⟩
  cases source : (q.finish.cls c).hasSource with
  | true =>
    have exists_c : c.index < q.classes.size :=
      Program.index_lt_of_source ((Program.hasSource_finish c).symm.trans source)
    have base := Program.mem_linearization_self acyclic exists_c
    obtain ⟨T, plain⟩ := thisOnly.exists_plain coherent base
      ((Program.hasSource_finish c).symm.trans source)
    obtain ⟨ctor, e, hctor, body, node⟩ := plain.constructor
    have cons : c :: (q.finish.cls c).linearization.tail = (q.finish.cls c).linearization := by
      rw [Program.linearization_finish acyclic exists_c]
      rfl
    refine Plan.meets_check hctor body node (cons ▸ Program.nodup_linearization acyclic c) ?_
    exact Plan.initializes_template coherent acyclic roots thisOnly assembled.scoped classes plain
      .refl thisOnly.isClass
  | false =>
    have stats := thisOnly.statements_of_noSource coherent acyclic roots source
    have nothing : Plan.check q.finish c = Pure.pure [] := by
      unfold Plan.check
      cases hctor : (q.finish.cls c).primaryConstructor with
      | none => rfl
      | some ctor =>
        have exists_c : c.index < q.classes.size := by
          by_contra hc
          rw [Program.cls_of_size_le (by rw [Program.size_finish]; omega)] at hctor
          cases hctor
        have root := Plan.root_of_noSource thisOnly
          (Program.mem_linearization_self acyclic exists_c) source
        dsimp only
        rw [idle root ctor hctor]
    rw [nothing]
    refine Plan.meets_pure (Program.Searched.reports (V := ∅) ?_)
    rw [stats]
    exact Program.searched_nil

/-! ## Tables of reached code -/

/-- The expression is an identifier. -/
def Node.isIdent : Node → Bool
  | .ident _ _ => true
  | _ => false

namespace Program

variable {p : Program}

instance (s : SymbolId) : Decidable (p.CanUse c s) := inferInstanceAs (Decidable (_ ∧ _))

instance (target : ExprId) : Decidable (∃ s path, (p.expr target).node = .ident s path) :=
  decidable_of_iff ((p.expr target).node.isIdent = true) <| by
    cases (p.expr target).node <;> simp [Node.isIdent]

instance (k : Code) : Decidable (p.Permits c k) := by
  unfold Permits
  split <;> infer_instance

/-- The table lists the code that is reached from each statement. -/
structure Leads (p : Program) (c : ClassId) (reach : Code → List Code) : Prop where
  starts : ∀ stat ∈ p.statements c, ∀ start ∈ p.start? stat, start ∈ reach stat
  closed : ∀ stat ∈ p.statements c, ∀ k ∈ reach stat, ∀ k' ∈ p.next c k, k' ∈ reach stat

theorem Leads.mem {reach : Code → List Code} (table : p.Leads c reach) {stat start k : Code}
    (hstat : stat ∈ p.statements c) (hstart : p.start? stat = some start)
    (h : p.Reaches c start k) : k ∈ reach stat := by
  induction h with
  | refl => exact table.starts stat hstat start hstart
  | tail _ hk ih => exact table.closed stat hstat _ ih _ hk

/-- By a table of the code that is reached, it is tested whether no read comes too early. -/
theorem Leads.not_readsEarly {reach : Code → List Code} (table : p.Leads c reach)
    (test : ∀ i < (p.statements c).length, ∀ stat ∈ (p.statements c)[i]?, ∀ k ∈ reach stat,
      ∀ f ∈ p.readOf? c k.expr, f ∈ ((p.statements c).take i).filterMap p.defined?)
    (k : Code) (f : SymbolId) : ¬p.ReadsEarly c (p.statements c) k f := by
  rintro ⟨before, stat, after, start, heq, hstart, reaches, read, new⟩
  have hstat : stat ∈ p.statements c := by
    rw [heq]
    exact List.mem_append_right _ List.mem_cons_self
  refine new ?_
  have found := test before.length (by simp [heq]) stat (by simp [heq]) k
    (table.mem hstat hstart reaches) f read
  simpa [heq] using found

/-- By a table of the code that is reached, it is tested whether all of it is part of the
    language. -/
theorem Leads.isThisOnly {reach : Code → List Code} (table : p.Leads c reach)
    (test : ∀ stat ∈ p.statements c, ∀ k ∈ reach stat, p.Permits c k) :
    ∀ stat ∈ p.statements c, ∀ start, p.start? stat = some start → p.IsThisOnly c start :=
  fun stat hstat _ hstart _ reaches => test stat hstat _ (table.mem hstat hstart reaches)

/-- The tests for a plain base. -/
def isPlainBase (p : Program) (b : ClassId) : Bool :=
  match (p.cls b).template with
  | some t =>
    decide ((p.cls b).owner = some .root ∧
      (((p.cls b).primaryConstructor.bind fun ctor => (p.symbol ctor).body).map fun e =>
        (p.expr e).node) = some (.template b) ∧ p.paramFields b = [] ∧
      (∀ parent ∈ t.parents, parent.type.path = .bare ∧ parent.args = []) ∧
      (∀ stat ∈ t.body, ∀ f ∈ p.defined? ⟨stat, b⟩, (p.symbol f).owner = .cls b) ∧
      (t.body.filterMap fun stat => p.defined? ⟨stat, b⟩).Nodup)
  | none => false

theorem plainBase_of_test {b : ClassId} (test : p.isPlainBase b = true) : ∃ t, p.PlainBase b t := by
  rw [isPlainBase] at test
  split at test
  · next t ht =>
    obtain ⟨topLevel, constructor, params, parents, ownFields, distinct⟩ := of_decide_eq_true test
    obtain ⟨e, he, node⟩ := Option.map_eq_some_iff.1 constructor
    obtain ⟨ctor, hctor, body⟩ := Option.bind_eq_some_iff.1 he
    exact ⟨t, topLevel, ht, ⟨ctor, e, hctor, body, node⟩, params, parents, ownFields, distinct⟩
  · cases test

/-- The construction of an instance is tested by the first super classes and by a table of the code
    that is reached. -/
theorem ThisOnly.of_table {reach : Code → List Code} (n : Nat) (isClass : (p.cls c).isTrait = false)
    (bases : ∀ b ∈ (p.cls c).linearization, b ≠ .object → b ≠ .any → p.isPlainBase b = true)
    (closed : ∀ d ∈ p.superClasses n c, ∀ e ∈ (p.cls d).superClass, e ∈ p.superClasses n c)
    (above : ∀ b ∈ (p.cls c).linearization, (p.cls b).isTrait = false → b ≠ .object → b ≠ .any →
      b ∈ p.superClasses n c)
    (table : p.Leads c reach) (permits : ∀ stat ∈ p.statements c, ∀ k ∈ reach stat, p.Permits c k) :
    p.ThisOnly c where
  isClass := isClass
  bases b hb object any := plainBase_of_test (bases b hb object any)
  chain b hb trait object any :=
    (chain_iff_mem_superClasses closed b).2 (above b hb trait object any)
  code := table.isThisOnly permits

end Program

/-! ## A virtual call -/

/-- A class `A` with a method `m` and a field `a`, which is initialized by a call of `m`, a trait
    `T` with a field `t`, and a class `C` that extends `A` and mixes in `T`. Its field `x` is
    initialized by `t`, and its method `m` reads `x`. -/
def readsInOverride : Program := .assemble [
  .defineClass "A" .package .none true,
  .defineMethod ⟨4⟩ "m" [] .none,
  .literal,
  .setBody ⟨15⟩ ⟨2⟩,
  .defineField ⟨4⟩ "a" .value,
  .callNamed ⟨15⟩ [],
  .setBody ⟨16⟩ ⟨4⟩,
  .defineClass "T" .package (.ofList [.trait]) true,
  .defineField ⟨5⟩ "t" .value,
  .literal,
  .setBody ⟨18⟩ ⟨7⟩,
  .defineClass "C" .package .none true,
  .extend ⟨6⟩ ⟨.bare, ⟨4⟩⟩ [],
  .extend ⟨6⟩ ⟨.bare, ⟨5⟩⟩ [],
  .defineField ⟨6⟩ "x" .value,
  .identFrom (.thisOf ⟨6⟩) ⟨18⟩,
  .setBody ⟨20⟩ ⟨10⟩,
  .defineMethod ⟨6⟩ "m" [] .none,
  .identFrom (.thisOf ⟨6⟩) ⟨20⟩,
  .setBody ⟨21⟩ ⟨12⟩]

theorem leads_readsInOverride : readsInOverride.finish.Leads ⟨6⟩ fun stat =>
    match stat.expr.index with
    | 3 => [⟨⟨4⟩, ⟨4⟩⟩, ⟨⟨12⟩, ⟨6⟩⟩]
    | 6 => [⟨⟨7⟩, ⟨5⟩⟩]
    | 9 => [⟨⟨10⟩, ⟨6⟩⟩]
    | _ => [] := by
  constructor <;> decide +kernel

/-- The check of `C` reports exactly that the call in `A` reads `x` before it is initialized. -/
theorem Query.reports_of_check_readsInOverride :
    (readsInOverride.finish.ThisOnly ⟨6⟩ ∧ readsInOverride.finish.ExtendsClasses ⟨6⟩ ∧
      readsInOverride.finish.RootsAlone ∧ readsInOverride.finish.RootsIdle ⟨6⟩) ∧
    ∃ es t, (Query.check ⟨6⟩).Answered readsInOverride.finish .initial es t ∧
      readsInOverride.finish.Reports ⟨6⟩ es := by
  have thisOnly : readsInOverride.finish.ThisOnly ⟨6⟩ :=
    .of_table 4 (by decide +kernel) (by decide +kernel) (by decide +kernel) (by decide +kernel)
      leads_readsInOverride (by decide +kernel)
  have acyclic : readsInOverride.finish.Acyclic :=
    Program.acyclic_of_rank (fun c => [0, 0, 1, 2, 2, 2, 3].getD c.index 0) (by decide +kernel)
  have classes : readsInOverride.finish.ExtendsClasses ⟨6⟩ := by decide +kernel
  have roots : readsInOverride.finish.RootsAlone := by decide +kernel
  have idle : readsInOverride.finish.RootsIdle ⟨6⟩ := by decide +kernel
  exact ⟨⟨thisOnly, classes, roots, idle⟩,
    Query.reports_of_check (Program.assembled_assemble _) acyclic thisOnly classes roots idle⟩

/-! ## Statements that are not carried out -/

/-- A trait `T` with a field `x` that extends `Any` and that `Object` extends, and a class `C` whose
    field `y` is initialized by `x`. -/
def readsUnderObject : Program := .assemble [
  .defineClass "T" .package (.ofList [.trait]) true,
  .defineField ⟨4⟩ "x" .value,
  .literal,
  .setBody ⟨15⟩ ⟨2⟩,
  .extend ⟨4⟩ ⟨.bare, .any⟩ [],
  .extend .object ⟨.bare, ⟨4⟩⟩ [],
  .defineClass "C" .package .none true,
  .defineField ⟨5⟩ "y" .value,
  .identFrom (.thisOf ⟨5⟩) ⟨15⟩,
  .setBody ⟨17⟩ ⟨5⟩]

/-- A trait `S` with a field `x`, a trait `T` that extends it, and a package `C` that extends `T`
    and whose field `y` is initialized by `x`. -/
def packageOfTrait : Program := .assemble [
  .defineClass "S" .package (.ofList [.trait]) true,
  .defineField ⟨4⟩ "x" .value,
  .literal,
  .setBody ⟨15⟩ ⟨2⟩,
  .defineClass "T" .package (.ofList [.trait]) true,
  .extend ⟨5⟩ ⟨.bare, ⟨4⟩⟩ [],
  .defineClass "C" .package (.ofList [.package]) true,
  .extend ⟨6⟩ ⟨.bare, ⟨5⟩⟩ [],
  .defineField ⟨6⟩ "y" .value,
  .identFrom (.thisOf ⟨6⟩) ⟨15⟩,
  .setBody ⟨18⟩ ⟨6⟩]

/-- `Object` with a field `x` that its constructor reads. -/
def busyObject : Program := .assemble [
  .declareMember .object "x" .none,
  .identFrom (.thisOf .object) ⟨14⟩,
  .setBody ⟨9⟩ ⟨0⟩]

theorem Program.not_reports {p : Program} {reach : Code → List Code} (table : p.Leads c reach)
    (test : ∀ i < (p.statements c).length, ∀ stat ∈ (p.statements c)[i]?, ∀ k ∈ reach stat,
      ∀ f ∈ p.readOf? c k.expr, f ∈ ((p.statements c).take i).filterMap p.defined?)
    {es : List SafetyError} (found : (!es.isEmpty) = true) : ¬p.Reports c es := by
  intro reports
  obtain ⟨error, herror⟩ := List.exists_mem_of_ne_nil es (by simpa using found)
  obtain ⟨k, f, early, -⟩ := reports.sound error herror
  exact table.not_readsEarly test k f early

theorem leads_readsUnderObject : readsUnderObject.finish.Leads ⟨5⟩ fun stat =>
    (readsUnderObject.finish.start? stat).toList := by
  constructor <;> decide +kernel

theorem leads_packageOfTrait : packageOfTrait.finish.Leads ⟨6⟩ fun stat =>
    (packageOfTrait.finish.start? stat).toList := by
  constructor <;> decide +kernel

theorem leads_busyObject : busyObject.finish.Leads .object fun stat =>
    (busyObject.finish.start? stat).toList := by
  constructor <;> decide +kernel

/-- The check reports reads that do not come too early, if it leaves out statements of bases: it
    carries out none for the parents of a root class, and none for the parents of a trait that is
    the super class of a package. For a root class it evaluates a constructor that is no
    template. -/
theorem Query.misreports_left_out :
    (readsUnderObject.finish.Acyclic ∧ readsUnderObject.finish.ThisOnly ⟨5⟩ ∧
      readsUnderObject.finish.ExtendsClasses ⟨5⟩ ∧ readsUnderObject.finish.RootsIdle ⟨5⟩ ∧
      ∃ es t, (Query.check ⟨5⟩).Answered readsUnderObject.finish .initial es t ∧
        ¬readsUnderObject.finish.Reports ⟨5⟩ es) ∧
    (packageOfTrait.finish.Acyclic ∧ packageOfTrait.finish.ThisOnly ⟨6⟩ ∧
      packageOfTrait.finish.RootsAlone ∧ packageOfTrait.finish.RootsIdle ⟨6⟩ ∧
      ∃ es t, (Query.check ⟨6⟩).Answered packageOfTrait.finish .initial es t ∧
        ¬packageOfTrait.finish.Reports ⟨6⟩ es) ∧
    (busyObject.finish.Acyclic ∧ busyObject.finish.ThisOnly .object ∧
      busyObject.finish.ExtendsClasses .object ∧ busyObject.finish.RootsAlone ∧
      ∃ es t, (Query.check .object).Answered busyObject.finish .initial es t ∧
        ¬busyObject.finish.Reports .object es) := by
  obtain ⟨es, answered, found⟩ := Query.answered_of_result? (!·.isEmpty)
    (p := readsUnderObject.finish) (n := 20) (s := .initial) (q := .check ⟨5⟩) (by decide +kernel)
  obtain ⟨es', answered', found'⟩ := Query.answered_of_result? (!·.isEmpty)
    (p := packageOfTrait.finish) (n := 20) (s := .initial) (q := .check ⟨6⟩) (by decide +kernel)
  obtain ⟨es'', answered'', found''⟩ := Query.answered_of_result? (!·.isEmpty)
    (p := busyObject.finish) (n := 20) (s := .initial) (q := .check .object) (by decide +kernel)
  refine ⟨⟨?_, ?_, by decide +kernel, by decide +kernel, es, _, answered,
      Program.not_reports leads_readsUnderObject (by decide +kernel) found⟩,
    ⟨?_, ?_, by decide +kernel, by decide +kernel, es', _, answered',
      Program.not_reports leads_packageOfTrait (by decide +kernel) found'⟩,
    ⟨?_, ?_, by decide +kernel, by decide +kernel, es'', _, answered'',
      Program.not_reports leads_busyObject (by decide +kernel) found''⟩⟩
  · exact Program.acyclic_of_rank (fun c => [0, 0, 2, 3, 1, 3].getD c.index 0) (by decide +kernel)
  · exact .of_table 4 (by decide +kernel) (by decide +kernel) (by decide +kernel)
      (by decide +kernel) leads_readsUnderObject (by decide +kernel)
  · exact Program.acyclic_of_rank (fun c => [0, 0, 1, 2, 2, 3, 4].getD c.index 0)
      (by decide +kernel)
  · exact .of_table 4 (by decide +kernel) (by decide +kernel) (by decide +kernel)
      (by decide +kernel) leads_packageOfTrait (by decide +kernel)
  · exact Program.acyclic_of_rank (fun c => [0, 0, 1, 2].getD c.index 0) (by decide +kernel)
  · exact .of_table 4 (by decide +kernel) (by decide +kernel) (by decide +kernel)
      (by decide +kernel) leads_busyObject (by decide +kernel)

end ObjectInit
