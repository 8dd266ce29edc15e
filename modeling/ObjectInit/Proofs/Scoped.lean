import ObjectInit.Proofs.Coherence
import ObjectInit.Proofs.Hierarchy

/-!
# Assembled programs are scoped

Where every command uses only what exists, the tables are scoped (`Program.Scoped`): an expression
has earlier expressions as its parts, a class lies inside an earlier one, and no two classes share a
declaration.

Main results:

* `Program.Scoped.change`: every change that uses what exists keeps the tables scoped.
* `Program.Assembled.scoped`: the tables of an assembled program are scoped.
* `Program.Assembled.changes`: so every command that uses what exists is a sequence of such changes.
-/

namespace ObjectInit.Program

variable {q q' : Program}

/-! ## Scoped tables -/

/-- The parts of the expression with this number come before it. -/
def ScopedExpr (e : ExprId) (node : Node) : Prop := ∀ e' ∈ node.children, e'.index < e.index

/-- The class of a member is in the table. -/
def ScopedSymbol (q : Program) (s : Symbol) : Prop :=
  ∀ c, s.owner = .cls c → c.index < q.classes.size

/-- The class lies inside an earlier one and has declarations of its own. The root package has
    neither a constructor nor a source. -/
structure ScopedClass (q : Program) (c : ClassId) (o : ClassDef) : Prop where
  around : c ≠ .root → (o.owner.getD .root).index < c.index
  declared : ∀ s ∈ o.decls, s.index < q.symbols.size ∧ (q.symbol s).owner = .cls c
  distinct : o.decls.Nodup
  root : c = .root → o.template = none ∧ o.primaryConstructor = none

/-- The tables refer to what is in them. -/
structure Scoped (q : Program) : Prop where
  size : 0 < q.classes.size
  exprs : ∀ e, ScopedExpr e (q.expr e).node
  symbols : ∀ s, q.ScopedSymbol (q.symbol s)
  classes : ∀ c, q.ScopedClass c (q.cls c)

theorem ScopedSymbol.mono {s : Symbol} (h : q.ScopedSymbol s) (grows : q.Grows q') :
    q'.ScopedSymbol s :=
  fun c hc => Nat.lt_of_lt_of_le (h c hc) grows.classes

theorem ScopedClass.mono {c : ClassId} {o : ClassDef} (h : q.ScopedClass c o)
    (grows : q.Grows q') : q'.ScopedClass c o where
  around := h.around
  declared s hs :=
    ⟨Nat.lt_of_lt_of_le (h.declared s hs).1 grows.symbols,
      (grows.symbol s (h.declared s hs).1).owner.trans (h.declared s hs).2⟩
  distinct := h.distinct
  root := h.root

/-- Tables that grow are scoped if each entry that changes is. -/
theorem Scoped.of_entries (h : q.Scoped) (grows : q.Grows q')
    (exprs : ∀ e, (q'.expr e).node = (q.expr e).node ∨ ScopedExpr e (q'.expr e).node)
    (symbols : ∀ s, (q'.symbol s).owner = (q.symbol s).owner ∨ q'.ScopedSymbol (q'.symbol s))
    (classes : ∀ c, q'.cls c = q.cls c ∨ q'.ScopedClass c (q'.cls c)) : q'.Scoped := by
  refine ⟨Nat.lt_of_lt_of_le h.size grows.classes, fun e => ?_, fun s => ?_, fun c => ?_⟩
  · rcases exprs e with he | he
    · rw [he]
      exact h.exprs e
    · exact he
  · rcases symbols s with hs | hs
    · rw [ScopedSymbol, hs]
      exact (h.symbols s).mono grows
    · exact hs
  · rcases classes c with hc | hc
    · rw [hc]
      exact (h.classes c).mono grows
    · exact hc

/-- A symbol lies inside a class of the table. -/
theorem Scoped.climb_lt (h : q.Scoped) (n : Nat) (s : SymbolId) :
    (q.climb n s).index < q.classes.size := by
  induction n generalizing s with
  | zero => exact h.size
  | succ n ih =>
    rw [climb]
    split
    next c hc => exact h.symbols s c hc
    next owner _ => exact ih owner

theorem Scoped.homeClass_lt (h : q.Scoped) (s : SymbolId) :
    (q.homeClass s).index < q.classes.size :=
  h.climb_lt _ s

/-! ## Changes -/

/-- One class changes. -/
theorem Scoped.modify (h : q.Scoped) {c : ClassId} {f : ClassDef → ClassDef}
    (grows : q.Grows { q with classes := q.classes.modify c.index f })
    (entry : c.index < q.classes.size → q.ScopedClass c (f (q.cls c))) :
    ({ q with classes := q.classes.modify c.index f } : Program).Scoped := by
  refine h.of_entries grows (fun _ => .inl rfl) (fun _ => .inl rfl) fun d => ?_
  rw [cls_modify]
  split
  · next hd =>
    obtain ⟨rfl, lt⟩ := hd
    exact .inr ((entry lt).mono grows)
  · exact .inl rfl

/-- One class changes but keeps its place and its declarations. -/
theorem Scoped.modify_of_kept (h : q.Scoped) {c : ClassId} {f : ClassDef → ClassDef}
    (grows : q.Grows { q with classes := q.classes.modify c.index f })
    (owner : ∀ o, (f o).owner = o.owner) (decls : ∀ o, (f o).decls = o.decls)
    (root : c = .root →
      (f (q.cls c)).template = none ∧ (f (q.cls c)).primaryConstructor = none) :
    ({ q with classes := q.classes.modify c.index f } : Program).Scoped := by
  refine h.modify grows fun _ => ?_
  obtain ⟨around, declared, distinct, -⟩ := h.classes c
  refine ⟨?_, ?_, ?_, root⟩
  · rwa [owner]
  · rwa [decls]
  · rwa [decls]

theorem Scoped.addSymbol (h : q.Scoped) {o : Symbol} (entry : q.ScopedSymbol o) :
    ({ q with symbols := q.symbols.push o } : Program).Scoped := by
  refine h.of_entries (.addSymbol o) (fun _ => .inl rfl) (fun s => ?_) fun _ => .inl rfl
  rw [symbol_push]
  split
  · exact .inr entry
  · exact .inl rfl

/-- A declared member is in no other table of declarations yet. -/
theorem Scoped.addMember (h : q.Scoped) {c : ClassId} {s : Symbol} (owner : s.owner = .cls c)
    (exist : c.index < q.classes.size) :
    ({ q with
      symbols := q.symbols.push s
      classes := q.classes.modify c.index fun o =>
        { o with decls := o.decls ++ [⟨q.symbols.size⟩] } } : Program).Scoped := by
  have added : ({ q with symbols := q.symbols.push s } : Program).Scoped := by
    refine h.addSymbol fun d hd => ?_
    rw [owner] at hd
    cases hd
    exact exist
  refine added.modify (.modifyClass ⟨fun _ h => h, List.prefix_append _ _⟩) fun _ => ?_
  obtain ⟨around, declared, distinct, root⟩ := added.classes c
  refine ⟨around, fun t ht => ?_, ?_, root⟩
  · rcases List.mem_append.1 ht with ht | ht
    · exact declared t ht
    · rw [List.mem_singleton.1 ht, symbol_push, if_pos rfl]
      exact ⟨by simp, owner⟩
  · refine List.nodup_append.2 ⟨distinct, List.nodup_singleton _, fun t ht u hu => ?_⟩
    rw [List.mem_singleton.1 hu]
    rintro rfl
    exact Nat.lt_irrefl _ ((h.classes c).declared _ ht).1

/-- An edit that uses what exists keeps the tables scoped. -/
theorem Scoped.edit (h : q.Scoped) (edit : q.Edit True q') : q'.Scoped := by
  have grows := edit.grows
  cases edit with
  | @enterClass c =>
    exact h.modify_of_kept grows (fun _ => rfl) (fun _ => rfl) (h.classes c).root
  | @alterClass c f kept =>
    have owner (o : ClassDef) : (f o).owner = o.owner := congrArg Shape.owner (kept.shape o)
    refine h.modify_of_kept grows owner kept.decls fun hc => ?_
    obtain ⟨template, constructor⟩ := (h.classes c).root hc
    have listed := congrArg Shape.listed (kept.shape (q.cls c))
    constructor
    · simpa [ClassDef.shape, template] using listed
    · exact (congrArg Shape.primaryConstructor (kept.shape _)).trans constructor
  | addMember owner exist => exact h.addMember owner (exist trivial)
  | @addSymbol s exist =>
    refine h.addSymbol fun c hc => ?_
    have exist := exist trivial
    rw [hc] at exist
    exact exist
  | @alterSymbol s f kept =>
    refine h.of_entries grows (fun _ => .inl rfl) (fun t => .inl ?_) fun _ => .inl rfl
    rw [symbol_modify]
    split
    · next ht => rw [(kept _).owner, ht.1]
    · rfl
  | addExpr exist =>
    refine h.of_entries grows (fun e => ?_) (fun _ => .inl rfl) fun _ => .inl rfl
    rw [expr_push]
    split
    · next he =>
      refine .inr fun e' he' => ?_
      rw [he]
      exact exist trivial e' he'
    · exact .inl rfl
  | @alterExpr e f kept =>
    refine h.of_entries grows (fun e' => .inl ?_) (fun _ => .inl rfl) fun _ => .inl rfl
    simp only [expr, Array.getD_eq_getD_getElem?, Array.getElem?_modify]
    split
    · cases q.exprs[e'.index]? with
      | none => rfl
      | some x => exact kept x
    · rfl

/-- The root package is no new class. -/
theorem Fresh.ne_root {c : ClassId} (h : q.Fresh c) : c ≠ .root := by
  rintro rfl
  exact absurd h.isNew.1 (by decide)

/-- A change that uses what exists keeps the tables scoped. -/
theorem Scoped.change (h : q.Scoped) (change : q.Change True q') : q'.Scoped := by
  have grows := change.grows
  cases change with
  | edit edit => exact h.edit edit
  | @addClass o d owner exist blank =>
    refine h.of_entries grows (fun _ => .inl rfl) (fun _ => .inl rfl) fun c => ?_
    rw [cls_push]
    split
    · next hc =>
      refine .inr ⟨fun _ => ?_, ?_, ?_, fun _ => ⟨blank.template, blank.primaryConstructor⟩⟩
      · rw [hc, owner]
        exact exist trivial
      · rw [blank.decls]
        exact fun s hs => absurd hs List.not_mem_nil
      · rw [blank.decls]
        exact List.nodup_nil
    · exact .inl rfl
  | setConstructor fresh | setSource fresh =>
    exact h.modify_of_kept grows (fun _ => rfl) (fun _ => rfl) fun hc => absurd hc fresh.ne_root
  | @extend c =>
    refine h.modify_of_kept grows (fun _ => rfl) (fun _ => rfl) fun hc => ?_
    obtain ⟨template, constructor⟩ := (h.classes c).root hc
    exact ⟨by simp [template], constructor⟩

theorem Scoped.changes (h : q.Scoped) (changes : Relation.ReflTransGen (Change True) q q') :
    q'.Scoped := by
  induction changes with
  | refl => exact h
  | tail _ change ih => exact ih.change change

/-! ## Assembled programs -/

instance (s : Symbol) : Decidable (q.ScopedSymbol s) :=
  match h : s.owner with
  | .cls c => decidable_of_iff (c.index < q.classes.size) (by simp [ScopedSymbol, h])
  | .symbol _ => .isTrue (by simp [ScopedSymbol, h])

instance (c : ClassId) (o : ClassDef) : Decidable (q.ScopedClass c o) :=
  decidable_of_iff ((c ≠ .root → (o.owner.getD .root).index < c.index) ∧
      (∀ s ∈ o.decls, s.index < q.symbols.size ∧ (q.symbol s).owner = .cls c) ∧ o.decls.Nodup ∧
      (c = .root → o.template = none ∧ o.primaryConstructor = none))
    ⟨fun h => ⟨h.1, h.2.1, h.2.2.1, h.2.2.2⟩, fun h => ⟨h.around, h.declared, h.distinct, h.root⟩⟩

/-- Tables without expressions are scoped if each of their entries is. -/
theorem scoped_of_table (size : 0 < q.classes.size) (exprs : q.exprs.size = 0)
    (symbols : ∀ i, i < q.symbols.size → q.ScopedSymbol (q.symbol ⟨i⟩))
    (classes : ∀ i, i < q.classes.size → q.ScopedClass ⟨i⟩ (q.cls ⟨i⟩)) : q.Scoped := by
  refine ⟨size, fun e => ?_, fun s => ?_, fun c => ?_⟩
  · rw [expr, Array.getD, dif_neg (by omega)]
    exact List.forall_mem_nil _
  · by_cases hs : s.index < q.symbols.size
    · exact symbols s.index hs
    · rw [symbol, Array.getD, dif_neg hs]
      intro c hc
      cases hc
      exact size
  · by_cases hc : c.index < q.classes.size
    · exact classes c.index hc
    · rw [cls_eq_default hc]
      refine ⟨fun h => Nat.pos_of_ne_zero fun h0 => hc (by omega), fun s hs => ?_, .nil,
        fun _ => ⟨rfl, rfl⟩⟩
      cases hs

theorem scoped_initial : Program.initial.Scoped :=
  scoped_of_table (by decide +kernel) (by decide +kernel) (by decide +kernel) (by decide +kernel)

/-- A command that uses what exists, on the tables of an assembled program. -/
theorem Assembled.changes_of_scoped (h : q.Assembled) (hq : q.Scoped) {command : Command}
    (exist : command.uses.Exist q) : Build.Steps (Change True) command.run q Build.anything := by
  refine Command.changes h.built.coherent (fun c parent args hcommand => ?_)
    (fun _ => hq.homeClass_lt) fun _ => exist
  subst hcommand
  exact exist.1 parent.cls (by simp [Command.uses])

/-- The tables of an assembled program refer to what is in them. -/
theorem Assembled.scoped (h : q.Assembled) : q.Scoped := by
  induction h with
  | initial => exact scoped_initial
  | command h exist run ih => exact ih.changes (h.changes_of_scoped ih exist _ _ run).1

/-- A command that uses what exists is a sequence of changes. -/
theorem Assembled.changes (h : q.Assembled) {command : Command} (exist : command.uses.Exist q) :
    Build.Steps (Change True) command.run q Build.anything :=
  h.changes_of_scoped h.scoped exist

end ObjectInit.Program
