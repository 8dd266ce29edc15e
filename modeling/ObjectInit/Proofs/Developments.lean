import ObjectInit.Proofs.Scoped

/-!
# Class parameters of programs that are built further

A class parameter is a parameter of the primary constructor together with the field that stores it,
which has the same name. Whatever commands follow, symbols keep what they were declared with, and a
class keeps its constructor and its declarations (`Program.Grows`). So a class parameter is still
there when the program is completed.

Main results:

* `Program.Develops.grows`: what every further command leaves as it is.
* `Program.Built.exists_storesParam`: the field of a class parameter in the completed program.
-/

namespace ObjectInit

/-! ## Class parameters -/

namespace Program

/-- The second program comes from the first one by further commands. -/
inductive Develops (q : Program) : Program → Prop where
  | refl : Develops q q
  | command {q' q'' : Program} {command : Command} {created : Created} (h : Develops q q')
    (exist : ∀ c parent args, command = .extend c parent args →
      parent.cls.index < q'.classes.size)
    (run : command.run.run q' = .ok (created, q'')) : Develops q q''

/-- The field of the class stores the parameter, which is one of the primary constructor. -/
structure StoresParam (p : Program) (c : ClassId) (ctor f x : SymbolId) : Prop where
  primary : (p.cls c).primaryConstructor = some ctor
  param : x ∈ (p.symbol ctor).params
  decl : f ∈ (p.cls c).decls
  owner : (p.symbol f).owner = .cls c
  flags : (p.symbol f).flags = .ofList [.paramAccessor]
  name : (p.symbol x).name = (p.symbol f).name

variable {q q' q₁ q₂ : Program} {c : ClassId} {ctor f x : SymbolId} {name : String}

theorem Develops.built (h : q.Develops q') (built : q.Built) : q'.Built := by
  induction h with
  | refl => exact built
  | command _ exist run ih => exact .command ih exist run

theorem Develops.grows (h : q.Develops q') (built : q.Built) : q.Grows q' := by
  induction h with
  | refl => exact .refl q
  | command h exist run ih =>
    exact ih.trans (.of_changes ((h.built built).changes exist _ _ run).1)

namespace StoresParam

theorem flag (h : q.StoresParam c ctor f x) (flag : SymbolFlag) :
    (q.symbol f).flags.has flag = (flag == .paramAccessor) := by
  rw [h.flags]
  cases flag <;> decide

theorem mem_paramFields (h : q.StoresParam c ctor f x) : f ∈ q.paramFields c :=
  List.mem_filter.2 ⟨h.decl, h.flag .paramAccessor⟩

theorem of_grows (h : q.StoresParam c ctor f x) (hctor : ctor.index < q.symbols.size)
    (hf : f.index < q.symbols.size) (hx : x.index < q.symbols.size) (grows : q.Grows q') :
    q'.StoresParam c ctor f x where
  primary := (grows.cls c).primaryConstructor ctor h.primary
  param := (grows.symbol ctor hctor).params.subset h.param
  decl := (grows.cls c).decls.subset h.decl
  owner := (grows.symbol f hf).owner.trans h.owner
  flags := (grows.symbol f hf).flags.trans h.flags
  name := by rw [(grows.symbol x hx).name, (grows.symbol f hf).name, h.name]

theorem finish (h : q.StoresParam c ctor f x) : q.finish.StoresParam c ctor f x where
  primary := (primaryConstructor_finish c).trans h.primary
  param := h.param
  decl := by
    rw [(kept_finish c).2.2.1]
    exact h.decl
  owner := h.owner
  flags := h.flags
  name := h.name

end StoresParam

/-- A declared parameter is one of its owner. -/
theorem param_of_declareParam {owner : SymbolId} (howner : owner.index < q.symbols.size)
    (run : (Build.declareParam owner name).run q = .ok (x, q')) :
    x.index < q'.symbols.size ∧ (q'.symbol x).name = name ∧ x ∈ (q'.symbol owner).params := by
  obtain ⟨_, _, added, run⟩ := Build.run_bind_eq_ok.1 run
  cases added
  obtain ⟨_, _, modified, run⟩ := Build.run_bind_eq_ok.1 run
  cases modified
  cases run
  have new : (⟨q.symbols.size⟩ : SymbolId) ≠ owner := by
    rintro rfl
    exact Nat.lt_irrefl _ howner
  refine ⟨by simp, ?_, ?_⟩
  · rw [symbol_modify, if_neg fun same => new same.1, symbol_push, if_pos rfl]
  · rw [symbol_modify, if_pos ⟨rfl, by simpa using Nat.lt_succ_of_lt howner⟩]
    exact List.mem_append_right _ (List.mem_singleton_self _)

/-- A declared member has its name and is a declaration of its class. -/
theorem mem_decls_of_declareMember {flags : Flags SymbolFlag} (hc : c.index < q.classes.size)
    (run : (Build.declareMember c name flags).run q = .ok (f, q')) :
    (q'.symbol f).name = name ∧ f ∈ (q'.cls c).decls := by
  obtain ⟨_, _, added, run⟩ := Build.run_bind_eq_ok.1 run
  cases added
  obtain ⟨_, _, modified, run⟩ := Build.run_bind_eq_ok.1 run
  cases modified
  cases run
  constructor
  · exact congrArg Symbol.name ((symbol_push _ _).trans (if_pos rfl))
  · rw [cls_modify, if_pos ⟨rfl, hc⟩]
    exact List.mem_append_right _ (List.mem_singleton_self _)

/-- A class parameter that was added to a class of a built program is stored in its field by the
    completed program, whatever else was built meanwhile. -/
theorem Built.exists_storesParam (built : q.Built)
    (run : (Command.defineClassParam c name).run.run q = .ok (.symbol f, q₁))
    (later : q₁.Develops q₂) :
    ∃ ctor x, q₂.finish.StoresParam c ctor f x ∧ (q₂.finish.symbol f).name = name := by
  have defined : (Build.defineClassParam c name).run q = .ok (f, q₁) := by
    simp only [Command.run] at run
    rw [map_eq_pure_bind] at run
    obtain ⟨f', q', h, last⟩ := Build.run_bind_eq_ok.1 run
    cases last
    exact h
  obtain ⟨ctor, q', found, defined⟩ := Build.run_bind_eq_ok.1 defined
  obtain ⟨_, _, got, found⟩ := Build.run_bind_eq_ok.1 found
  cases got
  split at found
  · next ctor' hctor =>
    cases found
    have hc : c.index < q.classes.size := by
      by_contra outside
      rw [cls_eq_default outside] at hctor
      cases hctor
    have exists_ctor := (built.coherent.constructors c ctor hctor).1
    obtain ⟨x, q', declared, defined⟩ := Build.run_bind_eq_ok.1 defined
    have declares : Build.Steps (Edit False) (Build.declareParam ctor name) q Build.anything :=
      .declareParam nofun
    have defines : Build.Steps (Edit False)
        (Build.declareMember c name (.ofList [.paramAccessor])) q' Build.existing :=
      .declareMember nofun
    have first : q.Grows q' := .of_changes (declares.change x q' declared).1
    have second : q'.Grows q₁ := .of_changes (defines.change f q₁ defined).1
    have rest := later.grows (.command built (fun _ _ _ h => by cases h) run)
    have hc' := Nat.lt_of_lt_of_le hc first.classes
    obtain ⟨hx, xName, param⟩ := param_of_declareParam exists_ctor declared
    obtain ⟨hf, owner, flags⟩ := Build.symbol_of_declareMember defined
    obtain ⟨fName, decl⟩ := mem_decls_of_declareMember hc' defined
    have exists_ctor' := Nat.lt_of_lt_of_le exists_ctor first.symbols
    have stores : q₁.StoresParam c ctor f x := {
      primary :=
        (second.cls c).primaryConstructor ctor ((first.cls c).primaryConstructor ctor hctor)
      param := (second.symbol ctor exists_ctor').params.subset param
      decl := decl
      owner := owner
      flags := flags
      name := by rw [(second.symbol x hx).name, xName, fName] }
    refine ⟨ctor, x, (stores.of_grows ?_ hf ?_ rest).finish, ?_⟩
    · exact Nat.lt_of_lt_of_le exists_ctor' second.symbols
    · exact Nat.lt_of_lt_of_le hx second.symbols
    · exact ((rest.symbol f hf).name).trans fName
  · cases found

theorem Develops.after (h : q.Develops q') (command : Command) : q.Develops (q'.after command) := by
  unfold Program.after
  split
  · next exist =>
    split
    · next run =>
      refine .command h (fun c parent args hcommand => ?_) run
      subst hcommand
      exact exist.1 parent.cls (by simp [Command.uses])
    · exact h
  · exact h

/-- A command among those that assemble a program carries it out on what the earlier ones build. -/
theorem exists_run_of_assemble (front back : List Command) (command : Command) {created : Created}
    (exist : command.uses.Exist (assemble front))
    (test : (command.run.run (assemble front)).toOption.map (·.1) = some created) :
    ∃ q, command.run.run (assemble front) = .ok (created, q) ∧
      q.Develops (assemble (front ++ command :: back)) := by
  cases run : command.run.run (assemble front) with
  | error fault =>
    rw [run] at test
    cases test
  | ok r =>
    rw [run] at test
    cases Option.some.inj test
    refine ⟨r.2, rfl, ?_⟩
    have first : (assemble front).after command = r.2 := by
      rw [Program.after, if_pos exist, run]
    rw [assemble, List.foldl_append, List.foldl_cons, ← assemble, first]
    suffices ∀ q', r.2.Develops q' → r.2.Develops (back.foldl Program.after q') from this _ .refl
    induction back with
    | nil => exact fun _ h => h
    | cons command back ih => exact fun _ h => ih _ (h.after command)

end Program

end ObjectInit
