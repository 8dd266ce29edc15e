import ObjectInit.Proofs.Cycles
import ObjectInit.Proofs.Nesting
import ObjectInit.Proofs.Overriding

/-!
# Members of one name

The search for the member that a symbol stands for goes by name, over the declarations of the base
classes in their order. A declared member that is not deferred is met on the way, so what is found
instead stands before it: in a class that comes earlier, or earlier in the same class, where it does
not override the symbol but is another member of its name.

Main results:

* `Program.virtualTarget_of_split`: the search ends at the symbol itself at the latest.
* `Program.Undisplaced.virtualTarget`: it ends there where no other member takes its place.
* `Program.Assembled.virtualTarget_declared`: what declared members stand for.
* `Program.virtualTarget_overloads`: the second of two methods of one name is never reached.
-/

namespace ObjectInit.Program

variable {p q : Program} {c d e : ClassId} {s t : SymbolId} {front back : List ClassId}
  {before after earlier : List SymbolId}

/-- The member has the name of `s` and takes its place where it is met before `s`. -/
def Replaces (p : Program) (t s : SymbolId) : Prop :=
  (p.symbol t).name = (p.symbol s).name ∧ (p.symbol t).isDeferred = false ∧
    (p.symbol t).isConstructor = false ∧ (p.symbol t).isPrivate = false

instance : Decidable (p.Replaces t s) := inferInstanceAs (Decidable (_ ∧ _ ∧ _ ∧ _))

/-- The member `t` is the member `s` of the base class `d` of `c`, or it can take the place of `s`
    and is met before it: in a base class before `d`, or before `s` in the declarations of `d`. -/
def MetNoLater (p : Program) (c d : ClassId) (s t : SymbolId) : Prop :=
  ∃ front back before after, (p.cls c).linearization = front ++ d :: back ∧ d ∉ front ∧
    (p.cls d).decls = before ++ s :: after ∧ s ∉ before ∧
    (t = s ∨ p.Replaces t s ∧ (t ∈ before ∨ ∃ e ∈ front, t ∈ (p.cls e).decls))

/-! ## The search -/

theorem implements_iff_replaces (ne : t ≠ s) : p.implements s t = true ↔ p.Replaces t s := by
  rw [implements_iff, Replaces]
  tauto

/-- What the search finds among members that stand before the symbol. -/
theorem find_earlier (fresh : s ∉ earlier) :
    ((earlier.find? (p.implements s)).getD s = s ∧ ∀ t ∈ earlier, ¬p.Replaces t s) ∨
      (earlier.find? (p.implements s)).getD s ∈ earlier ∧
        p.Replaces ((earlier.find? (p.implements s)).getD s) s := by
  have other {t : SymbolId} (ht : t ∈ earlier) : t ≠ s := by
    rintro rfl
    exact fresh ht
  cases found : earlier.find? (p.implements s) with
  | none =>
    refine .inl ⟨rfl, fun t ht replaces => ?_⟩
    apply List.find?_eq_none.1 found t ht
    exact (implements_iff_replaces (other ht)).2 replaces
  | some t =>
    have ht := List.mem_of_find?_eq_some found
    have implements := List.find?_some found
    exact .inr ⟨ht, (implements_iff_replaces (other ht)).1 implements⟩

/-- The search passes what stands before the symbol, and ends at the symbol. -/
theorem implementation?_of_split (decls : (p.cls d).decls = before ++ s :: after)
    (concrete : (p.symbol s).isDeferred = false) :
    p.implementation? (front ++ d :: back) s =
      some (((p.members front ++ before).find? (p.implements s)).getD s) := by
  have self : p.implements s s = true := implements_iff.2 ⟨concrete, .inr rfl⟩
  have split : p.members (front ++ d :: back) =
      (p.members front ++ before) ++ s :: (after ++ p.members back) := by
    simp [members, decls]
  rw [implementation?_eq_find?, split, List.find?_append, List.find?_cons_of_pos self]
  cases (p.members front ++ before).find? (p.implements s) <;> rfl

theorem virtualTarget_of_split (bases : (p.cls c).linearization = front ++ d :: back)
    (decls : (p.cls d).decls = before ++ s :: after)
    (concrete : (p.symbol s).isDeferred = false)
    (dispatched : ((p.symbol s).isPrivate || (p.symbol s).isConstructor ||
      (p.symbol s).isLocal) = false) :
    p.virtualTarget c s = ((p.members front ++ before).find? (p.implements s)).getD s := by
  unfold virtualTarget
  simp only [dispatched, if_neg Bool.false_ne_true, bases]
  rw [implementation?_of_split decls concrete, Option.getD_some]

/-- In instances of the class `c`, no member takes the place of the member `s` of its base class
    `d`: none that can is declared in a base class before `d`, or before `s` in `d`. -/
def Undisplaced (p : Program) (c d : ClassId) (s : SymbolId) : Prop :=
  ∃ front back before after, (p.cls c).linearization = front ++ d :: back ∧
    (p.cls d).decls = before ++ s :: after ∧ (∀ t ∈ before, ¬p.Replaces t s) ∧
      ∀ e ∈ front, ∀ t ∈ (p.cls e).decls, ¬p.Replaces t s

/-- A member that is not displaced stands for itself. -/
theorem Undisplaced.virtualTarget (h : p.Undisplaced c d s)
    (concrete : (p.symbol s).isDeferred = false) : p.virtualTarget c s = s := by
  obtain ⟨front, back, before, after, bases, decls, declared, inherited⟩ := h
  by_cases fixed : ((p.symbol s).isPrivate || (p.symbol s).isConstructor ||
      (p.symbol s).isLocal) = true
  · exact if_pos fixed
  rw [virtualTarget_of_split bases decls concrete (eq_false_of_ne_true fixed)]
  cases found : (p.members front ++ before).find? (p.implements s) with
  | none => rfl
  | some t =>
    rw [Option.getD_some]
    by_contra other
    have replaces := (implements_iff_replaces other).1 (List.find?_some found)
    rcases List.mem_append.1 (List.mem_of_find?_eq_some found) with mem | mem
    · obtain ⟨e, he, decl⟩ := List.mem_flatMap.1 mem
      exact inherited e he t decl replaces
    · exact declared t mem replaces

/-! ## Completed programs -/

/-- The bases of a class start with the class, whatever its parents are. -/
theorem Built.head?_linearization (built : q.Built) (lt : c.index < q.classes.size) :
    (q.finish.cls c).linearization.head? = some c := by
  have exist (c d : ClassId) (hd : d ∈ (q.finish.cls c).parents) : d.index < q.classes.size :=
    built.coherent.parents_lt_finish hd
  obtain ⟨-, done, -, sound, entries⟩ := Linearization.visits_all q.classes.size exist
  have same : (fun c => (q.finish.cls c).parents) =
      fun c => (q.withSuperClasses.cls c).parents := funext q.parents_finish
  apply sound.head c
  rw [entries c lt, cls_finish lt, computedBases, same]

theorem index_lt_of_decl (h : s ∈ (p.cls c).decls) : c.index < p.classes.size := by
  by_contra outside
  rw [cls_eq_default outside] at h
  cases h

theorem Grounded.isLocal_of_decl (h : p.Grounded) (decl : s ∈ (p.cls c).decls) :
    (p.symbol s).isLocal = false := by
  rw [Symbol.isLocal, ((h.decls c).2 s decl).2]

/-- No class lists a declaration twice. -/
theorem Grounded.not_mem_before (h : p.Grounded) (decls : (p.cls c).decls = before ++ s :: after) :
    s ∉ before := by
  have nodup := (h.decls c).1
  rw [decls, List.nodup_append] at nodup
  exact fun mem => nodup.2.2 s mem s List.mem_cons_self rfl

/-- A declaration belongs to one class only. -/
theorem Grounded.not_mem_members (h : p.Grounded) (decl : s ∈ (p.cls d).decls)
    (other : d ∉ front) : s ∉ p.members front := by
  intro mem
  obtain ⟨e, he, decl'⟩ := List.mem_flatMap.1 mem
  have owner := ((h.decls d).2 s decl).2
  rw [((h.decls e).2 s decl').2] at owner
  cases owner
  exact other he

/-- In instances of its class, a declared member stands for itself or for what is declared before
    it. -/
theorem Assembled.virtualTarget_own (assembled : q.Assembled)
    (decls : (q.finish.cls c).decls = before ++ s :: after)
    (concrete : (q.finish.symbol s).isDeferred = false)
    (noPrivate : (q.finish.symbol s).isPrivate = false)
    (noConstructor : (q.finish.symbol s).isConstructor = false) :
    (q.finish.virtualTarget c s = s ∧ ∀ t ∈ before, ¬q.finish.Replaces t s) ∨
      q.finish.virtualTarget c s ∈ before ∧
        q.finish.Replaces (q.finish.virtualTarget c s) s := by
  have grounded := assembled.grounded.finish assembled.built.coherent
  have decl : s ∈ (q.finish.cls c).decls := by simp [decls]
  have lt : c.index < q.classes.size := size_finish q ▸ index_lt_of_decl decl
  obtain ⟨back, bases⟩ := List.head?_eq_some_iff.1 (assembled.built.head?_linearization lt)
  have first : (q.finish.cls c).linearization = [] ++ c :: back := bases
  have dispatched : ((q.finish.symbol s).isPrivate || (q.finish.symbol s).isConstructor ||
      (q.finish.symbol s).isLocal) = false := by
    rw [noPrivate, noConstructor, grounded.isLocal_of_decl decl]
    rfl
  rw [virtualTarget_of_split first decls concrete dispatched]
  exact find_earlier (grounded.not_mem_before decls)

/-- In instances of a class, a member of a base class stands for itself or for what is declared
    before it, in an earlier base class or in its own. -/
theorem Assembled.virtualTarget_inherited (assembled : q.Assembled)
    (base : d ∈ (q.finish.cls c).linearization) (decl : s ∈ (q.finish.cls d).decls)
    (concrete : (q.finish.symbol s).isDeferred = false) :
    q.finish.MetNoLater c d s (q.finish.virtualTarget c s) := by
  have grounded := assembled.grounded.finish assembled.built.coherent
  obtain ⟨front, back, bases, other⟩ := List.eq_append_cons_of_mem base
  obtain ⟨before, after, decls, fresh⟩ := List.eq_append_cons_of_mem decl
  refine ⟨front, back, before, after, bases, other, decls, fresh, ?_⟩
  by_cases fixed : ((q.finish.symbol s).isPrivate || (q.finish.symbol s).isConstructor ||
      (q.finish.symbol s).isLocal) = true
  · exact .inl (if_pos fixed)
  rw [virtualTarget_of_split bases decls concrete (eq_false_of_ne_true fixed)]
  have fresh' : s ∉ q.finish.members front ++ before := by
    rw [List.mem_append, not_or]
    exact ⟨grounded.not_mem_members decl other, fresh⟩
  rcases find_earlier fresh' with ⟨same, -⟩ | ⟨mem, replaces⟩
  · exact .inl same
  · refine .inr ⟨replaces, ?_⟩
    rcases List.mem_append.1 mem with inherited | declared
    · exact .inr (List.mem_flatMap.1 inherited)
    · exact .inl declared

/-- What a declared member stands for. In instances of its class this is the member itself, exactly
    if no other member of its name that can take its place is declared before it there; otherwise it
    is such a member. In instances of a class that inherits it, it may also be a member of its name
    from a class that comes before. -/
theorem Assembled.virtualTarget_declared (assembled : q.Assembled) :
    (∀ c s before after, (q.finish.cls c).decls = before ++ s :: after →
      (q.finish.symbol s).isDeferred = false → (q.finish.symbol s).isPrivate = false →
      (q.finish.symbol s).isConstructor = false →
      (q.finish.virtualTarget c s = s ∨
        q.finish.virtualTarget c s ∈ before ∧
          q.finish.Replaces (q.finish.virtualTarget c s) s) ∧
      (q.finish.virtualTarget c s = s ↔ ∀ t ∈ before, ¬q.finish.Replaces t s)) ∧
    ∀ c d s, d ∈ (q.finish.cls c).linearization → s ∈ (q.finish.cls d).decls →
      (q.finish.symbol s).isDeferred = false →
      q.finish.MetNoLater c d s (q.finish.virtualTarget c s) := by
  refine ⟨?_, fun c d s base decl concrete => assembled.virtualTarget_inherited base decl concrete⟩
  intro c s before after decls concrete noPrivate noConstructor
  rcases assembled.virtualTarget_own decls concrete noPrivate noConstructor with
    ⟨same, none⟩ | ⟨mem, replaces⟩
  · exact ⟨.inl same, fun _ => none, fun _ => same⟩
  · refine ⟨.inr ⟨mem, replaces⟩, fun same => ?_, fun none => absurd replaces (none _ mem)⟩
    have grounded := assembled.grounded.finish assembled.built.coherent
    rw [same] at mem
    exact absurd mem (grounded.not_mem_before decls)

/-- A class `C` with two methods `m`, a class `D` that extends `C`, and a class `E` that extends `D`
    and has a method `m`, too. -/
def overloads : Program := assemble [
  .defineClass "C" .package .none true,
  .defineMethod ⟨4⟩ "m" ["x"] .none,
  .defineMethod ⟨4⟩ "m" ["x", "y"] .none,
  .defineClass "D" .package .none true,
  .extend ⟨5⟩ ⟨.bare, ⟨4⟩⟩ [],
  .defineClass "E" .package .none true,
  .extend ⟨6⟩ ⟨.bare, ⟨5⟩⟩ [],
  .defineMethod ⟨6⟩ "m" ["x"] .none]

/-- The first method of `C` stands for itself in `C` and for the method of `E` in `E`. -/
theorem virtualTarget_declared_overloads :
    overloads.Assembled ∧
      (overloads.finish.cls ⟨4⟩).decls = [⟨14⟩] ++ ⟨15⟩ :: [⟨17⟩] ∧
      overloads.finish.virtualTarget ⟨4⟩ ⟨15⟩ = ⟨15⟩ ∧
      overloads.finish.virtualTarget ⟨6⟩ ⟨15⟩ = ⟨22⟩ ∧
      overloads.finish.MetNoLater ⟨6⟩ ⟨4⟩ ⟨15⟩ (overloads.finish.virtualTarget ⟨6⟩ ⟨15⟩) := by
  have assembled : overloads.Assembled := assembled_assemble _
  have decls : (overloads.finish.cls ⟨4⟩).decls = [⟨14⟩] ++ ⟨15⟩ :: [⟨17⟩] := by decide +kernel
  obtain ⟨own, inherited⟩ := Assembled.virtualTarget_declared assembled
  obtain ⟨-, itself⟩ := own ⟨4⟩ ⟨15⟩ [⟨14⟩] [⟨17⟩] decls (by decide +kernel) (by decide +kernel)
    (by decide +kernel)
  exact ⟨assembled, decls, itself.2 (by decide +kernel), by decide +kernel,
    inherited ⟨6⟩ ⟨4⟩ ⟨15⟩ (by decide +kernel) (by decide +kernel) (by decide +kernel)⟩

/-- The second method of `C` stands for the first one, in instances of `C` and of `D`, although it
    is declared in `C` itself and none of `D`'s bases before `C` declares a method of this name. -/
theorem virtualTarget_overloads :
    overloads.Assembled ∧ ⟨17⟩ ∈ (overloads.finish.cls ⟨4⟩).decls ∧
      (overloads.finish.symbol ⟨17⟩).isDeferred = false ∧
      (overloads.finish.symbol ⟨17⟩).isPrivate = false ∧
      (overloads.finish.symbol ⟨17⟩).isConstructor = false ∧
      overloads.finish.virtualTarget ⟨4⟩ ⟨17⟩ = ⟨15⟩ ∧
      overloads.finish.virtualTarget ⟨4⟩ ⟨17⟩ ≠ ⟨17⟩ ∧
      (overloads.finish.cls ⟨5⟩).linearization = [⟨5⟩, ⟨4⟩, ⟨2⟩, ⟨1⟩] ∧
      overloads.finish.virtualTarget ⟨5⟩ ⟨17⟩ ≠ ⟨17⟩ ∧
      overloads.finish.virtualTarget ⟨5⟩ ⟨17⟩ ∉ (overloads.finish.cls ⟨5⟩).decls :=
  ⟨assembled_assemble _, by decide +kernel, by decide +kernel, by decide +kernel,
    by decide +kernel, by decide +kernel, by decide +kernel, by decide +kernel, by decide +kernel,
    by decide +kernel⟩

end ObjectInit.Program
