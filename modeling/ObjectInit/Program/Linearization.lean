import ObjectInit.Program.Basic

/-!
# Linearization

The linearization of a class lists its base classes, the class itself first. The bases of a later
parent come before those of an earlier one, and of a base that several parents have only the last
occurrence is kept.

Cyclic hierarchies get a linearization too: a class whose own linearization is still being
computed contributes nothing.
-/

namespace ObjectInit

namespace Linearization

/-- Puts the bases of one more parent in front of the bases collected so far. -/
def prepend (bases collected : List ClassId) : List ClassId :=
  (bases.filter fun base => !collected.contains base) ++ collected

/-- The finished linearizations, by the number of their class. -/
abbrev Finished := Array (Option (List ClassId))

/-- Computes the linearization of `c` unless it is finished or among the classes in progress
    (`linearize`). Every call adds a class to those in progress, so `n` has to exceed the number of
    classes. -/
def visit (parents : ClassId → List ClassId) :
    Nat → List ClassId → ClassId → Finished → Finished
  | 0, _, _, done => done
  | n + 1, active, c, done =>
    if (done.getD c.index none).isSome || active.contains c then
      done
    else
      let (collected, done) := (parents c).foldl
        (fun (collected, done) parent =>
          let done := visit parents n (c :: active) parent done
          (prepend ((done.getD parent.index none).getD []) collected, done))
        ([], done)
      done.setIfInBounds c.index (some (c :: collected))

/-- The linearizations of the classes `0, …, count - 1`. -/
def all (count : Nat) (parents : ClassId → List ClassId) : List (List ClassId) :=
  let done := (List.range count).foldl
    (fun done i => visit parents (count + 1) [] ⟨i⟩ done) (Array.replicate count none)
  done.toList.map (·.getD [])

end Linearization

namespace Program

/-- The class needs `Object` as its first parent: it lists no class (or a trait) first, and it is
    neither a package nor one of the classes above `Object`. -/
def lacksSuperClass (p : Program) (c : ClassId) : Bool :=
  c != .object && c != .any && !p.isPackage c &&
    match (p.cls c).superClass with
    | none => true
    | some parent => (p.cls parent).isTrait

/-- Adds `Object` in front of the parents. -/
def withObjectParent (p : Program) (c : ClassDef) : ClassDef :=
  let parent : Parent := ⟨.empty, ⟨.bare, .object⟩, (p.cls .object).primaryConstructor, []⟩
  { c with
    parents := .object :: c.parents
    template := c.template.map fun t => { t with parents := parent :: t.parents } }

/-- The program in which every class has a super class. -/
def withSuperClasses (p : Program) : Program :=
  { p with
    classes := p.classes.mapIdx fun i c =>
      if p.lacksSuperClass ⟨i⟩ then p.withObjectParent c else c }

/-- Completes a program: classes without a super class get `Object`, and the linearization of every
    class is computed. -/
def finish (p : Program) : Program :=
  let p := p.withSuperClasses
  let bases := Linearization.all p.classes.size fun c => (p.cls c).parents
  { p with
    classes := p.classes.mapIdx fun i c => { c with linearization := bases.getD i [] } }

end Program

end ObjectInit
