import ObjectInit.Program.Dispatch
import ObjectInit.Proofs.Bases
import ObjectInit.Proofs.Scoped

/-!
# Overriding

Calls through `super` are looked up in a tail of the linearization of the receiver's class, other
calls in a whole linearization. Where no class is its own ancestor, the tail that starts at a super
class is the linearization of this class, so both find the same member. And the member that is found
is not overridden any further.

Main results:

* `Program.basesFrom_of_chain`: the tails at super classes.
* `Program.virtualTarget_virtualTarget`: the target of a target, for every program.
* `Program.superTarget_agrees`: both laws, for completed programs without cycles.
-/

namespace ObjectInit

namespace Program

open Relation

variable {p q : Program} {bases : List ClassId} {c base : ClassId} {s t : SymbolId}

/-! ## Tails of a linearization -/

/-- Without cycles, the bases of a class from a super class on are those of the super class. -/
theorem basesFrom_of_chain (acyclic : q.finish.Acyclic)
    (chain : ReflTransGen q.finish.IsSuperClass c base) :
    q.finish.basesFrom c base = (q.finish.cls base).linearization := by
  rw [basesFrom]
  split
  · next contained =>
    have hbase : base.index < q.classes.size :=
      index_lt_of_mem_linearization acyclic (List.contains_iff_mem.1 contained)
    have starts := linearization_finish acyclic hbase
    obtain ⟨front, hfront⟩ := linearization_suffix_of_chain acyclic chain
    have nodup := nodup_linearization acyclic c
    rw [← hfront, List.nodup_append] at nodup
    have other : ∀ d ∈ front, (d != base) = true := fun d hd =>
      bne_iff_ne.2 (nodup.2.2 d hd base (mem_linearization_self acyclic hbase))
    rw [← hfront, List.dropWhile_append_of_pos other, starts,
      List.dropWhile_cons_of_neg (by simp)]
  · rfl

/-! ## The first implementation -/

/-- The declarations of a class, and those it inherits. -/
def members (p : Program) (bases : List ClassId) : List SymbolId :=
  bases.flatMap fun base => (p.cls base).decls

theorem implementation?_eq_find? :
    p.implementation? bases s = (p.members bases).find? (p.implements s) :=
  List.find?_flatMap.symm

/-- An implementation of `s` that is not `s` itself has the name of `s` and can be inherited. -/
theorem implements_iff :
    p.implements s t = true ↔ (p.symbol t).isDeferred = false ∧
      (((p.symbol t).name = (p.symbol s).name ∧ (p.symbol t).isConstructor = false ∧
        (p.symbol t).isPrivate = false) ∨ t = s) := by
  simp only [implements, Bool.or_eq_true, Bool.and_eq_true, Bool.not_eq_true', beq_iff_eq]
  tauto

/-- What implements a found implementation implements the symbol itself, so the search finds the
    same declaration again. -/
theorem implementation?_idem (found : p.implementation? bases s = some t) :
    p.implementation? bases t = some t := by
  rw [implementation?_eq_find?, List.find?_eq_some_iff_append] at found ⊢
  obtain ⟨implements, before, after, split, earlier⟩ := found
  obtain ⟨concrete, inherited⟩ := implements_iff.1 implements
  refine ⟨implements_iff.2 ⟨concrete, .inr rfl⟩, before, after, split, fun x hx => ?_⟩
  have unfit := earlier x hx
  rw [Bool.not_eq_true', Bool.eq_false_iff] at unfit ⊢
  refine fun again => unfit (implements_iff.2 ?_)
  obtain ⟨concrete', same | rfl⟩ := implements_iff.1 again
  · rcases inherited with ⟨name, -⟩ | rfl
    · exact ⟨concrete', .inl ⟨same.1.trans name, same.2⟩⟩
    · exact ⟨concrete', .inl same⟩
  · exact absurd implements unfit

/-- The member that a symbol stands for stands for itself. -/
theorem virtualTarget_virtualTarget (p : Program) (c : ClassId) (s : SymbolId) :
    p.virtualTarget c (p.virtualTarget c s) = p.virtualTarget c s := by
  by_cases own :
      ((p.symbol s).isPrivate || (p.symbol s).isConstructor || (p.symbol s).isLocal) = true
  · have fixed : p.virtualTarget c s = s := if_pos own
    rw [fixed, fixed]
  have search : p.virtualTarget c s = (p.implementation? (p.cls c).linearization s).getD s :=
    if_neg own
  cases found : p.implementation? (p.cls c).linearization s with
  | none =>
    rw [found, Option.getD_none] at search
    rw [search, search]
  | some t =>
    rw [found, Option.getD_some] at search
    rw [search, virtualTarget, implementation?_idem found, Option.getD_some, ite_self]

/-! ## Both kinds of dispatch -/

/-- In a completed program without cycles, a call through `super` that starts at a class `base` on
    the chain of super classes of `c` reaches what a call in an instance of `base` reaches, unless
    the member is private, a constructor or local. What a call in an instance of a class reaches is
    not overridden in this class. -/
theorem superTarget_agrees (acyclic : q.finish.Acyclic) :
    (∀ c base s, ReflTransGen q.finish.IsSuperClass c base →
      (q.finish.symbol s).isPrivate = false → (q.finish.symbol s).isConstructor = false →
      (q.finish.symbol s).isLocal = false →
      q.finish.superTarget c base s = q.finish.virtualTarget base s) ∧
    ∀ c s, q.finish.virtualTarget c (q.finish.virtualTarget c s) = q.finish.virtualTarget c s := by
  refine ⟨fun c base s chain noPrivate noConstructor noLocal => ?_,
    q.finish.virtualTarget_virtualTarget⟩
  rw [superTarget, virtualTarget, basesFrom_of_chain acyclic chain, noPrivate, noConstructor,
    noLocal]
  rfl

/-- A class `A` with a method `m`, a trait `T` with the same method, a class `C` that extends both,
    and a class `D` that extends `C`. -/
def layered : Program := .assemble [
  .defineClass "A" .package .none true,
  .defineMethod ⟨4⟩ "m" [] .none,
  .defineClass "T" .package (.ofList [.trait]) true,
  .defineMethod ⟨5⟩ "m" [] .none,
  .defineClass "C" .package .none true,
  .extend ⟨6⟩ ⟨.bare, ⟨4⟩⟩ [],
  .extend ⟨6⟩ ⟨.bare, ⟨5⟩⟩ [],
  .defineClass "D" .package .none true,
  .extend ⟨7⟩ ⟨.bare, ⟨6⟩⟩ []]

/-- In instances of `D` the method of `T` is reached, through `super` at `C` as well, and that of
    `A` is only reached through `super` at `A`. -/
theorem superTarget_layered :
    layered.finish.superTarget ⟨7⟩ ⟨4⟩ ⟨17⟩ = ⟨15⟩ ∧
      layered.finish.superTarget ⟨7⟩ ⟨4⟩ ⟨17⟩ = layered.finish.virtualTarget ⟨4⟩ ⟨17⟩ ∧
      layered.finish.superTarget ⟨7⟩ ⟨6⟩ ⟨15⟩ = ⟨17⟩ ∧
      layered.finish.superTarget ⟨7⟩ ⟨6⟩ ⟨15⟩ = layered.finish.virtualTarget ⟨6⟩ ⟨15⟩ ∧
      layered.finish.virtualTarget ⟨7⟩ (layered.finish.virtualTarget ⟨7⟩ ⟨15⟩) = ⟨17⟩ := by
  have acyclic : layered.finish.Acyclic :=
    acyclic_of_rank (fun c => [0, 0, 1, 2, 2, 2, 3, 4].getD c.index 0) (by decide +kernel)
  have chain : ReflTransGen layered.finish.IsSuperClass ⟨7⟩ ⟨6⟩ :=
    .single (show _ = _ by decide +kernel)
  have chain' : ReflTransGen layered.finish.IsSuperClass ⟨7⟩ ⟨4⟩ :=
    chain.tail (show _ = _ by decide +kernel)
  obtain ⟨agrees, idem⟩ := superTarget_agrees acyclic
  refine ⟨by decide +kernel, agrees ⟨7⟩ ⟨4⟩ ⟨17⟩ chain' (by decide +kernel) (by decide +kernel)
    (by decide +kernel), by decide +kernel, agrees ⟨7⟩ ⟨6⟩ ⟨15⟩ chain (by decide +kernel)
    (by decide +kernel) (by decide +kernel), ?_⟩
  rw [idem]
  decide +kernel

end Program

end ObjectInit
