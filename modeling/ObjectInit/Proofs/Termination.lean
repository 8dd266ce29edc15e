import Mathlib.Data.Prod.Lex
import Mathlib.Order.Lattice.Nat
import ObjectInit.Proofs.Bounds

/-!
# The analysis comes to an end

Methods, closures, warm objects and promotions may lead back to themselves without end, but the
questions that they lead to do not. On the way to an answer, a question is followed by such with
less room in the cache, or with fewer values that could still be promoted, or of a smaller kind, or
about a part of its value (`Query.extent`).

Main results:

* `Query.Part.size_lt`: a part is smaller than the whole.
* `Query.halts_of_check`: the check of a class comes to an end.
-/

namespace ObjectInit

open Regime

variable {p : Program} {c : ClassId} {s t : Store} {β γ : Type}

/-! ## Values that could be promoted -/

/-- The objects and the closures that are kept and not trusted yet. -/
def Store.untried (p : Program) (c : ClassId) (s : Store) : Nat :=
  ((p.addrs c).map Value.ref ++ s.memory.kept p c).countP fun v => !s.trusted.contains v

theorem Regime.Step.not_trusted {R : Regime p} (step : R.Step s t) {v : Value}
    (h : !t.trusted.contains v) : !s.trusted.contains v := by
  rw [Bool.not_eq_true'] at h ⊢
  by_contra trusted
  rw [step.trusted v (by simpa using trusted)] at h
  cases h

theorem Regime.Step.untried_le {R : Regime p} (step : R.Step s t)
    (room : s.memory.room p c ≤ t.memory.room p c) : t.untried p c ≤ s.untried p c := by
  rw [Store.untried, Store.untried, step.memory.kept_eq room]
  exact List.countP_mono_left fun v _ hv => step.not_trusted hv

/-- A value that came to be trusted is tried no more. -/
theorem Regime.Step.untried_lt {R : Regime p} (step : R.Step s t)
    (room : s.memory.room p c ≤ t.memory.room p c) {v : Value}
    (hv : v ∈ (p.addrs c).map Value.ref ++ s.memory.kept p c) (before : ¬s.trusted.contains v)
    (after : t.trusted.contains v) : t.untried p c < s.untried p c := by
  rw [Store.untried, Store.untried, step.memory.kept_eq room]
  exact countP_lt_of_mem (fun u _ hu => step.not_trusted hu) hv (by simpa using after)
    (by simpa using before)

/-! ## The extent of a question -/

/-- How far the objects that a value captured are inside of others. -/
def Value.level (h : Heap) : Value → Nat
  | .closure .. | .oneOf _ => 3
  | .ref (.warm w) => match h.creation? w with
    | some ⟨_, .ref (.warm _), _, _⟩ => 2
    | _ => 1
  | _ => 0

/-- New closures in the value come from expressions below this number. -/
noncomputable def Value.novelty (p : Program) (c : ClassId) (m : Memory) (v : Value) : Nat :=
  sInf {B | (bounded p c).Fits m B v}

/-- How large the value of a question is, for a question of its kind. -/
noncomputable def Query.size (p : Program) (c : ClassId) (m : Memory) : Query β → ℕ ×ₗ ℕ
  | .promote v _ _ => toLex (v.novelty p c m, sizeOf v)
  | .isPromotable v => toLex (v.level m.heap, sizeOf v)
  | .enclosingInstance _ v d _ => toLex (d.index, sizeOf v)
  | .select v _ _ _ | .call v _ _ _ _ | .create v _ _ _ _ => toLex (0, sizeOf v)
  | _ => toLex (0, 0)

/-- How much may still follow from a question. -/
noncomputable def Query.extent (p : Program) (c : ClassId) (q : Query β) (s : Store) :
    ℕ ×ₗ ℕ ×ₗ ℕ ×ₗ ℕ ×ₗ ℕ :=
  toLex (s.memory.room p c, toLex (s.untried p c, toLex (q.kind, q.size p c s.memory)))

namespace Query

variable {q : Query γ} {r : Query β} {R : Regime p}

theorem extent_lt_of_room (h : t.memory.room p c < s.memory.room p c) :
    r.extent p c t < q.extent p c s :=
  Prod.Lex.toLex_lt_toLex.2 (.inl h)

theorem extent_lt (step : R.Step s t)
    (h : s.memory.room p c ≤ t.memory.room p c → t.untried p c < s.untried p c ∨
      toLex (r.kind, r.size p c t.memory) < toLex (q.kind, q.size p c s.memory)) :
    r.extent p c t < q.extent p c s := by
  rcases Nat.lt_or_ge (t.memory.room p c) (s.memory.room p c) with hlt | hge
  · exact extent_lt_of_room hlt
  · refine Prod.Lex.toLex_lt_toLex.2
      (.inr ⟨Nat.le_antisymm step.memory.room_le hge, Prod.Lex.toLex_lt_toLex.2 ?_⟩)
    rcases h hge with h | h
    · exact .inl h
    · exact (Nat.lt_or_eq_of_le (step.untried_le hge)).imp id fun he => ⟨he, h⟩

theorem extent_lt_of_kind (step : R.Step s t) (h : r.kind < q.kind) :
    r.extent p c t < q.extent p c s :=
  extent_lt step fun _ => .inr (Prod.Lex.toLex_lt_toLex.2 (.inl h))

theorem extent_lt_of_size (step : R.Step s t) (kind : r.kind = q.kind)
    (h : r.size p c t.memory < q.size p c s.memory) : r.extent p c t < q.extent p c s :=
  extent_lt step fun _ => .inr (Prod.Lex.toLex_lt_toLex.2 (.inr ⟨kind, h⟩))

end Query

/-! ## Parts -/

theorem Value.sizeOf_lt_oneOf {v : Value} {vs : List Value} (h : v ∈ vs) :
    sizeOf v < sizeOf (Value.oneOf vs) := by
  have := List.sizeOf_lt_of_mem h
  rw [Value.oneOf.sizeOf_spec]
  omega

theorem Value.level_le (h : Heap) (v : Value) : v.level h ≤ 3 := by
  unfold Value.level
  split <;> (try split) <;> decide

theorem Value.level_ref_le (h : Heap) (a : Addr) : (Value.ref a).level h ≤ 2 := by
  cases a with
  | thisOf d => exact Nat.zero_le 2
  | warm w =>
    unfold Value.level
    dsimp only
    split <;> decide

theorem Value.level_warm_pos (h : Heap) (w : Warm) : 0 < (Value.ref (.warm w)).level h := by
  unfold Value.level
  dsimp only
  split <;> decide

/-- What is inside of a warm object is inside of one that is outmost. -/
theorem Heap.Bounded.level_outer_lt {h h' : Heap} (bounded : h.Bounded p c) (ext : h.Extends h')
    {w : Warm} {creation : Creation} (hw : h.creation? w = some creation) :
    creation.outer.level h' < (Value.ref (.warm w)).level h := by
  rcases (bounded w creation hw).2.2 with outer | outer | outer |
    ⟨w', creation', outer, hw', -, outmost⟩
  · rw [outer]
    exact Value.level_warm_pos h w
  · rw [outer]
    exact Value.level_warm_pos h w
  · rw [outer]
    exact Value.level_warm_pos h w
  · obtain ⟨d, _, f, args⟩ := creation
    cases outer
    obtain ⟨d', outer', f', args'⟩ := creation'
    have hlevel : (Value.ref (.warm w)).level h = 2 := by
      simp only [Value.level, hw]
    have hlevel' : (Value.ref (.warm w')).level h' = 1 := by
      simp only [Value.level, ext.creation w' _ hw']
      rcases outmost with rfl | rfl | rfl <;> rfl
    rw [hlevel, hlevel']
    decide

theorem Value.novelty_le {m : Memory} {B : Nat} {v : Value} (h : (bounded p c).Fits m B v) :
    v.novelty p c m ≤ B :=
  Nat.sInf_le h

theorem Value.fits_novelty {m : Memory} {v : Value} (h : ∃ B, (bounded p c).Fits m B v) :
    (bounded p c).Fits m (v.novelty p c m) v :=
  Nat.sInf_mem h

theorem toLex_lt_of_le {a a' b b' : ℕ} (h : a ≤ a') (h' : b < b') :
    toLex (a, b) < toLex (a', b') :=
  Prod.Lex.toLex_lt_toLex.2 ((Nat.lt_or_eq_of_le h).imp id fun he => ⟨he, h'⟩)

/-- A part of a value is smaller than the value. -/
theorem Query.Part.size_lt (around : ∀ d, d ≠ .root → (p.classAround d).index < d.index)
    (lawful : (bounded p c).Lawful) {q : Query γ} {r : Query β} (step : (bounded p c).Step s t)
    (ready : (bounded p c).Ready s) (admits : (bounded p c).Admits s.memory q)
    (part : q.Part p t r) : r.size p c t.memory < q.size p c s.memory := by
  cases part with
  | select h | call h | create h => exact toLex_lt_of_le (Nat.le_refl 0) (Value.sizeOf_lt_oneOf h)
  | @promote vs v h =>
    refine toLex_lt_of_le ?_ (Value.sizeOf_lt_oneOf h)
    have fits :=
      Value.fits_novelty (show ∃ B, (bounded p c).Fits s.memory B (.oneOf vs) from admits)
    exact Value.novelty_le (step.fits lawful (fits.of_oneOf v h))
  | isPromotable h => exact toLex_lt_of_le (Value.level_le _ _) (Value.sizeOf_lt_oneOf h)
  | @outer w creation hw =>
    obtain ⟨B, fits⟩ := admits
    obtain ⟨known, hknown, -⟩ := fits.of_ref
    obtain rfl : known = creation := by
      have := step.memory.heap.creation w known hknown
      rw [Store.memory, hw] at this
      exact (Option.some.inj this).symm
    exact Prod.Lex.toLex_lt_toLex.2
      (.inl (ready.inv.creations.level_outer_lt step.memory.heap hknown))
  | receiver body params frame env =>
    exact Prod.Lex.toLex_lt_toLex.2 (.inl (Nat.lt_succ_of_le (Value.level_ref_le _ _)))
  | enclosing h target d source =>
    exact toLex_lt_of_le (Nat.le_refl _) (Value.sizeOf_lt_oneOf h)
  | @around a d v h =>
    exact Prod.Lex.toLex_lt_toLex.2 (.inl (around d (step.inv.root a d v h)))

theorem Query.Part.kind_eq {q : Query γ} {r : Query β} (part : q.Part p t r) : r.kind = q.kind := by
  cases part <;> rfl

/-! ## Questions on the way -/

namespace Regime

/-- On the way to an answer, questions have less extent. -/
def Smaller (p : Program) (c : ClassId) {γ : Type} (q : Query γ) (s : Store) {β : Type}
    (r : Query β) (t : Store) : Prop :=
  r.extent p c t < q.extent p c s

/-- Inside of an evaluation, there is less room. -/
theorem smaller_inside (ready : (bounded p c).Ready s) {e : ExprId} {frame : Frame} {final : Bool}
    (receiver : (bounded p c).addr s.memory frame.receiver)
    (miss : s.cache.find? frame.receiver e = none) (inTable : e.index < p.exprs.size)
    (entered : (s.memory.enter frame.receiver e).Extends t.memory) {r : Query β} :
    Smaller p c (.eval e frame final) s r t := by
  have ext := (Memory.extends_enter (m := s.memory) miss).trans entered
  refine Query.extent_lt_of_room
    (ext.room_lt (ready.inv.creations.mem_addrs receiver) inTable miss ?_)
  rw [entered.cached frame.receiver e .hot (by rw [Memory.find?_enter, if_pos ⟨rfl, rfl⟩])]
  rfl

/-- While a warm object is tried out, fewer values can still be promoted. -/
theorem smaller_trial {w : Warm} (ready : (bounded p c).Ready s)
    (known : (bounded p c).addr s.memory (.warm w)) (before : ¬s.trusted.contains (.ref (.warm w)))
    (step : (bounded p c).Step s t) (after : t.trusted.contains (.ref (.warm w)))
    {q : Query γ} {r : Query β} : Smaller p c q s r t := by
  refine Query.extent_lt step fun room => .inl (step.untried_lt room ?_ before after)
  exact List.mem_append_left _ (List.mem_map_of_mem (ready.inv.creations.mem_addrs known))

/-- The result of a closure contains only closures that were kept before or that are from smaller
    expressions. -/
theorem smaller_result {body : ExprId} {params : List SymbolId} {frame : Frame} {env : Env}
    (fits : ∃ B, (bounded p c).Fits s.memory B (.closure body params frame env))
    (before : ¬s.trusted.contains (.closure body params frame env))
    (step : (bounded p c).Step s t) (after : t.trusted.contains (.closure body params frame env))
    {u : Value} (hu : (bounded p c).Fits t.memory ((bounded p c).bound body) u)
    {reason reason' : String} {source source' : Span} :
    Smaller p c (.promote (.closure body params frame env) reason source) s
      (.promote u reason' source') t := by
  by_cases kept : Value.closure body params frame env ∈ s.memory.kept p c
  · exact Query.extent_lt step fun room =>
      .inl (step.untried_lt room (List.mem_append_right _ kept) before after)
  · refine Query.extent_lt_of_size step rfl (Prod.Lex.toLex_lt_toLex.2 (.inl ?_))
    have new := Value.fits_novelty fits
    cases new with
    | closure receiver code fresh captured =>
      rcases fresh with fresh | ⟨body', params', frame', env', heq, hlt⟩
      · exact absurd fresh kept
      · cases heq
        exact Nat.lt_of_le_of_lt
          (Nat.le_trans (Value.novelty_le hu) (bound_le_index (p := p) (c := c) body)) hlt

/-! ## Templates -/

variable {q : Program}

/-- Every template may run, as no class inherits from the root package. -/
theorem bounded_builds (coherent : q.Coherent) (noRoot : ∀ d, ¬q.finish.IsParent d .root)
    (noSource : (q.finish.cls .root).hasSource = false) (c d : ClassId) (this : Addr) :
    (bounded q.finish c).Builds d this where
  field m f v h inv _ hv ok := ⟨trivial, inv.setField (fits_bounded.1 hv) ok⟩
  outer m T superClass x v h hT hfirst hx inv _ hv ok := by
    have notRoot : x ≠ .root := by
      rintro rfl
      rcases hx with hx | hx
      · refine noRoot d ?_
        rw [Program.IsParent, ← coherent.parents_of_listed hT, hx]
        exact List.mem_map_of_mem (List.mem_of_head? hfirst)
      · rcases Program.mem_linearization_finish
            (List.mem_of_mem_tail (Program.mem_tail_of_mixin hx)) with rfl | ⟨y, hy⟩
        · rw [ClassDef.hasSource, hT] at noSource
          cases noSource
        · exact noRoot y hy
    exact ⟨trivial, inv.setOuter notRoot (fits_bounded.1 hv) ok⟩
  stat _ _ _ _ _ _ := trivial
  arg _ _ _ _ _ ha := ⟨ha, fun arg _ => ⟨trivial, arg.expr.index + 1, fun _ params env =>
    .inr ⟨arg.expr, params, ⟨this, d⟩, env, rfl, Nat.lt_succ_self _⟩⟩⟩
  path _ _ _ _ _ _ := trivial
  listed _ _ _ _ _ _ _ := trivial
  mixin _ _ _ _ _ _ _ _ _ := trivial

/-! ## The analysis of a class -/

/-- All questions in the analysis of a class lead to smaller ones. -/
theorem building_kept (around : ∀ d, d ≠ .root → (p.classAround d).index < d.index)
    (lawful : (bounded p c).Lawful) (builds : ∀ d this, (bounded p c).Builds d this) :
    ((bounded p c).building fun _ _ => True).Kept p (Smaller p c) := by
  refine lawful.building_kept (fun d this _ => builds d this) (fun q s general ready admits => ?_)
    fun q s r t _ step hr => Query.extent_lt_of_kind step hr
  refine ⟨serves_building (Nat.le_of_lt general) fun r t step hr => Query.extent_lt_of_kind step hr,
    servesParts_building fun r t step part => ?_, ?_⟩
  · exact Query.extent_lt_of_size step part.kind_eq (part.size_lt around lawful step ready admits)
  cases q with
  | eval e frame final =>
    have inside {β : Type} (miss : s.cache.find? frame.receiver e = none)
        (inTable : e.index < p.exprs.size) {t : Store}
        (entered : t.memory = s.memory.enter frame.receiver e) (r : Query β) u
        (h : t.memory.Extends u.memory) : Smaller p c (.eval e frame final) s r u :=
      smaller_inside ready admits.1 miss inTable (entered ▸ h)
    refine ⟨fun miss inTable _ t entered _ _ => serves_building (Nat.le_refl 9) fun r u step _ =>
      inside miss inTable entered r u step.memory, fun d node => ?_⟩
    have inTable : e.index < p.exprs.size := by
      by_contra h
      rw [Program.expr_of_size_le (Nat.le_of_not_lt h)] at node
      cases node
    refine carries_eval_template lawful.governs ready admits node
      fun miss t entered _ ready' => ?_
    have known :=
      lawful.addr_mono _ _ _ (Memory.extends_enter (m := s.memory) miss) trivial admits.1
    rw [← entered] at known
    exact (carries_askTemplate ready' known trivial
      (inside miss inTable entered _ t (.refl _))).imp fun _ _ _ ho => ho.of_zero lawful
  | promote v reason source =>
    refine ⟨?_, ?_⟩
    · rintro w rfl before t step after
      obtain ⟨B, fits⟩ := admits
      exact serves_building (Nat.le_refl 9) fun r u step' _ =>
        smaller_trial ready fits.of_ref before (step.trans lawful step') (step'.trusted _ after)
    · rintro body params frame env rfl before t step ready' after u hu reason' source'
      exact ⟨(building_pre (by simp [Query.kind])).2 ⟨ready', _, hu⟩,
        smaller_result admits before step after hu⟩
  | _ => trivial

end Regime

/-- Nothing is known at the start. -/
theorem Regime.bounds_initial : Bounds p c Store.initial.memory where
  holds := holds_initial
  root a d v hv := by simp [Store.memory, Store.initial, Heap.outer?, Heap.read] at hv
  creations w creation hw := by
    simp [Store.memory, Store.initial, Heap.creation?, Numbering.item?, Numbering.empty] at hw

/-- The check of a class comes to an end, with a result or as the heap refuses a change, whatever
    cycles there are in the program. -/
theorem Query.halts_of_check {q : Program} (assembled : q.Assembled)
    (noRoot : ∀ d, ¬Relation.TransGen q.finish.IsParent d .root) (c : ClassId) :
    (Query.check c).Halts q.finish .initial := by
  have coherent := assembled.built.coherent
  have tables := assembled.scoped
  have noParent (d : ClassId) : ¬q.finish.IsParent d .root := fun h => noRoot d (.single h)
  have root := (tables.classes .root).root rfl
  have noSource : (q.finish.cls .root).hasSource = false := by
    rw [Program.hasSource_finish, ClassDef.hasSource, root.1]
    rfl
  have around (d : ClassId) (hd : d ≠ .root) : (q.finish.classAround d).index < d.index := by
    rw [Program.classAround, Program.owner_finish]
    exact (tables.classes d).around hd
  have lawful : (bounded q.finish c).Lawful := bounded_lawful tables.exprs noSource
  have kept : ((bounded q.finish c).building fun _ _ => True).Kept q.finish (Smaller q.finish c) :=
    building_kept around lawful (bounded_builds coherent noParent noSource c)
  have plan : (Plan.check q.finish c).Obeys q.finish
      (((bounded q.finish c).building fun _ _ => True).only fun _ _ => True) .initial
      fun _ _ => True := by
    refine lawful.obeys_check (fun _ _ _ _ _ => trivial) fun hctor h ok => ?_
    have notRoot : c ≠ .root := by
      rintro rfl
      rw [Program.primaryConstructor_finish, root.2] at hctor
      cases hctor
    exact ⟨bounds_initial.allocate notRoot .hot ok, rfl⟩
  obtain ⟨n, hn⟩ := kept.plan_halts (fun r t pre _ => kept.halts wellFounded_lt
    (fun r t => r.extent q.finish c t) (fun _ _ _ _ _ _ h => h) pre) plan
  exact ⟨n + 1, hn⟩

/-- A class `A` whose constructor calls a method `f`. It calls `g`, and `g` creates another `A`
    inside of the current one and returns a closure that calls `f`. -/
def loops : Program := .assemble [
  .defineClass "A" .package .none true,
  .defineMethod ⟨4⟩ "f" [] .none,
  .defineMethod ⟨4⟩ "g" [] .none,
  .callNamed ⟨16⟩ [],
  .setBody ⟨15⟩ ⟨3⟩,
  .newInstanceWith ⟨.thisOf ⟨4⟩, ⟨4⟩⟩ ⟨14⟩ [],
  .callNamed ⟨15⟩ [],
  .declareFunction (.symbol ⟨16⟩) [],
  .closure ⟨17⟩ ⟨5⟩,
  .ret ⟨6⟩,
  .block [⟨4⟩] ⟨7⟩,
  .setBody ⟨16⟩ ⟨8⟩,
  .appendStat ⟨4⟩ ⟨5⟩]

/-- The check of `A` comes to an end. -/
theorem Query.halts_of_check_loops :
    (∀ d, ¬Relation.TransGen loops.finish.IsParent d .root) ∧
      (Query.check ⟨4⟩).Halts loops.finish .initial := by
  have noRoot : ∀ d, ¬Relation.TransGen loops.finish.IsParent d .root :=
    Program.not_ancestor_of_not_parent (by decide +kernel)
  exact ⟨noRoot, Query.halts_of_check (Program.assembled_assemble _) noRoot ⟨4⟩⟩

end ObjectInit
