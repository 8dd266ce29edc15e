import ObjectInit.Proofs.Ways

/-!
# Enclosing instances in later stores

The way from an object to the instances around it goes along the outers that are recorded, and these
stay what they are. Where the way ends without a report, it therefore leads to the same value in
every later store. Otherwise an outer that was missing, which is reported, may be recorded later.

Main results:

* `Plan.EndsQuietly.of_bind`: where nothing is reported, no part reports anything.
* `Query.repeats_enclosingInstance`: an enclosing instance that is found is found again later.
* `Store.Encloses.mono`, `Store.Encloses.unique`: the instance of a class around the code of another
  one.
-/

namespace ObjectInit

variable {p : Program} {n : Nat} {α β γ : Type} {s t u : Store} {a : Addr} {c target : ClassId}
  {v w : Value} {source : Span}

/-! ## Plans that report nothing -/

/-- The heap and the diagnostics are only added to. -/
structure Store.Grows (s t : Store) : Prop where
  heap : s.heap.Extends t.heap
  diagnostics : s.diagnostics <+: t.diagnostics

theorem Store.Grows.advances : Store.Advances Store.Grows where
  refl s := ⟨.refl s.heap, List.prefix_rfl⟩
  trans h h' := ⟨h.heap.trans h'.heap, h.diagnostics.trans h'.diagnostics⟩
  effect h := ⟨Effect.run_extends h, (Store.Restores.of_effect h).diagnostics⟩
  enter scope s := by
    refine ⟨Heap.Extends.advances.enter scope s, ?_⟩
    cases scope <;> exact List.prefix_rfl
  leave scope context b s := by
    refine ⟨Heap.Extends.advances.leave scope context b s, ?_⟩
    cases scope with
    | promotion v =>
      rw [Scope.leave]
      split <;> exact List.prefix_rfl
    | _ => exact List.prefix_rfl

namespace Plan

/-- The plan ends and nothing is reported. -/
def EndsQuietly (p : Program) (n : Nat) (x : Plan α) (s : Store) (a : α) (t : Store) : Prop :=
  x.Ends p n s a t ∧ t.diagnostics = s.diagnostics

/-- Where nothing is reported, neither part of a plan reports something. -/
theorem EndsQuietly.of_bind {x : Plan β} {f : β → Plan α} {a : α}
    (h : (x >>= f).EndsQuietly p n s a t) :
    ∃ b u, x.EndsQuietly p n s b u ∧ (f b).EndsQuietly p n u a t := by
  obtain ⟨h, quiet⟩ := h
  obtain ⟨b, u, hx, hf⟩ := ends_bind.1 h
  have first := (hx.persists Store.Grows.advances.persists).diagnostics
  have second := (hf.persists Store.Grows.advances.persists).diagnostics
  rw [quiet] at second
  have same := second.eq_of_length_le first.length_le
  exact ⟨b, u, ⟨hx, same⟩, hf, quiet.trans same.symm⟩

theorem EndsQuietly.extends {x : Plan α} {a : α} (h : x.EndsQuietly p n s a t) :
    s.heap.Extends t.heap :=
  ends_extends h.1

theorem endsQuietly_pure {a b : α} :
    (Pure.pure a : Plan α).EndsQuietly p n s b t ↔ b = a ∧ t = s := by
  rw [EndsQuietly, ends_pure]
  exact and_iff_left_of_imp fun h => congrArg Store.diagnostics h.2

theorem not_endsQuietly_report {message : String} {f : Unit → Plan α} {a : α} :
    ¬(report message source >>= f).EndsQuietly p n s a t := by
  intro h
  obtain ⟨_, u, ⟨hreport, quiet⟩, -⟩ := h.of_bind
  cases ends_perform.1 hreport
  exact absurd quiet (by simp)

/-- One element of a list. -/
theorem EndsQuietly.of_mem_mapM {f : γ → Plan β} {xs : List γ} {y : γ} (hy : y ∈ xs)
    {bs : List β} (h : (xs.mapM f).EndsQuietly p n s bs t) :
    ∃ b u u', (f y).EndsQuietly p n u b u' ∧ u'.heap.Extends t.heap := by
  induction xs generalizing s bs with
  | nil => cases hy
  | cons x xs ih =>
    rw [List.mapM_cons] at h
    obtain ⟨b, u, hx, h⟩ := h.of_bind
    obtain ⟨bs', u', hxs, h⟩ := h.of_bind
    obtain ⟨rfl, rfl⟩ := endsQuietly_pure.1 h
    rcases List.mem_cons.1 hy with rfl | hy
    · exact ⟨b, s, u, hx, hxs.extends⟩
    · exact ih hy hxs

end Plan

/-! ## Enclosing instances -/

namespace Plan

/-- Unless it reports something, the first plan changes nothing, and the second one has the same
    answer in every later store, where it changes nothing either. -/
def Repeats (p : Program) (n : Nat) (x x' : Plan α) : Prop :=
  ∀ s a t, x.EndsQuietly p n s a t → t = s ∧ ∀ u, s.heap.Extends u.heap → x'.Ends p n u a u

namespace Repeats

theorem pure (a : α) : Repeats p n (Pure.pure a) (Pure.pure a) := by
  intro s b t h
  obtain ⟨rfl, rfl⟩ := endsQuietly_pure.1 h
  exact ⟨rfl, fun u _ => ends_pure.2 ⟨rfl, rfl⟩⟩

theorem bind {x x' : Plan β} {f f' : β → Plan α} (hx : Repeats p n x x')
    (hf : ∀ b, Repeats p n (f b) (f' b)) : Repeats p n (x >>= f) (x' >>= f') := by
  intro s a t h
  obtain ⟨b, u, hb, ha⟩ := h.of_bind
  obtain ⟨rfl, again⟩ := hx s b u hb
  obtain ⟨rfl, again'⟩ := hf b u a t ha
  exact ⟨rfl, fun u ext => ends_bind.2 ⟨b, u, again u ext, again' u ext⟩⟩

theorem mapM {f f' : γ → Plan β} (hf : ∀ x, Repeats p n (f x) (f' x)) (xs : List γ) :
    Repeats p n (xs.mapM f) (xs.mapM f') := by
  induction xs with
  | nil => exact .pure []
  | cons x xs ih =>
    rw [List.mapM_cons, List.mapM_cons]
    exact (hf x).bind fun b => ih.bind fun bs => .pure (b :: bs)

theorem ite {q : Prop} [Decidable q] {x x' y y' : Plan α} (hx : q → Repeats p n x x')
    (hy : ¬q → Repeats p n y y') :
    Repeats p n (if q then x else y) (if q then x' else y') := by
  by_cases h : q
  · rw [if_pos h, if_pos h]
    exact hx h
  · rw [if_neg h, if_neg h]
    exact hy h

end Repeats

/-- The way outwards is the same in every later store, as outers stay what they are. -/
theorem repeats_fromOuter (source source' : Span)
    (ask : ∀ v c, Repeats p n (liftM (Query.enclosingInstance target v c source))
      (liftM (Query.enclosingInstance target v c source'))) (a : Addr) (c : ClassId) :
    Repeats p n (fromOuter p target a c source) (fromOuter p target a c source') := by
  intro s w t h
  simp only [fromOuter, EndsQuietly, ends_look_bind] at h ⊢
  cases outer : s.heap.outer? a c with
  | some o =>
    rw [outer] at h
    obtain ⟨same, again⟩ := ask o (p.classAround c) s w t h
    refine ⟨same, fun u ext => ?_⟩
    rw [ext.outer outer]
    exact again u ext
  | none =>
    rw [outer] at h
    exact absurd h not_endsQuietly_report

theorem repeats_enclosingInstance (source source' : Span)
    (ask : ∀ v c, Repeats p n (liftM (Query.enclosingInstance target v c source))
      (liftM (Query.enclosingInstance target v c source'))) (v : Value) (c : ClassId) :
    Repeats p n (enclosingInstance p target v c source)
      (enclosingInstance p target v c source') := by
  refine .ite (fun _ => .pure v) fun _ => .ite (fun _ => .pure _) fun _ => ?_
  cases v with
  | hot | cold => exact .pure _
  | ref a => exact repeats_fromOuter source source' ask a c
  | oneOf vs => exact (Repeats.mapM (fun v => ask v c) vs).bind fun _ => .pure _
  | closure => exact fun s w t h => absurd h not_endsQuietly_report

end Plan

/-- An enclosing instance that is found without a report is found again in every later store. -/
theorem Query.repeats_enclosingInstance (n : Nat) (target : ClassId) (v : Value) (c : ClassId)
    (source source' : Span) :
    Plan.Repeats p n (liftM (Query.enclosingInstance target v c source))
      (liftM (Query.enclosingInstance target v c source')) := by
  induction n generalizing v c with
  | zero => exact fun s w t h => absurd (Plan.ends_ask.1 h.1) Query.ends_zero
  | succ n ih =>
    intro s w t h
    rw [Plan.EndsQuietly, Plan.ends_ask, Query.ends_succ] at h
    obtain ⟨same, again⟩ := Plan.repeats_enclosingInstance source source' ih v c s w t h
    exact ⟨same, fun u ext => Plan.ends_ask.2 (Query.ends_succ.2 (again u ext))⟩

/-! ## The instance around the code of a class -/

/-- In the code of the class on the object, the instance of `target` is found without a report. -/
def Store.Encloses (p : Program) (s : Store) (a : Addr) (c target : ClassId) (w : Value) : Prop :=
  (Query.enclosingInstance target (.ref a) c .empty).Answered p s w s

namespace Store.Encloses

theorem of_ends (h : Plan.EndsQuietly p n
    (liftM (Query.enclosingInstance target (.ref a) c source)) s w t) :
    t.Encloses p a c target w := by
  obtain ⟨rfl, again⟩ := Query.repeats_enclosingInstance n target _ c source .empty s w t h
  exact ⟨n, Plan.ends_ask.1 (again _ (.refl _))⟩

theorem mono (h : s.Encloses p a c target w) (ext : s.heap.Extends t.heap) :
    t.Encloses p a c target w := by
  obtain ⟨n, h⟩ := h
  obtain ⟨-, again⟩ :=
    Query.repeats_enclosingInstance n target _ c .empty .empty s w s ⟨Plan.ends_ask.2 h, rfl⟩
  exact ⟨n, Plan.ends_ask.1 (again t ext)⟩

theorem unique (h : s.Encloses p a c target v) (h' : s.Encloses p a c target w) : v = w :=
  (Query.Answered.unique h h').1

/-- The instance of the class around the code is the one that is recorded on the object. -/
theorem outer (h : s.Encloses p a c (p.classAround c) w) (proper : p.classAround c ≠ c)
    (noPackage : p.isPackage (p.classAround c) = false) : s.heap.outer? a c = some w := by
  obtain ⟨n, h⟩ := h
  cases n with
  | zero => exact absurd h Query.ends_zero
  | succ n =>
    rw [Query.ends_succ, Query.plan] at h
    unfold Plan.enclosingInstance at h
    rw [if_neg proper, noPackage, if_neg Bool.false_ne_true] at h
    simp only [Plan.fromOuter, Plan.ends_look_bind] at h
    cases recorded : s.heap.outer? a c with
    | none =>
      rw [recorded] at h
      exact absurd ⟨h, rfl⟩ Plan.not_endsQuietly_report
    | some o =>
      rw [recorded] at h
      cases n with
      | zero => exact absurd (Plan.ends_ask.1 h) Query.ends_zero
      | succ n =>
        rw [Plan.ends_ask, Query.ends_succ, Query.plan] at h
        unfold Plan.enclosingInstance at h
        rw [if_pos rfl, Plan.ends_pure] at h
        rw [h.1]

end Store.Encloses

end ObjectInit
