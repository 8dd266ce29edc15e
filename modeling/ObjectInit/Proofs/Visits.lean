import ObjectInit.Proofs.Errors
import ObjectInit.Proofs.Uncached

/-!
# Evaluations on the way

`Query.visits` lists the evaluations on the way of a question, by carrying the question out. Whether
expressions have one meaning (`Store.Settled`) can be read off this list.

Main results:

* `Query.Way.visited`: every evaluation on the way is in the list.
* `Store.settled_of_visits`: a test of the lists shows that expressions have one meaning.
* `Query.timely_of_passes`: a test of all questions shows that nothing is looked at too early.
-/

namespace ObjectInit

/-- An evaluation on the way. -/
structure Visit where
  /-- The evaluations in progress. -/
  active : List Cache.Key
  key : Cache.Key
  cls : ClassId
  env : Env
  value : Value
  deriving DecidableEq

/-- The evaluation that the question stands for, with its value. -/
def Query.visit {β : Type} (p : Program) (n : Nat) (active : List Cache.Key) :
    Query β → Store → List Visit
  | .eval e frame final, s =>
    match (answer p n (.eval e frame final)).run s with
    | .ok (o, _) => [⟨active, ⟨frame.receiver, e⟩, frame.cls, s.env, o.value⟩]
    | .error _ => []
  | _, _ => []

/-- What is visited when a plan is carried out, given what each question visits. -/
def Plan.visits {ε : Type} (p : Program) (n : Nat)
    (visits : {β : Type} → Query β → Store → List ε) : {α : Type} → Plan α → Store → List ε
  | _, .pure _, _ => []
  | _, .ask q next, s =>
    visits q s ++
      match (answer p n q).run s with
      | .ok (b, t) => Plan.visits p n visits (next b) t
      | .error _ => []
  | _, .perform effect next, s =>
    match effect.run.run s with
    | .ok (b, t) => Plan.visits p n visits (next b) t
    | .error _ => []
  | _, .within scope part next, s =>
    Plan.visits p n visits part (scope.enter s) ++
      match (part.run fun q => answer p n q).run (scope.enter s) with
      | .ok (b, t) => Plan.visits p n visits (next b) (scope.leave s.toContext b t)
      | .error _ => []

/-- The evaluations on the way of a question, whose questions are nested up to the given depth. -/
def Query.visits (p : Program) : {β : Type} → Nat → List Cache.Key → Query β → Store → List Visit
  | _, 0, _, _, _ => []
  | _, n + 1, active, q, s =>
    q.visit p (n + 1) active s ++
      (q.plan p).visits p n (fun r t => Query.visits p n (q.evaluation ++ active) r t) s

variable {p : Program} {n : Nat} {α β γ : Type} {s s' t : Store}

/-- A plan that ends visits what its questions visit. -/
theorem Plan.Asks.visits {ε : Type} {visits : {β : Type} → Query β → Store → List ε} {x : Plan α}
    {a : α} {q : Query γ} (hasks : x.Asks p s q t) (h : x.Ends p n s a s') :
    (∃ c t', q.Ends p n t c t') ∧ visits q t ⊆ x.visits p n visits s := by
  induction hasks generalizing s' with
  | here =>
    obtain ⟨b, t, hb, -⟩ := Plan.ends_ask_next.1 h
    refine ⟨⟨b, t, hb⟩, ?_⟩
    rw [Plan.visits]
    exact List.subset_append_left _ _
  | afterAsk hq _ ih =>
    obtain ⟨b, t, hb, h⟩ := Plan.ends_ask_next.1 h
    obtain ⟨rfl, rfl⟩ := Query.Answered.unique ⟨_, hq⟩ ⟨_, hb⟩
    obtain ⟨answered, sub⟩ := ih h
    refine ⟨answered, List.Subset.trans sub ?_⟩
    rw [Query.Ends] at hb
    simp only [Plan.visits, hb]
    exact List.subset_append_right _ _
  | afterEffect heffect _ ih =>
    obtain ⟨b, t, hb, h⟩ := Plan.ends_perform_next.1 h
    cases heffect.symm.trans hb
    obtain ⟨answered, sub⟩ := ih h
    refine ⟨answered, List.Subset.trans sub ?_⟩
    simp only [Plan.visits, hb]
    exact List.Subset.refl _
  | inside _ ih =>
    obtain ⟨b, t, hpart, -⟩ := Plan.ends_within.1 h
    obtain ⟨answered, sub⟩ := ih hpart
    refine ⟨answered, List.Subset.trans sub ?_⟩
    rw [Plan.visits]
    exact List.subset_append_left _ _
  | afterScope hpart _ ih =>
    obtain ⟨b, t, hpart', h⟩ := Plan.ends_within.1 h
    obtain ⟨rfl, rfl⟩ := hpart.unique hpart'
    obtain ⟨answered, sub⟩ := ih h
    refine ⟨answered, List.Subset.trans sub ?_⟩
    rw [Plan.Ends] at hpart'
    simp only [Plan.visits, hpart']
    exact List.subset_append_right _ _

/-- What a question on the way visits is visited. -/
theorem Query.Way.visits {q : Query β} {active : List Cache.Key} {r : Query γ} {b : β}
    (way : q.Way p s active r t) (h : q.Ends p n s b s') :
    ∃ m c t', r.Ends p m t c t' ∧ r.visits p m active t ⊆ q.visits p n [] s := by
  induction way with
  | start => exact ⟨n, b, s', h, List.Subset.refl _⟩
  | asked _ hasks ih =>
    obtain ⟨m, c, u, hc, sub⟩ := ih
    cases m with
    | zero => exact absurd hc Query.ends_zero
    | succ m =>
      obtain ⟨⟨d, v, hd⟩, sub'⟩ := hasks.visits (Query.ends_succ.1 hc)
      exact ⟨m, d, v, hd, fun _ he => sub (List.subset_append_right _ _ (sub' he))⟩

/-- Every evaluation on the way is visited. -/
theorem Query.Way.visited {q : Query β} {active : List Cache.Key} {e : ExprId} {frame : Frame}
    {final : Bool} {b : β} (way : q.Way p s active (.eval e frame final) t)
    (h : q.Ends p n s b s') :
    ∃ o t', (Query.eval e frame final).Answered p t o t' ∧
      ⟨active, ⟨frame.receiver, e⟩, frame.cls, t.env, o.value⟩ ∈ q.visits p n [] s := by
  obtain ⟨m, o, t', ho, sub⟩ := way.visits h
  refine ⟨o, t', ⟨m, ho⟩, sub ?_⟩
  cases m with
  | zero => exact absurd ho Query.ends_zero
  | succ m =>
    refine List.mem_append_left _ ?_
    rw [Query.Ends] at ho
    simp only [Query.visit, ho]
    exact List.mem_singleton.2 rfl

/-! ## Tests of all questions -/

/-- The test is passed by all questions on the way, which are nested up to the given depth. -/
def Query.passes (p : Program) (test : {β : Type} → Query β → Store → Bool) :
    {β : Type} → Nat → Query β → Store → Bool
  | _, 0, _, _ => false
  | _, n + 1, q, s =>
    test q s && ((q.plan p).visits p n (fun r t => [Query.passes p test n r t]) s).all id

/-- A question on the way passes a test that all questions pass. -/
theorem Query.Way.passes {test : {β : Type} → Query β → Store → Bool} {q : Query β}
    {active : List Cache.Key} {r : Query γ} {b : β} (way : q.Way p s active r t)
    (h : q.Ends p n s b s') (passed : q.passes p test n s) : test r t := by
  suffices ∃ m c t', r.Ends p m t c t' ∧ r.passes p test m t by
    obtain ⟨m, c, t', hc, passed⟩ := this
    cases m with
    | zero => exact absurd hc Query.ends_zero
    | succ m => exact (Bool.and_eq_true_iff.1 passed).1
  induction way with
  | start => exact ⟨n, b, s', h, passed⟩
  | @asked _ γ δ r r' t u _ hasks ih =>
    obtain ⟨m, c, x, hc, passed⟩ := ih
    cases m with
    | zero => exact absurd hc Query.ends_zero
    | succ m =>
      have all := List.all_eq_true.1 (Bool.and_eq_true_iff.1 passed).2
      obtain ⟨⟨d, x, hd⟩, sub⟩ := @Plan.Asks.visits p m _ _ _ _ _ Bool
        (fun r t => [Query.passes p test m r t]) _ _ _ hasks (Query.ends_succ.1 hc)
      exact ⟨m, d, x, hd, all _ (sub List.mem_cons_self)⟩

/-! ## Expressions with one meaning -/

/-- Each expression is visited with hot values only, or in one class and one environment and never
    while it is in progress. -/
def Visit.Settle (visits : List Visit) : Prop :=
  ∀ v ∈ visits,
    (∀ v' ∈ visits, v'.key = v.key → v'.value = .hot) ∨
      ∀ v' ∈ visits, v'.key = v.key → v'.cls = v.cls ∧ v'.env = v.env ∧ v'.key ∉ v'.active

instance (visits : List Visit) : Decidable (Visit.Settle visits) :=
  inferInstanceAs (Decidable (∀ v ∈ visits, _ ∨ _))

variable {s₀ : Store} {starts : List (Query Outcome × Store)}

/-- The visits on the way of all starting points. -/
def Visit.ofStarts (p : Program) (n : Nat) (starts : List (Query Outcome × Store)) : List Visit :=
  starts.flatMap fun r => r.1.visits p n [] r.2

/-- A test of the visits shows that expressions have one meaning. -/
theorem Store.settled_of_visits (answered : ∀ r ∈ starts, ∃ o t, r.1.Ends p n r.2 o t)
    (h : Visit.Settle (Visit.ofStarts p n starts)) : s₀.Settled p starts := by
  have visited {key : Cache.Key} {active : List Cache.Key} {c : ClassId} {final : Bool} {t : Store}
      (way : Query.OnWay p starts active (.eval key.expr ⟨key.receiver, c⟩ final) t) :
      ∃ o t', (Query.eval key.expr ⟨key.receiver, c⟩ final).Answered p t o t' ∧
        ⟨active, key, c, t.env, o.value⟩ ∈ Visit.ofStarts p n starts := by
    obtain ⟨r, hr, hway⟩ := way
    obtain ⟨o, u, ho⟩ := answered r hr
    obtain ⟨o', t', ho', mem⟩ := hway.visited ho
    exact ⟨o', t', ho', List.mem_flatMap.2 ⟨r, hr, mem⟩⟩
  intro key _
  by_cases seen : ∃ v ∈ Visit.ofStarts p n starts, v.key = key
  · obtain ⟨v, hv, rfl⟩ := seen
    rcases h v hv with hot | same
    · refine .inl fun active c final t o t' way ho => ?_
      obtain ⟨o', u, ho', mem⟩ := visited way
      rw [(ho.unique ho').1]
      exact hot _ mem rfl
    · refine .inr ⟨v.cls, v.env, fun active c final t way => ?_⟩
      obtain ⟨o, u, -, mem⟩ := visited way
      exact same _ mem rfl
  · refine .inl fun active c final t o t' way ho => ?_
    obtain ⟨o', u, -, mem⟩ := visited way
    exact absurd ⟨_, mem, rfl⟩ seen

/-! ## Heaps that do not get in the way -/

/-- All entries of the first map are in the second one. -/
def submap {κ : Type} [Ord κ] [Std.TransOrd κ] (m m' : Std.ExtTreeMap κ Value) : Bool :=
  m.keys.all fun k => m'[k]? = m[k]?

theorem getElem?_of_submap {κ : Type} [Ord κ] [Std.TransOrd κ] [Std.LawfulEqOrd κ]
    {m m' : Std.ExtTreeMap κ Value} (within : submap m m') {k : κ} {x : Value}
    (h : m[k]? = some x) : m'[k]? = some x := by
  have mem : k ∈ m.keys := by
    rw [Std.ExtTreeMap.mem_keys, Std.ExtTreeMap.mem_iff_isSome_getElem?, h]
    rfl
  exact (of_decide_eq_true (List.all_eq_true.1 within k mem)).trans h

/-- The first object is there with all its values. -/
def Object.isWithin (o o' : Object) : Bool :=
  o'.cls = o.cls && submap o.fields o'.fields && submap o.outers o'.outers

/-- All that is in the first heap is in the second one. -/
def Heap.isWithin (h h' : Heap) : Bool :=
  (h.objects.keys.all fun a =>
    (h.read a).all fun o => (h'.read a).any fun o' => o.isWithin o') &&
      h.creations.toList.isPrefixOf h'.creations.toList

theorem Heap.extends_of_isWithin {h h' : Heap} (within : h.isWithin h') : h.Extends h' := by
  obtain ⟨objects, creations⟩ := Bool.and_eq_true_iff.1 within
  constructor
  · intro a o ho
    have mem : a ∈ h.objects.keys := by
      rw [Std.ExtTreeMap.mem_keys, Std.ExtTreeMap.mem_iff_isSome_getElem?]
      exact Option.isSome_of_eq_some ho
    have found := List.all_eq_true.1 objects a mem
    rw [ho, Option.all_some] at found
    obtain ⟨o', ho', inside⟩ := (Option.any_eq_true _ _).1 found
    simp only [Object.isWithin, Bool.and_eq_true, decide_eq_true_eq] at inside
    exact ⟨o', ho', inside.1.1, fun f x => getElem?_of_submap inside.1.2,
      fun c x => getElem?_of_submap inside.2⟩
  · intro w creation known
    have numbered : h.creations.toList[w.index]? = some creation := by
      rwa [Numbering.getElem?_toList]
    obtain ⟨rest, same⟩ := List.isPrefixOf_iff_prefix.1 creations
    rw [creation?, ← Numbering.getElem?_toList, ← same]
    exact List.getElem?_append_left (List.getElem?_eq_some_iff.1 numbered).1 ▸ numbered

instance (p : Program) (h h' : Heap) {β : Type} : (q : Query β) → Decidable (q.FindsSame p h h')
  | .select (.ref _) .. | .call (.ref _) .. => inferInstanceAs (Decidable (_ → _ = _))
  | .enclosingInstance _ (.ref _) .. => inferInstanceAs (Decidable (_ → _ → _ = _))
  | .select .hot .. | .select .cold .. | .select (.closure ..) .. | .select (.oneOf _) ..
  | .call .hot .. | .call .cold .. | .call (.closure ..) .. | .call (.oneOf _) ..
  | .enclosingInstance _ .hot .. | .enclosingInstance _ .cold ..
  | .enclosingInstance _ (.closure ..) .. | .enclosingInstance _ (.oneOf _) ..
  | .eval .. | .construct .. | .create .. | .template .. | .body .. | .promote ..
  | .isPromotable _ | .outerInstance .. | .check _ => inferInstanceAs (Decidable True)

/-- A test of all questions on the way shows that nothing is looked at too early. -/
theorem Query.timely_of_passes {H : Heap} (answered : ∀ r ∈ starts, ∃ o t, r.1.Ends p n r.2 o t)
    (h : starts.all fun r => r.1.passes p (fun q t => q.FindsSame p t.heap H) n r.2) :
    Query.Timely p H starts := by
  rintro γ active q t ⟨r, hr, way⟩
  obtain ⟨o, u, ho⟩ := answered r hr
  exact of_decide_eq_true (way.passes ho (List.all_eq_true.1 h r hr))

end ObjectInit
