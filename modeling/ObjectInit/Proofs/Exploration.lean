import Mathlib.Data.Finset.Card
import Mathlib.Data.Set.Insert
import ObjectInit.Proofs.Kept
import ObjectInit.Proofs.ThisOnly

/-!
# Exploration of code

The evaluation of code that names members of its own instance only is a depth-first search through
the code that it leads to: the cache marks what is in progress or finished, and the heap does not
change. `Explored` is what such a search achieves, relative to the expressions that were visited
before: what is visited anew is closed under the steps of `Program.next`, and exactly the reads of
fields without a value are reported.

Main results:

* `Plan.explores_node`: one step of the search, for each form of expression.
* `Plan.explores_eval`: the evaluation of an expression comes to an end with a hot value, and it
  explores all code that the expression leads to.
-/

namespace ObjectInit

variable {p : Program} {c : ClassId} {h : Heap}

/-! ## What is visited -/

/-- The expression reads a strict field that has no value in the heap. -/
def Program.MissesRead (p : Program) (c : ClassId) (h : Heap) (e : ExprId) (f : SymbolId) : Prop :=
  p.readOf? c e = some f ∧ h.field? (.thisOf c) f = none

/-- The errors are those of the read of the expression itself, if it misses one. -/
structure OwnErrors (p : Program) (c : ClassId) (h : Heap) (e : ExprId) (own : List SafetyError) :
    Prop where
  missed : ∀ f, p.MissesRead c h e f →
    ∃ trace, own = [p.readError f ⟨(p.expr e).span, trace⟩]
  found : (∀ f, ¬ p.MissesRead c h e f) → own = []

/-- The code `ks` was explored. Before, the expressions `V` were visited, and afterwards those of
    `V'`; the errors on the way are `es`. -/
structure Explored (p : Program) (c : ClassId) (h : Heap) (ks : List Code) (V : Set ExprId)
    (es : List SafetyError) (V' : Set ExprId) : Prop where
  grows : V ⊆ V'
  visits : ∀ k ∈ ks, k.expr ∈ V'
  /-- What is visited anew is explored completely. -/
  closed : ∀ k : Code, k.expr ∈ V' → k.expr ∉ V → ∀ k' ∈ p.next c k, k'.expr ∈ V'
  told : ∀ e ∈ V', e ∉ V → ∀ f, p.MissesRead c h e f →
    ∃ trace, p.readError f ⟨(p.expr e).span, trace⟩ ∈ es
  sound : ∀ error ∈ es, ∃ k ∈ ks, ∃ k', p.Reaches c k k' ∧ ∃ f, p.MissesRead c h k'.expr f ∧
    ∃ trace, error = p.readError f ⟨(p.expr k'.expr).span, trace⟩

theorem Explored.nil (V : Set ExprId) : Explored p c h [] V [] V :=
  ⟨fun _ he => he, nofun, fun _ he hne => absurd he hne, fun _ he hne => absurd he hne, nofun⟩

/-- An expression that was visited before is not explored again. -/
theorem Explored.visited {V : Set ExprId} {k : Code} (hk : k.expr ∈ V) :
    Explored p c h [k] V [] V := by
  refine ⟨fun _ he => he, ?_, fun _ he hne => absurd he hne, fun _ he hne => absurd he hne, nofun⟩
  intro k' hk'
  rw [List.mem_singleton.1 hk']
  exact hk

/-- One exploration after the other. -/
theorem Explored.append {ks ks' : List Code} {es es' : List SafetyError} {V V' V'' : Set ExprId}
    (first : Explored p c h ks V es V') (second : Explored p c h ks' V' es' V'') :
    Explored p c h (ks ++ ks') V (es ++ es') V'' := by
  refine ⟨fun _ he => second.grows (first.grows he), fun k hk => ?_, fun k hk hnew k' hk' => ?_,
    fun e he hnew f hf => ?_, fun error herror => ?_⟩
  · rcases List.mem_append.1 hk with hk | hk
    · exact second.grows (first.visits k hk)
    · exact second.visits k hk
  · by_cases hmid : k.expr ∈ V'
    · exact second.grows (first.closed k hmid hnew k' hk')
    · exact second.closed k hk hmid k' hk'
  · by_cases hmid : e ∈ V'
    · obtain ⟨trace, htold⟩ := first.told e hmid hnew f hf
      exact ⟨trace, List.mem_append_left _ htold⟩
    · obtain ⟨trace, htold⟩ := second.told e he hmid f hf
      exact ⟨trace, List.mem_append_right _ htold⟩
  · rcases List.mem_append.1 herror with herror | herror
    · obtain ⟨k, hk, hrest⟩ := first.sound error herror
      exact ⟨k, List.mem_append_left _ hk, hrest⟩
    · obtain ⟨k, hk, hrest⟩ := second.sound error herror
      exact ⟨k, List.mem_append_right _ hk, hrest⟩

/-- Where an expression leads does not depend on the class in whose code it stands. -/
theorem Program.exists_next_of_expr_eq {k l k' : Code} (heq : k.expr = l.expr)
    (hk' : k' ∈ p.next c k) : ∃ l' ∈ p.next c l, l'.expr = k'.expr := by
  rw [next, List.mem_append] at hk'
  rcases hk' with hpart | hbody
  · obtain ⟨e, he, rfl⟩ := List.mem_map.1 hpart
    rw [heq] at he
    exact ⟨⟨e, l.cls⟩, List.mem_append_left _ (List.mem_map.2 ⟨e, he, rfl⟩), rfl⟩
  · rw [heq] at hbody
    exact ⟨k', List.mem_append_right _ hbody, rfl⟩

/-- A new expression is explored if everything is that it leads to. -/
theorem Explored.enter {k : Code} {V V' : Set ExprId} {es own : List SafetyError}
    (inner : Explored p c h (p.next c k) (insert k.expr V) es V')
    (howns : OwnErrors p c h k.expr own) : Explored p c h [k] V (es ++ own) V' := by
  have hk : k.expr ∈ V' := inner.grows (Set.mem_insert _ _)
  refine ⟨fun _ he => inner.grows (Set.mem_insert_of_mem _ he), fun l hl => ?_,
    fun l hl hnew l' hl' => ?_, fun e he hnew f hf => ?_, fun error herror => ?_⟩
  · rw [List.mem_singleton.1 hl]
    exact hk
  · by_cases heq : l.expr = k.expr
    · obtain ⟨k', hk', hexpr⟩ := Program.exists_next_of_expr_eq heq hl'
      rw [← hexpr]
      exact inner.visits k' hk'
    · exact inner.closed l hl (fun hmem => (Set.mem_insert_iff.1 hmem).elim heq hnew) l' hl'
  · by_cases heq : e = k.expr
    · subst heq
      obtain ⟨trace, hown⟩ := howns.missed f hf
      exact ⟨trace, List.mem_append_right _ (hown ▸ List.mem_singleton_self _)⟩
    · obtain ⟨trace, htold⟩ :=
        inner.told e he (fun hmem => (Set.mem_insert_iff.1 hmem).elim heq hnew) f hf
      exact ⟨trace, List.mem_append_left _ htold⟩
  · refine ⟨k, List.mem_singleton_self k, ?_⟩
    rcases List.mem_append.1 herror with herror | herror
    · obtain ⟨k', hk', l, hreach, hrest⟩ := inner.sound error herror
      exact ⟨l, .head hk' hreach, hrest⟩
    · by_cases hmiss : ∃ f, p.MissesRead c h k.expr f
      · obtain ⟨f, hf⟩ := hmiss
        obtain ⟨trace, hown⟩ := howns.missed f hf
        rw [hown, List.mem_singleton] at herror
        exact ⟨k, .refl, f, hf, trace, herror⟩
      · rw [howns.found fun f hf => hmiss ⟨f, hf⟩] at herror
        cases herror

/-! ## Stores during an exploration -/

/-- The expressions of the program that the cache knows nothing about. -/
def Store.unseen (p : Program) (c : ClassId) (s : Store) : Nat :=
  ((Finset.range p.exprs.size).filter fun i =>
    s.cache.find? (.thisOf c) ⟨i⟩ = none).card

/-- While the heap is `h`, the cache has hot values for visited expressions only, apart from the
    templates of the classes `begun`. -/
structure Store.Ready (p : Program) (c : ClassId) (h : Heap) (begun : Set ClassId) (bound : Nat)
    (V : Set ExprId) (s : Store) : Prop where
  heap : s.heap = h
  templates : ∀ e v, s.cache.find? (.thisOf c) e = some v →
    ∀ b, (p.expr e).node = .template b → b ∈ begun
  visited : ∀ e v, s.cache.find? (.thisOf c) e = some v →
    (∀ b, (p.expr e).node ≠ .template b) → v = .hot ∧ e ∈ V
  unseen : s.unseen p c ≤ bound

namespace Store

variable {begun : Set ClassId} {bound : Nat} {V : Set ExprId} {s : Store}

/-- Whether a store is ready depends on its heap and its cache only. -/
theorem Ready.congr {t : Store} (ready : s.Ready p c h begun bound V) (heap : t.heap = s.heap)
    (cache : t.cache = s.cache) : t.Ready p c h begun bound V := by
  refine ⟨heap.trans ready.heap, ?_, ?_, ?_⟩
  · rw [cache]
    exact ready.templates
  · rw [cache]
    exact ready.visited
  · have := ready.unseen
    rwa [Store.unseen, cache]

/-- A value is kept for an expression that is no template. -/
theorem Ready.insert (ready : s.Ready p c h begun bound V) {e : ExprId}
    (noTemplate : ∀ b, (p.expr e).node ≠ .template b) {t : Store} (heap : t.heap = s.heap)
    (cache : t.cache = s.cache.insert (.thisOf c) e .hot) {m : Nat} (unseen : t.unseen p c ≤ m) :
    t.Ready p c h begun m (insert e V) := by
  refine ⟨heap.trans ready.heap, fun e' v hv b hb => ?_, fun e' v hv hnode => ?_, unseen⟩
  all_goals rw [cache, Cache.find?_insert] at hv
  · split at hv
    · next heq => exact absurd (heq.2 ▸ hb) (noTemplate b)
    · exact ready.templates e' v hv b hb
  · split at hv
    · next heq =>
      cases hv
      exact ⟨rfl, .inl heq.2⟩
    · obtain ⟨hot, hmem⟩ := ready.visited e' v hv hnode
      exact ⟨hot, .inr hmem⟩

/-- One expression of the program is seen for the first time. -/
theorem unseen_insert_lt {e : ExprId} (he : e.index < p.exprs.size)
    (new : s.cache.find? (.thisOf c) e = none) (v : Value) {t : Store}
    (cache : t.cache = s.cache.insert (.thisOf c) e v) : t.unseen p c < s.unseen p c := by
  refine Finset.card_lt_card ?_
  rw [Finset.ssubset_iff_of_subset]
  · refine ⟨e.index, ?_, ?_⟩
    · rw [Finset.mem_filter, Finset.mem_range]
      exact ⟨he, new⟩
    · rw [Finset.mem_filter, cache, Cache.find?_insert, if_pos ⟨rfl, rfl⟩]
      rintro ⟨-, h⟩
      cases h
  · intro i hi
    rw [Finset.mem_filter] at hi ⊢
    rw [cache, Cache.find?_insert] at hi
    split at hi
    · cases hi.2
    · exact hi

theorem unseen_insert_le {e : ExprId} (v : Value) {t : Store}
    (cache : t.cache = s.cache.insert (.thisOf c) e v) : t.unseen p c ≤ s.unseen p c := by
  refine Finset.card_le_card fun i hi => ?_
  rw [Finset.mem_filter] at hi ⊢
  rw [cache, Cache.find?_insert] at hi
  split at hi
  · cases hi.2
  · exact hi

/-- One expression at most is forgotten. -/
theorem unseen_erase_le {e : ExprId} {t : Store}
    (cache : t.cache = s.cache.erase (.thisOf c) e) :
    t.unseen p c ≤ s.unseen p c + if e.index < p.exprs.size then 1 else 0 := by
  have erased (i : Nat) (hi : i ∈ (Finset.range p.exprs.size).filter fun i =>
      t.cache.find? (.thisOf c) ⟨i⟩ = none) :
      i = e.index ∨ i ∈ (Finset.range p.exprs.size).filter fun i =>
        s.cache.find? (.thisOf c) ⟨i⟩ = none := by
    rw [Finset.mem_filter] at hi ⊢
    rw [cache, Cache.find?_erase] at hi
    by_cases heq : i = e.index
    · exact .inl heq
    · have hne : ¬ ((Addr.thisOf c) = .thisOf c ∧ (⟨i⟩ : ExprId) = e) := by
        rintro ⟨-, h⟩
        exact heq (congrArg ExprId.index h)
      rw [if_neg hne] at hi
      exact .inr hi
  split
  · next hlt =>
    refine Nat.le_trans (Finset.card_le_card fun i hi => ?_) (Finset.card_insert_le e.index _)
    rw [Finset.mem_insert]
    exact erased i hi
  · next hlt =>
    refine Finset.card_le_card fun i hi => (erased i hi).resolve_left fun heq => ?_
    rw [Finset.mem_filter, Finset.mem_range, heq] at hi
    exact hlt hi.1

end Store

/-! ## Plans that explore -/

/-- Ready for an exploration, the plan ends, ready as before, after it explored the code `ks`. Its
    answer goes with the errors on the way as wanted. -/
def Plan.Explores {α : Type} (p : Program) (c : ClassId) (h : Heap) (begun : Set ClassId)
    (bound : Nat) (ks : List Code) (x : Plan α) (want : α → List SafetyError → Prop) : Prop :=
  ∀ s V, s.Ready p c h begun bound V → x.Meets p s fun a t =>
    ∃ V' es, t.Ready p c h begun bound V' ∧ Explored p c h ks V es V' ∧ want a es

/-- A hot value with these errors. -/
def Outcome.IsHotWith (o : Outcome) (es : List SafetyError) : Prop := o.value = .hot ∧ o.errors = es

namespace Plan.Explores

variable {α β : Type} {begun : Set ClassId} {bound : Nat} {l m : List Code}
  {want : α → List SafetyError → Prop}

theorem imp {x : Plan α} {want' : α → List SafetyError → Prop}
    (hx : x.Explores p c h begun bound l want) (hw : ∀ a es, want a es → want' a es) :
    x.Explores p c h begun bound l want' := by
  intro s V ready
  refine (hx s V ready).imp fun a t ha => ?_
  obtain ⟨V', es, ready', explored, ha⟩ := ha
  exact ⟨V', es, ready', explored, hw a es ha⟩

theorem pure {a : α} (ha : want a []) :
    (Pure.pure a : Plan α).Explores p c h begun bound [] want := by
  intro s V ready
  exact meets_pure ⟨V, [], ready, .nil V, ha⟩

theorem bind {x : Plan β} {f : β → Plan α} {known : β → List SafetyError → Prop}
    (hx : x.Explores p c h begun bound l known)
    (hf : ∀ b es, known b es →
      (f b).Explores p c h begun bound m fun a es' => want a (es ++ es')) :
    (x >>= f).Explores p c h begun bound (l ++ m) want := by
  intro s V ready
  refine meets_bind ((hx s V ready).imp fun b t hb => ?_)
  obtain ⟨V', es, ready', explored, hb⟩ := hb
  refine (hf b es hb t V' ready').imp fun a u ha => ?_
  obtain ⟨V'', es', ready'', explored', ha⟩ := ha
  exact ⟨V'', es ++ es', ready'', explored.append explored', ha⟩

theorem map {x : Plan β} {f : β → α} (hx : x.Explores p c h begun bound l fun b => want (f b)) :
    (f <$> x).Explores p c h begun bound l want := by
  intro s V ready
  exact meets_map (hx s V ready)

/-- The answer is made from that of a part. -/
theorem ret {x : Plan β} {f : β → α} {known : β → List SafetyError → Prop}
    (hx : x.Explores p c h begun bound l known) (hf : ∀ b es, known b es → want (f b) es) :
    (x >>= fun b => Pure.pure (f b)).Explores p c h begun bound l want := by
  rw [bind_pure_comp]
  exact map (hx.imp hf)

/-- Only the heap is looked at, which is known. -/
theorem look_bind {f : Store → Plan α}
    (hf : ∀ s, s.heap = h → (f s).Explores p c h begun bound l want) :
    ((liftM Effect.look : Plan Store) >>= f).Explores p c h begun bound l want := by
  intro s V ready
  exact meets_look_bind (hf s ready.heap s V ready)

theorem ask {q : Query α} (hq : (q.plan p).Explores p c h begun bound l want) :
    (liftM q : Plan α).Explores p c h begun bound l want := by
  intro s V ready
  exact meets_ask (hq s V ready)

theorem inEnv {env : Env} {part : Plan α} (hx : part.Explores p c h begun bound l want) :
    (inEnv env part).Explores p c h begun bound l want := by
  intro s V ready
  have inner := hx { s with env := env } V (ready.congr rfl rfl)
  refine meets_inEnv (inner.imp fun a t ha => ?_)
  obtain ⟨V', es, ready', explored, ha⟩ := ha
  exact ⟨V', es, ready'.congr rfl rfl, explored, ha⟩

theorem calledFrom {source : Span} {part : Plan α}
    (hx : part.Explores p c h begun bound l want) :
    (calledFrom source part).Explores p c h begun bound l want := by
  intro s V ready
  have inner := hx { s with trace := s.trace.add source } V (ready.congr rfl rfl)
  refine meets_calledFrom (inner.imp fun a t ha => ?_)
  obtain ⟨V', es, ready', explored, ha⟩ := ha
  exact ⟨V', es, ready'.congr rfl rfl, explored, ha⟩

/-- An error at a span, with some trace. -/
theorem fail {error : Place → SafetyError} {source : Span}
    {want : Outcome → List SafetyError → Prop}
    (ho : ∀ trace, want (.ofErrors [error ⟨source, trace⟩]) []) :
    (Plan.fail error source).Explores p c h begun bound [] want := by
  intro s V ready
  exact ⟨0, _, s, ends_fail.2 ⟨rfl, rfl⟩, V, [], ready, .nil V, ho _⟩

theorem mapM {xs : List β} {f : β → Plan α} {code : β → Code} {known : α → List SafetyError → Prop}
    (hf : ∀ x ∈ xs, (f x).Explores p c h begun bound [code x] known) :
    (xs.mapM f).Explores p c h begun bound (xs.map code) fun ys es =>
      ∃ ess, List.Forall₂ known ys ess ∧ es = ess.flatten := by
  induction xs with
  | nil => exact pure ⟨[], .nil, rfl⟩
  | cons x xs ih =>
    rw [List.mapM_cons]
    refine bind (l := [code x]) (hf x List.mem_cons_self) fun y es hy => ?_
    refine ret (ih fun x' hx' => hf x' (List.mem_cons_of_mem x hx')) fun ys es' hys => ?_
    obtain ⟨ess, hess, rfl⟩ := hys
    exact ⟨es :: ess, .cons hy hess, by simp⟩

theorem errorsOfEach {xs : List β} {f : β → Plan (List SafetyError)} {code : β → Code}
    (hf : ∀ x ∈ xs, (f x).Explores p c h begun bound [code x] Eq) :
    (Plan.errorsOfEach xs f).Explores p c h begun bound (xs.map code) Eq := by
  refine map ((mapM hf).imp fun ess es hes => ?_)
  obtain ⟨ess', hess, rfl⟩ := hes
  rw [List.forall₂_eq_eq_eq] at hess
  rw [hess]

theorem joinEach {xs : List β} {f : β → Plan Outcome} {code : β → Code}
    (hf : ∀ x ∈ xs, (f x).Explores p c h begun bound [code x] Outcome.IsHotWith) :
    (Plan.joinEach xs f).Explores p c h begun bound (xs.map code) Outcome.IsHotWith := by
  refine map ((mapM hf).imp fun os es hes => ?_)
  obtain ⟨ess, hess, rfl⟩ := hes
  have joined (o : Outcome) (ho : o.value = .hot) : (os.foldl Outcome.join o).value = .hot ∧
      (os.foldl Outcome.join o).errors = o.errors ++ ess.flatten := by
    induction hess generalizing o with
    | nil => exact ⟨ho, (List.append_nil _).symm⟩
    | @cons o' es' os ess ho' _ ih =>
      have value : (o.join o').value = .hot := by
        rw [Outcome.join, ho, ho'.1]
        rfl
      obtain ⟨hvalue, herrors⟩ := ih (o.join o') value
      refine ⟨hvalue, ?_⟩
      rw [List.foldl_cons, herrors, Outcome.join, ho'.2, List.flatten_cons, List.append_assoc]
  exact joined .hot rfl

end Plan.Explores

/-! ## One step -/

namespace Plan

variable {begun : Set ClassId} {bound : Nat} {e : ExprId} {b : ClassId}

/-- The evaluation of an expression in the code of `b` explores this code. -/
def EvalExplores (p : Program) (c : ClassId) (h : Heap) (begun : Set ClassId) (bound : Nat)
    (k : Code) : Prop :=
  ∀ final, (liftM (Query.eval k.expr ⟨.thisOf c, k.cls⟩ final) : Plan Outcome).Explores
    p c h begun bound [k] Outcome.IsHotWith

theorem EvalExplores.errorsOf (he : EvalExplores p c h begun bound ⟨e, b⟩) :
    (errorsOf e ⟨.thisOf c, b⟩).Explores p c h begun bound [⟨e, b⟩] Eq :=
  .ret (he false) fun _ _ ho => ho.2

/-- A hot value needs no promotion. -/
theorem explores_requireHot {o : Outcome} (ho : o.value = .hot) (reason : String) (source : Span) :
    (requireHot o reason source).Explores p c h begun bound [] fun o' es => o' = o ∧ es = [] := by
  rw [requireHot, ho]
  have promote : (liftM (Query.promote .hot reason source) : Plan (List SafetyError)).Explores
      p c h begun bound [] fun es es' => es = [] ∧ es' = [] := .ask (.pure ⟨rfl, rfl⟩)
  refine .ret promote fun es es' hes => ?_
  obtain ⟨rfl, rfl⟩ := hes
  refine ⟨?_, rfl⟩
  rw [Outcome.followedBy, List.append_nil]

theorem EvalExplores.errorsOfHot (he : EvalExplores p c h begun bound ⟨e, b⟩) (reason : String) :
    (errorsOfHot p e ⟨.thisOf c, b⟩ reason).Explores p c h begun bound [⟨e, b⟩] Eq := by
  refine .bind (l := [⟨e, b⟩]) (m := []) (he false) fun o es ho => ?_
  refine .ret (explores_requireHot ho.1 _ _) fun o' es' ho' => ?_
  obtain ⟨rfl, rfl⟩ := ho'
  rw [ho.2, List.append_nil]

/-- The branches of an expression, whose values are joined. -/
theorem explores_evalBranches {es : List ExprId}
    (hes : ∀ e ∈ es, EvalExplores p c h begun bound ⟨e, b⟩) :
    (evalBranches es ⟨.thisOf c, b⟩).Explores p c h begun bound (es.map (⟨·, b⟩))
      Outcome.IsHotWith :=
  .joinEach fun e he => hes e he false

/-- Statements and their result, none of which defines a local value. -/
theorem explores_evalBlock {stats : List ExprId} {result : ExprId}
    (hstats : ∀ stat ∈ stats, EvalExplores p c h begun bound ⟨stat, b⟩)
    (noDef : ∀ stat ∈ stats, localDef? p stat = none)
    (hresult : EvalExplores p c h begun bound ⟨result, b⟩) :
    (evalBlock p ⟨.thisOf c, b⟩ result stats).Explores p c h begun bound
      ((stats ++ [result]).map (⟨·, b⟩)) Outcome.IsHotWith := by
  induction stats with
  | nil => exact hresult false
  | cons stat stats ih =>
    have rest := ih (fun x hx => hstats x (List.mem_cons_of_mem stat hx))
      fun x hx => noDef x (List.mem_cons_of_mem stat hx)
    rw [evalBlock, noDef stat List.mem_cons_self]
    refine .bind (l := [⟨stat, b⟩]) (hstats stat List.mem_cons_self false) fun o es ho => ?_
    refine .ret rest fun o' es' ho' => ⟨ho'.1, ?_⟩
    rw [Outcome.precededBy, ho.2, ho'.2]

/-- An expression that names no member explores its parts. -/
theorem explores_parts {k : Code} (permits : p.Permits c k)
    (noMember : (p.expr k.expr).node.member? = none)
    (ih : ∀ e ∈ (p.expr k.expr).node.parts, EvalExplores p c h begun bound ⟨e, k.cls⟩)
    (noDef : ∀ e ∈ (p.expr k.expr).node.parts, localDef? p e = none) :
    (node p k.expr ⟨.thisOf c, k.cls⟩).Explores p c h begun bound
      ((p.expr k.expr).node.parts.map (⟨·, k.cls⟩)) Outcome.IsHotWith := by
  rw [Program.Permits] at permits
  rw [node]
  dsimp only
  cases hnode : (p.expr k.expr).node with
  | wildcard | literal => exact .pure ⟨rfl, rfl⟩
  | assign target value =>
    rw [hnode] at permits ih
    obtain ⟨s, path, htarget⟩ := permits
    have noErrors : evalTarget p target ⟨.thisOf c, k.cls⟩ = Pure.pure [] := by
      unfold evalTarget
      rw [htarget]
    dsimp only
    rw [noErrors, pure_bind]
    exact .ret ((ih value List.mem_cons_self).errorsOfHot _) fun es es' hes => ⟨rfl, hes⟩
  | ifElse cond onTrue onFalse =>
    rw [hnode] at ih
    simp only [Node.parts, List.mem_cons, List.not_mem_nil, or_false, forall_eq_or_imp,
      forall_eq] at ih
    obtain ⟨hcond, htrue, hfalse⟩ := ih
    refine .bind (l := [⟨cond, k.cls⟩]) hcond.errorsOf fun es es' hes => ?_
    refine .bind (l := [⟨onTrue, k.cls⟩]) (htrue false) fun o es₁ ho => ?_
    refine .ret (hfalse false) fun o' es₂ ho' => ⟨?_, ?_⟩
    · rw [Outcome.precededBy, Outcome.join, ho.1, ho'.1]
      rfl
    · rw [Outcome.precededBy, Outcome.join, ho.2, ho'.2, hes]
  | matchOn scrutinee branches =>
    rw [hnode] at ih
    have hscrutinee := ih scrutinee List.mem_cons_self
    have hbranches := fun e he => ih e (List.mem_cons_of_mem scrutinee he)
    refine .bind (l := [⟨scrutinee, k.cls⟩]) (hscrutinee.errorsOfHot _) fun es es' hes => ?_
    refine .ret (explores_evalBranches hbranches) fun o es₁ ho => ⟨ho.1, ?_⟩
    rw [Outcome.precededBy, ho.2, hes]
  | whileLoop cond body =>
    rw [hnode] at ih
    have hcond := ih cond List.mem_cons_self
    have hbody := ih body (List.mem_cons_of_mem _ List.mem_cons_self)
    refine .bind (l := [⟨cond, k.cls⟩]) hcond.errorsOf fun es es' hes => ?_
    refine .ret hbody.errorsOf fun es₁ es₂ hes₁ => ⟨rfl, ?_⟩
    rw [Outcome.ofErrors, hes, hes₁]
  | tryCatch body handlers finalizer =>
    rw [hnode] at ih
    have hbody := ih body List.mem_cons_self
    have hhandlers := fun e he => ih e (List.mem_cons_of_mem body (List.mem_append_left _ he))
    have joined {o o' : Outcome} {es es' : List SafetyError} (ho : o.IsHotWith es)
        (ho' : o'.IsHotWith es') : (o.join o').IsHotWith (es ++ es') := by
      rw [Outcome.IsHotWith, Outcome.join, ho.1, ho'.1, ho.2, ho'.2]
      exact ⟨rfl, rfl⟩
    refine .bind (l := [⟨body, k.cls⟩]) (hbody false) fun o es ho => ?_
    cases finalizer with
    | none =>
      rw [Option.toList, List.append_nil]
      exact .ret (explores_evalBranches hhandlers) fun o' es' ho' => joined ho ho'
    | some e =>
      have hfinalizer := ih e (List.mem_cons_of_mem body (List.mem_append_right _ (.head [])))
      rw [List.map_append]
      refine .bind (explores_evalBranches hhandlers) fun o' es' ho' => ?_
      refine .ret hfinalizer.errorsOf fun es₁ es₂ hes => ?_
      have hjoined := joined ho ho'
      exact ⟨hjoined.1, by rw [Outcome.followedBy, hjoined.2, hes, List.append_assoc]⟩
  | sequence elems =>
    rw [hnode] at ih
    refine .ret (.errorsOfEach fun e he => (ih e he).errorsOfHot _) fun es es' hes => ⟨rfl, hes⟩
  | block stats result =>
    rw [hnode] at ih noDef
    exact explores_evalBlock (fun stat hstat => ih stat (List.mem_append_left _ hstat))
      (fun stat hstat => noDef stat (List.mem_append_left _ hstat))
      (ih result (List.mem_append_right _ List.mem_cons_self))
  | ret e =>
    rw [hnode] at ih
    exact .ret ((ih e List.mem_cons_self).errorsOfHot _) fun es es' hes => ⟨rfl, hes⟩
  | ident s path =>
    rw [hnode] at permits noMember
    obtain ⟨rfl, -⟩ := permits
    cases noMember
  | call callee args =>
    rw [hnode] at permits noMember
    cases callee with
    | ident s path =>
      obtain ⟨rfl, rfl, -⟩ := permits
      cases noMember
    | _ => cases permits
  | _ =>
    rw [hnode] at permits
    cases permits

/-- The instance of the class in whose code the path stands. -/
theorem explores_evalPath (source : Span) :
    (evalPath p ⟨.thisOf c, b⟩ source (.thisOf b)).Explores p c h begun bound [] fun o es =>
      o = .ofValue (.ref (.thisOf c)) ∧ es = [] := by
  have instance' : (liftM (Query.enclosingInstance b (.ref (.thisOf c)) b source) :
      Plan Value).Explores p c h begun bound [] fun v es => v = .ref (.thisOf c) ∧ es = [] := by
    refine .ask ?_
    rw [Query.plan_enclosingInstance_self]
    exact .pure ⟨rfl, rfl⟩
  rw [evalPath_own ⟨.thisOf c, b⟩]
  exact .ret instance' fun v es hv => ⟨congrArg Outcome.ofValue hv.1, hv.2⟩

/-- The use of a member `t` at a span has a hot value, and it reports an error if `t` is a strict
    field without a value. -/
def IsUseOf (p : Program) (c : ClassId) (h : Heap) (t : SymbolId) (source : Span) (o : Outcome)
    (es : List SafetyError) : Prop :=
  o.value = .hot ∧ ∃ own, o.errors = es ++ own ∧
    if p.isEvaluated t = false ∧ h.field? (.thisOf c) t = none then
      ∃ trace, own = [p.readError t ⟨source, trace⟩]
    else
      own = []

/-- The code that the use of a member evaluates. -/
def usedCode (p : Program) (t : SymbolId) : List Code :=
  if p.isEvaluated t then p.bodyOf t else []

theorem isUseOf_of_evaluated {t : SymbolId} (evaluated : p.isEvaluated t = true) {source : Span}
    {o : Outcome} {es : List SafetyError} (ho : o.IsHotWith es) :
    IsUseOf p c h t source o es := by
  refine ⟨ho.1, [], by rw [ho.2, List.append_nil], ?_⟩
  rw [if_neg (by rw [evaluated]; nofun)]

/-- The fields with a value are strict, and their values are hot. -/
def FieldsHot (p : Program) (c : ClassId) (h : Heap) : Prop :=
  ∀ f v, h.field? (.thisOf c) f = some v → v = .hot ∧ (p.symbol f).isLazy = false

theorem explores_selectAt {t : SymbolId} (source : Span)
    (hot : FieldsHot p c h) (noMethod : (p.symbol t).isMethod = false)
    (body : p.isEvaluated t = true → (p.symbol t).body.isSome = true)
    (ih : ∀ k ∈ usedCode p t, EvalExplores p c h begun bound k) :
    (selectAt p (.thisOf c) t source).Explores p c h begun bound (usedCode p t)
      (IsUseOf p c h t source) := by
  have evaluated : p.isEvaluated t = (p.symbol t).isLazy := by
    rw [Program.isEvaluated, noMethod, Bool.false_or]
  cases lazy : (p.symbol t).isLazy with
  | true =>
    rw [lazy] at evaluated
    obtain ⟨e, he⟩ := Option.isSome_iff_exists.1 (body evaluated)
    have code : p.bodyOf t = [⟨e, p.homeClass t⟩] := by
      rw [Program.bodyOf, he]
      rfl
    rw [usedCode, if_pos evaluated, code] at ih ⊢
    rw [selectAt_of_lazy lazy, initializer, he]
    have run := ih ⟨e, p.homeClass t⟩ (List.mem_singleton_self _) true
    exact .calledFrom (run.imp fun o es ho => isUseOf_of_evaluated evaluated ho)
  | false =>
    rw [lazy] at evaluated
    rw [usedCode, evaluated, if_neg Bool.false_ne_true, selectAt, lazy, if_neg Bool.false_ne_true]
    refine .look_bind fun s hs => ?_
    rw [hs]
    cases hfield : h.field? (.thisOf c) t with
    | some v =>
      refine .pure ⟨(hot t v hfield).1, [], rfl, ?_⟩
      rw [if_neg (by simp [hfield])]
    | none =>
      have missed (error : Place → SafetyError) (heq : p.readError t = error) (trace : List Span) :
          IsUseOf p c h t source (.ofErrors [error ⟨source, trace⟩]) [] := by
        refine ⟨rfl, _, rfl, ?_⟩
        rw [if_pos ⟨evaluated, hfield⟩, heq]
        exact ⟨trace, rfl⟩
      dsimp only
      rw [selectMissing]
      split
      · next hsource => exact .calledFrom (.fail (missed _ (if_pos hsource)))
      · next hsource => exact .fail (missed _ (if_neg hsource))

theorem explores_runMember {t : SymbolId} {e : ExprId} (body : (p.symbol t).body = some e)
    (ordinary : (p.symbol t).isPrimaryConstructor = false)
    (run : EvalExplores p c h begun bound ⟨e, p.homeClass t⟩) :
    (runMember p (.thisOf c) t []).Explores p c h begun bound [⟨e, p.homeClass t⟩]
      Outcome.IsHotWith := by
  rw [runMember_of_body body]
  dsimp only
  rw [ordinary, if_neg Bool.false_ne_true]
  split
  · exact .inEnv (run true)
  split
  · exact .look_bind fun s _ => .inEnv (run true)
  · refine .bind (l := [⟨e, p.homeClass t⟩]) (m := []) (.inEnv (run true)) fun o es ho => ?_
    refine .pure ⟨ho.1, ?_⟩
    show o.errors ++ [] = es ++ []
    rw [ho.2]

/-- A call reaches a method, or a field that implements it. -/
theorem explores_callAt {s : SymbolId} (source : Span) (hot : FieldsHot p c h)
    (use : p.CanUse c s)
    (ih : ∀ k ∈ usedCode p (p.virtualTarget c s), EvalExplores p c h begun bound k) :
    (callAt p (.thisOf c) s [] .virtual source).Explores p c h begun bound
      (usedCode p (p.virtualTarget c s)) (IsUseOf p c h (p.virtualTarget c s) source) := by
  have reached : target p (.thisOf c) s .virtual = p.virtualTarget c s := rfl
  rw [callAt, reached]
  rw [Program.CanUse] at use
  generalize p.virtualTarget c s = t at use ih
  obtain ⟨body, ordinary⟩ := use
  cases method : (p.symbol t).isMethod with
  | true =>
    have evaluated : p.isEvaluated t = true := by rw [Program.isEvaluated, method, Bool.true_or]
    obtain ⟨e, he⟩ := Option.isSome_iff_exists.1 (body evaluated)
    have code : usedCode p t = [⟨e, p.homeClass t⟩] := by
      rw [usedCode, if_pos evaluated, Program.bodyOf, he]
      rfl
    have run := ih ⟨e, p.homeClass t⟩ (code ▸ List.mem_singleton_self _)
    rw [if_pos rfl, code, callTarget, Symbol.hasSource, he, Option.isSome_some, if_pos rfl]
    exact .calledFrom ((explores_runMember he (ordinary method) run).imp
      fun o es ho => isUseOf_of_evaluated evaluated ho)
  | false =>
    rw [if_neg Bool.false_ne_true]
    refine .look_bind fun u hu => ?_
    rw [hu]
    cases hfield : h.field? (.thisOf c) t with
    | some v =>
      have evaluated : p.isEvaluated t = false := by
        rw [Program.isEvaluated, method, (hot t v hfield).2]
        rfl
      rw [usedCode, evaluated, if_neg Bool.false_ne_true]
      refine .pure ⟨(hot t v hfield).1, [], rfl, ?_⟩
      rw [if_neg (by simp [hfield])]
    | none => exact .ask (explores_selectAt source hot method body ih)

/-- The outcome of an expression that explored the code that it leads to. -/
def IsNodeOf (p : Program) (c : ClassId) (h : Heap) (e : ExprId) (o : Outcome)
    (es : List SafetyError) : Prop :=
  o.value = .hot ∧ ∃ own, o.errors = es ++ own ∧ OwnErrors p c h e own

theorem isNodeOf_of_use {s : SymbolId} (member : (p.expr e).node.member? = some s)
    {o : Outcome} {es : List SafetyError}
    (use : IsUseOf p c h (p.virtualTarget c s) (p.expr e).span o es) : IsNodeOf p c h e o es := by
  obtain ⟨hot, own, herrors, hown⟩ := use
  refine ⟨hot, own, herrors, ?_⟩
  have misses (f : SymbolId) : p.MissesRead c h e f ↔ f = p.virtualTarget c s ∧
      p.isEvaluated (p.virtualTarget c s) = false ∧
        h.field? (.thisOf c) (p.virtualTarget c s) = none := by
    rw [Program.MissesRead, Program.readOf?, member]
    dsimp only
    cases p.isEvaluated (p.virtualTarget c s) with
    | true => simp
    | false =>
      rw [if_neg Bool.false_ne_true, Option.some.injEq]
      constructor
      · rintro ⟨rfl, hnone⟩
        exact ⟨rfl, rfl, hnone⟩
      · rintro ⟨rfl, -, hnone⟩
        exact ⟨rfl, hnone⟩
  split at hown
  · next hmiss =>
    refine ⟨fun f hf => ?_, fun none => absurd ((misses _).2 ⟨rfl, hmiss⟩) (none _)⟩
    rw [((misses f).1 hf).1]
    exact hown
  · next hmiss => exact ⟨fun f hf => absurd ((misses f).1 hf).2 hmiss, fun _ => hown⟩

/-- A call through the instance of the class in whose code it stands. -/
theorem explores_callNamed {s : SymbolId} (source : Span) (hot : FieldsHot p c h)
    (use : p.CanUse c s)
    (ih : ∀ k ∈ usedCode p (p.virtualTarget c s), EvalExplores p c h begun bound k) :
    (callNamed p s (.thisOf b) [] ⟨.thisOf c, b⟩ source).Explores p c h begun bound
      (usedCode p (p.virtualTarget c s)) (IsUseOf p c h (p.virtualTarget c s) source) := by
  have notBare : (Path.thisOf b) ≠ .bare := nofun
  rw [callNamed, if_neg notBare]
  refine .bind (l := []) (explores_evalPath source) fun receiver es hreceiver => ?_
  obtain ⟨rfl, rfl⟩ := hreceiver
  have called : (liftM (Query.call (.ref (.thisOf c)) s [] .virtual source) : Plan Outcome).Explores
      p c h begun bound (usedCode p (p.virtualTarget c s))
      (IsUseOf p c h (p.virtualTarget c s) source) := .ask (explores_callAt source hot use ih)
  exact .ret called fun o es ho => ho

/-- A field that is read through the instance of the class in whose code the read stands. -/
theorem explores_readMember {s : SymbolId} (source : Span) (hot : FieldsHot p c h)
    (use : p.CanUse c s) (noMethod : (p.symbol (p.virtualTarget c s)).isMethod = false)
    (ih : ∀ k ∈ usedCode p (p.virtualTarget c s), EvalExplores p c h begun bound k) :
    (evalPath p ⟨.thisOf c, b⟩ source (.member (.thisOf b) s)).Explores p c h begun bound
      (usedCode p (p.virtualTarget c s)) (IsUseOf p c h (p.virtualTarget c s) source) := by
  rw [evalPath]
  · refine .bind (l := []) (explores_evalPath source) fun receiver es hreceiver => ?_
    obtain ⟨rfl, rfl⟩ := hreceiver
    have selected : (liftM (Query.select (.ref (.thisOf c)) s source true) : Plan Outcome).Explores
        p c h begun bound (usedCode p (p.virtualTarget c s))
        (IsUseOf p c h (p.virtualTarget c s) source) :=
      .ask (explores_selectAt source hot noMethod use.1 ih)
    exact .ret selected fun o es ho => ho
  · exact fun bare => by cases bare

/-- An expression that names a member explores the code of the member. -/
theorem explores_member {k : Code} {s : SymbolId} (permits : p.Permits c k)
    (member : (p.expr k.expr).node.member? = some s) (hot : FieldsHot p c h)
    (ih : ∀ l ∈ usedCode p (p.virtualTarget c s), EvalExplores p c h begun bound l) :
    (node p k.expr ⟨.thisOf c, k.cls⟩).Explores p c h begun bound
      (usedCode p (p.virtualTarget c s)) (IsNodeOf p c h k.expr) := by
  suffices (node p k.expr ⟨.thisOf c, k.cls⟩).Explores p c h begun bound
      (usedCode p (p.virtualTarget c s))
      (IsUseOf p c h (p.virtualTarget c s) (p.expr k.expr).span) from
    this.imp fun o es use => isNodeOf_of_use member use
  rw [Program.Permits] at permits
  rw [node]
  dsimp only
  cases hnode : (p.expr k.expr).node with
  | ident s' path =>
    rw [hnode] at permits member
    obtain ⟨rfl, use, noMethod⟩ := permits
    cases member
    dsimp only
    split
    · exact explores_callNamed _ hot use ih
    · next hmethod =>
      exact explores_readMember _ hot use (noMethod (eq_false_of_ne_true hmethod)) ih
  | call callee args =>
    rw [hnode] at permits member
    cases callee with
    | ident s' path =>
      obtain ⟨rfl, rfl, use⟩ := permits
      cases member
      have noArgs : evalArguments p ⟨.thisOf c, k.cls⟩ [] = Pure.pure ([], []) := rfl
      dsimp only
      rw [noArgs, pure_bind]
      exact .ret (explores_callNamed _ hot use ih) fun o es ho => ho
    | _ => cases member
  | _ =>
    rw [hnode] at member
    cases member

/-- The whole of one step: an expression explores the code that it leads to. -/
theorem explores_node {k : Code} (permits : p.Permits c k) (hot : FieldsHot p c h)
    (ih : ∀ l ∈ p.next c k, EvalExplores p c h begun bound l)
    (noDef : ∀ e ∈ (p.expr k.expr).node.parts, localDef? p e = none) :
    (node p k.expr ⟨.thisOf c, k.cls⟩).Explores p c h begun bound (p.next c k)
      (IsNodeOf p c h k.expr) := by
  rw [Program.next] at ih ⊢
  cases member : (p.expr k.expr).node.member? with
  | some s =>
    rw [member] at ih
    have noParts : (p.expr k.expr).node.parts = [] := by
      revert member
      cases (p.expr k.expr).node <;> first | exact fun _ => rfl | nofun
    rw [noParts] at ih ⊢
    exact explores_member permits member hot ih
  | none =>
    have parts : ∀ e ∈ (p.expr k.expr).node.parts, EvalExplores p c h begun bound ⟨e, k.cls⟩ :=
      fun e he => ih ⟨e, k.cls⟩ (List.mem_append_left _ (List.mem_map.2 ⟨e, he, rfl⟩))
    rw [List.append_nil]
    refine (explores_parts permits member parts noDef).imp fun o es ho => ?_
    have noRead : p.readOf? c k.expr = none := by rw [Program.readOf?, member]
    refine ⟨ho.1, [], by rw [ho.2, List.append_nil], fun f hf => ?_, fun _ => rfl⟩
    rw [Program.MissesRead, noRead] at hf
    cases hf.1

end Plan

/-! ## The whole search -/

theorem Program.Permits.noTemplate {k : Code} (permits : p.Permits c k) (b : ClassId) :
    (p.expr k.expr).node ≠ .template b := by
  intro hnode
  rw [Program.Permits, hnode] at permits
  cases permits

theorem Program.IsThisOnly.permits {k : Code} (code : p.IsThisOnly c k) : p.Permits c k :=
  code k .refl

theorem Program.IsThisOnly.next {k l : Code} (code : p.IsThisOnly c k) (hl : l ∈ p.next c k) :
    p.IsThisOnly c l :=
  fun _ reach => code _ (.head hl reach)

theorem Program.IsThisOnly.localDef_parts {k : Code} (code : p.IsThisOnly c k) :
    ∀ e ∈ (p.expr k.expr).node.parts, Plan.localDef? p e = none := by
  intro e he
  have part : (⟨e, k.cls⟩ : Code) ∈ p.next c k :=
    List.mem_append_left _ (List.mem_map.2 ⟨e, he, rfl⟩)
  have permits := (code.next part).permits
  rw [Program.Permits] at permits
  rw [Plan.localDef?]
  cases hnode : (p.expr e).node with
  | valDef s =>
    rw [hnode] at permits
    cases permits
  | _ => rfl

namespace Plan

variable {begun : Set ClassId} {V : Set ExprId} {s : Store}

/-- While an expression of the program is evaluated, fewer expressions are unseen. Expressions that
    are not in the program lead nowhere. -/
theorem exists_entered {k : Code} {bound : Nat} (code : p.IsThisOnly c k)
    (ih : ∀ m < bound, ∀ l, p.IsThisOnly c l → EvalExplores p c h begun m l)
    (ready : s.Ready p c h begun bound V) (new : s.cache.find? (.thisOf c) k.expr = none)
    {t : Store} (heap : t.heap = s.heap)
    (cache : t.cache = s.cache.insert (.thisOf c) k.expr .hot) :
    ∃ m, m + (if k.expr.index < p.exprs.size then 1 else 0) ≤ bound ∧
      (∀ l ∈ p.next c k, EvalExplores p c h begun m l) ∧
      t.Ready p c h begun m (insert k.expr V) := by
  have noTemplate := code.permits.noTemplate
  by_cases inside : k.expr.index < p.exprs.size
  · rw [if_pos inside]
    have less := Store.unseen_insert_lt inside new .hot cache
    have le := ready.unseen
    exact ⟨bound - 1, by omega, fun l hl => ih _ (by omega) l (code.next hl),
      ready.insert noTemplate heap cache (by omega)⟩
  · rw [if_neg inside]
    have nowhere : p.next c k = [] := by
      rw [Program.next, Program.expr_of_size_le (Nat.le_of_not_lt inside)]
      rfl
    refine ⟨bound, Nat.le_refl _, ?_, ready.insert noTemplate heap cache
      (Nat.le_trans (Store.unseen_insert_le .hot cache) ready.unseen)⟩
    rw [nowhere]
    nofun

/-- When the evaluation of an expression ends, the cache keeps a hot value or nothing. -/
theorem ready_leave {k : Code} {m bound : Nat} {t left : Store} {f : Bool}
    (noTemplate : ∀ b, (p.expr k.expr).node ≠ .template b)
    (le : m + (if k.expr.index < p.exprs.size then 1 else 0) ≤ bound) (hk : k.expr ∈ V)
    (ready : t.Ready p c h begun m V) (heap : left.heap = t.heap)
    (cache : left.cache = if f then t.cache.insert (.thisOf c) k.expr .hot
      else t.cache.erase (.thisOf c) k.expr) : left.Ready p c h begun bound V := by
  have before := ready.unseen
  cases f with
  | true =>
    rw [if_pos rfl] at cache
    have after := Store.unseen_insert_le (p := p) (c := c) .hot cache
    rw [← Set.insert_eq_of_mem hk]
    exact ready.insert noTemplate heap cache (by omega)
  | false =>
    rw [if_neg Bool.false_ne_true] at cache
    have after := Store.unseen_erase_le (p := p) (c := c) cache
    have kept (e : ExprId) (v : Value) (hv : left.cache.find? (.thisOf c) e = some v) :
        t.cache.find? (.thisOf c) e = some v := by
      rw [cache, Cache.find?_erase] at hv
      split at hv
      · cases hv
      · exact hv
    exact ⟨heap.trans ready.heap, fun e v hv => ready.templates e v (kept e v hv),
      fun e v hv => ready.visited e v (kept e v hv), by omega⟩

/-- The evaluation of an expression explores all code that it leads to. The induction is on the
    number of expressions that are unseen. -/
theorem explores_eval (hot : FieldsHot p c h) (bound : Nat) {k : Code} (code : p.IsThisOnly c k) :
    EvalExplores p c h begun bound k := by
  induction bound using Nat.strong_induction_on generalizing k with
  | h bound ih =>
    intro final
    refine .ask ?_
    rw [Query.plan, Plan.eval]
    intro s V ready
    refine meets_look_bind ?_
    dsimp only
    cases hcached : s.cache.find? (.thisOf c) k.expr with
    | some v =>
      obtain ⟨rfl, hk⟩ := ready.visited k.expr v hcached code.permits.noTemplate
      exact meets_pure ⟨V, [], ready, .visited hk, rfl, rfl⟩
    | none =>
      obtain ⟨m, le, hnext, entered⟩ := exists_entered code (fun m hm l hl => ih m hm hl) ready
        hcached (t := Scope.enter (.evaluation (.thisOf c) k.expr final) s) rfl rfl
      have run : (calledFrom (p.expr k.expr).span (node p k.expr ⟨.thisOf c, k.cls⟩)).Explores
          p c h begun m (p.next c k) (IsNodeOf p c h k.expr) :=
        .calledFrom (explores_node code.permits hot hnext code.localDef_parts)
      refine meets_within ((run _ _ entered).imp fun o t ho => ?_)
      obtain ⟨V', es, ready', explored, hhot, own, herrors, hown⟩ := ho
      have hk : k.expr ∈ V' := explored.grows (Set.mem_insert _ _)
      refine ⟨V', es ++ own, ready_leave (f := final) code.permits.noTemplate le hk ready' rfl ?_,
        explored.enter hown, hhot, herrors⟩
      rw [← hhot]
      rfl

end Plan

end ObjectInit
