import ObjectInit.Proofs.Exploration
import ObjectInit.Proofs.Growth

/-!
# The progress of a construction

The construction of an object carries out the statements of the class bodies one after the other.
`Searched` says what is known when some of them are done: exactly the reads that come too early
among them are reported. `Store.After` describes the store at that point, and `Plan.Initializes`
the plans that make progress: they carry out further statements, begin templates and record outers.

Main results:

* `Program.Searched.step`: one more statement.
* `Plan.initializes_stat`: a statement of a class body is carried out.
-/

namespace ObjectInit

variable {p : Program} {c : ClassId} {h : Heap}

/-! ## Reads that come too early -/

namespace Program

variable {done : List Code} {stat k : Code} {f : SymbolId}

/-- A read that comes too early stays so, whatever statements follow. -/
theorem ReadsEarly.append (early : p.ReadsEarly c done k f) (stats : List Code) :
    p.ReadsEarly c (done ++ stats) k f := by
  obtain ⟨before, stat, after, start, rfl, hrest⟩ := early
  refine ⟨before, stat, after ++ stats, start, ?_, hrest⟩
  rw [List.append_assoc, List.cons_append]

/-- One more statement adds the reads that it leads to, unless their fields are defined. -/
theorem readsEarly_concat : p.ReadsEarly c (done ++ [stat]) k f ↔ p.ReadsEarly c done k f ∨
    ∃ start, p.start? stat = some start ∧ p.Reaches c start k ∧ p.readOf? c k.expr = some f ∧
      f ∉ done.filterMap p.defined? := by
  constructor
  · rintro ⟨before, stat', after, start, heq, hstart, hreach, hread, hnew⟩
    rcases List.eq_nil_or_concat after with rfl | ⟨after', last, rfl⟩
    · obtain ⟨rfl, hlast⟩ := List.append_inj' heq rfl
      cases hlast
      exact .inr ⟨start, hstart, hreach, hread, hnew⟩
    · rw [List.concat_eq_append, ← List.cons_append, ← List.append_assoc] at heq
      obtain ⟨rfl, -⟩ := List.append_inj' heq rfl
      exact .inl ⟨before, stat', after', start, rfl, hstart, hreach, hread, hnew⟩
  · rintro (early | ⟨start, hstart, hreach, hread, hnew⟩)
    · exact early.append [stat]
    · exact ⟨done, stat, [], start, rfl, hstart, hreach, hread, hnew⟩

/-- After the statements `done`, the expressions `V` were visited and `es` was reported. -/
structure Searched (p : Program) (c : ClassId) (done : List Code) (V : Set ExprId)
    (es : List SafetyError) : Prop where
  closed : ∀ k : Code, k.expr ∈ V → ∀ k' ∈ p.next c k, k'.expr ∈ V
  /-- A read of a field that is not defined yet was reported when it was visited first. -/
  pending : ∀ e ∈ V, ∀ f, p.readOf? c e = some f → f ∉ done.filterMap p.defined? →
    ∃ trace, p.readError f ⟨(p.expr e).span, trace⟩ ∈ es
  told : ∀ k f, p.ReadsEarly c done k f →
    ∃ trace, p.readError f ⟨(p.expr k.expr).span, trace⟩ ∈ es
  sound : ∀ error ∈ es, ∃ k f, p.ReadsEarly c done k f ∧
    ∃ trace, error = p.readError f ⟨(p.expr k.expr).span, trace⟩

variable {V V' : Set ExprId} {es es' : List SafetyError}

theorem searched_nil : p.Searched c [] ∅ [] := by
  refine ⟨fun k hk => absurd hk (Set.notMem_empty _), fun e he => absurd he (Set.notMem_empty _),
    fun k f early => ?_, nofun⟩
  obtain ⟨before, stat, after, start, heq, -⟩ := early
  cases before <;> cases heq

/-- All code that is reached from visited code is visited. -/
theorem Reaches.visited (closed : ∀ k : Code, k.expr ∈ V → ∀ k' ∈ p.next c k, k'.expr ∈ V)
    {start : Code} (reach : p.Reaches c start k) (hstart : start.expr ∈ V) : k.expr ∈ V := by
  induction reach with
  | refl => exact hstart
  | tail _ hstep ih => exact closed _ ih _ hstep

/-- One more statement is carried out while the fields without a value are those that no statement
    defined yet. -/
theorem Searched.step (searched : p.Searched c done V es)
    (fields : ∀ f, h.field? (.thisOf c) f = none ↔ f ∉ done.filterMap p.defined?)
    (explored : Explored p c h (p.start? stat).toList V es' V') :
    p.Searched c (done ++ [stat]) V' (es ++ es') := by
  have closed : ∀ k : Code, k.expr ∈ V' → ∀ k' ∈ p.next c k, k'.expr ∈ V' := by
    intro k hk k' hk'
    by_cases hold : k.expr ∈ V
    · exact explored.grows (searched.closed k hold k' hk')
    · exact explored.closed k hk hold k' hk'
  -- An expression was either visited before, when no more fields were defined, or it is new.
  have pending (e : ExprId) (he : e ∈ V') (f : SymbolId) (hread : p.readOf? c e = some f)
      (hnew : f ∉ done.filterMap p.defined?) :
      ∃ trace, p.readError f ⟨(p.expr e).span, trace⟩ ∈ es ++ es' := by
    by_cases hold : e ∈ V
    · obtain ⟨trace, htold⟩ := searched.pending e hold f hread hnew
      exact ⟨trace, List.mem_append_left _ htold⟩
    · obtain ⟨trace, htold⟩ := explored.told e he hold f ⟨hread, (fields f).2 hnew⟩
      exact ⟨trace, List.mem_append_right _ htold⟩
  refine ⟨closed, fun e he f hread hnew => ?_, fun k f early => ?_, fun error herror => ?_⟩
  · refine pending e he f hread fun hmem => hnew ?_
    rw [List.filterMap_append]
    exact List.mem_append_left _ hmem
  · rcases readsEarly_concat.1 early with early | ⟨start, hstart, hreach, hread, hnew⟩
    · obtain ⟨trace, htold⟩ := searched.told k f early
      exact ⟨trace, List.mem_append_left _ htold⟩
    · have hvisit : start.expr ∈ V' := explored.visits start (by rw [hstart]; exact .head [])
      exact pending k.expr (hreach.visited closed hvisit) f hread hnew
  · rcases List.mem_append.1 herror with herror | herror
    · obtain ⟨k, f, early, hrest⟩ := searched.sound error herror
      exact ⟨k, f, early.append [stat], hrest⟩
    · obtain ⟨start, hstart, k, hreach, f, hmiss, hrest⟩ := explored.sound error herror
      rw [Option.mem_toList] at hstart
      exact ⟨k, f, readsEarly_concat.2
        (.inr ⟨start, hstart, hreach, hmiss.1, (fields f).1 hmiss.2⟩), hrest⟩

end Program

/-! ## Progress -/

/-- How far the construction of an object has come. -/
structure Progress where
  /-- The statements that were carried out. -/
  stats : List Code
  /-- The classes whose templates were begun. -/
  begun : List ClassId
  /-- The classes whose outers were recorded. -/
  outers : List ClassId

namespace Progress

instance : Append Progress := ⟨fun g g' =>
  ⟨g.stats ++ g'.stats, g.begun ++ g'.begun, g.outers ++ g'.outers⟩⟩

def none : Progress := ⟨[], [], []⟩

variable (g g' g'' : Progress)

@[simp] theorem stats_append : (g ++ g').stats = g.stats ++ g'.stats := rfl

@[simp] theorem begun_append : (g ++ g').begun = g.begun ++ g'.begun := rfl

@[simp] theorem outers_append : (g ++ g').outers = g.outers ++ g'.outers := rfl

theorem append_assoc : g ++ g' ++ g'' = g ++ (g' ++ g'') := by
  show (⟨_, _, _⟩ : Progress) = ⟨_, _, _⟩
  simp only [stats_append, begun_append, outers_append, List.append_assoc]

theorem append_none : g ++ none = g := by
  show (⟨_, _, _⟩ : Progress) = g
  simp only [none, List.append_nil]

/-- The same statements are carried out in the same order. -/
structure Perm (g g' : Progress) : Prop where
  stats : g.stats = g'.stats
  begun : g.begun.Perm g'.begun
  outers : g.outers.Perm g'.outers

/-- Statements are carried out in their order, and no class is begun or recorded twice. -/
structure Allowed (p : Program) (c : ClassId) (g : Progress) : Prop where
  stats : g.stats <+: p.statements c
  begun : g.begun.Nodup
  outers : g.outers.Nodup

variable {g g'}

/-- What was allowed in the end was allowed before. -/
theorem Allowed.before (allowed : (g ++ g').Allowed p c) : g.Allowed p c :=
  ⟨(List.prefix_append _ _).trans allowed.stats, (List.nodup_append.1 allowed.begun).1,
    (List.nodup_append.1 allowed.outers).1⟩

theorem Perm.append_left {l m : Progress} (h : l.Perm m) (g : Progress) : (g ++ l).Perm (g ++ m) :=
  ⟨congrArg (g.stats ++ ·) h.stats, h.begun.append_left _, h.outers.append_left _⟩

theorem Allowed.perm {l m : Progress} (allowed : m.Allowed p c) (h : l.Perm m) : l.Allowed p c :=
  ⟨h.stats ▸ allowed.stats, h.begun.nodup_iff.2 allowed.begun, h.outers.nodup_iff.2 allowed.outers⟩

end Progress

/-- The fields of the object under construction have hot values once they are defined. After this
    progress, the expressions `V` were visited and the errors `es` reported. -/
structure Store.After (p : Program) (c : ClassId) (g : Progress) (V : Set ExprId)
    (es : List SafetyError) (s : Store) : Prop where
  alive : s.heap.contains (.thisOf c) = true
  fields : ∀ f, s.heap.field? (.thisOf c) f =
    if f ∈ g.stats.filterMap p.defined? then some .hot else none
  outers : ∀ b v, s.heap.outer? (.thisOf c) b = some v → b ∈ g.outers
  ready : s.Ready p c s.heap {b | b ∈ g.begun} (s.unseen p c) V
  searched : p.Searched c g.stats V es

namespace Store.After

variable {g : Progress} {V : Set ExprId} {es : List SafetyError} {s t : Store}

/-- Only the heap and the cache matter. -/
theorem congr (after : s.After p c g V es) (heap : t.heap = s.heap) (cache : t.cache = s.cache) :
    t.After p c g V es := by
  have unseen : t.unseen p c = s.unseen p c := by rw [Store.unseen, Store.unseen, cache]
  refine ⟨?_, ?_, ?_, ?_, after.searched⟩
  · rw [heap]
    exact after.alive
  · rw [heap]
    exact after.fields
  · rw [heap]
    exact after.outers
  · rw [heap, unseen]
    exact after.ready.congr heap cache

/-- A field has no value before the statement that defines it. -/
theorem field?_eq_none (after : s.After p c g V es) (f : SymbolId) :
    s.heap.field? (.thisOf c) f = none ↔ f ∉ g.stats.filterMap p.defined? := by
  rw [after.fields]
  split
  · next hmem => exact ⟨nofun, fun hnew => absurd hmem hnew⟩
  · next hnew => exact ⟨fun _ => hnew, fun _ => rfl⟩

theorem fieldsHot (after : s.After p c g V es) : Plan.FieldsHot p c s.heap := by
  intro f v hv
  rw [after.fields] at hv
  split at hv
  · next hmem =>
    cases hv
    obtain ⟨stat, -, hdef⟩ := List.mem_filterMap.1 hmem
    refine ⟨rfl, ?_⟩
    rw [Program.defined?] at hdef
    split at hdef
    · split at hdef
      · cases hdef
      · next hlazy =>
        cases hdef
        exact eq_false_of_ne_true hlazy
    · cases hdef
  · cases hv

/-- More classes may count as begun or recorded. -/
theorem more (after : s.After p c g V es) (begun outers : List ClassId) :
    s.After p c (g ++ ⟨[], begun, outers⟩) V es := by
  have stats : (g ++ ⟨[], begun, outers⟩ : Progress).stats = g.stats := List.append_nil _
  refine ⟨after.alive, ?_, fun b v hv => List.mem_append_left _ (after.outers b v hv), ?_, ?_⟩
  · rw [stats]
    exact after.fields
  · obtain ⟨heap, templates, visited, unseen⟩ := after.ready
    exact ⟨heap, fun e v hv b hb => List.mem_append_left _ (templates e v hv b hb), visited, unseen⟩
  · rw [stats]
    exact after.searched

theorem perm {g' : Progress} (after : s.After p c g V es) (h : g.Perm g') :
    s.After p c g' V es := by
  have begun : {b | b ∈ g'.begun} = {b | b ∈ g.begun} := Set.ext fun b => h.begun.symm.mem_iff
  refine ⟨after.alive, ?_, fun b v hv => h.outers.mem_iff.1 (after.outers b v hv), ?_, ?_⟩
  · rw [← h.stats]
    exact after.fields
  · rw [begun]
    exact after.ready
  · rw [← h.stats]
    exact after.searched

variable {stat : Code} {V' : Set ExprId} {es' : List SafetyError}

/-- A statement that defines no field was explored. -/
theorem step (after : s.After p c g V es)
    (explored : Explored p c s.heap (p.start? stat).toList V es' V')
    (ready : t.Ready p c s.heap {b | b ∈ g.begun} (s.unseen p c) V')
    (noField : p.defined? stat = none) : t.After p c (g ++ ⟨[stat], [], []⟩) V' (es ++ es') := by
  have defined : (g ++ ⟨[stat], [], []⟩ : Progress).stats.filterMap p.defined? =
      g.stats.filterMap p.defined? := by
    rw [Progress.stats_append, List.filterMap_append, List.filterMap_cons_none noField,
      List.filterMap_nil, List.append_nil]
  refine ⟨?_, ?_, ?_, ?_, after.searched.step after.field?_eq_none explored⟩
  · rw [ready.heap]
    exact after.alive
  · rw [ready.heap, defined]
    exact after.fields
  · rw [ready.heap, Progress.outers_append, List.append_nil]
    exact after.outers
  · rw [Progress.begun_append, List.append_nil]
    exact ⟨rfl, ready.templates, ready.visited, Nat.le_refl _⟩

/-- A statement was explored and its field is set. -/
theorem step_setField (after : s.After p c g V es)
    (explored : Explored p c s.heap (p.start? stat).toList V es' V')
    (ready : t.Ready p c s.heap {b | b ∈ g.begun} (s.unseen p c) V') {f : SymbolId}
    (field : p.defined? stat = some f) (new : f ∉ g.stats.filterMap p.defined?) :
    ∃ heap, t.heap.setField (.thisOf c) f .hot = .ok heap ∧
      Store.After p c (g ++ ⟨[stat], [], []⟩) V' (es ++ es') { t with heap := heap } := by
  rw [ready.heap]
  obtain ⟨heap, ok⟩ := Heap.exists_setField after.alive ((after.field?_eq_none f).2 new) .hot
  refine ⟨heap, ok, Heap.contains_of_setField ok, fun f' => ?_, fun b v hv => ?_, ?_,
    after.searched.step after.field?_eq_none explored⟩
  · rw [Heap.field?_of_setField ok, after.fields, Progress.stats_append, List.filterMap_append,
      List.filterMap_cons_some field, List.filterMap_nil]
    by_cases heq : f' = f <;> simp [heq]
  · rw [Heap.outer?_of_setField ok] at hv
    exact List.mem_append_left _ (after.outers b v hv)
  · rw [Progress.begun_append, List.append_nil]
    exact ⟨rfl, ready.templates, ready.visited, Nat.le_refl _⟩

end Store.After

/-! ## Plans that make progress -/

/-- Where further progress is allowed, the plan makes it and ends. Its answer goes with the errors
    on the way as wanted. -/
def Plan.Initializes {α : Type} (p : Program) (c : ClassId) (part : Progress) (x : Plan α)
    (want : α → List SafetyError → Prop) : Prop :=
  ∀ s g V es, (g ++ part).Allowed p c → s.After p c g V es → x.Meets p s fun a t =>
    ∃ V' es', t.After p c (g ++ part) V' (es ++ es') ∧ want a es'

namespace Plan.Initializes

variable {α β : Type} {l m : Progress} {want : α → List SafetyError → Prop}

theorem imp {x : Plan α} {want' : α → List SafetyError → Prop} (hx : x.Initializes p c l want)
    (hw : ∀ a es, want a es → want' a es) : x.Initializes p c l want' := by
  intro s g V es allowed after
  refine (hx s g V es allowed after).imp fun a t ha => ?_
  obtain ⟨V', es', after', ha⟩ := ha
  exact ⟨V', es', after', hw a es' ha⟩

/-- In which order templates are begun and outers are recorded does not matter. -/
theorem perm {x : Plan α} (hx : x.Initializes p c l want) (h : l.Perm m) :
    x.Initializes p c m want := by
  intro s g V es allowed after
  refine (hx s g V es (allowed.perm (h.append_left g)) after).imp fun a t ha => ?_
  obtain ⟨V', es', after', ha⟩ := ha
  exact ⟨V', es', after'.perm (h.append_left g), ha⟩

/-- Nothing is done, not even for these classes. -/
theorem pure {a : α} (ha : want a []) (begun outers : List ClassId) :
    (Pure.pure a : Plan α).Initializes p c ⟨[], begun, outers⟩ want := by
  intro s g V es allowed after
  refine meets_pure ⟨V, [], ?_, ha⟩
  rw [List.append_nil]
  exact after.more begun outers

theorem bind {x : Plan β} {f : β → Plan α} {known : β → List SafetyError → Prop}
    (hx : x.Initializes p c l known)
    (hf : ∀ b es, known b es → (f b).Initializes p c m fun a es' => want a (es ++ es')) :
    (x >>= f).Initializes p c (l ++ m) want := by
  intro s g V es allowed after
  rw [← Progress.append_assoc] at allowed ⊢
  refine meets_bind ((hx s g V es allowed.before after).imp fun b t hb => ?_)
  obtain ⟨V', es', after', hb⟩ := hb
  refine (hf b es' hb t _ V' _ allowed after').imp fun a u ha => ?_
  obtain ⟨V'', es'', after'', ha⟩ := ha
  rw [List.append_assoc] at after''
  exact ⟨V'', es' ++ es'', after'', ha⟩

theorem map {x : Plan β} {f : β → α} (hx : x.Initializes p c l fun b => want (f b)) :
    (f <$> x).Initializes p c l want := by
  intro s g V es allowed after
  exact meets_map (hx s g V es allowed after)

/-- The answer is made from that of a part. -/
theorem ret {x : Plan β} {f : β → α} {known : β → List SafetyError → Prop}
    (hx : x.Initializes p c l known) (hf : ∀ b es, known b es → want (f b) es) :
    (x >>= fun b => Pure.pure (f b)).Initializes p c l want := by
  rw [bind_pure_comp]
  exact map (hx.imp hf)

theorem ask {q : Query α} (hq : (q.plan p).Initializes p c l want) :
    (liftM q : Plan α).Initializes p c l want := by
  intro s g V es allowed after
  exact meets_ask (hq s g V es allowed after)

theorem inEnv {env : Env} {x : Plan α} (hx : x.Initializes p c l want) :
    (inEnv env x).Initializes p c l want := by
  intro s g V es allowed after
  have inner := hx { s with env := env } g V es allowed (after.congr rfl rfl)
  refine meets_inEnv (inner.imp fun a t ha => ?_)
  obtain ⟨V', es', after', ha⟩ := ha
  exact ⟨V', es', after'.congr rfl rfl, ha⟩

theorem calledFrom {source : Span} {x : Plan α} (hx : x.Initializes p c l want) :
    (calledFrom source x).Initializes p c l want := by
  intro s g V es allowed after
  have inner := hx { s with trace := s.trace.add source } g V es allowed (after.congr rfl rfl)
  refine meets_calledFrom (inner.imp fun a t ha => ?_)
  obtain ⟨V', es', after', ha⟩ := ha
  exact ⟨V', es', after'.congr rfl rfl, ha⟩

/-- For each element progress is made, without errors. -/
theorem mapM (parts : List β → Progress) (hnil : parts [] = .none)
    (hcons : ∀ x xs, parts (x :: xs) = parts [x] ++ parts xs) {f : β → Plan α} {R : β → α → Prop}
    {xs : List β}
    (hf : ∀ x ∈ xs, (f x).Initializes p c (parts [x]) fun y es => R x y ∧ es = []) :
    (xs.mapM f).Initializes p c (parts xs) fun ys es => List.Forall₂ R xs ys ∧ es = [] := by
  induction xs with
  | nil =>
    rw [hnil]
    refine pure ?_ [] []
    exact ⟨.nil, rfl⟩
  | cons x xs ih =>
    rw [hcons, List.mapM_cons]
    refine bind (hf x List.mem_cons_self) fun y es hy => ?_
    refine ret (ih fun x' hx' => hf x' (List.mem_cons_of_mem x hx')) fun ys es' hys => ?_
    rw [hy.2, hys.2]
    exact ⟨.cons hy.1 hys.1, rfl⟩

/-- For each element progress is made, and the errors are collected. -/
theorem errorsOfEach (parts : List β → Progress) (hnil : parts [] = .none)
    (hcons : ∀ x xs, parts (x :: xs) = parts [x] ++ parts xs)
    {f : β → Plan (List SafetyError)} {xs : List β}
    (hf : ∀ x ∈ xs, (f x).Initializes p c (parts [x]) Eq) :
    (Plan.errorsOfEach xs f).Initializes p c (parts xs) Eq := by
  induction xs with
  | nil =>
    rw [hnil]
    exact pure rfl [] []
  | cons x xs ih =>
    rw [hcons, errorsOfEach_cons]
    refine bind (hf x List.mem_cons_self) fun es es₁ hes => ?_
    refine ret (ih fun x' hx' => hf x' (List.mem_cons_of_mem x hx')) fun es' es₂ hes' => ?_
    rw [hes, hes']

end Plan.Initializes

/-! ## Statements -/

namespace Plan

variable {b : ClassId} {e : ExprId}

/-- A statement that defines no field makes progress by what it explores. -/
theorem meets_passed {s : Store} {g : Progress} {V : Set ExprId} {es : List SafetyError}
    (after : s.After p c g V es) {stat : Code} (noField : p.defined? stat = none)
    {x : Plan (List SafetyError)} (hx : x.Explores p c s.heap {b | b ∈ g.begun} (s.unseen p c)
      (p.start? stat).toList Eq) :
    x.Meets p s fun found t => ∃ V' es',
      t.After p c (g ++ ⟨[stat], [], []⟩) V' (es ++ es') ∧ found = es' := by
  refine (hx s V after.ready).imp fun found t ht => ?_
  obtain ⟨V', es', ready, explored, rfl⟩ := ht
  exact ⟨V', found, after.step explored ready noField, rfl⟩

/-- The statement that defines a field sets it to the value that was explored. -/
theorem meets_defined {s : Store} {g : Progress} {V : Set ExprId} {es : List SafetyError}
    (after : s.After p c g V es) {stat : Code} {f : SymbolId} (field : p.defined? stat = some f)
    (new : f ∉ g.stats.filterMap p.defined?) {x : Plan Outcome}
    (hx : x.Explores p c s.heap {b | b ∈ g.begun} (s.unseen p c) (p.start? stat).toList
      Outcome.IsHotWith) :
    (x >>= fun o => (liftM (Effect.setField (.thisOf c) f o.value) : Plan Unit) >>= fun _ =>
      Pure.pure o.errors).Meets p s fun found t => ∃ V' es',
        t.After p c (g ++ ⟨[stat], [], []⟩) V' (es ++ es') ∧ found = es' := by
  refine meets_bind ((hx s V after.ready).imp fun o t ht => ?_)
  obtain ⟨V', es', ready, explored, hot, rfl⟩ := ht
  obtain ⟨heap, ok, after'⟩ := after.step_setField explored ready field new
  rw [hot]
  exact meets_bind (meets_perform (a := ()) (Effect.run_setField.2 ⟨heap, ok, rfl⟩)
    (meets_pure ⟨V', o.errors, after', rfl⟩))

/-- A statement of a class body is carried out. -/
theorem initializes_stat (code : ∀ stat ∈ p.statements c, ∀ start, p.start? stat = some start →
      p.IsThisOnly c start)
    (distinct : ((p.statements c).filterMap p.defined?).Nodup) :
    (stat p b (.thisOf c) e).Initializes p c ⟨[⟨e, b⟩], [], []⟩ Eq := by
  intro s g V es allowed after
  have inBody : ⟨e, b⟩ ∈ p.statements c :=
    allowed.stats.subset (List.mem_append_right _ (List.mem_singleton_self _))
  have code := code _ inBody
  have hot := after.fieldsHot
  rw [stat]
  cases hnode : (p.expr e).node with
  | valDef f =>
    dsimp only
    cases lazy : (p.symbol f).isLazy with
    | true =>
      have noStart : p.start? ⟨e, b⟩ = none := by
        rw [Program.start?, hnode]
        exact if_pos lazy
      have noField : p.defined? ⟨e, b⟩ = none := by
        rw [Program.defined?, hnode]
        exact if_pos lazy
      refine meets_passed after noField ?_
      rw [noStart]
      exact .pure rfl
    | false =>
      have start : p.start? ⟨e, b⟩ = (p.symbol f).body.map (⟨·, b⟩) := by
        rw [Program.start?, hnode]
        dsimp only
        rw [lazy, if_neg Bool.false_ne_true]
      have field : p.defined? ⟨e, b⟩ = some f := by
        rw [Program.defined?, hnode]
        dsimp only
        rw [lazy, if_neg Bool.false_ne_true]
      have new : f ∉ g.stats.filterMap p.defined? := by
        obtain ⟨rest, hrest⟩ := allowed.stats
        rw [← hrest, List.filterMap_append, Progress.stats_append, List.filterMap_append,
          List.filterMap_cons_some field] at distinct
        have := (List.nodup_append.1 (List.nodup_append.1 distinct).1).2.2
        exact fun hmem => this f hmem f List.mem_cons_self rfl
      rw [if_neg Bool.false_ne_true]
      cases body : (p.symbol f).body with
      | none =>
        refine meets_defined after field new (x := Pure.pure .hot) ?_
        rw [start, body]
        exact .pure ⟨rfl, rfl⟩
      | some e' =>
        refine meets_defined after field new ?_
        rw [start, body] at code ⊢
        exact explores_eval hot _ (code _ rfl) true
  | methodDef f | typeDef f =>
    have noStart : p.start? ⟨e, b⟩ = none := by rw [Program.start?, hnode]
    have noField : p.defined? ⟨e, b⟩ = none := by rw [Program.defined?, hnode]
    refine meets_passed after noField ?_
    rw [noStart]
    exact .pure rfl
  | _ =>
    have start : p.start? ⟨e, b⟩ = some ⟨e, b⟩ := by rw [Program.start?, hnode]
    have noField : p.defined? ⟨e, b⟩ = none := by rw [Program.defined?, hnode]
    refine meets_passed after noField ?_
    rw [start]
    exact .ret (explores_eval hot _ (code _ start) false) fun o es' ho => ho.2

end Plan

end ObjectInit
