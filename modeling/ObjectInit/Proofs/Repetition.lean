import ObjectInit.Proofs.Addresses
import ObjectInit.Proofs.ProgramClosures
import ObjectInit.Proofs.Reuse

/-!
# Objects are constructed once

A constructor that was called on an object does not run on it again, and an object that was created
is found again when another one is created in the same way. Both hold from the first call on, also
while it is in progress, and for the rest of the analysis.

The cache and the heap only grow, apart from the placeholders of tentative evaluations. So what
holds of the store after an event holds at all later events (`Plan.Course.lasting`), unless it
depends on the placeholder of a tentative evaluation around the event. The body of a constructor is
evaluated tentatively only as the body of a closure that is being promoted.

Main results:

* `Plan.Course.lasting`: what an event leaves behind is found at all later events.
* `Query.construct_again`, `Query.create_again`: a call that has nothing left to do.
* `Plan.session_constructs_once`: in a session nothing is constructed twice.
* `Plan.session_constructs_again`: the body of a constructor may run again if the first call was
  made while it was tried out as that of a closure.
-/

namespace ObjectInit

open scoped List

variable {p : Program} {n : Nat} {α β γ : Type} {s s' t u : Store} {K : List Question}
  {log : List Event} {r : Option α} {x : Plan α} {writes : Bool}

/-! ## What stays -/

/-- The heap and the cache of the second store hold all that those of the first one hold. -/
structure Store.Retains (s t : Store) : Prop where
  heap : s.heap.Extends t.heap
  cache : s.cache.Extends t.cache

theorem Store.Retains.trans (h : s.Retains t) (h' : t.Retains u) : s.Retains u :=
  ⟨h.heap.trans h'.heap, h.cache.trans h'.cache⟩

theorem Store.Retains.of_eq (heap : t.heap = s.heap) (cache : t.cache = s.cache) :
    s.Retains t := by
  constructor
  · rw [heap]
    exact .refl _
  · rw [cache]
    exact .refl _

theorem Plan.Plain.retains (plain : x.Plain writes) {a : α} (h : x.Ends p n s a t) :
    s.Retains t :=
  ⟨Plan.ends_extends h, plain.cache_extends h⟩

theorem Plan.Plain.retains_asked (plain : x.Plain writes) {q : Query γ} (h : x.Asks p s q t) :
    s.Retains t :=
  ⟨h.before Heap.Extends.advances, plain.cache_asked h⟩

theorem Query.retains_asked {q : Query β} {q' : Query γ} (h : (q.plan p).Asks p s q' t) :
    s.Retains t :=
  ⟨h.before Heap.Extends.advances, (Query.cache_asked h).1⟩

theorem Query.Way.retains {q : Query β} {q' : Query γ} {active : List Cache.Key}
    (way : q.Way p s active q' t) : s.Retains t := by
  induction way with
  | start => exact .of_eq rfl rfl
  | asked _ hasks ih => exact ih.trans (Query.retains_asked hasks)

theorem Plan.Course.retains (h : x.Course p K s log r u) (plain : x.Plain writes) :
    ∀ e ∈ log, s.Retains e.store := by
  intro e he
  obtain ⟨γ, q, t, active, hasks, way⟩ := h.way e he
  exact (plain.retains_asked hasks).trans way.retains

/-! ## What lasts -/

/-- The plan is that of a question or a part of it: it has no evaluation of its own, or it is the
    plan of an evaluation, which is final or allowed. -/
inductive Plan.Guarded (ok : ExprId → Frame → Prop) : {α : Type} → Plan α → Store → Prop where
  | plain {α : Type} {x : Plan α} {s : Store} {writes : Bool} (plain : x.Plain writes)
    (tries : x.Tries ok) : Guarded ok x s
  | look {α : Type} {next : Store → Plan α} {s : Store} (h : Guarded ok (next s) s) :
    Guarded ok (.perform .look next) s
  | evaluation {e : ExprId} {frame : Frame} {final : Bool} {part : Plan Outcome} {s : Store}
    (allowed : final = false → ok e frame) (plain : part.Plain false) (tries : part.Tries ok) :
    Guarded ok (.within (.evaluation frame.receiver e final) part .pure) s

/-- The property of stores is kept by all plans, if only the allowed expressions are evaluated
    tentatively. -/
structure Store.Lasts (ok : ExprId → Frame → Prop) (J : Store → Prop) : Prop where
  mono : ∀ {s t}, s.Retains t → J s → J t
  leave : ∀ {e frame final context o t}, (final = false → ok e frame) → J t →
    J ((Scope.evaluation frame.receiver e final).leave context o t)

theorem Query.guarded_plan {ok : ExprId → Frame → Prop} {q : Query β}
    (allowed : ∀ e frame, q.tentative = some (e, frame) → ok e frame)
    (tries : (q.uncached p).Tries ok) : (q.plan p).Guarded ok s := by
  cases q with
  | eval e frame final =>
    refine .look ?_
    cases hit : s.cache.find? frame.receiver e with
    | some v =>
      simp only [Plan.bind, hit]
      exact .plain (.pure _ : Plan.Plain false _) (.pure _)
    | none =>
      simp only [Plan.bind, hit]
      refine .evaluation (fun h => allowed e frame ?_) (Plan.plain_calledNode e frame)
        (.calledFrom _ tries)
      rw [h]
      rfl
  | _ => exact .plain (Query.plain_plan _ rfl) tries

/-- The plan of a question is followed by a plain plan. -/
theorem Plan.Guarded.of_ask {ok : ExprId → Frame → Prop} {q : Query β} {next : β → Plan α}
    (h : (Plan.ask q next).Guarded ok s) :
    (∀ e frame, q.tentative = some (e, frame) → ok e frame) ∧
      ∀ b, ∃ writes, (next b).Plain writes ∧ (next b).Tries ok := by
  cases h with
  | plain plain tries =>
    cases plain with
    | ask _ rest =>
      cases tries with
      | ask _ allowed tries => exact ⟨allowed, fun b => ⟨_, rest b, tries b⟩⟩

theorem Plan.Guarded.of_perform {ok : ExprId → Frame → Prop} {effect : Effect β}
    {next : β → Plan α} {b : β} (h : (Plan.perform effect next).Guarded ok s)
    (heffect : effect.run.run s = .ok (b, t)) : (next b).Guarded ok t := by
  cases h with
  | plain plain tries =>
    cases plain with
    | perform _ _ plain =>
      cases tries with
      | perform _ tries => exact .plain (plain b) (tries b)
  | look inside =>
    cases heffect
    exact inside

/-- So is a part in a scope, and what lasts is still there when the scope is left. -/
theorem Plan.Guarded.of_within {ok : ExprId → Frame → Prop} {J : Store → Prop}
    (lasts : Store.Lasts ok J) {scope : Scope β} {part : Plan β} {next : β → Plan α}
    (h : (Plan.within scope part next).Guarded ok s) :
    part.Guarded ok (scope.enter s) ∧ (∀ b, ∃ writes, (next b).Plain writes ∧ (next b).Tries ok) ∧
      ∀ context b t, J t → J (scope.leave context b t) := by
  cases h with
  | plain plain tries =>
    cases plain with
    | within _ admits plain rest =>
      cases tries with
      | within _ tries restTries =>
        refine ⟨.plain plain tries, fun b => ⟨_, rest b, restTries b⟩, fun context b t => ?_⟩
        exact lasts.mono (.of_eq (scope.heap_leave context b t) (Scope.cache_leave admits ..))
  | evaluation allowed plain tries =>
    exact ⟨.plain plain tries, fun b => ⟨false, .pure b, .pure b⟩,
      fun context b t => lasts.leave allowed⟩

/-- What holds before a plain plan holds at its events and at its end. -/
theorem Plan.Course.lasts_of_plain {ok : ExprId → Frame → Prop} {J : Store → Prop}
    (lasts : Store.Lasts ok J) (course : x.Course p K s log r u) (plain : x.Plain writes)
    (hs : J s) : (∀ e ∈ log, J e.store) ∧ (r.isSome → J u) := by
  refine ⟨fun e he => lasts.mono (course.retains plain e he) hs, fun ended => ?_⟩
  obtain ⟨a, rfl⟩ := Option.isSome_iff_exists.1 ended
  obtain ⟨n, hn⟩ := course.ends rfl
  exact lasts.mono (plain.retains hn) hs

section Lasting

variable {ok : ExprId → Frame → Prop} {J : Store → Prop} (safe : List Question → Prop)
  (first later : Event → Prop)

/-- Inside of an unsafe question there are no events of the first kind. -/
theorem Plan.Course.safe_of_event (outward : ∀ q K, safe (q :: K) → safe K)
    (safe_of_first : ∀ e, first e → safe e.callers) (course : x.Course p K s log r u) {e : Event}
    (he : e ∈ log) (hfirst : first e) : safe K := by
  obtain ⟨L, callers⟩ := course.callers e he
  have inside : safe (L ++ K) := callers ▸ safe_of_first e hfirst
  clear callers
  induction L with
  | nil => exact inside
  | cons q L ih => exact ih (outward q _ inside)

/-- What holds of a store when certain events have passed holds at all later events. The events are
    those that are not inside of an unsafe question, and other questions evaluate only the allowed
    expressions tentatively. -/
theorem Plan.Course.lasting (lasts : Store.Lasts ok J)
    (outward : ∀ q K, safe (q :: K) → safe K)
    (tries : ∀ {β : Type} (q : Query β) K, safe (⟨q⟩ :: K) → (q.uncached p).Tries ok)
    (safe_of_first : ∀ e, first e → safe e.callers)
    (afterwards : ∀ {β : Type} (q : Query β) s K b t, first ⟨q, s, K⟩ → q.Answered p s b t → J t)
    (meanwhile : ∀ {β γ : Type} (q : Query β) s K (q' : Query γ) t active e, first ⟨q, s, K⟩ →
      (q.plan p).Asks p s q' t → q'.Way p t active e.query e.store → later e → J e.store)
    (course : x.Course p K s log r u) (guarded : safe K → x.Guarded ok s) :
    log.Pairwise (fun e e' => first e → later e' → J e'.store) ∧
      (r.isSome → ∀ e ∈ log, first e → J u) := by
  induction course with
  | stop | done => exact ⟨.nil, nofun⟩
  | @asking _ _ q next K s u log inner ih =>
    obtain ⟨pairs, -⟩ := ih fun h =>
      Query.guarded_plan (guarded (outward _ _ h)).of_ask.1 (tries q K h)
    refine ⟨List.pairwise_cons.2 ⟨fun e he hfirst hlater => ?_, pairs⟩, nofun⟩
    obtain ⟨γ, q', t, active, hasks, way⟩ := inner.way e he
    exact meanwhile q s K q' t active e hfirst hasks way hlater
  | @asked _ _ q next K s t u b log log' r inner course ihq ih =>
    have whole := Plan.Course.asked inner course
    obtain ⟨pairs, ended⟩ := ihq fun h =>
      Query.guarded_plan (guarded (outward _ _ h)).of_ask.1 (tries q K h)
    obtain ⟨pairs', ended'⟩ := ih fun h =>
      have ⟨_, plain, tries⟩ := (guarded h).of_ask.2 b
      .plain plain tries
    have after {e : Event} (he : e ∈ ⟨q, s, K⟩ :: log) (hfirst : first e) :
        (∀ e' ∈ log', J e'.store) ∧ (r.isSome → J u) := by
      have member : e ∈ ⟨q, s, K⟩ :: (log ++ log') := by
        rw [← List.cons_append]
        exact List.mem_append_left _ he
      have hK := whole.safe_of_event safe first outward safe_of_first member hfirst
      obtain ⟨_, plain, -⟩ := (guarded hK).of_ask.2 b
      refine course.lasts_of_plain lasts plain ?_
      rcases List.mem_cons.1 he with rfl | he
      · exact afterwards q s K b t hfirst inner.answered
      · exact ended rfl e he hfirst
    constructor
    · refine List.pairwise_cons.2 ⟨fun e he hfirst hlater => ?_, List.pairwise_append.2
        ⟨pairs, pairs', fun e he e' he' hfirst _ => (after (.tail _ he) hfirst).1 e' he'⟩⟩
      rcases List.mem_append.1 he with he | he
      · obtain ⟨γ, q', t, active, hasks, way⟩ := inner.way e he
        exact meanwhile q s K q' t active e hfirst hasks way hlater
      · exact (after List.mem_cons_self hfirst).1 e he
    · intro hr e he hfirst
      rw [← List.cons_append] at he
      rcases List.mem_append.1 he with he | he
      · exact (after he hfirst).2 hr
      · exact ended' hr e he hfirst
  | performed heffect _ ih => exact ih fun h => (guarded h).of_perform heffect
  | inside inner ih =>
    obtain ⟨pairs, -⟩ := ih fun h => ((guarded h).of_within lasts).1
    exact ⟨pairs, nofun⟩
  | @left _ _ scope part next K s t u b log log' r inner course ihPart ih =>
    have whole := Plan.Course.left inner course
    obtain ⟨pairs, ended⟩ := ihPart fun h => ((guarded h).of_within lasts).1
    obtain ⟨pairs', ended'⟩ := ih fun h =>
      have ⟨_, plain, tries⟩ := ((guarded h).of_within lasts).2.1 b
      .plain plain tries
    have after {e : Event} (he : e ∈ log) (hfirst : first e) :
        (∀ e' ∈ log', J e'.store) ∧ (r.isSome → J u) := by
      have hK := whole.safe_of_event safe first outward safe_of_first (List.mem_append_left _ he)
        hfirst
      obtain ⟨-, next, leave⟩ := (guarded hK).of_within lasts
      obtain ⟨_, plain, -⟩ := next b
      exact course.lasts_of_plain lasts plain (leave _ b t (ended rfl e he hfirst))
    refine ⟨List.pairwise_append.2
      ⟨pairs, pairs', fun e he e' he' hfirst _ => (after he hfirst).1 e' he'⟩, ?_⟩
    intro hr e he hfirst
    rcases List.mem_append.1 he with he | he
    · exact (after he hfirst).2 hr
    · exact ended' hr e he hfirst

end Lasting

/-- Every evaluation that a question leads to is in progress on the way. -/
theorem Query.Way.evaluation_subset {q : Query β} {q' : Query γ} {active : List Cache.Key}
    (way : q.Way p s active q' t) : q.evaluation ⊆ q'.evaluation ++ active := by
  induction way with
  | start => exact List.subset_append_left _ _
  | asked _ _ ih => exact List.subset_append_of_subset_right _ ih

/-! ## Constructors -/

/-- The question is a call of the constructor on the object. -/
inductive Query.Constructs (a : Addr) (ctor : SymbolId) : {β : Type} → Query β → Prop where
  | mk (args : List ArgValue) (source : Span) :
    Constructs a ctor (.construct (.ref a) ctor args source)

/-- A closure with this body, which was made on the object, is promoted. -/
def Question.Promotes (e : ExprId) (a : Addr) (q : Question) : Prop :=
  ∃ c, q.query.RunsClosure e ⟨a, c⟩

section Constructors

variable {a : Addr} {ctor : SymbolId} {e : ExprId} {args : List ArgValue} {source : Span}
  {o : Outcome}

/-- An expression has an entry in the cache, and it is not evaluated tentatively. -/
theorem Cache.lasts_entry (a : Addr) (e : ExprId) :
    Store.Lasts (fun e' frame => ¬(e' = e ∧ frame.receiver = a))
      fun s => (s.cache.find? a e).isSome where
  mono retains h := by
    obtain ⟨v, hv⟩ := Option.isSome_iff_exists.1 h
    rw [retains.cache a e v hv]
    rfl
  leave {e' frame final context o t} allowed h := by
    by_cases same : a = frame.receiver ∧ e = e'
    · obtain ⟨rfl, rfl⟩ := same
      cases final with
      | false => exact absurd ⟨rfl, rfl⟩ (allowed rfl)
      | true => simp [Scope.leave, Cache.find?_insert]
    · rw [Scope.find?_leave_evaluation same]
      exact h

namespace Plan

variable (primary : (p.symbol ctor).isPrimaryConstructor) (body : (p.symbol ctor).body = some e)
include primary body

/-- A primary constructor evaluates its body and returns its receiver. -/
theorem construct_of_primary :
    construct p (.ref a) ctor args source = calledFrom source (do
      let o ← inEnv (.ofList (widenedBindings (p.symbol ctor).params args))
        (calledFrom (p.cls (p.homeClass ctor)).span (Query.eval e ⟨a, p.homeClass ctor⟩ true))
      return ⟨.ref a, o.errors⟩) := by
  have known : (p.symbol ctor).hasSource := by
    rw [Symbol.hasSource, body]
    rfl
  rw [construct, callTarget, if_pos known, runMember_of_body body]
  exact congrArg _ (if_pos primary)

/-- It asks for nothing else. -/
theorem evaluation_of_construct {q : Query γ}
    (h : (construct p (.ref a) ctor args source).Asks p s q t) : q.evaluation = [⟨a, e⟩] := by
  rw [construct_of_primary primary body] at h
  rcases h.of_calledFrom.of_bind with h | ⟨_, _, _, -, h⟩
  · cases h.of_inEnv.of_calledFrom with
    | here => rfl
    | afterAsk _ h => cases h
  · cases h

end Plan

/-- A constructor whose body has an entry in the cache is not run. -/
theorem Query.construct_again (primary : (p.symbol ctor).isPrimaryConstructor)
    (body : (p.symbol ctor).body = some e) (kept : (s.cache.find? a e).isSome) :
    (Query.construct (.ref a) ctor args source).Answered p s (.ofValue (.ref a)) s := by
  obtain ⟨v, hv⟩ := Option.isSome_iff_exists.1 kept
  refine ⟨2, Query.ends_succ.2 ?_⟩
  change (Plan.construct p (.ref a) ctor args source).Ends p 1 s (.ofValue (.ref a)) s
  have again (env : Env) (trace : Trace) :
      (liftM (Query.eval e ⟨a, p.homeClass ctor⟩ true) : Plan Outcome).Ends p 1
        { s with env, trace } (.ofValue v) { s with env, trace } :=
    Plan.ends_ask.2 (Query.eval_of_kept hv)
  rw [Plan.construct_of_primary primary body, Plan.ends_calledFrom]
  refine ⟨{ s with trace := s.trace.add source }, ?_, rfl⟩
  rw [bind_pure_comp, Plan.ends_map]
  exact ⟨.ofValue v, Plan.ends_inEnv.2 ⟨_, Plan.ends_calledFrom.2 ⟨_, again _ _, rfl⟩, rfl⟩, rfl⟩

/-- After the call of a constructor its body has an entry. -/
theorem Query.isSome_of_construct (primary : (p.symbol ctor).isPrimaryConstructor)
    (body : (p.symbol ctor).body = some e)
    (h : (Query.construct (.ref a) ctor args source).Answered p s o t) :
    (t.cache.find? a e).isSome := by
  obtain ⟨n, h⟩ := h
  cases n with
  | zero => exact absurd h Query.ends_zero
  | succ n =>
    rw [Query.ends_succ] at h
    change (Plan.construct p (.ref a) ctor args source).Ends p n s o t at h
    rw [Plan.construct_of_primary primary body, Plan.ends_calledFrom] at h
    obtain ⟨u, h, rfl⟩ := h
    rw [bind_pure_comp, Plan.ends_map] at h
    obtain ⟨o', h, rfl⟩ := h
    obtain ⟨u, hcall, rfl⟩ := Plan.ends_inEnv.1 h
    obtain ⟨u, hrun, rfl⟩ := Plan.ends_calledFrom.1 hcall
    exact Option.isSome_of_eq_some (Query.eval_kept (Plan.ends_ask.1 hrun))

/-- After a constructor was called on an object, its body has an entry in the cache wherever it is
    called again. -/
theorem Plan.Course.isSome_of_construct (primary : (p.symbol ctor).isPrimaryConstructor)
    (body : (p.symbol ctor).body = some e) (apart : e ∉ p.parts) (course : x.Course p K s log r u)
    (guarded : x.Guarded (fun e' frame => ¬(e' = e ∧ frame.receiver = a)) s) {first later : Event}
    (order : [first, later] <+ log) (called : first.query.Constructs a ctor)
    (outside : ∀ q ∈ first.callers, ¬q.Promotes e a) (again : later.query.Constructs a ctor) :
    (later.store.cache.find? a e).isSome := by
  refine List.pairwise_iff_forall_sublist.1 (lasting (fun K => ∀ q ∈ K, ¬q.Promotes e a)
    (fun e' => e'.query.Constructs a ctor ∧ ∀ q ∈ e'.callers, ¬q.Promotes e a)
    (fun e' => e'.query.Constructs a ctor) (Cache.lasts_entry a e)
    (fun q K h => (List.forall_mem_cons.1 h).2) ?_ (fun _ h => h.2) ?_ ?_ course
    fun _ => guarded).1 order ⟨called, outside⟩ again
  · intro β q K h
    refine (Query.tries_uncached q).mono fun e' frame he => ?_
    rintro ⟨rfl, rfl⟩
    rcases he with he | he
    · exact apart he
    · exact h ⟨q⟩ List.mem_cons_self ⟨frame.cls, he⟩
  · rintro β q s K b t ⟨⟨args, source⟩, -⟩ answered
    exact Query.isSome_of_construct primary body answered
  · rintro β γ q s K q' t active ⟨_, v, K'⟩ ⟨⟨args, source⟩, -⟩ hasks way ⟨args', source'⟩
    have inside : q'.evaluation = [⟨a, e⟩] := Plan.evaluation_of_construct primary body hasks
    have progress := way.evaluation_subset (inside ▸ List.mem_singleton.2 rfl)
    exact Option.isSome_of_eq_some (way.placeholder _ progress)

end Constructors

/-! ## Creations -/

/-- The question is to create an object in this way. -/
inductive Query.Creates (b : Addr) (c : ClassId) (ctor : SymbolId) (args : List Value) :
    {β : Type} → Query β → Prop where
  | mk {values : List ArgValue} (source : Span)
    (h : values.map (fun arg => arg.value.widen) = args) :
    Creates b c ctor args (.create (.ref b) c ctor values source)

section Creations

variable {b : Addr} {c : ClassId} {ctor : SymbolId} {args : List ArgValue} {source : Span}
  {o : Outcome} {w : Warm} {h h' : Heap} {values : List Value}

/-- The heap only grows, so an object that is there remains. -/
theorem Heap.lasts_holds (b : Addr) (c : ClassId) (ctor : SymbolId) (values : List Value)
    (outers : Value → Warm → Prop) :
    Store.Lasts (fun _ _ => True) fun s => ∃ outer w, outers outer w ∧
      s.heap.Holds b c ctor values w where
  mono retains h := by
    obtain ⟨outer, w, fits, holds⟩ := h
    exact ⟨outer, w, fits, holds.of_extends retains.heap⟩
  leave {_ _ _ _ _ t} _ h := by
    rw [Scope.heap_leave]
    exact h

/-- An object that was created is there at every later event. -/
theorem Plan.Course.holds_of_create (hasSource : (p.cls c).hasSource)
    (course : x.Course p K s log r u) (guarded : x.Guarded (fun _ _ => True) s)
    {first later : Event} (order : [first, later] <+ log)
    (created : first.query.Creates b c ctor values) :
    ∃ outer, first.store.heap.rememberedOuter? b = some outer ∧
      later.store.heap.Holds b c ctor values
        (first.store.heap.warmOf ⟨c, outer, ctor, values⟩).1 := by
  have lasts := Heap.lasts_holds b c ctor values fun outer w =>
    first.store.heap.rememberedOuter? b = some outer ∧
      (first.store.heap.warmOf ⟨c, outer, ctor, values⟩).1 = w
  suffices ∃ outer w, (first.store.heap.rememberedOuter? b = some outer ∧
      (first.store.heap.warmOf ⟨c, outer, ctor, values⟩).1 = w) ∧
      later.store.heap.Holds b c ctor values w by
    obtain ⟨outer, _, ⟨remembered, rfl⟩, holds⟩ := this
    exact ⟨outer, remembered, holds⟩
  refine List.pairwise_iff_forall_sublist.1 (lasting (fun _ => True)
    (fun e => e.query.Creates b c ctor values ∧ e.store = first.store) (fun _ => True) lasts
    (fun _ _ _ => trivial) ?_ (fun _ _ => trivial) ?_ ?_ course fun _ => guarded).1 order
    ⟨created, rfl⟩ trivial
  · exact fun q K _ => (Query.tries_uncached q).mono fun _ _ _ => trivial
  · rintro β q s K b t ⟨⟨source, rfl⟩, rfl⟩ answered
    obtain ⟨outer, remembered, holds, -⟩ := Query.holds_of_create hasSource answered
    exact ⟨outer, _, ⟨remembered, rfl⟩, holds⟩
  · rintro β γ q s K q' t active later' ⟨⟨source, rfl⟩, rfl⟩ hasks way -
    obtain ⟨outer, remembered, holds⟩ := Query.holds_of_asks_create hasSource hasks
    exact ⟨outer, _, ⟨remembered, rfl⟩, holds.of_extends way.retains.heap⟩

end Creations

/-! ## Sessions -/

theorem Query.tentative_eq_none {q : Query β} (h : q.evaluation = []) : q.tentative = none := by
  cases q with
  | eval => cases h
  | _ => rfl

/-- A session that evaluates no expressions is guarded. -/
theorem Plan.guarded_session {requests : List Request}
    (questions : ∀ request ∈ requests, request.query.evaluation = [])
    (ok : ExprId → Frame → Prop) : (session requests).Guarded ok s := by
  suffices (session requests).Plain false ∧ (session requests).Tries ok from .plain this.1 this.2
  induction requests with
  | nil => exact ⟨.pure _, .pure _⟩
  | cons request requests ih =>
    obtain ⟨question, rest⟩ := List.forall_mem_cons.1 questions
    obtain ⟨plain, tries⟩ := ih rest
    constructor
    · exact .within _ (.trace .ask) (.within _ trivial (.ask _ .pure) .pure) fun _ => plain
    · exact .within _ (.within _ (.asked _ (Query.tentative_eq_none question)) .pure) fun _ => tries

/-- In every session, a primary constructor that was called on an object is not run again on it: a
    later call returns the object and changes nothing. And once an object was created, it is found
    again when one is created in the same way. This holds from the first call on, while it is in
    progress and afterwards.

    The first call of a constructor counts unless the body of the constructor is just being
    evaluated on the object as the body of a closure. This does not happen where all closures that
    are handed in come from the program. -/
theorem Plan.session_constructs_once (p : Program) {requests : List Request}
    (questions : ∀ request ∈ requests, request.query.evaluation = []) {log : List Event}
    {r : Option Unit} {u : Store}
    (course : (session requests).Course p [] .initial log r u) :
    (∀ a ctor e, (p.symbol ctor).isPrimaryConstructor → (p.symbol ctor).body = some e →
      e ∉ p.parts → ∀ args source t K args' source' t' K', (∀ q ∈ K, ¬q.Promotes e a) →
        [⟨.construct (.ref a) ctor args source, t, K⟩,
          ⟨.construct (.ref a) ctor args' source', t', K'⟩] <+ log →
        (Query.construct (.ref a) ctor args' source').Answered p t' (.ofValue (.ref a)) t') ∧
      (∀ b c ctor, (p.cls c).hasSource → ∀ args source t K args' source' t' K',
        args'.map (fun arg => arg.value.widen) = args.map (fun arg => arg.value.widen) →
        t'.env.isHot →
        [⟨.create (.ref b) c ctor args source, t, K⟩,
          ⟨.create (.ref b) c ctor args' source', t', K'⟩] <+ log →
        ∃ outer w, t.heap.rememberedOuter? b = some outer ∧
          (t.heap.warmOf ⟨c, outer, ctor, args.map fun arg => arg.value.widen⟩).1 = w ∧
          (∀ o s', (Query.create (.ref b) c ctor args source).Answered p t o s' → t.env.isHot →
            o.value = .ref (.warm w)) ∧
          (Query.create (.ref b) c ctor args' source').Answered p t' (.ofValue (.ref (.warm w)))
            t') ∧
      ((∀ request ∈ requests, request.In (.ofProgram p)) → ∀ event ∈ log, ∀ q ∈ event.callers,
        ∀ a e, e ∉ p.parts → ¬q.Promotes e a) := by
  refine ⟨?constructed, ?created, ?outside⟩
  case constructed =>
    intro a ctor e primary body apart args source t K args' source' t' K' outside order
    have kept := course.isSome_of_construct primary body apart (guarded_session questions _) order
      ⟨args, source⟩ outside ⟨args', source'⟩
    exact Query.construct_again primary body kept
  case created =>
    intro b c ctor hasSource args source t K args' source' t' K' same hot order
    obtain ⟨outer, remembered, holds⟩ := course.holds_of_create hasSource
      (guarded_session questions _) order ⟨source, rfl⟩
    refine ⟨outer, _, remembered, rfl, fun o s' answered hot => ?_, ?_⟩
    · obtain ⟨outer', remembered', -, value⟩ := Query.holds_of_create hasSource answered
      cases remembered.symm.trans remembered'
      exact value.trans (if_pos hot)
    · rw [← same] at holds ⊢
      exact Query.create_again hasSource holds hot
  case outside =>
    rintro handed event logged q caller a e apart ⟨c, runs⟩
    exact apart (session_promotes_parts handed course logged caller runs)

/-! ### A class whose body calls its constructor -/

/-- A class `O` with a field `late` and a member class `W`. The body of `W` calls the constructor of
    `W`; a second constructor of `W` does not. -/
def callsItself : Program := .ofCommands [
  .defineClass "O" .package .none true,
  .defineClass "W" (.cls ⟨4⟩) .none true,
  .defineField ⟨4⟩ "late" .value,
  .defineConstructor ⟨5⟩ [],
  .literal,
  .setBody ⟨17⟩ ⟨5⟩,
  .constructorCall ⟨5⟩ ⟨15⟩ [],
  .appendStat ⟨5⟩ ⟨7⟩]

namespace callsItself

/-- The first instance of `W`. -/
def w : Addr := .warm ⟨⟨5⟩, 0⟩

/-- Creates an instance of `W` in the object of `O` that is under construction. -/
def createW (ctor : SymbolId) : Request := ⟨.create (.ref (.thisOf ⟨4⟩)) ⟨5⟩ ctor [] .empty, {}⟩

/-- Calls the first constructor on the instance of `W`. -/
def constructW : Request := ⟨.construct (.ref w) ⟨15⟩ [] .empty, {}⟩

/-- The first constructor is called again, and another instance of `W` is created. -/
def repetition : List Request := [createW ⟨15⟩, constructW, createW ⟨15⟩]

/-- Promotes a closure on the instance of `W`, whose body is that of the first constructor. -/
def promoteBody : Request := ⟨.promote (.closure ⟨2⟩ [] ⟨w, ⟨5⟩⟩ .empty) "m" .empty, {}⟩

end callsItself

/-- The first constructor is called on the instance of `W`, without arguments. -/
def Event.isConstructW : Event → Bool
  | ⟨.construct (.ref a) ctor [] _, _, _⟩ => a == callsItself.w && ctor == ⟨15⟩
  | _ => false

/-- An instance of `W` is created by the first constructor, without arguments and in a hot
    environment. -/
def Event.isCreateW : Event → Bool
  | ⟨.create (.ref a) c ctor [] _, s, _⟩ =>
    a == .thisOf ⟨4⟩ && c == ⟨5⟩ && ctor == ⟨15⟩ && s.env.isHot
  | _ => false

theorem Event.of_isConstructW {e : Event} (h : e.isConstructW) :
    ∃ source t, e = ⟨.construct (.ref callsItself.w) ⟨15⟩ [] source, t, e.callers⟩ := by
  unfold isConstructW at h
  split at h
  · next a ctor source t K =>
    simp only [Bool.and_eq_true, beq_iff_eq] at h
    obtain ⟨rfl, rfl⟩ := h
    exact ⟨source, t, rfl⟩
  · cases h

theorem Event.of_isCreateW {e : Event} (h : e.isCreateW) : ∃ source t K,
    e = ⟨.create (.ref (.thisOf ⟨4⟩)) ⟨5⟩ ⟨15⟩ [] source, t, K⟩ ∧ t.env.isHot := by
  unfold isCreateW at h
  split at h
  · next a c ctor source t K =>
    simp only [Bool.and_eq_true, beq_iff_eq] at h
    obtain ⟨⟨⟨rfl, rfl⟩, rfl⟩, hot⟩ := h
    exact ⟨source, t, K, rfl, hot⟩
  · cases h

/-- Two events that pass a test follow each other in the log. -/
theorem Event.exists_pair {test : Event → Bool} (h : 2 ≤ (log.filter test).length) :
    ∃ e e', test e ∧ test e' ∧ [e, e'] <+ log := by
  match hlog : log.filter test with
  | e :: e' :: rest =>
    have passed : ∀ x ∈ e :: e' :: rest, test x := fun x hx => by
      rw [← hlog] at hx
      exact (List.mem_filter.1 hx).2
    have sub : [e, e'] <+ log.filter test := by
      rw [hlog]
      exact (List.nil_sublist rest).cons_cons _ |>.cons_cons _
    exact ⟨e, e', passed e (by simp), passed e' (by simp), sub.trans List.filter_sublist⟩
  | [e] => simp [hlog] at h
  | [] => simp [hlog] at h

/-- An instance of `W` is created, whose body calls the constructor again. Then the constructor is
    called once more, and another instance is created in the same way. -/
theorem Plan.session_constructs_once_callsItself :
    ∃ log u, (session callsItself.repetition).Course callsItself [] .initial log (some ()) u ∧
      (∃ source t K source' t' K',
        [⟨.construct (.ref callsItself.w) ⟨15⟩ [] source, t, K⟩,
          ⟨.construct (.ref callsItself.w) ⟨15⟩ [] source', t', K'⟩] <+ log ∧
        (Query.construct (.ref callsItself.w) ⟨15⟩ [] source').Answered callsItself t'
          (.ofValue (.ref callsItself.w)) t') ∧
      ∃ source t K source' t' K' w,
        [⟨.create (.ref (.thisOf ⟨4⟩)) ⟨5⟩ ⟨15⟩ [] source, t, K⟩,
          ⟨.create (.ref (.thisOf ⟨4⟩)) ⟨5⟩ ⟨15⟩ [] source', t', K'⟩] <+ log ∧
        (Query.create (.ref (.thisOf ⟨4⟩)) ⟨5⟩ ⟨15⟩ [] source').Answered callsItself t'
          (.ofValue (.ref (.warm w))) t' := by
  obtain ⟨log, ⟨⟩, u, course, counted⟩ := exists_course_of_log? (p := callsItself) (n := 30)
    (K := []) (s := .initial) (x := session callsItself.repetition)
    (fun log _ _ => 2 ≤ (log.filter Event.isConstructW).length &&
      2 ≤ (log.filter Event.isCreateW).length) (by decide +kernel)
  simp only [Bool.and_eq_true, decide_eq_true_eq] at counted
  have questions : ∀ request ∈ callsItself.repetition, request.query.evaluation = [] := by
    simp [callsItself.repetition, callsItself.createW, callsItself.constructW, Query.evaluation]
  obtain ⟨constructed, created, outside⟩ := session_constructs_once callsItself questions course
  have handed : ∀ request ∈ callsItself.repetition, request.In (.ofProgram callsItself) := by
    simp only [callsItself.repetition, List.forall_mem_cons]
    have created : (callsItself.createW ⟨15⟩).In (.ofProgram callsItself) :=
      ⟨⟨.ref _, Universe.args_nil⟩, .empty, trivial⟩
    exact ⟨created, ⟨⟨.ref _, Universe.args_nil⟩, .empty, trivial⟩, created, nofun⟩
  refine ⟨log, u, course, ?_, ?_⟩
  · obtain ⟨e, e', he, he', order⟩ := Event.exists_pair counted.1
    have outside := outside handed e (order.subset (.head _))
    obtain ⟨source, t, he⟩ := Event.of_isConstructW he
    obtain ⟨source', t', he'⟩ := Event.of_isConstructW he'
    rw [he, he'] at order
    exact ⟨source, t, _, source', t', _, order, constructed _ _ ⟨2⟩ (by decide +kernel)
      (by decide +kernel) (by decide +kernel) _ _ _ _ _ _ _ _
      (fun q hq => outside q hq _ _ (by decide +kernel)) order⟩
  · obtain ⟨e, e', he, he', order⟩ := Event.exists_pair counted.2
    obtain ⟨source, t, K, rfl, -⟩ := Event.of_isCreateW he
    obtain ⟨source', t', K', rfl, hot⟩ := Event.of_isCreateW he'
    obtain ⟨outer, w, -, -, -, answered⟩ := created _ _ _ (by decide +kernel) _ _ _ _ _ _ _ _ rfl
      hot order
    exact ⟨source, t, K, source', t', K', w, order, answered⟩

/-! ### A closure whose body is that of a constructor -/

/-- Another question is asked at the end of a session. -/
theorem Plan.Course.session_snoc {requests : List Request} {a : Unit}
    (h : (session requests).Course p K s log (some a) u) (request : Request) :
    (session (requests ++ [request])).Course p K s
      (log ++ [⟨request.query, { u with toContext := request.context }, K⟩]) none
      { u with toContext := request.context } := by
  induction requests generalizing s log with
  | nil =>
    cases h
    exact .inside (.inside (.asking (.stop _ _ _)))
  | cons first requests ih =>
    cases h with
    | left hfirst rest =>
      rw [List.append_assoc]
      exact .left hfirst (ih rest)

/-- In `callsItself` the body of each primary constructor is the template of its class and occurs
    nowhere else. -/
theorem callsItself.body_apart (x : SymbolId) (e : ExprId)
    (primary : (callsItself.symbol x).isPrimaryConstructor)
    (body : (callsItself.symbol x).body = some e) :
    (callsItself.expr e).node = .template (callsItself.homeClass x) ∧ e ∉ callsItself.parts ∧
      ∀ y, (callsItself.symbol y).body = some e → y = x := by
  have inTable {y : SymbolId} (h : (callsItself.symbol y).body = some e) :
      y.index < callsItself.symbols.size := by
    by_contra outside
    rw [Program.symbol, Array.getD, dif_neg outside] at h
    cases h
  have bodies : ∀ i < callsItself.symbols.size, (callsItself.symbol ⟨i⟩).isPrimaryConstructor →
      ∀ e ∈ (callsItself.symbol ⟨i⟩).body.toList,
        (callsItself.expr e).node = .template (callsItself.homeClass ⟨i⟩) ∧ e ∉ callsItself.parts ∧
          ∀ j < callsItself.symbols.size, (callsItself.symbol ⟨j⟩).body = some e → j = i := by
    decide +kernel
  obtain ⟨node, apart, only⟩ := bodies x.index (inTable body) primary e
    (Option.mem_toList.2 body)
  refine ⟨node, apart, ?_⟩
  rintro ⟨j⟩ hj
  rw [only j (inTable hj) hj]

/-- A constructor that was called on an object runs again, if the first call was made while its body
    was tried out as that of a closure. Then there is no answer, because the outers of the parents
    cannot be recorded twice. -/
theorem Plan.session_constructs_again :
    (∀ x e, (callsItself.symbol x).isPrimaryConstructor → (callsItself.symbol x).body = some e →
      (callsItself.expr e).node = .template (callsItself.homeClass x) ∧ e ∉ callsItself.parts ∧
        ∀ y, (callsItself.symbol y).body = some e → y = x) ∧
    ∃ log u source t K t',
      (session [callsItself.createW ⟨17⟩, callsItself.promoteBody, callsItself.constructW]).Course
        callsItself [] .initial log none u ∧
      [⟨.construct (.ref callsItself.w) ⟨15⟩ [] source, t, K⟩,
        ⟨.construct (.ref callsItself.w) ⟨15⟩ [] .empty, t', []⟩] <+ log ∧
      ∀ o s',
        ¬(Query.construct (.ref callsItself.w) ⟨15⟩ [] .empty).Answered callsItself t' o s' := by
  obtain ⟨log, ⟨⟩, u, course, found⟩ := exists_course_of_log? (p := callsItself) (n := 30)
    (K := []) (s := .initial) (x := session [callsItself.createW ⟨17⟩, callsItself.promoteBody])
    (fun log _ u => log.any Event.isConstructW &&
      (callsItself.constructW.query.fault? callsItself 30
        { u with toContext := callsItself.constructW.context }).isSome) (by decide +kernel)
  simp only [Bool.and_eq_true, List.any_eq_true] at found
  obtain ⟨⟨e, he, call⟩, fault⟩ := found
  obtain ⟨source, t, call⟩ := Event.of_isConstructW call
  obtain ⟨f, hf⟩ := Option.isSome_iff_exists.1 fault
  have order := (List.singleton_sublist.2 he).append (List.Sublist.refl
    [⟨callsItself.constructW.query, { u with toContext := callsItself.constructW.context }, []⟩])
  rw [call] at order
  exact ⟨callsItself.body_apart, _, _, source, t, _, _,
    course.session_snoc callsItself.constructW, order, fun _ _ => Query.not_answered_of_fault? hf⟩

end ObjectInit
