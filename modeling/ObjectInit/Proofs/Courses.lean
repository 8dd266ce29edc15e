import ObjectInit.Proofs.Entries

/-!
# The course of an analysis

`Plan.Course` carries out a plan up to some point, which need not be its end, and logs the questions
that are asked on the way, at every depth and in the order in which they are asked. Each of these
events tells in which store a question is asked and which questions are in progress then. So the log
tells what is earlier and what is later in an analysis, whether or not the earlier questions have
been answered by the time of the later ones.

Main results:

* `Plan.exists_course_iff`: the plans whose course comes to an end are those that end.
* `Plan.Course.way`: an event in the log is on the way of a question of the plan.
* `Plan.Course.asks`: the events that no further question leads to are those of the plan itself.
* `Plan.course_of_record`: logs can be computed.
-/

namespace ObjectInit

/-- A question, whatever the type of its answers. -/
structure Question where
  {β : Type}
  query : Query β

/-- A question is asked. -/
structure Event where
  {β : Type}
  query : Query β
  store : Store
  /-- The questions in progress, the innermost first. -/
  callers : List Question

/-- Carried out in the first store, while the questions in the list are in progress, the plan has
    led to the events in the log and to the second store. There is an answer if this is its end. -/
inductive Plan.Course (p : Program) : {α : Type} → Plan α → List Question → Store → List Event →
    Option α → Store → Prop where
  /-- The plan is not followed any further. -/
  | stop {α : Type} (x : Plan α) (K : List Question) (s : Store) : Course p x K s [] none s
  | done {α : Type} (a : α) (K : List Question) (s : Store) : Course p (.pure a) K s [] (some a) s
  | asking {α β : Type} {q : Query β} {next : β → Plan α} {K : List Question} {s u : Store}
    {log : List Event} (h : Course p (q.plan p) (⟨q⟩ :: K) s log none u) :
    Course p (.ask q next) K s (⟨q, s, K⟩ :: log) none u
  | asked {α β : Type} {q : Query β} {next : β → Plan α} {K : List Question} {s t u : Store} {b : β}
    {log log' : List Event} {r : Option α}
    (hq : Course p (q.plan p) (⟨q⟩ :: K) s log (some b) t) (h : Course p (next b) K t log' r u) :
    Course p (.ask q next) K s (⟨q, s, K⟩ :: (log ++ log')) r u
  | performed {α β : Type} {effect : Effect β} {next : β → Plan α} {K : List Question}
    {s t u : Store} {b : β} {log : List Event} {r : Option α}
    (heffect : effect.run.run s = .ok (b, t)) (h : Course p (next b) K t log r u) :
    Course p (.perform effect next) K s log r u
  | inside {α β : Type} {scope : Scope β} {part : Plan β} {next : β → Plan α} {K : List Question}
    {s u : Store} {log : List Event} (h : Course p part K (scope.enter s) log none u) :
    Course p (.within scope part next) K s log none u
  | left {α β : Type} {scope : Scope β} {part : Plan β} {next : β → Plan α} {K : List Question}
    {s t u : Store} {b : β} {log log' : List Event} {r : Option α}
    (hpart : Course p part K (scope.enter s) log (some b) t)
    (h : Course p (next b) K (scope.leave s.toContext b t) log' r u) :
    Course p (.within scope part next) K s (log ++ log') r u

variable {p : Program} {n : Nat} {α β γ : Type} {s s' t u : Store} {K : List Question}
  {log : List Event} {r : Option α} {x : Plan α} {a : α}

namespace Plan.Course

/-- A course that comes to an end is that of a plan that ends. -/
theorem ends (h : x.Course p K s log r u) (ended : r = some a) : ∃ n, x.Ends p n s a u := by
  induction h with
  | stop | asking | inside => cases ended
  | done =>
    cases ended
    exact ⟨0, ends_pure.2 ⟨rfl, rfl⟩⟩
  | asked _ _ ihq ih =>
    obtain ⟨n, hn⟩ := ihq rfl
    obtain ⟨m, hm⟩ := ih ended
    have hq := (Query.ends_succ.2 hn).mono (Nat.le_max_left (n + 1) m)
    exact ⟨_, ends_ask_next.2 ⟨_, _, hq, hm.mono (Nat.le_max_right (n + 1) m)⟩⟩
  | performed heffect _ ih =>
    obtain ⟨n, hn⟩ := ih ended
    exact ⟨n, ends_perform_next.2 ⟨_, _, heffect, hn⟩⟩
  | left _ _ ihPart ih =>
    obtain ⟨n, hn⟩ := ihPart rfl
    obtain ⟨m, hm⟩ := ih ended
    exact ⟨max n m, ends_within.2
      ⟨_, _, hn.mono (Nat.le_max_left n m), hm.mono (Nat.le_max_right n m)⟩⟩

/-- The question whose plan comes to an end is answered. -/
theorem answered {q : Query β} {b : β} (h : (q.plan p).Course p K s log (some b) u) :
    q.Answered p s b u := by
  obtain ⟨n, hn⟩ := h.ends rfl
  exact ⟨n + 1, Query.ends_succ.2 hn⟩

/-- An event is on the way of a question that the plan asks. -/
theorem way (h : x.Course p K s log r u) : ∀ e ∈ log, ∃ (γ : Type) (q : Query γ) (t : Store)
    (active : List Cache.Key), x.Asks p s q t ∧ q.Way p t active e.query e.store := by
  induction h with
  | stop | done => nofun
  | @asking _ _ q _ _ s _ _ _ ih =>
    intro e he
    rcases List.mem_cons.1 he with rfl | he
    · exact ⟨_, q, s, [], .here, .start⟩
    · obtain ⟨γ, r, t, active, hasks, way⟩ := ih e he
      exact ⟨_, q, s, _, .here, (Query.Way.asked .start hasks).trans way⟩
  | @asked _ _ q _ _ s _ _ _ _ _ _ hq _ ihq ih =>
    obtain ⟨n, hn⟩ := hq.answered
    intro e he
    rcases List.mem_cons.1 he with rfl | he
    · exact ⟨_, q, s, [], .here, .start⟩
    rcases List.mem_append.1 he with he | he
    · obtain ⟨γ, r, t, active, hasks, way⟩ := ihq e he
      exact ⟨_, q, s, _, .here, (Query.Way.asked .start hasks).trans way⟩
    · obtain ⟨γ, r, t, active, hasks, way⟩ := ih e he
      exact ⟨γ, r, t, active, .afterAsk hn hasks, way⟩
  | performed heffect _ ih =>
    intro e he
    obtain ⟨γ, r, t, active, hasks, way⟩ := ih e he
    exact ⟨γ, r, t, active, .afterEffect heffect hasks, way⟩
  | inside _ ih =>
    intro e he
    obtain ⟨γ, r, t, active, hasks, way⟩ := ih e he
    exact ⟨γ, r, t, active, .inside hasks, way⟩
  | left hpart _ ihPart ih =>
    obtain ⟨n, hn⟩ := hpart.ends rfl
    intro e he
    rcases List.mem_append.1 he with he | he
    · obtain ⟨γ, r, t, active, hasks, way⟩ := ihPart e he
      exact ⟨γ, r, t, active, .inside hasks, way⟩
    · obtain ⟨γ, r, t, active, hasks, way⟩ := ih e he
      exact ⟨γ, r, t, active, .afterScope hn hasks, way⟩

/-- The questions that were in progress at the start are in progress at every event. -/
theorem callers (h : x.Course p K s log r u) : ∀ e ∈ log, K <:+ e.callers := by
  induction h with
  | stop | done => nofun
  | asking _ ih =>
    intro e he
    rcases List.mem_cons.1 he with rfl | he
    · exact List.suffix_rfl
    · exact (List.suffix_cons _ _).trans (ih e he)
  | asked _ _ ihq ih =>
    intro e he
    rcases List.mem_cons.1 he with rfl | he
    · exact List.suffix_rfl
    rcases List.mem_append.1 he with he | he
    · exact (List.suffix_cons _ _).trans (ihq e he)
    · exact ih e he
  | performed _ _ ih | inside _ ih => exact ih
  | left _ _ ihPart ih =>
    intro e he
    rcases List.mem_append.1 he with he | he
    · exact ihPart e he
    · exact ih e he

/-- The asking of a question that is in progress was logged, unless it was in progress at the
    start. -/
theorem caller_logged (h : x.Course p K s log r u) :
    ∀ e ∈ log, ∀ q ∈ e.callers, q ∈ K ∨ ∃ e' ∈ log, q = ⟨e'.query⟩ := by
  induction h with
  | stop | done => nofun
  | asking _ ih =>
    intro e he q hq
    rcases List.mem_cons.1 he with rfl | he
    · exact .inl hq
    rcases ih e he q hq with hK | ⟨e', he', same⟩
    · rcases List.mem_cons.1 hK with rfl | hK
      · exact .inr ⟨_, List.mem_cons_self, rfl⟩
      · exact .inl hK
    · exact .inr ⟨e', List.mem_cons_of_mem _ he', same⟩
  | asked _ _ ihq ih =>
    intro e he q hq
    rcases List.mem_cons.1 he with rfl | he
    · exact .inl hq
    rcases List.mem_append.1 he with he | he
    · rcases ihq e he q hq with hK | ⟨e', he', same⟩
      · rcases List.mem_cons.1 hK with rfl | hK
        · exact .inr ⟨_, List.mem_cons_self, rfl⟩
        · exact .inl hK
      · exact .inr ⟨e', List.mem_cons_of_mem _ (List.mem_append_left _ he'), same⟩
    · refine (ih e he q hq).imp_right fun ⟨e', he', same⟩ => ⟨e', ?_, same⟩
      exact List.mem_cons_of_mem _ (List.mem_append_right _ he')
  | performed _ _ ih | inside _ ih => exact ih
  | left _ _ ihPart ih =>
    intro e he q hq
    rcases List.mem_append.1 he with he | he
    · exact (ihPart e he q hq).imp_right fun ⟨e', he', same⟩ =>
        ⟨e', List.mem_append_left _ he', same⟩
    · exact (ih e he q hq).imp_right fun ⟨e', he', same⟩ =>
        ⟨e', List.mem_append_right _ he', same⟩

/-- The plan itself asks the questions at the events where no further question is in progress. -/
theorem asks (h : x.Course p K s log r u) :
    ∀ e ∈ log, e.callers.length = K.length → x.Asks p s e.query e.store := by
  have nested {K : List Question} {q : Question} {e : Event} (callers : q :: K <:+ e.callers)
      (same : e.callers.length = K.length) : False := by
    have longer := callers.length_le
    rw [List.length_cons, same] at longer
    exact Nat.not_succ_le_self _ longer
  induction h with
  | stop | done => nofun
  | asking h _ =>
    intro e he same
    rcases List.mem_cons.1 he with rfl | he
    · exact .here
    · exact (nested (h.callers e he) same).elim
  | asked hq _ _ ih =>
    obtain ⟨n, hn⟩ := hq.answered
    intro e he same
    rcases List.mem_cons.1 he with rfl | he
    · exact .here
    rcases List.mem_append.1 he with he | he
    · exact (nested (hq.callers e he) same).elim
    · exact .afterAsk hn (ih e he same)
  | performed heffect _ ih => exact fun e he same => .afterEffect heffect (ih e he same)
  | inside _ ih => exact fun e he same => .inside (ih e he same)
  | left hpart _ ihPart ih =>
    obtain ⟨n, hn⟩ := hpart.ends rfl
    intro e he same
    rcases List.mem_append.1 he with he | he
    · exact .inside (ihPart e he same)
    · exact .afterScope hn (ih e he same)

end Plan.Course

/-- A plan that ends has a course to its end, if the questions that it asks have one. -/
theorem Plan.Ends.exists_course_of
    (hq : ∀ {β : Type} (q : Query β) s b t, q.Ends p n s b t →
      ∃ log, (q.plan p).Course p (⟨q⟩ :: K) s log (some b) t)
    (h : x.Ends p n s a u) : ∃ log, x.Course p K s log (some a) u := by
  induction x generalizing s u with
  | pure =>
    obtain ⟨rfl, rfl⟩ := ends_pure.1 h
    exact ⟨[], .done a K u⟩
  | ask q next ih =>
    obtain ⟨b, t, hb, rest⟩ := ends_ask_next.1 h
    obtain ⟨log, hlog⟩ := hq q s b t hb
    obtain ⟨log', hlog'⟩ := ih b rest
    exact ⟨_, .asked hlog hlog'⟩
  | perform effect next ih =>
    obtain ⟨b, t, hb, rest⟩ := ends_perform_next.1 h
    obtain ⟨log, hlog⟩ := ih b rest
    exact ⟨log, .performed hb hlog⟩
  | within scope part next ihPart ih =>
    obtain ⟨b, t, hpart, rest⟩ := ends_within.1 h
    obtain ⟨log, hlog⟩ := ihPart hpart
    obtain ⟨log', hlog'⟩ := ih b rest
    exact ⟨_, .left hlog hlog'⟩

theorem Query.Ends.exists_course {q : Query β} {b : β} (h : q.Ends p n s b t)
    (K : List Question) : ∃ log, (q.plan p).Course p K s log (some b) t := by
  induction n generalizing β K s b t with
  | zero => exact absurd h ends_zero
  | succ n ih => exact (ends_succ.1 h).exists_course_of fun q s b t h => ih h (⟨q⟩ :: K)

/-- The plans whose course comes to an end are those that end. -/
theorem Plan.exists_course_iff :
    (∃ log, x.Course p K s log (some a) u) ↔ ∃ n, x.Ends p n s a u := by
  constructor
  · rintro ⟨log, h⟩
    exact h.ends rfl
  · rintro ⟨n, h⟩
    exact h.exists_course_of fun q s b t h => h.exists_course (⟨q⟩ :: K)

/-! ## Sessions -/

/-- A question with the context in which it is asked. -/
structure Request where
  {β : Type}
  query : Query β
  context : Context := {}

/-- Asks one question after the other, each in its own context. -/
def Plan.session : List Request → Plan Unit
  | [] => .pure ()
  | request :: requests =>
    .within (.env request.context.env)
      (.within (.trace request.context.trace) (.ask request.query .pure) .pure)
      fun _ => session requests

/-! ## Computed logs -/

/-- The log of a plan that comes to an end, with its answer and the store at the end, given those of
    the questions that it asks. -/
def Plan.record (record : {β : Type} → Query β → Store → Option (List Event × β × Store)) :
    {α : Type} → Plan α → Store → Option (List Event × α × Store)
  | _, .pure a, s => some ([], a, s)
  | _, .ask q next, s => do
    let (log, b, t) ← record q s
    let (log', a, u) ← Plan.record record (next b) t
    return (log ++ log', a, u)
  | _, .perform effect next, s =>
    match effect.run.run s with
    | .ok (b, t) => Plan.record record (next b) t
    | .error _ => none
  | _, .within scope part next, s => do
    let (log, b, t) ← Plan.record record part (scope.enter s)
    let (log', a, u) ← Plan.record record (next b) (scope.leave s.toContext b t)
    return (log ++ log', a, u)

/-- The log of a question that is answered with questions nested up to the given depth. -/
def Query.record (p : Program) : {β : Type} → Nat → List Question → Query β → Store →
    Option (List Event × β × Store)
  | _, 0, _, _, _ => none
  | _, n + 1, K, q, s => do
    let (log, b, t) ← (q.plan p).record (fun r t => Query.record p n (⟨q⟩ :: K) r t) s
    return (⟨q, s, K⟩ :: log, b, t)

/-- The log of a plan whose questions are nested up to the given depth. -/
def Plan.log? (p : Program) (n : Nat) (K : List Question) (x : Plan α) (s : Store) :
    Option (List Event × α × Store) :=
  x.record (fun q t => q.record p n K t) s

/-- If the computed logs of questions are those of their courses, so are those of plans. -/
theorem Plan.course_of_record
    {record : {β : Type} → Query β → Store → Option (List Event × β × Store)}
    (hq : ∀ {β : Type} (q : Query β) s log b t, record q s = some (log, b, t) →
      ∃ log', log = ⟨q, s, K⟩ :: log' ∧ (q.plan p).Course p (⟨q⟩ :: K) s log' (some b) t)
    (h : x.record record s = some (log, a, u)) : x.Course p K s log (some a) u := by
  induction x generalizing s log u with
  | pure b =>
    cases h
    exact .done b K s
  | ask q next ih =>
    obtain ⟨⟨log₁, b, t⟩, hb, rest⟩ := Option.bind_eq_some_iff.1 h
    obtain ⟨⟨log₂, c, v⟩, hnext, last⟩ := Option.bind_eq_some_iff.1 rest
    cases last
    obtain ⟨log', rfl, course⟩ := hq q s log₁ b t hb
    exact .asked course (ih b hnext)
  | perform effect next ih =>
    unfold Plan.record at h
    split at h
    · next b t hb => exact .performed hb (ih b h)
    · cases h
  | within scope part next ihPart ih =>
    obtain ⟨⟨log₁, b, t⟩, hpart, rest⟩ := Option.bind_eq_some_iff.1 h
    obtain ⟨⟨log₂, c, v⟩, hnext, last⟩ := Option.bind_eq_some_iff.1 rest
    cases last
    exact .left (ihPart hpart) (ih b hnext)

theorem Query.course_of_record {q : Query β} {b : β} (h : q.record p n K s = some (log, b, t)) :
    ∃ log', log = ⟨q, s, K⟩ :: log' ∧ (q.plan p).Course p (⟨q⟩ :: K) s log' (some b) t := by
  induction n generalizing β K s log b t with
  | zero => cases h
  | succ n ih =>
    obtain ⟨⟨log', c, v⟩, hplan, last⟩ := Option.bind_eq_some_iff.1 h
    cases last
    exact ⟨log', rfl, Plan.course_of_record (fun q s log b t h => ih h) hplan⟩

/-- A log that is computed is that of a course to the end. -/
theorem Plan.course_of_log? (h : x.log? p n K s = some (log, a, u)) :
    x.Course p K s log (some a) u :=
  course_of_record (fun _ _ _ _ _ h => Query.course_of_record h) h

/-- A computed log that passes a test is that of a course whose log passes it. -/
theorem Plan.exists_course_of_log? (test : List Event → α → Store → Bool)
    (h : (x.log? p n K s).any fun r => test r.1 r.2.1 r.2.2) :
    ∃ log a u, x.Course p K s log (some a) u ∧ test log a u := by
  cases hr : x.log? p n K s with
  | none =>
    rw [hr] at h
    cases h
  | some r =>
    rw [hr] at h
    exact ⟨_, _, _, course_of_log? hr, h⟩

/-- The events on the way of a question, if the depth is enough for an answer. -/
def Query.events (p : Program) (n : Nat) (q : Query β) (s : Store) : List Event :=
  match q.record p n [] s with
  | some (log, _) => log.tail
  | none => []

theorem Query.way_of_mem_events {q : Query β} {e : Event} (h : e ∈ q.events p n s) :
    (∃ active, q.Way p s active e.query e.store) ∧
      (e.callers.length = 1 → (q.plan p).Asks p s e.query e.store) := by
  unfold events at h
  split at h
  · next hr =>
    obtain ⟨log, rfl, course⟩ := course_of_record hr
    obtain ⟨_, _, _, _, hasks, way⟩ := course.way e h
    exact ⟨⟨_, (Query.Way.asked .start hasks).trans way⟩, course.asks e h⟩
  · cases h

/-- A question that runs code. -/
inductive Step where
  | eval (e : ExprId) (frame : Frame) (final : Bool)
  | template (c : ClassId) (a : Addr)
  | body (c : ClassId) (a : Addr)
  deriving DecidableEq

def Step.question : Step → Question
  | eval e frame final => ⟨.eval e frame final⟩
  | template c a => ⟨.template c a⟩
  | body c a => ⟨.body c a⟩

def Query.step? : {β : Type} → Query β → Option Step
  | _, .eval e frame final => some (.eval e frame final)
  | _, .template c a => some (.template c a)
  | _, .body c a => some (.body c a)
  | _, _ => none

theorem Query.eq_question {q : Query β} {step : Step} (h : q.step? = some step) :
    ⟨q⟩ = step.question := by
  cases q <;> cases h <;> rfl

/-- The stores in which the question itself takes a step. -/
def Query.asking (p : Program) (n : Nat) (q : Query β) (s : Store) (step : Step) : List Store :=
  ((q.events p n s).filter fun e => e.callers.length == 1 && e.query.step? == some step).map
    Event.store

theorem Query.asks_of_mem_asking {q : Query β} {step : Step} (h : t ∈ q.asking p n s step) :
    (q.plan p).Asks p s step.question.query t := by
  obtain ⟨e, he, rfl⟩ := List.mem_map.1 h
  obtain ⟨he, test⟩ := List.mem_filter.1 he
  obtain ⟨own, taken⟩ := Bool.and_eq_true_iff.1 test
  rw [← eq_question (beq_iff_eq.1 taken)]
  exact (way_of_mem_events he).2 (beq_iff_eq.1 own)

end ObjectInit
