import ObjectInit.Proofs.Additions
import ObjectInit.Proofs.Errors
import ObjectInit.Proofs.Plain

/-!
# The entries of the cache

An evaluation enters a placeholder into the cache and takes it out again or replaces it by the
value. Whatever else goes on meanwhile leaves the entries as they are, so at any time the cache
holds the placeholders of the evaluations in progress and, besides, only entries that stay.

Main results:

* `Query.Way.placeholder`: the evaluations in progress have placeholders.
* `Query.Ends.new_entry`: a new entry is the value of a final evaluation on the way.
* `Query.cache_protocol`: what becomes of the entries of the cache.
-/

namespace ObjectInit

/-! ## Caches -/

/-- Every entry of the first cache is in the second one, with the same value. -/
def Cache.Extends (c c' : Cache) : Prop := ∀ a e v, c.find? a e = some v → c'.find? a e = some v

namespace Cache

variable {c c' c'' : Cache} {a : Addr} {e : ExprId} {v : Value}

theorem Extends.refl (c : Cache) : c.Extends c := fun _ _ _ h => h

theorem Extends.trans (h : c.Extends c') (h' : c'.Extends c'') : c.Extends c'' :=
  fun a e v hv => h' a e v (h a e v hv)

/-- An entry that is there before another one is made is a different one. -/
theorem ne_of_find? (miss : c.find? a e = none) {b : Addr} {g : ExprId}
    (hit : c.find? b g = some v) : ¬(b = a ∧ g = e) := by
  rintro ⟨rfl, rfl⟩
  rw [miss] at hit
  cases hit

theorem extends_insert (miss : c.find? a e = none) (v : Value) : c.Extends (c.insert a e v) := by
  intro b g w hw
  rw [find?_insert, if_neg (ne_of_find? miss hw), hw]

end Cache

variable {p : Program} {n : Nat} {α β γ : Type} {s s' t : Store}

/-! ## Plain plans -/

namespace Scope

variable {scope : Scope β} {part : Plan β}

theorem cache_enter (admits : scope.Admits part) (s : Store) : (scope.enter s).cache = s.cache := by
  cases scope with
  | evaluation => exact absurd admits id
  | _ => rfl

theorem cache_leave (admits : scope.Admits part) (context : Context) (b : β) (s : Store) :
    (scope.leave context b s).cache = s.cache := by
  cases scope with
  | evaluation => exact absurd admits id
  | env | trace => rfl
  | promotion v =>
    rw [leave]
    split <;> rfl

end Scope

namespace Plan.Plain

variable {writes : Bool} {x : Plan α} {a : α} {q : Query γ}

/-- A plain plan leaves the entries of the cache as they are. -/
theorem cache_extends (plain : x.Plain writes) (h : x.Ends p n s a s') :
    s.cache.Extends s'.cache := by
  induction plain generalizing s s' with
  | pure =>
    obtain ⟨-, rfl⟩ := ends_pure.1 h
    exact .refl _
  | ask q _ ih =>
    obtain ⟨b, t, hb, h⟩ := ends_ask_next.1 h
    have first : s.cache.Extends t.cache := hb.keeps.cached
    exact first.trans (ih b h)
  | perform effect _ _ ih =>
    obtain ⟨b, t, hb, h⟩ := ends_perform_next.1 h
    rw [← (Effect.run_frame hb).2]
    exact ih b h
  | within scope admits _ _ ihPart ih =>
    obtain ⟨b, t, hpart, h⟩ := ends_within.1 h
    have inside := ihPart hpart
    rw [Scope.cache_enter admits, ← Scope.cache_leave admits s.toContext b t] at inside
    exact inside.trans (ih b h)

/-- Where a plain plan asks a question, the entries are still as they were. -/
theorem cache_asked (plain : x.Plain writes) (h : x.Asks p s q t) : s.cache.Extends t.cache := by
  induction h with
  | here => exact .refl _
  | afterAsk hq _ ih =>
    cases plain with
    | ask _ rest =>
      have first := hq.keeps.cached
      exact fun a e v hv => ih (rest _) a e v (first a e v hv)
  | afterEffect heffect _ ih =>
    cases plain with
    | perform _ _ rest =>
      rw [← (Effect.run_frame heffect).2]
      exact ih (rest _)
  | inside _ ih =>
    cases plain with
    | within scope admits part _ =>
      rw [← Scope.cache_enter admits]
      exact ih part
  | afterScope hpart _ ih =>
    cases plain with
    | within scope admits part rest =>
      have inside := part.cache_extends hpart
      rw [Scope.cache_enter admits] at inside
      have later := ih (rest _)
      rw [Scope.cache_leave admits] at later
      exact inside.trans later

/-- What is in the cache when a question of the plan was answered is in it when the plan ends. -/
theorem cache_after (plain : x.Plain writes) (h : x.Ends p n s a s') (hasks : x.Asks p s q t) :
    ∃ c t', q.Ends p n t c t' ∧ t'.cache.Extends s'.cache := by
  induction hasks generalizing s' with
  | here =>
    obtain ⟨b, t, hb, h⟩ := ends_ask_next.1 h
    cases plain with
    | ask _ rest => exact ⟨b, t, hb, (rest b).cache_extends h⟩
  | afterAsk hq _ ih =>
    obtain ⟨b, t, hb, h⟩ := ends_ask_next.1 h
    obtain ⟨rfl, rfl⟩ := Query.Answered.unique ⟨_, hq⟩ ⟨_, hb⟩
    cases plain with
    | ask _ rest => exact ih (rest _) h
  | afterEffect heffect _ ih =>
    obtain ⟨b, t, hb, h⟩ := ends_perform_next.1 h
    cases heffect.symm.trans hb
    cases plain with
    | perform _ _ rest => exact ih (rest _) h
  | inside _ ih =>
    obtain ⟨b, t, hpart, h⟩ := ends_within.1 h
    cases plain with
    | within scope admits part rest =>
      obtain ⟨c, t', hc, later⟩ := ih part hpart
      have rest := (rest b).cache_extends h
      rw [Scope.cache_leave admits] at rest
      exact ⟨c, t', hc, later.trans rest⟩
  | afterScope hpart _ ih =>
    obtain ⟨b, t, hpart', h⟩ := ends_within.1 h
    obtain ⟨rfl, rfl⟩ := hpart.unique hpart'
    cases plain with
    | within scope admits part rest => exact ih (rest _) h

/-- An entry that is new when a plain plan ends is made while one of its questions is answered. -/
theorem exists_asks (plain : x.Plain writes) (h : x.Ends p n s a s') {b : Addr} {e : ExprId}
    {v : Value} (miss : s.cache.find? b e = none) (hit : s'.cache.find? b e = some v) :
    ∃ (γ : Type) (q : Query γ) (t : Store) (c : γ) (t' : Store), x.Asks p s q t ∧
      q.Ends p n t c t' ∧ t.cache.find? b e = none ∧ t'.cache.find? b e = some v := by
  induction plain generalizing s s' with
  | pure =>
    obtain ⟨-, rfl⟩ := ends_pure.1 h
    rw [miss] at hit
    cases hit
  | ask q rest ih =>
    obtain ⟨c, t, hc, h⟩ := ends_ask_next.1 h
    cases ht : t.cache.find? b e with
    | none =>
      obtain ⟨γ, r, u, d, u', hasks, found⟩ := ih c h ht hit
      exact ⟨γ, r, u, d, u', .afterAsk hc hasks, found⟩
    | some w =>
      have later := (rest c).cache_extends h b e w ht
      rw [hit] at later
      cases later
      exact ⟨_, q, s, c, t, .here, hc, miss, ht⟩
  | perform effect _ rest ih =>
    obtain ⟨c, t, hc, h⟩ := ends_perform_next.1 h
    rw [← (Effect.run_frame hc).2] at miss
    obtain ⟨γ, r, u, d, u', hasks, found⟩ := ih c h miss hit
    exact ⟨γ, r, u, d, u', .afterEffect hc hasks, found⟩
  | within scope admits hpart rest ihPart ih =>
    obtain ⟨c, t, hc, h⟩ := ends_within.1 h
    rw [← Scope.cache_enter admits] at miss
    cases ht : t.cache.find? b e with
    | none =>
      rw [← Scope.cache_leave admits s.toContext c] at ht
      obtain ⟨γ, r, u, d, u', hasks, found⟩ := ih c h ht hit
      exact ⟨γ, r, u, d, u', .afterScope hc hasks, found⟩
    | some w =>
      have later := (rest c).cache_extends h b e w (by rwa [Scope.cache_leave admits])
      rw [hit] at later
      cases later
      obtain ⟨γ, r, u, d, u', hasks, found⟩ := ihPart hc miss ht
      exact ⟨γ, r, u, d, u', .inside hasks, found⟩

end Plan.Plain

/-! ## Evaluations -/

section Evaluations

variable {e : ExprId} {frame : Frame} {final : Bool} {o : Outcome} {r : Query γ}

/-- What an evaluation does inside of its scope is plain. -/
theorem Plan.plain_calledNode (e : ExprId) (frame : Frame) :
    (calledFrom (p.expr e).span (node p e frame)).Plain false :=
  .calledFrom _ (plain_node e frame)

/-- Only the evaluation of an expression without a value asks questions, all inside of its scope. -/
theorem Plan.asks_eval (h : (eval p e frame final).Asks p s r t) :
    s.cache.find? frame.receiver e = none ∧
      (calledFrom (p.expr e).span (node p e frame)).Asks p
        ((Scope.evaluation frame.receiver e final).enter s) r t := by
  unfold eval at h
  obtain ⟨_, _, hlook, rest⟩ := h.of_perform_bind
  cases hlook
  split at rest
  · cases rest
  · next miss =>
    cases rest with
    | inside h => exact ⟨miss, h⟩
    | afterScope _ h => cases h

/-- An evaluation of an expression without a value leaves an entry for it exactly if it is final. -/
theorem Query.find?_of_eval (h : (Query.eval e frame final).Ends p n s o s')
    (miss : s.cache.find? frame.receiver e = none) :
    s'.cache.find? frame.receiver e = if final then some o.value else none := by
  cases n with
  | zero => exact absurd h Query.ends_zero
  | succ n =>
    obtain ⟨t, -, rfl⟩ := (Plan.ends_eval_of_miss miss).1 (Query.ends_succ.1 h)
    cases final with
    | true => simp [Scope.leave, Cache.find?_insert]
    | false => simp [Scope.leave, Cache.find?_erase]

/-- After an evaluation of an expression without a value, all other entries are as they were before
    its scope was left. -/
theorem Scope.find?_leave_evaluation {a b : Addr} {g : ExprId} (h : ¬(b = a ∧ g = e))
    (context : Context) :
    ((Scope.evaluation a e final).leave context o t).cache.find? b g = t.cache.find? b g := by
  cases final with
  | true => exact (Cache.find?_insert ..).trans (if_neg h)
  | false => exact (Cache.find?_erase ..).trans (if_neg h)

end Evaluations

/-! ## Questions -/

section Questions

variable {q : Query β} {r : Query γ} {b : β}

/-- While a question leads to another one, its evaluation has a placeholder, and the other entries
    are as they were. -/
theorem Query.cache_asked (h : (q.plan p).Asks p s r t) :
    s.cache.Extends t.cache ∧
      ∀ key ∈ q.evaluation, t.cache.find? key.receiver key.expr = some .hot := by
  by_cases evaluates : q.evaluation = []
  · rw [evaluates]
    exact ⟨(q.plain_plan evaluates).cache_asked h, nofun⟩
  cases q with
  | eval e frame final =>
    obtain ⟨miss, inside⟩ := Plan.asks_eval h
    have later := (Plan.plain_calledNode e frame).cache_asked inside
    refine ⟨(Cache.extends_insert miss .hot).trans later, fun key hkey => ?_⟩
    cases List.mem_singleton.1 hkey
    refine later _ _ _ ?_
    exact (Cache.find?_insert ..).trans (if_pos ⟨rfl, rfl⟩)
  | _ => exact absurd rfl evaluates

/-- What is in the cache when a question on the way was answered stays there, placeholders apart. -/
theorem Query.Ends.cache_after (h : q.Ends p (n + 1) s b s') (hasks : (q.plan p).Asks p s r t) :
    ∃ c t', r.Ends p n t c t' ∧ ∀ a e v, t'.cache.find? a e = some v →
      ⟨a, e⟩ ∈ q.evaluation ∨ s'.cache.find? a e = some v := by
  rw [Query.ends_succ] at h
  by_cases evaluates : q.evaluation = []
  · obtain ⟨c, t', hc, later⟩ := (q.plain_plan evaluates).cache_after h hasks
    exact ⟨c, t', hc, fun a e v hv => .inr (later a e v hv)⟩
  cases q with
  | eval e frame final =>
    obtain ⟨miss, inside⟩ := Plan.asks_eval hasks
    obtain ⟨u, hu, rfl⟩ := (Plan.ends_eval_of_miss miss).1 h
    obtain ⟨c, t', hc, later⟩ := (Plan.plain_calledNode e frame).cache_after hu inside
    refine ⟨c, t', hc, fun a g v hv => ?_⟩
    by_cases same : a = frame.receiver ∧ g = e
    · obtain ⟨rfl, rfl⟩ := same
      exact .inl List.mem_cons_self
    · right
      rw [Scope.find?_leave_evaluation same]
      exact later a g v hv
  | _ => exact absurd rfl evaluates

/-- What follows a question on the way is on the way. -/
theorem Query.Way.trans {δ : Type} {active active' : List Cache.Key} {r' : Query δ} {u : Store}
    (h : q.Way p s active r t) (h' : r.Way p t active' r' u) :
    q.Way p s (active' ++ active) r' u := by
  induction h' with
  | start => exact h
  | asked _ hasks ih =>
    rw [List.append_assoc]
    exact .asked ih hasks

/-- The way goes through the evaluations in progress. -/
theorem Query.Way.exists_evaluation {q : Query β} {r : Query γ} (way : q.Way p s active r t)
    (h : ⟨a, e⟩ ∈ active) :
    ∃ active' c final u, q.Way p s active' (.eval e ⟨a, c⟩ final) u ∧
      ∃ (δ : Type) (r' : Query δ) (u' : Store) (active'' : List Cache.Key),
        (Plan.eval p e ⟨a, c⟩ final).Asks p u r' u' ∧ r'.Way p u' active'' r t := by
  induction way with
  | start => cases h
  | @asked active _ _ r r' u t way hasks ih =>
    rcases List.mem_append.1 h with own | h
    · cases r with
      | eval g frame final =>
        cases List.mem_singleton.1 own
        exact ⟨active, frame.cls, final, u, way, _, r', t, [], hasks, .start⟩
      | _ => cases own
    · obtain ⟨active', c, final, w, before, _, r'', w', active'', asks, after⟩ := ih h
      exact ⟨active', c, final, w, before, _, r'', w', _, asks, after.asked hasks⟩

/-- The evaluations in progress have placeholders in the cache. -/
theorem Query.Way.placeholder {active : List Cache.Key} (way : q.Way p s active r t) :
    ∀ key ∈ active, t.cache.find? key.receiver key.expr = some .hot := by
  induction way with
  | start => nofun
  | asked _ hasks ih =>
    obtain ⟨later, own⟩ := Query.cache_asked hasks
    intro key hkey
    rcases List.mem_append.1 hkey with hkey | hkey
    · exact own key hkey
    · exact later _ _ _ (ih key hkey)

/-- A question on the way is answered, and what is in the cache then stays there, unless it is the
    placeholder of an evaluation in progress. -/
theorem Query.Way.cache_after {active : List Cache.Key} (way : q.Way p s active r t)
    (h : q.Ends p n s b s') :
    ∃ m c t', r.Ends p m t c t' ∧ ∀ a e v, t'.cache.find? a e = some v →
      ⟨a, e⟩ ∈ active ∨ s'.cache.find? a e = some v := by
  induction way with
  | start => exact ⟨n, b, s', h, fun a e v hv => .inr hv⟩
  | asked _ hasks ih =>
    obtain ⟨m, c, u, hc, stays⟩ := ih
    cases m with
    | zero => exact absurd hc Query.ends_zero
    | succ m =>
      obtain ⟨d, u', hd, stays'⟩ := hc.cache_after hasks
      refine ⟨m, d, u', hd, fun a e v hv => ?_⟩
      rcases stays' a e v hv with own | hv
      · exact .inl (List.mem_append_left _ own)
      · exact (stays a e v hv).imp_left (List.mem_append_right _)

/-- On the way of the question, the expression was evaluated on the receiver for good, where it had
    no value, and came to this one. -/
def Query.Completes (p : Program) (q : Query β) (s : Store) (a : Addr) (e : ExprId) (v : Value) :
    Prop :=
  ∃ active c t o t', q.Way p s active (.eval e ⟨a, c⟩ true) t ∧ t.cache.find? a e = none ∧
    (Query.eval e ⟨a, c⟩ true).Answered p t o t' ∧ o.value = v

/-- A new entry is the value of a final evaluation on the way. -/
theorem Query.Ends.new_entry (h : q.Ends p n s b s') {a : Addr} {e : ExprId} {v : Value}
    (miss : s.cache.find? a e = none) (hit : s'.cache.find? a e = some v) :
    q.Completes p s a e v := by
  induction n generalizing β s s' with
  | zero => exact absurd h Query.ends_zero
  | succ n ih =>
    -- The entry is made on the way of a question that the plan asks.
    have further {γ : Type} {r : Query γ} {t t' : Store} {c : γ} (hasks : (q.plan p).Asks p s r t)
        (hr : r.Ends p n t c t') (miss : t.cache.find? a e = none)
        (hit : t'.cache.find? a e = some v) : q.Completes p s a e v := by
      obtain ⟨active, d, u, o, u', way, found⟩ := ih hr miss hit
      exact ⟨_, d, u, o, u', (Query.Way.asked .start hasks).trans way, found⟩
    have ends := h
    rw [Query.ends_succ] at h
    by_cases evaluates : q.evaluation = []
    · obtain ⟨γ, r, t, c, t', hasks, hr, missed, found⟩ :=
        (q.plain_plan evaluates).exists_asks h miss hit
      exact further hasks hr missed found
    cases q with
    | eval g frame final =>
      cases known : s.cache.find? frame.receiver g with
      | some w =>
        obtain ⟨-, rfl⟩ := (Plan.ends_eval_of_hit known).1 h
        rw [miss] at hit
        cases hit
      | none =>
        by_cases same : a = frame.receiver ∧ e = g
        · obtain ⟨rfl, rfl⟩ := same
          rw [Query.find?_of_eval ends known] at hit
          cases final with
          | false => cases hit
          | true => exact ⟨[], frame.cls, s, b, s', .start, known, ⟨_, ends⟩, Option.some.inj hit⟩
        · obtain ⟨t, ht, rfl⟩ := (Plan.ends_eval_of_miss known).1 h
          rw [Scope.find?_leave_evaluation same] at hit
          have entered :
              ((Scope.evaluation frame.receiver g final).enter s).cache.find? a e = none :=
            (Cache.find?_insert ..).trans ((if_neg same).trans miss)
          obtain ⟨γ, r, u, c, u', hasks, hr, missed, found⟩ :=
            (Plan.plain_calledNode g frame).exists_asks ht entered hit
          exact further (Plan.Asks.eval known hasks) hr missed found
    | _ => exact absurd rfl evaluates

/-- What becomes of the entries of the cache while a question is answered: those at the start are
    there at the end; those that are new come from final evaluations on the way; whatever is in the
    cache on the way is the placeholder of an evaluation in progress, or it stays to the end and for
    the rest of the analysis. An evaluation of an expression without a value leaves an entry for it
    only if it is final. -/
theorem Query.cache_protocol (h : q.Answered p s b s') :
    s.cache.Extends s'.cache ∧
      (∀ a e v, s.cache.find? a e = none → s'.cache.find? a e = some v → q.Completes p s a e v) ∧
      (∀ active (γ : Type) (r : Query γ) t, q.Way p s active r t → ∀ a e v,
        t.cache.find? a e = some v →
          (⟨a, e⟩ ∈ active ∧ v = .hot) ∨ ∀ u, s'.Later p u → u.cache.find? a e = some v) ∧
      ∀ active e frame final t o t', q.Way p s active (.eval e frame final) t →
        t.cache.find? frame.receiver e = none → (Query.eval e frame final).Answered p t o t' →
          t'.cache.find? frame.receiver e = if final then some o.value else none := by
  obtain ⟨n, h⟩ := h
  refine ⟨h.keeps.cached, fun a e v miss hit => h.new_entry miss hit, ?_, ?_⟩
  · intro active γ r t way a e v hv
    obtain ⟨m, c, t', hc, stays⟩ := way.cache_after h
    by_cases inProgress : ⟨a, e⟩ ∈ active
    · left
      have placeholder := way.placeholder _ inProgress
      exact ⟨inProgress, Option.some.inj (hv.symm.trans placeholder)⟩
    · right
      intro u later
      refine later.keeps.cached a e v ?_
      exact (stays a e v (hc.keeps.cached a e v hv)).resolve_left inProgress
  · intro active e frame final t o t' _ miss answered
    obtain ⟨m, hm⟩ := answered
    exact Query.find?_of_eval hm miss

/-- The check of `A` evaluates the initializer of `x` for good. -/
theorem Query.cache_protocol_definesX :
    ∃ es, (Query.check ⟨4⟩).Answered definesX .initial es definesX.checked ∧
      definesX.checked.cache.find? (.thisOf ⟨4⟩) ⟨2⟩ = some .hot ∧
      (Query.check ⟨4⟩).Completes definesX .initial (.thisOf ⟨4⟩) ⟨2⟩ .hot := by
  obtain ⟨es, answered, -⟩ := Query.answered_of_result? (p := definesX) (n := 20)
    (q := .check ⟨4⟩) (s := .initial) List.isEmpty (by decide +kernel)
  have entry : definesX.checked.cache.find? (.thisOf ⟨4⟩) ⟨2⟩ = some .hot := by decide +kernel
  obtain ⟨-, fresh, -⟩ := Query.cache_protocol answered
  exact ⟨es, answered, entry, fresh _ _ _ (by decide +kernel) entry⟩

end Questions

end ObjectInit
