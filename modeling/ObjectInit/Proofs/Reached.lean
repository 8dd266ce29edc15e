import ObjectInit.Proofs.Contracts
import ObjectInit.Proofs.Errors

/-!
# Stores on the way

`Plan.Reaches` tells which stores a plan comes to, by itself and while its questions are answered,
whether or not it comes to an end. What holds of the stores that plans come to by themselves
(`Plan.Stays`), for every question that may be asked, holds of all of them.

Main results:

* `Plan.stays_bind`: how plans are put together that stay in a set of stores.
* `Contract.Kept.reaches`: where all plans stay in a set of stores, every store on the way is in it.
-/

namespace ObjectInit

/-- Carried out in the first store, the plan comes to the second one, by itself or while one of its
    questions is answered. The environments in the list are left for the time being, the innermost
    first. -/
inductive Plan.Reaches (p : Program) : {α : Type} → Plan α → Store → List Env → Store → Prop where
  | here {α : Type} {x : Plan α} {s : Store} : Reaches p x s [] s
  | inAsk {α β : Type} {q : Query β} {next : β → Plan α} {s u : Store} {envs : List Env}
    (h : Reaches p (q.plan p) s envs u) : Reaches p (.ask q next) s envs u
  | afterAsk {α β : Type} {q : Query β} {next : β → Plan α} {s t u : Store} {b : β}
    {envs : List Env} (hq : q.Answered p s b t) (h : Reaches p (next b) t envs u) :
    Reaches p (.ask q next) s envs u
  | afterEffect {α β : Type} {effect : Effect β} {next : β → Plan α} {s t u : Store} {b : β}
    {envs : List Env} (heffect : effect.run.run s = .ok (b, t))
    (h : Reaches p (next b) t envs u) : Reaches p (.perform effect next) s envs u
  | inScope {α β : Type} {scope : Scope β} {part : Plan β} {next : β → Plan α} {s u : Store}
    {envs : List Env} (h : Reaches p part (scope.enter s) envs u) :
    Reaches p (.within scope part next) s (envs ++ [s.env]) u
  | afterScope {α β : Type} {scope : Scope β} {part : Plan β} {next : β → Plan α}
    {s t u : Store} {b : β} {n : Nat} {envs : List Env} (hpart : part.Ends p n (scope.enter s) b t)
    (h : Reaches p (next b) (scope.leave s.toContext b t) envs u) :
    Reaches p (.within scope part next) s envs u

/-- In answering the question, the analysis comes from the first store to the second one. -/
def Query.Reaches {β : Type} (p : Program) (q : Query β) : Store → List Env → Store → Prop :=
  (q.plan p).Reaches p

/-- All stores that the plan comes to by itself are as described. -/
def Plan.Stays (p : Program) (J : Store → Prop) : {α : Type} → Plan α → Store → Prop
  | _, .pure _, s => J s
  | _, .ask q next, s => J s ∧ ∀ b t, q.Answered p s b t → Plan.Stays p J (next b) t
  | _, .perform effect next, s =>
    J s ∧ ∀ b t, effect.run.run s = .ok (b, t) → Plan.Stays p J (next b) t
  | _, .within scope part next, s =>
    J s ∧ Plan.Stays p J part (scope.enter s) ∧ ∀ n b t, part.Ends p n (scope.enter s) b t →
      Plan.Stays p J (next b) (scope.leave s.toContext b t)

variable {p : Program} {J : Store → Prop} {α β γ : Type} {n : Nat} {s t u : Store}
  {envs : List Env}

namespace Plan

/-! ## Plans that stay -/

theorem Stays.start {x : Plan α} (h : x.Stays p J s) : J s := by
  cases x with
  | pure => exact h
  | ask | perform | within => exact h.1

/-- The store at the end is as described, too. -/
theorem Stays.of_ends {x : Plan α} (h : x.Stays p J s) {a : α} (ends : x.Ends p n s a t) : J t := by
  induction x generalizing s t with
  | pure =>
    obtain ⟨-, rfl⟩ := ends_pure.1 ends
    exact h
  | ask q next ih =>
    obtain ⟨b, u, hb, ends⟩ := ends_ask_next.1 ends
    exact ih b (h.2 b u ⟨n, hb⟩) ends
  | perform effect next ih =>
    obtain ⟨b, u, hb, ends⟩ := ends_perform_next.1 ends
    exact ih b (h.2 b u hb) ends
  | within scope part next _ ih =>
    obtain ⟨b, u, hpart, ends⟩ := ends_within.1 ends
    exact ih b (h.2.2 n b u hpart) ends

/-- A plan that goes on with another one stays where both do. -/
theorem stays_bind {x : Plan β} {f : β → Plan α} (hx : x.Stays p J s)
    (hf : ∀ n b t, x.Ends p n s b t → (f b).Stays p J t) : (x >>= f).Stays p J s := by
  change (x.bind f).Stays p J s
  induction x generalizing s with
  | pure b => exact hf 0 b s (ends_pure.2 ⟨rfl, rfl⟩)
  | ask q next ih =>
    refine ⟨hx.1, fun b u ⟨n, hb⟩ => ih b (hx.2 b u ⟨n, hb⟩) fun m c v hnext => ?_⟩
    exact hf (max n m) c v (ends_ask_next.2
      ⟨b, u, hb.mono (Nat.le_max_left n m), hnext.mono (Nat.le_max_right n m)⟩)
  | perform effect next ih =>
    exact ⟨hx.1, fun b u hb => ih b (hx.2 b u hb) fun m c v hnext =>
      hf m c v (ends_perform_next.2 ⟨b, u, hb, hnext⟩)⟩
  | within scope part next _ ih =>
    refine ⟨hx.1, hx.2.1, fun n b u hpart => ih b (hx.2.2 n b u hpart) fun m c v hnext => ?_⟩
    exact hf (max n m) c v (ends_within.2
      ⟨b, u, hpart.mono (Nat.le_max_left n m), hnext.mono (Nat.le_max_right n m)⟩)

theorem stays_look_bind {f : Store → Plan α} (hs : J s) (hf : (f s).Stays p J s) :
    ((liftM Effect.look : Plan Store) >>= f).Stays p J s := by
  refine ⟨hs, fun b t hb => ?_⟩
  cases hb
  exact hf

/-! ## Stores that are reached -/

/-- The store at the end is on the way. -/
theorem Ends.reaches {x : Plan α} {a : α} (h : x.Ends p n s a t) : x.Reaches p s [] t := by
  induction x generalizing s t with
  | pure =>
    obtain ⟨-, rfl⟩ := ends_pure.1 h
    exact .here
  | ask q next ih =>
    obtain ⟨b, u, hb, h⟩ := ends_ask_next.1 h
    exact .afterAsk ⟨n, hb⟩ (ih b h)
  | perform effect next ih =>
    obtain ⟨b, u, hb, h⟩ := ends_perform_next.1 h
    exact .afterEffect hb (ih b h)
  | within scope part next _ ih =>
    obtain ⟨b, u, hpart, h⟩ := ends_within.1 h
    exact .afterScope hpart (ih b h)

/-- The heap only grows on the way. -/
theorem Reaches.extends {x : Plan α} (h : x.Reaches p s envs u) : s.heap.Extends u.heap := by
  induction h with
  | here => exact .refl _
  | inAsk _ ih => exact ih
  | afterAsk hq _ ih =>
    obtain ⟨n, hq⟩ := hq
    exact hq.keeps.heap.trans ih
  | afterEffect heffect _ ih => exact (Effect.run_extends heffect).trans ih
  | @inScope _ _ scope _ _ s _ _ _ ih =>
    rwa [scope.heap_enter s] at ih
  | @afterScope _ _ scope _ _ s t _ b _ _ hpart _ ih =>
    have inside := Plan.ends_extends hpart
    rw [scope.heap_enter s, ← scope.heap_leave s.toContext b t] at inside
    exact inside.trans ih

end Plan

theorem Query.Answered.reaches {q : Query β} {b : β} (h : q.Answered p s b t) :
    q.Reaches p s [] t := by
  obtain ⟨n, h⟩ := h
  cases n with
  | zero => exact absurd h Query.ends_zero
  | succ n => exact (Query.ends_succ.1 h).reaches

namespace Contract.Kept

variable {C : Contract}
  {smaller : {γ : Type} → Query γ → Store → {β : Type} → Query β → Store → Prop}
  {allowed : {β : Type} → Query β → Store → Prop} {want : α → Store → Prop}

/-- A plan that obeys the contract ends as wanted. -/
theorem want_of_ends (kept : C.Kept p smaller) {x : Plan α}
    (h : x.Obeys p (C.only allowed) s want) {a : α} (ends : x.Ends p n s a t) : want a t := by
  have := run_endsWell (n := n) (fun q s hq => kept.answer n hq) h
  rw [Plan.Ends] at ends
  rwa [ends] at this

/-- Where all plans stay in a set of stores, every store on the way is in it. The environments that
    are left for the time being belong to such stores with smaller heaps. -/
theorem reaches (kept : C.Kept p smaller)
    (stays : ∀ {γ : Type} (q : Query γ) s, C.pre q s → (q.plan p).Stays p J s) {x : Plan α}
    (h : x.Obeys p (C.only allowed) s want) (hx : x.Stays p J s) (reach : x.Reaches p s envs u) :
    J u ∧ ∀ env ∈ envs, ∃ t, J t ∧ t.env = env ∧ t.heap.Extends u.heap := by
  induction reach generalizing allowed with
  | here => exact ⟨hx.start, nofun⟩
  | inAsk _ ih => exact ih (kept _ _ h.1.1) (stays _ _ h.1.1)
  | afterAsk hq _ ih =>
    obtain ⟨n, hq⟩ := hq
    exact ih (h.2 _ _ ⟨n, hq⟩ (kept.post_of_ends h.1.1 hq)) (hx.2 _ _ ⟨n, hq⟩)
  | afterEffect heffect _ ih => exact ih (h.2 _ _ heffect) (hx.2 _ _ heffect)
  | @inScope _ _ scope _ _ s _ _ inner ih =>
    obtain ⟨hu, left⟩ := ih h hx.2.1
    refine ⟨hu, fun env henv => ?_⟩
    rcases List.mem_append.1 henv with henv | henv
    · exact left env henv
    · have ext := inner.extends
      rw [scope.heap_enter s] at ext
      exact ⟨s, hx.start, (List.mem_singleton.1 henv).symm, ext⟩
  | afterScope hpart _ ih =>
    have rest := kept.want_of_ends (Plan.obeys_within.1 h) hpart
    exact ih rest (hx.2.2 _ _ _ hpart)

/-- What a plan that obeys the contract asks may be asked under it. -/
theorem pre_of_asks (kept : C.Kept p smaller) {x : Plan α} (h : x.Obeys p (C.only allowed) s want)
    {q : Query γ} (hasks : x.Asks p s q t) : C.pre q t := by
  induction hasks generalizing allowed with
  | here => exact h.1.1
  | afterAsk hq _ ih => exact ih (h.2 _ _ ⟨_, hq⟩ (kept.post_of_ends h.1.1 hq))
  | afterEffect heffect _ ih => exact ih (h.2 _ _ heffect)
  | inside _ ih => exact ih h
  | afterScope hpart _ ih => exact ih (kept.want_of_ends (Plan.obeys_within.1 h) hpart)

/-- On the way of a question whose plan obeys the contract, only what may be asked under it is
    asked. -/
theorem pre_of_way (kept : C.Kept p smaller) {δ : Type} {q : Query β} {r : Query γ} {r' : Query δ}
    {active : List Cache.Key} {want : β → Store → Prop}
    (h : (q.plan p).Obeys p (C.only allowed) s want) (way : q.Way p s active r t)
    (hasks : (r.plan p).Asks p t r' u) : C.pre r' u := by
  induction way generalizing δ u with
  | start => exact kept.pre_of_asks h hasks
  | asked _ hasks' ih => exact kept.pre_of_asks (kept _ _ (ih hasks')) hasks

end Contract.Kept

end ObjectInit
