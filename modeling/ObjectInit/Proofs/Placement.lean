import ObjectInit.Proofs.Addresses
import ObjectInit.Proofs.Plain

/-!
# Addresses on the way

Plans change the heap between their questions, too. Where they may ask what they ask, all stores
that they come to by themselves keep the addresses in order (`Regime.Orderly`), and so do all stores
on the way of the check of a class.

Main results:

* `Regime.stays_plan`: the plan of a question comes to stores with all objects in place.
* `Query.inPlace_of_check`: which addresses there are in the analysis of a class.
-/

namespace ObjectInit

variable {p : Program} {c : ClassId} {α β γ : Type} {s t u : Store} {n : Nat}

/-- An effect that does not change the heap changes neither the memory nor the environment. -/
theorem Effect.run_memory {effect : Effect β} (same : ¬effect.changesHeap) {b : β}
    (h : effect.run.run s = .ok (b, t)) : t.memory = s.memory ∧ t.env = s.env := by
  cases effect with
  | allocate | setField | setOuter | warmOf => exact absurd rfl same
  | creationOf =>
    obtain ⟨-, rfl⟩ := run_creationOf.1 h
    exact ⟨rfl, rfl⟩
  | _ =>
    cases h
    exact ⟨rfl, rfl⟩

theorem Plan.length_of_ends_mapM {f : γ → Plan β} {xs : List γ} {bs : List β}
    (h : (xs.mapM f).Ends p n s bs t) : bs.length = xs.length := by
  induction xs generalizing s t bs with
  | nil =>
    obtain ⟨rfl, -⟩ := ends_pure.1 (by rwa [List.mapM_nil] at h)
    rfl
  | cons x xs ih =>
    rw [List.mapM_cons] at h
    obtain ⟨b, u, -, h⟩ := ends_bind.1 h
    obtain ⟨bs', v, hrest, h⟩ := ends_bind.1 h
    obtain ⟨rfl, -⟩ := ends_pure.1 h
    rw [List.length_cons, List.length_cons, ih hrest]

namespace Regime

/-! ## Where questions may be asked -/

theorem ready_of_pre {q : Query β} (pre : (placement p c).pre q s) : (placed p c).Ready s := by
  by_cases general : q.kind < 9
  · exact ((building_pre general).1 pre).1
  · have pre := (contract_pre_of_le (Nat.le_of_not_lt general)).1 pre
    cases q with
    | template | body => exact pre.1
    | _ => exact pre.elim

theorem ready_later (ready : (placed p c).Ready s) (inv : Placed p c t.memory)
    (ext : s.heap.Extends t.heap) (env : t.env = s.env) : (placed p c).Ready t := by
  refine ⟨inv, fun x v hv => ?_⟩
  rw [env] at hv
  exact fits_placed.2 (steady_placing ext (fits_placed.1 (ready.env x v hv)))

theorem ready_of_answer (ready : (placed p c).Ready s) {q : Query β} {b : β}
    (h : q.Ends p n s b t) (post : (placement p c).post q s b t) : (placed p c).Ready t := by
  refine ready_later ready ?_ h.keeps.heap h.env
  by_cases general : q.kind < 9
  · exact ((contract_post general).1 post).2.1
  · exact ((contract_post_of_le (Nat.le_of_not_lt general)).1 post).2.1

/-- Carried out where questions may be asked, the plan comes only to such stores by itself, if it
    may ask what it asks. -/
def Orderly (p : Program) (c : ClassId) (x : Plan α) : Prop :=
  ∀ (want : α → Store → Prop) (s : Store), (placed p c).Ready s →
    x.Obeys p ((placement p c).only fun _ _ => True) s want → x.Stays p (placed p c).Ready s

/-- Where a question is asked first, questions may be asked. -/
theorem ready_of_asksFirst {x : Plan α} (first : x.AsksFirst) {want : α → Store → Prop}
    (obeys : x.Obeys p ((placement p c).only fun _ _ => True) s want) : (placed p c).Ready s := by
  induction first generalizing s with
  | ask => exact ready_of_pre obeys.1.1
  | look _ ih => exact ih s (obeys.2 s s rfl)
  | trace _ ih =>
    have inside := ih obeys
    exact ⟨inside.inv, inside.env⟩

section Scopes

variable {scope : Scope β} {part : Plan β} {want : β → Store → Prop}

theorem ready_enter (admits : scope.Admits part) (ready : (placed p c).Ready s)
    (obeys : part.Obeys p ((placement p c).only fun _ _ => True) (scope.enter s) want) :
    (placed p c).Ready (scope.enter s) := by
  cases scope with
  | env => exact ready_of_asksFirst admits obeys
  | evaluation => exact absurd admits id
  | trace | promotion => exact ⟨ready.inv, ready.env⟩

theorem ready_leave (admits : scope.Admits part) (ready : (placed p c).Ready s)
    (after : (placed p c).Ready t) (ext : s.heap.Extends t.heap) (b : β) :
    (placed p c).Ready (scope.leave s.toContext b t) := by
  cases scope with
  | env => exact ready_later ready after.inv ext rfl
  | evaluation => exact absurd admits id
  | trace => exact ⟨after.inv, after.env⟩
  | promotion v =>
    rw [Scope.leave]
    split
    · exact after
    · exact ⟨after.inv, after.env⟩

end Scopes

/-! ## Orderly plans -/

/-- A plain plan that does not change the heap is orderly. -/
theorem orderly_of_plain {x : Plan α} (plain : x.Plain false) : Orderly p c x := by
  intro want s ready obeys
  induction plain generalizing s with
  | pure => exact ready
  | ask q _ ih =>
    refine ⟨ready, fun b t ⟨n, hb⟩ => ?_⟩
    have post := placement_kept.post_of_ends obeys.1.1 hb
    exact ih b want t (ready_of_answer ready hb post) (obeys.2 b t ⟨n, hb⟩ post)
  | perform effect allowed _ ih =>
    refine ⟨ready, fun b t hb => ih b want t ?_ (obeys.2 b t hb)⟩
    obtain ⟨memory, env⟩ := Effect.run_memory (fun h => nomatch allowed h) hb
    refine ⟨?_, ?_⟩
    · rw [memory]
      exact ready.inv
    · rw [memory, env]
      exact ready.env
  | within scope admits _ _ ihPart ih =>
    have stays := ihPart _ _ (ready_enter admits ready obeys) obeys
    refine ⟨ready, stays, fun n b t hpart => ih b want _ ?_ (placement_kept.want_of_ends
      (Plan.obeys_within.1 obeys) hpart)⟩
    have ext := Plan.ends_extends hpart
    rw [scope.heap_enter s] at ext
    exact ready_leave admits ready (stays.of_ends hpart) ext b

namespace Orderly

theorem bind {x : Plan β} {f : β → Plan α} (hx : Orderly p c x) (hf : ∀ b, Orderly p c (f b)) :
    Orderly p c (x >>= f) := by
  intro want s ready obeys
  have obeys := Plan.obeys_bind.1 obeys
  have stays := hx _ s ready obeys
  exact Plan.stays_bind stays fun n b t ends =>
    hf b want t (stays.of_ends ends) (placement_kept.want_of_ends obeys ends)

theorem pure (a : α) : Orderly p c (Pure.pure a) := orderly_of_plain (.pure a)

theorem ret {x : Plan β} (hx : Orderly p c x) (f : β → α) :
    Orderly p c (x >>= fun b => Pure.pure (f b)) :=
  hx.bind fun _ => .pure _

theorem mapM {f : γ → Plan β} (xs : List γ) (hf : ∀ x, Orderly p c (f x)) :
    Orderly p c (xs.mapM f) := by
  induction xs with
  | nil => exact .pure []
  | cons x xs ih =>
    rw [List.mapM_cons]
    exact (hf x).bind fun _ => ih.ret _

theorem errorsOfEach {f : γ → Plan (List SafetyError)} (xs : List γ)
    (hf : ∀ x, Orderly p c (f x)) : Orderly p c (Plan.errorsOfEach xs f) := by
  rw [Plan.errorsOfEach, map_eq_pure_bind]
  exact (mapM xs hf).ret _

end Orderly

/-! ## Changes of the heap -/

/-- The effect stores a value in the heap. -/
def Puts (p : Program) (c : ClassId) (effect : Value → Effect Unit) : Prop :=
  ∀ v s u, (placed p c).Ready s → (placed p c).Fits s.memory 0 v →
    (effect v).run.run s = .ok ((), u) → (placed p c).Ready u

theorem puts_setField (this : Addr) (f : SymbolId) : Puts p c (Effect.setField this f) := by
  intro v s u ready hv hu
  obtain ⟨h, ok, rfl⟩ := Effect.run_setField.1 hu
  exact ready_later ready (ready.inv.setField (fits_placed.1 hv) ok) (.of_setField ok) rfl

theorem puts_setOuter (this : Addr) (d : ClassId) : Puts p c (Effect.setOuter this d) := by
  intro v s u ready hv hu
  obtain ⟨h, ok, rfl⟩ := Effect.run_setOuter.1 hu
  exact ready_later ready (ready.inv.setOuter (fits_placed.1 hv) ok) (.of_setOuter ok) rfl

theorem Puts.stays {effect : Value → Effect Unit} (puts : Puts p c effect)
    (ready : (placed p c).Ready s) {v : Value} (hv : (placed p c).Fits s.memory 0 v)
    {next : Unit → Plan α} (rest : ∀ t, (placed p c).Ready t →
      (next ()).Stays p (placed p c).Ready t) :
    (Plan.perform (effect v) next).Stays p (placed p c).Ready s :=
  ⟨ready, fun _ t ht => rest t (puts v s t ready hv ht)⟩

/-- The value of an answer is stored. -/
theorem Puts.orderly {effect : Value → Effect Unit} (puts : Puts p c effect) {q : Query Outcome}
    (general : q.kind < 9)
    (gives : ∀ m o m', (placed p c).Gives m q o m' → (placed p c).Fits m' 0 o.value)
    (f : Outcome → α) :
    Orderly p c (do
      let o ← q
      effect o.value
      return f o) := by
  intro want s ready obeys
  refine ⟨ready, fun o t ⟨n, ho⟩ => ?_⟩
  have post := placement_kept.post_of_ends obeys.1.1 ho
  have fits := gives _ _ _ ((contract_post general).1 post).2.2
  exact puts.stays (ready_of_answer ready ho post) fits fun _ h => h

section Construction

variable {d : ClassId} {this : Addr}

theorem orderly_setParams : Orderly p c (Plan.setParams p d this) := by
  unfold Plan.setParams
  dsimp only
  generalize p.paramFields d = fields
  induction fields with
  | nil => exact .pure _
  | cons field fields ih =>
    refine Orderly.bind (fun want s ready _ => ⟨ready, fun _ t ht => ?_⟩) fun _ => ih
    cases ht
    refine (puts_setField this field).stays ready ?_ fun _ h => h
    rw [Plan.paramValue]
    cases h : Option.bind _ s.env.lookup with
    | none => exact .hot
    | some v =>
      obtain ⟨x, -, hx⟩ := Option.bind_eq_some_iff.1 h
      exact ready.env x v hx

theorem orderly_prepareParent (type : ClassRef) (ctor : Option SymbolId) (args : List ArgValue)
    (source : Span) : Orderly p c (Plan.prepareParent p d this type ctor args source) :=
  (puts_setOuter this type.cls).orderly (q := .outerInstance type ⟨this, d⟩ source)
    (by simp [Query.kind]) (fun _ _ _ h => h) _

theorem orderly_prepareListed (parent : Parent) :
    Orderly p c (Plan.prepareListed p d this parent) :=
  (orderly_of_plain (Plan.plain_evalArguments _ parent.args)).bind fun _ =>
    (orderly_prepareParent _ _ _ _).ret _

theorem orderly_prepareMixin (superClass : Parent) (listed : List Parent) (mixin : ClassId) :
    Orderly p c (Plan.prepareMixin p d this superClass listed mixin) := by
  unfold Plan.prepareMixin
  split
  · exact orderly_prepareListed _
  · exact orderly_prepareParent _ _ _ _

theorem orderly_initParents (parents : List Parent) :
    Orderly p c (Plan.initParents p d this parents) := by
  cases parents with
  | nil => exact .pure _
  | cons superClass listed =>
    refine (orderly_prepareListed superClass).bind fun _ => ?_
    refine (Orderly.mapM _ (orderly_prepareMixin superClass listed)).bind fun _ => ?_
    exact orderly_of_plain ((Plan.Plain.errorsOfEach _ fun _ => (Plan.Plain.asked _).ret _).ret _)

theorem orderly_template : Orderly p c (Plan.template p d this) := by
  unfold Plan.template
  split
  · refine orderly_setParams.bind fun _ => ?_
    split
    · exact orderly_of_plain ((Plan.Plain.asked _).ret _)
    · exact (orderly_initParents _).bind fun _ => orderly_of_plain ((Plan.Plain.asked _).ret _)
  · exact .pure _

theorem orderly_stat (e : ExprId) : Orderly p c (Plan.stat p d this e) := by
  unfold Plan.stat
  split
  · next f _ =>
    split
    · exact .pure _
    · split
      · next e' _ =>
        exact (puts_setField this f).orderly (q := .eval e' ⟨this, d⟩ true)
          (by simp [Query.kind]) (fun _ _ _ h => h) _
      · exact fun _ _ ready _ => (puts_setField this f).stays ready .hot fun _ h => h
  · exact .pure _
  · exact .pure _
  · exact orderly_of_plain ((Plan.Plain.asked _).ret _)

theorem orderly_body : Orderly p c (Plan.body p d this) := by
  unfold Plan.body
  split
  · exact .errorsOfEach _ orderly_stat
  · exact .pure _

end Construction

/-! ## Objects -/

variable {d : ClassId} {f : SymbolId} {args : List ArgValue} {source : Span}

/-- An object is allocated, unless it exists, and its constructor is called. -/
theorem orderly_allocate (a : Addr) (object : Object) (q : Query β) (x : α) (f : β → α) :
    Orderly p c (do
      if (← Effect.look).heap.contains a then
        return x
      Effect.allocate a object
      let b ← q
      return f b) := by
  intro want s ready obeys
  rw [Plan.obeys_look_bind] at obeys
  refine Plan.stays_look_bind ready ?_
  by_cases alive : s.heap.contains a = true
  · rw [if_pos alive]
    exact ready
  · rw [if_neg alive] at obeys ⊢
    refine ⟨ready, fun _ t ht => ?_⟩
    have rest := obeys.2 () t ht
    exact orderly_of_plain ((Plan.Plain.asked q).ret f) want t (ready_of_pre rest.1.1) rest

/-- A way of creation is numbered before there is an object of this kind. -/
theorem stays_createWarm {outer : Value} (ready : (placed p c).Ready s)
    (created : p.Creates d f args.length) (remembers : (placed p c).Remembers s.memory outer)
    {want : Outcome → Store → Prop} (obeys : (Plan.createWarm outer d f args source).Obeys p
      ((placement p c).only fun _ _ => True) s want) :
    (Plan.createWarm outer d f args source).Stays p (placed p c).Ready s := by
  refine ⟨ready, fun w t ht => ?_⟩
  have rest := obeys.2 w t ht
  refine orderly_allocate _ _ _ _ _ want t ?_ rest
  cases ht
  refine ready_later ready (ready.inv.warmOf ?_ ?_ remembers) (.warmOf _ _) rfl
  · simpa using created
  · intro v hv
    simp only [List.map_map, List.mem_map] at hv
    obtain ⟨arg, -, rfl⟩ := hv
    exact Value.hot_or_cold_widen arg.value

theorem stays_create {outer : Value}
    (pre : (placement p c).pre (.create outer d f args source) s) :
    (Plan.create p outer d f args source).Stays p (placed p c).Ready s := by
  obtain ⟨ready, ⟨B, hv⟩, created, -⟩ := (building_pre (by simp [Query.kind])).1 pre
  have obeys : (Plan.create p outer d f args source).Obeys p
      ((placement p c).only fun _ _ => True) s _ := placement_kept _ s pre
  have plain (h : (Plan.create p outer d f args source).Plain false) :
      (Plan.create p outer d f args source).Stays p (placed p c).Ready s :=
    orderly_of_plain h _ s ready obeys
  cases outer with
  | cold => exact plain (.fail _ source)
  | closure => exact plain ((Plan.Plain.report _ source).ret _)
  | oneOf vs => exact plain (.joinEach vs fun v => .asked _)
  | hot =>
    have obeys := Plan.obeys_bind.1 obeys
    have checks := orderly_of_plain (Plan.Plain.mapM args Plan.plain_checkArgument) _ s ready obeys
    refine Plan.stays_bind checks fun n checked t ends => ?_
    have ready' := checks.of_ends ends
    have rest := placement_kept.want_of_ends obeys ends
    dsimp only at rest ⊢
    split
    · next unsafe_ =>
      rw [if_pos unsafe_] at rest
      have obeys' := Plan.obeys_bind.1 rest
      have created' : p.Creates d f (checked.map (·.2)).length := by
        rwa [List.length_map, Plan.length_of_ends_mapM ends]
      have warm := stays_createWarm ready' created' (.inl rfl) obeys'
      exact Plan.stays_bind warm fun _ _ _ hwarm => warm.of_ends hwarm
    · exact ready'
  | ref a =>
    unfold Plan.create at obeys ⊢
    dsimp only at obeys ⊢
    split
    · next source' =>
      rw [if_pos source'] at obeys
      have obeys := Plan.obeys_bind.1 obeys
      have stays := orderly_of_plain (Plan.plain_rememberedOuter a) _ s ready obeys
      refine Plan.stays_bind stays fun n v t ends => ?_
      have outer : (placed p c).Carries ((placement p c).only fun _ _ => True)
          (Plan.rememberedOuter a) s fun v m => (placed p c).Remembers m v :=
        carries_rememberedOuter placed_lawful.governs ready hv.of_ref
      have remembers := (placement_kept.want_of_ends outer ends).2.2
      have obeys' := Plan.obeys_bind.1 (placement_kept.want_of_ends obeys ends)
      have warm := stays_createWarm (stays.of_ends ends) created remembers obeys'
      refine Plan.stays_bind warm fun m o u hwarm => ?_
      exact orderly_of_plain (.look_bind fun s => .ite (fun _ => .pure _) fun _ => .pure _) _ u
        (warm.of_ends hwarm) (placement_kept.want_of_ends obeys' hwarm)
    · next source' =>
      rw [if_neg source'] at obeys
      exact orderly_of_plain ((Plan.plain_promoteArguments args).ret _) _ s ready obeys

/-! ## Questions -/

theorem stays_eval {e : ExprId} {frame : Frame} {final : Bool}
    (pre : (placement p c).pre (.eval e frame final) s) :
    (Plan.eval p e frame final).Stays p (placed p c).Ready s := by
  obtain ⟨ready, receiver, -⟩ := (building_pre (by simp [Query.kind])).1 pre
  have obeys : (Plan.eval p e frame final).Obeys p ((placement p c).only fun _ _ => True) s _ :=
    placement_kept _ s pre
  unfold Plan.eval at obeys ⊢
  rw [Plan.obeys_look_bind] at obeys
  refine Plan.stays_look_bind ready ?_
  cases hfind : s.cache.find? frame.receiver e with
  | some v => exact ready
  | none =>
    rw [hfind] at obeys
    have ready' : (placed p c).Ready ((Scope.evaluation frame.receiver e final).enter s) :=
      ready_later ready (ready.inv.enter receiver) (.refl _) rfl
    have inside := orderly_of_plain (.calledFrom _ (Plan.plain_node e frame)) _ _ ready' obeys
    refine ⟨ready, inside, fun n o t ends => ?_⟩
    have post := placement_kept.want_of_ends (Plan.obeys_within.1 obeys) ends
    have after := (contract_post (by simp [Query.kind])).1 post
    have ext := Plan.ends_extends ends
    have env := ends.env
    exact ready_later ready after.2.1 ext env

/-- The plan of a question comes only to stores in which all objects are in place. -/
theorem stays_plan (q : Query β) (pre : (placement p c).pre q s) :
    (q.plan p).Stays p (placed p c).Ready s := by
  have orderly (h : Orderly p c (q.plan p)) : (q.plan p).Stays p (placed p c).Ready s :=
    h _ s (ready_of_pre pre) (placement_kept q s pre)
  have plain (h : q.evaluation = []) (reads : q.writes = false) :
      (q.plan p).Stays p (placed p c).Ready s :=
    orderly (orderly_of_plain (reads ▸ q.plain_plan h))
  cases q with
  | eval => exact stays_eval pre
  | create => exact stays_create pre
  | template => exact orderly orderly_template
  | body => exact orderly orderly_body
  | check => exact ((contract_pre_of_le (by simp [Query.kind])).1 pre).elim
  | _ => exact plain rfl rfl

/-! ## The analysis of a class -/

theorem placed_initial : Placed p c Store.initial.memory := by
  have none (w : Warm) : Store.initial.memory.heap.creation? w = none := by
    simp [Store.memory, Store.initial, Heap.creation?, Numbering.item?, Numbering.empty]
  exact {
    toStocks := stocks_initial
    receivers := fun a e v hv => by simp [Store.memory, Store.initial, Cache.find?] at hv
    creations := fun w creation hw => by rw [none] at hw; cases hw
    earlier := fun w creation w' hw => by rw [none] at hw; cases hw }

theorem placed_allocated {h : Heap}
    (ok : Store.initial.heap.allocate (.thisOf c) (.new c [(c, .hot)]) = .ok h) :
    Placed p c { Store.initial.memory with heap := h } :=
  placed_initial.allocate .hot ok

theorem obeys_check_placed : (Plan.check p c).Obeys p ((placement p c).only fun _ _ => True)
    .initial fun _ _ => True :=
  placed_lawful.obeys_check (fun _ _ _ _ _ => trivial) fun _ h ok => by
    refine ⟨placed_allocated ok, rfl, ?_⟩
    change h.contains (.thisOf c) = true
    rw [Heap.contains, Heap.read_of_allocate ok, if_pos rfl]
    rfl

theorem stays_check : (Plan.check p c).Stays p (placed p c).Ready .initial := by
  have ready : (placed p c).Ready .initial := ⟨placed_initial, .empty⟩
  have obeys := obeys_check_placed (p := p) (c := c)
  unfold Plan.check at obeys ⊢
  split
  · next ctor hctor =>
    simp only [hctor] at obeys
    split
    · next e he =>
      simp only [he] at obeys
      rw [Plan.obeys_look_bind] at obeys
      have empty : Store.initial.heap.contains (.thisOf c) = false := by
        simp [Store.initial, Heap.contains, Heap.read]
      refine Plan.stays_look_bind ready ?_
      rw [empty] at obeys ⊢
      refine ⟨ready, fun _ t ht => ?_⟩
      have rest := obeys.2 () t ht
      obtain ⟨h, ok, rfl⟩ := Effect.run_allocate.1 ht
      exact orderly_of_plain ((Plan.plain_evalCalled _ _ e _ true).ret _) _ _
        ⟨placed_allocated ok, .empty⟩ rest
    · exact ready
  · exact ready

end Regime

open Regime

/-- In the analysis of a class, wherever a warm address occurs in the store, it stands for a way to
    create objects of its class, and wherever an address occurs, there is an object. Outer instances
    are not inside of two warm objects, arguments are hot or cold, and there are finitely many ways
    of creation. -/
theorem Query.inPlace_of_check {left : List Env}
    (h : (Query.check c).Reaches p .initial left s) : s.InPlace p c left := by
  obtain ⟨ready, envs⟩ :=
    placement_kept.reaches (fun q s => stays_plan q) obeys_check_placed stays_check h
  have placed := ready.inv
  have mentioned {a : Addr} (ha : s.Mentions left a) :
      s.heap.Knows c a ∧ s.heap.contains a = true := by
    cases ha with
    | field h hv => exact (placed.field _ _ _ h).mentions hv
    | outer h hv => exact (placed.outer _ _ _ h).mentions hv
    | env henv h hv =>
      rcases List.mem_cons.1 henv with rfl | henv
      · exact (ready.env _ _ h).mentions hv
      · obtain ⟨t, ready', rfl, ext⟩ := envs _ henv
        have before := fits_placed.1 (ready'.env _ _ h)
        have fits : (placing p c).Fits s.memory 0 _ := steady_placing ext before
        exact fits.mentions hv
    | receiver h => exact placed.receivers _ _ _ h
    | cached h hv => exact (placed.cached _ _ _ h).mentions hv
  refine ⟨fun w hw => (mentioned hw).1, fun w creation hw => ?_, fun w creation hw => ?_, ?_,
    fun a ha => (mentioned ha).2⟩
  · rcases (placed.creations w creation hw).2.2 with outer | outer | outer |
      ⟨w', creation', outer, hw', hcls, outmost⟩
    · exact .inl (.inl outer)
    · exact .inl (.inr (.inl outer))
    · exact .inl (.inr (.inr outer))
    · refine .inr ⟨w', creation', outer, placed.earlier w creation w' hw outer, hw', hcls, ?_⟩
      intro w'' inside
      rcases outmost with h | h | h <;> cases inside.symm.trans h
  · exact (placed.creations w creation hw).2.1
  · rw [← p.creationLimit_eq c]
    exact placed.creations.size_le

/-- A class `A` whose constructor creates another `A` inside of the current one. -/
def nestsA : Program := .ofCommands [
  .defineClass "A" .package .none true,
  .newInstanceWith ⟨.thisOf ⟨4⟩, ⟨4⟩⟩ ⟨14⟩ [],
  .appendStat ⟨4⟩ ⟨1⟩]

/-- The store after the check of `A`. -/
def nestsA.checked : Store := (Query.check ⟨4⟩).storeAfter nestsA 40 .initial

/-- There are four ways to create an `A`: inside of the one that is checked, inside of such a one,
    inside of one of which nothing is known, and inside of such a one. -/
theorem Query.inPlace_of_check_nestsA :
    (Query.check ⟨4⟩).Reaches nestsA .initial [] nestsA.checked ∧
      nestsA.checked.heap.creations.size = 4 ∧ nestsA.checked.InPlace nestsA ⟨4⟩ [] := by
  obtain ⟨o, answered, -⟩ := Query.answered_of_result? (p := nestsA) (n := 40)
    (q := .check ⟨4⟩) (s := .initial) (fun es => es.isEmpty) (by decide +kernel)
  exact ⟨answered.reaches, by decide +kernel, Query.inPlace_of_check answered.reaches⟩

end ObjectInit
