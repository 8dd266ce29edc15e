import Mathlib.Data.List.Dedup
import ObjectInit.Store.Heap

/-!
# Nested ways of creation

A heap gives out one warm address for each way of creation. The outer instance and the arguments of
a way of creation may themselves contain warm addresses, which stand for other ways of creation and
so on. A `NestedValue` spells them out: in place of each warm address it has the way of creation
that the address was given to. Both forms carry the same information, in every heap in which the
ways of creation have their numbers.

Main results:

* `Heap.GivesOut.number?`, `Heap.GivesOut.index_of_new`: which addresses a heap gives out.
* `NestedValue.eq_of_value?`: nested values with the same addresses are the same.
* `Heap.GivesOut.spellsOut`, `Value.exists_nested`: every value whose addresses were given out is
  that of a nested value, if no way of creation contains addresses that are given out later.
* `Heap.GivesOut.one_address_each`: addresses and ways of creation correspond to each other, now and
  later, at the top and nested.
-/

namespace ObjectInit

/-! ## Runs of a heap -/

/-- The second heap comes about from the first one. On the way it is asked for the addresses of ways
    of creation, and gives them out as recorded. Otherwise only its objects change. -/
inductive Heap.GivesOut (h : Heap) : List (Creation × Warm) → Heap → Prop
  | nothing : GivesOut h [] h
  | warmOf {calls : List (Creation × Warm)} {h' : Heap} (run : GivesOut h calls h')
    (creation : Creation) :
    GivesOut h (calls ++ [(creation, (h'.warmOf creation).1)]) (h'.warmOf creation).2
  | change {calls : List (Creation × Warm)} {h' h'' : Heap} (run : GivesOut h calls h')
    (same : h''.creations = h'.creations) : GivesOut h calls h''

/-! ## Values with their ways of creation -/

mutual

/-- An address with the way of creation that it stands for. -/
inductive NestedAddr where
  | thisOf (cls : ClassId)
  | warm (cls : ClassId) (outer : NestedValue) (ctor : SymbolId) (args : List NestedValue)

/-- A value with ways of creation in place of its warm addresses. -/
inductive NestedValue where
  | hot
  | cold
  | ref (addr : NestedAddr)
  | closure (body : ExprId) (params : List SymbolId) (receiver : NestedAddr) (cls : ClassId)
    (env : NestedEnv)
  | oneOf (members : List NestedValue)

/-- An environment of such values. -/
inductive NestedEnv where
  | empty
  | bind (symbol : SymbolId) (value : NestedValue) (rest : NestedEnv)

end

mutual

/-- The address that the heap has for a nested one. -/
def NestedAddr.addr? (h : Heap) : NestedAddr → Option Addr
  | .thisOf c => some (.thisOf c)
  | .warm c outer ctor args => do
    let creation := ⟨c, ← outer.value? h, ctor, ← NestedValue.values? h args⟩
    return .warm ⟨c, ← h.creations.number? creation⟩

/-- The nested value with the addresses that the heap has for its ways of creation, if all of them
    have a number. -/
def NestedValue.value? (h : Heap) : NestedValue → Option Value
  | .hot => some .hot
  | .cold => some .cold
  | .ref a => do return .ref (← a.addr? h)
  | .closure body params receiver c env => do
    return .closure body params ⟨← receiver.addr? h, c⟩ (← env.env? h)
  | .oneOf ts => do return .oneOf (← NestedValue.values? h ts)

/-- The values of nested ones. -/
def NestedValue.values? (h : Heap) : List NestedValue → Option (List Value)
  | [] => some []
  | t :: ts => do return (← t.value? h) :: (← NestedValue.values? h ts)

/-- The environment with the values of nested ones. -/
def NestedEnv.env? (h : Heap) : NestedEnv → Option Env
  | .empty => some .empty
  | .bind s t rest => do return .bind s (← t.value? h) (← rest.env? h)

end

def Addr.warms : Addr → List Warm
  | .thisOf _ => []
  | .warm w => [w]

mutual

/-- The warm addresses that occur in a value, also in what closures captured. -/
def Value.warms : Value → List Warm
  | .hot | .cold => []
  | .ref a => a.warms
  | .closure _ _ frame env => frame.receiver.warms ++ env.warms
  | .oneOf vs => Value.warmsOfAll vs

/-- The warm addresses that occur in values. -/
def Value.warmsOfAll : List Value → List Warm
  | [] => []
  | v :: vs => v.warms ++ Value.warmsOfAll vs

/-- The warm addresses that occur in an environment. -/
def Env.warms : Env → List Warm
  | .empty => []
  | .bind _ v rest => v.warms ++ rest.warms

end

variable {h h' : Heap}

/-! ### Parts of nested values -/

theorem NestedAddr.addr?_warm {c : ClassId} {outer : NestedValue} {ctor : SymbolId}
    {args : List NestedValue} {a : Addr} :
    (NestedAddr.warm c outer ctor args).addr? h = some a ↔
      ∃ v vs i, outer.value? h = some v ∧ NestedValue.values? h args = some vs ∧
        h.creations.number? ⟨c, v, ctor, vs⟩ = some i ∧ .warm ⟨c, i⟩ = a := by
  simp [addr?, Option.bind_eq_some_iff]

namespace NestedValue

theorem value?_ref {a : NestedAddr} {v : Value} :
    (NestedValue.ref a).value? h = some v ↔ ∃ b, a.addr? h = some b ∧ .ref b = v := by
  simp [value?, Option.bind_eq_some_iff]

theorem value?_closure {body : ExprId} {params : List SymbolId} {receiver : NestedAddr}
    {c : ClassId} {env : NestedEnv} {v : Value} :
    (NestedValue.closure body params receiver c env).value? h = some v ↔
      ∃ a env', receiver.addr? h = some a ∧ env.env? h = some env' ∧
        .closure body params ⟨a, c⟩ env' = v := by
  simp [value?, Option.bind_eq_some_iff]

theorem value?_oneOf {ts : List NestedValue} {v : Value} :
    (NestedValue.oneOf ts).value? h = some v ↔ ∃ vs, values? h ts = some vs ∧ .oneOf vs = v := by
  simp [value?, Option.bind_eq_some_iff]

theorem values?_cons {t : NestedValue} {ts : List NestedValue} {vs : List Value} :
    values? h (t :: ts) = some vs ↔
      ∃ w ws, t.value? h = some w ∧ values? h ts = some ws ∧ w :: ws = vs := by
  simp [values?, Option.bind_eq_some_iff]

end NestedValue

theorem NestedEnv.env?_bind {s : SymbolId} {t : NestedValue} {rest : NestedEnv} {env : Env} :
    (NestedEnv.bind s t rest).env? h = some env ↔
      ∃ v env', t.value? h = some v ∧ rest.env? h = some env' ∧ .bind s v env' = env := by
  simp [env?, Option.bind_eq_some_iff]

/-! ### Equal addresses -/

/-- A number belongs to one way of creation. -/
theorem Numbering.eq_of_number? {κ : Type} [Ord κ] [Std.TransOrd κ] {n : Numbering κ} {k l : κ}
    {i : Nat} (hk : n.number? k = some i) (hl : n.number? l = some i) : k = l := by
  rw [n.number?_eq_some_iff] at hk hl
  exact Option.some.inj (hk.symm.trans hl)

mutual

theorem NestedAddr.eq_of_addr? : ∀ {t u : NestedAddr} {a : Addr},
    t.addr? h = some a → u.addr? h = some a → t = u
  | .thisOf c, .thisOf d, a, ht, hu => by
    cases ht
    cases hu
    rfl
  | .thisOf c, .warm .., a, ht, hu => by
    obtain ⟨v, vs, i, -, -, -, rfl⟩ := NestedAddr.addr?_warm.1 hu
    cases ht
  | .warm .., .thisOf d, a, ht, hu => by
    obtain ⟨v, vs, i, -, -, -, rfl⟩ := NestedAddr.addr?_warm.1 ht
    cases hu
  | .warm c outer ctor args, .warm d outer' ctor' args', a, ht, hu => by
    obtain ⟨v, vs, i, outer_v, args_vs, number, rfl⟩ := NestedAddr.addr?_warm.1 ht
    obtain ⟨w, ws, j, outer_w, args_ws, number', same⟩ := NestedAddr.addr?_warm.1 hu
    cases same
    cases Numbering.eq_of_number? number number'
    rw [NestedValue.eq_of_value? outer_v outer_w, NestedValue.eq_of_values? args_vs args_ws]

theorem NestedValue.eq_of_value? : ∀ {t u : NestedValue} {v : Value},
    t.value? h = some v → u.value? h = some v → t = u
  | .hot, u, v, ht, hu | .cold, u, v, ht, hu => by
    cases ht
    cases u <;> simp_all [NestedValue.value?, Option.bind_eq_some_iff]
  | .ref a, u, v, ht, hu => by
    obtain ⟨b, hb, rfl⟩ := NestedValue.value?_ref.1 ht
    cases u
    case ref a' =>
      obtain ⟨b', hb', same⟩ := NestedValue.value?_ref.1 hu
      cases same
      rw [NestedAddr.eq_of_addr? hb hb']
    all_goals simp [NestedValue.value?, Option.bind_eq_some_iff] at hu
  | .closure body params receiver c env, u, v, ht, hu => by
    obtain ⟨a, e, ha, he, rfl⟩ := NestedValue.value?_closure.1 ht
    cases u
    case closure =>
      obtain ⟨a', e', ha', he', same⟩ := NestedValue.value?_closure.1 hu
      cases same
      rw [NestedAddr.eq_of_addr? ha ha', NestedEnv.eq_of_env? he he']
    all_goals simp [NestedValue.value?, Option.bind_eq_some_iff] at hu
  | .oneOf ts, u, v, ht, hu => by
    obtain ⟨vs, hvs, rfl⟩ := NestedValue.value?_oneOf.1 ht
    cases u
    case oneOf us =>
      obtain ⟨ws, hws, same⟩ := NestedValue.value?_oneOf.1 hu
      cases same
      rw [NestedValue.eq_of_values? hvs hws]
    all_goals simp [NestedValue.value?, Option.bind_eq_some_iff] at hu

theorem NestedValue.eq_of_values? : ∀ {ts us : List NestedValue} {vs : List Value},
    NestedValue.values? h ts = some vs → NestedValue.values? h us = some vs → ts = us
  | [], us, vs, ht, hu => by
    cases ht
    cases us <;> simp_all [NestedValue.values?, Option.bind_eq_some_iff]
  | t :: ts, us, vs, ht, hu => by
    obtain ⟨v, vs, hv, hvs, rfl⟩ := NestedValue.values?_cons.1 ht
    cases us
    case nil => simp [NestedValue.values?] at hu
    case cons u us =>
      obtain ⟨w, ws, hw, hws, same⟩ := NestedValue.values?_cons.1 hu
      cases same
      rw [NestedValue.eq_of_value? hv hw, NestedValue.eq_of_values? hvs hws]

theorem NestedEnv.eq_of_env? : ∀ {t u : NestedEnv} {env : Env},
    t.env? h = some env → u.env? h = some env → t = u
  | .empty, u, env, ht, hu => by
    cases ht
    cases u <;> simp_all [NestedEnv.env?, Option.bind_eq_some_iff]
  | .bind s t rest, u, env, ht, hu => by
    obtain ⟨v, e, hv, he, rfl⟩ := NestedEnv.env?_bind.1 ht
    cases u
    case empty => simp [NestedEnv.env?] at hu
    case bind s' u rest' =>
      obtain ⟨v', e', hv', he', same⟩ := NestedEnv.env?_bind.1 hu
      cases same
      rw [NestedValue.eq_of_value? hv hv', NestedEnv.eq_of_env? he he']

end

/-! ### Later heaps -/

/-- What has a number in the first heap has it in the second one. -/
def Heap.KeepsNumbers (h h' : Heap) : Prop :=
  ∀ k i, h.creations.number? k = some i → h'.creations.number? k = some i

mutual

theorem NestedAddr.addr?_later (kept : h.KeepsNumbers h') : ∀ {t : NestedAddr} {a : Addr},
    t.addr? h = some a → t.addr? h' = some a
  | .thisOf c, a, ht => ht
  | .warm c outer ctor args, a, ht => by
    obtain ⟨v, vs, i, outer_v, args_vs, number, rfl⟩ := NestedAddr.addr?_warm.1 ht
    exact NestedAddr.addr?_warm.2 ⟨v, vs, i, NestedValue.value?_later kept outer_v,
      NestedValue.values?_later kept args_vs, kept _ i number, rfl⟩

theorem NestedValue.value?_later (kept : h.KeepsNumbers h') : ∀ {t : NestedValue} {v : Value},
    t.value? h = some v → t.value? h' = some v
  | .hot, v, ht | .cold, v, ht => ht
  | .ref a, v, ht => by
    obtain ⟨b, hb, rfl⟩ := NestedValue.value?_ref.1 ht
    exact NestedValue.value?_ref.2 ⟨b, NestedAddr.addr?_later kept hb, rfl⟩
  | .closure body params receiver c env, v, ht => by
    obtain ⟨a, e, ha, he, rfl⟩ := NestedValue.value?_closure.1 ht
    exact NestedValue.value?_closure.2
      ⟨a, e, NestedAddr.addr?_later kept ha, NestedEnv.env?_later kept he, rfl⟩
  | .oneOf ts, v, ht => by
    obtain ⟨vs, hvs, rfl⟩ := NestedValue.value?_oneOf.1 ht
    exact NestedValue.value?_oneOf.2 ⟨vs, NestedValue.values?_later kept hvs, rfl⟩

theorem NestedValue.values?_later (kept : h.KeepsNumbers h') :
    ∀ {ts : List NestedValue} {vs : List Value},
    NestedValue.values? h ts = some vs → NestedValue.values? h' ts = some vs
  | [], vs, ht => ht
  | t :: ts, vs, ht => by
    obtain ⟨v, vs, hv, hvs, rfl⟩ := NestedValue.values?_cons.1 ht
    exact NestedValue.values?_cons.2
      ⟨v, vs, NestedValue.value?_later kept hv, NestedValue.values?_later kept hvs, rfl⟩

theorem NestedEnv.env?_later (kept : h.KeepsNumbers h') : ∀ {t : NestedEnv} {env : Env},
    t.env? h = some env → t.env? h' = some env
  | .empty, env, ht => ht
  | .bind s t rest, env, ht => by
    obtain ⟨v, e, hv, he, rfl⟩ := NestedEnv.env?_bind.1 ht
    exact NestedEnv.env?_bind.2
      ⟨v, e, NestedValue.value?_later kept hv, NestedEnv.env?_later kept he, rfl⟩

end

/-! ### Spelling out -/

/-- The address can be spelled out, with all addresses in its way of creation. -/
def Heap.SpellsOut (h : Heap) (w : Warm) : Prop := ∃ t : NestedAddr, t.addr? h = some (.warm w)

theorem Addr.exists_nested {a : Addr} (known : ∀ w ∈ a.warms, h.SpellsOut w) :
    ∃ t : NestedAddr, t.addr? h = some a := by
  cases a with
  | thisOf c => exact ⟨.thisOf c, rfl⟩
  | warm w => exact known w List.mem_cons_self

theorem Value.mem_warmsOfAll {vs : List Value} {w : Warm} :
    w ∈ warmsOfAll vs ↔ ∃ v ∈ vs, w ∈ v.warms := by
  induction vs with
  | nil => simp [warmsOfAll]
  | cons v vs ih => simp [warmsOfAll, ih]

theorem Heap.SpellsOut.later {w : Warm} (spells : h.SpellsOut w) (kept : h.KeepsNumbers h') :
    h'.SpellsOut w := by
  obtain ⟨t, ht⟩ := spells
  exact ⟨t, NestedAddr.addr?_later kept ht⟩

mutual

/-- A value can be spelled out if the addresses in it can. -/
theorem Value.exists_nested : ∀ {v : Value}, (∀ w ∈ v.warms, h.SpellsOut w) →
    ∃ t : NestedValue, t.value? h = some v
  | .hot, _ => ⟨.hot, rfl⟩
  | .cold, _ => ⟨.cold, rfl⟩
  | .ref a, known => by
    obtain ⟨t, ht⟩ := Addr.exists_nested known
    exact ⟨.ref t, NestedValue.value?_ref.2 ⟨a, ht, rfl⟩⟩
  | .closure body params frame env, known => by
    obtain ⟨receiver, captured⟩ := List.forall_mem_append.1 known
    obtain ⟨t, ht⟩ := Addr.exists_nested receiver
    obtain ⟨u, hu⟩ := Env.exists_nested captured
    exact ⟨.closure body params t frame.cls u,
      NestedValue.value?_closure.2 ⟨frame.receiver, env, ht, hu, rfl⟩⟩
  | .oneOf vs, known => by
    obtain ⟨ts, hts⟩ := Value.exists_nestedAll known
    exact ⟨.oneOf ts, NestedValue.value?_oneOf.2 ⟨vs, hts, rfl⟩⟩

theorem Value.exists_nestedAll : ∀ {vs : List Value}, (∀ w ∈ Value.warmsOfAll vs, h.SpellsOut w) →
    ∃ ts : List NestedValue, NestedValue.values? h ts = some vs
  | [], _ => ⟨[], rfl⟩
  | v :: vs, known => by
    obtain ⟨first, rest⟩ := List.forall_mem_append.1 known
    obtain ⟨t, ht⟩ := Value.exists_nested first
    obtain ⟨ts, hts⟩ := Value.exists_nestedAll rest
    exact ⟨t :: ts, NestedValue.values?_cons.2 ⟨v, vs, ht, hts, rfl⟩⟩

theorem Env.exists_nested : ∀ {env : Env}, (∀ w ∈ env.warms, h.SpellsOut w) →
    ∃ t : NestedEnv, t.env? h = some env
  | .empty, _ => ⟨.empty, rfl⟩
  | .bind s v rest, known => by
    obtain ⟨first, others⟩ := List.forall_mem_append.1 known
    obtain ⟨t, ht⟩ := Value.exists_nested first
    obtain ⟨u, hu⟩ := Env.exists_nested others
    exact ⟨.bind s t u, NestedEnv.env?_bind.2 ⟨v, rest, ht, hu, rfl⟩⟩

end

/-! ## What a run gives out -/

/-- The parts of every way of creation contain only addresses that were given out before it. -/
def Heap.InOrder (calls : List (Creation × Warm)) : Prop :=
  ∀ before k w after, calls = before ++ (k, w) :: after →
    ∀ v ∈ k.outer :: k.args, ∀ x ∈ v.warms, x ∈ before.map Prod.snd

theorem Heap.InOrder.of_append {calls calls' : List (Creation × Warm)}
    (inOrder : InOrder (calls ++ calls')) : InOrder calls := by
  rintro before k w after rfl
  exact inOrder before k w (after ++ calls') (List.append_assoc ..)

namespace Heap.GivesOut

variable {calls later before after : List (Creation × Warm)} {k l : Creation} {w x : Warm} {i : Nat}

theorem keepsNumbers (run : h.GivesOut calls h') : h.KeepsNumbers h' := by
  intro k i hk
  induction run with
  | nothing => exact hk
  | warmOf run creation ih =>
    rw [Heap.warmOf, Numbering.number?_add]
    split
    · next same => rw [← same, Numbering.number, ih, Option.getD_some]
    · exact ih
  | change run same ih => rwa [same]

/-- A run is cut where it gives out an address. -/
theorem split (run : h.GivesOut (before ++ (k, w) :: after) h') :
    ∃ g, h.GivesOut before g ∧ w = (g.warmOf k).1 ∧ (g.warmOf k).2.GivesOut after h' := by
  generalize whole : before ++ (k, w) :: after = calls at run
  induction run generalizing after with
  | nothing => simp at whole
  | @warmOf calls g run creation ih =>
    rcases List.eq_nil_or_concat after with rfl | ⟨after, last, rfl⟩
    · obtain ⟨rfl, same⟩ := List.append_inj' whole rfl
      cases same
      exact ⟨g, run, rfl, .nothing⟩
    · rw [List.concat_eq_append, ← List.cons_append, ← List.append_assoc] at whole
      obtain ⟨rfl, same⟩ := List.append_inj' whole rfl
      obtain ⟨g', first, rfl, rest⟩ := ih rfl
      rw [List.concat_eq_append, same]
      exact ⟨g', first, rfl, .warmOf rest creation⟩
  | change run same ih =>
    obtain ⟨g, first, rfl, rest⟩ := ih whole
    exact ⟨g, first, rfl, .change rest same⟩

/-- An address that was given out has the class and the number of its way of creation. -/
theorem number? (run : h.GivesOut calls h') (call : (k, w) ∈ calls) :
    w.cls = k.cls ∧ h'.creations.number? k = some w.index := by
  obtain ⟨before, after, rfl⟩ := List.append_of_mem call
  obtain ⟨g, -, rfl, rest⟩ := run.split
  refine ⟨rfl, rest.keepsNumbers _ _ ?_⟩
  rw [Heap.warmOf, Numbering.number?_add, if_pos rfl]

/-- The numbered ways of creation are those that the heap was asked for. -/
theorem mem_creations (run : ({} : Heap).GivesOut calls h) :
    k ∈ h.creations.toList ↔ k ∈ calls.map Prod.fst := by
  induction run with
  | nothing => simp
  | @warmOf calls g run creation ih =>
    rw [List.map_append, List.mem_append, ← ih, List.map_singleton, List.mem_singleton,
      Heap.warmOf, Numbering.toList_add]
    split
    · next known =>
      rw [← Numbering.mem_toList_iff] at known
      exact ⟨.inl, fun mem => mem.elim id fun same => same ▸ known⟩
    · rw [List.mem_append, List.mem_singleton]
  | change run same ih => rw [same, ih]

/-- There are as many numbers as different ways of creation. -/
theorem size_creations (run : ({} : Heap).GivesOut calls h) :
    h.creations.size = (calls.map Prod.fst).dedup.length := by
  have perm : h.creations.toList.Perm (calls.map Prod.fst).dedup := by
    rw [List.perm_ext_iff_of_nodup h.creations.nodup_toList (List.nodup_dedup _)]
    intro k
    rw [List.mem_dedup, run.mem_creations]
  rw [← perm.length_eq, Numbering.length_toList]

/-- A new way of creation gets the next number. -/
theorem index_of_new (run : ({} : Heap).GivesOut (before ++ (k, w) :: after) h)
    (new : k ∉ before.map Prod.fst) : w.index = (before.map Prod.fst).dedup.length := by
  obtain ⟨g, first, rfl, -⟩ := run.split
  rw [← first.mem_creations, Numbering.mem_toList_iff, Bool.not_eq_true, Option.isSome_eq_false_iff,
    Option.isNone_iff_eq_none] at new
  rw [← first.size_creations]
  simp [Heap.warmOf, Numbering.number, new]

/-- If every way of creation contains only addresses that were given out before it, then all
    addresses can be spelled out. -/
theorem spellsOut (run : ({} : Heap).GivesOut calls h) (inOrder : InOrder calls) :
    ∀ w ∈ calls.map Prod.snd, h.SpellsOut w := by
  induction run with
  | nothing => simp
  | @warmOf calls g run creation ih =>
    have asked : g.GivesOut [(creation, (g.warmOf creation).1)] (g.warmOf creation).2 :=
      nothing.warmOf creation
    have kept := asked.keepsNumbers
    have old := ih inOrder.of_append
    have parts := inOrder calls creation _ [] rfl
    obtain ⟨outer, houter⟩ := Value.exists_nested fun x hx =>
      old x (parts _ List.mem_cons_self x hx)
    obtain ⟨args, hargs⟩ := Value.exists_nestedAll fun x hx => by
      obtain ⟨v, hv, hx⟩ := Value.mem_warmsOfAll.1 hx
      exact old x (parts v (List.mem_cons_of_mem _ hv) x hx)
    have number := asked.number? List.mem_cons_self
    rw [List.map_append, List.forall_mem_append]
    refine ⟨fun w hw => (old w hw).later kept, List.forall_mem_singleton.2 ?_⟩
    refine ⟨.warm creation.cls outer creation.ctor args, NestedAddr.addr?_warm.2 ?_⟩
    exact ⟨creation.outer, creation.args, _, NestedValue.value?_later kept houter,
      NestedValue.values?_later kept hargs, number.2, rfl⟩
  | change run same ih =>
    have kept := (change nothing same).keepsNumbers
    exact fun w hw => (ih inOrder w hw).later kept

/-- A heap gives out one address for each way of creation, with its class and, for a new one, with
    the number of different ones before it; and this is what the address stands for from then on.
    Values correspond to nested values in the same way: two values, now or later, are equal exactly
    if they have the same ways of creation in place of their addresses. Every value whose addresses
    were given out can be spelled out like this, if no way of creation contains an address before
    the heap gives it out. -/
theorem one_address_each (run : ({} : Heap).GivesOut calls h) (goesOn : h.GivesOut later h') :
    (∀ k w, (k, w) ∈ calls → w.cls = k.cls ∧ h'.creation? w = some k) ∧
      (∀ k w l x, (k, w) ∈ calls → (l, x) ∈ calls ++ later → (w = x ↔ k = l)) ∧
      (∀ before k w after, calls = before ++ (k, w) :: after → k ∉ before.map Prod.fst →
        w.index = (before.map Prod.fst).dedup.length) ∧
      (∀ (t : NestedValue) v, t.value? h = some v →
        t.value? h' = some v ∧ ∀ u w, NestedValue.value? h' u = some w → (v = w ↔ t = u)) ∧
      (InOrder calls → ∀ v : Value, (∀ w ∈ v.warms, w ∈ calls.map Prod.snd) →
        ∃ t : NestedValue, t.value? h = some v) := by
  have kept := goesOn.keepsNumbers
  have found (k w) (call : (k, w) ∈ calls) :
      w.cls = k.cls ∧ h'.creations.number? k = some w.index := by
    obtain ⟨cls, number⟩ := run.number? call
    exact ⟨cls, kept _ _ number⟩
  have foundLater (l x) (call : (l, x) ∈ calls ++ later) :
      x.cls = l.cls ∧ h'.creations.number? l = some x.index :=
    (List.mem_append.1 call).elim (found l x) goesOn.number?
  refine ⟨fun k w call => ?_, fun k w l x call call' => ⟨?_, ?_⟩, ?_, fun t v ht => ?_,
    fun inOrder v known => Value.exists_nested fun w hw => run.spellsOut inOrder w (known w hw)⟩
  · obtain ⟨cls, number⟩ := found k w call
    exact ⟨cls, (h'.creations.number?_eq_some_iff k w.index).1 number⟩
  · rintro rfl
    exact Numbering.eq_of_number? (found k w call).2 (foundLater l w call').2
  · rintro rfl
    obtain ⟨cls, number⟩ := found k w call
    obtain ⟨cls', number'⟩ := foundLater k x call'
    rw [number] at number'
    rcases w with ⟨c, i⟩
    rcases x with ⟨d, j⟩
    cases cls
    cases cls'
    cases number'
    rfl
  · rintro before k w after rfl new
    exact run.index_of_new new
  · have ht' := NestedValue.value?_later kept ht
    refine ⟨ht', fun u w hu => ⟨?_, ?_⟩⟩
    · rintro rfl
      exact NestedValue.eq_of_value? ht' hu
    · rintro rfl
      exact Option.some.inj (ht'.symm.trans hu)

end Heap.GivesOut

/-- An instance of a class `A`. -/
def Creation.ofA : Creation := ⟨⟨4⟩, .hot, ⟨14⟩, [.hot]⟩

/-- An instance of a class `B` inside of the instance of `A`, created with a closure of it. -/
def Creation.ofB : Creation :=
  ⟨⟨5⟩, .ref (.warm ⟨⟨4⟩, 0⟩), ⟨15⟩, [.closure ⟨2⟩ [] ⟨.warm ⟨⟨4⟩, 0⟩, ⟨4⟩⟩ .empty]⟩

/-- The instance of `B`, spelled out. -/
def NestedValue.ofB : NestedValue :=
  let a : NestedAddr := .warm ⟨4⟩ .hot ⟨14⟩ [.hot]
  .ref (.warm ⟨5⟩ (.ref a) ⟨15⟩ [.closure ⟨2⟩ [] a ⟨4⟩ .empty])

/-- The heap that gave out addresses for both. -/
def Heap.ofAAndB : Heap := ((({} : Heap).warmOf .ofA).2.warmOf .ofB).2

/-- The two instances have the numbers 0 and 1. When the heap is asked for the first one again, the
    answer is the same, and the second address still stands for the same nested value only. -/
theorem Heap.GivesOut.one_address_each_ofB :
    ({} : Heap).GivesOut [(.ofA, ⟨⟨4⟩, 0⟩), (.ofB, ⟨⟨5⟩, 1⟩)] ofAAndB ∧
      ofAAndB.GivesOut [(.ofA, ⟨⟨4⟩, 0⟩)] (ofAAndB.warmOf .ofA).2 ∧
      InOrder [(.ofA, ⟨⟨4⟩, 0⟩), (.ofB, ⟨⟨5⟩, 1⟩)] ∧
      NestedValue.ofB.value? ofAAndB = some (.ref (.warm ⟨⟨5⟩, 1⟩)) ∧
      (ofAAndB.warmOf .ofA).2.creation? ⟨⟨5⟩, 1⟩ = some .ofB ∧
      ∀ u : NestedValue, u.value? (ofAAndB.warmOf .ofA).2 = some (.ref (.warm ⟨⟨5⟩, 1⟩)) →
        NestedValue.ofB = u := by
  have first : ({} : Heap).GivesOut [(.ofA, ⟨⟨4⟩, 0⟩), (.ofB, ⟨⟨5⟩, 1⟩)] ofAAndB :=
    (nothing.warmOf .ofA).warmOf .ofB
  have again : ofAAndB.GivesOut [(.ofA, ⟨⟨4⟩, 0⟩)] (ofAAndB.warmOf .ofA).2 :=
    nothing.warmOf .ofA
  have inOrder : InOrder [(.ofA, ⟨⟨4⟩, 0⟩), (.ofB, ⟨⟨5⟩, 1⟩)] := by
    intro before k w after same
    match before with
    | [] =>
      cases same
      decide +kernel
    | [_] =>
      cases same
      decide +kernel
    | _ :: _ :: before => simp at same
  have spelled : NestedValue.ofB.value? ofAAndB = some (.ref (.warm ⟨⟨5⟩, 1⟩)) := by
    decide +kernel
  obtain ⟨stands, -, -, nested, -⟩ := one_address_each first again
  obtain ⟨-, same⟩ := nested _ _ spelled
  exact ⟨first, again, inOrder, spelled, (stands .ofB ⟨⟨5⟩, 1⟩ (by simp)).2,
    fun u hu => (same u _ hu).1 rfl⟩

end ObjectInit
