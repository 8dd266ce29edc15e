import ObjectInit.Analysis.Invocation

/-!
# Values in environments

Environments are made by binding symbols one after the other, so what holds of the values that are
bound holds of the whole environment (`Env.Binds`), and the bindings are in order (`Env.Ascending`).
Parameters are bound to hot values or to widened ones, of which nothing is known.

Main results:

* `Env.Binds.extend`: what an environment binds after further bindings.
* `Env.isHot_iff`: an environment whose bindings are in order is hot if all values that are found in
  it are.
* `Value.hot_or_cold_widen`: a widened value is hot or cold.
-/

namespace ObjectInit

/-- A join is `hot` or `cold` where both values are. -/
theorem Value.hot_or_cold_join {v w : Value} (hv : v = .hot ∨ v = .cold)
    (hw : w = .hot ∨ w = .cold) : v.join w = .hot ∨ v.join w = .cold := by
  rcases hv with rfl | rfl <;> rcases hw with rfl | rfl
  · exact .inl rfl
  · exact .inr rfl
  · exact .inr rfl
  · exact .inr (Value.join_self _)

mutual

/-- Nothing is known about a widened value, unless it is hot. -/
theorem Value.hot_or_cold_widen : ∀ v : Value, v.widen = .hot ∨ v.widen = .cold
  | .hot => .inl rfl
  | .cold | .ref _ | .closure .. => .inr rfl
  | .oneOf vs => by
    suffices ∀ v, (v = .hot ∨ v = .cold) → ((Value.widenAll vs).foldl Value.join v = .hot ∨
        (Value.widenAll vs).foldl Value.join v = .cold) from this .hot (.inl rfl)
    have members := Value.hot_or_cold_widenAll vs
    generalize Value.widenAll vs = ws at members
    induction ws with
    | nil => exact fun v hv => hv
    | cons w ws ih =>
      exact fun v hv => ih (fun u hu => members u (List.mem_cons_of_mem w hu)) _
        (Value.hot_or_cold_join hv (members w List.mem_cons_self))

theorem Value.hot_or_cold_widenAll : ∀ vs, ∀ v ∈ Value.widenAll vs, v = .hot ∨ v = .cold
  | [], _, h => absurd h List.not_mem_nil
  | v :: vs, u, h => by
    rcases List.mem_cons.1 h with rfl | h
    · exact Value.hot_or_cold_widen v
    · exact Value.hot_or_cold_widenAll vs u h

end

/-- What holds of a set as soon as it holds of all members holds of the set that lists stand for. -/
theorem Value.ofMembers_induction {P : Value → Prop} (oneOf : ∀ vs, (∀ v ∈ vs, P v) → P (.oneOf vs))
    {vs : List Value} (h : ∀ v ∈ vs, P v) : P (Value.ofMembers vs) := by
  have kept : ∀ v ∈ vs.filter fun v => !v.isWarmOf (vs.filterMap Value.classOfThis?), P v :=
    fun v hv => h v (List.mem_filter.1 hv).1
  unfold Value.ofMembers
  dsimp only
  split
  · next v hv =>
    rw [hv] at kept
    exact kept v List.mem_cons_self
  · exact oneOf _ kept

/-- What holds of a set exactly if it holds of all members holds of a join: it is made of the
    members of both values. -/
theorem Value.join_induction {P : Value → Prop} (cold : P .cold)
    (oneOf : ∀ vs, P (.oneOf vs) ↔ ∀ v ∈ vs, P v) {v w : Value} (hv : P v) (hw : P w) :
    P (v.join w) := by
  have members {v : Value} (hv : P v) : ∀ u ∈ v.members, P u := by
    cases v with
    | oneOf vs => exact (oneOf vs).1 hv
    | _ => exact List.forall_mem_singleton.2 hv
  have union : ∀ u ∈ Value.union (Value.distinct v.members) (Value.distinct w.members), P u := by
    intro u hu
    rw [Value.mem_union, Value.mem_distinct, Value.mem_distinct] at hu
    exact hu.elim (members hv u) (members hw u)
  unfold Value.join
  split
  · exact hw
  · exact hv
  · exact cold
  · exact cold
  · split
    · exact hv
    · exact ofMembers_induction (fun vs => (oneOf vs).2) union

/-- What a join keeps is kept by the join of all values in a list. -/
theorem Value.joinAll_induction {P : Value → Prop} (hot : P .hot)
    (join : ∀ v w, P v → P w → P (v.join w)) {vs : List Value} (h : ∀ v ∈ vs, P v) :
    P (joinAll vs) := by
  suffices ∀ v, P v → P (vs.foldl Value.join v) from this .hot hot
  induction vs with
  | nil => exact fun v hv => hv
  | cons w vs ih =>
    exact fun v hv => ih (fun u hu => h u (List.mem_cons_of_mem w hu)) _
      (join v w hv (h w List.mem_cons_self))

namespace Env

/-- Every value that the environment binds is as described. -/
def Binds (P : Value → Prop) (env : Env) : Prop := ∀ x v, env.lookup x = some v → P v

variable {P : Value → Prop} {env : Env}

theorem Binds.empty : Env.empty.Binds P := nofun

theorem Binds.set (h : env.Binds P) {x : SymbolId} {v : Value} (hv : P v) :
    (env.set x v).Binds P := by
  intro y w hw
  rw [Env.lookup_set] at hw
  split at hw
  · cases hw
    exact hv
  · exact h y w hw

theorem Binds.extend (h : env.Binds P) {bindings : List (SymbolId × Value)}
    (hb : ∀ b ∈ bindings, P b.2) : (env.extend bindings).Binds P := by
  unfold Env.extend
  induction bindings generalizing env with
  | nil => exact h
  | cons b bindings ih =>
    exact ih (h.set (hb b List.mem_cons_self)) fun b' hb' => hb b' (List.mem_cons_of_mem b hb')

theorem Binds.ofList {bindings : List (SymbolId × Value)} (hb : ∀ b ∈ bindings, P b.2) :
    (Env.ofList bindings).Binds P :=
  Binds.empty.extend hb

/-- Parameters that are bound to hot values. -/
theorem of_hotParams (hot : P .hot) {params : List SymbolId} :
    ∀ b ∈ params.map fun x => (x, Value.hot), P b.2 := by
  intro b hb
  obtain ⟨x, -, rfl⟩ := List.mem_map.1 hb
  exact hot

/-- Parameters that are bound to widened arguments. -/
theorem of_widenedBindings (hot : P .hot) (cold : P .cold) {params : List SymbolId}
    {args : List ArgValue} : ∀ b ∈ Plan.widenedBindings params args, P b.2 := by
  intro b hb
  obtain ⟨arg, -, harg⟩ := List.mem_map.1 (List.of_mem_zip hb).2
  rw [← harg]
  rcases Value.hot_or_cold_widen arg.value with h | h
  · exact h.symm ▸ hot
  · exact h.symm ▸ cold

/-! ## The order of the bindings -/

/-- The bindings are in the ascending order of their symbols. -/
def Ascending : Env → Prop
  | empty => True
  | bind s _ rest => (∀ x v, rest.lookup x = some v → s.index < x.index) ∧ rest.Ascending

theorem Ascending.set (s : SymbolId) (v : Value) :
    ∀ {env : Env}, env.Ascending → (env.set s v).Ascending
  | empty, _ => ⟨nofun, trivial⟩
  | bind t w rest, h => by
    rw [Env.set]
    by_cases hs : s = t
    · rw [if_pos hs, hs]
      exact h
    by_cases hlt : s.index < t.index
    · rw [if_neg hs, if_pos hlt]
      refine ⟨fun x u hx => ?_, h⟩
      rw [lookup] at hx
      split at hx
      · next hxt => exact hxt ▸ hlt
      · exact Nat.lt_trans hlt (h.1 x u hx)
    · rw [if_neg hs, if_neg hlt]
      refine ⟨fun x u hx => ?_, Ascending.set s v h.2⟩
      rw [lookup_set] at hx
      split at hx
      · next hxs =>
        have hne : s.index ≠ t.index := fun heq => hs (by cases s; cases t; cases heq; rfl)
        rw [hxs]
        omega
      · exact h.1 x u hx

theorem Ascending.extend (h : env.Ascending) (bindings : List (SymbolId × Value)) :
    (env.extend bindings).Ascending := by
  unfold Env.extend
  induction bindings generalizing env with
  | nil => exact h
  | cons b bindings ih => exact ih (.set b.1 b.2 h)

theorem ascending_ofList (bindings : List (SymbolId × Value)) : (ofList bindings).Ascending :=
  have none : empty.Ascending := trivial
  none.extend bindings

/-- Where the bindings are in order, no binding is hidden behind another one. -/
theorem isHot_iff :
    ∀ {env : Env}, env.Ascending → (env.isHot = true ↔ env.Binds fun v => v.isHot = true)
  | empty, _ => ⟨fun _ => .empty, fun _ => rfl⟩
  | bind s v rest, h => by
    rw [isHot, Bool.and_eq_true, isHot_iff h.2]
    constructor
    · rintro ⟨hv, hrest⟩ x w hx
      rw [lookup] at hx
      split at hx
      · cases hx
        exact hv
      · exact hrest x w hx
    · refine fun all => ⟨all s v (if_pos rfl), fun x w hx => all x w ?_⟩
      have hne : x ≠ s := fun heq => Nat.lt_irrefl _ (heq ▸ h.1 x w hx)
      rw [lookup, if_neg hne, hx]

/-- Further bindings do not tell apart environments in which a symbol has the same value. -/
theorem lookup_extend_congr {env' : Env} {x : SymbolId} (h : env.lookup x = env'.lookup x)
    (bindings : List (SymbolId × Value)) :
    (env.extend bindings).lookup x = (env'.extend bindings).lookup x := by
  unfold Env.extend
  induction bindings generalizing env env' with
  | nil => exact h
  | cons b bindings ih =>
    refine ih ?_
    rw [lookup_set, lookup_set, h]

theorem lookup_extend_of_unbound {x : SymbolId} {bindings : List (SymbolId × Value)}
    (h : ∀ b ∈ bindings, x ≠ b.1) : (env.extend bindings).lookup x = env.lookup x := by
  unfold Env.extend
  induction bindings generalizing env with
  | nil => rfl
  | cons b bindings ih =>
    rw [List.foldl_cons, ih fun b' hb' => h b' (List.mem_cons_of_mem b hb'), lookup_set,
      if_neg (h b List.mem_cons_self)]

end Env

end ObjectInit
