import ObjectInit.Proofs.Environments
import ObjectInit.Proofs.Lattice
import ObjectInit.Proofs.Promotion

/-!
# Widened values

Arguments are widened before they become part of a warm object's address. Widening forgets
everything but whether a value is hot, so it does not matter whether branches are joined before or
after it, and in which order.

Main results:

* `Value.widen_join`: the join of two values is widened to the join of the widened values.
* `Value.widen_closure`: widening is a closure operator on values in their canonical form.
-/

namespace ObjectInit.Value

variable {v w : Value} {vs : List Value}

/-- The value is `hot`, `cold`, a single object or closure, or an ascending set of several of them
    in which no warm object stands beside the object under construction of its class. What closures
    captured may be in any form, unlike in `Normal` values. -/
inductive Canonical : Value → Prop
  | hot : Canonical .hot
  | cold : Canonical .cold
  | single {v : Value} (h : v.isSingle) : Canonical v
  | oneOf {vs : List Value} (size : 2 ≤ vs.length) (ascending : Ascending vs)
    (single : ∀ v ∈ vs, v.isSingle)
    (apart : ∀ x : Warm, ref (.warm x) ∈ vs → ref (.thisOf x.cls) ∉ vs) : Canonical (.oneOf vs)

/-! ## Members -/

theorem ne_hot_of_isSingle (h : v.isSingle) : v ≠ hot := by
  rintro rfl
  simp [isSingle] at h

theorem members_of_isSingle (h : v.isSingle) : v.members = [v] := by
  cases v <;> simp_all [isSingle, members]

namespace Canonical

/-- A value that is neither `hot` nor `cold` has members, which are single objects and closures. -/
theorem members (h : v.Canonical) (hot : v ≠ .hot) (cold : v ≠ .cold) :
    v.members ≠ [] ∧ ∀ u ∈ v.members, u.isSingle := by
  cases h with
  | hot => exact absurd rfl hot
  | cold => exact absurd rfl cold
  | single h => simpa [members_of_isSingle h] using h
  | oneOf size _ single =>
    have ne := List.ne_nil_of_length_pos (Nat.lt_of_lt_of_le Nat.two_pos size)
    exact ⟨ne, single⟩

/-- Only `hot` is below `hot`. -/
theorem eq_hot_of_below (h : v.Canonical) (below : v.Below .hot) : v = .hot := by
  by_contra hot
  rcases below with rfl | below | ⟨cold, -, below⟩
  · exact hot rfl
  · cases below
  obtain ⟨ne, single⟩ := h.members hot cold
  obtain ⟨u, hu⟩ := List.exists_mem_of_ne_nil _ ne
  rcases below u hu with mem | ⟨x, -, this⟩
  · exact ne_hot_of_isSingle (single u hu) (List.mem_singleton.1 mem)
  · cases List.mem_singleton.1 this

end Canonical

/-! ## Widened sets -/

theorem widen_of_isSingle (h : v.isSingle) : v.widen = cold := by
  cases v <;> simp_all [isSingle, widen]

theorem foldl_join_cold (vs : List Value) : vs.foldl join cold = cold := by
  induction vs with
  | nil => rfl
  | cons v vs ih => simpa [cold_join] using ih

/-- One object or closure is enough to make the widened set `cold`. -/
theorem widen_oneOf (ne : vs ≠ []) (single : ∀ v ∈ vs, v.isSingle) : (oneOf vs).widen = cold := by
  cases vs with
  | nil => exact absurd rfl ne
  | cons v vs =>
    have first := widen_of_isSingle (single v List.mem_cons_self)
    show (widenAll vs).foldl join (hot.join v.widen) = cold
    rw [hot_join, first, foldl_join_cold]

/-- It makes no difference that subsumed members were left out, since some member is kept. -/
theorem widen_ofMembers (ne : vs ≠ []) (single : ∀ v ∈ vs, v.isSingle) :
    (ofMembers vs).widen = cold := by
  have kept : ∀ v ∈ maximal vs, v.isSingle := fun v hv => single v (mem_maximal.1 hv).1
  by_cases h : ∃ u, maximal vs = [u]
  · obtain ⟨u, hu⟩ := h
    rw [ofMembers_of_single hu]
    apply widen_of_isSingle
    apply kept
    simp [hu]
  · rw [ofMembers_of_several fun u hu => h ⟨u, hu⟩]
    exact widen_oneOf (maximal_ne_nil ne) kept

/-! ## Widening as a closure operator -/

theorem Canonical.widen_of_ne (h : v.Canonical) (ne : v ≠ .hot) : v.widen = .cold := by
  cases h with
  | hot => exact absurd rfl ne
  | cold => rfl
  | single h => exact widen_of_isSingle h
  | oneOf size _ single =>
    have ne := List.ne_nil_of_length_pos (Nat.lt_of_lt_of_le Nat.two_pos size)
    exact widen_oneOf ne single

/-- The join of two values is widened to the join of the widened values. -/
theorem widen_join (hv : v.Canonical) (hw : w.Canonical) :
    (v.join w).widen = v.widen.join w.widen := by
  by_cases v_hot : v = hot
  · simp [v_hot, widen]
  by_cases w_hot : w = hot
  · simp [w_hot, widen]
  rw [hv.widen_of_ne v_hot, hw.widen_of_ne w_hot, join_self]
  by_cases v_cold : v = cold
  · simp [v_cold, cold_join, widen]
  by_cases w_cold : w = cold
  · simp [w_cold, join_cold, widen]
  by_cases same : v = w
  · simp [same, hw.widen_of_ne w_hot]
  -- Both are sets now, and different: their members are merged.
  obtain ⟨ne, v_single⟩ := hv.members v_hot v_cold
  obtain ⟨-, w_single⟩ := hw.members w_hot w_cold
  rw [join_of_ne v_hot w_hot v_cold w_cold same]
  apply widen_ofMembers
  · obtain ⟨u, hu⟩ := List.exists_mem_of_ne_nil _ ne
    exact List.ne_nil_of_mem (mem_union_distinct.2 (.inl hu))
  · intro u hu
    rcases mem_union_distinct.1 hu with hu | hu
    · exact v_single u hu
    · exact w_single u hu

theorem below_widen (h : v.Canonical) : v.Below v.widen := by
  by_cases hot : v = hot
  · simpa [hot] using hot_below _
  · rw [h.widen_of_ne hot]
    exact below_cold v

theorem Below.widen (hv : v.Canonical) (hw : w.Canonical) (below : v.Below w) :
    v.widen.Below w.widen := by
  by_cases hot : v = .hot
  · simpa [hot, Value.widen] using hot_below _
  · have : w ≠ .hot := by
      rintro rfl
      exact hot (hv.eq_hot_of_below below)
    rw [hw.widen_of_ne this]
    exact below_cold _

theorem widen_widen (v : Value) : v.widen.widen = v.widen := by
  rcases hot_or_cold_widen v with h | h <;> rw [h] <;> rfl

/-- Widening is compatible with joins, goes upwards, and is monotone and idempotent: it keeps `hot`,
    and makes everything else `cold`. -/
theorem widen_closure (hv : v.Canonical) (hw : w.Canonical) :
    (v.join w).widen = v.widen.join w.widen ∧
      v.Below v.widen ∧
      (v.Below w → v.widen.Below w.widen) ∧
      v.widen.widen = v.widen ∧
      v.widen = if v = hot then hot else cold := by
  refine ⟨widen_join hv hw, below_widen hv, Below.widen hv hw, widen_widen v, ?_⟩
  split
  · next h => rw [h, widen]
  · next h => exact hv.widen_of_ne h

/-- A closure that captured a set without members. -/
def capturesNothing : Value :=
  .closure ⟨0⟩ [] ⟨.thisOf ⟨4⟩, ⟨4⟩⟩ (.ofList [(⟨7⟩, .oneOf [])])

/-- The set is merged with a closure and loses its warm object, and is widened as its members
    are. -/
theorem widen_closure_of_set :
    thisOrWarm.Canonical ∧ capturesNothing.Canonical ∧
      (thisOrWarm.join capturesNothing).widen = thisOrWarm.widen.join capturesNothing.widen ∧
      thisOrWarm.widen = cold := by
  have set : thisOrWarm = .oneOf [ref (.thisOf ⟨4⟩), .ref (.warm ⟨⟨5⟩, 0⟩)] := by decide +kernel
  have either : thisOrWarm.Canonical := by
    rw [set]
    apply Canonical.oneOf
    · simp
    · unfold Ascending
      decide +kernel
    · simp [isSingle]
    · simp
  have closure : capturesNothing.Canonical := .single rfl
  obtain ⟨join, -, -, -, widened⟩ := widen_closure either closure
  exact ⟨either, closure, join, widened⟩

end ObjectInit.Value
