import Mathlib.Order.BoundedOrder.Lattice
import ObjectInit.Value.Join

/-!
# The lattice of values

Normal values are those that joins make: `hot`, `cold`, addresses, closures that captured normal
values, and sets of at least two addresses and closures in ascending order, in which no warm object
stands beside the object under construction that subsumes it. A value is below another one if each
of its members is a member of the other one or subsumed there. On normal values this is a partial
order with `hot` at the bottom and `cold` at the top, and joins are least upper bounds.

Main results:

* `Value.Normal.join`: joins of normal values are normal.
* `Value.covers_members_join`: which members a join has, up to subsumption.
* `SemilatticeSup NormalValue`: joins are least upper bounds.
* `Value.join_semilattice`: the laws of joins and of the order.
-/

namespace ObjectInit

namespace Value

/-! ## Normal values -/

mutual

/-- The value is `hot`, `cold` or a set in its normal form. -/
inductive Normal : Value → Prop
  | hot : Normal .hot
  | cold : Normal .cold
  | set {v : Value} (h : IsSet v) : Normal v

/-- The value is atomic, or it is a set of at least two atomic values in ascending order, without a
    warm object beside the object under construction of its class. -/
inductive IsSet : Value → Prop
  | atom {v : Value} (h : Atomic v) : IsSet v
  | oneOf {vs : List Value} (size : 2 ≤ vs.length) (ascending : Ascending vs)
    (atomic : ∀ v ∈ vs, Atomic v)
    (apart : ∀ x : Warm, ref (.warm x) ∈ vs → ref (.thisOf x.cls) ∉ vs) : IsSet (.oneOf vs)

/-- The value is an address, or a closure that captured normal values. -/
inductive Atomic : Value → Prop
  | ref (a : Addr) : Atomic (.ref a)
  | closure {body : ExprId} {params : List SymbolId} {frame : Frame} {env : Env}
    (captured : ∀ x v, env.lookup x = some v → Normal v) :
    Atomic (.closure body params frame env)

end

theorem Normal.ref (a : Addr) : (ref a).Normal := .set (.atom (.ref a))

/-- The value is among the values, or it is a warm object and the object under construction of its
    class is among them. -/
def Covers (vs : List Value) (v : Value) : Prop :=
  v ∈ vs ∨ ∃ x : Warm, v = ref (.warm x) ∧ ref (.thisOf x.cls) ∈ vs

/-- The first value is `hot`, or the second one is `cold`, or each member of the first one is a
    member of the second one or subsumed there. -/
def Below (v w : Value) : Prop :=
  v = hot ∨ w = cold ∨ v ≠ cold ∧ w ≠ cold ∧ ∀ u ∈ v.members, Covers w.members u

variable {u v w : Value} {vs ws : List Value}

theorem Atomic.members (h : u.Atomic) : u.members = [u] := by
  cases h <;> rfl

namespace IsSet

theorem ne_hot (h : v.IsSet) : v ≠ hot := by
  rintro rfl
  cases h with
  | atom h => cases h

theorem ne_cold (h : v.IsSet) : v ≠ cold := by
  rintro rfl
  cases h with
  | atom h => cases h

theorem atomic (h : v.IsSet) : ∀ u ∈ v.members, u.Atomic := by
  cases h with
  | atom ha =>
    rw [ha.members]
    exact fun u hu => List.mem_singleton.1 hu ▸ ha
  | oneOf _ _ atomic => exact atomic

theorem ascending (h : v.IsSet) : Ascending v.members := by
  cases h with
  | atom ha =>
    rw [ha.members]
    exact List.pairwise_singleton ..
  | oneOf _ ascending => exact ascending

/-- No warm object stands beside the object under construction of its class. -/
theorem apart (h : v.IsSet) {x : Warm} (hx : ref (.warm x) ∈ v.members) :
    ref (.thisOf x.cls) ∉ v.members := by
  cases h with
  | atom ha =>
    rw [ha.members, List.mem_singleton] at hx ⊢
    rw [← hx]
    nofun
  | oneOf _ _ _ apart => exact apart x hx

theorem ne_nil (h : v.IsSet) : v.members ≠ [] := by
  cases h with
  | atom ha =>
    rw [ha.members]
    exact List.cons_ne_nil _ _
  | oneOf size =>
    rintro rfl
    exact absurd size (by decide)

/-- A set of several values is not atomic. -/
theorem length_ne_one (size : 2 ≤ vs.length) : vs ≠ [u] := by
  rintro rfl
  exact absurd size (by decide : ¬2 ≤ 1)

/-- A set is known by its members. -/
theorem eq_of_members (hv : v.IsSet) (hw : w.IsSet) (h : v.members = w.members) : v = w := by
  cases hv with
  | atom ha =>
    rw [ha.members] at h
    cases hw with
    | atom hb =>
      rw [hb.members] at h
      exact List.singleton_inj.1 h
    | oneOf size => exact absurd h.symm (length_ne_one size)
  | oneOf size =>
    cases hw with
    | atom hb =>
      rw [hb.members] at h
      exact absurd h (length_ne_one size)
    | oneOf => exact congrArg Value.oneOf h

end IsSet

/-! ## Members of joins -/

theorem isWarmOf_underConstruction :
    u.isWarmOf (vs.filterMap classOfThis?) = true ↔
      ∃ x : Warm, u = ref (.warm x) ∧ ref (.thisOf x.cls) ∈ vs := by
  have this (c : ClassId) : c ∈ vs.filterMap classOfThis? ↔ ref (.thisOf c) ∈ vs := by
    rw [List.mem_filterMap]
    constructor
    · rintro ⟨v, hv, hc⟩
      unfold classOfThis? at hc
      split at hc
      · cases hc
        exact hv
      · cases hc
    · exact fun h => ⟨_, h, rfl⟩
  unfold isWarmOf
  split
  · next x =>
    rw [List.contains_iff_mem, this]
    constructor
    · exact fun h => ⟨x, rfl, h⟩
    · rintro ⟨y, hy, h⟩
      cases hy
      exact h
  · next notWarm =>
    constructor
    · nofun
    · rintro ⟨x, rfl, -⟩
      exact absurd rfl (notWarm x)

/-- The values that no other one subsumes. -/
def maximal (vs : List Value) : List Value :=
  vs.filter fun v => !v.isWarmOf (vs.filterMap classOfThis?)

theorem mem_maximal :
    u ∈ maximal vs ↔ u ∈ vs ∧ ¬∃ x : Warm, u = ref (.warm x) ∧ ref (.thisOf x.cls) ∈ vs := by
  rw [maximal, List.mem_filter, Bool.not_eq_true', ← Bool.not_eq_true, isWarmOf_underConstruction]

/-- Objects under construction are kept, and so is what no such object subsumes. -/
theorem maximal_ne_nil (ne : vs ≠ []) : maximal vs ≠ [] := by
  obtain ⟨v, hv⟩ := List.exists_mem_of_ne_nil vs ne
  by_cases subsumed : ∃ x : Warm, v = ref (.warm x) ∧ ref (.thisOf x.cls) ∈ vs
  · obtain ⟨x, -, hx⟩ := subsumed
    exact List.ne_nil_of_mem (mem_maximal.2 ⟨hx, nofun⟩)
  · exact List.ne_nil_of_mem (mem_maximal.2 ⟨hv, subsumed⟩)

theorem ofMembers_of_single (h : maximal vs = [u]) : ofMembers vs = u := by
  unfold maximal at h
  simp only [ofMembers, h]

theorem ofMembers_of_several (h : ∀ u, maximal vs ≠ [u]) : ofMembers vs = oneOf (maximal vs) := by
  unfold ofMembers
  dsimp only
  split
  · next v hv => exact absurd hv (h v)
  · rfl

/-- A set has the values as members that no other one subsumes. -/
theorem members_ofMembers (atomic : ∀ u ∈ vs, u.Atomic) : (ofMembers vs).members = maximal vs := by
  by_cases h : ∃ u, maximal vs = [u]
  · obtain ⟨u, hu⟩ := h
    have mem : u ∈ maximal vs := hu ▸ List.mem_cons_self
    rw [ofMembers_of_single hu, hu, (atomic u (mem_maximal.1 mem).1).members]
  · rw [ofMembers_of_several fun u hu => h ⟨u, hu⟩]
    rfl

theorem isSet_ofMembers (ne : vs ≠ []) (ascending : Ascending vs)
    (atomic : ∀ u ∈ vs, u.Atomic) : (ofMembers vs).IsSet := by
  have atomic' : ∀ u ∈ maximal vs, u.Atomic := fun u hu => atomic u (mem_maximal.1 hu).1
  by_cases h : ∃ u, maximal vs = [u]
  · obtain ⟨u, hu⟩ := h
    rw [ofMembers_of_single hu]
    exact .atom (atomic' u (hu ▸ List.mem_cons_self))
  · have several : ∀ u, maximal vs ≠ [u] := fun u hu => h ⟨u, hu⟩
    rw [ofMembers_of_several several]
    refine .oneOf ?_ (ascending.filter _) atomic' fun x hx this => ?_
    · have nonempty := maximal_ne_nil ne
      cases hlist : maximal vs with
      | nil => exact absurd hlist nonempty
      | cons u us =>
        cases us with
        | nil => exact absurd hlist (several u)
        | cons => exact Nat.le_add_left 2 _
    · exact (mem_maximal.1 hx).2 ⟨x, rfl, (mem_maximal.1 this).1⟩

/-- The members of two sets, before those that are subsumed are left out. -/
theorem mem_union_distinct :
    u ∈ union (distinct v.members) (distinct w.members) ↔ u ∈ v.members ∨ u ∈ w.members := by
  rw [mem_union, mem_distinct, mem_distinct]

/-- The join of two different values is made of their members, unless one of them is `hot` or
    `cold`. -/
theorem join_of_ne (hv : v ≠ hot) (hw : w ≠ hot) (hv' : v ≠ cold) (hw' : w ≠ cold)
    (ne : v ≠ w) : v.join w = ofMembers (union (distinct v.members) (distinct w.members)) := by
  unfold join
  split
  · exact absurd rfl hv
  · exact absurd rfl hw
  · exact absurd rfl hv'
  · exact absurd rfl hw'
  · exact if_neg ne

theorem join_of_isSet (hv : v.IsSet) (hw : w.IsSet) (ne : v ≠ w) :
    v.join w = ofMembers (union (distinct v.members) (distinct w.members)) :=
  join_of_ne hv.ne_hot hw.ne_hot hv.ne_cold hw.ne_cold ne

theorem atomic_union (hv : v.IsSet) (hw : w.IsSet) :
    ∀ u ∈ union (distinct v.members) (distinct w.members), u.Atomic :=
  fun u hu => (mem_union_distinct.1 hu).elim (hv.atomic u) (hw.atomic u)

theorem IsSet.join (hv : v.IsSet) (hw : w.IsSet) : (v.join w).IsSet := by
  by_cases same : v = w
  · rw [same, join_self]
    exact hw
  rw [join_of_isSet hv hw same]
  refine isSet_ofMembers ?_ (ascending_union (ascending_distinct _) (ascending_distinct _))
    (atomic_union hv hw)
  obtain ⟨u, hu⟩ := List.exists_mem_of_ne_nil _ hv.ne_nil
  exact List.ne_nil_of_mem (mem_union_distinct.2 (.inl hu))

/-- A member of one of two sets is a member of their join, unless one of them subsumes it. -/
theorem mem_members_join (hv : v.IsSet) (hw : w.IsSet) :
    u ∈ (v.join w).members ↔ (u ∈ v.members ∨ u ∈ w.members) ∧
      ¬∃ x : Warm, u = ref (.warm x) ∧
        (ref (.thisOf x.cls) ∈ v.members ∨ ref (.thisOf x.cls) ∈ w.members) := by
  by_cases same : v = w
  · rw [same, join_self, or_self]
    refine (and_iff_left_of_imp fun hu => ?_).symm
    rintro ⟨x, rfl, hx⟩
    exact hw.apart hu (hx.elim id id)
  rw [join_of_isSet hv hw same, members_ofMembers (atomic_union hv hw), mem_maximal]
  simp only [mem_union_distinct]

/-- A join covers what one of the two sets covers. -/
theorem covers_members_join (hv : v.IsSet) (hw : w.IsSet) :
    Covers (v.join w).members u ↔ Covers v.members u ∨ Covers w.members u := by
  have this (x : Warm) : ref (.thisOf x.cls) ∈ (v.join w).members ↔
      ref (.thisOf x.cls) ∈ v.members ∨ ref (.thisOf x.cls) ∈ w.members := by
    rw [mem_members_join hv hw]
    exact and_iff_left nofun
  constructor
  · rintro (h | ⟨x, rfl, h⟩)
    · exact ((mem_members_join hv hw).1 h).1.imp .inl .inl
    · exact ((this x).1 h).imp (fun h => .inr ⟨x, rfl, h⟩) fun h => .inr ⟨x, rfl, h⟩
  · intro h
    by_cases subsumed : ∃ x : Warm, u = ref (.warm x) ∧
        (ref (.thisOf x.cls) ∈ v.members ∨ ref (.thisOf x.cls) ∈ w.members)
    · obtain ⟨x, rfl, hx⟩ := subsumed
      exact .inr ⟨x, rfl, (this x).2 hx⟩
    · refine .inl ((mem_members_join hv hw).2 ⟨?_, subsumed⟩)
      rcases h with (h | ⟨x, rfl, h⟩) | (h | ⟨x, rfl, h⟩)
      · exact .inl h
      · exact absurd ⟨x, rfl, .inl h⟩ subsumed
      · exact .inr h
      · exact absurd ⟨x, rfl, .inr h⟩ subsumed

theorem cold_join (v : Value) : cold.join v = cold := by cases v <;> rfl

theorem join_cold (v : Value) : v.join cold = cold := by cases v <;> rfl

theorem join_comm (v w : Value) : v.join w = w.join v := by
  by_cases same : v = w
  · rw [same]
  have union := union_comm (ascending_distinct v.members) (ascending_distinct w.members)
  cases v <;> cases w <;> simp_all [join, eq_comm]

/-- Joins of normal values are normal. -/
theorem Normal.join (hv : v.Normal) (hw : w.Normal) : (v.join w).Normal := by
  cases hv with
  | hot => rwa [hot_join]
  | cold =>
    rw [cold_join]
    exact .cold
  | set hv =>
    cases hw with
    | hot =>
      rw [join_hot]
      exact .set hv
    | cold =>
      rw [join_cold]
      exact .cold
    | set hw => exact .set (hv.join hw)

/-! ## The order -/

/-- What covers the object under construction holds it, since only warm objects are subsumed. -/
theorem Covers.this {c : ClassId} (h : Covers vs (ref (.thisOf c))) : ref (.thisOf c) ∈ vs := by
  rcases h with h | ⟨x, hx, -⟩
  · exact h
  · cases hx

theorem Covers.trans (h : Covers vs u) (all : ∀ v ∈ vs, Covers ws v) : Covers ws u := by
  rcases h with h | ⟨x, rfl, h⟩
  · exact all u h
  · exact .inr ⟨x, rfl, (all _ h).this⟩

theorem below_cold (v : Value) : v.Below cold := .inr (.inl rfl)

theorem hot_below (v : Value) : hot.Below v := .inl rfl

/-- Between sets, the order is that of their members. -/
theorem below_iff_covers (hv : v.IsSet) (hw : w.IsSet) :
    v.Below w ↔ ∀ u ∈ v.members, Covers w.members u := by
  constructor
  · rintro (h | h | h)
    · exact absurd h hv.ne_hot
    · exact absurd h hw.ne_cold
    · exact h.2.2
  · exact fun h => .inr (.inr ⟨hv.ne_cold, hw.ne_cold, h⟩)

theorem eq_hot_of_below (hv : v.Normal) (h : v.Below hot) : v = hot := by
  cases hv with
  | hot => rfl
  | cold =>
    rcases h with h | h | h
    · cases h
    · cases h
    · exact absurd rfl h.1
  | set hv =>
    rcases h with h | h | ⟨-, -, h⟩
    · exact h
    · cases h
    · obtain ⟨u, hu⟩ := List.exists_mem_of_ne_nil _ hv.ne_nil
      rcases h u hu with h | ⟨x, -, h⟩
      · exact absurd (List.mem_singleton.1 h) (IsSet.atom (hv.atomic u hu)).ne_hot
      · cases List.mem_singleton.1 h

theorem eq_cold_of_below (h : cold.Below v) : v = cold := by
  rcases h with h | h | h
  · cases h
  · exact h
  · exact absurd rfl h.1

theorem Below.refl (v : Value) : v.Below v := by
  by_cases hv : v = cold
  · exact .inr (.inl hv)
  · exact .inr (.inr ⟨hv, hv, fun _ hu => .inl hu⟩)

theorem Below.trans (hu : u.Normal) (hv : v.Normal) (hw : w.Normal) (huv : u.Below v)
    (hvw : v.Below w) : u.Below w := by
  cases hw with
  | hot => exact eq_hot_of_below hv hvw ▸ huv
  | cold => exact below_cold u
  | set hw =>
    cases hv with
    | hot =>
      rw [eq_hot_of_below hu huv]
      exact hot_below w
    | cold => exact absurd (eq_cold_of_below hvw) hw.ne_cold
    | set hv =>
      cases hu with
      | hot => exact hot_below w
      | cold => exact absurd (eq_cold_of_below huv) hv.ne_cold
      | set hu =>
        rw [below_iff_covers hu hv] at huv
        rw [below_iff_covers hv hw] at hvw
        exact (below_iff_covers hu hw).2 fun x hx => (huv x hx).trans hvw

/-- What is covered in both directions is a member on both sides. -/
theorem IsSet.members_subset (hv : v.IsSet) (hvw : ∀ u ∈ v.members, Covers w.members u)
    (hwv : ∀ u ∈ w.members, Covers v.members u) : ∀ u ∈ v.members, u ∈ w.members := by
  intro u hu
  rcases hvw u hu with h | ⟨x, rfl, h⟩
  · exact h
  · exact absurd (hwv _ h).this (hv.apart hu)

theorem Below.antisymm (hv : v.Normal) (hw : w.Normal) (hvw : v.Below w) (hwv : w.Below v) :
    v = w := by
  cases hv with
  | hot => exact (eq_hot_of_below hw hwv).symm
  | cold => exact (eq_cold_of_below hvw).symm
  | set hv =>
    cases hw with
    | hot => exact eq_hot_of_below (.set hv) hvw
    | cold => exact eq_cold_of_below hwv
    | set hw =>
      rw [below_iff_covers hv hw] at hvw
      rw [below_iff_covers hw hv] at hwv
      refine hv.eq_of_members hw (hv.ascending.eq_of_mem_iff hw.ascending fun u => ?_)
      exact ⟨hv.members_subset hvw hwv u, hw.members_subset hwv hvw u⟩

/-! ## Least upper bounds -/

theorem below_join_left (hv : v.Normal) (hw : w.Normal) : v.Below (v.join w) := by
  cases hw with
  | hot =>
    rw [join_hot]
    exact .refl v
  | cold =>
    rw [join_cold]
    exact below_cold v
  | set hw =>
    cases hv with
    | hot => exact hot_below _
    | cold =>
      rw [cold_join]
      exact below_cold _
    | set hv => exact (below_iff_covers hv (hv.join hw)).2 fun u hu =>
        (covers_members_join hv hw).2 (.inl (.inl hu))

theorem below_join_right (hv : v.Normal) (hw : w.Normal) : w.Below (v.join w) := by
  rw [join_comm v w]
  exact below_join_left hw hv

theorem join_below (hu : u.Normal) (hv : v.Normal) (hw : w.Normal) (huw : u.Below w)
    (hvw : v.Below w) : (u.join v).Below w := by
  cases hu with
  | hot => rwa [hot_join]
  | cold => rwa [cold_join]
  | set hu =>
    cases hv with
    | hot => rwa [join_hot]
    | cold => rwa [join_cold]
    | set hv =>
      cases hw with
      | hot => exact absurd (eq_hot_of_below (.set hu) huw) hu.ne_hot
      | cold => exact below_cold _
      | set hw =>
        rw [below_iff_covers hu hw] at huw
        rw [below_iff_covers hv hw] at hvw
        refine (below_iff_covers (hu.join hv) hw).2 fun x hx => ?_
        exact ((mem_members_join hu hv).1 hx).1.elim (huw x) (hvw x)

end Value

/-- A value in its normal form. -/
abbrev NormalValue := { v : Value // v.Normal }

instance : PartialOrder NormalValue where
  le v w := v.1.Below w.1
  le_refl v := .refl v.1
  le_trans u v w := .trans u.2 v.2 w.2
  le_antisymm v w hvw hwv := Subtype.ext (Value.Below.antisymm v.2 w.2 hvw hwv)

instance : SemilatticeSup NormalValue where
  sup v w := ⟨v.1.join w.1, v.2.join w.2⟩
  le_sup_left v w := Value.below_join_left v.2 w.2
  le_sup_right v w := Value.below_join_right v.2 w.2
  sup_le u v w := Value.join_below u.2 v.2 w.2

instance : BoundedOrder NormalValue where
  bot := ⟨.hot, .hot⟩
  bot_le v := Value.hot_below v.1
  top := ⟨.cold, .cold⟩
  le_top v := Value.below_cold v.1

namespace Value

variable {u v w : Value} {us vs : List Value}

/-! ## The laws -/

/-- The least upper bound of a value and the values of a list. -/
theorem foldl_join_below (hu : u.Normal) (hvs : ∀ v ∈ vs, v.Normal) :
    (vs.foldl join u).Normal ∧ ∀ w : Value, w.Normal →
      ((vs.foldl join u).Below w ↔ u.Below w ∧ ∀ v ∈ vs, v.Below w) := by
  induction vs generalizing u with
  | nil => exact ⟨hu, fun w _ => by simp⟩
  | cons v vs ih =>
    have hv := hvs v List.mem_cons_self
    obtain ⟨normal, below⟩ := ih (hu.join hv) fun x hx => hvs x (List.mem_cons_of_mem v hx)
    refine ⟨normal, fun w hw => ?_⟩
    have first : (u.join v).Below w ↔ u.Below w ∧ v.Below w :=
      sup_le_iff (a := (⟨u, hu⟩ : NormalValue)) (b := ⟨v, hv⟩) (c := ⟨w, hw⟩)
    rw [List.foldl_cons, below w hw, first, List.forall_mem_cons, and_assoc]

theorem joinAll_below (hvs : ∀ v ∈ vs, v.Normal) :
    (joinAll vs).Normal ∧ ∀ w : Value, w.Normal →
      ((joinAll vs).Below w ↔ ∀ v ∈ vs, v.Below w) := by
  obtain ⟨normal, below⟩ := foldl_join_below .hot hvs
  exact ⟨normal, fun w hw => (below w hw).trans (and_iff_right (hot_below w))⟩

/-- The join of a list depends only on which values are in it. -/
theorem joinAll_eq_of_mem_iff (hus : ∀ u ∈ us, u.Normal) (same : ∀ u, u ∈ us ↔ u ∈ vs) :
    joinAll us = joinAll vs := by
  obtain ⟨normal, below⟩ := joinAll_below hus
  obtain ⟨normal', below'⟩ := joinAll_below fun v hv => hus v ((same v).2 hv)
  refine Below.antisymm normal normal' ?_ ?_
  · exact (below _ normal').2 fun u hu => (below' _ normal').1 (.refl _) u ((same u).1 hu)
  · exact (below' _ normal).2 fun u hu => (below _ normal).1 (.refl _) u ((same u).2 hu)

/-- The normal values are a join semilattice: joins of normal values are normal, commutative,
    associative and idempotent, with `hot` as the identity and `cold` as the absorbing element; the
    order is a partial order that says which value a join absorbs; joins are least upper bounds; and
    the join of a list depends only on which values are in it. -/
theorem join_semilattice (hu : u.Normal) (hv : v.Normal) (hw : w.Normal)
    (hus : ∀ u ∈ us, u.Normal) (same : ∀ u, u ∈ us ↔ u ∈ vs) :
    (u.join v).Normal ∧
      (u.join v = v.join u ∧ (u.join v).join w = u.join (v.join w) ∧ u.join u = u) ∧
      (hot.join u = u ∧ u.join hot = u ∧ cold.join u = cold ∧ u.join cold = cold) ∧
      (u.Below u ∧ (u.Below v → v.Below u → u = v) ∧ (u.Below v → v.Below w → u.Below w)) ∧
      (u.Below v ↔ u.join v = v) ∧
      (u.Below (u.join v) ∧ v.Below (u.join v) ∧
        (u.Below w → v.Below w → (u.join v).Below w)) ∧
      joinAll us = joinAll vs := by
  let x : NormalValue := ⟨u, hu⟩
  let y : NormalValue := ⟨v, hv⟩
  let z : NormalValue := ⟨w, hw⟩
  have absorbs : u.Below v ↔ u.join v = v :=
    (sup_eq_right (a := x) (b := y)).symm.trans Subtype.ext_iff
  exact ⟨hu.join hv,
    ⟨join_comm u v, congrArg Subtype.val (sup_assoc x y z), join_self u⟩,
    ⟨hot_join u, join_hot u, cold_join u, join_cold u⟩,
    ⟨.refl u, Below.antisymm hu hv, .trans hu hv hw⟩, absorbs,
    ⟨below_join_left hu hv, below_join_right hu hv, join_below hu hv hw⟩,
    joinAll_eq_of_mem_iff hus same⟩

/-- The object under construction of one class, or a warm object of another one. -/
def thisOrWarm : Value := (ref (.thisOf ⟨4⟩)).join (.ref (.warm ⟨⟨5⟩, 0⟩))

/-- A closure that captured these objects. -/
def capturesEither : Value :=
  .closure ⟨0⟩ [] ⟨.thisOf ⟨4⟩, ⟨4⟩⟩ (.ofList [(⟨7⟩, thisOrWarm)])

/-- The object under construction of the other class subsumes the warm one, whether it is joined
    early or late. -/
theorem join_semilattice_subsumes :
    thisOrWarm.Normal ∧ capturesEither.Normal ∧
      (thisOrWarm.join capturesEither).join (.ref (.thisOf ⟨5⟩)) =
        thisOrWarm.join (capturesEither.join (.ref (.thisOf ⟨5⟩))) ∧
      joinAll [.ref (.thisOf ⟨5⟩), capturesEither, thisOrWarm] =
        joinAll [thisOrWarm, .ref (.thisOf ⟨5⟩), capturesEither, thisOrWarm] ∧
      joinAll [thisOrWarm, .ref (.thisOf ⟨5⟩), capturesEither, thisOrWarm] =
        .oneOf [.ref (.thisOf ⟨4⟩), .ref (.thisOf ⟨5⟩), capturesEither] := by
  have either : thisOrWarm.Normal := .join (.ref _) (.ref _)
  have captures : capturesEither.Normal := by
    refine .set (.atom (.closure fun x v hv => ?_))
    change (Env.bind ⟨7⟩ thisOrWarm .empty).lookup x = some v at hv
    rw [Env.lookup] at hv
    split at hv
    · cases hv
      exact either
    · cases hv
  have all : ∀ u ∈ [.ref (.thisOf ⟨5⟩), capturesEither, thisOrWarm], u.Normal := by
    simp [either, captures, Normal.ref]
  have repeated : ∀ u, u ∈ [.ref (.thisOf ⟨5⟩), capturesEither, thisOrWarm] ↔
      u ∈ [thisOrWarm, .ref (.thisOf ⟨5⟩), capturesEither, thisOrWarm] := by grind
  obtain ⟨-, ⟨-, assoc, -⟩, -, -, -, -, same⟩ :=
    join_semilattice either captures (.ref (.thisOf ⟨5⟩)) all repeated
  exact ⟨either, captures, assoc, same, by decide +kernel⟩

end Value

end ObjectInit
