import ObjectInit.Value.Basic

/-!
# The order of values

Values, addresses and environments have a total order, in which the members of sets are kept and
by which the store finds what it holds.

Equal parts of two values are skipped at once and not compared further, because equality is decided
without looking into shared parts.

Main results:

* `Value.compare_eq_iff`: the order answers `eq` exactly on equal values.
* `Std.TransOrd Value`: the order is total.
-/

namespace ObjectInit

/-! ## Addresses and frames -/

/-- Objects under construction come before warm ones. -/
def Addr.rank : Addr → Nat
  | .thisOf _ => 0
  | .warm _ => 1

/-- What tells apart the addresses of one rank and class. -/
def Addr.number : Addr → Nat
  | .thisOf _ => 0
  | .warm w => w.index

/-- Addresses are compared by their rank, then by their class and their number. -/
def Addr.compare : Addr → Addr → Ordering :=
  compareLex (compareOn Addr.rank) (compareLex (compareOn Addr.cls) (compareOn Addr.number))

instance : Ord Addr := ⟨Addr.compare⟩

instance : Std.TransOrd Addr := inferInstanceAs (Std.TransCmp
  (compareLex (compareOn Addr.rank) (compareLex (compareOn Addr.cls) (compareOn Addr.number))))

theorem Addr.compare_eq_iff {a b : Addr} : a.compare b = .eq ↔ a = b := by
  rcases a with c | ⟨c, i⟩ <;> rcases b with d | ⟨d, j⟩ <;>
    simp [Addr.compare, compareLex, compareOn, Ordering.then_eq_eq, Addr.rank, Addr.number,
      Addr.cls]

instance : Std.LawfulEqOrd Addr where
  eq_of_compare := Addr.compare_eq_iff.1

/-- Frames are compared by their receiver, then by their class. -/
def Frame.compare : Frame → Frame → Ordering :=
  compareLex (compareOn Frame.receiver) (compareOn Frame.cls)

instance : Ord Frame := ⟨Frame.compare⟩

instance : Std.TransOrd Frame := inferInstanceAs (Std.TransCmp
  (compareLex (compareOn Frame.receiver) (compareOn Frame.cls)))

theorem Frame.compare_eq_iff {f g : Frame} : f.compare g = .eq ↔ f = g := by
  rcases f with ⟨a, c⟩
  rcases g with ⟨b, d⟩
  simp [Frame.compare, compareLex, compareOn, Ordering.then_eq_eq]

instance : Std.LawfulEqOrd Frame where
  eq_of_compare := Frame.compare_eq_iff.1

/-! ## Values and environments -/

/-- The place of a kind of values among the others. -/
def Value.rank : Value → Nat
  | .hot => 0
  | .cold => 1
  | .ref _ => 2
  | .closure .. => 3
  | .oneOf _ => 4

mutual

/-- Values of different kinds are ordered by their rank, others by their parts. -/
def Value.compare : Value → Value → Ordering
  | .ref a, .ref b => Ord.compare a b
  | .closure body params frame env, .closure body' params' frame' env' =>
    (Ord.compare body body').then <| (Ord.compare params params').then <|
      (Ord.compare frame frame').then <| if env = env' then .eq else env.compare env'
  | .oneOf vs, .oneOf ws => Value.compareAll vs ws
  | v, w => Ord.compare v.rank w.rank
termination_by structural v => v

/-- The values are compared one after the other; a shorter list comes before its extensions. -/
def Value.compareAll : List Value → List Value → Ordering
  | [], [] => .eq
  | [], _ :: _ => .lt
  | _ :: _, [] => .gt
  | v :: vs, w :: ws => (if v = w then .eq else v.compare w).then (Value.compareAll vs ws)
termination_by structural vs => vs

/-- Environments are compared binding by binding. -/
def Env.compare : Env → Env → Ordering
  | .empty, .empty => .eq
  | .empty, .bind .. => .lt
  | .bind .., .empty => .gt
  | .bind s v env, .bind t w env' =>
    (Ord.compare s t).then <| (if v = w then .eq else v.compare w).then (env.compare env')
termination_by structural env => env

end

instance : Ord Value := ⟨Value.compare⟩

/-! ### Equal parts -/

theorem Value.compareAll_self : ∀ vs : List Value, Value.compareAll vs vs = .eq
  | [] => rfl
  | v :: vs => by simp [Value.compareAll, Value.compareAll_self vs]

theorem Env.compare_self : ∀ env : Env, env.compare env = .eq
  | .empty => rfl
  | .bind s v env => by simp [Env.compare, Env.compare_self env]

theorem Value.compare_self (v : Value) : v.compare v = .eq := by
  cases v <;> simp [Value.compare, Value.compareAll_self]

/-- Closures are compared by their parts. -/
theorem Value.compare_closure (body : ExprId) (params : List SymbolId) (frame : Frame) (env : Env)
    (body' : ExprId) (params' : List SymbolId) (frame' : Frame) (env' : Env) :
    (Value.closure body params frame env).compare (.closure body' params' frame' env') =
      (Ord.compare body body').then ((Ord.compare params params').then
        ((Ord.compare frame frame').then (env.compare env'))) := by
  by_cases h : env = env' <;> simp [Value.compare, h, Env.compare_self]

theorem Value.compareAll_cons (v w : Value) (vs ws : List Value) :
    Value.compareAll (v :: vs) (w :: ws) = (v.compare w).then (Value.compareAll vs ws) := by
  by_cases h : v = w <;> simp [Value.compareAll, h, Value.compare_self]

theorem Env.compare_bind (s t : SymbolId) (v w : Value) (env env' : Env) :
    (Env.bind s v env).compare (.bind t w env') =
      (Ord.compare s t).then ((v.compare w).then (env.compare env')) := by
  by_cases h : v = w <;> simp [Env.compare, h, Value.compare_self]

/-! ### Different kinds -/

theorem Value.compare_of_rank_ne {v w : Value} (h : v.rank ≠ w.rank) :
    v.compare w = Ord.compare v.rank w.rank := by
  cases v <;> cases w <;> simp_all [Value.compare, Value.rank]

theorem Value.compare_eq_iff_of_rank_ne {v w : Value} (h : v.rank ≠ w.rank) :
    v.compare w = .eq ↔ v = w := by
  rw [Value.compare_of_rank_ne h, Nat.compare_eq_eq]
  exact ⟨fun hr => absurd hr h, fun hv => absurd (congrArg Value.rank hv) h⟩

theorem Value.compare_swap_of_rank_ne {v w : Value} (h : v.rank ≠ w.rank) :
    v.compare w = (w.compare v).swap := by
  rw [Value.compare_of_rank_ne h, Value.compare_of_rank_ne h.symm]
  exact Std.OrientedCmp.eq_swap

theorem Value.rank_le_of_compare_lt {v w : Value} (h : v.compare w = .lt) : v.rank ≤ w.rank := by
  by_cases hr : v.rank = w.rank
  · exact Nat.le_of_eq hr
  · rw [Value.compare_of_rank_ne hr, Nat.compare_eq_lt] at h
    exact Nat.le_of_lt h

theorem Value.compare_lt_of_rank_lt {v w : Value} (h : v.rank < w.rank) : v.compare w = .lt := by
  rw [Value.compare_of_rank_ne (Nat.ne_of_lt h), Nat.compare_eq_lt]
  exact h

/-! ### Equal results -/

mutual

theorem Value.compare_eq_iff : ∀ {v w : Value}, v.compare w = .eq ↔ v = w
  | .hot, w | .cold, w => by cases w <;> simp [Value.compare, Value.rank]
  | .ref a, w => by
    cases w
    case ref b => simp [Value.compare]
    all_goals exact Value.compare_eq_iff_of_rank_ne (by simp [Value.rank])
  | .closure body params frame env, w => by
    cases w
    case closure body' params' frame' env' =>
      have := @Env.compare_eq_iff env env'
      simp [Value.compare_closure, Ordering.then_eq_eq, this]
    all_goals exact Value.compare_eq_iff_of_rank_ne (by simp [Value.rank])
  | .oneOf vs, w => by
    cases w
    case oneOf ws => simp [Value.compare, @Value.compareAll_eq_iff vs ws]
    all_goals exact Value.compare_eq_iff_of_rank_ne (by simp [Value.rank])

theorem Value.compareAll_eq_iff :
    ∀ {vs ws : List Value}, Value.compareAll vs ws = .eq ↔ vs = ws
  | [], ws => by cases ws <;> simp [Value.compareAll]
  | v :: vs, [] => by simp [Value.compareAll]
  | v :: vs, w :: ws => by
    simp [Value.compareAll_cons, Ordering.then_eq_eq, @Value.compare_eq_iff v w,
      @Value.compareAll_eq_iff vs ws]

theorem Env.compare_eq_iff : ∀ {env env' : Env}, env.compare env' = .eq ↔ env = env'
  | .empty, env' => by cases env' <;> simp [Env.compare]
  | .bind s v env, .empty => by simp [Env.compare]
  | .bind s v env, .bind t w env' => by
    simp [Env.compare_bind, Ordering.then_eq_eq, @Value.compare_eq_iff v w,
      @Env.compare_eq_iff env env']

end

/-! ### Exchanged arguments -/

mutual

theorem Value.compare_swap : ∀ {v w : Value}, v.compare w = (w.compare v).swap
  | .hot, w | .cold, w => by cases w <;> rfl
  | .ref a, w => by
    cases w
    case ref b => simpa [Value.compare] using Std.OrientedCmp.eq_swap
    all_goals exact Value.compare_swap_of_rank_ne (by simp [Value.rank])
  | .closure body params frame env, w => by
    cases w
    case closure body' params' frame' env' =>
      have := @Env.compare_swap env env'
      simp only [Value.compare_closure, Ordering.swap_then, ← this]
      rw [← Std.OrientedCmp.eq_swap, ← Std.OrientedCmp.eq_swap, ← Std.OrientedCmp.eq_swap]
    all_goals exact Value.compare_swap_of_rank_ne (by simp [Value.rank])
  | .oneOf vs, w => by
    cases w
    case oneOf ws => simpa [Value.compare] using @Value.compareAll_swap vs ws
    all_goals exact Value.compare_swap_of_rank_ne (by simp [Value.rank])

theorem Value.compareAll_swap :
    ∀ {vs ws : List Value}, Value.compareAll vs ws = (Value.compareAll ws vs).swap
  | [], ws => by cases ws <;> rfl
  | v :: vs, [] => rfl
  | v :: vs, w :: ws => by
    simp only [Value.compareAll_cons, Ordering.swap_then, ← @Value.compare_swap v w,
      ← @Value.compareAll_swap vs ws]

theorem Env.compare_swap : ∀ {env env' : Env}, env.compare env' = (env'.compare env).swap
  | .empty, env' => by cases env' <;> rfl
  | .bind s v env, .empty => rfl
  | .bind s v env, .bind t w env' => by
    simp only [Env.compare_bind, Ordering.swap_then, ← @Value.compare_swap v w,
      ← @Env.compare_swap env env']
    rw [← Std.OrientedCmp.eq_swap]

end

/-! ### Transitivity -/

/-- Comparisons that are made one after the other are transitive if both are. The assumptions on
    `eq` say that equal parts can be exchanged. -/
theorem then_lt_trans {x y z x' y' z' : Ordering} (first : x = .lt → y = .lt → z = .lt)
    (left : x = .eq → z = y) (right : y = .eq → z = x)
    (second : x' = .lt → y' = .lt → z' = .lt) (h : x.then x' = .lt) (h' : y.then y' = .lt) :
    z.then z' = .lt := by
  cases x <;> cases y <;> simp_all

/-- The same where the first comparison is known to be transitive. -/
theorem compare_then_lt_trans {α : Type} [Ord α] [Std.TransOrd α] [Std.LawfulEqOrd α] {a b c : α}
    {x y z : Ordering} (second : x = .lt → y = .lt → z = .lt)
    (h : (compare a b).then x = .lt) (h' : (compare b c).then y = .lt) :
    (compare a c).then z = .lt :=
  then_lt_trans Std.TransCmp.lt_trans (fun e => by rw [Std.LawfulEqOrd.eq_of_compare e])
    (fun e => by rw [Std.LawfulEqOrd.eq_of_compare e]) second h h'

theorem Value.compare_lt_trans_of_rank {u v w : Value}
    (same : u.rank = v.rank → v.rank = w.rank → u.compare w = .lt)
    (h : u.compare v = .lt) (h' : v.compare w = .lt) : u.compare w = .lt := by
  have huv := Value.rank_le_of_compare_lt h
  have hvw := Value.rank_le_of_compare_lt h'
  by_cases hr : u.rank < w.rank
  · exact Value.compare_lt_of_rank_lt hr
  · exact same (by omega) (by omega)

mutual

theorem Value.compare_lt_trans :
    ∀ {u v w : Value}, u.compare v = .lt → v.compare w = .lt → u.compare w = .lt
  | .hot, v, _, h, h' | .cold, v, _, h, h' =>
    Value.compare_lt_trans_of_rank (fun hv _ => by
      cases v <;> simp_all [Value.compare, Value.rank]) h h'
  | .ref a, v, w, h, h' =>
    Value.compare_lt_trans_of_rank (fun hv hw => by
      cases v
      case ref b =>
        cases w
        case ref c =>
          simp only [Value.compare] at h h' ⊢
          exact Std.TransCmp.lt_trans h h'
        all_goals simp [Value.rank] at hw
      all_goals simp [Value.rank] at hv) h h'
  | .closure body params frame env, v, w, h, h' =>
    Value.compare_lt_trans_of_rank (fun hv hw => by
      cases v
      case closure body' params' frame' env' =>
        cases w
        case closure body'' params'' frame'' env'' =>
          have := @Env.compare_lt_trans env env' env''
          rw [Value.compare_closure] at h h' ⊢
          exact compare_then_lt_trans
            (compare_then_lt_trans (compare_then_lt_trans this)) h h'
        all_goals simp [Value.rank] at hw
      all_goals simp [Value.rank] at hv) h h'
  | .oneOf us, v, w, h, h' =>
    Value.compare_lt_trans_of_rank (fun hv hw => by
      cases v
      case oneOf vs =>
        cases w
        case oneOf ws => exact @Value.compareAll_lt_trans us vs ws h h'
        all_goals simp [Value.rank] at hw
      all_goals simp [Value.rank] at hv) h h'

theorem Value.compareAll_lt_trans : ∀ {us vs ws : List Value},
    Value.compareAll us vs = .lt → Value.compareAll vs ws = .lt → Value.compareAll us ws = .lt
  | [], vs, [], _, h' => by cases vs <;> simp [Value.compareAll] at h'
  | [], _, _ :: _, _, _ => rfl
  | u :: us, [], _, h, _ => by simp [Value.compareAll] at h
  | u :: us, v :: vs, [], _, h' => by simp [Value.compareAll] at h'
  | u :: us, v :: vs, w :: ws, h, h' => by
    rw [Value.compareAll_cons] at h h' ⊢
    exact then_lt_trans (@Value.compare_lt_trans u v w) (fun e => by rw [Value.compare_eq_iff.1 e])
      (fun e => by rw [Value.compare_eq_iff.1 e]) (@Value.compareAll_lt_trans us vs ws) h h'

theorem Env.compare_lt_trans : ∀ {env env' env'' : Env},
    env.compare env' = .lt → env'.compare env'' = .lt → env.compare env'' = .lt
  | .empty, env', .empty, _, h' => by cases env' <;> simp [Env.compare] at h'
  | .empty, _, .bind .., _, _ => rfl
  | .bind .., .empty, _, h, _ => by simp [Env.compare] at h
  | .bind .., .bind .., .empty, _, h' => by simp [Env.compare] at h'
  | .bind s v env, .bind s' v' env', .bind s'' v'' env'', h, h' => by
    rw [Env.compare_bind] at h h' ⊢
    exact compare_then_lt_trans
      (then_lt_trans (@Value.compare_lt_trans v v' v'')
        (fun e => by rw [Value.compare_eq_iff.1 e]) (fun e => by rw [Value.compare_eq_iff.1 e])
        (@Env.compare_lt_trans env env' env'')) h h'

end

/-! ### The order is total -/

instance : Std.LawfulEqOrd Value where
  compare_self := Value.compare_eq_iff.2 rfl
  eq_of_compare := Value.compare_eq_iff.1

instance : Std.TransOrd Value where
  eq_swap := Value.compare_swap
  isLE_trans {u v w} h h' := by
    change (u.compare v).isLE at h
    change (v.compare w).isLE at h'
    change (u.compare w).isLE
    cases huv : u.compare v with
    | gt => simp [huv] at h
    | eq => rwa [Value.compare_eq_iff.1 huv]
    | lt =>
      cases hvw : v.compare w with
      | gt => simp [hvw] at h'
      | eq => rwa [← Value.compare_eq_iff.1 hvw]
      | lt => simp [Value.compare_lt_trans huv hvw]

end ObjectInit
