import ObjectInit.Value.Order

/-!
# Joins

`Value.join` is the least value above two others. `Value.hot` is below everything and `Value.cold`
above everything; addresses and closures form sets, which are written as ascending lists without
repetitions. A warm object is below the object under construction of its class, which therefore
stands for both in a set.

Main results:

* `Value.mem_union`, `Value.mem_distinct`: what is in a union, and in the list of the distinct
  values of another list.
* `Value.ascending_union`, `Value.ascending_distinct`: both are ascending.
* `Value.Ascending.eq_of_mem_iff`: a set has one ascending list.
-/

namespace ObjectInit

namespace Value

/-! ## Ascending lists -/

/-- The list is ascending and has no repetitions. -/
def Ascending (vs : List Value) : Prop := vs.Pairwise fun v w => v.compare w = .lt

/-- Puts a value into its place in an ascending list; what comes behind goes through `next`. A value
    that is there already is not repeated. -/
def place (v : Value) (next : List Value → List Value) : List Value → List Value
  | [] => v :: next []
  | w :: ws =>
    match v.compare w with
    | .lt => v :: next (w :: ws)
    | .eq => v :: next ws
    | .gt => w :: place v next ws

/-- The union of two ascending lists without repetitions. -/
def union : List Value → List Value → List Value
  | [], ws => ws
  | v :: vs, ws => place v (union vs) ws

/-- The values of a list in ascending order, without repetitions. -/
def distinct (vs : List Value) : List Value := vs.foldr (fun v => union [v]) []

/-! ## Members -/

theorem mem_place {u v : Value} {vs : List Value} {next : List Value → List Value}
    (hn : ∀ ws, u ∈ next ws ↔ u ∈ vs ∨ u ∈ ws) (ws : List Value) :
    u ∈ place v next ws ↔ u ∈ v :: vs ∨ u ∈ ws := by
  induction ws with
  | nil => simp [place, hn]
  | cons w ws ih =>
    rw [place]
    split
    · simp [hn, or_assoc]
    · rename_i h
      rw [compare_eq_iff] at h
      simp [hn, h]
      grind
    · simp [ih]
      grind

theorem mem_union {u : Value} (vs ws : List Value) : u ∈ union vs ws ↔ u ∈ vs ∨ u ∈ ws := by
  induction vs generalizing ws with
  | nil => simp [union]
  | cons v vs ih => exact mem_place ih ws

theorem mem_distinct {u : Value} (vs : List Value) : u ∈ distinct vs ↔ u ∈ vs := by
  induction vs with
  | nil => simp [distinct]
  | cons v vs ih =>
    rw [distinct, List.foldr_cons, ← distinct, mem_union, ih, List.mem_singleton, List.mem_cons]

/-! ## Order -/

theorem ascending_place {v : Value} {vs : List Value} {next : List Value → List Value}
    (hn : ∀ ws, Ascending ws → Ascending (next ws)) (hm : ∀ u ws, u ∈ next ws ↔ u ∈ vs ∨ u ∈ ws)
    (hv : ∀ u ∈ vs, v.compare u = .lt) {ws : List Value} (hw : Ascending ws) :
    Ascending (place v next ws) := by
  induction ws with
  | nil => exact List.pairwise_cons.2 ⟨fun u hu => hv u (by simpa [hm] using hu), hn [] hw⟩
  | cons w ws ih =>
    obtain ⟨hlt, hws⟩ := List.pairwise_cons.1 hw
    rw [place]
    split <;> rename_i h
    · refine List.pairwise_cons.2 ⟨fun u hu => ?_, hn _ hw⟩
      rcases (hm u _).1 hu with hu | hu
      · exact hv u hu
      · rcases List.mem_cons.1 hu with rfl | hu
        · exact h
        · exact compare_lt_trans h (hlt u hu)
    · rw [compare_eq_iff] at h
      refine List.pairwise_cons.2 ⟨fun u hu => ?_, hn _ hws⟩
      rcases (hm u _).1 hu with hu | hu
      · exact hv u hu
      · exact h ▸ hlt u hu
    · have hwv : w.compare v = .lt := by rw [compare_swap, h]; rfl
      refine List.pairwise_cons.2 ⟨fun u hu => ?_, ih hws⟩
      rcases (mem_place (hm u) ws).1 hu with hu | hu
      · rcases List.mem_cons.1 hu with rfl | hu
        · exact hwv
        · exact compare_lt_trans hwv (hv u hu)
      · exact hlt u hu

theorem ascending_union {vs ws : List Value} (hv : Ascending vs) (hw : Ascending ws) :
    Ascending (union vs ws) := by
  induction vs generalizing ws with
  | nil => exact hw
  | cons v vs ih =>
    obtain ⟨hlt, hvs⟩ := List.pairwise_cons.1 hv
    exact ascending_place (fun _ => ih hvs) (fun _ => mem_union vs) hlt hw

theorem ascending_distinct (vs : List Value) : Ascending (distinct vs) := by
  induction vs with
  | nil => exact .nil
  | cons v vs ih => exact ascending_union (List.pairwise_singleton ..) ih

/-! ## Uniqueness -/

/-- Ascending lists with the same members are equal. -/
theorem Ascending.eq_of_mem_iff {vs ws : List Value} (hv : Ascending vs) (hw : Ascending ws)
    (h : ∀ u, u ∈ vs ↔ u ∈ ws) : vs = ws := by
  have nodup {us : List Value} (hu : Ascending us) : us.Nodup :=
    hu.imp fun h e => by simp [e, compare_self] at h
  have perm := (List.perm_ext_iff_of_nodup (nodup hv) (nodup hw)).2 h
  exact perm.eq_of_pairwise
    (fun u v _ _ huv hvu => by rw [compare_swap, hvu] at huv; cases huv) hv hw

theorem union_comm {vs ws : List Value} (hv : Ascending vs) (hw : Ascending ws) :
    union vs ws = union ws vs :=
  (ascending_union hv hw).eq_of_mem_iff (ascending_union hw hv) fun u => by
    rw [mem_union, mem_union, or_comm]

/-! ## Sorting -/

/-- Puts a value in front of the first one that is not smaller. -/
def insertSorted (v : Value) : List Value → List Value
  | [] => [v]
  | w :: ws => if w.compare v == .lt then w :: insertSorted v ws else v :: w :: ws

/-- The values in ascending order. -/
def sort (vs : List Value) : List Value := vs.foldr insertSorted []

/-! ## Joins of values -/

/-- The class of an object under construction. -/
def classOfThis? : Value → Option ClassId
  | ref (.thisOf c) => some c
  | _ => none

/-- The value is a warm object of one of the classes. -/
def isWarmOf (classes : List ClassId) : Value → Bool
  | ref (.warm w) => classes.contains w.cls
  | _ => false

/-- The value that stands for an ascending list of addresses and closures (`ref_set`). -/
def ofMembers (vs : List Value) : Value :=
  let underConstruction := vs.filterMap classOfThis?
  match vs.filter fun v => !v.isWarmOf underConstruction with
  | [v] => v
  | members => oneOf members

/-- The members of a set, or the value itself. -/
def members : Value → List Value
  | oneOf vs => vs
  | v => [v]

/-- The least value above two values. -/
def join (v w : Value) : Value :=
  match v, w with
  | hot, w => w
  | v, hot => v
  | cold, _ => cold
  | _, cold => cold
  | v, w => if v = w then v else ofMembers (union (distinct v.members) (distinct w.members))

@[simp] theorem hot_join (v : Value) : hot.join v = v := by cases v <;> rfl

@[simp] theorem join_hot (v : Value) : v.join hot = v := by cases v <;> rfl

@[simp] theorem join_self (v : Value) : v.join v = v := by cases v <;> simp [join]

/-- The join of all values, `hot` if there are none. -/
def joinAll (vs : List Value) : Value := vs.foldl join hot

mutual

/-- Forgets which objects a value refers to. Values are widened where keeping them would make the
    number of addresses unbounded. -/
def widen : Value → Value
  | hot => hot
  | cold => cold
  | ref _ => cold
  | closure .. => cold
  | oneOf vs => joinAll (widenAll vs)

/-- Widens every value of a list. -/
def widenAll : List Value → List Value
  | [] => []
  | v :: vs => v.widen :: widenAll vs

end

end Value

end ObjectInit
