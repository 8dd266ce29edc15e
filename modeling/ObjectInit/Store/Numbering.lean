import Std.Data.ExtTreeMap

/-!
# Numberings

Distinct items, numbered from zero in the order in which they were added. Items are found by their
number and numbers by their item, so a numbering keeps both directions and the proof that each is
the inverse of the other.

A numbering stands for an index set (`IndexSet`) of which nothing is removed. Of its operations it
has those that are documented as follows: `insert_full` gives the index of an equal item that is
there already, or else puts the item at the end and gives the index of the end (`Numbering.number`
with `Numbering.add`); indexing gives the item that was put there (`Numbering.item?`).

Main results:

* `Numbering.number?_eq_some_iff`: an item has a number exactly if it is found under it.
* `Numbering.item?_add`, `Numbering.number?_add`: adding an item changes nothing for the others.
* `Numbering.toList_add`: an item that is new comes behind the others.
-/

namespace ObjectInit

/-- Items with their numbers: an index set to which items are only added. -/
structure Numbering (κ : Type) [Ord κ] [Std.TransOrd κ] where
  /-- The number of items. -/
  size : Nat
  items : Std.ExtTreeMap Nat κ
  numbers : Std.ExtTreeMap κ Nat
  mem_items : ∀ i : Nat, i ∈ items ↔ i < size
  numbers_inverse : ∀ (k : κ) (i : Nat), numbers[k]? = some i ↔ items[i]? = some k

namespace Numbering

variable {κ : Type} [Ord κ] [Std.TransOrd κ]

def empty : Numbering κ where
  size := 0
  items := ∅
  numbers := ∅
  mem_items := by simp
  numbers_inverse := by simp

instance : Inhabited (Numbering κ) := ⟨empty⟩

/-- The item with a number. -/
def item? (n : Numbering κ) (i : Nat) : Option κ := n.items[i]?

/-- The number of an item that was added. -/
def number? (n : Numbering κ) (k : κ) : Option Nat := n.numbers[k]?

/-- The number that an item has, or would get if it were added. -/
def number (n : Numbering κ) (k : κ) : Nat := (n.number? k).getD n.size

/-- The items in the order of their numbers. -/
def toList (n : Numbering κ) : List κ :=
  List.ofFn fun i : Fin n.size =>
    have := (n.mem_items i).2 i.2
    n.items[i.1]

theorem number?_eq_some_iff (n : Numbering κ) (k : κ) (i : Nat) :
    n.number? k = some i ↔ n.item? i = some k :=
  n.numbers_inverse k i

theorem lt_size_of_item? {n : Numbering κ} {k : κ} {i : Nat} (h : n.item? i = some k) :
    i < n.size := by
  rw [← n.mem_items, Std.ExtTreeMap.mem_iff_isSome_getElem?]
  exact Option.isSome_of_eq_some h

theorem getElem?_toList (n : Numbering κ) (i : Nat) : n.toList[i]? = n.item? i := by
  by_cases h : i < n.size
  · simp [toList, item?, h]
  · have : i ∉ n.items := fun hi => h ((n.mem_items i).1 hi)
    simp [toList, item?, h, this]

@[simp] theorem length_toList (n : Numbering κ) : n.toList.length = n.size := by simp [toList]

theorem mem_toList_iff (n : Numbering κ) (k : κ) : k ∈ n.toList ↔ (n.number? k).isSome := by
  simp [List.mem_iff_getElem?, getElem?_toList, Option.isSome_iff_exists, number?_eq_some_iff]

theorem nodup_toList (n : Numbering κ) : n.toList.Nodup := by
  rw [List.Nodup, List.pairwise_iff_getElem]
  intro i j hi hj hij he
  have h := n.getElem?_toList i
  have h' := n.getElem?_toList j
  rw [List.getElem?_eq_getElem hi, he, eq_comm, ← number?_eq_some_iff] at h
  rw [List.getElem?_eq_getElem hj, eq_comm, ← number?_eq_some_iff, h] at h'
  cases h'
  exact Nat.lt_irrefl _ hij

@[simp] theorem toList_empty : (empty : Numbering κ).toList = [] := rfl

/-! ## Adding an item -/

variable [Std.LawfulEqOrd κ]

/-- Gives an item the next number, unless it has one. -/
def add (n : Numbering κ) (k : κ) : Numbering κ :=
  if h : n.number? k = none then
    { size := n.size + 1
      items := n.items.insert n.size k
      numbers := n.numbers.insert k n.size
      mem_items := fun i => by
        rw [Std.ExtTreeMap.mem_insert, n.mem_items, Nat.compare_eq_eq]
        omega
      numbers_inverse := fun l i => by
        have hlt := n.lt_size_of_item? (k := l) (i := i)
        have hk := n.number?_eq_some_iff k i
        have hl := n.number?_eq_some_iff l i
        simp only [item?, number?] at h hk hl hlt
        rw [Std.ExtTreeMap.getElem?_insert, Std.ExtTreeMap.getElem?_insert]
        by_cases e : k = l <;> by_cases f : n.size = i
        · simp [e, f]
        · subst e; simp_all
        · subst f; simp_all
        · simp_all }
  else n

theorem item?_add (n : Numbering κ) (k : κ) (i : Nat) :
    (n.add k).item? i = if i = n.number k then some k else n.item? i := by
  by_cases h : n.number? k = none
  · simp only [add, item?, number, h, ↓reduceDIte, Option.getD_none]
    rw [Std.ExtTreeMap.getElem?_insert]
    simp [@eq_comm _ i]
  · obtain ⟨j, hj⟩ := Option.ne_none_iff_exists'.1 h
    by_cases hi : i = j
    · simp [add, number, hj, hi, (n.number?_eq_some_iff k j).1 hj]
    · simp [add, number, hj, hi]

/-- Items keep their numbers. -/
theorem item?_add_of_eq_some {n : Numbering κ} {l : κ} {i : Nat} (h : n.item? i = some l) (k : κ) :
    (n.add k).item? i = some l := by
  cases hk : n.number? k with
  | none =>
    have := n.lt_size_of_item? h
    simp [item?_add, number, hk, h, Nat.ne_of_lt this]
  | some j => simp [add, hk, h]

/-- An item had its number before, or it gets the next one. -/
theorem item?_of_add {n : Numbering κ} {k l : κ} {i : Nat} (h : (n.add k).item? i = some l) :
    n.item? i = some l ∨ i = n.size ∧ l = k := by
  rw [item?_add] at h
  split at h
  · next hi =>
    cases h
    cases hk : n.number? k with
    | none => exact .inr ⟨by rw [hi, number, hk]; rfl, rfl⟩
    | some j =>
      obtain rfl : i = j := by rw [hi, number, hk]; rfl
      exact .inl ((n.number?_eq_some_iff k i).1 hk)
  · exact .inl h

theorem number?_add [DecidableEq κ] (n : Numbering κ) (k l : κ) :
    (n.add k).number? l = if l = k then some (n.number k) else n.number? l := by
  by_cases h : n.number? k = none
  · simp only [add, number, h, ↓reduceDIte, Option.getD_none]
    rw [number?, Std.ExtTreeMap.getElem?_insert]
    simp [number?, @eq_comm _ l]
  · obtain ⟨j, hj⟩ := Option.ne_none_iff_exists'.1 h
    by_cases hl : l = k <;> simp [add, number, hj, hl]

theorem size_add (n : Numbering κ) (k : κ) :
    (n.add k).size = if (n.number? k).isSome then n.size else n.size + 1 := by
  cases h : n.number? k <;> simp [add, h]

theorem toList_add (n : Numbering κ) (k : κ) :
    (n.add k).toList = if (n.number? k).isSome then n.toList else n.toList ++ [k] := by
  cases h : n.number? k with
  | some i => simp [add, h]
  | none =>
    refine List.ext_getElem? fun i => ?_
    rw [getElem?_toList, item?_add, number, h, ← getElem?_toList]
    rcases Nat.lt_trichotomy i n.size with hi | rfl | hi
    · simp [Nat.ne_of_lt hi, List.getElem?_append_left, hi]
    · simp
    · simp [Nat.ne_of_gt hi, List.getElem?_append_right, Nat.le_of_lt hi, Nat.sub_ne_zero_of_lt hi]

end Numbering

end ObjectInit
