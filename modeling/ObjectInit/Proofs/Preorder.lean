import ObjectInit.Proofs.Log

/-!
# The order of errors and their causes

Errors form trees, because a failed promotion has causes. `SafetyErrors.walk` goes through them
step by step, with a stack of what is still to come. Recursion on the trees gives the same list:
`SafetyErrors.preorder`, in which each error stands before its causes. An error can also be named by
its path, which chooses one of the errors, then one of its causes and so on. In the order of the
list, the paths ascend.

Main results:

* `SafetyErrors.walk_eq_take`: the first steps of the walk list the first errors of `preorder`.
* `SafetyErrors.pairwise_paths`, `SafetyErrors.mem_paths`, `SafetyErrors.map_paths`: the list has
  the error at each path once, in the order of the paths.
* `SafetyErrors.flatten_eq_preorder`: both for the list that the whole walk gives.
-/

namespace ObjectInit

/-! ## Lists by recursion -/

mutual

/-- The error, and then its causes at every depth. -/
def SafetyError.preorder : SafetyError → List SafetyError
  | .failedPromotion reason causes place =>
    .failedPromotion reason causes place :: SafetyErrors.preorder causes
  | e => [e]

/-- The errors, each one followed by its causes at every depth. -/
def SafetyErrors.preorder : List SafetyError → List SafetyError
  | [] => []
  | e :: es => e.preorder ++ SafetyErrors.preorder es

end

mutual

/-- The paths of the causes at every depth. -/
def SafetyError.paths : SafetyError → List (List Nat)
  | .failedPromotion _ causes _ => SafetyErrors.paths causes
  | _ => []

/-- The paths of the errors and of their causes at every depth. A path starts with the number of an
    error in the list and goes on with a path of its causes, if it goes on. -/
def SafetyErrors.paths : List SafetyError → List (List Nat)
  | [] => []
  | e :: es => [0] :: (e.paths.map (0 :: ·) ++ (SafetyErrors.paths es).map (·.modifyHead (· + 1)))

end

/-- The cause at the end of a path: one of the causes of the error, one of the causes of this one,
    and so on. -/
def SafetyError.cause? : SafetyError → List Nat → Option SafetyError
  | e, [] => some e
  | e, i :: path => e.causes[i]?.bind (·.cause? path)

namespace SafetyErrors

/-- The error at the end of a path. -/
def at? (es : List SafetyError) : List Nat → Option SafetyError
  | [] => none
  | i :: path => es[i]?.bind (·.cause? path)

variable {e : SafetyError} {es fs : List SafetyError}

/-- What causes pass on to their errors, and the rest of a list to the list, holds of all lists of
    errors. -/
theorem induction {P : List SafetyError → Prop} (nil : P [])
    (cons : ∀ e es, P e.causes → P es → P (e :: es)) : ∀ es, P es
  | [] => nil
  | e :: es => cons e es (induction nil cons e.causes) (induction nil cons es)
termination_by es => SafetyError.sizeAll es
decreasing_by all_goals rw [SafetyError.sizeAll, SafetyError.size_eq]; omega

/-! ## The walk -/

theorem preorder_cons (e : SafetyError) (es : List SafetyError) :
    preorder (e :: es) = e :: (preorder e.causes ++ preorder es) := by
  cases e <;> rfl

theorem preorder_append : preorder (es ++ fs) = preorder es ++ preorder fs := by
  induction es with
  | nil => rfl
  | cons e es ih =>
    rw [List.cons_append, preorder_cons, preorder_cons, ih, List.cons_append, List.append_assoc]

theorem length_preorder : (preorder es).length = SafetyError.sizeAll es := by
  induction es using induction with
  | nil => rfl
  | cons e es causes rest =>
    rw [preorder_cons, List.length_cons, List.length_append, causes, rest, SafetyError.sizeAll,
      SafetyError.size_eq]
    omega

/-- What is on the stack is still to be listed, from the top to the bottom. -/
theorem walk_eq_take (n : Nat) : walk n es = (preorder es).take n := by
  induction n generalizing es with
  | zero => simp [walk]
  | succ n ih =>
    cases es with
    | nil => rfl
    | cons e es => rw [walk, ih, preorder_append, preorder_cons, List.take_succ_cons]

/-! ## The paths -/

theorem paths_cons (e : SafetyError) (es : List SafetyError) :
    paths (e :: es) =
      [0] :: ((paths e.causes).map (0 :: ·) ++ (paths es).map (·.modifyHead (· + 1))) := by
  cases e <;> rfl

theorem at?_zero_cons {path : List Nat} (ne : path ≠ []) :
    at? (e :: es) (0 :: path) = at? e.causes path := by
  cases path with
  | nil => exact absurd rfl ne
  | cons => rfl

theorem at?_modifyHead {path : List Nat} (ne : path ≠ []) :
    at? (e :: es) (path.modifyHead (· + 1)) = at? es path := by
  cases path with
  | nil => exact absurd rfl ne
  | cons => rfl

theorem cons_mem_map_modifyHead {paths : List (List Nat)} {i : Nat} {path : List Nat} :
    i :: path ∈ paths.map (·.modifyHead (· + 1)) ↔ ∃ j, i = j + 1 ∧ j :: path ∈ paths := by
  rw [List.mem_map]
  constructor
  · rintro ⟨_ | ⟨j, rest⟩, mem, same⟩
    · cases same
    · cases same
      exact ⟨j, rfl, mem⟩
  · rintro ⟨j, rfl, mem⟩
    exact ⟨j :: path, mem, rfl⟩

/-- There is a path to every error, and every path leads to an error. -/
theorem mem_paths {path : List Nat} : path ∈ paths es ↔ (at? es path).isSome := by
  induction es using induction generalizing path with
  | nil => cases path <;> simp [paths, at?]
  | cons e es causes rest =>
    rw [paths_cons, List.mem_cons, List.mem_append]
    match path with
    | [] => simp [rest, at?]
    | [0] => simp [at?, SafetyError.cause?]
    | 0 :: i :: path => simp [cons_mem_map_modifyHead, causes, at?_zero_cons]
    | (i + 1) :: path => simp [cons_mem_map_modifyHead, rest, at?]

theorem ne_nil_of_mem_paths {path : List Nat} (h : path ∈ paths es) : path ≠ [] := by
  rintro rfl
  cases mem_paths.1 h

theorem map_paths : (paths es).map (at? es) = (preorder es).map some := by
  induction es using induction with
  | nil => rfl
  | cons e es causes rest =>
    rw [paths_cons, preorder_cons, List.map_cons, List.map_cons, List.map_append, List.map_append,
      List.map_map, List.map_map, ← causes, ← rest]
    congr 2
    · exact List.map_congr_left fun path h => at?_zero_cons (ne_nil_of_mem_paths h)
    · exact List.map_congr_left fun path h => at?_modifyHead (ne_nil_of_mem_paths h)

/-- A path comes before those that go on from it, and before those that have a greater number where
    they first differ. -/
theorem pairwise_paths : (paths es).Pairwise (· < ·) := by
  induction es using induction with
  | nil => exact .nil
  | cons e es causes rest =>
    have later {q : List Nat} (hq : q ∈ paths es) (p : List Nat) :
        0 :: p < q.modifyHead (· + 1) := by
      obtain ⟨i, q, rfl⟩ := List.exists_cons_of_ne_nil (ne_nil_of_mem_paths hq)
      exact List.cons_lt_cons_iff.2 (.inl (Nat.succ_pos i))
    rw [paths_cons, List.pairwise_cons, List.pairwise_append, List.pairwise_map, List.pairwise_map]
    refine ⟨?first, ?inCauses, ?inRest, ?apart⟩
    case first =>
      simp only [List.mem_append, List.mem_map]
      rintro _ (⟨p, hp, rfl⟩ | ⟨q, hq, rfl⟩)
      · obtain ⟨i, p, rfl⟩ := List.exists_cons_of_ne_nil (ne_nil_of_mem_paths hp)
        exact List.cons_lt_cons_iff.2 (.inr ⟨rfl, List.nil_lt_cons i p⟩)
      · exact later hq []
    case inCauses => exact causes.imp fun lt => List.cons_lt_cons_iff.2 (.inr ⟨rfl, lt⟩)
    case inRest =>
      refine rest.imp_of_mem fun {p q} hp hq lt => ?_
      obtain ⟨i, p, rfl⟩ := List.exists_cons_of_ne_nil (ne_nil_of_mem_paths hp)
      obtain ⟨j, q, rfl⟩ := List.exists_cons_of_ne_nil (ne_nil_of_mem_paths hq)
      simpa [List.cons_lt_cons_iff] using lt
    case apart =>
      simp only [List.mem_map]
      rintro _ ⟨p, -, rfl⟩ _ ⟨q, hq, rfl⟩
      exact later hq p

/-! ## The whole walk -/

/-- The walk goes depth first: it lists each error, then its causes at every depth, then the errors
    after it. It has listed the first `n` errors after `n` steps and ends with the last one. Each
    error is listed once, as its path is, and the paths ascend. -/
theorem flatten_eq_preorder (es : List SafetyError) :
    flatten es = preorder es ∧
      (∀ n, walk n es = (preorder es).take n) ∧
      (flatten es).map some = (paths es).map (at? es) ∧
      (∀ path, path ∈ paths es ↔ (at? es path).isSome) ∧
      (paths es).Pairwise (· < ·) := by
  have whole : flatten es = preorder es := by
    rw [flatten, walk_eq_take, ← length_preorder, List.take_length]
  refine ⟨whole, walk_eq_take, ?_, fun path => mem_paths, pairwise_paths⟩
  rw [whole, map_paths]

end SafetyErrors

end ObjectInit
