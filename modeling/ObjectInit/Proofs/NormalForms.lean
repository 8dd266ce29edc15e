import ObjectInit.Proofs.Entries
import ObjectInit.Proofs.Lattice
import ObjectInit.Proofs.Universes

/-!
# Normal forms

The normal values are a universe: joins of normal values are normal, and a closure is normal that
captures an environment of normal values. So all values that occur in the analysis of a class are
normal. In particular a set has at least two members in ascending order, which are addresses and
closures, and no warm object stands beside the object under construction of its class.

Main results:

* `Universe.normal`: the universe of normal values.
* `Query.normal_of_check`: the values in the stores that the check of a class comes to, and those in
  the questions that it asks and in their answers, are normal.
-/

namespace ObjectInit

/-- All members of a normal value are normal. -/
theorem Value.Normal.of_mem {vs : List Value} (h : (oneOf vs).Normal) : ∀ v ∈ vs, v.Normal := by
  cases h with
  | set h => exact fun v hv => .set (.atom (h.atomic v hv))

theorem Value.normal_closure_iff {body : ExprId} {params : List SymbolId} {frame : Frame}
    {env : Env} : (closure body params frame env).Normal ↔ env.Binds Normal := by
  refine ⟨fun h => ?_, fun h => .set (.atom (.closure h))⟩
  cases h with
  | set h =>
    cases h with
    | atom h =>
      cases h with
      | closure captured => exact captured

/-- The normal values, with any path of calls. -/
def Universe.normal : Universe where
  value := Value.Normal
  path _ := True
  code _ := True
  hot := .hot
  cold := .cold
  ref := .ref
  closure _ _ _ _ := Value.normal_closure_iff.trans ⟨fun h => ⟨trivial, h⟩, And.right⟩
  members _ h := h.of_mem
  join _ _ := .join
  add _ _ _ := trivial

/-- All values in the store are normal, and so are those in the environments that are left for the
    time being. -/
structure Store.Normal (s : Store) (left : List Env) : Prop where
  field : ∀ a f v, s.heap.field? a f = some v → v.Normal
  outer : ∀ a c v, s.heap.outer? a c = some v → v.Normal
  /-- The keys that identify warm objects. -/
  creation : ∀ w creation, s.heap.creation? w = some creation →
    creation.outer.Normal ∧ ∀ v ∈ creation.args, v.Normal
  cached : ∀ a e v, s.cache.find? a e = some v → v.Normal
  trusted : ∀ v, s.trusted.contains v → v.Normal
  env : ∀ env ∈ s.env :: left, ∀ x v, env.lookup x = some v → v.Normal

/-- The values that a question is about. -/
def Query.values {β : Type} : Query β → List Value
  | .select v .. | .promote v .. | .isPromotable v | .enclosingInstance _ v .. => [v]
  | .call v _ args .. | .construct v _ args _ | .create v _ _ args _ => v :: args.map ArgValue.value
  | .eval .. | .template .. | .body .. | .outerInstance .. | .check _ => []

/-- The values in an answer. -/
def Query.valuesIn {β : Type} : Query β → β → List Value
  | .eval .. | .select .. | .call .. | .construct .. | .create .. | .template ..
  | .outerInstance .. => fun o => [o.value]
  | .enclosingInstance .. => fun v => [v]
  | .body .. | .promote .. | .check .. | .isPromotable _ => fun _ => []

variable {U : Universe} {p : Program} {c : ClassId} {β : Type}

namespace Universe

theorem value_of_asks {q : Query β} (h : U.Asks q) : ∀ v ∈ q.values, U.value v := by
  have receiver {v : Value} {args : List ArgValue} (h : U.value v ∧ U.HasArgs args) :
      ∀ u ∈ v :: args.map ArgValue.value, U.value u := by
    refine List.forall_mem_cons.2 ⟨h.1, fun u hu => ?_⟩
    obtain ⟨arg, harg, rfl⟩ := List.mem_map.1 hu
    exact (h.2 arg harg).value
  cases q with
  | select | promote | isPromotable | enclosingInstance => exact List.forall_mem_singleton.2 h
  | call | construct | create => exact receiver h
  | eval | template | body | outerInstance | check => exact nofun

theorem value_of_answers {q : Query β} {b : β} (h : U.Answers q b) :
    ∀ v ∈ q.valuesIn b, U.value v := by
  cases q with
  | eval | select | call | construct | create | template | outerInstance =>
    exact List.forall_mem_singleton.2 h.value
  | enclosingInstance => exact List.forall_mem_singleton.2 h
  | body | promote | check | isPromotable => exact nofun

theorem Contains.normal {s : Store} (h : normal.Contains s) {left : List Env}
    (hleft : ∀ env ∈ left, env.Binds Value.Normal) : s.Normal left where
  field := h.field
  outer := h.outer
  creation w creation hw := ⟨(h.creation w creation hw).outer, (h.creation w creation hw).args⟩
  cached := h.cached
  trusted := h.trusted
  env := List.forall_mem_cons.2 ⟨h.env, hleft⟩

end Universe

/-- In the analysis of a class, all values are in their normal form: those in the heap, in the keys
    of its warm objects, in the cache, among the trusted values and in the environments of every
    store that the analysis comes to, and those in every question on the way and in its answer. -/
theorem Query.normal_of_check :
    (∀ left s, (Query.check c).Reaches p .initial left s → s.Normal left) ∧
      ∀ active (γ : Type) (q : Query γ) t, (Query.check c).Way p .initial active q t →
        (∀ v ∈ q.values, v.Normal) ∧
          ∀ b t', q.Answered p t b t' → ∀ v ∈ q.valuesIn b, v.Normal := by
  have covers : Universe.normal.Covers p := fun _ _ => trivial
  have initial : Universe.normal.Contains .initial := Universe.contains_initial trivial
  refine ⟨fun left s reach => ?_, fun active γ q t way => ?_⟩
  · obtain ⟨hs, hleft⟩ := Universe.contains_of_reaches covers (Plan.keeps_check c) initial reach
    exact hs.normal hleft
  · obtain ⟨asks, ht⟩ := Universe.asks_of_way covers (q := .check c) trivial initial way
    refine ⟨Universe.value_of_asks asks, fun b t' ⟨n, hb⟩ => ?_⟩
    exact Universe.value_of_answers (Universe.answers_of_ends covers asks ht hb).1

/-- A class `A` with a field `x` that holds the object itself or a closure. -/
def holdsEither : Program := .ofCommands [
  .defineClass "A" .package .none true,
  .defineField ⟨4⟩ "x" .value,
  .literal,
  .thisOf ⟨4⟩,
  .declareFunction (.symbol ⟨15⟩) [],
  .closure ⟨16⟩ ⟨2⟩,
  .ifElse ⟨2⟩ ⟨3⟩ ⟨4⟩,
  .setBody ⟨15⟩ ⟨5⟩]

/-- The store after the check of `A`. -/
def holdsEither.checked : Store := (Query.check ⟨4⟩).storeAfter holdsEither 20 .initial

/-- The object under construction or the closure. -/
def holdsEither.either : Value :=
  .oneOf [.ref (.thisOf ⟨4⟩), .closure ⟨2⟩ [] ⟨.thisOf ⟨4⟩, ⟨4⟩⟩ .empty]

/-- The check of `A` evaluates the initializer of `x` to a set, which it stores in the heap. -/
theorem Query.normal_of_check_holdsEither :
    (Query.check ⟨4⟩).Reaches holdsEither .initial [] holdsEither.checked ∧
      holdsEither.checked.Normal [] ∧
      holdsEither.checked.heap.field? (.thisOf ⟨4⟩) ⟨15⟩ = some holdsEither.either ∧
      ∃ active d t o t',
        (Query.check ⟨4⟩).Way holdsEither .initial active (.eval ⟨5⟩ ⟨.thisOf ⟨4⟩, d⟩ true) t ∧
        (Query.eval ⟨5⟩ ⟨.thisOf ⟨4⟩, d⟩ true).Answered holdsEither t o t' ∧
        o.value = holdsEither.either ∧ holdsEither.either.Normal := by
  obtain ⟨es, answered, -⟩ := Query.answered_of_result? (p := holdsEither) (n := 20)
    (q := .check ⟨4⟩) (s := .initial) List.isEmpty (by decide +kernel)
  obtain ⟨n, ends⟩ := answered
  obtain ⟨active, d, t, o, t', way, -, ho, value⟩ := ends.new_entry (a := .thisOf ⟨4⟩) (e := ⟨5⟩)
    (v := holdsEither.either) (by decide +kernel) (by decide +kernel)
  obtain ⟨stores, questions⟩ := Query.normal_of_check (p := holdsEither) (c := ⟨4⟩)
  have normal : o.value.Normal :=
    (questions _ _ _ _ way).2 _ _ ho _ List.mem_cons_self
  have reached := Query.Answered.reaches ⟨n, ends⟩
  exact ⟨reached, stores _ _ reached, by decide +kernel, active, d, t, o, t', way, ho, value,
    value ▸ normal⟩

end ObjectInit
