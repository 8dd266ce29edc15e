import ObjectInit.Proofs.Visits

/-!
# The order in which lazy fields are forced

The initializer of a lazy field is evaluated when the field is read for the first time, so what
other fields were read before could make a difference. It makes none as long as the objects that are
created have the same addresses, nothing in the heap is looked at before it is there, and every
expression has one meaning: an expression that is met again while it is evaluated is hot in any
case, and one whose value is kept is used again in the same class and environment only.

Main results:

* `Query.agree_of_settled`: the answer to a question is the same after another question.
* `Query.select_agree_of_settled`: the value of a field is the same after another field was read.
* `Query.cycle_order_matters`, `Query.closure_order_matters`, `Query.object_order_matters`,
  `Query.param_order_matters`: fields whose values depend on the order.
-/

namespace ObjectInit

variable {p : Program} {s s₁ s₂ s₃ : Store} {o₁ o₂ o₃ : Outcome}

/-- Where the questions at the start find no errors, no question on the way does. -/
theorem Query.quiet_of_clean {starts : List (Query Outcome × Store)}
    (h : ∀ r ∈ starts, ∃ o t, r.1.Answered p r.2 o t ∧ r.1.Clean o) : Query.Quiet p starts := by
  rintro γ active q t b t' ⟨r, hr, way⟩ hb
  obtain ⟨o, u, ho, clean⟩ := h r hr
  obtain ⟨b', u', hb', clean'⟩ := way.clean ho clean
  rw [(hb.unique hb').1]
  exact clean'

/-- The second question has the answer that it has after the first one, if no errors are found,
    whatever it creates on its own is also there after both, nothing is looked at too early and
    every expression on the way has one meaning. -/
theorem Query.agree_of_settled {q r : Query Outcome} (hq : q.Alike q) (hr : r.Alike r)
    (first : q.Answered p s o₁ s₁) (second : r.Answered p s₁ o₂ s₂)
    (alone : r.Answered p s o₃ s₃) (clean₁ : q.Clean o₁) (clean₂ : r.Clean o₂)
    (clean₃ : r.Clean o₃) (heap : s₃.heap.Extends s₂.heap)
    (timely : Query.Timely p s₂.heap [(q, s), (r, s₁), (r, s)])
    (settled : s.Settled p [(q, s), (r, s₁), (r, s)]) :
    ∃ o, r.AnswersAlike o₂ o ∧ r.AnswersAlike o₃ o := by
  have quiet : Query.Quiet p [(q, s), (r, s₁), (r, s)] := by
    refine Query.quiet_of_clean ?_
    simp only [List.mem_cons, List.not_mem_nil, or_false]
    rintro _ (rfl | rfl | rfl)
    · exact ⟨o₁, s₁, first, clean₁⟩
    · exact ⟨o₂, s₂, second, clean₂⟩
    · exact ⟨o₃, s₃, alone, clean₃⟩
  obtain ⟨n, first⟩ := first
  obtain ⟨m, second⟩ := second
  obtain ⟨l, alone⟩ := alone
  -- Without a cache, everything happens on the heap at the end.
  let s₀ : Store := { s with heap := s₂.heap }
  have start : s.Sound p s₀ [(q, s), (r, s₁), (r, s)] [] := Store.Sound.start.congr rfl
  have settled₀ : s₀.Settled p [(q, s), (r, s₁), (r, s)] := settled
  have upTo (k : Nat) : SoundUpTo p s₀ [(q, s), (r, s₁), (r, s)] k :=
    Query.Ends.yields settled₀ quiet timely k
  obtain ⟨sound, -⟩ := upTo n hq first ⟨(q, s), by simp, .start⟩ start second.keeps.heap
  obtain ⟨-, o, yields, alike⟩ := upTo m hr second ⟨(r, s₁), by simp, .start⟩ sound (.refl _)
  obtain ⟨-, o', yields', alike'⟩ := upTo l hr alone ⟨(r, s), by simp, .start⟩ start heap
  rw [first.env] at yields
  rw [yields'.unique yields] at alike'
  exact ⟨o, alike, alike'⟩

/-- The value of a field is the same whether or not another field was read before. -/
theorem Query.select_agree_of_settled {a : Addr} {f g : SymbolId} {source source' : Span}
    (first : (Query.select (.ref a) f source true).Answered p s o₁ s₁)
    (second : (Query.select (.ref a) g source' true).Answered p s₁ o₂ s₂)
    (alone : (Query.select (.ref a) g source' true).Answered p s o₃ s₃)
    (clean : o₁.errors = [] ∧ o₂.errors = [] ∧ o₃.errors = [])
    (heap : s₃.heap.Extends s₂.heap)
    (timely : Query.Timely p s₂.heap [(.select (.ref a) f source true, s),
      (.select (.ref a) g source' true, s₁), (.select (.ref a) g source' true, s)])
    (settled : s.Settled p [(.select (.ref a) f source true, s),
      (.select (.ref a) g source' true, s₁), (.select (.ref a) g source' true, s)]) :
    o₂.value = o₃.value := by
  obtain ⟨o, alike, alike'⟩ := Query.agree_of_settled (.select _ f source true)
    (.select _ g source' true) first second alone clean.1 clean.2.1 clean.2.2 heap timely settled
  exact alike.1.trans alike'.1.symm

/-- A read of a field of the object of class 4 that is under construction. -/
def readField (f : SymbolId) : Query Outcome := .select (.ref (.thisOf ⟨4⟩)) f .empty true

/-- A class `A` with a member class `D` and three lazy fields: `a` is `c`, `c` is `a`, and `b` is an
    instance of `D`, whose field `y` is `a`. -/
def lazyMixed : Program := .ofCommands [
  .defineClass "A" .package .none true,
  .defineClass "D" (.cls ⟨4⟩) .none true,
  .defineField ⟨4⟩ "a" .lazy,
  .defineField ⟨4⟩ "c" .lazy,
  .defineField ⟨4⟩ "b" .lazy,
  .defineField ⟨5⟩ "y" .value,
  .ident ⟨17⟩,
  .setBody ⟨16⟩ ⟨7⟩,
  .ident ⟨16⟩,
  .setBody ⟨17⟩ ⟨8⟩,
  .newInstance ⟨5⟩ [],
  .setBody ⟨18⟩ ⟨9⟩,
  .ident ⟨16⟩,
  .setBody ⟨19⟩ ⟨10⟩]

/-- The reads of `a` and `b`, and of `b` alone. -/
def lazyMixed.starts : List (Query Outcome × Store) :=
  [(readField ⟨16⟩, .initial),
    (readField ⟨18⟩, (readField ⟨16⟩).storeAfter lazyMixed 40 .initial),
    (readField ⟨18⟩, .initial)]

/-- The heap after both reads. -/
def lazyMixed.heap : Heap :=
  ((readField ⟨18⟩).storeAfter lazyMixed 40
    ((readField ⟨16⟩).storeAfter lazyMixed 40 .initial)).heap

/-- Although `a` and `c` are met again while they are evaluated and an object is created, `b` has
    the same value after `a`. -/
theorem Query.select_agree_of_settled_mixed :
    ∃ o₁ s₁ o₂ s₂ o₃ s₃, (readField ⟨16⟩).Answered lazyMixed .initial o₁ s₁ ∧
      (readField ⟨18⟩).Answered lazyMixed s₁ o₂ s₂ ∧
      (readField ⟨18⟩).Answered lazyMixed .initial o₃ s₃ ∧
      o₂.value = .ref (.warm ⟨⟨5⟩, 0⟩) ∧ o₂.value = o₃.value := by
  obtain ⟨o₁, first, clean₁⟩ := Query.ends_of_result? (fun o => o.errors.isEmpty)
    (p := lazyMixed) (n := 40) (s := .initial) (q := readField ⟨16⟩) (by decide +kernel)
  obtain ⟨o₂, second, found⟩ := Query.ends_of_result?
    (fun o => o.errors.isEmpty && o.value == .ref (.warm ⟨⟨5⟩, 0⟩)) (p := lazyMixed) (n := 40)
    (s := (readField ⟨16⟩).storeAfter lazyMixed 40 .initial) (q := readField ⟨18⟩)
    (by decide +kernel)
  obtain ⟨o₃, alone, clean₃⟩ := Query.ends_of_result? (fun o => o.errors.isEmpty)
    (p := lazyMixed) (n := 40) (s := .initial) (q := readField ⟨18⟩) (by decide +kernel)
  obtain ⟨clean₂, value⟩ := Bool.and_eq_true_iff.1 found
  simp only [List.isEmpty_iff] at clean₁ clean₂ clean₃
  have answered : ∀ r ∈ lazyMixed.starts, ∃ o t, r.1.Ends lazyMixed 40 r.2 o t := by
    simp only [lazyMixed.starts, List.forall_mem_cons]
    exact ⟨⟨o₁, _, first⟩, ⟨o₂, _, second⟩, ⟨o₃, _, alone⟩, nofun⟩
  refine ⟨o₁, _, o₂, _, o₃, _, ⟨40, first⟩, ⟨40, second⟩, ⟨40, alone⟩, eq_of_beq value, ?_⟩
  exact Query.select_agree_of_settled ⟨40, first⟩ ⟨40, second⟩ ⟨40, alone⟩
    ⟨clean₁, clean₂, clean₃⟩ (Heap.extends_of_isWithin (by decide +kernel))
    (Query.timely_of_passes (H := lazyMixed.heap) answered (by decide +kernel))
    (Store.settled_of_visits answered (by decide +kernel))

/-! ## Fields whose values depend on the order -/

/-- Whether no errors are found, the value of `g` after `f` was read, and its value alone. -/
def valuesOfSecond (p : Program) (f g : SymbolId) : Option (Bool × Value × Value) := do
  let (o₁, s) ← (readField f).result? p 30 .initial
  let (o₂, _) ← (readField g).result? p 30 s
  let (o₃, _) ← (readField g).result? p 30 .initial
  return ((o₁.errors ++ o₂.errors ++ o₃.errors).isEmpty, o₂.value, o₃.value)

/-- A class with two lazy fields: `a` reads `b` and is the instance, and `b` is `a`. -/
def lazyCycle : Program := .ofCommands [
  .defineClass "A" .package .none true,
  .defineField ⟨4⟩ "a" .lazy,
  .defineField ⟨4⟩ "b" .lazy,
  .ident ⟨16⟩,
  .thisOf ⟨4⟩,
  .block [⟨3⟩] ⟨4⟩,
  .setBody ⟨15⟩ ⟨5⟩,
  .ident ⟨15⟩,
  .setBody ⟨16⟩ ⟨6⟩]

/-- After `a`, the value of `b` is the placeholder of `a`. -/
theorem Query.cycle_order_matters :
    valuesOfSecond lazyCycle ⟨15⟩ ⟨16⟩ = some (true, .hot, .ref (.thisOf ⟨4⟩)) := by
  decide +kernel

/-- A class with two lazy fields and a method: `a` is `m(1)`, `m(x)` is `b`, and `b` is a function
    literal. -/
def lazyClosure : Program := .ofCommands [
  .defineClass "A" .package .none true,
  .defineField ⟨4⟩ "a" .lazy,
  .defineField ⟨4⟩ "b" .lazy,
  .defineMethod ⟨4⟩ "m" ["x"] .none,
  .declareFunction (.symbol ⟨16⟩) [],
  .literal,
  .closure ⟨19⟩ ⟨4⟩,
  .setBody ⟨16⟩ ⟨5⟩,
  .ident ⟨16⟩,
  .setBody ⟨17⟩ ⟨6⟩,
  .literal,
  .callNamed ⟨17⟩ [⟨⟨7⟩, false⟩],
  .setBody ⟨15⟩ ⟨8⟩]

/-- After `a`, the function literal of `b` has captured the parameter of `m`. -/
theorem Query.closure_order_matters :
    valuesOfSecond lazyClosure ⟨15⟩ ⟨16⟩ =
      some (true, .closure ⟨4⟩ [] ⟨.thisOf ⟨4⟩, ⟨4⟩⟩ (.ofList [(⟨18⟩, .hot)]),
        .closure ⟨4⟩ [] ⟨.thisOf ⟨4⟩, ⟨4⟩⟩ .empty) := by
  decide +kernel

/-- A class with two member classes and two lazy fields: `a` is an instance of the first class and
    `b` is one of the second. -/
def lazyObjects : Program := .ofCommands [
  .defineClass "A" .package .none true,
  .defineClass "C" (.cls ⟨4⟩) .none true,
  .defineClass "D" (.cls ⟨4⟩) .none true,
  .defineField ⟨4⟩ "a" .lazy,
  .defineField ⟨4⟩ "b" .lazy,
  .newInstance ⟨5⟩ [],
  .setBody ⟨17⟩ ⟨7⟩,
  .newInstance ⟨6⟩ [],
  .setBody ⟨18⟩ ⟨8⟩]

/-- After `a`, the object of `b` has the second address that is given out. -/
theorem Query.object_order_matters :
    valuesOfSecond lazyObjects ⟨17⟩ ⟨18⟩ =
      some (true, .ref (.warm ⟨⟨6⟩, 1⟩), .ref (.warm ⟨⟨6⟩, 0⟩)) := by
  decide +kernel

/-- A class with two member classes and three lazy fields. `D` has a parameter `y` and a method `m`
    that returns it; `W` extends `D` with an argument that reads `g` and is the instance of `O`. `g`
    calls `m` on an instance of `W` and is a literal, `a` is an instance of `W`, and `b` reads `g`
    and calls `m` on an instance of `W`. -/
def lazyParam : Program := .ofCommands [
  .defineClass "O" .package .none true,
  .defineClass "D" (.cls ⟨4⟩) .none true,
  .defineClass "W" (.cls ⟨4⟩) .none true,
  .defineClassParam ⟨5⟩ "y",
  .defineMethod ⟨5⟩ "m" [] .none,
  .defineField ⟨4⟩ "g" .lazy,
  .defineField ⟨4⟩ "a" .lazy,
  .defineField ⟨4⟩ "b" .lazy,
  .ident ⟨18⟩,
  .setBody ⟨19⟩ ⟨9⟩,
  .ident ⟨20⟩,
  .thisOf ⟨4⟩,
  .block [⟨10⟩] ⟨11⟩,
  .extend ⟨6⟩ ⟨.bare, ⟨5⟩⟩ [⟨⟨12⟩, false⟩],
  .newInstance ⟨6⟩ [],
  .call ⟨13⟩ ⟨19⟩ [],
  .literal,
  .block [⟨14⟩] ⟨15⟩,
  .setBody ⟨20⟩ ⟨16⟩,
  .newInstance ⟨6⟩ [],
  .setBody ⟨21⟩ ⟨17⟩,
  .ident ⟨20⟩,
  .newInstance ⟨6⟩ [],
  .call ⟨19⟩ ⟨19⟩ [],
  .block [⟨18⟩] ⟨20⟩,
  .setBody ⟨22⟩ ⟨21⟩]

/-- After `a`, the value of `m` is that of a parameter which was not set yet. -/
theorem Query.param_order_matters :
    valuesOfSecond lazyParam ⟨21⟩ ⟨22⟩ = some (true, .hot, .cold) := by
  decide +kernel

end ObjectInit
