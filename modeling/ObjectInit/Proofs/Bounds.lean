import ObjectInit.Proofs.Constructions

/-!
# Bounds

In the analysis of one class there are only finitely many addresses: an object is created by one of
the `new` expressions of the program, with arguments of which at most is known that they are hot,
and its outer instance is not itself inside of a warm object. So the cache has room for finitely
many values (`Memory.room`), and there are finitely many values that are kept and could still be
promoted (`Store.untried`).

Main results:

* `Heap.Bounded.size_le`: how many warm addresses there are.
* `Memory.Extends.room_le`, `Memory.Extends.kept_eq`: where the room stays the same, so do the
  values that are kept.
* `Regime.bounded_lawful`: the analysis of a class stays within the bounds.
-/

namespace ObjectInit

/-! ## Ways of creation -/

/-- The lists of this length of values that are hot or cold. -/
def Value.widened : Nat → List (List Value)
  | 0 => [[]]
  | n + 1 => (widened n).flatMap fun vs => [.hot :: vs, .cold :: vs]

theorem Value.mem_widened {vs : List Value} (h : ∀ v ∈ vs, v = .hot ∨ v = .cold) :
    vs ∈ widened vs.length := by
  induction vs with
  | nil => exact List.mem_singleton_self _
  | cons v vs ih =>
    refine List.mem_flatMap.2 ⟨vs, ih fun u hu => h u (List.mem_cons_of_mem v hu), ?_⟩
    rcases h v List.mem_cons_self with rfl | rfl <;> simp

namespace Program

variable (p : Program)

/-- Somewhere an object of the class is created by the constructor with this number of arguments. -/
def Creates (c : ClassId) (f : SymbolId) (n : Nat) : Prop :=
  ∃ e type args, (p.expr e).node = .new type f args ∧ type.cls = c ∧ args.length = n

/-- The ways in which objects with this outer instance may be created. -/
def creations (outer : Value) : List Creation :=
  p.exprs.toList.flatMap fun e => match e.node with
    | .new type f args => (Value.widened args.length).map fun vs => ⟨type.cls, outer, f, vs⟩
    | _ => []

/-- The ways in which objects outside of warm objects may be created in the analysis of a class. -/
def outmost (c : ClassId) : List Creation :=
  [.hot, .cold, .ref (.thisOf c)].flatMap p.creations

/-- There are at most this many ways to create an object in the analysis of a class. -/
def creationLimit (c : ClassId) : Nat :=
  (p.outmost c).length + (p.outmost c).length * (p.creations .hot).length

/-- The addresses in the analysis of a class. -/
def addrs (c : ClassId) : List Addr :=
  .thisOf c :: (p.creations .hot).flatMap fun creation =>
    (List.range (p.creationLimit c)).map fun i => .warm ⟨creation.cls, i⟩

/-- The evaluations in the analysis of a class. -/
def slots (c : ClassId) : List Cache.Key :=
  (p.addrs c).flatMap fun a => (List.range p.exprs.size).map fun i => ⟨a, ⟨i⟩⟩

variable {p}

theorem mem_creations {creation : Creation}
    (creates : p.Creates creation.cls creation.ctor creation.args.length)
    (args : ∀ v ∈ creation.args, v = .hot ∨ v = .cold) :
    creation ∈ p.creations creation.outer := by
  obtain ⟨e, type, actual, hnode, hcls, hlength⟩ := creates
  have inTable : e.index < p.exprs.size := by
    by_contra h
    rw [expr_of_size_le (Nat.le_of_not_lt h)] at hnode
    cases hnode
  have hmem : p.expr e ∈ p.exprs.toList := by
    rw [expr, Array.getD, dif_pos inTable]
    exact Array.getElem_mem_toList inTable
  refine List.mem_flatMap.2 ⟨p.expr e, hmem, ?_⟩
  rw [hnode]
  refine List.mem_map.2 ⟨creation.args, ?_, by rw [hcls]⟩
  rw [hlength]
  exact Value.mem_widened args

/-- There are equally many ways for each outer instance. -/
theorem length_creations (outer : Value) :
    (p.creations outer).length = (p.creations .hot).length := by
  unfold creations
  rw [List.length_flatMap, List.length_flatMap]
  congr 2
  funext e
  cases e.node <;> simp

theorem mem_slots {c : ClassId} {a : Addr} {e : ExprId} (ha : a ∈ p.addrs c)
    (he : e.index < p.exprs.size) : (⟨a, e⟩ : Cache.Key) ∈ p.slots c :=
  List.mem_flatMap.2 ⟨a, ha, List.mem_map.2 ⟨e.index, List.mem_range.2 he, rfl⟩⟩

end Program

/-! ## Bounded heaps -/

/-- The object is not inside of a warm object. -/
def Creation.IsOutmost (creation : Creation) (c : ClassId) : Prop :=
  creation.outer = .hot ∨ creation.outer = .cold ∨ creation.outer = .ref (.thisOf c)

variable {p : Program} {c : ClassId}

/-- The outer instance is hot, cold, the object under construction or a warm object outside of
    others. -/
def Heap.Encloses (h : Heap) (c : ClassId) (outer : Value) : Prop :=
  outer = .hot ∨ outer = .cold ∨ outer = .ref (.thisOf c) ∨ ∃ w creation, outer = .ref (.warm w) ∧
    h.creation? w = some creation ∧ creation.cls = w.cls ∧ creation.IsOutmost c

/-- All objects are created by expressions of the program, and inside of at most one warm object. -/
def Heap.Bounded (p : Program) (c : ClassId) (h : Heap) : Prop :=
  ∀ w creation, h.creation? w = some creation →
    p.Creates creation.cls creation.ctor creation.args.length ∧
      (∀ v ∈ creation.args, v = .hot ∨ v = .cold) ∧ h.Encloses c creation.outer

/-- An object of this address was created, or it is the object under construction. -/
def Heap.Knows (c : ClassId) (h : Heap) : Addr → Prop
  | .thisOf d => d = c
  | .warm w => ∃ creation, h.creation? w = some creation ∧ creation.cls = w.cls

namespace Heap

variable {h h' : Heap}

theorem Encloses.mono {v : Value} (hv : h.Encloses c v) (ext : h.Extends h') :
    h'.Encloses c v := by
  rcases hv with rfl | rfl | rfl | ⟨w, creation, rfl, hw, hcls, outmost⟩
  · exact .inl rfl
  · exact .inr (.inl rfl)
  · exact .inr (.inr (.inl rfl))
  · exact .inr (.inr (.inr ⟨w, creation, rfl, ext.creation w creation hw, hcls, outmost⟩))

theorem Knows.mono {a : Addr} (ha : h.Knows c a) (ext : h.Extends h') : h'.Knows c a := by
  cases a with
  | thisOf d => exact ha
  | warm w =>
    obtain ⟨creation, hw, hcls⟩ := ha
    exact ⟨creation, ext.creation w creation hw, hcls⟩

theorem Bounded.of_creations (bounded : h.Bounded p c) (same : h'.creations = h.creations) :
    h'.Bounded p c := by
  have hcreation : h'.creation? = h.creation? := by
    funext w
    rw [creation?, creation?, same]
  intro w creation hw
  rw [hcreation] at hw
  have := bounded w creation hw
  rwa [Encloses, ← hcreation] at this

theorem Bounded.warmOf (bounded : h.Bounded p c) {creation : Creation}
    (creates : p.Creates creation.cls creation.ctor creation.args.length)
    (args : ∀ v ∈ creation.args, v = .hot ∨ v = .cold) (encloses : h.Encloses c creation.outer) :
    (h.warmOf creation).2.Bounded p c := by
  have ext := Extends.warmOf h creation
  intro w creation' hw
  rcases Numbering.item?_of_add hw with old | ⟨-, rfl⟩
  · obtain ⟨creates', args', encloses'⟩ := bounded w creation' old
    exact ⟨creates', args', encloses'.mono ext⟩
  · exact ⟨creates, args, encloses.mono ext⟩

theorem knows_warmOf (h : Heap) (creation : Creation) :
    (h.warmOf creation).2.Knows c (.warm (h.warmOf creation).1) :=
  ⟨creation, creation?_warmOf h creation, rfl⟩

/-- Every way of creation is outmost, or the outer instance was created in such a way. -/
theorem Bounded.toList_subset (bounded : h.Bounded p c) :
    h.creations.toList ⊆ p.outmost c ++ (p.outmost c).flatMap fun creation =>
      p.creations (.ref (.warm ⟨creation.cls, h.creations.number creation⟩)) := by
  intro creation hmem
  obtain ⟨i, hi⟩ := Option.isSome_iff_exists.1 ((h.creations.mem_toList_iff creation).1 hmem)
  rw [Numbering.number?_eq_some_iff] at hi
  obtain ⟨creates, args, outer⟩ := bounded ⟨creation.cls, i⟩ creation hi
  have known := Program.mem_creations creates args
  have outmost {v : Value} (hv : creation.outer = v) (h : v ∈ [.hot, .cold, .ref (.thisOf c)]) :
      creation ∈ p.outmost c :=
    List.mem_flatMap.2 ⟨v, h, hv ▸ known⟩
  rw [List.mem_append]
  rcases outer with hv | hv | hv | ⟨w, creation', hv, hw, hcls, outmost'⟩
  · exact .inl (outmost hv (by simp))
  · exact .inl (outmost hv (by simp))
  · exact .inl (outmost hv (by simp))
  · obtain ⟨creates', args', -⟩ := bounded w creation' hw
    have known' : creation' ∈ p.outmost c :=
      List.mem_flatMap.2 ⟨creation'.outer, by simpa [Creation.IsOutmost] using outmost',
        Program.mem_creations creates' args'⟩
    have number : h.creations.number creation' = w.index := by
      rw [Numbering.number, (h.creations.number?_eq_some_iff creation' w.index).2 hw]
      rfl
    refine .inr (List.mem_flatMap.2 ⟨creation', known', ?_⟩)
    rw [number, hcls, ← hv]
    exact known

theorem Bounded.size_le (bounded : h.Bounded p c) : h.creations.size ≤ p.creationLimit c := by
  have := (List.subperm_of_subset h.creations.nodup_toList bounded.toList_subset).length_le
  simp only [Numbering.length_toList, List.length_append, List.length_flatMap,
    Program.length_creations, List.map_const', List.sum_replicate_nat] at this
  exact this

/-- Known addresses are among finitely many. -/
theorem Bounded.mem_addrs (bounded : h.Bounded p c) {a : Addr} (ha : h.Knows c a) :
    a ∈ p.addrs c := by
  cases a with
  | thisOf d =>
    obtain rfl : d = c := ha
    exact List.mem_cons_self
  | warm w =>
    obtain ⟨creation, hw, hcls⟩ := ha
    obtain ⟨creates, args, -⟩ := bounded w creation hw
    have known : { creation with outer := .hot } ∈ p.creations .hot :=
      Program.mem_creations creates args
    refine List.mem_cons_of_mem _ (List.mem_flatMap.2 ⟨_, known, List.mem_map.2 ⟨w.index, ?_, ?_⟩⟩)
    · exact List.mem_range.2 (Nat.lt_of_lt_of_le (Numbering.lt_size_of_item? hw) bounded.size_le)
    · rw [hcls]

end Heap

/-! ## Values that are kept -/

mutual

/-- The closures among the members of a value. -/
def Value.closures : Value → List Value
  | .closure body params frame env => [.closure body params frame env]
  | .oneOf vs => Value.closuresOf vs
  | _ => []

def Value.closuresOf : List Value → List Value
  | [] => []
  | v :: vs => v.closures ++ Value.closuresOf vs

end

theorem Value.mem_closuresOf {v : Value} {vs : List Value} (hv : v ∈ vs) {u : Value}
    (hu : u ∈ v.closures) : u ∈ closuresOf vs := by
  induction vs with
  | nil => cases hv
  | cons w vs ih =>
    rcases List.mem_cons.1 hv with rfl | hv
    · exact List.mem_append_left _ hu
    · exact List.mem_append_right _ (ih hv)

/-- Fewer elements pass a stricter test that one of them fails. -/
theorem countP_lt_of_mem {α : Type} {xs : List α} {f g : α → Bool} (h : ∀ x ∈ xs, f x → g x)
    {x : α} (hx : x ∈ xs) (hf : f x = false) (hg : g x = true) : xs.countP f < xs.countP g := by
  obtain ⟨front, back, rfl⟩ := List.append_of_mem hx
  have hfront := List.countP_mono_left fun y hy => h y (List.mem_append_left _ hy)
  have hback := List.countP_mono_left fun y hy =>
    h y (List.mem_append_right _ (List.mem_cons_of_mem x hy))
  simp only [List.countP_append, List.countP_cons, hf, hg]
  simp only [Bool.false_eq_true, if_false, if_true]
  omega

namespace Memory

/-- The evaluations in the analysis of a class whose values are not known. -/
def room (p : Program) (c : ClassId) (m : Memory) : Nat :=
  (p.slots c).countP fun key => (m.cache.find? key.receiver key.expr).isNone

/-- The closures in the values that are known. -/
def kept (p : Program) (c : ClassId) (m : Memory) : List Value :=
  (p.slots c).flatMap fun key => ((m.cache.find? key.receiver key.expr).getD .hot).closures

variable {m m' : Memory}

theorem mem_kept {a : Addr} {e : ExprId} {v u : Value} (ha : a ∈ p.addrs c)
    (he : e.index < p.exprs.size) (hv : m.cache.find? a e = some v) (hu : u ∈ v.closures) :
    u ∈ m.kept p c := by
  refine List.mem_flatMap.2 ⟨⟨a, e⟩, Program.mem_slots ha he, ?_⟩
  rwa [hv]

theorem kept_subset (h : ∀ a e u, u ∈ ((m.cache.find? a e).getD .hot).closures →
    u ∈ ((m'.cache.find? a e).getD .hot).closures) : m.kept p c ⊆ m'.kept p c := by
  intro u hu
  obtain ⟨key, hkey, hu⟩ := List.mem_flatMap.1 hu
  exact List.mem_flatMap.2 ⟨key, hkey, h _ _ u hu⟩

theorem Extends.kept_subset (ext : m.Extends m') : m.kept p c ⊆ m'.kept p c := by
  refine Memory.kept_subset fun a e u hu => ?_
  cases hv : m.cache.find? a e with
  | none =>
    rw [hv] at hu
    cases hu
  | some v =>
    rw [ext.cached a e v hv]
    rwa [hv] at hu

theorem Extends.isNone (ext : m.Extends m') {a : Addr} {e : ExprId}
    (h : (m'.cache.find? a e).isNone) : (m.cache.find? a e).isNone := by
  cases hv : m.cache.find? a e with
  | none => rfl
  | some v =>
    rw [ext.cached a e v hv] at h
    cases h

theorem Extends.room_le (ext : m.Extends m') : m'.room p c ≤ m.room p c :=
  List.countP_mono_left fun _ _ h => ext.isNone h

/-- What became known takes some of the room. -/
theorem Extends.room_lt (ext : m.Extends m') {a : Addr} {e : ExprId} (ha : a ∈ p.addrs c)
    (he : e.index < p.exprs.size) (before : m.cache.find? a e = none)
    (after : (m'.cache.find? a e).isSome) : m'.room p c < m.room p c := by
  refine countP_lt_of_mem (fun _ _ h => ext.isNone h) (Program.mem_slots ha he) ?_ ?_
  · simpa [Option.isSome_iff_ne_none] using after
  · rw [before]
    rfl

/-- Where the room stays the same, nothing became known. -/
theorem Extends.kept_eq (ext : m.Extends m') (room : m.room p c ≤ m'.room p c) :
    m'.kept p c = m.kept p c := by
  refine List.flatMap_congr fun key hkey => ?_
  obtain ⟨a, ha, hrange⟩ := List.mem_flatMap.1 hkey
  obtain ⟨i, hi, rfl⟩ := List.mem_map.1 hrange
  cases hv : m.cache.find? a ⟨i⟩ with
  | some v => rw [ext.cached a ⟨i⟩ v hv]
  | none =>
    cases hv' : m'.cache.find? a ⟨i⟩ with
    | none => rfl
    | some v =>
      have := ext.room_lt ha (List.mem_range.1 hi) hv (by rw [hv']; rfl)
      omega

end Memory

/-! ## The regime -/

namespace Regime

/-- All code may run. A closure either is kept or comes from the evaluation of a larger
    expression. -/
def unbounded (p : Program) (c : ClassId) : Regime p where
  rel _ _ := True
  inv _ := True
  addr m a := m.heap.Knows c a
  fresh m B v := v ∈ m.kept p c ∨
    ∃ body params frame env, v = .closure body params frame env ∧ body.index < B
  bound e := match (p.expr e).node with
    | .valDef _ => 0
    | _ => e.index
  code _ _ _ := True
  body _ _ _ := True
  member _ := True
  ctor _ _ _ := True
  created := p.Creates

/-- The memory refers to known objects, and all closures in it are kept. No outer instance is
    recorded for the root package. -/
structure Bounds (p : Program) (c : ClassId) (m : Memory) : Prop where
  holds : (unbounded p c).Holds m
  root : ∀ a d v, m.heap.outer? a d = some v → d ≠ .root
  creations : m.heap.Bounded p c

/-- All code may run, and the memory stays within the bounds. -/
def bounded (p : Program) (c : ClassId) : Regime p := { unbounded p c with inv := Bounds p c }

variable {m m' : Memory} {B : Nat} {v : Value}

theorem fits_bounded : (bounded p c).Fits m B v ↔ (unbounded p c).Fits m B v :=
  ⟨fun h => h.imp (fun _ => id) (fun _ _ => id) fun _ _ => id,
    fun h => h.imp (fun _ => id) (fun _ _ => id) fun _ _ => id⟩

theorem Fits.later (h : (unbounded p c).Fits m B v) (heap : m.heap.Extends m'.heap)
    (kept : m.kept p c ⊆ m'.kept p c) : (unbounded p c).Fits m' B v := by
  refine h.imp (fun a ha => ha.mono heap) (fun _ _ => id) fun B v hv => ?_
  exact hv.imp_left fun hv => kept hv

/-- A value fits anywhere if its closures are kept. -/
theorem Fits.keep (h : (unbounded p c).Fits m B v) (kept : ∀ u ∈ v.closures, u ∈ m.kept p c) :
    (unbounded p c).Fits m 0 v := by
  induction h with
  | hot => exact .hot
  | cold => exact .cold
  | ref addr => exact .ref addr
  | closure receiver code _ captured _ =>
    exact .closure receiver code (.inl (kept _ (by simp [Value.closures]))) captured
  | oneOf _ ih =>
    exact .oneOf fun v hv => ih v hv fun u hu => kept u (Value.mem_closuresOf hv hu)

/-- An outer instance that may be remembered is not inside of two warm objects. -/
theorem Remembers.encloses {R : Regime p} (remembers : R.Remembers m v)
    (creations : m.heap.Bounded p c) (known : ∀ a, R.addr m a → m.heap.Knows c a) :
    m.heap.Encloses c v := by
  rcases remembers with h | h | ⟨a, h, ha, outmost⟩
  · exact .inl h
  · exact .inr (.inl h)
  · have known := known a ha
    cases a with
    | thisOf d =>
      obtain rfl : d = c := known
      exact .inr (.inr (.inl h))
    | warm w =>
      obtain ⟨creation, hw, hcls⟩ := known
      refine .inr (.inr (.inr ⟨w, creation, h, hw, hcls, ?_⟩))
      rcases (creations w creation hw).2.2 with h' | h' | h' | ⟨w', -, h', -⟩
      · exact .inl h'
      · exact .inr (.inl h')
      · exact .inr (.inr h')
      · exact absurd h' (outmost w creation w' rfl hw)

/-! ## Memories within the bounds -/

theorem Bounds.enter (bounds : Bounds p c m) {a : Addr} {e : ExprId}
    (miss : m.cache.find? a e = none) : Bounds p c (m.enter a e) where
  holds := bounds.holds.enter fun _ hv => hv.later (.refl _) (Memory.extends_enter miss).kept_subset
  root := bounds.root
  creations := bounds.creations

/-- The placeholder of an evaluation contains no closure. -/
theorem kept_leave {a : Addr} {e : ExprId} (inside : (m.enter a e).Extends m') (final : Bool)
    (v : Value) : m'.kept p c ⊆ (m'.leave a e final v).kept p c := by
  refine Memory.kept_subset fun b g u hu => ?_
  by_cases same : b = a ∧ g = e
  · obtain ⟨rfl, rfl⟩ := same
    have placeholder : m'.cache.find? b g = some .hot :=
      inside.cached b g .hot (by rw [Memory.find?_enter, if_pos ⟨rfl, rfl⟩])
    rw [placeholder] at hu
    cases hu
  · rwa [Memory.find?_leave_of_ne same]

theorem Bounds.leave (bounds : Bounds p c m') {a : Addr} {e : ExprId}
    (inside : (m.enter a e).Extends m') (ha : m'.heap.Knows c a) {final : Bool}
    (hv : (unbounded p c).Fits m' B v) (he : e.index < p.exprs.size ∨ v = .hot) :
    Bounds p c (m'.leave a e final v) ∧
      (unbounded p c).Fits (m'.leave a e final v) (if final then 0 else B) v := by
  have kept := kept_leave (p := p) (c := c) inside final v
  have later : (unbounded p c).Fits (m'.leave a e final v) B v := hv.later (.refl _) kept
  -- A final value is in the cache now.
  have whenFinal : final = true → (unbounded p c).Fits (m'.leave a e final v) 0 v := by
    intro hfinal
    refine later.keep fun u hu => ?_
    rcases he with he | rfl
    · refine Memory.mem_kept (bounds.creations.mem_addrs ha) he ?_ hu
      rw [Memory.find?_leave_self, hfinal, if_pos rfl]
    · cases hu
  refine ⟨⟨bounds.holds.leave (fun _ hu => hu.later (.refl _) kept) whenFinal, bounds.root,
    bounds.creations⟩, ?_⟩
  cases final with
  | true => exact whenFinal rfl
  | false => exact later

/-- Objects are created within the bounds. -/
theorem Bounds.warmOf (bounds : Bounds p c m) {creation : Creation}
    (creates : p.Creates creation.cls creation.ctor creation.args.length)
    (args : ∀ v ∈ creation.args, v = .hot ∨ v = .cold)
    (remembers : (bounded p c).Remembers m creation.outer) :
    Bounds p c { m with heap := (m.heap.warmOf creation).2 } ∧
      (m.heap.warmOf creation).2.Knows c (.warm (m.heap.warmOf creation).1) := by
  have ext := Heap.Extends.warmOf m.heap creation
  have encloses := remembers.encloses bounds.creations fun _ => id
  exact ⟨⟨bounds.holds.warmOf fun _ hv => hv.later ext fun _ hu => hu, bounds.root,
    bounds.creations.warmOf creates args encloses⟩, m.heap.knows_warmOf creation⟩

theorem Bounds.allocate (bounds : Bounds p c m) {a : Addr} {d e : ClassId} {h : Heap}
    (hd : d ≠ .root) (hv : (unbounded p c).Fits m 0 v)
    (ok : m.heap.allocate a (.new e [(d, v)]) = .ok h) : Bounds p c { m with heap := h } where
  holds := bounds.holds.allocate (fun _ hu => hu.later (.of_allocate ok) fun _ hu => hu) hv ok
  root b g u hu := by
    have hu : h.outer? b g = some u := hu
    rw [Heap.outer?_of_allocate ok] at hu
    split at hu
    · next same => exact same.2 ▸ hd
    · exact bounds.root b g u hu
  creations := bounds.creations.of_creations (Heap.creations_of_allocate ok)

theorem Bounds.setField (bounds : Bounds p c m) {a : Addr} {f : SymbolId} {h : Heap}
    (hv : (unbounded p c).Fits m 0 v) (ok : m.heap.setField a f v = .ok h) :
    Bounds p c { m with heap := h } where
  holds := bounds.holds.setField (fun _ hu => hu.later (.of_setField ok) fun _ hu => hu) hv ok
  root b d u hu := bounds.root b d u (by rwa [← Heap.outer?_of_setField ok])
  creations := bounds.creations.of_creations (Heap.creations_of_setField ok)

theorem Bounds.setOuter (bounds : Bounds p c m) {a : Addr} {d : ClassId} {h : Heap}
    (hd : d ≠ .root) (hv : (unbounded p c).Fits m 0 v) (ok : m.heap.setOuter a d v = .ok h) :
    Bounds p c { m with heap := h } where
  holds := bounds.holds.setOuter (fun _ hu => hu.later (.of_setOuter ok) fun _ hu => hu) hv ok
  root b e u hu := by
    have hu : h.outer? b e = some u := hu
    rw [Heap.outer?_of_setOuter ok] at hu
    split at hu
    · next same => exact same.2 ▸ hd
    · exact bounds.root b e u hu
  creations := bounds.creations.of_creations (Heap.creations_of_setOuter ok)

theorem fits_encloses (encloses : m.heap.Encloses c v) : (unbounded p c).Fits m B v := by
  rcases encloses with rfl | rfl | rfl | ⟨w, creation, rfl, hw, hcls, -⟩
  · exact .hot
  · exact .cold
  · exact .ref (a := .thisOf c) rfl
  · exact .ref (a := .warm w) ⟨creation, hw, hcls⟩

theorem bound_le_index (e : ExprId) : (bounded p c).bound e ≤ e.index := by
  change (match (p.expr e).node with | .valDef _ => 0 | _ => e.index) ≤ e.index
  split
  · exact Nat.zero_le _
  · exact Nat.le_refl _

/-- The analysis of a class stays within the bounds. -/
theorem bounded_lawful (inOrder : ∀ e, Program.ScopedExpr e (p.expr e).node)
    (noSource : (p.cls .root).hasSource = false) : (bounded p c).Lawful := by
  have index_lt {e e' : ExprId} (h : e' ∈ (p.expr e).node.children) : e'.index < e.index :=
    inOrder e e' h
  have bound_of_child {e e' : ExprId} (h : e' ∈ (p.expr e).node.children) :
      (bounded p c).bound e = e.index := by
    change (match (p.expr e).node with | .valDef _ => 0 | _ => e.index) = e.index
    split
    · next hnode =>
      rw [hnode] at h
      cases h
    · rfl
  exact {
    refl := fun _ => trivial
    trans := fun _ _ _ _ _ => trivial
    addr_mono := fun m m' a ext _ ha => ha.mono ext.heap
    fresh_mono := fun m m' B v ext _ hv => hv.imp_left fun hv => ext.kept_subset hv
    code_mono := fun _ _ _ _ _ _ h => h
    body_mono := fun _ _ _ _ _ _ h => h
    ctor_mono := fun _ _ _ _ _ _ h => h
    fresh_le := fun m B B' v hB hv => hv.imp_right fun ⟨b, ps, fr, env, h, hlt⟩ =>
      ⟨b, ps, fr, env, h, Nat.lt_of_lt_of_le hlt hB⟩
    body_of_code := fun _ _ _ _ => trivial
    parts := fun _ _ _ _ _ _ => trivial
    bound_le := fun e e' h => by
      rw [bound_of_child h]
      exact Nat.le_trans (bound_le_index e') (Nat.le_of_lt (index_lt h))
    captured := fun m e e' h params frame env => by
      rw [bound_of_child h]
      exact .inr ⟨e', params, frame, env, rfl, index_lt h⟩
    bound_valDef := fun e x hnode => by
      change (match (p.expr e).node with | .valDef _ => 0 | _ => e.index) = 0
      rw [hnode]
    valDef := fun _ _ _ _ _ _ _ _ => trivial
    names := fun _ _ _ _ _ _ => trivial
    method := fun _ _ _ _ _ _ _ _ _ => trivial
    delegate := fun _ _ _ _ _ _ _ _ _ _ _ _ _ _ _ _ => trivial
    new := fun _ e _ type x args _ hnode => ⟨e, type, args, hnode, rfl, rfl⟩
    virtual := fun _ _ _ => trivial
    super := fun _ _ _ _ => trivial
    tried := fun _ _ _ => trivial
    memberBody := fun _ _ _ _ _ _ _ _ _ => trivial
    ctorBody := fun _ _ _ _ _ _ _ _ => trivial
    cached := fun m a e v inv hv => fits_bounded.2 (inv.holds.cached a e v hv)
    field := fun m a f v inv hv => fits_bounded.2 (inv.holds.field a f v hv)
    outer := fun m a d v inv hv => fits_bounded.2 (inv.holds.outer a d v hv)
    creation := fun m w inv ⟨creation, hw, hcls⟩ =>
      ⟨creation, hw, fits_bounded.2 (fits_encloses (inv.creations w creation hw).2.2)⟩
    enter := fun m e frame inv _ _ miss => ⟨trivial, inv.enter miss⟩
    leave := fun m m' e frame final B v inv ha _ _ miss inside _ inv' hv he _ => by
      have known := ha.mono ((Memory.extends_enter miss).trans inside).heap
      obtain ⟨bounds, fits⟩ := inv'.leave inside known (fits_bounded.1 hv) he
      exact ⟨trivial, bounds, fits_bounded.2 fits⟩
    birth := fun m d outer ctor args inv created source remembers hargs => by
      let creation : Creation := ⟨d, outer, ctor, args⟩
      obtain ⟨bounds, known⟩ :=
        inv.warmOf (show p.Creates creation.cls creation.ctor creation.args.length from created)
          hargs remembers
      refine ⟨fun _ => ⟨trivial, bounds, known⟩, fun h ok => ?_⟩
      have notRoot : d ≠ .root := by
        rintro rfl
        rw [noSource] at source
        cases source
      have ext := Heap.Extends.warmOf m.heap ⟨d, outer, ctor, args⟩
      have fits : (unbounded p c).Fits m 0 outer := fits_bounded.1 (Remembers.fits remembers)
      refine ⟨trivial, bounds.allocate notRoot (fits.later ext fun _ hu => hu) ok,
        known.mono (.of_allocate ok), trivial⟩ }

end Regime

end ObjectInit
