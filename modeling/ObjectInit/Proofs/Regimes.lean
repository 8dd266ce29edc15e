import ObjectInit.Proofs.Contracts
import ObjectInit.Proofs.Environments
import ObjectInit.Proofs.Scoped

/-!
# Regimes

A regime says what holds of the heap and the cache throughout an analysis: which addresses are
known, which code may run in which frame, and what a question may change. From these it follows
which values there are (`Regime.Fits`): their addresses are known and the bodies of their closures
may run. A regime is lawful (`Regime.Lawful`) if single steps of the analysis respect it; the plans
of all questions then do so as well.

Main results:

* `Regime.Fits.join`, `Regime.Fits.mono`: which values fit.
* `Regime.Carries.bind`, `Regime.Carries.ask`: how plans that respect a regime are put together.
-/

namespace ObjectInit

/-! ## Memories -/

/-- What outlasts a question: the heap and the values of evaluated expressions. -/
structure Memory where
  heap : Heap
  cache : Cache

def Store.memory (s : Store) : Memory := ⟨s.heap, s.cache⟩

namespace Memory

/-- The memory while an expression is evaluated. -/
def enter (m : Memory) (a : Addr) (e : ExprId) : Memory :=
  { m with cache := m.cache.insert a e .hot }

/-- The memory after an expression was evaluated. -/
def leave (m : Memory) (a : Addr) (e : ExprId) (final : Bool) (v : Value) : Memory :=
  { m with cache := if final then m.cache.insert a e v else m.cache.erase a e }

/-- Nothing is taken back between the two memories. -/
structure Extends (m m' : Memory) : Prop where
  heap : m.heap.Extends m'.heap
  cached : ∀ a e v, m.cache.find? a e = some v → m'.cache.find? a e = some v

variable {m m' m'' : Memory} {a : Addr} {e : ExprId}

theorem Extends.refl (m : Memory) : m.Extends m := ⟨.refl _, fun _ _ _ h => h⟩

theorem Extends.trans (h : m.Extends m') (h' : m'.Extends m'') : m.Extends m'' :=
  ⟨h.heap.trans h'.heap, fun a e v hv => h'.cached a e v (h.cached a e v hv)⟩

theorem extends_enter (miss : m.cache.find? a e = none) : m.Extends (m.enter a e) := by
  refine ⟨.refl _, fun b g v hv => ?_⟩
  rw [enter, Cache.find?_insert, if_neg]
  · exact hv
  · rintro ⟨rfl, rfl⟩
    rw [miss] at hv
    cases hv

/-- After the evaluation, all other expressions have the values that they had inside. -/
theorem find?_leave_of_ne {final : Bool} {v : Value} {b : Addr} {g : ExprId}
    (h : ¬(b = a ∧ g = e)) : (m.leave a e final v).cache.find? b g = m.cache.find? b g := by
  rw [leave]
  split
  · rw [Cache.find?_insert, if_neg h]
  · rw [Cache.find?_erase, if_neg h]

theorem find?_leave_self {final : Bool} {v : Value} :
    (m.leave a e final v).cache.find? a e = if final then some v else none := by
  rw [leave]
  split
  · rw [Cache.find?_insert, if_pos ⟨rfl, rfl⟩]
  · rw [Cache.find?_erase, if_pos ⟨rfl, rfl⟩]

theorem find?_enter {b : Addr} {g : ExprId} :
    (m.enter a e).cache.find? b g = if b = a ∧ g = e then some .hot else m.cache.find? b g :=
  Cache.find?_insert ..

theorem extends_leave (miss : m.cache.find? a e = none) (inside : (m.enter a e).Extends m')
    (final : Bool) (v : Value) : m.Extends (m'.leave a e final v) := by
  refine ⟨inside.heap, fun b g w hw => ?_⟩
  have other : ¬(b = a ∧ g = e) := by
    rintro ⟨rfl, rfl⟩
    rw [miss] at hw
    cases hw
  rw [find?_leave_of_ne other]
  refine inside.cached b g w ?_
  rw [find?_enter, if_neg other, hw]

end Memory

theorem Store.Keeps.memory {p : Program} {s t : Store} (h : s.Keeps p t) :
    s.memory.Extends t.memory :=
  ⟨h.heap, h.cached⟩

/-! ## Regimes -/

/-- The symbols that the evaluation of an expression itself reads or calls, apart from what is
    called on the value of an expression. -/
def Node.names : Node → List SymbolId
  | .ident s path => s :: path.symbols
  | .select _ s => [s]
  | .call (.super _ _ method) _ => [method]
  | .call (.ident method path) _ => method :: path.symbols
  | .new type _ _ => type.path.symbols
  | _ => []

/-- The second question is the first one about a part of its value, or about a value that this value
    captured. -/
inductive Query.Part (p : Program) (s : Store) : {γ β : Type} → Query γ → Query β → Prop
  | select {vs : List Value} {v : Value} (h : v ∈ vs) (f : SymbolId) (source : Span)
    (virtual : Bool) : Part p s (.select (.oneOf vs) f source virtual) (.select v f source virtual)
  | call {vs : List Value} {v : Value} (h : v ∈ vs) (f : SymbolId) (args : List ArgValue)
    (dispatch : Dispatch) (source : Span) :
    Part p s (.call (.oneOf vs) f args dispatch source) (.call v f args dispatch source)
  | create {vs : List Value} {v : Value} (h : v ∈ vs) (c : ClassId) (f : SymbolId)
    (args : List ArgValue) (source : Span) :
    Part p s (.create (.oneOf vs) c f args source) (.create v c f args source)
  | promote {vs : List Value} {v : Value} (h : v ∈ vs) (reason : String) (source : Span) :
    Part p s (.promote (.oneOf vs) reason source) (.promote v reason source)
  | isPromotable {vs : List Value} {v : Value} (h : v ∈ vs) :
    Part p s (.isPromotable (.oneOf vs)) (.isPromotable v)
  | outer {w : Warm} {creation : Creation} (h : s.heap.creation? w = some creation) :
    Part p s (.isPromotable (.ref (.warm w))) (.isPromotable creation.outer)
  | receiver (body : ExprId) (params : List SymbolId) (frame : Frame) (env : Env) :
    Part p s (.isPromotable (.closure body params frame env)) (.isPromotable (.ref frame.receiver))
  | enclosing {vs : List Value} {v : Value} (h : v ∈ vs) (target c : ClassId) (source : Span) :
    Part p s (.enclosingInstance target (.oneOf vs) c source) (.enclosingInstance target v c source)
  | around {a : Addr} {c : ClassId} {v : Value} (h : s.heap.outer? a c = some v) (target : ClassId)
    (source : Span) : Part p s (.enclosingInstance target (.ref a) c source)
      (.enclosingInstance target v (p.classAround c) source)

/-- Questions of a smaller kind may be asked on the way to the answer of one of a larger kind. -/
def Query.kind {β : Type} : Query β → Nat
  | .isPromotable _ => 0
  | .enclosingInstance .. => 1
  | .eval .. => 2
  | .promote .. => 3
  | .select .. => 4
  | .outerInstance .. => 5
  | .call .. => 6
  | .construct .. => 7
  | .create .. => 8
  | .body .. => 9
  | .template .. => 10
  | .check _ => 11

/-- The body of the member may run on the object: an object under construction evaluates the bodies
    of methods and lazy fields only, since its other fields are read from the heap. -/
def Program.RunsOn (p : Program) (x : SymbolId) (a : Addr) : Prop :=
  ∀ d, a = .thisOf d → (p.symbol x).isMethod = true ∨ (p.symbol x).isLazy = true

structure Regime (p : Program) where
  /-- A question may change the memory in this way. -/
  rel : Memory → Memory → Prop
  inv : Memory → Prop
  /-- The object may be referred to. -/
  addr : Memory → Addr → Prop
  /-- The closure may occur where bodies of new closures are below the bound. -/
  fresh : Memory → Nat → Value → Prop
  /-- A bound for the closures that the evaluation of the expression captures. -/
  bound : ExprId → Nat
  /-- The expression may be evaluated in the frame, for a value that is not kept. -/
  code : Memory → ExprId → Frame → Prop
  /-- The expression may be evaluated in the frame, for a value that is kept. -/
  body : Memory → ExprId → Frame → Prop
  /-- The symbol may be read or called. -/
  member : SymbolId → Prop
  /-- The constructor may be called on the object. -/
  ctor : Memory → Addr → SymbolId → Prop
  /-- Objects of the class may be created by the constructor with this number of arguments. -/
  created : ClassId → SymbolId → Nat → Prop

namespace Regime

variable {p : Program}

/-- The value may occur where bodies of new closures are below the bound. -/
inductive Fits (R : Regime p) (m : Memory) : Nat → Value → Prop
  | hot {B : Nat} : Fits R m B .hot
  | cold {B : Nat} : Fits R m B .cold
  | ref {B : Nat} {a : Addr} (addr : R.addr m a) : Fits R m B (.ref a)
  | closure {B : Nat} {body : ExprId} {params : List SymbolId} {frame : Frame} {env : Env}
    (receiver : R.addr m frame.receiver) (code : R.code m body frame)
    (fresh : R.fresh m B (.closure body params frame env))
    (captured : ∀ x v, env.lookup x = some v → Fits R m 0 v) :
    Fits R m B (.closure body params frame env)
  | oneOf {B : Nat} {vs : List Value} (members : ∀ v ∈ vs, Fits R m B v) : Fits R m B (.oneOf vs)

/-- All values of the environment may occur. -/
def FitsEnv (R : Regime p) (m : Memory) (env : Env) : Prop :=
  ∀ x v, env.lookup x = some v → R.Fits m 0 v

/-- The outer instance that an object may remember is not itself inside of a warm object. -/
def Remembers (R : Regime p) (m : Memory) (v : Value) : Prop :=
  v = .hot ∨ v = .cold ∨ ∃ a, v = .ref a ∧ R.addr m a ∧
    ∀ w creation w', a = .warm w → m.heap.creation? w = some creation →
      creation.outer ≠ .ref (.warm w')

/-- Between the two stores nothing is taken back, and the memory changes as the regime permits. -/
structure Step (R : Regime p) (s t : Store) : Prop where
  memory : s.memory.Extends t.memory
  trusted : ∀ v, s.trusted.contains v → t.trusted.contains v
  rel : R.rel s.memory t.memory
  inv : R.inv t.memory

/-- Single steps of the analysis respect the regime. -/
structure Lawful (R : Regime p) : Prop where
  refl : ∀ m, R.rel m m
  trans : ∀ m m' m'', R.rel m m' → R.rel m' m'' → R.rel m m''
  /-- What may occur in a memory may do so later. -/
  addr_mono : ∀ m m' a, m.Extends m' → R.rel m m' → R.addr m a → R.addr m' a
  fresh_mono : ∀ m m' B v, m.Extends m' → R.rel m m' → R.fresh m B v → R.fresh m' B v
  code_mono : ∀ m m' e frame, m.Extends m' → R.rel m m' → R.code m e frame → R.code m' e frame
  body_mono : ∀ m m' e frame, m.Extends m' → R.rel m m' → R.body m e frame → R.body m' e frame
  ctor_mono : ∀ m m' a f, m.Extends m' → R.rel m m' → R.ctor m a f → R.ctor m' a f
  fresh_le : ∀ m B B' v, B ≤ B' → R.fresh m B v → R.fresh m B' v
  /-- The parts of an expression run in its frame. -/
  body_of_code : ∀ m e frame, R.code m e frame → R.body m e frame
  parts : ∀ m e frame, R.body m e frame → ∀ e' ∈ (p.expr e).node.children, R.code m e' frame
  bound_le : ∀ e, ∀ e' ∈ (p.expr e).node.children, R.bound e' ≤ R.bound e
  captured : ∀ m e, ∀ e' ∈ (p.expr e).node.children, ∀ params frame env,
    R.fresh m (R.bound e) (.closure e' params frame env)
  /-- The value of a local definition is kept. -/
  bound_valDef : ∀ e s, (p.expr e).node = .valDef s → R.bound e = 0
  valDef : ∀ m e frame s e', R.body m e frame → (p.expr e).node = .valDef s →
    (p.symbol s).body = some e' → R.body m e' frame
  /-- The members that an expression names may be read and called. -/
  names : ∀ m e frame, R.body m e frame → ∀ x ∈ (p.expr e).node.names, R.member x
  method : ∀ m e frame qualifier x args, R.body m e frame →
    (p.expr e).node = .call (.select qualifier x) args → (p.symbol x).isConstructor = false →
      R.member x
  delegate : ∀ (s t : Store) e frame qualifier x args o, R.body s.memory e frame →
    (p.expr e).node = .call (.select qualifier x) args → (p.symbol x).isConstructor = true →
      R.inv s.memory → (Query.eval qualifier frame false).Answered p s o t → R.Step s t →
        ∀ a, o.value = .ref a → R.ctor t.memory a x
  new : ∀ m e frame type x args, R.body m e frame → (p.expr e).node = .new type x args →
    R.created type.cls x args.length
  virtual : ∀ c x, R.member x → R.member (p.virtualTarget c x)
  super : ∀ c base x, R.member x → R.member (p.superTarget c base x)
  tried : ∀ c, ∀ x ∈ p.triedMembers c, R.member x
  memberBody : ∀ m a x e, R.inv m → R.addr m a → R.member x → p.RunsOn x a →
    (p.symbol x).body = some e → R.body m e ⟨a, p.homeClass x⟩
  ctorBody : ∀ m a x e, R.inv m → R.addr m a → R.ctor m a x → (p.symbol x).body = some e →
    R.body m e ⟨a, p.homeClass x⟩
  /-- What is kept may occur. -/
  cached : ∀ m a e v, R.inv m → m.cache.find? a e = some v → R.Fits m 0 v
  field : ∀ m a f v, R.inv m → m.heap.field? a f = some v → R.Fits m 0 v
  outer : ∀ m a c v, R.inv m → m.heap.outer? a c = some v → R.Fits m 0 v
  creation : ∀ m w, R.inv m → R.addr m (.warm w) →
    ∃ creation, m.heap.creation? w = some creation ∧ R.Fits m 0 creation.outer
  enter : ∀ m e frame, R.inv m → R.addr m frame.receiver → R.body m e frame →
    m.cache.find? frame.receiver e = none →
      R.rel m (m.enter frame.receiver e) ∧ R.inv (m.enter frame.receiver e)
  leave : ∀ m m' e frame final B v, R.inv m → R.addr m frame.receiver →
    R.body m e frame → (final = false → R.code m e frame) →
    m.cache.find? frame.receiver e = none → (m.enter frame.receiver e).Extends m' →
    R.rel (m.enter frame.receiver e) m' → R.inv m' → R.Fits m' B v →
    (e.index < p.exprs.size ∨ v = .hot) →
    ((p.expr e).node = .thisOf frame.cls → v = .ref frame.receiver) →
      R.rel m (m'.leave frame.receiver e final v) ∧ R.inv (m'.leave frame.receiver e final v) ∧
        R.Fits (m'.leave frame.receiver e final v) (if final then 0 else B) v
  /-- An object that is created may be referred to. -/
  birth : ∀ m c outer ctor args, R.inv m → R.created c ctor args.length →
    (p.cls c).hasSource = true → R.Remembers m outer → (∀ v ∈ args, v = .hot ∨ v = .cold) →
    let r := m.heap.warmOf ⟨c, outer, ctor, args⟩
    (r.2.contains (.warm r.1) = true → R.rel m { m with heap := r.2 } ∧
      R.inv { m with heap := r.2 } ∧ R.addr { m with heap := r.2 } (.warm r.1)) ∧
    ∀ h, r.2.allocate (.warm r.1) (.new c [(c, outer)]) = .ok h → R.rel m { m with heap := h } ∧
      R.inv { m with heap := h } ∧ R.addr { m with heap := h } (.warm r.1) ∧
      R.ctor { m with heap := h } (.warm r.1) ctor

variable {R : Regime p} {m m' : Memory} {B B' : Nat} {v w : Value} {vs : List Value}

/-! ## Values that fit -/

theorem Fits.of_ref {a : Addr} (h : R.Fits m B (.ref a)) : R.addr m a := by
  cases h with
  | ref addr => exact addr

theorem Fits.of_oneOf (h : R.Fits m B (.oneOf vs)) : ∀ v ∈ vs, R.Fits m B v := by
  cases h with
  | oneOf members => exact members

theorem Fits.le (lawful : R.Lawful) (h : R.Fits m B v) (hB : B ≤ B') : R.Fits m B' v := by
  induction h with
  | hot => exact .hot
  | cold => exact .cold
  | ref addr => exact .ref addr
  | closure receiver code fresh captured _ =>
    exact .closure receiver code (lawful.fresh_le m _ _ _ hB fresh) captured
  | oneOf _ ih => exact .oneOf fun v hv => ih v hv hB

theorem Fits.of_zero (lawful : R.Lawful) (h : R.Fits m 0 v) : R.Fits m B v :=
  h.le lawful (Nat.zero_le B)

/-- What fits in one regime fits in another one with more addresses, code and closures. -/
theorem Fits.imp {R' : Regime p} (h : R.Fits m B v) (addr : ∀ a, R.addr m a → R'.addr m' a)
    (code : ∀ e frame, R.code m e frame → R'.code m' e frame)
    (fresh : ∀ B v, R.fresh m B v → R'.fresh m' B v) : R'.Fits m' B v := by
  induction h with
  | hot => exact .hot
  | cold => exact .cold
  | ref ha => exact .ref (addr _ ha)
  | closure receiver hcode hfresh _ ih =>
    exact .closure (addr _ receiver) (code _ _ hcode) (fresh _ _ hfresh) ih
  | oneOf _ ih => exact .oneOf ih

theorem Fits.mono (lawful : R.Lawful) (h : R.Fits m B v) (ext : m.Extends m') (rel : R.rel m m') :
    R.Fits m' B v :=
  h.imp (fun a => lawful.addr_mono m m' a ext rel)
    (fun e frame => lawful.code_mono m m' e frame ext rel)
    fun B v => lawful.fresh_mono m m' B v ext rel

/-- The join of two values is made of their members. -/
theorem Fits.join (hv : R.Fits m B v) (hw : R.Fits m B w) : R.Fits m B (v.join w) :=
  Value.join_induction .cold (fun _ => ⟨Fits.of_oneOf, .oneOf⟩) hv hw

theorem Fits.joinAll (h : ∀ v ∈ vs, R.Fits m B v) : R.Fits m B (Value.joinAll vs) :=
  Value.joinAll_induction .hot (fun _ _ => .join) h

theorem Fits.of_hot_or_cold (h : v = .hot ∨ v = .cold) : R.Fits m B v := by
  rcases h with rfl | rfl
  · exact .hot
  · exact .cold

theorem Remembers.fits (h : R.Remembers m v) : R.Fits m B v := by
  rcases h with rfl | rfl | ⟨a, rfl, addr, -⟩
  · exact .hot
  · exact .cold
  · exact .ref addr

end Regime

namespace Regime

variable {p : Program} {R : Regime p} {m m' : Memory} {env : Env}

/-! ## Environments that fit -/

theorem FitsEnv.empty : R.FitsEnv m .empty := nofun

theorem FitsEnv.mono (lawful : R.Lawful) (h : R.FitsEnv m env) (ext : m.Extends m')
    (rel : R.rel m m') : R.FitsEnv m' env :=
  fun x v hv => (h x v hv).mono lawful ext rel

theorem FitsEnv.extend (h : R.FitsEnv m env) {bindings : List (SymbolId × Value)}
    (hb : ∀ b ∈ bindings, R.Fits m 0 b.2) : R.FitsEnv m (env.extend bindings) :=
  Env.Binds.extend h hb

theorem FitsEnv.ofList {bindings : List (SymbolId × Value)}
    (hb : ∀ b ∈ bindings, R.Fits m 0 b.2) : R.FitsEnv m (.ofList bindings) :=
  FitsEnv.empty.extend hb

/-- Parameters that are bound to hot values. -/
theorem fits_hotParams {params : List SymbolId} :
    ∀ b ∈ params.map fun x => (x, Value.hot), R.Fits m 0 b.2 :=
  Env.of_hotParams .hot

theorem fits_widenedBindings {params : List SymbolId} {args : List ArgValue} :
    ∀ b ∈ Plan.widenedBindings params args, R.Fits m 0 b.2 :=
  Env.of_widenedBindings .hot .cold

/-! ## Memories that hold fitting values -/

/-- All values in the memory may occur. -/
structure Holds (R : Regime p) (m : Memory) : Prop where
  cached : ∀ a e v, m.cache.find? a e = some v → R.Fits m 0 v
  field : ∀ a f v, m.heap.field? a f = some v → R.Fits m 0 v
  outer : ∀ a d v, m.heap.outer? a d = some v → R.Fits m 0 v

/-- Nothing is known at the start. -/
theorem holds_initial : R.Holds Store.initial.memory where
  cached a e v hv := by simp [Store.memory, Store.initial, Cache.find?] at hv
  field a f v hv := by simp [Store.memory, Store.initial, Heap.field?, Heap.read] at hv
  outer a d v hv := by simp [Store.memory, Store.initial, Heap.outer?, Heap.read] at hv

namespace Holds

variable {a : Addr} {e : ExprId} {v : Value} {h : Heap}

theorem of_cache (holds : R.Holds m) (heap : m'.heap = m.heap)
    (mono : ∀ v, R.Fits m 0 v → R.Fits m' 0 v)
    (cached : ∀ a e v, m'.cache.find? a e = some v →
      m.cache.find? a e = some v ∨ R.Fits m' 0 v) : R.Holds m' where
  cached a e v hv := (cached a e v hv).elim (fun hv => mono v (holds.cached a e v hv)) id
  field a f v hv := mono v (holds.field a f v (heap ▸ hv))
  outer a d v hv := mono v (holds.outer a d v (heap ▸ hv))

theorem enter (holds : R.Holds m) (mono : ∀ v, R.Fits m 0 v → R.Fits (m.enter a e) 0 v) :
    R.Holds (m.enter a e) := by
  refine holds.of_cache rfl mono fun b g v hv => ?_
  rw [Memory.find?_enter] at hv
  split at hv
  · cases hv
    exact .inr .hot
  · exact .inl hv

theorem leave {final : Bool} (holds : R.Holds m)
    (mono : ∀ u, R.Fits m 0 u → R.Fits (m.leave a e final v) 0 u)
    (hv : final = true → R.Fits (m.leave a e final v) 0 v) : R.Holds (m.leave a e final v) := by
  refine holds.of_cache rfl mono fun b g u hu => ?_
  by_cases same : b = a ∧ g = e
  · obtain ⟨rfl, rfl⟩ := same
    rw [Memory.find?_leave_self] at hu
    split at hu
    · next hfinal =>
      cases hu
      exact .inr (hv hfinal)
    · cases hu
  · rw [Memory.find?_leave_of_ne same] at hu
    exact .inl hu

theorem of_heap (holds : R.Holds m) (mono : ∀ v, R.Fits m 0 v → R.Fits { m with heap := h } 0 v)
    (field : ∀ a f v, h.field? a f = some v →
      m.heap.field? a f = some v ∨ R.Fits { m with heap := h } 0 v)
    (outer : ∀ a d v, h.outer? a d = some v →
      m.heap.outer? a d = some v ∨ R.Fits { m with heap := h } 0 v) :
    R.Holds { m with heap := h } where
  cached a e v hv := mono v (holds.cached a e v hv)
  field a f v hv := (field a f v hv).elim (fun hv => mono v (holds.field a f v hv)) id
  outer a d v hv := (outer a d v hv).elim (fun hv => mono v (holds.outer a d v hv)) id

theorem warmOf (holds : R.Holds m) {creation : Creation}
    (mono : ∀ v, R.Fits m 0 v → R.Fits { m with heap := (m.heap.warmOf creation).2 } 0 v) :
    R.Holds { m with heap := (m.heap.warmOf creation).2 } :=
  holds.of_heap mono (fun _ _ _ => .inl) fun _ _ _ => .inl

variable (holds : R.Holds m) (mono : ∀ v, R.Fits m 0 v → R.Fits { m with heap := h } 0 v)
  (hv : R.Fits m 0 v)

include holds mono hv

theorem allocate {c d : ClassId} (ok : m.heap.allocate a (.new c [(d, v)]) = .ok h) :
    R.Holds { m with heap := h } := by
  refine holds.of_heap mono (fun b f u hu => ?_) fun b g u hu => ?_
  · rw [Heap.field?_of_allocate ok] at hu
    exact .inl hu
  · rw [Heap.outer?_of_allocate ok] at hu
    split at hu
    · cases hu
      exact .inr (mono v hv)
    · exact .inl hu

theorem setField {f : SymbolId} (ok : m.heap.setField a f v = .ok h) :
    R.Holds { m with heap := h } := by
  refine holds.of_heap mono (fun b g u hu => ?_) fun b d u hu => ?_
  · rw [Heap.field?_of_setField ok] at hu
    split at hu
    · cases hu
      exact .inr (mono v hv)
    · exact .inl hu
  · rw [Heap.outer?_of_setField ok] at hu
    exact .inl hu

theorem setOuter {d : ClassId} (ok : m.heap.setOuter a d v = .ok h) :
    R.Holds { m with heap := h } := by
  refine holds.of_heap mono (fun b f u hu => ?_) fun b e u hu => ?_
  · rw [Heap.field?_of_setOuter ok] at hu
    exact .inl hu
  · rw [Heap.outer?_of_setOuter ok] at hu
    split at hu
    · cases hu
      exact .inr (mono v hv)
    · exact .inl hu

end Holds

/-- Which values fit depends only on which objects there are. -/
def Steady (R : Regime p) : Prop :=
  ∀ {m m' : Memory} {B B' : Nat} {v : Value}, m.heap.Extends m'.heap → R.Fits m B v → R.Fits m' B' v

/-- All values in the memory may occur, and so may the outer instances of the objects that have a
    number. -/
structure Stocks (R : Regime p) (m : Memory) : Prop extends R.Holds m where
  enclosing : ∀ w creation, m.heap.creation? w = some creation → R.Fits m 0 creation.outer

/-- Nothing is known at the start. -/
theorem stocks_initial : R.Stocks Store.initial.memory where
  toHolds := holds_initial
  enclosing w creation hw := by
    simp [Store.memory, Store.initial, Heap.creation?, Numbering.item?, Numbering.empty] at hw

namespace Stocks

variable (steady : R.Steady) (stocks : R.Stocks m) {a : Addr} {e : ExprId} {v : Value} {h : Heap}

include steady stocks

theorem enter : R.Stocks (m.enter a e) where
  toHolds := stocks.toHolds.enter fun _ => steady (.refl m.heap)
  enclosing w creation hw := steady (.refl m.heap) (stocks.enclosing w creation hw)

theorem leave {final : Bool} {B : Nat} (hv : R.Fits m B v) : R.Stocks (m.leave a e final v) where
  toHolds := stocks.toHolds.leave (fun _ => steady (.refl m.heap)) fun _ =>
    steady (.refl m.heap) hv
  enclosing w creation hw := steady (.refl m.heap) (stocks.enclosing w creation hw)

theorem warmOf {creation : Creation} {B : Nat} (outer : R.Fits m B creation.outer) :
    R.Stocks { m with heap := (m.heap.warmOf creation).2 } where
  toHolds := stocks.toHolds.warmOf fun _ => steady (.warmOf m.heap creation)
  enclosing w creation' hw := by
    rcases Numbering.item?_of_add hw with old | ⟨-, rfl⟩
    · exact steady (.warmOf m.heap creation) (stocks.enclosing w creation' old)
    · exact steady (.warmOf m.heap _) outer

/-- The numbers stay the same. -/
theorem of_heap (ext : m.heap.Extends h) (holds : R.Holds { m with heap := h })
    (same : h.creations = m.heap.creations) : R.Stocks { m with heap := h } where
  toHolds := holds
  enclosing w creation hw := by
    have hw : h.creation? w = some creation := hw
    rw [Heap.creation?, same] at hw
    exact steady ext (stocks.enclosing w creation hw)

theorem allocate {c d : ClassId} (hv : R.Fits m 0 v)
    (ok : m.heap.allocate a (.new c [(d, v)]) = .ok h) : R.Stocks { m with heap := h } :=
  stocks.of_heap steady (.of_allocate ok)
    (stocks.toHolds.allocate (fun _ => steady (.of_allocate ok)) hv ok)
    (Heap.creations_of_allocate ok)

theorem setField {f : SymbolId} (hv : R.Fits m 0 v) (ok : m.heap.setField a f v = .ok h) :
    R.Stocks { m with heap := h } :=
  stocks.of_heap steady (.of_setField ok)
    (stocks.toHolds.setField (fun _ => steady (.of_setField ok)) hv ok)
    (Heap.creations_of_setField ok)

theorem setOuter {d : ClassId} (hv : R.Fits m 0 v) (ok : m.heap.setOuter a d v = .ok h) :
    R.Stocks { m with heap := h } :=
  stocks.of_heap steady (.of_setOuter ok)
    (stocks.toHolds.setOuter (fun _ => steady (.of_setOuter ok)) hv ok)
    (Heap.creations_of_setOuter ok)

end Stocks

/-! ## Steps -/

/-- Questions may be asked in the store. -/
structure Ready (R : Regime p) (s : Store) : Prop where
  inv : R.inv s.memory
  env : R.FitsEnv s.memory s.env

variable {s t u : Store}

/-- The memory and the trusted values are all that matters. -/
theorem Step.of_eq (lawful : R.Lawful) (inv : R.inv s.memory) (memory : t.memory = s.memory)
    (trusted : ∀ v, s.trusted.contains v → t.trusted.contains v) : R.Step s t := by
  refine ⟨?_, trusted, ?_, ?_⟩
  · rw [memory]
    exact .refl _
  · rw [memory]
    exact lawful.refl _
  · rwa [memory]

theorem Step.refl (lawful : R.Lawful) (inv : R.inv s.memory) : R.Step s s :=
  .of_eq lawful inv rfl fun _ h => h

theorem Step.trans (lawful : R.Lawful) (h : R.Step s t) (h' : R.Step t u) : R.Step s u :=
  ⟨h.memory.trans h'.memory, fun v hv => h'.trusted v (h.trusted v hv),
    lawful.trans _ _ _ h.rel h'.rel, h'.inv⟩

theorem Step.fits (lawful : R.Lawful) (h : R.Step s t) {B : Nat} {v : Value}
    (hv : R.Fits s.memory B v) : R.Fits t.memory B v :=
  hv.mono lawful h.memory h.rel

theorem Step.addr (lawful : R.Lawful) (h : R.Step s t) {a : Addr} (ha : R.addr s.memory a) :
    R.addr t.memory a :=
  lawful.addr_mono _ _ _ h.memory h.rel ha

theorem Step.code (lawful : R.Lawful) (h : R.Step s t) {e : ExprId} {frame : Frame}
    (he : R.code s.memory e frame) : R.code t.memory e frame :=
  lawful.code_mono _ _ _ _ h.memory h.rel he

theorem Step.body (lawful : R.Lawful) (h : R.Step s t) {e : ExprId} {frame : Frame}
    (he : R.body s.memory e frame) : R.body t.memory e frame :=
  lawful.body_mono _ _ _ _ h.memory h.rel he

theorem Ready.step (lawful : R.Lawful) (h : R.Ready s) (step : R.Step s t) (env : t.env = s.env) :
    R.Ready t := by
  refine ⟨step.inv, ?_⟩
  rw [env]
  exact h.env.mono lawful step.memory step.rel

theorem Ready.inEnv (h : R.Ready s) {env : Env} (fits : R.FitsEnv s.memory env) :
    R.Ready { s with env := env } :=
  ⟨h.inv, fits⟩

theorem Ready.inTrace (h : R.Ready s) (trace : Trace) : R.Ready { s with trace := trace } :=
  ⟨h.inv, h.env⟩

/-! ## The contract of a regime -/

/-- The values in a question fit. The questions that construct an object by a template are left to
    each regime. -/
def Admits (R : Regime p) (m : Memory) {β : Type} : Query β → Prop
  | .eval e frame final =>
    R.addr m frame.receiver ∧ R.body m e frame ∧ (final = false → R.code m e frame)
  | .select v field _ _ => (∃ B, R.Fits m B v) ∧ R.member field
  | .call v method args _ _ =>
    (∃ B, R.Fits m B v) ∧ R.member method ∧ ∀ arg ∈ args, ∃ B, R.Fits m B arg.value
  | .construct v f args _ =>
    (∃ B, R.Fits m B v) ∧ (∀ a, v = .ref a → R.ctor m a f) ∧
      ∀ arg ∈ args, ∃ B, R.Fits m B arg.value
  | .create outer c f args _ =>
    (∃ B, R.Fits m B outer) ∧ R.created c f args.length ∧ ∀ arg ∈ args, ∃ B, R.Fits m B arg.value
  | .promote v _ _ | .isPromotable v => ∃ B, R.Fits m B v
  | .enclosingInstance _ v _ _ => R.Fits m 0 v
  | .outerInstance type frame _ =>
    R.addr m frame.receiver ∧ ∀ x ∈ type.path.symbols, R.member x
  | .template .. | .body .. | .check _ => False

/-- The value of the answer fits. -/
def Gives (R : Regime p) (m : Memory) {β : Type} : Query β → β → Memory → Prop
  | .eval e _ final, o, m' => R.Fits m' (if final then 0 else R.bound e) o.value
  | .call v _ _ _ _, o, m' => ∀ B, R.Fits m B v → R.Fits m' B o.value
  | .select .., o, m' | .construct .., o, m' | .create .., o, m' | .outerInstance .., o, m' =>
    R.Fits m' 0 o.value
  | .enclosingInstance .., v, m' => R.Fits m' 0 v
  | _, _, _ => True

/-- The contract under which an analysis keeps to the regime. -/
def contract (R : Regime p) (rest : Contract) : Contract where
  pre q s := if 9 ≤ q.kind then rest.pre q s else R.Ready s ∧ R.Admits s.memory q
  post q s b t := if 9 ≤ q.kind then rest.post q s b t else
    R.rel s.memory t.memory ∧ R.inv t.memory ∧ R.Gives s.memory q b t.memory
  fault := rest.fault

/-- The regime is lawful, and under the contract all answers keep to it. -/
structure Governs (R : Regime p) (C : Contract) : Prop where
  lawful : R.Lawful
  post : ∀ {β : Type} (q : Query β) s b t, q.kind < 9 → C.post q s b t →
    R.rel s.memory t.memory ∧ R.inv t.memory ∧ R.Gives s.memory q b t.memory

/-- Under the contract, questions below a kind may be asked from the store on. -/
structure Serves (R : Regime p) (C : Contract) (s : Store) (k : Nat) : Prop where
  pre : ∀ {β : Type} (q : Query β) t, R.Step s t → q.kind < k → R.Ready t → R.Admits t.memory q →
    C.pre q t

/-- Under the contract, the question may be asked of the parts of its value. -/
structure ServesParts (R : Regime p) (C : Contract) (s : Store) {γ : Type} (q : Query γ) :
    Prop where
  pre : ∀ {β : Type} (r : Query β) t, R.Step s t → q.Part p t r → R.Ready t →
    R.Admits t.memory r → C.pre r t

/-- The plan keeps to the regime, and it ends as wanted. -/
def Carries (R : Regime p) (C : Contract) {α : Type} (x : Plan α) (s : Store)
    (ok : α → Memory → Prop) : Prop :=
  x.Obeys p C s fun a t => R.Step s t ∧ t.env = s.env ∧ ok a t.memory

variable {C : Contract} {α β : Type} {k l : Nat}

theorem Serves.step (h : R.Serves C s k) (lawful : R.Lawful) (step : R.Step s t) :
    R.Serves C t k :=
  ⟨fun q u hu => h.pre q u (step.trans lawful hu)⟩

theorem ServesParts.step {γ : Type} {q : Query γ} (h : R.ServesParts C s q) (lawful : R.Lawful)
    (step : R.Step s t) : R.ServesParts C t q :=
  ⟨fun r u hu => h.pre r u (step.trans lawful hu)⟩

/-- The context does not matter. -/
theorem Serves.context (h : R.Serves C s k) (lawful : R.Lawful) (ready : R.Ready s)
    (context : Context) : R.Serves C { s with toContext := context } k :=
  h.step lawful (.of_eq lawful ready.inv rfl fun _ h => h)

/-! ## Plans that keep to a regime -/

namespace Carries

variable {ok : α → Memory → Prop} {okb : β → Memory → Prop}

theorem imp {x : Plan α} {ok' : α → Memory → Prop} (h : R.Carries C x s ok)
    (hok : ∀ a t, R.Step s t → ok a t.memory → ok' a t.memory) : R.Carries C x s ok' :=
  Plan.Obeys.imp h fun a t ha => ⟨ha.1, ha.2.1, hok a t ha.1 ha.2.2⟩

/-- The answer does not matter. -/
theorem ignore {x : Plan α} (h : R.Carries C x s ok) : R.Carries C x s fun _ _ => True :=
  h.imp fun _ _ _ _ => trivial

theorem pure (g : R.Governs C) (ready : R.Ready s) {a : α} (h : ok a s.memory) :
    R.Carries C (Pure.pure a) s ok :=
  ⟨.refl g.lawful ready.inv, rfl, h⟩

theorem bind (g : R.Governs C) (ready : R.Ready s) {x : Plan β} {f : β → Plan α}
    (hx : R.Carries C x s okb)
    (hf : ∀ b t, R.Step s t → R.Ready t → okb b t.memory → R.Carries C (f b) t ok) :
    R.Carries C (x >>= f) s ok := by
  refine Plan.obeys_bind.2 (Plan.Obeys.imp hx fun b t hb => ?_)
  have ready' := ready.step g.lawful hb.1 hb.2.1
  refine Plan.Obeys.imp (hf b t hb.1 ready' hb.2.2) fun a u ha => ?_
  exact ⟨hb.1.trans g.lawful ha.1, ha.2.1.trans hb.2.1, ha.2.2⟩

theorem map {x : Plan β} {f : β → α} (hx : R.Carries C x s fun b m => ok (f b) m) :
    R.Carries C (f <$> x) s ok :=
  Plan.obeys_map.2 hx

theorem look_bind {f : Store → Plan α} (h : R.Carries C (f s) s ok) :
    R.Carries C ((liftM Effect.look : Plan Store) >>= f) s ok :=
  Plan.obeys_look_bind.2 h

/-- A question that may be asked is answered as the regime promises. -/
theorem ask_of_pre {q : Query α} (g : R.Governs C) (pre : C.pre q s)
    (general : q.kind < 9) :
    R.Carries C (liftM q) s fun a m => R.Gives s.memory q a m := by
  refine Plan.obeys_ask.2 ⟨pre, fun b t hb hpost => ?_⟩
  obtain ⟨rel, inv, gives⟩ := g.post q s b t general hpost
  obtain ⟨n, ends⟩ := hb
  exact ⟨⟨ends.keeps.memory, ends.keeps.trusted, rel, inv⟩, ends.env, gives⟩

/-- A question may be asked if its values fit. -/
theorem ask {q : Query α} (g : R.Governs C) (ready : R.Ready s) (serves : R.Serves C s k)
    (hk : q.kind < k) (admits : R.Admits s.memory q)
    (general : q.kind < 9) :
    R.Carries C (liftM q) s fun a m => R.Gives s.memory q a m :=
  ask_of_pre g (serves.pre q s (.refl g.lawful ready.inv) hk ready admits) general

/-- A question may be asked of a part of a value. -/
theorem ask_part {γ : Type} {q₀ : Query γ} {q : Query α} (g : R.Governs C) (ready : R.Ready s)
    (serves : R.ServesParts C s q₀) (part : q₀.Part p s q) (admits : R.Admits s.memory q)
    (general : q.kind < 9) :
    R.Carries C (liftM q) s fun a m => R.Gives s.memory q a m :=
  ask_of_pre g (serves.pre q s (.refl g.lawful ready.inv) part ready admits) general

theorem raise (g : R.Governs C) (ready : R.Ready s) {error : Place → SafetyError}
    {source : Span} : R.Carries C (liftM (Effect.raise error source)) s fun _ _ => True :=
  Plan.obeys_raise.2 ⟨.refl g.lawful ready.inv, rfl, trivial⟩

theorem fail (g : R.Governs C) (ready : R.Ready s) {error : Place → SafetyError}
    {source : Span} {B : Nat} :
    R.Carries C (Plan.fail error source) s fun o m => R.Fits m B o.value :=
  Plan.obeys_fail.2 ⟨.refl g.lawful ready.inv, rfl, .hot⟩

theorem report (g : R.Governs C) (ready : R.Ready s) {message : String} {source : Span} :
    R.Carries C (Plan.report message source) s fun _ _ => True :=
  Plan.obeys_report.2 ⟨.of_eq g.lawful ready.inv rfl fun _ h => h, rfl, trivial⟩

theorem inEnv {env : Env} {part : Plan α} (h : R.Carries C part { s with env := env } ok) :
    R.Carries C (Plan.inEnv env part) s ok :=
  Plan.obeys_inEnv.2 <| Plan.Obeys.imp h fun _ _ ha =>
    ⟨⟨ha.1.memory, ha.1.trusted, ha.1.rel, ha.1.inv⟩, rfl, ha.2.2⟩

theorem inTrace {trace : Trace} {part : Plan α}
    (h : R.Carries C part { s with trace := trace } ok) :
    R.Carries C (Plan.inTrace trace part) s ok :=
  Plan.obeys_inTrace.2 <| Plan.Obeys.imp h fun _ _ ha =>
    ⟨⟨ha.1.memory, ha.1.trusted, ha.1.rel, ha.1.inv⟩, ha.2.1, ha.2.2⟩

theorem calledFrom {source : Span} {part : Plan α}
    (h : R.Carries C part { s with trace := s.trace.add source } ok) :
    R.Carries C (Plan.calledFrom source part) s ok :=
  look_bind (inTrace h)

/-- A plan for each element of a list. -/
theorem mapM {γ : Type} (g : R.Governs C) (ready : R.Ready s) {xs : List γ}
    {f : γ → Plan β} (kept : ∀ b m m', m.Extends m' → R.rel m m' → okb b m → okb b m')
    (hf : ∀ x ∈ xs, ∀ t, R.Step s t → R.Ready t → R.Carries C (f x) t okb) :
    R.Carries C (xs.mapM f) s fun bs m => bs.length = xs.length ∧ ∀ b ∈ bs, okb b m := by
  induction xs generalizing s with
  | nil =>
    rw [List.mapM_nil]
    exact pure g ready ⟨rfl, nofun⟩
  | cons x xs ih =>
    rw [List.mapM_cons]
    refine bind g ready (hf x List.mem_cons_self s (.refl g.lawful ready.inv) ready)
      fun b t step ready' hb => ?_
    refine bind g ready' (ih ready' fun y hy u hu => ?_) fun bs u step' ready'' hbs => ?_
    · exact hf y (List.mem_cons_of_mem x hy) u (step.trans g.lawful hu)
    · refine pure g ready'' ⟨by simp [hbs.1], fun c hc => ?_⟩
      rcases List.mem_cons.1 hc with rfl | hc
      · exact kept _ _ _ step'.memory step'.rel hb
      · exact hbs.2 c hc

theorem errorsOfEach {γ : Type} (g : R.Governs C) (ready : R.Ready s) {xs : List γ}
    {f : γ → Plan (List SafetyError)}
    (hf : ∀ x ∈ xs, ∀ t, R.Step s t → R.Ready t → R.Carries C (f x) t fun _ _ => True) :
    R.Carries C (Plan.errorsOfEach xs f) s fun _ _ => True :=
  map (mapM g ready (fun _ _ _ _ _ h => h) hf).ignore

theorem joinEach {γ : Type} (g : R.Governs C) (ready : R.Ready s) {xs : List γ}
    {f : γ → Plan Outcome} {B : Nat}
    (hf : ∀ x ∈ xs, ∀ t, R.Step s t → R.Ready t →
      R.Carries C (f x) t fun o m => R.Fits m B o.value) :
    R.Carries C (Plan.joinEach xs f) s fun o m => R.Fits m B o.value := by
  refine map ((mapM g ready (fun o m m' ext rel h => h.mono g.lawful ext rel) hf).imp ?_)
  intro os t _ hos
  have joined : ∀ (os : List Outcome) (o : Outcome), (∀ o ∈ os, R.Fits t.memory B o.value) →
      R.Fits t.memory B o.value → R.Fits t.memory B (os.foldl Outcome.join o).value := by
    intro os
    induction os with
    | nil => exact fun o _ ho => ho
    | cons o' os ih =>
      exact fun o hos ho => ih _ (fun q hq => hos q (List.mem_cons_of_mem o' hq))
        (ho.join (hos o' List.mem_cons_self))
  exact joined os .hot hos.2 .hot

end Carries

end Regime

end ObjectInit
