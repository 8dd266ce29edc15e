import ObjectInit.Proofs.Completion
import ObjectInit.Proofs.Discipline

/-!
# The analysis of disciplined programs

Where a program calls constructors as it should, the analysis evaluates the code of a constructor
and the template of a class only on objects on which constructors of the class may be called. Which
these are, what the analysis keeps track of and how it may change the memory are parameters here
(`Regime.disciplined`).

Main results:

* `Regime.disciplined_lawful`: single steps of the analysis of a disciplined program respect such a
  regime.
-/

namespace ObjectInit

/-- The object exists, and if it is warm, it is known how it was created. -/
def Heap.Has (h : Heap) (a : Addr) : Prop :=
  h.contains a = true ∧ ∀ w, a = .warm w → ∃ creation, h.creation? w = some creation

theorem Heap.Has.mono {h h' : Heap} {a : Addr} (has : h.Has a) (ext : h.Extends h') : h'.Has a := by
  refine ⟨?_, fun w hw => ?_⟩
  · obtain ⟨o, ho⟩ := Option.isSome_iff_exists.1 has.1
    obtain ⟨o', ho', -⟩ := ext.read a o ho
    exact Option.isSome_iff_exists.2 ⟨o', ho'⟩
  · obtain ⟨creation, hcreation⟩ := has.2 w hw
    exact ⟨creation, ext.creation w creation hcreation⟩

namespace Program

/-- The expression is what a constructor is called on in the code of a constructor. -/
def IsQualifier (p : Program) (q : ExprId) : Prop :=
  ∃ b e c f, p.IsCode b e c ∧ p.CallsConstructor e q f

variable {p : Program}

/-- Primary constructors are constructors of their class. -/
def OwnConstructors (p : Program) : Prop :=
  ∀ c x, (p.cls c).primaryConstructor = some x →
    (p.symbol x).isConstructor = true ∧ p.homeClass x = c

theorem Coherent.ownConstructors {q : Program} (h : q.Coherent) : q.finish.OwnConstructors := by
  intro c x hx
  rw [primaryConstructor_finish] at hx
  exact ⟨(h.constructors c x hx).2.2.2, h.homeClass_finish hx⟩

end Program

/-! ## The regime -/

namespace Regime

variable {p : Program}

/-- The expression may be evaluated in the frame as code. The constructors of some classes may be
    called on some objects. -/
def CodeRuns (p : Program) (may : Addr → ClassId → Prop) (e : ExprId) (frame : Frame) : Prop :=
  ∃ b, p.IsCode b e frame.cls ∧ (b = true → may frame.receiver frame.cls)

/-- The expression may be evaluated in the frame, as code or as a template. -/
def BodyRuns (p : Program) (may : Addr → ClassId → Prop) (e : ExprId) (frame : Frame) : Prop :=
  CodeRuns p may e frame ∨ p.IsTemplateOf e frame.cls ∧ may frame.receiver frame.cls

/-- The constructors of some classes may be called on some objects. -/
def calling (p : Program) (may : Addr → ClassId → Prop) : Regime p where
  rel _ _ := True
  inv _ := True
  addr m a := m.heap.Has a
  fresh _ _ _ := True
  bound _ := 0
  code _ e frame := CodeRuns p may e frame
  body _ e frame := BodyRuns p may e frame
  member x := (p.symbol x).isConstructor = false
  ctor _ a f := may a (p.homeClass f)
  created c f _ := ∀ w : Warm, w.cls = c → may (.warm w) (p.homeClass f)

/-- What is known of the memory when constructors are called as they should. -/
structure Called (p : Program) (may : Addr → ClassId → Prop) (m : Memory) : Prop
    extends (calling p may).Stocks m where
  /-- Constructors are called on the object itself. -/
  qualifiers : ∀ a q v, m.cache.find? a q = some v → p.IsQualifier q → v = .hot ∨ v = .ref a

/-- The regime of a disciplined program, of which more may be known. -/
def disciplined (p : Program) (may : Addr → ClassId → Prop) (rel : Memory → Memory → Prop)
    (inv : Memory → Prop) : Regime p :=
  { calling p may with
    rel := rel
    inv := fun m => Called p may m ∧ inv m }

/-- What is known is respected by the steps that are the same for all objects. -/
structure Tracks (p : Program) (may : Addr → ClassId → Prop) (rel : Memory → Memory → Prop)
    (inv : Memory → Prop) : Prop where
  refl : ∀ m, rel m m
  trans : ∀ m m' m'', rel m m' → rel m' m'' → rel m m''
  enter : ∀ m e frame, inv m → BodyRuns p may e frame →
    m.cache.find? frame.receiver e = none →
      rel m (m.enter frame.receiver e) ∧ inv (m.enter frame.receiver e)
  leave : ∀ m m' e frame final v, inv m → BodyRuns p may e frame →
    (final = false → CodeRuns p may e frame) → m.cache.find? frame.receiver e = none →
    (m.enter frame.receiver e).Extends m' → rel (m.enter frame.receiver e) m' → inv m' →
      rel m (m'.leave frame.receiver e final v) ∧ inv (m'.leave frame.receiver e final v)
  warmOf : ∀ m creation, inv m → rel m { m with heap := (m.heap.warmOf creation).2 } ∧
    inv { m with heap := (m.heap.warmOf creation).2 }
  allocate : ∀ m a v h, inv m → (p.cls a.cls).hasSource = true →
    m.heap.allocate a (.new a.cls [(a.cls, v)]) = .ok h →
      rel m { m with heap := h } ∧ inv { m with heap := h }

variable {may : Addr → ClassId → Prop} {rel : Memory → Memory → Prop} {inv : Memory → Prop}
  {m m' : Memory} {B : Nat} {v : Value}

theorem fits_disciplined :
    (disciplined p may rel inv).Fits m B v ↔ (calling p may).Fits m B v :=
  ⟨fun h => h.imp (fun _ h => h) (fun _ _ h => h) fun _ _ h => h,
    fun h => h.imp (fun _ h => h) (fun _ _ h => h) fun _ _ h => h⟩

/-- What fits depends only on which objects there are. -/
theorem steady_calling : (calling p may).Steady := by
  intro m m' B B' v ext h
  induction h generalizing B' with
  | hot => exact .hot
  | cold => exact .cold
  | ref ha => exact .ref (ha.mono ext)
  | closure receiver code _ _ ih =>
    exact .closure (receiver.mono ext) code trivial fun x v hv => ih x v hv
  | oneOf _ ih => exact .oneOf fun v hv => ih v hv

theorem fits_later (h : (disciplined p may rel inv).Fits m B v) (ext : m.heap.Extends m'.heap) :
    (disciplined p may rel inv).Fits m' B v :=
  fits_disciplined.2 (steady_calling ext (fits_disciplined.1 h))

/-- A parent whose constructor waits does so while more objects appear. -/
theorem waits_later {a : Addr} {r : List SafetyError × Option ParentCall}
    (h : (disciplined p may rel inv).Waits m a r) (ext : m.heap.Extends m'.heap) :
    (disciplined p may rel inv).Waits m' a r := by
  intro call hcall
  obtain ⟨ctor, args⟩ := h call hcall
  refine ⟨ctor, fun arg harg => ?_⟩
  obtain ⟨B, fits⟩ := args arg harg
  exact ⟨B, fits_later fits ext⟩

namespace Called

variable {a : Addr} {e : ExprId} {h : Heap}

theorem enter (called : Called p may m) : Called p may (m.enter a e) where
  toStocks := called.toStocks.enter steady_calling
  qualifiers b q v hv hq := by
    rw [Memory.find?_enter] at hv
    split at hv
    · cases hv
      exact .inl rfl
    · exact called.qualifiers b q v hv hq

theorem leave (called : Called p may m) {final : Bool} (hv : (calling p may).Fits m B v)
    (qualifier : p.IsQualifier e → v = .ref a) : Called p may (m.leave a e final v) where
  toStocks := called.toStocks.leave steady_calling hv
  qualifiers b q u hu hq := by
    by_cases same : b = a ∧ q = e
    · obtain ⟨rfl, rfl⟩ := same
      rw [Memory.find?_leave_self] at hu
      split at hu
      · cases hu
        exact .inr (qualifier hq)
      · cases hu
    · rw [Memory.find?_leave_of_ne same] at hu
      exact called.qualifiers b q u hu hq

theorem warmOf (called : Called p may m) {creation : Creation}
    (outer : (calling p may).Fits m 0 creation.outer) :
    Called p may { m with heap := (m.heap.warmOf creation).2 } :=
  ⟨called.toStocks.warmOf steady_calling outer, called.qualifiers⟩

theorem allocate (called : Called p may m) {c d : ClassId} (hv : (calling p may).Fits m 0 v)
    (ok : m.heap.allocate a (.new c [(d, v)]) = .ok h) : Called p may { m with heap := h } :=
  ⟨called.toStocks.allocate steady_calling hv ok, called.qualifiers⟩

theorem setField (called : Called p may m) {f : SymbolId} (hv : (calling p may).Fits m 0 v)
    (ok : m.heap.setField a f v = .ok h) : Called p may { m with heap := h } :=
  ⟨called.toStocks.setField steady_calling hv ok, called.qualifiers⟩

theorem setOuter (called : Called p may m) {d : ClassId} (hv : (calling p may).Fits m 0 v)
    (ok : m.heap.setOuter a d v = .ok h) : Called p may { m with heap := h } :=
  ⟨called.toStocks.setOuter steady_calling hv ok, called.qualifiers⟩

end Called

/-- Nothing is known at the start. -/
theorem called_initial : Called p may Store.initial.memory where
  toStocks := stocks_initial
  qualifiers a q v hv := by simp [Store.memory, Store.initial, Cache.find?] at hv

/-! ## Single steps -/

/-- Everything but a template runs as code. -/
theorem code_of_body {e : ExprId} {frame : Frame} (h : BodyRuns p may e frame) {n : Node}
    (hn : (p.expr e).node = n) (ne : ∀ d, n ≠ .template d) : CodeRuns p may e frame :=
  h.elim id fun ⟨⟨_, _, _, _, node⟩, _⟩ => absurd (hn ▸ node) (ne _)

/-- The body of a member is code of its class. -/
theorem code_of_member (disciplined : p.Disciplined) (own : p.OwnConstructors) {a : Addr}
    {x : SymbolId} {e : ExprId} (member : (p.symbol x).isConstructor = false)
    (body : (p.symbol x).body = some e) : CodeRuns p may e ⟨a, p.homeClass x⟩ := by
  have plain : ∀ d, (p.expr e).node ≠ .template d := by
    intro d node
    have := (own d x (disciplined.bodies x e d body node)).1
    rw [member] at this
    cases this
  have code := Program.IsCode.body body plain
  rw [member] at code
  exact ⟨false, code, nofun⟩

/-- The body of a constructor is a template or code of its class. -/
theorem body_of_constructor (disciplined : p.Disciplined) (own : p.OwnConstructors) {a : Addr}
    {x : SymbolId} {e : ExprId} (hmay : may a (p.homeClass x))
    (body : (p.symbol x).body = some e) : BodyRuns p may e ⟨a, p.homeClass x⟩ := by
  by_cases template : ∃ d, (p.expr e).node = .template d
  · obtain ⟨d, node⟩ := template
    have primary := disciplined.bodies x e d body node
    obtain rfl := (own d x primary).2
    exact .inr ⟨⟨(disciplined.primaries _ x e primary body).1, x, primary, body, node⟩, hmay⟩
  · exact .inl ⟨_, .body body fun d node => template ⟨d, node⟩, fun _ => hmay⟩

/-- Constructors are not found by their names. -/
theorem isConstructor_of_implementation {bases : List ClassId} {x y : SymbolId}
    (h : p.implementation? bases x = some y) (hx : (p.symbol x).isConstructor = false) :
    (p.symbol y).isConstructor = false := by
  obtain ⟨base, -, found⟩ := List.exists_of_findSome?_eq_some h
  have implements := List.find?_some found
  simp only [Program.implements, Bool.or_eq_true, Bool.and_eq_true, Bool.not_eq_true',
    beq_iff_eq] at implements
  rcases implements with ⟨⟨-, h⟩, -⟩ | ⟨rfl, -⟩
  · exact h
  · exact hx

theorem isConstructor_getD {bases : List ClassId} {x : SymbolId}
    (hx : (p.symbol x).isConstructor = false) :
    (p.symbol ((p.implementation? bases x).getD x)).isConstructor = false := by
  cases h : p.implementation? bases x with
  | none => exact hx
  | some y => exact isConstructor_of_implementation h hx

/-- Constructors are called on the receiver itself. -/
theorem Called.delegate (disciplined : p.Disciplined) {s t : Store} (called : Called p may s.memory)
    {e qualifier : ExprId} {frame : Frame} {x : SymbolId} {args : List Arg} {o : Outcome}
    (body : BodyRuns p may e frame)
    (node : (p.expr e).node = .call (.select qualifier x) args)
    (constructor : (p.symbol x).isConstructor = true)
    (h : (Query.eval qualifier frame false).Answered p s o t) {a : Addr} (ha : o.value = .ref a) :
    may a (p.homeClass x) := by
  obtain ⟨b, code, hmay⟩ := code_of_body body node nofun
  have call : p.CallsConstructor e qualifier x := ⟨args, node, constructor⟩
  obtain ⟨rfl, home, this⟩ := disciplined.calls _ _ _ _ _ code call
  have receiver : o.value = .hot ∨ o.value = .ref frame.receiver := by
    rcases Query.value_of_thisOf this h with cached | fresh
    · exact called.qualifiers _ _ _ cached ⟨_, _, _, _, code, call⟩
    · exact .inr fresh
  rw [ha] at receiver
  rcases receiver with h | h
  · cases h
  · cases h
    rw [home]
    exact hmay rfl

/-- Constructors for new objects may be called on them. -/
def Creates (p : Program) (may : Addr → ClassId → Prop) : Prop :=
  ∀ b e c type x args, p.IsCode b e c → (p.expr e).node = .new type x args →
    ∀ w : Warm, w.cls = type.cls → may (.warm w) (p.homeClass x)

/-- Single steps of the analysis of a disciplined program respect its regime. -/
theorem disciplined_lawful (hp : p.Disciplined) (own : p.OwnConstructors) (creates : Creates p may)
    (tracks : Tracks p may rel inv) : (disciplined p may rel inv).Lawful where
  refl := tracks.refl
  trans := tracks.trans
  addr_mono _ _ _ ext _ ha := ha.mono ext.heap
  fresh_mono _ _ _ _ _ _ h := h
  code_mono _ _ _ _ _ _ h := h
  body_mono _ _ _ _ _ _ h := h
  ctor_mono _ _ _ _ _ _ h := h
  fresh_le _ _ _ _ _ h := h
  body_of_code _ _ _ h := .inl h
  parts m e frame body e' child := by
    obtain ⟨b, code, hmay⟩ := code_of_body body rfl fun d node => by
      rw [node] at child
      cases child
    exact ⟨b, code.part child, hmay⟩
  bound_le _ _ _ := Nat.le_refl 0
  captured _ _ _ _ _ _ _ := trivial
  bound_valDef _ _ _ := rfl
  valDef m e frame x e' body node he' := by
    obtain ⟨b, code, hmay⟩ := code_of_body body node nofun
    exact .inl ⟨b, code.valDef node he', hmay⟩
  names m e frame body x hx := by
    obtain ⟨b, code, -⟩ := code_of_body body rfl fun d node => by
      rw [node] at hx
      cases hx
    exact hp.names b e frame.cls code x hx
  method _ _ _ _ _ _ _ _ h := h
  delegate s t e frame qualifier x args o body node constructor called h _ a ha :=
    called.1.delegate hp body node constructor h ha
  new m e frame type x args body node := by
    obtain ⟨b, code, -⟩ := code_of_body body node nofun
    exact creates b e frame.cls type x args code node
  virtual c x hx := by
    change (p.symbol (p.virtualTarget c x)).isConstructor = false
    unfold Program.virtualTarget
    dsimp only
    split
    · exact hx
    · exact isConstructor_getD hx
  super c base x hx := isConstructor_getD hx
  tried c x hx := by
    have := (List.mem_filter.1 hx).2
    simp only [Bool.and_eq_true, Bool.not_eq_true'] at this
    exact this.2
  memberBody m a x e _ _ member _ body := .inl (code_of_member hp own member body)
  ctorBody m a x e _ _ hmay body := body_of_constructor hp own hmay body
  cached m a e v called hv := fits_disciplined.2 (called.1.cached a e v hv)
  field m a f v called hv := fits_disciplined.2 (called.1.field a f v hv)
  outer m a c v called hv := fits_disciplined.2 (called.1.outer a c v hv)
  creation m w called has := by
    obtain ⟨creation, hw⟩ := has.2 w rfl
    exact ⟨creation, hw, fits_disciplined.2 (called.1.enclosing w creation hw)⟩
  enter m e frame called _ body miss := by
    obtain ⟨hrel, hinv⟩ := tracks.enter m e frame called.2 body miss
    exact ⟨hrel, called.1.enter, hinv⟩
  leave m m' e frame final B v called _ body code miss ext hrel called' hv _ this := by
    obtain ⟨hrel', hinv⟩ := tracks.leave m m' e frame final v called.2 body code miss ext hrel
      called'.2
    have fits := fits_disciplined.1 hv
    refine ⟨hrel', ⟨called'.1.leave fits fun hq => this ?_, hinv⟩,
      fits_disciplined.2 (steady_calling (.refl m'.heap) fits)⟩
    -- A qualifier is evaluated in the code of its class only.
    obtain ⟨_, e₀, c, x, code₀, call⟩ := hq
    obtain ⟨rfl, -, node⟩ := hp.calls _ _ _ _ _ code₀ call
    obtain ⟨b, code', -⟩ := code_of_body body node nofun
    rw [hp.qualifiers _ _ _ _ _ code₀ call _ _ code']
    exact node
  birth m c outer ctor args called created source remembers _ := by
    let creation : Creation := ⟨c, outer, ctor, args⟩
    have known := Heap.creation?_warmOf m.heap creation
    have ext := Heap.Extends.warmOf m.heap creation
    have fits : (calling p may).Fits m 0 outer := fits_disciplined.1 remembers.fits
    have called₁ : Called p may { m with heap := (m.heap.warmOf creation).2 } :=
      called.1.warmOf fits
    obtain ⟨rel₁, inv₁⟩ := tracks.warmOf m creation called.2
    refine ⟨fun exists_ => ⟨rel₁, ⟨called₁, inv₁⟩, exists_, ?_⟩, fun h ok => ?_⟩
    · rintro w ⟨⟩
      exact ⟨_, known⟩
    · have ext' := Heap.Extends.of_allocate ok
      obtain ⟨rel₂, inv₂⟩ :=
        tracks.allocate _ (.warm (m.heap.warmOf creation).1) outer h inv₁ source ok
      have has : h.Has (.warm (m.heap.warmOf creation).1) := by
        refine ⟨?_, ?_⟩
        · rw [Heap.contains, Heap.read_of_allocate ok, if_pos rfl]
          rfl
        · rintro w ⟨⟩
          exact ⟨_, ext'.creation _ _ known⟩
      exact ⟨tracks.trans _ _ _ rel₁ rel₂,
        ⟨called₁.allocate (steady_calling ext fits) ok, inv₂⟩, has, created _ rfl⟩

end Regime

end ObjectInit
