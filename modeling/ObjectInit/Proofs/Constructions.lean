import ObjectInit.Proofs.Evaluations

/-!
# Constructions under a regime

The template of a class keeps to a lawful regime, if the regime lets it set the fields of the object
and record its outers (`Regime.Builds`).

Main results:

* `Regime.Builds.carries_template`, `Regime.Stores.carries_body`: how an object is constructed.
* `Regime.Lawful.building_kept`: a lawful regime is kept, templates included.
-/

namespace ObjectInit

/-- The class parameters are stored in their fields. -/
def Program.HoldsParams (p : Program) (h : Heap) (c : ClassId) (this : Addr) : Prop :=
  ∀ f ∈ p.paramFields c, (h.field? this f).isSome

namespace Regime

open Plan

variable {p : Program} {R : Regime p} {C : Contract} {s t : Store} {k : Nat} {c : ClassId}
  {this : Addr}

/-- The regime lets the fields of the object be set. -/
def Stores (R : Regime p) (this : Addr) : Prop :=
  ∀ m f v h, R.inv m → R.addr m this → R.Fits m 0 v → m.heap.setField this f v = .ok h →
    R.rel m { m with heap := h } ∧ R.inv { m with heap := h }

/-- The regime lets the statements of the class run on the object. -/
def RunsStats (R : Regime p) (m : Memory) (c : ClassId) (this : Addr) : Prop :=
  ∀ template, (p.cls c).template = some template → ∀ e ∈ template.body, R.code m e ⟨this, c⟩

/-- The template of the class may run on the object. -/
structure Builds (R : Regime p) (c : ClassId) (this : Addr) : Prop where
  field : R.Stores this
  outer : ∀ m template superClass d v h, (p.cls c).template = some template →
    template.parents.head? = some superClass →
    (d = superClass.type.cls ∨ d ∈ p.mixins c superClass.type.cls) →
    R.inv m → R.addr m this → R.Fits m 0 v →
      m.heap.setOuter this d v = .ok h → R.rel m { m with heap := h } ∧ R.inv { m with heap := h }
  stat : ∀ m, p.HoldsParams m.heap c this → R.RunsStats m c this
  arg : ∀ m template, (p.cls c).template = some template → ∀ parent ∈ template.parents,
    R.addr m this → R.FitsArgs m parent.args ⟨this, c⟩
  path : ∀ template, (p.cls c).template = some template → ∀ parent ∈ template.parents,
    ∀ x ∈ parent.type.path.symbols, R.member x
  listed : ∀ m template, (p.cls c).template = some template → ∀ parent ∈ template.parents,
    ∀ f, parent.ctor = some f → R.ctor m this f
  mixin : ∀ m template superClass, (p.cls c).template = some template →
    template.parents.head? = some superClass → ∀ d ∈ p.mixins c superClass.type.cls,
      ∀ f, (p.cls d).primaryConstructor = some f → R.ctor m this f

theorem RunsStats.step (lawful : R.Lawful) (stats : R.RunsStats s.memory c this)
    (step : R.Step s t) : R.RunsStats t.memory c this :=
  fun template ht e he => step.code lawful (stats template ht e he)

/-! ## Effects on the object -/

/-- A change of the heap that the regime permits. -/
theorem carries_changeHeap (fault : ∀ f, C.fault f) {effect : Effect Unit}
    (step : ∀ t, effect.run.run s = .ok ((), t) → R.Step s t ∧ t.env = s.env) :
    R.Carries C (liftM effect) s fun _ _ => True := by
  refine Plan.obeys_perform.2 ⟨fun f _ => fault f, fun _ t ht => ?_⟩
  exact ⟨(step t ht).1, (step t ht).2, trivial⟩

theorem Stores.carries_setField (stores : R.Stores this) (fault : ∀ f, C.fault f)
    (ready : R.Ready s) (ha : R.addr s.memory this) {f : SymbolId} {v : Value}
    (hv : R.Fits s.memory 0 v) :
    R.Carries C (liftM (Effect.setField this f v)) s
      fun _ m => (m.heap.field? this f).isSome := by
  refine Plan.obeys_perform.2 ⟨fun f _ => fault f, fun _ t ht => ?_⟩
  obtain ⟨h, ok, rfl⟩ := Effect.run_setField.1 ht
  obtain ⟨rel, inv⟩ := stores s.memory f v h ready.inv ha hv ok
  refine ⟨⟨⟨.of_setField ok, fun _ _ _ h => h⟩, fun _ h => h, rel, inv⟩, rfl, ?_⟩
  change (h.field? this f).isSome = true
  rw [Heap.field?_of_setField ok, if_pos ⟨rfl, rfl⟩]
  rfl

/-- The values of the class parameters come from the environment. -/
theorem Ready.paramValue (ready : R.Ready s) (params : List SymbolId) (name : String) :
    R.Fits s.memory 0 (Plan.paramValue p params s.env name) := by
  rw [Plan.paramValue]
  cases h : Option.bind _ s.env.lookup with
  | none => exact .hot
  | some v =>
    obtain ⟨x, -, hx⟩ := Option.bind_eq_some_iff.1 h
    exact ready.env x v hx

theorem Stores.carries_setParams (stores : R.Stores this) (g : R.Governs C)
    (fault : ∀ f, C.fault f) (ready : R.Ready s) (ha : R.addr s.memory this) :
    R.Carries C (setParams p c this) s fun _ m => p.HoldsParams m.heap c this := by
  unfold setParams Program.HoldsParams
  dsimp only
  generalize p.paramFields c = fields
  induction fields generalizing s with
  | nil => exact .pure g ready nofun
  | cons field fields ih =>
    refine .bind g ready
      (.look_bind (stores.carries_setField fault ready ha (ready.paramValue _ _)))
      fun _ t step ready' stored => ?_
    refine (ih ready' (step.addr g.lawful ha)).imp fun _ u step' rest f hf => ?_
    rcases List.mem_cons.1 hf with rfl | hf
    · obtain ⟨v, hv⟩ := Option.isSome_iff_exists.1 stored
      exact Option.isSome_iff_exists.2 ⟨v, step'.memory.heap.field hv⟩
    · exact rest f hf

/-! ## Parents -/

/-- The constructor of a parent that waits may be called. -/
def Waits (R : Regime p) (m : Memory) (this : Addr)
    (r : List SafetyError × Option ParentCall) : Prop :=
  ∀ call, r.2 = some call → R.ctor m this call.ctor ∧
    ∀ arg ∈ call.args, ∃ B, R.Fits m B arg.value

theorem Waits.mono (lawful : R.Lawful) {m m' : Memory} {r : List SafetyError × Option ParentCall}
    (h : R.Waits m this r) (ext : m.Extends m') (rel : R.rel m m') : R.Waits m' this r := by
  intro call hcall
  obtain ⟨hctor, hargs⟩ := h call hcall
  refine ⟨lawful.ctor_mono m m' this _ ext rel hctor, fun arg harg => ?_⟩
  obtain ⟨B, hB⟩ := hargs arg harg
  exact ⟨B, hB.mono lawful ext rel⟩

/-- The regime lets the outer of a class be recorded. -/
def Records (R : Regime p) (this : Addr) (d : ClassId) : Prop :=
  ∀ m v h, R.inv m → R.addr m this → R.Fits m 0 v → m.heap.setOuter this d v = .ok h →
    R.rel m { m with heap := h } ∧ R.inv { m with heap := h }

theorem carries_prepareParent (g : R.Governs C) (fault : ∀ f, C.fault f) (ready : R.Ready s)
    (serves : R.Serves C s k) (hk : 5 < k) (ha : R.addr s.memory this) {type : ClassRef}
    {ctor : Option SymbolId} {args : List ArgValue} {source : Span}
    (records : R.Records this type.cls) (path : ∀ x ∈ type.path.symbols, R.member x)
    (hctor : ∀ m f, ctor = some f → R.ctor m this f)
    (hargs : ∀ arg ∈ args, ∃ B, R.Fits s.memory B arg.value) :
    R.Carries C (prepareParent p c this type ctor args source) s
      fun r m => R.Waits m this r := by
  have outer : R.Carries C (liftM (Query.outerInstance type ⟨this, c⟩ source)) s
      fun o m => R.Fits m 0 o.value :=
    .ask g ready serves hk ⟨ha, path⟩ (by simp [Query.kind])
  refine .bind g ready outer fun o t step ready' ho => ?_
  have recorded : R.Carries C (liftM (Effect.setOuter this type.cls o.value)) t
      fun _ _ => True := by
    refine carries_changeHeap fault fun u hu => ?_
    obtain ⟨h, ok, rfl⟩ := Effect.run_setOuter.1 hu
    obtain ⟨rel, inv⟩ := records t.memory o.value h ready'.inv (step.addr g.lawful ha) ho ok
    exact ⟨⟨⟨.of_setOuter ok, fun _ _ _ h => h⟩, fun _ h => h, rel, inv⟩, rfl⟩
  refine .bind g ready' recorded fun _ u step' ready'' _ => .pure g ready'' fun call hcall => ?_
  obtain ⟨f, hf, rfl⟩ := Option.map_eq_some_iff.1 hcall
  refine ⟨hctor _ f ?_, fun arg harg => ?_⟩
  · split at hf
    · exact hf
    · cases hf
  · obtain ⟨B, hB⟩ := hargs arg harg
    exact ⟨B, (step.trans g.lawful step').fits g.lawful hB⟩

section Template

variable {template : Template} {superClass : Parent} {listed : List Parent}

theorem Builds.records (builds : R.Builds c this) (ht : (p.cls c).template = some template)
    (hp : template.parents = superClass :: listed) {d : ClassId}
    (hd : d = superClass.type.cls ∨ d ∈ p.mixins c superClass.type.cls) : R.Records this d :=
  fun m v h => builds.outer m template superClass d v h ht (by rw [hp]; rfl) hd

theorem Builds.carries_prepareListed (builds : R.Builds c this) (g : R.Governs C)
    (fault : ∀ f, C.fault f) (ready : R.Ready s) (serves : R.Serves C s k) (hk : 5 < k)
    (ha : R.addr s.memory this) (ht : (p.cls c).template = some template) {parent : Parent}
    (hparent : parent ∈ template.parents) (records : R.Records this parent.type.cls) :
    R.Carries C (prepareListed p c this parent) s fun r m => R.Waits m this r := by
  refine .bind g ready (carries_evalArguments g ready serves (by omega)
    (builds.arg s.memory template ht parent hparent ha)) fun r t step ready' hr => ?_
  exact .bind g ready' (carries_prepareParent g fault ready' (serves.step g.lawful step) hk
    (step.addr g.lawful ha) records (builds.path template ht parent hparent)
    (fun m f hf => builds.listed m template ht parent hparent f hf) hr.2)
      fun _ _ _ ready'' h => .pure g ready'' h

theorem Builds.carries_prepareMixin (builds : R.Builds c this) (g : R.Governs C)
    (fault : ∀ f, C.fault f) (ready : R.Ready s) (serves : R.Serves C s k) (hk : 5 < k)
    (ha : R.addr s.memory this) (ht : (p.cls c).template = some template)
    (hp : template.parents = superClass :: listed) {d : ClassId}
    (hd : d ∈ p.mixins c superClass.type.cls) :
    R.Carries C (prepareMixin p c this superClass listed d) s fun r m => R.Waits m this r := by
  have records := builds.records ht hp (.inr hd)
  unfold prepareMixin
  split
  · next parent hfind =>
    have hcls : parent.type.cls = d := by simpa using List.find?_some hfind
    refine builds.carries_prepareListed g fault ready serves hk ha ht ?_ (hcls ▸ records)
    rw [hp]
    exact List.mem_cons_of_mem _ (List.mem_of_find?_eq_some hfind)
  · refine carries_prepareParent g fault ready serves hk ha records
      (fun x hx => absurd hx List.not_mem_nil) (fun m f hf => ?_)
      fun arg harg => absurd harg List.not_mem_nil
    exact builds.mixin m template superClass ht (by rw [hp]; rfl) d hd f hf

theorem Builds.carries_initParents (builds : R.Builds c this) (g : R.Governs C)
    (fault : ∀ f, C.fault f) (ready : R.Ready s) (serves : R.Serves C s k) (hk : 7 < k)
    (ha : R.addr s.memory this) (ht : (p.cls c).template = some template) :
    R.Carries C (initParents p c this template.parents) s fun _ _ => True := by
  cases hp : template.parents with
  | nil => exact .pure g ready trivial
  | cons superClass listed =>
    have hfirst : superClass ∈ template.parents := by
      rw [hp]
      exact List.mem_cons_self
    refine .bind g ready (builds.carries_prepareListed g fault ready serves (by omega) ha ht hfirst
      (builds.records ht hp (.inl rfl))) fun first t step ready' hwaits => ?_
    have mixins : R.Carries C
        ((p.mixins c superClass.type.cls).mapM (prepareMixin p c this superClass listed)) t
        fun rs m => rs.length = (p.mixins c superClass.type.cls).length ∧
          ∀ r ∈ rs, R.Waits m this r := by
      refine .mapM g ready' (fun r m m' ext rel h => h.mono g.lawful ext rel)
        fun d hd u step' ready'' => ?_
      have step'' := step.trans g.lawful step'
      exact builds.carries_prepareMixin g fault ready'' (serves.step g.lawful step'') (by omega)
        (step''.addr g.lawful ha) ht hp hd
    refine .bind g ready' mixins fun rs u step' ready'' hrs => ?_
    have prepared : ∀ r ∈ first :: rs, R.Waits u.memory this r := by
      intro r hr
      rcases List.mem_cons.1 hr with rfl | hr
      · exact hwaits.mono g.lawful step'.memory step'.rel
      · exact hrs.2 r hr
    refine .bind g ready'' (.errorsOfEach g ready'' fun call hcall v step'' ready₃ => ?_)
      fun _ _ _ ready₃ _ => .pure g ready₃ trivial
    obtain ⟨r, hr, hsome⟩ := List.mem_filterMap.1 hcall
    have whole := (step.trans g.lawful step').trans g.lawful step''
    obtain ⟨hctor, hargs⟩ :=
      (prepared r hr).mono g.lawful step''.memory step''.rel call hsome
    refine .bind g ready₃ (.ask g ready₃ (serves.step g.lawful whole) hk
      ⟨⟨0, .ref (whole.addr g.lawful ha)⟩, ?_, hargs⟩ (by simp [Query.kind])) fun _ _ _ ready₄ _ =>
        .pure g ready₄ trivial
    rintro a ⟨⟩
    exact hctor

/-! ## Templates -/

/-- The object is constructed by the template, if its statements may be run. -/
theorem Builds.carries_template (builds : R.Builds c this) (g : R.Governs C)
    (fault : ∀ f, C.fault f) (ready : R.Ready s) (serves : R.Serves C s k) (hk : 7 < k)
    (ha : R.addr s.memory this)
    (body : ∀ t, R.Step s t → R.Ready t → R.RunsStats t.memory c this →
      R.Carries C (liftM (Query.body c this)) t fun _ _ => True) :
    R.Carries C (Plan.template p c this) s fun o m => R.Fits m 0 o.value := by
  unfold Plan.template
  split
  · next template ht =>
    refine .bind g ready (builds.field.carries_setParams g fault ready ha)
      fun _ t step ready' stored => ?_
    have stats := builds.stat t.memory stored
    have rest {u : Store} (ofParents : List SafetyError) (step' : R.Step t u) (ready' : R.Ready u) :
        R.Carries C (do
          let ofBody ← Query.body c this
          return ⟨.ref this, ofParents ++ ofBody⟩ : Plan Outcome) u fun o m => R.Fits m 0 o.value :=
      .bind g ready' (body u (step.trans g.lawful step') ready' (stats.step g.lawful step'))
        fun _ v step'' ready'' _ => .pure g ready''
          (.ref ((step.trans g.lawful (step'.trans g.lawful step'')).addr g.lawful ha))
    dsimp only
    split
    · have none : R.Carries C (Pure.pure [] : Plan (List SafetyError)) t fun _ _ => True :=
        .pure g ready' trivial
      exact .bind g ready' none fun es u step' ready'' _ => rest es step' ready''
    · exact .bind g ready' (builds.carries_initParents g fault ready' (serves.step g.lawful step) hk
        (step.addr g.lawful ha) ht) fun es u step' ready'' _ =>
          rest es step' ready''
  · exact .pure g ready (.ref ha)

theorem Stores.carries_stat (stores : R.Stores this) (g : R.Governs C) (fault : ∀ f, C.fault f)
    (ready : R.Ready s) (serves : R.Serves C s k) (hk : 2 < k) (ha : R.addr s.memory this)
    {e : ExprId} (code : R.code s.memory e ⟨this, c⟩) :
    R.Carries C (Plan.stat p c this e) s fun _ _ => True := by
  unfold Plan.stat
  split
  · next f node =>
    split
    · exact .pure g ready trivial
    have set {t : Store} {o : Outcome} (ready' : R.Ready t) (ha' : R.addr t.memory this)
        (ho : R.Fits t.memory 0 o.value) :
        R.Carries C (do Effect.setField this f o.value; return o.errors : Plan _) t
          fun _ _ => True :=
      .bind g ready' (stores.carries_setField fault ready' ha' ho) fun _ _ _ ready'' _ =>
        .pure g ready'' trivial
    split
    · next e' he' =>
      have body := g.lawful.valDef _ e ⟨this, c⟩ f e' (g.lawful.body_of_code _ e _ code) node he'
      exact .bind g ready (carries_askBody g ready serves hk ha body)
        fun o t step ready' ho => set ready' (step.addr g.lawful ha) ho
    · have missing : R.Carries C (Pure.pure .hot : Plan Outcome) s fun o m => R.Fits m 0 o.value :=
        .pure g ready .hot
      exact .bind g ready missing fun o t step ready' ho => set ready' (step.addr g.lawful ha) ho
  · exact .pure g ready trivial
  · exact .pure g ready trivial
  · exact .bind g ready (carries_askEval g ready serves hk ha code) fun _ _ _ ready' _ =>
      .pure g ready' trivial

theorem Stores.carries_body (stores : R.Stores this) (stats : R.RunsStats s.memory c this)
    (g : R.Governs C) (fault : ∀ f, C.fault f) (ready : R.Ready s) (serves : R.Serves C s k)
    (hk : 2 < k) (ha : R.addr s.memory this) :
    R.Carries C (Plan.body p c this) s fun _ _ => True := by
  unfold Plan.body
  split
  · next template ht =>
    exact .errorsOfEach g ready fun e he t step ready' =>
      stores.carries_stat g fault ready' (serves.step g.lawful step) hk (step.addr g.lawful ha)
        ((stats.step g.lawful step) template ht e he)
  · exact .pure g ready trivial

end Template

/-! ## Contracts for constructions -/

/-- The templates of some classes may run on some objects. -/
def construction (R : Regime p) (may : ClassId → Addr → Prop) : Contract where
  pre q s := match q with
    | .template c this => R.Ready s ∧ R.addr s.memory this ∧ may c this
    | .body c this =>
      R.Ready s ∧ R.addr s.memory this ∧ may c this ∧ R.RunsStats s.memory c this
    | _ => False
  post q s b t := R.rel s.memory t.memory ∧ R.inv t.memory ∧
    match q, b with
    | .template .., o => R.Fits t.memory 0 o.value
    | _, _ => True
  fault _ := True

/-- The contract under which an analysis keeps to the regime and runs these templates. -/
def building (R : Regime p) (may : ClassId → Addr → Prop) : Contract :=
  R.contract (R.construction may)

variable {may : ClassId → Addr → Prop}

variable {allowed : {β : Type} → Query β → Store → Prop}

theorem building_pre {β : Type} {q : Query β} (general : q.kind < 9) :
    (R.building may).pre q s ↔ R.Ready s ∧ R.Admits s.memory q :=
  contract_pre general

/-- The questions below a kind may be asked that are allowed. -/
theorem serves_building (hk : k ≤ 9)
    (h : ∀ {β : Type} (q : Query β) t, R.Step s t → q.kind < k → allowed q t) :
    R.Serves ((R.building may).only allowed) s k :=
  serves_contract hk h

theorem servesParts_building {γ : Type} {q : Query γ}
    (h : ∀ {β : Type} (r : Query β) t, R.Step s t → q.Part p t r → allowed r t) :
    R.ServesParts ((R.building may).only allowed) s q := by
  refine ⟨fun r t step part ready admits => ⟨(building_pre ?_).2 ⟨ready, admits⟩, h r t step part⟩⟩
  cases part <;> simp [Query.kind]

/-- A question about a template that is allowed. -/
theorem carries_askConstruction {β : Type} {q : Query β} (large : 9 ≤ q.kind)
    (pre : (R.construction may).pre q s) (asked : allowed q s) :
    (liftM q : Plan β).Obeys p ((R.building may).only allowed) s fun b t =>
      R.Step s t ∧ t.env = s.env ∧ (R.construction may).post q s b t := by
  refine Plan.obeys_ask.2 ⟨⟨(contract_pre_of_le large).2 pre, asked⟩, fun b t ⟨n, ends⟩ hpost => ?_⟩
  have post : (R.construction may).post q s b t :=
    (contract_post_of_le large).1 hpost
  exact ⟨⟨ends.keeps.memory, ends.keeps.trusted, post.1, post.2.1⟩, ends.env, post⟩

theorem carries_askTemplate (ready : R.Ready s) (ha : R.addr s.memory this)
    (hmay : may c this) (asked : allowed (.template c this) s) :
    R.Carries ((R.building may).only allowed) (liftM (Query.template c this)) s
      fun o m => R.Fits m 0 o.value :=
  Plan.Obeys.imp (carries_askConstruction (by simp [Query.kind]) ⟨ready, ha, hmay⟩ asked)
    fun _ _ h => ⟨h.1, h.2.1, h.2.2.2.2⟩

theorem carries_askTemplateBody (ready : R.Ready s) (ha : R.addr s.memory this)
    (hmay : may c this) (stats : R.RunsStats s.memory c this) (asked : allowed (.body c this) s) :
    R.Carries ((R.building may).only allowed) (liftM (Query.body c this)) s fun _ _ => True :=
  Plan.Obeys.imp (carries_askConstruction (by simp [Query.kind]) ⟨ready, ha, hmay, stats⟩ asked)
    fun _ _ h => ⟨h.1, h.2.1, trivial⟩

/-- The contract of a lawful regime is kept, templates included. -/
theorem Lawful.building_kept (lawful : R.Lawful) (builds : ∀ c this, may c this → R.Builds c this)
    {smaller : {γ : Type} → Query γ → Store → {β : Type} → Query β → Store → Prop}
    (nests : ∀ {β : Type} (q : Query β) s, q.kind < 9 → R.Ready s → R.Admits s.memory q →
      R.Nests ((R.building may).only (smaller q s)) s q)
    (less : ∀ {β γ : Type} (q : Query γ) s (r : Query β) t, 9 ≤ q.kind → R.Step s t →
      r.kind < q.kind → smaller q s r t) : (R.building may).Kept p smaller := by
  refine lawful.kept nests fun q s large pre => ?_
  have serves : R.Serves ((R.building may).only (smaller q s)) s 9 :=
    serves_building (Nat.le_refl 9) fun r t step hr =>
      less q s r t large step (Nat.lt_of_lt_of_le hr large)
  cases q with
  | template c this =>
    obtain ⟨ready, ha, hmay⟩ := pre
    refine Plan.Obeys.imp ((builds c this hmay).carries_template lawful.governs (fun _ => trivial)
      ready serves (by decide) ha fun t step ready' stats => ?_)
      fun o t h => ⟨h.1.rel, h.1.inv, h.2.2⟩
    exact carries_askTemplateBody ready' (step.addr lawful ha) hmay stats
      (less _ s _ t large step (by simp [Query.kind]))
  | body c this =>
    obtain ⟨ready, ha, hmay, stats⟩ := pre
    exact Plan.Obeys.imp ((builds c this hmay).field.carries_body stats lawful.governs
      (fun _ => trivial) ready serves (by decide) ha) fun o t h => ⟨h.1.rel, h.1.inv, trivial⟩
  | check => exact pre.elim
  | _ => exact absurd large (by simp [Query.kind])

/-- Where every template may run, all questions may lead to all others. -/
theorem Lawful.free_kept (lawful : R.Lawful) (builds : ∀ c this, R.Builds c this) :
    (R.building fun _ _ => True).Kept p Query.Free := by
  intro γ r u pre
  refine lawful.building_kept (fun c this _ => builds c this)
    (fun q s general ready admits => lawful.nests general ?_) (fun _ _ _ _ _ _ _ => trivial) r u pre
  cases q with
  | eval e frame final =>
    refine fun d node => carries_eval_template lawful.governs ready admits node
      fun miss t entered _ ready' => ?_
    obtain ⟨rel, -⟩ := lawful.enter s.memory e frame ready.inv admits.1 admits.2.1 miss
    have receiver : R.addr t.memory frame.receiver := by
      rw [entered]
      exact lawful.addr_mono _ _ _ (Memory.extends_enter (m := s.memory) miss) rel admits.1
    exact (carries_askTemplate ready' receiver trivial trivial).imp fun _ _ _ ho =>
      ho.of_zero lawful
  | _ => trivial

/-! ## The construction that is checked -/

/-- The check allocates the object under construction and runs its constructor, if there is one. -/
theorem Lawful.obeys_check (lawful : R.Lawful) {rest : Contract}
    (body : ∀ m ctor e, (p.cls c).primaryConstructor = some ctor → (p.symbol ctor).body = some e →
      R.body m e ⟨.thisOf c, c⟩)
    (allocated : (p.cls c).primaryConstructor.isSome → ∀ h,
      Store.initial.heap.allocate (.thisOf c) (.new c [(c, .hot)]) = .ok h →
        R.inv { Store.initial.memory with heap := h } ∧
          R.addr { Store.initial.memory with heap := h } (.thisOf c)) :
    (Plan.check p c).Obeys p ((R.contract rest).only fun _ _ => True) .initial fun _ _ => True := by
  unfold Plan.check
  split
  · next ctor hctor =>
    split
    · next e he =>
      have empty : Store.initial.heap.contains (.thisOf c) = false := by
        simp [Store.initial, Heap.contains, Heap.read]
      rw [Plan.obeys_look_bind, empty]
      refine Plan.obeys_bind.2 (Plan.obeys_perform.2 ⟨fun fault hfault => ?_, fun _ t ht => ?_⟩)
      · -- There is no object yet, so the allocation is not refused.
        change (Run.changeHeap (·.allocate (.thisOf c) (.new c [(c, .hot)]))).run _ = _ at hfault
        simp only [Run.changeHeap, StateT.run, Heap.allocate, empty] at hfault
        cases hfault
      obtain ⟨h, ok, rfl⟩ := Effect.run_allocate.1 ht
      obtain ⟨inv, ha⟩ := allocated (by rw [hctor]; rfl) h ok
      have ready : R.Ready { Store.initial with heap := h } := ⟨inv, .empty⟩
      have run (trace : Trace) : R.Carries ((R.contract rest).only fun _ _ => True)
          (liftM (Query.eval e ⟨.thisOf c, c⟩ true))
          { Store.initial with
            heap := h, env := .ofList ((p.symbol ctor).params.map (·, .hot)), trace := trace }
          fun _ _ => True :=
        Carries.ignore <| carries_askBody lawful.governs
          ((ready.inEnv (FitsEnv.ofList fits_hotParams)).inTrace trace)
          (serves_contract (Nat.le_refl 9) fun _ _ _ _ => trivial) (by decide) ha
          (body _ ctor e hctor he)
      have errors : R.Carries ((R.contract rest).only fun _ _ => True) (do
          let o ← Plan.inEnv (.ofList ((p.symbol ctor).params.map (·, .hot)))
            (Plan.calledFrom (p.cls c).span (Query.eval e ⟨.thisOf c, c⟩ true))
          return o.errors) { Store.initial with heap := h } fun _ _ => True :=
        .bind lawful.governs ready (.inEnv (.calledFrom (run _))) fun _ _ _ ready' _ =>
          .pure lawful.governs ready' trivial
      exact Plan.Obeys.imp errors fun _ _ _ => trivial
    · trivial
  · trivial

end Regime

end ObjectInit
