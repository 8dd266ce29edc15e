import ObjectInit.Proofs.Reuse

/-!
# Evaluation without a cache

`Plan.Yields` carries out a plan on a store that never changes: every expression is evaluated each
time anew, apart from those whose value is known at the start, promotions succeed, and the objects
that are created and the fields that are set are there already. The answer is determined by the plan
and the environment.

An analysis that uses a cache finds the same answers if it finds no errors, if its heap never gets
beyond that of the store and no place in the heap is looked at too early, and where each expression
has one meaning: it is evaluated on an object in one class and one environment, and never while it
is in progress, or its value is hot in any case.

Main results:

* `Plan.Yields.unique`: the answer without a cache is determined.
* `Query.Ends.yields`: the answer with a cache is the same.
-/

namespace ObjectInit

variable {p : Program} {n : Nat} {α β γ : Type} {s s' t : Store}

/-! ## Plans on a store that stays -/

/-- What the effect tells in a store where all its changes are made already. -/
def Effect.Recalls (s : Store) {β : Type} : Effect β → β → Prop
  | .look, t => t = s
  | .raise error source, e => e = error ⟨source, s.trace.toList⟩
  | .warmOf creation, w => w = (s.heap.warmOf creation).1
  | .creationOf w, creation => s.heap.creation? w = some creation
  | .allocate .., _ | .setField .., _ | .setOuter .., _ | .report _, _ | .trust _, _ => True

theorem Effect.Recalls.unique {effect : Effect β} {b b' : β} (h : effect.Recalls s b)
    (h' : effect.Recalls s b') : b = b' := by
  cases effect with
  | look | raise | warmOf => exact Eq.trans h h'.symm
  | creationOf => exact Option.some.inj (Eq.trans (Eq.symm h) h')
  | _ => rfl

/-- An effect that only depends on the heap tells the same in a later heap. -/
theorem Effect.recalls_of_run {effect : Effect β} (plain : effect.observes = false) {b : β}
    (h : effect.run.run s = .ok (b, s')) (later : s'.heap.Extends t.heap) :
    effect.Recalls t b := by
  cases effect with
  | look | raise | trust => cases plain
  | warmOf creation =>
    cases h
    have known := later.creation _ _ (Heap.creation?_warmOf s.heap creation)
    exact (congrArg Prod.fst (Heap.warmOf_of_creation? known rfl)).symm
  | creationOf w =>
    obtain ⟨known, rfl⟩ := run_creationOf.1 h
    exact later.creation w b known
  | _ => trivial

/-- The answer is known without further questions: the value is in the cache or taken to be hot, or
    a promotion is taken to succeed. -/
def Query.Known (s₀ : Store) (hot : Cache.Key → Prop) : Query β → β → Prop
  | .eval e frame _, o =>
    (∃ v, s₀.cache.find? frame.receiver e = some v ∧ o = .ofValue v) ∨
      (s₀.cache.find? frame.receiver e = none ∧ hot ⟨frame.receiver, e⟩ ∧ o = .hot)
  | .promote .., es => es = []
  | _, _ => False

/-- The plan of a question whose answer is not known. -/
def Query.uncached (p : Program) : Query β → Plan β
  | .eval e frame _ => Plan.node p e frame
  | q => q.plan p

/-- On the store `s₀`, in the environment, the plan has the answer. Expressions with one of the keys
    in `hot` are taken to be hot. -/
inductive Plan.Yields (p : Program) (s₀ : Store) (hot : Cache.Key → Prop) :
    {α : Type} → Env → Plan α → α → Prop where
  | pure {α : Type} {env : Env} (a : α) : Yields p s₀ hot env (.pure a) a
  | known {α β : Type} {env : Env} {q : Query β} {next : β → Plan α} {b : β} {a : α}
    (known : q.Known s₀ hot b) (hnext : Yields p s₀ hot env (next b) a) :
    Yields p s₀ hot env (.ask q next) a
  | ask {α β : Type} {env : Env} {q : Query β} {next : β → Plan α} {b : β} {a : α}
    (unknown : ∀ b, ¬q.Known s₀ hot b) (hplan : Yields p s₀ hot env (q.uncached p) b)
    (hnext : Yields p s₀ hot env (next b) a) : Yields p s₀ hot env (.ask q next) a
  | perform {α β : Type} {env : Env} {effect : Effect β} {next : β → Plan α} {b : β} {a : α}
    (recalls : effect.Recalls { s₀ with env } b) (hnext : Yields p s₀ hot env (next b) a) :
    Yields p s₀ hot env (.perform effect next) a
  | env {α β : Type} {env env' : Env} {part : Plan β} {next : β → Plan α} {b : β} {a : α}
    (hpart : Yields p s₀ hot env' part b) (hnext : Yields p s₀ hot env (next b) a) :
    Yields p s₀ hot env (.within (.env env') part next) a
  | trace {α β : Type} {env : Env} {trace : Trace} {part : Plan β} {next : β → Plan α} {b : β}
    {a : α} (hpart : Yields p s₀ hot env part b) (hnext : Yields p s₀ hot env (next b) a) :
    Yields p s₀ hot env (.within (.trace trace) part next) a

variable {s₀ : Store} {hot : Cache.Key → Prop} {env : Env}

/-- At most one answer is known. -/
theorem Query.Known.unique {q : Query β} {b b' : β} (h : q.Known s₀ hot b)
    (h' : q.Known s₀ hot b') : b = b' := by
  cases q with
  | eval e frame final =>
    rcases h with ⟨v, hit, rfl⟩ | ⟨miss, -, rfl⟩ <;>
      rcases h' with ⟨v', hit', rfl⟩ | ⟨miss', -, rfl⟩
    · cases hit.symm.trans hit'
      rfl
    · cases hit.symm.trans miss'
    · cases hit'.symm.trans miss
    · rfl
  | promote => exact Eq.trans h h'.symm
  | _ => cases h

section Others

variable {q q' : Query β}

theorem Query.evaluation_eq_nil (h : q.remembers = false) : q.evaluation = [] := by
  cases q with
  | eval => cases h
  | _ => rfl

theorem Query.uncached_eq (h : q.remembers = false) : q.uncached p = q.plan p := by
  cases q with
  | eval => cases h
  | _ => rfl

theorem Query.not_known (h : q.remembers = false) (b : β) : ¬q.Known s₀ hot b := by
  cases q with
  | eval | promote => cases h
  | _ => exact id

theorem Query.Alike.remembers_eq (h : q.Alike q') : q.remembers = q'.remembers := by
  cases h <;> rfl

end Others

namespace Plan.Yields

/-- The answer without a cache is determined. -/
theorem unique {x : Plan α} {a a' : α} (h : Yields p s₀ hot env x a)
    (h' : Yields p s₀ hot env x a') : a = a' := by
  induction h with
  | pure a =>
    cases h'
    rfl
  | known known _ ih =>
    cases h' with
    | known known' hnext =>
      cases known.unique known'
      exact ih hnext
    | ask unknown => exact absurd known (unknown _)
  | ask unknown _ _ ihPlan ih =>
    cases h' with
    | known known => exact absurd known (unknown _)
    | ask _ hplan hnext =>
      cases ihPlan hplan
      exact ih hnext
  | perform recalls _ ih =>
    cases h' with
    | perform recalls' hnext =>
      cases recalls.unique recalls'
      exact ih hnext
  | env _ _ ihPart ih =>
    cases h' with
    | env hpart hnext =>
      cases ihPart hpart
      exact ih hnext
  | trace _ _ ihPart ih =>
    cases h' with
    | trace hpart hnext =>
      cases ihPart hpart
      exact ih hnext

/-- A plan goes on with what a question yields. -/
theorem ask_next {q : Query β} {next : β → Plan α} {b : β} {a : α}
    (h : Yields p s₀ hot env (.ask q .pure) b) (hnext : Yields p s₀ hot env (next b) a) :
    Yields p s₀ hot env (.ask q next) a := by
  cases h with
  | known known h =>
    cases h
    exact .known known hnext
  | ask unknown hplan h =>
    cases h
    exact .ask unknown hplan hnext

/-- What goes on with what a plan yields. -/
theorem bind {x : Plan β} {f : β → Plan α} {b : β} {a : α} (h : Yields p s₀ hot env x b)
    (hf : Yields p s₀ hot env (f b) a) : Yields p s₀ hot env (x >>= f) a := by
  induction h with
  | pure => exact hf
  | known known _ ih => exact .known known (ih hf)
  | ask unknown hplan _ _ ih => exact .ask unknown hplan (ih hf)
  | perform recalls _ ih => exact .perform recalls (ih hf)
  | env hpart _ _ ih => exact .env hpart (ih hf)
  | trace hpart _ _ ih => exact .trace hpart (ih hf)

theorem look_bind {f : Store → Plan α} {a : α} (h : Yields p s₀ hot env (f { s₀ with env }) a) :
    Yields p s₀ hot env ((liftM Effect.look : Plan Store) >>= f) a :=
  .perform rfl h

end Plan.Yields

/-! ## Expressions with one meaning -/

/-- On the way from one of the starting points the question is asked, while the evaluations in
    `active` are in progress. -/
def Query.OnWay (p : Program) (starts : List (Query Outcome × Store)) (active : List Cache.Key)
    (q : Query γ) (t : Store) : Prop :=
  ∃ r ∈ starts, r.1.Way p r.2 active q t

namespace Cache.Key

variable (p : Program) (starts : List (Query Outcome × Store)) (key : Cache.Key)

/-- Whenever the expression is evaluated on the object, its value is hot. -/
def AlwaysHot : Prop :=
  ∀ active c final t o t',
    Query.OnWay p starts active (.eval key.expr ⟨key.receiver, c⟩ final) t →
    (Query.eval key.expr ⟨key.receiver, c⟩ final).Answered p t o t' → o.value = .hot

/-- The expression is always evaluated on the object in the same class and the same environment, and
    never while it is evaluated there already. -/
def AlwaysSame : Prop :=
  ∃ c env, ∀ active c' final t,
    Query.OnWay p starts active (.eval key.expr ⟨key.receiver, c'⟩ final) t →
      c' = c ∧ t.env = env ∧ key ∉ active

end Cache.Key

/-- No question on the way finds errors. -/
def Query.Quiet (p : Program) (starts : List (Query Outcome × Store)) : Prop :=
  ∀ {γ : Type} (active : List Cache.Key) (q : Query γ) (t : Store) (b : γ) (t' : Store),
    q.OnWay p starts active t → q.Answered p t b t' → q.Clean b

/-- On the way, no field and no outer is looked at that is missing then, but not in the heap `H`. -/
def Query.Timely (p : Program) (H : Heap) (starts : List (Query Outcome × Store)) : Prop :=
  ∀ {γ : Type} (active : List Cache.Key) (q : Query γ) (t : Store), q.OnWay p starts active t →
    q.FindsSame p t.heap H

/-- Apart from the keys that have a value in `s₀`, every expression has one meaning. -/
def Store.Settled (p : Program) (s₀ : Store) (starts : List (Query Outcome × Store)) : Prop :=
  ∀ key : Cache.Key, s₀.cache.find? key.receiver key.expr = none →
    key.AlwaysHot p starts ∨ key.AlwaysSame p starts

theorem Heap.Extends.field?_between {h h' H : Heap} (ext : h.Extends h') (later : h'.Extends H)
    {a : Addr} {f : SymbolId} (same : h.field? a f = H.field? a f) :
    h'.field? a f = H.field? a f := by
  cases present : h.field? a f with
  | some v => rw [ext.field present, ← same, present]
  | none =>
    rw [same] at present
    rw [later.absent present, present]

theorem Heap.Extends.outer?_between {h h' H : Heap} (ext : h.Extends h') (later : h'.Extends H)
    {a : Addr} {c : ClassId} (same : h.outer? a c = H.outer? a c) :
    h'.outer? a c = H.outer? a c := by
  cases present : h'.outer? a c with
  | some v => exact (later.outer present).symm
  | none =>
    cases before : h.outer? a c with
    | some v =>
      rw [ext.outer before] at present
      cases present
    | none => rw [← same, before]

/-- What is the same in a heap is the same in all heaps in between. -/
theorem Query.FindsSame.between {q : Query β} {h h' H : Heap} (same : q.FindsSame p h H)
    (ext : h.Extends h') (later : h'.Extends H) : q.FindsSame p h' H := by
  cases q with
  | select v | call v =>
    cases v with
    | ref => exact fun idle => ext.field?_between later (same idle)
    | _ => trivial
  | enclosingInstance _ v =>
    cases v with
    | ref => exact fun further inside => ext.outer?_between later (same further inside)
    | _ => trivial
  | _ => trivial

/-! ## Caches whose entries are explained -/

section Sound

variable {starts : List (Query Outcome × Store)} {active : List Cache.Key}

/-- The value is what the evaluation of the expression yields without a cache. -/
def Store.Explains (p : Program) (s₀ : Store) (starts : List (Query Outcome × Store)) (a : Addr)
    (e : ExprId) (v : Value) : Prop :=
  ∃ active c final t o, Query.OnWay p starts active (.eval e ⟨a, c⟩ final) t ∧
    Plan.Yields p s₀ (Cache.Key.AlwaysHot p starts) t.env (Plan.node p e ⟨a, c⟩) o ∧
    o = .ofValue v

/-- The cache holds what it held at the start, the placeholders of the evaluations in progress, and
    values that are explained. -/
structure Store.Sound (s : Store) (p : Program) (s₀ : Store)
    (starts : List (Query Outcome × Store)) (active : List Cache.Key) : Prop where
  kept : ∀ a e v, s₀.cache.find? a e = some v → s.cache.find? a e = some v
  entry : ∀ a e v, s.cache.find? a e = some v →
    s₀.cache.find? a e = some v ∨ ⟨a, e⟩ ∈ active ∨ s₀.Explains p starts a e v

namespace Store.Sound

theorem start : s.Sound p s starts active := ⟨fun _ _ _ h => h, fun _ _ _ h => .inl h⟩

/-- Only the cache matters. -/
theorem congr (h : s.Sound p s₀ starts active) (hcache : t.cache = s.cache) :
    t.Sound p s₀ starts active := by
  obtain ⟨kept, entry⟩ := h
  rw [← hcache] at kept entry
  exact ⟨kept, entry⟩

/-- An evaluation puts a placeholder into the cache. -/
theorem enter (h : s.Sound p s₀ starts active) {a : Addr} {e : ExprId} {final : Bool}
    (miss : s.cache.find? a e = none) :
    ((Scope.evaluation a e final).enter s).Sound p s₀ starts (⟨a, e⟩ :: active) := by
  have find (b : Addr) (g : ExprId) : ((Scope.evaluation a e final).enter s).cache.find? b g =
      if b = a ∧ g = e then some .hot else s.cache.find? b g :=
    Cache.find?_insert _ _ _ _ _ _
  constructor
  · intro b g v hv
    have kept := h.kept b g v hv
    rw [find, if_neg, kept]
    rintro ⟨rfl, rfl⟩
    rw [miss] at kept
    cases kept
  · intro b g v hv
    rw [find] at hv
    split at hv
    next same =>
      obtain ⟨rfl, rfl⟩ := same
      exact .inr (.inl List.mem_cons_self)
    next =>
      rcases h.entry b g v hv with old | inside | explained
      · exact .inl old
      · exact .inr (.inl (List.mem_cons_of_mem _ inside))
      · exact .inr (.inr explained)

/-- At the end of an evaluation its value takes the place of the placeholder, or nothing does. -/
theorem leave {a : Addr} {e : ExprId} {final : Bool} {context : Context} {o : Outcome}
    (h : t.Sound p s₀ starts (⟨a, e⟩ :: active)) (miss : s₀.cache.find? a e = none)
    (explained : s₀.Explains p starts a e o.value) :
    ((Scope.evaluation a e final).leave context o t).Sound p s₀ starts active := by
  have other {b : Addr} {g : ExprId} {v : Value} (hv : s₀.cache.find? b g = some v) :
      ¬(b = a ∧ g = e) := by
    rintro ⟨rfl, rfl⟩
    rw [miss] at hv
    cases hv
  have entry {b : Addr} {g : ExprId} {v : Value} (hne : ¬(b = a ∧ g = e))
      (hv : t.cache.find? b g = some v) :
      s₀.cache.find? b g = some v ∨ ⟨b, g⟩ ∈ active ∨ s₀.Explains p starts b g v := by
    rcases h.entry b g v hv with old | inside | explained
    · exact .inl old
    · rcases List.mem_cons.1 inside with same | inside
      · cases same
        exact absurd ⟨rfl, rfl⟩ hne
      · exact .inr (.inl inside)
    · exact .inr (.inr explained)
  cases final with
  | true =>
    have find (b : Addr) (g : ExprId) : ((Scope.evaluation a e true).leave context o t).cache.find?
        b g = if b = a ∧ g = e then some o.value else t.cache.find? b g :=
      Cache.find?_insert _ _ _ _ _ _
    refine ⟨fun b g v hv => ?_, fun b g v hv => ?_⟩
    · rw [find, if_neg (other hv), h.kept b g v hv]
    · rw [find] at hv
      split at hv
      next same =>
        obtain ⟨rfl, rfl⟩ := same
        cases hv
        exact .inr (.inr explained)
      next hne => exact entry hne hv
  | false =>
    have find (b : Addr) (g : ExprId) : ((Scope.evaluation a e false).leave context o t).cache.find?
        b g = if b = a ∧ g = e then none else t.cache.find? b g :=
      Cache.find?_erase _ _ _ _ _
    refine ⟨fun b g v hv => ?_, fun b g v hv => ?_⟩
    · rw [find, if_neg (other hv), h.kept b g v hv]
    · rw [find] at hv
      split at hv
      next => cases hv
      next hne => exact entry hne hv

end Store.Sound

/-! ## Analyses on the way to a heap -/

/-- With questions nested up to the depth `n`, every question on the way is answered as it is
    without a cache, if the heap of `s₀` is a later one. -/
def SoundUpTo (p : Program) (s₀ : Store) (starts : List (Query Outcome × Store)) (n : Nat) : Prop :=
  ∀ {β : Type} {q q' : Query β} {active : List Cache.Key} {s s' : Store} {b : β}, q.Alike q' →
    q.Ends p n s b s' → q.OnWay p starts active s → s.Sound p s₀ starts active →
    s'.heap.Extends s₀.heap →
    s'.Sound p s₀ starts active ∧
      ∃ b', (Plan.ask q' .pure).Yields p s₀ (Cache.Key.AlwaysHot p starts) s.env b' ∧
        q.AnswersAlike b b'

/-- A plan that puts nothing into the cache itself keeps its entries explained. -/
theorem Plan.Alike.sound {R : α → α → Prop} {x x' : Plan α} (alike : Plan.Alike true Eq R x x')
    (hq : SoundUpTo p s₀ starts n) {a : α} (h : x.Ends p n s a s')
    (ways : ∀ {γ : Type} (q : Query γ) t, x.Asks p s q t → q.OnWay p starts active t)
    (sound : s.Sound p s₀ starts active) (later : s'.heap.Extends s₀.heap) :
    s'.Sound p s₀ starts active := by
  induction alike generalizing s s' with
  | pure =>
    obtain ⟨rfl, rfl⟩ := Plan.ends_pure.1 h
    exact sound
  | ask hqq _ ih =>
    obtain ⟨b, t, hb, h⟩ := Plan.ends_ask_next.1 h
    have soundt := (hq hqq hb (ways _ s .here) sound ((Plan.ends_extends h).trans later)).1
    exact ih b b (Query.AnswersAlike.refl _ b) h (fun q u hu => ways q u (.afterAsk hb hu)) soundt
      later
  | look _ ih =>
    obtain ⟨b, t, hb, h⟩ := Plan.ends_perform_next.1 h
    exact ih b b rfl rfl h (fun q u hu => ways q u (.afterEffect hb hu))
      (sound.congr (Effect.run_frame hb).2) later
  | raise _ ih =>
    obtain ⟨b, t, hb, h⟩ := Plan.ends_perform_next.1 h
    exact ih b b h (fun q u hu => ways q u (.afterEffect hb hu))
      (sound.congr (Effect.run_frame hb).2) later
  | perform _ _ _ _ ih =>
    obtain ⟨b, t, hb, h⟩ := Plan.ends_perform_next.1 h
    exact ih b h (fun q u hu => ways q u (.afterEffect hb hu))
      (sound.congr (Effect.run_frame hb).2) later
  | env _ hpart _ ihPart ih | trace _ _ hpart _ ihPart ih =>
    obtain ⟨b, t, hend, h⟩ := Plan.ends_within.1 h
    have after := Plan.ends_extends h
    rw [Scope.heap_leave] at after
    obtain ⟨b', hS⟩ := hpart.exists_answer hend
    have soundt := ihPart hend (fun q u hu => ways q u (.inside hu)) (sound.congr rfl)
      (after.trans later)
    exact ih b b' hS h (fun q u hu => ways q u (.afterScope hend hu)) (soundt.congr rfl) later

/-- A plan whose questions are answered as they are without a cache has the answer that it has
    without one, as far as traces do not matter. -/
theorem Plan.Alike.yields {agree : Heap → Heap → Prop} {R : α → α → Prop} {x x' : Plan α}
    (alike : Plan.Alike true agree R x x') (hq : SoundUpTo p s₀ starts n) {a : α}
    (h : x.Ends p n s a s')
    (ways : ∀ {γ : Type} (q : Query γ) t, x.Asks p s q t → q.OnWay p starts active t)
    (agrees : ∀ h, s.heap.Extends h → h.Extends s₀.heap → agree h s₀.heap)
    (sound : s.Sound p s₀ starts active) (later : s'.heap.Extends s₀.heap) :
    s'.Sound p s₀ starts active ∧
      ∃ a', x'.Yields p s₀ (Cache.Key.AlwaysHot p starts) s.env a' ∧ R a a' := by
  induction alike generalizing s s' with
  | pure hR =>
    obtain ⟨rfl, rfl⟩ := Plan.ends_pure.1 h
    exact ⟨sound, _, .pure _, hR⟩
  | ask hqq _ ih =>
    obtain ⟨b, t, hb, h⟩ := Plan.ends_ask_next.1 h
    obtain ⟨soundt, b', hb', hbb⟩ :=
      hq hqq hb (ways _ s .here) sound ((Plan.ends_extends h).trans later)
    obtain ⟨sound', a', ha', hR⟩ := ih b b' hbb h (fun q u hu => ways q u (.afterAsk hb hu))
      (fun H ext => agrees H (hb.keeps.heap.trans ext)) soundt later
    rw [hb.env] at ha'
    exact ⟨sound', a', hb'.ask_next ha', hR⟩
  | look _ ih =>
    obtain ⟨b, t, hb, h⟩ := Plan.ends_perform_next.1 h
    have ways' {γ : Type} (q : Query γ) (u : Store) := fun hu => ways q u (.afterEffect hb hu)
    cases hb
    have seen := agrees s.heap (.refl _) ((Plan.ends_extends h).trans later)
    obtain ⟨sound', a', ha', hR⟩ :=
      ih s { s₀ with env := s.env } rfl seen h ways' agrees sound later
    exact ⟨sound', a', .perform rfl ha', hR⟩
  | raise _ ih =>
    obtain ⟨b, t, hb, h⟩ := Plan.ends_perform_next.1 h
    have ways' {γ : Type} (q : Query γ) (u : Store) := fun hu => ways q u (.afterEffect hb hu)
    cases hb
    obtain ⟨sound', a', ha', hR⟩ := ih _ _ h ways' agrees sound later
    exact ⟨sound', a', .perform rfl ha', hR⟩
  | perform effect plain _ _ ih =>
    obtain ⟨b, t, hb, h⟩ := Plan.ends_perform_next.1 h
    obtain ⟨henv, hcache⟩ := Effect.run_frame hb
    obtain ⟨sound', a', ha', hR⟩ := ih b h (fun q u hu => ways q u (.afterEffect hb hu))
      (fun H ext => agrees H ((Effect.run_extends hb).trans ext)) (sound.congr hcache) later
    rw [henv] at ha'
    have recalls := Effect.recalls_of_run (t := { s₀ with env := s.env }) plain hb
      ((Plan.ends_extends h).trans later)
    exact ⟨sound', a', .perform recalls ha', hR⟩
  | env env _ _ ihPart ih =>
    obtain ⟨b, t, hpart, h⟩ := Plan.ends_within.1 h
    have after := Plan.ends_extends h
    rw [Scope.heap_leave] at after
    obtain ⟨soundt, b', hb', hS⟩ := ihPart hpart (fun q u hu => ways q u (.inside hu)) agrees
      (sound.congr rfl) (after.trans later)
    obtain ⟨sound', a', ha', hR⟩ := ih b b' hS h (fun q u hu => ways q u (.afterScope hpart hu))
      (fun H ext => agrees H ((Plan.ends_extends hpart).trans ext)) (soundt.congr rfl) later
    exact ⟨sound', a', .env hb' ha', hR⟩
  | trace trace trace' _ _ ihPart ih =>
    obtain ⟨b, t, hpart, h⟩ := Plan.ends_within.1 h
    have after := Plan.ends_extends h
    rw [Scope.heap_leave] at after
    obtain ⟨soundt, b', hb', hS⟩ := ihPart hpart (fun q u hu => ways q u (.inside hu)) agrees
      (sound.congr rfl) (after.trans later)
    obtain ⟨sound', a', ha', hR⟩ := ih b b' hS h (fun q u hu => ways q u (.afterScope hpart hu))
      (fun H ext => agrees H ((Plan.ends_extends hpart).trans ext)) (soundt.congr rfl) later
    have henv : t.env = s.env := hpart.env
    exact ⟨sound', a', .trace hb' (henv ▸ ha'), hR⟩

/-- An evaluation whose value is in the cache is answered as it is without one. -/
theorem Query.yields_of_hit (settled : s₀.Settled p starts) {e : ExprId} {frame : Frame}
    {final : Bool} {v : Value} (way : (Query.eval e frame final).OnWay p starts active s)
    (sound : s.Sound p s₀ starts active) (hit : s.cache.find? frame.receiver e = some v) :
    (Plan.ask (.eval e frame final) .pure).Yields p s₀ (Cache.Key.AlwaysHot p starts) s.env
      (Outcome.ofValue v) := by
  cases old : s₀.cache.find? frame.receiver e with
  | some u =>
    cases (sound.kept _ _ u old).symm.trans hit
    exact .known (.inl ⟨v, old, rfl⟩) (.pure _)
  | none =>
    by_cases hot : Cache.Key.AlwaysHot p starts ⟨frame.receiver, e⟩
    · have answered : (Query.eval e frame final).Answered p s (.ofValue v) s :=
        ⟨1, Query.eval_of_kept hit⟩
      have value : v = .hot := hot active frame.cls final s _ s way answered
      subst value
      exact .known (.inr ⟨old, hot, rfl⟩) (.pure _)
    · obtain ⟨c, env, same⟩ := (settled ⟨frame.receiver, e⟩ old).resolve_left hot
      obtain ⟨hc, henv, idle⟩ := same active frame.cls final s way
      rcases sound.entry _ _ v hit with kept | inside | explained
      · cases old.symm.trans kept
      · exact absurd inside idle
      · obtain ⟨active', c', final', t, o, way', hnode, rfl⟩ := explained
        obtain ⟨hc', henv', -⟩ := same active' c' final' t way'
        rw [hc', ← hc, henv', ← henv] at hnode
        refine .ask ?_ hnode (.pure _)
        rintro b (⟨u, kept, -⟩ | ⟨-, h, -⟩)
        · cases old.symm.trans kept
        · exact hot h

/-- An evaluation whose value is not in the cache is answered as it is without one, and the entry
    that it leaves is explained. -/
theorem Query.yields_of_miss (quiet : Query.Quiet p starts) (hq : SoundUpTo p s₀ starts n)
    {e : ExprId} {frame : Frame} {final : Bool} {o : Outcome}
    (way : (Query.eval e frame final).OnWay p starts active s)
    (sound : s.Sound p s₀ starts active) (miss : s.cache.find? frame.receiver e = none)
    (later : s'.heap.Extends s₀.heap)
    (h : (Query.eval e frame final).Ends p (n + 1) s o s') :
    s'.Sound p s₀ starts active ∧
      (Plan.ask (.eval e frame final) .pure).Yields p s₀ (Cache.Key.AlwaysHot p starts) s.env
        o := by
  have clean : o = .ofValue o.value := by
    have none : o.errors = [] := quiet active _ s o s' way ⟨n + 1, h⟩
    cases o
    cases none
    rfl
  have old : s₀.cache.find? frame.receiver e = none := by
    cases old : s₀.cache.find? frame.receiver e with
    | none => rfl
    | some u => cases (sound.kept _ _ u old).symm.trans miss
  obtain ⟨t, ht, rfl⟩ := (Plan.ends_eval_of_miss miss).1 h
  obtain ⟨u, hnode, rfl⟩ := Plan.ends_calledFrom.1 ht
  have ways {γ : Type} (q : Query γ) (v : Store)
      (hv : (Plan.node p e frame).Asks p { (Scope.evaluation frame.receiver e final).enter s with
        trace := s.trace.add (p.expr e).span } q v) :
      q.OnWay p starts (⟨frame.receiver, e⟩ :: active) v := by
    obtain ⟨r, hr, hway⟩ := way
    exact ⟨r, hr, hway.asked (.eval miss (.calledFrom hv))⟩
  have same : Plan.Alike true (fun _ _ => True) Outcome.Alike (Plan.node p e frame)
      (Plan.node p e frame) := Plan.alike_node e frame
  obtain ⟨soundu, o', hnode', alike⟩ := same.yields hq hnode ways (fun _ _ _ => trivial)
    ((sound.enter miss).congr rfl) later
  have same : o' = .ofValue o.value := by
    have length := alike.2
    rw [clean] at length
    have none : o'.errors = [] := List.length_eq_zero_iff.1 length.symm
    cases o'
    cases none
    cases alike.1
    rfl
  have explained : s₀.Explains p starts frame.receiver e o.value :=
    ⟨active, frame.cls, final, s, o', way, hnode', same⟩
  refine ⟨Store.Sound.leave (soundu.congr rfl) old explained, ?_⟩
  by_cases hot : Cache.Key.AlwaysHot p starts ⟨frame.receiver, e⟩
  · have value : o.value = .hot := hot active frame.cls final s o _ way ⟨n + 1, h⟩
    rw [clean, value]
    exact .known (.inr ⟨old, hot, rfl⟩) (.pure _)
  · rw [clean, ← same]
    refine .ask ?_ hnode' (.pure _)
    rintro b (⟨u, kept, -⟩ | ⟨-, h, -⟩)
    · cases old.symm.trans kept
    · exact hot h

/-- A promotion without errors keeps the entries of the cache explained. -/
theorem Query.sound_of_promote (hq : SoundUpTo p s₀ starts n) {v : Value} {reason : String}
    {source : Span} (way : (Query.promote v reason source).OnWay p starts active s)
    (sound : s.Sound p s₀ starts active) (later : s'.heap.Extends s₀.heap)
    (h : (Query.promote v reason source).Ends p (n + 1) s [] s') :
    s'.Sound p s₀ starts active := by
  have ways {γ : Type} (q : Query γ) (u : Store)
      (hu : (Plan.promote p v reason source).Asks p s q u) : q.OnWay p starts active u := by
    obtain ⟨r, hr, hway⟩ := way
    exact ⟨r, hr, hway.asked hu⟩
  rw [Query.ends_succ, Query.plan] at h
  cases v with
  | hot =>
    obtain ⟨-, rfl⟩ := Plan.ends_pure.1 h
    exact sound
  | cold => exact absurd h Plan.not_ends_failPromotion
  | oneOf vs =>
    exact (Plan.Alike.errorsOfEach_same vs fun v => Plan.alike_askPromote v reason source).sound
      hq h ways sound later
  | ref a =>
    obtain ⟨b, t, hb, h⟩ := Plan.ends_ask_next.1 h
    obtain ⟨trusted, ht⟩ := Query.isPromotable_frame hb
    cases b with
    | true =>
      obtain ⟨-, rfl⟩ := Plan.ends_pure.1 h
      exact sound.congr (by rw [ht])
    | false =>
      cases a with
      | thisOf c => exact absurd h Plan.not_ends_failPromotion
      | warm w =>
        obtain ⟨es, u, hpart, h⟩ := Plan.ends_within.1 h
        obtain ⟨rfl, rfl⟩ := Plan.ends_pure.1 h
        refine (Plan.alike_promoteWarm w reason source).sound hq hpart
          (fun q u hu => ways q u (.afterAsk hb (.inside hu))) (sound.congr ?_) later
        rw [ht]
        rfl
  | closure body params frame env =>
    obtain ⟨b, t, hb, h⟩ := Plan.ends_ask_next.1 h
    obtain ⟨trusted, ht⟩ := Query.isPromotable_frame hb
    cases b with
    | true =>
      obtain ⟨-, rfl⟩ := Plan.ends_pure.1 h
      exact sound.congr (by rw [ht])
    | false =>
      obtain ⟨es, u, hpart, h⟩ := Plan.ends_within.1 h
      obtain ⟨rfl, rfl⟩ := Plan.ends_explain_nil h
      refine (Plan.alike_promoteBody body params frame env reason source).sound hq hpart
        (fun q u hu => ways q u (.afterAsk hb (.inside hu))) (sound.congr ?_) later
      rw [ht]
      rfl

/-! ### New objects -/

section New

variable {outer : Value} {c : ClassId} {ctor : SymbolId} {args args' : List ArgValue}
  {source : Span} {o : Outcome} {a : Addr}

/-- The outer instance is remembered. -/
theorem Plan.yields_rememberedOuter {v : Value} (known : s₀.heap.rememberedOuter? a = some v) :
    (rememberedOuter a).Yields p s₀ hot env v := by
  cases a with
  | thisOf d =>
    cases known
    exact .pure _
  | warm w =>
    obtain ⟨creation, hw, rfl⟩ := Option.map_eq_some_iff.1 known
    refine .perform (b := creation) hw ?_
    rcases creation with ⟨_, outer, _, _⟩
    cases outer with
    | ref b => cases b <;> exact .pure _
    | _ => exact .pure _

/-- An object that is there is the value of its creation. -/
theorem Plan.yields_createWarm {w : Warm} (known : s₀.heap.rememberedOuter? a = some outer)
    (holds : s₀.heap.Holds a c ctor (args.map fun arg => arg.value.widen) w) :
    (createWarm outer c ctor args source).Yields p s₀ hot env (.ofValue (.ref (.warm w))) := by
  obtain ⟨outer', known', created⟩ := holds.known
  cases known.symm.trans known'
  have found := Heap.warmOf_of_creation? created holds.cls
  rw [createWarm_eq_bind]
  refine Yields.perform (b := w) (congrArg Prod.fst found).symm (.look_bind ?_)
  rw [if_pos holds.contains]
  exact .pure _

theorem ArgsAlike.map_widen (h : ArgsAlike args args') :
    (args.map fun arg => arg.value.widen) = args'.map fun arg => arg.value.widen := by
  have values := congrArg (List.map Value.widen) h.map_value
  rwa [List.map_map, List.map_map] at values

/-- No argument of an object with a hot outer instance has to be tried out. -/
theorem Plan.yields_create_hot (hq : SoundUpTo p s₀ starts n) (alike : ArgsAlike args args')
    (h : (create p .hot c ctor args source).Ends p n s o s') (clean : o.errors = [])
    (ways : ∀ {γ : Type} (q : Query γ) t, (create p .hot c ctor args source).Asks p s q t →
      q.OnWay p starts active t)
    (sound : s.Sound p s₀ starts active) (later : s'.heap.Extends s₀.heap) :
    ∃ o', (create p .hot c ctor args' source).Yields p s₀ (Cache.Key.AlwaysHot p starts) s.env
      o' ∧ o.Alike o' := by
  obtain ⟨checked, t, hchecked, rest⟩ := ends_bind.1 h
  have after := ends_extends rest
  have checks : Plan.Alike true (fun _ _ => True) _ (args.mapM checkArgument)
      (args'.mapM checkArgument) := .mapM alike fun _ _ => alike_checkArgument
  obtain ⟨-, checked', hchecked', same⟩ := checks.yields hq hchecked
    (fun q u hu => ways q u hu.bind_left) (fun _ _ _ => trivial) sound (after.trans later)
  have errors : ErrorsAlike (checked.flatMap (·.1)) (checked'.flatMap (·.1)) :=
    .flatMap same fun _ _ hr => hr.1
  have none : checked.flatMap (·.1) = [] := by
    dsimp only at rest
    split at rest
    · obtain ⟨o', u, -, last⟩ := ends_bind.1 rest
      obtain ⟨rfl, -⟩ := ends_pure.1 last
      exact (List.append_eq_nil_iff.1 clean).1
    · obtain ⟨rfl, -⟩ := ends_pure.1 rest
      exact clean
  have none' : checked'.flatMap (·.1) = [] := by
    rw [none] at errors
    exact List.length_eq_zero_iff.1 errors.symm
  dsimp only at rest
  rw [none] at rest
  obtain ⟨rfl, -⟩ := ends_pure.1 rest
  refine ⟨.ofErrors [], hchecked'.bind ?_, Outcome.Alike.refl _⟩
  dsimp only
  rw [none']
  exact .pure _

/-- An object of a class with source is created, or it is there already. Without a cache it is there
    in any case. -/
theorem Plan.yields_create_ref (hasSource : (p.cls c).hasSource) (alike : ArgsAlike args args')
    (h : (create p (.ref a) c ctor args source).Ends p n s o s') (clean : o.errors = [])
    (later : s'.heap.Extends s₀.heap) :
    ∃ o', (create p (.ref a) c ctor args' source).Yields p s₀ (Cache.Key.AlwaysHot p starts) s.env
      o' ∧ o.Alike o' := by
  obtain ⟨outer, remembered, holds, value⟩ := Query.holds_of_create hasSource
    ⟨n + 1, (Query.ends_succ (q := .create (.ref a) c ctor args source)).2 h⟩
  have known := Heap.rememberedOuter?_of_extends ((ends_extends h).trans later) remembered
  rw [alike.map_widen] at holds value
  have there := holds.of_extends later
  refine ⟨⟨o.value, []⟩, ?_, rfl, clean ▸ rfl⟩
  rw [create_ref source hasSource, value]
  refine (yields_rememberedOuter known).bind
    ((yields_createWarm known there).bind (.look_bind ?_))
  split
  · exact .pure _
  · exact .pure _

/-- A creation that finds no errors has the same value without a cache. -/
theorem Plan.yields_create (hq : SoundUpTo p s₀ starts n) (alike : ArgsAlike args args')
    (h : (create p outer c ctor args source).Ends p n s o s') (clean : o.errors = [])
    (ways : ∀ {γ : Type} (q : Query γ) t, (create p outer c ctor args source).Asks p s q t →
      q.OnWay p starts active t)
    (sound : s.Sound p s₀ starts active) (later : s'.heap.Extends s₀.heap) :
    ∃ o', (create p outer c ctor args' source).Yields p s₀ (Cache.Key.AlwaysHot p starts) s.env
      o' ∧ o.Alike o' := by
  have idle (alike : Plan.Alike true (fun _ _ => True) Outcome.Alike
      (create p outer c ctor args source) (create p outer c ctor args' source)) :=
    (alike.yields hq h ways (fun _ _ _ => trivial) sound later).2
  cases outer with
  | hot => exact yields_create_hot hq alike h clean ways sound later
  | cold =>
    obtain ⟨rfl, -⟩ := ends_fail.1 h
    cases clean
  | ref a =>
    by_cases hasSource : (p.cls c).hasSource
    · exact yields_create_ref hasSource alike h clean later
    · refine idle ?_
      rw [create, if_neg hasSource, create, if_neg hasSource]
      exact (alike_promoteArguments alike).bind fun es es' hes => .pure (.ofErrors hes)
  | closure =>
    exact idle ((Alike.report _ source).bind fun _ _ _ => .pure (Outcome.Alike.refl _))
  | oneOf vs => exact idle (.joinEach vs fun v => .ask_self (.create v c ctor source alike) rfl)

end New

/-- Every question on the way is answered as it is without a cache. -/
theorem Query.Ends.yields (settled : s₀.Settled p starts) (quiet : Query.Quiet p starts)
    (timely : Query.Timely p s₀.heap starts) (n : Nat) : SoundUpTo p s₀ starts n := by
  induction n with
  | zero => exact fun alike h => absurd h Query.ends_zero
  | succ n ih =>
    intro β q q' active s s' b alike h way sound later
    have ways (idle : q.evaluation = []) {γ : Type} (r : Query γ) (u : Store)
        (hu : (q.plan p).Asks p s r u) : r.OnWay p starts active u := by
      obtain ⟨x, hx, hway⟩ := way
      have := hway.asked hu
      rw [idle] at this
      exact ⟨x, hx, this⟩
    by_cases remembers : q.remembers
    · cases alike with
      | eval e frame final =>
        cases hit : s.cache.find? frame.receiver e with
        | some v =>
          obtain ⟨rfl, rfl⟩ := (Plan.ends_eval_of_hit hit).1 (Query.ends_succ.1 h)
          exact ⟨sound, _, Query.yields_of_hit settled way sound hit, Outcome.Alike.refl _⟩
        | none =>
          obtain ⟨sound', yields⟩ := Query.yields_of_miss quiet ih way sound hit later h
          exact ⟨sound', b, yields, Outcome.Alike.refl b⟩
      | promote v reason source =>
        cases quiet active _ s b s' way ⟨n + 1, h⟩
        have sound' := Query.sound_of_promote ih way sound later h
        exact ⟨sound', [], .known rfl (.pure _), ErrorsAlike.refl []⟩
      | create outer c ctor source hargs =>
        have clean : b.errors = [] := quiet active _ s b s' way ⟨n + 1, h⟩
        obtain ⟨o', yields, same⟩ := Plan.yields_create ih hargs (Query.ends_succ.1 h) clean
          (ways rfl) sound later
        have sound' := (Plan.alike_create outer c ctor source (.refl _) Heap.contains_of_eq).sound
          ih (Query.ends_succ.1 h) (ways rfl) sound later
        exact ⟨sound', o', .ask (fun _ => id) yields (.pure _), same⟩
      | _ => cases remembers
    · have remembers : q.remembers = false := by simpa using remembers
      have agrees (h : Heap) (ext : s.heap.Extends h) (later : h.Extends s₀.heap) :
          (fun h h' => q.FindsSame p h h') h s₀.heap :=
        (timely active q s way).between ext later
      obtain ⟨sound', b', hb', hbb⟩ := (alike.plan remembers fun _ _ => id).yields ih
        (Query.ends_succ.1 h) (ways (Query.evaluation_eq_nil remembers)) agrees sound later
      rw [alike.remembers_eq] at remembers
      refine ⟨sound', b', .ask (Query.not_known remembers) ?_ (.pure b'), hbb⟩
      rw [Query.uncached_eq remembers]
      exact hb'

end Sound

end ObjectInit
