import ObjectInit.Proofs.Kept

/-!
# The log of errors

Errors are passed on in answers, from part to whole, and some become the causes of others. An
analysis can also keep a log of the errors that it makes (`answerLogged`), which changes nothing
else. A plan accounts for its errors (`Plan.Accounts`) if it keeps the errors in hand at the end of
the log, each one behind its causes: first those that it is given, last those in its answer.

Main results:

* `answerLogged_run'`: an analysis that keeps a log answers as one that does not.
* `SafetyErrors.walk_perm`: walking through errors meets each one and each of its causes once.
* `Plan.Accounts.bind`: how a plan that accounts for its errors is put together.
* `Query.errors_perm_log`: the errors in an answer, with their causes, are those in the log.
-/

namespace ObjectInit

/-! ## Errors in the order in which they are made -/

namespace SafetyError

mutual

/-- The causes of an error at every depth, and last the error itself. -/
def made : SafetyError → List SafetyError
  | failedPromotion reason causes place => madeAll causes ++ [failedPromotion reason causes place]
  | e => [e]

/-- The errors, each one behind its causes. -/
def madeAll : List SafetyError → List SafetyError
  | [] => []
  | e :: es => e.made ++ madeAll es

end

theorem made_eq (e : SafetyError) : e.made = madeAll e.causes ++ [e] := by
  cases e <;> rfl

theorem size_eq (e : SafetyError) : e.size = 1 + sizeAll e.causes := by
  cases e <;> rfl

theorem madeAll_append (es fs : List SafetyError) :
    madeAll (es ++ fs) = madeAll es ++ madeAll fs := by
  induction es with
  | nil => rfl
  | cons e es ih => rw [List.cons_append, madeAll, madeAll, ih, List.append_assoc]

theorem sizeAll_append (es fs : List SafetyError) :
    sizeAll (es ++ fs) = sizeAll es + sizeAll fs := by
  induction es with
  | nil => simp [sizeAll]
  | cons e es ih => simp only [List.cons_append, sizeAll, ih, Nat.add_assoc]

end SafetyError

/-- A walk that is long enough meets each error and each of its causes once. -/
theorem SafetyErrors.walk_perm {n : Nat} {es : List SafetyError} (h : SafetyError.sizeAll es ≤ n) :
    (walk n es).Perm (SafetyError.madeAll es) := by
  induction n generalizing es with
  | zero =>
    cases es with
    | nil => exact .refl _
    | cons e es =>
      rw [SafetyError.sizeAll, SafetyError.size_eq] at h
      omega
  | succ n ih =>
    cases es with
    | nil => exact .refl _
    | cons e es =>
      rw [SafetyError.sizeAll, SafetyError.size_eq] at h
      have rest : (walk n (e.causes ++ es)).Perm
          (SafetyError.madeAll e.causes ++ SafetyError.madeAll es) := by
        rw [← SafetyError.madeAll_append]
        apply ih
        rw [SafetyError.sizeAll_append]
        omega
      rw [walk, SafetyError.madeAll, SafetyError.made_eq, List.append_assoc]
      exact (rest.cons e).trans List.perm_middle.symm

/-! ## Runs with a log -/

/-- A run that keeps a log of errors. -/
abbrev LoggedRun := StateT (List SafetyError) Run

/-- The errors that an effect makes. -/
def Effect.made {β : Type} : Effect β → β → List SafetyError
  | .raise .., e => [e]
  | _, _ => []

/-- Carries out an effect and logs the errors that it makes. -/
def Effect.runLogged {β : Type} (effect : Effect β) : LoggedRun β := do
  let b ← (effect.run : LoggedRun β)
  modify (· ++ effect.made b)
  return b

/-- Carries out a plan and logs the errors that it makes. -/
def Plan.runLogged (answer : {β : Type} → Query β → LoggedRun β) : {α : Type} → Plan α → LoggedRun α
  | _, .pure a => Pure.pure a
  | _, .ask q next => do runLogged answer (next (← answer q))
  | _, .perform effect next => do runLogged answer (next (← effect.runLogged))
  | _, .within scope part next => do
    let before := (← (get : Run Store)).toContext
    (modify scope.enter : Run Unit)
    let b ← runLogged answer part
    (modify (scope.leave before b) : Run Unit)
    runLogged answer (next b)

/-- The answer to a question, with a log of the errors that are made on the way. -/
def answerLogged {β : Type} (p : Program) : Nat → Query β → LoggedRun β
  | 0, _ => (throw .depth : Run β)
  | n + 1, q => (q.plan p).runLogged fun q => answerLogged p n q

/-- Without its log, the first run is the second one. -/
def LoggedRun.Erases {α : Type} (r : LoggedRun α) (r' : Run α) : Prop := ∀ log, r.run' log = r'

namespace LoggedRun.Erases

variable {α β : Type}

theorem pure (a : α) : Erases (Pure.pure a) (Pure.pure a) := fun log => by simp

theorem lift (r : Run α) : Erases (r : LoggedRun α) r := fun log => by simp

theorem bind {r : LoggedRun β} {r' : Run β} {f : β → LoggedRun α} {f' : β → Run α}
    (hr : r.Erases r') (hf : ∀ b, (f b).Erases (f' b)) : (r >>= f).Erases (r' >>= f') := by
  intro log
  have rest (x : β × List SafetyError) : (f x.1).run' x.2 = f' x.1 := hf x.1 x.2
  rw [StateT.run'_eq, StateT.run_bind, map_bind]
  simp only [← StateT.run'_eq, rest]
  rw [← hr log, StateT.run'_eq, bind_map_left]

end LoggedRun.Erases

theorem Effect.runLogged_erases {β : Type} (effect : Effect β) :
    effect.runLogged.Erases effect.run := by
  intro log
  simp [runLogged]

theorem Plan.runLogged_erases {α : Type} {answerLogged : {β : Type} → Query β → LoggedRun β}
    {answer : {β : Type} → Query β → Run β}
    (h : ∀ {β : Type} (q : Query β), (answerLogged q).Erases (answer q)) (x : Plan α) :
    (x.runLogged answerLogged).Erases (x.run answer) := by
  induction x with
  | pure a => exact .pure a
  | ask q next ih => exact .bind (h q) ih
  | perform effect next ih => exact .bind effect.runLogged_erases ih
  | within scope part next ihPart ih =>
    exact .bind (.lift _) fun before => .bind (.lift _) fun _ => .bind ihPart fun b =>
      .bind (.lift _) fun _ => ih b

/-- An analysis that keeps a log answers as one that does not. -/
theorem answerLogged_run' {β : Type} (p : Program) (n : Nat) (q : Query β)
    (log : List SafetyError) : (answerLogged p n q).run' log = answer p n q := by
  induction n generalizing β log with
  | zero => exact LoggedRun.Erases.lift _ log
  | succ n ih => exact Plan.runLogged_erases (fun q log => ih q log) (q.plan p) log

/-! ## Plans that account for their errors -/

/-- The run ends with this answer, log and store. -/
def LoggedRun.Ends {α : Type} (r : LoggedRun α) (log : List SafetyError) (s : Store) (a : α)
    (log' : List SafetyError) (s' : Store) : Prop :=
  (r.run log).run s = .ok ((a, log'), s')

/-- The errors in an answer. -/
def Query.errorsIn {β : Type} : Query β → β → List SafetyError
  | .eval .. | .select .. | .call .. | .construct .. | .create .. | .template ..
  | .outerInstance .. => Outcome.errors
  | .body .. | .promote .. | .check .. => id
  | .isPromotable _ | .enclosingInstance .. => fun _ => []

/-- Questions that may be nested up to the depth `n` log the errors in their answers. -/
def AccountsUpTo (p : Program) (n : Nat) : Prop :=
  ∀ {β : Type} (q : Query β) log s b log' s', (answerLogged p n q).Ends log s b log' s' →
    log' = log ++ SafetyError.madeAll (q.errorsIn b)

/-- Carried out with the errors `owed` in hand, the plan ends with the errors `E` of its answer in
    hand. All of them are at the end of the log. -/
def Plan.Accounts (p : Program) {α : Type} (x : Plan α) (owed : List SafetyError)
    (E : α → List SafetyError) : Prop :=
  ∀ n, AccountsUpTo p n → ∀ log s a log' s',
    (x.runLogged fun q => answerLogged p n q).Ends (log ++ SafetyError.madeAll owed) s a log' s' →
      log' = log ++ SafetyError.madeAll (E a)

namespace LoggedRun

variable {α β : Type} {log log' : List SafetyError} {s s' : Store}

theorem ends_pure {a b : α} (h : Ends (Pure.pure a) log s b log' s') : b = a ∧ log' = log := by
  cases h
  exact ⟨rfl, rfl⟩

theorem ends_bind {r : LoggedRun β} {f : β → LoggedRun α} {a : α}
    (h : (r >>= f).Ends log s a log' s') :
    ∃ b log₁ t, r.Ends log s b log₁ t ∧ (f b).Ends log₁ t a log' s' := by
  unfold Ends at *
  rw [StateT.run_bind, StateT.run_bind] at h
  cases hr : (r.run log).run s with
  | error halt =>
    rw [hr] at h
    cases h
  | ok x =>
    rw [hr] at h
    exact ⟨x.1.1, x.1.2, x.2, rfl, h⟩

/-- A run without a log leaves the log as it is. -/
theorem log_of_lift {r : Run α} {a : α} (h : Ends (liftM r) log s a log' s') : log' = log := by
  change (r.run s >>= fun x => Pure.pure ((x.1, log), x.2)) = .ok ((a, log'), s') at h
  cases hr : r.run s with
  | error halt =>
    rw [hr] at h
    cases h
  | ok x =>
    rw [hr] at h
    cases h
    rfl

end LoggedRun

/-- An effect logs the errors that it makes. -/
theorem Effect.log_of_runLogged {β : Type} {effect : Effect β} {log log' : List SafetyError}
    {s s' : Store} {b : β} (h : effect.runLogged.Ends log s b log' s') :
    log' = log ++ effect.made b := by
  obtain ⟨c, log₁, t, hrun, rest⟩ := LoggedRun.ends_bind h
  obtain rfl := LoggedRun.log_of_lift hrun
  cases rest
  rfl

namespace Plan

variable {p : Program} {α β γ : Type} {owed : List SafetyError} {E : α → List SafetyError}
  {F : β → List SafetyError}

theorem runLogged_bind (answer : {γ : Type} → Query γ → LoggedRun γ) (x : Plan β)
    (f : β → Plan α) :
    (x >>= f).runLogged answer = x.runLogged answer >>= fun b => (f b).runLogged answer := by
  change (x.bind f).runLogged answer = _
  induction x with
  | pure b => simp [bind, runLogged]
  | ask q next ih => simp [bind, runLogged, ih]
  | perform effect next ih => simp [bind, runLogged, ih]
  | within scope part next _ ih => simp [bind, runLogged, ih]

namespace Accounts

theorem pure {a : α} (h : E a = owed) : (Pure.pure a : Plan α).Accounts p owed E := by
  intro n hq log s b log' s' hb
  obtain ⟨rfl, rfl⟩ := LoggedRun.ends_pure hb
  rw [h]

/-- What the first part leaves in hand, the rest has in hand. -/
theorem bind {x : Plan β} {f : β → Plan α} (hx : x.Accounts p owed F)
    (hf : ∀ b, (f b).Accounts p (F b) E) : (x >>= f).Accounts p owed E := by
  intro n hq log s a log' s' h
  rw [runLogged_bind] at h
  obtain ⟨b, log₁, t, hb, h⟩ := LoggedRun.ends_bind h
  obtain rfl := hx n hq log s b log₁ t hb
  exact hf b n hq log t a log' s' h

/-- Errors that a plan was not given stay in front of those that it returns. -/
theorem after {x : Plan β} (hx : x.Accounts p [] F) (es : List SafetyError) :
    x.Accounts p es fun b => es ++ F b := by
  intro n hq log s b log' s' h
  have hlog := hx n hq (log ++ SafetyError.madeAll es) s b log' s'
    (by rwa [SafetyError.madeAll, List.append_nil])
  rw [hlog, SafetyError.madeAll_append, List.append_assoc]

theorem ask (q : Query β) : (liftM q : Plan β).Accounts p [] q.errorsIn := by
  intro n hq log s b log' s' h
  obtain ⟨c, log₁, t, hc, h⟩ := LoggedRun.ends_bind h
  obtain ⟨rfl, rfl⟩ := LoggedRun.ends_pure h
  rw [SafetyError.madeAll, List.append_nil] at hc
  exact hq q log s b log' t hc

theorem perform (effect : Effect β) (quiet : ∀ b, effect.made b = []) :
    (liftM effect : Plan β).Accounts p owed fun _ => owed := by
  intro n hq log s b log' s' h
  obtain ⟨c, log₁, t, hc, h⟩ := LoggedRun.ends_bind h
  obtain ⟨rfl, rfl⟩ := LoggedRun.ends_pure h
  have logged : log' = log ++ SafetyError.madeAll owed ++ effect.made b :=
    Effect.log_of_runLogged hc
  rw [logged, quiet, List.append_nil]

/-- An error takes the errors in hand as its causes. -/
theorem raise (error : Place → SafetyError) (source : Span)
    (causes : ∀ place, (error place).causes = owed) :
    (liftM (Effect.raise error source) : Plan SafetyError).Accounts p owed fun e => [e] := by
  intro n hq log s e log' s' h
  obtain ⟨c, log₁, t, hc, h⟩ := LoggedRun.ends_bind h
  obtain ⟨rfl, rfl⟩ := LoggedRun.ends_pure h
  have logged : log' = log ++ SafetyError.madeAll owed ++ (Effect.raise error source).made e :=
    Effect.log_of_runLogged hc
  cases hc
  rw [logged, Effect.made, SafetyError.madeAll, SafetyError.madeAll, SafetyError.made_eq, causes]
  simp

theorem within {scope : Scope β} {part : Plan β} {next : β → Plan α}
    (hpart : part.Accounts p owed F) (hnext : ∀ b, (next b).Accounts p (F b) E) :
    (Plan.within scope part next).Accounts p owed E := by
  intro n hq log s a log' s' h
  obtain ⟨before, log₁, t₁, hget, h⟩ := LoggedRun.ends_bind h
  obtain ⟨_, log₂, t₂, henter, h⟩ := LoggedRun.ends_bind h
  obtain ⟨b, log₃, t₃, hb, h⟩ := LoggedRun.ends_bind h
  obtain ⟨_, log₄, t₄, hleave, h⟩ := LoggedRun.ends_bind h
  have atStart := LoggedRun.log_of_lift hget
  have entered := LoggedRun.log_of_lift henter
  have left := LoggedRun.log_of_lift hleave
  subst atStart entered
  have inside := hpart n hq log t₂ b log₃ t₃ hb
  subst inside left
  exact hnext b n hq log t₄ a log' s' h

/-- The answer is made of what is in hand. -/
theorem ret {x : Plan β} {f : β → α} (hx : x.Accounts p owed F) (h : ∀ b, E (f b) = F b) :
    (x >>= fun b => Pure.pure (f b)).Accounts p owed E :=
  hx.bind fun b => .pure (h b)

theorem map {x : Plan β} {f : β → α} (hx : x.Accounts p owed F) (h : ∀ b, E (f b) = F b) :
    (f <$> x).Accounts p owed E := by
  rw [map_eq_pure_bind]
  exact hx.ret h

/-- The errors in hand are put in front of those of the last part. -/
theorem preceding {x : Plan Outcome} (hx : x.Accounts p [] Outcome.errors)
    (es : List SafetyError) :
    (x >>= fun o => Pure.pure (o.precededBy es)).Accounts p es Outcome.errors :=
  (hx.after es).ret fun _ => rfl

theorem look_bind {f : Store → Plan α} (hf : ∀ s, (f s).Accounts p owed E) :
    ((liftM Effect.look : Plan Store) >>= f).Accounts p owed E :=
  (perform .look fun _ => rfl).bind hf

theorem inEnv {x : Plan α} (env : Env) (hx : x.Accounts p owed E) :
    (Plan.inEnv env x).Accounts p owed E :=
  hx.within fun _ => .pure rfl

theorem inTrace {x : Plan α} (trace : Trace) (hx : x.Accounts p owed E) :
    (Plan.inTrace trace x).Accounts p owed E :=
  hx.within fun _ => .pure rfl

theorem calledFrom {x : Plan α} (source : Span) (hx : x.Accounts p owed E) :
    (Plan.calledFrom source x).Accounts p owed E :=
  look_bind fun _ => inTrace _ hx

theorem fail (error : Place → SafetyError) (source : Span)
    (causes : ∀ place, (error place).causes = []) :
    (Plan.fail error source).Accounts p [] Outcome.errors :=
  (raise error source causes).ret fun _ => rfl

theorem report (message : String) (source : Span) :
    (Plan.report message source).Accounts p owed fun _ => owed :=
  perform _ fun _ => rfl

theorem ite {c : Prop} [Decidable c] {x y : Plan α} (hx : c → x.Accounts p owed E)
    (hy : ¬c → y.Accounts p owed E) : (if c then x else y).Accounts p owed E := by
  by_cases h : c
  · rw [if_pos h]
    exact hx h
  · rw [if_neg h]
    exact hy h

/-! ### Parts for each element -/

theorem mapM {f : γ → Plan β} (xs : List γ) (hf : ∀ x, (f x).Accounts p [] F) :
    (xs.mapM f).Accounts p [] fun bs => bs.flatMap F := by
  induction xs with
  | nil => exact .pure rfl
  | cons x xs ih =>
    rw [List.mapM_cons]
    refine (hf x).bind fun b => ?_
    exact (ih.after (F b)).ret fun bs => rfl

end Accounts

end Plan

/-- The errors of outcomes that are joined stand one after the other. -/
theorem Outcome.errors_joinAll (os : List Outcome) :
    (joinAll os).errors = os.flatMap Outcome.errors := by
  suffices ∀ o : Outcome, (os.foldl join o).errors = o.errors ++ os.flatMap Outcome.errors from
    this hot
  induction os with
  | nil => simp
  | cons o os ih =>
    intro q
    rw [List.foldl_cons, ih, List.flatMap_cons, ← List.append_assoc]
    rfl

namespace Plan

variable {p : Program} {α γ : Type} {owed : List SafetyError}

theorem Accounts.joinEach {f : γ → Plan Outcome} (xs : List γ)
    (hf : ∀ x, (f x).Accounts p [] Outcome.errors) :
    (Plan.joinEach xs f).Accounts p [] Outcome.errors :=
  (mapM xs hf).map Outcome.errors_joinAll

theorem Accounts.errorsOfEach {f : γ → Plan (List SafetyError)} (xs : List γ)
    (hf : ∀ x, (f x).Accounts p [] id) : (Plan.errorsOfEach xs f).Accounts p [] id :=
  (mapM xs hf).map fun ess => by simp

/-! ## Members -/

theorem accounts_eval (e : ExprId) (frame : Frame) (final : Bool) :
    (liftM (Query.eval e frame final) : Plan Outcome).Accounts p [] Outcome.errors :=
  .ask _

theorem accounts_failUnknown (member : SymbolId) (source : Span) :
    (failUnknown p member source).Accounts p [] Outcome.errors :=
  .fail _ source fun _ => rfl

theorem accounts_initializer (a : Addr) (field : SymbolId) (source : Span) :
    (initializer p a field source).Accounts p [] Outcome.errors := by
  unfold initializer
  split
  · exact .calledFrom source (accounts_eval _ _ _)
  · exact accounts_failUnknown field source

theorem accounts_selectMissing (a : Addr) (field : SymbolId) (source : Span) :
    (selectMissing p a field source).Accounts p [] Outcome.errors := by
  cases a with
  | warm w => exact .ite (fun _ => .pure rfl) fun _ => accounts_initializer _ field source
  | thisOf c =>
    exact .ite (fun _ => .calledFrom source (.fail _ source fun _ => rfl)) fun _ =>
      accounts_failUnknown field source

theorem accounts_selectAt (a : Addr) (field : SymbolId) (source : Span) :
    (selectAt p a field source).Accounts p [] Outcome.errors := by
  refine .ite (fun _ => accounts_initializer a field source) fun _ => .look_bind fun s => ?_
  split
  · exact .pure rfl
  · exact accounts_selectMissing a field source

/-- A report makes no error. -/
theorem accounts_reported (message : String) (source : Span) (v : Value) :
    (do report message source; return .ofValue v : Plan Outcome).Accounts p [] Outcome.errors :=
  (Accounts.report message source).ret fun _ => rfl

theorem accounts_select (v : Value) (field : SymbolId) (source : Span) (virtual : Bool) :
    (select p v field source virtual).Accounts p [] Outcome.errors := by
  cases v with
  | hot => exact .pure rfl
  | cold => exact .fail _ source fun _ => rfl
  | ref a => exact accounts_selectAt a _ source
  | closure => exact accounts_reported _ source .hot
  | oneOf vs => exact .joinEach vs fun v => .ask _

theorem accounts_promoteArgument (arg : ArgValue) : (promoteArgument arg).Accounts p [] id :=
  .inTrace _ (.ask _)

theorem accounts_promoteArguments (args : List ArgValue) :
    (promoteArguments args).Accounts p [] id :=
  .errorsOfEach args accounts_promoteArgument

theorem accounts_followedBy (o : Outcome) (args : List ArgValue) :
    (do return o.followedBy (← promoteArguments args)).Accounts p o.errors Outcome.errors :=
  ((accounts_promoteArguments args).after o.errors).ret fun _ => rfl

theorem accounts_runMember (a : Addr) (target : SymbolId) (args : List ArgValue) :
    (runMember p a target args).Accounts p [] Outcome.errors := by
  cases body : (p.symbol target).body with
  | none =>
    simp only [runMember, body]
    exact .pure rfl
  | some e =>
    rw [runMember_of_body body]
    refine .ite (fun _ => ?_) fun _ => .ite (fun _ => ?_) fun _ => .ite (fun _ => ?_) fun _ => ?_
    · exact (Accounts.inEnv _ (.calledFrom _ (accounts_eval e _ true))).ret fun _ => rfl
    · exact .inEnv _ (accounts_eval e _ true)
    · exact .look_bind fun s => .inEnv _ (accounts_eval e _ true)
    · exact (Accounts.inEnv _ (accounts_eval e _ true)).bind fun o => accounts_followedBy o args

theorem accounts_callTarget (a : Addr) (target : SymbolId) (args : List ArgValue) (source : Span) :
    (callTarget p a target args source).Accounts p [] Outcome.errors :=
  .ite (fun _ => .calledFrom source (accounts_runMember a target args)) fun _ =>
    .ite (fun _ => .pure rfl) fun _ => accounts_failUnknown target source

theorem accounts_callAt (a : Addr) (method : SymbolId) (args : List ArgValue) (dispatch : Dispatch)
    (source : Span) : (callAt p a method args dispatch source).Accounts p [] Outcome.errors := by
  refine .ite (fun _ => accounts_callTarget a _ args source) fun _ => .look_bind fun s => ?_
  split
  · exact .pure rfl
  · exact .ask _

theorem accounts_call (v : Value) (method : SymbolId) (args : List ArgValue) (dispatch : Dispatch)
    (source : Span) : (call p v method args dispatch source).Accounts p [] Outcome.errors := by
  cases v with
  | hot => exact (accounts_promoteArguments args).ret fun _ => rfl
  | cold => exact (Accounts.fail _ source fun _ => rfl).bind fun o => accounts_followedBy o args
  | ref a => exact accounts_callAt a method args dispatch source
  | closure body params frame env =>
    refine .ite (fun _ => ?_) fun _ => .pure rfl
    exact (Accounts.calledFrom source (.inEnv _ (accounts_eval body frame true))).bind fun o =>
      accounts_followedBy o args
  | oneOf vs => exact .joinEach vs fun v => .ask _

theorem accounts_construct (v : Value) (ctor : SymbolId) (args : List ArgValue) (source : Span) :
    (construct p v ctor args source).Accounts p [] Outcome.errors := by
  cases v with
  | ref a => exact accounts_callTarget a ctor args source
  | _ => exact accounts_reported _ source .hot

/-! ## Enclosing instances -/

/-- Looking for an instance makes no error. -/
theorem accounts_askInstance (target : ClassId) (v : Value) (c : ClassId) (source : Span) :
    (liftM (Query.enclosingInstance target v c source) : Plan Value).Accounts p [] fun _ => [] :=
  .ask _

theorem accounts_enclosingInstance (target : ClassId) (v : Value) (c : ClassId) (source : Span) :
    (enclosingInstance p target v c source).Accounts p [] fun _ => [] := by
  refine .ite (fun _ => .pure rfl) fun _ => .ite (fun _ => .pure rfl) fun _ => ?_
  cases v with
  | hot | cold => exact .pure rfl
  | ref a =>
    refine .look_bind fun s => ?_
    split
    · exact accounts_askInstance _ _ _ source
    · exact (Accounts.report _ source).ret fun _ => rfl
  | closure => exact (Accounts.report _ source).ret fun _ => rfl
  | oneOf vs =>
    exact (Accounts.mapM vs fun v => accounts_askInstance target v c source).ret fun bs => by simp

theorem accounts_evalPath (frame : Frame) (source : Span) (path : Path) :
    (evalPath p frame source path).Accounts p [] Outcome.errors := by
  induction path with
  | bare | constant | paramRef => exact .pure rfl
  | thisOf target =>
    exact .ite (fun _ => .pure rfl) fun _ => (accounts_askInstance _ _ _ _).ret fun _ => rfl
  | member base s ih =>
    have read : (do
        let receiver ← evalPath p frame source base
        let o ← Query.select receiver.value s source true
        return o.precededBy receiver.errors).Accounts p [] Outcome.errors :=
      ih.bind fun receiver => .preceding (.ask _) receiver.errors
    cases base with
    | bare => exact .look_bind fun _ => .pure rfl
    | _ => exact read

theorem accounts_outerInstance (type : ClassRef) (frame : Frame) (source : Span) :
    (outerInstance p type frame source).Accounts p [] Outcome.errors := by
  refine .ite (fun _ => ?_) fun _ => .ite (fun _ => .pure rfl) fun _ => ?_
  · exact (accounts_askInstance _ _ _ _).ret fun _ => rfl
  · exact accounts_evalPath frame source type.path

/-! ## Promotion -/

/-- A test whether a value is promotable makes no error. -/
theorem accounts_askPromotable (v : Value) :
    (liftM (Query.isPromotable v) : Plan Bool).Accounts p [] fun _ => [] :=
  .ask _

theorem accounts_capturesHot (v : Value) : (capturesHot p v).Accounts p [] fun _ => [] := by
  cases v with
  | ref a =>
    cases a with
    | warm w =>
      refine (Accounts.perform _ fun _ => rfl).bind fun creation => ?_
      exact .ite (fun _ => accounts_askPromotable creation.outer) fun _ => .pure rfl
    | thisOf c => exact .look_bind fun _ => .pure rfl
  | closure _ _ frame => exact accounts_askPromotable (.ref frame.receiver)
  | _ => exact .pure rfl

theorem accounts_isPromotable (v : Value) : (isPromotable p v).Accounts p [] fun _ => [] := by
  have test (v : Value) : (do
      let promotable ← capturesHot p v
      if promotable then
        Effect.trust v
      return promotable : Plan Bool).Accounts p [] fun _ => [] := by
    refine (accounts_capturesHot v).bind fun b => ?_
    cases b with
    | true => exact (Accounts.perform (.trust v) fun _ => rfl).ret fun _ => rfl
    | false => exact .pure rfl
  cases v with
  | hot | cold => exact .pure rfl
  | ref | closure => exact .look_bind fun s => .ite (fun _ => .pure rfl) fun _ => test _
  | oneOf vs =>
    refine .look_bind fun s => .ite (fun _ => .pure rfl) fun untrusted => ?_
    clear untrusted
    change (vs.allM fun v => (liftM (Query.isPromotable v) : Plan Bool)).Accounts p [] fun _ => []
    induction vs with
    | nil => exact .pure rfl
    | cons v vs ih =>
      refine (accounts_askPromotable v).bind fun b => ?_
      cases b with
      | true => exact ih
      | false => exact .pure rfl

/-- The errors in hand become the causes of one error. -/
theorem accounts_explain (reason : String) (causes : List SafetyError) (source : Span) :
    (explain reason causes source).Accounts p causes id := by
  refine .ite (fun none => .pure (List.isEmpty_iff.1 none).symm) fun _ => ?_
  exact (Accounts.raise (.failedPromotion reason causes) source fun _ => rfl).ret fun _ => rfl

theorem accounts_failPromotion (reason : String) (source : Span) :
    (failPromotion reason source).Accounts p [] id :=
  (Accounts.raise (.notHot reason) source fun _ => rfl).ret fun _ => rfl

theorem accounts_requireHot (o : Outcome) (reason : String) (source : Span) :
    (requireHot o reason source).Accounts p o.errors Outcome.errors :=
  ((Accounts.ask (.promote o.value reason source)).after o.errors).ret fun _ => rfl

/-- The errors of a part whose outcome has to be hot. -/
theorem accounts_errorsOfRequireHot {use : Plan Outcome}
    (huse : use.Accounts p [] Outcome.errors) (reason : String) (source : Span) :
    (do return (← requireHot (← use) reason source).errors).Accounts p [] id :=
  huse.bind fun o => (accounts_requireHot o reason source).ret fun _ => rfl

theorem accounts_tryUse {use : Plan Outcome} (huse : use.Accounts p [] Outcome.errors) (at' : Span)
    (reason : String) (source : Span) : (tryUse use at' reason source).Accounts p [] id :=
  .calledFrom at' (accounts_errorsOfRequireHot huse reason source)

theorem accounts_promoteWarm (w : Warm) (reason : String) (source : Span) :
    (promoteWarm p w reason source).Accounts p [] id := by
  refine .ite (fun _ => accounts_failPromotion reason source) fun _ => ?_
  refine (Accounts.errorsOfEach _ fun f => accounts_tryUse (.ask _) _ reason source).bind
    fun ofFields => .look_bind fun s => ?_
  refine Accounts.bind (Accounts.after (.errorsOfEach _ fun m => ?_) ofFields) fun ofMethods =>
    accounts_explain reason _ source
  exact accounts_tryUse (.ask _) _ reason source

theorem accounts_promoteBody (body : ExprId) (params : List SymbolId) (frame : Frame) (env : Env)
    (reason : String) (source : Span) :
    (promoteBody body params frame env reason source).Accounts p [] id :=
  accounts_errorsOfRequireHot (.inEnv _ (accounts_eval body frame false)) reason source

theorem accounts_promote (v : Value) (reason : String) (source : Span) :
    (promote p v reason source).Accounts p [] id := by
  cases v with
  | hot => exact .pure rfl
  | cold => exact accounts_failPromotion reason source
  | oneOf vs => exact .errorsOfEach vs fun v => .ask _
  | ref a =>
    refine (accounts_askPromotable _).bind fun b => .ite (fun _ => .pure rfl) fun _ => ?_
    cases a with
    | thisOf c => exact accounts_failPromotion reason source
    | warm w => exact (accounts_promoteWarm w reason source).within fun _ => .pure rfl
  | closure body params frame env =>
    refine (accounts_askPromotable _).bind fun b => .ite (fun _ => .pure rfl) fun _ => ?_
    exact (accounts_promoteBody body params frame env reason source).within fun causes =>
      accounts_explain reason causes source

/-! ## Evaluation -/

theorem accounts_errorsOf (e : ExprId) (frame : Frame) : (errorsOf e frame).Accounts p [] id :=
  (accounts_eval e frame false).ret fun _ => rfl

theorem accounts_errorsOfHot (e : ExprId) (frame : Frame) (reason : String) :
    (errorsOfHot p e frame reason).Accounts p [] id :=
  accounts_errorsOfRequireHot (accounts_eval e frame false) reason _

theorem accounts_evalBranches (es : List ExprId) (frame : Frame) :
    (evalBranches es frame).Accounts p [] Outcome.errors :=
  .joinEach es fun e => accounts_eval e frame false

theorem accounts_evalArgument (frame : Frame) (arg : Arg) :
    (evalArgument p frame arg).Accounts p [] (·.1) := by
  have rest (o : Outcome) : (do
      return (o.errors, ⟨o.value, (p.expr arg.expr).span, (← Effect.look).trace⟩) :
        Plan (List SafetyError × ArgValue)).Accounts p o.errors (·.1) :=
    .look_bind fun _ => .pure rfl
  by_cases byName : arg.byName
  · rw [evalArgument, if_pos byName]
    have captured : (Outcome.ofValue <$> closure [] arg.expr frame).Accounts p []
        Outcome.errors :=
      Accounts.map (F := fun _ => []) (.look_bind fun _ => .pure rfl) fun _ => rfl
    exact captured.bind rest
  · rw [evalArgument, if_neg byName]
    exact (accounts_eval arg.expr frame false).bind rest

theorem accounts_evalArguments (frame : Frame) (args : List Arg) :
    (evalArguments p frame args).Accounts p [] (·.1) :=
  (Accounts.mapM args (accounts_evalArgument frame)).ret fun _ => rfl

theorem accounts_callNamed (method : SymbolId) (path : Path) (args : List ArgValue) (frame : Frame)
    (source : Span) : (callNamed p method path args frame source).Accounts p [] Outcome.errors := by
  refine .ite (fun _ => ?_) fun _ => ?_
  · exact (accounts_askInstance _ _ _ source).bind fun _ => .ask _
  · exact (accounts_evalPath frame source path).bind fun receiver =>
      .preceding (.ask _) receiver.errors

theorem accounts_callCallee (callee : Callee) (args : List ArgValue) (frame : Frame)
    (source : Span) : (callCallee p callee args frame source).Accounts p [] Outcome.errors := by
  cases callee with
  | super home base method => exact (accounts_askInstance _ _ _ source).bind fun _ => .ask _
  | select qualifier method =>
    refine (accounts_eval qualifier frame false).bind fun receiver => ?_
    exact .ite (fun _ => .preceding (.ask _) receiver.errors) fun _ =>
      .preceding (.ask _) receiver.errors
  | ident method path => exact accounts_callNamed method path args frame source

theorem accounts_evalNew (type : ClassRef) (ctor : SymbolId) (args : List Arg) (frame : Frame)
    (source : Span) : (evalNew p type ctor args frame source).Accounts p [] Outcome.errors := by
  refine (accounts_evalArguments frame args).bind fun r => .ite (fun _ => .pure rfl) fun none => ?_
  have empty : r.1 = [] := by simpa using none
  rw [empty]
  refine (Accounts.ask (.outerInstance type frame source)).bind fun outer => ?_
  exact .preceding (.calledFrom source (.ask _)) outer.errors

theorem accounts_evalBlock (frame : Frame) (result : ExprId) (stats : List ExprId) :
    (evalBlock p frame result stats).Accounts p [] Outcome.errors := by
  induction stats with
  | nil => exact accounts_eval result frame false
  | cons stat stats ih =>
    rw [evalBlock]
    refine (accounts_eval stat frame false).bind fun o => ?_
    split
    · exact .look_bind fun _ => .preceding (.inEnv _ ih) o.errors
    · exact .preceding ih o.errors

theorem accounts_evalTarget (target : ExprId) (frame : Frame) :
    (evalTarget p target frame).Accounts p [] id := by
  unfold evalTarget
  split
  · exact accounts_errorsOf _ frame
  · exact .pure rfl

theorem accounts_node (e : ExprId) (frame : Frame) :
    (node p e frame).Accounts p [] Outcome.errors := by
  unfold node
  cases (p.expr e).node with
  | wildcard | literal | methodDef | typeDef => exact .pure rfl
  | ident s path =>
    exact .ite (fun _ => accounts_callNamed s _ [] frame _) fun _ => accounts_evalPath frame _ path
  | thisOf target => exact accounts_evalPath frame _ _
  | select qualifier s =>
    refine (accounts_eval qualifier frame false).bind fun receiver => ?_
    exact .ite (fun _ => .preceding (.ask _) receiver.errors) fun _ =>
      .preceding (.ask _) receiver.errors
  | call callee args =>
    exact (accounts_evalArguments frame args).bind fun r =>
      .preceding (accounts_callCallee callee r.2 frame _) r.1
  | new type ctor args => exact accounts_evalNew type ctor args frame _
  | assign target value =>
    exact (accounts_evalTarget target frame).bind fun es =>
      ((accounts_errorsOfHot value frame _).after es).ret fun _ => rfl
  | ifElse cond onTrue onFalse =>
    refine (accounts_errorsOf cond frame).bind fun es => ?_
    refine ((accounts_eval onTrue frame false).after es).bind fun o => ?_
    refine ((accounts_eval onFalse frame false).after (es ++ o.errors)).ret fun q => ?_
    exact (List.append_assoc ..).symm
  | matchOn scrutinee branches =>
    exact (accounts_errorsOfHot scrutinee frame _).bind fun es =>
      .preceding (accounts_evalBranches branches frame) es
  | whileLoop cond body =>
    exact (accounts_errorsOf cond frame).bind fun es =>
      ((accounts_errorsOf body frame).after es).ret fun _ => rfl
  | tryCatch body handlers finalizer =>
    refine (accounts_eval body frame false).bind fun o => ?_
    refine ((accounts_evalBranches handlers frame).after o.errors).bind fun q => ?_
    cases finalizer with
    | none => exact .pure rfl
    | some e => exact ((accounts_errorsOf e frame).after (o.errors ++ q.errors)).ret fun _ => rfl
  | sequence elems =>
    exact (Accounts.errorsOfEach elems fun e => accounts_errorsOfHot e frame Reason.sequence).ret
      fun _ => rfl
  | closure params body =>
    exact Accounts.ret (F := fun _ => []) (.look_bind fun _ => .pure rfl) fun _ => rfl
  | block stats result => exact accounts_evalBlock frame result stats
  | typed e unchecked | annotated e unchecked =>
    exact .ite (fun _ => .pure rfl) fun _ => accounts_eval e frame false
  | ret e => exact (accounts_errorsOfHot e frame _).ret fun _ => rfl
  | namedArg e => exact accounts_eval e frame false
  | valDef s =>
    dsimp only
    split
    · exact accounts_eval _ frame true
    · exact .pure rfl
  | template c => exact .ask _

/-- A value from the cache comes without errors. -/
theorem accounts_evaluation (e : ExprId) (frame : Frame) (final : Bool) :
    (eval p e frame final).Accounts p [] Outcome.errors := by
  refine .look_bind fun s => ?_
  split
  · exact .pure rfl
  · exact (Accounts.calledFrom _ (accounts_node e frame)).within fun _ => .pure rfl

/-! ## Objects -/

theorem accounts_createWarm (outer : Value) (c : ClassId) (ctor : SymbolId) (args : List ArgValue)
    (source : Span) : (createWarm outer c ctor args source).Accounts p [] Outcome.errors := by
  refine (Accounts.perform _ fun _ => rfl).bind fun w => ?_
  refine .look_bind fun s => .ite (fun _ => .pure rfl) fun _ => ?_
  refine (Accounts.perform _ fun _ => rfl).bind fun _ => ?_
  exact (Accounts.ask (.construct _ ctor _ source)).ret fun _ => rfl

theorem accounts_checkArgument (arg : ArgValue) : (checkArgument arg).Accounts p [] (·.1) :=
  (accounts_promoteArgument arg).ret fun _ => rfl

theorem accounts_rememberedOuter (a : Addr) : (rememberedOuter a).Accounts p [] fun _ => [] := by
  cases a with
  | warm w =>
    refine (Accounts.perform _ fun _ => rfl).bind fun creation => ?_
    split
    · exact .pure rfl
    · exact .pure rfl
  | thisOf c => exact .pure rfl

theorem accounts_create (outer : Value) (c : ClassId) (ctor : SymbolId) (args : List ArgValue)
    (source : Span) : (create p outer c ctor args source).Accounts p [] Outcome.errors := by
  cases outer with
  | hot =>
    refine (Accounts.mapM args accounts_checkArgument).bind fun checked => ?_
    refine .ite (fun _ => ?_) fun _ => .pure rfl
    exact ((accounts_createWarm .hot c ctor _ source).after _).ret fun _ => rfl
  | cold => exact .fail _ source fun _ => rfl
  | ref a =>
    refine .ite (fun _ => ?_) fun _ => (accounts_promoteArguments args).ret fun _ => rfl
    refine (accounts_rememberedOuter a).bind fun v => ?_
    refine (accounts_createWarm v c ctor args source).bind fun o => .look_bind fun s => ?_
    exact .ite (fun _ => .pure rfl) fun _ => .pure rfl
  | closure => exact accounts_reported _ source .hot
  | oneOf vs => exact .joinEach vs fun v => .ask _

theorem accounts_setParams (c : ClassId) (this : Addr) :
    (setParams p c this).Accounts p [] fun _ => [] := by
  unfold setParams
  dsimp only
  generalize p.paramFields c = fields
  induction fields with
  | nil => exact .pure rfl
  | cons field fields ih =>
    refine Accounts.bind (F := fun _ => []) ?_ fun _ => ih
    exact .look_bind fun s => .perform _ fun _ => rfl

theorem accounts_prepareParent (c : ClassId) (this : Addr) (type : ClassRef)
    (ctor : Option SymbolId) (args : List ArgValue) (source : Span) :
    (prepareParent p c this type ctor args source).Accounts p [] (·.1) :=
  (Accounts.ask (.outerInstance type ⟨this, c⟩ source)).bind fun _ =>
    (Accounts.perform _ fun _ => rfl).ret fun _ => rfl

theorem accounts_prepareListed (c : ClassId) (this : Addr) (parent : Parent) :
    (prepareListed p c this parent).Accounts p [] (·.1) :=
  (accounts_evalArguments ⟨this, c⟩ parent.args).bind fun r =>
    ((accounts_prepareParent c this parent.type parent.ctor r.2 parent.span).after r.1).ret
      fun _ => rfl

theorem accounts_prepareMixin (c : ClassId) (this : Addr) (superClass : Parent)
    (listed : List Parent) (mixin : ClassId) :
    (prepareMixin p c this superClass listed mixin).Accounts p [] (·.1) := by
  unfold prepareMixin
  split
  · exact accounts_prepareListed c this _
  · exact accounts_prepareParent c this _ _ _ _

theorem accounts_initParents (c : ClassId) (this : Addr) (parents : List Parent) :
    (initParents p c this parents).Accounts p [] id := by
  cases parents with
  | nil => exact .pure rfl
  | cons superClass listed =>
    refine (accounts_prepareListed c this superClass).bind fun first => ?_
    refine ((Accounts.mapM _ (accounts_prepareMixin c this superClass listed)).after first.1).bind
      fun mixins => ?_
    refine Accounts.ret (Accounts.after (.errorsOfEach _ fun call => ?_) _) fun es => rfl
    exact (Accounts.ask (.construct (.ref this) call.ctor call.args call.source)).ret fun _ => rfl

theorem accounts_template (c : ClassId) (this : Addr) :
    (template p c this).Accounts p [] Outcome.errors := by
  unfold template
  split
  · refine (accounts_setParams c this).bind fun _ => ?_
    have rest (es : List SafetyError) : (do
        return ⟨.ref this, es ++ (← Query.body c this)⟩ : Plan Outcome).Accounts p es
          Outcome.errors :=
      ((Accounts.ask (.body c this)).after es).ret fun _ => rfl
    exact .ite (fun _ => rest []) fun _ => (accounts_initParents c this _).bind rest
  · exact .pure rfl

theorem accounts_stat (c : ClassId) (this : Addr) (e : ExprId) :
    (stat p c this e).Accounts p [] id := by
  unfold stat
  split
  next field _ =>
    refine .ite (fun _ => .pure rfl) fun _ => ?_
    have rest (o : Outcome) : (do
        Effect.setField this field o.value
        return o.errors : Plan (List SafetyError)).Accounts p o.errors id :=
      (Accounts.perform _ fun _ => rfl).ret fun _ => rfl
    split
    · exact (accounts_eval _ _ true).bind rest
    · exact rest .hot
  · exact .pure rfl
  · exact .pure rfl
  · exact accounts_errorsOf e ⟨this, c⟩

theorem accounts_body (c : ClassId) (this : Addr) : (body p c this).Accounts p [] id := by
  unfold body
  split
  · exact .errorsOfEach _ fun e => accounts_stat c this e
  · exact .pure rfl

theorem accounts_check (c : ClassId) : (check p c).Accounts p [] id := by
  unfold check
  split
  · split
    · refine .look_bind fun s => ?_
      have rest (env : Env) (e : ExprId) (frame : Frame) : (do
          let o ← Plan.inEnv env (Plan.calledFrom (p.cls c).span (Query.eval e frame true))
          return o.errors : Plan (List SafetyError)).Accounts p [] id :=
        (Accounts.inEnv env (.calledFrom _ (accounts_eval e frame true))).ret fun _ => rfl
      refine .ite (fun _ => rest _ _ _) fun _ => ?_
      exact (Accounts.perform _ fun _ => rfl).bind fun _ => rest _ _ _
    · exact .pure rfl
  · exact .pure rfl

end Plan

/-! ## Questions -/

/-- The plans of all questions account for their errors. -/
theorem Query.accounts {p : Program} {β : Type} (q : Query β) :
    (q.plan p).Accounts p [] q.errorsIn := by
  cases q with
  | eval e frame final => exact Plan.accounts_evaluation e frame final
  | select v field source virtual => exact Plan.accounts_select v field source virtual
  | call v method args dispatch source => exact Plan.accounts_call v method args dispatch source
  | construct v ctor args source => exact Plan.accounts_construct v ctor args source
  | create outer c ctor args source => exact Plan.accounts_create outer c ctor args source
  | template c this => exact Plan.accounts_template c this
  | body c this => exact Plan.accounts_body c this
  | promote v reason source => exact Plan.accounts_promote v reason source
  | isPromotable v => exact Plan.accounts_isPromotable v
  | enclosingInstance target v c source => exact Plan.accounts_enclosingInstance target v c source
  | outerInstance type frame source => exact Plan.accounts_outerInstance type frame source
  | check c => exact Plan.accounts_check c

/-- Whatever is asked, the errors in the answer are at the end of the log. -/
theorem accountsUpTo (p : Program) (n : Nat) : AccountsUpTo p n := by
  induction n with
  | zero =>
    intro β q log s b log' s' h
    cases h
  | succ n ih =>
    intro β q log s b log' s' h
    apply q.accounts n ih log s b log' s'
    rwa [SafetyError.madeAll, List.append_nil]

/-- A run that ends without a log ends in the same way with a log. -/
theorem LoggedRun.Erases.exists_ends {α : Type} {r : LoggedRun α} {r' : Run α} (h : r.Erases r')
    {s s' : Store} {a : α} (ends : r'.run s = .ok (a, s')) (log : List SafetyError) :
    ∃ log', r.Ends log s a log' s' := by
  have erased := h log
  rw [StateT.run'_eq] at erased
  rw [← erased, StateT.run_map] at ends
  unfold Ends
  cases hr : (r.run log).run s with
  | error halt =>
    rw [hr] at ends
    cases ends
  | ok x =>
    rw [hr] at ends
    cases ends
    exact ⟨_, rfl⟩

/-- No error is lost and none is passed on twice: where a question is answered in whatever store, an
    analysis that keeps a log gives the same answer, and the errors in it, with their causes at
    every depth, are those that the analysis logged on the way. -/
theorem Query.errors_perm_log {p : Program} {n : Nat} {β : Type} {q : Query β} {s s' : Store}
    {b : β} (h : q.Ends p n s b s') (log : List SafetyError) :
    (answerLogged p n q).run' log = answer p n q ∧
      ∃ made, (answerLogged p n q).Ends log s b (log ++ made) s' ∧
        (SafetyErrors.flatten (q.errorsIn b)).Perm made := by
  obtain ⟨log', ends⟩ := LoggedRun.Erases.exists_ends (answerLogged_run' p n q) h log
  obtain rfl := accountsUpTo p n q log s b log' s' ends
  refine ⟨answerLogged_run' p n q log, SafetyError.madeAll (q.errorsIn b), ends, ?_⟩
  exact SafetyErrors.walk_perm (Nat.le_refl _)

/-- A class `A` with a field `x`, and an expression that reads it. -/
def readsX : Program := .ofCommands [
  .defineClass "A" .package .none true,
  .defineField ⟨4⟩ "x" .value,
  .literal,
  .setBody ⟨15⟩ ⟨2⟩,
  .identFrom (.thisOf ⟨4⟩) ⟨15⟩]

/-- The closure that reads `x` cannot be promoted before `x` is initialized. The answer is one error
    with one cause, so two errors are logged. -/
theorem Query.errors_perm_log_readsX :
    ∃ es s' made, (Query.promote (.closure ⟨3⟩ [] ⟨.thisOf ⟨4⟩, ⟨4⟩⟩ .empty) "" default).Ends
        readsX 20 .initial es s' ∧
      (answerLogged readsX 20
        (.promote (.closure ⟨3⟩ [] ⟨.thisOf ⟨4⟩, ⟨4⟩⟩ .empty) "" default)).Ends
        [] .initial es made s' ∧
      es.length = 1 ∧ made.length = 2 ∧ (SafetyErrors.flatten es).Perm made := by
  obtain ⟨es, ends, found⟩ := Query.ends_of_result? (p := readsX) (n := 20) (s := .initial)
    (q := .promote (.closure ⟨3⟩ [] ⟨.thisOf ⟨4⟩, ⟨4⟩⟩ .empty) "" default)
    (fun es => es.length == 1 && (SafetyErrors.flatten es).length == 2) (by decide +kernel)
  rw [Bool.and_eq_true, beq_iff_eq, beq_iff_eq] at found
  obtain ⟨-, made, logged, perm⟩ := Query.errors_perm_log ends []
  exact ⟨es, _, made, ends, logged, found.1, perm.length_eq ▸ found.2, perm⟩

end ObjectInit
