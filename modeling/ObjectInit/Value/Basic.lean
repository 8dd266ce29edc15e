import ObjectInit.Program.Tree

/-!
# Abstract values

A value tells how far the objects that a reference may point to are initialized. `Value.hot` is
the best and `Value.cold` the worst that can be known; in between are addresses of objects that the
analysis knows, closures, and sets of these. Values and the environments that closures capture are
defined together.

The name that something has in the checker's source, where it is another one, stands in parentheses.

Main results:

* `Env.lookup_set`: binding a symbol changes the value of this symbol and of no other one.
-/

namespace ObjectInit

/-- An object that was created while others were still under construction, as the number of its
    creation in the heap. The class is stored with the number, so that values can be compared
    without the heap. The number is any natural number: the bound of a 32-bit `WarmId`, and the
    refusal of a number behind it, are not modelled. -/
structure Warm where
  cls : ClassId
  index : Nat
  deriving DecidableEq, Inhabited

/-- The address of an object in the heap. -/
inductive Addr where
  /-- The object under construction. -/
  | thisOf (cls : ClassId)
  | warm (warm : Warm)
  deriving DecidableEq, Inhabited

/-- The class of the object. -/
def Addr.cls : Addr → ClassId
  | .thisOf c => c
  | .warm w => w.cls

/-- Where code runs: in the code of the class `cls`, whose instance is `receiver`. -/
structure Frame where
  receiver : Addr
  cls : ClassId
  deriving DecidableEq, Inhabited

mutual

/-- What is known about a reference. -/
inductive Value where
  /-- A transitively initialized object. -/
  | hot
  /-- An object of which nothing is known. -/
  | cold
  /-- The object at an address. -/
  | ref (addr : Addr)
  /-- A function literal, with the place and the environment it was created in (`FunValue`). -/
  | closure (body : ExprId) (params : List SymbolId) (frame : Frame) (env : Env)
  /-- One of several addresses or closures (`RefSet`). -/
  | oneOf (members : List Value)

/-- The values of the parameters and locals of one activation, as bindings in the ascending order of
    their symbols. -/
inductive Env where
  | empty
  | bind (symbol : SymbolId) (value : Value) (rest : Env)

end

instance : Inhabited Value := ⟨.hot⟩

instance : Inhabited Env := ⟨.empty⟩

namespace Value

def isHot : Value → Bool
  | hot => true
  | _ => false

/-- The address, if the value is a single object in the heap (`as_addr`). -/
def addr? : Value → Option Addr
  | ref a => some a
  | _ => none

end Value

namespace Env

def isEmpty : Env → Bool
  | empty => true
  | bind .. => false

def lookup (s : SymbolId) : Env → Option Value
  | empty => none
  | bind t v rest => if s = t then some v else rest.lookup s

/-- Binds a symbol; a previous binding of it is replaced. -/
def set (s : SymbolId) (v : Value) : Env → Env
  | empty => bind s v empty
  | bind t w rest =>
    if s = t then bind s v rest
    else if s.index < t.index then bind s v (bind t w rest)
    else bind t w (rest.set s v)

/-- Adds bindings one after the other, so later ones win. -/
def extend (env : Env) (bindings : List (SymbolId × Value)) : Env :=
  bindings.foldl (fun env (s, v) => env.set s v) env

def ofList (bindings : List (SymbolId × Value)) : Env := empty.extend bindings

/-- The bindings in the order of their symbols. -/
def toList : Env → List (SymbolId × Value)
  | empty => []
  | bind s v rest => (s, v) :: rest.toList

/-- Every bound value is hot. -/
def isHot : Env → Bool
  | empty => true
  | bind _ v rest => v.isHot && rest.isHot

@[simp] theorem lookup_empty (s : SymbolId) : empty.lookup s = none := rfl

/-- A symbol has the value that was bound to it last. -/
theorem lookup_set (s : SymbolId) (v : Value) (t : SymbolId) :
    ∀ env : Env, (env.set s v).lookup t = if t = s then some v else env.lookup t
  | empty => rfl
  | bind u w rest => by
    by_cases hs : s = u
    · by_cases ht : t = s <;> simp_all [set, lookup]
    · by_cases hlt : s.index < u.index
      · simp [set, lookup, hs, hlt]
      · by_cases hu : t = u
        · have hts : t ≠ s := fun h => hs (h ▸ hu)
          rw [set, if_neg hs, if_neg hlt, lookup, if_pos hu, if_neg hts, lookup, if_pos hu]
        · rw [set, if_neg hs, if_neg hlt, lookup, if_neg hu, lookup, if_neg hu]
          exact lookup_set s v t rest

end Env

/-! ## Written forms -/

/-- The written form of an address. -/
def Addr.render : Addr → String
  | .thisOf c => "ThisRef[" ++ c.label ++ "]"
  | .warm w => "Warm[" ++ w.cls.label ++ ", warm#" ++ toString w.index ++ "]"

namespace Value

mutual

/-- The written form of a value. -/
def render : Value → String
  | hot => "Hot"
  | cold => "Cold"
  | ref a => a.render
  | closure body _ frame _ =>
    "Fun[" ++ body.label ++ ", this = " ++ frame.receiver.render ++ "]"
  | oneOf members => "Set\x7b" ++ ", ".intercalate (renderAll members) ++ "\x7d"

/-- The written forms of the members of a set. -/
def renderAll : List Value → List String
  | [] => []
  | v :: vs => v.render :: renderAll vs

end

end Value

/-! ## Equality

A closure captures an environment that may hold earlier closures, so a value can be exponentially
larger than what it takes in memory. Parts of two values that are the same in memory are therefore
not looked into. -/

mutual

/-- Decides whether two values are equal. -/
def Value.decEq : (v w : Value) → Decidable (v = w)
  | .hot, .hot => isTrue rfl
  | .cold, .cold => isTrue rfl
  | .ref a, .ref b => decidable_of_iff (a = b) (by simp)
  | .closure body params frame env, .closure body' params' frame' env' =>
    have := withPtrEqDecEq env env' fun _ => Env.decEq env env'
    decidable_of_iff (body = body' ∧ params = params' ∧ frame = frame' ∧ env = env') (by simp)
  | .oneOf vs, .oneOf ws =>
    have := Value.decEqAll vs ws
    decidable_of_iff (vs = ws) (by simp)
  | .hot, .cold | .hot, .ref _ | .hot, .closure .. | .hot, .oneOf _
  | .cold, .hot | .cold, .ref _ | .cold, .closure .. | .cold, .oneOf _
  | .ref _, .hot | .ref _, .cold | .ref _, .closure .. | .ref _, .oneOf _
  | .closure .., .hot | .closure .., .cold | .closure .., .ref _ | .closure .., .oneOf _
  | .oneOf _, .hot | .oneOf _, .cold | .oneOf _, .ref _ | .oneOf _, .closure .. => isFalse nofun
termination_by structural v => v

/-- Decides whether two lists hold equal values. -/
def Value.decEqAll : (vs ws : List Value) → Decidable (vs = ws)
  | [], [] => isTrue rfl
  | [], _ :: _ | _ :: _, [] => isFalse nofun
  | v :: vs, w :: ws =>
    have := withPtrEqDecEq v w fun _ => Value.decEq v w
    have := Value.decEqAll vs ws
    decidable_of_iff (v = w ∧ vs = ws) (by simp)
termination_by structural vs => vs

/-- Decides whether two environments have the same bindings. -/
def Env.decEq : (env env' : Env) → Decidable (env = env')
  | .empty, .empty => isTrue rfl
  | .empty, .bind .. | .bind .., .empty => isFalse nofun
  | .bind s v env, .bind t w env' =>
    have := withPtrEqDecEq v w fun _ => Value.decEq v w
    have := withPtrEqDecEq env env' fun _ => Env.decEq env env'
    decidable_of_iff (s = t ∧ v = w ∧ env = env') (by simp)
termination_by structural env => env

end

instance : DecidableEq Value := fun v w => withPtrEqDecEq v w fun _ => v.decEq w

instance : DecidableEq Env := fun env env' => withPtrEqDecEq env env' fun _ => env.decEq env'

end ObjectInit
