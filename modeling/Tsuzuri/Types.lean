import Tsuzuri.Basic

/-!
# Checked types

The types that the checker assigns to expressions (`check.rs`), the declarations they refer to, and
the substitution of type parameters (`polymorph.rs`, `higher_kinds.rs`).
-/

namespace Tsuzuri

/-- The pointer kind of a shared type. -/
inductive SharedKind where
  | rc | rcWeak | arc | arcWeak
deriving DecidableEq

inductive ParameterConvention where
  | own | read | mut
deriving DecidableEq

inductive SimdKind where
  | signed | unsigned | float | mask
deriving DecidableEq

structure SimdType where
  bits : Nat
  kind : SimdKind
  width : Nat
deriving DecidableEq

/-- The classes and markers of a `dyn` type. -/
structure DynType where
  classes : List String
  copy : Bool
  send : Bool
  borrowed : Bool
deriving DecidableEq

/-- `higher_kinds::Constructor`: a type constructor and its arity. -/
inductive TypeConstructor where
  | record (id arity : Nat)
  | union (id arity : Nat)
  | array
  | list
  | vec
deriving DecidableEq

def TypeConstructor.arity : TypeConstructor → Nat
  | .record _ arity | .union _ arity => arity
  | _ => 1

inductive Ty where
  | error
  | variable (name : String)
  | infer (id : Nat)
  | partialApp (constructor : TypeConstructor) (trailing : List Ty)
  | application (head : Ty) (arguments : List Ty)
  | integer (bits : Nat) (signed : Bool)
  | binary (bits : Nat)
  | decimal (bits : Nat)
  | simd (type : SimdType)
  | bool
  | unit
  | char
  | utf8Char
  | string
  | utf8String
  | record (id : Nat) (args : List Ty)
  | union (id : Nat) (args : List Ty)
  | array (element : Ty)
  | arrayView (element : Ty)
  | fixedArray (element length : Ty)
  | length (n : Nat)
  | list (element : Ty)
  | vec (element : Ty)
  | tuple (elements : List Ty)
  | once (result : Ty)
  | handle (name : String)
  | function (types : List Ty) (conventions : List ParameterConvention) (pure : Bool) (result : Ty)
  | reference (target : Ty) (mutable : Bool)
  | dyn (type : DynType)
  | shared (target : Ty) (kind : SharedKind)
deriving Inhabited

namespace Ty

def i32 : Ty := .integer 32 true

def i64 : Ty := .integer 64 true

def isInteger : Ty → Bool
  | .integer .. => true
  | _ => false

def isFloat : Ty → Bool
  | .binary _ | .decimal _ => true
  | _ => false

def isUnknown : Ty → Bool
  | .variable _ | .infer _ => true
  | _ => false

/-! ## Equality

The derive handler does not cover nested types; the constructor index
leaves only the diagonal to match. -/

mutual

def decEq (a b : Ty) : Decidable (a = b) :=
  if h : a.ctorIdx = b.ctorIdx then
    match a, b, h with
    | .error, .error, _ => isTrue rfl
    | .variable a, .variable b, _ => decidable_of_iff (a = b) (by simp)
    | .infer a, .infer b, _ => decidable_of_iff (a = b) (by simp)
    | .partialApp c t, .partialApp c' t', _ =>
      have := decEqList t t'
      decidable_of_iff (c = c' ∧ t = t') (by simp)
    | .application h a, .application h' a', _ =>
      have := decEq h h'
      have := decEqList a a'
      decidable_of_iff (h = h' ∧ a = a') (by simp)
    | .integer a s, .integer b t, _ => decidable_of_iff (a = b ∧ s = t) (by simp)
    | .binary a, .binary b, _ => decidable_of_iff (a = b) (by simp)
    | .decimal a, .decimal b, _ => decidable_of_iff (a = b) (by simp)
    | .simd a, .simd b, _ => decidable_of_iff (a = b) (by simp)
    | .bool, .bool, _ => isTrue rfl
    | .unit, .unit, _ => isTrue rfl
    | .char, .char, _ => isTrue rfl
    | .utf8Char, .utf8Char, _ => isTrue rfl
    | .string, .string, _ => isTrue rfl
    | .utf8String, .utf8String, _ => isTrue rfl
    | .record c t, .record c' t', _ =>
      have := decEqList t t'
      decidable_of_iff (c = c' ∧ t = t') (by simp)
    | .union c t, .union c' t', _ =>
      have := decEqList t t'
      decidable_of_iff (c = c' ∧ t = t') (by simp)
    | .array a, .array b, _ => have := decEq a b; decidable_of_iff (a = b) (by simp)
    | .arrayView a, .arrayView b, _ => have := decEq a b; decidable_of_iff (a = b) (by simp)
    | .fixedArray a l, .fixedArray b m, _ =>
      have := decEq a b
      have := decEq l m
      decidable_of_iff (a = b ∧ l = m) (by simp)
    | .length a, .length b, _ => decidable_of_iff (a = b) (by simp)
    | .list a, .list b, _ => have := decEq a b; decidable_of_iff (a = b) (by simp)
    | .vec a, .vec b, _ => have := decEq a b; decidable_of_iff (a = b) (by simp)
    | .tuple t, .tuple t', _ => have := decEqList t t'; decidable_of_iff (t = t') (by simp)
    | .once a, .once b, _ => have := decEq a b; decidable_of_iff (a = b) (by simp)
    | .handle a, .handle b, _ => decidable_of_iff (a = b) (by simp)
    | .function t c p r, .function t' c' p' r', _ =>
      have := decEqList t t'
      have := decEq r r'
      decidable_of_iff (t = t' ∧ c = c' ∧ p = p' ∧ r = r') (by simp)
    | .reference a m, .reference b n, _ =>
      have := decEq a b
      decidable_of_iff (a = b ∧ m = n) (by simp)
    | .dyn a, .dyn b, _ => decidable_of_iff (a = b) (by simp)
    | .shared a m, .shared b n, _ =>
      have := decEq a b
      decidable_of_iff (a = b ∧ m = n) (by simp)
  else isFalse fun e => h (e ▸ rfl)

def decEqList : (a b : List Ty) → Decidable (a = b)
  | [], [] => isTrue rfl
  | [], _ :: _ => isFalse nofun
  | _ :: _, [] => isFalse nofun
  | a :: as, b :: bs =>
    have := decEq a b
    have := decEqList as bs
    decidable_of_iff (a = b ∧ as = bs) (by simp)

end

instance : DecidableEq Ty := decEq

/-! ## Substitution -/

/-- The loop of `Type::function_with_conventions`, for impure function types that are returned. -/
def flatten (parameters : List Ty) (conventions : List ParameterConvention) : Ty → Ty
  | .function more moreConventions false tail =>
    if more.isEmpty then
      .function parameters conventions false (.function more moreConventions false tail)
    else
      let resize (n : Nat) := conventions ++ List.replicate (n - conventions.length) .own
      let conventions :=
        if !moreConventions.isEmpty then resize parameters.length ++ moreConventions
        else if !conventions.isEmpty then resize (parameters.length + more.length)
        else conventions
      flatten (parameters ++ more) conventions tail
  | result => .function parameters conventions false result

def functionWithConventions (parameters : List Ty) (conventions : List ParameterConvention)
    (pure : Bool) (result : Ty) : Ty :=
  let conventions := if conventions.all (· == .own) then [] else conventions
  if !pure && !parameters.isEmpty then flatten parameters conventions result
  else .function parameters conventions pure result

def apply (head : Ty) (arguments : List Ty) : Ty :=
  match head with
  | .partialApp constructor trailing =>
    if arguments.length + trailing.length = constructor.arity then
      let complete := arguments ++ trailing
      match constructor with
      | .record id _ => .record id complete
      | .union id _ => .union id complete
      | .array => .array (complete.headD .error)
      | .list => .list (complete.headD .error)
      | .vec => .vec (complete.headD .error)
    else .application head arguments
  | _ => .application head arguments

mutual

def substitute (substitutions : String → Option Ty) : Ty → Ty
  | .partialApp constructor trailing =>
    .partialApp constructor (substituteList substitutions trailing)
  | .application head arguments =>
    apply (substitute substitutions head) (substituteList substitutions arguments)
  | .array element => .array (substitute substitutions element)
  | .arrayView element => .arrayView (substitute substitutions element)
  | .fixedArray element count =>
    .fixedArray (substitute substitutions element) (substitute substitutions count)
  | .list element => .list (substitute substitutions element)
  | .vec element => .vec (substitute substitutions element)
  | .shared target kind => .shared (substitute substitutions target) kind
  | .tuple elements => .tuple (substituteList substitutions elements)
  | .once result => .once (substitute substitutions result)
  | .reference target mutable => .reference (substitute substitutions target) mutable
  | .function types conventions pure result =>
    functionWithConventions (substituteList substitutions types) conventions pure (substitute substitutions result)
  | .record id args => .record id (substituteList substitutions args)
  | .union id args => .union id (substituteList substitutions args)
  | .variable name => (substitutions name).getD (.variable name)
  | ty => ty

def substituteList (substitutions : String → Option Ty) : List Ty → List Ty
  | [] => []
  | ty :: tys => substitute substitutions ty :: substituteList substitutions tys

end

end Ty

/-! ## Declarations -/

structure CheckedRecord where
  name : String
  parameters : List String
  fields : List (String × Ty)
  userDrop : Bool
deriving Inhabited

structure CheckedUnion where
  name : String
  parameters : List String
  cases : List (String × Option Ty)
  userDrop : Bool
deriving Inhabited

/-- The declarations that `Record(id, ..)` and `Union(id, ..)` index. -/
structure TypeContext where
  records : List CheckedRecord
  unions : List CheckedUnion

namespace TypeContext

def record (types : TypeContext) (id : Nat) : CheckedRecord :=
  types.records.getD id default

def union (types : TypeContext) (id : Nat) : CheckedUnion :=
  types.unions.getD id default

/-- The later of two equal names wins, as when collecting into a map. -/
def typeParameterSubstitutions (parameters : List String) (args : List Ty) (name : String) :
    Option Ty :=
  (parameters.zip args).reverse.lookup name

def instantiate (parameters : List String) (args : List Ty) (ty : Ty) : Ty :=
  if args.isEmpty then ty
  else ty.substitute (typeParameterSubstitutions parameters args)

def recordFields (types : TypeContext) (id : Nat) (args : List Ty) : List Ty :=
  let record := types.record id
  record.fields.map fun (_, ty) => instantiate record.parameters args ty

def unionPayloads (types : TypeContext) (id : Nat) (args : List Ty) : List (Option Ty) :=
  let union := types.union id
  union.cases.map fun (_, ty) => ty.map (instantiate union.parameters args)

end TypeContext

end Tsuzuri
