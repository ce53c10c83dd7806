import Tsuzuri.Cover

/-!
# Values, types and what patterns accept

What the coverage check is measured against: the values of a type, those that a pattern accepts as far as the checker
can vouch (`Accepts`), and those it may match (`MayMatch`).
-/

namespace Tsuzuri

open PatternMatrix (Row Matches MatchesAll TypedAll FieldsTyped Exhausts)

def Ty.strip : Ty → Ty
  | .reference (.arrayView element) _ => .array element
  | .reference target _ => target.strip
  | ty => ty

def Ty.isNumeric : Ty → Bool
  | .integer .. | .binary _ | .decimal _ | .char | .utf8Char => true
  | _ => false

def Ty.isOpaque : Ty → Bool
  | .error | .partialApp .. | .application .. | .simd _ | .arrayView _ | .fixedArray ..
  | .length _ | .vec _ | .once _ | .handle _ | .function .. | .dyn _ | .shared .. => true
  | _ => false

/-- The types of the arguments of a constructor of the type `τ`. -/
def fieldTypes (types : TypeContext) (constructor : Constructor) (τ : Ty) : Option (List Ty) :=
  match constructor, τ.strip with
  | .bool _, .bool => some []
  | .unit, .unit => some []
  | .union unionId caseId, .union id args =>
    if unionId = id then (types.unionPayloads id args)[caseId]?.map Option.toList else none
  | .tuple count, .tuple elements => if count = elements.length then some elements else none
  | .record recordId fieldCount, .record id args =>
    if recordId = id ∧ fieldCount = (types.recordFields id args).length then
      some (types.recordFields id args)
    else none
  | .arrayLen count, .array element => some (List.replicate count element)
  | .listNil, .list _ => some []
  | .listCons, .list element => some [element, .list element]
  | .literal _, ty => if ty.literalDomain then some [] else none
  | _, _ => none

inductive HasType (types : TypeContext) : Value → Ty → Prop
  | bool {b : Bool} {τ : Ty} (h : τ.strip = .bool) : HasType types (.bool b) τ
  | unit {τ : Ty} (h : τ.strip = .unit) : HasType types .unit τ
  | union {id case : Nat} {args : List Ty} {τ : Ty} (h : τ.strip = .union id args)
      (hcase : (types.unionPayloads id args)[case]? = some none) :
      HasType types (.union id case none) τ
  | payload {id case : Nat} {args : List Ty} {σ τ : Ty} {v : Value} (h : τ.strip = .union id args)
      (hcase : (types.unionPayloads id args)[case]? = some (some σ))
      (hv : HasType types v σ) : HasType types (.union id case (some v)) τ
  | tuple {vs : List Value} {σs : List Ty} {τ : Ty} (h : τ.strip = .tuple σs)
      (hvs : List.Forall₂ (HasType types) vs σs) : HasType types (.tuple vs) τ
  | record {id : Nat} {vs : List Value} {args : List Ty} {τ : Ty} (h : τ.strip = .record id args)
      (hvs : List.Forall₂ (HasType types) vs (types.recordFields id args)) :
      HasType types (.record id vs) τ
  | array {vs : List Value} {σ τ : Ty} (h : τ.strip = .array σ)
      (hvs : ∀ v ∈ vs, HasType types v σ) : HasType types (.array vs) τ
  | listNil {σ τ : Ty} (h : τ.strip = .list σ) : HasType types .listNil τ
  | listCons {head tail : Value} {σ τ : Ty} (h : τ.strip = .list σ)
      (hhead : HasType types head σ) (htail : HasType types tail (.list σ)) :
      HasType types (.listCons head tail) τ
  | number {x : Number} {τ : Ty} (h : τ.strip.isNumeric) : HasType types (.number τ.strip x) τ
  | text16 {units : List Nat} {τ : Ty} (h : τ.strip = .string) : HasType types (.text (.utf16 units)) τ
  | text8 {text : String} {τ : Ty} (h : τ.strip = .utf8String) : HasType types (.text (.utf8 text)) τ
  | unknown {v : Value} {τ : Ty} (h : τ.strip.isUnknown) : HasType types v τ
  | other {v : Value} {τ : Ty} (h : τ.strip.isOpaque) : HasType types v τ

def Value.decompose : Value → Option (Constructor × List Value)
  | .bool b => some (.bool b, [])
  | .unit => some (.unit, [])
  | .union id case payload => some (.union id case, payload.toList)
  | .tuple vs => some (.tuple vs.length, vs)
  | .record id vs => some (.record id vs.length, vs)
  | .array vs => some (.arrayLen vs.length, vs)
  | .listNil => some (.listNil, [])
  | .listCons head tail => some (.listCons, [head, tail])
  | .number .. | .text _ | .other _ => none

/-- The value `v` is the constructor applied to `vs`. -/
def Constructed (c : Constructor) (vs : List Value) (v : Value) : Prop :=
  v.decompose = some (c, vs)

variable {c : Constructor} {us vs : List Value} {v : Value}

theorem Constructed.unique (hu : Constructed c us v) (hv : Constructed c vs v) : us = vs :=
  (Prod.mk.inj (Option.some.inj (hu.symm.trans hv))).2

theorem Constructed.ne_literal (h : Constructed c vs v) (key : LiteralKey) : c ≠ .literal key := by
  rintro rfl
  cases v <;> simp [Constructed, Value.decompose] at h

section Meaning

variable (checker : Checker) (equals : TypedExpr → Value → Prop)

mutual

/-- A pattern that the checker accepts against a value of the type `τ`. -/
def PatTyped : CoveragePat → Ty → Prop
  | .wildcard, _ => True
  | .constructor c arguments, τ =>
    (∀ key, c ≠ .literal key) ∧ ∃ σs, fieldTypes checker.types c τ = some σs ∧ PatTypedAll arguments σs
  | .or left right, τ => PatTyped left τ ∧ PatTyped right τ
  | .and left right, τ => PatTyped left τ ∧ PatTyped right τ
  | .literal e, τ => LiteralTyped checker τ.strip e
  | .total none, _ => True
  | .total (some payload), _ => ∃ σ, PatTyped payload σ
  | .activeCase _ index count, _ => index < count
  | .opaquePat, _ => True

def PatTypedAll : List CoveragePat → List Ty → Prop
  | [], [] => True
  | p :: ps, τ :: τs => PatTyped p τ ∧ PatTypedAll ps τs
  | _, _ => False

end

mutual

def Accepts : CoveragePat → Value → Prop
  | .wildcard, _ => True
  | .constructor c arguments, v => ∃ vs, Constructed c vs v ∧ AcceptsAll arguments vs
  | .or left right, v => Accepts left v ∨ Accepts right v
  | .and left right, v => Accepts left v ∧ Accepts right v
  | .literal e, v => matchesLiteral checker equals e v
  | .total none, _ => True
  | .total (some payload), _ =>
    ∀ σ, PatTyped checker payload σ → ∀ w, HasType checker.types w σ → Accepts payload w
  | .activeCase .., _ => False
  | .opaquePat, _ => False

def AcceptsAll : List CoveragePat → List Value → Prop
  | [], [] => True
  | p :: ps, v :: vs => Accepts p v ∧ AcceptsAll ps vs
  | _, _ => False

end

mutual

def MayMatch : CoveragePat → Value → Prop
  | .wildcard, _ => True
  | .constructor c arguments, v => ∃ vs, Constructed c vs v ∧ MayMatchAll arguments vs
  | .or left right, v => MayMatch left v ∨ MayMatch right v
  | .and left right, v => MayMatch left v ∧ MayMatch right v
  | .literal e, v => matchesLiteral checker equals e v
  | .total _, _ => True
  | .activeCase .., _ => True
  | .opaquePat, _ => True

def MayMatchAll : List CoveragePat → List Value → Prop
  | [], [] => True
  | p :: ps, v :: vs => MayMatch p v ∧ MayMatchAll ps vs
  | _, _ => False

end

/-! ## Clashes

An and-pattern asks two patterns of one value. Where both ask for a literal,
the checker compares the two keys and not the values of the literals. A trace
records what one way of matching a value asks at each position: the
constructor or literal key there, or `none` for a literal without a key of its
own. A value *clashes* with a pattern that matches it when every way asks for
two different keys, or for a literal without one and another, at one position
of the two sides of an and-pattern. -/

def literalHead (e : TypedExpr) : Option Constructor :=
  let ty := checker.resolve e.ty
  match unsign e with
  | (false, .bool value) => some (.bool value)
  | (false, .unit) => some .unit
  | (false, .string text) => some (.literal (.text text))
  | (negative, kind) =>
    (literalText checker ty negative kind).map fun text => .literal (.number ty text)

abbrev Trace := PatternMatrix.Pat (Option Constructor)

mutual

def joinTraces : Trace → Trace → Option Trace
  | .wild, right => some right
  | left, .wild => some left
  | .ctor (some a) left, .ctor (some b) right =>
    if a = b then (joinAllTraces left right).map (.ctor (some a)) else none
  | .ctor none _, .ctor _ _ => none
  | .ctor (some _) _, .ctor none _ => none

def joinAllTraces : List Trace → List Trace → Option (List Trace)
  | left :: lefts, right :: rights => do
    let head ← joinTraces left right
    let tail ← joinAllTraces lefts rights
    return head :: tail
  | _, _ => some []

end

mutual

/-- The pattern matches the value in the way `trace` records. -/
def Tests : CoveragePat → Value → Trace → Prop
  | .constructor c arguments, v, trace =>
    ∃ vs traces, Constructed c vs v ∧ TestsAll arguments vs traces ∧ trace = .ctor (some c) traces
  | .or left right, v, trace => Tests left v trace ∨ Tests right v trace
  | .and left right, v, trace =>
    ∃ l r, Tests left v l ∧ Tests right v r ∧ joinTraces l r = some trace
  | .literal e, v, trace =>
    matchesLiteral checker equals e v ∧ trace = .ctor (literalHead checker e) []
  | .wildcard, _, trace | .total _, _, trace | .activeCase .., _, trace
  | .opaquePat, _, trace => trace = .wild

def TestsAll : List CoveragePat → List Value → List Trace → Prop
  | [], [], traces => traces = []
  | p :: ps, v :: vs, traces =>
    ∃ t ts, Tests p v t ∧ TestsAll ps vs ts ∧ traces = t :: ts
  | _, _, _ => False

end

def Clashes (p : CoveragePat) (v : Value) : Prop :=
  MayMatch checker equals p v ∧ ∀ trace, ¬ Tests checker equals p v trace

/-! ## Normalized patterns

A literal key stands for the values that the literals with this key match.
A distinct key `#n` belongs to one literal of one arm only, which the
checker knows nothing about. Rows normalized before the count reached `d`
have keys up to `#d`; these match nothing, and the later ones anything. -/

def KeyMatches (d : Nat) (key : LiteralKey) (v : Value) : Prop :=
  match key with
  | .text text => v = .text text
  | .number ty bits =>
    (∃ n, bits = distinctText n ∧ d < n) ∨ ∃ e, LiteralTyped checker ty e
        ∧ literalText checker ty (unsign e).1 (unsign e).2 = some bits
        ∧ matchesLiteral checker equals e v

def Built (d : Nat) (c : Constructor) (vs : List Value) (v : Value) : Prop :=
  Constructed c vs v ∨ ∃ key, c = .literal key ∧ vs = [] ∧ KeyMatches checker equals d key v

variable {checker equals} {d : Nat}

theorem Built.unique (hu : Built checker equals d c us v) (hv : Built checker equals d c vs v) : us = vs := by
  rcases hu with hu | ⟨key, rfl, rfl, -⟩ <;> rcases hv with hv | ⟨key', hkey, rfl, -⟩
  · exact hu.unique hv
  · exact absurd hkey (hu.ne_literal key')
  · exact absurd rfl (hv.ne_literal key)
  · rfl

theorem Built.constructed (h : Built checker equals d c vs v) (hc : ∀ key, c ≠ .literal key) : Constructed c vs v :=
  h.resolve_right fun ⟨key, hkey, _⟩ => hc key hkey

end Meaning

/-! ## Typed values take the constructors of their type -/

section Typing

variable {checker : Checker} {equals : TypedExpr → Value → Prop} {d : Nat}

theorem forall₂_replicate {α β : Type} {R : α → β → Prop} {as : List α} {b : β}
    (h : ∀ a ∈ as, R a b) : List.Forall₂ R as (List.replicate as.length b) := by
  induction as with
  | nil => exact .nil
  | cons a as ih =>
    exact .cons (h a (by simp)) (ih fun a' ha' => h a' (by simp [ha']))

theorem fieldTypes_eq_none {types : TypeContext} {τ : Ty} (h : τ.strip.isUnknown ∨ τ.strip.isOpaque)
    (hc : ∀ key, c ≠ .literal key) : fieldTypes types c τ = none := by
  unfold fieldTypes
  split <;> simp_all [Ty.isUnknown, Ty.isOpaque]

theorem constructed_fieldsTyped {types : TypeContext} : FieldsTyped (fieldTypes types) Constructed (HasType types) := by
  intro c vs v τ σs hc hv hσ
  have hlit := hc.ne_literal
  cases hv with
  | bool h | unit h | listNil h =>
    cases hc
    obtain rfl : [] = σs := by simpa [fieldTypes, h] using hσ
    exact .nil
  | union h hcase =>
    cases hc
    obtain rfl : [] = σs := by simpa [fieldTypes, h, hcase] using hσ
    exact .nil
  | payload h hcase hv =>
    cases hc
    obtain rfl : [_] = σs := by simpa [fieldTypes, h, hcase] using hσ
    exact .cons hv .nil
  | tuple h hvs | record h hvs =>
    cases hc
    obtain rfl : _ = σs := by simpa [fieldTypes, h, hvs.length_eq] using hσ
    exact hvs
  | array h hvs =>
    cases hc
    obtain rfl : _ = σs := by simpa [fieldTypes, h] using hσ
    exact forall₂_replicate hvs
  | listCons h hhead htail =>
    cases hc
    obtain rfl : _ = σs := by simpa [fieldTypes, h] using hσ
    exact .cons hhead (.cons htail .nil)
  | number _ | text16 _ | text8 _ => simp [Constructed, Value.decompose] at hc
  | unknown h => simp [fieldTypes_eq_none (.inl h) hlit] at hσ
  | other h => simp [fieldTypes_eq_none (.inr h) hlit] at hσ

theorem built_fieldsTyped :
    FieldsTyped (fieldTypes checker.types) (Built checker equals d) (HasType checker.types) := by
  intro c vs v τ σs hbuilt hv hσ
  rcases hbuilt with hc | ⟨key, rfl, rfl, -⟩
  · exact constructed_fieldsTyped c vs v τ σs hc hv hσ
  · obtain rfl : [] = σs := by
      have : (if τ.strip.literalDomain then some [] else none) = some σs := hσ
      split at this <;> simp_all
    exact .nil

end Typing

end Tsuzuri
