import Mathlib
import Tsuzuri.Digits
import Tsuzuri.Typed

/-!
# Literal patterns and their keys

`exhaustiveness.rs` compares literal patterns by a *key*. Literals of one type with the same key match the same values
(`matchesLiteral_of_key`).
-/

namespace Tsuzuri

open List Option

/-- Literal values compare by code units, or by canonical numeric text. -/
inductive LiteralKey where
  | number (ty : Ty) (bits : String)
  | text (literal : StringLiteral)
deriving DecidableEq

inductive Constructor where
  | bool (value : Bool)
  | unit
  | union (unionId caseId : Nat)
  | tuple (count : Nat)
  | record (recordId fieldCount : Nat)
  | arrayLen (count : Nat)
  | listNil
  | listCons
  | literal (key : LiteralKey)
deriving DecidableEq

structure Checker where
  types : TypeContext
  resolve : Ty → Ty
  floatLiteral : String → Ty → Option String
  caseName : Nat → Nat → Span → String

/-! ## Numbers -/

/-- A floating-point number as comparisons see it: both zeros are `finite 0`. -/
inductive FloatVal where
  | nan
  | infinite (negative : Bool)
  | finite (value : ℚ)

def signed (negative : Bool) (q : ℚ) : ℚ := if negative then -q else q

/-- The value of one digit, as `u128::from_str_radix` reads it. -/
def digitOf (radix : Nat) (c : Char) : Option Nat :=
  let value :=
    if c.isDigit then c.toNat - '0'.toNat
    else if 'a' ≤ c ∧ c ≤ 'z' then c.toNat - 'a'.toNat + 10
    else if 'A' ≤ c ∧ c ≤ 'Z' then c.toNat - 'A'.toNat + 10
    else radix
  if value < radix then some value else none

/-- `u128::from_str_radix`, without the sign that no literal has. -/
def parseU128 (radix : Nat) (text : List Char) : Option Nat :=
  if text.isEmpty then none
  else do
    let n ← text.foldlM (fun n c => (digitOf radix c).map (n * radix + ·)) 0
    if n < 2 ^ 128 then some n else none

/-- An `f32` literal is stored as its exact `f64` value. -/
def binaryRaw (width : Nat) (bits : String) : Option (Nat × Nat) :=
  if width = 32 ∨ width = 64 then
    match bits.toList with
    | '0' :: 'x' :: digits => (parseU128 16 digits).map (·, 64)
    | _ => none
  else (parseU128 10 bits.toList).map (·, width)

def binaryFormat : Nat → Option (Nat × Nat)
  | 16 => some (5, 10)
  | 64 => some (11, 52)
  | 128 => some (15, 112)
  | _ => none

def binaryKey (width raw : Nat) : Option String := do
  let (exponentBits, fractionBits) ← binaryFormat width
  let sign := 2 ^ (width - 1)
  let magnitude := raw &&& (sign - 1)
  let exponent := (2 ^ exponentBits - 1) <<< fractionBits
  let fraction := 2 ^ fractionBits - 1
  if magnitude &&& exponent = exponent ∧ magnitude &&& fraction ≠ 0 then some "NaN"
  else if magnitude = 0 then some "0"
  else some (String.ofList (Nat.toDigits 16 raw))

def binaryValue (width raw : Nat) : Option FloatVal := do
  let (exponentBits, fractionBits) ← binaryFormat width
  let sign := 2 ^ (width - 1)
  let magnitude := raw &&& (sign - 1)
  let exponent := (2 ^ exponentBits - 1) <<< fractionBits
  let fraction := 2 ^ fractionBits - 1
  let negative := decide (raw &&& sign ≠ 0)
  if magnitude &&& exponent = exponent then
    if magnitude &&& fraction ≠ 0 then some .nan else some (.infinite negative)
  else
    let biased := (magnitude &&& exponent) >>> fractionBits
    let significand := (magnitude &&& fraction) + if biased = 0 then 0 else 2 ^ fractionBits
    let power : ℤ := (max biased 1 : Nat) - (2 ^ (exponentBits - 1) - 1) - fractionBits
    some (.finite (signed negative (significand * 2 ^ power)))

/-- Precision, least exponent and coefficient bits (`numeric::decimal_format`). -/
def decimalFormat : Nat → Option (Nat × ℤ × Nat)
  | 32 => some (7, -101, 23)
  | 64 => some (16, -398, 53)
  | 128 => some (34, -6176, 113)
  | _ => none

inductive DecimalParts where
  | nan
  | infinite (minus : Bool)
  | finite (minus : Bool) (coefficient : Nat) (exponent : ℤ)

def decimalParts (width raw : Nat) : Option DecimalParts := do
  let (precision, minimum, fraction) ← decimalFormat width
  let sign := 2 ^ (width - 1)
  let minus := decide (raw &&& sign ≠ 0)
  let raw := raw &&& (sign - 1)
  let combination := raw >>> (width - 6)
  if combination = 31 then return .nan
  if combination = 30 then return .infinite minus
  let mask (bits : Nat) := 2 ^ bits - 1
  let (exponent, coefficient) :=
    if raw >>> (width - 3) = 3 ∧ width ≠ 128 then
      ((raw >>> (fraction - 2)) &&& mask (width - fraction - 1), (raw &&& mask (fraction - 2)) ||| 2 ^ fraction)
    else (raw >>> fraction, raw &&& mask fraction)
  let coefficient :=
    if coefficient ≥ 10 ^ precision ∨ (width = 128 ∧ raw >>> 125 = 3) then 0 else coefficient
  return .finite minus coefficient (exponent + minimum)

def stripZeros (coefficient : Nat) (exponent : ℤ) : Nat × ℤ :=
  if h : coefficient ≠ 0 ∧ coefficient % 10 = 0 then
    stripZeros (coefficient / 10) (exponent + 1)
  else (coefficient, exponent)
termination_by coefficient
decreasing_by omega

def minusText (minus : Bool) : String := if minus then "-" else ""

def decimalKey : DecimalParts → String
  | .nan => "NaN"
  | .infinite minus => minusText minus ++ "inf"
  | .finite minus coefficient exponent =>
    if coefficient = 0 then "0"
    else
      let (coefficient, exponent) := stripZeros coefficient exponent
      minusText minus ++ (toString coefficient ++ "e" ++ toString exponent)

def decimalValue : DecimalParts → FloatVal
  | .nan => .nan
  | .infinite minus => .infinite minus
  | .finite minus coefficient exponent => .finite (signed minus (coefficient * 10 ^ exponent))

def flipSign (width : Nat) (negative : Bool) (raw : Nat) : Nat :=
  if negative then raw ^^^ 2 ^ (width - 1) else raw

/-- The canonical text of a floating-point literal: `"0"`, a normalized coefficient and exponent, or `"NaN"`. -/
def floatKey (ty : Ty) (bits : String) (negative : Bool) : Option String :=
  match ty with
  | .binary width => do
    let (raw, width) ← binaryRaw width bits
    binaryKey width (flipSign width negative raw)
  | .decimal width => do
    let raw ← parseU128 10 bits.toList
    return decimalKey (← decimalParts width (flipSign width negative raw))
  | _ => none

def floatValue (ty : Ty) (bits : String) (negative : Bool) : Option FloatVal :=
  match ty with
  | .binary width => do
    let (raw, width) ← binaryRaw width bits
    binaryValue width (flipSign width negative raw)
  | .decimal width => do
    let raw ← parseU128 10 bits.toList
    return decimalValue (← decimalParts width (flipSign width negative raw))
  | _ => none

theorem isFloat_of_floatKey {ty : Ty} {bits key : String} {negative : Bool}
    (h : floatKey ty bits negative = some key) : ty.isFloat = true := by
  cases ty with
  | binary width => rfl
  | decimal width => rfl
  | _ => simp [floatKey] at h

/-- By way of 128 bits. -/
def cut (width value : Nat) (negative : Bool) : Nat :=
  (if negative then (2 ^ 128 - value) % 2 ^ 128 else value) % 2 ^ width

/-- `Checker::integer_literal` without a suffix: in the expected type, else in `i32`. -/
def integerLiteral (value : Nat) (expected : Ty) (negative : Bool) : Option Nat :=
  match if expected.isInteger then expected else Ty.i32 with
  | .integer bits signed =>
    let maximum :=
      if signed then 2 ^ (bits - 1) - (if negative then 0 else 1) else 2 ^ bits - 1
    if value > maximum ∨ (negative ∧ ¬ signed) then none
    else some (cut bits value negative)
  | _ => none

def unsign (e : TypedExpr) : Bool × TypedExprKind :=
  match e.kind with
  | .unary .negate value => (true, value.kind)
  | kind => (false, kind)

def literalText (checker : Checker) (ty : Ty) (negative : Bool) (kind : TypedExprKind) :
    Option String :=
  match kind, negative with
  | .int bits, false => some (toString bits)
  | .genericInteger magnitude minus, false =>
    if ty.isInteger then (integerLiteral magnitude ty minus).map toString
    else some ((if minus ∧ magnitude ≠ 0 then "-" else "") ++ toString magnitude)
  | .float bits, negative => floatKey ty bits negative
  | .genericFloat text, negative =>
    if ty.isFloat then (checker.floatLiteral text ty).bind (floatKey ty · negative)
    else some (minusText negative ++ text)
  | _, _ => none

inductive Literal where
  | constructor (constructor : Constructor)
  | never

def distinctText (n : Nat) : String := "#" ++ toString n

def literal (checker : Checker) (e : TypedExpr) (distinct : Nat) : Literal × Nat :=
  let ty := checker.resolve e.ty
  match unsign e with
  | (false, .bool value) => (.constructor (.bool value), distinct)
  | (false, .unit) => (.constructor .unit, distinct)
  | (false, .string text) => (.constructor (.literal (.text text)), distinct)
  | (negative, kind) =>
    match literalText checker ty negative kind with
    | some text =>
      if text = "NaN" then (.never, distinct)
      else (.constructor (.literal (.number ty text)), distinct)
    | none => (.constructor (.literal (.number ty (distinctText (distinct + 1)))), distinct + 1)

inductive Number where
  | bits (n : Nat)
  | float (x : FloatVal)

/-- A run-time value as patterns see it, through references; `other` is a value that no pattern looks into. -/
inductive Value where
  | bool (value : Bool)
  | unit
  | union (unionId caseId : Nat) (payload : Option Value)
  | tuple (elements : List Value)
  | record (recordId : Nat) (fields : List Value)
  | array (elements : List Value)
  | listNil
  | listCons (head tail : Value)
  | number (ty : Ty) (number : Number)
  | text (literal : StringLiteral)
  | other (tag : Nat)

def literalNumber (checker : Checker) (ty : Ty) (negative : Bool) (kind : TypedExprKind) :
    Option Number :=
  match kind, negative with
  | .int bits, false => some (.bits bits)
  | .genericInteger magnitude minus, false =>
    -- a numeral with a sign asks for a signed type, so `-0` meets no unsigned one
    if ty.isInteger then (integerLiteral magnitude ty (minus && magnitude != 0)).map .bits else none
  | .float bits, negative => (floatValue ty bits negative).map .float
  | .genericFloat text, negative =>
    ((checker.floatLiteral text ty).bind (floatValue ty · negative)).map .float
  | _, _ => none

def isNumeral : Bool → TypedExprKind → Bool
  | false, .int _ | false, .genericInteger .. | _, .float _ | _, .genericFloat _ => true
  | _, _ => false

def matchesLiteral (checker : Checker) (equals : TypedExpr → Value → Prop) (e : TypedExpr) (v : Value) : Prop :=
  match unsign e with
  | (false, .bool value) => v = .bool value
  | (false, .unit) => v = .unit
  | (false, .string text) => v = .text text
  | (negative, kind) =>
    if isNumeral negative kind then
      ∃ ty x, v = .number ty x ∧ literalNumber checker ty negative kind = some x ∧ x ≠ .float .nan
    else equals e v

/-! ## Keys determine numbers -/

variable {raw n width c : Nat} {key bits : String} {minus negative : Bool} {p : DecimalParts} {ty : Ty}

theorem hexText_ne {c : Char} {s : String} (hc : c ∈ s.toList) (hdigit : ∀ n < 16, Nat.digitChar n ≠ c) :
    String.ofList (Nat.toDigits 16 raw) ≠ s := by
  rintro rfl
  rw [String.toList_ofList] at hc
  exact Digits.notMem_toDigits (by decide) hdigit raw hc

theorem hexText_inj {m : Nat} (h : String.ofList (Nat.toDigits 16 m) = String.ofList (Nat.toDigits 16 n)) : m = n :=
  Digits.toDigits_inj (by decide) (by decide) (String.ofList_injective h)

theorem binaryKey_cases (h : binaryKey width raw = some key) : (key = "NaN" ∧ binaryValue width raw = some .nan)
      ∨ (key = "0" ∧ binaryValue width raw = some (.finite 0))
      ∨ (key = String.ofList (Nat.toDigits 16 raw) ∧ raw ≠ 0) := by
  simp only [binaryKey, bind_eq_bind] at h
  simp only [binaryValue, bind_eq_bind]
  obtain ⟨⟨eb, fb⟩, hfmt, h⟩ := bind_eq_some_iff.mp h
  simp only [hfmt, bind_some]
  split at h
  · rename_i hnan
    left
    rw [if_pos hnan.1, if_pos hnan.2]
    exact ⟨(Option.some.inj h).symm, rfl⟩
  · split at h
    · rename_i hzero
      right; left
      refine ⟨(Option.some.inj h).symm, ?_⟩
      have hmask : (2 ^ eb - 1) <<< fb ≠ 0 := by
        rw [Nat.shiftLeft_eq]
        unfold binaryFormat at hfmt
        split at hfmt <;> simp_all <;> obtain ⟨rfl, rfl⟩ := hfmt <;> decide
      simp [hzero, hmask.symm, signed]
    · rename_i hzero
      right; right
      refine ⟨(Option.some.inj h).symm, ?_⟩
      rintro rfl
      exact hzero (by simp)

theorem binaryKey_sound {raw' : Nat} (h : binaryKey width raw = some key) (h' : binaryKey width raw' = some key) :
    binaryValue width raw = binaryValue width raw' := by
  have hN : ∀ n < 16, Nat.digitChar n ≠ 'N' := by decide
  have hzero {n : Nat} (hn : n ≠ 0) : String.ofList (Nat.toDigits 16 n) ≠ "0" :=
    fun he => hn (hexText_inj (he.trans (by simp)))
  rcases binaryKey_cases h with ⟨rfl, hv⟩ | ⟨rfl, hv⟩ | ⟨rfl, hne⟩ <;>
    rcases binaryKey_cases h' with ⟨hk, hv'⟩ | ⟨hk, hv'⟩ | ⟨hk, hne'⟩
  · rw [hv, hv']
  · exact absurd hk (by decide)
  · exact absurd hk.symm (hexText_ne (c := 'N') (by decide) hN)
  · exact absurd hk (by decide)
  · rw [hv, hv']
  · exact absurd hk.symm (hzero hne')
  · exact absurd hk (hexText_ne (c := 'N') (by decide) hN)
  · exact absurd hk (hzero hne)
  · rw [hexText_inj hk]

theorem stripZeros_value (coefficient : Nat) (exponent : ℤ) :
    (((stripZeros coefficient exponent).1 : ℚ) * 10 ^ (stripZeros coefficient exponent).2)
      = coefficient * 10 ^ exponent := by
  induction coefficient, exponent using stripZeros.induct with
  | case1 coefficient exponent h ih =>
    rw [stripZeros, dif_pos h, ih, zpow_add_one₀ (by norm_num)]
    have hdvd : coefficient = coefficient / 10 * 10 := by omega
    conv_rhs => rw [hdvd]
    push_cast
    ring
  | case2 coefficient exponent h => rw [stripZeros, dif_neg h]

theorem unsigned_finiteText (n : Nat) (x : ℤ) : Digits.Unsigned (toString n ++ "e" ++ toString x) := by
  obtain ⟨d, ds, hd⟩ := exists_cons_of_ne_nil (Digits.toString_ne_nil n)
  have hne : d ≠ '-' := fun h =>
    Digits.notMem_toString (c := '-') (by decide) n (by rw [hd, h]; exact mem_cons_self)
  rw [Digits.Unsigned, String.toList_append, String.toList_append, hd]
  simpa using hne

theorem finiteText_inj {c' : Nat} {e e' : ℤ} {minus' : Bool} (h : minusText minus ++ (toString c ++ "e" ++ toString e)
      = minusText minus' ++ (toString c' ++ "e" ++ toString e')) : minus = minus' ∧ c = c' ∧ e = e' := by
  obtain ⟨hminus, htext⟩ :=
    Digits.minus_append_inj (unsigned_finiteText c e) (unsigned_finiteText c' e') h
  have hlist := congrArg String.toList htext
  simp only [String.toList_append, append_assoc] at hlist
  obtain ⟨hc, -, he⟩ := (append_cons_inj_of_notMem (Digits.notMem_toString (by decide) c)
    (Digits.notMem_toString_int (by decide) (by decide) e)).mp hlist
  exact ⟨by simpa using hminus, Nat.repr_inj.mp (String.toList_inj.mp hc),
    Int.repr_injective (String.toList_inj.mp he)⟩

theorem finiteText_ne {x : ℤ} (s : String) (hs : 'e' ∉ s.toList) :
    minusText minus ++ (toString c ++ "e" ++ toString x) ≠ s := by
  rintro rfl
  exact hs (by simp [String.toList_append])

theorem decimalKey_sound {p' : DecimalParts} (h : decimalKey p = decimalKey p') : decimalValue p = decimalValue p' := by
  cases p with
  | nan =>
    cases p' with
    | nan => rfl
    | infinite minus' => cases minus' <;> exact absurd h (by decide)
    | finite minus' c' x' =>
      simp only [decimalKey] at h
      split at h
      · exact absurd h (by decide)
      · exact absurd h.symm (finiteText_ne _ (by decide))
  | infinite minus =>
    cases p' with
    | nan => cases minus <;> exact absurd h (by decide)
    | infinite minus' => cases minus <;> cases minus' <;> first | rfl | exact absurd h (by decide)
    | finite minus' c' x' =>
      simp only [decimalKey] at h
      split at h
      · cases minus <;> exact absurd h (by decide)
      · cases minus <;> exact absurd h.symm (finiteText_ne _ (by decide))
  | finite minus c x =>
    cases p' with
    | nan =>
      simp only [decimalKey] at h
      split at h
      · exact absurd h (by decide)
      · exact absurd h (finiteText_ne _ (by decide))
    | infinite minus' =>
      simp only [decimalKey] at h
      split at h
      · cases minus' <;> exact absurd h (by decide)
      · cases minus' <;> exact absurd h (finiteText_ne _ (by decide))
    | finite minus' c' x' =>
      simp only [decimalKey] at h
      simp only [decimalValue]
      split at h <;> split at h
      · simp_all [signed]
      · exact absurd h.symm (finiteText_ne _ (by decide))
      · exact absurd h (finiteText_ne _ (by decide))
      · obtain ⟨rfl, hc, hx⟩ := finiteText_inj h
        rw [← stripZeros_value c x, ← stripZeros_value c' x', hc, hx]

theorem decimalKey_nan (h : decimalKey p = "NaN") : decimalValue p = .nan := by
  have hnan : decimalKey p = decimalKey .nan := h
  exact decimalKey_sound hnan

theorem floatKey_sound {bits' : String} {negative' : Bool} (h : floatKey ty bits negative = some key)
    (h' : floatKey ty bits' negative' = some key) : floatValue ty bits negative = floatValue ty bits' negative' := by
  cases ty with
  | binary width =>
    simp only [floatKey, floatValue, bind_eq_bind] at *
    obtain ⟨⟨raw, w⟩, hraw, hk⟩ := bind_eq_some_iff.mp h
    obtain ⟨⟨raw', w'⟩, hraw', hk'⟩ := bind_eq_some_iff.mp h'
    have hw : w = w' := by
      unfold binaryRaw at hraw hraw'
      split at hraw
      · rename_i hwidth
        rw [if_pos hwidth] at hraw'
        split at hraw <;> split at hraw' <;> simp_all
      · rename_i hwidth
        rw [if_neg hwidth] at hraw'
        simp only [map_eq_some_iff, Prod.mk.injEq] at hraw hraw'
        obtain ⟨_, _, _, rfl⟩ := hraw
        obtain ⟨_, _, _, rfl⟩ := hraw'
        rfl
    subst hw
    simpa [hraw, hraw'] using binaryKey_sound hk hk'
  | decimal width =>
    simp only [floatKey, floatValue, bind_eq_bind] at *
    obtain ⟨raw, hraw, hk⟩ := bind_eq_some_iff.mp h
    obtain ⟨parts, hparts, hk⟩ := bind_eq_some_iff.mp hk
    obtain ⟨raw', hraw', hk'⟩ := bind_eq_some_iff.mp h'
    obtain ⟨parts', hparts', hk'⟩ := bind_eq_some_iff.mp hk'
    have hkey : decimalKey parts = decimalKey parts' :=
      Option.some.inj (hk.trans hk'.symm)
    simp [hraw, hraw', hparts, hparts', decimalKey_sound hkey]
  | _ => cases isFloat_of_floatKey h

theorem floatKey_nan (h : floatKey ty bits negative = some "NaN") : floatValue ty bits negative = some .nan := by
  cases ty with
  | binary width =>
    simp only [floatKey, floatValue, bind_eq_bind] at *
    obtain ⟨⟨raw, w⟩, hraw, hk⟩ := bind_eq_some_iff.mp h
    rcases binaryKey_cases hk with ⟨-, hv⟩ | ⟨hkey, -⟩ | ⟨hkey, -⟩
    · simpa [hraw] using hv
    · exact absurd hkey (by decide)
    · exact absurd hkey.symm (hexText_ne (c := 'N') (by decide) (by decide))
  | decimal width =>
    simp only [floatKey, floatValue, bind_eq_bind] at *
    obtain ⟨raw, hraw, hk⟩ := bind_eq_some_iff.mp h
    obtain ⟨parts, hparts, hk⟩ := bind_eq_some_iff.mp hk
    simp [hraw, hparts, decimalKey_nan (Option.some.inj hk)]
  | _ => cases isFloat_of_floatKey h

theorem hash_notMem_floatKey (h : floatKey ty bits negative = some key) : '#' ∉ key.toList := by
  cases ty with
  | binary width =>
    simp only [floatKey, bind_eq_bind] at h
    obtain ⟨⟨raw, w⟩, -, hk⟩ := bind_eq_some_iff.mp h
    rcases binaryKey_cases hk with ⟨rfl, -⟩ | ⟨rfl, -⟩ | ⟨rfl, -⟩
    · decide
    · decide
    · rw [String.toList_ofList]
      exact Digits.notMem_toDigits (by decide) (by decide) _
  | decimal width =>
    simp only [floatKey, bind_eq_bind] at h
    obtain ⟨raw, -, hk⟩ := bind_eq_some_iff.mp h
    obtain ⟨parts, -, hk⟩ := bind_eq_some_iff.mp hk
    obtain rfl : decimalKey parts = key := Option.some.inj hk
    have hminus (minus : Bool) : '#' ∉ (minusText minus).toList := by
      cases minus <;> decide
    cases parts with
    | nan => decide
    | infinite minus => cases minus <;> decide
    | finite minus c x =>
      simp only [decimalKey]
      split
      · decide
      · simp only [String.toList_append, mem_append, not_or]
        exact ⟨hminus minus, ⟨Digits.notMem_toString (by decide) _, by decide⟩,
          Digits.notMem_toString_int (by decide) (by decide) _⟩
  | _ => cases isFloat_of_floatKey h

/-! ## Literals of one type with one key -/

def Ty.literalDomain : Ty → Bool
  | .bool | .unit | .union .. | .tuple _ | .list _ | .array _ => false
  | _ => true

def FloatText (text : String) : Prop :=
  (∃ c ∈ text.toList, c = '.' ∨ c = 'e' ∨ c = 'E')
    ∧ (∀ c ∈ text.toList, c.isDigit ∨ c = '.' ∨ c = 'e' ∨ c = 'E' ∨ c = '+' ∨ c = '-')
    ∧ Digits.Unsigned text

def NumeralTyped (τ : Ty) (negative : Bool) (kind : TypedExprKind) : Prop :=
  match kind, negative with
  | .int _, false => τ.isInteger ∨ τ = .char ∨ τ = .utf8Char
  | .genericInteger .., false => τ.isInteger ∨ τ.isUnknown
  | .float _, _ => τ.isFloat
  | .genericFloat text, _ => (τ.isFloat ∨ τ.isUnknown) ∧ FloatText text
  | _, _ => False

def LiteralTyped (checker : Checker) (τ : Ty) (e : TypedExpr) : Prop :=
  checker.resolve e.ty = τ ∧ match unsign e with
    | (false, .bool _) => τ = .bool
    | (false, .unit) => τ = .unit
    | (false, .string (.utf16 _)) => τ = .string
    | (false, .string (.utf8 _)) => τ = .utf8String
    | (negative, kind) =>
      if isNumeral negative kind then NumeralTyped τ negative kind else τ.literalDomain

theorem integerLiteral_zero {value : Nat} {isSigned : Bool}
    (h : integerLiteral value (.integer width isSigned) negative = some n) :
    integerLiteral value (.integer width isSigned) (negative && value != 0) = some n := by
  by_cases hvalue : value = 0
  · cases negative with
    | false => exact h
    | true =>
      subst hvalue
      simp only [integerLiteral, Ty.isInteger, if_true, ite_none_left_eq_some] at h
      simpa [integerLiteral, Ty.isInteger, cut] using h.2
  · rwa [bne_iff_ne.mpr hvalue, Bool.and_true]

section Keys

variable {checker : Checker} {τ : Ty} {negative negative' : Bool} {kind kind' : TypedExprKind} {text : String}

theorem isNumeral_of_literalText (h : literalText checker τ negative kind = some text) :
    isNumeral negative kind = true := by
  unfold literalText at h
  split at h <;> simp_all [isNumeral]

theorem NumeralTyped.cases (h : NumeralTyped τ negative kind) :
    (∃ n, kind = .int n ∧ negative = false ∧ (τ.isInteger ∨ τ = .char ∨ τ = .utf8Char))
      ∨ (∃ m minus, kind = .genericInteger m minus ∧ negative = false ∧ (τ.isInteger ∨ τ.isUnknown))
      ∨ (∃ bits, kind = .float bits ∧ τ.isFloat)
      ∨ (∃ t, kind = .genericFloat t ∧ (τ.isFloat ∨ τ.isUnknown) ∧ FloatText t) := by
  unfold NumeralTyped at h
  split at h
  · exact .inl ⟨_, rfl, rfl, h⟩
  · exact .inr (.inl ⟨_, _, rfl, rfl, h⟩)
  · exact .inr (.inr (.inl ⟨_, rfl, h⟩))
  · exact .inr (.inr (.inr ⟨_, rfl, h⟩))
  · exact h.elim

theorem literalText_bits (hfloat : ¬ τ.isFloat) (hunknown : ¬ τ.isUnknown) (hkind : NumeralTyped τ negative kind)
    (h : literalText checker τ negative kind = some text) :
    ∃ n, text = toString n ∧ literalNumber checker τ negative kind = some (.bits n) := by
  rcases hkind.cases with ⟨n, rfl, rfl, -⟩ | ⟨m, minus, rfl, rfl, hint⟩ | ⟨bits, rfl, hτ⟩ |
    ⟨t, rfl, hτ, -⟩
  · exact ⟨n, (Option.some.inj h).symm, rfl⟩
  · match τ, hint.resolve_right hunknown with
    | .integer width isSigned, _ =>
      obtain ⟨n, hn, rfl⟩ := map_eq_some_iff.mp h
      exact ⟨n, rfl, congrArg (Option.map Number.bits) (integerLiteral_zero hn)⟩
  · exact absurd hτ hfloat
  · exact (hτ.elim hfloat hunknown).elim

theorem literalText_float (hτ : τ.isFloat) (hkind : NumeralTyped τ negative kind)
    (h : literalText checker τ negative kind = some text) : ∃ bits, floatKey τ bits negative = some text
      ∧ literalNumber checker τ negative kind = (floatValue τ bits negative).map .float := by
  have hint : ¬ (τ.isInteger ∨ τ.isUnknown) ∧ ¬ (τ.isInteger ∨ τ = .char ∨ τ = .utf8Char) := by
    cases τ <;> simp_all [Ty.isInteger, Ty.isFloat, Ty.isUnknown]
  rcases hkind.cases with ⟨n, rfl, rfl, hn⟩ | ⟨m, minus, rfl, rfl, hm⟩ | ⟨bits, rfl, -⟩ |
    ⟨t, rfl, -, -⟩
  · exact absurd hn hint.2
  · exact absurd hm hint.1
  · exact ⟨bits, by simpa [literalText] using h, rfl⟩
  · have h' : (checker.floatLiteral t τ).bind (floatKey τ · negative) = some text := by
      simpa [literalText, hτ] using h
    obtain ⟨bits, hbits, hkey⟩ := bind_eq_some_iff.mp h'
    exact ⟨bits, hkey, by simp [literalNumber, hbits]⟩

theorem floatText_ne_digits {t : String} (ht : FloatText t) {p : Prop} [Decidable p] {b : Bool} :
    minusText b ++ t ≠ (if p then "-" else "") ++ toString n := by
  intro h
  obtain ⟨⟨c, hc, hdot⟩, -, -⟩ := ht
  have hmem : c ∈ ((if p then "-" else "") ++ toString n).toList := by
    rw [← h, String.toList_append]
    exact mem_append_right _ hc
  rw [String.toList_append, mem_append] at hmem
  rcases hmem with hmem | hmem
  · have : c = '-' := by split at hmem <;> simp_all
    subst this
    simp at hdot
  · rcases hdot with rfl | rfl | rfl <;>
      exact Digits.notMem_toString (by decide) n hmem

theorem literalText_unknown (hτ : τ.isUnknown) (hkind : NumeralTyped τ negative kind)
    (h : literalText checker τ negative kind = some text) :
    (∃ m minus, kind = .genericInteger m minus ∧ negative = false
        ∧ text = (if minus ∧ m ≠ 0 then "-" else "") ++ toString m)
      ∨ (∃ t, kind = .genericFloat t ∧ FloatText t ∧ text = minusText negative ++ t) := by
  have hint : τ.isInteger = false := by cases τ <;> simp_all [Ty.isInteger, Ty.isUnknown]
  have hfloat : τ.isFloat = false := by cases τ <;> simp_all [Ty.isFloat, Ty.isUnknown]
  rcases hkind.cases with ⟨n, rfl, rfl, hn⟩ | ⟨m, minus, rfl, rfl, -⟩ | ⟨bits, rfl, hf⟩ |
    ⟨t, rfl, -, ht⟩
  · rcases hn with hn | rfl | rfl <;> simp_all [Ty.isUnknown]
  · exact .inl ⟨m, minus, rfl, rfl, by simpa [literalText, hint] using h.symm⟩
  · simp [hfloat] at hf
  · exact .inr ⟨t, rfl, ht, by simpa [literalText, hfloat] using h.symm⟩

theorem literalNumber_of_unknown (hτ : τ.isUnknown) (hkind : NumeralTyped τ negative kind)
    (hkind' : NumeralTyped τ negative' kind') (h : literalText checker τ negative kind = some text)
    (h' : literalText checker τ negative' kind' = some text) (ty : Ty) :
    literalNumber checker ty negative kind = literalNumber checker ty negative' kind' := by
  have hdigits (n : Nat) : Digits.Unsigned (toString n) :=
    Digits.unsigned_of_notMem (Digits.notMem_toString (by decide) n)
  rcases literalText_unknown hτ hkind h with ⟨m, minus, rfl, rfl, rfl⟩ | ⟨t, rfl, ht, rfl⟩ <;>
    rcases literalText_unknown hτ hkind' h' with ⟨m', minus', rfl, rfl, heq⟩ | ⟨t', rfl, ht', heq⟩
  · obtain ⟨hsign, htext⟩ := Digits.minus_append_inj (hdigits m) (hdigits m') heq
    obtain rfl := Nat.repr_inj.mp htext
    -- the sign of a zero is not in the key, nor in the bits
    by_cases hm : m = 0
    · subst hm
      cases ty <;> cases minus <;> cases minus' <;> rfl
    · have : minus = minus' := by simpa [hm] using hsign
      rw [this]
  · exact absurd heq.symm (floatText_ne_digits ht')
  · exact absurd heq (floatText_ne_digits ht)
  · obtain ⟨hsign, htext⟩ := Digits.minus_append_inj ht.2.2 ht'.2.2 heq
    have : negative = negative' := by simpa using hsign
    rw [this, htext]

variable (hkind : NumeralTyped τ negative kind)

include hkind

theorem literalNumber_of_text (hkind' : NumeralTyped τ negative' kind')
    (h : literalText checker τ negative kind = some text)
    (h' : literalText checker τ negative' kind' = some text) (hty : τ.isUnknown ∨ ty = τ) :
    literalNumber checker ty negative kind = literalNumber checker ty negative' kind' := by
  by_cases hunknown : τ.isUnknown
  · exact literalNumber_of_unknown hunknown hkind hkind' h h' ty
  obtain rfl : ty = τ := hty.resolve_left hunknown
  by_cases hfloat : ty.isFloat
  · obtain ⟨bits, hkey, hn⟩ := literalText_float hfloat hkind h
    obtain ⟨bits', hkey', hn'⟩ := literalText_float hfloat hkind' h'
    rw [hn, hn', floatKey_sound hkey hkey']
  · obtain ⟨n, rfl, hn⟩ := literalText_bits hfloat hunknown hkind h
    obtain ⟨n', htext, hn'⟩ := literalText_bits hfloat hunknown hkind' h'
    rw [hn, hn', Nat.repr_inj.mp htext]

theorem literalNumber_nan (h : literalText checker τ negative kind = some "NaN") (hty : τ.isUnknown ∨ ty = τ) :
    literalNumber checker ty negative kind = some (.float .nan) := by
  have hdigit (n : Nat) : 'N' ∉ (toString n).toList := Digits.notMem_toString (by decide) n
  by_cases hunknown : τ.isUnknown
  · exfalso
    rcases literalText_unknown hunknown hkind h with ⟨m, minus, rfl, rfl, ht⟩ | ⟨t, rfl, ht, heq⟩
    · have hmem : 'N' ∈ ((if minus ∧ m ≠ 0 then "-" else "") ++ toString m).toList := by
        rw [← ht]; decide
      rw [String.toList_append, mem_append] at hmem
      exact hmem.elim (by split <;> simp) (hdigit m)
    · have hmem : 'N' ∈ (minusText negative ++ t).toList := by rw [← heq]; decide
      rw [String.toList_append, mem_append] at hmem
      refine hmem.elim (by cases negative <;> simp [minusText]) fun hN => ?_
      have := ht.2.1 'N' hN
      revert this
      decide
  obtain rfl : ty = τ := hty.resolve_left hunknown
  by_cases hfloat : ty.isFloat
  · obtain ⟨bits, hkey, hn⟩ := literalText_float hfloat hkind h
    rw [hn, floatKey_nan hkey, map_some]
  · obtain ⟨n, htext, -⟩ := literalText_bits hfloat hunknown hkind h
    exact absurd (show 'N' ∈ (toString n).toList by rw [← htext]; decide) (hdigit n)

theorem literalText_ne_distinct (h : literalText checker τ negative kind = some text) (n : Nat) :
    text ≠ distinctText n := by
  suffices hhash : '#' ∉ text.toList by
    rintro rfl
    exact hhash (by simp [distinctText])
  have hdigit (n : Nat) : '#' ∉ (toString n).toList := Digits.notMem_toString (by decide) n
  by_cases hunknown : τ.isUnknown
  · rcases literalText_unknown hunknown hkind h with ⟨m, minus, rfl, rfl, rfl⟩ | ⟨t, rfl, ht, rfl⟩
    · rw [String.toList_append, mem_append, not_or]
      exact ⟨by split <;> simp, hdigit m⟩
    · rw [String.toList_append, mem_append, not_or]
      refine ⟨by cases negative <;> simp [minusText], fun hhash => ?_⟩
      have := ht.2.1 '#' hhash
      revert this
      decide
  by_cases hfloat : τ.isFloat
  · obtain ⟨bits, hkey, -⟩ := literalText_float hfloat hkind h
    exact hash_notMem_floatKey hkey
  · obtain ⟨n, rfl, -⟩ := literalText_bits hfloat hunknown hkind h
    exact hdigit n

end Keys

end Tsuzuri
