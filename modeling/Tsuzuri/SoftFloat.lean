import Tsuzuri.SoftBig

/-!
# Soft floating point

Binary16 to binary128, decimal32 to decimal128 in their BID encoding, and the integers that are cast from and to them.
-/

namespace Tsuzuri.Soft

structure Format where
  base : Nat
  precision : Nat
  minimum : Int
  maximum : Int
  fraction : Nat
  bias : Nat
  width : Nat
  integer : Bool
  sign : Bool

def format : Nat → Format
  | 0 => ⟨2, 11, -24, 5, 10, 15, 16, false, true⟩
  | 1 => ⟨2, 24, -149, 104, 23, 127, 32, false, true⟩
  | 2 => ⟨2, 53, -1074, 971, 52, 1023, 64, false, true⟩
  | 3 => ⟨2, 113, -16494, 16271, 112, 16383, 128, false, true⟩
  | 4 => ⟨10, 7, -101, 90, 23, 101, 32, false, true⟩
  | 5 => ⟨10, 16, -398, 369, 53, 398, 64, false, true⟩
  | 6 => ⟨10, 34, -6176, 6111, 113, 6176, 128, false, true⟩
  | kind =>
    let width := 8 <<< ((kind - 16) &&& 7)
    ⟨2, width, 0, 0, 0, 0, width, true, kind < 24⟩

inductive Special where
  | finite
  | infinity
  | nan
deriving DecidableEq

structure Number where
  coefficient : Big
  exponent : Int
  negative : Bool
  special : Special

def mask (count : Nat) : Nat := if count = 128 then 2 ^ 128 - 1 else (1 <<< count) - 1

/-- A conversion of an `int`. -/
def u128 (value : Int) : Nat := (value % 2 ^ 128).toNat

/-- The negation of a `u128`. -/
def negate (value : Nat) : Nat := (2 ^ 128 - value) % 2 ^ 128

def load (p : List UInt8) (width : Nat) : Nat :=
  (p.take (width / 8)).foldr (fun byte value => value <<< 8 % 2 ^ 128 ||| byte.toNat) 0

def storeFrom : Nat → Nat → List UInt8
  | 0, _ => []
  | count + 1, value => UInt8.ofNat value :: storeFrom count (value >>> 8)

def store (value width : Nat) : List UInt8 := storeFrom (width / 8) value

def decimalFields (raw : Nat) (f : Format) : Nat × Nat :=
  if raw >>> (f.width - 3) = 3 ∧ f.width ≠ 128 then
    (raw >>> (f.fraction - 2) &&& mask (f.width - f.fraction - 1), raw &&& mask (f.fraction - 2) ||| 1 <<< f.fraction)
  else (raw >>> f.fraction, raw &&& mask f.fraction)

def decode (p : List UInt8) (f : Format) : Option Number :=
  let raw := load p f.width
  let negative := raw >>> (f.width - 1) ≠ 0
  if f.integer then
    let negative := negative && f.sign
    some ⟨small (if negative then negate raw &&& mask f.width else raw), 0, negative, .finite⟩
  else
    let raw := raw &&& mask (f.width - 1)
    if f.base = 2 then
      let exponent := raw >>> f.fraction
      let coefficient := raw &&& mask f.fraction
      if exponent = f.bias * 2 + 1 then
        some ⟨[], 0, negative, if coefficient ≠ 0 then .nan else .infinity⟩
      else
        some ⟨small (coefficient ||| if exponent ≠ 0 then 1 <<< f.fraction else 0),
          if exponent ≠ 0 then exponent - f.bias - f.fraction else f.minimum, negative, .finite⟩
    else
      let combination := raw >>> (f.width - 6)
      if 30 ≤ combination then some ⟨[], 0, negative, if combination = 30 then .infinity else .nan⟩
      else do
        let fields := decimalFields raw f
        let coefficient := small fields.2
        let limit ← power (small 1) 10 f.precision
        let coefficient :=
          if 0 ≤ compare coefficient limit ∨ f.width = 128 ∧ raw >>> 125 = 3 then small 0
          else coefficient
        some ⟨coefficient, fields.1 - f.bias, negative, .finite⟩

/-! ## Rounding -/

def ROUNDS : Nat := 64 * LIMBS

def comparePower (n d : Big) (base : Nat) (exponent : Int) : Option Int := do
  let scaled ← power (if 0 ≤ exponent then d else n) base exponent.natAbs
  some (if 0 ≤ exponent then compare n scaled else compare scaled d)

def magnitudeDown (n d : Big) (base : Nat) : Nat → Int → Option Int
  | 0, _ => none
  | rounds + 1, exponent => do
    let order ← comparePower n d base exponent
    if order < 0 then magnitudeDown n d base rounds (exponent - 1) else some exponent

def magnitudeUp (n d : Big) (base : Nat) : Nat → Int → Option Int
  | 0, _ => none
  | rounds + 1, exponent => do
    let order ← comparePower n d base (exponent + 1)
    if 0 ≤ order then magnitudeUp n d base rounds (exponent + 1) else some exponent

def magnitude (n d : Big) (base : Nat) : Option Int := do
  let exponent : Int := (bits n : Int) - bits d
  let exponent := if base = 10 then (exponent * 30103).tdiv 100000 else exponent
  let exponent ← magnitudeDown n d base ROUNDS exponent
  magnitudeUp n d base ROUNDS exponent

def rounded (n d : Big) (base : Nat) (scale : Int) : Option Big := do
  let numerator ← if 0 ≤ scale then power n base scale.natAbs else some n
  let denominator ← if 0 ≤ scale then some d else power d base scale.natAbs
  let (result, numerator) ← divide numerator denominator
  let numerator ← multiplySmall numerator 2
  let order := compare numerator denominator
  if 0 < order ∨ order = 0 ∧ result ≠ [] ∧ result.headD 0 &&& 1 ≠ 0 then add result (small 1)
  else some result

def special (f : Format) (kind : Special) (negative : Bool) : Nat :=
  let value := negative.toNat <<< (f.width - 1)
  if f.base = 2 then
    let value := value ||| (f.bias * 2 + 1) <<< f.fraction
    if kind = .nan then value ||| 1 <<< (f.fraction - 1) else value
  else value ||| (if kind = .nan then 31 else 30) <<< (f.width - 6)

def shorten (maximum : Int) : Nat → Int → Big → Int × Big
  | 0, quantum, coefficient => (quantum, coefficient)
  | rounds + 1, quantum, coefficient =>
    if quantum < maximum ∧ coefficient ≠ [] then
      let shortened := divideSmall coefficient 10
      if shortened.2 ≠ 0 then (quantum, coefficient)
      else shorten maximum rounds (quantum + 1) shortened.1
    else (quantum, coefficient)

def assembleBits (value : Nat) (quantum : Int) (negative : Bool) (f : Format) : Nat :=
  let sign := negative.toNat <<< (f.width - 1)
  if f.base = 2 then
    let encoded : Int := if value >>> f.fraction ≠ 0 then quantum + f.fraction + f.bias else 0
    sign ||| u128 encoded <<< f.fraction % 2 ^ 128 ||| (value &&& mask f.fraction)
  else
    let encoded := quantum + f.bias
    if f.width ≠ 128 ∧ value >>> f.fraction ≠ 0 then
      sign ||| 3 <<< (f.width - 3) ||| u128 encoded <<< (f.fraction - 2) % 2 ^ 128 |||
        (value &&& mask (f.fraction - 2))
    else sign ||| u128 encoded <<< f.fraction % 2 ^ 128 ||| value

def pack (n d : Big) (exponent : Int) (negative : Bool) (f : Format) : Option Nat :=
  let sign := negative.toNat <<< (f.width - 1)
  if n = [] then
    let quantum :=
      if exponent < f.minimum then f.minimum else if f.maximum < exponent then f.maximum else exponent
    some (sign ||| if f.base = 10 then u128 (quantum + f.bias) <<< f.fraction % 2 ^ 128 else 0)
  else do
    let first ← magnitude n d f.base
    let quantum := first + exponent - (f.precision - 1)
    let quantum := if quantum < f.minimum then f.minimum else quantum
    if f.maximum < quantum then some (special f .infinity negative)
    else
      let coefficient ← rounded n d f.base (exponent - quantum)
      let limit ← power (small 1) f.base f.precision
      let carried := decide (0 ≤ compare coefficient limit)
      let coefficient := if carried then (divideSmall coefficient f.base).1 else coefficient
      let quantum := if carried then quantum + 1 else quantum
      if carried ∧ f.maximum < quantum then some (special f .infinity negative)
      else
        let short :=
          if f.base = 10 then shorten f.maximum (exponent - quantum).toNat quantum coefficient
          else (quantum, coefficient)
        let value ← narrow short.2
        some (assembleBits value short.1 negative f)

/-! ## Operations -/

/-- The operations, in the order of their numbers. -/
inductive Op where
  | add
  | sub
  | mul
  | div
deriving DecidableEq

/-- `op < 2` -/
def Op.additive : Op → Bool
  | .add | .sub => true
  | .mul | .div => false

def exceptional (a b : Number) (op : Op) : Special × Bool × Number × Number :=
  let negative := if op.additive then a.negative else a.negative ^^ b.negative
  if a.special = .nan ∨ b.special = .nan then (.nan, negative, a, b)
  else if op.additive ∧ (a.special ≠ .finite ∨ b.special ≠ .finite) then
    (if a.special ≠ .finite ∧ b.special ≠ .finite ∧ a.negative ≠ b.negative then .nan else .infinity,
      if a.special ≠ .finite then a.negative else b.negative, a, b)
  else if op = .mul ∧ (a.special ≠ .finite ∨ b.special ≠ .finite) then
    (if a.special = .finite ∧ a.coefficient = [] ∨ b.special = .finite ∧ b.coefficient = [] then .nan
      else .infinity, negative, a, b)
  else if op = .div then
    if a.special ≠ .finite ∧ b.special ≠ .finite then (.nan, negative, a, b)
    else if a.special ≠ .finite then (.infinity, negative, a, b)
    else if b.special ≠ .finite then
      (.finite, negative, { a with coefficient := small 0 }, { b with coefficient := small 1 })
    else if b.coefficient = [] then
      (if a.coefficient ≠ [] then .infinity else .nan, negative, a, b)
    else (.finite, negative, a, b)
  else (.finite, negative, a, b)

def packSum (a b : Number) (negative : Bool) (f : Format) : Option Nat := do
  let exponent := if a.exponent < b.exponent then a.exponent else b.exponent
  let left ← power a.coefficient f.base (a.exponent - exponent).toNat
  let right ← power b.coefficient f.base (b.exponent - exponent).toNat
  if a.negative = b.negative then
    let numerator ← add left right
    pack numerator (small 1) exponent negative f
  else
    let smaller := decide (compare left right < 0)
    let numerator := if smaller then subtract right left else subtract left right
    let negative := if smaller then b.negative else negative
    pack numerator (small 1) exponent (if numerator = [] then false else negative) f

def applyOp (f : Format) (op : Op) (a b : Number) : Option Nat :=
  let (except, negative, a, b) := exceptional a b op
  if except ≠ .finite then some (special f except negative)
  else
    match op with
    | .add | .sub => packSum a b negative f
    | .mul => do
      let numerator ← multiply a.coefficient b.coefficient
      pack numerator (small 1) (a.exponent + b.exponent) negative f
    | .div => pack a.coefficient b.coefficient (a.exponent - b.exponent) negative f

def tzSoftOp (left right : List UInt8) (kind : Nat) (op : Op) : Option (List UInt8) := do
  let f := format kind
  let a ← decode left f
  let b ← decode right f
  let packed ← applyOp f op a (if op = .sub then { b with negative := !b.negative } else b)
  some (store packed f.width)

def castLimit (value : Number) (target : Format) : Nat :=
  let maximum := mask (target.width - target.sign.toNat)
  let maximum := if target.sign ∧ value.negative then maximum + 1 else maximum
  if target.sign = false ∧ value.negative ∨ value.special = .nan then 0 else maximum

def castQuotient (value : Number) (base : Nat) : Option (Big × Big) :=
  if 0 ≤ value.exponent then do
    let numerator ← power value.coefficient base value.exponent.natAbs
    some (numerator, small 1)
  else do
    let denominator ← power (small 1) base value.exponent.natAbs
    some (value.coefficient, denominator)

def castInteger (value : Number) (source target : Format) : Option Nat :=
  let maximum := castLimit value target
  if value.special ≠ .finite then some (if value.negative then negate maximum else maximum)
  else do
    let (numerator, denominator) ← castQuotient value source.base
    let limit ← multiply (small maximum) denominator
    let result ← if 0 ≤ compare numerator limit then some maximum
      else do
        let (quotient, _) ← divide numerator denominator
        narrow quotient
    some (if value.negative then negate result else result)

def castFloat (value : Number) (source target : Format) : Option Nat :=
  if value.special ≠ .finite then some (special target value.special value.negative)
  else if source.base ≠ target.base then do
    let (numerator, denominator) ← castQuotient value source.base
    pack numerator denominator 0 value.negative target
  else pack value.coefficient (small 1) value.exponent value.negative target

def tzSoftCast (input : List UInt8) (source target : Nat) : Option (List UInt8) := do
  let value ← decode input (format source)
  let packed ← if (format target).integer then castInteger value (format source) (format target)
    else castFloat value (format source) (format target)
  some (store packed (format target).width)

end Tsuzuri.Soft
