import Mathlib.Data.List.DropRight
import Tsuzuri.FaultVec

/-!
# Integers of any size (`std/BigInt.tz`)

A bigint is a sign and digits of base 10^9, least significant first.
-/

namespace Tsuzuri

structure BigInt where
  negative : Bool
  limbs : List Int
deriving DecidableEq

namespace BigInt

open FaultVec

def base : Int := 1000000000

def trim (digits : List Int) : List Int := digits.rdropWhile (· = 0)

def make (negative : Bool) (limbs : List Int) : BigInt :=
  let digits := trim limbs
  { negative := negative && !digits.isEmpty, limbs := digits }

/-- The loop of `of_i64`. -/
def digitsOf : Nat → Int → Exec (List Int)
  | 0, _ => .error .diverged
  | fuel + 1, rest =>
    if rest ≠ 0 then do
      let digit := rest.tmod base
      let digit ← if digit < 0 then checked (0 - digit) else .ok digit
      let more ← digitsOf fuel (rest.tdiv base)
      .ok (digit :: more)
    else .ok []

def ofI64 (value : Int) : Exec BigInt := do
  let digits ← digitsOf 4 value
  .ok (make (value < 0) digits)

/-! ## Magnitudes -/

/-- The loop of `compare_limbs`, from the highest digit down. -/
def compareFrom : List Int → List Int → Int
  | l :: left, r :: right => if l ≠ r then (if l < r then -1 else 1) else compareFrom left right
  | _, _ => 0

def compareLimbs (left right : List Int) : Int :=
  if left.length ≠ right.length then (if left.length < right.length then -1 else 1)
  else compareFrom left.reverse right.reverse

/-- The loop of `add_limbs`, and the carry behind it. -/
def addFrom : Nat → Int → List Int → List Int → Exec (List Int)
  | 0, carry, _, _ => .ok [carry]
  | length + 1, carry, left, right => do
    let pair ← checked (left.headD 0 + right.headD 0)
    let sum ← checked (pair + carry)
    let carry := if base ≤ sum then 1 else 0
    let excess ← checked (carry * base)
    let digit ← checked (sum - excess)
    let rest ← addFrom length carry left.tail right.tail
    .ok (digit :: rest)

def addLimbs (left right : List Int) : Exec (List Int) :=
  addFrom (max left.length right.length) 0 left right

/-- The loop of `sub_limbs`. -/
def subFrom : Int → List Int → List Int → Exec (List Int)
  | _, [], _ => .ok []
  | borrow, l :: left, right => do
    let without ← checked (l - right.headD 0)
    let difference ← checked (without - borrow)
    let borrow := if difference < 0 then 1 else 0
    let back ← checked (borrow * base)
    let digit ← checked (difference + back)
    let rest ← subFrom borrow left right.tail
    .ok (digit :: rest)

def subLimbs (left right : List Int) : Exec (List Int) := subFrom 0 left right

def mulRow (digit : Int) : Int → List Int → List Int → Exec (List Int)
  | _, _, [] => .error .bounds
  | carry, [], _ :: out => .ok (carry :: out)
  | carry, r :: right, o :: out => do
    let product ← checked (digit * r)
    let sum ← checked (o + product)
    let current ← checked (sum + carry)
    let rest ← mulRow digit (current.tdiv base) right out
    .ok (current.tmod base :: rest)

def mulRows (right : List Int) : List Int → List Int → Exec (List Int)
  | [], out => .ok out
  | l :: left, out => do
    match ← mulRow l 0 right out with
    | [] => .error .bounds
    | o :: out => do
      let rest ← mulRows right left out
      .ok (o :: rest)

def mulLimbs (left right : List Int) : Exec (List Int) :=
  mulRows right left (List.replicate (left.length + right.length) 0)

/-- The loop of `scale_limbs`, and the carry behind it. -/
def scaleFrom (factor : Int) : Int → List Int → Exec (List Int)
  | carry, [] => .ok [carry]
  | carry, d :: digits => do
    let product ← checked (d * factor)
    let current ← checked (product + carry)
    let rest ← scaleFrom factor (current.tdiv base) digits
    .ok (current.tmod base :: rest)

def scaleLimbs (digits : List Int) (factor : Int) : Exec (List Int) := do
  let out ← scaleFrom factor 0 digits
  .ok (trim out)

/-- The search for the greatest digit whose multiple of `right` is at most `remainder`. -/
def searchDigit (right remainder : List Int) : Nat → Int → Int → Exec Int
  | 0, _, _ => .error .diverged
  | fuel + 1, low, high =>
    if low < high then do
      let sum ← checked (low + high)
      let next ← checked (sum + 1)
      let middle := next.tdiv 2
      let product ← scaleLimbs right middle
      if compareLimbs product remainder ≤ 0 then searchDigit right remainder fuel middle high
      else do
        let below ← checked (middle - 1)
        searchDigit right remainder fuel low below
    else .ok low

def divideDigit (right : List Int) (digit : Int) (remainder : List Int) : Exec (Int × List Int) := do
  let remainder := trim (digit :: remainder)
  let low ← searchDigit right remainder 31 0 999999999
  if 0 < low then do
    let product ← scaleLimbs right low
    let difference ← subLimbs remainder product
    .ok (low, trim difference)
  else .ok (low, remainder)

def divideFrom (right : List Int) : List Int → List Int → List Int → Exec (List Int × List Int)
  | [], remainder, quotient => .ok (trim quotient, remainder)
  | digit :: rest, remainder, quotient => do
    let (low, remainder) ← divideDigit right digit remainder
    divideFrom right rest remainder (low :: quotient)

def divideLimbs (left right : List Int) : Exec (List Int × List Int) := divideFrom right left.reverse [] []

/-! ## Operations -/

def add (left right : BigInt) : Exec BigInt :=
  if left.negative = right.negative then do
    let limbs ← addLimbs left.limbs right.limbs
    .ok (make left.negative limbs)
  else if 0 ≤ compareLimbs left.limbs right.limbs then do
    let limbs ← subLimbs left.limbs right.limbs
    .ok (make left.negative limbs)
  else do
    let limbs ← subLimbs right.limbs left.limbs
    .ok (make right.negative limbs)

def negate (value : BigInt) : BigInt :=
  { negative := !value.negative && !value.limbs.isEmpty, limbs := value.limbs }

def sub (left right : BigInt) : Exec BigInt := add left (negate right)

def mul (left right : BigInt) : Exec BigInt := do
  let limbs ← mulLimbs left.limbs right.limbs
  .ok (make (left.negative != right.negative) limbs)

def divide (left right : BigInt) : Exec (BigInt × BigInt) := do
  assert (!right.limbs.isEmpty)
  let (quotient, remainder) ← divideLimbs left.limbs right.limbs
  .ok (make (left.negative != right.negative) quotient, make left.negative remainder)

def div (left right : BigInt) : Exec BigInt := do
  let (quotient, _) ← divide left right
  .ok quotient

def rem (left right : BigInt) : Exec BigInt := do
  let (_, remainder) ← divide left right
  .ok remainder

def compare (left right : BigInt) : Exec Int :=
  if left.negative ≠ right.negative then .ok (if left.negative then -1 else 1)
  else
    let order := compareLimbs left.limbs right.limbs
    if left.negative then checked (0 - order) else .ok order

def eq (left right : BigInt) : Bool :=
  left.negative == right.negative && compareLimbs left.limbs right.limbs == 0

def countFrom : Int → List Int → Exec Int
  | count, [] => .ok count
  | count, limb :: limbs => do
    let product ← checked (count * base)
    let count ← checked (product + limb)
    countFrom count limbs

def multiplyIf (odd : Bool) (result factor : BigInt) : Exec BigInt :=
  if odd then mul result factor else .ok result

def squareIf (more : Bool) (factor : BigInt) : Exec BigInt :=
  if more then do
    let limbs ← mulLimbs factor.limbs factor.limbs
    .ok (make false limbs)
  else .ok factor

def powerFrom : Nat → BigInt → BigInt → Int → Exec BigInt
  | 0, _, _, _ => .error .diverged
  | fuel + 1, result, factor, count =>
    if 0 < count then do
      let result ← multiplyIf (count.tmod 2 = 1) result factor
      let count := count.tdiv 2
      let factor ← squareIf (0 < count) factor
      powerFrom fuel result factor count
    else .ok result

/-- `power`, the loop with fuel for every count below 2^60. -/
def pow (left exponent : BigInt) : Exec BigInt := do
  assert (!exponent.negative && exponent.limbs.length ≤ 2)
  let count ← countFrom 0 exponent.limbs.reverse
  let one ← ofI64 1
  powerFrom 61 one left count

end BigInt

end Tsuzuri
