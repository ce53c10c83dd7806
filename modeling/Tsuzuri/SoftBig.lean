import Mathlib.Data.List.DropRight
import Mathlib.Data.Nat.Digits.Lemmas

/-!
# Big integers of the soft floating point

A big integer is an array of 32-bit words, the least significant first, of which `n` are in use. The model is the
list of those words.
-/

namespace Tsuzuri.Soft

@[irreducible] def LIMBS : Nat := 1400

abbrev Big := List Nat

def small (value : Nat) : Big :=
  if value = 0 then [] else value % 2 ^ 32 :: small (value / 2 ^ 32)

def normalize (a : Big) : Big := a.rdropWhile (· = 0)

def compareFrom : List Nat → List Nat → Int
  | x :: xs, y :: ys => if x ≠ y then (if x < y then -1 else 1) else compareFrom xs ys
  | _, _ => 0

def compare (a b : Big) : Int :=
  if a.length ≠ b.length then (if a.length < b.length then -1 else 1)
  else compareFrom a.reverse b.reverse

def clz (word : Nat) : Nat := 31 - word.log2

def bits (a : Big) : Nat :=
  match a.getLast? with
  | none => 0
  | some top => (a.length - 1) * 32 + 32 - clz top

def withCarry (words : Big × Nat) : Option Big :=
  if words.2 = 0 then some words.1
  else if words.1.length = LIMBS then none
  else some (words.1 ++ [words.2 % 2 ^ 32])

def shiftFrom (rest : Nat) : Nat → List Nat → List Nat × Nat
  | carry, [] => ([], carry)
  | carry, w :: ws =>
    let value := w <<< rest % 2 ^ 64 ||| carry
    let next := shiftFrom rest (value >>> 32) ws
    (value % 2 ^ 32 :: next.1, next.2)

def shift (a : Big) (count : Nat) : Option Big :=
  if a = [] ∨ count = 0 then some a
  else
    let words := count / 32
    let rest := count % 32
    if LIMBS < a.length + words + 1 then none
    else
      let shifted := shiftFrom rest 0 a
      let low := List.replicate words 0 ++ shifted.1
      some (if shifted.2 = 0 then low else low ++ [shifted.2 % 2 ^ 32])

def shiftDownFrom : Nat → List Nat → List Nat
  | _, [] => []
  | carry, w :: ws => (w >>> 1 ||| carry) :: shiftDownFrom (w <<< 31 % 2 ^ 32) ws

def shiftDown (a : Big) : Big := normalize (shiftDownFrom 0 a.reverse).reverse

def multiplyFrom (b : Nat) : Nat → List Nat → List Nat × Nat
  | carry, [] => ([], carry)
  | carry, w :: ws =>
    let value := (w * b + carry) % 2 ^ 64
    let next := multiplyFrom b (value >>> 32) ws
    (value % 2 ^ 32 :: next.1, next.2)

def multiplySmall (a : Big) (b : Nat) : Option Big := withCarry (multiplyFrom b 0 a)

def repeated (f : Big → Option Big) : Nat → Big → Option Big
  | 0, a => some a
  | count + 1, a => f a >>= repeated f count

def power (a : Big) (base exponent : Nat) : Option Big :=
  if base = 2 then shift a exponent
  else
    repeated (multiplySmall · 1000000000) (exponent / 9) a >>= repeated (multiplySmall · 10) (exponent % 9)

def addFrom : Nat → List Nat → List Nat → List Nat × Nat
  | carry, [], [] => ([], carry)
  | carry, x :: xs, [] =>
    let value := x + 0 + carry
    let next := addFrom (value >>> 32) xs []
    (value % 2 ^ 32 :: next.1, next.2)
  | carry, [], y :: ys =>
    let value := 0 + y + carry
    let next := addFrom (value >>> 32) [] ys
    (value % 2 ^ 32 :: next.1, next.2)
  | carry, x :: xs, y :: ys =>
    let value := x + y + carry
    let next := addFrom (value >>> 32) xs ys
    (value % 2 ^ 32 :: next.1, next.2)

def add (a b : Big) : Option Big := withCarry (addFrom 0 a b)

/-- The words of `a` only. -/
def subtractFrom : Nat → List Nat → List Nat → List Nat
  | _, [], _ => []
  | borrow, word :: xs, ys =>
    let sub := ys.headD 0 + borrow
    (word + 2 ^ 64 - sub) % 2 ^ 64 % 2 ^ 32 :: subtractFrom (if word < sub then 1 else 0) xs ys.tail

def subtract (a b : Big) : Big := normalize (subtractFrom 0 a b)

/-- A word times `b`, onto the words of the result from a place on. -/
def multiplyRow (word : Nat) : Nat → List Nat → List Nat → List Nat
  | carry, [], result => carry % 2 ^ 32 :: result.tail
  | carry, y :: ys, result =>
    let value := (word * y + result.headD 0 + carry) % 2 ^ 64
    value % 2 ^ 32 :: multiplyRow word (value >>> 32) ys result.tail

def multiplyRows (b : List Nat) : List Nat → List Nat → List Nat
  | [], result => result
  | word :: a, result =>
    let row := multiplyRow word 0 b result
    row.headD 0 :: multiplyRows b a row.tail

def multiply (a b : Big) : Option Big :=
  if LIMBS < a.length + b.length then none
  else some (normalize (multiplyRows b a (List.replicate (a.length + b.length) 0)))

def divideFrom : Nat → Big → Big → List Nat → Big × Big
  | 0, remainder, _, quotient => (normalize quotient, remainder)
  | i + 1, remainder, divisor, quotient =>
    if 0 ≤ compare remainder divisor then
      divideFrom i (subtract remainder divisor) (shiftDown divisor) (quotient.modify (i / 32) (· ||| 1 <<< (i % 32)))
    else divideFrom i remainder (shiftDown divisor) quotient

def divide (remainder denominator : Big) : Option (Big × Big) :=
  if denominator = [] then none
  else
    let distance : Int := (bits remainder : Int) - bits denominator
    if distance < 0 then some ([], remainder)
    else if LIMBS < distance.toNat / 32 + 1 then none
    else do
      let divisor ← shift denominator distance.toNat
      some (divideFrom (distance.toNat + 1) remainder divisor (List.replicate (distance.toNat / 32 + 1) 0))

def divideSmallFrom (divisor : Nat) : Nat → List Nat → List Nat × Nat
  | remainder, [] => ([], remainder)
  | remainder, w :: ws =>
    let value := remainder <<< 32 ||| w
    let next := divideSmallFrom divisor (value % divisor) ws
    (value / divisor % 2 ^ 32 :: next.1, next.2)

def divideSmall (a : Big) (divisor : Nat) : Big × Nat :=
  let words := divideSmallFrom divisor 0 a.reverse
  (normalize words.1.reverse, words.2)

def narrowFrom : Nat → List Nat → Nat
  | value, [] => value
  | value, w :: ws => narrowFrom (value <<< 32 % 2 ^ 128 ||| w) ws

def narrow (a : Big) : Option Nat :=
  if 4 < a.length then none else some (narrowFrom 0 a.reverse)

end Tsuzuri.Soft
