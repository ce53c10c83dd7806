import Mathlib.Data.Nat.Digits.Defs
import Tsuzuri.JsonEmit
import Tsuzuri.Utf16

/-!
# CBOR (`std/Cbor.tz`)

`encode` writes a JSON value in the deterministic encoding of RFC 8949, and `decode` reads the JSON data model back.
The floating-point code is a parameter (`Floats`).
-/

namespace Tsuzuri.Cbor

open FaultVec Unicode
open Json (Str ubyte maxLength)

inductive ErrorKind where
  | syntax_
  | unexpectedEnd
  | duplicateKey (key : Str)
  | tooDeep
  | tooLarge
  | nonFinite
  | numberRange
  | loneSurrogate
  | invalidUtf8
  | unsupported (what : String)
deriving DecidableEq

/-- The offset is -1 outside decoding. -/
structure Error where
  kind : ErrorKind
  offset : Int
deriving DecidableEq

inductive Stop where
  | failure (error : Error)
  | trap (fault : Fault)
deriving DecidableEq

abbrev Run (α : Type) := Except Stop α

def fail {α : Type} (kind : ErrorKind) (offset : Int) : Run α :=
  .error (.failure { kind, offset })

structure Floats where
  bits : List Nat → Option Nat
  text : Nat → Nat → Nat → Option (List Nat)

/-! ## Encoding -/

/-- The low `count` bytes of `value`, most significant first. -/
def pushBig (output : List Nat) (value : Nat) : Nat → List Nat
  | 0 => output
  | count + 1 => pushBig (output ++ [ubyte (value >>> (count * 8))]) value count

def head (output : List Nat) (major argument : Nat) : List Nat :=
  let initial := major <<< 5
  if argument < 24 then output ++ [ubyte (initial ||| argument)]
  else if argument < 256 then output ++ [ubyte (initial ||| 24)] ++ [ubyte argument]
  else if argument < 65536 then pushBig (output ++ [ubyte (initial ||| 25)]) argument 2
  else if argument < 4294967296 then pushBig (output ++ [ubyte (initial ||| 26)]) argument 4
  else pushBig (output ++ [ubyte (initial ||| 27)]) argument 8

def isIntegerText (text : List Nat) : Bool :=
  text.all fun byte => !(byte = 46 || byte = 101 || byte = 69)

def floatHead (output : List Nat) (bits : Nat) : List Nat :=
  let sign := bits >>> 63
  let biased := (bits >>> 52) &&& 2047
  let fraction := bits &&& 4503599627370495
  let exponent : Int := biased - 1023
  let significand := fraction ||| 4503599627370496
  if biased = 0 ∧ fraction = 0 then pushBig (output ++ [249]) (sign <<< 15) 2
  else if biased ≠ 0 ∧ -14 ≤ exponent ∧ exponent ≤ 15 ∧ fraction &&& 4398046511103 = 0 then
    pushBig (output ++ [249]) (sign <<< 15 ||| (exponent + 15).toNat <<< 10 ||| fraction >>> 42) 2
  else if biased ≠ 0 ∧ -24 ≤ exponent ∧ exponent < -14 ∧ significand &&& (1 <<< (28 - exponent).toNat - 1) = 0 then
    pushBig (output ++ [249]) (sign <<< 15 ||| significand >>> (28 - exponent).toNat) 2
  else if biased ≠ 0 ∧ -126 ≤ exponent ∧ exponent ≤ 127 ∧ fraction &&& 536870911 = 0 then
    pushBig (output ++ [250]) (sign <<< 31 ||| (exponent + 127).toNat <<< 23 ||| fraction >>> 29) 4
  else if biased ≠ 0 ∧ -149 ≤ exponent ∧ exponent < -126 ∧ significand &&& (1 <<< (-exponent - 97).toNat - 1) = 0 then
    pushBig (output ++ [250]) (sign <<< 31 ||| significand >>> (-exponent - 97).toNat) 4
  else pushBig (output ++ [251]) bits 8

def decimal (digits : List Nat) : Nat :=
  digits.foldl (fun value byte => value * 10 + (byte - 48)) 0

def bignum (output : List Nat) (negative : Bool) (digits : List Nat) : List Nat :=
  let parsed : Int := decimal digits
  let rest := if negative then parsed - 1 else parsed
  let little := Nat.digits 256 rest.toNat
  let tagged := head output 6 (if negative then 3 else 2)
  head tagged 2 little.length ++ little.reverse

def negativeZero : Nat := 9223372036854775808

def integer (output : List Nat) (negative : Bool) (digits : List Nat) : Run (List Nat) :=
  if digits = [48] ∧ negative then .ok (floatHead output negativeZero)
  else if 4096 < digits.length then fail .numberRange (-1)
  else if 20 < digits.length then .ok (bignum output negative digits)
  else
    let magnitude := decimal digits
    if ¬ negative ∧ magnitude ≤ 18446744073709551615 then .ok (head output 0 magnitude)
    else if negative ∧ magnitude ≤ 18446744073709551616 then .ok (head output 1 (magnitude - 1))
    else .ok (bignum output negative digits)

def number (floats : Floats) (output text : List Nat) : Run (List Nat) :=
  if Json.isNumeral text = false then fail .syntax_ (-1)
  else if isIntegerText text = false then
    match floats.bits text with
    | some bits => .ok (floatHead output bits)
    | none => fail .numberRange (-1)
  else if text.head? = some 45 then integer output true text.tail
  else integer output false text

def textItem (output : List Nat) (text : Str) : Run (List Nat) :=
  match scalars16 text with
  | none => fail .loneSurrogate (-1)
  | some scalars =>
    let bytes := scalars.flatMap encode8
    .ok (head output 3 bytes.length ++ bytes)

/-- A member: the bytes of its key, its index and the bytes of its value. -/
structure Entry where
  key : List Nat
  index : Nat
  value : List Nat

def entryLe (a b : Entry) : Bool :=
  a.key < b.key ||
    (a.key = b.key && (a.index < b.index || (a.index = b.index && !(b.value < a.value))))

def repeatedEntry : List Entry → Option Nat → Option Nat
  | other :: entry :: rest, found =>
    repeatedEntry (entry :: rest) (if entry.key = other.key ∧ found.all (fun f => entry.index < f) then some entry.index
      else found)
  | _, found => found

def mapItem (output : List Nat) (members : List (Str × Json.Value)) (entries : List Entry) : Run (List Nat) :=
  let sorted := entries.mergeSort entryLe
  match repeatedEntry sorted none with
  | some position =>
    match members[position]? with
    | some (key, _) => fail (.duplicateKey key) (-1)
    | none => .error (.trap .bounds)
  | none => .ok (head output 5 members.length ++ sorted.flatMap fun entry => entry.key ++ entry.value)

mutual
def item (floats : Floats) (output : List Nat) : Json.Value → Run (List Nat)
  | .null => .ok (output ++ [246])
  | .bool flag => .ok (output ++ [if flag then 245 else 244])
  | .number text => number floats output text
  | .text text => textItem output text
  | .items values => itemsOf floats (head output 4 values.length) values
  | .object members => do
    let entries ← entriesOf floats 0 members
    mapItem output members entries
termination_by structural v => v

def itemsOf (floats : Floats) (output : List Nat) : List Json.Value → Run (List Nat)
  | [] => .ok output
  | value :: values => do
    let bytes ← item floats output value
    itemsOf floats bytes values
termination_by structural vs => vs

def entriesOf (floats : Floats) (index : Nat) : List (Str × Json.Value) → Run (List Entry)
  | [] => .ok []
  | member :: members => do
    let entry ← entryOf floats index member
    let entries ← entriesOf floats (index + 1) members
    .ok (entry :: entries)
termination_by structural ms => ms

def entryOf (floats : Floats) (index : Nat) : Str × Json.Value → Run Entry
  | (key, element) => do
    let encodedKey ← textItem [] key
    let encodedValue ← item floats [] element
    .ok { key := encodedKey, index, value := encodedValue }
termination_by structural m => m
end

def encode (floats : Floats) (value : Json.Value) : Run (List Nat) :=
  item floats [] value

/-! ## Decoding -/

def byteAt (bytes : List Nat) (index : Nat) : Run Nat :=
  match bytes[index]? with
  | some byte => .ok byte
  | none => .error (.trap .bounds)

def bigEndian (bytes : List Nat) : Nat :=
  bytes.foldl (fun value byte => value <<< 8 ||| byte) 0

/-- The argument of the head at `start` and the offset after it. -/
def argument (bytes : List Nat) (start : Nat) : Run (Nat × Nat) := do
  let byte ← byteAt bytes start
  let info := byte &&& 31
  if 28 ≤ info ∧ info ≤ 30 then fail .syntax_ start
  else if info = 31 then fail (.unsupported "indefinite length") start
  else if info < 24 then .ok (info, start + 1)
  else
    let size := if info = 24 then 1 else if info = 25 then 2 else if info = 26 then 4 else 8
    if bytes.length ≤ start + size then fail .unexpectedEnd bytes.length
    else .ok (bigEndian ((bytes.drop (start + 1)).take size), start + 1 + size)

def numeralOf (text : List Nat) : Run Json.Value :=
  if Json.isNumeral text then .ok (.number text) else .error (.trap .missing)

def decimalText (n : Nat) : List Nat :=
  if n = 0 then [48] else (Nat.digits 10 n).reverse.map (· + 48)

def integerText (i : Int) : List Nat :=
  if i < 0 then 45 :: decimalText i.natAbs else decimalText i.natAbs

/-- The decimal text of an unsigned big-endian magnitude, `-1 - n` for a negative bignum. -/
def bignumText (bytes : List Nat) (negative : Bool) : List Nat :=
  let value := bytes.foldl (fun (value : Int) (byte : Nat) => value * 256 + byte) 0
  if negative then integerText (-1 - value) else integerText value

def bignumAt (bytes : List Nat) (start next : Nat) (negative : Bool) : Run (Json.Value × Nat) :=
  match bytes[next]? with
  | none => fail .unexpectedEnd bytes.length
  | some byte =>
    if byte >>> 5 ≠ 2 then fail (.unsupported "bignum without a byte string") next
    else do
      let (length, first) ← argument bytes next
      if bytes.length - first < length then fail .unexpectedEnd bytes.length
      else if 1701 < length then fail .numberRange start
      else
        let last := first + length
        let text := bignumText ((bytes.drop first).take length) negative
        let digits := if negative then text.length - 1 else text.length
        if 4096 < digits then fail .numberRange start
        else do
          let value ← numeralOf text
          .ok (value, last)

def simple (floats : Floats) (bytes : List Nat) (start info : Nat) : Run (Json.Value × Nat) :=
  if info = 20 then .ok (.bool false, start + 1)
  else if info = 21 then .ok (.bool true, start + 1)
  else if info = 22 then .ok (.null, start + 1)
  else if info = 25 ∨ info = 26 ∨ info = 27 then do
    let (bits, next) ← argument bytes start
    let text :=
      if info = 25 then floats.text bits 5 10
      else if info = 26 then floats.text bits 8 23
      else floats.text bits 11 52
    match text with
    | some text => do
      let value ← numeralOf text
      .ok (value, next)
    | none => fail .nonFinite start
  else if info = 31 then fail .syntax_ start
  else if info = 24 ∧ bytes[start + 1]?.any (· < 32) then fail .syntax_ start
  else if info = 24 ∧ bytes.length ≤ start + 1 then fail .unexpectedEnd bytes.length
  else if 28 ≤ info then fail .syntax_ start
  else fail (.unsupported (if info = 23 then "undefined" else "simple value")) start

def textAt (bytes : List Nat) (start next length : Nat) : Run (Json.Value × Nat) :=
  match scalars8 ((bytes.drop next).take length) with
  | some scalars => .ok (.text (scalars.flatMap encode16), next + length)
  | none => fail .invalidUtf8 start

/-- The loop of `items_at`; `value` decodes an item. -/
def itemsAt (value : Nat → Run (Json.Value × Nat)) : Nat → List Json.Value → Nat → Run (List Json.Value × Nat)
  | 0, items, position => .ok (items, position)
  | count + 1, items, position => do
    let (element, next) ← value position
    itemsAt value count (items ++ [element]) next

/-- The loop of `members_at`, with the offsets of the keys. -/
def membersAt (value : Nat → Run (Json.Value × Nat)) (bytes : List Nat) :
    Nat → List (Str × Json.Value) → List Nat → Nat → Run ((List (Str × Json.Value) × List Nat) × Nat)
  | 0, members, offsets, position => .ok ((members, offsets), position)
  | count + 1, members, offsets, position =>
    if bytes[position]?.any (fun byte => byte >>> 5 ≠ 3) then
      fail (.unsupported "map key that is not a text string") position
    else do
      let (key, after) ← value position
      match key with
      | .text key => do
        let (element, next) ← value after
        membersAt value bytes count (members ++ [(key, element)]) (offsets ++ [position]) next
      | _ => fail (.unsupported "map key that is not a text string") position

def repeated (members : List (Str × Json.Value)) : Option Nat :=
  Json.leastAdjacent ((members.map Prod.fst).zipIdx.mergeSort Json.keyLe) none

def closeMap (members : List (Str × Json.Value)) (offsets : List Nat) (position : Nat) : Run (Json.Value × Nat) :=
  match repeated members with
  | none => .ok (.object members, position)
  | some duplicate =>
    match members[duplicate]?, offsets[duplicate]? with
    | some (key, _), some offset => fail (.duplicateKey key) offset
    | _, _ => .error (.trap .bounds)

/-- An array or a map of `count` items behind its head. -/
def containerAt (value : Nat → Run (Json.Value × Nat)) (bytes : List Nat)
    (major start count next depth : Nat) : Run (Json.Value × Nat) :=
  let remaining := bytes.length - next
  if 128 ≤ depth then fail .tooDeep start
  else if major = 4 ∧ remaining < count then fail .unexpectedEnd bytes.length
  else if major = 5 ∧ remaining / 2 < count then fail .unexpectedEnd bytes.length
  else if major = 4 then do
    let (items, position) ← itemsAt value count [] next
    .ok (.items items, position)
  else do
    let ((members, offsets), position) ← membersAt value bytes count [] [] next
    closeMap members offsets position

/-- `value_at`. The first argument bounds the recursion, which goes at most 129 levels down. -/
def valueAt (floats : Floats) (bytes : List Nat) : Nat → Nat → Nat → Run (Json.Value × Nat)
  | 0, _, _ => .error (.trap .diverged)
  | fuel + 1, start, depth =>
    match bytes[start]? with
    | none => fail .unexpectedEnd bytes.length
    | some byte =>
      let major := byte >>> 5
      if major = 7 then simple floats bytes start (byte &&& 31)
      else do
        let (count, next) ← argument bytes start
        if major = 0 then do
          let value ← numeralOf (integerText count)
          .ok (value, next)
        else if major = 1 then do
          let value ← numeralOf (integerText (-1 - count))
          .ok (value, next)
        else if major = 2 then fail (.unsupported "byte string") start
        else if major = 3 then
          if bytes.length - next < count then fail .unexpectedEnd bytes.length
          else textAt bytes start next count
        else if major = 4 ∨ major = 5 then
          containerAt (fun position => valueAt floats bytes fuel position (depth + 1)) bytes major
            start count next depth
        else if count = 2 ∨ count = 3 then bignumAt bytes start next (count = 3)
        else fail (.unsupported ("tag " ++ toString count)) start

def decode (floats : Floats) (bytes : List Nat) : Run Json.Value :=
  if maxLength < bytes.length then fail .tooLarge 0
  else do
    let (value, next) ← valueAt floats bytes 130 0 0
    if next < bytes.length then fail .syntax_ next else .ok value

end Tsuzuri.Cbor
