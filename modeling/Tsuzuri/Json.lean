import Tsuzuri.FaultVec
import Tsuzuri.Unicode

/-!
# Parsing JSON (`std/Json.tz`)

A text is a sequence of bytes that is well-formed UTF-8, a string is a list of code units. `parse`
is a recursive descent over byte offsets.
-/

namespace Tsuzuri.Json

open FaultVec Unicode

/-- A `utf8string`. -/
structure Text where
  bytes : List Nat
  valid : Valid bytes

abbrev Str := List UInt16

inductive Value where
  | null
  | bool (flag : Bool)
  | number (text : List Nat)
  | text (units : Str)
  | items (values : List Value)
  | object (members : List (Str × Value))

inductive ErrorKind where
  | syntax_
  | unexpectedEnd
  | invalidEscape
  | controlCharacter
  | duplicateKey (key : Str)
  | tooDeep
  | tooLarge
deriving DecidableEq

structure Error where
  kind : ErrorKind
  offset : Nat
deriving DecidableEq

inductive Stop where
  | failure (error : Error)
  | trap (fault : Fault)
deriving DecidableEq

abbrev Parse (α : Type) := Except Stop α

def fail {α : Type} (kind : ErrorKind) (offset : Nat) : Parse α :=
  .error (.failure { kind, offset })

def isSpace (byte : Nat) : Bool :=
  byte = 32 || byte = 10 || byte = 13 || byte = 9

def isDigit (byte : Nat) : Bool :=
  48 ≤ byte && byte ≤ 57

def runEnd (test : Nat → Bool) (text : List Nat) (start : Nat) : Nat :=
  start + ((text.drop start).takeWhile test).length

def skipSpace (text : List Nat) (start : Nat) : Nat :=
  runEnd isSpace text start

def digitsEnd (text : List Nat) (start : Nat) : Nat :=
  runEnd isDigit text start

def byteIs (text : List Nat) (index : Nat) (test : Nat → Bool) : Bool :=
  text[index]?.any test

def scanInteger (text : List Nat) (start : Nat) : Except Nat Nat :=
  let index := if byteIs text start (· = 45) then start + 1 else start
  if byteIs text index (· = 48) then .ok (index + 1)
  else if byteIs text index isDigit then .ok (digitsEnd text index)
  else .error index

def scanFraction (text : List Nat) (index : Nat) : Except Nat Nat :=
  if byteIs text index (· = 46) then
    let first := index + 1
    let finish := digitsEnd text first
    if finish = first then .error first else .ok finish
  else .ok index

def scanExponent (text : List Nat) (index : Nat) : Except Nat Nat :=
  if byteIs text index (fun byte => byte = 101 || byte = 69) then
    let first := index + 1
    let first := if byteIs text first (fun byte => byte = 43 || byte = 45) then first + 1 else first
    let finish := digitsEnd text first
    if finish = first then .error first else .ok finish
  else .ok index

def scanNumber (text : List Nat) (start : Nat) : Parse Nat :=
  match (scanInteger text start >>= scanFraction text) >>= scanExponent text with
  | .ok index => .ok index
  | .error bad =>
    if text.length ≤ bad then fail .unexpectedEnd text.length else fail .syntax_ bad

/-! ## Strings -/

def hexValue (byte : Nat) : Option Nat :=
  if 48 ≤ byte ∧ byte ≤ 57 then some (byte - 48)
  else if 97 ≤ byte ∧ byte ≤ 102 then some (byte - 87)
  else if 65 ≤ byte ∧ byte ≤ 70 then some (byte - 55)
  else none

def escapeUnit (byte : Nat) : Option Nat :=
  if byte = 34 ∨ byte = 92 ∨ byte = 47 then some byte
  else if byte = 98 then some 8
  else if byte = 102 then some 12
  else if byte = 110 then some 10
  else if byte = 114 then some 13
  else if byte = 116 then some 9
  else none

def hexDigits (text : List Nat) : Nat → Nat → Nat → Nat × Nat
  | 0, unit, digit => (unit, digit)
  | count + 1, unit, digit =>
    match text[digit]?.bind hexValue with
    | some value => hexDigits text count (unit * 16 + value) (digit + 1)
    | none => (unit, digit)

/-- The code unit of the escape whose backslash is at `index`, and the offset behind it. -/
def escapeAt (text : List Nat) (index : Nat) : Parse (UInt16 × Nat) :=
  match text[index + 1]? with
  | none => fail .unexpectedEnd text.length
  | some byte =>
    if byte = 117 then
      let (unit, digit) := hexDigits text 4 0 (index + 2)
      if digit = index + 6 then .ok (UInt16.ofNat unit, digit)
      else if text.length ≤ digit then fail .unexpectedEnd text.length
      else fail .invalidEscape digit
    else
      match escapeUnit byte with
      | some unit => .ok (UInt16.ofNat unit, index + 2)
      | none => fail .invalidEscape (index + 1)

def byteAt (text : List Nat) (index : Nat) : Parse Nat :=
  match text[index]? with
  | some byte => .ok byte
  | none => .error (.trap .bounds)

/-- The code units of the character whose first byte is at `index`, and the offset behind it. -/
def characterAt (text : List Nat) (index byte : Nat) : Parse (Str × Nat) :=
  if byte < 128 then .ok ([UInt16.ofNat byte], index + 1)
  else if byte < 224 then do
    let second ← byteAt text (index + 1)
    let point := (byte &&& 31) <<< 6 ||| (second &&& 63)
    .ok ([UInt16.ofNat point], index + 2)
  else if byte < 240 then do
    let second ← byteAt text (index + 1)
    let third ← byteAt text (index + 2)
    let point := (byte &&& 15) <<< 12 ||| (second &&& 63) <<< 6 ||| (third &&& 63)
    .ok ([UInt16.ofNat point], index + 3)
  else do
    let second ← byteAt text (index + 1)
    let third ← byteAt text (index + 2)
    let fourth ← byteAt text (index + 3)
    let point :=
      (byte &&& 7) <<< 18 ||| (second &&& 63) <<< 12 ||| (third &&& 63) <<< 6 ||| (fourth &&& 63)
    let above := point - 65536
    .ok ([UInt16.ofNat (55296 + (above >>> 10)), UInt16.ofNat (56320 + (above &&& 1023))], index + 4)

/-- The loop of `parse_string`, with the code units so far. -/
def stringFrom (text : List Nat) : Nat → Str → Nat → Parse (Str × Nat)
  | 0, _, _ => .error (.trap .diverged)
  | fuel + 1, units, index =>
    match text[index]? with
    | none => fail .unexpectedEnd text.length
    | some byte =>
      if byte = 34 then .ok (units, index + 1)
      else if byte = 92 then do
        let (unit, next) ← escapeAt text index
        stringFrom text fuel (units ++ [unit]) next
      else if byte < 32 then fail .controlCharacter index
      else do
        let (more, next) ← characterAt text index byte
        stringFrom text fuel (units ++ more) next

/-- The string whose opening quote is at `start`, and the offset after its closing quote. -/
def parseString (text : List Nat) (start : Nat) : Parse (Str × Nat) :=
  stringFrom text (text.length + 1) [] (start + 1)

/-- The number of bytes from `start` on that spell the beginning of a word. -/
def spelled (text : List Nat) (start : Nat) : List Nat → Nat
  | [] => 0
  | letter :: word => if text[start]? = some letter then spelled text (start + 1) word + 1 else 0

def keyword (text : List Nat) (start : Nat) (word : List Nat) (value : Value) : Parse (Value × Nat) :=
  let index := spelled text start word
  if index = word.length then .ok (value, start + index)
  else if text.length ≤ start + index then fail .unexpectedEnd text.length
  else fail .syntax_ (start + index)

/-- The first index from `index` on whose key is among the earlier ones. -/
def firstRepeat : List Str → List Str → Nat → Option Nat
  | _, [], _ => none
  | earlier, key :: keys, index =>
    if key ∈ earlier then some index else firstRepeat (earlier ++ [key]) keys (index + 1)

def keyLe (a b : Str × Nat) : Bool :=
  a.1 < b.1 || (a.1 = b.1 && a.2 ≤ b.2)

def leastAdjacent : List (Str × Nat) → Option Nat → Option Nat
  | (other, _) :: (key, position) :: rest, found =>
    leastAdjacent ((key, position) :: rest)
      (if key = other ∧ found.all (fun f => position < f) then some position else found)
  | _, found => found

def firstDuplicate (members : List (Str × Value)) : Option Nat :=
  let keys := members.map Prod.fst
  if members.length ≤ 32 then firstRepeat [] keys 0
  else leastAdjacent (keys.zipIdx.mergeSort keyLe) none

/-- The error of an object: the earlier of a repeated key among `members` and `problem`. -/
def objectFailure (members : List (Str × Value)) (offsets : List Nat) (problem : Option Error) : Parse (Option Error) :=
  match firstDuplicate members with
  | none => .ok problem
  | some duplicate =>
    match members[duplicate]?, offsets[duplicate]? with
    | some (key, _), some offset =>
      match problem with
      | some error =>
        if offset < error.offset then .ok (some { kind := .duplicateKey key, offset })
        else .ok (some error)
      | none => .ok (some { kind := .duplicateKey key, offset })
    | _, _ => .error (.trap .bounds)

/-! ## Values -/

def replaceLast (members : List (Str × Value)) (value : Value) : List (Str × Value) :=
  match members.getLast? with
  | some (key, _) => members.dropLast ++ [(key, value)]
  | none => members.dropLast

/-- The loop of `parse_items`; `value` parses an item. -/
def itemsFrom (value : Nat → Parse (Value × Nat)) (text : List Nat) : Nat → List Value → Nat → Parse (List Value × Nat)
  | 0, _, _ => .error (.trap .diverged)
  | fuel + 1, items, index => do
    let (item, next) ← value index
    let items := items ++ [item]
    let separator := skipSpace text next
    match text[separator]? with
    | none => fail .unexpectedEnd text.length
    | some byte =>
      if byte = 44 then itemsFrom value text fuel items (skipSpace text (separator + 1))
      else if byte = 93 then .ok (items, separator + 1)
      else fail .syntax_ separator

def parseItems (value : Nat → Parse (Value × Nat)) (text : List Nat) (start depth : Nat) : Parse (Value × Nat) :=
  if 128 ≤ depth then fail .tooDeep start
  else
    let index := skipSpace text (start + 1)
    if text[index]? = some 93 then .ok (.items [], index + 1)
    else do
      let (items, index) ← itemsFrom value text (text.length + 1) [] index
      .ok (.items items, index)

/-- What the loop of `parse_object` leaves: members, offsets of keys, and the end or what stopped it. -/
structure Members where
  members : List (Str × Value)
  offsets : List Nat
  outcome : Parse Nat

/-- The loop of `parse_object`. -/
def membersFrom (value : Nat → Parse (Value × Nat)) (text : List Nat) :
    Nat → List (Str × Value) → List Nat → Nat → Members
  | 0, members, offsets, _ => { members, offsets, outcome := .error (.trap .diverged) }
  | fuel + 1, members, offsets, index =>
    match text[index]? with
    | none => { members, offsets, outcome := fail .unexpectedEnd text.length }
    | some byte =>
      if byte ≠ 34 then { members, offsets, outcome := fail .syntax_ index }
      else
        match parseString text index with
        | .error stop => { members, offsets, outcome := .error stop }
        | .ok (key, after) =>
          let members := members ++ [(key, .null)]
          let offsets := offsets ++ [index]
          let colon := skipSpace text after
          match text[colon]? with
          | none => { members, offsets, outcome := fail .unexpectedEnd text.length }
          | some byte =>
            if byte ≠ 58 then { members, offsets, outcome := fail .syntax_ colon }
            else
              match value (skipSpace text (colon + 1)) with
              | .error stop => { members, offsets, outcome := .error stop }
              | .ok (item, next) =>
                let members := replaceLast members item
                let separator := skipSpace text next
                match text[separator]? with
                | none => { members, offsets, outcome := fail .unexpectedEnd text.length }
                | some byte =>
                  if byte = 44 then
                    membersFrom value text fuel members offsets (skipSpace text (separator + 1))
                  else if byte = 125 then
                    { members, offsets, outcome := .ok (separator + 1) }
                  else { members, offsets, outcome := fail .syntax_ separator }

def closeObject (read : Members) : Parse (Value × Nat) :=
  match read.outcome with
  | .error (.trap fault) => .error (.trap fault)
  | .error (.failure error) => do
    let problem ← objectFailure read.members read.offsets (some error)
    .error (.failure (problem.getD error))
  | .ok next => do
    let problem ← objectFailure read.members read.offsets none
    match problem with
    | some error => .error (.failure error)
    | none => .ok (.object read.members, next)

def parseObject (value : Nat → Parse (Value × Nat)) (text : List Nat) (start depth : Nat) : Parse (Value × Nat) :=
  if 128 ≤ depth then fail .tooDeep start
  else
    let index := skipSpace text (start + 1)
    if text[index]? = some 125 then
      closeObject { members := [], offsets := [], outcome := .ok (index + 1) }
    else closeObject (membersFrom value text (text.length + 1) [] [] index)

def trueWord : List Nat := [116, 114, 117, 101]

def falseWord : List Nat := [102, 97, 108, 115, 101]

def nullWord : List Nat := [110, 117, 108, 108]

def numberAt (text : List Nat) (start : Nat) : Parse (Value × Nat) := do
  let finish ← scanNumber text start
  .ok (.number ((text.drop start).take (finish - start)), finish)

/-- `parse_value`. The first argument bounds the recursion, which goes at most 129 levels down. -/
def parseValue (text : List Nat) : Nat → Nat → Nat → Parse (Value × Nat)
  | 0, _, _ => .error (.trap .diverged)
  | fuel + 1, start, depth =>
    match text[start]? with
    | none => fail .unexpectedEnd text.length
    | some byte =>
      if byte = 123 then
        parseObject (fun index => parseValue text fuel index (depth + 1)) text start depth
      else if byte = 91 then
        parseItems (fun index => parseValue text fuel index (depth + 1)) text start depth
      else if byte = 34 then do
        let (content, next) ← parseString text start
        .ok (.text content, next)
      else if byte = 116 then keyword text start trueWord (.bool true)
      else if byte = 102 then keyword text start falseWord (.bool false)
      else if byte = 110 then keyword text start nullWord .null
      else if byte = 45 || isDigit byte then numberAt text start
      else fail .syntax_ start

def maxLength : Nat := 67108864

def parse (text : Text) : Parse Value :=
  if maxLength < text.bytes.length then fail .tooLarge 0
  else do
    let (value, next) ← parseValue text.bytes 130 (skipSpace text.bytes 0) 0
    let finish := skipSpace text.bytes next
    if finish < text.bytes.length then fail .syntax_ finish else .ok value

end Tsuzuri.Json
