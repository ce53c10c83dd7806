import Tsuzuri.Json

/-!
# Character classes of a pattern (`std/Regex.tz`)

A set of scalars is a list of closed ranges; a code unit or a scalar outside the text is none. The tables of the
`Unicode` module are a parameter.
-/

namespace Tsuzuri.Regex

open FaultVec (Fault)
open Json (Str)

inductive ErrorKind where
  | syntax_
  | unsupported
  | tooLarge

structure Error where
  kind : ErrorKind
  offset : Nat
  message : Str

inductive Stop where
  | failure (error : Error)
  | trap (fault : Fault)

abbrev Parse (α : Type) := Except Stop α

def lit (text : String) : Str :=
  text.toList.map fun c => UInt16.ofNat c.toNat

def failure (kind : ErrorKind) (offset : Nat) (message : Str) : Error :=
  { kind, offset, message }

def lastScalar : Nat := 1114111

abbrev Ranges := List (Nat × Nat)

def Normal (ranges : Ranges) : Prop :=
  (∀ r ∈ ranges, r.1 ≤ r.2 ∧ r.2 ≤ lastScalar) ∧ ranges.Pairwise fun a b => a.2 + 1 < b.1

/-- The tables of the `Unicode` module: `property_ranges`, which are ascending and merged, and
`simple_case_folding`. -/
structure UnicodeData where
  propertyRanges : Str → Option Ranges
  simpleCaseFolding : List (Nat × Nat)
  normal : ∀ name ranges, propertyRanges name = some ranges → Normal ranges
  folding_le : ∀ p ∈ simpleCaseFolding, p.1 ≤ lastScalar ∧ p.2 ≤ lastScalar

def unit (text : Str) (index : Nat) : Option Nat :=
  text[index]?.map UInt16.toNat

def isHigh (code : Nat) : Bool := 55296 ≤ code && code ≤ 56319

def isLow (code : Nat) : Bool := 56320 ≤ code && code ≤ 57343

def scalar16 (text : Str) (index : Nat) : Option (Nat × Nat) :=
  (unit text index).map fun high =>
    if isHigh high && (unit text (index + 1)).any isLow then
      ((high - 55296) * 1024 + (unit text (index + 1)).getD 0 - 56320 + 65536, 2)
    else (high, 1)

def isDigit (code : Nat) : Bool := 48 ≤ code && code ≤ 57

def hexValue (code : Nat) : Option Nat :=
  if 48 ≤ code ∧ code ≤ 57 then some (code - 48)
  else if 65 ≤ code ∧ code ≤ 70 then some (code - 55)
  else if 97 ≤ code ∧ code ≤ 102 then some (code - 87)
  else none

def isSyntax (code : Nat) : Bool :=
  code = 94 || code = 36 || code = 92 || code = 46 || code = 42 || code = 43 || code = 63 ||
    code = 40 || code = 41 || code = 91 || code = 93 || code = 123 || code = 125 || code = 124

def slice (text : Str) (first last : Nat) : Str :=
  (text.drop first).take (last - first)

/-- The pattern text of the scalar at `index`, for messages. -/
def textAt (pattern : Str) (index : Nat) : Str :=
  match scalar16 pattern index with
  | none => []
  | some (_, width) => slice pattern index (index + width)

def nothingToRepeat (offset : Nat) : Error :=
  failure .syntax_ offset (lit "repetition operator has nothing to repeat; add an expression before it or escape it")

def invalidRange (offset : Nat) : Error :=
  failure .syntax_ offset (lit "invalid class range; use single characters with start <= end")

def unknownProperty (offset : Nat) (name : Str) : Error :=
  failure .unsupported offset (lit "unknown Unicode property '" ++ name ++
    lit "'; use a general category such as Lu, or Alphabetic, White_Space, Join_Control")

/-- The offset of the first right brace from `start`, or the length of the pattern. -/
def closing (pattern : Str) (start : Nat) : Nat :=
  start + ((pattern.drop start).takeWhile fun u => u.toNat != 125).length

/-- `perl` holds the class (0 for digits, 1 for white space, 2 for words) times 2, plus 1 when negated. -/
inductive Escape where
  | literal (code : Nat)
  | perl (which : Nat)
  | property (offset length : Nat) (negated : Bool)
  | assertion (kind : Nat)
  | failed (error : Error)

def hexDigits (pattern : Str) : Nat → Nat → Nat → Nat × Nat
  | 0, index, value => (value, index)
  | count + 1, index, value =>
    match (unit pattern index).bind hexValue with
    | some digit => hexDigits pattern count (index + 1) (value * 16 + digit)
    | none => (value, index)

def hexScalar (pattern : Str) : Nat → Nat → Nat → Nat × Nat
  | 0, index, value => (value, index)
  | fuel + 1, index, value =>
    match (unit pattern index).bind hexValue with
    | some digit =>
      if value ≤ lastScalar then hexScalar pattern fuel (index + 1) (value * 16 + digit)
      else (value, index)
    | none => (value, index)

/-- The escape that starts with the backslash at `start`, and the offset after it. -/
def escapeAt (pattern : Str) (start : Nat) (inClass : Bool) : Escape × Nat :=
  let invalid := failure .syntax_ start (lit "invalid code point escape; use \\u\x7b0\x7d through \\u\x7b10FFFF\x7d")
  let backreference := failure .unsupported start
    (lit "backreferences are not supported; the engine guarantees linear time")
  match scalar16 pattern (start + 1) with
  | none =>
    (.failed (failure .syntax_ start (lit "pattern ends with '\\'; escape a backslash as '\\\\'")), start + 1)
  | some (letter, width) =>
    let after := start + 1 + width
    if isSyntax letter || letter = 45 || letter = 47 then (.literal letter, after)
    else if letter = 110 then (.literal 10, after)
    else if letter = 114 then (.literal 13, after)
    else if letter = 116 then (.literal 9, after)
    else if letter = 102 then (.literal 12, after)
    else if letter = 118 then (.literal 11, after)
    else if letter = 48 then
      if (unit pattern after).any isDigit then (.failed backreference, after)
      else (.literal 0, after)
    else if isDigit letter || (letter = 107 && unit pattern after = some 60) then
      (.failed backreference, after)
    else if letter = 120 then
      match (unit pattern after).bind hexValue, (unit pattern (after + 1)).bind hexValue with
      | some high, some low => (.literal (high * 16 + low), after + 2)
      | _, _ => (.failed invalid, after)
    else if letter = 117 && unit pattern after = some 123 then
      let (value, index) := hexScalar pattern (pattern.length + 1) (after + 1) 0
      if index = after + 1 || lastScalar < value || unit pattern index ≠ some 125 then
        (.failed invalid, after)
      else (.literal value, index + 1)
    else if letter = 117 then
      let (value, index) := hexDigits pattern 4 after 0
      if index < after + 4 then (.failed invalid, after)
      else if isHigh value && unit pattern index = some 92 && unit pattern (index + 1) = some 117 then
        let (low, digit) := hexDigits pattern 4 (index + 2) 0
        if digit = index + 6 && isLow low then
          (.literal ((value - 55296) * 1024 + low - 56320 + 65536), digit)
        else (.literal value, index)
      else (.literal value, index)
    else if letter = 100 || letter = 68 then (.perl (if letter = 68 then 1 else 0), after)
    else if letter = 115 || letter = 83 then (.perl (if letter = 83 then 3 else 2), after)
    else if letter = 119 || letter = 87 then (.perl (if letter = 87 then 5 else 4), after)
    else if letter = 112 || letter = 80 then
      if unit pattern after ≠ some 123 then
        (.failed (unknownProperty start (textAt pattern after)), after)
      else
        let close := closing pattern (after + 1)
        if pattern.length ≤ close then
          (.failed (unknownProperty start (slice pattern (after + 1) close)), close)
        else (.property (after + 1) (close - after - 1) (letter = 80), close + 1)
    else if !inClass && (letter = 98 || letter = 66) then
      (.assertion (if letter = 98 then 4 else 5), after)
    else if !inClass && (letter = 65 || letter = 122) then
      (.assertion (if letter = 65 then 0 else 1), after)
    else if letter = 71 || letter = 90 || letter = 88 || letter = 82 || letter = 75 then
      (.failed (failure .unsupported start
        (lit "unsupported syntax '\\" ++ textAt pattern (start + 1) ++ lit "'")), after)
    else
      (.failed (failure .syntax_ start (lit "unknown escape '\\" ++ textAt pattern (start + 1) ++
        lit "'; escape only syntax characters")), after)

/-! ## Sets of scalars -/

/-- The loop of `normalize` over the keys of the ranges, with the range that is open. -/
def mergeKeys : List Nat → Option (Nat × Nat) → Ranges → Ranges
  | [], none, output => output
  | [], some range, output => output ++ [range]
  | key :: keys, none, output => mergeKeys keys (some (key / 2097152, key % 2097152)) output
  | key :: keys, some (low, high), output =>
    if key / 2097152 ≤ high + 1 then
      mergeKeys keys (some (low, if high < key % 2097152 then key % 2097152 else high)) output
    else mergeKeys keys (some (key / 2097152, key % 2097152)) (output ++ [(low, high)])

def normalize (ranges : Ranges) : Ranges :=
  mergeKeys ((ranges.map fun r => r.1 * 2097152 + r.2).mergeSort) none []

/-- The loop of `complement`; `next` is the first scalar that is not passed. -/
def complementFrom : Ranges → Nat → Ranges → Ranges
  | [], next, output => if next ≤ lastScalar then output ++ [(next, lastScalar)] else output
  | (first, last) :: ranges, next, output =>
    complementFrom ranges (last + 1) (if next < first then output ++ [(next, first - 1)] else output)

def complement (ranges : Ranges) : Ranges :=
  complementFrom ranges 0 []

/-- The loop of the binary searches: the first index from `low` on that is not `below`. -/
def lowerBound (below : Nat → Bool) : Nat → Nat → Nat → Nat
  | 0, low, _ => low
  | fuel + 1, low, high =>
    if low < high then
      let middle := (low + high) / 2
      if below middle then lowerBound below fuel (middle + 1) high
      else lowerBound below fuel low middle
    else low

def holdsScalar (ranges : Ranges) (code : Nat) : Bool :=
  let low := lowerBound (fun i => ranges[i]?.any fun r => r.2 < code) ranges.length 0 ranges.length
  ranges[low]?.any fun r => r.1 ≤ code

def sortedHolds (values : List Nat) (code : Nat) : Bool :=
  let low := lowerBound (fun i => values[i]?.any (· < code)) values.length 0 values.length
  values[low]? = some code

def fold (ranges : Ranges) (pairs : List (Nat × Nat)) : Ranges :=
  let targets := (pairs.filter fun p => holdsScalar ranges p.1 || holdsScalar ranges p.2).map Prod.snd
  let folded := targets.mergeSort
  let sources := (pairs.filter fun p => sortedHolds folded p.2).map fun p => (p.1, p.1)
  normalize (ranges ++ sources ++ folded.map fun code => (code, code))

def asciiPairs : List (Nat × Nat) :=
  (List.range 26).map fun index => (65 + index, 97 + index)

def flagI : Nat := 1
def flagM : Nat := 2
def flagS : Nat := 4
def flagU : Nat := 8

section Tables

variable (data : UnicodeData)

def appendProperty (output : Ranges) (name : String) : Ranges :=
  match data.propertyRanges (lit name) with
  | some ranges => output ++ ranges
  | none => output

/-- Digits, white space or words (`which` 0, 1, 2). -/
def perlRanges (which : Nat) (unicode : Bool) : Ranges :=
  if !unicode then
    if which = 0 then [(48, 57)]
    else if which = 1 then [(9, 13), (32, 32)]
    else [(48, 57), (65, 90), (95, 95), (97, 122)]
  else if which = 0 then appendProperty data [] "Nd"
  else if which = 1 then appendProperty data [] "White_Space"
  else
    let letters := appendProperty data [] "Alphabetic"
    let marks := appendProperty data letters "M"
    let digits := appendProperty data marks "Nd"
    let connectors := appendProperty data digits "Pc"
    normalize (appendProperty data connectors "Join_Control")

/-- Digits, white space, words (`which` 0, 1, 2) or a property (`which` 3), folded and then negated. -/
def special (pattern : Str) (which offset length : Nat) (negated : Bool) (flags : Nat)
    (pairs : List (Nat × Nat)) : Option Ranges :=
  let base :=
    if which < 3 then some (perlRanges data which (flags &&& flagU ≠ 0))
    else data.propertyRanges (slice pattern offset (offset + length))
  base.map fun ranges =>
    let folded := if flags &&& flagI ≠ 0 then fold ranges pairs else ranges
    if negated then complement folded else folded

/-! ## Classes -/

inductive Atom where
  | single (code : Nat)
  | many (ranges : Ranges)
  | again
  | broken (error : Error)

def sameText (pattern : Str) (first second length : Nat) : Bool :=
  (List.range length).all fun index => pattern[first + index]? = pattern[second + index]?

/-- The escape of `length` code units at `start` is written in `seen`. -/
def repeated (seen : List (Nat × Nat)) (pattern : Str) (start length : Nat) : Bool :=
  seen.any fun s => s.2 = length && sameText pattern s.1 start length

/-- The class item at `start`. -/
def classAtom (pattern : Str) (start flags : Nat) (pairs : List (Nat × Nat)) (seen : List (Nat × Nat)) : Atom × Nat :=
  if unit pattern start ≠ some 92 then
    match scalar16 pattern start with
    | some (code, width) => (.single code, start + width)
    | none => (.single 0, start)
  else
    match escapeAt pattern start true with
    | (.literal code, after) => (.single code, after)
    | (.perl which, after) =>
      if repeated seen pattern start (after - start) then (.again, after)
      else
        match special data pattern (which / 2) 0 0 (which % 2 = 1) flags pairs with
        | some ranges => (.many ranges, after)
        | none => (.single 0, after)
    | (.property offset length negated, after) =>
      if repeated seen pattern start (after - start) then (.again, after)
      else
        match special data pattern 3 offset length negated flags pairs with
        | some ranges => (.many ranges, after)
        | none => (.broken (unknownProperty start (slice pattern offset (offset + length))), after)
    | (.assertion _, after) => (.single 0, after)
    | (.failed error, after) => (.broken error, after)

/-- The item that ends at `after` is followed by a range dash. -/
def dashAt (pattern : Str) (after : Nat) : Bool :=
  unit pattern after = some 45 && (unit pattern (after + 1)).any (· ≠ 93)

/-- The loop of `bracket`: the unmerged ranges and the offset behind the class. -/
def bracketFrom (pattern : Str) (start flags : Nat) (pairs : List (Nat × Nat)) :
    Nat → Bool → Nat → Ranges → List (Nat × Nat) → Parse (Ranges × Nat)
  | 0, _, _, _, _ => .error (.trap .diverged)
  | fuel + 1, first, pos, set, seen =>
    let next := unit pattern (pos + 1)
    match unit pattern pos with
    | none =>
      .error (.failure (failure .syntax_ start (lit "unclosed character class; add ']'")))
    | some code =>
      if code = 93 && first then
        .error (.failure (failure .syntax_ start (lit "empty character class; escape ']' as '\\]'")))
      else if code = 93 then .ok (set, pos + 1)
      else if code = 91 then
        .error (.failure (failure .unsupported pos (lit "unsupported syntax '['")))
      else if code = 38 && next = some 38 then
        .error (.failure (failure .unsupported pos (lit "unsupported syntax '&&'")))
      else if code = 45 && !first && next.any (· ≠ 93) then
        .error (.failure (invalidRange pos))
      else
        match classAtom data pattern pos flags pairs seen with
        | (.single low, after) =>
          if dashAt pattern after then
            match classAtom data pattern (after + 1) flags pairs seen with
            | (.single high, finish) =>
              if high < low then .error (.failure (invalidRange pos))
              else bracketFrom pattern start flags pairs fuel false finish (set ++ [(low, high)]) seen
            | (.many _, _) => .error (.failure (invalidRange pos))
            | (.again, _) => .error (.failure (invalidRange pos))
            | (.broken error, _) => .error (.failure error)
          else
            bracketFrom pattern start flags pairs fuel false after (set ++ [(low, low)]) seen
        | (.many ranges, after) =>
          if dashAt pattern after then .error (.failure (invalidRange pos))
          else
            bracketFrom pattern start flags pairs fuel false after (set ++ ranges) (seen ++ [(pos, after - pos)])
        | (.again, after) =>
          if dashAt pattern after then .error (.failure (invalidRange pos))
          else bracketFrom pattern start flags pairs fuel false after set seen
        | (.broken error, _) => .error (.failure error)

/-- The class that opens at `start`: its ranges folded and negated, and the offset after it. -/
def bracket (pattern : Str) (start flags : Nat) (pairs : List (Nat × Nat)) : Parse (Ranges × Nat) := do
  let negated := unit pattern (start + 1) = some 94
  let pos := if negated then start + 2 else start + 1
  let (set, finish) ← bracketFrom data pattern start flags pairs (pattern.length + 1) true pos [] []
  let normalized := normalize set
  let folded := if flags &&& flagI ≠ 0 then fold normalized pairs else normalized
  .ok (if negated then complement folded else folded, finish)

end Tables

end Tsuzuri.Regex
