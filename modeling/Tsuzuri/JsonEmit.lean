import Tsuzuri.Json

/-!
# Writing JSON (`std/Json.tz`)

`emit_value` and `emit_pretty` append to a vector of bytes; making the text of it traps unless they are well-formed
UTF-8.
-/

namespace Tsuzuri.Json

open FaultVec Unicode

def isNumeral (text : List Nat) : Bool :=
  if text.length = 0 then false
  else
    match scanNumber text 0 with
    | .ok finish => finish = text.length
    | .error _ => false

def ubyte (n : Nat) : Nat := n % 256

/-! ## Strings -/

def hexDigit (value : Nat) : Nat :=
  if value < 10 then ubyte (48 + value) else ubyte (87 + value)

def emitEscape (output : List Nat) (unit : Nat) : List Nat :=
  output ++ [92, 117, hexDigit (unit >>> 12), hexDigit ((unit >>> 8) &&& 15),
    hexDigit ((unit >>> 4) &&& 15), hexDigit (unit &&& 15)]

def emitControl (output : List Nat) (unit : Nat) : List Nat :=
  if unit = 8 then output ++ [92, 98]
  else if unit = 12 then output ++ [92, 102]
  else if unit = 10 then output ++ [92, 110]
  else if unit = 13 then output ++ [92, 114]
  else if unit = 9 then output ++ [92, 116]
  else emitEscape output unit

/-- One turn of the loop of `emit_string`, for a code unit that does not start a pair. -/
def emitUnit (output : List Nat) (unit : Nat) : List Nat :=
  if unit = 34 ∨ unit = 92 then output ++ [92, ubyte unit]
  else if unit < 32 then emitControl output unit
  else if unit < 128 then output ++ [ubyte unit]
  else if unit < 2048 then
    output ++ [ubyte (192 ||| unit >>> 6), ubyte (128 ||| (unit &&& 63))]
  else if 55296 ≤ unit ∧ unit ≤ 57343 then emitEscape output unit
  else
    output ++ [ubyte (224 ||| unit >>> 12), ubyte (128 ||| ((unit >>> 6) &&& 63)), ubyte (128 ||| (unit &&& 63))]

def isPair (unit next : Nat) : Bool :=
  55296 ≤ unit && unit ≤ 56319 && (56320 ≤ next && next ≤ 57343)

/-- One turn of the loop of `emit_string`, for a surrogate pair. -/
def emitPair (output : List Nat) (unit next : Nat) : List Nat :=
  let point := 65536 + ((unit - 55296) <<< 10) + (next - 56320)
  output ++ [ubyte (240 ||| point >>> 18), ubyte (128 ||| ((point >>> 12) &&& 63)),
    ubyte (128 ||| ((point >>> 6) &&& 63)), ubyte (128 ||| (point &&& 63))]

/-- The loop of `emit_string` over the code units that are left. -/
def emitUnits (output : List Nat) : Str → List Nat
  | [] => output
  | [unit] => emitUnit output unit.toNat
  | unit :: next :: rest =>
    if isPair unit.toNat next.toNat then emitUnits (emitPair output unit.toNat next.toNat) rest
    else emitUnits (emitUnit output unit.toNat) (next :: rest)

def emitString (output : List Nat) (text : Str) : List Nat :=
  emitUnits (output ++ [34]) text ++ [34]

def separated (output : List Nat) (index : Nat) : List Nat :=
  if 0 < index then output ++ [44] else output

mutual
def emitValue (output : List Nat) : Value → Exec (List Nat)
  | .null => .ok (output ++ nullWord)
  | .bool flag => .ok (if flag then output ++ trueWord else output ++ falseWord)
  | .number text => do
    assert (isNumeral text)
    .ok (output ++ text)
  | .text units => .ok (emitString output units)
  | .items values => do
    let bytes ← emitItems (output ++ [91]) 0 values
    .ok (bytes ++ [93])
  | .object members => do
    let bytes ← emitMembers (output ++ [123]) 0 members
    .ok (bytes ++ [125])
termination_by structural v => v

def emitItems (output : List Nat) (index : Nat) : List Value → Exec (List Nat)
  | [] => .ok output
  | value :: values => do
    let bytes ← emitValue (separated output index) value
    emitItems bytes (index + 1) values
termination_by structural vs => vs

def emitMembers (output : List Nat) (index : Nat) : List (Str × Value) → Exec (List Nat)
  | [] => .ok output
  | member :: members => do
    let bytes ← emitMember (separated output index) member
    emitMembers bytes (index + 1) members
termination_by structural ms => ms

def emitMember (output : List Nat) : Str × Value → Exec (List Nat)
  | (key, item) => emitValue (emitString output key ++ [58]) item
termination_by structural m => m
end

def textOf (bytes : List Nat) : Exec Text :=
  if h : Valid bytes then .ok { bytes, valid := h } else .error .missing

def toUtf8String (value : Value) : Exec Text := do
  let bytes ← emitValue [] value
  textOf bytes

/-! ## Indented values -/

def pushSpaces (output : List Nat) (count : Nat) : List Nat :=
  output ++ List.replicate count 32

def newLine (output : List Nat) (indent level : Nat) : List Nat :=
  pushSpaces (output ++ [10]) (indent * level)

mutual
def emitPretty (indent level : Nat) (output : List Nat) : Value → Exec (List Nat)
  | .items [] => .ok (output ++ [91, 93])
  | .items (value :: values) => do
    let bytes ← emitPretty indent (level + 1) (newLine (output ++ [91]) indent (level + 1)) value
    let bytes ← prettyItems indent level bytes values
    .ok (newLine bytes indent level ++ [93])
  | .object [] => .ok (output ++ [123, 125])
  | .object (member :: members) => do
    let bytes ← prettyMember indent level (output ++ [123]) member
    let bytes ← prettyMembers indent level bytes members
    .ok (newLine bytes indent level ++ [125])
  | .null => emitValue output .null
  | .bool flag => emitValue output (.bool flag)
  | .number text => emitValue output (.number text)
  | .text units => emitValue output (.text units)
termination_by structural v => v

def prettyItems (indent level : Nat) (output : List Nat) : List Value → Exec (List Nat)
  | [] => .ok output
  | value :: values => do
    let bytes ← emitPretty indent (level + 1) (newLine (output ++ [44]) indent (level + 1)) value
    prettyItems indent level bytes values
termination_by structural vs => vs

def prettyMembers (indent level : Nat) (output : List Nat) : List (Str × Value) → Exec (List Nat)
  | [] => .ok output
  | member :: members => do
    let bytes ← prettyMember indent level (output ++ [44]) member
    prettyMembers indent level bytes members
termination_by structural ms => ms

def prettyMember (indent level : Nat) (output : List Nat) : Str × Value → Exec (List Nat)
  | (key, item) =>
    emitPretty indent (level + 1) (emitString (newLine output indent (level + 1)) key ++ [58, 32]) item
termination_by structural m => m
end

def toUtf8StringPretty (indent : Int) (value : Value) : Exec Text :=
  let width := if 10 < indent then 10 else indent
  if width < 1 then toUtf8String value
  else do
    let bytes ← emitPretty width.toNat 0 [] value
    textOf bytes

end Tsuzuri.Json
