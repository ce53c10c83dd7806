import Tsuzuri.JsonEmit

/-!
# The incremental writer (`std/Json.tz`)

A `Writer` holds the bytes so far, the kinds of the open containers and a number for the place in the last.
-/

namespace Tsuzuri.Json

open FaultVec

/-! ## The writer -/

/-- `state` is 0 at the start, 1 behind a value in a container, 2 behind `[`, 4 behind a left brace, 6 behind a key
and 7 at the end. -/
structure Writer where
  bytes : List Nat
  containers : List Bool
  state : Nat
deriving DecidableEq

def writer : Writer := { bytes := [], containers := [], state := 0 }

def orTrap {α : Type} : Exec α → Parse α
  | .ok a => .ok a
  | .error fault => .error (.trap fault)

namespace Writer

def valueSlot (w : Writer) : Parse Writer :=
  let inArray := w.containers.getLast? = some false
  if w.state = 0 ∨ w.state = 2 ∨ w.state = 6 then .ok w
  else if w.state = 1 ∧ inArray then .ok { w with bytes := w.bytes ++ [44] }
  else fail .syntax_ w.bytes.length

def wrote (containers : List Bool) (bytes : List Nat) : Writer :=
  { bytes, containers, state := if containers.isEmpty then 7 else 1 }

/-- The writer after a value that `emit` writes into the slot. -/
def writeWith (emit : List Nat → Exec (List Nat)) (w : Writer) : Parse Writer := do
  let ready ← w.valueSlot
  let bytes ← orTrap (emit ready.bytes)
  .ok (wrote ready.containers bytes)

def writeNull (w : Writer) : Parse Writer :=
  w.writeWith fun bytes => .ok (bytes ++ nullWord)

def writeBool (flag : Bool) (w : Writer) : Parse Writer :=
  w.writeWith fun bytes => .ok (if flag then bytes ++ trueWord else bytes ++ falseWord)

def writeNumber (numeral : List Nat) (w : Writer) : Parse Writer :=
  if isNumeral numeral = false then fail .syntax_ w.bytes.length
  else w.writeWith fun bytes => .ok (bytes ++ numeral)

def writeText (text : Str) (w : Writer) : Parse Writer :=
  w.writeWith fun bytes => .ok (emitString bytes text)

def writeJson (value : Value) (w : Writer) : Parse Writer :=
  w.writeWith fun bytes => emitValue bytes value

def writeKey (key : Str) (w : Writer) : Parse Writer :=
  let inObject := w.containers.getLast? = some true
  if ¬ inObject ∨ (w.state ≠ 4 ∧ w.state ≠ 1) then fail .syntax_ w.bytes.length
  else
    let separated := if w.state = 1 then w.bytes ++ [44] else w.bytes
    .ok { w with bytes := emitString separated key ++ [58], state := 6 }

def openWriter (w : Writer) (object : Bool) : Parse Writer :=
  if 128 ≤ w.containers.length then fail .tooDeep w.bytes.length
  else do
    let ready ← w.valueSlot
    .ok
      { bytes := ready.bytes ++ [if object then 123 else 91]
        containers := ready.containers ++ [object]
        state := if object then 4 else 2 }

def closeWriter (w : Writer) (object : Bool) : Parse Writer :=
  let matching := w.containers.getLast? = some object
  let ready := w.state = 1 ∨ (object ∧ w.state = 4) ∨ (¬ object ∧ w.state = 2)
  if ¬ matching ∨ ¬ ready then fail .syntax_ w.bytes.length
  else
    let containers := w.containers.dropLast
    .ok
      { bytes := w.bytes ++ [if object then 125 else 93]
        containers
        state := if containers.isEmpty then 7 else 1 }

def openArray (w : Writer) : Parse Writer := w.openWriter false

def closeArray (w : Writer) : Parse Writer := w.closeWriter false

def openObject (w : Writer) : Parse Writer := w.openWriter true

def closeObject (w : Writer) : Parse Writer := w.closeWriter true

def finish (w : Writer) : Parse Text :=
  if w.state ≠ 7 then fail .unexpectedEnd w.bytes.length else orTrap (textOf w.bytes)

end Writer

inductive Operation where
  | null
  | bool (flag : Bool)
  | number (numeral : List Nat)
  | text (units : Str)
  | json (value : Value)
  | key (units : Str)
  | openArray
  | closeArray
  | openObject
  | closeObject

def Writer.apply (w : Writer) : Operation → Parse Writer
  | .null => w.writeNull
  | .bool flag => w.writeBool flag
  | .number numeral => w.writeNumber numeral
  | .text units => w.writeText units
  | .json value => w.writeJson value
  | .key units => w.writeKey units
  | .openArray => w.openArray
  | .closeArray => w.closeArray
  | .openObject => w.openObject
  | .closeObject => w.closeObject

def Writer.run (w : Writer) : List Operation → Parse Writer
  | [] => .ok w
  | op :: ops => do
    let next ← w.apply op
    next.run ops

/-! ## The value that the operations describe -/

inductive Frame where
  | items (values : List Value)
  | members (members : List (Str × Value))
  | member (members : List (Str × Value)) (key : Str)

/-- Open containers, the innermost first, or a complete value. -/
inductive Draft where
  | within (frames : List Frame)
  | complete (value : Value)

namespace Draft

def hasSlot : List Frame → Bool
  | .members _ :: _ => false
  | _ => true

def put : List Frame → Value → Option Draft
  | [], v => some (.complete v)
  | .items values :: outer, v => some (.within (.items (values ++ [v]) :: outer))
  | .member members key :: outer, v => some (.within (.members (members ++ [(key, v)]) :: outer))
  | .members _ :: _, _ => none

def push (frame : Frame) (frames : List Frame) : Option Draft :=
  if hasSlot frames then some (.within (frame :: frames)) else none

def stepWithin (frames : List Frame) : Operation → Option Draft
  | .null => put frames .null
  | .bool flag => put frames (.bool flag)
  | .number numeral => put frames (.number numeral)
  | .text units => put frames (.text units)
  | .json value => put frames value
  | .openArray => push (.items []) frames
  | .openObject => push (.members []) frames
  | .key units =>
    match frames with
    | .members members :: outer => some (.within (.member members units :: outer))
    | _ => none
  | .closeArray =>
    match frames with
    | .items values :: outer => put outer (.items values)
    | _ => none
  | .closeObject =>
    match frames with
    | .members members :: outer => put outer (.object members)
    | _ => none

def step : Draft → Operation → Option Draft
  | .within frames, op => stepWithin frames op
  | .complete _, _ => none

def run (d : Draft) : List Operation → Option Draft
  | [] => some d
  | op :: ops => do
    let next ← d.step op
    next.run ops

def depth : Draft → Nat
  | .within frames => frames.length
  | .complete _ => 0

end Draft

end Tsuzuri.Json
