import Tsuzuri.JsonEmit

/-!
# The pull parser (`std/Json.tz`)

A `Reader` holds the position, the kinds of the open containers, the keys of the open objects, and a number for the
place in the innermost container.
-/

namespace Tsuzuri.Json

open FaultVec

/-- The bytes of a token, from `start` to `finish` (exclusive). -/
structure Lexeme where
  start : Nat
  finish : Nat
  escaped : Bool

inductive Event where
  | objectStart
  | objectEnd
  | arrayStart
  | arrayEnd
  | keyToken (token : Lexeme)
  | textToken (token : Lexeme)
  | numberToken (token : Lexeme)
  | boolToken (flag : Bool)
  | nullToken
  | endOfInput

/-- `state` is 0 at the start, 1 behind a value in a container, 2 behind `[`, 4 behind a left brace, 6 behind a key
and 7 behind the value of the text. -/
structure Reader where
  position : Nat
  containers : List Bool
  keys : List Lexeme
  marks : List Nat
  state : Nat

def reader (text : Text) : Parse Reader :=
  if maxLength < text.bytes.length then fail .tooLarge 0
  else .ok { position := 0, containers := [], keys := [], marks := [], state := 0 }

def hexEnd (text : List Nat) : Nat → Nat → Nat
  | 0, digit => digit
  | count + 1, digit =>
    if (text[digit]?.bind hexValue).isSome then hexEnd text count (digit + 1) else digit

def escapeEnd (text : List Nat) (index : Nat) : Parse Nat :=
  match text[index + 1]? with
  | none => fail .unexpectedEnd text.length
  | some byte =>
    if byte = 117 then
      let digit := hexEnd text 4 (index + 2)
      if digit = index + 6 then .ok digit
      else if text.length ≤ digit then fail .unexpectedEnd text.length
      else fail .invalidEscape digit
    else if (escapeUnit byte).isNone then fail .invalidEscape (index + 1)
    else .ok (index + 2)

/-- The loop of `scan_string`: whether there are escapes, and the offset of the closing quote. -/
def scanFrom (text : List Nat) : Nat → Bool → Nat → Parse (Bool × Nat)
  | 0, _, _ => .error (.trap .diverged)
  | fuel + 1, escaped, index =>
    match text[index]? with
    | none => fail .unexpectedEnd text.length
    | some byte =>
      if byte = 34 then .ok (escaped, index)
      else if byte = 92 then do
        let next ← escapeEnd text index
        scanFrom text fuel true next
      else if byte < 32 then fail .controlCharacter index
      else scanFrom text fuel escaped (index + 1)

def scanString (text : List Nat) (start : Nat) : Parse (Lexeme × Nat) := do
  let (escaped, index) ← scanFrom text (text.length + 1) false (start + 1)
  .ok ({ start := start + 1, finish := index, escaped }, index + 1)

def keyOf (text : List Nat) (token : Lexeme) : Parse Str :=
  match parseString text (token.start - 1) with
  | .ok (key, _) => .ok key
  | .error (.failure _) => .ok []
  | .error (.trap fault) => .error (.trap fault)

def keysBetween (keys : List Lexeme) (first last : Nat) : Parse (List Lexeme) :=
  if last ≤ keys.length then .ok ((keys.take last).drop first) else .error (.trap .bounds)

def duplicateAmong (tokens : List Lexeme) (names : List Str) : Parse (Option Error) :=
  match firstDuplicate (names.map fun name => (name, .null)) with
  | none => .ok none
  | some duplicate =>
    match tokens[duplicate]?, names[duplicate]? with
    | some token, some key =>
      .ok (some { kind := .duplicateKey key, offset := token.start - 1 })
    | _, _ => .error (.trap .bounds)

/-- The earliest repeated key among the keys from `first` to `last`. -/
def repeatedKey (text : List Nat) (keys : List Lexeme) (first last : Nat) : Parse (Option Error) := do
  let tokens ← keysBetween keys first last
  let names ← tokens.mapM (keyOf text)
  duplicateAmong tokens names

/-- The loop of `reader_failure` over the open objects, the outermost first. -/
def earliest (text : List Nat) (keys : List Lexeme) : List Nat → Error → Parse Error
  | [], best => .ok best
  | first :: marks, best => do
    let last := marks.head?.getD keys.length
    match ← repeatedKey text keys first last with
    | some repeated =>
      if repeated.offset < best.offset then earliest text keys marks repeated
      else earliest text keys marks best
    | none => earliest text keys marks best

def readerFailure {α : Type} (text : List Nat) (r : Reader) (error : Error) : Parse α := do
  let best ← earliest text r.keys r.marks error
  .error (.failure best)

/-! ## Events -/

namespace Reader

def afterValue (r : Reader) (position : Nat) : Reader :=
  { r with position, state := if r.containers.isEmpty then 7 else 1 }

def orFailure {α β : Type} (text : List Nat) (r : Reader) (scan : Parse α) (use : α → Parse β) :
    Parse β :=
  match scan with
  | .ok a => use a
  | .error (.failure error) => readerFailure text r error
  | .error (.trap fault) => .error (.trap fault)

def openContainer (text : List Nat) (r : Reader) (index : Nat) (object : Bool) : Parse (Event × Reader) :=
  if 128 ≤ r.containers.length then readerFailure text r { kind := .tooDeep, offset := index }
  else
    .ok (if object then .objectStart else .arrayStart,
      { position := index + 1
        containers := r.containers ++ [object]
        keys := r.keys
        marks := if object then r.marks ++ [r.keys.length] else r.marks
        state := if object then 4 else 2 })

def lastMark (r : Reader) : Parse Nat :=
  match r.marks.getLast? with
  | some mark => .ok mark
  | none => .error (.trap .bounds)

def closeContainer (text : List Nat) (r : Reader) (index : Nat) (object : Bool) : Parse (Event × Reader) := do
  let first ← if object then r.lastMark else .ok r.keys.length
  let repeated ← if object then repeatedKey text r.keys first r.keys.length else .ok none
  match repeated with
  | some error => readerFailure text r error
  | none =>
    let closed : Reader :=
      { position := index + 1
        containers := r.containers.dropLast
        keys := r.keys.take first
        marks := if object then r.marks.dropLast else r.marks
        state := 1 }
    .ok (if object then .objectEnd else .arrayEnd, closed.afterValue (index + 1))

def readLiteral (text : List Nat) (r : Reader) (index byte : Nat) : Parse (Event × Reader) :=
  if byte = 116 then
    orFailure text r (keyword text index trueWord .null) fun (_, next) =>
      .ok (.boolToken true, r.afterValue next)
  else if byte = 102 then
    orFailure text r (keyword text index falseWord .null) fun (_, next) =>
      .ok (.boolToken false, r.afterValue next)
  else if byte = 110 then
    orFailure text r (keyword text index nullWord .null) fun (_, next) =>
      .ok (.nullToken, r.afterValue next)
  else readerFailure text r { kind := .syntax_, offset := index }

def readValue (text : List Nat) (r : Reader) (index : Nat) : Parse (Event × Reader) :=
  match text[index]? with
  | none => readerFailure text r { kind := .unexpectedEnd, offset := text.length }
  | some byte =>
    if byte = 123 then openContainer text r index true
    else if byte = 91 then openContainer text r index false
    else if byte = 34 then
      orFailure text r (scanString text index) fun (token, next) =>
        .ok (.textToken token, r.afterValue next)
    else if byte = 45 || isDigit byte then
      orFailure text r (scanNumber text index) fun finish =>
        .ok (.numberToken { start := index, finish, escaped := false }, r.afterValue finish)
    else readLiteral text r index byte

def readKey (text : List Nat) (r : Reader) (index : Nat) : Parse (Event × Reader) :=
  match text[index]? with
  | none => readerFailure text r { kind := .unexpectedEnd, offset := text.length }
  | some byte =>
    if byte ≠ 34 then readerFailure text r { kind := .syntax_, offset := index }
    else
      orFailure text r (scanString text index) fun (token, after) =>
        let colon := skipSpace text after
        let keyed := { r with keys := r.keys ++ [token] }
        match text[colon]? with
        | none => readerFailure text keyed { kind := .unexpectedEnd, offset := text.length }
        | some byte =>
          if byte ≠ 58 then readerFailure text keyed { kind := .syntax_, offset := colon }
          else .ok (.keyToken token, { keyed with position := colon + 1, state := 6 })

/-- Behind a value in a container, of which `object` is the kind. -/
def afterItem (text : List Nat) (r : Reader) (index : Nat) (object : Bool) : Parse (Event × Reader) :=
  match text[index]? with
  | none => readerFailure text r { kind := .unexpectedEnd, offset := text.length }
  | some byte =>
    if byte = 44 then
      let after := skipSpace text (index + 1)
      if object then readKey text r after else readValue text r after
    else if byte = 93 ∧ object = false then closeContainer text r index false
    else if byte = 125 ∧ object = true then closeContainer text r index true
    else readerFailure text r { kind := .syntax_, offset := index }

def next (text : List Nat) (r : Reader) : Parse (Event × Reader) :=
  let index := skipSpace text r.position
  if r.state = 7 then
    if index < text.length then fail .syntax_ index else .ok (.endOfInput, r.afterValue index)
  else if r.state = 1 then
    match r.containers.getLast? with
    | some object => afterItem text r index object
    | none => .error (.trap .bounds)
  else if r.state = 4 then
    if text[index]? = some 125 then closeContainer text r index true else readKey text r index
  else if r.state = 2 then
    if text[index]? = some 93 then closeContainer text r index false else readValue text r index
  else readValue text r index

end Reader

/-! ## Tokens -/

def tokenText (text : List Nat) (token : Lexeme) : Parse Str :=
  if token.start < 1 ∨ token.finish < token.start ∨ text.length ≤ token.finish ∨
      text[token.start - 1]? ≠ some 34 then fail .syntax_ token.start
  else do
    let (value, after) ← parseString text (token.start - 1)
    if after = token.finish + 1 then .ok value else fail .syntax_ token.start

def tokenNumeral (text : List Nat) (token : Lexeme) : Parse (List Nat) :=
  if token.finish ≤ token.start ∨ text.length < token.finish then fail .syntax_ token.start
  else
    let candidate := (text.drop token.start).take (token.finish - token.start)
    if isNumeral candidate then .ok candidate else fail .syntax_ token.start

/-- An event with the text of its token. -/
inductive Token where
  | objectStart
  | objectEnd
  | arrayStart
  | arrayEnd
  | key (units : Str)
  | text (units : Str)
  | number (numeral : List Nat)
  | bool (flag : Bool)
  | null
  | endOfInput

def tokenOf (text : List Nat) : Event → Parse Token
  | .objectStart => .ok .objectStart
  | .objectEnd => .ok .objectEnd
  | .arrayStart => .ok .arrayStart
  | .arrayEnd => .ok .arrayEnd
  | .keyToken token => do
    let units ← tokenText text token
    .ok (.key units)
  | .textToken token => do
    let units ← tokenText text token
    .ok (.text units)
  | .numberToken token => do
    let numeral ← tokenNumeral text token
    .ok (.number numeral)
  | .boolToken flag => .ok (.bool flag)
  | .nullToken => .ok .null
  | .endOfInput => .ok .endOfInput

/-- Pulling events up to the end of the input or an error. -/
inductive Pulls (text : List Nat) : Reader → List Event → Parse Unit → Prop
  | done {r r' : Reader} (h : r.next text = .ok (.endOfInput, r')) : Pulls text r [.endOfInput] (.ok ())
  | stop {r : Reader} {stop : Stop} (h : r.next text = .error stop) : Pulls text r [] (.error stop)
  | more {r r' : Reader} {event : Event} {events : List Event} {outcome : Parse Unit}
      (h : r.next text = .ok (event, r')) (hne : event ≠ .endOfInput)
      (hrest : Pulls text r' events outcome) : Pulls text r (event :: events) outcome

mutual
def tokens : Value → List Token
  | .null => [.null]
  | .bool flag => [.bool flag]
  | .number numeral => [.number numeral]
  | .text units => [.text units]
  | .items values => .arrayStart :: (itemTokens values ++ [.arrayEnd])
  | .object members => .objectStart :: (memberTokens members ++ [.objectEnd])
termination_by structural v => v

def itemTokens : List Value → List Token
  | [] => []
  | v :: vs => tokens v ++ itemTokens vs
termination_by structural vs => vs

def memberTokens : List (Str × Value) → List Token
  | [] => []
  | m :: ms => keyTokens m ++ memberTokens ms
termination_by structural ms => ms

def keyTokens : Str × Value → List Token
  | (key, v) => .key key :: tokens v
termination_by structural m => m
end

end Tsuzuri.Json
