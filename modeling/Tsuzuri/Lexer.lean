import Tsuzuri.TextBytes

/-!
# The lexer

The lexer reads a UTF-8 text at byte positions: it tests single bytes where it looks for ASCII, and takes the text
from a position on where it looks for characters.
-/

namespace Tsuzuri.Lexing

structure Span where
  start : Nat
  finish : Nat

inductive DiagnosticKind
  | sourceTooLarge | unterminatedInterpolationHole | interpolationHoleSpansLines | commentInInterpolationHole
  | byteLiteralNotAscii | byteSuffixOnUnsupportedLiteral | byteSuffixOnInterpolatedString
  | invalidTypeVariableStart | charLiteralNotOneUnit | utf8charNotOneScalar | unterminatedBlockComment
  | numericSeparatorMisplaced | expectedDigit | bigintSuffixWithFraction | invalidNumericLiteral
  | floatSuffixOnHexOrBinaryLiteral | unterminatedStringLiteral | invalidStringEscape | rawNewlineInString
  | singleClosingBraceInInterpolation | invalidUnicodeScalarEscape | unexpectedCharacter | invalidFormatSpec
  | formatFieldOutOfRange | formatPrecisionOnInteger | formatTypeNeedsPrecision

structure Diagnostic where
  kind : DiagnosticKind
  message : String
  span : Span

inductive StringLiteral
  | utf16 (units : List Nat)
  | utf8 (text : Text)

inductive FormatAlign
  | left | right | center

inductive FormatKind
  | lowerHex | upperHex | octal | binary | exponent | fixed

structure FormatSpec where
  fill : Char
  align : Option FormatAlign
  plus : Bool
  width : Nat
  precision : Option Nat
  kind : Option FormatKind
  span : Span

structure InterpolationPiece where
  text : StringLiteral
  spec : Option FormatSpec

/-- `keyword` stands for the constructors of the reserved words, one for each in the source. -/
inductive TokenKind
  | ident (name : String) | docComment (text : Text) | typeVariable (name : String) | integer (text : String)
  | bigInteger (text : String) | float (text : String) | string (text : StringLiteral)
  | byteString (bytes : List Nat) | scalarString (scalars : List Nat)
  | interpolationStart (piece : InterpolationPiece) | interpolationMiddle (piece : InterpolationPiece)
  | interpolationEnd (piece : InterpolationPiece) | char (unit : Nat) | utf8Char (scalar : Nat)
  | keyword (word : String)
  | leftParen | rightParen | leftBrace | rightBrace | leftBracket | rightBracket | leftList | rightList
  | colon | doubleColon | pathSep | semicolon | comma | dot | dotDot | dotDotEqual | dotDotLess | atSign | hash
  | question
  | arrow | fatArrow | equal | plus | minus | star | slash | backslash | percent | bang | tilde | equalEqual | bangEqual
  | less | lessEqual | greater | greaterEqual | andAnd | orOr | ampersand | pipe | caret | doubleLess | doubleGreater
  | tripleLess | tripleGreater | doubleStar | tripleAmpersand | triplePipe | tripleCaret | tripleTilde | pipeForward
  | finish

structure Token where
  kind : TokenKind
  span : Span

/-! ## Running -/

/-- An open brace of an interpolated string whose closing brace has not been read. -/
structure OpenHole where
  utf8 : Bool
  depth : Nat
  start : Nat

/-- The part of the lexer that changes. -/
structure Lexer where
  position : Nat
  holes : List OpenHole

/-- The part that stays. `debugChar` is how the standard library prints a character for debugging. -/
structure Input where
  source : Text
  edition : Nat
  gated : List (String × Nat)
  debugChar : Char → String

/-- `panic` also stands for a loop of the model that runs out of fuel. -/
inductive Outcome (α : Type)
  | ok (value : α) (lexer : Lexer)
  | error (error : Diagnostic) (lexer : Lexer)
  | panic

def Scan (α : Type) := Input → Lexer → Outcome α

instance : Monad Scan where
  pure a := fun _ lexer => .ok a lexer
  bind m f := fun input lexer =>
    match m input lexer with
    | .ok a lexer => f a input lexer
    | .error error lexer => .error error lexer
    | .panic => .panic

def panic {α : Type} : Scan α := fun _ _ => .panic

def fail {α : Type} (kind : DiagnosticKind) (message : String) (start finish : Nat) : Scan α := fun _ lexer =>
  .error ⟨kind, message, ⟨start, finish⟩⟩ lexer

def position : Scan Nat := fun _ lexer => .ok lexer.position lexer

def setPosition (i : Nat) : Scan Unit := fun _ lexer => .ok () { lexer with position := i }

def advance (n : Nat) : Scan Unit := fun _ lexer => .ok () { lexer with position := lexer.position + n }

def holes : Scan (List OpenHole) := fun _ lexer => .ok lexer.holes lexer

def setHoles (holes : List OpenHole) : Scan Unit := fun _ lexer => .ok () { lexer with holes := holes }

def input : Scan Input := fun input lexer => .ok input lexer

/-- `self.source.as_bytes().get(i)` -/
def byteAt (i : Nat) : Scan (Option UInt8) := fun input lexer => .ok input.source.bytes[i]? lexer

/-- `self.source[i..]` -/
def restAt (i : Nat) : Scan Text := fun input lexer =>
  match input.source.suffix? i with
  | some rest => .ok rest lexer
  | none => .panic

def rest : Scan Text := do restAt (← position)

/-- `self.source[i..j]` -/
def slice (i j : Nat) : Scan Text := fun input lexer =>
  match input.source.slice? i j with
  | some text => .ok text lexer
  | none => .panic

/-- `while self.source.as_bytes().get(self.position).is_some_and(test)` moves to the next byte. -/
def skip (test : UInt8 → Bool) : Scan Unit := fun input lexer =>
  .ok () { lexer with position := input.source.skip test lexer.position }

/-- The result of `m`, its error included. -/
def attempt {α : Type} (m : Scan α) : Scan (Except Diagnostic α) := fun input lexer =>
  match m input lexer with
  | .ok a lexer => .ok (.ok a) lexer
  | .error error lexer => .ok (.error error) lexer
  | .panic => .panic

def iterate {σ β : Type} (body : σ → Scan (σ ⊕ β)) : Nat → σ → Scan β
  | 0, _ => panic
  | fuel + 1, s => do
    match ← body s with
    | .inl s => iterate body fuel s
    | .inr b => pure b

def loop {σ β : Type} (body : σ → Scan (σ ⊕ β)) (s : σ) : Scan β := fun input lexer =>
  iterate body (input.source.size + 1 - lexer.position) s input lexer

def ascii (c : Char) : UInt8 := UInt8.ofNat c.toNat

def isAsciiWhitespace (byte : UInt8) : Bool := byte = 9 ∨ byte = 10 ∨ byte = 12 ∨ byte = 13 ∨ byte = 32

def isNewline (byte : UInt8) : Bool := byte = 10 ∨ byte = 13

def isAsciiDigit (byte : UInt8) : Bool := 48 ≤ byte ∧ byte ≤ 57

def isAsciiAlphabetic (byte : UInt8) : Bool := 65 ≤ byte ∧ byte ≤ 90 ∨ 97 ≤ byte ∧ byte ≤ 122

def isAsciiHexdigit (byte : UInt8) : Bool := isAsciiDigit byte ∨ 65 ≤ byte ∧ byte ≤ 70 ∨ 97 ≤ byte ∧ byte ≤ 102

def isWord (byte : UInt8) : Bool := isAsciiAlphabetic byte || isAsciiDigit byte || byte = ascii '_'

/-- `(byte as char).is_digit(radix)` for the radixes of numbers. -/
def isDigit (radix : Nat) (byte : UInt8) : Bool :=
  if radix = 16 then isAsciiHexdigit byte else if radix = 2 then byte = 48 ∨ byte = 49 else isAsciiDigit byte

def hexValue (c : Char) : Nat :=
  if c.toNat ≤ 57 then c.toNat - 48 else if c.toNat ≤ 70 then c.toNat - 55 else c.toNat - 87

def emptyLiteral (utf8 : Bool) : StringLiteral := if utf8 then .utf8 [] else .utf16 []

def pushCodepoint (text : StringLiteral) (codepoint : Nat) : Scan StringLiteral :=
  match text with
  | .utf16 units =>
    if codepoint ≤ 0xffff then pure (.utf16 (units ++ [codepoint]))
    else
      let value := codepoint - 0x10000
      pure (.utf16 (units ++ [0xd800 ||| (value >>> 10) % 0x10000, 0xdc00 ||| (value &&& 0x3ff)]))
  | .utf8 text => if codepoint.isValidChar then pure (.utf8 (text ++ [Char.ofNat codepoint])) else panic

/-- Whether a `B` suffix directly follows the literal that ends at the position. -/
def atByteSuffix : Scan Bool := do
  let p ← position
  if (← byteAt p) = some (ascii 'B') then return !(← byteAt (p + 1)).any isWord else return false

/-- Reads the `B` of a byte, of bytes and of scalars. -/
def byteSuffix (kind : TokenKind) (start : Nat) : Scan TokenKind := do
  if ← atByteSuffix then
    advance 1
    let p ← position
    match kind with
    | .char unit =>
      if unit < 0x80 then return .integer s!"{unit}i8u"
      else fail .byteLiteralNotAscii "a 'B' literal holds only ASCII characters (U+0000 to U+007F)" start p
    | .string (.utf16 units) =>
      if units.all (· < 0x80) then return .byteString units
      else fail .byteLiteralNotAscii "a 'B' literal holds only ASCII characters (U+0000 to U+007F)" start p
    | .string (.utf8 text) => return .scalarString (text.map Char.toNat)
    | _ =>
      fail .byteSuffixOnUnsupportedLiteral "only 'c'B, \"text\"B, and u8\"text\"B take the 'B' suffix" start p
  else return kind

def noByteSuffix (kind : TokenKind) (start : Nat) : Scan TokenKind := do
  if ← atByteSuffix then
    advance 1
    fail .byteSuffixOnInterpolatedString "an interpolated string does not take the 'B' suffix" start (← position)
  else return kind

def escapeCode (digits : Text) : Nat := digits.foldl (fun value c => 16 * value + hexValue c) 0

def validEscape (utf8 braced : Bool) (digits after : Text) : Bool :=
  (if braced then digits ≠ [] ∧ (utf8 → digits.length ≤ 6) else digits.length = 4) ∧ (braced → after.head? = some '}') ∧
    digits ≠ [] ∧ escapeCode digits ≤ 0x10ffff ∧ (utf8 → (escapeCode digits).isValidChar)

def escapeValue (utf8 braced : Bool) : Scan Nat := do
  let start ← position
  let bytes := (← input).source.bytes
  let limit := if braced then bytes.length else 4
  let finish := start + (((bytes.drop start).take limit).takeWhile isAsciiHexdigit).length
  setPosition finish
  let digits ← slice start finish
  if validEscape utf8 braced digits (← rest) then
    if braced then advance 1 else pure ()
    return escapeCode digits
  else
    fail .invalidUnicodeScalarEscape
      (if utf8 then "invalid Unicode scalar escape" else "invalid Unicode escape") start finish

def unicodeEscape (utf8 : Bool) : Scan Nat := do
  if (← rest).head? = some '{' then
    advance 1
    escapeValue utf8 true
  else escapeValue utf8 false

def characterMessage (utf8 : Bool) : String :=
  if utf8 then "a utf8char literal contains exactly one Unicode scalar"
  else "a char literal contains exactly one UTF-16 code unit"

/-- `error(self.position)` of `character`. -/
def characterError {α : Type} (utf8 : Bool) (start : Nat) : Scan α := do
  fail .utf8charNotOneScalar (characterMessage utf8) start (← position)

def escapedCharacter (utf8 : Bool) (start : Nat) : Scan Nat := do
  match ← rest with
  | [] => characterError utf8 start
  | escape :: _ =>
    advance escape.utf8Size
    if escape = '\'' then return 39
    else if escape = '\\' then return 92
    else if escape = 'n' then return 10
    else if escape = 'r' then return 13
    else if escape = 't' then return 9
    else if escape = '0' then return 0
    else if escape = 'u' ∧ (¬utf8 ∨ (← rest).head? = some '{') then
      let before ← position
      let value ← unicodeEscape utf8
      if 8 < (← position) - before then characterError utf8 start else return value
    else characterError utf8 start

def closeCharacter (utf8 : Bool) (start value : Nat) : Scan TokenKind := do
  if (← rest).head? ≠ some '\'' ∨ (¬utf8 ∧ 0xffff < value) ∨ (utf8 ∧ ¬value.isValidChar) then
    characterError utf8 start
  else
    advance 1
    return if utf8 then .utf8Char value else .char (value % 0x10000)

def character (utf8 : Bool) : Scan TokenKind := do
  let start ← position
  advance 1
  match ← rest with
  | [] => characterError utf8 start
  | c :: _ =>
    advance c.utf8Size
    if c = '\'' ∨ c = '\n' ∨ c = '\r' then characterError utf8 start
    else if c = '\\' then closeCharacter utf8 start (← escapedCharacter utf8 start)
    else closeCharacter utf8 start c.toNat

/-! ## Words and numbers -/

def keywords : List String :=
  ["fn", "def", "rec", "and", "export", "extern", "private", "record", "union", "type", "const", "test", "bench",
    "class", "instance", "deriving", "dyn", "let", "do", "return", "yield", "for", "in", "to", "downto", "while",
    "break", "continue", "mut", "ref", "deref", "new", "as", "if", "then", "elif", "else", "match", "with", "when",
    "true", "false"]

/-- A word is reserved unless `gated` lists it with a later edition. -/
def reservedIn (word : String) (edition : Nat) (gated : List (String × Nat)) : Bool :=
  !gated.any fun (name, since) => name = word && edition < since

def identifier : Scan TokenKind := do
  let start ← position
  skip isWord
  let word := String.ofList (← slice start (← position))
  let input ← input
  if reservedIn word input.edition input.gated && keywords.contains word then return .keyword word
  else return .ident word

def charOrTypeVariable : Scan TokenKind := do
  let start ← position
  if (← byteAt (start + 1)) = some (ascii '_') ∧ (← byteAt (start + 2)) ≠ some 39 then
    advance 1
    fail .invalidTypeVariableStart "a type variable starts with an apostrophe and an ASCII letter" start (← position)
  else if (← byteAt (start + 1)).any isAsciiAlphabetic then
    advance 1
    let _ ← identifier
    let finish ← position
    if (← rest).head? ≠ some '\'' then return .typeVariable (String.ofList (← slice (start + 1) finish))
    else if finish - start ≠ 2 then
      advance 1
      fail .charLiteralNotOneUnit "a char literal contains exactly one UTF-16 code unit" start (← position)
    else
      setPosition start
      character false
  else character false

def digitsRound (radix : Nat) (previousDigit : Bool) : Scan (Bool ⊕ Unit) := do
  let p ← position
  match ← byteAt p with
  | none => return .inr ()
  | some byte =>
    if isDigit radix byte then
      advance 1
      return .inl true
    else if byte = ascii '_' then
      if ¬previousDigit ∨ ¬(← byteAt (p + 1)).any (isDigit radix) then
        fail .numericSeparatorMisplaced "numeric separators must occur between digits" p (p + 1)
      else
        advance 1
        return .inl false
    else return .inr ()

def digits (radix : Nat) : Scan Unit := do
  let start ← position
  loop (digitsRound radix) false
  if (← position) = start then fail .expectedDigit "expected a digit" start start else pure ()

def numericNames : List String :=
  ["i8", "i16", "i32", "i64", "i128", "i8u", "i16u", "i32u", "i64u", "i128u", "f16", "f32", "f64", "f128", "d32",
    "d64", "d128", "ubyte", "sbyte", "byte"]

def shortSuffixes : List (String × String) :=
  [("y", "i8"), ("uy", "i8u"), ("s", "i16"), ("us", "i16u"), ("u", "i32u"), ("l", "i64"), ("ul", "i64u"),
    ("L", "i128"), ("UL", "i128u"), ("hf", "f16"), ("f", "f32"), ("F", "f128"), ("hm", "d32"), ("m", "d64"),
    ("M", "d128")]

def suffixType (suffix : String) : Option String :=
  (numericNames.find? (· = suffix)).or (shortSuffixes.lookup suffix)

def exponent (dotted : Bool) : Scan Bool := do
  let byte ← byteAt (← position)
  if byte = some (ascii 'e') ∨ byte = some (ascii 'E') then
    advance 1
    let sign ← byteAt (← position)
    if sign = some (ascii '+') ∨ sign = some (ascii '-') then
      advance 1
      digits 10
    else digits 10
    return true
  else return dotted

def fraction : Scan Bool := do
  let p ← position
  if (← byteAt p) = some (ascii '.') ∧ (← byteAt (p + 1)).any isAsciiDigit then
    advance 1
    digits 10
    exponent true
  else exponent false

def numberToken (start : Nat) (radix : Nat) (float : Bool) (digits suffix : Text) : Scan TokenKind := do
  let digits := String.ofList (digits.filter (· ≠ '_'))
  let suffix := String.ofList suffix
  let p ← position
  if suffix = "I" then
    if float then
      fail .bigintSuffixWithFraction "the 'I' suffix makes a bigint, which has no fraction or exponent" start p
    else return .bigInteger digits
  else
    match if suffix = "" then some "" else suffixType suffix with
    | none => fail .invalidNumericLiteral "invalid numeric literal or type suffix" start p
    | some name =>
      let floatSuffix := name.toList.head? = some 'f' ∨ name.toList.head? = some 'd'
      if radix ≠ 10 ∧ floatSuffix then
        fail .floatSuffixOnHexOrBinaryLiteral
          "a hexadecimal or binary literal takes an integer suffix, not a floating-point one" start p
      else if float ∨ floatSuffix then return .float (digits ++ name)
      else return .integer (digits ++ name)

def numberDigits (radix : Nat) : Scan Bool := do
  if radix ≠ 10 then
    advance 2
    digits radix
    return false
  else
    digits 10
    fraction

def radixOf (text : Text) : Nat :=
  if ['0', 'x'].isPrefixOf text then 16 else if ['0', 'b'].isPrefixOf text then 2 else 10

def number : Scan TokenKind := do
  let start ← position
  let radix := radixOf (← rest)
  let float ← numberDigits radix
  let suffixStart ← position
  skip isWord
  numberToken start radix float (← slice start suffixStart) (← slice suffixStart (← position))

/-- The character `ch`, already consumed, or the escape that starts with it. -/
def stringChar (ch : Char) (utf8 : Bool) (start : Nat) : Scan (Option Nat) := do
  if ch = '\\' then
    match ← rest with
    | [] => return none
    | escape :: _ =>
      advance escape.utf8Size
      if escape = '"' then return some 34
      else if escape = '\\' then return some 92
      else if escape = 'n' then return some 10
      else if escape = 'r' then return some 13
      else if escape = 't' then return some 9
      else if escape = '0' then return some 0
      else if escape = 'u' ∧ (¬utf8 ∨ (← rest).head? = some '{') then return some (← unicodeEscape utf8)
      else
        let p ← position
        fail .invalidStringEscape "invalid string escape" (p - escape.utf8Size - 1) p
  else if ch = '\n' ∨ ch = '\r' then
    fail .rawNewlineInString "use '\\n' for a newline inside a string" start (← position)
  else return some ch.toNat

def pushNext {σ : Type} (utf8 : Bool) (start : Nat) (text : StringLiteral) (ch : Char) :
    Scan (StringLiteral ⊕ Option σ) := do
  match ← stringChar ch utf8 start with
  | none => return .inr none
  | some codepoint => return .inl (← pushCodepoint text codepoint)

def stringRound (utf8 : Bool) (start : Nat) (text : StringLiteral) : Scan (StringLiteral ⊕ Option StringLiteral) := do
  match ← rest with
  | [] => return .inr none
  | ch :: _ =>
    advance ch.utf8Size
    if ch = '"' then return .inr (some text) else pushNext utf8 start text ch

def string (utf8 : Bool) : Scan TokenKind := do
  let start ← position
  advance 1
  match ← loop (stringRound utf8 start) (emptyLiteral utf8) with
  | some text => return .string text
  | none => fail .unterminatedStringLiteral "unterminated string literal" start (← position)

/-- What ended a text segment of an interpolated string. -/
inductive TextEnd
  | quote | hole

def interpolatedRound (utf8 : Bool) (start : Nat) (text : StringLiteral) :
    Scan (StringLiteral ⊕ Option (StringLiteral × TextEnd)) := do
  match ← rest with
  | [] => return .inr none
  | ch :: after =>
    advance ch.utf8Size
    if ch = '"' then return .inr (some (text, .quote))
    else if ch = '{' then
      if after.head? = some '{' then
        advance 1
        return .inl (← pushCodepoint text 123)
      else return .inr (some (text, .hole))
    else if ch = '}' then
      if after.head? = some '}' then
        advance 1
        return .inl (← pushCodepoint text 125)
      else
        let p ← position
        fail .singleClosingBraceInInterpolation
          "a single '\x7d' in an interpolated string must be written '\x7d\x7d'" (p - 1) p
    else pushNext utf8 start text ch

def interpolatedText (utf8 : Bool) (start : Nat) : Scan (StringLiteral × TextEnd) := do
  match ← loop (interpolatedRound utf8 start) (emptyLiteral utf8) with
  | some result => return result
  | none => fail .unterminatedStringLiteral "unterminated string literal" start (← position)

def interpolated (utf8 : Bool) (start : Nat) : Scan TokenKind := do
  advance 1
  match ← interpolatedText utf8 start with
  | (text, .quote) => return .string text
  | (text, .hole) =>
    setHoles ((← holes) ++ [⟨utf8, 0, (← position) - 1⟩])
    return .interpolationStart ⟨text, none⟩

def maxFormatField : Nat := 4096

def alignOf (c : Char) : Option FormatAlign :=
  if c = '<' then some .left else if c = '>' then some .right else if c = '^' then some .center else none

/-- The number at `index`, if there is one, and the index after it. -/
def formatNumber (span : Span) (chars : Text) (index : Nat) (zeroAllowed : Bool) :
    Except Diagnostic (Option Nat × Nat) :=
  let digits := (chars.drop index).takeWhile fun c => 48 ≤ c.toNat ∧ c.toNat ≤ 57
  let value := digits.foldl (fun value c => 10 * value + (c.toNat - 48)) 0
  if digits = [] then .ok (none, index)
  else if (digits.head? = some '0' ∧ (¬zeroAllowed ∨ 1 < digits.length)) ∨ 4 < digits.length ∨
      maxFormatField < value then
    .error ⟨.formatFieldOutOfRange,
      s!"format width and precision are at most {maxFormatField} and have no leading zeros; " ++
        "write '0>' to pad with zeros", span⟩
  else .ok (some value, index + digits.length)

def formatKindOf (c : Char) : Option FormatKind :=
  if c = 'x' then some .lowerHex else if c = 'X' then some .upperHex else if c = 'o' then some .octal
  else if c = 'b' then some .binary else if c = 'e' then some .exponent else if c = 'f' then some .fixed else none

def checkPrecision (span : Span) (typeChar : Char) (kind : Option FormatKind) (precision : Option Nat) :
    Except Diagnostic Unit :=
  match kind, precision with
  | some .lowerHex, some precision | some .upperHex, some precision | some .octal, some precision
  | some .binary, some precision =>
    .error ⟨.formatPrecisionOnInteger,
      s!"precision does not apply to integer format '{typeChar}'; remove '.{precision}'", span⟩
  | some .exponent, none | some .fixed, none =>
    .error ⟨.formatTypeNeedsPrecision, s!"format type '{typeChar}' needs a precision such as '.2{typeChar}'", span⟩
  | _, _ => .ok ()

def parseFormatSpec (text : Text) (span : Span) : Except Diagnostic (Option FormatSpec) :=
  match text with
  | [] => .ok none
  | first :: _ => do
    let malformed : Diagnostic := ⟨.invalidFormatSpec, s!"invalid format spec '{String.ofList text}'; " ++
      "expected [[fill]align][+][width][.precision][type]", span⟩
    let (fill, align, index) ← (match text[1]? >>= alignOf with
      | some found =>
        if ['{', '}', '"', '\\', '\r', '\n'].contains first then .error malformed else .ok (first, some found, 2)
      | none => match alignOf first with
        | some found => .ok (' ', some found, 1)
        | none => .ok (' ', none, 0) : Except Diagnostic (Char × Option FormatAlign × Nat))
    let plus : Bool := text[index]? = some '+'
    let (width, index) ← formatNumber span text (if plus then index + 1 else index) false
    let (precision, index) ← if text[index]? = some '.' then
        match formatNumber span text (index + 1) true with
        | .error error => .error error
        | .ok (none, _) => .error malformed
        | .ok (some precision, index) => .ok (some precision, index)
      else .ok (none, index)
    let (kind, typeChar, index) ← (match text[index]? with
      | none => .ok (none, ' ', index)
      | some c => match formatKindOf c with
        | none => .error malformed
        | some kind => .ok (some kind, c, index + 1) : Except Diagnostic (Option FormatKind × Char × Nat))
    if index ≠ text.length then .error malformed
    else
      checkPrecision span typeChar kind precision
      .ok (some ⟨fill, align, plus, width.getD 0, precision, kind, span⟩)

def ofExcept {α : Type} (result : Except Diagnostic α) : Scan α := fun _ lexer =>
  match result with
  | .ok a => .ok a lexer
  | .error error => .error error lexer

def formatSpec (opened : Nat) : Scan (Option FormatSpec) := do
  let p ← position
  let tail ← restAt (p + 1)
  let text := tail.takeWhile fun c => !(['}', '\n', '\r', '"'].contains c)
  if tail[text.length]? = some '}' then
    let spec ← ofExcept (parseFormatSpec text ⟨p + 1, p + 1 + Text.size text⟩)
    setPosition (p + 1 + Text.size text + 1)
    return spec
  else
    fail .unterminatedInterpolationHole "unterminated interpolation hole; close it with '\x7d'" opened (p + 1)

def holeEnd (start : Nat) : Scan TokenKind := do
  match (← holes).getLast? with
  | none => panic
  | some hole =>
    let spec ← if (← rest).head? = some ':' then formatSpec hole.start else do
      advance 1
      pure none
    match ← interpolatedText hole.utf8 start with
    | (text, .quote) =>
      setHoles (← holes).dropLast
      return .interpolationEnd ⟨text, spec⟩
    | (text, .hole) =>
      setHoles ((← holes).dropLast ++ [⟨hole.utf8, 0, (← position) - 1⟩])
      return .interpolationMiddle ⟨text, spec⟩

/-! ## Tokens -/

def symbols : List (Text × TokenKind) :=
  [(['[', '|'], .leftList), (['<', '<', '<'], .tripleLess), (['>', '>', '>'], .tripleGreater),
    (['&', '&', '&'], .tripleAmpersand), (['|', '|', '|'], .triplePipe), (['^', '^', '^'], .tripleCaret),
    (['~', '~', '~'], .tripleTilde), (['|', ']'], .rightList), (['-', '>'], .arrow), (['=', '>'], .fatArrow),
    ([':', ':'], .doubleColon), (['.', '.', '='], .dotDotEqual), (['.', '.', '<'], .dotDotLess),
    (['.', '.'], .dotDot), (['*', '*'], .doubleStar), (['=', '='], .equalEqual), (['!', '='], .bangEqual),
    (['<', '='], .lessEqual), (['>', '='], .greaterEqual), (['&', '&'], .andAnd), (['|', '|'], .orOr),
    (['<', '<'], .doubleLess), (['>', '>'], .doubleGreater), (['|', '>'], .pipeForward)]

def characters : List (Char × TokenKind) :=
  [('(', .leftParen), (')', .rightParen), ('{', .leftBrace), ('}', .rightBrace), ('[', .leftBracket),
    (']', .rightBracket), (':', .colon), (';', .semicolon), (',', .comma), ('.', .dot), ('@', .atSign), ('#', .hash),
    ('?', .question), ('=', .equal), ('+', .plus), ('-', .minus), ('*', .star), ('/', .slash), ('\\', .backslash),
    ('%', .percent), ('!', .bang), ('~', .tilde), ('<', .less), ('>', .greater), ('&', .ampersand), ('|', .pipe),
    ('^', .caret)]

def symbol : Scan TokenKind := do
  let text ← rest
  -- a generic close followed by a constraint arrow stays separate from `>=`
  if ['>', '=', '>'].isPrefixOf text then
    advance 1
    return .greater
  else
    match symbols.find? fun (symbol, _) => symbol.isPrefixOf text with
    | some (symbol, kind) =>
      advance symbol.length
      return kind
    | none =>
      match text with
      | [] => panic
      | c :: _ =>
        match characters.lookup c with
        | some kind =>
          advance c.utf8Size
          return kind
        | none =>
          let p ← position
          fail .unexpectedCharacter
            (s!"unexpected character {(← input).debugChar c}; identifiers use ASCII") p (p + c.utf8Size)

def commentRound (depth : Nat) : Scan (Nat ⊕ Bool) := do
  match ← rest with
  | [] => return .inr false
  | c :: after =>
    if c = '/' ∧ after.head? = some '*' then
      advance 2
      return .inl (depth + 1)
    else if c = '*' ∧ after.head? = some '/' then
      advance 2
      return if depth = 1 then .inr true else .inl (depth - 1)
    else
      advance c.utf8Size
      return .inl depth

def comment : Scan Unit := do
  let start ← position
  advance 2
  if ← loop commentRound 1 then pure ()
  else fail .unterminatedBlockComment "unterminated block comment" start (← position)

def trackHole (kind : TokenKind) : Scan Unit := do
  match (← holes).getLast? with
  | none => pure ()
  | some hole =>
    match kind with
    | .leftParen | .leftBracket | .leftBrace | .leftList =>
      setHoles ((← holes).dropLast ++ [{ hole with depth := hole.depth + 1 }])
    | .rightParen | .rightBracket | .rightBrace | .rightList =>
      setHoles ((← holes).dropLast ++ [{ hole with depth := hole.depth - 1 }])
    | _ => pure ()

/-- The kind of the token that starts at `start`, where `byte` is and `text` follows. -/
def tokenKind (start : Nat) (byte : UInt8) (text : Text) : Scan TokenKind := do
  if byte = 39 then byteSuffix (← charOrTypeVariable) start
  else if ['u', '8', '\''].isPrefixOf text then
    advance 2
    byteSuffix (← character true) start
  else if ['u', '8', '"'].isPrefixOf text then
    advance 2
    byteSuffix (← string true) start
  else if ['u', '8', '$', '"'].isPrefixOf text then
    advance 3
    noByteSuffix (← interpolated true start) start
  else if ['$', '"'].isPrefixOf text then
    advance 1
    noByteSuffix (← interpolated false start) start
  else if isAsciiAlphabetic byte ∨ byte = ascii '_' then identifier
  else if isAsciiDigit byte then number
  else if byte = ascii '"' then byteSuffix (← string false) start
  else symbol

def isInterpolationEnd : TokenKind → Bool
  | .interpolationEnd _ => true
  | _ => false

/-- The text of a documentation comment that starts at `start`. -/
def docText (start : Nat) : Scan Token := do
  let textStart ← position
  skip fun byte => !isNewline byte
  let finish ← position
  return ⟨.docComment (← slice textStart finish), ⟨start, finish⟩⟩

def docComment (start : Nat) : Scan Token := do
  advance 3
  if (← rest).head? = some ' ' then
    advance 1
    docText start
  else docText start

def token : Scan (Option Token) := do
  let start ← position
  let open' := (← holes).getLast?
  match ← byteAt start with
  | none => panic
  | some byte =>
    let text ← rest
    if isAsciiWhitespace byte then
      match if isNewline byte then open' else none with
      | some hole =>
        fail .interpolationHoleSpansLines
          "an interpolation hole must stay on one line; bind the value with 'let' first" hole.start (start + 1)
      | none =>
        advance 1
        return none
    else if open'.isSome ∧ (['/', '/'].isPrefixOf text ∨ ['/', '*'].isPrefixOf text) then
      fail .commentInInterpolationHole "comments are not allowed inside an interpolation hole" start (start + 2)
    else if ['/', '/', '/'].isPrefixOf text then
      return some (← docComment start)
    else if ['/', '/'].isPrefixOf text then
      skip fun byte => byte ≠ 10
      return none
    else if ['/', '*'].isPrefixOf text then
      comment
      return none
    else if open'.any (·.depth = 0) ∧
        (byte = ascii '}' ∨ byte = ascii ':' ∧ (← byteAt (start + 1)) ≠ some (ascii ':')) then
      let kind ← holeEnd start
      let kind ← if isInterpolationEnd kind then noByteSuffix kind start else pure kind
      return some ⟨kind, ⟨start, ← position⟩⟩
    else
      let kind ← tokenKind start byte text
      trackHole kind
      return some ⟨kind, ⟨start, ← position⟩⟩

def lineRound (_ : Unit) : Scan (Unit ⊕ Unit) := do
  match ← rest with
  | [] => return .inr ()
  | c :: _ =>
    if c = '\n' ∨ c = '\r' then return .inr ()
    else
      advance c.utf8Size
      return .inl ()

/-- Moves past what an error at `start` makes unreadable. -/
def recover (start : Nat) (inHole : Bool) : Scan Unit := do
  let text ← restAt start
  match text with
  | [] => panic
  | first :: _ =>
    setPosition (max (← position) (start + first.utf8Size))
    let p ← position
    if first = '"' ∨ inHole ∨ ['u', '8', '"'].isPrefixOf text ∨ ['$', '"'].isPrefixOf text ∨
        ['u', '8', '$', '"'].isPrefixOf text then
      if (← byteAt (p - 1)).any isNewline then pure () else loop lineRound ()
    else if 48 ≤ first.toNat ∧ first.toNat ≤ 57 then skip isWord
    else pure ()

def maxUniqueDiagnostics : Nat := 1000

def tokensRound (recovering : Bool) (state : List Token × List Diagnostic) :
    Scan ((List Token × List Diagnostic) ⊕ (List Token × List Diagnostic)) := do
  let start ← position
  let input ← input
  if input.source.size ≤ start then return .inr state
  else
    let inHole := (← holes) ≠ []
    match ← attempt token with
    | .ok (some token) => return .inl (state.1 ++ [token], state.2)
    | .ok none => return .inl state
    | .error error =>
      setHoles []
      let diagnostics := state.2 ++ [error]
      if ¬recovering ∨ diagnostics.length = maxUniqueDiagnostics then
        setPosition input.source.size
        return .inr (state.1, diagnostics)
      else
        recover start inHole
        return .inl (state.1, diagnostics)

def isSegment (token : Token) : Bool :=
  match token.kind with
  | .ident name => name ≠ "_"
  | _ => false

def tokenAt (tokens : List Token) (i : Nat) : Token := tokens.getD i ⟨.finish, ⟨0, 0⟩⟩

def isKeyword (token : Token) (words : List String) : Bool :=
  match token.kind with
  | .keyword word => words.contains word
  | _ => false

def isIdent (token : Token) (words : List String) : Bool :=
  match token.kind with
  | .ident word => words.contains word
  | _ => false

def isDoubleColon (token : Token) : Bool :=
  match token.kind with
  | .doubleColon => true
  | _ => false

def joins (tokens : List Token) (i : Nat) : Bool :=
  isDoubleColon (tokenAt tokens i) && isSegment (tokenAt tokens (i - 1)) && (tokens[i + 1]?).any isSegment &&
    (tokenAt tokens (i - 1)).span.finish = (tokenAt tokens i).span.start &&
    (tokenAt tokens i).span.finish = (tokenAt tokens (i + 1)).span.start

/-- The last separator of the chain that `i` starts. -/
def lastJoin (tokens : List Token) : Nat → Nat → Nat
  | 0, last => last
  | fuel + 1, last =>
    if last + 2 < tokens.length ∧ joins tokens (last + 2) then lastJoin tokens fuel (last + 2) else last

def startsUpper (token : Token) : Bool :=
  match token.kind with
  | .ident name => name.toList.head?.any fun c => 65 ≤ c.toNat ∧ c.toNat ≤ 90
  | _ => false

/-- Every other token from `i` to `last` becomes a separator of a path. -/
def setPaths (tokens : List Token) (i last : Nat) : List Token :=
  tokens.mapIdx fun j token =>
    if i ≤ j ∧ j ≤ last ∧ (j - i) % 2 = 0 then { token with kind := .pathSep } else token

def markPathsFrom (source : Text) : Nat → Nat → List Token → List Token
  | 0, _, tokens => tokens
  | fuel + 1, i, tokens =>
    if tokens.length ≤ i + 1 then tokens
    else
      let declared := 2 ≤ i && isKeyword (tokenAt tokens (i - 2)) ["def", "rec", "and"]
      if declared || !joins tokens i then markPathsFrom source fuel (i + 1) tokens
      else
        let last := lastJoin tokens tokens.length i
        let header := 2 ≤ i && isIdent (tokenAt tokens (i - 2)) ["namespace", "using"] &&
          (i = 2 || (source.slice? (tokenAt tokens (i - 3)).span.finish (tokenAt tokens (i - 2)).span.start).any
            (·.any fun c => c = '\n' ∨ c = '\r'))
        let module := startsUpper (tokenAt tokens (last + 1))
        markPathsFrom source fuel (last + 2) (if header || module then setPaths tokens i last else tokens)

def markPaths (source : Text) (tokens : List Token) : List Token := markPathsFrom source tokens.length 1 tokens

def shebangLength (source : Text) : Nat :=
  if ['#', '!'].isPrefixOf source then
    let line := source.takeWhile (· ≠ '\n')
    if line.getLast? = some '\r' then Text.size line - 1 else Text.size line
  else 0

def contentStart (source : Text) : Nat :=
  if source.head? = some '\ufeff' then 3 else shebangLength source

def maxSourceBytes : Nat := 4 * 1024 * 1024

def tokens (recovering : Bool) : Scan (List Token × List Diagnostic) := do
  let (tokens, diagnostics) ← loop (tokensRound recovering) ([], [])
  let p ← position
  let diagnostics := match (← holes).getLast? with
    | some hole => diagnostics ++ [⟨.unterminatedInterpolationHole,
        "unterminated interpolation hole; close it with '\x7d'", ⟨hole.start, p⟩⟩]
    | none => diagnostics
  return (markPaths (← input).source (tokens ++ [⟨.finish, ⟨p, p⟩⟩]), diagnostics)

def tokenize (recovering : Bool) (input : Input) : Option (List Token × List Diagnostic) :=
  if maxSourceBytes < input.source.size then
    some ([], [⟨.sourceTooLarge, s!"source exceeds the {maxSourceBytes}-byte limit; split the program", ⟨0, 0⟩⟩])
  else
    match tokens recovering input ⟨contentStart input.source, []⟩ with
    | .ok result _ => some result
    | _ => none

def lex (input : Input) : Option (Except Diagnostic (List Token)) :=
  (tokenize false input).map fun (tokens, diagnostics) =>
    match diagnostics.head? with
    | some error => .error error
    | none => .ok tokens

def lexAll (input : Input) : Option (List Token × List Diagnostic) := tokenize true input

inductive TriviaKind
  | whitespace | newline | lineComment | blockComment

structure Trivia where
  kind : TriviaKind
  text : Text
  span : Span

structure TokenWithTrivia where
  token : Token
  leading : List Trivia

/-- Reads a piece of what is before a token that starts at `finish`. -/
def trivium (finish : Nat) : Scan TriviaKind := do
  let start ← position
  let text ← rest
  let source := (← input).source
  if ['/', '*'].isPrefixOf text then
    comment
    return .blockComment
  else if ['/', '/'].isPrefixOf text then
    skip fun byte => byte ≠ 10
    let p ← position
    if p < source.size ∧ (← byteAt (p - 1)) = some 13 then setPosition (p - 1) else pure ()
    return .lineComment
  else if ['\r', '\n'].isPrefixOf text then
    advance 2
    return .newline
  else if text.head? = some '\r' ∨ text.head? = some '\n' then
    advance 1
    return .newline
  else
    let blanks := ((source.bytes.drop start).take (finish - start)).takeWhile fun byte =>
      isAsciiWhitespace byte && !isNewline byte
    advance blanks.length
    return .whitespace

def triviaRound (finish : Nat) (leading : List Trivia) : Scan (List Trivia ⊕ List Trivia) := do
  let start ← position
  if finish ≤ start then return .inr leading
  else
    let kind ← trivium finish
    let p ← position
    return .inl (leading ++ [⟨kind, ← slice start p, ⟨start, p⟩⟩])

def withTrivia : List Token → Scan (List TokenWithTrivia)
  | [] => return []
  | token :: tokens => do
    let leading ← loop (triviaRound token.span.start) []
    setPosition token.span.finish
    return ⟨token, leading⟩ :: (← withTrivia tokens)

def lexWithTrivia (input : Input) : Option (Except Diagnostic (List TokenWithTrivia)) :=
  match lex input with
  | none => none
  | some (.error error) => some (.error error)
  | some (.ok tokens) =>
    match withTrivia tokens input ⟨contentStart input.source, []⟩ with
    | .ok result _ => some (.ok result)
    | .error error _ => some (.error error)
    | .panic => none

end Tsuzuri.Lexing
