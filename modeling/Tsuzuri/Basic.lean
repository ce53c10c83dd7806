import Mathlib.Data.List.Basic

/-!
# Shared vocabulary of the front end

Source positions, operators and string literals, and the nesting limit of the parser.
-/

namespace Tsuzuri

/-- The nesting that the parser accepts (`syntax::MAX_NESTING`). -/
def maxNesting : Nat := 128

/-- A byte range of a source file. -/
structure Span where
  start : Nat
  «end» : Nat
  source : Option Nat
deriving Inhabited

inductive Provenance where
  | user | generated
deriving DecidableEq

inductive UnaryOp where
  | negate | not | bitNot | plus
deriving DecidableEq

inductive BinaryOp where
  | add | subtract | multiply | divide | remainder
  | equal | notEqual | less | lessEqual | greater | greaterEqual
  | and | or
  | bitAnd | bitOr | bitXor
  | shiftLeft | shiftRight | shiftRightUnsigned
  | power | pipe
deriving DecidableEq

/-- A string literal as its code units: UTF-16 units, or UTF-8 text. -/
inductive StringLiteral where
  | utf16 (units : List Nat)
  | utf8 (text : String)
deriving DecidableEq

end Tsuzuri
