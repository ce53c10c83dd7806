import Tsuzuri.Json

/-!
# The JSON grammar (RFC 8259)

What it means that a sequence of bytes is a JSON text and denotes a value.
-/

namespace Tsuzuri.Json

open Unicode

/-! ## Tokens -/

/-- `ws` -/
def Blank (ws : List Nat) : Prop :=
  ∀ b ∈ ws, isSpace b = true

def Digits (ds : List Nat) : Prop :=
  ∀ b ∈ ds, isDigit b = true

/-- `[ minus ] int` -/
def IntegerPart (t : List Nat) : Prop :=
  ∃ sign digits, t = sign ++ digits ∧ (sign = [] ∨ sign = [45]) ∧
    (digits = [48] ∨ ∃ d ds, digits = d :: ds ∧ isDigit d = true ∧ d ≠ 48 ∧ Digits ds)

/-- `[ frac ]` -/
def FractionPart (t : List Nat) : Prop :=
  t = [] ∨ ∃ ds, t = 46 :: ds ∧ ds ≠ [] ∧ Digits ds

/-- `[ exp ]` -/
def ExponentPart (t : List Nat) : Prop :=
  t = [] ∨ ∃ e sign ds, t = e :: (sign ++ ds) ∧ (e = 101 ∨ e = 69) ∧
    (sign = [] ∨ sign = [43] ∨ sign = [45]) ∧ ds ≠ [] ∧ Digits ds

/-- `number` -/
def Numeral (t : List Nat) : Prop :=
  ∃ integer fraction exponent, t = integer ++ (fraction ++ exponent) ∧ IntegerPart integer ∧
    FractionPart fraction ∧ ExponentPart exponent

def escapes : List (Nat × UInt16) :=
  [(34, 34), (92, 92), (47, 47), (98, 8), (102, 12), (110, 10), (114, 13), (116, 9)]

def HexDigit (byte value : Nat) : Prop :=
  (48 ≤ byte ∧ byte ≤ 57 ∧ value = byte - 48) ∨ (97 ≤ byte ∧ byte ≤ 102 ∧ value = byte - 97 + 10) ∨
    (65 ≤ byte ∧ byte ≤ 70 ∧ value = byte - 65 + 10)

/-- `*char`, and the code units it denotes. -/
inductive Chars : List Nat → Str → Prop
  | nil : Chars [] []
  | unescaped {c : Nat} {t : List Nat} {u : Str} (hc : Scalar c) (hlow : 32 ≤ c) (hquote : c ≠ 34)
      (hslash : c ≠ 92) (h : Chars t u) : Chars (encode8 c ++ t) (encode16 c ++ u)
  | escaped {b : Nat} {unit : UInt16} {t : List Nat} {u : Str} (hb : (b, unit) ∈ escapes)
      (h : Chars t u) : Chars (92 :: b :: t) (unit :: u)
  | unicode {b₁ b₂ b₃ b₄ v₁ v₂ v₃ v₄ : Nat} {t : List Nat} {u : Str} (h₁ : HexDigit b₁ v₁)
      (h₂ : HexDigit b₂ v₂) (h₃ : HexDigit b₃ v₃) (h₄ : HexDigit b₄ v₄) (h : Chars t u) :
      Chars (92 :: 117 :: b₁ :: b₂ :: b₃ :: b₄ :: t) (UInt16.ofNat (v₁ * 4096 + v₂ * 256 + v₃ * 16 + v₄) :: u)

inductive Leaf : Value → List Nat → Prop
  | null : Leaf .null [110, 117, 108, 108]
  | yes : Leaf (.bool true) [116, 114, 117, 101]
  | no : Leaf (.bool false) [102, 97, 108, 115, 101]
  | number {t : List Nat} (h : Numeral t) : Leaf (.number t) t
  | text {t : List Nat} {u : Str} (h : Chars t u) : Leaf (.text u) (34 :: (t ++ [34]))

/-- The elements of an array, with the white space around each. -/
inductive Elements (den : Value → List Nat → Prop) : List Value → List Nat → Prop
  | last {v : Value} {before t after : List Nat} (hb : Blank before) (hv : den v t)
      (ha : Blank after) : Elements den [v] (before ++ (t ++ after))
  | more {v : Value} {vs : List Value} {before t after rest : List Nat} (hb : Blank before)
      (hv : den v t) (ha : Blank after) (h : Elements den vs rest) :
      Elements den (v :: vs) (before ++ (t ++ (after ++ 44 :: rest)))

/-- A member: a key, a colon and a value, with white space around each. -/
inductive Field (den : Value → List Nat → Prop) : Str × Value → List Nat → Prop
  | field {key : Str} {v : Value} {a b c d k t : List Nat} (ha : Blank a) (hb : Blank b)
      (hc : Blank c) (hd : Blank d) (hk : Chars k key) (hv : den v t) :
      Field den (key, v) (a ++ 34 :: (k ++ 34 :: (b ++ 58 :: (c ++ (t ++ d)))))

inductive Fields (den : Value → List Nat → Prop) : List (Str × Value) → List Nat → Prop
  | last {m : Str × Value} {t : List Nat} (hm : Field den m t) : Fields den [m] t
  | more {m : Str × Value} {ms : List (Str × Value)} {t rest : List Nat} (hm : Field den m t)
      (h : Fields den ms rest) : Fields den (m :: ms) (t ++ 44 :: rest)

/-- A container around values that `den` describes. -/
inductive Container (den : Value → List Nat → Prop) : Value → List Nat → Prop
  | noItems {ws : List Nat} (h : Blank ws) : Container den (.items []) (91 :: (ws ++ [93]))
  | items {vs : List Value} {t : List Nat} (h : Elements den vs t) : Container den (.items vs) (91 :: (t ++ [93]))
  | noMembers {ws : List Nat} (h : Blank ws) : Container den (.object []) (123 :: (ws ++ [125]))
  | members {ms : List (Str × Value)} {t : List Nat} (h : Fields den ms t) :
      Container den (.object ms) (123 :: (t ++ [125]))

def Denotes : Nat → Value → List Nat → Prop
  | 0 => Leaf
  | n + 1 => fun v t => Leaf v t ∨ Container (Denotes n) v t

def JsonText (v : Value) (bytes : List Nat) : Prop :=
  ∃ n before t after, bytes = before ++ (t ++ after) ∧ Blank before ∧ Denotes n v t ∧ Blank after

/-! ## What the parser asks of a value -/

namespace Value

mutual
def depth : Value → Nat
  | .items values => depthItems values + 1
  | .object members => depthMembers members + 1
  | _ => 0
termination_by structural v => v

def depthItems : List Value → Nat
  | [] => 0
  | v :: vs => max v.depth (depthItems vs)
termination_by structural vs => vs

def depthMembers : List (Str × Value) → Nat
  | [] => 0
  | m :: ms => max (depthMember m) (depthMembers ms)
termination_by structural ms => ms

def depthMember : Str × Value → Nat
  | (_, v) => v.depth
termination_by structural m => m
end

mutual
def distinct : Value → Prop
  | .items values => distinctItems values
  | .object members => (members.map Prod.fst).Nodup ∧ distinctMembers members
  | _ => True
termination_by structural v => v

def distinctItems : List Value → Prop
  | [] => True
  | v :: vs => v.distinct ∧ distinctItems vs
termination_by structural vs => vs

def distinctMembers : List (Str × Value) → Prop
  | [] => True
  | m :: ms => distinctMember m ∧ distinctMembers ms
termination_by structural ms => ms

def distinctMember : Str × Value → Prop
  | (_, v) => v.distinct
termination_by structural m => m
end

end Value

end Tsuzuri.Json
