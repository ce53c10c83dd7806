import Tsuzuri.RegexVm

/-!
# Replacing and splitting (`std/Regex.tz`)

A replacement is cut into parts once, and each match puts them together.
-/

namespace Tsuzuri.Regex

open FaultVec (Exec force)
open Json (Str)

/-- The code units or bytes, which `code_at` looks at. -/
def Input.units : Input → List Nat
  | .utf16 text => text.map UInt16.toNat
  | .utf8 bytes => bytes

/-! ## Replacements -/

/-- The units of the replacement between two offsets, or the text of a group. -/
inductive Part where
  | copy (first last : Nat)
  | group (number : Nat)

def groupNumber (units : List Nat) (groups : Nat) : Nat → Nat → Nat → Nat × Nat
  | 0, offset, group => (group, offset)
  | fuel + 1, offset, group =>
    match units[offset]? with
    | some code =>
      if isDigit code then
        groupNumber units groups fuel (offset + 1) (if groups < group then group else group * 10 + code - 48)
      else (group, offset)
    | none => (group, offset)

def templateFrom (units : List Nat) (groups : Nat) : Nat → Nat → Nat → List Part → Exec (List Part)
  | 0, _, _, _ => .error .diverged
  | fuel + 1, literal, offset, parts =>
    if offset < units.length then
      if units[offset]? = some 36 ∧ units[offset + 1]? = some 36 then
        templateFrom units groups fuel (offset + 2) (offset + 2) (parts ++ [.copy literal (offset + 1)])
      else if units[offset]? = some 36 ∧ units[offset + 1]? = some 123 then
        let (group, digits) := groupNumber units groups (units.length + 1) (offset + 2) 0
        if offset + 2 < digits ∧ units[digits]? = some 125 then
          templateFrom units groups fuel (digits + 1) (digits + 1) (parts ++ [.copy literal offset, .group group])
        else templateFrom units groups fuel literal (offset + 1) parts
      else templateFrom units groups fuel literal (offset + 1) parts
    else .ok (parts ++ [.copy literal units.length])

def template (input : Input) (groups : Nat) : Exec (List Part) :=
  templateFrom input.units groups (input.units.length + 1) 0 0 []

/-! ## Replacing -/

section Units

variable {α : Type}

def copyRange (units : List α) (first last : Int) : Exec (List α) :=
  if last ≤ first then .ok []
  else if 0 ≤ first ∧ last ≤ units.length then
    .ok ((units.drop first.toNat).take (last - first).toNat)
  else .error .bounds

/-- The start (`which` 0) or the end of a group, or -1 when it took no part. -/
def groupSpan (m : Slots) (group which : Nat) : Exec Int := do
  let first ← FaultVec.index m (2 * group : Nat)
  let last ← FaultVec.index m (2 * group + 1 : Nat)
  .ok (if first < 0 ∨ last < 0 then -1 else if which = 0 then first else last)

def replacePart (re : Program) (replacement text : List α) (m : Slots) : Part → Exec (List α)
  | .copy first last => copyRange replacement first last
  | .group number =>
    if number ≤ re.groups then do
      let first ← groupSpan m number 0
      if 0 ≤ first then do
        let last ← groupSpan m number 1
        copyRange text first last
      else .ok []
    else .ok []

def replaceParts (re : Program) (replacement text : List α) (m : Slots) : List Part → Exec (List α)
  | [] => .ok []
  | part :: parts => do
    let first ← replacePart re replacement text m part
    let rest ← replaceParts re replacement text m parts
    .ok (first ++ rest)

/-- The text from `start` on with the matches replaced. -/
def replaceFrom (re : Program) (replacement text : List α) (parts : List Part) : List Slots → Int → Exec (List α)
  | [], start => copyRange text start text.length
  | m :: ms, start => do
    let first ← FaultVec.index m 0
    let before ← copyRange text start first
    let replaced ← replaceParts re replacement text m parts
    let last ← FaultVec.index m 1
    let rest ← replaceFrom re replacement text parts ms last
    .ok (before ++ replaced ++ rest)

/-- The pieces from `start` on between the matches, each cut by `slice`. -/
def splitFrom (slice : Int → Int → Option (List α)) (length : Nat) : List Slots → Int → Exec (List (List α))
  | [], start => do
    let piece ← force (slice start length)
    .ok [piece]
  | m :: ms, start => do
    let first ← FaultVec.index m 0
    let piece ← force (slice start first)
    let last ← FaultVec.index m 1
    let rest ← splitFrom slice length ms last
    .ok (piece :: rest)

end Units

def replaceAll (re : Program) (replacement text : Str) : Exec Str := do
  let found ← allMatches re (.utf16 text) (2 * (re.groups + 1))
  let parts ← template (.utf16 replacement) re.groups
  replaceFrom re replacement text parts found 0

def fromBytes (bytes : List Nat) : Option (List Nat) :=
  if Unicode.splits bytes.length bytes then some bytes else none

def replaceAllUtf8 (re : Program) (replacement text : List Nat) : Exec (List Nat) := do
  let found ← allMatches re (.utf8 text) (2 * (re.groups + 1))
  let parts ← template (.utf8 replacement) re.groups
  let output ← replaceFrom re replacement text parts found 0
  force (fromBytes output)

/-- `String.slice`. -/
def slice16 (text : Str) (first last : Int) : Option Str :=
  if first < 0 ∨ last < first ∨ text.length < last then none
  else some (slice text first.toNat last.toNat)

/-- `Utf8String.slice`. -/
def slice8 (bytes : List Nat) (first last : Int) : Option (List Nat) :=
  let inside := fun (offset : Int) =>
    offset ≠ 0 && offset ≠ bytes.length && Input.isContinuation bytes offset.toNat
  if first < 0 ∨ last < first ∨ bytes.length < last then none
  else if inside first || inside last then none
  else fromBytes ((bytes.drop first.toNat).take (last.toNat - first.toNat))

def split (re : Program) (text : Str) : Exec (List Str) := do
  let found ← allMatches re (.utf16 text) 2
  splitFrom (slice16 text) text.length found 0

def splitUtf8 (re : Program) (text : List Nat) : Exec (List (List Nat)) := do
  let found ← allMatches re (.utf8 text) 2
  splitFrom (slice8 text) text.length found 0

end Tsuzuri.Regex
