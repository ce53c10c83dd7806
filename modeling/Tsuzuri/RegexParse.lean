import Tsuzuri.RegexClass

/-!
# Parsing a pattern (`std/Regex.tz`)

The parser keeps the items and the alternatives of all open groups in two stacks and one frame for
each open group.
-/

namespace Tsuzuri.Regex

open FaultVec (Fault Turn)
open Json (Str)

def maxInstructions : Nat := 10000
def maxRanges : Nat := 65536
def maxSlots : Nat := 262144
def maxNesting : Nat := 64
def maxRepeat : Nat := 1000

/-- The syntax tree. Assertions 0 and 1 are at the start and the end of the text, 2 and 3 of a line, 4 and 5 at a word
boundary or not, with the class `word`. -/
inductive Node where
  | empty
  | char (code : Nat)
  | cls (id : Nat)
  | any (newline : Bool)
  | assert (kind word : Nat)
  | group (capture : Nat) (body : Node)
  | concat (members : List Node)
  | alternate (members : List Node)
  | repeat (body : Node) (minimum : Nat) (maximum : Option Nat) (greedy : Bool)

def capped (size : Nat) : Nat :=
  if maxInstructions < size then maxInstructions + 1 else size

def repeatSize (size minimum : Nat) : Option Nat → Nat
  | none => if minimum = 0 then size + 2 else minimum * size + 1
  | some maximum => minimum * size + (maximum - minimum) * (size + 1)

mutual
def Node.size : Node → Nat
  | .empty => 0
  | .char _ => 1
  | .cls _ => 1
  | .any _ => 1
  | .assert _ _ => 1
  | .group _ body => capped (body.size + 2)
  | .concat members => capped (sizes members)
  | .alternate members => capped (2 * (members.length - 1) + sizes members)
  | .repeat body minimum maximum _ => capped (repeatSize body.size minimum maximum)
termination_by structural n => n

def sizes : List Node → Nat
  | [] => 0
  | n :: ns => n.size + sizes ns
termination_by structural ns => ns
end

/-- The node over the members from `start` on: an empty node for none, the member itself for one. -/
def combine (members : List Node) (start : Nat) (node : List Node → Node) : Node :=
  match members.drop start with
  | [] => .empty
  | [member] => member
  | members => node members

def readNumber (pattern : Str) : Nat → Nat → Option Nat → Option Nat × Nat
  | 0, index, value => (value, index)
  | fuel + 1, index, value =>
    match unit pattern index with
    | none => (value, index)
    | some code =>
      if isDigit code then
        readNumber pattern fuel (index + 1) (match value with
          | none => some (code - 48)
          | some value => if maxRepeat < value then some value else some (value * 10 + (code - 48)))
      else (value, index)

inductive Status where
  | valid
  | malformed
  | tooLarge
deriving DecidableEq

structure Quantifier where
  status : Status
  minimum : Nat
  maximum : Option Nat
  finish : Nat

def quantifier (pattern : Str) (start code : Nat) : Quantifier :=
  let malformed : Quantifier := { status := .malformed, minimum := 0, maximum := some 0, finish := start + 1 }
  if code = 42 then { status := .valid, minimum := 0, maximum := none, finish := start + 1 }
  else if code = 43 then { status := .valid, minimum := 1, maximum := none, finish := start + 1 }
  else if code = 63 then { status := .valid, minimum := 0, maximum := some 1, finish := start + 1 }
  else
    match readNumber pattern (pattern.length + 1) (start + 1) none with
    | (none, _) => malformed
    | (some low, after) =>
      let large := if maxRepeat < low then Status.tooLarge else .valid
      if unit pattern after = some 125 then
        { status := large, minimum := low, maximum := some low, finish := after + 1 }
      else if unit pattern after ≠ some 44 then malformed
      else if unit pattern (after + 1) = some 125 then
        { status := large, minimum := low, maximum := none, finish := after + 2 }
      else
        match readNumber pattern (pattern.length + 1) (after + 1) none with
        | (none, _) => malformed
        | (some high, finish) =>
          if unit pattern finish ≠ some 125 then malformed
          else
            let status :=
              if maxRepeat < high then Status.tooLarge
              else if high < low then if large = .tooLarge then .tooLarge else .malformed
              else large
            { status, minimum := low, maximum := some high, finish := finish + 1 }

def flagBit (code : Nat) : Nat :=
  if code = 105 then flagI else if code = 109 then flagM else if code = 115 then flagS
  else if code = 117 then flagU else 0

/-- The flags, the offset of the terminator, and that of the first character where a flag is missing. -/
def readFlags (pattern : Str) : Nat → Nat → Nat → Bool → Nat → Nat × Nat × Option Nat
  | 0, index, result, _, _ => (result, index, some index)
  | fuel + 1, index, result, clear, count =>
    match unit pattern index with
    | none => (result, index, some index)
    | some code =>
      let bit := flagBit code
      if 0 < bit then
        readFlags pattern fuel (index + 1)
          (if clear then result - (result &&& bit) else result ||| bit) clear (count + 1)
      else if code = 45 && !clear then readFlags pattern fuel (index + 1) result true 0
      else if (code = 41 && 0 < count) || (code = 58 && (0 < count || !clear)) then
        (result, index, none)
      else (result, index, some index)

/-! ## Atoms -/

/-- An escape class built before: its key, the offset and length of its name, and its class. -/
structure Memo where
  key : Nat
  offset : Nat
  length : Nat
  id : Nat

/-- The classes of a pattern being parsed, and the escape classes among them. -/
structure Tables where
  classes : List Ranges
  memo : List Memo

def addClass (classes : List Ranges) (set : Ranges) : Option (List Ranges × Nat) :=
  if maxRanges < (classes.map List.length).sum + set.length then none
  else some (classes ++ [set], classes.length)

/-- The class of an escape class remembered under `key` and, for a property, the same name. -/
def remembered (memo : List Memo) (pattern : Str) (key offset length : Nat) : Option Nat :=
  (memo.find? fun m =>
    m.key = key && m.length = length && sameText pattern m.offset offset length).map Memo.id

inductive AtomKind where
  | char
  | cls
  | any
  | assertion
  | escapeClass
deriving DecidableEq

/-- What the characters of an atom say, before its class is looked up or built. -/
structure Start where
  kind : AtomKind
  key : Nat
  advance : Nat
  nameOffset : Nat
  nameLength : Nat
  set : Option Ranges
  problem : Option Stop

section Atoms

variable (data : UnicodeData)

def atomStart (pattern : Str) (pos flags : Nat) (pairs : List (Nat × Nat)) (code width : Nat) : Start :=
  let plain : Start :=
    { kind := .char, key := code, advance := pos + width, nameOffset := 0, nameLength := 0,
      set := none, problem := none }
  if code = 94 || code = 36 then
    { plain with
      kind := .assertion
      key := (if code = 94 then 0 else 1) + (if flags &&& flagM ≠ 0 then 2 else 0) }
  else if code = 46 then
    { plain with kind := .any, key := if flags &&& flagS ≠ 0 then 1 else 0 }
  else if code = 91 then
    match bracket data pattern pos flags pairs with
    | .ok (ranges, finish) => { plain with set := some ranges, kind := .cls, advance := finish }
    | .error stop => { plain with problem := some stop }
  else if code = 93 || code = 125 then
    { plain with
      problem := some (.failure (failure .syntax_ pos (lit "unescaped '" ++ textAt pattern pos ++
        lit "'; escape it as '\\" ++ textAt pattern pos ++ lit "'"))) }
  else if code = 92 then
    match escapeAt pattern pos false with
    | (.literal value, finish) => { plain with key := value, advance := finish }
    | (.perl which, finish) => { plain with kind := .escapeClass, key := which, advance := finish }
    | (.property offset size negated, finish) =>
      { plain with
        kind := .escapeClass
        key := if negated then 7 else 6
        nameOffset := offset
        nameLength := size
        advance := finish }
    | (.assertion assertion, finish) =>
      { plain with kind := .assertion, key := assertion, advance := finish }
    | (.failed error, _) => { plain with problem := some (.failure error) }
  else plain

def specialKey (s : Start) : Option Nat :=
  if s.kind = .assertion ∧ 4 ≤ s.key then some 4
  else if s.kind = .escapeClass then some s.key
  else none

/-- The class of an atom so far: one that is known, or a set to store. -/
structure Found where
  known : Option Nat
  set : Option Ranges
  problem : Option Stop

def specialFlags (s : Start) (flags : Nat) : Nat :=
  if s.kind = .assertion then flags &&& flagU else flags &&& (flagI ||| flagU)

def memoKey (key : Nat) (s : Start) (flags : Nat) : Nat :=
  key * 16 + specialFlags s flags

def findSpecial (pattern : Str) (pos flags : Nat) (pairs : List (Nat × Nat)) (memo : List Memo) (s : Start) : Found :=
  match specialKey s, s.problem with
  | some key, none =>
    match remembered memo pattern (memoKey key s flags) s.nameOffset s.nameLength with
    | some id => { known := some id, set := s.set, problem := none }
    | none =>
      let which := if 6 ≤ key then 3 else key / 2
      let negated := if 6 ≤ key then key = 7 else key % 2 = 1
      match special data pattern which s.nameOffset s.nameLength negated (specialFlags s flags) pairs with
      | some ranges => { known := none, set := some ranges, problem := none }
      | none =>
        { known := none
          set := s.set
          problem := some (.failure (unknownProperty pos (slice pattern s.nameOffset (s.nameOffset + s.nameLength)))) }
  | _, problem => { known := none, set := s.set, problem }

def foldChar (s : Start) (flags : Nat) (pairs : List (Nat × Nat)) (set : Option Ranges) :
    Option Ranges :=
  if s.kind = .char ∧ flags &&& flagI ≠ 0 ∧ fold [(s.key, s.key)] pairs ≠ [(s.key, s.key)] then
    some (fold [(s.key, s.key)] pairs)
  else set

def storeClass (tables : Tables) (s : Start) (flags : Nat) (set : Ranges) : Option (Tables × Nat) :=
  (addClass tables.classes set).map fun (classes, id) =>
    let memo :=
      match specialKey s with
      | some key =>
        let entry : Memo :=
          { key := memoKey key s flags
            offset := s.nameOffset
            length := s.nameLength
            id := id }
        tables.memo ++ [entry]
      | none => tables.memo
    ({ classes, memo }, id)

def atomNode (s : Start) (id : Option Nat) : Node :=
  if s.kind = .assertion then .assert s.key (id.getD 0)
  else
    match id with
    | some id => .cls id
    | none => if s.kind = .any then .any (s.key = 1) else .char s.key

/-- The atom at `pos` but a group or a quantifier: its node, the offset after it, and the classes. -/
def atom (pattern : Str) (pos flags : Nat) (pairs : List (Nat × Nat)) (tables : Tables)
    (code width : Nat) : Parse (Node × Nat × Tables) :=
  let s := atomStart data pattern pos flags pairs code width
  let found := findSpecial data pattern pos flags pairs tables.memo s
  match foldChar s flags pairs found.set, found.problem with
  | some set, problem =>
    match storeClass tables s flags set, problem with
    | some (tables, id), none => .ok (atomNode s (some id), s.advance, tables)
    | some _, some stop => .error stop
    | none, _ =>
      .error (.failure (failure .tooLarge 0 (lit "character classes exceed 65536 ranges in total")))
  | none, none => .ok (atomNode s found.known, s.advance, tables)
  | none, some stop => .error stop

end Atoms

/-! ## The parser -/

structure Frame where
  itemStart : Nat
  alternativeStart : Nat
  capture : Option Nat
  flags : Nat
  offset : Nat

structure State where
  folds : List (Nat × Nat)
  tables : Tables
  items : List Node
  alternatives : List Node
  frames : List Frame
  groups : Nat
  flags : Nat
  pos : Nat
  repeatable : Bool

/-- The syntax tree of a pattern with its classes. -/
structure Tree where
  root : Node
  groups : Nat
  classes : List Ranges

def stop {α : Type} (kind : ErrorKind) (offset : Nat) (message : Str) : Parse α :=
  .error (.failure (failure kind offset message))

def closeItems (s : State) (code : Option Nat) : Parse (Turn State Tree) :=
  let itemStart := (s.frames.getLast?.map Frame.itemStart).getD 0
  let s := { s with
    items := s.items.take itemStart
    alternatives := s.alternatives ++ [combine s.items itemStart .concat]
    repeatable := false }
  if code = some 124 then .ok (.go { s with pos := s.pos + 1 })
  else
    match s.frames.getLast? with
    | none =>
      if code = some 41 then
        stop .syntax_ s.pos (lit "unmatched ')'; escape it as '\\)'")
      else
        let root := combine s.alternatives 0 .alternate
        .ok (.leave { root, groups := s.groups, classes := s.tables.classes })
    | some frame =>
      if code = none then stop .syntax_ frame.offset (lit "unclosed group; add ')'")
      else
        let node := combine s.alternatives frame.alternativeStart .alternate
        let item :=
          match frame.capture with
          | some capture => .group capture node
          | none => node
        .ok (.go { s with
          items := s.items ++ [item]
          alternatives := s.alternatives.take frame.alternativeStart
          frames := s.frames.dropLast
          flags := frame.flags
          repeatable := true
          pos := s.pos + 1 })

def openGroup (pattern : Str) (s : State) : Parse (Turn State Tree) :=
  let s := { s with repeatable := false }
  let marker := unit pattern (s.pos + 1)
  let kind := unit pattern (s.pos + 2)
  let frame : Frame :=
    { itemStart := s.items.length
      alternativeStart := s.alternatives.length
      capture := none
      flags := s.flags
      offset := s.pos }
  if maxNesting ≤ s.frames.length then
    stop .tooLarge s.pos (lit "groups are nested deeper than 64")
  else if marker = some 63 ∧ (kind = some 61 ∨ kind = some 33 ∨ kind = some 60 ∨ kind = some 80 ∨
      kind = some 62 ∨ kind = some 35) then
    stop .unsupported s.pos
      (lit "unsupported group syntax; lookaround, named groups and atomic groups are not supported")
  else if marker = some 63 then
    match readFlags pattern (pattern.length + 1) (s.pos + 2) s.flags false 0 with
    | (_, _, some bad) =>
      if pattern.length ≤ bad then stop .syntax_ s.pos (lit "unclosed group; add ')'")
      else
        stop .syntax_ bad (lit "unknown flag '" ++ textAt pattern bad ++ lit "'; use i, m, s or u")
    | (updated, finish, none) =>
      if unit pattern finish = some 41 ∧ 0 < s.pos then
        stop .unsupported s.pos (lit "inline flags are allowed only at the start; use (?flags:...)")
      else
        .ok (.go { s with
          frames := if unit pattern finish = some 41 then s.frames else s.frames ++ [frame]
          flags := updated
          pos := finish + 1 })
  else
    .ok (.go { s with
      groups := s.groups + 1
      frames := s.frames ++ [{ frame with capture := some (s.groups + 1) }]
      pos := s.pos + 1 })

def repetition (pattern : Str) (s : State) (code : Nat) : Parse (Turn State Tree) :=
  let q := quantifier pattern s.pos code
  let lazy := unit pattern q.finish = some 63
  let finish := if lazy then q.finish + 1 else q.finish
  if !s.repeatable then
    if code = 123 ∧ q.status = .malformed then
      stop .syntax_ s.pos (lit "unescaped '\x7b'; escape it as '\\\x7b'")
    else .error (.failure (nothingToRepeat s.pos))
  else if q.status = .malformed then
    stop .syntax_ s.pos (lit "invalid counted repetition; use \x7bn\x7d, \x7bn,\x7d or \x7bn,m\x7d with n <= m")
  else if q.status = .tooLarge then stop .tooLarge s.pos (lit "repetition count exceeds 1000")
  else if ¬ lazy ∧ unit pattern finish = some 43 then
    stop .unsupported s.pos (lit "unsupported syntax '" ++ slice pattern s.pos (finish + 1) ++ lit "'")
  else
    match s.items.getLast? with
    | none => .error (.trap .bounds)
    | some child =>
      .ok (.go { s with
        items := s.items.dropLast ++ [.repeat child q.minimum q.maximum (!lazy)]
        repeatable := false
        pos := finish })

def isAssertion : Node → Bool
  | .assert _ _ => true
  | _ => false

/-- One turn of the loop of `parse`. -/
def parseStep (data : UnicodeData) (pattern : Str) (s : State) : Parse (Turn State Tree) :=
  match scalar16 pattern s.pos with
  | none => closeItems s none
  | some (code, width) =>
    if code = 41 ∨ code = 124 then closeItems s (some code)
    else if code = 40 then openGroup pattern s
    else if code = 42 ∨ code = 43 ∨ code = 63 ∨ code = 123 then repetition pattern s code
    else do
      let folds :=
        if s.flags &&& flagI ≠ 0 ∧ s.flags &&& flagU ≠ 0 ∧ s.folds = [] then data.simpleCaseFolding
        else s.folds
      let pairs := if s.flags &&& flagU ≠ 0 then folds else asciiPairs
      let (node, finish, tables) ← atom data pattern s.pos s.flags pairs s.tables code width
      .ok (.go { s with
        folds := folds
        tables := tables
        items := s.items ++ [node]
        repeatable := !isAssertion node
        pos := finish })

def parseLoop (data : UnicodeData) (pattern : Str) : Nat → State → Parse Tree
  | 0, _ => .error (.trap .diverged)
  | fuel + 1, s => do
    match ← parseStep data pattern s with
    | .go s => parseLoop data pattern fuel s
    | .leave tree => .ok tree

def parse (data : UnicodeData) (pattern : Str) : Parse Tree :=
  parseLoop data pattern (pattern.length + 2)
    { folds := [], tables := { classes := [], memo := [] }, items := [], alternatives := [],
      frames := [], groups := 0, flags := flagU, pos := 0, repeatable := false }

end Tsuzuri.Regex
