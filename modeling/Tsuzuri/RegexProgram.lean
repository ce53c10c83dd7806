import Tsuzuri.RegexParse

/-!
# Compiling a pattern (`std/Regex.tz`)

`emit` gives the instructions of a node that are written from `pc` on, one after the other.
-/

namespace Tsuzuri.Regex

open Json (Str)

/-- A split prefers its first target. -/
inductive Instr where
  | match_
  | char (code : Nat)
  | cls (id : Nat)
  | any
  | anyNoNewline
  | split (first second : Nat)
  | jump (target : Nat)
  | save (slot : Nat)
  | assert (kind word : Nat)
deriving DecidableEq

/-- `next` is preferred by a greedy repetition, `out` by a lazy one. -/
def branch (greedy : Bool) (next out : Nat) : Instr :=
  .split (if greedy then next else out) (if greedy then out else next)

def copies (body : Nat → List Instr) : Nat → Nat → List Instr
  | 0, _ => []
  | count + 1, pc =>
    let first := body pc
    first ++ copies body count (pc + first.length)

def optionals (body : Nat → List Instr) (greedy : Bool) (out : Nat) : Nat → Nat → List Instr
  | 0, _ => []
  | count + 1, pc =>
    let first := body (pc + 1)
    branch greedy (pc + 1) out :: (first ++ optionals body greedy out count (pc + 1 + first.length))

def emitRepeat (body : Nat → List Instr) (size minimum : Nat) (maximum : Option Nat) (greedy : Bool)
    (out pc : Nat) : List Instr :=
  match maximum with
  | none =>
    if minimum = 0 then
      branch greedy (pc + 1) (pc + size + 2) :: (body (pc + 1) ++ [.jump pc])
    else
      let before := copies body (minimum - 1) pc
      let next := pc + before.length
      let last := body next
      before ++ (last ++ [branch greedy next (next + last.length + 1)])
  | some maximum =>
    let before := copies body minimum pc
    before ++ optionals body greedy out (maximum - minimum) (pc + before.length)

mutual
def emit : Node → Nat → List Instr
  | .empty, _ => []
  | .char code, _ => [.char code]
  | .cls id, _ => [.cls id]
  | .any newline, _ => [if newline then .any else .anyNoNewline]
  | .assert kind word, _ => [.assert kind word]
  | .group capture body, pc =>
    .save (2 * capture) :: (emit body (pc + 1) ++ [.save (2 * capture + 1)])
  | .concat members, pc => emitAll members pc
  | .alternate members, pc =>
    emitAlternatives members pc (pc + capped (2 * (members.length - 1) + sizes members))
  | .repeat body minimum maximum greedy, pc =>
    emitRepeat (fun pc => emit body pc) body.size minimum maximum greedy
      (pc + capped (repeatSize body.size minimum maximum)) pc
termination_by structural n => n

def emitAll : List Node → Nat → List Instr
  | [], _ => []
  | n :: ns, pc =>
    let first := emit n pc
    first ++ emitAll ns (pc + first.length)
termination_by structural ns => ns

def emitAlternatives : List Node → Nat → Nat → List Instr
  | [], _, _ => []
  | n :: ns, pc, out =>
    if ns.isEmpty then emit n pc
    else
      let first := emit n (pc + 1)
      .split (pc + 1) (pc + 2 + n.size) :: (first ++ .jump out :: emitAlternatives ns (pc + 1 + first.length + 1) out)
termination_by structural ns => ns
end

/-- A compiled pattern. -/
structure Program where
  code : List Instr
  classes : List Ranges
  groups : Nat
  anchored : Bool

def lead : Node → Node
  | .concat (member :: _) => member
  | node => node

def startsAnchored : Node → Bool
  | .assert kind _ => kind = 0
  | _ => false

def assemble (tree : Tree) : Program :=
  { code := .save 0 :: (emit tree.root 1 ++ [.save 1, .match_])
    classes := tree.classes
    groups := tree.groups
    anchored := startsAnchored (lead tree.root) }

def compile (data : UnicodeData) (pattern : Str) : Parse Program :=
  if 65536 < pattern.length then
    stop .tooLarge 0 (lit "pattern is longer than 65536 code units")
  else do
    let tree ← parse data pattern
    let count := tree.root.size + 3
    if maxInstructions < count then
      stop .tooLarge 0 (lit ("compiled program exceeds 10000 instructions; " ++
        "simplify the pattern or reduce counted repetitions"))
    else if maxSlots < count * 2 * (tree.groups + 1) then
      stop .tooLarge 0 (lit ("too many capture groups for the pattern size; " ++
        "use (?:...) for groups that are not read"))
    else .ok (assemble tree)

end Tsuzuri.Regex
