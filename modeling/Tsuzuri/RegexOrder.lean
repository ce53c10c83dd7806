import Tsuzuri.RegexMatches

/-!
# The order of the branches of a pattern

Backtracking over the tree: alternatives in their order, a greedy repetition prefers another iteration and a lazy one
to stop, and an iteration that matches empty goes on behind the repetition.
-/

namespace Tsuzuri.Regex

open Json (Str)

abbrev Next := Nat → Slots → Option Slots

def prefers (greedy : Bool) (again stop : Option Slots) : Option Slots :=
  if greedy then again.or stop else stop.or again

section Repeat

variable (body : Next → Next) (greedy : Bool)

def times : Nat → Next → Next
  | 0, next => next
  | count + 1, next => body (times count next)

def upTo : Nat → Next → Next
  | 0, next => next
  | count + 1, next => fun i s => prefers greedy (body (upTo count next) i s) (next i s)

/-- An iteration that matches empty goes on behind the repetition. The fuel counts those that consume. -/
def anyTimes (next : Next) : Nat → Next
  | 0 => fun _ _ => none
  | fuel + 1 => fun i s =>
    prefers greedy (body (fun j t => if j = i then next j t else anyTimes next fuel j t) i s) (next i s)

def manyTimes (length minimum : Nat) (maximum : Option Nat) (next : Next) : Next :=
  match maximum with
  | none => times body minimum (anyTimes body greedy next (length + 1))
  | some bound => times body minimum (upTo body greedy (bound - minimum) next)

end Repeat

section Order

variable (classes : List Ranges) (text : List Nat)

def hasCode (id code : Nat) : Bool := classes[id]?.any (holdsScalar · code)

def assertsAt (kind word i : Nat) : Bool :=
  let prev := (text.take i).getLast?
  if kind = 0 then prev.isNone
  else if kind = 1 then text[i]?.isNone
  else if kind = 2 then prev.isNone || prev = some 10
  else if kind = 3 then text[i]?.isNone || text[i]? = some 10
  else (prev.any (hasCode classes word) != text[i]?.any (hasCode classes word)) = (kind = 4)

mutual
def Node.order : Node → Next → Next
  | .empty => fun next => next
  | .char code => fun next i s => if text[i]? = some code then next (i + 1) s else none
  | .cls id => fun next i s => if text[i]?.any (hasCode classes id) then next (i + 1) s else none
  | .any newline => fun next i s =>
    if text[i]?.any (fun c => newline || c ≠ 10) then next (i + 1) s else none
  | .assert kind word => fun next i s =>
    if assertsAt classes text kind word i then next i s else none
  | .group capture body => fun next i s =>
    Node.order body (fun j t => next j (t.set (2 * capture + 1) j)) i (s.set (2 * capture) i)
  | .concat members => orderAll members
  | .alternate members => orderSome members
  | .repeat body minimum maximum greedy =>
    manyTimes (Node.order body) greedy text.length minimum maximum
termination_by structural n => n

def orderAll : List Node → Next → Next
  | [] => fun next => next
  | n :: ns => fun next => Node.order n (orderAll ns next)
termination_by structural ns => ns

def orderSome : List Node → Next → Next
  | [] => fun _ _ _ => none
  | n :: ns => fun next i s => (Node.order n next i s).or (orderSome ns next i s)
termination_by structural ns => ns
end

end Order

/-! ## Repetitions that consume -/

mutual
def Node.nullable : Node → Bool
  | .empty => true
  | .char _ => false
  | .cls _ => false
  | .any _ => false
  | .assert _ _ => true
  | .group _ body => body.nullable
  | .concat members => nullableAll members
  | .alternate members => nullableSome members
  | .repeat body minimum _ _ => minimum = 0 || body.nullable
termination_by structural n => n

def nullableAll : List Node → Bool
  | [] => true
  | n :: ns => n.nullable && nullableAll ns
termination_by structural ns => ns

def nullableSome : List Node → Bool
  | [] => false
  | n :: ns => n.nullable || nullableSome ns
termination_by structural ns => ns
end

mutual
def Node.consuming : Node → Bool
  | .group _ body => body.consuming
  | .concat members => consumingAll members
  | .alternate members => consumingAll members
  | .repeat body _ maximum _ => body.consuming && (maximum.isSome || !body.nullable)
  | _ => true
termination_by structural n => n

def consumingAll : List Node → Bool
  | [] => true
  | n :: ns => n.consuming && consumingAll ns
termination_by structural ns => ns
end

end Tsuzuri.Regex
