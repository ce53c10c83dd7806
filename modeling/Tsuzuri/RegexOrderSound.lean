import Tsuzuri.RegexLanguage
import Tsuzuri.RegexOrder

/-!
# The first branch

Where every iteration of an unbounded repetition consumes, no branch comes back to an instruction without consuming,
and a node does what backtracking over it does.
-/

namespace Tsuzuri.Regex

open OrderedSearch List Option Nat
open Json (Str)

/-! ## Steps without input -/

/-- A branch goes from `pc` to `goal` without consuming. -/
def Epsilon (re : Program) (pc goal : Nat) : Prop :=
  ∃ instr, re.code[pc]? = some instr ∧ (goal ∈ instr.goals ∨
      goal = pc + 1 ∧ ((∃ slot, instr = .save slot) ∨ ∃ kind word, instr = .assert kind word))

/-- Every branch from `pc` consumes or ends after finitely many steps. -/
abbrev Ends (re : Program) (pc : Nat) : Prop := Acc (fun goal pc => Epsilon re pc goal) pc

variable {instr : Instr} {goal first second out minimum i pc : Nat} {greedy nullable' : Bool}
  {maximum : Option Nat} {ns : List Node} {n : Node} {re : Program}

section Ends

variable {re : Program} {pc : Nat}

/-- A fragment is ended where what follows it is, and its start even without that when every way through it
consumes. -/
structure Ended (re : Program) (pc size : Nat) (nullable : Bool) : Prop where
  start : nullable = false → Ends re pc
  inside : Ends re (pc + size) → ∀ q, pc ≤ q → q ≤ pc + size → Ends re q

theorem Ended.empty (nullable : Bool) (h : nullable = true) : Ended re pc 0 nullable := by
  refine ⟨fun hn => absurd (h.symm.trans hn) (by simp), fun hend q hle hge => ?_⟩
  obtain rfl : q = pc := by omega
  exact hend

theorem Ended.comp {size size' : Nat} {nullable : Bool} (h : Ended re pc size nullable)
    (h' : Ended re (pc + size) size' nullable') : Ended re pc (size + size') (nullable && nullable') := by
  constructor
  · intro hn
    cases hnull : nullable with
    | false => exact h.start hnull
    | true =>
      rw [hnull, Bool.true_and] at hn
      exact h.inside (h'.start hn) pc (le_refl _) (le_add_right _ _)
  · intro hend q hle hge
    rw [← add_assoc] at hend hge
    rcases lt_or_ge q (pc + size) with hlt | hlarge
    · exact h.inside (h'.inside hend _ (le_refl _) (le_add_right _ _)) q hle (by omega)
    · exact h'.inside hend q hlarge hge

section Repeat

variable {body : Nat → List Instr} {size : Nat} {nullable : Bool}

variable (hlen : ∀ pc, (body pc).length = size)

include hlen

variable (hbody : ∀ pc, At re.code pc (body pc) → Ended re pc size nullable)

include hbody

end Repeat

end Ends

/-- Two ways to go on agree wherever a node that starts at `i` can hand over, which is behind `i` when the node
matches no empty text. -/
def SameFrom (length i : Nat) (nullable : Bool) (next next' : Next) : Prop :=
  ∀ j, i ≤ j → j ≤ length → (nullable = false → i < j) → next j = next' j

/-- The first branch through a node asks for the rest only at offsets that the node can reach. -/
def Local (length : Nat) (nullable : Bool) (body : Next → Next) : Prop :=
  ∀ next next' i, i ≤ length → SameFrom length i nullable next next' → body next i = body next' i

section Local

variable {length : Nat} {nullable : Bool} {body : Next → Next} {greedy : Bool}

theorem SameFrom.mono {j : Nat} {next next' : Next} (h : SameFrom length i nullable next next')
    (hle : i ≤ j) (hstrict : nullable = false → nullable' = true → i < j) : SameFrom length j nullable' next next' := by
  intro k hk hlength hlt
  refine h k (le_trans hle hk) hlength fun hn => ?_
  cases hn' : nullable' with
  | true => exact lt_of_lt_of_le (hstrict hn hn') hk
  | false => exact lt_of_le_of_lt hle (hlt hn')

variable (h : Local length nullable body)

include h

end Local

/-- The slots of the first branch from `pc` that ends in a match. -/
def value (re : Program) (text : List Nat) (i pc : Nat) (s : Slots) : Option Slots :=
  branches re (scalarsIn plain (text.drop i)) i (text.take i).getLast? pc s

section Value

variable {re : Program} (hl : Linked re) (hends : ∀ pc, Ends re pc) {text : List Nat} {pc : Nat}

include hl hends

/-- A fragment chooses as `body` does, with what follows the fragment as the way to go on. -/
def Gives (re : Program) (text : List Nat) (pc size : Nat) (body : Next → Next) : Prop :=
  ∀ i, i ≤ text.length → value re text i pc = body (fun j t => value re text j (pc + size) t) i

section Repeat

variable {body : Nat → List Instr} {size : Nat} {nullable : Bool} {run : Next → Next}

end Repeat

end Value

end Tsuzuri.Regex
