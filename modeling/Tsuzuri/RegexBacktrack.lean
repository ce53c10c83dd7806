import Tsuzuri.OrderedSearch
import Tsuzuri.RegexEmit
import Tsuzuri.RegexVm

/-!
# Backtracking over a program

The branches of a program are tried in the order of preference, and one that comes back to an instruction at the
offset where it passed it is given up.
-/

namespace Tsuzuri.Regex

open OrderedSearch

/-! ## Instructions -/

def classHas (re : Program) (id code : Nat) : Bool :=
  re.classes[id]?.any (holdsScalar · code)

def asserts (re : Program) (kind word : Nat) (prev next : Option Nat) : Bool :=
  if kind = 0 then prev.isNone
  else if kind = 1 then next.isNone
  else if kind = 2 then prev.isNone || prev = some 10
  else if kind = 3 then next.isNone || next = some 10
  else (prev.any (classHas re word) != next.any (classHas re word)) = (kind = 4)

def accepts (re : Program) (code : Nat) : Instr → Bool
  | .char operand => code = operand
  | .cls id => classHas re id code
  | .any => true
  | .anyNoNewline => code ≠ 10
  | _ => false

def follow (re : Program) (place : Place) (pc : Nat) (s : Slots) : List (Nat × Slots) :=
  match re.code[pc]? with
  | some (.jump goal) => [(goal, s)]
  | some (.split first second) => [(first, s), (second, s)]
  | some (.save slot) => [(pc + 1, s.set slot place.pos)]
  | some (.assert kind word) =>
    if asserts re kind word place.prev place.next then [(pc + 1, s)] else []
  | _ => []

abbrev Scalars := List (Nat × Nat)

def placeAt (rest : Scalars) (pos : Nat) (prev : Option Nat) : Place :=
  { pos, prev, next := rest.head?.map Prod.fst }

def thread (re : Program) : Scalars → Nat → Nat → Slots → Option Slots
  | [], _, pc, s => if re.code[pc]? = some .match_ then some s else none
  | (code, width) :: rest, pos, pc, s =>
    if re.code[pc]? = some .match_ then some s
    else if re.code[pc]?.any (accepts re code) then
      backtrack (follow re (placeAt rest (pos + width) (some code)))
        (thread re rest (pos + width)) re.code.length (pc + 1) s
    else none

def branches (re : Program) (rest : Scalars) (pos : Nat) (prev : Option Nat) (pc : Nat) (s : Slots) :
    Option Slots :=
  backtrack (follow re (placeAt rest pos prev)) (thread re rest pos) re.code.length pc s

def leftmost (re : Program) (slots : Nat) : Scalars → Nat → Option Nat → Option Slots
  | [], pos, prev => branches re [] pos prev 0 (List.replicate slots (-1))
  | (code, width) :: rest, pos, prev =>
    (branches re ((code, width) :: rest) pos prev 0 (List.replicate slots (-1))).or
      (leftmost re slots rest (pos + width) (some code))

/-! ## Labels -/

theorem follow_fst (re : Program) (place : Place) (pc : Nat) (s t : Slots) :
    (follow re place pc s).map Prod.fst = (follow re place pc t).map Prod.fst := by
  unfold follow
  split
  · rfl
  · rfl
  · rfl
  · split <;> rfl
  · rfl

variable {re : Program} (h : Linked re)

include h

theorem follow_mem {place : Place} {pc : Nat} {s : Slots} :
    ∀ e ∈ follow re place pc s, e.1 ∈ List.range re.code.length := by
  intro e he
  rw [List.mem_range]
  unfold follow at he
  split at he
  · rename_i goal hget
    obtain rfl := List.mem_singleton.mp he
    exact h.goals pc _ hget goal (by simp [Instr.goals])
  · rename_i first second hget
    have hgoal := h.goals pc _ hget
    simp only [Instr.goals, List.mem_cons, List.not_mem_nil, or_false] at he hgoal
    rcases he with rfl | rfl
    · exact hgoal first (.inl rfl)
    · exact hgoal second (.inr rfl)
  · rename_i slot hget
    obtain rfl := List.mem_singleton.mp he
    exact h.next pc _ hget (by simp)
  · rename_i kind word hget
    split at he
    · obtain rfl := List.mem_singleton.mp he
      exact h.next pc _ hget (by simp)
    · cases he
  · cases he

theorem uniform : ∀ (rest : Scalars) (place : Place) (pos : Nat),
      Uniform (List.range re.code.length) (follow re place) (thread re rest pos) := by
  intro rest
  induction rest with
  | nil =>
    intro place pos
    refine ⟨fun pc _ s => follow_mem h, follow_fst re place, fun pc s t => ?_⟩
    unfold thread
    split <;> rfl
  | cons c rest ih =>
    intro place pos
    obtain ⟨code, width⟩ := c
    refine ⟨fun pc _ s => follow_mem h, follow_fst re place, fun pc s t => ?_⟩
    unfold thread
    split
    · rfl
    split
    · exact walk_isSome (ih (placeAt rest (pos + width) (some code)) (pos + width)) _ _ _ s t
    · rfl

theorem branches_anchored (hanchored : re.anchored = true) (rest : Scalars) (pos prev : Nat) (s : Slots) :
    branches re rest pos (some prev) 0 s = none := by
  obtain ⟨hsave, word, hassert⟩ := h.anchor hanchored
  have hleaf : ∀ pc instr, re.code[pc]? = some instr → instr ≠ .match_ →
      (∀ code, accepts re code instr = false) → ∀ t, thread re rest pos pc t = none := by
    intro pc instr hget hne haccepts t
    cases rest with
    | nil =>
      rw [thread, hget, if_neg (by simpa using hne)]
    | cons c rest =>
      rw [thread, hget, if_neg (by simpa using hne), Option.any_some, haccepts, if_neg (by simp)]
  have hsecond : ∀ fuel t, walk (follow re (placeAt rest pos (some prev))) (thread re rest pos)
      fuel [0] 1 t = none := by
    intro fuel t
    cases fuel with
    | zero => rfl
    | succ fuel =>
      rw [walk_fresh (by simp), hleaf 1 _ hassert (by simp) (fun _ => rfl), Option.none_or]
      simp [follow, hassert, asserts, placeAt]
  rw [branches, backtrack, walk_fresh (by simp), hleaf 0 _ hsave (by simp) (fun _ => rfl), Option.none_or]
  simp [follow, hsave, hsecond]

theorem leftmost_anchored (hanchored : re.anchored = true) (slots : Nat) :
    ∀ (rest : Scalars) (pos prev : Nat), leftmost re slots rest pos (some prev) = none := by
  intro rest
  induction rest with
  | nil =>
    intro pos prev
    rw [leftmost, branches_anchored h hanchored]
  | cons c rest ih =>
    intro pos prev
    rw [leftmost, branches_anchored h hanchored, Option.none_or, ih]

end Tsuzuri.Regex
