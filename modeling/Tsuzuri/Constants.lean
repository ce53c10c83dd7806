import Mathlib.Logic.Function.Iterate
import Tsuzuri.Typed

/-!
# Constants and the order of their evaluation

`constants.rs`: what an initializer names, also through `const def`s (`ConstDefWalk`), and the work list that
evaluates every constant after those it names (`Evaluator::run`).
-/

namespace Tsuzuri

open List

namespace TypedExpr

theorem sizeOf_kind_lt (e : TypedExpr) : sizeOf e.kind < sizeOf e := by
  obtain ⟨kind, ty, span⟩ := e
  rw [TypedExpr.mk.sizeOf_spec]
  show sizeOf kind < _
  omega

theorem sizeOf_snd_lt {α : Type} [SizeOf α] {pairs : List (α × TypedExpr)} {child : TypedExpr}
    (h : child ∈ pairs.map Prod.snd) : sizeOf child < sizeOf pairs := by
  obtain ⟨⟨a, e⟩, hmem, rfl⟩ := mem_map.mp h
  have := sizeOf_lt_of_mem hmem
  simp only [Prod.mk.sizeOf_spec] at this
  show sizeOf e < _
  omega

theorem sizeOf_toList_lt {e : Option TypedExpr} {child : TypedExpr} (h : child ∈ e.toList) :
    sizeOf child < sizeOf e := by
  obtain rfl := Option.mem_toList.mp h
  rw [Option.some.sizeOf_spec]
  omega

theorem sizeOf_step_lt (step : PatternStep) : sizeOf step.expression < sizeOf step := by
  cases step with
  | test value =>
    rw [PatternStep.test.sizeOf_spec]
    exact Nat.lt_add_of_pos_left Nat.one_pos
  | bind binding value =>
    rw [PatternStep.bind.sizeOf_spec]
    show sizeOf value < _
    omega

theorem sizeOf_alternative_lt {a : PatternAlternative} {child : TypedExpr}
    (h : child ∈ a.steps.map PatternStep.expression ++ a.bindings.map Prod.snd) : sizeOf child < sizeOf a := by
  obtain ⟨steps, bindings⟩ := a
  simp only [PatternAlternative.mk.sizeOf_spec] at h ⊢
  obtain h | h := mem_append.mp h
  · obtain ⟨step, hmem, rfl⟩ := mem_map.mp h
    have := sizeOf_lt_of_mem hmem
    have := sizeOf_step_lt step
    omega
  · have := sizeOf_snd_lt h
    omega

theorem sizeOf_arm_lt {arm : TypedMatchArm} {child : TypedExpr} (h : child ∈ (arm.alternatives.flatMap fun a =>
      a.steps.map PatternStep.expression ++ a.bindings.map Prod.snd) ++ arm.guard.toList ++ [arm.body]) :
    sizeOf child < sizeOf arm := by
  obtain ⟨alternatives, guard, body, borrowed⟩ := arm
  simp only [TypedMatchArm.mk.sizeOf_spec]
  simp only [mem_append, mem_singleton] at h
  obtain (h | h) | rfl := h
  · obtain ⟨a, hmem, ha⟩ := mem_flatMap.mp h
    have := sizeOf_lt_of_mem hmem
    have := sizeOf_alternative_lt ha
    omega
  · have := sizeOf_toList_lt h
    omega
  · omega

theorem sizeOf_flatMap_lt {α : Type} [SizeOf α] {xs : List α} {f : α → List TypedExpr}
    (hf : ∀ x, ∀ child ∈ f x, sizeOf child < sizeOf x) {child : TypedExpr}
    (h : child ∈ xs.flatMap f) : sizeOf child < sizeOf xs := by
  obtain ⟨x, hmem, hx⟩ := mem_flatMap.mp h
  exact Nat.lt_trans (hf x _ hx) (sizeOf_lt_of_mem hmem)

theorem sizeOf_hole_lt (hole : TypedHole) :
    ∀ child ∈ hole.operand :: hole.method.toList, sizeOf child < sizeOf hole := by
  obtain ⟨operand, method⟩ := hole
  intro child h
  simp only [TypedHole.mk.sizeOf_spec] at h ⊢
  obtain rfl | h := mem_cons.mp h
  · omega
  · have := sizeOf_toList_lt h
    omega

theorem sizeOf_waitArm_lt (arm : SelectWaitArm) :
    ∀ child ∈ arm.guard.toList ++ [arm.channel] ++ arm.send.toList, sizeOf child < sizeOf arm := by
  obtain ⟨guard, channel, send⟩ := arm
  intro child h
  simp only [SelectWaitArm.mk.sizeOf_spec]
  simp only [mem_append, mem_singleton] at h
  obtain (h | rfl) | h := h
  · have := sizeOf_toList_lt h
    omega
  · omega
  · have := sizeOf_toList_lt h
    omega

theorem sizeOf_lt_of_mem_children {e child : TypedExpr} (h : child ∈ e.children) : sizeOf child < sizeOf e := by
  refine Nat.lt_trans ?_ (sizeOf_kind_lt e)
  unfold children at h
  split at h <;> rename_i heq <;> rw [heq] <;> clear heq
  all_goals try simp only [mem_cons, mem_append, not_mem_nil, or_false] at h
  all_goals try (rcases h with rfl | rfl | rfl | rfl <;> simp <;> omega)
  case h_29 =>
    obtain rfl | h := h
    · simp
      omega
    · have := sizeOf_flatMap_lt (fun _ _ => sizeOf_arm_lt) h
      simp
      omega
  case h_43 =>
    have := sizeOf_flatMap_lt sizeOf_hole_lt h
    simp
    omega
  case h_44 =>
    have := sizeOf_flatMap_lt sizeOf_waitArm_lt h
    simp
    omega
  case h_16 =>
    have := sizeOf_toList_lt h
    simp
    omega
  case h_17 =>
    obtain (rfl | rfl) | h := h
    · simp
      omega
    · simp
      omega
    · have := sizeOf_toList_lt h
      simp
      omega
  case h_32 =>
    obtain rfl | h | h := h
    · simp
      omega
    all_goals
      have := sizeOf_toList_lt h
      simp
      omega
  case h_26 =>
    obtain rfl | h := h
    · simp
      omega
    · have := sizeOf_lt_of_mem h
      simp
      omega
  case h_31 =>
    have := sizeOf_snd_lt h
    simp
    omega
  case h_30 =>
    obtain h | rfl := h
    · have := sizeOf_snd_lt h
      simp
      omega
    · simp +arith
  case h_33 =>
    obtain rfl | h := h
    · simp
      omega
    · have := sizeOf_snd_lt h
      simp
      omega
  all_goals
    have := sizeOf_lt_of_mem h
    simp
    omega

end TypedExpr

namespace Constants

/-- A function, as far as this pass reads it. -/
structure CheckedFunction where
  body : TypedExpr
  span : Span

/-- The functions by their number. -/
structure Program where
  functions : Nat → CheckedFunction
  constants : List Nat
  constFunctions : List Nat

/-- The kinds that this pass and the machine report; `literal` is any of a literal that its type does not hold. -/
inductive DiagnosticKind
  | constCycle | constLimitExceeded | constCallDepthLimit | constEvaluationTrapped | constOperationNotAllowed
  | constUnsupportedOperation | constConditionNotBool | literal
deriving DecidableEq

structure Diagnostic where
  kind : DiagnosticKind
  span : Span
  message : String

def limit (span : Span) : Diagnostic :=
  ⟨.constLimitExceeded, span, "const evaluation exceeds the compiler limit; split or simplify the constants"⟩

/-- What `Evaluator::run` and `Machine::constant` both report. -/
def cycle (span : Span) : Diagnostic :=
  ⟨.constCycle, span, "cyclic const definition; break the cycle or make one value a function"⟩

def constantId (e : TypedExpr) : Option Nat :=
  match e.kind with
  | .call callee [] =>
    match callee.kind with
    | .function (.user id) => some id
    | _ => none
  | _ => none

def Program.constantOf (p : Program) (e : TypedExpr) : Option Nat :=
  (constantId e).filter fun id => decide (id ∈ p.constants)

/-- The `const def` that an expression names. -/
def Program.constDefOf (p : Program) (e : TypedExpr) : Option Nat :=
  match e.kind with
  | .function (.user callee) => if callee ∈ p.constFunctions then some callee else none
  | _ => none

inductive Named
  | constant (id : Nat) (span : Span)
  | constDef (id : Nat)

def Program.names (p : Program) (e : TypedExpr) : List Named :=
  match p.constantOf e with
  | some dependency => [.constant dependency e.span]
  | none => ((p.constDefOf e).toList.map .constDef) ++ e.children.reverse.attach.flatMap fun child => p.names child.1
termination_by e
decreasing_by exact TypedExpr.sizeOf_lt_of_mem_children (mem_reverse.mp child.2)

def Program.namedIn (p : Program) (function : Nat) : List Named := p.names (p.functions function).body

/-! ## The walk through the `const def`s -/

/-- A frame of the walk is the names of a body that are still to come. -/
structure ConstDefWalk where
  memo : List (Nat × List Named)
  scanned : List Nat
  frames : List (List Named)
  visited : List Named

def Program.namesOf (p : Program) (memo : List (Nat × List Named)) (function : Nat) :
    List Named × List (Nat × List Named) :=
  match memo.lookup function with
  | some names => (names, memo)
  | none => (p.namedIn function, (function, p.namedIn function) :: memo)

namespace ConstDefWalk

def start (p : Program) (memo : List (Nat × List Named)) (root : Nat) : ConstDefWalk where
  memo := (p.namesOf memo root).2
  scanned := []
  frames := [(p.namesOf memo root).1]
  visited := []

/-- A turn of the loop of `walk`. -/
def step (p : Program) (w : ConstDefWalk) : ConstDefWalk :=
  match w.frames with
  | [] => w
  | [] :: frames => { w with frames }
  | (.constant id span :: names) :: frames =>
    { w with frames := names :: frames, visited := w.visited ++ [.constant id span] }
  | (.constDef callee :: names) :: frames =>
    if callee ∈ w.scanned then { w with frames := names :: frames }
    else
      { memo := (p.namesOf w.memo callee).2
        scanned := callee :: w.scanned
        frames := (p.namesOf w.memo callee).1 :: names :: frames
        visited := w.visited ++ [.constDef callee] }

def turns (p : Program) (functions : List Nat) : Nat :=
  functions.foldr (fun function n => (p.namedIn function).length + 1 + n) 0

end ConstDefWalk

/-- The walk of an initializer: as many turns as it can take, each `const def` expanded once. -/
def Program.walk (p : Program) (memo : List (Nat × List Named)) (root : Nat) : ConstDefWalk :=
  (ConstDefWalk.step p)^[ConstDefWalk.turns p (root :: p.constFunctions)] (.start p memo root)

/-- An expression that the machine can come to evaluate for the initializer of `c`; a `const def` that is named can be
called. -/
inductive Meets (p : Program) (c : Nat) : TypedExpr → Prop
  | initializer : Meets p c (p.functions c).body
  | child {e child : TypedExpr} (h : Meets p c e) (hconst : p.constantOf e = none)
      (hchild : child ∈ e.children) : Meets p c child
  | invoke {e : TypedExpr} {callee : Nat} (h : Meets p c e) (hcallee : p.constDefOf e = some callee) :
      Meets p c (p.functions callee).body

def Refers (p : Program) (c d : Nat) : Prop := ∃ e, Meets p c e ∧ p.constantOf e = some d

/-- A literal tree with its measures. -/
structure Value where
  expr : TypedExpr
  size : Nat
  depth : Nat

/-- How the machine can end on the initializer of `c`: a value and the budget left, a diagnostic, or a constant without
a value. -/
inductive MachineRuns (p : Program) (values : Nat → Option Value) (c : Nat) :
    Except Diagnostic (Value × Nat) → Prop
  | value (value : Value) (remaining : Nat) : MachineRuns p values c (.ok (value, remaining))
  | stops (d : Diagnostic) (hkind : d.kind ≠ .constCycle) : MachineRuns p values c (.error d)
  | constant {e : TypedExpr} {d : Nat} (hmeets : Meets p c e) (hconst : p.constantOf e = some d)
      (hvalue : values d = none) : MachineRuns p values c (.error (cycle e.span))

/-- What the machine computes from the values and the budget is left open. -/
structure Machine (p : Program) where
  evaluate : Nat → (Nat → Option Value) → Nat → Except Diagnostic (Value × Nat)
  runs : ∀ id values remaining, MachineRuns p values id (evaluate id values remaining)

/-! ## The work list -/

def charge (value : Value) (remaining depth : Nat) (span : Span) : Except Diagnostic Nat :=
  if maxNesting < depth + value.depth - 1 ∨ remaining < value.size then .error (limit span)
  else .ok (remaining - value.size)

structure Entry where
  id : Nat
  finishing : Bool
  depth : Nat
  span : Span

/-- `roots`: the constants whose turn is still to come, after that of `root`. -/
structure Evaluator where
  memo : List (Nat × List Named)
  values : List (Nat × Value)
  active : List Nat
  references : Nat
  remaining : Nat
  roots : List Nat
  root : Option Nat
  pending : List Entry

inductive Progress
  | next (s : Evaluator)
  | done
  | fail (d : Diagnostic)

def dependencies (depth : Nat) (visited : List Named) : List Entry :=
  (visited.filterMap fun named => match named with
    | .constant id span => some ⟨id, false, depth + 1, span⟩
    | .constDef _ => none).reverse

namespace Evaluator

def valueOf (s : Evaluator) (id : Nat) : Option Value := s.values.lookup id

def start (p : Program) : Evaluator where
  memo := []
  values := []
  active := []
  references := 0
  remaining := 1048576
  roots := p.constants
  root := none
  pending := []

def turn (p : Program) (s : Evaluator) (root : Nat) (roots : List Nat) : Evaluator :=
  { s with references := 0, roots, root := some root, pending := [⟨root, false, 0, (p.functions root).span⟩] }

/-- `evaluate` and `charge`, once all that the constant refers to is done. -/
def finish {p : Program} (m : Machine p) (s : Evaluator) (id : Nat) : Progress :=
  match m.evaluate id s.valueOf s.remaining with
  | .error d => .fail d
  | .ok (value, remaining) =>
    match charge value remaining 0 value.expr.span with
    | .error d => .fail d
    | .ok remaining =>
      .next { s with remaining, active := s.active.filter (· ≠ id), values := (id, value) :: s.values }

def enter (p : Program) (s : Evaluator) (entry : Entry) : Progress :=
  if maxNesting < entry.depth ∨ 1024 < s.references + 1 then .fail (limit entry.span)
  else if entry.id ∈ s.active then .fail (cycle entry.span)
  else
    .next { s with
      memo := (p.walk s.memo entry.id).memo
      active := entry.id :: s.active
      references := s.references + 1
      pending := dependencies entry.depth (p.walk s.memo entry.id).visited ++
        { entry with finishing := true } :: s.pending }

/-- A turn of the loops of `run`. -/
def step {p : Program} (m : Machine p) (s : Evaluator) : Progress :=
  match s.pending with
  | [] =>
    match s.roots with
    | [] => .done
    | root :: roots => .next (s.turn p root roots)
  | entry :: pending =>
    if (s.valueOf entry.id).isSome then .next { s with pending }
    else if entry.finishing then { s with pending }.finish m entry.id
    else { s with pending }.enter p entry

/-! Each turn takes a root, counts a reference up to 1024, or shortens the list. -/

theorem step_lt {p : Program} {m : Machine p} {s t : Evaluator} (h : s.step m = .next t) :
    Prod.Lex (· < ·) (Prod.Lex (· < ·) (· < ·)) (t.roots.length, 1024 - t.references, t.pending.length)
      (s.roots.length, 1024 - s.references, s.pending.length) := by
  unfold step at h
  split at h
  · split at h
    · exact Progress.noConfusion h
    · rename_i root roots hroots
      cases h
      rw [hroots]
      exact .left _ _ (Nat.lt_succ_self _)
  · rename_i entry pending hpending
    rw [hpending]
    split at h
    · cases h
      exact .right _ (.right _ (Nat.lt_succ_self _))
    split at h
    · unfold finish at h
      split at h
      · exact Progress.noConfusion h
      split at h
      · exact Progress.noConfusion h
      cases h
      exact .right _ (.right _ (Nat.lt_succ_self _))
    · unfold enter at h
      split at h
      · exact Progress.noConfusion h
      split at h
      · exact Progress.noConfusion h
      rename_i hlimit _
      cases h
      refine .right _ (.left _ _ ?_)
      show 1024 - (s.references + 1) < 1024 - s.references
      have : ¬1024 < s.references + 1 := fun hover => hlimit (.inr hover)
      omega

def run {p : Program} (m : Machine p) (s : Evaluator) : Evaluator × Except Diagnostic Unit :=
  match _h : s.step m with
  | .next t => t.run m
  | .done => (s, .ok ())
  | .fail d => (s, .error d)
termination_by (s.roots.length, 1024 - s.references, s.pending.length)
decreasing_by exact step_lt _h

end Evaluator

end Constants

end Tsuzuri
