import Tsuzuri.CoverLiteral
import Tsuzuri.PatternMatrix

/-!
# Exhaustiveness and usefulness of `match` arms

`exhaustiveness.rs`: the coverage patterns of a match, their normalization into rows, the search for a value that a
query matches and no row covers, and `check_coverage`.
-/

namespace Tsuzuri

open PatternMatrix (Row specialize defaults)

def maxWork : Nat := 2 ^ 24

def maxPatternAlternatives : Nat := 1024

/-- The values that one pattern covers. -/
inductive CoveragePat where
  | wildcard
  | constructor (constructor : Constructor) (arguments : List CoveragePat)
  | or (left right : CoveragePat)
  | and (left right : CoveragePat)
  | literal (literal : TypedExpr)
  | total (payload : Option CoveragePat)
  | activeCase (function index count : Nat)
  | opaquePat

structure CoverageArm where
  pattern : CoveragePat
  guarded : Bool
  span : Span

/-- The arms of one explicit match or function guard. -/
structure MatchCoverage where
  span : Span
  arms : List CoverageArm
  appendAt : Option Nat

abbrev Pat := PatternMatrix.Pat Constructor

inductive DiagnosticKind where
  | unreachableMatchArm
  | nonExhaustiveMatch
  | patternAlternativesLimit
  | exhaustivenessSearchLimit

structure Edit where
  span : Span
  text : String

structure Fix where
  title : String
  edits : List Edit

structure Diagnostic where
  kind : DiagnosticKind
  message : String
  span : Span
  help : Option String
  fix : Option Fix

def Diagnostic.of (kind : DiagnosticKind) (message : String) (span : Span) : Diagnostic :=
  { kind, message, span, help := none, fix := none }

inductive Mode where
  | row
  | query

inductive Witness where
  | wild
  | ctor (constructor : Constructor) (arguments : List Witness)

def witnessPattern : Witness → Pat
  | .wild => .wild
  | .ctor constructor arguments => .ctor constructor (arguments.map witnessPattern)

inductive Step where
  | apply (constructor : Constructor) (arity : Nat)
  | head (witness : Witness)

structure Task where
  rows : List (Row Constructor)
  query : Row Constructor
  trace : Option Nat

inductive Signature where
  | complete (constructors : List Constructor)
  | missing (witness : Witness)

/-- The mutable part of a search. -/
structure Search where
  work : Nat
  steps : List (Step × Option Nat)
  distinct : Nat

def Search.init : Search := { work := 0, steps := [], distinct := 0 }

abbrev SearchM := StateT Search (Except Diagnostic)

def concrete (row : Row Constructor) : Nat := row.countP fun p => !p.isWild

section Search

variable (checker : Checker) (span : Span)

def limit (alternatives : Nat) : SearchM Unit :=
  if alternatives > maxPatternAlternatives then
    throw (.of .patternAlternativesLimit "pattern alternatives exceed the compiler limit; split the match" span)
  else pure ()

def charge (work : Nat) : SearchM Unit := do
  modify fun s => { s with work := s.work + work }
  if (← get).work > maxWork then
    throw (.of .exhaustivenessSearchLimit "the match is too large to check for exhaustiveness; split the match" span)

def arity : Constructor → Nat
  | .union unionId caseId =>
    match (checker.types.union unionId).cases[caseId]? with
    | some (_, some _) => 1
    | _ => 0
  | .tuple count | .arrayLen count => count
  | .record _ fieldCount => fieldCount
  | .listCons => 2
  | .bool _ | .unit | .listNil | .literal _ => 0

def heads (rows : List (Row Constructor)) : List Constructor :=
  rows.filterMap fun
    | .ctor constructor _ :: _ => some constructor
    | _ => none

def index : Constructor → Nat
  | .bool value => if value then 0 else 1
  | .union _ caseId => caseId
  | .listCons => 1
  | _ => 0

/-- Complete when every constructor of `all` heads a row, and otherwise the
first one missing. -/
def present (all : List Constructor) (heads : List Constructor) : Signature :=
  match (List.range all.length).find? fun i => !(heads.any fun head => index head == i) with
  | some i =>
    match all[i]? with
    | some missing =>
      .missing (.ctor missing (List.replicate (arity checker missing) .wild))
    | none => .complete all
  | none => .complete all

/-- Whether the constructors of the first column cover its type, and else a head for the witness. -/
def signature (rows : List (Row Constructor)) : Signature :=
  match heads rows with
  | [] => .missing .wild
  | first :: others =>
    match first with
    | .bool _ => present checker [.bool true, .bool false] (first :: others)
    | .union unionId _ =>
      present checker ((List.range (checker.types.union unionId).cases.length).map (.union unionId)) (first :: others)
    | .listNil | .listCons => present checker [.listNil, .listCons] (first :: others)
    | .unit | .tuple _ | .record .. => .complete [first]
    | .arrayLen _ | .literal _ => .missing .wild

def step (describe : Bool) (parent : Option Nat) (step : Step) : SearchM (Option Nat) := do
  if !describe then return none
  modify fun s => { s with steps := s.steps ++ [(step, parent)] }
  return some ((← get).steps.length - 1)

def rebuild (steps : List (Step × Option Nat)) : Nat → Option Nat → List Witness → Witness
  | fuel + 1, some i, witnesses =>
    match steps[i]? with
    | some (.apply constructor arity, parent) =>
      rebuild steps fuel parent (.ctor constructor (witnesses.take arity) :: witnesses.drop arity)
    | some (.head head, parent) => rebuild steps fuel parent (head :: witnesses)
    | none => witnesses.headD .wild
  | _, _, witnesses => witnesses.headD .wild

def specializeRows (rows : List (Row Constructor)) (constructor : Constructor) (arity : Nat) :
    SearchM (List (Row Constructor)) := do
  charge span (rows.length * arity)
  return specialize constructor arity rows

def splitTasks (describe : Bool) (rows : List (Row Constructor)) (tail : Row Constructor)
    (trace : Option Nat) : List Constructor → List Task → SearchM (List Task)
  | [], tasks => return tasks
  | constructor :: constructors, tasks => do
    let arity := arity checker constructor
    let specialized ← specializeRows span rows constructor arity
    let trace' ← step describe trace (.apply constructor arity)
    splitTasks describe rows tail trace constructors
      ({ rows := specialized, query := List.replicate arity .wild ++ tail, trace := trace' } :: tasks)

/-- The loop of `run`. Every round charges a unit, so its fuel is never used up (`runLoop_fuel`). -/
def runLoop (describe : Bool) : Nat → List Task → SearchM (Option Witness)
  | 0, _ => throw (.of .exhaustivenessSearchLimit
      "the match is too large to check for exhaustiveness; split the match" span)
  | _ + 1, [] => return none
  | fuel + 1, { rows, query, trace } :: tasks => do
    charge span (rows.length + 1)
    if rows.any fun row => concrete row == 0 then runLoop describe fuel tasks
    else
      match query with
      | [] =>
        let steps := (← get).steps
        return some (if describe then rebuild steps (steps.length + 1) trace [] else .wild)
      | .ctor constructor arguments :: tail => do
        let rows ← specializeRows span rows constructor arguments.length
        let trace ← step describe trace (.apply constructor arguments.length)
        runLoop describe fuel ({ rows, query := arguments ++ tail, trace } :: tasks)
      | .wild :: tail =>
        match signature checker rows with
        | .complete constructors => do
          let tasks ← splitTasks checker span describe rows tail trace constructors.reverse tasks
          runLoop describe fuel tasks
        | .missing head => do
          let trace ← step describe trace (.head head)
          runLoop describe fuel ({ rows := defaults rows, query := tail, trace } :: tasks)

/-- Finds a value that `query` matches and no row covers. -/
def run (rows : List (Row Constructor)) (query : Row Constructor) (describe : Bool) : SearchM (Option Witness) := do
  modify fun s => { s with steps := [] }
  runLoop checker span describe (maxWork + 2) [{ rows, query, trace := none }]

mutual

/-- The values both patterns match, or `none` when they share none. -/
def intersect : Pat → Pat → Option Pat
  | .wild, right => some right
  | left, .wild => some left
  | .ctor a left, .ctor b right =>
    if a = b then (intersectAll left right).map (.ctor a) else none

def intersectAll : List Pat → List Pat → Option (List Pat)
  | left :: lefts, right :: rights => do
    let head ← intersect left right
    let tail ← intersectAll lefts rights
    return head :: tail
  | _, _ => some []

end

def opaqueAlternatives : Mode → List Pat
  | .row => []
  | .query => [.wild]

mutual

def normalize : CoveragePat → Mode → SearchM (List Pat)
  | .wildcard, _ => return [.wild]
  | .total none, _ => return [.wild]
  | .constructor constructor arguments, mode => do
    let products ← normalizeAll arguments mode [[]]
    return products.map (.ctor constructor)
  | .or left right, mode => do
    let left ← normalize left mode
    let right ← normalize right mode
    limit span (left.length + right.length)
    return left ++ right
  | .and left right, mode => do
    let left ← normalize left mode
    let right ← normalize right mode
    limit span (left.length * right.length)
    return left.flatMap fun left => right.filterMap (intersect left)
  | .literal e, _ => do
    let (literal, distinct) := literal checker e (← get).distinct
    modify fun s => { s with distinct }
    match literal with
    | .constructor constructor => return [.ctor constructor []]
    | .never => return []
  | .total (some payload), mode => do
    let rows ← normalize payload .row
    match ← run checker span (rows.map ([·])) [.wild] false with
    | none => return [.wild]
    | some _ => return opaqueAlternatives mode
  | .opaquePat, mode => return opaqueAlternatives mode
  | .activeCase .., mode => return opaqueAlternatives mode

def normalizeAll : List CoveragePat → Mode → List (List Pat) → SearchM (List (List Pat))
  | [], _, products => return products
  | argument :: arguments, mode, products => do
    let alternatives ← normalize argument mode
    limit span (products.length * alternatives.length)
    normalizeAll arguments mode (products.flatMap fun before => alternatives.map fun alternative =>
        before ++ [alternative])

end

end Search

/-! ## Witnesses as text -/

mutual

def writable : Witness → Bool
  | .wild => true
  | .ctor (.bool _) _ | .ctor .unit _ => true
  | .ctor (.union ..) arguments | .ctor (.tuple _) arguments => writableAll arguments
  | .ctor _ _ => false

def writableAll : List Witness → Bool
  | [] => true
  | witness :: witnesses => writable witness && writableAll witnesses

end

def Witness.isWild : Witness → Bool
  | .wild => true
  | .ctor .. => false

def atomic : Witness → Bool
  | .wild => true
  | .ctor (.union ..) arguments | .ctor .listCons arguments => arguments.isEmpty
  | .ctor (.record ..) arguments => arguments.all Witness.isWild
  | .ctor _ _ => true

section Check

variable (checker : Checker)

mutual

/-- `Checker::witness`. -/
def witnessText (span : Span) : Witness → String
  | .wild => "_"
  | .ctor constructor arguments =>
    let texts := witnessTexts span arguments
    let argument (i : Nat) : String :=
      let text := texts.getD i ""
      if (arguments[i]?).all atomic then text else "(" ++ text ++ ")"
    match constructor with
    | .bool value => toString value
    | .unit => "()"
    | .union unionId caseId =>
      let name := checker.caseName unionId caseId span
      if arguments.isEmpty then name else name ++ " " ++ argument 0
    | .tuple _ => "(" ++ ", ".intercalate texts ++ ")"
    | .record recordId _ =>
      let names := (checker.types.record recordId).fields.map Prod.fst
      let fields := (names.zip (arguments.zip texts)).filterMap fun (name, witness, text) =>
        if witness.isWild then none else some (name ++ " = " ++ text)
      if fields.isEmpty then "_"
      else "\x7b " ++ ", ".intercalate fields ++ " \x7d"
    | .arrayLen _ => "[" ++ ", ".intercalate texts ++ "]"
    | .listNil => "[||]"
    | .listCons => argument 0 ++ " :: " ++ texts.getD 1 ""
    | .literal _ => "_"

def witnessTexts (span : Span) : List Witness → List String
  | [] => []
  | witness :: witnesses => witnessText span witness :: witnessTexts span witnesses

end

def maxAddedArms : Nat := 8

/-- At most `maxAddedArms` arms, from `witness` on, that make the match exhaustive; none at the limit of the search. -/
def missingArms (span : Span) : Nat → Search → List (Row Constructor) → Witness → Option (List String)
  | 0, _, _, _ => none
  | more + 1, s, rows, witness =>
    if !writable witness then none
    else
      let arm := "| " ++ witnessText checker span witness ++ " -> unreachable ()"
      let rows := rows ++ [[witnessPattern witness]]
      match (run checker span rows [.wild] true).run s with
      | .ok (none, _) => some [arm]
      | .ok (some next, s) => (missingArms span more s rows next).map (arm :: ·)
      | .error _ => none

/-! ## The check -/

def usefulQuery (span : Span) (rows : List (Row Constructor)) : List Pat → SearchM Bool
  | [] => return false
  | query :: queries => do
    match ← run checker span rows [query] false with
    | some _ => return true
    | none => usefulQuery span rows queries

def unreachableArm (arm : CoverageArm) : Diagnostic :=
  .of .unreachableMatchArm "unreachable match arm; previous patterns already cover this arm" arm.span

def usefulArm (span : Span) (rows : List (Row Constructor)) (queries : List Pat) : SearchM Bool :=
  if queries.isEmpty then return true else usefulQuery checker span rows queries

def checkArm (span : Span) (arm : CoverageArm) (rows : List (Row Constructor)) :
    SearchM (Bool × List (Row Constructor)) := do
  let queries ← normalize checker span arm.pattern .query
  let useful ← usefulArm checker span rows queries
  if arm.guarded then return (useful, rows)
  let patterns ← normalize checker span arm.pattern .row
  return (useful, rows ++ patterns.map ([·]))

def checkArms (span : Span) : List CoverageArm → List (Row Constructor) →
    SearchM (List CoverageArm × List (Row Constructor))
  | [], rows => return ([], rows)
  | arm :: arms, rows => do
    let (useful, rows) ← checkArm checker span arm rows
    let (unreachable, rows) ← checkArms span arms rows
    return (if useful then unreachable else arm :: unreachable, rows)

/-- The error of a match that misses the values of `witness`. -/
def nonExhaustive (coverage : MatchCoverage) (s : Search) (rows : List (Row Constructor))
    (witness : Witness) : Diagnostic :=
  let missing := witnessText checker coverage.span witness
  let message := "match is not exhaustive; missing: " ++ missing
  let help := "add an arm for '" ++ missing
    ++ "', or end the match with a wildcard arm '| _ -> ...'"
  let fix : Option Fix := do
    let position ← coverage.appendAt
    let arms ← missingArms checker coverage.span maxAddedArms s rows witness
    let title := (if arms.length = 1 then "Add the arm '" else "Add the arms '")
      ++ " ".intercalate arms ++ "'"
    let span := { coverage.span with start := position, «end» := position }
    return { title, edits := [{ span, text := String.join (arms.map (" " ++ ·)) }] }
  { kind := .nonExhaustiveMatch, message, span := coverage.span, help := some help, fix }

def checkMatch (coverage : MatchCoverage) : Except Diagnostic (List CoverageArm) := do
  let ((unreachable, rows), s) ← (checkArms checker coverage.span coverage.arms []).run Search.init
  match ← (run checker coverage.span rows [.wild] true).run s with
  | (none, _) => return unreachable
  | (some witness, s) => throw (nonExhaustive checker coverage s rows witness)

def checkCoverage : List MatchCoverage → Except Diagnostic (List Diagnostic)
  | [] => return []
  | coverage :: rest => do
    let unreachable ← checkMatch checker coverage
    let warnings ← checkCoverage rest
    return unreachable.map unreachableArm ++ warnings

end Check

end Tsuzuri
