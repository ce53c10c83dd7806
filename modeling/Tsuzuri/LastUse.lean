import Mathlib.Data.Finset.Basic
import Tsuzuri.Typed

/-!
# Last uses

`last_use.rs`: bounded backwards liveness over a function body. A read of a local that is not live afterwards is
marked as a move. Where the analysis gives up as a whole, the model ends with `none`.
-/

namespace Tsuzuri

abbrev SpanKey := Option Nat × Nat × Nat

abbrev ReadKey := SpanKey × Nat

abbrev Live := Finset Nat

/-- `BUDGET`. -/
def lastUseBudget : Nat := 100000

def spanKey (span : Span) : SpanKey := (span.source, span.start, span.«end»)

/-- What the analysis asks of the types of the module. -/
structure TypeFacts where
  isCopy : Ty → Bool
  needsDrop : Ty → Bool
  hasUserDrop : Ty → Bool

/-- The parts of a checked function that the analysis reads. -/
structure CheckedBody where
  parameters : List Local
  captureCount : Nat
  ownedCaptures : Bool
  body : TypedExpr

structure LastUses where
  reads : ReadKey → Bool
  bindings : SpanKey → Bool

def LastUses.default : LastUses := { reads := fun _ => false, bindings := fun _ => false }

def LastUses.movesReadAt (uses : LastUses) (span : Span) (id : Nat) : Bool :=
  uses.reads (spanKey span, id)

def LastUses.movesRead (uses : LastUses) (e : TypedExpr) : Bool :=
  match e.kind with
  | .localVar id => uses.movesReadAt e.span id
  | _ => false

def LastUses.movesBinding (uses : LastUses) (span : Span) : Bool := uses.bindings (spanKey span)

def root : TypedExpr → Option Nat
  | ⟨.localVar id, _, _⟩ => some id
  | ⟨.field value _, _, _⟩ | ⟨.index value _, _, _⟩ | ⟨.listTail value _, _, _⟩
  | ⟨.unionPayload value _, _, _⟩ => root value
  | _ => none
termination_by structural e => e

def TypedExpr.isPlace : TypedExpr → Bool
  | ⟨.localVar _, _, _⟩ | ⟨.dereference _, _, _⟩ => true
  | ⟨.field value _, _, _⟩ | ⟨.listTail value _, _, _⟩ | ⟨.unionPayload value _, _, _⟩ =>
    value.isPlace
  | ⟨.index value _, _, _⟩ =>
    (match value.ty with
      | .array _ | .list _ | .vec _ | .fixedArray .. => true
      | _ => false) && value.isPlace
  | _ => false
termination_by structural e => e

def projection (types : TypeFacts) (subject : Nat) : TypedExpr → Option (List (Bool × Nat))
  | ⟨.localVar id, _, _⟩ => if id = subject then some [] else none
  | ⟨.field value index, _, _⟩ =>
    if types.hasUserDrop value.ty then none
    else (projection types subject value).map (· ++ [(false, index)])
  | ⟨.unionPayload value caseId, _, _⟩ =>
    if types.hasUserDrop value.ty then none
    else (projection types subject value).map (· ++ [(true, caseId)])
  | _ => none
termination_by structural e => e

def exclusions (e : TypedExpr) : List Nat :=
  match e.kind with
  | .borrow value _ | .borrowOperand value | .slice value _ _ => (root value).toList
  | .forEach owner item source _ => [owner.id, item.id] ++ (root source).toList
  | .forRange counter _ _ _ _ _ _ => [counter.id]
  | .matchWith subject _ arms =>
    subject.id :: arms.flatMap fun arm => arm.alternatives.flatMap fun alternative =>
      alternative.bindings.map (·.1.id) ++ alternative.steps.filterMap fun
        | .bind binding _ => some binding.id
        | .test _ => none
  | .lambda _ captures _ _ _ => captures.map (·.id)
  | _ => []

structure LoopContext where
  exit : Live
  head : Live

/-- The parts of the analysis that follow the nesting of the expressions. -/
structure UseScope where
  types : TypeFacts
  excluded : Live
  loops : List LoopContext
  recording : Bool

/-- The parts that are carried along. -/
structure UseState where
  budget : Nat
  reads : ReadKey → Option Bool
  bindings : SpanKey → Option Bool

abbrev UseM := StateT UseState Option

def spend : UseM Unit := do
  if (← get).budget = 0 then failure
  modify fun s => { s with budget := s.budget - 1 }

def note {K : Type} [DecidableEq K] (entries : K → Option Bool) (key : K) (value : Bool) : K → Option Bool :=
  fun k => if k = key then some ((entries key).getD true && value) else entries k

def UseScope.tracks (scope : UseScope) (ty : Ty) : Bool :=
  scope.types.isCopy ty && scope.types.needsDrop ty

def record (scope : UseScope) (e : TypedExpr) (id : Nat) (last : Bool) : UseM Unit := do
  if scope.recording && scope.tracks e.ty then
    modify fun s => { s with
      reads := note s.reads (spanKey e.span, id) (last && decide (id ∉ scope.excluded)) }

def armBindings (arms : List TypedMatchArm) : List (TypedMatchArm × Local) :=
  arms.flatMap fun arm => arm.alternatives.flatMap fun alternative =>
    alternative.bindings.map fun (binding, _) => (arm, binding)

def vetoBindings (scope : UseScope) (e : TypedExpr) : UseM Unit := do
  match e.kind with
  | .matchWith _ _ arms =>
    if scope.recording then
      let veto (bindings : SpanKey → Option Bool) (binding : TypedMatchArm × Local) :=
        Function.update bindings (spanKey binding.2.span) (some false)
      modify fun s => { s with bindings := (armBindings arms).foldl veto s.bindings }
  | _ => pure ()

def opaqueStep (scope : UseScope) (e : TypedExpr) (live : Live) : UseM Live := do
  match e.kind with
  | .localVar id => do
    record scope e id false
    return insert id live
  | .breakLoop | .continueLoop =>
    match scope.loops with
    | context :: _ => return live ∪ context.exit ∪ context.head
    | [] => return live
  | _ => return live

/-- The loop of `opaque`. Every round spends one unit, so the fuel is never used up. -/
def opaqueLoop (scope : UseScope) : Nat → List (TypedExpr × Nat) → Live → UseM Live
  | 0, _, _ => failure
  | _ + 1, [], live => return live
  | _ + 1, (_, 0) :: _, _ => failure
  | fuel + 1, (e, room + 1) :: pending, live => do
    spend
    let live ← opaqueStep scope e live
    vetoBindings scope e
    opaqueLoop scope fuel ((e.children.map (·, room)).reverse ++ pending) live

def opaqueUses (scope : UseScope) (e : TypedExpr) (room : Nat) (live : Live) : UseM Live := do
  opaqueLoop scope ((← get).budget + 1) [(e, room)] live

def growUses (round : Live → UseM Live) : Nat → Live → UseM Live
  | 0, _ => failure
  | fuel + 1, set => do
    let next ← round set
    if next ⊆ set then return set else growUses round fuel (set ∪ next)

def disjointBindings (types : TypeFacts) (subject : Nat) (arm : TypedMatchArm) : Bool :=
  arm.alternatives.all fun alternative =>
    match alternative.bindings.mapM fun (_, value) => projection types subject value with
    | none => false
    | some paths =>
      paths.all (fun path => !(path.zip path.tail).any fun (step, _) => step.1)
        && decide (paths.Pairwise fun path other => ¬ path <+: other ∧ ¬ other <+: path)

def recordBindings (scope : UseScope) (subject : Nat) (arms : List TypedMatchArm) (owned : Bool) :
    UseM Unit := do
  let add (bindings : SpanKey → Option Bool) (binding : TypedMatchArm × Local) :=
    note bindings (spanKey binding.2.span) (owned && disjointBindings scope.types subject binding.1
        && !binding.1.borrowed.contains binding.2.id && scope.tracks binding.2.ty)
  if scope.recording then
    modify fun s => { s with bindings := (armBindings arms).foldl add s.bindings }

def ownsSubject (scope : UseScope) (value : TypedExpr) (live : Live) : Bool :=
  !value.isPlace || match value.kind with
    | .localVar id => decide (id ∉ live) && decide (id ∉ scope.excluded)
    | _ => false

def assignUses (scope : UseScope) (room : Nat) (place : TypedExpr) (live : Live) : UseM Live :=
  match place.kind with
  | .localVar id => return live.erase id
  | _ => opaqueUses scope place room live

def visitParts (visit : TypedExpr → Live → UseM Live) (parts : List TypedExpr) (live : Live) :
    UseM Live :=
  parts.foldrM visit live

def stepUses (scope : UseScope) (room : Nat) (fall : Live) (step : PatternStep) (entry : Live) :
    UseM Live :=
  match step with
  | .bind binding value => opaqueUses scope value room (entry.erase binding.id)
  | .test value => opaqueUses scope value room (entry ∪ fall)

def bindingUses (scope : UseScope) (room : Nat) (binding : Local × TypedExpr) (entry : Live) :
    UseM Live :=
  opaqueUses scope binding.2 room (entry.erase binding.1.id)

def alternativeUses (scope : UseScope) (room : Nat) (fall : Live)
    (alternative : PatternAlternative) (body : Live) : UseM Live := do
  let entry ← alternative.bindings.foldrM (bindingUses scope room) body
  alternative.steps.foldrM (stepUses scope room fall) entry

/-- A guard may fail too. Its reads are no moves. -/
def guardUses (scope : UseScope) (room : Nat) (fall : Live) (arm : TypedMatchArm) (body : Live) :
    UseM Live :=
  match arm.guard with
  | some guard => opaqueUses scope guard room (body ∪ fall)
  | none => return body

def armUses (scope : UseScope) (visit : TypedExpr → Live → UseM Live) (room : Nat)
    (exit fall : Live) (arm : TypedMatchArm) (entries : Live) : UseM Live := do
  let body ← visit arm.body exit
  let body ← guardUses scope room fall arm body
  arm.alternatives.foldlM (fun entries alternative => do
      return entries ∪ (← alternativeUses scope room fall alternative body)) entries

def matchRound (scope : UseScope) (visit : TypedExpr → Live → UseM Live) (room : Nat)
    (arms : List TypedMatchArm) (exit fall : Live) : UseM Live :=
  arms.foldlM (fun entries arm => armUses scope visit room exit fall arm entries) ∅

def matchUses (scope : UseScope) (visit : UseScope → TypedExpr → Live → UseM Live) (room : Nat)
    (subject : Local) (value : TypedExpr) (arms : List TypedMatchArm) (exit : Live) :
    UseM Live := do
  let round (scope : UseScope) := matchRound scope (visit scope) room arms exit
  let fall ← growUses (round { scope with recording := false }) ((← get).budget + 1) ∅
  let live ← round scope fall
  let live := live.erase subject.id
  recordBindings scope subject.id arms (ownsSubject scope value live)
  -- matching reads the place but does not take the whole value
  match value.kind with
  | .localVar id => return insert id live
  | _ => visit scope value live

def loopRound (visit : TypedExpr → Live → UseM Live) (condition : Option TypedExpr)
    (body : TypedExpr) (killed : List Nat) (exit head : Live) : UseM Live := do
  let live ← visit body head
  let live := live.filter (· ∉ killed) ∪ exit
  match condition with
  | some condition => visit condition live
  | none => return live

/-- `loop_expression`. `visit` is the visit of a subexpression in a scope. -/
def loopUses (scope : UseScope) (visit : UseScope → TypedExpr → Live → UseM Live)
    (condition : Option TypedExpr) (body : TypedExpr) (killed : List Nat) (exit : Live) :
    UseM Live := do
  let round (recording : Bool) (head : Live) :=
    loopRound (visit { scope with loops := ⟨exit, head⟩ :: scope.loops, recording }) condition body killed exit head
  let head ← growUses (round false) ((← get).budget + 1) ∅
  let _ ← round scope.recording head
  return head

def visit : Nat → UseScope → TypedExpr → Live → UseM Live
  | 0, _, _, _ => failure
  | room + 1, scope, e, live => do
    spend
    match e.kind with
    | .int _ | .float _ | .string _ | .bool _ | .unit | .function _ | .static _ | .error
    | .construct _ _ none => return live
    | .localVar id => do
      record scope e id (decide (id ∉ live))
      return insert id live
    | .unary _ value | .cast value | .saturatingIndex value | .checked value
    | .construct _ _ (some value) => visit room scope value live
    -- these read storage rather than consuming its root
    | .field .. | .length _ | .stringLength _ | .unionTag _ | .unionPayload .. | .listTail ..
    | .dereference _ | .index .. => opaqueUses scope e (room + 1) live
    | .binary .and a b | .binary .or a b => do
      let conditional ← visit room scope b live
      visit room scope a (live ∪ conditional)
    | .binary .pipe _ _ => opaqueUses scope e (room + 1) live
    | .binary _ a b => visitParts (visit room scope) [a, b] live
    | .call callee arguments => visitParts (visit room scope) (callee :: arguments) live
    | .record fields => visitParts (visit room scope) (fields.map Prod.snd) live
    | .tuple values | .array values | .list values | .closure _ values =>
      visitParts (visit room scope) values live
    | .assign place value => do
      let live ← assignUses scope room place live
      visit room scope value live
    | .block bindings result => do
      let live ← visit room scope result live
      bindings.foldrM (fun binding live => visit room scope binding.2 (live.erase binding.1.id)) live
    | .ifElse condition thenBranch elseBranch => do
      let yes ← visit room scope thenBranch live
      let no ← visit room scope elseBranch live
      visit room scope condition (yes ∪ no)
    | .whileDo condition body => loopUses scope (visit room) (some condition) body [] live
    | .forRange counter start step finish body _ _ => do
      let live ← loopUses scope (visit room) none body [counter.id] live
      visitParts (visit room scope) [start, step, finish] live
    | .forEach owner item source body => do
      let live ← loopUses scope (visit room) none body [owner.id, item.id] live
      opaqueUses scope source room live
    | .breakLoop =>
      match scope.loops with
      | context :: _ => return context.exit
      | [] => return live
    | .continueLoop =>
      match scope.loops with
      | context :: _ => return context.head
      | [] => return live
    | .matchWith subject value arms => matchUses scope (visit room) room subject value arms live
    | _ => opaqueUses scope e (room + 1) live

/-- The first walk of `with_budget`: what is excluded, and the budget left. -/
def excludeLoop : Nat → List (TypedExpr × Nat) → Live → Option (Live × Nat)
  | budget, [], excluded => some (excluded, budget)
  | _, (_, 0) :: _, _ => none
  | 0, _ :: _, _ => none
  | budget + 1, (e, room + 1) :: pending, excluded =>
    excludeLoop budget ((e.children.map (·, room)).reverse ++ pending) (excluded ∪ (exclusions e).toFinset)

/-- The whole analysis; `none` when it gives up. -/
def analyzeUses (function : CheckedBody) (types : TypeFacts) (budget : Nat) : Option UseState := do
  let captured := if function.ownedCaptures then
    ((function.parameters.take function.captureCount).map (·.id)).toFinset else ∅
  let (excluded, budget) ← excludeLoop budget [(function.body, maxNesting + 1)] captured
  let scope : UseScope := { types, excluded, loops := [], recording := true }
  let (_, s) ← (visit (maxNesting + 1) scope function.body ∅).run
    { budget, reads := fun _ => none, bindings := fun _ => none }
  return s

def withBudget (function : CheckedBody) (types : TypeFacts) (budget : Nat) : LastUses :=
  match analyzeUses function types budget with
  | none => LastUses.default
  | some s =>
    { reads := fun key => s.reads key == some true
      bindings := fun key => s.bindings key == some true }

def analyze (function : CheckedBody) (types : TypeFacts) : LastUses :=
  withBudget function types lastUseBudget

end Tsuzuri
