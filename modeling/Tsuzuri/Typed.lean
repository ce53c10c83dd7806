import Tsuzuri.Types

/-!
# Typed expressions

The expression trees that the checker produces (`check.rs`) and that every later pass reads.
-/

namespace Tsuzuri

/-- A local variable as it is declared. -/
structure Local where
  id : Nat
  ty : Ty
  name : String
  mutable : Bool
  span : Span
  provenance : Provenance

/-- The functions of the compiler itself that a pass looks at by name. -/
inductive Builtin where
  | parallelInit
  | parallelMap
  | parallelMapRef
  | parallelReduce
  | parallelForEachChunk
  | other (index : Nat)

inductive FunctionRef where
  | user (id : Nat)
  | builtin (builtin : Builtin) (types : List Ty)

mutual

structure TypedExpr where
  kind : TypedExprKind
  ty : Ty
  span : Span

inductive TypedExprKind where
  | error
  | int (bits : Nat)
  | float (bits : String)
  | string (text : StringLiteral)
  | bool (value : Bool)
  | unit
  | breakLoop
  | continueLoop
  | localVar (id : Nat)
  | static (id : Nat)
  | function (function : FunctionRef)
  | genericFunction (id : Nat) (types : List Ty)
  | method (classId methodId : Nat) (receiver : Ty)
  | typeFunction (receiver : Ty) (name moduleName : String)
  | genericInteger (magnitude : Nat) (minus : Bool)
  | genericFloat (text : String)
  | unary (operator : UnaryOp) (operand : TypedExpr)
  | binary (operator : BinaryOp) (left right : TypedExpr)
  | call (callee : TypedExpr) (arguments : List TypedExpr)
  | hostCall (symbol : String) (arguments : List TypedExpr)
  | lambda (parameters captures : List Local) (body : TypedExpr) (owned : Bool) (recursive : List Local)
  | closure (function : Nat) (captures : List TypedExpr)
  | routineGo (body : TypedExpr)
  | selectWait (arms : List SelectWaitArm) (default : Option Nat)
  | parallel (builtin : Builtin) (arguments : List TypedExpr)
  | structuralCompare (operator : BinaryOp) (values : List TypedExpr)
  | structuralHash (values : List TypedExpr)
  | structuralDisplay (values : List TypedExpr)
  | interpolated (holes : List TypedHole)
  | ifElse (condition thenBranch elseBranch : TypedExpr)
  | whileDo (condition body : TypedExpr)
  | forRange (counter : Local) (start step finish body : TypedExpr) (descending exclusive : Bool)
  | forEach (owner item : Local) (source body : TypedExpr)
  | matchWith (subject : Local) (value : TypedExpr) (arms : List TypedMatchArm)
  | block (bindings : List (Local × TypedExpr)) (result : TypedExpr)
  | record (fields : List (Nat × TypedExpr))
  | recordUpdate (base : TypedExpr) (fields : List (Nat × TypedExpr))
  | array (elements : List TypedExpr)
  | list (elements : List TypedExpr)
  | tuple (elements : List TypedExpr)
  | listTail (value : TypedExpr) (count : Nat)
  | newArray (length value : TypedExpr)
  | newList (length value : TypedExpr)
  | newLiteral (literal : TypedExpr)
  | field (value : TypedExpr) (index : Nat)
  | index (value index : TypedExpr)
  | slice (value : TypedExpr) (start finish : Option TypedExpr)
  | length (value : TypedExpr)
  | stringLength (value : TypedExpr)
  | borrow (value : TypedExpr) (mutable : Bool)
  | borrowOperand (value : TypedExpr)
  | dereference (value : TypedExpr)
  | assign (place value : TypedExpr)
  | cast (value : TypedExpr)
  | saturatingIndex (value : TypedExpr)
  | caseConstructor (unionId caseId : Nat) (args : List Ty)
  | construct (unionId caseId : Nat) (payload : Option TypedExpr)
  | unionTag (value : TypedExpr)
  | unionPayload (value : TypedExpr) (caseId : Nat)
  | checked (value : TypedExpr)
  | tryWith (body handler : TypedExpr) (finish : Option TypedExpr)
  | raisedException
  | reraise
  | dynDispatch (slot slots : Nat)

/-- A step of a pattern test: a condition, or a local bound before the next
step. -/
inductive PatternStep where
  | test (value : TypedExpr)
  | bind (binding : Local) (value : TypedExpr)

structure PatternAlternative where
  steps : List PatternStep
  bindings : List (Local × TypedExpr)

structure TypedMatchArm where
  alternatives : List PatternAlternative
  guard : Option TypedExpr
  body : TypedExpr
  /-- The bindings that view the matched storage instead of owning a value. -/
  borrowed : List Nat

structure TypedHole where
  operand : TypedExpr
  method : Option TypedExpr

structure SelectWaitArm where
  guard : Option TypedExpr
  channel : TypedExpr
  send : Option TypedExpr

end

namespace PatternStep

def expression : PatternStep → TypedExpr
  | .test value => value
  | .bind _ value => value

end PatternStep

namespace TypedExpr

def children (e : TypedExpr) : List TypedExpr :=
  match e.kind with
  | .unary _ value | .borrow value _ | .borrowOperand value | .dereference value
  | .cast value | .saturatingIndex value | .field value _ | .length value
  | .stringLength value | .routineGo value | .newLiteral value | .unionTag value
  | .checked value | .unionPayload value _ | .listTail value _ => [value]
  | .construct _ _ payload => payload.toList
  | .tryWith body handler finish => [body, handler] ++ finish.toList
  | .binary _ a b | .assign a b | .index a b | .newArray a b | .newList a b
  | .whileDo a b | .forEach _ _ a b => [a, b]
  | .forRange _ start step finish body _ _ => [start, step, finish, body]
  | .call callee arguments => callee :: arguments
  | .lambda _ _ body _ _ => [body]
  | .ifElse condition thenBranch elseBranch => [condition, thenBranch, elseBranch]
  | .matchWith _ value arms =>
    value :: arms.flatMap fun arm =>
      (arm.alternatives.flatMap fun alternative =>
        alternative.steps.map PatternStep.expression ++ alternative.bindings.map Prod.snd)
      ++ arm.guard.toList ++ [arm.body]
  | .block bindings result => bindings.map Prod.snd ++ [result]
  | .record fields => fields.map Prod.snd
  | .slice value start finish => value :: (start.toList ++ finish.toList)
  | .recordUpdate base fields => base :: fields.map Prod.snd
  | .array values | .hostCall _ values | .list values | .tuple values
  | .closure _ values | .parallel _ values | .structuralCompare _ values
  | .structuralHash values | .structuralDisplay values => values
  | .interpolated holes => holes.flatMap fun hole => hole.operand :: hole.method.toList
  | .selectWait arms _ =>
    arms.flatMap fun arm => arm.guard.toList ++ [arm.channel] ++ arm.send.toList
  | .error | .int _ | .float _ | .string _ | .bool _ | .unit | .breakLoop | .continueLoop
  | .localVar _ | .static _ | .function _ | .genericFunction .. | .method ..
  | .typeFunction .. | .genericInteger .. | .genericFloat _ | .caseConstructor ..
  | .raisedException | .reraise | .dynDispatch .. => []

end TypedExpr

end Tsuzuri
