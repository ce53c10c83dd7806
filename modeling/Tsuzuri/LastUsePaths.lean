import Mathlib
import Tsuzuri.ControlPaths
import Tsuzuri.LastUse

/-!
# The paths that last uses are about

What a path through a function body does with the locals: it reads them, looks at them, and stores into them.
-/

namespace Tsuzuri

open ControlPaths

inductive UseEvent where
  | read (e : TypedExpr) (id : Nat)
  | look (id : Nat)
  | write (id : Nat)

/-- `sub` is `e` or stands somewhere in it. -/
inductive Within : TypedExpr → TypedExpr → Prop
  | refl (e : TypedExpr) : Within e e
  | child {e c sub : TypedExpr} (hc : c ∈ e.children) (h : Within c sub) : Within e sub

abbrev UseTask := Control TypedExpr UseEvent

def opaqueTask (e : TypedExpr) : UseTask :=
  .region (fun
      | .read sub id => Within e sub ∧ sub.kind = .localVar id
      | .look id => ∃ sub, Within e sub ∧ sub.kind = .localVar id
      | .write _ => True)
    (fun
      | .breaks => ∃ sub, Within e sub ∧ sub.kind = .breakLoop
      | .continues => ∃ sub, Within e sub ∧ sub.kind = .continueLoop
      | _ => False)

def bindingsTask : List (Local × TypedExpr) → UseTask
  | [] => .skip
  | (binding, value) :: bindings =>
    .seq (opaqueTask value) (.seq (.emit (.write binding.id)) (bindingsTask bindings))

def stepsTask (success fail : UseTask) : List PatternStep → UseTask
  | [] => success
  | .bind binding value :: steps =>
    .seq (opaqueTask value) (.seq (.emit (.write binding.id)) (stepsTask success fail steps))
  | .test value :: steps => .seq (opaqueTask value) (.choice (stepsTask success fail steps) fail)

/-- The pattern variables take their values after the guard ran. -/
def acceptTask (arm : TypedMatchArm) (next : UseTask) (alternative : PatternAlternative) :
    UseTask :=
  match arm.guard with
  | none => .seq (bindingsTask alternative.bindings) (.eval arm.body)
  | some guard =>
    .seq (bindingsTask alternative.bindings) (.seq (opaqueTask guard)
      (.choice (.seq (bindingsTask alternative.bindings) (.eval arm.body)) next))

def alternativesTask (arm : TypedMatchArm) (next : UseTask) : List PatternAlternative → UseTask
  | [] => next
  | alternative :: alternatives =>
    stepsTask (acceptTask arm next alternative) (alternativesTask arm next alternatives) alternative.steps

def armsTask : List TypedMatchArm → UseTask
  | [] => .leave .stopped
  | arm :: arms => alternativesTask arm (armsTask arms) arm.alternatives

def blockTask (result : UseTask) : List (Local × TypedExpr) → UseTask
  | [] => result
  | (binding, value) :: bindings =>
    .seq (.eval value) (.seq (.emit (.write binding.id)) (blockTask result bindings))

def assignTask (place : TypedExpr) : UseTask :=
  match place.kind with
  | .localVar id => .emit (.write id)
  | _ => opaqueTask place

def subjectTask (value : TypedExpr) : UseTask :=
  match value.kind with
  | .localVar id => .emit (.look id)
  | _ => .eval value

def useControl (e : TypedExpr) : UseTask :=
  match e.kind with
  | .int _ | .float _ | .string _ | .bool _ | .unit | .function _ | .static _ | .error
  | .construct _ _ none => .skip
  | .localVar id => .emit (.read e id)
  | .unary _ value | .cast value | .saturatingIndex value | .checked value
  | .construct _ _ (some value) => .eval value
  | .binary .and a b | .binary .or a b => .seq (.eval a) (.choice .skip (.eval b))
  | .binary .pipe _ _ => opaqueTask e
  | .binary _ a b => .all [.eval a, .eval b]
  | .call callee arguments => .all ((callee :: arguments).map .eval)
  | .record fields => .all ((fields.map Prod.snd).map .eval)
  | .tuple values | .array values | .list values | .closure _ values => .all (values.map .eval)
  | .assign place value => .seq (.eval value) (assignTask place)
  | .block bindings result => blockTask (.eval result) bindings
  | .ifElse condition thenBranch elseBranch =>
    .seq (.eval condition) (.choice (.eval thenBranch) (.eval elseBranch))
  | .whileDo condition body => .loop (.eval condition) (.eval body)
  | .forRange counter start step finish body _ _ =>
    .seq (.all [.eval start, .eval step, .eval finish]) (.loop .skip (.seq (.emit (.write counter.id)) (.eval body)))
  | .forEach owner item source body =>
    .seq (opaqueTask source) (.seq (.emit (.write owner.id)) (.loop .skip (.seq (.emit (.write item.id)) (.eval body))))
  | .breakLoop => .leave .breaks
  | .continueLoop => .leave .continues
  | .matchWith subject value arms =>
    .seq (subjectTask value) (.seq (.emit (.write subject.id)) (armsTask arms))
  | _ => opaqueTask e

def UseEvent.reads (id : Nat) : UseEvent → Prop
  | .read _ id' | .look id' => id' = id
  | .write _ => False

def TakenAt (types : TypeFacts) (uses : LastUses) (e : TypedExpr) : Prop :=
  uses.movesRead e = true ∧ types.isCopy e.ty = true ∧ types.needsDrop e.ty = true

def MovesLast (types : TypeFacts) (uses : LastUses) (evs : List UseEvent) : Prop :=
  ∀ pre e id mid event post, evs = pre ++ .read e id :: (mid ++ event :: post) →
    event.reads id → .write id ∉ mid → ¬ TakenAt types uses e

end Tsuzuri
