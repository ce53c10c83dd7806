import Tsuzuri.Ast

/-!
# Changing the positions of a program

`mapSpan f` applies `f` to every position in a piece of syntax and leaves the
rest as it is.
-/

namespace Tsuzuri.Ast

section MapSpan

variable (f : Span → Span)

def Ident.mapSpan (i : Ident) : Ident := { i with span := f i.span }

def DynTypeExpr.mapSpan (d : DynTypeExpr) : DynTypeExpr :=
  { d with classes := d.classes.map (Ident.mapSpan f) }

mutual

def TypeExpr.mapSpan : TypeExpr → TypeExpr
  | ⟨kind, span⟩ => ⟨kind.mapSpan, f span⟩

def TypeExprKind.mapSpan : TypeExprKind → TypeExprKind
  | .named name => .named name
  | .variable name => .variable name
  | .apply head arguments => .apply (head.mapSpan f) (TypeExpr.mapSpanList arguments)
  | .regions ty regions => .regions ty.mapSpan (regions.map (Ident.mapSpan f))
  | .quantified regions ty => .quantified (regions.map (Ident.mapSpan f)) ty.mapSpan
  | .array element => .array element.mapSpan
  | .arrayView element => .arrayView element.mapSpan
  | .fixedArray element length => .fixedArray element.mapSpan length.mapSpan
  | .length length => .length length
  | .list element => .list element.mapSpan
  | .tuple elements => .tuple (TypeExpr.mapSpanList elements)
  | .function parameters result => .function (TypeExpr.mapSpanList parameters) result.mapSpan
  | .reference target mutable => .reference target.mapSpan mutable
  | .own ty => .own ty.mapSpan
  | .mutable ty => .mutable ty.mapSpan
  | .pure ty => .pure ty.mapSpan
  | .dyn ty => .dyn (ty.mapSpan f)

def TypeExpr.mapSpanList : List TypeExpr → List TypeExpr
  | [] => []
  | ty :: tys => ty.mapSpan :: TypeExpr.mapSpanList tys

end

def FormatSpec.mapSpan (s : FormatSpec) : FormatSpec := { s with span := f s.span }

mutual

def Expr.mapSpan : Expr → Expr
  | ⟨kind, span, depth⟩ => ⟨kind.mapSpan, f span, depth⟩

def ExprKind.mapSpan : ExprKind → ExprKind
  | .integer value suffix => .integer value suffix
  | .bigInt digits => .bigInt digits
  | .float text suffix => .float text suffix
  | .string literal => .string literal
  | .char unit => .char unit
  | .utf8Char scalar => .utf8Char scalar
  | .bool value => .bool value
  | .unit => .unit
  | .breakLoop => .breakLoop
  | .continueLoop => .continueLoop
  | .hole name => .hole (name.map (Ident.mapSpan f))
  | .name name => .name (name.mapSpan f)
  | .qualifiedFunction name => .qualifiedFunction (name.mapSpan f)
  | .typeFunction ty function => .typeFunction (ty.mapSpan f) (function.mapSpan f)
  | .unary op value => .unary op value.mapSpan
  | .binary op left right => .binary op left.mapSpan right.mapSpan
  | .call callee arguments => .call callee.mapSpan (Expr.mapSpanList arguments)
  | .lambda parameters body =>
    .lambda (parameters.map (Prod.map (Ident.mapSpan f) id)) body.mapSpan
  | .routine body => .routine body.mapSpan
  | .select arms => .select (SelectArm.mapSpanList arms)
  | .computation builder block => .computation (builder.mapSpan f) block.mapSpan
  | .computationBoundary value => .computationBoundary value.mapSpan
  | .ifElse condition thenBranch elseBranch =>
    .ifElse condition.mapSpan thenBranch.mapSpan elseBranch.mapSpan
  | .whileDo condition body => .whileDo condition.mapSpan body.mapSpan
  | .forIn pattern source body => .forIn pattern.mapSpan source.mapSpan body.mapSpan
  | .range start step finish counted descending op =>
    .range start.mapSpan (Expr.mapSpanOption step) finish.mapSpan counted descending op
  | .matchWith value arms origin => .matchWith value.mapSpan (MatchArm.mapSpanList arms) origin
  | .tryWith handled => .tryWith handled.mapSpan
  | .checked value => .checked value.mapSpan
  | .block bindings result => .block (Binding.mapSpanList bindings) result.mapSpan
  | .record name fields =>
    .record (name.mapSpan f) (Expr.mapSpanFields fields)
  | .recordUpdate base fields =>
    .recordUpdate base.mapSpan (Expr.mapSpanFields fields)
  | .array values => .array (Expr.mapSpanList values)
  | .list values => .list (Expr.mapSpanList values)
  | .tuple values => .tuple (Expr.mapSpanList values)
  | .newArray ty length initializer =>
    .newArray (ty.mapSpan f) length.mapSpan initializer.mapSpan
  | .newList ty length initializer => .newList (ty.mapSpan f) length.mapSpan initializer.mapSpan
  | .newLiteral value => .newLiteral value.mapSpan
  | .field value field => .field value.mapSpan (field.mapSpan f)
  | .index value index => .index value.mapSpan index.mapSpan
  | .slice value start finish mutable op =>
    .slice value.mapSpan (Expr.mapSpanOption start) (Expr.mapSpanOption finish) mutable op
  | .borrow value mutable spelling => .borrow value.mapSpan mutable spelling
  | .dereference value spelling => .dereference value.mapSpan spelling
  | .assign target value => .assign target.mapSpan value.mapSpan
  | .cast value ty => .cast value.mapSpan (ty.mapSpan f)
  | .interpolated interpolation => .interpolated interpolation.mapSpan
  | .dynDispatch slot slots => .dynDispatch slot slots

def Interpolation.mapSpan : Interpolation → Interpolation
  | ⟨texts, holes⟩ => ⟨texts, InterpolationHole.mapSpanList holes⟩

def InterpolationHole.mapSpan : InterpolationHole → InterpolationHole
  | ⟨value, spec⟩ => ⟨value.mapSpan, spec.map (FormatSpec.mapSpan f)⟩

def TryExpr.mapSpan : TryExpr → TryExpr
  | ⟨body, arms, finish⟩ => ⟨body.mapSpan, MatchArm.mapSpanList arms, Expr.mapSpanOption finish⟩

def MatchArm.mapSpan : MatchArm → MatchArm
  | ⟨pattern, guard, body, span⟩ =>
    ⟨pattern.mapSpan, Expr.mapSpanOption guard, body.mapSpan, f span⟩

def SelectArm.mapSpan : SelectArm → SelectArm
  | ⟨head, guard, body, span⟩ => ⟨head.mapSpan, Expr.mapSpanOption guard, body.mapSpan, f span⟩

def SelectHead.mapSpan : SelectHead → SelectHead
  | .recv name channel => .recv (name.mapSpan f) channel.mapSpan
  | .send value channel => .send value.mapSpan channel.mapSpan
  | .default => .default

def Binding.mapSpan : Binding → Binding
  | ⟨name, mutable, isUsing, recursion, annotated, value⟩ =>
    ⟨name.mapSpan f, mutable, isUsing, recursion, annotated.map (TypeExpr.mapSpan f), value.mapSpan⟩

def Pattern.mapSpan : Pattern → Pattern
  | ⟨kind, span, depth⟩ => ⟨kind.mapSpan, f span, depth⟩

def PatternKind.mapSpan : PatternKind → PatternKind
  | .wildcard => .wildcard
  | .binding name => .binding (name.mapSpan f)
  | .apply name arguments => .apply (name.mapSpan f) (Pattern.mapSpanList arguments)
  | .argument value => .argument value.mapSpan
  | .literal value => .literal value.mapSpan
  | .tuple elements => .tuple (Pattern.mapSpanList elements)
  | .record name fields =>
    .record (name.map (Ident.mapSpan f)) (Pattern.mapSpanFields fields)
  | .array elements => .array (Pattern.mapSpanList elements)
  | .list elements => .list (Pattern.mapSpanList elements)
  | .cons head tail => .cons head.mapSpan tail.mapSpan
  | .or left right => .or left.mapSpan right.mapSpan
  | .and left right => .and left.mapSpan right.mapSpan
  | .as pattern name => .as pattern.mapSpan (name.mapSpan f)
  | .annotated pattern ty => .annotated pattern.mapSpan (ty.mapSpan f)

def ComputationBlock.mapSpan : ComputationBlock → ComputationBlock
  | ⟨statements, span, depth⟩ => ⟨ComputationStatement.mapSpanList statements, f span, depth⟩

def ComputationStatement.mapSpan : ComputationStatement → ComputationStatement
  | ⟨kind, span⟩ => ⟨kind.mapSpan, f span⟩

def ComputationStatementKind.mapSpan : ComputationStatementKind → ComputationStatementKind
  | .letIn binding bang => .letIn binding.mapSpan bang
  | .letAnd bindings => .letAnd (Binding.mapSpanList bindings)
  | .matchWith value arms => .matchWith value.mapSpan (ComputationMatchArm.mapSpanList arms)
  | .doBang value => .doBang value.mapSpan
  | .operation operation value => .operation operation value.mapSpan
  | .ifElse condition thenBlock elseBlock =>
    .ifElse condition.mapSpan thenBlock.mapSpan (ComputationBlock.mapSpanOption elseBlock)
  | .forIn pattern source body => .forIn pattern.mapSpan source.mapSpan body.mapSpan
  | .whileDo condition body => .whileDo condition.mapSpan body.mapSpan
  | .expression value => .expression value.mapSpan

def ComputationMatchArm.mapSpan : ComputationMatchArm → ComputationMatchArm
  | ⟨pattern, guard, body, span⟩ =>
    ⟨pattern.mapSpan, Expr.mapSpanOption guard, body.mapSpan, f span⟩

def Expr.mapSpanOption : Option Expr → Option Expr
  | none => none
  | some value => some value.mapSpan

def Expr.mapSpanFields : List (Ident × Expr) → List (Ident × Expr)
  | [] => []
  | (name, value) :: fields => (name.mapSpan f, value.mapSpan) :: Expr.mapSpanFields fields

def Pattern.mapSpanFields : List (Ident × Pattern) → List (Ident × Pattern)
  | [] => []
  | (name, pattern) :: fields => (name.mapSpan f, pattern.mapSpan) :: Pattern.mapSpanFields fields

def ComputationBlock.mapSpanOption : Option ComputationBlock → Option ComputationBlock
  | none => none
  | some block => some block.mapSpan

def Expr.mapSpanList : List Expr → List Expr
  | [] => []
  | value :: values => value.mapSpan :: Expr.mapSpanList values

def SelectArm.mapSpanList : List SelectArm → List SelectArm
  | [] => []
  | arm :: arms => arm.mapSpan :: SelectArm.mapSpanList arms

def MatchArm.mapSpanList : List MatchArm → List MatchArm
  | [] => []
  | arm :: arms => arm.mapSpan :: MatchArm.mapSpanList arms

def Binding.mapSpanList : List Binding → List Binding
  | [] => []
  | binding :: bindings => binding.mapSpan :: Binding.mapSpanList bindings

def Pattern.mapSpanList : List Pattern → List Pattern
  | [] => []
  | pattern :: patterns => pattern.mapSpan :: Pattern.mapSpanList patterns

def InterpolationHole.mapSpanList : List InterpolationHole → List InterpolationHole
  | [] => []
  | hole :: holes => hole.mapSpan :: InterpolationHole.mapSpanList holes

def ComputationStatement.mapSpanList : List ComputationStatement → List ComputationStatement
  | [] => []
  | statement :: statements => statement.mapSpan :: ComputationStatement.mapSpanList statements

def ComputationMatchArm.mapSpanList : List ComputationMatchArm → List ComputationMatchArm
  | [] => []
  | arm :: arms => arm.mapSpan :: ComputationMatchArm.mapSpanList arms

end

@[simp] theorem Expr.mapSpanOption_eq (value : Option Expr) :
    Expr.mapSpanOption f value = value.map (Expr.mapSpan f) := by
  cases value <;> simp [Expr.mapSpanOption]

@[simp] theorem Expr.mapSpanFields_eq (fields : List (Ident × Expr)) :
    Expr.mapSpanFields f fields = fields.map (Prod.map (Ident.mapSpan f) (Expr.mapSpan f)) := by
  induction fields with
  | nil => simp [Expr.mapSpanFields]
  | cons field fields ih =>
    obtain ⟨name, value⟩ := field
    simp [Expr.mapSpanFields, ih]

@[simp] theorem Pattern.mapSpanFields_eq (fields : List (Ident × Pattern)) : Pattern.mapSpanFields f fields
      = fields.map (Prod.map (Ident.mapSpan f) (Pattern.mapSpan f)) := by
  induction fields with
  | nil => simp [Pattern.mapSpanFields]
  | cons field fields ih =>
    obtain ⟨name, pattern⟩ := field
    simp [Pattern.mapSpanFields, ih]

@[simp] theorem ComputationBlock.mapSpanOption_eq (block : Option ComputationBlock) :
    ComputationBlock.mapSpanOption f block = block.map (ComputationBlock.mapSpan f) := by
  cases block <;> simp [ComputationBlock.mapSpanOption]

@[simp] theorem TypeExpr.mapSpanList_eq (tys : List TypeExpr) :
    TypeExpr.mapSpanList f tys = tys.map (TypeExpr.mapSpan f) := by
  induction tys with
  | nil => rfl
  | cons ty tys ih => exact congrArg (ty.mapSpan f :: ·) ih

@[simp] theorem Expr.mapSpanList_eq (values : List Expr) : Expr.mapSpanList f values = values.map (Expr.mapSpan f) := by
  induction values with
  | nil => rfl
  | cons value values ih => exact congrArg (value.mapSpan f :: ·) ih

@[simp] theorem SelectArm.mapSpanList_eq (arms : List SelectArm) :
    SelectArm.mapSpanList f arms = arms.map (SelectArm.mapSpan f) := by
  induction arms with
  | nil => rfl
  | cons arm arms ih => exact congrArg (arm.mapSpan f :: ·) ih

@[simp] theorem MatchArm.mapSpanList_eq (arms : List MatchArm) :
    MatchArm.mapSpanList f arms = arms.map (MatchArm.mapSpan f) := by
  induction arms with
  | nil => rfl
  | cons arm arms ih => exact congrArg (arm.mapSpan f :: ·) ih

@[simp] theorem Binding.mapSpanList_eq (bindings : List Binding) :
    Binding.mapSpanList f bindings = bindings.map (Binding.mapSpan f) := by
  induction bindings with
  | nil => rfl
  | cons binding bindings ih => exact congrArg (binding.mapSpan f :: ·) ih

@[simp] theorem Pattern.mapSpanList_eq (patterns : List Pattern) :
    Pattern.mapSpanList f patterns = patterns.map (Pattern.mapSpan f) := by
  induction patterns with
  | nil => rfl
  | cons pattern patterns ih => exact congrArg (pattern.mapSpan f :: ·) ih

@[simp] theorem InterpolationHole.mapSpanList_eq (holes : List InterpolationHole) :
    InterpolationHole.mapSpanList f holes = holes.map (InterpolationHole.mapSpan f) := by
  induction holes with
  | nil => rfl
  | cons hole holes ih => exact congrArg (hole.mapSpan f :: ·) ih

@[simp] theorem ComputationStatement.mapSpanList_eq (statements : List ComputationStatement) :
    ComputationStatement.mapSpanList f statements = statements.map (ComputationStatement.mapSpan f) := by
  induction statements with
  | nil => rfl
  | cons statement statements ih => exact congrArg (statement.mapSpan f :: ·) ih

@[simp] theorem ComputationMatchArm.mapSpanList_eq (arms : List ComputationMatchArm) :
    ComputationMatchArm.mapSpanList f arms = arms.map (ComputationMatchArm.mapSpan f) := by
  induction arms with
  | nil => rfl
  | cons arm arms ih => exact congrArg (arm.mapSpan f :: ·) ih

end MapSpan

end Tsuzuri.Ast
