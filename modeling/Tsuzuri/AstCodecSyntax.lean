import Tsuzuri.AstCodecLaws

/-!
# The laws of recursive syntax

The codecs of one level are lawful over lawful codecs below it, with one rule for every constructor.
-/

namespace Tsuzuri.Ast

open WireFormat

/-! ## Syntax without recursion -/

instance : Normal Ident := ⟨fun k x => x.mapSpan k.span⟩

instance : Lawful Ident where
  reads hc x :=
    .bind (reads_plain hc x.text) <| .bind (reads hc x.span) <|
    .last (reads_plain hc x.provenance)
  writes _ _ :=
    Trail.start.field fun _ _ t => t.field fun _ _ t => t.last fun _ _ => id

instance : Filled Ident := ⟨fun c r h => bind_starved (starved c r h)⟩

instance : Normal StringLiteral := ⟨fun _ x => x⟩
instance : Plain StringLiteral := ⟨fun _ _ => rfl⟩

instance : Lawful StringLiteral where
  reads hc x := by
    cases x with
    | utf16 units => exact .bind forward_byte (.last (reads_plain hc units))
    | utf8 text => exact .bind forward_byte (.last (reads_plain hc text))
  writes _ _ := by
    refine .bind (ensures_byte.imp fun tag r₁ h => ?_)
    split
    · exact ensures_field fun _ _ h₁ => .pure (h.bind h₁)
    · exact ensures_field fun _ _ h₁ => .pure (h.bind h₁)
    · exact ensures_invalid

instance : Filled StringLiteral := ⟨fun _ _ h => bind_starved (getByte_starved h)⟩

instance : Normal FormatSpec := ⟨fun k x => x.mapSpan k.span⟩

instance : Lawful FormatSpec where
  reads hc x :=
    .bind (reads_plain hc x.fill) <| .bind (reads_plain hc x.align) <|
    .bind (reads_plain hc x.plus) <| .bind (reads_plain hc x.width) <|
    .bind (reads_plain hc x.precision) <| .bind (reads_plain hc x.kind) <| .last (reads hc x.span)
  writes _ _ :=
    Trail.start.field fun _ _ t => t.field fun _ _ t => t.field fun _ _ t => t.field fun _ _ t =>
    t.field fun _ _ t => t.field fun _ _ t => t.last fun _ _ => id

instance : Normal DynTypeExpr := ⟨fun k x => x.mapSpan k.span⟩

instance : Lawful DynTypeExpr where
  reads hc x :=
    .bind (reads hc x.classes) <| .last (reads_plain hc x.borrowed)
  writes _ _ :=
    Trail.start.field fun _ _ t => t.last fun _ _ => id

theorem operation_of_index {index : Usize} {operation : String} (h : operations[index.toNat]? = some operation) :
    operations.idxOf? operation = some index.toNat := by
  obtain ⟨hlt, rfl⟩ := List.getElem?_eq_some_iff.mp h
  generalize index.toNat = n at hlt ⊢
  revert n
  decide

theorem forward_operation {c c' : Context} (hc : c.mode = c'.mode) (operation : String) :
    Forward c c' (putOperation operation) getOperation operation := by
  cases hindex : operations.idxOf? operation with
  | none =>
    intro out out' hrun
    rw [putOperation, hindex] at hrun
    cases hrun
  | some index =>
    obtain ⟨hlt, hget, -⟩ := List.findIdx?_eq_some_iff_getElem.mp hindex
    have hindex64 : (BitVec.ofNat 64 index).toNat = index :=
      Nat.mod_eq_of_lt (lt_trans hlt (by decide))
    rw [putOperation, hindex]
    refine .finish (reads_plain hc (BitVec.ofNat 64 index : Usize)) ?_
    rw [hindex64, List.getElem?_eq_getElem hlt, eq_of_beq hget]

theorem ensures_operation {c : Context} {r : Reader} :
    Ensures c getOperation r fun operation r' => Parsed c (putOperation operation) r r' := by
  refine ensures_field fun (index : Usize) r₁ h => ?_
  split
  · rename_i operation hoperation
    refine .pure ?_
    rw [putOperation, operation_of_index hoperation]
    show Parsed c (put (BitVec.ofNat 64 index.toNat : Usize)) r r₁
    rw [BitVec.ofNat_toNat, BitVec.setWidth_eq]
    exact h
  · exact ensures_invalid

/-! ## One level -/

instance : Normal Kind := ⟨fun _ x => x⟩
instance : Plain Kind := ⟨fun _ _ => rfl⟩

instance : Normal TypeExpr := ⟨fun k x => x.mapSpan k.span⟩
instance : Normal TypeExprKind := ⟨fun k x => x.mapSpan k.span⟩
instance : Normal Expr := ⟨fun k x => x.mapSpan k.span⟩
instance : Normal ExprKind := ⟨fun k x => x.mapSpan k.span⟩
instance : Normal Interpolation := ⟨fun k x => x.mapSpan k.span⟩
instance : Normal InterpolationHole := ⟨fun k x => x.mapSpan k.span⟩
instance : Normal TryExpr := ⟨fun k x => x.mapSpan k.span⟩
instance : Normal MatchArm := ⟨fun k x => x.mapSpan k.span⟩
instance : Normal SelectArm := ⟨fun k x => x.mapSpan k.span⟩
instance : Normal SelectHead := ⟨fun k x => x.mapSpan k.span⟩
instance : Normal Binding := ⟨fun k x => x.mapSpan k.span⟩
instance : Normal Pattern := ⟨fun k x => x.mapSpan k.span⟩
instance : Normal PatternKind := ⟨fun k x => x.mapSpan k.span⟩
instance : Normal ComputationBlock := ⟨fun k x => x.mapSpan k.span⟩
instance : Normal ComputationStatement := ⟨fun k x => x.mapSpan k.span⟩
instance : Normal ComputationStatementKind := ⟨fun k x => x.mapSpan k.span⟩
instance : Normal ComputationMatchArm := ⟨fun k x => x.mapSpan k.span⟩

/-- The codecs below a level are lawful. -/
class LawfulNested [Nested] : Prop where
  kind : Lawful Kind
  typeExpr : Lawful TypeExpr
  expr : Lawful Expr
  pattern : Lawful Pattern
  block : Lawful ComputationBlock
  filledTypeExpr : Filled TypeExpr
  filledExpr : Filled Expr
  filledPattern : Filled Pattern

section Level

variable [Nested] [n : LawfulNested]

instance : Lawful Kind := n.kind
instance : Lawful TypeExpr := n.typeExpr
instance : Lawful Expr := n.expr
instance : Lawful Pattern := n.pattern
instance : Lawful ComputationBlock := n.block
instance : Filled TypeExpr := n.filledTypeExpr
instance : Filled Expr := n.filledExpr
instance : Filled Pattern := n.filledPattern

instance : Lawful TypeExprKind where
  reads hc x := by
    show Forward _ _ _ _ (x.mapSpan _)
    match x with
    | .named a | .variable a | .length a =>
      rw [TypeExprKind.mapSpan]
      exact .bind forward_byte <| .last (reads_plain hc a)
    | .apply a b | .function a b =>
      rw [TypeExprKind.mapSpan, TypeExpr.mapSpanList_eq]
      exact .bind forward_byte <| .bind (reads hc a) <| .last (reads hc b)
    | .regions a b | .quantified a b | .fixedArray a b =>
      rw [TypeExprKind.mapSpan]
      exact .bind forward_byte <| .bind (reads hc a) <| .last (reads hc b)
    | .array a | .arrayView a | .list a | .own a | .mutable a | .pure a | .dyn a =>
      rw [TypeExprKind.mapSpan]
      exact .bind forward_byte <| .last (reads hc a)
    | .tuple elements =>
      rw [TypeExprKind.mapSpan, TypeExpr.mapSpanList_eq]
      exact .bind forward_byte <| .last (reads hc elements)
    | .reference target mutable =>
      rw [TypeExprKind.mapSpan]
      exact .bind forward_byte <| .bind (reads hc target) <| .last (reads_plain hc mutable)
  writes _ _ := by
    refine .bind (ensures_byte.imp fun tag r₁ h => ?_)
    split
    any_goals exact ensures_invalid
    any_goals exact ensures_field fun _ _ h₁ => .pure (h.bind h₁)
    all_goals
      exact (Trail.start.next h).field fun _ _ t => t.last fun _ _ => id

instance : Filled TypeExprKind := ⟨fun _ _ h => bind_starved (getByte_starved h)⟩

instance : Lawful InterpolationHole where
  reads hc x := by
    obtain ⟨value, spec⟩ := x
    show Forward _ _ _ _ (InterpolationHole.mapSpan _ _)
    rw [InterpolationHole.mapSpan]
    exact .bind (reads hc value) <| .last (reads hc spec)
  writes _ _ :=
    Trail.start.field fun _ _ t => t.last fun _ _ => id

instance : Filled InterpolationHole := ⟨fun c r h => bind_starved (starved c r h)⟩

instance : Lawful Interpolation where
  reads hc x := by
    obtain ⟨texts, holes⟩ := x
    show Forward _ _ _ _ (Interpolation.mapSpan _ _)
    rw [Interpolation.mapSpan, InterpolationHole.mapSpanList_eq]
    exact .bind (reads_plain hc texts) <| .last (reads hc holes)
  writes _ _ :=
    Trail.start.field fun _ _ t => t.last fun _ _ => id

instance : Filled Interpolation := ⟨fun c r h => bind_starved (starved c r h)⟩

instance : Lawful MatchArm where
  reads hc x := by
    obtain ⟨pattern, guard, body, span⟩ := x
    show Forward _ _ _ _ (MatchArm.mapSpan _ _)
    rw [MatchArm.mapSpan, Expr.mapSpanOption_eq]
    exact .bind (reads hc pattern) <| .bind (reads hc guard) <| .bind (reads hc body) <|
    .last (reads hc span)
  writes _ _ :=
    Trail.start.field fun _ _ t => t.field fun _ _ t => t.field fun _ _ t => t.last fun _ _ => id

instance : Filled MatchArm := ⟨fun c r h => bind_starved (starved c r h)⟩

instance : Lawful TryExpr where
  reads hc x := by
    obtain ⟨body, arms, finish⟩ := x
    show Forward _ _ _ _ (TryExpr.mapSpan _ _)
    rw [TryExpr.mapSpan, MatchArm.mapSpanList_eq, Expr.mapSpanOption_eq]
    exact .bind (reads hc body) <| .bind (reads hc arms) <| .last (reads hc finish)
  writes _ _ :=
    Trail.start.field fun _ _ t => t.field fun _ _ t => t.last fun _ _ => id

instance : Filled TryExpr := ⟨fun c r h => bind_starved (starved c r h)⟩

instance : Lawful SelectHead where
  reads hc x := by
    show Forward _ _ _ _ (x.mapSpan _)
    match x with
    | .recv a b | .send a b =>
      rw [SelectHead.mapSpan]
      exact .bind forward_byte <| .bind (reads hc a) <| .last (reads hc b)
    | .default =>
      rw [SelectHead.mapSpan]
      exact .finish forward_byte rfl
  writes _ _ := by
    refine .bind (ensures_byte.imp fun tag r₁ h => ?_)
    split
    any_goals exact ensures_invalid
    any_goals exact .pure h
    all_goals
      exact (Trail.start.next h).field fun _ _ t => t.last fun _ _ => id

instance : Filled SelectHead := ⟨fun _ _ h => bind_starved (getByte_starved h)⟩

instance : Lawful SelectArm where
  reads hc x := by
    obtain ⟨head, guard, body, span⟩ := x
    show Forward _ _ _ _ (SelectArm.mapSpan _ _)
    rw [SelectArm.mapSpan, Expr.mapSpanOption_eq]
    exact .bind (reads hc head) <| .bind (reads hc guard) <| .bind (reads hc body) <|
    .last (reads hc span)
  writes _ _ :=
    Trail.start.field fun _ _ t => t.field fun _ _ t => t.field fun _ _ t => t.last fun _ _ => id

instance : Filled SelectArm := ⟨fun c r h => bind_starved (starved c r h)⟩

instance : Lawful Binding where
  reads hc x := by
    obtain ⟨name, mutable, isUsing, recursion, annotated, value⟩ := x
    show Forward _ _ _ _ (Binding.mapSpan _ _)
    rw [Binding.mapSpan]
    exact .bind (reads hc name) <| .bind (reads_plain hc mutable) <|
    .bind (reads_plain hc isUsing) <| .bind (reads_plain hc recursion) <|
    .bind (reads hc annotated) <| .last (reads hc value)
  writes _ _ :=
    Trail.start.field fun _ _ t => t.field fun _ _ t => t.field fun _ _ t => t.field fun _ _ t =>
    t.field fun _ _ t => t.last fun _ _ => id

instance : Filled Binding := ⟨fun c r h => bind_starved (starved c r h)⟩

instance : Lawful ExprKind where
  reads hc x := by
    show Forward _ _ _ _ (x.mapSpan _)
    match x with
    | .integer a b | .float a b | .dynDispatch a b =>
      rw [ExprKind.mapSpan]
      exact .bind forward_byte <| .bind (reads_plain hc a) <| .last (reads_plain hc b)
    | .bigInt a | .string a | .char a | .utf8Char a | .bool a =>
      rw [ExprKind.mapSpan]
      exact .bind forward_byte <| .last (reads_plain hc a)
    | .unit | .breakLoop | .continueLoop =>
      rw [ExprKind.mapSpan]
      exact .finish forward_byte rfl
    | .hole a | .name a | .qualifiedFunction a | .routine a | .computationBoundary a | .tryWith a
    | .checked a | .newLiteral a | .interpolated a =>
      rw [ExprKind.mapSpan]
      exact .bind forward_byte <| .last (reads hc a)
    | .typeFunction a b | .lambda a b | .computation a b | .whileDo a b | .field a b | .index a b
    | .assign a b | .cast a b =>
      rw [ExprKind.mapSpan]
      exact .bind forward_byte <| .bind (reads hc a) <| .last (reads hc b)
    | .unary op value =>
      rw [ExprKind.mapSpan]
      exact .bind forward_byte <| .bind (reads_plain hc op) <| .last (reads hc value)
    | .binary op left right =>
      rw [ExprKind.mapSpan]
      exact .bind forward_byte <| .bind (reads_plain hc op) <| .bind (reads hc left) <|
      .last (reads hc right)
    | .call callee arguments =>
      rw [ExprKind.mapSpan, Expr.mapSpanList_eq]
      exact .bind forward_byte <| .bind (reads hc callee) <| .last (reads hc arguments)
    | .select arms =>
      rw [ExprKind.mapSpan, SelectArm.mapSpanList_eq]
      exact .bind forward_byte <| .last (reads hc arms)
    | .ifElse a b c | .forIn a b c | .newArray a b c | .newList a b c =>
      rw [ExprKind.mapSpan]
      exact .bind forward_byte <| .bind (reads hc a) <| .bind (reads hc b) <|
      .last (reads hc c)
    | .range start step finish counted descending op =>
      rw [ExprKind.mapSpan, Expr.mapSpanOption_eq]
      exact .bind forward_byte <| .bind (reads hc start) <| .bind (reads hc step) <|
      .bind (reads hc finish) <| .bind (reads_plain hc counted) <|
      .bind (reads_plain hc descending) <| .last (reads_plain hc op)
    | .matchWith value arms origin =>
      rw [ExprKind.mapSpan, MatchArm.mapSpanList_eq]
      exact .bind forward_byte <| .bind (reads hc value) <| .bind (reads hc arms) <|
      .last (reads_plain hc origin)
    | .block bindings result =>
      rw [ExprKind.mapSpan, Binding.mapSpanList_eq]
      exact .bind forward_byte <| .bind (reads hc bindings) <| .last (reads hc result)
    | .record a b | .recordUpdate a b =>
      rw [ExprKind.mapSpan, Expr.mapSpanFields_eq]
      exact .bind forward_byte <| .bind (reads hc a) <| .last (reads hc b)
    | .array a | .list a | .tuple a =>
      rw [ExprKind.mapSpan, Expr.mapSpanList_eq]
      exact .bind forward_byte <| .last (reads hc a)
    | .slice value start finish mutable op =>
      rw [ExprKind.mapSpan, Expr.mapSpanOption_eq, Expr.mapSpanOption_eq]
      exact .bind forward_byte <| .bind (reads hc value) <| .bind (reads hc start) <|
      .bind (reads hc finish) <| .bind (reads_plain hc mutable) <| .last (reads_plain hc op)
    | .borrow value mutable spelling =>
      rw [ExprKind.mapSpan]
      exact .bind forward_byte <| .bind (reads hc value) <| .bind (reads_plain hc mutable) <|
      .last (reads_plain hc spelling)
    | .dereference value spelling =>
      rw [ExprKind.mapSpan]
      exact .bind forward_byte <| .bind (reads hc value) <| .last (reads_plain hc spelling)
  writes _ _ := by
    refine .bind (ensures_byte.imp fun tag r₁ h => ?_)
    split
    any_goals exact ensures_invalid
    any_goals exact .pure h
    any_goals exact ensures_field fun _ _ h₁ => .pure (h.bind h₁)
    any_goals
      exact (Trail.start.next h).field fun _ _ t => t.last fun _ _ => id
    any_goals
      exact (Trail.start.next h).field fun _ _ t => t.field fun _ _ t => t.last fun _ _ => id
    any_goals
      exact (Trail.start.next h).field fun _ _ t => t.field fun _ _ t => t.field fun _ _ t =>
      t.field fun _ _ t => t.last fun _ _ => id
    all_goals
      exact (Trail.start.next h).field fun _ _ t => t.field fun _ _ t => t.field fun _ _ t =>
      t.field fun _ _ t => t.field fun _ _ t => t.last fun _ _ => id

instance : Filled ExprKind := ⟨fun _ _ h => bind_starved (getByte_starved h)⟩

instance : Lawful PatternKind where
  reads hc x := by
    show Forward _ _ _ _ (x.mapSpan _)
    match x with
    | .wildcard =>
      rw [PatternKind.mapSpan]
      exact .finish forward_byte rfl
    | .binding a | .argument a | .literal a =>
      rw [PatternKind.mapSpan]
      exact .bind forward_byte <| .last (reads hc a)
    | .apply name arguments =>
      rw [PatternKind.mapSpan, Pattern.mapSpanList_eq]
      exact .bind forward_byte <| .bind (reads hc name) <| .last (reads hc arguments)
    | .tuple a | .array a | .list a =>
      rw [PatternKind.mapSpan, Pattern.mapSpanList_eq]
      exact .bind forward_byte <| .last (reads hc a)
    | .record name fields =>
      rw [PatternKind.mapSpan, Pattern.mapSpanFields_eq]
      exact .bind forward_byte <| .bind (reads hc name) <| .last (reads hc fields)
    | .cons a b | .or a b | .and a b | .as a b | .annotated a b =>
      rw [PatternKind.mapSpan]
      exact .bind forward_byte <| .bind (reads hc a) <| .last (reads hc b)
  writes _ _ := by
    refine .bind (ensures_byte.imp fun tag r₁ h => ?_)
    split
    any_goals exact ensures_invalid
    any_goals exact .pure h
    any_goals exact ensures_field fun _ _ h₁ => .pure (h.bind h₁)
    all_goals
      exact (Trail.start.next h).field fun _ _ t => t.last fun _ _ => id

instance : Filled PatternKind := ⟨fun _ _ h => bind_starved (getByte_starved h)⟩

instance : Lawful ComputationMatchArm where
  reads hc x := by
    obtain ⟨pattern, guard, body, span⟩ := x
    show Forward _ _ _ _ (ComputationMatchArm.mapSpan _ _)
    rw [ComputationMatchArm.mapSpan, Expr.mapSpanOption_eq]
    exact .bind (reads hc pattern) <| .bind (reads hc guard) <| .bind (reads hc body) <|
    .last (reads hc span)
  writes _ _ :=
    Trail.start.field fun _ _ t => t.field fun _ _ t => t.field fun _ _ t => t.last fun _ _ => id

instance : Filled ComputationMatchArm := ⟨fun c r h => bind_starved (starved c r h)⟩

instance : Lawful ComputationStatementKind where
  reads hc x := by
    show Forward _ _ _ _ (x.mapSpan _)
    match x with
    | .letIn binding bang =>
      rw [ComputationStatementKind.mapSpan]
      exact .bind forward_byte <| .bind (reads hc binding) <| .last (reads_plain hc bang)
    | .letAnd bindings =>
      rw [ComputationStatementKind.mapSpan, Binding.mapSpanList_eq]
      exact .bind forward_byte <| .last (reads hc bindings)
    | .matchWith value arms =>
      rw [ComputationStatementKind.mapSpan, ComputationMatchArm.mapSpanList_eq]
      exact .bind forward_byte <| .bind (reads hc value) <| .last (reads hc arms)
    | .doBang a | .expression a =>
      rw [ComputationStatementKind.mapSpan]
      exact .bind forward_byte <| .last (reads hc a)
    | .operation operation value =>
      rw [ComputationStatementKind.mapSpan]
      exact .bind forward_byte <| .bind (forward_operation hc operation) <|
      .last (reads hc value)
    | .ifElse condition thenBlock elseBlock =>
      rw [ComputationStatementKind.mapSpan, ComputationBlock.mapSpanOption_eq]
      exact .bind forward_byte <| .bind (reads hc condition) <| .bind (reads hc thenBlock) <|
      .last (reads hc elseBlock)
    | .forIn pattern source body =>
      rw [ComputationStatementKind.mapSpan]
      exact .bind forward_byte <| .bind (reads hc pattern) <| .bind (reads hc source) <|
      .last (reads hc body)
    | .whileDo condition body =>
      rw [ComputationStatementKind.mapSpan]
      exact .bind forward_byte <| .bind (reads hc condition) <| .last (reads hc body)
  writes _ _ := by
    refine .bind (ensures_byte.imp fun tag r₁ h => ?_)
    split
    any_goals exact ensures_invalid
    any_goals exact ensures_field fun _ _ h₁ => .pure (h.bind h₁)
    any_goals
      exact (Trail.start.next h).field fun _ _ t => t.last fun _ _ => id
    any_goals
      exact .bind <| ensures_operation.imp fun _ _ h₁ => ensures_field fun _ _ h₂ =>
        .pure (h.bind (h₁.bind h₂))
    all_goals
      exact (Trail.start.next h).field fun _ _ t => t.field fun _ _ t => t.last fun _ _ => id

instance : Filled ComputationStatementKind := ⟨fun _ _ h => bind_starved (getByte_starved h)⟩

instance : Lawful ComputationStatement where
  reads hc x := by
    obtain ⟨kind, span⟩ := x
    show Forward _ _ _ _ (ComputationStatement.mapSpan _ _)
    rw [ComputationStatement.mapSpan]
    exact .bind (reads hc kind) <| .last (reads hc span)
  writes _ _ :=
    Trail.start.field fun _ _ t => t.last fun _ _ => id

instance : Filled ComputationStatement := ⟨fun c r h => bind_starved (starved c r h)⟩

theorem lawful_step_kind : @Lawful Kind Nested.step.kind _ := by
  refine @Lawful.mk _ Nested.step.kind _ (fun hc x => ?_) fun _ _ => ?_
  · cases x with
    | type => exact .finish forward_byte rfl
    | arrow argument result =>
      exact .bind forward_byte <| .bind (reads_plain hc argument) <|
        .last (reads_plain hc result)
  · refine .bind (ensures_byte.imp fun tag r₁ h => ?_)
    split
    · exact .pure h
    · exact (Trail.start.next h).field fun _ _ t => t.last fun _ _ => id
    · exact ensures_invalid

theorem lawful_step_typeExpr : @Lawful TypeExpr Nested.step.typeExpr _ := by
  refine @Lawful.mk _ Nested.step.typeExpr _ (fun hc x => ?_) fun _ _ => ?_
  · obtain ⟨kind, span⟩ := x
    show Forward _ _ _ _ (TypeExpr.mapSpan _ _)
    rw [TypeExpr.mapSpan]
    exact .bind (reads hc kind) <| .last (reads hc span)
  · exact Trail.start.field fun _ _ t => t.last fun _ _ => id

theorem lawful_step_expr : @Lawful Expr Nested.step.expr _ := by
  refine @Lawful.mk _ Nested.step.expr _ (fun hc x => ?_) fun _ _ => ?_
  · obtain ⟨kind, span, depth⟩ := x
    show Forward _ _ _ _ (Expr.mapSpan _ _)
    rw [Expr.mapSpan]
    exact .bind (reads hc kind) <| .bind (reads hc span) <| .last (reads_plain hc depth)
  · exact Trail.start.field fun _ _ t => t.field fun _ _ t => t.last fun _ _ => id

theorem lawful_step_pattern : @Lawful Pattern Nested.step.pattern _ := by
  refine @Lawful.mk _ Nested.step.pattern _ (fun hc x => ?_) fun _ _ => ?_
  · obtain ⟨kind, span, depth⟩ := x
    show Forward _ _ _ _ (Pattern.mapSpan _ _)
    rw [Pattern.mapSpan]
    exact .bind (reads hc kind) <| .bind (reads hc span) <| .last (reads_plain hc depth)
  · exact Trail.start.field fun _ _ t => t.field fun _ _ t => t.last fun _ _ => id

theorem lawful_step_block : @Lawful ComputationBlock Nested.step.block _ := by
  refine @Lawful.mk _ Nested.step.block _ (fun hc x => ?_) fun _ _ => ?_
  · obtain ⟨statements, span, depth⟩ := x
    show Forward _ _ _ _ (ComputationBlock.mapSpan _ _)
    rw [ComputationBlock.mapSpan, ComputationStatement.mapSpanList_eq]
    exact .bind (reads hc statements) <| .bind (reads hc span) <| .last (reads_plain hc depth)
  · exact Trail.start.field fun _ _ t => t.field fun _ _ t => t.last fun _ _ => id

theorem lawfulNested_step : @LawfulNested Nested.step :=
  @LawfulNested.mk Nested.step lawful_step_kind lawful_step_typeExpr lawful_step_expr
    lawful_step_pattern lawful_step_block
    (@Filled.mk _ Nested.step.typeExpr fun c r h => bind_starved (starved c r h))
    (@Filled.mk _ Nested.step.expr fun c r h => bind_starved (starved c r h))
    (@Filled.mk _ Nested.step.pattern fun c r h => bind_starved (starved c r h))

end Level

theorem lawful_shut {α : Type} [Normal α] : @Lawful α (shut α) _ :=
  letI := shut α
  { reads := fun _ _ _ _ hrun => nomatch hrun
    writes := fun _ _ => ensures_invalid }

theorem filled_shut {α : Type} : @Filled α (shut α) :=
  letI := shut α
  ⟨fun _ _ _ => rfl⟩

theorem lawfulNested (room : Nat) : @LawfulNested (nested room) := by
  induction room with
  | zero =>
    exact @LawfulNested.mk (nested 0) lawful_shut lawful_shut lawful_shut lawful_shut lawful_shut
      filled_shut filled_shut filled_shut
  | succ room ih => exact @lawfulNested_step (nested room) ih

end Tsuzuri.Ast
