import Tsuzuri.AstCodecSound

/-!
# What an interface encoding leaves out

An interface encoding does not see positions, nor the source that they are in, so a program has one whichever source
it is parsed as.
-/

namespace Tsuzuri.Ast

open WireFormat

def Same (c c' : Context) (p p' : PutM Context Unit) : Prop := p' c' = p c

/-- An interface encoding does not see what `normal` changes. -/
class Blind (α : Type) [Wire α] [Normal α] : Prop where
  blind {c c' : Context} (hc : c.mode ≠ .full ∧ c'.mode ≠ .full) (k : Keep) (a : α) :
    Same c c' (put a) (put (normal k a))

export Blind (blind)

section Rules

variable {c c' : Context} {p p' q q' : PutM Context Unit}

theorem same_refl (h : p c' = p c := by rfl) : Same c c' p p := h

theorem Same.bind (h : Same c c' p p') (h' : Same c c' q q') : Same c c' (p >>= fun _ => q) (p' >>= fun _ => q') := by
  funext out
  show (p' c' out).bind (fun x => q' c' x.2) = (p c out).bind fun x => q c x.2
  rw [h, h']

theorem blind_plain {α : Type} [Wire α] [Normal α] [Blind α] [Plain α]
    (hc : c.mode ≠ .full ∧ c'.mode ≠ .full) (a : α) : Same c c' (put a) (put a) := by
  have h := blind hc (c.keep c') a
  rwa [Plain.normal_eq] at h

theorem same_full {α : Type} [Wire α] (hc : c.mode ≠ .full ∧ c'.mode ≠ .full) (a b : α) :
    Same c c' (putFull a) (putFull b) :=
  (if_neg hc.2).trans (if_neg hc.1).symm

theorem same_all {α : Type} {put' : α → PutM Context Unit} {f : α → α} {as : List α}
    (h : ∀ a, Same c c' (put' a) (put' (f a))) : Same c c' (putList put' as) (putList put' (as.map f)) := by
  have hall : Same c c' (putAll put' as) (putAll put' (as.map f)) := by
    induction as with
    | nil => exact same_refl
    | cons a as ih => exact (h a).bind ih
  have hlength : Same c c' (putLength as.length) (putLength (as.map f).length) := by
    rw [List.length_map]
    unfold putLength
    split <;> exact same_refl
  exact hlength.bind hall

end Rules

instance (w : Nat) : Blind (BitVec w) := ⟨fun _ _ _ => same_refl⟩
instance : Blind Bool := ⟨fun _ _ _ => same_refl⟩
instance : Blind Char := ⟨fun _ _ _ => same_refl⟩

instance : Blind String where
  blind {c c'} _ _ a := by
    have hlength : Same c c' (putLength a.toByteArray.data.size) (putLength a.toByteArray.data.size) := by
      unfold putLength
      split <;> exact same_refl
    exact hlength.bind same_refl

instance {α : Type} [UnitEnum α] : @Blind α (unitEnum α) _ :=
  letI := unitEnum α
  ⟨fun _ _ _ => same_refl⟩

section Containers

variable {α β : Type} [Wire α] [Normal α] [Blind α] [Wire β] [Normal β] [Blind β]

instance : Blind (List α) := ⟨fun hc k _ => same_all (blind hc k)⟩

instance : Blind (Option α) where
  blind hc k a := by
    cases a with
    | none => exact same_refl
    | some a => exact .bind same_refl (blind hc k a)

instance : Blind (α × β) := ⟨fun hc k x => .bind (blind hc k x.1) (blind hc k x.2)⟩

end Containers

instance : Blind Span := ⟨fun hc _ _ => (if_neg hc.2).trans (if_neg hc.1).symm⟩

/-! ## Syntax -/

instance : Blind Ident where
  blind hc k x :=
    .bind (blind_plain hc x.text) <| .bind (blind hc k x.span) (blind_plain hc x.provenance)

instance : Blind StringLiteral where
  blind hc k x := by
    cases x with
    | utf16 units => exact .bind same_refl (blind_plain hc units)
    | utf8 text => exact .bind same_refl (blind_plain hc text)

instance : Blind FormatSpec where
  blind hc k x :=
    .bind (blind_plain hc x.fill) <| .bind (blind_plain hc x.align) <|
    .bind (blind_plain hc x.plus) <| .bind (blind_plain hc x.width) <|
    .bind (blind_plain hc x.precision) <| .bind (blind_plain hc x.kind) (blind hc k x.span)

instance : Blind DynTypeExpr where
  blind hc k x :=
    .bind (blind hc k x.classes) (blind_plain hc x.borrowed)

theorem same_operation {c c' : Context} (operation : String) :
    Same c c' (putOperation operation) (putOperation operation) := by
  unfold putOperation
  split <;> exact same_refl

/-- The codecs below a level do not see it either. -/
class BlindNested [Nested] : Prop where
  kind : Blind Kind
  typeExpr : Blind TypeExpr
  expr : Blind Expr
  pattern : Blind Pattern
  block : Blind ComputationBlock

section Level

variable [Nested] [n : BlindNested]

instance : Blind Kind := n.kind
instance : Blind TypeExpr := n.typeExpr
instance : Blind Expr := n.expr
instance : Blind Pattern := n.pattern
instance : Blind ComputationBlock := n.block

instance : Blind TypeExprKind where
  blind hc k x := by
    show Same _ _ (put x) (put (x.mapSpan _))
    match x with
    | .named a | .variable a | .length a =>
      rw [TypeExprKind.mapSpan]
      exact .bind same_refl (blind_plain hc a)
    | .apply a b | .function a b =>
      rw [TypeExprKind.mapSpan, TypeExpr.mapSpanList_eq]
      exact .bind same_refl <| .bind (blind hc k a) (blind hc k b)
    | .regions a b | .quantified a b | .fixedArray a b =>
      rw [TypeExprKind.mapSpan]
      exact .bind same_refl <| .bind (blind hc k a) (blind hc k b)
    | .array a | .arrayView a | .list a | .own a | .mutable a | .pure a | .dyn a =>
      rw [TypeExprKind.mapSpan]
      exact .bind same_refl (blind hc k a)
    | .tuple elements =>
      rw [TypeExprKind.mapSpan, TypeExpr.mapSpanList_eq]
      exact .bind same_refl (blind hc k elements)
    | .reference target mutable =>
      rw [TypeExprKind.mapSpan]
      exact .bind same_refl <| .bind (blind hc k target) (blind_plain hc mutable)

instance : Blind InterpolationHole where
  blind hc k x := by
    obtain ⟨value, spec⟩ := x
    show Same _ _ _ (put (InterpolationHole.mapSpan _ _))
    rw [InterpolationHole.mapSpan]
    exact .bind (blind hc k value) (blind hc k spec)

instance : Blind Interpolation where
  blind hc k x := by
    obtain ⟨texts, holes⟩ := x
    show Same _ _ _ (put (Interpolation.mapSpan _ _))
    rw [Interpolation.mapSpan, InterpolationHole.mapSpanList_eq]
    exact .bind (blind_plain hc texts) (blind hc k holes)

instance : Blind MatchArm where
  blind hc k x := by
    obtain ⟨pattern, guard, body, span⟩ := x
    show Same _ _ _ (put (MatchArm.mapSpan _ _))
    rw [MatchArm.mapSpan, Expr.mapSpanOption_eq]
    exact .bind (blind hc k pattern) <| .bind (blind hc k guard) <| .bind (blind hc k body) (blind hc k span)

instance : Blind TryExpr where
  blind hc k x := by
    obtain ⟨body, arms, finish⟩ := x
    show Same _ _ _ (put (TryExpr.mapSpan _ _))
    rw [TryExpr.mapSpan, MatchArm.mapSpanList_eq, Expr.mapSpanOption_eq]
    exact .bind (blind hc k body) <| .bind (blind hc k arms) (blind hc k finish)

instance : Blind SelectHead where
  blind hc k x := by
    show Same _ _ (put x) (put (x.mapSpan _))
    match x with
    | .recv a b | .send a b =>
      rw [SelectHead.mapSpan]
      exact .bind same_refl <| .bind (blind hc k a) (blind hc k b)
    | .default =>
      rw [SelectHead.mapSpan]
      exact same_refl

instance : Blind SelectArm where
  blind hc k x := by
    obtain ⟨head, guard, body, span⟩ := x
    show Same _ _ _ (put (SelectArm.mapSpan _ _))
    rw [SelectArm.mapSpan, Expr.mapSpanOption_eq]
    exact .bind (blind hc k head) <| .bind (blind hc k guard) <| .bind (blind hc k body) (blind hc k span)

instance : Blind Binding where
  blind hc k x := by
    obtain ⟨name, mutable, isUsing, recursion, annotated, value⟩ := x
    show Same _ _ _ (put (Binding.mapSpan _ _))
    rw [Binding.mapSpan]
    exact .bind (blind hc k name) <| .bind (blind_plain hc mutable) <|
    .bind (blind_plain hc isUsing) <| .bind (blind_plain hc recursion) <|
    .bind (blind hc k annotated) (blind hc k value)

instance : Blind ExprKind where
  blind hc k x := by
    show Same _ _ (put x) (put (x.mapSpan _))
    match x with
    | .integer a b | .float a b | .dynDispatch a b =>
      rw [ExprKind.mapSpan]
      exact .bind same_refl <| .bind (blind_plain hc a) (blind_plain hc b)
    | .bigInt a | .string a | .char a | .utf8Char a | .bool a =>
      rw [ExprKind.mapSpan]
      exact .bind same_refl (blind_plain hc a)
    | .unit | .breakLoop | .continueLoop =>
      rw [ExprKind.mapSpan]
      exact same_refl
    | .hole a | .name a | .qualifiedFunction a | .routine a | .computationBoundary a | .tryWith a
    | .checked a | .newLiteral a | .interpolated a =>
      rw [ExprKind.mapSpan]
      exact .bind same_refl (blind hc k a)
    | .typeFunction a b | .lambda a b | .computation a b | .whileDo a b | .field a b | .index a b
    | .assign a b | .cast a b =>
      rw [ExprKind.mapSpan]
      exact .bind same_refl <| .bind (blind hc k a) (blind hc k b)
    | .unary op value =>
      rw [ExprKind.mapSpan]
      exact .bind same_refl <| .bind (blind_plain hc op) (blind hc k value)
    | .binary op left right =>
      rw [ExprKind.mapSpan]
      exact .bind same_refl <| .bind (blind_plain hc op) <| .bind (blind hc k left) (blind hc k right)
    | .call callee arguments =>
      rw [ExprKind.mapSpan, Expr.mapSpanList_eq]
      exact .bind same_refl <| .bind (blind hc k callee) (blind hc k arguments)
    | .select arms =>
      rw [ExprKind.mapSpan, SelectArm.mapSpanList_eq]
      exact .bind same_refl (blind hc k arms)
    | .ifElse a b c | .forIn a b c | .newArray a b c | .newList a b c =>
      rw [ExprKind.mapSpan]
      exact .bind same_refl <| .bind (blind hc k a) <| .bind (blind hc k b) (blind hc k c)
    | .range start step finish counted descending op =>
      rw [ExprKind.mapSpan, Expr.mapSpanOption_eq]
      exact .bind same_refl <| .bind (blind hc k start) <| .bind (blind hc k step) <|
      .bind (blind hc k finish) <| .bind (blind_plain hc counted) <|
      .bind (blind_plain hc descending) (blind_plain hc op)
    | .matchWith value arms origin =>
      rw [ExprKind.mapSpan, MatchArm.mapSpanList_eq]
      exact .bind same_refl <| .bind (blind hc k value) <| .bind (blind hc k arms) (blind_plain hc origin)
    | .block bindings result =>
      rw [ExprKind.mapSpan, Binding.mapSpanList_eq]
      exact .bind same_refl <| .bind (blind hc k bindings) (blind hc k result)
    | .record a b | .recordUpdate a b =>
      rw [ExprKind.mapSpan, Expr.mapSpanFields_eq]
      exact .bind same_refl <| .bind (blind hc k a) (blind hc k b)
    | .array a | .list a | .tuple a =>
      rw [ExprKind.mapSpan, Expr.mapSpanList_eq]
      exact .bind same_refl (blind hc k a)
    | .slice value start finish mutable op =>
      rw [ExprKind.mapSpan, Expr.mapSpanOption_eq, Expr.mapSpanOption_eq]
      exact .bind same_refl <| .bind (blind hc k value) <| .bind (blind hc k start) <|
      .bind (blind hc k finish) <| .bind (blind_plain hc mutable) (blind_plain hc op)
    | .borrow value mutable spelling =>
      rw [ExprKind.mapSpan]
      exact .bind same_refl <| .bind (blind hc k value) <| .bind (blind_plain hc mutable) (blind_plain hc spelling)
    | .dereference value spelling =>
      rw [ExprKind.mapSpan]
      exact .bind same_refl <| .bind (blind hc k value) (blind_plain hc spelling)

instance : Blind PatternKind where
  blind hc k x := by
    show Same _ _ (put x) (put (x.mapSpan _))
    match x with
    | .wildcard =>
      rw [PatternKind.mapSpan]
      exact same_refl
    | .binding a | .argument a | .literal a =>
      rw [PatternKind.mapSpan]
      exact .bind same_refl (blind hc k a)
    | .apply name arguments =>
      rw [PatternKind.mapSpan, Pattern.mapSpanList_eq]
      exact .bind same_refl <| .bind (blind hc k name) (blind hc k arguments)
    | .tuple a | .array a | .list a =>
      rw [PatternKind.mapSpan, Pattern.mapSpanList_eq]
      exact .bind same_refl (blind hc k a)
    | .record name fields =>
      rw [PatternKind.mapSpan, Pattern.mapSpanFields_eq]
      exact .bind same_refl <| .bind (blind hc k name) (blind hc k fields)
    | .cons a b | .or a b | .and a b | .as a b | .annotated a b =>
      rw [PatternKind.mapSpan]
      exact .bind same_refl <| .bind (blind hc k a) (blind hc k b)

instance : Blind ComputationMatchArm where
  blind hc k x := by
    obtain ⟨pattern, guard, body, span⟩ := x
    show Same _ _ _ (put (ComputationMatchArm.mapSpan _ _))
    rw [ComputationMatchArm.mapSpan, Expr.mapSpanOption_eq]
    exact .bind (blind hc k pattern) <| .bind (blind hc k guard) <| .bind (blind hc k body) (blind hc k span)

instance : Blind ComputationStatementKind where
  blind hc k x := by
    show Same _ _ (put x) (put (x.mapSpan _))
    match x with
    | .letIn binding bang =>
      rw [ComputationStatementKind.mapSpan]
      exact .bind same_refl <| .bind (blind hc k binding) (blind_plain hc bang)
    | .letAnd bindings =>
      rw [ComputationStatementKind.mapSpan, Binding.mapSpanList_eq]
      exact .bind same_refl (blind hc k bindings)
    | .matchWith value arms =>
      rw [ComputationStatementKind.mapSpan, ComputationMatchArm.mapSpanList_eq]
      exact .bind same_refl <| .bind (blind hc k value) (blind hc k arms)
    | .doBang a | .expression a =>
      rw [ComputationStatementKind.mapSpan]
      exact .bind same_refl (blind hc k a)
    | .operation operation value =>
      rw [ComputationStatementKind.mapSpan]
      exact .bind same_refl <| .bind (same_operation operation) (blind hc k value)
    | .ifElse condition thenBlock elseBlock =>
      rw [ComputationStatementKind.mapSpan, ComputationBlock.mapSpanOption_eq]
      exact .bind same_refl <| .bind (blind hc k condition) <| .bind (blind hc k thenBlock) (blind hc k elseBlock)
    | .forIn pattern source body =>
      rw [ComputationStatementKind.mapSpan]
      exact .bind same_refl <| .bind (blind hc k pattern) <| .bind (blind hc k source) (blind hc k body)
    | .whileDo condition body =>
      rw [ComputationStatementKind.mapSpan]
      exact .bind same_refl <| .bind (blind hc k condition) (blind hc k body)

instance : Blind ComputationStatement where
  blind hc k x := by
    obtain ⟨kind, span⟩ := x
    show Same _ _ _ (put (ComputationStatement.mapSpan _ _))
    rw [ComputationStatement.mapSpan]
    exact .bind (blind hc k kind) (blind hc k span)

theorem blind_step_kind : @Blind Kind Nested.step.kind _ := by
  refine @Blind.mk _ Nested.step.kind _ fun hc k x => ?_
  cases x with
  | type => exact same_refl
  | arrow argument result =>
    exact .bind same_refl <| .bind (blind_plain hc argument) (blind_plain hc result)

theorem blind_step_typeExpr : @Blind TypeExpr Nested.step.typeExpr _ := by
  refine @Blind.mk _ Nested.step.typeExpr _ fun hc k x => ?_
  obtain ⟨kind, span⟩ := x
  show Same _ _ (@put _ Nested.step.typeExpr _) (@put _ Nested.step.typeExpr (TypeExpr.mapSpan _ _))
  rw [TypeExpr.mapSpan]
  exact .bind (blind hc k kind) (blind hc k span)

theorem blind_step_expr : @Blind Expr Nested.step.expr _ := by
  refine @Blind.mk _ Nested.step.expr _ fun hc k x => ?_
  obtain ⟨kind, span, depth⟩ := x
  show Same _ _ (@put _ Nested.step.expr _) (@put _ Nested.step.expr (Expr.mapSpan _ _))
  rw [Expr.mapSpan]
  exact .bind (blind hc k kind) <| .bind (blind hc k span) (blind_plain hc depth)

theorem blind_step_pattern : @Blind Pattern Nested.step.pattern _ := by
  refine @Blind.mk _ Nested.step.pattern _ fun hc k x => ?_
  obtain ⟨kind, span, depth⟩ := x
  show Same _ _ (@put _ Nested.step.pattern _) (@put _ Nested.step.pattern (Pattern.mapSpan _ _))
  rw [Pattern.mapSpan]
  exact .bind (blind hc k kind) <| .bind (blind hc k span) (blind_plain hc depth)

theorem blind_step_block : @Blind ComputationBlock Nested.step.block _ := by
  refine @Blind.mk _ Nested.step.block _ fun hc k x => ?_
  obtain ⟨statements, span, depth⟩ := x
  show Same _ _ (@put _ Nested.step.block _) (@put _ Nested.step.block (ComputationBlock.mapSpan _ _))
  rw [ComputationBlock.mapSpan, ComputationStatement.mapSpanList_eq]
  exact .bind (blind hc k statements) <| .bind (blind hc k span) (blind_plain hc depth)

theorem blindNested_step : @BlindNested Nested.step :=
  @BlindNested.mk Nested.step blind_step_kind blind_step_typeExpr blind_step_expr blind_step_pattern blind_step_block

end Level

theorem blind_shut {α : Type} [Normal α] : @Blind α (shut α) _ :=
  letI := shut α
  ⟨fun _ _ _ => same_refl⟩

theorem blindNested (room : Nat) : @BlindNested (nested room) := by
  induction room with
  | zero => exact @BlindNested.mk (nested 0) blind_shut blind_shut blind_shut blind_shut blind_shut
  | succ room ih => exact @blindNested_step (nested room) ih

/-! ## Declarations -/

instance : Blind Documentation where
  blind hc k x :=
    .bind (blind_plain hc x.text) (blind hc k x.span)

instance : Blind JsonName where
  blind hc k x :=
    .bind (blind_plain hc x.units) (blind hc k x.span)

instance : Blind NamespaceDecl where
  blind hc k x :=
    .bind (blind hc k x.path) (blind hc k x.span)

instance : Blind LinkName where
  blind hc k x :=
    .bind (blind hc k x.moduleName) <| .bind (blind_plain hc x.symbol) (blind hc k x.span)

instance : Blind ActivePattern where
  blind hc k x :=
    .bind (blind hc k x.cases) <| .bind (blind_plain hc x.function) (blind_plain hc x.isPartial)

instance : Blind CpuAttribute where
  blind hc k x :=
    .bind (blind hc k x.function) (blind_plain hc x.levels)

instance : Blind EffectAttribute where
  blind hc k x := by
    obtain ⟨function, kind, span⟩ := x
    cases kind <;> exact .bind (blind hc k function) <| .bind same_refl (blind hc k span)

instance : Blind TextEdit where
  blind hc k x :=
    .bind (blind hc k x.span) (blind_plain hc x.text)

instance : Blind Noncanonical where
  blind hc k x :=
    .bind (blind_plain hc x.kind) <| .bind (blind hc k x.span) <|
    .bind (blind_plain hc x.spelling) <| .bind (blind_plain hc x.canonical) <|
    .bind (blind_plain hc x.level) (blind hc k x.edits)

instance : Blind ExternTypeDecl where
  blind hc k x :=
    .bind (same_full hc x.doc _) <| .bind (blind_plain hc x.visibility) (blind hc k x.name)

instance : Blind TrustedAttribute where
  blind hc k x := .bind (blind hc k x.target) <| .bind same_refl (blind hc k x.span)

section Declarations

variable [Nested]

theorem same_methods {c c' : Context} (hc : c.mode ≠ .full ∧ c'.mode ≠ .full) (k : Keep)
    (methods : List Definition) : Same c c' (putMethods methods) (putMethods (k.methods methods)) := by
  have hhead : ∀ x : Definition, Same c c' x.putHead { normal k x with body := k.part x.body }.putHead := fun x =>
    .bind (blind hc k x.name) <| .bind (blind_plain hc x.pure) <|
    .bind (blind_plain hc x.recursion) (blind hc k x.parameters)
  exact (if_neg hc.2).trans ((same_all hhead).trans (if_neg hc.1).symm)

variable [BlindNested]

instance : Blind Parameter where
  blind hc k x :=
    .bind (blind hc k x.name) <| .bind (blind hc k x.ty) <| .bind (blind_plain hc x.mutable) (blind hc k x.json)

instance : Blind ConstraintName where
  blind hc k x := by
    cases x with
    | className name => exact .bind same_refl (blind hc k name)
    | function name ty => exact .bind same_refl <| .bind (blind hc k name) (blind hc k ty)

instance : Blind ConstraintExpr where
  blind hc k x :=
    .bind (blind hc k x.name) (blind hc k x.ty)

instance : Blind TypeAliasDecl where
  blind hc k x :=
    .bind (same_full hc x.doc _) <| .bind (blind_plain hc x.visibility) <|
    .bind (blind hc k x.name) <| .bind (blind hc k x.parameters) (blind hc k x.target)

instance : Blind ConstDecl where
  blind hc k x :=
    .bind (same_full hc x.doc _) <| .bind (blind_plain hc x.visibility) <|
    .bind (blind hc k x.name) <| .bind (blind hc k x.ty) (blind hc k x.value)

instance : Blind RecordDecl where
  blind hc k x :=
    .bind (same_full hc x.doc _) <| .bind (blind_plain hc x.visibility) <|
    .bind (blind hc k x.name) <| .bind (blind hc k x.parameters) <| .bind (blind hc k x.regions) <|
    .bind (blind hc k x.fields) (blind hc k x.derives)

instance : Blind UnionCaseDecl where
  blind hc k x :=
    .bind (blind hc k x.name) <| .bind (blind hc k x.payload) (blind hc k x.json)

instance : Blind UnionDecl where
  blind hc k x :=
    .bind (same_full hc x.doc _) <| .bind (blind_plain hc x.visibility) <|
    .bind (blind hc k x.name) <| .bind (blind hc k x.parameters) <| .bind (blind hc k x.cases) (blind hc k x.derives)

instance : Blind ContractClause where
  blind hc k x :=
    .bind (blind_plain hc x.kind) <| .bind (blind hc k x.binder) <| .bind (blind hc k x.condition) <|
    .bind (blind_plain hc x.text) (blind hc k x.span)

instance : Blind FunctionDecl where
  blind hc k x :=
    .bind (same_full hc x.doc _) <| .bind (blind hc k x.name) <| .bind (blind hc k x.regions) <|
    .bind (blind_plain hc x.recursion) <| .bind (blind_plain hc x.visibility) <|
    .bind (blind_plain hc x.exported) <| .bind (blind_plain hc x.constant) <|
    .bind (blind_plain hc x.pure) <| .bind (blind hc k x.parameters) <| .bind (blind hc k x.result) <|
    .bind (blind hc k x.constraints) <| .bind (same_full hc x.body _) (same_full hc x.contracts _)

instance : Blind SignatureDecl where
  blind hc k x :=
    .bind (same_full hc x.doc _) <| .bind (blind hc k x.name) <| .bind (blind hc k x.regions) <|
    .bind (blind_plain hc x.recursion) <| .bind (blind_plain hc x.visibility) <|
    .bind (blind_plain hc x.exported) <| .bind (blind_plain hc x.constant) <|
    .bind (blind_plain hc x.pure) <| .bind (blind hc k x.parameters) <| .bind (blind hc k x.result) <|
    .bind (blind hc k x.constraints) (blind hc k x.link)

instance : Blind Definition where
  blind hc k x :=
    .bind (blind hc k x.name) <| .bind (blind_plain hc x.pure) <|
    .bind (blind_plain hc x.recursion) <| .bind (blind hc k x.parameters) (blind hc k x.body)

instance : Blind ClassDecl where
  blind hc k x :=
    .bind (same_full hc x.doc _) <| .bind (blind hc k x.name) <|
    .bind (blind hc k x.classVariable) <| .bind (blind_plain hc x.kind) <|
    .bind (blind hc k x.superclasses) <| .bind (blind hc k x.methods) (blind hc k x.defaults)

instance : Blind InstanceDecl where
  blind hc k x :=
    .bind (blind hc k x.className) <| .bind (blind hc k x.ty) <| .bind (blind hc k x.constraints)
    (same_methods hc k x.methods)

instance : Blind TestDecl where
  blind hc k x :=
    .bind (blind_plain hc x.name) <| .bind (blind hc k x.nameSpan) <| .bind (blind hc k x.body) (blind hc k x.span)

instance : Blind BenchDecl where
  blind hc k x :=
    .bind (blind_plain hc x.name) <| .bind (blind hc k x.nameSpan) <| .bind (blind hc k x.body) (blind hc k x.span)

instance : Blind Program where
  blind hc k x :=
    .bind (blind_plain hc x.sourceKind) <| .bind (blind hc k x.namespaceDecl) <|
    .bind (blind hc k x.usings) <| .bind (blind hc k x.typeAliases) <| .bind (blind hc k x.constants) <|
    .bind (blind hc k x.externs) <| .bind (blind hc k x.externTypes) <| .bind (blind hc k x.records) <|
    .bind (blind hc k x.unions) <| .bind (blind hc k x.functions) <| .bind (blind hc k x.classes) <|
    .bind (blind hc k x.instances) <| .bind (blind hc k x.activePatterns) <|
    .bind (same_full hc x.tests _) <| .bind (same_full hc x.benches _) <|
    .bind (same_full hc x.entry _) <| .bind (blind hc k x.dynTypes) <|
    .bind (blind hc k x.cpuAttributes) <| .bind (blind hc k x.effectAttributes) <|
    .bind (blind hc k x.trusted) <|
    .bind (blind hc k x.aliases) <|
    .bind (same_full hc x.declarationStarts _) (same_full hc x.noncanonical _)

end Declarations

theorem encode_interface_retag (p : Program) (s t : Usize) :
    encode (p.retag s t) t .interface = encode p s .interface := by
  have := blindNested maxDepth
  let _ := nested maxDepth
  have hmode : Context.mode ⟨.interface, s⟩ ≠ .full ∧ Context.mode ⟨.interface, t⟩ ≠ .full := ⟨nofun, nofun⟩
  exact congrArg (fun run => (run []).map Prod.snd) (blind hmode ⟨Span.retag s t, true⟩ p)

end Tsuzuri.Ast
