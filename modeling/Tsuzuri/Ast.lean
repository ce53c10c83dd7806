import Tsuzuri.Basic

/-!
# Parsed programs

The syntax trees of the parser (`syntax.rs`), with the integers at the widths of the source.
-/

namespace Tsuzuri.Ast

abbrev U8 := BitVec 8
abbrev U16 := BitVec 16
abbrev U32 := BitVec 32
abbrev U64 := BitVec 64
abbrev U128 := BitVec 128
abbrev Usize := BitVec 64

structure Span where
  start : Usize
  finish : Usize
  source : Option Usize
deriving Inhabited

inductive StringLiteral where
  | utf16 (units : List U16)
  | utf8 (text : String)

inductive SourceKind where
  | code | typeClass | computation
deriving DecidableEq

inductive Visibility where
  | pub | priv
deriving DecidableEq

inductive ContractKind where
  | requires | ensures
deriving DecidableEq

inductive RangeOp where
  | bare | closed | opened
deriving DecidableEq

inductive FixLevel where
  | certain | likely | unavailable
deriving DecidableEq

inductive NoncanonicalKind where
  | bareRange | shortSuffix | symbolicBorrow | symbolicDeref | symbolicReferenceType | legacyLambda
deriving DecidableEq

inductive Recursion where
  | none | letRec | letAnd
deriving DecidableEq

inductive DeriveClass where
  | eq | ord | display | hash | default | encode | decode | arbitrary
deriving DecidableEq

inductive MatchOrigin where
  | explicit | functionGuard | lambdaDestructuring | computationDestructuring
deriving DecidableEq

/-- How a borrow or a dereference is written. -/
inductive Spelling where
  | symbol | keyword
deriving DecidableEq

inductive FormatAlign where
  | left | right | center
deriving DecidableEq

inductive FormatKind where
  | lowerHex | upperHex | octal | binary | exponent | fixed
deriving DecidableEq

inductive EffectKind where
  | noAlloc | noCopy | noTrap | terminates

structure Ident where
  text : String
  span : Span
  provenance : Provenance

structure DynTypeExpr where
  classes : List Ident
  borrowed : Bool

mutual

structure TypeExpr where
  kind : TypeExprKind
  span : Span

inductive TypeExprKind where
  | named (name : String)
  | variable (name : String)
  | apply (head : Ident) (arguments : List TypeExpr)
  | regions (ty : TypeExpr) (regions : List Ident)
  | quantified (regions : List Ident) (ty : TypeExpr)
  | array (element : TypeExpr)
  | arrayView (element : TypeExpr)
  | fixedArray (element length : TypeExpr)
  | length (length : U64)
  | list (element : TypeExpr)
  | tuple (elements : List TypeExpr)
  | function (parameters : List TypeExpr) (result : TypeExpr)
  | reference (target : TypeExpr) (mutable : Bool)
  | own (ty : TypeExpr)
  | mutable (ty : TypeExpr)
  | pure (ty : TypeExpr)
  | dyn (ty : DynTypeExpr)

end

/-! ## Expressions and patterns -/

structure FormatSpec where
  fill : Char
  align : Option FormatAlign
  plus : Bool
  width : U16
  precision : Option U16
  kind : Option FormatKind
  span : Span

mutual

structure Expr where
  kind : ExprKind
  span : Span
  depth : Usize

inductive ExprKind where
  | integer (value : U128) (suffix : Option String)
  | bigInt (digits : String)
  | float (text : String) (suffix : Option String)
  | string (literal : StringLiteral)
  | char (unit : U16)
  | utf8Char (scalar : U32)
  | bool (value : Bool)
  | unit
  | breakLoop
  | continueLoop
  | hole (name : Option Ident)
  | name (name : Ident)
  | qualifiedFunction (name : Ident)
  | typeFunction (ty function : Ident)
  | unary (op : UnaryOp) (value : Expr)
  | binary (op : BinaryOp) (left right : Expr)
  | call (callee : Expr) (arguments : List Expr)
  | lambda (parameters : List (Ident × Bool)) (body : Expr)
  | routine (body : Expr)
  | select (arms : List SelectArm)
  | computation (builder : Ident) (block : ComputationBlock)
  | computationBoundary (value : Expr)
  | ifElse (condition thenBranch elseBranch : Expr)
  | whileDo (condition body : Expr)
  | forIn (pattern : Pattern) (source body : Expr)
  | range (start : Expr) (step : Option Expr) (finish : Expr) (counted descending : Bool) (op : RangeOp)
  | matchWith (value : Expr) (arms : List MatchArm) (origin : MatchOrigin)
  | tryWith (handled : TryExpr)
  | checked (value : Expr)
  | block (bindings : List Binding) (result : Expr)
  | record (name : Ident) (fields : List (Ident × Expr))
  | recordUpdate (base : Expr) (fields : List (Ident × Expr))
  | array (values : List Expr)
  | list (values : List Expr)
  | tuple (values : List Expr)
  | newArray (ty : TypeExpr) (length initializer : Expr)
  | newList (ty : TypeExpr) (length initializer : Expr)
  | newLiteral (value : Expr)
  | field (value : Expr) (field : Ident)
  | index (value index : Expr)
  | slice (value : Expr) (start finish : Option Expr) (mutable : Bool) (op : RangeOp)
  | borrow (value : Expr) (mutable : Bool) (spelling : Spelling)
  | dereference (value : Expr) (spelling : Spelling)
  | assign (target value : Expr)
  | cast (value : Expr) (ty : TypeExpr)
  | interpolated (interpolation : Interpolation)
  | dynDispatch (slot slots : U32)

structure Interpolation where
  texts : List StringLiteral
  holes : List InterpolationHole

structure InterpolationHole where
  value : Expr
  spec : Option FormatSpec

structure TryExpr where
  body : Expr
  arms : List MatchArm
  finish : Option Expr

structure MatchArm where
  pattern : Pattern
  guard : Option Expr
  body : Expr
  span : Span

structure SelectArm where
  head : SelectHead
  guard : Option Expr
  body : Expr
  span : Span

inductive SelectHead where
  | recv (name : Ident) (channel : Expr)
  | send (value channel : Expr)
  | default

structure Binding where
  name : Ident
  mutable : Bool
  isUsing : Bool
  recursion : Recursion
  annotated : Option TypeExpr
  value : Expr

structure Pattern where
  kind : PatternKind
  span : Span
  depth : Usize

inductive PatternKind where
  | wildcard
  | binding (name : Ident)
  | apply (name : Ident) (arguments : List Pattern)
  | argument (value : Expr)
  | literal (value : Expr)
  | tuple (elements : List Pattern)
  | record (name : Option Ident) (fields : List (Ident × Pattern))
  | array (elements : List Pattern)
  | list (elements : List Pattern)
  | cons (head tail : Pattern)
  | or (left right : Pattern)
  | and (left right : Pattern)
  | as (pattern : Pattern) (name : Ident)
  | annotated (pattern : Pattern) (ty : TypeExpr)

structure ComputationBlock where
  statements : List ComputationStatement
  span : Span
  depth : Usize

structure ComputationStatement where
  kind : ComputationStatementKind
  span : Span

inductive ComputationStatementKind where
  | letIn (binding : Binding) (bang : Bool)
  | letAnd (bindings : List Binding)
  | matchWith (value : Expr) (arms : List ComputationMatchArm)
  | doBang (value : Expr)
  | operation (operation : String) (value : Expr)
  | ifElse (condition : Expr) (thenBlock : ComputationBlock) (elseBlock : Option ComputationBlock)
  | forIn (pattern : Pattern) (source : Expr) (body : ComputationBlock)
  | whileDo (condition : Expr) (body : ComputationBlock)
  | expression (value : Expr)

structure ComputationMatchArm where
  pattern : Pattern
  guard : Option Expr
  body : ComputationBlock
  span : Span

end

instance : Inhabited Expr := ⟨.unit, default, 0⟩

/-! ## Declarations -/

structure Documentation where
  text : String
  span : Span

structure JsonName where
  units : List U16
  span : Span

structure Parameter where
  name : Ident
  ty : TypeExpr
  mutable : Bool
  json : Option JsonName

inductive ConstraintName where
  | className (name : Ident)
  | function (name : Ident) (ty : Option TypeExpr)

structure ConstraintExpr where
  name : ConstraintName
  ty : TypeExpr

structure NamespaceDecl where
  path : Ident
  span : Span

structure TypeAliasDecl where
  doc : Option Documentation
  visibility : Visibility
  name : Ident
  parameters : List Ident
  target : TypeExpr

structure ConstDecl where
  doc : Option Documentation
  visibility : Visibility
  name : Ident
  ty : TypeExpr
  value : Expr

structure RecordDecl where
  doc : Option Documentation
  visibility : Visibility
  name : Ident
  parameters : List Ident
  regions : List Ident
  fields : List Parameter
  derives : List (DeriveClass × Span)

structure UnionCaseDecl where
  name : Ident
  payload : Option TypeExpr
  json : Option JsonName

structure UnionDecl where
  doc : Option Documentation
  visibility : Visibility
  name : Ident
  parameters : List Ident
  cases : List UnionCaseDecl
  derives : List (DeriveClass × Span)

structure ContractClause where
  kind : ContractKind
  binder : Option Ident
  condition : Expr
  text : String
  span : Span

structure FunctionDecl where
  doc : Option Documentation
  name : Ident
  regions : List Ident
  recursion : Option String
  visibility : Visibility
  exported : Bool
  constant : Bool
  pure : Bool
  parameters : List Parameter
  result : TypeExpr
  constraints : List ConstraintExpr
  body : Expr
  contracts : List ContractClause

structure LinkName where
  moduleName : Option (String × Span)
  symbol : String
  span : Span

structure SignatureDecl where
  doc : Option Documentation
  name : Ident
  regions : List Ident
  recursion : Option String
  visibility : Visibility
  exported : Bool
  constant : Bool
  pure : Bool
  parameters : List TypeExpr
  result : TypeExpr
  constraints : List ConstraintExpr
  link : Option LinkName

structure ExternTypeDecl where
  doc : Option Documentation
  visibility : Visibility
  name : Ident

structure Definition where
  name : Ident
  pure : Bool
  recursion : Option String
  parameters : List (Ident × Bool)
  body : Expr

inductive Kind where
  | type
  | arrow (argument result : Kind)

structure ClassDecl where
  doc : Option Documentation
  name : Ident
  classVariable : Ident
  kind : Kind
  superclasses : List ConstraintExpr
  methods : List SignatureDecl
  defaults : List Definition

structure InstanceDecl where
  className : Ident
  ty : TypeExpr
  constraints : List ConstraintExpr
  methods : List Definition

structure ActivePattern where
  cases : List Ident
  function : String
  isPartial : Bool

structure TestDecl where
  name : String
  nameSpan : Span
  body : Expr
  span : Span

structure BenchDecl where
  name : String
  nameSpan : Span
  body : Expr
  span : Span

structure CpuAttribute where
  function : Ident
  levels : U8

structure EffectAttribute where
  function : Ident
  kind : EffectKind
  span : Span

structure TrustedAttribute where
  target : Ident
  properties : U8
  span : Span

structure TextEdit where
  span : Span
  text : String

structure Noncanonical where
  kind : NoncanonicalKind
  span : Span
  spelling : String
  canonical : String
  level : FixLevel
  edits : List TextEdit

structure Program where
  sourceKind : Option SourceKind
  namespaceDecl : Option NamespaceDecl
  usings : List NamespaceDecl
  typeAliases : List TypeAliasDecl
  constants : List ConstDecl
  externs : List SignatureDecl
  externTypes : List ExternTypeDecl
  records : List RecordDecl
  unions : List UnionDecl
  functions : List FunctionDecl
  classes : List ClassDecl
  instances : List InstanceDecl
  activePatterns : List ActivePattern
  tests : List TestDecl
  benches : List BenchDecl
  entry : Option Expr
  dynTypes : List TypeExpr
  cpuAttributes : List CpuAttribute
  effectAttributes : List EffectAttribute
  trusted : List TrustedAttribute
  noncanonical : List Noncanonical
  aliases : List Ident
  declarationStarts : List Usize

/-- The properties that `@trusted` knows. -/
def trustedProperties : List String := ["pure", "no_alloc", "no_copy", "no_trap", "terminates"]

end Tsuzuri.Ast
