import Tsuzuri.AstSpans
import Tsuzuri.WireFormat

/-!
# The binary form of a program

The writers and readers of `syntax_codec.rs`, one pair for each type of syntax, as the instances of
`Wire`.
-/

namespace Tsuzuri.Ast

open WireFormat

def maxDepth : Nat := 4 * maxNesting

inductive Mode where
  | full | interface
deriving DecidableEq

/-- What stays the same over one encoding or decoding. -/
structure Context where
  mode : Mode
  source : Usize

class Wire (α : Type) where
  put : α → PutM Context Unit
  get : GetM Context α

export Wire (put get)

def isFull : GetM Context Bool := return decide ((← read).mode = .full)

def putFull {α : Type} [Wire α] (a : α) : PutM Context Unit := fun c =>
  if c.mode = .full then put a c else pure ()

def getFull {α : Type} [Wire α] [Inhabited α] : GetM Context α := fun c =>
  if c.mode = .full then get c else pure default

instance (w : Nat) : Wire (BitVec w) where
  put x := putNumber x.toNat
  get := do
    let n ← getNumber
    if n < 2 ^ w then return BitVec.ofNat w n else invalid

/-- A length. No sequence has more elements than a `usize` counts. -/
def putLength (n : Nat) : PutM Context Unit := if n < 2 ^ 64 then putNumber n else refuse

def remaining : GetM Context Nat := fun _ r => some (r.bytes.length - r.pos, r)

def getLength : GetM Context Nat := do
  let n ← getNumber
  let left ← remaining
  if 2 ^ 64 ≤ n ∨ left < n then invalid else return n

instance : Wire Bool where
  put x := putByte (if x then 1 else 0)
  get := do
    match ← getByte with
    | 0 => return false
    | 1 => return true
    | _ => invalid

instance : Wire Char where
  put x := put (BitVec.ofNat 32 x.toNat : U32)
  get := do
    let n : U32 ← get
    if n.toNat.isValidChar then return Char.ofNat n.toNat else invalid

instance : Wire String where
  put x := do putLength x.toByteArray.data.size; putBytes x.toByteArray.data.toList
  get := do
    let bytes ← take (← getLength)
    match String.fromUTF8? ⟨bytes.toArray⟩ with
    | some text => return text
    | none => invalid

def putAll {α : Type} (putElement : α → PutM Context Unit) : List α → PutM Context Unit
  | [] => pure ()
  | a :: as => do putElement a; putAll putElement as

def putList {α : Type} (putElement : α → PutM Context Unit) (as : List α) :
    PutM Context Unit := do
  putLength as.length; putAll putElement as

def getAll {α : Type} (getElement : GetM Context α) : Nat → GetM Context (List α)
  | 0 => return []
  | n + 1 => return (← getElement) :: (← getAll getElement n)

def getList {α : Type} (getElement : GetM Context α) : GetM Context (List α) := do
  getAll getElement (← getLength)

instance {α : Type} [Wire α] : Wire (List α) where
  put as := putList put as
  get := getList get

instance {α : Type} [Wire α] : Wire (Option α) where
  put
    | none => putByte 0
    | some a => do putByte 1; put a
  get := do
    match ← getByte with
    | 0 => return none
    | 1 => return some (← get)
    | _ => invalid

instance {α β : Type} [Wire α] [Wire β] : Wire (α × β) where
  put x := do put x.1; put x.2
  get := return (← get, ← get)

instance : Wire Span where
  put x := fun c =>
    if c.mode = .full then
      (do
        put x.start; put x.finish
        match x.source with
        | none => putByte 0
        | some source => if source = c.source then putByte 1 else refuse : PutM Context Unit) c
    else pure ()
  get := fun c =>
    if c.mode = .full then
      (do
        let start ← get
        let finish ← get
        match ← getByte with
        | 0 => return { start, finish, source := none }
        | 1 => return { start, finish, source := some c.source }
        | _ => invalid : GetM Context Span) c
    else pure default

/-! ## Enumerations -/

/-- A type without fields, tagged by the order of its constructors. -/
class UnitEnum (α : Type) where
  index : α → Nat
  variants : List α
  mem_variants (a : α) : a ∈ variants
  index_inj (a b : α) : UInt8.ofNat (index a) = UInt8.ofNat (index b) → a = b

@[reducible] def unitEnum (α : Type) [UnitEnum α] : Wire α where
  put a := putByte (UInt8.ofNat (UnitEnum.index a))
  get := do
    let tag ← getByte
    match (UnitEnum.variants : List α).find? fun a => UInt8.ofNat (UnitEnum.index a) = tag with
    | some a => return a
    | none => invalid

instance : UnitEnum SourceKind where
  index := SourceKind.ctorIdx
  variants := [.code, .typeClass, .computation]
  mem_variants a := by cases a <;> decide
  index_inj a b := by cases a <;> cases b <;> decide

instance : Wire SourceKind := unitEnum SourceKind

instance : UnitEnum Provenance where
  index := Provenance.ctorIdx
  variants := [.user, .generated]
  mem_variants a := by cases a <;> decide
  index_inj a b := by cases a <;> cases b <;> decide

instance : Wire Provenance := unitEnum Provenance

instance : UnitEnum Visibility where
  index := Visibility.ctorIdx
  variants := [.pub, .priv]
  mem_variants a := by cases a <;> decide
  index_inj a b := by cases a <;> cases b <;> decide

instance : Wire Visibility := unitEnum Visibility

instance : UnitEnum ContractKind where
  index := ContractKind.ctorIdx
  variants := [.requires, .ensures]
  mem_variants a := by cases a <;> decide
  index_inj a b := by cases a <;> cases b <;> decide

instance : Wire ContractKind := unitEnum ContractKind

instance : UnitEnum RangeOp where
  index := RangeOp.ctorIdx
  variants := [.bare, .closed, .opened]
  mem_variants a := by cases a <;> decide
  index_inj a b := by cases a <;> cases b <;> decide

instance : Wire RangeOp := unitEnum RangeOp

instance : UnitEnum FixLevel where
  index := FixLevel.ctorIdx
  variants := [.certain, .likely, .unavailable]
  mem_variants a := by cases a <;> decide
  index_inj a b := by cases a <;> cases b <;> decide

instance : Wire FixLevel := unitEnum FixLevel

instance : UnitEnum NoncanonicalKind where
  index := NoncanonicalKind.ctorIdx
  variants := [ .bareRange, .shortSuffix, .symbolicBorrow, .symbolicDeref, .symbolicReferenceType, .legacyLambda]
  mem_variants a := by cases a <;> decide
  index_inj a b := by cases a <;> cases b <;> decide

instance : Wire NoncanonicalKind := unitEnum NoncanonicalKind

instance : UnitEnum Recursion where
  index := Recursion.ctorIdx
  variants := [.none, .letRec, .letAnd]
  mem_variants a := by cases a <;> decide
  index_inj a b := by cases a <;> cases b <;> decide

instance : Wire Recursion := unitEnum Recursion

instance : UnitEnum DeriveClass where
  index := DeriveClass.ctorIdx
  variants := [.eq, .ord, .display, .hash, .default, .encode, .decode, .arbitrary]
  mem_variants a := by cases a <;> decide
  index_inj a b := by cases a <;> cases b <;> decide

instance : Wire DeriveClass := unitEnum DeriveClass

instance : UnitEnum UnaryOp where
  index := UnaryOp.ctorIdx
  variants := [.negate, .not, .bitNot, .plus]
  mem_variants a := by cases a <;> decide
  index_inj a b := by cases a <;> cases b <;> decide

instance : Wire UnaryOp := unitEnum UnaryOp

instance : UnitEnum BinaryOp where
  index := BinaryOp.ctorIdx
  variants := [ .add, .subtract, .multiply, .divide, .remainder, .equal, .notEqual, .less, .lessEqual,
    .greater, .greaterEqual, .and, .or, .bitAnd, .bitOr, .bitXor, .shiftLeft, .shiftRight,
    .shiftRightUnsigned, .power, .pipe]
  mem_variants a := by cases a <;> decide
  index_inj a b := by cases a <;> cases b <;> decide

instance : Wire BinaryOp := unitEnum BinaryOp

instance : UnitEnum MatchOrigin where
  index := MatchOrigin.ctorIdx
  variants := [.explicit, .functionGuard, .lambdaDestructuring, .computationDestructuring]
  mem_variants a := by cases a <;> decide
  index_inj a b := by cases a <;> cases b <;> decide

instance : Wire MatchOrigin := unitEnum MatchOrigin

instance : UnitEnum Spelling where
  index := Spelling.ctorIdx
  variants := [.symbol, .keyword]
  mem_variants a := by cases a <;> decide
  index_inj a b := by cases a <;> cases b <;> decide

instance : Wire Spelling := unitEnum Spelling

instance : UnitEnum FormatAlign where
  index := FormatAlign.ctorIdx
  variants := [.left, .right, .center]
  mem_variants a := by cases a <;> decide
  index_inj a b := by cases a <;> cases b <;> decide

instance : Wire FormatAlign := unitEnum FormatAlign

instance : UnitEnum FormatKind where
  index := FormatKind.ctorIdx
  variants := [.lowerHex, .upperHex, .octal, .binary, .exponent, .fixed]
  mem_variants a := by cases a <;> decide
  index_inj a b := by cases a <;> cases b <;> decide

instance : Wire FormatKind := unitEnum FormatKind

instance : Wire Ident where
  put x := do put x.text; put x.span; put x.provenance
  get := return { text := ← get, span := ← get, provenance := ← get }

instance : Wire StringLiteral where
  put
    | .utf16 units => do putByte 0; put units
    | .utf8 text => do putByte 1; put text
  get := do
    match ← getByte with
    | 0 => return .utf16 (← get)
    | 1 => return .utf8 (← get)
    | _ => invalid

instance : Wire FormatSpec where
  put x := do
    put x.fill; put x.align; put x.plus; put x.width; put x.precision; put x.kind; put x.span
  get := return {
    fill := ← get, align := ← get, plus := ← get, width := ← get, precision := ← get,
    kind := ← get, span := ← get }

instance : Wire DynTypeExpr where
  put x := do put x.classes; put x.borrowed
  get := return { classes := ← get, borrowed := ← get }

instance : Wire Documentation where
  put x := do put x.text; put x.span
  get := return { text := ← get, span := ← get }

instance : Wire JsonName where
  put x := do put x.units; put x.span
  get := return { units := ← get, span := ← get }

instance : Wire NamespaceDecl where
  put x := do put x.path; put x.span
  get := return { path := ← get, span := ← get }

instance : Wire LinkName where
  put x := do put x.moduleName; put x.symbol; put x.span
  get := return { moduleName := ← get, symbol := ← get, span := ← get }

instance : Wire ActivePattern where
  put x := do put x.cases; put x.function; put x.isPartial
  get := return { cases := ← get, function := ← get, isPartial := ← get }

instance : Wire CpuAttribute where
  put x := do put x.function; put x.levels
  get := return { function := ← get, levels := ← get }

instance : Wire EffectAttribute where
  put x := do put x.function; putByte (UInt8.ofNat x.kind.ctorIdx); put x.span
  get := do
    let function ← get
    match ← getByte with
    | 0 => return { function, kind := .noAlloc, span := ← get }
    | 1 => return { function, kind := .noCopy, span := ← get }
    | 2 => return { function, kind := .noTrap, span := ← get }
    | 3 => return { function, kind := .terminates, span := ← get }
    | _ => invalid

instance : Wire TrustedAttribute where
  put x := do put x.target; putByte ⟨x.properties⟩; put x.span
  get := do
    let target ← get
    let properties ← getByte
    if (← isFull) && properties.toBitVec >>> trustedProperties.length != 0 then invalid
    else return { target, properties := properties.toBitVec, span := ← get }

instance : Wire TextEdit where
  put x := do put x.span; put x.text
  get := return { span := ← get, text := ← get }

instance : Wire Noncanonical where
  put x := do put x.kind; put x.span; put x.spelling; put x.canonical; put x.level; put x.edits
  get := return {
    kind := ← get, span := ← get, spelling := ← get, canonical := ← get, level := ← get,
    edits := ← get }

instance : Wire ExternTypeDecl where
  put x := do putFull x.doc; put x.visibility; put x.name
  get := return { doc := ← getFull, visibility := ← get, name := ← get }

/-! ## One level of recursive syntax -/

/-- The codecs of the recursive syntax below some level. -/
class Nested where
  kind : Wire Kind
  typeExpr : Wire TypeExpr
  expr : Wire Expr
  pattern : Wire Pattern
  block : Wire ComputationBlock

instance [n : Nested] : Wire Kind := n.kind
instance [n : Nested] : Wire TypeExpr := n.typeExpr
instance [n : Nested] : Wire Expr := n.expr
instance [n : Nested] : Wire Pattern := n.pattern
instance [n : Nested] : Wire ComputationBlock := n.block

def operations : List String :=
  ["Bind", "Return", "ReturnFrom", "Yield", "YieldFrom", "Zero", "Combine", "Delay", "Run", "For",
    "While", "MergeSources", "BindReturn", "Bind2", "Using"]

def putOperation (operation : String) : PutM Context Unit :=
  match operations.idxOf? operation with
  | some index => put (BitVec.ofNat 64 index : Usize)
  | none => refuse

def getOperation : GetM Context String := do
  let index : Usize ← get
  match operations[index.toNat]? with
  | some operation => return operation
  | none => invalid

section Level

variable [Nested]

instance : Wire TypeExprKind where
  put
    | .named name => do putByte 0; put name
    | .variable name => do putByte 1; put name
    | .apply head arguments => do putByte 2; put head; put arguments
    | .regions ty regions => do putByte 3; put ty; put regions
    | .quantified regions ty => do putByte 4; put regions; put ty
    | .array element => do putByte 5; put element
    | .arrayView element => do putByte 6; put element
    | .fixedArray element length => do putByte 7; put element; put length
    | .length length => do putByte 8; put length
    | .list element => do putByte 9; put element
    | .tuple elements => do putByte 10; put elements
    | .function parameters result => do putByte 12; put parameters; put result
    | .reference target mutable => do putByte 13; put target; put mutable
    | .dyn ty => do putByte 14; put ty
    | .own ty => do putByte 15; put ty
    | .mutable ty => do putByte 16; put ty
    | .pure ty => do putByte 17; put ty
  get := do
    match ← getByte with
    | 0 => return .named (← get)
    | 1 => return .variable (← get)
    | 2 => return .apply (← get) (← get)
    | 3 => return .regions (← get) (← get)
    | 4 => return .quantified (← get) (← get)
    | 5 => return .array (← get)
    | 6 => return .arrayView (← get)
    | 7 => return .fixedArray (← get) (← get)
    | 8 => return .length (← get)
    | 9 => return .list (← get)
    | 10 => return .tuple (← get)
    | 12 => return .function (← get) (← get)
    | 13 => return .reference (← get) (← get)
    | 14 => return .dyn (← get)
    | 15 => return .own (← get)
    | 16 => return .mutable (← get)
    | 17 => return .pure (← get)
    | _ => invalid

instance : Wire InterpolationHole where
  put x := do put x.value; put x.spec
  get := return { value := ← get, spec := ← get }

instance : Wire Interpolation where
  put x := do put x.texts; put x.holes
  get := return { texts := ← get, holes := ← get }

instance : Wire MatchArm where
  put x := do put x.pattern; put x.guard; put x.body; put x.span
  get := return { pattern := ← get, guard := ← get, body := ← get, span := ← get }

instance : Wire TryExpr where
  put x := do put x.body; put x.arms; put x.finish
  get := return { body := ← get, arms := ← get, finish := ← get }

instance : Wire SelectHead where
  put
    | .recv name channel => do putByte 0; put name; put channel
    | .send value channel => do putByte 1; put value; put channel
    | .default => putByte 2
  get := do
    match ← getByte with
    | 0 => return .recv (← get) (← get)
    | 1 => return .send (← get) (← get)
    | 2 => return .default
    | _ => invalid

instance : Wire SelectArm where
  put x := do put x.head; put x.guard; put x.body; put x.span
  get := return { head := ← get, guard := ← get, body := ← get, span := ← get }

instance : Wire Binding where
  put x := do
    put x.name; put x.mutable; put x.isUsing; put x.recursion; put x.annotated; put x.value
  get := return {
    name := ← get, mutable := ← get, isUsing := ← get, recursion := ← get, annotated := ← get,
    value := ← get }

instance : Wire ExprKind where
  put
    | .integer value suffix => do putByte 0; put value; put suffix
    | .bigInt digits => do putByte 1; put digits
    | .float text suffix => do putByte 2; put text; put suffix
    | .string literal => do putByte 3; put literal
    | .char unit => do putByte 4; put unit
    | .utf8Char scalar => do putByte 5; put scalar
    | .bool value => do putByte 6; put value
    | .unit => putByte 7
    | .breakLoop => putByte 8
    | .continueLoop => putByte 9
    | .name name => do putByte 10; put name
    | .qualifiedFunction name => do putByte 11; put name
    | .typeFunction ty function => do putByte 12; put ty; put function
    | .unary op value => do putByte 13; put op; put value
    | .binary op left right => do putByte 14; put op; put left; put right
    | .call callee arguments => do putByte 15; put callee; put arguments
    | .lambda parameters body => do putByte 16; put parameters; put body
    | .computation builder block => do putByte 19; put builder; put block
    | .computationBoundary value => do putByte 20; put value
    | .ifElse condition thenBranch elseBranch => do
      putByte 21; put condition; put thenBranch; put elseBranch
    | .whileDo condition body => do putByte 22; put condition; put body
    | .forIn pattern source body => do putByte 23; put pattern; put source; put body
    | .range start step finish counted descending op => do
      putByte 24; put start; put step; put finish; put counted; put descending; put op
    | .matchWith value arms origin => do putByte 25; put value; put arms; put origin
    | .tryWith handled => do putByte 26; put handled
    | .checked value => do putByte 27; put value
    | .block bindings result => do putByte 28; put bindings; put result
    | .record name fields => do putByte 29; put name; put fields
    | .recordUpdate base fields => do putByte 30; put base; put fields
    | .array values => do putByte 31; put values
    | .list values => do putByte 32; put values
    | .tuple values => do putByte 33; put values
    | .newArray ty length initializer => do putByte 34; put ty; put length; put initializer
    | .newList ty length initializer => do putByte 35; put ty; put length; put initializer
    | .newLiteral value => do putByte 36; put value
    | .field value field => do putByte 37; put value; put field
    | .index value index => do putByte 38; put value; put index
    | .slice value start finish mutable op => do
      putByte 39; put value; put start; put finish; put mutable; put op
    | .borrow value mutable spelling => do putByte 40; put value; put mutable; put spelling
    | .dereference value spelling => do putByte 41; put value; put spelling
    | .assign target value => do putByte 42; put target; put value
    | .cast value ty => do putByte 43; put value; put ty
    | .interpolated interpolation => do putByte 44; put interpolation
    | .dynDispatch slot slots => do putByte 45; put slot; put slots
    | .hole name => do putByte 46; put name
    | .routine body => do putByte 47; put body
    | .select arms => do putByte 48; put arms
  get := do
    match ← getByte with
    | 0 => return .integer (← get) (← get)
    | 1 => return .bigInt (← get)
    | 2 => return .float (← get) (← get)
    | 3 => return .string (← get)
    | 4 => return .char (← get)
    | 5 => return .utf8Char (← get)
    | 6 => return .bool (← get)
    | 7 => return .unit
    | 8 => return .breakLoop
    | 9 => return .continueLoop
    | 10 => return .name (← get)
    | 11 => return .qualifiedFunction (← get)
    | 12 => return .typeFunction (← get) (← get)
    | 13 => return .unary (← get) (← get)
    | 14 => return .binary (← get) (← get) (← get)
    | 15 => return .call (← get) (← get)
    | 16 => return .lambda (← get) (← get)
    | 19 => return .computation (← get) (← get)
    | 20 => return .computationBoundary (← get)
    | 21 => return .ifElse (← get) (← get) (← get)
    | 22 => return .whileDo (← get) (← get)
    | 23 => return .forIn (← get) (← get) (← get)
    | 24 => return .range (← get) (← get) (← get) (← get) (← get) (← get)
    | 25 => return .matchWith (← get) (← get) (← get)
    | 26 => return .tryWith (← get)
    | 27 => return .checked (← get)
    | 28 => return .block (← get) (← get)
    | 29 => return .record (← get) (← get)
    | 30 => return .recordUpdate (← get) (← get)
    | 31 => return .array (← get)
    | 32 => return .list (← get)
    | 33 => return .tuple (← get)
    | 34 => return .newArray (← get) (← get) (← get)
    | 35 => return .newList (← get) (← get) (← get)
    | 36 => return .newLiteral (← get)
    | 37 => return .field (← get) (← get)
    | 38 => return .index (← get) (← get)
    | 39 => return .slice (← get) (← get) (← get) (← get) (← get)
    | 40 => return .borrow (← get) (← get) (← get)
    | 41 => return .dereference (← get) (← get)
    | 42 => return .assign (← get) (← get)
    | 43 => return .cast (← get) (← get)
    | 44 => return .interpolated (← get)
    | 45 => return .dynDispatch (← get) (← get)
    | 46 => return .hole (← get)
    | 47 => return .routine (← get)
    | 48 => return .select (← get)
    | _ => invalid

instance : Wire PatternKind where
  put
    | .wildcard => putByte 0
    | .binding name => do putByte 1; put name
    | .apply name arguments => do putByte 2; put name; put arguments
    | .argument value => do putByte 3; put value
    | .literal value => do putByte 4; put value
    | .tuple elements => do putByte 5; put elements
    | .record name fields => do putByte 6; put name; put fields
    | .array elements => do putByte 7; put elements
    | .list elements => do putByte 8; put elements
    | .cons head tail => do putByte 9; put head; put tail
    | .or left right => do putByte 10; put left; put right
    | .and left right => do putByte 11; put left; put right
    | .as pattern name => do putByte 12; put pattern; put name
    | .annotated pattern ty => do putByte 13; put pattern; put ty
  get := do
    match ← getByte with
    | 0 => return .wildcard
    | 1 => return .binding (← get)
    | 2 => return .apply (← get) (← get)
    | 3 => return .argument (← get)
    | 4 => return .literal (← get)
    | 5 => return .tuple (← get)
    | 6 => return .record (← get) (← get)
    | 7 => return .array (← get)
    | 8 => return .list (← get)
    | 9 => return .cons (← get) (← get)
    | 10 => return .or (← get) (← get)
    | 11 => return .and (← get) (← get)
    | 12 => return .as (← get) (← get)
    | 13 => return .annotated (← get) (← get)
    | _ => invalid

instance : Wire ComputationMatchArm where
  put x := do put x.pattern; put x.guard; put x.body; put x.span
  get := return { pattern := ← get, guard := ← get, body := ← get, span := ← get }

instance : Wire ComputationStatementKind where
  put
    | .letIn binding bang => do putByte 0; put binding; put bang
    | .letAnd bindings => do putByte 1; put bindings
    | .matchWith value arms => do putByte 2; put value; put arms
    | .doBang value => do putByte 3; put value
    | .operation operation value => do putByte 4; putOperation operation; put value
    | .ifElse condition thenBlock elseBlock => do
      putByte 5; put condition; put thenBlock; put elseBlock
    | .forIn pattern source body => do putByte 6; put pattern; put source; put body
    | .whileDo condition body => do putByte 7; put condition; put body
    | .expression value => do putByte 8; put value
  get := do
    match ← getByte with
    | 0 => return .letIn (← get) (← get)
    | 1 => return .letAnd (← get)
    | 2 => return .matchWith (← get) (← get)
    | 3 => return .doBang (← get)
    | 4 => return .operation (← getOperation) (← get)
    | 5 => return .ifElse (← get) (← get) (← get)
    | 6 => return .forIn (← get) (← get) (← get)
    | 7 => return .whileDo (← get) (← get)
    | 8 => return .expression (← get)
    | _ => invalid

instance : Wire ComputationStatement where
  put x := do put x.kind; put x.span
  get := return { kind := ← get, span := ← get }

@[reducible] def Nested.step : Nested where
  kind := {
    put
      | .type => putByte 0
      | .arrow argument result => do putByte 1; put argument; put result
    get := do
      match ← getByte with
      | 0 => return .type
      | 1 => return .arrow (← get) (← get)
      | _ => invalid }
  typeExpr := {
    put x := do put x.kind; put x.span
    get := return { kind := ← get, span := ← get } }
  expr := {
    put x := do put x.kind; put x.span; put x.depth
    get := return { kind := ← get, span := ← get, depth := ← get } }
  pattern := {
    put x := do put x.kind; put x.span; put x.depth
    get := return { kind := ← get, span := ← get, depth := ← get } }
  block := {
    put x := do put x.statements; put x.span; put x.depth
    get := return { statements := ← get, span := ← get, depth := ← get } }

end Level

@[reducible] def shut (α : Type) : Wire α := ⟨fun _ => refuse, invalid⟩

@[reducible] def nested : Nat → Nested
  | 0 => ⟨shut _, shut _, shut _, shut _, shut _⟩
  | room + 1 => @Nested.step (nested room)

/-! ## Declarations -/

section Declarations

variable [Nested]

instance : Wire Parameter where
  put x := do put x.name; put x.ty; put x.mutable; put x.json
  get := return { name := ← get, ty := ← get, mutable := ← get, json := ← get }

instance : Wire ConstraintName where
  put
    | .className name => do putByte 0; put name
    | .function name ty => do putByte 1; put name; put ty
  get := do
    match ← getByte with
    | 0 => return .className (← get)
    | 1 => return .function (← get) (← get)
    | _ => invalid

instance : Wire ConstraintExpr where
  put x := do put x.name; put x.ty
  get := return { name := ← get, ty := ← get }

instance : Wire TypeAliasDecl where
  put x := do putFull x.doc; put x.visibility; put x.name; put x.parameters; put x.target
  get := return {
    doc := ← getFull, visibility := ← get, name := ← get, parameters := ← get, target := ← get }

instance : Wire ConstDecl where
  put x := do putFull x.doc; put x.visibility; put x.name; put x.ty; put x.value
  get := return {
    doc := ← getFull, visibility := ← get, name := ← get, ty := ← get, value := ← get }

instance : Wire RecordDecl where
  put x := do
    putFull x.doc; put x.visibility; put x.name; put x.parameters; put x.regions; put x.fields
    put x.derives
  get := return {
    doc := ← getFull, visibility := ← get, name := ← get, parameters := ← get, regions := ← get,
    fields := ← get, derives := ← get }

instance : Wire UnionCaseDecl where
  put x := do put x.name; put x.payload; put x.json
  get := return { name := ← get, payload := ← get, json := ← get }

instance : Wire UnionDecl where
  put x := do
    putFull x.doc; put x.visibility; put x.name; put x.parameters; put x.cases; put x.derives
  get := return {
    doc := ← getFull, visibility := ← get, name := ← get, parameters := ← get, cases := ← get,
    derives := ← get }

instance : Wire ContractClause where
  put x := do put x.kind; put x.binder; put x.condition; put x.text; put x.span
  get := return {
    kind := ← get, binder := ← get, condition := ← get, text := ← get, span := ← get }

instance : Wire FunctionDecl where
  put x := do
    putFull x.doc; put x.name; put x.regions; put x.recursion; put x.visibility; put x.exported
    put x.constant; put x.pure; put x.parameters; put x.result; put x.constraints; putFull x.body
    putFull x.contracts
  get := return {
    doc := ← getFull, name := ← get, regions := ← get, recursion := ← get, visibility := ← get,
    exported := ← get, constant := ← get, pure := ← get, parameters := ← get, result := ← get,
    constraints := ← get, body := ← getFull, contracts := ← getFull }

instance : Wire SignatureDecl where
  put x := do
    putFull x.doc; put x.name; put x.regions; put x.recursion; put x.visibility; put x.exported
    put x.constant; put x.pure; put x.parameters; put x.result; put x.constraints; put x.link
  get := return {
    doc := ← getFull, name := ← get, regions := ← get, recursion := ← get, visibility := ← get,
    exported := ← get, constant := ← get, pure := ← get, parameters := ← get, result := ← get,
    constraints := ← get, link := ← get }

instance : Wire Definition where
  put x := do put x.name; put x.pure; put x.recursion; put x.parameters; put x.body
  get := return {
    name := ← get, pure := ← get, recursion := ← get, parameters := ← get, body := ← get }

instance : Wire ClassDecl where
  put x := do
    putFull x.doc; put x.name; put x.classVariable; put x.kind; put x.superclasses; put x.methods
    put x.defaults
  get := return {
    doc := ← getFull, name := ← get, classVariable := ← get, kind := ← get, superclasses := ← get,
    methods := ← get, defaults := ← get }

def Definition.putHead (x : Definition) : PutM Context Unit := do
  put x.name; put x.pure; put x.recursion; put x.parameters

def Definition.getHead : GetM Context Definition := return {
  name := ← get, pure := ← get, recursion := ← get, parameters := ← get, body := default }

def putMethods (methods : List Definition) : PutM Context Unit := fun c =>
  if c.mode = .full then put methods c else putList Definition.putHead methods c

def getMethods : GetM Context (List Definition) := fun c =>
  if c.mode = .full then get c else getList Definition.getHead c

instance : Wire InstanceDecl where
  put x := do put x.className; put x.ty; put x.constraints; putMethods x.methods
  get := return {
    className := ← get, ty := ← get, constraints := ← get, methods := ← getMethods }

instance : Wire TestDecl where
  put x := do put x.name; put x.nameSpan; put x.body; put x.span
  get := return { name := ← get, nameSpan := ← get, body := ← get, span := ← get }

instance : Wire BenchDecl where
  put x := do put x.name; put x.nameSpan; put x.body; put x.span
  get := return { name := ← get, nameSpan := ← get, body := ← get, span := ← get }

instance : Wire Program where
  put x := do
    put x.sourceKind; put x.namespaceDecl; put x.usings; put x.typeAliases; put x.constants
    put x.externs; put x.externTypes; put x.records; put x.unions; put x.functions; put x.classes
    put x.instances; put x.activePatterns; putFull x.tests; putFull x.benches; putFull x.entry
    put x.dynTypes; put x.cpuAttributes; put x.effectAttributes; put x.trusted; put x.aliases
    putFull x.declarationStarts; putFull x.noncanonical
  get := return {
    sourceKind := ← get, namespaceDecl := ← get, usings := ← get, typeAliases := ← get,
    constants := ← get, externs := ← get, externTypes := ← get, records := ← get, unions := ← get,
    functions := ← get, classes := ← get, instances := ← get, activePatterns := ← get,
    tests := ← getFull, benches := ← getFull, entry := ← getFull, dynTypes := ← get,
    cpuAttributes := ← get, effectAttributes := ← get, trusted := ← get, aliases := ← get,
    declarationStarts := ← getFull, noncanonical := ← getFull }

end Declarations

def encodeWithin (program : Program) (source : Usize) (mode : Mode) (limit : Nat) : Option (List UInt8) :=
  ((@put Program (@instWireProgram (nested limit)) program) ⟨mode, source⟩ []).map Prod.snd

def encode (program : Program) (source : Usize) (mode : Mode) : Option (List UInt8) :=
  encodeWithin program source mode maxDepth

/-- Reads a `Mode.full` encoding as the program of source `source`. -/
def decode (bytes : List UInt8) (source : Usize) : Option Program :=
  match (@get Program (@instWireProgram (nested maxDepth))) ⟨.full, source⟩ (.start bytes) with
  | some (program, r) => if r.pos = bytes.length then some program else none
  | none => none

end Tsuzuri.Ast
