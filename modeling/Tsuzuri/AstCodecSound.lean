import Tsuzuri.AstCodecSyntax

/-!
# Programs survive the cache

A program that is written whole is read back, with its positions in the reader's source, and what is read is written
with the same bytes.
-/

namespace Tsuzuri.Ast

open WireFormat

/-! ## Declarations -/

variable {c c' : Context} {r : Reader}

theorem span_starved {β : Type} {k : Span → GetM Context β} (h : r.rest = []) (hk : ∀ a, k a c r = none) :
    (get >>= k) c r = none := by
  show ((get : GetM Context Span) c r).bind (fun x => k x.1 c x.2) = none
  by_cases hfull : c.mode = .full
  · have hnone : (get : GetM Context Span) c r = none :=
      (congrFun (if_pos hfull) r).trans (bind_starved (starved c r h))
    rw [hnone, Option.bind_none]
  · have hsome : (get : GetM Context Span) c r = some (default, r) :=
      congrFun (if_neg hfull) r
    rw [hsome, Option.bind_some, hk]

instance : Normal Documentation := ⟨fun k x => { x with span := normal k x.span }⟩

instance : Lawful Documentation where
  reads hc x :=
    .bind (reads_plain hc x.text) <| .last (reads hc x.span)
  writes _ _ :=
    Trail.start.field fun _ _ t => t.last fun _ _ => id

instance : Normal JsonName := ⟨fun k x => { x with span := normal k x.span }⟩

instance : Lawful JsonName where
  reads hc x :=
    .bind (reads_plain hc x.units) <| .last (reads hc x.span)
  writes _ _ :=
    Trail.start.field fun _ _ t => t.last fun _ _ => id

instance : Normal NamespaceDecl where
  normal k x := {
    path := normal k x.path, span := normal k x.span }

instance : Lawful NamespaceDecl where
  reads hc x :=
    .bind (reads hc x.path) <| .last (reads hc x.span)
  writes _ _ :=
    Trail.start.field fun _ _ t => t.last fun _ _ => id

instance : Filled NamespaceDecl := ⟨fun c r h => bind_starved (starved c r h)⟩

instance : Normal LinkName where
  normal k x := { x with
    moduleName := normal k x.moduleName, span := normal k x.span }

instance : Lawful LinkName where
  reads hc x :=
    .bind (reads hc x.moduleName) <| .bind (reads_plain hc x.symbol) <| .last (reads hc x.span)
  writes _ _ :=
    Trail.start.field fun _ _ t => t.field fun _ _ t => t.last fun _ _ => id

instance : Normal ActivePattern := ⟨fun k x => { x with cases := normal k x.cases }⟩

instance : Lawful ActivePattern where
  reads hc x :=
    .bind (reads hc x.cases) <| .bind (reads_plain hc x.function) <|
    .last (reads_plain hc x.isPartial)
  writes _ _ :=
    Trail.start.field fun _ _ t => t.field fun _ _ t => t.last fun _ _ => id

instance : Filled ActivePattern := ⟨fun c r h => bind_starved (starved c r h)⟩

instance : Normal CpuAttribute := ⟨fun k x => { x with function := normal k x.function }⟩

instance : Lawful CpuAttribute where
  reads hc x :=
    .bind (reads hc x.function) <| .last (reads_plain hc x.levels)
  writes _ _ :=
    Trail.start.field fun _ _ t => t.last fun _ _ => id

instance : Filled CpuAttribute := ⟨fun c r h => bind_starved (starved c r h)⟩

instance : Normal EffectAttribute :=
  ⟨fun k x => { x with function := normal k x.function, span := normal k x.span }⟩

instance : Lawful EffectAttribute where
  reads hc x := by
    obtain ⟨function, kind, span⟩ := x
    cases kind <;> exact .bind (reads hc function) <| .bind forward_byte <| .last (reads hc span)
  writes _ _ := by
    refine ensures_field fun _ _ h₁ => .bind (ensures_byte.imp fun tag r₁ h₂ => ?_)
    split
    any_goals exact ensures_invalid
    all_goals exact ensures_field fun _ _ h₃ => .pure (h₁.bind (h₂.bind h₃))

instance : Filled EffectAttribute := ⟨fun c r h => bind_starved (starved c r h)⟩

instance : Normal TextEdit := ⟨fun k x => { x with span := normal k x.span }⟩

instance : Lawful TextEdit where
  reads hc x :=
    .bind (reads hc x.span) <| .last (reads_plain hc x.text)
  writes _ _ :=
    Trail.start.field fun _ _ t => t.last fun _ _ => id

instance : Filled TextEdit :=
  ⟨fun c r h => span_starved h fun _ => bind_starved (starved c r h)⟩

instance : Normal Noncanonical where
  normal k x := { x with
    span := normal k x.span, edits := normal k x.edits }

instance : Lawful Noncanonical where
  reads hc x :=
    .bind (reads_plain hc x.kind) <| .bind (reads hc x.span) <|
    .bind (reads_plain hc x.spelling) <| .bind (reads_plain hc x.canonical) <|
    .bind (reads_plain hc x.level) <| .last (reads hc x.edits)
  writes _ _ :=
    Trail.start.field fun _ _ t => t.field fun _ _ t => t.field fun _ _ t => t.field fun _ _ t =>
    t.field fun _ _ t => t.last fun _ _ => id

instance : Filled Noncanonical := ⟨fun c r h => bind_starved (starved c r h)⟩

instance : Normal ExternTypeDecl where
  normal k x := { x with
    doc := k.part x.doc, name := normal k x.name }

instance : Lawful ExternTypeDecl where
  reads hc x :=
    .bind (forward_full hc x.doc) <| .bind (reads_plain hc x.visibility) <|
    .last (reads hc x.name)
  writes _ _ :=
    Trail.start.full fun _ _ t => t.field fun _ _ t => t.last fun _ _ => id

instance : Filled ExternTypeDecl :=
  ⟨fun c r h => full_starved h fun _ => bind_starved (starved c r h)⟩

instance : Normal TrustedAttribute :=
  ⟨fun k x => { x with target := normal k x.target, span := normal k x.span }⟩

/-- The bits of a `@trusted` attribute are among the known properties. -/
def TrustedAttribute.Known (x : TrustedAttribute) : Prop :=
  x.properties >>> trustedProperties.length = 0

instance (x : TrustedAttribute) : Decidable x.Known := inferInstanceAs (Decidable (_ = _))

theorem forward_trusted (hc : c.mode = c'.mode) (x : TrustedAttribute) (hknown : c.mode = .full → x.Known) :
    Forward c c' (put x) get (normal (c.keep c') x) := by
  have hbits : ¬ (decide (c'.mode = .full) && x.properties >>> trustedProperties.length != 0) := by
    by_cases hfull : c'.mode = .full
    · have hzero : x.properties >>> trustedProperties.length = 0 := hknown (hc ▸ hfull)
      simp [hzero]
    · simp [hfull]
  have hspan : Forward c c' (put x.span)
      (do return { target := normal (c.keep c') x.target, properties := x.properties, span := ← get })
      (normal (c.keep c') x) := .last (reads hc x.span)
  refine .bind (reads hc x.target) <| .bind forward_byte <| .congr hspan rfl ?_
  show (if _ then invalid else _ : GetM Context TrustedAttribute) c' = _
  rw [if_neg hbits]

theorem trusted_starved (r : Reader) (h : r.rest = []) : (get : GetM Context TrustedAttribute) c r = none :=
  bind_starved (starved c r h)

theorem ensures_trusted : Ensures c get r fun (x : TrustedAttribute) r' => Parsed c (put x) r r' := by
  refine ensures_field fun target r₁ h₁ => .bind (ensures_byte.imp fun properties r₂ h₂ => ?_)
  refine .congr (Ensures.guard fun _ => ensures_field fun _ _ h₃ => ?_) rfl
  exact .pure (h₁.bind (h₂.bind h₃))

instance : Normal Definition where
  normal k x := { x with
    name := normal k x.name, parameters := normal k x.parameters, body := normal k x.body }

def Keep.methods (k : Keep) (methods : List Definition) : List Definition :=
  methods.map fun x => { normal k x with body := k.part x.body }

theorem forward_head (hc : c.mode = c'.mode) (hfull : c.mode ≠ .full) (x : Definition) :
    Forward c c' x.putHead Definition.getHead { normal (c.keep c') x with body := (c.keep c').part x.body } := by
  have hbody : (c.keep c').part x.body = default := by
    rw [Context.keep_interface hfull]
    rfl
  rw [hbody]
  exact .bind (reads hc x.name) <| .bind (reads_plain hc x.pure) <|
    .bind (reads_plain hc x.recursion) <| .last (reads hc x.parameters)

theorem ensures_head : Ensures c Definition.getHead r fun x r' => Parsed c x.putHead r r' :=
  Trail.start.field fun _ _ t => t.field fun _ _ t => t.field fun _ _ t => t.last fun _ _ => id

section Declarations

variable [Nested] [LawfulNested]

instance : Normal Parameter where
  normal k x := { x with
    name := normal k x.name, ty := normal k x.ty, json := normal k x.json }

instance : Lawful Parameter where
  reads hc x :=
    .bind (reads hc x.name) <| .bind (reads hc x.ty) <| .bind (reads_plain hc x.mutable) <|
    .last (reads hc x.json)
  writes _ _ :=
    Trail.start.field fun _ _ t => t.field fun _ _ t => t.field fun _ _ t => t.last fun _ _ => id

instance : Filled Parameter := ⟨fun c r h => bind_starved (starved c r h)⟩

instance : Normal ConstraintName where
  normal k
    | .className name => .className (normal k name)
    | .function name ty => .function (normal k name) (normal k ty)

instance : Lawful ConstraintName where
  reads hc x := by
    cases x with
    | className name => exact .bind forward_byte <| .last (reads hc name)
    | function name ty => exact .bind forward_byte <| .bind (reads hc name) <| .last (reads hc ty)
  writes _ _ := by
    refine .bind (ensures_byte.imp fun tag r₁ h => ?_)
    split
    · exact ensures_field fun _ _ h₁ => .pure (h.bind h₁)
    · exact (Trail.start.next h).field fun _ _ t => t.last fun _ _ => id
    · exact ensures_invalid

instance : Filled ConstraintName := ⟨fun _ _ h => bind_starved (getByte_starved h)⟩

instance : Normal ConstraintExpr := ⟨fun k x => { name := normal k x.name, ty := normal k x.ty }⟩

instance : Lawful ConstraintExpr where
  reads hc x :=
    .bind (reads hc x.name) <| .last (reads hc x.ty)
  writes _ _ :=
    Trail.start.field fun _ _ t => t.last fun _ _ => id

instance : Filled ConstraintExpr := ⟨fun c r h => bind_starved (starved c r h)⟩

instance : Normal TypeAliasDecl where
  normal k x := { x with
    doc := k.part x.doc, name := normal k x.name, parameters := normal k x.parameters,
    target := normal k x.target }

instance : Lawful TypeAliasDecl where
  reads hc x :=
    .bind (forward_full hc x.doc) <| .bind (reads_plain hc x.visibility) <|
    .bind (reads hc x.name) <| .bind (reads hc x.parameters) <| .last (reads hc x.target)
  writes _ _ :=
    Trail.start.full fun _ _ t => t.field fun _ _ t => t.field fun _ _ t => t.field fun _ _ t =>
    t.last fun _ _ => id

instance : Filled TypeAliasDecl :=
  ⟨fun c r h => full_starved h fun _ => bind_starved (starved c r h)⟩

instance : Normal ConstDecl where
  normal k x := { x with
    doc := k.part x.doc, name := normal k x.name, ty := normal k x.ty, value := normal k x.value }

instance : Lawful ConstDecl where
  reads hc x :=
    .bind (forward_full hc x.doc) <| .bind (reads_plain hc x.visibility) <|
    .bind (reads hc x.name) <| .bind (reads hc x.ty) <| .last (reads hc x.value)
  writes _ _ :=
    Trail.start.full fun _ _ t => t.field fun _ _ t => t.field fun _ _ t => t.field fun _ _ t =>
    t.last fun _ _ => id

instance : Filled ConstDecl :=
  ⟨fun c r h => full_starved h fun _ => bind_starved (starved c r h)⟩

instance : Normal RecordDecl where
  normal k x := { x with
    doc := k.part x.doc, name := normal k x.name, parameters := normal k x.parameters,
    regions := normal k x.regions, fields := normal k x.fields, derives := normal k x.derives }

instance : Lawful RecordDecl where
  reads hc x :=
    .bind (forward_full hc x.doc) <| .bind (reads_plain hc x.visibility) <|
    .bind (reads hc x.name) <| .bind (reads hc x.parameters) <| .bind (reads hc x.regions) <|
    .bind (reads hc x.fields) <| .last (reads hc x.derives)
  writes _ _ :=
    Trail.start.full fun _ _ t => t.field fun _ _ t => t.field fun _ _ t => t.field fun _ _ t =>
    t.field fun _ _ t => t.field fun _ _ t => t.last fun _ _ => id

instance : Filled RecordDecl :=
  ⟨fun c r h => full_starved h fun _ => bind_starved (starved c r h)⟩

instance : Normal UnionCaseDecl where
  normal k x := {
    name := normal k x.name, payload := normal k x.payload, json := normal k x.json }

instance : Lawful UnionCaseDecl where
  reads hc x :=
    .bind (reads hc x.name) <| .bind (reads hc x.payload) <| .last (reads hc x.json)
  writes _ _ :=
    Trail.start.field fun _ _ t => t.field fun _ _ t => t.last fun _ _ => id

instance : Filled UnionCaseDecl := ⟨fun c r h => bind_starved (starved c r h)⟩

instance : Normal UnionDecl where
  normal k x := { x with
    doc := k.part x.doc, name := normal k x.name, parameters := normal k x.parameters,
    cases := normal k x.cases, derives := normal k x.derives }

instance : Lawful UnionDecl where
  reads hc x :=
    .bind (forward_full hc x.doc) <| .bind (reads_plain hc x.visibility) <|
    .bind (reads hc x.name) <| .bind (reads hc x.parameters) <| .bind (reads hc x.cases) <|
    .last (reads hc x.derives)
  writes _ _ :=
    Trail.start.full fun _ _ t => t.field fun _ _ t => t.field fun _ _ t => t.field fun _ _ t =>
    t.field fun _ _ t => t.last fun _ _ => id

instance : Filled UnionDecl :=
  ⟨fun c r h => full_starved h fun _ => bind_starved (starved c r h)⟩

instance : Normal ContractClause where
  normal k x := { x with
    binder := normal k x.binder, condition := normal k x.condition, span := normal k x.span }

instance : Lawful ContractClause where
  reads hc x :=
    .bind (reads_plain hc x.kind) <| .bind (reads hc x.binder) <| .bind (reads hc x.condition) <|
    .bind (reads_plain hc x.text) <| .last (reads hc x.span)
  writes _ _ :=
    Trail.start.field fun _ _ t => t.field fun _ _ t => t.field fun _ _ t => t.field fun _ _ t =>
    t.last fun _ _ => id

instance : Filled ContractClause := ⟨fun c r h => bind_starved (starved c r h)⟩

instance : Normal FunctionDecl where
  normal k x := { x with
    doc := k.part x.doc, name := normal k x.name, regions := normal k x.regions,
    parameters := normal k x.parameters, result := normal k x.result,
    constraints := normal k x.constraints, body := k.part x.body, contracts := k.part x.contracts }

instance : Lawful FunctionDecl where
  reads hc x :=
    .bind (forward_full hc x.doc) <| .bind (reads hc x.name) <| .bind (reads hc x.regions) <|
    .bind (reads_plain hc x.recursion) <| .bind (reads_plain hc x.visibility) <|
    .bind (reads_plain hc x.exported) <| .bind (reads_plain hc x.constant) <|
    .bind (reads_plain hc x.pure) <| .bind (reads hc x.parameters) <| .bind (reads hc x.result) <|
    .bind (reads hc x.constraints) <| .bind (forward_full hc x.body) <|
    .last (forward_full hc x.contracts)
  writes _ _ :=
    Trail.start.full fun _ _ t => t.field fun _ _ t => t.field fun _ _ t => t.field fun _ _ t =>
    t.field fun _ _ t => t.field fun _ _ t => t.field fun _ _ t => t.field fun _ _ t =>
    t.field fun _ _ t => t.field fun _ _ t => t.field fun _ _ t => t.full fun _ _ t =>
    ensures_full fun _ _ h => .pure (t _ _ h)

instance : Filled FunctionDecl :=
  ⟨fun c r h => full_starved h fun _ => bind_starved (starved c r h)⟩

instance : Normal SignatureDecl where
  normal k x := { x with
    doc := k.part x.doc, name := normal k x.name, regions := normal k x.regions,
    parameters := normal k x.parameters, result := normal k x.result,
    constraints := normal k x.constraints, link := normal k x.link }

instance : Lawful SignatureDecl where
  reads hc x :=
    .bind (forward_full hc x.doc) <| .bind (reads hc x.name) <| .bind (reads hc x.regions) <|
    .bind (reads_plain hc x.recursion) <| .bind (reads_plain hc x.visibility) <|
    .bind (reads_plain hc x.exported) <| .bind (reads_plain hc x.constant) <|
    .bind (reads_plain hc x.pure) <| .bind (reads hc x.parameters) <| .bind (reads hc x.result) <|
    .bind (reads hc x.constraints) <| .last (reads hc x.link)
  writes _ _ :=
    Trail.start.full fun _ _ t => t.field fun _ _ t => t.field fun _ _ t => t.field fun _ _ t =>
    t.field fun _ _ t => t.field fun _ _ t => t.field fun _ _ t => t.field fun _ _ t =>
    t.field fun _ _ t => t.field fun _ _ t => t.field fun _ _ t => t.last fun _ _ => id

instance : Filled SignatureDecl :=
  ⟨fun c r h => full_starved h fun _ => bind_starved (starved c r h)⟩

instance : Lawful Definition where
  reads hc x :=
    .bind (reads hc x.name) <| .bind (reads_plain hc x.pure) <|
    .bind (reads_plain hc x.recursion) <| .bind (reads hc x.parameters) <| .last (reads hc x.body)
  writes _ _ :=
    Trail.start.field fun _ _ t => t.field fun _ _ t => t.field fun _ _ t => t.field fun _ _ t =>
    t.last fun _ _ => id

instance : Filled Definition := ⟨fun c r h => bind_starved (starved c r h)⟩

instance : Normal ClassDecl where
  normal k x := { x with
    doc := k.part x.doc, name := normal k x.name, classVariable := normal k x.classVariable,
    superclasses := normal k x.superclasses, methods := normal k x.methods,
    defaults := normal k x.defaults }

instance : Lawful ClassDecl where
  reads hc x :=
    .bind (forward_full hc x.doc) <| .bind (reads hc x.name) <|
    .bind (reads hc x.classVariable) <| .bind (reads_plain hc x.kind) <|
    .bind (reads hc x.superclasses) <| .bind (reads hc x.methods) <| .last (reads hc x.defaults)
  writes _ _ :=
    Trail.start.full fun _ _ t => t.field fun _ _ t => t.field fun _ _ t => t.field fun _ _ t =>
    t.field fun _ _ t => t.field fun _ _ t => t.last fun _ _ => id

instance : Filled ClassDecl :=
  ⟨fun c r h => full_starved h fun _ => bind_starved (starved c r h)⟩

theorem forward_methods (hc : c.mode = c'.mode) (methods : List Definition) :
    Forward c c' (putMethods methods) getMethods ((c.keep c').methods methods) := by
  by_cases hfull : c.mode = .full
  · have hfull' : c'.mode = .full := hc ▸ hfull
    refine .congr ?_ (if_pos hfull) (if_pos hfull')
    have hkeep : (c.keep c').methods methods = normal (c.keep c') methods := by
      rw [Context.keep_full hfull]
      rfl
    rw [hkeep]
    exact reads hc methods
  · have hfull' : c'.mode ≠ .full := hc ▸ hfull
    refine .congr (forward_list (fun x _ => forward_head hc hfull x) fun r h => ?_) (if_neg hfull) (if_neg hfull')
    exact bind_starved (starved c' r h)

theorem ensures_methods {β : Type} {k : List Definition → GetM Context β} {Q : β → Reader → Prop}
    (h : ∀ methods r', Parsed c (putMethods methods) r r' → Ensures c (k methods) r' Q) :
    Ensures c (getMethods >>= k) r Q := by
  refine .bind ?_
  by_cases hfull : c.mode = .full
  · refine .congr ((writes c r).imp fun methods r' hmethods => h methods r' ?_) (if_pos hfull)
    exact .congr hmethods (if_pos hfull)
  · refine .congr ((ensures_list fun _ => ensures_head).imp fun methods r' hmethods => ?_) (if_neg hfull)
    exact h methods r' (.congr hmethods (if_neg hfull))

instance : Normal InstanceDecl where
  normal k x := {
    className := normal k x.className, ty := normal k x.ty, constraints := normal k x.constraints,
    methods := k.methods x.methods }

instance : Lawful InstanceDecl where
  reads hc x :=
    .bind (reads hc x.className) <| .bind (reads hc x.ty) <| .bind (reads hc x.constraints) <|
    .last (forward_methods hc x.methods)
  writes _ _ :=
    Trail.start.field fun _ _ t => t.field fun _ _ t => t.field fun _ _ t =>
    ensures_methods fun _ _ h => .pure (t _ _ h)

instance : Filled InstanceDecl := ⟨fun c r h => bind_starved (starved c r h)⟩

instance : Normal TestDecl where
  normal k x := { x with
    nameSpan := normal k x.nameSpan, body := normal k x.body, span := normal k x.span }

instance : Lawful TestDecl where
  reads hc x :=
    .bind (reads_plain hc x.name) <| .bind (reads hc x.nameSpan) <| .bind (reads hc x.body) <|
    .last (reads hc x.span)
  writes _ _ :=
    Trail.start.field fun _ _ t => t.field fun _ _ t => t.field fun _ _ t => t.last fun _ _ => id

instance : Filled TestDecl := ⟨fun c r h => bind_starved (starved c r h)⟩

instance : Normal BenchDecl where
  normal k x := { x with
    nameSpan := normal k x.nameSpan, body := normal k x.body, span := normal k x.span }

instance : Lawful BenchDecl where
  reads hc x :=
    .bind (reads_plain hc x.name) <| .bind (reads hc x.nameSpan) <| .bind (reads hc x.body) <|
    .last (reads hc x.span)
  writes _ _ :=
    Trail.start.field fun _ _ t => t.field fun _ _ t => t.field fun _ _ t => t.last fun _ _ => id

instance : Filled BenchDecl := ⟨fun c r h => bind_starved (starved c r h)⟩

instance : Normal Program where
  normal k x := { x with
    namespaceDecl := normal k x.namespaceDecl, usings := normal k x.usings,
    typeAliases := normal k x.typeAliases, constants := normal k x.constants,
    externs := normal k x.externs, externTypes := normal k x.externTypes,
    records := normal k x.records, unions := normal k x.unions, functions := normal k x.functions,
    classes := normal k x.classes, instances := normal k x.instances,
    activePatterns := normal k x.activePatterns, tests := k.part x.tests,
    benches := k.part x.benches, entry := k.part x.entry, dynTypes := normal k x.dynTypes,
    cpuAttributes := normal k x.cpuAttributes, effectAttributes := normal k x.effectAttributes,
    trusted := normal k x.trusted, aliases := normal k x.aliases,
    declarationStarts := k.part x.declarationStarts, noncanonical := k.part x.noncanonical }

theorem forward_program (hc : c.mode = c'.mode) (x : Program) (hknown : c.mode = .full → ∀ a ∈ x.trusted, a.Known) :
    Forward c c' (put x) get (normal (c.keep c') x) :=
  .bind (reads_plain hc x.sourceKind) <| .bind (reads hc x.namespaceDecl) <|
  .bind (reads hc x.usings) <| .bind (reads hc x.typeAliases) <| .bind (reads hc x.constants) <|
  .bind (reads hc x.externs) <| .bind (reads hc x.externTypes) <| .bind (reads hc x.records) <|
  .bind (reads hc x.unions) <| .bind (reads hc x.functions) <| .bind (reads hc x.classes) <|
  .bind (reads hc x.instances) <| .bind (reads hc x.activePatterns) <|
  .bind (forward_full hc x.tests) <| .bind (forward_full hc x.benches) <|
  .bind (forward_full hc x.entry) <| .bind (reads hc x.dynTypes) <|
  .bind (reads hc x.cpuAttributes) <| .bind (reads hc x.effectAttributes) <|
  .bind (forward_list (fun a ha => forward_trusted hc a fun hfull => hknown hfull a ha) trusted_starved) <|
  .bind (reads hc x.aliases) <|
  .bind (forward_full hc x.declarationStarts) <| .last (forward_full hc x.noncanonical)

theorem ensures_program : Ensures c get r fun (x : Program) r' => Parsed c (put x) r r' :=
  Trail.start.field fun _ _ t => t.field fun _ _ t => t.field fun _ _ t => t.field fun _ _ t =>
  t.field fun _ _ t => t.field fun _ _ t => t.field fun _ _ t => t.field fun _ _ t =>
  t.field fun _ _ t => t.field fun _ _ t => t.field fun _ _ t => t.field fun _ _ t =>
  t.field fun _ _ t => t.full fun _ _ t => t.full fun _ _ t => t.full fun _ _ t =>
  t.field fun _ _ t => t.field fun _ _ t => t.field fun _ _ t =>
  .bind <| (ensures_list fun _ => ensures_trusted).imp fun _ _ h =>
  (t.next h).field fun _ _ t => t.full fun _ _ t => ensures_full fun _ _ h => .pure (t _ _ h)

end Declarations

/-! ## Programs -/

/-- The program with its positions in source `s` taken for positions in source `t`. -/
def Program.retag (s t : Usize) (p : Program) : Program := normal ⟨Span.retag s t, true⟩ p

def Program.interface (p : Program) : Program := normal ⟨fun _ => default, false⟩ p

section Programs

variable {p q : Program} {s t : Usize} {mode : Mode} {bytes : List UInt8}

theorem reads_encode (hknown : mode = .full → ∀ a ∈ p.trusted, a.Known) (h : encode p s mode = some bytes) (t : Usize) :
    Reads ⟨mode, t⟩ (@get Program (@instWireProgram (nested maxDepth))) bytes
      (normal (Context.keep ⟨mode, s⟩ ⟨mode, t⟩) p) := by
  have := lawfulNested maxDepth
  let _ := nested maxDepth
  obtain ⟨⟨⟨⟩, out⟩, hrun, rfl⟩ := Option.map_eq_some_iff.mp h
  have hmode : Context.mode ⟨mode, s⟩ = Context.mode ⟨mode, t⟩ := rfl
  obtain ⟨bs, hbs, hreads⟩ := forward_program hmode p hknown _ _ hrun
  rw [List.nil_append] at hbs
  rwa [hbs]

variable {r' : Reader}

section

variable (h : @get Program (@instWireProgram (nested maxDepth)) ⟨mode, s⟩ (.start bytes) = some (p, r'))

include h

theorem encode_of_get (hrest : r'.rest = []) : encode p s mode = some bytes := by
  have := lawfulNested maxDepth
  let _ := nested maxDepth
  obtain ⟨bs, hput, hbytes, -⟩ := ensures_program _ _ h
  rw [hrest, List.append_nil, Reader.rest_start] at hbytes
  rw [encode, encodeWithin, hbytes]
  exact congrArg (Option.map Prod.snd) (hput [])

theorem bytes_of_get : r'.bytes = bytes := by
  have := lawfulNested maxDepth
  let _ := nested maxDepth
  obtain ⟨-, -, -, hbytes⟩ := ensures_program _ _ h
  exact hbytes

end

theorem decode_eq_some_iff : decode bytes s = some p ↔ ∃ r' : Reader,
      @get Program (@instWireProgram (nested maxDepth)) ⟨.full, s⟩ (.start bytes) = some (p, r') ∧ r'.rest = [] := by
  unfold decode
  split
  · rename_i program r hrun
    have hbytes := bytes_of_get hrun
    have hrest : r.pos = bytes.length ↔ r.rest = [] := by
      have hrange := r.inRange
      rw [← List.length_eq_zero_iff, r.length_rest]
      rw [hbytes] at hrange ⊢
      omega
    rw [Option.ite_none_right_eq_some, hrest]
    constructor
    · rintro ⟨hnil, hsome⟩
      obtain rfl := Option.some.inj hsome
      exact ⟨r, hrun, hnil⟩
    · rintro ⟨r', hsome, hnil⟩
      rw [hrun] at hsome
      cases hsome
      exact ⟨hnil, rfl⟩
  · rename_i hrun
    simp [hrun]

/-- `extern type T`, marked as trusted to be pure, parsed as source 5. -/
def externProgram (visibility : Visibility) : Program where
  sourceKind := some .code
  namespaceDecl := none
  usings := []
  typeAliases := []
  constants := []
  externs := []
  externTypes := [⟨some ⟨"x", ⟨0, 1, some 5⟩⟩, visibility, ⟨"T", ⟨14, 15, some 5⟩, .user⟩⟩]
  records := []
  unions := []
  functions := []
  classes := []
  instances := []
  activePatterns := []
  tests := []
  benches := []
  entry := none
  dynTypes := []
  cpuAttributes := []
  effectAttributes := []
  trusted := [⟨⟨"T", ⟨14, 15, some 5⟩, .user⟩, 1, ⟨14, 15, none⟩⟩]
  noncanonical := []
  aliases := []
  declarationStarts := [2]

/-- The codec goes round both ways, and its reader stays in the bytes. -/
theorem decode_encode : (∀ p s t bytes, (∀ a ∈ p.trusted, a.Known) → encode p s .full = some bytes →
      decode bytes t = some (p.retag s t)) ∧
    (∀ bytes s p, decode bytes s = some p → encode p s .full = some bytes) ∧
    (∀ bytes s p r, @get Program (@instWireProgram (nested maxDepth)) ⟨.full, s⟩ (.start bytes)
      = some (p, r) → r.bytes = bytes ∧ r.pos ≤ bytes.length) := by
  refine ⟨fun p s t bytes hknown h => ?_, fun bytes s p h => ?_, fun bytes s p r h => ?_⟩
  · obtain ⟨r', hrun, hrest, -⟩ := reads_encode (fun _ => hknown) h t (.start bytes) [] (by simp)
    exact decode_eq_some_iff.mpr ⟨r', hrun, hrest⟩
  · obtain ⟨r', hrun, hrest⟩ := decode_eq_some_iff.mp h
    exact encode_of_get hrun hrest
  · obtain rfl := bytes_of_get h
    exact ⟨rfl, r.inRange⟩

theorem decode_encode_extern : (∀ a ∈ (externProgram .pub).trusted, a.Known) ∧
    decode [1, 0, 0, 0, 0, 0, 0, 1, 1, 1, 120, 0, 1, 1, 0, 1, 84, 14, 15, 1, 0, 0, 0, 0, 0, 0, 0, 0, 0,
      0, 0, 0, 0, 1, 1, 84, 14, 15, 1, 0, 1, 14, 15, 0, 0, 1, 2, 0] 7
      = some ((externProgram .pub).retag 5 7) :=
  ⟨by decide, decode_encode.1 _ 5 7 _ (by decide) rfl⟩

/-- Two interface encodings are equal exactly for programs with the same interface. -/
theorem encode_interface_inj {bytes' : List UInt8} (hp : encode p s .interface = some bytes)
    (hq : encode q t .interface = some bytes') :
    bytes = bytes' ↔ p.interface = q.interface := by
  have hmode {P : Prop} : Mode.interface = .full → P := nofun
  obtain ⟨r₁, hrun₁, hrest₁, -⟩ := reads_encode hmode hp s (.start bytes) [] (by simp)
  obtain ⟨r₂, hrun₂, hrest₂, -⟩ := reads_encode hmode hq s (.start bytes') [] (by simp)
  constructor
  · rintro rfl
    rw [hrun₁] at hrun₂
    exact congrArg Prod.fst (Option.some.inj hrun₂)
  · intro h
    have hbytes : encode p.interface s .interface = some bytes := encode_of_get hrun₁ hrest₁
    have hbytes' : encode q.interface s .interface = some bytes' := encode_of_get hrun₂ hrest₂
    rw [h, hbytes'] at hbytes
    exact (Option.some.inj hbytes).symm

theorem encode_interface_extern : (externProgram .pub).interface ≠ (externProgram .priv).interface := by
  have hpub : encode (externProgram .pub) 5 .interface = some [1, 0, 0, 0, 0, 0, 0, 1, 0, 1, 84, 0, 0,
    0, 0, 0, 0, 0, 0, 0, 0, 1, 1, 84, 0, 1, 0] := rfl
  have hpriv : encode (externProgram .priv) 5 .interface = some [1, 0, 0, 0, 0, 0, 0, 1, 1, 1, 84, 0,
    0, 0, 0, 0, 0, 0, 0, 0, 0, 1, 1, 84, 0, 1, 0] := rfl
  intro h
  have hbytes := (encode_interface_inj hpub hpriv).mpr h
  exact absurd hbytes (by decide)

end Programs

end Tsuzuri.Ast
