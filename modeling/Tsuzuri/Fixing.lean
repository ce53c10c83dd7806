import Tsuzuri.TextBytes

/-!
# Applying the fixes of diagnostics

A round of `fix.rs` takes one fix for each diagnostic, leaves out those that overlap one already taken, and analyzes
the spliced texts again. The analysis is the caller's function, with a state of its own.
-/

namespace Tsuzuri.Fixing

def maxRounds : Nat := 5

def maxCandidates : Nat := 20000

def maxEditText : Nat := 4096

def maxSourceBytes : Nat := 4 * 1024 * 1024

inductive Applicability
  | certain | likely | maybe
  deriving DecidableEq

/-- The lowest applicability that a run applies. -/
inductive Threshold
  | certain | likely | maybe

def Threshold.admits : Threshold → Applicability → Bool
  | .certain, a => a = .certain
  | .likely, a => a ≠ .maybe
  | .maybe, _ => true

/-- The sources that a run may change. -/
inductive Scope
  | project
  | file (input : Nat)

structure Span where
  start : Nat
  stop : Nat
  source : Option Nat

structure Edit where
  span : Span
  text : Text

structure Fix where
  title : String
  applicability : Applicability
  edits : List Edit

structure Diagnostic where
  code : String
  kind : Option String
  message : String
  span : Span
  fixes : List Fix

structure DiagnosticSet where
  diagnostics : List Diagnostic
  omitted : Nat
  omittedIsLowerBound : Bool

/-- The diagnostics of one analysis: the errors, or the warnings of a successful one. -/
structure Analysis where
  errors : DiagnosticSet
  warnings : List Diagnostic

def Analysis.errorTotal (a : Analysis) : Nat := a.errors.diagnostics.length + a.errors.omitted

structure Options where
  threshold : Threshold
  scope : Scope
  onlyCodes : Option (List String)

inductive ModuleOrigin
  | user | std
  deriving DecidableEq

abbrev PackageId := String

structure SourceFile where
  path : String
  relativePath : List String
  text : Text
  origin : ModuleOrigin
  package : Option PackageId
  deriving DecidableEq

structure Project where
  sources : List SourceFile
  root : Nat
  rootPackage : Option PackageId

def Project.dependencyPackage (p : Project) (file : SourceFile) : Option PackageId :=
  file.package.filter fun package => p.rootPackage ≠ some package

def Project.setText (p : Project) (source : Nat) (text : Text) : Project :=
  { p with sources := p.sources.modify source fun file => { file with text := text } }

abbrev SourcesFor := List Text → List (String × Text)

def Project.requireNamedStd (sourcesFor : SourcesFor) (p : Project) : Project :=
  let named := sourcesFor ((p.sources.filter fun file => file.origin ≠ .std).map (·.text))
  let present := (p.sources.filter fun file => file.origin = .std).map (·.path)
  let added := (named.filter fun std => std.1 ∉ present).map fun std =>
    { path := std.1, relativePath := std.1.splitOn "/", text := std.2, origin := .std, package := none }
  { p with sources := p.sources ++ added }

/-- Why a fix was not applied. -/
inductive Skip
  | applicability | outsideProject | outsideInput | invalidEdit | roundLimit

inductive Status
  | applied (round : Nat)
  | skipped (skip : Skip)

/-- An edit at the text of the round that collected it. -/
structure RecordedEdit where
  path : String
  start : Nat
  stop : Nat
  line : Nat
  column : Nat
  stopLine : Nat
  stopColumn : Nat
  text : Text

structure FixRecord where
  status : Status
  code : String
  kind : Option String
  applicability : Applicability
  title : String
  edits : List RecordedEdit

/-- An edit resolved to a source index. -/
structure ResolvedEdit where
  source : Nat
  start : Nat
  stop : Nat
  text : Text
  deriving DecidableEq, Ord

structure Candidate where
  record : FixRecord
  edits : List ResolvedEdit

inductive ErrorKind
  | fixCandidateLimit | fixVerificationFailed

/-- An error of the command line. -/
structure SourceError where
  kind : ErrorKind
  message : String

/-- `BTreeMap::insert` -/
def put {α : Type} (key : Nat) (value : α) : List (Nat × α) → List (Nat × α)
  | [] => [(key, value)]
  | (k, v) :: rest =>
    if key < k then (key, value) :: (k, v) :: rest
    else if key = k then (key, value) :: rest
    else (k, v) :: put key value rest

/-! ## Collecting -/

def displayPath (p : Project) (source : Nat) : String :=
  match p.sources[source]? with
  | some file => "/".intercalate file.relativePath
  | none => "<invalid>"

def isCharBoundary (text : Text) (offset : Nat) : Bool := (text.suffix? offset).isSome

def floorBoundary (text : Text) : Nat → Nat
  | 0 => 0
  | offset + 1 => if isCharBoundary text (offset + 1) then offset + 1 else floorBoundary text offset

def location (text : Text) (offset : Nat) : Nat × Nat :=
  let front := (text.slice? 0 (floorBoundary text (min offset text.size))).getD []
  (front.count '\n' + 1, (front.reverse.takeWhile (· ≠ '\n')).length + 1)

def record (p : Project) (diagnostic : Diagnostic) (fix : Fix) (status : Status) : FixRecord where
  status := status
  code := diagnostic.code
  kind := diagnostic.kind
  applicability := fix.applicability
  title := fix.title
  edits := fix.edits.map fun edit =>
    let source := edit.span.source.getD p.root
    let (path, start, stop) := match p.sources[source]? with
      | some file => (displayPath p source, location file.text edit.span.start, location file.text edit.span.stop)
      | none => ("<invalid>", (0, 0), (0, 0))
    { path := path, start := edit.span.start, stop := edit.span.stop, line := start.1, column := start.2
      stopLine := stop.1, stopColumn := stop.2, text := edit.text }

def ResolvedEdit.le (a b : ResolvedEdit) : Bool :=
  a.source < b.source ||
    (a.source = b.source && (a.start < b.start || (a.start = b.start && a.stop ≤ b.stop)))

/-- The greatest `usize` -/
def usizeMax : Nat := 18446744073709551615

def Project.text? (p : Project) (source : Nat) : Option Text := (p.sources[source]?).map (·.text)

def growSize (p : Project) (sizes grown : List (Nat × Nat)) (edit : ResolvedEdit) : Option (List (Nat × Nat)) := do
  let size := (grown.lookup edit.source).getD ((sizes.lookup edit.source).getD (((p.text? edit.source).getD []).size))
  if size + edit.text.size ≤ usizeMax ∧ edit.stop - edit.start ≤ size + edit.text.size then
    some (put edit.source (size + edit.text.size - (edit.stop - edit.start)) grown)
  else none

def grownSizes (p : Project) (edits : List ResolvedEdit) (sizes : List (Nat × Nat)) : Option (List (Nat × Nat)) := do
  let grown ← edits.foldlM (growSize p sizes) []
  if grown.all (fun size => size.2 ≤ maxSourceBytes) then some grown else none

def overlapping : List ResolvedEdit → Bool
  | a :: b :: rest => (a.source = b.source && b.start < a.stop) || overlapping (b :: rest)
  | _ => false

def resolve (p : Project) (edit : Edit) : ResolvedEdit where
  source := edit.span.source.getD p.root
  start := edit.span.start
  stop := edit.span.stop
  text := edit.text

def ownSource (p : Project) (edit : ResolvedEdit) : Bool :=
  match p.sources[edit.source]? with
  | some file => file.origin = .user && (p.dependencyPackage file).isNone
  | none => false

def inText (p : Project) (edit : ResolvedEdit) : Bool :=
  let text := (p.text? edit.source).getD []
  edit.start ≤ edit.stop && edit.stop ≤ text.size && isCharBoundary text edit.start && isCharBoundary text edit.stop

def validate (p : Project) (fix : Fix) (scope : Scope) : Except Skip (List ResolvedEdit) :=
  let edits := fix.edits.map (resolve p)
  let outside : Bool := match scope with
    | .file input => edits.any fun edit => edit.source ≠ input
    | .project => false
  if edits.any fun edit => !ownSource p edit then .error .outsideProject
  else if outside then .error .outsideInput
  else if edits.any fun edit => !inText p edit then .error .invalidEdit
  else if (edits.any fun edit => maxEditText < edit.text.size) || (grownSizes p edits []).isNone then
    .error .invalidEdit
  else if overlapping (edits.mergeSort ResolvedEdit.le) || edits.isEmpty then .error .invalidEdit
  else .ok edits

def conflicts (accepted : List (Nat × List (Nat × Nat))) (edit : ResolvedEdit) : Bool :=
  match accepted.lookup edit.source with
  | none => false
  | some taken =>
    match (taken.filter fun interval => interval.1 ≤ edit.stop).getLast? with
    | none => false
    | some (_, stop) => edit.start ≤ stop

def propose (p : Project) (options : Options) (diagnostic : Diagnostic) : Option (FixRecord ⊕ Candidate) :=
  match diagnostic.fixes with
  | [] => none
  | first :: rest =>
    if options.onlyCodes.any fun codes => diagnostic.code ∉ codes then none
    else
      match (first :: rest).find? fun fix => options.threshold.admits fix.applicability with
      | none => some (.inl (record p diagnostic first (.skipped .applicability)))
      | some fix =>
        match validate p fix options.scope with
        | .ok edits => some (.inr { record := record p diagnostic fix (.applied 0), edits := edits })
        | .error skip => some (.inl (record p diagnostic fix (.skipped skip)))

/-- What the candidates are sorted by. -/
structure Key where
  source : Nat
  start : Nat
  stop : Nat
  code : String
  title : String
  edits : List ResolvedEdit
  deriving Ord

def Candidate.key (c : Candidate) : Key :=
  let (source, start, stop) := match c.edits with
    | first :: _ => (first.source, first.start, first.stop)
    | [] => (0, 0, 0)
  { source := source, start := start, stop := stop, code := c.record.code, title := c.record.title, edits := c.edits }

def Candidate.le (a b : Candidate) : Bool := (compare a.key b.key).isLE

/-- `dedup_by`: of equal edits next to each other, the first stays. -/
def dedup : List Candidate → List Candidate
  | [] => []
  | a :: rest =>
    match dedup rest with
    | b :: kept => if b.edits = a.edits then a :: kept else a :: b :: kept
    | [] => [a]

/-- The fixes taken so far in a round. -/
structure Taking where
  accepted : List (Nat × List (Nat × Nat))
  sizes : List (Nat × Nat)
  chosen : List Candidate
  skipped : List FixRecord

def takeEdit (accepted : List (Nat × List (Nat × Nat))) (edit : ResolvedEdit) : List (Nat × List (Nat × Nat)) :=
  let taken := (accepted.lookup edit.source).getD []
  put edit.source (put edit.start (max ((taken.lookup edit.start).getD edit.stop) edit.stop) taken) accepted

def Taking.candidate (p : Project) (t : Taking) (c : Candidate) : Taking :=
  if c.edits.any (conflicts t.accepted) then t
  else
    match grownSizes p c.edits t.sizes with
    | none => { t with skipped := t.skipped ++ [{ c.record with status := .skipped .invalidEdit }] }
    | some grown =>
      { accepted := c.edits.foldl takeEdit t.accepted
        sizes := grown.foldl (fun sizes size => put size.1 size.2 sizes) t.sizes
        chosen := t.chosen ++ [c]
        skipped := t.skipped }

def candidateLimit : SourceError where
  kind := .fixCandidateLimit
  message := "too many fixes (more than " ++ toString maxCandidates ++
    ") in one round; run tsuzuri fix on one file at a time"

def collect (p : Project) (analysis : Analysis) (options : Options) :
    Except SourceError (List Candidate × List FixRecord) :=
  let proposed := (analysis.errors.diagnostics ++ analysis.warnings).filterMap (propose p options)
  let skipped := proposed.filterMap Sum.getLeft?
  let candidates := dedup ((proposed.filterMap Sum.getRight?).mergeSort Candidate.le)
  let taking := candidates.foldl (Taking.candidate p) { accepted := [], sizes := [], chosen := [], skipped := skipped }
  if maxCandidates < taking.chosen.length then .error candidateLimit
  else .ok (taking.chosen, taking.skipped)

def spliceFrom (text : Text) (offset : Nat) : List ResolvedEdit → Option Text
  | [] => text.slice? offset text.size
  | edit :: edits => do
    let front ← text.slice? offset edit.start
    let rest ← spliceFrom text edit.stop edits
    some (front ++ edit.text ++ rest)

def splice (text : Text) (edits : List ResolvedEdit) : Option Text := spliceFrom text 0 edits

def bySource (edits : List ResolvedEdit) : List (Nat × List ResolvedEdit) :=
  edits.foldl (fun groups edit => put edit.source ((groups.lookup edit.source).getD [] ++ [edit]) groups) []

abbrev Saved := List (Nat × Text)

def applySource (state : Project × Saved) (group : Nat × List ResolvedEdit) : Option (Project × Saved) := do
  let (p, saved) := state
  let text ← p.text? group.1
  let fixed ← splice text (group.2.mergeSort ResolvedEdit.le)
  some (p.setText group.1 fixed, if (saved.lookup group.1).isSome then saved else put group.1 text saved)

def apply (p : Project) (chosen : List Candidate) (saved : Saved) : Option (Project × Saved) :=
  (bySource (chosen.flatMap (·.edits))).foldlM applySource (p, saved)

def restore (p : Project) (saved : Saved) : Project := saved.foldl (fun p file => p.setText file.1 file.2) p

def countKey (p : Project) (diagnostic : Diagnostic) : String × String :=
  (displayPath p (diagnostic.span.source.getD p.root), diagnostic.code)

def counts (p : Project) (diagnostics : List Diagnostic) (key : String × String) : Nat :=
  diagnostics.countP fun diagnostic => countKey p diagnostic = key

def firstIncrease (p : Project) (before after : List Diagnostic) : Option Diagnostic :=
  after.find? fun diagnostic => counts p before (countKey p diagnostic) < counts p after (countKey p diagnostic)

def worsened (p : Project) (before after : Analysis) : Option Diagnostic :=
  if after.errors.omittedIsLowerBound then after.errors.diagnostics.head?
  else
    let increase := if before.errors.omitted = 0 then
        firstIncrease p before.errors.diagnostics after.errors.diagnostics
      else none
    match increase with
    | some diagnostic => some diagnostic
    | none =>
      if before.errorTotal < after.errorTotal ∨ (before.errorTotal = 0 ∧ 0 < after.errorTotal) then
        after.errors.diagnostics.head? <|> after.warnings.head?
      else if before.errorTotal = 0 then firstIncrease p before.warnings after.warnings
      else none

def fixable (p : Project) (options : Options) (diagnostic : Diagnostic) : Bool :=
  (options.onlyCodes.all fun codes => decide (diagnostic.code ∈ codes)) &&
    (diagnostic.fixes.find? fun fix => options.threshold.admits fix.applicability).any fun fix =>
      match validate p fix options.scope with
      | .ok _ => true
      | .error _ => false

def withoutFixable (p : Project) (analysis : Analysis) (options : Options) : Analysis where
  errors :=
    { analysis.errors with
      diagnostics := analysis.errors.diagnostics.filter fun diagnostic => !fixable p options diagnostic }
  warnings := analysis.warnings.filter fun diagnostic => !fixable p options diagnostic

def verificationFailed (p : Project) (diagnostic : Diagnostic) : SourceError :=
  let source := diagnostic.span.source.getD p.root
  let text := (p.text? source).getD []
  { kind := .fixVerificationFailed
    message := "the fixes would introduce " ++ diagnostic.code ++ " in '" ++ displayPath p source ++ "' at line " ++
      toString (location text diagnostic.span.start).1 ++ ": " ++ diagnostic.message ++
      "; no file was changed; review the fixes with tsuzuri check --json" }

/-! ## The run -/

inductive Stop
  | fixedPoint | roundLimit

/-- A source that the run changed, with the number of applied fixes that edit it. -/
structure FileChange where
  source : Nat
  original : Text
  fixed : Text
  fixes : Nat

structure Report where
  rounds : Nat
  stop : Stop
  records : List FixRecord
  files : List FileChange
  last : Analysis

structure Setting (σ : Type) where
  sourcesFor : SourcesFor
  options : Options
  analyze : Project → σ → Analysis × σ

/-- The variables of the loop, with the state of the analysis. -/
structure State (σ : Type) where
  project : Project
  state : σ
  current : Analysis
  saved : Saved
  applied : List (FixRecord × List ResolvedEdit)
  rounds : Nat

inductive Round (σ : Type)
  | panic
  | failed (error : SourceError) (project : Project) (state : σ)
  | stopped (stop : Stop) (skipped : List FixRecord)
  | next (s : State σ)

variable {σ : Type}

def Setting.start (c : Setting σ) (p : Project) (state : σ) : State σ :=
  let (current, state) := c.analyze p state
  { project := p, state := state, current := current, saved := [], applied := [], rounds := 0 }

/-- One round of the loop of `run`. -/
def Setting.round (c : Setting σ) (s : State σ) : Round σ :=
  match collect s.project s.current c.options with
  | .error error => .failed error s.project s.state
  | .ok (chosen, skipped) =>
    if chosen.isEmpty then .stopped .fixedPoint skipped
    else if s.rounds = maxRounds then
      .stopped .roundLimit
        (skipped ++ chosen.map fun candidate => { candidate.record with status := .skipped .roundLimit })
    else
      match apply s.project chosen s.saved with
      | none => .panic
      | some (project, saved) =>
        let project := project.requireNamedStd c.sourcesFor
        let (next, state) := c.analyze project s.state
        match worsened project s.current (withoutFixable project next c.options) with
        | some diagnostic => .failed (verificationFailed project diagnostic) (restore project saved) state
        | none =>
          .next
            { project := project
              state := state
              current := next
              saved := saved
              applied := s.applied ++ chosen.map fun candidate =>
                ({ candidate.record with status := .applied (s.rounds + 1) }, candidate.edits)
              rounds := s.rounds + 1 }

theorem Setting.rounds_of_next {c : Setting σ} {s t : State σ} (h : c.round s = .next t) :
    s.rounds ≠ maxRounds ∧ t.rounds = s.rounds + 1 := by
  unfold Setting.round at h
  split at h
  · cases h
  · split at h
    · cases h
    · split at h
      · cases h
      · rename_i hrounds
        split at h
        · cases h
        · simp only at h
          split at h
          · cases h
          · injection h with h
            subst h
            exact ⟨hrounds, rfl⟩

/-- The end of `run`. -/
def State.finish (original : Analysis) (s : State σ) (stop : Stop) (skipped : List FixRecord) :
    Except SourceError Report × Project × σ :=
  let worse := if 0 < s.rounds then worsened s.project original s.current else none
  match worse with
  | some diagnostic => (.error (verificationFailed s.project diagnostic), restore s.project s.saved, s.state)
  | none =>
    let files := (s.saved.filter fun file => s.project.text? file.1 ≠ some file.2).map fun file =>
      { source := file.1, original := file.2, fixed := (s.project.text? file.1).getD []
        fixes := (s.applied.filter fun fix => fix.2.any fun edit => edit.source = file.1).length }
    (.ok
      { rounds := s.rounds, stop := stop, records := s.applied.map (·.1) ++ skipped, files := files
        last := s.current }, s.project, s.state)

/-- The loop of `run`. -/
def Setting.loop (c : Setting σ) (original : Analysis) (s : State σ) (hrounds : s.rounds ≤ maxRounds) :
    Option (Except SourceError Report × Project × σ) :=
  match hround : c.round s with
  | .panic => none
  | .failed error project state => some (.error error, project, state)
  | .stopped stop skipped => some (s.finish original stop skipped)
  | .next t => c.loop original t (by
      have := Setting.rounds_of_next hround
      omega)
  termination_by maxRounds - s.rounds
  decreasing_by
    have := Setting.rounds_of_next hround
    omega

/-- What `run` returns, with the project and the state of the analysis that it leaves. -/
def Setting.run (c : Setting σ) (p : Project) (state : σ) : Option (Except SourceError Report × Project × σ) :=
  let s := c.start p state
  c.loop s.current s (Nat.zero_le _)

end Tsuzuri.Fixing
