import Mathlib.Data.List.Basic
import Mathlib.Data.Prod.Lex
import Mathlib.Data.String.Basic

/-!
# Version selection

`tsuzuri fetch` chooses the versions of the registry packages in three phases.
-/

namespace Tsuzuri.Registry

open Std (TreeMap TreeSet)

instance lawfulEqOrdLex {α β : Type} [LinearOrder α] [LinearOrder β] : Std.LawfulEqOrd (α ×ₗ β) where
  eq_of_compare := compare_eq_iff_eq.mp

/-- `MAJOR.MINOR.PATCH` -/
structure Version where
  major : Nat
  minor : Nat
  patch : Nat
  deriving DecidableEq

namespace Version

def key (v : Version) : ℕ ×ₗ ℕ ×ₗ ℕ := toLex (v.major, toLex (v.minor, v.patch))

theorem key_inj : Function.Injective key := by
  rintro ⟨a, b, c⟩ ⟨a', b', c'⟩ h
  simpa [key] using h

instance linearOrderVersion : LinearOrder Version := LinearOrder.lift' key key_inj

/-- The compatibility range: the major version from 1.0.0 on, and `0.minor` before. -/
def series (v : Version) : ℕ ×ₗ ℕ := toLex (v.major, if v.major = 0 then v.minor else 0)

def compatible (v other : Version) : Bool := decide (v.series = other.series)

def satisfies (v requirement : Version) : Bool := requirement.compatible v && decide (requirement ≤ v)

def text (v : Version) : String := s!"{v.major}.{v.minor}.{v.patch}"

end Version

/-- A manifest and a place in it. -/
structure Location where
  manifest : String
  span : Nat × Nat
 

/-- `other` stands for what git, the store and the file system report. -/
inductive DiagnosticKind
  | registryIndexMissing
  | registryIndexTooLarge
  | registryIndexInvalid
  | registryPackageMissing
  | registryVersionMissing
  | registryResolutionLimit
  | incompatibleDependencyVersions
  | other
  deriving DecidableEq

structure SourceError where
  location : Location
  kind : DiagnosticKind
  message : String
 

def Location.error (location : Location) (kind : DiagnosticKind) (message : String) : SourceError :=
  ⟨location, kind, message⟩

/-- How the selection ends without a result. `fuel` is the model's own. -/
inductive Stop
  | error (error : SourceError)
  | panic
  | fuel
 

/-- A published version. The dependencies are in the order of their map. -/
structure IndexEntry where
  git : String
  rev : String
  sha256 : String
  dependencies : List (String × Version)

abbrev Versions := TreeMap Version IndexEntry

/-- An index file: more than 1 MiB, one that `parse_index` rejects, or one that it reads. -/
inductive IndexFile
  | tooLarge
  | invalid (detail : String)
  | versions (versions : Versions)

structure Index where
  location : Location
  files : TreeMap String IndexFile
  entries : TreeMap String Versions

def Index.open' (location : Location) (files : TreeMap String IndexFile) : Index := ⟨location, files, ∅⟩

def Index.read (index : Index) (name : String) : Except Stop Index :=
  match index.files[name]? with
  | none => .error .panic
  | some .tooLarge => .error (.error (index.location.error .registryIndexTooLarge
      s!"the registry index file for '{name}' exceeds 1 MiB"))
  | some (.invalid detail) => .error (.error (index.location.error .registryIndexInvalid
      s!"the registry index file for '{name}' is invalid ({detail}); fix index/{name}.json in the registry index"))
  | some (.versions versions) => .ok { index with entries := index.entries.insert name versions }

def Index.load (index : Index) (names : List String) : Except Stop Index :=
  let names := (TreeSet.ofList (names.filter fun name =>
    !index.entries.contains name && index.files.contains name)).toList
  match names.find? fun name => index.files[name]? matches some .tooLarge with
  | some name => index.read name
  | none => names.foldlM Index.read index

/-! ## The visit -/

/-- `by_`: `app` for a manifest of the graph, or `name version` for an index entry. -/
structure Requirement where
  name : String
  version : Version
  by_ : String
  location : Location
 

def maxPackages : Nat := 1024

def maxVersions : Nat := 16384

structure Visit where
  index : Index
  required : TreeMap String (List Requirement)
  visited : TreeSet (String ×ₗ Version)
  queue : List Requirement

/-- The requirements that `version` of a package states. -/
def IndexEntry.requirements (entry : IndexEntry) (requirement : Requirement) (version : Version) :
    List Requirement :=
  entry.dependencies.map fun (dependency, minimum) =>
    ⟨dependency, minimum, s!"{requirement.name} {version.text}", requirement.location⟩

def visitOne (first : Location) (visit : Visit) (requirement : Requirement) : Except Stop Visit :=
  match visit.index.entries[requirement.name]? with
  | none => .error (.error (requirement.location.error .registryPackageMissing
      s!"the registry index has no package '{requirement.name}'"))
  | some versions =>
    match versions[requirement.version]? with
    | none => .error (.error (requirement.location.error .registryVersionMissing
        (s!"the registry index has no version {requirement.version.text} of '{requirement.name}' " ++
          s!"(required by {requirement.by_})")))
    | some entry =>
      let key : String ×ₗ Version := toLex (requirement.name, requirement.version)
      let queue := if visit.visited.contains key then visit.queue
        else visit.queue ++ entry.requirements requirement requirement.version
      let visited := visit.visited.insert key
      let required := visit.required.insert requirement.name (visit.required.getD requirement.name [] ++ [requirement])
      if required.size > maxPackages ∨ visited.size > maxVersions then
        .error (.error (first.error .registryResolutionLimit
          s!"registry resolution exceeds {maxPackages} packages or {maxVersions} package versions"))
      else .ok { visit with required := required, visited := visited, queue := queue }

def visitAll (first : Location) : Nat → Visit → Except Stop Visit
  | fuel, visit =>
    if visit.queue = [] then .ok visit
    else
      match fuel with
      | 0 => .error .fuel
      | fuel + 1 => do
        let index ← visit.index.load (visit.queue.map (·.name))
        let visit ← visit.queue.foldlM (visitOne first) { visit with index := index, queue := [] }
        visitAll first fuel visit

abbrev Newest := TreeMap (String ×ₗ (ℕ ×ₗ ℕ)) Version

def newestOne (name : String) (newest : Newest) (requirement : Requirement) : Newest :=
  let key : String ×ₗ (ℕ ×ₗ ℕ) := toLex (name, requirement.version.series)
  let slot := newest.getD key requirement.version
  newest.insert key (if requirement.version > slot then requirement.version else slot)

def newestOf (required : TreeMap String (List Requirement)) : Newest :=
  required.toList.foldl (fun newest (name, requirements) => requirements.foldl (newestOne name) newest) ∅

/-! ## The walk over the chosen versions -/

def incompatible (first requirement : Requirement) : SourceError :=
  let (lower, higher) := if first.version < requirement.version then (first, requirement) else (requirement, first)
  requirement.location.error .incompatibleDependencyVersions
    (s!"package '{requirement.name}' is required at incompatible versions {lower.version.text} (by {lower.by_}) " ++
      s!"and {higher.version.text} (by {higher.by_}); one package name has one version")

/-- `pending` is a stack, and its top is the head of the list. -/
def reach (index : Index) (newest : Newest) :
    Nat → TreeMap String Requirement → List Requirement → Except Stop (TreeMap String Requirement)
  | _, reached, [] => .ok reached
  | 0, _, _ :: _ => .error .fuel
  | fuel + 1, reached, requirement :: pending =>
    let series := requirement.version.series
    match newest[(toLex (requirement.name, series) : String ×ₗ (ℕ ×ₗ ℕ))]? with
    | none => .error .panic
    | some version =>
      match reached[requirement.name]? with
      | some first =>
        if first.version.series ≠ series then .error (.error (incompatible first requirement))
        else reach index newest fuel reached pending
      | none =>
        match index.entries[requirement.name]? >>= fun versions => versions[version]? with
        | none => .error .panic
        | some entry =>
          reach index newest fuel (reached.insert requirement.name requirement)
            (entry.requirements requirement version ++ pending)

def fetchOne (index : Index) (newest : Newest)
    (fetchPackage : String → Version → IndexEntry → Location → Except SourceError Unit)
    (selected : TreeMap String Version) : String × Requirement → Except Stop (TreeMap String Version)
  | (name, first) =>
    match newest[(toLex (name, first.version.series) : String ×ₗ (ℕ ×ₗ ℕ))]? with
    | none => .error .panic
    | some version =>
      match index.entries[name]? >>= fun versions => versions[version]? with
      | none => .error .panic
      | some entry =>
        match fetchPackage name version entry first.location with
        | .error error => .error (.error error)
        | .ok () => .ok (selected.insert name version)

def walkFuel (requirements : List Requirement) (visit : Visit) : Nat :=
  requirements.length + (visit.visited.toList.map fun key =>
    match visit.index.entries[(ofLex key).1]? >>= fun versions => versions[(ofLex key).2]? with
    | some entry => entry.dependencies.length
    | none => 0).foldr (· + ·) 0

def choose (requirements : List Requirement) (visit : Visit)
    (fetchPackage : String → Version → IndexEntry → Location → Except SourceError Unit) :
    Except Stop (TreeMap String Version) := do
  let newest := newestOf visit.required
  let reached ← reach visit.index newest (walkFuel requirements visit) ∅ requirements
  reached.toList.foldlM (fetchOne visit.index newest fetchPackage) ∅

/-- `Fetcher::select`. `registry`: the index of the root manifest, with what opening it gives. -/
def select (requirements : List Requirement)
    (registry : Option (Location × Except SourceError (TreeMap String IndexFile)))
    (fetchPackage : String → Version → IndexEntry → Location → Except SourceError Unit) :
    Except Stop (TreeMap String Version) :=
  match requirements with
  | [] => .error .panic
  | first :: _ =>
    match registry with
    | none => .error (.error (first.location.error .registryIndexMissing
        s!"registry dependency '{first.name}' needs a [registry] index in the root package's Tsuzuri.toml"))
    | some (_, .error error) => .error (.error error)
    | some (location, .ok files) => do
      let visit ← visitAll first.location (maxVersions + 2) ⟨.open' location files, ∅, ∅, requirements⟩
      choose requirements visit fetchPackage

end Tsuzuri.Registry
