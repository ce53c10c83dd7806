import Tsuzuri.FrontendSound

/-!
# The keys of the build cache (`cache.rs`)

The fields that `build_key` feeds to its hash. `hash_into` says when a fingerprint cannot be computed; `runtime_key`
gives no key then, `build_key` goes on.
-/

namespace Tsuzuri.Cache

open List
open Sha256 (Digest)
open Frontend (toLe utf8 utf8_inj)

abbrev Fields := List (String × List UInt8)

inductive Cpu where
  | generic | native
  deriving DecidableEq

structure ToolIdentity where
  fields : Fields
  bundled : Bool
  bundledResourceFingerprint : Option String

namespace ToolIdentity

def feed (identity : ToolIdentity) : Fields → Fields → Bool × Fields
  | [], hash => (true, hash)
  | (name, bytes) :: fields, hash =>
    if name = "bundled-resources" then
      match identity.bundled, identity.bundledResourceFingerprint with
      | true, some fingerprint => identity.feed fields (hash ++ [(name, utf8 fingerprint)])
      | _, _ => (false, hash)
    else identity.feed fields (hash ++ [(name, bytes)])

def hashInto (identity : ToolIdentity) (hash : Fields) : Bool × Fields := identity.feed identity.fields hash

end ToolIdentity

/-- Clang, Zig and the fingerprint of the distribution, `none` when a resource is unreadable. -/
structure Bundle where
  resources : Option String
  clang : Digest
  zig : Option Digest
  deriving DecidableEq

/-- What `tool_identity` finds out about a tool; the stem of its path says whether it is a launcher. -/
structure Tool (launcher : List UInt8 → Bool) where
  path : List UInt8
  binary : Digest
  stdout : List UInt8
  stderr : List UInt8
  bundle : Option Bundle
  bundled : bundle.isSome = launcher path
  features : List UInt8
  diagnostics : List UInt8

variable {launcher : List UInt8 → Bool}

namespace Tool

variable (name : String) (cpu : Cpu) (tool : Tool launcher)

def bundleFields (bundle : Bundle) : Fields :=
  ("bundled-clang-binary", bundle.clang.1) :: bundle.zig.toList.map fun zig => ("bundled-zig-binary", zig.1)

def cpuFields : Fields :=
  if name = "TSUZURI_CLANG" ∧ cpu = .native then
    [("native-cpu-features", tool.features), ("native-cpu-diagnostics", tool.diagnostics)]
  else []

def ownFields : Fields :=
  [("tool-binary", tool.binary.1), ("tool-version-stdout", tool.stdout), ("tool-version-stderr", tool.stderr)]

def identity : ToolIdentity where
  fields := ("tool-path", tool.path) :: tool.ownFields ++
    (tool.bundle.elim [] fun bundle => ("bundled-resources", []) :: bundleFields bundle) ++
    tool.cpuFields name cpu
  bundled := tool.bundle.isSome
  bundledResourceFingerprint := tool.bundle.bind (·.resources)

end Tool

/-! ## The key -/

inductive Os where
  | macOs | linux | windows
  deriving DecidableEq

inductive Target where
  | native | wasm32 | wasm64
  deriving DecidableEq

inductive Backend where
  | llvm | fast
  deriving DecidableEq

inductive Emit where
  | executable | object | llvm | header | wasm | wgsl | wgslRelaxed | spirv | spirvRelaxed | bindingsJs | shared
  | bitcode | bindingsCs | bindingsPy | bindingsCpp
  deriving DecidableEq

def Emit.isKernel (emit : Emit) : Bool :=
  emit = .wgsl || emit = .wgslRelaxed || (emit = .spirv || emit = .spirvRelaxed)

/-- `BuildOptions`; the options that `build_key` reads in their `Debug` text only are in `text`. -/
structure Options where
  target : Target
  emit : Emit
  backend : Backend
  cpu : Cpu
  debugInfo : Bool
  wasmThreads : Bool
  wasmHost : Bool
  wasmOpt : Bool
  triple : Option Os
  text : String

structure Source where
  path : List UInt8
  relativePath : List UInt8
  text : String
  origin : String

inductive Profile where
  | generate (directory : List UInt8)
  | use (sha256 : Digest)

def Profile.cacheField : Profile → String × List UInt8
  | .generate directory => ("profile-generate-dir", directory)
  | .use digest => ("profile-use-sha256", digest.1)

/-- A build: the arguments of `build_key`, and what it asks the system for. -/
structure Build (launcher : List UInt8 → Bool) where
  sources : List Source
  options : Options
  action : String
  ir : String
  /-- `std::path::absolute` of the output -/
  absolute : Option (List UInt8)
  fileName : List UInt8
  pdbName : List UInt8
  clang : Option (Tool launcher)
  profile : Option Profile
  version : String
  compiler : Option Digest
  hostOs : String
  hostArch : String
  environment : String → Option (List UInt8)
  toolIdentity : String → String → Option (Tool launcher)

def keyEnvironment : List String :=
  ["TSUZURI_CLANG", "TSUZURI_WASM_LD", "TSUZURI_LLVM_LINK", "TSUZURI_DSYMUTIL", "TSUZURI_SYSROOT", "PATH", "PATHEXT",
    "SDKROOT", "MACOSX_DEPLOYMENT_TARGET", "INCLUDE", "LIB", "LIBPATH", "CPATH", "C_INCLUDE_PATH",
    "CPLUS_INCLUDE_PATH", "LIBRARY_PATH", "SOURCE_DATE_EPOCH", "DEVELOPER_DIR", "TSUZURI_ZIG", "TSUZURI_LLVM_CLANG",
    "TSUZURI_RANGE_FLAGS", "TSUZURI_STRINGS"]

def contains (text pattern : String) : Bool := (utf8 text).tails.any (utf8 pattern).isPrefixOf

section Key

variable (options : Options) (hostOs ir : String) (b : Build launcher)

def machO : Bool := options.triple.elim (hostOs == "macos") (· == .macOs)

def windows : Bool := options.triple.elim (hostOs == "windows") (· == .windows)

def tools : List (String × String) :=
  if options.emit = .llvm ∨ options.emit = .header ∨ options.emit.isKernel then []
  else
    ("TSUZURI_CLANG", "clang") ::
      (if options.emit = .wasm ∨ options.wasmThreads ∨ options.wasmHost then [("TSUZURI_WASM_LD", "wasm-ld")]
      else []) ++
      (if options.wasmOpt ∧ options.emit = .wasm then [("TSUZURI_WASM_OPT", "wasm-opt")] else []) ++
      if machO options hostOs ∧ options.debugInfo ∧ options.target = .native then
        (if options.emit = .executable ∨ options.emit = .shared then [("TSUZURI_DSYMUTIL", "dsymutil")] else []) ++
        (if options.emit = .object ∧ options.backend = .llvm ∧
            (contains ir "@tsuzuri_tz_" ∨ contains ir "@tsuzuri_channel_") then [("TSUZURI_LLVM_LINK", "llvm-link")]
          else [])
      else []

def outputPath : Option Fields :=
  (if machO b.options b.hostOs ∧ b.options.debugInfo ∧ (b.options.emit = .executable ∨ b.options.emit = .shared) then
    b.absolute.map fun path => [("debug-output-path", path)]
  else some []).map fun debug =>
    debug ++ (if b.options.emit = .shared then [("shared-library-name", b.fileName)] else []) ++
    if windows b.options b.hostOs ∧ b.options.debugInfo ∧ b.options.emit = .executable then
      [("pdb-name", b.pdbName)] else []

/-- A variable that is set to neither nothing nor `plain`. -/
def setting (name : String) (plain : List UInt8) : Option (List UInt8) :=
  (b.environment name).filter fun value => !value.isEmpty && value != plain

/-- The fields of a build before those of its tools. -/
def header (compiler : Digest) (output : Fields) : Fields :=
  ("format", toLe 8 1) :: ("compiler-version", utf8 b.version) :: ("compiler-binary", compiler.1) ::
    ("host-os", utf8 b.hostOs) :: ("host-arch", utf8 b.hostArch) :: ("options", utf8 b.options.text) ::
    ("action", utf8 b.action) :: (output ++ ("ir-and-embedded-runtime", utf8 b.ir) ::
    (b.profile.toList.map Profile.cacheField ++
    (b.sources.flatMap fun source => [("path", source.path), ("relative-path", source.relativePath),
      ("source", utf8 source.text), ("origin", utf8 source.origin)]) ++
    (keyEnvironment.map fun name => (name, (b.environment name).getD [])) ++
    (if b.options.target = .native ∧ (b.options.emit = .executable ∨ b.options.emit = .shared) then
      (setting b "TSUZURI_LINKER" (utf8 "default")).toList.map fun linker => ("linker", linker) else []) ++
    if (b.options.target = .native ∧ (b.options.emit = .executable ∨ b.options.emit = .object)) ∨
        (b.options.target = .wasm32 ∧ b.options.emit = .wasm) then
      (setting b "TSUZURI_CODEGEN_UNITS" (utf8 "single")).toList.map fun units => ("codegen-units", units)
    else []))

def toolOf (t : String × String) : Option (Tool launcher) :=
  if t.1 = "TSUZURI_CLANG" ∧ b.clang.isSome then b.clang else b.toolIdentity t.1 t.2

def hashTools : List (String × String) → Fields → Option Fields
  | [], hash => some hash
  | t :: ts, hash => do
    let found ← toolOf b t
    hashTools ts ((found.identity t.1 b.options.cpu).hashInto hash).2

/-- `build_key`, as the fields of the hash. -/
def buildKey : Option Fields := do
  let compiler ← b.compiler
  let output ← outputPath b
  hashTools b (tools b.options b.hostOs b.ir) (header b compiler output)

/-- What a key is meant to hold of a tool. -/
abbrev Component := List UInt8 × Digest × List UInt8 × List UInt8 × Option Bundle × Fields

def Tool.component (name : String) (cpu : Cpu) (tool : Tool launcher) : Component :=
  (tool.path, tool.binary, tool.stdout, tool.stderr, tool.bundle, tool.cpuFields name cpu)

/-- The tools of a build by their variables, unless one is not found. -/
def foundTools : Option (List (String × Tool launcher)) :=
  (tools b.options b.hostOs b.ir).mapM fun t => (toolOf b t).map fun tool => (t.1, tool)

def components : Option (Digest × List Component) := do
  let compiler ← b.compiler
  let found ← foundTools b
  return (compiler, found.map fun t => t.2.component t.1 b.options.cpu)

/-- `runtime_key` behind the fields of its own; `unit_key_prefix` makes its key so too. -/
def runtimeKey (hash : Fields) (clang : ToolIdentity) : Option Fields :=
  let fed := clang.hashInto hash
  if fed.1 then some fed.2 else none

end Key

section Fed

variable {name : String} {cpu : Cpu} {tool : Tool launcher} {t : String × String} {ts : List (String × String)}
  {b : Build launcher}

def Tool.details (name : String) (cpu : Cpu) (tool : Tool launcher) : Fields :=
  tool.ownFields ++ match tool.bundle with
    | none => tool.cpuFields name cpu
    | some bundle => bundle.resources.elim [] fun fingerprint =>
      ("bundled-resources", utf8 fingerprint) :: bundleFields bundle ++ tool.cpuFields name cpu

def Tool.fed (name : String) (cpu : Cpu) (tool : Tool launcher) : Fields :=
  ("tool-path", tool.path) :: tool.details name cpu

theorem feed_plain (identity : ToolIdentity) {fields : Fields} (rest hash : Fields)
    (h : ∀ f ∈ fields, f.1 ≠ "bundled-resources") :
    identity.feed (fields ++ rest) hash = identity.feed rest (hash ++ fields) := by
  induction fields generalizing hash with
  | nil => rw [nil_append, append_nil]
  | cons f fields ih =>
    obtain ⟨hf, hfields⟩ := forall_mem_cons.mp h
    rw [cons_append, ToolIdentity.feed, if_neg hf, ih _ hfields, append_assoc, singleton_append]

theorem cpuFields_names : ∀ f ∈ tool.cpuFields name cpu, f.1 ≠ "bundled-resources" ∧ f.1 ≠ "tool-path" := by
  unfold Tool.cpuFields
  split <;> simp

theorem bundleFields_names (bundle : Bundle) :
    ∀ f ∈ Tool.bundleFields bundle, f.1 ≠ "bundled-resources" ∧ f.1 ≠ "tool-path" := by
  unfold Tool.bundleFields
  cases bundle.zig <;> simp

theorem feed_all (identity : ToolIdentity) {fields : Fields} (hash : Fields)
    (h : ∀ f ∈ fields, f.1 ≠ "bundled-resources") : identity.feed fields hash = (true, hash ++ fields) := by
  rw [← append_nil fields, feed_plain identity [] hash h, ToolIdentity.feed, append_nil]

/-- `hash_into` feeds everything, or what comes before a fingerprint that is missing. -/
theorem hashInto_eq (hash : Fields) : (tool.identity name cpu).hashInto hash =
    (tool.bundle.all fun bundle => bundle.resources.isSome, hash ++ tool.fed name cpu) := by
  have hcpu (f) (hf : f ∈ tool.cpuFields name cpu) := (cpuFields_names f hf).1
  have hown : ∀ f ∈ ("tool-path", tool.path) :: tool.ownFields, f.1 ≠ "bundled-resources" := by
    simp [Tool.ownFields]
  rw [ToolIdentity.hashInto, Tool.identity, append_assoc, feed_plain _ _ _ hown, Tool.fed, Tool.details]
  cases hbundle : tool.bundle with
  | none => simp [feed_all _ _ hcpu]
  | some bundle =>
    rw [Option.elim_some, cons_append, ToolIdentity.feed.eq_def]
    cases hresources : bundle.resources with
    | none => simp [hresources]
    | some fingerprint =>
      have hfields : ∀ f ∈ Tool.bundleFields bundle ++ tool.cpuFields name cpu, f.1 ≠ "bundled-resources" :=
        forall_mem_append.mpr ⟨fun f hf => (bundleFields_names bundle f hf).1, hcpu⟩
      simp [hresources, feed_all _ _ hfields]

/-- No runtime object has a key without the fingerprint. -/
theorem runtimeKey_isSome {hash : Fields} : (runtimeKey hash (tool.identity name cpu)).isSome =
    tool.bundle.all fun bundle => bundle.resources.isSome := by
  rw [runtimeKey, hashInto_eq]
  cases tool.bundle.all fun bundle => bundle.resources.isSome <;> rfl

theorem hashTools_eq (hash : Fields) : hashTools b ts hash =
    (ts.mapM fun t => (toolOf b t).map fun tool => (t.1, tool)).map
      fun found => hash ++ found.flatMap fun t => t.2.fed t.1 b.options.cpu := by
  induction ts generalizing hash with
  | nil => simp [hashTools]
  | cons t ts ih =>
    rw [hashTools, mapM_cons]
    cases toolOf b t with
    | none => rfl
    | some tool =>
      simp only [Option.bind_eq_bind, Option.bind_some, Option.map_some, hashInto_eq, ih]
      cases ts.mapM fun t => (toolOf b t).map fun tool => (t.1, tool) with
      | none => rfl
      | some found => simp

theorem buildKey_some {key : Fields} : buildKey b = some key ↔ ∃ compiler output found,
    b.compiler = some compiler ∧ outputPath b = some output ∧ foundTools b = some found ∧
    header b compiler output ++ (found.flatMap fun t => t.2.fed t.1 b.options.cpu) = key := by
  simp [buildKey, hashTools_eq, foundTools, Option.bind_eq_some_iff]

theorem components_some {c : Digest × List Component} : components b = some c ↔ ∃ compiler found,
    b.compiler = some compiler ∧ foundTools b = some found ∧
    (compiler, found.map fun t => t.2.component t.1 b.options.cpu) = c := by
  simp [components, Option.bind_eq_some_iff]

/-! ## What is held -/

def AtPath (fields : Fields) : Prop := ∀ f ∈ fields.head?, f.1 = "tool-path"

theorem split_atPath {xs ys fields fields' : Fields} (hxs : ∀ f ∈ xs, f.1 ≠ "tool-path")
    (hys : ∀ f ∈ ys, f.1 ≠ "tool-path") (hfields : AtPath fields) (hfields' : AtPath fields')
    (h : xs ++ fields = ys ++ fields') : xs = ys ∧ fields = fields' := by
  have hnone {fields : Fields} (hfields : AtPath fields) : fields.takeWhile (·.1 != "tool-path") = [] := by
    cases fields with
    | nil => rfl
    | cons f fields => simp [hfields f rfl]
  have htaken := congrArg (takeWhile (·.1 != "tool-path")) h
  rw [takeWhile_append_of_pos (by simpa using hxs), takeWhile_append_of_pos (by simpa using hys), hnone hfields,
    hnone hfields', append_nil, append_nil] at htaken
  subst htaken
  exact ⟨rfl, append_cancel_left h⟩

theorem details_names : ∀ f ∈ tool.details name cpu, f.1 ≠ "tool-path" := by
  have hcpu (f) (hf : f ∈ tool.cpuFields name cpu) := (cpuFields_names f hf).2
  refine forall_mem_append.mpr ⟨by simp [Tool.ownFields], ?_⟩
  cases tool.bundle with
  | none => exact hcpu
  | some bundle =>
    cases hresources : bundle.resources with
    | none => simp [hresources]
    | some fingerprint =>
      simp only [hresources, Option.elim_some]
      exact forall_mem_append.mpr ⟨forall_mem_cons.mpr ⟨by simp, fun f hf => (bundleFields_names bundle f hf).2⟩, hcpu⟩

theorem zig_inj {tool tool' : Tool launcher} {zig zig' : Option Digest}
    (h : (zig.toList.map fun zig => ("bundled-zig-binary", zig.1)) ++ tool.cpuFields name cpu =
      (zig'.toList.map fun zig => ("bundled-zig-binary", zig.1)) ++ tool'.cpuFields name cpu) :
    zig = zig' ∧ tool.cpuFields name cpu = tool'.cpuFields name cpu := by
  have hhead (tool : Tool launcher) (zig : Digest) : ("bundled-zig-binary", zig.1) ∉ tool.cpuFields name cpu := by
    unfold Tool.cpuFields
    split <;> simp
  cases zig with
  | none =>
    cases zig' with
    | none => exact ⟨rfl, h⟩
    | some zig' =>
      rw [Option.toList_none, map_nil, nil_append] at h
      exact absurd (h ▸ mem_cons_self) (hhead tool zig')
  | some zig =>
    cases zig' with
    | none =>
      rw [Option.toList_none, map_nil, nil_append] at h
      exact absurd (h ▸ mem_cons_self) (hhead tool' zig)
    | some zig' =>
      obtain ⟨hzig, h⟩ := cons.inj h
      exact ⟨congrArg some (Subtype.ext (Prod.mk.inj hzig).2), h⟩

/-- What a tool whose fingerprint is there feeds tells its components. -/
theorem component_of_details {tool tool' : Tool launcher} (hpath : tool.path = tool'.path)
    (hreadable : tool.bundle.all fun bundle => bundle.resources.isSome)
    (h : tool.details name cpu = tool'.details name cpu) : tool.component name cpu = tool'.component name cpu := by
  have hbundled : tool.bundle.isSome = tool'.bundle.isSome := by rw [tool.bundled, tool'.bundled, hpath]
  simp only [Tool.details, Tool.ownFields, cons_append, nil_append, cons.injEq, Prod.mk.injEq, true_and] at h
  obtain ⟨hbinary, hstdout, hstderr, h⟩ := h
  suffices tool.bundle = tool'.bundle ∧ tool.cpuFields name cpu = tool'.cpuFields name cpu by
    rw [Tool.component, hpath, Subtype.ext hbinary, hstdout, hstderr, this.1, this.2]
    rfl
  cases hbundle : tool.bundle <;> cases hbundle' : tool'.bundle <;> rw [hbundle, hbundle'] at hbundled h
  case none.none => exact ⟨rfl, h⟩
  case none.some => cases hbundled
  case some.none => cases hbundled
  case some.some bundle bundle' =>
    rw [hbundle] at hreadable
    obtain ⟨_ | fingerprint, clang, zig⟩ := bundle
    · cases hreadable
    obtain ⟨_ | fingerprint', clang', zig'⟩ := bundle'
    · cases h
    simp only [Option.elim_some, Tool.bundleFields, cons_append, cons.injEq, Prod.mk.injEq, true_and] at h
    obtain ⟨hfingerprint, hclang, h⟩ := h
    obtain ⟨rfl, hcpu⟩ := zig_inj h
    rw [utf8_inj hfingerprint, Subtype.ext hclang]
    exact ⟨rfl, hcpu⟩

theorem atPath_fed (found : List (String × Tool launcher)) : AtPath (found.flatMap fun t => t.2.fed t.1 cpu) := by
  cases found with
  | nil => rintro f ⟨⟩
  | cons t found =>
    rintro f ⟨⟩
    rfl

/-- Tools whose fingerprints are there and others that feed the same have the same components. -/
theorem components_of_fed {found found' : List (String × Tool launcher)} (hnames : found.map (·.1) = found'.map (·.1))
    (hreadable : ∀ t ∈ found, ∀ bundle ∈ t.2.bundle, bundle.resources.isSome)
    (h : (found.flatMap fun t => t.2.fed t.1 cpu) = found'.flatMap fun t => t.2.fed t.1 cpu) :
    (found.map fun t => t.2.component t.1 cpu) = found'.map fun t => t.2.component t.1 cpu := by
  induction found generalizing found' with
  | nil =>
    obtain rfl := map_eq_nil_iff.mp hnames.symm
    rfl
  | cons t found ih =>
    obtain ⟨t', found', rfl, hname, hnames⟩ := map_eq_cons_iff.mp hnames.symm
    obtain ⟨hnow, hlater⟩ := forall_mem_cons.mp hreadable
    simp only [flatMap_cons, Tool.fed, cons_append, cons.injEq, Prod.mk.injEq, true_and, hname] at h
    obtain ⟨hdetails, hflat⟩ := split_atPath details_names details_names (atPath_fed found) (atPath_fed found') h.2
    have hall : t.2.bundle.all fun bundle => bundle.resources.isSome := by simpa [Option.all_eq_true] using hnow
    rw [map_cons, map_cons, ih hnames.symm hlater hflat, hname, component_of_details h.1 hall hdetails]

theorem output_names {output : Fields} (h : outputPath b = some output) :
    ∀ f ∈ output, f.1 ≠ "ir-and-embedded-runtime" ∧ f.1 ≠ "tool-path" := by
  obtain ⟨debug, hdebug, rfl⟩ := Option.map_eq_some_iff.mp h
  have hdebug : ∀ f ∈ debug, f.1 ≠ "ir-and-embedded-runtime" ∧ f.1 ≠ "tool-path" := by
    split at hdebug
    · obtain ⟨path, -, rfl⟩ := Option.map_eq_some_iff.mp hdebug
      simp
    · cases hdebug
      simp
  refine forall_mem_append.mpr ⟨forall_mem_append.mpr ⟨hdebug, ?_⟩, ?_⟩ <;> split <;> simp

theorem header_names {compiler : Digest} {output : Fields} (h : outputPath b = some output) :
    ∀ f ∈ header b compiler output, f.1 ≠ "tool-path" := by
  have hprofile : ∀ f ∈ b.profile.toList.map Profile.cacheField, f.1 ≠ "tool-path" := by
    cases b.profile with
    | none => simp
    | some profile => cases profile <;> simp [Profile.cacheField]
  have hvariables : ∀ name ∈ keyEnvironment, name ≠ "tool-path" := by decide
  have hone {name : String} {value : Option (List UInt8)} {p : Prop} [Decidable p] (hname : name ≠ "tool-path") :
      ∀ f ∈ if p then value.toList.map fun value => (name, value) else [], f.1 ≠ "tool-path" := by
    split <;> cases value <;> simp [hname]
  simp only [header, forall_mem_cons, forall_mem_append]
  refine ⟨by simp, by simp, by simp, by simp, by simp, by simp, by simp, fun f hf => (output_names h f hf).2, by simp,
    ⟨⟨⟨hprofile, fun f hf => ?_⟩, fun f hf => ?_⟩, hone (by simp)⟩, hone (by simp)⟩
  · obtain ⟨source, -, hf⟩ := mem_flatMap.mp hf
    have hnames : ∀ f ∈ [("path", source.path), ("relative-path", source.relativePath), ("source", utf8 source.text),
        ("origin", utf8 source.origin)], f.1 ≠ "tool-path" := by simp
    exact hnames f hf
  · obtain ⟨name, hname, rfl⟩ := mem_map.mp hf
    exact hvariables name hname

/-- A header tells the compiler, the host and the text. -/
theorem header_inj {a b : Build launcher} {compiler compiler' : Digest} {output output' : Fields}
    (ha : outputPath a = some output) (hb : outputPath b = some output')
    (h : header a compiler output = header b compiler' output') :
    compiler = compiler' ∧ a.hostOs = b.hostOs ∧ a.ir = b.ir := by
  simp only [header, cons.injEq, Prod.mk.injEq, true_and] at h
  obtain ⟨-, hcompiler, hhost, -, -, -, h⟩ := h
  have hnone {b : Build launcher} {output : Fields} (hb : outputPath b = some output) :
      output.find? (·.1 == "ir-and-embedded-runtime") = none :=
    find?_eq_none.mpr fun f hf => by simpa using (output_names hb f hf).1
  have hfind := congrArg (find? (·.1 == "ir-and-embedded-runtime")) h
  rw [find?_append, find?_append, hnone ha, hnone hb] at hfind
  simp only [find?_cons, beq_self_eq_true, Option.none_or, Option.some.injEq, Prod.mk.injEq, true_and] at hfind
  exact ⟨Subtype.ext hcompiler, utf8_inj hhost, utf8_inj hfind⟩

theorem names_of_found {found : List (String × Tool launcher)}
    (h : (ts.mapM fun t => (toolOf b t).map fun tool => (t.1, tool)) = some found) :
    found.map (·.1) = ts.map (·.1) := by
  induction ts generalizing found with
  | nil =>
    cases h
    rfl
  | cons t ts ih =>
    rw [mapM_cons] at h
    obtain ⟨first, hfirst, h⟩ := Option.bind_eq_some_iff.mp h
    obtain ⟨rest, hrest, h⟩ := Option.bind_eq_some_iff.mp h
    obtain rfl := Option.some.inj h
    obtain ⟨tool, -, rfl⟩ := Option.map_eq_some_iff.mp hfirst
    rw [map_cons, map_cons, ih hrest]

/-! ## Another Clang -/

def zeros : Digest := ⟨replicate 32 0, rfl⟩

def ones : Digest := ⟨replicate 32 1, rfl⟩

def Bundle.swap (bundle : Bundle) : Bundle :=
  if bundle.resources.isSome then bundle else { bundle with clang := if bundle.clang = zeros then ones else zeros }

def Tool.swap (tool : Tool launcher) : Tool launcher where
  __ := tool
  bundle := tool.bundle.map Bundle.swap
  bundled := by rw [Option.isSome_map, tool.bundled]

def Build.swap (b : Build launcher) : Build launcher where
  __ := b
  clang := b.clang.map Tool.swap
  toolIdentity name fallback := (b.toolIdentity name fallback).map Tool.swap

theorem found_swap : (ts.mapM fun t => (toolOf b.swap t).map fun tool => (t.1, tool)) =
    (ts.mapM fun t => (toolOf b t).map fun tool => (t.1, tool)).map (map fun t => (t.1, t.2.swap)) := by
  induction ts with
  | nil => rfl
  | cons t ts ih =>
    have htool : toolOf b.swap t = (toolOf b t).map Tool.swap := by
      unfold toolOf Build.swap
      rw [Option.isSome_map]
      split <;> rfl
    rw [mapM_cons, mapM_cons, ih, htool]
    cases toolOf b t <;> cases (ts.mapM fun t => (toolOf b t).map fun tool => (t.1, tool)) <;> rfl

theorem fed_swap : tool.swap.fed name cpu = tool.fed name cpu := by
  obtain ⟨path, binary, stdout, stderr, bundle, bundled, features, diagnostics⟩ := tool
  cases bundle with
  | none => rfl
  | some bundle =>
    obtain ⟨resources, clang, zig⟩ := bundle
    cases resources <;> rfl

theorem component_swap {bundle : Bundle} (hbundle : tool.bundle = some bundle) (hresources : bundle.resources = none) :
    tool.swap.component name cpu ≠ tool.component name cpu := by
  intro h
  have hswap : tool.bundle.map Bundle.swap = tool.bundle := congrArg (·.2.2.2.2.1) h
  rw [hbundle, Option.map_some, Bundle.swap, hresources, if_neg (by simp)] at hswap
  have hclang := congrArg Bundle.clang (Option.some.inj hswap)
  dsimp only at hclang
  split at hclang
  · rename_i hzeros
    rw [hzeros] at hclang
    exact absurd hclang (by decide)
  · rename_i hzeros
    exact hzeros hclang.symm

/-- The key of a build tells its components from those of every other build with the same sources and options exactly
when every launcher has a fingerprint, unless there is no key. -/
theorem keys_separate (a : Build launcher) :
    (∀ b : Build launcher, b.sources = a.sources → b.options = a.options → components b ≠ components a →
      ¬ ∃ key, buildKey a = some key ∧ buildKey b = some key) ↔
    (a.compiler = none ∨ outputPath a = none ∨
      ∀ found ∈ foundTools a, ∀ t ∈ found, ∀ bundle ∈ t.2.bundle, bundle.resources.isSome) := by
  constructor
  · intro h
    by_contra hcond
    simp only [not_or, not_forall] at hcond
    obtain ⟨hcompiler, houtput, found, hfound, t, ht, bundle, hbundle, hresources⟩ := hcond
    obtain ⟨compiler, hcompiler⟩ := Option.ne_none_iff_exists'.mp hcompiler
    obtain ⟨output, houtput⟩ := Option.ne_none_iff_exists'.mp houtput
    have hswapped : foundTools a.swap = some (found.map fun t => (t.1, t.2.swap)) :=
      found_swap.trans (congrArg _ hfound)
    refine h a.swap rfl rfl (fun heq => ?_)
      ⟨_, buildKey_some.mpr ⟨compiler, output, found, hcompiler, houtput, hfound, rfl⟩,
      (buildKey_some (b := a.swap)).mpr ⟨compiler, output, _, hcompiler, houtput, hswapped, ?_⟩⟩
    · have hsame := ((components_some (b := a.swap)).mpr ⟨compiler, _, hcompiler, hswapped, rfl⟩).symm.trans
        (heq.trans (components_some.mpr ⟨compiler, found, hcompiler, hfound, rfl⟩))
      have hmaps := (Prod.mk.inj (Option.some.inj hsame)).2
      rw [map_map] at hmaps
      exact component_swap hbundle (by simpa using hresources) (map_inj_left.mp hmaps t ht)
    · rw [flatMap_map]
      exact congrArg _ (congrArg (flatMap · found) (funext fun t => fed_swap))
  · rintro hcond b - hoptions hne ⟨key, ha, hb⟩
    obtain ⟨compiler, output, found, hcompiler, houtput, hfound, rfl⟩ := buildKey_some.mp ha
    obtain ⟨compiler', output', found', hcompiler', houtput', hfound', heq⟩ := buildKey_some.mp hb
    obtain ⟨hheader, hflat⟩ := split_atPath (header_names houtput') (header_names houtput) (atPath_fed _)
      (atPath_fed _) heq
    obtain ⟨rfl, hhost, hir⟩ := header_inj houtput' houtput hheader
    have hreadable := (hcond.resolve_left (by simp [hcompiler])).resolve_left (by simp [houtput])
    have hnames := names_of_found hfound'
    rw [hoptions, hhost, hir, ← names_of_found hfound] at hnames
    rw [hoptions] at hflat
    have hsame := components_of_fed hnames.symm (hreadable found hfound) hflat.symm
    refine hne ((components_some.mpr ⟨compiler', found', hcompiler', hfound', ?_⟩).trans
      (components_some.mpr ⟨compiler', found, hcompiler, hfound, rfl⟩).symm)
    rw [hoptions, hsame]

end Fed

/-- A bundled launcher of which a resource is a symbolic link. -/
def linked (clang : Digest) : Tool (· == utf8 "/opt/tsuzuri/bin/tsuzuri-clang") where
  path := utf8 "/opt/tsuzuri/bin/tsuzuri-clang"
  binary := ones
  stdout := utf8 "clang version 21"
  stderr := []
  bundle := some ⟨none, clang, none⟩
  bundled := by simp
  features := []
  diagnostics := []

def native (clang : Digest) : Build (· == utf8 "/opt/tsuzuri/bin/tsuzuri-clang") where
  sources := [⟨utf8 "main.tzr", utf8 "main.tzr", "let main = 1", "Root:None"⟩]
  options := ⟨.native, .executable, .llvm, .generic, false, false, false, false, none, "BuildOptions"⟩
  action := "build"
  ir := "define i32 @main()"
  absolute := some (utf8 "/home/main")
  fileName := utf8 "main"
  pdbName := utf8 "main.pdb"
  clang := some (linked clang)
  profile := none
  version := "1.0.0"
  compiler := some zeros
  hostOs := "linux"
  hostArch := "x86_64"
  environment _ := none
  toolIdentity _ _ := none

/-- Two builds with another Clang each have the same key. -/
theorem native_same : (native ones).sources = (native zeros).sources ∧ (native ones).options = (native zeros).options ∧
    components (native ones) ≠ components (native zeros) ∧
    ∃ key, buildKey (native ones) = some key ∧ buildKey (native zeros) = some key := by
  refine ⟨rfl, rfl, fun h => ?_, _, rfl, rfl⟩
  have hclang := congrArg (Option.map fun c => c.2.map fun tool => tool.2.2.2.2.1.map (·.clang)) h
  exact absurd hclang (by decide)

end Tsuzuri.Cache
