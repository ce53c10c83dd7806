import Mathlib.Data.List.AList
import Tsuzuri.AstCodecInterface
import Tsuzuri.Sha256

/-!
# The frontend cache

Parsed programs are kept in one pack for each project, found by a hash of the compiler, the edition and the text. The
manifest and the eviction of old files are not modelled.
-/

namespace Tsuzuri.Frontend

open Ast
open Sha256 (Digest)

abbrev Bytes := List UInt8

abbrev Edition := U16

/-- `outOfRange` is a panic of an access outside a byte string. -/
inductive Outcome (α : Type)
  | found (a : α)
  | missing
  | outOfRange

instance instMonadOutcome : Monad Outcome where
  pure := .found
  bind x f :=
    match x with
    | .found a => f a
    | .missing => .missing
    | .outOfRange => .outOfRange

/-- `bytes[i..j]` -/
def slice (bytes : Bytes) (i j : Nat) : Outcome Bytes :=
  if i ≤ j ∧ j ≤ bytes.length then .found ((bytes.drop i).take (j - i)) else .outOfRange

/-- `bytes.get(i..j)?` -/
def sliceOr (bytes : Bytes) (i j : Nat) : Outcome Bytes :=
  if i ≤ j ∧ j ≤ bytes.length then .found ((bytes.drop i).take (j - i)) else .missing

/-- `i.checked_add(j)?` of `usize`. -/
def checkedAdd (i j : Nat) : Outcome Nat := if i + j < 2 ^ 64 then .found (i + j) else .missing

def toLe : (size n : Nat) → Bytes
  | 0, _ => []
  | size + 1, n => UInt8.ofNat (n % 256) :: toLe size (n / 256)

def ofLe : Bytes → Nat
  | [] => 0
  | byte :: bytes => byte.toNat + 256 * ofLe bytes

def leU64 (bytes : Bytes) : Outcome Nat := if bytes.length = 8 then .found (ofLe bytes) else .missing

/-- `bytes.try_into().ok()?` -/
def digest (bytes : Bytes) : Outcome Digest := if h : bytes.length = 32 then .found ⟨bytes, h⟩ else .missing

/-- `text.as_bytes()` -/
def utf8 (text : String) : Bytes := text.toByteArray.data.toList

/-- What `Sha256::field` adds to what is hashed. -/
def field (tag : String) (bytes : Bytes) : Bytes :=
  toLe 8 (utf8 tag).length ++ utf8 tag ++ toLe 8 bytes.length ++ bytes

def keyBytes (identity : Digest) (edition : Edition) (text : String) : Bytes :=
  field "identity" identity.1 ++ field "edition" (toLe 2 edition.toNat) ++ field "source" (utf8 text)

/-- The parser. It knows the source only as the tag of the positions, and sets only the bits of
`@trusted` that have a name. -/
structure Parser (δ : Type) where
  parse : String → Usize → Edition → Except δ Program
  retag {text : String} {s t : Usize} {edition : Edition} {program : Program}
    (h : parse text s edition = .ok program) : parse text t edition = .ok (program.retag s t)
  known {text : String} {s : Usize} {edition : Edition} {program : Program}
    (h : parse text s edition = .ok program) : ∀ a ∈ program.trusted, a.Known

structure Parsed where
  program : Program
  key : Digest
  interface : Digest

section Compiler

variable {δ : Type} (parser : Parser δ) (sha256 : Bytes → Digest) (identity : Digest)

def parseKey (edition : Edition) (text : String) : Digest := sha256 (keyBytes identity edition text)

def interfaceHash (program : Program) (source : Usize) : Option Digest :=
  (encode program source .interface).map fun bytes =>
    sha256 (field "identity" identity.1 ++ field "interface" bytes)

/-! ## Packs -/

def frontendFormat : Nat := 18
def packHeaderBytes : Nat := 84
def entryHeaderBytes : Nat := 84
def checksumBytes : Nat := 32
def maxEntryBytes : Nat := 64 * 1024 * 1024
def maxPackBytes : Nat := 512 * 1024 * 1024

/-- `TZPACK` and two zeros. -/
def packMagic : Bytes := [84, 90, 80, 65, 67, 75, 0, 0]

/-- `TZFRONT` and a zero. -/
def entryMagic : Bytes := [84, 90, 70, 82, 79, 78, 84, 0]

/-- A range of bytes of a pack. -/
structure Range where
  start : Nat
  stop : Nat

abbrev Packed := AList fun _ : Digest => Range

/-- The loop of `index_pack`. -/
def indexEntries (pack : Bytes) : (count at' : Nat) → Packed → Outcome Packed
  | 0, at', entries => if at' = pack.length then .found entries else .missing
  | count + 1, at', entries => do
    let header ← sliceOr pack at' (← checkedAdd at' entryHeaderBytes)
    let payload ← leU64 (← slice header 76 84)
    let stop ← checkedAdd (← checkedAdd (← checkedAdd at' entryHeaderBytes) payload) checksumBytes
    if pack.length < stop then .missing
    else indexEntries pack count stop (entries.insert (← digest (← slice header 12 44)) ⟨at', stop⟩)

/-- The entries of a pack for `project` by parse key. -/
def indexPack (pack : Bytes) (project : Digest) : Outcome Packed := do
  let header ← sliceOr pack 0 packHeaderBytes
  let magic ← slice header 0 8
  let format ← slice header 8 12
  let hash ← slice header 44 76
  if magic ≠ packMagic ∨ format ≠ toLe 4 frontendFormat ∨ hash ≠ project.1 then .missing
  else indexEntries pack (← leU64 (← slice header 76 84)) packHeaderBytes ∅

def entryBody (key interface : Digest) (payload : Bytes) : Bytes :=
  entryMagic ++ toLe 4 frontendFormat ++ key.1 ++ interface.1 ++ toLe 8 payload.length ++ payload

def entryBytes (key interface : Digest) (payload : Bytes) : Bytes :=
  entryBody key interface payload ++ (sha256 (entryBody key interface payload)).1

/-- The program of a valid entry for `key`, decoded as source `source`. -/
def load (bytes : Bytes) (key : Digest) (source : Usize) : Outcome Parsed :=
  if bytes.length < checksumBytes ∨ bytes.length - checksumBytes < entryHeaderBytes then .missing
  else do
    let bodyLength := bytes.length - checksumBytes
    let body ← slice bytes 0 bodyLength
    let checksum ← slice bytes bodyLength bytes.length
    let magic ← slice body 0 8
    let format ← slice body 8 12
    let name ← slice body 12 44
    let length ← slice body 76 84
    if (sha256 body).1 ≠ checksum ∨ magic ≠ entryMagic ∨ format ≠ toLe 4 frontendFormat ∨ name ≠ key.1 ∨
        length ≠ toLe 8 (bodyLength - entryHeaderBytes) then .missing
    else
      match decode (← slice body entryHeaderBytes bodyLength) source with
      | none => .missing
      | some program => return ⟨program, key, ← digest (← slice body 44 76)⟩

/-! ## The cache of an analysis -/

/-- Where an entry of this analysis comes from. -/
inductive Stored
  | packed (range : Range)
  | fresh (entry : Bytes)

/-- What a lookup found out about one source. -/
structure Lookup where
  key : Digest
  rejected : Bool
  stored : Option Stored

structure Stats where
  hits : Nat
  misses : Nat
  rejected : Nat

structure FrontendCache where
  project : Digest
  pack : Bytes
  packed : Packed
  entries : List (Digest × Stored)
  kept : List Digest
  stats : Stats

def emptyCache (project : Digest) : FrontendCache := ⟨project, [], ∅, [], [], ⟨0, 0, 0⟩⟩

/-- `FrontendCache::open`, with the pack that `read_regular` reads. -/
def openPack (project : Digest) (file : Option Bytes) : Outcome FrontendCache :=
  match file with
  | none => .found (emptyCache project)
  | some pack =>
    if maxPackBytes < pack.length then .found (emptyCache project)
    else
      match sliceOr pack 12 44 with
      | .found writer =>
        if writer ≠ identity.1 then .found (emptyCache project)
        else
          match indexPack pack project with
          | .found packed => .found { emptyCache project with pack, packed }
          | .missing => .found { emptyCache project with stats := ⟨0, 0, 1⟩ }
          | .outOfRange => .outOfRange
      | .missing => .found (emptyCache project)
      | .outOfRange => .outOfRange

def parseSource (text : String) (source : Usize) (edition : Edition) : Except δ Parsed × Option Stored :=
  let key := parseKey sha256 identity edition text
  match parser.parse text source edition with
  | .error errors => (.error errors, none)
  | .ok program =>
    match encode program source .full, interfaceHash sha256 identity program source with
    | some full, some interface =>
      let entry := entryBytes sha256 key interface full
      (.ok ⟨program, key, interface⟩, if entry.length ≤ maxEntryBytes then some (.fresh entry) else none)
    | _, _ => (.ok ⟨program, key, key⟩, none)

def FrontendCache.lookup (cache : FrontendCache) (text : String) (source : Usize) (edition : Edition) :
    Outcome (Except δ Parsed × Lookup) :=
  let key := parseKey sha256 identity edition text
  let miss (rejected : Bool) :=
    let (parsed, stored) := parseSource parser sha256 identity text source edition
    Outcome.found (parsed, Lookup.mk key rejected stored)
  match cache.packed.lookup key with
  | none => miss false
  | some range =>
    match slice cache.pack range.start range.stop with
    | .found entry =>
      match load sha256 entry key source with
      | .found parsed => .found (.ok parsed, ⟨key, false, some (.packed range)⟩)
      | .missing => miss true
      | .outOfRange => .outOfRange
    | _ => .outOfRange

def FrontendCache.keep (cache : FrontendCache) (key : Digest) (stored : Stored) : FrontendCache :=
  if key ∈ cache.kept then cache
  else { cache with kept := key :: cache.kept, entries := cache.entries ++ [(key, stored)] }

def FrontendCache.commit (cache : FrontendCache) (lookup : Lookup) : FrontendCache :=
  let cache :=
    if lookup.rejected ∧ lookup.key ∈ cache.packed then
      { cache with
        packed := cache.packed.erase lookup.key
        stats := { cache.stats with rejected := cache.stats.rejected + 1 } }
    else cache
  match lookup.stored with
  | some (.packed range) =>
    { cache with stats := { cache.stats with hits := cache.stats.hits + 1 } }.keep lookup.key (.packed range)
  | some (.fresh entry) =>
    { cache with stats := { cache.stats with misses := cache.stats.misses + 1 } }.keep lookup.key (.fresh entry)
  | none => { cache with stats := { cache.stats with misses := cache.stats.misses + 1 } }

def Stored.bytes (pack : Bytes) : Stored → Outcome Bytes
  | .packed range => slice pack range.start range.stop
  | .fresh entry => .found entry

def storedBytes (pack : Bytes) : List (Digest × Stored) → Outcome Bytes
  | [] => .found []
  | (_, stored) :: entries => do return (← stored.bytes pack) ++ (← storedBytes pack entries)

def packHeader (project : Digest) (count : Nat) : Bytes :=
  packMagic ++ toLe 4 frontendFormat ++ identity.1 ++ project.1 ++ toLe 8 count

def FrontendCache.packBytes (cache : FrontendCache) : Outcome Bytes := do
  return packHeader identity cache.project cache.entries.length ++ (← storedBytes cache.pack cache.entries)

def Stored.isPacked : Stored → Bool
  | .packed _ => true
  | .fresh _ => false

/-- The pack, when the entries changed and it is small enough, and the cache after it. -/
def FrontendCache.finish (cache : FrontendCache) : Outcome (FrontendCache × Option Bytes) :=
  let cleared := { cache with pack := [], packed := ∅, entries := [], kept := [] }
  if cache.entries.length = cache.packed.keys.length ∧ cache.entries.all (·.2.isPacked) then
    .found (cleared, none)
  else do
    let pack ← cache.packBytes identity
    return (cleared, if pack.length ≤ maxPackBytes then some pack else none)

end Compiler

end Tsuzuri.Frontend
