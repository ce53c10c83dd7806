import Mathlib.Logic.Relation
import Tsuzuri.FrontendSound

/-!
# The cache does not show

Any number of analyses look up and commit sources and write packs, while the files of packs change under them.
-/

namespace Tsuzuri.Frontend

open Ast List
open Sha256 (Digest)

variable {δ : Type}

section Runs

variable (parser : Parser δ) (sha256 : Bytes → Digest) (identity : Digest) (sources : Set (String × Edition))

def CollisionFree : Prop :=
  Set.InjOn sha256 ((fun source : String × Edition => keyBytes identity source.2 source.1) '' sources)

def Written (entry : Bytes) (key : Digest) : Prop :=
  ∃ text source edition program full interface, (text, edition) ∈ sources ∧
    parser.parse text source edition = .ok program ∧ encode program source .full = some full ∧
    interfaceHash sha256 identity program source = some interface ∧
    key = parseKey sha256 identity edition text ∧ entry = entryBytes sha256 key interface full

/-- The keys that lookups ask for. -/
def sourceKeys : Set Digest := (fun source : String × Edition => parseKey sha256 identity source.2 source.1) '' sources

/-- What is found in the file under the key of a source, with that key in its body and the right checksum, was written
by this compiler. The file may hold anything else: other entries, the pack of another compiler, no pack at all. -/
def Trusted (file : Bytes) : Prop :=
  ∀ project packed, indexPack file project = .found packed → ∀ key ∈ sourceKeys sha256 identity sources,
    ∀ range, packed.lookup key = some range → ∀ entry, slice file range.start range.stop = .found entry →
      Matching sha256 entry key → Written parser sha256 identity sources entry key

/-- An analysis: its cache, and its lookups that are not committed yet. -/
structure Session where
  cache : FrontendCache
  pending : List Lookup

structure World where
  disk : Digest → Option Bytes
  sessions : Nat → Option Session

def World.set (world : World) (n : Nat) (session : Option Session) : World :=
  { world with sessions := Function.update world.sessions n session }

def World.write (world : World) (project : Digest) (file : Option Bytes) : World :=
  { world with disk := Function.update world.disk project file }

inductive Step : World → World → Prop
  | disturb {world : World} (project : Digest) (file : Option Bytes)
    (hfile : ∀ bytes, file = some bytes → Trusted parser sha256 identity sources bytes) :
    Step world (world.write project file)
  | start {world : World} {cache : FrontendCache} (n : Nat) (project : Digest)
    (hopen : openPack identity project (world.disk project) = .found cache) :
    Step world (world.set n (some ⟨cache, []⟩))
  | lookup {world : World} {session : Session} {n : Nat} {text : String} {source : Usize} {edition : Edition}
    {parsed : Except δ Parsed} {lookup : Lookup} (hsession : world.sessions n = some session)
    (hsource : (text, edition) ∈ sources)
    (hlookup : session.cache.lookup parser sha256 identity text source edition = .found (parsed, lookup)) :
    Step world (world.set n (some { session with pending := session.pending ++ [lookup] }))
  | commit {world : World} {session : Session} {n : Nat} {lookup : Lookup} {before after : List Lookup}
    (hsession : world.sessions n = some session) (hpending : session.pending = before ++ lookup :: after) :
    Step world (world.set n (some ⟨session.cache.commit lookup, before ++ after⟩))
  | finish {world : World} {session : Session} {n : Nat} {cache : FrontendCache} {file : Option Bytes}
    (wrote : Bool) (hsession : world.sessions n = some session) (hpending : session.pending = [])
    (hfinish : session.cache.finish identity = .found (cache, file)) :
    Step world ((if wrote ∧ file.isSome then world.write session.cache.project file else world).set n
      (some ⟨cache, []⟩))
  | stop {world : World} (n : Nat) : Step world (world.set n none)

def Initial (world : World) : Prop :=
  (∀ project file, world.disk project = some file → Trusted parser sha256 identity sources file) ∧
    ∀ n, world.sessions n = none

/-! ## What holds in every run -/

def Ours (pack : Bytes) (key : Digest) (stored : Stored) : Prop :=
  ∃ entry, stored.bytes pack = .found entry ∧ Written parser sha256 identity sources entry key

/-- Whatever the session may hand out under the key of a source was written for that source. -/
structure Session.Sound (session : Session) : Prop where
  packed : ∀ key range, session.cache.packed.lookup key = some range → ∃ entry,
    slice session.cache.pack range.start range.stop = .found entry ∧
      (key ∈ sourceKeys sha256 identity sources → Matching sha256 entry key →
        Written parser sha256 identity sources entry key)
  pending : ∀ lookup ∈ session.pending, ∀ stored, lookup.stored = some stored →
    Ours parser sha256 identity sources session.cache.pack lookup.key stored
  entries : ∀ s ∈ session.cache.entries, Ours parser sha256 identity sources session.cache.pack s.1 s.2
  nodup : (session.cache.entries.map Prod.fst).Nodup
  kept : ∀ s ∈ session.cache.entries, s.1 ∈ session.cache.kept

structure World.Sound (world : World) : Prop where
  disk : ∀ project file, world.disk project = some file → Trusted parser sha256 identity sources file
  sessions : ∀ n session, world.sessions n = some session → session.Sound parser sha256 identity sources

end Runs

variable {key : Digest} {stored : Stored} {pack : Bytes}

section Lookups

variable {parser : Parser δ} {sha256 : Bytes → Digest} {identity project : Digest} {sources : Set (String × Edition)}
  {text : String} {source : Usize} {edition : Edition}
variable {entry : Bytes}

theorem Written.isEntry (h : Written parser sha256 identity sources entry key) : IsEntry sha256 entry key := by
  obtain ⟨text, source, edition, program, full, interface, -, -, -, -, -, hentry⟩ := h
  exact ⟨interface, full, hentry⟩

theorem source_of_key (hfree : CollisionFree sha256 identity sources) {text' : String} {edition' : Edition}
    (h : (text, edition) ∈ sources) (h' : (text', edition') ∈ sources)
    (hkey : parseKey sha256 identity edition text = parseKey sha256 identity edition' text') :
    edition = edition' ∧ text = text' :=
  keyBytes_inj (hfree ⟨_, h, rfl⟩ ⟨_, h', rfl⟩ hkey)

theorem decode_of_encode {program : Program} {s : Usize} {full : Bytes} (hknown : ∀ a ∈ program.trusted, a.Known)
    (h : encode program s .full = some full) (t : Usize) : decode full t = some (program.retag s t) := by
  obtain ⟨r, hrun, hrest, -⟩ := reads_encode (fun _ => hknown) h t (.start full) [] (by simp)
  exact decode_eq_some_iff.mpr ⟨r, hrun, hrest⟩

theorem encode_retag {program : Program} {s : Usize} {full : Bytes} (hknown : ∀ a ∈ program.trusted, a.Known)
    (h : encode program s .full = some full) (t : Usize) : encode (program.retag s t) t .full = some full := by
  obtain ⟨r, hrun, hrest⟩ := decode_eq_some_iff.mp (decode_of_encode hknown h t)
  exact encode_of_get hrun hrest

theorem interfaceHash_retag (program : Program) (s t : Usize) :
    interfaceHash sha256 identity (program.retag s t) t = interfaceHash sha256 identity program s := by
  rw [interfaceHash, encode_interface_retag, interfaceHash]

theorem parseSource_of_written (hfree : CollisionFree sha256 identity sources) (hsource : (text, edition) ∈ sources)
    (h : Written parser sha256 identity sources entry (parseKey sha256 identity edition text)) {parsed : Parsed}
    (hload : load sha256 entry (parseKey sha256 identity edition text) source = .found parsed) :
    (parseSource parser sha256 identity text source edition).1 = .ok parsed := by
  obtain ⟨text', s, edition', program, full, interface, hsource', hparse, hfull, hinterface, hkey, rfl⟩ := h
  obtain ⟨rfl, rfl⟩ := source_of_key hfree hsource hsource' hkey
  rw [load_entryBytes, decode_of_encode (parser.known hparse) hfull source] at hload
  cases hload
  have hagain := encode_retag (parser.known hparse) hfull source
  have hhash : interfaceHash sha256 identity (program.retag s source) source = some interface := by
    rw [interfaceHash_retag, hinterface]
  simp only [parseSource, parser.retag hparse, hagain, hhash]

theorem written_of_parseSource (hsource : (text, edition) ∈ sources)
    (h : (parseSource parser sha256 identity text source edition).2 = some stored) :
    Ours parser sha256 identity sources pack (parseKey sha256 identity edition text) stored := by
  unfold parseSource at h
  split at h
  · cases h
  · rename_i program hparse
    simp only at h
    split at h
    · rename_i full interface hfull hinterface
      simp only at h
      split at h
      · cases h
        exact ⟨_, rfl, text, source, edition, program, full, interface, hsource, hparse, hfull, hinterface, rfl, rfl⟩
      · cases h
    · cases h

theorem lookup_eq (hfree : CollisionFree sha256 identity sources) {session : Session}
    (h : session.Sound parser sha256 identity sources) (hsource : (text, edition) ∈ sources) (source : Usize) :
    ∃ lookup, session.cache.lookup parser sha256 identity text source edition =
        .found ((parseSource parser sha256 identity text source edition).1, lookup) ∧
      ∀ stored, lookup.stored = some stored →
        Ours parser sha256 identity sources session.cache.pack lookup.key stored := by
  unfold FrontendCache.lookup
  simp only
  split
  · exact ⟨_, rfl, fun stored hstored => written_of_parseSource hsource hstored⟩
  · rename_i range hrange
    obtain ⟨entry, hentry, hwritten⟩ := h.packed _ _ hrange
    rw [hentry]
    simp only
    split
    · rename_i parsed hload
      have hours := hwritten ⟨_, hsource, rfl⟩ (matching_of_load hload)
      rw [parseSource_of_written hfree hsource hours hload]
      refine ⟨_, rfl, fun stored hstored => ?_⟩
      cases hstored
      exact ⟨entry, hentry, hours⟩
    · exact ⟨_, rfl, fun stored hstored => written_of_parseSource hsource hstored⟩
    · rename_i hload
      exact (load_inRange _ _ _ _ hload).elim

end Lookups

/-! ## One step -/

section Steps

variable {parser : Parser δ} {sha256 : Bytes → Digest} {identity project : Digest} {sources : Set (String × Edition)}
  {session : Session} {world world' : World}
variable {packed : Packed} {range : Range} {cache : FrontendCache} {file : Option Bytes}

theorem indexEntries_ranges {count at' : Nat} {packed' : Packed}
    (h : indexEntries pack count at' packed = .found packed')
    (hpacked : ∀ key range, packed.lookup key = some range → range.start ≤ range.stop ∧ range.stop ≤ pack.length)
    (hrange : packed'.lookup key = some range) : range.start ≤ range.stop ∧ range.stop ≤ pack.length := by
  induction count generalizing at' packed with
  | zero =>
    unfold indexEntries at h
    split at h
    · cases h
      exact hpacked _ _ hrange
    · cases h
  | succ count ih =>
    rw [indexEntries] at h
    obtain ⟨_, -, h⟩ := bind_found.mp h
    obtain ⟨_, -, h⟩ := bind_found.mp h
    obtain ⟨_, -, h⟩ := bind_found.mp h
    obtain ⟨payload, -, h⟩ := bind_found.mp h
    obtain ⟨first, hfirst, h⟩ := bind_found.mp h
    obtain ⟨second, hsecond, h⟩ := bind_found.mp h
    obtain ⟨stop, hstop, h⟩ := bind_found.mp h
    have hle : at' ≤ stop := by
      have hadd : ∀ {i j k : Nat}, checkedAdd i j = .found k → i ≤ k := fun {i j k} hk => by
        unfold checkedAdd at hk
        split at hk
        · rw [← Outcome.found.inj hk]
          exact Nat.le_add_right ..
        · cases hk
      exact Nat.le_trans (hadd hfirst) (Nat.le_trans (hadd hsecond) (hadd hstop))
    split at h
    · cases h
    · rename_i hin
      obtain ⟨_, -, h⟩ := bind_found.mp h
      obtain ⟨key', -, h⟩ := bind_found.mp h
      refine ih h fun key'' range' hlookup => ?_
      by_cases hkey : key'' = key'
      · rw [hkey, AList.lookup_insert] at hlookup
        cases hlookup
        exact ⟨hle, Nat.not_lt.mp hin⟩
      · rw [AList.lookup_insert_ne hkey] at hlookup
        exact hpacked _ _ hlookup

theorem indexPack_ranges (h : indexPack pack project = .found packed) (hrange : packed.lookup key = some range) :
    range.start ≤ range.stop ∧ range.stop ≤ pack.length := by
  obtain ⟨_, -, h⟩ := bind_found.mp h
  obtain ⟨_, -, h⟩ := bind_found.mp h
  obtain ⟨_, -, h⟩ := bind_found.mp h
  obtain ⟨_, -, h⟩ := bind_found.mp h
  split at h
  · cases h
  · obtain ⟨_, -, h⟩ := bind_found.mp h
    obtain ⟨_, -, h⟩ := bind_found.mp h
    refine indexEntries_ranges h (fun key range hnone => ?_) hrange
    rw [AList.lookup_empty] at hnone
    cases hnone

theorem sound_of_empty (hentries : cache.entries = [])
    (hpacked : ∀ key range, cache.packed.lookup key = some range → ∃ entry,
      slice cache.pack range.start range.stop = .found entry ∧
        (key ∈ sourceKeys sha256 identity sources → Matching sha256 entry key →
          Written parser sha256 identity sources entry key)) :
    Session.Sound parser sha256 identity sources ⟨cache, []⟩ where
  packed := hpacked
  pending := nofun
  entries := by simp [hentries]
  nodup := by simp [hentries]
  kept := by simp [hentries]

theorem sound_of_openPack (hfile : ∀ bytes, file = some bytes → Trusted parser sha256 identity sources bytes)
    (h : openPack identity project file = .found cache) :
    Session.Sound parser sha256 identity sources ⟨cache, []⟩ := by
  have hempty : ∀ stats : Stats, Session.Sound parser sha256 identity sources
      ⟨{ emptyCache project with stats }, []⟩ := fun stats =>
    sound_of_empty rfl fun key range hnone => by
      rw [show ({ emptyCache project with stats } : FrontendCache).packed = ∅ from rfl, AList.lookup_empty] at hnone
      cases hnone
  unfold openPack at h
  split at h
  · cases h
    exact hempty _
  · rename_i pack
    split at h
    · cases h
      exact hempty _
    split at h
    · split at h
      · cases h
        exact hempty _
      · split at h
        · rename_i packed hindex
          cases h
          refine sound_of_empty rfl fun key range hrange => ?_
          have hin := indexPack_ranges hindex hrange
          exact ⟨_, if_pos hin, fun hkey =>
            hfile pack rfl project packed hindex key hkey range hrange _ (if_pos hin)⟩
        · cases h
          exact hempty _
        · cases h
    · cases h
      exact hempty _
    · cases h

theorem openPack_inRange (identity project : Digest) (file : Option Bytes) :
    (openPack identity project file).InRange := by
  unfold openPack
  split
  · exact nofun
  split
  · exact nofun
  split
  · split
    · exact nofun
    · split
      · exact nofun
      · exact nofun
      · rename_i hindex
        exact (indexPack_inRange _ _ hindex).elim
  · exact nofun
  · rename_i hslice
    exact (sliceOr_inRange hslice).elim

section

variable (h : session.Sound parser sha256 identity sources)

include h

theorem Session.Sound.keep (hours : Ours parser sha256 identity sources session.cache.pack key stored) :
    Session.Sound parser sha256 identity sources { session with cache := session.cache.keep key stored } := by
  unfold FrontendCache.keep
  split
  · exact h
  · rename_i hnew
    refine ⟨h.packed, h.pending, fun s hs => ?_, ?_, fun s hs => ?_⟩
    · rcases mem_append.mp hs with hs | hs
      · exact h.entries s hs
      · obtain rfl := mem_singleton.mp hs
        exact hours
    · have hkey : key ∉ session.cache.entries.map Prod.fst := fun hmem => by
        obtain ⟨s, hs, rfl⟩ := mem_map.mp hmem
        exact hnew (h.kept s hs)
      rw [map_append, map_singleton]
      exact nodup_append_comm.mp (nodup_cons.mpr ⟨hkey, h.nodup⟩)
    · rcases mem_append.mp hs with hs | hs
      · exact mem_cons_of_mem _ (h.kept s hs)
      · obtain rfl := mem_singleton.mp hs
        exact mem_cons_self

theorem Session.Sound.stats (stats : Stats) :
    Session.Sound parser sha256 identity sources { session with cache := { session.cache with stats } } :=
  ⟨h.packed, h.pending, h.entries, h.nodup, h.kept⟩

theorem Session.Sound.erase (key : Digest) : Session.Sound parser sha256 identity sources
      { session with cache := { session.cache with packed := session.cache.packed.erase key } } := by
  refine ⟨fun key' range hrange => h.packed key' range ?_, h.pending, h.entries, h.nodup, h.kept⟩
  by_cases hkey : key' = key
  · rw [hkey, AList.lookup_erase] at hrange
    cases hrange
  · rwa [AList.lookup_erase_ne hkey] at hrange

theorem Session.Sound.commit {lookup : Lookup} (hlookup : ∀ stored, lookup.stored = some stored →
      Ours parser sha256 identity sources session.cache.pack lookup.key stored) :
    Session.Sound parser sha256 identity sources { session with cache := session.cache.commit lookup } := by
  obtain ⟨cache, hcache, hpack, hsound⟩ : ∃ cache : FrontendCache,
      cache = (if lookup.rejected ∧ lookup.key ∈ session.cache.packed then
        { session.cache with
          packed := session.cache.packed.erase lookup.key
          stats := { session.cache.stats with rejected := session.cache.stats.rejected + 1 } }
      else session.cache) ∧ cache.pack = session.cache.pack ∧
      Session.Sound parser sha256 identity sources { session with cache } := by
    refine ⟨_, rfl, ?_⟩
    split
    · exact ⟨rfl, (h.erase lookup.key).stats _⟩
    · exact ⟨rfl, h⟩
  unfold FrontendCache.commit
  simp only
  rw [← hcache]
  rw [← hpack] at hlookup
  split
  · rename_i range hstored
    exact (hsound.stats _).keep (hlookup _ hstored)
  · rename_i entry hstored
    exact (hsound.stats _).keep (hlookup _ hstored)
  · exact hsound.stats _

theorem finish_inRange : (session.cache.finish identity).InRange := by
  unfold FrontendCache.finish
  simp only
  split
  · intro hout
    cases hout
  · refine inRange_bind ?_ fun _ _ hout => by cases hout
    obtain ⟨entries, hbytes, -⟩ := storedBytes_found (P := fun _ _ => True) fun s hs => by
      obtain ⟨entry, hentry, -⟩ := h.entries s hs
      exact ⟨entry, hentry, trivial⟩
    rw [FrontendCache.packBytes, hbytes]
    intro hout
    cases hout

theorem trusted_of_finish {file : Bytes} (hfinish : session.cache.finish identity = .found (cache, some file)) :
    Trusted parser sha256 identity sources file := by
  unfold FrontendCache.finish at hfinish
  simp only at hfinish
  split at hfinish
  · cases hfinish
  obtain ⟨pack, hpack, hfinish⟩ := bind_found.mp hfinish
  obtain ⟨-, hfile⟩ := Prod.mk.inj (Outcome.found.inj hfinish)
  split at hfile
  · rename_i hsmall
    cases hfile
    have hbound : ∀ pack', session.cache.packBytes identity = .found pack' → pack'.length < 2 ^ 64 := by
      intro pack' hpack'
      rw [hpack] at hpack'
      cases hpack'
      exact Nat.lt_of_le_of_lt hsmall (by decide)
    obtain ⟨pack', packed, hpack', hindex, -, -, hwritten⟩ :=
      indexPack_packBytes h.nodup h.entries (fun _ _ => Written.isEntry) hbound
    rw [hpack] at hpack'
    cases hpack'
    intro project packed' hindex' key _ range hrange entry hentry _
    rw [hindex] at hindex'
    split at hindex'
    · cases hindex'
      obtain ⟨entry', hentry', hours⟩ := hwritten key range hrange
      rw [hentry] at hentry'
      cases hentry'
      exact hours
    · cases hindex'
  · cases hfile

end

theorem sound_of_finish (hfinish : session.cache.finish identity = .found (cache, file)) :
    Session.Sound parser sha256 identity sources ⟨cache, []⟩ := by
  have hcleared : cache = { session.cache with pack := [], packed := ∅, entries := [], kept := [] } := by
    unfold FrontendCache.finish at hfinish
    simp only at hfinish
    split at hfinish
    · exact (Prod.mk.inj (Outcome.found.inj hfinish)).1.symm
    · obtain ⟨pack, -, hfinish⟩ := bind_found.mp hfinish
      exact (Prod.mk.inj (Outcome.found.inj hfinish)).1.symm
  subst hcleared
  refine sound_of_empty rfl fun key range hnone => ?_
  simp only [AList.lookup_empty] at hnone
  cases hnone

theorem World.Sound.set (h : world.Sound parser sha256 identity sources) {n : Nat} {session : Option Session}
    (hsession : ∀ s, session = some s → s.Sound parser sha256 identity sources) :
    (world.set n session).Sound parser sha256 identity sources := by
  refine ⟨h.disk, fun m s hs => ?_⟩
  simp only [World.set, Function.update_apply] at hs
  split at hs
  · exact hsession s hs
  · exact h.sessions m s hs

theorem World.Sound.write (h : world.Sound parser sha256 identity sources) {project : Digest}
    (hfile : ∀ bytes, file = some bytes → Trusted parser sha256 identity sources bytes) :
    (world.write project file).Sound parser sha256 identity sources := by
  refine ⟨fun project' bytes hbytes => ?_, h.sessions⟩
  simp only [World.write, Function.update_apply] at hbytes
  split at hbytes
  · exact hfile bytes hbytes
  · exact h.disk project' bytes hbytes

theorem World.Sound.step (hfree : CollisionFree sha256 identity sources)
    (h : world.Sound parser sha256 identity sources) (hstep : Step parser sha256 identity sources world world') :
    world'.Sound parser sha256 identity sources := by
  cases hstep with
  | disturb project file hfile => exact h.write hfile
  | start n project hopen =>
    refine h.set fun s hs => ?_
    cases hs
    exact sound_of_openPack (fun bytes hbytes => h.disk project bytes hbytes) hopen
  | lookup hsession hsource hlookup =>
    rename_i session n text source edition parsed lookup
    have hsound := h.sessions _ _ hsession
    obtain ⟨lookup', hlookup', hours⟩ := lookup_eq hfree hsound hsource source
    rw [hlookup] at hlookup'
    cases hlookup'
    refine h.set fun s hs => ?_
    cases hs
    refine ⟨hsound.packed, fun l hl => ?_, hsound.entries, hsound.nodup, hsound.kept⟩
    rcases mem_append.mp hl with hl | hl
    · exact hsound.pending l hl
    · obtain rfl := mem_singleton.mp hl
      exact hours
  | commit hsession hpending =>
    rename_i session n lookup before after
    have hsound := h.sessions _ _ hsession
    have hin : lookup ∈ session.pending := hpending ▸ mem_append_right _ mem_cons_self
    have hcommit := hsound.commit (hsound.pending lookup hin)
    refine h.set fun s hs => ?_
    cases hs
    refine ⟨hcommit.packed, fun l hl => hcommit.pending l ?_, hcommit.entries, hcommit.nodup, hcommit.kept⟩
    rw [hpending]
    rcases mem_append.mp hl with hl | hl
    · exact mem_append_left _ hl
    · exact mem_append_right _ (mem_cons_of_mem _ hl)
  | finish wrote hsession hpending hfinish =>
    rename_i session n cache file
    have hsound := h.sessions _ _ hsession
    have hcleared : Session.Sound parser sha256 identity sources ⟨cache, []⟩ := sound_of_finish hfinish
    split
    · refine World.Sound.set (h.write fun bytes hbytes => ?_) fun s hs => ?_
      · rw [hbytes] at hfinish
        exact trusted_of_finish hsound hfinish
      · cases hs
        exact hcleared
    · refine h.set fun s hs => ?_
      cases hs
      exact hcleared
  | stop n => exact h.set nofun

theorem sound_of_run (hfree : CollisionFree sha256 identity sources)
    (hinitial : Initial parser sha256 identity sources world)
    (hrun : Relation.ReflTransGen (Step parser sha256 identity sources) world world') :
    world'.Sound parser sha256 identity sources := by
  induction hrun with
  | refl =>
    refine ⟨hinitial.1, fun n session hsession => ?_⟩
    rw [hinitial.2 n] at hsession
    cases hsession
  | tail _ hstep ih => exact ih.step hfree hstep

end Steps

/-- In every run, whatever is done to the files of packs, each lookup of each analysis gives what parsing the source
gives. The index of a written pack has each entry under its key, and no byte string makes the cache read out of
range. -/
theorem lookup_transparent (parser : Parser δ) (sha256 : Bytes → Digest) (identity : Digest)
    (sources : Set (String × Edition)) (hfree : CollisionFree sha256 identity sources) :
    (∀ world world', Initial parser sha256 identity sources world →
      Relation.ReflTransGen (Step parser sha256 identity sources) world world' →
      ∀ n session, world'.sessions n = some session → (session.cache.finish identity).InRange ∧
        ∀ text edition, (text, edition) ∈ sources → ∀ source, ∃ lookup,
          session.cache.lookup parser sha256 identity text source edition =
            .found ((parseSource parser sha256 identity text source edition).1, lookup)) ∧
    (∀ cache : FrontendCache, (cache.entries.map Prod.fst).Nodup →
      (∀ s ∈ cache.entries, ∃ entry, s.2.bytes cache.pack = .found entry ∧ IsEntry sha256 entry s.1) →
      (∀ pack, cache.packBytes identity = .found pack → pack.length < 2 ^ 64) →
      ∃ pack packed, cache.packBytes identity = .found pack ∧ indexPack pack cache.project = .found packed ∧
        (∀ key, key ∈ packed ↔ key ∈ cache.entries.map Prod.fst) ∧
        ∀ s ∈ cache.entries, ∃ range, packed.lookup s.1 = some range ∧
          slice pack range.start range.stop = s.2.bytes cache.pack) ∧
    ∀ bytes project, (indexPack bytes project).InRange ∧ (openPack identity project (some bytes)).InRange ∧
      ∀ key source, (load sha256 bytes key source).InRange := by
  refine ⟨fun world world' hinitial hrun n session hsession => ?_, fun cache hnodup hentries hsmall => ?_,
    fun bytes project => ⟨indexPack_inRange _ _, openPack_inRange _ _ _, fun key source => load_inRange _ _ _ _⟩⟩
  · have hsound := (sound_of_run hfree hinitial hrun).sessions n session hsession
    refine ⟨finish_inRange hsound, fun text edition hsource source => ?_⟩
    obtain ⟨lookup, hlookup, -⟩ := lookup_eq hfree hsound hsource source
    exact ⟨lookup, hlookup⟩
  · obtain ⟨pack, packed, hpack, hindex, hkeys, hslices, -⟩ :=
      indexPack_packBytes hnodup hentries (fun _ _ => id) hsmall
    refine ⟨pack, packed, hpack, ?_, hkeys, hslices⟩
    rw [hindex, if_pos rfl]

/-! ## A pack that is found again -/

/-- A fresh entry is packed when its analysis is finished, and the next analysis of the project finds it. -/
theorem exists_hit {parser : Parser δ} {sha256 : Bytes → Digest} {identity : Digest} {sources : Set (String × Edition)}
    {text : String} {source : Usize} {edition : Edition} {program : Program} {full : Bytes} {interface : Digest}
    (project : Digest) (hsource : (text, edition) ∈ sources) (hparse : parser.parse text source edition = .ok program)
    (hfull : encode program source .full = some full)
    (hinterface : interfaceHash sha256 identity program source = some interface)
    (hsmall : 116 + full.length ≤ maxEntryBytes) (t : Usize) : ∃ world session parsed range,
      Relation.ReflTransGen (Step parser sha256 identity sources) ⟨fun _ => none, fun _ => none⟩ world ∧
        world.sessions 1 = some session ∧ session.cache.lookup parser sha256 identity text t edition =
          .found (.ok parsed, ⟨parseKey sha256 identity edition text, false, some (.packed range)⟩) := by
  let key := parseKey sha256 identity edition text
  let entry := entryBytes sha256 key interface full
  let cache : FrontendCache := { emptyCache project with
    entries := [(key, .fresh entry)], kept := [key], stats := ⟨0, 1, 0⟩ }
  have hlength : entry.length = 116 + full.length := length_entryBytes
  have hbytes : cache.packBytes identity = .found (packHeader identity project 1 ++ (entry ++ [])) := rfl
  have hpackLength : (packHeader identity project 1 ++ (entry ++ [])).length = 200 + full.length := by
    rw [append_nil, length_append, hlength, show packHeader identity project 1 = header packMagic identity project 1
      from rfl, length_header rfl, ← Nat.add_assoc]
  have hmax : (packHeader identity project 1 ++ (entry ++ [])).length ≤ maxPackBytes := by
    rw [hpackLength]
    exact Nat.le_trans (Nat.add_le_add_left (Nat.le_trans (Nat.le_add_left ..) hsmall) 200) (by decide)
  obtain ⟨pack, packed, hpack, hindex, -, hslices, -⟩ :=
    indexPack_packBytes (P := IsEntry sha256) (show (cache.entries.map Prod.fst).Nodup from nodup_singleton key)
      (forall_mem_singleton.mpr ⟨entry, rfl, interface, full, rfl⟩) (fun _ _ => id)
      (fun pack (hpack : cache.packBytes identity = .found pack) => by
        obtain rfl := Outcome.found.inj (hbytes.symm.trans hpack)
        exact Nat.lt_of_le_of_lt hmax (by decide))
  obtain rfl := Outcome.found.inj (hbytes.symm.trans hpack)
  obtain ⟨range, hrange, hslice⟩ := hslices (key, .fresh entry) (mem_singleton_self _)
  have hfirst : (emptyCache project).lookup parser sha256 identity text source edition =
      .found (.ok ⟨program, key, interface⟩, ⟨key, false, some (.fresh entry)⟩) := by
    have hentry : entry.length ≤ maxEntryBytes := hlength ▸ hsmall
    unfold FrontendCache.lookup
    simp only [show (emptyCache project).packed = ∅ from rfl, AList.lookup_empty, parseSource, hparse, hfull,
      hinterface]
    rw [if_pos hentry]
  have hfinish : cache.finish identity = .found ({ cache with pack := [], packed := ∅, entries := [], kept := [] },
      some (packHeader identity project 1 ++ (entry ++ []))) := by
    unfold FrontendCache.finish
    rw [if_neg (by rintro ⟨hnone, -⟩; cases hnone), hbytes, found_bind, if_pos hmax]
    rfl
  have hopen : openPack identity project (some (packHeader identity project 1 ++ (entry ++ []))) =
      .found { emptyCache project with pack := packHeader identity project 1 ++ (entry ++ []), packed } := by
    have hwriter := (slice_header (n := 1) (a := identity) (b := project) rfl
      (rfl : packHeader identity project 1 ++ (entry ++ []) = _)).2.2.1
    unfold openPack
    simp only [if_neg (Nat.not_lt.mpr hmax), sliceOr_eq_found.mpr hwriter, ne_eq, not_true_eq_false, if_false,
      hindex, if_true, show cache.project = project from rfl]
  have hlookup (program' : Program) (hdecode : decode full t = some program') :
      FrontendCache.lookup parser sha256 identity
          { emptyCache project with pack := packHeader identity project 1 ++ (entry ++ []), packed } text t edition =
        .found (.ok ⟨program', key, interface⟩, ⟨key, false, some (.packed range)⟩) := by
    unfold FrontendCache.lookup
    simp only [show packed.lookup (parseKey sha256 identity edition text) = some range from hrange, hslice,
      Stored.bytes, entry, key, load_entryBytes, hdecode]
  refine ⟨_, _, _, range, .tail (.tail (.tail (.tail (.single (.start 0 project rfl)) (.lookup (n := 0) rfl hsource
    hfirst)) (.commit (n := 0) rfl (nil_append _).symm)) (.finish (n := 0) true rfl rfl hfinish))
    (.start 1 project ?_), rfl, hlookup _ (decode_of_encode (parser.known hparse) hfull t)⟩
  rw [if_pos ⟨rfl, rfl⟩]
  show openPack identity project (Function.update (β := fun _ => Option Bytes) _ project _ project) = _
  rw [Function.update_self]
  exact hopen

/-- A parser of one text. -/
def externParser : Parser Unit where
  parse text s _ := if text = "@x extern type T" then .ok ((externProgram .pub).retag 5 s) else .error ()
  retag {text s t edition program} h := by
    split at h
    · rename_i htext
      cases h
      simp [htext, Program.retag, externProgram, normal, Span.retag, Keep.part, Ident.mapSpan]
    · cases h
  known {text s edition program} h := by
    split at h
    · cases h
      have hknown : ∀ a ∈ (externProgram .pub).trusted, a.Known := by decide
      simpa [Program.retag, externProgram, normal, TrustedAttribute.Known] using hknown
    · cases h

/-- An analysis packs its source, and the next one finds it there. -/
theorem lookup_transparent_hit : let identity : Digest := ⟨List.replicate 32 7, rfl⟩
    let text := "@x extern type T"
    ∃ (world : World) (session : Session) (lookup : Lookup) (range : Range),
      Relation.ReflTransGen (Step externParser Sha256.finalize identity {(text, 2026)}) ⟨fun _ => none, fun _ => none⟩
        world ∧ world.sessions 1 = some session ∧ session.cache.lookup externParser Sha256.finalize identity text 9 2026
        = .found ((parseSource externParser Sha256.finalize identity text 9 2026).1, lookup) ∧
      lookup.stored = some (.packed range) := by
  intro identity text
  let sources : Set (String × Edition) := {(text, 2026)}
  have hfree : CollisionFree Sha256.finalize identity sources := by
    rintro _ ⟨source, rfl, rfl⟩ _ ⟨source', rfl, rfl⟩ _
    rfl
  have hinitial : Initial externParser Sha256.finalize identity sources ⟨fun _ => none, fun _ => none⟩ :=
    ⟨fun _ _ hfile => absurd hfile nofun, fun _ => rfl⟩
  have hknown : ∀ a ∈ (externProgram .pub).trusted, a.Known := by decide
  have hinterface : (interfaceHash Sha256.finalize identity (externProgram .pub) 5).isSome = true := by
    unfold interfaceHash
    rw [Option.isSome_map]
    rfl
  obtain ⟨interface, hinterface⟩ := Option.isSome_iff_exists.mp hinterface
  rw [← interfaceHash_retag _ 5 3] at hinterface
  have hfull : encode (externProgram .pub) 5 .full = some [1, 0, 0, 0, 0, 0, 0, 1, 1, 1, 120, 0, 1, 1, 0, 1, 84, 14, 15,
    1, 0, 0, 0, 0, 0, 0, 0, 0, 0, 0, 0, 0, 0, 1, 1, 84, 14, 15, 1, 0, 1, 14, 15, 0, 0, 1, 2, 0] := rfl
  obtain ⟨world, session, parsed, range, hrun, hsession, hhit⟩ := exists_hit identity
    (show (text, 2026) ∈ sources from rfl) (show externParser.parse text 3 2026 = .ok _ from rfl)
    (encode_retag hknown hfull 3) hinterface (by decide) 9
  obtain ⟨lookup, hlookup⟩ := ((lookup_transparent externParser Sha256.finalize identity sources hfree).1 _ _ hinitial
    hrun 1 session hsession).2 text 2026 rfl 9
  obtain ⟨-, rfl⟩ := Prod.mk.inj (Outcome.found.inj (hlookup.symm.trans hhit))
  exact ⟨world, session, _, range, hrun, hsession, hlookup, rfl⟩

end Tsuzuri.Frontend
