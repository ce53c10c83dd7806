import Mathlib.Data.Set.Function
import Tsuzuri.Frontend

/-!
# Packs are indexed and read as they were written

No byte string makes the index or the loader of an entry read out of range.
-/

namespace Tsuzuri.Frontend

open Ast List
open Sha256 (Digest)

variable {α β δ : Type} {parser : Parser δ} {sha256 : Bytes → Digest} {identity project : Digest}

variable {f : α → Outcome β} {x : Outcome α} {bytes part pack : Bytes} {i j n : Nat}
  {text text' : String} {P : Bytes → Digest → Prop}

@[simp] theorem found_bind {a : α} : (Outcome.found a >>= f) = f a := rfl

@[simp] theorem pure_eq_found (a : α) : (pure a : Outcome α) = .found a := rfl

theorem bind_found {b : β} : (x >>= f) = .found b ↔ ∃ a, x = .found a ∧ f a = .found b := by
  cases x <;> simp [bind]

def Outcome.InRange (x : Outcome α) : Prop := x ≠ .outOfRange

theorem inRange_bind (hx : x.InRange) (hf : ∀ a, x = .found a → (f a).InRange) : (x >>= f).InRange := by
  cases x with
  | found a => exact hf a rfl
  | missing => exact nofun
  | outOfRange => exact absurd rfl hx

theorem slice_eq_found :
    slice bytes i j = .found part ↔ (i ≤ j ∧ j ≤ bytes.length) ∧ (bytes.drop i).take (j - i) = part := by
  unfold slice
  split <;> simp_all

theorem sliceOr_eq_found : sliceOr bytes i j = .found part ↔ slice bytes i j = .found part := by
  unfold sliceOr slice
  split <;> simp

theorem slice_length (h : slice bytes i j = .found part) : part.length = j - i := by
  obtain ⟨hrange, rfl⟩ := slice_eq_found.mp h
  rw [length_take, length_drop]
  omega

theorem slice_inRange (hij : i ≤ j) (hj : j ≤ bytes.length) : (slice bytes i j).InRange := by
  rw [slice, if_pos ⟨hij, hj⟩]
  exact nofun

theorem sliceOr_inRange : (sliceOr bytes i j).InRange := by
  unfold sliceOr
  split <;> exact nofun

theorem checkedAdd_inRange : (checkedAdd i j).InRange := by
  unfold checkedAdd
  split <;> exact nofun

theorem leU64_inRange : (leU64 bytes).InRange := by
  unfold leU64
  split <;> exact nofun

theorem digest_inRange : (digest bytes).InRange := by
  unfold digest
  split <;> exact nofun

theorem slice_mid (before after : Bytes) (h : bytes = before ++ (part ++ after)) (hi : before.length = i)
    (hj : i + part.length = j) : slice bytes i j = .found part := by
  subst h hi hj
  rw [slice_eq_found]
  simp

theorem checkedAdd_eq (h : i + j < 2 ^ 64) : checkedAdd i j = .found (i + j) := if_pos h

theorem digest_val (key : Digest) : digest key.1 = .found key := dif_pos key.2

@[simp] theorem length_toLe (size n : Nat) : (toLe size n).length = size := by
  induction size generalizing n with
  | zero => rfl
  | succ size ih => rw [toLe, length_cons, ih]

theorem ofLe_toLe (size n : Nat) (h : n < 256 ^ size) : ofLe (toLe size n) = n := by
  induction size generalizing n with
  | zero =>
    rw [pow_zero] at h
    rw [toLe, ofLe]
    omega
  | succ size ih =>
    rw [pow_succ] at h
    have hbyte : (UInt8.ofNat (n % 256)).toNat = n % 256 := by
      rw [UInt8.toNat_ofNat']
      omega
    rw [toLe, ofLe, hbyte, ih _ (by omega)]
    omega

theorem leU64_toLe (h : n < 2 ^ 64) : leU64 (toLe 8 n) = .found n := by
  rw [leU64, if_pos (length_toLe 8 n), ofLe_toLe 8 n (by simpa using h)]

theorem utf8_inj (h : utf8 text = utf8 text') : text = text' :=
  String.toByteArray_inj.mp (ByteArray.ext (Array.toList_inj.mp h))

theorem field_inj {tag : String} {bytes' : Bytes} (h : field tag bytes = field tag bytes') : bytes = bytes' := by
  unfold field at h
  exact (append_inj h (by simp)).2

theorem keyBytes_inj {edition edition' : Edition}
    (h : keyBytes identity edition text = keyBytes identity edition' text') : edition = edition' ∧ text = text' := by
  unfold keyBytes at h
  obtain ⟨hfront, htext⟩ := append_inj h (by simp [field])
  have hedition := field_inj (append_cancel_left hfront)
  have hlt : ∀ e : Edition, e.toNat < 256 ^ 2 := fun e => e.isLt
  have hnat := congrArg ofLe hedition
  rw [ofLe_toLe _ _ (hlt _), ofLe_toLe _ _ (hlt _)] at hnat
  exact ⟨BitVec.eq_of_toNat_eq hnat, utf8_inj (field_inj htext)⟩

theorem indexEntries_inRange (pack : Bytes) (count at' : Nat) (packed : Packed) :
    (indexEntries pack count at' packed).InRange := by
  induction count generalizing at' packed with
  | zero =>
    unfold indexEntries
    split <;> exact nofun
  | succ count ih =>
    rw [indexEntries]
    refine inRange_bind checkedAdd_inRange fun stop hstop => ?_
    refine inRange_bind sliceOr_inRange fun header hheader => ?_
    have hlength : header.length = 84 := by
      have hsum : stop = at' + entryHeaderBytes := by
        unfold checkedAdd at hstop
        split at hstop
        · exact (Outcome.found.inj hstop).symm
        · cases hstop
      rw [slice_length (sliceOr_eq_found.mp hheader), hsum]
      exact Nat.add_sub_cancel_left ..
    refine inRange_bind (slice_inRange (by decide) (by omega)) fun _ _ => ?_
    refine inRange_bind leU64_inRange fun payload _ => ?_
    refine inRange_bind checkedAdd_inRange fun _ _ => ?_
    refine inRange_bind checkedAdd_inRange fun _ _ => ?_
    refine inRange_bind checkedAdd_inRange fun stop _ => ?_
    split
    · exact nofun
    · refine inRange_bind (slice_inRange (by decide) (by omega)) fun _ _ => ?_
      exact inRange_bind digest_inRange fun _ _ => ih _ _

theorem indexPack_inRange (pack : Bytes) (project : Digest) : (indexPack pack project).InRange := by
  refine inRange_bind sliceOr_inRange fun header hheader => ?_
  have hlength : header.length = 84 := slice_length (sliceOr_eq_found.mp hheader)
  refine inRange_bind (slice_inRange (by decide) (by omega)) fun _ _ => ?_
  refine inRange_bind (slice_inRange (by decide) (by omega)) fun _ _ => ?_
  refine inRange_bind (slice_inRange (by decide) (by omega)) fun _ _ => ?_
  split
  · exact nofun
  · refine inRange_bind (slice_inRange (by decide) (by omega)) fun _ _ => ?_
    exact inRange_bind leU64_inRange fun _ _ => indexEntries_inRange _ _ _ _

theorem load_inRange (sha256 : Bytes → Digest) (bytes : Bytes) (key : Digest) (source : Usize) :
    (load sha256 bytes key source).InRange := by
  unfold load
  split
  · exact nofun
  · rename_i hlength
    rw [not_or, Nat.not_lt, Nat.not_lt] at hlength
    obtain ⟨hsum, hheader⟩ := hlength
    have hle : 84 ≤ bytes.length - checksumBytes := hheader
    refine inRange_bind (slice_inRange (Nat.zero_le _) (Nat.sub_le ..)) fun body hbody => ?_
    have hbodyLength : body.length = bytes.length - checksumBytes := by
      rw [slice_length hbody, Nat.sub_zero]
    refine inRange_bind (slice_inRange (Nat.sub_le ..) (Nat.le_refl _)) fun _ _ => ?_
    refine inRange_bind (slice_inRange (by decide) (by omega)) fun _ _ => ?_
    refine inRange_bind (slice_inRange (by decide) (by omega)) fun _ _ => ?_
    refine inRange_bind (slice_inRange (by decide) (by omega)) fun _ _ => ?_
    refine inRange_bind (slice_inRange (by decide) (by omega)) fun _ _ => ?_
    split
    · exact nofun
    · refine inRange_bind (slice_inRange hle (by omega)) fun _ _ => ?_
      split
      · exact nofun
      · refine inRange_bind (slice_inRange (by decide) (by omega)) fun _ _ => ?_
        exact inRange_bind digest_inRange fun _ _ => nofun

/-! ## Entries -/

section Entries

variable {key interface : Digest} {payload : Bytes}

def header (magic : Bytes) (a b : Digest) (n : Nat) : Bytes :=
  magic ++ toLe 4 frontendFormat ++ a.1 ++ b.1 ++ toLe 8 n

variable {magic : Bytes} {a b : Digest}

theorem length_header (hmagic : magic.length = 8) : (header magic a b n).length = 84 := by
  have ha := a.2
  have hb := b.2
  simp only [header, length_append, length_toLe, ha, hb, hmagic]

theorem slice_header {after : Bytes} (hmagic : magic.length = 8) (h : bytes = header magic a b n ++ after) :
    slice bytes 0 8 = .found magic ∧ slice bytes 8 12 = .found (toLe 4 frontendFormat) ∧
      slice bytes 12 44 = .found a.1 ∧ slice bytes 44 76 = .found b.1 ∧ slice bytes 76 84 = .found (toLe 8 n) := by
  have ha := a.2
  have hb := b.2
  have hparts : bytes = magic ++ (toLe 4 frontendFormat ++ (a.1 ++ (b.1 ++ (toLe 8 n ++ after)))) := by
    rw [h, header]
    simp only [append_assoc]
  refine ⟨slice_mid [] _ hparts rfl ?_, slice_mid magic _ hparts hmagic (by rw [length_toLe]), ?_, ?_, ?_⟩
  · rw [hmagic]
  · refine slice_mid (magic ++ toLe 4 frontendFormat) (b.1 ++ (toLe 8 n ++ after)) ?_ ?_ (by rw [ha])
    · simp only [hparts, append_assoc]
    · simp only [length_append, length_toLe, hmagic]
  · refine slice_mid (magic ++ toLe 4 frontendFormat ++ a.1) (toLe 8 n ++ after) ?_ ?_ (by rw [hb])
    · simp only [hparts, append_assoc]
    · simp only [length_append, length_toLe, hmagic, ha]
  · refine slice_mid (magic ++ toLe 4 frontendFormat ++ a.1 ++ b.1) after ?_ ?_ (by rw [length_toLe])
    · simp only [hparts, append_assoc]
    · simp only [length_append, length_toLe, hmagic, ha, hb]

theorem entryBody_eq :
    entryBody key interface payload = header entryMagic key interface payload.length ++ payload := rfl

theorem length_entryBody : (entryBody key interface payload).length = 84 + payload.length := by
  rw [entryBody_eq, length_append, length_header rfl]

theorem length_entryBytes : (entryBytes sha256 key interface payload).length = 116 + payload.length := by
  have hsum := (sha256 (entryBody key interface payload)).2
  rw [entryBytes, length_append, length_entryBody, hsum]
  omega

theorem load_entryBytes (source : Usize) :
    load sha256 (entryBytes sha256 key interface payload) key source = match decode payload source with
      | none => .missing
      | some program => .found ⟨program, key, interface⟩ := by
  have hlength : (entryBytes sha256 key interface payload).length - checksumBytes = 84 + payload.length := by
    rw [length_entryBytes]
    show 116 + payload.length - 32 = _
    omega
  have hbody : (entryBody key interface payload).length = 84 + payload.length := length_entryBody
  have hsum : (sha256 (entryBody key interface payload)).1.length = 32 := (sha256 _).2
  have hwhole : slice (entryBytes sha256 key interface payload) 0 (84 + payload.length) =
      .found (entryBody key interface payload) :=
    slice_mid [] _ rfl rfl (by rw [Nat.zero_add, hbody])
  have hcheck : slice (entryBytes sha256 key interface payload) (84 + payload.length)
      (entryBytes sha256 key interface payload).length = .found (sha256 (entryBody key interface payload)).1 :=
    slice_mid _ [] (by rw [append_nil]; rfl) hbody (by rw [hsum, length_entryBytes]; omega)
  obtain ⟨hmagic, hformat, hname, hface, hsize⟩ := slice_header rfl (@entryBody_eq key interface payload)
  have hleft : 84 + payload.length - entryHeaderBytes = payload.length := Nat.add_sub_cancel_left ..
  unfold load
  rw [hlength, if_neg (by rw [length_entryBytes]; show ¬(116 + payload.length < 32 ∨ 84 + payload.length < 84); omega)]
  simp only [hwhole, hcheck, hmagic, hformat, hname, hsize, hleft, found_bind, ne_eq, not_true_eq_false, or_self,
    if_false]
  have hpart : slice (entryBody key interface payload) entryHeaderBytes (84 + payload.length) = .found payload :=
    slice_mid _ [] (by rw [append_nil]; rfl) (length_header rfl) rfl
  rw [hpart, found_bind]
  cases decode payload source with
  | none => rfl
  | some program =>
    simp only
    rw [hface, found_bind, digest_val, found_bind, pure_eq_found]

def Matching (sha256 : Bytes → Digest) (entry : Bytes) (key : Digest) : Prop :=
  ∃ front back : Bytes, front.length = 12 ∧ entry = front ++ key.1 ++ back ++ (sha256 (front ++ key.1 ++ back)).1

theorem matching_of_load {entry : Bytes} {source : Usize} {parsed : Parsed}
    (h : load sha256 entry key source = .found parsed) : Matching sha256 entry key := by
  unfold load at h
  split at h
  · cases h
  rename_i hlength
  rw [not_or, Nat.not_lt, Nat.not_lt] at hlength
  have hle : 84 ≤ entry.length - checksumBytes := hlength.2
  obtain ⟨body, hbody, h⟩ := bind_found.mp h
  obtain ⟨checksum, hchecksum, h⟩ := bind_found.mp h
  obtain ⟨_, -, h⟩ := bind_found.mp h
  obtain ⟨_, -, h⟩ := bind_found.mp h
  obtain ⟨name, hname, h⟩ := bind_found.mp h
  obtain ⟨_, -, h⟩ := bind_found.mp h
  split at h
  · cases h
  rename_i hchecks
  simp only [not_or, ne_eq, not_not] at hchecks
  obtain ⟨rfl, -, -, rfl, -⟩ := hchecks
  obtain ⟨-, hbody⟩ := slice_eq_found.mp hbody
  obtain ⟨-, hchecksum⟩ := slice_eq_found.mp hchecksum
  obtain ⟨⟨-, hin⟩, hname⟩ := slice_eq_found.mp hname
  have hsplit : body = body.take 12 ++ key.1 ++ body.drop 44 := by
    rw [← hname, append_assoc, show (44 : Nat) = 12 + (44 - 12) from rfl, ← drop_drop,
      take_append_drop, take_append_drop]
  refine ⟨body.take 12, body.drop 44, ?_, ?_⟩
  · rw [length_take]
    omega
  · rw [← hsplit, ← hchecksum, ← hbody, drop_zero, Nat.sub_zero,
      take_of_length_le (l := entry.drop _) (by rw [length_drop]), take_append_drop]

/-! ## The index of a written pack -/

/-- The ranges of the entries from `at'` on. -/
def ranges : (at' : Nat) → List (Digest × Bytes) → Packed → Packed
  | _, [], packed => packed
  | at', (key, entry) :: entries, packed =>
    ranges (at' + entry.length) entries (packed.insert key ⟨at', at' + entry.length⟩)

def IsEntry (sha256 : Bytes → Digest) (entry : Bytes) (key : Digest) : Prop :=
  ∃ interface payload, entry = entryBytes sha256 key interface payload

theorem indexEntries_eq {front : Bytes} {entries : List (Digest × Bytes)} {packed : Packed}
    (hentries : ∀ e ∈ entries, IsEntry sha256 e.2 e.1)
    (hpack : pack = front ++ (entries.map Prod.snd).flatten) (hsmall : pack.length < 2 ^ 64) :
    indexEntries pack entries.length front.length packed = .found (ranges front.length entries packed) := by
  induction entries generalizing front packed with
  | nil =>
    rw [map_nil, flatten_nil, append_nil] at hpack
    rw [length_nil, indexEntries, if_pos (by rw [hpack]), ranges]
  | cons e entries ih =>
    obtain ⟨key, entry⟩ := e
    obtain ⟨hentry, hrest⟩ := forall_mem_cons.mp hentries
    obtain ⟨interface, payload, hbytes⟩ := hentry
    simp only at hbytes
    have hlength : entry.length = 116 + payload.length := by rw [hbytes, length_entryBytes]
    have hnext : pack = (front ++ entry) ++ (entries.map Prod.snd).flatten := by
      rw [hpack, map_cons, flatten_cons, append_assoc]
    have hle : front.length + entry.length ≤ pack.length := by
      rw [hnext, length_append, length_append]
      exact Nat.le_add_right ..
    have hheader : sliceOr pack front.length (front.length + entryHeaderBytes) =
        .found (header entryMagic key interface payload.length) := by
      rw [sliceOr_eq_found]
      refine slice_mid front (payload ++ (sha256 (entryBody key interface payload)).1 ++
        (entries.map Prod.snd).flatten) ?_ rfl (by rw [length_header rfl]; rfl)
      rw [hnext, hbytes, entryBytes, entryBody_eq]
      simp only [append_assoc]
    obtain ⟨-, -, hname, -, hsize⟩ :=
      slice_header rfl (append_nil (header entryMagic key interface payload.length)).symm
    have hstop : front.length + entryHeaderBytes + payload.length + checksumBytes = front.length + entry.length := by
      rw [hlength]
      show front.length + 84 + payload.length + 32 = _
      omega
    have hpayload : payload.length < 2 ^ 64 := by omega
    rw [length_cons, indexEntries, checkedAdd_eq (by show front.length + 84 < _; omega), found_bind, hheader,
      found_bind, hsize, found_bind, leU64_toLe hpayload, found_bind, found_bind,
      checkedAdd_eq (by show front.length + 84 + _ < _; omega), found_bind, checkedAdd_eq (by rw [hstop]; omega),
      found_bind, hstop, if_neg (by omega), hname, found_bind, digest_val, found_bind, ranges]
    have hfront : front.length + entry.length = (front ++ entry).length := (length_append ..).symm
    rw [hfront]
    exact ih hrest hnext

end Entries

section Packs

variable {entries : List (Digest × Bytes)} {packed : Packed} {pack front : Bytes}

theorem lookup_ranges_of_notMem {at' : Nat} {key : Digest} (h : key ∉ entries.map Prod.fst) :
    (ranges at' entries packed).lookup key = packed.lookup key := by
  induction entries generalizing at' packed with
  | nil => rfl
  | cons e entries ih =>
    rw [map_cons, mem_cons, not_or] at h
    rw [ranges, ih h.2, AList.lookup_insert_ne h.1]

theorem lookup_ranges (hnodup : (entries.map Prod.fst).Nodup)
    (hpack : pack = front ++ (entries.map Prod.snd).flatten) {e : Digest × Bytes} (he : e ∈ entries) :
    ∃ range, (ranges front.length entries packed).lookup e.1 = some range ∧
      slice pack range.start range.stop = .found e.2 := by
  induction entries generalizing front packed with
  | nil => cases he
  | cons e' entries ih =>
    rw [map_cons, nodup_cons] at hnodup
    rw [map_cons, flatten_cons] at hpack
    rw [ranges]
    rcases mem_cons.mp he with rfl | he
    · refine ⟨⟨front.length, front.length + e.2.length⟩, ?_, slice_mid _ _ hpack rfl rfl⟩
      rw [lookup_ranges_of_notMem hnodup.1, AList.lookup_insert]
    · rw [← length_append]
      exact ih hnodup.2 (by rw [hpack, append_assoc]) he

theorem length_le_flatten (hentries : ∀ e ∈ entries, IsEntry sha256 e.2 e.1) :
    entries.length ≤ (entries.map Prod.snd).flatten.length := by
  induction entries with
  | nil => exact Nat.zero_le _
  | cons e entries ih =>
    obtain ⟨⟨interface, payload, hbytes⟩, hrest⟩ := forall_mem_cons.mp hentries
    have hlength : e.2.length = 116 + payload.length := by rw [hbytes, length_entryBytes]
    have := ih hrest
    rw [map_cons, flatten_cons, length_append, length_cons]
    omega

theorem indexPack_eq (hentries : ∀ e ∈ entries, IsEntry sha256 e.2 e.1)
    (hpack : pack = packHeader identity project entries.length ++ (entries.map Prod.snd).flatten)
    (hsmall : pack.length < 2 ^ 64) (project' : Digest) :
    indexPack pack project' = if project' = project then .found (ranges packHeaderBytes entries ∅) else .missing := by
  have hmagic : packMagic.length = 8 := rfl
  have hfront : packHeader identity project entries.length = header packMagic identity project entries.length := rfl
  have hlength : (packHeader identity project entries.length).length = packHeaderBytes := length_header hmagic
  have hheader : sliceOr pack 0 packHeaderBytes = .found (header packMagic identity project entries.length) := by
    rw [sliceOr_eq_found]
    exact slice_mid [] _ hpack rfl ((Nat.zero_add _).trans hlength)
  obtain ⟨hfirst, hformat, -, hproject, hcount⟩ :=
    slice_header hmagic (append_nil (header packMagic identity project entries.length)).symm
  have hfew : entries.length < 2 ^ 64 := by
    have := length_le_flatten hentries
    rw [hpack, length_append] at hsmall
    omega
  unfold indexPack
  simp only [hheader, hfirst, hformat, hproject, hcount, found_bind, leU64_toLe hfew, ne_eq, not_true_eq_false,
    false_or]
  by_cases h : project' = project
  · rw [if_pos h, if_neg (by rw [h]; exact not_not_intro rfl), ← hlength]
    exact indexEntries_eq hentries hpack hsmall
  · rw [if_neg h, if_pos fun heq => h (Subtype.ext heq.symm)]

end Packs

theorem storedBytes_found {stored : List (Digest × Stored)}
    (h : ∀ s ∈ stored, ∃ entry, s.2.bytes pack = .found entry ∧ P entry s.1) :
    ∃ entries : List (Digest × Bytes), storedBytes pack stored = .found (entries.map Prod.snd).flatten ∧
      entries.map Prod.fst = stored.map Prod.fst ∧ (∀ e ∈ entries, P e.2 e.1) ∧
      ∀ s ∈ stored, ∃ entry, (s.1, entry) ∈ entries ∧ s.2.bytes pack = .found entry := by
  induction stored with
  | nil => exact ⟨[], rfl, rfl, nofun, nofun⟩
  | cons s stored ih =>
    obtain ⟨⟨entry, hentry, hP⟩, hrest⟩ := forall_mem_cons.mp h
    obtain ⟨entries, hbytes, hkeys, hall, hstored⟩ := ih hrest
    refine ⟨(s.1, entry) :: entries, ?_, ?_, forall_mem_cons.mpr ⟨hP, hall⟩, forall_mem_cons.mpr ⟨?_, ?_⟩⟩
    · rw [storedBytes, hentry, found_bind, hbytes]
      rfl
    · rw [map_cons, map_cons, hkeys]
    · exact ⟨entry, mem_cons_self, hentry⟩
    · intro s' hs'
      obtain ⟨entry', hmem, hentry'⟩ := hstored s' hs'
      exact ⟨entry', mem_cons_of_mem _ hmem, hentry'⟩

theorem indexPack_packBytes {cache : FrontendCache} (hnodup : (cache.entries.map Prod.fst).Nodup)
    (hentries : ∀ s ∈ cache.entries, ∃ entry, s.2.bytes cache.pack = .found entry ∧ P entry s.1)
    (hentry : ∀ entry key, P entry key → IsEntry sha256 entry key)
    (hsmall : ∀ pack, cache.packBytes identity = .found pack → pack.length < 2 ^ 64) :
    ∃ pack packed, cache.packBytes identity = .found pack ∧
      (∀ project, indexPack pack project = if project = cache.project then .found packed else .missing) ∧
      (∀ key, key ∈ packed ↔ key ∈ cache.entries.map Prod.fst) ∧
      (∀ s ∈ cache.entries, ∃ range, packed.lookup s.1 = some range ∧
        slice pack range.start range.stop = s.2.bytes cache.pack) ∧
      ∀ key range, packed.lookup key = some range → ∃ entry,
        slice pack range.start range.stop = .found entry ∧ P entry key := by
  obtain ⟨entries, hbytes, hkeys, hall, hstored⟩ := storedBytes_found hentries
  have hcount : cache.entries.length = entries.length := by
    rw [← length_map (f := Prod.fst), ← hkeys, length_map]
  have hpack : cache.packBytes identity = .found
      (packHeader identity cache.project entries.length ++ (entries.map Prod.snd).flatten) := by
    rw [FrontendCache.packBytes, hbytes, found_bind, hcount]
    rfl
  have hfront : (packHeader identity cache.project entries.length).length = packHeaderBytes := length_header rfl
  have hlookup : ∀ e ∈ entries, ∃ range, (ranges packHeaderBytes entries ∅).lookup e.1 = some range ∧
      slice (packHeader identity cache.project entries.length ++ (entries.map Prod.snd).flatten)
        range.start range.stop = .found e.2 := by
    rw [← hfront]
    exact fun e he => lookup_ranges (hkeys ▸ hnodup) rfl he
  have hmem : ∀ key, key ∈ ranges packHeaderBytes entries ∅ ↔ key ∈ entries.map Prod.fst := by
    intro key
    rw [← AList.lookup_isSome]
    constructor
    · intro hsome
      by_contra hnone
      rw [lookup_ranges_of_notMem hnone] at hsome
      cases hsome
    · intro hin
      obtain ⟨e, he, rfl⟩ := mem_map.mp hin
      obtain ⟨range, hrange, -⟩ := hlookup e he
      rw [hrange]
      rfl
  refine ⟨_, _, hpack, indexPack_eq (fun e he => hentry _ _ (hall e he)) rfl (hsmall _ hpack),
    fun key => hkeys ▸ hmem key, fun s hs => ?_, fun key range hrange => ?_⟩
  · obtain ⟨entry, he, hbytes⟩ := hstored s hs
    obtain ⟨range, hrange, hslice⟩ := hlookup _ he
    exact ⟨range, hrange, hslice.trans hbytes.symm⟩
  · have hin : key ∈ ranges packHeaderBytes entries ∅ := by
      rw [← AList.lookup_isSome, hrange]
      rfl
    obtain ⟨e, he, rfl⟩ := mem_map.mp ((hmem key).mp hin)
    obtain ⟨range', hrange', hslice⟩ := hlookup e he
    rw [hrange] at hrange'
    obtain rfl := Option.some.inj hrange'
    exact ⟨e.2, hslice, hall e he⟩

end Tsuzuri.Frontend
