import Tsuzuri.CborPrefix

/-!
# The order of members does not matter

The members of an object are sorted by the bytes of their keys, so their order does not matter and the encoding is
canonical.
-/

namespace Tsuzuri.Cbor

open FaultVec Unicode List
open Json (Str maxLength ok_then error_then)

/-- The same value up to the order of the members of objects, at any depth. -/
inductive Permuted : Json.Value → Json.Value → Prop
  | refl (v : Json.Value) : Permuted v v
  | items {vs ws : List Json.Value} (h : List.Forall₂ Permuted vs ws) : Permuted (.items vs) (.items ws)
  | object {ms ns ls : List (Str × Json.Value)} (hkeys : ms.map Prod.fst = ns.map Prod.fst)
      (h : List.Forall₂ Permuted (ms.map Prod.snd) (ns.map Prod.snd)) (hperm : ns.Perm ls) :
      Permuted (.object ms) (.object ls)

variable {vs : List Json.Value} {ms ls ns : List (Str × Json.Value)} {index : Nat} {v w : Json.Value}

variable {floats : Floats}

def Encoded (floats : Floats) (m : Str × Json.Value) : Prop :=
  (scalars16 m.1).isSome ∧ item floats [] m.2 = .ok (encodedValue floats m.2)

theorem entryOf_encoded {m : Str × Json.Value} {entry : Entry} (h : entryOf floats index m = .ok entry) :
    Encoded floats m := by
  obtain ⟨key, v⟩ := m
  rw [entryOf] at h
  obtain ⟨encodedKey, hkey, h⟩ := run_bind_ok.mp h
  obtain ⟨value, hvalue, -⟩ := run_bind_ok.mp h
  constructor
  · unfold textItem at hkey
    cases hs : scalars16 key with
    | none =>
      rw [hs] at hkey
      cases hkey
    | some scalars => rfl
  · change item floats [] v = .ok (encodedValue floats v)
    rw [encodedValue, hvalue]

theorem entriesOf_encoded {entries : List Entry} (h : entriesOf floats index ms = .ok entries) :
    ∀ m ∈ ms, Encoded floats m := by
  induction ms generalizing index entries with
  | nil => simp
  | cons m ms ih =>
    rw [entriesOf] at h
    obtain ⟨entry, hentry, h⟩ := run_bind_ok.mp h
    obtain ⟨more, hmore, -⟩ := run_bind_ok.mp h
    exact forall_mem_cons.mpr ⟨entryOf_encoded hentry, ih hmore⟩

theorem object_ok (hkeys : (ms.map Prod.fst).Nodup) (output bytes : List Nat) :
    item floats output (.object ms) = .ok bytes ↔ (∀ m ∈ ms, Encoded floats m) ∧
        head output 5 ms.length ++ body floats (ms.mergeSort memberLe) = bytes := by
  have hrun : (∀ m ∈ ms, Encoded floats m) → item floats output (.object ms)
      = .ok (head output 5 ms.length ++ body floats (ms.mergeSort memberLe)) := by
    intro h
    rw [item, entriesOf_ok h, ok_then]
    exact mapItem_ok hkeys (fun m hm => (h m hm).1) output
  constructor
  · intro h
    have hall : ∀ m ∈ ms, Encoded floats m := by
      rw [item] at h
      obtain ⟨entries, hentries, -⟩ := run_bind_ok.mp h
      exact entriesOf_encoded hentries
    rw [hrun hall] at h
    exact ⟨hall, Except.ok.inj h⟩
  · rintro ⟨hall, rfl⟩
    exact hrun hall

theorem body_perm (hperm : (ms.map fun m => (m.1, encodedValue floats m.2)).Perm
      (ls.map fun m => (m.1, encodedValue floats m.2))) (hms : (ms.map Prod.fst).Nodup)
    (hls : (ls.map Prod.fst).Nodup) (hwellms : ∀ m ∈ ms, (scalars16 m.1).isSome)
    (hwells : ∀ m ∈ ls, (scalars16 m.1).isSome) :
    body floats (ms.mergeSort memberLe) = body floats (ls.mergeSort memberLe) := by
  have hsorted : (ms.mergeSort memberLe).map (fun m => (encodedKey m.1, encodedValue floats m.2))
      = (ls.mergeSort memberLe).map fun m => (encodedKey m.1, encodedValue floats m.2) := by
    have hleft : ((ms.mergeSort memberLe).map
        fun m => (encodedKey m.1, encodedValue floats m.2)).Pairwise fun a b => a.1 < b.1 :=
      pairwise_map.mpr (sortedMembers_lt hms hwellms)
    refine List.Perm.eq_of_pairwise ?_ hleft ?_ ?_
    · intro a b _ _ hab hba
      exact absurd hba (lt_asymm hab)
    · exact pairwise_map.mpr (sortedMembers_lt hls hwells)
    · have hkeyed := hperm.map fun p : Str × List Nat => (encodedKey p.1, p.2)
      rw [map_map, map_map] at hkeyed
      have hleft := (mergeSort_perm ms memberLe).map fun m => (encodedKey m.1, encodedValue floats m.2)
      have hright := (mergeSort_perm ls memberLe).map fun m => (encodedKey m.1, encodedValue floats m.2)
      exact (hleft.trans hkeyed).trans hright.symm
  have hflat := congrArg (List.flatMap fun p : List Nat × List Nat => p.1 ++ p.2) hsorted
  rwa [flatMap_map, flatMap_map] at hflat

/-! ## Values -/

def SameBytes (floats : Floats) (v w : Json.Value) : Prop :=
  ∀ output bytes, item floats output v = .ok bytes ↔ item floats output w = .ok bytes

theorem SameBytes.encodedValue (h : SameBytes floats v w) : encodedValue floats v = encodedValue floats w := by
  unfold Cbor.encodedValue
  cases hv : item floats [] v with
  | ok bytes => rw [(h [] bytes).mp hv]
  | error stop =>
    cases hw : item floats [] w with
    | ok bytes =>
      rw [(h [] bytes).mpr hw] at hv
      cases hv
    | error stop' => rfl

theorem SameBytes.encoded {key : Str} (h : SameBytes floats v w) :
    Encoded floats (key, v) ↔ Encoded floats (key, w) := by
  unfold Encoded
  simp only
  rw [h.encodedValue, h]

theorem itemsOf_same {ws : List Json.Value} (h : List.Forall₂ (SameBytes floats) vs ws) (output bytes : List Nat) :
    itemsOf floats output vs = .ok bytes ↔ itemsOf floats output ws = .ok bytes := by
  induction h generalizing output with
  | nil => rfl
  | cons hv _ ih =>
    rw [itemsOf, itemsOf, run_bind_ok, run_bind_ok]
    refine exists_congr fun next => ?_
    rw [hv, ih]

theorem forall₂_members {r : Json.Value → Json.Value → Prop} (hkeys : ms.map Prod.fst = ns.map Prod.fst)
    (h : List.Forall₂ r (ms.map Prod.snd) (ns.map Prod.snd)) :
    List.Forall₂ (fun m n => m.1 = n.1 ∧ r m.2 n.2) ms ns := by
  induction ms generalizing ns with
  | nil =>
    cases ns with
    | nil => exact .nil
    | cons n ns => cases h
  | cons m ms ih =>
    cases ns with
    | nil => cases h
    | cons n ns =>
      obtain ⟨hkey, hkeys⟩ := List.cons.inj hkeys
      obtain ⟨hv, h⟩ := List.forall₂_cons.mp h
      exact .cons ⟨hkey, hv⟩ (ih hkeys h)

def SameMembers (floats : Floats) (ms ns : List (Str × Json.Value)) : Prop :=
  List.Forall₂ (fun m n => m.1 = n.1 ∧ SameBytes floats m.2 n.2) ms ns

section Members

variable {ms ns : List (Str × Json.Value)} (h : SameMembers floats ms ns)

include h

theorem SameMembers.keys : ms.map Prod.fst = ns.map Prod.fst := by
  induction h with
  | nil => rfl
  | cons hm _ ih => rw [map_cons, map_cons, hm.1, ih]

theorem SameMembers.pairs : (ms.map fun m => (m.1, encodedValue floats m.2))
    = ns.map fun m => (m.1, encodedValue floats m.2) := by
  induction h with
  | nil => rfl
  | cons hm _ ih => rw [map_cons, map_cons, hm.1, hm.2.encodedValue, ih]

theorem SameMembers.encoded : (∀ m ∈ ms, Encoded floats m) ↔ ∀ n ∈ ns, Encoded floats n := by
  induction h with
  | nil => rfl
  | @cons m n ms ns hm _ ih =>
    obtain ⟨key, v⟩ := m
    obtain ⟨key', w⟩ := n
    obtain ⟨rfl, hv⟩ := hm
    rw [forall_mem_cons, forall_mem_cons, ih, SameBytes.encoded hv]

end Members

theorem object_same (h : SameMembers floats ms ns) (hperm : ns.Perm ls) (hkeys : (ms.map Prod.fst).Nodup) :
    SameBytes floats (.object ms) (.object ls) := by
  have hls : (ls.map Prod.fst).Nodup := by
    rw [h.keys] at hkeys
    exact (hperm.map Prod.fst).nodup_iff.mp hkeys
  have hpairs : (ms.map fun m => (m.1, encodedValue floats m.2)).Perm
      (ls.map fun m => (m.1, encodedValue floats m.2)) := by
    rw [h.pairs]
    exact hperm.map _
  have hencoded : (∀ m ∈ ms, Encoded floats m) ↔ ∀ m ∈ ls, Encoded floats m := by
    rw [h.encoded]
    exact forall_congr' fun m => by rw [hperm.mem_iff]
  have hlength : ms.length = ls.length := (List.Forall₂.length_eq h).trans hperm.length_eq
  intro output bytes
  rw [object_ok hkeys, object_ok hls, hencoded, hlength]
  refine and_congr_right fun hall => ?_
  have hwells : ∀ m ∈ ls, (scalars16 m.1).isSome := fun m hm => (hall m hm).1
  have hwellms : ∀ m ∈ ms, (scalars16 m.1).isSome := fun m hm => (hencoded.mpr hall m hm).1
  rw [body_perm hpairs hkeys hls hwellms hwells]

theorem permuted_same : ∀ (n : Nat) {v w : Json.Value}, v.depth ≤ n → Permuted v w →
    v.distinct → SameBytes floats v w := by
  intro n
  induction n with
  | zero =>
    intro v w hdepth h hkeys
    cases h with
    | refl => exact fun output bytes => Iff.rfl
    | items h | object _ h hperm => simp [Json.Value.depth] at hdepth
  | succ n ih =>
    intro v w hdepth h hkeys
    cases h with
    | refl => exact fun output bytes => Iff.rfl
    | @items vs ws h =>
      rw [Json.Value.distinct, Json.Value.distinctItems_iff] at hkeys
      rw [Json.Value.depth] at hdepth
      have hsame : List.Forall₂ (SameBytes floats) vs ws := by
        refine (List.forall₂_and_left ..|>.mpr ⟨fun v hv => hv, h⟩).imp ?_
        rintro a b ⟨ha, hab⟩
        have := Json.Value.depthItems_le ha
        exact ih (by omega) hab (hkeys a ha)
      intro output bytes
      rw [item, item, List.Forall₂.length_eq h]
      exact itemsOf_same hsame _ _
    | @object ms ns ls hnames h hperm =>
      rw [Json.Value.distinct, Json.Value.distinctMembers_iff] at hkeys
      rw [Json.Value.depth] at hdepth
      refine object_same ?_ hperm hkeys.1
      refine (List.forall₂_and_left ..|>.mpr ⟨fun m hm => hm, forall₂_members hnames h⟩).imp ?_
      rintro a b ⟨ha, hkey, hab⟩
      have := Json.Value.depthMembers_le ha
      exact ⟨hkey, ih (by omega) hab (hkeys.2 a ha)⟩

/-- Two values that differ by the order of members with distinct keys, at any depth, have the same
encoding: one is encoded exactly when the other is, and to the same bytes. -/
theorem encode_permuted (floats : Floats) {v w : Json.Value} (h : Permuted v w)
    (hkeys : v.distinct) (bytes : List Nat) :
    encode floats v = .ok bytes ↔ encode floats w = .ok bytes :=
  permuted_same v.depth le_rfl h hkeys [] bytes

/-- An object inside an array, with its two members the other way round. -/
theorem encode_permuted_pair : encode noFloats (.items [.object [([98], .null), ([97], .bool true)]])
        = .ok [129, 162, 97, 97, 245, 97, 98, 246] ↔
      encode noFloats (.items [.object [([97], .bool true), ([98], .null)]])
        = .ok [129, 162, 97, 97, 245, 97, 98, 246] := by
  refine encode_permuted noFloats (.items (.cons ?_ .nil)) ?_ _
  · exact .object rfl (.cons (.refl _) (.cons (.refl _) .nil)) (.swap _ _ _)
  · simp [Json.Value.distinct, Json.Value.distinctItems, Json.Value.distinctMembers, Json.Value.distinctMember]

/-! ## Canonical bytes -/

theorem encodable_sorted : ∀ (n : Nat) {v : Json.Value}, v.depth ≤ n → encodable v →
    v.distinct ∧ Permuted v (sorted v) := by
  intro n
  induction n with
  | zero =>
    intro v hdepth h
    cases v with
    | items vs | object ms => simp [Json.Value.depth] at hdepth
    | _ => exact ⟨trivial, .refl _⟩
  | succ n ih =>
    intro v hdepth h
    cases v with
    | items vs =>
      rw [encodable, encodableItems_iff] at h
      rw [Json.Value.depth] at hdepth
      have hall : ∀ v ∈ vs, v.distinct ∧ Permuted v (sorted v) := fun v hv => by
        have := Json.Value.depthItems_le hv
        exact ih (by omega) (h v hv)
      rw [Json.Value.distinct, Json.Value.distinctItems_iff, sorted, sortedItems_eq]
      exact ⟨fun v hv => (hall v hv).1, .items (forall₂_map_right_iff.mpr (forall₂_same.mpr fun v hv => (hall v hv).2))⟩
    | object ms =>
      rw [encodable, encodableMembers_iff] at h
      rw [Json.Value.depth] at hdepth
      have hall : ∀ m ∈ ms, m.2.distinct ∧ Permuted m.2 (sorted m.2) := fun m hm => by
        have := Json.Value.depthMembers_le hm
        exact ih (by omega) (h.2 m hm).2
      rw [Json.Value.distinct, Json.Value.distinctMembers_iff, sorted, sortedMembers_eq]
      refine ⟨⟨h.1, fun m hm => (hall m hm).1⟩, .object (map_sortedMember_fst ms).symm ?_ (mergeSort_perm ..).symm⟩
      rw [map_map, forall₂_map_left_iff, forall₂_map_right_iff, forall₂_same]
      rintro ⟨key, v⟩ hm
      exact (hall _ hm).2
    | _ => exact ⟨trivial, .refl _⟩

/-- An encoding is canonical: what is read back from it encodes to the same bytes, and these are the bytes of just the
values that are equal up to the order of members. -/
theorem encode_canonical (floats : Floats) {v : Json.Value} (h : encodable v) (hdepth : v.depth ≤ 128) :
    ∃ bytes, encode floats v = .ok bytes ∧ (bytes.length ≤ maxLength →
      (∃ u, decode floats bytes = .ok u ∧ encode floats u = .ok bytes) ∧
      ∀ w, encodable w → w.depth ≤ 128 → (encode floats w = .ok bytes ↔ sorted w = sorted v)) := by
  have hsorted : ∀ w, encodable w → ∀ bytes, encode floats w = .ok bytes ↔ encode floats (sorted w) = .ok bytes :=
    fun w hw => have hsame := encodable_sorted w.depth le_rfl hw
      permuted_same w.depth le_rfl hsame.2 hsame.1 []
  have hread : ∀ w, encodable w → w.depth ≤ 128 → ∃ bytes, encode floats w = .ok bytes ∧
      (bytes.length ≤ maxLength → decode floats bytes = .ok (sorted w)) := by
    intro w hw hdepth
    obtain ⟨bytes, -, hrun, hreads⟩ := value_encodes w.depth le_rfl hw
    refine ⟨bytes, hrun [], fun hsize => ?_⟩
    have hread := hreads hsize (by simp : bytes.drop 0 = bytes ++ []) (by omega : w.depth + 0 ≤ 128)
      (by omega : w.depth < 130)
    unfold decode
    rw [if_neg (by omega), hread]
    exact if_neg (by omega)
  obtain ⟨bytes, hbytes, hdecode⟩ := hread v h hdepth
  refine ⟨bytes, hbytes, fun hsize => ⟨⟨_, hdecode hsize, (hsorted v h bytes).mp hbytes⟩, fun w hw hdepth => ?_⟩⟩
  constructor
  · intro hsame
    obtain ⟨other, hother, hdecode'⟩ := hread w hw hdepth
    obtain rfl := Except.ok.inj (hother.symm.trans hsame)
    exact Except.ok.inj ((hdecode' hsize).symm.trans (hdecode hsize))
  · intro hsame
    rw [hsorted w hw, hsame]
    exact (hsorted v h bytes).mp hbytes

theorem encode_canonical_pair : ∃ bytes, encode noFloats (.object [([98], .null), ([97], .bool true)]) = .ok bytes ∧
    (bytes.length ≤ maxLength → (∃ u, decode noFloats bytes = .ok u ∧ encode noFloats u = .ok bytes) ∧
      ∀ w, encodable w → w.depth ≤ 128 →
        (encode noFloats w = .ok bytes ↔ sorted w = sorted (.object [([98], .null), ([97], .bool true)]))) :=
  encode_canonical noFloats
    (by simp [encodable, encodableMembers, encodableMember, show ∀ u ∈ [[97], [98]], (scalars16 u).isSome by decide])
    (by decide)

end Tsuzuri.Cbor
