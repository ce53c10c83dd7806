import Tsuzuri.CborTokens

/-!
# Decoding what was encoded

`decode` undoes `encode` on the values whose numbers are integers, up to the order of the members.
-/

namespace Tsuzuri.Cbor

open FaultVec Unicode List
open Json (Str maxLength get_of_drop drop_add)

/-! ## Values with sorted members -/

def memberLe (a b : Str × Json.Value) : Bool :=
  !(encodedKey b.1 < encodedKey a.1)

mutual
def sorted : Json.Value → Json.Value
  | .null => .null
  | .bool flag => .bool flag
  | .number t => .number t
  | .text u => .text u
  | .items values => .items (sortedItems values)
  | .object members => .object ((sortedMembers members).mergeSort memberLe)
termination_by structural v => v

def sortedItems : List Json.Value → List Json.Value
  | [] => []
  | v :: vs => sorted v :: sortedItems vs
termination_by structural vs => vs

def sortedMembers : List (Str × Json.Value) → List (Str × Json.Value)
  | [] => []
  | m :: ms => sortedMember m :: sortedMembers ms
termination_by structural ms => ms

def sortedMember : Str × Json.Value → Str × Json.Value
  | (key, v) => (key, sorted v)
termination_by structural m => m
end

mutual
def encodable : Json.Value → Prop
  | .number t => IntegerNumeral t
  | .text u => (scalars16 u).isSome
  | .items values => encodableItems values
  | .object members => (members.map Prod.fst).Nodup ∧ encodableMembers members
  | _ => True
termination_by structural v => v

def encodableItems : List Json.Value → Prop
  | [] => True
  | v :: vs => encodable v ∧ encodableItems vs
termination_by structural vs => vs

def encodableMembers : List (Str × Json.Value) → Prop
  | [] => True
  | m :: ms => encodableMember m ∧ encodableMembers ms
termination_by structural ms => ms

def encodableMember : Str × Json.Value → Prop
  | (key, v) => (scalars16 key).isSome ∧ encodable v
termination_by structural m => m
end

theorem sortedItems_eq (vs : List Json.Value) : sortedItems vs = vs.map sorted := by
  induction vs with
  | nil => rfl
  | cons v vs ih => rw [sortedItems, ih, map_cons]

theorem sortedMembers_eq (ms : List (Str × Json.Value)) : sortedMembers ms = ms.map sortedMember := by
  induction ms with
  | nil => rfl
  | cons m ms ih => rw [sortedMembers, ih, map_cons]

variable {vs : List Json.Value} {ms : List (Str × Json.Value)} {v : Json.Value}

theorem encodableItems_iff : encodableItems vs ↔ ∀ v ∈ vs, encodable v := by
  induction vs with
  | nil => simp [encodableItems]
  | cons v vs ih => simp [encodableItems, ih]

theorem encodableMembers_iff : encodableMembers ms ↔ ∀ m ∈ ms, (scalars16 m.1).isSome ∧ encodable m.2 := by
  induction ms with
  | nil => simp [encodableMembers]
  | cons m ms ih =>
    obtain ⟨key, v⟩ := m
    rw [encodableMembers, ih, forall_mem_cons, encodableMember]

variable {floats : Floats} {n : Nat}

theorem itemsOf_reads : ∀ {vs : List Json.Value},
    (∀ v ∈ vs, Encodes floats n (sorted v) fun output => item floats output v) →
    ∃ s, vs.length ≤ s.length ∧ (∀ output, itemsOf floats output vs = .ok (output ++ s)) ∧
      (s.length ≤ maxLength → ∀ (items : List Json.Value) {bytes rest : List Nat}
        {position fuel depth : Nat}, bytes.drop position = s ++ rest → n + depth ≤ 128 → n < fuel →
        itemsAt (fun position => valueAt floats bytes fuel position depth) vs.length items position
          = .ok (items ++ vs.map sorted, position + s.length))
  | [], _ => by
    refine ⟨[], le_rfl, fun output => ?_, fun _ items bytes rest position fuel depth _ _ _ => ?_⟩
    · rw [itemsOf, append_nil]
    · simp [itemsAt]
  | v :: vs, h => by
    obtain ⟨t, hne, hrun, hreads⟩ := h v mem_cons_self
    obtain ⟨s, hcount, hmore, hrest⟩ := itemsOf_reads fun v hv => h v (mem_cons_of_mem _ hv)
    have hpos := length_pos_iff.mpr hne
    refine ⟨t ++ s, ?_, fun output => ?_, fun hsize items bytes rest position fuel depth hdrop hdepth hfuel => ?_⟩
    · rw [length_cons, length_append]
      omega
    · rw [itemsOf, show item floats output v = .ok (output ++ t) from hrun output]
      change itemsOf floats (output ++ t) vs = _
      rw [hmore, append_assoc]
    · rw [length_append] at hsize
      rw [append_assoc] at hdrop
      have hfirst := hreads (by omega) hdrop hdepth hfuel
      rw [length_cons, itemsAt, hfirst]
      change itemsAt _ vs.length (items ++ [sorted v]) (position + t.length) = _
      rw [hrest (by omega) _ (drop_add hdrop) hdepth hfuel]
      simp [Nat.add_assoc]

theorem items_encodes (h : ∀ v ∈ vs, Encodes floats n (sorted v) fun output => item floats output v) :
    Encodes floats (n + 1) (sorted (.items vs)) fun output => item floats output (.items vs) := by
  obtain ⟨s, hcount, hrun, hreads⟩ := itemsOf_reads h
  obtain ⟨t, ht, hhead⟩ := head_spec 4 vs.length (by decide)
  refine ⟨t ++ s, by simp [ht.ne_nil], fun output => ?_, fun hsize => ?_⟩
  · change item floats output (.items vs) = _
    rw [item, hhead, hrun, append_assoc]
  · rw [length_append, maxLength] at hsize
    intro bytes rest start fuel depth hdrop hdepth hfuel
    obtain ⟨fuel, rfl⟩ : ∃ f, fuel = f + 1 := ⟨fuel - 1, by omega⟩
    rw [append_assoc] at hdrop
    obtain ⟨byte, hbyte, hmajor⟩ := ht.first hdrop
    have hroom := length_le_of_drop hdrop ht.ne_nil
    rw [length_append] at hroom
    have hitems := hreads (by rw [maxLength]; omega) [] (drop_add hdrop)
      (by omega : n + (depth + 1) ≤ 128) (by omega : n < fuel)
    simp only [valueAt, hbyte, hmajor, argument_ok ht (by omega) hdrop]
    change containerAt _ bytes 4 start vs.length (start + t.length) depth = _
    unfold containerAt
    simp only
    rw [if_neg (by omega), if_neg (by omega), if_neg (by omega), if_pos trivial, hitems]
    change Except.ok (Json.Value.items ([] ++ vs.map sorted), _) = _
    rw [sorted, sortedItems_eq, nil_append, length_append, Nat.add_assoc]

def encodedValue (floats : Floats) (v : Json.Value) : List Nat :=
  match item floats [] v with
  | .ok bytes => bytes
  | .error _ => []

def MemberEncodes (floats : Floats) (n : Nat) (m : Str × Json.Value) : Prop :=
  (scalars16 m.1).isSome ∧ item floats [] m.2 = .ok (encodedValue floats m.2) ∧ encodedValue floats m.2 ≠ [] ∧
    ((encodedValue floats m.2).length ≤ maxLength → Reads floats n (sorted m.2) (encodedValue floats m.2))

theorem memberEncodes {m : Str × Json.Value} (hkey : (scalars16 m.1).isSome)
    (h : Encodes floats n (sorted m.2) fun output => item floats output m.2) : MemberEncodes floats n m := by
  obtain ⟨t, hne, hrun, hreads⟩ := h
  have hitem : item floats [] m.2 = .ok t := by
    have := hrun []
    rwa [nil_append] at this
  have hvalue : encodedValue floats m.2 = t := by
    rw [encodedValue, hitem]
  refine ⟨hkey, ?_, ?_, ?_⟩
  · rw [hvalue]
    exact hitem
  · rw [hvalue]
    exact hne
  · rw [hvalue]
    exact hreads

def entryFor (floats : Floats) (m : (Str × Json.Value) × Nat) : Entry :=
  { key := encodedKey m.1.1, index := m.2, value := encodedValue floats m.1.2 }

theorem entriesOf_ok : ∀ {ms : List (Str × Json.Value)} {index : Nat},
    (∀ m ∈ ms, (scalars16 m.1).isSome ∧ item floats [] m.2 = .ok (encodedValue floats m.2)) →
    entriesOf floats index ms = .ok ((ms.zipIdx index).map (entryFor floats))
  | [], _, _ => rfl
  | (key, v) :: ms, index, h => by
    obtain ⟨hkey, hitem⟩ := h (key, v) mem_cons_self
    have hentry : entryOf floats index (key, v) = .ok (entryFor floats ((key, v), index)) := by
      rw [entryOf, textItem_ok hkey, nil_append]
      change (item floats [] v >>= _) = _
      rw [show item floats [] v = _ from hitem]
      rfl
    rw [entriesOf, hentry]
    change (entriesOf floats (index + 1) ms >>= _) = _
    rw [entriesOf_ok fun m hm => h m (mem_cons_of_mem _ hm)]
    rfl

/-! ### The sorted entries -/

theorem entryLe_iff {a b : Entry} : entryLe a b = true ↔
    a.key < b.key ∨ (a.key = b.key ∧ (a.index < b.index ∨ (a.index = b.index ∧ ¬ b.value < a.value))) := by
  simp [entryLe]

theorem entryLe_trans (a b c : Entry) (hab : entryLe a b = true) (hbc : entryLe b c = true) : entryLe a c = true := by
  rw [entryLe_iff] at *
  rcases hab with hab | ⟨hab, hab'⟩
  · rcases hbc with hbc | ⟨hbc, -⟩
    · exact .inl (lt_trans hab hbc)
    · rw [← hbc]
      exact .inl hab
  · rcases hbc with hbc | ⟨hbc, hbc'⟩
    · rw [hab]
      exact .inl hbc
    · refine .inr ⟨hab.trans hbc, ?_⟩
      rcases hab' with hi | ⟨hi, hv⟩
      · rcases hbc' with hj | ⟨hj, -⟩
        · exact .inl (by omega)
        · exact .inl (by omega)
      · rcases hbc' with hj | ⟨hj, hw⟩
        · exact .inl (by omega)
        · exact .inr ⟨by omega, List.le_trans (List.not_lt.mp hv) (List.not_lt.mp hw)⟩

theorem entryLe_total (a b : Entry) : (entryLe a b || entryLe b a) = true := by
  rw [Bool.or_eq_true, entryLe_iff, entryLe_iff]
  by_cases hab : a.key < b.key
  · exact .inl (.inl hab)
  by_cases hba : b.key < a.key
  · exact .inr (.inl hba)
  have heq : a.key = b.key := List.le_antisymm (List.not_lt.mp hba) (List.not_lt.mp hab)
  rcases Nat.lt_trichotomy a.index b.index with h | h | h
  · exact .inl (.inr ⟨heq, .inl h⟩)
  · by_cases hv : b.value < a.value
    · exact .inr (.inr ⟨heq.symm, .inr ⟨h.symm, fun hw => lt_asymm hv hw⟩⟩)
    · exact .inl (.inr ⟨heq, .inr ⟨h, hv⟩⟩)
  · exact .inr (.inr ⟨heq.symm, .inl h⟩)

theorem repeatedEntry_none {entries : List Entry} (h : entries.Pairwise fun a b => a.key ≠ b.key) :
    repeatedEntry entries none = none := by
  induction entries with
  | nil => rfl
  | cons a entries ih =>
    cases entries with
    | nil => rfl
    | cons b entries =>
      have hne := rel_of_pairwise_cons h mem_cons_self
      rw [repeatedEntry, if_neg fun hb => hne hb.1.symm]
      exact ih h.tail

theorem memberLe_iff {a b : Str × Json.Value} : memberLe a b = true ↔ ¬ encodedKey b.1 < encodedKey a.1 := by
  simp [memberLe]

theorem memberLe_trans (a b c : Str × Json.Value) (hab : memberLe a b = true)
    (hbc : memberLe b c = true) : memberLe a c = true := by
  rw [memberLe_iff] at *
  exact List.not_lt.mpr (List.le_trans (List.not_lt.mp hab) (List.not_lt.mp hbc))

theorem memberLe_total (a b : Str × Json.Value) : (memberLe a b || memberLe b a) = true := by
  rw [Bool.or_eq_true, memberLe_iff, memberLe_iff]
  by_cases h : encodedKey b.1 < encodedKey a.1
  · exact .inr fun h' => lt_asymm h h'
  · exact .inl h

section Sorting

variable {ms : List (Str × Json.Value)} (hkeys : (ms.map Prod.fst).Nodup) (hwell : ∀ m ∈ ms, (scalars16 m.1).isSome)

include hkeys hwell

theorem nodup_encodedKeys : (ms.map fun m => encodedKey m.1).Nodup := by
  refine (List.Nodup.of_map _ hkeys).map_on ?_
  intro a ha b hb h
  have hfst : a.1 = b.1 := encodedKey_inj (hwell a ha) (hwell b hb) h
  exact inj_on_of_nodup_map hkeys ha hb hfst

theorem sortedEntries_lt : ((ms.zipIdx.map (entryFor floats)).mergeSort entryLe).Pairwise fun a b => a.key < b.key := by
  have hle := pairwise_mergeSort entryLe_trans entryLe_total (ms.zipIdx.map (entryFor floats))
  have hperm := (mergeSort_perm (ms.zipIdx.map (entryFor floats)) entryLe).map Entry.key
  have hmap : (ms.zipIdx.map (entryFor floats)).map Entry.key = ms.map fun m => encodedKey m.1 := by
    rw [map_map]
    conv_rhs => rw [← zipIdx_map_fst 0 ms, map_map]
    rfl
  rw [hmap] at hperm
  have hne := pairwise_map.mp (hperm.nodup_iff.mpr (nodup_encodedKeys hkeys hwell))
  refine (hle.and hne).imp ?_
  rintro a b ⟨h, hkey⟩
  rcases entryLe_iff.mp h with h | ⟨h, -⟩
  · exact h
  · exact absurd h hkey

theorem sortedMembers_lt : (ms.mergeSort memberLe).Pairwise fun a b => encodedKey a.1 < encodedKey b.1 := by
  have hle := pairwise_mergeSort memberLe_trans memberLe_total ms
  have hperm := (mergeSort_perm ms memberLe).map fun m => encodedKey m.1
  have hne := pairwise_map.mp (hperm.nodup_iff.mpr (nodup_encodedKeys hkeys hwell))
  refine (hle.and hne).imp ?_
  rintro a b ⟨h, hkey⟩
  rw [memberLe_iff, List.not_lt] at h
  by_contra hlt
  exact hkey (List.le_antisymm h (List.not_lt.mp hlt))

theorem sortedEntries_eq : ((ms.zipIdx.map (entryFor floats)).mergeSort entryLe).map (fun e => (e.key, e.value))
      = (ms.mergeSort memberLe).map fun m => (encodedKey m.1, encodedValue floats m.2) := by
  have hentries : (((ms.zipIdx.map (entryFor floats)).mergeSort entryLe).map
      fun e => (e.key, e.value)).Pairwise fun a b => a.1 < b.1 :=
    pairwise_map.mpr (sortedEntries_lt hkeys hwell)
  refine List.Perm.eq_of_pairwise ?_ hentries ?_ ?_
  · intro a b _ _ hab hba
    exact absurd hba (lt_asymm hab)
  · exact pairwise_map.mpr (sortedMembers_lt hkeys hwell)
  · have hleft := (mergeSort_perm (ms.zipIdx.map (entryFor floats)) entryLe).map fun e => (e.key, e.value)
    have hright := (mergeSort_perm ms memberLe).map fun m => (encodedKey m.1, encodedValue floats m.2)
    refine hleft.trans (List.Perm.trans ?_ hright.symm)
    rw [map_map]
    conv_rhs => rw [← zipIdx_map_fst 0 ms, map_map]
    exact .refl _

end Sorting

/-! ### Members -/

def body (floats : Floats) (ms : List (Str × Json.Value)) : List Nat :=
  ms.flatMap fun m => encodedKey m.1 ++ encodedValue floats m.2

theorem mapItem_ok (hkeys : (ms.map Prod.fst).Nodup) (hwell : ∀ m ∈ ms, (scalars16 m.1).isSome) (output : List Nat) :
    mapItem output ms (ms.zipIdx.map (entryFor floats))
      = .ok (head output 5 ms.length ++ body floats (ms.mergeSort memberLe)) := by
  have hne : ((ms.zipIdx.map (entryFor floats)).mergeSort entryLe).Pairwise fun a b => a.key ≠ b.key := by
    refine (sortedEntries_lt hkeys hwell).imp ?_
    intro a b h heq
    rw [heq] at h
    exact lt_irrefl _ h
  have hbytes : (((ms.zipIdx.map (entryFor floats)).mergeSort entryLe).flatMap
      fun entry => entry.key ++ entry.value) = body floats (ms.mergeSort memberLe) := by
    have := congrArg (List.flatMap fun p : List Nat × List Nat => p.1 ++ p.2) (@sortedEntries_eq floats ms hkeys hwell)
    rwa [flatMap_map, flatMap_map] at this
  unfold mapItem
  simp only [repeatedEntry_none hne, hbytes]

theorem body_length (h : ∀ m ∈ ms, MemberEncodes floats n m) : 2 * ms.length ≤ (body floats ms).length := by
  induction ms with
  | nil => simp
  | cons m ms ih =>
    obtain ⟨hkey, -, hne, -⟩ := h m mem_cons_self
    have hmore := ih fun m hm => h m (mem_cons_of_mem _ hm)
    have hk := length_pos_iff.mpr (encodedKey_ne_nil hkey)
    have hv := length_pos_iff.mpr hne
    have hcons : body floats (m :: ms) = encodedKey m.1 ++ encodedValue floats m.2 ++ body floats ms := rfl
    rw [hcons, length_append, length_append, length_cons]
    omega

theorem key_first {key : Str} {bytes rest : List Nat} {position : Nat} (h : (scalars16 key).isSome)
    (hdrop : bytes.drop position = encodedKey key ++ rest) :
    bytes[position]?.any (fun byte => byte >>> 5 ≠ 3) = false := by
  obtain ⟨scalars, hscalars⟩ := Option.isSome_iff_exists.mp h
  obtain ⟨t, ht, hkey, -⟩ := textItem_eq hscalars
  rw [hkey, append_assoc] at hdrop
  obtain ⟨byte, hbyte, hmajor⟩ := ht.first hdrop
  simp [hbyte, hmajor]

theorem membersAt_reads : ∀ {ms : List (Str × Json.Value)}, (∀ m ∈ ms, MemberEncodes floats n m) →
    (body floats ms).length ≤ maxLength →
    ∀ (members : List (Str × Json.Value)) (offsets : List Nat) {bytes rest : List Nat}
      {position fuel depth : Nat}, bytes.drop position = body floats ms ++ rest →
      n + depth ≤ 128 → n < fuel →
      ∃ found, membersAt (fun position => valueAt floats bytes fuel position depth) bytes ms.length
        members offsets position = .ok ((members ++ ms.map sortedMember, found), position + (body floats ms).length)
  | [], _, _, members, offsets, bytes, rest, position, fuel, depth, _, _, _ =>
    ⟨offsets, by simp [membersAt, body]⟩
  | (key, v) :: ms, h, hsize, members, offsets, bytes, rest, position, fuel, depth, hdrop, hdepth, hfuel => by
    obtain ⟨hkey, -, -, hreads⟩ := h (key, v) mem_cons_self
    simp only at hkey hreads
    have hcons : body floats ((key, v) :: ms) = encodedKey key ++ (encodedValue floats v ++ body floats ms) := by
      simp [body]
    rw [hcons] at hsize hdrop ⊢
    simp only [length_append] at hsize
    rw [append_assoc] at hdrop
    have hkeyread := text_reads floats n hkey (by omega) hdrop hdepth hfuel
    have hdrop' := drop_add hdrop
    rw [append_assoc] at hdrop'
    have hvalue := hreads (by omega) hdrop' hdepth hfuel
    obtain ⟨found, hmore⟩ := membersAt_reads (fun m hm => h m (mem_cons_of_mem _ hm)) (by omega)
      (members ++ [(key, sorted v)]) (offsets ++ [position]) (drop_add hdrop') hdepth hfuel
    refine ⟨found, ?_⟩
    rw [length_cons, membersAt, key_first hkey hdrop, if_neg Bool.false_ne_true, hkeyread]
    change (valueAt floats bytes fuel (position + (encodedKey key).length) depth >>= _) = _
    rw [hvalue]
    change membersAt _ bytes ms.length (members ++ [(key, sorted v)]) (offsets ++ [position]) _ = _
    rw [hmore]
    simp [sortedMember, Nat.add_assoc]

theorem closeMap_ok {members : List (Str × Json.Value)} (h : (members.map Prod.fst).Nodup)
    (offsets : List Nat) (position : Nat) : closeMap members offsets position = .ok (.object members, position) := by
  unfold closeMap
  rw [show repeated members = none from Json.leastAdjacent_sorted.mpr h]

@[simp] theorem sortedMember_fst (m : Str × Json.Value) : (sortedMember m).1 = m.1 := by
  obtain ⟨key, v⟩ := m
  rw [sortedMember]

theorem map_sortedMember_fst (ms : List (Str × Json.Value)) : (ms.map sortedMember).map Prod.fst = ms.map Prod.fst := by
  rw [map_map]
  exact map_congr_left fun m _ => sortedMember_fst m

theorem sorted_object (ms : List (Str × Json.Value)) :
    sorted (.object ms) = .object ((ms.mergeSort memberLe).map sortedMember) := by
  rw [sorted, sortedMembers_eq, map_mergeSort (s := memberLe)]
  intro a _ b _
  simp only [memberLe, sortedMember_fst]

theorem object_encodes (hkeys : (ms.map Prod.fst).Nodup) (h : ∀ m ∈ ms, MemberEncodes floats n m) :
    Encodes floats (n + 1) (sorted (.object ms)) fun output => item floats output (.object ms) := by
  have hwell : ∀ m ∈ ms, (scalars16 m.1).isSome := fun m hm => (h m hm).1
  have hperm := mergeSort_perm ms memberLe
  have hsorted : ∀ m ∈ ms.mergeSort memberLe, MemberEncodes floats n m :=
    fun m hm => h m (hperm.mem_iff.mp hm)
  obtain ⟨t, ht, hhead⟩ := head_spec 5 ms.length (by decide)
  refine ⟨t ++ body floats (ms.mergeSort memberLe), by simp [ht.ne_nil], fun output => ?_, fun hsize => ?_⟩
  · change item floats output (.object ms) = _
    rw [item, entriesOf_ok fun m hm => ⟨(h m hm).1, (h m hm).2.1⟩]
    change mapItem output ms (ms.zipIdx.map (entryFor floats)) = _
    rw [mapItem_ok hkeys hwell, hhead, append_assoc]
  · rw [length_append, maxLength] at hsize
    have hcount := body_length hsorted
    rw [hperm.length_eq] at hcount
    intro bytes rest start fuel depth hdrop hdepth hfuel
    obtain ⟨fuel, rfl⟩ : ∃ f, fuel = f + 1 := ⟨fuel - 1, by omega⟩
    rw [append_assoc] at hdrop
    obtain ⟨byte, hbyte, hmajor⟩ := ht.first hdrop
    have hroom := length_le_of_drop hdrop ht.ne_nil
    rw [length_append] at hroom
    obtain ⟨found, hmembers⟩ := membersAt_reads hsorted (by rw [maxLength]; omega) [] []
      (drop_add hdrop) (by omega : n + (depth + 1) ≤ 128) (by omega : n < fuel)
    rw [hperm.length_eq] at hmembers
    have hnodup : (((ms.mergeSort memberLe).map sortedMember).map Prod.fst).Nodup := by
      rw [map_sortedMember_fst]
      exact (hperm.map Prod.fst).nodup_iff.mpr hkeys
    simp only [valueAt, hbyte, hmajor, argument_ok ht (by omega) hdrop]
    change containerAt _ bytes 5 start ms.length (start + t.length) depth = _
    unfold containerAt
    simp only
    rw [if_neg (by omega), if_neg (by omega), if_neg (by omega), if_neg (by decide), hmembers]
    change closeMap ([] ++ _) found _ = _
    rw [nil_append, closeMap_ok hnodup, sorted_object, length_append, Nat.add_assoc]

/-! ## Values -/

theorem simple_reads {byte info : Nat} (hmajor : byte >>> 5 = 7) (hinfo : byte &&& 31 = info)
    (h : ∀ bytes start, simple floats bytes start info = .ok (v, start + 1)) :
    Reads floats n v [byte] := by
  intro bytes rest start fuel depth hdrop _ hfuel
  obtain ⟨fuel, rfl⟩ : ∃ f, fuel = f + 1 := ⟨fuel - 1, by omega⟩
  simp only [valueAt, get_of_drop hdrop, hmajor, hinfo]
  exact h bytes start

theorem leaf_encodes (n : Nat) (h : encodable v) (hleaf : v.depth = 0) :
    Encodes floats n (sorted v) fun output => item floats output v := by
  cases v with
  | null =>
    exact ⟨[246], by simp, fun output => rfl, fun _ => simple_reads rfl rfl fun bytes start => rfl⟩
  | bool flag =>
    cases flag with
    | true =>
      exact ⟨[245], by simp, fun output => rfl, fun _ => simple_reads rfl rfl fun bytes start => rfl⟩
    | false =>
      exact ⟨[244], by simp, fun output => rfl, fun _ => simple_reads rfl rfl fun bytes start => rfl⟩
  | number t => exact number_encodes floats n (by simpa [encodable] using h)
  | text u =>
    have hu : (scalars16 u).isSome := by simpa [encodable] using h
    exact ⟨encodedKey u, encodedKey_ne_nil hu, fun output => textItem_ok hu output,
      fun hsize => text_reads floats n hu hsize⟩
  | items vs | object ms => simp [Json.Value.depth] at hleaf

theorem value_encodes : ∀ (n : Nat) {v : Json.Value}, v.depth ≤ n → encodable v →
    Encodes floats n (sorted v) fun output => item floats output v := by
  intro n
  induction n with
  | zero =>
    intro v hdepth h
    exact leaf_encodes 0 h (by omega)
  | succ n ih =>
    intro v hdepth h
    cases v with
    | items vs =>
      rw [encodable, encodableItems_iff] at h
      rw [Json.Value.depth] at hdepth
      refine items_encodes fun v hv => ih ?_ (h v hv)
      have := Json.Value.depthItems_le hv
      omega
    | object ms =>
      rw [encodable, encodableMembers_iff] at h
      rw [Json.Value.depth] at hdepth
      refine object_encodes h.1 fun m hm => memberEncodes (h.2 m hm).1 (ih ?_ (h.2 m hm).2)
      have := Json.Value.depthMembers_le hm
      omega
    | null | bool flag | number t | text u => exact leaf_encodes _ h (by simp [Json.Value.depth])

theorem signed_inj {a b : Bool} {d e : List Nat} (hd : Canonical d) (he : Canonical e)
    (h : signed a d = signed b e) : a = b ∧ d = e := by
  cases a with
  | false =>
    cases b with
    | false => exact ⟨rfl, h⟩
    | true =>
      change d = 45 :: e at h
      exact absurd (by rw [h]; rfl) (head?_digits hd)
  | true =>
    cases b with
    | false =>
      change 45 :: d = e at h
      exact absurd (by rw [← h]; rfl) (head?_digits he)
    | true => exact ⟨rfl, (List.cons.inj h).2⟩

theorem encode_bignum (floats : Floats) {negative : Bool} {digits : List Nat}
    (hdig : Canonical digits) (h : IntegerNumeral (signed negative digits)) (hbig : inHead negative digits = false) :
    encode floats (.number (signed negative digits)) = .ok (bignum [] negative digits) := by
  obtain ⟨negative', digits', heq, hdig', hlen, hne⟩ := h
  obtain ⟨rfl, rfl⟩ := signed_inj hdig hdig' heq
  rw [encode, item, number_signed floats hdig, integer_eq hlen hne, if_pos (.inr hbig)]

/-- A value whose numbers are integers, whose text is well-formed, whose objects have distinct keys
and whose nesting is at most 128 is encoded. When the bytes are at most 64 MiB they are decoded to
the value with the members of every object sorted by their encoded keys. An integer outside 64 bits
is encoded as a bignum. -/
theorem decode_encoded (floats : Floats) {v : Json.Value} (h : encodable v) (hdepth : v.depth ≤ 128) :
    ∃ bytes, encode floats v = .ok bytes ∧ (bytes.length ≤ maxLength → decode floats bytes = .ok (sorted v)) ∧
      ∀ negative digits, v = .number (signed negative digits) → Canonical digits →
        inHead negative digits = false → bytes = bignum [] negative digits := by
  obtain ⟨bytes, -, hrun, hreads⟩ := value_encodes v.depth le_rfl h
  have hencode : encode floats v = .ok bytes := by
    have := hrun []
    rwa [nil_append] at this
  refine ⟨bytes, hencode, fun hsize => ?_, ?_⟩
  · have hdrop : bytes.drop 0 = bytes ++ [] := by simp
    have hread := hreads hsize hdrop (by omega : v.depth + 0 ≤ 128) (by omega : v.depth < 130)
    unfold decode
    rw [if_neg (by omega), hread]
    change (if 0 + bytes.length < bytes.length then _ else _) = _
    rw [if_neg (by omega)]
  · rintro negative digits rfl hdig hbig
    rw [encode_bignum floats hdig (by simpa [encodable] using h) hbig] at hencode
    exact (Except.ok.inj hencode).symm

def noFloats : Floats := { bits := fun _ => none, text := fun _ _ _ => none }

def sample : Json.Value :=
  .object [([98], .number [49, 56, 52, 52, 54, 55, 52, 52, 48, 55, 51, 55, 48, 57, 53, 53, 49, 54,
    49, 54]), ([97], .items [.number [45, 49], .text [955]])]

theorem decode_encoded_sample : ∃ bytes, encode noFloats sample = .ok bytes ∧
      (bytes.length ≤ maxLength → decode noFloats bytes = .ok (sorted sample)) ∧
      ∀ negative digits, sample = .number (signed negative digits) → Canonical digits →
        inHead negative digits = false → bytes = bignum [] negative digits := by
  refine decode_encoded noFloats ?_ (by decide)
  have hbig : IntegerNumeral [49, 56, 52, 52, 54, 55, 52, 52, 48, 55, 51, 55, 48, 57, 53, 53, 49, 54, 49, 54] := by
    refine ⟨false, _, rfl, .inr ⟨49, _, rfl, rfl, by decide, ?_⟩, by decide, by decide⟩
    unfold Json.Digits
    decide
  have hone : IntegerNumeral [45, 49] :=
    ⟨true, [49], rfl, .inr ⟨49, [], rfl, rfl, by decide, by simp [Json.Digits]⟩, by decide, by decide⟩
  have hunits : ∀ u ∈ [[97], [98], [955]], (scalars16 u).isSome = true := by decide
  simp [sample, encodable, encodableMembers, encodableMember, encodableItems, hbig, hone, hunits]

end Tsuzuri.Cbor
