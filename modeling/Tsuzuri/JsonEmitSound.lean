import Tsuzuri.JsonEmit
import Tsuzuri.JsonParse

/-!
# What is written is in the grammar

The bytes that are appended are derived from the value by the grammar, and are ASCII or the encoding of scalar values.
-/

namespace Tsuzuri.Json

open FaultVec Unicode List

/-! ## Strings -/

variable {n b indent : Nat} {unit : UInt16} {t ws s : List Nat} {vs : List Value}
  {ms : List (Str × Value)} {v : Value} {m : Str × Value}

theorem ubyte_eq (h : n < 256) : ubyte n = n := Nat.mod_eq_of_lt h

theorem hexDigit_spec {d : Nat} (h : d < 16) : HexDigit (hexDigit d) d ∧ hexDigit d < 128 := by
  unfold hexDigit HexDigit
  split
  · rw [ubyte_eq (by omega)]
    omega
  · rw [ubyte_eq (by omega)]
    omega

def Spells (t : List Nat) (u : Str) : Prop :=
  (∀ {s : List Nat} {w : Str}, Chars s w → Chars (t ++ s) (u ++ w)) ∧ Valid t

theorem emitEscape_spells (output : List Nat) (unit : UInt16) :
    ∃ t, emitEscape output unit.toNat = output ++ t ∧ Spells t [unit] := by
  have hlt := unit.toNat_lt
  refine ⟨_, rfl, fun {s w} hs => ?_, Valid.ascii ?_⟩
  · have h12 : unit.toNat >>> 12 = unit.toNat / 4096 := shift_right _ 12
    have h8 : unit.toNat >>> 8 = unit.toNat / 256 := shift_right _ 8
    have h4 : unit.toNat >>> 4 = unit.toNat / 16 := shift_right _ 4
    rw [mask4, mask4, mask4, h12, h8, h4]
    have hchars := Chars.unicode (hexDigit_spec (by omega : unit.toNat / 4096 < 16)).1
      (hexDigit_spec (Nat.mod_lt (unit.toNat / 256) (show 16 > 0 by omega))).1
      (hexDigit_spec (Nat.mod_lt (unit.toNat / 16) (show 16 > 0 by omega))).1
      (hexDigit_spec (Nat.mod_lt unit.toNat (show 16 > 0 by omega))).1 hs
    have hsum : unit.toNat / 4096 * 4096 + unit.toNat / 256 % 16 * 256
        + unit.toNat / 16 % 16 * 16 + unit.toNat % 16 = unit.toNat := by omega
    rwa [hsum, UInt16.ofNat_toNat] at hchars
  · have h12 : unit.toNat >>> 12 = unit.toNat / 4096 := shift_right _ 12
    simp only [mem_cons, not_mem_nil, or_false]
    rw [mask4, mask4, mask4, h12]
    rintro b (rfl | rfl | rfl | rfl | rfl | rfl)
    · omega
    · omega
    · exact (hexDigit_spec (by omega)).2
    · exact (hexDigit_spec (Nat.mod_lt _ (by omega))).2
    · exact (hexDigit_spec (Nat.mod_lt _ (by omega))).2
    · exact (hexDigit_spec (Nat.mod_lt _ (by omega))).2

theorem escaped_spells (h : (b, unit) ∈ escapes) : Spells [92, b] [unit] := by
  refine ⟨fun hs => .escaped h hs, Valid.ascii ?_⟩
  simp only [escapes, mem_cons, Prod.mk.injEq, not_mem_nil, or_false] at h ⊢
  omega

theorem unit_eq (h : unit.toNat = n) : unit = UInt16.ofNat n := by
  rw [← h, UInt16.ofNat_toNat]

theorem emitControl_spells (output : List Nat) (unit : UInt16) :
    ∃ t, emitControl output unit.toNat = output ++ t ∧ Spells t [unit] := by
  unfold emitControl
  by_cases h8 : unit.toNat = 8
  · exact ⟨_, if_pos h8, escaped_spells (by rw [unit_eq h8]; decide)⟩
  rw [if_neg h8]
  by_cases h12 : unit.toNat = 12
  · exact ⟨_, if_pos h12, escaped_spells (by rw [unit_eq h12]; decide)⟩
  rw [if_neg h12]
  by_cases h10 : unit.toNat = 10
  · exact ⟨_, if_pos h10, escaped_spells (by rw [unit_eq h10]; decide)⟩
  rw [if_neg h10]
  by_cases h13 : unit.toNat = 13
  · exact ⟨_, if_pos h13, escaped_spells (by rw [unit_eq h13]; decide)⟩
  rw [if_neg h13]
  by_cases h9 : unit.toNat = 9
  · exact ⟨_, if_pos h9, escaped_spells (by rw [unit_eq h9]; decide)⟩
  rw [if_neg h9]
  exact emitEscape_spells output unit

theorem scalar_spells {c : Nat} (hc : Scalar c) (hlow : 32 ≤ c) (hquote : c ≠ 34) (hslash : c ≠ 92) :
    Spells (encode8 c) (encode16 c) :=
  ⟨fun hs => .unescaped hc hlow hquote hslash hs, .scalar hc⟩

theorem emitUnit_spells (output : List Nat) (unit : UInt16) :
    ∃ t, emitUnit output unit.toNat = output ++ t ∧ Spells t [unit] := by
  have hlt := unit.toNat_lt
  have h6 : unit.toNat >>> 6 = unit.toNat / 64 := shift_right _ 6
  have h12 : unit.toNat >>> 12 = unit.toNat / 4096 := shift_right _ 12
  unfold emitUnit
  by_cases hq : unit.toNat = 34 ∨ unit.toNat = 92
  · refine ⟨_, if_pos hq, ?_⟩
    rcases hq with hq | hq
    · rw [hq]
      exact escaped_spells (by rw [unit_eq hq]; decide)
    · rw [hq]
      exact escaped_spells (by rw [unit_eq hq]; decide)
  rw [if_neg hq]
  by_cases h32 : unit.toNat < 32
  · rw [if_pos h32]
    exact emitControl_spells output unit
  rw [if_neg h32]
  have h16 : ∀ {c : Nat}, c = unit.toNat → encode16 c = [unit] := by
    rintro c rfl
    rw [encode16, if_pos (by omega), UInt16.ofNat_toNat]
  by_cases h128 : unit.toNat < 128
  · have hspells := scalar_spells (scalar_ascii h128) (by omega) (by omega) (by omega)
    rw [h16 rfl, encode8_ascii h128] at hspells
    exact ⟨[unit.toNat], by rw [if_pos h128, ubyte_eq (by omega)], hspells⟩
  rw [if_neg h128]
  by_cases h2048 : unit.toNat < 2048
  · have hspells := scalar_spells (c := unit.toNat) (.inl (by omega)) (by omega) (by omega) (by omega)
    rw [h16 rfl] at hspells
    refine ⟨_, ?_, hspells⟩
    rw [if_pos h2048, h6, or_192 _ (by omega), tail_byte, ubyte_eq (by omega), ubyte_eq (by omega),
      encode8, if_neg h128, if_pos h2048]
  rw [if_neg h2048]
  by_cases hsur : 55296 ≤ unit.toNat ∧ unit.toNat ≤ 57343
  · rw [if_pos hsur]
    exact emitEscape_spells output unit
  rw [if_neg hsur]
  have hspells := scalar_spells (c := unit.toNat) (by unfold Scalar; omega) (by omega) (by omega) (by omega)
  rw [h16 rfl] at hspells
  refine ⟨_, ?_, hspells⟩
  rw [h12, h6, or_224 _ (by omega), tail_byte, tail_byte, ubyte_eq (by omega), ubyte_eq (by omega),
    ubyte_eq (by omega), encode8, if_neg h128, if_neg h2048, if_pos (by omega)]

theorem emitPair_spells (output : List Nat) {next : UInt16} (h : isPair unit.toNat next.toNat = true) :
    ∃ t, emitPair output unit.toNat next.toNat = output ++ t ∧ Spells t [unit, next] := by
  simp only [isPair, Bool.and_eq_true, decide_eq_true_eq] at h
  have hpoint : 65536 + ((unit.toNat - 55296) <<< 10) + (next.toNat - 56320)
      = 65536 + (unit.toNat - 55296) * 1024 + (next.toNat - 56320) := by
    rw [Nat.shiftLeft_eq]
  unfold emitPair
  simp only [hpoint]
  generalize hc : 65536 + (unit.toNat - 55296) * 1024 + (next.toNat - 56320) = c
  have hspells := scalar_spells (c := c) (by unfold Scalar; omega) (by omega) (by omega) (by omega)
  have h18 : c >>> 18 = c / 262144 := shift_right _ 18
  have h12 : c >>> 12 = c / 4096 := shift_right _ 12
  have h6 : c >>> 6 = c / 64 := shift_right _ 6
  have hunits : encode16 c = [unit, next] := by
    have hhigh : 0xD800 + (c - 0x10000) / 1024 = unit.toNat := by omega
    have hlow : 0xDC00 + (c - 0x10000) % 1024 = next.toNat := by omega
    rw [encode16, if_neg (by omega), hhigh, hlow, UInt16.ofNat_toNat, UInt16.ofNat_toNat]
  rw [hunits] at hspells
  refine ⟨_, ?_, hspells⟩
  rw [h18, h12, h6, or_240 _ (by omega), tail_byte, tail_byte, tail_byte, ubyte_eq (by omega),
    ubyte_eq (by omega), ubyte_eq (by omega), ubyte_eq (by omega), encode8, if_neg (by omega),
    if_neg (by omega), if_neg (by omega)]

theorem emitUnits_chars (output : List Nat) (u : Str) :
    ∃ t, emitUnits output u = output ++ t ∧ Chars t u ∧ Valid t := by
  induction output, u using emitUnits.induct with
  | case1 output => exact ⟨[], by simp [emitUnits], .nil, .nil⟩
  | case2 output unit =>
    obtain ⟨t, ht, hspells⟩ := emitUnit_spells output unit
    have := hspells.1 .nil
    rw [append_nil, append_nil] at this
    exact ⟨t, by rw [emitUnits, ht], this, hspells.2⟩
  | case3 output unit next rest hpair ih =>
    obtain ⟨t, ht, hspells⟩ := emitPair_spells output hpair
    obtain ⟨s, hs, hchars, hvalid⟩ := ih
    refine ⟨t ++ s, ?_, hspells.1 hchars, hspells.2.append hvalid⟩
    rw [emitUnits, if_pos hpair, hs, ht, append_assoc]
  | case4 output unit next rest hpair ih =>
    obtain ⟨t, ht, hspells⟩ := emitUnit_spells output unit
    obtain ⟨s, hs, hchars, hvalid⟩ := ih
    refine ⟨t ++ s, ?_, hspells.1 hchars, hspells.2.append hvalid⟩
    rw [emitUnits, if_neg hpair, hs, ht, append_assoc]

theorem valid_byte (h : b < 128) : Valid [b] :=
  Valid.ascii fun x hx => by
    rw [mem_singleton.mp hx]
    exact h

section

variable (output : List Nat)

theorem emitControl_append (unit : Nat) : emitControl output unit = output ++ emitControl [] unit := by
  unfold emitControl emitEscape
  split_ifs
  all_goals rfl

theorem emitUnit_append (unit : Nat) : emitUnit output unit = output ++ emitUnit [] unit := by
  unfold emitUnit
  split_ifs
  · rfl
  · exact emitControl_append output unit
  all_goals rfl

theorem emitUnits_append (u : Str) : emitUnits output u = output ++ emitUnits [] u := by
  suffices h : ∀ (u : Str) (front output : List Nat), emitUnits (front ++ output) u = front ++ emitUnits output u by
    simpa using h u output []
  intro u front output
  induction output, u using emitUnits.induct with
  | case1 output => simp [emitUnits]
  | case2 output unit =>
    rw [emitUnits, emitUnits, emitUnit_append, emitUnit_append output, append_assoc]
  | case3 output unit next rest hpair ih =>
    rw [emitUnits, emitUnits, if_pos hpair, if_pos hpair, ← ih]
    simp [emitPair]
  | case4 output unit next rest hpair ih =>
    rw [emitUnits, emitUnits, if_neg hpair, if_neg hpair, ← ih, emitUnit_append, emitUnit_append output, append_assoc]

theorem emitString_append (u : Str) : emitString output u = output ++ emitString [] u := by
  unfold emitString
  rw [emitUnits_append, emitUnits_append ([] ++ [34])]
  simp

end

theorem emitString_chars (u : Str) : ∃ t, emitString [] u = 34 :: (t ++ [34]) ∧ Chars t u ∧ Valid t := by
  obtain ⟨t, ht, hchars, hvalid⟩ := emitUnits_chars [34] u
  refine ⟨t, ?_, hchars, hvalid⟩
  rw [emitString, nil_append, ht]
  rfl

theorem isNumeral_iff : isNumeral t = true ↔ Numeral t := by
  unfold isNumeral
  constructor
  · intro h
    by_cases h0 : t.length = 0
    · rw [if_pos h0] at h
      cases h
    rw [if_neg h0] at h
    cases hscan : scanNumber t 0 with
    | error stop =>
      rw [hscan] at h
      cases h
    | ok finish =>
      rw [hscan] at h
      obtain ⟨s, rest, hd, hn, hfin⟩ := scanNumber_sound hscan
      have hlen : finish = t.length := by simpa using h
      rw [drop_zero] at hd
      have hrest : rest = [] := by
        have := congrArg List.length hd
        rw [length_append] at this
        exact length_eq_zero_iff.mp (by omega)
      rw [hd, hrest, append_nil]
      exact hn
  · intro h
    obtain ⟨b, s, ht, -⟩ := numeral_start h
    have h0 : t.length ≠ 0 := by
      rw [ht]
      simp
    have hd : t.drop 0 = t ++ [] := by simp
    rw [if_neg h0, scanNumber_ok hd h stops_nil]
    simp

/-! ## Values -/

namespace Value

mutual
def numerals : Value → Prop
  | .number t => Numeral t
  | .items values => numeralsItems values
  | .object members => numeralsMembers members
  | _ => True
termination_by structural v => v

def numeralsItems : List Value → Prop
  | [] => True
  | v :: vs => v.numerals ∧ numeralsItems vs
termination_by structural vs => vs

def numeralsMembers : List (Str × Value) → Prop
  | [] => True
  | m :: ms => numeralsMember m ∧ numeralsMembers ms
termination_by structural ms => ms

def numeralsMember : Str × Value → Prop
  | (_, v) => v.numerals
termination_by structural m => m
end

theorem numeralsItems_iff : numeralsItems vs ↔ ∀ v ∈ vs, v.numerals := by
  induction vs with
  | nil => simp [numeralsItems]
  | cons v vs ih => simp [numeralsItems, ih]

theorem numeralsMembers_iff : numeralsMembers ms ↔ ∀ m ∈ ms, m.2.numerals := by
  induction ms with
  | nil => simp [numeralsMembers]
  | cons m ms ih =>
    obtain ⟨key, v⟩ := m
    rw [numeralsMembers, ih, forall_mem_cons, numeralsMember]

end Value

open Tsuzuri.Json.Value

def Writes (n : Nat) (v : Value) (run : List Nat → Exec (List Nat)) : Prop :=
  ∃ t, Denotes n v t ∧ Valid t ∧ ∀ output, run output = .ok (output ++ t)

theorem denotes_leaf (h : Leaf v t) : ∀ n, Denotes n v t
  | 0 => h
  | _ + 1 => .inl h

theorem blank_nil : Blank [] := fun _ h => nomatch h

theorem blank_spaces (count : Nat) : Blank (List.replicate count 32) := by
  intro b hb
  rw [eq_of_mem_replicate hb]
  rfl

theorem blank_newLine (count : Nat) : Blank (10 :: List.replicate count 32) := by
  intro b hb
  rcases mem_cons.mp hb with rfl | hb
  · rfl
  · exact blank_spaces count b hb

theorem Blank.valid (h : Blank ws) : Valid ws :=
  .ascii h.ascii

theorem valid_cons (hb : b < 128) (ht : Valid t) : Valid (b :: t) :=
  (valid_byte hb).append ht

theorem emitValue_leaf (n : Nat) (h : v.numerals) (hleaf : v.depth = 0) :
    Writes n v fun output => emitValue output v := by
  cases v with
  | null => exact ⟨_, denotes_leaf .null n, .ascii (by decide), fun output => rfl⟩
  | bool flag =>
    cases flag with
    | true => exact ⟨_, denotes_leaf .yes n, .ascii (by decide), fun output => rfl⟩
    | false => exact ⟨_, denotes_leaf .no n, .ascii (by decide), fun output => rfl⟩
  | number t =>
    have hn : Numeral t := by simpa [numerals] using h
    refine ⟨t, denotes_leaf (.number hn) n, .ascii (numeral_ascii hn), fun output => ?_⟩
    change emitValue output (.number t) = _
    rw [emitValue, isNumeral_iff.mpr hn]
    rfl
  | text units =>
    obtain ⟨t, ht, hchars, hvalid⟩ := emitString_chars units
    refine ⟨34 :: (t ++ [34]), denotes_leaf (.text hchars) n,
      valid_cons (by decide) (hvalid.append (valid_byte (by decide))), fun output => ?_⟩
    change emitValue output (.text units) = _
    rw [emitValue, emitString_append, ht]
  | items vs => simp [depth] at hleaf
  | object ms => simp [depth] at hleaf

def ItemsRest (n : Nat) (vs : List Value) (s : List Nat) : Prop :=
  ∀ {v before t after}, Blank before → Denotes n v t → Blank after →
    Elements (Denotes n) (v :: vs) (before ++ (t ++ (s ++ after)))

theorem itemsRest_nil (n : Nat) : ItemsRest n [] [] :=
  fun hb hv ha => .last hb hv ha

theorem ItemsRest.cons {w : Value} (hws : Blank ws) (hw : Denotes n w t) (h : ItemsRest n vs s) :
    ItemsRest n (w :: vs) (44 :: (ws ++ (t ++ s))) := by
  intro v before u after hb hv ha
  have := Elements.more hb hv blank_nil (h hws hw ha)
  simpa using this

def IsMember (n : Nat) (m : Str × Value) (t : List Nat) : Prop :=
  ∀ {after}, Blank after → Field (Denotes n) m (t ++ after)

def MembersRest (n : Nat) (ms : List (Str × Value)) (s : List Nat) : Prop :=
  ∀ {m t after}, IsMember n m t → Blank after → Fields (Denotes n) (m :: ms) (t ++ (s ++ after))

theorem membersRest_nil (n : Nat) : MembersRest n [] [] :=
  fun hm ha => .last (hm ha)

theorem MembersRest.cons (hm : IsMember n m t) (h : MembersRest n ms s) : MembersRest n (m :: ms) (44 :: (t ++ s)) := by
  intro m' u after hm' ha
  have := Fields.more (hm' blank_nil) (h hm ha)
  simpa using this

/-! ## The text in one line -/

theorem emitItems_rest : ∀ {vs : List Value}, (∀ v ∈ vs, Writes n v fun output => emitValue output v) →
    ∃ s, ItemsRest n vs s ∧ Valid s ∧ ∀ output index, 0 < index → emitItems output index vs = .ok (output ++ s)
  | [], _ => by
    refine ⟨[], itemsRest_nil n, .nil, fun output index _ => ?_⟩
    rw [emitItems, append_nil]
  | w :: vs, h => by
    obtain ⟨t, hw, ht, hrun⟩ := h w mem_cons_self
    obtain ⟨s, hrest, hs, hmore⟩ := emitItems_rest fun v hv => h v (mem_cons_of_mem _ hv)
    refine ⟨44 :: ([] ++ (t ++ s)), ItemsRest.cons blank_nil hw hrest,
      valid_cons (by decide) (ht.append hs), fun output index hindex => ?_⟩
    have hstep : emitValue (separated output index) w = .ok (output ++ [44] ++ t) := by
      rw [separated, if_pos hindex]
      exact hrun _
    rw [emitItems, hstep]
    change emitItems _ (index + 1) vs = _
    rw [hmore _ _ (Nat.succ_pos index)]
    simp

theorem isMember_spelled {key : Str} {a b c k : List Nat} (ha : Blank a) (hb : Blank b) (hc : Blank c)
    (hk : Chars k key) (hv : Denotes n v t) : IsMember n (key, v) (a ++ 34 :: (k ++ 34 :: (b ++ 58 :: (c ++ t)))) := by
  intro after hafter
  have := Field.field ha hb hc hafter hk hv
  simpa using this

theorem emitMember_writes (h : Writes n m.2 fun output => emitValue output m.2) :
    ∃ t, IsMember n m t ∧ Valid t ∧ ∀ output, emitMember output m = .ok (output ++ t) := by
  obtain ⟨key, v⟩ := m
  obtain ⟨t, hv, ht, hrun⟩ := h
  obtain ⟨k, hk, hchars, hvalid⟩ := emitString_chars key
  refine ⟨_, isMember_spelled blank_nil blank_nil blank_nil hchars hv, ?_, fun output => ?_⟩
  · exact valid_cons (by decide) (hvalid.append (valid_cons (by decide) (valid_cons (by decide) ht)))
  · rw [emitMember, emitString_append, hk]
    refine (hrun _).trans ?_
    simp

theorem emitMembers_rest : ∀ {ms : List (Str × Value)}, (∀ m ∈ ms, Writes n m.2 fun output => emitValue output m.2) →
    ∃ s, MembersRest n ms s ∧ Valid s ∧ ∀ output index, 0 < index → emitMembers output index ms = .ok (output ++ s)
  | [], _ => by
    refine ⟨[], membersRest_nil n, .nil, fun output index _ => ?_⟩
    rw [emitMembers, append_nil]
  | m :: ms, h => by
    obtain ⟨t, hm, ht, hrun⟩ := emitMember_writes (h m mem_cons_self)
    obtain ⟨s, hrest, hs, hmore⟩ := emitMembers_rest fun v hv => h v (mem_cons_of_mem _ hv)
    refine ⟨44 :: (t ++ s), MembersRest.cons hm hrest, valid_cons (by decide) (ht.append hs),
      fun output index hindex => ?_⟩
    rw [emitMembers, separated, if_pos hindex, hrun]
    change emitMembers _ (index + 1) ms = _
    rw [hmore _ _ (Nat.succ_pos index)]
    simp

theorem valid_enclosed {a : Nat} (ha : a < 128) (hb : b < 128) (ht : Valid t) : Valid (a :: (t ++ [b])) :=
  valid_cons ha (ht.append (valid_byte hb))

theorem emitValue_writes : ∀ (n : Nat) (v : Value), v.depth ≤ n → v.numerals →
    Writes n v fun output => emitValue output v := by
  intro n
  induction n with
  | zero =>
    intro v hdepth hnum
    exact emitValue_leaf 0 hnum (by omega)
  | succ n ih =>
    intro v hdepth hnum
    cases v with
    | items vs =>
      have hall : ∀ v ∈ vs, Writes n v fun output => emitValue output v := by
        rw [numerals, numeralsItems_iff] at hnum
        rw [depth] at hdepth
        intro v hv
        have := depthItems_le hv
        exact ih v (by omega) (hnum v hv)
      cases vs with
      | nil =>
        refine ⟨[91, 93], .inr (.noItems blank_nil), .ascii (by decide), fun output => ?_⟩
        change emitValue output (.items []) = _
        rw [emitValue, emitItems]
        change Except.ok (output ++ [91] ++ [93]) = _
        simp
      | cons w vs =>
        obtain ⟨t, hw, ht, hrun⟩ := hall w mem_cons_self
        obtain ⟨s, hrest, hs, hmore⟩ := emitItems_rest fun v hv => hall v (mem_cons_of_mem _ hv)
        refine ⟨_, .inr (.items (hrest blank_nil hw blank_nil)),
          valid_enclosed (by decide) (by decide) (Valid.nil.append (ht.append (hs.append .nil))),
          fun output => ?_⟩
        change emitValue output (.items (w :: vs)) = _
        have hfirst : emitItems (output ++ [91]) 0 (w :: vs) = .ok (output ++ [91] ++ t ++ s) := by
          rw [emitItems, show separated (output ++ [91]) 0 = output ++ [91] from rfl]
          rw [show emitValue (output ++ [91]) w = .ok (output ++ [91] ++ t) from hrun _]
          exact hmore _ _ (by decide)
        rw [emitValue, hfirst]
        change Except.ok _ = _
        simp
    | object ms =>
      have hall : ∀ m ∈ ms, Writes n m.2 fun output => emitValue output m.2 := by
        rw [numerals, numeralsMembers_iff] at hnum
        rw [depth] at hdepth
        intro m hm
        have := depthMembers_le hm
        exact ih m.2 (by omega) (hnum m hm)
      cases ms with
      | nil =>
        refine ⟨[123, 125], .inr (.noMembers blank_nil), .ascii (by decide), fun output => ?_⟩
        change emitValue output (.object []) = _
        rw [emitValue, emitMembers]
        change Except.ok (output ++ [123] ++ [125]) = _
        simp
      | cons m ms =>
        obtain ⟨t, hm, ht, hrun⟩ := emitMember_writes (hall m mem_cons_self)
        obtain ⟨s, hrest, hs, hmore⟩ :=
          emitMembers_rest fun v hv => hall v (mem_cons_of_mem _ hv)
        refine ⟨_, .inr (.members (hrest hm blank_nil)),
          valid_enclosed (by decide) (by decide) (ht.append (hs.append .nil)), fun output => ?_⟩
        change emitValue output (.object (m :: ms)) = _
        have hfirst : emitMembers (output ++ [123]) 0 (m :: ms) = .ok (output ++ [123] ++ t ++ s) := by
          rw [emitMembers, show separated (output ++ [123]) 0 = output ++ [123] from rfl, hrun]
          exact hmore _ _ (by decide)
        rw [emitValue, hfirst]
        change Except.ok _ = _
        simp
    | null | bool flag | number t | text units => exact emitValue_leaf _ hnum (by simp [depth])

/-! ## The indented text -/

theorem newLine_eq (output : List Nat) (indent level : Nat) :
    newLine output indent level = output ++ 10 :: List.replicate (indent * level) 32 := by
  simp [newLine, pushSpaces]

theorem prettyItems_rest (level : Nat) : ∀ {vs : List Value},
    (∀ v ∈ vs, ∀ level, Writes n v fun output => emitPretty indent level output v) →
    ∃ s, ItemsRest n vs s ∧ Valid s ∧ ∀ output, prettyItems indent level output vs = .ok (output ++ s)
  | [], _ => by
    refine ⟨[], itemsRest_nil n, .nil, fun output => ?_⟩
    rw [prettyItems, append_nil]
  | w :: vs, h => by
    obtain ⟨t, hw, ht, hrun⟩ := h w mem_cons_self (level + 1)
    obtain ⟨s, hrest, hs, hmore⟩ := prettyItems_rest level fun v hv => h v (mem_cons_of_mem _ hv)
    have hline := blank_newLine (indent * (level + 1))
    refine ⟨_, ItemsRest.cons hline hw hrest,
      valid_cons (by decide) (hline.valid.append (ht.append hs)), fun output => ?_⟩
    rw [prettyItems, newLine_eq, show emitPretty indent (level + 1) _ w = _ from hrun _]
    change prettyItems indent level _ vs = _
    rw [hmore]
    simp

theorem prettyMember_writes (level : Nat) (h : ∀ level, Writes n m.2 fun output => emitPretty indent level output m.2) :
    ∃ t, IsMember n m t ∧ Valid t ∧ ∀ output, prettyMember indent level output m = .ok (output ++ t) := by
  obtain ⟨key, v⟩ := m
  obtain ⟨t, hv, ht, hrun⟩ := h (level + 1)
  obtain ⟨k, hk, hchars, hvalid⟩ := emitString_chars key
  have hline := blank_newLine (indent * (level + 1))
  refine ⟨_, isMember_spelled hline blank_nil (blank_spaces 1) hchars hv, ?_, fun output => ?_⟩
  · exact hline.valid.append (valid_cons (by decide) (hvalid.append (valid_cons (by decide)
      (valid_cons (by decide) ((blank_spaces 1).valid.append ht)))))
  · rw [prettyMember, emitString_append, hk, newLine_eq]
    refine (hrun _).trans ?_
    simp

theorem prettyMembers_rest (level : Nat) : ∀ {ms : List (Str × Value)},
    (∀ m ∈ ms, ∀ level, Writes n m.2 fun output => emitPretty indent level output m.2) →
    ∃ s, MembersRest n ms s ∧ Valid s ∧ ∀ output, prettyMembers indent level output ms = .ok (output ++ s)
  | [], _ => by
    refine ⟨[], membersRest_nil n, .nil, fun output => ?_⟩
    rw [prettyMembers, append_nil]
  | m :: ms, h => by
    obtain ⟨t, hm, ht, hrun⟩ := prettyMember_writes level (h m mem_cons_self)
    obtain ⟨s, hrest, hs, hmore⟩ := prettyMembers_rest level fun v hv => h v (mem_cons_of_mem _ hv)
    refine ⟨44 :: (t ++ s), MembersRest.cons hm hrest, valid_cons (by decide) (ht.append hs), fun output => ?_⟩
    rw [prettyMembers, hrun]
    change prettyMembers indent level _ ms = _
    rw [hmore]
    simp

theorem emitPretty_writes (indent : Nat) : ∀ (n : Nat) (v : Value), v.depth ≤ n → v.numerals →
    ∀ level, Writes n v fun output => emitPretty indent level output v := by
  intro n
  induction n with
  | zero =>
    intro v hdepth hnum level
    have := emitValue_leaf 0 hnum (by omega)
    cases v with
    | items vs | object ms => simp [depth] at hdepth
    | null | bool flag | number t | text units => simpa only [emitPretty] using this
  | succ n ih =>
    intro v hdepth hnum level
    cases v with
    | items vs =>
      have hall : ∀ v ∈ vs, ∀ level, Writes n v fun output => emitPretty indent level output v := by
        rw [numerals, numeralsItems_iff] at hnum
        rw [depth] at hdepth
        intro v hv
        have := depthItems_le hv
        exact ih v (by omega) (hnum v hv)
      cases vs with
      | nil =>
        refine ⟨[91, 93], .inr (.noItems blank_nil), .ascii (by decide), fun output => ?_⟩
        simp only [emitPretty]
      | cons w vs =>
        obtain ⟨t, hw, ht, hrun⟩ := hall w mem_cons_self (level + 1)
        obtain ⟨s, hrest, hs, hmore⟩ :=
          prettyItems_rest level fun v hv => hall v (mem_cons_of_mem _ hv)
        have hopen := blank_newLine (indent * (level + 1))
        have hclose := blank_newLine (indent * level)
        refine ⟨_, .inr (.items (hrest hopen hw hclose)), valid_enclosed (by decide) (by decide)
            (hopen.valid.append (ht.append (hs.append hclose.valid))), fun output => ?_⟩
        change emitPretty indent level output (.items (w :: vs)) = _
        rw [emitPretty, newLine_eq, show emitPretty indent (level + 1) _ w = _ from hrun _]
        change (prettyItems indent level _ vs >>= fun bytes => _) = _
        rw [hmore]
        change Except.ok (newLine _ indent level ++ [93]) = _
        rw [newLine_eq]
        simp
    | object ms =>
      have hall : ∀ m ∈ ms, ∀ level, Writes n m.2 fun output => emitPretty indent level output m.2 := by
        rw [numerals, numeralsMembers_iff] at hnum
        rw [depth] at hdepth
        intro m hm
        have := depthMembers_le hm
        exact ih m.2 (by omega) (hnum m hm)
      cases ms with
      | nil =>
        refine ⟨[123, 125], .inr (.noMembers blank_nil), .ascii (by decide), fun output => ?_⟩
        simp only [emitPretty]
      | cons m ms =>
        obtain ⟨t, hm, ht, hrun⟩ := prettyMember_writes level (hall m mem_cons_self)
        obtain ⟨s, hrest, hs, hmore⟩ :=
          prettyMembers_rest level fun v hv => hall v (mem_cons_of_mem _ hv)
        have hclose := blank_newLine (indent * level)
        refine ⟨_, .inr (.members (hrest hm hclose)),
          valid_enclosed (by decide) (by decide) (ht.append (hs.append hclose.valid)),
          fun output => ?_⟩
        change emitPretty indent level output (.object (m :: ms)) = _
        rw [emitPretty, hrun]
        change (prettyMembers indent level _ ms >>= fun bytes => _) = _
        rw [hmore]
        change Except.ok (newLine _ indent level ++ [125]) = _
        rw [newLine_eq]
        simp
    | null => simpa only [emitPretty] using emitValue_leaf (n + 1) hnum (by simp [depth])
    | bool flag => simpa only [emitPretty] using emitValue_leaf (n + 1) hnum (by simp [depth])
    | number t => simpa only [emitPretty] using emitValue_leaf (n + 1) hnum (by simp [depth])
    | text units => simpa only [emitPretty] using emitValue_leaf (n + 1) hnum (by simp [depth])

theorem toUtf8String_denotes (h : v.numerals) : ∃ text, toUtf8String v = .ok text ∧ Denotes v.depth v text.bytes := by
  obtain ⟨t, hden, hvalid, hrun⟩ := emitValue_writes v.depth v le_rfl h
  refine ⟨{ bytes := t, valid := hvalid }, ?_, hden⟩
  rw [toUtf8String, show emitValue [] v = _ from hrun []]
  exact dif_pos hvalid

theorem toUtf8StringPretty_denotes (indent : Int) (h : v.numerals) :
    ∃ text, toUtf8StringPretty indent v = .ok text ∧ Denotes v.depth v text.bytes := by
  unfold toUtf8StringPretty
  simp only
  generalize (if 10 < indent then (10 : Int) else indent) = width
  by_cases hwidth : width < 1
  · rw [if_pos hwidth]
    exact toUtf8String_denotes h
  · rw [if_neg hwidth]
    obtain ⟨t, hden, hvalid, hrun⟩ := emitPretty_writes width.toNat v.depth v le_rfl h 0
    refine ⟨{ bytes := t, valid := hvalid }, ?_, hden⟩
    rw [show emitPretty width.toNat 0 [] v = _ from hrun []]
    exact dif_pos hvalid

theorem jsonText_of_denotes (h : Denotes n v t) : JsonText v t :=
  ⟨n, [], t, [], by simp, blank_nil, h, blank_nil⟩

/-- A value whose numbers are numerals, whose objects have distinct keys and whose nesting is at
most 128 has a text, in one line and with any indentation, that `parse` reads back as the value
when it is at most 64 MiB long. -/
theorem parse_written {v : Value} (hnum : v.numerals) (hdist : v.distinct) (hdepth : v.depth ≤ 128) :
    (∃ text, toUtf8String v = .ok text ∧ (text.bytes.length ≤ maxLength → parse text = .ok v)) ∧
      ∀ indent, ∃ text, toUtf8StringPretty indent v = .ok text ∧
        (text.bytes.length ≤ maxLength → parse text = .ok v) := by
  constructor
  · obtain ⟨text, hrun, hden⟩ := toUtf8String_denotes hnum
    exact ⟨text, hrun, fun hsize =>
      (parse_iff text v).mpr ⟨hsize, jsonText_of_denotes hden, hdepth, hdist⟩⟩
  · intro indent
    obtain ⟨text, hrun, hden⟩ := toUtf8StringPretty_denotes indent hnum
    exact ⟨text, hrun, fun hsize =>
      (parse_iff text v).mpr ⟨hsize, jsonText_of_denotes hden, hdepth, hdist⟩⟩

def written : Value :=
  .object [([97], .items [.number [45, 49], .text [0xD800, 10]]), ([98], .items [])]

theorem parse_written_object : (∃ text, toUtf8String written = .ok text ∧
        (text.bytes.length ≤ maxLength → parse text = .ok written)) ∧
      ∀ indent, ∃ text, toUtf8StringPretty indent written = .ok text ∧
        (text.bytes.length ≤ maxLength → parse text = .ok written) := by
  refine parse_written ?_ ?_ ?_
  · have hone : Numeral [45, 49] := isNumeral_iff.mp (by decide)
    simp [written, numerals, numeralsMembers, numeralsMember, numeralsItems, hone]
  · simp [written, distinct, distinctMembers, distinctMember, distinctItems]
  · decide

end Tsuzuri.Json
