import Tsuzuri.JsonReaderSound

/-!
# The text of a token, compared in place (`std/Json.tz`)

`token_matches` decodes a token only when it has an escape, and else walks its bytes beside the expected string.
-/

namespace Tsuzuri.Json

open FaultVec Unicode List

/-- `unit < expected.length && expected[unit] == code` -/
def unitIs (expected : Str) (unit code : Nat) : Bool :=
  match expected[unit]? with
  | some found => found.toNat == code
  | none => false

/-- A turn of the loop: whether the units are the same, and the next unit and offset. -/
def compareAt (expected : Str) (text : List Nat) (unit index byte : Nat) : Parse (Bool × Nat × Nat) :=
  if byte < 128 then .ok (unitIs expected unit byte, unit + 1, index + 1)
  else if byte < 224 then do
    let second ← byteAt text (index + 1)
    let point := (byte &&& 31) <<< 6 ||| (second &&& 63)
    .ok (unitIs expected unit point, unit + 1, index + 2)
  else if byte < 240 then do
    let second ← byteAt text (index + 1)
    let third ← byteAt text (index + 2)
    let point := (byte &&& 15) <<< 12 ||| (second &&& 63) <<< 6 ||| (third &&& 63)
    .ok (unitIs expected unit point, unit + 1, index + 3)
  else do
    let second ← byteAt text (index + 1)
    let third ← byteAt text (index + 2)
    let fourth ← byteAt text (index + 3)
    let point :=
      (byte &&& 7) <<< 18 ||| (second &&& 63) <<< 12 ||| (third &&& 63) <<< 6 ||| (fourth &&& 63)
    let above := point - 65536
    .ok (unitIs expected unit (55296 + (above >>> 10)) && unitIs expected (unit + 1) (56320 + (above &&& 1023)),
      unit + 2, index + 4)

/-- The loop of `token_matches`, and the test behind it. -/
def matchesFrom (expected : Str) (text : List Nat) (finish : Nat) : Nat → Bool → Nat → Nat → Parse Bool
  | 0, _, _, _ => .error (.trap .diverged)
  | fuel + 1, same, unit, index =>
    if same = true ∧ index < finish then do
      let byte ← byteAt text index
      let (same, unit, index) ← compareAt expected text unit index byte
      matchesFrom expected text finish fuel same unit index
    else .ok (same && unit == expected.length && index == finish)

def tokenMatches (expected : Str) (text : List Nat) (token : Lexeme) : Parse Bool :=
  if token.escaped = true ∨ token.start < 1 ∨ text.length ≤ token.finish ∨ token.finish < token.start then
    match tokenText text token with
    | .ok value => .ok (value == expected)
    | .error (.failure _) => .ok false
    | .error (.trap fault) => .error (.trap fault)
  else matchesFrom expected text token.finish (text.length + 1) true 0 token.start

variable {expected : Str} {unit byte : Nat} {text : List Nat} {r : Reader}

theorem unitIs_iff {code : Nat} (h : code < 65536) :
    unitIs expected unit code = true ↔ ∃ rest, expected.drop unit = UInt16.ofNat code :: rest := by
  unfold unitIs
  constructor
  · cases hget : expected[unit]? with
    | none => simp
    | some found =>
      intro heq
      obtain ⟨hlt, rfl⟩ := List.getElem?_eq_some_iff.mp hget
      refine ⟨expected.drop (unit + 1), ?_⟩
      rw [drop_eq_getElem_cons hlt, ← eq_of_beq heq, UInt16.ofNat_toNat]
  · rintro ⟨rest, hdrop⟩
    rw [← head?_drop, hdrop]
    simp [Nat.mod_eq_of_lt h]

theorem unitIs_pair {a b : Nat} (ha : a < 65536) (hb : b < 65536) :
    (unitIs expected unit a && unitIs expected (unit + 1) b) = true ↔
      ∃ rest, expected.drop unit = UInt16.ofNat a :: UInt16.ofNat b :: rest := by
  rw [Bool.and_eq_true, unitIs_iff ha, unitIs_iff hb, ← drop_drop]
  constructor
  · rintro ⟨⟨rest, hfirst⟩, rest', hsecond⟩
    rw [hfirst] at hsecond
    exact ⟨rest', by rw [hfirst, ← hsecond]; rfl⟩
  · rintro ⟨rest, hdrop⟩
    exact ⟨⟨_, hdrop⟩, rest, by rw [hdrop]; rfl⟩

theorem compareAt_ok {index next : Nat} {units : Str} (expected : Str) (unit : Nat)
    (h : characterAt text index byte = .ok (units, next)) :
    ∃ same, compareAt expected text unit index byte = .ok (same, unit + units.length, next) ∧
      (same = true ↔ ∃ rest, expected.drop unit = units ++ rest) := by
  unfold characterAt at h
  unfold compareAt
  by_cases h1 : byte < 128
  · rw [if_pos h1] at h ⊢
    cases h
    exact ⟨_, rfl, unitIs_iff (by omega)⟩
  rw [if_neg h1] at h ⊢
  by_cases h2 : byte < 224
  · rw [if_pos h2] at h ⊢
    obtain ⟨second, hsecond, h⟩ := then_ok h
    cases h
    rw [hsecond]
    exact ⟨_, rfl, unitIs_iff (by rw [two_bytes]; omega)⟩
  rw [if_neg h2] at h ⊢
  by_cases h3 : byte < 240
  · rw [if_pos h3] at h ⊢
    obtain ⟨second, hsecond, h⟩ := then_ok h
    obtain ⟨third, hthird, h⟩ := then_ok h
    cases h
    rw [hsecond, hthird]
    exact ⟨_, rfl, unitIs_iff (by rw [three_bytes]; omega)⟩
  rw [if_neg h3] at h ⊢
  obtain ⟨second, hsecond, h⟩ := then_ok h
  obtain ⟨third, hthird, h⟩ := then_ok h
  obtain ⟨fourth, hfourth, h⟩ := then_ok h
  cases h
  rw [hsecond, hthird, hfourth]
  refine ⟨_, rfl, unitIs_pair ?_ ?_⟩
  · -- a point of 21 bits: at most 2047 behind the start of the high surrogates
    rw [four_bytes, shift_right _ 10]
    omega
  · rw [mask10]
    omega

theorem matchesFrom_chars {t : List Nat} {u : Str} (ht : Chars t u) (hplain : 92 ∉ t) :
    ∀ {text rest : List Nat} {finish unit i : Nat} (fuel : Nat), text.drop i = t ++ 34 :: rest →
      finish = i + t.length → t.length < fuel → unit ≤ expected.length →
      matchesFrom expected text finish fuel true unit i = .ok (decide (expected.drop unit = u)) := by
  induction ht with
  | nil =>
    intro text rest finish unit i fuel h hfinish hfuel hunit
    obtain ⟨fuel, rfl⟩ : ∃ f, fuel = f + 1 := ⟨fuel - 1, by omega⟩
    rw [matchesFrom, if_neg (by simp [hfinish])]
    have hend : (unit == expected.length) = decide (expected.drop unit = []) := by
      rw [Bool.beq_eq_decide_eq]
      exact decide_eq_decide.mpr (by rw [drop_eq_nil_iff]; omega)
    simp [hfinish, hend]
  | @unescaped c t u hc hlow hquote hslash _ ih =>
    intro text rest finish unit i fuel h hfinish hfuel hunit
    obtain ⟨fuel, rfl⟩ : ∃ f, fuel = f + 1 := ⟨fuel - 1, by omega⟩
    rw [append_assoc] at h
    obtain ⟨b, s, hb, -, -, hrun⟩ := characterAt_ok hc h
    obtain ⟨same, hstep, hsame⟩ := compareAt_ok expected unit hrun
    have hpos := length_pos_iff.mpr (encode8_ne_nil c)
    rw [length_append] at hfinish hfuel
    rw [matchesFrom, if_pos ⟨rfl, by omega⟩, byteAt_ok hb, ok_then, hstep, ok_then]
    simp only
    cases same with
    | true =>
      obtain ⟨tail, hdrop⟩ := hsame.mp rfl
      have hlen := congrArg List.length hdrop
      rw [length_drop, length_append] at hlen
      rw [ih (fun hmem => hplain (mem_append_right _ hmem)) fuel (drop_add h) (by omega) (by omega) (by omega)]
      refine congrArg Except.ok (decide_eq_decide.mpr ?_)
      rw [← drop_drop, hdrop, drop_left, append_cancel_left_eq]
    | false =>
      have hne : expected.drop unit ≠ encode16 c ++ u := fun heq => by
        cases hsame.mpr ⟨u, heq⟩
      cases fuel with
      | zero => omega
      | succ fuel =>
        rw [matchesFrom, if_neg (by simp), decide_eq_false hne]
        rfl
  | escaped | unicode => exact absurd mem_cons_self hplain

theorem scanFrom_plain : ∀ (fuel : Nat) {escaped : Bool} {i j : Nat}, scanFrom text fuel escaped i = .ok (false, j) →
      escaped = false ∧ i ≤ j ∧ ∀ k, i ≤ k → k < j → text[k]? ≠ some 92
  | 0, _, _, _, h => by cases h
  | fuel + 1, escaped, i, j, h => by
    rw [scanFrom] at h
    split at h
    · cases h
    · rename_i byte hget
      split at h
      · cases h
        exact ⟨rfl, le_rfl, fun k hk hkj => by omega⟩
      · split at h
        · obtain ⟨next, -, h⟩ := then_ok h
          cases (scanFrom_plain fuel h).1
        · rename_i h92
          split at h
          · cases h
          · obtain ⟨hescaped, hij, hrest⟩ := scanFrom_plain fuel h
            refine ⟨hescaped, by omega, fun k hk hkj => ?_⟩
            rcases Nat.eq_or_lt_of_le hk with rfl | hk
            · rw [hget]
              exact fun heq => h92 (Option.some.inj heq)
            · exact hrest k hk hkj

/-! ## Where a token comes from -/

def Scanned (text : List Nat) (event : Event) : Prop :=
  ∀ token, event = .keyToken token ∨ event = .textToken token →
    ∃ i after, text[i]? = some 34 ∧ scanString text i = .ok (token, after)

theorem readerFailure_ne {α : Type} {error : Error} {a : α} : readerFailure text r error ≠ .ok a := fun h => by
  obtain ⟨best, -, h⟩ := then_ok h
  cases h

theorem orFailure_ok {α β : Type} {scan : Parse α} {use : α → Parse β} {b : β}
    (h : r.orFailure text scan use = .ok b) : ∃ a, scan = .ok a ∧ use a = .ok b := by
  unfold Reader.orFailure at h
  split at h
  · exact ⟨_, rfl, h⟩
  · exact absurd h readerFailure_ne
  · cases h

variable {text : List Nat} {r r' : Reader} {event : Event} {index : Nat} {object : Bool}

theorem scanned_open (h : r.openContainer text index object = .ok (event, r')) : Scanned text event := by
  unfold Reader.openContainer at h
  split at h
  · exact absurd h readerFailure_ne
  · cases h
    intro token htoken
    cases object <;> simp at htoken

theorem scanned_close (h : r.closeContainer text index object = .ok (event, r')) : Scanned text event := by
  unfold Reader.closeContainer at h
  intro token htoken
  cases object with
  | true =>
    obtain ⟨first, -, h⟩ := then_ok h
    obtain ⟨repeated, -, h⟩ := then_ok h
    cases repeated with
    | some error => exact absurd h readerFailure_ne
    | none =>
      cases h
      simp at htoken
  | false =>
    cases h
    simp at htoken

theorem scanned_literal (h : r.readLiteral text index byte = .ok (event, r')) :
    Scanned text event := by
  unfold Reader.readLiteral at h
  intro token htoken
  split at h
  · obtain ⟨p, -, h⟩ := orFailure_ok h
    cases h
    simp at htoken
  split at h
  · obtain ⟨p, -, h⟩ := orFailure_ok h
    cases h
    simp at htoken
  split at h
  · obtain ⟨p, -, h⟩ := orFailure_ok h
    cases h
    simp at htoken
  · exact absurd h readerFailure_ne

theorem scanned_value (h : r.readValue text index = .ok (event, r')) : Scanned text event := by
  unfold Reader.readValue at h
  split at h
  · exact absurd h readerFailure_ne
  rename_i byte hget
  split at h
  · exact scanned_open h
  split at h
  · exact scanned_open h
  split at h
  · rename_i hquote
    obtain ⟨⟨token, next⟩, hscan, h⟩ := orFailure_ok h
    cases h
    intro token' htoken
    obtain rfl : token = token' := by simpa using htoken
    exact ⟨index, next, hquote ▸ hget, hscan⟩
  split at h
  · obtain ⟨finish, -, h⟩ := orFailure_ok h
    cases h
    intro token htoken
    simp at htoken
  · exact scanned_literal h

theorem scanned_key (h : r.readKey text index = .ok (event, r')) : Scanned text event := by
  unfold Reader.readKey at h
  split at h
  · exact absurd h readerFailure_ne
  rename_i byte hget
  split at h
  · exact absurd h readerFailure_ne
  rename_i hquote
  obtain ⟨⟨token, after⟩, hscan, h⟩ := orFailure_ok h
  simp only at h
  split at h
  · exact absurd h readerFailure_ne
  split at h
  · exact absurd h readerFailure_ne
  cases h
  intro token' htoken
  obtain rfl : token = token' := by simpa using htoken
  exact ⟨index, after, by rw [hget, not_not.mp hquote], hscan⟩

theorem scanned_after (h : r.afterItem text index object = .ok (event, r')) : Scanned text event := by
  unfold Reader.afterItem at h
  split at h
  · exact absurd h readerFailure_ne
  split at h
  · simp only at h
    split at h
    · exact scanned_key h
    · exact scanned_value h
  split at h
  · exact scanned_close h
  split at h
  · exact scanned_close h
  · exact absurd h readerFailure_ne

theorem scanned_next (h : r.next text = .ok (event, r')) : Scanned text event := by
  unfold Reader.next at h
  simp only at h
  split at h
  · split at h
    · cases h
    · cases h
      intro token htoken
      simp at htoken
  split at h
  · split at h
    · exact scanned_after h
    · cases h
  split at h
  · split at h
    · exact scanned_close h
    · exact scanned_key h
  split at h
  · split at h
    · exact scanned_close h
    · exact scanned_value h
  · exact scanned_value h

/-! ## The comparison is the decoding -/

theorem valid_at {bytes : List Nat} (hv : Valid bytes) : ∀ {i b : Nat}, bytes[i]? = some b → b < 128 →
    Valid (bytes.drop i) := by
  induction hv with
  | nil => exact fun hget _ => by simp at hget
  | @cons c rest hc hrest ih =>
    intro i b hget hb
    by_cases hi : i < (encode8 c).length
    · rw [getElem?_append_left hi] at hget
      have hmem := mem_of_getElem? hget
      have hlow : c < 128 := by
        by_contra hhigh
        have := encode8_high (by omega) b hmem
        omega
      rw [encode8_ascii hlow, length_singleton] at hi
      obtain rfl : i = 0 := by omega
      exact .cons hc hrest
    · rw [getElem?_append_right (by omega)] at hget
      have hdrop := ih hget hb
      rwa [drop_append, drop_eq_nil_of_le (by omega), nil_append]

theorem tokenMatches_scanned {token : Lexeme} {after i : Nat} (expected : Str) (hv : Valid text)
    (hq : text[i]? = some 34) (hscan : scanString text i = .ok (token, after)) :
    ∃ s, tokenText text token = .ok s ∧ tokenMatches expected text token = .ok (decide (expected = s)) := by
  have hvi := valid_at hv hq (by decide)
  rcases scanString_agrees hq hvi with ⟨s, j, e, hij, hparse, hstring⟩ | ⟨e, -, -, hstring⟩
  · obtain ⟨rfl, rfl⟩ := Prod.mk.inj (Except.ok.inj (hstring.symm.trans hscan))
    obtain ⟨hj, -⟩ := parseString_end hq hvi hparse
    have htext := tokenText_ok (e := e) hq hij hj hparse
    refine ⟨s, htext, ?_⟩
    unfold tokenMatches
    cases e with
    | true =>
      rw [if_pos (.inl rfl), htext]
      refine congrArg Except.ok ?_
      rw [Bool.beq_eq_decide_eq]
      exact decide_eq_decide.mpr eq_comm
    | false =>
      obtain ⟨t, hdrop, hchars, hjt, -⟩ := parseString_sound hq hvi hparse
      have hlen := congrArg List.length hdrop
      rw [length_drop] at hlen
      simp only [length_cons, length_append] at hlen
      obtain ⟨⟨escaped, finish⟩, hfrom, hlexeme⟩ := then_ok hstring
      obtain ⟨hlexeme, -⟩ := Prod.mk.inj (Except.ok.inj hlexeme)
      obtain ⟨-, rfl, rfl⟩ := Lexeme.mk.inj hlexeme
      have hplain : 92 ∉ t := by
        intro hmem
        obtain ⟨k, hk, hget⟩ := getElem_of_mem hmem
        refine (scanFrom_plain _ hfrom).2.2 (i + 1 + k) (by omega) (by omega) ?_
        rw [← getElem?_drop, drop_succ hdrop, getElem?_append_left hk, getElem?_eq_getElem hk, hget]
      have hfinish : finish = i + 1 + t.length := by omega
      have hinside : ¬(false = true ∨ i + 1 < 1 ∨ text.length ≤ finish ∨ finish < i + 1) := by
        simp only [Bool.false_eq_true, false_or]
        omega
      rw [if_neg hinside, matchesFrom_chars hchars hplain _ (drop_succ hdrop) hfinish (by omega)
        (Nat.zero_le _), drop_zero]
  · rw [hstring] at hscan
    cases hscan

/-- Whether a token matches is decided without an error, and is whether its text is the expected one. -/
theorem tokenMatches_iff (text : Text) {r r' : Reader} {event : Event} {token : Lexeme} (expected : Str)
    (hnext : r.next text.bytes = .ok (event, r')) (htoken : event = .keyToken token ∨ event = .textToken token) :
    ∃ same, tokenMatches expected text.bytes token = .ok same ∧
      (same = true ↔ tokenText text.bytes token = .ok expected) := by
  obtain ⟨i, after, hq, hscan⟩ := scanned_next hnext token htoken
  obtain ⟨s, htext, hmatches⟩ := tokenMatches_scanned expected text.valid hq hscan
  refine ⟨_, hmatches, ?_⟩
  rw [htext, decide_eq_true_iff, Except.ok.injEq, eq_comm]

/-- `"é"`, read as the whole input. -/
theorem tokenMatches_quoted : tokenMatches [233] [34, 195, 169, 34] ⟨1, 3, false⟩ = .ok true ∧
      tokenText [34, 195, 169, 34] ⟨1, 3, false⟩ = .ok [233] := by
  have htext : tokenText [34, 195, 169, 34] ⟨1, 3, false⟩ = .ok [233] := rfl
  have hnext : Reader.next [34, 195, 169, 34] ⟨0, [], [], [], 0⟩ =
      .ok (.textToken ⟨1, 3, false⟩, ⟨4, [], [], [], 7⟩) := rfl
  obtain ⟨same, hmatches, hsame⟩ := tokenMatches_iff ⟨[34, 195, 169, 34], by decide⟩ [233] hnext (.inr rfl)
  exact ⟨by rw [hmatches, hsame.mpr htext], htext⟩

end Tsuzuri.Json
