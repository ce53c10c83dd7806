import Tsuzuri.JsonReader
import Tsuzuri.JsonEmitSound

/-!
# The scanners of the pull parser

`scan_string` goes on by bytes and accepts what `parse_string` accepts.
-/

namespace Tsuzuri.Json

open FaultVec Unicode

variable {text rest : List Nat} {i j : Nat}

theorem hexEnd_eq (text : List Nat) (count unit digit : Nat) :
    (hexDigits text count unit digit).2 = hexEnd text count digit := by
  induction count generalizing unit digit with
  | zero => rfl
  | succ count ih =>
    rw [hexDigits, hexEnd]
    cases text[digit]?.bind hexValue with
    | none => rfl
    | some value => exact ih _ _

theorem hexEnd_ge (text : List Nat) (count digit : Nat) : digit ≤ hexEnd text count digit := by
  induction count generalizing digit with
  | zero => exact le_rfl
  | succ count ih =>
    rw [hexEnd]
    split
    · have := ih (digit + 1)
      omega
    · exact le_rfl

theorem escapeEnd_eq (text : List Nat) (i : Nat) : escapeEnd text i = (escapeAt text i >>= fun p => .ok p.2) := by
  unfold escapeEnd escapeAt
  cases text[i + 1]? with
  | none => rfl
  | some byte =>
    simp only
    by_cases hu : byte = 117
    · rw [if_pos hu, if_pos hu, ← hexEnd_eq text 4 0 (i + 2)]
      by_cases h6 : (hexDigits text 4 0 (i + 2)).2 = i + 6
      · rw [if_pos h6, if_pos h6]
        rfl
      · rw [if_neg h6, if_neg h6]
        by_cases hend : text.length ≤ (hexDigits text 4 0 (i + 2)).2
        · rw [if_pos hend, if_pos hend]
          rfl
        · rw [if_neg hend, if_neg hend]
          rfl
    · rw [if_neg hu, if_neg hu]
      cases escapeUnit byte with
      | none => rfl
      | some unit => rfl

variable {stop : Stop} {bad : Nat}

theorem escapeAt_error (hi : i < text.length) (h : escapeAt text i = .error stop) :
    ∃ e, stop = .failure e ∧ i ≤ e.offset := by
  unfold escapeAt at h
  cases hget : text[i + 1]? with
  | none =>
    rw [hget] at h
    exact ⟨_, (Except.error.inj h).symm, Nat.le_of_lt hi⟩
  | some byte =>
    rw [hget] at h
    simp only at h
    by_cases hu : byte = 117
    · rw [if_pos hu] at h
      have hge := hexEnd_ge text 4 (i + 2)
      rw [← hexEnd_eq text 4 0 (i + 2)] at hge
      by_cases h6 : (hexDigits text 4 0 (i + 2)).2 = i + 6
      · rw [if_pos h6] at h
        cases h
      · rw [if_neg h6] at h
        by_cases hend : text.length ≤ (hexDigits text 4 0 (i + 2)).2
        · rw [if_pos hend] at h
          exact ⟨_, (Except.error.inj h).symm, Nat.le_of_lt hi⟩
        · rw [if_neg hend] at h
          refine ⟨_, (Except.error.inj h).symm, ?_⟩
          simp only
          omega
    · rw [if_neg hu] at h
      cases hunit : escapeUnit byte with
      | some unit =>
        rw [hunit] at h
        cases h
      | none =>
        rw [hunit] at h
        exact ⟨_, (Except.error.inj h).symm, Nat.le_succ i⟩

/-! ## Strings -/

def Plain (b : Nat) : Prop := 32 ≤ b ∧ b ≠ 34 ∧ b ≠ 92

theorem scanFrom_skip : ∀ {xs : List Nat} {i : Nat} (fuel : Nat) (escaped : Bool), (∀ x ∈ xs, Plain x) →
    text.drop i = xs ++ rest →
    scanFrom text (fuel + xs.length) escaped i = scanFrom text fuel escaped (i + xs.length)
  | [], _, _, _, _, _ => rfl
  | x :: xs, i, fuel, escaped, hxs, h => by
    obtain ⟨⟨h32, h34, h92⟩, hxs⟩ := List.forall_mem_cons.mp hxs
    rw [List.length_cons, ← Nat.add_assoc, scanFrom, get_of_drop h]
    simp only
    rw [if_neg h34, if_neg h92, if_neg (by omega), scanFrom_skip fuel escaped hxs (drop_succ h)]
    congr 1
    omega

theorem encode8_plain {c : Nat} (h32 : 32 ≤ c) (h34 : c ≠ 34) (h92 : c ≠ 92) : ∀ x ∈ encode8 c, Plain x := by
  intro x hx
  by_cases h128 : c < 128
  · rw [encode8_ascii h128, List.mem_singleton] at hx
    exact ⟨by omega, by omega, by omega⟩
  · have := encode8_high (by omega) x hx
    exact ⟨by omega, by omega, by omega⟩

theorem le_of_drop {t : List Nat} (hi : i ≤ text.length) (h : text.drop i = t ++ rest) :
    i + t.length ≤ text.length := by
  have := congrArg List.length h
  rw [List.length_drop, List.length_append] at this
  omega

theorem scanFrom_agrees : ∀ (fuel : Nat) {i scans : Nat} (units : Str) (escaped : Bool),
    Valid (text.drop i) → i ≤ text.length → text.length - i < fuel → text.length - i < scans →
    (∃ s j e, i ≤ j ∧ stringFrom text fuel units i = .ok (s, j + 1) ∧ scanFrom text scans escaped i = .ok (e, j)) ∨
      ∃ e, i ≤ e.offset ∧ stringFrom text fuel units i = .error (.failure e) ∧
        scanFrom text scans escaped i = .error (.failure e)
  | 0, _, _, _, _, _, _, hfuel, _ => by omega
  | fuel + 1, i, scans, units, escaped, hv, hi, hfuel, hscans => by
    obtain ⟨scans, rfl⟩ : ∃ k, scans = k + 1 := ⟨scans - 1, by omega⟩
    rw [stringFrom, scanFrom]
    cases hget : text[i]? with
    | none => exact .inr ⟨_, hi, rfl, rfl⟩
    | some b =>
      have hlt : i < text.length := (List.getElem?_eq_some_iff.mp hget).1
      have hd := drop_of_get hget
      simp only
      by_cases h34 : b = 34
      · rw [if_pos h34, if_pos h34]
        exact .inl ⟨_, _, _, le_rfl, rfl, rfl⟩
      rw [if_neg h34, if_neg h34]
      by_cases h92 : b = 92
      · rw [if_pos h92, if_pos h92, escapeEnd_eq]
        cases hesc : escapeAt text i with
        | error stop =>
          obtain ⟨e, rfl, hoff⟩ := escapeAt_error hlt hesc
          exact .inr ⟨e, hoff, rfl, rfl⟩
        | ok p =>
          obtain ⟨unit, next⟩ := p
          rw [h92] at hget
          obtain ⟨t, ht, hnext, hascii, hne, -⟩ := escapeAt_sound hget hesc
          have hpos := List.length_pos_iff.mpr hne
          have hle := le_of_drop hi ht
          rw [ht] at hv
          have := scanFrom_agrees fuel (units ++ [unit]) true (hv.of_ascii_append hascii)
            (by omega) (by omega : text.length - next < fuel) (by omega : text.length - next < scans)
          rcases this with ⟨s, j, e, hij, hp, hs⟩ | ⟨e, hoff, hp, hs⟩
          · exact .inl ⟨s, j, e, by omega, hp, hs⟩
          · exact .inr ⟨e, by omega, hp, hs⟩
      rw [if_neg h92, if_neg h92]
      by_cases h32 : b < 32
      · rw [if_pos h32, if_pos h32]
        exact .inr ⟨_, le_rfl, rfl, rfl⟩
      rw [if_neg h32, if_neg h32]
      rw [hd] at hv
      obtain ⟨c, tail, hc, henc, htail⟩ := hv.first
      rw [henc] at hd
      obtain ⟨b', t', hd', hhigh, hlow, hchar⟩ := characterAt_ok hc hd
      obtain rfl : b = b' := by
        have := get_of_drop hd'
        rw [hget] at this
        exact Option.some.inj this
      have hplain : ∀ x ∈ encode8 c, Plain x := by
        by_cases h128 : c < 128
        · have := hlow h128
          exact encode8_plain (by omega) (by omega) (by omega)
        · exact encode8_plain (by omega) (by omega) (by omega)
      have hpos := List.length_pos_iff.mpr (encode8_ne_nil c)
      have hle := le_of_drop hi hd
      have hrest := drop_add hd
      have hskip : scanFrom text (scans + 1) escaped i
          = scanFrom text (scans + 1 - (encode8 c).length) escaped (i + (encode8 c).length) := by
        have := scanFrom_skip (scans + 1 - (encode8 c).length) escaped hplain hd
        rwa [Nat.sub_add_cancel (by omega)] at this
      have hone : scanFrom text (scans + 1) escaped i = scanFrom text scans escaped (i + 1) := by
        rw [scanFrom, hget]
        simp only
        rw [if_neg h34, if_neg h92, if_neg h32]
      rw [← hone, hskip, hchar]
      rw [← hrest] at htail
      have := scanFrom_agrees fuel (units ++ encode16 c) escaped htail hle
        (by omega : text.length - (i + (encode8 c).length) < fuel)
        (by omega : text.length - (i + (encode8 c).length) < scans + 1 - (encode8 c).length)
      rcases this with ⟨s, j, e, hij, hp, hs⟩ | ⟨e, hoff, hp, hs⟩
      · exact .inl ⟨s, j, e, by omega, hp, hs⟩
      · exact .inr ⟨e, by omega, hp, hs⟩

theorem scanString_agrees (hq : text[i]? = some 34) (hv : Valid (text.drop i)) :
    (∃ s j e, i < j ∧ parseString text i = .ok (s, j + 1) ∧
        scanString text i = .ok ({ start := i + 1, finish := j, escaped := e }, j + 1)) ∨
      ∃ e, i ≤ e.offset ∧ parseString text i = .error (.failure e) ∧ scanString text i = .error (.failure e) := by
  have hlt : i < text.length := (List.getElem?_eq_some_iff.mp hq).1
  rw [drop_of_get hq] at hv
  unfold parseString scanString
  rcases scanFrom_agrees (text.length + 1) [] false (hv.tail_of_ascii (by decide)) hlt (by omega)
    (by omega : text.length - (i + 1) < text.length + 1) with
    ⟨s, j, e, hij, hp, hs⟩ | ⟨e, hoff, hp, hs⟩
  · refine .inl ⟨s, j, e, hij, hp, ?_⟩
    rw [hs]
    rfl
  · refine .inr ⟨e, by omega, hp, ?_⟩
    rw [hs]
    rfl

/-! ## Words and numbers -/

theorem keyword_eq (text : List Nat) (i : Nat) (word : List Nat) (v : Value) :
    keyword text i word v = (keyword text i word .null >>= fun p => .ok (v, p.2)) := by
  unfold keyword
  simp only
  split
  · rfl
  · split
    · rfl
    · rfl

theorem keyword_error {word : List Nat} {v : Value} (hi : i ≤ text.length)
    (h : keyword text i word v = .error stop) : ∃ e, stop = .failure e ∧ i ≤ e.offset := by
  unfold keyword at h
  simp only at h
  split at h
  · cases h
  · split at h
    · exact ⟨_, (Except.error.inj h).symm, hi⟩
    · exact ⟨_, (Except.error.inj h).symm, Nat.le_add_right i _⟩

theorem scanInteger_error (h : scanInteger text i = .error bad) : i ≤ bad := by
  unfold scanInteger at h
  simp only at h
  split at h
  · split at h
    · cases h
    · split at h
      · cases h
      · cases h
        exact Nat.le_succ i
  · split at h
    · cases h
    · split at h
      · cases h
      · exact le_of_eq (Except.error.inj h)

theorem scanFraction_error (h : scanFraction text i = .error bad) : i ≤ bad := by
  unfold scanFraction at h
  simp only at h
  split at h
  · split at h
    · cases h
      exact Nat.le_succ i
    · cases h
  · cases h

theorem scanExponent_error (h : scanExponent text i = .error bad) : i ≤ bad := by
  unfold scanExponent at h
  simp only at h
  split at h
  · generalize hfirst : (if byteIs text (i + 1) (fun byte => byte = 43 || byte = 45) then i + 1 + 1
      else i + 1) = first at h
    have hge : i ≤ first := by
      rw [← hfirst]
      split
      all_goals omega
    split at h
    · cases h
      exact hge
    · cases h
  · cases h

theorem scanNumber_error (hi : i ≤ text.length) (h : scanNumber text i = .error stop) :
    ∃ e, stop = .failure e ∧ i ≤ e.offset := by
  have hbad : ∀ bad, ((scanInteger text i >>= scanFraction text) >>= scanExponent text) = .error bad → i ≤ bad := by
    intro bad hbad
    cases hint : scanInteger text i with
    | error b =>
      rw [hint] at hbad
      obtain rfl : b = bad := Except.error.inj hbad
      exact scanInteger_error hint
    | ok j =>
      obtain ⟨t, -, -, -, hj⟩ := scanInteger_sound hint
      rw [hint] at hbad
      change (scanFraction text j >>= scanExponent text) = .error bad at hbad
      cases hfrac : scanFraction text j with
      | error b =>
        rw [hfrac] at hbad
        obtain rfl : b = bad := Except.error.inj hbad
        have := scanFraction_error hfrac
        omega
      | ok k =>
        obtain ⟨t', -, -, -, hk⟩ := scanFraction_sound hfrac
        rw [hfrac] at hbad
        have := scanExponent_error (show scanExponent text k = .error bad from hbad)
        omega
  unfold scanNumber at h
  split at h
  · cases h
  · rename_i bad heq
    split at h
    · exact ⟨_, (Except.error.inj h).symm, hi⟩
    · exact ⟨_, (Except.error.inj h).symm, hbad bad heq⟩

end Tsuzuri.Json
