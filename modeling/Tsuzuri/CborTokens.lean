import Mathlib.Data.Nat.Digits.Lemmas
import Tsuzuri.Cbor
import Tsuzuri.JsonEmitSound

/-!
# Heads, integers and text of CBOR

Every encoder appends bytes that do not depend on the output so far, and the decoder gives the value back and the
offset behind them.
-/

namespace Tsuzuri.Cbor

open FaultVec Unicode List
open Json (Str ubyte maxLength ok_then ubyte_eq get_of_drop drop_add)

def bigBytes (value : Nat) : Nat → List Nat
  | 0 => []
  | count + 1 => ubyte (value >>> (count * 8)) :: bigBytes value count

theorem pushBig_eq (output : List Nat) (value count : Nat) :
    pushBig output value count = output ++ bigBytes value count := by
  induction count generalizing output with
  | zero => simp [pushBig, bigBytes]
  | succ count ih => simp [pushBig, bigBytes, ih]

theorem length_bigBytes (value count : Nat) : (bigBytes value count).length = count := by
  induction count with
  | zero => rfl
  | succ count ih => simp [bigBytes, ih]

theorem bigBytes_foldl (value count acc : Nat) :
    (bigBytes value count).foldl (fun value byte => value <<< 8 ||| byte) acc
      = acc * 256 ^ count + value % 256 ^ count := by
  induction count generalizing acc with
  | zero => simp [bigBytes, Nat.mod_one]
  | succ count ih =>
    have hpow : 2 ^ (count * 8) = 256 ^ count := by
      rw [Nat.mul_comm, Nat.pow_mul]
    have hbyte : ubyte (value >>> (count * 8)) = value / 256 ^ count % 256 := by
      rw [ubyte, shift_right, hpow]
    have hstep : acc <<< 8 ||| value / 256 ^ count % 256 = acc * 256 + value / 256 ^ count % 256 :=
      shift_or acc 8 _ (Nat.mod_lt _ (by decide))
    rw [bigBytes, foldl_cons, hbyte, hstep, ih, Nat.mod_pow_succ, Nat.pow_succ]
    ring

theorem bigEndian_bigBytes {value count : Nat} (h : value < 256 ^ count) :
    bigEndian (bigBytes value count) = value := by
  rw [bigEndian, bigBytes_foldl, Nat.zero_mul, Nat.zero_add, Nat.mod_eq_of_lt h]

/-! ## Heads -/

def extraSize (info : Nat) : Nat :=
  if info < 24 then 0
  else if info = 24 then 1 else if info = 25 then 2 else if info = 26 then 4 else 8

def IsHead (major arg : Nat) (t : List Nat) : Prop :=
  ∃ info extra, t = (32 * major + info) :: extra ∧ info < 28 ∧ extra.length = extraSize info ∧
    (arg < 18446744073709551616 → if info < 24 then info = arg else bigEndian extra = arg)

variable {major b arg : Nat} {negative : Bool} {text : Str}

theorem initial_or {info : Nat} (hmajor : major < 8) (hinfo : info < 32) :
    ubyte (major <<< 5 ||| info) = 32 * major + info := by
  have hor : major <<< 5 ||| info = major * 32 + info := shift_or major 5 info hinfo
  rw [hor, ubyte_eq (by omega), Nat.mul_comm]

theorem head_spec (major arg : Nat) (hmajor : major < 8) :
    ∃ t, IsHead major arg t ∧ ∀ output, head output major arg = output ++ t := by
  unfold head
  simp only
  by_cases h24 : arg < 24
  · refine ⟨[32 * major + arg], ⟨arg, [], rfl, by omega, ?_, ?_⟩, fun output => ?_⟩
    · rw [extraSize, if_pos h24]
      rfl
    · intro _
      rw [if_pos h24]
    · rw [if_pos h24, initial_or hmajor (by omega)]
  simp only [if_neg h24]
  by_cases h8 : arg < 256
  · refine ⟨[32 * major + 24, arg], ⟨24, [arg], rfl, by decide, rfl, ?_⟩, fun output => ?_⟩
    · intro _
      simp [bigEndian]
    · rw [if_pos h8, initial_or hmajor (by decide), ubyte_eq h8]
      simp
  simp only [if_neg h8]
  by_cases h16 : arg < 65536
  · refine ⟨(32 * major + 25) :: bigBytes arg 2, ⟨25, _, rfl, by decide, length_bigBytes arg 2,
      fun _ => bigEndian_bigBytes h16⟩, fun output => ?_⟩
    rw [if_pos h16, initial_or hmajor (by decide), pushBig_eq]
    simp
  simp only [if_neg h16]
  by_cases h32 : arg < 4294967296
  · refine ⟨(32 * major + 26) :: bigBytes arg 4, ⟨26, _, rfl, by decide, length_bigBytes arg 4,
      fun _ => bigEndian_bigBytes h32⟩, fun output => ?_⟩
    rw [if_pos h32, initial_or hmajor (by decide), pushBig_eq]
    simp
  · refine ⟨(32 * major + 27) :: bigBytes arg 8, ⟨27, _, rfl, by decide, length_bigBytes arg 8,
      fun harg => bigEndian_bigBytes harg⟩, fun output => ?_⟩
    rw [if_neg h32, initial_or hmajor (by decide), pushBig_eq]
    simp

variable {bytes rest t : List Nat} {start : Nat}

theorem length_of_drop (h : bytes.drop start = t ++ rest) (hne : t ≠ []) :
    start + t.length + rest.length = bytes.length := by
  have hlen := congrArg List.length h
  rw [length_drop, length_append] at hlen
  have := length_pos_iff.mpr hne
  omega

section

variable (h : IsHead major arg t)

include h

theorem IsHead.ne_nil : t ≠ [] := by
  obtain ⟨info, extra, rfl, -⟩ := h
  simp

theorem IsHead.first (hdrop : bytes.drop start = t ++ rest) :
    ∃ byte, bytes[start]? = some byte ∧ byte >>> 5 = major := by
  obtain ⟨info, extra, rfl, hinfo, -⟩ := h
  refine ⟨_, get_of_drop hdrop, ?_⟩
  have := shift_right (32 * major + info) 5
  rw [this]
  omega

theorem argument_ok (harg : arg < 18446744073709551616) (hdrop : bytes.drop start = t ++ rest) :
    argument bytes start = .ok (arg, start + t.length) := by
  have hlen := length_of_drop hdrop h.ne_nil
  obtain ⟨info, extra, rfl, hinfo, hsize, hvalue⟩ := h
  have hbyte : byteAt bytes start = .ok (32 * major + info) := by
    rw [byteAt, get_of_drop hdrop]
  have hmask : (32 * major + info) &&& 31 = info := by
    rw [mask5]
    omega
  have hvalue := hvalue harg
  unfold argument
  rw [hbyte]
  change (if _ then _ else _) = _
  rw [hmask, if_neg (by omega), if_neg (by omega)]
  by_cases h24 : info < 24
  · rw [if_pos h24] at hvalue
    rw [extraSize, if_pos h24] at hsize
    rw [if_pos h24, hvalue, length_cons, hsize]
  · rw [if_neg h24] at hvalue
    have hextra : (bytes.drop (start + 1)).take (extraSize info) = extra := by
      rw [← drop_drop, hdrop, ← hsize]
      exact take_left
    have hsizes : (if info = 24 then 1 else if info = 25 then 2 else if info = 26 then 4 else 8) = extraSize info := by
      rw [extraSize, if_neg h24]
    rw [length_cons, hsize] at hlen ⊢
    rw [if_neg h24]
    simp only [hsizes]
    rw [if_neg (by omega), hextra, hvalue, Nat.add_assoc, Nat.add_comm 1]

theorem IsHead.append_inj {arg' : Nat} {t' b b' : List Nat} (h' : IsHead major arg' t')
    (heq : t ++ b = t' ++ b') : b = b' := by
  obtain ⟨info, extra, rfl, -, hsize, -⟩ := h
  obtain ⟨info', extra', rfl, -, hsize', -⟩ := h'
  obtain ⟨hinfo, htail⟩ := List.cons.inj heq
  obtain rfl : info = info' := by omega
  exact (append_inj htail (by rw [hsize, hsize'])).2

end

def Canonical (digits : List Nat) : Prop :=
  digits = [48] ∨ ∃ d ds, digits = d :: ds ∧ Json.isDigit d = true ∧ d ≠ 48 ∧ Json.Digits ds

theorem digit_bounds (h : Json.isDigit b = true) : 48 ≤ b ∧ b ≤ 57 := by
  simpa [Json.isDigit] using h

theorem Canonical.digits {digits : List Nat} (h : Canonical digits) : Json.Digits digits := by
  rcases h with rfl | ⟨d, ds, rfl, hd, -, hds⟩
  · intro b hb
    rw [mem_singleton.mp hb]
    rfl
  · intro b hb
    rcases mem_cons.mp hb with rfl | hb
    · exact hd
    · exact hds b hb

theorem decimal_eq (digits : List Nat) : decimal digits = Nat.ofDigits 10 (digits.reverse.map (· - 48)) := by
  induction digits using List.reverseRecOn with
  | nil => rfl
  | append_singleton ds d ih =>
    have hfold : decimal (ds ++ [d]) = decimal ds * 10 + (d - 48) := by
      simp [decimal]
    rw [hfold, ih, reverse_append, reverse_singleton, singleton_append, map_cons, Nat.ofDigits_cons]
    omega

theorem decimal_lt {digits : List Nat} (h : Json.Digits digits) : decimal digits < 10 ^ digits.length := by
  have := Nat.ofDigits_lt_base_pow_length (b := 10) (l := digits.reverse.map (· - 48)) (by decide) (by
      intro x hx
      obtain ⟨b, hb, rfl⟩ := mem_map.mp hx
      have := digit_bounds (h b (mem_reverse.mp hb))
      omega)
  rw [decimal_eq]
  simpa using this

theorem decimalText_decimal {digits : List Nat} (h : Canonical digits) : decimalText (decimal digits) = digits := by
  rcases h with rfl | ⟨d, ds, rfl, hd, h48, hds⟩
  · decide
  have hall : Json.Digits (d :: ds) := Canonical.digits (.inr ⟨d, ds, rfl, hd, h48, hds⟩)
  have hdigits : Nat.digits 10 (decimal (d :: ds)) = (d :: ds).reverse.map (· - 48) := by
    rw [decimal_eq]
    refine Nat.digits_ofDigits 10 (by decide) _ ?_ ?_
    · intro x hx
      obtain ⟨b, hb, rfl⟩ := mem_map.mp hx
      have := digit_bounds (hall b (mem_reverse.mp hb))
      omega
    · intro hne
      have hbound := digit_bounds hd
      rw [getLast_map, getLast_reverse]
      simp only [head_cons]
      omega
  have hpos : decimal (d :: ds) ≠ 0 := by
    intro h0
    rw [h0, Nat.digits_zero] at hdigits
    have := congrArg List.length hdigits
    simp at this
  rw [decimalText, if_neg hpos, hdigits, ← map_reverse, reverse_reverse, map_map]
  have hid : ∀ b ∈ d :: ds, ((· + 48) ∘ (· - 48)) b = b := by
    intro b hb
    have := digit_bounds (hall b hb)
    change b - 48 + 48 = b
    omega
  exact (map_congr_left hid).trans (map_id _)

theorem decimal_pos {digits : List Nat} (h : Canonical digits) (hne : digits ≠ [48]) : 0 < decimal digits := by
  rcases Nat.eq_zero_or_pos (decimal digits) with h0 | h0
  · have := decimalText_decimal h
    rw [h0] at this
    exact absurd this.symm hne
  · exact h0

def signed (negative : Bool) (digits : List Nat) : List Nat :=
  if negative then 45 :: digits else digits

def IntegerNumeral (t : List Nat) : Prop :=
  ∃ negative digits, t = signed negative digits ∧ Canonical digits ∧ digits.length ≤ 4096 ∧ t ≠ [45, 48]

theorem signed_numeral (negative : Bool) {digits : List Nat} (h : Canonical digits) :
    Json.isNumeral (signed negative digits) = true := by
  refine Json.isNumeral_iff.mpr ⟨signed negative digits, [], [], by simp, ?_, .inl rfl, .inl rfl⟩
  cases negative with
  | false => exact ⟨[], digits, rfl, .inl rfl, h⟩
  | true => exact ⟨[45], digits, rfl, .inr rfl, h⟩

theorem signed_integer (negative : Bool) {digits : List Nat} (h : Canonical digits) :
    isIntegerText (signed negative digits) = true := by
  have hdigits : ∀ b ∈ digits, (!(b = 46 || b = 101 || b = 69)) = true := by
    intro b hb
    have := digit_bounds (h.digits b hb)
    simp
    omega
  unfold isIntegerText
  rw [all_eq_true]
  cases negative with
  | false => exact hdigits
  | true => exact forall_mem_cons.mpr ⟨by decide, hdigits⟩

section

variable {digits : List Nat} (h : Canonical digits)

include h

theorem numeralOf_signed : numeralOf (signed negative digits) = .ok (.number (signed negative digits)) :=
  if_pos (signed_numeral negative h)

theorem integerText_natCast : integerText (decimal digits : Nat) = signed false digits := by
  rw [integerText, if_neg (by omega)]
  exact decimalText_decimal h

theorem integerText_neg (hpos : 0 < decimal digits) : integerText (-(decimal digits : Nat)) = signed true digits := by
  rw [integerText, if_pos (by omega), Int.natAbs_neg, Int.natAbs_natCast, decimalText_decimal h]
  rfl

theorem head?_digits : digits.head? ≠ some 45 := by
  intro h45
  have := digit_bounds (h.digits 45 (mem_of_mem_head? h45))
  omega

end

theorem number_signed (floats : Floats) {digits : List Nat} (h : Canonical digits) (output : List Nat) :
    number floats output (signed negative digits) = integer output negative digits := by
  have hnum := signed_numeral negative h
  have hint := signed_integer negative h
  unfold number
  rw [if_neg (by simp [hnum]), if_neg (by simp [hint])]
  cases negative with
  | false => exact if_neg (head?_digits h)
  | true => exact if_pos rfl

def inHead (negative : Bool) (digits : List Nat) : Bool :=
  decimal digits ≤ if negative then 18446744073709551616 else 18446744073709551615

theorem integer_eq {digits : List Nat} (hlen : digits.length ≤ 4096)
    (hne : signed negative digits ≠ [45, 48]) (output : List Nat) : integer output negative digits =
      if 20 < digits.length ∨ inHead negative digits = false then .ok (bignum output negative digits)
      else if negative then .ok (head output 1 (decimal digits - 1)) else .ok (head output 0 (decimal digits)) := by
  have hzero : ¬ (digits = [48] ∧ negative = true) := by
    rintro ⟨rfl, rfl⟩
    exact hne rfl
  unfold integer
  rw [if_neg hzero, if_neg (by omega)]
  by_cases h20 : 20 < digits.length
  · rw [if_pos h20, if_pos (.inl h20)]
  rw [if_neg h20]
  cases negative with
  | false =>
    by_cases hbig : decimal digits ≤ 18446744073709551615
    · simp [h20, hbig, inHead]
    · simp [hbig, inHead]
  | true =>
    by_cases hbig : decimal digits ≤ 18446744073709551616
    · simp [h20, hbig, inHead]
    · simp [hbig, inHead]

def Reads (floats : Floats) (n : Nat) (v : Json.Value) (t : List Nat) : Prop :=
  ∀ {bytes rest : List Nat} {start fuel depth : Nat}, bytes.drop start = t ++ rest →
    n + depth ≤ 128 → n < fuel → valueAt floats bytes fuel start depth = .ok (v, start + t.length)

theorem reads_unsigned (floats : Floats) (n : Nat) {digits : List Nat} (hdig : Canonical digits)
    (hsmall : decimal digits < 18446744073709551616) (h : IsHead 0 (decimal digits) t) :
    Reads floats n (.number (signed false digits)) t := by
  intro bytes rest start fuel depth hdrop _ hfuel
  obtain ⟨fuel, rfl⟩ : ∃ f, fuel = f + 1 := ⟨fuel - 1, by omega⟩
  obtain ⟨byte, hbyte, hmajor⟩ := h.first hdrop
  simp only [valueAt, hbyte, hmajor, argument_ok h hsmall hdrop]
  change (numeralOf (integerText (decimal digits : Nat)) >>= _) = _
  rw [integerText_natCast hdig, numeralOf_signed hdig]
  rfl

theorem reads_negative (floats : Floats) (n : Nat) {digits : List Nat} (hdig : Canonical digits)
    (hpos : 0 < decimal digits) (hsmall : decimal digits - 1 < 18446744073709551616)
    (h : IsHead 1 (decimal digits - 1) t) : Reads floats n (.number (signed true digits)) t := by
  intro bytes rest start fuel depth hdrop _ hfuel
  obtain ⟨fuel, rfl⟩ : ∃ f, fuel = f + 1 := ⟨fuel - 1, by omega⟩
  obtain ⟨byte, hbyte, hmajor⟩ := h.first hdrop
  simp only [valueAt, hbyte, hmajor, argument_ok h hsmall hdrop]
  change (numeralOf (integerText (-1 - ((decimal digits - 1 : Nat) : Int))) >>= _) = _
  have hneg : -1 - ((decimal digits - 1 : Nat) : Int) = -(decimal digits : Nat) := by omega
  rw [hneg, integerText_neg hdig hpos, numeralOf_signed hdig]
  rfl

/-! ## Bignums -/

def magnitudeOf (negative : Bool) (digits : List Nat) : Nat :=
  if negative then decimal digits - 1 else decimal digits

theorem magnitude_length (negative : Bool) {digits : List Nat} (hdig : Canonical digits)
    (hlen : digits.length ≤ 4096) : (Nat.digits 256 (magnitudeOf negative digits)).length ≤ 1701 := by
  rw [Nat.digits_length_le_iff (by decide)]
  have hle : magnitudeOf negative digits ≤ decimal digits := by
    unfold magnitudeOf
    split
    · exact Nat.sub_le _ _
    · exact le_rfl
  have hlong : ∀ k, digits.length ≤ k → 10 ^ digits.length ≤ 10 ^ k :=
    fun k hk => Nat.pow_le_pow_right (by decide) hk
  have hpow : 10 ^ 4096 ≤ 256 ^ 1701 := by decide +kernel
  exact lt_of_le_of_lt hle (lt_of_lt_of_le (decimal_lt hdig.digits) ((hlong 4096 hlen).trans hpow))

theorem foldl_bytes (l : List Nat) : l.reverse.foldl (fun (value : Int) (byte : Nat) => value * 256 + byte) 0
      = (Nat.ofDigits 256 l : Nat) := by
  induction l with
  | nil => rfl
  | cons d l ih =>
    rw [reverse_cons, foldl_append, ih, Nat.ofDigits_cons]
    simp only [foldl_cons, foldl_nil]
    push_cast
    ring

theorem bignumText_eq {digits : List Nat} (hdig : Canonical digits) (hpos : negative = true → 0 < decimal digits) :
    bignumText (Nat.digits 256 (magnitudeOf negative digits)).reverse negative = signed negative digits := by
  unfold bignumText
  simp only [foldl_bytes, Nat.ofDigits_digits]
  cases negative with
  | false => exact integerText_natCast hdig
  | true =>
    have h0 := hpos rfl
    have hneg : -1 - ((decimal digits - 1 : Nat) : Int) = -(decimal digits : Nat) := by omega
    change integerText (-1 - ((decimal digits - 1 : Nat) : Int)) = _
    rw [hneg, integerText_neg hdig h0]

theorem length_le_of_drop (hdrop : bytes.drop start = t ++ rest) (hne : t ≠ []) :
    rest.length = bytes.length - (start + t.length) := by
  have := length_of_drop hdrop hne
  omega

theorem bignumAt_ok (start : Nat) {digits s body : List Nat} {next : Nat} (hdig : Canonical digits)
    (hlen : digits.length ≤ 4096) (hpos : negative = true → 0 < decimal digits)
    (hbody : body = (Nat.digits 256 (magnitudeOf negative digits)).reverse) (hhead : IsHead 2 body.length s)
    (hdrop : bytes.drop next = s ++ (body ++ rest)) :
    bignumAt bytes start next negative = .ok (.number (signed negative digits), next + s.length + body.length) := by
  obtain ⟨byte, hbyte, hmajor⟩ := hhead.first hdrop
  have hrest := drop_add hdrop
  have hroom := length_le_of_drop hdrop hhead.ne_nil
  have hshort : body.length ≤ 1701 := by
    rw [hbody, length_reverse]
    exact magnitude_length negative hdig hlen
  have htext : bignumText ((bytes.drop (next + s.length)).take body.length) negative = signed negative digits := by
    rw [hrest, take_left, hbody]
    exact bignumText_eq hdig hpos
  have hcount : (if negative then (signed negative digits).length - 1
      else (signed negative digits).length) ≤ 4096 := by
    cases negative with
    | false => exact hlen
    | true =>
      change digits.length + 1 - 1 ≤ 4096
      omega
  rw [length_append] at hroom
  unfold bignumAt
  simp only [hbyte, hmajor, ne_eq, not_true_eq_false, if_false, argument_ok hhead (by omega) hdrop]
  change (if bytes.length - (next + s.length) < body.length then _ else _) = _
  rw [if_neg (by omega), if_neg (by omega), htext, if_neg (by omega), numeralOf_signed hdig]
  rfl

def Encodes (floats : Floats) (n : Nat) (v : Json.Value) (run : List Nat → Run (List Nat)) : Prop :=
  ∃ t, t ≠ [] ∧ (∀ output, run output = .ok (output ++ t)) ∧ (t.length ≤ maxLength → Reads floats n v t)

theorem bignum_encodes (floats : Floats) (n : Nat) {digits : List Nat} (hdig : Canonical digits)
    (hlen : digits.length ≤ 4096) (hpos : negative = true → 0 < decimal digits) :
    Encodes floats n (.number (signed negative digits)) fun output => .ok (bignum output negative digits) := by
  have hshort := magnitude_length negative hdig hlen
  generalize hbody : (Nat.digits 256 (magnitudeOf negative digits)).reverse = body
  have hbodylen : body.length = (Nat.digits 256 (magnitudeOf negative digits)).length := by
    rw [← hbody, length_reverse]
  have hkindlt : (if negative then 3 else 2) < 18446744073709551616 := by
    split
    all_goals decide
  obtain ⟨tag, htag, htagrun⟩ := head_spec 6 (if negative then 3 else 2) (by decide)
  obtain ⟨s, hs, hsrun⟩ := head_spec 2 body.length (by decide)
  refine ⟨tag ++ (s ++ body), by simp [htag.ne_nil], fun output => ?_, fun _ => ?_⟩
  · have hrest : (if negative then (decimal digits : Int) - 1 else (decimal digits : Int)).toNat
        = magnitudeOf negative digits := by
      unfold magnitudeOf
      split
      all_goals omega
    unfold bignum
    simp only [hrest, ← hbodylen, htagrun, hsrun, hbody, append_assoc]
  · intro bytes rest start fuel depth hdrop _ hfuel
    obtain ⟨fuel, rfl⟩ : ∃ f, fuel = f + 1 := ⟨fuel - 1, by omega⟩
    rw [append_assoc, append_assoc] at hdrop
    obtain ⟨byte, hbyte, hmajor⟩ := htag.first hdrop
    have hnext := bignumAt_ok start hdig hlen hpos hbody.symm hs (drop_add hdrop)
    simp only [valueAt, hbyte, hmajor, argument_ok htag hkindlt hdrop]
    change (if (if negative then 3 else 2) = 2 ∨ (if negative then 3 else 2) = 3 then
      bignumAt bytes start (start + tag.length) (decide ((if negative then 3 else 2) = 3)) else _) = _
    have hkind : (decide ((if negative then 3 else 2) = 3)) = negative := by
      cases negative with
      | false => rfl
      | true => rfl
    rw [if_pos (by split <;> simp), hkind, hnext]
    simp only [length_append, Nat.add_assoc]

theorem number_encodes (floats : Floats) (n : Nat) (h : IntegerNumeral t) :
    Encodes floats n (.number t) fun output => number floats output t := by
  obtain ⟨negative, digits, rfl, hdig, hlen, hne⟩ := h
  have hpos : negative = true → 0 < decimal digits := by
    rintro rfl
    refine decimal_pos hdig ?_
    rintro rfl
    exact hne rfl
  simp only [number_signed floats hdig, integer_eq hlen hne]
  by_cases hbig : 20 < digits.length ∨ inHead negative digits = false
  · simp only [if_pos hbig]
    exact bignum_encodes floats n hdig hlen hpos
  simp only [if_neg hbig]
  have hin : inHead negative digits = true := by
    cases hv : inHead negative digits with
    | true => rfl
    | false => exact absurd (.inr hv) hbig
  cases negative with
  | false =>
    have hle : decimal digits ≤ 18446744073709551615 := by simpa [inHead] using hin
    obtain ⟨t, ht, hrun⟩ := head_spec 0 (decimal digits) (by decide)
    refine ⟨t, ht.ne_nil, fun output => ?_, fun _ => reads_unsigned floats n hdig (by omega) ht⟩
    change Except.ok (head output 0 (decimal digits)) = _
    rw [hrun]
  | true =>
    have hle : decimal digits ≤ 18446744073709551616 := by simpa [inHead] using hin
    have h0 := hpos rfl
    obtain ⟨t, ht, hrun⟩ := head_spec 1 (decimal digits - 1) (by decide)
    refine ⟨t, ht.ne_nil, fun output => ?_, fun _ => reads_negative floats n hdig h0 (by omega) ht⟩
    change Except.ok (head output 1 (decimal digits - 1)) = _
    rw [hrun]

def encodedKey (key : Str) : List Nat :=
  match textItem [] key with
  | .ok bytes => bytes
  | .error _ => []

theorem textItem_eq {scalars : List Nat} (h : scalars16 text = some scalars) :
    ∃ t, IsHead 3 (scalars.flatMap encode8).length t ∧ encodedKey text = t ++ scalars.flatMap encode8 ∧
      ∀ output, textItem output text = .ok (output ++ encodedKey text) := by
  obtain ⟨t, ht, hrun⟩ := head_spec 3 (scalars.flatMap encode8).length (by decide)
  have htext : ∀ output, textItem output text = .ok (output ++ (t ++ scalars.flatMap encode8)) := by
    intro output
    rw [textItem, h]
    simp only [hrun, append_assoc]
  have hkey : encodedKey text = t ++ scalars.flatMap encode8 := by
    rw [encodedKey, htext]
    rfl
  exact ⟨t, ht, hkey, fun output => by rw [hkey]; exact htext output⟩

theorem text_reads (floats : Floats) (n : Nat) (h : (scalars16 text).isSome)
    (hsize : (encodedKey text).length ≤ maxLength) : Reads floats n (.text text) (encodedKey text) := by
  obtain ⟨scalars, hscalars⟩ := Option.isSome_iff_exists.mp h
  obtain ⟨hall, hunits⟩ := scalars16_sound hscalars
  obtain ⟨t, ht, hkey, -⟩ := textItem_eq hscalars
  rw [hkey] at hsize ⊢
  rw [length_append, maxLength] at hsize
  intro bytes rest start fuel depth hdrop _ hfuel
  obtain ⟨fuel, rfl⟩ : ∃ f, fuel = f + 1 := ⟨fuel - 1, by omega⟩
  rw [append_assoc] at hdrop
  obtain ⟨byte, hbyte, hmajor⟩ := ht.first hdrop
  have hroom := length_le_of_drop hdrop ht.ne_nil
  rw [length_append] at hroom
  simp only [valueAt, hbyte, hmajor, argument_ok ht (by omega) hdrop]
  change (if bytes.length - (start + t.length) < (scalars.flatMap encode8).length then _
    else textAt bytes start (start + t.length) (scalars.flatMap encode8).length) = _
  rw [if_neg (by omega), textAt, drop_add hdrop, take_left, scalars8_encode hall]
  simp only [hunits, length_append, Nat.add_assoc]

theorem encodedKey_ne_nil (h : (scalars16 text).isSome) : encodedKey text ≠ [] := by
  obtain ⟨scalars, hscalars⟩ := Option.isSome_iff_exists.mp h
  obtain ⟨t, ht, hkey, -⟩ := textItem_eq hscalars
  rw [hkey]
  simp [ht.ne_nil]

theorem textItem_ok (h : (scalars16 text).isSome) (output : List Nat) :
    textItem output text = .ok (output ++ encodedKey text) := by
  obtain ⟨scalars, hscalars⟩ := Option.isSome_iff_exists.mp h
  obtain ⟨-, -, -, hrun⟩ := textItem_eq hscalars
  exact hrun output

theorem encodedKey_inj {a b : Str} (ha : (scalars16 a).isSome) (hb : (scalars16 b).isSome)
    (h : encodedKey a = encodedKey b) : a = b := by
  obtain ⟨scalars, hs⟩ := Option.isSome_iff_exists.mp ha
  obtain ⟨scalars', hs'⟩ := Option.isSome_iff_exists.mp hb
  obtain ⟨t, ht, hkey, -⟩ := textItem_eq hs
  obtain ⟨t', ht', hkey', -⟩ := textItem_eq hs'
  rw [hkey, hkey'] at h
  have hbytes := ht.append_inj ht' h
  obtain ⟨hall, hunits⟩ := scalars16_sound hs
  obtain ⟨hall', hunits'⟩ := scalars16_sound hs'
  have := scalars8_encode hall
  rw [hbytes, scalars8_encode hall'] at this
  rw [← hunits, ← hunits', Option.some.inj this]

end Tsuzuri.Cbor
