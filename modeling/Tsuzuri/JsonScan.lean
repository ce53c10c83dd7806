import Mathlib.Tactic.Tauto
import Tsuzuri.JsonGrammar

/-!
# The scanners of the JSON parser

Each scanner takes exactly the longest prefix of the rest of the text that its production derives.
-/

namespace Tsuzuri.Json

open FaultVec Unicode List

variable {text rest : List Nat} {i j : Nat}

@[simp] theorem ok_then {ε α β : Type} (a : α) (f : α → Except ε β) : ((.ok a : Except ε α) >>= f) = f a := rfl

@[simp] theorem error_then {ε α β : Type} (e : ε) (f : α → Except ε β) :
    ((.error e : Except ε α) >>= f) = .error e := rfl

variable {b : Nat} {xs t : List Nat} {test : Nat → Bool}

theorem get_of_drop (h : text.drop i = b :: rest) : text[i]? = some b := by
  rw [← head?_drop, h]
  rfl

theorem drop_succ (h : text.drop i = b :: rest) : text.drop (i + 1) = rest := by
  rw [← drop_drop, h]
  rfl

theorem drop_add (h : text.drop i = xs ++ rest) : text.drop (i + xs.length) = rest := by
  rw [← drop_drop, h, drop_left]

theorem drop_of_get (h : text[i]? = some b) : text.drop i = b :: text.drop (i + 1) := by
  obtain ⟨hi, rfl⟩ := List.getElem?_eq_some_iff.mp h
  exact drop_eq_getElem_cons hi

theorem byteIs_eq (h : text.drop i = xs) (test : Nat → Bool) : byteIs text i test = xs.head?.any test := by
  rw [byteIs, ← head?_drop, h]

/-! ## Runs -/

def Stops (test : Nat → Bool) (rest : List Nat) : Prop :=
  ∀ b ∈ rest.head?, test b = false

theorem stops_cons (h : test b = false) : Stops test (b :: rest) := by
  intro c hc
  obtain rfl : b = c := by simpa using hc
  exact h

theorem stops_nil : Stops test [] := by
  intro c hc
  simp at hc

theorem takeWhile_stops (hxs : ∀ b ∈ xs, test b = true) (hrest : Stops test rest) :
    (xs ++ rest).takeWhile test = xs := by
  induction xs with
  | nil =>
    cases rest with
    | nil => rfl
    | cons b rest => simp [hrest b rfl]
  | cons x xs ih =>
    rw [cons_append, takeWhile_cons, hxs x mem_cons_self, if_pos rfl, ih fun b hb => hxs b (mem_cons_of_mem _ hb)]

theorem runEnd_ok (h : text.drop i = xs ++ rest) (hxs : ∀ b ∈ xs, test b = true) (hrest : Stops test rest) :
    runEnd test text i = i + xs.length := by
  rw [runEnd, h, takeWhile_stops hxs hrest]

theorem runEnd_sound (test : Nat → Bool) (text : List Nat) (i : Nat) :
    ∃ xs rest, text.drop i = xs ++ rest ∧ (∀ b ∈ xs, test b = true) ∧ Stops test rest ∧
      runEnd test text i = i + xs.length := by
  refine ⟨(text.drop i).takeWhile test, (text.drop i).dropWhile test,
    takeWhile_append_dropWhile.symm, all_eq_true.mp all_takeWhile, fun b hb => ?_, rfl⟩
  have := head?_dropWhile_not test (text.drop i)
  rw [Option.mem_def.mp hb] at this
  simpa using this

theorem skipSpace_ok {ws : List Nat} (h : text.drop i = ws ++ rest) (hws : Blank ws)
    (hrest : Stops isSpace rest) : skipSpace text i = i + ws.length :=
  runEnd_ok h hws hrest

theorem skipSpace_sound (text : List Nat) (i : Nat) :
    ∃ ws rest, text.drop i = ws ++ rest ∧ Blank ws ∧ Stops isSpace rest ∧
      skipSpace text i = i + ws.length ∧ text.drop (skipSpace text i) = rest := by
  obtain ⟨ws, rest, h, hws, hrest, heq⟩ := runEnd_sound isSpace text i
  exact ⟨ws, rest, h, hws, hrest, heq, by rw [skipSpace, heq, drop_add h]⟩

theorem isSpace_lt (h : isSpace b = true) : b < 128 := by
  simp only [isSpace, Bool.or_eq_true, decide_eq_true_eq] at h
  omega

theorem isDigit_iff : isDigit b = true ↔ 48 ≤ b ∧ b ≤ 57 := by
  simp [isDigit]

/-! ## Numbers -/

def AfterNumber (rest : List Nat) : Prop :=
  Stops (fun b => isDigit b || b = 46 || b = 101 || b = 69) rest

theorem AfterNumber.digit (h : AfterNumber rest) : Stops isDigit rest := fun b hb => by
  have := h b hb
  simp only [Bool.or_eq_false_iff] at this
  exact this.1.1.1

theorem AfterNumber.exponent (h : AfterNumber rest) : Stops (fun b => b = 101 || b = 69) rest := fun b hb => by
  have := h b hb
  simp only [Bool.or_eq_false_iff] at this ⊢
  exact ⟨this.1.2, this.2⟩

theorem AfterNumber.dot (h : AfterNumber rest) : Stops (· = 46) rest := fun b hb => by
  have := h b hb
  simp only [Bool.or_eq_false_iff] at this
  exact this.1.1.2

theorem any_stops (h : Stops test rest) : rest.head?.any test = false := by
  cases rest with
  | nil => rfl
  | cons b rest => simpa using h b rfl

section

variable (h : text.drop i = t ++ rest)

include h

theorem scanInteger_ok (ht : IntegerPart t) (hrest : Stops isDigit rest) : scanInteger text i = .ok (i + t.length) := by
  obtain ⟨sign, digits, rfl, hsign, hdigits⟩ := ht
  -- the sign
  have hstart : (if byteIs text i (· = 45) then i + 1 else i) = i + sign.length := by
    rw [byteIs_eq h]
    rcases hsign with rfl | rfl
    · rcases hdigits with rfl | ⟨d, ds, rfl, hd, -, -⟩
      · rfl
      · have := isDigit_iff.mp hd
        simp
        omega
    · rfl
  rw [append_assoc] at h
  have hd := drop_add h
  unfold scanInteger
  simp only [hstart]
  rcases hdigits with rfl | ⟨d, ds, rfl, hdigit, h48, hds⟩
  · rw [byteIs_eq hd]
    simp
    omega
  · have hdig : byteIs text (i + sign.length) isDigit = true := by
      rw [byteIs_eq hd]
      simpa using hdigit
    have hzero : byteIs text (i + sign.length) (· = 48) = false := by
      rw [byteIs_eq hd]
      simpa using h48
    rw [hzero, hdig, if_neg Bool.false_ne_true, if_pos rfl, digitsEnd, runEnd_ok hd ?_ hrest]
    · simp
      omega
    · intro b hb
      rcases mem_cons.mp hb with rfl | hb
      · exact hdigit
      · exact hds b hb

theorem scanFraction_ok (ht : FractionPart t) (hdigit : Stops isDigit rest) (hdot : t = [] → Stops (· = 46) rest) :
    scanFraction text i = .ok (i + t.length) := by
  unfold scanFraction
  rw [byteIs_eq h]
  rcases ht with rfl | ⟨ds, rfl, hne, hds⟩
  · rw [nil_append, any_stops (hdot rfl), if_neg Bool.false_ne_true]
    rfl
  · have hrun : digitsEnd text (i + 1) = i + 1 + ds.length :=
      runEnd_ok (drop_succ h) hds hdigit
    have hpos := length_pos_iff.mpr hne
    simp only [cons_append, head?_cons, Option.any_some, decide_true, if_true, hrun]
    rw [if_neg (by omega), length_cons]
    congr 1
    omega

theorem scanExponent_ok (ht : ExponentPart t) (hdigit : Stops isDigit rest)
    (he : t = [] → Stops (fun b => b = 101 || b = 69) rest) : scanExponent text i = .ok (i + t.length) := by
  unfold scanExponent
  rw [byteIs_eq h]
  rcases ht with rfl | ⟨e, sign, ds, rfl, hletter, hsign, hne, hds⟩
  · rw [nil_append, any_stops (he rfl), if_neg Bool.false_ne_true]
    rfl
  · have hletter' : (decide (e = 101) || decide (e = 69)) = true := by
      rcases hletter with rfl | rfl
      · rfl
      · rfl
    have hd : text.drop (i + 1) = sign ++ (ds ++ rest) := by
      rw [← append_assoc]
      exact drop_succ h
    have hstart : (if byteIs text (i + 1) (fun b => b = 43 || b = 45) then i + 1 + 1 else i + 1)
        = i + 1 + sign.length := by
      rw [byteIs_eq hd]
      rcases hsign with rfl | rfl | rfl
      · cases ds with
        | nil => exact absurd rfl hne
        | cons d ds =>
          have := isDigit_iff.mp (hds d mem_cons_self)
          simp
          omega
      · rfl
      · rfl
    have hrun : digitsEnd text (i + 1 + sign.length) = i + 1 + sign.length + ds.length :=
      runEnd_ok (drop_add hd) hds hdigit
    have hpos := length_pos_iff.mpr hne
    simp only [cons_append, head?_cons, Option.any_some, hletter', if_true, hstart, hrun]
    rw [if_neg (by omega), length_cons, length_append]
    congr 1
    omega

theorem scanNumber_ok (ht : Numeral t) (hrest : AfterNumber rest) : scanNumber text i = .ok (i + t.length) := by
  obtain ⟨integer, fraction, exponent, rfl, hi, hf, he⟩ := ht
  rw [append_assoc, append_assoc] at h
  have hef : Stops isDigit (exponent ++ rest) := by
    rcases he with rfl | ⟨e, sign, ds, rfl, hletter, -⟩
    · exact hrest.digit
    · refine stops_cons ?_
      rcases hletter with rfl | rfl
      · rfl
      · rfl
  have hint : Stops isDigit (fraction ++ (exponent ++ rest)) := by
    rcases hf with rfl | ⟨ds, rfl, -⟩
    · exact hef
    · exact stops_cons rfl
  have hdot : Stops (· = 46) (exponent ++ rest) := by
    rcases he with rfl | ⟨e, sign, ds, rfl, hletter, -⟩
    · exact hrest.dot
    · refine stops_cons ?_
      rcases hletter with rfl | rfl
      · rfl
      · rfl
  have h1 := scanInteger_ok h hi hint
  have h2 := scanFraction_ok (drop_add h) hf hef (fun h0 => hdot)
  have h3 := scanExponent_ok (drop_add (drop_add h)) he hrest.digit (fun h0 => hrest.exponent)
  unfold scanNumber
  rw [h1, ok_then, h2, ok_then, h3]
  simp only [length_append]
  congr 1
  omega

end

theorem scanInteger_sound (h : scanInteger text i = .ok j) :
    ∃ t rest, text.drop i = t ++ rest ∧ IntegerPart t ∧ j = i + t.length := by
  unfold scanInteger at h
  obtain ⟨sign, hsign, hdrop, hstart⟩ : ∃ sign, (sign = [] ∨ sign = [45]) ∧
      text.drop i = sign ++ text.drop (i + sign.length) ∧
      (if byteIs text i (· = 45) then i + 1 else i) = i + sign.length := by
    by_cases hb : text[i]? = some 45
    · refine ⟨[45], .inr rfl, by simpa using drop_of_get hb, ?_⟩
      simp [byteIs, hb]
    · refine ⟨[], .inl rfl, rfl, ?_⟩
      cases hget : text[i]? with
      | none => simp [byteIs, hget]
      | some b =>
        have : b ≠ 45 := fun h0 => hb (by rw [hget, h0])
        simp [byteIs, hget, this]
  simp only [hstart] at h
  cases hget : text[i + sign.length]? with
  | none => simp [byteIs, hget] at h
  | some d =>
    have hd := drop_of_get hget
    simp only [byteIs, hget, Option.any_some, decide_eq_true_eq] at h
    by_cases h48 : d = 48
    · subst h48
      rw [if_pos rfl] at h
      refine ⟨sign ++ [48], text.drop (i + sign.length + 1), ?_, ⟨sign, [48], rfl, hsign, .inl rfl⟩, ?_⟩
      · rw [hdrop, hd]
        simp
      · rw [← Except.ok.inj h]
        simp
        omega
    · rw [if_neg h48] at h
      by_cases hdig : isDigit d = true
      · rw [if_pos hdig] at h
        obtain ⟨ds, rest, hrun, hds, -, hend⟩ := runEnd_sound isDigit text (i + sign.length)
        rw [hd] at hrun
        cases ds with
        | nil =>
          -- the run is not empty
          have hstop : runEnd isDigit text (i + sign.length) = i + sign.length + _ := hend
          rw [runEnd, hd, takeWhile_cons, if_pos hdig] at hstop
          simp at hstop
        | cons d' ds =>
          obtain ⟨rfl, htail⟩ := List.cons.inj hrun
          refine ⟨sign ++ d :: ds, rest, ?_, ⟨sign, d :: ds, rfl, hsign,
            .inr ⟨d, ds, rfl, hdig, h48, fun b hb => hds b (mem_cons_of_mem _ hb)⟩⟩, ?_⟩
          · rw [hdrop, hd, htail]
            simp
          · rw [← Except.ok.inj h, digitsEnd, hend]
            simp
            omega
      · rw [if_neg hdig] at h
        cases h

theorem scanFraction_sound (h : scanFraction text i = .ok j) :
    ∃ t rest, text.drop i = t ++ rest ∧ FractionPart t ∧ j = i + t.length := by
  unfold scanFraction at h
  by_cases hb : byteIs text i (· = 46) = true
  · rw [if_pos hb] at h
    obtain ⟨ds, rest, hrun, hds, -, hend⟩ := runEnd_sound isDigit text (i + 1)
    simp only [digitsEnd, hend] at h
    have hget : text[i]? = some 46 := by
      cases hget : text[i]? with
      | none => simp [byteIs, hget] at hb
      | some b => simpa [byteIs, hget] using hb
    by_cases h0 : i + 1 + ds.length = i + 1
    · rw [if_pos h0] at h
      cases h
    · rw [if_neg h0] at h
      refine ⟨46 :: ds, rest, ?_, .inr ⟨ds, rfl, ?_, hds⟩, ?_⟩
      · rw [drop_of_get hget, hrun]
        rfl
      · rintro rfl
        exact h0 rfl
      · rw [← Except.ok.inj h, length_cons]
        omega
  · rw [if_neg hb] at h
    exact ⟨[], text.drop i, rfl, .inl rfl, (Except.ok.inj h).symm⟩

theorem scanExponent_sound (h : scanExponent text i = .ok j) :
    ∃ t rest, text.drop i = t ++ rest ∧ ExponentPart t ∧ j = i + t.length := by
  unfold scanExponent at h
  by_cases hb : byteIs text i (fun byte => byte = 101 || byte = 69) = true
  · rw [if_pos hb] at h
    obtain ⟨e, hget, hletter⟩ : ∃ e, text[i]? = some e ∧ (e = 101 ∨ e = 69) := by
      cases hget : text[i]? with
      | none => simp [byteIs, hget] at hb
      | some b => exact ⟨b, rfl, by simpa [byteIs, hget] using hb⟩
    obtain ⟨sign, hsign, hdrop, hstart⟩ : ∃ sign, (sign = [] ∨ sign = [43] ∨ sign = [45]) ∧
        text.drop (i + 1) = sign ++ text.drop (i + 1 + sign.length) ∧
        (if byteIs text (i + 1) (fun byte => byte = 43 || byte = 45) then i + 1 + 1 else i + 1)
          = i + 1 + sign.length := by
      cases hget : text[i + 1]? with
      | none => exact ⟨[], .inl rfl, rfl, by simp [byteIs, hget]⟩
      | some b =>
        by_cases h43 : b = 43
        · subst h43
          exact ⟨[43], .inr (.inl rfl), by simpa using drop_of_get hget, by simp [byteIs, hget]⟩
        · by_cases h45 : b = 45
          · subst h45
            exact ⟨[45], .inr (.inr rfl), by simpa using drop_of_get hget, by simp [byteIs, hget]⟩
          · exact ⟨[], .inl rfl, rfl, by simp [byteIs, hget, h43, h45]⟩
    obtain ⟨ds, rest, hrun, hds, -, hend⟩ := runEnd_sound isDigit text (i + 1 + sign.length)
    simp only [hstart, digitsEnd, hend] at h
    by_cases h0 : i + 1 + sign.length + ds.length = i + 1 + sign.length
    · rw [if_pos h0] at h
      cases h
    · rw [if_neg h0] at h
      refine ⟨e :: (sign ++ ds), rest, ?_, .inr ⟨e, sign, ds, rfl, hletter, hsign, ?_, hds⟩, ?_⟩
      · rw [drop_of_get hget, hdrop, hrun]
        simp
      · rintro rfl
        exact h0 rfl
      · rw [← Except.ok.inj h, length_cons, length_append]
        omega
  · rw [if_neg hb] at h
    exact ⟨[], text.drop i, rfl, .inl rfl, (Except.ok.inj h).symm⟩

theorem then_ok {ε α β : Type} {x : Except ε α} {f : α → Except ε β} {b : β}
    (h : (x >>= f) = .ok b) : ∃ a, x = .ok a ∧ f a = .ok b := by
  cases x with
  | ok a => exact ⟨a, rfl, h⟩
  | error e => cases h

theorem scanNumber_sound (h : scanNumber text i = .ok j) :
    ∃ t rest, text.drop i = t ++ rest ∧ Numeral t ∧ j = i + t.length := by
  have hchain : ((scanInteger text i >>= scanFraction text) >>= scanExponent text) = .ok j := by
    unfold scanNumber at h
    split at h
    · rename_i index heq
      rw [heq]
      exact congrArg _ (Except.ok.inj h)
    · unfold fail at h
      split at h
      · cases h
      · cases h
  obtain ⟨b, hab, he⟩ := then_ok hchain
  obtain ⟨a, hi, hf⟩ := then_ok hab
  obtain ⟨t₁, r₁, hd₁, hp₁, rfl⟩ := scanInteger_sound hi
  obtain ⟨t₂, r₂, hd₂, hp₂, rfl⟩ := scanFraction_sound hf
  obtain ⟨t₃, r₃, hd₃, hp₃, rfl⟩ := scanExponent_sound he
  refine ⟨t₁ ++ (t₂ ++ t₃), r₃, ?_, ⟨t₁, t₂, t₃, rfl, hp₁, hp₂, hp₃⟩, ?_⟩
  · rw [hd₁, ← drop_add hd₁, hd₂, ← drop_add hd₂, hd₃]
    simp
  · simp only [length_append]
    omega

end Tsuzuri.Json
