import Tsuzuri.RegexMatches
import Tsuzuri.RegexReplace

/-!
# Replacing and splitting in an encoding

The loops over the units of an encoding do what they do over the scalars: every offset they meet is one of an index.
-/

namespace Tsuzuri.Regex

open List
open FaultVec (bind_ok force_some get_eq_some ok_bind)

open FaultVec (Exec force)
open Unicode (Scalar)

/-- An encoding whose units tell ASCII characters from other scalars. -/
structure Ascii {α : Type} (encode : Nat → List α) (unit : α → Nat) : Prop where
  ne_nil : ∀ c, encode c ≠ []
  low : ∀ c, c < 128 → (encode c).map unit = [c]
  high : ∀ c, Scalar c → 128 ≤ c → ∀ u ∈ encode c, 128 ≤ unit u

def Part.encoded {α : Type} (encode : Nat → List α) (text : List Nat) : Part → Part
  | .copy first last => .copy (offset encode text first) (offset encode text last)
  | .group number => .group number

def Part.Inside (length : Nat) : Part → Prop
  | .copy _ last => last ≤ length
  | .group _ => True

section Template

variable {α : Type} {encode : Nat → List α} {unit : α → Nat} {text : List Nat}

def unitsOf (encode : Nat → List α) (unit : α → Nat) (text : List Nat) : List Nat :=
  (text.flatMap encode).map unit

theorem length_unitsOf : (unitsOf encode unit text).length = offset encode text text.length := by
  rw [unitsOf, length_map, offset_length]

theorem unitsOf_at {i c k : Nat} (hget : text[i]? = some c) (hk : k < (encode c).length) :
    (unitsOf encode unit text)[offset encode text i + k]? = ((encode c)[k]?).map unit := by
  obtain ⟨hi, hc⟩ := List.getElem?_eq_some_iff.mp hget
  have hsplit : text = text.take i ++ c :: text.drop (i + 1) := by
    rw [← hc, ← drop_eq_getElem_cons hi, take_append_drop]
  rw [unitsOf, getElem?_map]
  conv_lhs =>
    rw [hsplit, flatMap_append, flatMap_cons]
  rw [offset, ← hsplit, getElem?_append_right (by omega), Nat.add_sub_cancel_left, getElem?_append_left hk]

theorem unitsOf_end {i : Nat} (h : text.length ≤ i) : (unitsOf encode unit text)[offset encode text i]? = none := by
  rw [getElem?_eq_none]
  rw [length_unitsOf]
  exact offset_mono h

variable (ha : Ascii encode unit) (htext : ∀ c ∈ text, Scalar c)

include ha htext

variable {i c k x : Nat}

theorem Ascii.unit_high (hget : text[i]? = some c) (hc : 128 ≤ c) (hk : k < (encode c).length) :
    ∃ u, (unitsOf encode unit text)[offset encode text i + k]? = some u ∧ 128 ≤ u := by
  refine ⟨unit (encode c)[k], ?_, ha.high c (htext c (mem_of_getElem? hget)) hc _ (getElem_mem hk)⟩
  rw [unitsOf_at hget hk, getElem?_eq_getElem hk, Option.map_some]

omit htext in
theorem Ascii.unit_low (hget : text[i]? = some c) (hc : c < 128) :
    (unitsOf encode unit text)[offset encode text i]? = some c ∧
      offset encode text (i + 1) = offset encode text i + 1 := by
  have hunits := ha.low c hc
  have hlength : (encode c).length = 1 := by
    have := congrArg List.length hunits
    simpa using this
  have hat := @unitsOf_at _ encode unit text i c 0 hget (by omega)
  refine ⟨?_, by rw [offset_succ hget, hlength]⟩
  rw [Nat.add_zero, ← getElem?_map, hunits] at hat
  exact hat

theorem Ascii.unit_iff (i : Nat) (hx : x < 128) :
    (unitsOf encode unit text)[offset encode text i]? = some x ↔ text[i]? = some x := by
  constructor
  · intro h
    cases hget : text[i]? with
    | none =>
      rw [unitsOf_end (getElem?_eq_none_iff.mp hget)] at h
      cases h
    | some c =>
      rcases Nat.lt_or_ge c 128 with hc | hc
      · rw [(ha.unit_low hget hc).1] at h
        exact h
      · obtain ⟨u, hu, hlarge⟩ := ha.unit_high htext hget hc (length_pos_iff.mpr (ha.ne_nil c))
        rw [Nat.add_zero, h] at hu
        cases hu
        omega
  · intro h
    exact (ha.unit_low h hx).1

theorem Ascii.unit_ne (hget : text[i]? = some c) (hk : k < (encode c).length) (hx : x < 128) (hne : c ≠ x) :
    (unitsOf encode unit text)[offset encode text i + k]? ≠ some x := by
  rcases Nat.lt_or_ge c 128 with hc | hc
  · obtain ⟨hunit, hnext⟩ := ha.unit_low hget hc
    rw [offset_succ hget] at hnext
    obtain rfl : k = 0 := by omega
    rw [Nat.add_zero, hunit]
    simpa using hne
  · obtain ⟨u, hu, hlarge⟩ := ha.unit_high htext hget hc hk
    rw [hu]
    simp only [ne_eq, Option.some.injEq]
    omega

theorem groupNumber_encoded (groups : Nat) : ∀ (fuel fuel' i group : Nat),
    text.length < fuel + i → (unitsOf encode unit text).length < fuel' + offset encode text i →
    groupNumber (unitsOf encode unit text) groups fuel' (offset encode text i) group =
      ((groupNumber text groups fuel i group).1, offset encode text (groupNumber text groups fuel i group).2) := by
  intro fuel
  induction fuel with
  | zero =>
    intro fuel' i group hfuel hfuel'
    have := @unitsOf_end _ encode unit text i (by omega)
    cases fuel' <;> simp [groupNumber, this]
  | succ fuel ih =>
    intro fuel' i group hfuel hfuel'
    cases hget : text[i]? with
    | none =>
      have := @unitsOf_end _ encode unit text i (getElem?_eq_none_iff.mp hget)
      cases fuel' <;> simp [groupNumber, this, hget]
    | some c =>
      obtain ⟨hi, _⟩ := List.getElem?_eq_some_iff.mp hget
      have hlt := @offset_lt _ encode text ha.ne_nil i _ hi (Nat.le_refl _)
      rw [← @length_unitsOf _ encode unit text] at hlt
      obtain ⟨fuel', rfl⟩ : ∃ f, fuel' = f + 1 := ⟨fuel' - 1, by omega⟩
      cases hdigit : isDigit c with
      | true =>
        have hc : c < 128 := by
          simp only [isDigit, Bool.and_eq_true, decide_eq_true_eq] at hdigit
          omega
        obtain ⟨hunit, hnext⟩ := ha.unit_low hget hc
        simp only [groupNumber, hget, hunit, hdigit, if_true, ← hnext]
        exact ih fuel' (i + 1) _ (by omega) (by omega)
      | false =>
        obtain ⟨u, hu, hnot⟩ : ∃ u, (unitsOf encode unit text)[offset encode text i]? = some u ∧ isDigit u = false := by
          rcases Nat.lt_or_ge c 128 with hc | hc
          · exact ⟨c, (ha.unit_low hget hc).1, hdigit⟩
          · obtain ⟨u, hu, hlarge⟩ := ha.unit_high htext hget hc (length_pos_iff.mpr (ha.ne_nil c))
            refine ⟨u, hu, ?_⟩
            simp only [isDigit, Bool.and_eq_false_iff, decide_eq_false_iff_not]
            omega
        simp [groupNumber, hget, hu, hdigit, hnot]

omit ha htext in
theorem groupNumber_le (groups : Nat) : ∀ fuel i group : Nat, i ≤ text.length →
    i ≤ (groupNumber text groups fuel i group).2 ∧ (groupNumber text groups fuel i group).2 ≤ text.length := by
  intro fuel
  induction fuel with
  | zero =>
    intro i group hi
    exact ⟨Nat.le_refl _, hi⟩
  | succ fuel ih =>
    intro i group hi
    cases hget : text[i]? with
    | none => simpa [groupNumber, hget] using hi
    | some c =>
      obtain ⟨hlt, _⟩ := List.getElem?_eq_some_iff.mp hget
      cases hdigit : isDigit c with
      | true =>
        have := ih (i + 1) (if groups < group then group else group * 10 + c - 48) hlt
        simp only [groupNumber, hget, hdigit, if_true]
        omega
      | false => simpa [groupNumber, hget, hdigit] using hi

/-! ## The parts of a replacement -/

omit ha htext in
theorem templateFrom_skip {units : List Nat} (groups literal : Nat) (parts : List Part) :
    ∀ (k fuel pos : Nat), pos + k ≤ units.length → units.length < fuel + pos → (∀ j < k, units[pos + j]? ≠ some 36) →
      templateFrom units groups fuel literal pos parts =
        templateFrom units groups (fuel - k) literal (pos + k) parts := by
  intro k
  induction k with
  | zero =>
    intro fuel pos _ _ _
    rfl
  | succ k ih =>
    intro fuel pos hle hfuel hunits
    obtain ⟨fuel, rfl⟩ : ∃ f, fuel = f + 1 := ⟨fuel - 1, by omega⟩
    have hfirst := hunits 0 (Nat.succ_pos k)
    rw [Nat.add_zero] at hfirst
    rw [templateFrom, if_pos (by omega), if_neg (fun h => hfirst h.1), if_neg (fun h => hfirst h.1),
      ih fuel (pos + 1) (by omega) (by omega) fun j hj => ?_, Nat.add_sub_add_right]
    · congr 1
      omega
    · have := hunits (j + 1) (by omega)
      rwa [show pos + 1 + j = pos + (j + 1) by omega]

theorem templateFrom_encoded (groups : Nat) : ∀ (fuel literal i : Nat) (parts out : List Part),
    templateFrom text groups fuel literal i parts = .ok out →
    ∀ fuel' : Nat, (unitsOf encode unit text).length < fuel' + offset encode text i →
      templateFrom (unitsOf encode unit text) groups fuel' (offset encode text literal)
          (offset encode text i) (parts.map (Part.encoded encode text)) = .ok (out.map (Part.encoded encode text)) := by
  intro fuel
  induction fuel with
  | zero =>
    intro literal i parts out h
    cases h
  | succ fuel ih =>
    intro literal i parts out h fuel' hfuel'
    rw [templateFrom] at h
    have hlength := @length_unitsOf _ encode unit text
    rcases Nat.lt_or_ge i text.length with hi | hi
    · rw [if_pos hi] at h
      have hget : text[i]? = some text[i] := getElem?_eq_getElem hi
      have hnext := @offset_lt _ encode text ha.ne_nil i (i + 1) (Nat.lt_succ_self i) hi
      have hle := @offset_mono _ encode text _ _ (Nat.succ_le_of_lt hi)
      rw [Nat.succ_eq_add_one] at hle
      by_cases hdollar : text[i]? = some 36
      · obtain ⟨hunit, hone⟩ := ha.unit_low hdollar (by omega)
        obtain ⟨fuel', rfl⟩ : ∃ f, fuel' = f + 1 := ⟨fuel' - 1, by omega⟩
        rw [templateFrom, if_pos (by omega)]
        have hsecond : ∀ x : Nat, x < 128 →
            ((unitsOf encode unit text)[offset encode text i + 1]? = some x ↔ text[i + 1]? = some x) := by
          intro x hx
          rw [← hone]
          exact ha.unit_iff htext (i + 1) hx
        by_cases h36 : text[i + 1]? = some 36
        · have htwo : offset encode text (i + 2) = offset encode text (i + 1) + 1 :=
            (ha.unit_low h36 (by omega)).2
          rw [if_pos ⟨hdollar, h36⟩] at h
          rw [if_pos ⟨hunit, (hsecond 36 (by omega)).mpr h36⟩]
          have := ih _ _ _ _ h fuel' (by omega)
          rw [htwo, hone, map_append] at this
          rw [← hone]
          simpa [Part.encoded, hone] using this
        rw [if_neg (fun h => h36 h.2)] at h
        rw [if_neg (fun h => h36 ((hsecond 36 (by omega)).mp h.2))]
        by_cases h123 : text[i + 1]? = some 123
        · have htwo : offset encode text (i + 2) = offset encode text (i + 1) + 1 :=
            (ha.unit_low h123 (by omega)).2
          obtain ⟨hbound, _⟩ := List.getElem?_eq_some_iff.mp h123
          rw [if_pos ⟨hdollar, h123⟩] at h
          rw [if_pos ⟨hunit, (hsecond 123 (by omega)).mpr h123⟩]
          have hnumber := groupNumber_encoded ha htext groups (text.length + 1)
            ((unitsOf encode unit text).length + 1) (i + 2) 0 (by omega) (by omega)
          have hrange := @groupNumber_le text groups (text.length + 1) (i + 2) 0 hbound
          rw [show offset encode text i + 2 = offset encode text (i + 2) by omega, hnumber]
          cases hn : groupNumber text groups (text.length + 1) (i + 2) 0 with
          | mk group digits =>
            rw [hn] at h hrange
            simp only at h hrange ⊢
            have hmono := @offset_mono _ encode text _ _ hrange.1
            by_cases hclose : i + 2 < digits ∧ text[digits]? = some 125
            · have hthree := (ha.unit_low hclose.2 (by omega)).2
              have hbehind := @offset_lt _ encode text ha.ne_nil _ _ hclose.1 hrange.2
              rw [if_pos hclose] at h
              rw [if_pos ⟨hbehind, (ha.unit_iff htext digits (by omega)).mpr hclose.2⟩, ← hthree]
              have := ih _ _ _ _ h fuel' (by omega)
              rw [map_append] at this
              exact this
            · rw [if_neg hclose] at h
              rw [if_neg, ← hone]
              · exact ih _ _ _ _ h fuel' (by omega)
              · rintro ⟨hlt, hunits⟩
                refine hclose ⟨?_, (ha.unit_iff htext digits (by omega)).mp hunits⟩
                rcases Nat.lt_or_eq_of_le hrange.1 with hdigits | rfl
                · exact hdigits
                · omega
        · rw [if_neg (fun h => h123 h.2)] at h
          rw [if_neg (fun h => h123 ((hsecond 123 (by omega)).mp h.2))]
          have := ih _ _ _ _ h fuel' (by omega)
          rwa [hone] at this
      · -- the units of any other scalar are passed
        rw [if_neg (fun h => hdollar h.1), if_neg (fun h => hdollar h.1)] at h
        have hskip := templateFrom_skip groups (offset encode text literal)
          (parts.map (Part.encoded encode text)) (encode text[i]).length fuel' (offset encode text i)
          (by rw [← offset_succ hget]; omega) hfuel'
          fun j hj => ha.unit_ne htext hget hj (by omega) fun heq => hdollar (heq ▸ hget)
        rw [hskip, ← offset_succ hget]
        rw [offset_succ hget] at hle hnext
        exact ih _ _ _ _ h _ (by rw [offset_succ hget]; omega)
    · rw [if_neg (by omega)] at h
      cases h
      have hend : offset encode text i = (unitsOf encode unit text).length := by
        have := @offset_mono _ encode text _ _ hi
        have := @offset_le _ encode text i
        rw [offset_length] at *
        omega
      obtain ⟨fuel', rfl⟩ : ∃ f, fuel' = f + 1 := ⟨fuel' - 1, by omega⟩
      rw [templateFrom, if_neg (by omega), hlength]
      simp [Part.encoded]

omit ha htext in
theorem templateFrom_inside (groups : Nat) : ∀ (fuel literal i : Nat) (parts : List Part),
    i ≤ text.length → text.length < fuel + i → (∀ part ∈ parts, part.Inside text.length) →
      ∃ out, templateFrom text groups fuel literal i parts = .ok out ∧ ∀ part ∈ out, part.Inside text.length := by
  have hadd : ∀ {parts : List Part} {added : List Part}, (∀ part ∈ parts, part.Inside text.length) →
      (∀ part ∈ added, part.Inside text.length) → ∀ part ∈ parts ++ added, part.Inside text.length := by
    intro parts added hparts hadded part hin
    rcases mem_append.mp hin with hin | hin
    · exact hparts part hin
    · exact hadded part hin
  intro fuel
  induction fuel with
  | zero =>
    intro literal i parts hi hfuel _
    omega
  | succ fuel ih =>
    intro literal i parts _ hfuel hparts
    rw [templateFrom]
    split
    · rename_i hi
      split
      · rename_i hdollar
        obtain ⟨hnext, _⟩ := List.getElem?_eq_some_iff.mp hdollar.2
        exact ih _ _ _ (by omega) (by omega) (hadd hparts (by simp [Part.Inside]; omega))
      split
      · rename_i hbrace
        obtain ⟨hnext, _⟩ := List.getElem?_eq_some_iff.mp hbrace.2
        have hrange := @groupNumber_le text groups (text.length + 1) (i + 2) 0 hnext
        cases hn : groupNumber text groups (text.length + 1) (i + 2) 0 with
        | mk group digits =>
          rw [hn] at hrange
          simp only at hrange ⊢
          split
          · rename_i hclose
            obtain ⟨hdigits, _⟩ := List.getElem?_eq_some_iff.mp hclose.2
            exact ih _ _ _ (by omega) (by omega) (hadd hparts (by simp [Part.Inside]; omega))
          · exact ih _ _ _ (by omega) (by omega) hparts
      · exact ih _ _ _ (by omega) (by omega) hparts
    · exact ⟨_, rfl, hadd hparts (by simp [Part.Inside])⟩

end Template

/-! ## Putting a result together -/

section Replace

variable {α : Type} {encode : Nat → List α} {text replacement : List Nat}
variable {out : List Nat} {m : Slots} {re : Program} {part : Part} {parts : List Part} {start a b slots : Nat}

theorem copyRange_encoded (henc : ∀ c, encode c ≠ []) {first last : Int} (h : copyRange text first last = .ok out) :
    copyRange (text.flatMap encode) (relocate encode text first) (relocate encode text last) =
      .ok (out.flatMap encode) := by
  unfold copyRange at h ⊢
  split at h
  · rename_i hle
    cases h
    rw [if_pos (relocate_mono hle)]
    rfl
  split at h
  · rename_i hlt hbounds
    cases h
    have hless := relocate_lt henc (Int.not_le.mp hlt) hbounds.2
    have hfirst : relocate encode text first = offset encode text first.toNat := by
      rw [relocate, if_neg (by omega)]
    have hlast : relocate encode text last = offset encode text last.toNat := by
      rw [relocate, if_neg (by omega)]
    have hbelow := @offset_le _ encode text last.toNat
    rw [if_neg (by omega), if_pos (by omega), hfirst, hlast, Int.toNat_natCast]
    rw [show ((offset encode text last.toNat : Int) - offset encode text first.toNat).toNat =
        offset encode text last.toNat - offset encode text first.toNat by omega,
      slice_encoded (by omega), show last.toNat - first.toNat = (last - first).toNat by omega]
  · cases h

theorem exists_copyRange {first last : Int} (h : last ≤ first ∨ 0 ≤ first ∧ last ≤ text.length) :
    ∃ out, copyRange text first last = .ok out ∧ ∀ c ∈ out, c ∈ text := by
  unfold copyRange
  split
  · exact ⟨[], rfl, by simp⟩
  · rw [if_pos (by omega)]
    exact ⟨_, rfl, fun c hc => mem_of_mem_drop (mem_of_mem_take hc)⟩

theorem index_map {β γ : Type} (f : β → γ) {xs : List β} {i : Int} {x : β}
    (h : FaultVec.index xs i = .ok x) : FaultVec.index (xs.map f) i = .ok (f x) := by
  unfold FaultVec.index at h
  split at h
  · rename_i y hy
    cases h
    obtain ⟨n, rfl, hn⟩ := get_eq_some.mp hy
    apply index_getElem
    rw [getElem?_map, hn, Option.map_some]
  · cases h

theorem groupSpan_encoded {group which : Nat} {x : Int} (h : groupSpan m group which = .ok x) :
    groupSpan (m.map (relocate encode text)) group which = .ok (relocate encode text x) := by
  obtain ⟨first, hfirst, h⟩ := bind_ok.mp h
  obtain ⟨last, hlast, h⟩ := bind_ok.mp h
  cases h
  rw [groupSpan, index_map _ hfirst, ok_bind, index_map _ hlast, ok_bind]
  simp only [relocate_neg_iff]
  split
  · rfl
  · split <;> rfl

theorem replacePart_encoded (henc : ∀ c, encode c ≠ []) (h : replacePart re replacement text m part = .ok out) :
    replacePart re (replacement.flatMap encode) (text.flatMap encode) (m.map (relocate encode text))
      (part.encoded encode replacement) = .ok (out.flatMap encode) := by
  cases part with
  | copy first last =>
    have := copyRange_encoded henc h
    rwa [relocate_natCast, relocate_natCast] at this
  | group number =>
    simp only [replacePart, Part.encoded] at h ⊢
    split at h
    · rename_i hnumber
      obtain ⟨first, hfirst, h⟩ := bind_ok.mp h
      have hsign := @relocate_neg_iff _ encode text first
      rw [if_pos hnumber, groupSpan_encoded hfirst, ok_bind]
      split at h
      · obtain ⟨last, hlast, h⟩ := bind_ok.mp h
        rw [if_pos (by omega), groupSpan_encoded hlast, ok_bind]
        exact copyRange_encoded henc h
      · cases h
        rw [if_neg (by omega)]
        rfl
    · rename_i hnumber
      cases h
      rw [if_neg hnumber]
      rfl

theorem replaceParts_encoded (henc : ∀ c, encode c ≠ []) :
    ∀ (parts : List Part) (out : List Nat), replaceParts re replacement text m parts = .ok out →
      replaceParts re (replacement.flatMap encode) (text.flatMap encode)
        (m.map (relocate encode text)) (parts.map (Part.encoded encode replacement)) = .ok (out.flatMap encode) := by
  intro parts
  induction parts with
  | nil =>
    intro out h
    cases h
    rfl
  | cons part parts ih =>
    intro out h
    obtain ⟨first, hfirst, h⟩ := bind_ok.mp h
    obtain ⟨rest, hrest, h⟩ := bind_ok.mp h
    cases h
    rw [map_cons, replaceParts, replacePart_encoded henc hfirst, ok_bind, ih rest hrest, ok_bind, flatMap_append]

theorem replaceFrom_encoded (henc : ∀ c, encode c ≠ []) : ∀ (ms : List Slots) (start : Int) (out : List Nat),
      replaceFrom re replacement text parts ms start = .ok out →
      replaceFrom re (replacement.flatMap encode) (text.flatMap encode)
        (parts.map (Part.encoded encode replacement)) (ms.map (List.map (relocate encode text)))
        (relocate encode text start) = .ok (out.flatMap encode) := by
  intro ms
  induction ms with
  | nil =>
    intro start out h
    have := copyRange_encoded henc h
    rwa [relocate_natCast, offset_length] at this
  | cons m ms ih =>
    intro start out h
    obtain ⟨first, hfirst, h⟩ := bind_ok.mp h
    obtain ⟨before, hbefore, h⟩ := bind_ok.mp h
    obtain ⟨replaced, hreplaced, h⟩ := bind_ok.mp h
    obtain ⟨last, hlast, h⟩ := bind_ok.mp h
    obtain ⟨rest, hrest, h⟩ := bind_ok.mp h
    cases h
    rw [map_cons, replaceFrom, index_map _ hfirst, ok_bind,
      copyRange_encoded henc hbefore, ok_bind, replaceParts_encoded henc parts _ hreplaced,
      ok_bind, index_map _ hlast, ok_bind, ih last rest hrest, ok_bind,
      flatMap_append, flatMap_append]

/-! ## Results at indices -/

def Drawn (replacement text out : List Nat) : Prop := ∀ c ∈ out, c ∈ replacement ∨ c ∈ text

theorem Drawn.append {rest : List Nat} (h : Drawn replacement text out)
    (hrest : Drawn replacement text rest) : Drawn replacement text (out ++ rest) := by
  intro c hc
  rcases mem_append.mp hc with hc | hc
  · exact h c hc
  · exact hrest c hc

theorem exists_groupSpan {re : Program} {start a b number which : Nat} {m : Slots}
    (h : Spanned (2 * (re.groups + 1)) start text.length m a b) (hnumber : number ≤ re.groups) :
    ∃ x, groupSpan m number which = .ok x ∧ -1 ≤ x ∧ x ≤ text.length := by
  have hlength := h.length
  obtain ⟨first, hfirst⟩ : ∃ x, m[2 * number]? = some x := ⟨_, getElem?_eq_getElem (by omega)⟩
  obtain ⟨last, hlast⟩ : ∃ x, m[2 * number + 1]? = some x := ⟨_, getElem?_eq_getElem (by omega)⟩
  have hf := h.within first (mem_of_getElem? hfirst)
  have hl := h.within last (mem_of_getElem? hlast)
  refine ⟨_, by rw [groupSpan, index_getElem hfirst, ok_bind, index_getElem hlast, ok_bind], ?_⟩
  split
  · omega
  · split <;> omega

theorem exists_replacePart (h : Spanned (2 * (re.groups + 1)) start text.length m a b)
    (hpart : part.Inside replacement.length) :
    ∃ out, replacePart re replacement text m part = .ok out ∧ Drawn replacement text out := by
  cases part with
  | copy first last =>
    have hlast : last ≤ replacement.length := hpart
    obtain ⟨out, hout, hmem⟩ := @exists_copyRange replacement first last (.inr (by omega))
    exact ⟨out, hout, fun c hc => .inl (hmem c hc)⟩
  | group number =>
    simp only [replacePart]
    split
    · rename_i hnumber
      obtain ⟨first, hfirst, _, _⟩ := @exists_groupSpan text re start a b number 0 m h hnumber
      obtain ⟨last, hlast, _, hbelow⟩ := @exists_groupSpan text re start a b number 1 m h hnumber
      rw [hfirst, ok_bind]
      split
      · rename_i hpos
        rw [hlast, ok_bind]
        obtain ⟨out, hout, hmem⟩ := @exists_copyRange text first last (.inr ⟨hpos, hbelow⟩)
        exact ⟨out, hout, fun c hc => .inr (hmem c hc)⟩
      · exact ⟨[], rfl, by simp [Drawn]⟩
    · exact ⟨[], rfl, by simp [Drawn]⟩

theorem exists_replaceParts (h : Spanned (2 * (re.groups + 1)) start text.length m a b) : ∀ parts : List Part,
      (∀ part ∈ parts, part.Inside replacement.length) →
        ∃ out, replaceParts re replacement text m parts = .ok out ∧ Drawn replacement text out := by
  intro parts
  induction parts with
  | nil =>
    intro _
    exact ⟨[], rfl, by simp [Drawn]⟩
  | cons part parts ih =>
    intro hparts
    obtain ⟨first, hfirst, hdrawn⟩ := exists_replacePart h (hparts part mem_cons_self)
    obtain ⟨rest, hrest, hdrawn'⟩ := ih fun p hp => hparts p (mem_cons_of_mem part hp)
    refine ⟨first ++ rest, ?_, hdrawn.append hdrawn'⟩
    rw [replaceParts, hfirst, ok_bind, hrest, ok_bind]

theorem Spanned.indices {last : Nat} (h : Spanned slots start last m a b) :
    FaultVec.index m 0 = .ok (a : Int) ∧ FaultVec.index m 1 = .ok (b : Int) :=
  ⟨index_getElem (i := 0) h.first, index_getElem (i := 1) h.second⟩

theorem exists_replaceFrom (hparts : ∀ part ∈ parts, part.Inside replacement.length) :
    ∀ (ms : List Slots) (start : Nat), Chain (2 * (re.groups + 1)) text.length start ms →
        ∃ out, replaceFrom re replacement text parts ms start = .ok out ∧ Drawn replacement text out := by
  intro ms
  induction ms with
  | nil =>
    intro start _
    obtain ⟨out, hout, hmem⟩ := @exists_copyRange text start text.length (.inr (by omega))
    exact ⟨out, hout, fun c hc => .inr (hmem c hc)⟩
  | cons m ms ih =>
    intro start hchain
    obtain ⟨a, b, hspan, hrest⟩ := hchain
    have hordered := hspan.ordered
    have hbelow := hspan.below
    obtain ⟨hfirst, hlast⟩ := hspan.indices
    obtain ⟨before, hbefore, hmem⟩ := @exists_copyRange text start a (.inr (by omega))
    obtain ⟨replaced, hreplaced, hdrawn⟩ := exists_replaceParts hspan parts hparts
    obtain ⟨rest, hrun, hdrawn'⟩ := ih b hrest
    refine ⟨before ++ replaced ++ rest, ?_, .append (.append (fun c hc => .inr (hmem c hc)) hdrawn) hdrawn'⟩
    rw [replaceFrom, hfirst, ok_bind, hbefore, ok_bind, hreplaced, ok_bind, hlast, ok_bind, hrun, ok_bind]

def pieces (text : List Nat) : List Slots → Nat → List (List Nat)
  | [], start => [text.drop start]
  | m :: ms, start =>
    ((text.drop start).take ((m.getD 0 0).toNat - start)) :: pieces text ms (m.getD 1 0).toNat

def Slices (encode : Nat → List α) (text : List Nat) (slice : Int → Int → Option (List α)) : Prop :=
  ∀ i j : Nat, i ≤ j → j ≤ text.length → slice (offset encode text i) (offset encode text j) =
      some (((text.drop i).take (j - i)).flatMap encode)

theorem splitFrom_encoded {slice : Int → Int → Option (List α)} (hslice : Slices encode text slice) :
    ∀ (ms : List Slots) (start : Nat), start ≤ text.length → Chain slots text.length start ms →
        splitFrom slice (offset encode text text.length) (ms.map (List.map (relocate encode text)))
          (offset encode text start) = .ok ((pieces text ms start).map (List.flatMap encode)) := by
  intro ms
  induction ms with
  | nil =>
    intro start hstart _
    rw [map_nil, splitFrom, hslice start text.length hstart (Nat.le_refl _), take_of_length_le (by rw [length_drop])]
    rfl
  | cons m ms ih =>
    intro start _ hchain
    obtain ⟨a, b, hspan, hrest⟩ := hchain
    have hordered := hspan.ordered
    have hbelow := hspan.below
    rw [map_cons, splitFrom, hspan.index_first, ok_bind,
      hslice start a hspan.from_start (by omega), force_some, ok_bind,
      hspan.index_second, ok_bind, ih b hbelow hrest, ok_bind, pieces, map_cons]
    simp [getD_eq_getElem?_getD, hspan.first, hspan.second]

end Replace

end Tsuzuri.Regex
