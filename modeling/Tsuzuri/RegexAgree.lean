import Tsuzuri.RegexReplaceSound

/-!
# The two encodings agree

A search in the UTF-8 form of a text gives the offsets of the indices that the search in its UTF-16 form finds, and
replacing and splitting give the forms of the same texts.
-/

namespace Tsuzuri.Regex

open List
open FaultVec (ok_bind)

open FaultVec (Exec force)
open Json (Str)
open Unicode (Scalar encode8 encode16)

/-! ## The encodings -/

theorem ascii_encode16 : Ascii encode16 UInt16.toNat := by
  refine ⟨encode16_ne_nil, fun c hc => ?_, fun c hc hlow u hu => ?_⟩
  · rw [encode16, if_pos (by omega), map_singleton, UInt16.toNat_ofNat']
    congr 1
    omega
  · have hlt := hc.lt
    unfold encode16 at hu
    split at hu
    · obtain rfl := mem_singleton.mp hu
      rw [UInt16.toNat_ofNat']
      omega
    · simp only [mem_cons, not_mem_nil, or_false] at hu
      rcases hu with rfl | rfl
      · rw [UInt16.toNat_ofNat']
        omega
      · rw [UInt16.toNat_ofNat']
        omega

theorem ascii_encode8 : Ascii encode8 id :=
  ⟨Unicode.encode8_ne_nil, fun c hc => by rw [Unicode.encode8_ascii hc]; rfl,
    fun c _ hc u hu => Unicode.encode8_high hc u hu⟩

variable {text : List Nat}

theorem holds_utf16 (h : ∀ c ∈ text, Scalar c) : Holds encode16 text (.utf16 (text.flatMap encode16)) := by
  refine ⟨decodes_encode16 h, ?_, encode16_ne_nil⟩
  simp only [Input.boundary, Int.lt_irrefl, decide_false, Bool.false_and, Bool.not_false, Bool.and_true,
    Bool.and_eq_true, decide_eq_true_eq]
  omega

theorem isContinuation_offset (h : ∀ c ∈ text, Scalar c) {i : Nat} (hi : i < text.length) :
    Input.isContinuation (text.flatMap encode8) (offset encode8 text i) = false := by
  have hsplit : text = text.take i ++ text[i] :: text.drop (i + 1) := by
    rw [← drop_eq_getElem_cons hi, take_append_drop]
  conv_lhs =>
    rw [hsplit, flatMap_append, flatMap_cons]
  rw [offset, ← hsplit]
  exact isContinuation_scalar _ (h _ (getElem_mem hi)) _

theorem holds_utf8 (h : ∀ c ∈ text, Scalar c) : Holds encode8 text (.utf8 (text.flatMap encode8)) := by
  refine ⟨decodes_encode8 h, ?_, Unicode.encode8_ne_nil⟩
  cases text with
  | nil => rfl
  | cons c text =>
    have hlead := isContinuation_offset h (i := 0) (by simp)
    rw [offset_zero] at hlead
    simp only [Input.boundary, Int.toNat_zero, hlead, Bool.not_false, Bool.or_true, Bool.and_true,
      Bool.and_eq_true, decide_eq_true_eq]
    omega

theorem slices16 (text : List Nat) : Slices encode16 text (slice16 (text.flatMap encode16)) := by
  intro i j hij hj
  have hmono := @offset_mono _ encode16 text i j hij
  have hle := @offset_le _ encode16 text j
  rw [slice16, if_neg (by omega), slice, Int.toNat_natCast, Int.toNat_natCast, slice_encoded hij]

theorem valid_encode8 (h : ∀ c ∈ text, Scalar c) : Unicode.Valid (text.flatMap encode8) := by
  induction text with
  | nil => exact .nil
  | cons c text ih =>
    rw [flatMap_cons]
    exact .cons (h c mem_cons_self) (ih fun d hd => h d (mem_cons_of_mem c hd))

theorem fromBytes_encode8 (h : ∀ c ∈ text, Scalar c) : fromBytes (text.flatMap encode8) = some (text.flatMap encode8) :=
  if_pos (Unicode.valid_iff.mpr (valid_encode8 h))

theorem slices8 (h : ∀ c ∈ text, Scalar c) : Slices encode8 text (slice8 (text.flatMap encode8)) := by
  intro i j hij hj
  have hmono := @offset_mono _ encode8 text i j hij
  have hle := @offset_le _ encode8 text j
  have hinside : ∀ k : Nat, k ≤ text.length → ((offset encode8 text k : Int) ≠ 0 &&
      (offset encode8 text k : Int) ≠ (text.flatMap encode8).length &&
      Input.isContinuation (text.flatMap encode8) (offset encode8 text k : Int).toNat) = false := by
    intro k hk
    rw [Int.toNat_natCast]
    rcases Nat.lt_or_eq_of_le hk with hlt | rfl
    · rw [isContinuation_offset h hlt, Bool.and_false]
    · rw [offset_length]
      simp
  have hpiece : ∀ c ∈ (text.drop i).take (j - i), Scalar c :=
    fun c hc => h c (mem_of_mem_drop (mem_of_mem_take hc))
  simp only [slice8, hinside i (by omega), hinside j hj]
  rw [if_neg (by omega), if_neg (by simp), Int.toNat_natCast, Int.toNat_natCast, slice_encoded hij,
    fromBytes_encode8 hpiece]

/-! ## Agreement -/

theorem exists_template {replacement : List Nat} (h : ∀ c ∈ replacement, Scalar c) (groups : Nat) :
    ∃ parts : List Part, (∀ part ∈ parts, part.Inside replacement.length) ∧
      template (.utf16 (replacement.flatMap encode16)) groups = .ok (parts.map (Part.encoded encode16 replacement)) ∧
      template (.utf8 (replacement.flatMap encode8)) groups = .ok (parts.map (Part.encoded encode8 replacement)) := by
  obtain ⟨parts, hrun, hinside⟩ := @templateFrom_inside replacement groups (replacement.length + 1) 0 0
    [] (Nat.zero_le _) (by omega) (by simp)
  refine ⟨parts, hinside, ?_, ?_⟩
  · have := templateFrom_encoded ascii_encode16 h groups _ _ _ _ _ hrun
      ((unitsOf encode16 UInt16.toNat replacement).length + 1) (by omega)
    rwa [offset_zero, map_nil] at this
  · have := templateFrom_encoded ascii_encode8 h groups _ _ _ _ _ hrun
      ((unitsOf encode8 id replacement).length + 1) (by omega)
    rw [offset_zero, map_nil, unitsOf, map_id] at this
    exact this

/-- Searching, splitting and replacing in the UTF-8 form of a text give what they give in its UTF-16
form: the spans of the same indices, and the forms of the same texts. -/
theorem utf8_agrees {data : UnicodeData} {pattern : Str} {re : Program}
    (h : compile data pattern = .ok re) {text replacement : List Nat}
    (htext : ∀ c ∈ text, Scalar c) (hreplacement : ∀ c ∈ replacement, Scalar c) :
    (∃ span : Option (Int × Int), (∀ s ∈ span, InText text s) ∧
      find re (text.flatMap encode16) = .ok (span.map (unitSpan encode16 text)) ∧
      findUtf8 re (text.flatMap encode8) = .ok (span.map (unitSpan encode8 text))) ∧
    (∃ spans : List (Int × Int), (∀ s ∈ spans, InText text s) ∧
      findAll re (text.flatMap encode16) = .ok (spans.map (unitSpan encode16 text)) ∧
      findAllUtf8 re (text.flatMap encode8) = .ok (spans.map (unitSpan encode8 text))) ∧
    (∃ groups : Option (List (Int × Int)), (∀ spans ∈ groups, ∀ s ∈ spans, InText text s) ∧
      captures re (text.flatMap encode16) = .ok (groups.map (List.map (unitSpan encode16 text))) ∧
      capturesUtf8 re (text.flatMap encode8) = .ok (groups.map (List.map (unitSpan encode8 text)))) ∧
    (∃ pieces : List (List Nat), split re (text.flatMap encode16) = .ok (pieces.map (List.flatMap encode16)) ∧
      splitUtf8 re (text.flatMap encode8) = .ok (pieces.map (List.flatMap encode8))) ∧
    ∃ output : List Nat, replaceAll re (replacement.flatMap encode16) (text.flatMap encode16) =
        .ok (output.flatMap encode16) ∧
      replaceAllUtf8 re (replacement.flatMap encode8) (text.flatMap encode8) = .ok (output.flatMap encode8) := by
  have hl := compile_linked h
  have hf := compile_framed h
  have h16 := holds_utf16 htext
  have h8 := holds_utf8 htext
  refine ⟨?_, ?_, ?_, ?_, ?_⟩
  · refine ⟨(firstMatch re 2 text 0).map fun m => slotSpan m 0, ?_, ?_, ?_⟩
    · intro s hs
      obtain ⟨m, hm, rfl⟩ := Option.map_eq_some_iff.mp hs
      obtain ⟨a, b, hspan⟩ := firstMatch_spanned hf (Nat.le_refl 2) (Nat.zero_le _) hm
      exact inText_slotSpan hspan.within 0
    · rw [Option.map_map]
      exact locate_ok h16 hl hf
    · rw [Option.map_map]
      exact locate_ok h8 hl hf
  · obtain ⟨ms, hchain, hrun⟩ := exists_allMatches hl hf (Nat.le_refl 2) text
    obtain ⟨found, hin, hspans⟩ := exists_spans ms 0 hchain
    refine ⟨found, hin, ?_, ?_⟩
    · rw [findAll, hrun h16, ok_bind, hspans]
    · rw [findAllUtf8, hrun h8, ok_bind, hspans]
  · refine ⟨(firstMatch re (2 * (re.groups + 1)) text 0).map fun m =>
      (List.range (re.groups + 1)).map (slotSpan m), ?_, ?_, ?_⟩
    · intro spans hspans s hs
      obtain ⟨m, hm, rfl⟩ := Option.map_eq_some_iff.mp hspans
      obtain ⟨a, b, hspan⟩ := firstMatch_spanned hf (by omega) (Nat.zero_le _) hm
      obtain ⟨g, _, rfl⟩ := mem_map.mp hs
      exact inText_slotSpan hspan.within g
    · rw [Option.map_map]
      simp only [Function.comp_def, map_map]
      exact spansOf_ok h16 hl hf
    · rw [Option.map_map]
      simp only [Function.comp_def, map_map]
      exact spansOf_ok h8 hl hf
  · obtain ⟨ms, hchain, hrun⟩ := exists_allMatches hl hf (Nat.le_refl 2) text
    refine ⟨pieces text ms 0, ?_, ?_⟩
    · have := splitFrom_encoded (slices16 text) ms 0 (Nat.zero_le _) hchain
      rw [offset_zero, offset_length] at this
      rw [split, hrun h16, ok_bind]
      exact this
    · have := splitFrom_encoded (slices8 htext) ms 0 (Nat.zero_le _) hchain
      rw [offset_zero, offset_length] at this
      rw [splitUtf8, hrun h8, ok_bind]
      exact this
  · obtain ⟨ms, hchain, hrun⟩ := @exists_allMatches re (2 * (re.groups + 1)) hl hf (by omega) text
    obtain ⟨parts, hinside, ht16, ht8⟩ := exists_template hreplacement re.groups
    obtain ⟨output, hout, hdrawn⟩ := exists_replaceFrom hinside ms 0 hchain
    have hscalars : ∀ c ∈ output, Scalar c := fun c hc =>
      (hdrawn c hc).elim (hreplacement c) (htext c)
    refine ⟨output, ?_, ?_⟩
    · have := replaceFrom_encoded encode16_ne_nil ms _ _ hout
      rw [relocate_natCast, offset_zero] at this
      rw [replaceAll, hrun h16, ok_bind, ht16, ok_bind]
      exact this
    · have := replaceFrom_encoded Unicode.encode8_ne_nil ms _ _ hout
      rw [relocate_natCast, offset_zero] at this
      rw [replaceAllUtf8, hrun h8, ok_bind, ht8, ok_bind]
      have hforce := congrArg force (fromBytes_encode8 hscalars)
      simp only [Nat.cast_zero] at this
      rw [this, ok_bind, hforce]
      rfl

theorem utf8_agrees_star : ∃ (data : UnicodeData) (re : Program), compile data [97, 42] = .ok re ∧ ∃ output : List Nat,
        replaceAll re ([36, 945].flatMap encode16) ([97, 128512, 98].flatMap encode16) = .ok (output.flatMap encode16) ∧
        replaceAllUtf8 re ([36, 945].flatMap encode8) ([97, 128512, 98].flatMap encode8) =
          .ok (output.flatMap encode8) := by
  obtain ⟨data, re, h⟩ : ∃ (data : UnicodeData) (re : Program), compile data [97, 42] = .ok re :=
    ⟨⟨fun _ => none, [], by simp, by simp⟩,
      { code := [.save 0, .split 2 4, .char 97, .jump 1, .save 1, .match_], classes := [], groups := 0,
        anchored := false },
      rfl⟩
  exact ⟨data, re, h, (utf8_agrees h (by decide) (by decide)).2.2.2.2⟩

end Tsuzuri.Regex
