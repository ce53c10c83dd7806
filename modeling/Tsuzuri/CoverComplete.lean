import Tsuzuri.CoverMissing
import Tsuzuri.CoverSound

/-!
# Rows cover the samples that their arms accept

A sample that an unguarded arm is sure to accept is covered by a row of the arm (`normalize_normal`), and so for all
arms (`checkArms_coversSamples`).
-/

namespace Tsuzuri

open List

open PatternMatrix (Row Matches MatchesAll RowsTyped TypedAll Covers Escapes Functional matches_wild
  matchesAll_cons matchesAll_nil typedAll_cons typedAll_nil typedAll_append typed_wild)

mutual

theorem intersect_matches {a b : Pat} {v : Value} (ha : Matches Constructed a v)
    (hb : Matches Constructed b v) : ∃ p, intersect a b = some p ∧ Matches Constructed p v := by
  match a, b with
  | .wild, b => exact ⟨b, by simp [intersect], hb⟩
  | .ctor c ls, .wild => exact ⟨.ctor c ls, by simp [intersect], ha⟩
  | .ctor c ls, .ctor c' rs =>
    rw [Matches] at ha hb
    obtain ⟨vs, hvs, hls⟩ := ha
    obtain ⟨us, hus, hrs⟩ := hb
    obtain ⟨rfl, rfl⟩ := constructed_functional _ _ _ _ _ hvs hus
    obtain ⟨ps, hps, hm⟩ := intersectAll_matches hls hrs
    refine ⟨.ctor c ps, by simp [intersect, hps], ?_⟩
    rw [Matches]
    exact ⟨vs, hvs, hm⟩

theorem intersectAll_matches {ls rs : List Pat} {vs : List Value}
    (hl : MatchesAll Constructed ls vs) (hr : MatchesAll Constructed rs vs) :
    ∃ ps, intersectAll ls rs = some ps ∧ MatchesAll Constructed ps vs := by
  match ls, rs, vs with
  | [], [], [] => exact ⟨[], by simp [intersectAll], hl⟩
  | _ :: _, _, [] => simp [MatchesAll] at hl
  | [], _, _ :: _ => simp [MatchesAll] at hl
  | _, [], _ :: _ => simp [MatchesAll] at hr
  | _, _ :: _, [] => simp [MatchesAll] at hr
  | l :: ls, r :: rs, v :: vs =>
    obtain ⟨hl, hls⟩ := matchesAll_cons.mp hl
    obtain ⟨hr, hrs⟩ := matchesAll_cons.mp hr
    obtain ⟨p, hp, hm⟩ := intersect_matches hl hr
    obtain ⟨ps, hps, hms⟩ := intersectAll_matches hls hrs
    exact ⟨p :: ps, by simp [intersectAll, hp, hps], matchesAll_cons.mpr ⟨hm, hms⟩⟩

end

/-! ## Rows cover the samples that their pattern accepts -/

structure Apart (checker : Checker) (literals : List TypedExpr) (constructors : List Constructor) :
    Prop where
  domain : ∀ e ∈ literals, keyed e = true → (checker.resolve e.ty).literalDomain = true
  records : ∀ id args n, literalType checker literals (.record id args) = true → .record id n ∉ constructors

section Payloads

variable (checker : Checker)

mutual

def PayloadsInhabited : CoveragePat → Prop
  | .constructor _ arguments => PayloadsInhabitedAll arguments
  | .or left right | .and left right => PayloadsInhabited left ∧ PayloadsInhabited right
  | .total (some payload) =>
    (∃ σ, PatTyped checker payload σ ∧ FullyInhabited checker.types σ) ∧ PayloadsInhabited payload
  | .wildcard | .literal _ | .total none | .activeCase .. | .opaquePat => True

def PayloadsInhabitedAll : List CoveragePat → Prop
  | [] => True
  | p :: ps => PayloadsInhabited p ∧ PayloadsInhabitedAll ps

end

end Payloads

variable {c : Constructor} {rows : List (Row Constructor)} {pats : List Pat}

section Rows

variable {checker : Checker} {equals : TypedExpr → Value → Prop} {span : Span}
  {literals : List TypedExpr} {constructors : List Constructor}
variable {τ : Ty} {σs : List Ty}

theorem Apart.constructor (h : Apart checker literals constructors)
    (hσ : fieldTypes checker.types c τ = some σs) (hlit : ∀ key, c ≠ .literal key) (hc : c ∈ constructors) :
    literalType checker literals τ.strip = false ∧ sampleFields checker literals c τ = some σs := by
  suffices hτ : literalType checker literals τ.strip = false from
    ⟨hτ, (sampleFields_of_false hlit hτ).trans hσ⟩
  by_contra hne
  have hτ : literalType checker literals τ.strip = true := by simpa using hne
  have hdomain : τ.strip.literalDomain = true := by
    obtain ⟨e, he, hkeyed⟩ := any_eq_true.mp hτ
    obtain ⟨hkeyed, hty⟩ := Bool.and_eq_true_iff.mp hkeyed
    rw [← of_decide_eq_true hty]
    exact h.domain e he hkeyed
  have hfields := fieldsOf_of_fieldTypes hσ hlit
  generalize τ.strip = τ' at hfields hdomain hτ
  cases hfields with
  | record => exact h.records _ _ _ hτ hc
  | _ => simp [Ty.literalDomain] at hdomain

theorem literalType_of_mem {e : TypedExpr} (he : e ∈ literals) (hkeyed : keyed e = true)
    (hτ : checker.resolve e.ty = τ) : literalType checker literals τ = true :=
  any_eq_true.mpr ⟨e, he, by simp [hkeyed, hτ]⟩

/-- The alternatives of a pattern have its type, and cover each sample it accepts. -/
structure Normal (checker : Checker) (equals : TypedExpr → Value → Prop)
    (literals : List TypedExpr) (p : CoveragePat) (τ : Ty) (pats : List Pat) : Prop where
  typed : ∀ pat ∈ pats, pat.Typed (sampleFields checker literals) τ
  covers : ∀ v, Sample checker equals literals v τ → Accepts checker equals p v →
    ∃ pat ∈ pats, Matches Constructed pat v

theorem normal_wild {p : CoveragePat} : Normal checker equals literals p τ [.wild] :=
  ⟨by simp, fun v _ _ => ⟨.wild, mem_singleton_self _, matches_wild v⟩⟩

theorem fullyInhabited_sampleFields (hτ : FullyInhabited checker.types τ)
    (hσ : sampleFields checker literals c τ = some σs) : ∀ σ ∈ σs, FullyInhabited checker.types σ := by
  intro σ hmem
  unfold sampleFields at hσ
  split at hσ
  · split at hσ
    · obtain rfl := Option.some.inj hσ
      cases hmem
    · cases hσ
  · split at hσ
    · cases hσ
    · exact hτ.field hσ hmem

theorem exists_uncovered (hfresh : Unexhausted checker equals literals)
    (hτ : FullyInhabited checker.types τ) (hrows : RowsTyped (sampleFields checker literals) rows [τ])
    {describe : Bool} {w : Witness} {s s' : Search}
    (h : (run checker span rows [.wild] describe).run s = .ok (some w, s')) :
    ∃ v, Sample checker equals literals v τ ∧ ¬ Covers Constructed rows [v]
      ∧ (describe = true → Matches Constructed (witnessPattern w) v) := by
  obtain ⟨w', hescapes, hw⟩ := run_escapes h
  obtain ⟨vs, htyped, hm, hcovers⟩ := hescapes.uncovered constructed_functional
    splits_sampleTyped (fun _ _ _ => fullyInhabited_sampleFields) splits_apply
    (heads_avoid hfresh) (show [τ].length = 1 from rfl) (by simpa using hτ) hrows
  obtain ⟨v, us, hv, hnil, rfl⟩ := List.forall₂_cons_right_iff.mp htyped
  obtain rfl := List.forall₂_nil_right_iff.mp hnil
  refine ⟨v, hv, hcovers, fun hd => ?_⟩
  rw [← hw hd]
  exact (matchesAll_cons.mp hm).1

theorem rowsTyped_map {fields : Constructor → Ty → Option (List Ty)} (h : ∀ pat ∈ pats, pat.Typed fields τ) :
    RowsTyped fields (pats.map ([·])) [τ] := by
  intro row hrow
  obtain ⟨pat, hpat, rfl⟩ := mem_map.mp hrow
  exact typedAll_cons.mpr ⟨h pat hpat, typedAll_nil⟩

theorem covers_map {v : Value} (h : ∃ pat ∈ pats, Matches Constructed pat v) :
    Covers Constructed (pats.map ([·])) [v] := by
  obtain ⟨pat, hpat, hm⟩ := h
  exact ⟨[pat], mem_map.mpr ⟨pat, hpat, rfl⟩, matchesAll_cons.mpr ⟨hm, matchesAll_nil⟩⟩

theorem keyed_cases (checker : Checker) (e : TypedExpr) (n : Nat) :
    (∃ b, unsign e = (false, .bool b) ∧ literal checker e n = (.constructor (.bool b), n))
      ∨ (unsign e = (false, .unit) ∧ literal checker e n = (.constructor .unit, n))
      ∨ (keyed e = true ∧ ∀ c, (literal checker e n).1 = .constructor c → ∃ key, c = .literal key) := by
  rcases literal_cases checker e n with h | h | ⟨text, hu, hl⟩ | ⟨hnumeric, text, -, hl⟩ |
    ⟨hnumeric, -, hl⟩
  · exact .inl h
  · exact .inr (.inl h)
  · refine .inr (.inr ⟨by simp [keyed, hu], fun c hc => ?_⟩)
    rw [hl] at hc
    exact ⟨_, (Literal.constructor.inj hc).symm⟩
  all_goals
    have hkeyed : keyed e = true := by
      unfold keyed
      unfold Numeric at hnumeric
      split <;> simp_all
    refine .inr (.inr ⟨hkeyed, fun c hc => ?_⟩)
    rw [hl] at hc
  · simp only at hc
    split at hc
    · cases hc
    · exact ⟨_, (Literal.constructor.inj hc).symm⟩
  · exact ⟨_, (Literal.constructor.inj hc).symm⟩

theorem normal_literal {e : TypedExpr} {n : Nat} (happart : Apart checker literals constructors)
    (hp : LiteralTyped checker τ.strip e) (he : e ∈ literals)
    (hpats : pats = match (literal checker e n).1 with
      | .constructor c => [.ctor c []]
      | .never => []) : Normal checker equals literals (.literal e) τ pats := by
  have hresolve : checker.resolve e.ty = τ.strip := hp.1
  have hconstant (c : Constructor) (hfields : fieldTypes checker.types c τ = some [])
      (hlit : ∀ key, c ≠ .literal key) (hdomain : τ.strip.literalDomain = false) :
      (.ctor c [] : Pat).Typed (sampleFields checker literals) τ := by
    have hτ : literalType checker literals τ.strip = false := by
      by_contra hne
      obtain ⟨e', he', hkeyed⟩ := any_eq_true.mp (Bool.not_eq_false _ ▸ hne)
      obtain ⟨hkeyed, hty⟩ := Bool.and_eq_true_iff.mp hkeyed
      have := happart.domain e' he' hkeyed
      rw [of_decide_eq_true hty, hdomain] at this
      cases this
    rw [PatternMatrix.Pat.Typed]
    exact ⟨[], (sampleFields_of_false hlit hτ).trans hfields, typedAll_nil⟩
  rcases keyed_cases checker e n with ⟨b, hu, hl⟩ | ⟨hu, hl⟩ | ⟨hkeyed, hl⟩
  · rw [hl] at hpats
    subst hpats
    have hτ : τ.strip = .bool := by simpa [LiteralTyped, hu, hresolve] using hp
    refine ⟨fun pat hpat => ?_, fun v _ haccepts => ⟨_, mem_singleton_self _, ?_⟩⟩
    · rw [mem_singleton.mp hpat]
      exact hconstant _ (by simp [fieldTypes, hτ]) (by simp) (by simp [hτ, Ty.literalDomain])
    · obtain rfl : v = .bool b := by simpa only [Accepts, matchesLiteral, hu] using haccepts
      rw [Matches]
      exact ⟨[], rfl, matchesAll_nil⟩
  · rw [hl] at hpats
    subst hpats
    have hτ : τ.strip = .unit := by simpa [LiteralTyped, hu, hresolve] using hp
    refine ⟨fun pat hpat => ?_, fun v _ haccepts => ⟨_, mem_singleton_self _, ?_⟩⟩
    · rw [mem_singleton.mp hpat]
      exact hconstant _ (by simp [fieldTypes, hτ]) (by simp) (by simp [hτ, Ty.literalDomain])
    · obtain rfl : v = .unit := by simpa only [Accepts, matchesLiteral, hu] using haccepts
      rw [Matches]
      exact ⟨[], rfl, matchesAll_nil⟩
  · have hτ := literalType_of_mem he hkeyed hresolve
    constructor
    · intro pat hpat
      rw [hpats] at hpat
      split at hpat
      · rename_i c hc
        obtain ⟨key, rfl⟩ := hl c hc
        rw [mem_singleton.mp hpat, PatternMatrix.Pat.Typed]
        exact ⟨[], by simp [sampleFields, hτ], typedAll_nil⟩
      · cases hpat
    · intro v hv haccepts
      exfalso
      rw [Accepts] at haccepts
      cases hv with
      | unlisted _ _ hne => exact hne e he hkeyed haccepts
      | built hτ' | plain hτ' => rw [hτ] at hτ'; cases hτ'

mutual

theorem normalize_normal (hfresh : Unexhausted checker equals literals)
    (happart : Apart checker literals constructors) (p : CoveragePat) {s s' : Search} {pats : List Pat} {τ : Ty}
    (h : (normalize checker span p .row).run s = .ok (pats, s')) (hp : PatTyped checker p τ)
    (hinhabited : PayloadsInhabited checker p) (hlits : ∀ e ∈ p.literals, e ∈ literals)
    (hctors : ∀ c ∈ p.constructors, c ∈ constructors) : Normal checker equals literals p τ pats := by
  match p with
  | .wildcard | .total none =>
    rw [normalize] at h
    obtain ⟨rfl, rfl⟩ := pure_ok h
    exact normal_wild
  | .opaquePat | .activeCase .. =>
    rw [normalize] at h
    obtain ⟨rfl, rfl⟩ := pure_ok h
    exact ⟨by simp [opaqueAlternatives], fun v _ haccepts => by simp [Accepts] at haccepts⟩
  | .constructor c arguments =>
    obtain ⟨hlit, σs, hσ, hargs⟩ := patTyped_constructor hp
    rw [CoveragePat.literals] at hlits
    rw [CoveragePat.constructors, forall_mem_cons] at hctors
    rw [PayloadsInhabited] at hinhabited
    rw [normalize] at h
    obtain ⟨products, s₁, h₁, h⟩ := seq_ok h
    obtain ⟨rfl, rfl⟩ := pure_ok h
    obtain ⟨-, hfields⟩ := happart.constructor hσ hlit hctors.1
    obtain ⟨htyped, hcovers⟩ :=
      normalizeAll_normal hfresh happart arguments h₁ hargs hinhabited hlits hctors.2
    constructor
    · intro pat hpat
      obtain ⟨product, hmem, rfl⟩ := mem_map.mp hpat
      obtain ⟨before, hbefore, rest, rfl, hrest⟩ := htyped product hmem
      obtain rfl := mem_singleton.mp hbefore
      rw [PatternMatrix.Pat.Typed]
      exact ⟨σs, hfields, hrest⟩
    · intro v hv haccepts
      rw [Accepts] at haccepts
      obtain ⟨vs, hvs, haccepts⟩ := haccepts
      obtain ⟨rest, hmem, hm⟩ := hcovers vs (hv.arguments hvs hfields) haccepts [] (mem_singleton_self _)
      refine ⟨.ctor c rest, mem_map.mpr ⟨rest, hmem, rfl⟩, ?_⟩
      rw [Matches]
      exact ⟨vs, hvs, hm⟩
  | .or left right =>
    rw [PatTyped] at hp
    rw [CoveragePat.literals, forall_mem_append] at hlits
    rw [CoveragePat.constructors, forall_mem_append] at hctors
    rw [PayloadsInhabited] at hinhabited
    rw [normalize] at h
    obtain ⟨ls, s₁, rs, h₁, h₂, rfl⟩ := both_ok h
    obtain ⟨hltyped, hlcovers⟩ :=
      normalize_normal hfresh happart left h₁ hp.1 hinhabited.1 hlits.1 hctors.1
    obtain ⟨hrtyped, hrcovers⟩ :=
      normalize_normal hfresh happart right h₂ hp.2 hinhabited.2 hlits.2 hctors.2
    refine ⟨forall_mem_append.mpr ⟨hltyped, hrtyped⟩, fun v hv haccepts => ?_⟩
    rw [Accepts] at haccepts
    rcases haccepts with haccepts | haccepts
    · obtain ⟨pat, hpat, hm⟩ := hlcovers v hv haccepts
      exact ⟨pat, mem_append_left _ hpat, hm⟩
    · obtain ⟨pat, hpat, hm⟩ := hrcovers v hv haccepts
      exact ⟨pat, mem_append_right _ hpat, hm⟩
  | .and left right =>
    rw [PatTyped] at hp
    rw [CoveragePat.literals, forall_mem_append] at hlits
    rw [CoveragePat.constructors, forall_mem_append] at hctors
    rw [PayloadsInhabited] at hinhabited
    rw [normalize] at h
    obtain ⟨ls, s₁, rs, h₁, h₂, rfl⟩ := both_ok h
    obtain ⟨hltyped, hlcovers⟩ :=
      normalize_normal hfresh happart left h₁ hp.1 hinhabited.1 hlits.1 hctors.1
    obtain ⟨hrtyped, hrcovers⟩ :=
      normalize_normal hfresh happart right h₂ hp.2 hinhabited.2 hlits.2 hctors.2
    constructor
    · intro pat hpat
      obtain ⟨l, hl, hpat⟩ := mem_flatMap.mp hpat
      obtain ⟨r, hr, hinter⟩ := mem_filterMap.mp hpat
      exact intersect_typed hinter (hltyped l hl) (hrtyped r hr)
    · intro v hv haccepts
      rw [Accepts] at haccepts
      obtain ⟨l, hl, hml⟩ := hlcovers v hv haccepts.1
      obtain ⟨r, hr, hmr⟩ := hrcovers v hv haccepts.2
      obtain ⟨pat, hpat, hm⟩ := intersect_matches hml hmr
      exact ⟨pat, mem_flatMap.mpr ⟨l, hl, mem_filterMap.mpr ⟨r, hr, hpat⟩⟩, hm⟩
  | .literal e =>
    rw [PatTyped] at hp
    obtain ⟨-, hpats⟩ := normalize_literal_ok h
    exact normal_literal happart hp (hlits e (by simp [CoveragePat.literals])) hpats
  | .total (some payload) =>
    rw [CoveragePat.literals] at hlits
    rw [CoveragePat.constructors] at hctors
    rw [PayloadsInhabited] at hinhabited
    obtain ⟨⟨σ, hσ, hinhabitedσ⟩, hpayload⟩ := hinhabited
    rw [normalize] at h
    obtain ⟨rows, s₁, h₁, h⟩ := seq_ok h
    obtain ⟨found, s₂, h₂, h⟩ := seq_ok h
    obtain ⟨htyped, hcovers⟩ := normalize_normal hfresh happart payload h₁ hσ hpayload hlits hctors
    cases found with
    | none =>
      obtain ⟨rfl, rfl⟩ := pure_ok h
      exact normal_wild
    | some w =>
      obtain ⟨rfl, rfl⟩ := pure_ok h
      refine ⟨by simp [opaqueAlternatives], fun v _ haccepts => ?_⟩
      -- the payload leaves a sample open, so the recognizer is not sure to accept
      obtain ⟨u, hu, hopen, -⟩ := exists_uncovered hfresh hinhabitedσ (rowsTyped_map htyped) h₂
      rw [Accepts] at haccepts
      exact absurd (covers_map (hcovers u hu (haccepts σ hσ u hu.inhabits.1))) hopen

theorem normalizeAll_normal (hfresh : Unexhausted checker equals literals)
    (happart : Apart checker literals constructors) (ps : List CoveragePat) {s s' : Search}
    {products out : List (List Pat)} {σs : List Ty}
    (h : (normalizeAll checker span ps .row products).run s = .ok (out, s'))
    (hps : PatTypedAll checker ps σs) (hinhabited : PayloadsInhabitedAll checker ps)
    (hlits : ∀ e ∈ literalsAll ps, e ∈ literals) (hctors : ∀ c ∈ constructorsAll ps, c ∈ constructors) :
    (∀ row ∈ out, ∃ before ∈ products, ∃ rest, row = before ++ rest ∧ TypedAll (sampleFields checker literals) rest σs)
      ∧ ∀ vs, List.Forall₂ (Sample checker equals literals) vs σs →
        AcceptsAll checker equals ps vs → ∀ before ∈ products, ∃ rest, before ++ rest ∈ out
          ∧ MatchesAll Constructed rest vs := by
  match ps, σs with
  | [], [] =>
    rw [normalizeAll] at h
    obtain ⟨rfl, rfl⟩ := pure_ok h
    refine ⟨fun row hrow => ⟨row, hrow, [], by simp⟩, fun vs hvs _ before hbefore => ?_⟩
    obtain rfl := List.forall₂_nil_right_iff.mp hvs
    exact ⟨[], by simpa using hbefore, matchesAll_nil⟩
  | [], _ :: _ | _ :: _, [] => simp [PatTypedAll] at hps
  | p :: ps, σ :: σs =>
    rw [PatTypedAll] at hps
    rw [literalsAll, forall_mem_append] at hlits
    rw [constructorsAll, forall_mem_append] at hctors
    rw [PayloadsInhabitedAll] at hinhabited
    rw [normalizeAll] at h
    obtain ⟨alternatives, s₁, h₁, h⟩ := seq_ok h
    obtain ⟨_, s₂, h₂, h⟩ := seq_ok h
    obtain rfl := limit_ok h₂
    obtain ⟨htyped, hcovers⟩ := normalize_normal hfresh happart p h₁ hps.1 hinhabited.1 hlits.1 hctors.1
    obtain ⟨htypedAll, hcoversAll⟩ :=
      normalizeAll_normal hfresh happart ps h hps.2 hinhabited.2 hlits.2 hctors.2
    constructor
    · intro row hrow
      obtain ⟨before', hbefore', rest, rfl, hrest⟩ := htypedAll row hrow
      obtain ⟨before, hbefore, hmem⟩ := mem_flatMap.mp hbefore'
      obtain ⟨alternative, halternative, rfl⟩ := mem_map.mp hmem
      exact ⟨before, hbefore, alternative :: rest, by simp, typedAll_cons.mpr ⟨htyped _ halternative, hrest⟩⟩
    · intro vs hvs haccepts before hbefore
      obtain ⟨v, us, hv, hus, rfl⟩ := List.forall₂_cons_right_iff.mp hvs
      rw [AcceptsAll] at haccepts
      obtain ⟨pat, hpat, hm⟩ := hcovers v hv haccepts.1
      obtain ⟨rest, hmem, hms⟩ := hcoversAll us hus haccepts.2 (before ++ [pat])
        (mem_flatMap.mpr ⟨before, hbefore, mem_map.mpr ⟨pat, hpat, rfl⟩⟩)
      exact ⟨pat :: rest, by simpa using hmem, matchesAll_cons.mpr ⟨hm, hms⟩⟩

end

end Rows

/-! ## The arms of a match -/

def armLiterals (arms : List CoverageArm) : List TypedExpr :=
  (arms.filter fun arm => !arm.guarded).flatMap fun arm => arm.pattern.literals

def armConstructors (arms : List CoverageArm) : List Constructor :=
  (arms.filter fun arm => !arm.guarded).flatMap fun arm => arm.pattern.constructors

def ArmsInhabited (checker : Checker) (arms : List CoverageArm) : Prop :=
  ∀ arm ∈ arms, arm.guarded = false → PayloadsInhabited checker arm.pattern

mutual

variable {checker : Checker}

theorem literalDomain_of_mem (p : CoveragePat) {τ : Ty} {e : TypedExpr} (hp : PatTyped checker p τ)
    (he : e ∈ p.literals) (hkeyed : keyed e = true) : (checker.resolve e.ty).literalDomain = true := by
  match p with
  | .wildcard | .total none | .opaquePat | .activeCase .. => simp [CoveragePat.literals] at he
  | .constructor c arguments =>
    obtain ⟨-, σs, -, hargs⟩ := patTyped_constructor hp
    rw [CoveragePat.literals] at he
    exact literalDomain_of_memAll arguments hargs he hkeyed
  | .or left right | .and left right =>
    rw [PatTyped] at hp
    rw [CoveragePat.literals, mem_append] at he
    rcases he with he | he
    · exact literalDomain_of_mem left hp.1 he hkeyed
    · exact literalDomain_of_mem right hp.2 he hkeyed
  | .literal e' =>
    rw [CoveragePat.literals, mem_singleton] at he
    subst he
    rw [PatTyped] at hp
    obtain ⟨hresolve, htyped⟩ := hp
    rw [hresolve]
    unfold keyed at hkeyed
    split at htyped
    · simp_all
    · simp_all
    · rw [htyped]; rfl
    · rw [htyped]; rfl
    · split at htyped
      · exact htyped.literalDomain
      · exact htyped
  | .total (some payload) =>
    rw [PatTyped] at hp
    obtain ⟨σ, hσ⟩ := hp
    rw [CoveragePat.literals] at he
    exact literalDomain_of_mem payload hσ he hkeyed

theorem literalDomain_of_memAll (ps : List CoveragePat) {σs : List Ty} {e : TypedExpr}
    (hps : PatTypedAll checker ps σs) (he : e ∈ literalsAll ps) (hkeyed : keyed e = true) :
    (checker.resolve e.ty).literalDomain = true := by
  match ps, σs with
  | [], _ => simp [literalsAll] at he
  | _ :: _, [] => simp [PatTypedAll] at hps
  | p :: ps, σ :: σs =>
    rw [PatTypedAll] at hps
    rw [literalsAll, mem_append] at he
    rcases he with he | he
    · exact literalDomain_of_mem p hps.1 he hkeyed
    · exact literalDomain_of_memAll ps hps.2 he hkeyed

end

def RecordsApart (checker : Checker) (arms : List CoverageArm) : Prop :=
  ∀ id args n, literalType checker (armLiterals arms) (.record id args) = true → .record id n ∉ armConstructors arms

section Arms

variable {checker : Checker} {equals : TypedExpr → Value → Prop} {span : Span} {s s' : Search}
  {τ : Ty} {literals : List TypedExpr} {constructors : List Constructor}
variable {arms : List CoverageArm} {arm : CoverageArm}

theorem mem_armLiterals {e : TypedExpr} (harm : arm ∈ arms) (hguard : arm.guarded = false)
    (he : e ∈ arm.pattern.literals) : e ∈ armLiterals arms :=
  mem_flatMap.mpr ⟨arm, mem_filter.mpr ⟨harm, by simp [hguard]⟩, he⟩

theorem mem_armConstructors (harm : arm ∈ arms) (hguard : arm.guarded = false) (hc : c ∈ arm.pattern.constructors) :
    c ∈ armConstructors arms :=
  mem_flatMap.mpr ⟨arm, mem_filter.mpr ⟨harm, by simp [hguard]⟩, hc⟩

theorem apart_of_arms (htyped : ArmsTyped checker arms τ) (hrecords : RecordsApart checker arms) :
    Apart checker (armLiterals arms) (armConstructors arms) := by
  refine ⟨fun e he hkeyed => ?_, hrecords⟩
  obtain ⟨arm, harm, he⟩ := mem_flatMap.mp he
  exact literalDomain_of_mem arm.pattern (htyped arm (mem_filter.mp harm).1) he hkeyed

/-- The rows collected from `arms` cover each sample that an unguarded arm accepts. -/
structure CoversSamples (checker : Checker) (equals : TypedExpr → Value → Prop)
    (literals : List TypedExpr) (rows : List (Row Constructor)) (τ : Ty)
    (arms : List CoverageArm) : Prop where
  typed : RowsTyped (sampleFields checker literals) rows [τ]
  covers : ∀ v, Sample checker equals literals v τ → AcceptedBy checker equals arms v → Covers Constructed rows [v]

theorem coversSamples_nil : CoversSamples checker equals literals [] τ [] := by
  refine ⟨fun _ hrow => by simp at hrow, fun v _ haccepted => ?_⟩
  obtain ⟨arm, harm, -⟩ := haccepted
  cases harm

theorem Covers.mono {rows' : List (Row Constructor)} {vs : List Value} (h : Covers Constructed rows vs)
    (hsub : ∀ row ∈ rows, row ∈ rows') : Covers Constructed rows' vs := by
  obtain ⟨row, hrow, hm⟩ := h
  exact ⟨row, hsub row hrow, hm⟩

theorem CoversSamples.guarded (h : CoversSamples checker equals literals rows τ arms) (hguard : arm.guarded = true) :
    CoversSamples checker equals literals rows τ (arms ++ [arm]) := by
  refine ⟨h.typed, fun v hv haccepted => h.covers v hv ?_⟩
  obtain ⟨arm', harm', hguard', haccepts⟩ := haccepted
  rcases mem_append.mp harm' with harm' | harm'
  · exact ⟨arm', harm', hguard', haccepts⟩
  · rw [mem_singleton.mp harm', hguard] at hguard'
    cases hguard'

theorem CoversSamples.unguarded (h : CoversSamples checker equals literals rows τ arms)
    (hnormal : Normal checker equals literals arm.pattern τ pats) :
    CoversSamples checker equals literals (rows ++ pats.map ([·])) τ (arms ++ [arm]) := by
  constructor
  · intro row hrow
    rcases mem_append.mp hrow with hrow | hrow
    · exact h.typed row hrow
    · exact rowsTyped_map hnormal.typed row hrow
  · intro v hv haccepted
    obtain ⟨arm', harm', hguard', haccepts⟩ := haccepted
    rcases mem_append.mp harm' with harm' | harm'
    · exact Covers.mono (h.covers v hv ⟨arm', harm', hguard', haccepts⟩) fun _ hmem => mem_append_left _ hmem
    · rw [mem_singleton.mp harm'] at haccepts
      exact Covers.mono (covers_map (hnormal.covers v hv haccepts)) fun _ hmem => mem_append_right _ hmem

theorem checkArms_coversSamples (hfresh : Unexhausted checker equals literals)
    (happart : Apart checker literals constructors) {unreachable : List CoverageArm}
    {rows rows' : List (Row Constructor)} {before : List CoverageArm}
    (h : (checkArms checker span arms rows).run s = .ok ((unreachable, rows'), s'))
    (htyped : ArmsTyped checker arms τ) (hinhabited : ArmsInhabited checker arms)
    (hlits : ∀ arm ∈ arms, arm.guarded = false → ∀ e ∈ arm.pattern.literals, e ∈ literals)
    (hctors : ∀ arm ∈ arms, arm.guarded = false → ∀ c ∈ arm.pattern.constructors, c ∈ constructors)
    (hrows : CoversSamples checker equals literals rows τ before) :
    CoversSamples checker equals literals rows' τ (before ++ arms) := by
  induction arms generalizing s rows unreachable before with
  | nil =>
    rw [checkArms] at h
    obtain ⟨hresult, rfl⟩ := pure_ok h
    cases hresult
    rwa [append_nil]
  | cons arm arms ih =>
    rw [checkArms] at h
    obtain ⟨⟨useful, rows₁⟩, s₁, h₁, h⟩ := seq_ok h
    obtain ⟨⟨unreachable₁, rows₂⟩, s₂, h₂, h⟩ := seq_ok h
    obtain ⟨hresult, rfl⟩ := pure_ok h
    cases hresult
    obtain ⟨harm, harms⟩ := forall_mem_cons.mp htyped
    obtain ⟨hinhabited, hrest⟩ := forall_mem_cons.mp hinhabited
    obtain ⟨hlits, hlitsRest⟩ := forall_mem_cons.mp hlits
    obtain ⟨hctors, hctorsRest⟩ := forall_mem_cons.mp hctors
    rw [← singleton_append, ← append_assoc]
    refine ih h₂ harms hrest hlitsRest hctorsRest ?_
    unfold checkArm at h₁
    obtain ⟨queries, s₃, h₃, h₁⟩ := seq_ok h₁
    obtain ⟨useful', s₄, h₄, h₁⟩ := seq_ok h₁
    split at h₁
    · rename_i hguard
      obtain ⟨hresult, rfl⟩ := pure_ok h₁
      cases hresult
      exact hrows.guarded hguard
    · rename_i hguard
      have hguard : arm.guarded = false := Bool.eq_false_iff.mpr hguard
      obtain ⟨pats, s₅, h₅, h₁⟩ := seq_ok h₁
      obtain ⟨hresult, rfl⟩ := pure_ok h₁
      cases hresult
      exact hrows.unguarded (normalize_normal hfresh happart arm.pattern h₅ harm
        (hinhabited hguard) (hlits hguard) (hctors hguard))

end Arms

end Tsuzuri
