import Tsuzuri.CoverSearch

/-!
# Normalized patterns stand for their patterns

Rows stand for no more than the pattern accepts (`normalize_row`), queries for no less than it may match, but for the
values on which the literals of an and-pattern clash (`normalize_query`).
-/

namespace Tsuzuri

open List

open PatternMatrix (Row Matches MatchesAll TypedAll RowsTyped Covers Exhausts Refuted specialize
  defaults matches_wild matchesAll_cons matchesAll_nil typedAll_cons typedAll_nil typed_wild)

section Intersect

variable {fields : Constructor → Ty → Option (List Ty)} {B : Constructor → List Value → Value → Prop}

mutual

theorem intersect_sound {a b p : Pat} {τ : Ty} (h : intersect a b = some p)
    (ha : a.Typed fields τ) (hb : b.Typed fields τ) :
    p.Typed fields τ ∧ ∀ v, Matches B p v → Matches B a v ∧ Matches B b v := by
  match a, b with
  | .wild, b =>
    obtain rfl : b = p := by simpa [intersect] using h
    exact ⟨hb, fun v hv => ⟨matches_wild v, hv⟩⟩
  | .ctor c ls, .wild =>
    obtain rfl : .ctor c ls = p := by simpa [intersect] using h
    exact ⟨ha, fun v hv => ⟨hv, matches_wild v⟩⟩
  | .ctor c ls, .ctor c' rs =>
    rw [intersect] at h
    split at h
    · rename_i hc
      subst hc
      obtain ⟨ps, hps, rfl⟩ := Option.map_eq_some_iff.mp h
      rw [PatternMatrix.Pat.Typed] at ha hb ⊢
      obtain ⟨σs, hσ, hls⟩ := ha
      obtain ⟨σs', hσ', hrs⟩ := hb
      obtain rfl : σs = σs' := Option.some.inj (hσ.symm.trans hσ')
      obtain ⟨htyped, hsound⟩ := intersectAll_sound hps hls hrs
      refine ⟨⟨σs, hσ, htyped⟩, fun v hv => ?_⟩
      rw [Matches] at hv ⊢
      rw [Matches]
      obtain ⟨vs, hbuilt, hvs⟩ := hv
      exact ⟨⟨vs, hbuilt, (hsound vs hvs).1⟩, ⟨vs, hbuilt, (hsound vs hvs).2⟩⟩
    · cases h

theorem intersectAll_sound {ls rs ps : List Pat} {τs : List Ty} (h : intersectAll ls rs = some ps)
    (hl : TypedAll fields ls τs) (hr : TypedAll fields rs τs) :
    TypedAll fields ps τs ∧ ∀ vs, MatchesAll B ps vs → MatchesAll B ls vs ∧ MatchesAll B rs vs := by
  match ls, rs, τs with
  | [], [], [] =>
    obtain rfl : [] = ps := by simpa [intersectAll] using h
    exact ⟨hl, fun vs hvs => ⟨hvs, hvs⟩⟩
  | _ :: _, _, [] => simp [TypedAll] at hl
  | [], _, _ :: _ => simp [TypedAll] at hl
  | _, [], _ :: _ => simp [TypedAll] at hr
  | _, _ :: _, [] => simp [TypedAll] at hr
  | l :: ls, r :: rs, τ :: τs =>
    rw [intersectAll] at h
    obtain ⟨p, hp, h⟩ := Option.bind_eq_some_iff.mp h
    obtain ⟨ps', hps, h⟩ := Option.bind_eq_some_iff.mp h
    obtain rfl : p :: ps' = ps := by simpa using h
    obtain ⟨hl, hls⟩ := typedAll_cons.mp hl
    obtain ⟨hr, hrs⟩ := typedAll_cons.mp hr
    obtain ⟨hptyped, hpsound⟩ := intersect_sound hp hl hr
    obtain ⟨hpstyped, hpssound⟩ := intersectAll_sound hps hls hrs
    refine ⟨typedAll_cons.mpr ⟨hptyped, hpstyped⟩, fun vs hvs => ?_⟩
    match vs with
    | [] => simp [MatchesAll] at hvs
    | v :: vs =>
      obtain ⟨hv, hvs⟩ := matchesAll_cons.mp hvs
      simp only [matchesAll_cons]
      exact ⟨⟨(hpsound v hv).1, (hpssound vs hvs).1⟩, (hpsound v hv).2, (hpssound vs hvs).2⟩

end

theorem intersect_typed {a b p : Pat} {τ : Ty} (h : intersect a b = some p) (ha : a.Typed fields τ)
    (hb : b.Typed fields τ) : p.Typed fields τ :=
  (intersect_sound (B := fun _ _ _ => True) h ha hb).1

end Intersect

/-! ## Literals -/

variable {key : LiteralKey} {c : Constructor} {negative : Bool}

section Literals

variable {checker : Checker} {equals : TypedExpr → Value → Prop} {d n n' : Nat} {e : TypedExpr} {τ : Ty} {v : Value}

def Numeric (e : TypedExpr) : Prop :=
  match unsign e with
  | (false, .bool _) | (false, .unit) | (false, .string _) => False
  | _ => True

theorem literal_cases (checker : Checker) (e : TypedExpr) (n : Nat) :
    (∃ b, unsign e = (false, .bool b) ∧ literal checker e n = (.constructor (.bool b), n))
      ∨ (unsign e = (false, .unit) ∧ literal checker e n = (.constructor .unit, n))
      ∨ (∃ text, unsign e = (false, .string text) ∧ literal checker e n = (.constructor (.literal (.text text)), n))
      ∨ (Numeric e ∧ ∃ text, literalText checker (checker.resolve e.ty) (unsign e).1 (unsign e).2
          = some text ∧ literal checker e n = (if text = "NaN" then .never
            else .constructor (.literal (.number (checker.resolve e.ty) text)), n))
      ∨ (Numeric e ∧ literalText checker (checker.resolve e.ty) (unsign e).1 (unsign e).2 = none
        ∧ literal checker e n = (.constructor (.literal
          (.number (checker.resolve e.ty) (distinctText (n + 1)))), n + 1)) := by
  unfold literal
  split
  · rename_i b h
    exact .inl ⟨b, h, rfl⟩
  · rename_i h
    exact .inr (.inl ⟨h, rfl⟩)
  · rename_i text h
    exact .inr (.inr (.inl ⟨text, h, rfl⟩))
  · rename_i negative kind hbool hunit hstring h
    have hnumeric : Numeric e := by
      unfold Numeric
      rw [h]
      split
      all_goals simp_all
    refine .inr (.inr (.inr ?_))
    rw [h]
    cases htext : literalText checker (checker.resolve e.ty) negative kind with
    | some text => exact .inl ⟨hnumeric, text, rfl, by simp only [htext]; split <;> rfl⟩
    | none => exact .inr ⟨hnumeric, rfl, by simp only [htext]⟩

theorem Numeric.matches (h : Numeric e) : matchesLiteral checker equals e v ↔
      if isNumeral (unsign e).1 (unsign e).2 then
        ∃ ty x, v = .number ty x ∧ literalNumber checker ty (unsign e).1 (unsign e).2 = some x ∧ x ≠ .float .nan
      else equals e v := by
  unfold matchesLiteral
  unfold Numeric at h
  split <;> simp_all

theorem Numeric.typed (h : Numeric e) : LiteralTyped checker τ e ↔ checker.resolve e.ty = τ ∧
      if isNumeral (unsign e).1 (unsign e).2 then NumeralTyped τ (unsign e).1 (unsign e).2 else τ.literalDomain := by
  unfold LiteralTyped
  unfold Numeric at h
  split <;> simp_all

theorem Numeric.head (h : Numeric e) : literalHead checker e = (literalText checker (checker.resolve e.ty) (unsign e).1
      (unsign e).2).map fun text => .literal (.number (checker.resolve e.ty) text) := by
  unfold literalHead
  unfold Numeric at h
  split <;> simp_all

theorem distinctText_inj {m : Nat} (h : distinctText m = distinctText n) : m = n := by
  have hlist := congrArg String.toList h
  simp only [distinctText, String.toList_append] at hlist
  exact Nat.repr_inj.mp (String.toList_inj.mp (append_cancel_left hlist))

theorem matches_literal : Matches (Built checker equals d) (.ctor (.literal key) []) v
      ↔ KeyMatches checker equals d key v := by
  rw [Matches]
  constructor
  · rintro ⟨vs, hc | ⟨key', hkey, -, hm⟩, -⟩
    · exact absurd rfl (hc.ne_literal key)
    · obtain rfl := Constructor.literal.inj hkey
      exact hm
  · intro h
    exact ⟨[], .inr ⟨key, rfl, rfl, h⟩, matchesAll_nil⟩

theorem matches_constant (hc : ∀ key, c ≠ .literal key) :
    Matches (Built checker equals d) (.ctor c []) v ↔ Constructed c [] v := by
  rw [Matches]
  constructor
  · rintro ⟨vs, hbuilt, hvs⟩
    obtain rfl : [] = vs := (length_eq_zero_iff.mp (by simpa using hvs.length_eq.symm)).symm
    exact hbuilt.constructed hc
  · intro h
    exact ⟨[], .inl h, matchesAll_nil⟩

variable {ty : Ty} {text : String}

theorem numeric_of_literalText (h : literalText checker ty (unsign e).1 (unsign e).2 = some text) : Numeric e := by
  have := isNumeral_of_literalText h
  unfold Numeric
  split <;> simp_all [isNumeral]

theorem LiteralTyped.numeral (he : LiteralTyped checker τ e) (hnumeric : Numeric e)
    (h : literalText checker (checker.resolve e.ty) (unsign e).1 (unsign e).2 = some text) :
    NumeralTyped τ (unsign e).1 (unsign e).2 := by
  have := (hnumeric.typed.mp he).2
  rwa [if_pos (isNumeral_of_literalText h)] at this

theorem HasType.number_ty {types : TypeContext} {x : Number} {kind : TypedExprKind}
    (hv : HasType types (.number ty x) τ) (hτ : NumeralTyped τ.strip negative kind) :
    τ.strip.isUnknown ∨ ty = τ.strip := by
  cases hv with
  | number h => exact .inr rfl
  | unknown h => exact .inl h
  | other h =>
    exfalso
    rcases hτ.cases with ⟨n, -, -, hτ⟩ | ⟨m, minus, -, -, hτ⟩ | ⟨bits, -, hτ⟩ | ⟨t, -, hτ, -⟩ <;>
      cases hs : τ.strip <;> simp_all [Ty.isOpaque, Ty.isInteger, Ty.isFloat, Ty.isUnknown]

theorem matchesLiteral_of_key (he : LiteralTyped checker τ.strip e) (hnumeric : Numeric e)
    (h : literalText checker (checker.resolve e.ty) (unsign e).1 (unsign e).2 = some text)
    (hv : HasType checker.types v τ) (hkey : KeyMatches checker equals d (.number (checker.resolve e.ty) text) v) :
    matchesLiteral checker equals e v := by
  have hnumeral := he.numeral hnumeric h
  obtain ⟨hresolve, -⟩ := hnumeric.typed.mp he
  rw [hresolve] at h hkey
  rcases hkey with ⟨n, hn, -⟩ | ⟨e', he', h', hm⟩
  · exact absurd hn (literalText_ne_distinct hnumeral h n)
  have hnumeric' := numeric_of_literalText h'
  rw [hnumeric'.matches, if_pos (isNumeral_of_literalText h')] at hm
  rw [hnumeric.matches, if_pos (isNumeral_of_literalText h)]
  obtain ⟨ty, x, rfl, hx, hnan⟩ := hm
  refine ⟨ty, x, rfl, ?_, hnan⟩
  rw [← hx]
  exact literalNumber_of_text hnumeral (he'.numeral hnumeric' (by rwa [(hnumeric'.typed.mp he').1]))
    h h' (hv.number_ty hnumeral)

theorem not_matchesLiteral_nan (he : LiteralTyped checker τ.strip e) (hnumeric : Numeric e)
    (h : literalText checker (checker.resolve e.ty) (unsign e).1 (unsign e).2 = some "NaN")
    (hv : HasType checker.types v τ) : ¬ matchesLiteral checker equals e v := by
  have hnumeral := he.numeral hnumeric h
  rw [hnumeric.matches, if_pos (isNumeral_of_literalText h)]
  rintro ⟨ty, x, rfl, hx, hnan⟩
  rw [(hnumeric.typed.mp he).1] at h
  rw [literalNumber_nan hnumeral h (hv.number_ty hnumeral)] at hx
  exact hnan (Option.some.inj hx).symm

end Literals

section LiteralPatterns

variable {checker : Checker} {equals : TypedExpr → Value → Prop} {d n n' : Nat} {e : TypedExpr}
  {τ : Ty} {v : Value} {c : Constructor}

theorem fieldTypes_literal (h : τ.strip.literalDomain) : fieldTypes checker.types (.literal key) τ = some [] := by
  simp [fieldTypes, h]

theorem NumeralTyped.literalDomain {kind : TypedExprKind} (h : NumeralTyped τ negative kind) : τ.literalDomain := by
  rcases h.cases with ⟨n, -, -, hτ⟩ | ⟨m, minus, -, -, hτ⟩ | ⟨bits, -, hτ⟩ | ⟨t, -, hτ, -⟩ <;>
    cases τ <;> simp_all [Ty.literalDomain, Ty.isInteger, Ty.isFloat, Ty.isUnknown]

variable (he : LiteralTyped checker τ.strip e)

include he

theorem literal_typed {l : Literal} (h : literal checker e n = (l, n')) :
    n ≤ n' ∧ ∀ c, l = .constructor c → (.ctor c [] : Pat).Typed (fieldTypes checker.types) τ := by
  suffices hfields : n ≤ n' ∧ ∀ c, l = .constructor c → fieldTypes checker.types c τ = some [] by
    refine ⟨hfields.1, fun c hc => ?_⟩
    rw [PatternMatrix.Pat.Typed]
    exact ⟨[], hfields.2 c hc, typedAll_nil⟩
  rcases literal_cases checker e n with ⟨b, hu, hl⟩ | ⟨hu, hl⟩ | ⟨text, hu, hl⟩ |
    ⟨hnumeric, text, htext, hl⟩ | ⟨hnumeric, htext, hl⟩
  all_goals
    rw [hl] at h
    cases h
    refine ⟨by omega, ?_⟩
  · rintro c ⟨⟩
    simp only [LiteralTyped, hu] at he
    simp [fieldTypes, he.2]
  · rintro c ⟨⟩
    simp only [LiteralTyped, hu] at he
    simp [fieldTypes, he.2]
  · rintro c ⟨⟩
    refine fieldTypes_literal ?_
    simp only [LiteralTyped, hu] at he
    cases text <;> simp_all [Ty.literalDomain]
  · intro c hc
    split at hc
    · cases hc
    · cases hc
      exact fieldTypes_literal (he.numeral hnumeric htext).literalDomain
  · rintro c ⟨⟩
    refine fieldTypes_literal ?_
    obtain ⟨-, hkind⟩ := hnumeric.typed.mp he
    split at hkind
    · exact hkind.literalDomain
    · exact hkind

theorem literal_row (h : literal checker e n = (.constructor c, n')) (hd : n' ≤ d)
    (hv : HasType checker.types v τ) (hm : Matches (Built checker equals d) (.ctor c []) v) :
    matchesLiteral checker equals e v := by
  rcases literal_cases checker e n with ⟨b, hu, hl⟩ | ⟨hu, hl⟩ | ⟨text, hu, hl⟩ |
    ⟨hnumeric, text, htext, hl⟩ | ⟨hnumeric, htext, hl⟩
  all_goals
    rw [hl] at h
    obtain ⟨hc, rfl⟩ := Prod.mk.inj h
  · cases hc
    rw [matches_constant (by simp)] at hm
    simp only [matchesLiteral, hu]
    cases v <;> simp_all [Constructed, Value.decompose]
  · cases hc
    rw [matches_constant (by simp)] at hm
    simp only [matchesLiteral, hu]
    cases v <;> simp_all [Constructed, Value.decompose]
  · cases hc
    rw [matches_literal] at hm
    simpa only [matchesLiteral, hu, KeyMatches] using hm
  · split at hc
    · cases hc
    · cases hc
      exact matchesLiteral_of_key he hnumeric htext hv (matches_literal.mp hm)
  · cases hc
    -- a row's distinct keys are below the bound, so they match nothing
    rcases matches_literal.mp hm with ⟨k, hk, hdk⟩ | ⟨e', he', h', -⟩
    · have := distinctText_inj hk
      omega
    · have hnumeric' := numeric_of_literalText h'
      have hnumeral := he'.numeral hnumeric' (by rwa [(hnumeric'.typed.mp he').1])
      exact absurd rfl (literalText_ne_distinct hnumeral h' _)

theorem literal_query (hv : HasType checker.types v τ) (hd : d ≤ n) (hm : matchesLiteral checker equals e v) :
    ∃ c, (literal checker e n).1 = .constructor c ∧ Matches (Built checker equals d) (.ctor c []) v
      ∧ (literalHead checker e = some c ∨ literalHead checker e = none) := by
  rcases literal_cases checker e n with ⟨b, hu, hl⟩ | ⟨hu, hl⟩ | ⟨text, hu, hl⟩ |
    ⟨hnumeric, text, htext, hl⟩ | ⟨hnumeric, htext, hl⟩
  · refine ⟨_, by rw [hl], ?_, .inl (by simp [literalHead, hu])⟩
    rw [matches_constant (by simp)]
    obtain rfl : v = .bool b := by simpa only [matchesLiteral, hu] using hm
    rfl
  · refine ⟨_, by rw [hl], ?_, .inl (by simp [literalHead, hu])⟩
    rw [matches_constant (by simp)]
    obtain rfl : v = .unit := by simpa only [matchesLiteral, hu] using hm
    rfl
  · refine ⟨_, by rw [hl], ?_, .inl (by simp [literalHead, hu])⟩
    rw [matches_literal]
    simpa only [matchesLiteral, hu, KeyMatches] using hm
  · have hnan : text ≠ "NaN" := by
      rintro rfl
      exact not_matchesLiteral_nan he hnumeric htext hv hm
    refine ⟨_, by rw [hl, if_neg hnan], ?_, .inl (by rw [hnumeric.head, htext]; rfl)⟩
    rw [matches_literal]
    exact .inr ⟨e, by rwa [(hnumeric.typed.mp he).1], htext, hm⟩
  · refine ⟨_, by rw [hl], ?_, .inr (by rw [hnumeric.head, htext]; rfl)⟩
    rw [matches_literal]
    exact .inl ⟨n + 1, rfl, by omega⟩

end LiteralPatterns

/-! ## Normalization -/

section Normalize

variable {checker : Checker} {equals : TypedExpr → Value → Prop} {span : Span}
variable {n : Nat} {s s' : Search} {mode : Mode} {pats : List Pat} {τ : Ty}

theorem limit_ok {u : Unit} (h : (limit span n).run s = .ok (u, s')) : s = s' := by
  unfold limit at h
  split at h
  · cases h
  · exact (pure_ok h).2

theorem both_ok {left right : CoveragePat} {f : List Pat → List Pat → List Pat} {n : List Pat → List Pat → Nat}
    (h : (normalize checker span left mode >>= fun ls => normalize checker span right mode >>= fun rs =>
      limit span (n ls rs) >>= fun _ => pure (f ls rs)).run s = .ok (pats, s')) :
    ∃ ls s₁ rs, (normalize checker span left mode).run s = .ok (ls, s₁) ∧
      (normalize checker span right mode).run s₁ = .ok (rs, s') ∧ pats = f ls rs := by
  obtain ⟨ls, s₁, h₁, h⟩ := seq_ok h
  obtain ⟨rs, s₂, h₂, h⟩ := seq_ok h
  obtain ⟨_, s₃, h₃, h⟩ := seq_ok h
  obtain rfl := limit_ok h₃
  obtain ⟨rfl, rfl⟩ := pure_ok h
  exact ⟨ls, s₁, rs, h₁, h₂, rfl⟩

theorem patTyped_constructor {arguments : List CoveragePat}
    (h : PatTyped checker (.constructor c arguments) τ) : (∀ key, c ≠ .literal key)
      ∧ ∃ σs, fieldTypes checker.types c τ = some σs ∧ PatTypedAll checker arguments σs := by
  rwa [PatTyped] at h

theorem normalize_literal_ok {e : TypedExpr} (h : (normalize checker span (.literal e) mode).run s = .ok (pats, s')) :
    s'.distinct = (literal checker e s.distinct).2 ∧ pats = match (literal checker e s.distinct).1 with
        | .constructor c => [.ctor c []]
        | .never => [] := by
  rw [normalize] at h
  obtain ⟨now, s₁, hget, hrest⟩ := seq_ok h
  obtain ⟨rfl, rfl⟩ := get_ok hget
  generalize literal checker e s₁.distinct = r at hrest ⊢
  obtain ⟨l, n⟩ := r
  obtain ⟨_, s₂, hmodify, hpure⟩ := seq_ok hrest
  obtain rfl := modify_ok hmodify
  cases l <;> obtain ⟨rfl, rfl⟩ := pure_ok hpure <;> exact ⟨rfl, rfl⟩

theorem normalize_total_ok (equals : TypedExpr → Value → Prop) {payload : CoveragePat}
    (h : (normalize checker span (.total (some payload)) mode).run s = .ok (pats, s')) :
    ∃ rows s₁, (normalize checker span payload .row).run s = .ok (rows, s₁) ∧ s'.distinct = s₁.distinct
      ∧ ((pats = [.wild] ∧ ∀ d, Refuted (fieldTypes checker.types) (Built checker equals d)
          (HasType checker.types) (arity checker) (rows.map ([·])) [.wild]) ∨ pats = opaqueAlternatives mode) := by
  rw [normalize] at h
  obtain ⟨rows, s₁, h₁, h⟩ := seq_ok h
  obtain ⟨found, s₂, h₂, h⟩ := seq_ok h
  have hrun (d : Nat) := run_refuted equals d h₂
  refine ⟨rows, s₁, h₁, ?_⟩
  split at h
  · obtain ⟨rfl, rfl⟩ := pure_ok h
    exact ⟨(hrun 0).1, .inl ⟨rfl, fun d => (hrun d).2 rfl⟩⟩
  · obtain ⟨rfl, rfl⟩ := pure_ok h
    exact ⟨(hrun 0).1, .inr rfl⟩

theorem opaqueAlternatives_wild {pat : Pat} (h : pat ∈ opaqueAlternatives mode) : pat = .wild := by
  cases mode <;> simp_all [opaqueAlternatives]

def NormalTyped (checker : Checker) (s s' : Search) (pats : List Pat) (τ : Ty) : Prop :=
  s.distinct ≤ s'.distinct ∧ ∀ pat ∈ pats, pat.Typed (fieldTypes checker.types) τ

theorem normalTyped_wild : NormalTyped checker s s [.wild] τ :=
  ⟨le_rfl, by simp⟩

mutual

theorem normalize_typed (p : CoveragePat) {mode : Mode} {s s' : Search} {pats : List Pat} {τ : Ty}
    (h : (normalize checker span p mode).run s = .ok (pats, s')) (hp : PatTyped checker p τ) :
    NormalTyped checker s s' pats τ := by
  match p with
  | .wildcard | .total none =>
    rw [normalize] at h
    obtain ⟨rfl, rfl⟩ := pure_ok h
    exact normalTyped_wild
  | .opaquePat | .activeCase .. =>
    rw [normalize] at h
    obtain ⟨rfl, rfl⟩ := pure_ok h
    exact ⟨le_rfl, fun pat hpat => by rw [opaqueAlternatives_wild hpat]; exact typed_wild τ⟩
  | .constructor c arguments =>
    obtain ⟨-, σs, hσ, hargs⟩ := patTyped_constructor hp
    rw [normalize] at h
    obtain ⟨products, s₁, h₁, h⟩ := seq_ok h
    obtain ⟨rfl, rfl⟩ := pure_ok h
    obtain ⟨hd, hproducts⟩ := normalizeAll_typed arguments h₁ hargs
    refine ⟨hd, fun pat hpat => ?_⟩
    obtain ⟨product, hmem, rfl⟩ := mem_map.mp hpat
    obtain ⟨before, hbefore, rest, rfl, hrest⟩ := hproducts product hmem
    obtain rfl := mem_singleton.mp hbefore
    rw [PatternMatrix.Pat.Typed]
    exact ⟨σs, hσ, hrest⟩
  | .or left right =>
    rw [PatTyped] at hp
    rw [normalize] at h
    obtain ⟨ls, s₁, rs, h₁, h₂, rfl⟩ := both_ok h
    obtain ⟨hdl, hl⟩ := normalize_typed left h₁ hp.1
    obtain ⟨hdr, hr⟩ := normalize_typed right h₂ hp.2
    exact ⟨hdl.trans hdr, fun pat hpat => (mem_append.mp hpat).elim (hl pat) (hr pat)⟩
  | .and left right =>
    rw [PatTyped] at hp
    rw [normalize] at h
    obtain ⟨ls, s₁, rs, h₁, h₂, rfl⟩ := both_ok h
    obtain ⟨hdl, hl⟩ := normalize_typed left h₁ hp.1
    obtain ⟨hdr, hr⟩ := normalize_typed right h₂ hp.2
    refine ⟨hdl.trans hdr, fun pat hpat => ?_⟩
    obtain ⟨l, hlmem, hpat⟩ := mem_flatMap.mp hpat
    obtain ⟨r, hrmem, hinter⟩ := mem_filterMap.mp hpat
    exact intersect_typed hinter (hl l hlmem) (hr r hrmem)
  | .literal e =>
    rw [PatTyped] at hp
    obtain ⟨hd, rfl⟩ := normalize_literal_ok h
    obtain ⟨hle, htyped⟩ := literal_typed hp (Prod.eta (literal checker e s.distinct)).symm
    refine ⟨by rwa [hd], fun pat hpat => ?_⟩
    split at hpat
    · rename_i c hc
      obtain rfl := mem_singleton.mp hpat
      exact htyped c hc
    · simp at hpat
  | .total (some payload) =>
    rw [PatTyped] at hp
    obtain ⟨σ, hσ⟩ := hp
    obtain ⟨rows, s₁, h₁, hd, hpats⟩ := normalize_total_ok (fun _ _ => True) h
    refine ⟨by rw [hd]; exact (normalize_typed payload h₁ hσ).1, fun pat hpat => ?_⟩
    have : pat = .wild := by
      rcases hpats with ⟨rfl, -⟩ | rfl
      · exact mem_singleton.mp hpat
      · exact opaqueAlternatives_wild hpat
    rw [this]
    exact typed_wild τ

theorem normalizeAll_typed (ps : List CoveragePat) {mode : Mode} {s s' : Search}
    {products out : List (List Pat)} {σs : List Ty}
    (h : (normalizeAll checker span ps mode products).run s = .ok (out, s')) (hps : PatTypedAll checker ps σs) :
    s.distinct ≤ s'.distinct ∧ ∀ row ∈ out, ∃ before ∈ products, ∃ rest,
      row = before ++ rest ∧ TypedAll (fieldTypes checker.types) rest σs := by
  match ps, σs with
  | [], [] =>
    rw [normalizeAll] at h
    obtain ⟨rfl, rfl⟩ := pure_ok h
    exact ⟨le_rfl, fun row hrow => ⟨row, hrow, [], by simp⟩⟩
  | [], _ :: _ | _ :: _, [] => simp [PatTypedAll] at hps
  | p :: ps, σ :: σs =>
    rw [PatTypedAll] at hps
    rw [normalizeAll] at h
    obtain ⟨alternatives, s₁, h₁, h⟩ := seq_ok h
    obtain ⟨_, s₂, h₂, h⟩ := seq_ok h
    obtain rfl := limit_ok h₂
    obtain ⟨hd, halternatives⟩ := normalize_typed p h₁ hps.1
    obtain ⟨hd', hout⟩ := normalizeAll_typed ps h hps.2
    refine ⟨hd.trans hd', fun row hrow => ?_⟩
    obtain ⟨before', hbefore', rest, rfl, hrest⟩ := hout row hrow
    obtain ⟨before, hbefore, hmem⟩ := mem_flatMap.mp hbefore'
    obtain ⟨alternative, halternative, rfl⟩ := mem_map.mp hmem
    exact ⟨before, hbefore, alternative :: rest, by simp, typedAll_cons.mpr ⟨halternatives _ halternative, hrest⟩⟩

end

theorem accepts_of_refuted {d : Nat} {rows : List Pat} {σ : Ty} {v : Value}
    (href : Refuted (fieldTypes checker.types) (Built checker equals d) (HasType checker.types)
      (arity checker) (rows.map ([·])) [.wild]) (hrows : ∀ pat ∈ rows, pat.Typed (fieldTypes checker.types) σ)
    (hv : HasType checker.types v σ) : ∃ pat ∈ rows, Matches (Built checker equals d) pat v := by
  have htyped : RowsTyped (fieldTypes checker.types) (rows.map ([·])) [σ] := by
    intro row hrow
    obtain ⟨pat, hpat, rfl⟩ := mem_map.mp hrow
    exact typedAll_cons.mpr ⟨hrows pat hpat, typedAll_nil⟩
  obtain ⟨row, hrow, hm⟩ := href.covers built_fieldsTyped htyped
    (typedAll_cons.mpr ⟨typed_wild σ, typedAll_nil⟩) (.cons hv .nil)
    (matchesAll_cons.mpr ⟨matches_wild v, matchesAll_nil⟩)
  obtain ⟨pat, hpat, rfl⟩ := mem_map.mp hrow
  exact ⟨pat, hpat, (matchesAll_cons.mp hm).1⟩

mutual

/-- Rows stand for no more than their pattern accepts. -/
theorem normalize_row (p : CoveragePat) {s s' : Search} {pats : List Pat} {τ : Ty} {d : Nat}
    {v : Value} (h : (normalize checker span p .row).run s = .ok (pats, s'))
    (hp : PatTyped checker p τ) (hd : s'.distinct ≤ d) (hv : HasType checker.types v τ)
    {pat : Pat} (hpat : pat ∈ pats) (hm : Matches (Built checker equals d) pat v) : Accepts checker equals p v := by
  match p with
  | .wildcard | .total none => simp [Accepts]
  | .opaquePat | .activeCase .. =>
    rw [normalize] at h
    obtain ⟨rfl, -⟩ := pure_ok h
    simp [opaqueAlternatives] at hpat
  | .constructor c arguments =>
    obtain ⟨hc, σs, hσ, hargs⟩ := patTyped_constructor hp
    rw [normalize] at h
    obtain ⟨products, s₁, h₁, h⟩ := seq_ok h
    obtain ⟨rfl, rfl⟩ := pure_ok h
    obtain ⟨product, hmem, rfl⟩ := mem_map.mp hpat
    rw [Matches] at hm
    obtain ⟨vs, hbuilt, hvs⟩ := hm
    have hconstructed := hbuilt.constructed hc
    have htyped := constructed_fieldsTyped _ _ _ _ _ hconstructed hv hσ
    obtain ⟨before, hbefore, rest, rfl, hrest⟩ := normalizeAll_row arguments h₁ hargs hd htyped product hmem
    obtain rfl := mem_singleton.mp hbefore
    rw [Accepts]
    exact ⟨vs, hconstructed, hrest hvs⟩
  | .or left right =>
    rw [PatTyped] at hp
    rw [normalize] at h
    obtain ⟨ls, s₁, rs, h₁, h₂, rfl⟩ := both_ok h
    have hdl := (normalize_typed right h₂ hp.2).1.trans hd
    rw [Accepts]
    rcases mem_append.mp hpat with hpat | hpat
    · exact .inl (normalize_row left h₁ hp.1 hdl hv hpat hm)
    · exact .inr (normalize_row right h₂ hp.2 hd hv hpat hm)
  | .and left right =>
    rw [PatTyped] at hp
    rw [normalize] at h
    obtain ⟨ls, s₁, rs, h₁, h₂, rfl⟩ := both_ok h
    obtain ⟨-, hl⟩ := normalize_typed left h₁ hp.1
    obtain ⟨hdr, hr⟩ := normalize_typed right h₂ hp.2
    obtain ⟨l, hlmem, hpat⟩ := mem_flatMap.mp hpat
    obtain ⟨r, hrmem, hinter⟩ := mem_filterMap.mp hpat
    obtain ⟨hml, hmr⟩ := (intersect_sound hinter (hl l hlmem) (hr r hrmem)).2 v hm
    rw [Accepts]
    exact ⟨normalize_row left h₁ hp.1 (hdr.trans hd) hv hlmem hml, normalize_row right h₂ hp.2 hd hv hrmem hmr⟩
  | .literal e =>
    rw [PatTyped] at hp
    obtain ⟨hdistinct, rfl⟩ := normalize_literal_ok h
    rw [Accepts]
    split at hpat
    · rename_i c hc
      obtain rfl := mem_singleton.mp hpat
      have hliteral : literal checker e s.distinct = (.constructor c, s'.distinct) := by
        rw [hdistinct, ← hc]
      exact literal_row hp hliteral hd hv hm
    · simp at hpat
  | .total (some payload) =>
    obtain ⟨rows, s₁, h₁, hdistinct, hpats⟩ := normalize_total_ok equals h
    rcases hpats with ⟨rfl, href⟩ | rfl
    · rw [Accepts]
      intro σ hσ w hw
      obtain ⟨row, hrow, hmatch⟩ := accepts_of_refuted (href s₁.distinct) (normalize_typed payload h₁ hσ).2 hw
      exact normalize_row payload h₁ hσ le_rfl hw hrow hmatch
    · simp [opaqueAlternatives] at hpat

theorem normalizeAll_row (ps : List CoveragePat) {s s' : Search} {products out : List (List Pat)}
    {σs : List Ty} {d : Nat} {vs : List Value} (h : (normalizeAll checker span ps .row products).run s = .ok (out, s'))
    (hps : PatTypedAll checker ps σs) (hd : s'.distinct ≤ d) (hvs : List.Forall₂ (HasType checker.types) vs σs) :
    ∀ row ∈ out, ∃ before ∈ products, ∃ rest, row = before ++ rest
      ∧ (MatchesAll (Built checker equals d) rest vs → AcceptsAll checker equals ps vs) := by
  match ps, σs, vs with
  | [], [], [] =>
    rw [normalizeAll] at h
    obtain ⟨rfl, rfl⟩ := pure_ok h
    exact fun row hrow => ⟨row, hrow, [], by simp [AcceptsAll]⟩
  | [], _ :: _, _ | _ :: _, [], _ => simp [PatTypedAll] at hps
  | _, [], _ :: _ | _, _ :: _, [] => cases hvs
  | p :: ps, σ :: σs, v :: vs =>
    rw [PatTypedAll] at hps
    rw [normalizeAll] at h
    obtain ⟨alternatives, s₁, h₁, h⟩ := seq_ok h
    obtain ⟨_, s₂, h₂, h⟩ := seq_ok h
    obtain rfl := limit_ok h₂
    obtain ⟨hv, hvs⟩ := List.forall₂_cons.mp hvs
    have hd₁ := (normalizeAll_typed ps h hps.2).1.trans hd
    intro row hrow
    obtain ⟨before', hbefore', rest, rfl, hrest⟩ := normalizeAll_row ps h hps.2 hd hvs row hrow
    obtain ⟨before, hbefore, hmem⟩ := mem_flatMap.mp hbefore'
    obtain ⟨alternative, halternative, rfl⟩ := mem_map.mp hmem
    refine ⟨before, hbefore, alternative :: rest, by simp, fun hm => ?_⟩
    obtain ⟨hm, hms⟩ := matchesAll_cons.mp hm
    rw [AcceptsAll]
    exact ⟨normalize_row p h₁ hps.1 hd₁ hv halternative hm, hrest hms⟩

end

mutual

def Follows : Trace → Pat → Prop
  | .wild, p => p = .wild
  | .ctor (some c) traces, p => ∃ ps, p = .ctor c ps ∧ FollowsAll traces ps
  | .ctor none _, p => ∃ c, p = .ctor c []

def FollowsAll : List Trace → List Pat → Prop
  | [], ps => ps = []
  | t :: ts, ps => ∃ p ps', ps = p :: ps' ∧ Follows t p ∧ FollowsAll ts ps'

end

mutual

theorem intersect_of_join {a b t : Trace} {p q : Pat} {d : Nat} {v : Value}
    (h : joinTraces a b = some t) (ha : Follows a p) (hb : Follows b q)
    (hp : Matches (Built checker equals d) p v) (hq : Matches (Built checker equals d) q v) :
    ∃ r, intersect p q = some r ∧ Follows t r ∧ Matches (Built checker equals d) r v := by
  match a, b with
  | .wild, b =>
    obtain rfl : b = t := by simpa [joinTraces] using h
    obtain rfl : p = .wild := by simpa [Follows] using ha
    exact ⟨q, by simp [intersect], hb, hq⟩
  | .ctor c ls, .wild =>
    obtain rfl : .ctor c ls = t := by simpa [joinTraces] using h
    obtain rfl : q = .wild := by simpa [Follows] using hb
    exact ⟨p, by cases p <;> simp [intersect], ha, hp⟩
  | .ctor (some c) ls, .ctor (some c') rs =>
    rw [joinTraces] at h
    split at h
    · rename_i hc
      subst hc
      obtain ⟨ts, hts, rfl⟩ := Option.map_eq_some_iff.mp h
      rw [Follows] at ha hb
      obtain ⟨ps, rfl, hps⟩ := ha
      obtain ⟨qs, rfl, hqs⟩ := hb
      rw [Matches] at hp hq
      obtain ⟨vs, hbuilt, hvs⟩ := hp
      obtain ⟨vs', hbuilt', hvs'⟩ := hq
      obtain rfl := hbuilt.unique hbuilt'
      obtain ⟨rs, hrs, hfollows, hm⟩ := intersectAll_of_join hts hps hqs hvs hvs'
      refine ⟨.ctor c rs, by simp [intersect, hrs], ?_, ?_⟩
      · rw [Follows]
        exact ⟨rs, rfl, hfollows⟩
      · rw [Matches]
        exact ⟨vs, hbuilt, hm⟩
    · cases h
  | .ctor none ls, .ctor _ rs | .ctor (some _) ls, .ctor none rs =>
    rw [joinTraces] at h
    cases h

theorem intersectAll_of_join {as bs ts : List Trace} {ps qs : List Pat} {d : Nat}
    {vs : List Value} (h : joinAllTraces as bs = some ts) (ha : FollowsAll as ps)
    (hb : FollowsAll bs qs) (hp : MatchesAll (Built checker equals d) ps vs)
    (hq : MatchesAll (Built checker equals d) qs vs) :
    ∃ rs, intersectAll ps qs = some rs ∧ FollowsAll ts rs ∧ MatchesAll (Built checker equals d) rs vs := by
  match as, bs with
  | [], bs =>
    obtain rfl : [] = ts := by simpa [joinAllTraces] using h
    obtain rfl : ps = [] := by simpa [FollowsAll] using ha
    exact ⟨[], by simp [intersectAll], by simp [FollowsAll], hp⟩
  | a :: as, [] =>
    obtain rfl : [] = ts := by simpa [joinAllTraces] using h
    obtain rfl : qs = [] := by simpa [FollowsAll] using hb
    exact ⟨[], by cases ps <;> simp [intersectAll], by simp [FollowsAll], hq⟩
  | a :: as, b :: bs =>
    rw [joinAllTraces] at h
    obtain ⟨t, ht, h⟩ := Option.bind_eq_some_iff.mp h
    obtain ⟨ts', hts, h⟩ := Option.bind_eq_some_iff.mp h
    obtain rfl : t :: ts' = ts := by simpa using h
    rw [FollowsAll] at ha hb
    obtain ⟨p, ps', rfl, hpa, hps⟩ := ha
    obtain ⟨q, qs', rfl, hqb, hqs⟩ := hb
    match vs with
    | [] => simp [MatchesAll] at hp
    | v :: vs =>
      obtain ⟨hp, hps'⟩ := matchesAll_cons.mp hp
      obtain ⟨hq, hqs'⟩ := matchesAll_cons.mp hq
      obtain ⟨r, hr, hfollows, hm⟩ := intersect_of_join ht hpa hqb hp hq
      obtain ⟨rs, hrs, hfollowsAll, hms⟩ := intersectAll_of_join hts hps hqs hps' hqs'
      refine ⟨r :: rs, by simp [intersectAll, hr, hrs], ?_, matchesAll_cons.mpr ⟨hm, hms⟩⟩
      rw [FollowsAll]
      exact ⟨r, rs, rfl, hfollows, hfollowsAll⟩

end

mutual

/-- Queries stand for every value that their pattern matches without a clash. -/
theorem normalize_query (p : CoveragePat) {s s' : Search} {pats : List Pat} {τ : Ty} {d : Nat}
    {v : Value} {trace : Trace} (h : (normalize checker span p .query).run s = .ok (pats, s'))
    (hp : PatTyped checker p τ) (hd : d ≤ s.distinct) (hv : HasType checker.types v τ)
    (ht : Tests checker equals p v trace) :
    ∃ pat ∈ pats, Matches (Built checker equals d) pat v ∧ Follows trace pat := by
  match p with
  | .wildcard | .total none =>
    rw [normalize] at h
    obtain ⟨rfl, -⟩ := pure_ok h
    obtain rfl : trace = .wild := by simpa [Tests] using ht
    exact ⟨.wild, by simp, matches_wild v, by simp [Follows]⟩
  | .opaquePat | .activeCase .. =>
    rw [normalize] at h
    obtain ⟨rfl, -⟩ := pure_ok h
    obtain rfl : trace = .wild := by simpa [Tests] using ht
    exact ⟨.wild, by simp [opaqueAlternatives], matches_wild v, by simp [Follows]⟩
  | .total (some payload) =>
    obtain ⟨rows, s₁, -, -, hpats⟩ := normalize_total_ok equals h
    obtain rfl : trace = .wild := by simpa [Tests] using ht
    refine ⟨.wild, ?_, matches_wild v, by simp [Follows]⟩
    rcases hpats with ⟨rfl, -⟩ | rfl <;> simp [opaqueAlternatives]
  | .constructor c arguments =>
    obtain ⟨hc, σs, hσ, hargs⟩ := patTyped_constructor hp
    rw [normalize] at h
    obtain ⟨products, s₁, h₁, h⟩ := seq_ok h
    obtain ⟨rfl, rfl⟩ := pure_ok h
    rw [Tests] at ht
    obtain ⟨vs, traces, hconstructed, hts, rfl⟩ := ht
    have htyped := constructed_fieldsTyped _ _ _ _ _ hconstructed hv hσ
    obtain ⟨rest, hmem, hm, hfollows⟩ := normalizeAll_query arguments h₁ hargs hd htyped hts [] mem_cons_self
    refine ⟨.ctor c rest, mem_map.mpr ⟨rest, hmem, rfl⟩, ?_, ?_⟩
    · rw [Matches]
      exact ⟨vs, .inl hconstructed, hm⟩
    · rw [Follows]
      exact ⟨rest, rfl, hfollows⟩
  | .or left right =>
    rw [PatTyped] at hp
    rw [normalize] at h
    obtain ⟨ls, s₁, rs, h₁, h₂, rfl⟩ := both_ok h
    have hd₁ := hd.trans (normalize_typed left h₁ hp.1).1
    rw [Tests] at ht
    rcases ht with ht | ht
    · obtain ⟨pat, hpat, hm⟩ := normalize_query left h₁ hp.1 hd hv ht
      exact ⟨pat, mem_append_left _ hpat, hm⟩
    · obtain ⟨pat, hpat, hm⟩ := normalize_query right h₂ hp.2 hd₁ hv ht
      exact ⟨pat, mem_append_right _ hpat, hm⟩
  | .and left right =>
    rw [PatTyped] at hp
    rw [normalize] at h
    obtain ⟨ls, s₁, rs, h₁, h₂, rfl⟩ := both_ok h
    have hd₁ := hd.trans (normalize_typed left h₁ hp.1).1
    rw [Tests] at ht
    obtain ⟨a, b, hta, htb, hjoin⟩ := ht
    obtain ⟨l, hl, hml, hfl⟩ := normalize_query left h₁ hp.1 hd hv hta
    obtain ⟨r, hr, hmr, hfr⟩ := normalize_query right h₂ hp.2 hd₁ hv htb
    obtain ⟨pat, hpat, hfollows, hm⟩ := intersect_of_join hjoin hfl hfr hml hmr
    exact ⟨pat, mem_flatMap.mpr ⟨l, hl, mem_filterMap.mpr ⟨r, hr, hpat⟩⟩, hm, hfollows⟩
  | .literal e =>
    rw [PatTyped] at hp
    rw [Tests] at ht
    obtain ⟨hm, rfl⟩ := ht
    obtain ⟨-, rfl⟩ := normalize_literal_ok h
    obtain ⟨c, hc, hmatch, hhead⟩ := literal_query hp hv hd hm
    refine ⟨.ctor c [], by simp [hc], hmatch, ?_⟩
    rcases hhead with hhead | hhead <;> rw [hhead, Follows]
    · exact ⟨[], rfl, by simp [FollowsAll]⟩
    · exact ⟨c, rfl⟩

theorem normalizeAll_query (ps : List CoveragePat) {s s' : Search}
    {products out : List (List Pat)} {σs : List Ty} {d : Nat} {vs : List Value}
    {traces : List Trace} (h : (normalizeAll checker span ps .query products).run s = .ok (out, s'))
    (hps : PatTypedAll checker ps σs) (hd : d ≤ s.distinct) (hvs : List.Forall₂ (HasType checker.types) vs σs)
    (ht : TestsAll checker equals ps vs traces) : ∀ before ∈ products, ∃ rest, before ++ rest ∈ out
      ∧ MatchesAll (Built checker equals d) rest vs ∧ FollowsAll traces rest := by
  match ps, σs, vs with
  | [], [], [] =>
    rw [normalizeAll] at h
    obtain ⟨rfl, rfl⟩ := pure_ok h
    obtain rfl : traces = [] := by simpa [TestsAll] using ht
    exact fun before hbefore => ⟨[], by simpa using hbefore, matchesAll_nil, by simp [FollowsAll]⟩
  | [], _ :: _, _ | _ :: _, [], _ => simp [PatTypedAll] at hps
  | _, [], _ :: _ | _, _ :: _, [] => cases hvs
  | p :: ps, σ :: σs, v :: vs =>
    rw [PatTypedAll] at hps
    rw [normalizeAll] at h
    obtain ⟨alternatives, s₁, h₁, h⟩ := seq_ok h
    obtain ⟨_, s₂, h₂, h⟩ := seq_ok h
    obtain rfl := limit_ok h₂
    obtain ⟨hv, hvs⟩ := List.forall₂_cons.mp hvs
    rw [TestsAll] at ht
    obtain ⟨t, ts, htest, htests, rfl⟩ := ht
    have hd₁ := hd.trans (normalize_typed p h₁ hps.1).1
    obtain ⟨pat, hpat, hm, hfollows⟩ := normalize_query p h₁ hps.1 hd hv htest
    intro before hbefore
    obtain ⟨rest, hmem, hms, hfollowsAll⟩ := normalizeAll_query ps h hps.2 hd₁ hvs htests
      (before ++ [pat]) (mem_flatMap.mpr ⟨before, hbefore, mem_map.mpr ⟨pat, hpat, rfl⟩⟩)
    refine ⟨pat :: rest, by simpa using hmem, matchesAll_cons.mpr ⟨hm, hms⟩, ?_⟩
    rw [FollowsAll]
    exact ⟨pat, rest, rfl, hfollows, hfollowsAll⟩

end

end Normalize

end Tsuzuri
