import Mathlib.Tactic.NormNum
import Tsuzuri.CoverNormalize

/-!
# The coverage check is sound

Two results about `checkCoverage`.
-/

namespace Tsuzuri

open List

open PatternMatrix (Row Matches MatchesAll TypedAll RowsTyped Covers Refuted matches_wild
  matchesAll_cons matchesAll_nil typedAll_cons typedAll_nil typed_wild)

section Arms

variable (checker : Checker) (equals : TypedExpr → Value → Prop)

def AcceptedBy (arms : List CoverageArm) (v : Value) : Prop :=
  ∃ arm ∈ arms, arm.guarded = false ∧ Accepts checker equals arm.pattern v

/-- The arms of a match on values of the type `τ` that the checker accepts. -/
def ArmsTyped (arms : List CoverageArm) (τ : Ty) : Prop :=
  ∀ arm ∈ arms, PatTyped checker arm.pattern τ

/-- The rows of `arms`: an unguarded arm accepts what they cover. -/
structure Collected (s : Search) (rows : List (Row Constructor)) (τ : Ty)
    (arms : List CoverageArm) : Prop where
  typed : RowsTyped (fieldTypes checker.types) rows [τ]
  sound : ∀ d ≥ s.distinct, ∀ v, HasType checker.types v τ →
    Covers (Built checker equals d) rows [v] → AcceptedBy checker equals arms v

variable {checker equals} {span : Span} {s s' : Search} {τ : Ty}

theorem except_bind_ok {ε α β : Type} {x : Except ε α} {f : α → Except ε β} {b : β}
    (h : (x >>= f) = .ok b) : ∃ a, x = .ok a ∧ f a = .ok b := by
  cases x with
  | error e => cases h
  | ok a => exact ⟨a, rfl, h⟩

variable {arms unreachable : List CoverageArm} {rows : List (Row Constructor)} {arm : CoverageArm}
  {useful : Bool} {coverage : MatchCoverage} {ms : List MatchCoverage} {warnings : List Diagnostic}

theorem AcceptedBy.mono {arms' : List CoverageArm} {v : Value} (h : AcceptedBy checker equals arms v)
    (hsub : ∀ arm ∈ arms, arm ∈ arms') : AcceptedBy checker equals arms' v := by
  obtain ⟨arm, harm, hguard, haccepts⟩ := h
  exact ⟨arm, hsub arm harm, hguard, haccepts⟩

theorem collected_nil : Collected checker equals s [] τ [] :=
  ⟨fun _ h => by simp at h, fun _ _ _ _ ⟨_, h, _⟩ => by simp at h⟩

theorem Collected.guarded (h : Collected checker equals s rows τ arms) (hd : s.distinct ≤ s'.distinct) :
    Collected checker equals s' rows τ (arms ++ [arm]) :=
  ⟨h.typed, fun d hle v hv hcovers => (h.sound d (hd.trans hle) v hv hcovers).mono fun _ hmem => mem_append_left _ hmem⟩

theorem Collected.unguarded {pats : List Pat} {s₁ : Search} (h : Collected checker equals s rows τ arms)
    (hd : s.distinct ≤ s₁.distinct) (hguard : arm.guarded = false) (harm : PatTyped checker arm.pattern τ)
    (hpats : (normalize checker span arm.pattern .row).run s₁ = .ok (pats, s')) :
    Collected checker equals s' (rows ++ pats.map ([·])) τ (arms ++ [arm]) := by
  obtain ⟨hd', htyped⟩ := normalize_typed arm.pattern hpats harm
  constructor
  · intro row hrow
    rcases mem_append.mp hrow with hrow | hrow
    · exact h.typed row hrow
    · obtain ⟨pat, hpat, rfl⟩ := mem_map.mp hrow
      exact typedAll_cons.mpr ⟨htyped pat hpat, typedAll_nil⟩
  · rintro d hle v hv ⟨row, hrow, hm⟩
    rcases mem_append.mp hrow with hrow | hrow
    · exact (h.sound d (by omega) v hv ⟨row, hrow, hm⟩).mono fun _ hmem => mem_append_left _ hmem
    · obtain ⟨pat, hpat, rfl⟩ := mem_map.mp hrow
      exact ⟨arm, by simp, hguard, normalize_row arm.pattern hpats harm hle hv hpat (matchesAll_cons.mp hm).1⟩

theorem usefulQuery_ok {queries : List Pat} (h : (usefulQuery checker span rows queries).run s = .ok (useful, s')) :
    s'.distinct = s.distinct ∧ (useful = false → ∀ query ∈ queries, ∀ d,
      Refuted (fieldTypes checker.types) (Built checker equals d) (HasType checker.types)
        (arity checker) rows [query]) := by
  induction queries generalizing s with
  | nil =>
    rw [usefulQuery] at h
    obtain ⟨rfl, rfl⟩ := pure_ok h
    exact ⟨rfl, by simp⟩
  | cons query queries ih =>
    rw [usefulQuery] at h
    obtain ⟨found, s₁, h₁, h⟩ := seq_ok h
    have hrun (d : Nat) := run_refuted equals d h₁
    split at h
    · obtain ⟨rfl, rfl⟩ := pure_ok h
      exact ⟨(hrun 0).1, by simp⟩
    · obtain ⟨hd, hrest⟩ := ih h
      refine ⟨hd.trans (hrun 0).1, fun huseful => forall_mem_cons.mpr ⟨?_, hrest huseful⟩⟩
      exact fun d => (hrun d).2 rfl

theorem checkArm_ok {rows' : List (Row Constructor)}
    (h : (checkArm checker span arm rows).run s = .ok ((useful, rows'), s'))
    (harm : PatTyped checker arm.pattern τ) (hinv : Collected checker equals s rows τ arms) :
    Collected checker equals s' rows' τ (arms ++ [arm]) ∧ (useful = false → ∀ v, HasType checker.types v τ →
        ∀ trace, Tests checker equals arm.pattern v trace → AcceptedBy checker equals arms v) := by
  unfold checkArm at h
  obtain ⟨queries, s₁, h₁, h⟩ := seq_ok h
  obtain ⟨useful', s₂, h₂, h⟩ := seq_ok h
  obtain ⟨hd₁, hqueries⟩ := normalize_typed arm.pattern h₁ harm
  have huseful : s₂.distinct = s₁.distinct ∧ (useful' = false → ∀ query ∈ queries, ∀ d,
      Refuted (fieldTypes checker.types) (Built checker equals d) (HasType checker.types)
        (arity checker) rows [query]) := by
    unfold usefulArm at h₂
    split at h₂
    · obtain ⟨rfl, rfl⟩ := pure_ok h₂
      exact ⟨rfl, by simp⟩
    · exact usefulQuery_ok h₂
  -- the rows are older than the queries, so their distinct keys are below those of the queries
  have hcovered (hfalse : useful' = false) (v : Value) (hv : HasType checker.types v τ)
      (trace : Trace) (ht : Tests checker equals arm.pattern v trace) :
      AcceptedBy checker equals arms v := by
    obtain ⟨query, hquery, hm, -⟩ := normalize_query arm.pattern h₁ harm le_rfl hv ht
    refine hinv.sound s.distinct le_rfl v hv ?_
    exact (huseful.2 hfalse query hquery s.distinct).covers built_fieldsTyped hinv.typed
      (typedAll_cons.mpr ⟨hqueries query hquery, typedAll_nil⟩) (.cons hv .nil)
      (matchesAll_cons.mpr ⟨hm, matchesAll_nil⟩)
  have hle : s.distinct ≤ s₂.distinct := by omega
  split at h
  · obtain ⟨hresult, rfl⟩ := pure_ok h
    cases hresult
    exact ⟨hinv.guarded hle, hcovered⟩
  · rename_i hguard
    obtain ⟨pats, s₃, h₃, h⟩ := seq_ok h
    obtain ⟨hresult, rfl⟩ := pure_ok h
    cases hresult
    exact ⟨hinv.unguarded hle (by simpa using hguard) harm h₃, hcovered⟩

/-- The arms at `positions` match without a clash only what the arms in front of them accept. -/
structure Reported (checker : Checker) (equals : TypedExpr → Value → Prop)
    (before arms : List CoverageArm) (τ : Ty) (positions : List Nat) : Prop where
  covered : ∀ i ∈ positions, ∀ arm, arms[i]? = some arm → ∀ v, HasType checker.types v τ →
    ∀ trace, Tests checker equals arm.pattern v trace → AcceptedBy checker equals (before ++ arms.take i) v

theorem checkArms_ok {rows' : List (Row Constructor)}
    (h : (checkArms checker span arms rows).run s = .ok ((unreachable, rows'), s')) :
    ∃ positions : List Nat, positions.Pairwise (· < ·) ∧ (∀ i ∈ positions, i < arms.length)
      ∧ unreachable = positions.filterMap (arms[·]?)
      ∧ ∀ τ before, ArmsTyped checker arms τ → Collected checker equals s rows τ before →
        Collected checker equals s' rows' τ (before ++ arms) ∧ Reported checker equals before arms τ positions := by
  induction arms generalizing s rows unreachable with
  | nil =>
    rw [checkArms] at h
    obtain ⟨hresult, rfl⟩ := pure_ok h
    cases hresult
    exact ⟨[], .nil, by simp, rfl, fun τ before _ hinv => ⟨by simpa using hinv, ⟨by simp⟩⟩⟩
  | cons arm arms ih =>
    rw [checkArms] at h
    obtain ⟨⟨useful, rows₁⟩, s₁, h₁, h⟩ := seq_ok h
    obtain ⟨⟨unreachable₁, rows₂⟩, s₂, h₂, h⟩ := seq_ok h
    obtain ⟨hresult, rfl⟩ := pure_ok h
    obtain ⟨rfl, rfl⟩ := Prod.mk.inj hresult
    obtain ⟨positions, hsorted, hbound, rfl, hrest⟩ := ih h₂
    have hmap : (positions.map (· + 1)).filterMap ((arm :: arms)[·]?) = positions.filterMap (arms[·]?) := by
      rw [filterMap_map]
      rfl
    have hshift : (positions.map (· + 1)).Pairwise (· < ·) :=
      hsorted.map _ fun _ _ h => by simpa using h
    have hboundShift : ∀ i ∈ positions.map (· + 1), i < (arm :: arms).length := by
      simpa using hbound
    have hstep (τ : Ty) (before : List CoverageArm) (htyped : ArmsTyped checker (arm :: arms) τ)
        (hinv : Collected checker equals s rows τ before) :
        Collected checker equals s₂ rows₂ τ (before ++ arm :: arms)
          ∧ Reported checker equals before (arm :: arms) τ (positions.map (· + 1))
          ∧ (useful = false → ∀ v, HasType checker.types v τ → ∀ trace,
            Tests checker equals arm.pattern v trace → AcceptedBy checker equals before v) := by
      obtain ⟨harm, harms⟩ := forall_mem_cons.mp htyped
      obtain ⟨hinv₁, huseless⟩ := checkArm_ok h₁ harm hinv
      obtain ⟨hinv₂, hreported⟩ := hrest τ (before ++ [arm]) harms hinv₁
      refine ⟨by simpa using hinv₂, ⟨fun i hi arm' harm' => ?_⟩, huseless⟩
      obtain ⟨j, hj, rfl⟩ := mem_map.mp hi
      simpa using hreported.covered j hj arm' harm'
    cases useful with
    | true =>
      refine ⟨positions.map (· + 1), hshift, hboundShift, by simp [hmap], ?_⟩
      intro τ before htyped hinv
      obtain ⟨hinv', hreported, -⟩ := hstep τ before htyped hinv
      exact ⟨hinv', hreported⟩
    | false =>
      refine ⟨0 :: positions.map (· + 1), ?_, ?_, by simp [hmap], ?_⟩
      · exact pairwise_cons.mpr ⟨by simp, hshift⟩
      · exact forall_mem_cons.mpr ⟨by simp, hboundShift⟩
      · intro τ before htyped hinv
        obtain ⟨hinv', hreported, huseless⟩ := hstep τ before htyped hinv
        refine ⟨hinv', ⟨forall_mem_cons.mpr ⟨fun arm' harm' => ?_, hreported.covered⟩⟩⟩
        obtain rfl : arm = arm' := by simpa using harm'
        simpa using huseless rfl

theorem checkMatch_ok (h : checkMatch checker coverage = .ok unreachable) :
    ∃ positions : List Nat, positions.Pairwise (· < ·) ∧ (∀ i ∈ positions, i < coverage.arms.length)
      ∧ unreachable = positions.filterMap (coverage.arms[·]?) ∧ ∀ τ, ArmsTyped checker coverage.arms τ →
        (∀ v, HasType checker.types v τ → AcceptedBy checker equals coverage.arms v)
          ∧ Reported checker equals [] coverage.arms τ positions := by
  unfold checkMatch at h
  obtain ⟨⟨⟨unreachable', rows⟩, s⟩, harms, h⟩ := except_bind_ok h
  obtain ⟨⟨found, s'⟩, hrun, h⟩ := except_bind_ok h
  cases found with
  | some witness => cases h
  | none =>
    obtain rfl : unreachable' = unreachable := Except.ok.inj h
    obtain ⟨positions, hsorted, hbound, hunreachable, hrest⟩ := checkArms_ok harms
    refine ⟨positions, hsorted, hbound, hunreachable, fun τ htyped => ?_⟩
    obtain ⟨hinv, hreported⟩ := hrest τ [] htyped collected_nil
    refine ⟨fun v hv => ?_, hreported⟩
    have hcovers := ((run_refuted equals s.distinct hrun).2 rfl).covers built_fieldsTyped hinv.typed
      (typedAll_cons.mpr ⟨typed_wild τ, typedAll_nil⟩) (.cons hv .nil)
      (matchesAll_cons.mpr ⟨matches_wild v, matchesAll_nil⟩)
    simpa using hinv.sound s.distinct le_rfl v hv hcovers

theorem checkCoverage_ok (h : checkCoverage checker ms = .ok warnings) :
    ∃ unreachable, List.Forall₂ (fun coverage arms => checkMatch checker coverage = .ok arms) ms unreachable
      ∧ warnings = unreachable.flatMap (·.map unreachableArm) := by
  induction ms generalizing warnings with
  | nil =>
    obtain rfl : [] = warnings := Except.ok.inj h
    exact ⟨[], .nil, rfl⟩
  | cons coverage ms ih =>
    rw [checkCoverage] at h
    obtain ⟨arms, hmatch, h⟩ := except_bind_ok h
    obtain ⟨rest, hrest, h⟩ := except_bind_ok h
    obtain rfl : arms.map unreachableArm ++ rest = warnings := Except.ok.inj h
    obtain ⟨unreachable, hall, rfl⟩ := ih hrest
    exact ⟨arms :: unreachable, .cons hmatch hall, by simp⟩

theorem checkCoverage_mem (h : checkCoverage checker ms = .ok warnings) (hmem : coverage ∈ ms) :
    ∃ unreachable, checkMatch checker coverage = .ok unreachable := by
  obtain ⟨unreachable, hall, -⟩ := checkCoverage_ok h
  clear h
  induction hall with
  | nil => simp at hmem
  | cons hmatch _ ih =>
    rcases mem_cons.mp hmem with rfl | hmem
    · exact ⟨_, hmatch⟩
    · exact ih hmem

end Arms

/-! ## The check -/

section Check

variable {checker : Checker} {equals : TypedExpr → Value → Prop} {ms : List MatchCoverage} {warnings : List Diagnostic}

/-- Every value of the type of the scrutinee is accepted by an unguarded arm. -/
theorem checkCoverage_exhaustive (h : checkCoverage checker ms = .ok warnings)
    {coverage : MatchCoverage} (hmem : coverage ∈ ms) {τ : Ty}
    (htyped : ArmsTyped checker coverage.arms τ) {v : Value} (hv : HasType checker.types v τ) :
    AcceptedBy checker equals coverage.arms v := by
  obtain ⟨unreachable, hmatch⟩ := checkCoverage_mem h hmem
  obtain ⟨positions, -, -, -, hresult⟩ := checkMatch_ok hmatch
  exact (hresult τ htyped).1 v hv

/-- A checker without records and unions, which rounds a few numerals to `f64`. -/
def plainChecker : Checker where
  types := { records := [], unions := [] }
  resolve ty := ty
  floatLiteral text _ :=
    if text = "1.0" ∨ text = "1.00" then some "0x3ff0000000000000"
    else if text = "5.0" then some "0x4014000000000000"
    else none
  caseName _ _ _ := ""

def armAt (start : Nat) (pattern : CoveragePat) (guarded : Bool) : CoverageArm :=
  { pattern, guarded, span := { start, «end» := start + 1, source := none } }

/-- `match b with | true when .. -> .. | true -> .. | false -> ..` -/
def boolMatch : MatchCoverage where
  span := { start := 0, «end» := 9, source := none }
  arms := [armAt 1 (.constructor (.bool true) []) true, armAt 2 (.constructor (.bool true) []) false,
    armAt 3 (.constructor (.bool false) []) false]
  appendAt := none

theorem checkCoverage_exhaustive_bool : checkCoverage plainChecker [boolMatch] = .ok []
    ∧ ArmsTyped plainChecker boolMatch.arms .bool
    ∧ HasType plainChecker.types (.bool false) .bool
    ∧ AcceptedBy plainChecker (fun _ _ => False) boolMatch.arms (.bool false) := by
  have htyped : ArmsTyped plainChecker boolMatch.arms .bool := by
    simp [ArmsTyped, boolMatch, armAt, PatTyped, PatTypedAll, fieldTypes, Ty.strip]
  have hv : HasType plainChecker.types (.bool false) .bool := .bool rfl
  have h : checkCoverage plainChecker [boolMatch] = .ok [] := rfl
  exact ⟨h, htyped, hv, checkCoverage_exhaustive h mem_cons_self htyped hv⟩

/-- What the pattern of the arm at `i` may match an earlier unguarded arm accepts, so it never runs. -/
def Unreachable (checker : Checker) (equals : TypedExpr → Value → Prop) (coverage : MatchCoverage)
    (τ : Ty) (i : Nat) : Prop :=
  ∀ arm, coverage.arms[i]? = some arm → ∀ v, HasType checker.types v τ →
    MayMatch checker equals arm.pattern v → AcceptedBy checker equals (coverage.arms.take i) v

def ClashesAccepted (checker : Checker) (equals : TypedExpr → Value → Prop)
    (coverage : MatchCoverage) (τ : Ty) (i : Nat) : Prop :=
  ∀ arm, coverage.arms[i]? = some arm → ∀ v, HasType checker.types v τ →
    Clashes checker equals arm.pattern v → AcceptedBy checker equals (coverage.arms.take i) v

/-- The warnings are those of arms of the matches, in order, and a reported arm
never runs exactly when the values on which its literals clash are accepted
earlier. -/
theorem checkCoverage_unreachable (h : checkCoverage checker ms = .ok warnings) : ∃ reported : List (List Nat),
      warnings = (List.zipWith (fun coverage positions =>
        (positions.filterMap (coverage.arms[·]?)).map unreachableArm) ms reported).flatten
      ∧ List.Forall₂ (fun coverage positions => positions.Pairwise (· < ·)
        ∧ ∀ i ∈ positions, i < coverage.arms.length ∧ ∀ τ, ArmsTyped checker coverage.arms τ →
          (Unreachable checker equals coverage τ i ↔ ClashesAccepted checker equals coverage τ i))
        ms reported := by
  obtain ⟨unreachable, hall, rfl⟩ := checkCoverage_ok h
  clear h
  induction hall with
  | nil => exact ⟨[], rfl, .nil⟩
  | @cons coverage arms ms unreachable hmatch _ ih =>
    obtain ⟨reported, hwarnings, hreported⟩ := ih
    obtain ⟨positions, hsorted, hbound, rfl, hresult⟩ := checkMatch_ok hmatch
    refine ⟨positions :: reported, by simp [hwarnings], .cons ⟨hsorted, fun i hi =>
      ⟨hbound i hi, fun τ htyped => ⟨fun h arm harm v hv hclash => h arm harm v hv hclash.1,
        fun h arm harm v hv hm => ?_⟩⟩⟩ hreported⟩
    by_cases htests : ∃ trace, Tests checker equals arm.pattern v trace
    · obtain ⟨trace, ht⟩ := htests
      simpa using (hresult τ htyped).2.covered i hi arm harm v hv trace ht
    · exact h arm harm v hv ⟨hm, fun trace ht => htests ⟨trace, ht⟩⟩

/-- `match b with | _ -> .. | true -> ..` -/
def wildcardMatch : MatchCoverage where
  span := { start := 0, «end» := 9, source := none }
  arms := [armAt 1 .wildcard false, armAt 2 (.constructor (.bool true) []) false]
  appendAt := none

theorem checkCoverage_unreachable_wildcard : checkCoverage plainChecker [wildcardMatch]
        = .ok (wildcardMatch.arms[1]?.toList.map unreachableArm)
      ∧ ∃ reported : List (List Nat), List.Forall₂ (fun coverage positions =>
        ∀ i ∈ positions, ∀ τ, ArmsTyped plainChecker coverage.arms τ →
          (Unreachable plainChecker (fun _ _ => False) coverage τ i
            ↔ ClashesAccepted plainChecker (fun _ _ => False) coverage τ i))
        [wildcardMatch] reported := by
  have h : checkCoverage plainChecker [wildcardMatch] = .ok (wildcardMatch.arms[1]?.toList.map unreachableArm) := rfl
  obtain ⟨reported, -, hall⟩ := checkCoverage_unreachable h
  exact ⟨h, reported, hall.imp fun _ _ h i hi => (h.2 i hi).2⟩

/-- A numeral pattern against a value of the type parameter `T`. -/
def numeral (text : String) : CoveragePat :=
  .literal { kind := .genericFloat text, ty := .variable "T", span := default }

/-- `match x with | 5.0 -> .. | (1.0 & 1.00) | 5.0 -> .. | _ -> ..` for `x : T`. -/
def numeralMatch : MatchCoverage where
  span := { start := 0, «end» := 9, source := none }
  arms := [armAt 1 (numeral "5.0") false, armAt 2 (.or (.and (numeral "1.0") (numeral "1.00")) (numeral "5.0")) false,
    armAt 3 .wildcard false]
  appendAt := none

theorem numeralMatch_typed : ArmsTyped plainChecker numeralMatch.arms (.variable "T") := by
  have htyped (text : String) (htext : FloatText text) : PatTyped plainChecker (numeral text) (.variable "T") := by
    rw [numeral, PatTyped]
    exact ⟨rfl, .inr rfl, htext⟩
  have h1 := htyped "1.0" ⟨⟨'.', by decide, by decide⟩, by simp, by simp [Digits.Unsigned]⟩
  have h1' := htyped "1.00" ⟨⟨'.', by decide, by decide⟩, by simp, by simp [Digits.Unsigned]⟩
  have h5 := htyped "5.0" ⟨⟨'.', by decide, by decide⟩, by simp, by simp [Digits.Unsigned]⟩
  simp [ArmsTyped, numeralMatch, armAt, PatTyped, h1, h1', h5]

theorem binaryRaw_one : binaryRaw 64 "0x3ff0000000000000" = some (0x3ff0000000000000, 64) := by
  decide

theorem binaryRaw_five : binaryRaw 64 "0x4014000000000000" = some (0x4014000000000000, 64) := by
  decide

theorem binaryValue_one : binaryValue 64 0x3ff0000000000000 = some (.finite 1) := by
  simp [binaryValue, binaryFormat, signed, Nat.shiftRight_eq_div_pow]

theorem binaryValue_five : binaryValue 64 0x4014000000000000 = some (.finite 5) := by
  simp [binaryValue, binaryFormat, signed, Nat.shiftRight_eq_div_pow]
  norm_num

/-- The arm that is reported matches `1.0` of the type `f64`: the keys of `1.0` and `1.00` differ. -/
theorem checkCoverage_report_false : checkCoverage plainChecker [numeralMatch]
        = .ok (numeralMatch.arms[1]?.toList.map unreachableArm)
      ∧ ArmsTyped plainChecker numeralMatch.arms (.variable "T")
      ∧ ¬ Unreachable plainChecker (fun _ _ => False) numeralMatch (.variable "T") 1 := by
  refine ⟨rfl, numeralMatch_typed, fun h => ?_⟩
  have hone (text : String) (htext : text = "1.0" ∨ text = "1.00") :
      MayMatch plainChecker (fun _ _ => False) (numeral text) (.number (.binary 64) (.float (.finite 1))) := by
    rw [numeral, MayMatch]
    refine ⟨_, _, rfl, ?_, by simp⟩
    simp [literalNumber, plainChecker, htext, floatValue, binaryRaw_one, flipSign, binaryValue_one]
  obtain ⟨arm, harm, -, haccepts⟩ := h _ rfl (.number (.binary 64) (.float (.finite 1))) (.unknown rfl) (by
      rw [armAt, MayMatch, MayMatch]
      exact .inl ⟨hone "1.0" (.inl rfl), hone "1.00" (.inr rfl)⟩)
  obtain rfl : arm = armAt 1 (numeral "5.0") false := by simpa [numeralMatch] using harm
  rw [armAt, numeral, Accepts] at haccepts
  obtain ⟨ty, x, hv, hx, -⟩ := haccepts
  obtain ⟨rfl, rfl⟩ := Value.number.inj hv
  simp [literalNumber, plainChecker, floatValue, binaryRaw_five, flipSign, binaryValue_five] at hx

end Check

end Tsuzuri
