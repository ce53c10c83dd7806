import Tsuzuri.CoverComplete

/-!
# Missing-case witnesses are real and sufficient

What `check_coverage` reports of a match that is not exhaustive.
-/

namespace Tsuzuri

open List

open PatternMatrix (Row Matches MatchesAll RowsTyped TypedAll Covers matches_wild matchesAll_cons
  matchesAll_nil typedAll_cons typedAll_nil typed_wild)

/-! ## Witnesses as arms -/

mutual

/-- The pattern of an arm with a writable witness: booleans and `()` are read back as literals. -/
def Witness.coverage (span : Span) : Witness → CoveragePat
  | .wild => .wildcard
  | .ctor (.bool value) _ => .literal { kind := .bool value, ty := .bool, span }
  | .ctor .unit _ => .literal { kind := .unit, ty := .unit, span }
  | .ctor c arguments => .constructor c (coverageAll span arguments)

def coverageAll (span : Span) : List Witness → List CoveragePat
  | [] => []
  | w :: ws => w.coverage span :: coverageAll span ws

end

def addedArm (span : Span) (w : Witness) : CoverageArm :=
  { pattern := w.coverage span, guarded := false, span }

variable {arms : List CoverageArm}

section Added

variable {checker : Checker} {equals : TypedExpr → Value → Prop} {span : Span} {d : Nat}

theorem matches_constant_built {c : Constructor} (hc : ∀ key, c ≠ .literal key) {ps : List Pat} {v : Value}
    (h : Matches (Built checker equals d) (.ctor c ps) v) :
    ∃ vs, Constructed c vs v ∧ MatchesAll (Built checker equals d) ps vs := by
  rw [Matches] at h
  obtain ⟨vs, hbuilt, hm⟩ := h
  exact ⟨vs, hbuilt.constructed hc, hm⟩

theorem witnessPattern_map (c : Constructor) (ws : List Witness) :
    witnessPattern (.ctor c ws) = .ctor c (ws.map witnessPattern) := by
  simp [witnessPattern]

mutual

theorem accepts_coverage (w : Witness) (hw : writable w = true) {v : Value}
    (h : Matches (Built checker equals d) (witnessPattern w) v) : Accepts checker equals (w.coverage span) v := by
  match w with
  | .wild => simp [Witness.coverage, Accepts]
  | .ctor (.bool b) _ | .ctor .unit _ =>
    rw [witnessPattern_map] at h
    obtain ⟨vs, hvs, -⟩ := matches_constant_built (by simp) h
    rw [Witness.coverage, Accepts]
    cases v <;> cases hvs
    rfl
  | .ctor (.union id case) ws | .ctor (.tuple n) ws =>
    rw [witnessPattern_map] at h
    obtain ⟨vs, hvs, hm⟩ := matches_constant_built (by simp) h
    rw [writable] at hw
    simp only [Witness.coverage]
    rw [Accepts]
    exact ⟨vs, hvs, acceptsAll_coverage ws hw hm⟩
  | .ctor (.record ..) _ | .ctor (.arrayLen _) _ | .ctor .listNil _ | .ctor .listCons _
  | .ctor (.literal _) _ => simp [writable] at hw

theorem acceptsAll_coverage (ws : List Witness) (hws : writableAll ws = true) {vs : List Value}
    (h : MatchesAll (Built checker equals d) (ws.map witnessPattern) vs) :
    AcceptsAll checker equals (coverageAll span ws) vs := by
  match ws, vs with
  | [], [] => simp [coverageAll, AcceptsAll]
  | [], _ :: _ | _ :: _, [] => simp [MatchesAll] at h
  | w :: ws, v :: vs =>
    rw [writableAll, Bool.and_eq_true] at hws
    rw [map_cons] at h
    obtain ⟨hv, hvs⟩ := matchesAll_cons.mp h
    rw [coverageAll, AcceptsAll]
    exact ⟨accepts_coverage w hws.1 hv, acceptsAll_coverage ws hws.2 hvs⟩

end

theorem Collected.added {s s' : Search} {rows : List (Row Constructor)} {τ : Ty} {w : Witness}
    (h : Collected checker equals s rows τ arms) (hd : s.distinct ≤ s'.distinct)
    (htyped : (witnessPattern w).Typed (fieldTypes checker.types) τ) (hw : writable w = true) :
    Collected checker equals s' (rows ++ [[witnessPattern w]]) τ (arms ++ [addedArm span w]) := by
  constructor
  · intro row hrow
    rcases mem_append.mp hrow with hrow | hrow
    · exact h.typed row hrow
    · rw [mem_singleton.mp hrow]
      exact typedAll_cons.mpr ⟨htyped, typedAll_nil⟩
  · rintro d hle v hv ⟨row, hrow, hm⟩
    rcases mem_append.mp hrow with hrow | hrow
    · exact (h.sound d (hd.trans hle) v hv ⟨row, hrow, hm⟩).mono fun _ hmem => mem_append_left _ hmem
    · rw [mem_singleton.mp hrow] at hm
      exact ⟨addedArm span w, by simp, rfl, accepts_coverage w hw (matchesAll_cons.mp hm).1⟩

end Added

section Search

variable {checker : Checker} {equals : TypedExpr → Value → Prop} {span : Span} {s s' : Search}
  {τ : Ty} {arms : List CoverageArm} {rows : List (Row Constructor)} {w : Witness}
variable {describe : Bool}

theorem witness_typed (hrows : RowsTyped (fieldTypes checker.types) rows [τ])
    (h : (run checker span rows [.wild] describe).run s = .ok (some w, s')) (hdescribe : describe = true) :
    (witnessPattern w).Typed (fieldTypes checker.types) τ := by
  obtain ⟨w', hescapes, hw⟩ := run_escapes h
  rw [← hw hdescribe]
  exact (typedAll_cons.mp (hescapes.typed splits_typed heads_haveType rfl hrows)).1

def Exhaustive (checker : Checker) (equals : TypedExpr → Value → Prop) (arms : List CoverageArm) (τ : Ty) : Prop :=
  ∀ v, HasType checker.types v τ → AcceptedBy checker equals arms v

theorem exhaustive_of_run (hinv : Collected checker equals s rows τ arms)
    (h : (run checker span rows [.wild] describe).run s = .ok (none, s')) : Exhaustive checker equals arms τ := by
  intro v hv
  have hcovers := ((run_refuted equals s.distinct h).2 rfl).covers built_fieldsTyped hinv.typed
    (typedAll_cons.mpr ⟨typed_wild τ, typedAll_nil⟩) (.cons hv .nil)
    (matchesAll_cons.mpr ⟨matches_wild v, matchesAll_nil⟩)
  exact hinv.sound s.distinct le_rfl v hv hcovers

theorem missingArms_exhaustive {more : Nat} {texts : List String} (hinv : Collected checker equals s rows τ arms)
    (htyped : (witnessPattern w).Typed (fieldTypes checker.types) τ)
    (h : missingArms checker span more s rows w = some texts) :
    ∃ ws : List Witness, texts = ws.map (fun w => "| " ++ witnessText checker span w ++ " -> unreachable ()")
        ∧ (∀ w ∈ ws, writable w = true ∧ (witnessPattern w).Typed (fieldTypes checker.types) τ)
        ∧ Exhaustive checker equals (arms ++ ws.map (addedArm span)) τ := by
  induction more generalizing s rows w arms texts with
  | zero => simp [missingArms] at h
  | succ more ih =>
    rw [missingArms] at h
    split at h
    · cases h
    rename_i hw
    have hw : writable w = true := by simpa using hw
    simp only at h
    split at h
    · rename_i s₁ hrun
      cases h
      refine ⟨[w], rfl, by simpa using ⟨hw, htyped⟩, ?_⟩
      exact exhaustive_of_run (hinv.added le_rfl htyped hw) hrun
    · rename_i next s₁ hrun
      obtain ⟨texts, hrest, rfl⟩ := Option.map_eq_some_iff.mp h
      have hinv' : Collected checker equals s (rows ++ [[witnessPattern w]]) τ
          (arms ++ [addedArm span w]) := hinv.added le_rfl htyped hw
      have hd : s₁.distinct = s.distinct := (run_refuted equals 0 hrun).1
      obtain ⟨ws, rfl, hws, hall⟩ := ih ⟨hinv'.typed, hd ▸ hinv'.sound⟩ (witness_typed hinv'.typed hrun rfl) hrest
      refine ⟨w :: ws, rfl, forall_mem_cons.mpr ⟨⟨hw, htyped⟩, hws⟩, ?_⟩
      simpa using hall
    · cases h

theorem collected_of_checkArms {unreachable : List CoverageArm}
    (harms : (checkArms checker span arms []).run Search.init = .ok ((unreachable, rows), s))
    (htyped : ArmsTyped checker arms τ) : Collected checker equals s rows τ arms :=
  (checkArms_ok harms).elim fun _ h => (h.2.2.2 τ [] htyped collected_nil).1

/-- What is reported of a match that is not exhaustive. The witness has the type
of the scrutinee. It denotes a value that no unguarded arm accepts, over
inhabited types, when every type that literals of the match are compared at has
a value that equals none of them, and no record pattern looks at such a type.
With the arms of the fix the match is exhaustive. -/
theorem run_witness {unreachable : List CoverageArm} {found : Option Witness}
    (harms : (checkArms checker span arms []).run Search.init = .ok ((unreachable, rows), s))
    (hrun : (run checker span rows [.wild] true).run s = .ok (found, s'))
    (htyped : ArmsTyped checker arms τ) (hmissing : ¬ Exhaustive checker equals arms τ) :
    ∃ w, found = some w ∧ (witnessPattern w).Typed (fieldTypes checker.types) τ
      ∧ (FullyInhabited checker.types τ → ArmsInhabited checker arms →
        Unexhausted checker equals (armLiterals arms) → RecordsApart checker arms →
        ∃ v, Inhabits checker.types v τ ∧ Matches Constructed (witnessPattern w) v ∧ ¬ AcceptedBy checker equals arms v)
      ∧ ∀ texts, missingArms checker span maxAddedArms s' rows w = some texts → ∃ ws : List Witness,
          texts = ws.map (fun w => "| " ++ witnessText checker span w ++ " -> unreachable ()")
            ∧ (∀ w ∈ ws, writable w = true ∧ (witnessPattern w).Typed (fieldTypes checker.types) τ)
            ∧ Exhaustive checker equals (arms ++ ws.map (addedArm span)) τ := by
  have hinv : Collected checker equals s rows τ arms := collected_of_checkArms harms htyped
  cases found with
  | none => exact absurd (exhaustive_of_run hinv hrun) hmissing
  | some w =>
    have hwitness := witness_typed hinv.typed hrun rfl
    refine ⟨w, rfl, hwitness, ?_, ?_⟩
    · intro hinhabited hpayloads hfresh hrecords
      have hcovers := checkArms_coversSamples hfresh (apart_of_arms htyped hrecords) harms htyped
        hpayloads (fun arm harm hguard e he => mem_armLiterals harm hguard he)
        (fun arm harm hguard c hc => mem_armConstructors harm hguard hc) coversSamples_nil
      obtain ⟨v, hv, hopen, hm⟩ := exists_uncovered hfresh hinhabited hcovers.typed hrun
      exact ⟨v, hv.inhabits, hm rfl, fun haccepted => hopen (hcovers.covers v hv haccepted)⟩
    · intro texts htexts
      have hd : s'.distinct = s.distinct := (run_refuted equals 0 hrun).1
      exact missingArms_exhaustive ⟨hinv.typed, hd ▸ hinv.sound⟩ hwitness htexts

end Search

/-! ## Bytes listed in full -/

section Bytes

/-- `union U = A of u8 | B of bool`. -/
def byteUnion : CheckedUnion where
  name := "Main.U"
  parameters := []
  cases := [("A", some (.integer 8 false)), ("B", some .bool)]
  userDrop := false

def byteChecker : Checker where
  types := { records := [], unions := [byteUnion] }
  resolve ty := ty
  floatLiteral _ _ := none
  caseName _ _ _ := ""

def byteLiteral (n : Nat) : TypedExpr :=
  { kind := .int n, ty := .integer 8 false, span := default }

/-- `0 | 1 | .. | n`. -/
def bytesUpTo : Nat → CoveragePat
  | 0 => .literal (byteLiteral 0)
  | n + 1 => .or (bytesUpTo n) (.literal (byteLiteral (n + 1)))

/-- `match u with | A (0 | 1 | .. | n) -> .. | B true -> ..` for `u : U`. -/
def byteArms (n : Nat) : List CoverageArm :=
  [armAt 1 (.constructor (.union 0 0) [bytesUpTo n]) false, armAt 2 (.constructor (.union 0 1)
      [.literal { kind := .bool true, ty := .bool, span := default }]) false]

def searchArms (checker : Checker) (span : Span) (arms : List CoverageArm) : Except Diagnostic (Option Witness) := do
  let ((_, rows), s) ← (checkArms checker span arms []).run Search.init
  let (found, _) ← (run checker span rows [.wild] true).run s
  return found

theorem searchArms_ok {checker : Checker} {span : Span} {found : Option Witness}
    (h : searchArms checker span arms = .ok found) :
    ∃ unreachable rows s s', (checkArms checker span arms []).run Search.init = .ok ((unreachable, rows), s)
        ∧ (run checker span rows [.wild] true).run s = .ok (found, s') := by
  unfold searchArms at h
  obtain ⟨⟨⟨unreachable, rows⟩, s⟩, harms, h⟩ := except_bind_ok h
  obtain ⟨⟨found', s'⟩, hrun, h⟩ := except_bind_ok h
  obtain rfl : found' = found := Except.ok.inj h
  exact ⟨unreachable, rows, s, s', harms, hrun⟩

/-- Whether a search found the witness `A _`. -/
def foundA : Except Diagnostic (Option Witness) → Bool
  | .ok (some (.ctor (.union 0 0) [.wild])) => true
  | _ => false

theorem foundA_ok {found : Except Diagnostic (Option Witness)} (h : foundA found = true) :
    found = .ok (some (.ctor (.union 0 0) [.wild])) := by
  unfold foundA at h
  split at h
  · rfl
  · cases h

theorem byteArms_zero : foundA (searchArms byteChecker default (byteArms 0)) = true := by
  decide +kernel

theorem pure_then {α β : Type} (a : α) (f : α → SearchM β) : ((fun s => .ok (a, s) : SearchM α) >>= f) = f a := rfl

variable {n : Nat}

theorem limit_le (span : Span) (h : n ≤ maxPatternAlternatives) : limit span n = fun s => .ok ((), s) := by
  rw [limit, if_neg (Nat.not_lt.2 h)]
  rfl

def byteHead (k : Nat) : Pat := .ctor (.literal (.number (.integer 8 false) (toString k))) []

theorem literal_byte (k distinct : Nat) : literal byteChecker (byteLiteral k) distinct =
    (.constructor (.literal (.number (.integer 8 false) (toString k))), distinct) := by
  have hnan : toString k ≠ "NaN" := fun heq => by
    have hnot : 'N' ∉ (toString k).toList := Digits.notMem_toString (by decide) k
    rw [heq] at hnot
    exact hnot (by decide)
  change (if toString k = "NaN" then (Literal.never, distinct) else _) = _
  rw [if_neg hnan]
  rfl

theorem normalize_byte (span : Span) (k : Nat) (mode : Mode) :
    normalize byteChecker span (.literal (byteLiteral k)) mode = fun s => .ok ([byteHead k], s) := by
  rw [normalize]
  simp only [literal_byte]
  rfl

theorem normalize_bytesUpTo (span : Span) (mode : Mode) : ∀ {n : Nat}, n < 256 →
    normalize byteChecker span (bytesUpTo n) mode = fun s => .ok ((List.range (n + 1)).map byteHead, s)
  | 0, _ => normalize_byte span 0 mode
  | n + 1, hn => by
    have hlimit : ((List.range (n + 1)).map byteHead).length + [byteHead (n + 1)].length ≤ maxPatternAlternatives := by
      simp [maxPatternAlternatives]
      omega
    rw [bytesUpTo, normalize, normalize_bytesUpTo span mode (by omega), normalize_byte, pure_then, pure_then,
      limit_le span hlimit, pure_then, @List.range_succ (n + 1), map_append]
    rfl

theorem normalize_byteArm (span : Span) (mode : Mode) (hn : n < 256) :
    normalize byteChecker span (.constructor (.union 0 0) [bytesUpTo n]) mode =
      fun s => .ok ((List.range (n + 1)).map fun k => .ctor (.union 0 0) [byteHead k], s) := by
  have hlimit : [([] : List Pat)].length * ((List.range (n + 1)).map byteHead).length ≤ maxPatternAlternatives := by
    simp [maxPatternAlternatives]
    omega
  rw [normalize, normalizeAll.eq_def]
  simp only [normalize_bytesUpTo span mode hn, normalizeAll, pure_then, limit_le span hlimit]
  funext s
  change Except.ok _ = _
  simp

theorem byteArms_all : foundA (searchArms byteChecker default (byteArms 255)) = true := by
  rw [searchArms, byteArms, checkArms, checkArm]
  -- the rows of the first arm are known without a run of `normalize`
  simp only [armAt, normalize_byteArm _ _ (show 255 < 256 by decide)]
  decide +kernel

variable {equals : TypedExpr → Value → Prop}

theorem bytesUpTo_typed (n : Nat) : PatTyped byteChecker (bytesUpTo n) (.integer 8 false) := by
  have hliteral (k : Nat) : PatTyped byteChecker (.literal (byteLiteral k)) (.integer 8 false) := by
    rw [PatTyped]
    exact ⟨rfl, .inl rfl⟩
  induction n with
  | zero => exact hliteral 0
  | succ n ih =>
    rw [bytesUpTo, PatTyped]
    exact ⟨ih, hliteral (n + 1)⟩

theorem byteArms_typed (n : Nat) : ArmsTyped byteChecker (byteArms n) (.union 0 []) := by
  refine forall_mem_cons.mpr ⟨?_, forall_mem_cons.mpr ⟨?_, by simp⟩⟩
  · rw [armAt, PatTyped]
    refine ⟨by simp, [.integer 8 false], rfl, ?_⟩
    rw [PatTypedAll]
    exact ⟨bytesUpTo_typed n, by simp [PatTypedAll]⟩
  · rw [armAt, PatTyped]
    refine ⟨by simp, [.bool], rfl, ?_⟩
    rw [PatTypedAll, PatTyped]
    exact ⟨⟨rfl, rfl⟩, by simp [PatTypedAll]⟩

theorem accepts_bytesUpTo {v : Value} : Accepts byteChecker equals (bytesUpTo n) v ↔
    ∃ ty, ∃ k ≤ n, v = .number ty (.bits k) := by
  have hliteral (k : Nat) : Accepts byteChecker equals (.literal (byteLiteral k)) v ↔
      ∃ ty, v = .number ty (.bits k) := by
    rw [Accepts]
    constructor
    · rintro ⟨ty, x, rfl, hx, -⟩
      exact ⟨ty, by rw [← Option.some.inj hx]⟩
    · rintro ⟨ty, rfl⟩
      exact ⟨ty, _, rfl, rfl, by simp⟩
  induction n with
  | zero => simp [bytesUpTo, hliteral]
  | succ n ih =>
    have hor : Accepts byteChecker equals (bytesUpTo (n + 1)) v ↔ Accepts byteChecker equals (bytesUpTo n) v
          ∨ Accepts byteChecker equals (.literal (byteLiteral (n + 1))) v := by
      rw [bytesUpTo, Accepts]
    refine hor.trans ((or_congr ih (hliteral (n + 1))).trans ?_)
    constructor
    · rintro (⟨ty, k, hk, rfl⟩ | ⟨ty, rfl⟩)
      · exact ⟨ty, k, by omega, rfl⟩
      · exact ⟨ty, n + 1, le_rfl, rfl⟩
    · rintro ⟨ty, k, hk, rfl⟩
      rcases Nat.lt_or_eq_of_le hk with hk | rfl
      · exact .inl ⟨ty, k, by omega, rfl⟩
      · exact .inr ⟨ty, rfl⟩

theorem byte_inhabits {v : Value} (h : Inhabits byteChecker.types v (.integer 8 false)) :
    ∃ n < 256, v = .number (.integer 8 false) (.bits n) := by
  obtain ⟨hv, hrep⟩ := h
  cases hv with
  | @number x h =>
    cases hrep with
    | number hfits =>
      cases x with
      | bits n => exact ⟨n, hfits, rfl⟩
      | float x => cases hfits
    | built hc => cases hc
  | unknown h | other h => cases h
  | bool h | unit h | union h | payload h | tuple h | record h | array h | listNil h | listCons h
  | text16 h | text8 h => cases h

theorem byte_inhabited (n : Nat) (hn : n < 256) :
    Inhabits byteChecker.types (.number (.integer 8 false) (.bits n)) (.integer 8 false) :=
  ⟨@HasType.number byteChecker.types (.bits n) (.integer 8 false) rfl, .number hn⟩

theorem caseB_inhabited (b : Bool) : Inhabits byteChecker.types (.union 0 1 (some (.bool b))) (.union 0 []) := by
  refine ⟨.payload rfl rfl (.bool rfl), .built rfl fun u hu => ?_⟩
  obtain rfl : u = .bool b := by simpa using hu
  exact .built rfl (by simp)

theorem byte_reaches {σ : Ty} (h : Reaches byteChecker.types (.union 0 []) σ) :
    σ = .union 0 [] ∨ σ = .integer 8 false ∨ σ = .bool := by
  induction h with
  | refl => exact .inl rfl
  | @field σ ρ c σs _ hc hρ ih =>
    by_cases hlit : ∃ key, c = .literal key
    · obtain ⟨key, rfl⟩ := hlit
      rcases ih with rfl | rfl | rfl <;> simp [fieldTypes, Ty.strip, Ty.literalDomain] at hc
      subst hc
      cases hρ
    · have hfields := fieldsOf_of_fieldTypes hc fun key heq => hlit ⟨key, heq⟩
      rcases ih with rfl | rfl | rfl <;> cases hfields
      · rename_i case payload hpayload
        rcases case with _ | _ | case
        · cases hpayload
          exact .inr (.inl (mem_singleton.mp hρ))
        · cases hpayload
          exact .inr (.inr (mem_singleton.mp hρ))
        · cases hpayload
      · cases hρ

theorem byte_fullyInhabited : FullyInhabited byteChecker.types (.union 0 []) := by
  intro σ hσ
  rcases byte_reaches hσ with rfl | rfl | rfl
  · exact ⟨_, caseB_inhabited true⟩
  · exact ⟨_, byte_inhabited 0 (by decide)⟩
  · exact ⟨.bool true, .bool rfl, .built rfl (by simp)⟩

theorem not_acceptedBy_caseB (n : Nat) :
    ¬ AcceptedBy byteChecker equals (byteArms n) (.union 0 1 (some (.bool false))) := by
  rintro ⟨arm, harm, -, haccepts⟩
  rcases mem_cons.mp harm with rfl | harm
  · rw [armAt, Accepts] at haccepts
    obtain ⟨vs, hvs, -⟩ := haccepts
    cases hvs
  · obtain rfl := mem_singleton.mp harm
    rw [armAt, Accepts] at haccepts
    obtain ⟨vs, hvs, haccepts⟩ := haccepts
    cases hvs
    rw [Option.toList, AcceptsAll, Accepts] at haccepts
    have : Value.bool false = .bool true := haccepts.1
    cases this

/-- `A 0` and `B true`: the witness `A _` denotes `A 1`. -/
theorem run_witness_byte : ∃ w v, searchArms byteChecker default (byteArms 0) = .ok (some w)
      ∧ Inhabits byteChecker.types v (.union 0 []) ∧ Matches Constructed (witnessPattern w) v
      ∧ ¬ AcceptedBy byteChecker (fun _ _ => False) (byteArms 0) v := by
  have hsearch := foundA_ok byteArms_zero
  obtain ⟨unreachable, rows, s, s', harms, hrun⟩ := searchArms_ok hsearch
  have hmissing : ¬ Exhaustive byteChecker (fun _ _ => False) (byteArms 0) (.union 0 []) :=
    fun hall => not_acceptedBy_caseB 0 (hall _ (caseB_inhabited false).1)
  have hpayloads : ArmsInhabited byteChecker (byteArms 0) := by
    refine forall_mem_cons.mpr ⟨fun _ => ?_, forall_mem_cons.mpr ⟨fun _ => ?_, by simp⟩⟩
    · simp [armAt, bytesUpTo, PayloadsInhabited, PayloadsInhabitedAll]
    · simp [armAt, PayloadsInhabited, PayloadsInhabitedAll]
  have hkeyed (e : TypedExpr) (he : e ∈ armLiterals (byteArms 0)) (h : keyed e = true) : e = byteLiteral 0 := by
    rcases mem_cons.mp he with rfl | he
    · rfl
    · obtain rfl := mem_singleton.mp he
      cases h
  have htype (σ : Ty) (hσ : literalType byteChecker (armLiterals (byteArms 0)) σ = true) : σ = .integer 8 false := by
    obtain ⟨e, he, hty⟩ := any_eq_true.mp hσ
    obtain ⟨h, hty⟩ := Bool.and_eq_true_iff.mp hty
    rw [hkeyed e he h] at hty
    exact (of_decide_eq_true hty).symm
  have hfresh : Unexhausted byteChecker (fun _ _ => False) (armLiterals (byteArms 0)) := by
    intro σ hσ
    obtain rfl := htype σ hσ
    refine ⟨_, byte_inhabited 1 (by decide), fun e he h => ?_⟩
    rw [hkeyed e he h]
    rintro ⟨ty, x, hv, hx, -⟩
    obtain ⟨-, rfl⟩ := Value.number.inj hv
    cases hx
  have hrecords : RecordsApart byteChecker (byteArms 0) := by
    intro id args n h
    cases htype _ h
  obtain ⟨w, hw, -, hreal, -⟩ := run_witness harms hrun (byteArms_typed 0) hmissing
  obtain ⟨v, hv⟩ := hreal byte_fullyInhabited hpayloads hfresh hrecords
  exact ⟨w, v, by rw [hsearch, hw], hv⟩

/-- The literals of `A (0 | .. | 255)` list the bytes in full, and the witness is `A _`, of which no value is missing.
-/
theorem byteMatch_witness_accepted : ∃ unreachable rows s s' w,
      (checkArms byteChecker default (byteArms 255) []).run Search.init = .ok ((unreachable, rows), s)
        ∧ (run byteChecker default rows [.wild] true).run s = .ok (some w, s')
        ∧ ArmsTyped byteChecker (byteArms 255) (.union 0 [])
        ∧ FullyInhabited byteChecker.types (.union 0 [])
        ∧ (∃ v, Inhabits byteChecker.types v (.union 0 [])
          ∧ ¬ AcceptedBy byteChecker (fun _ _ => False) (byteArms 255) v)
        ∧ ∀ v, Inhabits byteChecker.types v (.union 0 []) → Matches Constructed (witnessPattern w) v →
          AcceptedBy byteChecker (fun _ _ => False) (byteArms 255) v := by
  obtain ⟨unreachable, rows, s, s', harms, hrun⟩ := searchArms_ok (foundA_ok byteArms_all)
  refine ⟨unreachable, rows, s, s', _, harms, hrun, byteArms_typed 255, byte_fullyInhabited,
    ⟨_, caseB_inhabited false, not_acceptedBy_caseB 255⟩, fun v hv hm => ?_⟩
  rw [witnessPattern_map, Matches] at hm
  obtain ⟨vs, hvs, -⟩ := hm
  have htyped := constructed_fieldsTyped _ _ _ _ [.integer 8 false] hvs hv.1 rfl
  obtain ⟨u, us, hu, hus, rfl⟩ := List.forall₂_cons_right_iff.mp htyped
  obtain rfl := List.forall₂_nil_right_iff.mp hus
  obtain ⟨n, hn, rfl⟩ := byte_inhabits ⟨hu, hv.2.arguments hvs u (by simp)⟩
  refine ⟨_, mem_cons_self, rfl, ?_⟩
  rw [armAt, Accepts]
  refine ⟨_, hvs, ?_⟩
  rw [AcceptsAll, AcceptsAll]
  exact ⟨accepts_bytesUpTo.mpr ⟨_, n, by omega, rfl⟩, trivial⟩

end Bytes

end Tsuzuri
