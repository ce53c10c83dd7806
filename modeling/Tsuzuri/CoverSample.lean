import Tsuzuri.CoverEscape

/-!
# Values that no literal of a match tells apart

What a witness of the coverage check stands for.
-/

namespace Tsuzuri

open List

open PatternMatrix (Row Matches MatchesAll RowsTyped TypedAll Functional AvoidsHeads SplitsTyped
  SplitsApply HeadsTyped HeadsAvoid matches_wild matchesAll_wilds typedAll_wilds typedAll_cons)

/-- So many digits in `base`, with exponents from `low` to `high`. -/
def FloatVal.Fits (base digits : Nat) (low high : ℤ) : FloatVal → Prop
  | .nan | .infinite _ => True
  | .finite value => ∃ (negative : Bool) (coefficient : Nat) (exponent : ℤ),
      coefficient < base ^ digits ∧ low ≤ exponent ∧ exponent ≤ high
        ∧ value = signed negative (coefficient * base ^ exponent)

def Number.Fits : Ty → Number → Prop
  | .integer width _, .bits n => n < 2 ^ width
  | .char, .bits n => n < 65536
  | .utf8Char, .bits n => n < 1114112 ∧ ¬ (55296 ≤ n ∧ n < 57344)
  | .binary 16, .float x => x.Fits 2 11 (-24) 5
  | .binary 32, .float x => x.Fits 2 24 (-149) 104
  | .binary 64, .float x => x.Fits 2 53 (-1074) 971
  | .binary 128, .float x => x.Fits 2 113 (-16494) 16271
  | .decimal 32, .float x => x.Fits 10 7 (-101) 90
  | .decimal 64, .float x => x.Fits 10 16 (-398) 369
  | .decimal 128, .float x => x.Fits 10 34 (-6176) 6111
  | _, _ => False

/-- A value whose numbers and code units are in range. -/
inductive Value.Representable : Value → Prop
  | number {ty : Ty} {x : Number} (h : x.Fits ty) : Representable (.number ty x)
  | text16 {units : List Nat} (h : ∀ u ∈ units, u < 65536) : Representable (.text (.utf16 units))
  | text8 {text : String} : Representable (.text (.utf8 text))
  | other {tag : Nat} : Representable (.other tag)
  | built {c : Constructor} {vs : List Value} {v : Value} (h : Constructed c vs v)
      (hvs : ∀ u ∈ vs, Representable u) : Representable v

/-- A value of the type `τ` that a program can have. -/
def Inhabits (types : TypeContext) (v : Value) (τ : Ty) : Prop :=
  HasType types v τ ∧ v.Representable

/-- The types that patterns against the type `τ` can look at. -/
inductive Reaches (types : TypeContext) (τ : Ty) : Ty → Prop
  | refl : Reaches types τ τ
  | field {σ ρ : Ty} {c : Constructor} {σs : List Ty} (h : Reaches types τ σ)
      (hc : fieldTypes types c σ = some σs) (hρ : ρ ∈ σs) : Reaches types τ ρ

def FullyInhabited (types : TypeContext) (τ : Ty) : Prop :=
  ∀ σ, Reaches types τ σ → ∃ v, Inhabits types v σ

theorem Reaches.trans {types : TypeContext} {τ σ ρ : Ty} (h : Reaches types τ σ)
    (hρ : Reaches types σ ρ) : Reaches types τ ρ := by
  induction hρ with
  | refl => exact h
  | field _ hc hmem ih => exact .field ih hc hmem

theorem FullyInhabited.field {types : TypeContext} {τ : Ty} {c : Constructor} {σs : List Ty}
    (h : FullyInhabited types τ) (hc : fieldTypes types c τ = some σs) {σ : Ty} (hσ : σ ∈ σs) :
    FullyInhabited types σ :=
  fun ρ hρ => h ρ ((Reaches.field .refl hc hσ).trans hρ)

/-! ## Constructors and values -/

theorem constructed_functional : Functional Constructed := by
  intro c c' us vs v hu hv
  exact Prod.mk.inj (Option.some.inj (hu.symm.trans hv))

section Constructed

variable {types : TypeContext} {c : Constructor} {τ : Ty} {σs : List Ty} {vs : List Value} {v : Value}

/-- The arguments of the constructors, literals apart. -/
inductive FieldsOf (types : TypeContext) : Constructor → Ty → List Ty → Prop
  | bool {b : Bool} : FieldsOf types (.bool b) .bool []
  | unit : FieldsOf types .unit .unit []
  | union {id case : Nat} {args : List Ty} {payload : Option Ty}
      (h : (types.unionPayloads id args)[case]? = some payload) :
      FieldsOf types (.union id case) (.union id args) payload.toList
  | tuple {elements : List Ty} : FieldsOf types (.tuple elements.length) (.tuple elements) elements
  | record {id : Nat} {args : List Ty} :
      FieldsOf types (.record id (types.recordFields id args).length) (.record id args) (types.recordFields id args)
  | arrayLen {n : Nat} {element : Ty} : FieldsOf types (.arrayLen n) (.array element) (List.replicate n element)
  | listNil {element : Ty} : FieldsOf types .listNil (.list element) []
  | listCons {element : Ty} : FieldsOf types .listCons (.list element) [element, .list element]

theorem fieldsOf_of_fieldTypes (hσ : fieldTypes types c τ = some σs)
    (hc : ∀ key, c ≠ .literal key) : FieldsOf types c τ.strip σs := by
  generalize hτ : τ.strip = τ' at *
  unfold fieldTypes at hσ
  rw [hτ] at hσ
  split at hσ
  case h_9 => exact absurd rfl (hc _)
  case h_10 => cases hσ
  case h_3 =>
    split at hσ
    · rename_i hid
      obtain ⟨payload, hpayload, rfl⟩ := Option.map_eq_some_iff.mp hσ
      subst hid
      exact .union hpayload
    · cases hσ
  case h_4 =>
    split at hσ
    · rename_i hcount
      cases hσ
      exact hcount ▸ .tuple
    · cases hσ
  case h_5 =>
    split at hσ
    · rename_i hcount
      cases hσ
      obtain ⟨rfl, rfl⟩ := hcount
      exact .record
    · cases hσ
  all_goals
    cases hσ
    constructor

theorem exists_constructed {τ' : Ty} (h : FieldsOf types c τ' σs)
    (hlen : vs.length = σs.length) : ∃ v, Constructed c vs v := by
  cases h with
  | @bool b =>
    obtain rfl := length_eq_zero_iff.mp hlen
    exact ⟨.bool b, rfl⟩
  | unit =>
    obtain rfl := length_eq_zero_iff.mp hlen
    exact ⟨.unit, rfl⟩
  | @union id case args payload h =>
    cases payload with
    | none =>
      obtain rfl := length_eq_zero_iff.mp hlen
      exact ⟨.union id case none, rfl⟩
    | some ty =>
      obtain ⟨v, rfl⟩ := length_eq_one_iff.mp hlen
      exact ⟨.union id case (some v), rfl⟩
  | tuple => exact ⟨.tuple vs, by rw [Constructed, Value.decompose, hlen]⟩
  | @record id args => exact ⟨.record id vs, by rw [Constructed, Value.decompose, hlen]⟩
  | arrayLen =>
    rw [length_replicate] at hlen
    exact ⟨.array vs, by rw [Constructed, Value.decompose, hlen]⟩
  | listNil =>
    obtain rfl := length_eq_zero_iff.mp hlen
    exact ⟨.listNil, rfl⟩
  | listCons =>
    obtain ⟨head, tail, rfl⟩ := length_eq_two.mp hlen
    exact ⟨.listCons head tail, rfl⟩

theorem forall_of_forall₂_replicate {α β : Type} {R : α → β → Prop} {b : β} :
    ∀ {as : List α} {n : Nat}, List.Forall₂ R as (List.replicate n b) → ∀ a ∈ as, R a b
  | [], _, _ => by simp
  | a :: as, 0, h => by cases h
  | a :: as, n + 1, h => by
    rw [replicate_succ] at h
    obtain ⟨ha, has⟩ := List.forall₂_cons.mp h
    exact forall_mem_cons.mpr ⟨ha, forall_of_forall₂_replicate has⟩

theorem constructed_hasType (h : FieldsOf types c τ.strip σs) (hv : Constructed c vs v)
    (hvs : List.Forall₂ (HasType types) vs σs) : HasType types v τ := by
  generalize hτ : τ.strip = τ' at h
  cases h with
  | bool => cases v <;> cases hv; exact .bool hτ
  | unit => cases v <;> cases hv; exact .unit hτ
  | @union id case args payload h =>
    cases v <;> cases hv
    rename_i value
    cases payload with
    | none =>
      cases value with
      | none => exact .union hτ h
      | some v => cases hvs
    | some ty =>
      cases value with
      | none => cases hvs
      | some v => exact .payload hτ h (List.forall₂_cons.mp hvs).1
  | tuple =>
    cases v with
    | tuple us =>
      obtain rfl := (Prod.mk.inj (Option.some.inj hv)).2
      exact .tuple hτ hvs
    | _ => cases hv
  | record =>
    cases v with
    | record id us =>
      obtain ⟨hrecord, rfl⟩ := Prod.mk.inj (Option.some.inj hv)
      obtain ⟨rfl, -⟩ := Constructor.record.inj hrecord
      exact .record hτ hvs
    | _ => cases hv
  | arrayLen => cases v <;> cases hv; exact .array hτ (forall_of_forall₂_replicate hvs)
  | listNil => cases v <;> cases hv; exact .listNil hτ
  | listCons =>
    cases v <;> cases hv
    obtain ⟨hhead, hrest⟩ := List.forall₂_cons.mp hvs
    exact .listCons hτ hhead (List.forall₂_cons.mp hrest).1

end Constructed

/-! ## Literals of a match -/

/-- Whether a literal is compared by a key: all but booleans and `()`. -/
def keyed (e : TypedExpr) : Bool :=
  match unsign e with
  | (false, .bool _) | (false, .unit) => false
  | _ => true

mutual

def CoveragePat.literals : CoveragePat → List TypedExpr
  | .literal e => [e]
  | .constructor _ arguments => literalsAll arguments
  | .or left right | .and left right => left.literals ++ right.literals
  | .total (some payload) => payload.literals
  | .wildcard | .total none | .activeCase .. | .opaquePat => []

def literalsAll : List CoveragePat → List TypedExpr
  | [] => []
  | p :: ps => p.literals ++ literalsAll ps

end

mutual

def CoveragePat.constructors : CoveragePat → List Constructor
  | .constructor c arguments => c :: constructorsAll arguments
  | .or left right | .and left right => left.constructors ++ right.constructors
  | .total (some payload) => payload.constructors
  | .literal _ | .wildcard | .total none | .activeCase .. | .opaquePat => []

def constructorsAll : List CoveragePat → List Constructor
  | [] => []
  | p :: ps => p.constructors ++ constructorsAll ps

end

section Samples

variable (checker : Checker) (equals : TypedExpr → Value → Prop) (literals : List TypedExpr)

/-- Whether one of the literals is compared with values of the type `σ`. -/
def literalType (σ : Ty) : Bool :=
  literals.any fun e => keyed e && decide (checker.resolve e.ty = σ)

def Unlisted (v : Value) : Prop :=
  ∀ e ∈ literals, keyed e = true → ¬ matchesLiteral checker equals e v

inductive Sample : Value → Ty → Prop
  | unlisted {v : Value} {τ : Ty} (hτ : literalType checker literals τ.strip = true)
      (h : Inhabits checker.types v τ) (hne : Unlisted checker equals literals v) : Sample v τ
  | built {c : Constructor} {vs : List Value} {σs : List Ty} {v : Value} {τ : Ty}
      (hτ : literalType checker literals τ.strip = false)
      (hσ : fieldTypes checker.types c τ = some σs) (hlit : ∀ key, c ≠ .literal key)
      (hc : Constructed c vs v) (hlen : vs.length = σs.length)
      (hvs : ∀ u σ, (u, σ) ∈ vs.zip σs → Sample u σ) : Sample v τ
  | plain {v : Value} {τ : Ty} (hτ : literalType checker literals τ.strip = false)
      (hno : ∀ c, (∀ key, c ≠ .literal key) → fieldTypes checker.types c τ = none)
      (h : Inhabits checker.types v τ) : Sample v τ

def sampleFields (c : Constructor) (τ : Ty) : Option (List Ty) :=
  match c with
  | .literal _ => if literalType checker literals τ.strip then some [] else none
  | c => if literalType checker literals τ.strip then none else fieldTypes checker.types c τ

def Unexhausted : Prop :=
  ∀ σ, literalType checker literals σ = true → ∃ v, Inhabits checker.types v σ ∧ Unlisted checker equals literals v

end Samples

section Facts

variable {checker : Checker} {equals : TypedExpr → Value → Prop} {literals : List TypedExpr}
  {c : Constructor} {τ : Ty} {σs : List Ty} {vs : List Value} {v : Value}

theorem Ty.strip_strip (τ : Ty) : τ.strip.strip = τ.strip := by
  induction τ using Ty.strip.induct with
  | case1 => simp [Ty.strip]
  | case2 target _ h ih =>
    rw [Ty.strip]
    · exact ih
    · exact h
  | case3 ty h h' =>
    have hty : ty.strip = ty := by
      rw [Ty.strip]
      · exact h
      · exact h'
    rw [hty, hty]

theorem hasType_of_strip {types : TypeContext} (h : HasType types v τ.strip) : HasType types v τ := by
  cases h with
  | bool h => exact .bool (τ.strip_strip ▸ h)
  | unit h => exact .unit (τ.strip_strip ▸ h)
  | union h hcase => exact .union (τ.strip_strip ▸ h) hcase
  | payload h hcase hv => exact .payload (τ.strip_strip ▸ h) hcase hv
  | tuple h hvs => exact .tuple (τ.strip_strip ▸ h) hvs
  | record h hvs => exact .record (τ.strip_strip ▸ h) hvs
  | array h hvs => exact .array (τ.strip_strip ▸ h) hvs
  | listNil h => exact .listNil (τ.strip_strip ▸ h)
  | listCons h hhead htail => exact .listCons (τ.strip_strip ▸ h) hhead htail
  | number h =>
    rw [τ.strip_strip] at h ⊢
    exact .number h
  | text16 h => exact .text16 (τ.strip_strip ▸ h)
  | text8 h => exact .text8 (τ.strip_strip ▸ h)
  | unknown h => exact .unknown (τ.strip_strip ▸ h)
  | other h => exact .other (τ.strip_strip ▸ h)

theorem Sample.inhabits (h : Sample checker equals literals v τ) : Inhabits checker.types v τ := by
  induction h with
  | unlisted _ h _ => exact h
  | @built c vs σs v τ _ hσ hlit hc hlen _ ih =>
    refine ⟨constructed_hasType (fieldsOf_of_fieldTypes hσ hlit) hc
      (List.forall₂_iff_zip.mpr ⟨hlen, fun hmem => (ih _ _ hmem).1⟩), .built hc fun u hu => ?_⟩
    obtain ⟨i, hi, rfl⟩ := getElem_of_mem hu
    exact (ih _ _ (mem_iff_getElem.mpr ⟨i, by simpa [← hlen] using hi, getElem_zip⟩)).2
  | plain _ _ h => exact h

theorem Value.Representable.arguments (h : v.Representable) (hc : Constructed c vs v) : ∀ u ∈ vs, u.Representable := by
  cases h with
  | built hc' hvs =>
    obtain ⟨rfl, rfl⟩ := constructed_functional _ _ _ _ _ hc hc'
    exact hvs
  | _ => simp [Constructed, Value.decompose] at hc

theorem Constructed.sizeOf_lt (hc : Constructed c vs v) {u : Value} (hu : u ∈ vs) : sizeOf u < sizeOf v := by
  cases v with
  | union id case payload =>
    cases hc
    cases payload with
    | none => simp at hu
    | some v =>
      obtain rfl : u = v := by simpa using hu
      simp
      omega
  | tuple us | record id us | array us =>
    cases hc
    have := sizeOf_lt_of_mem hu
    simp
    omega
  | listCons head tail =>
    cases hc
    rcases mem_cons.mp hu with rfl | hu
    · simp
      omega
    · obtain rfl := mem_singleton.mp hu
      simp
  | bool | unit | listNil =>
    cases hc
    simp at hu
  | _ => cases hc

theorem exists_samples {us : List Value} (h : List.Forall₂ (Inhabits checker.types) us σs)
    (hus : ∀ u ∈ us, ∀ σ, Inhabits checker.types u σ → ∃ w, Sample checker equals literals w σ) :
    ∃ ws, List.Forall₂ (Sample checker equals literals) ws σs := by
  induction h with
  | nil => exact ⟨[], .nil⟩
  | cons hu _ ih =>
    obtain ⟨hfirst, hrest⟩ := forall_mem_cons.mp hus
    obtain ⟨w, hw⟩ := hfirst _ hu
    obtain ⟨ws, hws⟩ := ih hrest
    exact ⟨w :: ws, .cons hw hws⟩

theorem Sample.of_forall₂ (hτ : literalType checker literals τ.strip = false)
    (hσ : fieldTypes checker.types c τ = some σs) (hlit : ∀ key, c ≠ .literal key)
    (hc : Constructed c vs v) (hvs : List.Forall₂ (Sample checker equals literals) vs σs) :
    Sample checker equals literals v τ :=
  .built hτ hσ hlit hc hvs.length_eq fun _ _ hmem => (List.forall₂_iff_zip.mp hvs).2 hmem

theorem exists_sample (hfresh : Unexhausted checker equals literals)
    (hv : Inhabits checker.types v τ) : ∃ w, Sample checker equals literals w τ := by
  induction hn : sizeOf v using Nat.strong_induction_on generalizing v τ with
  | _ n ih =>
    subst hn
    cases hτ : literalType checker literals τ.strip with
    | true =>
      obtain ⟨w, ⟨hw, hrep⟩, hne⟩ := hfresh _ hτ
      exact ⟨w, .unlisted hτ ⟨hasType_of_strip hw, hrep⟩ hne⟩
    | false =>
      by_cases hctor : ∃ c, (∀ key, c ≠ .literal key) ∧ (fieldTypes checker.types c τ).isSome
      · obtain ⟨c₀, hlit₀, hsome₀⟩ := hctor
        obtain ⟨c, us, hc, hsome, -⟩ := hv.1.constructed (belongs_of_fieldTypes hsome₀) hlit₀
        obtain ⟨σs, hσ⟩ := Option.isSome_iff_exists.mp hsome
        have htyped := constructed_fieldsTyped _ _ _ _ _ hc hv.1 hσ
        have hus : List.Forall₂ (Inhabits checker.types) us σs := by
          refine List.forall₂_iff_zip.mpr ⟨htyped.length_eq, fun hmem => ?_⟩
          exact ⟨(List.forall₂_iff_zip.mp htyped).2 hmem, hv.2.arguments hc _ (of_mem_zip hmem).1⟩
        obtain ⟨ws, hws⟩ := exists_samples hus fun u hu σ hσu => ih _ (hc.sizeOf_lt hu) hσu rfl
        obtain ⟨w, hw⟩ := exists_constructed (fieldsOf_of_fieldTypes hσ hc.ne_literal) hws.length_eq
        exact ⟨w, .of_forall₂ hτ hσ hc.ne_literal hw hws⟩
      · refine ⟨v, .plain hτ (fun c hlit => ?_) hv⟩
        by_contra hne
        exact hctor ⟨c, hlit, Option.isSome_iff_ne_none.mpr hne⟩

theorem Sample.arguments (h : Sample checker equals literals v τ) (hc : Constructed c vs v)
    (hσ : sampleFields checker literals c τ = some σs) : List.Forall₂ (Sample checker equals literals) vs σs := by
  have hlit := hc.ne_literal
  have hfields : literalType checker literals τ.strip = false ∧ fieldTypes checker.types c τ = some σs := by
    unfold sampleFields at hσ
    split at hσ
    · exact absurd rfl (hlit _)
    · split at hσ
      · cases hσ
      · rename_i hτ
        exact ⟨Bool.eq_false_iff.mpr hτ, hσ⟩
  cases h with
  | unlisted hτ => rw [hτ] at hfields; cases hfields.1
  | built _ hσ' _ hc' hlen hvs =>
    obtain ⟨rfl, rfl⟩ := constructed_functional _ _ _ _ _ hc hc'
    obtain rfl := Option.some.inj (hσ'.symm.trans hfields.2)
    exact List.forall₂_iff_zip.mpr ⟨hlen, fun hmem => hvs _ _ hmem⟩
  | plain _ hno => rw [hno c hlit] at hfields; cases hfields.2

end Facts

end Tsuzuri
