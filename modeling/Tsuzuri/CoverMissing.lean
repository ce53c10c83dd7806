import Tsuzuri.CoverSample

/-!
# What the search says of a column

The signature of a column either splits it or gives it a pattern for the witness.
-/

namespace Tsuzuri

open List

open PatternMatrix (Row Matches MatchesAll RowsTyped TypedAll Covers Escapes Functional AvoidsHeads
  SplitsTyped SplitsApply HeadsTyped HeadsAvoid matches_wild matchesAll_cons matchesAll_nil
  matchesAll_wilds matchesAll_append typedAll_wilds typedAll_cons typedAll_nil typedAll_append
  typed_wild)

/-! ## What a signature says -/

section Signatures

variable {checker : Checker} {equals : TypedExpr → Value → Prop} {literals : List TypedExpr}
  {rows : List (Row Constructor)} {c first : Constructor} {cs : List Constructor} {w : Witness}
  {τ : Ty}

/-- A constructor of every type that has `first`, with its arity. -/
def Beside (checker : Checker) (first c : Constructor) : Prop :=
  (∀ key, c ≠ .literal key) ∧ ∀ τ, (fieldTypes checker.types first τ).isSome →
    ∃ σs, fieldTypes checker.types c τ = some σs ∧ σs.length = arity checker c

theorem beside_self (hfirst : ∀ key, first ≠ .literal key) : Beside checker first first := by
  refine ⟨hfirst, fun τ hsome => ?_⟩
  obtain ⟨σs, hσ⟩ := Option.isSome_iff_exists.mp hsome
  refine ⟨σs, hσ, ?_⟩
  have hfields := fieldsOf_of_fieldTypes hσ hfirst
  generalize τ.strip = τ' at hfields
  cases hfields with
  | @union id case args payload h =>
    obtain ⟨⟨name, payload'⟩, hdecl, rfl⟩ := Option.map_eq_some_iff.mp (getElem?_map ▸ h)
    cases payload' <;> simp [arity, hdecl]
  | _ => simp [arity]

theorem beside_of_isSome (hc : ∀ key, c ≠ .literal key) (hfields : ∀ τ, (fieldTypes checker.types first τ).isSome →
      (fieldTypes checker.types c τ).isSome) : Beside checker first c :=
  ⟨hc, fun τ hsome => (beside_self hc).2 τ (hfields τ hsome)⟩

theorem beside_bool (b b' : Bool) : Beside checker (.bool b) (.bool b') :=
  beside_of_isSome (by simp) fun τ h => by
    have hτ : τ.strip = .bool := belongs_of_fieldTypes h
    simp [fieldTypes, hτ]

theorem beside_union {id case case' : Nat} (hcase : case' < (checker.types.union id).cases.length) :
    Beside checker (.union id case) (.union id case') :=
  beside_of_isSome (by simp) fun τ h => by
    obtain ⟨args, hτ, -⟩ := belongs_of_fieldTypes h
    simp [fieldTypes, hτ, TypeContext.unionPayloads, hcase]

theorem beside_list {first c : Constructor} (hfirst : first = .listNil ∨ first = .listCons)
    (hc : c = .listNil ∨ c = .listCons) : Beside checker first c := by
  refine beside_of_isSome (by rcases hc with rfl | rfl <;> simp) fun τ h => ?_
  have hτ : ∃ element, τ.strip = .list element := by
    rcases hfirst with rfl | rfl <;> exact belongs_of_fieldTypes h
  obtain ⟨element, hτ⟩ := hτ
  rcases hc with rfl | rfl <;> simp [fieldTypes, hτ]

theorem present_missing {all hs : List Constructor} (h : present checker all hs = .missing w) :
    ∃ c ∈ all, w = .ctor c (List.replicate (arity checker c) .wild)
      ∧ ∃ i, all[i]? = some c ∧ ∀ head ∈ hs, index head ≠ i := by
  unfold present at h
  split at h
  · rename_i i hi
    split at h
    · rename_i c hc
      obtain rfl := Signature.missing.inj h
      refine ⟨c, mem_of_getElem? hc, rfl, i, hc, fun head hhead heq => ?_⟩
      have := find?_some hi
      simp only [Bool.not_eq_true', any_eq_false, beq_iff_eq] at this
      exact this head hhead heq
    · cases h
  · cases h

theorem signature_complete (h : signature checker rows = .complete cs) (hc : c ∈ cs) :
    ∃ first ∈ heads rows, (∀ key, first ≠ .literal key) ∧ Beside checker first c := by
  unfold signature at h
  split at h
  · cases h
  rename_i first others hheads
  refine ⟨first, by rw [hheads]; exact mem_cons_self, ?_⟩
  split at h
  case h_1 b =>
    obtain rfl := present_complete h
    refine ⟨by simp, ?_⟩
    rcases mem_cons.mp hc with rfl | hc
    · exact beside_bool _ _
    · obtain rfl := mem_singleton.mp hc
      exact beside_bool _ _
  case h_2 id case =>
    obtain rfl := present_complete h
    obtain ⟨case', hcase, rfl⟩ := mem_map.mp hc
    exact ⟨by simp, beside_union (mem_range.mp hcase)⟩
  case h_3 | h_4 =>
    obtain rfl := present_complete h
    exact ⟨by simp, beside_list (by simp) (by simpa using hc)⟩
  case h_5 | h_6 | h_7 =>
    obtain rfl := Signature.complete.inj h
    obtain rfl := mem_singleton.mp hc
    exact ⟨by simp, beside_self (by simp)⟩
  all_goals cases h

/-- What the search says of a column that it does not split. -/
inductive MissingHead (checker : Checker) (rows : List (Row Constructor)) : Witness → Prop
  | free (h : heads rows = []) : MissingHead checker rows .wild
  | array {n : Nat} (h : .arrayLen n ∈ heads rows) : MissingHead checker rows .wild
  | literal {key : LiteralKey} (h : .literal key ∈ heads rows) : MissingHead checker rows .wild
  | constructor {first c : Constructor} (hfirst : first ∈ heads rows)
      (hlit : ∀ key, first ≠ .literal key) (hc : Beside checker first c) (hnew : c ∉ heads rows) :
      MissingHead checker rows (.ctor c (List.replicate (arity checker c) .wild))

theorem signature_missing (h : signature checker rows = .missing w) : MissingHead checker rows w := by
  unfold signature at h
  split at h
  · rename_i hnil
    obtain rfl := Signature.missing.inj h
    exact .free hnil
  rename_i first others hheads
  have hfirst : first ∈ heads rows := by rw [hheads]; exact mem_cons_self
  split at h
  case h_1 b =>
    obtain ⟨c, hc, rfl, i, hi, hne⟩ := present_missing h
    refine .constructor hfirst (by simp) ?_ fun hmem => hne c (hheads ▸ hmem) ?_
    · rcases mem_cons.mp hc with rfl | hc
      · exact beside_bool _ _
      · obtain rfl := mem_singleton.mp hc
        exact beside_bool _ _
    · match i with
      | 0 | 1 => obtain rfl := Option.some.inj hi; rfl
  case h_2 id case =>
    obtain ⟨c, hc, rfl, i, hi, hne⟩ := present_missing h
    obtain ⟨case', hcase, rfl⟩ := mem_map.mp hc
    refine .constructor hfirst (by simp) (beside_union (mem_range.mp hcase)) fun hmem => hne _ (hheads ▸ hmem) ?_
    obtain ⟨hlt, heq⟩ := List.getElem?_eq_some_iff.mp hi
    simpa [index] using heq.symm
  case h_3 | h_4 =>
    obtain ⟨c, hc, rfl, i, hi, hne⟩ := present_missing h
    refine .constructor hfirst (by simp) (beside_list (by simp) (by simpa using hc))
      fun hmem => hne c (hheads ▸ hmem) ?_
    match i with
    | 0 | 1 => obtain rfl := Option.some.inj hi; rfl
  case h_5 | h_6 | h_7 => cases h
  case h_8 n =>
    obtain rfl := Signature.missing.inj h
    exact .array hfirst
  case h_9 key =>
    obtain rfl := Signature.missing.inj h
    exact .literal hfirst

theorem mem_heads {arguments tail : List Pat} (h : .ctor c arguments :: tail ∈ rows) : c ∈ heads rows :=
  mem_filterMap.mpr ⟨_, h, rfl⟩

theorem sampleFields_isSome (hc : ∀ key, c ≠ .literal key) (h : (sampleFields checker literals c τ).isSome) :
    literalType checker literals τ.strip = false
      ∧ sampleFields checker literals c τ = fieldTypes checker.types c τ := by
  unfold sampleFields at h ⊢
  split at h
  · exact absurd rfl (hc _)
  · split at h
    · cases h
    · rename_i hτ
      rw [if_neg hτ]
      exact ⟨Bool.eq_false_iff.mpr hτ, rfl⟩

theorem sampleFields_of_false (hc : ∀ key, c ≠ .literal key) (hτ : literalType checker literals τ.strip = false) :
    sampleFields checker literals c τ = fieldTypes checker.types c τ := by
  unfold sampleFields
  split
  · exact absurd rfl (hc _)
  · rw [hτ]
    rfl

theorem Beside.fields (h : Beside checker first c) (hfirst : ∀ key, first ≠ .literal key)
    (hsome : (sampleFields checker literals first τ).isSome) : ∃ σs, fieldTypes checker.types c τ = some σs
      ∧ sampleFields checker literals c τ = some σs ∧ σs.length = arity checker c
      ∧ literalType checker literals τ.strip = false := by
  obtain ⟨hτ, heq⟩ := sampleFields_isSome hfirst hsome
  obtain ⟨σs, hσ, hlen⟩ := h.2 τ (heq ▸ hsome)
  exact ⟨σs, hσ, (sampleFields_of_false h.1 hτ).trans hσ, hlen, hτ⟩

theorem splits_typed : SplitsTyped (fieldTypes checker.types) (arity checker) (CheckerSplits checker) := by
  rintro rows c τ τs ⟨cs, hcs, hc⟩ hrows
  obtain ⟨first, hmem, -, hbeside⟩ := signature_complete hcs hc
  exact hbeside.2 τ (isSome_of_mem_heads hrows hmem)

theorem splits_sampleTyped : SplitsTyped (sampleFields checker literals) (arity checker) (CheckerSplits checker) := by
  rintro rows c τ τs ⟨cs, hcs, hc⟩ hrows
  obtain ⟨first, hmem, hlit, hbeside⟩ := signature_complete hcs hc
  obtain ⟨σs, -, hσ, hlen, -⟩ := hbeside.fields hlit (isSome_of_mem_heads hrows hmem)
  exact ⟨σs, hσ, hlen⟩

theorem splits_apply : SplitsApply (sampleFields checker literals) Constructed
    (Sample checker equals literals) (CheckerSplits checker) := by
  rintro rows c τ τs σs vs ⟨cs, hcs, hc⟩ hrows hσ hvs
  obtain ⟨first, hmem, hlit, hbeside⟩ := signature_complete hcs hc
  obtain ⟨σs', hσ', hσ'', -, hτ⟩ := hbeside.fields hlit (isSome_of_mem_heads hrows hmem)
  obtain rfl := Option.some.inj (hσ''.symm.trans hσ)
  obtain ⟨v, hv⟩ := exists_constructed (fieldsOf_of_fieldTypes hσ' hbeside.1) hvs.length_eq
  exact ⟨v, hv, .of_forall₂ hτ hσ' hbeside.1 hv hvs⟩

theorem matches_witnessPattern_wild (v : Value) : Matches Constructed (witnessPattern .wild) v := by
  rw [witnessPattern]
  exact matches_wild v

theorem witnessPattern_ctor (c : Constructor) (n : Nat) :
    witnessPattern (.ctor c (List.replicate n .wild)) = .ctor c (List.replicate n .wild) := by
  simp [witnessPattern]

theorem heads_haveType : HeadsTyped (fieldTypes checker.types) (Heads checker) := by
  rintro rows p τ τs ⟨w, hw, rfl⟩ hrows
  cases signature_missing hw with
  | free | array | literal => simp [witnessPattern]
  | constructor hfirst hlit hc hnew =>
    obtain ⟨σs, hσ, hlen⟩ := hc.2 τ (isSome_of_mem_heads hrows hfirst)
    rw [witnessPattern_ctor, PatternMatrix.Pat.Typed]
    exact ⟨σs, hσ, hlen ▸ typedAll_wilds σs⟩

theorem exists_length (cs : List Constructor) : ∃ n, .arrayLen n ∉ cs := by
  suffices h : ∃ n, ∀ m, .arrayLen m ∈ cs → m < n by
    obtain ⟨n, hn⟩ := h
    exact ⟨n, fun hmem => Nat.lt_irrefl n (hn n hmem)⟩
  induction cs with
  | nil => exact ⟨0, by simp⟩
  | cons c cs ih =>
    obtain ⟨n, hn⟩ := ih
    cases c with
    | arrayLen k =>
      refine ⟨max n (k + 1), fun m hm => ?_⟩
      rcases mem_cons.mp hm with heq | hm
      · obtain rfl := Constructor.arrayLen.inj heq
        omega
      · have := hn m hm
        omega
    | _ => exact ⟨n, fun m hm => hn m (by simpa using hm)⟩

theorem avoids_of_notMem {vs : List Value} {v : Value} (hv : Constructed c vs v)
    (hc : c ∉ heads rows) : AvoidsHeads Constructed rows v := by
  intro c' arguments tail hmem us hus
  obtain ⟨rfl, -⟩ := constructed_functional _ _ _ _ _ hus hv
  exact hc (mem_heads hmem)

theorem heads_avoid (hfresh : Unexhausted checker equals literals) :
    HeadsAvoid (sampleFields checker literals) Constructed (Sample checker equals literals)
      (FullyInhabited checker.types) (Heads checker) := by
  rintro rows p τ τs ⟨w, hw, rfl⟩ hτ hrows
  have hsample : ∃ v, Sample checker equals literals v τ := by
    obtain ⟨v, hv⟩ := hτ τ .refl
    exact exists_sample hfresh hv
  have hsamples {c : Constructor} {σs : List Ty} (hσ : fieldTypes checker.types c τ = some σs) :
      ∃ vs, List.Forall₂ (Sample checker equals literals) vs σs := by
    have hgood : ∀ σ ∈ σs, ∃ v, Inhabits checker.types v σ :=
      fun σ hmem => hτ.field hσ hmem σ .refl
    clear hσ
    induction σs with
    | nil => exact ⟨[], .nil⟩
    | cons σ σs ih =>
      obtain ⟨hfirst, hrest⟩ := forall_mem_cons.mp hgood
      obtain ⟨v, hv⟩ := hfirst
      obtain ⟨u, hu⟩ := exists_sample hfresh hv
      obtain ⟨us, hus⟩ := ih hrest
      exact ⟨u :: us, .cons hu hus⟩
  cases signature_missing hw with
  | free hnil =>
    obtain ⟨v, hv⟩ := hsample
    refine ⟨v, hv, matches_witnessPattern_wild v, fun c arguments tail hmem => ?_⟩
    have := mem_heads hmem
    simp [hnil] at this
  | @array n hn =>
    -- a length that no row has
    have hsome := isSome_of_mem_heads hrows hn
    obtain ⟨hτ', heq⟩ := sampleFields_isSome (by simp) hsome
    rw [heq] at hsome
    obtain ⟨m, hm⟩ := exists_length (heads rows)
    obtain ⟨element, hstrip⟩ : ∃ element, τ.strip = .array element :=
      belongs_of_fieldTypes hsome
    have hσ : fieldTypes checker.types (.arrayLen m) τ = some (List.replicate m element) := by
      simp [fieldTypes, hstrip]
    obtain ⟨vs, hvs⟩ := hsamples hσ
    obtain ⟨v, hv⟩ := exists_constructed (fieldsOf_of_fieldTypes hσ (by simp)) hvs.length_eq
    exact ⟨v, .of_forall₂ hτ' hσ (by simp) hv hvs, matches_witnessPattern_wild v, avoids_of_notMem hv hm⟩
  | @literal key hkey =>
    -- only literals stand in this column, and a sample equals none
    obtain ⟨v, hv⟩ := hsample
    refine ⟨v, hv, matches_witnessPattern_wild v, fun c arguments tail hmem us hus => ?_⟩
    have hc := isSome_of_mem_heads hrows (mem_heads hmem)
    have hlit := isSome_of_mem_heads hrows hkey
    rw [sampleFields] at hlit
    split at hlit
    · rename_i hτ'
      rw [(sampleFields_isSome hus.ne_literal hc).1] at hτ'
      cases hτ'
    · cases hlit
  | @constructor first c hfirst hlit hc hnew =>
    obtain ⟨σs, hσ, -, hlen, hτ'⟩ := hc.fields hlit (isSome_of_mem_heads hrows hfirst)
    obtain ⟨vs, hvs⟩ := hsamples hσ
    obtain ⟨v, hv⟩ := exists_constructed (fieldsOf_of_fieldTypes hσ hc.1) hvs.length_eq
    refine ⟨v, .of_forall₂ hτ' hσ hc.1 hv hvs, ?_, avoids_of_notMem hv hnew⟩
    rw [witnessPattern_ctor, Matches]
    exact ⟨vs, hv, by rw [← hlen, ← hvs.length_eq]; exact matchesAll_wilds vs⟩

end Signatures

end Tsuzuri
