import Tsuzuri.UnionValue
import Tsuzuri.LayoutSound

/-!
# Unions lose nothing

The value that `construct_value` builds gives back its case and its payload (`union_lossless`).
-/

namespace Tsuzuri.Layout

open DataLayout LlvmType List Option

variable {case bytes n : Nat} {M : Machine} {values : List Val} {t : Llvm} {value : Val}

theorem lt_tagBytes {cases : Nat} (hcase : case < cases) (hcases : cases ≤ 4294967296) :
    case < 256 ^ tagBytes cases := by
  unfold tagBytes
  split
  · omega
  · split <;> omega

@[simp] theorem bytes_constant (bytes n : Nat) : (constant bytes n).bytes = bytesOf bytes n := rfl

theorem number_constant (h : n < 256 ^ bytes) : number (constant bytes n).bytes = some n :=
  number_bytesOf h

theorem zext_constant (h : n < 256 ^ bytes) : zext (constant bytes n) = constant 4 n := by
  rw [zext, number_constant h]

theorem read_field {types : List Llvm} (index : Nat) (h : FitsAll M types values)
    (ht : types[index]? = some t) (hvalue : values[index]? = some value) (hfits : Fits M t value)
    (mem : Nat → Byte) (slot : Nat) :
    read (write mem slot (encode M (.struct types) (.agg values))) (slot + fieldOffset M 0 types index)
      (sizeAlign M t).1 = encode M t value := by
  obtain ⟨before, rest, himage, hbefore⟩ := encodeFields_field 0 h ht hvalue
  have hlength := length_encode hfits
  rw [Nat.zero_add] at hbefore
  rw [encode, Val.elements, himage, ← hbefore, append_assoc, read_write]
  · rw [drop_left' rfl, append_assoc, take_left' hlength]
  · simp only [length_append]
    omega

theorem decode_stored (h : Fits M t value) (mem : Nat → Byte) (slot : Nat) :
    decode M t (read (write mem slot (encode M t value)) slot (sizeAlign M t).1) = value := by
  have hdecode := loaded_stored h []
  rw [append_nil] at hdecode
  rw [← length_encode h, read_write_self, hdecode]

theorem decode_front {area : Llvm} {filled : Val} {mem : Nat → Byte} {address : Nat}
    (hread : read mem address (sizeAlign M area).1 = encode M area filled)
    (hsize : (sizeAlign M t).1 ≤ (sizeAlign M area).1)
    (hbytes : (encode M area filled).take (sizeAlign M t).1 = encode M t value) (hvalue : Fits M t value) :
    decode M t (read mem address (sizeAlign M t).1) = value := by
  have hdecode := loaded_stored hvalue []
  rw [append_nil] at hdecode
  rw [← hread, ← Nat.add_sub_cancel' hsize, read_split, take_left' (length_read _ _ _)] at hbytes
  rw [hbytes, hdecode]

theorem fieldOffset_zero (M : Machine) (t : Llvm) (types : List Llvm) : fieldOffset M 0 (t :: types) 0 = 0 := by
  rw [fieldOffset, nextMultiple, Nat.zero_mod, if_pos rfl]

theorem emit_bind {α β : Type} (x : Emit α) (f : α → Emit β) (s : Frame) :
    (x >>= f) s = (x s).bind fun p => f p.1 p.2 := rfl

theorem emit_pure {α : Type} (a : α) (s : Frame) : (pure a : Emit α) s = some (a, s) := rfl

theorem emit_lift {α : Type} (a : α) (s : Frame) : (liftM (some a) : Emit α) s = some (a, s) := rfl

namespace CheckedModule

variable {m : CheckedModule} {M : Machine} {depth : Nat}

def spilled (M : Machine) (t : Llvm) (value : Val) (s : Frame) : Frame where
  mem := write s.mem s.next (encode M t value)
  next := nextMultiple (s.next + (sizeAlign M t).1) 16

variable {ty : Ty} {id unit units : Nat} {args : List Ty}

theorem spill_run (h : m.ty depth ty = some t) (value : Val) (s : Frame) :
    m.spill M depth ty value s = some (s.next, spilled M t value s) := by
  rw [spill, h]
  rfl

/-- The LLVM type of a union that is no node, by its layout. -/
inductive Shape (m : CheckedModule) (M : Machine) (depth id : Nat) (args : List Ty) : UnionLayout → Llvm → Prop
  | enum (hnone : ∀ payload, some payload ∉ m.types.unionPayloads id args) :
      Shape m M depth id args .enum (.named (.union id args) (m.tagType (.union id args)))
  | common {payload : Ty} {t : Llvm}
      (hpayloads : ∀ other, some other ∈ m.types.unionPayloads id args → m.ty depth other = some t) :
      Shape m M depth id args (.common payload)
        (.named (.union id args) (.struct (m.tagType (.union id args) :: t :: m.flagType (.union id args))))
  | general {unit units : Nat} (hpayloads : ∀ other, some other ∈ m.types.unionPayloads id args →
        ∃ t, m.ty depth other = some t ∧ (sizeAlign M t).1 ≤ (sizeAlign M (area unit units)).1) :
      Shape m M depth id args (.general unit units) (.named (.union id args)
        (.struct (m.tagType (.union id args) :: area unit units :: m.flagType (.union id args))))
  | niche {niche : Niche} {payload : Ty} {nullary full : Nat} {t : Llvm}
      (hcases : optionCases (m.types.unionPayloads id args) = some (nullary, full, payload))
      (hniche : m.nicheOf payload = some niche) (ht : m.ty depth payload = some t) :
      Shape m M depth id args (.niche niche payload nullary full) t

theorem fits_area {known : Layouts}
    (h : ∀ payload, some payload ∈ m.types.unionPayloads id args → LaidAt known M payload)
    (hlayout : m.workOutUnionLayout known id args = some (.general unit units)) {payload : Ty}
    (hmem : some payload ∈ m.types.unionPayloads id args) :
    ∃ t, known.llvm payload = some t ∧ (sizeAlign M t).1 ≤ (sizeAlign M (area unit units)).1 := by
  obtain ⟨hunit, hfits⟩ := area_of_general h hlayout
  obtain ⟨t, lower, upper, ht, hlower, hupper, hbelow, habove⟩ := h payload hmem
  refine ⟨t, ht, ?_⟩
  rw [sizeAlign_area M units hunit]
  exact Nat.le_trans habove.size (hfits payload hmem upper hupper).1

theorem shape_of (h : ∀ payload ∈ m.payloads (.union id args), Stored m payload)
    (hrec : ¬ m.recursive (.union id args) = true) (M : Machine) :
    ∃ depth, ∀ depth' ≥ depth, ∃ layout t, m.unionLayout depth' (.union id args) = some layout ∧
      m.ty depth' (.union id args) = some t ∧ Shape m M depth' id args layout t := by
  obtain ⟨depth, -, hlaid⟩ := payloads_laid h M 0
  refine ⟨depth + 1, fun depth' hdepth' => ?_⟩
  have hbase : (m.layouts depth).Le (m.layouts depth') := layouts_le (by omega)
  obtain ⟨layout, hlayout⟩ := workOutUnionLayout_of_laid hlaid
  have hlayout' := workOutUnionLayout_le hbase hlayout
  have hlaid' := fun payload hmem => (hlaid payload hmem).mono hbase
  have hspec := workOutUnionLayout_spec hlayout'
  have hty : ∀ {t}, m.llvmType (m.layouts depth) (.union id args) = some t → m.ty depth' (.union id args) = some t :=
    fun ht => (layouts_le hdepth').llvm ht
  unfold llvmType at hty
  simp only [if_neg hrec, hlayout, bind_eq_bind, bind_some] at hty
  cases layout with
  | enum =>
    refine ⟨_, _, hlayout', hty rfl, .enum fun payload hmem => ?_⟩
    have := reduceOption_mem_iff.2 hmem
    rw [hspec] at this
    exact not_mem_nil this
  | common payload =>
    obtain ⟨hmem, t, ht, hall⟩ := hspec
    obtain ⟨u, -, -, hu, -⟩ := hlaid payload hmem
    obtain rfl : u = t := Option.some.inj ((hbase.llvm hu).symm.trans ht)
    simp only [hu, bind_some] at hty
    exact ⟨_, _, hlayout', hty rfl, .common hall⟩
  | general unit units => exact ⟨_, _, hlayout', hty rfl, .general fun other hmem => fits_area hlaid' hlayout' hmem⟩
  | niche niche payload nullary full =>
    obtain ⟨hmem, hoption, hof, -⟩ := hspec
    obtain ⟨t, -, -, ht, -⟩ := hlaid payload hmem
    exact ⟨_, _, hlayout', hty ht, .niche hoption hof (hbase.llvm ht)⟩

def Present : Ty → Val → Prop
  | .string, value | .utf8String, value | .array _, value =>
    ∃ n, number (value.field 1).bytes = some n ∧ n < 9223372036854775808
  | .function .., value | .once _, value => ∃ n, number (value.field 0).bytes = some n ∧ n ≠ 0
  | .reference target mutable, value =>
    sliceElement (.reference target mutable) = none → ∃ n, number value.bytes = some n ∧ n ≠ 0
  | _, _ => True

/-- The tag and the payload of a union value, read from the value or through memory, are those it was built with. -/
structure Reads (m : CheckedModule) (M : Machine) (depth : Nat) (ty : Ty) (case : Nat) (payload : Option (Ty × Val))
    (union : Val) (s : Frame) : Prop where
  tag : (m.tagValue M depth ty union s).map Prod.fst = some (constant 4 case)
  loaded : ((m.spill M depth ty union >>= m.loadTag M depth ty) s).map Prod.fst = some (constant 4 case)
  payload : ∀ p value, payload = some (p, value) → (m.payloadValue M depth ty union p s).map Prod.fst = some value
  fits : ∀ t, m.ty depth ty = some t → Fits M t union

/-- The payload as `construct_value` takes it. -/
def operand (m : CheckedModule) (depth : Nat) (payload : Option (Ty × Val)) : Option (Val × Llvm) :=
  payload.bind fun (ty, value) => (m.ty depth ty).map fun t => (value, t)

def Carries (m : CheckedModule) (M : Machine) (depth id : Nat) (args : List Ty) (case : Nat)
    (payload : Option (Ty × Val)) : Prop :=
  (m.types.unionPayloads id args)[case]? = some (payload.map Prod.fst) ∧
    ∀ p value, payload = some (p, value) → Present p value ∧ ∀ t, m.ty depth p = some t → Fits M t value

section Tagged

variable {id case : Nat} {args : List Ty} {payload : Option (Ty × Val)}

theorem Carries.mem (h : m.Carries M depth id args case payload) :
    payload.map Prod.fst ∈ m.types.unionPayloads id args :=
  mem_of_getElem? h.1

theorem fits_tag (m : CheckedModule) (M : Machine) (ty : Ty) (n : Nat) :
    Fits M (m.tagType ty) (constant (m.tagWidth ty) n) := by
  have hsize := congrArg Prod.fst (sizeAlign_tag m M ty)
  change (bytesOf (m.tagWidth ty) n).length = _
  rw [length_bytesOf]
  exact hsize.symm

def flagVals (m : CheckedModule) (ty : Ty) : List Val := (m.dropFlag ty).toList.map fun _ => constant 1 1

theorem fits_flag (m : CheckedModule) (M : Machine) (ty : Ty) : FitsAll M (m.flagType ty) (m.flagVals ty) := by
  unfold flagType flagVals
  cases m.dropFlag ty with
  | none => trivial
  | some index =>
    have hsize : sizeAlign M (.int 8 : Llvm) = (1, 1) := sizeAlign_int M (show 1 ∈ _ by decide)
    refine ⟨?_, trivial⟩
    change (bytesOf 1 1).length = (sizeAlign M (.int 8 : Llvm)).1
    rw [hsize, length_bytesOf]

theorem markLive_setField (m : CheckedModule) (M : Machine) (id : Nat) (args : List Ty) (t : Llvm) (n : Nat) :
    m.markLive (.union id args) ((zeroinitializer M (.named (.union id args)
      (.struct (m.tagType (.union id args) :: t :: m.flagType (.union id args))))).setField 0
        (constant (m.tagWidth (.union id args)) n)) =
      .agg (constant (m.tagWidth (.union id args)) n :: zeroinitializer M t :: m.flagVals (.union id args)) := by
  have hflag : m.dropFlag (.union id args) = none ∨ m.dropFlag (.union id args) = some 2 := by
    rw [dropFlag]
    split
    · exact .inr rfl
    · exact .inl rfl
  rcases hflag with h | h <;>
    simp [markLive, flagType, flagVals, h, zeroinitializer, zeroinitializers, Val.setField, tagType]

mutual

theorem fits_zeroinitializer : ∀ t : Llvm, Fits M t (zeroinitializer M t)
  | .array count element => by
    rw [zeroinitializer]
    refine ⟨length_replicate, fun field hmem => ?_⟩
    rw [eq_of_mem_replicate hmem]
    exact fits_zeroinitializer element
  | .struct fields => by
    rw [zeroinitializer]
    exact fitsAll_zeroinitializers fields
  | .named _ body => by
    rw [zeroinitializer]
    exact fits_zeroinitializer body
  | .int _ | .float | .double | .ptr | .vector .. => length_bytesOf _ _

theorem fitsAll_zeroinitializers : ∀ fields : List Llvm, FitsAll M fields (zeroinitializers M fields)
  | [] => trivial
  | field :: fields => ⟨fits_zeroinitializer field, fitsAll_zeroinitializers fields⟩

end

variable {name : LlvmName} {layout : UnionLayout} {p : Ty} {niche : Niche} {first second : Nat}
  {region : Llvm} {s : Frame}

theorem loaded_tag {fields : List Llvm} (hty : m.ty depth ty = some (.named name (.struct (m.tagType ty :: fields))))
    (hn : n < 256 ^ m.tagWidth ty) (hrec : ¬ m.recursive ty = true)
    (hlayout : m.unionLayout depth ty = some layout) (hniche : ∀ a b c d, layout ≠ .niche a b c d)
    (hfits : FitsAll M (m.tagType ty :: fields) (constant (m.tagWidth ty) n :: values)) (s : Frame) :
    ((m.spill M depth ty (.agg (constant (m.tagWidth ty) n :: values)) >>= m.loadTag M depth ty) s).map Prod.fst =
      some (constant 4 n) := by
  have hread := read_field 0 hfits rfl rfl hfits.1 s.mem s.next
  rw [fieldOffset_zero, Nat.add_zero] at hread
  rw [emit_bind, spill_run hty, bind_some, loadTag]
  simp only [if_neg hrec, hlayout, emit_bind, emit_lift, bind_some]
  have hload : zext (decode M (m.tagType ty) (read (spilled M (.named name (.struct (m.tagType ty :: fields)))
      (.agg (constant (m.tagWidth ty) n :: values)) s).mem s.next (sizeAlign M (m.tagType ty)).1)) = constant 4 n := by
    have := loaded_stored hfits.1 []
    rw [append_nil] at this
    change zext (decode M (m.tagType ty) (read (write s.mem s.next (encode M (.struct (m.tagType ty :: fields))
      (.agg (constant (m.tagWidth ty) n :: values)))) s.next (sizeAlign M (m.tagType ty)).1)) = constant 4 n
    rw [hread, this, zext_constant hn]
  cases layout with
  | niche => exact absurd rfl (hniche _ _ _ _)
  | enum | common | general => exact congrArg some hload

/-! ## The layouts -/

variable {node drop clone : Nat}

section

variable (hrec : ¬ m.recursive (.union id args) = true)

include hrec

theorem reads_enum (hlayout : m.unionLayout depth (.union id args) = some .enum)
    (hty : m.ty depth (.union id args) = some (.named (.union id args) (m.tagType (.union id args))))
    (hnone : ∀ payload, some payload ∉ m.types.unionPayloads id args)
    (hcarries : m.Carries M depth id args case payload) (hcase : case < 256 ^ m.tagWidth (.union id args)) (s : Frame) :
    ∃ union s', m.constructValue M depth (.union id args) case (m.operand depth payload) node drop clone s =
      some (union, s') ∧ m.Reads M depth (.union id args) case payload union s' := by
  obtain rfl : payload = none := by
    cases payload with
    | none => rfl
    | some payload => exact absurd hcarries.mem (hnone payload.1)
  refine ⟨constant (m.tagWidth (.union id args)) case, s, ?_, ?_, ?_, ?_, ?_⟩
  · rw [constructValue]
    simp only [if_neg hrec, hlayout, emit_bind, emit_lift, bind_some]
    rfl
  · rw [tagValue]
    simp only [if_neg hrec, hlayout, emit_bind, emit_lift, bind_some]
    exact congrArg some (zext_constant hcase)
  · have hstored := decode_stored (fits_tag m M (.union id args) case) s.mem s.next
    rw [emit_bind, spill_run hty, bind_some, loadTag]
    simp only [if_neg hrec, hlayout, emit_bind, emit_lift, bind_some]
    refine congrArg some (Eq.trans ?_ (zext_constant hcase))
    exact congrArg zext hstored
  · intro p value h
    cases h
  · intro t ht
    obtain rfl := Option.some.inj (hty.symm.trans ht)
    exact fits_tag m M _ _

theorem tagged_tag (hlayout : m.unionLayout depth (.union id args) = some layout)
    (hniche : ∀ a b c d, layout ≠ .niche a b c d) (henum : layout ≠ .enum)
    (hcase : case < 256 ^ m.tagWidth (.union id args)) (values : List Val) (s : Frame) :
    (m.tagValue M depth (.union id args) (.agg (constant (m.tagWidth (.union id args)) case :: values)) s).map
      Prod.fst = some (constant 4 case) := by
  rw [tagValue]
  simp only [if_neg hrec, hlayout, emit_bind, emit_lift, bind_some]
  cases layout with
  | niche => exact absurd rfl (hniche _ _ _ _)
  | enum => exact absurd rfl henum
  | common | general => exact congrArg some (zext_constant hcase)

theorem reads_common {first : Ty} (hlayout : m.unionLayout depth (.union id args) = some (.common first))
    (hty : m.ty depth (.union id args) = some (.named (.union id args)
      (.struct (m.tagType (.union id args) :: t :: m.flagType (.union id args)))))
    (hpayloads : ∀ other, some other ∈ m.types.unionPayloads id args → m.ty depth other = some t)
    (hcarries : m.Carries M depth id args case payload) (hcase : case < 256 ^ m.tagWidth (.union id args)) (s : Frame) :
    ∃ union s', m.constructValue M depth (.union id args) case (m.operand depth payload) node drop clone s =
      some (union, s') ∧ m.Reads M depth (.union id args) case payload union s' := by
  have hniche : ∀ a b c d, UnionLayout.common first ≠ .niche a b c d := by
    intro a b c d h
    cases h
  have henum : UnionLayout.common first ≠ .enum := by
    intro h
    cases h
  -- The second field is the payload, or zeros.
  obtain ⟨value, hconstruct, hvalue, hread⟩ : ∃ value, m.constructValue M depth (.union id args) case
      (m.operand depth payload) node drop clone s =
        some (.agg (constant (m.tagWidth (.union id args)) case :: value :: m.flagVals (.union id args)), s) ∧
      Fits M t value ∧ ∀ p v, payload = some (p, v) → value = v := by
    rw [constructValue]
    simp only [if_neg hrec, hlayout, hty, emit_bind, emit_lift, bind_some, markLive_setField]
    cases payload with
    | none => exact ⟨_, rfl, fits_zeroinitializer t, fun _ _ h => by cases h⟩
    | some payload =>
      obtain ⟨p, v⟩ := payload
      have hp := hpayloads p hcarries.mem
      refine ⟨v, ?_, (hcarries.2 p v rfl).2 t hp, fun _ _ h => by cases h; rfl⟩
      simp only [operand, hp, bind_some, map_some]
      rfl
  have hfits : FitsAll M (m.tagType (.union id args) :: t :: m.flagType (.union id args))
      (constant (m.tagWidth (.union id args)) case :: value :: m.flagVals (.union id args)) :=
    ⟨fits_tag m M _ _, hvalue, fits_flag m M _⟩
  refine ⟨_, s, hconstruct, tagged_tag hrec hlayout hniche henum hcase _ s,
    loaded_tag hty hcase hrec hlayout hniche hfits s, fun p v hpayload => ?_, fun u hu => ?_⟩
  · obtain rfl := hread p v hpayload
    subst hpayload
    rw [payloadValue, hpayloads p hcarries.mem]
    simp only [if_neg hrec, hlayout, emit_bind, emit_lift, bind_some]
    rfl
  · obtain rfl := Option.some.inj (hty.symm.trans hu)
    exact hfits

end

theorem filled_slot (m : CheckedModule) (M : Machine) (ty : Ty) {flags : List Llvm}
    (hfits : FitsAll M (m.tagType ty :: area unit units :: flags) (constant (m.tagWidth ty) n :: values))
    (hvalue : Fits M t value) (hsize : (sizeAlign M t).1 ≤ (sizeAlign M (area unit units)).1)
    (mem : Nat → Byte) (slot : Nat) : ∃ filled rest, decodeFields M 0 (m.tagType ty :: area unit units :: flags)
        (read (write (write mem slot (encode M (.struct (m.tagType ty :: area unit units :: flags))
          (.agg (constant (m.tagWidth ty) n :: values))))
          (slot + fieldOffset M 0 (m.tagType ty :: area unit units :: flags) 1) (encode M t value)) slot
          (sizeAlign M (.struct (m.tagType ty :: area unit units :: flags))).1) =
        constant (m.tagWidth ty) n :: filled :: rest ∧
      (encode M (area unit units) filled).take (sizeAlign M t).1 = encode M t value := by
  generalize htypes : m.tagType ty :: area unit units :: flags = types at hfits ⊢
  generalize hoffset : fieldOffset M 0 types 1 = offset
  generalize hfirst : write mem slot (encode M (.struct types) (.agg (constant (m.tagWidth ty) n :: values))) = first
  generalize hsecond : write first (slot + offset) (encode M t value) = second
  have htag := fits_tag m M ty n
  have hsizes : (sizeAlign M (m.tagType ty)).1 ≤ offset := by
    rw [← hoffset, ← htypes, fieldOffset]
    exact Nat.le_trans (Nat.le_add_left _ _) (le_fieldOffset _ _ _)
  have harea : offset + (sizeAlign M (area unit units)).1 ≤ (sizeAlign M (.struct types)).1 := by
    rw [← hoffset]
    exact fieldOffset_add_le (by rw [← htypes]; rfl)
  -- The tag lies in front of the area.
  have hread : read second slot (sizeAlign M (m.tagType ty)).1 =
      encode M (m.tagType ty) (constant (m.tagWidth ty) n) := by
    have := read_field 0 hfits (by rw [← htypes]; rfl) rfl htag mem slot
    rw [← htypes, fieldOffset_zero, Nat.add_zero, htypes, hfirst] at this
    rw [← hsecond, read_write_before _ _ (by omega), this]
  -- The area starts with the payload.
  have hpayload : read second (slot + offset) (sizeAlign M t).1 = encode M t value := by
    rw [← hsecond, ← length_encode hvalue, read_write_self]
  have himage : read second slot (sizeAlign M (.struct types)).1 = read second slot (sizeAlign M (m.tagType ty)).1 ++
      read second (slot + (sizeAlign M (m.tagType ty)).1)
        ((sizeAlign M (.struct types)).1 - (sizeAlign M (m.tagType ty)).1) := by
    rw [← read_split, Nat.add_sub_cancel' (by omega)]
  have hrest : (read second slot (sizeAlign M (.struct types)).1).drop offset =
      read second (slot + offset) (sizeAlign M t).1 ++ read second (slot + offset + (sizeAlign M t).1)
        ((sizeAlign M (.struct types)).1 - offset - (sizeAlign M t).1) := by
    rw [← read_split, Nat.add_sub_cancel' (by omega)]
    conv_lhs => rw [← Nat.add_sub_cancel' (show offset ≤ (sizeAlign M (.struct types)).1 by omega), read_split]
    exact drop_left' (length_read _ _ _)
  rw [← htypes, decodeFields, decodeFields, htypes]
  refine ⟨_, _, congrArg₂ List.cons ?_ rfl, ?_⟩
  · have hzero : nextMultiple 0 (sizeAlign M (m.tagType ty)).2 = 0 := by
      rw [nextMultiple, Nat.zero_mod, if_pos rfl]
    rw [hzero, drop_zero, himage, hread]
    exact loaded_stored htag _
  · have hstart : nextMultiple (nextMultiple 0 (sizeAlign M (m.tagType ty)).2 + (sizeAlign M (m.tagType ty)).1)
        (sizeAlign M (area unit units)).2 = offset := by
      rw [← hoffset, ← htypes]
      rfl
    have hbytes := encode_decode_ints (ν := LlvmName) (m := M) (8 * unit) units
      ((read second slot (sizeAlign M (.struct types)).1).drop offset)
    have hwidth : (sizeAlign M (area unit units)).1 = (sizeAlign M (.int (8 * unit) : Llvm)).1 * units := by
      rw [area, sizeAlign_array]
    rw [hstart]
    change (encode M (.array units (.int (8 * unit))) (decode M (.array units (.int (8 * unit))) _)).take _ = _
    rw [hbytes, ← hwidth, take_take, Nat.min_eq_left hsize, hrest, take_left' (length_read _ _ _), hpayload]

theorem payloadPointer_run (hrec : ¬ m.recursive ty = true) (hlayout : m.unionLayout depth ty = some layout)
    (hniche : ∀ a b c d, layout ≠ .niche a b c d) (hty : m.ty depth ty = some t) (slot : Nat) (s : Frame) :
    m.payloadPointer M depth ty slot s = some (getelementptr M t slot 1, s) := by
  rw [payloadPointer]
  simp only [if_neg hrec, hlayout, hty, emit_bind, emit_lift, bind_some]
  cases layout with
  | niche => exact absurd rfl (hniche _ _ _ _)
  | enum | common | general => rfl

theorem reads_general (hrec : ¬ m.recursive (.union id args) = true)
    (hlayout : m.unionLayout depth (.union id args) = some (.general unit units))
    (hty : m.ty depth (.union id args) = some (.named (.union id args)
      (.struct (m.tagType (.union id args) :: area unit units :: m.flagType (.union id args)))))
    (hpayloads : ∀ other, some other ∈ m.types.unionPayloads id args →
      ∃ t, m.ty depth other = some t ∧ (sizeAlign M t).1 ≤ (sizeAlign M (area unit units)).1)
    (hcarries : m.Carries M depth id args case payload) (hcase : case < 256 ^ m.tagWidth (.union id args)) (s : Frame) :
    ∃ union s', m.constructValue M depth (.union id args) case (m.operand depth payload) node drop clone s =
      some (union, s') ∧ m.Reads M depth (.union id args) case payload union s' := by
  have hniche : ∀ a b c d, UnionLayout.general unit units ≠ .niche a b c d := by
    intro a b c d h
    cases h
  have henum : UnionLayout.general unit units ≠ .enum := by
    intro h
    cases h
  have htagged : FitsAll M (m.tagType (.union id args) :: area unit units :: m.flagType (.union id args))
      (constant (m.tagWidth (.union id args)) case :: zeroinitializer M (area unit units) ::
        m.flagVals (.union id args)) :=
    ⟨fits_tag m M _ _, fits_zeroinitializer _, fits_flag m M _⟩
  cases payload with
  | none =>
    refine ⟨.agg (constant (m.tagWidth (.union id args)) case :: zeroinitializer M (area unit units) ::
      m.flagVals (.union id args)), s, ?_, tagged_tag hrec hlayout hniche henum hcase _ s,
      loaded_tag hty hcase hrec hlayout hniche htagged s, (fun p v h => by cases h), fun u hu => ?_⟩
    · rw [constructValue]
      simp only [if_neg hrec, hlayout, hty, emit_bind, emit_lift, bind_some, markLive_setField]
      rfl
    · obtain rfl := Option.some.inj (hty.symm.trans hu)
      exact htagged
  | some payload =>
    obtain ⟨p, v⟩ := payload
    obtain ⟨t, ht, hsize⟩ := hpayloads p hcarries.mem
    have hvalue := (hcarries.2 p v rfl).2 t ht
    obtain ⟨filled, rest, hfilled, hbytes⟩ := filled_slot m M (.union id args) htagged hvalue hsize s.mem s.next
    have hfits : FitsAll M (m.tagType (.union id args) :: area unit units :: m.flagType (.union id args))
        (constant (m.tagWidth (.union id args)) case :: filled :: rest) := by
      rw [← hfilled]
      exact fits_decode (.struct (m.tagType (.union id args) :: area unit units :: m.flagType (.union id args)))
        (Nat.le_of_eq (length_read _ _ _).symm)
    let U : Llvm := .named (.union id args)
      (.struct (m.tagType (.union id args) :: area unit units :: m.flagType (.union id args)))
    let tagged := Val.agg (constant (m.tagWidth (.union id args)) case :: zeroinitializer M (area unit units) ::
      m.flagVals (.union id args))
    refine ⟨.agg (constant (m.tagWidth (.union id args)) case :: filled :: rest), { spilled M U tagged s with
      mem := write (spilled M U tagged s).mem (getelementptr M U s.next 1) (encode M t v) }, ?_,
      tagged_tag hrec hlayout hniche henum hcase _ _, loaded_tag hty hcase hrec hlayout hniche hfits _,
      fun p' v' h => ?_, fun u hu => ?_⟩
    · rw [constructValue]
      simp only [if_neg hrec, hlayout, hty, emit_bind, emit_lift, bind_some, markLive_setField, operand, ht,
        map_some, spill_run hty, payloadPointer_run hrec hlayout hniche hty, store, load]
      refine congrArg some (congrArg (Prod.mk · _) ?_)
      rw [← hfilled]
      rfl
    · cases h
      rw [payloadValue]
      simp only [if_neg hrec, hlayout, ht, emit_bind, emit_lift, bind_some, spill_run hty,
        payloadPointer_run hrec hlayout hniche hty, load]
      refine congrArg some ?_
      exact decode_front (read_field 1 hfits rfl rfl hfits.2.1 _ _) hsize hbytes hvalue
    · obtain rfl := Option.some.inj (hty.symm.trans hu)
      exact hfits

/-! ### Niches -/

def NicheShape (t : Llvm) : Niche → Prop
  | .negativeLength => ∃ name, t = .named name (.struct [.ptr, .int 64])
  | .nullPointer => t = .ptr
  | .nullDescriptor => ∃ name, t = .named name (.struct [.ptr, .ptr])

def nicheField (niche : Niche) (union : Val) : Val :=
  match niche with
  | .negativeLength => union.field 1
  | .nullPointer => union
  | .nullDescriptor => union.field 0

theorem nicheShape_of (hniche : m.nicheOf p = some niche) (ht : m.ty depth p = some t) : NicheShape t niche := by
  cases depth with
  | zero => cases ht
  | succ depth =>
    cases p with
    | string | utf8String | array | function | once =>
      cases hniche
      cases ht
      exact ⟨_, rfl⟩
    | reference target mutable =>
      simp only [nicheOf] at hniche
      split at hniche
      · rename_i hcond
        cases hniche
        rw [Bool.and_eq_true, isNone_iff_eq_none] at hcond
        change m.llvmType (m.layouts depth) (.reference target mutable) = some t at ht
        simp only [llvmType, hcond.1, isSome_none, Bool.false_eq_true, if_false] at ht
        exact (Option.some.inj ht).symm
      · cases hniche
    | _ => cases hniche

theorem nicheTag_present (hniche : m.nicheOf p = some niche) (h : Present p value) (nullary full : Nat) :
    nicheTag niche (nicheField niche value) nullary full = constant 4 full := by
  have hlength : (∃ n, number (value.field 1).bytes = some n ∧ n < 9223372036854775808) →
      nicheTag .negativeLength (nicheField .negativeLength value) nullary full = constant 4 full := by
    rintro ⟨n, hn, hlt⟩
    simp only [nicheTag, nicheField, negative, hn, map_some]
    rw [decide_eq_false (by omega)]
    rfl
  have hdescriptor : (∃ n, number (value.field 0).bytes = some n ∧ n ≠ 0) →
      nicheTag .nullDescriptor (nicheField .nullDescriptor value) nullary full = constant 4 full := by
    rintro ⟨n, hn, hne⟩
    simp only [nicheTag, nicheField, isNull, hn, map_some]
    rw [decide_eq_false hne]
    rfl
  cases p with
  | string | utf8String | array =>
    cases hniche
    exact hlength h
  | function | once =>
    cases hniche
    exact hdescriptor h
  | reference target mutable =>
    simp only [nicheOf] at hniche
    split at hniche
    · rename_i hcond
      cases hniche
      rw [Bool.and_eq_true, isNone_iff_eq_none] at hcond
      obtain ⟨n, hn, hne⟩ := h hcond.1
      simp only [nicheTag, nicheField, isNull, hn, map_some]
      rw [decide_eq_false hne]
      rfl
    · cases hniche
  | _ => cases hniche

theorem nicheTag_nullary (M : Machine) (niche : Niche) (first second : Nat) :
    nicheTag niche (nicheField niche (nullary M niche)) first second = constant 4 first := by
  have hnull : isNull (pointer M 0) = some true := by
    rw [isNull, pointer, number_constant (Nat.pow_pos (by decide))]
    rfl
  cases niche with
  | negativeLength =>
    have hnegative : negative (constant 8 18446744073709551615) = some true := by
      rw [negative, number_constant (by decide)]
      rfl
    change select (negative (constant 8 18446744073709551615)) first second = _
    rw [hnegative]
    rfl
  | nullPointer | nullDescriptor =>
    change select (isNull (pointer M 0)) first second = _
    rw [hnull]
    rfl

theorem fits_nullary (h : NicheShape t niche) : Fits M t (nullary M niche) := by
  have hpointer : Fits M (.ptr : Llvm) (pointer M 0) := length_bytesOf _ _
  have hlength : Fits M (.int 64 : Llvm) (constant 8 18446744073709551615) := by
    change (bytesOf 8 18446744073709551615).length = _
    rw [length_bytesOf, sizeAlign_word]
  cases niche with
  | negativeLength =>
    obtain ⟨name, rfl⟩ := h
    exact ⟨hpointer, hlength, trivial⟩
  | nullPointer =>
    obtain rfl := h
    exact hpointer
  | nullDescriptor =>
    obtain ⟨name, rfl⟩ := h
    exact ⟨hpointer, hpointer, trivial⟩

theorem pair_of_fits {u : Llvm} (h : Fits M (.named name (.struct [t, u])) value) : ∃ a b, value = .agg [a, b] := by
  cases value with
  | scalar => exact h.elim
  | agg values =>
    rcases values with _ | ⟨a, _ | ⟨b, _ | ⟨c, rest⟩⟩⟩
    · exact h.elim
    · exact h.2.elim
    · exact ⟨a, b, rfl⟩
    · exact h.2.2.elim

theorem niche_tags (hrec : ¬ m.recursive (.union id args) = true)
    (hlayout : m.unionLayout depth (.union id args) = some (.niche niche p first second))
    (hty : m.ty depth (.union id args) = some t) (hshape : NicheShape t niche) {union : Val}
    (hfits : Fits M t union) (s : Frame) : (m.tagValue M depth (.union id args) union s).map Prod.fst =
        some (nicheTag niche (nicheField niche union) first second) ∧
      ((m.spill M depth (.union id args) union >>= m.loadTag M depth (.union id args)) s).map Prod.fst =
        some (nicheTag niche (nicheField niche union) first second) := by
  constructor
  · rw [tagValue]
    simp only [if_neg hrec, hlayout, emit_bind, emit_lift, bind_some]
    rfl
  · rw [emit_bind, spill_run hty, bind_some, loadTag]
    simp only [if_neg hrec, hlayout, emit_bind, emit_lift, bind_some]
    have hstored {field : Llvm} {value : Val} {address : Nat} (hvalue : Fits M field value)
        (hread : read (spilled M t union s).mem address (sizeAlign M field).1 = encode M field value) :
        decode M field (read (spilled M t union s).mem address (sizeAlign M field).1) = value := by
      have hdecode := loaded_stored hvalue []
      rw [append_nil] at hdecode
      rw [hread, hdecode]
    cases niche with
    | negativeLength =>
      obtain ⟨name, rfl⟩ := hshape
      obtain ⟨a, b, rfl⟩ := pair_of_fits hfits
      simp only [hty, emit_bind, emit_lift, bind_some, load, emit_pure]
      refine congrArg some (congrArg (nicheTag .negativeLength · first second) ?_)
      exact hstored hfits.2.1 (read_field 1 hfits rfl rfl hfits.2.1 s.mem s.next)
    | nullPointer =>
      obtain rfl := hshape
      simp only [emit_bind, bind_some, load, emit_pure]
      refine congrArg some (congrArg (nicheTag .nullPointer · first second) ?_)
      exact decode_stored hfits s.mem s.next
    | nullDescriptor =>
      obtain ⟨name, rfl⟩ := hshape
      obtain ⟨a, b, rfl⟩ := pair_of_fits hfits
      simp only [emit_bind, bind_some, load, emit_pure]
      refine congrArg some (congrArg (nicheTag .nullDescriptor · first second) ?_)
      have hread := read_field 0 hfits rfl rfl hfits.1 s.mem s.next
      rw [fieldOffset_zero, Nat.add_zero] at hread
      exact hstored hfits.1 hread

theorem optionCases_spec {cases : List (Option Ty)} {carried : Option Ty}
    (h : optionCases cases = some (first, second, p)) (hcase : cases[case]? = some carried) :
    (carried = none → case = first) ∧ ∀ q, carried = some q → case = second ∧ q = p := by
  unfold optionCases at h
  split at h <;> cases h <;> rcases case with _ | _ | case <;> cases hcase <;> simp

theorem reads_niche (hrec : ¬ m.recursive (.union id args) = true)
    (hlayout : m.unionLayout depth (.union id args) = some (.niche niche p first second))
    (hty : m.ty depth (.union id args) = some t) (ht : m.ty depth p = some t)
    (hcases : optionCases (m.types.unionPayloads id args) = some (first, second, p))
    (hniche : m.nicheOf p = some niche) (hcarries : m.Carries M depth id args case payload) (s : Frame) :
    ∃ union s', m.constructValue M depth (.union id args) case (m.operand depth payload) node drop clone s =
      some (union, s') ∧ m.Reads M depth (.union id args) case payload union s' := by
  have hshape := nicheShape_of hniche ht
  obtain ⟨hnullary, hfull⟩ := optionCases_spec hcases hcarries.1
  cases payload with
  | none =>
    have hfits := fits_nullary (M := M) hshape
    obtain ⟨htag, hloaded⟩ := niche_tags hrec hlayout hty hshape hfits s
    rw [nicheTag_nullary, ← hnullary rfl] at htag hloaded
    refine ⟨nullary M niche, s, ?_, htag, hloaded, (fun _ _ h => by cases h), fun u hu => ?_⟩
    · rw [constructValue]
      simp only [if_neg hrec, hlayout, emit_bind, emit_lift, bind_some]
      rfl
    · obtain rfl := Option.some.inj (hty.symm.trans hu)
      exact hfits
  | some payload =>
    obtain ⟨q, v⟩ := payload
    obtain ⟨hsecond, rfl⟩ := hfull q rfl
    obtain ⟨hpresent, hfits⟩ := hcarries.2 q v rfl
    obtain ⟨htag, hloaded⟩ := niche_tags hrec hlayout hty hshape (hfits t ht) s
    rw [nicheTag_present hniche hpresent, ← hsecond] at htag hloaded
    refine ⟨v, s, ?_, htag, hloaded, fun q' v' h => ?_, fun u hu => ?_⟩
    · rw [constructValue]
      simp only [if_neg hrec, hlayout, emit_bind, emit_lift, bind_some, operand, ht, map_some]
      rfl
    · cases h
      rw [payloadValue]
      simp only [if_neg hrec, hlayout, ht, emit_bind, emit_lift, bind_some]
      rfl
    · obtain rfl := Option.some.inj (hty.symm.trans hu)
      exact hfits t ht

/-! ### Nodes -/

theorem node_of (h : ∀ payload ∈ m.payloads (.union id args), Stored m payload)
    (hrec : m.recursive (.union id args) = true) (M : Machine) :
    ∃ depth, ∀ depth' ≥ depth, m.ty depth' (.union id args) = some .ptr ∧
      ∃ region, m.nodeType depth' (.union id args) = some (.struct [.ptr, .ptr, .ptr, .int 32, region]) ∧
        ∀ other, some other ∈ m.types.unionPayloads id args → ∃ t, m.ty depth' other = some t := by
  obtain ⟨depth, -, hlaid⟩ := payloads_laid h M 0
  refine ⟨depth + 1, fun depth' hdepth' => ?_⟩
  have hbase : (m.layouts depth).Le (m.layouts depth') := layouts_le (by omega)
  obtain ⟨layout, hlayout⟩ := workOutUnionLayout_of_laid hlaid
  have hlayout' : m.unionLayout depth' (.union id args) = some layout := workOutUnionLayout_le hbase hlayout
  have hty : m.llvmType (m.layouts depth) (.union id args) = some .ptr := by
    simp only [llvmType, if_pos hrec]
  have hpayloads : ∀ other, some other ∈ m.types.unionPayloads id args → ∃ t, m.ty depth' other = some t := by
    intro other hmem
    obtain ⟨t, -, -, ht, -⟩ := hlaid other hmem
    exact ⟨t, hbase.llvm ht⟩
  refine ⟨(layouts_le hdepth').llvm hty, ?_⟩
  have hregion : ∃ region, m.nodeRegion depth' (.union id args) = some region := by
    rw [nodeRegion, hlayout']
    cases layout with
    | enum => exact ⟨_, rfl⟩
    | common payload => exact hpayloads payload (workOutUnionLayout_spec hlayout).1
    | general unit units => exact ⟨_, rfl⟩
    | niche =>
      have hplain := (workOutUnionLayout_spec hlayout).2.2.2
      rw [hrec] at hplain
      cases hplain
  obtain ⟨region, hregion⟩ := hregion
  refine ⟨region, ?_, hpayloads⟩
  rw [nodeType, hregion]
  rfl

section

variable (hnode : m.nodeType depth (.union id args) = some (.struct [.ptr, .ptr, .ptr, .int 32, region]))

include hnode

theorem recursiveConstruct_run (hempty : m.emptyCase (.union id args) ≠ some case)
    (payload : Option (Val × Llvm)) (hfits : ∀ value t, payload = some (value, t) → Fits M t value)
    (node drop clone : Nat) (s : Frame) :
    ∃ s', m.recursiveConstruct M depth (.union id args) case payload node drop clone s = some (pointer M node, s') ∧
      s'.next = s.next ∧
      read s'.mem (node + fieldOffset M 0 [.ptr, .ptr, .ptr, .int 32, region] 3) 4 = bytesOf 4 case ∧
      ∀ value t, payload = some (value, t) →
        read s'.mem (node + fieldOffset M 0 [.ptr, .ptr, .ptr, .int 32, region] 4) (sizeAlign M t).1 =
          encode M t value := by
  have hbefore : fieldOffset M 0 [.ptr, .ptr, .ptr, .int 32, region] 3 + 4 ≤
      fieldOffset M 0 [.ptr, .ptr, .ptr, .int 32, region] 4 := by
    have hsize : sizeAlign M (.int 32 : Llvm) = (4, 4) := sizeAlign_int M (show 4 ∈ _ by decide)
    simp only [fieldOffset, hsize]
    exact le_nextMultiple _ _
  have htag (mem : Nat → Byte) (address : Nat) :
      read (write mem address (bytesOf 4 case)) address 4 = bytesOf 4 case := by
    have h := read_write_self mem address (bytesOf 4 case)
    rwa [length_bytesOf] at h
  rw [recursiveConstruct]
  simp only [if_neg hempty, hnode, emit_bind, emit_lift, bind_some]
  cases payload with
  | none => exact ⟨_, rfl, rfl, htag _ _, fun _ _ h => by cases h⟩
  | some payload =>
    obtain ⟨value, t⟩ := payload
    refine ⟨_, rfl, rfl, ?_, fun value' t' h => ?_⟩
    · refine Eq.trans (read_write_before _ _ ?_) (htag _ _)
      change node + fieldOffset M 0 [.ptr, .ptr, .ptr, .int 32, region] 3 + 4 ≤
        node + fieldOffset M 0 [.ptr, .ptr, .ptr, .int 32, region] 4
      omega
    · cases h
      rw [← length_encode (hfits value t rfl)]
      exact read_write_self _ _ _

theorem recursiveTag_run (hpos : 0 < node) (hnext : node < 256 ^ M.pointer)
    (hread : read s.mem (node + fieldOffset M 0 [.ptr, .ptr, .ptr, .int 32, region] 3) 4 = bytesOf 4 case) :
    m.recursiveTag M depth (.union id args) (pointer M node) s = some (constant 4 case, s) := by
  have hnumber : number (pointer M node).bytes = some node := number_constant hnext
  have hload : load M (.int 32) (getelementptr M (.struct [.ptr, .ptr, .ptr, .int 32, region]) node 3) s =
      some (constant 4 case, s) := by
    have hsize : (sizeAlign M (.int 32 : Llvm)).1 = 4 := by
      rw [sizeAlign_int M (show 4 ∈ _ by decide)]
    have hfits : Fits M (.int 32 : Llvm) (constant 4 case) := by
      change (bytesOf 4 case).length = _
      rw [length_bytesOf, hsize]
    have hdecode := loaded_stored hfits []
    rw [append_nil] at hdecode
    rw [load, getelementptr, structFields, hsize, hread]
    exact congrArg (fun v => some (v, s)) hdecode
  rw [recursiveTag]
  simp only [hnode, emit_bind, emit_lift, bind_some]
  cases m.emptyCase (.union id args) with
  | none =>
    simp only [address, hnumber, emit_bind, emit_lift, bind_some]
    exact hload
  | some empty =>
    have hnull : isNull (pointer M node) = some false := by
      rw [isNull, hnumber, map_some, decide_eq_false (Nat.ne_of_gt hpos)]
    simp only [hnull, address, hnumber, emit_bind, emit_lift, bind_some, Bool.false_eq_true, if_false]
    exact hload

end

theorem payload_of_emptyCase (h : m.emptyCase (.union id args) = some case)
    (hcarries : m.Carries M depth id args case payload) : payload = none := by
  rw [emptyCase] at h
  split at h
  · cases h
  · obtain ⟨hlt, hnone, -⟩ := findIdx?_eq_some_iff_getElem.1 h
    have hcase := hcarries.1
    rw [TypeContext.unionPayloads, getElem?_map, getElem?_eq_getElem hlt, map_some] at hcase
    have hpayload : ((m.types.union id).cases[case]).2 = none := isNone_iff_eq_none.1 hnone
    change some (Option.map _ ((m.types.union id).cases[case]).2) = _ at hcase
    rw [hpayload] at hcase
    cases payload with
    | none => rfl
    | some payload => cases hcase

theorem fits_pointer (M : Machine) (node : Nat) : Fits M (.ptr : Llvm) (pointer M node) := length_bytesOf _ _

theorem loadTag_node (hrec : m.recursive (.union id args) = true)
    (hty : m.ty depth (.union id args) = some .ptr) {result : Val}
    (htag : m.recursiveTag M depth (.union id args) (pointer M node) (spilled M .ptr (pointer M node) s) =
      some (result, spilled M .ptr (pointer M node) s)) :
    ((m.spill M depth (.union id args) (pointer M node) >>= m.loadTag M depth (.union id args)) s).map Prod.fst =
      some result := by
  have hload : load M .ptr s.next (spilled M .ptr (pointer M node) s) =
      some (pointer M node, spilled M .ptr (pointer M node) s) := by
    rw [load]
    exact congrArg (fun v => some (v, _)) (decode_stored (fits_pointer M node) s.mem s.next)
  rw [emit_bind, spill_run hty, bind_some, loadTag]
  simp only [if_pos hrec, emit_bind, hload, bind_some, htag]
  rfl

theorem reads_node (hrec : m.recursive (.union id args) = true) (hty : m.ty depth (.union id args) = some .ptr)
    (hbody : m.nodeType depth (.union id args) = some (.struct [.ptr, .ptr, .ptr, .int 32, region]))
    (hpayloads : ∀ other, some other ∈ m.types.unionPayloads id args → ∃ t, m.ty depth other = some t)
    (hcarries : m.Carries M depth id args case payload) (hpos : 0 < node) (hnext : node < 256 ^ M.pointer)
    (hbelow : node + (sizeAlign M (.struct [.ptr, .ptr, .ptr, .int 32, region] : Llvm)).1 ≤ s.next) :
    ∃ union s', m.constructValue M depth (.union id args) case (m.operand depth payload) node drop clone s =
      some (union, s') ∧ m.Reads M depth (.union id args) case payload union s' := by
  have htagged {union : Val} {s' : Frame}
      (h : m.recursiveTag M depth (.union id args) union s' = some (constant 4 case, s')) :
      (m.tagValue M depth (.union id args) union s').map Prod.fst = some (constant 4 case) := by
    rw [tagValue]
    simp only [if_pos hrec, h]
    rfl
  by_cases hempty : m.emptyCase (.union id args) = some case
  · -- The null pointer is the first nullary case.
    obtain rfl := payload_of_emptyCase hempty hcarries
    have hnull : isNull (pointer M 0) = some true := by
      rw [isNull, pointer, number_constant (Nat.pow_pos (by decide))]
      rfl
    have htag (s' : Frame) : m.recursiveTag M depth (.union id args) (pointer M 0) s' = some (constant 4 case, s') := by
      rw [recursiveTag]
      simp only [hbody, hempty, hnull, emit_bind, emit_lift, bind_some, if_true]
      rfl
    refine ⟨pointer M 0, s, ?_, htagged (htag s), loadTag_node hrec hty (htag _), (fun _ _ h => by cases h),
      fun u hu => ?_⟩
    · rw [constructValue]
      simp only [if_pos hrec, recursiveConstruct, if_pos hempty]
      rfl
    · obtain rfl := Option.some.inj (hty.symm.trans hu)
      exact fits_pointer M 0
  · have hoperand : ∀ value t, m.operand depth payload = some (value, t) → Fits M t value := by
      intro value t h
      cases payload with
      | none => cases h
      | some payload =>
        simp only [operand, bind_some, map_eq_some_iff] at h
        obtain ⟨u, hu, hpair⟩ := h
        cases hpair
        exact (hcarries.2 payload.1 payload.2 rfl).2 _ hu
    obtain ⟨s', hconstruct, hslots, htag, hpayload⟩ := recursiveConstruct_run hbody hempty _ hoperand node drop clone s
    have hend : node + fieldOffset M 0 [.ptr, .ptr, .ptr, .int 32, region] 3 + 4 ≤ s'.next := by
      have hle : fieldOffset M 0 [.ptr, .ptr, .ptr, .int 32, region] 3 + (sizeAlign M (.int 32 : Llvm)).1 ≤
          (sizeAlign M (.struct [.ptr, .ptr, .ptr, .int 32, region] : Llvm)).1 := fieldOffset_add_le rfl
      rw [sizeAlign_int M (show 4 ∈ _ by decide)] at hle
      rw [hslots]
      simp only at hle
      omega
    refine ⟨pointer M node, s', ?_, htagged (recursiveTag_run hbody hpos hnext htag),
      loadTag_node hrec hty (recursiveTag_run hbody hpos hnext ?_), fun q v h => ?_, fun u hu => ?_⟩
    · rw [constructValue]
      simp only [if_pos hrec, hconstruct]
    · exact (read_write_before _ _ hend).trans htag
    · subst h
      obtain ⟨t, ht⟩ := hpayloads q hcarries.mem
      have hfits := (hcarries.2 q v rfl).2 t ht
      have hread := hpayload v t (by simp only [operand, bind_some, ht, map_some])
      have hdecode := loaded_stored hfits []
      rw [append_nil] at hdecode
      rw [payloadValue]
      simp only [ht, if_pos hrec, hbody, address, pointer, number_constant hnext, emit_bind, emit_lift, bind_some,
        load, getelementptr, structFields, hread, hdecode]
      rfl
    · obtain rfl := Option.some.inj (hty.symm.trans hu)
      exact fits_pointer M node

/-- Where `tz.alloc` puts a node: in the address space, not at 0, below the slots to come. -/
def NodeFree (m : CheckedModule) (M : Machine) (depth : Nat) (ty : Ty) (node : Nat) (s : Frame) : Prop :=
  m.recursive ty = true → 0 < node ∧ node < 256 ^ M.pointer ∧
    ∀ body, m.nodeType depth ty = some body → node + (sizeAlign M body).1 ≤ s.next

theorem Carries.lt (h : m.Carries M depth id args case payload) : case < (m.types.union id).cases.length := by
  obtain ⟨hlt, -⟩ := List.getElem?_eq_some_iff.1 h.1
  rwa [TypeContext.unionPayloads, length_map] at hlt

theorem lt_tagWidth (hcases : (m.types.union id).cases.length ≤ 4294967296)
    (hcase : case < (m.types.union id).cases.length) : case < 256 ^ m.tagWidth (.union id args) := by
  rw [tagWidth]
  split
  · omega
  · exact lt_tagBytes hcase hcases

/-- A union value gives back its case and its payload, in every layout of its type and on every machine, and
the tag's width holds every case. A source, and with it the number of cases, ends long before 2^32 bytes. -/
theorem union_lossless (h : m.Supported (.union id args)) (hcases : (m.types.union id).cases.length ≤ 4294967296)
    (M : Machine) :
    (∀ case < (m.types.union id).cases.length, case < 256 ^ m.tagWidth (.union id args)) ∧
    ∃ depth, ∀ depth' ≥ depth, ∀ case payload node drop clone s, m.Carries M depth' id args case payload →
      m.NodeFree M depth' (.union id args) node s →
      ∃ union s', m.constructValue M depth' (.union id args) case (m.operand depth' payload) node drop clone s =
        some (union, s') ∧ m.Reads M depth' (.union id args) case payload union s' := by
  refine ⟨fun case hcase => lt_tagWidth hcases hcase, ?_⟩
  by_cases hrec : m.recursive (.union id args) = true
  · obtain ⟨depth, hdepth⟩ := node_of h.payloads hrec M
    refine ⟨depth, fun depth' hle case payload node drop clone s hcarries hfree => ?_⟩
    obtain ⟨hty, region, hbody, hpayloads⟩ := hdepth depth' hle
    obtain ⟨hpos, hnext, hbelow⟩ := hfree hrec
    exact reads_node hrec hty hbody hpayloads hcarries hpos hnext (hbelow _ hbody)
  · obtain ⟨depth, hdepth⟩ := shape_of h.payloads hrec M
    refine ⟨depth, fun depth' hle case payload node drop clone s hcarries _ => ?_⟩
    obtain ⟨layout, t, hlayout, hty, hshape⟩ := hdepth depth' hle
    have hcase : case < 256 ^ m.tagWidth (.union id args) := lt_tagWidth hcases hcarries.lt
    cases hshape with
    | enum hnone => exact reads_enum hrec hlayout hty hnone hcarries hcase s
    | common hpayloads => exact reads_common hrec hlayout hty hpayloads hcarries hcase s
    | general hpayloads => exact reads_general hrec hlayout hty hpayloads hcarries hcase s
    | niche hoption hniche ht => exact reads_niche hrec hlayout hty ht hoption hniche hcarries s

end Tagged

/-- `Scalar 7` of `union Lane4 = Four of f32x4 | Scalar of i32 | Absent4`. -/
theorem union_lossless_lane4 : ∃ depth union s',
    lane4.constructValue oldX86 depth (.union 0 []) 1 (lane4.operand depth (some (.i32, constant 4 7))) 0 0 0
        { mem := fun _ => none, next := 16 } = some (union, s') ∧
      lane4.Reads oldX86 depth (.union 0 []) 1 (some (.i32, constant 4 7)) union s' := by
  obtain ⟨-, depth, hdepth⟩ := union_lossless supported_lane4 (by decide) oldX86
  refine ⟨depth, hdepth depth (Nat.le_refl _) 1 _ 0 0 0 _ ⟨rfl, fun p value h => ?_⟩ fun hrec => by cases hrec⟩
  cases h
  refine ⟨trivial, fun t ht => ?_⟩
  cases depth with
  | zero => cases ht
  | succ depth =>
    cases ht
    change (bytesOf 4 7).length = _
    rw [length_bytesOf, sizeAlign_int oldX86 (show 4 ∈ _ by decide)]

end CheckedModule

end Tsuzuri.Layout
