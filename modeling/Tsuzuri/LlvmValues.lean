import Tsuzuri.DataLayout

/-!
# Values in memory

Values of LLVM's first-class types as trees with bytes at the leaves, and their images in memory.
-/

namespace DataLayout

open List

abbrev Byte := Option UInt8

/-- A value: the bytes of a scalar, or the fields or elements of an aggregate. -/
inductive Val where
  | scalar (bytes : List Byte)
  | agg (fields : List Val)
deriving Inhabited

namespace Val

/-- `extractvalue` -/
def field (index : Nat) : Val → Val
  | .agg fields => fields.getD index default
  | .scalar _ => default

/-- `insertvalue` -/
def setField (aggregate : Val) (index : Nat) (value : Val) : Val :=
  match aggregate with
  | .agg fields => .agg (fields.set index value)
  | .scalar bytes => .scalar bytes

def elements : Val → List Val
  | .agg fields => fields
  | .scalar _ => []

def bytes : Val → List Byte
  | .scalar bytes => bytes
  | .agg _ => []

end Val

def bytesOf : Nat → Nat → List Byte
  | 0, _ => []
  | count + 1, n => some (UInt8.ofNat n) :: bytesOf count (n / 256)

def number : List Byte → Option Nat
  | [] => some 0
  | byte :: bytes => do return (← byte).toNat + 256 * (← number bytes)

@[simp] theorem length_bytesOf (count n : Nat) : (bytesOf count n).length = count := by
  induction count generalizing n with
  | zero => rfl
  | succ count ih => rw [bytesOf, length_cons, ih]

theorem number_bytesOf {count n : Nat} (h : n < 256 ^ count) : number (bytesOf count n) = some n := by
  induction count generalizing n with
  | zero =>
    rw [Nat.pow_zero, Nat.lt_one_iff] at h
    rw [h]
    rfl
  | succ count ih =>
    have hdiv : n / 256 < 256 ^ count := by
      rw [Nat.pow_succ, Nat.mul_comm] at h
      exact Nat.div_lt_of_lt_mul h
    rw [bytesOf, number, ih hdiv]
    have hmod := Nat.div_add_mod n 256
    have hbyte : (UInt8.ofNat n).toNat = n % 256 := UInt8.toNat_ofNat'
    change some ((UInt8.ofNat n).toNat + 256 * (n / 256)) = some n
    rw [hbyte]
    congr 1
    omega

namespace LlvmType

variable {ν : Type} (m : Machine)

mutual

def Fits : LlvmType ν → Val → Prop
  | .array count element, .agg fields => fields.length = count ∧ ∀ field ∈ fields, Fits element field
  | .struct types, .agg fields => FitsAll types fields
  | .named _ body, value => Fits body value
  | t@(.int _), .scalar bytes | t@.float, .scalar bytes | t@.double, .scalar bytes | t@.ptr, .scalar bytes
  | t@(.vector ..), .scalar bytes => bytes.length = (sizeAlign m t).1
  | _, _ => False

def FitsAll : List (LlvmType ν) → List Val → Prop
  | [], [] => True
  | t :: types, value :: values => Fits t value ∧ FitsAll types values
  | _, _ => False

end

mutual

def encode : LlvmType ν → Val → List Byte
  | .array _ element, value => (value.elements.map (encode element)).flatten
  | .struct types, value =>
    let stop := sizeAlign m (.struct types)
    let image := encodeFields 0 types value.elements
    image ++ List.replicate (stop.1 - image.length) none
  | .named _ body, value => encode body value
  | .int _, value | .float, value | .double, value | .ptr, value | .vector .., value => value.bytes

/-- The images of the fields from byte `offset` on, each behind its padding. -/
def encodeFields (offset : Nat) : List (LlvmType ν) → List Val → List Byte
  | t :: types, value :: values =>
    let start := nextMultiple offset (sizeAlign m t).2
    List.replicate (start - offset) none ++ encode t value ++ encodeFields (start + (sizeAlign m t).1) types values
  | _, _ => []

end

mutual

def decode : LlvmType ν → List Byte → Val
  | .array count element, image =>
    .agg ((List.range count).map fun index => decode element (image.drop (index * (sizeAlign m element).1)))
  | .struct types, image => .agg (decodeFields 0 types image)
  | .named _ body, image => decode body image
  | t@(.int _), image | t@.float, image | t@.double, image | t@.ptr, image | t@(.vector ..), image =>
    .scalar (image.take (sizeAlign m t).1)

/-- The fields from byte `offset` on in the image of a structure. -/
def decodeFields (offset : Nat) : List (LlvmType ν) → List Byte → List Val
  | [], _ => []
  | t :: types, image =>
    let start := nextMultiple offset (sizeAlign m t).2
    decode t (image.drop start) :: decodeFields (start + (sizeAlign m t).1) types image

end

variable {m}

theorem le_foldl_place (fields : List (Nat × Nat)) (a : Nat × Nat) : a.1 ≤ (fields.foldl place a).1 := by
  induction fields generalizing a with
  | nil => exact Nat.le_refl _
  | cons field fields ih =>
    have hfirst := le_nextMultiple a.1 field.2
    have hrest := ih (place a field)
    simp only [place] at hrest
    rw [foldl_cons]
    simp only [place]
    omega

mutual

theorem length_encode : ∀ {t : LlvmType ν} {value : Val}, Fits m t value → (encode m t value).length = (sizeAlign m t).1
  | .array count element, .agg fields, h => by
    obtain ⟨hlength, hall⟩ := h
    rw [encode, Val.elements, length_flatten, map_map]
    have hmap : fields.map (List.length ∘ encode m element) = fields.map fun _ => (sizeAlign m element).1 :=
      map_congr_left fun field hmem => length_encode (hall field hmem)
    rw [hmap, map_const', sum_replicate_nat, hlength, sizeAlign, Nat.mul_comm]
  | .struct types, .agg fields, h => by
    have hfields : 0 + (encodeFields m 0 types fields).length = ((types.map (sizeAlign m)).foldl place (0, 1)).1 :=
      length_encodeFields 0 1 h
    have hle : (encodeFields m 0 types fields).length ≤ (sizeAlign m (.struct types)).1 := by
      rw [sizeAlign_struct, aggregate]
      rw [Nat.zero_add] at hfields
      rw [hfields]
      exact le_nextMultiple _ _
    rw [encode, Val.elements, length_append, length_replicate]
    omega
  | .named _ body, value, h => by
    rw [encode, sizeAlign]
    exact length_encode (t := body) h
  | .int _, .scalar bytes, h => h
  | .float, .scalar bytes, h => h
  | .double, .scalar bytes, h => h
  | .ptr, .scalar bytes, h => h
  | .vector .., .scalar bytes, h => h

theorem length_encodeFields : ∀ {types : List (LlvmType ν)} {values : List Val} (offset a : Nat),
    FitsAll m types values → offset + (encodeFields m offset types values).length =
      ((types.map (sizeAlign m)).foldl place (offset, a)).1
  | [], [], offset, a, _ => rfl
  | t :: types, value :: values, offset, a, h => by
    have hfield := length_encode h.1
    have hrest := length_encodeFields (nextMultiple offset (sizeAlign m t).2 + (sizeAlign m t).1)
      (max a (sizeAlign m t).2) h.2
    have hle := le_nextMultiple offset (sizeAlign m t).2
    rw [map_cons, foldl_cons, place, ← hrest, encodeFields]
    simp only [length_append, length_replicate]
    omega

end

/-! ## What is stored is loaded -/

theorem decode_elements {element : LlvmType ν} {size : Nat} {fields : List Val}
    (hlength : ∀ field ∈ fields, (encode m element field).length = size)
    (hdecode : ∀ field ∈ fields, ∀ rest, decode m element (encode m element field ++ rest) = field) (rest : List Byte) :
    (List.range fields.length).map (fun index =>
      decode m element (((fields.map (encode m element)).flatten ++ rest).drop (index * size))) = fields := by
  induction fields with
  | nil => rfl
  | cons field fields ih =>
    have hfirst := hlength field mem_cons_self
    rw [length_cons, range_succ_eq_map, map_cons, map_map, map_cons, flatten_cons,
      append_assoc, Nat.zero_mul, drop_zero, hdecode field mem_cons_self]
    congr 1
    refine Eq.trans (map_congr_left fun index _ => ?_) (ih (fun v hv => hlength v (mem_cons_of_mem _ hv))
      fun v hv => hdecode v (mem_cons_of_mem _ hv))
    have hskip : (index + 1) * size = size + index * size := by
      rw [Nat.add_mul, Nat.one_mul, Nat.add_comm]
    simp only [Function.comp_apply, Nat.succ_eq_add_one, hskip]
    rw [← drop_drop, drop_left' hfirst]

mutual

theorem loaded_stored : ∀ {t : LlvmType ν} {value : Val}, Fits m t value → ∀ rest : List Byte,
    decode m t (encode m t value ++ rest) = value
  | .array count element, .agg fields, h, rest => by
    obtain ⟨rfl, hall⟩ := h
    rw [decode, encode, Val.elements]
    exact congrArg Val.agg (decode_elements (fun field hmem => length_encode (hall field hmem))
      (fun field hmem => loaded_stored (hall field hmem)) rest)
  | .struct types, .agg fields, h, rest => by
    rw [decode, encode, Val.elements, append_assoc]
    exact congrArg Val.agg (decodeFields_encodeFields h [] _ rfl)
  | .named _ body, value, h, rest => by
    rw [encode, decode]
    exact loaded_stored (t := body) h rest
  | .int _, .scalar bytes, h, rest => congrArg Val.scalar (take_left' h)
  | .float, .scalar bytes, h, rest => congrArg Val.scalar (take_left' h)
  | .double, .scalar bytes, h, rest => congrArg Val.scalar (take_left' h)
  | .ptr, .scalar bytes, h, rest => congrArg Val.scalar (take_left' h)
  | .vector .., .scalar bytes, h, rest => congrArg Val.scalar (take_left' h)

theorem decodeFields_encodeFields : ∀ {types : List (LlvmType ν)} {values : List Val}, FitsAll m types values →
    ∀ (before rest : List Byte) {offset : Nat}, before.length = offset →
    decodeFields m offset types (before ++ (encodeFields m offset types values ++ rest)) = values
  | [], [], _, before, rest, _, _ => rfl
  | t :: types, value :: values, h, before, rest, offset, hlength => by
    have hle := le_nextMultiple offset (sizeAlign m t).2
    have hfield := length_encode h.1
    have hpadded : (before ++ List.replicate (nextMultiple offset (sizeAlign m t).2 - offset) none).length =
        nextMultiple offset (sizeAlign m t).2 := by
      rw [length_append, length_replicate]
      omega
    have hstored : (before ++ List.replicate (nextMultiple offset (sizeAlign m t).2 - offset) none ++
        encode m t value).length = nextMultiple offset (sizeAlign m t).2 + (sizeAlign m t).1 := by
      rw [length_append, hpadded, hfield]
    rw [decodeFields, encodeFields]
    congr 1
    · rw [show before ++ (List.replicate (nextMultiple offset (sizeAlign m t).2 - offset) none ++ encode m t value ++
          encodeFields m (nextMultiple offset (sizeAlign m t).2 + (sizeAlign m t).1) types values ++ rest) =
          (before ++ List.replicate (nextMultiple offset (sizeAlign m t).2 - offset) none) ++ (encode m t value ++
          (encodeFields m (nextMultiple offset (sizeAlign m t).2 + (sizeAlign m t).1) types values ++ rest)) by
          simp only [append_assoc], drop_left' hpadded]
      exact loaded_stored h.1 _
    · have := decodeFields_encodeFields h.2 _ rest hstored
      simpa only [append_assoc] using this

end

mutual

theorem fits_decode : ∀ (t : LlvmType ν) {image : List Byte}, (sizeAlign m t).1 ≤ image.length →
    Fits m t (decode m t image)
  | .array count element, image, h => by
    rw [decode]
    refine ⟨by rw [length_map, length_range], fun field hmem => ?_⟩
    obtain ⟨index, hindex, rfl⟩ := mem_map.1 hmem
    refine fits_decode element ?_
    have hlt := Nat.mul_le_mul_left (sizeAlign m element).1 (mem_range.1 hindex)
    rw [Nat.succ_eq_add_one, Nat.mul_add, Nat.mul_one, Nat.mul_comm] at hlt
    rw [sizeAlign] at h
    rw [length_drop]
    omega
  | .struct types, image, h => by
    rw [decode]
    refine fitsAll_decodeFields types (a := 1) (Nat.le_trans ?_ h)
    rw [sizeAlign_struct]
    exact le_nextMultiple _ _
  | .named _ body, image, h => by
    rw [sizeAlign] at h
    rw [decode]
    exact fits_decode body h
  | .int _, image, h => length_take_of_le h
  | .float, image, h => length_take_of_le h
  | .double, image, h => length_take_of_le h
  | .ptr, image, h => length_take_of_le h
  | .vector .., image, h => length_take_of_le h

theorem fitsAll_decodeFields : ∀ (types : List (LlvmType ν)) {image : List Byte} {offset a : Nat},
    ((types.map (sizeAlign m)).foldl place (offset, a)).1 ≤ image.length →
    FitsAll m types (decodeFields m offset types image)
  | [], _, _, _, _ => trivial
  | t :: types, image, offset, a, h => by
    rw [decodeFields]
    rw [map_cons, foldl_cons, place] at h
    refine ⟨fits_decode t ?_, fitsAll_decodeFields types h⟩
    have hle := le_foldl_place (types.map (sizeAlign m)) (nextMultiple offset (sizeAlign m t).2 + (sizeAlign m t).1,
      max a (sizeAlign m t).2)
    rw [length_drop]
    simp only at h hle
    omega

end

/-! ## Fields -/

variable (m)

/-- The byte at which a field of a structure starts, with the fields before it from `offset` on. -/
def fieldOffset (offset : Nat) : List (LlvmType ν) → Nat → Nat
  | [], _ => offset
  | t :: _, 0 => nextMultiple offset (sizeAlign m t).2
  | t :: types, index + 1 => fieldOffset (nextMultiple offset (sizeAlign m t).2 + (sizeAlign m t).1) types index

variable {m}

theorem le_fieldOffset (types : List (LlvmType ν)) (index offset : Nat) :
    offset ≤ fieldOffset m offset types index := by
  induction types generalizing index offset with
  | nil => simp only [fieldOffset, Nat.le_refl]
  | cons t types ih =>
    have hle := le_nextMultiple offset (sizeAlign m t).2
    cases index with
    | zero => exact hle
    | succ index =>
      have hrest := ih index (nextMultiple offset (sizeAlign m t).2 + (sizeAlign m t).1)
      simp only [fieldOffset]
      omega

theorem fieldOffset_add_le {types : List (LlvmType ν)} {index : Nat} {t : LlvmType ν} (h : types[index]? = some t) :
    fieldOffset m 0 types index + (sizeAlign m t).1 ≤ (sizeAlign m (.struct types)).1 := by
  have hfold : ∀ (types : List (LlvmType ν)) (index offset a : Nat), types[index]? = some t →
      fieldOffset m offset types index + (sizeAlign m t).1 ≤ ((types.map (sizeAlign m)).foldl place (offset, a)).1 := by
    intro types
    induction types with
    | nil =>
      intro index offset a h
      cases h
    | cons u types ih =>
      intro index offset a h
      rw [map_cons, foldl_cons]
      cases index with
      | zero =>
        obtain rfl := Option.some.inj h
        exact le_foldl_place (types.map (sizeAlign m)) (place (offset, a) (sizeAlign m u))
      | succ index => exact ih index _ _ h
  rw [sizeAlign_struct]
  exact Nat.le_trans (hfold types index 0 1 h) (le_nextMultiple _ _)

theorem encodeFields_field : ∀ {types : List (LlvmType ν)} {values : List Val} (offset : Nat) {index : Nat}
    {t : LlvmType ν} {value : Val}, FitsAll m types values → types[index]? = some t → values[index]? = some value →
    ∃ before rest, encodeFields m offset types values = before ++ (encode m t value ++ rest) ∧
      offset + before.length = fieldOffset m offset types index
  | t :: types, value :: values, offset, 0, u, w, h, ht, hvalue => by
    cases ht
    cases hvalue
    have hle := le_nextMultiple offset (sizeAlign m t).2
    refine ⟨_, _, by rw [encodeFields, append_assoc], ?_⟩
    rw [length_replicate, fieldOffset]
    omega
  | t :: types, value :: values, offset, index + 1, u, w, h, ht, hvalue => by
    have hfield := length_encode h.1
    have hle := le_nextMultiple offset (sizeAlign m t).2
    obtain ⟨before, rest, hrest, hlength⟩ :=
      encodeFields_field (nextMultiple offset (sizeAlign m t).2 + (sizeAlign m t).1) h.2 ht hvalue
    refine ⟨List.replicate (nextMultiple offset (sizeAlign m t).2 - offset) none ++ encode m t value ++ before, rest,
      by rw [encodeFields, hrest, append_assoc _ before], ?_⟩
    simp only [length_append, length_replicate, fieldOffset]
    omega

theorem encode_decode_ints (bits count : Nat) (image : List Byte) :
    encode m (.array count (.int bits) : LlvmType ν) (decode m (.array count (.int bits) : LlvmType ν) image) =
      image.take ((sizeAlign m (.int bits : LlvmType ν)).1 * count) := by
  rw [decode, encode, Val.elements, map_map]
  generalize hsize : (sizeAlign m (.int bits : LlvmType ν)).1 = size
  induction count with
  | zero => rfl
  | succ count ih =>
    have hlast : encode m (.int bits : LlvmType ν) (decode m (.int bits : LlvmType ν) (image.drop (count * size))) =
        (image.drop (size * count)).take size := by
      rw [decode, encode, Val.bytes, hsize, Nat.mul_comm]
    rw [range_succ, map_append, flatten_append, ih, map_singleton, flatten_singleton,
      Function.comp_apply, hlast, ← take_add, Nat.mul_succ]

end LlvmType

def write (mem : Nat → Byte) (address : Nat) (image : List Byte) : Nat → Byte := fun i =>
  if address ≤ i then image.getD (i - address) (mem i) else mem i

def read (mem : Nat → Byte) (address count : Nat) : List Byte := (List.range count).map fun i => mem (address + i)

variable (mem : Nat → Byte)

@[simp] theorem length_read (address count : Nat) : (read mem address count).length = count := by
  rw [read, length_map, length_range]

theorem read_write (address skip : Nat) {image : List Byte} {count : Nat} (h : skip + count ≤ image.length) :
    read (write mem address image) (address + skip) count = (image.drop skip).take count := by
  refine ext_getElem? fun i => ?_
  by_cases hi : i < count
  · have hsub : address + skip + i - address = skip + i := by omega
    have hlt : skip + i < image.length := by omega
    rw [read, getElem?_map, getElem?_range hi, Option.map_some, write, if_pos (by omega), hsub,
      getElem?_take_of_lt hi, getElem?_drop, getElem?_eq_getElem hlt,
      getD_eq_getElem?_getD, getElem?_eq_getElem hlt, Option.getD_some]
  · rw [getElem?_eq_none (by rw [length_read]; omega), getElem?_eq_none (by rw [length_take, length_drop]; omega)]

theorem read_write_self (address : Nat) (image : List Byte) :
    read (write mem address image) address image.length = image := by
  have h : read (write mem address image) (address + 0) image.length = (image.drop 0).take image.length :=
    read_write mem address 0 (by omega)
  rw [Nat.add_zero] at h
  rw [h, drop_zero, take_length]

theorem read_write_before {address address' : Nat} (image : List Byte) {count : Nat} (h : address' + count ≤ address) :
    read (write mem address image) address' count = read mem address' count := by
  refine map_congr_left fun i hi => ?_
  rw [write, if_neg]
  have := mem_range.1 hi
  omega

theorem read_split (address count count' : Nat) :
    read mem address (count + count') = read mem address count ++ read mem (address + count) count' := by
  refine ext_getElem? fun i => ?_
  by_cases hi : i < count
  · rw [getElem?_append_left (by rwa [length_read]), read, read, getElem?_map, getElem?_map,
      getElem?_range hi, getElem?_range (by omega)]
  · rw [getElem?_append_right (by rw [length_read]; omega), length_read, read, read, getElem?_map, getElem?_map]
    by_cases hi' : i < count + count'
    · rw [getElem?_range hi', getElem?_range (by omega), Option.map_some, Option.map_some]
      congr 2
      omega
    · rw [getElem?_eq_none (by rw [length_range]; omega),
        getElem?_eq_none (by rw [length_range]; omega), Option.map_none, Option.map_none]

end DataLayout
