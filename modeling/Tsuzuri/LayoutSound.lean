import Tsuzuri.Layout
import Mathlib.Data.List.ReduceOption

/-!
# Layout bounds are sound

More depth only adds answers (`layouts_le`).
-/

namespace Tsuzuri.Layout

open DataLayout LlvmType List

/-! ## More depth -/

/-- What is known in `a` is known in `b`. -/
structure Layouts.Le (a b : Layouts) : Prop where
  bound : ∀ {ty lower x}, a.bound ty lower = some x → b.bound ty lower = some x
  llvm : ∀ {ty t}, a.llvm ty = some t → b.llvm ty = some t

theorem mapM_le {α β : Type} {f g : α → Option β} (h : ∀ a b, f a = some b → g a = some b) :
    ∀ {as : List α} {bs : List β}, as.mapM f = some bs → as.mapM g = some bs
  | [], bs, hmap => hmap
  | a :: as, bs, hmap => by
    simp only [mapM_cons, Option.bind_eq_bind, Option.bind_eq_some_iff, Option.pure_def] at hmap ⊢
    obtain ⟨b, hb, bs', hbs, hcons⟩ := hmap
    exact ⟨b, h a b hb, bs', mapM_le h hbs, hcons⟩

namespace CheckedModule

variable {m : CheckedModule} {a b : Layouts}
variable {id n unit units : Nat} {args tys : List Ty} {layout : UnionLayout} {ty : Ty}
  {x : Nat × Nat} {t : Llvm} {M : Machine}

theorem recordSlots_le (h : a.Le b) {slots : Option (List Nat)}
    (hslots : m.recordSlots a id args = some slots) : m.recordSlots b id args = some slots := by
  unfold recordSlots at hslots ⊢
  simp only at hslots ⊢
  split at hslots
  · rwa [if_pos ‹_›]
  · rw [if_neg ‹_›]
    simp only [Option.bind_eq_bind, Option.bind_eq_some_iff] at hslots ⊢
    obtain ⟨fields, hfields, hplaced⟩ := hslots
    exact ⟨fields, mapM_le (fun _ _ => h.bound) hfields, hplaced⟩

theorem physicalFields_le (h : a.Le b) {fields : List Ty}
    (hfields : m.physicalFields a id args = some fields) : m.physicalFields b id args = some fields := by
  unfold physicalFields at hfields ⊢
  simp only [Option.bind_eq_bind, Option.bind_eq_some_iff] at hfields ⊢
  obtain ⟨slots, hslots, hrest⟩ := hfields
  exact ⟨slots, recordSlots_le h hslots, hrest⟩

theorem workOutUnionLayout_le (h : a.Le b) (hlayout : m.workOutUnionLayout a id args = some layout) :
    m.workOutUnionLayout b id args = some layout := by
  unfold workOutUnionLayout at hlayout ⊢
  simp only at hlayout ⊢
  split at hlayout
  · exact hlayout
  · split at hlayout
    · exact hlayout
    · simp only [Option.bind_eq_bind, Option.bind_eq_some_iff] at hlayout ⊢
      obtain ⟨llvm, hllvm, types, htypes, hrest⟩ := hlayout
      refine ⟨llvm, h.llvm hllvm, types, mapM_le (fun _ _ => h.llvm) htypes, ?_⟩
      split at hrest
      · rwa [if_pos ‹_›]
      · rw [if_neg ‹_›]
        simp only [Option.bind_eq_some_iff] at hrest ⊢
        obtain ⟨layouts, hlayouts, hunits⟩ := hrest
        exact ⟨layouts, mapM_le (fun _ _ => h.bound) hlayouts, hunits⟩

theorem layoutBound_le (h : a.Le b) {lower : Bool} (hx : m.layoutBound a ty lower = some x) :
    m.layoutBound b ty lower = some x := by
  cases ty with
  | fixedArray element length =>
    simp only [layoutBound, Option.bind_eq_bind, Option.bind_eq_some_iff] at hx ⊢
    obtain ⟨y, hy, hrest⟩ := hx
    exact ⟨y, h.bound hy, hrest⟩
  | tuple elements =>
    simp only [layoutBound, Option.bind_eq_bind, Option.bind_eq_some_iff] at hx ⊢
    obtain ⟨bounds, hbounds, hrest⟩ := hx
    exact ⟨bounds, mapM_le (fun _ _ => h.bound) hbounds, hrest⟩
  | record id args =>
    simp only [layoutBound, Option.bind_eq_bind, Option.bind_eq_some_iff] at hx ⊢
    obtain ⟨fields, hfields, bounds, hbounds, hrest⟩ := hx
    exact ⟨fields, physicalFields_le h hfields, bounds, mapM_le (fun _ _ => h.bound) hbounds, hrest⟩
  | union id args =>
    simp only [layoutBound] at hx ⊢
    split at hx
    · rwa [if_pos ‹_›]
    · rw [if_neg ‹_›]
      simp only [Option.bind_eq_bind, Option.bind_eq_some_iff] at hx ⊢
      obtain ⟨layout, hlayout, hrest⟩ := hx
      refine ⟨layout, workOutUnionLayout_le h hlayout, ?_⟩
      cases layout with
      | enum | general => exact hrest
      | common payload =>
        simp only [Option.bind_eq_some_iff] at hrest ⊢
        obtain ⟨y, hy, hrest⟩ := hrest
        exact ⟨y, h.bound hy, hrest⟩
      | niche niche payload => exact h.bound hrest
  | _ => exact hx

theorem llvmType_le (h : a.Le b) (ht : m.llvmType a ty = some t) : m.llvmType b ty = some t := by
  cases ty with
  | simd vector =>
    simp only [llvmType, Option.bind_eq_bind, Option.bind_eq_some_iff] at ht ⊢
    obtain ⟨element, helement, hrest⟩ := ht
    exact ⟨element, h.llvm helement, hrest⟩
  | fixedArray element length =>
    simp only [llvmType, Option.bind_eq_bind, Option.bind_eq_some_iff] at ht ⊢
    obtain ⟨count, hcount, u, hu, hrest⟩ := ht
    exact ⟨count, hcount, u, h.llvm hu, hrest⟩
  | tuple elements =>
    simp only [llvmType, Option.bind_eq_bind, Option.bind_eq_some_iff] at ht ⊢
    obtain ⟨types, htypes, hrest⟩ := ht
    exact ⟨types, mapM_le (fun _ _ => h.llvm) htypes, hrest⟩
  | record id args =>
    simp only [llvmType, Option.bind_eq_bind, Option.bind_eq_some_iff] at ht ⊢
    obtain ⟨fields, hfields, types, htypes, hrest⟩ := ht
    exact ⟨fields, physicalFields_le h hfields, types, mapM_le (fun _ _ => h.llvm) htypes, hrest⟩
  | union id args =>
    simp only [llvmType] at ht ⊢
    split at ht
    · rwa [if_pos ‹_›]
    · rw [if_neg ‹_›]
      simp only [Option.bind_eq_bind, Option.bind_eq_some_iff] at ht ⊢
      obtain ⟨layout, hlayout, hrest⟩ := ht
      refine ⟨layout, workOutUnionLayout_le h hlayout, ?_⟩
      cases layout with
      | enum | general => exact hrest
      | common payload =>
        simp only [Option.bind_eq_some_iff] at hrest ⊢
        obtain ⟨u, hu, hrest⟩ := hrest
        exact ⟨u, h.llvm hu, hrest⟩
      | niche niche payload => exact h.llvm hrest
  | _ => exact ht

theorem layouts_succ (depth : Nat) : (m.layouts depth).Le (m.layouts (depth + 1)) := by
  induction depth with
  | zero =>
    refine ⟨?_, ?_⟩
    · intro ty lower x hx
      cases hx
    · intro ty t ht
      cases ht
  | succ depth ih => exact ⟨layoutBound_le ih, llvmType_le ih⟩

theorem layouts_le {depth depth' : Nat} (h : depth ≤ depth') : (m.layouts depth).Le (m.layouts depth') := by
  induction h with
  | refl => exact ⟨id, id⟩
  | step _ ih => exact ⟨fun hx => (layouts_succ _).bound (ih.bound hx), fun ht => (layouts_succ _).llvm (ih.llvm ht)⟩

/-! ## Types with a layout -/

def Plain : Ty → Prop
  | .integer bits _ => bits ∈ [8, 16, 32, 64, 128]
  | .binary bits => bits ∈ [16, 32, 64, 128]
  | .decimal bits => bits ∈ [32, 64, 128]
  | .simd lane => lane.bits ∈ [8, 16, 32, 64] ∧ lane.width ∈ [128, 256] ∧ (lane.kind = .float → 32 ≤ lane.bits)
  | .bool | .unit | .char | .utf8Char | .string | .utf8String | .array _ | .list _ | .vec _ | .function ..
  | .once _ | .dyn _ | .reference .. | .handle _ | .shared .. => True
  | _ => False

inductive Stored (m : CheckedModule) : Ty → Prop
  | plain {ty : Ty} (h : Plain ty) : Stored m ty
  | fixedArray {element : Ty} (count : Nat) (h : Stored m element) : Stored m (.fixedArray element (.length count))
  | tuple {elements : List Ty} (h : ∀ element ∈ elements, Stored m element) : Stored m (.tuple elements)
  | record {id : Nat} {args : List Ty} (h : ∀ field ∈ m.types.recordFields id args, Stored m field) :
      Stored m (.record id args)
  | node {id : Nat} {args : List Ty} (h : m.recursive (.union id args)) : Stored m (.union id args)
  | union {id : Nat} {args : List Ty} (h : ∀ payload, some payload ∈ m.types.unionPayloads id args → Stored m payload) :
      Stored m (.union id args)

def LaidAt (known : Layouts) (M : Machine) (ty : Ty) : Prop :=
  ∃ t lower upper, known.llvm ty = some t ∧ known.bound ty true = some lower ∧ known.bound ty false = some upper ∧
    Below lower (sizeAlign M t) ∧ Below (sizeAlign M t) upper

theorem LaidAt.mono (h : LaidAt a M ty) (hle : a.Le b) : LaidAt b M ty := by
  obtain ⟨t, lower, upper, ht, hlower, hupper, hbounds⟩ := h
  exact ⟨t, lower, upper, hle.llvm ht, hle.bound hlower, hle.bound hupper, hbounds⟩

theorem pow2 (h : n ∈ [1, 2, 4, 8, 16, 32]) : n.isPowerOfTwo := by
  simp only [mem_cons, not_mem_nil, or_false] at h
  rcases h with rfl | rfl | rfl | rfl | rfl | rfl
  · exact ⟨0, rfl⟩
  · exact ⟨1, rfl⟩
  · exact ⟨2, rfl⟩
  · exact ⟨3, rfl⟩
  · exact ⟨4, rfl⟩
  · exact ⟨5, rfl⟩

theorem below_of {y : Nat × Nat} (hsize : x.1 ≤ y.1) (halign : x.2 ≤ y.2) (hx : x.2 ∈ [1, 2, 4, 8, 16, 32])
    (hy : y.2 ∈ [1, 2, 4, 8, 16, 32]) : Below x y :=
  ⟨hsize, halign, pow2 hx, pow2 hy⟩

theorem Below.pair {a b c : Nat × Nat} (h : a.1 ≤ b.1 ∧ b.1 ≤ c.1) (h' : a.2 ≤ b.2 ∧ b.2 ≤ c.2)
    (hall : a.2 ∈ [1, 2, 4, 8, 16, 32] ∧ b.2 ∈ [1, 2, 4, 8, 16, 32] ∧ c.2 ∈ [1, 2, 4, 8, 16, 32]) :
    Below a b ∧ Below b c :=
  ⟨below_of h.1 h'.1 hall.1 hall.2.1, below_of h.2 h'.2 hall.2.1 hall.2.2⟩

section

variable (M : Machine)

theorem bounds_int {bits : Nat} (h : bits ∈ [8, 16, 32, 64, 128]) :
    Below ((bits + 7) / 8, min ((bits + 7) / 8) 8) (sizeAlign M (.int bits : Llvm)) ∧
      Below (sizeAlign M (.int bits : Llvm)) ((bits + 7) / 8, (bits + 7) / 8) := by
  simp only [mem_cons, not_mem_nil, or_false] at h
  rcases M.wide_eq with hw | hw <;> rcases h with rfl | rfl | rfl | rfl | rfl <;>
    simp only [sizeAlign, intAlign, hw] <;> exact Below.pair (by decide) (by decide) (by decide)

theorem bounds_vector {lane : SimdType} (h : Plain (.simd lane)) : ∃ t, m.llvmType a (vectorElement lane) = some t ∧
    Below (vectorBytes lane, min (vectorBytes lane) 8) (sizeAlign M (.vector (lanes lane) t)) ∧
      Below (sizeAlign M (.vector (lanes lane) t)) (vectorBytes lane, vectorBytes lane) := by
  obtain ⟨bits, kind, width⟩ := lane
  obtain ⟨hbits, hwidth, hfloat⟩ := h
  simp only [mem_cons, not_mem_nil, or_false] at hbits hwidth
  rcases hbits with rfl | rfl | rfl | rfl <;> rcases hwidth with rfl | rfl <;> cases kind <;>
    first
    | exact absurd (hfloat rfl) (by decide)
    | refine ⟨_, rfl, ?_⟩
      simp only [sizeAlign, scalarBits]
      exact Below.pair (by decide) (by decide) (by decide)

theorem bounds_pointer : Below (4, 4) (sizeAlign M (.ptr : Llvm)) ∧ Below (sizeAlign M (.ptr : Llvm)) (8, 8) := by
  rcases M.pointer_eq with hp | hp <;> simp only [sizeAlign, hp] <;>
    exact Below.pair (by decide) (by decide) (by decide)

theorem bounds_pointers : Below (8, 4) (sizeAlign M (.struct [.ptr, .ptr] : Llvm)) ∧
    Below (sizeAlign M (.struct [.ptr, .ptr] : Llvm)) (16, 8) := by
  rcases M.pointer_eq with hp | hp <;> simp only [sizeAlign_struct, map_cons, map_nil, sizeAlign_ptr, hp] <;>
    exact Below.pair (by decide) (by decide) (by decide)

theorem sizeAlign_word : sizeAlign M (.int 64 : Llvm) = (8, 8) :=
  sizeAlign_int M (show 8 ∈ [1, 2, 4, 8] by decide)

theorem bounds_sized : Below (16, 8) (sizeAlign M (.struct [.ptr, .int 64] : Llvm)) ∧
    Below (sizeAlign M (.struct [.ptr, .int 64] : Llvm)) (16, 8) := by
  rcases M.pointer_eq with hp | hp <;>
    simp only [sizeAlign_struct, map_cons, map_nil, sizeAlign_ptr, sizeAlign_word, hp] <;>
    exact Below.pair (by decide) (by decide) (by decide)

theorem bounds_vec : Below (24, 8) (sizeAlign M (.struct [.ptr, .int 64, .int 64] : Llvm)) ∧
    Below (sizeAlign M (.struct [.ptr, .int 64, .int 64] : Llvm)) (24, 8) := by
  rcases M.pointer_eq with hp | hp <;>
    simp only [sizeAlign_struct, map_cons, map_nil, sizeAlign_ptr, sizeAlign_word, hp] <;>
    exact Below.pair (by decide) (by decide) (by decide)

theorem bounds_same (ht : sizeAlign M t = (n, n)) (hn : n ∈ [1, 2, 4, 8, 16, 32]) :
    Below (n, n) (sizeAlign M t) ∧ Below (sizeAlign M t) (n, n) := by
  rw [ht]
  exact ⟨.refl (pow2 hn), .refl (pow2 hn)⟩

theorem laid_plain (h : Plain ty) : LaidAt (m.layouts 2) M ty := by
  cases ty with
  | integer bits => exact ⟨_, _, _, rfl, rfl, rfl, bounds_int M h⟩
  | decimal bits =>
    refine ⟨_, _, _, rfl, rfl, rfl, bounds_int M ?_⟩
    revert h
    simp only [Plain, mem_cons, not_mem_nil, or_false]
    omega
  | binary bits =>
    simp only [Plain, mem_cons, not_mem_nil, or_false] at h
    rcases h with rfl | rfl | rfl | rfl
    · exact ⟨_, _, _, rfl, rfl, rfl, bounds_int M (by decide)⟩
    · exact ⟨_, _, _, rfl, rfl, rfl, bounds_same M rfl (by decide)⟩
    · exact ⟨_, _, _, rfl, rfl, rfl, bounds_same M rfl (by decide)⟩
    · exact ⟨_, _, _, rfl, rfl, rfl, bounds_int M (by decide)⟩
  | simd lane =>
    obtain ⟨t, ht, hbounds⟩ := bounds_vector (m := m) (a := m.layouts 0) M h
    refine ⟨_, _, _, ?_, rfl, rfl, hbounds⟩
    change m.llvmType (m.layouts 1) (.simd lane) = _
    simp only [llvmType]
    rw [show (m.layouts 1).llvm (vectorElement lane) = some t from ht]
    rfl
  | bool => exact ⟨_, _, _, rfl, rfl, rfl, bounds_same M (sizeAlign_bit M) (by decide)⟩
  | unit => exact ⟨_, _, _, rfl, rfl, rfl, bounds_same M (sizeAlign_int M (show 1 ∈ _ by decide)) (by decide)⟩
  | char => exact ⟨_, _, _, rfl, rfl, rfl, bounds_same M (sizeAlign_int M (show 2 ∈ _ by decide)) (by decide)⟩
  | utf8Char => exact ⟨_, _, _, rfl, rfl, rfl, bounds_same M (sizeAlign_int M (show 4 ∈ _ by decide)) (by decide)⟩
  | string | utf8String | array | list => exact ⟨_, _, _, rfl, rfl, rfl, bounds_sized M⟩
  | vec => exact ⟨_, _, _, rfl, rfl, rfl, bounds_vec M⟩
  | function | once | dyn => exact ⟨_, _, _, rfl, rfl, rfl, bounds_pointers M⟩
  | handle | shared => exact ⟨_, _, _, rfl, rfl, rfl, bounds_pointer M⟩
  | reference target mutable =>
    by_cases hslice : (sliceElement (.reference target mutable)).isSome
    · exact ⟨_, _, _, if_pos hslice, if_pos hslice, if_pos hslice, bounds_sized M⟩
    · exact ⟨_, _, _, if_neg hslice, if_neg hslice, if_neg hslice, bounds_pointer M⟩
  | _ => exact h.elim

end

variable {known : Layouts} {M : Machine}

theorem laid_all (h : ∀ ty ∈ tys, LaidAt known M ty) :
    ∃ types lowers uppers, tys.mapM known.llvm = some types ∧ tys.mapM (known.bound · true) = some lowers ∧
      tys.mapM (known.bound · false) = some uppers ∧ List.Forall₂ Below lowers (types.map (sizeAlign M)) ∧
      List.Forall₂ Below (types.map (sizeAlign M)) uppers := by
  induction tys with
  | nil => exact ⟨[], [], [], rfl, rfl, rfl, .nil, .nil⟩
  | cons ty tys ih =>
    obtain ⟨t, lower, upper, ht, hlower, hupper, hbelow, habove⟩ := h ty mem_cons_self
    obtain ⟨types, lowers, uppers, htypes, hlowers, huppers, hbelows, haboves⟩ :=
      ih fun ty' hty' => h ty' (mem_cons_of_mem _ hty')
    refine ⟨t :: types, lower :: lowers, upper :: uppers, ?_, ?_, ?_, .cons hbelow hbelows, .cons habove haboves⟩
    · rw [mapM_cons, ht, htypes]
      rfl
    · rw [mapM_cons, hlower, hlowers]
      rfl
    · rw [mapM_cons, hupper, huppers]
      rfl

theorem flag_bounds (ty : Ty) : (m.flagType ty).map (sizeAlign M) = m.flagBound ty ∧
    List.Forall₂ Below (m.flagBound ty) (m.flagBound ty) := by
  unfold flagType flagBound
  cases m.dropFlag ty with
  | none => exact ⟨rfl, .nil⟩
  | some index =>
    have hbyte : sizeAlign M (.int 8 : Llvm) = (1, 1) := sizeAlign_int M (show 1 ∈ _ by decide)
    exact ⟨by simp [hbyte], .cons (.refl Nat.isPowerOfTwo_one) .nil⟩

theorem laid_fixedArray {element : Ty} (count : Nat) (h : LaidAt known M element) :
    LaidAt (m.step known) M (.fixedArray element (.length count)) := by
  obtain ⟨t, lower, upper, ht, hlower, hupper, hbelow, habove⟩ := h
  refine ⟨.array count t, (lower.1 * count, lower.2), (upper.1 * count, upper.2), ?_, ?_, ?_, ?_, ?_⟩
  · simp only [step_llvm, llvmType, fixedLength, ht]
    rfl
  · simp only [step_bound, layoutBound, fixedLength, hlower]
    rfl
  · simp only [step_bound, layoutBound, fixedLength, hupper]
    rfl
  · exact hbelow.array count
  · exact habove.array count

theorem laid_tuple {elements : List Ty} (h : ∀ element ∈ elements, LaidAt known M element) :
    LaidAt (m.step known) M (.tuple elements) := by
  obtain ⟨types, lowers, uppers, htypes, hlowers, huppers, hbelows, haboves⟩ := laid_all h
  refine ⟨.struct types, aggregate lowers, aggregate uppers, ?_, ?_, ?_, ?_, ?_⟩
  · simp only [step_llvm, llvmType, htypes]
    rfl
  · simp only [step_bound, layoutBound, hlowers]
    rfl
  · simp only [step_bound, layoutBound, huppers]
    rfl
  · rw [sizeAlign_struct]
    exact .aggregate hbelows
  · rw [sizeAlign_struct]
    exact .aggregate haboves

section

variable (h : ∀ field ∈ m.types.recordFields id args, LaidAt known M field)

include h

theorem physicalFields_of_laid : ∃ fields, m.physicalFields known id args = some fields ∧
      ∀ field ∈ fields, field ∈ m.types.recordFields id args := by
  obtain ⟨-, -, uppers, -, -, huppers, -⟩ := laid_all h
  have hslots : ∃ slots, m.recordSlots known id args = some slots := by
    unfold recordSlots
    simp only [huppers]
    split
    · exact ⟨_, rfl⟩
    · exact ⟨_, rfl⟩
  obtain ⟨slots, hslots⟩ := hslots
  unfold physicalFields
  simp only [hslots]
  cases slots with
  | none => exact ⟨_, rfl, fun _ hfield => hfield⟩
  | some slots =>
    refine ⟨_, rfl, fun field hfield => ?_⟩
    obtain ⟨index, hindex, rfl⟩ := mem_map.1 hfield
    have hlt := mem_range.1 (mem_mergeSort.1 hindex)
    rw [getD_eq_getElem?_getD, getElem?_eq_getElem hlt]
    exact getElem_mem hlt

theorem laid_record : LaidAt (m.step known) M (.record id args) := by
  obtain ⟨fields, hfields, hmem⟩ := physicalFields_of_laid h
  obtain ⟨types, lowers, uppers, htypes, hlowers, huppers, hbelows, haboves⟩ :=
    laid_all fun field hfield => h field (hmem field hfield)
  obtain ⟨hflag, hflags⟩ := flag_bounds (m := m) (M := M) (.record id args)
  refine ⟨.named (.record id args) (.struct (types ++ m.flagType (.record id args))),
    aggregate (lowers ++ m.flagBound (.record id args)), aggregate (uppers ++ m.flagBound (.record id args)),
    ?_, ?_, ?_, ?_, ?_⟩
  · simp only [step_llvm, llvmType, hfields, Option.bind_eq_bind, Option.bind_some, htypes]
    rfl
  · simp only [step_bound, layoutBound, hfields, Option.bind_eq_bind, Option.bind_some, hlowers]
    rfl
  · simp only [step_bound, layoutBound, hfields, Option.bind_eq_bind, Option.bind_some, huppers]
    rfl
  · rw [sizeAlign, sizeAlign_struct, map_append, hflag]
    exact .aggregate (rel_append hbelows hflags)
  · rw [sizeAlign, sizeAlign_struct, map_append, hflag]
    exact .aggregate (rel_append haboves hflags)

/-! ## Unions -/

end

theorem largest_foldl {layouts : List (Nat × Nat)} (h : ∀ layout ∈ layouts, layout.2.isPowerOfTwo) :
    ∀ {a : Nat × Nat}, a.2.isPowerOfTwo → (layouts.foldl largest a).2.isPowerOfTwo ∧
      (a.1 ≤ (layouts.foldl largest a).1 ∧ a.2 ≤ (layouts.foldl largest a).2) ∧
      ∀ layout ∈ layouts, layout.1 ≤ (layouts.foldl largest a).1 ∧ layout.2 ≤ (layouts.foldl largest a).2 := by
  induction layouts with
  | nil => exact fun ha => ⟨ha, ⟨Nat.le_refl _, Nat.le_refl _⟩, fun _ hmem => absurd hmem not_mem_nil⟩
  | cons layout layouts ih =>
    intro a ha
    have hnext : (largest a layout).2.isPowerOfTwo := isPowerOfTwo_max ha (h layout mem_cons_self)
    obtain ⟨hpow, ⟨hsize, halign⟩, hall⟩ := ih (fun l hl => h l (mem_cons_of_mem _ hl)) hnext
    have hmax : a.1 ≤ (largest a layout).1 ∧ a.2 ≤ (largest a layout).2 ∧ layout.1 ≤ (largest a layout).1 ∧
        layout.2 ≤ (largest a layout).2 := by
      simp only [largest]
      omega
    rw [foldl_cons]
    refine ⟨hpow, ⟨by omega, by omega⟩, fun l hl => ?_⟩
    rcases mem_cons.1 hl with rfl | hl
    · exact ⟨by omega, by omega⟩
    · exact hall l hl

theorem unit_mem {align : Nat} (h : align.isPowerOfTwo) : min align 16 ∈ [1, 2, 4, 8, 16] := by
  obtain ⟨k, rfl⟩ := h
  by_cases hk : k < 4
  · have : k = 0 ∨ k = 1 ∨ k = 2 ∨ k = 3 := by omega
    rcases this with rfl | rfl | rfl | rfl <;> decide
  · have hpow := Nat.pow_le_pow_right (n := 2) (by decide) (Nat.le_of_not_lt hk)
    rw [Nat.min_eq_right hpow]
    decide

theorem sizeAlign_area (M : Machine) (units : Nat) (h : unit ∈ [1, 2, 4, 8, 16]) :
    sizeAlign M (area unit units) = (unit * units, if unit = 16 then M.wide else unit) := by
  rw [area, sizeAlign]
  simp only [mem_cons, not_mem_nil, or_false] at h
  rcases h with rfl | rfl | rfl | rfl | rfl
  · rw [sizeAlign_int M (show 1 ∈ _ by decide), if_neg (by decide)]
  · rw [sizeAlign_int M (show 2 ∈ _ by decide), if_neg (by decide)]
  · rw [sizeAlign_int M (show 4 ∈ _ by decide), if_neg (by decide)]
  · rw [sizeAlign_int M (show 8 ∈ _ by decide), if_neg (by decide)]
  · rcases M.wide_eq with hw | hw <;> simp [sizeAlign, intAlign, intBytes, nextMultiple, hw]

theorem mapM_mem {α β : Type} {f : α → Option β} : ∀ {as : List α} {bs : List β}, as.mapM f = some bs →
    (∀ a ∈ as, ∃ b ∈ bs, f a = some b) ∧ ∀ b ∈ bs, ∃ a ∈ as, f a = some b
  | [], bs, h => by
    cases h
    simp
  | a :: as, bs, h => by
    simp only [mapM_cons, Option.bind_eq_bind, Option.bind_eq_some_iff, Option.pure_def, Option.some.injEq] at h
    obtain ⟨b, hb, bs', hbs, rfl⟩ := h
    obtain ⟨hto, hfrom⟩ := mapM_mem hbs
    refine ⟨fun x hx => ?_, fun y hy => ?_⟩
    · rcases mem_cons.1 hx with rfl | hx
      · exact ⟨b, mem_cons_self, hb⟩
      · obtain ⟨y, hy, hxy⟩ := hto x hx
        exact ⟨y, mem_cons_of_mem _ hy, hxy⟩
    · rcases mem_cons.1 hy with rfl | hy
      · exact ⟨a, mem_cons_self, hb⟩
      · obtain ⟨x, hx, hxy⟩ := hfrom y hy
        exact ⟨x, mem_cons_of_mem _ hx, hxy⟩

variable {id : Nat} {args : List Ty}

theorem mem_of_nicheLayout {cases : List (Option Ty)} (h : m.nicheLayout id args cases = some layout) :
    ∃ niche payload nullary full, layout = .niche niche payload nullary full ∧
      optionCases cases = some (nullary, full, payload) ∧ m.nicheOf payload = some niche ∧ some payload ∈ cases ∧
      m.recursive (.union id args) = false := by
  unfold nicheLayout at h
  simp only [Option.bind_eq_bind, Option.bind_eq_some_iff] at h
  obtain ⟨⟨nullary, full, payload⟩, hoption, niche, hniche, hlayout⟩ := h
  split at hlayout
  · cases hlayout
  · rename_i hplain
    rw [Bool.or_eq_true, not_or, Bool.not_eq_true, Bool.not_eq_true] at hplain
    refine ⟨niche, payload, nullary, full, (Option.some.inj hlayout).symm, hoption, hniche, ?_, hplain.2⟩
    unfold optionCases at hoption
    split at hoption <;> cases hoption <;> simp

def Described (m : CheckedModule) (known : Layouts) (id : Nat) (args : List Ty) : UnionLayout → Prop
  | .enum => (m.types.unionPayloads id args).reduceOption = []
  | .common payload => some payload ∈ m.types.unionPayloads id args ∧ ∃ t, known.llvm payload = some t ∧
      ∀ other, some other ∈ m.types.unionPayloads id args → known.llvm other = some t
  | .general unit units => (m.types.unionPayloads id args).reduceOption = [] ∧ unit = 1 ∧ units = 0 ∨
      ∃ layouts, (m.types.unionPayloads id args).reduceOption.mapM (storageLayout known) = some layouts ∧
        unit = min (layouts.foldl largest (0, 1)).2 16 ∧
        units = ((layouts.foldl largest (0, 1)).1 + unit - 1) / unit ∧
        ∃ p t q u, some p ∈ m.types.unionPayloads id args ∧ some q ∈ m.types.unionPayloads id args ∧
          known.llvm p = some t ∧ known.llvm q = some u ∧ t ≠ u
  | .niche niche payload nullary full => some payload ∈ m.types.unionPayloads id args ∧
      optionCases (m.types.unionPayloads id args) = some (nullary, full, payload) ∧
      m.nicheOf payload = some niche ∧ m.recursive (.union id args) = false

theorem workOutUnionLayout_spec (h : m.workOutUnionLayout known id args = some layout) :
    Described m known id args layout := by
  unfold workOutUnionLayout at h
  simp only at h
  split at h
  · rename_i hniche
    obtain ⟨niche, payload, nullary, full, hlayout, hoption, hof, hmem, hplain⟩ := mem_of_nicheLayout hniche
    obtain rfl := (Option.some.inj h).symm.trans hlayout
    exact ⟨hmem, hoption, hof, hplain⟩
  · split at h
    · rename_i hnil
      cases h
      split
      · exact .inl ⟨hnil, rfl, rfl⟩
      · exact hnil
    · rename_i first rest hcons
      simp only [Option.bind_eq_bind, Option.bind_eq_some_iff] at h
      obtain ⟨t, ht, types, htypes, hrest⟩ := h
      split at hrest
      · rename_i hall
        cases hrest
        refine ⟨reduceOption_mem_iff.1 (hcons ▸ mem_cons_self), t, ht, fun other hother => ?_⟩
        have hmem := hcons ▸ reduceOption_mem_iff.2 hother
        obtain ⟨u, hu, hotheru⟩ := (mapM_mem htypes).1 other hmem
        have := all_eq_true.1 hall u hu
        rw [hotheru, of_decide_eq_true this]
      · rename_i hdiffer
        simp only [Option.bind_eq_some_iff] at hrest
        obtain ⟨layouts, hlayouts, hunits⟩ := hrest
        cases hunits
        rw [Bool.not_eq_true, all_eq_false] at hdiffer
        obtain ⟨u, hu, hne⟩ := hdiffer
        obtain ⟨other, hother, hotheru⟩ := (mapM_mem htypes).2 u hu
        refine .inr ⟨layouts, hcons ▸ hlayouts, rfl, rfl, other, u, first, t, ?_, ?_, hotheru, ht, fun e => hne ?_⟩
        · exact reduceOption_mem_iff.1 (hcons ▸ hother)
        · exact reduceOption_mem_iff.1 (hcons ▸ mem_cons_self)
        · exact decide_eq_true e

section

variable (h : ∀ payload, some payload ∈ m.types.unionPayloads id args → LaidAt known M payload)

include h

theorem workOutUnionLayout_of_laid : ∃ layout, m.workOutUnionLayout known id args = some layout := by
  unfold workOutUnionLayout
  simp only
  split
  · exact ⟨_, rfl⟩
  · split
    · exact ⟨_, rfl⟩
    · rename_i first rest hcons
      have hlaid : ∀ payload ∈ first :: rest, LaidAt known M payload := fun payload hmem =>
        h payload (reduceOption_mem_iff.1 (hcons ▸ hmem))
      obtain ⟨t, -, -, ht, -⟩ := hlaid first mem_cons_self
      obtain ⟨types, -, uppers, htypes, -, huppers, -⟩ := laid_all hlaid
      have hstorage : (first :: rest).mapM (storageLayout known) = some uppers := huppers
      simp only [ht, htypes, hstorage, Option.bind_eq_bind, Option.bind_some]
      split
      · exact ⟨_, rfl⟩
      · exact ⟨_, rfl⟩

theorem area_of_general (hlayout : m.workOutUnionLayout known id args = some (.general unit units)) :
    unit ∈ [1, 2, 4, 8, 16] ∧ ∀ payload, some payload ∈ m.types.unionPayloads id args →
      ∀ upper, known.bound payload false = some upper → upper.1 ≤ unit * units ∧ min upper.2 16 ≤ unit := by
  rcases workOutUnionLayout_spec hlayout with ⟨hnil, rfl, rfl⟩ | ⟨layouts, hlayouts, hunit, hunits, -⟩
  · refine ⟨by decide, fun payload hmem => ?_⟩
    have := reduceOption_mem_iff.2 hmem
    rw [hnil] at this
    exact absurd this not_mem_nil
  · obtain ⟨hto, hfrom⟩ := mapM_mem hlayouts
    have hpow : ∀ layout ∈ layouts, layout.2.isPowerOfTwo := by
      intro layout hmem
      obtain ⟨payload, hpayload, hbound⟩ := hfrom layout hmem
      obtain ⟨t, lower, upper, ht, hlower, hupper, hbelow, habove⟩ := h payload (reduceOption_mem_iff.1 hpayload)
      obtain rfl : layout = upper := Option.some.inj (hbound.symm.trans hupper)
      exact habove.right
    obtain ⟨hlargest, -, hall⟩ := largest_foldl hpow (a := (0, 1)) Nat.isPowerOfTwo_one
    have hmem := unit_mem hlargest
    rw [← hunit] at hmem
    refine ⟨hmem, fun payload hpayload upper hupper => ?_⟩
    obtain ⟨layout, hlayoutmem, hbound⟩ := hto payload (reduceOption_mem_iff.2 hpayload)
    obtain rfl : layout = upper := Option.some.inj (hbound.symm.trans hupper)
    obtain ⟨hsize, halign⟩ := hall layout hlayoutmem
    have hpos : 0 < unit := by
      simp only [mem_cons, not_mem_nil, or_false] at hmem
      omega
    have hround : (layouts.foldl largest (0, 1)).1 ≤ unit * units := by
      rw [hunits]
      have hdiv := Nat.div_add_mod ((layouts.foldl largest (0, 1)).1 + unit - 1) unit
      have hmod := Nat.mod_lt ((layouts.foldl largest (0, 1)).1 + unit - 1) hpos
      omega
    exact ⟨by omega, by omega⟩

end

theorem tagWidth_mem (m : CheckedModule) (ty : Ty) : m.tagWidth ty ∈ [1, 2, 4] := by
  unfold tagWidth tagBytes
  split
  · decide
  · split
    · decide
    · split <;> decide

theorem sizeAlign_tag (m : CheckedModule) (M : Machine) (ty : Ty) :
    sizeAlign M (.int (8 * m.tagWidth ty) : Llvm) = (m.tagWidth ty, m.tagWidth ty) := by
  have h := tagWidth_mem m ty
  refine sizeAlign_int M ?_
  simp only [mem_cons, not_mem_nil, or_false] at h ⊢
  omega

theorem bounds_area (M : Machine) (units : Nat) (h : unit ∈ [1, 2, 4, 8, 16]) :
    Below (unit * units, if (true && decide (unit = 16)) = true then 8 else unit)
        (unit * units, if unit = 16 then M.wide else unit) ∧ Below (unit * units, if unit = 16 then M.wide else unit)
        (unit * units, if (false && decide (unit = 16)) = true then 8 else unit) := by
  simp only [mem_cons, not_mem_nil, or_false] at h
  rcases M.wide_eq with hw | hw <;> rcases h with rfl | rfl | rfl | rfl | rfl <;> rw [hw] <;>
    exact Below.pair ⟨Nat.le_refl _, Nat.le_refl _⟩ (by simp) (by simp)

theorem laid_node (h : m.recursive (.union id args)) : LaidAt (m.step known) M (.union id args) :=
  ⟨.ptr, (4, 4), (8, 8), if_pos h, if_pos h, if_pos h, bounds_pointer M⟩

theorem laid_union (h : ∀ payload, some payload ∈ m.types.unionPayloads id args → LaidAt known M payload) :
    LaidAt (m.step known) M (.union id args) := by
  by_cases hrec : m.recursive (.union id args) = true
  · exact laid_node hrec
  obtain ⟨layout, hlayout⟩ := workOutUnionLayout_of_laid h
  have hspec := workOutUnionLayout_spec hlayout
  obtain ⟨hflag, hflags⟩ := flag_bounds (m := m) (M := M) (.union id args)
  have htag := sizeAlign_tag m M (.union id args)
  have hwidth : (m.tagWidth (.union id args)).isPowerOfTwo := by
    refine pow2 ?_
    have := tagWidth_mem m (.union id args)
    simp only [mem_cons, not_mem_nil, or_false] at this ⊢
    omega
  have htags : Below (m.tagWidth (.union id args), m.tagWidth (.union id args))
      (m.tagWidth (.union id args), m.tagWidth (.union id args)) := .refl hwidth
  unfold LaidAt
  simp only [step_llvm, step_bound, llvmType, layoutBound, if_neg hrec, hlayout, Option.bind_eq_bind, Option.bind_some]
  cases layout with
  | enum =>
    refine ⟨_, _, _, rfl, rfl, rfl, ?_⟩
    rw [sizeAlign, htag]
    exact ⟨htags, htags⟩
  | common payload =>
    obtain ⟨t, lower, upper, ht, hlower, hupper, hbelow, habove⟩ := h payload hspec.1
    simp only [ht, hlower, hupper, Option.bind_some]
    refine ⟨_, _, _, rfl, rfl, rfl, ?_⟩
    rw [sizeAlign, sizeAlign_struct, map_cons, map_cons, htag, hflag]
    exact ⟨.aggregate (.cons htags (.cons hbelow hflags)), .aggregate (.cons htags (.cons habove hflags))⟩
  | general unit units =>
    obtain ⟨hunit, -⟩ := area_of_general h hlayout
    refine ⟨_, _, _, rfl, rfl, rfl, ?_⟩
    rw [sizeAlign, sizeAlign_struct, map_cons, map_cons, htag, hflag, sizeAlign_area M units hunit]
    have harea := bounds_area M units hunit
    exact ⟨.aggregate (.cons htags (.cons harea.1 hflags)), .aggregate (.cons htags (.cons harea.2 hflags))⟩
  | niche niche payload => exact h payload hspec.1

theorem common_depth (h : ∀ ty ∈ tys, ∃ depth, LaidAt (m.layouts depth) M ty) :
    ∃ depth, ∀ ty ∈ tys, LaidAt (m.layouts depth) M ty := by
  induction tys with
  | nil => exact ⟨0, fun _ hmem => absurd hmem not_mem_nil⟩
  | cons ty tys ih =>
    obtain ⟨depth, hdepth⟩ := h ty mem_cons_self
    obtain ⟨depth', hdepth'⟩ := ih fun ty' hty' => h ty' (mem_cons_of_mem _ hty')
    refine ⟨max depth depth', fun ty' hty' => ?_⟩
    rcases mem_cons.1 hty' with rfl | hty'
    · exact hdepth.mono (layouts_le (Nat.le_max_left _ _))
    · exact (hdepth' ty' hty').mono (layouts_le (Nat.le_max_right _ _))

theorem Stored.laid (h : Stored m ty) (M : Machine) : ∃ depth, LaidAt (m.layouts depth) M ty := by
  induction h with
  | plain h => exact ⟨2, laid_plain M h⟩
  | fixedArray count _ ih =>
    obtain ⟨depth, hdepth⟩ := ih
    exact ⟨depth + 1, laid_fixedArray count hdepth⟩
  | tuple _ ih =>
    obtain ⟨depth, hdepth⟩ := common_depth ih
    exact ⟨depth + 1, laid_tuple hdepth⟩
  | record _ ih =>
    obtain ⟨depth, hdepth⟩ := common_depth ih
    exact ⟨depth + 1, laid_record hdepth⟩
  | node h => exact ⟨1, laid_node h⟩
  | union _ ih =>
    obtain ⟨depth, hdepth⟩ := common_depth fun payload hmem => ih payload (reduceOption_mem_iff.1 hmem)
    exact ⟨depth + 1, laid_union fun payload hmem => hdepth payload (reduceOption_mem_iff.2 hmem)⟩

/-! ## Bounds and areas -/

variable (m : CheckedModule)

def HasLlvmType (ty : Ty) (t : Llvm) : Prop := ∃ depth, (m.layouts depth).llvm ty = some t

def HasBound (ty : Ty) (lower : Bool) (bound : Nat × Nat) : Prop :=
  ∃ depth, (m.layouts depth).bound ty lower = some bound

def HasUnionLayout (id : Nat) (args : List Ty) (layout : UnionLayout) : Prop :=
  ∃ depth, m.workOutUnionLayout (m.layouts depth) id args = some layout

def payloads : Ty → List Ty
  | .union id args => (m.types.unionPayloads id args).reduceOption
  | _ => []

def Bounded (M : Machine) (ty : Ty) : Prop :=
  ∃ t lower upper, m.HasLlvmType ty t ∧ m.HasBound ty true lower ∧ m.HasBound ty false upper ∧
    (lower.1 ≤ (sizeAlign M t).1 ∧ (sizeAlign M t).1 ≤ upper.1) ∧
    lower.2 ≤ (sizeAlign M t).2 ∧ (sizeAlign M t).2 ≤ upper.2

/-- Every payload fits the `General` area, which is aligned to the payload's alignment up to 16. -/
def AreaHolds (M : Machine) (id : Nat) (args : List Ty) : Prop :=
  ∀ unit units, m.HasUnionLayout id args (.general unit units) →
    ∀ payload ∈ m.payloads (.union id args), ∀ t, m.HasLlvmType payload t →
      (sizeAlign M t).1 ≤ (sizeAlign M (area unit units)).1 ∧
      min 16 (sizeAlign M t).2 ≤ (sizeAlign M (area unit units)).2

/-- The type and, for a union, its payloads have a layout. -/
structure Supported (ty : Ty) : Prop where
  stored : Stored m ty
  payloads : ∀ payload ∈ m.payloads ty, Stored m payload

/-- What the layout of a type promises on a machine. -/
structure Sound (M : Machine) (ty : Ty) : Prop where
  bounded : m.Bounded M ty
  areaHolds : ∀ id args, ty = .union id args → m.AreaHolds M id args

def OneType (ty : Ty) : Prop :=
  ∀ p ∈ m.payloads ty, ∀ q ∈ m.payloads ty, ∀ t u, m.HasLlvmType p t → m.HasLlvmType q u → t = u

def NoVector (M : Machine) (ty : Ty) : Prop :=
  ∀ payload ∈ m.payloads ty, ∀ t, m.HasLlvmType payload t → holdsVector M t = false

variable {m}

theorem HasLlvmType.unique {u : Llvm} (h : m.HasLlvmType ty t) (h' : m.HasLlvmType ty u) : t = u := by
  obtain ⟨depth, ht⟩ := h
  obtain ⟨depth', hu⟩ := h'
  have ht' := (layouts_le (m := m) (Nat.le_max_left depth depth')).llvm ht
  exact Option.some.inj (ht'.symm.trans ((layouts_le (Nat.le_max_right _ _)).llvm hu))

theorem payloads_laid (h : ∀ payload ∈ m.payloads (.union id args), Stored m payload) (M : Machine)
    (depth : Nat) : ∃ depth' ≥ depth, ∀ payload, some payload ∈ m.types.unionPayloads id args →
      LaidAt (m.layouts depth') M payload := by
  obtain ⟨depth', hdepth'⟩ := common_depth fun payload hmem => (h payload hmem).laid M
  refine ⟨max depth depth', Nat.le_max_left _ _, fun payload hmem => ?_⟩
  exact (hdepth' payload (reduceOption_mem_iff.2 hmem)).mono (layouts_le (Nat.le_max_right _ _))

theorem Stored.bounded (h : Stored m ty) (M : Machine) : m.Bounded M ty := by
  obtain ⟨depth, t, lower, upper, ht, hlower, hupper, hbelow, habove⟩ := h.laid M
  exact ⟨t, lower, upper, ⟨depth, ht⟩, ⟨depth, hlower⟩, ⟨depth, hupper⟩, ⟨hbelow.size, habove.size⟩,
    hbelow.align, habove.align⟩

theorem payload_fits (h : ∀ payload ∈ m.payloads (.union id args), Stored m payload)
    (hlayout : m.HasUnionLayout id args (.general unit units)) :
    unit ∈ [1, 2, 4, 8, 16] ∧ ∀ payload ∈ m.payloads (.union id args), ∀ t, m.HasLlvmType payload t →
      (sizeAlign M t).1 ≤ unit * units ∧ min 16 (sizeAlign M t).2 ≤ unit := by
  obtain ⟨depth, hlayout⟩ := hlayout
  obtain ⟨depth', hle, hlaid⟩ := payloads_laid h M depth
  obtain ⟨hunit, hfits⟩ := area_of_general hlaid (workOutUnionLayout_le (layouts_le hle) hlayout)
  refine ⟨hunit, fun payload hpayload t ht => ?_⟩
  have hmem := reduceOption_mem_iff.1 hpayload
  obtain ⟨u, lower, upper, hu, hlower, hupper, hbelow, habove⟩ := hlaid payload hmem
  obtain rfl := ht.unique ⟨_, hu⟩
  obtain ⟨hsize, halign⟩ := hfits payload hmem upper hupper
  have := habove.size
  have := habove.align
  exact ⟨by omega, by omega⟩

theorem not_oneType {payload : Ty} (hlayout : m.HasUnionLayout id args (.general unit units))
    (hmem : payload ∈ m.payloads (.union id args)) : ¬ m.OneType (.union id args) := by
  intro hone
  obtain ⟨depth, hlayout⟩ := hlayout
  rcases workOutUnionLayout_spec hlayout with ⟨hnil, -, -⟩ | ⟨-, -, -, -, p, t, q, u, hp, hq, ht, hu, hne⟩
  · rw [payloads, hnil] at hmem
    exact not_mem_nil hmem
  · exact hne (hone p (reduceOption_mem_iff.2 hp) q (reduceOption_mem_iff.2 hq) t u ⟨depth, ht⟩ ⟨depth, hu⟩)

theorem general_of_not_oneType (h : ∀ payload ∈ m.payloads (.union id args), Stored m payload) (M : Machine)
    (hdiffer : ¬ m.OneType (.union id args)) : ∃ unit units, m.HasUnionLayout id args (.general unit units) := by
  obtain ⟨depth, -, hlaid⟩ := payloads_laid h M 0
  obtain ⟨layout, hlayout⟩ := workOutUnionLayout_of_laid hlaid
  have hspec := workOutUnionLayout_spec hlayout
  cases layout with
  | general unit units => exact ⟨unit, units, depth, hlayout⟩
  | enum =>
    refine absurd (fun p hp => ?_) hdiffer
    rw [payloads, hspec] at hp
    exact absurd hp not_mem_nil
  | common payload =>
    obtain ⟨-, t, -, hall⟩ := hspec
    refine absurd (fun p hp q hq u v hu hv => ?_) hdiffer
    have hpt := hu.unique ⟨depth, hall p (reduceOption_mem_iff.1 hp)⟩
    exact hpt.trans (hv.unique ⟨depth, hall q (reduceOption_mem_iff.1 hq)⟩).symm
  | niche niche payload nullary full =>
    obtain ⟨-, hoption, -⟩ := hspec
    have hsingle : ∀ p ∈ m.payloads (.union id args), p = payload := by
      intro p hp
      have hmem := reduceOption_mem_iff.1 hp
      unfold optionCases at hoption
      split at hoption <;> cases hoption <;> rename_i hcases <;> rw [hcases] at hmem <;> simpa using hmem
    refine absurd (fun p hp q hq u v hu hv => ?_) hdiffer
    rw [hsingle p hp] at hu
    rw [hsingle q hq] at hv
    exact hu.unique hv

/-- Both bounds hold for every type. A `General` area holds every payload, and is aligned as its
payloads need where 128-bit integers are aligned to 16, and elsewhere exactly where no payload
stores a vector in place. -/
theorem layouts_sound_iff {ty : Ty} (h : m.Supported ty) (M : Machine) :
    m.Sound M ty ↔ M.wide = 16 ∨ m.OneType ty ∨ m.NoVector M ty := by
  constructor
  · intro hsound
    refine M.wide_eq.symm.imp_right fun hwide => or_iff_not_imp_left.2 fun hdiffer payload hmem t ht => ?_
    cases ty with
    | union id args =>
      obtain ⟨unit, units, hlayout⟩ := general_of_not_oneType h.payloads M hdiffer
      obtain ⟨hunit, -⟩ := payload_fits h.payloads (M := M) hlayout
      obtain ⟨-, halign⟩ := hsound.areaHolds id args rfl unit units hlayout payload hmem t ht
      rw [sizeAlign_area M units hunit, hwide] at halign
      refine (sizeAlign_le M hwide t).1 ?_
      simp only [mem_cons, not_mem_nil, or_false] at hunit
      dsimp only at halign
      split at halign <;> omega
    | _ => exact absurd hmem not_mem_nil
  · intro hcond
    refine ⟨h.stored.bounded M, fun id args hty unit units hlayout payload hmem t ht => ?_⟩
    subst hty
    obtain ⟨hunit, hfits⟩ := payload_fits h.payloads (M := M) hlayout
    obtain ⟨hsize, halign⟩ := hfits payload hmem t ht
    rw [sizeAlign_area M units hunit]
    refine ⟨hsize, ?_⟩
    dsimp only
    split
    · rcases hcond with hwide | hone | hnone
      · omega
      · exact absurd hone (not_oneType hlayout hmem)
      · rcases M.wide_eq with hwide | hwide
        · have := (sizeAlign_le M hwide t).2 (hnone payload hmem t ht)
          omega
        · omega
    · exact halign

/-- `union Lane4 = Four of f32x4 | Scalar of i32 | Absent4` -/
def lane4 : CheckedModule where
  types :=
    { records := []
      unions := [{ name := "Main.Lane4", parameters := [], userDrop := false, cases :=
        [("Four", some (.simd { bits := 32, kind := .float, width := 128 })), ("Scalar", some .i32),
          ("Absent4", none)] }] }
  user := fun _ => true
  recursive := fun _ => false
  webassembly := false

def oldX86 : Machine where
  pointer := 8
  wide := 8
  pointer_eq := .inr rfl
  wide_eq := .inl rfl

theorem supported_lane4 : lane4.Supported (.union 0 []) := by
  have hpayloads : ∀ payload ∈ lane4.payloads (.union 0 []), Stored lane4 payload := by
    intro payload hmem
    change payload ∈ [Ty.simd { bits := 32, kind := .float, width := 128 }, .i32] at hmem
    simp only [mem_cons, not_mem_nil, or_false] at hmem
    rcases hmem with rfl | rfl
    · exact .plain ⟨by decide, by decide, by decide⟩
    · exact .plain (show 32 ∈ _ by decide)
  exact ⟨.union fun payload hmem => hpayloads payload (reduceOption_mem_iff.2 hmem), hpayloads⟩

theorem layouts_sound_iff_lane4 : lane4.Supported (.union 0 []) ∧ (lane4.Sound oldX86 (.union 0 []) ↔
      oldX86.wide = 16 ∨ lane4.OneType (.union 0 []) ∨ lane4.NoVector oldX86 (.union 0 [])) :=
  ⟨supported_lane4, layouts_sound_iff supported_lane4 oldX86⟩

/-- The area of `Lane4` is an `i128`, aligned to 8 there, and its payload `f32x4` to 16. -/
theorem lane4_not_sound : ¬ lane4.Sound oldX86 (.union 0 []) := by
  intro h
  have halign := (h.areaHolds 0 [] rfl 16 1 ⟨2, by decide⟩ (.simd { bits := 32, kind := .float, width := 128 })
    mem_cons_self (.vector 4 .float) ⟨2, rfl⟩).2
  revert halign
  decide

end CheckedModule

end Tsuzuri.Layout
