import Tsuzuri.AstCodec

/-!
# The laws of the codec

What a codec writes it reads in another context of the same mode, up to what that mode keeps (`Normal`), and what it
reads is what it writes.
-/

namespace Tsuzuri.Ast

open WireFormat List Option

/-- A position of source `s` is taken for one of source `t`. -/
def Span.retag (s t : Usize) (x : Span) : Span :=
  { x with source := x.source.map fun source => if source = s then t else source }

/-- What an encoding keeps of a program. -/
structure Keep where
  span : Span → Span
  parts : Bool

/-- What is kept between a writer in `c` and a reader in `c'`. -/
def Context.keep (c c' : Context) : Keep :=
  if c.mode = .full then ⟨Span.retag c.source c'.source, true⟩ else ⟨fun _ => default, false⟩

/-- What is kept of a value. -/
class Normal (α : Type) where
  normal : Keep → α → α

export Normal (normal)

class Lawful (α : Type) [Wire α] [Normal α] : Prop where
  reads {c c' : Context} (hc : c.mode = c'.mode) (a : α) : Forward c c' (put a) get (normal (c.keep c') a)
  writes (c : Context) (r : Reader) : Ensures c get r fun (a : α) r' => Parsed c (put a) r r'

export Lawful (reads writes)

/-- A type without positions and without parts to leave out. -/
class Plain (α : Type) [Normal α] : Prop where
  normal_eq (k : Keep) (a : α) : normal k a = a

/-- Every value takes at least one byte: nothing is read where nothing is left. -/
class Filled (α : Type) [Wire α] : Prop where
  starved (c : Context) (r : Reader) (h : r.rest = []) : (get : GetM Context α) c r = none

export Filled (starved)

variable {out out' : List UInt8} {r : Reader} {n : Nat}

section Rules

variable {α β : Type} {c c' : Context} {r r₁ : Reader}

theorem reads_plain [Wire α] [Normal α] [Lawful α] [Plain α] (hc : c.mode = c'.mode) (a : α) :
    Forward c c' (put a) get a := by
  have h := reads hc a
  rwa [Plain.normal_eq] at h

theorem ensures_field [Wire α] [Normal α] [Lawful α] {k : α → GetM Context β} {Q : β → Reader → Prop}
    (h : ∀ a r', Parsed c (put a) r r' → Ensures c (k a) r' Q) : Ensures c (get >>= k) r Q :=
  .bind ((writes c r).imp h)

def Trail (c : Context) (r : Reader) (X : PutM Context Unit → Reader → Prop) : Prop :=
  ∀ q r', Parsed c q r r' → X q r'

theorem Trail.start : Trail c r fun q r' => Parsed c q r r' := fun _ _ h => h

variable {X : PutM Context Unit → Reader → Prop}

theorem Trail.next {p : PutM Context Unit} (t : Trail c r X) (h : Parsed c p r r₁) :
    Trail c r₁ fun q => X (do p; q) := fun _ _ hq => t _ _ (h.bind hq)

theorem Trail.field [Wire α] [Normal α] [Lawful α] {k : α → GetM Context β} {Q : β → Reader → Prop}
    (t : Trail c r X) (h : ∀ a r', Trail c r' (fun q => X do put a; q) → Ensures c (k a) r' Q) :
    Ensures c (get >>= k) r Q :=
  ensures_field fun a r' ha => h a r' (t.next ha)

theorem Trail.last [Wire α] [Normal α] [Lawful α] {f : α → β} {Q : β → Reader → Prop}
    (t : Trail c r X) (h : ∀ a r', X (put a) r' → Q (f a) r') : Ensures c (get >>= fun a => pure (f a)) r Q :=
  ensures_field fun a r' ha => .pure (h a r' (t _ _ ha))

variable {g : GetM Context α}

theorem bind_starved {k : α → GetM Context β} (h : g c r = none) : (g >>= k) c r = none := by
  show (g c r).bind _ = none
  rw [h, bind_none]

theorem getByte_starved (h : r.rest = []) : getByte c r = none := by
  have hlen := r.length_rest
  rw [h, length_nil] at hlen
  unfold getByte
  rw [dif_neg (by omega)]

theorem full_starved [Wire α] [Inhabited α] [Filled α] {k : α → GetM Context β}
    (h : r.rest = []) (hk : ∀ a, k a c r = none) : (getFull >>= k) c r = none := by
  show (getFull c r).bind (fun x => k x.1 c x.2) = none
  unfold getFull
  split
  · rw [starved c r h, bind_none]
  · exact hk default

theorem forward_filled {p : PutM Context Unit} {a : α} (h : Forward c c' p g a)
    (hstarved : ∀ r, r.rest = [] → g c' r = none) (hrun : p c out = some ((), out')) : out.length < out'.length := by
  obtain ⟨bs, rfl, hreads⟩ := h _ _ hrun
  cases bs with
  | nil =>
    obtain ⟨r', hget, -⟩ := hreads (.start []) [] rfl
    rw [hstarved _ rfl] at hget
    cases hget
  | cons b bs =>
    rw [length_append, length_cons]
    omega

end Rules

/-! ## Numbers, texts and sequences -/

instance (w : Nat) : Normal (BitVec w) := ⟨fun _ a => a⟩
instance : Normal Bool := ⟨fun _ a => a⟩
instance : Normal Char := ⟨fun _ a => a⟩
instance : Normal String := ⟨fun _ a => a⟩

instance (w : Nat) : Plain (BitVec w) := ⟨fun _ _ => rfl⟩
instance : Plain Bool := ⟨fun _ _ => rfl⟩
instance : Plain Char := ⟨fun _ _ => rfl⟩
instance : Plain String := ⟨fun _ _ => rfl⟩

theorem lawful_bitVec {w : Nat} (hw : w ≤ 128) : Lawful (BitVec w) where
  reads hc a := by
    have hlt : a.toNat < 2 ^ 128 := lt_of_lt_of_le a.isLt (Nat.pow_le_pow_right (by decide) hw)
    refine .finish (forward_number hlt) ?_
    rw [if_pos a.isLt, BitVec.ofNat_toNat, BitVec.setWidth_eq]
    rfl
  writes c r := by
    refine .bind (ensures_number.imp fun n r₁ hn => ?_)
    split
    · rename_i hlt
      refine .pure ?_
      show Parsed c (putNumber (BitVec.ofNat w n).toNat) r r₁
      rw [BitVec.toNat_ofNat, Nat.mod_eq_of_lt hlt]
      exact hn.2
    · exact ensures_invalid

instance : Lawful (BitVec 8) := lawful_bitVec (by decide)
instance : Lawful (BitVec 16) := lawful_bitVec (by decide)
instance : Lawful (BitVec 32) := lawful_bitVec (by decide)
instance : Lawful (BitVec 64) := lawful_bitVec (by decide)
instance : Lawful (BitVec 128) := lawful_bitVec (by decide)

theorem getNumber_starved {c : Context} (h : r.rest = []) : getNumber c r = none := by
  unfold getNumber getGroups
  exact bind_starved (getByte_starved h)

instance (w : Nat) : Filled (BitVec w) := ⟨fun _ _ h => bind_starved (getNumber_starved h)⟩

instance : Lawful Bool where
  reads hc a := by
    cases a <;> exact .finish forward_byte rfl
  writes c r := by
    refine .bind (ensures_byte.imp fun tag r₁ h => ?_)
    split
    · exact .pure h
    · exact .pure h
    · exact ensures_invalid

instance : Filled Bool := ⟨fun _ _ h => bind_starved (getByte_starved h)⟩

theorem char_toNat_ofNat (h : n.isValidChar) : (Char.ofNat n).toNat = n := by
  unfold Char.ofNat
  rw [dif_pos h]
  rfl

instance : Lawful Char where
  reads {c c'} hc a := by
    have htoNat : (BitVec.ofNat 32 a.toNat).toNat = a.toNat :=
      Nat.mod_eq_of_lt (UInt32.toNat_lt a.val)
    have hvalid : (BitVec.ofNat 32 a.toNat).toNat.isValidChar := by
      rw [htoNat]
      exact a.valid
    refine .finish (reads_plain hc (BitVec.ofNat 32 a.toNat : U32)) ?_
    rw [if_pos hvalid, htoNat, Char.ofNat_toNat]
    rfl
  writes c r := by
    refine ensures_field fun (n : U32) r₁ h => ?_
    split
    · rename_i hvalid
      refine .pure ?_
      show Parsed c (put (BitVec.ofNat 32 (Char.ofNat n.toNat).toNat : U32)) r r₁
      rw [char_toNat_ofNat hvalid, BitVec.ofNat_toNat, BitVec.setWidth_eq]
      exact h
    · exact ensures_invalid

instance : Filled Char := ⟨fun c r h => bind_starved (starved c r h)⟩

section Sequences

variable {α β : Type} {c c' : Context} {r : Reader}

theorem ensures_remaining : Ensures c remaining r fun n r' => n = r.bytes.length - r.pos ∧ r' = r := by
  intro n r' hrun
  cases hrun
  exact ⟨rfl, rfl⟩

theorem ensures_length : Ensures c getLength r fun n r' => Parsed c (putLength n) r r' := by
  refine .bind (ensures_number.imp fun n r₁ hn => ?_)
  refine .bind (ensures_remaining.imp fun left r₂ hleft => ?_)
  obtain ⟨-, rfl⟩ := hleft
  refine Ensures.guard fun hsmall => .pure ?_
  rw [not_or, Nat.not_le] at hsmall
  rw [putLength, if_pos hsmall.1]
  exact hn.2

variable {b : β} {putElement : α → PutM Context Unit} {as : List α} {getElement : GetM Context β} {f : α → β}

theorem reads_length {k : Nat → GetM Context β} {bs : List UInt8} (hn : n < 2 ^ 64) (hle : n ≤ bs.length)
    (h : Reads c (k n) bs b) : Reads c (getLength >>= k) (numberBytes 19 n ++ bs) b := by
  intro r rest hrest
  rw [append_assoc] at hrest
  have hnumber : Reads c getNumber (numberBytes 19 n) n := reads_number (lt_trans hn (by decide))
  obtain ⟨r₁, hrun₁, hrest₁, hbytes₁⟩ := hnumber r _ hrest
  obtain ⟨r₂, hrun₂, hrest₂, hbytes₂⟩ := h r₁ rest hrest₁
  refine ⟨r₂, ?_, hrest₂, hbytes₂.trans hbytes₁⟩
  have hleft : ¬ (2 ^ 64 ≤ n ∨ r₁.bytes.length - r₁.pos < n) := by
    rw [← r₁.length_rest, hrest₁, length_append]
    omega
  have hlength : getLength c r = some (n, r₁) := by
    show (getNumber c r).bind (fun x => (if 2 ^ 64 ≤ x.1 ∨ x.2.bytes.length - x.2.pos < x.1
      then invalid else pure x.1 : GetM Context Nat) c x.2) = _
    rw [hrun₁, bind_some, if_neg hleft]
    rfl
  show (getLength c r).bind (fun x => k x.1 c x.2) = _
  rw [hlength, bind_some, hrun₂]

theorem forward_length {q : PutM Context Unit} {k : Nat → GetM Context β} (hq : Forward c c' q (k n) b)
    (hfill : ∀ out out', q c out = some ((), out') → out.length + n ≤ out'.length) :
    Forward c c' (do putLength n; q) (getLength >>= k) b := by
  intro out out' h
  obtain ⟨⟨⟨⟩, out₁⟩, hlength, hrun⟩ := bind_eq_some_iff.mp h
  unfold putLength at hlength
  split at hlength
  · rename_i hn
    obtain rfl : out ++ numberBytes 19 n = out₁ := congrArg Prod.snd (Option.some.inj hlength)
    obtain ⟨bs, rfl, hreads⟩ := hq _ _ hrun
    have hle := hfill _ _ hrun
    simp only [length_append] at hle
    exact ⟨numberBytes 19 n ++ bs, append_assoc .., reads_length hn (by omega) hreads⟩
  · cases hlength

theorem length_starved (h : r.rest = []) : getLength c r = none :=
  bind_starved (getNumber_starved h)

theorem putAll_length (h : ∀ a ∈ as, ∀ out out', putElement a c out = some ((), out') → out.length < out'.length)
    (hrun : putAll putElement as c out = some ((), out')) : out.length + as.length ≤ out'.length := by
  induction as generalizing out with
  | nil =>
    obtain rfl : out = out' := congrArg Prod.snd (Option.some.inj hrun)
    simp
  | cons a as ih =>
    obtain ⟨hfirst, hrest⟩ := forall_mem_cons.mp h
    obtain ⟨⟨⟨⟩, out₁⟩, ha, has⟩ := bind_eq_some_iff.mp hrun
    have := hfirst _ _ ha
    have := ih hrest has
    rw [length_cons]
    omega

theorem forward_all (h : ∀ a ∈ as, Forward c c' (putElement a) getElement (f a)) :
    Forward c c' (putAll putElement as) (getAll getElement as.length) (as.map f) := by
  induction as with
  | nil => exact .pure
  | cons a as ih =>
    obtain ⟨hfirst, hrest⟩ := forall_mem_cons.mp h
    exact .bind hfirst (.last (ih hrest))

theorem forward_list (h : ∀ a ∈ as, Forward c c' (putElement a) getElement (f a))
    (hstarved : ∀ r, r.rest = [] → getElement c' r = none) :
    Forward c c' (putList putElement as) (getList getElement) (as.map f) :=
  forward_length (forward_all h) fun _ _ =>
    putAll_length fun a ha _ _ hrun => forward_filled (h a ha) hstarved hrun

variable {getElement : GetM Context α} (h : ∀ r, Ensures c getElement r fun a r' => Parsed c (putElement a) r r')

include h

theorem ensures_all (n : Nat) : Ensures c (getAll getElement n) r fun as r' =>
      as.length = n ∧ Parsed c (putAll putElement as) r r' := by
  induction n generalizing r with
  | zero => exact .pure ⟨rfl, .refl⟩
  | succ n ih =>
    refine .bind ((h r).imp fun a r₁ ha => .bind (ih.imp fun as r₂ has => .pure ?_))
    exact ⟨congrArg Nat.succ has.1, ha.bind has.2⟩

theorem ensures_list : Ensures c (getList getElement) r fun as r' => Parsed c (putList putElement as) r r' := by
  refine .bind (ensures_length.imp fun n r₁ hn => (ensures_all h n).imp fun as r₂ has => ?_)
  obtain ⟨rfl, has⟩ := has
  exact hn.bind has

end Sequences

instance : Lawful String where
  reads {c c'} hc a := by
    have htake : Reads c' (take a.toByteArray.data.size) a.toByteArray.data.toList _ := reads_take
    refine forward_length (.finish (forward_bytes htake) ?_) ?_
    · have hvalid : String.fromUTF8? ⟨a.toByteArray.data.toList.toArray⟩ = some a := by
        unfold String.fromUTF8?
        exact dif_pos a.isValidUTF8
      rw [hvalid]
      rfl
    · intro out out' hrun
      obtain rfl : out ++ a.toByteArray.data.toList = out' :=
        congrArg Prod.snd (Option.some.inj hrun)
      rw [length_append, a.toByteArray.data.length_toList]
  writes c r := by
    refine .bind (ensures_length.imp fun n r₁ hn => .bind (ensures_take.imp fun bs r₂ hbs => ?_))
    obtain ⟨rfl, hbs⟩ := hbs
    split
    · rename_i text htext
      obtain ⟨_, hsome⟩ := dite_none_right_eq_some.mp htext
      obtain rfl := Option.some.inj hsome
      exact .pure (hn.bind hbs)
    · exact ensures_invalid

instance : Filled String := ⟨fun _ _ h => bind_starved (length_starved h)⟩

section Containers

variable {α β : Type} [Wire α] [Normal α] [Wire β] [Normal β]

instance : Normal (List α) := ⟨fun k as => as.map (normal k)⟩
instance : Normal (Option α) := ⟨fun k a => a.map (normal k)⟩
instance : Normal (α × β) := ⟨fun k => Prod.map (normal k) (normal k)⟩

instance [Plain α] : Plain (List α) where
  normal_eq k as := (map_congr_left fun a _ => Plain.normal_eq k a).trans (map_id as)

instance [Plain α] : Plain (Option α) where
  normal_eq k a := by
    cases a with
    | none => rfl
    | some a => exact congrArg some (Plain.normal_eq k a)

instance [Plain α] [Plain β] : Plain (α × β) where
  normal_eq k x := congrArg₂ Prod.mk (Plain.normal_eq k x.1) (Plain.normal_eq k x.2)

instance : Filled (List α) := ⟨fun _ _ h => bind_starved (length_starved h)⟩
instance : Filled (Option α) := ⟨fun _ _ h => bind_starved (getByte_starved h)⟩
instance [Filled α] : Filled (α × β) := ⟨fun c r h => bind_starved (starved c r h)⟩

instance [Lawful α] [Filled α] : Lawful (List α) where
  reads hc _ := forward_list (fun a _ => reads hc a) (starved _)
  writes c _ := ensures_list (writes c)

instance [Lawful α] : Lawful (Option α) where
  reads hc a := by
    cases a with
    | none => exact .finish forward_byte rfl
    | some a => exact .bind forward_byte (.last (reads hc a))
  writes c r := by
    refine .bind (ensures_byte.imp fun tag r₁ h => ?_)
    split
    · exact .pure h
    · exact ensures_field fun _ _ h₁ => .pure (h.bind h₁)
    · exact ensures_invalid

instance [Lawful α] [Lawful β] : Lawful (α × β) where
  reads hc x := .bind (reads hc x.1) (.last (reads hc x.2))
  writes _ _ := Trail.start.field fun _ _ t => t.last fun _ _ => id

end Containers

/-! ## Positions and parts that are left out -/

instance : Normal Span := ⟨Keep.span⟩

def Keep.part {α : Type} [Normal α] [Inhabited α] (k : Keep) (a : α) : α :=
  if k.parts then normal k a else default

section Parts

variable {c c' : Context}

theorem Context.keep_full (h : c.mode = .full) : c.keep c' = ⟨Span.retag c.source c'.source, true⟩ := if_pos h

theorem Context.keep_interface (h : c.mode ≠ .full) : c.keep c' = ⟨fun _ => default, false⟩ := if_neg h

theorem forward_source (x : Span) : Forward c c' (match x.source with
        | none => putByte 0
        | some source => if source = c.source then putByte 1 else refuse)
      (do
        match ← getByte with
        | 0 => return { start := x.start, finish := x.finish, source := none }
        | 1 => return { start := x.start, finish := x.finish, source := some c'.source }
        | _ => invalid)
      (Span.retag c.source c'.source x) := by
  obtain ⟨start, finish, source⟩ := x
  cases source with
  | none => exact .finish forward_byte rfl
  | some source =>
    by_cases hsource : source = c.source
    · simp only [hsource, if_pos]
      refine .finish forward_byte ?_
      simp [Span.retag]
    · simp only [if_neg hsource]
      intro out out' hrun
      cases hrun

instance : Lawful Span where
  reads {c c'} hc x := by
    by_cases hfull : c.mode = .full
    · have hfull' : c'.mode = .full := hc ▸ hfull
      rw [Context.keep_full hfull]
      refine .congr (.bind (reads_plain hc x.start) (.bind (reads_plain hc x.finish) ?_)) (if_pos hfull) (if_pos hfull')
      exact forward_source x
    · have hfull' : c'.mode ≠ .full := hc ▸ hfull
      rw [Context.keep_interface hfull]
      exact .congr .pure (if_neg hfull) (if_neg hfull')
  writes c r := by
    by_cases hfull : c.mode = .full
    · refine .congr (ensures_field fun start _ h₁ => ensures_field fun finish _ h₂ =>
        .bind (ensures_byte.imp fun tag r₁ h₃ => ?_)) (if_pos hfull)
      split
      · exact .pure (.congr (h₁.bind (h₂.bind h₃)) (if_pos hfull))
      · refine .pure (.congr (h₁.bind (h₂.bind h₃)) ((if_pos hfull).trans ?_))
        simp only [if_pos]
      · exact ensures_invalid
    · exact .congr (.pure (.congr .refl (if_neg hfull))) (if_neg hfull)

variable {α : Type} [Wire α] [Normal α] [Inhabited α]

theorem forward_full [Lawful α] (hc : c.mode = c'.mode) (a : α) :
    Forward c c' (putFull a) getFull ((c.keep c').part a) := by
  by_cases hfull : c.mode = .full
  · have hfull' : c'.mode = .full := hc ▸ hfull
    refine .congr ?_ (if_pos hfull) (if_pos hfull')
    have hpart : (c.keep c').part a = normal (c.keep c') a := by
      rw [Keep.part, Context.keep_full hfull]
      rfl
    rw [hpart]
    exact reads hc a
  · have hfull' : c'.mode ≠ .full := hc ▸ hfull
    rw [Keep.part, Context.keep_interface hfull]
    exact .congr .pure (if_neg hfull) (if_neg hfull')

theorem ensures_full [Lawful α] {β : Type} {k : α → GetM Context β} {Q : β → Reader → Prop}
    (h : ∀ a r', Parsed c (putFull a) r r' → Ensures c (k a) r' Q) : Ensures c (getFull >>= k) r Q := by
  refine .bind ?_
  by_cases hfull : c.mode = .full
  · refine .congr ((writes c r).imp fun a r' ha => h a r' ?_) (if_pos hfull)
    exact .congr ha (if_pos hfull)
  · refine .congr (.pure (h default r ?_)) (if_neg hfull)
    exact .congr .refl (if_neg hfull)

theorem Trail.full [Lawful α] {β : Type} {k : α → GetM Context β} {Q : β → Reader → Prop}
    {X : PutM Context Unit → Reader → Prop} (t : Trail c r X)
    (h : ∀ a r', Trail c r' (fun q => X do putFull a; q) → Ensures c (k a) r' Q) : Ensures c (getFull >>= k) r Q :=
  ensures_full fun a r' ha => h a r' (t.next ha)

end Parts

instance {α : Type} [UnitEnum α] : Normal α := ⟨fun _ a => a⟩
instance {α : Type} [UnitEnum α] : Plain α := ⟨fun _ _ => rfl⟩

section Enumerations

variable {α : Type} [UnitEnum α]

theorem find_variant (a : α) : (UnitEnum.variants : List α).find?
      (fun b => UInt8.ofNat (UnitEnum.index b) = UInt8.ofNat (UnitEnum.index a)) = some a := by
  cases hfind : (UnitEnum.variants : List α).find?
      (fun b => UInt8.ofNat (UnitEnum.index b) = UInt8.ofNat (UnitEnum.index a)) with
  | none =>
    have hnot := find?_eq_none.mp hfind a (UnitEnum.mem_variants a)
    exact absurd (decide_eq_true rfl) hnot
  | some b =>
    have htag : UInt8.ofNat (UnitEnum.index b) = UInt8.ofNat (UnitEnum.index a) := by
      simpa using find?_some hfind
    rw [UnitEnum.index_inj b a htag]

instance : @Lawful α (unitEnum α) _ :=
  letI := unitEnum α
  { reads := fun hc a => by
      refine .finish forward_byte ?_
      rw [find_variant]
      rfl
    writes := fun c r => by
      refine .bind (ensures_byte.imp fun tag r₁ h => ?_)
      split
      · rename_i a hfind
        obtain rfl : UInt8.ofNat (UnitEnum.index a) = tag := by simpa using find?_some hfind
        exact .pure h
      · exact ensures_invalid }

instance : @Filled α (unitEnum α) :=
  letI := unitEnum α
  ⟨fun _ _ h => bind_starved (getByte_starved h)⟩

end Enumerations

end Tsuzuri.Ast
