import Mathlib.Data.Nat.Bits
import Mathlib.Tactic.Ring

/-!
# Binary formats

Writers and readers of byte strings in a context `C`, and the relations that tie them: `Reads` (what was written is
read back, whatever follows) and `Parsed` (what was read is what the writer writes).
-/

namespace WireFormat

open List

/-- A position in a byte string. It never leaves the string. -/
structure Reader where
  bytes : List UInt8
  pos : Nat
  inRange : pos ≤ bytes.length

def Reader.rest (r : Reader) : List UInt8 := r.bytes.drop r.pos

def Reader.start (bytes : List UInt8) : Reader := ⟨bytes, 0, Nat.zero_le _⟩

@[simp] theorem Reader.rest_start (bytes : List UInt8) : (start bytes).rest = bytes := rfl

theorem Reader.length_rest (r : Reader) : r.rest.length = r.bytes.length - r.pos := by
  rw [rest, length_drop]

abbrev PutM (C : Type) := ReaderT C (StateT (List UInt8) Option)

abbrev GetM (C : Type) := ReaderT C (StateT Reader Option)

variable {C α β : Type}

def invalid : GetM C α := fun _ _ => none

def refuse : PutM C Unit := fun _ _ => none

def putByte (b : UInt8) : PutM C Unit := fun _ out => some ((), out ++ [b])

def putBytes (bs : List UInt8) : PutM C Unit := fun _ out => some ((), out ++ bs)

def getByte : GetM C UInt8 := fun _ r =>
  if h : r.pos < r.bytes.length then some (r.bytes[r.pos], { r with pos := r.pos + 1, inRange := h })
  else none

def take (n : Nat) : GetM C (List UInt8) := fun _ r =>
  if h : r.pos + n ≤ r.bytes.length then
    some ((r.bytes.drop r.pos).take n, { r with pos := r.pos + n, inRange := h })
  else none

/-- The groups of seven bits of a number, lowest first, at most `groups` of them. -/
def numberBytes : (groups value : Nat) → List UInt8
  | 0, _ => []
  | groups + 1, value =>
    let low := UInt8.ofNat (value &&& 0x7f)
    let rest := value >>> 7
    if rest = 0 then [low] else (low ||| 0x80) :: numberBytes groups rest

def putNumber (value : Nat) : PutM C Unit := putBytes (numberBytes 19 value)

def getGroups : (groups shift value : Nat) → GetM C Nat
  | 0, _, _ => invalid
  | groups + 1, shift, value => do
    let byte ← getByte
    let bits := byte &&& 0x7f
    if shift = 126 ∧ bits > 0b11 then invalid
    else
      let value := value ||| (bits.toNat <<< shift)
      if byte &&& 0x80 = 0 then
        if byte = 0 ∧ shift ≠ 0 then invalid else pure value
      else getGroups groups (shift + 7) value

def getNumber : GetM C Nat := getGroups 19 0 0

/-! ## What was written is read back -/

variable {p' : PutM C Unit} {g' : GetM C α} {u : UInt8} {a : α}

section Forward

/-- The reader `g` reads `bs` as `a`, whatever follows. -/
def Reads (c : C) (g : GetM C α) (bs : List UInt8) (a : α) : Prop :=
  ∀ r rest, r.rest = bs ++ rest → ∃ r', g c r = some (a, r') ∧ r'.rest = rest ∧ r'.bytes = r.bytes

/-- What `p` writes in the context `c`, the reader `g` reads as `a` in `c'`. -/
def Forward (c c' : C) (p : PutM C Unit) (g : GetM C α) (a : α) : Prop :=
  ∀ out out', p c out = some ((), out') → ∃ bs, out' = out ++ bs ∧ Reads c' g bs a

variable {c c' : C} {p q : PutM C Unit} {g : GetM C α} {k : α → GetM C β} {a : α} {b : β} {bs bs' : List UInt8}

theorem Reads.pure : Reads c (Pure.pure a) [] a :=
  fun r _ h => ⟨r, rfl, h, rfl⟩

theorem Reads.bind (h₁ : Reads c g bs a) (h₂ : Reads c (k a) bs' b) : Reads c (g >>= k) (bs ++ bs') b := by
  intro r rest hrest
  rw [append_assoc] at hrest
  obtain ⟨r₁, hg, hrest₁, hbytes₁⟩ := h₁ r _ hrest
  obtain ⟨r₂, hk, hrest₂, hbytes₂⟩ := h₂ r₁ _ hrest₁
  refine ⟨r₂, ?_, hrest₂, hbytes₂.trans hbytes₁⟩
  show (g c r).bind (fun x => k x.1 c x.2) = _
  rw [hg, Option.bind_some, hk]

theorem Forward.pure : Forward c c' (Pure.pure ()) (Pure.pure a) a := by
  intro out out' h
  obtain ⟨-, rfl⟩ : () = () ∧ out = out' := by simpa using Option.some.inj h
  exact ⟨[], (append_nil out).symm, .pure⟩

theorem Forward.bind (h₁ : Forward c c' p g a) (h₂ : Forward c c' q (k a) b) :
    Forward c c' (p >>= fun _ => q) (g >>= k) b := by
  intro out out' h
  obtain ⟨⟨⟨⟩, out₁⟩, hp, hq⟩ := Option.bind_eq_some_iff.mp h
  obtain ⟨bs₁, rfl, hreads₁⟩ := h₁ _ _ hp
  obtain ⟨bs₂, rfl, hreads₂⟩ := h₂ _ _ hq
  exact ⟨bs₁ ++ bs₂, append_assoc .., hreads₁.bind hreads₂⟩

theorem Forward.finish (h : Forward c c' p g a) (hk : k a = Pure.pure b) : Forward c c' p (g >>= k) b := by
  intro out out' hp
  obtain ⟨bs, rfl, hreads⟩ := h _ _ hp
  refine ⟨bs, rfl, ?_⟩
  rw [← append_nil bs]
  exact hreads.bind (by rw [hk]; exact .pure)

theorem Forward.last {f : α → β} (h : Forward c c' p g a) : Forward c c' p (g >>= fun x => Pure.pure (f x)) (f a) :=
  h.finish rfl

theorem Forward.congr (h : Forward c c' p g a) (hp : p' c = p c) (hg : g' c' = g c') : Forward c c' p' g' a := by
  intro out out' hrun
  obtain ⟨bs, rfl, hreads⟩ := h out out' (hp ▸ hrun)
  refine ⟨bs, rfl, fun r rest hrest => ?_⟩
  rw [hg]
  exact hreads r rest hrest

theorem forward_bytes (h : Reads c' g bs a) : Forward c c' (putBytes bs) g a := by
  intro out out' hp
  obtain rfl : out ++ bs = out' := congrArg Prod.snd (Option.some.inj hp)
  exact ⟨bs, rfl, h⟩

theorem reads_byte : Reads c getByte [u] u := by
  intro r rest hrest
  have hlen : r.pos < r.bytes.length := by
    have := r.length_rest
    rw [hrest, cons_append, length_cons] at this
    omega
  have hdrop : r.bytes[r.pos] :: r.bytes.drop (r.pos + 1) = [u] ++ rest := by
    rw [← hrest, Reader.rest, drop_eq_getElem_cons hlen]
  obtain ⟨hu, htail⟩ := List.cons.inj hdrop
  refine ⟨⟨r.bytes, r.pos + 1, hlen⟩, ?_, htail, rfl⟩
  simp [getByte, hlen, hu]

theorem forward_byte : Forward c c' (putByte u) getByte u := forward_bytes reads_byte

theorem reads_take : Reads c (take bs.length) bs bs := by
  intro r rest hrest
  have hlen : r.pos + bs.length ≤ r.bytes.length := by
    have := r.length_rest
    have := r.inRange
    rw [hrest, length_append] at *
    omega
  refine ⟨⟨r.bytes, r.pos + bs.length, hlen⟩, ?_, ?_, rfl⟩
  · have hdrop : r.bytes.drop r.pos = bs ++ rest := hrest
    simp [take, hlen, hdrop]
  · show r.bytes.drop (r.pos + bs.length) = rest
    rw [← drop_drop, show r.bytes.drop r.pos = bs ++ rest from hrest, drop_left]

end Forward

section Backward

/-- Between `r` and `r'` stands what `p` writes. -/
def Parsed (c : C) (p : PutM C Unit) (r r' : Reader) : Prop :=
  ∃ bs, (∀ out, p c out = some ((), out ++ bs)) ∧ r.rest = bs ++ r'.rest ∧ r'.bytes = r.bytes

/-- Where the reader `g` succeeds, `Q` holds of its result and of where it ends. -/
def Ensures (c : C) (g : GetM C α) (r : Reader) (Q : α → Reader → Prop) : Prop :=
  ∀ a r', g c r = some (a, r') → Q a r'

variable {c : C} {p q : PutM C Unit} {g : GetM C α} {k : α → GetM C β} {r r₁ r₂ : Reader}

theorem Parsed.refl : Parsed c (pure ()) r r :=
  ⟨[], fun out => by rw [append_nil]; rfl, rfl, rfl⟩

theorem Parsed.bind (h₁ : Parsed c p r r₁) (h₂ : Parsed c q r₁ r₂) : Parsed c (p >>= fun _ => q) r r₂ := by
  obtain ⟨bs₁, hp, hrest₁, hbytes₁⟩ := h₁
  obtain ⟨bs₂, hq, hrest₂, hbytes₂⟩ := h₂
  refine ⟨bs₁ ++ bs₂, fun out => ?_, ?_, hbytes₂.trans hbytes₁⟩
  · show (p c out).bind (fun x => q c x.2) = _
    rw [hp, Option.bind_some, hq, append_assoc]
  · rw [hrest₁, hrest₂, append_assoc]

theorem Ensures.bind {Q : β → Reader → Prop}
    (h : Ensures c g r fun a r₁ => Ensures c (k a) r₁ Q) : Ensures c (g >>= k) r Q := by
  intro b r' hrun
  obtain ⟨⟨a, r₁⟩, hg, hk⟩ := Option.bind_eq_some_iff.mp hrun
  exact h a r₁ hg b r' hk

variable {Q : α → Reader → Prop}

theorem Ensures.pure (h : Q a r) : Ensures c (Pure.pure a) r Q := by
  intro b r' hrun
  cases hrun
  exact h

theorem Ensures.imp {Q' : α → Reader → Prop} (h : Ensures c g r Q) (himp : ∀ a r', Q a r' → Q' a r') :
    Ensures c g r Q' :=
  fun a r' hrun => himp a r' (h a r' hrun)

theorem Ensures.congr (h : Ensures c g r Q) (hg : g' c = g c) : Ensures c g' r Q :=
  fun a r' hrun => h a r' (hg ▸ hrun)

theorem Parsed.congr (h : Parsed c p r r₁) (hp : p' c = p c) : Parsed c p' r r₁ := by
  obtain ⟨bs, hrun, hrest⟩ := h
  exact ⟨bs, fun out => hp ▸ hrun out, hrest⟩

theorem ensures_invalid : Ensures c invalid r Q := by
  intro _ _ hrun
  cases hrun

theorem Ensures.guard {P : Prop} [Decidable P] (h : ¬ P → Ensures c g r Q) :
    Ensures c (if P then invalid else g) r Q := by
  by_cases hP : P
  · rw [if_pos hP]
    exact ensures_invalid
  · rw [if_neg hP]
    exact h hP

theorem ensures_byte : Ensures c getByte r fun u r' => Parsed c (putByte u) r r' := by
  intro u r' hrun
  unfold getByte at hrun
  split at hrun
  · rename_i hlen
    cases hrun
    exact ⟨[r.bytes[r.pos]], fun _ => rfl, drop_eq_getElem_cons hlen, rfl⟩
  · cases hrun

theorem ensures_take {n : Nat} : Ensures c (take n) r fun bs r' => bs.length = n ∧ Parsed c (putBytes bs) r r' := by
  intro bs r' hrun
  unfold take at hrun
  split at hrun
  · rename_i hlen
    cases hrun
    refine ⟨by simp; omega, (r.bytes.drop r.pos).take n, fun _ => rfl, ?_, rfl⟩
    show r.bytes.drop r.pos = (r.bytes.drop r.pos).take n ++ r.bytes.drop (r.pos + n)
    rw [← drop_drop, take_append_drop]
  · cases hrun

end Backward

/-! ## Numbers -/

section Numbers

theorem numberBytes_succ (groups value : Nat) : numberBytes (groups + 1) value =
      if value / 128 = 0 then [UInt8.ofNat (value % 128)]
      else (UInt8.ofNat (value % 128) ||| 0x80) :: numberBytes groups (value / 128) := by
  rw [numberBytes, Nat.and_two_pow_sub_one_eq_mod value 7, Nat.shiftRight_eq_div_pow]

theorem group_bits : ∀ low < 128, ((UInt8.ofNat low &&& 0x7f).toNat = low ∧ UInt8.ofNat low &&& 0x80 = 0
      ∧ (UInt8.ofNat low = 0 → low = 0)) ∧
    (((UInt8.ofNat low ||| 0x80) &&& 0x7f).toNat = low ∧ (UInt8.ofNat low ||| 0x80) &&& 0x80 ≠ 0) := by
  decide +kernel

theorem byte_group (u : UInt8) : (u &&& 0x7f).toNat < 128 ∧ (u &&& 0x80 = 0 → u = UInt8.ofNat (u &&& 0x7f).toNat) ∧
    (u &&& 0x80 ≠ 0 → u = UInt8.ofNat (u &&& 0x7f).toNat ||| 0x80) := by
  have hall : ∀ n < 256, (UInt8.ofNat n &&& 0x7f).toNat < 128 ∧
      (UInt8.ofNat n &&& 0x80 = 0 → UInt8.ofNat n = UInt8.ofNat (UInt8.ofNat n &&& 0x7f).toNat) ∧
      (UInt8.ofNat n &&& 0x80 ≠ 0 → UInt8.ofNat n = UInt8.ofNat (UInt8.ofNat n &&& 0x7f).toNat ||| 0x80) := by
    decide +kernel
  simpa using hall u.toNat (UInt8.toNat_lt u)

variable {value shift groups acc : Nat} {bs : List UInt8}

theorem or_shiftLeft {low : Nat} (h : value < 2 ^ shift) : value ||| (low <<< shift) = value + low * 2 ^ shift := by
  rw [Nat.or_comm, ← Nat.shiftLeft_add_eq_or_of_lt h, Nat.shiftLeft_eq, Nat.add_comm]

variable {c : C} {r : Reader}

theorem Reads.byte {k : UInt8 → GetM C α} (h : Reads c (k u) bs a) : Reads c (getByte >>= k) (u :: bs) a := by
  show Reads c (getByte >>= k) ([u] ++ bs) a
  exact reads_byte.bind h

theorem shifted_lt (hvalue : value * 2 ^ shift < 2 ^ 128) (h : shift = 126) : value < 4 := by
  subst h
  by_contra hge
  have : 4 * 2 ^ 126 ≤ value * 2 ^ 126 := Nat.mul_le_mul_right _ (by omega)
  omega

theorem reads_groups (hshift : shift + 7 * (groups + 1) = 133) (hacc : acc < 2 ^ shift)
    (hvalue : value * 2 ^ shift < 2 ^ 128) (hlast : shift ≠ 0 → value ≠ 0) :
    Reads c (getGroups (groups + 1) shift acc) (numberBytes (groups + 1) value) (acc + value * 2 ^ shift) := by
  induction groups generalizing shift acc value with
  | zero =>
    obtain rfl : shift = 126 := by omega
    have hsmall := shifted_lt hvalue rfl
    obtain ⟨⟨hbits, hend, hzero⟩, -⟩ := group_bits value (by omega)
    rw [numberBytes_succ, if_pos (by omega), show value % 128 = value by omega, getGroups]
    apply Reads.byte
    have hle : ¬ ((126 : Nat) = 126 ∧ UInt8.ofNat value &&& 0x7f > 0b11) := by
      rintro ⟨-, hgt⟩
      have hgt := UInt8.lt_iff_toNat_lt.mp hgt
      rw [hbits, show (0b11 : UInt8).toNat = 3 from rfl] at hgt
      omega
    have hshort : ¬ (UInt8.ofNat value = 0 ∧ (126 : Nat) ≠ 0) := by
      rintro ⟨h0, hne⟩
      exact hlast hne (hzero h0)
    rw [if_neg hle, if_pos hend, if_neg hshort, hbits, or_shiftLeft hacc]
    exact .pure
  | succ groups ih =>
    have hlow : value % 128 < 128 := Nat.mod_lt _ (by decide)
    obtain ⟨⟨hbits, hend, hzero⟩, hbits', hmore⟩ := group_bits _ hlow
    have hne : shift ≠ 126 := by omega
    rw [numberBytes_succ, getGroups]
    split
    · rename_i hrest
      apply Reads.byte
      have hshort : ¬ (UInt8.ofNat (value % 128) = 0 ∧ shift ≠ 0) := by
        rintro ⟨h0, hne⟩
        have := hlast hne
        have := hzero h0
        omega
      rw [if_neg (fun h => hne h.1), if_pos hend, if_neg hshort, hbits, or_shiftLeft hacc,
        show value % 128 = value by omega]
      exact .pure
    · rename_i hrest
      apply Reads.byte
      rw [if_neg (fun h => hne h.1), if_neg hmore, hbits', or_shiftLeft hacc]
      have hpow : 2 ^ (shift + 7) = 128 * 2 ^ shift := by ring
      have hsplit : value * 2 ^ shift = value % 128 * 2 ^ shift + value / 128 * 2 ^ (shift + 7) := by
        conv_lhs => rw [← Nat.mod_add_div value 128]
        rw [hpow]
        ring
      have hacc' : acc + value % 128 * 2 ^ shift < 2 ^ (shift + 7) := by
        have : value % 128 * 2 ^ shift ≤ 127 * 2 ^ shift := Nat.mul_le_mul_right _ (by omega)
        omega
      have hvalue' : value / 128 * 2 ^ (shift + 7) < 2 ^ 128 := by omega
      rw [hsplit, ← Nat.add_assoc]
      exact ih (by omega) hacc' hvalue' (fun _ => hrest)

theorem reads_number (h : value < 2 ^ 128) : Reads c getNumber (numberBytes 19 value) value := by
  have hread : Reads c (getGroups 19 0 0) (numberBytes 19 value) (0 + value * 2 ^ 0) :=
    reads_groups rfl (by decide) (by simpa using h) (fun h => absurd rfl h)
  rwa [Nat.zero_add, Nat.pow_zero, Nat.mul_one] at hread

theorem forward_number {c' : C} (h : value < 2 ^ 128) : Forward c c' (putNumber value) getNumber value :=
  forward_bytes (reads_number h)

theorem Parsed.byte {r₁ r₂ : Reader} (h₁ : Parsed c (putByte u) r r₁) (h₂ : Parsed c (putBytes bs) r₁ r₂) :
    Parsed c (putBytes (u :: bs)) r r₂ := by
  obtain ⟨bs₁, hp, hrest₁, hbytes₁⟩ := h₁.bind h₂
  refine ⟨bs₁, fun out => ?_, hrest₁, hbytes₁⟩
  rw [← hp out]
  show some ((), out ++ u :: bs) = some ((), (out ++ [u]) ++ bs)
  rw [append_assoc, singleton_append]

theorem ensures_groups (hshift : shift + 7 * (groups + 1) = 133) (hacc : acc < 2 ^ shift) :
    Ensures c (getGroups (groups + 1) shift acc) r fun v r' =>
      ∃ value, v = acc + value * 2 ^ shift ∧ (value + 1) * 2 ^ shift ≤ 2 ^ 128
        ∧ (shift ≠ 0 → value ≠ 0) ∧ Parsed c (putBytes (numberBytes (groups + 1) value)) r r' := by
  induction groups generalizing shift acc r with
  | zero =>
    obtain rfl : shift = 126 := by omega
    rw [getGroups]
    refine Ensures.bind (ensures_byte.imp fun u r₁ hu => Ensures.guard fun hle => ?_)
    obtain ⟨hlow, hend, -⟩ := byte_group u
    have hsmall : (u &&& 0x7f).toNat < 4 := by
      have h3 : (0b11 : UInt8).toNat = 3 := rfl
      have hnot : ¬ (u &&& 0x7f > 0b11) := fun h => hle ⟨rfl, h⟩
      rw [gt_iff_lt, UInt8.lt_iff_toNat_lt, h3] at hnot
      omega
    split
    · rename_i hzero
      refine Ensures.guard fun hshort => Ensures.pure ⟨(u &&& 0x7f).toNat, ?_, ?_, ?_, ?_⟩
      · exact or_shiftLeft hacc
      · omega
      · intro _ h0
        refine hshort ⟨?_, by decide⟩
        rw [hend hzero, h0]
        rfl
      · rw [numberBytes_succ, if_pos (by omega), Nat.mod_eq_of_lt hlow, ← hend hzero]
        exact hu
    · exact ensures_invalid
  | succ groups ih =>
    rw [getGroups]
    refine Ensures.bind (ensures_byte.imp fun u r₁ hu => Ensures.guard fun hle => ?_)
    obtain ⟨hlow, hend, hmore⟩ := byte_group u
    have hpow : 2 ^ (shift + 7) = 128 * 2 ^ shift := by ring
    have htop : ((u &&& 0x7f).toNat + 1) * 2 ^ shift ≤ 128 * 2 ^ shift :=
      Nat.mul_le_mul_right _ (by omega)
    have hroom : 2 ^ (shift + 7) ≤ 2 ^ 128 := Nat.pow_le_pow_right (by decide) (by omega)
    split
    · rename_i hzero
      refine Ensures.guard fun hshort => Ensures.pure ⟨(u &&& 0x7f).toNat, ?_, by omega, ?_, ?_⟩
      · exact or_shiftLeft hacc
      · intro hne h0
        refine hshort ⟨?_, hne⟩
        rw [hend hzero, h0]
        rfl
      · rw [numberBytes_succ, if_pos (by omega), Nat.mod_eq_of_lt hlow, ← hend hzero]
        exact hu
    · rename_i hnext
      rw [or_shiftLeft hacc]
      have hacc' : acc + (u &&& 0x7f).toNat * 2 ^ shift < 2 ^ (shift + 7) := by
        rw [Nat.succ_mul] at htop
        omega
      refine (ih (by omega) hacc').imp fun v r₂ hv => ?_
      obtain ⟨value, rfl, hlt, hne, hparsed⟩ := hv
      refine ⟨(u &&& 0x7f).toNat + 128 * value, by rw [hpow]; ring, ?_, ?_, ?_⟩
      · calc ((u &&& 0x7f).toNat + 128 * value + 1) * 2 ^ shift
            ≤ (128 * (value + 1)) * 2 ^ shift := Nat.mul_le_mul_right _ (by omega)
          _ = (value + 1) * 2 ^ (shift + 7) := by rw [hpow]; ring
          _ ≤ 2 ^ 128 := hlt
      · have := hne (by omega)
        omega
      · have := hne (by omega)
        rw [numberBytes_succ, if_neg (by omega), Nat.add_mul_mod_self_left,
          Nat.mod_eq_of_lt hlow, ← hmore hnext, Nat.add_mul_div_left _ _ (by decide),
          Nat.div_eq_of_lt hlow, Nat.zero_add]
        exact hu.byte hparsed

theorem ensures_number : Ensures c getNumber r fun v r' => v < 2 ^ 128 ∧ Parsed c (putNumber v) r r' := by
  refine (ensures_groups rfl (by decide)).imp fun v r' hv => ?_
  obtain ⟨value, rfl, hlt, -, hparsed⟩ := hv
  rw [Nat.pow_zero, Nat.mul_one] at *
  rw [Nat.zero_add]
  exact ⟨hlt, hparsed⟩

end Numbers

end WireFormat
