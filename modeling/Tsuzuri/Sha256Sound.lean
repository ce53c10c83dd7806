import Tsuzuri.FrontendSound

/-!
# Hashing in parts (`cache.rs`)

However a message is split, the hash is the one of FIPS 180-4, whose schedule and variables are sequences here.
-/

namespace Tsuzuri.Sha256

open List
open Frontend (toLe utf8)

/-- `Sha256`; of the buffer only the `buffered` bytes in use. -/
structure Hasher where
  state : State
  buffer : List UInt8
  length : UInt64

namespace Hasher

def new : Hasher := ⟨.init, [], 0⟩

/-- The loop of `update` over whole blocks; the rest is buffered. -/
def blocks (state : State) (length : UInt64) (bytes : List UInt8) : Hasher :=
  ⟨compressAll (bytes.length / 64) bytes state, bytes.drop (bytes.length / 64 * 64), length⟩

def update (s : Hasher) (bytes : List UInt8) : Hasher :=
  let length := s.length + UInt64.ofNat bytes.length
  if s.buffer.length ≠ 0 then
    let count := min bytes.length (64 - s.buffer.length)
    let buffer := s.buffer ++ bytes.take count
    if buffer.length ≠ 64 then { s with buffer, length }
    else blocks (compress s.state buffer) length (bytes.drop count)
  else blocks s.state length bytes

def field (s : Hasher) (tag : String) (bytes : List UInt8) : Hasher :=
  let s := s.update (toLe 8 (utf8 tag).length)
  let s := s.update (utf8 tag)
  let s := s.update (toLe 8 bytes.length)
  s.update bytes

def toBe64 (bits : UInt64) : List UInt8 :=
  toBe (bits >>> 32).toUInt32 ++ toBe bits.toUInt32

def finalize (s : Hasher) : Digest :=
  let bits := s.length * 8
  let s := s.update [0x80]
  let padding := if s.buffer.length ≤ 56 then 56 - s.buffer.length else 120 - s.buffer.length
  let s := s.update (replicate padding 0)
  let s := s.update (toBe64 bits)
  ⟨s.state.bytes, rfl⟩

end Hasher

/-! ## Updates -/

variable {message bytes : List UInt8} {state : State} {n : Nat}

theorem compressAll_add (m : Nat) : ∀ (n : Nat) (message : List UInt8) (state : State),
    compressAll (n + m) message state = compressAll m (message.drop (64 * n)) (compressAll n message state) := by
  intro n
  induction n with
  | zero =>
    intro message state
    rw [Nat.zero_add]
    rfl
  | succ n ih =>
    intro message state
    rw [Nat.add_right_comm, compressAll, compressAll, ih, drop_drop, Nat.mul_succ, Nat.add_comm 64]

theorem compressAll_append : ∀ (n : Nat) (message : List UInt8) (state : State), 64 * n ≤ message.length →
    compressAll n (message ++ bytes) state = compressAll n message state := by
  intro n
  induction n with
  | zero => exact fun _ _ _ => rfl
  | succ n ih =>
    intro message state h
    rw [compressAll, compressAll, take_append_of_le_length (by omega), drop_append_of_le_length (by omega)]
    exact ih _ _ (by rw [length_drop]; omega)

def absorbed (message : List UInt8) : Hasher :=
  .blocks .init (UInt64.ofNat message.length) message

theorem absorbed_eq (h : message.length / 64 = n) : absorbed message =
    ⟨compressAll n message .init, message.drop (n * 64), UInt64.ofNat message.length⟩ := by
  subst h
  rfl

theorem length_buffer (message : List UInt8) : (absorbed message).buffer.length = message.length % 64 := by
  simp only [absorbed, Hasher.blocks, length_drop]
  omega

theorem absorbed_update (message bytes : List UInt8) :
    (absorbed message).update bytes = absorbed (message ++ bytes) := by
  have hbuffer := length_buffer message
  have hlength : (absorbed message).length + UInt64.ofNat bytes.length = UInt64.ofNat (message ++ bytes).length := by
    rw [length_append, UInt64.ofNat_add]
    rfl
  have hsplit := Nat.div_add_mod message.length 64
  have hstate : (absorbed message).state = compressAll (message.length / 64) (message ++ bytes) .init :=
    (compressAll_append _ _ _ (by omega)).symm
  have hdrop : ∀ count, (message ++ bytes).drop (message.length / 64 * 64 + count) =
      ((absorbed message).buffer ++ bytes).drop count := by
    intro count
    rw [← drop_drop, drop_append_of_le_length (by omega)]
    rfl
  unfold Hasher.update
  simp only [hlength]
  by_cases hempty : (absorbed message).buffer.length = 0
  · have hbytes : (message ++ bytes).drop (message.length / 64 * 64) = bytes := by
      rw [← Nat.add_zero (_ * 64), hdrop, drop_zero, length_eq_zero_iff.mp hempty, nil_append]
    have hcount : (message ++ bytes).length / 64 = message.length / 64 + bytes.length / 64 := by
      rw [length_append]
      omega
    rw [if_neg (by omega), absorbed_eq hcount, Hasher.blocks, hstate, compressAll_add, Nat.add_mul, ← drop_drop,
      Nat.mul_comm 64, hbytes]
  rw [if_pos hempty]
  by_cases hfull : (absorbed message).buffer.length + bytes.length < 64
  · -- the block is not full
    have hcount : (message ++ bytes).length / 64 = message.length / 64 := by
      rw [length_append]
      omega
    rw [if_pos (by rw [length_append, length_take]; omega), take_of_length_le (by omega), absorbed_eq hcount, hstate,
      ← Nat.add_zero (_ * 64), hdrop, drop_zero]
  have hmin : min bytes.length (64 - (absorbed message).buffer.length) = 64 - (absorbed message).buffer.length := by
    omega
  have hshort : (absorbed message).buffer.take 64 = (absorbed message).buffer ∧
      (absorbed message).buffer.drop 64 = [] :=
    ⟨take_of_length_le (by omega), drop_of_length_le (by omega)⟩
  have hblock : (absorbed message).buffer ++ bytes.take (64 - (absorbed message).buffer.length) =
      ((message ++ bytes).drop (64 * (message.length / 64))).take 64 := by
    rw [Nat.mul_comm, ← Nat.add_zero (_ * 64), hdrop, drop_zero, take_append, hshort.1]
  have hrest : bytes.drop (64 - (absorbed message).buffer.length) =
      (message ++ bytes).drop ((message.length / 64 + 1) * 64) := by
    rw [Nat.succ_mul, hdrop, drop_append, hshort.2, nil_append]
  have hcount : (message ++ bytes).length / 64 = message.length / 64 + 1 +
      (bytes.drop (64 - (absorbed message).buffer.length)).length / 64 := by
    rw [length_append, length_drop]
    omega
  have hfilled : ((absorbed message).buffer ++ bytes.take (64 - (absorbed message).buffer.length)).length = 64 := by
    rw [length_append, length_take]
    omega
  rw [hmin, if_neg (by omega), absorbed_eq hcount, Hasher.blocks, hstate, hblock, compressAll_add, compressAll_add,
    Nat.mul_comm 64 (_ + 1), ← hrest, Nat.add_mul, ← drop_drop, ← hrest]
  rfl

theorem foldl_update (parts : List (List UInt8)) (message : List UInt8) :
    parts.foldl Hasher.update (absorbed message) = absorbed (message ++ parts.flatten) := by
  induction parts generalizing message with
  | nil =>
    rw [flatten_nil, append_nil]
    rfl
  | cons part parts ih => rw [foldl_cons, absorbed_update, ih, flatten_cons, append_assoc]

theorem toBe64_length (message : List UInt8) : Hasher.toBe64 ((absorbed message).length * 8) =
    toBe (UInt32.ofNat (8 * message.length / 0x100000000)) ++ toBe (UInt32.ofNat (8 * message.length)) := by
  have hbits : ((absorbed message).length * 8).toNat = 8 * message.length % 0x10000000000000000 := by
    have height : (8 : UInt64).toNat = 8 := rfl
    simp only [absorbed, Hasher.blocks, UInt64.toNat_mul, UInt64.toNat_ofNat', height]
    omega
  have hhigh : (((absorbed message).length * 8) >>> 32).toNat =
      8 * message.length % 0x10000000000000000 / 0x100000000 := by
    rw [UInt64.toNat_shiftRight, hbits, Nat.shiftRight_eq_div_pow]
    rfl
  unfold Hasher.toBe64
  congr 2
  · apply UInt32.toNat_inj.mp
    rw [UInt64.toNat_toUInt32, hhigh, UInt32.toNat_ofNat']
    omega
  · apply UInt32.toNat_inj.mp
    rw [UInt64.toNat_toUInt32, hbits, UInt32.toNat_ofNat']
    omega

theorem finalize_absorbed (message : List UInt8) : (absorbed message).finalize = finalize message := by
  have hbuffer := length_buffer (message ++ [0x80])
  rw [length_append, length_singleton] at hbuffer
  apply Subtype.ext
  simp only [Hasher.finalize, absorbed_update, toBe64_length, hbuffer, append_assoc]
  simp only [finalize, padded, append_assoc]
  rfl

def choice (x y z : UInt32) : UInt32 := (x &&& y) ^^^ (~~~x &&& z)
def majority (x y z : UInt32) : UInt32 := (x &&& y) ^^^ (x &&& z) ^^^ (y &&& z)
def upper0 (x : UInt32) : UInt32 := rotateRight x 2 ^^^ rotateRight x 13 ^^^ rotateRight x 22
def upper1 (x : UInt32) : UInt32 := rotateRight x 6 ^^^ rotateRight x 11 ^^^ rotateRight x 25
def lower0 (x : UInt32) : UInt32 := rotateRight x 7 ^^^ rotateRight x 18 ^^^ (x >>> 3)
def lower1 (x : UInt32) : UInt32 := rotateRight x 17 ^^^ rotateRight x 19 ^^^ (x >>> 10)

def wordAt (block : List UInt8) (t : Nat) : UInt32 :=
  ((block.getD (4 * t) 0).toUInt32 <<< 24) ||| ((block.getD (4 * t + 1) 0).toUInt32 <<< 16) |||
    ((block.getD (4 * t + 2) 0).toUInt32 <<< 8) ||| (block.getD (4 * t + 3) 0).toUInt32

/-- The message schedule of a block. -/
structure Schedule (block : List UInt8) (w : Nat → UInt32) : Prop where
  first : ∀ t < 16, w t = wordAt block t
  later : ∀ t, 16 ≤ t → t < 64 → w t = lower1 (w (t - 2)) + w (t - 7) + lower0 (w (t - 15)) + w (t - 16)

/-- The working variables before step `t`. -/
def working (w : Nat → UInt32) (s : State) : Nat → State
  | 0 => s
  | t + 1 =>
    let v := working w s t
    let t1 := v.h + upper1 v.e + choice v.e v.f v.g + round.getD t 0 + w t
    let t2 := upper0 v.a + majority v.a v.b v.c
    ⟨t1 + t2, v.a, v.b, v.c, v.d + t1, v.e, v.f, v.g⟩

def Compresses (s : State) (block : List UInt8) (s' : State) : Prop :=
  ∃ w, Schedule block w ∧ s' =
    let v := working w s 64
    ⟨v.a + s.a, v.b + s.b, v.c + s.c, v.d + s.d, v.e + s.e, v.f + s.f, v.g + s.g, v.h + s.h⟩

/-- A one bit, as few zero bits as fill the last block up to 64, and the length in bits. -/
def Padding (message whole : List UInt8) : Prop :=
  message.length < 2305843009213693952 ∧ ∃ zeros < 64, (message.length + 1 + zeros) % 64 = 56 ∧
    whole = message ++ (0x80 : UInt8) :: replicate zeros 0 ++
    (List.range 8).map (fun i => UInt8.ofNat ((8 * message.length) >>> (8 * (7 - i))))

def Hashes (message digest : List UInt8) : Prop :=
  ∃ (whole : List UInt8) (hash : Nat → State), Padding message whole ∧ hash 0 = .init ∧
    (∀ i < whole.length / 64, Compresses (hash i) ((whole.drop (64 * i)).take 64) (hash (i + 1))) ∧
    digest = (hash (whole.length / 64)).bytes

def primes : List Nat :=
  (List.range 312).filter fun p => 1 < p && (List.range p).all fun d => d < 2 || p % d ≠ 0

/-- The first 32 bits of the fractional part of the root of degree `degree` of `p`. -/
def RootBits (degree p : Nat) (bits : UInt32) : Prop :=
  ∃ whole < 8, (4294967296 * whole + bits.toNat) ^ degree ≤ 4294967296 ^ degree * p ∧
    4294967296 ^ degree * p < (4294967296 * whole + bits.toNat + 1) ^ degree

theorem primes_eq : primes =
    (List.range 312).filter fun p => 1 < p && (List.range (min p 18)).all fun d => d < 2 || p % d ≠ 0 := by
  refine filter_congr fun p hp => congrArg (decide (1 < p) && ·) ?_
  have hp := mem_range.1 hp
  rw [Bool.eq_iff_iff, all_eq_true, all_eq_true]
  simp only [mem_range, Bool.or_eq_true, decide_eq_true_eq]
  constructor
  · exact fun h d hd => h d (by omega)
  · intro h d hd
    by_contra hdvd
    have hone : 2 ≤ d := Nat.le_of_not_lt fun hlt => hdvd (.inl hlt)
    have hzero : p % d = 0 := by_contra fun hne => hdvd (.inr hne)
    by_cases hlow : d < 18
    · exact hdvd (h d (by omega))
    · -- the other factor is below 18
      have hmul : d * (p / d) = p := Nat.mul_div_cancel' (Nat.dvd_of_mod_eq_zero hzero)
      have hquot : p / d < 18 := Nat.div_lt_of_lt_mul (by omega)
      rcases h (p / d) (Nat.lt_min.2 ⟨Nat.div_lt_self (by omega) hone, hquot⟩) with hsmall | hrest
      · obtain hnone | hsame := Nat.le_one_iff_eq_zero_or_eq_one.1 (Nat.le_of_lt_succ hsmall)
        · rw [hnone] at hmul
          omega
        · rw [hsame] at hmul
          omega
      · exact hrest (Nat.mod_eq_zero_of_dvd ⟨d, by rw [Nat.mul_comm, hmul]⟩)

theorem round_roots : round.length = 64 ∧ ∀ t < 64, RootBits 3 (primes.getD t 0) (round.getD t 0) := by
  rw [primes_eq]
  unfold RootBits
  decide +kernel

theorem init_roots : ∀ pair ∈ primes.zip [State.init.a, State.init.b, State.init.c, State.init.d, State.init.e,
    State.init.f, State.init.g, State.init.h], RootBits 2 pair.1 pair.2 := by
  unfold RootBits
  decide +kernel

/-! ### The schedule -/

theorem words_getD : ∀ (block : List UInt8) (t : Nat), 4 * t + 3 < block.length →
    (words block)[t]? = some (wordAt block t)
  | a :: b :: c :: d :: block, 0, _ => rfl
  | a :: b :: c :: d :: block, t + 1, h => by
    have hrest := words_getD block t (by simp only [length_cons] at h; omega)
    rw [words, getElem?_cons_succ, hrest]
    simp only [wordAt, Nat.mul_succ]
    rfl
  | [], t, h => by cases h
  | [_], t, h => by simp at h
  | [_, _], t, h | [_, _, _], t, h => by
    simp only [length_cons, length_nil] at h
    omega

theorem length_words : ∀ block : List UInt8, (words block).length = block.length / 4
  | a :: b :: c :: d :: block => by
    rw [words, length_cons, length_words block]
    simp only [length_cons]
    omega
  | [] => rfl
  | [_] | [_, _] | [_, _, _] => by simp [words]

/-- The words follow the schedule of the block, as far as there are words. -/
structure Scheduled (block : List UInt8) (ws : List UInt32) : Prop where
  length : 16 ≤ ws.length
  first : ∀ t < 16, ws.getD t 0 = wordAt block t
  later : ∀ t, 16 ≤ t → t < ws.length →
    ws.getD t 0 = lower1 (ws.getD (t - 2) 0) + ws.getD (t - 7) 0 + lower0 (ws.getD (t - 15) 0) + ws.getD (t - 16) 0

theorem scheduled_extend {block : List UInt8} : ∀ (n : Nat) (ws : List UInt32), Scheduled block ws →
    Scheduled block (extend n ws) ∧ (extend n ws).length = ws.length + n := by
  intro n
  induction n with
  | zero => exact fun ws h => ⟨h, rfl⟩
  | succ n ih =>
    intro ws h
    have hold : ∀ (word : UInt32) (t : Nat), t < ws.length → (ws ++ [word]).getD t 0 = ws.getD t 0 := by
      intro word t ht
      simp only [getD_eq_getElem?_getD, getElem?_append_left ht]
    have hlength := h.length
    generalize hword : ws.getD (ws.length - 16) 0 + lower0 (ws.getD (ws.length - 15) 0) +
      ws.getD (ws.length - 7) 0 + lower1 (ws.getD (ws.length - 2) 0) = word
    have hextend : extend (n + 1) ws = extend n (ws ++ [word]) := hword ▸ rfl
    have hlonger : (ws ++ [word]).length = ws.length + 1 := length_append
    have hnext : Scheduled block (ws ++ [word]) := by
      refine ⟨by omega, fun t ht => ?_, fun t ht hlt => ?_⟩
      · rw [hold word t (by omega), h.first t ht]
      · rw [hold word (t - 2) (by omega), hold word (t - 7) (by omega), hold word (t - 15) (by omega),
          hold word (t - 16) (by omega)]
        rcases Nat.lt_or_eq_of_le (Nat.le_of_lt_succ (hlonger ▸ hlt)) with hlt | rfl
        · rw [hold word t hlt, h.later t ht hlt]
        · rw [getD_eq_getElem?_getD, getElem?_append_right (Nat.le_refl _), Nat.sub_self, getElem?_cons_zero,
            Option.getD_some, ← hword]
          ac_rfl
    obtain ⟨hall, hcount⟩ := ih _ hnext
    rw [hextend]
    exact ⟨hall, by omega⟩

theorem scheduled_words {block : List UInt8} (h : block.length = 64) : Scheduled block (words block) := by
  have hcount := length_words block
  refine ⟨by omega, fun t ht => ?_, fun t ht hlt => by omega⟩
  rw [getD_eq_getElem?_getD, words_getD block t (by omega), Option.getD_some]

theorem Schedule.eq {block : List UInt8} {w : Nat → UInt32} {ws : List UInt32} (h : Schedule block w)
    (hws : Scheduled block ws) (hlength : ws.length = 64) : ∀ t < 64, w t = ws.getD t 0 := by
  intro t
  induction t using Nat.strongRecOn with
  | ind t ih =>
    intro ht
    rcases Nat.lt_or_ge t 16 with hfirst | hlater
    · rw [h.first t hfirst, hws.first t hfirst]
    · rw [h.later t hlater ht, hws.later t hlater (by omega), ih (t - 2) (by omega) (by omega),
        ih (t - 7) (by omega) (by omega), ih (t - 15) (by omega) (by omega), ih (t - 16) (by omega) (by omega)]

theorem variables_eq {w : Nat → UInt32} {ws : List UInt32} (hlength : ws.length = 64)
    (hw : ∀ t < 64, w t = ws.getD t 0) (s : State) : ∀ t ≤ 64,
    working w s t = ((ws.zip round).take t).foldl (fun s (word, round) => s.next word round) s := by
  intro t
  induction t with
  | zero => exact fun _ => rfl
  | succ t ih =>
    intro ht
    have hround : round.length = 64 := rfl
    have hget : (ws.zip round)[t]? = some (w t, round.getD t 0) := by
      rw [getElem?_zip_eq_some, hw t (by omega)]
      simp only [getD_eq_getElem?_getD]
      rw [getElem?_eq_getElem (by omega), getElem?_eq_getElem (by omega)]
      exact ⟨rfl, rfl⟩
    rw [take_add_one, hget, Option.toList_some, foldl_append, ← ih (by omega)]
    rfl

theorem compresses_iff {s s' : State} {block : List UInt8} (h : block.length = 64) :
    Compresses s block s' ↔ s' = compress s block := by
  obtain ⟨hws, hlength⟩ := scheduled_extend 48 _ (scheduled_words h)
  have hcount : (extend 48 (words block)).length = 64 := by
    rw [hlength, length_words, h]
  have hround : round.length = 64 := rfl
  have hrun : ∀ w : Nat → UInt32, (∀ t < 64, w t = (extend 48 (words block)).getD t 0) →
      working w s 64 = ((extend 48 (words block)).zip round).foldl (fun s (word, round) => s.next word round) s := by
    intro w hw
    rw [variables_eq hcount hw s 64 (Nat.le_refl _), take_of_length_le (by rw [length_zip]; omega)]
  constructor
  · rintro ⟨w, hw, rfl⟩
    rw [hrun w (hw.eq hws hcount), compress]
    simp only [UInt32.add_comm]
  · rintro rfl
    refine ⟨fun t => (extend 48 (words block)).getD t 0, ⟨hws.first, fun t ht hlt => hws.later t ht (by omega)⟩, ?_⟩
    rw [hrun _ fun _ _ => rfl, compress]
    simp only [UInt32.add_comm]

theorem length_padded (message : List UInt8) : (padded message).length % 64 = 0 := by
  simp only [padded, length_append, length_replicate, toBe, length_cons, length_nil]
  split <;> omega

theorem toBe_ofNat (n : Nat) : toBe (UInt32.ofNat n) =
    [UInt8.ofNat (n / 16777216), UInt8.ofNat (n / 65536), UInt8.ofNat (n / 256), UInt8.ofNat n] := by
  have hbyte : ∀ (x : UInt32) (m : Nat), x.toNat % 256 = m % 256 → x.toUInt8 = UInt8.ofNat m := by
    intro x m h
    apply UInt8.toNat_inj.mp
    rw [UInt32.toNat_toUInt8, UInt8.toNat_ofNat']
    exact h
  have hword : (UInt32.ofNat n).toNat = n % 4294967296 := UInt32.toNat_ofNat'
  have hshift : ∀ k : UInt32, (UInt32.ofNat n >>> k).toNat = n % 4294967296 / 2 ^ (k.toNat % 32) := by
    intro k
    rw [UInt32.toNat_shiftRight, hword, Nat.shiftRight_eq_div_pow]
  have hhigh : (UInt32.ofNat n >>> 24).toNat = n % 4294967296 / 16777216 := hshift 24
  have hsecond : (UInt32.ofNat n >>> 16).toNat = n % 4294967296 / 65536 := hshift 16
  have hthird : (UInt32.ofNat n >>> 8).toNat = n % 4294967296 / 256 := hshift 8
  unfold toBe
  rw [hbyte _ (n / 16777216) (by omega), hbyte _ (n / 65536) (by omega), hbyte _ (n / 256) (by omega),
    hbyte _ n (by omega)]

theorem length_be (bits : Nat) : toBe (UInt32.ofNat (bits / 0x100000000)) ++ toBe (UInt32.ofNat bits) =
    (List.range 8).map fun i => UInt8.ofNat (bits >>> (8 * (7 - i))) := by
  have hrange : List.range 8 = [0, 1, 2, 3, 4, 5, 6, 7] := rfl
  have hlast : UInt8.ofNat bits = UInt8.ofNat (bits / 1) := by rw [Nat.div_one]
  rw [toBe_ofNat, toBe_ofNat, hrange, hlast]
  simp only [Nat.div_div_eq_div_mul, Nat.shiftRight_eq_div_pow]
  rfl

theorem padding_iff {message whole : List UInt8} (h : message.length < 2305843009213693952) :
    Padding message whole ↔ whole = padded message := by
  have hbits := length_be (8 * message.length)
  constructor
  · rintro ⟨_, zeros, hlt, hmod, rfl⟩
    have hzeros : zeros = if (message.length + 1) % 64 ≤ 56 then 56 - (message.length + 1) % 64
        else 120 - (message.length + 1) % 64 := by
      split <;> omega
    rw [padded, hzeros, ← hbits]
    simp only [append_assoc, cons_append, nil_append]
  · rintro rfl
    refine ⟨h, if (message.length + 1) % 64 ≤ 56 then 56 - (message.length + 1) % 64
        else 120 - (message.length + 1) % 64, ?_, ?_, ?_⟩
    · split <;> omega
    · split <;> omega
    · rw [padded, ← hbits]
      simp only [append_assoc, cons_append, nil_append]

theorem compressAll_snoc (n : Nat) (message : List UInt8) (s : State) :
    compressAll (n + 1) message s = compress (compressAll n message s) ((message.drop (64 * n)).take 64) := by
  rw [compressAll_add]
  rfl

theorem hashes_iff {message digest : List UInt8} (h : message.length < 2305843009213693952) :
    Hashes message digest ↔ digest = (finalize message).1 := by
  have hmod := length_padded message
  have hblock : ∀ i < (padded message).length / 64, (((padded message).drop (64 * i)).take 64).length = 64 := by
    intro i hi
    rw [length_take, length_drop]
    omega
  constructor
  · rintro ⟨whole, hash, hwhole, hfirst, hnext, rfl⟩
    rw [padding_iff h] at hwhole
    subst hwhole
    have hrun : ∀ i ≤ (padded message).length / 64, hash i = compressAll i (padded message) .init := by
      intro i
      induction i with
      | zero => exact fun _ => hfirst
      | succ i ih =>
        intro hi
        rw [(compresses_iff (hblock i hi)).mp (hnext i hi), ih (by omega), compressAll_snoc]
    rw [hrun _ (Nat.le_refl _)]
    rfl
  · rintro rfl
    refine ⟨padded message, fun i => compressAll i (padded message) .init, (padding_iff h).mpr rfl, rfl,
      fun i hi => (compresses_iff (hblock i hi)).mpr (compressAll_snoc i _ _), rfl⟩

def fieldBytes (fields : List (String × List UInt8)) : List UInt8 :=
  fields.flatMap fun f => Frontend.field f.1 f.2

theorem fieldBytes_cons (f : String × List UInt8) (fields : List (String × List UInt8)) :
    fieldBytes (f :: fields) = Frontend.field f.1 f.2 ++ fieldBytes fields := rfl

theorem absorbed_field (message : List UInt8) (tag : String) (bytes : List UInt8) :
    (absorbed message).field tag bytes = absorbed (message ++ Frontend.field tag bytes) := by
  simp only [Hasher.field, absorbed_update, Frontend.field, append_assoc]

theorem foldl_field (fields : List (String × List UInt8)) (message : List UInt8) :
    fields.foldl (fun s f => s.field f.1 f.2) (absorbed message) = absorbed (message ++ fieldBytes fields) := by
  induction fields generalizing message with
  | nil =>
    rw [fieldBytes, flatMap_nil, append_nil]
    rfl
  | cons f fields ih => rw [foldl_cons, absorbed_field, ih, fieldBytes_cons, append_assoc]

def Sized (fields : List (String × List UInt8)) : Prop :=
  ∀ f ∈ fields, (utf8 f.1).length < 18446744073709551616 ∧ f.2.length < 18446744073709551616

theorem toLe_append_inj {x y : Nat} {rest rest' : List UInt8} (hx : x < 18446744073709551616)
    (hy : y < 18446744073709551616) (h : toLe 8 x ++ rest = toLe 8 y ++ rest') : x = y ∧ rest = rest' := by
  obtain ⟨hle, hrest⟩ := append_inj h (by simp)
  have hnumber := congrArg Frontend.ofLe hle
  rw [Frontend.ofLe_toLe 8 x (by simpa using hx), Frontend.ofLe_toLe 8 y (by simpa using hy)] at hnumber
  exact ⟨hnumber, hrest⟩

theorem fieldBytes_inj : ∀ {fields fields' : List (String × List UInt8)}, Sized fields → Sized fields' →
    fieldBytes fields = fieldBytes fields' → fields = fields' := by
  intro fields
  have hne : ∀ (f : String × List UInt8) (fields : List (String × List UInt8)), fieldBytes (f :: fields) ≠ [] := by
    intro f fields h
    have := congrArg List.length h
    simp [fieldBytes, Frontend.field] at this
  induction fields with
  | nil =>
    intro fields' _ _ h
    cases fields' with
    | nil => rfl
    | cons f fields' => exact absurd h.symm (hne f fields')
  | cons f fields ih =>
    intro fields' hfields hfields' h
    cases fields' with
    | nil => exact absurd h (hne f fields)
    | cons g fields' =>
      obtain ⟨hf, hfields⟩ := forall_mem_cons.mp hfields
      obtain ⟨hg, hfields'⟩ := forall_mem_cons.mp hfields'
      simp only [fieldBytes_cons, Frontend.field, append_assoc] at h
      obtain ⟨htag, h⟩ := toLe_append_inj hf.1 hg.1 h
      obtain ⟨hname, h⟩ := append_inj h htag
      obtain ⟨hcount, h⟩ := toLe_append_inj hf.2 hg.2 h
      obtain ⟨hbytes, h⟩ := append_inj h hcount
      rw [ih hfields hfields' h, Prod.ext (Frontend.utf8_inj hname) hbytes]

/-- However a message is split into updates, `finalize` returns its SHA-256, with the constants of the
roots of the first primes; different fields feed different bytes. -/
theorem sha256_fips : (round.length = 64 ∧ (∀ t < 64, RootBits 3 (primes.getD t 0) (round.getD t 0)) ∧
      ∀ pair ∈ primes.zip [State.init.a, State.init.b, State.init.c, State.init.d, State.init.e,
        State.init.f, State.init.g, State.init.h], RootBits 2 pair.1 pair.2) ∧
    (∀ parts : List (List UInt8), parts.flatten.length < 2305843009213693952 → ∀ digest : List UInt8,
      Hashes parts.flatten digest ↔ digest = (parts.foldl Hasher.update .new).finalize.1) ∧
    ∀ fields fields' : List (String × List UInt8), Sized fields → Sized fields' → fields ≠ fields' →
      ∃ bytes bytes' : List UInt8, fields.foldl (fun s f => s.field f.1 f.2) Hasher.new = Hasher.new.update bytes ∧
        fields'.foldl (fun s f => s.field f.1 f.2) Hasher.new = Hasher.new.update bytes' ∧
        bytes = fieldBytes fields ∧ bytes' = fieldBytes fields' ∧ bytes ≠ bytes' := by
  have hnew : Hasher.new = absorbed [] := rfl
  refine ⟨⟨round_roots.1, round_roots.2, init_roots⟩, fun parts hlength digest => ?_,
    fun fields fields' hfields hfields' hne => ⟨_, _, ?_, ?_, rfl, rfl,
      fun h => hne (fieldBytes_inj hfields hfields' h)⟩⟩
  · rw [hashes_iff hlength, hnew, foldl_update, nil_append, finalize_absorbed]
  · rw [hnew, foldl_field, absorbed_update]
  · rw [hnew, foldl_field, absorbed_update]

theorem sha256_fips_split (digest : List UInt8) :
    Hashes [97, 98, 99] digest ↔ digest = (([[97], [98, 99]].foldl Hasher.update Hasher.new).finalize).1 :=
  sha256_fips.2.1 [[97], [98, 99]] (by decide) digest

end Tsuzuri.Sha256
