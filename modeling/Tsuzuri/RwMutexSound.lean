import Tsuzuri.RwMutex

/-!
# RwMutex admits rightly, but a writer that gives up may strand readers

The word counts the readers that hold the lock and the writers that wait, and says whether a writer holds it.
-/

namespace Tsuzuri.RwMutex

open Parking ParkingLot Transition List Nat

/-! ## The fields of the word -/

/-- A word of `r` readers, `w` waiting writers and `b` writers. -/
def pack (r w b : Nat) : Nat := r + 2 ^ 32 * w + 2 ^ 63 * b

/-- The values of the fields of a word. -/
structure Fields (r w b : Nat) : Prop where
  readers_lt : r < 2 ^ 32
  waiters_lt : w < 2 ^ 31
  writer_le : b ≤ 1

theorem and_shiftLeft (x y k : Nat) : x &&& y <<< k = (x >>> k &&& y) <<< k := by
  refine eq_of_testBit_eq fun i => ?_
  rw [testBit_and, testBit_shiftLeft, testBit_shiftLeft, testBit_and, testBit_shiftRight]
  by_cases hi : k ≤ i
  · simp [hi]
  · simp [hi]

section Fields

variable {r w b : Nat} (h : Fields r w b)

include h

theorem and_readers : pack r w b &&& READERS = r := by
  have h1 := h.readers_lt
  rw [show READERS = 2 ^ 32 - 1 by decide, and_two_pow_sub_one_eq_mod, pack]
  omega

theorem and_waiters : pack r w b &&& WAITERS = WAITER * w := by
  have h1 := h.readers_lt
  have h2 := h.waiters_lt
  rw [show WAITERS = (2 ^ 31 - 1) <<< 32 by decide, and_shiftLeft, and_two_pow_sub_one_eq_mod,
    shiftRight_eq_div_pow, shiftLeft_eq, show WAITER = 2 ^ 32 by decide, pack]
  omega

theorem and_writer : pack r w b &&& WRITER = WRITER * b := by
  have h1 := h.readers_lt
  have h2 := h.waiters_lt
  have h3 := h.writer_le
  rw [show WRITER = (2 ^ 1 - 1) <<< 63 by decide, and_shiftLeft, and_two_pow_sub_one_eq_mod,
    shiftRight_eq_div_pow, shiftLeft_eq, shiftLeft_eq, pack]
  omega

theorem open_readers : pack r w b &&& (WRITER ||| WAITERS) = 0 ↔ b = 0 ∧ w = 0 := by
  rw [and_or_distrib_left, or_eq_zero_iff, and_writer h, and_waiters h,
    show WRITER = 2 ^ 63 by decide, show WAITER = 2 ^ 32 by decide]
  omega

theorem open_writers : pack r w b &&& (WRITER ||| READERS) = 0 ↔ b = 0 ∧ r = 0 := by
  rw [and_or_distrib_left, or_eq_zero_iff, and_writer h, and_readers h, show WRITER = 2 ^ 63 by decide]
  omega

theorem or_writer (hb : b = 0) : pack r w b ||| WRITER = pack r w 1 := by
  have h1 := h.readers_lt
  have h2 := h.waiters_lt
  subst hb
  rw [Nat.or_comm, show WRITER = 1 <<< 63 by decide, ← Nat.shiftLeft_add_eq_or_of_lt (by unfold pack; omega)]
  unfold pack
  omega

theorem and_not_writer : pack r w b &&& (2 ^ 64 - 1 - WRITER) = pack r w 0 := by
  have h1 := h.readers_lt
  have h2 := h.waiters_lt
  rw [show 2 ^ 64 - 1 - WRITER = 2 ^ 63 - 1 by decide, and_two_pow_sub_one_eq_mod]
  unfold pack
  omega

theorem pack_lt : pack r w b < 2 ^ 64 := by
  obtain ⟨h1, h2, h3⟩ := h
  unfold pack
  omega

theorem wrap_pack : wrap (pack r w b) = pack r w b := by
  unfold wrap
  exact mod_eq_of_lt (pack_lt h)

theorem wrap_sub {n : Nat} (hn : n ≤ pack r w b) : wrap (pack r w b + 2 ^ 64 - n) = pack r w b - n := by
  have hlt := pack_lt h
  unfold wrap
  generalize pack r w b = word at *
  rw [show word + 2 ^ 64 - n = word - n + 2 ^ 64 by omega, add_mod_right]
  exact mod_eq_of_lt (by omega)

end Fields

theorem pack_readers (r w b n : Nat) : pack (r + n) w b = pack r w b + n := by
  unfold pack
  omega

theorem pack_waiters (r w b : Nat) : pack r (w + 1) b = pack r w b + WAITER := by
  rw [show WAITER = 2 ^ 32 by decide]
  unfold pack
  omega

def reading : Hold ⊕ Code → Prop
  | .inl hold => hold = .read
  | .inr (.again hold) => hold = .read
  | .inr .readUnlock => True
  | _ => False

def writing : Hold ⊕ Code → Prop
  | .inl hold => hold = .write
  | .inr (.again hold) => hold = .write
  | .inr .writeUnlock => True
  | _ => False

def counted : Hold ⊕ Code → Prop
  | .inr (.writeLoad true) => True
  | .inr (.writeTake _ true) => True
  | .inr (.writeWait _) => True
  | .inr .giveUp => True
  | _ => False

instance : DecidablePred reading := fun place => by
  unfold reading
  split <;> infer_instance

instance : DecidablePred writing := fun place => by
  unfold writing
  split <;> infer_instance

instance : DecidablePred counted := fun place => by
  unfold counted
  split <;> infer_instance

def Loaded : Hold ⊕ Code → Prop
  | .inr (.readTake s) => s &&& (WRITER ||| WAITERS) = 0
  | .inr (.readWait s) => s &&& (WRITER ||| WAITERS) ≠ 0
  | .inr (.writeTake s _) => s &&& (WRITER ||| READERS) = 0
  | .inr (.writeCount s) => s &&& (WRITER ||| READERS) ≠ 0
  | .inr (.writeWait s) => s &&& (WRITER ||| READERS) ≠ 0
  | _ => True

variable {G : Type} [DecidableEq G] [Fintype G]

def readers (s : Word rwMutex G) : Nat := tally fun g => reading (s.phase g).place

def writers (s : Word rwMutex G) : Nat := tally fun g => writing (s.phase g).place

def waiters (s : Word rwMutex G) : Nat := tally fun g => counted (s.phase g).place

/-! ## What a step does to the word -/

def Full : Code → Nat → Prop
  | .readTake _, word => word &&& READERS = READERS
  | .writeCount _, word => word &&& WAITERS = WAITERS
  | _, _ => False

structure Counts (r w b r' w' b' : Nat) (p p' : Hold ⊕ Code) : Prop where
  readers_eq : r' + one (reading p) = r + one (reading p')
  waiters_eq : w' + one (counted p) = w + one (counted p')
  writers_eq : b' + one (writing p) = b + one (writing p')

variable {code next : Code} {effect : Nat → List (Nat × Next Code Hold)} {word : Nat}

section Shift

variable {r w b r' w' b' word' : Nat} {p p' : Hold ⊕ Code} (h : Fields r w b) (hexcl : b = 1 → r = 0)
  (hcounts : Counts r w b r' w' b' p p')

include h hexcl hcounts

theorem Counts.same (hr : one (reading p) = one (reading p')) (hw : one (counted p) = one (counted p'))
    (hb : one (writing p) = one (writing p')) (hloaded : Loaded p') :
    pack r w b = pack r' w' b' ∧ Fields r' w' b' ∧ (b' = 1 → r' = 0) ∧ Loaded p' := by
  obtain ⟨h1, h2, h3⟩ := hcounts
  obtain rfl : r' = r := by omega
  obtain rfl : w' = w := by omega
  obtain rfl : b' = b := by omega
  exact ⟨rfl, h, hexcl, hloaded⟩

theorem atomic_fields (hrpos : one (reading p) ≤ r) (hwpos : one (counted p) ≤ w) (hloaded : Loaded p)
    (hp : p = .inr code) (hfits : ¬Full code (pack r w b)) {next : Next Code Hold}
    (hinstr : instr code = .atomic effect) (hmem : (word', next) ∈ effect (pack r w b))
    (hp' : p' = next.place (P := rwMutex)) :
    word' = pack r' w' b' ∧ Fields r' w' b' ∧ (b' = 1 → r' = 0) ∧ Loaded p' := by
  have hb1 := h.writer_le
  have hr1 := h.readers_lt
  have hw1 := h.waiters_lt
  subst hp hp'
  cases code with
  | again hold =>
    obtain ⟨rfl, rfl⟩ := Instr.single hinstr hmem rfl
    exact hcounts.same h hexcl rfl rfl rfl trivial
  | readLoad =>
    obtain ⟨rfl, rfl⟩ := Instr.single hinstr hmem rfl
    by_cases hopen : pack r w b &&& (WRITER ||| WAITERS) = 0
    · rw [if_pos hopen] at hcounts ⊢
      exact hcounts.same h hexcl rfl rfl rfl hopen
    · rw [if_neg hopen] at hcounts ⊢
      exact hcounts.same h hexcl rfl rfl rfl hopen
  | readTake old =>
    cases hinstr
    rcases mem_exchange hmem with ⟨rfl, rfl, rfl⟩ | ⟨rfl, rfl⟩
    · obtain ⟨rfl, rfl⟩ := (open_readers h).mp hloaded
      obtain ⟨h1, h2, h3⟩ := hcounts
      simp [one, reading, counted, writing, Next.place] at h1 h2 h3
      subst h1 h2 h3
      have hroom : r + 1 < 2 ^ 32 := by
        change ¬_ &&& READERS = READERS at hfits
        rw [and_readers h, show READERS = 2 ^ 32 - 1 by decide] at hfits
        omega
      exact ⟨by rw [← pack_readers, wrap_pack ⟨hroom, hw1, hb1⟩], ⟨hroom, hw1, hb1⟩, by omega, trivial⟩
    · exact hcounts.same h hexcl rfl rfl rfl trivial
  | readWait old => exact nomatch hinstr
  | readUnlock =>
    obtain ⟨rfl, rfl⟩ := Instr.single hinstr hmem rfl
    have hpos : 1 ≤ r := hrpos
    obtain ⟨n, rfl⟩ := Nat.exists_eq_add_of_le' hpos
    have hword : wrap (pack (n + 1) w b + 2 ^ 64 - 1) = pack n w b := by
      rw [wrap_sub h (by rw [pack_readers]; omega), pack_readers, Nat.add_sub_cancel]
    rw [hword] at hcounts ⊢
    -- a wake of the waiters counts for nobody
    by_cases hlast : pack n w b &&& READERS = 0 ∧ pack n w b &&& WAITERS ≠ 0
    · rw [if_pos hlast] at hcounts ⊢
      obtain ⟨h1, h2, h3⟩ := hcounts
      simp [one, reading, counted, writing, Next.place] at h1 h2 h3
      subst h1 h2 h3
      exact ⟨rfl, ⟨by omega, hw1, hb1⟩, fun hb => absurd (hexcl hb) (succ_ne_zero _), trivial⟩
    · rw [if_neg hlast] at hcounts ⊢
      obtain ⟨h1, h2, h3⟩ := hcounts
      simp [one, reading, counted, writing, Next.place] at h1 h2 h3
      subst h1 h2 h3
      exact ⟨rfl, ⟨by omega, hw1, hb1⟩, fun hb => absurd (hexcl hb) (succ_ne_zero _), trivial⟩
  | readWake => exact nomatch hinstr
  | writeLoad counting =>
    obtain ⟨rfl, rfl⟩ := Instr.single hinstr hmem rfl
    by_cases hopen : pack r w b &&& (WRITER ||| READERS) = 0
    · rw [if_pos hopen] at hcounts ⊢
      cases counting <;> exact hcounts.same h hexcl rfl rfl rfl hopen
    · rw [if_neg hopen] at hcounts ⊢
      cases counting <;> exact hcounts.same h hexcl rfl rfl rfl hopen
  | writeTake old counting =>
    cases hinstr
    rcases mem_exchange hmem with ⟨rfl, rfl, rfl⟩ | ⟨rfl, rfl⟩
    · obtain ⟨rfl, rfl⟩ := (open_writers h).mp hloaded
      obtain ⟨h1, h2, h3⟩ := hcounts
      rw [or_writer h rfl]
      cases counting
      · simp [one, reading, counted, writing, Next.place] at h1 h2 h3
        subst h1 h2 h3
        exact ⟨by simp, ⟨hr1, hw1, le_rfl⟩, fun _ => rfl, trivial⟩
      · simp [one, reading, counted, writing, Next.place] at h1 h2 h3
        subst h1 h2 h3
        rw [if_pos rfl, pack_waiters, Nat.add_sub_cancel]
        exact ⟨rfl, ⟨hr1, by omega, le_rfl⟩, fun _ => rfl, trivial⟩
    · cases counting <;> exact hcounts.same h hexcl rfl rfl rfl trivial
  | writeCount old =>
    cases hinstr
    rcases mem_exchange hmem with ⟨rfl, rfl, rfl⟩ | ⟨rfl, rfl⟩
    · obtain ⟨h1, h2, h3⟩ := hcounts
      simp [one, reading, counted, writing, Next.place] at h1 h2 h3
      subst h1 h2 h3
      have hroom : w + 1 < 2 ^ 31 := by
        change ¬_ &&& WAITERS = WAITERS at hfits
        rw [and_waiters h, show WAITERS = WAITER * (2 ^ 31 - 1) by decide, show WAITER = 2 ^ 32 by decide] at hfits
        omega
      have hfields : Fields r' (w + 1) b' := ⟨hr1, hroom, hb1⟩
      have hword : wrap (pack r' w b' + WAITER) = pack r' (w + 1) b' := by
        rw [← pack_waiters, wrap_pack hfields]
      refine ⟨hword, hfields, hexcl, ?_⟩
      change wrap _ &&& _ ≠ 0
      rw [hword, Ne, open_writers hfields, ← open_writers h]
      exact hloaded
    · exact hcounts.same h hexcl rfl rfl rfl trivial
  | writeWait old => exact nomatch hinstr
  | giveUp =>
    obtain ⟨rfl, rfl⟩ := Instr.single hinstr hmem rfl
    have hpos : 1 ≤ w := hwpos
    obtain ⟨h1, h2, h3⟩ := hcounts
    simp [one, reading, counted, writing, Next.place] at h1 h2 h3
    subst h1 h2 h3
    have hle : WAITER ≤ pack r' (w' + 1) b' := by
      rw [pack_waiters]
      exact Nat.le_add_left ..
    refine ⟨?_, ⟨hr1, by omega, hb1⟩, hexcl, trivial⟩
    rw [wrap_sub h hle, pack_waiters, Nat.add_sub_cancel]
  | writeUnlock =>
    obtain ⟨rfl, rfl⟩ := Instr.single hinstr hmem rfl
    obtain ⟨h1, h2, h3⟩ := hcounts
    simp [one, reading, counted, writing, Next.place] at h1 h2 h3
    subst h1 h2
    refine ⟨?_, ⟨hr1, hw1, by omega⟩, by omega, trivial⟩
    rw [and_not_writer h, show b' = 0 by omega]
  | writeWake => exact nomatch hinstr

theorem shift_fields (hrpos : one (reading p) ≤ r) (hwpos : one (counted p) ≤ w) (hloaded : Loaded p)
    (hword : word = pack r w b) (hfits : ∀ code, p = .inr code → ¬Full code word)
    (hshift : @Shift rwMutex word p word' p') :
    word' = pack r' w' b' ∧ Fields r' w' b' ∧ (b' = 1 → r' = 0) ∧ Loaded p' := by
  subst hword
  rcases hshift.elim with ⟨code, effect, next, hp, hp', hinstr, hmem⟩ | ⟨rfl, hquiet⟩
  · exact atomic_fields h hexcl hcounts hrpos hwpos hloaded hp (hfits code hp) hinstr hmem hp'
  · rcases hquiet with ⟨i, op, code, rfl, rfl, hstart⟩ | ⟨code, expected, next, doomed, hinstr, hto⟩ |
      ⟨code, count, next, hinstr, rfl, rfl⟩ | rfl
    · cases i <;> cases op <;> cases hstart <;> exact hcounts.same h hexcl rfl rfl rfl trivial
    · cases code with
      | readWait old | writeWait old =>
        obtain ⟨-, rfl, rfl⟩ := Instr.wait.inj hinstr
        rcases hto with ⟨rfl, rfl⟩ | ⟨rfl, rfl⟩ <;> exact hcounts.same h hexcl rfl rfl rfl trivial
      | _ => exact nomatch hinstr
    · cases code with
      | readWake | writeWake =>
        obtain ⟨-, rfl⟩ := Instr.wake.inj hinstr
        exact hcounts.same h hexcl rfl rfl rfl trivial
      | _ => exact nomatch hinstr
    · exact hcounts.same h hexcl rfl rfl rfl hloaded

end Shift

/-! ## The invariant of a word -/

def blocked : Code → Nat → Prop
  | .readLoad, word => word &&& (WRITER ||| WAITERS) ≠ 0
  | .writeLoad true, word => word &&& (WRITER ||| READERS) ≠ 0
  | _, _ => False

theorem blocked_pack {r w b : Nat} (h : Fields r w b) : (blocked .readLoad (pack r w b) ↔ b ≠ 0 ∨ w ≠ 0) ∧
      (blocked (.writeLoad true) (pack r w b) ↔ b ≠ 0 ∨ r ≠ 0) := by
  have h1 := open_readers h
  have h2 := open_writers h
  change (¬_ ↔ _) ∧ (¬_ ↔ _)
  omega

structure RwInv (s : Word rwMutex G) : Prop where
  queued : Queued s
  fields : Fields (readers s) (waiters s) (writers s)
  word_eq : s.word = pack (readers s) (waiters s) (writers s)
  exclusive : writers s = 1 → readers s = 0
  loaded : ∀ g, Loaded (s.phase g).place
  justified : ∀ x ∈ s.queue, ∀ next, (s.phase x).place = .inr next → blocked next s.word ∨ Waking s

def Strands (s : Word rwMutex G) (g : G) : Prop :=
  s.phase g = .run .giveUp ∧ s.word &&& WAITERS = WAITER ∧ s.word &&& WRITER = 0 ∧
    (∃ x ∈ s.queue, (s.phase x).place = .inr .readLoad) ∧ ¬Waking s

section Inv

variable {s t : Word rwMutex G} {g : G} {es : List (G × Nat)}

theorem wait_next {expected : Nat} {doomed : Next Code Hold}
    (hinstr : instr code = .wait expected next doomed) : next = .readLoad ∨ next = .writeLoad true := by
  cases code with
  | readWait old =>
    obtain ⟨-, rfl, -⟩ := Instr.wait.inj hinstr
    exact .inl rfl
  | writeWait old =>
    obtain ⟨-, rfl, -⟩ := Instr.wait.inj hinstr
    exact .inr rfl
  | _ => exact nomatch hinstr

variable {x : G}

omit [DecidableEq G] in
theorem RwInv.queued_place (h : RwInv s) (hx : x ∈ s.queue) (hplace : (s.phase x).place = .inr next) :
    next = .readLoad ∨ next = .writeLoad true ∧ 1 ≤ waiters s := by
  obtain ⟨n, d, hphase, code, expected, hinstr⟩ := h.queued.waits x hx
  obtain rfl : n = next := by
    rcases hphase with hphase | hphase <;> rw [hphase] at hplace <;> exact Sum.inr.inj hplace
  refine (wait_next hinstr).imp_right fun hnext => ⟨hnext, ?_⟩
  subst hnext
  exact tally_pos (g := x) (by rw [hplace]; trivial)

omit [DecidableEq G] in
theorem atomic_justified (h : RwInv s) (hfields : Fields (readers t) (waiters t) (writers t))
    (hword : t.word = pack (readers t) (waiters t) (writers t))
    (hcounts : Counts (readers s) (waiters s) (writers s) (readers t) (waiters t) (writers t)
      (s.phase g).place (t.phase g).place) (hstrands : ¬Strands s g) (hnone : ¬Waking s)
    {next : Next Code Hold} (hphase : s.phase g = .run code) (hinstr : instr code = .atomic effect)
    (hmem : (word, next) ∈ effect s.word) (hto : (t.phase g).place = next.place (P := rwMutex))
    (htword : t.word = word) (hx : x ∈ s.queue) {n : Code} (hplace : (s.phase x).place = .inr n)
    (hblocked : blocked n s.word) :
    blocked n word ∨ ∃ c m, next = .goto c ∧ instr c = .wake none m := by
  have hqueued := h.queued_place hx hplace
  obtain ⟨hreader, hwriter⟩ := blocked_pack h.fields
  obtain ⟨hreader', hwriter'⟩ := blocked_pack hfields
  rw [h.word_eq] at hblocked hmem
  rw [← htword, hword]
  have hloaded := h.loaded g
  have hexcl := h.exclusive
  have hplaced : (s.phase g).place = .inr code := by rw [hphase]; rfl
  rw [hplaced, hto] at hcounts
  rw [hplaced] at hloaded
  obtain ⟨h1, h2, h3⟩ := hcounts
  have hkeep : (writers s ≠ 0 ∨ waiters s ≠ 0 → writers t ≠ 0 ∨ waiters t ≠ 0) →
      (1 ≤ waiters s → writers s ≠ 0 ∨ readers s ≠ 0 → writers t ≠ 0 ∨ readers t ≠ 0) →
      blocked n (pack (readers t) (waiters t) (writers t)) := by
    intro hr hw
    rcases hqueued with rfl | ⟨rfl, hpos⟩
    · exact hreader'.mpr (hr (hreader.mp hblocked))
    · exact hwriter'.mpr (hw hpos (hwriter.mp hblocked))
  have hsame : ∀ {p p' : Hold ⊕ Code}, readers t + one (reading p) = readers s + one (reading p') →
      waiters t + one (counted p) = waiters s + one (counted p') →
      writers t + one (writing p) = writers s + one (writing p') →
      one (reading p) = one (reading p') → one (counted p) = one (counted p') →
      one (writing p) = one (writing p') → blocked n (pack (readers t) (waiters t) (writers t)) :=
    fun _ _ _ _ _ _ => hkeep (by omega) (by omega)
  cases code with
  | again hold =>
    obtain ⟨rfl, rfl⟩ := Instr.single hinstr hmem rfl
    exact .inl (hsame h1 h2 h3 rfl rfl rfl)
  | readLoad =>
    obtain ⟨rfl, rfl⟩ := Instr.single hinstr hmem rfl
    by_cases hopen : pack (readers s) (waiters s) (writers s) &&& (WRITER ||| WAITERS) = 0
    · rw [if_pos hopen] at h1 h2 h3
      exact .inl (hsame h1 h2 h3 rfl rfl rfl)
    · rw [if_neg hopen] at h1 h2 h3
      exact .inl (hsame h1 h2 h3 rfl rfl rfl)
  | readTake old =>
    cases hinstr
    rcases mem_exchange hmem with ⟨rfl, rfl, rfl⟩ | ⟨rfl, rfl⟩
    · -- no writer waits where a reader is let in
      obtain ⟨hb, hw⟩ := (open_readers h.fields).mp hloaded
      exact .inl (hkeep (by omega) (by omega))
    · exact .inl (hsame h1 h2 h3 rfl rfl rfl)
  | readWait old => exact nomatch hinstr
  | readUnlock =>
    obtain ⟨rfl, hnext⟩ := Instr.single hinstr hmem rfl
    rw [← htword, hword, and_readers hfields, and_waiters hfields] at hnext
    by_cases hlast : readers t = 0 ∧ WAITER * waiters t ≠ 0
    · rw [if_pos hlast] at hnext
      exact .inr ⟨.readWake, _, hnext, rfl⟩
    · rw [if_neg hlast] at hnext
      subst hnext
      simp [one, reading, counted, writing, Next.place] at h1 h2 h3
      rw [show WAITER = 2 ^ 32 by decide] at hlast
      exact .inl (hkeep (by omega) (by omega))
  | readWake => exact nomatch hinstr
  | writeLoad counting =>
    obtain ⟨rfl, rfl⟩ := Instr.single hinstr hmem rfl
    by_cases hopen : pack (readers s) (waiters s) (writers s) &&& (WRITER ||| READERS) = 0
    · rw [if_pos hopen] at h1 h2 h3
      cases counting <;> exact .inl (hsame h1 h2 h3 rfl rfl rfl)
    · rw [if_neg hopen] at h1 h2 h3
      cases counting <;> exact .inl (hsame h1 h2 h3 rfl rfl rfl)
  | writeTake old counting =>
    cases hinstr
    rcases mem_exchange hmem with ⟨rfl, rfl, rfl⟩ | ⟨rfl, rfl⟩
    · have hw : one (writing (.inr (.writeTake (pack (readers s) (waiters s) (writers s)) counting))) = 0 := rfl
      have hw' : one (writing (Next.place (P := rwMutex) (.ends .write 0))) = 1 := rfl
      exact .inl (hkeep (by omega) (by omega))
    · cases counting <;> exact .inl (hsame h1 h2 h3 rfl rfl rfl)
  | writeCount old =>
    cases hinstr
    rcases mem_exchange hmem with ⟨rfl, rfl, rfl⟩ | ⟨rfl, rfl⟩
    · simp [one, reading, counted, writing, Next.place] at h1 h2 h3
      exact .inl (hkeep (by omega) (by omega))
    · exact .inl (hsame h1 h2 h3 rfl rfl rfl)
  | writeWait old => exact nomatch hinstr
  | giveUp =>
    obtain ⟨rfl, rfl⟩ := Instr.single hinstr hmem rfl
    simp [one, reading, counted, writing, Next.place] at h1 h2 h3
    rcases hqueued with rfl | ⟨rfl, hpos⟩
    · -- the readers that this writer alone kept out are the defect
      refine .inl (hreader'.mpr ?_)
      by_contra hopen
      refine hstrands ⟨hphase, ?_, ?_, ⟨x, hx, hplace⟩, hnone⟩
      · rw [h.word_eq, and_waiters h.fields, show waiters s = 1 by omega, mul_one]
      · rw [h.word_eq, and_writer h.fields, show writers s = 0 by omega, mul_zero]
    · have := hwriter.mp hblocked
      exact .inl (hwriter'.mpr (by omega))
  | writeUnlock =>
    obtain ⟨rfl, rfl⟩ := Instr.single hinstr hmem rfl
    exact .inr ⟨.writeWake, _, rfl, rfl⟩
  | writeWake => exact nomatch hinstr

theorem RwInv.move (h : RwInv s) (hmove : Move s g t es)
    (hfits : ∀ code, s.phase g = .run code → ¬Full code s.word) (hstrands : ¬Strands s g) : RwInv t := by
  have hcounts : Counts (readers s) (waiters s) (writers s) (readers t) (waiters t) (writers t)
      (s.phase g).place (t.phase g).place :=
    ⟨hmove.tally reading, hmove.tally counted, hmove.tally writing⟩
  have hrpos : one (reading (s.phase g).place) ≤ readers s := le_tally (p := fun x => reading (s.phase x).place) g
  have hwpos : one (counted (s.phase g).place) ≤ waiters s := le_tally (p := fun x => counted (s.phase x).place) g
  have hroom : ∀ code, (s.phase g).place = .inr code → ¬Full code s.word := by
    intro code hplace
    -- a party that waits goes on at a load
    have hwait : ∀ {c e d}, instr c = .wait e code d → ¬Full code s.word := by
      intro c e d hinstr
      rcases wait_next hinstr with rfl | rfl <;> exact id
    cases hphase : s.phase g with
    | idle i =>
      rw [hphase] at hplace
      exact nomatch hplace
    | run c =>
      rw [hphase] at hplace
      obtain rfl := Sum.inr.inj hplace
      exact hfits c hphase
    | parked n d =>
      rw [hphase] at hplace
      obtain rfl := Sum.inr.inj hplace
      obtain ⟨n', d', hphase' | hphase', c, e, hinstr⟩ := h.queued.waits g (h.queued.parked g n d hphase)
      · obtain ⟨rfl, rfl⟩ := Phase.parked.inj (hphase.symm.trans hphase')
        exact hwait hinstr
      · exact nomatch hphase.symm.trans hphase'
    | doomed n d =>
      rw [hphase] at hplace
      obtain rfl := Sum.inr.inj hplace
      obtain ⟨c, e, hinstr⟩ := h.queued.doomed g n d hphase
      exact hwait hinstr
  obtain ⟨hword, hfields, hexcl, hloaded⟩ := shift_fields h.fields h.exclusive hcounts hrpos hwpos (h.loaded g)
    h.word_eq hroom (hmove.shift h.queued)
  refine ⟨h.queued.move hmove, hfields, hword, hexcl, fun x => ?_, ?_⟩
  · by_cases hx : x = g
    · rwa [hx]
    · rw [hmove.place_of_ne hx]
      exact h.loaded x
  have hpark : ∀ {code expected next doomed}, s.phase g = .run code → instr code = .wait expected next doomed →
      s.word = expected → blocked next s.word := by
    intro code expected next doomed hphase hinstr hword
    have hloaded := h.loaded g
    rw [hphase] at hloaded
    cases code with
    | readWait old | writeWait old =>
      obtain ⟨rfl, rfl, -⟩ := Instr.wait.inj hinstr
      rw [hword]
      exact hloaded
    | _ => exact nomatch hinstr
  by_cases hwaking : Waking s
  · rcases hwaking.move hmove with hwaking' | ⟨code, next, hphase, hinstr⟩
    · exact fun _ _ _ _ => .inr hwaking'
    · refine justified_move h.queued hmove h.justified hpark fun hphase' hinstr' => ?_
      obtain rfl := Phase.run.inj (hphase.symm.trans hphase')
      exact nomatch hinstr.symm.trans hinstr'
  · refine justified_move h.queued hmove h.justified hpark ?_
    intro code effect word next hphase hinstr hmem htword hto x hx n hplace hblocked
    exact atomic_justified h hfields hword hcounts hstrands hwaking hphase hinstr hmem hto htword hx hplace hblocked

end Inv

/-! ## Runs -/

variable {s : Word rwMutex G}

omit [DecidableEq G] in
theorem rwInv_untouched : RwInv (Word.untouched 0 .free : Word rwMutex G) := by
  have hnone : ∀ {p : Hold ⊕ Code → Prop} [DecidablePred p], ¬p (.inl .free) →
      tally (fun g : G => p ((Word.untouched 0 .free : Word rwMutex G).phase g).place) = 0 :=
    fun h => tally_eq_zero.mpr fun _ => h
  have hr : readers (Word.untouched 0 .free : Word rwMutex G) = 0 := hnone (p := reading) nofun
  have hw : waiters (Word.untouched 0 .free : Word rwMutex G) = 0 := hnone (p := counted) nofun
  have hb : writers (Word.untouched 0 .free : Word rwMutex G) = 0 := hnone (p := writing) nofun
  refine ⟨queued_untouched 0 _, ?_, ?_, fun _ => hr, fun _ => trivial, nofun⟩
  · rw [hr, hw, hb]
    exact ⟨by decide, by decide, by decide⟩
  · rw [hr, hw, hb]
    rfl

abbrev Locks (G : Type) : Type := Lot G (fun _ => ()) fun _ : Unit => rwMutex

def unlocked : Locks G := Lot.untouched (fun _ => 0) fun _ => .free

def Sound (s : Locks G) (a : LotAct G (fun _ => ()) fun _ : Unit => rwMutex) : Prop :=
  ∀ addr, ¬Strands (s.word addr) a.party ∧ ∀ code, s.phase a.party addr = .run code → ¬Full code (s.mem addr)

/-- A writer excludes all others, and the word counts readers and waiting writers. Who is parked while nothing is under
way waits behind a writer, or as a writer behind a holder. -/
structure Admits (s : Word rwMutex G) : Prop where
  exclusive : ∀ g x, g ≠ x → writing (s.phase g).place → ¬writing (s.phase x).place ∧ ¬reading (s.phase x).place
  readers_eq : s.word &&& READERS = readers s
  waiters_eq : s.word &&& WAITERS = WAITER * waiters s
  reader_parked : Quiet s → ∀ g, (s.phase g).rest = some (.inr .readLoad) →
    ∃ x, (s.phase x).rest = some (.inl .write) ∨ (s.phase x).rest = some (.inr (.writeLoad true))
  writer_parked : Quiet s → ∀ g, (s.phase g).rest = some (.inr (.writeLoad true)) →
    ∃ x, (s.phase x).rest = some (.inl .read) ∨ (s.phase x).rest = some (.inl .write)

omit [DecidableEq G] in
theorem RwInv.quiet (h : RwInv s) (hquiet : Quiet s) (x : G) : ∃ place, (s.phase x).rest = some place ∧
    (s.phase x).place = place ∧
      ((∃ hold, place = .inl hold) ∨ place = .inr .readLoad ∨ place = .inr (.writeLoad true)) := by
  obtain ⟨place, hrest⟩ := Option.ne_none_iff_exists'.mp (hquiet x)
  have hplace := Phase.place_of_rest hrest
  refine ⟨place, hrest, hplace, ?_⟩
  cases place with
  | inl hold => exact .inl ⟨hold, rfl⟩
  | inr next =>
    rcases h.queued_place (h.queued.mem_of_rest hrest) hplace with rfl | ⟨rfl, -⟩
    · exact .inr (.inl rfl)
    · exact .inr (.inr rfl)

omit [DecidableEq G] in
theorem RwInv.blocked_of_quiet (h : RwInv s) (hquiet : Quiet s) {g : G}
    (hrest : (s.phase g).rest = some (.inr next)) : blocked next s.word :=
  (h.justified g (h.queued.mem_of_rest hrest) next (Phase.place_of_rest hrest)).resolve_right hquiet.not_waking

omit [DecidableEq G] in
theorem RwInv.admits (h : RwInv s) : Admits s where
  exclusive g x hne hg := by
    have hone : 1 ≤ writers s := tally_pos (g := g) hg
    have hle := h.fields.writer_le
    refine ⟨fun hx => ?_, fun hx => ?_⟩
    · have htwo : 2 ≤ writers s := two_le_tally hne hg hx
      omega
    · have hzero := h.exclusive (le_antisymm hle hone)
      exact tally_eq_zero.mp hzero x hx
  readers_eq := by rw [h.word_eq, and_readers h.fields]
  waiters_eq := by rw [h.word_eq, and_waiters h.fields]
  reader_parked hquiet g hrest := by
    have hblocked := h.blocked_of_quiet hquiet hrest
    rw [h.word_eq, (blocked_pack h.fields).1] at hblocked
    rcases hblocked with hwriters | hwaiters
    · obtain ⟨x, hx⟩ := exists_of_tally hwriters
      obtain ⟨place, hrest, hplace, ⟨hold, rfl⟩ | rfl | rfl⟩ := h.quiet hquiet x <;> rw [hplace] at hx
      · obtain rfl : hold = .write := hx
        exact ⟨x, .inl hrest⟩
      · exact hx.elim
      · exact hx.elim
    · obtain ⟨x, hx⟩ := exists_of_tally hwaiters
      obtain ⟨place, hrest, hplace, ⟨hold, rfl⟩ | rfl | rfl⟩ := h.quiet hquiet x <;> rw [hplace] at hx
      · exact hx.elim
      · exact hx.elim
      · exact ⟨x, .inr hrest⟩
  writer_parked hquiet g hrest := by
    have hblocked := h.blocked_of_quiet hquiet hrest
    rw [h.word_eq, (blocked_pack h.fields).2] at hblocked
    rcases hblocked with hwriters | hreaders
    · obtain ⟨x, hx⟩ := exists_of_tally hwriters
      obtain ⟨place, hrest, hplace, ⟨hold, rfl⟩ | rfl | rfl⟩ := h.quiet hquiet x <;> rw [hplace] at hx
      · obtain rfl : hold = .write := hx
        exact ⟨x, .inr hrest⟩
      · exact hx.elim
      · exact hx.elim
    · obtain ⟨x, hx⟩ := exists_of_tally hreaders
      obtain ⟨place, hrest, hplace, ⟨hold, rfl⟩ | rfl | rfl⟩ := h.quiet hquiet x <;> rw [hplace] at hx
      · obtain rfl : hold = .read := hx
        exact ⟨x, .inl hrest⟩
      · exact hx.elim
      · exact hx.elim

/-- Every lock admits rightly after each run whose steps strand nobody. -/
theorem rw_admits (thread : G → Bool) {es : List (G × Nat)} {s : Locks G}
    (hrun : RunWhen (Lot.step thread) Sound unlocked es s) (addr : Nat) :
    Admits (s.word addr) := by
  have hinv : LotInv s ∧ ∀ addr, RwInv (s.word addr) := by
    refine hrun.invariant (P := fun _ (s : Locks G) => LotInv s ∧ ∀ addr, RwInv (s.word addr))
      ⟨lotInv_untouched .., fun _ => rwInv_untouched⟩ ?_
    rintro es es' t u a ⟨hinv, hwords⟩ hsound hstep
    obtain ⟨hinv', addr, a', hparty, -, hword, hother⟩ := step_word hinv hstep
    refine ⟨hinv', fun other => ?_⟩
    by_cases ho : other = addr
    · subst ho
      have hmove := step_move hword
      rw [hparty] at hmove
      exact (hwords other).move hmove (hsound other).2 (hsound other).1
    · rw [hother other ho]
      exact hwords other
  exact (hinv.2 addr).admits

def plain (s : Locks G) (a : LotAct G (fun _ => ()) fun _ : Unit => rwMutex) : Bool :=
  match s.busy a.party with
  | none => true
  | some addr =>
    match s.phase a.party addr with
    | .run .giveUp => false
    | .run _ => s.mem addr &&& READERS ≠ READERS && s.mem addr &&& WAITERS ≠ WAITERS
    | _ => true

omit [DecidableEq G] [Fintype G] in
theorem sound_of_plain {s : Locks G} (h : LotInv s) {a : LotAct G (fun _ => ()) fun _ : Unit => rwMutex}
    (hplain : plain s a = true) : Sound s a := by
  intro addr
  have hrun : ∀ code, s.phase a.party addr = .run code →
      code ≠ .giveUp ∧ s.mem addr &&& READERS ≠ READERS ∧ s.mem addr &&& WAITERS ≠ WAITERS := by
    intro code hphase
    have hbusy : s.busy a.party = some addr := by
      by_contra hne
      obtain ⟨hold, hidle⟩ := h.busy a.party addr hne
      exact nomatch hphase.symm.trans hidle
    unfold plain at hplain
    rw [hbusy] at hplain
    dsimp only at hplain
    rw [hphase] at hplain
    by_cases hgive : code = .giveUp
    · subst hgive
      exact nomatch hplain
    · refine ⟨hgive, ?_⟩
      cases code <;> first | exact absurd rfl hgive | simpa using hplain
  refine ⟨fun hstrands => (hrun _ hstrands.1).1 rfl, fun code hphase hfull => ?_⟩
  obtain ⟨-, hreaders, hwaiters⟩ := hrun code hphase
  cases code with
  | readTake old => exact hreaders hfull
  | writeCount old => exact hwaiters hfull
  | _ => exact hfull

/-- A writer holds the lock, and a reader waits for it. -/
theorem rw_admits_two : ∃ s : Locks (Fin 2), Admits (s.word 0) ∧ Quiet (s.word 0) ∧
    ((s.word 0).phase 1).rest = some (.inr .readLoad) := by
  let rests : Fin 2 → Option (Hold ⊕ Code) := fun
    | 0 => some (.inl .write)
    | 1 => some (.inr .readLoad)
  have hany : (runActs (tested plain (Lot.step fun _ => true)) (unlocked : Locks (Fin 2))
      [.start 0 0 Op.writeLock, .run 0 0, .run 0 0, .start 1 0 Op.readLock, .run 1 0, .run 1 0]).any
      (fun r => decide (∀ g, (r.1.phase g 0).rest = rests g)) = true := by decide +kernel
  obtain ⟨es, s, hrun, hrest⟩ := runWhen_of_any (I := LotInv) (lotInv_untouched ..)
    (fun h hstep => (step_word h hstep).inv) (fun h hplain => sound_of_plain h hplain) hany
  have hat : ∀ g, ((s.word 0).phase g).rest = rests g := of_decide_eq_true hrest
  exact ⟨s, rw_admits _ hrun 0, fun g => by rw [hat]; revert g; decide, hat 1⟩

/-- A reader holds the lock, a writer waits and a reader waits behind it; the writer gives up. -/
theorem rw_strands_reader : ¬∀ (es : List (Fin 3 × Nat)) (s : Locks (Fin 3)),
    Run (Lot.step fun g => decide (g = 1)) unlocked es s → ∀ addr, Admits (s.word addr) := by
  intro hclaim
  let rests : Fin 3 → Option (Hold ⊕ Code) := fun
    | 0 => some (.inl .read)
    | 1 => some (.inl .free)
    | 2 => some (.inr .readLoad)
  have hany : (runActs (Lot.step fun g => decide (g = 1)) (unlocked : Locks (Fin 3))
      [.start 0 0 Op.readLock, .run 0 0, .run 0 0, .start 1 0 Op.writeLock, .run 1 0, .run 1 0, .run 1 0,
        .start 2 0 Op.readLock, .run 2 0, .run 2 0, .doom 1, .run 1 0, .run 1 0]).any
      (fun r => decide (∀ g, (r.1.phase g 0).rest = rests g)) = true := by decide +kernel
  obtain ⟨es, s, hrun, hrest⟩ := run_of_any hany
  have hat : ∀ g, ((s.word 0).phase g).rest = rests g := of_decide_eq_true hrest
  obtain ⟨x, hx⟩ := (hclaim es s hrun 0).reader_parked (fun g => by rw [hat]; revert g; decide) 2 (hat 2)
  rw [hat] at hx
  revert x
  decide

end Tsuzuri.RwMutex
