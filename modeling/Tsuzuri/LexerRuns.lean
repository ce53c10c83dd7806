import Tsuzuri.Lexer

/-!
# Runs of the lexer

A run from a position between two characters does not panic or go back, and ends between two characters.
-/

namespace Tsuzuri.Lexing

open Text

variable {α β σ : Type} {i : Input} {l l' : Lexer} {m : Scan α} {f : α → Scan β}
  {Q : α → Lexer → Prop} {E : Lexer → Prop} {Qβ : β → Lexer → Prop} {r : Text} {c : Char}

/-- The run of `m` does not panic, and ends in `Q` with a value and in `E` with an error. -/
def Runs (m : Scan α) (i : Input) (l : Lexer) (Q : α → Lexer → Prop) (E : Lexer → Prop) : Prop :=
  match m i l with
  | .ok a l' => Q a l'
  | .error _ l' => E l'
  | .panic => False

theorem Runs.imp {Q' : α → Lexer → Prop} {E' : Lexer → Prop} (h : Runs m i l Q E) (hQ : ∀ a l', Q a l' → Q' a l')
    (hE : ∀ l', E l' → E' l') : Runs m i l Q' E' := by
  unfold Runs at h ⊢
  cases hrun : m i l with
  | ok a l' =>
    rw [hrun] at h
    exact hQ a l' h
  | error error l' =>
    rw [hrun] at h
    exact hE l' h
  | panic =>
    rw [hrun] at h
    exact h

theorem Runs.self (h : Runs m i l Q E) : Runs m i l (fun a l' => Q a l' ∧ m i l = .ok a l') E := by
  unfold Runs at h ⊢
  cases hrun : m i l with
  | ok a l' =>
    rw [hrun] at h
    exact ⟨h, rfl⟩
  | error error l' | panic =>
    rw [hrun] at h
    exact h

theorem runs_bind : Runs (m >>= f) i l Qβ E ↔ Runs m i l (fun a l' => Runs (f a) i l' Qβ E) E := by
  simp only [Runs, bind]
  cases m i l <;> rfl

theorem runs_pure {a : α} : Runs (pure a : Scan α) i l Q E ↔ Q a l := Iff.rfl

theorem runs_position {Q : Nat → Lexer → Prop} : Runs position i l Q E ↔ Q l.position l := Iff.rfl

variable {n : Nat} {test : UInt8 → Bool} {p : Prop} {m' : Scan α} {l'' : Lexer} {b : UInt8}

theorem runs_setPosition {Q : Unit → Lexer → Prop} :
    Runs (setPosition n) i l Q E ↔ Q () { l with position := n } := Iff.rfl

theorem runs_advance {Q : Unit → Lexer → Prop} :
    Runs (advance n) i l Q E ↔ Q () { l with position := l.position + n } := Iff.rfl

theorem runs_holes {Q : List OpenHole → Lexer → Prop} : Runs holes i l Q E ↔ Q l.holes l := Iff.rfl

theorem runs_setHoles {hs : List OpenHole} {Q : Unit → Lexer → Prop} :
    Runs (setHoles hs) i l Q E ↔ Q () { l with holes := hs } := Iff.rfl

theorem runs_input {Q : Input → Lexer → Prop} : Runs input i l Q E ↔ Q i l := Iff.rfl

theorem runs_byteAt {Q : Option UInt8 → Lexer → Prop} : Runs (byteAt n) i l Q E ↔ Q i.source.bytes[n]? l := Iff.rfl

theorem runs_skip {Q : Unit → Lexer → Prop} :
    Runs (skip test) i l Q E ↔ Q () { l with position := i.source.skip test l.position } := Iff.rfl

theorem runs_restAt {Q : Text → Lexer → Prop} (h : At i.source n r) : Runs (restAt n) i l Q E ↔ Q r l := by
  simp only [Runs, restAt, suffix?_eq_some.mpr h]

theorem runs_rest {Q : Text → Lexer → Prop} (h : At i.source l.position r) : Runs rest i l Q E ↔ Q r l := by
  rw [rest, runs_bind, runs_position, runs_restAt h]

theorem runs_slice {a b : Nat} {text : Text} {Q : Text → Lexer → Prop} (h : i.source.slice? a b = some text) :
    Runs (slice a b) i l Q E ↔ Q text l := by
  simp only [Runs, slice, h]

theorem runs_attempt {Q : Except Diagnostic α → Lexer → Prop} :
    Runs (attempt m) i l Q E ↔ Runs m i l (fun a l' => Q (.ok a) l') (fun l' => ∀ error, m i l = .error error l' →
      Q (.error error) l') := by
  unfold Runs attempt
  cases h : m i l with
  | ok a l' => rfl
  | error error l' =>
    refine ⟨fun hQ error' heq => ?_, fun hQ => hQ error rfl⟩
    obtain ⟨rfl, -⟩ := Outcome.error.inj heq
    exact hQ
  | panic => rfl

theorem runs_ite [Decidable p] :
    Runs (if p then m else m') i l Q E ↔ if p then Runs m i l Q E else Runs m' i l Q E := by
  split <;> rfl

theorem runs_loop {body : σ → Scan (σ ⊕ β)} {I : σ → Lexer → Prop}
    (hbody : ∀ s l, I s l → Runs (body s) i l (fun result l' => match result with
      | .inl s' => I s' l' ∧ l.position < l'.position
      | .inr b => Qβ b l') E)
    (hle : ∀ s l, I s l → l.position ≤ i.source.size) {s : σ} (h : I s l) : Runs (loop body s) i l Qβ E := by
  have hfuel : ∀ fuel s l, I s l → i.source.size < fuel + l.position → Runs (iterate body fuel s) i l Qβ E := by
    intro fuel
    induction fuel with
    | zero =>
      intro s l h hfuel
      have := hle s l h
      omega
    | succ fuel ih =>
      intro s l h hfuel
      rw [iterate, runs_bind]
      refine (hbody s l h).imp (fun result l' hresult => ?_) fun _ hE => hE
      cases result with
      | inl s' => exact ih s' l' hresult.1 (by have := hresult.2; omega)
      | inr b => exact hresult
  exact hfuel _ s l h (by have := hle s l h; omega)

/-! ## Not going back -/

/-- From `l` to `l'` the lexer has not gone back, and `l'` is between two characters. -/
structure Moved (i : Input) (l l' : Lexer) : Prop where
  boundary : Boundary i.source l'.position
  le : l.position ≤ l'.position

/-- And the holes are the same. -/
structure Stays (i : Input) (l l' : Lexer) : Prop extends Moved i l l' where
  holes : l'.holes = l.holes

/-- From between two characters on, `m` stays between them. -/
def Safe (i : Input) (m : Scan α) : Prop :=
  ∀ l, Boundary i.source l.position → Runs m i l (fun _ l' => Stays i l l') (Moved i l)

theorem Moved.refl (h : Boundary i.source l.position) : Moved i l l := ⟨h, Nat.le_refl _⟩

theorem Moved.trans (h : Moved i l l') (h' : Moved i l' l'') : Moved i l l'' :=
  ⟨h'.boundary, Nat.le_trans h.le h'.le⟩

theorem Stays.refl (h : Boundary i.source l.position) : Stays i l l := ⟨.refl h, rfl⟩

theorem Stays.trans (h : Stays i l l') (h' : Stays i l' l'') : Stays i l l'' :=
  ⟨h.toMoved.trans h'.toMoved, h'.holes.trans h.holes⟩

theorem Safe.andThen (h : Safe i m) (hl : Boundary i.source l.position)
    (hQ : ∀ a l', Stays i l l' → Runs (f a) i l' Qβ E) (hE : ∀ l', Moved i l l' → E l') : Runs (m >>= f) i l Qβ E :=
  runs_bind.mpr ((h l hl).imp hQ hE)

theorem Safe.bind (h : Safe i m) (hf : ∀ a, Safe i (f a)) : Safe i (m >>= f) := fun _ hl =>
  h.andThen hl (fun a l' hl' => (hf a l' hl'.boundary).imp (fun _ _ => hl'.trans) fun _ => hl'.toMoved.trans)
    fun _ h => h

theorem Safe.pure (a : α) : Safe i (pure a : Scan α) := fun _ hl => .refl hl

theorem Safe.fail {kind : DiagnosticKind} {message : String} {start finish : Nat} :
    Safe i (fail kind message start finish : Scan α) := fun _ hl => .refl hl

theorem Safe.ite [Decidable p] (h : p → Safe i m) (h' : ¬p → Safe i m') : Safe i (if p then m else m') := by
  split
  · rename_i hp
    exact h hp
  · rename_i hp
    exact h' hp

theorem safe_position : Safe i position := fun _ hl => .refl hl

theorem safe_rest : Safe i rest := fun _ hl => by
  obtain ⟨r, h⟩ := hl
  exact (runs_rest h).mpr (.refl ⟨r, h⟩)

theorem safe_skip {high : Bool} (hhigh : ∀ b : UInt8, 128 ≤ b.toNat → test b = high) :
    Safe i (skip test) := fun l hl => by
  obtain ⟨r, h⟩ := hl
  obtain ⟨r', h', -⟩ := h.skip hhigh
  exact ⟨⟨⟨r', h'⟩, le_skip ..⟩, rfl⟩

theorem Stays.runs (hl : Stays i l l') (h : Safe i m) : Runs m i l' (fun _ l'' => Stays i l l'') (Moved i l) :=
  (h l' hl.boundary).imp (fun _ _ => hl.trans) fun _ => hl.toMoved.trans

theorem stays_at (h : At i.source (l.position + n) r) : Stays i l { l with position := l.position + n } :=
  ⟨⟨⟨r, h⟩, Nat.le_add_right ..⟩, rfl⟩

/-! ## Tests of bytes -/

theorem high_of_range {lo hi : UInt8} (hhi : hi.toNat < 128) (hb : 128 ≤ b.toNat) : ¬(lo ≤ b ∧ b ≤ hi) := by
  rintro ⟨-, hle⟩
  have := UInt8.le_iff_toNat_le.mp hle
  omega

section

variable (hb : 128 ≤ b.toNat)

include hb

theorem isAsciiDigit_high : isAsciiDigit b = false :=
  decide_eq_false (high_of_range (by decide) hb)

theorem isAsciiAlphabetic_high : isAsciiAlphabetic b = false := by
  refine decide_eq_false ?_
  rintro (h | h)
  · exact high_of_range (by decide) hb h
  · exact high_of_range (by decide) hb h

theorem eq_high {b' : UInt8} (hb' : b'.toNat < 128) : b ≠ b' := by
  rintro rfl
  omega

theorem isWord_high : isWord b = false := by
  simp only [isWord, isAsciiAlphabetic_high hb, isAsciiDigit_high hb, eq_high hb (by decide : (ascii '_').toNat < 128),
    Bool.or_self, decide_false]

theorem isAsciiHexdigit_high : isAsciiHexdigit b = false := by
  refine decide_eq_false ?_
  rintro (h | h | h)
  · rw [isAsciiDigit_high hb] at h
    cases h
  · exact high_of_range (by decide) hb h
  · exact high_of_range (by decide) hb h

theorem isAsciiWhitespace_high : isAsciiWhitespace b = false := by
  simp only [isAsciiWhitespace, eq_high hb (by decide : (9 : UInt8).toNat < 128),
    eq_high hb (by decide : (10 : UInt8).toNat < 128), eq_high hb (by decide : (12 : UInt8).toNat < 128),
    eq_high hb (by decide : (13 : UInt8).toNat < 128), eq_high hb (by decide : (32 : UInt8).toNat < 128), or_self,
    decide_false]

theorem isNewline_high : isNewline b = false := by
  simp only [isNewline, eq_high hb (by decide : (10 : UInt8).toNat < 128),
    eq_high hb (by decide : (13 : UInt8).toNat < 128), or_self, decide_false]

end

theorem isDigit_high (radix : Nat) (hb : 128 ≤ b.toNat) : isDigit radix b = false := by
  unfold isDigit
  split
  · exact isAsciiHexdigit_high hb
  split
  · simp only [eq_high hb (by decide : (48 : UInt8).toNat < 128), eq_high hb (by decide : (49 : UInt8).toNat < 128),
      or_self, decide_false]
  · exact isAsciiDigit_high hb

theorem low_of_test (hhigh : ∀ {b : UInt8}, 128 ≤ b.toNat → test b = false) (hb : test b = true) : b.toNat < 128 := by
  by_contra hle
  rw [hhigh (Nat.not_lt.mp hle)] at hb
  cases hb

end Tsuzuri.Lexing
