import Tsuzuri.LexerRuns

/-!
# The lexer stays between characters

The reader of each form of token is safe from where the form starts, and takes at least
one byte.
-/

namespace Tsuzuri.Lexing

open Text

variable {α β σ : Type} {i : Input} {l l' : Lexer} {E : Lexer → Prop} {r : Text} {c : Char}

/-! ## Literals -/

theorem runs_atByteSuffix {Q : Bool → Lexer → Prop}
    (h : ∀ found : Bool, (found → i.source.bytes[l.position]? = some (ascii 'B')) → Q found l) :
    Runs atByteSuffix i l Q E := by
  simp only [atByteSuffix, runs_bind, runs_position, runs_byteAt, runs_ite, runs_pure]
  split
  · rename_i hb
    exact h _ fun _ => hb
  · exact h _ fun hfalse => by cases hfalse

theorem safe_byteSuffix (kind : TokenKind) (start : Nat) : Safe i (byteSuffix kind start) := by
  intro l hl
  rw [byteSuffix, runs_bind]
  refine runs_atByteSuffix fun found hb => ?_
  rw [runs_ite]
  split
  · rename_i hfound
    obtain ⟨r, hr⟩ := hl.succ (hb hfound) (by decide)
    rw [runs_bind, runs_advance]
    refine (stays_at hr).runs (safe_position.bind fun p => ?_)
    split
    · exact .ite (fun _ => .pure _) fun _ => .fail
    · exact .ite (fun _ => .pure _) fun _ => .fail
    · exact .pure _
    · exact .fail
  · exact .refl hl

theorem safe_noByteSuffix (kind : TokenKind) (start : Nat) : Safe i (noByteSuffix kind start) := by
  intro l hl
  rw [noByteSuffix, runs_bind]
  refine runs_atByteSuffix fun found hb => ?_
  rw [runs_ite]
  split
  · rename_i hfound
    obtain ⟨r, hr⟩ := hl.succ (hb hfound) (by decide)
    rw [runs_bind, runs_advance]
    exact (stays_at hr).runs (safe_position.bind fun _ => .fail)
  · exact .refl hl

variable {f : Unit → Scan α} {m : Scan α} {utf8 : Bool} {text : StringLiteral} {start : Nat} {l₀ : Lexer} {byte : UInt8}

theorem runs_advance_low (h : At i.source l.position r) (hc : r.head? = some c) (hlow : c.toNat < 128)
    (hf : Safe i (f ())) : Runs (advance 1 >>= f) i l (fun _ l' => Stays i l l') (Moved i l) := by
  cases r with
  | nil => cases hc
  | cons c' r =>
    cases hc
    rw [runs_bind, runs_advance]
    exact (stays_at (h.low hlow)).runs hf

theorem runs_escapeValue (utf8 braced : Bool) (hl : Boundary i.source l.position) :
    Runs (escapeValue utf8 braced) i l (fun value l' => Stays i l l' ∧ (utf8 → value.isValidChar)) (Moved i l) := by
  simp only [escapeValue, runs_bind, runs_position, runs_input, runs_setPosition]
  generalize (if braced = true then i.source.bytes.length else 4) = n
  have hfinish : Boundary i.source
      (l.position + (((i.source.bytes.drop l.position).take n).takeWhile isAsciiHexdigit).length) :=
    hl.takeWhile (fun _ => low_of_test isAsciiHexdigit_high) n
  generalize (((i.source.bytes.drop l.position).take n).takeWhile isAsciiHexdigit).length = k at hfinish ⊢
  obtain ⟨text, htext⟩ := hl.slice hfinish (Nat.le_add_right ..)
  obtain ⟨r, hr⟩ := hfinish
  rw [runs_slice htext, runs_rest hr, runs_ite]
  split
  · rename_i hvalid
    simp only [validEscape, Bool.decide_and, Bool.and_eq_true, decide_eq_true_eq] at hvalid
    obtain ⟨-, hclosed, -, -, hscalar⟩ := hvalid
    rw [runs_ite]
    split
    · rename_i hbraced
      specialize hclosed hbraced
      cases r with
      | nil => cases hclosed
      | cons c r =>
        cases hclosed
        exact ⟨(stays_at hr).trans (stays_at (hr.low (by decide))), hscalar⟩
    · exact ⟨stays_at hr, hscalar⟩
  · exact (stays_at hr).toMoved

theorem runs_unicodeEscape (utf8 : Bool) (hl : Boundary i.source l.position) :
    Runs (unicodeEscape utf8) i l (fun value l' => Stays i l l' ∧ (utf8 → value.isValidChar)) (Moved i l) := by
  obtain ⟨r, hr⟩ := hl
  rw [unicodeEscape, runs_bind, runs_rest hr, runs_ite]
  split
  · rename_i hbraced
    cases r with
    | nil => cases hbraced
    | cons c r =>
      cases hbraced
      have hstays := stays_at (hr.low (by decide))
      rw [runs_bind, runs_advance]
      exact (runs_escapeValue utf8 true hstays.boundary).imp (fun _ _ h => ⟨hstays.trans h.1, h.2⟩)
        fun _ => hstays.toMoved.trans
  · exact runs_escapeValue utf8 false ⟨r, hr⟩

theorem safe_unicodeEscape (utf8 : Bool) : Safe i (unicodeEscape utf8) := fun _ hl =>
  (runs_unicodeEscape utf8 hl).imp (fun _ _ h => h.1) fun _ h => h

theorem Safe.next {f : Char → Text → Scan α} {none' : Scan α} (hnone : Safe i none')
    (hf : ∀ c r, Safe i (f c r)) : Safe i (do
      match ← rest with
      | [] => none'
      | c :: r =>
        advance c.utf8Size
        f c r) := by
  intro l hl
  obtain ⟨r, hr⟩ := hl
  rw [runs_bind, runs_rest hr]
  cases r with
  | nil => exact hnone l ⟨_, hr⟩
  | cons c r =>
    simp only
    rw [runs_bind, runs_advance]
    exact (stays_at hr.next).runs (hf c r)

theorem safe_characterError (utf8 : Bool) (start : Nat) : Safe i (characterError utf8 start : Scan α) :=
  safe_position.bind fun _ => .fail

theorem safe_escapedCharacter (utf8 : Bool) (start : Nat) : Safe i (escapedCharacter utf8 start) := by
  refine Safe.next (safe_characterError _ _) fun escape r => ?_
  refine .ite (fun _ => .pure _) fun _ => .ite (fun _ => .pure _) fun _ => .ite (fun _ => .pure _) fun _ =>
    .ite (fun _ => .pure _) fun _ => .ite (fun _ => .pure _) fun _ => .ite (fun _ => .pure _) fun _ =>
    safe_rest.bind fun after => .ite (fun _ => ?_) fun _ => safe_characterError _ _
  exact safe_position.bind fun _ => (safe_unicodeEscape utf8).bind fun _ => safe_position.bind fun _ =>
    .ite (fun _ => safe_characterError _ _) fun _ => .pure _

/-- From a character below 128 on, `m` takes it and more, and stays between characters. -/
def Takes (i : Input) (m : Scan α) : Prop :=
  ∀ l c r, At i.source l.position (c :: r) → c.toNat < 128 →
    Runs m i l (fun _ l' => Stays i l l' ∧ l.position < l'.position) (Moved i l)

theorem runs_taken (h : Safe i m) (hl : Stays i l l') (hlt : l.position < l'.position) :
    Runs m i l' (fun _ l'' => Stays i l l'' ∧ l.position < l''.position) (Moved i l) :=
  (h l' hl.boundary).imp (fun _ _ hl' => ⟨hl.trans hl', Nat.lt_of_lt_of_le hlt hl'.le⟩) fun _ => hl.toMoved.trans

theorem Takes.position {f : Nat → Scan α} (h : ∀ n, Takes i (f n)) : Takes i (position >>= f) := fun l c r hr hc =>
  runs_bind.mpr (h l.position l c r hr hc)

theorem Takes.advance (h : Safe i (f ())) : Takes i (advance 1 >>= f) := fun l c r hr hc => by
  rw [runs_bind, runs_advance]
  exact runs_taken h (stays_at (hr.low hc)) (Nat.lt_succ_self _)

theorem safe_closeCharacter (utf8 : Bool) (start value : Nat) : Safe i (closeCharacter utf8 start value) := by
  intro l hl
  obtain ⟨r, hr⟩ := hl
  rw [closeCharacter, runs_bind, runs_rest hr, runs_ite]
  split
  · exact safe_characterError _ _ l ⟨r, hr⟩
  · rename_i hclosed
    exact runs_advance_low hr (Decidable.not_not.mp (not_or.mp hclosed).1) (by decide) (.pure _)

theorem takes_character (utf8 : Bool) : Takes i (character utf8) :=
  .position fun start => .advance <| Safe.next (safe_characterError _ _) fun c _ =>
    .ite (fun _ => safe_characterError _ _) fun _ =>
    .ite (fun _ => (safe_escapedCharacter utf8 start).bind fun value => safe_closeCharacter utf8 start value)
      fun _ => safe_closeCharacter utf8 start c.toNat

/-! ## Strings -/

/-- The literal is of the kind that `utf8` says. -/
def Shape (utf8 : Bool) : StringLiteral → Prop
  | .utf16 _ => utf8 = false
  | .utf8 _ => utf8 = true

theorem shape_emptyLiteral (utf8 : Bool) : Shape utf8 (emptyLiteral utf8) := by
  cases utf8 <;> rfl

theorem runs_pushCodepoint {codepoint : Nat} {Q : StringLiteral → Lexer → Prop} (hshape : Shape utf8 text)
    (hscalar : utf8 → codepoint.isValidChar) (h : ∀ text', Shape utf8 text' → Q text' l) :
    Runs (pushCodepoint text codepoint) i l Q E := by
  cases text with
  | utf16 units =>
    simp only [pushCodepoint]
    rw [runs_ite]
    split
    · exact h _ hshape
    · exact h _ hshape
  | utf8 text =>
    simp only [pushCodepoint]
    rw [runs_ite, if_pos (hscalar hshape)]
    exact h _ hshape

theorem runs_stringChar (ch : Char) (utf8 : Bool) (start : Nat) (hl : Boundary i.source l.position) :
    Runs (stringChar ch utf8 start) i l
      (fun result l' => Stays i l l' ∧ ∀ codepoint, result = some codepoint → utf8 → codepoint.isValidChar)
      (Moved i l) := by
  have hsmall : ∀ {l'}, Stays i l l' → ∀ n < 128, Runs (pure (some n) : Scan (Option Nat)) i l'
      (fun result l' => Stays i l l' ∧ ∀ codepoint, result = some codepoint → utf8 → codepoint.isValidChar)
      (Moved i l) := by
    intro l' hl' n hn
    refine ⟨hl', fun codepoint heq _ => ?_⟩
    cases heq
    exact .inl (by omega)
  rw [stringChar, runs_ite]
  split
  · obtain ⟨r, hr⟩ := hl
    rw [runs_bind, runs_rest hr]
    cases r with
    | nil => exact ⟨.refl ⟨_, hr⟩, fun _ heq => by cases heq⟩
    | cons escape r =>
      have hstays := stays_at hr.next
      simp only
      rw [runs_bind, runs_advance]
      simp only [runs_ite]
      split
      · exact hsmall hstays _ (by decide)
      split
      · exact hsmall hstays _ (by decide)
      split
      · exact hsmall hstays _ (by decide)
      split
      · exact hsmall hstays _ (by decide)
      split
      · exact hsmall hstays _ (by decide)
      split
      · exact hsmall hstays _ (by decide)
      rw [runs_bind, runs_rest hr.next, runs_ite]
      split
      · rw [runs_bind]
        refine (runs_unicodeEscape utf8 hstays.boundary).imp (fun value l' h => ?_) fun _ => hstays.toMoved.trans
        refine ⟨hstays.trans h.1, fun codepoint heq => ?_⟩
        cases heq
        exact h.2
      · exact hstays.toMoved
  · rw [runs_ite]
    split
    · exact .refl hl
    · refine ⟨.refl hl, fun codepoint heq _ => ?_⟩
      cases heq
      exact ch.valid

/-- A round over a literal that began at `l₀` gives a longer literal, or the end of the loop. -/
def Pushes (utf8 : Bool) (i : Input) (l₀ : Lexer) (result : StringLiteral ⊕ σ) (l : Lexer) : Prop :=
  match result with
  | .inl text => (Shape utf8 text ∧ Stays i l₀ l) ∧ l₀.position < l.position
  | .inr _ => Stays i l₀ l

theorem runs_pushNext {ch : Char} (hshape : Shape utf8 text) (hl : Stays i l₀ l) (hlt : l₀.position < l.position) :
    Runs (pushNext utf8 start text ch : Scan (StringLiteral ⊕ Option σ)) i l (Pushes utf8 i l₀) (Moved i l₀) := by
  rw [pushNext, runs_bind]
  refine (runs_stringChar ch utf8 start hl.boundary).imp (fun result l' h => ?_) fun _ => hl.toMoved.trans
  obtain ⟨hl', hscalar⟩ := h
  cases result with
  | none => exact hl.trans hl'
  | some codepoint =>
    simp only
    rw [runs_bind]
    refine runs_pushCodepoint hshape (hscalar codepoint rfl) fun text' hshape' => ?_
    exact ⟨⟨hshape', hl.trans hl'⟩, Nat.lt_of_lt_of_le hlt hl'.le⟩

theorem runs_stringRound (start : Nat) (hshape : Shape utf8 text) (hl : Boundary i.source l.position) :
    Runs (stringRound utf8 start text) i l (Pushes utf8 i l) (Moved i l) := by
  obtain ⟨r, hr⟩ := hl
  rw [stringRound, runs_bind, runs_rest hr]
  cases r with
  | nil => exact .refl ⟨_, hr⟩
  | cons ch r =>
    have hlt : l.position < l.position + ch.utf8Size := Nat.lt_add_of_pos_right ch.utf8Size_pos
    simp only
    rw [runs_bind, runs_advance, runs_ite]
    split
    · exact stays_at hr.next
    · exact runs_pushNext hshape (stays_at hr.next) hlt

theorem runs_interpolatedRound (start : Nat) (hshape : Shape utf8 text) (hl : Boundary i.source l.position) :
    Runs (interpolatedRound utf8 start text) i l (Pushes utf8 i l) (Moved i l) := by
  obtain ⟨r, hr⟩ := hl
  rw [interpolatedRound, runs_bind, runs_rest hr]
  cases r with
  | nil => exact .refl ⟨_, hr⟩
  | cons ch r =>
    have hstays := stays_at hr.next
    have hlt : l.position < l.position + ch.utf8Size := Nat.lt_add_of_pos_right ch.utf8Size_pos
    -- a doubled brace is a brace
    have hdouble : ∀ (brace : Char) (codepoint : Nat), brace.toNat < 128 → codepoint < 128 → r.head? = some brace →
        Runs (do
          advance 1
          return .inl (← pushCodepoint text codepoint) : Scan (StringLiteral ⊕ Option (StringLiteral × TextEnd))) i
          { l with position := l.position + ch.utf8Size } (Pushes utf8 i l) (Moved i l) := by
      intro brace codepoint hbrace hcodepoint hhead
      cases r with
      | nil => cases hhead
      | cons c r =>
        cases hhead
        rw [runs_bind, runs_advance, runs_bind]
        refine runs_pushCodepoint hshape (fun _ => .inl (by omega)) fun text' hshape' => ?_
        exact ⟨⟨hshape', hstays.trans (stays_at (hr.next.low hbrace))⟩, Nat.lt_succ_of_lt hlt⟩
    simp only
    rw [runs_bind, runs_advance, runs_ite]
    split
    · exact hstays
    rw [runs_ite]
    split
    · rw [runs_ite]
      split
      · rename_i hhead
        exact hdouble '{' 123 (by decide) (by decide) hhead
      · exact hstays
    rw [runs_ite]
    split
    · rw [runs_ite]
      split
      · rename_i hhead
        exact hdouble '}' 125 (by decide) (by decide) hhead
      · exact hstays.toMoved
    · exact runs_pushNext hshape hstays hlt

theorem safe_pushes {body : StringLiteral → Scan (StringLiteral ⊕ σ)}
    (hbody : ∀ text l, Shape utf8 text → Boundary i.source l.position →
      Runs (body text) i l (Pushes utf8 i l) (Moved i l)) : Safe i (loop body (emptyLiteral utf8)) := by
  intro l hl
  refine runs_loop (I := fun text l' => Shape utf8 text ∧ Stays i l l') (fun text l' h => ?_) (fun text l' h => ?_)
    ⟨shape_emptyLiteral utf8, .refl hl⟩
  · refine (hbody text l' h.1 h.2.boundary).imp (fun result l'' hresult => ?_) fun _ => h.2.toMoved.trans
    cases result with
    | inl text' => exact ⟨⟨hresult.1.1, h.2.trans hresult.1.2⟩, hresult.2⟩
    | inr b => exact h.2.trans hresult
  · obtain ⟨r, hr⟩ := h.2.boundary
    exact hr.le

theorem takes_string (utf8 : Bool) : Takes i (string utf8) := by
  refine .position fun start => .advance ((safe_pushes fun text l => runs_stringRound start).bind fun result => ?_)
  cases result with
  | none => exact safe_position.bind fun _ => .fail
  | some text => exact .pure _

theorem safe_interpolatedText (utf8 : Bool) (start : Nat) : Safe i (interpolatedText utf8 start) := by
  refine (safe_pushes fun text l => runs_interpolatedRound start).bind fun result => ?_
  cases result with
  | none => exact safe_position.bind fun _ => .fail
  | some text => exact .pure _

/-- From a character below 128 on, `m` takes it and more. -/
def Eats (i : Input) (m : Scan α) : Prop :=
  ∀ l c r, At i.source l.position (c :: r) → c.toNat < 128 →
    Runs m i l (fun _ l' => Moved i l l' ∧ l.position < l'.position) (Moved i l)

theorem Takes.eats (h : Takes i m) : Eats i m := fun l c r hr hc =>
  (h l c r hr hc).imp (fun _ _ hl => ⟨hl.1.toMoved, hl.2⟩) fun _ h => h

theorem runs_eaten (h : Safe i m) (hl : Moved i l l') (hlt : l.position < l'.position) :
    Runs m i l' (fun _ l'' => Moved i l l'' ∧ l.position < l''.position) (Moved i l) :=
  (h l' hl.boundary).imp (fun _ _ hl' => ⟨hl.trans hl'.toMoved, Nat.lt_of_lt_of_le hlt hl'.le⟩) fun _ => hl.trans

theorem eats_interpolated (utf8 : Bool) (start : Nat) : Eats i (interpolated utf8 start) := by
  intro l c r hr hc
  have hstays := stays_at (hr.low hc)
  rw [interpolated, runs_bind, runs_advance]
  refine (safe_interpolatedText utf8 start).andThen hstays.boundary (fun result l' hl' => ?_) fun _ =>
    hstays.toMoved.trans
  have hl := hstays.trans hl'
  have hlt : l.position < l'.position := Nat.lt_of_lt_of_le (Nat.lt_succ_self _) hl'.le
  obtain ⟨text, finish⟩ := result
  cases finish with
  | quote => exact ⟨hl.toMoved, hlt⟩
  | hole =>
    simp only [runs_bind, runs_holes, runs_position, runs_setHoles]
    exact ⟨⟨hl.boundary, hl.le⟩, hlt⟩

theorem runs_ofExcept {result : Except Diagnostic α} {Q : α → Lexer → Prop} (hQ : ∀ a, Q a l) (hE : E l) :
    Runs (ofExcept result) i l Q E := by
  cases result with
  | ok a => exact hQ a
  | error error => exact hE

theorem takes_formatSpec (opened : Nat) : Takes i (formatSpec opened) := by
  intro l c r hr hc
  have hnext := hr.low hc
  simp only [formatSpec]
  rw [runs_bind, runs_position, runs_bind, runs_restAt hnext, runs_ite]
  obtain ⟨after, hafter⟩ := List.takeWhile_prefix (l := r) fun c => !(['}', '\n', '\r', '"'].contains c)
  generalize r.takeWhile (fun c => !(['}', '\n', '\r', '"'].contains c)) = text at hafter ⊢
  subst hafter
  split
  · rename_i hclosed
    rw [List.getElem?_append_right (Nat.le_refl _), Nat.sub_self, ← List.head?_eq_getElem?] at hclosed
    cases after with
    | nil => cases hclosed
    | cons brace after =>
      cases hclosed
      have hfinish := hnext.append.low (by decide)
      rw [runs_bind]
      refine runs_ofExcept (fun spec => ?_) ⟨⟨_, hr⟩, Nat.le_refl _⟩
      rw [runs_bind, runs_setPosition]
      exact ⟨⟨⟨⟨_, hfinish⟩, by simp only; omega⟩, rfl⟩, by simp only; omega⟩
  · exact ⟨⟨_, hr⟩, Nat.le_refl _⟩

theorem runs_holeText {hole : OpenHole} {spec : Option FormatSpec} (hl : Stays i l₀ l)
    (hlt : l₀.position < l.position) :
    Runs (do
      match ← interpolatedText hole.utf8 start with
      | (text, .quote) =>
        setHoles (← holes).dropLast
        return TokenKind.interpolationEnd ⟨text, spec⟩
      | (text, .hole) =>
        setHoles ((← holes).dropLast ++ [⟨hole.utf8, 0, (← position) - 1⟩])
        return TokenKind.interpolationMiddle ⟨text, spec⟩) i l
      (fun _ l' => Moved i l₀ l' ∧ l₀.position < l'.position) (Moved i l₀) := by
  refine (safe_interpolatedText _ start).andThen hl.boundary (fun result l' hl' => ?_) fun _ => hl.toMoved.trans
  have hl₁ := (hl.trans hl').toMoved
  have hlt₁ := Nat.lt_of_lt_of_le hlt hl'.le
  obtain ⟨text, finish⟩ := result
  cases finish <;> exact ⟨⟨hl₁.boundary, hl₁.le⟩, hlt₁⟩

theorem runs_holeEnd (start : Nat) (hr : At i.source l.position (c :: r)) (hc : c.toNat < 128) (hopen : l.holes ≠ []) :
    Runs (holeEnd start) i l (fun _ l' => Moved i l l' ∧ l.position < l'.position) (Moved i l) := by
  rw [holeEnd, runs_bind, runs_holes]
  cases hlast : l.holes.getLast? with
  | none => exact absurd (List.getLast?_eq_none_iff.mp hlast) hopen
  | some hole =>
    simp only
    rw [runs_bind, runs_rest hr, runs_ite]
    split
    · rw [runs_bind]
      exact (takes_formatSpec hole.start l c r hr hc).imp (fun spec l' h => runs_holeText h.1 h.2) fun _ h => h
    · rw [runs_bind, runs_advance]
      exact runs_holeText (stays_at (hr.low hc)) (Nat.lt_succ_self _)

/-! ## Words and numbers -/

theorem runs_identifier {Q : TokenKind → Lexer → Prop} (hl : Boundary i.source l.position)
    (hQ : ∀ kind, Q kind { l with position := i.source.skip isWord l.position }) : Runs identifier i l Q E := by
  obtain ⟨r, hr⟩ := hl
  obtain ⟨r', hr', -⟩ := hr.skip fun _ => isWord_high
  obtain ⟨word, hword⟩ := hr.boundary.slice hr'.boundary (le_skip ..)
  simp only [identifier, runs_bind, runs_position, runs_skip]
  rw [runs_slice hword]
  simp only [runs_input, runs_ite, runs_pure]
  split
  · exact hQ _
  · exact hQ _

theorem stays_skip {test : UInt8 → Bool} (hhigh : ∀ b : UInt8, 128 ≤ b.toNat → test b = false)
    (hl : Boundary i.source l.position) : Stays i l { l with position := i.source.skip test l.position } :=
  safe_skip hhigh l hl

theorem takes_charOrTypeVariable : Takes i charOrTypeVariable := by
  intro l c r hr hc
  have hstays := stays_at (hr.low hc)
  rw [charOrTypeVariable, runs_bind, runs_position, runs_bind, runs_byteAt, runs_bind, runs_byteAt, runs_ite]
  split
  · exact hstays.toMoved
  rw [runs_bind, runs_byteAt, runs_ite]
  split
  · rw [runs_bind, runs_advance, runs_bind]
    refine runs_identifier hstays.boundary fun kind => ?_
    have hword := hstays.trans (stays_skip (fun _ => isWord_high) hstays.boundary)
    obtain ⟨r', hr'⟩ := hword.boundary
    have hlt : l.position < i.source.skip isWord (l.position + 1) :=
      Nat.lt_of_lt_of_le (Nat.lt_succ_self _) (le_skip ..)
    rw [runs_bind, runs_position, runs_bind, runs_rest hr', runs_ite]
    split
    · obtain ⟨text, htext⟩ := hstays.boundary.slice hword.boundary (le_skip ..)
      rw [runs_bind, runs_slice htext]
      exact ⟨hword, hlt⟩
    · rename_i hquote
      have hquote := Decidable.not_not.mp hquote
      rw [runs_ite]
      split
      · cases r' with
        | nil => cases hquote
        | cons c' r' =>
          cases hquote
          exact (hword.trans (stays_at (hr'.low (by decide)))).toMoved
      · exact takes_character false l c r hr hc
  · exact takes_character false l c r hr hc

theorem runs_advance_byte (hl : Boundary i.source l.position) (hb : i.source.bytes[l.position]? = some byte)
    (hlow : byte.toNat < 128) (hf : Safe i (f ())) :
    Runs (advance 1 >>= f) i l (fun _ l' => Stays i l l' ∧ l.position < l'.position) (Moved i l) := by
  obtain ⟨r, hr⟩ := hl
  obtain ⟨c, r', rfl, hc, -⟩ := hr.of_byte hb hlow
  exact Takes.advance hf l c r' hr (hc ▸ hlow)

theorem runs_digitsRound (radix : Nat) (previousDigit : Bool) (hl : Boundary i.source l.position) :
    Runs (digitsRound radix previousDigit) i l (fun result l' => Stays i l l' ∧
      ∀ s, result = .inl s → l.position < l'.position) (Moved i l) := by
  have hstep : ∀ (b byte : _), i.source.bytes[l.position]? = some byte → byte.toNat < 128 → Runs (do
        advance 1
        return .inl b : Scan (Bool ⊕ Unit)) i l (fun result l' => Stays i l l' ∧
        ∀ s, result = .inl s → l.position < l'.position) (Moved i l) := fun b byte hb hlow =>
    (runs_advance_byte hl hb hlow (Safe.pure (Sum.inl b : Bool ⊕ Unit))).imp (fun _ _ h => ⟨h.1, fun _ _ => h.2⟩)
      fun _ h => h
  rw [digitsRound, runs_bind, runs_position, runs_bind, runs_byteAt]
  cases hb : i.source.bytes[l.position]? with
  | none => exact ⟨.refl hl, fun _ h => by cases h⟩
  | some byte =>
    simp only
    rw [runs_ite]
    split
    · rename_i hdigit
      exact hstep true byte hb (low_of_test (isDigit_high radix) hdigit)
    rw [runs_ite]
    split
    · rename_i hseparator
      subst hseparator
      rw [runs_bind, runs_byteAt, runs_ite]
      split
      · exact .refl hl
      · exact hstep false _ hb (by decide)
    · exact ⟨.refl hl, fun _ h => by cases h⟩

theorem runs_digits (radix : Nat) (hl : Boundary i.source l.position) :
    Runs (digits radix) i l (fun _ l' => Stays i l l' ∧ l.position < l'.position) (Moved i l) := by
  rw [digits, runs_bind, runs_position, runs_bind]
  refine runs_loop (I := fun _ l' => Stays i l l') (fun b l' h => ?_) (fun b l' h => ?_) (.refl hl)
  · refine (runs_digitsRound radix b h.boundary).imp (fun result l'' hresult => ?_) fun _ => h.toMoved.trans
    cases result with
    | inl b' => exact ⟨h.trans hresult.1, hresult.2 b' rfl⟩
    | inr _ =>
      have hstays := h.trans hresult.1
      simp only
      rw [runs_bind, runs_position, runs_ite]
      split
      · exact hstays.toMoved
      · rename_i hne
        exact ⟨hstays, Nat.lt_of_le_of_ne hstays.le (Ne.symm hne)⟩
  · obtain ⟨r, hr⟩ := h.boundary
    exact hr.le

theorem safe_digits (radix : Nat) : Safe i (digits radix) := fun _ hl =>
  (runs_digits radix hl).imp (fun _ _ h => h.1) fun _ h => h

theorem safe_advance_if (hlow : byte.toNat < 128) (hf : Safe i (f ())) (hl : Boundary i.source l.position)
    (hb : i.source.bytes[l.position]? = some byte) :
    Runs (advance 1 >>= f) i l (fun _ l' => Stays i l l') (Moved i l) :=
  (runs_advance_byte hl hb hlow hf).imp (fun _ _ h => h.1) fun _ h => h

theorem safe_exponent (dotted : Bool) : Safe i (exponent dotted) := by
  intro l hl
  simp only [exponent, runs_bind, runs_position, runs_byteAt]
  rw [runs_ite]
  split
  · rename_i hletter
    obtain ⟨byte, hbyte, hlow⟩ : ∃ byte, i.source.bytes[l.position]? = some byte ∧ byte.toNat < 128 := by
      rcases hletter with h | h
      · exact ⟨_, h, by decide⟩
      · exact ⟨_, h, by decide⟩
    have htail : Safe i (do
        let sign ← byteAt (← position)
        if sign = some (ascii '+') ∨ sign = some (ascii '-') then
          advance 1
          digits 10
          return true
        else
          digits 10
          return true) := by
      intro l' hl'
      simp only [runs_bind, runs_position, runs_byteAt]
      rw [runs_ite]
      split
      · rename_i hsign
        rcases hsign with h | h
        · exact safe_advance_if (by decide) ((safe_digits 10).bind fun _ => .pure _) hl' h
        · exact safe_advance_if (by decide) ((safe_digits 10).bind fun _ => .pure _) hl' h
      · exact ((safe_digits 10).bind fun _ => .pure _) l' hl'
    exact safe_advance_if hlow htail hl hbyte
  · exact .refl hl

theorem safe_fraction : Safe i fraction := by
  intro l hl
  simp only [fraction, runs_bind, runs_position, runs_byteAt]
  rw [runs_ite]
  split
  · rename_i hdot
    exact safe_advance_if (by decide) ((safe_digits 10).bind fun _ => safe_exponent true) hl hdot.1
  · exact safe_exponent false l hl

theorem runs_numberDigits {radix : Nat} (hr : At i.source l.position r) (hradix : radix = radixOf r) :
    Runs (numberDigits radix) i l (fun _ l' => Stays i l l' ∧ l.position < l'.position) (Moved i l) := by
  have hprefix : radix ≠ 10 → ∃ r', At i.source (l.position + 2) r' := by
    intro hne
    subst hradix
    unfold radixOf at hne
    split at hne
    · rename_i hfront
      obtain ⟨r', -, hr'⟩ := hr.isPrefixOf (by decide) hfront
      exact ⟨r', hr'⟩
    split at hne
    · rename_i hfront
      obtain ⟨r', -, hr'⟩ := hr.isPrefixOf (by decide) hfront
      exact ⟨r', hr'⟩
    · exact absurd rfl hne
  rw [numberDigits, runs_ite]
  split
  · rename_i hne
    obtain ⟨r', hr'⟩ := hprefix hne
    have hstays := stays_at hr'
    rw [runs_bind, runs_advance, runs_bind]
    refine (runs_digits radix hstays.boundary).imp (fun _ l' h => ?_) fun _ => hstays.toMoved.trans
    exact ⟨hstays.trans h.1, Nat.lt_of_le_of_lt hstays.le h.2⟩
  · rw [runs_bind]
    exact (runs_digits 10 hr.boundary).imp (fun _ l' h => runs_taken safe_fraction h.1 h.2) fun _ h => h

theorem safe_numberToken (start radix : Nat) (float : Bool) (digits suffix : Text) :
    Safe i (numberToken start radix float digits suffix) := by
  refine safe_position.bind fun p => .ite (fun _ => .ite (fun _ => .fail) fun _ => .pure _) fun _ => ?_
  split
  · exact .fail
  · exact .ite (fun _ => .fail) fun _ => .ite (fun _ => .pure _) fun _ => .pure _

theorem runs_number (hr : At i.source l.position r) :
    Runs number i l (fun _ l' => Stays i l l' ∧ l.position < l'.position) (Moved i l) := by
  rw [number, runs_bind, runs_position, runs_bind, runs_rest hr, runs_bind]
  refine (runs_numberDigits hr rfl).imp (fun float l' h => ?_) fun _ h => h
  obtain ⟨hl, hlt⟩ := h
  have hskip := stays_skip (fun _ => isWord_high) hl.boundary
  obtain ⟨digits, hdigits⟩ := hr.boundary.slice hl.boundary hl.le
  obtain ⟨suffix, hsuffix⟩ := hl.boundary.slice hskip.boundary hskip.le
  rw [runs_bind, runs_position, runs_bind, runs_skip, runs_bind, runs_slice hdigits, runs_bind, runs_position,
    runs_bind,
    runs_slice hsuffix]
  exact runs_taken (safe_numberToken _ _ _ _ _) (hl.trans hskip) (Nat.lt_of_lt_of_le hlt hskip.le)

theorem symbols_ascii : (symbols.all fun (symbol, _) => decide (0 < symbol.length) && isAscii symbol) = true := rfl

theorem runs_symbol (hr : At i.source l.position (c :: r)) :
    Runs symbol i l (fun _ l' => Stays i l l' ∧ l.position < l'.position) (Moved i l) := by
  have hpos := c.utf8Size_pos
  rw [symbol, runs_bind, runs_rest hr, runs_ite]
  split
  · rename_i hfront
    obtain ⟨r', hsplit, -⟩ := hr.isPrefixOf (by decide) hfront
    obtain ⟨rfl, -⟩ := List.cons.inj hsplit
    rw [runs_bind, runs_advance]
    exact ⟨stays_at (hr.low (by decide)), Nat.lt_succ_self _⟩
  · cases hfind : symbols.find? fun (symbol, _) => symbol.isPrefixOf (c :: r) with
    | some entry =>
      obtain ⟨front, kind⟩ := entry
      obtain ⟨hne, hlow⟩ := Bool.and_eq_true_iff.mp
        (List.all_eq_true.mp symbols_ascii _ (List.mem_of_find?_eq_some hfind))
      have hfront := List.find?_some hfind
      obtain ⟨r', -, hr'⟩ := hr.isPrefixOf hlow hfront
      simp only
      rw [runs_bind, runs_advance]
      exact ⟨stays_at hr', Nat.lt_add_of_pos_right (of_decide_eq_true hne)⟩
    | none =>
      simp only
      cases characters.lookup c with
      | some kind =>
        simp only
        rw [runs_bind, runs_advance]
        exact ⟨stays_at hr.next, Nat.lt_add_of_pos_right hpos⟩
      | none => exact .refl ⟨_, hr⟩

theorem runs_commentRound (depth : Nat) (hl : Boundary i.source l.position) :
    Runs (commentRound depth) i l (fun result l' => Stays i l l' ∧
      ∀ s, result = .inl s → l.position < l'.position) (Moved i l) := by
  obtain ⟨r, hr⟩ := hl
  rw [commentRound, runs_bind, runs_rest hr]
  cases r with
  | nil => exact ⟨.refl ⟨_, hr⟩, fun _ h => by cases h⟩
  | cons c r =>
    have htwo : ∀ c', c.toNat < 128 → c'.toNat < 128 → r.head? = some c' →
        Stays i l { l with position := l.position + 2 } := by
      intro c' hc hc' hhead
      cases r with
      | nil => cases hhead
      | cons d r =>
        cases hhead
        exact stays_at ((hr.low hc).low hc')
    simp only
    rw [runs_ite]
    split
    · rename_i hopen
      rw [runs_bind, runs_advance]
      exact ⟨htwo '*' (hopen.1 ▸ by decide) (by decide) hopen.2, fun _ _ => Nat.lt_add_of_pos_right (by decide)⟩
    rw [runs_ite]
    split
    · rename_i hclose
      rw [runs_bind, runs_advance]
      exact ⟨htwo '/' (hclose.1 ▸ by decide) (by decide) hclose.2, fun _ _ => Nat.lt_add_of_pos_right (by decide)⟩
    · rw [runs_bind, runs_advance]
      exact ⟨stays_at hr.next, fun _ _ => Nat.lt_add_of_pos_right c.utf8Size_pos⟩

theorem safe_commentLoop (depth : Nat) : Safe i (loop commentRound depth) := by
  intro l hl
  refine runs_loop (I := fun _ l' => Stays i l l') (fun depth l' h => ?_) (fun _ l' h => ?_) (.refl hl)
  · refine (runs_commentRound depth h.boundary).imp (fun result l'' hresult => ?_) fun _ => h.toMoved.trans
    cases result with
    | inl depth' => exact ⟨h.trans hresult.1, hresult.2 _ rfl⟩
    | inr b => exact h.trans hresult.1
  · obtain ⟨r, hr⟩ := h.boundary
    exact hr.le

theorem runs_comment (hr : At i.source l.position r) (hfront : ['/', '*'].isPrefixOf r = true) :
    Runs comment i l (fun _ l' => Stays i l l' ∧ l.position < l'.position) (Moved i l) := by
  obtain ⟨r', -, hr'⟩ := hr.isPrefixOf (by decide) hfront
  rw [comment, runs_bind, runs_position, runs_bind, runs_advance]
  refine runs_taken ((safe_commentLoop 1).bind fun closed => .ite (fun _ => .pure _) fun _ => ?_) (stays_at hr')
    (Nat.lt_add_of_pos_right (by decide))
  exact safe_position.bind fun _ => .fail

end Tsuzuri.Lexing
