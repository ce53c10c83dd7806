import Tsuzuri.LexerSound

/-!
# The tokens of a source

Each round takes a token or a piece between tokens, or reports an error and goes on past it, so the tokens are in
order and on character boundaries.
-/

namespace Tsuzuri.Lexing

open Text List

variable {α β σ : Type} {i : Input} {l l' : Lexer} {E : Lexer → Prop} {r : Text} {c : Char} {byte : UInt8}

theorem runs_trackHole (kind : TokenKind) {Q : Unit → Lexer → Prop}
    (hQ : ∀ hs, Q () { l with holes := hs }) : Runs (trackHole kind) i l Q E := by
  rw [trackHole, runs_bind, runs_holes]
  cases l.holes.getLast? with
  | none => exact hQ l.holes
  | some hole =>
    simp only
    split <;> first
      | exact hQ l.holes
      | (rw [runs_bind, runs_holes, runs_setHoles]; exact hQ _)

variable {m : Scan α} {f : α → Scan β} {p q s : Nat} {spans : List Span}

theorem runs_prefixed (front : Text) (hm : Eats i m) (hf : ∀ a, Safe i (f a)) (hlow : isAscii front = true)
    (hr : At i.source l.position (front ++ c :: r)) (hc : c.toNat < 128) :
    Runs (do
      advance front.length
      f (← m)) i l (fun _ l' => Moved i l l' ∧ l.position < l'.position) (Moved i l) := by
  have hat := hr.append
  rw [size_ascii hlow] at hat
  have hstays := stays_at hat
  rw [runs_bind, runs_advance, runs_bind]
  refine (hm _ c r hat hc).imp (fun a l' h => ?_) fun _ => hstays.toMoved.trans
  exact runs_eaten (hf a) (hstays.toMoved.trans h.1) (Nat.lt_of_le_of_lt hstays.le h.2)

theorem runs_eats (hm : Runs m i l (fun _ l' => Stays i l l' ∧ l.position < l'.position)
      (Moved i l)) (hf : ∀ a, Safe i (f a)) :
    Runs (m >>= f) i l (fun _ l' => Moved i l l' ∧ l.position < l'.position) (Moved i l) := by
  rw [runs_bind]
  exact hm.imp (fun a l' h => runs_eaten (hf a) h.1.toMoved h.2) fun _ h => h

theorem runs_tokenKind (start : Nat) (hr : At i.source l.position (c :: r))
    (hbyte : i.source.bytes[l.position]? = some byte) :
    Runs (tokenKind start byte (c :: r)) i l (fun _ l' => Moved i l l' ∧ l.position < l'.position) (Moved i l) := by
  have hbyteSuffix := fun kind => safe_byteSuffix (i := i) kind start
  have hnoByteSuffix := fun kind => safe_noByteSuffix (i := i) kind start
  have hchar : byte.toNat < 128 → c.toNat < 128 := fun hlow => by
    obtain ⟨c', r', heq, hc, -⟩ := hr.of_byte hbyte hlow
    obtain ⟨rfl, -⟩ := List.cons.inj heq
    exact hc ▸ hlow
  have hword : isWord byte = true →
      Runs identifier i l (fun _ l' => Moved i l l' ∧ l.position < l'.position) (Moved i l) := fun hword =>
    runs_identifier hr.boundary fun _ =>
      ⟨(stays_skip (fun _ => isWord_high) hr.boundary).toMoved, lt_skip hbyte hword⟩
  rw [tokenKind, runs_ite]
  split
  · rename_i hquote
    exact runs_eats (takes_charOrTypeVariable l c r hr (hchar (hquote ▸ by decide))) hbyteSuffix
  rw [runs_ite]
  split
  · rename_i hfront
    obtain ⟨r', hsplit, -⟩ := hr.isPrefixOf (by decide) hfront
    exact runs_prefixed ['u', '8'] (takes_character true).eats hbyteSuffix (by decide) (hsplit ▸ hr) (by decide)
  rw [runs_ite]
  split
  · rename_i hfront
    obtain ⟨r', hsplit, -⟩ := hr.isPrefixOf (by decide) hfront
    exact runs_prefixed ['u', '8'] (takes_string true).eats hbyteSuffix (by decide) (hsplit ▸ hr) (by decide)
  rw [runs_ite]
  split
  · rename_i hfront
    obtain ⟨r', hsplit, -⟩ := hr.isPrefixOf (by decide) hfront
    exact runs_prefixed ['u', '8', '$'] (eats_interpolated true start) hnoByteSuffix (by decide) (hsplit ▸ hr)
      (by decide)
  rw [runs_ite]
  split
  · rename_i hfront
    obtain ⟨r', hsplit, -⟩ := hr.isPrefixOf (by decide) hfront
    exact runs_prefixed ['$'] (eats_interpolated false start) hnoByteSuffix (by decide) (hsplit ▸ hr) (by decide)
  rw [runs_ite]
  split
  · rename_i hletter
    refine hword ?_
    simp only [isWord, Bool.or_eq_true, decide_eq_true_eq]
    exact hletter.imp_left .inl
  rw [runs_ite]
  split
  · exact (runs_number hr).imp (fun _ _ h => ⟨h.1.toMoved, h.2⟩) fun _ h => h
  rw [runs_ite]
  split
  · rename_i hquote
    exact runs_eats (takes_string false l c r hr (hchar (hquote ▸ by decide))) hbyteSuffix
  · exact (runs_symbol hr).imp (fun _ _ h => ⟨h.1.toMoved, h.2⟩) fun _ h => h

theorem runs_docText (start : Nat) (hl : Boundary i.source l.position) :
    Runs (docText start) i l (fun token l' => Stays i l l' ∧ token.span = ⟨start, l'.position⟩) E := by
  have hskip : Stays i l { l with position := i.source.skip (fun byte => !isNewline byte) l.position } :=
    safe_skip (fun _ hb => congrArg not (isNewline_high hb)) l hl
  obtain ⟨text, htext⟩ := hl.slice hskip.boundary hskip.le
  rw [docText, runs_bind, runs_position, runs_bind, runs_skip, runs_bind, runs_position, runs_bind, runs_slice htext]
  exact ⟨hskip, rfl⟩

theorem runs_docComment (start : Nat) (hr : At i.source l.position r) (hfront : ['/', '/', '/'].isPrefixOf r = true) :
    Runs (docComment start) i l (fun token l' => Stays i l l' ∧ l.position < l'.position ∧
      token.span = ⟨start, l'.position⟩) E := by
  obtain ⟨r', -, hr'⟩ := hr.isPrefixOf (by decide) hfront
  have htail : ∀ l₁, Stays i l l₁ → l.position < l₁.position →
      Runs (docText start) i l₁ (fun token l' => Stays i l l' ∧ l.position < l'.position ∧
        token.span = ⟨start, l'.position⟩) E := fun l₁ hl hlt =>
    (runs_docText start hl.boundary).imp (fun _ _ h => ⟨hl.trans h.1, Nat.lt_of_lt_of_le hlt h.1.le, h.2⟩) fun _ h => h
  have hlt : l.position < l.position + 3 := Nat.lt_add_of_pos_right (by decide)
  rw [docComment, runs_bind, runs_advance, runs_bind, runs_rest hr', runs_ite]
  split
  · rename_i hspace
    cases r' with
    | nil => cases hspace
    | cons c r' =>
      cases hspace
      rw [runs_bind, runs_advance]
      exact htail _ ((stays_at hr').trans (stays_at (hr'.low (by decide)))) (Nat.lt_succ_of_lt hlt)
  · exact htail _ (stays_at hr') hlt

/-! ## A token or a piece of a gap -/

/-- White space or a comment from `p` to `q`, outside the holes. -/
inductive Piece (i : Input) : Nat → Nat → Prop
  | space {p : Nat} {byte : UInt8} (hbyte : i.source.bytes[p]? = some byte) (hspace : isAsciiWhitespace byte = true) :
    Piece i p (p + 1)
  | line {p : Nat} {r : Text} (hr : At i.source p r) (hfront : ['/', '/'].isPrefixOf r = true) :
    Piece i p (i.source.skip (fun byte => byte ≠ 10) p)
  | block {p q : Nat} {r : Text} (hr : At i.source p r) (hfront : ['/', '*'].isPrefixOf r = true)
    (hrun : comment i ⟨p, []⟩ = .ok () ⟨q, []⟩) : Piece i p q

/-- What a run of `token` from `l` gives at `l'`. -/
def Gives (i : Input) (l : Lexer) (result : Option Token) (l' : Lexer) : Prop :=
  Moved i l l' ∧ l.position < l'.position ∧ match result with
    | some token => token.span = ⟨l.position, l'.position⟩ ∧
        ∀ byte, i.source.bytes[l.position]? = some byte → isAsciiWhitespace byte = false
    | none => Piece i l.position l'.position

section

variable (hl : Boundary i.source l.position)

include hl

theorem runs_token (hlt : l.position < i.source.size) : Runs token i l (Gives i l) (Moved i l) := by
  obtain ⟨r, hr⟩ := hl
  obtain ⟨byte, hbyte⟩ : ∃ byte, i.source.bytes[l.position]? = some byte := ⟨_, getElem?_eq_getElem hlt⟩
  cases r with
  | nil =>
    rw [hr.getElem?] at hbyte
    cases hbyte
  | cons c r =>
    rw [token, runs_bind, runs_position, runs_bind, runs_holes, runs_bind, runs_byteAt, hbyte]
    simp only
    rw [runs_bind, runs_rest hr, runs_ite]
    split
    · -- white space
      rename_i hspace
      obtain ⟨r', hr'⟩ := hr.boundary.succ hbyte (low_of_test isAsciiWhitespace_high hspace)
      split
      · exact .refl hr.boundary
      · rw [runs_bind, runs_advance]
        exact ⟨(stays_at hr').toMoved, Nat.lt_succ_self _, .space hbyte hspace⟩
    rename_i hspace
    rw [Bool.not_eq_true] at hspace
    have hblank : ∀ byte', i.source.bytes[l.position]? = some byte' → isAsciiWhitespace byte' = false := by
      intro byte' hbyte'
      rw [hbyte] at hbyte'
      cases hbyte'
      exact hspace
    rw [runs_ite]
    split
    · exact .refl hr.boundary
    rename_i hcomment
    rw [runs_ite]
    split
    · rename_i hfront
      rw [runs_bind]
      exact (runs_docComment l.position hr hfront).imp (fun token l' h => ⟨h.1.toMoved, h.2.1, h.2.2, hblank⟩)
        fun _ h => h
    rw [runs_ite]
    split
    · rename_i hfront
      have hhigh : ∀ b : UInt8, 128 ≤ b.toNat → decide (b ≠ 10) = true := fun b hb =>
        decide_eq_true (eq_high hb (by decide))
      obtain ⟨r', hr', -⟩ := hr.skip hhigh
      obtain ⟨r₁, hsplit, -⟩ := hr.isPrefixOf (by decide) hfront
      obtain ⟨rfl, -⟩ := List.cons.inj hsplit
      rw [runs_bind, runs_skip]
      exact ⟨⟨⟨r', hr'⟩, le_skip ..⟩, lt_skip (hr.byte_low (by decide)) (by decide), .line hr hfront⟩
    rw [runs_ite]
    split
    · rename_i hfront
      have hclosed : l.holes = [] := by
        cases hlast : l.holes.getLast? with
        | none => exact getLast?_eq_none_iff.mp hlast
        | some hole =>
          rw [hlast] at hcomment
          exact absurd ⟨rfl, .inr hfront⟩ hcomment
      obtain ⟨p, hs⟩ := l
      obtain rfl := hclosed
      rw [runs_bind]
      refine (runs_comment hr hfront).self.imp (fun _ l' h => ?_) fun _ h => h
      obtain ⟨⟨hl, hlt'⟩, hrun⟩ := h
      obtain ⟨q, hs'⟩ := l'
      obtain rfl : hs' = [] := hl.holes
      exact ⟨hl.toMoved, hlt', .block hr hfront hrun⟩
    rw [runs_bind, runs_byteAt, runs_ite]
    split
    · rename_i hhole
      obtain ⟨hopen, hbrace⟩ := hhole
      have hholes : l.holes ≠ [] := fun hnil => by
        rw [hnil] at hopen
        cases hopen
      have hc : c.toNat < 128 := by
        have hlow : byte.toNat < 128 := by
          rcases hbrace with rfl | ⟨rfl, -⟩ <;> decide
        obtain ⟨c', r', heq, hc, -⟩ := hr.of_byte hbyte hlow
        obtain ⟨rfl, -⟩ := List.cons.inj heq
        exact hc ▸ hlow
      rw [runs_bind]
      refine (runs_holeEnd l.position hr hc hholes).imp (fun kind l' h => ?_) fun _ h => h
      rw [runs_ite]
      split
      · refine (safe_noByteSuffix kind l.position).andThen h.1.boundary (fun kind' l'' hl => ?_) fun _ => h.1.trans
        rw [runs_bind, runs_position]
        exact ⟨h.1.trans hl.toMoved, Nat.lt_of_lt_of_le h.2 hl.le, rfl, hblank⟩
      · exact ⟨h.1, h.2, rfl, hblank⟩
    · rw [runs_bind]
      refine (runs_tokenKind l.position hr hbyte).imp (fun kind l' h => ?_) fun _ h => h
      rw [runs_bind]
      refine runs_trackHole kind fun hs => ?_
      rw [runs_bind, runs_position]
      exact ⟨⟨h.1.boundary, h.1.le⟩, h.2, rfl, hblank⟩

theorem runs_lineRound :
    Runs (lineRound ()) i l (fun result l' => Stays i l l' ∧ ∀ s, result = .inl s → l.position < l'.position) E := by
  obtain ⟨r, hr⟩ := hl
  rw [lineRound, runs_bind, runs_rest hr]
  cases r with
  | nil => exact ⟨.refl ⟨_, hr⟩, fun _ h => by cases h⟩
  | cons c r =>
    simp only
    rw [runs_ite]
    split
    · exact ⟨.refl ⟨_, hr⟩, fun _ h => by cases h⟩
    · rw [runs_bind, runs_advance]
      exact ⟨stays_at hr.next, fun _ _ => Nat.lt_add_of_pos_right c.utf8Size_pos⟩

theorem runs_line : Runs (loop lineRound ()) i l (fun _ l' => Stays i l l') E := by
  refine runs_loop (I := fun _ l' => Stays i l l') (fun _ l' h => ?_) (fun _ l' h => ?_) (.refl hl)
  · refine (runs_lineRound h.boundary).imp (fun result l'' hresult => ?_) fun _ h => h
    cases result with
    | inl s => exact ⟨h.trans hresult.1, hresult.2 s rfl⟩
    | inr b => exact h.trans hresult.1
  · obtain ⟨r, hr⟩ := h.boundary
    exact hr.le

end

theorem runs_recover {start : Nat} (inHole : Bool) (hr : At i.source start (c :: r)) (hl : Boundary i.source l.position)
    (hle : start ≤ l.position) :
    Runs (recover start inHole) i l (fun _ l' => Boundary i.source l'.position ∧ start < l'.position) E := by
  have hpos := c.utf8Size_pos
  have hmax : Boundary i.source (max l.position (start + c.utf8Size)) := by
    rcases Nat.le_total l.position (start + c.utf8Size) with h | h
    · rw [Nat.max_eq_right h]
      exact hr.next.boundary
    · rwa [Nat.max_eq_left h]
  have hlt : start < max l.position (start + c.utf8Size) := by omega
  rw [recover, runs_bind, runs_restAt hr]
  simp only
  rw [runs_bind, runs_position, runs_bind, runs_setPosition, runs_bind, runs_position, runs_ite]
  split
  · rw [runs_bind, runs_byteAt, runs_ite]
    split
    · exact ⟨hmax, hlt⟩
    · exact (runs_line (l := { l with position := max l.position (start + c.utf8Size) }) hmax).imp
        (fun _ _ h => ⟨h.boundary, Nat.lt_of_lt_of_le hlt h.le⟩) fun _ h => h
  rw [runs_ite]
  split
  · have hskip := stays_skip (l := { l with position := max l.position (start + c.utf8Size) }) (fun _ => isWord_high)
      hmax
    exact ⟨hskip.boundary, Nat.lt_of_lt_of_le hlt hskip.le⟩
  · exact ⟨hmax, hlt⟩

/-! ## The tokens in order -/

/-- White space and comments from `p` to `q`. -/
inductive Gap (i : Input) : Nat → Nat → Prop
  | nil {p : Nat} : Gap i p p
  | cons {p q s : Nat} (hpiece : Piece i p q) (hgap : Gap i q s) : Gap i p s

theorem Gap.snoc (h : Gap i p q) (hpiece : Piece i q s) : Gap i p s := by
  induction h with
  | nil => exact .cons hpiece .nil
  | cons hfirst _ ih => exact .cons hfirst (ih hpiece)

/-- The span is not empty, and starts and ends between two characters, from `p` on. -/
structure Sits (i : Input) (p : Nat) (span : Span) : Prop where
  start : p ≤ span.start
  finish : span.start < span.finish
  boundary : Boundary i.source span.start
  boundary' : Boundary i.source span.finish

/-- The spans follow each other from `p` to `q`. -/
inductive Advances (i : Input) : Nat → List Span → Nat → Prop
  | nil {p q : Nat} (h : p ≤ q) : Advances i p [] q
  | cons {p q : Nat} {span : Span} {spans : List Span} (h : Sits i p span) (hspans : Advances i span.finish spans q) :
    Advances i p (span :: spans) q

inductive Lexed (i : Input) : Nat → List Span → Nat → Prop
  | nil {p q : Nat} (hgap : Gap i p q) : Lexed i p [] q
  | cons {p q : Nat} {span : Span} {spans : List Span} (hgap : Gap i p span.start)
    (hblank : ∀ byte, i.source.bytes[span.start]? = some byte → isAsciiWhitespace byte = false)
    (hspans : Lexed i span.finish spans q) : Lexed i p (span :: spans) q

theorem Advances.mono (h : Advances i p spans q) (hle : q ≤ s) : Advances i p spans s := by
  induction h with
  | nil h => exact .nil (Nat.le_trans h hle)
  | cons h _ ih => exact .cons h (ih hle)

theorem Advances.snoc {span : Span} (h : Advances i p spans q) (hspan : Sits i q span) :
    Advances i p (spans ++ [span]) span.finish := by
  induction h with
  | nil h =>
    exact .cons ⟨Nat.le_trans h hspan.start, hspan.finish, hspan.boundary, hspan.boundary'⟩ (.nil (Nat.le_refl _))
  | cons h _ ih => exact .cons h (ih hspan)

theorem Lexed.gap (h : Lexed i p spans q) (hpiece : Piece i q s) : Lexed i p spans s := by
  induction h with
  | nil hgap => exact .nil (hgap.snoc hpiece)
  | cons hgap hblank _ ih => exact .cons hgap hblank (ih hpiece)

theorem Lexed.snoc (h : Lexed i p spans q)
    (hblank : ∀ byte, i.source.bytes[q]? = some byte → isAsciiWhitespace byte = false) :
    Lexed i p (spans ++ [⟨q, s⟩]) s := by
  induction h with
  | nil hgap => exact .cons hgap hblank (.nil .nil)
  | cons hgap hblank' _ ih => exact .cons hgap hblank' (ih hblank)

/-- What holds of the tokens and the diagnostics at a position. -/
structure Reading (i : Input) (p : Nat) (state : List Token × List Diagnostic) (l : Lexer) : Prop where
  boundary : Boundary i.source l.position
  advances : Advances i p (state.1.map Token.span) l.position
  lexed : state.2 = [] → Lexed i p (state.1.map Token.span) l.position

theorem runs_tokensRound {state : List Token × List Diagnostic} (recovering : Bool) (h : Reading i p state l) :
    Runs (tokensRound recovering state) i l (fun result l' => match result with
      | .inl state' => Reading i p state' l' ∧ l.position < l'.position
      | .inr state' => Reading i p state' l' ∧ (state'.2 = [] → l'.position = i.source.size)) E := by
  obtain ⟨r, hr⟩ := h.boundary
  rw [tokensRound, runs_bind, runs_position, runs_bind, runs_input, runs_ite]
  split
  · rename_i hfinish
    exact ⟨h, fun _ => Nat.le_antisymm hr.le hfinish⟩
  · rename_i hlt
    rw [runs_bind, runs_holes, runs_bind, runs_attempt]
    refine (runs_token h.boundary (Nat.not_le.mp hlt)).imp (fun result l' hgives => ?_) fun l' hl error _ => ?_
    · obtain ⟨hl, hmore, hresult⟩ := hgives
      cases result with
      | some token =>
        obtain ⟨hspan, hblank⟩ := hresult
        refine ⟨⟨hl.boundary, ?_, fun hnone => ?_⟩, hmore⟩
        · rw [map_append, map_singleton, hspan]
          exact h.advances.snoc ⟨Nat.le_refl _, hmore, h.boundary, hl.boundary⟩
        · rw [map_append, map_singleton, hspan]
          exact (h.lexed hnone).snoc hblank
      | none => exact ⟨⟨hl.boundary, h.advances.mono hl.le, fun hnone => (h.lexed hnone).gap hresult⟩, hmore⟩
    · -- an error
      have hsome : state.2 ++ [error] ≠ [] := by simp
      simp only
      rw [runs_bind, runs_setHoles, runs_ite]
      split
      · rw [runs_bind, runs_setPosition]
        exact ⟨⟨(at_size _).boundary, h.advances.mono hr.le, fun hnone => absurd hnone hsome⟩,
          fun hnone => absurd hnone hsome⟩
      · cases r with
        | nil => exact absurd (Nat.le_of_eq (by simpa using hr.size_eq.symm)) hlt
        | cons c r =>
          rw [runs_bind]
          refine (runs_recover (l := { l' with holes := [] }) _ hr hl.boundary hl.le).imp (fun _ l'' h' => ?_)
            fun _ h => h
          exact ⟨⟨h'.1, h.advances.mono (Nat.le_of_lt h'.2), fun hnone => absurd hnone hsome⟩, h'.2⟩

theorem span_setPaths (tokens : List Token) (j last : Nat) :
    (setPaths tokens j last).map Token.span = tokens.map Token.span := by
  refine ext_getElem (by simp [setPaths]) fun k hk hk' => ?_
  simp only [setPaths, getElem_mapIdx, getElem_map]
  split <;> rfl

theorem span_markPathsFrom (source : Text) (fuel : Nat) : ∀ (j : Nat) (tokens : List Token),
    (markPathsFrom source fuel j tokens).map Token.span = tokens.map Token.span := by
  induction fuel with
  | zero => exact fun _ _ => rfl
  | succ fuel ih =>
    intro j tokens
    rw [markPathsFrom]
    split
    · rfl
    simp only
    split
    · exact ih _ _
    · rw [ih]
      split
      · exact span_setPaths ..
      · rfl

theorem span_markPaths (source : Text) (tokens : List Token) :
    (markPaths source tokens).map Token.span = tokens.map Token.span := span_markPathsFrom ..

theorem boundary_contentStart (source : Text) : Boundary source (contentStart source) := by
  unfold contentStart
  split
  · rename_i hmark
    cases source with
    | nil => cases hmark
    | cons c source =>
      cases hmark
      exact (at_zero _).next.boundary
  unfold shebangLength
  split
  · obtain ⟨after, hafter⟩ := takeWhile_prefix (l := source) fun c => decide (c ≠ '\n')
    simp only
    generalize source.takeWhile (fun c => decide (c ≠ '\n')) = line at hafter ⊢
    subst hafter
    have hline := (at_zero (line ++ after)).append
    rw [Nat.zero_add] at hline
    split
    · rename_i hreturn
      obtain ⟨front, rfl⟩ := getLast?_eq_some_iff.mp hreturn
      have hfront : At (front ++ ['\r'] ++ after) (0 + size front) (['\r'] ++ after) := by
        have hzero := at_zero (front ++ ['\r'] ++ after)
        rw [append_assoc] at hzero ⊢
        exact hzero.append
      have hreturnSize : size (front ++ ['\r']) - 1 = 0 + size front := by
        have hone : '\r'.utf8Size = 1 := by decide
        rw [size_append, size_cons, size_nil, hone]
        omega
      rw [hreturnSize]
      exact hfront.boundary
    · exact hline.boundary
  · exact (at_zero _).boundary

theorem runs_tokens (recovering : Bool) (hp : Boundary i.source p) :
    Runs (tokens recovering) i ⟨p, []⟩ (fun result _ => ∃ spans q,
      result.1.map Token.span = spans ++ [⟨q, q⟩] ∧ Advances i p spans q ∧ Boundary i.source q ∧
      (result.2 = [] → Lexed i p spans q ∧ q = i.source.size)) E := by
  have hloop : Runs (loop (tokensRound recovering) ([], [])) i ⟨p, []⟩
      (fun state l => Reading i p state l ∧ (state.2 = [] → l.position = i.source.size)) E :=
    runs_loop (I := fun state l => Reading i p state l)
      (fun state l h => (runs_tokensRound recovering h).imp (fun result _ h => by cases result <;> exact h)
        fun _ h => h)
      (fun state l h => by
        obtain ⟨r, hr⟩ := h.boundary
        exact hr.le)
      ⟨hp, .nil (Nat.le_refl _), fun _ => .nil .nil⟩
  rw [tokens, runs_bind]
  refine hloop.imp (fun state l h => ?_) fun _ h => h
  obtain ⟨state₁, state₂⟩ := state
  obtain ⟨hreading, hfinish⟩ := h
  simp only
  rw [runs_bind, runs_position, runs_bind, runs_holes, runs_bind, runs_input, runs_pure]
  refine ⟨state₁.map Token.span, l.position, ?_, hreading.advances, hreading.boundary, fun hnone => ?_⟩
  · rw [span_markPaths, map_append, map_singleton]
  · cases hlast : l.holes.getLast? with
    | some hole => simp [hlast] at hnone
    | none =>
      simp only [hlast] at hnone
      exact ⟨hreading.lexed hnone, hfinish hnone⟩

end Tsuzuri.Lexing
