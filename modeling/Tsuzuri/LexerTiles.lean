import Tsuzuri.LexerTokens

/-!
# The pieces of a source

The trivia pass reads what is between two tokens a second time, piece by piece.
-/

namespace Tsuzuri.Lexing

open Text List

variable {i : Input} {l : Lexer} {E : Lexer → Prop} {p q s : Nat}

def Solid (i : Input) (s : Nat) : Prop :=
  ∀ byte, i.source.bytes[s]? = some byte → isAsciiWhitespace byte = false

theorem solid_size (i : Input) : Solid i i.source.size := by
  intro byte hbyte
  rw [size, getElem?_eq_none (Nat.le_refl _)] at hbyte
  cases hbyte

variable {r source : Text} {byte : UInt8} {spans : List Span}

theorem byte_slash {c : Char} (hr : At i.source p r) (hfront : ['/', c].isPrefixOf r = true) :
    i.source.bytes[p]? = some 47 := by
  obtain ⟨r', rfl⟩ := isPrefixOf_iff_prefix.mp hfront
  exact hr.byte_low (by decide)

theorem runs_of_eq {α : Type} {m : Scan α} {a : α} {l' : Lexer} {Q : α → Lexer → Prop} (h : m i l = .ok a l') :
    Runs m i l Q E ↔ Q a l' := by
  simp only [Runs, h]

theorem comment_moves (hr : At i.source p r) (hfront : ['/', '*'].isPrefixOf r = true)
    (hrun : comment i ⟨p, []⟩ = .ok () ⟨q, []⟩) : Boundary i.source q ∧ p < q := by
  obtain ⟨hmoved, hlt⟩ := (runs_of_eq hrun).mp (runs_comment (l := ⟨p, []⟩) hr hfront)
  exact ⟨hmoved.boundary, hlt⟩

theorem lt_lineEnd (hr : At i.source p r) (hfront : ['/', '/'].isPrefixOf r = true) :
    p + 1 < i.source.skip (fun byte => byte ≠ 10) p := by
  obtain ⟨r', rfl⟩ := isPrefixOf_iff_prefix.mp hfront
  have hfirst : i.source.bytes[p]? = some 47 := hr.byte_low (by decide)
  have hsecond : i.source.bytes[p + 1]? = some 47 := (hr.low (by decide)).byte_low (by decide)
  rw [skip_succ hfirst (by decide)]
  exact lt_skip hsecond (by decide)

theorem Piece.lt (h : Piece i p q) : p < q := by
  cases h with
  | space => exact Nat.lt_succ_self p
  | line hr hfront => exact Nat.lt_of_succ_lt (lt_lineEnd hr hfront)
  | block hr hfront hrun => exact (comment_moves hr hfront hrun).2

theorem Gap.le (h : Gap i p s) : p ≤ s := by
  induction h with
  | nil => exact Nat.le_refl _
  | cons hpiece _ ih => exact Nat.le_trans (Nat.le_of_lt hpiece.lt) ih

theorem Gap.succ (h : Gap i p s) (hs : Solid i s) (hbyte : i.source.bytes[p]? = some byte)
    (hspace : isAsciiWhitespace byte = true) : Gap i (p + 1) s := by
  have hslash : i.source.bytes[p]? ≠ some 47 := fun heq => by
    rw [hbyte] at heq
    cases heq
    cases hspace
  cases h with
  | nil =>
    rw [hs byte hbyte] at hspace
    cases hspace
  | cons hpiece hgap =>
    cases hpiece with
    | space => exact hgap
    | line hr hfront | block hr hfront => exact absurd (byte_slash hr hfront) hslash

theorem Gap.add {k : Nat} (h : Gap i p s) (hs : Solid i s)
    (hspace : ∀ j < k, ∃ byte, i.source.bytes[p + j]? = some byte ∧ isAsciiWhitespace byte = true) :
    Gap i (p + k) s := by
  induction k with
  | zero => exact h
  | succ k ih =>
    obtain ⟨byte, hbyte, hwhite⟩ := hspace k (Nat.lt_succ_self k)
    exact (ih fun j hj => hspace j (Nat.lt_succ_of_lt hj)).succ hs hbyte hwhite

/-- Between the tokens, where a piece from `p` has been read. -/
structure Inside (i : Input) (p s : Nat) (l : Lexer) : Prop where
  boundary : Boundary i.source l.position
  lt : p < l.position
  gap : Gap i l.position s
  holes : l.holes = []

def blank (byte : UInt8) : Bool := isAsciiWhitespace byte && !isNewline byte

theorem inside_blanks (hgap : Gap i p s) (hlt : p < s) (hs : Solid i s)
    (hbyte : i.source.bytes[p]? = some byte) (hblank : blank byte = true) :
    Inside i p s ⟨p + (((i.source.bytes.drop p).take (s - p)).takeWhile blank).length, []⟩ := by
  have hwhite : ∀ b : UInt8, blank b = true → isAsciiWhitespace b = true := fun b hb =>
    (Bool.and_eq_true_iff.mp hb).1
  have hlow : ∀ b : UInt8, blank b = true → b.toNat < 128 := fun b hb =>
    low_of_test isAsciiWhitespace_high (hwhite b hb)
  refine ⟨(boundary_of_byte hbyte (hlow _ hblank)).takeWhile hlow _, ?_, hgap.add hs fun j hj => ?_, rfl⟩
  · obtain ⟨hin, rfl⟩ := List.getElem?_eq_some_iff.mp hbyte
    obtain ⟨k, hk⟩ : ∃ k, s - p = k + 1 := ⟨s - p - 1, by omega⟩
    rw [drop_eq_getElem_cons hin, hk, take_succ_cons, takeWhile_cons_of_pos hblank]
    exact Nat.lt_add_of_pos_right (Nat.succ_pos _)
  · have hpass := all_eq_true.mp all_takeWhile _ (getElem_mem hj)
    have hinit : ((i.source.bytes.drop p).take (s - p)).takeWhile blank <+: i.source.bytes.drop p :=
      ( takeWhile_prefix blank).trans ( take_prefix _ _)
    refine ⟨_, ?_, hwhite _ hpass⟩
    rw [hinit.getElem hj, ← getElem?_drop, getElem?_eq_getElem]

theorem runs_trivium (hgap : Gap i p s) (hlt : p < s) (hs : Solid i s) :
    Runs (trivium s) i ⟨p, []⟩ (fun _ l' => Inside i p s l') E := by
  cases hgap with
  | nil => exact absurd hlt (Nat.lt_irrefl p)
  | cons hpiece hgap =>
    have hle := hgap.le
    cases hpiece with
    | space hbyte hspace =>
      have hlow := low_of_test isAsciiWhitespace_high hspace
      obtain ⟨r₀, hr₀⟩ := boundary_of_byte hbyte hlow
      obtain ⟨c, r, rfl, hc, hr⟩ := hr₀.of_byte hbyte hlow
      have hslash : ∀ d, ¬['/', d].isPrefixOf (c :: r) = true := fun d hfront => by
        rw [byte_slash hr₀ hfront] at hbyte
        cases hbyte
        cases hspace
      rw [trivium, runs_bind, runs_position, runs_bind, runs_rest hr₀, runs_bind, runs_input, runs_ite,
        if_neg (hslash _), runs_ite, if_neg (hslash _), runs_ite]
      split
      · -- a line break of two bytes
        rename_i hbreak
        obtain ⟨r', hsplit, hr'⟩ := hr₀.isPrefixOf (by decide) hbreak
        obtain ⟨-, rfl⟩ := List.cons.inj hsplit
        have hfeed : i.source.bytes[p + 1]? = some 10 := hr.byte_low (by decide)
        rw [runs_bind, runs_advance, runs_pure]
        exact ⟨hr'.boundary, Nat.lt_add_of_pos_right (by decide), hgap.succ hs hfeed (by decide), rfl⟩
      rw [runs_ite]
      split
      · rw [runs_bind, runs_advance, runs_pure]
        exact ⟨hr.boundary, Nat.lt_succ_self p, hgap, rfl⟩
      · rename_i hbreak
        rw [runs_bind, runs_advance, runs_pure]
        refine inside_blanks (.cons (.space hbyte hspace) hgap) hlt hs hbyte (Bool.and_eq_true_iff.mpr ⟨hspace, ?_⟩)
        rw [isNewline, Bool.not_eq_true', decide_eq_false_iff_not]
        rintro (rfl | rfl)
        · exact hbreak (.inr (congrArg some (Char.toNat_inj.mp hc)))
        · exact hbreak (.inl (congrArg some (Char.toNat_inj.mp hc)))
    | line hr hfront =>
      rename_i r
      have hstar : ¬['/', '*'].isPrefixOf r = true := fun hstar => by
        obtain ⟨r', rfl, -⟩ := hr.isPrefixOf (by decide) hfront
        cases hstar
      have hmore := lt_lineEnd hr hfront
      have hhigh : ∀ b : UInt8, 128 ≤ b.toNat → decide (b ≠ 10) = true := fun b hb =>
        decide_eq_true (eq_high hb (by decide))
      obtain ⟨r', hr', -⟩ := hr.skip hhigh
      rw [trivium, runs_bind, runs_position, runs_bind, runs_rest hr, runs_bind, runs_input, runs_ite, if_neg hstar,
        runs_ite, if_pos hfront, runs_bind, runs_skip, runs_bind, runs_position, runs_bind, runs_byteAt]
      simp only
      rw [runs_ite]
      split
      · -- the carriage return belongs to the line break
        rename_i hreturn
        have hlast := hreturn.2
        rw [runs_bind, runs_setPosition, runs_pure]
        refine ⟨boundary_of_byte hlast (by decide), by simp only; omega, .cons (.space hlast (by decide)) ?_, rfl⟩
        rwa [Nat.sub_add_cancel (by omega)]
      · exact ⟨hr'.boundary, Nat.lt_of_succ_lt hmore, hgap, rfl⟩
    | block hr hfront hrun =>
      obtain ⟨hq, hmore⟩ := comment_moves hr hfront hrun
      rw [trivium, runs_bind, runs_position, runs_bind, runs_rest hr, runs_bind, runs_input, runs_ite, if_pos hfront,
        runs_bind, runs_of_eq hrun, runs_pure]
      exact ⟨hq, hmore, hgap, rfl⟩

/-! ## Tiles -/

/-- The spans follow each other from `p` to `q`, without a gap, each of them between characters. -/
inductive Tiles (source : Text) : Nat → List Span → Nat → Prop
  | nil {p : Nat} (hp : Boundary source p) : Tiles source p [] p
  | cons {p q s : Nat} {spans : List Span} (hp : Boundary source p) (hlt : p < q) (hspans : Tiles source q spans s) :
    Tiles source p (⟨p, q⟩ :: spans) s

theorem Tiles.append {spans' : List Span} (h : Tiles source p spans q) (h' : Tiles source q spans' s) :
    Tiles source p (spans ++ spans') s := by
  induction h with
  | nil => exact h'
  | cons hp hlt _ ih => exact .cons hp hlt (ih h')

theorem Tiles.snoc (h : Tiles source p spans q) (hlt : q < s) (hq : Boundary source q)
    (hs : Boundary source s) : Tiles source p (spans ++ [⟨q, s⟩]) s :=
  h.append (.cons hq hlt (.nil hs))

/-- What the pieces read so far are: they tile the source from `p`, and hold its text. -/
structure Read (i : Input) (p s : Nat) (leading : List Trivia) (l : Lexer) : Prop where
  boundary : Boundary i.source l.position
  gap : Gap i l.position s
  holes : l.holes = []
  tiles : Tiles i.source p (leading.map Trivia.span) l.position
  text : ∀ trivia ∈ leading, i.source.slice? trivia.span.start trivia.span.finish = some trivia.text

theorem runs_triviaRound {leading : List Trivia} (hs : Solid i s) (h : Read i p s leading l) :
    Runs (triviaRound s leading) i l (fun result l' => match result with
      | .inl leading' => Read i p s leading' l' ∧ l.position < l'.position
      | .inr leading' => Read i p s leading' l' ∧ l'.position = s) E := by
  rw [triviaRound, runs_bind, runs_position, runs_ite]
  split
  · rename_i hle
    exact ⟨h, Nat.le_antisymm h.gap.le hle⟩
  · rename_i hlt
    obtain ⟨q, hs'⟩ := l
    obtain rfl : hs' = [] := h.holes
    rw [runs_bind]
    refine (runs_trivium h.gap (Nat.not_le.mp hlt) hs).imp (fun kind l' hin => ?_) fun _ h => h
    obtain ⟨text, htext⟩ := h.boundary.slice hin.boundary (Nat.le_of_lt hin.lt)
    rw [runs_bind, runs_position, runs_bind, runs_slice htext]
    refine ⟨⟨hin.boundary, hin.gap, hin.holes, ?_, fun trivia hmem => ?_⟩, hin.lt⟩
    · rw [map_append, map_singleton]
      exact h.tiles.snoc hin.lt h.boundary hin.boundary
    · rcases mem_append.mp hmem with hmem | hmem
      · exact h.text trivia hmem
      · obtain rfl := mem_singleton.mp hmem
        exact htext

theorem runs_leading (hp : Boundary i.source p) (hgap : Gap i p s) (hs : Solid i s) :
    Runs (loop (triviaRound s) []) i ⟨p, []⟩ (fun leading l' => Read i p s leading l' ∧ l'.position = s) E := by
  refine runs_loop (I := fun leading l => Read i p s leading l) (fun leading l h => ?_) (fun leading l h => ?_)
    ⟨hp, hgap, rfl, .nil hp, fun _ hmem => nomatch hmem⟩
  · exact (runs_triviaRound hs h).imp (fun result _ h => by cases result <;> exact h) fun _ h => h
  · obtain ⟨r, hr⟩ := h.boundary
    exact hr.le

def pieces (token : TokenWithTrivia) : List Span := token.leading.map Trivia.span ++ [token.token.span]

def Faithful (source : Text) (tokens : List TokenWithTrivia) : Prop :=
  ∀ token ∈ tokens, ∀ trivia ∈ token.leading, source.slice? trivia.span.start trivia.span.finish = some trivia.text

theorem Faithful.cons {token : TokenWithTrivia} {tokens : List TokenWithTrivia} (h' : Faithful source tokens)
    (h : ∀ trivia ∈ token.leading, source.slice? trivia.span.start trivia.span.finish = some trivia.text) :
    Faithful source (token :: tokens) := by
  intro token' hmem
  rcases mem_cons.mp hmem with rfl | hmem
  · exact h
  · exact h' token' hmem

theorem runs_withTrivia {last : Token} (hlast : last.span = ⟨q, q⟩) (hq : Solid i q) {tokens : List Token}
    (hp : Boundary i.source p) (hlexed : Lexed i p (tokens.map Token.span) q)
    (hadvances : Advances i p (tokens.map Token.span) q) :
    Runs (withTrivia (tokens ++ [last])) i ⟨p, []⟩ (fun result _ =>
      result.map TokenWithTrivia.token = tokens ++ [last] ∧ Faithful i.source result ∧
      ∃ front, result.flatMap pieces = front ++ [⟨q, q⟩] ∧ Tiles i.source p front q) E := by
  induction tokens generalizing p with
  | nil =>
    rw [map_nil] at hlexed
    cases hlexed with
    | nil hgap =>
      rw [nil_append, withTrivia, hlast, runs_bind]
      refine (runs_leading hp hgap hq).imp (fun leading l' h => ?_) fun _ h => h
      rw [runs_bind, runs_setPosition, withTrivia, runs_bind, runs_pure, runs_pure]
      obtain ⟨hread, hend⟩ := h
      have hnone : Faithful i.source [] := fun _ hmem => nomatch hmem
      refine ⟨rfl, hnone.cons hread.text, leading.map Trivia.span, ?_, hend ▸ hread.tiles⟩
      simp [pieces, hlast]
  | cons token tokens ih =>
    rw [map_cons] at hlexed hadvances
    cases hlexed with
    | cons hgap hblank hspans =>
      cases hadvances with
      | cons hsits hrest =>
        rw [cons_append, withTrivia, runs_bind]
        refine (runs_leading hp hgap hblank).imp (fun leading l' h => ?_) fun _ h => h
        obtain ⟨hread, hend⟩ := h
        obtain ⟨p', hs'⟩ := l'
        obtain rfl : hs' = [] := hread.holes
        obtain rfl : p' = token.span.start := hend
        rw [runs_bind, runs_setPosition, runs_bind]
        refine (ih hsits.boundary' hspans hrest).imp (fun result l'' h => ?_) fun _ h => h
        obtain ⟨hmap, hfaithful, front, hfront, htiles⟩ := h
        rw [runs_pure]
        refine ⟨by rw [map_cons, hmap], hfaithful.cons hread.text,
          leading.map Trivia.span ++ ([token.span] ++ front), ?_, ?_⟩
        · rw [flatMap_cons, hfront]
          simp [pieces]
        · exact hread.tiles.append (.cons hsits.boundary hsits.finish htiles)

/-! ## Whole sources -/

theorem Advances.le (h : Advances i p spans q) : p ≤ q := by
  induction h with
  | nil h => exact h
  | cons h _ ih => exact Nat.le_trans h.start (Nat.le_trans (Nat.le_of_lt h.finish) ih)

def Before (a b : Span) : Prop := a.start < a.finish ∧ a.finish ≤ b.start

theorem Advances.mem (h : Advances i p spans q) {span : Span} (hmem : span ∈ spans) :
    p ≤ span.start ∧ Boundary i.source span.start ∧ Boundary i.source span.finish := by
  induction h with
  | nil => cases hmem
  | cons h _ ih =>
    rcases mem_cons.mp hmem with rfl | hmem
    · exact ⟨h.start, h.boundary, h.boundary'⟩
    · have htail := ih hmem
      exact ⟨Nat.le_trans h.start (Nat.le_trans (Nat.le_of_lt h.finish) htail.1), htail.2⟩

theorem Advances.pairwise (h : Advances i p spans q) : (spans ++ [Span.mk q q]).Pairwise Before := by
  induction h with
  | nil => exact pairwise_singleton _ _
  | cons h hspans ih =>
    rw [cons_append, pairwise_cons]
    refine ⟨fun span hmem => ⟨h.finish, ?_⟩, ih⟩
    rcases mem_append.mp hmem with hmem | hmem
    · exact (hspans.mem hmem).1
    · obtain rfl := mem_singleton.mp hmem
      exact hspans.le

theorem tokenize_ok (recovering : Bool) (input : Input) : ∃ tokens diagnostics,
    tokenize recovering input = some (tokens, diagnostics) ∧
    (tokens = [] ∧ diagnostics ≠ [] ∨ ∃ spans q, tokens.map Token.span = spans ++ [⟨q, q⟩] ∧
      Advances input (contentStart input.source) spans q ∧ Boundary input.source q ∧
      (diagnostics = [] → Lexed input (contentStart input.source) spans q ∧ q = input.source.size)) := by
  unfold tokenize
  split
  · exact ⟨[], _, rfl, .inl ⟨rfl, cons_ne_nil _ _⟩⟩
  · have hrun := runs_tokens (i := input) (E := fun _ => False) recovering (boundary_contentStart input.source)
    unfold Runs at hrun
    split at hrun
    · rename_i result l heq
      exact ⟨result.1, result.2, by rw [heq], .inr hrun⟩
    · exact hrun.elim
    · exact hrun.elim

def lead (source : Text) : List Span := if contentStart source = 0 then [] else [⟨0, contentStart source⟩]

theorem tiles_lead (source : Text) : Tiles source 0 (lead source) (contentStart source) := by
  unfold lead
  split
  · rename_i hzero
    rw [hzero]
    exact .nil (at_zero source).boundary
  · rename_i hpos
    exact .cons (at_zero source).boundary (Nat.pos_of_ne_zero hpos) (.nil (boundary_contentStart source))

/-- Lexing always ends: with tokens that advance between characters and, when nothing is wrong with the text, with
pieces that tile it together with what is in front of them. -/
theorem lexWithTrivia_tiles (input : Input) :
    (∀ tokens, lex input = some (.ok tokens) → ∃ result, lexWithTrivia input = some (.ok result) ∧
      result.map TokenWithTrivia.token = tokens ∧ Faithful input.source result ∧
      ∃ front, result.flatMap pieces = front ++ [⟨input.source.size, input.source.size⟩] ∧
        Tiles input.source 0 (lead input.source ++ front) input.source.size) ∧
    ∃ tokens diagnostics, lexAll input = some (tokens, diagnostics) ∧ (tokens.map Token.span).Pairwise Before ∧
      ∀ token ∈ tokens, Boundary input.source token.span.start ∧ Boundary input.source token.span.finish := by
  constructor
  · intro tokens hlex
    obtain ⟨tokens', diagnostics, htokenize, hcases⟩ := tokenize_ok false input
    rw [lex, htokenize, Option.map_some] at hlex
    have hnone : diagnostics = [] ∧ tokens' = tokens := by
      cases diagnostics with
      | nil => exact ⟨rfl, Except.ok.inj (Option.some.inj hlex)⟩
      | cons => cases Option.some.inj hlex
    obtain ⟨rfl, rfl⟩ := hnone
    rcases hcases with ⟨-, hnil⟩ | ⟨spans, q, hspans, hadvances, -, hlexed⟩
    · exact absurd rfl hnil
    obtain ⟨hlexed, rfl⟩ := hlexed rfl
    obtain ⟨front, last, rfl, rfl, hlast⟩ := map_eq_append_iff.mp hspans
    obtain ⟨last, rfl⟩ : ∃ token, last = [token] :=
      length_eq_one_iff.mp (by simpa using congrArg List.length hlast)
    obtain ⟨hlast, -⟩ := List.cons.inj hlast
    have hrun := runs_withTrivia (E := fun _ => False) hlast (solid_size input)
      (boundary_contentStart input.source) hlexed hadvances
    have hlex' : lex input = some (.ok (front ++ [last])) := by
      rw [lex, htokenize]
      rfl
    rw [lexWithTrivia, hlex']
    simp only
    unfold Runs at hrun
    split at hrun
    · rename_i result l heq
      obtain ⟨hmap, hfaithful, pieces, hpieces, htiles⟩ := hrun
      exact ⟨result, by rw [heq], hmap, hfaithful, pieces, hpieces, (tiles_lead _).append htiles⟩
    · exact hrun.elim
    · exact hrun.elim
  · obtain ⟨tokens, diagnostics, htokenize, hcases⟩ := tokenize_ok true input
    refine ⟨tokens, diagnostics, htokenize, ?_⟩
    rcases hcases with ⟨rfl, -⟩ | ⟨spans, q, hspans, hadvances, hq, -⟩
    · exact ⟨.nil, fun _ hmem => nomatch hmem⟩
    · refine ⟨hspans ▸ hadvances.pairwise, fun token hmem => ?_⟩
      have hspan := mem_map_of_mem (f := Token.span) hmem
      rw [hspans] at hspan
      rcases mem_append.mp hspan with hspan | hspan
      · exact (hadvances.mem hspan).2
      · rw [mem_singleton.mp hspan]
        exact ⟨hq, hq⟩

theorem lexWithTrivia_tiles_comment :
    let input : Input := ⟨['\ufeff', 'a', ' ', '/', '*', 'é', '*', '/', '+'], 0, [], fun _ => ""⟩
    ∃ result, lexWithTrivia input = some (.ok result) ∧
      result.map TokenWithTrivia.token = [⟨.ident "a", ⟨3, 4⟩⟩, ⟨.plus, ⟨11, 12⟩⟩, ⟨.finish, ⟨12, 12⟩⟩] ∧
      Faithful input.source result ∧
      ∃ front, result.flatMap pieces = front ++ [⟨12, 12⟩] ∧ Tiles input.source 0 (⟨0, 3⟩ :: front) 12 :=
  (lexWithTrivia_tiles _).1 _ (by rfl)

end Tsuzuri.Lexing
