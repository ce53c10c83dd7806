import Tsuzuri.JsonReader
import Tsuzuri.JsonParse

/-!
# Which error is reported

An object reports the earlier of an error and of a repeated key among the keys read so far.
-/

namespace Tsuzuri.Json

open FaultVec List Option

variable {text : List Nat}

/-! ## Repeated keys -/

theorem firstDuplicate_keys (members : List (Str × Value)) :
    firstDuplicate ((members.map Prod.fst).map fun name => (name, .null)) = firstDuplicate members := by
  unfold firstDuplicate
  simp [Function.comp_def]

def duplicateOf (names : List Str) (offsets : List Nat) : Option Error :=
  (firstDuplicate (names.map fun name => (name, .null))).bind fun d =>
    names[d]?.bind fun key => offsets[d]?.map fun offset => { kind := .duplicateKey key, offset }

variable {names : List Str} {offsets : List Nat} {e x : Error} {tokens keys : List Lexeme}
  {members : List (Str × Value)} {read : Members} {last : Nat}

theorem duplicateOf_mem (h : duplicateOf names offsets = some e) : e.offset ∈ offsets := by
  unfold duplicateOf at h
  obtain ⟨d, -, h⟩ := bind_eq_some_iff.mp h
  obtain ⟨key, -, h⟩ := bind_eq_some_iff.mp h
  obtain ⟨offset, hoffset, rfl⟩ := map_eq_some_iff.mp h
  exact mem_of_getElem? hoffset

theorem duplicateAmong_ok (h : tokens.length = names.length) :
    duplicateAmong tokens names = .ok (duplicateOf names (tokens.map (·.start - 1))) := by
  unfold duplicateAmong duplicateOf
  cases hd : firstDuplicate (names.map fun name => (name, .null)) with
  | none => rfl
  | some d =>
    have hlt := firstDuplicate_lt hd
    rw [length_map] at hlt
    have hkey : names[d]? = some names[d] := getElem?_eq_getElem hlt
    have htoken : tokens[d]? = some tokens[d] := getElem?_eq_getElem (by omega)
    simp only [hkey, htoken, bind_some, getElem?_map, map_some]

def sooner : Option Error → Error → Error
  | some repeated, e => if repeated.offset < e.offset then repeated else e
  | none, e => e

theorem sooner_left (h : x.offset < e.offset) : sooner (some x) e = x :=
  if_pos h

theorem sooner_right (h : ¬ x.offset < e.offset) : sooner (some x) e = e :=
  if_neg h

theorem sooner_offset (p : Nat → Prop) {found : Option Error} (he : p e.offset)
    (hfound : ∀ x, found = some x → p x.offset) : p (sooner found e).offset := by
  cases found with
  | none => exact he
  | some x =>
    by_cases hlt : x.offset < e.offset
    · rw [sooner_left hlt]
      exact hfound x rfl
    · rw [sooner_right hlt]
      exact he

theorem objectFailure_some (e : Error) (h : offsets.length = members.length) : objectFailure members offsets (some e)
      = .ok (some (sooner (duplicateOf (members.map Prod.fst) offsets) e)) := by
  unfold objectFailure duplicateOf
  rw [firstDuplicate_keys]
  cases hd : firstDuplicate members with
  | none => rfl
  | some d =>
    have hlt := firstDuplicate_lt hd
    have hmember : members[d]? = some members[d] := getElem?_eq_getElem hlt
    have hoffset : offsets[d]? = some offsets[d] := getElem?_eq_getElem (by omega)
    simp only [hmember, hoffset, bind_some, getElem?_map, map_some, sooner]
    split
    all_goals rfl

theorem objectFailure_alone (h : offsets.length = members.length) :
    objectFailure members offsets none = .ok (duplicateOf (members.map Prod.fst) offsets) := by
  unfold objectFailure duplicateOf
  rw [firstDuplicate_keys]
  cases hd : firstDuplicate members with
  | none => rfl
  | some d =>
    have hlt := firstDuplicate_lt hd
    have hmember : members[d]? = some members[d] := getElem?_eq_getElem hlt
    have hoffset : offsets[d]? = some offsets[d] := getElem?_eq_getElem (by omega)
    simp only [hmember, hoffset, bind_some, getElem?_map, map_some]

theorem closeObject_error (h : read.offsets.length = read.members.length) (hout : read.outcome = .error (.failure e)) :
    closeObject read = .error (.failure (sooner (duplicateOf (read.members.map Prod.fst) read.offsets) e)) := by
  unfold closeObject
  rw [hout]
  simp only [objectFailure_some e h]
  rfl

theorem closeObject_end {j : Nat} (h : read.offsets.length = read.members.length) (hout : read.outcome = .ok j) :
    closeObject read = match duplicateOf (read.members.map Prod.fst) read.offsets with
      | some e => .error (.failure e)
      | none => .ok (.object read.members, j) := by
  unfold closeObject
  rw [hout]
  simp only [objectFailure_alone h]
  rfl

/-! ## Open objects -/

def Names (text : List Nat) (tokens : List Lexeme) (names : List Str) : Prop :=
  tokens.mapM (keyOf text) = .ok names

theorem names_nil (text : List Nat) : Names text [] [] := rfl

theorem Names.concat {token : Lexeme} {name : Str} (h : Names text tokens names) (hname : keyOf text token = .ok name) :
    Names text (tokens ++ [token]) (names ++ [name]) := by
  unfold Names at *
  rw [mapM_append, h]
  simp only [mapM_cons, hname, mapM_nil]
  rfl

theorem mapM_length {α β : Type} {f : α → Parse β} : ∀ {xs : List α} {ys : List β},
    xs.mapM f = .ok ys → xs.length = ys.length
  | [], ys, h => by
    obtain rfl : [] = ys := Except.ok.inj h
    rfl
  | x :: xs, ys, h => by
    rw [mapM_cons] at h
    cases hx : f x with
    | error e =>
      rw [hx] at h
      cases h
    | ok y =>
      cases hxs : xs.mapM f with
      | error e =>
        rw [hx, hxs] at h
        cases h
      | ok zs =>
        rw [hx, hxs] at h
        obtain rfl : y :: zs = ys := Except.ok.inj h
        rw [length_cons, length_cons, mapM_length hxs]

theorem repeatedKey_last (h : Names text tokens names) :
    repeatedKey text (keys ++ tokens) keys.length (keys ++ tokens).length
      = .ok (duplicateOf names (tokens.map (·.start - 1))) := by
  have hbetween : keysBetween (keys ++ tokens) keys.length (keys ++ tokens).length = .ok tokens := by
    rw [keysBetween, if_pos le_rfl, take_length, drop_left]
  unfold repeatedKey
  rw [hbetween]
  change (tokens.mapM (keyOf text) >>= duplicateAmong tokens) = _
  rw [show tokens.mapM (keyOf text) = .ok names from h]
  exact duplicateAmong_ok (mapM_length h)

theorem repeatedKey_outer (tokens : List Lexeme) (first : Nat) (h : last ≤ keys.length) :
    repeatedKey text (keys ++ tokens) first last = repeatedKey text keys first last := by
  have hbetween : keysBetween (keys ++ tokens) first last = keysBetween keys first last := by
    unfold keysBetween
    rw [length_append, if_pos (by omega), if_pos h, take_append_of_le_length h]
  unfold repeatedKey
  rw [hbetween]

theorem repeatedKey_mem {first : Nat} (h : repeatedKey text keys first last = .ok (some e)) :
    ∃ t ∈ keys, e.offset = t.start - 1 := by
  unfold repeatedKey keysBetween at h
  split at h
  · change (List.mapM (keyOf text) _ >>= _) = _ at h
    cases hnames : ((keys.take last).drop first).mapM (keyOf text) with
    | error stop =>
      rw [hnames] at h
      cases h
    | ok names =>
      rw [hnames] at h
      change duplicateAmong _ names = _ at h
      rw [duplicateAmong_ok (mapM_length hnames)] at h
      have hmem := duplicateOf_mem (Except.ok.inj h)
      obtain ⟨t, ht, heq⟩ := mem_map.mp hmem
      exact ⟨t, mem_of_mem_take (mem_of_mem_drop ht), heq.symm⟩
  · cases h

theorem duplicate_ge {i : Nat} (htokens : ∀ t ∈ tokens, i ≤ t.start - 1)
    (h : duplicateOf names (tokens.map (·.start - 1)) = some e) : i ≤ e.offset := by
  obtain ⟨t, ht, heq⟩ := mem_map.mp (duplicateOf_mem h)
  rw [← heq]
  exact htokens t ht

theorem earliest_cons (keys : List Lexeme) (first : Nat) (marks : List Nat) (best : Error) :
    earliest text keys (first :: marks) best
      = repeatedKey text keys first (marks.head?.getD keys.length) >>= fun found =>
          earliest text keys marks (sooner found best) := by
  rw [earliest]
  refine bind_congr fun found => ?_
  cases found with
  | none => rfl
  | some x =>
    simp only [sooner]
    split
    all_goals rfl

section Nested

variable {keys tokens : List Lexeme} {names : List Str} {i : Nat}

theorem earliest_last (hnames : Names text tokens names) (best : Error) :
    earliest text (keys ++ tokens) [keys.length] best
      = .ok (sooner (duplicateOf names (tokens.map (·.start - 1))) best) := by
  rw [earliest_cons]
  change (repeatedKey text (keys ++ tokens) keys.length (keys ++ tokens).length >>= _) = _
  rw [repeatedKey_last hnames]
  rfl

variable {marks : List Nat} {best : Error}

theorem earliest_around (tokens : List Lexeme) (first : Nat) (hmarks : ∀ m ∈ marks, m ≤ keys.length) (best : Error) :
    earliest text (keys ++ tokens) (first :: (marks ++ [keys.length])) best
      = repeatedKey text keys first (marks.head?.getD keys.length) >>= fun found =>
          earliest text (keys ++ tokens) (marks ++ [keys.length]) (sooner found best) := by
  have hlast : (marks ++ [keys.length]).head?.getD (keys ++ tokens).length = marks.head?.getD keys.length := by
    cases marks with
    | nil => rfl
    | cons m marks => rfl
  have hle : marks.head?.getD keys.length ≤ keys.length := by
    cases marks with
    | nil => exact le_rfl
    | cons m marks => exact hmarks m mem_cons_self
  rw [earliest_cons, hlast, repeatedKey_outer tokens first hle]

variable (hkeys : ∀ t ∈ keys, t.start - 1 < i) (hnames : Names text tokens names)
  (htokens : ∀ t ∈ tokens, i ≤ t.start - 1)

include hkeys hnames htokens

theorem earliest_outer (hmarks : ∀ m ∈ marks, m ≤ keys.length) (hbest : best.offset < i) :
    earliest text (keys ++ tokens) (marks ++ [keys.length]) best = earliest text keys marks best := by
  induction marks generalizing best with
  | nil =>
    rw [nil_append, earliest_last hnames]
    cases hdup : duplicateOf names (tokens.map (·.start - 1)) with
    | none => rfl
    | some x =>
      have := duplicate_ge htokens hdup
      rw [sooner_right (by omega)]
      rfl
  | cons first marks ih =>
    obtain ⟨-, hmarks⟩ := forall_mem_cons.mp hmarks
    rw [cons_append, earliest_around tokens first hmarks, earliest_cons]
    cases hrep : repeatedKey text keys first (marks.head?.getD keys.length) with
    | error stop => rfl
    | ok found =>
      refine ih hmarks (sooner_offset (· < i) hbest fun x hx => ?_)
      rw [hx] at hrep
      obtain ⟨t, ht, hoff⟩ := repeatedKey_mem hrep
      rw [hoff]
      exact hkeys t ht

theorem earliest_nested (hmarks : ∀ m ∈ marks, m ≤ keys.length) (hbest : i ≤ best.offset) :
    earliest text (keys ++ tokens) (marks ++ [keys.length]) best
      = earliest text keys marks (sooner (duplicateOf names (tokens.map (·.start - 1))) best) := by
  have hsooner : i ≤ (sooner (duplicateOf names (tokens.map (·.start - 1))) best).offset :=
    sooner_offset (i ≤ ·) hbest fun x hx => duplicate_ge htokens hx
  induction marks with
  | nil => exact earliest_last hnames best
  | cons first marks ih =>
    obtain ⟨-, hmarks⟩ := forall_mem_cons.mp hmarks
    rw [cons_append, earliest_around tokens first hmarks, earliest_cons]
    cases hrep : repeatedKey text keys first (marks.head?.getD keys.length) with
    | error stop => rfl
    | ok found =>
      cases found with
      | none => exact ih hmarks
      | some x =>
        obtain ⟨t, ht, hoff⟩ := repeatedKey_mem hrep
        have hx : x.offset < i := by
          rw [hoff]
          exact hkeys t ht
        change earliest text (keys ++ tokens) (marks ++ [keys.length]) (sooner (some x) best)
          = earliest text keys marks (sooner (some x) _)
        rw [sooner_left (by omega), sooner_left (by omega)]
        exact earliest_outer hkeys hnames htokens hmarks hx

end Nested

end Tsuzuri.Json
