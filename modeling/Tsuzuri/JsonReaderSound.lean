import Tsuzuri.JsonReaderScan
import Tsuzuri.JsonReaderErrors

/-!
# The pull parser agrees with the parser

The recursion of the parser is simulated by the stack of the reader.
-/

namespace Tsuzuri.Json

open FaultVec Unicode List

variable {text : List Nat} {i j : Nat}

inductive Steps (text : List Nat) : Reader → List Event → Reader → Prop
  | refl (r : Reader) : Steps text r [] r
  | step {r r' r'' : Reader} {event : Event} {events : List Event}
      (h : r.next text = .ok (event, r')) (hne : event ≠ .endOfInput)
      (hrest : Steps text r' events r'') : Steps text r (event :: events) r''

variable {r r' q q' : Reader} {events more : List Event} {event : Event} {outcome : Parse Unit}
  {t : Token} {v : Value} {e : Error} {b depth k : Nat} {token : Lexeme} {s key : Str}
  {value : Nat → Parse (Value × Nat)} {members : List (Str × Value)} {keyToks : List Lexeme}

theorem Steps.trans {r'' : Reader} (h : Steps text r events r') (h' : Steps text r' more r'') :
    Steps text r (events ++ more) r'' := by
  induction h with
  | refl r => exact h'
  | step hnext hne _ ih => exact .step hnext hne (ih h')

theorem Steps.single (h : r.next text = .ok (event, r')) (hne : event ≠ .endOfInput) : Steps text r [event] r' :=
  .step h hne (.refl r')

theorem Steps.pulls (h : Steps text r events r') (h' : Pulls text r' more outcome) :
    Pulls text r (events ++ more) outcome := by
  induction h with
  | refl r => exact h'
  | step hnext hne _ ih => exact .more hnext hne (ih h')

def Spell (text : List Nat) (events : List Event) (ts : List Token) : Prop :=
  events.mapM (tokenOf text) = .ok ts

theorem spell_nil (text : List Nat) : Spell text [] [] := rfl

theorem Spell.append {ts us : List Token} (h : Spell text events ts) (h' : Spell text more us) :
    Spell text (events ++ more) (ts ++ us) := by
  unfold Spell at *
  rw [mapM_append, h, h']
  rfl

theorem spell_single (h : tokenOf text event = .ok t) : Spell text [event] [t] := by
  unfold Spell
  rw [mapM_cons, h]
  rfl

def Agrees (text : List Nat) (r : Reader) (i : Nat) : Parse (Value × Nat) → Prop
  | .ok (v, j) => ∃ events, Steps text r events (r.afterValue j) ∧ Spell text events (tokens v)
  | .error (.failure e) => i ≤ e.offset ∧ ∃ events r', Steps text r events r' ∧ r'.next text = readerFailure text r e
  | .error (.trap _) => False

theorem agrees_event (hnext : r.next text = .ok (event, r.afterValue j)) (hne : event ≠ .endOfInput)
    (htoken : tokenOf text event = .ok t) (hv : tokens v = [t]) : Agrees text r i (.ok (v, j)) :=
  ⟨[event], .single hnext hne, by rw [hv]; exact spell_single htoken⟩

theorem agrees_failure (hoff : i ≤ e.offset) (hnext : r.next text = readerFailure text r e) :
    Agrees text r i (.error (.failure e)) :=
  ⟨hoff, [], r, .refl r, hnext⟩

theorem skipSpace_ge (text : List Nat) (i : Nat) : i ≤ skipSpace text i :=
  Nat.le_add_right i _

theorem skipSpace_le (h : i ≤ text.length) : skipSpace text i ≤ text.length := by
  obtain ⟨ws, rest, hd, -, -, hskip, -⟩ := skipSpace_sound text i
  rw [hskip]
  exact le_of_drop h hd

theorem valid_skipSpace (h : Valid (text.drop i)) : Valid (text.drop (skipSpace text i)) := by
  obtain ⟨ws, rest, hd, hws, -, -, hrest⟩ := skipSpace_sound text i
  rw [hd] at h
  rw [hrest]
  exact h.of_ascii_append hws.ascii

theorem valid_succ (h : Valid (text.drop i)) (hget : text[i]? = some b) (hb : b < 128) : Valid (text.drop (i + 1)) := by
  rw [drop_of_get hget] at h
  exact h.tail_of_ascii hb

theorem lt_of_get (h : text[i]? = some b) : i < text.length :=
  (List.getElem?_eq_some_iff.mp h).1

def Advances (text : List Nat) (value : Nat → Parse (Value × Nat)) : Prop :=
  ∀ {i v j}, Valid (text.drop i) → i ≤ text.length → value i = .ok (v, j) →
    i < j ∧ j ≤ text.length ∧ Valid (text.drop j)

theorem parseValue_advances {fuel : Nat} (hdepth : depth ≤ 128) :
    Advances text fun index => parseValue text fuel index depth := by
  intro i v j hv hi h
  obtain ⟨t, hd, rfl, ⟨hden, -, -⟩, hvj⟩ := parseValue_sound fuel hdepth hv h
  obtain ⟨b, s, rfl, -⟩ := denotes_start hden
  have := le_of_drop hi hd
  exact ⟨by simp, this, hvj⟩

/-- The keys of the open objects stand before an offset. -/
structure Before (r : Reader) (i : Nat) : Prop where
  keys : ∀ t ∈ r.keys, t.start - 1 < i
  marks : ∀ m ∈ r.marks, m ≤ r.keys.length

theorem Before.mono (h : Before r i) (hij : i ≤ j) : Before r j :=
  ⟨fun t ht => Nat.lt_of_lt_of_le (h.keys t ht) hij, h.marks⟩

theorem Before.keyed (h : Before r i) (hk : q.keys = r.keys ++ [token]) (hm : q.marks = r.marks)
    (hij : i ≤ j) (htoken : token.start - 1 < j) : Before q j := by
  constructor
  · intro t ht
    rw [hk] at ht
    rcases mem_append.mp ht with ht | ht
    · exact Nat.lt_of_lt_of_le (h.keys t ht) hij
    · rw [mem_singleton.mp ht]
      exact htoken
  · intro m hmem
    rw [hm] at hmem
    rw [hk, length_append]
    exact Nat.le_add_right_of_le (h.marks m hmem)

def AgreesAt (text : List Nat) (count : Nat) (value : Nat → Parse (Value × Nat)) : Prop :=
  ∀ {q : Reader} {k : Nat}, q.next text = q.readValue text k → Valid (text.drop k) →
    k ≤ text.length → q.containers.length = count → Before q k → Agrees text q k (value k)

theorem tokenText_ok {e : Bool} (hq : text[i]? = some 34) (hij : i < j) (hj : j < text.length)
    (h : parseString text i = .ok (s, j + 1)) :
    tokenText text { start := i + 1, finish := j, escaped := e } = .ok s := by
  have hstart : i + 1 - 1 = i := rfl
  unfold tokenText
  simp only [hstart, hq]
  rw [if_neg (by
    rintro (hbad | hbad | hbad | hbad)
    · omega
    · omega
    · omega
    · exact hbad rfl), h]
  change (if j + 1 = j + 1 then Except.ok s else _) = _
  rw [if_pos rfl]

theorem keyOf_ok {e : Bool} (h : parseString text i = .ok (s, j + 1)) :
    keyOf text { start := i + 1, finish := j, escaped := e } = .ok s := by
  have hstart : i + 1 - 1 = i := rfl
  unfold keyOf
  simp only [hstart, h]

theorem parseString_end (hq : text[i]? = some 34) (hv : Valid (text.drop i)) (h : parseString text i = .ok (s, j + 1)) :
    j < text.length ∧ Valid (text.drop (j + 1)) := by
  obtain ⟨t, hd, -, hj, hvj⟩ := parseString_sound hq hv h
  have hlen := congrArg List.length hd
  have hlt := lt_of_get hq
  simp only [length_drop, length_cons, length_append] at hlen
  exact ⟨by omega, hvj⟩

theorem tokenNumeral_ok {finish : Nat} (hi : i ≤ text.length) (h : scanNumber text i = .ok finish) :
    tokenNumeral text { start := i, finish, escaped := false } = .ok ((text.drop i).take (finish - i)) := by
  obtain ⟨t, rest, hd, hn, rfl⟩ := scanNumber_sound h
  obtain ⟨b, s, ht, -⟩ := numeral_start hn
  have hle := le_of_drop hi hd
  have hpos : 0 < t.length := by
    rw [ht]
    simp
  have hcandidate : (text.drop i).take (i + t.length - i) = t := by
    rw [Nat.add_sub_cancel_left, hd, take_left]
  unfold tokenNumeral
  simp only [hcandidate]
  rw [if_neg (by omega), if_pos (isNumeral_iff.mpr hn)]

theorem text_agrees (hnext : r.next text = r.readValue text i) (hq : text[i]? = some 34) (hv : Valid (text.drop i)) :
    Agrees text r i (parseString text i >>= fun p => .ok (.text p.1, p.2)) := by
  have hread : r.readValue text i = Reader.orFailure text r (scanString text i) fun p =>
      .ok (.textToken p.1, r.afterValue p.2) := by
    rw [Reader.readValue, hq]
    rfl
  rw [hread] at hnext
  rcases scanString_agrees hq hv with ⟨s, j, e, hij, hparse, hscan⟩ | ⟨e, hoff, hparse, hscan⟩
  · obtain ⟨hj, -⟩ := parseString_end hq hv hparse
    rw [hscan] at hnext
    rw [hparse]
    refine agrees_event hnext (by simp) ?_ rfl
    change (tokenText text _ >>= _) = _
    rw [tokenText_ok hq hij hj hparse]
    rfl
  · rw [hscan] at hnext
    rw [hparse]
    exact agrees_failure hoff hnext

theorem word_agrees {word : List Nat}
    (hnext : r.next text = Reader.orFailure text r (keyword text i word .null) fun p =>
      .ok (event, r.afterValue p.2)) (hi : i ≤ text.length) (hne : event ≠ .endOfInput)
    (htoken : tokenOf text event = .ok t) (hv : tokens v = [t]) : Agrees text r i (keyword text i word v) := by
  rw [keyword_eq]
  cases hword : keyword text i word .null with
  | ok p =>
    rw [hword] at hnext
    exact agrees_event hnext hne htoken hv
  | error stop =>
    obtain ⟨e, rfl, hoff⟩ := keyword_error hi hword
    rw [hword] at hnext
    exact agrees_failure hoff hnext

theorem number_agrees (hnext : r.next text = Reader.orFailure text r (scanNumber text i) fun finish =>
      .ok (.numberToken { start := i, finish, escaped := false }, r.afterValue finish))
    (hi : i ≤ text.length) : Agrees text r i (numberAt text i) := by
  unfold numberAt
  cases hscan : scanNumber text i with
  | ok finish =>
    rw [hscan] at hnext
    refine agrees_event hnext (by simp) ?_ rfl
    change (tokenNumeral text _ >>= _) = _
    rw [tokenNumeral_ok hi hscan]
    rfl
  | error stop =>
    obtain ⟨e, rfl, hoff⟩ := scanNumber_error hi hscan
    rw [hscan] at hnext
    exact agrees_failure hoff hnext

/-! ## Arrays -/

theorem next_afterValue (text : List Nat) {outer : List Bool} {object : Bool}
    (h : q.containers = outer ++ [object]) (j : Nat) :
    (q.afterValue j).next text = (q.afterValue j).afterItem text (skipSpace text j) object := by
  have hstate : (q.afterValue j).state = 1 := by
    simp [Reader.afterValue, h]
  have hlast : (q.afterValue j).containers.getLast? = some object := by
    simp [Reader.afterValue, h]
  unfold Reader.next
  simp only [hstate, hlast]
  rfl

/-- The reader is inside an array that was opened from `r`. -/
structure InArray (r q : Reader) : Prop where
  containers : q.containers = r.containers ++ [false]
  keys : q.keys = r.keys
  marks : q.marks = r.marks

theorem InArray.afterValue (h : InArray r q) (j : Nat) : InArray r (q.afterValue j) :=
  ⟨h.containers, h.keys, h.marks⟩

theorem InArray.failure (h : InArray r q) (e : Error) :
    (readerFailure text q e : Parse (Event × Reader)) = readerFailure text r e := by
  unfold readerFailure
  rw [h.keys, h.marks]

theorem InArray.close (h : InArray r q) (index : Nat) :
    q.closeContainer text index false = .ok (.arrayEnd, r.afterValue (index + 1)) := by
  obtain ⟨position, containers, keys, marks, state⟩ := q
  obtain ⟨rfl, rfl, rfl⟩ := h
  simp [Reader.closeContainer, Reader.afterValue, bind, Except.bind]

theorem InArray.before (h : InArray r q) (hr : Before r i) : Before q i := by
  constructor
  · rw [h.keys]
    exact hr.keys
  · rw [h.keys, h.marks]
    exact hr.marks

def ItemsAgree (text : List Nat) (r q : Reader) (items : List Value) (i : Nat) : Parse (List Value × Nat) → Prop
  | .ok (all, j) => ∃ vs events, all = items ++ vs ∧ Steps text q events (r.afterValue j) ∧
      Spell text events (itemTokens vs ++ [.arrayEnd])
  | .error (.failure e) => i ≤ e.offset ∧ ∃ events q', Steps text q events q' ∧ q'.next text = readerFailure text r e
  | .error (.trap _) => False

theorem ItemsAgree.steps {items : List Value} {item : Value} {rest : Parse (List Value × Nat)}
    (hsteps : Steps text q events q') (hspell : Spell text events (tokens item))
    (h : ItemsAgree text r q' (items ++ [item]) i rest) : ItemsAgree text r q items i rest := by
  cases rest with
  | error stop =>
    cases stop with
    | trap fault => exact h
    | failure e =>
      obtain ⟨hoff, more, q'', hmore, hfail⟩ := h
      exact ⟨hoff, events ++ more, q'', hsteps.trans hmore, hfail⟩
  | ok p =>
    obtain ⟨all, j⟩ := p
    obtain ⟨vs, more, rfl, hmore, hspell'⟩ := h
    refine ⟨item :: vs, events ++ more, by simp, hsteps.trans hmore, ?_⟩
    rw [itemTokens, append_assoc]
    exact hspell.append hspell'

section Items

variable {value : Nat → Parse (Value × Nat)} {fuel k next : Nat} {items : List Value} {item : Value}
  (hval : value k = .ok (item, next))

include hval

theorem itemsFrom_none (hget : text[skipSpace text next]? = none) :
    itemsFrom value text (fuel + 1) items k = fail .unexpectedEnd text.length := by
  rw [itemsFrom, hval]
  simp only [bind, Except.bind, hget]

theorem itemsFrom_some {byte : Nat} (hget : text[skipSpace text next]? = some byte) :
    itemsFrom value text (fuel + 1) items k = if byte = 44 then
        itemsFrom value text fuel (items ++ [item]) (skipSpace text (skipSpace text next + 1))
      else if byte = 93 then .ok (items ++ [item], skipSpace text next + 1)
      else fail .syntax_ (skipSpace text next) := by
  rw [itemsFrom, hval]
  simp only [bind, Except.bind, hget]

end Items

theorem itemsFrom_agrees (hvalue : AgreesAt text (r.containers.length + 1) value)
    (hadv : Advances text value) (hr : Before r i) (fuel : Nat) (items : List Value) (hq : InArray r q)
    (hnext : q.next text = q.readValue text k) (hv : Valid (text.drop k)) (hik : i ≤ k)
    (hk : k ≤ text.length) (hfuel : text.length - k < fuel) :
    ItemsAgree text r q items i (itemsFrom value text fuel items k) := by
  induction fuel generalizing items q k with
  | zero => omega
  | succ fuel ih =>
    have hcount : q.containers.length = r.containers.length + 1 := by
      rw [hq.containers, length_append]
      rfl
    have hagree := hvalue hnext hv hk hcount ((hq.before hr).mono hik)
    cases hval : value k with
    | error stop =>
      rw [hval] at hagree
      rw [itemsFrom, hval]
      cases stop with
      | trap fault => exact hagree
      | failure e =>
        obtain ⟨hoff, events, q', hsteps, hfail⟩ := hagree
        refine ⟨by omega, events, q', hsteps, ?_⟩
        rw [hfail, hq.failure]
    | ok p =>
      obtain ⟨item, next⟩ := p
      rw [hval] at hagree
      obtain ⟨events, hsteps, hspell⟩ := hagree
      obtain ⟨hlt, hle, hvnext⟩ := hadv hv hk hval
      have hq' := hq.afterValue next
      have hafter := next_afterValue text hq.containers next
      have hge := skipSpace_ge text next
      unfold Reader.afterItem at hafter
      cases hget : text[skipSpace text next]? with
      | none =>
        rw [hget] at hafter
        rw [itemsFrom_none hval hget]
        refine ⟨?_, events, _, hsteps, ?_⟩
        · exact Nat.le_trans (by omega) hle
        · rw [hafter, hq'.failure]
      | some byte =>
        rw [hget] at hafter
        rw [itemsFrom_some hval hget]
        have hsep := lt_of_get hget
        simp only at hafter
        by_cases h44 : byte = 44
        · rw [if_pos h44] at hafter ⊢
          have hv' := valid_skipSpace (valid_succ (valid_skipSpace hvnext) hget (by omega))
          have hge' := skipSpace_ge text (skipSpace text next + 1)
          refine ItemsAgree.steps hsteps hspell ?_
          exact ih (items ++ [item]) hq' hafter hv' (by omega) (skipSpace_le hsep) (by omega)
        rw [if_neg h44] at hafter ⊢
        by_cases h93 : byte = 93
        · rw [if_pos (by simp [h93]), hq'.close] at hafter
          rw [if_pos h93]
          refine ItemsAgree.steps hsteps hspell ⟨[], [.arrayEnd], by simp, ?_, spell_single rfl⟩
          exact .single hafter (by simp)
        · rw [if_neg (by simp [h93]), if_neg (by simp), hq'.failure] at hafter
          rw [if_neg h93]
          exact ⟨by simp only; omega, events, _, hsteps, hafter⟩

/-! ## Objects -/

/-- The reader is inside an object that was opened from `r` at `i` and has these keys. -/
structure InObject (text : List Nat) (r q : Reader) (i : Nat) (tokens : List Lexeme)
    (names : List Str) : Prop where
  containers : q.containers = r.containers ++ [true]
  keys : q.keys = r.keys ++ tokens
  marks : q.marks = r.marks ++ [r.keys.length]
  names : Names text tokens names
  after : ∀ t ∈ tokens, i ≤ t.start - 1

section InObject

variable {r q : Reader} {keyTokens : List Lexeme} {names : List Str}

variable (h : InObject text r q i keyTokens names)

include h

theorem InObject.of_eq (hc : q'.containers = q.containers) (hk : q'.keys = q.keys) (hm : q'.marks = q.marks) :
    InObject text r q' i keyTokens names :=
  ⟨hc.trans h.containers, hk.trans h.keys, hm.trans h.marks, h.names, h.after⟩

theorem InObject.count : q.containers.length = r.containers.length + 1 := by
  rw [h.containers, length_append]
  rfl

theorem InObject.keyed {name : Str} (hc : q'.containers = q.containers) (hk : q'.keys = q.keys ++ [token])
    (hm : q'.marks = q.marks) (hname : keyOf text token = .ok name) (hafter : i ≤ token.start - 1) :
    InObject text r q' i (keyTokens ++ [token]) (names ++ [name]) := by
  refine ⟨hc.trans h.containers, ?_, hm.trans h.marks, h.names.concat hname, ?_⟩
  · rw [hk, h.keys, append_assoc]
  · intro t ht
    rcases mem_append.mp ht with ht | ht
    · exact h.after t ht
    · rw [mem_singleton.mp ht]
      exact hafter

theorem InObject.failure (hr : Before r i) (he : i ≤ e.offset) : (readerFailure text q e : Parse (Event × Reader))
      = readerFailure text r (sooner (duplicateOf names (keyTokens.map (·.start - 1))) e) := by
  unfold readerFailure
  rw [h.keys, h.marks, earliest_nested hr.keys h.names h.after hr.marks he]

theorem InObject.sooner_ge (he : i ≤ e.offset) :
    i ≤ (sooner (duplicateOf names (keyTokens.map (·.start - 1))) e).offset :=
  sooner_offset (i ≤ ·) he fun _ hx => duplicate_ge h.after hx

theorem InObject.close (hr : Before r i) (index : Nat) : q.closeContainer text index true =
      match duplicateOf names (keyTokens.map (·.start - 1)) with
      | some e => readerFailure text r e
      | none => .ok (.objectEnd, r.afterValue (index + 1)) := by
  have hmark : q.lastMark = .ok r.keys.length := by
    simp [Reader.lastMark, h.marks]
  have hrep : repeatedKey text q.keys r.keys.length q.keys.length
      = .ok (duplicateOf names (keyTokens.map (·.start - 1))) := by
    rw [h.keys]
    exact repeatedKey_last h.names
  unfold Reader.closeContainer
  rw [if_pos rfl, hmark]
  change ((if true = true then repeatedKey text q.keys r.keys.length q.keys.length
    else Except.ok none) >>= _) = _
  rw [if_pos rfl, hrep]
  cases hdup : duplicateOf names (keyTokens.map (·.start - 1)) with
  | some e =>
    have he := duplicate_ge h.after hdup
    have hfail := h.failure hr he
    rw [hdup] at hfail
    change readerFailure text q e = readerFailure text r e
    rw [hfail, sooner_right (Nat.lt_irrefl _)]
  | none =>
    obtain ⟨position, containers, keys, marks, state⟩ := q
    obtain ⟨hc, hk, hm, -, -⟩ := h
    simp only at hc hk hm
    subst hc hk hm
    change Except.ok _ = Except.ok _
    simp [Reader.afterValue]

end InObject

def MembersAgree (text : List Nat) (r q : Reader) (members : List (Str × Value)) (i : Nat) (read : Members) : Prop :=
  read.offsets.length = read.members.length ∧ match read.outcome with
    | .ok j => ∃ ms events q', read.members = members ++ ms ∧ Steps text q events q' ∧
        Spell text events (memberTokens ms) ∧
        (∀ e, duplicateOf (read.members.map Prod.fst) read.offsets = some e → i ≤ e.offset) ∧
        q'.next text = match duplicateOf (read.members.map Prod.fst) read.offsets with
          | some e => readerFailure text r e
          | none => .ok (.objectEnd, r.afterValue j)
    | .error (.failure e) =>
      i ≤ (sooner (duplicateOf (read.members.map Prod.fst) read.offsets) e).offset ∧
        ∃ events q', Steps text q events q' ∧ q'.next text = readerFailure text r
          (sooner (duplicateOf (read.members.map Prod.fst) read.offsets) e)
    | .error (.trap _) => False

theorem membersAgree_failure {all : List (Str × Value)} {keyTokens : List Lexeme} (hr : Before r i)
    (hq' : InObject text r q' i keyTokens (all.map Prod.fst)) (he : i ≤ e.offset) {q'' : Reader}
    (hsteps : Steps text q events q'') (hnext : q''.next text = readerFailure text q' e) :
    MembersAgree text r q members i
      { members := all, offsets := keyTokens.map (·.start - 1), outcome := .error (.failure e) } := by
  refine ⟨?_, hq'.sooner_ge he, events, q'', hsteps, ?_⟩
  · have := mapM_length hq'.names
    simpa using this
  · rw [hnext]
    exact hq'.failure hr he

theorem MembersAgree.steps {read : Members} (hsteps : Steps text q events q')
    (hspell : Spell text events (keyTokens (key, v))) (h : MembersAgree text r q' (members ++ [(key, v)]) i read) :
    MembersAgree text r q members i read := by
  obtain ⟨hlen, h⟩ := h
  refine ⟨hlen, ?_⟩
  cases hout : read.outcome with
  | ok j =>
    rw [hout] at h
    obtain ⟨ms, more, q'', hms, hmore, hspell', hge, hnext⟩ := h
    refine ⟨(key, v) :: ms, events ++ more, q'', ?_, hsteps.trans hmore, ?_, hge, hnext⟩
    · rw [hms]
      simp
    · rw [memberTokens]
      exact hspell.append hspell'
  | error stop =>
    rw [hout] at h
    cases stop with
    | trap fault => exact h
    | failure e =>
      obtain ⟨hoff, more, q'', hmore, hnext⟩ := h
      exact ⟨hoff, events ++ more, q'', hsteps.trans hmore, hnext⟩

theorem separator_agrees {rest : Nat → Members} {next : Nat} (hr : Before r i)
    (hq : InObject text r q i keyToks (members.map Prod.fst)) (hnext : i ≤ next) (hle : next ≤ text.length)
    (hrest : ∀ sep, next ≤ sep → text[sep]? = some 44 →
      (q.afterValue next).next text = (q.afterValue next).readKey text (skipSpace text (sep + 1)) →
      skipSpace text next = sep →
      MembersAgree text r (q.afterValue next) members i (rest (skipSpace text (sep + 1)))) :
    MembersAgree text r (q.afterValue next) members i (match text[skipSpace text next]? with
      | none =>
        { members, offsets := keyToks.map (·.start - 1), outcome := fail .unexpectedEnd text.length }
      | some byte =>
        if byte = 44 then rest (skipSpace text (skipSpace text next + 1))
        else if byte = 125 then
          { members, offsets := keyToks.map (·.start - 1), outcome := .ok (skipSpace text next + 1) }
        else
          { members, offsets := keyToks.map (·.start - 1)
            outcome := fail .syntax_ (skipSpace text next) }) := by
  have hq' : InObject text r (q.afterValue next) i keyToks (members.map Prod.fst) :=
    hq.of_eq rfl rfl rfl
  have hafter := next_afterValue text hq.containers next
  have hge := skipSpace_ge text next
  unfold Reader.afterItem at hafter
  cases hget : text[skipSpace text next]? with
  | none =>
    rw [hget] at hafter
    exact membersAgree_failure hr hq' (by simp only; omega) (.refl _) hafter
  | some byte =>
    rw [hget] at hafter
    simp only at hafter ⊢
    by_cases h44 : byte = 44
    · rw [if_pos h44] at hafter ⊢
      rw [h44] at hget
      exact hrest _ hge hget hafter rfl
    rw [if_neg h44] at hafter ⊢
    by_cases h125 : byte = 125
    · rw [if_neg (by simp), if_pos (by simp [h125]), hq'.close hr] at hafter
      rw [if_pos h125]
      refine ⟨?_, [], [], _, by simp, .refl _, spell_nil text, ?_, hafter⟩
      · have := mapM_length hq'.names
        simpa using this
      · intro e he
        exact duplicate_ge hq'.after he
    · rw [if_neg (by simp), if_neg (by simp [h125])] at hafter
      rw [if_neg h125]
      exact membersAgree_failure hr hq' (by simp only; omega) (.refl _) hafter

theorem member_agrees (hvalue : AgreesAt text (r.containers.length + 1) value) (hr : Before r i)
    (hik : i ≤ k) (hk : k ≤ text.length) (hv : Valid (text.drop k))
    (hin : ∀ v, InObject text r q' i keyToks ((members ++ [(key, v)]).map Prod.fst)) (hbefore : Before q' k)
    (hnext : q'.next text = q'.readValue text k) (hstep : Steps text q [.keyToken token] q')
    (htext : tokenText text token = .ok key) {rest : Value → Nat → Members}
    (hrest : ∀ {item next}, value k = .ok (item, next) →
      MembersAgree text r (q'.afterValue next) (members ++ [(key, item)]) i (rest item next)) :
    MembersAgree text r q members i (match value k with
      | .error stop =>
        { members := members ++ [(key, .null)], offsets := keyToks.map (·.start - 1)
          outcome := .error stop }
      | .ok (item, next) => rest item next) := by
  have hspell : Spell text [.keyToken token] [.key key] := by
    refine spell_single ?_
    change (tokenText text token >>= _) = _
    rw [htext]
    rfl
  have hagree := hvalue hnext hv hk (hin .null).count hbefore
  cases hval : value k with
  | error stop =>
    rw [hval] at hagree
    cases stop with
    | trap fault => exact hagree.elim
    | failure e =>
      obtain ⟨hoff, events, q'', hsteps, hfail⟩ := hagree
      exact membersAgree_failure hr (hin .null) (by omega) (hstep.trans hsteps) hfail
  | ok p =>
    obtain ⟨item, next⟩ := p
    rw [hval] at hagree
    obtain ⟨events, hsteps, hvspell⟩ := hagree
    exact MembersAgree.steps (hstep.trans hsteps) (hspell.append hvspell) (hrest hval)

theorem membersFrom_agrees (hvalue : AgreesAt text (r.containers.length + 1) value)
    (hadv : Advances text value) (hr : Before r i) (fuel : Nat) (members : List (Str × Value))
    (hq : InObject text r q i keyToks (members.map Prod.fst)) (hbefore : Before q k)
    (hnext : q.next text = q.readKey text k) (hv : Valid (text.drop k)) (hik : i ≤ k) (hk : k ≤ text.length)
    (hfuel : text.length - k < fuel) :
    MembersAgree text r q members i (membersFrom value text fuel members (keyToks.map (·.start - 1)) k) := by
  induction fuel generalizing members q k keyToks with
  | zero => omega
  | succ fuel ih =>
    rw [membersFrom]
    unfold Reader.readKey at hnext
    cases hget : text[k]? with
    | none =>
      rw [hget] at hnext
      exact membersAgree_failure hr hq (by simp only; omega) (.refl q) hnext
    | some byte =>
    rw [hget] at hnext
    simp only at hnext ⊢
    by_cases h34 : byte ≠ 34
    · rw [if_pos h34] at hnext ⊢
      exact membersAgree_failure hr hq hik (.refl q) hnext
    rw [if_neg h34] at hnext ⊢
    obtain rfl : byte = 34 := not_not.mp h34
    rcases scanString_agrees hget hv with ⟨key, j, esc, hkj, hparse, hscan⟩ | ⟨e, hoff, hparse, hscan⟩
    · obtain ⟨hj, hvj⟩ := parseString_end hget hv hparse
      have htext := tokenText_ok (e := esc) hget hkj hj hparse
      have htoken := keyOf_ok (e := esc) hparse
      have hstart : k = (Lexeme.mk (k + 1) j esc).start - 1 := rfl
      rw [hscan] at hnext
      rw [hparse]
      simp only [Reader.orFailure] at hnext ⊢
      generalize Lexeme.mk (k + 1) j esc = token at hnext htext htoken hstart
      have hnames : ∀ v : Value, (members ++ [(key, v)]).map Prod.fst = members.map Prod.fst ++ [key] := by simp
      have hoffsets : keyToks.map (·.start - 1) ++ [k] = (keyToks ++ [token]).map (·.start - 1) := by
        rw [map_append, map_singleton, ← hstart]
      rw [hoffsets]
      have hafter : i ≤ token.start - 1 := by omega
      have hcge := skipSpace_ge text (j + 1)
      -- the key is read, its colon not yet
      have hkeyed : InObject text r { q with keys := q.keys ++ [token] } i (keyToks ++ [token])
          ((members ++ [(key, Value.null)]).map Prod.fst) := by
        rw [hnames]
        exact hq.keyed rfl rfl rfl htoken hafter
      cases hcolon : text[skipSpace text (j + 1)]? with
      | none =>
        rw [hcolon] at hnext
        exact membersAgree_failure hr hkeyed (by simp only; omega) (.refl q) hnext
      | some byte =>
      rw [hcolon] at hnext
      simp only at hnext ⊢
      by_cases h58 : byte ≠ 58
      · rw [if_pos h58] at hnext ⊢
        exact membersAgree_failure hr hkeyed (by simp only; omega) (.refl q) hnext
      rw [if_neg h58] at hnext ⊢
      obtain rfl : byte = 58 := not_not.mp h58
      -- behind the colon, before the value
      generalize hq1 : Reader.mk (skipSpace text (j + 1) + 1) q.containers (q.keys ++ [token]) q.marks 6 = q1 at hnext
      have hin : ∀ v : Value, InObject text r q1 i (keyToks ++ [token]) ((members ++ [(key, v)]).map Prod.fst) := by
        intro v
        rw [hnames, ← hq1]
        exact hq.keyed rfl rfl rfl htoken hafter
      have hnext1 : q1.next text = q1.readValue text (skipSpace text (skipSpace text (j + 1) + 1)) := by
        rw [← hq1]
        rfl
      have hclt := lt_of_get hcolon
      have hvk := valid_skipSpace (valid_succ (valid_skipSpace hvj) hcolon (by decide))
      have hvge := skipSpace_ge text (skipSpace text (j + 1) + 1)
      have hkle : skipSpace text (skipSpace text (j + 1) + 1) ≤ text.length := skipSpace_le hclt
      generalize skipSpace text (skipSpace text (j + 1) + 1) = vi at hnext1 hvk hvge hkle ⊢
      have hbefore1 : Before q1 vi := by
        rw [← hq1]
        exact hbefore.keyed rfl rfl (by omega) (by omega)
      refine member_agrees hvalue hr (by omega) hkle hvk hin hbefore1 hnext1 (.single hnext (by simp)) htext ?_
      intro item next hval
      obtain ⟨hlt, hle, hvnext⟩ := hadv hvk hkle hval
      simp only [replaceLast_concat]
      refine separator_agrees hr (hin item) (by omega) hle ?_
      intro sep hsep hcomma hready hskip
      have hslt := lt_of_get hcomma
      have hge' := skipSpace_ge text (sep + 1)
      have hvsep : Valid (text.drop sep) := by
        rw [← hskip]
        exact valid_skipSpace hvnext
      exact ih (members ++ [(key, item)]) ((hin item).of_eq rfl rfl rfl)
        ⟨(hbefore1.mono (by omega)).keys, hbefore1.marks⟩ hready
        (valid_skipSpace (valid_succ hvsep hcomma (by decide))) (by omega) (skipSpace_le hslt)
        (by omega)
    · rw [hscan] at hnext
      rw [hparse]
      simp only [Reader.orFailure] at hnext ⊢
      exact membersAgree_failure hr hq (by omega) (.refl q) hnext

/-! ## Values -/

section Containers

variable {r : Reader} {value : Nat → Parse (Value × Nat)}
  (hvalue : r.containers.length < 128 → AgreesAt text (r.containers.length + 1) value)
  (hadv : r.containers.length < 128 → Advances text value)
  (hr : Before r i) (hv : Valid (text.drop i))

include hvalue hadv hr hv

theorem array_agrees (hnext : r.next text = r.openContainer text i false) (hget : text[i]? = some 91) :
    Agrees text r i (parseItems value text i r.containers.length) := by
  unfold parseItems
  unfold Reader.openContainer at hnext
  have hlt := lt_of_get hget
  by_cases hdeep : 128 ≤ r.containers.length
  · rw [if_pos hdeep] at hnext ⊢
    exact agrees_failure le_rfl hnext
  rw [if_neg hdeep] at hnext ⊢
  have hroom : r.containers.length < 128 := by omega
  simp only [Bool.false_eq_true, if_false] at hnext
  generalize hq : Reader.mk (i + 1) (r.containers ++ [false]) r.keys r.marks 2 = q at hnext
  have hin : InArray r q := by
    rw [← hq]
    exact ⟨rfl, rfl, rfl⟩
  have hopen : Steps text r [.arrayStart] q := .single hnext (by simp)
  have hstart : Spell text [.arrayStart] [.arrayStart] := spell_single rfl
  have hready : q.next text =
      if text[skipSpace text (i + 1)]? = some 93 then q.closeContainer text (skipSpace text (i + 1)) false
      else q.readValue text (skipSpace text (i + 1)) := by
    rw [← hq]
    rfl
  have hge := skipSpace_ge text (i + 1)
  simp only
  by_cases h93 : text[skipSpace text (i + 1)]? = some 93
  · rw [if_pos h93, hin.close] at hready
    rw [if_pos h93]
    refine ⟨[.arrayStart] ++ [.arrayEnd], hopen.trans (.single hready (by simp)), ?_⟩
    exact hstart.append (spell_single rfl)
  · rw [if_neg h93] at hready
    rw [if_neg h93]
    have hagree := itemsFrom_agrees (hvalue hroom) (hadv hroom) hr (text.length + 1) [] hin hready
      (valid_skipSpace (valid_succ hv hget (by decide))) (by omega) (skipSpace_le hlt) (by omega)
    cases hres : itemsFrom value text (text.length + 1) [] (skipSpace text (i + 1)) with
    | error stop =>
      rw [hres] at hagree
      cases stop with
      | trap fault => exact hagree
      | failure e =>
        obtain ⟨hoff, events, q', hsteps, hfail⟩ := hagree
        exact ⟨hoff, _, q', hopen.trans hsteps, hfail⟩
    | ok p =>
      obtain ⟨all, j⟩ := p
      rw [hres] at hagree
      obtain ⟨vs, events, hall, hsteps, hspell⟩ := hagree
      obtain rfl : all = vs := hall
      refine ⟨_, hopen.trans hsteps, ?_⟩
      rw [tokens]
      exact hstart.append hspell

theorem object_agrees (hnext : r.next text = r.openContainer text i true) (hget : text[i]? = some 123) :
    Agrees text r i (parseObject value text i r.containers.length) := by
  unfold parseObject
  unfold Reader.openContainer at hnext
  have hlt := lt_of_get hget
  by_cases hdeep : 128 ≤ r.containers.length
  · rw [if_pos hdeep] at hnext ⊢
    exact agrees_failure le_rfl hnext
  rw [if_neg hdeep] at hnext ⊢
  have hroom : r.containers.length < 128 := by omega
  simp only [if_true] at hnext
  generalize hq : Reader.mk (i + 1) (r.containers ++ [true]) r.keys (r.marks ++ [r.keys.length]) 4 = q at hnext
  have hin : InObject text r q i [] [] := by
    rw [← hq]
    exact ⟨rfl, by simp, rfl, names_nil text, by simp⟩
  have hopen : Steps text r [.objectStart] q := .single hnext (by simp)
  have hstart : Spell text [.objectStart] [.objectStart] := spell_single rfl
  have hready : q.next text = if text[skipSpace text (i + 1)]? = some 125 then
        q.closeContainer text (skipSpace text (i + 1)) true
      else q.readKey text (skipSpace text (i + 1)) := by
    rw [← hq]
    rfl
  have hge := skipSpace_ge text (i + 1)
  simp only
  by_cases h125 : text[skipSpace text (i + 1)]? = some 125
  · rw [if_pos h125, hin.close hr] at hready
    rw [if_pos h125]
    refine ⟨[.objectStart] ++ [.objectEnd], hopen.trans (.single hready (by simp)), ?_⟩
    exact hstart.append (spell_single rfl)
  rw [if_neg h125] at hready
  rw [if_neg h125]
  have hbefore : Before q (skipSpace text (i + 1)) := by
    rw [← hq]
    constructor
    · exact (hr.mono (by omega)).keys
    · intro m hm
      rcases mem_append.mp hm with hm | hm
      · exact hr.marks m hm
      · rw [mem_singleton.mp hm]
  have hagree := membersFrom_agrees (hvalue hroom) (hadv hroom) hr (text.length + 1) [] hin hbefore hready
    (valid_skipSpace (valid_succ hv hget (by decide))) (by omega) (skipSpace_le hlt) (by omega)
  change MembersAgree text r q [] i (membersFrom value text (text.length + 1) [] [] (skipSpace text (i + 1))) at hagree
  generalize membersFrom value text (text.length + 1) [] [] (skipSpace text (i + 1)) = read at hagree
  obtain ⟨hlen, hagree⟩ := hagree
  cases hout : read.outcome with
  | ok j =>
    rw [hout] at hagree
    obtain ⟨ms, events, q', hms, hsteps, hspell, hdupge, hend⟩ := hagree
    rw [closeObject_end hlen hout]
    cases hdup : duplicateOf (read.members.map Prod.fst) read.offsets with
    | some e =>
      rw [hdup] at hend
      exact ⟨hdupge e hdup, _, q', hopen.trans hsteps, hend⟩
    | none =>
      rw [hdup] at hend
      refine ⟨_, (hopen.trans hsteps).trans (.single hend (by simp)), ?_⟩
      rw [hms, nil_append, tokens]
      exact (hstart.append hspell).append (spell_single rfl)
  | error stop =>
    rw [hout] at hagree
    cases stop with
    | trap fault => exact hagree.elim
    | failure e =>
      obtain ⟨hoff, events, q', hsteps, hfail⟩ := hagree
      rw [closeObject_error hlen hout]
      exact ⟨hoff, _, q', hopen.trans hsteps, hfail⟩

end Containers

theorem value_agrees (fuel : Nat) (hdepth : depth ≤ 128) (hfuel : 128 < fuel + depth) :
    AgreesAt text depth fun index => parseValue text fuel index depth := by
  induction fuel generalizing depth with
  | zero => omega
  | succ fuel ih =>
    intro r i hnext hv hi hcount hr
    subst hcount
    have hvalue : r.containers.length < 128 → AgreesAt text (r.containers.length + 1)
        fun index => parseValue text fuel index (r.containers.length + 1) :=
      fun hroom => ih hroom (by omega)
    have hadv : r.containers.length < 128 → Advances text
        fun index => parseValue text fuel index (r.containers.length + 1) :=
      fun hroom => parseValue_advances hroom
    change Agrees text r i (parseValue text (fuel + 1) i r.containers.length)
    rw [parseValue]
    cases hget : text[i]? with
    | none =>
      rw [Reader.readValue, hget] at hnext
      exact agrees_failure hi hnext
    | some byte =>
      have hread := hnext
      rw [Reader.readValue, hget] at hread
      simp only at hread ⊢
      by_cases h123 : byte = 123
      · rw [if_pos h123] at hread ⊢
        exact object_agrees hvalue hadv hr hv hread (h123 ▸ hget)
      rw [if_neg h123] at hread ⊢
      by_cases h91 : byte = 91
      · rw [if_pos h91] at hread ⊢
        exact array_agrees hvalue hadv hr hv hread (h91 ▸ hget)
      rw [if_neg h91] at hread ⊢
      by_cases h34 : byte = 34
      · rw [if_pos h34]
        exact text_agrees hnext (h34 ▸ hget) hv
      rw [if_neg h34] at hread ⊢
      -- the reader tests for a number before the words, the parser behind them
      by_cases hnum : (byte = 45 || isDigit byte) = true
      · rw [if_pos hnum] at hread
        have hword : ∀ w : Nat, 57 < w → byte ≠ w := by
          intro w hw hbyte
          simp [isDigit] at hnum
          omega
        rw [if_neg (hword 116 (by omega)), if_neg (hword 102 (by omega)), if_neg (hword 110 (by omega)), if_pos hnum]
        exact number_agrees hread hi
      rw [if_neg hnum, Reader.readLiteral] at hread
      by_cases h116 : byte = 116
      · rw [if_pos h116] at hread ⊢
        exact word_agrees hread hi (by simp) rfl rfl
      rw [if_neg h116] at hread ⊢
      by_cases h102 : byte = 102
      · rw [if_pos h102] at hread ⊢
        exact word_agrees hread hi (by simp) rfl rfl
      rw [if_neg h102] at hread ⊢
      by_cases h110 : byte = 110
      · rw [if_pos h110] at hread ⊢
        exact word_agrees hread hi (by simp) rfl rfl
      rw [if_neg h110] at hread ⊢
      rw [if_neg hnum]
      exact agrees_failure le_rfl hread

theorem Pulls.unique {events' : List Event} {outcome' : Parse Unit} (h : Pulls text r events outcome)
    (h' : Pulls text r events' outcome') : events' = events ∧ outcome' = outcome := by
  induction h generalizing events' outcome' with
  | done hnext =>
    cases h' with
    | done hnext' => exact ⟨rfl, rfl⟩
    | stop hnext' => simp [hnext] at hnext'
    | more hnext' hne' hrest' =>
      rw [hnext] at hnext'
      cases hnext'
      exact absurd rfl hne'
  | stop hnext =>
    cases h' with
    | done hnext' => simp [hnext] at hnext'
    | stop hnext' =>
      rw [hnext] at hnext'
      cases hnext'
      exact ⟨rfl, rfl⟩
    | more hnext' hne' hrest' => simp [hnext] at hnext'
  | more hnext hne hrest ih =>
    cases h' with
    | done hnext' =>
      rw [hnext] at hnext'
      cases hnext'
      exact absurd rfl hne
    | stop hnext' => simp [hnext] at hnext'
    | more hnext' hne' hrest' =>
      rw [hnext] at hnext'
      cases hnext'
      obtain ⟨hevents, houtcome⟩ := ih hrest'
      exact ⟨by rw [hevents], houtcome⟩

theorem Pulls.iff (h : Pulls text r events outcome) (events' : List Event) (outcome' : Parse Unit) :
    Pulls text r events' outcome' ↔ events' = events ∧ outcome' = outcome := by
  constructor
  · exact h.unique
  · rintro ⟨rfl, rfl⟩
    exact h

def freshReader : Reader := { position := 0, containers := [], keys := [], marks := [], state := 0 }

theorem next_end (text : List Nat) (j : Nat) : (freshReader.afterValue j).next text
      = if skipSpace text j < text.length then fail .syntax_ (skipSpace text j)
        else .ok (.endOfInput, (freshReader.afterValue j).afterValue (skipSpace text j)) := rfl

theorem freshReader_agrees (hv : Valid text) :
    Agrees text freshReader (skipSpace text 0) (parseValue text 130 (skipSpace text 0) 0) := by
  have hagree : AgreesAt text 0 fun index => parseValue text 130 index 0 :=
    value_agrees 130 (by omega) (by omega)
  have hbefore : Before freshReader (skipSpace text 0) := ⟨by simp [freshReader], by simp [freshReader]⟩
  exact hagree rfl (valid_skipSpace hv) (skipSpace_le (Nat.zero_le _)) rfl hbefore

/-- Pulling events from a fresh reader has one outcome: the traversal of the value that the parser
returns, with the texts of its strings and numbers, or the error of the parser. -/
theorem reader_agrees (text : Text) : (∀ v, parse text = .ok v → ∃ r events, reader text = .ok r ∧
      (∀ events' outcome, Pulls text.bytes r events' outcome ↔ events' = events ∧ outcome = .ok ()) ∧
      events.mapM (tokenOf text.bytes) = .ok (tokens v ++ [.endOfInput])) ∧
    (∀ stop, parse text = .error stop → ∃ error, stop = .failure error ∧
      (reader text = .error (.failure error) ∨ ∃ r events, reader text = .ok r ∧
        ∀ events' outcome, Pulls text.bytes r events' outcome ↔
          events' = events ∧ outcome = .error (.failure error))) := by
  unfold parse reader
  by_cases hlarge : maxLength < text.bytes.length
  · rw [if_pos hlarge, if_pos hlarge]
    constructor
    · intro v h
      cases h
    · intro stop h
      cases h
      exact ⟨_, rfl, .inl rfl⟩
  rw [if_neg hlarge, if_neg hlarge]
  have hagree := freshReader_agrees text.valid
  cases hvalue : parseValue text.bytes 130 (skipSpace text.bytes 0) 0 with
  | error stop =>
    rw [hvalue] at hagree
    constructor
    · intro v h
      cases h
    · intro stop' h
      cases h
      cases stop with
      | trap fault => exact hagree.elim
      | failure e =>
        obtain ⟨-, events, q, hsteps, hfail⟩ := hagree
        exact ⟨e, rfl, .inr ⟨freshReader, _, rfl, (hsteps.pulls (.stop hfail)).iff⟩⟩
  | ok p =>
    obtain ⟨v, j⟩ := p
    rw [hvalue] at hagree
    obtain ⟨events, hsteps, hspell⟩ := hagree
    have hnext := next_end text.bytes j
    change (∀ v', (if skipSpace text.bytes j < text.bytes.length then
        fail .syntax_ (skipSpace text.bytes j) else .ok v) = .ok v' → _) ∧
      (∀ stop, (if skipSpace text.bytes j < text.bytes.length then
        fail .syntax_ (skipSpace text.bytes j) else .ok v) = .error stop → _)
    by_cases hrest : skipSpace text.bytes j < text.bytes.length
    · rw [if_pos hrest] at hnext ⊢
      constructor
      · intro v' h
        cases h
      · intro stop h
        cases h
        exact ⟨_, rfl, .inr ⟨freshReader, _, rfl, (hsteps.pulls (.stop hnext)).iff⟩⟩
    · rw [if_neg hrest] at hnext ⊢
      constructor
      · intro v' h
        cases h
        exact ⟨freshReader, _, rfl, (hsteps.pulls (.done hnext)).iff, hspell.append (spell_single rfl)⟩
      · intro stop h
        cases h

end Tsuzuri.Json
