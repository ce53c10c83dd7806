import Tsuzuri.JsonKeys
import Tsuzuri.JsonStrings

/-!
# The parser and the grammar

`parse_value` reads exactly what `Denotes` derives: a value that is there is read to its end
(`parseValue_ok`), and what is read was there (`parseValue_sound`).
-/

namespace Tsuzuri.Json

open FaultVec Unicode List

variable {text rest : List Nat} {i j : Nat}

variable {b n : Nat} {ws t word : List Nat} {v : Value} {value : Nat → Parse (Value × Nat)}
  {vs : List Value} {m : Str × Value} {ms members : List (Str × Value)}
  {p q den : Value → List Nat → Prop}

theorem isSpace_cases (h : isSpace b = true) : b = 32 ∨ b = 10 ∨ b = 13 ∨ b = 9 := by
  simp only [isSpace, Bool.or_eq_true, decide_eq_true_eq] at h
  omega

theorem afterNumber_cons (h : isDigit b = false) (h46 : b ≠ 46) (h101 : b ≠ 101) (h69 : b ≠ 69) :
    AfterNumber (b :: rest) :=
  stops_cons (by simp [h, h46, h101, h69])

theorem afterNumber_blank (hws : Blank ws) (hrest : AfterNumber rest) : AfterNumber (ws ++ rest) := by
  cases ws with
  | nil => exact hrest
  | cons b ws =>
    have := isSpace_cases (hws b mem_cons_self)
    refine afterNumber_cons ?_ (by omega) (by omega) (by omega)
    by_contra h
    have := isDigit_iff.mp (by simpa using h)
    omega

def ValueStart (b : Nat) : Prop :=
  b = 34 ∨ b = 91 ∨ b = 123 ∨ b = 116 ∨ b = 102 ∨ b = 110 ∨ b = 45 ∨ isDigit b = true

theorem ValueStart.not_space (h : ValueStart b) : isSpace b = false := by
  by_contra hs
  have hs' := isSpace_cases (by simpa using hs)
  rcases h with h | h | h | h | h | h | h | h
  case inr.inr.inr.inr.inr.inr.inr =>
    have := isDigit_iff.mp h
    omega
  all_goals omega

theorem ValueStart.ne (h : ValueStart b) : b ≠ 93 ∧ b ≠ 125 := by
  rcases h with h | h | h | h | h | h | h | h
  case inr.inr.inr.inr.inr.inr.inr =>
    have := isDigit_iff.mp h
    omega
  all_goals omega

theorem numeral_start (h : Numeral t) : ∃ b s, t = b :: s ∧ (b = 45 ∨ isDigit b = true) := by
  obtain ⟨integer, fraction, exponent, rfl, ⟨sign, digits, rfl, hsign, hdigits⟩, -, -⟩ := h
  rcases hsign with rfl | rfl
  · rcases hdigits with rfl | ⟨d, ds, rfl, hd, -, -⟩
    · exact ⟨48, _, rfl, .inr rfl⟩
    · exact ⟨d, _, rfl, .inr hd⟩
  · exact ⟨45, _, rfl, .inl rfl⟩

theorem leaf_start (h : Leaf v t) : ∃ b s, t = b :: s ∧ ValueStart b := by
  cases h with
  | null | yes | no => exact ⟨_, _, rfl, by simp [ValueStart]⟩
  | number h =>
    obtain ⟨b, s, rfl, hb | hb⟩ := numeral_start h
    · exact ⟨b, s, rfl, by simp [ValueStart, hb]⟩
    · exact ⟨b, s, rfl, by simp [ValueStart, hb]⟩
  | text h => exact ⟨_, _, rfl, by simp [ValueStart]⟩

theorem denotes_start (h : Denotes n v t) : ∃ b s, t = b :: s ∧ ValueStart b := by
  cases n with
  | zero => exact leaf_start h
  | succ n =>
    rcases h with h | h
    · exact leaf_start h
    · cases h
      all_goals exact ⟨_, _, rfl, by simp [ValueStart]⟩

theorem stops_start {s : List Nat} (h : Denotes n v t) : Stops isSpace (t ++ s) := by
  obtain ⟨b, t, rfl, hb⟩ := denotes_start h
  exact stops_cons hb.not_space

/-! ## What is there is read -/

def ReadsAt (value : Nat → Parse (Value × Nat)) (text : List Nat) (v : Value) (t : List Nat) : Prop :=
  ∀ i rest, text.drop i = t ++ rest → AfterNumber rest → value i = .ok (v, i + t.length)

theorem itemsFrom_ok (ht : Elements (fun v s => Denotes n v s ∧ ReadsAt value text v s) vs t) :
    ∀ {i : Nat} (fuel : Nat) (items : List Value), text.drop i = t ++ 93 :: rest → t.length < fuel →
      itemsFrom value text fuel items (skipSpace text i) = .ok (items ++ vs, i + t.length + 1) := by
  induction ht with
  | @last v before t after hb hv ha =>
    intro i fuel items h hf
    obtain ⟨fuel, rfl⟩ : ∃ f, fuel = f + 1 := ⟨fuel - 1, by omega⟩
    simp only [append_assoc] at h
    have hstart := skipSpace_ok h hb (stops_start hv.1)
    have hd := drop_add h
    have hread := hv.2 _ _ hd (afterNumber_blank ha (afterNumber_cons rfl (by omega) (by omega) (by omega)))
    have hd' := drop_add hd
    have hsep := skipSpace_ok hd' ha (stops_cons rfl)
    rw [itemsFrom, hstart, hread, ok_then]
    simp only [hsep]
    rw [get_of_drop (drop_add hd')]
    simp only [length_append]
    rw [if_neg (by omega), if_pos trivial]
    simp only [Except.ok.injEq, Prod.mk.injEq, true_and]
    omega
  | @more v vs before t after s hb hv ha _ ih =>
    intro i fuel items h hf
    obtain ⟨fuel, rfl⟩ : ∃ f, fuel = f + 1 := ⟨fuel - 1, by omega⟩
    simp only [append_assoc, cons_append] at h
    have hstart := skipSpace_ok h hb (stops_start hv.1)
    have hd := drop_add h
    have hread := hv.2 _ _ hd (afterNumber_blank ha (afterNumber_cons rfl (by omega) (by omega) (by omega)))
    have hd' := drop_add hd
    have hsep := skipSpace_ok hd' ha (stops_cons rfl)
    have hcomma := drop_add hd'
    simp only [length_append, length_cons] at hf
    rw [itemsFrom, hstart, hread, ok_then]
    simp only [hsep]
    rw [get_of_drop hcomma]
    simp only
    rw [if_pos trivial, ih fuel _ (drop_succ hcomma) (by omega)]
    simp only [length_append, length_cons, append_assoc, singleton_append, Except.ok.injEq, Prod.mk.injEq, true_and]
    omega

theorem replaceLast_concat (members : List (Str × Value)) (key : Str) (old value : Value) :
    replaceLast (members ++ [(key, old)]) value = members ++ [(key, value)] := by
  simp [replaceLast]

theorem member_ok (ht : Field (fun v s => Denotes n v s ∧ ReadsAt value text v s) m t)
    (hb : AfterNumber (b :: rest)) (hspace : isSpace b = false) (h : text.drop i = t ++ b :: rest)
    (fuel : Nat) (members : List (Str × Value)) (offsets : List Nat) :
    ∃ offset, text[i + t.length]? = some b ∧ text.drop (i + t.length + 1) = rest ∧
      membersFrom value text (fuel + 1) members offsets (skipSpace text i) = if b = 44 then
            membersFrom value text fuel (members ++ [m]) (offsets ++ [offset]) (skipSpace text (i + t.length + 1))
          else if b = 125 then
            { members := members ++ [m], offsets := offsets ++ [offset],
              outcome := .ok (i + t.length + 1) }
          else { members := members ++ [m], offsets := offsets ++ [offset],
                 outcome := fail .syntax_ (i + t.length) } := by
  cases ht with
  | @field key v a bs c d k s ha hbs hc hd hk hv =>
    simp only [append_assoc, cons_append] at h
    have hstart := skipSpace_ok h ha (stops_cons rfl)
    have hquote := drop_add h
    have hkey := parseString_ok hk hquote
    have hafter : text.drop (i + a.length + k.length + 2) = bs ++ 58 :: (c ++ (s ++ (d ++ b :: rest))) := by
      have := drop_succ (drop_add (drop_succ hquote))
      rwa [show i + a.length + 1 + k.length + 1 = i + a.length + k.length + 2 by omega] at this
    have hcolon := skipSpace_ok hafter hbs (stops_cons rfl)
    have hcolon' := drop_add hafter
    have hvalue := drop_succ hcolon'
    have hvstart := skipSpace_ok hvalue hc (stops_start hv.1)
    have hvdrop := drop_add hvalue
    have hread := hv.2 _ _ hvdrop (afterNumber_blank hd hb)
    have hsep' := drop_add hvdrop
    have hsep := skipSpace_ok hsep' hd (stops_cons hspace)
    have hlast := drop_add hsep'
    have hend : i + a.length + k.length + 2 + bs.length + 1 + c.length + s.length + d.length
        = i + (a ++ 34 :: (k ++ 34 :: (bs ++ 58 :: (c ++ (s ++ d))))).length := by
      simp only [length_append, length_cons]
      omega
    rw [hend] at hlast hsep
    refine ⟨i + a.length, get_of_drop hlast, drop_succ hlast, ?_⟩
    rw [membersFrom, hstart, get_of_drop hquote]
    simp only [ne_eq, not_true_eq_false, if_false]
    rw [hkey]
    simp only [hcolon, get_of_drop hcolon', not_true_eq_false, if_false, hvstart, hread, hsep,
      get_of_drop hlast, replaceLast_concat]

theorem membersFrom_ok (ht : Fields (fun v s => Denotes n v s ∧ ReadsAt value text v s) ms t) :
    ∀ {i : Nat} (fuel : Nat) (members : List (Str × Value)) (offsets : List Nat),
      text.drop i = t ++ 125 :: rest → t.length < fuel →
      ∃ offsets', membersFrom value text fuel members offsets (skipSpace text i)
        = { members := members ++ ms, offsets := offsets', outcome := .ok (i + t.length + 1) } := by
  induction ht with
  | @last m t hm =>
    intro i fuel members offsets h hf
    obtain ⟨fuel, rfl⟩ : ∃ f, fuel = f + 1 := ⟨fuel - 1, by omega⟩
    obtain ⟨offset, -, -, hrun⟩ := member_ok hm
      (afterNumber_cons rfl (by omega) (by omega) (by omega)) rfl h fuel members offsets
    rw [if_neg (by omega), if_pos rfl] at hrun
    exact ⟨_, hrun⟩
  | @more m ms t s hm _ ih =>
    intro i fuel members offsets h hf
    obtain ⟨fuel, rfl⟩ : ∃ f, fuel = f + 1 := ⟨fuel - 1, by omega⟩
    simp only [append_assoc, cons_append] at h
    simp only [length_append, length_cons] at hf
    obtain ⟨offset, -, hdrop, hrun⟩ := member_ok hm
      (afterNumber_cons rfl (by omega) (by omega) (by omega)) rfl h fuel members offsets
    rw [if_pos rfl] at hrun
    obtain ⟨offsets', hrest⟩ := ih fuel (members ++ [m]) (offsets ++ [offset]) hdrop (by omega)
    refine ⟨offsets', ?_⟩
    rw [hrun, hrest]
    simp only [length_append, length_cons, append_assoc, singleton_append]
    congr 2
    omega

theorem closeObject_ok (h : (members.map Prod.fst).Nodup) (offsets : List Nat) (next : Nat) :
    closeObject { members, offsets, outcome := .ok next } = .ok (.object members, next) := by
  unfold closeObject objectFailure
  simp only [firstDuplicate_none.mpr h, ok_then]

theorem Elements.imp (h : Elements p vs t) (hpq : ∀ v ∈ vs, ∀ s, p v s → q v s) : Elements q vs t := by
  induction h with
  | last hb hv ha => exact .last hb (hpq _ mem_cons_self _ hv) ha
  | more hb hv ha _ ih =>
    exact .more hb (hpq _ mem_cons_self _ hv) ha (ih fun v hv' => hpq v (mem_cons_of_mem _ hv'))

theorem Field.imp (h : Field p m t) (hpq : ∀ s, p m.2 s → q m.2 s) : Field q m t := by
  cases h with
  | field ha hb hc hd hk hv => exact .field ha hb hc hd hk (hpq _ hv)

theorem Fields.imp (h : Fields p ms t) (hpq : ∀ m ∈ ms, ∀ s, p m.2 s → q m.2 s) : Fields q ms t := by
  induction h with
  | last hm => exact .last (hm.imp (hpq _ mem_cons_self))
  | more hm _ ih =>
    exact .more (hm.imp (hpq _ mem_cons_self)) (ih fun m hm' => hpq m (mem_cons_of_mem _ hm'))

namespace Value

theorem depthItems_le (h : v ∈ vs) : v.depth ≤ depthItems vs := by
  induction vs with
  | nil => cases h
  | cons w vs ih =>
    rw [depthItems]
    rcases mem_cons.mp h with rfl | h
    · exact Nat.le_max_left _ _
    · exact Nat.le_trans (ih h) (Nat.le_max_right _ _)

theorem depthMembers_le (h : m ∈ ms) : m.2.depth ≤ depthMembers ms := by
  induction ms with
  | nil => cases h
  | cons w ms ih =>
    rw [depthMembers]
    rcases mem_cons.mp h with rfl | h
    · obtain ⟨k, v⟩ := m
      exact Nat.le_max_left v.depth _
    · exact Nat.le_trans (ih h) (Nat.le_max_right _ _)

theorem distinctItems_iff : distinctItems vs ↔ ∀ v ∈ vs, v.distinct := by
  induction vs with
  | nil => simp [distinctItems]
  | cons v vs ih => simp [distinctItems, ih]

theorem distinctMembers_iff : distinctMembers ms ↔ ∀ m ∈ ms, m.2.distinct := by
  induction ms with
  | nil => simp [distinctMembers]
  | cons m ms ih =>
    obtain ⟨k, v⟩ := m
    simp [distinctMembers, distinctMember, ih]

end Value

theorem keyword_ok (h : text.drop i = word ++ rest) (value : Value) :
    keyword text i word value = .ok (value, i + word.length) := by
  have hspelled : ∀ (w : List Nat) (k : Nat), text.drop k = w ++ rest → spelled text k w = w.length := by
    intro w
    induction w with
    | nil => intro k _; rfl
    | cons b w ih =>
      intro k hk
      rw [spelled, get_of_drop hk, if_pos rfl, ih _ (drop_succ hk), length_cons]
  unfold keyword
  simp only [hspelled word i h]
  rw [if_pos trivial]

theorem parseValue_leaf (ht : Leaf v t) (h : text.drop i = t ++ rest) (hrest : AfterNumber rest) (fuel depth : Nat) :
    parseValue text (fuel + 1) i depth = .ok (v, i + t.length) := by
  rw [parseValue]
  cases ht with
  | null =>
    rw [get_of_drop h]
    exact keyword_ok h .null
  | yes =>
    rw [get_of_drop h]
    exact keyword_ok h (.bool true)
  | no =>
    rw [get_of_drop h]
    exact keyword_ok h (.bool false)
  | text hc =>
    simp only [cons_append, append_assoc] at h
    rw [get_of_drop h]
    simp only
    rw [if_neg (by omega), if_neg (by omega), if_pos trivial, parseString_ok hc h]
    simp only [ok_then, Except.ok.injEq, Prod.mk.injEq, true_and, length_cons, length_append, length_nil]
    omega
  | number hn =>
    obtain ⟨b, s, rfl, hb⟩ := numeral_start hn
    have hscan := scanNumber_ok h hn hrest
    have hb' : b ≠ 123 ∧ b ≠ 91 ∧ b ≠ 34 ∧ b ≠ 116 ∧ b ≠ 102 ∧ b ≠ 110 := by
      rcases hb with rfl | hb
      · omega
      · have := isDigit_iff.mp hb
        omega
    have hor : (decide (b = 45) || isDigit b) = true := by simpa using hb
    rw [get_of_drop h]
    simp only [hb', if_false, hor, if_true]
    rw [numberAt, hscan, ok_then, h, Nat.add_sub_cancel_left, take_left]

theorem parseValue_ok : ∀ {v : Value} {t : List Nat} {i fuel depth : Nat} {rest : List Nat},
    Denotes n v t → v.distinct → v.depth + depth ≤ 128 → v.depth < fuel → text.drop i = t ++ rest → AfterNumber rest →
      parseValue text fuel i depth = .ok (v, i + t.length) := by
  induction n with
  | zero =>
    intro v t i fuel depth rest ht _ _ hf h hrest
    obtain ⟨fuel, rfl⟩ : ∃ f, fuel = f + 1 := ⟨fuel - 1, by omega⟩
    exact parseValue_leaf ht h hrest fuel depth
  | succ n ih =>
    intro v t i fuel depth rest ht hdist hdepth hf h hrest
    obtain ⟨fuel, rfl⟩ : ∃ f, fuel = f + 1 := ⟨fuel - 1, by omega⟩
    rcases ht with ht | ht
    · exact parseValue_leaf ht h hrest fuel depth
    rw [parseValue]
    cases ht with
    | noItems hws =>
      rw [Value.depth] at hdepth
      simp only [cons_append, append_assoc] at h
      rw [get_of_drop h]
      simp only
      have hskip := skipSpace_ok (drop_succ h) hws (stops_cons rfl)
      rw [if_neg (by omega), if_pos trivial, parseItems, if_neg (by omega)]
      simp only [hskip, get_of_drop (drop_add (drop_succ h)), if_true, Except.ok.injEq,
        Prod.mk.injEq, true_and, length_cons, length_append, length_nil]
      omega
    | @items vs s hvs =>
      rw [Value.depth] at hdepth hf
      rw [Value.distinct, Value.distinctItems_iff] at hdist
      simp only [cons_append, append_assoc] at h
      have hd := drop_succ h
      have hreads : Elements (fun v s => Denotes n v s ∧
          ReadsAt (fun index => parseValue text fuel index (depth + 1)) text v s) vs s := by
        refine hvs.imp fun v hv s' hden => ⟨hden, fun k rest' hk hrest' => ?_⟩
        have := Value.depthItems_le hv
        exact ih hden (hdist v hv) (by omega) (by omega) hk hrest'
      have hlen : s.length < text.length + 1 := by
        have := congrArg List.length h
        simp at this
        omega
      have hrun := itemsFrom_ok hreads _ [] hd hlen
      have hfirst : text[skipSpace text (i + 1)]? ≠ some 93 := by
        obtain ⟨ws, s', hblank, b, hb, hs⟩ : ∃ ws s', Blank ws ∧ ∃ b, ValueStart b ∧ s = ws ++ b :: s' := by
          cases hvs with
          | last hb hv ha | more hb hv ha hrest =>
            obtain ⟨b, t', rfl, hst⟩ := denotes_start hv
            exact ⟨_, _, hb, b, hst, rfl⟩
        subst hs
        rw [append_assoc] at hd
        rw [skipSpace_ok hd hblank (stops_cons hb.not_space), get_of_drop (drop_add hd)]
        have := hb.ne.1
        simpa using this
      rw [get_of_drop h]
      simp only
      rw [if_neg (by omega), if_pos trivial, parseItems, if_neg (by omega)]
      simp only
      rw [if_neg hfirst, hrun]
      simp only [ok_then, nil_append, Except.ok.injEq, Prod.mk.injEq, true_and, length_cons, length_append, length_nil]
      omega
    | noMembers hws =>
      rw [Value.depth] at hdepth
      simp only [cons_append, append_assoc] at h
      rw [get_of_drop h]
      simp only
      have hskip := skipSpace_ok (drop_succ h) hws (stops_cons rfl)
      rw [if_pos trivial, parseObject, if_neg (by omega)]
      simp only [hskip, get_of_drop (drop_add (drop_succ h)), if_true]
      have hnodup : (([] : List (Str × Value)).map Prod.fst).Nodup := nodup_nil
      rw [closeObject_ok hnodup]
      simp only [Except.ok.injEq, Prod.mk.injEq, true_and, length_cons, length_append, length_nil]
      omega
    | @members ms s hms =>
      rw [Value.depth] at hdepth hf
      rw [Value.distinct, Value.distinctMembers_iff] at hdist
      simp only [cons_append, append_assoc] at h
      have hd := drop_succ h
      have hreads : Fields (fun v s => Denotes n v s ∧
          ReadsAt (fun index => parseValue text fuel index (depth + 1)) text v s) ms s := by
        refine hms.imp fun m hm s' hden => ⟨hden, fun k rest' hk hrest' => ?_⟩
        have := Value.depthMembers_le hm
        exact ih hden (hdist.2 m hm) (by omega) (by omega) hk hrest'
      have hlen : s.length < text.length + 1 := by
        have := congrArg List.length h
        simp at this
        omega
      obtain ⟨offsets, hrun⟩ := membersFrom_ok hreads _ [] [] hd hlen
      have hfirst : text[skipSpace text (i + 1)]? ≠ some 125 := by
        obtain ⟨ws, s', hblank, hs⟩ : ∃ ws s', Blank ws ∧ s = ws ++ 34 :: s' := by
          cases hms with
          | last hm =>
            cases hm with
            | field ha => exact ⟨_, _, ha, rfl⟩
          | more hm =>
            cases hm with
            | field ha => exact ⟨_, _, ha, by rw [append_assoc]; rfl⟩
        subst hs
        rw [append_assoc] at hd
        rw [skipSpace_ok hd hblank (stops_cons rfl), get_of_drop (drop_add hd)]
        simp
      rw [get_of_drop h]
      simp only
      rw [if_pos trivial, parseObject, if_neg (by omega)]
      simp only
      rw [if_neg hfirst, hrun, nil_append, closeObject_ok hdist.1]
      simp only [Except.ok.injEq, Prod.mk.injEq, true_and, length_cons, length_append, length_nil]
      omega

/-! ## What is read was there -/

def SoundAt (value : Nat → Parse (Value × Nat)) (text : List Nat) (den : Value → List Nat → Prop) : Prop :=
  ∀ i v j, Valid (text.drop i) → value i = .ok (v, j) →
    ∃ t, text.drop i = t ++ text.drop j ∧ j = i + t.length ∧ den v t ∧ Valid (text.drop j)

theorem Blank.ascii (h : Blank ws) : ∀ b ∈ ws, b < 128 :=
  fun b hb => isSpace_lt (h b hb)

theorem skip_sound (hv : Valid (text.drop i)) (h : text[skipSpace text i]? = some b) (hb : b < 128) :
    ∃ ws, Blank ws ∧ text.drop i = ws ++ b :: text.drop (skipSpace text i + 1) ∧
      skipSpace text i = i + ws.length ∧ Valid (text.drop (skipSpace text i + 1)) := by
  obtain ⟨ws, rest, hd, hws, -, hskip, hrest⟩ := skipSpace_sound text i
  have hd' := drop_of_get h
  rw [hrest] at hd'
  subst hd'
  rw [hd] at hv
  exact ⟨ws, hws, hd, hskip, (hv.of_ascii_append hws.ascii).tail_of_ascii hb⟩

theorem itemsFrom_sound (hvalue : SoundAt value text den) : ∀ (fuel : Nat) {i j : Nat} {items all : List Value},
    Valid (text.drop i) → itemsFrom value text fuel items (skipSpace text i) = .ok (all, j) →
    ∃ vs t, all = items ++ vs ∧ text.drop i = t ++ 93 :: text.drop j ∧ j = i + t.length + 1 ∧
      Elements den vs t ∧ Valid (text.drop j)
  | 0, _, _, _, _, _, h => by cases h
  | fuel + 1, i, j, items, all, hv, h => by
    rw [itemsFrom] at h
    obtain ⟨⟨item, next⟩, hitem, h⟩ := then_ok h
    obtain ⟨ws, rest, hd, hws, -, hskip, hrest⟩ := skipSpace_sound text i
    have hv₁ : Valid (text.drop (skipSpace text i)) := by
      rw [hd] at hv
      rw [hrest]
      exact hv.of_ascii_append hws.ascii
    obtain ⟨t, ht, hnext, hden, hv₂⟩ := hvalue _ _ _ hv₁ hitem
    rw [hrest] at ht
    simp only at h
    cases hsep : text[skipSpace text next]? with
    | none =>
      rw [hsep] at h
      cases h
    | some b =>
      rw [hsep] at h
      simp only at h
      by_cases h44 : b = 44
      · subst h44
        rw [if_pos rfl] at h
        obtain ⟨ws', hws', hd', hskip', hv₃⟩ := skip_sound hv₂ hsep (by omega)
        obtain ⟨vs, t', hall, hd'', hj, hels, hvj⟩ := itemsFrom_sound hvalue fuel hv₃ h
        refine ⟨item :: vs, ws ++ (t ++ (ws' ++ 44 :: t')), ?_, ?_, ?_, .more hws hden hws' hels, hvj⟩
        · rw [hall]
          simp
        · rw [hd, ht, hd', hd'']
          simp
        · simp only [length_append, length_cons]
          omega
      · rw [if_neg h44] at h
        by_cases h93 : b = 93
        · subst h93
          rw [if_pos rfl] at h
          cases h
          obtain ⟨ws', hws', hd', hskip', hv₃⟩ := skip_sound hv₂ hsep (by omega)
          refine ⟨[item], ws ++ (t ++ ws'), rfl, ?_, ?_, .last hws hden hws', hv₃⟩
          · rw [hd, ht]
            nth_rewrite 1 [hd']
            simp
          · simp only [length_append]
            omega
        · rw [if_neg h93] at h
          cases h

theorem membersFrom_sound (hvalue : SoundAt value text den) : ∀ (fuel : Nat) {i j : Nat} {members : List (Str × Value)}
    {offsets : List Nat}, Valid (text.drop i) →
    (membersFrom value text fuel members offsets (skipSpace text i)).outcome = .ok j →
    ∃ ms t, (membersFrom value text fuel members offsets (skipSpace text i)).members = members ++ ms ∧
      text.drop i = t ++ 125 :: text.drop j ∧ j = i + t.length + 1 ∧ Fields den ms t ∧
      Valid (text.drop j)
  | 0, _, _, _, _, _, h => by cases h
  | fuel + 1, i, j, members, offsets, hv, h => by
    rw [membersFrom] at h ⊢
    obtain ⟨ws, rest, hd, hws, -, hskip, hrest⟩ := skipSpace_sound text i
    cases hquote : text[skipSpace text i]? with
    | none =>
      rw [hquote] at h
      cases h
    | some b =>
      rw [hquote] at h
      simp only at h ⊢
      by_cases h34 : b ≠ 34
      · rw [if_pos h34] at h
        cases h
      rw [if_neg h34] at h ⊢
      obtain rfl : b = 34 := by omega
      have hv₁ : Valid (text.drop (skipSpace text i)) := by
        rw [hd] at hv
        rw [hrest]
        exact hv.of_ascii_append hws.ascii
      cases hkey : parseString text (skipSpace text i) with
      | error stop =>
        rw [hkey] at h
        cases h
      | ok r =>
        obtain ⟨key, after⟩ := r
        rw [hkey] at h
        simp only at h ⊢
        obtain ⟨k, hk, hchars, hafter, hv₂⟩ := parseString_sound hquote hv₁ hkey
        cases hcolon : text[skipSpace text after]? with
        | none =>
          rw [hcolon] at h
          cases h
        | some b =>
          rw [hcolon] at h
          simp only at h ⊢
          by_cases h58 : b ≠ 58
          · rw [if_pos h58] at h
            cases h
          rw [if_neg h58] at h ⊢
          obtain rfl : b = 58 := by omega
          obtain ⟨bs, hbs, hd₂, hskip₂, hv₃⟩ := skip_sound hv₂ hcolon (by omega)
          obtain ⟨cs, rest₃, hd₃, hcs, -, hskip₃, hrest₃⟩ :=
            skipSpace_sound text (skipSpace text after + 1)
          have hv₄ : Valid (text.drop (skipSpace text (skipSpace text after + 1))) := by
            rw [hd₃] at hv₃
            rw [hrest₃]
            exact hv₃.of_ascii_append hcs.ascii
          cases hitem : value (skipSpace text (skipSpace text after + 1)) with
          | error stop =>
            rw [hitem] at h
            cases h
          | ok r =>
            obtain ⟨item, next⟩ := r
            rw [hitem] at h
            simp only [replaceLast_concat] at h ⊢
            obtain ⟨t, ht, hnext, hden, hv₅⟩ := hvalue _ _ _ hv₄ hitem
            cases hsep : text[skipSpace text next]? with
            | none =>
              rw [hsep] at h
              cases h
            | some b =>
              rw [hsep] at h
              simp only at h ⊢
              have hfield : ∀ {ds : List Nat}, Blank ds → Field den (key, item)
                  (ws ++ 34 :: (k ++ 34 :: (bs ++ 58 :: (cs ++ (t ++ ds))))) :=
                fun hds => .field hws hbs hcs hds hchars hden
              have hdrop : text.drop i = ws ++ 34 :: (k ++ 34 :: (bs ++ 58 :: (cs ++ (t ++ text.drop next)))) := by
                rw [hd, ← hrest, hk, hd₂, hd₃, ← hrest₃, ht]
              by_cases h44 : b = 44
              · subst h44
                rw [if_pos rfl] at h ⊢
                obtain ⟨ds, hds, hd₆, hskip₆, hv₆⟩ := skip_sound hv₅ hsep (by omega)
                obtain ⟨ms, t', hms, hd₇, hj, hfields, hvj⟩ := membersFrom_sound hvalue fuel hv₆ h
                refine ⟨(key, item) :: ms, _, ?_, ?_, ?_, .more (hfield hds) hfields, hvj⟩
                · rw [hms]
                  simp
                · rw [hdrop, hd₆, hd₇]
                  simp
                · simp only [length_append, length_cons]
                  omega
              · rw [if_neg h44] at h ⊢
                by_cases h125 : b = 125
                · subst h125
                  rw [if_pos rfl] at h ⊢
                  obtain ⟨ds, hds, hd₆, hskip₆, hv₆⟩ := skip_sound hv₅ hsep (by omega)
                  obtain rfl : skipSpace text next + 1 = j := Except.ok.inj h
                  refine ⟨[(key, item)], _, rfl, ?_, ?_, .last (hfield hds), hv₆⟩
                  · rw [hdrop]
                    nth_rewrite 1 [hd₆]
                    simp
                  · simp only [length_append, length_cons]
                    omega
                · rw [if_neg h125] at h
                  cases h

theorem objectFailure_none {offsets : List Nat} (h : objectFailure members offsets none = .ok none) :
    (members.map Prod.fst).Nodup := by
  unfold objectFailure at h
  cases hdup : firstDuplicate members with
  | none => exact firstDuplicate_none.mp hdup
  | some k =>
    rw [hdup] at h
    simp only at h
    split at h
    · cases h
    · cases h

theorem closeObject_sound {read : Members} (h : closeObject read = .ok (v, j)) :
    read.outcome = .ok j ∧ v = .object read.members ∧ (read.members.map Prod.fst).Nodup := by
  obtain ⟨members, offsets, outcome⟩ := read
  unfold closeObject at h
  cases outcome with
  | error stop =>
    cases stop with
    | trap fault => cases h
    | failure error =>
      obtain ⟨problem, -, h⟩ := then_ok h
      cases h
  | ok next =>
    obtain ⟨problem, hfail, h⟩ := then_ok h
    cases problem with
    | some error => cases h
    | none =>
      cases h
      exact ⟨rfl, rfl, objectFailure_none hfail⟩

theorem spelled_sound : ∀ {i : Nat}, spelled text i word = word.length →
    text.drop i = word ++ text.drop (i + word.length) := by
  induction word with
  | nil => intro i _; rfl
  | cons b word ih =>
    intro i h
    rw [spelled] at h
    by_cases hb : text[i]? = some b
    · rw [if_pos hb, length_cons] at h
      rw [drop_of_get hb, ih (by omega), length_cons, cons_append]
      congr 3
      omega
    · rw [if_neg hb, length_cons] at h
      omega

theorem keyword_sound {value : Value} (h : keyword text i word value = .ok (v, j)) :
    v = value ∧ text.drop i = word ++ text.drop j ∧ j = i + word.length := by
  unfold keyword at h
  simp only at h
  by_cases hall : spelled text i word = word.length
  · rw [if_pos hall] at h
    cases h
    rw [hall]
    exact ⟨rfl, spelled_sound hall, rfl⟩
  · rw [if_neg hall] at h
    unfold fail at h
    split at h
    · cases h
    · cases h

theorem numeral_ascii (h : Numeral t) : ∀ b ∈ t, b < 128 := by
  obtain ⟨integer, fraction, exponent, rfl, ⟨sign, digits, rfl, hsign, hdigits⟩, hf, he⟩ := h
  have hd : ∀ {ds : List Nat}, Digits ds → ∀ b ∈ ds, b < 128 := fun hds b hb => by
    have := isDigit_iff.mp (hds b hb)
    omega
  intro b hb
  simp only [mem_append] at hb
  rcases hb with (hb | hb) | hb | hb
  · rcases hsign with rfl | rfl
    · cases hb
    · obtain rfl := mem_singleton.mp hb
      omega
  · rcases hdigits with rfl | ⟨d, ds, rfl, hdig, -, hds⟩
    · obtain rfl := mem_singleton.mp hb
      omega
    · rcases mem_cons.mp hb with rfl | hb
      · have := isDigit_iff.mp hdig
        omega
      · exact hd hds b hb
  · rcases hf with rfl | ⟨ds, rfl, -, hds⟩
    · cases hb
    · rcases mem_cons.mp hb with rfl | hb
      · omega
      · exact hd hds b hb
  · rcases he with rfl | ⟨e, sign, ds, rfl, hletter, hsign, -, hds⟩
    · cases hb
    · rcases mem_cons.mp hb with rfl | hb
      · omega
      rcases mem_append.mp hb with hb | hb
      · rcases hsign with rfl | rfl | rfl
        · cases hb
        · obtain rfl := mem_singleton.mp hb
          omega
        · obtain rfl := mem_singleton.mp hb
          omega
      · exact hd hds b hb

theorem numberAt_sound (hv : Valid (text.drop i)) (h : numberAt text i = .ok (v, j)) :
    ∃ t, text.drop i = t ++ text.drop j ∧ j = i + t.length ∧ Leaf v t ∧ v.depth = 0 ∧ v.distinct ∧
      Valid (text.drop j) := by
  obtain ⟨finish, hscan, h⟩ := then_ok h
  cases h
  obtain ⟨t, rest, hd, hn, rfl⟩ := scanNumber_sound hscan
  have hrest := drop_add hd
  rw [hd] at hv
  rw [hrest, Nat.add_sub_cancel_left, hd, take_left]
  exact ⟨t, rfl, rfl, .number hn, rfl, trivial, hv.of_ascii_append (numeral_ascii hn)⟩

def Reads (n depth : Nat) (v : Value) (t : List Nat) : Prop :=
  Denotes n v t ∧ v.distinct ∧ v.depth + depth ≤ 128

theorem reads_leaf {depth : Nat} (h : Leaf v t) (hdepth : depth ≤ 128) (hd : v.depth = 0)
    (hdist : v.distinct) : Reads n depth v t := by
  refine ⟨?_, hdist, by omega⟩
  cases n with
  | zero => exact h
  | succ n => exact .inl h

theorem Elements.all (h : Elements p vs t) : ∀ v ∈ vs, ∃ s, p v s := by
  induction h with
  | last hb hv ha =>
    intro w hw
    obtain rfl := mem_singleton.mp hw
    exact ⟨_, hv⟩
  | more hb hv ha _ ih =>
    intro w hw
    rcases mem_cons.mp hw with rfl | hw
    · exact ⟨_, hv⟩
    · exact ih w hw

theorem Fields.all (h : Fields p ms t) : ∀ m ∈ ms, ∃ s, p m.2 s := by
  induction h with
  | last hm =>
    intro w hw
    obtain rfl := mem_singleton.mp hw
    cases hm with
    | field _ _ _ _ _ hv => exact ⟨_, hv⟩
  | more hm _ ih =>
    intro w hw
    rcases mem_cons.mp hw with rfl | hw
    · cases hm with
      | field _ _ _ _ _ hv => exact ⟨_, hv⟩
    · exact ih w hw

namespace Value

theorem depthItems_bound (h : ∀ v ∈ vs, v.depth ≤ n) : depthItems vs ≤ n := by
  induction vs with
  | nil => exact Nat.zero_le n
  | cons v vs ih =>
    rw [depthItems]
    exact Nat.max_le.mpr ⟨h v mem_cons_self, ih fun w hw => h w (mem_cons_of_mem _ hw)⟩

theorem depthMembers_bound (h : ∀ m ∈ ms, m.2.depth ≤ n) : depthMembers ms ≤ n := by
  induction ms with
  | nil => exact Nat.zero_le n
  | cons m ms ih =>
    obtain ⟨k, v⟩ := m
    rw [depthMembers]
    exact Nat.max_le.mpr ⟨h (k, v) mem_cons_self, ih fun w hw => h w (mem_cons_of_mem _ hw)⟩

end Value

theorem parseObject_sound {fuel depth : Nat} (hvalue : depth < 128 → SoundAt value text (Reads fuel (depth + 1)))
    (hd : text.drop i = 123 :: text.drop (i + 1)) (hv : Valid (text.drop (i + 1)))
    (h : parseObject value text i depth = .ok (v, j)) :
    ∃ t, text.drop i = t ++ text.drop j ∧ j = i + t.length ∧ Reads (fuel + 1) depth v t ∧ Valid (text.drop j) := by
  rw [parseObject] at h
  by_cases hdeep : 128 ≤ depth
  · rw [if_pos hdeep] at h
    cases h
  rw [if_neg hdeep] at h
  simp only at h
  by_cases hempty : text[skipSpace text (i + 1)]? = some 125
  · rw [if_pos hempty] at h
    obtain ⟨hout, rfl, -⟩ := closeObject_sound h
    obtain rfl : skipSpace text (i + 1) + 1 = j := Except.ok.inj hout
    obtain ⟨ws, hws, hd', hskip, hv₂⟩ := skip_sound hv hempty (by omega)
    refine ⟨123 :: (ws ++ [125]), ?_, ?_, ⟨.inr (.noMembers hws), ?_, ?_⟩, hv₂⟩
    · rw [hd]
      nth_rewrite 1 [hd']
      simp
    · simp only [length_cons, length_append, length_nil]
      omega
    · simp [Value.distinct, Value.distinctMembers]
    · simp only [Value.depth, Value.depthMembers]
      omega
  · rw [if_neg hempty] at h
    obtain ⟨hout, rfl, hnodup⟩ := closeObject_sound h
    obtain ⟨ms, t, hms, hd', hj, hfields, hvj⟩ :=
      membersFrom_sound (hvalue (by omega)) _ hv hout
    rw [nil_append] at hms
    rw [hms] at hnodup ⊢
    have hall := hfields.all
    refine ⟨123 :: (t ++ [125]), ?_, ?_, ⟨.inr (.members (hfields.imp fun m hm s hs => hs.1)), ?_, ?_⟩, hvj⟩
    · rw [hd, hd']
      simp
    · simp only [length_cons, length_append, length_nil]
      omega
    · rw [Value.distinct, Value.distinctMembers_iff]
      refine ⟨hnodup, fun m hm => ?_⟩
      obtain ⟨s, hs⟩ := hall m hm
      exact hs.2.1
    · have : Value.depthMembers ms ≤ 127 - depth := by
        refine Value.depthMembers_bound fun m hm => ?_
        obtain ⟨s, hs⟩ := hall m hm
        have := hs.2.2
        omega
      rw [Value.depth]
      omega

theorem parseItems_sound {fuel depth : Nat} (hvalue : depth < 128 → SoundAt value text (Reads fuel (depth + 1)))
    (hd : text.drop i = 91 :: text.drop (i + 1)) (hv : Valid (text.drop (i + 1)))
    (h : parseItems value text i depth = .ok (v, j)) :
    ∃ t, text.drop i = t ++ text.drop j ∧ j = i + t.length ∧ Reads (fuel + 1) depth v t ∧ Valid (text.drop j) := by
  rw [parseItems] at h
  by_cases hdeep : 128 ≤ depth
  · rw [if_pos hdeep] at h
    cases h
  rw [if_neg hdeep] at h
  simp only at h
  by_cases hempty : text[skipSpace text (i + 1)]? = some 93
  · rw [if_pos hempty] at h
    cases h
    obtain ⟨ws, hws, hd', hskip, hv₂⟩ := skip_sound hv hempty (by omega)
    refine ⟨91 :: (ws ++ [93]), ?_, ?_, ⟨.inr (.noItems hws), ?_, ?_⟩, hv₂⟩
    · rw [hd]
      nth_rewrite 1 [hd']
      simp
    · simp only [length_cons, length_append, length_nil]
      omega
    · simp [Value.distinct, Value.distinctItems]
    · simp only [Value.depth, Value.depthItems]
      omega
  · rw [if_neg hempty] at h
    obtain ⟨⟨vs, next⟩, hitems, h⟩ := then_ok h
    cases h
    obtain ⟨vs', t, hvs, hd', hj, hels, hvj⟩ :=
      itemsFrom_sound (hvalue (by omega)) _ hv hitems
    rw [nil_append] at hvs
    subst hvs
    have hall := hels.all
    refine ⟨91 :: (t ++ [93]), ?_, ?_, ⟨.inr (.items (hels.imp fun m hm s hs => hs.1)), ?_, ?_⟩, hvj⟩
    · rw [hd, hd']
      simp
    · simp only [length_cons, length_append, length_nil]
      omega
    · rw [Value.distinct, Value.distinctItems_iff]
      intro w hw
      obtain ⟨s, hs⟩ := hall w hw
      exact hs.2.1
    · have : Value.depthItems vs ≤ 127 - depth := by
        refine Value.depthItems_bound fun w hw => ?_
        obtain ⟨s, hs⟩ := hall w hw
        have := hs.2.2
        omega
      simp only [Value.depth]
      omega

theorem parseValue_sound : ∀ (fuel : Nat) {i j depth : Nat} {v : Value}, depth ≤ 128 →
    Valid (text.drop i) → parseValue text fuel i depth = .ok (v, j) →
    ∃ t, text.drop i = t ++ text.drop j ∧ j = i + t.length ∧ Reads fuel depth v t ∧ Valid (text.drop j)
  | 0, _, _, _, _, _, _, h => by cases h
  | fuel + 1, i, j, depth, v, hdepth, hv, h => by
    have hinner : depth < 128 → SoundAt (fun index => parseValue text fuel index (depth + 1)) text
        (Reads fuel (depth + 1)) :=
      fun hlt k w l hvk hw => parseValue_sound fuel (by omega) hvk hw
    rw [parseValue] at h
    cases hget : text[i]? with
    | none =>
      rw [hget] at h
      cases h
    | some b =>
      rw [hget] at h
      simp only at h
      have hd := drop_of_get hget
      have hv' := hv
      rw [hd] at hv'
      by_cases h123 : b = 123
      · subst h123
        rw [if_pos rfl] at h
        exact parseObject_sound hinner hd (hv'.tail_of_ascii (by omega)) h
      rw [if_neg h123] at h
      by_cases h91 : b = 91
      · subst h91
        rw [if_pos rfl] at h
        exact parseItems_sound hinner hd (hv'.tail_of_ascii (by omega)) h
      rw [if_neg h91] at h
      by_cases h34 : b = 34
      · subst h34
        rw [if_pos rfl] at h
        obtain ⟨⟨content, next⟩, hstr, h⟩ := then_ok h
        cases h
        obtain ⟨t, ht, hchars, hnext, hv₂⟩ := parseString_sound hget hv hstr
        refine ⟨34 :: (t ++ [34]), ?_, ?_, reads_leaf (.text hchars) hdepth rfl trivial, hv₂⟩
        · rw [ht]
          simp
        · simp only [length_cons, length_append, length_nil]
          omega
      rw [if_neg h34] at h
      have hword : ∀ {word : List Nat} {value : Value}, (∀ b ∈ word, b < 128) → Leaf value word →
          value.depth = 0 → value.distinct → keyword text i word value = .ok (v, j) →
          ∃ t, text.drop i = t ++ text.drop j ∧ j = i + t.length ∧ Reads (fuel + 1) depth v t ∧
            Valid (text.drop j) := by
        intro word value hascii hleaf hd0 hdist hkey
        obtain ⟨rfl, hdrop, hj⟩ := keyword_sound hkey
        refine ⟨word, hdrop, hj, reads_leaf hleaf hdepth hd0 hdist, ?_⟩
        rw [hdrop] at hv
        exact hv.of_ascii_append hascii
      by_cases h116 : b = 116
      · rw [if_pos h116] at h
        exact hword (by decide) .yes rfl trivial h
      rw [if_neg h116] at h
      by_cases h102 : b = 102
      · rw [if_pos h102] at h
        exact hword (by decide) .no rfl trivial h
      rw [if_neg h102] at h
      by_cases h110 : b = 110
      · rw [if_pos h110] at h
        exact hword (by decide) .null rfl trivial h
      rw [if_neg h110] at h
      split at h
      · obtain ⟨t, hdrop, hj, hleaf, hd0, hdist, hvj⟩ := numberAt_sound hv h
        exact ⟨t, hdrop, hj, reads_leaf hleaf hdepth hd0 hdist, hvj⟩
      · cases h

/-- `parse` succeeds exactly on the JSON texts of at most 64 MiB whose value has at most 128
containers in one another and no object with a repeated key, and gives the value the text denotes. -/
theorem parse_iff (text : Text) (v : Value) : parse text = .ok v ↔
      text.bytes.length ≤ 67108864 ∧ JsonText v text.bytes ∧ v.depth ≤ 128 ∧ v.distinct := by
  unfold parse
  by_cases hsize : maxLength < text.bytes.length
  · rw [if_pos hsize]
    unfold maxLength at hsize
    constructor
    · intro h
      cases h
    · rintro ⟨h, -⟩
      omega
  rw [if_neg hsize]
  unfold maxLength at hsize
  obtain ⟨ws, rest, hd, hws, hstops, hskip, hrest⟩ := skipSpace_sound text.bytes 0
  rw [drop_zero] at hd
  constructor
  · intro h
    obtain ⟨⟨w, next⟩, hval, h⟩ := then_ok h
    have hv : Valid (text.bytes.drop (skipSpace text.bytes 0)) := by
      have := text.valid
      rw [hd] at this
      rw [hrest]
      exact this.of_ascii_append hws.ascii
    obtain ⟨t, ht, hnext, ⟨hden, hdist, hdepth⟩, -⟩ := parseValue_sound 130 (by omega) hv hval
    obtain ⟨ws', rest', hd', hws', -, hskip', hrest'⟩ := skipSpace_sound text.bytes next
    simp only at h
    by_cases hend : skipSpace text.bytes next < text.bytes.length
    · rw [if_pos hend] at h
      cases h
    · rw [if_neg hend] at h
      obtain rfl : w = v := Except.ok.inj h
      have hnil : rest' = [] := by
        rw [← hrest']
        exact drop_eq_nil_iff.mpr (by omega)
      subst hnil
      rw [append_nil] at hd'
      refine ⟨by omega, ⟨130, ws, t, ws', ?_, hws, hden, hws'⟩, by omega, hdist⟩
      rw [hd, ← hrest, ht, hd']
  · rintro ⟨-, ⟨n, before, t, after, hbytes, hb, hden, ha⟩, hdepth, hdist⟩
    have h0 : text.bytes.drop 0 = before ++ (t ++ after) := hbytes
    have hstart := skipSpace_ok h0 hb (stops_start hden)
    rw [Nat.zero_add] at hstart
    have hdrop : text.bytes.drop before.length = t ++ after := by
      rw [hbytes, drop_left]
    have hrun := parseValue_ok hden hdist (by omega : v.depth + 0 ≤ 128) (by omega : v.depth < 130) hdrop (by
        have := afterNumber_blank ha (stops_nil : AfterNumber [])
        rwa [append_nil] at this)
    have hlast : text.bytes.drop (before.length + t.length) = after ++ [] := by
      rw [drop_add hdrop, append_nil]
    have hfinish := skipSpace_ok hlast ha stops_nil
    have hlen := congrArg List.length hbytes
    simp only [length_append] at hlen
    rw [hstart, hrun, ok_then]
    simp only [hfinish]
    rw [if_neg (by omega)]

end Tsuzuri.Json
