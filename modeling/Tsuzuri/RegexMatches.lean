import Tsuzuri.RegexUtf8

/-!
# Matches at indices

The matches of a text of scalars, at indices, and what the functions of the module make of them in an encoding.
-/

namespace Tsuzuri.Regex

open List
open FaultVec (ok_bind)

open FaultVec (Exec)

def firstMatch (re : Program) (slots : Nat) (text : List Nat) (i : Nat) : Option Slots :=
  leftmost re slots (scalarsIn plain (text.drop i)) i (text.take i).getLast?

variable {re : Program} {slots i start earlier last a b : Nat} {text : List Nat} {m : Slots} {ms : List Slots}

theorem firstMatch_spanned (hf : Framed re) (hslots : 2 ≤ slots) (hi : i ≤ text.length)
    (h : firstMatch re slots text i = some m) : ∃ a b, Spanned slots i text.length m a b := by
  apply leftmost_spanned hf hslots _ i _ m _ h
  rw [width_plain, length_drop]
  omega

inductive MatchesFrom (re : Program) (slots : Nat) (text : List Nat) : Nat → List Slots → Prop
  | none {i : Nat} (h : firstMatch re slots text i = none) : MatchesFrom re slots text i []
  | last {i : Nat} {m : Slots} (h : firstMatch re slots text i = some m)
      (hspan : Spanned slots i text.length m text.length text.length) : MatchesFrom re slots text i [m]
  | nonempty {i a b : Nat} {m : Slots} {ms : List Slots} (h : firstMatch re slots text i = some m)
      (hspan : Spanned slots i text.length m a b) (hlt : a < b) (hrest : MatchesFrom re slots text b ms) :
      MatchesFrom re slots text i (m :: ms)
  | empty {i a : Nat} {m : Slots} {ms : List Slots} (h : firstMatch re slots text i = some m)
      (hspan : Spanned slots i text.length m a a) (hlt : a < text.length)
      (hrest : MatchesFrom re slots text (a + 1) ms) : MatchesFrom re slots text i (m :: ms)

def Chain (slots last : Nat) : Nat → List Slots → Prop
  | _, [] => True
  | start, m :: ms => ∃ a b, Spanned slots start last m a b ∧ Chain slots last b ms

theorem Spanned.mono (h : Spanned slots start last m a b) (hle : earlier ≤ start) : Spanned slots earlier last m a b :=
  ⟨h.first, h.second, Nat.le_trans hle h.from_start, h.ordered, h.below, h.length, h.within⟩

theorem Chain.mono (h : Chain slots last start ms) (hle : earlier ≤ start) : Chain slots last earlier ms := by
  cases ms with
  | nil => trivial
  | cons m ms =>
    obtain ⟨a, b, hspan, hrest⟩ := h
    exact ⟨a, b, hspan.mono hle, hrest⟩

theorem MatchesFrom.chain (h : MatchesFrom re slots text i ms) : Chain slots text.length i ms := by
  induction h with
  | none => trivial
  | last _ hspan => exact ⟨_, _, hspan, trivial⟩
  | nonempty _ hspan _ _ ih => exact ⟨_, _, hspan, ih⟩
  | empty _ hspan _ _ ih => exact ⟨_, _, hspan, ih.mono (Nat.le_succ _)⟩

theorem exists_matchesFrom (hf : Framed re) (hslots : 2 ≤ slots) (text : List Nat) :
    ∀ (left i : Nat), i + left = text.length → ∃ ms, MatchesFrom re slots text i ms := by
  intro left
  induction left using Nat.strongRecOn with
  | ind left ih =>
    intro i hi
    cases h : firstMatch re slots text i with
    | none => exact ⟨[], .none h⟩
    | some m =>
      obtain ⟨a, b, hspan⟩ := firstMatch_spanned hf hslots (by omega) h
      have hfrom := hspan.from_start
      have hordered := hspan.ordered
      have hbelow := hspan.below
      rcases Nat.lt_or_eq_of_le hordered with hlt | rfl
      · obtain ⟨ms, hms⟩ := ih (text.length - b) (by omega) b (by omega)
        exact ⟨m :: ms, .nonempty h hspan hlt hms⟩
      · rcases Nat.lt_or_eq_of_le hbelow with hlt | rfl
        · obtain ⟨ms, hms⟩ := ih (text.length - (a + 1)) (by omega) (a + 1) (by omega)
          exact ⟨m :: ms, .empty h hspan hlt hms⟩
        · exact ⟨[m], .last h hspan⟩

/-! ## Searching in an encoding -/

/-- The input holds the text in an encoding. -/
structure Holds {α : Type} (encode : Nat → List α) (text : List Nat) (input : Input) : Prop where
  decodes : Decodes input (scalarsIn encode text)
  start : input.boundary 0 = true
  units : ∀ c, encode c ≠ []

section Holds

variable {α : Type} {encode : Nat → List α} {text : List Nat} {input : Input} {re : Program} {slots : Nat}

theorem Holds.length (h : Holds encode text input) : input.length = offset encode text text.length := by
  rw [h.decodes.length, width_scalarsIn, offset_length]

variable {ws : Workspace}

theorem Holds.search (h : Holds encode text input) (hl : Linked re) (hroom : Room re slots ws) (i : Nat) :
    ∃ found ws', search re input ws (offset encode text i) slots false = .ok (found, ws') ∧ Room re slots ws' ∧
      (firstMatch re slots text i).map (List.map (relocate encode text)) = if found then some ws'.best else none := by
  obtain ⟨⟨found, ws'⟩, hrun, hs⟩ := h.decodes.search hl (scalarsIn_split i) hroom false
  rw [width_take] at hrun
  refine ⟨found, ws', hrun, hs.room, ?_⟩
  rw [← hs.best rfl, width_take, lastCode_scalarsIn, leftmost_encoded re slots _ i rfl]
  rfl

theorem Holds.search_none (h : Holds encode text input) (hl : Linked re) (hroom : Room re slots ws)
    (hm : firstMatch re slots text i = none) :
    ∃ ws', Regex.search re input ws (offset encode text i) slots false = .ok (false, ws') := by
  obtain ⟨found, ws', hrun, _, hbest⟩ := h.search hl hroom i
  rw [hm] at hbest
  cases found with
  | false => exact ⟨ws', hrun⟩
  | true => cases hbest

theorem Holds.search_some (h : Holds encode text input) (hl : Linked re) (hroom : Room re slots ws)
    (hm : firstMatch re slots text i = some m) :
    ∃ ws', Regex.search re input ws (offset encode text i) slots false = .ok (true, ws') ∧
      Room re slots ws' ∧ ws'.best = m.map (relocate encode text) := by
  obtain ⟨found, ws', hrun, hroom', hbest⟩ := h.search hl hroom i
  rw [hm] at hbest
  cases found with
  | false => cases hbest
  | true => exact ⟨ws', hrun, hroom', (Option.some.inj hbest).symm⟩

theorem Spanned.index_first (h : Spanned slots start last m a b) :
    FaultVec.index (m.map (relocate encode text)) 0 = .ok (offset encode text a : Int) := by
  apply index_getElem (i := 0)
  rw [getElem?_map, h.first, Option.map_some, relocate_natCast]

theorem Spanned.index_second (h : Spanned slots start last m a b) :
    FaultVec.index (m.map (relocate encode text)) 1 = .ok (offset encode text b : Int) := by
  apply index_getElem (i := 1)
  rw [getElem?_map, h.second, Option.map_some, relocate_natCast]

def unitSpan (encode : Nat → List α) (text : List Nat) (span : Int × Int) : Int × Int :=
  (relocate encode text span.1, relocate encode text span.2)

def InText (text : List Nat) (span : Int × Int) : Prop :=
  span = (-1, -1) ∨ 0 ≤ span.1 ∧ span.1 ≤ text.length ∧ 0 ≤ span.2 ∧ span.2 ≤ text.length

def slotSpan (m : Slots) (group : Nat) : Int × Int :=
  if m.getD (2 * group) (-1) < 0 ∨ m.getD (2 * group + 1) (-1) < 0 then (-1, -1)
  else (m.getD (2 * group) (-1), m.getD (2 * group + 1) (-1))

theorem Within.getD_le (h : Within last m) (slot : Nat) : m.getD slot (-1) ≤ last := by
  rw [getD_eq_getElem?_getD]
  cases hx : m[slot]? with
  | none => simp only [Option.getD_none]; omega
  | some x => exact (h x (mem_of_getElem? hx)).2

theorem inText_slotSpan (h : Within text.length m) (group : Nat) : InText text (slotSpan m group) := by
  have hfirst := h.getD_le (2 * group)
  have hlast := h.getD_le (2 * group + 1)
  unfold slotSpan InText
  split
  · exact .inl rfl
  · right
    simp only
    omega

theorem Spanned.slotSpan_zero (h : Spanned slots start last m a b) : slotSpan m 0 = ((a : Int), (b : Int)) := by
  have hfirst : m.getD (2 * 0) (-1) = (a : Int) := by
    rw [getD_eq_getElem?_getD, Nat.mul_zero, h.first, Option.getD_some]
  have hlast : m.getD (2 * 0 + 1) (-1) = (b : Int) := by
    rw [getD_eq_getElem?_getD, Nat.mul_zero, Nat.zero_add, h.second, Option.getD_some]
  unfold slotSpan
  rw [hfirst, hlast, if_neg (by omega)]

theorem locate_ok (h : Holds encode text input) (hl : Linked re) (hf : Framed re) : locate re input 0 =
      .ok ((firstMatch re 2 text 0).map fun m => unitSpan encode text (slotSpan m 0)) := by
  cases hm : firstMatch re 2 text 0 with
  | none =>
    obtain ⟨ws, hrun⟩ := h.search_none hl (room_workspace re 2) hm
    rw [offset_zero] at hrun
    simp only [locate, h.start, Bool.not_true, Bool.false_eq_true, if_false, Int.toNat_zero, hrun,
      ok_bind, Option.map_none]
  | some m =>
    obtain ⟨a, b, hspan⟩ := firstMatch_spanned hf (Nat.le_refl 2) (Nat.zero_le _) hm
    obtain ⟨ws, hrun, _, hbest⟩ := h.search_some hl (room_workspace re 2) hm
    rw [offset_zero] at hrun
    simp only [locate, h.start, Bool.not_true, Bool.false_eq_true, if_false, Int.toNat_zero, hrun,
      ok_bind, if_true, hbest, hspan.index_first, hspan.index_second, Option.map_some,
      hspan.slotSpan_zero, unitSpan, relocate_natCast]

theorem groupSpans_ok {m : Slots} : ∀ count group : Nat, 2 * (group + count) ≤ m.length →
    groupSpans (m.map (relocate encode text)) count group =
      .ok ((List.range' group count).map fun g => unitSpan encode text (slotSpan m g)) := by
  intro count
  induction count with
  | zero =>
    intro group _
    rfl
  | succ count ih =>
    intro group hlength
    have hslot : ∀ slot : Nat, slot < m.length → FaultVec.index (m.map (relocate encode text)) (slot : Int) =
          .ok (relocate encode text (m.getD slot (-1))) := by
      intro slot hslot
      apply index_getElem
      rw [getElem?_map, getD_eq_getElem?_getD, getElem?_eq_getElem hslot, Option.map_some, Option.getD_some]
    rw [groupSpans, hslot _ (by omega), ok_bind, hslot _ (by omega), ok_bind,
      ih (group + 1) (by omega), ok_bind, range'_succ, map_cons]
    simp only [relocate_neg_iff, slotSpan]
    split <;> rfl

theorem spansOf_ok (h : Holds encode text input) (hl : Linked re) (hf : Framed re) :
    spansOf re input = .ok ((firstMatch re (2 * (re.groups + 1)) text 0).map fun m =>
      (List.range (re.groups + 1)).map fun g => unitSpan encode text (slotSpan m g)) := by
  cases hm : firstMatch re (2 * (re.groups + 1)) text 0 with
  | none =>
    obtain ⟨ws, hrun⟩ := h.search_none hl (room_workspace re _) hm
    rw [offset_zero] at hrun
    simp only [spansOf, hrun, ok_bind, Bool.false_eq_true, if_false, Option.map_none]
  | some m =>
    obtain ⟨a, b, hspan⟩ := firstMatch_spanned hf (by omega) (Nat.zero_le _) hm
    obtain ⟨ws, hrun, _, hbest⟩ := h.search_some hl (room_workspace re _) hm
    rw [offset_zero] at hrun
    have hspans := @groupSpans_ok _ encode text m (re.groups + 1) 0 (by rw [hspan.length, Nat.zero_add])
    simp only [spansOf, hrun, ok_bind, if_true, hbest, hspans, Option.map_some, range_eq_range']

/-! ## All matches -/

theorem Holds.scalar (h : Holds encode text input) {c : Nat} (hget : text[i]? = some c) :
    input.scalar (offset encode text i) = .ok (some (c, (encode c).length)) := by
  obtain ⟨hi, hc⟩ := List.getElem?_eq_some_iff.mp hget
  have hreads := (h.decodes.reads _ _ (scalarsIn_split i)).scalar
  rw [width_take, drop_eq_getElem_cons hi, hc] at hreads
  exact hreads

theorem matchesFrom_ok (h : Holds encode text input) (hl : Linked re) (hms : MatchesFrom re slots text i ms) :
    ∀ (fuel : Nat) (ws : Workspace) (output : List Slots), i ≤ text.length → text.length < fuel + i → Room re slots ws →
      matchesFrom re input slots fuel ws (offset encode text i) output =
        .ok (output ++ ms.map (List.map (relocate encode text))) := by
  induction hms with
  | none hm =>
    intro fuel ws output hi hfuel hroom
    obtain ⟨fuel, rfl⟩ : ∃ f, fuel = f + 1 := ⟨fuel - 1, by omega⟩
    obtain ⟨ws', hrun⟩ := h.search_none hl hroom hm
    simp only [matchesFrom, hrun, ok_bind, Bool.false_eq_true, if_false, map_nil, append_nil]
  | last hm hspan =>
    intro fuel ws output hi hfuel hroom
    obtain ⟨fuel, rfl⟩ : ∃ f, fuel = f + 1 := ⟨fuel - 1, by omega⟩
    obtain ⟨ws', hrun, _, hbest⟩ := h.search_some hl hroom hm
    simp only [matchesFrom, hrun, ok_bind, if_true, hbest, hspan.index_first,
      hspan.index_second, h.length, Int.lt_irrefl, if_false, Int.le_refl]
    rfl
  | @nonempty i a b m ms hm hspan hlt hrest ih =>
    intro fuel ws output hi hfuel hroom
    obtain ⟨fuel, rfl⟩ : ∃ f, fuel = f + 1 := ⟨fuel - 1, by omega⟩
    obtain ⟨ws', hrun, hroom', hbest⟩ := h.search_some hl hroom hm
    have hfrom := hspan.from_start
    have hoffsets := offset_lt h.units hlt hspan.below
    simp only [matchesFrom, hrun, ok_bind, if_true, hbest, hspan.index_first,
      hspan.index_second, Nat.cast_lt, hoffsets, Int.toNat_natCast]
    rw [ih fuel ws' _ hspan.below (by omega) hroom', append_assoc]
    rfl
  | @empty i a m ms hm hspan hlt hrest ih =>
    intro fuel ws output hi hfuel hroom
    obtain ⟨fuel, rfl⟩ : ∃ f, fuel = f + 1 := ⟨fuel - 1, by omega⟩
    obtain ⟨ws', hrun, hroom', hbest⟩ := h.search_some hl hroom hm
    have hfrom := hspan.from_start
    have hoffsets := offset_lt h.units hlt (Nat.le_refl _)
    have hget : text[a]? = some text[a] := getElem?_eq_getElem hlt
    simp only [matchesFrom, hrun, ok_bind, if_true, hbest, hspan.index_first,
      hspan.index_second, h.length, Int.lt_irrefl, if_false, Nat.cast_le, Nat.not_le.mpr hoffsets,
      Int.toNat_natCast, h.scalar hget, ← offset_succ hget]
    rw [ih fuel ws' _ (by omega) (by omega) hroom', append_assoc]
    rfl

theorem exists_allMatches (hl : Linked re) (hf : Framed re) (hslots : 2 ≤ slots) (text : List Nat) :
    ∃ ms : List Slots, Chain slots text.length 0 ms ∧
      ∀ {α : Type} {encode : Nat → List α} {input : Input}, Holds encode text input →
        allMatches re input slots = .ok (ms.map (List.map (relocate encode text))) := by
  obtain ⟨ms, hms⟩ := exists_matchesFrom hf hslots text text.length 0 (Nat.zero_add _)
  refine ⟨ms, hms.chain, ?_⟩
  intro α encode input h
  have hlength : text.length ≤ input.length := by
    have := length_le_width _ h.decodes.pos
    rw [← h.decodes.length] at this
    simpa [scalarsIn] using this
  have := matchesFrom_ok h hl hms (input.length + 2) (workspace re slots) [] (Nat.zero_le _)
    (by omega) (room_workspace re slots)
  rwa [offset_zero, nil_append] at this

theorem exists_spans : ∀ (ms : List Slots) (start : Nat), Chain slots text.length start ms →
    ∃ found : List (Int × Int), (∀ s ∈ found, InText text s) ∧ ∀ {α : Type} {encode : Nat → List α},
        spans (ms.map (List.map (relocate encode text))) = .ok (found.map (unitSpan encode text)) := by
  intro ms
  induction ms with
  | nil =>
    intro start _
    exact ⟨[], by simp, fun {_ _} => rfl⟩
  | cons m ms ih =>
    intro start hchain
    obtain ⟨a, b, hspan, hrest⟩ := hchain
    obtain ⟨found, hin, hfound⟩ := ih b hrest
    refine ⟨(a, b) :: found, forall_mem_cons.mpr ⟨hspan.slotSpan_zero ▸ inText_slotSpan hspan.within 0, hin⟩, ?_⟩
    intro α encode
    simp only [map_cons, spans, hspan.index_first, hspan.index_second, ok_bind, hfound, unitSpan, relocate_natCast]

end Holds

end Tsuzuri.Regex
