import Tsuzuri.RegexSearch
import Tsuzuri.RegexValid

/-!
# Texts as scalars

A text is its scalars with their widths, which the input has behind and before every offset between two of them.
-/

namespace Tsuzuri.Regex

open List Option

open FaultVec (Exec)
open Json (Str)

def width (scalars : Scalars) : Nat := (scalars.map Prod.snd).sum

@[simp] theorem width_nil : width [] = 0 := rfl

@[simp] theorem width_cons (c : Nat × Nat) (scalars : Scalars) : width (c :: scalars) = c.2 + width scalars := by
  simp [width]

@[simp] theorem width_append (first second : Scalars) : width (first ++ second) = width first + width second := by
  simp [width]

def lastCode (front : Scalars) : Option Nat := front.getLast?.map Prod.fst

/-- The input consists of these scalars. -/
structure Decodes (input : Input) (scalars : Scalars) : Prop where
  reads : ∀ front back, scalars = front ++ back → Reads input back (width front)
  before : ∀ front back, scalars = front ++ back → input.before (width front) = .ok (lastCode front)
  length : input.length = width scalars
  pos : ∀ c ∈ scalars, 0 < c.2

theorem length_le_width (scalars : Scalars) (h : ∀ c ∈ scalars, 0 < c.2) : scalars.length ≤ width scalars := by
  induction scalars with
  | nil => simp
  | cons c scalars ih =>
    have hc := h c mem_cons_self
    have := ih fun d hd => h d (mem_cons_of_mem c hd)
    rw [length_cons, width_cons]
    omega

theorem Decodes.search {re : Program} (h : Linked re) {input : Input} {scalars front back : Scalars}
    (hd : Decodes input scalars) (hsplit : scalars = front ++ back) {slots : Nat} {ws : Workspace}
    (hroom : Room re slots ws) (first : Bool) : ∃ result, search re input ws (width front) slots first = .ok result ∧
      Searched re slots first (ws.steps + 2 * re.code.length * (back.length + 1))
        (leftmost re slots back (width front) (lastCode front)) result := by
  have hlength : back.length ≤ input.length := by
    have := length_le_width back fun c hc => hd.pos c (by simp [hsplit, hc])
    rw [hd.length, hsplit, width_append]
    omega
  exact search_ok h (hd.reads front back hsplit) (hd.before front back hsplit) hlength hroom

/-! ## UTF-16 -/

def scalars16 : Str → Scalars
  | [] => []
  | [u] => [(u.toNat, 1)]
  | u :: v :: text =>
    if isHigh u.toNat && isLow v.toNat then
      ((u.toNat - 55296) * 1024 + v.toNat - 56320 + 65536, 2) :: scalars16 text
    else (u.toNat, 1) :: scalars16 (v :: text)

theorem unit_append_left {front text : Str} {index : Nat} (h : front.length ≤ index) :
    unit (front ++ text) index = unit text (index - front.length) := by
  rw [unit, getElem?_append_right h, unit]

theorem scalar16_append (front : Str) : ∀ text : Str, (text = [] → scalar16 (front ++ text) front.length = none) ∧
    ∀ c scalars, scalars16 text = c :: scalars →
      scalar16 (front ++ text) front.length = some c ∧ 0 < c.2 ∧ c.2 ≤ text.length ∧ scalars = scalars16 (text.drop c.2)
  | [] => ⟨fun _ => by simp [scalar16, unit], fun c scalars h => by cases h⟩
  | [u] => by
    refine ⟨by simp, fun c scalars h => ?_⟩
    obtain ⟨rfl, rfl⟩ := List.cons.inj h
    refine ⟨?_, by simp, by simp, rfl⟩
    simp [scalar16, unit]
  | u :: v :: text => by
    refine ⟨by simp, fun c scalars h => ?_⟩
    have hu : unit (front ++ u :: v :: text) front.length = some u.toNat := by
      rw [unit_append_left (Nat.le_refl _)]
      simp [unit]
    have hv : unit (front ++ u :: v :: text) (front.length + 1) = some v.toNat := by
      rw [unit_append_left (Nat.le_succ _)]
      simp [unit]
    rw [scalars16] at h
    cases hpair : isHigh u.toNat && isLow v.toNat with
    | true =>
      rw [if_pos hpair] at h
      obtain ⟨rfl, rfl⟩ := List.cons.inj h
      refine ⟨?_, by simp, by simp, rfl⟩
      rw [scalar16, hu, map_some, hv]
      simp [hpair]
    | false =>
      rw [if_neg (by simp [hpair])] at h
      obtain ⟨rfl, rfl⟩ := List.cons.inj h
      refine ⟨?_, by simp, by simp, rfl⟩
      rw [scalar16, hu, map_some, hv]
      simp [hpair]

theorem width_scalars16 (text : Str) : width (scalars16 text) = text.length := by
  induction text using scalars16.induct with
  | case1 => rfl
  | case2 u => rfl
  | case3 u v text hpair ih =>
    rw [scalars16, if_pos hpair, width_cons, ih]
    simp only [length_cons]
    omega
  | case4 u v text hpair ih =>
    rw [scalars16, if_neg hpair, width_cons, ih]
    simp only [length_cons]
    omega

theorem pos_scalars16 (text : Str) : ∀ c ∈ scalars16 text, 0 < c.2 := by
  induction text using scalars16.induct with
  | case1 => simp [scalars16]
  | case2 u => simp [scalars16]
  | case3 u v text hpair ih =>
    rw [scalars16, if_pos hpair]
    exact forall_mem_cons.mpr ⟨by simp, ih⟩
  | case4 u v text hpair ih =>
    rw [scalars16, if_neg hpair]
    exact forall_mem_cons.mpr ⟨by simp, ih⟩

def Between (text : Str) (pos : Nat) : Prop :=
  0 < pos → (unit text (pos - 1)).any isHigh = true → (unit text pos).any isLow = false

theorem high_not_low {code : Nat} (h : isLow code = true) : isHigh code = false := by
  simp only [isLow, isHigh, Bool.and_eq_true, decide_eq_true_eq, Bool.and_eq_false_iff, decide_eq_false_iff_not] at *
  omega

theorem between_scalar16 {text : Str} {pos : Nat} {c : Nat × Nat} (h : scalar16 text pos = some c)
    (hb : Between text pos) : Between text (pos + c.2) ∧ Input.before16 text (pos + c.2) = some c.1 := by
  obtain ⟨high, hunit, hc⟩ := map_eq_some_iff.mp h
  split at hc
  · rename_i hpair
    subst hc
    simp only [Bool.and_eq_true] at hpair
    obtain ⟨hhigh, hlow⟩ := hpair
    cases hnext : unit text (pos + 1) with
    | none => simp [hnext] at hlow
    | some low =>
      rw [hnext, any_some] at hlow
      constructor
      · intro _ habove
        rw [show pos + 2 - 1 = pos + 1 by omega, hnext, any_some, high_not_low hlow] at habove
        cases habove
      · simp [Input.before16, hnext, hunit, hlow, hhigh]
  · rename_i hsingle
    subst hc
    simp only [Bool.and_eq_true, not_and, Bool.not_eq_true] at hsingle
    constructor
    · intro _ habove
      rw [show pos + 1 - 1 = pos by omega, hunit, any_some] at habove
      exact hsingle habove
    · have hno : (isLow high && decide (2 ≤ pos + 1) && (unit text (pos + 1 - 2)).any isHigh) = false := by
        by_contra htrue
        simp only [Bool.not_eq_false, Bool.and_eq_true, decide_eq_true_eq] at htrue
        obtain ⟨⟨hlow, hpos⟩, habove⟩ := htrue
        have := hb (by omega) (by rw [show pos - 1 = pos + 1 - 2 by omega]; exact habove)
        rw [hunit, any_some, hlow] at this
        cases this
      simp only [Input.before16, Nat.add_one_ne_zero, if_false, Nat.add_sub_cancel, hunit, map_some, hno]
      simp

theorem reads16 : ∀ (n : Nat) (front text : Str), text.length ≤ n →
    Reads (.utf16 (front ++ text)) (scalars16 text) front.length := by
  intro n
  induction n with
  | zero =>
    intro front text hn
    obtain rfl := length_eq_zero_iff.mp (Nat.le_zero.mp hn)
    rw [scalars16, Reads, Input.scalar, (scalar16_append front []).1 rfl]
  | succ n ih =>
    intro front text hn
    obtain ⟨hnil, hcons⟩ := scalar16_append front text
    cases hs : scalars16 text with
    | nil =>
      have : text = [] := by
        have := width_scalars16 text
        rw [hs] at this
        exact length_eq_zero_iff.mp this.symm
      rw [Reads, Input.scalar, hnil this]
    | cons c scalars =>
      obtain ⟨hscalar, hpos, hle, rfl⟩ := hcons c scalars hs
      refine ⟨by rw [Input.scalar, hscalar], hpos, ?_⟩
      have := ih (front ++ text.take c.2) (text.drop c.2) (by rw [length_drop]; omega)
      rw [append_assoc, take_append_drop, length_append, length_take, Nat.min_eq_left hle] at this
      exact this

theorem reads_split {input : Input} : ∀ (front back : Scalars) (pos : Nat),
    Reads input (front ++ back) pos → Reads input back (pos + width front) := by
  intro front
  induction front with
  | nil =>
    intro back pos h
    exact h
  | cons c front ih =>
    intro back pos h
    rw [width_cons, ← Nat.add_assoc]
    exact ih back _ h.2.2

theorem before16_split {text : Str} : ∀ (front back : Scalars) (pos : Nat), Between text pos →
    Reads (.utf16 text) (front ++ back) pos → front ≠ [] →
      Input.before16 text (pos + width front) = lastCode front := by
  intro front
  induction front with
  | nil =>
    intro back pos _ _ hne
    exact absurd rfl hne
  | cons c front ih =>
    intro back pos hb h _
    obtain ⟨hscalar, _, hreads⟩ := h
    obtain ⟨hnext, hbefore⟩ := between_scalar16 (Except.ok.inj hscalar) hb
    rw [width_cons, ← Nat.add_assoc]
    cases front with
    | nil => simpa [lastCode] using hbefore
    | cons d front =>
      rw [ih back _ hnext hreads (by simp)]
      simp [lastCode]

theorem decodes16 (text : Str) : Decodes (.utf16 text) (scalars16 text) := by
  have hreads : Reads (.utf16 text) (scalars16 text) 0 := reads16 text.length [] text (Nat.le_refl _)
  refine ⟨fun front back hsplit => ?_, fun front back hsplit => ?_, (width_scalars16 text).symm, pos_scalars16 text⟩
  · rw [hsplit] at hreads
    simpa using reads_split front back 0 hreads
  · cases front with
    | nil => simp [Input.before, Input.before16, lastCode]
    | cons c front =>
      rw [hsplit] at hreads
      have := before16_split (c :: front) back 0 (fun h => by omega) hreads (by simp)
      rw [Nat.zero_add] at this
      rw [Input.before, this]

/-! ## Steps -/

/-- The steps of a search are linear in the text: at most two for each instruction at each offset. -/
theorem search_steps_le {data : UnicodeData} {pattern : Str} {re : Program}
    (h : compile data pattern = .ok re) (text : Str) :
    ∃ steps, searchSteps re text = .ok steps ∧ steps ≤ 2 * re.code.length * ((scalars16 text).length + 1) := by
  obtain ⟨⟨found, ws⟩, hrun, hs⟩ := (decodes16 text).search (compile_linked h)
    (nil_append _).symm (room_workspace re 2) false
  refine ⟨ws.steps, ?_, ?_⟩
  · unfold searchSteps
    rw [width_nil] at hrun
    rw [hrun]
    rfl
  · simpa [workspace] using hs.steps

/-- The text of `(a*)*`, whose two splits an empty iteration goes through again. -/
def nestedStar : Str := [40, 97, 42, 41, 42]

theorem search_steps_le_nested : ∃ (data : UnicodeData) (re : Program), compile data nestedStar = .ok re ∧
      ∃ steps, searchSteps re [97, 98] = .ok steps ∧
        steps ≤ 2 * re.code.length * ((scalars16 [97, 98]).length + 1) := by
  obtain ⟨data, re, h⟩ : ∃ (data : UnicodeData) (re : Program), compile data nestedStar = .ok re :=
    ⟨⟨fun _ => none, [], by simp, by simp⟩,
      { code := [.save 0, .split 2 8, .save 2, .split 4 6, .char 97, .jump 3, .save 3, .jump 1, .save 1, .match_],
        classes := [], groups := 1, anchored := false },
      rfl⟩
  exact ⟨data, re, h, search_steps_le h [97, 98]⟩

end Tsuzuri.Regex
