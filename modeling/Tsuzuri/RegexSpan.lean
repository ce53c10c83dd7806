import Tsuzuri.RegexText

/-!
# The span of a match

A program saves the start of its match first and the end just before `match`, to which nothing
jumps.
-/

namespace Tsuzuri.Regex

open OrderedSearch List
open Json (Str)

/-! ## The ends of a program -/

/-- Slot 0 is saved first and nowhere else, and `match` comes only behind a save of slot 1. -/
structure Framed (re : Program) : Prop where
  start : re.code[0]? = some (.save 0)
  once : ∀ pc : Nat, re.code[pc]? = some (.save 0) → pc = 0
  goals_pos : ∀ (pc : Nat) (instr : Instr), re.code[pc]? = some instr → ∀ goal ∈ instr.goals, 0 < goal
  goals : ∀ (pc : Nat) (instr : Instr), re.code[pc]? = some instr → ∀ goal ∈ instr.goals, re.code[goal]? ≠ some .match_
  final : ∀ pc : Nat, re.code[pc]? = some .match_ → ∃ p, pc = p + 1 ∧ re.code[p]? = some (.save 1)

theorem assemble_framed {tree : Tree} (hv : tree.root.Valid tree.classes.length)
    (h : tree.root.size ≤ maxInstructions) : Framed (assemble tree) := by
  have hlen := length_emit tree.root 1 h
  have hcode : (assemble tree).code = .save 0 :: (emit tree.root 1 ++ [.save 1, .match_]) := rfl
  have hmatch : ∀ pc : Nat, (assemble tree).code[pc]? = some .match_ → pc = tree.root.size + 2 := by
    intro pc hget
    cases pc with
    | zero =>
      rw [hcode, getElem?_cons_zero] at hget
      cases hget
    | succ pc =>
      rw [hcode, getElem?_cons_succ] at hget
      rcases Nat.lt_or_ge pc tree.root.size with hpc | hpc
      · rw [getElem?_append_left (by omega)] at hget
        exact absurd rfl (mem_emit hv 1 (by omega) h _ (mem_of_getElem? hget)).ne_match
      · rw [getElem?_append_right (by omega), hlen] at hget
        rcases hk : pc - tree.root.size with _ | _ | k
        · rw [hk] at hget
          cases hget
        · omega
        · rw [hk] at hget
          cases hget
  have hgoals : ∀ (pc : Nat) (instr : Instr), (assemble tree).code[pc]? = some instr →
      ∀ goal ∈ instr.goals, 0 < goal ∧ goal ≤ 1 + tree.root.size := by
    intro pc instr hget goal hgoal
    have hin : instr ∈ (assemble tree).code := mem_of_getElem? hget
    rw [hcode] at hin
    rcases mem_cons.mp hin with rfl | hin
    · cases hgoal
    · rcases mem_append.mp hin with hin | hin
      · have hinner := mem_emit hv 1 (by omega) h instr hin
        exact ⟨hinner.goals_pos goal hgoal, hinner.goals_le goal hgoal⟩
      · simp only [mem_cons, not_mem_nil, or_false] at hin
        rcases hin with rfl | rfl <;> cases hgoal
  refine ⟨rfl, ?_, fun pc instr hget goal hgoal => (hgoals pc instr hget goal hgoal).1, ?_, ?_⟩
  · intro pc hget
    cases pc with
    | zero => rfl
    | succ pc =>
      rw [hcode, getElem?_cons_succ] at hget
      rcases mem_append.mp (mem_of_getElem? hget) with hin | hin
      · exact absurd rfl (mem_emit hv 1 (by omega) h _ hin).ne_save
      · simp at hin
  · intro pc instr hget goal hgoal hg
    have hbound := hmatch goal hg
    have := (hgoals pc instr hget goal hgoal).2
    omega
  · intro pc hget
    obtain rfl := hmatch pc hget
    refine ⟨tree.root.size + 1, rfl, ?_⟩
    rw [hcode, getElem?_cons_succ, getElem?_append_right (by omega), hlen, Nat.sub_self]
    rfl

theorem compile_framed {data : UnicodeData} {pattern : Str} {re : Program}
    (h : compile data pattern = .ok re) : Framed re := by
  obtain ⟨tree, _, rfl, hok, hsize⟩ := compile_ok h
  exact assemble_framed hok.valid hsize

/-! ## Slots -/

/-- Every slot is -1 or an offset up to `pos`. -/
def Within (pos : Nat) (s : Slots) : Prop := ∀ x ∈ s, -1 ≤ x ∧ x ≤ pos

variable {pos later : Nat} {s : Slots}

theorem Within.mono (h : Within pos s) (hle : pos ≤ later) : Within later s := by
  intro x hx
  have := h x hx
  omega

theorem Within.set (h : Within pos s) (slot : Nat) : Within pos (s.set slot pos) := by
  intro x hx
  rcases mem_or_eq_of_mem_set hx with hx | rfl
  · exact h x hx
  · omega

/-- The slots of a branch: the start is saved behind the first instruction, the end at `match`. -/
structure Saved (re : Program) (slots start pos pc : Nat) (s : Slots) : Prop where
  two_le : 2 ≤ slots
  length : s.length = slots
  within : Within pos s
  first : pc = 0 ∧ pos = start ∨ 0 < pc ∧ s[0]? = some (start : Int)
  last : re.code[pc]? = some .match_ → s[1]? = some (pos : Int)

/-- The slots of a match: its span is `a` to `b`, and every group lies up to `last`. -/
structure Spanned (slots start last : Nat) (s : Slots) (a b : Nat) : Prop where
  first : s[0]? = some (a : Int)
  second : s[1]? = some (b : Int)
  from_start : start ≤ a
  ordered : a ≤ b
  below : b ≤ last
  length : s.length = slots
  within : Within last s

section Saved

variable {re : Program} {slots start : Nat}

theorem saved_initial (start : Nat) (hslots : 2 ≤ slots) (hf : Framed re) :
    Saved re slots start start 0 (List.replicate slots (-1)) := by
  refine ⟨hslots, length_replicate, ?_, .inl ⟨rfl, rfl⟩, ?_⟩
  · intro x hx
    rw [eq_of_mem_replicate hx]
    omega
  · intro h
    rw [hf.start] at h
    cases h

variable {pc last : Nat} {instr : Instr}

section

variable (h : Saved re slots start pos pc s)

include h

theorem Saved.first_of_ne (hf : Framed re) (hget : re.code[pc]? = some instr) (hne : instr ≠ .save 0) :
    s[0]? = some (start : Int) := by
  rcases h.first with ⟨rfl, _⟩ | ⟨_, h⟩
  · rw [hf.start] at hget
    exact absurd (Option.some.inj hget).symm hne
  · exact h

theorem Saved.jump {goal : Nat} (hf : Framed re) (hget : re.code[pc]? = some instr) (hne : instr ≠ .save 0)
    (hgoal : goal ∈ instr.goals) : Saved re slots start pos goal s :=
  ⟨h.two_le, h.length, h.within, .inr ⟨hf.goals_pos pc instr hget goal hgoal, h.first_of_ne hf hget hne⟩,
    fun hmatch => absurd hmatch (hf.goals pc instr hget goal hgoal)⟩

theorem Saved.next (hf : Framed re) (hget : re.code[pc]? = some instr) (hne : ∀ slot, instr ≠ .save slot)
    (hle : pos ≤ later) : Saved re slots start later (pc + 1) s := by
  refine ⟨h.two_le, h.length, h.within.mono hle,
    .inr ⟨Nat.succ_pos pc, h.first_of_ne hf hget (hne 0)⟩, fun hmatch => ?_⟩
  obtain ⟨p, hp, hsave⟩ := hf.final _ hmatch
  obtain rfl : pc = p := by omega
  rw [hget] at hsave
  exact absurd (Option.some.inj hsave) (hne 1)

theorem Saved.save {slot : Nat} (hf : Framed re) (hget : re.code[pc]? = some (.save slot)) :
    Saved re slots start pos (pc + 1) (s.set slot pos) := by
  have htwo := h.two_le
  have hlength := h.length
  refine ⟨htwo, by rwa [length_set], h.within.set slot, .inr ⟨Nat.succ_pos pc, ?_⟩, fun hmatch => ?_⟩
  · by_cases hzero : slot = 0
    · -- only the first instruction saves the start, and there the branch starts
      subst hzero
      obtain rfl := hf.once pc hget
      rcases h.first with ⟨_, rfl⟩ | ⟨hpos, _⟩
      · exact getElem?_set_self (by omega)
      · omega
    · rw [getElem?_set_ne hzero]
      exact h.first_of_ne hf hget (by simpa using hzero)
  · obtain ⟨p, hp, hsave⟩ := hf.final _ hmatch
    obtain rfl : pc = p := by omega
    rw [hget] at hsave
    obtain rfl : slot = 1 := by simpa using hsave
    exact getElem?_set_self (by omega)

end

theorem Saved.follow (place : Place) (h : Saved re slots start place.pos pc s) (hf : Framed re) :
    ∀ e ∈ follow re place pc s, Saved re slots start place.pos e.1 e.2 := by
  intro e he
  unfold Regex.follow at he
  split at he
  · rename_i goal hget
    obtain rfl := mem_singleton.mp he
    exact h.jump hf hget (by simp) (by simp [Instr.goals])
  · rename_i first second hget
    simp only [mem_cons, not_mem_nil, or_false] at he
    rcases he with rfl | rfl <;> exact h.jump hf hget (by simp) (by simp [Instr.goals])
  · rename_i slot hget
    obtain rfl := mem_singleton.mp he
    exact h.save hf hget
  · rename_i kind word hget
    split at he
    · obtain rfl := mem_singleton.mp he
      exact h.next hf hget (by simp) (Nat.le_refl _)
    · cases he
  · cases he

theorem Saved.match_ (h : Saved re slots start pos pc s) (hf : Framed re)
    (hget : re.code[pc]? = some .match_) (hle : pos ≤ last) : ∃ b, Spanned slots start last s start b := by
  have hfirst := h.first_of_ne hf hget (by simp)
  have hbound := h.within start (mem_of_getElem? hfirst)
  exact ⟨pos, hfirst, h.last hget, Nat.le_refl _, by omega, hle, h.length, h.within.mono hle⟩

theorem thread_spanned (hf : Framed re) : ∀ (rest : Scalars) (pos pc : Nat) (s m : Slots), pos + width rest ≤ last →
      Saved re slots start pos pc s → thread re rest pos pc s = some m → ∃ b, Spanned slots start last m start b := by
  intro rest
  induction rest with
  | nil =>
    intro pos pc s m hlast h hm
    unfold thread at hm
    split at hm
    · rename_i hget
      cases hm
      exact h.match_ hf hget (by simpa using hlast)
    · cases hm
  | cons c rest ih =>
    intro pos pc s m hlast h hm
    obtain ⟨code, wide⟩ := c
    rw [width_cons] at hlast
    unfold thread at hm
    split at hm
    · rename_i hget
      cases hm
      exact h.match_ hf hget (by omega)
    split at hm
    · rename_i haccepts
      have hne : ∀ slot, re.code[pc]? ≠ some (.save slot) := by
        intro slot hsave
        rw [hsave] at haccepts
        cases haccepts
      obtain ⟨instr, hget⟩ : ∃ instr, re.code[pc]? = some instr := by
        cases hget : re.code[pc]? with
        | none =>
          rw [hget] at haccepts
          cases haccepts
        | some instr => exact ⟨instr, rfl⟩
      exact walk_inv (fun pc s => Saved re slots start (pos + wide) pc s)
        (fun m => ∃ b, Spanned slots start last m start b)
        (fun pc s h => h.follow (placeAt rest (pos + wide) (some code)) hf)
        (fun pc s m h hm => ih (pos + wide) pc s m (by omega) h hm) _ _ _ _ _
        (h.next hf hget (fun slot heq => hne slot (heq ▸ hget)) (Nat.le_add_right _ _)) hm
    · cases hm

theorem branches_spanned (hf : Framed re) (hslots : 2 ≤ slots) {rest : Scalars} {prev : Option Nat}
    {m : Slots} (hlast : start + width rest ≤ last)
    (hm : branches re rest start prev 0 (List.replicate slots (-1)) = some m) :
    ∃ b, Spanned slots start last m start b :=
  walk_inv (fun pc s => Saved re slots start start pc s) (fun m => ∃ b, Spanned slots start last m start b)
    (fun _ _ h => h.follow (placeAt rest start prev) hf)
    (fun pc s m h hm => thread_spanned hf rest start pc s m hlast h hm)
    _ _ _ _ _ (saved_initial start hslots hf) hm

theorem leftmost_spanned (hf : Framed re) (hslots : 2 ≤ slots) :
    ∀ (rest : Scalars) (pos : Nat) (prev : Option Nat) (m : Slots), pos + width rest ≤ last →
      leftmost re slots rest pos prev = some m → ∃ a b, Spanned slots pos last m a b := by
  intro rest
  induction rest with
  | nil =>
    intro pos prev m hlast hm
    obtain ⟨b, h⟩ := branches_spanned hf hslots hlast hm
    exact ⟨pos, b, h⟩
  | cons c rest ih =>
    intro pos prev m hlast hm
    rw [leftmost] at hm
    rcases Option.or_eq_some_iff.mp hm with hm | ⟨_, hm⟩
    · obtain ⟨b, h⟩ := branches_spanned hf hslots hlast hm
      exact ⟨pos, b, h⟩
    · rw [width_cons] at hlast
      obtain ⟨a, b, h⟩ := ih (pos + c.2) _ m (by omega) hm
      have := h.from_start
      exact ⟨a, b, h.first, h.second, by omega, h.ordered, h.below, h.length, h.within⟩

end Saved

end Tsuzuri.Regex
