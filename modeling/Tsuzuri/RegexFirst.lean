import Tsuzuri.RegexOrderSound

/-!
# The first match of a text

What `find` and `captures` give: the slots of the first branch of the leftmost index that has one.
-/

namespace Tsuzuri.Regex

open OrderedSearch List
open Json (Str)
open Unicode (encode16)

theorem codes_scalars16 (text : Str) : scalarsIn encode16 (codes (scalars16 text)) = scalars16 text := by
  have hone : ∀ u : UInt16, (encode16 u.toNat).length = 1 := by
    intro u
    have := u.toNat_lt
    rw [encode16, if_pos (by omega)]
    rfl
  induction text using scalars16.induct with
  | case1 => rfl
  | case2 u => simp [scalars16, codes, scalarsIn, hone]
  | case3 u v text hpair ih =>
    rw [scalars16, if_pos hpair]
    have htwo : ∀ c : Nat, (encode16 (c + 65536)).length = 2 := by
      intro c
      rw [encode16, if_neg (by omega)]
      rfl
    simp only [codes, scalarsIn, map_cons, htwo] at ih ⊢
    rw [ih]
  | case4 u v text hpair ih =>
    rw [scalars16, if_neg hpair]
    simp only [codes, scalarsIn, map_cons, hone] at ih ⊢
    rw [ih]

theorem holds_string (text : Str) : Holds encode16 (codes (scalars16 text)) (.utf16 text) := by
  refine ⟨?_, ?_, encode16_ne_nil⟩
  · rw [codes_scalars16]
    exact decodes16 text
  · simp only [Input.boundary, Int.lt_irrefl, decide_false, Bool.false_and, Bool.not_false,
      Bool.and_true, Bool.and_eq_true, decide_eq_true_eq]
    omega

end Tsuzuri.Regex
