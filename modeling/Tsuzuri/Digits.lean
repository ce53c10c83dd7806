import Mathlib.Data.List.Basic

/-!
# Numerals as text

Texts of numbers in the bases that the compiler prints: their characters, and that they determine the number.
-/

namespace Digits

variable {m n b : Nat} {c : Char} {s : String}

theorem digitChar_inj (hm : m < 16) (hn : n < 16) (h : Nat.digitChar m = Nat.digitChar n) : m = n := by
  have hall : ∀ m < 16, ∀ n < 16, Nat.digitChar m = Nat.digitChar n → m = n := by decide
  exact hall m hm n hn h

theorem toDigits_inj (hb : 1 < b) (hb16 : b ≤ 16) : ∀ {m n : Nat}, Nat.toDigits b m = Nat.toDigits b n → m = n := by
  intro m
  induction m using Nat.strongRecOn with
  | _ m ih =>
    intro n h
    rw [Nat.toDigits_eq_if hb, Nat.toDigits_eq_if hb (n := n)] at h
    have hmod (k : Nat) : k % b < b := Nat.mod_lt k (by omega)
    have hdiv (k : Nat) : Nat.toDigits b (k / b) ≠ [] := Nat.toDigits_ne_nil
    split at h <;> split at h
    · exact digitChar_inj (by omega) (by omega) (by simpa using h)
    · have hlen := congrArg List.length h
      have hpos := List.length_pos_iff.mpr (hdiv n)
      simp only [List.length_append, List.length_singleton] at hlen
      omega
    · have hlen := congrArg List.length h
      have hpos := List.length_pos_iff.mpr (hdiv m)
      simp only [List.length_append, List.length_singleton] at hlen
      omega
    · rename_i hm hn
      obtain ⟨hq, hr⟩ := List.append_inj' h rfl
      have hq' := ih (m / b) (Nat.div_lt_self (by omega) hb) hq
      have hr' := digitChar_inj (Nat.lt_of_lt_of_le (hmod m) hb16)
        (Nat.lt_of_lt_of_le (hmod n) hb16) (by simpa using hr)
      rw [← Nat.div_add_mod m b, hq', hr', Nat.div_add_mod]

theorem notMem_toDigits (hb : 1 < b) (hc : ∀ n < b, Nat.digitChar n ≠ c) : ∀ (n : Nat), c ∉ Nat.toDigits b n := by
  intro n
  induction n using Nat.strongRecOn with
  | _ n ih =>
    rw [Nat.toDigits_eq_if hb]
    split
    · rename_i hlt
      simpa using (hc n hlt).symm
    · have hq := ih (n / b) (Nat.div_lt_self (by omega) hb)
      simpa [hq] using (hc _ (Nat.mod_lt n (by omega))).symm

theorem notMem_toString (hc : ∀ n < 10, Nat.digitChar n ≠ c) (n : Nat) : c ∉ (toString n).toList := by
  show c ∉ n.repr.toList
  rw [Nat.toList_repr]
  exact notMem_toDigits (by decide) hc n

theorem toString_ne_nil (n : Nat) : (toString n).toList ≠ [] := by
  show n.repr.toList ≠ []
  rw [Nat.toList_repr]
  exact Nat.toDigits_ne_nil

def Unsigned (s : String) : Prop := s.toList.head? ≠ some '-'

theorem unsigned_of_notMem (h : '-' ∉ s.toList) : Unsigned s :=
  fun hhead => h (List.mem_of_head? hhead)

theorem minus_append_inj {p q : Prop} [Decidable p] [Decidable q] {t : String} (hs : Unsigned s)
    (ht : Unsigned t) (h : (if p then "-" else "") ++ s = (if q then "-" else "") ++ t) : (p ↔ q) ∧ s = t := by
  have h' := congrArg String.toList h
  simp only [String.toList_append] at h'
  by_cases hp : p <;> by_cases hq : q <;> simp only [hp, hq, if_true, if_false] at h'
  · exact ⟨by simp [hp, hq], String.toList_inj.mp (by simpa using h')⟩
  · exact absurd (show t.toList.head? = some '-' by simpa using congrArg List.head? h'.symm) ht
  · exact absurd (show s.toList.head? = some '-' by simpa using congrArg List.head? h') hs
  · exact ⟨by simp [hp, hq], String.toList_inj.mp (by simpa using h')⟩

theorem notMem_toString_int (hc : ∀ n < 10, Nat.digitChar n ≠ c) (hminus : c ≠ '-') : ∀ a : Int, c ∉ (toString a).toList
  | .ofNat n => notMem_toString hc n
  | .negSucc n => by
    show c ∉ ("-" ++ toString (n + 1)).toList
    rw [String.toList_append, List.mem_append, not_or]
    exact ⟨by simpa using hminus, notMem_toString hc _⟩

end Digits
