import Mathlib.Logic.Relation

/-!
# Fragments of programs

A program steps from place to place and changes a position, and a run ends in a final place.
-/

namespace Fragments

variable {P α : Type}

def Power (R : α → α → Prop) : Nat → α → α → Prop
  | 0 => Eq
  | n + 1 => Relation.Comp R (Power R n)

theorem power_add {R : α → α → Prop} {m n : Nat} {a c : α} :
    Power R (m + n) a c ↔ ∃ b, Power R m a b ∧ Power R n b c := by
  induction m generalizing a with
  | zero =>
    rw [Nat.zero_add]
    constructor
    · intro h
      exact ⟨a, rfl, h⟩
    · rintro ⟨b, rfl, h⟩
      exact h
  | succ m ih =>
    rw [Nat.succ_add]
    constructor
    · rintro ⟨d, had, hdc⟩
      obtain ⟨b, hdb, hbc⟩ := ih.mp hdc
      exact ⟨b, ⟨d, had, hdb⟩, hbc⟩
    · rintro ⟨b, ⟨d, had, hdb⟩, hbc⟩
      exact ⟨d, had, ih.mpr ⟨b, hdb, hbc⟩⟩

section Runs

variable (step : P → α → P → α → Prop) (final : P → Prop)

/-- A run of `n` steps that ends in a final place. -/
def Runs : Nat → P → α → Prop
  | 0, p, _ => final p
  | n + 1, p, a => ∃ q b, step p a q b ∧ Runs n q b

/-- Runs from the entry are runs from the exit behind the relation. -/
structure Fragment (entry exit : P) (R : α → α → Prop) : Prop where
  sound : ∀ n a, Runs step final n entry a → ∃ b m, m ≤ n ∧ R a b ∧ Runs step final m exit b
  complete : ∀ a b m, R a b → Runs step final m exit b → ∃ n, Runs step final n entry a

/-- A place that goes on to two others and changes nothing. -/
structure Splits (p q r : P) : Prop where
  not_final : ¬final p
  steps : ∀ a x b, step p a x b ↔ (x = q ∨ x = r) ∧ b = a

variable {step final} {entry mid exit p q r : P} {R S : α → α → Prop}

theorem Splits.symm (h : Splits step final p q r) : Splits step final p r q :=
  ⟨h.not_final, fun a x b => by rw [h.steps, or_comm]⟩

theorem Fragment.refl : Fragment step final p p Eq := by
  refine ⟨fun n a h => ⟨a, n, Nat.le_refl _, rfl, h⟩, ?_⟩
  rintro a b m rfl h
  exact ⟨m, h⟩

theorem Fragment.congr (h : Fragment step final entry exit R) (hiff : ∀ a b, R a b ↔ S a b) :
    Fragment step final entry exit S := by
  refine ⟨fun n a hrun => ?_, fun a b m hab hrun => h.complete a b m ((hiff a b).mpr hab) hrun⟩
  obtain ⟨b, m, hm, hab, hrun⟩ := h.sound n a hrun
  exact ⟨b, m, hm, (hiff a b).mp hab, hrun⟩

theorem Fragment.comp (h : Fragment step final entry mid R) (h' : Fragment step final mid exit S) :
    Fragment step final entry exit (Relation.Comp R S) := by
  constructor
  · intro n a hrun
    obtain ⟨b, m, hm, hab, hrun⟩ := h.sound n a hrun
    obtain ⟨c, k, hk, hbc, hrun⟩ := h'.sound m b hrun
    exact ⟨c, k, Nat.le_trans hk hm, ⟨b, hab, hbc⟩, hrun⟩
  · rintro a c m ⟨b, hab, hbc⟩ hrun
    obtain ⟨k, hrun⟩ := h'.complete b c m hbc hrun
    exact h.complete a b k hab hrun

theorem Fragment.single (hfinal : ¬final entry)
    (hstep : ∀ a x b, step entry a x b ↔ x = exit ∧ R a b) : Fragment step final entry exit R := by
  constructor
  · intro n a hrun
    cases n with
    | zero => exact absurd hrun hfinal
    | succ n =>
      obtain ⟨x, b, hgo, hrun⟩ := hrun
      obtain ⟨rfl, hab⟩ := (hstep a x b).mp hgo
      exact ⟨b, n, Nat.le_succ n, hab, hrun⟩
  · intro a b m hab hrun
    exact ⟨m + 1, exit, b, (hstep a exit b).mpr ⟨rfl, hab⟩, hrun⟩

theorem Fragment.choice (hsplit : Splits step final p q r) (h : Fragment step final q exit R)
    (h' : Fragment step final r exit S) : Fragment step final p exit fun a b => R a b ∨ S a b := by
  constructor
  · intro n a hrun
    cases n with
    | zero => exact absurd hrun hsplit.not_final
    | succ n =>
      obtain ⟨x, b, hgo, hrun⟩ := hrun
      obtain ⟨hx, rfl⟩ := (hsplit.steps a x b).mp hgo
      rcases hx with rfl | rfl
      · obtain ⟨c, m, hm, hac, hrun⟩ := h.sound n b hrun
        exact ⟨c, m, by omega, .inl hac, hrun⟩
      · obtain ⟨c, m, hm, hac, hrun⟩ := h'.sound n b hrun
        exact ⟨c, m, by omega, .inr hac, hrun⟩
  · intro a b m hab hrun
    rcases hab with hab | hab
    · obtain ⟨n, hrun⟩ := h.complete a b m hab hrun
      exact ⟨n + 1, q, a, (hsplit.steps a q a).mpr ⟨.inl rfl, rfl⟩, hrun⟩
    · obtain ⟨n, hrun⟩ := h'.complete a b m hab hrun
      exact ⟨n + 1, r, a, (hsplit.steps a r a).mpr ⟨.inr rfl, rfl⟩, hrun⟩

theorem Fragment.star (hsplit : Splits step final p q exit) (h : Fragment step final q p R) :
    Fragment step final p exit fun a b => ∃ n, Power R n a b := by
  constructor
  · -- a turn takes a step, so the rest of the run is shorter
    intro n
    induction n using Nat.strongRecOn with
    | ind n ih =>
      intro a hrun
      cases n with
      | zero => exact absurd hrun hsplit.not_final
      | succ n =>
        obtain ⟨x, b, hgo, hrun⟩ := hrun
        obtain ⟨hx, rfl⟩ := (hsplit.steps a x b).mp hgo
        rcases hx with rfl | rfl
        · obtain ⟨c, m, hm, hac, hrun⟩ := h.sound n b hrun
          obtain ⟨d, k, hk, ⟨count, hcd⟩, hrun⟩ := ih m (by omega) c hrun
          exact ⟨d, k, by omega, ⟨count + 1, c, hac, hcd⟩, hrun⟩
        · exact ⟨b, n, Nat.le_succ n, ⟨0, rfl⟩, hrun⟩
  · rintro a b m ⟨count, hab⟩ hrun
    induction count generalizing a with
    | zero =>
      obtain rfl : a = b := hab
      exact ⟨m + 1, exit, a, (hsplit.steps a exit a).mpr ⟨.inr rfl, rfl⟩, hrun⟩
    | succ count ih =>
      obtain ⟨c, hac, hcb⟩ := hab
      obtain ⟨k, hrun⟩ := ih c hcb
      obtain ⟨n, hrun⟩ := h.complete a c k hac hrun
      exact ⟨n + 1, q, a, (hsplit.steps a q a).mpr ⟨.inl rfl, rfl⟩, hrun⟩

theorem Fragment.plus (h : Fragment step final entry p R) (hsplit : Splits step final p entry exit) :
    Fragment step final entry exit fun a b => ∃ n, Power R (n + 1) a b := by
  refine (h.comp (Fragment.star hsplit h)).congr fun a b => ?_
  constructor
  · rintro ⟨c, hac, n, hcb⟩
    exact ⟨n, c, hac, hcb⟩
  · rintro ⟨n, c, hac, hcb⟩
    exact ⟨c, hac, n, hcb⟩

end Runs

end Fragments
