import Mathlib.Data.Int.Bitwise
import Mathlib.Data.Finset.Card
import Mathlib.Data.Int.ModEq
import Mathlib.Tactic.Ring
import Tsuzuri.FaultVec

/-!
# Tables with linear probing

A table is a list of cells; a cell holds the number of an entry, or a negative number when it is
empty.
-/

namespace LinearProbing

open FaultVec

theorem land_two_pow_sub_one (x : Int) (k : Nat) : Int.land x ((2 ^ k : Nat) - 1) = x % (2 ^ k : Nat) := by
  have hpos : 0 < 2 ^ k := Nat.two_pow_pos k
  have hmask : ((2 ^ k : Nat) : Int) - 1 = ((2 ^ k - 1 : Nat) : Int) := by omega
  rw [hmask]
  cases x with
  | ofNat m =>
    change ((m &&& (2 ^ k - 1) : Nat) : Int) = _
    rw [Nat.and_two_pow_sub_one_eq_mod]
    rfl
  | negSucc m =>
    change ((Nat.ldiff (2 ^ k - 1) m : Nat) : Int) = _
    have hdiff : Nat.ldiff (2 ^ k - 1) m = 2 ^ k - (m % 2 ^ k + 1) := by
      apply Nat.eq_of_testBit_eq
      intro i
      rw [Nat.testBit_ldiff, Nat.testBit_two_pow_sub_one,
        Nat.testBit_two_pow_sub_succ (Nat.mod_lt _ hpos), Nat.testBit_mod_two_pow]
      by_cases hi : i < k <;> simp [hi]
    have hlt : m % 2 ^ k < 2 ^ k := Nat.mod_lt _ hpos
    have hdm := Nat.div_add_mod m (2 ^ k)
    have hneg : Int.negSucc m = ((2 ^ k - (m % 2 ^ k + 1) : Nat) : Int)
        + ((2 ^ k : Nat) : Int) * (-(m / 2 ^ k : Nat) - 1) := by
      have : ((2 ^ k : Nat) : Int) * ((m / 2 ^ k : Nat) : Int) = ((2 ^ k * (m / 2 ^ k) : Nat) : Int) := by
        push_cast
        rfl
      rw [Int.negSucc_eq, mul_sub, mul_neg, this]
      omega
    rw [hdiff, hneg, Int.add_mul_emod_self_left, Int.emod_eq_of_lt] <;> omega

variable {x y n e : Int} {slots : List Int} {k d : Nat} {stop : Int → Exec Bool}

theorem emod_eq_iff : x % n = y % n ↔ ∃ k, x = y + n * k := by
  constructor
  · intro h
    obtain ⟨k, hk⟩ := Int.ModEq.dvd (show y ≡ x [ZMOD n] from h.symm)
    exact ⟨k, by omega⟩
  · rintro ⟨k, rfl⟩
    exact Int.add_mul_emod_self_left y n k

theorem emod_ne (hlt : x < y) (hwin : y < x + n) : x % n ≠ y % n := by
  intro h
  obtain ⟨k, hk⟩ := emod_eq_iff.mp h
  rcases lt_trichotomy k 0 with hk0 | rfl | hk0
  · have : n * k ≤ n * (-1) := Int.mul_le_mul_of_nonneg_left (by omega) (by omega)
    omega
  · omega
  · have : n * 1 ≤ n * k := Int.mul_le_mul_of_nonneg_left (by omega) (by omega)
    omega

def cell (slots : List Int) (x : Int) : Int :=
  slots.getD (x % slots.length).toNat (-1)

theorem cell_congr (h : x % slots.length = y % slots.length) : cell slots x = cell slots y := by
  rw [cell, cell, h]

@[simp] theorem cell_add (slots : List Int) (x k : Int) : cell slots (x + slots.length * k) = cell slots x :=
  cell_congr (Int.add_mul_emod_self_left x _ k)

theorem emod_toNat_lt (hn : 0 < slots.length) (x : Int) : (x % slots.length).toNat < slots.length := by
  have h1 := Int.emod_nonneg x (b := slots.length) (by omega)
  have h2 := Int.emod_lt_of_pos x (b := slots.length) (by omega)
  omega

theorem index_cell (hn : 0 < slots.length) (x : Int) : index slots (x % slots.length) = .ok (cell slots x) := by
  have hlt := emod_toNat_lt hn x
  have h1 := Int.emod_nonneg x (b := slots.length) (by omega)
  apply index_ok
  rw [FaultVec.get, if_pos h1, cell, List.getD_eq_getElem?_getD, List.getElem?_eq_getElem hlt]
  rfl

def write (slots : List Int) (x v : Int) : List Int :=
  slots.set (x % slots.length).toNat v

@[simp] theorem length_write (slots : List Int) (x v : Int) : (write slots x v).length = slots.length := by
  simp [write]

theorem set_write (hn : 0 < slots.length) (x v : Int) :
    FaultVec.set (x % slots.length) v slots = .ok (write slots x v) := by
  have h1 := Int.emod_nonneg x (b := slots.length) (by omega)
  have h2 := Int.emod_lt_of_pos x (b := slots.length) (by omega)
  rw [FaultVec.set, if_pos ⟨h1, h2⟩]
  rfl

theorem cell_write (hn : 0 < slots.length) (x v y : Int) :
    cell (write slots x v) y = if y % slots.length = x % slots.length then v else cell slots y := by
  have hx := emod_toNat_lt hn x
  have hy := emod_toNat_lt hn y
  have h1 := Int.emod_nonneg x (b := slots.length) (by omega)
  have h2 := Int.emod_nonneg y (b := slots.length) (by omega)
  unfold cell
  rw [length_write, write, List.getD_eq_getElem?_getD, List.getElem?_set]
  by_cases h : y % slots.length = x % slots.length
  · rw [if_pos h, h, if_pos rfl, if_pos hx]
    rfl
  · rw [if_neg h, if_neg (by omega), List.getD_eq_getElem?_getD]

def scanStep (slots : List Int) (stop : Int → Exec Bool) (position : Int) : Exec (Turn Int Int) := do
  let value ← index slots position
  match ← stop value with
  | true => .ok (.leave position)
  | false => .ok (.go (Int.land (position + 1) (slots.length - 1)))

/-- A loop that goes through the positions from `start` on until the number in a cell stops it. -/
def scan (slots : List Int) (stop : Int → Exec Bool) (start : Int) : Exec Int :=
  loop (slots.length + 1) (scanStep slots stop) start

section

variable (hk : slots.length = 2 ^ k)

include hk

theorem land_mask (x : Int) : Int.land x (slots.length - 1) = x % slots.length := by
  rw [hk, land_two_pow_sub_one]

theorem length_pos : 0 < slots.length := by
  rw [hk]
  exact Nat.two_pow_pos k

theorem loop_scan_ok : ∀ (fuel d : Nat) (x : Int), d < fuel →
      (∀ j : Nat, j < d → stop (cell slots (x + j)) = .ok false) → stop (cell slots (x + d)) = .ok true →
      loop fuel (scanStep slots stop) (x % slots.length) = .ok ((x + d) % slots.length) := by
  intro fuel
  induction fuel with
  | zero => intro d x h; omega
  | succ fuel ih =>
    intro d x hlt hgo hstop
    rw [loop, scanStep, index_cell (length_pos hk), ok_bind]
    cases d with
    | zero =>
      simp only [Nat.cast_zero, add_zero] at hstop ⊢
      rw [hstop]
      rfl
    | succ d =>
      have h0 := hgo 0 (by omega)
      simp only [Nat.cast_zero, add_zero] at h0
      have hnext := ih d (x + 1) (by omega) (fun j hj => by
        have := hgo (j + 1) (by omega)
        rwa [Nat.cast_add, Nat.cast_one, add_comm (j : Int) 1, ← add_assoc] at this) (by
        rwa [Nat.cast_add, Nat.cast_one, add_comm (d : Int) 1, ← add_assoc] at hstop)
      rw [h0, ok_bind]
      simp only [ok_bind]
      rw [land_mask hk, Int.emod_add_emod, hnext]
      congr 2
      push_cast
      ring

theorem scan_ok (hd : d ≤ slots.length) (hgo : ∀ j : Nat, j < d → stop (cell slots (x + j)) = .ok false)
    (hstop : stop (cell slots (x + d)) = .ok true) :
    scan slots stop (x % slots.length) = .ok ((x + d) % slots.length) :=
  loop_scan_ok hk _ d x (by omega) hgo hstop

/-! ## The invariant -/

end

variable {slots : List Int} {home : Int → Int} {live : Int → Prop}

/-- The position at or before `x` where the probe of the entry `e` that reaches `x` starts. -/
def origin (n : Int) (home : Int → Int) (e x : Int) : Int :=
  x - (x - home e) % n

theorem origin_le (hn : 0 < n) (home : Int → Int) (e x : Int) : origin n home e x ≤ x := by
  have := Int.emod_nonneg (x - home e) (b := n) (by omega)
  unfold origin
  omega

theorem lt_origin_add (hn : 0 < n) (home : Int → Int) (e x : Int) : x < origin n home e x + n := by
  have := Int.emod_lt_of_pos (x - home e) (b := n) hn
  unfold origin
  omega

theorem origin_emod (n : Int) (home : Int → Int) (e x : Int) : origin n home e x % n = home e % n := by
  unfold origin
  rw [Int.sub_emod, Int.emod_emod, ← Int.sub_emod]
  congr 1
  omega

theorem origin_add (n : Int) (home : Int → Int) (e x k : Int) :
    origin n home e (x + n * k) = origin n home e x + n * k := by
  unfold origin
  rw [show x + n * k - home e = x - home e + n * k by ring, Int.add_mul_emod_self_left]
  ring

theorem origin_eq {home : Int → Int} (hy : y % n = home e % n) (hle : y ≤ x) (hlt : x < y + n) :
    origin n home e x = y := by
  have h : (x - home e) % n = x - y := by
    rw [Int.sub_emod, ← hy, ← Int.sub_emod, Int.emod_eq_of_lt] <;> omega
  unfold origin
  omega

/-- The cells hold the live entries, each once, and no probe meets an empty cell. -/
structure Probed (slots : List Int) (home : Int → Int) (live : Int → Prop) : Prop where
  blank : ∀ x, -1 ≤ cell slots x
  sound : ∀ x, 0 ≤ cell slots x → live (cell slots x)
  complete : ∀ e, live e → 0 ≤ e ∧ ∃ x, cell slots x = e
  unique : ∀ x y, 0 ≤ cell slots x → cell slots x = cell slots y → x % slots.length = y % slots.length
  reached : ∀ x y, 0 ≤ cell slots x → origin slots.length home (cell slots x) x ≤ y → y < x → 0 ≤ cell slots y

theorem cell_replicate (n : Nat) (x : Int) : cell (List.replicate n (-1)) x = -1 := by
  unfold cell
  rw [List.getD_eq_getElem?_getD, List.getElem?_replicate]
  split <;> rfl

theorem Probed.replicate (n : Nat) (home : Int → Int) : Probed (List.replicate n (-1)) home (fun _ => False) where
  blank x := by rw [cell_replicate]
  sound x h := by
    rw [cell_replicate] at h
    omega
  complete _ h := h.elim
  unique x y h := by
    rw [cell_replicate] at h
    omega
  reached x y h := by
    rw [cell_replicate] at h
    omega

theorem Probed.exists_empty (h : Probed slots home live) {count : Nat}
    (hlive : ∀ e, live e → e < count) (hlt : count < slots.length) (x : Int) :
    ∃ d : Nat, d < slots.length ∧ cell slots (x + d) < 0 := by
  by_contra hno
  have hocc : ∀ d : Nat, d < slots.length → 0 ≤ cell slots (x + d) := by
    intro d hd
    by_contra hneg
    exact hno ⟨d, hd, by omega⟩
  -- otherwise the cells are an injection of the positions into the entries
  have hmaps : ∀ d ∈ Finset.range slots.length, (cell slots (x + d)).toNat ∈ Finset.range count := by
    intro d hd
    have h0 := hocc d (Finset.mem_range.mp hd)
    have := hlive _ (h.sound _ h0)
    exact Finset.mem_range.mpr (by omega)
  have hinj : ∀ d ∈ Finset.range slots.length, ∀ d' ∈ Finset.range slots.length,
      (cell slots (x + d)).toNat = (cell slots (x + d')).toNat → d = d' := by
    intro d hd d' hd' heq
    rw [Finset.mem_range] at hd hd'
    have h0 := hocc d hd
    have h0' := hocc d' hd'
    have hmod := h.unique (x + d) (x + d') h0 (by omega)
    rcases Nat.lt_trichotomy d d' with hlt | heq | hlt
    · exact absurd hmod (emod_ne (by omega) (by omega))
    · exact heq
    · exact absurd hmod.symm (emod_ne (by omega) (by omega))
  have := Finset.card_le_card_of_injOn _ hmaps hinj
  rw [Finset.card_range, Finset.card_range] at this
  omega

theorem exists_first_empty (x : Int) (hd : cell slots (x + d) < 0) : ∃ d' : Nat, d' ≤ d ∧ cell slots (x + d') < 0 ∧
      ∀ j : Nat, j < d' → 0 ≤ cell slots (x + j) := by
  classical
  have hex : ∃ d : Nat, cell slots (x + d) < 0 := ⟨d, hd⟩
  refine ⟨Nat.find hex, Nat.find_min' hex hd, Nat.find_spec hex, fun j hj => ?_⟩
  have := Nat.find_min hex hj
  omega

/-! ## Filling and renaming -/

theorem Probed.fill (h : Probed slots home live) (hn : 0 < slots.length) (he : 0 ≤ e) (hnew : ¬ live e)
    (hd : d < slots.length) (hempty : cell slots (home e + d) < 0)
    (hocc : ∀ j : Nat, j < d → 0 ≤ cell slots (home e + j)) :
    Probed (write slots (home e + d) e) home (fun e' => live e' ∨ e' = e) := by
  have hcell := cell_write hn (home e + d) e
  -- an occupied cell other than the new one is as before
  have hold : ∀ x, x % slots.length ≠ (home e + d) % slots.length →
      cell (write slots (home e + d) e) x = cell slots x := fun x hx => by rw [hcell, if_neg hx]
  have hkeep : ∀ x, 0 ≤ cell slots x → x % slots.length ≠ (home e + d) % slots.length := by
    intro x hx heq
    rw [cell_congr heq] at hx
    omega
  refine ⟨fun x => ?_, fun x hx => ?_, fun e' he' => ?_, fun x y hx hxy => ?_, fun x y hx hy hyx => ?_⟩
  · rw [hcell]
    have := h.blank x
    split <;> omega
  · rw [hcell] at hx ⊢
    split
    · exact .inr rfl
    · rename_i hne
      rw [if_neg hne] at hx
      exact .inl (h.sound x hx)
  · rcases he' with he' | rfl
    · obtain ⟨h0, x, hx⟩ := h.complete e' he'
      exact ⟨h0, x, by rw [hold x (hkeep x (by omega)), hx]⟩
    · exact ⟨he, home e' + d, by rw [hcell, if_pos rfl]⟩
  · rw [hcell, hcell] at hxy
    rw [hcell] at hx
    rw [length_write]
    split at hx
    · rename_i hxe
      rw [if_pos hxe] at hxy
      split at hxy
      · rename_i hye
        rw [hxe, hye]
      · exact absurd (hxy ▸ h.sound y (by omega)) hnew
    · rename_i hxe
      rw [if_neg hxe] at hxy
      split at hxy
      · exact absurd (hxy ▸ h.sound x hx) hnew
      · exact h.unique x y hx hxy
  · -- no cell became empty, so the probes of the old entries are as good as before
    have hmore : ∀ y, 0 ≤ cell slots y → 0 ≤ cell (write slots (home e + d) e) y := by
      intro y hy
      rw [hold y (hkeep y hy)]
      exact hy
    rw [length_write] at hy
    by_cases hxe : x % slots.length = (home e + d) % slots.length
    · obtain ⟨k, rfl⟩ := emod_eq_iff.mp hxe
      have hor : origin slots.length home e (home e + d + slots.length * k) = home e + slots.length * k := by
        rw [origin_add, origin_eq (y := home e) rfl (by omega) (by omega)]
      rw [hcell, if_pos hxe, hor] at hy
      obtain ⟨j, hj⟩ : ∃ j : Nat, y = home e + j + slots.length * k :=
        ⟨(y - home e - slots.length * k).toNat, by omega⟩
      apply hmore
      rw [hj, cell_add]
      exact hocc j (by omega)
    · rw [hold x hxe] at hx hy
      exact hmore y (h.reached x y hx hy hyx)

theorem Probed.rename (h : Probed slots home live) (hn : 0 < slots.length) {a b : Int}
    (hx : cell slots x = a) (ha : 0 ≤ a) (hb : 0 ≤ b) (hnew : ¬ live b) {home' : Int → Int}
    (hhome : home' b = home a) (hsame : ∀ e, live e → e ≠ a → home' e = home e) :
    Probed (write slots x b) home' (fun e => (live e ∧ e ≠ a) ∨ e = b) := by
  have hcell := cell_write hn x b
  have hx0 : 0 ≤ cell slots x := by omega
  have hother : ∀ y, 0 ≤ cell slots y → y % slots.length ≠ x % slots.length → cell slots y ≠ a := by
    intro y hy hne heq
    exact hne (h.unique y x hy (by omega))
  have hocc : ∀ y, 0 ≤ cell (write slots x b) y ↔ 0 ≤ cell slots y := by
    intro y
    rw [hcell]
    split
    · rename_i heq
      rw [cell_congr heq]
      omega
    · rfl
  refine ⟨fun y => ?_, fun y hy => ?_, fun e he => ?_, fun y z hy hyz => ?_, fun y z hy hz hzy => ?_⟩
  · rw [hcell]
    have := h.blank y
    split <;> omega
  · have hy' := (hocc y).mp hy
    rw [hcell]
    split
    · exact .inr rfl
    · rename_i hne
      exact .inl ⟨h.sound y hy', hother y hy' hne⟩
  · rcases he with ⟨he, hne⟩ | rfl
    · obtain ⟨h0, y, hy⟩ := h.complete e he
      refine ⟨h0, y, ?_⟩
      rw [hcell, if_neg, hy]
      intro heq
      rw [cell_congr heq] at hy
      omega
    · exact ⟨hb, x, by rw [hcell, if_pos rfl]⟩
  · have hy' := (hocc y).mp hy
    have hz' := (hocc z).mp (by omega)
    rw [hcell, hcell] at hyz
    rw [length_write]
    split at hyz
    · rename_i h1
      split at hyz
      · rename_i h2
        rw [h1, h2]
      · exact absurd (hyz ▸ h.sound z hz') hnew
    · split at hyz
      · exact absurd (hyz ▸ h.sound y hy') hnew
      · exact h.unique y z hy' hyz
  · rw [hocc] at hy ⊢
    rw [length_write] at hz
    refine h.reached y z hy ?_ hzy
    rw [hcell] at hz
    split at hz
    · rename_i heq
      rw [cell_congr heq, hx]
      unfold origin at hz ⊢
      rwa [hhome] at hz
    · rename_i hne
      unfold origin at hz ⊢
      rwa [hsame _ (h.sound y hy) (hother y hy hne)] at hz

/-! ## Emptying a cell with backward shifting

While the shifting goes on, the number in the cell at the hole `hole` is a stale
copy. `Holed` is the invariant without that cell: it holds the live entries but
`gone`, and their probes, which may pass the hole, meet no empty cell. The
positions between the hole and `position` are the ones already looked at, and
their probes do not pass the hole. -/

structure Holed (slots : List Int) (home : Int → Int) (live : Int → Prop) (gone hole position : Int) :
    Prop where
  blank : ∀ x, -1 ≤ cell slots x
  hole_occupied : 0 ≤ cell slots hole
  hole_lt : hole < position
  sound : ∀ x, x % slots.length ≠ hole % slots.length → 0 ≤ cell slots x → live (cell slots x) ∧ cell slots x ≠ gone
  complete : ∀ e, live e → e ≠ gone → 0 ≤ e ∧ ∃ x, x % slots.length ≠ hole % slots.length ∧ cell slots x = e
  unique : ∀ x y, x % slots.length ≠ hole % slots.length → y % slots.length ≠ hole % slots.length →
    0 ≤ cell slots x → cell slots x = cell slots y → x % slots.length = y % slots.length
  reached : ∀ x y, x % slots.length ≠ hole % slots.length → 0 ≤ cell slots x →
    origin slots.length home (cell slots x) x ≤ y → y < x → 0 ≤ cell slots y
  passed : ∀ x, hole < x → x < position → hole < origin slots.length home (cell slots x) x

variable {gone hole position : Int}

theorem Probed.holed (h : Probed slots home live) (hhole : cell slots hole = gone) (hgone : 0 ≤ gone) :
    Holed slots home live gone hole (hole + 1) where
  blank := h.blank
  hole_occupied := by omega
  hole_lt := by omega
  sound x hx h0 := by
    refine ⟨h.sound x h0, fun heq => hx (h.unique x hole h0 ?_)⟩
    rw [heq, hhole]
  complete e he hne := by
    obtain ⟨h0, x, hx⟩ := h.complete e he
    refine ⟨h0, x, fun heq => hne ?_, hx⟩
    rw [← hx, cell_congr heq, hhole]
  unique x y _ _ h0 heq := h.unique x y h0 heq
  reached x y _ h0 hy hyx := h.reached x y h0 hy hyx
  passed x h1 h2 := by omega

theorem Holed.skip (h : Holed slots home live gone hole position)
    (hstay : hole < origin slots.length home (cell slots position) position) :
    Holed slots home live gone hole (position + 1) where
  blank := h.blank
  hole_occupied := h.hole_occupied
  hole_lt := by
    have := h.hole_lt
    omega
  sound := h.sound
  complete := h.complete
  unique := h.unique
  reached := h.reached
  passed x h1 h2 := by
    by_cases hx : x = position
    · rw [hx]
      exact hstay
    · exact h.passed x h1 (by omega)

theorem Holed.shift (h : Holed slots home live gone hole position) (hn : 0 < slots.length)
    (hwin : position < hole + slots.length) (hocc : 0 ≤ cell slots position)
    (hon : origin slots.length home (cell slots position) position ≤ hole) :
    Holed (write slots hole (cell slots position)) home live gone position (position + 1) := by
  have hlt := h.hole_lt
  have hpos : position % slots.length ≠ hole % slots.length := Ne.symm (emod_ne hlt hwin)
  have hcell := cell_write hn hole (cell slots position)
  have hhole0 := h.hole_occupied
  have hsame : ∀ y, 0 ≤ cell (write slots hole (cell slots position)) y ↔ 0 ≤ cell slots y := by
    intro y
    rw [hcell]
    split
    · rename_i heq
      rw [cell_congr heq]
      omega
    · rfl
  refine ⟨fun x => ?_, ?_, by omega, fun x hx h0 => ?_, fun e he hne => ?_,
    fun x y hx hy h0 heq => ?_, fun x y hx h0 hy hyx => ?_, fun x h1 h2 => by omega⟩
  · rw [hcell]
    have := h.blank x
    split <;> omega
  · rw [hsame]
    exact hocc
  · rw [hsame] at h0
    rw [length_write] at hx
    rw [hcell]
    split
    · exact h.sound position hpos hocc
    · rename_i hne
      exact h.sound x hne h0
  · obtain ⟨h0, x, hx, hxe⟩ := h.complete e he hne
    rw [length_write]
    by_cases hxp : x % slots.length = position % slots.length
    · exact ⟨h0, hole, Ne.symm hpos, by rw [hcell, if_pos rfl, ← cell_congr hxp, hxe]⟩
    · exact ⟨h0, x, hxp, by rw [hcell, if_neg hx, hxe]⟩
  · rw [hsame] at h0
    rw [length_write] at hx hy ⊢
    rw [hcell, hcell] at heq
    split at heq
    · rename_i h1
      split at heq
      · rename_i h2
        rw [h1, h2]
      · rename_i h2
        exact absurd (h.unique position y hpos h2 hocc heq).symm hy
    · rename_i h1
      split at heq
      · exact absurd (h.unique x position h1 hpos h0 heq) hx
      · rename_i h2
        exact h.unique x y h1 h2 h0 heq
  · rw [hsame] at h0 ⊢
    rw [length_write] at hx hy
    by_cases hxh : x % slots.length = hole % slots.length
    · -- the moved entry: the probe to the hole is a beginning of the probe to its old position
      rw [hcell, if_pos hxh] at hy
      obtain ⟨k, rfl⟩ := emod_eq_iff.mp hxh
      have hor : origin slots.length home (cell slots position) hole
          = origin slots.length home (cell slots position) position := by
        refine origin_eq (origin_emod _ _ _ _) hon ?_
        have := lt_origin_add (n := slots.length) (by omega) home (cell slots position) position
        omega
      rw [origin_add, hor] at hy
      have := h.reached position (y - slots.length * k) hpos hocc (by omega) (by omega)
      rwa [show y = y - slots.length * k + slots.length * k by ring, cell_add]
    · rw [hcell, if_neg hxh] at hy
      exact h.reached x y hxh h0 hy hyx

theorem Holed.close (h : Holed slots home live gone hole position) (hn : 0 < slots.length)
    (hwin : position < hole + slots.length) (hempty : cell slots position < 0) :
    Probed (write slots hole (-1)) home (fun e => live e ∧ e ≠ gone) := by
  have hlt := h.hole_lt
  have hcell := cell_write hn hole (-1)
  -- an occupied cell is not the hole, and is as before
  have hocc : ∀ x, 0 ≤ cell (write slots hole (-1)) x → x % slots.length ≠ hole % slots.length ∧ 0 ≤ cell slots x ∧
      cell (write slots hole (-1)) x = cell slots x := by
    intro x hx
    rw [hcell] at hx ⊢
    split at hx
    · omega
    · rename_i hne
      exact ⟨hne, hx, by rw [if_neg hne]⟩
  refine ⟨fun x => ?_, fun x hx => ?_, fun e he => ?_, fun x y hx hxy => ?_, fun x y hx hy hyx => ?_⟩
  · rw [hcell]
    have := h.blank x
    split <;> omega
  · obtain ⟨hne, h0, heq⟩ := hocc x hx
    rw [heq]
    exact h.sound x hne h0
  · obtain ⟨h0, x, hx, hxe⟩ := h.complete e he.1 he.2
    exact ⟨h0, x, by rw [hcell, if_neg hx, hxe]⟩
  · obtain ⟨hne, h0, heq⟩ := hocc x hx
    obtain ⟨hne', h0', heq'⟩ := hocc y (by omega)
    rw [length_write]
    exact h.unique x y hne hne' h0 (by omega)
  · obtain ⟨hne, h0, heq⟩ := hocc x hx
    rw [length_write, heq] at hy
    have hy0 := h.reached x y hne h0 hy hyx
    rw [hcell, if_neg]
    · exact hy0
    · -- the probe passes the hole: the entry is behind `position`, so it passes that too
      intro hyh
      obtain ⟨k, rfl⟩ := emod_eq_iff.mp hyh
      obtain ⟨x, rfl⟩ : ∃ x', x = x' + slots.length * k := ⟨x - slots.length * k, by ring⟩
      rw [cell_add] at h0 hy
      rw [origin_add] at hy
      have hback := lt_origin_add (n := slots.length) (by omega) home (cell slots x) x
      rw [Int.add_mul_emod_self_left] at hne
      rcases lt_trichotomy x position with hxp | rfl | hxp
      · have := h.passed x (by omega) hxp
        omega
      · omega
      · have := h.reached x position hne h0 (by omega) hxp
        omega

end LinearProbing
