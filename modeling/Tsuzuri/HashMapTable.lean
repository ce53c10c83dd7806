import Tsuzuri.HashMap

/-!
# The slot table of a hash map

The home of an entry is the hash that it keeps. None of them can fault on such a table; in
particular no loop diverges.
-/

namespace Tsuzuri.HashMap

open FaultVec LinearProbing

variable {κ ν : Type}

/-- The hash of the entry with the number `e`. -/
def homeOf (entries : List (Entry κ ν)) (e : Int) : Int :=
  ((FaultVec.get e entries).map Entry.hash).getD 0

def Live (count : Nat) (e : Int) : Prop :=
  0 ≤ e ∧ e < count

structure Table (entries : List (Entry κ ν)) (slots : List Int) : Prop where
  size : ∃ k, slots.length = 2 ^ k
  eight : 8 ≤ slots.length
  room : 2 * entries.length ≤ slots.length
  probed : Probed slots (homeOf entries) (Live entries.length)

variable {entries : List (Entry κ ν)} {slots : List Int}

theorem homeOf_get {i : Nat} {entry : Entry κ ν} (h : entries[i]? = some entry) : homeOf entries i = entry.hash := by
  simp [homeOf, h]

theorem Table.pos (h : Table entries slots) : 0 < slots.length := by
  have := h.eight
  omega

theorem Table.exists_empty (h : Table entries slots) (x : Int) :
    ∃ d : Nat, d < slots.length ∧ cell slots (x + d) < 0 := by
  have hroom := h.room
  have hpos := h.pos
  exact h.probed.exists_empty (fun e he => he.2) (by omega) x

variable {k : Nat} {home : Int → Int} {gone : Int}

theorem locate_empty (hk : slots.length = 2 ^ k) (hblank : ∀ x, -1 ≤ cell slots x) (hash : Int) {d : Nat}
    (hd : d < slots.length) (hempty : cell slots (hash + d) < 0) (hocc : ∀ j : Nat, j < d → 0 ≤ cell slots (hash + j)) :
    locate slots hash (-1) = .ok ((hash + d) % slots.length) := by
  unfold locate
  rw [land_mask hk]
  refine scan_ok hk (by omega) (fun j hj => ?_) ?_
  · have := hocc j hj
    simp only [Except.ok.injEq, beq_eq_false_iff_ne]
    omega
  · have := hblank (hash + d)
    simp only [Except.ok.injEq, beq_iff_eq]
    omega

theorem locate_number (hk : slots.length = 2 ^ k) {x e : Int} (hx : cell slots x = e)
    (hunique : ∀ y, cell slots y = e → y % slots.length = x % slots.length) (hash : Int) :
    locate slots hash e = .ok (x % slots.length) := by
  have hn := length_pos hk
  -- the position of the number, as seen from the hash
  obtain ⟨d, hd, hdx⟩ : ∃ d : Nat, d < slots.length ∧ (hash + d) % slots.length = x % slots.length := by
    have h1 := Int.emod_nonneg (x - hash) (b := slots.length) (by omega)
    have h2 := Int.emod_lt_of_pos (x - hash) (b := slots.length) (by omega)
    refine ⟨((x - hash) % slots.length).toNat, by omega, ?_⟩
    rw [Int.toNat_of_nonneg h1, Int.add_emod_emod]
    congr 1
    omega
  unfold locate
  rw [land_mask hk, ← hdx]
  refine scan_ok hk (by omega) (fun j hj => ?_) ?_
  · simp only [Except.ok.injEq, beq_eq_false_iff_ne]
    intro heq
    exact emod_ne (x := hash + j) (y := hash + d) (by omega) (by omega) ((hunique _ heq).trans hdx.symm)
  · simp only [Except.ok.injEq, beq_iff_eq]
    rw [cell_congr hdx, hx]

/-! ## Rebuilding -/

theorem locate_fill (hk : slots.length = 2 ^ k) {count : Nat} (h : Probed slots home (Live count))
    (hlt : count < slots.length) : ∃ slots' : List Int, (locate slots (home count) (-1) >>= fun position =>
        FaultVec.set position (count : Int) slots) = .ok slots' ∧
      slots'.length = slots.length ∧ Probed slots' home (Live (count + 1)) := by
  have hn := length_pos hk
  obtain ⟨d0, hd0, hempty0⟩ := h.exists_empty (fun e he => he.2) hlt (home count)
  obtain ⟨d, hd, hempty, hocc⟩ := exists_first_empty (home count) hempty0
  have hfill := h.fill hn (e := count) (by omega) (fun hl => by have := hl.2; omega) (d := d) (by omega) hempty hocc
  refine ⟨write slots (home count + d) count, ?_, length_write _ _ _, ?_⟩
  · rw [locate_empty hk h.blank (home count) (by omega) hempty hocc, ok_bind, set_write hn]
  · have hlive : (fun e' => Live count e' ∨ e' = (count : Int)) = Live (count + 1) := by
      funext e'
      unfold Live
      push_cast
      apply propext
      omega
    rwa [hlive] at hfill

theorem probed_congr_home {home' : Int → Int} {live : Int → Prop} (h : Probed slots home live)
    (hsame : ∀ e, live e → home' e = home e) : Probed slots home' live where
  blank := h.blank
  sound := h.sound
  complete := h.complete
  unique := h.unique
  reached x y hx hy hyx := by
    refine h.reached x y hx ?_ hyx
    unfold origin at hy ⊢
    rwa [hsame _ (h.sound x hx)] at hy

theorem rebuildFrom_ok : ∀ (rest : List (Entry κ ν)) (i : Nat) (slots : List Int),
    slots.length = 2 ^ k → entries.drop i = rest → i ≤ entries.length →
    entries.length < slots.length → Probed slots (homeOf entries) (Live i) →
    ∃ slots', rebuildFrom slots i rest = .ok slots' ∧ slots'.length = slots.length ∧
      Probed slots' (homeOf entries) (Live entries.length)
  | [], i, slots, _, hdrop, hi, _, h => by
    have : i = entries.length := by
      have := List.drop_eq_nil_iff.mp hdrop
      omega
    exact ⟨slots, rfl, rfl, this ▸ h⟩
  | entry :: rest, i, slots, hk, hdrop, hi, hlt, h => by
    have hget : entries[i]? = some entry := by
      rw [← List.head?_drop, hdrop]
      rfl
    have hilt : i < entries.length := (List.getElem?_eq_some_iff.mp hget).1
    obtain ⟨slots₁, hset, hlen₁, h₁⟩ := locate_fill hk h (by omega)
    rw [homeOf_get hget] at hset
    obtain ⟨position, hloc, hset'⟩ := bind_ok.mp hset
    obtain ⟨slots₂, hreb, hlen₂, h₂⟩ := rebuildFrom_ok rest (i + 1) slots₁ (hlen₁.trans hk)
      (by rw [← List.tail_drop, hdrop]; rfl) (by omega) (by omega) h₁
    refine ⟨slots₂, ?_, hlen₂.trans hlen₁, h₂⟩
    rw [rebuildFrom, hloc, ok_bind, hset', ok_bind]
    exact_mod_cast hreb

theorem rebuild_ok (entries : List (Entry κ ν)) (hk : entries.length < 2 ^ k) :
    ∃ slots', rebuild entries (2 ^ k : Nat) = .ok slots' ∧ slots'.length = 2 ^ k ∧
      Probed slots' (homeOf entries) (Live entries.length) := by
  unfold rebuild emptySlots
  rw [Int.toNat_natCast]
  have hstart : Probed (List.replicate (2 ^ k) (-1)) (homeOf entries) (Live 0) := by
    have hlive : (fun _ => False) = Live 0 := by
      funext e
      unfold Live
      simp only [eq_iff_iff, false_iff, Nat.cast_zero]
      omega
    rw [← hlive]
    exact Probed.replicate _ _
  obtain ⟨slots', hreb, hlen, h⟩ := rebuildFrom_ok entries 0 _ (List.length_replicate ..) rfl
    (by omega) (by rw [List.length_replicate]; exact hk) hstart
  exact ⟨slots', hreb, by rw [hlen, List.length_replicate], h⟩

/-! ## Unlinking -/

/-- The loop of `unlink`: `finish` is the first empty position behind the hole. -/
structure Unlinking (entries : List (Entry κ ν)) (n : Nat) (gone finish : Int) (current : List Int)
    (hole position : Int) : Prop where
  length_eq : current.length = n
  holed : Holed current (homeOf entries) (Live entries.length) gone hole position
  le_finish : position ≤ finish
  window : finish < hole + n
  occupied : ∀ y, position ≤ y → y < finish → 0 ≤ cell current y
  finish_empty : cell current finish < 0

theorem unlinkStep_ok {n : Nat} (hk : n = 2 ^ k) {finish hole position : Int} {current : List Int}
    (h : Unlinking entries n gone finish current hole position) :
    (∃ current' hole', unlinkStep entries (n - 1) (current, hole % n, position % n)
        = .ok (.go (current', hole' % n, (position + 1) % n)) ∧ position < finish ∧
      Unlinking entries n gone finish current' hole' (position + 1)) ∨
    (∃ closed, unlinkStep entries (n - 1) (current, hole % n, position % n) = .ok (.leave closed) ∧ closed.length = n ∧
      Probed closed (homeOf entries) (fun e => Live entries.length e ∧ e ≠ gone)) := by
  obtain ⟨rfl, hh, hle, hwin, hocc, hempty⟩ := h
  have hn := length_pos hk
  have hlt := hh.hole_lt
  unfold unlinkStep
  simp only [index_cell hn, ok_bind, land_mask hk]
  by_cases hpos : 0 ≤ cell current position
  · rw [if_pos hpos]
    have hpf : position < finish := by
      rcases Int.lt_or_eq_of_le hle with hlt | rfl
      · exact hlt
      · omega
    have hne : position % current.length ≠ hole % current.length := Ne.symm (emod_ne hlt (by omega))
    obtain ⟨⟨h0, hcount⟩, -⟩ := hh.sound position hne hpos
    obtain ⟨i, hi⟩ : ∃ i : Nat, cell current position = i := ⟨(cell current position).toNat, by omega⟩
    have hget : entries[i]? = some entries[i] := List.getElem?_eq_getElem (by omega)
    rw [index_ok (by rw [hi, get_natCast, hget]), ok_bind]
    -- both distances are those of the lifted positions
    have hdist : (position % current.length - hole % current.length) % current.length = position - hole := by
      rw [← Int.sub_emod, Int.emod_eq_of_lt] <;> omega
    have hideal : (position % current.length - entries[i].hash % current.length) % current.length
        = position - origin current.length (homeOf entries) (cell current position) position := by
      rw [← Int.sub_emod, hi]
      unfold origin
      rw [homeOf_get hget]
      omega
    simp only [hdist, hideal, Int.emod_add_emod]
    left
    by_cases hmove : position - hole ≤
        position - origin current.length (homeOf entries) (cell current position) position
    · rw [if_pos hmove]
      refine ⟨write current hole (cell current position), position, ?_, hpf,
        ⟨length_write _ _ _, hh.shift hn (by omega) hpos (by omega), by omega, by omega, ?_, ?_⟩⟩
      · rw [set_write hn, ok_bind]
      · intro y h1 h2
        rw [cell_write hn, if_neg (Ne.symm (emod_ne (by omega) (by omega)))]
        exact hocc y (by omega) h2
      · rw [cell_write hn, if_neg (Ne.symm (emod_ne (by omega) (by omega)))]
        exact hempty
    · rw [if_neg hmove]
      exact ⟨current, hole, rfl, hpf, rfl, hh.skip (by omega), by omega, hwin,
        fun y h1 h2 => hocc y (by omega) h2, hempty⟩
  · rw [if_neg hpos]
    right
    refine ⟨write current hole (-1), ?_, length_write _ _ _, hh.close hn (by omega) (by omega)⟩
    rw [set_write hn, ok_bind]

theorem unlink_ok (hk : slots.length = 2 ^ k) (h : Probed slots (homeOf entries) (Live entries.length))
    {start : Int} (hstart : cell slots start = gone) (hgone : 0 ≤ gone) (hlt : entries.length < slots.length) :
    ∃ slots', unlink entries slots (start % slots.length) = .ok slots' ∧ slots'.length = slots.length ∧
      Probed slots' (homeOf entries) (fun e => Live entries.length e ∧ e ≠ gone) := by
  have hn := length_pos hk
  -- the first empty slot behind the start is where the loop ends
  obtain ⟨d0, hd0, hempty0⟩ := h.exists_empty (fun e he => he.2) hlt (start + 1)
  obtain ⟨d, hd, hempty, hocc⟩ := exists_first_empty (start + 1) hempty0
  have hne : start + 1 + d ≠ start + slots.length := by
    intro heq
    rw [heq, show (start + slots.length : Int) = start + slots.length * 1 by ring, cell_add] at hempty
    omega
  have hfirst : Unlinking entries slots.length gone (start + 1 + d) slots start (start + 1) := by
    refine ⟨rfl, h.holed hstart hgone, by omega, by omega, ?_, hempty⟩
    intro y h1 h2
    have := hocc (y - (start + 1)).toNat (by omega)
    rwa [show (start + 1 + ((y - (start + 1)).toNat : Int)) = y by omega] at this
  -- the distance to the empty slot decreases
  have hloop := @loop_ok _ _ (unlinkStep entries (slots.length - 1))
    (fun s => ∃ hole position, s.2.1 = hole % slots.length ∧ s.2.2 = position % slots.length ∧
      Unlinking entries slots.length gone (start + 1 + d) s.1 hole position)
    (fun slots' => slots'.length = slots.length ∧
      Probed slots' (homeOf entries) (fun e => Live entries.length e ∧ e ≠ gone))
    (fun s => ((start + 1 + d - s.2.2) % slots.length).toNat) ?_ (slots.length + 1)
    (slots, start % slots.length, (start + 1) % slots.length) ⟨start, start + 1, rfl, rfl, hfirst⟩ ?_
  · obtain ⟨slots', hrun, hpost⟩ := hloop
    refine ⟨slots', ?_, hpost⟩
    unfold unlink
    simp only [land_mask hk, Int.emod_add_emod]
    exact hrun
  · rintro ⟨current, hole', position'⟩ ⟨hole, position, rfl, rfl, hs⟩
    have hle := hs.le_finish
    have hwin := hs.window
    have hhole := hs.holed.hole_lt
    rcases unlinkStep_ok hk hs with ⟨current', hole', hstep, hpf, hs'⟩ | ⟨closed, hstep, hpost⟩
    · refine .inl ⟨_, hstep, ⟨hole', position + 1, rfl, rfl, hs'⟩, ?_⟩
      simp only [Int.sub_emod_emod]
      rw [Int.emod_eq_of_lt (by omega) (by omega), Int.emod_eq_of_lt (by omega) (by omega)]
      omega
    · exact .inr ⟨closed, hstep, hpost⟩
  · have := Int.emod_lt_of_pos (start + 1 + d - (start + 1) % slots.length) (b := slots.length) (by omega)
    simp only
    omega

end Tsuzuri.HashMap
