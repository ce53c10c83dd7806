import Tsuzuri.JsonScan

/-!
# JSON strings

`parse_string` reads exactly the bytes that `Chars` derives, and leaves the code units that they
denote.
-/

namespace Tsuzuri.Json

open FaultVec Unicode List

variable {text rest : List Nat} {i j : Nat}

/-! ## Escapes -/

variable {b v : Nat} {unit : UInt16} {t : List Nat} {u : Str}

theorem hexValue_iff : hexValue b = some v ↔ HexDigit b v := by
  unfold hexValue HexDigit
  split
  · rename_i h
    simp only [Option.some.injEq]
    omega
  · split
    · rename_i h
      simp only [Option.some.injEq]
      omega
    · split
      · rename_i h
        simp only [Option.some.injEq]
        omega
      · simp only [reduceCtorEq, false_iff]
        omega

theorem hexDigits_step (hb : text[i]? = some b) (hv : HexDigit b v) (count unit : Nat) :
    hexDigits text (count + 1) unit i = hexDigits text count (unit * 16 + v) (i + 1) := by
  rw [hexDigits, hb, Option.bind_some, hexValue_iff.mpr hv]

theorem hexDigits_sound {count unit : Nat} (h : i < (hexDigits text (count + 1) unit i).2) :
    ∃ b v, text[i]? = some b ∧ HexDigit b v := by
  rw [hexDigits] at h
  cases hget : text[i]?.bind hexValue with
  | none =>
    rw [hget] at h
    exact absurd h (Nat.lt_irrefl i)
  | some v =>
    obtain ⟨b, hb, hv⟩ := Option.bind_eq_some_iff.mp hget
    exact ⟨b, v, hb, hexValue_iff.mp hv⟩

theorem escapeUnit_of_mem (h : (b, unit) ∈ escapes) : ∃ k, escapeUnit b = some k ∧ UInt16.ofNat k = unit ∧ b ≠ 117 := by
  simp only [escapes, mem_cons, Prod.mk.injEq, not_mem_nil, or_false] at h
  rcases h with ⟨rfl, rfl⟩ | ⟨rfl, rfl⟩ | ⟨rfl, rfl⟩ | ⟨rfl, rfl⟩ | ⟨rfl, rfl⟩ | ⟨rfl, rfl⟩ |
    ⟨rfl, rfl⟩ | ⟨rfl, rfl⟩
  all_goals exact ⟨_, rfl, rfl, by omega⟩

theorem mem_escapes {k : Nat} (h : escapeUnit b = some k) : (b, UInt16.ofNat k) ∈ escapes := by
  unfold escapeUnit at h
  split at h
  · rename_i hb
    obtain rfl := Option.some.inj h
    rcases hb with rfl | rfl | rfl
    all_goals simp [escapes]
  · repeat' split at h
    all_goals first
      | (obtain rfl := Option.some.inj h; subst_vars; simp [escapes])
      | cases h

theorem escapeAt_escaped (hb : (b, unit) ∈ escapes) (h : text.drop i = 92 :: b :: rest) :
    escapeAt text i = .ok (unit, i + 2) := by
  obtain ⟨k, hk, rfl, h117⟩ := escapeUnit_of_mem hb
  unfold escapeAt
  rw [get_of_drop (drop_succ h)]
  simp only
  rw [if_neg h117, hk]

theorem escapeAt_unicode {b₁ b₂ b₃ b₄ v₁ v₂ v₃ v₄ : Nat} (h₁ : HexDigit b₁ v₁)
    (h₂ : HexDigit b₂ v₂) (h₃ : HexDigit b₃ v₃) (h₄ : HexDigit b₄ v₄)
    (h : text.drop i = 92 :: 117 :: b₁ :: b₂ :: b₃ :: b₄ :: rest) :
    escapeAt text i = .ok (UInt16.ofNat (v₁ * 4096 + v₂ * 256 + v₃ * 16 + v₄), i + 6) := by
  have hu := drop_succ h
  have hd₁ := drop_succ hu
  have hd₂ := drop_succ hd₁
  have hd₃ := drop_succ hd₂
  have hd₄ := drop_succ hd₃
  have hrun : hexDigits text 4 0 (i + 2) = (v₁ * 4096 + v₂ * 256 + v₃ * 16 + v₄, i + 6) := by
    rw [hexDigits_step (get_of_drop hd₁) h₁, hexDigits_step (get_of_drop hd₂) h₂,
      hexDigits_step (get_of_drop hd₃) h₃, hexDigits_step (get_of_drop hd₄) h₄, hexDigits]
    congr 1
    omega
  unfold escapeAt
  rw [get_of_drop hu]
  simp only
  rw [if_pos trivial, hrun]
  simp

theorem escapeAt_sound (hb : text[i]? = some 92) (h : escapeAt text i = .ok (unit, j)) :
    ∃ t, text.drop i = t ++ text.drop j ∧ j = i + t.length ∧ (∀ b ∈ t, b < 128) ∧ t ≠ [] ∧
      ∀ {s : List Nat} {u : Str}, Chars s u → Chars (t ++ s) (unit :: u) := by
  have hd := drop_of_get hb
  unfold escapeAt at h
  cases hget : text[i + 1]? with
  | none =>
    rw [hget] at h
    cases h
  | some b =>
    rw [hget] at h
    simp only at h
    have hd' := drop_of_get hget
    by_cases h117 : b = 117
    · subst h117
      rw [if_pos rfl] at h
      by_cases hfull : (hexDigits text 4 0 (i + 2)).2 = i + 6
      · -- four digits were read
        have hfull₁ : (hexDigits text (3 + 1) 0 (i + 2)).2 = i + 6 := hfull
        obtain ⟨b₁, v₁, hb₁, hv₁⟩ := hexDigits_sound (show i + 2 < (hexDigits text (3 + 1) 0 (i + 2)).2 by omega)
        have hfull₂ := hfull₁
        rw [hexDigits_step hb₁ hv₁] at hfull₂
        obtain ⟨b₂, v₂, hb₂, hv₂⟩ := hexDigits_sound
          (show i + 2 + 1 < (hexDigits text (2 + 1) _ (i + 2 + 1)).2 by rw [hfull₂]; omega)
        have hfull₃ := hfull₂
        rw [hexDigits_step hb₂ hv₂] at hfull₃
        obtain ⟨b₃, v₃, hb₃, hv₃⟩ := hexDigits_sound
          (show i + 2 + 1 + 1 < (hexDigits text (1 + 1) _ (i + 2 + 1 + 1)).2 by rw [hfull₃]; omega)
        have hfull₄ := hfull₃
        rw [hexDigits_step hb₃ hv₃] at hfull₄
        obtain ⟨b₄, v₄, hb₄, hv₄⟩ := hexDigits_sound
          (show i + 2 + 1 + 1 + 1 < (hexDigits text (0 + 1) _ (i + 2 + 1 + 1 + 1)).2 by
            rw [hfull₄]; omega)
        have hdrop : text.drop i = 92 :: 117 :: b₁ :: b₂ :: b₃ :: b₄ :: text.drop (i + 6) := by
          rw [hd, hd', drop_of_get hb₁, drop_of_get hb₂, drop_of_get hb₃, drop_of_get hb₄]
        have hrun := escapeAt_unicode hv₁ hv₂ hv₃ hv₄ hdrop
        unfold escapeAt at hrun
        rw [hget] at hrun
        simp only at hrun
        rw [if_pos trivial, h] at hrun
        cases hrun
        have hlt : ∀ {b v : Nat}, HexDigit b v → b < 128 := by
          intro b v hv
          unfold HexDigit at hv
          omega
        refine ⟨[92, 117, b₁, b₂, b₃, b₄], hdrop, rfl, ?_, by simp, fun hs => .unicode hv₁ hv₂ hv₃ hv₄ hs⟩
        simp only [mem_cons, not_mem_nil, or_false]
        rintro b (rfl | rfl | rfl | rfl | rfl | rfl)
        · omega
        · omega
        · exact hlt hv₁
        · exact hlt hv₂
        · exact hlt hv₃
        · exact hlt hv₄
      · simp only [if_neg hfull] at h
        unfold fail at h
        split at h
        · cases h
        · cases h
    · rw [if_neg h117] at h
      cases hk : escapeUnit b with
      | none =>
        rw [hk] at h
        cases h
      | some k =>
        rw [hk] at h
        cases h
        have hmem := mem_escapes hk
        refine ⟨[92, b], by rw [hd, hd']; rfl, rfl, ?_, by simp, fun hs => .escaped hmem hs⟩
        simp only [escapes, mem_cons, Prod.mk.injEq, not_mem_nil, or_false] at hmem ⊢
        omega

theorem byteAt_ok (h : text.drop i = b :: rest) : byteAt text i = .ok b := by
  rw [byteAt, get_of_drop h]

theorem characterAt_ok {c : Nat} (hc : Scalar c) (h : text.drop i = encode8 c ++ rest) :
    ∃ b t, text.drop i = b :: t ∧ (128 ≤ c → 128 ≤ b) ∧ (c < 128 → b = c) ∧
      characterAt text i b = .ok (encode16 c, i + (encode8 c).length) := by
  have hlt := hc.lt
  unfold encode8 at h
  unfold encode8 encode16 characterAt
  by_cases h1 : c < 0x80
  · rw [if_pos h1] at h ⊢
    refine ⟨c, rest, h, fun h' => by omega, fun _ => rfl, ?_⟩
    rw [if_pos h1, if_pos (by omega)]
    rfl
  rw [if_neg h1] at h ⊢
  by_cases h2 : c < 0x800
  · rw [if_pos h2] at h ⊢
    refine ⟨192 + c / 64, _, h, fun _ => by omega, fun h' => absurd h' h1, ?_⟩
    have hpoint : (192 + c / 64) % 32 * 64 + (128 + c % 64) % 64 = c := by omega
    rw [if_neg (by omega), if_pos (by omega), byteAt_ok (drop_succ h), ok_then, two_bytes, hpoint, if_pos (by omega)]
    rfl
  rw [if_neg h2] at h ⊢
  by_cases h3 : c < 0x10000
  · rw [if_pos h3] at h ⊢
    refine ⟨224 + c / 4096, _, h, fun _ => by omega, fun h' => absurd h' h1, ?_⟩
    have hpoint : (224 + c / 4096) % 16 * 4096 + (128 + c / 64 % 64) % 64 * 64
        + (128 + c % 64) % 64 = c := by omega
    rw [if_neg (by omega), if_neg (by omega), if_pos (by omega), byteAt_ok (drop_succ h), ok_then,
      byteAt_ok (drop_succ (drop_succ h)), ok_then, three_bytes, hpoint, if_pos (by omega)]
    rfl
  rw [if_neg h3] at h ⊢
  refine ⟨240 + c / 262144, _, h, fun _ => by omega, fun h' => absurd h' h1, ?_⟩
  have hpoint : (240 + c / 262144) % 8 * 262144 + (128 + c / 4096 % 64) % 64 * 4096
      + (128 + c / 64 % 64) % 64 * 64 + (128 + c % 64) % 64 = c := by omega
  have hhigh : (c - 65536) >>> 10 = (c - 65536) / 1024 := shift_right _ 10
  rw [if_neg (by omega), if_neg (by omega), if_neg (by omega), byteAt_ok (drop_succ h), ok_then,
    byteAt_ok (drop_succ (drop_succ h)), ok_then, byteAt_ok (drop_succ (drop_succ (drop_succ h))),
    ok_then, four_bytes, hpoint, if_neg (by omega)]
  simp only [hhigh, mask10]
  rfl

/-! ## Strings -/

theorem stringFrom_ok (ht : Chars t u) :
    ∀ {i : Nat} (fuel : Nat) (units : Str), text.drop i = t ++ 34 :: rest → t.length < fuel →
      stringFrom text fuel units i = .ok (units ++ u, i + t.length + 1) := by
  induction ht with
  | nil =>
    intro i fuel units h hf
    obtain ⟨fuel, rfl⟩ : ∃ f, fuel = f + 1 := ⟨fuel - 1, by omega⟩
    rw [stringFrom, get_of_drop h]
    simp
  | @unescaped c t u hc hlow hquote hslash _ ih =>
    intro i fuel units h hf
    obtain ⟨fuel, rfl⟩ : ∃ f, fuel = f + 1 := ⟨fuel - 1, by omega⟩
    rw [append_assoc] at h
    obtain ⟨b, s, hb, hhigh, hascii, hrun⟩ := characterAt_ok hc h
    have hpos := length_pos_iff.mpr (encode8_ne_nil c)
    have hb34 : b ≠ 34 ∧ b ≠ 92 ∧ ¬ b < 32 := by
      by_cases h128 : c < 128
      · have := hascii h128
        omega
      · have := hhigh (by omega)
        omega
    rw [length_append] at hf
    rw [stringFrom, get_of_drop hb]
    simp only
    rw [if_neg hb34.1, if_neg hb34.2.1, if_neg hb34.2.2, hrun, ok_then]
    simp only
    rw [ih fuel _ (drop_add h) (by omega), length_append, append_assoc, Nat.add_assoc i]
  | @escaped b unit t u hb _ ih =>
    intro i fuel units h hf
    obtain ⟨fuel, rfl⟩ : ∃ f, fuel = f + 1 := ⟨fuel - 1, by omega⟩
    simp only [cons_append, length_cons] at h hf
    rw [stringFrom, get_of_drop h]
    simp only
    rw [if_neg (by omega), if_pos trivial, escapeAt_escaped hb h, ok_then]
    simp only
    rw [ih fuel _ (drop_succ (drop_succ h)) (by omega), append_assoc]
    simp only [singleton_append, length_cons, Except.ok.injEq, Prod.mk.injEq, true_and]
    omega
  | unicode h₁ h₂ h₃ h₄ _ ih =>
    intro i fuel units h hf
    obtain ⟨fuel, rfl⟩ : ∃ f, fuel = f + 1 := ⟨fuel - 1, by omega⟩
    simp only [cons_append, length_cons] at h hf
    have hd := drop_succ (drop_succ (drop_succ (drop_succ (drop_succ (drop_succ h)))))
    rw [stringFrom, get_of_drop h]
    simp only
    rw [if_neg (by omega), if_pos trivial, escapeAt_unicode h₁ h₂ h₃ h₄ h, ok_then]
    simp only
    rw [ih fuel _ hd (by omega), append_assoc]
    simp only [singleton_append, length_cons, Except.ok.injEq, Prod.mk.injEq, true_and]
    omega

theorem parseString_ok (ht : Chars t u) (h : text.drop i = 34 :: (t ++ 34 :: rest)) :
    parseString text i = .ok (u, i + t.length + 2) := by
  have hlen : t.length < text.length + 1 := by
    have := congrArg List.length h
    simp at this
    omega
  rw [parseString, stringFrom_ok ht _ [] (drop_succ h) hlen]
  simp only [nil_append, Except.ok.injEq, Prod.mk.injEq, true_and]
  omega

theorem stringFrom_sound : ∀ (fuel : Nat) {i j : Nat} {units s : Str}, Valid (text.drop i) →
    stringFrom text fuel units i = .ok (s, j) →
    ∃ t u, text.drop i = t ++ 34 :: text.drop j ∧ Chars t u ∧ s = units ++ u ∧
      j = i + t.length + 1 ∧ Valid (text.drop j)
  | 0, _, _, _, _, _, h => by cases h
  | fuel + 1, i, j, units, s, hv, h => by
    rw [stringFrom] at h
    cases hget : text[i]? with
    | none =>
      rw [hget] at h
      cases h
    | some b =>
      rw [hget] at h
      simp only at h
      have hd := drop_of_get hget
      by_cases h34 : b = 34
      · subst h34
        rw [if_pos rfl] at h
        cases h
        rw [hd] at hv
        exact ⟨[], [], hd, .nil, by simp, rfl, hv.tail_of_ascii (by omega)⟩
      rw [if_neg h34] at h
      by_cases h92 : b = 92
      · subst h92
        rw [if_pos rfl] at h
        obtain ⟨⟨unit, next⟩, hesc, hrest⟩ := then_ok h
        obtain ⟨t, ht, hnext, hascii, -, hchars⟩ := escapeAt_sound hget hesc
        rw [ht] at hv
        obtain ⟨t', u, hd', hc, hs, hj, hvj⟩ :=
          stringFrom_sound fuel (hv.of_ascii_append hascii) hrest
        refine ⟨t ++ t', unit :: u, ?_, hchars hc, ?_, ?_, hvj⟩
        · rw [ht, hd']
          simp
        · rw [hs]
          simp
        · rw [hj, hnext, length_append]
          omega
      rw [if_neg h92] at h
      by_cases h32 : b < 32
      · rw [if_pos h32] at h
        cases h
      rw [if_neg h32] at h
      obtain ⟨⟨more, next⟩, hchar, hrest⟩ := then_ok h
      rw [hd] at hv
      obtain ⟨c, tail, hc, henc, htail⟩ := hv.first
      rw [← hd] at henc
      obtain ⟨b', s', hb', hhigh, hascii, hrun⟩ := characterAt_ok hc henc
      rw [hd] at hb'
      obtain ⟨rfl, -⟩ := List.cons.inj hb'
      rw [hrun] at hchar
      cases hchar
      have hc' : 32 ≤ c ∧ c ≠ 34 ∧ c ≠ 92 := by
        by_cases h128 : c < 128
        · have := hascii h128
          omega
        · omega
      have hnext := drop_add henc
      rw [← hnext] at htail
      obtain ⟨t', u, hd', hcs, hs, hj, hvj⟩ := stringFrom_sound fuel htail hrest
      refine ⟨encode8 c ++ t', encode16 c ++ u, ?_, .unescaped hc hc'.1 hc'.2.1 hc'.2.2 hcs, ?_, ?_, hvj⟩
      · rw [henc, ← hnext, hd']
        simp
      · rw [hs]
        simp
      · rw [hj, length_append]
        omega

theorem parseString_sound {s : Str} (hq : text[i]? = some 34) (hv : Valid (text.drop i))
    (h : parseString text i = .ok (s, j)) :
    ∃ t, text.drop i = 34 :: (t ++ 34 :: text.drop j) ∧ Chars t s ∧ j = i + t.length + 2 ∧ Valid (text.drop j) := by
  have hd := drop_of_get hq
  rw [hd] at hv
  obtain ⟨t, u, hd', hc, hs, hj, hvj⟩ := stringFrom_sound _ (hv.tail_of_ascii (by omega)) h
  obtain rfl : s = u := hs
  refine ⟨t, by rw [hd, hd'], hc, by omega, hvj⟩

end Tsuzuri.Json
