import Tsuzuri.CborSound

/-!
# A cut input

The decoder reads from left to right, and measures every head, text and container against the end of the input first.
-/

namespace Tsuzuri.Cbor

open FaultVec Unicode List
open Json (Str maxLength ok_then error_then)

theorem run_bind_ok {α β : Type} {x : Run α} {f : α → Run β} {b : β} :
    x >>= f = .ok b ↔ ∃ a, x = .ok a ∧ f a = .ok b := by
  cases x with
  | error e =>
    constructor
    · intro h
      cases h
    · rintro ⟨_, h, -⟩
      cases h
  | ok a =>
    constructor
    · exact fun h => ⟨a, rfl, h⟩
    · rintro ⟨_, h, hf⟩
      cases h
      exact hf

variable {c : Prop} {kind : ErrorKind} {offset : Int} {bytes offsets p : List Nat}
  {start count next last length position major depth byte first : Nat} {v : Json.Value}
  {negative : Bool} {floats : Floats} {value : Nat → Run (Json.Value × Nat)}
  {members : List (Str × Json.Value)}

theorem if_fail_ok {α : Type} [Decidable c] {r : Run α} {a : α}
    (h : (if c then fail kind offset else r) = .ok a) : ¬ c ∧ r = .ok a := by
  by_cases hc : c
  · rw [if_pos hc] at h
    cases h
  · rw [if_neg hc] at h
    exact ⟨hc, h⟩

/-! ## Offsets grow -/

theorem argument_lt (h : argument bytes start = .ok (count, next)) : start < next := by
  unfold argument at h
  obtain ⟨byte, -, h⟩ := run_bind_ok.mp h
  obtain ⟨-, h⟩ := if_fail_ok h
  obtain ⟨-, h⟩ := if_fail_ok h
  by_cases hsmall : byte &&& 31 < 24
  · rw [if_pos hsmall] at h
    cases h
    omega
  · rw [if_neg hsmall] at h
    obtain ⟨-, h⟩ := if_fail_ok h
    cases h
    omega

theorem numeralOf_next {text : List Nat}
    (h : (numeralOf text >>= fun value => .ok (value, next)) = (.ok (v, last) : Run _)) : last = next := by
  obtain ⟨value, -, h⟩ := run_bind_ok.mp h
  exact (Prod.mk.inj (Except.ok.inj h)).2.symm

theorem bignumAt_lt (h : bignumAt bytes start next negative = .ok (v, last)) : next < last := by
  unfold bignumAt at h
  cases hget : bytes[next]? with
  | none =>
    rw [hget] at h
    cases h
  | some byte =>
    rw [hget] at h
    obtain ⟨-, h⟩ := if_fail_ok h
    obtain ⟨⟨length, first⟩, hhead, h⟩ := run_bind_ok.mp h
    have hlt := argument_lt hhead
    obtain ⟨-, h⟩ := if_fail_ok h
    obtain ⟨-, h⟩ := if_fail_ok h
    obtain ⟨-, h⟩ := if_fail_ok h
    have := numeralOf_next h
    omega

def floatAt (text : Nat → Option (List Nat)) (bytes : List Nat) (start : Nat) : Run (Json.Value × Nat) :=
  argument bytes start >>= fun p =>
    match text p.1 with
    | some text => numeralOf text >>= fun value => .ok (value, p.2)
    | none => fail .nonFinite start

theorem simple_cases (floats : Floats) (start info : Nat) :
    (∃ w, ∀ bytes, simple floats bytes start info = .ok (w, start + 1)) ∨
      (∃ text, ∀ bytes, simple floats bytes start info = floatAt text bytes start) ∨
      ∀ bytes a, simple floats bytes start info ≠ .ok a := by
  by_cases h20 : info = 20
  · exact .inl ⟨.bool false, fun bytes => by rw [simple, if_pos h20]⟩
  by_cases h21 : info = 21
  · exact .inl ⟨.bool true, fun bytes => by rw [simple, if_neg h20, if_pos h21]⟩
  by_cases h22 : info = 22
  · exact .inl ⟨.null, fun bytes => by rw [simple, if_neg h20, if_neg h21, if_pos h22]⟩
  right
  by_cases hfloat : info = 25 ∨ info = 26 ∨ info = 27
  · left
    refine ⟨fun bits => if info = 25 then floats.text bits 5 10
      else if info = 26 then floats.text bits 8 23 else floats.text bits 11 52, fun bytes => ?_⟩
    rw [simple, if_neg h20, if_neg h21, if_neg h22, if_pos hfloat]
    rfl
  · right
    intro bytes a h
    rw [simple, if_neg h20, if_neg h21, if_neg h22, if_neg hfloat] at h
    obtain ⟨-, h⟩ := if_fail_ok h
    obtain ⟨-, h⟩ := if_fail_ok h
    obtain ⟨-, h⟩ := if_fail_ok h
    obtain ⟨-, h⟩ := if_fail_ok h
    cases h

theorem floatAt_ok {text : Nat → Option (List Nat)} (h : floatAt text bytes start = .ok (v, next)) :
    ∃ bits t, argument bytes start = .ok (bits, next) ∧ text bits = some t ∧ numeralOf t = .ok v := by
  obtain ⟨⟨bits, after⟩, hhead, h⟩ := run_bind_ok.mp h
  simp only at h
  cases ht : text bits with
  | none =>
    rw [ht] at h
    cases h
  | some t =>
    rw [ht] at h
    obtain ⟨value, hvalue, h⟩ := run_bind_ok.mp h
    cases h
    exact ⟨bits, t, hhead, ht, hvalue⟩

theorem simple_lt {info : Nat} (h : simple floats bytes start info = .ok (v, next)) : start < next := by
  rcases simple_cases floats start info with ⟨w, hw⟩ | ⟨text, hfloat⟩ | hbad
  · rw [hw] at h
    cases h
    omega
  · rw [hfloat] at h
    obtain ⟨bits, t, hhead, -⟩ := floatAt_ok h
    exact argument_lt hhead
  · exact absurd h (hbad bytes _)

theorem textAt_next (h : textAt bytes start next length = .ok (v, last)) : last = next + length := by
  unfold textAt at h
  cases hs : scalars8 ((bytes.drop next).take length) with
  | none =>
    rw [hs] at h
    cases h
  | some scalars =>
    rw [hs] at h
    exact (Prod.mk.inj (Except.ok.inj h)).2.symm

def Grows (value : Nat → Run (Json.Value × Nat)) : Prop :=
  ∀ {start v next}, value start = .ok (v, next) → start < next

theorem itemsAt_ge (hvalue : Grows value) {items all : List Json.Value}
    (h : itemsAt value count items position = .ok (all, last)) : position + count ≤ last := by
  induction count generalizing items position with
  | zero =>
    cases h
    omega
  | succ count ih =>
    obtain ⟨⟨element, next⟩, hread, h⟩ := run_bind_ok.mp h
    have := hvalue hread
    have := ih h
    omega

theorem membersAt_succ_ok {r : (List (Str × Json.Value) × List Nat) × Nat}
    (h : membersAt value bytes (count + 1) members offsets position = .ok r) :
    ¬ bytes[position]?.any (fun byte => byte >>> 5 ≠ 3) ∧
      ∃ key after element next, value position = .ok (.text key, after) ∧ value after = .ok (element, next) ∧
        membersAt value bytes count (members ++ [(key, element)]) (offsets ++ [position]) next = .ok r := by
  rw [membersAt] at h
  obtain ⟨hmajor, h⟩ := if_fail_ok h
  obtain ⟨⟨key, after⟩, hkey, h⟩ := run_bind_ok.mp h
  refine ⟨hmajor, ?_⟩
  cases key with
  | text key =>
    obtain ⟨⟨element, next⟩, helement, h⟩ := run_bind_ok.mp h
    exact ⟨key, after, element, next, hkey, helement, h⟩
  | null | bool flag | number t | items vs | object ms => cases h

theorem membersAt_ge (hvalue : Grows value) {found : List (Str × Json.Value) × List Nat}
    (h : membersAt value bytes count members offsets position = .ok (found, last)) :
    position + 2 * count ≤ last := by
  induction count generalizing members offsets position with
  | zero =>
    cases h
    omega
  | succ count ih =>
    obtain ⟨-, key, after, element, next, hkey, helement, hmore⟩ := membersAt_succ_ok h
    have := hvalue hkey
    have := hvalue helement
    have := ih hmore
    omega

theorem closeMap_next (h : closeMap members offsets position = .ok (v, last)) : last = position := by
  unfold closeMap at h
  cases hdup : repeated members with
  | none =>
    rw [hdup] at h
    exact (Prod.mk.inj (Except.ok.inj h)).2.symm
  | some duplicate =>
    rw [hdup] at h
    simp only at h
    split at h
    · cases h
    · cases h

theorem containerAt_ok (h : containerAt value bytes major start count next depth = .ok (v, last)) : depth < 128 ∧
      ((major = 4 ∧ ∃ items, itemsAt value count [] next = .ok (items, last) ∧ v = .items items) ∨
        (major ≠ 4 ∧ ∃ members offsets, membersAt value bytes count [] [] next = .ok ((members, offsets), last) ∧
            closeMap members offsets last = .ok (v, last))) := by
  unfold containerAt at h
  simp only at h
  obtain ⟨hdeep, h⟩ := if_fail_ok h
  obtain ⟨-, h⟩ := if_fail_ok h
  obtain ⟨-, h⟩ := if_fail_ok h
  refine ⟨by omega, ?_⟩
  by_cases h4 : major = 4
  · rw [if_pos h4] at h
    obtain ⟨⟨items, position⟩, hitems, h⟩ := run_bind_ok.mp h
    cases h
    exact .inl ⟨h4, items, hitems, rfl⟩
  · rw [if_neg h4] at h
    obtain ⟨⟨⟨members, offsets⟩, position⟩, hmembers, h⟩ := run_bind_ok.mp h
    obtain rfl := closeMap_next h
    exact .inr ⟨h4, members, offsets, hmembers, h⟩

theorem containerAt_ge (hvalue : Grows value)
    (h : containerAt value bytes major start count next depth = .ok (v, last)) : next ≤ last := by
  obtain ⟨-, ⟨-, items, hitems, -⟩ | ⟨-, members, offsets, hmembers, -⟩⟩ := containerAt_ok h
  · have := itemsAt_ge hvalue hitems
    omega
  · have := membersAt_ge hvalue hmembers
    omega

/-- What `value_at` does behind the head of an item that is not of major type 7. -/
def behindHead (value : Nat → Run (Json.Value × Nat)) (bytes : List Nat) (major start depth : Nat)
    (p : Nat × Nat) : Run (Json.Value × Nat) :=
  if major = 0 then numeralOf (integerText p.1) >>= fun value => .ok (value, p.2)
  else if major = 1 then numeralOf (integerText (-1 - p.1)) >>= fun value => .ok (value, p.2)
  else if major = 2 then fail (.unsupported "byte string") start
  else if major = 3 then
    if bytes.length - p.2 < p.1 then fail .unexpectedEnd bytes.length
    else textAt bytes start p.2 p.1
  else if major = 4 ∨ major = 5 then containerAt value bytes major start p.1 p.2 depth
  else if p.1 = 2 ∨ p.1 = 3 then bignumAt bytes start p.2 (p.1 = 3)
  else fail (.unsupported ("tag " ++ toString p.1)) start

theorem valueAt_succ {fuel : Nat} (h : bytes[start]? = some byte) : valueAt floats bytes (fuel + 1) start depth =
      if byte >>> 5 = 7 then simple floats bytes start (byte &&& 31)
      else argument bytes start >>=
        behindHead (fun position => valueAt floats bytes fuel position (depth + 1)) bytes (byte >>> 5)
          start depth := by
  rw [valueAt, h]
  rfl

theorem behindHead_ge (hvalue : Grows value) {p : Nat × Nat}
    (h : behindHead value bytes major start depth p = .ok (v, last)) : p.2 ≤ last := by
  unfold behindHead at h
  by_cases h0 : major = 0
  · rw [if_pos h0] at h
    exact (numeralOf_next h).ge
  rw [if_neg h0] at h
  by_cases h1 : major = 1
  · rw [if_pos h1] at h
    exact (numeralOf_next h).ge
  rw [if_neg h1] at h
  obtain ⟨-, h⟩ := if_fail_ok h
  by_cases h3 : major = 3
  · rw [if_pos h3] at h
    obtain ⟨-, h⟩ := if_fail_ok h
    have := textAt_next h
    omega
  rw [if_neg h3] at h
  by_cases h45 : major = 4 ∨ major = 5
  · rw [if_pos h45] at h
    exact containerAt_ge hvalue h
  rw [if_neg h45] at h
  by_cases htag : p.1 = 2 ∨ p.1 = 3
  · rw [if_pos htag] at h
    exact (bignumAt_lt h).le
  · rw [if_neg htag] at h
    cases h

theorem valueAt_grows (floats : Floats) (bytes : List Nat) (fuel depth : Nat) :
    Grows fun position => valueAt floats bytes fuel position depth := by
  induction fuel generalizing depth with
  | zero =>
    intro start v next h
    cases h
  | succ fuel ih =>
    intro start v next h
    cases hget : bytes[start]? with
    | none =>
      simp only [valueAt, hget] at h
      cases h
    | some byte =>
      simp only [valueAt_succ hget] at h
      by_cases h7 : byte >>> 5 = 7
      · rw [if_pos h7] at h
        exact simple_lt h
      · rw [if_neg h7] at h
        obtain ⟨⟨count, after⟩, hhead, h⟩ := run_bind_ok.mp h
        have hlt := argument_lt hhead
        have hge := behindHead_ge (ih (depth + 1)) h
        exact Nat.lt_of_lt_of_le hlt hge

/-! ## The prefix -/

/-- What a decoder of the prefix `p` does where the decoder of the whole input does `whole`. -/
def Cut {α : Type} (p : List Nat) (whole part : Run (α × Nat)) : Prop :=
  ∀ a next, whole = .ok (a, next) → (next ≤ p.length → part = .ok (a, next)) ∧
      (p.length < next → part = fail .unexpectedEnd p.length)

theorem Cut.of_le {α : Type} {r : Run (α × Nat)} (h : ∀ {a next}, r = .ok (a, next) → next ≤ p.length) : Cut p r r := by
  intro a next hrun
  have := h hrun
  exact ⟨fun _ => hrun, fun hlt => by omega⟩

theorem Cut.bind {α β : Type} {whole part : Run (α × Nat)} {f g : α × Nat → Run (β × Nat)}
    (h : Cut p whole part) (hge : ∀ {a next b last}, f (a, next) = .ok (b, last) → next ≤ last)
    (hf : ∀ {a next}, whole = .ok (a, next) → next ≤ p.length → Cut p (f (a, next)) (g (a, next))) :
    Cut p (whole >>= f) (part >>= g) := by
  intro b last hrun
  obtain ⟨⟨a, next⟩, hwhole, hrun⟩ := run_bind_ok.mp hrun
  obtain ⟨hin, hout⟩ := h a next hwhole
  by_cases hnext : next ≤ p.length
  · rw [hin hnext, ok_then]
    exact hf hwhole hnext b last hrun
  · have hle := hge hrun
    refine ⟨fun hlast => by omega, fun _ => ?_⟩
    rw [hout (by omega)]
    rfl

variable {p q : List Nat} {start : Nat}

theorem get_appended (h : start < p.length) : p[start]? = (p ++ q)[start]? :=
  (getElem?_append_left h).symm

theorem slice_prefix (h : first + count ≤ p.length) : ((p ++ q).drop first).take count = (p.drop first).take count := by
  rw [drop_append_of_le_length (by omega), take_append_of_le_length]
  rw [length_drop]
  omega

theorem argument_cut (h : start < p.length) : Cut p (argument (p ++ q) start) (argument p start) := by
  intro count next hwhole
  have hbyte : byteAt (p ++ q) start = byteAt p start := by
    rw [byteAt, byteAt, get_appended (q := q) h]
  unfold argument at hwhole ⊢
  rw [hbyte] at hwhole
  obtain ⟨byte, hget, hwhole⟩ := run_bind_ok.mp hwhole
  rw [hget, ok_then]
  simp only at hwhole ⊢
  obtain ⟨hreserved, hwhole⟩ := if_fail_ok hwhole
  obtain ⟨hindefinite, hwhole⟩ := if_fail_ok hwhole
  rw [if_neg hreserved, if_neg hindefinite]
  by_cases hsmall : byte &&& 31 < 24
  · rw [if_pos hsmall] at hwhole ⊢
    cases hwhole
    exact ⟨fun _ => rfl, fun hlt => by omega⟩
  · rw [if_neg hsmall] at hwhole ⊢
    generalize (if byte &&& 31 = 24 then 1 else if byte &&& 31 = 25 then 2
      else if byte &&& 31 = 26 then 4 else 8) = size at hwhole ⊢
    obtain ⟨hroom, hwhole⟩ := if_fail_ok hwhole
    cases hwhole
    refine ⟨fun hle => ?_, fun hlt => ?_⟩
    · rw [if_neg (by omega), slice_prefix (by omega)]
    · rw [if_pos (by omega)]

theorem Cut.if_fail {α : Type} [Decidable c] {whole part : Run (α × Nat)} (h : Cut p whole part) :
    Cut p (if c then fail kind offset else whole) part :=
  fun a next hrun => h a next (if_fail_ok hrun).2

theorem Cut.measured {α : Type} {whole part : Run (α × Nat)} (hnext : next ≤ p.length)
    (hlast : ∀ {a last}, whole = .ok (a, last) → next + count ≤ last) (h : next + count ≤ p.length → Cut p whole part) :
    Cut p whole (if p.length - next < count then fail .unexpectedEnd p.length else part) := by
  intro a last hrun
  have hle := hlast hrun
  by_cases hroom : p.length - next < count
  · rw [if_pos hroom]
    exact ⟨fun hin => by omega, fun _ => rfl⟩
  · rw [if_neg hroom]
    exact h (by omega) a last hrun

theorem textAt_cut (h : next + length ≤ p.length) :
    Cut p (textAt (p ++ q) start next length) (textAt p start next length) := by
  have heq : textAt (p ++ q) start next length = textAt p start next length := by
    rw [textAt, textAt, slice_prefix h]
  rw [heq]
  exact .of_le fun hrun => (textAt_next hrun).trans_le h

def bignumBody (bytes : List Nat) (start : Nat) (negative : Bool) (length first : Nat) : Run (Json.Value × Nat) :=
  if 1701 < length then fail .numberRange start
  else
    let text := bignumText ((bytes.drop first).take length) negative
    if 4096 < (if negative then text.length - 1 else text.length) then fail .numberRange start
    else numeralOf text >>= fun value => .ok (value, first + length)

theorem bignumAt_some (h : bytes[next]? = some byte) : bignumAt bytes start next negative =
      if byte >>> 5 ≠ 2 then fail (.unsupported "bignum without a byte string") next
      else argument bytes next >>= fun p =>
        if bytes.length - p.2 < p.1 then fail .unexpectedEnd bytes.length
        else bignumBody bytes start negative p.1 p.2 := by
  rw [bignumAt, h]
  rfl

theorem bignumBody_next (h : bignumBody bytes start negative length first = .ok (v, last)) : last = first + length := by
  obtain ⟨-, h⟩ := if_fail_ok h
  obtain ⟨-, h⟩ := if_fail_ok h
  exact numeralOf_next h

theorem bignumBody_cut (h : first + length ≤ p.length) : Cut p (bignumBody (p ++ q) start negative length first)
      (bignumBody p start negative length first) := by
  have heq : bignumBody (p ++ q) start negative length first = bignumBody p start negative length first := by
    rw [bignumBody, bignumBody, slice_prefix h]
  rw [heq]
  exact Cut.of_le fun hrun => (bignumBody_next hrun).trans_le h

theorem bignumAt_cut (hnext : next ≤ p.length) :
    Cut p (bignumAt (p ++ q) start next negative) (bignumAt p start next negative) := by
  by_cases hend : next = p.length
  · intro v last hwhole
    have hlt := bignumAt_lt hwhole
    have hnone : p[next]? = none := getElem?_eq_none (by omega)
    refine ⟨fun hle => by omega, fun _ => ?_⟩
    rw [bignumAt, hnone]
  have hnext : next < p.length := by omega
  have hget : p[next]? = some p[next] := getElem?_eq_getElem hnext
  rw [bignumAt_some hget, bignumAt_some ((get_appended hnext).symm.trans hget)]
  by_cases hmajor : p[next] >>> 5 ≠ 2
  · rw [if_pos hmajor, if_pos hmajor]
    intro v last hwhole
    cases hwhole
  rw [if_neg hmajor, if_neg hmajor]
  refine (argument_cut hnext).bind (fun {a first b last} hrun => ?_) (fun {length first} _ hfirst => ?_)
  · have := bignumBody_next (if_fail_ok hrun).2
    omega
  · refine Cut.if_fail (Cut.measured hfirst (fun hrun => (bignumBody_next hrun).ge) ?_)
    exact bignumBody_cut

theorem floatAt_cut (text : Nat → Option (List Nat)) (h : start < p.length) :
    Cut p (floatAt text (p ++ q) start) (floatAt text p start) := by
  intro v next hwhole
  obtain ⟨bits, t, hhead, ht, hvalue⟩ := floatAt_ok hwhole
  obtain ⟨hin, hout⟩ := argument_cut h bits next hhead
  refine ⟨fun hle => ?_, fun hlt => ?_⟩
  · unfold floatAt
    rw [hin hle, ok_then]
    simp only [ht, hvalue, ok_then]
  · unfold floatAt
    rw [hout hlt]
    rfl

theorem simple_cut (floats : Floats) (info : Nat) (h : start < p.length) :
    Cut p (simple floats (p ++ q) start info) (simple floats p start info) := by
  rcases simple_cases floats start info with ⟨w, hw⟩ | ⟨text, hfloat⟩ | hbad
  · rw [hw, hw]
    refine Cut.of_le fun hrun => ?_
    cases hrun
    omega
  · rw [hfloat, hfloat]
    exact floatAt_cut text h
  · exact fun v next hwhole => absurd hwhole (hbad _ _)

/-! ### Containers -/

section Containers

variable {value value' : Nat → Run (Json.Value × Nat)} (hgrows : Grows value)
  (hcut : ∀ position, Cut p (value position) (value' position))

include hgrows hcut

theorem itemsAt_cut (count : Nat) (items : List Json.Value) (h : position ≤ p.length) :
    Cut p (itemsAt value count items position) (itemsAt value' count items position) := by
  induction count generalizing items position with
  | zero =>
    refine Cut.of_le fun hrun => ?_
    cases hrun
    exact h
  | succ count ih =>
    refine (hcut position).bind (fun {a next b last} hrun => ?_) (fun {element next} _ hnext => ?_)
    · have := itemsAt_ge hgrows hrun
      omega
    · exact ih _ hnext

theorem membersAt_cut (count : Nat) (members : List (Str × Json.Value)) (offsets : List Nat) (h : position ≤ p.length) :
    Cut p (membersAt value (p ++ q) count members offsets position)
      (membersAt value' p count members offsets position) := by
  induction count generalizing members offsets position with
  | zero =>
    refine Cut.of_le fun hrun => ?_
    cases hrun
    exact h
  | succ count ih =>
    intro found last hwhole
    obtain ⟨hmajor, key, after, element, next, hkey, helement, hmore⟩ := membersAt_succ_ok hwhole
    have hkeylt := hgrows hkey
    have hvaluelt := hgrows helement
    have hrest := membersAt_ge hgrows hmore
    have hmajor' : ¬ p[position]?.any (fun byte => byte >>> 5 ≠ 3) := by
      by_cases hin : position < p.length
      · rw [get_appended (q := q) hin]
        exact hmajor
      · rw [getElem?_eq_none (by omega)]
        simp
    obtain ⟨hkeyin, hkeyout⟩ := hcut position _ _ hkey
    obtain ⟨helementin, helementout⟩ := hcut after _ _ helement
    rw [membersAt, if_neg hmajor']
    by_cases hafter : after ≤ p.length
    · rw [hkeyin hafter, ok_then]
      by_cases hnext : next ≤ p.length
      · simp only [helementin hnext, ok_then]
        exact ih _ _ hnext found last hmore
      · simp only [helementout (by omega)]
        exact ⟨fun hle => by omega, fun _ => rfl⟩
    · rw [hkeyout (by omega)]
      exact ⟨fun hle => by omega, fun _ => rfl⟩

theorem containerAt_cut (hmajor : major = 4 ∨ major = 5) (h : next ≤ p.length) :
    Cut p (containerAt value (p ++ q) major start count next depth)
      (containerAt value' p major start count next depth) := by
  intro v last hwhole
  obtain ⟨hdepth, hwhole⟩ := containerAt_ok hwhole
  unfold containerAt
  simp only
  rw [if_neg (by omega)]
  rcases hwhole with ⟨rfl, items, hitems, rfl⟩ | ⟨h4, members, offsets, hmembers, hclose⟩
  · have hge := itemsAt_ge hgrows hitems
    obtain ⟨hin, hout⟩ := itemsAt_cut hgrows hcut count [] h _ _ hitems
    refine ⟨fun hle => ?_, fun hlt => ?_⟩
    · rw [if_neg (by omega), if_neg (by omega), if_pos rfl, hin hle]
      rfl
    · by_cases hroom : p.length - next < count
      · rw [if_pos ⟨rfl, hroom⟩]
      · rw [if_neg (by omega), if_neg (by omega), if_pos rfl, hout hlt]
        rfl
  · have h5 : major = 5 := by omega
    have hge := membersAt_ge hgrows hmembers
    obtain ⟨hin, hout⟩ := membersAt_cut hgrows hcut count [] [] h _ _ hmembers
    rw [if_neg (by omega)]
    refine ⟨fun hle => ?_, fun hlt => ?_⟩
    · rw [if_neg (by omega), if_neg h4, hin hle, ok_then]
      exact hclose
    · by_cases hroom : (p.length - next) / 2 < count
      · rw [if_pos ⟨h5, hroom⟩]
      · rw [if_neg (by omega), if_neg h4, hout hlt]
        rfl

theorem behindHead_cut (h : next ≤ p.length) : Cut p (behindHead value (p ++ q) major start depth (count, next))
      (behindHead value' p major start depth (count, next)) := by
  have hnumber : ∀ text : List Nat, Cut p (numeralOf text >>= fun value => .ok (value, next))
        (numeralOf text >>= fun value => .ok (value, next)) :=
    fun text => Cut.of_le fun hrun => (numeralOf_next hrun).trans_le h
  unfold behindHead
  simp only
  by_cases h0 : major = 0
  · rw [if_pos h0, if_pos h0]
    exact hnumber _
  rw [if_neg h0, if_neg h0]
  by_cases h1 : major = 1
  · rw [if_pos h1, if_pos h1]
    exact hnumber _
  rw [if_neg h1, if_neg h1]
  by_cases h2 : major = 2
  · rw [if_pos h2]
    intro v last hwhole
    cases hwhole
  rw [if_neg h2, if_neg h2]
  by_cases h3 : major = 3
  · rw [if_pos h3, if_pos h3]
    exact Cut.if_fail (Cut.measured h (fun hrun => (textAt_next hrun).ge) textAt_cut)
  rw [if_neg h3, if_neg h3]
  by_cases h45 : major = 4 ∨ major = 5
  · rw [if_pos h45, if_pos h45]
    exact containerAt_cut hgrows hcut h45 h
  rw [if_neg h45, if_neg h45]
  by_cases htag : count = 2 ∨ count = 3
  · rw [if_pos htag, if_pos htag]
    exact bignumAt_cut h
  · rw [if_neg htag]
    intro v last hwhole
    cases hwhole

end Containers

theorem valueAt_cut (floats : Floats) (fuel start depth : Nat) :
    Cut p (valueAt floats (p ++ q) fuel start depth) (valueAt floats p fuel start depth) := by
  induction fuel generalizing start depth with
  | zero =>
    intro v next hwhole
    cases hwhole
  | succ fuel ih =>
    by_cases hstart : start < p.length
    · have hget : p[start]? = some p[start] := getElem?_eq_getElem hstart
      rw [valueAt_succ hget, valueAt_succ ((get_appended hstart).symm.trans hget)]
      by_cases h7 : p[start] >>> 5 = 7
      · rw [if_pos h7, if_pos h7]
        exact simple_cut floats _ hstart
      rw [if_neg h7, if_neg h7]
      have hgrows := @valueAt_grows floats (p ++ q) fuel (depth + 1)
      refine (argument_cut hstart).bind (fun {a next b last} hrun => ?_) (fun {count next} _ hnext => ?_)
      · exact behindHead_ge hgrows hrun
      · exact behindHead_cut hgrows (fun position => ih position (depth + 1)) hnext
    · intro v next hwhole
      have hlt := valueAt_grows floats (p ++ q) (fuel + 1) depth hwhole
      refine ⟨fun hle => by omega, fun _ => ?_⟩
      rw [valueAt, getElem?_eq_none (by omega)]

/-- Whatever an input holds that is decoded, every proper prefix of it is reported as cut, at its
end. -/
theorem decode_prefix {floats : Floats} {b p : List Nat} {v : Json.Value}
    (h : decode floats b = .ok v) (hp : p <+: b) (hne : p ≠ b) :
    decode floats p = fail .unexpectedEnd p.length := by
  obtain ⟨q, rfl⟩ := hp
  have hq : 0 < q.length := length_pos_iff.mpr fun hq => hne (by rw [hq, append_nil])
  unfold decode at h ⊢
  obtain ⟨hsize, h⟩ := if_fail_ok h
  obtain ⟨⟨value, next⟩, hvalue, h⟩ := run_bind_ok.mp h
  obtain ⟨hend, h⟩ := if_fail_ok h
  rw [length_append] at hsize hend
  have hcut := (valueAt_cut floats 130 0 0 value next hvalue).2 (by omega)
  rw [if_neg (by omega), hcut]
  rfl

theorem decode_prefix_text : decode noFloats [130, 1, 98, 97] = fail .unexpectedEnd 4 :=
  decode_prefix (b := [130, 1, 98, 97, 98]) (v := .items [.number [49], .text [97, 98]])
    (by rfl) ⟨[98], rfl⟩ (by decide)

end Tsuzuri.Cbor
