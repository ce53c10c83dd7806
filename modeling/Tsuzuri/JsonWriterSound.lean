import Tsuzuri.JsonWriter
import Tsuzuri.JsonEmitSound

/-!
# The writer writes the value that its operations describe

`Matches` ties a writer to a draft: the kinds of the containers, the place in the innermost one, and the bytes that
`emit_value` would have written.
-/

namespace Tsuzuri.Json

open FaultVec Unicode List Tsuzuri.Json.Value

/-! ## What the emitter accepts -/

theorem emitItems_append (output : List Nat) (index : Nat) (vs ws : List Value) : emitItems output index (vs ++ ws) =
      (emitItems output index vs >>= fun bytes => emitItems bytes (index + vs.length) ws) := by
  induction vs generalizing output index with
  | nil => simp [emitItems]
  | cons v vs ih =>
    rw [cons_append, emitItems, emitItems]
    cases emitValue (separated output index) v with
    | error e => rfl
    | ok bytes =>
      rw [ok_bind, ok_bind, ih, length_cons, Nat.add_right_comm, Nat.add_assoc]

theorem emitMembers_append (output : List Nat) (index : Nat) (ms ns : List (Str × Value)) :
    emitMembers output index (ms ++ ns) =
      (emitMembers output index ms >>= fun bytes => emitMembers bytes (index + ms.length) ns) := by
  induction ms generalizing output index with
  | nil => simp [emitMembers]
  | cons m ms ih =>
    rw [cons_append, emitMembers, emitMembers]
    cases emitMember (separated output index) m with
    | error e => rfl
    | ok bytes =>
      rw [ok_bind, ok_bind, ih, length_cons, Nat.add_right_comm, Nat.add_assoc]

theorem emitItems_numerals : ∀ {vs : List Value} {output bytes : List Nat} {index : Nat},
    (∀ v ∈ vs, ∀ output bytes, emitValue output v = .ok bytes → v.numerals) →
    emitItems output index vs = .ok bytes → ∀ v ∈ vs, v.numerals
  | [], _, _, _, _, _ => by simp
  | v :: vs, output, bytes, index, hall, h => by
    rw [emitItems] at h
    obtain ⟨b, hb, h⟩ := FaultVec.bind_ok.mp h
    intro w hw
    rcases mem_cons.mp hw with rfl | hw
    · exact hall w mem_cons_self _ _ hb
    · exact emitItems_numerals (fun v hv => hall v (mem_cons_of_mem _ hv)) h w hw

theorem emitMembers_numerals : ∀ {ms : List (Str × Value)} {output bytes : List Nat} {index : Nat},
    (∀ m ∈ ms, ∀ output bytes, emitValue output m.2 = .ok bytes → m.2.numerals) →
    emitMembers output index ms = .ok bytes → ∀ m ∈ ms, m.2.numerals
  | [], _, _, _, _, _ => by simp
  | (key, v) :: ms, output, bytes, index, hall, h => by
    rw [emitMembers] at h
    obtain ⟨b, hb, h⟩ := FaultVec.bind_ok.mp h
    intro m hm
    rcases mem_cons.mp hm with rfl | hm
    · rw [emitMember] at hb
      exact hall (key, v) mem_cons_self _ _ hb
    · exact emitMembers_numerals (fun m hm => hall m (mem_cons_of_mem _ hm)) h m hm

theorem emitValue_numerals : ∀ (n : Nat) {v : Value}, v.depth ≤ n → ∀ output bytes,
    emitValue output v = .ok bytes → v.numerals := by
  intro n
  induction n with
  | zero =>
    intro v hdepth output bytes h
    cases v with
    | number t =>
      rw [emitValue] at h
      cases hn : isNumeral t with
      | false =>
        rw [hn] at h
        cases h
      | true => simpa [numerals] using isNumeral_iff.mp hn
    | items vs | object ms => simp [depth] at hdepth
    | null | bool flag | text units => simp [numerals]
  | succ n ih =>
    intro v hdepth output bytes h
    cases v with
    | number t =>
      rw [emitValue] at h
      cases hn : isNumeral t with
      | false =>
        rw [hn] at h
        cases h
      | true => simpa [numerals] using isNumeral_iff.mp hn
    | items vs =>
      rw [emitValue] at h
      obtain ⟨b, hb, -⟩ := FaultVec.bind_ok.mp h
      rw [numerals, numeralsItems_iff]
      rw [depth] at hdepth
      refine emitItems_numerals (fun v hv => ?_) hb
      have := depthItems_le hv
      exact ih (by omega)
    | object ms =>
      rw [emitValue] at h
      obtain ⟨b, hb, -⟩ := FaultVec.bind_ok.mp h
      rw [numerals, numeralsMembers_iff]
      rw [depth] at hdepth
      refine emitMembers_numerals (fun m hm => ?_) hb
      have := depthMembers_le hm
      exact ih (by omega)
    | null | bool flag | text units => simp [numerals]

variable {v : Value} {frames : List Frame} {out bytes : List Nat} {op : Operation} {frame : Frame}
  {object : Bool} {w : Writer} {d : Draft}

theorem emitValue_ok_iff (output : List Nat) : (∃ bytes, emitValue output v = .ok bytes) ↔ v.numerals := by
  constructor
  · rintro ⟨bytes, h⟩
    exact emitValue_numerals v.depth le_rfl output bytes h
  · intro h
    obtain ⟨t, -, -, hrun⟩ := emitValue_writes v.depth v le_rfl h
    exact ⟨_, hrun output⟩

def Operation.numerals : Operation → Prop
  | .number numeral => Numeral numeral
  | .json value => value.numerals
  | _ => True

def Operation.opens : Operation → Bool
  | .openArray => true
  | .openObject => true
  | _ => false

def Frame.isObject : Frame → Bool
  | .items _ => false
  | _ => true

def containersOf (frames : List Frame) : List Bool :=
  (frames.map Frame.isObject).reverse

/-- The `state` of a writer with these open containers. -/
def place : List Frame → Nat
  | [] => 0
  | .items [] :: _ => 2
  | .items (_ :: _) :: _ => 1
  | .members [] :: _ => 4
  | .members (_ :: _) :: _ => 1
  | .member _ _ :: _ => 6

def slot : List Frame → List Nat → List Nat
  | .items (_ :: _) :: _, bytes => bytes ++ [44]
  | _, bytes => bytes

/-- The bytes are what the emitter writes for the open containers. -/
inductive Renders : List Frame → List Nat → Prop
  | start : Renders [] []
  | items {outer : List Frame} {vs : List Value} {out bytes : List Nat} (h : Renders outer out)
      (hslot : Draft.hasSlot outer = true)
      (hrun : emitItems (slot outer out ++ [91]) 0 vs = .ok bytes) :
      Renders (.items vs :: outer) bytes
  | members {outer : List Frame} {ms : List (Str × Value)} {out bytes : List Nat}
      (h : Renders outer out) (hslot : Draft.hasSlot outer = true)
      (hrun : emitMembers (slot outer out ++ [123]) 0 ms = .ok bytes) :
      Renders (.members ms :: outer) bytes
  | member {outer : List Frame} {ms : List (Str × Value)} {key : Str} {out bytes : List Nat}
      (h : Renders outer out) (hslot : Draft.hasSlot outer = true)
      (hrun : emitMembers (slot outer out ++ [123]) 0 ms = .ok bytes) :
      Renders (.member ms key :: outer) (emitString (separated bytes ms.length) key ++ [58])

inductive Matches : Writer → Draft → Prop
  | within {frames : List Frame} {bytes : List Nat} (h : Renders frames bytes) :
      Matches { bytes, containers := containersOf frames, state := place frames } (.within frames)
  | complete {v : Value} {bytes : List Nat} (h : emitValue [] v = .ok bytes) :
      Matches { bytes, containers := [], state := 7 } (.complete v)

theorem containersOf_last (frame : Frame) (outer : List Frame) :
    (containersOf (frame :: outer)).getLast? = some frame.isObject := by
  simp [containersOf]

theorem containersOf_ne_nil (frame : Frame) (outer : List Frame) : (containersOf (frame :: outer)).isEmpty = false := by
  simp [containersOf]

def Refused (d : Draft) (op : Operation) : Prop :=
  d.step op = none ∨ ¬ op.numerals ∨ (op.opens = true ∧ 128 ≤ d.depth)

def Follows (w : Writer) (d : Draft) (op : Operation) : Prop :=
  (Refused d op ∧ ∃ stop, w.apply op = .error stop) ∨
    (¬ Refused d op ∧ ∃ next draft, w.apply op = .ok next ∧ d.step op = some draft ∧ Matches next draft)

theorem separated_items (vs : List Value) (outer : List Frame) (bytes : List Nat) :
    separated bytes vs.length = slot (.items vs :: outer) bytes := by
  cases vs with
  | nil => rfl
  | cons v vs => exact if_pos (Nat.succ_pos _)

theorem valueSlot_ok (bytes : List Nat) (h : Draft.hasSlot frames = true) :
    Writer.valueSlot { bytes, containers := containersOf frames, state := place frames } =
      .ok { bytes := slot frames bytes, containers := containersOf frames, state := place frames } := by
  unfold Writer.valueSlot
  cases frames with
  | nil => rfl
  | cons frame outer =>
    simp only [containersOf_last]
    cases frame with
    | items vs =>
      cases vs with
      | nil => rfl
      | cons v vs => rfl
    | members ms => cases h
    | member ms key => rfl

theorem valueSlot_error (bytes : List Nat) (h : Draft.hasSlot frames = false) :
    ∃ stop, Writer.valueSlot { bytes, containers := containersOf frames, state := place frames } = .error stop := by
  unfold Writer.valueSlot
  cases frames with
  | nil => cases h
  | cons frame outer =>
    simp only [containersOf_last]
    cases frame with
    | items vs => cases h
    | members ms =>
      cases ms with
      | nil => exact ⟨_, rfl⟩
      | cons m ms => exact ⟨_, rfl⟩
    | member ms key => cases h

theorem put_eq_none (v : Value) : Draft.put frames v = none ↔ Draft.hasSlot frames = false := by
  cases frames with
  | nil => simp [Draft.put, Draft.hasSlot]
  | cons frame outer =>
    cases frame with
    | items vs | members ms | member ms key => simp [Draft.put, Draft.hasSlot]

theorem put_matches (h : Renders frames out) (hslot : Draft.hasSlot frames = true)
    (hrun : emitValue (slot frames out) v = .ok bytes) :
    ∃ d, Draft.put frames v = some d ∧ Matches (Writer.wrote (containersOf frames) bytes) d := by
  cases h with
  | start => exact ⟨.complete v, rfl, .complete hrun⟩
  | @items outer vs out' bytes' h' hslot' hrun' =>
    refine ⟨.within (.items (vs ++ [v]) :: outer), rfl, ?_⟩
    have hall : emitItems (slot outer out' ++ [91]) 0 (vs ++ [v]) = .ok bytes := by
      rw [emitItems_append, hrun', ok_bind, Nat.zero_add, emitItems, separated_items vs outer, hrun]
      rfl
    have hplace : place (.items (vs ++ [v]) :: outer) = 1 := by
      cases vs with
      | nil => rfl
      | cons w vs => rfl
    have := Matches.within (Renders.items h' hslot' hall)
    rw [hplace] at this
    rw [Writer.wrote, containersOf_ne_nil]
    exact this
  | members h' hslot' hrun' => cases hslot
  | @member outer ms key out' bytes' h' hslot' hrun' =>
    refine ⟨.within (.members (ms ++ [(key, v)]) :: outer), rfl, ?_⟩
    have hall : emitMembers (slot outer out' ++ [123]) 0 (ms ++ [(key, v)]) = .ok bytes := by
      change emitValue (emitString (separated bytes' ms.length) key ++ [58]) v = .ok bytes at hrun
      rw [emitMembers_append, hrun', ok_bind, Nat.zero_add, emitMembers, emitMember, hrun]
      rfl
    have hplace : place (.members (ms ++ [(key, v)]) :: outer) = 1 := by
      cases ms with
      | nil => rfl
      | cons m ms => rfl
    have := Matches.within (Renders.members h' hslot' hall)
    rw [hplace] at this
    rw [Writer.wrote, containersOf_ne_nil]
    exact this

theorem follows_writeWith {emit : List Nat → Exec (List Nat)} (h : Renders frames out)
    (hstep : Draft.stepWithin frames op = Draft.put frames v) (hnum : op.numerals ↔ v.numerals)
    (hopens : op.opens = false) (hemit : ∀ out, emit out = emitValue out v)
    (happly : ∀ w : Writer, w.apply op = w.writeWith emit) :
    Follows { bytes := out, containers := containersOf frames, state := place frames } (.within frames) op := by
  unfold Follows Refused
  rw [happly, hopens, hnum, show (Draft.within frames).step op = _ from hstep, put_eq_none]
  unfold Writer.writeWith
  cases hslot : Draft.hasSlot frames with
  | false =>
    left
    obtain ⟨stop, hstop⟩ := valueSlot_error out hslot
    exact ⟨.inl rfl, stop, by rw [hstop]; rfl⟩
  | true =>
    rw [valueSlot_ok out hslot]
    change _ ∧ (∃ stop, (orTrap (emit (slot frames out)) >>= _) = _) ∨ _ ∧ ∃ next draft,
      (orTrap (emit (slot frames out)) >>= _) = _ ∧ _
    rw [hemit]
    cases hrun : emitValue (slot frames out) v with
    | ok bytes =>
      right
      have hv : v.numerals := (emitValue_ok_iff _).mp ⟨bytes, hrun⟩
      obtain ⟨d, hput, hmatch⟩ := put_matches h hslot hrun
      exact ⟨by simp [hv], _, d, rfl, hput, hmatch⟩
    | error fault =>
      left
      refine ⟨.inr (.inl fun hv => ?_), _, rfl⟩
      obtain ⟨bytes, hbytes⟩ := (emitValue_ok_iff (slot frames out)).mpr hv
      rw [hrun] at hbytes
      cases hbytes

/-! ## Containers -/

theorem length_containersOf (frames : List Frame) : (containersOf frames).length = frames.length := by
  simp [containersOf]

theorem follows_push (hstep : Draft.stepWithin frames op = Draft.push frame frames) (hnum : op.numerals)
    (hopens : op.opens = true) (happly : ∀ w : Writer, w.apply op = w.openWriter object)
    (hmatch : Draft.hasSlot frames = true → Matches
        { bytes := slot frames out ++ [if object then 123 else 91]
          containers := containersOf frames ++ [object]
          state := if object then 4 else 2 } (.within (frame :: frames))) :
    Follows { bytes := out, containers := containersOf frames, state := place frames } (.within frames) op := by
  unfold Follows Refused
  rw [happly, hopens, show (Draft.within frames).step op = _ from hstep]
  unfold Writer.openWriter Draft.push
  simp only [length_containersOf]
  by_cases hdeep : 128 ≤ frames.length
  · left
    rw [if_pos hdeep]
    exact ⟨.inr (.inr ⟨trivial, hdeep⟩), _, rfl⟩
  rw [if_neg hdeep]
  cases hslot : Draft.hasSlot frames with
  | false =>
    left
    obtain ⟨stop, hstop⟩ := valueSlot_error out hslot
    exact ⟨.inl rfl, stop, by rw [hstop]; rfl⟩
  | true =>
    right
    rw [valueSlot_ok out hslot]
    refine ⟨?_, _, _, rfl, rfl, hmatch hslot⟩
    rintro (hnone | hbad | ⟨-, hd⟩)
    · cases hnone
    · exact hbad hnum
    · exact hdeep hd

theorem follows_openArray (h : Renders frames out) :
    Follows { bytes := out, containers := containersOf frames, state := place frames } (.within frames) .openArray := by
  refine follows_push rfl trivial rfl (fun w => rfl) fun hslot => ?_
  have hrun : emitItems (slot frames out ++ [91]) 0 [] = .ok (slot frames out ++ [91]) := rfl
  have := Matches.within (Renders.items h hslot hrun)
  simpa [containersOf, Frame.isObject, place] using this

theorem follows_openObject (h : Renders frames out) :
    Follows { bytes := out, containers := containersOf frames, state := place frames }
      (.within frames) .openObject := by
  refine follows_push rfl trivial rfl (fun w => rfl) fun hslot => ?_
  have hrun : emitMembers (slot frames out ++ [123]) 0 [] = .ok (slot frames out ++ [123]) := rfl
  have := Matches.within (Renders.members h hslot hrun)
  simpa [containersOf, Frame.isObject, place] using this

theorem containersOf_dropLast (frame : Frame) (outer : List Frame) :
    (containersOf (frame :: outer)).dropLast = containersOf outer := by
  simp [containersOf]

theorem follows_close {outer : List Frame} {out' : List Nat} (object : Bool) (h : Renders outer out')
    (hslot : Draft.hasSlot outer = true)
    (hrun : emitValue (slot outer out') v = .ok (out ++ [if object then 125 else 93]))
    (hstep : Draft.stepWithin (frame :: outer) op = Draft.put outer v) (hnum : op.numerals)
    (hopens : op.opens = false) (happly : ∀ w : Writer, w.apply op = w.closeWriter object)
    (hkind : frame.isObject = object) (hready : place (frame :: outer) = 1 ∨
      (object ∧ place (frame :: outer) = 4) ∨ (¬ object ∧ place (frame :: outer) = 2)) :
    Follows { bytes := out, containers := containersOf (frame :: outer), state := place (frame :: outer) }
      (.within (frame :: outer)) op := by
  obtain ⟨d, hput, hmatch⟩ := put_matches h hslot hrun
  right
  unfold Refused
  rw [happly, hopens, show (Draft.within (frame :: outer)).step op = _ from hstep, hput]
  refine ⟨?_, _, d, ?_, rfl, hmatch⟩
  · rintro (hnone | hbad | ⟨hbad, -⟩)
    · cases hnone
    · exact hbad hnum
    · cases hbad
  · unfold Writer.closeWriter
    simp only [containersOf_last, containersOf_dropLast, hkind]
    rw [if_neg (by
      rintro (hbad | hbad)
      · exact hbad trivial
      · exact hbad hready)]
    rfl

theorem follows_refused (hstep : d.step op = none) (hfails : ∃ stop, w.apply op = .error stop) : Follows w d op :=
  .inl ⟨.inl hstep, hfails⟩

theorem closeWriter_error (h : w.containers.getLast? ≠ some object ∨
      ¬ (w.state = 1 ∨ (object ∧ w.state = 4) ∨ (¬ object ∧ w.state = 2))) :
    ∃ stop, w.closeWriter object = .error stop := by
  unfold Writer.closeWriter
  simp only
  exact ⟨_, if_pos h⟩

theorem follows_closeArray (h : Renders frames out) :
    Follows { bytes := out, containers := containersOf frames, state := place frames }
      (.within frames) .closeArray := by
  cases h with
  | start => exact follows_refused rfl ⟨_, rfl⟩
  | @items outer vs out' bytes' h' hslot' hrun' =>
    refine follows_close (v := .items vs) false h' hslot' ?_ rfl trivial rfl (fun w => rfl) rfl ?_
    · rw [emitValue, hrun']
      rfl
    · cases vs with
      | nil => exact .inr (.inr ⟨by simp, rfl⟩)
      | cons v vs => exact .inl rfl
  | members h' hslot' hrun' | member h' hslot' hrun' =>
    refine follows_refused rfl (closeWriter_error (.inl ?_))
    rw [containersOf_last]
    simp [Frame.isObject]

theorem follows_closeObject (h : Renders frames out) :
    Follows { bytes := out, containers := containersOf frames, state := place frames }
      (.within frames) .closeObject := by
  cases h with
  | start => exact follows_refused rfl ⟨_, rfl⟩
  | items h' hslot' hrun' =>
    refine follows_refused rfl (closeWriter_error (.inl ?_))
    rw [containersOf_last]
    simp [Frame.isObject]
  | @members outer ms out' bytes' h' hslot' hrun' =>
    refine follows_close (v := .object ms) true h' hslot' ?_ rfl trivial rfl (fun w => rfl) rfl ?_
    · rw [emitValue, hrun']
      rfl
    · cases ms with
      | nil => exact .inr (.inl ⟨rfl, rfl⟩)
      | cons m ms => exact .inl rfl
  | member h' hslot' hrun' =>
    refine follows_refused rfl (closeWriter_error (.inr ?_))
    simp [place]

theorem writeKey_error {key : Str} (h : w.containers.getLast? ≠ some true ∨ (w.state ≠ 4 ∧ w.state ≠ 1)) :
    ∃ stop, w.writeKey key = .error stop := by
  unfold Writer.writeKey
  exact ⟨_, if_pos h⟩

theorem follows_key (units : Str) (h : Renders frames out) :
    Follows { bytes := out, containers := containersOf frames, state := place frames }
      (.within frames) (.key units) := by
  have hwrite : ∀ w : Writer, w.apply (.key units) = w.writeKey units := fun w => rfl
  cases h with
  | start => exact follows_refused rfl ⟨_, rfl⟩
  | items h' hslot' hrun' =>
    refine follows_refused rfl (writeKey_error (.inl ?_))
    rw [containersOf_last]
    simp [Frame.isObject]
  | @members outer ms out' bytes' h' hslot' hrun' =>
    right
    unfold Refused
    refine ⟨?_, _, _, ?_, rfl, .within (.member h' hslot' hrun')⟩
    · rintro (hnone | hbad | ⟨hbad, -⟩)
      · cases hnone
      · exact hbad trivial
      · cases hbad
    · have hstate : place (.members ms :: outer) = 4 ∨ place (.members ms :: outer) = 1 := by
        cases ms with
        | nil => exact .inl rfl
        | cons m ms => exact .inr rfl
      have hcomma : (if place (.members ms :: outer) = 1 then out ++ [44] else out) = separated out ms.length := by
        cases ms with
        | nil => rfl
        | cons m ms => rfl
      rw [hwrite, Writer.writeKey, if_neg]
      · rw [hcomma]
        rfl
      · rw [containersOf_last]
        rintro (hbad | ⟨h4, h1⟩)
        · exact hbad rfl
        · rcases hstate with hstate | hstate
          · exact h4 hstate
          · exact h1 hstate
  | member h' hslot' hrun' =>
    refine follows_refused rfl (writeKey_error (.inr ?_))
    simp [place]

/-! ## Runs -/

theorem follows_within (op : Operation) (h : Renders frames out) :
    Follows { bytes := out, containers := containersOf frames, state := place frames } (.within frames) op := by
  cases op with
  | null =>
    exact follows_writeWith (v := .null) h rfl (by simp [Operation.numerals, numerals]) rfl
      (fun out => by rw [emitValue]) (fun w => rfl)
  | bool flag =>
    exact follows_writeWith (v := .bool flag) h rfl (by simp [Operation.numerals, numerals]) rfl
      (fun out => by rw [emitValue]) (fun w => rfl)
  | number numeral =>
    cases hn : isNumeral numeral with
    | false =>
      left
      refine ⟨.inr (.inl fun h => ?_), _, if_pos hn⟩
      rw [isNumeral_iff.mpr h] at hn
      cases hn
    | true =>
      refine follows_writeWith (v := .number numeral) h rfl (by simp [Operation.numerals, numerals])
        rfl (fun out => ?_) (fun w => if_neg (by simp [hn]))
      rw [emitValue, hn]
      rfl
  | text units =>
    exact follows_writeWith (v := .text units) h rfl (by simp [Operation.numerals, numerals]) rfl
      (fun out => by rw [emitValue]) (fun w => rfl)
  | json value =>
    exact follows_writeWith (v := value) h rfl Iff.rfl rfl (fun out => rfl) (fun w => rfl)
  | key units => exact follows_key units h
  | openArray => exact follows_openArray h
  | closeArray => exact follows_closeArray h
  | openObject => exact follows_openObject h
  | closeObject => exact follows_closeObject h

theorem apply_complete (bytes : List Nat) (op : Operation) :
    ∃ stop, Writer.apply { bytes, containers := [], state := 7 } op = .error stop := by
  cases op with
  | number numeral =>
    cases hn : isNumeral numeral with
    | false => exact ⟨_, if_pos hn⟩
    | true => exact ⟨_, if_neg (by simp [hn])⟩
  | null => exact ⟨_, rfl⟩
  | bool flag => exact ⟨_, rfl⟩
  | text units => exact ⟨_, rfl⟩
  | json value => exact ⟨_, rfl⟩
  | key units => exact ⟨_, rfl⟩
  | openArray => exact ⟨_, rfl⟩
  | closeArray => exact ⟨_, rfl⟩
  | openObject => exact ⟨_, rfl⟩
  | closeObject => exact ⟨_, rfl⟩

theorem apply_follows (h : Matches w d) (op : Operation) : Follows w d op := by
  cases h with
  | within h => exact follows_within op h
  | complete h => exact follows_refused rfl (apply_complete _ op)

theorem run_matches : ∀ {ops : List Operation} {w w' : Writer} {d : Draft}, Matches w d →
    w.run ops = .ok w' → ∃ d', d.run ops = some d' ∧ Matches w' d'
  | [], w, w', d, h, hrun => by
    obtain rfl : w = w' := Except.ok.inj hrun
    exact ⟨d, rfl, h⟩
  | op :: ops, w, w', d, h, hrun => by
    rcases apply_follows h op with ⟨-, stop, hstop⟩ | ⟨-, next, draft, happly, hstep, hmatch⟩
    · rw [Writer.run, hstop] at hrun
      cases hrun
    · rw [Writer.run, happly] at hrun
      obtain ⟨d', hd', hm'⟩ := run_matches hmatch hrun
      refine ⟨d', ?_, hm'⟩
      rw [Draft.run, hstep]
      exact hd'

theorem place_ne_done (frames : List Frame) : place frames ≠ 7 := by
  unfold place
  split
  all_goals simp

theorem finish_complete (h : emitValue [] v = .ok bytes) :
    ∃ text, Writer.finish { bytes, containers := [], state := 7 } = .ok text ∧
      toUtf8String v = .ok text ∧ Denotes v.depth v text.bytes := by
  obtain ⟨text, htext, hden⟩ := toUtf8String_denotes (emitValue_numerals v.depth le_rfl [] bytes h)
  refine ⟨text, ?_, htext, hden⟩
  rw [toUtf8String, h, ok_bind] at htext
  unfold Writer.finish
  rw [if_neg (by simp), htext]
  rfl

/-- After any operations that succeed, the next one fails exactly when it is not legal in the open
containers, writes a number that is no numeral, or opens a container inside 128 others. `finish`
fails exactly when the value is not complete, and gives the text of the value that the operations
describe. That text is read back unless it is too large, too deep or repeats a key. -/
theorem run_writes (ops : List Operation) (w : Writer) (h : writer.run ops = .ok w) :
    ∃ d, (Draft.within []).run ops = some d ∧ (∀ op, (∃ stop, w.apply op = .error stop) ↔
        d.step op = none ∨ ¬ op.numerals ∨ (op.opens = true ∧ 128 ≤ d.depth)) ∧
      ((∃ stop, w.finish = .error stop) ↔ ∃ frames, d = .within frames) ∧
      ∀ text, w.finish = .ok text → ∃ v, d = .complete v ∧ toUtf8String v = .ok text ∧ (parse text = .ok v ↔
          text.bytes.length ≤ maxLength ∧ v.depth ≤ 128 ∧ v.distinct) := by
  obtain ⟨d, hd, hmatch⟩ := run_matches (.within .start) h
  refine ⟨d, hd, fun op => ?_, ?_⟩
  · rcases apply_follows hmatch op with ⟨href, hstop⟩ | ⟨href, next, draft, happly, -, -⟩
    · exact ⟨fun _ => href, fun _ => hstop⟩
    · refine ⟨?_, fun h => absurd h href⟩
      rintro ⟨stop, hstop⟩
      rw [happly] at hstop
      cases hstop
  cases hmatch with
  | @within frames bytes hrenders =>
    have hfail : Writer.finish { bytes, containers := containersOf frames, state := place frames }
        = fail .unexpectedEnd bytes.length := if_pos (place_ne_done frames)
    refine ⟨⟨fun _ => ⟨frames, rfl⟩, fun _ => ⟨_, hfail⟩⟩, fun text htext => ?_⟩
    rw [hfail] at htext
    cases htext
  | @complete v bytes hemit =>
    obtain ⟨text, hfinish, htext, hden⟩ := finish_complete hemit
    constructor
    · constructor
      · rintro ⟨stop, hstop⟩
        rw [hfinish] at hstop
        cases hstop
      · rintro ⟨frames, hframes⟩
        cases hframes
    · intro text' htext'
      obtain rfl : text = text' := by
        rw [hfinish] at htext'
        exact Except.ok.inj htext'
      refine ⟨v, rfl, htext, ?_⟩
      rw [parse_iff]
      exact ⟨fun ⟨hsize, _, hdepth, hdist⟩ => ⟨hsize, hdepth, hdist⟩,
        fun ⟨hsize, hdepth, hdist⟩ => ⟨hsize, jsonText_of_denotes hden, hdepth, hdist⟩⟩

/-- `{"a":[null` -/
theorem run_writes_open : ∃ (w : Writer) (d : Draft), w.state = 1 ∧
      (Draft.within []).run [.openObject, .key [97], .openArray, .null] = some d ∧
      (∀ op, (∃ stop, w.apply op = .error stop) ↔
        d.step op = none ∨ ¬ op.numerals ∨ (op.opens = true ∧ 128 ≤ d.depth)) ∧
      ((∃ stop, w.finish = .error stop) ↔ ∃ frames, d = .within frames) ∧
      ∀ text, w.finish = .ok text → ∃ v, d = .complete v ∧ toUtf8String v = .ok text ∧ (parse text = .ok v ↔
          text.bytes.length ≤ maxLength ∧ v.depth ≤ 128 ∧ v.distinct) :=
  ⟨{ bytes := [123, 34, 97, 34, 58, 91, 110, 117, 108, 108], containers := [true, false], state := 1 },
    (run_writes [.openObject, .key [97], .openArray, .null] _ (by decide)).imp fun _ h => ⟨rfl, h⟩⟩

/-- A number that is no numeral is refused where a value is legal. -/
theorem refused_number : ¬ ∀ (ops : List Operation) (w : Writer) (d : Draft) (op : Operation),
      writer.run ops = .ok w → (Draft.within []).run ops = some d →
        ((∃ stop, w.apply op = .error stop) ↔ d.step op = none) := by
  intro h
  have := (h [] writer (.within []) (.number [120]) rfl rfl).mp ⟨_, rfl⟩
  cases this

end Tsuzuri.Json
