import Mathlib.Order.BoundedOrder.Basic
import Mathlib.Order.Monotone.Basic

/-!
# Paths of structured control

A small language of control: events, sequences, choices, loops with `break` and `continue`, and expressions that
stand for a piece of control of their own.
-/

namespace ControlPaths

inductive Outcome where
  | done
  | breaks
  | continues
  | stopped
deriving DecidableEq

inductive Control (E Ev : Type) where
  | skip
  | emit (event : Ev)
  | leave (outcome : Outcome)
  | eval (e : E)
  | region (allowed : Ev → Prop) (ends : Outcome → Prop)
  | seq (first second : Control E Ev)
  | choice (left right : Control E Ev)
  | loop (test body : Control E Ev)

variable {E Ev : Type}

def Control.all : List (Control E Ev) → Control E Ev
  | [] => .skip
  | t :: ts => .seq t (Control.all ts)

/-- The paths of a task. An expression runs as `control` says. -/
inductive Path (control : E → Control E Ev) (testJumps : Prop) :
    Control E Ev → List Ev → Outcome → Prop
  | stop (t : Control E Ev) : Path control testJumps t [] .stopped
  | skip : Path control testJumps .skip [] .done
  | emit (event : Ev) : Path control testJumps (.emit event) [event] .done
  | leave (o : Outcome) : Path control testJumps (.leave o) [] o
  | eval {e : E} {evs : List Ev} {o : Outcome} (h : Path control testJumps (control e) evs o) :
      Path control testJumps (.eval e) evs o
  | region {allowed : Ev → Prop} {ends : Outcome → Prop} {evs : List Ev} {o : Outcome}
      (hevs : ∀ event ∈ evs, allowed event) (ho : o = .done ∨ o = .stopped ∨ ends o) :
      Path control testJumps (.region allowed ends) evs o
  | seq {a b : Control E Ev} {evs₁ evs₂ : List Ev} {o : Outcome}
      (h₁ : Path control testJumps a evs₁ .done) (h₂ : Path control testJumps b evs₂ o) :
      Path control testJumps (.seq a b) (evs₁ ++ evs₂) o
  | seqLeave {a b : Control E Ev} {evs : List Ev} {o : Outcome} (h : Path control testJumps a evs o) (ho : o ≠ .done) :
      Path control testJumps (.seq a b) evs o
  | left {a b : Control E Ev} {evs : List Ev} {o : Outcome} (h : Path control testJumps a evs o) :
      Path control testJumps (.choice a b) evs o
  | right {a b : Control E Ev} {evs : List Ev} {o : Outcome} (h : Path control testJumps b evs o) :
      Path control testJumps (.choice a b) evs o
  | loopExit {test body : Control E Ev} {evs : List Ev} (h : Path control testJumps test evs .done) :
      Path control testJumps (.loop test body) evs .done
  | loopTest {test body : Control E Ev} {evs : List Ev} {o : Outcome}
      (h : Path control testJumps test evs o) (ho : o ≠ .done) (hjump : o = .stopped ∨ testJumps) :
      Path control testJumps (.loop test body) evs o
  | loopAgain {test body : Control E Ev} {evs₁ evs₂ evs₃ : List Ev} {o o' : Outcome}
      (htest : Path control testJumps test evs₁ .done)
      (hbody : Path control testJumps body evs₂ o) (ho : o = .done ∨ o = .continues)
      (hrest : Path control testJumps (.loop test body) evs₃ o') :
      Path control testJumps (.loop test body) (evs₁ ++ (evs₂ ++ evs₃)) o'
  | loopBreak {test body : Control E Ev} {evs₁ evs₂ : List Ev} (htest : Path control testJumps test evs₁ .done)
      (hbody : Path control testJumps body evs₂ .breaks) :
      Path control testJumps (.loop test body) (evs₁ ++ evs₂) .done
  | loopStop {test body : Control E Ev} {evs₁ evs₂ : List Ev} (htest : Path control testJumps test evs₁ .done)
      (hbody : Path control testJumps body evs₂ .stopped) :
      Path control testJumps (.loop test body) (evs₁ ++ evs₂) .stopped

/-! ## Backward analyses -/

/-- What is known of the futures of a task: after it, and after a jump. -/
structure Futures (X : Type) where
  done : X
  breaks : X
  continues : X

section Events

variable {X : Type} (act : Ev → X → X) (ok : Ev → X → Prop)

def before (evs : List Ev) (x : X) : X := evs.foldr act x

def Good : List Ev → X → Prop
  | [], _ => True
  | event :: evs, x => ok event (before act evs x) ∧ Good evs x

variable {act ok}

theorem before_append (evs₁ evs₂ : List Ev) (x : X) :
    before act (evs₁ ++ evs₂) x = before act evs₁ (before act evs₂ x) :=
  List.foldr_append

theorem good_append {evs₁ evs₂ : List Ev} {x : X} : Good act ok (evs₁ ++ evs₂) x
      ↔ Good act ok evs₁ (before act evs₂ x) ∧ Good act ok evs₂ x := by
  induction evs₁ with
  | nil => simp [Good]
  | cons event evs₁ ih => simp [Good, ih, before_append, and_assoc]

variable {evs : List Ev}

theorem Good.imp {ok' : Ev → X → Prop} (himp : ∀ event x, ok event x → ok' event x) {x : X}
    (h : Good act ok evs x) : Good act ok' evs x := by
  induction evs with
  | nil => trivial
  | cons event evs ih => exact ⟨himp event _ h.1, ih h.2⟩

structure Backward [Preorder X] (act : Ev → X → X) (ok : Ev → X → Prop) : Prop where
  mono : ∀ event, Monotone (act event)
  anti : ∀ event x y, x ≤ y → ok event y → ok event x

theorem Backward.before_mono [Preorder X] (h : Backward act ok) {x y : X} (hxy : x ≤ y) :
    before act evs x ≤ before act evs y := by
  induction evs with
  | nil => exact hxy
  | cons event evs ih => exact h.mono event ih

theorem Backward.good_anti [Preorder X] (h : Backward act ok) {x y : X} (hxy : x ≤ y)
    (hy : Good act ok evs y) : Good act ok evs x := by
  induction evs with
  | nil => trivial
  | cons event evs ih => exact ⟨h.anti event _ _ (h.before_mono hxy) hy.1, ih hy.2⟩

end Events

section Bounds

variable {X : Type} [Preorder X] [OrderBot X]

def Futures.at (K : Futures X) : Outcome → X
  | .done => K.done
  | .breaks => K.breaks
  | .continues => K.continues
  | .stopped => ⊥

def Bounds (control : E → Control E Ev) (act : Ev → X → X) (ok : Ev → X → Prop) (t : Control E Ev)
    (K : Futures X) (x : X) : Prop :=
  ∀ evs o, Path control False t evs o → before act evs (K.at o) ≤ x ∧ Good act ok evs (K.at o)

variable {control : E → Control E Ev} {act : Ev → X → X} {ok ok' : Ev → X → Prop}

/-! ### The rules -/

variable {t : Control E Ev} {K : Futures X}

theorem Bounds.mono {x y : X} (h : Bounds control act ok t K x) (hxy : x ≤ y) : Bounds control act ok t K y :=
  fun evs o hpath => ⟨(h evs o hpath).1.trans hxy, (h evs o hpath).2⟩

theorem Bounds.imp {x : X} (h : Bounds control act ok t K x) (himp : ∀ event x, ok event x → ok' event x) :
    Bounds control act ok' t K x :=
  fun evs o hpath => ⟨(h evs o hpath).1, (h evs o hpath).2.imp himp⟩

theorem Bounds.claims {x y : X} (h : Bounds control act ok' t K x) (hclaims : Bounds control act ok t K y) :
    Bounds control act ok t K x :=
  fun evs o hpath => ⟨(h evs o hpath).1, (hclaims evs o hpath).2⟩

theorem bounds_skip : Bounds control act ok .skip K K.done := by
  intro evs o hpath
  cases hpath with
  | stop => exact ⟨bot_le, trivial⟩
  | skip => exact ⟨le_rfl, trivial⟩

theorem bounds_emit {event : Ev} {x : X} (hx : act event K.done ≤ x) (hok : ok event K.done) :
    Bounds control act ok (.emit event) K x := by
  intro evs o hpath
  cases hpath with
  | stop => exact ⟨bot_le, trivial⟩
  | emit => exact ⟨hx, hok, trivial⟩

theorem bounds_leave {o : Outcome} : Bounds control act ok (.leave o) K (K.at o) := by
  intro evs o' hpath
  cases hpath with
  | stop => exact ⟨bot_le, trivial⟩
  | leave => exact ⟨le_rfl, trivial⟩

theorem bounds_eval {e : E} {x : X} (h : Bounds control act ok (control e) K x) :
    Bounds control act ok (.eval e) K x := by
  intro evs o hpath
  cases hpath with
  | stop => exact ⟨bot_le, trivial⟩
  | eval hpath => exact h evs o hpath

theorem bounds_region {allowed : Ev → Prop} {ends : Outcome → Prop} {x : X}
    (hact : ∀ event y, allowed event → y ≤ x → act event y ≤ x)
    (hok : ∀ event y, allowed event → y ≤ x → ok event y) (hdone : K.done ≤ x) (hends : ∀ o, ends o → K.at o ≤ x) :
    Bounds control act ok (.region allowed ends) K x := by
  intro evs o hpath
  cases hpath with
  | stop => exact ⟨bot_le, trivial⟩
  | region hevs ho =>
    have hstart : K.at o ≤ x := by
      rcases ho with rfl | rfl | ho
      · exact hdone
      · exact bot_le
      · exact hends o ho
    clear ho
    induction evs with
    | nil => exact ⟨hstart, trivial⟩
    | cons event evs ih =>
      obtain ⟨hevent, hevs⟩ := List.forall_mem_cons.mp hevs
      obtain ⟨hle, hgood⟩ := ih hevs
      exact ⟨hact event _ hevent hle, hok event _ hevent hle, hgood⟩

theorem bounds_seq (hback : Backward act ok) {a b : Control E Ev} {x y : X}
    (hb : Bounds control act ok b K y) (ha : Bounds control act ok a { K with done := y } x) :
    Bounds control act ok (.seq a b) K x := by
  intro evs o hpath
  cases hpath with
  | stop => exact ⟨bot_le, trivial⟩
  | seq h₁ h₂ =>
    obtain ⟨hle₂, hgood₂⟩ := hb _ _ h₂
    obtain ⟨hle₁, hgood₁⟩ := ha _ _ h₁
    rw [before_append, good_append]
    exact ⟨(hback.before_mono hle₂).trans hle₁, hback.good_anti hle₂ hgood₁, hgood₂⟩
  | seqLeave h ho =>
    have := ha _ _ h
    cases o <;> first | exact absurd rfl ho | exact this

theorem bounds_choice {a b : Control E Ev} {x : X} (ha : Bounds control act ok a K x)
    (hb : Bounds control act ok b K x) : Bounds control act ok (.choice a b) K x := by
  intro evs o hpath
  cases hpath with
  | stop => exact ⟨bot_le, trivial⟩
  | left h => exact ha _ _ h
  | right h => exact hb _ _ h

theorem bounds_loop (hback : Backward act ok) {test body : Control E Ev} {Kt : Futures X} {x y : X}
    (htest : Bounds control act ok test Kt x) (hy : y ≤ Kt.done) (hexit : K.done ≤ Kt.done)
    (hbody : Bounds control act ok body ⟨x, K.done, x⟩ y) : Bounds control act ok (.loop test body) K x := by
  intro evs o hpath
  -- by induction on the rounds: what is known at the head again is below `x`
  generalize ht : Control.loop test body = t at hpath
  induction hpath with
  | stop => exact ⟨bot_le, trivial⟩
  | loopExit h =>
    cases ht
    obtain ⟨hle, hgood⟩ := htest _ _ h
    exact ⟨(hback.before_mono hexit).trans hle, hback.good_anti hexit hgood⟩
  | loopTest h ho hjump =>
    cases ht
    obtain rfl := hjump.resolve_right id
    exact htest _ _ h
  | @loopAgain _ _ evs₁ evs₂ evs₃ o o' h₁ h₂ ho _ _ _ ih =>
    cases ht
    obtain ⟨hle₃, hgood₃⟩ := ih rfl
    have hfuture : before act evs₃ (K.at o') ≤ (⟨x, K.done, x⟩ : Futures X).at o := by
      rcases ho with rfl | rfl <;> exact hle₃
    obtain ⟨hle₂, hgood₂⟩ := hbody _ _ h₂
    obtain ⟨hle₁, hgood₁⟩ := htest _ _ h₁
    have hround : before act (evs₂ ++ evs₃) (K.at o') ≤ Kt.done := by
      rw [before_append]
      exact ((hback.before_mono hfuture).trans hle₂).trans hy
    rw [before_append, good_append, good_append]
    exact ⟨(hback.before_mono hround).trans hle₁, hback.good_anti hround hgood₁, hback.good_anti hfuture hgood₂, hgood₃⟩
  | loopBreak h₁ h₂ | loopStop h₁ h₂ =>
    cases ht
    obtain ⟨hle₂, hgood₂⟩ := hbody _ _ h₂
    obtain ⟨hle₁, hgood₁⟩ := htest _ _ h₁
    have hround := hle₂.trans hy
    rw [before_append, good_append]
    exact ⟨(hback.before_mono hround).trans hle₁, hback.good_anti hround hgood₁, hgood₂⟩
  | _ => cases ht

theorem bounds_loop_again (hback : Backward act ok) {test body : Control E Ev} {Kt : Futures X} {x y z : X}
    (hloop : Bounds control act ok' (.loop test body) K x) (htest : Bounds control act ok test Kt z)
    (hy : y ≤ Kt.done) (hexit : K.done ≤ Kt.done) (hbody : Bounds control act ok body ⟨x, K.done, x⟩ y) :
    Bounds control act ok (.loop test body) K x := by
  intro evs o hpath
  refine ⟨(hloop evs o hpath).1, ?_⟩
  generalize ht : Control.loop test body = t at hpath
  induction hpath with
  | stop => trivial
  | loopExit h =>
    cases ht
    exact hback.good_anti hexit (htest _ _ h).2
  | loopTest h ho hjump =>
    cases ht
    obtain rfl := hjump.resolve_right id
    exact (htest _ _ h).2
  | @loopAgain _ _ evs₁ evs₂ evs₃ o o' h₁ h₂ ho h₃ _ _ ih =>
    cases ht
    have hfuture : before act evs₃ (K.at o') ≤ (⟨x, K.done, x⟩ : Futures X).at o := by
      rcases ho with rfl | rfl <;> exact (hloop _ _ h₃).1
    obtain ⟨hle₂, hgood₂⟩ := hbody _ _ h₂
    have hround : before act (evs₂ ++ evs₃) (K.at o') ≤ Kt.done := by
      rw [before_append]
      exact ((hback.before_mono hfuture).trans hle₂).trans hy
    rw [good_append, good_append]
    exact ⟨hback.good_anti hround (htest _ _ h₁).2, hback.good_anti hfuture hgood₂, ih rfl⟩
  | loopBreak h₁ h₂ | loopStop h₁ h₂ =>
    cases ht
    obtain ⟨hle₂, hgood₂⟩ := hbody _ _ h₂
    rw [good_append]
    exact ⟨hback.good_anti (hle₂.trans hy) (htest _ _ h₁).2, hgood₂⟩
  | _ => cases ht

end Bounds

end ControlPaths
