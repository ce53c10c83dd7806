import Mathlib.Data.List.Basic
import Mathlib.Logic.Relation

/-!
# Values in the order of their dependencies

A relation says what each node refers to.
-/

namespace Dependencies

open Relation List

variable {α : Type} {R : α → α → Prop}

def Cyclic (R : α → α → Prop) (a : α) : Prop := ∃ d, ReflTransGen R a d ∧ TransGen R d d

def Supported (R : α → α → Prop) : List α → Prop
  | [] => True
  | a :: rest => (∀ d, R a d → d ∈ rest) ∧ Supported R rest

namespace Supported

variable {l : List α}

theorem mem_of_rel : ∀ {l : List α}, Supported R l → ∀ {a d : α}, a ∈ l → R a d → d ∈ l
  | _ :: _, ⟨hhead, hrest⟩, _, _, hmem, href => by
    obtain rfl | hmem := mem_cons.mp hmem
    · exact mem_cons_of_mem _ (hhead _ href)
    · exact mem_cons_of_mem _ (hrest.mem_of_rel hmem href)

theorem mem_of_reach (h : Supported R l) {a d : α} (hmem : a ∈ l) (hreach : ReflTransGen R a d) : d ∈ l := by
  induction hreach with
  | refl => exact hmem
  | tail _ href ih => exact h.mem_of_rel ih href

theorem acc : ∀ {l : List α}, Supported R l → ∀ {a : α}, a ∈ l → Acc (fun d a => R a d) a
  | _ :: _, ⟨hhead, hrest⟩, _, hmem => by
    obtain rfl | hmem := mem_cons.mp hmem
    · exact ⟨_, fun d href => hrest.acc (hhead d href)⟩
    · exact hrest.acc hmem

theorem irrefl_of_acc {a : α} (h : Acc (fun d a => R a d) a) : ¬TransGen R a a := by
  have hswap : Acc (TransGen fun d a => R a d) a := h.transGen
  intro hcycle
  have hback : TransGen (fun d a => R a d) a a := transGen_swap.mpr hcycle
  clear h hcycle
  induction hswap with
  | intro a _ ih => exact ih a hback hback

theorem not_cyclic (h : Supported R l) {a : α} (hmem : a ∈ l) : ¬Cyclic R a := by
  rintro ⟨d, hreach, hcycle⟩
  exact irrefl_of_acc (h.acc (h.mem_of_reach hmem hreach)) hcycle

end Supported

/-! ## The stack of a search -/

def nearest (stack : List (α × Bool)) : Option α := (stack.find? Prod.snd).map Prod.fst

@[simp] theorem nearest_nil : nearest ([] : List (α × Bool)) = none := rfl
@[simp] theorem nearest_open (a : α) (stack : List (α × Bool)) : nearest ((a, true) :: stack) = some a := rfl
@[simp] theorem nearest_waiting (a : α) (stack : List (α × Bool)) : nearest ((a, false) :: stack) = nearest stack := rfl

theorem nearest_append {new stack : List (α × Bool)} (h : ∀ e ∈ new, e.2 = false) :
    nearest (new ++ stack) = nearest stack := by
  induction new with
  | nil => rfl
  | cons e new ih =>
    obtain ⟨a, opened⟩ := e
    obtain rfl : opened = false := h (a, opened) (mem_cons_self ..)
    exact ih fun e he => h e (mem_cons_of_mem _ he)

/-- What `a` is to the node that it is above, or to none. -/
def Above (R : α → α → Prop) (root : α) : Option α → α → Prop
  | some b, a => R b a
  | none, a => a = root

def Stacked (R : α → α → Prop) (root : α) : List (α × Bool) → Prop
  | [] => True
  | e :: rest => Above R root (nearest rest) e.1 ∧ Stacked R root rest

namespace Stacked

variable {root a : α} {stack rest : List (α × Bool)}

theorem append {new : List (α × Bool)} (hwaiting : ∀ e ∈ new, e.2 = false) (hnear : nearest stack = some a)
    (href : ∀ e ∈ new, R a e.1) (h : Stacked R root stack) : Stacked R root (new ++ stack) := by
  induction new with
  | nil => exact h
  | cons e new ih =>
    have hnew := ih (fun e he => hwaiting e (mem_cons_of_mem _ he)) (fun e he => href e (mem_cons_of_mem _ he))
    have hbelow : nearest (new ++ stack) = some a :=
      (nearest_append fun e he => hwaiting e (mem_cons_of_mem _ he)).trans hnear
    refine ⟨?_, hnew⟩
    show Above R root (nearest (new ++ stack)) e.1
    rw [hbelow]
    exact href e (mem_cons_self ..)

theorem reach {e : α × Bool} (h : Stacked R root (e :: rest)) (hopen : (a, true) ∈ rest) : TransGen R a e.1 := by
  induction rest generalizing e with
  | nil => exact absurd hopen not_mem_nil
  | cons b rest ih =>
    obtain ⟨b, opened⟩ := b
    obtain ⟨hhead, htail⟩ := h
    obtain heq | hmem := mem_cons.mp hopen
    · cases heq
      exact .single hhead
    · cases opened with
      | true => exact (ih htail hmem).tail hhead
      | false => exact ih ⟨hhead, htail.2⟩ hmem

theorem root_reach {e : α × Bool} (h : Stacked R root (e :: rest)) : ReflTransGen R root e.1 := by
  induction rest generalizing e with
  | nil =>
    obtain ⟨hroot, -⟩ := h
    rw [show e.1 = root from hroot]
  | cons b rest ih =>
    obtain ⟨b, opened⟩ := b
    obtain ⟨hhead, htail⟩ := h
    cases opened with
    | true => exact (ih htail).tail hhead
    | false => exact ih ⟨hhead, htail.2⟩

end Stacked

def Awaited (R : α → α → Prop) (found : α → Prop) : List α → List (α × Bool) → Prop
  | _, [] => True
  | above, (a, opened) :: rest =>
    (opened = true → ∀ d, R a d → found d ∨ d ∈ above) ∧ Awaited R found (above ++ [a]) rest

namespace Awaited

variable {found found' : α → Prop} {above above' : List α} {stack : List (α × Bool)}

theorem mono (h : ∀ d, found d ∨ d ∈ above → found' d ∨ d ∈ above') (hs : Awaited R found above stack) :
    Awaited R found' above' stack := by
  induction stack generalizing above above' with
  | nil => trivial
  | cons e rest ih =>
    obtain ⟨a, opened⟩ := e
    refine ⟨fun hopen d href => h d (hs.1 hopen d href), ih (fun d hd => ?_) hs.2⟩
    simp only [mem_append, mem_singleton] at hd ⊢
    obtain hd | hd | rfl := hd
    · exact (h d (.inl hd)).imp_right .inl
    · exact (h d (.inr hd)).imp_right .inl
    · exact .inr (.inr rfl)

theorem append {new : List (α × Bool)} (hwaiting : ∀ e ∈ new, e.2 = false)
    (h : Awaited R found (above ++ new.map Prod.fst) stack) : Awaited R found above (new ++ stack) := by
  induction new generalizing above with
  | nil => simpa using h
  | cons e new ih =>
    obtain ⟨a, opened⟩ := e
    obtain rfl : opened = false := hwaiting (a, opened) (mem_cons_self ..)
    refine ⟨fun hopen => absurd hopen Bool.false_ne_true, ih (fun e he => hwaiting e (mem_cons_of_mem _ he)) ?_⟩
    simpa using h

end Awaited

end Dependencies
