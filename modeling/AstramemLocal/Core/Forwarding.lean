/-
Forwarding pointers. Items are live or not, and a pointer leads from an item to one that stands for it. An item `Settles`
where its pointers end in a live one. Forwarding a live item to another live one keeps what settles (`Forwards.settles`):
a structure that changes by forwarding only loses nothing.
-/
import Mathlib.Logic.Relation

namespace AstramemLocal.Core

open Relation

structure Pointers (α : Type) where
  live : α → Prop
  next : α → α → Prop

variable {α : Type} {R S : α → α → Prop} {P Q : Pointers α} {a l w : α}

/-- along pointers that keep `R` -/
def Pointers.Settles (P : Pointers α) (R : α → α → Prop) (a : α) : Prop :=
  ∃ w, ReflTransGen (fun a b => P.next a b ∧ R a b) a w ∧ P.live w

theorem Pointers.Settles.of_live (h : P.live a) : P.Settles R a := ⟨a, .refl, h⟩

theorem Pointers.Settles.mono (hR : ∀ a b, R a b → S a b) (h : P.Settles R a) : P.Settles S a := by
  obtain ⟨w, hpath, hlive⟩ := h
  exact ⟨w, hpath.lift id fun a b hab => ⟨hab.1, hR a b hab.2⟩, hlive⟩

/-- where `R` is a preorder the item keeps it with the one it settles in -/
theorem Pointers.Settles.related (hrefl : ∀ a, R a a) (htrans : ∀ a b c, R a b → R b c → R a c) (h : P.Settles R a) :
    ∃ w, P.live w ∧ R a w ∧ ReflTransGen P.next a w := by
  obtain ⟨w, hpath, hlive⟩ := h
  refine ⟨w, hlive, ?_, hpath.lift id fun _ _ hab => hab.1⟩
  clear hlive
  induction hpath with
  | refl => exact hrefl a
  | tail _ hstep ih => exact htrans _ _ _ ih hstep.2

/-- `Q` is `P` with `l` forwarded to `w` -/
structure Forwards (P Q : Pointers α) (l w : α) : Prop where
  ne : w ≠ l
  target : P.live w
  live : ∀ a, a ≠ l → P.live a → Q.live a
  next : ∀ a b, a ≠ l → P.next a b → Q.next a b
  link : Q.next l w

theorem Forwards.settles (h : Forwards P Q l w) (hR : R l w) (ha : P.Settles R a) : Q.Settles R a := by
  obtain ⟨x, hpath, hx⟩ := ha
  have hloser : Q.Settles R l := ⟨w, .single ⟨h.link, hR⟩, h.live w h.ne h.target⟩
  -- a path of `P` is one of `Q` up to the first time it comes by `l`
  induction hpath using ReflTransGen.head_induction_on with
  | refl =>
    by_cases hl : x = l
    · exact hl ▸ hloser
    · exact .of_live (h.live x hl hx)
  | @head a b hstep _ ih =>
    by_cases hl : a = l
    · subst hl
      exact hloser
    · obtain ⟨y, hy, hlive⟩ := ih
      exact ⟨y, .head ⟨h.next a b hl hstep.1, hstep.2⟩ hy, hlive⟩

end AstramemLocal.Core
