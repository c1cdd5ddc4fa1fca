/-
Acyclic relations: no element reaches itself. An edge into a sink closes no cycle (`Acyclic.insert_sink`), and an
acyclic relation with finitely many targets is well-founded (`Acyclic.wellFounded`).
-/
import Mathlib.Logic.Relation
import Mathlib.Data.Set.Card
import Mathlib.Order.WellFounded

namespace AstramemLocal.Core

open Relation

variable {α : Type*} {R S : α → α → Prop}

def Acyclic (R : α → α → Prop) : Prop := ∀ a, ¬ TransGen R a a

theorem Acyclic.mono (h : Acyclic R) (hsub : ∀ a b, S a b → R a b) : Acyclic S :=
  fun a hc => h a (TransGen.mono hsub _ _ hc)

theorem Acyclic.irrefl (h : Acyclic R) (a : α) : ¬ R a a := fun hr => h a (.single hr)

theorem acyclic_of_rank {β : Type*} [Preorder β] (f : α → β) (h : ∀ a b, R a b → f a < f b) : Acyclic R := by
  intro a hc
  have hlt : ∀ b, TransGen R a b → f a < f b := by
    intro b hb
    induction hb with
    | single hr => exact h _ _ hr
    | tail _ hr ih => exact ih.trans (h _ _ hr)
  exact lt_irrefl _ (hlt a hc)

/-- a path that ends in `x` and uses the new edge anywhere ends at the sink `w` of that edge -/
theorem transGen_insert_sink {x w : α} (hw : ∀ b, ¬ R w b) (hxw : x ≠ w) {a b : α}
    (h : TransGen (fun a b => R a b ∨ a = x ∧ b = w) a b) : TransGen R a b ∨ b = w := by
  have hsink : ∀ c, ¬ (R w c ∨ w = x ∧ c = w) := by
    rintro c (hc | ⟨hc, -⟩)
    · exact hw c hc
    · exact hxw hc.symm
  induction h with
  | single hr =>
    rcases hr with hr | ⟨-, hb⟩
    · exact Or.inl (.single hr)
    · exact Or.inr hb
  | tail _ hr ih =>
    rcases ih with ih | rfl
    · rcases hr with hr | ⟨-, hb⟩
      · exact Or.inl (ih.tail hr)
      · exact Or.inr hb
    · exact absurd hr (hsink _)

/-- **An edge into a sink closes no cycle.** -/
theorem Acyclic.insert_sink (h : Acyclic R) {x w : α} (hw : ∀ b, ¬ R w b) (hxw : x ≠ w) :
    Acyclic fun a b => R a b ∨ a = x ∧ b = w := by
  intro a hc
  rcases transGen_insert_sink hw hxw hc with hr | rfl
  · exact h a hr
  · obtain ⟨c, hc, -⟩ := TransGen.head'_iff.1 hc
    rcases hc with hc | ⟨hc, -⟩
    · exact hw c hc
    · exact hxw hc.symm

/-- **Acyclic with finitely many targets is well-founded**, read from source to target -/
theorem Acyclic.wellFounded (h : Acyclic R) {T : Set α} (hT : T.Finite) (hmem : ∀ a b, R a b → b ∈ T) :
    WellFounded fun b a => R a b := by
  have hsub : ∀ a, {b | TransGen R a b} ⊆ T := by
    intro a b hb
    obtain ⟨c, -, hc⟩ := TransGen.tail'_iff.1 hb
    exact hmem c b hc
  have hlt : ∀ b a, R a b → {c | TransGen R b c}.ncard < {c | TransGen R a c}.ncard := by
    intro b a hr
    apply Set.ncard_lt_ncard _ (hT.subset (hsub a))
    refine ⟨fun c hc => .head hr hc, fun hle => ?_⟩
    exact h b (hle (show TransGen R a b from .single hr))
  exact Subrelation.wf (fun {b a} hr => hlt b a hr) (measure fun a => {c | TransGen R a c}.ncard).wf

end AstramemLocal.Core
