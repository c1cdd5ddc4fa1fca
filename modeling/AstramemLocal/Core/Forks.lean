/-
Fork resolution, abstractly. An element of `α` carries *edges*, each naming a successor; when it is resolved one edge
wins and every other successor is *chained* to the winner: it gets an edge to it and is resolved in turn. `Forks` says
what the edges held beforehand can do; `Forks.Chain x y w` is everything a resolution started at `start` can chain
(resolving `x` chains `y` to `w`), edges gained on the way included. `Forks.Calls` is the call graph. When it is acyclic
and the held edges name finitely many successors, it is well-founded (`Forks.wellFounded`).
-/
import AstramemLocal.Core.Acyclic

namespace AstramemLocal.Core

structure Forks (α : Type*) where
  /-- resolved on its own account -/
  start : α → Prop
  /-- there to be resolved: an element that is not live is passed over -/
  live : α → Prop
  /-- x holds an edge naming y -/
  held : α → α → Prop
  /-- among the held edges of x, one naming w can win -/
  wins : α → α → Prop
  /-- among the held edges of x, one naming y can lose to one naming w -/
  loses : α → α → α → Prop
  /-- x has been chained to w before, and gains no further edge to it -/
  merged : α → α → Prop
  /-- a gained edge can lose to a held one -/
  stale : Prop

variable {α : Type*}

namespace Forks

inductive Chain (F : Forks α) : α → α → α → Prop
  /-- a start resolves its held edges -/
  | start {x y w} : F.start x → F.live x → F.loses x y w → Chain F x y w
  /-- so does an element that was chained -/
  | old {z x v y w} : Chain F z x v → F.live x → F.loses x y w → Chain F x y w
  /-- a held edge loses to a gained one -/
  | new {z x y w} : Chain F z x w → ¬ F.merged x w → F.live x → F.held x y → y ≠ w → Chain F x y w
  /-- a gained edge loses to a held one -/
  | late {z x v w} : Chain F z x v → ¬ F.merged x v → F.stale → F.live x → F.wins x w → v ≠ w → Chain F x v w
  /-- a gained edge loses to a gained one -/
  | both {z x v z' w} : Chain F z x v → ¬ F.merged x v → Chain F z' x w → ¬ F.merged x w → F.live x → v ≠ w →
      Chain F x v w

/-- resolving x resolves y -/
def Calls (F : Forks α) (x y : α) : Prop := ∃ w, F.Chain x y w

/-- x is chained to something -/
def Chained (F : Forks α) (x : α) : Prop := ∃ z w, F.Chain z x w

/-- x is resolved at some point -/
def Reached (F : Forks α) (x : α) : Prop := F.start x ∨ F.Chained x

/-- x is given an edge naming w -/
def Gains (F : Forks α) (x w : α) : Prop := (∃ z, F.Chain z x w) ∧ ¬ F.merged x w

/-- what wins or loses among the held edges is held -/
structure Sound (F : Forks α) : Prop where
  wins : ∀ {x w}, F.wins x w → F.held x w
  loses : ∀ {x y w}, F.loses x y w → F.held x y ∧ F.held x w

variable {F : Forks α}

theorem Chain.chained {x y w : α} (h : F.Chain x y w) : F.Chained y := ⟨x, w, h⟩

theorem Chain.reached {x y w : α} (h : F.Chain x y w) : F.Reached y := Or.inr h.chained

theorem Gains.chained {x w : α} (h : F.Gains x w) : F.Chained x := h.1.elim fun z hz => ⟨z, w, hz⟩

/-- resolving a reached, live element chains the losers among its held edges -/
theorem Reached.chain {x y w : α} (h : F.Reached x) (hl : F.live x) (hy : F.loses x y w) : F.Chain x y w := by
  rcases h with h | ⟨z, v, h⟩
  · exact .start h hl hy
  · exact .old h hl hy

theorem Gains.chain_held {x y w : α} (h : F.Gains x w) (hl : F.live x) (hy : F.held x y) (hyw : y ≠ w) :
    F.Chain x y w := by
  obtain ⟨⟨z, hz⟩, hm⟩ := h
  exact .new hz hm hl hy hyw

theorem Gains.chain_late {x v w : α} (h : F.Gains x v) (hs : F.stale) (hl : F.live x) (hw : F.wins x w)
    (hvw : v ≠ w) : F.Chain x v w := by
  obtain ⟨⟨z, hz⟩, hm⟩ := h
  exact .late hz hm hs hl hw hvw

theorem Gains.chain_both {x v w : α} (h : F.Gains x v) (h' : F.Gains x w) (hl : F.live x) (hvw : v ≠ w) :
    F.Chain x v w := by
  obtain ⟨⟨z, hz⟩, hm⟩ := h
  obtain ⟨⟨z', hz'⟩, hm'⟩ := h'
  exact .both hz hm hz' hm' hl hvw

/-- both ends of a chaining are named by held edges -/
theorem Chain.named (hF : F.Sound) {x y w : α} (h : F.Chain x y w) : (∃ u, F.held u y) ∧ ∃ u, F.held u w := by
  induction h with
  | start _ _ hy => exact ⟨⟨_, (hF.loses hy).1⟩, ⟨_, (hF.loses hy).2⟩⟩
  | old _ _ hy _ => exact ⟨⟨_, (hF.loses hy).1⟩, ⟨_, (hF.loses hy).2⟩⟩
  | new _ _ _ hy _ ih => exact ⟨⟨_, hy⟩, ih.2⟩
  | late _ _ _ _ hw _ ih => exact ⟨ih.2, ⟨_, hF.wins hw⟩⟩
  | both _ _ _ _ _ _ ih ih' => exact ⟨ih.2, ih'.2⟩

/-- what no edge names is not chained -/
theorem not_chained_of_unheld (hF : F.Sound) {x : α} (h : ∀ u, ¬ F.held u x) : ¬ F.Chained x := by
  rintro ⟨z, w, hz⟩
  obtain ⟨⟨u, hu⟩, -⟩ := hz.named hF
  exact h u hu

theorem wellFounded (hF : F.Sound) (hac : Acyclic F.Calls) (hfin : {y | ∃ x, F.held x y}.Finite) :
    WellFounded fun y x => F.Calls x y :=
  hac.wellFounded hfin fun _ _ h => h.elim fun _ hw => (hw.named hF).1

end Forks

end AstramemLocal.Core
