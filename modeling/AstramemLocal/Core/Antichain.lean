/-
A loop that keeps the large ones of a partially ordered stream. `absorb` compares the new element with the entries kept so
far, in order, and settles with the first that is comparable: the larger of the two stays in its place.
- `covers_absorbed`: everything that came is below something kept.
- `absorbed_orderly`: an entry is never below one that stands behind it.
- `absorbed_antichain_iff`: the entries are an antichain, at every moment, exactly when no element comes above two maximal
  elements of those before it. Only one of them would be replaced.
-/
import AstramemLocal.Core.Contest
import Mathlib.Data.List.Induction
import Mathlib.Data.List.Pairwise
import Mathlib.Order.Defs.Unbundled

namespace AstramemLocal.Core

variable {α : Type*} (r : α → α → Prop) [DecidableRel r]

def absorb (kept : List α) (x : α) : List α := settle (fun e => r e x ∨ r x e) (fun e => ¬ r x e) kept x

def absorbed (l : List α) : List α := l.foldl (absorb r) []

def Antichain (l : List α) : Prop := l.Pairwise fun a b => ¬ r a b ∧ ¬ r b a

/-- no entry is below one behind it -/
def Orderly (l : List α) : Prop := l.Pairwise fun a b => ¬ r a b

/-- a maximal element of a list -/
structure MaximalIn (l : List α) (x : α) : Prop where
  mem : x ∈ l
  maximal : ∀ y ∈ l, r x y → y = x

/-- no element of the list is above two maximal elements of those before it -/
def OneBelow (l : List α) : Prop :=
  ∀ pre x, pre ++ [x] <+: l → ∀ u v, MaximalIn r pre u → MaximalIn r pre v → r u x → r v x → u = v

variable {r} {l kept : List α} {x : α}

theorem absorb_cases (kept : List α) (x : α) :
    ((∀ e ∈ kept, ¬ r e x ∧ ¬ r x e) ∧ absorb r kept x = kept ++ [x]) ∨
    (∃ e ∈ kept, r x e ∧ absorb r kept x = kept) ∨
    ∃ before e after, kept = before ++ e :: after ∧ (∀ b ∈ before, ¬ r b x ∧ ¬ r x b) ∧ r e x ∧ ¬ r x e ∧
      absorb r kept x = before ++ x :: after := by
  obtain ⟨hnone, heq⟩ | ⟨before, e, after, hsplit, hbefore, hrival, heq⟩ :=
    settle_cases (fun e => decide (r e x ∨ r x e)) (fun e => decide (¬ r x e)) kept x
  · refine Or.inl ⟨fun e he => ?_, heq⟩
    simpa using hnone e he
  · have hbefore' : ∀ b ∈ before, ¬ r b x ∧ ¬ r x b := fun b hb => by simpa using hbefore b hb
    by_cases hxe : r x e
    · refine Or.inr (Or.inl ⟨e, hsplit ▸ List.mem_append_right _ List.mem_cons_self, hxe, ?_⟩)
      rw [absorb, heq, if_neg (by simpa using hxe)]
    · have hex : r e x := by simpa [hxe] using hrival
      refine Or.inr (Or.inr ⟨before, e, after, hsplit, hbefore', hex, hxe, ?_⟩)
      rw [absorb, heq, if_pos (by simpa using hxe)]

theorem mem_absorb {y : α} (h : y ∈ absorb r kept x) : y ∈ kept ∨ y = x := mem_settle h

theorem mem_absorbed {y : α} (h : y ∈ absorbed r l) : y ∈ l := by
  have hfold : ∀ (l kept : List α), y ∈ l.foldl (absorb r) kept → y ∈ kept ∨ y ∈ l := by
    intro l
    induction l with
    | nil => exact fun kept h => Or.inl h
    | cons x l ih =>
      intro kept h
      rcases ih _ h with h | h
      · rcases mem_absorb h with h | rfl
        · exact Or.inl h
        · exact Or.inr List.mem_cons_self
      · exact Or.inr (List.mem_cons_of_mem x h)
  exact (hfold l [] h).resolve_left List.not_mem_nil

theorem absorbed_append (l : List α) (x : α) : absorbed r (l ++ [x]) = absorb r (absorbed r l) x := by
  rw [absorbed, List.foldl_append]
  rfl

omit [DecidableRel r] in
theorem Antichain.eq_of_le (h : Antichain r l) {u v : α} (hu : u ∈ l) (hv : v ∈ l) (huv : r u v) : u = v := by
  by_contra hne
  have hsymm : Std.Symm fun a b => ¬ r a b ∧ ¬ r b a := ⟨fun _ _ hab => hab.symm⟩
  have hboth : ¬ r u v ∧ ¬ r v u := List.Pairwise.forall h hu hv hne
  exact hboth.1 huv

section
variable [IsPartialOrder α r]

theorem covers_absorb (kept : List α) (x : α) : (∃ z ∈ absorb r kept x, r x z) ∧
    ∀ y ∈ kept, ∃ z ∈ absorb r kept x, r y z := by
  obtain ⟨-, heq⟩ | ⟨e, he, hxe, heq⟩ | ⟨before, e, after, hsplit, -, hex, -, heq⟩ := absorb_cases (r := r) kept x
  · rw [heq]
    exact ⟨⟨x, List.mem_append_right _ (List.mem_singleton_self x), refl_of r x⟩,
      fun y hy => ⟨y, List.mem_append_left _ hy, refl_of r y⟩⟩
  · rw [heq]
    exact ⟨⟨e, he, hxe⟩, fun y hy => ⟨y, hy, refl_of r y⟩⟩
  · rw [heq]
    have hx : x ∈ before ++ x :: after := List.mem_append_right _ List.mem_cons_self
    refine ⟨⟨x, hx, refl_of r x⟩, fun y hy => ?_⟩
    rw [hsplit, List.mem_append, List.mem_cons] at hy
    rcases hy with hy | rfl | hy
    · exact ⟨y, List.mem_append_left _ hy, refl_of r y⟩
    · exact ⟨x, hx, hex⟩
    · exact ⟨y, List.mem_append_right _ (List.mem_cons_of_mem x hy), refl_of r y⟩

/-- **Coverage.** -/
theorem covers_absorbed (l : List α) : ∀ y ∈ l, ∃ z ∈ absorbed r l, r y z := by
  induction l using List.reverseRecOn with
  | nil =>
    intro y hy
    cases hy
  | append_singleton l x ih =>
    intro y hy
    rw [absorbed_append]
    rcases List.mem_append.1 hy with hy | hy
    · obtain ⟨z, hz, hyz⟩ := ih y hy
      obtain ⟨w, hw, hzw⟩ := (covers_absorb (r := r) (absorbed r l) x).2 z hz
      exact ⟨w, hw, trans_of r hyz hzw⟩
    · rw [List.mem_singleton.1 hy]
      exact (covers_absorb (r := r) (absorbed r l) x).1

theorem orderly_absorb (h : Orderly r kept) : Orderly r (absorb r kept x) := by
  obtain ⟨hnone, heq⟩ | ⟨e, -, -, heq⟩ | ⟨before, e, after, hsplit, hbefore, hex, -, heq⟩ := absorb_cases (r := r) kept x
  · rw [heq, Orderly, List.pairwise_append]
    refine ⟨h, List.pairwise_singleton _ x, fun a ha b hb => ?_⟩
    rw [List.mem_singleton.1 hb]
    exact (hnone a ha).1
  · rw [heq]
    exact h
  · rw [Orderly, hsplit, List.pairwise_append, List.pairwise_cons] at h
    obtain ⟨hfirst, ⟨hafter, hlast⟩, hcross⟩ := h
    rw [heq, Orderly, List.pairwise_append, List.pairwise_cons]
    refine ⟨hfirst, ⟨fun a ha hxa => hafter a ha (trans_of r hex hxa), hlast⟩, fun a ha b hb => ?_⟩
    rcases List.mem_cons.1 hb with rfl | hb
    · exact (hbefore a ha).1
    · exact hcross a ha b (List.mem_cons_of_mem e hb)

/-- **Order.** -/
theorem absorbed_orderly (l : List α) : Orderly r (absorbed r l) := by
  induction l using List.reverseRecOn with
  | nil => exact List.Pairwise.nil
  | append_singleton l x ih =>
    rw [absorbed_append]
    exact orderly_absorb ih

/-- the entries of an antichain are the maximal elements of what came -/
theorem maximalIn_absorbed (h : Antichain r (absorbed r l)) {u : α} : u ∈ absorbed r l ↔ MaximalIn r l u := by
  constructor
  · intro hu
    refine ⟨mem_absorbed hu, fun y hy huy => ?_⟩
    obtain ⟨z, hz, hyz⟩ := covers_absorbed (r := r) l y hy
    obtain rfl := h.eq_of_le hu hz (trans_of r huy hyz)
    exact antisymm_of r hyz huy
  · rintro ⟨hu, hmax⟩
    obtain ⟨z, hz, huz⟩ := covers_absorbed (r := r) l u hu
    rwa [← hmax z (mem_absorbed hz) huz]

/-- one round keeps the antichain exactly when the new element is above one entry at most -/
theorem antichain_absorb (h : Antichain r kept) :
    Antichain r (absorb r kept x) ↔ ∀ u ∈ kept, ∀ v ∈ kept, r u x → r v x → u = v := by
  obtain ⟨hnone, heq⟩ | ⟨e, he, hxe, heq⟩ | ⟨before, e, after, hsplit, hbefore, hex, hxe, heq⟩ :=
    absorb_cases (r := r) kept x
  · refine iff_of_true ?_ (fun u hu _ _ hux => absurd hux (hnone u hu).1)
    rw [heq, Antichain, List.pairwise_append]
    refine ⟨h, List.pairwise_singleton _ x, fun a ha b hb => ?_⟩
    rw [List.mem_singleton.1 hb]
    exact hnone a ha
  · refine iff_of_true (by rw [heq]; exact h) (fun u hu v hv hux hvx => ?_)
    calc u = e := h.eq_of_le hu he (trans_of r hux hxe)
      _ = v := (h.eq_of_le hv he (trans_of r hvx hxe)).symm
  · have hparts := h
    rw [Antichain, hsplit, List.pairwise_append, List.pairwise_cons] at hparts
    obtain ⟨hfirst, ⟨hafter, hlast⟩, hcross⟩ := hparts
    rw [heq]
    constructor
    · intro hanti u hu v hv hux hvx
      have hx : x ∈ before ++ x :: after := List.mem_append_right _ List.mem_cons_self
      have honly : ∀ w ∈ kept, r w x → w = e := by
        intro w hw hwx
        rw [hsplit, List.mem_append, List.mem_cons] at hw
        rcases hw with hw | rfl | hw
        · exact absurd hwx (hbefore w hw).1
        · rfl
        · have hmem : w ∈ before ++ x :: after := List.mem_append_right _ (List.mem_cons_of_mem x hw)
          obtain rfl := hanti.eq_of_le hmem hx hwx
          exact absurd hex (hafter w hw).1
      rw [honly u hu hux, honly v hv hvx]
    · intro hone
      have he : e ∈ kept := hsplit ▸ List.mem_append_right _ List.mem_cons_self
      rw [Antichain, List.pairwise_append, List.pairwise_cons]
      refine ⟨hfirst, ⟨fun a ha => ⟨fun hxa => ?_, fun hax => ?_⟩, hlast⟩, fun a ha b hb => ?_⟩
      · exact (hafter a ha).1 (trans_of r hex hxa)
      · have hmem : a ∈ kept := hsplit ▸ List.mem_append_right _ (List.mem_cons_of_mem e ha)
        obtain rfl := hone a hmem e he hax hex
        exact (hafter a ha).1 (refl_of r a)
      · rcases List.mem_cons.1 hb with rfl | hb
        · exact hbefore a ha
        · exact hcross a ha b (List.mem_cons_of_mem e hb)

/-- **Antichains.** -/
theorem absorbed_antichain_iff (l : List α) : (∀ pre, pre <+: l → Antichain r (absorbed r pre)) ↔ OneBelow r l := by
  constructor
  · intro h pre x hpre u v hu hv hux hvx
    have hbefore : Antichain r (absorbed r pre) := h pre ((List.prefix_append pre [x]).trans hpre)
    have hafter := h (pre ++ [x]) hpre
    rw [absorbed_append, antichain_absorb hbefore] at hafter
    exact hafter u ((maximalIn_absorbed hbefore).2 hu) v ((maximalIn_absorbed hbefore).2 hv) hux hvx
  · intro hone pre hpre
    induction pre using List.reverseRecOn with
    | nil => exact List.Pairwise.nil
    | append_singleton pre x ih =>
      have hbefore := ih ((List.prefix_append pre [x]).trans hpre)
      rw [absorbed_append, antichain_absorb hbefore]
      intro u hu v hv
      exact hone pre x hpre u v ((maximalIn_absorbed hbefore).1 hu) ((maximalIn_absorbed hbefore).1 hv)

end

end AstramemLocal.Core
