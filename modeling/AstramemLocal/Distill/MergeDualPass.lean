/-
What `mergeDualPassAtoms` keeps of the two passes. On the normalized texts that are not empty a merge is `absorb` of
`Core/Antichain`, by the order of substrings; an atom that normalizes to nothing is kept and compared with no other.
- `merge_covers`: every atom's text is in that of a kept atom, no kept text is in one that stands behind it, and the
  counts add up. The kept texts are an antichain when no atom's text holds two of the largest before it.
- `two_kept_in_one`: where it does, one of the two is replaced and the other one stays.
-/
import AstramemLocal.Core.Antichain
import AstramemLocal.Distill.DualPass

namespace AstramemLocal.Distill

open AstramemLocal.Core

/-! ## Model -/

structure MergeDualPassResult where
  merged : List SourcedAtom
  dedupedAway : ℕ
deriving DecidableEq, Repr

variable (C : DualPassContext)

/-- one round of the loop, with the count for the log -/
def mergeRound (s : List (KeptAtom C) × ℕ) (atom : SourcedAtom) : List (KeptAtom C) × ℕ :=
  (mergeStep C s.1 atom, if s.1.any (duplicates C atom) then s.2 + 1 else s.2)

def mergeDualPass (passA passB : List SourcedAtom) : MergeDualPassResult :=
  let s := (passA ++ passB).foldl (mergeRound C) ([], 0)
  ⟨s.1.map (·.atom), s.2⟩

/-! ## The normalized texts -/

def normOf (atom : SourcedAtom) : List Char := normalizeAtomText C atom.text

/-- the normalized texts of a list of atoms, without the empty ones -/
def norms (atoms : List SourcedAtom) : List (List Char) := (atoms.map (normOf C)).filter (· ≠ [])

/-- an entry seen by its normalized text, if it has one -/
def KeptAtom.norm? (k : KeptAtom C) : Option (List Char) := if k.norm = [] then none else some k.norm

variable {C} {kept : List (KeptAtom C)} {atom : SourcedAtom} {atoms : List SourcedAtom}

theorem mergeStep_norms (h : normOf C atom ≠ []) :
    (mergeStep C kept atom).filterMap (·.norm?) = absorb (· <:+: ·) (kept.filterMap (·.norm?)) (normOf C atom) := by
  refine settle_filterMap (if_neg h) ?_ ?_
  · intro e
    unfold duplicates KeptAtom.norm?
    unfold normOf at h ⊢
    by_cases he : e.norm = []
    · simp [he, h, Ne.symm h]
    · simp only [ne_eq, h, not_false_eq_true, he, true_and, if_false, Option.any_some, decide_eq_decide]
      constructor
      · intro hor
        rcases hor with heq | hin | hin
        · exact Or.inl (heq ▸ List.infix_rfl)
        · exact Or.inr hin
        · exact Or.inl hin
      · intro hor
        exact Or.inr hor.symm
  · intro e b hrival hview
    unfold duplicates at hrival
    unfold KeptAtom.norm? at hview
    unfold normOf shorter
    split at hview
    · cases hview
    · cases hview
      rw [decide_eq_decide]
      have hor := of_decide_eq_true hrival
      constructor
      · intro hlt hin
        exact absurd hin.length_le (not_le.2 hlt)
      · intro hnot
        have hin : e.norm <:+: normalizeAtomText C atom.text := by
          rcases hor.2 with heq | ⟨-, hin | hin⟩
          · exact heq ▸ List.infix_rfl
          · exact absurd hin hnot
          · exact hin
        refine lt_of_le_of_ne hin.length_le fun hlength => hnot ?_
        rw [hin.eq_of_length hlength]

theorem mergeStep_empty (h : normOf C atom = []) : mergeStep C kept atom = kept ++ [KeptAtom.of C atom] := by
  apply settle_none
  unfold contest
  have hfree : ∀ e : KeptAtom C, duplicates C atom e = false := by
    intro e
    unfold normOf at h
    simp [duplicates, h]
  rw [List.dropWhile_eq_nil_iff.2 fun e _ => by simp [hfree e]]

theorem fold_norms (atoms : List SourcedAtom) (kept : List (KeptAtom C)) :
    (atoms.foldl (mergeStep C) kept).filterMap (·.norm?) =
      (norms C atoms).foldl (absorb (· <:+: ·)) (kept.filterMap (·.norm?)) := by
  induction atoms generalizing kept with
  | nil => rfl
  | cons atom atoms ih =>
    rw [List.foldl_cons, ih, norms, norms, List.map_cons]
    by_cases h : normOf C atom = []
    · have hnone : (KeptAtom.of C atom).norm? = none := if_pos h
      rw [mergeStep_empty h, List.filterMap_append, List.filter_cons_of_neg (by simp [h])]
      simp [hnone]
    · rw [mergeStep_norms h, List.filter_cons_of_pos (by simp [h]), List.foldl_cons]

theorem norms_kept (kept : List (KeptAtom C)) : norms C (kept.map (·.atom)) = kept.filterMap (·.norm?) := by
  induction kept with
  | nil => rfl
  | cons k kept ih =>
    have hnorm : normOf C k.atom = k.norm := k.norm_eq.symm
    rw [norms, List.map_cons, List.map_cons, hnorm]
    by_cases h : k.norm = []
    · have hnone : k.norm? = none := if_pos h
      rw [List.filter_cons_of_neg (by simp [h]), List.filterMap_cons_none hnone, ← ih, norms]
    · have hsome : k.norm? = some k.norm := if_neg h
      rw [List.filter_cons_of_pos (by simp [h]), List.filterMap_cons_some hsome, ← ih, norms]

theorem fold_round (atoms : List SourcedAtom) (s : List (KeptAtom C) × ℕ) :
    (atoms.foldl (mergeRound C) s).1 = atoms.foldl (mergeStep C) s.1 ∧
      (atoms.foldl (mergeRound C) s).1.length + (atoms.foldl (mergeRound C) s).2 = s.1.length + s.2 + atoms.length := by
  induction atoms generalizing s with
  | nil => exact ⟨rfl, rfl⟩
  | cons atom atoms ih =>
    obtain ⟨hkept, hcount⟩ := ih (mergeRound C s atom)
    refine ⟨hkept, hcount.trans ?_⟩
    have hlength : (mergeStep C s.1 atom).length = if s.1.any (duplicates C atom) then s.1.length else s.1.length + 1 :=
      length_settle
    simp only [mergeRound, hlength, List.length_cons]
    split <;> omega

theorem mergeDualPass_merged (passA passB : List SourcedAtom) :
    (mergeDualPass C passA passB).merged = mergeDualPassAtoms C passA passB := by
  have hkept := (fold_round (C := C) (passA ++ passB) ([], 0)).1
  exact congrArg (List.map fun k : KeptAtom C => k.atom) hkept

/-- the texts that are kept -/
theorem merged_norms (passA passB : List SourcedAtom) :
    norms C (mergeDualPass C passA passB).merged = absorbed (· <:+: ·) (norms C (passA ++ passB)) := by
  rw [mergeDualPass_merged, mergeDualPassAtoms, norms_kept]
  exact fold_norms (passA ++ passB) []

/-- atoms without letters and digits are kept, all of them -/
theorem merged_blank (passA passB : List SourcedAtom) :
    (mergeDualPass C passA passB).merged.filter (normOf C · = []) = (passA ++ passB).filter (normOf C · = []) := by
  have hfold : ∀ (atoms : List SourcedAtom) (kept : List (KeptAtom C)),
      (atoms.foldl (mergeStep C) kept).filter (fun k => normOf C k.atom = []) =
        kept.filter (fun k => normOf C k.atom = []) ++ (atoms.filter (normOf C · = [])).map (KeptAtom.of C) := by
    intro atoms
    induction atoms with
    | nil => simp
    | cons atom atoms ih =>
      intro kept
      rw [List.foldl_cons, ih]
      by_cases h : normOf C atom = []
      · have hof : normOf C (KeptAtom.of C atom).atom = [] := h
        rw [mergeStep_empty h, List.filter_append, List.filter_cons_of_pos (by simpa using hof), List.filter_nil,
          List.filter_cons_of_pos (by simpa using h), List.map_cons, List.append_assoc, List.singleton_append]
      · have hstays : (mergeStep C kept atom).filter (fun k => normOf C k.atom = []) =
            kept.filter (fun k => normOf C k.atom = []) := by
          apply settle_filter
          · exact decide_eq_false h
          · intro e hrival
            have hor := of_decide_eq_true hrival
            have hne : e.norm ≠ [] := by
              rcases hor.2 with heq | ⟨hne, -⟩
              · exact heq ▸ hor.1
              · exact hne
            have hnorm : normOf C e.atom = e.norm := e.norm_eq.symm
            simpa [hnorm] using hne
        rw [hstays, List.filter_cons_of_neg (by simpa using h)]
  rw [mergeDualPass_merged, mergeDualPassAtoms, List.filter_map]
  have hblank := hfold (passA ++ passB) []
  rw [List.filter_nil, List.nil_append] at hblank
  refine (congrArg (List.map (·.atom)) hblank).trans ?_
  rw [List.map_map]
  exact List.map_id _

theorem mem_norms {n : List Char} : n ∈ norms C atoms ↔ n ≠ [] ∧ ∃ x ∈ atoms, normOf C x = n := by
  rw [norms, List.mem_filter, List.mem_map, decide_eq_true_eq, and_comm]

/-- **What a merge keeps.** The text of every atom is in that of a kept one; merged and deduped atoms are all of them; atoms
without letters and digits are kept; no other kept text is in one that stands behind it; and when no atom's text holds two
of the maximal texts before it, none is in any other. -/
theorem merge_covers (C : DualPassContext) (passA passB : List SourcedAtom) :
    (∀ x ∈ passA ++ passB, ∃ y ∈ (mergeDualPass C passA passB).merged, normOf C x <:+: normOf C y) ∧
    (mergeDualPass C passA passB).merged.length + (mergeDualPass C passA passB).dedupedAway =
      passA.length + passB.length ∧
    (mergeDualPass C passA passB).merged.filter (normOf C · = []) = (passA ++ passB).filter (normOf C · = []) ∧
    Orderly (· <:+: ·) (norms C (mergeDualPass C passA passB).merged) ∧
    (OneBelow (· <:+: ·) (norms C (passA ++ passB)) → Antichain (· <:+: ·) (norms C (mergeDualPass C passA passB).merged)) := by
  refine ⟨?_, ?_, merged_blank passA passB, ?_, ?_⟩
  · intro x hx
    by_cases h : normOf C x = []
    · have hmem : x ∈ (mergeDualPass C passA passB).merged.filter (normOf C · = []) := by
        rw [merged_blank]
        exact List.mem_filter.2 ⟨hx, decide_eq_true h⟩
      exact ⟨x, (List.mem_filter.1 hmem).1, List.infix_rfl⟩
    · obtain ⟨n, hn, hin⟩ := covers_absorbed (r := (· <:+: ·)) (norms C (passA ++ passB)) _ (mem_norms.2 ⟨h, x, hx, rfl⟩)
      rw [← merged_norms] at hn
      obtain ⟨-, y, hy, rfl⟩ := mem_norms.1 hn
      exact ⟨y, hy, hin⟩
  · have hcount := (fold_round (C := C) (passA ++ passB) ([], 0)).2
    rw [List.length_append] at hcount
    simpa [mergeDualPass] using hcount
  · rw [merged_norms]
    exact absorbed_orderly _
  · intro hone
    rw [merged_norms]
    exact (absorbed_antichain_iff _).2 hone _ List.prefix_rfl

def plainContext : DualPassContext where
  toLowerCase := id
  isLetterOrNumber := Char.isAlphanum
  sha256 := fun _ => 0
  sourceText := none
  evidenceGateEnabled := false
  otherFilters := fun _ => true

def plainAtom (text : String) : SourcedAtom := ⟨⟨text, 1, none⟩, none⟩

/-- The third atom holds the texts of the first two and replaces the first only; and a text of punctuation alone is in
every other. -/
theorem two_kept_in_one :
    (mergeDualPass plainContext [plainAtom "ab", plainAtom "cd"] [plainAtom "ab cd"]).merged =
        [plainAtom "ab cd", plainAtom "cd"] ∧
      normOf plainContext (plainAtom "cd") <:+: normOf plainContext (plainAtom "ab cd") ∧
    (mergeDualPass plainContext [plainAtom "...", plainAtom "ab"] []).merged = [plainAtom "...", plainAtom "ab"] ∧
      normOf plainContext (plainAtom "...") <:+: normOf plainContext (plainAtom "ab") := by
  decide +kernel

end AstramemLocal.Distill
