/-
Stage 6 (`06-reduce.ts`): one atom for each content, the most important one. The map of the source is keyed by the hash
of the normalized text and keeps its insertion order, so `reduce` is the loop of `Core/Champions` over the atoms with
their hashes (`reduce_eq`), and `reduce_keeps_best` reads its results off.
-/
import AstramemLocal.Core.Champions
import AstramemLocal.Distill.DualPass
import Mathlib.Algebra.Order.Ring.Rat

namespace AstramemLocal.Distill

open AstramemLocal.Store AstramemLocal.Core

variable (C : DualPassContext)

/-- the atom with its hash, as the map holds it -/
def hashed (atom : SourcedAtom) : ReducedAtom := ⟨atom, contentHash C atom.text⟩

/-- the hashes of the input, in its order -/
def inputHashes (atoms : List SourcedAtom) : List Hash := atoms.map fun a => contentHash C a.text

theorem hashed_hashes (atoms : List SourcedAtom) : (atoms.map (hashed C)).map (·.contentHash) = inputHashes C atoms := by
  rw [List.map_map]
  rfl

theorem reduce_eq (atoms : List SourcedAtom) :
    reduce C atoms = champions (·.contentHash) (fun r : ReducedAtom => r.importance) (atoms.map (hashed C)) := by
  unfold champions
  rw [List.foldl_map]
  rfl

variable {C}

/-- an entry of the map is an atom of the list with its hash -/
theorem mem_reduce_hashed {atoms : List SourcedAtom} {r : ReducedAtom} (h : r ∈ reduce C atoms) :
    hashed C r.toSourcedAtom = r := by
  rw [reduce_eq] at h
  obtain ⟨a, -, rfl⟩ := List.mem_map.1 (champions_best h).1
  rfl

/-- **Reduce.** One atom for each hash of the input, in the order of first occurrence, and none of the hash is more
important; a second run changes nothing. -/
theorem reduce_keeps_best (C : DualPassContext) (atoms : List SourcedAtom) :
    ((reduce C atoms).map (·.contentHash)).Nodup ∧
    (∀ a ∈ atoms, ∃ r ∈ reduce C atoms, r.contentHash = contentHash C a.text) ∧
    (∀ r ∈ reduce C atoms, r.toSourcedAtom ∈ atoms ∧ r.contentHash = contentHash C r.text ∧
      ∀ a ∈ atoms, contentHash C a.text = r.contentHash → a.importance ≤ r.importance) ∧
    ((reduce C atoms).map (·.contentHash)).Pairwise (fun first second =>
      (inputHashes C atoms).idxOf first < (inputHashes C atoms).idxOf second) ∧
    reduce C ((reduce C atoms).map (·.toSourcedAtom)) = reduce C atoms := by
  refine ⟨?_, ?_, ?_, ?_, ?_⟩
  · rw [reduce_eq]
    exact champions_nodup
  · intro a ha
    have hin : contentHash C a.text ∈ (atoms.map (hashed C)).map (·.contentHash) :=
      List.mem_map.2 ⟨hashed C a, List.mem_map_of_mem ha, rfl⟩
    rw [reduce_eq]
    exact List.mem_map.1 (mem_champions_keys.2 hin)
  · intro r hr
    have hown := mem_reduce_hashed hr
    refine ⟨mem_reduce hr, ?_, ?_⟩
    · rw [← hown]
      rfl
    · intro a ha hhash
      rw [reduce_eq] at hr
      exact (champions_best hr).2 (hashed C a) (List.mem_map_of_mem ha) hhash
  · rw [reduce_eq, ← hashed_hashes]
    exact champions_order
  · have hagain : ((reduce C atoms).map (·.toSourcedAtom)).map (hashed C) = reduce C atoms := by
      rw [List.map_map]
      exact (List.map_congr_left fun r hr => mem_reduce_hashed hr).trans (List.map_id _)
    rw [reduce_eq C ((reduce C atoms).map (·.toSourcedAtom)), hagain, reduce_eq]
    exact champions_idem

end AstramemLocal.Distill
