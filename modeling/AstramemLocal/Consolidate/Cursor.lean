/-
`src/storage/consolidation-cursor.ts` and the group order of `src/consolidate/consolidate.ts`: a run that stops early
keeps the key of the next group, and the next run starts there.
* `every_group_attempted`: while the groups stay the same, one more run than there are groups attempts every group,
  wherever each of them stops and whatever the cursor held before.
* `runCursor_cut_load`: a run whose loading was cut short attempts no group and forgets where it was to resume.
-/
import AstramemLocal.Consolidate.Candidates
import AstramemLocal.Core.Rotation

namespace AstramemLocal.Consolidate

open AstramemLocal.Store

/-- `consolidation_cursor`: no row, or the row with its `group_key` -/
abbrev CursorRow := Option (Option GroupKey)

/-- the key as the code compares it: code units of `repo`, NUL and type -/
def keyUnits (k : GroupKey) : Core.JsString :=
  Core.JsString.ofString k.1 ++ 0 :: Core.JsString.ofString (typeText k.2)

/-- the oldest atom of a group is its first -/
def oldest (g : GroupEntry) : Time := (g.atoms.head?.map (·.createdAt)).getD 0

def groupLe (x y : GroupEntry) : Bool :=
  if oldest x ≠ oldest y then decide (oldest x < oldest y) else decide (¬ keyUnits y.key < keyUnits x.key)

def sortedGroups (groups : List GroupEntry) : List GroupEntry := groups.insertionSort fun x y => groupLe x y = true

/-- the order in which a run scans -/
def groupOrder (ceilingActive : Bool) (cursor : CursorRow) (allGroups : List GroupEntry) : List GroupEntry :=
  match cursor.join with
  | none => if ceilingActive then sortedGroups allGroups else allGroups
  | some key => Core.rotateTo (·.key) key (sortedGroups allGroups)

/-- the cursor behind the loop; `stoppedAt` is `ceilingHitAtGroupIndex`, for the ceiling, the budget and a preemption -/
def nextCursor (ceilingActive : Bool) (cursor : CursorRow) (order : List GroupEntry) (stoppedAt : Option ℕ) : CursorRow :=
  match stoppedAt with
  | some gi => some (order[gi + 1]?.map (·.key))
  | none => if ceilingActive ∨ cursor.join ≠ none then some none else cursor

/-- where a run ends: it loaded all atoms and stopped at a group, or it came through, or the load was cut short -/
inductive RunEnd where
  | stoppedAt (gi : ℕ)
  | finished
  | loadCut
deriving DecidableEq, Repr

def RunEnd.index : RunEnd → Option ℕ
  | .stoppedAt gi => some gi
  | _ => none

/-- the groups a run attempts: all before the one it stops at are scanned, and that one is begun -/
def attempted (order : List GroupEntry) : RunEnd → List GroupEntry
  | .stoppedAt gi => order.take (gi + 1)
  | .finished => order
  | .loadCut => []

/-- the cursor after one run -/
def runCursor (ceilingActive : Bool) (groups : List GroupEntry) (cursor : CursorRow) (stop : RunEnd) : CursorRow :=
  nextCursor ceilingActive cursor (groupOrder ceilingActive cursor groups) stop.index

/-- what the runs attempt, one after the other -/
def passes (ceilingActive : Bool) (groups : List GroupEntry) : CursorRow → List RunEnd → List (List GroupEntry)
  | _, [] => []
  | cursor, stop :: stops =>
    attempted (groupOrder ceilingActive cursor groups) stop ::
      passes ceilingActive groups (runCursor ceilingActive groups cursor stop) stops

/-- **A load that was cut short** scans nothing, and a cursor that was there is reset. -/
theorem runCursor_cut_load (ceilingActive : Bool) (groups : List GroupEntry) (cursor : CursorRow)
    (h : cursor.join ≠ none) :
    attempted (groupOrder ceilingActive cursor groups) .loadCut = [] ∧
      runCursor ceilingActive groups cursor .loadCut = some none := by
  refine ⟨rfl, ?_⟩
  simp [runCursor, nextCursor, RunEnd.index, h]

section
variable {ceilingActive : Bool} {groups : List GroupEntry}

theorem groupOrder_perm (cursor : CursorRow) : (groupOrder ceilingActive cursor groups).Perm groups := by
  unfold groupOrder
  split
  · split_ifs
    · exact List.perm_insertionSort _ _
    · exact List.Perm.refl _
  · exact (Core.rotateTo_isRotated _).perm.trans (List.perm_insertionSort _ _)

/-- the groups that follow a kept cursor are the rest of the rotation -/
theorem passes_rotate (hkeys : (groups.map (·.key)).Nodup) {order : List GroupEntry}
    (hrot : order ~r sortedGroups groups) {c : ℕ} (hc : c < order.length) :
    groupOrder ceilingActive (some (some order[c].key)) groups = order.rotate c := by
  have hsorted : ((sortedGroups groups).map (·.key)).Nodup :=
    ((List.perm_insertionSort _ _).map _).nodup_iff.2 hkeys
  exact Core.rotateTo_getElem hsorted hrot hc

/-- a run that starts from a rotation of the sorted groups, and the runs behind it -/
theorem attempted_of_rotation (hkeys : (groups.map (·.key)).Nodup) {stops : List RunEnd}
    (hload : ∀ stop ∈ stops, stop ≠ .loadCut) {cursor : CursorRow}
    (hrot : groupOrder ceilingActive cursor groups ~r sortedGroups groups) {g : GroupEntry}
    (hg : g ∈ (groupOrder ceilingActive cursor groups).take stops.length) :
    ∃ pass ∈ passes ceilingActive groups cursor stops, g ∈ pass := by
  induction stops generalizing cursor with
  | nil => simp at hg
  | cons stop stops ih =>
    by_cases hnow : g ∈ attempted (groupOrder ceilingActive cursor groups) stop
    · exact ⟨_, List.mem_cons_self, hnow⟩
    · cases stop with
      | loadCut => exact absurd rfl (hload .loadCut List.mem_cons_self)
      | finished => exact absurd (List.mem_of_mem_take hg) hnow
      | stoppedAt gi =>
        have hlt : gi + 1 < (groupOrder ceilingActive cursor groups).length := by
          by_contra hlast
          rw [attempted, List.take_of_length_le (by omega)] at hnow
          exact hnow (List.mem_of_mem_take hg)
        have hcursor : runCursor ceilingActive groups cursor (.stoppedAt gi) =
            some (some (groupOrder ceilingActive cursor groups)[gi + 1].key) := by
          rw [runCursor, RunEnd.index, nextCursor, List.getElem?_eq_getElem hlt, Option.map_some]
        have horder :
            groupOrder ceilingActive (some (some (groupOrder ceilingActive cursor groups)[gi + 1].key)) groups =
              (groupOrder ceilingActive cursor groups).rotate (gi + 1) := passes_rotate hkeys hrot hlt
        have hnext := Core.mem_take_rotate (Nat.le_add_left 1 gi) hg hnow
        rw [← horder, ← hcursor] at hnext
        have hstill : groupOrder ceilingActive (runCursor ceilingActive groups cursor (.stoppedAt gi)) groups ~r
            sortedGroups groups := by
          rw [hcursor, horder]
          exact (List.IsRotated.forall _ _).trans hrot
        obtain ⟨pass, hpass, hmem⟩ := ih (fun s hs => hload s (List.mem_cons_of_mem _ hs)) hstill hnext
        exact ⟨pass, List.mem_cons_of_mem _ hpass, hmem⟩

/-- **No group is starved.** While the groups stay the same, one more run than there are groups attempts every group:
from any cursor, and wherever each of the runs stops. -/
theorem every_group_attempted {atoms : List AtomRow} (ceilingActive : Bool) (cursor : CursorRow) {stops : List RunEnd}
    (hload : ∀ stop ∈ stops, stop ≠ .loadCut) (hruns : (groupAtoms atoms).length < stops.length) :
    ∀ g ∈ groupAtoms atoms, ∃ pass ∈ passes ceilingActive (groupAtoms atoms) cursor stops, g ∈ pass := by
  intro g hg
  have hkeys := groupAtoms_nodup atoms
  generalize groupAtoms atoms = groups at *
  have hall : ∀ cursor n, groups.length ≤ n → g ∈ (groupOrder ceilingActive cursor groups).take n := by
    intro cursor n hn
    have hperm : (groupOrder ceilingActive cursor groups).Perm groups := groupOrder_perm cursor
    rw [List.take_of_length_le (hperm.length_eq ▸ hn)]
    exact hperm.mem_iff.2 hg
  by_cases hsorted : groupOrder ceilingActive cursor groups ~r sortedGroups groups
  · exact attempted_of_rotation hkeys hload hsorted (hall cursor _ hruns.le)
  · -- neither a ceiling nor a cursor: the first run takes the natural order, and leaves a cursor unless it sees all
    cases stops with
    | nil => simp at hruns
    | cons stop stops =>
      rw [List.length_cons] at hruns
      by_cases hnow : g ∈ attempted (groupOrder ceilingActive cursor groups) stop
      · exact ⟨_, List.mem_cons_self, hnow⟩
      · have hrest : groupOrder ceilingActive (runCursor ceilingActive groups cursor stop) groups ~r
            sortedGroups groups := by
          cases stop with
          | loadCut => exact absurd rfl (hload .loadCut List.mem_cons_self)
          | finished => exact absurd (List.mem_of_mem_take (hall cursor groups.length le_rfl)) hnow
          | stoppedAt gi =>
            have hlt : gi + 1 < (groupOrder ceilingActive cursor groups).length := by
              by_contra hlast
              rw [attempted, List.take_of_length_le (by omega)] at hnow
              exact hnow (List.mem_of_mem_take (hall cursor groups.length le_rfl))
            rw [runCursor, RunEnd.index, nextCursor, List.getElem?_eq_getElem hlt, Option.map_some]
            exact Core.rotateTo_isRotated _
        obtain ⟨pass, hpass, hmem⟩ := attempted_of_rotation hkeys
          (fun s hs => hload s (List.mem_cons_of_mem _ hs)) hrest (hall _ _ (by omega))
        exact ⟨pass, List.mem_cons_of_mem _ hpass, hmem⟩

end

end AstramemLocal.Consolidate
