/-
`validityFilterClause` of `src/search/search.ts`: the rows recall admits, at the present instant or at an `as_of`. A row
is valid in the window from `valid_from` to `valid_to`.
-/
import AstramemLocal.Core.Window
import AstramemLocal.Store.Schema

namespace AstramemLocal.Search

open AstramemLocal.Store AstramemLocal.Core

def validityFilterClause (asOf : Option Time) (now : Time) (m : Memory) : Bool :=
  match asOf with
  | none => m.validTo.all (now < ·)
  | some t => m.validFrom ≤ t ∧ m.validTo.all (t < ·)

/-- when the row is valid -/
def window (m : Memory) : Window Time := ⟨m.validFrom, m.validTo⟩

theorem validityFilterClause_now {now : Time} {m : Memory} :
    validityFilterClause none now m = true ↔ (window m).OpenAt now := by
  simp [validityFilterClause, window, Window.OpenAt, Option.all_eq_true]

theorem validityFilterClause_asOf {t now : Time} {m : Memory} :
    validityFilterClause (some t) now m = true ↔ (window m).Contains t := by
  simp [validityFilterClause, window, Window.Contains, Window.OpenAt, Option.all_eq_true]

end AstramemLocal.Search
