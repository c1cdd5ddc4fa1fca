/-
`src/consolidate/command-guard.ts`: a pair with a command never merges by itself unless both texts have the same tokens.
`commandGuardBlocksMerge_eq_false` says what an unblocked pair is; the guard does not see the order of the pair
(`commandGuardBlocksMerge_comm`) and never blocks a text against itself (`commandGuardBlocksMerge_self`).
-/
import AstramemLocal.Core.Text
import AstramemLocal.Store.Schema
import Mathlib.Data.List.Dedup
import Mathlib.Data.List.Perm.Subperm

namespace AstramemLocal.Consolidate

open AstramemLocal.Store

def isQuote (c : Char) : Bool := c = '\'' || c = '"' || c.val = 0x60

/-- one token: path separators turned, quotes off either end -/
def commandToken (tok : List Char) : List Char :=
  ((tok.map fun c => if c = '\\' then '/' else c).dropWhile isQuote).rdropWhile isQuote

/-- `new Set(..)` of the tokens; the empty pieces between the blanks of a run are dropped with the other empty ones -/
def tokenizeCommandSurface (text : String) : List (List Char) :=
  (((text.toList.splitOnP Core.isSpace).map commandToken).filter (· ≠ [])).dedup

/-- on the elements of two sets -/
def tokenSetsEqual (a b : List (List Char)) : Bool := a.length = b.length && a.all (b.contains ·)

/-- what the guard reads of an atom -/
structure CommandSurface where
  type : MemoryType
  text : String
deriving DecidableEq, Repr

def commandGuardBlocksMerge (a b : CommandSurface) : Bool :=
  if a.type ≠ .command ∧ b.type ≠ .command then false
  else !tokenSetsEqual (tokenizeCommandSurface a.text) (tokenizeCommandSurface b.text)

theorem tokenSetsEqual_iff {a b : List (List Char)} (ha : a.Nodup) (hb : b.Nodup) :
    tokenSetsEqual a b = true ↔ ∀ tok, tok ∈ a ↔ tok ∈ b := by
  simp only [tokenSetsEqual, Bool.and_eq_true, decide_eq_true_eq, List.all_eq_true, List.contains_iff_mem]
  constructor
  · rintro ⟨hlength, hsub⟩ tok
    have hperm : a.Perm b := (List.subperm_of_subset ha hsub).perm_of_length_le hlength.ge
    exact hperm.mem_iff
  · intro h
    exact ⟨((List.perm_ext_iff_of_nodup ha hb).2 h).length_eq, fun tok htok => (h tok).1 htok⟩

theorem tokenizeCommandSurface_nodup (text : String) : (tokenizeCommandSurface text).Nodup := List.nodup_dedup _

/-- two texts of one command: the same tokens, in any order and number -/
def SameTokens (a b : String) : Prop := ∀ tok, tok ∈ tokenizeCommandSurface a ↔ tok ∈ tokenizeCommandSurface b

theorem commandGuardBlocksMerge_eq_false {a b : CommandSurface} :
    commandGuardBlocksMerge a b = false ↔ (a.type = .command ∨ b.type = .command → SameTokens a.text b.text) := by
  have hsets := tokenSetsEqual_iff (tokenizeCommandSurface_nodup a.text) (tokenizeCommandSurface_nodup b.text)
  unfold commandGuardBlocksMerge
  split_ifs with hnone
  · exact iff_of_true rfl fun h => absurd h (by tauto)
  · have hsome : a.type = .command ∨ b.type = .command := by tauto
    rw [Bool.not_eq_false', hsets]
    exact ⟨fun h _ => h, fun h => h hsome⟩

theorem commandGuardBlocksMerge_comm (a b : CommandSurface) :
    commandGuardBlocksMerge a b = commandGuardBlocksMerge b a := by
  have hiff : commandGuardBlocksMerge a b = false ↔ commandGuardBlocksMerge b a = false := by
    rw [commandGuardBlocksMerge_eq_false, commandGuardBlocksMerge_eq_false, or_comm]
    exact imp_congr_right fun _ => forall_congr' fun _ => Iff.comm
  rw [Bool.eq_iff_iff, ← not_iff_not, Bool.not_eq_true, Bool.not_eq_true]
  exact hiff

theorem commandGuardBlocksMerge_self (a : CommandSurface) : commandGuardBlocksMerge a a = false :=
  commandGuardBlocksMerge_eq_false.2 fun _ _ => Iff.rfl

/-- the two commands the guard was written for -/
example : commandGuardBlocksMerge ⟨.command, "git checkout A.ts"⟩ ⟨.command, "git checkout B.ts"⟩ = true := by
  decide +kernel

example : commandGuardBlocksMerge ⟨.command, "git checkout -- 'A.ts'"⟩ ⟨.fact, "git  checkout A.ts --"⟩ = false := by
  decide +kernel

end AstramemLocal.Consolidate
