/-
The transcript text the pipeline works on: `flatten-turns.ts` writes each turn as a line `role: [speaker] text`, and
`locate-evidence.ts` and `attribute-speaker.ts` read such lines back with one regular expression each. Their shared
second tier compares token sets.
-/
import AstramemLocal.Core.JsString
import Mathlib.Algebra.Order.Ring.Rat
import Mathlib.Data.List.Dedup
import Mathlib.Tactic.NormNum

namespace AstramemLocal.Distill

open AstramemLocal.Core JsString

/-! ## `flatten-turns.ts` -/

structure Turn where
  role : JsString
  text : JsString
  speaker : Option JsString := none
deriving DecidableEq, Repr

/-- the line of a turn; an empty name is falsy -/
def Turn.line (t : Turn) : JsString :=
  match t.speaker.filter (· ≠ []) with
  | some speaker => t.role ++ ofString ": [" ++ speaker ++ ofString "] " ++ t.text
  | none => t.role ++ ofString ": " ++ t.text

/-- `parsed` is the array in `content`, when that is JSON, an array, and every item passes `TurnLikeSchema` -/
def flattenTranscriptContent (content : JsString) (parsed : Option (List Turn)) : JsString :=
  match parsed with
  | none | some [] => content
  | some turns => [newline].intercalate (turns.map Turn.line)

/-! ## The lines read back -/

def roles : List JsString := ["user", "assistant", "system", "human", "ai"].map ofString

/-- case folding of the flag `i`, which maps no other unit to an ASCII letter -/
def foldCase (u : ℕ) : ℕ := if 0x41 ≤ u ∧ u ≤ 0x5a then u + 0x20 else u

/-- `^(?:user|assistant|system|human|ai)\s*:\s*`: no role is the beginning of another -/
def afterRole (line : JsString) : Option JsString :=
  match roles.find? fun role => (line.take role.length).map foldCase = role with
  | none => none
  | some role =>
    match (line.drop role.length).dropWhile JsString.isSpace with
    | [] => none
    | c :: rest => if [c] = ofString ":" then some (rest.dropWhile JsString.isSpace) else none

def closingBracket : ℕ := 0x5d

/-- `\[([^\]]+)\]\s*`: the label and the rest -/
def afterLabel : JsString → Option (JsString × JsString)
  | [] => none
  | c :: rest =>
    let label := rest.takeWhile (· ≠ closingBracket)
    let closed := rest.dropWhile (· ≠ closingBracket)
    if [c] = ofString "[" ∧ label ≠ [] ∧ closed ≠ [] then some (label, closed.tail.dropWhile JsString.isSpace) else none

/-- `(.*)$`; when it fails it fails further to the left too, so nothing is gained by backtracking -/
def toEnd (rest : JsString) : Option JsString := if rest.any isLineTerminator then none else some rest

theorem afterRole_suffix {line rest : JsString} (h : afterRole line = some rest) : rest <:+ line := by
  unfold afterRole at h
  split at h
  · cases h
  next role _ =>
    split at h
    · cases h
    next c tail hspaces =>
      split at h
      · obtain rfl := Option.some.inj h
        have hline : line.drop role.length <:+ line := List.drop_suffix _ _
        have hcolon : c :: tail <:+ line := hspaces ▸ (List.dropWhile_suffix JsString.isSpace).trans hline
        exact ((List.dropWhile_suffix JsString.isSpace).trans (List.suffix_cons c tail)).trans hcolon
      · cases h

theorem afterLabel_suffix {rest label utterance : JsString} (h : afterLabel rest = some (label, utterance)) :
    utterance <:+ rest := by
  unfold afterLabel at h
  split at h
  · cases h
  next c tail =>
    dsimp only at h
    split at h
    · obtain ⟨-, rfl⟩ := Prod.mk.inj (Option.some.inj h)
      have hclosed : tail.dropWhile (· ≠ closingBracket) <:+ c :: tail :=
        (List.dropWhile_suffix _).trans (List.suffix_cons c tail)
      exact ((List.dropWhile_suffix JsString.isSpace).trans (List.tail_suffix _)).trans hclosed
    · cases h

def colon : ℕ := 0x3a

/-- the match goes up to the first colon of the line -/
theorem afterRole_eq {line rest : JsString} (h : afterRole line = some rest) :
    ∃ head tail, colon ∉ head ∧ line = head ++ colon :: tail ∧ rest = tail.dropWhile JsString.isSpace := by
  unfold afterRole at h
  split at h
  · cases h
  next role hrole =>
    split at h
    · cases h
    next c tail hspaces =>
      split at h
      next hc =>
        obtain rfl : c = colon := (List.cons.inj (hc.trans (by decide : ofString ":" = [colon]))).1
        obtain ⟨spaces, hsplit, hblank⟩ : ∃ spaces, line.drop role.length = spaces ++ colon :: tail ∧ colon ∉ spaces := by
          refine ⟨(line.drop role.length).takeWhile JsString.isSpace, ?_, ?_⟩
          · rw [← hspaces, List.takeWhile_append_dropWhile]
          · intro hmem
            exact absurd (List.mem_takeWhile_imp hmem) (by decide)
        refine ⟨line.take role.length ++ spaces, tail, ?_, ?_, (Option.some.inj h).symm⟩
        · intro hmem
          rcases List.mem_append.1 hmem with hmem | hmem
          · have hfold : (line.take role.length).map foldCase = role := by simpa using List.find?_some hrole
            have hin : colon ∈ role := hfold ▸ List.mem_map.2 ⟨colon, hmem, by decide⟩
            exact absurd hin ((by decide : ∀ role ∈ roles, colon ∉ role) role (List.mem_of_find?_eq_some hrole))
          · exact hblank hmem
        · rw [List.append_assoc, ← hsplit, List.take_append_drop]
      · cases h

/-! ## Token containment -/

/-- the language's Unicode tables -/
structure Unicode where
  toLowerCase : JsString → JsString
  /-- `.replace(/[^\p{L}\p{N}\s]/gu, ' ')` -/
  blankOthers : JsString → JsString

variable (U : Unicode)

/-- `.split(/\s+/).filter(Boolean)`: runs of separators leave empty parts, which the filter drops -/
def normalizeTokens (s : JsString) : List JsString :=
  ((U.blankOthers (U.toLowerCase s)).splitOnP JsString.isSpace).filter (· ≠ [])

def tokenContainment (a b : JsString) : ℚ :=
  let ta := (normalizeTokens U a).dedup
  let tb := (normalizeTokens U b).dedup
  if ta = [] ∨ tb = [] then 0
  else
    let small := if ta.length ≤ tb.length then ta else tb
    let big := if ta.length ≤ tb.length then tb else ta
    (small.filter (· ∈ big)).length / small.length

def minFuzzyEvidenceTokens : ℕ := 4

def matchThreshold : ℚ := 3 / 5

def ambiguityMargin : ℚ := 2 / 25

theorem ambiguityMargin_pos : 0 < ambiguityMargin := by
  unfold ambiguityMargin
  norm_num

/-- the tables for ASCII -/
def asciiTables : Unicode where
  toLowerCase := List.map foldCase
  blankOthers := List.map fun u =>
    if 0x30 ≤ u ∧ u ≤ 0x39 ∨ 0x41 ≤ u ∧ u ≤ 0x5a ∨ 0x61 ≤ u ∧ u ≤ 0x7a ∨ JsString.isSpace u then u else 0x20

end AstramemLocal.Distill
