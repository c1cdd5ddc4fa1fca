/-
Line endings. `unixEndings` turns each CR LF of a text into an LF, as `replace(/\r\n/g, '\n')` does, and `endedLines` are
the lines of a text, whichever of the two ends them. Two texts have the same lines exactly when they agree in the LF form
(`unixEndings_eq_iff`); a text is in this form exactly when no CR LF occurs in it (`unixEndings_eq_self_iff`).
-/
import AstramemLocal.Core.JsString

namespace AstramemLocal.Core.JsString

def unixEndings : JsString → JsString
  | 0xd :: 0xa :: rest => 0xa :: unixEndings rest
  | u :: rest => u :: unixEndings rest
  | [] => []

def endedLines : JsString → List JsString
  | 0xd :: 0xa :: rest => [] :: endedLines rest
  | u :: rest => if u = 0xa then [] :: endedLines rest else (endedLines rest).modifyHead (u :: ·)
  | [] => [[]]

theorem endedLines_eq (text : JsString) : endedLines text = (unixEndings text).splitOn 0xa := by
  fun_induction unixEndings text with
  | case1 rest ih => rw [endedLines, ih, List.splitOn_cons_eq_if_modifyHead, if_pos (by simp)]
  | case2 u rest hpair ih =>
    rw [endedLines, ih, List.splitOn_cons_eq_if_modifyHead]
    · simp
    · exact hpair
  | case3 => simp [endedLines, List.splitOn_nil]

theorem unixEndings_eq_iff {a b : JsString} : unixEndings a = unixEndings b ↔ endedLines a = endedLines b := by
  rw [endedLines_eq, endedLines_eq]
  constructor
  · exact fun h => by rw [h]
  · intro h
    have hjoined := congrArg [0xa].intercalate h
    rwa [List.intercalate_splitOn, List.intercalate_splitOn] at hjoined

theorem unixEndings_eq_self_iff (text : JsString) : unixEndings text = text ↔ ¬ [0xd, 0xa] <:+: text := by
  fun_induction unixEndings text with
  | case1 rest ih => simpa using (List.prefix_append [0xd, 0xa] rest).isInfix
  | case2 u rest hpair ih =>
    rw [List.cons.injEq, and_iff_right rfl, ih, List.infix_cons_iff, not_or]
    refine (and_iff_right ?_).symm
    intro hprefix
    obtain ⟨tail, htail⟩ := hprefix
    obtain ⟨rfl, rfl⟩ := List.cons.inj htail
    exact hpair tail rfl rfl
  | case3 => simp

end AstramemLocal.Core.JsString
