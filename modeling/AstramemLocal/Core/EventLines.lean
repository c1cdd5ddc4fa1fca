/-
Event streams as lines. A text that is trimmed, split at LF and trimmed line by line has, but for blank ones, the trimmed
lines of the text (`filterMap_trimmedLines`), whether they end in LF or in CR LF (`trimmedLines_terminated`). Splitting at two LF in a row (`blocks`) splits
in front of an empty line (`blocks_opening`).
-/
import AstramemLocal.Core.JsString
import AstramemLocal.Core.Lines

namespace AstramemLocal.Core

namespace JsString

/-! ## Runs of white space -/

/-- `text.replace(/\s+/g, ' ')` -/
def collapseSpace (text : JsString) : JsString :=
  (text.splitBy fun a b => isSpace a = isSpace b).flatMap fun run => if run.any isSpace then [0x20] else run

/-- what stands between the runs -/
def words (text : JsString) : List JsString := (text.splitOnP isSpace).filter (· ≠ [])

/-! ## Trimmed lines -/

def trimmedLines (text : JsString) : List JsString := (lines text).map trim

variable {s line : JsString} {u : ℕ}

theorem trim_cons_space (h : isSpace u = true) : trim (u :: s) = trim s := by
  rw [trim, trimStart, List.dropWhile_cons_of_pos h]
  rfl

theorem trim_concat_space (h : isSpace u = true) : trim (s ++ [u]) = trim s := by
  unfold trim trimEnd trimStart
  rw [List.dropWhile_append]
  split_ifs with hempty
  · rw [List.isEmpty_iff] at hempty
    rw [hempty, List.dropWhile_cons_of_pos h]
    rfl
  · rw [List.rdropWhile_concat_pos _ _ _ h]

theorem lines_cons (u : ℕ) (s : JsString) :
    lines (u :: s) = if u = newline then [] :: lines s else (lines s).modifyHead (u :: ·) := by
  rw [lines, List.splitOn_cons_eq_if_modifyHead]
  simp [lines]

theorem lines_concat_newline (s : JsString) : lines (s ++ [newline]) = lines s ++ [[]] := by
  rw [lines, List.splitOn_append_cons_self]
  simp [lines]

theorem lines_ne_nil (s : JsString) : lines s ≠ [] := List.splitOn_ne_nil newline s

theorem newline_notMem (h : line ∈ lines s) : newline ∉ line := notMem_of_mem_splitOn newline h

/-- lines that hold no line break, joined by LF -/
theorem lines_intercalate {parts : List JsString} (hparts : ∀ part ∈ parts, newline ∉ part) (hne : parts ≠ []) :
    lines ([newline].intercalate parts) = parts := List.splitOn_intercalate newline hparts hne

/-- a unit at the end of the text is one at the end of its last line -/
theorem exists_last_line (s : JsString) : ∃ before last, lines s = before ++ [last] ∧
    ∀ u ≠ newline, lines (s ++ [u]) = before ++ [last ++ [u]] := by
  obtain ⟨before, last, hsplit⟩ : ∃ before last, lines s = before ++ [last] :=
    ⟨_, _, (List.dropLast_append_getLast (lines_ne_nil s)).symm⟩
  refine ⟨before, last, hsplit, fun u hu => ?_⟩
  have hs : s = [newline].intercalate (before ++ [last]) := by rw [← hsplit, lines, List.intercalate_splitOn]
  have hjoin : s ++ [u] = [newline].intercalate (before ++ [last ++ [u]]) := by
    rw [hs]
    simp only [intercalate_at, closing, List.append_nil, List.append_assoc]
  rw [hjoin]
  apply lines_intercalate _ (by simp)
  intro part hpart
  rcases List.mem_append.1 hpart with hpart | hpart
  · exact newline_notMem (s := s) (hsplit ▸ List.mem_append_left _ hpart)
  · rw [List.mem_singleton.1 hpart, List.mem_append, List.mem_singleton, not_or]
    exact ⟨newline_notMem (s := s) (hsplit ▸ List.mem_append_right _ (List.mem_singleton_self last)), hu.symm⟩

variable {α : Type*} {f : JsString → Option α}

theorem filterMap_cons_space (hf : f [] = none) (h : isSpace u = true) :
    (trimmedLines (u :: s)).filterMap f = (trimmedLines s).filterMap f := by
  rw [trimmedLines, lines_cons]
  split_ifs
  · rw [List.map_cons, List.filterMap_cons_none]
    · rfl
    · exact hf
  · obtain ⟨first, rest, hsplit⟩ := List.exists_cons_of_ne_nil (lines_ne_nil s)
    rw [trimmedLines, hsplit, List.modifyHead_cons, List.map_cons, List.map_cons, trim_cons_space h]

theorem filterMap_concat_space (hf : f [] = none) (h : isSpace u = true) :
    (trimmedLines (s ++ [u])).filterMap f = (trimmedLines s).filterMap f := by
  by_cases hu : u = newline
  · rw [hu, trimmedLines, lines_concat_newline, List.map_append, List.filterMap_append]
    have hblank : (List.map trim [[]]).filterMap f = [] := List.filterMap_cons_none hf
    rw [hblank, List.append_nil]
    rfl
  · obtain ⟨before, last, hsplit, hlast⟩ := exists_last_line s
    rw [trimmedLines, trimmedLines, hlast u hu, hsplit, List.map_append, List.map_append, List.map_singleton,
      List.map_singleton, trim_concat_space h]

/-- **Trimming a text loses blank lines only.** -/
theorem filterMap_trimmedLines (hf : f [] = none) (s : JsString) :
    (trimmedLines (trim s)).filterMap f = (trimmedLines s).filterMap f := by
  have hstart : ∀ s : JsString, (trimmedLines (trimStart s)).filterMap f = (trimmedLines s).filterMap f := by
    intro s
    induction s with
    | nil => rfl
    | cons u s ih =>
      cases hu : isSpace u with
      | false => rw [trimStart, List.dropWhile_cons_of_neg (by simp [hu])]
      | true =>
        rw [trimStart, List.dropWhile_cons_of_pos hu, filterMap_cons_space hf hu]
        exact ih
  have hend : ∀ s : JsString, (trimmedLines (trimEnd s)).filterMap f = (trimmedLines s).filterMap f := by
    intro s
    induction s using List.reverseRecOn with
    | nil => rfl
    | append_singleton s u ih =>
      cases hu : isSpace u with
      | false => rw [trimEnd, List.rdropWhile_concat_neg _ _ _ (by simp [hu])]
      | true =>
        rw [trimEnd, List.rdropWhile_concat_pos _ _ _ hu, filterMap_concat_space hf hu]
        exact ih
  rw [trim, hend, hstart]

theorem trim_trimEnd (s : JsString) : trim (trimEnd s) = trim s := by
  induction s using List.reverseRecOn with
  | nil => rfl
  | append_singleton s u ih =>
    cases hu : isSpace u with
    | false => rw [trimEnd, List.rdropWhile_concat_neg _ _ _ (by simp [hu])]
    | true =>
      rw [trimEnd, List.rdropWhile_concat_pos _ _ _ hu, trim_concat_space hu]
      exact ih

/-- white space behind a text without any is cut off behind it -/
theorem trim_append_of_tight {name : JsString} (hname : Tight name) (hne : name ≠ []) (s : JsString) :
    trim (name ++ s) = name ++ trimEnd s := by
  induction s using List.reverseRecOn with
  | nil => rw [List.append_nil, trim_of_tight hname, trimEnd, List.rdropWhile_nil, List.append_nil]
  | append_singleton s u ih =>
    rw [← List.append_assoc]
    cases hu : isSpace u with
    | true =>
      rw [trim_concat_space hu, ih, trimEnd, trimEnd, List.rdropWhile_concat_pos _ _ _ hu]
    | false =>
      rw [trimEnd, List.rdropWhile_concat_neg _ _ _ (by simp [hu]), ← List.append_assoc]
      apply trim_of_tight
      constructor
      · intro v hv
        obtain ⟨first, rest, rfl⟩ := List.exists_cons_of_ne_nil hne
        exact hname.1 v hv
      · intro v hv
        rw [List.getLast?_concat, Option.mem_some_iff] at hv
        exact hv ▸ hu

/-! ## Line ends -/

inductive LineEnd where
  | lf | crlf
deriving DecidableEq, Repr

def LineEnd.text : LineEnd → JsString
  | .lf => [newline]
  | .crlf => [0xd, newline]

/-- the part of the line end that the split leaves on the line -/
def LineEnd.kept : LineEnd → JsString
  | .lf => []
  | .crlf => [0xd]

theorem trim_kept (line : JsString) (ending : LineEnd) : trim (line ++ ending.kept) = trim line := by
  cases ending with
  | lf => rw [LineEnd.kept, List.append_nil]
  | crlf => exact trim_concat_space (by decide)

/-- lines, each with its own end, and what follows the last one -/
def terminated (lines : List (JsString × LineEnd)) (last : JsString) : JsString :=
  (lines.flatMap fun l => l.1 ++ l.2.text) ++ last

theorem lines_terminated {parts : List (JsString × LineEnd)} {last : JsString}
    (hparts : ∀ l ∈ parts, newline ∉ l.1) (hlast : newline ∉ last) :
    lines (terminated parts last) = parts.map (fun l => l.1 ++ l.2.kept) ++ [last] := by
  induction parts with
  | nil => exact List.splitOn_eq_singleton hlast
  | cons l parts ih =>
    have hl : newline ∉ l.1 ++ l.2.kept := by
      rw [List.mem_append, not_or]
      refine ⟨hparts l List.mem_cons_self, ?_⟩
      cases l.2 <;> decide
    have htext : terminated (l :: parts) last = (l.1 ++ l.2.kept) ++ newline :: terminated parts last := by
      cases hend : l.2 <;> simp [terminated, LineEnd.text, LineEnd.kept, hend]
    rw [htext, lines, List.splitOn_append_cons_self_of_not_mem hl]
    have hrest := ih fun m hm => hparts m (List.mem_cons_of_mem l hm)
    rw [lines] at hrest
    rw [hrest]
    rfl

/-- whatever the lines end in -/
theorem trimmedLines_terminated {parts : List (JsString × LineEnd)} {last : JsString}
    (hparts : ∀ l ∈ parts, newline ∉ l.1) (hlast : newline ∉ last) :
    trimmedLines (terminated parts last) = parts.map (fun l => trim l.1) ++ [trim last] := by
  rw [trimmedLines, lines_terminated hparts hlast, List.map_append, List.map_map]
  congr 1
  apply List.map_congr_left
  intro l _
  exact trim_kept l.1 l.2

/-! ## Blank lines -/

/-- `text.split('\n\n')` -/
def blocks : JsString → List JsString
  | [] => [[]]
  | [u] => [[u]]
  | u :: v :: rest =>
    if u = newline ∧ v = newline then [] :: blocks rest else (blocks (v :: rest)).modifyHead (u :: ·)

variable {text : JsString} {parts : List JsString}

theorem blocks_cons (h : u ≠ newline ∨ text.head? ≠ some newline) :
    blocks (u :: text) = (blocks text).modifyHead (u :: ·) := by
  cases text with
  | nil => rfl
  | cons v rest =>
    rw [blocks, if_neg]
    rintro ⟨rfl, rfl⟩
    rcases h with h | h
    · exact h rfl
    · exact h rfl

theorem blocks_append (hline : newline ∉ line) : blocks (line ++ text) = (blocks text).modifyHead (line ++ ·) := by
  induction line with
  | nil => cases h : blocks text <;> simp [h]
  | cons u line ih =>
    rw [List.mem_cons, not_or] at hline
    rw [List.cons_append, blocks_cons (.inl (Ne.symm hline.1)), ih hline.2]
    cases blocks text <;> rfl

/-- a line that is not blank -/
def Filled (line : JsString) : Prop := line ≠ [] ∧ newline ∉ line

theorem Filled.head (h : Filled line) (text : JsString) : (line ++ text).head? ≠ some newline := by
  obtain ⟨u, rest, rfl⟩ := List.exists_cons_of_ne_nil h.1
  rw [List.cons_append, List.head?_cons, Ne, Option.some_inj]
  rintro rfl
  exact h.2 List.mem_cons_self

/-- filled lines up to an empty one are a block -/
theorem blocks_opening (hparts : ∀ part ∈ parts, Filled part) (hne : parts ≠ []) (text : JsString) :
    blocks (opening newline parts ++ newline :: text) = [newline].intercalate parts :: blocks text := by
  induction parts with
  | nil => exact absurd rfl hne
  | cons part parts ih =>
    have hpart := hparts part List.mem_cons_self
    rw [opening_cons, List.append_assoc, blocks_append hpart.2, List.cons_append]
    cases parts with
    | nil => simp [blocks]
    | cons next parts =>
      have hnext : Filled next := hparts next (by simp)
      rw [blocks_cons, ih (fun q hq => hparts q (List.mem_cons_of_mem part hq)) (by simp), List.intercalate_cons_cons]
      · simp
      · refine .inr ?_
        rw [opening_cons, List.append_assoc]
        exact hnext.head _

/-- filled lines up to the end are one -/
theorem blocks_of_filled (hparts : ∀ part ∈ parts, Filled part) : blocks (opening newline parts) = [opening newline parts] := by
  induction parts with
  | nil => rfl
  | cons part parts ih =>
    have hpart := hparts part List.mem_cons_self
    rw [opening_cons, blocks_append hpart.2, blocks_cons, ih fun q hq => hparts q (List.mem_cons_of_mem part hq)]
    · rfl
    · refine .inr ?_
      cases parts with
      | nil => simp
      | cons next parts =>
        have hnext : Filled next := hparts next (by simp)
        rw [opening_cons]
        exact hnext.head _

theorem lines_opening (hparts : ∀ part ∈ parts, newline ∉ part) : lines (opening newline parts) = parts ++ [[]] :=
  splitOn_opening newline hparts

end JsString

end AstramemLocal.Core
