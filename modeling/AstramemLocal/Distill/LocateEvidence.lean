/-
`locate-evidence.ts`: an atom's quote is traced back to a position of the flattened transcript, and the line of that
position is taken for the turn. `FoundAt` says which position that is. Offsets, span and line are always right
(`located_exact`, `located_fuzzy`); the line is the turn exactly when no newline stands inside a turn before the position
(`locate_evidence`).
-/
import AstramemLocal.Core.Leader
import AstramemLocal.Core.Lines
import AstramemLocal.Distill.FlattenTurns

namespace AstramemLocal.Distill

open AstramemLocal.Core JsString

/-! ## Lines -/

/-- the utterance of a line of a turn, or the whole line -/
def utteranceOf (raw : JsString) : JsString :=
  let matched := (afterRole raw).bind fun rest =>
    match afterLabel rest with
    | some (_, utterance) => toEnd utterance
    | none => toEnd rest
  matched.getD raw

structure Line where
  index : ℕ
  lineStart : ℕ
  raw : JsString
  utterance : JsString
  utteranceStart : ℕ
deriving DecidableEq, Repr

def lineAt (index offset : ℕ) (raw : JsString) : Line :=
  ⟨index, offset, raw, utteranceOf raw, offset + (raw.length - (utteranceOf raw).length)⟩

/-- the loop of `splitLines`; one further for the newline -/
def splitLinesFrom (index offset : ℕ) : List JsString → List Line
  | [] => []
  | raw :: rest => lineAt index offset raw :: splitLinesFrom (index + 1) (offset + raw.length + 1) rest

def splitLines (transcriptText : JsString) : List Line := splitLinesFrom 0 0 (lines transcriptText)

def lineIndexFrom (found offset : ℕ) : List Line → ℕ
  | [] => found
  | line :: rest => if offset < line.lineStart then found else lineIndexFrom line.index offset rest

def lineIndexForOffset (ls : List Line) (offset : ℕ) : ℕ := lineIndexFrom 0 offset ls

/-! ## `locateEvidence` -/

inductive MatchTier where
  | exact | fuzzy
deriving DecidableEq, Repr

structure EvidenceLocation where
  turnIndex : ℕ
  charStart : ℕ
  charEnd : ℕ
  span : JsString
  matchTier : MatchTier
deriving DecidableEq, Repr

variable (U : Unicode)

/-- the lines the second tier compares -/
def spokenLines (transcriptText : JsString) : List Line :=
  (splitLines transcriptText).filter fun l => JsString.trim l.utterance ≠ []

def Line.trimmedStart (l : Line) : ℕ := l.utteranceStart + (l.utterance.length - (JsString.trimStart l.utterance).length)

def locateEvidence (transcriptText : JsString) (evidence : Option JsString) : Option EvidenceLocation :=
  match evidence with
  | none => none
  | some quote =>
    let needle := JsString.trim quote
    if needle = [] ∨ JsString.trim transcriptText = [] then none
    else
      match indexOf transcriptText needle with
      | some idx =>
        some ⟨lineIndexForOffset (splitLines transcriptText) idx, idx, idx + needle.length, needle, .exact⟩
      | none =>
        if (normalizeTokens U needle).length < minFuzzyEvidenceTokens then none
        else
          (leader (fun l => tokenContainment U needle l.utterance) matchThreshold ambiguityMargin
            (spokenLines transcriptText)).map fun best =>
              let utterance := JsString.trim best.utterance
              ⟨best.index, best.trimmedStart, best.trimmedStart + utterance.length, utterance, .fuzzy⟩

/-! ## Where a quote is found -/

/-- the position of a quote: its first verbatim occurrence, or the utterance of the line that leads the comparison -/
def FoundAt (transcriptText quote : JsString) (p : ℕ) : Prop :=
  JsString.trim quote ≠ [] ∧ (FirstAt transcriptText (JsString.trim quote) p ∨
    ¬ JsString.trim quote <:+: transcriptText ∧ minFuzzyEvidenceTokens ≤ (normalizeTokens U (JsString.trim quote)).length ∧
      ∃ line, Leads (fun l => tokenContainment U (JsString.trim quote) l.utterance) matchThreshold ambiguityMargin
        (spokenLines transcriptText) line ∧ line.trimmedStart = p)

/-- the offsets are those of a non-empty slice, and the line is that of the first offset -/
structure Located (transcriptText : JsString) (loc : EvidenceLocation) : Prop where
  nonempty : loc.charStart < loc.charEnd
  inside : loc.charEnd ≤ transcriptText.length
  slice : loc.span = (transcriptText.take loc.charEnd).drop loc.charStart
  line : ∃ l ∈ splitLines transcriptText, l.index = loc.turnIndex ∧ l.lineStart ≤ loc.charStart ∧
    loc.charStart < l.lineStart + l.raw.length

/-- the `i`th turn wrote position `p` -/
def TurnAt (turns : List Turn) (i p : ℕ) : Prop :=
  ∃ before turn after, turns = before ++ turn :: after ∧ before.length = i ∧
    (opening newline (before.map Turn.line)).length ≤ p ∧
    p < (opening newline (before.map Turn.line)).length + turn.line.length

/-- a turn wrote position `p`, and neither it before `p` nor a turn before it wrote a newline -/
def OneLinePerTurn (turns : List Turn) (p : ℕ) : Prop :=
  ∃ before turn after, turns = before ++ turn :: after ∧
    (opening newline (before.map Turn.line)).length ≤ p ∧
    p < (opening newline (before.map Turn.line)).length + turn.line.length ∧
    (∀ t ∈ before, newline ∉ t.line) ∧
    newline ∉ turn.line.take (p - (opening newline (before.map Turn.line)).length)

/-! ## Lines and newlines -/

theorem utteranceOf_suffix (raw : JsString) : utteranceOf raw <:+ raw := by
  unfold utteranceOf
  cases hrole : afterRole raw with
  | none => exact List.suffix_rfl
  | some rest =>
    have hrest := afterRole_suffix hrole
    have htoEnd : ∀ {u : JsString}, u <:+ raw → (toEnd u).getD raw <:+ raw := by
      intro u hu
      unfold toEnd
      split
      · exact List.suffix_rfl
      · exact hu
    dsimp only [Option.bind_some]
    split
    next label utterance hlabel => exact htoEnd ((afterLabel_suffix hlabel).trans hrest)
    next => exact htoEnd hrest

theorem mem_splitLinesFrom {l : Line} {index offset : ℕ} {ls : List JsString} (h : l ∈ splitLinesFrom index offset ls) :
    ∃ before raw after, ls = before ++ raw :: after ∧
      l = lineAt (index + before.length) (offset + (opening newline before).length) raw := by
  induction ls generalizing index offset with
  | nil => cases h
  | cons raw ls ih =>
    rcases List.mem_cons.1 h with rfl | h
    · exact ⟨[], raw, ls, rfl, rfl⟩
    · obtain ⟨before, raw', after, hls, rfl⟩ := ih h
      refine ⟨raw :: before, raw', after, by rw [hls]; rfl, ?_⟩
      simp only [List.length_cons, opening_cons, List.length_append]
      congr 1 <;> omega

theorem splitLinesFrom_mem (index offset : ℕ) (before : List JsString) (raw : JsString) (after : List JsString) :
    lineAt (index + before.length) (offset + (opening newline before).length) raw ∈
      splitLinesFrom index offset (before ++ raw :: after) := by
  induction before generalizing index offset with
  | nil => exact List.mem_cons_self
  | cons first before ih =>
    have hindex : index + (first :: before).length = index + 1 + before.length := by
      rw [List.length_cons]
      omega
    have hoffset : offset + (opening newline (first :: before)).length =
        offset + first.length + 1 + (opening newline before).length := by
      rw [opening_cons, List.length_append, List.length_cons]
      omega
    rw [hindex, hoffset]
    exact List.mem_cons_of_mem _ (ih _ _)

/-- the loop stops at the line of the offset -/
theorem lineIndexFrom_eq (index offset found : ℕ) {p : ℕ} (before : List JsString) (raw : JsString) (after : List JsString)
    (hle : offset + (opening newline before).length ≤ p)
    (hge : p ≤ offset + (opening newline before).length + raw.length) :
    lineIndexFrom found p (splitLinesFrom index offset (before ++ raw :: after)) = index + before.length := by
  induction before generalizing index offset found with
  | nil =>
    simp only [opening_nil, List.length_nil, Nat.add_zero] at hle hge ⊢
    have hstart : ¬ p < (lineAt index offset raw).lineStart := not_lt.2 hle
    rw [List.nil_append, splitLinesFrom, lineIndexFrom, if_neg hstart]
    cases after with
    | nil => rfl
    | cons next after =>
      have hstop : p < (lineAt (index + 1) (offset + raw.length + 1) next).lineStart := by
        change p < offset + raw.length + 1
        omega
      rw [splitLinesFrom, lineIndexFrom, if_pos hstop]
      rfl
  | cons first before ih =>
    simp only [opening_cons, List.length_append, List.length_cons] at hle hge ⊢
    have hstart : ¬ p < (lineAt index offset first).lineStart := by
      change ¬ p < offset
      omega
    rw [List.cons_append, splitLinesFrom, lineIndexFrom, if_neg hstart,
      ih _ _ _ (by omega) (by omega)]
    omega

/-- a line of the transcript, with what stands before and behind it -/
theorem mem_splitLines {transcriptText : JsString} {l : Line} (h : l ∈ splitLines transcriptText) :
    ∃ before after, l = lineAt before.length (opening newline before).length l.raw ∧ newline ∉ l.raw ∧
      (∀ raw ∈ before, newline ∉ raw) ∧ transcriptText = opening newline before ++ (l.raw ++ closing newline after) := by
  obtain ⟨before, raw, after, hls, hl⟩ := mem_splitLinesFrom h
  have hfree : ∀ part ∈ lines transcriptText, newline ∉ part := fun part hpart => notMem_of_mem_splitOn newline hpart
  rw [Nat.zero_add, Nat.zero_add] at hl
  have hraw : l.raw = raw := by rw [hl]; rfl
  subst hraw
  refine ⟨before, after, hl, ?_, ?_, ?_⟩
  · exact hfree l.raw (hls ▸ List.mem_append_right before List.mem_cons_self)
  · intro part hpart
    exact hfree part (hls ▸ List.mem_append_left _ hpart)
  · calc transcriptText = [newline].intercalate (lines transcriptText) := (List.intercalate_splitOn newline).symm
      _ = opening newline before ++ (l.raw ++ closing newline after) := by rw [hls, intercalate_at]

theorem line_of_offset {transcriptText : JsString} {p u : ℕ} {rest : JsString} (hdrop : transcriptText.drop p = u :: rest)
    (hu : JsString.isSpace u = false) : ∃ l ∈ splitLines transcriptText, lineIndexForOffset (splitLines transcriptText) p = l.index ∧
      l.lineStart ≤ p ∧ p < l.lineStart + l.raw.length := by
  have hjoin : [newline].intercalate (lines transcriptText) = transcriptText := List.intercalate_splitOn newline
  have hne : u ≠ newline := by
    rintro rfl
    exact absurd hu (by decide)
  obtain ⟨before, raw, after, hls, hle, hlt⟩ := exists_part_of_ne newline (List.splitOn_ne_nil newline transcriptText)
    (by rw [← hdrop]; exact congrArg (List.drop p) hjoin) hne
  have hmem := splitLinesFrom_mem 0 0 before raw after
  have hindex : lineIndexFrom 0 p (splitLinesFrom 0 0 (before ++ raw :: after)) = 0 + before.length :=
    lineIndexFrom_eq 0 0 0 before raw after (by omega) (by omega)
  rw [Nat.zero_add, Nat.zero_add] at hmem
  rw [Nat.zero_add] at hindex
  refine ⟨lineAt before.length (opening newline before).length raw, ?_, ?_, hle, hlt⟩
  · unfold splitLines
    rw [show lines transcriptText = before ++ raw :: after from hls]
    exact hmem
  · unfold lineIndexForOffset splitLines
    rw [show lines transcriptText = before ++ raw :: after from hls]
    exact hindex

/-- the index of a line counts the newlines before any of its positions -/
theorem index_eq_count {transcriptText : JsString} {l : Line} (h : l ∈ splitLines transcriptText) {p : ℕ}
    (hle : l.lineStart ≤ p) (hge : p ≤ l.lineStart + l.raw.length) : l.index = (transcriptText.take p).count newline := by
  obtain ⟨before, after, hl, hraw, hbefore, htext⟩ := mem_splitLines h
  have hstart : l.lineStart = (opening newline before).length := by rw [hl]; rfl
  have hindex : l.index = before.length := by rw [hl]; rfl
  have hown : newline ∉ l.raw.take (p - (opening newline before).length) := fun hmem => hraw (List.mem_of_mem_take hmem)
  rw [hindex]
  exact ((count_take_eq_length_iff htext (by omega) (by omega)).2 ⟨hbefore, hown⟩).symm

/-! ## Turns -/

/-- the newlines before a position are the turns before its own exactly when there are no others -/
theorem turnAt_iff {content : JsString} {turns : List Turn} {p : ℕ} :
    TurnAt turns (((flattenTranscriptContent content (some turns)).take p).count newline) p ↔ OneLinePerTurn turns p := by
  have hcount : ∀ before turn after, turns = before ++ turn :: after →
      (opening newline (before.map Turn.line)).length ≤ p →
      p < (opening newline (before.map Turn.line)).length + turn.line.length →
      (((flattenTranscriptContent content (some turns)).take p).count newline = before.length ↔
        (∀ t ∈ before, newline ∉ t.line) ∧
          newline ∉ turn.line.take (p - (opening newline (before.map Turn.line)).length)) := by
    intro before turn after hturns hle hlt
    have htext : flattenTranscriptContent content (some turns) =
        opening newline (before.map Turn.line) ++ (turn.line ++ closing newline (after.map Turn.line)) := by
      rw [← intercalate_at, hturns]
      cases before <;> simp [flattenTranscriptContent]
    have hiff := count_take_eq_length_iff htext hle hlt.le
    rw [List.length_map] at hiff
    simpa only [List.forall_mem_map] using hiff
  constructor
  · rintro ⟨before, turn, after, hturns, hlength, hle, hlt⟩
    obtain ⟨hbefore, hown⟩ := (hcount before turn after hturns hle hlt).1 hlength.symm
    exact ⟨before, turn, after, hturns, hle, hlt, hbefore, hown⟩
  · rintro ⟨before, turn, after, hturns, hle, hlt, hbefore, hown⟩
    exact ⟨before, turn, after, hturns, ((hcount before turn after hturns hle hlt).2 ⟨hbefore, hown⟩).symm, hle, hlt⟩

/-! ## Positions found -/

/-- a non-empty trimmed text at a position, with the line of the position -/
theorem line_of_needle {transcriptText s : JsString} {p : ℕ} (hs : JsString.trim s ≠ []) (h : JsString.trim s <+: transcriptText.drop p) :
    ∃ l ∈ splitLines transcriptText, lineIndexForOffset (splitLines transcriptText) p = l.index ∧
      l.lineStart ≤ p ∧ p < l.lineStart + l.raw.length := by
  obtain ⟨u, rest, hu⟩ := List.exists_cons_of_ne_nil hs
  obtain ⟨post, hpost⟩ := h
  rw [hu, List.cons_append] at hpost
  exact line_of_offset hpost.symm (trim_head hu)

theorem located_exact {transcriptText needle : JsString} {idx : ℕ} (hne : JsString.trim needle ≠ [])
    (h : JsString.trim needle <+: transcriptText.drop idx) : Located transcriptText
      ⟨lineIndexForOffset (splitLines transcriptText) idx, idx, idx + (JsString.trim needle).length, JsString.trim needle, .exact⟩ := by
  obtain ⟨l, hl, hindex, hle, hlt⟩ := line_of_needle hne h
  have hpos := List.length_pos_iff.2 hne
  exact
    { nonempty := by
        dsimp only
        omega
      inside := end_le hne h
      slice := slice_eq h
      line := ⟨l, hl, hindex.symm, hle, hlt⟩ }

/-- where the trimmed utterance of a line stands -/
theorem trimmed_at {transcriptText : JsString} {l : Line} (h : l ∈ splitLines transcriptText) :
    JsString.trim l.utterance <+: transcriptText.drop l.trimmedStart ∧ l.lineStart ≤ l.trimmedStart ∧
      l.trimmedStart + (JsString.trim l.utterance).length ≤ l.lineStart + l.raw.length := by
  obtain ⟨before, after, hl, -, -, htext⟩ := mem_splitLines h
  have hstart : l.lineStart = (opening newline before).length := by rw [hl]; rfl
  have hutterance : l.utterance <:+ l.raw := by
    rw [hl]
    exact utteranceOf_suffix _
  have hutteranceStart : l.utteranceStart = l.lineStart + (l.raw.length - l.utterance.length) := by rw [hl]; rfl
  obtain ⟨pre, hpre⟩ := hutterance
  obtain ⟨spaces, hspaces⟩ := List.dropWhile_suffix (l := l.utterance) JsString.isSpace
  obtain ⟨post, hpost⟩ := trim_parts l.utterance
  -- the line is prefix, spaces, utterance, rest
  have hraw : l.raw = pre ++ spaces ++ (JsString.trim l.utterance ++ post) := by
    rw [← hpost, List.append_assoc, JsString.trimStart, hspaces, hpre]
  have hoffset : l.trimmedStart = (opening newline before).length + (pre.length + spaces.length) := by
    have h1 := congrArg List.length hpre
    have h2 := congrArg List.length hspaces
    rw [List.length_append] at h1 h2
    unfold Line.trimmedStart JsString.trimStart
    omega
  refine ⟨?_, by omega, ?_⟩
  · have hdrop : transcriptText.drop l.trimmedStart = JsString.trim l.utterance ++ (post ++ closing newline after) := by
      have hsplit : transcriptText = (opening newline before ++ (pre ++ spaces)) ++
          (JsString.trim l.utterance ++ (post ++ closing newline after)) := by
        rw [htext, hraw]
        simp only [List.append_assoc]
      rw [hsplit, hoffset, ← List.length_append, ← List.length_append, List.drop_left]
    rw [hdrop]
    exact List.prefix_append _ _
  · have hlength := congrArg List.length hraw
    rw [List.length_append, List.length_append, List.length_append] at hlength
    omega

theorem located_fuzzy {transcriptText : JsString} {l : Line} (h : l ∈ spokenLines transcriptText) :
    Located transcriptText
      ⟨l.index, l.trimmedStart, l.trimmedStart + (JsString.trim l.utterance).length, JsString.trim l.utterance, .fuzzy⟩ := by
  obtain ⟨hmem, hne⟩ := List.mem_filter.1 h
  have hne : JsString.trim l.utterance ≠ [] := by simpa using hne
  obtain ⟨hat, hle, hge⟩ := trimmed_at hmem
  have hpos := List.length_pos_iff.2 hne
  exact
    { nonempty := by
        dsimp only
        omega
      inside := end_le hne hat
      slice := slice_eq hat
      line := ⟨l, hmem, rfl, hle, by
        dsimp only
        omega⟩ }

variable {U}

/-- what `locateEvidence` returns is well formed, and is where the quote is found -/
theorem locate_some {transcriptText quote : JsString} {loc : EvidenceLocation}
    (h : locateEvidence U transcriptText (some quote) = some loc) :
    FoundAt U transcriptText quote loc.charStart ∧ Located transcriptText loc := by
  unfold locateEvidence at h
  dsimp only at h
  split at h
  · cases h
  next hblank =>
    obtain ⟨hneedle, -⟩ := not_or.1 hblank
    split at h
    next idx hidx =>
      obtain rfl := Option.some.inj h
      have hfirst := (indexOf_eq_some hneedle).1 hidx
      exact ⟨⟨hneedle, .inl hfirst⟩, located_exact hneedle hfirst.1⟩
    next hmissing =>
      split at h
      · cases h
      next htokens =>
        obtain ⟨best, hbest, rfl⟩ := Option.map_eq_some_iff.1 h
        have hleads := (leader_eq_some ambiguityMargin_pos).1 hbest
        exact ⟨⟨hneedle, .inr ⟨indexOf_eq_none.1 hmissing, not_lt.1 htokens, best, hleads, rfl⟩⟩,
          located_fuzzy hleads.mem⟩

/-- and a quote that is found is located there -/
theorem locate_of_found {transcriptText quote : JsString} {p : ℕ} (h : FoundAt U transcriptText quote p) :
    ∃ loc, locateEvidence U transcriptText (some quote) = some loc ∧ loc.charStart = p := by
  obtain ⟨hneedle, hfirst | ⟨hmissing, htokens, line, hleads, rfl⟩⟩ := h
  · have hinfix : JsString.trim quote <:+: transcriptText := hfirst.1.isInfix.trans (List.drop_suffix p _).isInfix
    refine ⟨⟨lineIndexForOffset (splitLines transcriptText) p, p, p + (JsString.trim quote).length, JsString.trim quote, .exact⟩, ?_, rfl⟩
    unfold locateEvidence
    dsimp only
    rw [if_neg (not_or.2 ⟨hneedle, trim_ne_nil hneedle hinfix⟩), (indexOf_eq_some hneedle).2 hfirst]
  · obtain ⟨hmem, hne⟩ := List.mem_filter.1 hleads.mem
    have hne : JsString.trim line.utterance ≠ [] := by simpa using hne
    have hinfix : JsString.trim line.utterance <:+: transcriptText :=
      (trimmed_at hmem).1.isInfix.trans (List.drop_suffix _ _).isInfix
    refine ⟨⟨line.index, line.trimmedStart, line.trimmedStart + (JsString.trim line.utterance).length, JsString.trim line.utterance,
      .fuzzy⟩, ?_, rfl⟩
    unfold locateEvidence
    dsimp only
    rw [if_neg (not_or.2 ⟨hneedle, trim_ne_nil hne hinfix⟩), indexOf_eq_none.2 hmissing, if_neg (not_lt.2 htokens),
      (leader_eq_some ambiguityMargin_pos).2 hleads]
    rfl

variable (U)

/-- a verbatim quote is located, and what is located is a slice, on the line of its first offset, in the turn with the
index of that line -/
def LocatesRight (content : JsString) (turns : List Turn) (quote : JsString) : Prop :=
  let transcriptText := flattenTranscriptContent content (some turns)
  (JsString.trim quote ≠ [] → JsString.trim quote <:+: transcriptText → (locateEvidence U transcriptText (some quote)).isSome = true) ∧
    ∀ loc, locateEvidence U transcriptText (some quote) = some loc →
      Located transcriptText loc ∧ TurnAt turns loc.turnIndex loc.charStart

/-- **Evidence location.** A quote is traced to its turn exactly when, wherever it is found, no turn before that position
and nothing of its own turn before it holds a newline. -/
theorem locate_evidence (content : JsString) (turns : List Turn) (quote : JsString) :
    LocatesRight U content turns quote ↔
      ∀ p, FoundAt U (flattenTranscriptContent content (some turns)) quote p → OneLinePerTurn turns p := by
  have hturn : ∀ loc, Located (flattenTranscriptContent content (some turns)) loc →
      (TurnAt turns loc.turnIndex loc.charStart ↔ OneLinePerTurn turns loc.charStart) := by
    intro loc hloc
    obtain ⟨l, hl, hindex, hle, hlt⟩ := hloc.line
    rw [← hindex, index_eq_count hl hle hlt.le]
    exact turnAt_iff
  constructor
  · rintro ⟨-, hright⟩ p hp
    obtain ⟨loc, hloc, rfl⟩ := locate_of_found hp
    obtain ⟨hlocated, hat⟩ := hright loc hloc
    exact (hturn loc hlocated).1 hat
  · intro h
    refine ⟨?_, ?_⟩
    · intro hne hinfix
      obtain ⟨p, hp⟩ := exists_first hne hinfix
      obtain ⟨loc, hloc, -⟩ := locate_of_found (U := U) ⟨hne, .inl hp⟩
      exact Option.isSome_iff_exists.2 ⟨loc, hloc⟩
    · intro loc hloc
      obtain ⟨hfound, hlocated⟩ := locate_some hloc
      exact ⟨hlocated, (hturn loc hlocated).2 (h _ hfound)⟩

def twoLineTurn : List Turn :=
  [⟨ofString "user", ofString "first line\nsecond line", none⟩, ⟨ofString "assistant", ofString "let us ship it", none⟩]

/-- `JSON.stringify` of it -/
def twoLineContent : JsString := ofString
  ("[\x7b\"role\":\"user\",\"text\":\"first line\\nsecond line\"\x7d," ++
    "\x7b\"role\":\"assistant\",\"text\":\"let us ship it\"\x7d]")

/-- **A newline shifts the turns.** The quote of the second turn is located on the third line. -/
theorem newline_shifts_turns : ¬ LocatesRight asciiTables twoLineContent twoLineTurn (ofString "let us ship it") := by
  intro h
  have hloc : locateEvidence asciiTables ([newline].intercalate (twoLineTurn.map Turn.line))
      (some (ofString "let us ship it")) = some ⟨2, 40, 54, ofString "let us ship it", .exact⟩ := by decide +kernel
  obtain ⟨before, turn, after, hturns, hlength, -⟩ := (h.2 _ hloc).2
  have htotal := congrArg List.length hturns
  rw [List.length_append, hlength] at htotal
  simp [twoLineTurn] at htotal

end AstramemLocal.Distill
