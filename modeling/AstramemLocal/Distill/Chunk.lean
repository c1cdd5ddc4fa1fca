/-
`src/distill/stages/03-chunk.ts`: a transcript cut into turns, and the turns packed into chunks. Both packing loops keep
what they have read (`Holds`): the pieces closed so far and the open one hold its content, and the indices count up. The
outer one also lays the turns out one after the other (`Laid`): a turn that fits the cap is in one chunk with its
neighbours, and only one that does not is cut. `chunk_keeps` is both for the whole function.
-/
import AstramemLocal.Core.Regex
import AstramemLocal.Core.Lines
import Mathlib.Data.Rat.Defs
import Mathlib.Data.List.Range
import Mathlib.Data.List.Induction

namespace AstramemLocal.Distill.Stage3

open AstramemLocal.Core
open JsString (newline trim content lines Tight)
open Re (lit cls space star opt upper lower)

/-! ## Turns -/

def roleBoundaryRe : RegExp :=
  (Re.atStart ++ .group 1 (lit "user" ||| lit "assistant" ||| lit "system" ||| lit "human" ||| lit "ai") ++
    star space ++ lit ":").compile true

def namedSpeakerCandidateRe : RegExp :=
  (Re.atStart ++ .group 1 (cls upper ++ star (cls lower) ++ opt (space ++ cls upper ++ star (cls lower))) ++
    star space ++ lit ":").compile false

def namedSpeakerMinRecurrence : ℕ := 2

/-- `m[1]` of the candidate label of a line -/
def candidateLabel (line : JsString) : Option JsString :=
  (namedSpeakerCandidateRe.exec line 0).bind fun m => (m.groups 1).map fun g => line.slice g.1 g.2

def labelCount (all : List JsString) (label : JsString) : ℕ := (all.filterMap candidateLabel).count label

def isTurnBoundary (all : List JsString) (line : JsString) : Bool :=
  roleBoundaryRe.test line ||
    (candidateLabel line).any fun label => decide (namedSpeakerMinRecurrence ≤ labelCount all label)

structure Turn where
  text : JsString

def joinLines (current : List JsString) : JsString := [newline].intercalate current

def turnStep (boundary : JsString → Bool) (s : List Turn × List JsString) (line : JsString) : List Turn × List JsString :=
  if boundary line ∧ 0 < s.2.length then (s.1 ++ [⟨joinLines s.2⟩], [line]) else (s.1, s.2 ++ [line])

def splitIntoTurns (text : JsString) : List Turn :=
  let s := (lines text).foldl (turnStep (isTurnBoundary (lines text))) ([], [])
  if 0 < s.2.length then
    if trim (joinLines s.2) ≠ [] then s.1 ++ [⟨trim (joinLines s.2)⟩] else s.1
  else s.1

/-! ## Packing -/

/-- `maxChunkChars`: a number, as far as a length is compared with it -/
inductive Cap where
  | nan
  | infinity (neg : Bool)
  | finite (q : ℚ)

/-- `n > maxChunkChars` -/
def Cap.exceeded : Cap → ℕ → Bool
  | .nan, _ => false
  | .infinity neg, _ => neg
  | .finite q, n => q < n

structure Chunk where
  index : ℕ
  text : JsString

structure Packing where
  chunks : List Chunk
  current : JsString
  idx : ℕ

namespace Packing

def push (p : Packing) (text : JsString) : Packing :=
  { p with chunks := p.chunks ++ [⟨p.idx, text⟩], idx := p.idx + 1 }

/-- `if (current.trim()) { chunks.push(…); current = ''; }` -/
def flush (p : Packing) : Packing := if trim p.current ≠ [] then { p.push (trim p.current) with current := [] } else p

/-- `current ? current + sep + piece : piece` -/
def cand (sep : JsString) (p : Packing) (piece : JsString) : JsString :=
  if p.current ≠ [] then p.current ++ sep ++ piece else piece

/-- another piece behind the separator, or in a new chunk where that would exceed the cap -/
def add (cap : Cap) (sep : JsString) (p : Packing) (piece : JsString) : Packing :=
  if cap.exceeded (p.cand sep piece).length ∧ trim p.current ≠ [] then { p.flush with current := piece }
  else { p with current := p.cand sep piece }

end Packing

/-- `text.split(/\n\n+/)`; `skipping`: within a run of newlines that separates -/
def splitParagraphs (skipping : Bool) : JsString → List JsString
  | [] => [[]]
  | u :: rest =>
    if u = newline ∧ skipping then splitParagraphs true rest
    else if u = newline ∧ rest.head? = some newline then [] :: splitParagraphs true rest
    else (splitParagraphs false rest).modifyHead (u :: ·)

def blankLine : JsString := [newline, newline]

section
variable (cap : Cap)

def lineStep (p : Packing) (line : JsString) : Packing := if trim line = [] then p else p.add cap [newline] line

def paraStep (p : Packing) (para : JsString) : Packing :=
  if trim para = [] then p
  else if cap.exceeded para.length then (lines para).foldl (lineStep cap) p.flush
  else p.add cap blankLine para

def splitLargeTurn (text : JsString) (startIdx : ℕ) : List Chunk :=
  ((splitParagraphs false text).foldl (paraStep cap) ⟨[], [], startIdx⟩).flush.chunks

def packStep (p : Packing) (turn : Turn) : Packing :=
  let turnText := trim turn.text
  if turnText = [] then p
  else if cap.exceeded turnText.length then
    (splitLargeTurn cap turnText p.flush.idx).foldl (fun p sc => p.push sc.text) p.flush
  else p.add cap blankLine turnText

def packTurns (turns : List Turn) : List Chunk :=
  let chunks := (turns.foldl (packStep cap) ⟨[], [], 0⟩).flush.chunks
  if chunks.length = 0 then [⟨0, []⟩] else chunks

def chunk (text : JsString) : List Chunk := packTurns cap (splitIntoTurns text)

end

/-! ## Splitting loses white space only -/

theorem splitParagraphs_ne_nil (skipping : Bool) (text : JsString) : splitParagraphs skipping text ≠ [] := by
  induction text generalizing skipping with
  | nil => simp [splitParagraphs]
  | cons u rest ih =>
    unfold splitParagraphs
    split_ifs
    · exact ih true
    · simp
    · simpa using ih false

theorem content_splitParagraphs (skipping : Bool) (text : JsString) :
    content (splitParagraphs skipping text).flatten = content text := by
  have hnl : ∀ rest : JsString, content (newline :: rest) = content rest := by
    intro rest
    rw [content, List.filter_cons_of_neg (by decide), content]
  induction text generalizing skipping with
  | nil => simp [splitParagraphs]
  | cons u rest ih =>
    unfold splitParagraphs
    split_ifs with hskip hsep
    · rw [hskip.1, hnl, ih]
    · rw [hsep.1, hnl, List.flatten_cons, List.nil_append, ih]
    · obtain ⟨p, ps, hsplit⟩ := List.exists_cons_of_ne_nil (splitParagraphs_ne_nil false rest)
      have ih := ih false
      rw [hsplit] at ih ⊢
      have happ : ∀ s : JsString, content (u :: s) = content [u] ++ content s := fun s => by
        rw [← JsString.content_append, List.singleton_append]
      rw [List.modifyHead_cons, List.flatten_cons, List.cons_append, happ, happ rest, ← ih, List.flatten_cons]

theorem content_intercalate {sep : JsString} (hsep : content sep = []) (parts : List JsString) :
    content (sep.intercalate parts) = content parts.flatten := by
  induction parts with
  | nil => rfl
  | cons part parts ih =>
    cases parts with
    | nil => simp
    | cons next parts =>
      rw [List.intercalate_cons_cons, List.append_assoc, JsString.content_append, JsString.content_append, hsep, ih,
        List.nil_append, List.flatten_cons (l := part), JsString.content_append]

theorem content_newline : content [newline] = [] := by decide

theorem content_blankLine : content blankLine = [] := by decide

theorem content_lines (text : JsString) : content (lines text).flatten = content text := by
  rw [← content_intercalate content_newline, lines, List.intercalate_splitOn]

/-- the lines behind a state of the turn loop -/
theorem content_turnStep (boundary : JsString → Bool) (all : List JsString) (s : List Turn × List JsString) :
    content (((all.foldl (turnStep boundary) s).1.map Turn.text).flatten ++ (all.foldl (turnStep boundary) s).2.flatten) =
      content ((s.1.map Turn.text).flatten ++ s.2.flatten) ++ content all.flatten := by
  induction all generalizing s with
  | nil => simp
  | cons line all ih =>
    rw [List.foldl_cons, ih]
    unfold turnStep
    split_ifs
    · simp [joinLines, content_intercalate content_newline]
    · simp

theorem content_splitIntoTurns (text : JsString) :
    content ((splitIntoTurns text).map Turn.text).flatten = content text := by
  have hloop := content_turnStep (isTurnBoundary (lines text)) (lines text) ([], [])
  simp only [List.map_nil, List.flatten_nil, List.nil_append, JsString.content_nil, content_lines] at hloop
  rw [← hloop]
  unfold splitIntoTurns
  simp only
  split_ifs with hlen hblank
  · rw [List.map_append, List.flatten_append, JsString.content_append, JsString.content_append]
    congr 1
    simp [JsString.content_trim, joinLines, content_intercalate content_newline]
  · have hrest := JsString.content_of_blank (not_not.1 hblank)
    rw [joinLines, content_intercalate content_newline] at hrest
    rw [JsString.content_append, hrest, List.append_nil]
  · have hnil : ((lines text).foldl (turnStep (isTurnBoundary (lines text))) ([], [])).2 = [] := by
      rw [← List.length_eq_zero_iff]
      omega
    rw [hnil, List.flatten_nil, List.append_nil]

/-! ## Packing loses nothing -/

/-- the open chunk is empty or says something -/
def Packing.Solid (p : Packing) : Prop := p.current = [] ∨ trim p.current ≠ []

/-- the chunks closed so far and the open one hold what was read -/
structure Holds (start : ℕ) (read : JsString) (p : Packing) : Prop where
  held : content (p.chunks.flatMap Chunk.text ++ p.current) = content read
  indices : p.chunks.map Chunk.index = List.range' start p.chunks.length
  next : p.idx = start + p.chunks.length
  nonempty : ∀ c ∈ p.chunks, c.text ≠ []
  solid : p.Solid

section
variable {cap : Cap} {start : ℕ} {read piece text sep : JsString} {p : Packing}

theorem Packing.Solid.flush (h : p.Solid) : p.flush.current = [] := by
  unfold Packing.flush
  split_ifs with hblank
  · rfl
  · rcases h with hnil | hsolid
    · exact hnil
    · exact absurd hsolid hblank

theorem trim_append_ne_nil (front : JsString) (h : trim piece ≠ []) : trim (front ++ piece) ≠ [] :=
  JsString.trim_ne_nil h ((JsString.trim_within piece).trans (List.suffix_append front piece).isInfix)

theorem Packing.solid_add (hpiece : trim piece ≠ []) : (p.add cap sep piece).Solid := by
  unfold Packing.add
  split_ifs
  · exact .inr hpiece
  · refine .inr ?_
    simp only [Packing.cand]
    split_ifs
    · exact trim_append_ne_nil _ hpiece
    · exact hpiece

theorem Holds.congr {read' : JsString} (h : Holds start read p) (hread : content read = content read') :
    Holds start read' p := { h with held := h.held.trans hread }

theorem Holds.initial (start : ℕ) : Holds start [] ⟨[], [], start⟩ :=
  ⟨rfl, rfl, rfl, fun _ hc => absurd hc List.not_mem_nil, .inl rfl⟩

theorem Holds.push (h : Holds start read p) (hcurrent : p.current = []) (htext : text ≠ []) :
    Holds start (read ++ text) (p.push text) where
  held := by
    have hheld := h.held
    rw [hcurrent, List.append_nil] at hheld
    simp [Packing.push, hcurrent, hheld]
  indices := by
    simp only [Packing.push, List.map_append, List.map_cons, List.map_nil, List.length_append, List.length_singleton,
      h.indices, h.next]
    rw [List.range'_concat, Nat.one_mul]
  next := by simp [Packing.push, h.next, Nat.add_assoc]
  nonempty := by
    intro c hc
    rcases List.mem_append.1 hc with hc | hc
    · exact h.nonempty c hc
    · rw [List.mem_singleton.1 hc]
      exact htext
  solid := .inl hcurrent

theorem Holds.flush (h : Holds start read p) : Holds start read p.flush := by
  unfold Packing.flush
  split_ifs with hblank
  · refine ⟨?_, ?_, ?_, ?_, .inl rfl⟩
    · rw [← h.held]
      simp [Packing.push, JsString.content_trim]
    · simp only [Packing.push, List.map_append, List.map_cons, List.map_nil, List.length_append, List.length_singleton,
        h.indices, h.next]
      rw [List.range'_concat, Nat.one_mul]
    · simp [Packing.push, h.next, Nat.add_assoc]
    · intro c hc
      rcases List.mem_append.1 hc with hc | hc
      · exact h.nonempty c hc
      · rw [List.mem_singleton.1 hc]
        exact hblank
  · exact h

/-- a blank piece is passed over -/
theorem Holds.skip (h : Holds start read p) (hblank : trim piece = []) : Holds start (read ++ piece) p :=
  h.congr (by rw [JsString.content_append, JsString.content_of_blank hblank, List.append_nil])

theorem Holds.add (h : Holds start read p) (hsep : content sep = []) (hpiece : trim piece ≠ []) :
    Holds start (read ++ piece) (p.add cap sep piece) := by
  have hsolid : (p.add cap sep piece).Solid := Packing.solid_add hpiece
  unfold Packing.add at hsolid ⊢
  split_ifs at hsolid ⊢ with hfull
  · have hflush := h.flush
    have hheld := hflush.held
    rw [h.solid.flush, List.append_nil] at hheld
    refine ⟨?_, hflush.indices, hflush.next, hflush.nonempty, hsolid⟩
    simp [hheld]
  · refine ⟨?_, h.indices, h.next, h.nonempty, hsolid⟩
    have hheld := h.held
    rw [JsString.content_append] at hheld
    unfold Packing.cand
    split_ifs with hcurrent
    · simp [hsep, ← hheld]
    · rw [not_not.1 hcurrent, JsString.content_nil, List.append_nil] at hheld
      simp [hheld]

/-- a loop reads the pieces one by one -/
theorem Holds.foldl {step : Packing → JsString → Packing} (pieces : List JsString)
    (hstep : ∀ p read, ∀ piece ∈ pieces, Holds start read p → Holds start (read ++ piece) (step p piece))
    (h : Holds start read p) : Holds start (read ++ pieces.flatten) (pieces.foldl step p) := by
  induction pieces generalizing read p with
  | nil => simpa using h
  | cons piece pieces ih =>
    have hfirst := hstep p read piece List.mem_cons_self h
    have hrest := ih (fun p read next hnext => hstep p read next (List.mem_cons_of_mem _ hnext)) hfirst
    rwa [List.append_assoc] at hrest

theorem Holds.lineStep (h : Holds start read p) : Holds start (read ++ piece) (lineStep cap p piece) := by
  unfold Stage3.lineStep
  split_ifs with hblank
  · exact h.skip hblank
  · exact h.add content_newline hblank

theorem Holds.paraStep (h : Holds start read p) : Holds start (read ++ piece) (paraStep cap p piece) := by
  unfold Stage3.paraStep
  split_ifs with hblank hlarge
  · exact h.skip hblank
  · have hloop := h.flush.foldl (lines piece) fun p read line _ hp =>
      (hp.lineStep : Holds start _ (Stage3.lineStep cap p line))
    exact hloop.congr (by rw [JsString.content_append, content_lines, JsString.content_append])
  · exact h.add content_blankLine hblank

/-- **Large turns.** The chunks of a turn hold its content, counted from the index they start at. -/
theorem splitLargeTurn_holds (cap : Cap) (text : JsString) (start : ℕ) :
    content ((splitLargeTurn cap text start).flatMap Chunk.text) = content text ∧
      ∀ c ∈ splitLargeTurn cap text start, c.text ≠ [] := by
  have hloop := (Holds.initial start).foldl (splitParagraphs false text) fun p read para _ hp =>
    (hp.paraStep : Holds start _ (paraStep cap p para))
  have hdone := hloop.flush
  have hheld := hdone.held
  rw [hloop.solid.flush, List.append_nil, List.nil_append, content_splitParagraphs] at hheld
  exact ⟨hheld, hdone.nonempty⟩

theorem Holds.pushAll {sub : List Chunk} (h : Holds start read p) (hcurrent : p.current = [])
    (hsub : ∀ c ∈ sub, c.text ≠ []) :
    Holds start (read ++ sub.flatMap Chunk.text) (sub.foldl (fun p sc => p.push sc.text) p) := by
  induction sub generalizing read p with
  | nil => simpa using h
  | cons c sub ih =>
    have hfirst := h.push hcurrent (hsub c List.mem_cons_self)
    have hrest := ih hfirst hcurrent fun d hd => hsub d (List.mem_cons_of_mem c hd)
    rwa [List.append_assoc] at hrest

theorem Holds.packStep {turn : Turn} (h : Holds start read p) : Holds start (read ++ turn.text) (packStep cap p turn) := by
  unfold Stage3.packStep
  simp only
  split_ifs with hblank hlarge
  · exact h.skip hblank
  · have hsub := splitLargeTurn_holds cap (trim turn.text) p.flush.idx
    have hall := h.flush.pushAll h.solid.flush hsub.2
    exact hall.congr (by rw [JsString.content_append, hsub.1, JsString.content_trim, JsString.content_append])
  · have hne : trim (trim turn.text) ≠ [] := by rwa [JsString.trim_trim]
    have hadd : Holds start (read ++ trim turn.text) (p.add cap blankLine (trim turn.text)) := h.add content_blankLine hne
    exact hadd.congr (by rw [JsString.content_append, JsString.content_trim, JsString.content_append])

theorem packTurns_holds (cap : Cap) (turns : List Turn) :
    Holds 0 (turns.map Turn.text).flatten (turns.foldl (packStep cap) ⟨[], [], 0⟩) := by
  have hall : ∀ (turns : List Turn) (read : JsString) (p : Packing), Holds 0 read p →
      Holds 0 (read ++ (turns.map Turn.text).flatten) (turns.foldl (packStep cap) p) := by
    intro turns
    induction turns with
    | nil =>
      intro read p h
      simpa using h
    | cons turn turns ih =>
      intro read p h
      have hstep : Holds 0 (read ++ turn.text) (packStep cap p turn) := h.packStep
      have hrest := ih _ _ hstep
      rwa [List.append_assoc] at hrest
  exact hall turns [] _ (Holds.initial 0)

end

/-! ## Turns stay whole -/

/-- the turns laid out in chunk texts: some that fit joined in one, or one that does not in pieces -/
inductive Laid (cap : Cap) : List JsString → List JsString → Prop where
  | nil : Laid cap [] []
  | whole {turns texts block : List JsString} (h : Laid cap turns texts) (hne : block ≠ [])
      (hfit : ∀ t ∈ block, cap.exceeded t.length = false) : Laid cap (turns ++ block) (texts ++ [blankLine.intercalate block])
  | cut {turns texts pieces : List JsString} {turn : JsString} (h : Laid cap turns texts)
      (hlarge : cap.exceeded turn.length = true) (hpieces : content pieces.flatten = content turn) :
      Laid cap (turns ++ [turn]) (texts ++ pieces)

/-- the closed chunks lay out the first turns, and the open one joins the others -/
structure LaidOut (cap : Cap) (turns : List JsString) (p : Packing) (done block : List JsString) : Prop where
  turns_eq : turns = done ++ block
  laid : Laid cap done (p.chunks.map Chunk.text)
  fits : ∀ t ∈ block, cap.exceeded t.length = false
  tight : ∀ t ∈ block, Tight t ∧ t ≠ []
  current_eq : p.current = blankLine.intercalate block

section
variable {cap : Cap} {turns done block : List JsString} {p : Packing} {turn : JsString}

theorem tight_join (hne : block ≠ []) (h : ∀ t ∈ block, Tight t ∧ t ≠ []) :
    Tight (blankLine.intercalate block) ∧ blankLine.intercalate block ≠ [] := by
  induction block with
  | nil => exact absurd rfl hne
  | cons t block ih =>
    obtain ⟨ht, htn⟩ := h t List.mem_cons_self
    cases block with
    | nil => simpa using ⟨ht, htn⟩
    | cons next block =>
      obtain ⟨hrest, hrestn⟩ := ih (by simp) fun u hu => h u (List.mem_cons_of_mem t hu)
      rw [List.intercalate_cons_cons]
      exact ⟨ht.append hrest htn hrestn blankLine, by simp [htn]⟩

theorem join_concat (sep turn : JsString) (hne : block ≠ []) :
    sep.intercalate (block ++ [turn]) = sep.intercalate block ++ sep ++ turn := by
  induction block with
  | nil => exact absurd rfl hne
  | cons t block ih =>
    cases block with
    | nil => simp [List.intercalate_cons_cons]
    | cons next block =>
      have ih := ih (by simp)
      rw [List.cons_append, List.cons_append, List.intercalate_cons_cons, List.intercalate_cons_cons,
        ← List.cons_append, ih]
      simp

theorem LaidOut.current_nil (h : LaidOut cap turns p done block) : p.current = [] ↔ block = [] := by
  rw [h.current_eq]
  constructor
  · intro hnil
    by_contra hne
    exact (tight_join hne h.tight).2 hnil
  · rintro rfl
    rfl

theorem LaidOut.trim_current (h : LaidOut cap turns p done block) : trim p.current = p.current := by
  by_cases hblock : block = []
  · rw [h.current_nil.2 hblock]
    rfl
  · rw [h.current_eq]
    exact JsString.trim_of_tight (tight_join hblock h.tight).1

theorem LaidOut.flush (h : LaidOut cap turns p done block) : LaidOut cap turns p.flush turns [] := by
  unfold Packing.flush
  rw [h.trim_current]
  split_ifs with hcurrent
  · have hblock : block ≠ [] := fun hnil => hcurrent (h.current_nil.2 hnil)
    refine ⟨by simp, ?_, by simp, by simp, rfl⟩
    rw [h.turns_eq, Packing.push, List.map_append, h.current_eq]
    exact .whole h.laid hblock h.fits
  · have hnil := not_not.1 hcurrent
    have hblock := h.current_nil.1 hnil
    refine ⟨by simp, ?_, by simp, by simp, hnil⟩
    rw [h.turns_eq, hblock, List.append_nil]
    exact h.laid

theorem LaidOut.add (h : LaidOut cap turns p done block) (hfit : cap.exceeded turn.length = false) (ht : Tight turn)
    (hne : turn ≠ []) : ∃ done block, LaidOut cap (turns ++ [turn]) (p.add cap blankLine turn) done block := by
  unfold Packing.add
  split_ifs with hfull
  · have hflush := h.flush
    exact ⟨turns, [turn], rfl, hflush.laid, by simpa using hfit, by simpa using ⟨ht, hne⟩, by simp⟩
  · refine ⟨done, block ++ [turn], by rw [h.turns_eq, List.append_assoc], h.laid, ?_, ?_, ?_⟩
    · intro t hmem
      rcases List.mem_append.1 hmem with hmem | hmem
      · exact h.fits t hmem
      · rw [List.mem_singleton.1 hmem]
        exact hfit
    · intro t hmem
      rcases List.mem_append.1 hmem with hmem | hmem
      · exact h.tight t hmem
      · rw [List.mem_singleton.1 hmem]
        exact ⟨ht, hne⟩
    · simp only [Packing.cand]
      split_ifs with hcurrent
      · rw [join_concat blankLine turn fun hnil => hcurrent (h.current_nil.2 hnil), h.current_eq]
      · rw [h.current_nil.1 (not_not.1 hcurrent)]
        simp

theorem foldl_push (sub : List Chunk) (p : Packing) :
    ((sub.foldl (fun p sc => p.push sc.text) p).chunks.map Chunk.text = p.chunks.map Chunk.text ++ sub.map Chunk.text) ∧
      (sub.foldl (fun p sc => p.push sc.text) p).current = p.current := by
  induction sub generalizing p with
  | nil => simp
  | cons c sub ih =>
    obtain ⟨htexts, hcurrent⟩ := ih (p.push c.text)
    refine ⟨?_, hcurrent⟩
    rw [List.foldl_cons, htexts]
    simp [Packing.push]

/-- the texts of the turns, the blank ones left out -/
def turnTexts (turns : List Turn) : List JsString := (turns.map fun turn => JsString.trim turn.text).filter (· ≠ [])

theorem turnTexts_append (turns : List Turn) (turn : Turn) :
    turnTexts (turns ++ [turn]) = turnTexts turns ++ turnTexts [turn] := by
  simp [turnTexts]

theorem LaidOut.packStep {turns : List Turn} (h : LaidOut cap (turnTexts turns) p done block) (turn : Turn) :
    ∃ done block, LaidOut cap (turnTexts (turns ++ [turn])) (packStep cap p turn) done block := by
  rw [turnTexts_append]
  unfold Stage3.packStep
  simp only
  split_ifs with hblank hlarge
  · have hnone : turnTexts [turn] = [] := by simp [turnTexts, hblank]
    rw [hnone, List.append_nil]
    exact ⟨done, block, h⟩
  · have hone : turnTexts [turn] = [trim turn.text] := by simp [turnTexts, hblank]
    obtain ⟨htexts, hcurrent⟩ := foldl_push (splitLargeTurn cap (trim turn.text) p.flush.idx) p.flush
    have hsub := splitLargeTurn_holds cap (trim turn.text) p.flush.idx
    rw [hone]
    refine ⟨_, [], (List.append_nil _).symm, ?_, by simp, by simp, hcurrent.trans h.flush.current_eq⟩
    rw [htexts]
    refine .cut h.flush.laid hlarge ?_
    rw [← List.flatMap_def]
    exact hsub.1
  · have hone : turnTexts [turn] = [trim turn.text] := by simp [turnTexts, hblank]
    rw [hone]
    exact h.add (Bool.eq_false_iff.2 hlarge) (JsString.tight_trim _) hblank

/-- **Turns.** The packing loop lays the turns out in order. -/
theorem packTurns_laid (cap : Cap) (turns : List Turn) :
    ∃ done block, LaidOut cap (turnTexts turns) (turns.foldl (packStep cap) ⟨[], [], 0⟩) done block := by
  induction turns using List.reverseRecOn with
  | nil => exact ⟨[], [], rfl, .nil, by simp, by simp, rfl⟩
  | append_singleton turns turn ih =>
    obtain ⟨done, block, h⟩ := ih
    rw [List.foldl_append, List.foldl_cons, List.foldl_nil]
    exact h.packStep turn

end

/-- **Chunks.** They hold the content of the text, in order; their indices count up; and every turn that fits the cap
stands whole in one of them. -/
theorem chunk_keeps (text : JsString) (cap : Cap) :
    content ((chunk cap text).flatMap Chunk.text) = content text ∧
      (chunk cap text).map Chunk.index = List.range (chunk cap text).length ∧
      Laid cap (turnTexts (splitIntoTurns text)) (((chunk cap text).map Chunk.text).filter (· ≠ [])) := by
  have hholds := packTurns_holds cap (splitIntoTurns text)
  have hflush := hholds.flush
  have hheld := hflush.held
  rw [hholds.solid.flush, List.append_nil, content_splitIntoTurns] at hheld
  obtain ⟨done, block, hlaid⟩ := packTurns_laid cap (splitIntoTurns text)
  have hlaid := hlaid.flush.laid
  unfold chunk packTurns
  simp only
  split_ifs with hnone
  · rw [List.length_eq_zero_iff] at hnone
    rw [hnone] at hheld hlaid
    exact ⟨hheld, rfl, by simpa using hlaid⟩
  · refine ⟨hheld, ?_, ?_⟩
    · rw [hflush.indices, List.range_eq_range']
    · have hkept : ((((splitIntoTurns text).foldl (packStep cap) ⟨[], [], 0⟩).flush.chunks.map Chunk.text).filter (· ≠ [])) =
          ((splitIntoTurns text).foldl (packStep cap) ⟨[], [], 0⟩).flush.chunks.map Chunk.text := by
        rw [List.filter_eq_self]
        intro t ht
        obtain ⟨c, hc, rfl⟩ := List.mem_map.1 ht
        exact decide_eq_true (hflush.nonempty c hc)
      rw [hkept]
      exact hlaid

end AstramemLocal.Distill.Stage3
