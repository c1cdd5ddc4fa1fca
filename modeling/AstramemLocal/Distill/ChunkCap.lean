/-
The cap of `src/distill/stages/03-chunk.ts`. A line is never cut (`line_in_chunk`), and a chunk over the cap is a piece of
one line (`chunk_capped`). So the chunks keep to the cap just when every line of the text does (`chunk_cap_iff`).
-/
import AstramemLocal.Distill.Chunk
import Mathlib.Algebra.Order.Ring.Rat
import Mathlib.Tactic.NormNum

namespace AstramemLocal.Distill.Stage3

open AstramemLocal.Core
open JsString (newline trim lines Tight)

/-- `n ≤ maxChunkChars` -/
def Cap.AtMost : Cap → ℕ → Prop
  | .nan, _ => False
  | cap, n => cap.exceeded n = false

section
variable {cap : Cap} {m n : ℕ}

theorem Cap.exceeded_mono (hmn : m ≤ n) (h : cap.exceeded n = false) : cap.exceeded m = false := by
  cases cap with
  | nan => rfl
  | infinity neg => exact h
  | finite q =>
    have hcast : (m : ℚ) ≤ n := by exact_mod_cast hmn
    simp only [Cap.exceeded, decide_eq_false_iff_not] at h ⊢
    exact fun hlt => h (hlt.trans_le hcast)

theorem Cap.atMost_iff : cap.AtMost n ↔ cap ≠ .nan ∧ cap.exceeded n = false := by
  cases cap <;> simp [Cap.AtMost]

theorem Cap.atMost_mono (hmn : m ≤ n) (h : cap.AtMost n) : cap.AtMost m := by
  rw [Cap.atMost_iff] at h ⊢
  exact ⟨h.1, Cap.exceeded_mono hmn h.2⟩

end

/-! ## Paragraphs -/

theorem paragraph_within (skipping : Bool) (text : JsString) :
    (∀ part ∈ splitParagraphs skipping text, part <:+: text) ∧
      (skipping = false → ∀ part ∈ (splitParagraphs skipping text).head?, part <+: text) := by
  induction text generalizing skipping with
  | nil => simp [splitParagraphs]
  | cons u rest ih =>
    have hbehind : ∀ skipping, ∀ part ∈ splitParagraphs skipping rest, part <:+: u :: rest :=
      fun skipping part hpart => ((ih skipping).1 part hpart).trans (List.suffix_cons u rest).isInfix
    unfold splitParagraphs
    split_ifs with hskip hsep
    · exact ⟨hbehind true, fun h => absurd hskip.2 (by simp [h])⟩
    · refine ⟨fun part hpart => ?_, by simp⟩
      rcases List.mem_cons.1 hpart with rfl | hpart
      · exact List.nil_infix
      · exact hbehind true part hpart
    · obtain ⟨first, others, hsplit⟩ := List.exists_cons_of_ne_nil (splitParagraphs_ne_nil false rest)
      have hfirst : u :: first <+: u :: rest := by
        rw [List.prefix_cons_inj]
        exact (ih false).2 rfl first (by rw [hsplit]; rfl)
      rw [hsplit, List.modifyHead_cons]
      refine ⟨fun part hpart => ?_, fun _ part hpart => ?_⟩
      · rcases List.mem_cons.1 hpart with rfl | hpart
        · exact hfirst.isInfix
        · exact hbehind false part (hsplit ▸ List.mem_cons_of_mem first hpart)
      · rw [List.head?_cons, Option.mem_some_iff] at hpart
        exact hpart ▸ hfirst

theorem infix_paragraph {w : JsString} (hw : newline ∉ w) (hne : w ≠ []) (skipping : Bool) (text : JsString) :
    (w <:+: text → ∃ part ∈ splitParagraphs skipping text, w <:+: part) ∧
      (skipping = false → ∀ v, newline ∉ v → v <+: text → ∀ part ∈ (splitParagraphs skipping text).head?, v <+: part) := by
  induction text generalizing skipping with
  | nil =>
    refine ⟨fun h => absurd (List.infix_nil.1 h) hne, fun _ v _ hv part _ => ?_⟩
    rw [List.prefix_nil.1 hv]
    exact List.nil_prefix
  | cons u rest ih =>
    unfold splitParagraphs
    -- a piece without newlines does not begin at one
    have hfront : ∀ v, newline ∉ v → v <+: u :: rest → u = newline → v = [] := by
      intro v hv hprefix hu
      cases v with
      | nil => rfl
      | cons x v =>
        have hx : x = u := (List.cons_prefix_cons.1 hprefix).1
        exact absurd (by simp [hx, hu]) hv
    split_ifs with hskip hsep
    · refine ⟨fun h => ?_, fun h => absurd hskip.2 (by simp [h])⟩
      rcases List.infix_cons_iff.1 h with hprefix | hrest
      · exact absurd (hfront w hw hprefix hskip.1) hne
      · exact (ih true).1 hrest
    · refine ⟨fun h => ?_, fun _ v hv hprefix part _ => ?_⟩
      · rcases List.infix_cons_iff.1 h with hprefix | hrest
        · exact absurd (hfront w hw hprefix hsep.1) hne
        · obtain ⟨part, hpart, hwp⟩ := (ih true).1 hrest
          exact ⟨part, List.mem_cons_of_mem [] hpart, hwp⟩
      · rw [hfront v hv hprefix hsep.1]
        exact List.nil_prefix
    · obtain ⟨first, others, hsplit⟩ := List.exists_cons_of_ne_nil (splitParagraphs_ne_nil false rest)
      have hhead : ∀ v, newline ∉ v → v <+: u :: rest → v <+: u :: first := by
        intro v hv hprefix
        cases v with
        | nil => exact List.nil_prefix
        | cons x v =>
          obtain ⟨rfl, hbehind⟩ := List.cons_prefix_cons.1 hprefix
          rw [List.prefix_cons_inj]
          exact (ih false).2 rfl v (fun hmem => hv (List.mem_cons_of_mem x hmem)) hbehind first (by rw [hsplit]; rfl)
      rw [hsplit, List.modifyHead_cons]
      refine ⟨fun h => ?_, fun _ v hv hprefix part hpart => ?_⟩
      · rcases List.infix_cons_iff.1 h with hprefix | hrest
        · exact ⟨u :: first, List.mem_cons_self, (hhead w hw hprefix).isInfix⟩
        · obtain ⟨part, hpart, hwp⟩ := (ih false).1 hrest
          rw [hsplit] at hpart
          rcases List.mem_cons.1 hpart with rfl | hpart
          · exact ⟨u :: part, List.mem_cons_self, hwp.trans (List.suffix_cons u part).isInfix⟩
          · exact ⟨part, List.mem_cons_of_mem _ hpart, hwp⟩
      · rw [List.head?_cons, Option.mem_some_iff] at hpart
        exact hpart ▸ hhead v hv hprefix

theorem line_within {text line : JsString} (h : line ∈ lines text) : line <:+: text := by
  have hjoin : [newline].intercalate (lines text) = text := List.intercalate_splitOn newline
  have hpart : line <:+: [newline].intercalate (lines text) := part_within h
  rwa [hjoin] at hpart

theorem lines_ne_nil (text : JsString) : lines text ≠ [] := List.splitOn_ne_nil newline text

theorem infix_line {w text : JsString} (hw : newline ∉ w) (h : w <:+: text) : ∃ line ∈ lines text, w <:+: line := by
  apply infix_part (lines_ne_nil text) hw
  rwa [lines, List.intercalate_splitOn]

/-! ## A line is never cut -/

/-- `w` stands in a closed chunk or in the open one -/
def Covers (p : Packing) (w : JsString) : Prop := (∃ c ∈ p.chunks, w <:+: c.text) ∨ w <:+: p.current

section
variable {cap : Cap} {w : JsString} {p : Packing} {sep piece : JsString}

theorem Covers.flush (ht : Tight w) (hne : w ≠ []) (h : Covers p w) : ∃ c ∈ p.flush.chunks, w <:+: c.text := by
  unfold Packing.flush
  rcases h with ⟨c, hc, hwc⟩ | hcurrent
  · split_ifs
    · exact ⟨c, List.mem_append_left _ hc, hwc⟩
    · exact ⟨c, hc, hwc⟩
  · have hw : trim w ≠ [] := by rwa [JsString.trim_of_tight ht]
    have hsolid : trim p.current ≠ [] := JsString.trim_ne_nil hw (by rwa [JsString.trim_of_tight ht])
    rw [if_pos hsolid]
    exact ⟨_, List.mem_append_right _ (List.mem_singleton_self _), JsString.infix_trim ht hne hcurrent⟩

theorem Covers.add (ht : Tight w) (hne : w ≠ []) (h : Covers p w) : Covers (p.add cap sep piece) w := by
  unfold Packing.add
  split_ifs
  · exact .inl (h.flush ht hne)
  · rcases h with hchunk | hcurrent
    · exact .inl hchunk
    · have hopen : p.current ≠ [] := by
        intro hnil
        exact hne (List.infix_nil.1 (hnil ▸ hcurrent))
      refine .inr (hcurrent.trans ?_)
      simp only [Packing.cand, if_pos hopen]
      exact ⟨[], sep ++ piece, by simp⟩

theorem covers_add (h : w <:+: piece) : Covers (p.add cap sep piece) w := by
  unfold Packing.add
  split_ifs
  · exact .inr h
  · refine .inr (h.trans ?_)
    simp only [Packing.cand]
    split_ifs
    · exact (List.suffix_append _ _).isInfix
    · exact List.infix_refl piece

/-- what is covered stays covered through a loop -/
theorem foldl_keeps {α : Type} {step : Packing → α → Packing} (pieces : List α)
    (hstep : ∀ p piece, Covers p w → Covers (step p piece) w) (h : Covers p w) : Covers (pieces.foldl step p) w := by
  induction pieces generalizing p with
  | nil => exact h
  | cons x pieces ih => exact ih (hstep p x h)

/-- one piece of a loop is enough -/
theorem foldl_covers {α : Type} {step : Packing → α → Packing} {pieces : List α} {piece : α}
    (hstep : ∀ p piece, Covers p w → Covers (step p piece) w) (hmem : piece ∈ pieces)
    (hpiece : ∀ p, Covers (step p piece) w) : Covers (pieces.foldl step p) w := by
  obtain ⟨before, after, rfl⟩ := List.append_of_mem hmem
  rw [List.foldl_append, List.foldl_cons]
  exact foldl_keeps after hstep (hpiece _)

theorem trim_ne_nil_of_tight (ht : Tight w) (hne : w ≠ []) (h : w <:+: piece) : trim piece ≠ [] := by
  have hw := JsString.trim_of_tight ht
  exact JsString.trim_ne_nil (by rwa [hw]) (by rwa [hw])

theorem Covers.lineStep (ht : Tight w) (hne : w ≠ []) (h : Covers p w) : Covers (lineStep cap p piece) w := by
  unfold Stage3.lineStep
  split_ifs
  · exact h
  · exact h.add ht hne

theorem Covers.paraStep (ht : Tight w) (hne : w ≠ []) (h : Covers p w) : Covers (paraStep cap p piece) w := by
  unfold Stage3.paraStep
  split_ifs
  · exact h
  · exact foldl_keeps _ (fun p line hp => hp.lineStep ht hne) (.inl (h.flush ht hne))
  · exact h.add ht hne

theorem covers_paraStep (ht : Tight w) (hne : w ≠ []) (hw : newline ∉ w) (h : w <:+: piece) :
    Covers (paraStep cap p piece) w := by
  unfold paraStep
  rw [if_neg (trim_ne_nil_of_tight ht hne h)]
  split_ifs
  · obtain ⟨line, hline, hwl⟩ := infix_line hw h
    apply foldl_covers (fun p line hp => hp.lineStep ht hne) hline
    intro p
    rw [lineStep, if_neg (trim_ne_nil_of_tight ht hne hwl)]
    exact covers_add hwl
  · exact covers_add h

theorem splitLargeTurn_covers (ht : Tight w) (hne : w ≠ []) (hw : newline ∉ w) {text : JsString} (h : w <:+: text)
    (start : ℕ) : ∃ c ∈ splitLargeTurn cap text start, w <:+: c.text := by
  obtain ⟨para, hpara, hwp⟩ := (infix_paragraph hw hne false text).1 h
  have hcovers : Covers ((splitParagraphs false text).foldl (paraStep cap) ⟨[], [], start⟩) w :=
    foldl_covers (fun p para hp => hp.paraStep ht hne) hpara fun p => covers_paraStep ht hne hw hwp
  exact hcovers.flush ht hne

theorem foldl_push_chunks (sub : List Chunk) (p : Packing) (h : Covers p w ∨ ∃ c ∈ sub, w <:+: c.text) :
    Covers (sub.foldl (fun p sc => p.push sc.text) p) w := by
  have hkeep : ∀ (p : Packing) (c : Chunk), Covers p w → Covers (p.push c.text) w := by
    intro p c hp
    rcases hp with ⟨d, hd, hwd⟩ | hcurrent
    · exact .inl ⟨d, List.mem_append_left _ hd, hwd⟩
    · exact .inr hcurrent
  rcases h with hp | ⟨c, hc, hwc⟩
  · exact foldl_keeps sub hkeep hp
  · exact foldl_covers hkeep hc fun p => .inl ⟨⟨p.idx, c.text⟩, List.mem_append_right _ (List.mem_singleton_self _), hwc⟩

theorem Covers.packStep (ht : Tight w) (hne : w ≠ []) (h : Covers p w) (turn : Turn) : Covers (packStep cap p turn) w := by
  unfold Stage3.packStep
  simp only
  split_ifs
  · exact h
  · exact foldl_push_chunks _ _ (.inl (.inl (h.flush ht hne)))
  · exact h.add ht hne

theorem covers_packStep (ht : Tight w) (hne : w ≠ []) (hw : newline ∉ w) {turn : Turn} (h : w <:+: turn.text) :
    Covers (packStep cap p turn) w := by
  have hturn := JsString.infix_trim ht hne h
  unfold packStep
  simp only
  rw [if_neg (trim_ne_nil_of_tight ht hne h)]
  split_ifs
  · exact foldl_push_chunks _ _ (.inr (splitLargeTurn_covers ht hne hw hturn _))
  · exact covers_add hturn

theorem packTurns_covers (ht : Tight w) (hne : w ≠ []) (hw : newline ∉ w) {turns : List Turn} {turn : Turn}
    (hturn : turn ∈ turns) (h : w <:+: turn.text) : ∃ c ∈ packTurns cap turns, w <:+: c.text := by
  have hcovers : Covers (turns.foldl (packStep cap) ⟨[], [], 0⟩) w :=
    foldl_covers (fun p turn hp => hp.packStep ht hne turn) hturn fun p => covers_packStep ht hne hw h
  obtain ⟨c, hc, hwc⟩ := hcovers.flush ht hne
  unfold packTurns
  simp only
  rw [if_neg fun hnone => List.not_mem_nil (List.length_eq_zero_iff.1 hnone ▸ hc)]
  exact ⟨c, hc, hwc⟩

end

/-! ## Turns are lines of the text -/

section
variable {boundary : JsString → Bool} {all : List JsString}

/-- every turn joins lines of the text, and every line read is in a turn or in the open one -/
structure FromLines (all read : List JsString) (s : List Turn × List JsString) : Prop where
  turns : ∀ turn ∈ s.1, ∃ ls ≠ [], (∀ l ∈ ls, l ∈ all) ∧ turn.text <:+: joinLines ls
  current : ∀ l ∈ s.2, l ∈ all
  read : ∀ l ∈ read, (∃ turn ∈ s.1, l <:+: turn.text) ∨ l ∈ s.2

theorem fromLines_step {read : List JsString} {s : List Turn × List JsString} {line : JsString}
    (h : FromLines all read s) (hline : line ∈ all) : FromLines all (read ++ [line]) (turnStep boundary s line) := by
  unfold turnStep
  split_ifs with hbound
  · have hne : s.2 ≠ [] := List.length_pos_iff.1 hbound.2
    refine ⟨?_, by simpa using hline, ?_⟩
    · intro turn hturn
      rcases List.mem_append.1 hturn with hturn | hturn
      · exact h.turns turn hturn
      · rw [List.mem_singleton.1 hturn]
        exact ⟨s.2, hne, h.current, List.infix_refl _⟩
    · intro l hl
      rcases List.mem_append.1 hl with hl | hl
      · rcases h.read l hl with ⟨turn, hturn, hlt⟩ | hcurrent
        · exact .inl ⟨turn, List.mem_append_left _ hturn, hlt⟩
        · exact .inl ⟨⟨joinLines s.2⟩, List.mem_append_right _ (List.mem_singleton_self _), part_within hcurrent⟩
      · exact .inr hl
  · refine ⟨h.turns, ?_, ?_⟩
    · intro l hl
      rcases List.mem_append.1 hl with hl | hl
      · exact h.current l hl
      · rw [List.mem_singleton.1 hl]
        exact hline
    · intro l hl
      rcases List.mem_append.1 hl with hl | hl
      · rcases h.read l hl with hturn | hcurrent
        · exact .inl hturn
        · exact .inr (List.mem_append_left _ hcurrent)
      · exact .inr (List.mem_append_right _ hl)

theorem fromLines_foldl (rest : List JsString) {read : List JsString} {s : List Turn × List JsString}
    (h : FromLines all read s) (hrest : ∀ l ∈ rest, l ∈ all) :
    FromLines all (read ++ rest) (rest.foldl (turnStep boundary) s) := by
  induction rest generalizing read s with
  | nil => simpa using h
  | cons line rest ih =>
    have hstep : FromLines all (read ++ [line]) (turnStep boundary s line) :=
      fromLines_step h (hrest line List.mem_cons_self)
    have hall := ih hstep fun l hl => hrest l (List.mem_cons_of_mem line hl)
    rwa [List.append_assoc] at hall

theorem splitIntoTurns_lines (text : JsString) :
    FromLines (lines text) (lines text) ((lines text).foldl (turnStep (isTurnBoundary (lines text))) ([], [])) := by
  have hinitial : FromLines (lines text) [] ([], []) := ⟨by simp, by simp, by simp⟩
  exact fromLines_foldl (lines text) hinitial fun _ hl => hl

theorem turn_of_line {text line w : JsString} (ht : Tight w) (hne : w ≠ []) (hline : line ∈ lines text)
    (h : w <:+: line) : ∃ turn ∈ splitIntoTurns text, w <:+: turn.text := by
  unfold splitIntoTurns
  simp only
  rcases (splitIntoTurns_lines text).read line hline with ⟨turn, hturn, hlt⟩ | hcurrent
  · refine ⟨turn, ?_, h.trans hlt⟩
    split_ifs
    · exact List.mem_append_left _ hturn
    · exact hturn
    · exact hturn
  · have hjoin : w <:+: [newline].intercalate _ := h.trans (part_within hcurrent)
    rw [if_pos (List.length_pos_of_mem hcurrent)]
    have hsolid := trim_ne_nil_of_tight ht hne hjoin
    unfold joinLines
    rw [if_pos hsolid]
    exact ⟨_, List.mem_append_right _ (List.mem_singleton_self _), JsString.infix_trim ht hne hjoin⟩

theorem lines_of_turn {text : JsString} {turn : Turn} (h : turn ∈ splitIntoTurns text) :
    ∃ ls ≠ [], (∀ l ∈ ls, l ∈ lines text) ∧ turn.text <:+: joinLines ls := by
  have hloop := splitIntoTurns_lines text
  unfold splitIntoTurns at h
  simp only at h
  split_ifs at h with hlen hsolid
  · rcases List.mem_append.1 h with h | h
    · exact hloop.turns turn h
    · rw [List.mem_singleton.1 h]
      exact ⟨_, List.length_pos_iff.1 hlen, hloop.current, JsString.trim_within _⟩
  · exact hloop.turns turn h
  · exact hloop.turns turn h

end

/-- **Lines.** A line, its surrounding white space aside, stands whole in a chunk. -/
theorem line_in_chunk (cap : Cap) {text line : JsString} (hline : line ∈ lines text) :
    ∃ c ∈ chunk cap text, trim line <:+: c.text := by
  by_cases hblank : trim line = []
  · have hne : chunk cap text ≠ [] := by
      unfold chunk packTurns
      simp only
      split_ifs with hnone
      · simp
      · exact fun hnil => hnone (by rw [hnil]; rfl)
    obtain ⟨c, rest, hc⟩ := List.exists_cons_of_ne_nil hne
    exact ⟨c, hc ▸ List.mem_cons_self, hblank ▸ List.nil_infix⟩
  · have ht := JsString.tight_trim line
    have hfree : newline ∉ trim line := by
      intro hmem
      exact notMem_of_mem_splitOn newline hline ((JsString.trim_within line).subset hmem)
    obtain ⟨turn, hturn, hw⟩ := turn_of_line ht hblank hline (JsString.trim_within line)
    exact packTurns_covers ht hblank hfree hturn hw

/-! ## A chunk over the cap is one line's -/

/-- a piece of a line of the text -/
def InLine (all : List JsString) (w : JsString) : Prop := ∃ l ∈ all, w <:+: l

/-- the text fits the cap, or it is a piece of a line -/
def Fine (cap : Cap) (all : List JsString) (w : JsString) : Prop := cap.exceeded w.length = false ∨ InLine all w

structure Capped (cap : Cap) (all : List JsString) (p : Packing) : Prop where
  chunks : ∀ c ∈ p.chunks, Tight c.text ∧ Fine cap all c.text
  current : Fine cap all p.current
  solid : p.Solid

section
variable {cap : Cap} {all : List JsString} {p : Packing} {sep piece w v : JsString}

theorem Fine.mono (h : Fine cap all w) (hvw : v <:+: w) : Fine cap all v := by
  rcases h with hfit | ⟨l, hl, hwl⟩
  · exact .inl (Cap.exceeded_mono hvw.length_le hfit)
  · exact .inr ⟨l, hl, hvw.trans hwl⟩

theorem fine_nil (hall : all ≠ []) : Fine cap all [] := by
  obtain ⟨l, rest, hl⟩ := List.exists_cons_of_ne_nil hall
  exact .inr ⟨l, hl ▸ List.mem_cons_self, List.nil_infix⟩

theorem Capped.flush (h : Capped cap all p) : Capped cap all p.flush := by
  have hcurrent := h.solid.flush
  refine ⟨?_, ?_, .inl hcurrent⟩
  · intro c hc
    unfold Packing.flush at hc
    split_ifs at hc
    · rcases List.mem_append.1 hc with hc | hc
      · exact h.chunks c hc
      · rw [List.mem_singleton.1 hc]
        exact ⟨JsString.tight_trim _, h.current.mono (JsString.trim_within _)⟩
    · exact h.chunks c hc
  · rw [hcurrent]
    exact h.current.mono List.nil_infix

theorem Capped.add (h : Capped cap all p) (hpiece : Fine cap all piece) (hsolid : trim piece ≠ []) :
    Capped cap all (p.add cap sep piece) := by
  have hnext : (p.add cap sep piece).Solid := Packing.solid_add hsolid
  unfold Packing.add at hnext ⊢
  split_ifs at hnext ⊢ with hfull
  · exact ⟨h.flush.chunks, hpiece, hnext⟩
  · refine ⟨h.chunks, ?_, hnext⟩
    rcases h.solid with hnil | hopen
    · simpa [Packing.cand, hnil] using hpiece
    · exact .inl (Bool.eq_false_iff.2 fun hlarge => hfull ⟨hlarge, hopen⟩)

theorem Capped.foldl {step : Packing → JsString → Packing} (pieces : List JsString)
    (hstep : ∀ p, ∀ piece ∈ pieces, Capped cap all p → Capped cap all (step p piece)) (h : Capped cap all p) :
    Capped cap all (pieces.foldl step p) := by
  induction pieces generalizing p with
  | nil => exact h
  | cons piece pieces ih =>
    exact ih (fun p next hnext => hstep p next (List.mem_cons_of_mem piece hnext)) (hstep p piece List.mem_cons_self h)

theorem Capped.paraStep (h : Capped cap all p) (hpiece : ∀ v, newline ∉ v → v <:+: piece → InLine all v) :
    Capped cap all (paraStep cap p piece) := by
  unfold Stage3.paraStep
  split_ifs with hblank hlarge
  · exact h
  · apply h.flush.foldl
    intro p line hline hp
    unfold Stage3.lineStep
    split_ifs with hline'
    · exact hp
    · exact hp.add (.inr (hpiece line (notMem_of_mem_splitOn newline hline) (line_within hline))) hline'
  · exact h.add (.inl (Bool.eq_false_iff.2 hlarge)) hblank

theorem splitLargeTurn_capped (hall : all ≠ []) {text : JsString}
    (htext : ∀ v, newline ∉ v → v <:+: text → InLine all v) (start : ℕ) :
    ∀ c ∈ splitLargeTurn cap text start, Tight c.text ∧ Fine cap all c.text := by
  have hinitial : Capped cap all ⟨[], [], start⟩ := ⟨by simp, fine_nil hall, .inl rfl⟩
  have hloop : Capped cap all ((splitParagraphs false text).foldl (Stage3.paraStep cap) ⟨[], [], start⟩) := by
    apply hinitial.foldl
    intro p para hpara hp
    exact hp.paraStep fun v hv hvp => htext v hv (hvp.trans ((paragraph_within false text).1 para hpara))
  exact hloop.flush.chunks

theorem Capped.packStep (hall : all ≠ []) (h : Capped cap all p) {turn : Turn}
    (hturn : ∀ v, newline ∉ v → v <:+: turn.text → InLine all v) : Capped cap all (packStep cap p turn) := by
  unfold Stage3.packStep
  simp only
  split_ifs with hblank hlarge
  · exact h
  · have hsub : ∀ c ∈ splitLargeTurn cap (trim turn.text) p.flush.idx, Tight c.text ∧ Fine cap all c.text := by
      apply splitLargeTurn_capped hall
      intro v hv hvt
      exact hturn v hv (hvt.trans (JsString.trim_within turn.text))
    obtain ⟨htexts, hcurrent⟩ := foldl_push (splitLargeTurn cap (trim turn.text) p.flush.idx) p.flush
    have hempty := h.solid.flush
    refine ⟨?_, by rw [hcurrent]; exact h.flush.current, .inl (hcurrent.trans hempty)⟩
    intro c hc
    have htext := List.mem_map_of_mem (f := Chunk.text) hc
    rw [htexts, List.mem_append] at htext
    rcases htext with htext | htext
    · obtain ⟨d, hd, heq⟩ := List.mem_map.1 htext
      exact heq ▸ h.flush.chunks d hd
    · obtain ⟨d, hd, heq⟩ := List.mem_map.1 htext
      exact heq ▸ hsub d hd
  · have hsolid : trim (trim turn.text) ≠ [] := by rwa [JsString.trim_trim]
    exact h.add (.inl (Bool.eq_false_iff.2 hlarge)) hsolid

end

/-- **Long chunks.** A chunk fits the cap or is a piece of one line, and no white space surrounds it. -/
theorem chunk_capped (cap : Cap) (text : JsString) :
    ∀ c ∈ chunk cap text, Tight c.text ∧ Fine cap (lines text) c.text := by
  have hturns : ∀ turn ∈ splitIntoTurns text, ∀ v, newline ∉ v → v <:+: turn.text → InLine (lines text) v := by
    intro turn hturn v hv hvt
    obtain ⟨ls, hls, hall, hjoin⟩ := lines_of_turn hturn
    obtain ⟨l, hl, hvl⟩ := infix_part hls hv (hvt.trans hjoin)
    exact ⟨l, hall l hl, hvl⟩
  have hrun : ∀ (turns : List Turn) (p : Packing), (∀ turn ∈ turns, turn ∈ splitIntoTurns text) →
      Capped cap (lines text) p → Capped cap (lines text) (turns.foldl (packStep cap) p) := by
    intro turns
    induction turns with
    | nil => exact fun p _ hp => hp
    | cons turn turns ih =>
      intro p hmem hp
      apply ih _ fun next hnext => hmem next (List.mem_cons_of_mem turn hnext)
      exact hp.packStep (lines_ne_nil text) (hturns turn (hmem turn List.mem_cons_self))
  have hloop := hrun (splitIntoTurns text) ⟨[], [], 0⟩ (fun _ h => h) ⟨by simp, fine_nil (lines_ne_nil text), .inl rfl⟩
  unfold chunk packTurns
  simp only
  split_ifs
  · intro c hc
    rw [List.mem_singleton.1 hc]
    exact ⟨JsString.tight_trim [], fine_nil (lines_ne_nil text)⟩
  · exact hloop.flush.chunks

/-- **The cap.** Every chunk keeps to it just when every line of the text does, its surrounding white space aside. -/
theorem chunk_cap_iff (text : JsString) (cap : Cap) :
    (∀ c ∈ chunk cap text, cap.AtMost c.text.length) ↔ ∀ line ∈ lines text, cap.AtMost (trim line).length := by
  constructor
  · intro h line hline
    obtain ⟨c, hc, hinfix⟩ := line_in_chunk cap hline
    exact Cap.atMost_mono hinfix.length_le (h c hc)
  · intro h c hc
    obtain ⟨first, rest, hfirst⟩ := List.exists_cons_of_ne_nil (lines_ne_nil text)
    have hsome := h first (hfirst ▸ List.mem_cons_self)
    obtain ⟨ht, hfit | ⟨line, hline, hinfix⟩⟩ := chunk_capped cap text c hc
    · exact Cap.atMost_iff.2 ⟨(Cap.atMost_iff.1 hsome).1, hfit⟩
    · by_cases hne : c.text = []
      · rw [hne]
        exact Cap.atMost_mono (Nat.zero_le _) hsome
      · exact Cap.atMost_mono (JsString.infix_trim ht hne hinfix).length_le (h line hline)

/-- two characters on one line, and a cap of one -/
theorem long_line_over_cap : ¬ ∀ c ∈ chunk (.finite 1) [0x61, 0x62], (Cap.finite 1).AtMost c.text.length := by
  intro h
  have hmem : [0x61, 0x62] ∈ lines [0x61, 0x62] := by decide
  obtain ⟨c, hc, hinfix⟩ := line_in_chunk (.finite 1) hmem
  have htrim : trim [0x61, 0x62] = [0x61, 0x62] := by decide
  have hle := Cap.atMost_mono hinfix.length_le (h c hc)
  rw [htrim] at hle
  norm_num [Cap.AtMost, Cap.exceeded] at hle

end AstramemLocal.Distill.Stage3
