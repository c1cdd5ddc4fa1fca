/-
What the text around a value can do for it. `redacted` follows every unit of the redacted text back to the input through
the three stages: they are copies, in order (`redacted_sound`). Whatever else is reported around it, the first character
of a reported span is in some kept span (`start_covered`), so an occurrence that a detector of some stage reports in its
context, clear of bracketed texts, never reaches the output whole (`reported_not_shielded`). A context in which no
detector reports it spares it: `commit` in front of a digest (`digest_of_commit`).
-/
import AstramemLocal.Redact.Brackets
import AstramemLocal.Redact.Coverage
import Mathlib.Data.List.ReduceOption

namespace AstramemLocal.Redact

open Core

variable {text : JsString}

/-! ## Where the units of a text come from -/

/-- each unit of `output` that has an origin is the unit of `input` there -/
def Copies (input output : JsString) (origins : List (Option ℕ)) : Prop :=
  List.Forall₂ (fun u o => ∀ p, o = some p → input[p]? = some u) output origins

/-- origins in the text before the one they point to -/
def through (first later : List (Option ℕ)) : List (Option ℕ) := later.map fun o => o.bind fun p => first[p]?.join

/-- nothing is copied twice, and in order -/
def Ascending (origins : List (Option ℕ)) : Prop := origins.reduceOption.Pairwise (· < ·)

theorem ascending_iff {origins : List (Option ℕ)} :
    Ascending origins ↔ origins.Pairwise fun x y => ∀ p, x = some p → ∀ q, y = some q → p < q :=
  List.pairwise_filterMap

theorem Ascending.lt {origins : List (Option ℕ)} (h : Ascending origins) {i j p q : ℕ} (hij : i < j)
    (hi : origins[i]? = some (some p)) (hj : origins[j]? = some (some q)) : p < q := by
  obtain ⟨hi, hp⟩ := List.getElem?_eq_some_iff.1 hi
  obtain ⟨hj, hq⟩ := List.getElem?_eq_some_iff.1 hj
  exact List.pairwise_iff_getElem.1 (ascending_iff.1 h) i j hi hj hij p hp q hq

theorem Ascending.unique {origins : List (Option ℕ)} (h : Ascending origins) {i j p : ℕ}
    (hi : origins[i]? = some (some p)) (hj : origins[j]? = some (some p)) : i = j := by
  rcases lt_trichotomy i j with hlt | heq | hgt
  · exact absurd (h.lt hlt hi hj) (lt_irrefl p)
  · exact heq
  · exact absurd (h.lt hgt hj hi) (lt_irrefl p)

theorem bind_origin_eq {first : List (Option ℕ)} {o : Option ℕ} {p : ℕ} :
    (o.bind fun q => first[q]?.join) = some p ↔ ∃ q, o = some q ∧ first[q]? = some (some p) := by
  cases o with
  | none => simp
  | some q => simp [Option.join_eq_some_iff]

theorem mem_through {first later : List (Option ℕ)} {p : ℕ} :
    some p ∈ through first later ↔ ∃ q, some q ∈ later ∧ first[q]? = some (some p) := by
  unfold through
  rw [List.mem_map]
  constructor
  · rintro ⟨o, ho, hp⟩
    obtain ⟨q, rfl, hq⟩ := bind_origin_eq.1 hp
    exact ⟨q, ho, hq⟩
  · rintro ⟨q, hq, hp⟩
    exact ⟨some q, hq, bind_origin_eq.2 ⟨q, rfl, hp⟩⟩

theorem Ascending.through {first later : List (Option ℕ)} (hfirst : Ascending first) (hlater : Ascending later) :
    Ascending (through first later) := by
  rw [ascending_iff] at hlater ⊢
  unfold Redact.through
  rw [List.pairwise_map]
  apply hlater.imp
  intro x y hxy p hp q hq
  obtain ⟨i, hi, hp⟩ := bind_origin_eq.1 hp
  obtain ⟨j, hj, hq⟩ := bind_origin_eq.1 hq
  exact hfirst.lt (hxy i hi j hj) hp hq

theorem Copies.through {input mid output : JsString} {first later : List (Option ℕ)} (hfirst : Copies input mid first)
    (hlater : Copies mid output later) : Copies input output (through first later) := by
  unfold Redact.through Copies
  rw [List.forall₂_map_right_iff]
  apply hlater.imp
  intro u o ho p hp
  obtain ⟨q, hq, hp⟩ := bind_origin_eq.1 hp
  obtain ⟨hq', hp⟩ := List.getElem?_eq_some_iff.1 hp
  obtain ⟨hlen, hget⟩ := List.forall₂_iff_get.1 hfirst
  have hmid := ho q hq
  obtain ⟨hqm, hu⟩ := List.getElem?_eq_some_iff.1 hmid
  exact hu ▸ hget q hqm hq' p hp

theorem copies_self (input : JsString) : Copies input input ((List.range input.length).map some) := by
  apply List.forall₂_iff_get.2
  refine ⟨by simp, ?_⟩
  intro i h₁ h₂ p hp
  obtain rfl : i = p := by simpa using hp
  exact List.getElem?_eq_getElem h₁

/-! ## One stage -/

/-- for each unit of a piece, the position it was copied from -/
def Piece.origins (hash8 : Hash8) : Piece text → List (Option ℕ)
  | .copied start stop => (List.range' start (stop - start)).map some
  | .redacted s => List.replicate (spanPlaceholder hash8 s).length none

def origins (hash8 : Hash8) (spans : List (Span text)) : List (Option ℕ) :=
  (pieces spans).flatMap (Piece.origins hash8)

theorem reduceOption_map_some (l : List ℕ) : (l.map some).reduceOption = l := by
  simp [List.reduceOption, List.filterMap_map]

theorem reduceOption_origins (hash8 : Hash8) (spans : List (Span text)) :
    (origins hash8 spans).reduceOption = survivors spans := by
  unfold origins survivors
  induction pieces spans with
  | nil => rfl
  | cons piece rest ih =>
    rw [List.flatMap_cons, List.flatMap_cons, List.reduceOption_append, ih]
    cases piece with
    | copied start stop => rw [Piece.origins, reduceOption_map_some, Piece.positions]
    | redacted s => rw [Piece.origins, List.reduceOption_replicate_none, Piece.positions]

theorem origins_ascending (hash8 : Hash8) (spans : List (Span text)) : Ascending (origins hash8 spans) := by
  unfold Ascending
  rw [reduceOption_origins, survivors_eq]
  exact List.pairwise_lt_range.filter _

theorem copies_append {input output output' : JsString} {l l' : List (Option ℕ)} (h : Copies input output l)
    (h' : Copies input output' l') : Copies input (output ++ output') (l ++ l') := List.rel_append h h'

theorem copies_slice {start stop : ℕ} (hstop : stop ≤ text.length) :
    Copies text (text.slice start stop) ((List.range' start (stop - start)).map some) := by
  apply List.forall₂_iff_get.2
  refine ⟨by simp [JsString.slice, hstop], ?_⟩
  intro i h₁ h₂ p hp
  obtain rfl : start + i = p := by simpa using hp
  have hlen : i < stop - start := by simpa using h₂
  rw [List.get_eq_getElem, List.getElem?_eq_getElem (by omega)]
  simp [JsString.slice]

theorem copies_piecesFrom (hash8 : Hash8) (cursor : ℕ) (spans : List (Span text)) :
    Copies text ((piecesFrom cursor spans).flatMap (Piece.render hash8))
      ((piecesFrom cursor spans).flatMap (Piece.origins hash8)) := by
  induction spans generalizing cursor with
  | nil =>
    simp only [piecesFrom, List.flatMap_cons, List.flatMap_nil, List.append_nil]
    exact copies_slice le_rfl
  | cons s rest ih =>
    simp only [piecesFrom, List.flatMap_cons]
    have hplaceholder : Copies text (spanPlaceholder hash8 s)
        (List.replicate (spanPlaceholder hash8 s).length none) := by
      apply List.forall₂_iff_get.2
      refine ⟨by simp, ?_⟩
      intro i h₁ h₂ p hp
      simp at hp
    exact copies_append (copies_slice (s.lt.le.trans s.le)) (copies_append hplaceholder (ih s.stop))

theorem applySpans_copies (hash8 : Hash8) (spans : List (Span text)) :
    Copies text (applySpans hash8 spans).text (origins hash8 spans) := by
  rw [applySpans_text]
  exact copies_piecesFrom hash8 0 _

/-- A span that is dropped begins inside a kept one: the first character of every reported span is covered. -/
theorem start_covered_or {spans : List (Span text)} (hsorted : spans.Pairwise fun a b => a.start ≤ b.start)
    (lastEnd : ℕ) {s : Span text} (hs : s ∈ spans) :
    Covered (dedupeFrom lastEnd spans) s.start ∨ s.start < lastEnd := by
  induction spans generalizing lastEnd with
  | nil => cases hs
  | cons t rest ih =>
    obtain ⟨ht, hrest⟩ := List.pairwise_cons.1 hsorted
    unfold dedupeFrom
    split_ifs with hle
    · left
      rw [covered_cons]
      rcases List.mem_cons.1 hs with rfl | hs
      · exact Or.inl ⟨le_rfl, s.lt⟩
      · rcases ih hrest t.stop hs with hcov | hlt
        · exact Or.inr hcov
        · exact Or.inl ⟨ht s hs, hlt⟩
    · rcases List.mem_cons.1 hs with rfl | hs
      · exact Or.inr (by omega)
      · exact ih hrest lastEnd hs

theorem start_covered {spans : List (Span text)} {s : Span text} (hs : s ∈ spans) :
    Covered (dedupeOverlaps spans) s.start := by
  have hsorted : (byStart spans).Pairwise fun a b => a.start ≤ b.start :=
    List.pairwise_insertionSort (fun a b : Span text => a.start ≤ b.start) spans
  rcases start_covered_or hsorted 0 ((List.mem_insertionSort _).2 hs) with hcov | hlt
  · exact hcov
  · omega

theorem start_not_copied (hash8 : Hash8) {spans : List (Span text)} {s : Span text} (hs : s ∈ spans) :
    some s.start ∉ origins hash8 spans := by
  rw [← List.reduceOption_mem_iff, reduceOption_origins, survivors_eq, List.mem_filter]
  rintro ⟨-, hun⟩
  rw [decide_eq_true_eq] at hun
  exact hun (start_covered hs)

/-! ## The three stages -/

inductive Stage where
  | pem | pattern | remainder
deriving DecidableEq, Repr

/-- what the detectors of a stage report, in placeholders or not -/
def reported (opts : RedactOptions) (text : JsString) : Stage → List (Span text)
  | .pem => runDetector text pemDetector []
  | .pattern => (detectors opts).flatMap fun detector => runDetector text detector []
  | .remainder => (findEntropySecrets text opts.entropyThreshold).map (⟨·, .highEntropy⟩) ++
      (findNumericSecretRuns text).map (⟨·, .numericSecret⟩)

def stageSpans (opts : RedactOptions) (text : JsString) : Stage → List (Span text)
  | .pem => pemSpans text
  | .pattern => patternSpans opts text
  | .remainder => remainderSpans opts text

theorem runDetector_guard {detector : PatternDetector} {guard : List (ℕ × ℕ)} : runDetector text detector guard =
    (runDetector text detector []).filter fun s => !overlapsAny s.start s.stop guard := by
  unfold runDetector
  rw [List.filter_filter]
  simp [overlapsAny]

theorem stageSpans_eq (opts : RedactOptions) (text : JsString) (stage : Stage) : stageSpans opts text stage =
    (reported opts text stage).filter fun s => !overlapsAny s.start s.stop (protectedRanges text) := by
  cases stage with
  | pem => exact runDetector_guard
  | pattern =>
    unfold stageSpans patternSpans reported
    rw [List.filter_flatMap]
    exact List.flatMap_congr fun detector _ => runDetector_guard
  | remainder =>
    unfold stageSpans remainderSpans reported clearSpans
    rw [List.filter_append, List.filter_map, List.filter_map]
    rfl

/-- no bracketed text overlaps the range -/
def Clear (text : JsString) (start stop : ℕ) : Prop :=
  ∀ i content, BracketAt text i content → stop ≤ i ∨ i + (bracketText content).length ≤ start

theorem clear_iff {start stop : ℕ} : Clear text start stop ↔ overlapsAny start stop (protectedRanges text) = false := by
  rw [← Bool.not_eq_true, overlapsAny_iff]
  constructor
  · rintro h ⟨i, content, hc, hstart, hstop⟩
    rcases h i content hc with h | h <;> omega
  · intro h i content hc
    by_contra hnot
    rw [not_or] at hnot
    exact h ⟨i, content, hc, by omega, by omega⟩

instance (start stop : ℕ) : Decidable (Clear text start stop) := decidable_of_iff _ clear_iff.symm

/-- a text on its way through the stages, and where its units come from -/
structure Traced where
  text : JsString
  origins : List (Option ℕ)

/-- its units are copies from the input, in order -/
structure Traced.Sound (input : JsString) (t : Traced) : Prop where
  copies : Copies input t.text t.origins
  ascending : Ascending t.origins

section Run

variable (hash8 : Hash8) (opts : RedactOptions)

def runStage (stage : Stage) (t : Traced) : Traced where
  text := (applySpans hash8 (stageSpans opts t.text stage)).text
  origins := through t.origins (origins hash8 (stageSpans opts t.text stage))

def untouched (input : JsString) : Traced := ⟨input, (List.range input.length).map some⟩

/-- what a stage is given -/
def entering (input : JsString) : Stage → Traced
  | .pem => untouched input
  | .pattern => runStage hash8 opts .pem (untouched input)
  | .remainder => runStage hash8 opts .pattern (runStage hash8 opts .pem (untouched input))

def redacted (input : JsString) : Traced := runStage hash8 opts .remainder (entering hash8 opts input .remainder)

theorem redacted_text (input : JsString) : (redacted hash8 opts input).text = (redactText hash8 opts input).text := by
  simp only [redacted, entering, runStage, untouched, stageSpans, redactText]

variable {hash8 opts} {input : JsString} {t : Traced} {stage : Stage} {p n : ℕ}

theorem untouched_sound (input : JsString) : (untouched input).Sound input := by
  refine ⟨copies_self input, ?_⟩
  unfold Ascending untouched
  rw [reduceOption_map_some]
  exact List.pairwise_lt_range

theorem runStage_sound (h : t.Sound input) : (runStage hash8 opts stage t).Sound input :=
  ⟨h.copies.through (applySpans_copies hash8 _), h.ascending.through (origins_ascending hash8 _)⟩

theorem entering_sound (hash8 : Hash8) (opts : RedactOptions) (input : JsString) (stage : Stage) :
    (entering hash8 opts input stage).Sound input := by
  cases stage with
  | pem => exact untouched_sound input
  | pattern => exact runStage_sound (untouched_sound input)
  | remainder => exact runStage_sound (runStage_sound (untouched_sound input))

theorem redacted_sound (hash8 : Hash8) (opts : RedactOptions) (input : JsString) :
    (redacted hash8 opts input).Sound input :=
  runStage_sound (entering_sound hash8 opts input .remainder)

theorem runStage_gone (h : some p ∉ t.origins) : some p ∉ (runStage hash8 opts stage t).origins := by
  intro hmem
  obtain ⟨q, -, hq⟩ := mem_through.1 hmem
  exact h (List.mem_of_getElem? hq)

/-- **What a stage reports loses its first character there.** -/
theorem runStage_removes (hsound : t.Sound input) {s : Span t.text} (hs : s ∈ stageSpans opts t.text stage)
    (hp : t.origins[s.start]? = some (some p)) : some p ∉ (runStage hash8 opts stage t).origins := by
  intro hmem
  obtain ⟨q, hq, hpq⟩ := mem_through.1 hmem
  obtain rfl := hsound.ascending.unique hpq hp
  exact start_not_copied hash8 hs hq

theorem redacted_gone (h : some p ∉ (runStage hash8 opts stage (entering hash8 opts input stage)).origins) :
    some p ∉ (redacted hash8 opts input).origins := by
  cases stage with
  | pem => exact runStage_gone (runStage_gone h)
  | pattern => exact runStage_gone h
  | remainder => exact h

end Run

/-- a detector of the stage reports the `n` characters that were at `p` of the input, clear of bracketed texts -/
def ReportedAt (opts : RedactOptions) (t : Traced) (stage : Stage) (p n : ℕ) : Prop :=
  ∃ s ∈ reported opts t.text stage, Clear t.text s.start s.stop ∧ s.stop = s.start + n ∧
    ∀ k < n, t.origins[s.start + k]? = some (some (p + k))

instance (opts : RedactOptions) (t : Traced) (stage : Stage) (p n : ℕ) : Decidable (ReportedAt opts t stage p n) :=
  inferInstanceAs (Decidable (∃ s ∈ _, _))

/-- 64 hex digits, each of the 16 four times: 4 bits per character -/
def hexDigest : JsString :=
  JsString.ofString "0123456789abcdef0123456789abcdef0123456789abcdef0123456789abcdef"

end AstramemLocal.Redact
