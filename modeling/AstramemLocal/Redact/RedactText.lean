/-
`redactText` (`src/redact/index.ts`): three stages, each of which collects the spans its detectors report outside the
placeholders of its text, drops those that overlap an earlier one, and puts placeholders in their places. A custom
pattern is any compiled pattern, or none where its source does not compile.
-/
import AstramemLocal.Redact.Entropy
import Mathlib.Data.List.Sort

namespace AstramemLocal.Redact

open Core Core.Re

/-- the first 8 hex digits of the SHA-256 digest -/
structure Hash8 where
  digest : JsString → JsString
  length_eq : ∀ value, (digest value).length = 8
  hex : ∀ value, ∀ u ∈ digest value, hexDigit u = true

structure RedactionEvent where
  type : SecretType
  hash8 : JsString
  offset : ℕ
deriving DecidableEq, Repr

structure RedactOptions where
  entropyThreshold : ℚ
  customPatterns : List (Option RegExp)

def RedactOptions.default : RedactOptions := ⟨4, []⟩

structure RedactResult where
  text : JsString
  events : List RedactionEvent
deriving DecidableEq, Repr

def placeholder (type : SecretType) (digest : JsString) : JsString :=
  JsString.ofString "[REDACTED:" ++ JsString.ofString type.name ++ JsString.ofString ":" ++ digest ++
    JsString.ofString "]"

/-- what `PLACEHOLDER_RE_G` finds -/
def protectedRanges (text : JsString) : List (ℕ × ℕ) :=
  ((bracketed.compile false).allMatches text).map fun m => (m.start, m.stop)

def overlapsAny (start stop : ℕ) (ranges : List (ℕ × ℕ)) : Bool := ranges.any fun r => start < r.2 && r.1 < stop

structure Span (text : JsString) extends Stretch text where
  type : SecretType
deriving DecidableEq, Repr

/-- the range of the group, or of the whole match where there is none -/
def valueRange {text : JsString} (m : Match text) (group : Option ℕ) : ℕ × ℕ :=
  (group.bind m.groups).getD (m.start, m.stop)

theorem valueRange_le {text : JsString} (m : Match text) (group : Option ℕ) :
    (valueRange m group).2 ≤ text.length := by
  unfold valueRange
  cases h : group.bind m.groups with
  | none => exact m.stop_le
  | some r =>
    obtain ⟨n, -, hn⟩ := Option.bind_eq_some_iff.1 h
    exact m.groups_le n r.1 r.2 hn

def matchSpan {text : JsString} (detector : PatternDetector) (m : Match text) : Option (Span text) :=
  let range := valueRange m detector.valueGroup
  if h : range.1 < range.2 then some ⟨⟨range.1, range.2, h, valueRange_le m detector.valueGroup⟩, detector.type⟩
  else none

/-- the spans of one detector that are clear of the guarded ranges -/
def runDetector (text : JsString) (detector : PatternDetector) (guard : List (ℕ × ℕ)) : List (Span text) :=
  ((detector.regex.allMatches text).filterMap (matchSpan detector)).filter fun s =>
    !overlapsAny s.start s.stop guard && detector.valueFilter.all (· s.value)

section Apply

variable {text : JsString}

def byStart (spans : List (Span text)) : List (Span text) := spans.insertionSort fun a b => a.start ≤ b.start

/-- the scan of `dedupeOverlaps`; its `lastEnd` is -1 before the first span, which keeps the same spans as 0 -/
def dedupeFrom (lastEnd : ℕ) : List (Span text) → List (Span text)
  | [] => []
  | s :: rest => if lastEnd ≤ s.start then s :: dedupeFrom s.stop rest else dedupeFrom lastEnd rest

def dedupeOverlaps (spans : List (Span text)) : List (Span text) := dedupeFrom 0 (byStart spans)

variable (hash8 : Hash8)

def spanPlaceholder (s : Span text) : JsString := placeholder s.type (hash8.digest s.value)

/-- the loop of `applySpans`, from `cursor` on -/
def applyFrom (cursor : ℕ) : List (Span text) → JsString
  | [] => text.drop cursor
  | s :: rest => text.slice cursor s.start ++ spanPlaceholder hash8 s ++ applyFrom s.stop rest

def applySpans (spans : List (Span text)) : RedactResult :=
  if spans = [] then ⟨text, []⟩
  else
    let sorted := dedupeOverlaps spans
    ⟨applyFrom hash8 0 sorted, sorted.map fun s => ⟨s.type, hash8.digest s.value, s.start⟩⟩

end Apply

/-! ## The stages -/

def pemSpans (text : JsString) : List (Span text) := runDetector text pemDetector (protectedRanges text)

/-- vendor patterns first, then the custom ones that compile -/
def detectors (opts : RedactOptions) : List PatternDetector :=
  patternDetectors ++ opts.customPatterns.reduceOption.map customDetector

def patternSpans (opts : RedactOptions) (text : JsString) : List (Span text) :=
  (detectors opts).flatMap fun detector => runDetector text detector (protectedRanges text)

def clearSpans (text : JsString) (type : SecretType) (found : List (Stretch text)) : List (Span text) :=
  (found.filter fun s => !overlapsAny s.start s.stop (protectedRanges text)).map fun s => ⟨s, type⟩

def remainderSpans (opts : RedactOptions) (text : JsString) : List (Span text) :=
  clearSpans text .highEntropy (findEntropySecrets text opts.entropyThreshold) ++
    clearSpans text .numericSecret (findNumericSecretRuns text)

def redactText (hash8 : Hash8) (opts : RedactOptions) (input : JsString) : RedactResult :=
  let pem := applySpans hash8 (pemSpans input)
  let pattern := applySpans hash8 (patternSpans opts pem.text)
  let remainder := applySpans hash8 (remainderSpans opts pattern.text)
  ⟨remainder.text, pem.events ++ pattern.events ++ remainder.events⟩

end AstramemLocal.Redact
