/-
How far ahead the speaker is that `attributeSpeaker` returns. The second tier demands a margin over the runner-up, the
first tier does not: a short utterance inside the quote is a match, even in the middle of a word, and alone decides.
- `attribute_perm`: the order of the lines does not matter;
- `unambiguous_iff`: the speaker returned is ahead of all others exactly when the first tier, where it decides, decides
  for a speaker who is.
-/
import AstramemLocal.Distill.AttributeSpeaker

namespace AstramemLocal.Distill

open AstramemLocal.Core JsString

variable (U : Unicode)

/-- the best line of the speaker scores at least the margin above every line of the others -/
def Ahead (ls : List LabeledLine) (needle speaker : JsString) : Prop :=
  ∃ l ∈ ls, l.speaker = speaker ∧ ∀ o ∈ ls, o.speaker ≠ speaker →
    tokenContainment U needle o.utterance + ambiguityMargin ≤ tokenContainment U needle l.utterance

/-- the speaker returned is ahead of all others, and the same for every order of the lines -/
def Unambiguous (transcriptText : JsString) (evidence : Option JsString) : Prop :=
  (∀ speaker, attributeSpeaker U transcriptText evidence = some speaker →
    ∃ quote, evidence = some quote ∧ Ahead U (extractLabeledLines transcriptText) (JsString.trim quote) speaker) ∧
  ∀ shuffled, (lines shuffled).Perm (lines transcriptText) →
    attributeSpeaker U shuffled evidence = attributeSpeaker U transcriptText evidence

variable {U}

theorem unanimous_congr {ls ls' : List LabeledLine} (h : ls.Perm ls') {needle speaker : JsString} :
    Unanimous ls needle speaker ↔ Unanimous ls' needle speaker := by
  unfold Unanimous
  simp only [h.mem_iff]

theorem points_congr {ls ls' : List LabeledLine} (h : ls.Perm ls') {needle : JsString} {l : LabeledLine} :
    Points U ls needle l ↔ Points U ls' needle l := by
  unfold Points
  simp only [h.mem_iff, unanimous_congr h, leads_congr h]

/-- **Order.** The result is the same for every order of the lines. -/
theorem attribute_perm {transcriptText shuffled : JsString} (h : (lines shuffled).Perm (lines transcriptText))
    (evidence : Option JsString) : attributeSpeaker U shuffled evidence = attributeSpeaker U transcriptText evidence := by
  have hlabeled : (extractLabeledLines shuffled).Perm (extractLabeledLines transcriptText) := h.filterMap labeledLine
  cases evidence with
  | none => rfl
  | some quote =>
    apply Option.ext
    intro speaker
    rw [attribute_eq_some, attribute_eq_some]
    simp only [points_congr hlabeled]

/-- the second tier decides for a speaker who is ahead -/
theorem ahead_of_leads {ls : List LabeledLine} {needle : JsString} {l : LabeledLine}
    (h : Leads (fun l : LabeledLine => tokenContainment U needle l.utterance) matchThreshold ambiguityMargin ls l) :
    Ahead U ls needle l.speaker := by
  have hmem := h.mem
  obtain ⟨others, hperm, -, hlead⟩ := h
  refine ⟨l, hmem, rfl, ?_⟩
  intro o ho hother
  rcases List.mem_cons.1 (hperm.mem_iff.1 ho) with rfl | ho
  · exact absurd rfl hother
  · exact hlead o ho

/-- **Margin.** -/
theorem unambiguous_iff (transcriptText : JsString) (evidence : Option JsString) :
    Unambiguous U transcriptText evidence ↔ ∀ quote speaker, evidence = some quote → JsString.trim quote ≠ [] →
      Unanimous (extractLabeledLines transcriptText) (JsString.trim quote) speaker →
        Ahead U (extractLabeledLines transcriptText) (JsString.trim quote) speaker := by
  constructor
  · intro h quote speaker hquote hneedle hunanimous
    subst hquote
    obtain ⟨⟨l, hl, hexact⟩, hall⟩ := hunanimous
    have hspeaker := hall l hl hexact
    have hpoints : Points U (extractLabeledLines transcriptText) (JsString.trim quote) l :=
      .inl ⟨hl, hexact, hspeaker ▸ ⟨⟨l, hl, hexact⟩, hall⟩⟩
    obtain ⟨_, hsame, hahead⟩ := h.1 speaker (attribute_eq_some.2 ⟨hneedle, l, hpoints, hspeaker⟩)
    exact Option.some.inj hsame ▸ hahead
  · intro h
    refine ⟨?_, fun shuffled hperm => attribute_perm hperm evidence⟩
    intro speaker hspeaker
    cases evidence with
    | none => cases hspeaker
    | some quote =>
      obtain ⟨hneedle, l, hpoints, rfl⟩ := attribute_eq_some.1 hspeaker
      refine ⟨quote, rfl, ?_⟩
      rcases hpoints with ⟨-, -, hunanimous⟩ | ⟨-, -, hleads⟩
      · exact h quote l.speaker rfl hneedle hunanimous
      · exact ahead_of_leads hleads

/-- Bob's word is a part of one of Alice's -/
def tokenTranscript : JsString := ofString "user: [Alice] We rotate the token on Friday.\nuser: [Bob] ok"

/-- **A part of a word wins.** What Alice said is attributed to Bob, whose utterance shares no word with the quote. -/
theorem part_of_word_wins :
    ¬ ∀ transcriptText evidence, Unambiguous asciiTables transcriptText evidence := by
  intro h
  have hspeaker : attributeSpeaker asciiTables tokenTranscript (some (ofString "we rotate the token on Friday")) =
      some (ofString "Bob") := by decide +kernel
  obtain ⟨quote, hquote, l, hl, hbob, hahead⟩ :=
    (h tokenTranscript (some (ofString "we rotate the token on Friday"))).1 _ hspeaker
  obtain rfl := Option.some.inj hquote
  have hlines : extractLabeledLines tokenTranscript =
      [⟨ofString "Alice", ofString "We rotate the token on Friday."⟩, ⟨ofString "Bob", ofString "ok"⟩] := by decide +kernel
  rw [hlines] at hl hahead
  have hl : l = ⟨ofString "Bob", ofString "ok"⟩ := by
    rcases List.mem_pair.1 hl with rfl | rfl
    · exact absurd hbob (by decide +kernel)
    · rfl
  subst hl
  have halice := hahead ⟨ofString "Alice", ofString "We rotate the token on Friday."⟩ List.mem_cons_self (by decide +kernel)
  exact absurd halice (by decide +kernel)

end AstramemLocal.Distill
