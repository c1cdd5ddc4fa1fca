/-
Dual-pass extraction on its way to the store: `dedup-merge.ts` reconciles the atoms of the two passes chunk by chunk
(`pipeline.ts`), stage 6 merges across chunks by content hash, and stage 8 admits a pass-B atom only with a verified quote
(`evidence-gate.ts`, `evidence-verify.ts`). Both merges are loops of contests (`Core/Contest`), and the gate comes after
them: a pass-A atom is lost when it is dropped for an atom that does not get in. `dual_pass_keeps` says exactly when.
-/
import AstramemLocal.Core.Contest
import AstramemLocal.Core.Text
import AstramemLocal.Store.Schema
import Mathlib.Data.Option.Basic
import Mathlib.Algebra.Ring.Nat
import Mathlib.Data.List.Infix
import Mathlib.Data.List.SplitOn

namespace AstramemLocal.Distill

open AstramemLocal.Store AstramemLocal.Core

/-! ## Atoms -/

/-- an extracted atom, as far as the merges and the gate read it -/
structure Atom where
  text : String
  importance : ℚ
  evidence : Option String := none
deriving DecidableEq, Repr

inductive AtomExtractionSource where
  | passA | passB
deriving DecidableEq, Repr

structure SourcedAtom extends Atom where
  extractionSource : Option AtomExtractionSource := none
deriving DecidableEq, Repr

/-- a chunk's answer of one pass -/
structure ExtractResult where
  chunkIndex : ℕ
  atoms : List Atom
deriving DecidableEq, Repr

/-- what the stages read from outside: the language's Unicode tables and SHA-256, the run's transcript and settings -/
structure DualPassContext where
  toLowerCase : String → String
  /-- `\p{L}` or `\p{N}` -/
  isLetterOrNumber : Char → Bool
  sha256 : String → Hash
  sourceText : Option String
  evidenceGateEnabled : Bool
  /-- what the filters of stage 8 beside the gate admit: erasure replay, durability, triage -/
  otherFilters : Atom → Bool

/-! ## `evidence-verify.ts` -/

/-- `.replace(/\s+/g, ' ')`; `sp` says that the previous character was white space -/
def collapseRuns : Bool → List Char → List Char
  | _, [] => []
  | sp, c :: cs =>
    if isSpace c then if sp then collapseRuns true cs else ' ' :: collapseRuns true cs
    else c :: collapseRuns false cs

def normalizeWhitespace (s : String) : List Char := collapseRuns false (trim s.toList)

def tokenize (normalized : List Char) : List (List Char) :=
  if normalized = [] then [] else normalized.splitOn ' '

/-- the quotient is at least 0.9 -/
def fuzzyTokenWindowMatch (quoteTokens transcriptTokens : List (List Char)) : Bool :=
  let n := quoteTokens.length
  if n = 0 ∨ transcriptTokens.length < n then false
  else
    (List.range (transcriptTokens.length - n + 1)).any fun start =>
      let window := (transcriptTokens.drop start).take n
      let overlap := (quoteTokens.dedup.map fun tok => min (quoteTokens.count tok) (window.count tok)).sum
      9 * n ≤ 10 * overlap

inductive EvidenceMatchTier where
  | exact | fuzzy | none
deriving DecidableEq, Repr

def verifyEvidenceQuoteTier (evidence transcriptText : String) : EvidenceMatchTier :=
  let normQuote := normalizeWhitespace evidence
  if normQuote = [] then .none
  else
    let normTranscript := normalizeWhitespace transcriptText
    if normQuote <:+: normTranscript then .exact
    else if fuzzyTokenWindowMatch (tokenize normQuote) (tokenize normTranscript) then .fuzzy
    else .none

/-! ## `evidence-gate.ts` -/

inductive EvidenceGateDropReason where
  | noEvidenceField | evidenceNotFound
deriving DecidableEq, Repr

structure EvidenceGateCheckResult where
  admitted : Bool
  reason : Option EvidenceGateDropReason
  matchTier : Option EvidenceMatchTier
deriving DecidableEq, Repr

def checkEvidenceGate (atom : SourcedAtom) (transcriptText : Option String) : EvidenceGateCheckResult :=
  if atom.extractionSource ≠ some .passB then ⟨true, none, none⟩
  else
    match atom.evidence.filter fun e => trim e.toList ≠ [] with
    | none => ⟨false, some .noEvidenceField, none⟩
    | some evidence =>
      match transcriptText.filter (· ≠ "") with
      | none => ⟨false, some .evidenceNotFound, none⟩
      | some text =>
        let tier := verifyEvidenceQuoteTier evidence text
        if tier = .none then ⟨false, some .evidenceNotFound, none⟩ else ⟨true, none, some tier⟩

/-- the setting of `runPipeline`: explicit, or on exactly when pass B ran on another provider -/
def evidenceGateEnabled (setting : Option Bool) (extractionPasses : ℕ) (passBProvider passAProvider : String) : Bool :=
  setting.getD (extractionPasses = 2 ∧ passBProvider ≠ passAProvider)

variable (C : DualPassContext)

/-- stage 8 hands the atom to `insertWithCreateEvent` -/
def admits (atom : SourcedAtom) : Bool :=
  C.otherFilters atom.toAtom && (!C.evidenceGateEnabled || (checkEvidenceGate atom C.sourceText).admitted)

/-! ## `dedup-merge.ts` -/

def normalizeAtomText (text : String) : List Char := (C.toLowerCase text).toList.filter C.isLetterOrNumber

/-- an entry of `kept` -/
structure KeptAtom where
  atom : SourcedAtom
  norm : List Char
  norm_eq : norm = normalizeAtomText C atom.text

def KeptAtom.of (atom : SourcedAtom) : KeptAtom C := ⟨atom, normalizeAtomText C atom.text, rfl⟩

/-- the entry the inner loop stops at: an exact duplicate, or a substring one way or the other -/
def duplicates (atom : SourcedAtom) (existing : KeptAtom C) : Bool :=
  let norm := normalizeAtomText C atom.text
  norm ≠ [] ∧ (existing.norm = norm ∨ existing.norm ≠ [] ∧ (norm <:+: existing.norm ∨ existing.norm <:+: norm))

/-- the new atom is the longer one and replaces the entry -/
def shorter (atom : SourcedAtom) (existing : KeptAtom C) : Bool :=
  existing.norm.length < (normalizeAtomText C atom.text).length

def mergeStep (kept : List (KeptAtom C)) (atom : SourcedAtom) : List (KeptAtom C) :=
  settle (duplicates C atom) (shorter C atom) kept (KeptAtom.of C atom)

/-- `merged`, without the count for the log -/
def mergeDualPassAtoms (passA passB : List SourcedAtom) : List SourcedAtom :=
  ((passA ++ passB).foldl (mergeStep C) []).map (·.atom)

/-! ## `pipeline.ts` and stage 6 -/

def tag (source : AtomExtractionSource) (atoms : List Atom) : List SourcedAtom := atoms.map fun a => ⟨a, some source⟩

/-- `specificsByChunk.get(chunkIndex)`; a later answer for the chunk replaces an earlier one -/
def specificsFor (specifics : List ExtractResult) (chunkIndex : ℕ) : List Atom :=
  ((specifics.filter (·.chunkIndex = chunkIndex)).getLast?.map (·.atoms)).getD []

/-- the tagged atoms of a chunk, pass A first -/
def chunkAtoms (specifics : List ExtractResult) (result : ExtractResult) : List SourcedAtom :=
  tag .passA result.atoms ++ tag .passB (specificsFor specifics result.chunkIndex)

/-- `allAtoms`; without a second pass the atoms of the chunks go on untagged -/
def allAtoms (extractResults : List ExtractResult) : Option (List ExtractResult) → List SourcedAtom
  | none => extractResults.flatMap fun r => r.atoms.map fun a => ⟨a, none⟩
  | some specifics =>
    extractResults.foldl (fun merged r => merged ++ mergeDualPassAtoms C (tag .passA r.atoms)
      (tag .passB (specificsFor specifics r.chunkIndex))) []

structure ReducedAtom extends SourcedAtom where
  contentHash : Hash
deriving DecidableEq, Repr

def contentHash (text : String) : Hash :=
  C.sha256 (String.ofList (collapseRuns false (C.toLowerCase (String.ofList (trim text.toList))).toList))

/-- `byHash`, in insertion order; on a collision the more important atom, the earlier one on a tie -/
def reduceStep (byHash : List ReducedAtom) (atom : SourcedAtom) : List ReducedAtom :=
  settle (fun existing => existing.contentHash = contentHash C atom.text)
    (fun existing => existing.importance < atom.importance) byHash ⟨atom, contentHash C atom.text⟩

def reduce (atoms : List SourcedAtom) : List ReducedAtom := atoms.foldl (reduceStep C) []

/-- the atoms the run stores -/
def stored (extractResults : List ExtractResult) (specifics : Option (List ExtractResult)) : List SourcedAtom :=
  ((reduce C (allAtoms C extractResults specifics)).map (·.toSourcedAtom)).filter (admits C)

/-! ## What a round drops -/

variable {C} {x y : SourcedAtom} {t : List Char} {results specifics : List ExtractResult}

/-- the atom gets in and has the text in its own -/
def Carries (C : DualPassContext) (x : SourcedAtom) (t : List Char) : Prop :=
  admits C x = true ∧ t <:+: normalizeAtomText C x.text

/-- the normalized texts of the pass-A atoms the single-pass pipeline would hand to the store -/
def PassAText (C : DualPassContext) (results : List ExtractResult) (t : List Char) : Prop :=
  ∃ r ∈ results, ∃ a ∈ r.atoms, C.otherFilters a = true ∧ normalizeAtomText C a.text = t

/-- the two atoms a round of the merge meets, and the other kept ones -/
def mergeContest (C : DualPassContext) (kept : List (KeptAtom C)) (atom : SourcedAtom) : Option (Contest SourcedAtom) :=
  (contest (duplicates C atom) (shorter C atom) kept (KeptAtom.of C atom)).map (·.map (·.atom))

/-- the two atoms a round of stage 6 meets, and the others -/
def reduceContest (C : DualPassContext) (byHash : List ReducedAtom) (atom : SourcedAtom) :
    Option (Contest SourcedAtom) :=
  (contest (fun existing => existing.contentHash = contentHash C atom.text)
    (fun existing => existing.importance < atom.importance) byHash
    ⟨atom, contentHash C atom.text⟩).map (·.map (·.toSourcedAtom))

/-- no round of a chunk's merge drops an atom that gets in and alone carries a pass-A text: the survivor does not get in,
and no other atom carries it, be it kept, still to come, or of another chunk -/
def MergeSafe (C : DualPassContext) (results specifics : List ExtractResult) : Prop :=
  ∀ before r after, before ++ r :: after = results → ∀ pre x post, pre ++ x :: post = chunkAtoms specifics r →
    ∀ c, mergeContest C (pre.foldl (mergeStep C) []) x = some c →
      ¬ c.Loses (Carries C) (PassAText C results)
        (post ++ (allAtoms C before (some specifics) ++ after.flatMap (chunkAtoms specifics)))

/-- the same of the rounds of stage 6 -/
def ReduceSafe (C : DualPassContext) (results specifics : List ExtractResult) : Prop :=
  ∀ pre x post, pre ++ x :: post = allAtoms C results (some specifics) →
    ∀ c, reduceContest C (pre.foldl (reduceStep C) []) x = some c →
      ¬ c.Loses (Carries C) (PassAText C results) post

/-- every pass-A atom the single-pass pipeline would store is in the text of an atom that is stored -/
def KeepsPassA (C : DualPassContext) (results specifics : List ExtractResult) : Prop :=
  ∀ r ∈ results, ∀ a ∈ r.atoms, C.otherFilters a = true →
    ∃ x ∈ stored C results (some specifics), normalizeAtomText C a.text <:+: normalizeAtomText C x.text

/-- a round of the merge drops the atom whose text is in the other's -/
theorem mergeContest_contains {kept : List (KeptAtom C)} {c : Contest SourcedAtom} (h : mergeContest C kept x = some c) :
    normalizeAtomText C c.dropped.text <:+: normalizeAtomText C c.survivor.text := by
  obtain ⟨k, hk, rfl⟩ := Option.map_eq_some_iff.1 h
  rcases contest_rival hk with ⟨hdup, hlen, hnew⟩ | ⟨hdup, hlen, hnew⟩
  · simp only [duplicates, shorter, decide_eq_true_eq, k.dropped.norm_eq] at hdup hlen
    simp only [Contest.map, hnew, KeptAtom.of]
    rcases hdup.2 with heq | ⟨-, hin | hin⟩
    · rw [heq] at hlen
      omega
    · have hle := hin.length_le
      omega
    · exact hin
  · simp only [duplicates, shorter, decide_eq_true_eq, decide_eq_false_iff_not, k.survivor.norm_eq] at hdup hlen
    simp only [Contest.map, hnew, KeptAtom.of]
    rcases hdup.2 with heq | ⟨-, hin | hin⟩
    · rw [heq]
    · exact hin
    · exact (hin.eq_of_length_le (by omega)) ▸ List.infix_refl _

/-- **The merge loses a text only to an atom that does not get in.** -/
theorem mergeContest_loses {kept : List (KeptAtom C)} {c : Contest SourcedAtom} {T : List Char → Prop}
    {rest : List SourcedAtom} (h : mergeContest C kept x = some c) (hlose : c.Loses (Carries C) T rest) :
    admits C c.dropped = true ∧ admits C c.survivor = false := by
  obtain ⟨t, -, ⟨hadm, ht⟩, hnone⟩ := hlose
  refine ⟨hadm, ?_⟩
  by_contra hsurv
  refine hnone c.survivor List.mem_cons_self ⟨by simpa using hsurv, ?_⟩
  exact ht.trans (mergeContest_contains h)

/-- with the gate off, or where it admits every atom of the chunks, the merges lose nothing -/
theorem mergeSafe_of_admitted (h : ∀ r ∈ results, ∀ x ∈ chunkAtoms specifics r, admits C x = true) :
    MergeSafe C results specifics := by
  rintro before r after rfl pre x post hatoms c hc hlose
  have hrej := (mergeContest_loses hc hlose).2
  obtain ⟨k, hk, rfl⟩ := Option.map_eq_some_iff.1 hc
  have hmem : k.survivor.atom ∈ chunkAtoms specifics r := by
    rw [← hatoms]
    rcases contest_survivor hk with hin | hnew
    · rcases mem_foldl_settle hin with hin | ⟨y, hy, heq⟩
      · cases hin
      · rw [heq]
        exact List.mem_append_left _ hy
    · rw [hnew]
      exact List.mem_append_right _ List.mem_cons_self
  have hadm := h r (List.mem_append_right _ List.mem_cons_self) _ hmem
  rw [Contest.map, hadm] at hrej
  cases hrej

/-- a pass-A atom passes the evidence gate -/
theorem admits_passA {a : Atom} (h : C.otherFilters a = true) : admits C ⟨a, some .passA⟩ = true := by
  simp [admits, h, checkEvidenceGate]

theorem covers_start (results specifics : List ExtractResult) :
    Covers (Carries C) (PassAText C results) (results.flatMap (chunkAtoms specifics)) := by
  rintro t ⟨r, hr, a, ha, hadm, rfl⟩
  refine ⟨⟨a, some .passA⟩, List.mem_flatMap.2 ⟨r, hr, ?_⟩, admits_passA hadm, List.infix_refl _⟩
  exact List.mem_append_left _ (List.mem_map_of_mem ha)

theorem keepsPassA_iff : KeepsPassA C results specifics ↔ Covers (Carries C) (PassAText C results)
    ((reduce C (allAtoms C results (some specifics))).map (·.toSourcedAtom)) := by
  constructor
  · rintro h t ⟨r, hr, a, ha, hadm, rfl⟩
    obtain ⟨x, hx, hin⟩ := h r hr a ha hadm
    obtain ⟨hmem, hx⟩ := List.mem_filter.1 hx
    exact ⟨x, hmem, hx, hin⟩
  · intro h r hr a ha hadm
    obtain ⟨x, hx, hxadm, hin⟩ := h _ ⟨r, hr, a, ha, hadm, rfl⟩
    exact ⟨x, List.mem_filter.2 ⟨hx, hxadm⟩, hin⟩

variable {T : List Char → Prop}

/-- stage 6, as a loop of contests -/
theorem covers_reduce (atoms : List SourcedAtom) :
    Covers (Carries C) T ((reduce C atoms).map (·.toSourcedAtom)) ↔ Covers (Carries C) T atoms ∧
      ∀ pre x post, pre ++ x :: post = atoms → ∀ c, reduceContest C (pre.foldl (reduceStep C) []) x = some c →
        ¬ c.Loses (Carries C) T post := by
  have hloop := @covers_foldl _ _ _ (Carries C) T (fun r : ReducedAtom => r.toSourcedAtom)
    (fun x => ⟨x, contentHash C x.text⟩) (fun _ => rfl)
    (fun x existing => existing.contentHash = contentHash C x.text)
    (fun x existing => existing.importance < x.importance) [] atoms []
  simp only [List.append_nil, List.map_nil, List.nil_append] at hloop
  refine hloop.trans (and_congr_right fun _ => forall_congr' fun pre => forall_congr' fun x => forall_congr' fun post =>
    imp_congr_right fun _ => ?_)
  exact (Option.forall_mem_map (p := fun c : Contest SourcedAtom => ¬ c.Loses (Carries C) T post)).symm

/-- the merge of one chunk, beside the atoms of the others -/
theorem covers_merge (passA passB rest : List SourcedAtom) :
    Covers (Carries C) T (mergeDualPassAtoms C passA passB ++ rest) ↔ Covers (Carries C) T (passA ++ passB ++ rest) ∧
      ∀ pre x post, pre ++ x :: post = passA ++ passB → ∀ c, mergeContest C (pre.foldl (mergeStep C) []) x = some c →
        ¬ c.Loses (Carries C) T (post ++ rest) := by
  have hloop := @covers_foldl _ _ _ (Carries C) T (fun k : KeptAtom C => k.atom) (KeptAtom.of C)
    (fun _ => rfl) (duplicates C) (shorter C) [] (passA ++ passB) rest
  simp only [List.map_nil, List.nil_append] at hloop
  refine hloop.trans (and_congr_right fun _ => forall_congr' fun pre => forall_congr' fun x => forall_congr' fun post =>
    imp_congr_right fun _ => ?_)
  exact (Option.forall_mem_map (p := fun c : Contest SourcedAtom => ¬ c.Loses (Carries C) T (post ++ rest))).symm

/-- the merges of all chunks -/
theorem covers_allAtoms (results specifics : List ExtractResult) :
    Covers (Carries C) T (allAtoms C results (some specifics)) ↔
      Covers (Carries C) T (results.flatMap (chunkAtoms specifics)) ∧
        ∀ before r after, before ++ r :: after = results → ∀ pre x post, pre ++ x :: post = chunkAtoms specifics r →
          ∀ c, mergeContest C (pre.foldl (mergeStep C) []) x = some c → ¬ c.Loses (Carries C) T
            (post ++ (allAtoms C before (some specifics) ++ after.flatMap (chunkAtoms specifics))) := by
  have hloop := foldl_keeps (f := fun merged (r : ExtractResult) => merged ++ mergeDualPassAtoms C (tag .passA r.atoms)
      (tag .passB (specificsFor specifics r.chunkIndex)))
    (fun merged rest => Covers (Carries C) T (merged ++ rest.flatMap (chunkAtoms specifics)))
    (fun merged r after => ∀ pre x post, pre ++ x :: post = chunkAtoms specifics r →
      ∀ c, mergeContest C (pre.foldl (mergeStep C) []) x = some c →
        ¬ c.Loses (Carries C) T (post ++ (merged ++ after.flatMap (chunkAtoms specifics))))
    (fun merged r after => ?_) [] results
  · simpa only [List.flatMap_nil, List.append_nil, List.nil_append, allAtoms] using hloop
  · have hchunk := covers_merge (C := C) (T := T) (tag .passA r.atoms)
      (tag .passB (specificsFor specifics r.chunkIndex)) (merged ++ after.flatMap (chunkAtoms specifics))
    have hout : (merged ++ mergeDualPassAtoms C (tag .passA r.atoms)
        (tag .passB (specificsFor specifics r.chunkIndex)) ++ after.flatMap (chunkAtoms specifics)).Perm
        (mergeDualPassAtoms C (tag .passA r.atoms) (tag .passB (specificsFor specifics r.chunkIndex)) ++
          (merged ++ after.flatMap (chunkAtoms specifics))) := by
      rw [← List.append_assoc]
      exact List.perm_append_comm.append_right _
    have hin : (merged ++ (r :: after).flatMap (chunkAtoms specifics)).Perm
        (chunkAtoms specifics r ++ (merged ++ after.flatMap (chunkAtoms specifics))) := by
      rw [List.flatMap_cons, ← List.append_assoc, ← List.append_assoc]
      exact List.perm_append_comm.append_right _
    rw [covers_perm hout, covers_perm hin]
    exact hchunk

theorem mem_reduce {atoms : List SourcedAtom} {r : ReducedAtom} (h : r ∈ reduce C atoms) : r.toSourcedAtom ∈ atoms := by
  rcases mem_foldl_settle h with h | ⟨x, hx, rfl⟩
  · cases h
  · exact hx

/-- then every atom the single-pass pipeline stores is in the text of one the dual pass stores -/
theorem KeepsPassA.single_pass (h : KeepsPassA C results specifics) : ∀ y ∈ stored C results none,
    ∃ x ∈ stored C results (some specifics), normalizeAtomText C y.text <:+: normalizeAtomText C x.text := by
  intro y hy
  obtain ⟨hmem, hadm⟩ := List.mem_filter.1 hy
  obtain ⟨r, hr, rfl⟩ := List.mem_map.1 hmem
  obtain ⟨res, hres, ha⟩ := List.mem_flatMap.1 (mem_reduce hr)
  obtain ⟨a, ha, heq⟩ := List.mem_map.1 ha
  simp only [admits, Bool.and_eq_true] at hadm
  rw [← heq] at hadm ⊢
  exact h res hres a ha hadm.1

/-- two providers, so the gate is on; ASCII letters -/
def mixedProviders : DualPassContext where
  toLowerCase := String.map Char.toLower
  isLetterOrNumber := Char.isAlphanum
  sha256 := String.length
  sourceText := some "Alice likes tea."
  evidenceGateEnabled := evidenceGateEnabled none 2 "ollama" "codex-subscription"
  otherFilters := fun _ => true

end AstramemLocal.Distill
