/-
`src/distill/link-atoms.ts`: links between the atoms stage 6 returns. `linkAtoms` proposes a link for every pair of atoms
under every entity they share, keeps of each pair the proposal of the highest rank in a map from pair keys, and adds the
neighbours. `linkAtoms_exact`: of atoms with distinct hashes it links exactly the pairs it should, each once.
-/
import AstramemLocal.Core.Champions
import AstramemLocal.Core.InvertedIndex
import AstramemLocal.Core.Joined
import AstramemLocal.Distill.DualPass
import AstramemLocal.Distill.Reindex
import Mathlib.Algebra.Order.Ring.Rat
import Mathlib.Data.List.FinRange
import Mathlib.Data.Sym.Sym2

namespace AstramemLocal.Distill.LinkAtoms

open AstramemLocal.Store AstramemLocal.Core

/-! ## Types -/

/-- `ReducedAtom` with the fields the linking reads -/
structure LinkableAtom extends ReducedAtom where
  type : MemoryType
  entities : Option (List EntityInput) := none
deriving DecidableEq, Repr

/-- `Exclude<AtomLinkType, 'session_proximity'>` -/
inductive EntityLinkType where
  | sharedEntity | eventParticipant | possessionFamily
deriving DecidableEq, Repr

def EntityLinkType.toAtomLinkType : EntityLinkType → AtomLinkType
  | .sharedEntity => .sharedEntity
  | .eventParticipant => .eventParticipant
  | .possessionFamily => .possessionFamily

/-- `EntityCandidate` -/
structure EntityCandidate where
  linkType : EntityLinkType
  evidence : String
  confidence : ℚ
deriving DecidableEq, Repr

/-- the language's Unicode tables -/
structure LinkTables where
  toLowerCase : String → String
  /-- what `[\p{L}]` matches under the flags `iu` -/
  isLetter : Char → Bool

/-! ## Constants -/

def genericEntityMaxOccurrences : ℕ := 12
def sessionProximityWindow : ℕ := 1
def defaultSharedEntityConfidence : ℚ := 1 / 2
def defaultSessionProximityConfidence : ℚ := 2 / 5
def defaultEventParticipantConfidence : ℚ := 11 / 20
def defaultPossessionFamilyConfidence : ℚ := 13 / 20

/-- `ENTITY_LINK_TYPE_RANK` -/
def EntityLinkType.rank : EntityLinkType → ℕ
  | .sharedEntity => 0
  | .eventParticipant => 1
  | .possessionFamily => 2

section
variable (T : LinkTables)

/-! ## `FAMILY_RELATION_RE` -/

def familyRelationNouns : List String :=
  ["mother", "father", "mom", "dad", "daughter", "son", "sister", "brother", "wife", "husband", "spouse", "partner",
    "parent", "child", "grandmother", "grandfather", "grandma", "grandpa", "aunt", "uncle", "cousin", "niece", "nephew",
    "fiancé", "fiancée", "fiance", "fiancee"]

/-- `\w` under `iu`: the long s and the kelvin sign fold onto letters -/
def isFoldedWordChar (c : Char) : Bool := isWordChar c || c.toNat = 0x17f || c.toNat = 0x212a

/-- a letter of the pattern, under `iu` -/
def foldsTo (pattern c : Char) : Bool :=
  c.toLower = pattern || (pattern = 's' && c.toNat = 0x17f) || (pattern.toNat = 0xe9 && c.toNat = 0xc9)

/-- `\b` -/
def foldedWordBoundary (before after : Option Char) : Bool := before.any isFoldedWordChar != after.any isFoldedWordChar

/-- a noun of the list and `\b` -/
def nounHere (before : Char) : List Char → List Char → Bool
  | [], text => foldedWordBoundary (some before) text.head?
  | _ :: _, [] => false
  | p :: noun, c :: text => foldsTo p c && nounHere c noun text

/-- `\s+(mother|father|..)\b` -/
def relationHere : List Char → Bool
  | [] => false
  | c :: text => isSpace c && (familyRelationNouns.any (fun noun => nounHere c noun.toList text) || relationHere text)

def apostrophe : Char := Char.ofNat 0x27

/-- `[\p{L}'-]*'s` and what follows -/
def possessiveHere : List Char → Bool
  | [] => false
  | c :: text =>
    (c = apostrophe && match text with
      | [] => false
      | s :: text => foldsTo 's' s && relationHere text) ||
    ((T.isLetter c || c = apostrophe || c = '-') && possessiveHere text)

def hasFamilyRelationLanguage (text : String) : Bool :=
  occurs (fun before text =>
    match text with
    | [] => false
    | c :: rest => foldedWordBoundary before (some c) && T.isLetter c && possessiveHere T rest) none text.toList

/-! ## `entity/normalize.ts` -/

def normalizeEntityName (raw : String) : String :=
  String.ofList (collapseRuns false (T.toLowerCase (String.ofList (trim raw.toList))).toList)

def normalizedNames (atom : LinkableAtom) : List String := (atom.entities.getD []).map fun e => normalizeEntityName T e.name

/-- `if (!name) continue` -/
def entityNames (atom : LinkableAtom) : List String := (normalizedNames T atom).filter (· ≠ "")

/-! ## linkAtoms -/

def pairKey (i j : ℕ) : String := if i < j then i.repr ++ "|" ++ j.repr else j.repr ++ "|" ++ i.repr

/-- `key.split('|')` and `Number`, of decimal digits -/
def splitKey (key : String) : Option (ℕ × ℕ) :=
  match key.toList.splitOn '|' with
  | iStr :: jStr :: _ => some (Nat.ofDigitChars 10 iStr 0, Nat.ofDigitChars 10 jStr 0)
  | _ => none

/-- the entries of `occurrencesByEntity`, as the loop makes them -/
def entityEntries (atoms : List LinkableAtom) : List (String × Fin atoms.length) :=
  (List.finRange atoms.length).flatMap fun i => (entityNames T atoms[i]).map fun name => (name, i)

def occurrencesByEntity (atoms : List LinkableAtom) : OwnMap String (List (Fin atoms.length)) :=
  invertedIndex (entityEntries T atoms)

def entityCandidate (entityName : String) (atomI atomJ : LinkableAtom) : EntityCandidate :=
  if hasFamilyRelationLanguage T atomI.text || hasFamilyRelationLanguage T atomJ.text then
    ⟨.possessionFamily, entityName, defaultPossessionFamilyConfidence⟩
  else if atomI.type = .event ∨ atomJ.type = .event then ⟨.eventParticipant, entityName, defaultEventParticipantConfidence⟩
  else ⟨.sharedEntity, entityName, defaultSharedEntityConfidence⟩

def notGeneric (occurrences : ℕ) : Bool := ¬ (occurrences < 2 ∨ genericEntityMaxOccurrences < occurrences)

/-- the rounds of the inner loop: the key and the candidate of each -/
def entityRounds (atoms : List LinkableAtom) : List (String × EntityCandidate) :=
  (sharedPairs notGeneric (occurrencesByEntity T atoms)).map fun (entityName, i, j) =>
    (pairKey i j, entityCandidate T entityName atoms[i] atoms[j])

/-- `if (!existing || rank[linkType] > rank[existing.linkType]) bestEntityCandidate.set(key, ..)` -/
def setIfBetter (best : List (String × EntityCandidate)) (round : String × EntityCandidate) :
    List (String × EntityCandidate) :=
  settle (fun existing => existing.1 = round.1) (fun existing => existing.2.linkType.rank < round.2.linkType.rank) best round

/-- the map, in insertion order -/
def bestEntityCandidate (atoms : List LinkableAtom) : List (String × EntityCandidate) :=
  (entityRounds T atoms).foldl setIfBetter []

/-- an entry of the map as a candidate; `none` is the TypeError of an index out of the list -/
def entityLink (atoms : List LinkableAtom) (entry : String × EntityCandidate) : Option AtomLinkCandidate := do
  let (i, j) ← splitKey entry.1
  let atomI ← atoms[i]?
  let atomJ ← atoms[j]?
  some ⟨atomI.contentHash, atomJ.contentHash, entry.2.linkType.toAtomLinkType, entry.2.evidence, entry.2.confidence⟩

def proximityLinks (atoms : List LinkableAtom) : List AtomLinkCandidate :=
  (List.finRange atoms.length).flatMap fun i =>
    ((List.range sessionProximityWindow).map fun offset => i.val + (offset + 1)).filterMap fun j =>
      atoms[j]?.map fun atomJ => ⟨atoms[i].contentHash, atomJ.contentHash, .sessionProximity,
        "adjacent in extraction order", defaultSessionProximityConfidence⟩

def linkAtoms (atoms : List LinkableAtom) : Option (List AtomLinkCandidate) :=
  if atoms.length < 2 then some []
  else do
    let candidates ← (bestEntityCandidate T atoms).mapM (entityLink atoms)
    some (candidates ++ proximityLinks atoms)

/-! ## What it is for -/

/-- the pair of contents a candidate links -/
def pair (l : AtomLinkCandidate) : Sym2 Hash := s(l.contentHashA, l.contentHashB)

def ByEntity (l : AtomLinkCandidate) : Prop := l.linkType ≠ .sessionProximity

instance (l : AtomLinkCandidate) : Decidable (ByEntity l) := inferInstanceAs (Decidable (_ ≠ _))

variable (names : LinkableAtom → List String)

/-- in how many atoms a name occurs -/
def occurrences (atoms : List LinkableAtom) (name : String) : ℕ := atoms.countP fun a => name ∈ names a

def ShareEntity (atoms : List LinkableAtom) (a b : LinkableAtom) : Prop :=
  ∃ name ∈ names a, name ∈ names b ∧ 2 ≤ occurrences names atoms name ∧
    occurrences names atoms name ≤ genericEntityMaxOccurrences

/-- a type applies to a pair that shares an entity -/
def Applies (a b : LinkableAtom) : EntityLinkType → Prop
  | .sharedEntity => True
  | .eventParticipant => a.type = .event ∨ b.type = .event
  | .possessionFamily => hasFamilyRelationLanguage T a.text = true ∨ hasFamilyRelationLanguage T b.text = true

/-- the links are those the atoms call for, under what counts as the names of an atom -/
structure ExactLinks (atoms : List LinkableAtom) (links : List AtomLinkCandidate) : Prop where
  entity_iff : ∀ i j : Fin atoms.length, i ≠ j →
    ((∃ l ∈ links, ByEntity l ∧ pair l = s(atoms[i].contentHash, atoms[j].contentHash)) ↔
      ShareEntity names atoms atoms[i] atoms[j])
  proximity_iff : ∀ i j : Fin atoms.length, i ≠ j →
    ((∃ l ∈ links, l.linkType = .sessionProximity ∧ pair l = s(atoms[i].contentHash, atoms[j].contentHash)) ↔
      i.val + 1 = j.val ∨ j.val + 1 = i.val)
  /-- no pair has two links by entity, nor two by proximity -/
  once : (links.map fun l => (pair l, decide (ByEntity l))).Nodup
  ends : ∀ l ∈ links, ∃ i j : Fin atoms.length, i ≠ j ∧ pair l = s(atoms[i].contentHash, atoms[j].contentHash)
  highest : ∀ l ∈ links, ∀ t : EntityLinkType, l.linkType = t.toAtomLinkType → ∀ i j : Fin atoms.length,
    pair l = s(atoms[i].contentHash, atoms[j].contentHash) →
      Applies T atoms[i] atoms[j] t ∧ ∀ u, Applies T atoms[i] atoms[j] u → u.rank ≤ t.rank

end

/-! ## Pair keys -/

theorem pairKey_comm (i j : ℕ) : pairKey i j = pairKey j i := by
  unfold pairKey
  rcases lt_trichotomy i j with h | rfl | h
  · rw [if_pos h, if_neg (by omega)]
  · rfl
  · rw [if_neg (by omega), if_pos h]

theorem bar_notMem_repr (n : ℕ) : '|' ∉ n.repr.toList := fun h => absurd (natText_chars h) (by decide)

/-- the key gives the indices back -/
theorem splitKey_pairKey {i j : ℕ} (h : i < j) : splitKey (pairKey i j) = some (i, j) := by
  have hchars : (pairKey i j).toList = i.repr.toList ++ '|' :: j.repr.toList := by
    rw [pairKey, if_pos h]
    simp
  have hparts : (pairKey i j).toList.splitOn '|' = [i.repr.toList, j.repr.toList] := by
    rw [hchars, List.splitOn_append_cons_self_of_not_mem (bar_notMem_repr i),
      List.splitOn_eq_singleton (bar_notMem_repr j)]
  rw [splitKey, hparts]
  simp only [Nat.toList_repr, Nat.ofDigitChars_ten_toDigits]

/-! ## Types of links -/

theorem EntityLinkType.toAtomLinkType_ne (t : EntityLinkType) : t.toAtomLinkType ≠ .sessionProximity := by
  cases t <;> decide

theorem EntityLinkType.toAtomLinkType_inj {t u : EntityLinkType} (h : t.toAtomLinkType = u.toAtomLinkType) : t = u := by
  cases t <;> cases u <;> first | rfl | cases h

/-! ## Rounds -/

variable {T : LinkTables} {atoms : List LinkableAtom}

theorem entityCandidate_comm (name : String) (a b : LinkableAtom) :
    entityCandidate T name a b = entityCandidate T name b a := by
  unfold entityCandidate
  simp only [Bool.or_comm (hasFamilyRelationLanguage T a.text), or_comm (a := a.type = MemoryType.event)]

/-- the type of a round is the highest that applies -/
theorem entityCandidate_highest (name : String) (a b : LinkableAtom) :
    Applies T a b (entityCandidate T name a b).linkType ∧
      ∀ u, Applies T a b u → u.rank ≤ (entityCandidate T name a b).linkType.rank := by
  unfold entityCandidate
  split_ifs with hfamily hevent
  · refine ⟨by simpa [Applies] using hfamily, fun u _ => ?_⟩
    cases u <;> simp [EntityLinkType.rank]
  · refine ⟨hevent, fun u hu => ?_⟩
    cases u with
    | sharedEntity => simp [EntityLinkType.rank]
    | eventParticipant => exact le_rfl
    | possessionFamily => exact absurd (by simpa [Applies] using hu) hfamily
  · refine ⟨trivial, fun u hu => ?_⟩
    cases u with
    | sharedEntity => exact le_rfl
    | eventParticipant => exact absurd hu hevent
    | possessionFamily => exact absurd (by simpa [Applies] using hu) hfamily

theorem mem_entityEntries {name : String} {i : Fin atoms.length} :
    (name, i) ∈ entityEntries T atoms ↔ name ∈ entityNames T atoms[i] := by
  simp [entityEntries]

/-- the index counts atoms, however often an atom repeats a name -/
theorem length_holders (name : String) :
    (holders (entityEntries T atoms) name).length = occurrences (entityNames T) atoms name := by
  have hperm : (holders (entityEntries T atoms) name).Perm
      ((List.finRange atoms.length).filter fun i => name ∈ entityNames T atoms[i]) := by
    rw [List.perm_ext_iff_of_nodup nodup_holders ((List.nodup_finRange _).filter _)]
    intro i
    rw [mem_holders, mem_entityEntries]
    simp
  calc (holders (entityEntries T atoms) name).length
      = (List.finRange atoms.length).countP fun i => name ∈ entityNames T atoms[i] := by
        rw [hperm.length_eq, List.countP_eq_length_filter]
    _ = ((List.finRange atoms.length).map fun i => atoms[i]).countP fun a => name ∈ entityNames T a := by
        rw [List.countP_map]
        rfl
    _ = occurrences (entityNames T) atoms name := by
        rw [occurrences]
        congr 1
        exact List.map_getElem_finRange atoms

theorem notGeneric_iff {n : ℕ} : notGeneric n = true ↔ 2 ≤ n ∧ n ≤ genericEntityMaxOccurrences := by
  rw [notGeneric, decide_eq_true_eq, not_or, not_lt, not_lt]

theorem entityRounds_cases {round : String × EntityCandidate} (h : round ∈ entityRounds T atoms) :
    ∃ name, ∃ i j : Fin atoms.length, i < j ∧ ShareEntity (entityNames T) atoms atoms[i] atoms[j] ∧
      round = (pairKey i j, entityCandidate T name atoms[i] atoms[j]) := by
  obtain ⟨⟨name, i, j⟩, hshared, rfl⟩ := List.mem_map.1 h
  obtain ⟨hne, hi, hj, hadmitted⟩ := shares_of_mem hshared
  rw [mem_entityEntries] at hi hj
  rw [length_holders, notGeneric_iff] at hadmitted
  rcases lt_or_gt_of_ne hne with hij | hij
  · exact ⟨name, i, j, hij, ⟨name, hi, hj, hadmitted⟩, rfl⟩
  · refine ⟨name, j, i, hij, ⟨name, hj, hi, hadmitted⟩, ?_⟩
    rw [pairKey_comm j.val, entityCandidate_comm name atoms[j]]

theorem exists_round {i j : Fin atoms.length} (hij : i < j) (h : ShareEntity (entityNames T) atoms atoms[i] atoms[j]) :
    ∃ candidate, (pairKey i j, candidate) ∈ entityRounds T atoms := by
  obtain ⟨name, hi, hj, hadmitted⟩ := h
  rw [← length_holders, ← notGeneric_iff] at hadmitted
  rcases exists_mem_sharedPairs hij.ne (mem_entityEntries.2 hi) (mem_entityEntries.2 hj) hadmitted with hmem | hmem
  · exact ⟨_, List.mem_map.2 ⟨_, hmem, rfl⟩⟩
  · refine ⟨entityCandidate T name atoms[j] atoms[i], ?_⟩
    rw [pairKey_comm i.val]
    exact List.mem_map.2 ⟨_, hmem, rfl⟩

/-! ## The map -/

/-- the candidate a pair of indices with a candidate stands for -/
def pairLink (i j : Fin atoms.length) (candidate : EntityCandidate) : AtomLinkCandidate :=
  ⟨atoms[i].contentHash, atoms[j].contentHash, candidate.linkType.toAtomLinkType, candidate.evidence, candidate.confidence⟩

theorem pairLink_byEntity {i j : Fin atoms.length} {candidate : EntityCandidate} : ByEntity (pairLink i j candidate) :=
  candidate.linkType.toAtomLinkType_ne

theorem entityLink_pairKey {i j : Fin atoms.length} (hij : i < j) (candidate : EntityCandidate) :
    entityLink atoms (pairKey i j, candidate) = some (pairLink i j candidate) := by
  simp [entityLink, splitKey_pairKey hij, pairLink]

/-- an entry of the map stands for a link between two atoms that share an entity -/
theorem best_cases {entry : String × EntityCandidate} (h : entry ∈ bestEntityCandidate T atoms) :
    ∃ name, ∃ i j : Fin atoms.length, i < j ∧ ShareEntity (entityNames T) atoms atoms[i] atoms[j] ∧
      entry.1 = pairKey i j ∧ entityLink atoms entry = some (pairLink i j (entityCandidate T name atoms[i] atoms[j])) := by
  obtain ⟨name, i, j, hij, hshare, rfl⟩ := entityRounds_cases (champions_best h).1
  exact ⟨name, i, j, hij, hshare, rfl, entityLink_pairKey hij _⟩

/-! ## Links by entity -/

theorem mapM_eq_some {α β : Type} {f : α → Option β} {l : List α} {r : List β} :
    l.mapM f = some r ↔ l.map f = r.map some := by
  induction l generalizing r with
  | nil => cases r <;> simp
  | cons a l ih =>
    simp only [List.mapM_cons, Option.bind_eq_bind, Option.bind_eq_some_iff, Option.pure_def, Option.some.injEq]
    constructor
    · intro h
      obtain ⟨b, hb, bs, hbs, rfl⟩ := h
      rw [List.map_cons, List.map_cons, hb, ih.1 hbs]
    · intro h
      cases r with
      | nil => cases h
      | cons b r =>
        obtain ⟨hb, hr⟩ := List.cons.inj h
        exact ⟨b, hb, r, ih.2 hr, rfl⟩

/-- no index is out of the list -/
theorem exists_entityLinks : ∃ links, (bestEntityCandidate T atoms).mapM (entityLink atoms) = some links := by
  have hall : ∀ entry ∈ bestEntityCandidate T atoms, ∃ l, entityLink atoms entry = some l := by
    intro entry hentry
    obtain ⟨name, i, j, -, -, -, hlink⟩ := best_cases hentry
    exact ⟨_, hlink⟩
  simp only [mapM_eq_some]
  generalize bestEntityCandidate T atoms = best at hall
  induction best with
  | nil => exact ⟨[], rfl⟩
  | cons entry best ih =>
    obtain ⟨l, hl⟩ := hall entry List.mem_cons_self
    obtain ⟨links, hlinks⟩ := ih fun e he => hall e (List.mem_cons_of_mem _ he)
    exact ⟨l :: links, by rw [List.map_cons, List.map_cons, hl, hlinks]⟩

section
variable {links : List AtomLinkCandidate} {l : AtomLinkCandidate}

theorem mem_entityLinks (h : (bestEntityCandidate T atoms).mapM (entityLink atoms) = some links) :
    l ∈ links ↔ ∃ entry ∈ bestEntityCandidate T atoms, entityLink atoms entry = some l := by
  rw [mapM_eq_some] at h
  calc l ∈ links ↔ some l ∈ links.map some := by simp
    _ ↔ some l ∈ (bestEntityCandidate T atoms).map (entityLink atoms) := by rw [h]
    _ ↔ ∃ entry ∈ bestEntityCandidate T atoms, entityLink atoms entry = some l := List.mem_map

theorem entityLinks_cases (h : (bestEntityCandidate T atoms).mapM (entityLink atoms) = some links) (hl : l ∈ links) :
    ∃ name, ∃ i j : Fin atoms.length, i < j ∧ ShareEntity (entityNames T) atoms atoms[i] atoms[j] ∧
      l = pairLink i j (entityCandidate T name atoms[i] atoms[j]) := by
  obtain ⟨entry, hentry, heq⟩ := (mem_entityLinks h).1 hl
  obtain ⟨name, i, j, hij, hshare, -, hlink⟩ := best_cases hentry
  exact ⟨name, i, j, hij, hshare, Option.some.inj (heq.symm.trans hlink)⟩

/-- two atoms that share an entity are linked -/
theorem exists_entityLink (h : (bestEntityCandidate T atoms).mapM (entityLink atoms) = some links)
    {i j : Fin atoms.length} (hij : i < j) (hshare : ShareEntity (entityNames T) atoms atoms[i] atoms[j]) :
    ∃ candidate, pairLink i j candidate ∈ links := by
  obtain ⟨candidate, hround⟩ := exists_round hij hshare
  have hkey : pairKey i j ∈ (bestEntityCandidate T atoms).map Prod.fst :=
    mem_champions_keys.2 (List.mem_map_of_mem (f := Prod.fst) hround)
  obtain ⟨⟨key, best⟩, hbest, rfl⟩ := List.mem_map.1 hkey
  exact ⟨best, (mem_entityLinks h).2 ⟨_, hbest, entityLink_pairKey hij best⟩⟩

/-! ## Pairs -/

/-- of atoms with distinct hashes the hashes of a pair tell the pair -/
theorem pair_eq_iff (hdistinct : (atoms.map (·.contentHash)).Nodup) {i j i' j' : Fin atoms.length} :
    s(atoms[i].contentHash, atoms[j].contentHash) = s(atoms[i'].contentHash, atoms[j'].contentHash) ↔
      (i = i' ∧ j = j') ∨ (i = j' ∧ j = i') := by
  have hinj : ∀ a b : Fin atoms.length, atoms[a].contentHash = atoms[b].contentHash ↔ a = b := by
    intro a b
    constructor
    · intro heq
      have hlength : (atoms.map (·.contentHash)).length = atoms.length := List.length_map _
      have ha : a.val < (atoms.map (·.contentHash)).length := by omega
      have hb : b.val < (atoms.map (·.contentHash)).length := by omega
      have hget : (atoms.map (·.contentHash))[a.val] = (atoms.map (·.contentHash))[b.val] := by
        simpa using heq
      exact Fin.ext ((List.Nodup.getElem_inj_iff hdistinct).1 hget)
    · intro heq
      rw [heq]
  rw [Sym2.eq_iff, hinj, hinj, hinj, hinj]

theorem pair_inj (hdistinct : (atoms.map (·.contentHash)).Nodup) {i j i' j' : Fin atoms.length} (hij : i < j)
    (hij' : i' < j')
    (h : s(atoms[i].contentHash, atoms[j].contentHash) = s(atoms[i'].contentHash, atoms[j'].contentHash)) :
    i = i' ∧ j = j' := by
  rcases (pair_eq_iff hdistinct).1 h with heq | ⟨rfl, rfl⟩
  · exact heq
  · exact absurd hij hij'.asymm

theorem entityLinks_once (hdistinct : (atoms.map (·.contentHash)).Nodup)
    (h : (bestEntityCandidate T atoms).mapM (entityLink atoms) = some links) : (links.map pair).Nodup := by
  have hkeys : (bestEntityCandidate T atoms).Pairwise fun e f => e.1 ≠ f.1 := List.pairwise_map.1 champions_nodup
  have hpairs : ((bestEntityCandidate T atoms).map (entityLink atoms)).Pairwise fun x y =>
      ∀ l ∈ x, ∀ m ∈ y, pair l ≠ pair m := by
    apply List.pairwise_map.2
    apply hkeys.imp_of_mem
    intro e f he hf hne l hl m hm heq
    obtain ⟨_, i, j, hij, -, hkey, hlink⟩ := best_cases he
    obtain ⟨_, i', j', hij', -, hkey', hlink'⟩ := best_cases hf
    obtain rfl := Option.some.inj (hlink.symm.trans hl)
    obtain rfl := Option.some.inj (hlink'.symm.trans hm)
    obtain ⟨rfl, rfl⟩ := pair_inj hdistinct hij hij' heq
    exact hne (hkey.trans hkey'.symm)
  rw [mapM_eq_some.1 h] at hpairs
  apply List.pairwise_map.2
  apply (List.pairwise_map.1 hpairs).imp
  intro l m hne
  exact hne l rfl m rfl

end

/-! ## Neighbours -/

def adjacentLink (i j : Fin atoms.length) : AtomLinkCandidate :=
  ⟨atoms[i].contentHash, atoms[j].contentHash, .sessionProximity, "adjacent in extraction order",
    defaultSessionProximityConfidence⟩

theorem adjacentLink_not_byEntity {i j : Fin atoms.length} : ¬ ByEntity (adjacentLink i j) := fun h => h rfl

theorem proximityLinks_eq : proximityLinks atoms = (List.finRange atoms.length).filterMap fun i =>
    if h : i.val + 1 < atoms.length then some (adjacentLink i ⟨i.val + 1, h⟩) else none := by
  unfold proximityLinks
  rw [List.filterMap_eq_flatMap_toList]
  congr 1
  funext i
  by_cases h : i.val + 1 < atoms.length
  · simp [sessionProximityWindow, h, adjacentLink]
  · simp [sessionProximityWindow, h]

theorem mem_proximityLinks {l : AtomLinkCandidate} :
    l ∈ proximityLinks atoms ↔ ∃ i j : Fin atoms.length, i.val + 1 = j.val ∧ l = adjacentLink i j := by
  rw [proximityLinks_eq, List.mem_filterMap]
  constructor
  · intro h
    obtain ⟨i, -, heq⟩ := h
    split at heq
    next hlt => exact ⟨i, ⟨i.val + 1, hlt⟩, rfl, (Option.some.inj heq).symm⟩
    next => cases heq
  · intro h
    obtain ⟨i, ⟨j, hj⟩, rfl, rfl⟩ := h
    exact ⟨i, List.mem_finRange i, dif_pos hj⟩

theorem proximityLinks_once (hdistinct : (atoms.map (·.contentHash)).Nodup) :
    ((proximityLinks atoms).map pair).Nodup := by
  rw [proximityLinks_eq]
  apply List.pairwise_map.2
  apply List.pairwise_filterMap.2
  apply (List.nodup_finRange atoms.length).imp
  intro i j hne l hl m hm heq
  split at hl
  next hi =>
    split at hm
    next hj =>
      obtain rfl := Option.some.inj hl
      obtain rfl := Option.some.inj hm
      have hlt : ∀ (k : Fin atoms.length) (h : k.val + 1 < atoms.length), k < ⟨k.val + 1, h⟩ :=
        fun k _ => Fin.lt_def.2 (Nat.lt_succ_self k.val)
      exact hne (pair_inj hdistinct (hlt i hi) (hlt j hj) heq).1
    next => cases hm
  next => cases hl

/-! ## Exactness -/

theorem ShareEntity.symm {names : LinkableAtom → List String} {a b : LinkableAtom} (h : ShareEntity names atoms a b) :
    ShareEntity names atoms b a := by
  obtain ⟨name, ha, hb, hcount⟩ := h
  exact ⟨name, hb, ha, hcount⟩

theorem Applies.symm {a b : LinkableAtom} {t : EntityLinkType} (h : Applies T a b t) : Applies T b a t := by
  cases t with
  | sharedEntity => trivial
  | eventParticipant => exact Or.symm h
  | possessionFamily => exact Or.symm h

/-- a link is one of the two kinds -/
theorem links_cases {links : List AtomLinkCandidate} (h : (bestEntityCandidate T atoms).mapM (entityLink atoms) = some links)
    {l : AtomLinkCandidate} (hl : l ∈ links ++ proximityLinks atoms) :
    (∃ name, ∃ i j : Fin atoms.length, i < j ∧ ShareEntity (entityNames T) atoms atoms[i] atoms[j] ∧
      l = pairLink i j (entityCandidate T name atoms[i] atoms[j])) ∨
    ∃ i j : Fin atoms.length, i.val + 1 = j.val ∧ l = adjacentLink i j :=
  (List.mem_append.1 hl).imp (entityLinks_cases h) mem_proximityLinks.1

theorem exactLinks_append (hdistinct : (atoms.map (·.contentHash)).Nodup) {links : List AtomLinkCandidate}
    (h : (bestEntityCandidate T atoms).mapM (entityLink atoms) = some links) :
    ExactLinks T (entityNames T) atoms (links ++ proximityLinks atoms) where
  entity_iff i j hne := by
    constructor
    · intro hlink
      obtain ⟨l, hl, hentity, hpair⟩ := hlink
      rcases links_cases h hl with ⟨_, a, b, -, hshare, rfl⟩ | ⟨a, b, -, rfl⟩
      · rcases (pair_eq_iff hdistinct).1 hpair with ⟨rfl, rfl⟩ | ⟨rfl, rfl⟩
        · exact hshare
        · exact hshare.symm
      · exact absurd hentity adjacentLink_not_byEntity
    · intro hshare
      rcases lt_or_gt_of_ne hne with hij | hij
      · obtain ⟨candidate, hmem⟩ := exists_entityLink h hij hshare
        exact ⟨_, List.mem_append_left _ hmem, pairLink_byEntity, rfl⟩
      · obtain ⟨candidate, hmem⟩ := exists_entityLink h hij hshare.symm
        exact ⟨_, List.mem_append_left _ hmem, pairLink_byEntity, Sym2.eq_swap⟩
  proximity_iff i j _ := by
    constructor
    · intro hlink
      obtain ⟨l, hl, htype, hpair⟩ := hlink
      rcases links_cases h hl with ⟨_, a, b, -, -, rfl⟩ | ⟨a, b, hnext, rfl⟩
      · exact absurd htype pairLink_byEntity
      · rcases (pair_eq_iff hdistinct).1 hpair with ⟨rfl, rfl⟩ | ⟨rfl, rfl⟩
        · exact .inl hnext
        · exact .inr hnext
    · intro hnext
      rcases hnext with hnext | hnext
      · exact ⟨_, List.mem_append_right _ (mem_proximityLinks.2 ⟨i, j, hnext, rfl⟩), rfl, rfl⟩
      · exact ⟨_, List.mem_append_right _ (mem_proximityLinks.2 ⟨j, i, hnext, rfl⟩), rfl, Sym2.eq_swap⟩
  once := by
    have hkind : ∀ l ∈ links, ByEntity l := by
      intro l hl
      obtain ⟨_, a, b, -, -, rfl⟩ := entityLinks_cases h hl
      exact pairLink_byEntity
    have hkind' : ∀ l ∈ proximityLinks atoms, ¬ ByEntity l := by
      intro l hl
      obtain ⟨a, b, -, rfl⟩ := mem_proximityLinks.1 hl
      exact adjacentLink_not_byEntity
    have honce : ∀ {ls : List AtomLinkCandidate}, (ls.map pair).Nodup →
        (ls.map fun l => (pair l, decide (ByEntity l))).Nodup := by
      intro ls hls
      apply List.Nodup.of_map Prod.fst
      rw [List.map_map]
      exact hls
    rw [List.map_append, List.nodup_append]
    refine ⟨honce (entityLinks_once hdistinct h), honce (proximityLinks_once hdistinct), ?_⟩
    intro x hx y hy heq
    obtain ⟨l, hl, rfl⟩ := List.mem_map.1 hx
    obtain ⟨m, hm, rfl⟩ := List.mem_map.1 hy
    exact hkind' m hm ((decide_eq_decide.1 (Prod.mk.inj heq).2).1 (hkind l hl))
  ends l hl := by
    rcases links_cases h hl with ⟨_, a, b, hlt, -, rfl⟩ | ⟨a, b, hnext, rfl⟩
    · exact ⟨a, b, hlt.ne, rfl⟩
    · refine ⟨a, b, ?_, rfl⟩
      rintro rfl
      omega
  highest l hl t htype i j hpair := by
    rcases links_cases h hl with ⟨name, a, b, -, -, rfl⟩ | ⟨a, b, -, rfl⟩
    · obtain rfl := EntityLinkType.toAtomLinkType_inj htype
      obtain ⟨happlies, hbest⟩ := entityCandidate_highest (T := T) name atoms[a] atoms[b]
      rcases (pair_eq_iff hdistinct).1 hpair with ⟨rfl, rfl⟩ | ⟨rfl, rfl⟩
      · exact ⟨happlies, hbest⟩
      · exact ⟨happlies.symm, fun u hu => hbest u hu.symm⟩
    · exact absurd htype.symm t.toAtomLinkType_ne

/-- **Links of a batch.** Of atoms with distinct hashes `linkAtoms` links exactly the pairs that share an entity, once and
by the highest type that applies, and exactly the neighbours. -/
theorem linkAtoms_exactLinks (hdistinct : (atoms.map (·.contentHash)).Nodup) :
    ∃ links, linkAtoms T atoms = some links ∧ ExactLinks T (entityNames T) atoms links := by
  unfold linkAtoms
  split
  next hshort =>
    have hone : ∀ i j : Fin atoms.length, i = j := fun i j => Fin.ext (by omega)
    refine ⟨[], rfl, ⟨?_, ?_, List.nodup_nil, fun l hl => absurd hl List.not_mem_nil,
      fun l hl => absurd hl List.not_mem_nil⟩⟩
    · exact fun i j hne => absurd (hone i j) hne
    · exact fun i j hne => absurd (hone i j) hne
  next =>
    obtain ⟨links, hlinks⟩ : ∃ links, (bestEntityCandidate T atoms).mapM (entityLink atoms) = some links :=
      exists_entityLinks
    exact ⟨links ++ proximityLinks atoms, by rw [hlinks]; rfl, exactLinks_append hdistinct hlinks⟩

end AstramemLocal.Distill.LinkAtoms
