/-
The links between atoms on their way into `memory_links`. A stage-8 call resolves the candidates of its batch through the
memory ids its inserts answered with, and `MemoryLinkRepo.insert` orders the two ends and looks for the row first. `Step` is
what any number of such calls, each a row at a time, and the other requests do in any order.

- `Reachable.simple`: no row links a memory with itself, and no pair has two rows of one type.
- `embedBatch_run`: a whole call of stage 8 is such a run. `persistLinks_mem`: behind it a candidate between two memories,
  whose write did not fail, has its row.
- `links_complete_and_simple`: that, and what `linkAtoms` proposes.
-/
import AstramemLocal.Distill.LinkAtoms

namespace AstramemLocal.Distill.LinkAtoms

open AstramemLocal.Store AstramemLocal.Core

/-! ## Runs -/

/-- a call of stage 8 at work -/
structure IndexJob where
  /-- the survivors it has not written yet -/
  survivors : List BatchAtom
  /-- `ctx.atomLinks` -/
  atomLinks : List AtomLinkCandidate
  memoryIdByContentHash : List (Hash × AtomId) := []
deriving DecidableEq, Repr

structure LinkDb extends IndexDb where
  jobs : List IndexJob
deriving DecidableEq, Repr

/-- the loop over the candidates; one whose insert throws is skipped -/
def persistLinks (throws : AtomLinkCandidate → Bool) (ids : List (Hash × AtomId)) (candidates : List AtomLinkCandidate)
    (links : List MemoryLink) : List MemoryLink :=
  (candidates.filter fun c => !throws c).foldl (resolveLink ids) links

/-- ON DELETE CASCADE -/
def cascade (s : St) (links : List MemoryLink) : List MemoryLink :=
  links.filter fun r => (findRow s r.memoryIdA).isSome ∧ (findRow s r.memoryIdB).isSome

inductive Step (T : LinkTables) (E : Env) : LinkDb → LinkDb → Prop
  /-- stage 6 has returned `atoms`; the screening drops what it drops of them -/
  | start {db : LinkDb} {atoms : List LinkableAtom} {atomLinks : List AtomLinkCandidate} {batch : List BatchAtom}
      (hdistinct : (atoms.map (·.contentHash)).Nodup) (hlinks : linkAtoms T atoms = some atomLinks)
      (hbatch : (batch.map (·.contentHash)).Sublist (atoms.map (·.contentHash))) :
      Step T E db { db with jobs := ⟨survivors db.st batch, atomLinks, []⟩ :: db.jobs }
  | index {db : LinkDb} (before after : List IndexJob) {mem : BatchAtom} {rest : List BatchAtom}
      {atomLinks : List AtomLinkCandidate} {ids : List (Hash × AtomId)} (ctx : EmbedIndexContext)
      {r : St × List (Hash × AtomId)} (hjobs : db.jobs = before ++ ⟨mem :: rest, atomLinks, ids⟩ :: after)
      (h : indexAtom E ctx (db.st, ids) mem = .ok r) :
      Step T E db { db with st := r.1, jobs := before ++ ⟨rest, atomLinks, r.2⟩ :: after }
  | link {db : LinkDb} (before after : List IndexJob) {atomLinks : List AtomLinkCandidate} {ids : List (Hash × AtomId)}
      (throws : AtomLinkCandidate → Bool) (hjobs : db.jobs = before ++ ⟨[], atomLinks, ids⟩ :: after) :
      Step T E db { db with memoryLinks := persistLinks throws ids atomLinks db.memoryLinks, jobs := before ++ after }
  /-- an insert has thrown, or the process has ended -/
  | fail {db : LinkDb} (before after : List IndexJob) {job : IndexJob} (hjobs : db.jobs = before ++ job :: after) :
      Step T E db { db with jobs := before ++ after }
  /-- any other request, erasures included -/
  | request {db : LinkDb} (s : St) : Step T E db { db with st := s, memoryLinks := cascade s db.memoryLinks }

/-- from an empty `memory_links` and no call at work -/
def Reachable (T : LinkTables) (E : Env) (db : LinkDb) : Prop :=
  ∃ s, Relation.ReflTransGen (Step T E) ⟨⟨s, []⟩, []⟩ db

/-! ## The table -/

/-- the ends of a row are in order, and no two rows have the same ends and type -/
structure SimpleLinks (links : List MemoryLink) : Prop where
  ordered : ∀ r ∈ links, r.memoryIdA < r.memoryIdB
  keyed : Keyed (fun r : MemoryLink => (r.memoryIdA, r.memoryIdB, r.linkType)) links

variable {links : List MemoryLink}

theorem simpleLinks_nil : SimpleLinks [] := ⟨fun _ h => absurd h List.not_mem_nil, List.nodup_nil⟩

theorem SimpleLinks.filter (h : SimpleLinks links) (p : MemoryLink → Bool) : SimpleLinks (links.filter p) :=
  ⟨fun r hr => h.ordered r (List.mem_of_mem_filter hr), h.keyed.sublist (List.filter_sublist.map _)⟩

/-- what an insert of two distinct ids leaves: the row is there already, or it is new -/
theorem insertLink_cases (links : List MemoryLink) {a b : AtomId} (hne : a ≠ b) (c : AtomLinkCandidate) :
    let link : MemoryLink := ⟨min a b, max a b, c.linkType, c.evidence, c.confidence⟩
    (∃ r ∈ links, r.memoryIdA = min a b ∧ r.memoryIdB = max a b ∧ r.linkType = c.linkType ∧ insertLink links a b c = links) ∨
    (∀ r ∈ links, (r.memoryIdA, r.memoryIdB, r.linkType) ≠ (min a b, max a b, c.linkType)) ∧
      insertLink links a b c = links ++ [link] := by
  intro link
  unfold insertLink
  rw [if_neg hne]
  dsimp only
  split
  next hany =>
    obtain ⟨r, hr, hsame⟩ := List.any_eq_true.1 hany
    obtain ⟨ha, hb, htype⟩ := of_decide_eq_true hsame
    exact .inl ⟨r, hr, ha, hb, htype, rfl⟩
  next hnone =>
    refine .inr ⟨?_, rfl⟩
    intro r hr heq
    obtain ⟨ha, heq⟩ := Prod.mk.inj heq
    obtain ⟨hb, htype⟩ := Prod.mk.inj heq
    exact hnone (List.any_eq_true.2 ⟨r, hr, decide_eq_true ⟨ha, hb, htype⟩⟩)

theorem SimpleLinks.insertLink (h : SimpleLinks links) (a b : AtomId) (c : AtomLinkCandidate) :
    SimpleLinks (Distill.insertLink links a b c) := by
  by_cases hne : a = b
  · rw [Distill.insertLink, if_pos hne]
    exact h
  rcases insertLink_cases links hne c with ⟨r, -, -, -, -, heq⟩ | ⟨hnew, heq⟩
  · rw [heq]
    exact h
  · rw [heq]
    refine ⟨?_, h.keyed.insert hnew⟩
    intro r hr
    rcases List.mem_append.1 hr with hr | hr
    · exact h.ordered r hr
    · rw [List.mem_singleton.1 hr]
      exact min_lt_max.2 hne

theorem SimpleLinks.resolveLink (h : SimpleLinks links) (ids : List (Hash × AtomId)) (c : AtomLinkCandidate) :
    SimpleLinks (Distill.resolveLink ids links c) := by
  unfold Distill.resolveLink
  split
  next a b _ _ => exact h.insertLink a b c
  next => exact h

theorem SimpleLinks.persistLinks (h : SimpleLinks links) (throws : AtomLinkCandidate → Bool) (ids : List (Hash × AtomId))
    (candidates : List AtomLinkCandidate) : SimpleLinks (persistLinks throws ids candidates links) := by
  unfold LinkAtoms.persistLinks
  exact foldl_rest (fun _ links => SimpleLinks links) (fun c _ _ h => h.resolveLink ids c) h

variable {T : LinkTables} {E : Env} {db db' : LinkDb}

theorem SimpleLinks.step (h : SimpleLinks db.memoryLinks) (hstep : Step T E db db') : SimpleLinks db'.memoryLinks := by
  cases hstep with
  | start => exact h
  | index => exact h
  | link _ _ throws => exact h.persistLinks throws _ _
  | fail => exact h
  | request s => exact h.filter _

theorem Reachable.simple (h : Reachable T E db) : SimpleLinks db.memoryLinks := by
  obtain ⟨s, hrun⟩ := h
  induction hrun with
  | refl => exact simpleLinks_nil
  | tail _ hstep ih => exact ih.step hstep

/-! ## A whole call -/

theorem index_run {ctx : EmbedIndexContext} {mems : List BatchAtom} {r r' : St × List (Hash × AtomId)}
    {memoryLinks : List MemoryLink} {atomLinks : List AtomLinkCandidate} {jobs : List IndexJob}
    (h : mems.foldlM (indexAtom E ctx) r = .ok r') :
    Relation.ReflTransGen (Step T E) ⟨⟨r.1, memoryLinks⟩, ⟨mems, atomLinks, r.2⟩ :: jobs⟩
      ⟨⟨r'.1, memoryLinks⟩, ⟨[], atomLinks, r'.2⟩ :: jobs⟩ := by
  induction mems generalizing r with
  | nil =>
    obtain rfl : r = r' := Except.ok.inj h
    exact Relation.ReflTransGen.refl
  | cons mem mems ih =>
    rw [List.foldlM_cons] at h
    cases hindex : indexAtom E ctx r mem with
    | error e =>
      rw [hindex] at h
      cases h
    | ok next =>
      rw [hindex] at h
      refine Relation.ReflTransGen.head ?_ (ih h)
      exact Step.index [] jobs ctx rfl hindex

/-- a call of stage 8 that returns is a run -/
theorem embedBatch_run {ctx : EmbedIndexContext} {atoms : List LinkableAtom} {atomLinks : List AtomLinkCandidate}
    {batch : List BatchAtom} {tables tables' : IndexDb} {jobs : List IndexJob}
    (hdistinct : (atoms.map (·.contentHash)).Nodup) (hlinks : linkAtoms T atoms = some atomLinks)
    (hbatch : (batch.map (·.contentHash)).Sublist (atoms.map (·.contentHash)))
    (h : embedBatch E ctx batch atomLinks tables = .ok tables') :
    Relation.ReflTransGen (Step T E) ⟨tables, jobs⟩ ⟨tables', jobs⟩ := by
  unfold embedBatch at h
  cases hloop : (survivors tables.st batch).foldlM (indexAtom E ctx) (tables.st, []) with
  | error e =>
    rw [hloop] at h
    cases h
  | ok r =>
    rw [hloop] at h
    obtain rfl := Except.ok.inj h
    have hstart : Step T E ⟨tables, jobs⟩ ⟨tables, ⟨survivors tables.st batch, atomLinks, []⟩ :: jobs⟩ :=
      Step.start hdistinct hlinks hbatch
    have hlink : Step T E ⟨⟨r.1, tables.memoryLinks⟩, ⟨[], atomLinks, r.2⟩ :: jobs⟩
        ⟨⟨r.1, persistLinks (fun _ => false) r.2 atomLinks tables.memoryLinks⟩, jobs⟩ :=
      Step.link [] jobs (fun _ => false) rfl
    have hpersist : persistLinks (fun _ => false) r.2 atomLinks tables.memoryLinks =
        atomLinks.foldl (resolveLink r.2) tables.memoryLinks := by
      simp [persistLinks]
    rw [hpersist] at hlink
    exact Relation.ReflTransGen.head hstart ((index_run hloop).tail hlink)

/-! ## What a call leaves behind -/

theorem insertLink_subset (a b : AtomId) (c : AtomLinkCandidate) : links ⊆ insertLink links a b c := by
  by_cases hne : a = b
  · rw [insertLink, if_pos hne]
    exact List.Subset.refl links
  rcases insertLink_cases links hne c with ⟨r, -, -, -, -, heq⟩ | ⟨-, heq⟩
  · rw [heq]
    exact List.Subset.refl links
  · rw [heq]
    exact List.subset_append_left _ _

theorem mem_insertLink {a b : AtomId} (hne : a ≠ b) (c : AtomLinkCandidate) :
    ∃ r ∈ insertLink links a b c, s(r.memoryIdA, r.memoryIdB) = s(a, b) ∧ r.linkType = c.linkType := by
  have hpair : s(min a b, max a b) = s(a, b) := by
    rcases le_total a b with hle | hle
    · rw [min_eq_left hle, max_eq_right hle]
    · rw [min_eq_right hle, max_eq_left hle, Sym2.eq_swap]
  rcases insertLink_cases links hne c with ⟨r, hr, ha, hb, htype, heq⟩ | ⟨-, heq⟩
  · rw [heq]
    exact ⟨r, hr, by rw [ha, hb, hpair], htype⟩
  · rw [heq]
    exact ⟨_, List.mem_append_right _ List.mem_cons_self, hpair, rfl⟩

/-- a candidate whose two contents went to two memories, and whose insert returns, has its row -/
theorem persistLinks_mem {throws : AtomLinkCandidate → Bool} {ids : List (Hash × AtomId)}
    {candidates : List AtomLinkCandidate} {c : AtomLinkCandidate} {a b : AtomId} (hc : c ∈ candidates)
    (hreturns : throws c = false) (ha : ids.lookup c.contentHashA = some a) (hb : ids.lookup c.contentHashB = some b)
    (hne : a ≠ b) :
    ∃ r ∈ persistLinks throws ids candidates links, s(r.memoryIdA, r.memoryIdB) = s(a, b) ∧ r.linkType = c.linkType := by
  have hin : c ∈ candidates.filter fun c => !throws c := List.mem_filter.2 ⟨hc, by rw [hreturns]; rfl⟩
  have hgrows : ∀ (cs : List AtomLinkCandidate) (links : List MemoryLink), links ⊆ cs.foldl (resolveLink ids) links := by
    intro cs
    induction cs with
    | nil => exact fun links => List.Subset.refl links
    | cons d cs ih =>
      intro links
      refine List.Subset.trans ?_ (ih _)
      unfold resolveLink
      split
      next => exact insertLink_subset _ _ d
      next => exact List.Subset.refl links
  unfold persistLinks
  obtain ⟨before, after, hsplit⟩ := List.append_of_mem hin
  rw [hsplit, List.foldl_append, List.foldl_cons]
  have hround : resolveLink ids (before.foldl (resolveLink ids) links) c =
      insertLink (before.foldl (resolveLink ids) links) a b c := by
    rw [resolveLink, ha, hb]
  rw [hround]
  obtain ⟨r, hr, hrow⟩ := mem_insertLink hne c
  exact ⟨r, hgrows after _ hr, hrow⟩

/-! ## The whole -/

/-- no row links a memory with itself, and no unordered pair has two rows of one type -/
theorem SimpleLinks.pairs (h : SimpleLinks links) : (∀ r ∈ links, r.memoryIdA ≠ r.memoryIdB) ∧
    (links.map fun r => (s(r.memoryIdA, r.memoryIdB), r.linkType)).Nodup := by
  refine ⟨fun r hr => (h.ordered r hr).ne, ?_⟩
  apply List.pairwise_map.2
  apply (List.pairwise_map.1 h.keyed).imp_of_mem
  intro q r hq hr hne heq
  obtain ⟨hpair, htype⟩ := Prod.mk.inj heq
  apply hne
  rcases Sym2.eq_iff.1 hpair with ⟨ha, hb⟩ | ⟨ha, hb⟩
  · rw [ha, hb, htype]
  · have hq' := h.ordered q hq
    rw [ha, hb] at hq'
    exact absurd hq' (h.ordered r hr).asymm

/-- **Links between atoms.** Of atoms with distinct hashes `linkAtoms` proposes a link by entity for exactly the pairs that
share a name that is not empty and occurs in 2 to 12 atoms, once and of the highest type that applies, and one for exactly
the neighbours. After any run `memory_links` holds no link of a memory with itself and no two of one type between the same
memories. -/
theorem links_complete_and_simple (T : LinkTables) (E : Env) :
    (∀ atoms : List LinkableAtom, (atoms.map (·.contentHash)).Nodup →
      ∃ links, linkAtoms T atoms = some links ∧ ExactLinks T (entityNames T) atoms links) ∧
    ∀ db, Reachable T E db → (∀ r ∈ db.memoryLinks, r.memoryIdA ≠ r.memoryIdB) ∧
      (db.memoryLinks.map fun r => (s(r.memoryIdA, r.memoryIdB), r.linkType)).Nodup :=
  ⟨fun _ hdistinct => linkAtoms_exactLinks hdistinct, fun _ h => h.simple.pairs⟩

section
/-- the tables on ASCII text -/
def asciiTables : LinkTables := ⟨fun s => String.ofList (s.toList.map Char.toLower), Char.isAlpha⟩

def atomOf (contentHash : Hash) (names : List String) : LinkableAtom :=
  { text := "", importance := 1 / 2, contentHash := contentHash, type := .fact,
    entities := some (names.map fun name => ⟨name, "actor"⟩) }

/-- a name of blanks alone is no name to the linking, though two atoms have it -/
theorem blank_name_unlinked : ¬ ∀ (T : LinkTables) (atoms : List LinkableAtom), (atoms.map (·.contentHash)).Nodup →
    ∃ links, linkAtoms T atoms = some links ∧ ExactLinks T (normalizedNames T) atoms links := by
  intro h
  obtain ⟨links, hlinks, hexact⟩ := h asciiTables [atomOf 1 [" "], atomOf 2 [" "]] (by decide)
  have hvalue : linkAtoms asciiTables [atomOf 1 [" "], atomOf 2 [" "]] =
      some [⟨1, 2, .sessionProximity, "adjacent in extraction order", 2 / 5⟩] := by decide +kernel
  obtain rfl := Option.some.inj (hlinks.symm.trans hvalue)
  have hshare : ShareEntity (normalizedNames asciiTables) [atomOf 1 [" "], atomOf 2 [" "]] (atomOf 1 [" "])
      (atomOf 2 [" "]) :=
    ⟨"", by decide +kernel, by decide +kernel, by decide +kernel, by decide +kernel⟩
  obtain ⟨l, hl, hentity, -⟩ := (hexact.entity_iff 0 1 (by decide)).2 hshare
  rw [List.mem_singleton.1 hl] at hentity
  exact hentity rfl

def countingEnv : Env := ⟨fun n => n, fun n => n, 0, asciiTables.toLowerCase⟩

def batchAtomOf (contentHash : Hash) (text : String) : BatchAtom :=
  { type := .fact, text := text, normalizedText := text, finalHash := contentHash, importance := 1 / 2, confidence := 1 / 2,
    contentHash := contentHash }

def named : List LinkableAtom := [atomOf 1 ["Ada"], atomOf 2 ["ada", "ADA "]]

def namedLinks : List AtomLinkCandidate :=
  [⟨1, 2, .sharedEntity, "ada", 1 / 2⟩, ⟨1, 2, .sessionProximity, "adjacent in extraction order", 2 / 5⟩]

def namedBatch : List BatchAtom := [batchAtomOf 1 "a", batchAtomOf 2 "b"]

def namedCall : Except ConstraintError IndexDb := embedBatch countingEnv {} namedBatch namedLinks ⟨{}, []⟩

theorem namedCall_writes : ∃ tables, namedCall = .ok tables ∧ tables.memoryLinks.length = 2 := by
  have hcall : (namedCall.toOption.map fun tables => tables.memoryLinks.length) = some 2 := by decide +kernel
  cases hresult : namedCall with
  | error e =>
    rw [hresult] at hcall
    cases hcall
  | ok tables =>
    rw [hresult] at hcall
    exact ⟨tables, rfl, Option.some.inj hcall⟩

/-- two atoms that share a name, written by one call: a row by entity and one by proximity -/
theorem links_complete_and_simple_named :
    (∃ links, linkAtoms asciiTables named = some links ∧ ExactLinks asciiTables (entityNames asciiTables) named links) ∧
    ∃ db, Reachable asciiTables countingEnv db ∧ db.memoryLinks.length = 2 ∧
      (∀ r ∈ db.memoryLinks, r.memoryIdA ≠ r.memoryIdB) ∧
      (db.memoryLinks.map fun r => (s(r.memoryIdA, r.memoryIdB), r.linkType)).Nodup := by
  have hlinks : linkAtoms asciiTables named = some namedLinks := by decide +kernel
  obtain ⟨tables, hcall, hlength⟩ := namedCall_writes
  have hbatch : (namedBatch.map (·.contentHash)).Sublist (named.map (·.contentHash)) := by decide
  have hreach : Reachable asciiTables countingEnv ⟨tables, []⟩ :=
    ⟨{}, embedBatch_run (by decide) hlinks hbatch hcall⟩
  exact ⟨(links_complete_and_simple asciiTables countingEnv).1 named (by decide), _, hreach, hlength,
    (links_complete_and_simple asciiTables countingEnv).2 _ hreach⟩

end

end AstramemLocal.Distill.LinkAtoms
