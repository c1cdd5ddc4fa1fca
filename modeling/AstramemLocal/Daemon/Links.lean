/-
Entity links of superseded memories. `supersede` deletes the links and relations of the loser in the same transaction;
conflict resolution writes its row only, and stage 8 links to whichever memory owns the hash.
* `superseded_unlinked`: along a run in which no pull supersedes a linked memory and no job re-indexes a superseded one, a
  superseded memory has no links.
* `pull_keeps_links`: a pulled supersede leaves them, and a re-distilled memory gets them back.
-/
import AstramemLocal.Daemon.Effects
import AstramemLocal.Sync.Convergence

namespace AstramemLocal.Daemon

open AstramemLocal.Store AstramemLocal.Sync AstramemLocal.Distill AstramemLocal.Core Relation

/-- no entity link of the memory, and no relation it is the evidence of -/
structure Unlinked (s : St) (a : AtomId) : Prop where
  entities : ∀ r ∈ s.memoryEntities, r.memoryId ≠ a
  relations : ∀ r ∈ s.entityRelations, r.evidenceMemoryId ≠ a

/-- a superseded memory has no links -/
structure LinksOk (s : St) : Prop where
  ids : UniqueIds s
  rows : ∀ a m, findRow s a = some m → m.supersededBy ≠ none → Unlinked s a

variable {E : Env} {Q : AtomId → AtomId → Prop} {A : St → Hash → Prop} {s t : St} {batch : PullBatch} {a : AtomId}

theorem Unlinked.sub (h : Unlinked s a) (he : ∀ r ∈ t.memoryEntities, r ∈ s.memoryEntities)
    (hr : ∀ r ∈ t.entityRelations, r ∈ s.entityRelations) : Unlinked t a :=
  ⟨fun r hmem => h.entities r (he r hmem), fun r hmem => h.relations r (hr r hmem)⟩

theorem Unlinked.same (h : Unlinked s a) (he : t.memoryEntities = s.memoryEntities)
    (hr : t.entityRelations = s.entityRelations) : Unlinked t a :=
  h.sub (fun _ hmem => he ▸ hmem) fun _ hmem => hr ▸ hmem

theorem unlinked_deleteRow {b : AtomId} (h : Unlinked s a) : Unlinked (deleteRow s b) a :=
  h.sub (fun _ hr => List.mem_of_mem_filter hr) fun _ hr => List.mem_of_mem_filter hr

theorem unlinked_hardDeleteAtom {b : AtomId} (h : Unlinked s a) : Unlinked (hardDeleteAtom s b) a := by
  unfold hardDeleteAtom
  split
  · exact h
  · exact unlinked_deleteRow (h.same rfl rfl)

/-! ## The local operations -/

/-- no link goes in, and no row gets a winner and keeps its links -/
theorem LinksOk.of_rows (h : LinksOk s) (hids : UniqueIds t) (hlinks : ∀ a, Unlinked s a → Unlinked t a)
    (hrows : ∀ a x, findRow t a = some x → x.supersededBy ≠ none → Unlinked t a ∨
      ∃ m, findRow s a = some m ∧ m.supersededBy ≠ none) : LinksOk t where
  ids := hids
  rows a x hx hs := by
    rcases hrows a x hx hs with hu | ⟨m, hm, hms⟩
    · exact hu
    · exact hlinks a (h.rows a m hm hms)

theorem LinksOk.effect (h : LinksOk s) (he : Effect E Q A (fun m => m.supersededBy = none) s t) : LinksOk t := by
  have hids := he.unique h.ids
  have hsame : (∀ a, findRow t a = findRow s a) → (∀ a, Unlinked s a → Unlinked t a) → LinksOk t := fun hrow hl =>
    h.of_rows hids hl fun a x hx hs => Or.inr ⟨x, by rwa [hrow] at hx, hs⟩
  cases he with
  | frame hf =>
    exact hsame (fun a => findRow_congr hf.memories a) fun a hu =>
      hu.sub (fun r hr => by rwa [hf.memoryEntities] at hr) fun r hr => by rwa [hf.entityRelations] at hr
  | inserted input rowid now at_ _ _ hn =>
    refine h.of_rows hids (fun _ hu => hu.same rfl rfl) fun a x hx hs => ?_
    rw [findRow_inserted hn] at hx
    split_ifs at hx
    · obtain rfl := Option.some.inj hx
      exact absurd rfl hs
    · exact Or.inr ⟨x, hx, hs⟩
  | rewritten now p hm hr =>
    rename_i b m f ty
    refine h.of_rows hids (fun _ hu => hu.same rfl rfl) fun a x hx hs => ?_
    rw [findRow_append, findRow_updateRow s b a hr.id_eq] at hx
    obtain ⟨y, hy, hxy⟩ := Option.map_eq_some_iff.1 hx
    split_ifs at hxy with hab
    · subst hab hxy
      refine Or.inr ⟨y, hy, fun hc => hs ?_⟩
      cases hr <;> first | exact hc | rfl
    · subst hxy
      exact Or.inr ⟨y, hy, hs⟩
  | touched validFrom now =>
    rename_i b
    refine h.of_rows hids (fun _ hu => hu.same rfl rfl) fun a x hx hs => ?_
    rw [findRow_updateRow s b a (by intro _; rfl)] at hx
    obtain ⟨y, hy, hxy⟩ := Option.map_eq_some_iff.1 hx
    split_ifs at hxy <;> subst hxy <;> exact Or.inr ⟨y, hy, hs⟩
  | superseded p now =>
    rename_i b w m mw hm hv hmw hvw hq
    refine h.of_rows hids (fun a hu => hu.sub (fun _ hr => List.mem_of_mem_filter hr)
      fun _ hr => List.mem_of_mem_filter hr) fun a x hx hs => ?_
    by_cases hab : a = b
    · subst hab
      refine Or.inl ⟨fun r hr => ?_, fun r hr => ?_⟩
      · simpa using (List.mem_filter.1 hr).2
      · simpa using (List.mem_filter.1 hr).2
    · rw [findRow_append, findRow_dropRelations, findRow_unlinkMemory,
        findRow_updateRow_ne s b a (by intro _; rfl) hab] at hx
      exact Or.inr ⟨x, hx, hs⟩
  | noted b p now => exact hsame (fun _ => rfl) fun _ hu => hu.same rfl rfl
  | erased reason now _ =>
    refine h.of_rows hids (fun a hu => unlinked_deleteRow (hu.same rfl rfl)) fun a x hx hs => ?_
    rw [findRow_deleteRow] at hx
    split_ifs at hx
    exact Or.inr ⟨x, hx, hs⟩
  | linked link hm hK =>
    refine ⟨hids, fun a x hx hs => ?_⟩
    obtain ⟨he, hr⟩ := h.rows a x hx hs
    refine ⟨fun r hmem => ?_, hr⟩
    rcases List.mem_append.1 hmem with hmem | hmem
    · exact he r hmem
    · rw [List.mem_singleton.1 hmem]
      rintro rfl
      exact hs (Option.some.inj (hm.symm.trans hx) ▸ hK)
  | related r hm hK =>
    refine ⟨hids, fun a x hx hs => ?_⟩
    obtain ⟨he, hr⟩ := h.rows a x hx hs
    refine ⟨he, fun r' hmem => ?_⟩
    rcases List.mem_append.1 hmem with hmem | hmem
    · exact hr r' hmem
    · rw [List.mem_singleton.1 hmem]
      rintro rfl
      exact hs (Option.some.inj (hm.symm.trans hx) ▸ hK)
  | vectored => exact hsame (fun _ => rfl) fun _ hu => hu.same rfl rfl

/-! ## Pulls -/

/-- a pull supersedes no memory that has links: none is chained, and none is touched while an event names its winner -/
def PullLinksSafely (E : Env) (s : St) (batch : PullBatch) : Prop :=
  ∀ a, ¬ Unlinked s a → ¬ (pullForks E s batch).Chained a ∧
    (Touched s batch a → Erased (pulledLog s batch) a ∨ ∀ r, ¬ Names (pulledLog s batch) a r)

/-- on the way through a pull links only go -/
structure PullLinks (s u : St) : Prop where
  rows : ∀ a m, findRow u a = some m → m.supersededBy ≠ none → Unlinked u a
  kept : ∀ a, Unlinked s a → Unlinked u a

theorem pullLinks_effects (hsafe : PullLinksSafely E s batch) : PullEffects E s batch fun _ u => PullLinks s u where
  weaken _ h := h
  erased {P u b} _ _ h _ := by
    refine ⟨fun a x hx hs => ?_, fun a hu => unlinked_hardDeleteAtom (h.kept a hu)⟩
    rw [findRow_hardDeleteAtom] at hx
    split_ifs at hx
    exact unlinked_hardDeleteAtom (h.rows a x hx hs)
  absent _ _ h _ _ := h
  quiet _ _ h _ _ _ := h
  unresolved _ _ h _ _ _ := ⟨fun a x hx hs => (h.rows a x hx hs).same rfl rfl, fun a hu => (h.kept a hu).same rfl rfl⟩
  invalidated {P u b v} _ _ h _ _ _ := by
    refine ⟨fun a x hx hs => ?_, fun a hu => (h.kept a hu).same rfl rfl⟩
    rw [findRow_hideInvalidated, Option.map_eq_some_iff] at hx
    obtain ⟨y, hy, rfl⟩ := hx
    exact (h.rows a y hy fun hc => hs (by split_ifs <;> exact hc)).same rfl rfl
  superseded {P u b w v} hR hj h hp hw _ := by
    -- the atom had no links before the pull, so it has none now
    have hb : Unlinked s b := by
      by_contra hc
      obtain ⟨hch, htouched⟩ := hsafe b hc
      have hlog := hj.sameLog hch
      rcases htouched (hR.resolve_right hch) with he | hn
      · exact hp.kept (hlog.erased.2 he)
      · exact hn w (hlog.names.1 hw.mem)
    refine ⟨fun a x hx hs => ?_, fun a hu => (h.kept a hu).same rfl rfl⟩
    have hu : Unlinked u a := by
      by_cases hab : a = b
      · exact hab ▸ h.kept b hb
      · rw [findRow_hideSuperseded_ne E u v w.target hab] at hx
        exact h.rows a x hx hs
    exact hu.same rfl rfl
  chain {P u y w at_} _ h _ _ := by
    refine ⟨fun a x hx hs => ?_, fun a hu => (h.kept a hu).same rfl rfl⟩
    exact (h.rows a x hx hs).same rfl rfl

theorem LinksOk.pull (h : LinksOk s) (hsafe : PullLinksSafely E s batch) (hp : pullOnce E s batch = .ok t) :
    LinksOk t := by
  rcases pull_rule hp with ⟨-, rfl⟩ | ⟨m, touched, u, hm, rfl, -, hI⟩
  · exact h
  -- the first loop leaves the link tables as they are
  have hlinks : ∀ a, Unlinked s a → Unlinked m a := fun a hu => by
    rw [hm.frame]
    exact hu.same rfl rfl
  have hmerged : PullLinks s m := by
    refine ⟨fun a x hx hs => ?_, hlinks⟩
    cases hsa : findRow s a with
    | some y =>
      obtain rfl := Option.some.inj ((hm.findRow_of_some hsa).symm.trans hx)
      exact hlinks a (h.rows a y hsa hs)
    | none =>
      obtain ⟨e, -, -, sn, now, k, -, rfl⟩ := hm.made_row hx hsa
      exact absurd rfl hs
  have hu := hI _ (pullLinks_effects hsafe) hmerged
  refine ⟨hI _ unique_effects (hm.unique .id h.ids), fun a x hx hs => ?_⟩
  exact (hu.rows a x hx hs).same rfl rfl

/-! ## Runs -/

/-- the step is safe: no pull supersedes a linked memory, no job links entities to a superseded one -/
structure LinksSafely (E : Env) (s : St) (op : Op) : Prop where
  index : ∀ ctx mem, op = .index ctx mem → mem ∈ s.inFlight → mem.entities ≠ [] →
    ∀ m, findHash s mem.finalHash = some m → m.supersededBy = none
  pull : ∀ batch, op = .pull batch → PullLinksSafely E s batch

theorem LinksOk.step (h : LinksOk s) {op : Op} (hsafe : LinksSafely E s op) : LinksOk (step E s op) :=
  step_inv h.ids
    (⟨fun _ _ _ _ _ => trivial, fun _ _ _ _ _ => trivial, fun _ hm => hm, hsafe.index⟩ :
      Permits (fun _ _ => True) (fun _ _ => True) (fun m => m.supersededBy = none) s op)
    (fun _ _ hs he => hs.effect he) (fun batch _ hop ht => h.pull (hsafe.pull batch hop) ht) h

/-- **A superseded memory has no links** in any state of a run of safe steps. -/
theorem superseded_unlinked (E : Env) (sessions : List SessionId) (ops : List Op)
    (hsafe : Along (step E) (LinksSafely E) { sessions } ops) :
    ∀ m ∈ (run E { sessions } ops).memories, m.supersededBy ≠ none → Unlinked (run E { sessions } ops) m.id := by
  have hstart : LinksOk { sessions } := ⟨List.nodup_nil, fun a m hm => by cases hm⟩
  have hend : LinksOk (run E { sessions } ops) := along_inv LinksOk (fun _ _ hs hP => hs.step hP) hstart hsafe
  exact fun m hm hs => hend.rows m.id m (findRow_of_mem hend.ids hm) hs

theorem linksSafely_local {op : Op} (hop : op.isPull = false)
    (h : ∀ ctx mem, op = .index ctx mem → findHash s mem.finalHash = none) : LinksSafely E s op := by
  refine ⟨fun ctx mem hc _ _ m hm => ?_, fun batch hc => by rw [hc] at hop; cases hop⟩
  rw [h ctx mem hc] at hm
  cases hm

/-- an atom that mentions one entity -/
def linkedAtom (h : Hash) : NormalizedMemory :=
  { type := .fact, text := "uses sqlite", normalizedText := "uses sqlite", finalHash := h, importance := 1,
    confidence := 1, entities := [{ name := "SQLite", kind := "tool" }] }

/-- memory 0, linked, and memory 4 -/
def linkOps : List Op :=
  [.screen (linkedAtom 7), .index {} (linkedAtom 7), .remember (rememberInput 8 "b")]

def unlinkOps : List Op := linkOps ++ [.supersede 0 4 none .external]

/-- the local supersede unlinks it -/
theorem superseded_unlinked_local :
    (run countingEnv { sessions := [] } unlinkOps).memories.map (·.supersededBy) = [some 4, none] ∧
      ∀ m ∈ (run countingEnv { sessions := [] } unlinkOps).memories, m.supersededBy ≠ none →
        Unlinked (run countingEnv { sessions := [] } unlinkOps) m.id :=
  ⟨by decide, superseded_unlinked countingEnv [] unlinkOps
    ⟨linksSafely_local rfl (by rintro _ _ ⟨⟩), linksSafely_local rfl (by rintro _ _ ⟨⟩; decide),
      linksSafely_local rfl (by rintro _ _ ⟨⟩), linksSafely_local rfl (by rintro _ _ ⟨⟩), trivial⟩⟩

/-- memory 0 has the winner 4 and an entity link -/
def linkedLoser (ops : List Op) : Bool :=
  (findRow (run countingEnv {} ops) 0).any (·.supersededBy = some 4) ∧
    (run countingEnv {} ops).memoryEntities.any (·.memoryId = 0)

/-- **A pulled supersede leaves the links**, and a re-distilled memory gets them back. -/
theorem pull_keeps_links : linkedLoser (linkOps ++ [.pull ⟨[supersedeEvent 900 0 4 10], none⟩]) = true ∧
    linkedLoser (unlinkOps ++ [.screen (linkedAtom 7), .index {} (linkedAtom 7)]) = true := by
  decide

end AstramemLocal.Daemon
