/-
What consolidation does to the database, said once. Whatever a run, a sweep or a request does to the desk is a sequence of
`DeskStep`s: a proposal goes in, two memories are merged, a proposal is accepted, rejected or closed, or its metadata is
annotated. `M` is what is known of winner and loser where a pair comes from a scan. The functions of the code are
decomposed here (`processPair_steps`), the invariants are shown of the steps.
-/
import AstramemLocal.Consolidate.Sweeps
import AstramemLocal.Daemon.Lifecycle

namespace AstramemLocal.Consolidate

open AstramemLocal.Store AstramemLocal.Daemon AstramemLocal.Core Relation

/-- the log says that `w` superseded `a` -/
def SupersededInLog (s : St) (a w : AtomId) : Prop :=
  ∃ e ∈ records s, e.eventType = .supersede ∧ e.atomId = a ∧ e.payloadJson.bind (·.supersededBy) = some w

inductive DeskStep (E : Env) (M : AtomId → AtomId → Prop) : Desk → Desk → Prop
  /-- an INSERT that finds its pair pending -/
  | noted (d : Desk) : DeskStep E M d { d with store := tick (draw d.store) }
  | inserted {d : Desk} (kind : ProposalKind) {w l : AtomId} (similarity : ℚ) (metadata : Option ProposalMetadata) :
      M w l → pairPending d w l = false → get d (E.uuid d.store.drawn) = none →
      DeskStep E M d { d with
        store := tick (draw d.store)
        proposals := d.proposals ++ [⟨E.uuid d.store.drawn, kind, w, l, similarity, .pending, E.now d.store.clock, none,
          metadata⟩] }
  | merged {d d' : Desk} {w l : AtomId} {p : Option SupersedeProvenance} {src : CorrectionSource} : M w l →
      mergeAsSupersede E d w l p src = .ok d' → DeskStep E M d d'
  | accepted {d d' : Desk} {id : ProposalId} {p : Option SupersedeProvenance} {opts : AcceptOpts} :
      accept E d id p opts = .ok d' → DeskStep E M d d'
  | rejected {d d' : Desk} {id : ProposalId} {metadata : Option ProposalMetadata} :
      reject E d id metadata = .ok d' → DeskStep E M d d'
  /-- a sweep closes a proposal whose memories are no longer both current -/
  | closed {d : Desk} {id : ProposalId} {status : ProposalStatus} : status ≠ .pending →
      (status = .accepted → ∀ p ∈ d.proposals, p.id = id → SupersededInLog d.store p.loserId p.winnerId) →
      DeskStep E M d (resolveRow E d id status)
  | annotated (d : Desk) (id : ProposalId) (metadata : ProposalMetadata) :
      DeskStep E M d (annotateCommandGuardBlocked d id metadata)

abbrev DeskSteps (E : Env) (M : AtomId → AtomId → Prop) : Desk → Desk → Prop := ReflTransGen (DeskStep E M)

variable {E : Env} {M : AtomId → AtomId → Prop} {T : TextTables} {d d' : Desk}

/-! ## The operations of the queue -/

theorem mustBePending_ok {id : ProposalId} {p : ConsolidationProposal} (h : mustBePending d id = .ok p) :
    get d id = some p ∧ p.status = .pending := by
  unfold mustBePending at h
  split at h
  · cases h
  next q hq =>
    split_ifs at h with hs
    obtain rfl := Except.ok.inj h
    exact ⟨hq, not_not.1 hs⟩

theorem get_id {id : ProposalId} {p : ConsolidationProposal} (h : get d id = some p) : p ∈ d.proposals ∧ p.id = id :=
  Core.lookup_mem h

/-- a merge is a supersede; the winner's row and lineage are written besides -/
theorem mergeAsSupersede_ok {w l : AtomId} {p : Option SupersedeProvenance} {src : CorrectionSource}
    (h : mergeAsSupersede E d w l p src = .ok d') : ∃ s, supersede E d.store l w p src = .ok s ∧
      d' = { d with
        store := updateRow (tick s) w fun m => { m with updatedAt := E.now s.clock }
        derivedFrom := Function.update d.derivedFrom w
          (if l ∈ d.derivedFrom w then d.derivedFrom w else d.derivedFrom w ++ [l]) } := by
  unfold mergeAsSupersede at h
  split at h
  · cases h
  next s hs => exact ⟨s, hs, (Except.ok.inj h).symm⟩

theorem accept_ok {id : ProposalId} {prov : Option SupersedeProvenance} {opts : AcceptOpts}
    (h : accept E d id prov opts = .ok d') : ∃ p u, get d id = some p ∧ p.status = .pending ∧
      mergeAsSupersede E d p.winnerId p.loserId prov opts.correctionSource = .ok u ∧
      d' = resolve E (if opts.bulkAccepted then markBulkAccepted u p.loserId else u) p.id .accepted opts.metadata := by
  unfold accept at h
  split at h
  · cases h
  next p hp =>
    obtain ⟨hget, hpending⟩ := mustBePending_ok hp
    split at h
    · cases h
    next u hu => exact ⟨p, u, hget, hpending, hu, (Except.ok.inj h).symm⟩

theorem reject_ok {id : ProposalId} {metadata : Option ProposalMetadata} (h : reject E d id metadata = .ok d') :
    ∃ p, get d id = some p ∧ p.status = .pending ∧ d' = resolve E d p.id .rejected metadata := by
  unfold reject at h
  split at h
  · cases h
  next p hp =>
    obtain ⟨hget, hpending⟩ := mustBePending_ok hp
    exact ⟨p, hget, hpending, (Except.ok.inj h).symm⟩

theorem insertProposal_step {kind : ProposalKind} {w l : AtomId} {sim : ℚ} {metadata : Option ProposalMetadata}
    {r : Option ProposalId} (hM : M w l) (h : insertProposal E d kind w l sim metadata = .ok (d', r)) :
    DeskStep E M d d' := by
  simp only [insertProposal] at h
  split_ifs at h with hpair hid
  · obtain ⟨rfl, -⟩ := Prod.mk.inj (Except.ok.inj h)
    exact .noted d
  · obtain ⟨rfl, -⟩ := Prod.mk.inj (Except.ok.inj h)
    have hfresh : get d (E.uuid d.store.drawn) = none := Option.not_isSome_iff_eq_none.1 hid
    exact .inserted kind sim metadata hM (Bool.eq_false_iff.2 hpair) hfresh

/-! ## The scan of a pair -/

section
variable {o : Options} {r : Run} {a b : AtomRow} {sim : ℚ}

theorem mergeTier_steps {pick : AtomRow × AtomRow} (hM : M pick.1.id pick.2.id) (reason : MergeReason) :
    DeskSteps E M d (mergeTier E d r a b pick sim reason).desk := by
  unfold mergeTier
  dsimp only
  split_ifs
  · split
    · exact .refl
    next h => exact .single (insertProposal_step hM h)
    next h => exact .single (insertProposal_step hM h)
  · split
    · exact .refl
    next h => exact .single (.merged hM h)

theorem proposeTier_steps {pick : AtomRow × AtomRow} (hM : M pick.1.id pick.2.id) :
    DeskSteps E M d (proposeTier E o d r pick sim).desk := by
  unfold proposeTier
  dsimp only
  split
  · exact .refl
  next h => exact .single (insertProposal_step hM h)
  next h =>
    have hinsert := ReflTransGen.single (insertProposal_step hM h)
    split
    · exact hinsert
    · split
      · exact hinsert
      next haccept => exact hinsert.tail (.accepted haccept)

/-- the pick is the pair, one way or the other -/
def IsPick (a b : AtomRow) (pick : AtomRow × AtomRow) : Prop := pick = (a, b) ∨ pick = (b, a)

/-- `M` holds of the two atoms either way round -/
structure Allowed (M : AtomId → AtomId → Prop) (a b : AtomRow) : Prop where
  left : M a.id b.id
  right : M b.id a.id

theorem IsPick.allowed {pick : AtomRow × AtomRow} (h : IsPick a b pick) (hM : Allowed M a b) : M pick.1.id pick.2.id := by
  rcases h with rfl | rfl
  · exact hM.left
  · exact hM.right

theorem pickWinner_isPick (usefulness : AtomId → Option ℚ) : IsPick a b (pickWinner usefulness a b) := by
  unfold pickWinner
  dsimp only
  split_ifs
  · exact Or.inr rfl
  · exact Or.inl rfl

theorem containedPick_isPick (c : Containment) {pick : AtomRow × AtomRow} (h : IsPick a b pick) :
    IsPick a b (containedPick c a b pick) := by
  cases c with
  | aContainsB => exact Or.inl rfl
  | bContainsA => exact Or.inr rfl
  | equal => exact h

theorem classifyPair_steps (hM : Allowed M a b) (usefulness : AtomId → Option ℚ) :
    DeskSteps E M d (classifyPair E T o d r usefulness a b sim).desk := by
  have hpick := pickWinner_isPick (a := a) (b := b) usefulness
  unfold classifyPair
  dsimp only
  generalize (if o.autoMergeContained = true then containment T a.text b.text else none) = contained
  by_cases hlow : sim < o.proposeThreshold
  · rw [if_pos hlow]
  · rw [if_neg hlow]
    cases contained with
    | some c => exact mergeTier_steps ((containedPick_isPick c hpick).allowed hM) _
    | none =>
      dsimp only
      split_ifs
      · exact mergeTier_steps (hpick.allowed hM) _
      · exact proposeTier_steps (hpick.allowed hM)

theorem contradictionTier_steps (hM : Allowed M a b) (c : ContradictionDetection) (verdict : JudgeVerdict) :
    DeskSteps E M d (contradictionTier E d r c a b sim verdict).desk := by
  have hpick : IsPick a b (if b.createdAt ≤ a.createdAt then (a, b) else (b, a)) := by
    split_ifs
    · exact Or.inl rfl
    · exact Or.inr rfl
  unfold contradictionTier
  dsimp only
  split
  · exact .refl
  · split
    · exact .refl
    next h => exact .single (insertProposal_step (hpick.allowed hM) h)
    next h => exact .single (insertProposal_step (hpick.allowed hM) h)

theorem judgePair_steps (hM : Allowed M a b) (c : ContradictionDetection) (usefulness : AtomId → Option ℚ)
    (verdict : JudgeVerdict) (elapsed : ℤ) :
    DeskSteps E M d (judgePair E T o d r c usefulness a b sim verdict elapsed).desk := by
  unfold judgePair
  dsimp only
  split_ifs
  · exact classifyPair_steps hM usefulness
  · exact classifyPair_steps hM usefulness
  · exact contradictionTier_steps hM c verdict
  · exact .refl
  · exact classifyPair_steps hM usefulness

theorem processPair_steps {V : Type} (cosine : V → V → ℚ) (x : PairInput V) (hM : Allowed M a b) :
    DeskSteps E M d (processPair E T o d r cosine x a b).desk := by
  unfold processPair
  split_ifs
  · exact .refl
  · split
    · dsimp only
      split
      · exact judgePair_steps hM _ _ _ _
      · exact classifyPair_steps hM _
    · exact .refl

end

end AstramemLocal.Consolidate
