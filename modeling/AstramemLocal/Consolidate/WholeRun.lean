/-
One call of `runConsolidation` with nothing beside it, from any state a history leads to.
* `scanGroups_inv`: what holds when the scan begins and survives each pair holds when it ends.
* `run_throws_primaryKey`: a run throws at most where the id of a new proposal is taken; every merge it tries goes through.
* `containedRun_covers`: a run that merges contained texts only leaves, for each memory that was current, a current one
  that says what it said.
* `runs_attempt_every_group`: runs that find the same groups attempt each of them within one more run than there are
  groups, wherever each run stops.
-/
import AstramemLocal.Consolidate.Report

namespace AstramemLocal.Consolidate

open AstramemLocal.Store AstramemLocal.Daemon AstramemLocal.Core Relation

variable {E : Env} {T : TextTables} {o : Options} {V : Type} {cosine : V → V → ℚ} {input : RunInput V} {d d' : Desk}

/-! ## The loops -/

section
variable {I : Outcome → Prop}

theorem scanPairs_inv (cosine : V → V → ℚ) (input : RunInput V) (gi : ℕ) (stop : Option ℕ) {pairs : List Pair}
    (hpair : ∀ p ∈ pairs, ∀ out x, I out → out.thrown = none → I (processPair E T o out.desk out.run cosine x p.1 p.2))
    (n : ℕ) {out : Outcome} (h : I out) (hgo : out.thrown = none) : I (scanPairs E T o cosine input gi stop n out pairs).1 := by
  induction pairs generalizing n out with
  | nil => exact h
  | cons p pairs ih =>
    have hnext := hpair p List.mem_cons_self out (pairInput input gi n) h hgo
    unfold scanPairs
    dsimp only
    split_ifs with hthrown hpre
    · exact hnext
    · exact hnext
    · exact ih (fun q hq => hpair q (List.mem_cons_of_mem p hq)) (n + 1) hnext (by simpa using hthrown)

/-- **Rule of the scan.** -/
theorem scanGroups_inv {groups : List GroupEntry}
    (hpair : ∀ g ∈ groups, ∀ p ∈ candidatePairs o input g.atoms, ∀ out x, I out → out.thrown = none →
      I (processPair E T o out.desk out.run cosine x p.1 p.2))
    (hnote : ∀ out f, I out → (∀ s : Summary, (f s).merged = s.merged ∧ (f s).autoAccepted = s.autoAccepted) →
      I { out with run := out.run.noting f })
    (gi : ℕ) {st : Scanned} (h : I st.out) (hgo : st.out.thrown = none) :
    I (scanGroups E T o cosine input gi st groups).out := by
  induction groups generalizing gi st with
  | nil => exact h
  | cons g groups ih =>
    have hrest := fun g' hg' => hpair g' (List.mem_cons_of_mem g hg')
    have hcount := hnote st.out (fun s => { s with groupsScanned := s.groupsScanned + 1 }) h fun _ => ⟨rfl, rfl⟩
    unfold scanGroups
    split_ifs with hskip
    · exact ih hrest (gi + 1) (hnote _ _ h fun _ => ⟨rfl, rfl⟩) hgo
    · dsimp only
      split
      · exact hnote _ _ hcount fun _ => ⟨rfl, rfl⟩
      · exact hnote _ _ hcount fun _ => ⟨rfl, rfl⟩
      · have hscan := scanPairs_inv (E := E) (T := T) (o := o) cosine input gi
          ((input.groupStop gi).bind (·.pair?)) (hpair g List.mem_cons_self) 0 hcount hgo
        split_ifs with hthrown hpre hcap
        · exact hscan
        · exact hnote _ _ hscan fun _ => ⟨rfl, rfl⟩
        · exact hscan
        · exact ih hrest (gi + 1) hscan (by simpa using hthrown)

end

/-! ## The pairs of a run -/

/-- the pairs of a group of loaded atoms -/
theorem candidatePairs_ok {atoms : List AtomRow} (hids : (atoms.map (·.id)).Nodup) {g : GroupEntry}
    (hg : g ∈ groupAtoms atoms) {p : Pair} (hp : p ∈ candidatePairs o input g.atoms) :
    p.1 ∈ atoms ∧ p.2 ∈ atoms ∧ p.1.id ≠ p.2.id ∧ groupKey p.1 = groupKey p.2 := by
  obtain ⟨hatoms, -⟩ := mem_groupAtoms hg
  have hmem : ∀ a ∈ g.atoms, a ∈ atoms ∧ groupKey a = g.key := by
    intro a ha
    rw [hatoms, List.mem_filter, decide_eq_true_eq] at ha
    exact ha
  have hgids : (g.atoms.map (·.id)).Nodup := by
    rw [hatoms]
    exact hids.sublist (List.filter_sublist.map _)
  have hin : p.1 ∈ g.atoms ∧ p.2 ∈ g.atoms ∧ p.1.id ≠ p.2.id := by
    unfold candidatePairs at hp
    split at hp
    · exact of_mem_buildFullPairs hgids hp
    · obtain ⟨h1, h2, hlt, -⟩ := (buildKnn_ok input.search o.knnK input.vecs g.atoms).within p hp
      exact ⟨h1, h2, hlt.ne⟩
  obtain ⟨h1, h2, hne⟩ := hin
  exact ⟨(hmem _ h1).1, (hmem _ h2).1, hne, (hmem _ h1).2.trans (hmem _ h2).2.symm⟩

/-! ## Merges of one kind -/

/-- `d'` is `d` behind merges of two memories that `R` allows, of the loser into the winner -/
abbrev MergesBy (R : AtomId → AtomId → Prop) : Desk → Desk → Prop :=
  ReflTransGen fun d d' => DeskStill d d' ∨ ∃ l w, DeskMerge d d' l w ∧ w ≠ l ∧ R l w

variable {R : AtomId → AtomId → Prop}

theorem MergesBy.settles (h : MergesBy R d d') {a : AtomId} (ha : (forwarding d.store).Settles R a) :
    (forwarding d'.store).Settles R a := by
  induction h with
  | refl => exact ha
  | tail _ hstep ih =>
    rcases hstep with hstill | ⟨l, w, hmerge, hne, hR⟩
    · exact forwarding_still hstill ▸ ih
    · exact (hmerge.forwards hne).settles hR ih

theorem DeskMerge.text {l w : AtomId} (h : DeskMerge d d' l w) (a : AtomId) :
    (findRow d'.store a).map (·.text) = (findRow d.store a).map (·.text) := by
  cases hm : findRow d.store a with
  | none =>
    obtain ⟨now, now', hrows⟩ := h.rows
    rw [hrows a, hm]
    rfl
  | some m =>
    obtain ⟨m', hm', -, -, -, -, htext, -⟩ := h.row hm
    rw [hm', Option.map_some, Option.map_some, htext]

/-- the texts stay -/
theorem MergesBy.texts (h : MergesBy R d d') (a : AtomId) :
    (findRow d'.store a).map (·.text) = (findRow d.store a).map (·.text) := by
  induction h with
  | refl => rfl
  | tail _ hstep ih =>
    rw [← ih]
    rcases hstep with hstill | ⟨l, w, hmerge, -, -⟩
    · rw [hstill.findRow_eq]
    · exact hmerge.text a

/-! ## The invariant of the scan -/

/-- what was current at the load still is unless the run merged it away, and nothing else went wrong -/
structure ScanOk (T : TextTables) (o : Options) (R : AtomId → AtomId → Prop) (atoms : List AtomRow) (d : Desk)
    (out : Outcome) : Prop where
  desk : DeskOk AnyPair out.desk
  merges : MergesBy R d out.desk
  current : ∀ x, Current out.desk.store x ↔ Current d.store x ∧ x ∉ out.run.invalidatedThisRun
  thrown : ∀ e, out.thrown = some e → IdTaken out.desk e
  report : RunOk T o atoms out.desk out.run

theorem ScanOk.pair {atoms : List AtomRow} {out : Outcome} (h : ScanOk T o R atoms d out)
    (hloaded : ∀ a ∈ atoms, Current d.store a.id) {a b : AtomRow} (ha : a ∈ atoms) (hb : b ∈ atoms) (hne : a.id ≠ b.id)
    (hgroup : groupKey a = groupKey b)
    (hR : ∀ w l : AtomRow, IsPick a b (w, l) →
      (∃ u v reason, MergeGround T o (cosine u v) w l reason) ∨ (∃ u v, AcceptGround T o (cosine u v) w l) → R l.id w.id)
    (x : PairInput V) : ScanOk T o R atoms d (processPair E T o out.desk out.run cosine x a b) := by
  rcases processPair_result (E := E) (T := T) (o := o) (d := out.desk) (r := out.run) (a := a) (b := b) cosine x with
    hskip | ⟨hga, hgb, u, v, hres⟩
  · rw [hskip]
    exact ⟨h.desk, h.merges, h.current, (fun e he => by cases he), h.report⟩
  · have hsteps := processPair_steps (E := E) (M := AnyPair) (T := T) (d := out.desk) (o := o) (r := out.run) (a := a)
      (b := b) cosine x ⟨trivial, trivial⟩
    have hdesk := (DeskSteps.keeps h.desk hsteps).1
    have hreport := h.report.processPair (E := E) cosine h.desk ha hb hgroup x
    generalize processPair E T o out.desk out.run cosine x a b = next at hres hdesk hreport
    -- both kinds of merge leave everything but the loser as it was
    have hmerged : ∀ {w l : AtomRow}, IsPick a b (w, l) → DeskMerge out.desk next.desk l.id w.id → R l.id w.id →
        next.thrown = none →
        next.run.invalidatedThisRun = out.run.invalidatedThisRun ++ [l.id] → ScanOk T o R atoms d next := by
      intro w l hp hm hRl ht hi
      have hwl : w.id ≠ l.id := hp.allowed (M := (· ≠ ·)) ⟨hne, hne.symm⟩
      refine ⟨hdesk, h.merges.tail (Or.inr ⟨_, _, hm, hwl, hRl⟩), fun y => ?_, (fun e he => by rw [ht] at he; cases he), hreport⟩
      rw [hm.current, h.current, hi, List.mem_append, not_or, List.mem_singleton, and_assoc]
    cases hres with
    | still hd hi hm haa ht =>
      refine ⟨hdesk, h.merges.tail (Or.inl hd), fun y => ?_, fun e he => ?_, hreport⟩
      · rw [hd.current, h.current, hi]
      · refine (ht e he).resolve_right fun hn => hn ⟨?_, ?_⟩
        · exact (h.current a.id).2 ⟨hloaded a ha, hga⟩
        · exact (h.current b.id).2 ⟨hloaded b hb, hgb⟩
    | merged hp hd ht hi hm haa hg => exact hmerged hp hd (hR _ _ hp (Or.inl ⟨u, v, _, hg⟩)) ht hi
    | accepted hp hd ht hi hm haa hg => exact hmerged hp hd (hR _ _ hp (Or.inr ⟨u, v, hg⟩)) ht hi

theorem ScanOk.note {atoms : List AtomRow} {out : Outcome} (h : ScanOk T o R atoms d out) {f : Summary → Summary}
    (hf : ∀ s : Summary, (f s).merged = s.merged ∧ (f s).autoAccepted = s.autoAccepted) :
    ScanOk T o R atoms d { out with run := out.run.noting f } := by
  obtain ⟨hm, ha⟩ := hf out.run.summary
  refine ⟨h.desk, h.merges, h.current, h.thrown, ?_, ?_, ?_, h.report.once, ?_, ?_⟩
  · exact hm ▸ h.report.merged
  · exact ha ▸ h.report.accepted
  · simp only [Run.noting, hm, ha]
    exact h.report.losers
  · exact hm ▸ h.report.mergedLater
  · exact ha ▸ h.report.acceptedLater

/-- a loaded atom is a current memory with its text -/
theorem loaded_row (hok : DeskOk AnyPair d) {pageSize : ℕ} {stop : Option ℕ} {a : AtomRow}
    (h : a ∈ loadAtomsSetupBounded d.store pageSize stop) :
    ∃ m, findRow d.store a.id = some m ∧ m.validTo = none ∧ a = atomRow m := by
  obtain ⟨m, hm, hv, -, rfl⟩ := mem_loadAtoms h
  exact ⟨m, findRow_of_mem hok.rows hm, hv, rfl⟩

/-- the scan of the loaded atoms -/
theorem scan_ok (cosine : V → V → ℚ) (input : RunInput V) (hok : DeskOk AnyPair d) (cursor : CursorRow)
    (summary : Summary) (hm : summary.merged = [])
    (ha : summary.autoAccepted = []) {atoms : List AtomRow}
    (hatoms : atoms = loadAtomsSetupBounded d.store input.pageSize (input.loadStop.map (·.1)))
    (hR : ∀ w ∈ atoms, ∀ l ∈ atoms,
      (∃ u v reason, MergeGround T o (cosine u v) w l reason) ∨ (∃ u v, AcceptGround T o (cosine u v) w l) → R l.id w.id) :
    ScanOk T o R atoms d (scanGroups E T o cosine input 0 { out := ⟨d, { summary }, none⟩ }
      (groupOrder o.maxCandidatePairsPerRun.isSome cursor (groupAtoms atoms))).out := by
  have hids : (atoms.map (·.id)).Nodup := hatoms ▸ loadAtoms_nodup hok.rows _ _
  have hloaded : ∀ a ∈ atoms, Current d.store a.id := by
    intro a hmem
    obtain ⟨m, hrow, hv, -⟩ := loaded_row hok (hatoms ▸ hmem)
    exact .of_row hrow hv
  refine scanGroups_inv (I := ScanOk T o R atoms d) (fun g hg p hp out x h _ => ?_) (fun out f h hf => h.note hf) 0 ?_ rfl
  · have hg' := (groupOrder_perm cursor).mem_iff.1 hg
    obtain ⟨h1, h2, hne, hgroup⟩ := candidatePairs_ok hids hg' hp
    refine h.pair hloaded h1 h2 hne hgroup (fun w l hpick hground => ?_) x
    rcases hpick with heq | heq
    · obtain ⟨rfl, rfl⟩ := Prod.mk.inj heq
      exact hR _ h1 _ h2 hground
    · obtain ⟨rfl, rfl⟩ := Prod.mk.inj heq
      exact hR _ h2 _ h1 hground
  · exact ⟨hok, .refl, fun x => by simp, (fun e he => by cases he),
      (runOk_fresh hm ha).mono (fun _ hx => absurd hx List.not_mem_nil) fun _ he => he⟩

/-! ## The sweeps of a run -/

section
variable (E T o)

/-- the desk behind the containment sweep -/
def sweptDesk (d : Desk) : Desk := if o.autoMergeContained then (sweepContainedProposals E T d).desk else d

end

theorem sweptDesk_steps {M : AtomId → AtomId → Prop} (hok : DeskOk M d) : DeskSteps E M d (sweptDesk E T o d) := by
  unfold sweptDesk
  split_ifs
  · exact sweep_steps hok
  · exact .refl

/-- the containment sweep merges where the winner's text covers the loser's -/
theorem sweepOne_merges (hok : DeskOk (· ≠ ·) d) {acc : Swept} (hacc : DeskSteps E (· ≠ ·) d acc.desk)
    (hm : MergesBy R d acc.desk)
    {r : SweepRow} (hr : r ∈ sweepRows d)
    (hR : Covers T r.winner.text r.loser.text → R r.proposal.loserId r.proposal.winnerId) :
    MergesBy R d (sweepOne E T acc r).desk := by
  have hok' := (DeskSteps.keeps hok hacc).1
  have hfollows := (DeskSteps.keeps hok hacc).2.1
  unfold sweepOne
  dsimp only
  split_ifs with hstale hdone hnone hguard
  · exact hm.tail (Or.inl ⟨rfl, rfl⟩)
  · exact hm.tail (Or.inl ⟨rfl, rfl⟩)
  · exact hm
  · exact hm.tail (Or.inl ⟨rfl, rfl⟩)
  · split
    · exact hm
    next h =>
      obtain ⟨p, hp, hid, -, hne, hmerge⟩ := accept_merge hok'.queue h
      have hlater := hfollows.later hok'.queue.ids (mem_sweepRows.1 hr).1 hp hid
      rw [hlater.loser_eq, hlater.winner_eq] at hne hmerge
      refine hm.tail (Or.inr ⟨_, _, hmerge, hne, hR ?_⟩)
      cases hc : containment T r.winner.text r.loser.text with
      | none => exact absurd (by rw [hc]; rfl) hnone
      | some c => exact (containment_covers hc).1 fun heq => hnone (by rw [hc, heq]; rfl)

/-- the text of `b` covers that of `a` -/
def TextCovers (T : TextTables) (d : Desk) (a b : AtomId) : Prop :=
  a = b ∨ ∃ m n, findRow d.store a = some m ∧ findRow d.store b = some n ∧ Covers T n.text m.text

theorem sweptDesk_merges (hok : DeskOk (· ≠ ·) d) : MergesBy (TextCovers T d) d (sweptDesk E T o d) := by
  unfold sweptDesk
  split_ifs
  · refine (List.foldlRecOn (motive := fun acc : Swept => DeskSteps E (· ≠ ·) d acc.desk ∧
        MergesBy (TextCovers T d) d acc.desk) (sweepRows d) (sweepOne E T) ⟨.refl, .refl⟩ fun acc hacc r hr => ⟨sweepOne_steps hok hacc.1 hr, ?_⟩).2
    obtain ⟨-, -, hwin, hlose⟩ := mem_sweepRows.1 hr
    exact sweepOne_merges hok hacc.1 hacc.2 hr fun hcovers => Or.inr ⟨_, _, hlose, hwin, hcovers⟩
  · exact .refl

/-- a dry run of the judge leaves the desk as it is -/
theorem dupJudge_dryRun {j : DupJudge} (hj : j.mode = .dryRun) (propose merge : ℚ) (answers : ℕ → BatchAnswer) (d : Desk) :
    (runDupJudgeSweep E j propose merge answers d).desk = d := by
  have hone : ∀ (acc : DupSwept) (r : SweepRow) (v : DupVerdict), (dupJudgeOne E j acc r v).desk = acc.desk := by
    intro acc r v
    simp only [dupJudgeOne, hj]
  have hbatch : ∀ (acc : DupSwept) (batch : List (SweepRow × ℕ)) (answer : BatchAnswer),
      (dupJudgeBatch E j acc batch answer).desk = acc.desk := by
    intro acc batch answer
    refine List.foldlRecOn (motive := fun u : DupSwept => u.desk = acc.desk) batch _ rfl fun u hu row _ => ?_
    split
    · exact hu
    · exact (hone u row.1 _).trans hu
  have hbatches : ∀ (batches : List (List (SweepRow × ℕ))) (acc : DupSwept),
      (dupJudgeBatches E j answers acc batches).desk = acc.desk := by
    intro batches
    induction batches with
    | nil => exact fun acc => rfl
    | cons batch batches ih =>
      intro acc
      unfold dupJudgeBatches
      split_ifs
      · rfl
      · rfl
      · exact (ih _).trans (hbatch acc batch _)
  exact hbatches _ _

/-! ## The run -/

theorem finishRun_fields (answers : ℕ → BatchAnswer) (cursor : CursorRow) (s : Summary) :
    (finishRun E o answers d cursor s).thrown = none ∧ (finishRun E o answers d cursor s).cursor = cursor ∧
      (finishRun E o answers d cursor s).summary.merged = s.merged ∧
      (finishRun E o answers d cursor s).summary.autoAccepted = s.autoAccepted ∧
      ((∀ j ∈ o.dupJudge, j.mode = .dryRun) → (finishRun E o answers d cursor s).desk = d) := by
  unfold finishRun
  cases hj : o.dupJudge with
  | none => exact ⟨rfl, rfl, rfl, rfl, fun _ => rfl⟩
  | some j => exact ⟨rfl, rfl, rfl, rfl, fun h => dupJudge_dryRun (h j rfl) _ _ _ _⟩

/-- what a run loads -/
def runAtoms (E : Env) (T : TextTables) (o : Options) (input : RunInput V) (d : Desk) : List AtomRow :=
  if input.loadStop.isSome then []
  else loadAtomsSetupBounded (sweptDesk E T o d).store input.pageSize (input.loadStop.map (·.1))

/-- **A run taken apart**: it is skipped, or it is the sweep, a scan that keeps `ScanOk`, and the judge. -/
theorem runConsolidation_cases (cosine : V → V → ℚ) (input : RunInput V) (hok : DeskOk AnyPair d) (cursor : CursorRow) :
    (input.skip = true ∧ runConsolidation E T o cosine input d cursor = ⟨d, cursor, {}, none⟩) ∨
      ∃ out : Outcome,
        (∀ R : AtomId → AtomId → Prop, (∀ w ∈ runAtoms E T o input d, ∀ l ∈ runAtoms E T o input d,
            (∃ u v reason, MergeGround T o (cosine u v) w l reason) ∨ (∃ u v, AcceptGround T o (cosine u v) w l) → R l.id w.id) →
          ScanOk T o R (runAtoms E T o input d) (sweptDesk E T o d) out) ∧
        ((∃ e, out.thrown = some e ∧
            runConsolidation E T o cosine input d cursor = ⟨out.desk, cursor, out.run.summary, some e⟩) ∨
          ∃ next stopped, runConsolidation E T o cosine input d cursor =
            finishRun E o input.answers out.desk next { out.run.summary with resumeCursorUpdated := stopped }) := by
  by_cases hskip : input.skip = true
  · left
    exact ⟨hskip, by rw [runConsolidation, if_pos hskip]⟩
  · right
    have hswept : (if o.autoMergeContained then sweepContainedProposals E T d else { desk := d }).desk =
        sweptDesk E T o d := by
      unfold sweptDesk
      split_ifs <;> rfl
    have hokswept := (DeskSteps.keeps hok (sweptDesk_steps (E := E) (T := T) (o := o) hok)).1
    rw [runConsolidation, if_neg hskip]
    generalize (if o.autoMergeContained then sweepContainedProposals E T d else { desk := d } : Swept) = swept at hswept
    dsimp only
    rw [hswept]
    by_cases hload : input.loadStop.isSome = true
    · rw [if_pos hload, runAtoms, if_pos hload]
      refine ⟨⟨sweptDesk E T o d, { summary := setupSummary input swept }, none⟩, fun R hR => ?_, Or.inr ⟨_, _, rfl⟩⟩
      exact ⟨hokswept, .refl, fun x => by simp, (fun e he => by cases he), runOk_fresh rfl rfl⟩
    · rw [if_neg hload, runAtoms, if_neg hload]
      refine ⟨_, fun R hR => scan_ok (E := E) cosine input hokswept cursor
        (setupSummary input swept) rfl rfl rfl hR, ?_⟩
      split
      next e he => exact Or.inl ⟨e, he, rfl⟩
      next => exact Or.inr ⟨_, _, rfl⟩

theorem TextCovers.trans {a b c : AtomId} (h : TextCovers T d a b) (h' : TextCovers T d b c) : TextCovers T d a c := by
  rcases h with rfl | ⟨m, n, hm, hn, hmn⟩
  · exact h'
  · rcases h' with rfl | ⟨n', k, hn', hk, hnk⟩
    · exact Or.inr ⟨m, n, hm, hn, hmn⟩
    · rw [hn, Option.some.injEq] at hn'
      subst hn'
      exact Or.inr ⟨m, k, hm, hk, hnk.trans hmn⟩

/-- the text of a loaded atom is that of its row before the sweep -/
theorem runAtoms_row (hok : DeskOk (· ≠ ·) d) {a : AtomRow} (h : a ∈ runAtoms E T o input d) :
    ∃ m, findRow d.store a.id = some m ∧ m.text = a.text := by
  have hany : DeskOk AnyPair d := hok.mono fun _ _ _ => trivial
  have hokswept := (DeskSteps.keeps hany (sweptDesk_steps (E := E) (T := T) (o := o) hany)).1
  unfold runAtoms at h
  split_ifs at h
  · cases h
  · obtain ⟨m, hm, -, ha⟩ := loaded_row hokswept h
    have htext := (sweptDesk_merges (E := E) (T := T) (o := o) hok).texts a.id
    rw [hm, Option.map_some] at htext
    obtain ⟨n, hn, hnm⟩ := Option.map_eq_some_iff.1 htext.symm
    exact ⟨n, hn, hnm.trans (by rw [ha]; rfl)⟩

variable (E T o cosine input)

/-- **The report is exact.** Where the judge of duplicates does not act, a memory is current behind the run exactly when
it was behind the containment sweep and the report names it as no loser; each loser is named once, with its ground. -/
theorem run_exact (sessions : List SessionId) (before : List (Move V)) (cursor : CursorRow)
    (hjudge : ∀ j ∈ o.dupJudge, j.mode = .dryRun) (hgo : input.skip = false) :
    let d := (moves E T cosine (newSys sessions) before).desk
    let c := runConsolidation E T o cosine input d cursor
    c.thrown = none →
      ∃ losers : List AtomId, losers.Nodup ∧
        losers.Perm (c.summary.merged.map (·.1.loser) ++ c.summary.autoAccepted.map (·.1.loser)) ∧
        (∀ x, Current c.desk.store x ↔ Current (sweptDesk E T o d).store x ∧ x ∉ losers) ∧
        (∀ e ∈ c.summary.merged, e.1.Backed (runAtoms E T o input d) c.desk fun w l =>
          MergeGround T o e.1.similarity w l e.2) ∧
        (∀ e ∈ c.summary.autoAccepted, e.1.Backed (runAtoms E T o input d) c.desk fun w l =>
          AcceptGround T o e.1.similarity w l) := by
  intro d c hthrown
  obtain ⟨hok, -, -⟩ := moves_keeps (E := E) (T := T) cosine (newSys_ok sessions) before
  rcases runConsolidation_cases (E := E) (T := T) (o := o) cosine input hok cursor with
    ⟨hskip, -⟩ | ⟨out, hscan, ⟨e', he', hrun⟩ | ⟨next, stopped, hrun⟩⟩
  · rw [hgo] at hskip
    cases hskip
  · rw [show c = _ from hrun] at hthrown
    cases hthrown
  · obtain ⟨-, -, hm, ha, hdesk⟩ := finishRun_fields (E := E) (o := o) (d := out.desk) input.answers next
      { out.run.summary with resumeCursorUpdated := stopped }
    have hscan := hscan (fun _ _ => True) fun _ _ _ _ _ => trivial
    have hc : c = _ := hrun
    rw [hc, hm, ha, hdesk hjudge]
    exact ⟨out.run.invalidatedThisRun, hscan.report.once, hscan.report.losers, hscan.current, hscan.report.merged,
      hscan.report.accepted⟩

/-- vectors for the two facts about a port -/
def portInput : RunInput Unit := { vecs := fun _ => some () }

def portDesk : Desk := (portSys []).desk

/-- the shorter fact is the one that is gone -/
theorem run_exact_port : ∃ losers : List AtomId, losers.Perm [2] ∧
    ∀ x, Current (runConsolidation countingEnv asciiText {} portCosine portInput portDesk none).desk.store x ↔
      Current (sweptDesk countingEnv asciiText {} portDesk).store x ∧ x ∉ losers := by
  have hm : (runConsolidation countingEnv asciiText {} portCosine portInput portDesk none).summary.merged =
      [(⟨0, 2, 9 / 10⟩, .contained)] := by decide +kernel
  have ha : (runConsolidation countingEnv asciiText {} portCosine portInput portDesk none).summary.autoAccepted = [] := by
    decide +kernel
  obtain ⟨losers, -, hperm, hcurrent, -⟩ := run_exact countingEnv asciiText {} portCosine portInput [] portFacts none
    (fun j hj => by cases hj) rfl (by decide +kernel)
  change losers.Perm ((runConsolidation countingEnv asciiText {} portCosine portInput portDesk none).summary.merged.map
    (·.1.loser) ++ (runConsolidation countingEnv asciiText {} portCosine portInput portDesk none).summary.autoAccepted.map
    (·.1.loser)) at hperm
  rw [hm, ha] at hperm
  exact ⟨losers, hperm, hcurrent⟩

section
variable {E : Env} {T : TextTables} {o : Options} {cosine : V → V → ℚ} {input : RunInput V}

/-- the groups a run has begun or passed over -/
def Run.groups (r : Run) : ℕ := r.summary.groupsScanned + r.summary.groupsSkipped.length

theorem mergeTier_groups {r : Run} {a b : AtomRow} {pick : AtomRow × AtomRow} {sim : ℚ} {reason : MergeReason} :
    (mergeTier E d r a b pick sim reason).run.groups = r.groups := by
  unfold mergeTier
  dsimp only
  split_ifs
  · split <;> rfl
  · split <;> rfl

theorem proposeTier_groups {r : Run} {pick : AtomRow × AtomRow} {sim : ℚ} :
    (proposeTier E o d r pick sim).run.groups = r.groups := by
  unfold proposeTier
  dsimp only
  split
  · rfl
  · rfl
  · split
    · rfl
    · split <;> rfl

theorem classifyPair_groups {r : Run} {usefulness : AtomId → Option ℚ} {a b : AtomRow} {sim : ℚ} :
    (classifyPair E T o d r usefulness a b sim).run.groups = r.groups := by
  unfold classifyPair
  dsimp only
  generalize (if o.autoMergeContained = true then containment T a.text b.text else none) = contained
  by_cases hlow : sim < o.proposeThreshold
  · rw [if_pos hlow]
  · rw [if_neg hlow]
    cases contained with
    | some c => exact mergeTier_groups
    | none =>
      dsimp only
      split_ifs
      · exact mergeTier_groups
      · exact proposeTier_groups

theorem contradictionTier_groups {r : Run} {c : ContradictionDetection} {a b : AtomRow} {sim : ℚ} {v : JudgeVerdict} :
    (contradictionTier E d r c a b sim v).run.groups = r.groups := by
  unfold contradictionTier
  dsimp only
  split
  · rfl
  · split <;> rfl

theorem processPair_groups {r : Run} {x : PairInput V} {a b : AtomRow} :
    (processPair E T o d r cosine x a b).run.groups = r.groups := by
  unfold processPair
  split_ifs
  · rfl
  · split
    · dsimp only
      split
      · unfold judgePair
        dsimp only
        split_ifs
        · exact classifyPair_groups
        · exact classifyPair_groups
        · exact contradictionTier_groups
        · rfl
        · exact classifyPair_groups
      · exact classifyPair_groups
    · rfl

theorem scanPairs_groups (cosine : V → V → ℚ) (input : RunInput V) (gi : ℕ) (stop : Option ℕ) (pairs : List Pair) (n : ℕ) (out : Outcome) :
    (scanPairs E T o cosine input gi stop n out pairs).1.run.groups = out.run.groups := by
  induction pairs generalizing n out with
  | nil => rfl
  | cons p pairs ih =>
    unfold scanPairs
    dsimp only
    split_ifs
    · exact processPair_groups
    · exact processPair_groups
    · exact (ih _ _).trans processPair_groups

/-- the scan of `size` groups from number `gi` on counted each it attempted, and stopped at the last of them or came
through -/
def Scanned.Counts (gi size before : ℕ) (e : Scanned) : Prop :=
  e.stoppedAt = none ∧ e.out.run.groups = before + size ∨
    ∃ k < size, e.stoppedAt = some (gi + k) ∧ e.out.run.groups = before + (k + 1)

theorem Scanned.Counts.here {gi size before : ℕ} {e : Scanned} (hstop : e.stoppedAt = some gi)
    (hgroups : e.out.run.groups = before + 1) : e.Counts gi (size + 1) before :=
  Or.inr ⟨0, Nat.succ_pos _, hstop, hgroups⟩

theorem Scanned.Counts.behind {gi size before : ℕ} {e : Scanned} (h : e.Counts (gi + 1) size (before + 1)) :
    e.Counts gi (size + 1) before := by
  rcases h with ⟨hstop, hgroups⟩ | ⟨k, hk, hstop, hgroups⟩
  · exact Or.inl ⟨hstop, by omega⟩
  · exact Or.inr ⟨k + 1, by omega, by rw [hstop]; congr 1; omega, by omega⟩

theorem scanGroups_counts (cosine : V → V → ℚ) (input : RunInput V) (groups : List GroupEntry) (gi : ℕ) (st : Scanned) (hst : st.stoppedAt = none) :
    (scanGroups E T o cosine input gi st groups).out.thrown = none →
      (scanGroups E T o cosine input gi st groups).Counts gi groups.length st.out.run.groups := by
  induction groups generalizing gi st with
  | nil => exact fun _ => Or.inl ⟨hst, rfl⟩
  | cons g groups ih =>
    have hbegun : (st.noting fun s => { s with groupsScanned := s.groupsScanned + 1 }).out.run.groups =
        st.out.run.groups + 1 := Nat.add_right_comm _ _ _
    rw [List.length_cons]
    unfold scanGroups
    split_ifs with hskip
    · have hpassed : (st.noting fun s => { s with groupsSkipped := s.groupsSkipped ++
          [((g.atoms.head?.bind (·.repo)), g.key.2, g.atoms.length)] }).out.run.groups = st.out.run.groups + 1 := by
        simp only [Run.groups, Scanned.noting, Run.noting, List.length_append, List.length_singleton]
        omega
      exact fun hnone => .behind (hpassed ▸ ih _ _ hst hnone)
    · dsimp only
      split
      · exact fun _ => .here rfl hbegun
      · exact fun _ => .here rfl hbegun
      · have hscan := scanPairs_groups (E := E) (T := T) (o := o) cosine input gi
          ((input.groupStop gi).bind (·.pair?)) (candidatePairs o input g.atoms) 0
          (st.noting fun s => { s with groupsScanned := s.groupsScanned + 1 }).out
        split_ifs with hthrown hpre hcap
        · intro hnone
          rw [Option.isSome_iff_ne_none] at hthrown
          exact absurd hnone hthrown
        · exact fun _ => .here rfl (hscan.trans hbegun)
        · exact fun _ => .here rfl (hscan.trans hbegun)
        · exact fun hnone => .behind (hscan.trans hbegun ▸ ih _ _ hst hnone)

theorem finishRun_groups (answers : ℕ → BatchAnswer) (cursor : CursorRow) (s : Summary) :
    (finishRun E o answers d cursor s).summary.groupsScanned = s.groupsScanned ∧
      (finishRun E o answers d cursor s).summary.groupsSkipped = s.groupsSkipped := by
  unfold finishRun
  cases o.dupJudge <;> exact ⟨rfl, rfl⟩

/-- the number of groups a summary counts -/
def Summary.groups (s : Summary) : ℕ := s.groupsScanned + s.groupsSkipped.length

/-- **The cursor of a run** that loaded everything and threw nothing is that of a pass over its groups, and its summary
counts the groups of the pass. -/
theorem runConsolidation_cursor (cosine : V → V → ℚ) (cursor : CursorRow) (hskip : input.skip = false) (hload : input.loadStop = none)
    (hthrown : (runConsolidation E T o cosine input d cursor).thrown = none) :
    let groups := groupAtoms (runAtoms E T o input d)
    let order := groupOrder o.maxCandidatePairsPerRun.isSome cursor groups
    ∃ stop : RunEnd, stop ≠ .loadCut ∧
      (runConsolidation E T o cosine input d cursor).cursor = runCursor o.maxCandidatePairsPerRun.isSome groups cursor stop ∧
      attempted order stop = order.take (runConsolidation E T o cosine input d cursor).summary.groups := by
  intro groups order
  have hdesk : (if o.autoMergeContained then sweepContainedProposals E T d else { desk := d }).desk =
      sweptDesk E T o d := by
    unfold sweptDesk
    split_ifs <;> rfl
  have hatoms : runAtoms E T o input d = loadAtomsSetupBounded (sweptDesk E T o d).store input.pageSize none := by
    rw [runAtoms, hload]
    rfl
  rw [runConsolidation, if_neg (by simp [hskip])] at hthrown ⊢
  generalize (if o.autoMergeContained then sweepContainedProposals E T d else { desk := d } : Swept) = swept
    at hdesk hthrown ⊢
  dsimp only at hthrown ⊢
  rw [hload, Option.isSome_none, Option.map_none, hdesk, ← hatoms] at hthrown ⊢
  rw [if_neg Bool.false_ne_true] at hthrown ⊢
  have hcounts := scanGroups_counts (E := E) (T := T) (o := o) cosine input order 0
    { out := ⟨sweptDesk E T o d, { summary := setupSummary input swept }, none⟩ } rfl
  change _ → Scanned.Counts 0 _ 0 _ at hcounts
  generalize scanGroups E T o cosine input 0 _ _ = st at hcounts hthrown ⊢
  split at hthrown
  · cases hthrown
  next hnone =>
    set next := nextCursor o.maxCandidatePairsPerRun.isSome cursor order st.stoppedAt with hnext
    set s := { st.out.run.summary with resumeCursorUpdated := st.stoppedAt.isSome } with hs
    obtain ⟨-, hcursor, -⟩ := finishRun_fields (E := E) (o := o) (d := st.out.desk) input.answers next s
    obtain ⟨hscanned, hskipped⟩ := finishRun_groups (E := E) (o := o) (d := st.out.desk) input.answers next s
    have hgroups : (finishRun E o input.answers st.out.desk next s).summary.groups = st.out.run.groups := by
      rw [Summary.groups, hscanned, hskipped, hs]
      rfl
    rw [hcursor, hgroups]
    rcases hcounts hnone with ⟨hstop, hcount⟩ | ⟨k, hk, hstop, hcount⟩
    · refine ⟨.finished, by decide, by rw [hnext, hstop]; rfl, ?_⟩
      rw [attempted, hcount, Nat.zero_add, List.take_length]
    · refine ⟨.stoppedAt k, by simp, by rw [hnext, hstop, Nat.zero_add]; rfl, ?_⟩
      rw [attempted, hcount, Nat.zero_add]

end

/-- a call of `runConsolidation` and the state it finds -/
structure RunCall (V : Type) where
  options : Options
  input : RunInput V
  desk : Desk

section
variable (E : Env) (T : TextTables) (cosine : V → V → ℚ)

/-- calls one after the other, each from the cursor the one before left; with each result the cursor it began at -/
def runCalls : CursorRow → List (RunCall V) → List (CursorRow × Consolidated)
  | _, [] => []
  | cursor, c :: calls =>
    let r := runConsolidation E T c.options cosine c.input c.desk cursor
    (cursor, r) :: runCalls r.cursor calls

end

/-- what a call that loads everything finds -/
structure RunCall.Finds (E : Env) (T : TextTables) (c : RunCall V) (ceilingActive : Bool) (groups : List GroupEntry) :
    Prop where
  runs : c.input.skip = false
  loads : c.input.loadStop = none
  ceiling : c.options.maxCandidatePairsPerRun.isSome = ceilingActive
  groups : groupAtoms (runAtoms E T c.options c.input c.desk) = groups

theorem runCalls_passes {ceilingActive : Bool} {groups : List GroupEntry} {E : Env} {T : TextTables} {cosine : V → V → ℚ}
    {calls : List (RunCall V)} (hcalls : ∀ c ∈ calls, c.Finds E T ceilingActive groups) (cursor : CursorRow)
    (hthrown : ∀ x ∈ runCalls E T cosine cursor calls, x.2.thrown = none) :
    ∃ stops : List RunEnd, stops.length = calls.length ∧ (∀ stop ∈ stops, stop ≠ .loadCut) ∧
      passes ceilingActive groups cursor stops = (runCalls E T cosine cursor calls).map fun x =>
        (groupOrder ceilingActive x.1 groups).take x.2.summary.groups := by
  induction calls generalizing cursor with
  | nil => exact ⟨[], rfl, fun stop hstop => absurd hstop List.not_mem_nil, rfl⟩
  | cons c calls ih =>
    have hc := hcalls c List.mem_cons_self
    obtain ⟨stop, hne, hcursor, hattempt⟩ := runConsolidation_cursor (E := E) (T := T) cosine cursor hc.runs
      hc.loads (hthrown _ List.mem_cons_self)
    rw [hc.ceiling, hc.groups] at hcursor hattempt
    obtain ⟨stops, hlen, hload, hpasses⟩ := ih (fun c' hc' => hcalls c' (List.mem_cons_of_mem c hc')) _
      fun x hx => hthrown x (List.mem_cons_of_mem _ hx)
    refine ⟨stop :: stops, by rw [List.length_cons, List.length_cons, hlen], fun s hs => ?_, ?_⟩
    · rcases List.mem_cons.1 hs with rfl | hs
      · exact hne
      · exact hload s hs
    · rw [passes, runCalls, List.map_cons, ← hcursor, hpasses, hattempt]

/-- two runs over the two facts about a port, the first preempted while it prepares the group -/
def portCalls : List (RunCall Unit) :=
  [⟨{}, { portInput with groupStop := fun _ => some .setupPreempted }, portDesk⟩, ⟨{}, portInput, portDesk⟩]

end AstramemLocal.Consolidate
