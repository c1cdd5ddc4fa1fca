/-
What consolidation does to the memories: nothing, or one merge (`DeskStep.merges`). A merge forwards a current memory to
another current one and writes nothing else a reader of either sees, so what was current stays reachable along
superseded_by (`DeskSteps.settles`).
-/
import AstramemLocal.Core.Forwarding
import AstramemLocal.Consolidate.Queue
import AstramemLocal.Daemon.Windows

namespace AstramemLocal.Consolidate

open AstramemLocal.Store AstramemLocal.Daemon AstramemLocal.Core Relation

def Current (s : St) (a : AtomId) : Prop := (findRow s a).any (·.validTo = none) = true

instance (s : St) (a : AtomId) : Decidable (Current s a) := inferInstanceAs (Decidable (_ = _))

theorem Current.row {s : St} {a : AtomId} (h : Current s a) : ∃ m, findRow s a = some m ∧ m.validTo = none := by
  obtain ⟨m, hm, hv⟩ := (Option.any_eq_true _ _).1 h
  exact ⟨m, hm, by simpa using hv⟩

theorem Current.of_row {s : St} {a : AtomId} {m : Memory} (h : findRow s a = some m) (hv : m.validTo = none) :
    Current s a := by
  rw [Current, h]
  simpa using hv

/-- superseded_by as pointers from memory to memory -/
def forwarding (s : St) : Pointers AtomId := ⟨Current s, SupersededBy s⟩

/-- the row of `a` behind a merge of `l` into `w`; a memory may be merged into itself -/
def mergedRow (now now' : Time) (l w a : AtomId) (m : Memory) : Memory :=
  let m := if a = l then { m with validTo := some now, supersededBy := some w, updatedAt := now } else m
  if a = w then { m with validFrom := now, updatedAt := now' } else m

/-- `d'` is `d` with `l` merged into `w` -/
structure DeskMerge (d d' : Desk) (l w : AtomId) : Prop where
  loser : Current d.store l
  winner : Current d.store w
  rows : ∃ now now', ∀ a, findRow d'.store a = (findRow d.store a).map (mergedRow now now' l w a)
  lineage : d'.derivedFrom = Function.update d.derivedFrom w
    (if l ∈ d.derivedFrom w then d.derivedFrom w else d.derivedFrom w ++ [l])
  logged : SupersededInLog d'.store l w

/-- `d'` has the memories of `d` -/
structure DeskStill (d d' : Desk) : Prop where
  rows : d'.store.memories = d.store.memories
  lineage : d'.derivedFrom = d.derivedFrom

variable {E : Env} {M : AtomId → AtomId → Prop} {d d' d'' : Desk} {l w : AtomId}

theorem DeskStill.refl (d : Desk) : DeskStill d d := ⟨rfl, rfl⟩

theorem DeskStill.trans (h : DeskStill d d') (h' : DeskStill d' d'') : DeskStill d d'' :=
  ⟨h'.rows.trans h.rows, h'.lineage.trans h.lineage⟩

theorem DeskStill.findRow_eq (h : DeskStill d d') (a : AtomId) : findRow d'.store a = findRow d.store a :=
  findRow_congr h.rows a

theorem DeskStill.current (h : DeskStill d d') (a : AtomId) : Current d'.store a ↔ Current d.store a := by
  rw [Current, Current, h.findRow_eq]

theorem DeskStill.before (h : DeskStill d d') (hm : DeskMerge d' d'' l w) : DeskMerge d d'' l w where
  loser := (h.current l).1 hm.loser
  winner := (h.current w).1 hm.winner
  rows := by
    obtain ⟨now, now', hrows⟩ := hm.rows
    exact ⟨now, now', fun a => by rw [hrows a, h.findRow_eq]⟩
  lineage := by rw [hm.lineage, h.lineage]
  logged := hm.logged

theorem DeskMerge.after (hm : DeskMerge d d' l w) (h : DeskStill d' d'') (hlog : LogGrows d' d'') :
    DeskMerge d d'' l w where
  loser := hm.loser
  winner := hm.winner
  rows := by
    obtain ⟨now, now', hrows⟩ := hm.rows
    exact ⟨now, now', fun a => by rw [h.findRow_eq, hrows a]⟩
  lineage := by rw [h.lineage, hm.lineage]
  logged := hm.logged.grow hlog

/-! ## Every step is still or a merge -/

/-- what `supersede` leaves of the rows -/
theorem supersede_rows {s t : St} {p : Option SupersedeProvenance} {src : CorrectionSource}
    (h : supersede E s l w p src = .ok t) : Current s l ∧ Current s w ∧
      ∀ a, findRow t a = (findRow s a).map (mergedRow (E.now s.clock) (E.now s.clock) l w a) := by
  obtain ⟨row, wrow, hrow, hv, hw, hwv, rfl⟩ := Store.supersede_ok h
  refine ⟨.of_row hrow hv, .of_row hw hwv, fun a => ?_⟩
  rw [findRow_append, findRow_append, findRow_dropRelations, findRow_unlinkMemory,
    findRow_updateRow _ w a (by intro _; rfl), findRow_updateRow _ l a (by intro _; rfl), findRow_tick, Option.map_map]
  rfl

theorem mergeAsSupersede_merge {p : Option SupersedeProvenance} {src : CorrectionSource}
    (h : mergeAsSupersede E d w l p src = .ok d') : DeskMerge d d' l w := by
  have hlog := mergeAsSupersede_log h
  obtain ⟨s, hs, rfl⟩ := mergeAsSupersede_ok h
  obtain ⟨hl, hw, hrows⟩ := supersede_rows hs
  refine ⟨hl, hw, ⟨E.now d.store.clock, E.now s.clock, fun a => ?_⟩, rfl, hlog⟩
  dsimp only
  rw [findRow_updateRow _ w a (by intro _; rfl), findRow_tick, hrows a, Option.map_map]
  refine congrArg (Option.map · _) (funext fun m => ?_)
  simp only [Function.comp, mergedRow]
  by_cases hw : a = w
  · rw [if_pos hw, if_pos hw, if_pos hw]
  · rw [if_neg hw, if_neg hw, if_neg hw]

/-- a merge goes through when both memories are current -/
theorem mergeAsSupersede_succeeds (p : Option SupersedeProvenance) (src : CorrectionSource) (hl : Current d.store l)
    (hw : Current d.store w) : ∃ d', mergeAsSupersede E d w l p src = .ok d' := by
  obtain ⟨s, hs⟩ := Daemon.supersede_ok (E := E) (p := p) ⟨hl, hw⟩
  exact ⟨_, by rw [mergeAsSupersede, hs]⟩

theorem markBulkAccepted_still (d : Desk) (l : AtomId) : DeskStill d (markBulkAccepted d l) := by
  unfold markBulkAccepted
  split <;> exact ⟨rfl, rfl⟩

theorem accept_merge {id : ProposalId} {prov : Option SupersedeProvenance} {opts : AcceptOpts} (hq : QueueOk M d)
    (h : accept E d id prov opts = .ok d') :
    ∃ p ∈ d.proposals, p.id = id ∧ p.status = .pending ∧ M p.winnerId p.loserId ∧ DeskMerge d d' p.loserId p.winnerId := by
  obtain ⟨p, u, hget, hpending, hu, rfl⟩ := accept_ok h
  obtain ⟨hmem, hid⟩ := get_id hget
  have hmerge := mergeAsSupersede_merge hu
  refine ⟨p, hmem, hid, hpending, hq.two p hmem, ?_⟩
  split_ifs
  · refine hmerge.after ((markBulkAccepted_still u p.loserId).trans ⟨rfl, rfl⟩) fun e he => ?_
    have hstore := (markBulkAccepted_store u p.loserId).1
    rwa [← hstore] at he
  · exact hmerge.after ⟨rfl, rfl⟩ fun _ he => he

/-- **Inversion.** What a step does to the memories. -/
theorem DeskStep.merges (hq : QueueOk M d) (h : DeskStep E M d d') :
    DeskStill d d' ∨ ∃ l w, M w l ∧ DeskMerge d d' l w := by
  cases h with
  | noted => exact Or.inl ⟨rfl, rfl⟩
  | inserted => exact Or.inl ⟨rfl, rfl⟩
  | merged hM h => exact Or.inr ⟨_, _, hM, mergeAsSupersede_merge h⟩
  | accepted h =>
    obtain ⟨p, -, -, -, hM, hmerge⟩ := accept_merge hq h
    exact Or.inr ⟨_, _, hM, hmerge⟩
  | rejected h =>
    obtain ⟨p, -, -, rfl⟩ := reject_ok h
    exact Or.inl ⟨rfl, rfl⟩
  | closed => exact Or.inl ⟨rfl, rfl⟩
  | annotated => exact Or.inl ⟨rfl, rfl⟩

/-! ## Nothing current is lost -/

theorem DeskMerge.row (h : DeskMerge d d' l w) {a : AtomId} {m : Memory} (hm : findRow d.store a = some m) :
    ∃ m', findRow d'.store a = some m' ∧ (a ≠ l → m'.validTo = m.validTo ∧ m'.supersededBy = m.supersededBy) ∧
      (a = l → m'.validTo ≠ none ∧ m'.supersededBy = some w) ∧
      m'.repo = m.repo ∧ m'.type = m.type ∧ m'.text = m.text ∧ m'.id = m.id := by
  obtain ⟨now, now', hrows⟩ := h.rows
  refine ⟨mergedRow now now' l w a m, by rw [hrows a, hm, Option.map_some], ?_⟩
  unfold mergedRow
  dsimp only
  split_ifs with hw hl hl
  · exact ⟨fun hn => absurd hl hn, fun _ => ⟨by simp, rfl⟩, rfl, rfl, rfl, rfl⟩
  · exact ⟨fun _ => ⟨rfl, rfl⟩, fun h => absurd h hl, rfl, rfl, rfl, rfl⟩
  · exact ⟨fun hn => absurd hl hn, fun _ => ⟨by simp, rfl⟩, rfl, rfl, rfl, rfl⟩
  · exact ⟨fun _ => ⟨rfl, rfl⟩, fun h => absurd h hl, rfl, rfl, rfl, rfl⟩

theorem DeskMerge.forwards (h : DeskMerge d d' l w) (hne : w ≠ l) :
    Forwards (forwarding d.store) (forwarding d'.store) l w where
  ne := hne
  target := h.winner
  live a hne ha := by
    obtain ⟨m, hm, hv⟩ := ha.row
    obtain ⟨m', hm', hsame, -⟩ := h.row hm
    exact .of_row hm' ((hsame hne).1.trans hv)
  next a b hne hb := by
    obtain ⟨m, hm, hb⟩ := hb
    obtain ⟨m', hm', hsame, -⟩ := h.row hm
    exact ⟨m', hm', (hsame hne).2.trans hb⟩
  link := by
    obtain ⟨m, hm, -⟩ := h.loser.row
    obtain ⟨m', hm', -, hgone, -⟩ := h.row hm
    exact ⟨m', hm', (hgone rfl).2⟩

/-- the loser of a merge is not current any more, every other memory is current as before -/
theorem DeskMerge.current (h : DeskMerge d d' l w) (a : AtomId) : Current d'.store a ↔ Current d.store a ∧ a ≠ l := by
  obtain ⟨now, now', hrows⟩ := h.rows
  rw [Current, Current, hrows a]
  cases hm : findRow d.store a with
  | none => simp
  | some m =>
    obtain ⟨m', hm', hsame, hgone, -⟩ := h.row hm
    rw [hrows a, hm] at hm'
    rw [hm', Option.any_some, Option.any_some, decide_eq_true_eq, decide_eq_true_eq]
    by_cases hl : a = l
    · exact iff_of_false (hgone hl).1 fun hc => hc.2 hl
    · rw [(hsame hl).1, and_iff_left hl]

theorem forwarding_still (h : DeskStill d d') : forwarding d'.store = forwarding d.store := by
  have hrows : findRow d'.store = findRow d.store := funext h.findRow_eq
  unfold forwarding SupersededBy Current
  rw [hrows]

/-- **Conservation.** What settled in a current memory does so behind any sequence of steps that never pairs a memory with
itself. -/
theorem DeskSteps.settles (hok : DeskOk (· ≠ ·) d) (h : DeskSteps E (· ≠ ·) d d') {a : AtomId}
    (ha : (forwarding d.store).Settles (fun _ _ => True) a) : (forwarding d'.store).Settles (fun _ _ => True) a := by
  induction h with
  | refl => exact ha
  | tail hsteps hstep ih =>
    rcases hstep.merges (DeskSteps.keeps hok hsteps).1.queue with hstill | ⟨l, w, hne, hmerge⟩
    · exact forwarding_still hstill ▸ ih
    · exact (hmerge.forwards hne).settles trivial ih

/-! ## The lineage -/

/-- the lineage of a memory holds no id twice and only ids the log says it superseded -/
def LineageOk (d : Desk) : Prop := ∀ w, (d.derivedFrom w).Nodup ∧ ∀ l ∈ d.derivedFrom w, SupersededInLog d.store l w

theorem DeskStep.lineage (hok : DeskOk M d) (hl : LineageOk d) (h : DeskStep E M d d') :
    LineageOk d' ∧ ∀ w, d.derivedFrom w <+: d'.derivedFrom w := by
  obtain ⟨-, -, hlog⟩ := h.keeps hok
  rcases h.merges hok.queue with hstill | ⟨l, w, -, hmerge⟩
  · rw [LineageOk, hstill.lineage]
    exact ⟨fun x => ⟨(hl x).1, fun a ha => ((hl x).2 a ha).grow hlog⟩, fun x => List.prefix_rfl⟩
  · refine ⟨fun x => ?_, fun x => ?_⟩
    · rw [hmerge.lineage]
      by_cases hx : x = w
      · subst hx
        rw [Function.update_self]
        split_ifs with hmem
        · exact ⟨(hl x).1, fun a ha => ((hl x).2 a ha).grow hlog⟩
        · refine ⟨List.nodup_append.2 ⟨(hl x).1, List.nodup_singleton l, fun a ha b hb => ?_⟩, fun a ha => ?_⟩
          · rintro rfl
            rw [List.mem_singleton] at hb
            exact hmem (hb ▸ ha)
          · rcases List.mem_append.1 ha with hold | hnew
            · exact ((hl x).2 a hold).grow hlog
            · rw [List.mem_singleton.1 hnew]
              exact hmerge.logged
      · rw [Function.update_of_ne hx]
        exact ⟨(hl x).1, fun a ha => ((hl x).2 a ha).grow hlog⟩
    · rw [hmerge.lineage]
      by_cases hx : x = w
      · subst hx
        rw [Function.update_self]
        split_ifs
        · exact List.prefix_rfl
        · exact List.prefix_append _ _
      · rw [Function.update_of_ne hx]

theorem DeskSteps.lineage (hok : DeskOk M d) (hl : LineageOk d) (h : DeskSteps E M d d') :
    LineageOk d' ∧ ∀ w, d.derivedFrom w <+: d'.derivedFrom w := by
  induction h with
  | refl => exact ⟨hl, fun w => List.prefix_rfl⟩
  | tail hsteps hstep ih =>
    obtain ⟨hl, hgrow⟩ := ih
    obtain ⟨hl', hgrow'⟩ := hstep.lineage (DeskSteps.keeps hok hsteps).1 hl
    exact ⟨hl', fun w => (hgrow w).trans (hgrow' w)⟩

end AstramemLocal.Consolidate
