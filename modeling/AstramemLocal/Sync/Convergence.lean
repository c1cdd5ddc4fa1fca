/-
ADR-011 convergence: two devices that receive the same events, in batches and orders of their own.
* `Outcome L a base p` says what conflict resolution makes of the projection `base` of an atom whose events are `L`. It
  speaks of membership only, and determines `p` (`Outcome.unique`) unless the atom is `Mixed`.
* `Synced`: along the pulls of one device, the projection of an atom no fork chains is the outcome of the events so far
  (`synced_pull`, `synced_pulls`).
* `pulls_converge`: so two devices agree on every such atom.
* `fork_loser_diverges`: they do not agree on the loser of a fork. Its synthetic supersede event carries the clock of
  the device that merged it.
-/
import AstramemLocal.Sync.ForkTrace
import AstramemLocal.Sync.PullSpec

namespace AstramemLocal.Sync

open AstramemLocal.Store AstramemLocal.Core

/-! ## What a log makes of a projection -/

abbrev Projection := Option Time × Option AtomId

def rowProjection (m : Memory) : Projection := (m.validTo, m.supersededBy)

/-- existence, `valid_to` and `superseded_by` of an atom -/
def projection (s : St) (a : AtomId) : Option Projection := (findRow s a).map rowProjection

section
variable (L : List EventRecord) (a : AtomId)

/-- an invalidate among supersede events none of which names a winner -/
def Mixed : Prop := (∃ e, Supersedes L a e) ∧ (∃ e, Invalidates L a e) ∧ ∀ r, ¬ Names L a r

/-- what conflict resolution has not touched yet -/
structure Kept (base p : Projection) : Prop where
  winner : (∀ r, ¬ Names L a r) → p.2 = base.2
  validTo : (∀ r, ¬ Names L a r) → (∀ e, ¬ Invalidates L a e) → p.1 = base.1

structure Outcome (base p : Projection) : Prop where
  kept : Kept L a base p
  superseded : ∀ w, Wins L a w → p.2 = some w.target ∧ ∃ v, IsLeast (timesOf (Supersedes L a)) v ∧ p.1 = some v
  invalidated : (∀ e, ¬ Supersedes L a e) → ∀ v, IsLeast (timesOf (Invalidates L a)) v → p.1 = some v

end

variable {L L' : List EventRecord} {a : AtomId} {base p q : Projection}

theorem timesOf_congr {P Q : EventRecord → Prop} (h : ∀ e, P e ↔ Q e) : timesOf P = timesOf Q := by
  rw [show P = Q from funext fun e => propext (h e)]

theorem SameLog.kept (h : SameLog L L' a) (hk : Kept L a base p) : Kept L' a base p where
  winner hn := hk.winner fun r hr => hn r (h.names.1 hr)
  validTo hn hi := hk.validTo (fun r hr => hn r (h.names.1 hr)) fun e he => hi e (h.invalidates.1 he)

theorem SameLog.outcome (h : SameLog L L' a) (ho : Outcome L a base p) : Outcome L' a base p where
  kept := h.kept ho.kept
  superseded w hw := by
    rw [← timesOf_congr fun e => h.supersedes (e := e)]
    exact ho.superseded w (h.wins.2 hw)
  invalidated hs v hv := by
    rw [← timesOf_congr fun e => h.invalidates (e := e)] at hv
    exact ho.invalidated (fun e he => hs e (h.supersedes.1 he)) v hv

/-- more events keep less -/
theorem Kept.mono (hk : Kept L a base p) (hsub : ∀ e ∈ L, e ∈ L') : Kept L' a base p where
  winner hn := hk.winner fun r hr => hn r ⟨⟨hsub _ hr.1.1, hr.1.2⟩, hr.2⟩
  validTo hn hi := hk.validTo (fun r hr => hn r ⟨⟨hsub _ hr.1.1, hr.1.2⟩, hr.2⟩)
    fun e he => hi e ⟨hsub _ he.1, he.2⟩

theorem exists_least {P : EventRecord → Prop} {l : List EventRecord} (hmem : ∀ e, P e → e ∈ l) (h : ∃ e, P e) :
    ∃ v, IsLeast (timesOf P) v := by
  classical
  obtain ⟨e, he⟩ := h
  have hne : l.filter (P ·) ≠ [] := List.ne_nil_of_mem (List.mem_filter.2 ⟨hmem e he, by simpa using he⟩)
  obtain ⟨v, hv⟩ := min_times_exists hne
  exact ⟨v, min_times (fun f => by simpa [List.mem_filter] using fun hf => hmem f hf) hv⟩

theorem exists_wins (h : ∃ r, Names L a r) : ∃ w, Wins L a w := by
  classical
  obtain ⟨r, hr⟩ := h
  have hmem : ∀ x, x ∈ (L.filterMap resolve).filter (Names L a ·) ↔ Names L a x := by
    intro x
    simp only [List.mem_filter, List.mem_filterMap, resolve_eq_some, decide_eq_true_eq, and_iff_right_iff_imp]
    exact fun hx => ⟨_, hx.1.1, rfl, hx.2⟩
  cases hw : maxByTieBreak ((L.filterMap resolve).filter (Names L a ·)) with
  | none => exact absurd ((hmem r).2 hr) (by rw [List.argmax_eq_none.1 hw]; simp)
  | some w =>
    exact ⟨w, (hmem w).1 (List.argmax_mem hw), fun x hx =>
      List.le_of_mem_argmax (f := fun e : Resolvable => tieKey e.toEventRecord) ((hmem x).2 hx) hw⟩

/-- **The outcome is a function of the events.** -/
theorem Outcome.unique (hmix : ¬ Mixed L a) (hp : Outcome L a base p) (hq : Outcome L a base q) : p = q := by
  by_cases hn : ∃ r, Names L a r
  · obtain ⟨w, hw⟩ := exists_wins hn
    obtain ⟨hp2, v, hv, hp1⟩ := hp.superseded w hw
    obtain ⟨hq2, v', hv', hq1⟩ := hq.superseded w hw
    exact Prod.ext (by rw [hp1, hq1, hv.unique hv']) (hp2.trans hq2.symm)
  · have hn' : ∀ r, ¬ Names L a r := fun r hr => hn ⟨r, hr⟩
    refine Prod.ext ?_ ((hp.kept.winner hn').trans (hq.kept.winner hn').symm)
    by_cases hi : ∃ e, Invalidates L a e
    · have hs : ∀ e, ¬ Supersedes L a e := fun e he => hmix ⟨⟨e, he⟩, hi, hn'⟩
      obtain ⟨v, hv⟩ := exists_least (fun e he => he.1) hi
      exact (hp.invalidated hs v hv).trans (hq.invalidated hs v hv).symm
    · have hi' : ∀ e, ¬ Invalidates L a e := fun e he => hi ⟨e, he⟩
      exact (hp.kept.validTo hn' hi').trans (hq.kept.validTo hn' hi').symm

/-! ## One recompute phase -/

/-- the row of `a` follows the events `D`; `X` says whether there is one, when `a` is not erased -/
structure Projects (D : List EventRecord) (a : AtomId) (base : Projection) (X : Prop) (P : Set AtomId) (s : St) :
    Prop where
  exist : ¬ Erased D a → (findRow s a ≠ none ↔ X)
  kept : ¬ Erased D a → ∀ m, findRow s a = some m → Kept D a base (rowProjection m)
  erased : a ∉ P → Erased D a → findRow s a = none
  outcome : a ∉ P → ∀ m, findRow s a = some m → Outcome D a base (rowProjection m)

variable {E : Env} {F : Forks AtomId} {H D : List EventRecord} {c : ℕ} {X : Prop} {P Q : Set AtomId} {s t : St}

theorem Projects.weaken (h : Projects D a base X P s) (hPQ : P ⊆ Q) : Projects D a base X Q s :=
  ⟨h.exist, h.kept, fun ha => h.erased fun hP => ha (hPQ hP), fun ha => h.outcome fun hP => ha (hPQ hP)⟩

/-- an effect on another atom -/
theorem Projects.other {b : AtomId} (h : Projects D a base X P s) (hab : a ≠ b) (hrow : findRow t a = findRow s a) :
    Projects D a base X (P \ {b}) t := by
  have hP : a ∉ P \ {b} → a ∉ P := fun ha hp => ha ⟨hp, hab⟩
  exact ⟨by rw [hrow]; exact h.exist, by rw [hrow]; exact h.kept, fun ha => by rw [hrow]; exact h.erased (hP ha),
    fun ha => by rw [hrow]; exact h.outcome (hP ha)⟩

/-- the recompute of `a` leaves its row as `f` makes it -/
theorem Projects.self {f : Memory → Memory} (h : Projects D a base X P s) (he : ¬ Erased D a)
    (hrow : findRow t a = (findRow s a).map f)
    (hout : ∀ m, findRow s a = some m → Outcome D a base (rowProjection (f m))) (Q : Set AtomId) :
    Projects D a base X Q t where
  exist _ := by
    rw [hrow, ← h.exist he]
    simp
  kept _ m hm := by
    rw [hrow, Option.map_eq_some_iff] at hm
    obtain ⟨m0, hm0, rfl⟩ := hm
    exact (hout m0 hm0).kept
  erased _ hc := absurd hc he
  outcome _ m hm := by
    rw [hrow, Option.map_eq_some_iff] at hm
    obtain ⟨m0, hm0, rfl⟩ := hm
    exact hout m0 hm0

/-- one winner, whatever the order of the log -/
def OneWinner (D : List EventRecord) (a : AtomId) : Prop := ∀ w w', Wins D a w → Wins D a w' → w.target = w'.target

theorem projects_effects {R : AtomId → St → Prop} (ha : ¬ F.Chained a) (hone : OneWinner D a) :
    Effects E R (Chains F H) (Licensed F H D c) (Projects D a base X) where
  weaken hPQ h := h.weaken hPQ
  erased {P s b} _ hj h he := by
    by_cases hab : a = b
    · subst hab
      have he' : Erased D a := (hj.sameLog ha).erased.1 he
      have hrow : findRow (hardDeleteAtom s a) a = none := by rw [findRow_hardDeleteAtom, if_pos rfl]
      have hnone : ∀ m, findRow (hardDeleteAtom s a) a ≠ some m := by simp [hrow]
      exact ⟨fun hc => absurd he' hc, fun hc => absurd he' hc, fun _ _ => hrow,
        fun _ m hm => absurd hm (hnone m)⟩
    · exact h.other hab (by rw [findRow_hardDeleteAtom, if_neg hab])
  absent {P s b} _ hj h he hn := by
    by_cases hab : a = b
    · subst hab
      have hnone : ∀ m, findRow s a ≠ some m := by simp [hn]
      exact ⟨h.exist, h.kept, fun _ _ => hn, fun _ m hm => absurd hm (hnone m)⟩
    · exact h.other hab rfl
  quiet {P s b} _ hj h hp hs hi := by
    by_cases hab : a = b
    · subst hab
      have hl := hj.sameLog ha
      have he : ¬ Erased D a := fun hc => hp.kept (hl.erased.2 hc)
      refine h.self (f := fun m => m) he (by simp) (fun m hm => ?_) _
      refine ⟨h.kept he m hm, fun w hw => absurd (hl.supersedes.2 hw.mem.1) (hs _), fun _ v hv => ?_⟩
      obtain ⟨⟨e, he, -⟩, -⟩ := hv
      exact absurd (hl.invalidates.2 he) (hi e)
    · exact h.other hab rfl
  unresolved {P s b} _ hj h hp hs hn := by
    by_cases hab : a = b
    · subst hab
      have hl := hj.sameLog ha
      have he : ¬ Erased D a := fun hc => hp.kept (hl.erased.2 hc)
      refine h.self (f := fun m => m) he (by simp) (fun m hm => ?_) _
      obtain ⟨e, hse⟩ := hs
      exact ⟨h.kept he m hm, fun w hw => absurd (hl.names.2 hw.mem) (hn _),
        fun hs' => absurd (hl.supersedes.1 hse) (hs' e)⟩
    · exact h.other hab rfl
  invalidated {P s b v} _ hj h hp hs hv := by
    by_cases hab : a = b
    · subst hab
      have hl := hj.sameLog ha
      rw [timesOf_congr fun e => hl.invalidates (e := e)] at hv
      have hs' : ∀ e, ¬ Supersedes D a e := fun e he => hs e (hl.supersedes.2 he)
      have he : ¬ Erased D a := fun hc => hp.kept (hl.erased.2 hc)
      refine h.self he
        (findRow_hideInvalidated_self E s a v) (fun m hm => ?_) _
      refine ⟨⟨fun hn => (h.kept he m hm).winner hn, fun _ hi => ?_⟩, fun w hw => absurd hw.mem.1 (hs' _),
        fun _ v' hv' => congrArg some (hv.unique hv')⟩
      obtain ⟨⟨e, he, -⟩, -⟩ := hv
      exact absurd he (hi e)
    · exact h.other hab (findRow_hideInvalidated_ne E s v hab)
  superseded {P s b w v} _ hj h hp hw hv := by
    by_cases hab : a = b
    · subst hab
      have hl := hj.sameLog ha
      rw [timesOf_congr fun e => hl.supersedes (e := e)] at hv
      have hw' : Wins D a w := hl.wins.1 hw
      have he : ¬ Erased D a := fun hc => hp.kept (hl.erased.2 hc)
      refine h.self he
        (findRow_hideSuperseded_self E s a v w.target) (fun m hm => ?_) _
      refine ⟨⟨fun hn => absurd hw'.mem (hn w), fun hn => absurd hw'.mem (hn w)⟩, fun x hx => ?_,
        fun hs => absurd hw'.mem.1 (hs _)⟩
      exact ⟨congrArg some (hone w x hw' hx), v, hv, rfl⟩
    · exact h.other hab (findRow_hideSuperseded_ne E s v w.target hab)
  chain {P s y w u} _ h hc _ :=
    ⟨h.exist, h.kept, fun hy => h.erased fun hp => hy (Or.inr hp), fun hy => h.outcome fun hp => hy (Or.inr hp)⟩

/-! ## Whole runs of pulls -/

/-- every event of a list of batches -/
def delivered (bs : List PullBatch) : List RemotePullEvent := bs.flatMap (·.events)

/-- the log of `s` and the events `evs` -/
def logWith (s : St) (evs : List RemotePullEvent) : List EventRecord := records s ++ evs.map (·.toEventRecord)

/-- a device that merged every batch -/
def pullAll (E : Env) (s : St) (bs : List PullBatch) : Except PullError St := bs.foldlM (pullOnce E) s

/-- event ids are globally unique: those in the log and in what is pulled, and those still to be drawn -/
structure EventIds (E : Env) (s : St) (evs : List RemotePullEvent) : Prop where
  log : ∀ e ∈ logWith s evs, ∀ f ∈ logWith s evs, e.eventId = f.eventId → e = f
  pulled : ∀ e ∈ evs, ∀ f ∈ evs, e.eventId = f.eventId → e = f
  fresh : ∀ i, s.drawn ≤ i → ∀ e ∈ evs, E.uuid i ≠ e.eventId

/-- what fork resolution can do while `evs` arrive at `s`, in whatever batches and order: any two supersede events of an
atom can meet, and the one with the smaller tie-break key loses -/
def forkBound (E : Env) (s : St) (evs : List RemotePullEvent) : Forks AtomId where
  start x := ∃ e ∈ evs, e.atomId = x
  live x := findRow s x ≠ none ∨ ∃ e ∈ evs, e.atomId = x ∧ ∃ sn, Carries e sn
  held x y := ∃ r, Names (logWith s evs) x r ∧ r.target = y
  wins x w := ∃ r, Names (logWith s evs) x r ∧ r.target = w
  loses x y w := ∃ u r, Names (logWith s evs) x u ∧ Names (logWith s evs) x r ∧
    tieKey r.toEventRecord ≤ tieKey u.toEventRecord ∧ r.target ≠ u.target ∧ r.target = y ∧ u.target = w
  merged x w := Merged (records s) x w
  stale := ∃ e ∈ logWith s evs, e.eventType = .supersede ∧ ∃ i, s.clock ≤ i ∧ E.now i ≤ e.createdAt

theorem mem_logWith {evs : List RemotePullEvent} {e : EventRecord} :
    e ∈ logWith s evs ↔ e ∈ records s ∨ ∃ f ∈ evs, f.toEventRecord = e := by
  simp [logWith]

theorem logWith_mono {evs evs' : List RemotePullEvent} (h : ∀ e ∈ evs, e ∈ evs') {e : EventRecord}
    (he : e ∈ logWith s evs) : e ∈ logWith s evs' := by
  rw [mem_logWith] at he ⊢
  exact he.imp_right fun ⟨f, hf, hfe⟩ => ⟨f, h f hf, hfe⟩

theorem names_mono (hsub : ∀ e ∈ L, e ∈ L') {r : Resolvable} (h : Names L a r) : Names L' a r :=
  ⟨⟨hsub _ h.1.1, h.1.2⟩, h.2⟩

theorem forkBound_adequate {evs done : List RemotePullEvent} (h : ∀ e ∈ done, e ∈ evs) :
    Adequate E (forkBound E s evs) (logWith s evs) (logWith s done) s.clock where
  sub _ he := logWith_mono h he
  held hr := ⟨_, names_mono (fun _ => logWith_mono h) hr, rfl⟩
  wins hw := ⟨_, names_mono (fun _ => logWith_mono h) hw.mem, rfl⟩
  loses hw hr hne := ⟨_, _, names_mono (fun _ => logWith_mono h) hw.mem, names_mono (fun _ => logWith_mono h) hr,
    hw.max _ hr, hne, rfl, rfl⟩
  merged := by
    rintro x w ⟨e, ⟨he, h1, h2⟩, h3, h4⟩
    exact ⟨e, ⟨mem_logWith.2 (Or.inl he), h1, h2⟩, h3, h4⟩
  fresh i hi hst e he hty := by
    by_contra hlt
    exact hst ⟨e, he, hty, i, hi, not_lt.1 hlt⟩

theorem oneWinner_of_ids {evs done : List RemotePullEvent} (hid : EventIds E s evs) (h : ∀ e ∈ done, e ∈ evs) :
    OneWinner (logWith s done) a := by
  intro w w' hw hw'
  have heq := hid.log _ (logWith_mono h hw.mem.1.1) _ (logWith_mono h hw'.mem.1.1) (hw.eventId_eq hw')
  have htar := hw.mem.2
  rw [heq, hw'.mem.2, Option.some.injEq] at htar
  exact htar.symm

/-- a new event of the atom has arrived -/
def Arrived (s0 : St) (done : List RemotePullEvent) (a : AtomId) : Prop :=
  ∃ e ∈ done, e.atomId = a ∧ e.toEventRecord ∉ records s0

/-- the atom has a row, or a new event that carries its body has arrived -/
def Held (s0 : St) (done : List RemotePullEvent) (a : AtomId) : Prop :=
  findRow s0 a ≠ none ∨ ∃ e ∈ done, e.atomId = a ∧ e.toEventRecord ∉ records s0 ∧ ∃ sn, Carries e sn

/-- ids of synthetic events are drawn from `d` on -/
structure Own (E : Env) (d : ℕ) (D : List EventRecord) (s : St) : Prop where
  ids : ∀ e ∈ records s, e ∈ D ∨ ∃ i, d ≤ i ∧ e.eventId = E.uuid i
  drawn : d ≤ s.drawn

theorem own_effects {R : AtomId → St → Prop} {C : AtomId → AtomId → Time → Prop} {J : St → Prop} (d : ℕ)
    (D : List EventRecord) : Effects E R C J fun _ s => Own E d D s where
  weaken _ h := h
  erased _ _ h _ := ⟨fun e he => h.ids e (by simpa using he), by
    unfold hardDeleteAtom
    split
    · exact h.drawn
    · exact h.drawn⟩
  absent _ _ h _ _ := h
  quiet _ _ h _ _ _ := h
  unresolved _ _ h _ _ _ := ⟨h.ids, h.drawn⟩
  invalidated _ _ h _ _ _ := ⟨h.ids, h.drawn⟩
  superseded _ _ h _ _ _ := ⟨h.ids, h.drawn⟩
  chain {_ s y w t} _ h _ _ := by
    refine ⟨fun e he => ?_, h.drawn.trans (Nat.le_succ _)⟩
    rw [chainEvent_records] at he
    rcases List.mem_append.1 he with he | he
    · exact h.ids e he
    · exact Or.inr ⟨s.drawn, h.drawn, by rw [List.mem_singleton.1 he]⟩

/-- the device that started from `s0` has merged `done`, part of `evs` -/
structure Synced (E : Env) (s0 : St) (evs : List RemotePullEvent) (a : AtomId) (done : List RemotePullEvent) (s : St) :
    Prop where
  licensed : Licensed (forkBound E s0 evs) (logWith s0 evs) (logWith s0 done) s0.clock s
  own : Own E s0.drawn (logWith s0 done) s
  idle : ¬ Arrived s0 done a → findRow s a = findRow s0 a
  projects : Arrived s0 done a →
    Projects (logWith s0 done) a ((projection s0 a).getD (none, none)) (Held s0 done a) ∅ s

theorem Held.mono {s0 : St} {done done' : List RemotePullEvent} (h : Held s0 done a) (hsub : ∀ e ∈ done, e ∈ done') :
    Held s0 done' a :=
  h.imp_right fun ⟨e, he, rest⟩ => ⟨e, hsub e he, rest⟩

section
variable {s0 : St} {evs done : List RemotePullEvent} {batch : PullBatch} {m u : St} {touched : List AtomId}

theorem synced_start (E : Env) (s0 : St) (evs : List RemotePullEvent) (a : AtomId) : Synced E s0 evs a [] s0 where
  licensed := ⟨fun e he => by simpa [logWith] using he, fun e he => Or.inl (by simpa [logWith] using he),
    fun b hb => Or.inl hb, le_rfl⟩
  own := ⟨fun e he => Or.inl (by simpa [logWith] using he), le_rfl⟩
  idle _ := rfl
  projects h := by
    obtain ⟨e, he, -⟩ := h
    simp at he

/-- before anything new, and whatever has arrived: existence and what is still kept -/
theorem Synced.exist (h : Synced E s0 evs a done s) (he : ¬ Erased (logWith s0 done) a) :
    findRow s a ≠ none ↔ Held s0 done a := by
  by_cases harr : Arrived s0 done a
  · exact (h.projects harr).exist he
  · rw [h.idle harr]
    refine ⟨Or.inl, fun hh => hh.resolve_right ?_⟩
    rintro ⟨e, hed, hea, hen, -⟩
    exact harr ⟨e, hed, hea, hen⟩

theorem Synced.kept (h : Synced E s0 evs a done s) (he : ¬ Erased (logWith s0 done) a) {x : Memory}
    (hx : findRow s a = some x) : Kept (logWith s0 done) a ((projection s0 a).getD (none, none)) (rowProjection x) := by
  by_cases harr : Arrived s0 done a
  · exact (h.projects harr).kept he x hx
  · rw [h.idle harr] at hx
    have hb : projection s0 a = some (rowProjection x) := by simp [projection, hx]
    rw [hb]
    exact ⟨fun _ => rfl, fun _ _ => rfl⟩

/-- an event of the batch is new, or was there from the start, or has arrived before -/
theorem Synced.known (h : Synced E s0 evs a done s) (hid : EventIds E s0 evs) (hdone : ∀ e ∈ done, e ∈ evs)
    (hb : ∀ e ∈ batch.events, e ∈ evs) {e : RemotePullEvent} (he : e ∈ batch.events) :
    e ∈ incoming s batch ∨ e.toEventRecord ∈ records s0 ∨ e ∈ done := by
  have hU : ∀ f ∈ evs, f.toEventRecord ∈ logWith s0 evs := fun f hf => mem_logWith.2 (Or.inr ⟨f, hf, rfl⟩)
  rcases newEvents_covers (eventIds s) he with hk | ⟨f, hf, hfid⟩
  · obtain ⟨g, hg, hgid⟩ := List.mem_map.1 hk
    rcases h.own.ids g hg with hg | ⟨i, hi, hgi⟩
    · have hge := hid.log g (logWith_mono hdone hg) _ (hU e (hb e he)) hgid
      subst hge
      rcases mem_logWith.1 hg with hg | ⟨f, hf, hfe⟩
      · exact Or.inr (Or.inl hg)
      · have hfe' := hid.pulled f (hdone f hf) e (hb e he) (by rw [hfe])
        exact Or.inr (Or.inr (hfe' ▸ hf))
    · exact absurd (hgi.symm.trans hgid) (hid.fresh i hi e (hb e he))
  · have hfb := (newEvents_sublist _ _).subset hf
    have hfe := hid.pulled f (hb f hfb) e (hb e he) hfid
    exact Or.inl (hfe ▸ hf)

theorem incoming_sub {e : RemotePullEvent} (he : e ∈ incoming s batch) : e ∈ batch.events :=
  (newEvents_sublist _ _).subset he

/-- the state after the first loop, with the batch merged -/
theorem Synced.merged (h : Synced E s0 evs a done s) (hid : EventIds E s0 evs) (hdone : ∀ e ∈ done, e ∈ evs)
    (hb : ∀ e ∈ batch.events, e ∈ evs) (hm : Merges s (incoming s batch) m touched) :
    Licensed (forkBound E s0 evs) (logWith s0 evs) (logWith s0 (done ++ batch.events)) s0.clock m ∧
      Own E s0.drawn (logWith s0 (done ++ batch.events)) m := by
  have hsub : ∀ e ∈ logWith s0 done, e ∈ logWith s0 (done ++ batch.events) :=
    fun e => logWith_mono fun f hf => List.mem_append_left _ hf
  have hinc : ∀ f ∈ incoming s batch, f.toEventRecord ∈ logWith s0 (done ++ batch.events) :=
    fun f hf => mem_logWith.2 (Or.inr ⟨f, List.mem_append_right _ (incoming_sub hf), rfl⟩)
  have hrec : ∀ e ∈ records m, e ∈ records s ∨ ∃ f ∈ incoming s batch, f.toEventRecord = e := by
    intro e he
    rw [hm.log] at he
    exact (List.mem_append.1 he).imp_right List.mem_map.1
  have hkeep : ∀ e ∈ records s, e ∈ records m := fun e he => by
    rw [hm.log]
    exact List.mem_append_left _ he
  refine ⟨⟨fun e he => ?_, fun e he => ?_, fun b hbn => ?_, h.licensed.clock.trans hm.clock⟩, fun e he => ?_, ?_⟩
  · rcases mem_logWith.1 he with he | ⟨f, hf, rfl⟩
    · exact hkeep e (h.licensed.base e (mem_logWith.2 (Or.inl he)))
    · rcases List.mem_append.1 hf with hf | hf
      · exact hkeep _ (h.licensed.base _ (mem_logWith.2 (Or.inr ⟨f, hf, rfl⟩)))
      · rcases h.known hid hdone hb hf with hk | hk | hk
        · rw [hm.log]
          exact List.mem_append_right _ (List.mem_map.2 ⟨f, hk, rfl⟩)
        · exact hkeep _ (h.licensed.base _ (mem_logWith.2 (Or.inl hk)))
        · exact hkeep _ (h.licensed.base _ (mem_logWith.2 (Or.inr ⟨f, hk, rfl⟩)))
  · rcases hrec e he with he | ⟨f, hf, rfl⟩
    · exact (h.licensed.gained e he).imp_left (hsub e)
    · exact Or.inl (hinc f hf)
  · cases hsb : findRow s b with
    | some x => exact h.licensed.live b (by rw [hsb]; simp)
    | none =>
      obtain ⟨x, hx⟩ := Option.ne_none_iff_exists'.1 hbn
      obtain ⟨f, hf, hfb, sn, now, k, hc, -⟩ := hm.made_row hx hsb
      exact Or.inr ⟨f, hb f (incoming_sub hf), hfb, sn, hc⟩
  · rcases hrec e he with he | ⟨f, hf, rfl⟩
    · exact (h.own.ids e he).imp_left (hsub e)
    · exact Or.inl (hinc f hf)
  · rw [hm.frame]
    exact h.own.drawn

/-- nothing in the batch is new for the atom -/
theorem Synced.sameLog (h : Synced E s0 evs a done s) (hid : EventIds E s0 evs) (hdone : ∀ e ∈ done, e ∈ evs)
    (hb : ∀ e ∈ batch.events, e ∈ evs) (hn : ∀ e ∈ incoming s batch, e.atomId ≠ a) :
    SameLog (logWith s0 done) (logWith s0 (done ++ batch.events)) a := by
  rintro e rfl
  refine ⟨logWith_mono fun f hf => List.mem_append_left _ hf, fun he => ?_⟩
  rw [mem_logWith] at he ⊢
  rcases he with he | ⟨f, hf, rfl⟩
  · exact Or.inl he
  · rcases List.mem_append.1 hf with hf | hf
    · exact Or.inr ⟨f, hf, rfl⟩
    · rcases h.known hid hdone hb hf with hk | hk | hk
      · exact absurd rfl (hn f hk)
      · exact Or.inl hk
      · exact Or.inr ⟨f, hk, rfl⟩

/-- an event of the batch that was not there at the start has arrived before, unless it is new -/
theorem Synced.arrived (h : Synced E s0 evs a done s) (hid : EventIds E s0 evs) (hdone : ∀ e ∈ done, e ∈ evs)
    (hb : ∀ e ∈ batch.events, e ∈ evs) {e : RemotePullEvent} (he : e ∈ done ++ batch.events)
    (hn : e.toEventRecord ∉ records s0) : e ∈ done ∨ e ∈ incoming s batch := by
  rcases List.mem_append.1 he with he | he
  · exact Or.inl he
  · rcases h.known hid hdone hb he with hk | hk | hk
    · exact Or.inr hk
    · exact absurd hk hn
    · exact Or.inl hk

theorem Synced.new_not_start (h : Synced E s0 evs a done s) {e : RemotePullEvent} (he : e ∈ incoming s batch) :
    e.toEventRecord ∉ records s0 := by
  intro hc
  refine newEvents_fresh he ?_
  exact List.mem_map.2 ⟨_, h.licensed.base _ (mem_logWith.2 (Or.inl hc)), rfl⟩

/-- an atom whose body has arrived has a row after the first loop, unless its row is gone -/
theorem Synced.merged_row (h : Synced E s0 evs a done s) (hid : EventIds E s0 evs) (hdone : ∀ e ∈ done, e ∈ evs)
    (hb : ∀ e ∈ batch.events, e ∈ evs) (hm : Merges s (incoming s batch) m touched) {b : AtomId}
    (hrow : Held s0 done b → findRow s b ≠ none) (hh : Held s0 (done ++ batch.events) b) : findRow m b ≠ none := by
  have hold : Held s0 done b → findRow m b ≠ none := by
    intro hd
    obtain ⟨y, hy⟩ := Option.ne_none_iff_exists'.1 (hrow hd)
    rw [hm.findRow_of_some hy]
    simp
  rcases hh with hh | ⟨e, hed, rfl, hen, sn, hc⟩
  · exact hold (Or.inl hh)
  · rcases h.arrived hid hdone hb hed hen with hd | hi
    · exact hold (Or.inr ⟨e, hd, rfl, hen, sn, hc⟩)
    · exact hm.made e hi sn hc

/-- the body of an atom for which nothing is new does not arrive -/
theorem Synced.held_iff (h : Synced E s0 evs a done s) (hid : EventIds E s0 evs) (hdone : ∀ e ∈ done, e ∈ evs)
    (hb : ∀ e ∈ batch.events, e ∈ evs) {b : AtomId} (hn : ∀ e ∈ incoming s batch, e.atomId ≠ b) :
    Held s0 (done ++ batch.events) b ↔ Held s0 done b := by
  refine ⟨fun hh => hh.imp_right ?_, fun hh => hh.mono fun f hf => List.mem_append_left _ hf⟩
  rintro ⟨e, he, hea, hen, hc⟩
  rcases h.arrived hid hdone hb he hen with hd | hi
  · exact ⟨e, hd, hea, hen, hc⟩
  · exact absurd hea (hn e hi)

/-- the row after the first loop: what was there, or what a new 'create' event brought -/
theorem Synced.merged_projects (h : Synced E s0 evs a done s) (hid : EventIds E s0 evs) (hdone : ∀ e ∈ done, e ∈ evs)
    (hb : ∀ e ∈ batch.events, e ∈ evs) (hm : Merges s (incoming s batch) m touched) (P : Set AtomId) (ha : a ∈ P) :
    Projects (logWith s0 (done ++ batch.events)) a ((projection s0 a).getD (none, none))
      (Held s0 (done ++ batch.events) a) P m := by
  have hsub : ∀ e ∈ logWith s0 done, e ∈ logWith s0 (done ++ batch.events) :=
    fun e => logWith_mono fun f hf => List.mem_append_left _ hf
  have herased : ¬ Erased (logWith s0 (done ++ batch.events)) a → ¬ Erased (logWith s0 done) a :=
    fun hc ⟨e, he, hea, hty⟩ => hc ⟨e, hsub e he, hea, hty⟩
  refine ⟨fun he => ⟨fun hx => ?_, fun hh => h.merged_row hid hdone hb hm (h.exist (herased he)).2 hh⟩,
    fun he x hx => ?_, fun hn => absurd ha hn, fun hn => absurd ha hn⟩
  · cases hs : findRow s a with
    | some y => exact ((h.exist (herased he)).1 (by rw [hs]; simp)).mono fun f hf => List.mem_append_left _ hf
    | none =>
      obtain ⟨x, hx⟩ := Option.ne_none_iff_exists'.1 hx
      obtain ⟨e, hei, hea, sn, now, k, hc, -⟩ := hm.made_row hx hs
      exact Or.inr ⟨e, List.mem_append_right _ (incoming_sub hei), hea, h.new_not_start hei, sn, hc⟩
  · cases hs : findRow s a with
    | some y =>
      rw [hm.findRow_of_some hs, Option.some.injEq] at hx
      exact hx ▸ (h.kept (herased he) hs).mono hsub
    | none =>
      obtain ⟨e, -, -, sn, now, k, -, rfl⟩ := hm.made_row hx hs
      -- the atom had no row at the start either, or it would have been erased
      have h0 : findRow s0 a = none := by
        by_contra h0
        exact (h.exist (herased he)).2 (Or.inl h0) hs
      have hbase : (projection s0 a).getD (none, none) = (none, none) := by simp [projection, h0]
      rw [hbase]
      exact ⟨fun _ => rfl, fun _ _ => rfl⟩

/-- **One pull.** -/
theorem synced_pull (h : Synced E s0 evs a done s) (hid : EventIds E s0 evs) (hdone : ∀ e ∈ done, e ∈ evs)
    (hb : ∀ e ∈ batch.events, e ∈ evs) (ha : ¬ (forkBound E s0 evs).Chained a) (hp : pullOnce E s batch = .ok t) :
    Synced E s0 evs a (done ++ batch.events) t := by
  have hall : ∀ e ∈ done ++ batch.events, e ∈ evs := fun e he => (List.mem_append.1 he).elim (hdone e) (hb e)
  rcases pullOnce_ok hp with ⟨hnil, rfl⟩ | ⟨m, touched, u, hm, hr, rfl⟩
  · rw [hnil, List.append_nil]
    exact h
  obtain ⟨hlic, hown⟩ := h.merged hid hdone hb hm
  have hT : ∀ b, b ∈ touched → (forkBound E s0 evs).start b := by
    intro b hbt
    obtain ⟨e, he, rfl⟩ := (hm.touched b).1 hbt
    exact ⟨e, hb e (incoming_sub he), rfl⟩
  have hJ := fork_traversal (T := (· ∈ touched)) (forkBound_adequate (E := E) (s := s0) hall) hT
  obtain ⟨hlu, hou⟩ := hJ.sound_all (own_effects s0.drawn (logWith s0 (done ++ batch.events))) (P := ∅)
    (fun b hbt _ _ => Or.inl hbt) hlic hown hr
  -- the watermark changes neither rows nor log
  have hlt : Licensed (forkBound E s0 evs) (logWith s0 evs) (logWith s0 (done ++ batch.events)) s0.clock
      (setPullWatermark u batch.nextCursor) := hlu.frame rfl (fun _ hx => hx) (Nat.le_succ _)
  have hot : Own E s0.drawn (logWith s0 (done ++ batch.events)) (setPullWatermark u batch.nextCursor) :=
    ⟨hou.ids, hou.drawn⟩
  by_cases hat : a ∈ touched
  · -- `a` is recomputed: it starts pending and ends settled
    obtain ⟨-, hpu⟩ := hJ.sound_all
      (projects_effects ha (oneWinner_of_ids hid hall))
      (fun b hbt _ _ => Or.inl hbt) hlic (h.merged_projects hid hdone hb hm {b | b ∈ touched} hat) hr
    refine ⟨hlt, hot, fun hno => absurd ?_ hno, fun _ => ?_⟩
    · obtain ⟨e, he, hea⟩ := (hm.touched a).1 hat
      exact ⟨e, List.mem_append_right _ (incoming_sub he), hea, h.new_not_start he⟩
    · have := hpu.weaken (Q := ∅) (by simp)
      exact ⟨this.exist, this.kept, this.erased, this.outcome⟩
  · -- `a` is left alone
    have hni : ∀ e ∈ incoming s batch, e.atomId ≠ a := fun e he hea => hat ((hm.touched a).2 ⟨e, he, hea⟩)
    obtain ⟨-, hun⟩ := hJ.sound_all (untouched_effects (a := a) (fun _ hR => hR.elim hat ha)
      (fun w t hc => ha hc.chained) m) (P := ∅) (fun b hbt _ _ => Or.inl hbt) hlic (Untouched.refl a m) hr
    have hrow : findRow (setPullWatermark u batch.nextCursor) a = findRow s a :=
      hun.row.trans (hm.row_of_untouched hat)
    have hsame := h.sameLog hid hdone hb hni
    have harr : Arrived s0 (done ++ batch.events) a → Arrived s0 done a := by
      rintro ⟨e, he, hea, hen⟩
      rcases h.arrived hid hdone hb he hen with hd | hi
      · exact ⟨e, hd, hea, hen⟩
      · exact absurd hea (hni e hi)
    have hheld := h.held_iff hid hdone hb hni
    refine ⟨hlt, hot, fun hno => hrow.trans (h.idle fun hd => hno ?_), fun hd => ?_⟩
    · obtain ⟨e, he, rest⟩ := hd
      exact ⟨e, List.mem_append_left _ he, rest⟩
    · have hpr := h.projects (harr hd)
      refine ⟨fun he => ?_, fun he x hx => ?_, fun hn he => ?_, fun hn x hx => ?_⟩
      · rw [hrow, hheld]
        exact hpr.exist fun hc => he (hsame.erased.1 hc)
      · rw [hrow] at hx
        exact hsame.kept (hpr.kept (fun hc => he (hsame.erased.1 hc)) x hx)
      · rw [hrow]
        exact hpr.erased hn (hsame.erased.2 he)
      · rw [hrow] at hx
        exact hsame.outcome (hpr.outcome hn x hx)

end

/-- **Rule for a run of pulls.** What each pull preserves where `Q` holds, from what was merged before it, holds of
the whole run. -/
theorem pullAll_along {s0 : St} {bs : List PullBatch} {Q : St → PullBatch → Prop} (hQ : Along (pullStep E) Q s0 bs)
    (I : List RemotePullEvent → St → Prop) (h0 : I [] s0)
    (hstep : ∀ done s batch t, (∀ e ∈ done, e ∈ delivered bs) → (∀ e ∈ batch.events, e ∈ delivered bs) → I done s →
      Q s batch → pullOnce E s batch = .ok t → I (done ++ batch.events) t)
    (h : pullAll E s0 bs = .ok t) : I (delivered bs) t := by
  have hI := foldlM_ok
    (fun rest s => Along (pullStep E) Q s rest ∧ ∃ pre, bs = pre ++ rest ∧ I (delivered pre) s) ?_
    ⟨hQ, [], rfl, h0⟩ h
  · obtain ⟨-, pre, hbs, hs⟩ := hI
    rw [List.append_nil] at hbs
    subst hbs
    exact hs
  · rintro batch rest s t ⟨hal, pre, hbs, hs⟩ hok
    have hsub : ∀ e ∈ delivered (pre ++ [batch]), e ∈ delivered bs := by
      intro e he
      rw [hbs]
      simp only [delivered, List.flatMap_append, List.flatMap_cons, List.flatMap_nil, List.append_nil,
        List.mem_append] at he ⊢
      tauto
    have hcat : delivered (pre ++ [batch]) = delivered pre ++ batch.events := by simp [delivered]
    have hnext : pullStep E s batch = t := by rw [pullStep, hok]
    rw [hcat] at hsub
    refine ⟨hnext ▸ hal.2, pre ++ [batch], by simp [hbs], ?_⟩
    rw [hcat]
    exact hstep (delivered pre) s batch t (fun e he => hsub e (List.mem_append_left _ he))
      (fun e he => hsub e (List.mem_append_right _ he)) hs hal.1 hok

/-- **A whole run of pulls.** -/
theorem synced_pulls {s0 : St} {bs : List PullBatch} (hid : EventIds E s0 (delivered bs))
    (ha : ¬ (forkBound E s0 (delivered bs)).Chained a) (h : pullAll E s0 bs = .ok t) :
    Synced E s0 (delivered bs) a (delivered bs) t :=
  pullAll_along (along_trivial _ _ _) (Synced E s0 (delivered bs) a) (synced_start E s0 (delivered bs) a)
    (fun _ _ _ _ hdone hb hs _ hok => synced_pull hs hid hdone hb ha hok) h

/-! ## Two devices -/

/-- the same events and the same projection of an atom -/
structure SameAtom (s₁ s₂ : St) (a : AtomId) : Prop where
  log : SameLog (records s₁) (records s₂) a
  row : projection s₁ a = projection s₂ a

theorem SameAtom.symm {s₁ s₂ : St} (h : SameAtom s₁ s₂ a) : SameAtom s₂ s₁ a := ⟨h.log.symm, h.row.symm⟩

section
variable {s₁ s₂ : St} {evs₁ evs₂ : List RemotePullEvent}

theorem SameAtom.sameLog (h : SameAtom s₁ s₂ a) (hsame : ∀ e, e ∈ evs₁ ↔ e ∈ evs₂) :
    SameLog (logWith s₁ evs₁) (logWith s₂ evs₂) a := by
  intro e hea
  rw [mem_logWith, mem_logWith, h.log e hea]
  simp only [hsame]

theorem SameAtom.arrived (h : SameAtom s₁ s₂ a) (hsame : ∀ e, e ∈ evs₁ ↔ e ∈ evs₂) (harr : Arrived s₁ evs₁ a) :
    Arrived s₂ evs₂ a := by
  obtain ⟨e, he, hea, hen⟩ := harr
  exact ⟨e, (hsame e).1 he, hea, fun hc => hen ((h.log _ hea).2 hc)⟩

theorem SameAtom.held (h : SameAtom s₁ s₂ a) (hsame : ∀ e, e ∈ evs₁ ↔ e ∈ evs₂) (hh : Held s₁ evs₁ a) :
    Held s₂ evs₂ a := by
  rcases hh with hh | ⟨e, he, hea, hen, hc⟩
  · refine Or.inl fun hn => hh ?_
    have hrow := h.row
    simp only [projection, hn, Option.map_none, Option.map_eq_none_iff] at hrow
    exact hrow
  · exact Or.inr ⟨e, (hsame e).1 he, hea, fun hc => hen ((h.log _ hea).2 hc), hc⟩

end

/-- **Convergence.** Two devices that merged the same events, whatever the batches, their order and the two clocks,
agree on existence, valid_to and superseded_by of every atom they agreed on before that no fork resolution chains and
whose events do not mix an invalidate with supersede events none of which names a winner. -/
theorem pulls_converge {E₁ E₂ : Env} {s₁ s₂ t₁ t₂ : St} {bs₁ bs₂ : List PullBatch} {a : AtomId}
    (h₁ : pullAll E₁ s₁ bs₁ = .ok t₁) (h₂ : pullAll E₂ s₂ bs₂ = .ok t₂)
    (hsame : ∀ e, e ∈ delivered bs₁ ↔ e ∈ delivered bs₂) (hid₁ : EventIds E₁ s₁ (delivered bs₁))
    (hid₂ : EventIds E₂ s₂ (delivered bs₂)) (hstart : SameAtom s₁ s₂ a)
    (hc₁ : ¬ (forkBound E₁ s₁ (delivered bs₁)).Chained a) (hc₂ : ¬ (forkBound E₂ s₂ (delivered bs₂)).Chained a)
    (hmix : ¬ Mixed (logWith s₁ (delivered bs₁)) a) : projection t₁ a = projection t₂ a := by
  have hS₁ := synced_pulls hid₁ hc₁ h₁
  have hS₂ := synced_pulls hid₂ hc₂ h₂
  have hsame' := fun e => (hsame e).symm
  have hlog := hstart.sameLog hsame
  by_cases harr : Arrived s₁ (delivered bs₁) a
  · have hp₁ := hS₁.projects harr
    have hp₂ := hS₂.projects (hstart.arrived hsame harr)
    by_cases he : Erased (logWith s₁ (delivered bs₁)) a
    · simp only [projection, hp₁.erased id he, hp₂.erased id (hlog.erased.1 he)]
    · have he₂ : ¬ Erased (logWith s₂ (delivered bs₂)) a := fun hc => he (hlog.erased.2 hc)
      cases hr₁ : findRow t₁ a with
      | none =>
        have hn : ¬ Held s₁ (delivered bs₁) a := fun hh => (hp₁.exist he).2 hh hr₁
        have hr₂ : findRow t₂ a = none := by
          by_contra hr₂
          exact hn (hstart.symm.held hsame' ((hp₂.exist he₂).1 hr₂))
        simp only [projection, hr₁, hr₂]
      | some x =>
        have hh : Held s₁ (delivered bs₁) a := (hp₁.exist he).1 (by rw [hr₁]; simp)
        obtain ⟨y, hr₂⟩ := Option.ne_none_iff_exists'.1 ((hp₂.exist he₂).2 (hstart.held hsame hh))
        have ho₂ := hlog.symm.outcome (hp₂.outcome id y hr₂)
        rw [← hstart.row] at ho₂
        simp only [projection, hr₁, hr₂, Option.map_some, (hp₁.outcome id x hr₁).unique hmix ho₂]
  · have harr₂ : ¬ Arrived s₂ (delivered bs₂) a := fun hc => harr (hstart.symm.arrived hsame' hc)
    have hrow := hstart.row
    simp only [projection, hS₁.idle harr, hS₂.idle harr₂] at hrow ⊢
    exact hrow

/-! ## A forked atom and its loser -/

def snapshot (h : Hash) (text : String) : AtomSnapshot :=
  { type := .fact, text, normalizedText := text, hash := h, scope := .team }

def createEvent (id : EventId) (a : AtomId) (at_ : Time) : RemotePullEvent :=
  { eventId := id, eventType := .create, atomId := a, payloadJson := none, contentHash := some a, createdAt := at_,
    atomSnapshot := some (snapshot a "text") }

def supersedeEvent (id : EventId) (a w : AtomId) (at_ : Time) : RemotePullEvent :=
  { eventId := id, eventType := .supersede, atomId := a, payloadJson := some { supersededBy := some w },
    contentHash := none, createdAt := at_ }

/-- a device whose clock starts at `k` -/
def device (k : Time) : Env := ⟨fun i => k + i, fun i => 100 + i, 50, fun s => s⟩

def createBatch : PullBatch := ⟨[createEvent 1 1 0, createEvent 2 2 1, createEvent 3 3 2], none⟩

/-- memory 1 is superseded by 2 on one device and by 3 on another -/
def forkBatch : PullBatch := ⟨createBatch.events ++ [supersedeEvent 4 1 2 10, supersedeEvent 5 1 3 11], none⟩

theorem forkBound_sound {s : St} {evs : List RemotePullEvent} : (forkBound E s evs).Sound where
  wins h := h
  loses := by
    rintro x y w ⟨u, r, hu, hr, -, -, rfl, rfl⟩
    exact ⟨⟨r, hr, rfl⟩, ⟨u, hu, rfl⟩⟩

/-- what no supersede event names is not chained -/
theorem not_chained_of_unnamed {s : St} {evs : List RemotePullEvent}
    (h : ∀ e ∈ logWith s evs, supersedeTarget e ≠ some a) : ¬ (forkBound E s evs).Chained a := by
  refine Forks.not_chained_of_unheld forkBound_sound ?_
  rintro u ⟨r, hr, rfl⟩
  exact h _ hr.1.1 hr.2

theorem isOk_exists {α ε : Type} {x : Except ε α} (h : x.isOk = true) : ∃ t, x = .ok t := by
  cases x with
  | error e => cases h
  | ok t => exact ⟨t, rfl⟩

/-- the forked memory itself, in one batch on one device and in three on the other, latest first -/
theorem pulls_converge_fork : ∃ t₁ t₂, pullAll (device 100) {} [forkBatch] = .ok t₁ ∧
    pullAll (device 200) {} [⟨[supersedeEvent 5 1 3 11], none⟩, createBatch, ⟨[supersedeEvent 4 1 2 10], none⟩] =
      .ok t₂ ∧ projection t₁ 1 = projection t₂ 1 := by
  obtain ⟨t₁, h₁⟩ := isOk_exists (show (pullAll (device 100) {} [forkBatch]).isOk = true by decide)
  obtain ⟨t₂, h₂⟩ := isOk_exists (show (pullAll (device 200) {} [⟨[supersedeEvent 5 1 3 11], none⟩, createBatch,
    ⟨[supersedeEvent 4 1 2 10], none⟩]).isOk = true by decide)
  have hperm : (delivered [forkBatch]).Perm (delivered [⟨[supersedeEvent 5 1 3 11], none⟩, createBatch,
    ⟨[supersedeEvent 4 1 2 10], none⟩]) := by decide
  have hids : ∀ k, EventIds (device k) {} (delivered [forkBatch]) := fun k =>
    ⟨by decide, by decide, fun i _ e he => by
      have hlt : ∀ e ∈ delivered [forkBatch], e.eventId < 100 := by decide
      exact ((hlt e he).trans_le (Nat.le_add_right 100 i)).ne'⟩
  refine ⟨t₁, t₂, h₁, h₂, pulls_converge h₁ h₂ (fun e => hperm.mem_iff) (hids 100) ?_ ⟨fun _ _ => Iff.rfl, rfl⟩
    (not_chained_of_unnamed (by decide)) (not_chained_of_unnamed (by decide)) ?_⟩
  · have h := hids 200
    exact ⟨by decide, by decide, fun i hi e he => h.fresh i hi e (hperm.mem_iff.2 he)⟩
  · rintro ⟨-, ⟨e, he, -, hty⟩, -⟩
    have hno : ∀ e ∈ logWith {} (delivered [forkBatch]), e.eventType ≠ .invalidate := by decide
    exact hno e he hty

/-- **The loser of a fork does not converge.** Both devices chain memory 2 to 3 by a synthetic event of their own, at
their own clock: `valid_to` of memory 2 is 103 on one and 203 on the other. -/
theorem fork_loser_diverges :
    (pullAll (device 100) {} [forkBatch]).toOption.map (projection · 2) = some (some (some 103, some 3)) ∧
      (pullAll (device 200) {} [forkBatch]).toOption.map (projection · 2) = some (some (some 203, some 3)) := by
  decide

end AstramemLocal.Sync
