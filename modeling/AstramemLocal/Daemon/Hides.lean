/-
A hide is undone by its own inverse only. `openHide L a` says that the log holds an invalidate or supersede event of `a`
with no unsupersede after it. `Shows` is what keeps restore and restorePurgeBatch from reviving a hidden memory: a row
that is current, archived or purged has no open hide and no winner.
* `hides_survive`: it does in every run whose pulls hide no archived or purged memory, name a winner in every supersede,
  and whose inserts draw ids of no known atom.
* `restore_undoes_supersede`: a pull writes valid_to and superseded_by of an archived memory, and restore clears the
  first of them.
-/
import AstramemLocal.Daemon.Effects
import AstramemLocal.Sync.Convergence
import AstramemLocal.Sync.PullForks

namespace AstramemLocal.Daemon

open AstramemLocal.Store AstramemLocal.Sync AstramemLocal.Distill AstramemLocal.Core Relation

/-! ## Open hides -/

def hideAfter (a : AtomId) (hidden : Bool) (e : EventRecord) : Bool :=
  if e.atomId = a then
    match e.eventType with
    | .invalidate | .supersede => true
    | .unsupersede => false
    | _ => hidden
  else hidden

/-- the log holds an invalidate or supersede event of the atom that no later unsupersede undoes -/
def openHide (L : List EventRecord) (a : AtomId) : Bool := L.foldl (hideAfter a) false

variable {L L' : List EventRecord} {a : AtomId} {e : EventRecord}

theorem openHide_snoc : openHide (L ++ [e]) a = hideAfter a (openHide L a) e := by simp [openHide]

theorem openHide_append (h : ∀ e ∈ L', ∀ hidden, hideAfter a hidden e = hidden) :
    openHide (L ++ L') a = openHide L a := by
  simp only [openHide, List.foldl_append]
  generalize L.foldl (hideAfter a) false = hidden
  induction L' generalizing hidden with
  | nil => rfl
  | cons e L' ih =>
    rw [List.foldl_cons, h e List.mem_cons_self]
    exact ih (fun f hf => h f (List.mem_cons_of_mem _ hf)) hidden

theorem hideAfter_other (h : e.atomId ≠ a) (hidden : Bool) : hideAfter a hidden e = hidden := if_neg h

/-- an atom without invalidate and supersede events has no open hide -/
theorem openHide_of_quiet (hs : ∀ e, ¬ Supersedes L a e) (hi : ∀ e, ¬ Invalidates L a e) : openHide L a = false := by
  have hkeep : ∀ l : List EventRecord, (∀ e ∈ l, e ∈ L) → l.foldl (hideAfter a) false = false := by
    intro l hl
    induction l with
    | nil => rfl
    | cons e l ih =>
      have he : hideAfter a false e = false := by
        by_cases hea : e.atomId = a
        · have hmem := hl e List.mem_cons_self
          cases hty : e.eventType with
          | invalidate => exact absurd ⟨hmem, hea, hty⟩ (hi e)
          | supersede => exact absurd ⟨hmem, hea, hty⟩ (hs e)
          | _ => simp [hideAfter, hty]
        · exact hideAfter_other hea false
      rw [List.foldl_cons, he]
      exact ih fun f hf => hl f (List.mem_cons_of_mem _ hf)
  exact hkeep L fun _ he => he

/-! ## One row -/

/-- a row that is current, or that restore or restorePurgeBatch would make current, has no winner, and `H` holds -/
structure Shows (H : Prop) (m : Memory) : Prop where
  unmarked : m.validTo = none → m.archived = false ∧ m.purgeBatchId = none
  single : m.archived = true → m.purgeBatchId = none
  undone : m.validTo = none ∨ m.archived = true ∨ m.purgeBatchId ≠ none → m.supersededBy = none ∧ H

theorem Shows.imp {H H' : Prop} {m : Memory} (h : Shows H m) (hH : H → H') : Shows H' m :=
  ⟨h.unmarked, h.single, fun hm => (h.undone hm).imp_right hH⟩

/-- a row that is hidden for good shows nothing -/
theorem Shows.of_hidden {H : Prop} {m : Memory} (hv : m.validTo ≠ none) (ha : m.archived = false)
    (hp : m.purgeBatchId = none) : Shows H m := by
  refine ⟨fun hc => absurd hc hv, fun _ => hp, ?_⟩
  rintro (hc | hc | hc)
  · exact absurd hc hv
  · exact absurd (ha.symm.trans hc) (by decide)
  · exact absurd hp hc

theorem Rewrite.shows {now : Time} {m : Memory} {f : Memory → Memory} {ty : MemoryEventType} {H H' : Prop}
    (h : Rewrite now m f ty) (hm : Shows H m) (hkeep : H → ty ≠ .invalidate → H') (hundo : ty = .unsupersede → H') :
    Shows H' (f m) := by
  cases h with
  | invalidate hv =>
    obtain ⟨ha, hp⟩ := hm.unmarked hv
    exact .of_hidden (by simp) ha hp
  | archive hv =>
    obtain ⟨-, hp⟩ := hm.unmarked hv
    exact ⟨fun hc => (by cases hc), fun _ => hp, fun _ => (hm.undone (Or.inl hv)).imp_right fun hh =>
      hkeep hh (by decide)⟩
  | restore ha =>
    exact ⟨fun _ => ⟨rfl, hm.single ha⟩, fun _ => hm.single ha, fun _ => (hm.undone (Or.inr (Or.inl ha))).imp_right
      fun hh => hkeep hh (by decide)⟩
  | unsupersede ha hs =>
    have hp : m.purgeBatchId = none := by
      by_contra hp
      exact hs (hm.undone (Or.inr (Or.inr hp))).1
    exact ⟨fun _ => ⟨ha, hp⟩, fun _ => hp, fun _ => ⟨rfl, hundo rfl⟩⟩
  | purge b hv =>
    obtain ⟨ha, -⟩ := hm.unmarked hv
    exact ⟨fun hc => (by cases hc), fun hc => absurd (ha.symm.trans hc) (by decide),
      fun _ => (hm.undone (Or.inl hv)).imp_right fun hh => hkeep hh (by decide)⟩
  | unpurge hp =>
    have ha : m.archived = false := by
      by_contra ha
      exact hp (hm.single (by simpa using ha))
    exact ⟨fun _ => ⟨ha, rfl⟩, fun _ => rfl, fun _ => (hm.undone (Or.inr (Or.inr hp))).imp_right fun hh =>
      hkeep hh (by decide)⟩
  | promoteScope scope =>
    exact ⟨hm.unmarked, hm.single, fun hc => (hm.undone hc).imp_right fun hh => hkeep hh (by decide)⟩

/-! ## Local operations -/

structure HidesOk (s : St) : Prop where
  ids : UniqueIds s
  named : ∀ e ∈ records s, e.eventType = .supersede → supersedeTarget e ≠ none
  rows : ∀ a m, findRow s a = some m → Shows (openHide (records s) a = false) m

/-- the id the next insert draws is that of no known atom -/
def FreshId (E : Env) (s : St) : Prop := ∀ e ∈ records s, e.atomId ≠ E.uuid s.drawn

instance (E : Env) (s : St) : Decidable (FreshId E s) := inferInstanceAs (Decidable (∀ e ∈ records s, _))

variable {E : Env} {Q : AtomId → AtomId → Prop} {K : Memory → Prop} {s t : St} {batch : PullBatch} {P : Set AtomId}

/-- an event of one atom goes into the log, and its row alone changes -/
theorem HidesOk.log (h : HidesOk s) (hids : UniqueIds t) (hlog : records t = records s ++ [e])
    (hnamed : e.eventType = .supersede → supersedeTarget e ≠ none) (hother : ∀ a, a ≠ e.atomId → findRow t a = findRow s a)
    (hself : ∀ m, findRow t e.atomId = some m → Shows (hideAfter e.atomId (openHide (records s) e.atomId) e = false) m) :
    HidesOk t where
  ids := hids
  named f hf := by
    rw [hlog] at hf
    rcases List.mem_append.1 hf with hf | hf
    · exact h.named f hf
    · exact List.mem_singleton.1 hf ▸ hnamed
  rows a m hm := by
    rw [hlog, openHide_snoc]
    by_cases ha : a = e.atomId
    · subst ha
      exact hself m hm
    · rw [hideAfter_other (Ne.symm ha)]
      exact h.rows a m (by rwa [hother a ha] at hm)

theorem HidesOk.effect (h : HidesOk s) (he : Effect E Q (fun u _ => FreshId E u) K s t) : HidesOk t := by
  have hids := he.unique h.ids
  have hsame : records t = records s → (∀ a, findRow t a = findRow s a) → HidesOk t := fun hr hrow =>
    ⟨hids, by rw [hr]; exact h.named, fun a m hm => by rw [hr]; exact h.rows a m (by rwa [hrow] at hm)⟩
  cases he with
  | frame hf => exact hsame hf.records fun a => findRow_congr hf.memories a
  | inserted input rowid now at_ hfresh _ hn =>
    have hrow := findRow_snoc (s := s) (m := { newRow input (E.uuid s.drawn) now with rowid := rowid })
      (t := { s with memories := s.memories ++ [{ newRow input (E.uuid s.drawn) now with rowid := rowid }] }) rfl hn
    refine h.log hids (append_records ..) (fun hc => by cases hc) (fun a ha => (hrow a).trans (if_neg ha))
      fun m hm => ?_
    obtain rfl := Option.some.inj (((hrow _).trans (if_pos rfl)).symm.trans hm)
    refine ⟨fun _ => ⟨rfl, rfl⟩, fun _ => rfl, fun _ => ⟨rfl, ?_⟩⟩
    rw [openHide_of_quiet (fun e he => hfresh e he.1 he.2.1) fun e he => hfresh e he.1 he.2.1]
    simp [hideAfter]
  | rewritten now p hm hr =>
    rename_i b m f ty
    have hrow := fun a => findRow_updateRow s b a hr.id_eq
    refine h.log hids (append_records ..) (fun hc => ?_) (fun a ha => ?_) fun x hx => ?_
    · cases hr <;> cases hc
    · exact (findRow_append ..).trans (findRow_updateRow_ne s b a hr.id_eq ha)
    · have hx' := (findRow_updateRow_self s b hr.id_eq).symm.trans hx
      rw [hm] at hx'
      obtain rfl := Option.some.inj hx'
      refine hr.shows (h.rows b m hm) (fun ho hne => ?_) fun hu => ?_
      · rw [ho]
        cases hr <;> simp [hideAfter] at hne ⊢
      · subst hu
        simp [hideAfter]
  | touched validFrom now =>
    rename_i b
    refine ⟨hids, h.named, fun a m hm => ?_⟩
    obtain ⟨y, hy, hxy⟩ := Option.map_eq_some_iff.1 ((findRow_updateRow s b a
      (f := fun x => { x with validFrom := validFrom x, updatedAt := now }) fun _ => rfl).symm.trans hm)
    have hc := h.rows a y hy
    split_ifs at hxy
    · subst hxy
      exact ⟨hc.unmarked, hc.single, hc.undone⟩
    · exact hxy ▸ hc
  | superseded p now hm hv hmw hvw hq =>
    rename_i b w m mw
    have hrow := fun a => findRow_updateRow s b a
      (f := fun x => { x with validTo := some now, supersededBy := some w, updatedAt := now }) fun _ => rfl
    refine h.log hids (append_records ..) (fun _ hc => ?_) (fun a ha => ?_) fun x hx => ?_
    · cases p <;> cases hc
    · refine (hrow a).trans ?_
      simp [show a ≠ b from ha]
    · have hx' := (hrow b).symm.trans hx
      rw [hm] at hx'
      simp only [if_true, Option.map_some] at hx'
      obtain rfl := Option.some.inj hx'
      obtain ⟨ha, hp⟩ := (h.rows b m hm).unmarked hv
      exact .of_hidden (by simp) ha hp
  | noted b p now =>
    refine h.log hids (append_records ..) (fun hc => by cases hc) (fun a _ => rfl) fun x hx => ?_
    refine (h.rows b x hx).imp fun ho => ?_
    rw [ho]
    simp [hideAfter]
  | erased reason now hm =>
    rename_i b m
    have hrow := fun a => findRow_deleteRow (deleteVec (append E s .eraseRequest b
      (some { scope := some m.scope, reason }) (some m.hash) now) m.rowid) b a
    refine h.log hids (append_records ..) (fun hc => by cases hc) (fun a ha => (hrow a).trans (if_neg ha))
      fun x hx => ?_
    have hx' := ((hrow b).trans (if_pos rfl)).symm.trans hx
    cases hx'
  | linked link => exact hsame rfl fun b => rfl
  | related r => exact hsame rfl fun b => rfl
  | vectored => exact hsame rfl fun b => rfl

/-! ## Pulls -/

/-- the row of the atom carries the mark of archive or purgeBatch -/
def Marked (s : St) (a : AtomId) : Prop := ∃ m, findRow s a = some m ∧ (m.archived = true ∨ m.purgeBatchId ≠ none)

/-- the pull hides no archived or purged memory, and its supersede events name their winners -/
structure PullHidesSafely (E : Env) (s : St) (batch : PullBatch) : Prop where
  named : ∀ e ∈ batch.events, e.eventType = .supersede → supersedeTarget e.toEventRecord ≠ none
  unchained : ∀ a, Marked s a → ¬ (pullForks E s batch).Chained a
  untouched : ∀ a, Marked s a → Touched s batch a →
    ∀ e ∈ pulledLog s batch, e.atomId = a → e.eventType ≠ .invalidate ∧ e.eventType ≠ .supersede

/-- on the way through a pull, a pending row is not held to its events -/
structure PullHides (s : St) (P : Set AtomId) (u : St) : Prop where
  ids : UniqueIds u
  named : ∀ e ∈ records u, e.eventType = .supersede → supersedeTarget e ≠ none
  rows : ∀ a m, findRow u a = some m → Shows (a ∉ P → openHide (records u) a = false) m
  marked : ∀ a m, findRow u a = some m → m.archived = true ∨ m.purgeBatchId ≠ none → Marked s a

variable {u : St}

/-- an effect on `a` that leaves the log as it is -/
theorem PullHides.on (h : PullHides s P u) {v : St} (hids : UniqueIds v) (hlog : records v = records u)
    (hother : ∀ b, b ≠ a → ∀ m, findRow v b = some m → findRow u b = some m)
    (hself : ∀ m, findRow v a = some m → Shows (openHide (records u) a = false) m ∧
      (m.archived = true ∨ m.purgeBatchId ≠ none → Marked s a)) : PullHides s (P \ {a}) v where
  ids := hids
  named := by rw [hlog]; exact h.named
  rows b m hm := by
    rw [hlog]
    by_cases hba : b = a
    · subst hba
      exact (hself m hm).1.imp fun ho _ => ho
    · exact (h.rows b m (hother b hba m hm)).imp fun ho hb => ho fun hp => hb ⟨hp, hba⟩
  marked b m hm := by
    by_cases hba : b = a
    · subst hba
      exact (hself m hm).2
    · exact h.marked b m (hother b hba m hm)

/-- a row the pull hides carries no mark -/
theorem PullHides.unmarked (h : PullHides s P u) (hsafe : PullHidesSafely E s batch) (hj : Pulling E s batch u)
    (ha : Touched s batch a ∨ (pullForks E s batch).Chained a)
    (hhide : ∃ e ∈ records u, e.atomId = a ∧ (e.eventType = .invalidate ∨ e.eventType = .supersede)) {m : Memory}
    (hm : findRow u a = some m) : m.archived = false ∧ m.purgeBatchId = none := by
  have hno : ¬ (m.archived = true ∨ m.purgeBatchId ≠ none) := by
    intro hmark
    have hma := h.marked a m hm hmark
    have hch := hsafe.unchained a hma
    obtain ⟨e, he, hea, hty⟩ := hhide
    obtain ⟨h1, h2⟩ := hsafe.untouched a hma (ha.resolve_right hch) e (((hj.sameLog hch) e hea).1 he) hea
    exact hty.elim h1 h2
  simpa using hno

theorem pullHides_effects (hsafe : PullHidesSafely E s batch) : PullEffects E s batch (PullHides s) where
  weaken {P P' u} hPP h := ⟨h.ids, h.named, fun a m hm => (h.rows a m hm).imp fun ho ha => ho fun hp => ha (hPP hp),
    h.marked⟩
  erased {P u a} ha hj h he := by
    have huniq : PullEffects E s batch fun _ v => UniqueIds v := unique_effects
    refine h.on (huniq.erased (P := ∅) ha hj h.ids he) (hardDeleteAtom_records u a) (fun b hb m hm => ?_)
      fun m hm => ?_
    · rwa [findRow_hardDeleteAtom, if_neg hb] at hm
    · rw [findRow_hardDeleteAtom, if_pos rfl] at hm
      cases hm
  absent {P u a} _ _ h _ hn := by
    refine h.on h.ids rfl (fun _ _ _ hm => hm) fun m hm => ?_
    rw [hn] at hm
    cases hm
  quiet {P u a} _ _ h _ hs hi := by
    refine h.on h.ids rfl (fun _ _ _ hm => hm) fun m hm => ⟨?_, h.marked a m hm⟩
    exact (h.rows a m hm).imp fun _ => openHide_of_quiet hs hi
  unresolved {P u a} _ _ h _ hs hn := by
    obtain ⟨e, he⟩ := hs
    obtain ⟨w, hw⟩ := Option.ne_none_iff_exists'.1 (h.named e he.1 he.2.2)
    exact absurd ⟨he, hw⟩ (hn { e with target := w })
  invalidated {P u a v} ha hj h hp hs hv := by
    have huniq : PullEffects E s batch fun _ v => UniqueIds v := unique_effects
    refine h.on (huniq.invalidated (P := ∅) ha hj h.ids hp hs hv) rfl (fun b hb m hm => ?_)
      fun m hm => ?_
    · rwa [findRow_hideInvalidated_ne E u v hb] at hm
    · rw [findRow_hideInvalidated_self, Option.map_eq_some_iff] at hm
      obtain ⟨m0, hm0, rfl⟩ := hm
      obtain ⟨⟨e, he, -⟩, -⟩ := hv
      obtain ⟨har, hp⟩ := h.unmarked hsafe hj ha ⟨e, he.1, he.2.1, Or.inl he.2.2⟩ hm0
      exact ⟨.of_hidden (by simp) har hp, h.marked a m0 hm0⟩
  superseded {P u a w v} ha hj h hp hw hv := by
    have huniq : PullEffects E s batch fun _ v => UniqueIds v := unique_effects
    refine h.on (huniq.superseded (P := ∅) ha hj h.ids hp hw hv) rfl (fun b hb m hm => ?_)
      fun m hm => ?_
    · rwa [findRow_hideSuperseded_ne E u v w.target hb] at hm
    · rw [findRow_hideSuperseded_self, Option.map_eq_some_iff] at hm
      obtain ⟨m0, hm0, rfl⟩ := hm
      obtain ⟨har, hp⟩ := h.unmarked hsafe hj ha ⟨_, hw.mem.1.1, hw.mem.1.2.1, Or.inr hw.mem.1.2.2⟩ hm0
      exact ⟨.of_hidden (by simp) har hp, h.marked a m0 hm0⟩
  chain {P u y w at_} _ h _ _ := by
    refine ⟨h.ids, fun e he => ?_, fun a m hm => (h.rows a m hm).imp fun ho ha => ?_, h.marked⟩
    · rw [chainEvent_records] at he
      rcases List.mem_append.1 he with he | he
      · exact h.named e he
      · rw [List.mem_singleton.1 he]
        exact fun _ hc => by cases hc
    · rw [chainEvent_records, openHide_snoc, hideAfter_other fun hc => ha (Or.inl hc.symm)]
      exact ho fun hp => ha (Or.inr hp)

/-- the state after the first loop -/
theorem HidesOk.merged (h : HidesOk s) (hsafe : PullHidesSafely E s batch) {m : St} {touched : List AtomId}
    (hm : Merges s (incoming s batch) m touched) : PullHides s {a | Touched s batch a} m where
  ids := hm.unique .id h.ids
  named e he := by
    rw [hm.log] at he
    rcases List.mem_append.1 he with he | he
    · exact h.named e he
    · obtain ⟨f, hf, rfl⟩ := List.mem_map.1 he
      exact hsafe.named f ((newEvents_sublist _ _).subset hf)
  rows a x hx := by
    cases hs : findRow s a with
    | some y =>
      obtain rfl := Option.some.inj ((hm.findRow_of_some hs).symm.trans hx)
      refine (h.rows a y hs).imp fun ho ha => ?_
      rw [hm.log, openHide_append]
      · exact ho
      · intro e he
        obtain ⟨f, hf, rfl⟩ := List.mem_map.1 he
        exact hideAfter_other fun hc => ha ⟨f, hf, hc⟩
    | none =>
      obtain ⟨e, he, hea, sn, now, k, -, rfl⟩ := hm.made_row hx hs
      exact ⟨fun _ => ⟨rfl, rfl⟩, fun _ => rfl, fun _ => ⟨rfl, fun hn => absurd ⟨e, he, hea⟩ hn⟩⟩
  marked a x hx hmark := by
    cases hs : findRow s a with
    | some y =>
      obtain rfl := Option.some.inj ((hm.findRow_of_some hs).symm.trans hx)
      exact ⟨y, hs, hmark⟩
    | none =>
      obtain ⟨e, he, hea, sn, now, k, -, rfl⟩ := hm.made_row hx hs
      rcases hmark with hc | hc
      · cases hc
      · exact absurd rfl hc

theorem HidesOk.pull (h : HidesOk s) (hsafe : PullHidesSafely E s batch) (hp : pullOnce E s batch = .ok t) :
    HidesOk t := by
  rcases pull_rule hp with ⟨-, rfl⟩ | ⟨m, touched, u, hm, rfl, -, hI⟩
  · exact h
  · have hu := hI _ (pullHides_effects hsafe) (h.merged hsafe hm)
    exact ⟨hu.ids, hu.named, fun a x hx => (hu.rows a x hx).imp fun ho => ho (Set.notMem_empty a)⟩

/-! ## Runs -/

/-- the step is safe: an insert draws the id of no known atom, a pull hides no archived or purged memory -/
structure HidesSafely (E : Env) (s : St) (op : Op) : Prop where
  fresh : op.inserts s ≠ none → FreshId E s
  pull : ∀ batch, op = .pull batch → PullHidesSafely E s batch

theorem HidesOk.step (h : HidesOk s) {op : Op} (hsafe : HidesSafely E s op) : HidesOk (step E s op) := by
  refine step_inv h.ids { Permits.all s op with insert := fun x hx u hu hd e he => ?_ } (fun _ _ hs he => hs.effect he)
    (fun batch t hop ht => h.pull (hsafe.pull batch hop) ht) h
  rw [hu.records] at he
  rw [hd]
  exact hsafe.fresh (by rw [hx]; simp) e he

/-- **A hide is undone by its own inverse only.** In every state of a run of safe steps, a current memory has no winner
and no open hide. -/
theorem hides_survive (E : Env) (sessions : List SessionId) (ops : List Op)
    (h : Along (step E) (HidesSafely E) { sessions } ops) :
    ∀ m ∈ (run E { sessions } ops).memories, m.validTo = none →
      m.supersededBy = none ∧ openHide (records (run E { sessions } ops)) m.id = false := by
  have hstart : HidesOk { sessions } :=
    ⟨List.nodup_nil, fun e he => absurd he List.not_mem_nil, fun a m hm => by cases hm⟩
  have hend : HidesOk (run E { sessions } ops) := along_inv HidesOk (fun _ _ hs hP => hs.step hP) hstart h
  exact fun m hm hv => (hend.rows m.id m (findRow_of_mem hend.ids hm)).undone (Or.inl hv)

theorem hidesSafely_local {op : Op} (hop : op.isPull = false) (h : FreshId E s) : HidesSafely E s op :=
  ⟨fun _ => h, fun _ hc => by rw [hc] at hop; cases hop⟩

theorem hidesSafely_pull (hnamed : ∀ e ∈ batch.events, e.eventType = .supersede → supersedeTarget e.toEventRecord ≠ none)
    (h : ∀ m ∈ s.memories, m.archived = false ∧ m.purgeBatchId = none) : HidesSafely E s (.pull batch) := by
  have hno : ∀ a, ¬ Marked s a := by
    rintro a ⟨m, hm, hmark⟩
    obtain ⟨ha, hp⟩ := h m (findRow_mem hm)
    exact hmark.elim (fun hc => by rw [ha] at hc; cases hc) fun hc => hc hp
  refine ⟨fun hc => absurd rfl hc, ?_⟩
  rintro _ ⟨⟩
  exact ⟨hnamed, fun a hm => absurd hm (hno a), fun a hm => absurd hm (hno a)⟩

def remoteSupersede : PullBatch := ⟨[supersedeEvent 900 0 2 10], none⟩

/-- memories 0 and 2; 0 is archived and restored, superseded by 2 on another device, and not archived any more -/
def survivingOps : List Op :=
  [.remember (rememberInput 1 "a"), .remember (rememberInput 2 "b"), .archive 0 none, .restore 0,
    .pull remoteSupersede, .restore 0]

theorem hides_survive_pull :
    (run countingEnv { sessions := [] } survivingOps).memories.map (·.supersededBy) = [some 2, none] ∧
      ∀ m ∈ (run countingEnv { sessions := [] } survivingOps).memories, m.validTo = none →
        m.supersededBy = none ∧ openHide (records (run countingEnv { sessions := [] } survivingOps)) m.id = false :=
  ⟨by decide, hides_survive countingEnv [] survivingOps
    ⟨hidesSafely_local rfl (by decide), hidesSafely_local rfl (by decide), hidesSafely_local rfl (by decide),
      hidesSafely_local rfl (by decide), hidesSafely_pull (by decide) (by decide),
      hidesSafely_local rfl (by decide), trivial⟩⟩

/-- **restore() undoes a remote supersede.** The memory was archived when the supersede arrived: restore makes it
current, with its winner still set. -/
theorem restore_undoes_supersede :
    (findRow (run countingEnv {} [.remember (rememberInput 1 "a"), .remember (rememberInput 2 "b"), .archive 0 none,
      .pull remoteSupersede, .restore 0]) 0).map rowProjection = some (none, some 2) := by
  decide

end AstramemLocal.Daemon
