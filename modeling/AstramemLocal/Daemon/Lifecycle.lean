/-
The four columns the lifecycle operations write: valid_to, superseded_by, archived, purge_batch_id.
* `Coherent` is what the columns of one row promise each other; every rewrite keeps it (`Rewrite.coherent`).
* `local_lifecycle`: along a run of local operations superseded_by stays acyclic and a current memory carries no mark,
  exactly when no step supersedes a current memory by itself.
* `supersede_self_cycles`: `supersede` has no guard against that.
-/
import AstramemLocal.Core.Acyclic
import AstramemLocal.Daemon.Effects

namespace AstramemLocal.Daemon

open AstramemLocal.Store AstramemLocal.Sync AstramemLocal.Distill AstramemLocal.Core Relation

/-! ## One row -/

/-- an archived or purged row is not superseded, no row is both, and a current row is none of the three -/
structure Coherent (m : Memory) : Prop where
  current : m.validTo = none → m.supersededBy = none ∧ m.archived = false ∧ m.purgeBatchId = none
  archived : m.archived = true → m.supersededBy = none ∧ m.purgeBatchId = none
  purged : m.purgeBatchId ≠ none → m.supersededBy = none

theorem Rewrite.coherent {now : Time} {m : Memory} {f : Memory → Memory} {ty : MemoryEventType}
    (h : Rewrite now m f ty) (hm : Coherent m) : Coherent (f m) := by
  cases h with
  | invalidate hv =>
    obtain ⟨hs, ha, hp⟩ := hm.current hv
    exact ⟨fun hc => (by cases hc), fun _ => ⟨hs, hp⟩, fun _ => hs⟩
  | archive hv =>
    obtain ⟨hs, ha, hp⟩ := hm.current hv
    exact ⟨fun hc => (by cases hc), fun _ => ⟨hs, hp⟩, fun _ => hs⟩
  | restore ha =>
    obtain ⟨hs, hp⟩ := hm.archived ha
    exact ⟨fun _ => ⟨hs, rfl, hp⟩, fun _ => ⟨hs, hp⟩, fun _ => hs⟩
  | unsupersede ha hs =>
    have hp : m.purgeBatchId = none := by
      by_contra hp
      exact hs (hm.purged hp)
    exact ⟨fun _ => ⟨rfl, ha, hp⟩, fun _ => ⟨rfl, hp⟩, fun _ => rfl⟩
  | purge b hv =>
    obtain ⟨hs, ha, -⟩ := hm.current hv
    refine ⟨fun hc => (by cases hc), fun hc => ?_, fun _ => hs⟩
    exact absurd (ha.symm.trans hc) (by decide)
  | unpurge hp =>
    have ha : m.archived = false := by
      by_contra ha
      exact hp (hm.archived (by simpa using ha)).2
    have hs := hm.purged hp
    exact ⟨fun _ => ⟨hs, ha, rfl⟩, fun _ => ⟨hs, rfl⟩, fun _ => hs⟩
  | promoteScope scope => exact ⟨hm.current, hm.archived, hm.purged⟩

theorem Rewrite.supersededBy {now : Time} {m : Memory} {f : Memory → Memory} {ty : MemoryEventType}
    (h : Rewrite now m f ty) : (f m).supersededBy = m.supersededBy ∨ (f m).supersededBy = none := by
  cases h with
  | unsupersede _ _ => exact Or.inr rfl
  | _ => exact Or.inl rfl

/-! ## All rows -/

/-- the superseded_by column as a relation -/
def SupersededBy (s : St) (a b : AtomId) : Prop := ∃ m, findRow s a = some m ∧ m.supersededBy = some b

structure LifecycleOk (s : St) : Prop where
  ids : UniqueIds s
  acyclic : Acyclic (SupersededBy s)
  rows : ∀ a m, findRow s a = some m → Coherent m

variable {E : Env} {A : St → Hash → Prop} {K : Memory → Prop} {s t : St}

/-- no row gets a new winner -/
theorem LifecycleOk.of_rows (h : LifecycleOk s) (hids : UniqueIds t)
    (hrows : ∀ a x, findRow t a = some x → Coherent x ∧
      (x.supersededBy = none ∨ ∃ m, findRow s a = some m ∧ x.supersededBy = m.supersededBy)) : LifecycleOk t where
  ids := hids
  acyclic := h.acyclic.mono fun a b ⟨x, hx, hb⟩ => by
    rcases (hrows a x hx).2 with hn | ⟨m, hm, heq⟩
    · rw [hn] at hb
      cases hb
    · exact ⟨m, hm, heq ▸ hb⟩
  rows a x hx := (hrows a x hx).1

theorem LifecycleOk.effect (h : LifecycleOk s) (he : Effect E (· ≠ ·) A K s t) : LifecycleOk t := by
  have hids := he.unique h.ids
  have hsame : (∀ a, findRow t a = findRow s a) → LifecycleOk t := fun hrow =>
    h.of_rows hids fun a x hx => by
      rw [hrow] at hx
      exact ⟨h.rows a x hx, Or.inr ⟨x, hx, rfl⟩⟩
  cases he with
  | frame hf => exact hsame fun a => findRow_congr hf.memories a
  | inserted input rowid now at_ _ _ hn =>
    refine h.of_rows hids fun a x hx => ?_
    rw [findRow_inserted hn] at hx
    split_ifs at hx
    · obtain rfl := Option.some.inj hx
      exact ⟨⟨fun _ => ⟨rfl, rfl, rfl⟩, fun _ => ⟨rfl, rfl⟩, fun _ => rfl⟩, Or.inl rfl⟩
    · exact ⟨h.rows a x hx, Or.inr ⟨x, hx, rfl⟩⟩
  | rewritten now p hm hr =>
    rename_i b m f ty
    refine h.of_rows hids fun a x hx => ?_
    rw [findRow_append, findRow_updateRow s b a hr.id_eq] at hx
    obtain ⟨y, hy, hxy⟩ := Option.map_eq_some_iff.1 hx
    split_ifs at hxy with hab
    · subst hab hxy
      obtain rfl := Option.some.inj (hm.symm.trans hy)
      refine ⟨hr.coherent (h.rows a m hm), ?_⟩
      rcases hr.supersededBy with heq | hn
      · exact Or.inr ⟨m, hm, heq⟩
      · exact Or.inl hn
    · subst hxy
      exact ⟨h.rows a y hy, Or.inr ⟨y, hy, rfl⟩⟩
  | touched validFrom now =>
    rename_i b
    refine h.of_rows hids fun a x hx => ?_
    have hrow := findRow_updateRow s b a (f := fun x => { x with validFrom := validFrom x, updatedAt := now }) fun _ => rfl
    obtain ⟨y, hy, hxy⟩ := Option.map_eq_some_iff.1 (hrow.symm.trans hx)
    have hc := h.rows a y hy
    split_ifs at hxy
    · subst hxy
      exact ⟨⟨hc.current, hc.archived, hc.purged⟩, Or.inr ⟨y, hy, rfl⟩⟩
    · subst hxy
      exact ⟨hc, Or.inr ⟨y, hy, rfl⟩⟩
  | superseded p now hm hv hmw hvw hne =>
    rename_i b w m mw
    have hrow := fun a => findRow_updateRow s b a
      (f := fun x => { x with validTo := some now, supersededBy := some w, updatedAt := now }) fun _ => rfl
    -- the winner is current, so no edge leaves it
    have hsink : ∀ c, ¬ SupersededBy s w c := by
      rintro c ⟨x, hx, hc⟩
      obtain rfl := Option.some.inj (hmw.symm.trans hx)
      rw [((h.rows w mw hmw).current hvw).1] at hc
      cases hc
    refine ⟨hids, (h.acyclic.insert_sink hsink hne).mono fun a c ⟨x, hx, hc⟩ => ?_, fun a x hx => ?_⟩
    · obtain ⟨y, hy, hxy⟩ := Option.map_eq_some_iff.1 ((hrow a).symm.trans hx)
      split_ifs at hxy with hab
      · subst hxy
        exact Or.inr ⟨hab, (Option.some.inj hc).symm⟩
      · exact Or.inl ⟨y, hy, hxy ▸ hc⟩
    · obtain ⟨y, hy, hxy⟩ := Option.map_eq_some_iff.1 ((hrow a).symm.trans hx)
      split_ifs at hxy with hab
      · subst hab hxy
        obtain rfl := Option.some.inj (hm.symm.trans hy)
        obtain ⟨-, ha, hp⟩ := (h.rows a m hm).current hv
        exact ⟨fun hc => (by cases hc), fun hc => absurd (ha.symm.trans hc) (by decide), fun hc => absurd hp hc⟩
      · exact hxy ▸ h.rows a y hy
  | noted a p now => exact hsame fun b => rfl
  | erased reason now hm =>
    rename_i b m
    refine h.of_rows hids fun a x hx => ?_
    rw [findRow_deleteRow] at hx
    split_ifs at hx
    exact ⟨h.rows a x hx, Or.inr ⟨x, hx, rfl⟩⟩
  | linked link => exact hsame fun b => rfl
  | related r => exact hsame fun b => rfl
  | vectored => exact hsame fun b => rfl

/-! ## Runs of local operations -/

/-- (a) nothing supersedes itself, directly or on the way, and (b) a current memory carries no mark -/
def LifecycleInvariant (s : St) : Prop :=
  Acyclic (SupersededBy s) ∧
    ∀ m ∈ s.memories, m.validTo = none → m.supersededBy = none ∧ m.archived = false ∧ m.purgeBatchId = none

/-- the step does not supersede a current memory by itself -/
def notBySelf (s : St) : Op → Bool
  | .supersede oldId newId _ _ => oldId ≠ newId ∨ (findRow s oldId).all (·.validTo ≠ none)
  | _ => true

theorem LifecycleOk.invariant (h : LifecycleOk s) : LifecycleInvariant s :=
  ⟨h.acyclic, fun _ hm => (h.rows _ _ (findRow_of_mem h.ids hm)).current⟩

theorem LifecycleOk.step {op : Op} (h : LifecycleOk s) (hpull : op.isPull = false) (hself : notBySelf s op = true) :
    LifecycleOk (step E s op) := by
  by_cases hop : ∃ a p src, op = .supersede a a p src
  · obtain ⟨a, p, src, rfl⟩ := hop
    have hhid : (findRow s a).all (·.validTo ≠ none) = true := by simpa [notBySelf] using hself
    -- the memory is unknown or not current, so the operation throws
    have herr : ∃ e, Store.supersede E s a a p src = .error e := by
      unfold Store.supersede
      cases hr : findRow s a with
      | none => exact ⟨_, rfl⟩
      | some m =>
        rw [hr] at hhid
        exact ⟨_, if_pos (by simpa using hhid)⟩
    obtain ⟨e, he⟩ := herr
    rwa [Daemon.step, exec, he]
  · refine effects_inv (fun _ _ => LifecycleOk.effect) (step_effects h.ids hpull
      { Permits.all s op with supersede := fun a w p src hop' => ?_ }) h
    rintro rfl
    exact hop ⟨a, p, src, hop'⟩

/-- a current memory can be superseded by itself -/
theorem supersede_self {a : AtomId} {m : Memory} {p : Option SupersedeProvenance} {src : CorrectionSource}
    (hm : findRow s a = some m) (hv : m.validTo = none) : SupersededBy (step E s (.supersede a a p src)) a a := by
  refine ⟨{ m with validTo := some (E.now s.clock), supersededBy := some a, validFrom := E.now s.clock,
                   updatedAt := E.now s.clock }, ?_, rfl⟩
  have hok : ∃ u, Store.supersede E s a a p src = .ok u ∧ u.memories = (updateRow (updateRow (tick s) a fun m =>
      { m with validTo := some (E.now s.clock), supersededBy := some a, updatedAt := E.now s.clock }) a fun m =>
      { m with validFrom := E.now s.clock, updatedAt := E.now s.clock }).memories := by
    unfold Store.supersede
    simp only [hm, hv, ne_eq, not_true_eq_false, if_false]
    exact ⟨_, rfl, rfl⟩
  obtain ⟨u, hu, hmem⟩ := hok
  rw [step, exec, hu]
  refine (findRow_congr hmem a).trans ?_
  rw [findRow_updateRow_self, findRow_updateRow_self, findRow_tick, hm]
  · rfl
  · exact fun _ => rfl
  · exact fun _ => rfl

/-- **The lifecycle invariant** holds in every state of a run of local operations, exactly when no step of the run
supersedes a current memory by itself. -/
theorem local_lifecycle (E : Env) (sessions : List SessionId) (ops : List Op) (hlocal : ∀ op ∈ ops, op.isPull = false) :
    (∀ pre, pre <+: ops → LifecycleInvariant (run E { sessions } pre)) ↔
      Along (step E) (fun s op => notBySelf s op = true) { sessions } ops := by
  constructor
  · refine along_of_prefixes LifecycleInvariant fun s op _ hself hgood => ?_
    cases op with
    | supersede a w p src =>
      simp only [notBySelf, decide_eq_true_eq, not_or, not_not] at hself
      obtain ⟨rfl, hcur⟩ := hself
      cases hm : findRow s a with
      | none => simp [hm] at hcur
      | some m => exact hgood.1.irrefl a (supersede_self hm (by simpa [hm] using hcur))
    | _ => exact hself rfl
  · intro h pre hpre
    have hstart : LifecycleOk { sessions } := by
      refine ⟨List.nodup_nil, fun a hc => ?_, fun _ _ hm => ?_⟩
      · obtain ⟨b, ⟨m, hm, -⟩, -⟩ := TransGen.head'_iff.1 hc
        cases hm
      · cases hm
    exact (along_inv LifecycleOk (fun s op hs hP => hs.step hP.2 hP.1) hstart
      ((h.and_forall hlocal).initial hpre)).invariant

def undoOps : List Op :=
  [.remember (rememberInput 1 "a"), .remember (rememberInput 2 "b"), .supersede 0 2 none .external,
    .supersede 0 0 none .external, .unsupersede 0 none, .supersede 2 0 none .external, .archive 0 none]

/-- two memories, merged and brought back, then merged the other way round -/
theorem local_lifecycle_undo : (∀ op ∈ undoOps, op.isPull = false) ∧
    ∀ pre, pre <+: undoOps → LifecycleInvariant (run countingEnv { sessions := [] } pre) :=
  ⟨by decide, (local_lifecycle countingEnv [] undoOps (by decide)).2 (by decide)⟩

/-- **A memory supersedes itself.** `supersede` checks that both are current, not that they are two. -/
theorem supersede_self_cycles :
    (findRow (run countingEnv {} [.remember (rememberInput 1 "a"), .supersede 0 0 none .external]) 0).map
      (·.supersededBy) = some (some 0) := by
  decide

end AstramemLocal.Daemon
