/-
`src/sync/backfill.ts`: private memories are promoted and 'create' events without a payload get one, before they ship
(`applyBackfill`) or after (`applyReship`). A dry run counts what an apply would do (`planBackfill`, `planReship`), by
queries of its own. NULL is the one payload without keys here.

- `promoteAll`: the promotions go through, one event each.
- `backfill_as_planned`, `reship_as_planned`: the counts of a plan are the rows its apply adds and rewrites.
- `plan_equals_apply`: both, and a second apply finds nothing to do.
-/
import AstramemLocal.Core.Runs
import AstramemLocal.Core.Table
import AstramemLocal.Store.MemoryEvents
import AstramemLocal.Sync.Shipper

namespace AstramemLocal.Sync

open AstramemLocal.Store AstramemLocal.Core

/-! ## Model -/

/-- `Extract<MemoryScope, 'team' | 'org'>` -/
inductive ShareableScope where
  | team | org
deriving DecidableEq, Repr

def ShareableScope.scope : ShareableScope → MemoryScope
  | .team => .team
  | .org => .org

structure BackfillOptions where
  scope : ShareableScope
  project : Option String
deriving DecidableEq, Repr

structure BackfillPlan where
  scope : MemoryScope
  project : Option String
  privateToPromote : ℕ
  alreadyShareable : ℕ
  createEventsToBackfill : ℕ
deriving DecidableEq, Repr

structure BackfillResult where
  promoted : ℕ
  backfilled : ℕ
deriving DecidableEq, Repr

/-- `whereProject`: an empty name is no restriction -/
def inProject (project : Option String) (m : Memory) : Bool := project.all fun p => p = "" ∨ m.project = some p

/-- a 'create' event without a payload -/
def emptyCreate (e : MemoryEvent) : Bool := e.eventType = .create ∧ e.payloadJson = none

def planBackfill (s : St) (opts : BackfillOptions) : BackfillPlan where
  scope := opts.scope.scope
  project := opts.project
  privateToPromote := s.memories.countP fun m => m.scope = .priv ∧ inProject opts.project m
  alreadyShareable := s.memories.countP fun m => shared (some m.scope) ∧ inProject opts.project m
  createEventsToBackfill := s.memoryEvents.countP fun e =>
    emptyCreate e ∧ e.syncedAt = none ∧ (findRow s e.atomId).any (inProject opts.project)

/-- `json_object('text', m.text, ..)` -/
def contentPayload (m : Memory) : Payload :=
  { text := some m.text
    type := some m.type
    scope := some m.scope
    importance := some m.importance
    confidence := some m.confidence
    repo := some ((m.repo.or m.project).getD "") }

/-- `SET payload_json = (SELECT .. FROM memories m WHERE m.id = memory_events.atom_id)` -/
def fillPayload (s : St) (e : MemoryEvent) : MemoryEvent :=
  { e with payloadJson := (findRow s e.atomId).map contentPayload }

/-- `SELECT id FROM memories WHERE ..` -/
def selectIds (s : St) (p : Memory → Bool) : List AtomId := (s.memories.filter p).map (·.id)

def backfillable (s : St) (project : Option String) (e : MemoryEvent) : Bool :=
  emptyCreate e ∧ e.syncedAt = none ∧ e.atomId ∈ selectIds s fun m => shared (some m.scope) ∧ inProject project m

/-- one transaction: a promotion that throws undoes it all -/
def applyBackfill (E : Env) (s : St) (opts : BackfillOptions) : Except LifecycleError (St × BackfillResult) :=
  let rows := selectIds s fun m => m.scope = .priv ∧ inProject opts.project m
  match rows.foldlM (fun s id => promoteScope E s id opts.scope.scope) s with
  | .error e => .error e
  | .ok s =>
    let filled := updateWhere (backfillable s opts.project ·) (fillPayload s) s.memoryEvents
    .ok ({ s with memoryEvents := filled }, ⟨rows.length, s.memoryEvents.countP (backfillable s opts.project)⟩)

structure ReshipOptions where
  scope : Option ShareableScope
  project : Option String
deriving DecidableEq, Repr

/-- `whereScope` -/
def inScope (scope : Option ShareableScope) (m : Memory) : Bool :=
  match scope with
  | some scope => m.scope = scope.scope
  | none => shared (some m.scope)

/-- the count of `planReship` -/
def planReship (s : St) (opts : ReshipOptions) : ℕ :=
  s.memoryEvents.countP fun e => emptyCreate e ∧ e.syncedAt ≠ none ∧
    (findRow s e.atomId).any fun m => inScope opts.scope m ∧ inProject opts.project m

def reshippable (s : St) (opts : ReshipOptions) (e : MemoryEvent) : Bool :=
  emptyCreate e ∧ e.syncedAt ≠ none ∧ e.atomId ∈ selectIds s fun m => inScope opts.scope m ∧ inProject opts.project m

def applyReship (s : St) (opts : ReshipOptions) : St × ℕ :=
  let filled := updateWhere (reshippable s opts ·) (fun e => { fillPayload s e with syncedAt := none }) s.memoryEvents
  ({ s with memoryEvents := filled }, s.memoryEvents.countP (reshippable s opts))

/-! ## The law -/

/-- `rewritten` rows of the log are rewritten in place, and `added` rows come after them -/
def LogChange (before after : List MemoryEvent) (rewritten added : ℕ) : Prop :=
  ∃ (g : MemoryEvent → MemoryEvent) (new : List MemoryEvent), after = before.map g ++ new ∧
    before.countP (fun e => g e ≠ e) = rewritten ∧ new.length = added

/-! ## Selections -/

section

variable {s : St} {a : AtomId} {p : Memory → Bool}

theorem mem_selectIds (h : UniqueIds s) : a ∈ selectIds s p ↔ (findRow s a).any p = true := by
  rw [Option.any_eq_true]
  constructor
  · intro ha
    obtain ⟨m, hm, rfl⟩ := List.mem_map.1 ha
    obtain ⟨hmem, hp⟩ := List.mem_filter.1 hm
    exact ⟨m, findRow_of_mem h hmem, hp⟩
  · intro ⟨m, hm, hp⟩
    exact List.mem_map.2 ⟨m, List.mem_filter.2 ⟨findRow_mem hm, hp⟩, findRow_id hm⟩

theorem selectIds_nodup (h : UniqueIds s) : (selectIds s p).Nodup := List.Nodup.sublist (List.filter_sublist.map _) h

theorem length_selectIds : (selectIds s p).length = s.memories.countP p := by
  rw [selectIds, List.length_map, ← List.countP_eq_length_filter]

/-- an UPDATE that changes every row it selects rewrites as many rows as it selects -/
theorem logChange_updateWhere (rows : List MemoryEvent) {new : List MemoryEvent} {q : MemoryEvent → Bool} {f : MemoryEvent → MemoryEvent}
    (hf : ∀ e, q e = true → f e ≠ e) (hnew : ∀ e ∈ new, q e = false) :
    LogChange rows (updateWhere (q ·) f (rows ++ new)) (rows.countP q) new.length := by
  refine ⟨fun e => if q e then f e else e, new, ?_, ?_, rfl⟩
  · have hself : new.map (fun e => if q e then f e else e) = new := by
      refine (List.map_congr_left fun e he => ?_).trans (List.map_id new)
      rw [hnew e he]
      rfl
    rw [updateWhere, List.map_append, hself]
  · refine List.countP_congr fun e _ => ?_
    simp only [decide_eq_true_eq]
    constructor
    · intro hne
      by_contra hq
      exact hne (if_neg hq)
    · intro hq
      rw [if_pos hq]
      exact hf e hq

end

/-! ## Promotions -/

/-- what the promotions have done: the scope of the selected memories, and one event each -/
structure Promoted (s t : St) (ids : List AtomId) (scope : MemoryScope) : Prop where
  unique : UniqueIds t
  rows : ∀ a, findRow t a = none ∧ findRow s a = none ∨ ∃ m n, findRow s a = some m ∧ findRow t a = some n ∧
    n.scope = (if a ∈ ids then scope else m.scope) ∧ n.project = m.project
  log : ∃ new, t.memoryEvents = s.memoryEvents ++ new ∧ new.length = ids.length ∧ ∀ e ∈ new, e.eventType = .promoteScope

variable {E : Env} {s t : St}

theorem promoteScope_present (E : Env) {a : AtomId} {m : Memory} (scope : ShareableScope) (hm : findRow s a = some m)
    (hp : m.scope = .priv) : promoteScope E s a scope.scope = .ok (append E (updateRow (tick s) a fun m =>
      { m with scope := scope.scope, updatedAt := E.now s.clock }) .promoteScope a
      (some { fromScope := some m.scope, toScope := some scope.scope }) none (E.now s.clock)) := by
  have hrank : ¬ scopeRank scope.scope ≤ scopeRank m.scope := by
    rw [hp]
    cases scope <;> decide
  unfold promoteScope
  rw [hm]
  exact if_neg hrank

theorem promoteAll (scope : ShareableScope) (ids : List AtomId) : ∀ s : St, UniqueIds s → ids.Nodup →
    (∀ a ∈ ids, ∃ m, findRow s a = some m ∧ m.scope = .priv) →
    ∃ t, ids.foldlM (fun s id => promoteScope E s id scope.scope) s = .ok t ∧ Promoted s t ids scope.scope := by
  induction ids with
  | nil =>
    intro s hs _ _
    refine ⟨s, rfl, hs, fun a => ?_, [], (List.append_nil _).symm, rfl, fun e he => by cases he⟩
    cases hm : findRow s a with
    | none => exact Or.inl ⟨rfl, rfl⟩
    | some m => exact Or.inr ⟨m, m, rfl, rfl, rfl, rfl⟩
  | cons id ids ih =>
    intro s hs hnd hrows
    obtain ⟨hid, hnd⟩ := List.nodup_cons.1 hnd
    obtain ⟨m, hm, hp⟩ := hrows id List.mem_cons_self
    have hok := promoteScope_present E scope hm hp
    generalize hu : append E (updateRow (tick s) id fun m =>
      { m with scope := scope.scope, updatedAt := E.now s.clock }) .promoteScope id
      (some { fromScope := some m.scope, toScope := some scope.scope }) none (E.now s.clock) = u at hok
    have hrow : ∀ a, findRow u a = (findRow s a).map fun m =>
        if a = id then { m with scope := scope.scope, updatedAt := E.now s.clock } else m := by
      intro a
      rw [← hu]
      exact findRow_updateRow (tick s) id a fun _ => rfl
    have hunique : UniqueIds u := by
      rw [← hu]
      exact Unique.updateRow hs id fun _ => rfl
    obtain ⟨t, hrest, hpromoted⟩ := ih u hunique hnd fun a ha => by
      obtain ⟨x, hx, hxp⟩ := hrows a (List.mem_cons_of_mem _ ha)
      have hne : a ≠ id := fun heq => hid (heq ▸ ha)
      refine ⟨x, ?_, hxp⟩
      rw [hrow, hx, Option.map_some, if_neg hne]
    refine ⟨t, ?_, hpromoted.unique, fun a => ?_, ?_⟩
    · rw [List.foldlM_cons, hok]
      exact hrest
    · rcases hpromoted.rows a with ⟨ht, hnone⟩ | ⟨x, n, hx, hn, hscope, hproject⟩
      · rw [hrow, Option.map_eq_none_iff] at hnone
        exact Or.inl ⟨ht, hnone⟩
      · rw [hrow] at hx
        obtain ⟨y, hy, hyx⟩ := Option.map_eq_some_iff.1 hx
        refine Or.inr ⟨y, n, hy, hn, ?_, ?_⟩
        · rw [hscope, ← hyx]
          by_cases ha : a = id
          · simp [ha]
          · simp [ha]
        · rw [hproject, ← hyx]
          split <;> rfl
    · obtain ⟨new, hlog, hlength, htypes⟩ := hpromoted.log
      refine ⟨⟨⟨E.uuid s.drawn, .promoteScope, id, some { fromScope := some m.scope, toScope := some scope.scope }, none,
        E.now s.clock⟩, s.seqHigh + 1, none, none⟩ :: new, ?_, ?_, fun e he => ?_⟩
      · rw [hlog, ← hu]
        exact List.append_assoc _ _ _
      · rw [List.length_cons, List.length_cons, hlength]
      · rcases List.mem_cons.1 he with rfl | he
        · rfl
        · exact htypes e he

/-! ## Plan and apply -/

theorem scope_cases (scope : MemoryScope) : scope = .priv ∨ shared (some scope) = true := by
  cases scope
  · exact Or.inl rfl
  · exact Or.inr rfl
  · exact Or.inr rfl

theorem ShareableScope.shared (scope : ShareableScope) : shared (some scope.scope) = true := by
  cases scope <;> rfl

/-- behind the promotions every memory of the project can be shared -/
theorem Promoted.selects {opts : BackfillOptions} (hs : UniqueIds s)
    (h : Promoted s t (selectIds s fun m => m.scope = .priv ∧ inProject opts.project m) opts.scope.scope) {a : AtomId} :
    a ∈ selectIds t (fun m => shared (some m.scope) ∧ inProject opts.project m) ↔
      (findRow s a).any (inProject opts.project) = true := by
  rw [mem_selectIds h.unique]
  rcases h.rows a with ⟨ht, hnone⟩ | ⟨m, n, hm, hn, hscope, hproject⟩
  · rw [ht, hnone]
    exact Iff.rfl
  · have hin : inProject opts.project n = inProject opts.project m := by simp only [inProject, hproject]
    rw [hm, hn, Option.any_some, Option.any_some, hin, decide_eq_true_eq]
    refine ⟨fun hsel => hsel.2, fun hsel => ⟨?_, hsel⟩⟩
    rw [hscope]
    split
    next => exact opts.scope.shared
    next hnot =>
      refine (scope_cases m.scope).resolve_left fun hpriv => hnot ?_
      rw [mem_selectIds hs, hm, Option.any_some, decide_eq_true_eq]
      exact ⟨hpriv, hsel⟩

theorem fillPayload_some {p : Memory → Bool} {e : MemoryEvent} (hs : UniqueIds s) (he : e.atomId ∈ selectIds s p) :
    ∃ payload, (fillPayload s e).payloadJson = some payload := by
  obtain ⟨m, hm, -⟩ := (Option.any_eq_true _ _).1 ((mem_selectIds hs).1 he)
  exact ⟨contentPayload m, by rw [fillPayload, hm, Option.map_some]⟩

/-- a plan counts what its UPDATE selects, once the promotions are through -/
theorem Promoted.planned {opts : BackfillOptions} (hs : UniqueIds s)
    (h : Promoted s t (selectIds s fun m => m.scope = .priv ∧ inProject opts.project m) opts.scope.scope) :
    s.memoryEvents.countP (backfillable t opts.project) = (planBackfill s opts).createEventsToBackfill := by
  refine List.countP_congr fun e _ => ?_
  simp only [backfillable, decide_eq_true_eq, h.selects hs]

/-- nothing is left to promote -/
theorem Promoted.nothing {opts : BackfillOptions} (hs : UniqueIds s)
    (h : Promoted s t (selectIds s fun m => m.scope = .priv ∧ inProject opts.project m) opts.scope.scope) :
    selectIds t (fun m => m.scope = .priv ∧ inProject opts.project m) = [] := by
  refine List.eq_nil_iff_forall_not_mem.2 fun a ha => ?_
  rw [mem_selectIds h.unique] at ha
  rcases h.rows a with ⟨ht, -⟩ | ⟨m, n, hm, hn, -, hproject⟩
  · rw [ht] at ha
    cases ha
  · rw [hn, Option.any_some, decide_eq_true_eq] at ha
    have hin : (findRow s a).any (inProject opts.project) = true := by
      have hsame : inProject opts.project m = inProject opts.project n := by simp only [inProject, hproject]
      rw [hm, Option.any_some, hsame]
      exact ha.2
    have hshared := (h.selects hs).2 hin
    rw [mem_selectIds h.unique, hn, Option.any_some, decide_eq_true_eq, ha.1] at hshared
    exact absurd hshared.1 (by decide)

theorem backfill_as_planned (E : Env) (hs : UniqueIds s) (opts : BackfillOptions) : ∃ t, applyBackfill E s opts = .ok (t,
      ⟨(planBackfill s opts).privateToPromote, (planBackfill s opts).createEventsToBackfill⟩) ∧
    LogChange s.memoryEvents t.memoryEvents (planBackfill s opts).createEventsToBackfill
      (planBackfill s opts).privateToPromote ∧
    applyBackfill E t opts = .ok (t, ⟨0, 0⟩) := by
  have hprivate : ∀ a ∈ selectIds s (fun m => m.scope = .priv ∧ inProject opts.project m),
      ∃ m, findRow s a = some m ∧ m.scope = .priv := by
    intro a ha
    obtain ⟨m, hm, hp⟩ := (Option.any_eq_true _ _).1 ((mem_selectIds hs).1 ha)
    exact ⟨m, hm, (of_decide_eq_true hp).1⟩
  obtain ⟨u, hu, h⟩ := promoteAll (E := E) opts.scope (selectIds s fun m => m.scope = .priv ∧ inProject opts.project m) s hs
    (selectIds_nodup hs) hprivate
  obtain ⟨new, hlog, hlength, htypes⟩ := h.log
  have hnew : ∀ e ∈ new, backfillable u opts.project e = false := fun e he => by
    simp [backfillable, emptyCreate, htypes e he]
  have hfill : ∀ e, backfillable u opts.project e = true → fillPayload u e ≠ e := by
    intro e he heq
    simp only [backfillable, emptyCreate, decide_eq_true_eq] at he
    obtain ⟨payload, hsome⟩ := fillPayload_some h.unique he.2.2
    rw [heq, he.1.2] at hsome
    cases hsome
  have hcount : u.memoryEvents.countP (backfillable u opts.project) = (planBackfill s opts).createEventsToBackfill := by
    rw [hlog, List.countP_append, h.planned hs, List.countP_eq_zero.2 fun e he => by simp [hnew e he], Nat.add_zero]
  have hpromoted : (selectIds s fun m => m.scope = .priv ∧ inProject opts.project m).length =
      (planBackfill s opts).privateToPromote := length_selectIds
  refine ⟨{ u with memoryEvents := updateWhere (backfillable u opts.project ·) (fillPayload u) u.memoryEvents }, ?_, ?_, ?_⟩
  · simp only [applyBackfill, hu]
    rw [hpromoted, hcount]
  · have hchange := logChange_updateWhere s.memoryEvents hfill hnew
    rw [h.planned hs, hlength, hpromoted, ← hlog] at hchange
    exact hchange
  · -- the rows that were selected have a payload now, and no memory is left to promote
    have hnone : ∀ e ∈ updateWhere (backfillable u opts.project ·) (fillPayload u) u.memoryEvents,
        ¬ backfillable u opts.project e = true := fun e he => by
      refine not_of_mem_updateWhere (p := (backfillable u opts.project · = true)) (fun r _ hr hagain => ?_) he
      simp only [backfillable, emptyCreate, decide_eq_true_eq] at hr hagain
      obtain ⟨payload, hsome⟩ := fillPayload_some h.unique hr.2.2
      rw [hagain.1.2] at hsome
      cases hsome
    have hids := h.nothing hs
    simp only [applyBackfill]
    rw [show selectIds { u with memoryEvents := updateWhere (backfillable u opts.project ·) (fillPayload u) u.memoryEvents }
      (fun m => m.scope = .priv ∧ inProject opts.project m) = [] from hids]
    refine congrArg Except.ok (Prod.ext ?_ ?_)
    · exact congrArg (fun events => { u with memoryEvents := events }) (updateWhere_eq_self hnone)
    · exact congrArg (BackfillResult.mk 0) (List.countP_eq_zero.2 hnone)

theorem reship_as_planned (hs : UniqueIds s) (opts : ReshipOptions) :
    (applyReship s opts).2 = planReship s opts ∧
      LogChange s.memoryEvents (applyReship s opts).1.memoryEvents (planReship s opts) 0 ∧
      applyReship (applyReship s opts).1 opts = ((applyReship s opts).1, 0) := by
  have hplan : s.memoryEvents.countP (reshippable s opts) = planReship s opts := by
    refine List.countP_congr fun e _ => ?_
    simp only [reshippable, decide_eq_true_eq, mem_selectIds hs]
  have hfill : ∀ e, reshippable s opts e = true → { fillPayload s e with syncedAt := none } ≠ e := by
    intro e he heq
    simp only [reshippable, emptyCreate, decide_eq_true_eq] at he
    exact he.2.1 (congrArg MemoryEvent.syncedAt heq).symm
  have hnone : ∀ e ∈ (applyReship s opts).1.memoryEvents, ¬ reshippable s opts e = true := fun e he => by
    refine not_of_mem_updateWhere (p := (reshippable s opts · = true)) (fun r _ _ hagain => ?_) he
    simp only [reshippable, decide_eq_true_eq] at hagain
    exact hagain.2.1 rfl
  refine ⟨hplan, ?_, ?_⟩
  · have hchange := logChange_updateWhere s.memoryEvents hfill fun e (he : e ∈ []) => by cases he
    rw [List.append_nil, hplan] at hchange
    exact hchange
  · refine Prod.ext ?_ ?_
    · exact congrArg (fun events => { s with memoryEvents := events }) (updateWhere_eq_self hnone)
    · exact List.countP_eq_zero.2 hnone

/-- **Plan equals apply.** -/
theorem plan_equals_apply (E : Env) (s : St) (hs : UniqueIds s) :
    (∀ opts : BackfillOptions, ∃ t, applyBackfill E s opts = .ok (t,
        ⟨(planBackfill s opts).privateToPromote, (planBackfill s opts).createEventsToBackfill⟩) ∧
      LogChange s.memoryEvents t.memoryEvents (planBackfill s opts).createEventsToBackfill
        (planBackfill s opts).privateToPromote ∧
      applyBackfill E t opts = .ok (t, ⟨0, 0⟩)) ∧
    ∀ opts : ReshipOptions, (applyReship s opts).2 = planReship s opts ∧
      LogChange s.memoryEvents (applyReship s opts).1.memoryEvents (planReship s opts) 0 ∧
      applyReship (applyReship s opts).1 opts = ((applyReship s opts).1, 0) :=
  ⟨backfill_as_planned E hs, reship_as_planned hs⟩

/-- one private memory, with two 'create' events that have no payload; the second is synced -/
def emptyReplicas : St where
  memories := [{ rowid := 1, id := 0, type := .fact, text := "a", normalizedText := "a", repo := none, project := none,
                 branch := none, agent := none, sessionId := none, importance := 1, confidence := 1, hash := 1,
                 createdAt := 0, updatedAt := 0, sourceHash := none, evidence := none, validFrom := 0, scope := .priv }]
  memoryEvents := [⟨⟨1, .create, 0, none, some 1, 0⟩, 1, none, none⟩, ⟨⟨2, .create, 0, none, some 1, 0⟩, 2, some 5, none⟩]
  seqHigh := 2

theorem plan_equals_apply_empty :
    (∃ t, applyBackfill ⟨fun i => i, fun i => i, 50, fun s => s⟩ emptyReplicas ⟨.team, none⟩ = .ok (t, ⟨1, 1⟩)) ∧
      (applyReship emptyReplicas ⟨none, none⟩).2 = 0 := by
  have h := plan_equals_apply ⟨fun i => i, fun i => i, 50, fun s => s⟩ emptyReplicas (List.nodup_singleton _)
  obtain ⟨t, ht, -⟩ := h.1 ⟨.team, none⟩
  exact ⟨⟨t, ht⟩, (h.2 ⟨none, none⟩).1⟩

end AstramemLocal.Sync
