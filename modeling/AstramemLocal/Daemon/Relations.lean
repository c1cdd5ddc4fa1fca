/-
Relation triples and the memories that assert them (`src/storage/entity-relations.ts`). A read joins a row with its
evidence memory; `insert` passes over a triple that has an open row, whoever's row it is.

- `getForEntity_iff`: what a read returns, up to its limit.
- `relStep_inv`: every assertion of a memory in the database is over, or a row of the same memory stands for it.
- `relations_durable`: along a run in which no insert is passed over for the row of another memory, a triple is current
  exactly as long as a current memory has asserted it.
- `corroboration_lost`: two memories assert one triple; with the first the triple goes.
-/
import AstramemLocal.Core.Runs
import AstramemLocal.Daemon
import AstramemLocal.Search.Validity
import Mathlib.Data.List.Sort
import Mathlib.Order.Lattice

namespace AstramemLocal.Daemon

open AstramemLocal.Store AstramemLocal.Core AstramemLocal.Search

/-! ## Model -/

structure Triple where
  subjectEntityId : EntityId
  predicate : String
  objectEntityId : EntityId
deriving DecidableEq, Repr

def tripleOf (r : EntityRelation) : Triple := ⟨r.subjectEntityId, r.predicate, r.objectEntityId⟩

/-- `VALIDITY_PREDICATE`; a NULL end is past every `asOf` -/
def relationValid (asOf : Time) (er : EntityRelation) (m : Memory) : Bool :=
  max er.validFrom m.validFrom ≤ asOf ∧ er.validTo.all (asOf < ·) ∧ m.validTo.all (asOf < ·)

inductive EntityRelationDirection where
  | subject | object | both
deriving DecidableEq, Repr

def touches (direction : EntityRelationDirection) (entityId : EntityId) (t : Triple) : Bool :=
  match direction with
  | .subject => t.subjectEntityId = entityId
  | .object => t.objectEntityId = entityId
  | .both => t.subjectEntityId = entityId ∨ t.objectEntityId = entityId

/-- the rows of the JOIN with memories that pass the WHERE clause -/
def validRelations (s : St) (entityId : EntityId) (direction : EntityRelationDirection) (asOf : Time) :
    List EntityRelation :=
  s.entityRelations.filter fun er =>
    touches direction entityId (tripleOf er) ∧ (findRow s er.evidenceMemoryId).any (relationValid asOf er)

/-- `ORDER BY er.valid_from DESC LIMIT ?` -/
def getForEntity (s : St) (entityId : EntityId) (direction : EntityRelationDirection) (asOf : Time) (limit : ℕ) :
    List EntityRelation :=
  ((validRelations s entityId direction asOf).insertionSort fun a b => b.validFrom ≤ a.validFrom).take limit

/-- the triple has an open row -/
def guarded (s : St) (t : Triple) : Bool := s.entityRelations.any fun x => tripleOf x = t ∧ x.validTo = none

/-- the FOREIGN KEYs of a row -/
def referenced (s : St) (r : EntityRelation) : Bool :=
  (findRow s r.evidenceMemoryId).isSome ∧ s.entities.any (·.id = r.subjectEntityId) ∧
    s.entities.any (·.id = r.objectEntityId)

/-- `EntityRelationRepo.insert`, none where a FOREIGN KEY makes it throw: a guarded triple inserts no row to check -/
def relate (s : St) (r : EntityRelation) : Option St :=
  if guarded s (tripleOf r) ∨ referenced s r then some (insertRelation s r) else none

inductive RelationOp where
  | remember (input : InsertInput)
  | upsertEntity (name kind : String)
  | relate (r : EntityRelation)
  | invalidate (a : AtomId) (reason : Option String)
  | supersede (oldId newId : AtomId) (provenance : Option SupersedeProvenance) (source : CorrectionSource)
  | erase (a : AtomId) (reason : Option String)
deriving DecidableEq, Repr

/-- the database, and what the memories in it have asserted -/
structure Evidence where
  db : St
  asserted : List EntityRelation
deriving DecidableEq, Repr

/-- one operation; one that throws leaves the state as it was -/
def relStep (E : Env) (s : Evidence) : RelationOp → Evidence
  | .remember input =>
    match insertWithCreateEvent E s.db input with
    | .ok r => { s with db := r.1 }
    | .error _ => s
  | .upsertEntity name kind => { s with db := (Store.upsertEntity E s.db name kind).1 }
  | .relate r =>
    match relate s.db r with
    | some db => ⟨db, if (findRow s.db r.evidenceMemoryId).isSome then s.asserted ++ [r] else s.asserted⟩
    | none => s
  | .invalidate a reason =>
    match Store.invalidate E s.db a reason with
    | .ok db => { s with db }
    | .error _ => s
  | .supersede oldId newId provenance source =>
    match Store.supersede E s.db oldId newId provenance source with
    | .ok db => { s with db }
    | .error _ => s
  | .erase a reason =>
    match Store.erase E s.db a reason with
    | .ok db => ⟨db, s.asserted.filter (·.evidenceMemoryId ≠ a)⟩
    | .error _ => s

def relRun (E : Env) (s : Evidence) (ops : List RelationOp) : Evidence := ops.foldl (relStep E) s

/-! ## The law -/

/-- the window an assertion states -/
def stated (r : EntityRelation) : Window Time := ⟨r.validFrom, r.validTo⟩

/-- a memory of the database, current at `asOf`, has asserted the triple for then -/
def AssertedAt (s : Evidence) (t : Triple) (asOf : Time) : Prop :=
  ∃ r ∈ s.asserted, tripleOf r = t ∧
    ∃ m, findRow s.db r.evidenceMemoryId = some m ∧ (window m).Contains asOf ∧ (stated r).Contains asOf

/-- a read behind all clock readings, whose limit takes in what there is, returns the triples asserted for then, and
no others -/
def Durable (E : Env) (s : Evidence) : Prop :=
  ∀ (entityId : EntityId) (direction : EntityRelationDirection) (asOf : Time) (limit : ℕ),
    (∀ i < s.db.clock, E.now i ≤ asOf) → (validRelations s.db entityId direction asOf).length ≤ limit →
      ∀ t, touches direction entityId t = true →
        (t ∈ (getForEntity s.db entityId direction asOf limit).map tripleOf ↔ AssertedAt s t asOf)

/-- the row stands for the assertion from `now` on -/
def standsFor (now : Time) (x r : EntityRelation) : Bool :=
  tripleOf x = tripleOf r ∧ x.evidenceMemoryId = r.evidenceMemoryId ∧ x.validTo = none ∧
    x.validFrom ≤ max r.validFrom now

/-- the step does not lose an assertion: an insert that is passed over comes from a memory that has an open row of the
triple, or its window is over -/
def keepsEvidence (E : Env) (s : Evidence) : RelationOp → Bool
  | .relate r =>
    ¬ guarded s.db (tripleOf r) ∨ s.db.entityRelations.any (standsFor (E.now s.db.clock) · r) ∨
      r.validTo.any (· ≤ E.now s.db.clock) ∨
      (findRow s.db r.evidenceMemoryId).all fun m => m.validTo.any (· ≤ E.now s.db.clock)
  | _ => true

/-! ## Reads -/

theorem relationValid_iff {asOf : Time} {r : EntityRelation} {m : Memory} :
    relationValid asOf r m = true ↔ (window m).Contains asOf ∧ (stated r).Contains asOf := by
  simp only [relationValid, window, stated, Window.Contains, Window.OpenAt, decide_eq_true_eq, max_le_iff,
    Option.all_eq_true, Option.mem_def]
  tauto

section

variable {s : St} {entityId : EntityId} {direction : EntityRelationDirection} {asOf : Time} {limit : ℕ} {t : Triple}

/-- a read within its limit returns the rows the WHERE clause admits -/
theorem mem_getForEntity (h : (validRelations s entityId direction asOf).length ≤ limit) {r : EntityRelation} :
    r ∈ getForEntity s entityId direction asOf limit ↔ r ∈ validRelations s entityId direction asOf := by
  have hlength : ((validRelations s entityId direction asOf).insertionSort
      fun a b => b.validFrom ≤ a.validFrom).length ≤ limit := by
    rw [List.length_insertionSort]
    exact h
  rw [getForEntity, List.take_of_length_le hlength, List.mem_insertionSort]

theorem getForEntity_iff (h : (validRelations s entityId direction asOf).length ≤ limit)
    (htouch : touches direction entityId t = true) :
    t ∈ (getForEntity s entityId direction asOf limit).map tripleOf ↔
      ∃ r ∈ s.entityRelations, tripleOf r = t ∧
        ∃ m, findRow s r.evidenceMemoryId = some m ∧ (window m).Contains asOf ∧ (stated r).Contains asOf := by
  simp only [List.mem_map, mem_getForEntity h, validRelations, List.mem_filter, decide_eq_true_eq,
    Option.any_eq_true, relationValid_iff]
  constructor
  · intro ⟨r, ⟨hr, _, hvalid⟩, ht⟩
    exact ⟨r, hr, ht, hvalid⟩
  · intro ⟨r, hr, ht, hvalid⟩
    exact ⟨r, ⟨hr, ht ▸ htouch, hvalid⟩, ht⟩

end

/-! ## What stands for an assertion -/

/-- the assertion is over, at a reading of the clock taken so far -/
def IsOver (E : Env) (s : Evidence) (r : EntityRelation) : Prop :=
  ∃ i < s.db.clock, r.validTo.any (· ≤ E.now i) = true ∨
    ∀ m, findRow s.db r.evidenceMemoryId = some m → m.validTo.any (· ≤ E.now i) = true

/-- a row stands for the assertion -/
def Stands (E : Env) (s : Evidence) (r : EntityRelation) : Prop :=
  ∃ x ∈ s.db.entityRelations, x = r ∨ ∃ i < s.db.clock, standsFor (E.now i) x r = true

structure EvidenceOk (E : Env) (s : Evidence) : Prop where
  asserted : ∀ x ∈ s.db.entityRelations, x ∈ s.asserted
  present : ∀ r ∈ s.asserted, findRow s.db r.evidenceMemoryId ≠ none
  stands : ∀ r ∈ s.asserted, IsOver E s r ∨ Stands E s r

variable {E : Env} {s t : Evidence}

/-- a step that ends a memory, or leaves it its end and its rows -/
theorem EvidenceOk.lifecycle (h : EvidenceOk E s) (hclock : s.db.clock ≤ t.db.clock)
    (hasserted : ∀ r ∈ t.asserted, r ∈ s.asserted)
    (hrows : ∀ x ∈ t.db.entityRelations, x ∈ s.db.entityRelations ∧ x ∈ t.asserted)
    (hmemory : ∀ r ∈ t.asserted, ∃ m, findRow t.db r.evidenceMemoryId = some m ∧
      ((∃ i < t.db.clock, m.validTo.any (· ≤ E.now i) = true) ∨
        (∃ m₀, findRow s.db r.evidenceMemoryId = some m₀ ∧ m₀.validTo = m.validTo) ∧
          ∀ x ∈ s.db.entityRelations, x.evidenceMemoryId = r.evidenceMemoryId → x ∈ t.db.entityRelations)) :
    EvidenceOk E t where
  asserted x hx := (hrows x hx).2
  present r hr := by
    obtain ⟨m, hm, -⟩ := hmemory r hr
    rw [hm]
    exact Option.some_ne_none m
  stands r hr := by
    obtain ⟨m, hm, ⟨i, hi, hend⟩ | ⟨⟨m₀, hm₀, hsame⟩, hkept⟩⟩ := hmemory r hr
    · refine Or.inl ⟨i, hi, Or.inr fun m' hm' => ?_⟩
      obtain rfl := Option.some.inj (hm.symm.trans hm')
      exact hend
    · rcases h.stands r (hasserted r hr) with ⟨i, hi, hover⟩ | ⟨x, hx, hstands⟩
      · refine Or.inl ⟨i, lt_of_lt_of_le hi hclock, hover.imp_right fun hover m' hm' => ?_⟩
        obtain rfl := Option.some.inj (hm.symm.trans hm')
        rw [← hsame]
        exact hover m₀ hm₀
      · have hevidence : x.evidenceMemoryId = r.evidenceMemoryId := by
          rcases hstands with rfl | ⟨i, -, hstands⟩
          · rfl
          · simp only [standsFor, decide_eq_true_eq] at hstands
            exact hstands.2.1
        refine Or.inr ⟨x, hkept x hx hevidence, hstands.imp_right fun ⟨i, hi, hstands⟩ => ?_⟩
        exact ⟨i, lt_of_lt_of_le hi hclock, hstands⟩

/-- a step that leaves the rows, what is asserted and the end of every memory -/
theorem EvidenceOk.frame (h : EvidenceOk E s) (hclock : s.db.clock ≤ t.db.clock) (hasserted : t.asserted = s.asserted)
    (hrows : t.db.entityRelations = s.db.entityRelations)
    (hmemory : ∀ a m, findRow s.db a = some m → findRow t.db a = some m) : EvidenceOk E t := by
  refine h.lifecycle hclock (fun r hr => hasserted ▸ hr) (fun x hx => ?_) fun r hr => ?_
  · rw [hrows] at hx
    exact ⟨hx, hasserted ▸ h.asserted x hx⟩
  · obtain ⟨m, hm⟩ := Option.ne_none_iff_exists'.1 (h.present r (hasserted ▸ hr))
    exact ⟨m, hmemory _ m hm, Or.inr ⟨⟨m, hm, rfl⟩, fun x hx _ => hrows ▸ hx⟩⟩

theorem invalidate_evidence {a : AtomId} {reason : Option String} {db : St} (h : EvidenceOk E s)
    (hok : Store.invalidate E s.db a reason = .ok db) : EvidenceOk E { s with db } := by
  obtain ⟨row, hrow, -, rfl⟩ := Store.invalidate_ok hok
  refine h.lifecycle (Nat.le_succ _) (fun r hr => hr) (fun x hx => ⟨hx, h.asserted x hx⟩) fun r hr => ?_
  obtain ⟨m, hm⟩ := Option.ne_none_iff_exists'.1 (h.present r hr)
  have hrow := findRow_updateRow (tick s.db) a r.evidenceMemoryId
    (f := fun m => { m with validTo := some (E.now s.db.clock), updatedAt := E.now s.db.clock }) fun _ => rfl
  rw [findRow_tick, hm] at hrow
  refine ⟨_, hrow, ?_⟩
  by_cases hra : r.evidenceMemoryId = a
  · refine Or.inl ⟨s.db.clock, Nat.lt_succ_self _, ?_⟩
    simp [if_pos hra]
  · refine Or.inr ⟨⟨m, hm, ?_⟩, fun x hx _ => hx⟩
    simp only [if_neg hra]

/-- the rows of the memory that is superseded go, and so do they count for nothing from now on -/
theorem supersede_evidence {a w : AtomId} {p : Option SupersedeProvenance} {src : CorrectionSource} {db : St}
    (h : EvidenceOk E s) (hok : Store.supersede E s.db a w p src = .ok db) : EvidenceOk E { s with db } := by
  obtain ⟨row, wrow, -, -, -, -, rfl⟩ := Store.supersede_ok hok
  refine h.lifecycle (Nat.le_succ _) (fun r hr => hr) (fun x hx => ?_) fun r hr => ?_
  · have hx' := (List.mem_filter.1 hx).1
    exact ⟨hx', h.asserted x hx'⟩
  · obtain ⟨m, hm⟩ := Option.ne_none_iff_exists'.1 (h.present r hr)
    have hloser := findRow_updateRow (tick s.db) a r.evidenceMemoryId (f := fun m =>
      { m with validTo := some (E.now s.db.clock), supersededBy := some w, updatedAt := E.now s.db.clock }) fun _ => rfl
    rw [findRow_tick, hm] at hloser
    have hwinner := findRow_updateRow (updateRow (tick s.db) a fun m =>
      { m with validTo := some (E.now s.db.clock), supersededBy := some w, updatedAt := E.now s.db.clock }) w
      r.evidenceMemoryId (f := fun m => { m with validFrom := E.now s.db.clock, updatedAt := E.now s.db.clock })
      fun _ => rfl
    rw [hloser] at hwinner
    refine ⟨_, hwinner, ?_⟩
    by_cases hra : r.evidenceMemoryId = a
    · refine Or.inl ⟨s.db.clock, Nat.lt_succ_self _, ?_⟩
      simp only [if_pos hra]
      split <;> simp
    · refine Or.inr ⟨⟨m, hm, ?_⟩, fun x hx hxr => ?_⟩
      · simp only [if_neg hra]
        split <;> rfl
      · refine List.mem_filter.2 ⟨hx, ?_⟩
        rw [decide_eq_true_eq, hxr]
        exact hra

theorem erase_evidence {a : AtomId} {reason : Option String} {db : St} (h : EvidenceOk E s)
    (hok : Store.erase E s.db a reason = .ok db) :
    EvidenceOk E ⟨db, s.asserted.filter (·.evidenceMemoryId ≠ a)⟩ := by
  obtain ⟨row, -, rfl⟩ := Store.erase_ok hok
  refine h.lifecycle (Nat.le_succ _) (fun r hr => (List.mem_filter.1 hr).1) (fun x hx => ?_) fun r hr => ?_
  · obtain ⟨hx', hne⟩ := List.mem_filter.1 hx
    exact ⟨hx', List.mem_filter.2 ⟨h.asserted x hx', hne⟩⟩
  · obtain ⟨hr, hne⟩ := List.mem_filter.1 hr
    rw [decide_eq_true_eq] at hne
    obtain ⟨m, hm⟩ := Option.ne_none_iff_exists'.1 (h.present r hr)
    refine ⟨m, ?_, Or.inr ⟨⟨m, hm, rfl⟩, fun x hx hxr => ?_⟩⟩
    · rw [findRow_deleteRow, if_neg hne, findRow_deleteVec, findRow_append, findRow_tick, hm]
    · refine List.mem_filter.2 ⟨hx, ?_⟩
      rw [decide_eq_true_eq, hxr]
      exact hne

/-- what `insert` does: it passes over a guarded triple, or stores the row -/
theorem insertRelation_eq (s : St) (r : EntityRelation) : insertRelation s r =
    if guarded s (tripleOf r) then tick (draw s)
    else { tick (draw s) with entityRelations := s.entityRelations ++ [r] } := by
  have hguard : guarded s (tripleOf r) = s.entityRelations.any fun x => x.subjectEntityId = r.subjectEntityId ∧
      x.predicate = r.predicate ∧ x.objectEntityId = r.objectEntityId ∧ x.validTo = none := by
    simp only [guarded, tripleOf, Triple.mk.injEq, and_assoc]
  rw [hguard]
  rfl

/-- an assertion that is recorded stands, if the step keeps it -/
theorem relate_evidence {r : EntityRelation} {db : St} (h : EvidenceOk E s) (hok : relate s.db r = some db)
    (hkeeps : keepsEvidence E s (.relate r) = true) :
    EvidenceOk E ⟨db, if (findRow s.db r.evidenceMemoryId).isSome then s.asserted ++ [r] else s.asserted⟩ := by
  simp only [relate, insertRelation_eq] at hok
  split_ifs at hok with hallowed hguard
  · -- passed over
    obtain rfl := Option.some.inj hok
    have hframe : EvidenceOk E { s with db := tick (draw s.db) } := h.frame (Nat.le_succ _) rfl rfl fun a m hm => hm
    split
    next hmem =>
      refine ⟨fun x hx => List.mem_append_left _ (hframe.asserted x hx), fun q hq => ?_, fun q hq => ?_⟩
      · rcases List.mem_append.1 hq with hq | hq
        · exact hframe.present q hq
        · rw [List.mem_singleton.1 hq]
          exact Option.isSome_iff_ne_none.1 hmem
      · rcases List.mem_append.1 hq with hq | hq
        · exact hframe.stands q hq
        · rw [List.mem_singleton.1 hq]
          simp only [keepsEvidence, hguard, not_true_eq_false, false_or, decide_eq_true_eq, List.any_eq_true,
            Option.all_eq_true] at hkeeps
          rcases hkeeps with ⟨x, hx, hstands⟩ | hover | hover
          · exact Or.inr ⟨x, hx, Or.inr ⟨s.db.clock, Nat.lt_succ_self _, hstands⟩⟩
          · exact Or.inl ⟨s.db.clock, Nat.lt_succ_self _, Or.inl hover⟩
          · exact Or.inl ⟨s.db.clock, Nat.lt_succ_self _, Or.inr hover⟩
    next => exact hframe
  · -- stored, so its memory is there
    obtain rfl := Option.some.inj hok
    have hmem : (findRow s.db r.evidenceMemoryId).isSome := by
      rcases hallowed with hg | hr
      · exact absurd hg hguard
      · simp only [referenced, decide_eq_true_eq] at hr
        exact hr.1
    rw [if_pos hmem]
    refine ⟨fun x hx => ?_, fun q hq => ?_, fun q hq => ?_⟩
    · rcases List.mem_append.1 hx with hx | hx
      · exact List.mem_append_left _ (h.asserted x hx)
      · exact List.mem_append_right _ hx
    · rcases List.mem_append.1 hq with hq | hq
      · exact h.present q hq
      · rw [List.mem_singleton.1 hq]
        exact Option.isSome_iff_ne_none.1 hmem
    · rcases List.mem_append.1 hq with hq | hq
      · rcases h.stands q hq with ⟨i, hi, hover⟩ | ⟨x, hx, hstands⟩
        · exact Or.inl ⟨i, Nat.lt_succ_of_lt hi, hover⟩
        · refine Or.inr ⟨x, List.mem_append_left _ hx, hstands.imp_right fun ⟨i, hi, hstands⟩ => ?_⟩
          exact ⟨i, Nat.lt_succ_of_lt hi, hstands⟩
      · exact Or.inr ⟨r, List.mem_append_right _ (List.mem_singleton_self r), Or.inl (List.mem_singleton.1 hq).symm⟩

theorem relStep_inv (o : RelationOp) (h : EvidenceOk E s) (hkeeps : keepsEvidence E s o = true) :
    EvidenceOk E (relStep E s o) := by
  cases o with
  | remember input =>
    simp only [relStep]
    split
    next r hr =>
      rcases insertWithCreateEvent_ok hr with ⟨m, hm, rfl⟩ | ⟨-, hnew, -, rfl⟩
      · exact h
      · refine h.frame (Nat.le_add_right _ 2) rfl rfl fun a m hm => ?_
        exact findRow_append_left (inserted_memories E s.db input) hm
    next => exact h
  | upsertEntity name kind =>
    simp only [relStep, upsertEntity]
    split
    next => exact h
    next => exact h.frame (le_refl _) rfl rfl fun a m hm => hm
  | relate r =>
    simp only [relStep]
    split
    next db hok => exact relate_evidence h hok hkeeps
    next => exact h
  | invalidate a reason =>
    simp only [relStep]
    split
    next db hok => exact invalidate_evidence h hok
    next => exact h
  | supersede oldId newId p src =>
    simp only [relStep]
    split
    next db hok => exact supersede_evidence h hok
    next => exact h
  | erase a reason =>
    simp only [relStep]
    split
    next db hok => exact erase_evidence h hok
    next => exact h

/-- what stands for an assertion is current while the assertion is -/
theorem EvidenceOk.durable (h : EvidenceOk E s) : Durable E s := by
  intro entityId direction asOf limit hasOf hlimit t htouch
  rw [getForEntity_iff hlimit htouch]
  constructor
  · intro ⟨x, hx, ht, m, hm, hmemory, hrelation⟩
    exact ⟨x, h.asserted x hx, ht, m, hm, hmemory, hrelation⟩
  · intro ⟨r, hr, ht, m, hm, hmemory, hrelation⟩
    -- a window that is over at a reading does not hold a later instant
    have hpast : ∀ i < s.db.clock, ∀ stop : Option Time, (∀ e ∈ stop, asOf < e) → stop.any (· ≤ E.now i) = false := by
      intro i hi stop hopen
      cases stop with
      | none => rfl
      | some e => exact decide_eq_false (not_le.2 (lt_of_le_of_lt (hasOf i hi) (hopen e rfl)))
    rcases h.stands r hr with ⟨i, hi, hover⟩ | ⟨x, hx, hstands⟩
    · rcases hover with hover | hover
      · have hfalse := hpast i hi r.validTo hrelation.2
        rw [hover] at hfalse
        cases hfalse
      · have hfalse := hpast i hi m.validTo hmemory.2
        rw [hover m hm] at hfalse
        cases hfalse
    · rcases hstands with rfl | ⟨i, hi, hstands⟩
      · exact ⟨x, hx, ht, m, hm, hmemory, hrelation⟩
      · simp only [standsFor, decide_eq_true_eq] at hstands
        obtain ⟨htriple, hevidence, hopen, hfrom⟩ := hstands
        refine ⟨x, hx, htriple.trans ht, m, hevidence ▸ hm, hmemory, ?_, fun e he => ?_⟩
        · exact hfrom.trans (max_le hrelation.1 (hasOf i hi))
        · rw [Option.mem_def, stated, hopen] at he
          cases he

/-- **Relation durability**, along a run that keeps its evidence. -/
theorem relations_durable (E : Env) (sessions : List SessionId) (ops : List RelationOp)
    (h : Along (relStep E) (fun s o => keepsEvidence E s o = true) ⟨{ sessions }, []⟩ ops) :
    ∀ pre, pre <+: ops → Durable E (relRun E ⟨{ sessions }, []⟩ pre) := by
  intro pre hpre
  have hstart : EvidenceOk E ⟨{ sessions }, []⟩ := by
    refine ⟨fun x hx => ?_, fun r hr => ?_, fun r hr => ?_⟩
    · cases hx
    · cases hr
    · cases hr
  exact (along_inv (EvidenceOk E) (fun s o hs hP => relStep_inv o hs hP) hstart (h.initial hpre)).durable

/-- an assertion that is valid and not returned -/
theorem not_durable (r : EntityRelation) (asOf : Time) (hr : r ∈ s.asserted)
    (hvalid : (findRow s.db r.evidenceMemoryId).any (relationValid asOf r) = true)
    (hclock : ∀ i < s.db.clock, E.now i ≤ asOf) (hnone : validRelations s.db r.subjectEntityId .both asOf = []) :
    ¬ Durable E s := by
  intro h
  obtain ⟨m, hm, hmr⟩ := (Option.any_eq_true _ _).1 hvalid
  have hlimit : (validRelations s.db r.subjectEntityId .both asOf).length ≤ 50 := by
    rw [hnone]
    exact Nat.zero_le 50
  have htouch : touches .both r.subjectEntityId (tripleOf r) = true := by
    simp [touches, tripleOf]
  have hreturned := (h r.subjectEntityId .both asOf 50 hclock hlimit (tripleOf r) htouch).2
    ⟨r, hr, rfl, m, hm, relationValid_iff.1 hmr⟩
  obtain ⟨x, hx, -⟩ := List.mem_map.1 hreturned
  rw [mem_getForEntity hlimit, hnone] at hx
  cases hx

/-- alice owns bob, by what `memory` says -/
def owned (memory : AtomId) : EntityRelation := ⟨4, "owned_by", 5, memory, "alice owns bob", 1, 0, none⟩

/-- two memories and two entities -/
def actors : List RelationOp :=
  [.remember (rememberInput 1 "a"), .remember (rememberInput 2 "b"), .upsertEntity "alice" "actor",
    .upsertEntity "bob" "actor"]

/-- the first memory says it twice and is superseded, then the second says it -/
theorem relations_durable_superseded : Durable countingEnv (relRun countingEnv ⟨{ sessions := [] }, []⟩ (actors ++
    [.relate (owned 0), .relate (owned 0), .supersede 0 2 none .external, .relate (owned 2)])) :=
  relations_durable countingEnv [] _ (by decide) _ List.prefix_rfl

/-- **Corroborating evidence is lost.** The second memory says what the first has said and inserts no row; with the first
invalidated the triple is gone, whether the second spoke before that or after. -/
theorem corroboration_lost :
    ¬ Durable countingEnv (relRun countingEnv ⟨{}, []⟩
      (actors ++ [.relate (owned 0), .relate (owned 2), .invalidate 0 none])) ∧
    ¬ Durable countingEnv (relRun countingEnv ⟨{}, []⟩
      (actors ++ [.relate (owned 0), .invalidate 0 none, .relate (owned 2)])) :=
  ⟨not_durable (owned 2) 100 (by decide) (by decide) (by decide) (by decide),
    not_durable (owned 2) 100 (by decide) (by decide) (by decide) (by decide)⟩

end AstramemLocal.Daemon
