/-
What `recomputeProjection` does, said once. `Verdict` is the case split conflict resolution makes on an atom, by
membership in the log; each case has an equation (`recompute_erased` .. `recompute_superseded`). `Effects` and
`Traversal` are the proof rule every invariant of the pull path uses: what the single effects preserve, a whole
recompute preserves (`Traversal.sound`), however deep the chaining goes. The invariant is indexed by the atoms whose
projection is *pending*, that is, not recomputed yet since their log changed.
-/
import AstramemLocal.Core.Runs
import AstramemLocal.Sync.ConflictResolve
import Mathlib.Order.Bounds.Basic

namespace AstramemLocal.Sync

open AstramemLocal.Store AstramemLocal.Core

/-! ## The log of an atom, by membership -/

section
variable (L : List EventRecord) (a : AtomId)

def Erased : Prop := ∃ e ∈ L, e.atomId = a ∧ e.eventType = .eraseRequest

def Supersedes (e : EventRecord) : Prop := e ∈ L ∧ e.atomId = a ∧ e.eventType = .supersede

def Invalidates (e : EventRecord) : Prop := e ∈ L ∧ e.atomId = a ∧ e.eventType = .invalidate

/-- a supersede event of the atom that names a winner -/
def Names (r : Resolvable) : Prop :=
  Supersedes L a r.toEventRecord ∧ supersedeTarget r.toEventRecord = some r.target

/-- the authoritative supersede event of the atom -/
structure Wins (w : Resolvable) : Prop where
  mem : Names L a w
  max : ∀ r, Names L a r → tieKey r.toEventRecord ≤ tieKey w.toEventRecord

/-- a synthetic event chains the atom to `w` already -/
def Merged (w : AtomId) : Prop :=
  ∃ e, Supersedes L a e ∧ supersedeTarget e = some w ∧ e.payloadJson.bind (·.reason) = some conflictMerge

end

/-- the same events of the atom -/
def SameLog (L L' : List EventRecord) (a : AtomId) : Prop := ∀ e, e.atomId = a → (e ∈ L ↔ e ∈ L')

section
variable {L L' : List EventRecord} {a : AtomId}

theorem SameLog.symm (h : SameLog L L' a) : SameLog L' L a := fun e he => (h e he).symm

theorem SameLog.trans {L'' : List EventRecord} (h : SameLog L L' a) (h' : SameLog L' L'' a) : SameLog L L'' a :=
  fun e he => (h e he).trans (h' e he)

theorem SameLog.erased (h : SameLog L L' a) : Erased L a ↔ Erased L' a :=
  ⟨fun ⟨e, he, ha, hty⟩ => ⟨e, (h e ha).1 he, ha, hty⟩, fun ⟨e, he, ha, hty⟩ => ⟨e, (h e ha).2 he, ha, hty⟩⟩

theorem SameLog.supersedes (h : SameLog L L' a) {e : EventRecord} : Supersedes L a e ↔ Supersedes L' a e :=
  ⟨fun ⟨he, ha, hty⟩ => ⟨(h e ha).1 he, ha, hty⟩, fun ⟨he, ha, hty⟩ => ⟨(h e ha).2 he, ha, hty⟩⟩

theorem SameLog.invalidates (h : SameLog L L' a) {e : EventRecord} : Invalidates L a e ↔ Invalidates L' a e :=
  ⟨fun ⟨he, ha, hty⟩ => ⟨(h e ha).1 he, ha, hty⟩, fun ⟨he, ha, hty⟩ => ⟨(h e ha).2 he, ha, hty⟩⟩

/-- the same supersede events of the atom -/
def SameSupersedes (L L' : List EventRecord) (a : AtomId) : Prop := ∀ e, Supersedes L a e ↔ Supersedes L' a e

theorem SameSupersedes.symm (h : SameSupersedes L L' a) : SameSupersedes L' L a := fun e => (h e).symm

theorem SameSupersedes.trans {L'' : List EventRecord} (h : SameSupersedes L L' a) (h' : SameSupersedes L' L'' a) :
    SameSupersedes L L'' a := fun e => (h e).trans (h' e)

theorem SameSupersedes.names (h : SameSupersedes L L' a) {r : Resolvable} : Names L a r ↔ Names L' a r :=
  and_congr_left fun _ => h _

theorem SameSupersedes.merged (h : SameSupersedes L L' a) {w : AtomId} : Merged L a w ↔ Merged L' a w :=
  exists_congr fun _ => and_congr_left fun _ => h _

theorem SameSupersedes.wins (h : SameSupersedes L L' a) {w : Resolvable} : Wins L a w ↔ Wins L' a w :=
  ⟨fun hw => ⟨h.names.1 hw.mem, fun r hr => hw.max r (h.names.2 hr)⟩,
    fun hw => ⟨h.names.2 hw.mem, fun r hr => hw.max r (h.names.1 hr)⟩⟩

theorem SameLog.sameSupersedes (h : SameLog L L' a) : SameSupersedes L L' a := fun _ => h.supersedes

theorem SameLog.names (h : SameLog L L' a) {r : Resolvable} : Names L a r ↔ Names L' a r := h.sameSupersedes.names

theorem SameLog.merged (h : SameLog L L' a) {w : AtomId} : Merged L a w ↔ Merged L' a w := h.sameSupersedes.merged

theorem SameLog.wins (h : SameLog L L' a) {w : Resolvable} : Wins L a w ↔ Wins L' a w := h.sameSupersedes.wins

end

def supersedesOf (s : St) (a : AtomId) : List EventRecord := (loadEvents s a).filter (·.eventType = .supersede)

def invalidatesOf (s : St) (a : AtomId) : List EventRecord := (loadEvents s a).filter (·.eventType = .invalidate)

def resolvablesOf (s : St) (a : AtomId) : List Resolvable := (supersedesOf s a).filterMap resolve

/-- when events of a kind were created -/
def timesOf (P : EventRecord → Prop) : Set Time := {t | ∃ e, P e ∧ e.createdAt = t}

theorem mem_loadEvents {s : St} {a : AtomId} {e : EventRecord} :
    e ∈ loadEvents s a ↔ e ∈ records s ∧ e.atomId = a := by
  simp [loadEvents, List.mem_insertionSort]

theorem mem_supersedesOf {s : St} {a : AtomId} {e : EventRecord} : e ∈ supersedesOf s a ↔ Supersedes (records s) a e := by
  simp [supersedesOf, mem_loadEvents, Supersedes, and_assoc]

theorem mem_invalidatesOf {s : St} {a : AtomId} {e : EventRecord} : e ∈ invalidatesOf s a ↔ Invalidates (records s) a e := by
  simp [invalidatesOf, mem_loadEvents, Invalidates, and_assoc]

theorem resolve_eq_some {e : EventRecord} {r : Resolvable} :
    resolve e = some r ↔ r.toEventRecord = e ∧ supersedeTarget e = some r.target := by
  obtain ⟨re, rt⟩ := r
  constructor
  · intro h
    simp only [resolve, Option.map_eq_some_iff] at h
    obtain ⟨t, ht, heq⟩ := h
    cases heq
    exact ⟨rfl, ht⟩
  · rintro ⟨rfl, ht⟩
    simp only [resolve, ht, Option.map_some]

theorem mem_resolvablesOf {s : St} {a : AtomId} {r : Resolvable} : r ∈ resolvablesOf s a ↔ Names (records s) a r := by
  simp only [resolvablesOf, List.mem_filterMap, mem_supersedesOf, resolve_eq_some, Names]
  constructor
  · rintro ⟨e, he, rfl, ht⟩
    exact ⟨he, ht⟩
  · rintro ⟨he, ht⟩
    exact ⟨_, he, rfl, ht⟩

theorem wins_of_max {s : St} {a : AtomId} {w : Resolvable} (h : maxByTieBreak (resolvablesOf s a) = some w) :
    Wins (records s) a w :=
  ⟨mem_resolvablesOf.1 (List.argmax_mem h),
    fun _ hr => List.le_of_mem_argmax (f := fun e : Resolvable => tieKey e.toEventRecord) (mem_resolvablesOf.2 hr) h⟩

theorem createdAt_le_of_tieKey_le {e f : EventRecord} (h : tieKey e ≤ tieKey f) : e.createdAt ≤ f.createdAt := by
  rw [tieKey_le] at h
  rcases h with h | ⟨h, -⟩
  · exact h.le
  · exact h.le

theorem Wins.eventId_eq {L : List EventRecord} {a : AtomId} {w w' : Resolvable} (h : Wins L a w) (h' : Wins L a w') :
    w.eventId = w'.eventId := by
  have hkey := le_antisymm (h'.max w h.mem) (h.max w' h'.mem)
  exact tieKey_id hkey

theorem eq_nil_of_forall_not {α : Type*} {P : α → Prop} {l : List α} (hmem : ∀ e, e ∈ l ↔ P e) :
    l = [] ↔ ∀ e, ¬ P e := by
  simp [List.eq_nil_iff_forall_not_mem, hmem]

/-- `Math.min` over the creation times of a list of events -/
theorem min_times {P : EventRecord → Prop} {l : List EventRecord} (hmem : ∀ e, e ∈ l ↔ P e) {v : Time}
    (h : (l.map (·.createdAt)).min? = some v) : IsLeast (timesOf P) v := by
  obtain ⟨hv, hle⟩ := List.min?_eq_some_iff.1 h
  obtain ⟨e, he, rfl⟩ := List.mem_map.1 hv
  refine ⟨⟨e, (hmem e).1 he, rfl⟩, ?_⟩
  rintro t ⟨f, hf, rfl⟩
  exact hle _ (List.mem_map_of_mem ((hmem f).2 hf))

theorem min_times_exists {l : List EventRecord} (h : l ≠ []) : ∃ v, (l.map (·.createdAt)).min? = some v := by
  cases hm : (l.map (·.createdAt)).min? with
  | some v => exact ⟨v, rfl⟩
  | none => exact absurd (List.map_eq_nil_iff.1 (List.min?_eq_none_iff.1 hm)) h

theorem chained_iff {s : St} {l w : AtomId} : chained s l w = true ↔ Merged (records s) l w := by
  simp only [chained, Merged, Supersedes, records, List.any_eq_true, decide_eq_true_eq, List.mem_map]
  constructor
  · rintro ⟨e, he, h1, h2, h3, h4⟩
    exact ⟨_, ⟨⟨e, he, rfl⟩, h1, h2⟩, h3, h4⟩
  · rintro ⟨_, ⟨⟨e, he, rfl⟩, h1, h2⟩, h3, h4⟩
    exact ⟨e, he, h1, h2, h3, h4⟩

/-! ## The case split -/

/-- the projection a supersede leaves: `valid_to`, `superseded_by`, `updated_at` -/
def hideSuperseded (E : Env) (s : St) (a : AtomId) (v : Time) (w : AtomId) : St :=
  updateRow (tick s) a fun m => { m with validTo := some v, supersededBy := some w, updatedAt := E.now s.clock }

/-- the projection an invalidate leaves: `valid_to`, `updated_at` -/
def hideInvalidated (E : Env) (s : St) (a : AtomId) (v : Time) : St :=
  updateRow (tick s) a fun m => { m with validTo := some v, updatedAt := E.now s.clock }

section
variable (E : Env) (s : St) (a b : AtomId) (v : Time) (w : AtomId)

@[simp] theorem hideSuperseded_records : records (hideSuperseded E s a v w) = records s := rfl
@[simp] theorem hideSuperseded_clock : (hideSuperseded E s a v w).clock = s.clock + 1 := rfl
@[simp] theorem hideInvalidated_records : records (hideInvalidated E s a v) = records s := rfl
@[simp] theorem hideInvalidated_clock : (hideInvalidated E s a v).clock = s.clock + 1 := rfl

theorem findRow_hideSuperseded : findRow (hideSuperseded E s a v w) b = (findRow s b).map fun m =>
    if b = a then { m with validTo := some v, supersededBy := some w, updatedAt := E.now s.clock } else m :=
  findRow_updateRow (tick s) a b fun _ => rfl

theorem findRow_hideInvalidated : findRow (hideInvalidated E s a v) b = (findRow s b).map fun m =>
    if b = a then { m with validTo := some v, updatedAt := E.now s.clock } else m :=
  findRow_updateRow (tick s) a b fun _ => rfl

theorem findRow_hideSuperseded_self : findRow (hideSuperseded E s a v w) a = (findRow s a).map fun m =>
    { m with validTo := some v, supersededBy := some w, updatedAt := E.now s.clock } :=
  findRow_updateRow_self (tick s) a fun _ => rfl

theorem findRow_hideInvalidated_self : findRow (hideInvalidated E s a v) a = (findRow s a).map fun m =>
    { m with validTo := some v, updatedAt := E.now s.clock } :=
  findRow_updateRow_self (tick s) a fun _ => rfl

variable {a b}

theorem findRow_hideSuperseded_ne (h : b ≠ a) : findRow (hideSuperseded E s a v w) b = findRow s b :=
  findRow_updateRow_ne (tick s) a b (fun _ => rfl) h

theorem findRow_hideInvalidated_ne (h : b ≠ a) : findRow (hideInvalidated E s a v) b = findRow s b :=
  findRow_updateRow_ne (tick s) a b (fun _ => rfl) h

variable (a b)

@[simp] theorem hardDeleteAtom_records : records (hardDeleteAtom s a) = records s := by
  unfold hardDeleteAtom
  split <;> rfl

@[simp] theorem hardDeleteAtom_clock : (hardDeleteAtom s a).clock = s.clock := by
  unfold hardDeleteAtom
  split <;> rfl

theorem findRow_hardDeleteAtom : findRow (hardDeleteAtom s a) b = if b = a then none else findRow s b := by
  unfold hardDeleteAtom
  split
  · rename_i h
    split_ifs with hb
    · rw [hb, h]
    · rfl
  · rw [findRow_deleteRow, findRow_deleteVec]

end

/-- there is a row to project onto -/
structure Present (s : St) (a : AtomId) : Prop where
  kept : ¬ Erased (records s) a
  row : findRow s a ≠ none

inductive Verdict (s : St) (a : AtomId) : Prop
  | erased : Erased (records s) a → Verdict s a
  | absent : ¬ Erased (records s) a → findRow s a = none → Verdict s a
  | quiet : Present s a → (∀ e, ¬ Supersedes (records s) a e) → (∀ e, ¬ Invalidates (records s) a e) → Verdict s a
  | unresolved : Present s a → (∃ e, Supersedes (records s) a e) → (∀ r, ¬ Names (records s) a r) → Verdict s a
  | invalidated {v : Time} : Present s a → (∀ e, ¬ Supersedes (records s) a e) → (∃ e, Invalidates (records s) a e) →
      ((invalidatesOf s a).map (·.createdAt)).min? = some v → Verdict s a
  | superseded {w : Resolvable} {v : Time} : Present s a → maxByTieBreak (resolvablesOf s a) = some w →
      ((supersedesOf s a).map (·.createdAt)).min? = some v → Verdict s a

theorem verdict (s : St) (a : AtomId) : Verdict s a := by
  by_cases he : Erased (records s) a
  · exact .erased he
  by_cases hr : findRow s a = none
  · exact .absent he hr
  by_cases hs : supersedesOf s a = []
  · have hs' := (eq_nil_of_forall_not fun _ => mem_supersedesOf).1 hs
    by_cases hi : invalidatesOf s a = []
    · exact .quiet ⟨he, hr⟩ hs' ((eq_nil_of_forall_not fun _ => mem_invalidatesOf).1 hi)
    · obtain ⟨v, hv⟩ := min_times_exists hi
      obtain ⟨e, hmem⟩ := List.exists_mem_of_ne_nil _ hi
      exact .invalidated ⟨he, hr⟩ hs' ⟨e, mem_invalidatesOf.1 hmem⟩ hv
  · obtain ⟨v, hv⟩ := min_times_exists hs
    obtain ⟨e, hmem⟩ := List.exists_mem_of_ne_nil _ hs
    cases hw : maxByTieBreak (resolvablesOf s a) with
    | some w => exact .superseded ⟨he, hr⟩ hw hv
    | none =>
      have hnil : resolvablesOf s a = [] := List.argmax_eq_none.1 hw
      exact .unresolved ⟨he, hr⟩ ⟨e, mem_supersedesOf.1 hmem⟩
        ((eq_nil_of_forall_not fun _ => mem_resolvablesOf).1 hnil)

section
variable {E : Env} {n : ℕ} {s : St} {a : AtomId}

theorem any_erase_iff : ((loadEvents s a).any (·.eventType = .eraseRequest)) = true ↔ Erased (records s) a := by
  simp [Erased, mem_loadEvents, and_assoc]

theorem any_erase_eq_false (h : ¬ Erased (records s) a) : ((loadEvents s a).any (·.eventType = .eraseRequest)) = false :=
  Bool.eq_false_iff.2 fun hc => h (any_erase_iff.1 hc)

theorem recompute_erased (h : Erased (records s) a) : recomputeProjection E (n + 1) s a = some (hardDeleteAtom s a) := by
  simp only [recomputeProjection, any_erase_iff.2 h, if_true]

theorem recompute_absent (h : ¬ Erased (records s) a) (hr : findRow s a = none) :
    recomputeProjection E (n + 1) s a = some s := by
  have hx : rowExists s a = false := by simp [rowExists, hr]
  simp only [recomputeProjection, any_erase_eq_false h, hx, Bool.false_eq_true, if_false, not_false_eq_true, if_true]

theorem recompute_present (h : Present s a) : recomputeProjection E (n + 1) s a =
    if supersedesOf s a = [] ∧ invalidatesOf s a = [] then some s
    else if supersedesOf s a ≠ [] then
      match maxByTieBreak (resolvablesOf s a) with
      | none => some (tick s)
      | some winner =>
        ((resolvablesOf s a).filter fun r => r.eventId ≠ winner.eventId ∧ r.target ≠ winner.target).foldlM
          (fun t loser => chainLoserToWinner E (recomputeProjection E n) t loser.target winner.target
            (max loser.createdAt (E.now s.clock)))
          (updateRow (tick s) a fun m =>
            { m with validTo := ((supersedesOf s a).map (·.createdAt)).min?, supersededBy := some winner.target,
                     updatedAt := E.now s.clock })
    else some (updateRow (tick s) a fun m =>
      { m with validTo := ((invalidatesOf s a).map (·.createdAt)).min?, updatedAt := E.now s.clock }) := by
  have hx : rowExists s a = true := Option.isSome_iff_ne_none.2 h.row
  simp only [recomputeProjection, any_erase_eq_false h.kept, hx, Bool.false_eq_true, if_false, not_true]
  rfl

theorem recompute_quiet (h : Present s a) (hs : ∀ e, ¬ Supersedes (records s) a e) (hi : ∀ e, ¬ Invalidates (records s) a e) :
    recomputeProjection E (n + 1) s a = some s := by
  have hs' := (eq_nil_of_forall_not fun _ => mem_supersedesOf).2 hs
  have hi' := (eq_nil_of_forall_not fun _ => mem_invalidatesOf).2 hi
  rw [recompute_present h, if_pos ⟨hs', hi'⟩]

theorem supersedesOf_ne_nil (h : ∃ e, Supersedes (records s) a e) : supersedesOf s a ≠ [] := by
  obtain ⟨e, he⟩ := h
  exact List.ne_nil_of_mem (mem_supersedesOf.2 he)

theorem recompute_unresolved (h : Present s a) (hs : ∃ e, Supersedes (records s) a e) (hn : ∀ r, ¬ Names (records s) a r) :
    recomputeProjection E (n + 1) s a = some (tick s) := by
  have hs' := supersedesOf_ne_nil hs
  have hn' : resolvablesOf s a = [] := (eq_nil_of_forall_not fun _ => mem_resolvablesOf).2 hn
  rw [recompute_present h, if_neg fun hc => hs' hc.1, if_pos hs', hn']
  rfl

theorem recompute_invalidated {v : Time} (h : Present s a) (hs : ∀ e, ¬ Supersedes (records s) a e)
    (hi : ∃ e, Invalidates (records s) a e) (hv : ((invalidatesOf s a).map (·.createdAt)).min? = some v) :
    recomputeProjection E (n + 1) s a = some (hideInvalidated E s a v) := by
  have hs' := (eq_nil_of_forall_not fun _ => mem_supersedesOf).2 hs
  obtain ⟨e, he⟩ := hi
  have hi' : invalidatesOf s a ≠ [] := List.ne_nil_of_mem (mem_invalidatesOf.2 he)
  rw [recompute_present h, if_neg fun hc => hi' hc.2, if_neg (not_not.2 hs'), hv]
  rfl

/-- the events of the atom that lose to `w` and name another winner -/
def losersOf (s : St) (a : AtomId) (w : Resolvable) : List Resolvable :=
  (resolvablesOf s a).filter fun r => r.eventId ≠ w.eventId ∧ r.target ≠ w.target

theorem mem_losersOf {w r : Resolvable} :
    r ∈ losersOf s a w ↔ Names (records s) a r ∧ r.eventId ≠ w.eventId ∧ r.target ≠ w.target := by
  simp [losersOf, mem_resolvablesOf]

/-- the loop over the losers, with the clock reading of the call -/
def chainLosers (E : Env) (n : ℕ) (now : Time) (w : Resolvable) (losers : List Resolvable) (s : St) : Option St :=
  losers.foldlM (fun t loser =>
    chainLoserToWinner E (recomputeProjection E n) t loser.target w.target (max loser.createdAt now)) s

theorem recompute_superseded {w : Resolvable} {v : Time} (h : Present s a)
    (hw : maxByTieBreak (resolvablesOf s a) = some w) (hv : ((supersedesOf s a).map (·.createdAt)).min? = some v) :
    recomputeProjection E (n + 1) s a =
      chainLosers E n (E.now s.clock) w (losersOf s a w) (hideSuperseded E s a v w.target) := by
  have hs : supersedesOf s a ≠ [] := supersedesOf_ne_nil ⟨_, (wins_of_max hw).mem.1⟩
  rw [recompute_present h, if_neg fun hc => hs hc.1, if_pos hs, hw, hv]
  rfl

end

/-- a deeper stack changes no answer -/
theorem recompute_mono {E : Env} {n m : ℕ} {s t : St} {a : AtomId} (h : recomputeProjection E n s a = some t)
    (hnm : n ≤ m) : recomputeProjection E m s a = some t := by
  induction n generalizing m s t a with
  | zero => simp [recomputeProjection] at h
  | succ n ih =>
    obtain ⟨m, rfl⟩ := Nat.exists_eq_add_of_le' (Nat.succ_le_of_lt (Nat.lt_of_lt_of_le n.succ_pos hnm))
    cases verdict s a with
    | erased he => rwa [recompute_erased he] at h ⊢
    | absent he hn => rwa [recompute_absent he hn] at h ⊢
    | quiet hp hsu hin => rwa [recompute_quiet hp hsu hin] at h ⊢
    | unresolved hp hsu hn => rwa [recompute_unresolved hp hsu hn] at h ⊢
    | invalidated hp hsu hin hv => rwa [recompute_invalidated hp hsu hin hv] at h ⊢
    | superseded hp hw hv =>
      rw [recompute_superseded hp hw hv] at h ⊢
      refine foldlM_mono (fun u r u' hu => ?_) h
      simp only [chainLoserToWinner] at hu ⊢
      exact ih hu (by omega)

/-! ## The proof rule -/

/-- the state after `chainLoserToWinner`'s INSERT, when there is one -/
def chainEvent (E : Env) (s : St) (y w : AtomId) (t : Time) : St :=
  append E s .supersede y (some (mergePayload w)) none t

section
variable (E : Env) (s : St) (y w : AtomId) (t : Time)

@[simp] theorem chainEvent_records : records (chainEvent E s y w t) =
    records s ++ [⟨E.uuid s.drawn, .supersede, y, some (mergePayload w), none, t⟩] := append_records E s y _ _ _ _

@[simp] theorem chainEvent_clock : (chainEvent E s y w t).clock = s.clock := rfl
@[simp] theorem findRow_chainEvent (a : AtomId) : findRow (chainEvent E s y w t) a = findRow s a := rfl

end

/-- What has to be shown for an invariant `I`, indexed by the pending atoms, to survive the effects of a recompute.
`R a s` holds when a is recomputed in s, `C y w t` when a loser y is chained to a winner w at time t, and `J` of every
state on the way. -/
structure Effects (E : Env) (R : AtomId → St → Prop) (C : AtomId → AtomId → Time → Prop) (J : St → Prop)
    (I : Set AtomId → St → Prop) : Prop where
  weaken : ∀ {P Q s}, P ⊆ Q → I P s → I Q s
  erased : ∀ {P s a}, R a s → J s → I P s → Erased (records s) a → I (P \ {a}) (hardDeleteAtom s a)
  absent : ∀ {P s a}, R a s → J s → I P s → ¬ Erased (records s) a → findRow s a = none → I (P \ {a}) s
  quiet : ∀ {P s a}, R a s → J s → I P s → Present s a → (∀ e, ¬ Supersedes (records s) a e) →
    (∀ e, ¬ Invalidates (records s) a e) → I (P \ {a}) s
  unresolved : ∀ {P s a}, R a s → J s → I P s → Present s a → (∃ e, Supersedes (records s) a e) →
    (∀ r, ¬ Names (records s) a r) → I (P \ {a}) (tick s)
  invalidated : ∀ {P s a v}, R a s → J s → I P s → Present s a → (∀ e, ¬ Supersedes (records s) a e) →
    IsLeast (timesOf (Invalidates (records s) a)) v → I (P \ {a}) (hideInvalidated E s a v)
  superseded : ∀ {P s a w v}, R a s → J s → I P s → Present s a → Wins (records s) a w →
    IsLeast (timesOf (Supersedes (records s) a)) v → I (P \ {a}) (hideSuperseded E s a v w.target)
  chain : ∀ {P s y w t}, J s → I P s → C y w t → ¬ Merged (records s) y w →
    I (insert y P) (chainEvent E s y w t)

/-- less is asked of the effects where more is known -/
theorem Effects.restrict {E : Env} {R R' : AtomId → St → Prop} {C C' : AtomId → AtomId → Time → Prop}
    {J J' : St → Prop} {I : Set AtomId → St → Prop} (h : Effects E R C J I) (hR : ∀ a s, R' a s → R a s)
    (hC : ∀ y w t, C' y w t → C y w t) (hJ : ∀ s, J' s → J s) : Effects E R' C' J' I where
  weaken := h.weaken
  erased ha hj := h.erased (hR _ _ ha) (hJ _ hj)
  absent ha hj := h.absent (hR _ _ ha) (hJ _ hj)
  quiet ha hj := h.quiet (hR _ _ ha) (hJ _ hj)
  unresolved ha hj := h.unresolved (hR _ _ ha) (hJ _ hj)
  invalidated ha hj := h.invalidated (hR _ _ ha) (hJ _ hj)
  superseded ha hj := h.superseded (hR _ _ ha) (hJ _ hj)
  chain hj hi hc := h.chain (hJ _ hj) hi (hC _ _ _ hc)

/-- two invariants, together -/
theorem Effects.and {E : Env} {R : AtomId → St → Prop} {C : AtomId → AtomId → Time → Prop} {J : St → Prop}
    {I I' : Set AtomId → St → Prop} (h : Effects E R C J I) (h' : Effects E R C J I') :
    Effects E R C J fun P s => I P s ∧ I' P s where
  weaken hPQ hi := ⟨h.weaken hPQ hi.1, h'.weaken hPQ hi.2⟩
  erased ha hj hi he := ⟨h.erased ha hj hi.1 he, h'.erased ha hj hi.2 he⟩
  absent ha hj hi he hn := ⟨h.absent ha hj hi.1 he hn, h'.absent ha hj hi.2 he hn⟩
  quiet ha hj hi hp hs hv := ⟨h.quiet ha hj hi.1 hp hs hv, h'.quiet ha hj hi.2 hp hs hv⟩
  unresolved ha hj hi hp hs hn := ⟨h.unresolved ha hj hi.1 hp hs hn, h'.unresolved ha hj hi.2 hp hs hn⟩
  invalidated ha hj hi hp hs hv := ⟨h.invalidated ha hj hi.1 hp hs hv, h'.invalidated ha hj hi.2 hp hs hv⟩
  superseded ha hj hi hp hw hv := ⟨h.superseded ha hj hi.1 hp hw hv, h'.superseded ha hj hi.2 hp hw hv⟩
  chain hj hi hc hm := ⟨h.chain hj hi.1 hc hm, h'.chain hj hi.2 hc hm⟩

/-- an invariant of every member of a family -/
theorem Effects.all {ι : Type*} {E : Env} {R : AtomId → St → Prop} {C : AtomId → AtomId → Time → Prop}
    {J : St → Prop} {G : ι → Prop} {I : ι → Set AtomId → St → Prop} (h : ∀ i, G i → Effects E R C J (I i)) :
    Effects E R C J fun P s => ∀ i, G i → I i P s where
  weaken hPQ hi i hG := (h i hG).weaken hPQ (hi i hG)
  erased ha hj hi he i hG := (h i hG).erased ha hj (hi i hG) he
  absent ha hj hi he hn i hG := (h i hG).absent ha hj (hi i hG) he hn
  quiet ha hj hi hp hs hv i hG := (h i hG).quiet ha hj (hi i hG) hp hs hv
  unresolved ha hj hi hp hs hn i hG := (h i hG).unresolved ha hj (hi i hG) hp hs hn
  invalidated ha hj hi hp hs hv i hG := (h i hG).invalidated ha hj (hi i hG) hp hs hv
  superseded ha hj hi hp hw hv i hG := (h i hG).superseded ha hj (hi i hG) hp hw hv
  chain hj hi hc hm i hG := (h i hG).chain hj (hi i hG) hc hm

/-- what a recompute visits: `J` is kept, every loser of a visited atom is chained as `C` says, and is visited then -/
structure Traversal (E : Env) (R : AtomId → St → Prop) (C : AtomId → AtomId → Time → Prop) (J : St → Prop) :
    Prop where
  effects : Effects E R C (fun _ => True) fun _ => J
  losers : ∀ {s a w r}, R a s → J s → Present s a → Wins (records s) a w → Names (records s) a r →
    r.target ≠ w.target → C r.target w.target (max r.createdAt (E.now s.clock))
  visit : ∀ {s y w t}, J s → C y w t → Merged (records s) y w → R y s

/-- the traversal about which nothing is known -/
theorem Traversal.free (E : Env) : Traversal E (fun _ _ => True) (fun _ _ _ => True) fun _ => True := by
  refine ⟨?_, fun _ _ _ _ _ _ => trivial, fun _ _ _ => trivial⟩
  constructor <;> intros <;> trivial

section
variable {E : Env} {R : AtomId → St → Prop} {C : AtomId → AtomId → Time → Prop} {J : St → Prop}
  {I : Set AtomId → St → Prop}

/-- the traversal's invariant and another one, together -/
theorem Traversal.and (hJ : Traversal E R C J) (hI : Effects E R C J I) :
    Effects E R C (fun _ => True) fun P s => J s ∧ I P s where
  weaken hPQ h := ⟨h.1, hI.weaken hPQ h.2⟩
  erased ha _ h he := ⟨hJ.effects.erased (P := ∅) ha trivial h.1 he, hI.erased ha h.1 h.2 he⟩
  absent ha _ h he hn := ⟨h.1, hI.absent ha h.1 h.2 he hn⟩
  quiet ha _ h hp hs hi := ⟨h.1, hI.quiet ha h.1 h.2 hp hs hi⟩
  unresolved ha _ h hp hs hn :=
    ⟨hJ.effects.unresolved (P := ∅) ha trivial h.1 hp hs hn, hI.unresolved ha h.1 h.2 hp hs hn⟩
  invalidated ha _ h hp hs hv :=
    ⟨hJ.effects.invalidated (P := ∅) ha trivial h.1 hp hs hv, hI.invalidated ha h.1 h.2 hp hs hv⟩
  superseded ha _ h hp hw hv :=
    ⟨hJ.effects.superseded (P := ∅) ha trivial h.1 hp hw hv, hI.superseded ha h.1 h.2 hp hw hv⟩
  chain _ h hc hm := ⟨hJ.effects.chain (P := ∅) trivial h.1 hc hm, hI.chain h.1 h.2 hc hm⟩

theorem merged_chainEvent (s : St) (y w : AtomId) (t : Time) : Merged (records (chainEvent E s y w t)) y w := by
  rw [chainEvent_records]
  exact ⟨_, ⟨List.mem_append_right _ List.mem_cons_self, rfl, rfl⟩, rfl, rfl⟩

/-- `chainLoserToWinner`, split at the recursive call: the loser is chained by then -/
theorem chainLoserToWinner_cases {rec : St → AtomId → Option St} {s t : St} {y w : AtomId} {at_ : Time}
    (h : chainLoserToWinner E rec s y w at_ = some t) :
    ∃ u, rec u y = some t ∧ Merged (records u) y w ∧
      (u = s ∨ ¬ Merged (records s) y w ∧ u = chainEvent E s y w at_) := by
  simp only [chainLoserToWinner] at h
  split_ifs at h with hch
  · exact ⟨s, h, chained_iff.1 hch, Or.inl rfl⟩
  · exact ⟨_, h, merged_chainEvent s y w at_, Or.inr ⟨mt chained_iff.2 hch, rfl⟩⟩

theorem Effects.chainLoserToWinner (hJ : Traversal E R C J)
    (h : Effects E R C (fun _ => True) fun P s => J s ∧ I P s) {rec : St → AtomId → Option St}
    {P : Set AtomId} {s t : St} {y w : AtomId} {at_ : Time}
    (hrec : ∀ {Q u v}, R y u → J u ∧ I Q u → rec u y = some v → J v ∧ I (Q \ {y}) v) (hc : C y w at_)
    (hs : J s ∧ I P s) (hr : Sync.chainLoserToWinner E rec s y w at_ = some t) : J t ∧ I P t := by
  obtain ⟨u, hu, hm, rfl | ⟨hnm, rfl⟩⟩ := chainLoserToWinner_cases hr
  · exact h.weaken Set.sdiff_subset (hrec (hJ.visit hs.1 hc hm) hs hu)
  · have hi := h.chain trivial hs hc hnm
    refine h.weaken ?_ (hrec (hJ.visit hi.1 hc hm) hi hu)
    rintro b ⟨hb | hb, hne⟩
    · exact absurd hb hne
    · exact hb

/-- The induction is on the stack depth; the loop over the losers keeps the pending set. -/
theorem Effects.sound (hJ : Traversal E R C J) (h : Effects E R C (fun _ => True) fun P s => J s ∧ I P s) {n : ℕ}
    {P : Set AtomId} {s t : St} {a : AtomId} (ha : R a s) (hs : J s ∧ I P s)
    (hr : recomputeProjection E n s a = some t) : J t ∧ I (P \ {a}) t := by
  induction n generalizing P s t a with
  | zero => simp [recomputeProjection] at hr
  | succ n ih =>
    cases verdict s a with
    | erased he =>
      rw [recompute_erased he, Option.some.injEq] at hr
      exact hr ▸ h.erased ha trivial hs he
    | absent he hn =>
      rw [recompute_absent he hn, Option.some.injEq] at hr
      exact hr ▸ h.absent ha trivial hs he hn
    | quiet hp hsu hin =>
      rw [recompute_quiet hp hsu hin, Option.some.injEq] at hr
      exact hr ▸ h.quiet ha trivial hs hp hsu hin
    | unresolved hp hsu hn =>
      rw [recompute_unresolved hp hsu hn, Option.some.injEq] at hr
      exact hr ▸ h.unresolved ha trivial hs hp hsu hn
    | invalidated hp hsu hin hv =>
      rw [recompute_invalidated hp hsu hin hv, Option.some.injEq] at hr
      exact hr ▸ h.invalidated ha trivial hs hp hsu (min_times (fun _ => mem_invalidatesOf) hv)
    | superseded hp hw hv =>
      rename_i w v
      rw [recompute_superseded hp hw hv] at hr
      have hwin := wins_of_max hw
      have h0 := h.superseded ha trivial hs hp hwin (min_times (fun _ => mem_supersedesOf) hv)
      refine (foldlM_some (fun l u => (∀ r ∈ l, r ∈ losersOf s a w) ∧ J u ∧ I (P \ {a}) u) ?_
        ⟨fun r hr => hr, h0⟩ hr).2
      rintro r l u u' ⟨hl, hu⟩ hstep
      obtain ⟨hn, -, hne⟩ := mem_losersOf.1 (hl r List.mem_cons_self)
      exact ⟨fun x hx => hl x (List.mem_cons_of_mem _ hx),
        h.chainLoserToWinner hJ (fun hR hI hrec => ih hR hI hrec) (hJ.losers ha hs.1 hp hwin hn hne) hu hstep⟩

/-- **Soundness of the rule.** -/
theorem Traversal.sound (hJ : Traversal E R C J) (hI : Effects E R C J I) {n : ℕ} {P : Set AtomId} {s t : St}
    {a : AtomId} (ha : R a s) (hj : J s) (hi : I P s) (hr : recomputeProjection E n s a = some t) :
    J t ∧ I (P \ {a}) t :=
  (hJ.and hI).sound hJ ha ⟨hj, hi⟩ hr

theorem trivial_effects : Effects E R C J fun _ _ => True := by
  constructor <;> intros <;> trivial

theorem Traversal.keeps (hJ : Traversal E R C J) {n : ℕ} {s t : St} {a : AtomId} (ha : R a s) (hj : J s)
    (hr : recomputeProjection E n s a = some t) : J t :=
  (hJ.sound trivial_effects (P := ∅) ha hj trivial hr).1

/-- the loop of the pull transaction over the touched atoms -/
theorem Traversal.sound_all (hJ : Traversal E R C J) (hI : Effects E R C J I) {n : ℕ} {P : Set AtomId} {s t : St}
    {touched : List AtomId} (ha : ∀ a ∈ touched, ∀ u, J u → R a u) (hj : J s) (hi : I P s)
    (hr : touched.foldlM (recomputeProjection E n) s = some t) : J t ∧ I (P \ {a | a ∈ touched}) t := by
  induction touched generalizing P s with
  | nil =>
    simp only [List.foldlM_nil, pure, Option.some.injEq] at hr
    exact hr ▸ ⟨hj, hI.weaken (fun b hb => ⟨hb, List.not_mem_nil⟩) hi⟩
  | cons a l ih =>
    simp only [List.foldlM_cons, bind, Option.bind_eq_some_iff] at hr
    obtain ⟨u, h1, h2⟩ := hr
    obtain ⟨hju, hiu⟩ := hJ.sound hI (ha a List.mem_cons_self s hj) hj hi h1
    obtain ⟨hjt, hit⟩ := ih (fun b hb => ha b (List.mem_cons_of_mem _ hb)) hju hiu h2
    refine ⟨hjt, hI.weaken ?_ hit⟩
    rintro b ⟨⟨hb, hba⟩, hbl⟩
    exact ⟨hb, by simp only [List.mem_cons, Set.mem_ofPred_eq, not_or]; exact ⟨hba, hbl⟩⟩

end

end AstramemLocal.Sync
