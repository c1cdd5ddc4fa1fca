/-
What recall shows and what the lifecycle operations accept. Recall admits a row whose `valid_to` is NULL or in the
future (`a future valid_to is a fact that has not expired yet`); `invalidate`, `archive` and `supersede` take any
`valid_to` for `already invalid`. The two agree on rows without an end. Stage 8 stores rows with one.
- `visible_hideable`: in every state of a run, an operation hides a visible row iff its `valid_to` is NULL (for a
  supersede, also that of the winner).
- `expiring_fact_not_hideable`: a fact stored with an end in the future.
-/
import AstramemLocal.Daemon.Effects
import AstramemLocal.Search.Validity

namespace AstramemLocal.Daemon

open AstramemLocal.Store AstramemLocal.Search AstramemLocal.Distill AstramemLocal.Core

variable {E : Env} {s t : St} {a : AtomId}

/-- default recall finds the row of `a` at `now` -/
def VisibleAt (s : St) (a : AtomId) (now : Time) : Prop :=
  ∃ m, findRow s a = some m ∧ validityFilterClause none now m = true

/-- the operation goes through, and default recall at the same instant finds the row no more -/
def HidesNow (E : Env) (s : St) (a : AtomId) (r : Except LifecycleError St) : Prop :=
  ∃ t, r = .ok t ∧ (findRow t a).isSome = true ∧ ¬ VisibleAt t a (E.now s.clock)

/-- a row that ends now is not admitted now -/
theorem hidden_of_ended {now : Time} (h : (findRow t a).map (·.validTo) = some (some now)) :
    (findRow t a).isSome = true ∧ ¬ VisibleAt t a now := by
  obtain ⟨m, hm, hv⟩ := Option.map_eq_some_iff.1 h
  refine ⟨by rw [hm]; rfl, ?_⟩
  rintro ⟨m', hm', hvis⟩
  obtain rfl := Option.some.inj (hm.symm.trans hm')
  exact absurd (validityFilterClause_now.1 hvis now hv) (lt_irrefl _)

theorem invalidate_hides {m : Memory} (hm : findRow s a = some m) (reason : Option String) :
    HidesNow E s a (Store.invalidate E s a reason) ↔ m.validTo = none := by
  constructor
  · rintro ⟨t, ht, -⟩
    by_contra hv
    simp [Store.invalidate, hm, hv] at ht
  · intro hv
    refine ⟨_, by simp only [Store.invalidate, hm, hv, ne_eq, not_true, if_false]; rfl, hidden_of_ended ?_⟩
    rw [findRow_append, findRow_append, findRow_updateRow_self _ a (by intro _; rfl), findRow_tick, hm]
    rfl

theorem archive_hides {m : Memory} (hm : findRow s a = some m) (reason : Option String) :
    HidesNow E s a (Store.archive E s a reason) ↔ m.validTo = none := by
  constructor
  · rintro ⟨t, ht, -⟩
    by_contra hv
    simp [Store.archive, hm, hv] at ht
  · intro hv
    refine ⟨_, by simp only [Store.archive, hm, hv, ne_eq, not_true, if_false]; rfl, hidden_of_ended ?_⟩
    rw [findRow_append, findRow_updateRow_self _ a (by intro _; rfl), findRow_tick, hm]
    rfl

theorem supersede_hides {w : AtomId} {m mw : Memory} (hm : findRow s a = some m) (hw : findRow s w = some mw)
    (p : Option SupersedeProvenance) (src : CorrectionSource) :
    HidesNow E s a (Store.supersede E s a w p src) ↔ m.validTo = none ∧ mw.validTo = none := by
  constructor
  · rintro ⟨t, ht, -⟩
    by_contra hv
    simp only [Store.supersede, hm, hw] at ht
    split_ifs at ht with h1 h2
    exact hv ⟨not_not.1 h1, not_not.1 h2⟩
  · rintro ⟨hv, hvw⟩
    refine ⟨_, by simp only [Store.supersede, hm, hw, hv, hvw, ne_eq, not_true, if_false]; rfl, hidden_of_ended ?_⟩
    simp only [findRow_append, findRow_dropRelations, findRow_unlinkMemory]
    rw [findRow_updateRow _ w a (by intro _; rfl), findRow_updateRow_self _ a (by intro _; rfl), findRow_tick, hm]
    simp only [Option.map_some]
    split_ifs <;> rfl

/-- the row has no end, or its end has passed -/
def NotExpiring (m : Memory) (now : Time) : Prop := ∀ v ∈ m.validTo, v ≤ now

theorem visibleAt_iff {m : Memory} (hm : findRow s a = some m) (now : Time) : VisibleAt s a now ↔ (window m).OpenAt now := by
  constructor
  · rintro ⟨m', hm', hvis⟩
    obtain rfl := Option.some.inj (hm.symm.trans hm')
    exact validityFilterClause_now.1 hvis
  · exact fun h => ⟨m, hm, validityFilterClause_now.2 h⟩

/-- a visible row without an end, or a row that is not visible -/
theorem notExpiring_iff {m : Memory} (hm : findRow s a = some m) (now : Time) :
    NotExpiring m now ↔ (VisibleAt s a now → m.validTo = none) := by
  rw [visibleAt_iff hm]
  cases hv : m.validTo with
  | none => simp [NotExpiring, hv]
  | some v => simp [NotExpiring, Window.OpenAt, window, hv]

/-- **Visible and hideable.** In every state of every run and for every row: an `invalidate` or an `archive` at an
instant at which default recall admits the row hides it iff the row has no end in the future; a `supersede` with a
winner that recall admits as well hides it iff neither has one. -/
theorem visible_hideable (E : Env) (s : St) (ops : List Op) (a : AtomId) (m : Memory)
    (hm : findRow (run E s ops) a = some m) :
    (∀ reason, (VisibleAt (run E s ops) a (E.now (run E s ops).clock) →
      HidesNow E (run E s ops) a (Store.invalidate E (run E s ops) a reason)) ↔
        NotExpiring m (E.now (run E s ops).clock)) ∧
    (∀ reason, (VisibleAt (run E s ops) a (E.now (run E s ops).clock) →
      HidesNow E (run E s ops) a (Store.archive E (run E s ops) a reason)) ↔
        NotExpiring m (E.now (run E s ops).clock)) ∧
    ∀ w mw p src, findRow (run E s ops) w = some mw → VisibleAt (run E s ops) a (E.now (run E s ops).clock) →
      VisibleAt (run E s ops) w (E.now (run E s ops).clock) →
      (HidesNow E (run E s ops) a (Store.supersede E (run E s ops) a w p src) ↔
        NotExpiring m (E.now (run E s ops).clock) ∧ NotExpiring mw (E.now (run E s ops).clock)) := by
  generalize run E s ops = u at hm ⊢
  refine ⟨fun reason => ?_, fun reason => ?_, fun w mw p src hw hva hvw => ?_⟩
  · rw [invalidate_hides hm, notExpiring_iff hm]
  · rw [archive_hides hm, notExpiring_iff hm]
  · rw [supersede_hides hm hw, notExpiring_iff hm, notExpiring_iff hw]
    exact ⟨fun h => ⟨fun _ => h.1, fun _ => h.2⟩, fun h => ⟨h.1 hva, h.2 hvw⟩⟩

/-! ## A fact that expires -/

/-- the model found an end date -/
def supportContract : NormalizedMemory :=
  { type := .fact, text := "the support contract runs through March", normalizedText := "support contract", finalHash := 5,
    importance := 1, confidence := 1, invalidAt := some 1000 }

/-- it is remembered beside a fact without an end -/
def expiringOps : List Op := [.remember (rememberInput 1 "a"), .screen supportContract, .index {} supportContract]

theorem visible_hideable_open : (findRow (run countingEnv {} expiringOps) 0).map (·.validTo) = some none ∧
    (VisibleAt (run countingEnv {} expiringOps) 0 (countingEnv.now (run countingEnv {} expiringOps).clock) →
      HidesNow countingEnv (run countingEnv {} expiringOps) 0
        (Store.invalidate countingEnv (run countingEnv {} expiringOps) 0 none)) := by
  have hrow : (findRow (run countingEnv {} expiringOps) 0).map (·.validTo) = some none := by decide
  obtain ⟨m, hm, hopen⟩ := Option.map_eq_some_iff.1 hrow
  refine ⟨hrow, ((visible_hideable countingEnv {} expiringOps 0 m hm).1 none).2 fun v hv => ?_⟩
  rw [hopen] at hv
  cases hv

/-- **An expiring fact cannot be hidden.** Recall admits it now, and `invalidate` says that it is already invalid. -/
theorem expiring_fact_not_hideable :
    (findRow (run countingEnv {} expiringOps) 2).map (fun m =>
      (m.validTo, validityFilterClause none (countingEnv.now (run countingEnv {} expiringOps).clock) m)) =
        some (some 1000, true) ∧
    Store.invalidate countingEnv (run countingEnv {} expiringOps) 2 none =
      .error (.memoryConflict "memory 2 is already invalid") := by
  decide

end AstramemLocal.Daemon
