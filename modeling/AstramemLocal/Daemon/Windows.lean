/-
The validity windows of superseded memories. `supersede` closes the window of the old row and opens that of the new one
at one instant, so the two windows meet: an `as_of` finds at most one of the two, and no instant falls between them. The
new row may be the winner of earlier supersedes, whose windows closed at their own instants.
- `windows_meet`: along a run of supersede, unsupersede, invalidate and remember the windows always meet iff no row is
  superseded by a memory that has superseded another one at an earlier (or later) instant.
- `second_supersede_leaves_gap`: two memories superseded by the same winner, one after the other.
-/
import AstramemLocal.Daemon.Effects
import AstramemLocal.Search.Validity

namespace AstramemLocal.Daemon

open AstramemLocal.Store AstramemLocal.Search AstramemLocal.Core

/-! ## The property -/

/-- when a memory is valid, and what superseded it -/
def life (s : St) (a : AtomId) : Option (Window Time × Option AtomId) :=
  (findRow s a).map fun m => (window m, m.supersededBy)

/-- the window of a superseded memory meets that of its winner -/
def WindowsMeet (s : St) : Prop :=
  ∀ a v w, life s a = some (v, some w) → ∃ u, life s w = some u ∧ v.Meets u.1

/-- what an `as_of` at `t` finds of the two -/
theorem WindowsMeet.as_of {s : St} (h : WindowsMeet s) {a w : AtomId} {l m : Memory} (hl : findRow s a = some l)
    (hw : l.supersededBy = some w) (hm : findRow s w = some m) (t now : Time) :
    ¬ (validityFilterClause (some t) now l = true ∧ validityFilterClause (some t) now m = true) ∧
      (l.validFrom ≤ t → (window m).OpenAt t →
        validityFilterClause (some t) now l = true ∨ validityFilterClause (some t) now m = true) := by
  obtain ⟨u, hu, hmeet⟩ := h a (window l) w (by rw [life, hl, Option.map_some, hw])
  rw [life, hm, Option.map_some, Option.some.injEq] at hu
  rw [← hu] at hmeet
  simp only [validityFilterClause_asOf]
  exact ⟨hmeet.disjoint, hmeet.covers (lt_or_ge t m.validFrom)⟩

/-- the operations of these runs -/
def Op.revises : Op → Bool
  | .supersede .. | .unsupersede .. | .invalidate .. | .remember _ => true
  | _ => false

/-- both ends of a supersede are there and open, so it goes through -/
def Supersedable (s : St) (a w : AtomId) : Prop :=
  (findRow s a).any (·.validTo = none) = true ∧ (findRow s w).any (·.validTo = none) = true

/-- every other memory that `w` superseded was closed at this very instant -/
abbrev ClosedNow (E : Env) (s : St) (a w : AtomId) : Prop :=
  ∀ b ∈ s.memories.map (·.id), b ≠ a → ∀ m ∈ findRow s b, m.supersededBy = some w → m.validTo = some (E.now s.clock)

/-- a supersede that goes through has a winner that superseded nothing at another instant -/
def FreshWinner (E : Env) (s : St) : Op → Prop
  | .supersede a w _ _ => Supersedable s a w → ClosedNow E s a w
  | _ => True

instance (s : St) (a w : AtomId) : Decidable (Supersedable s a w) := inferInstanceAs (Decidable (_ ∧ _))

instance (E : Env) (s : St) : ∀ op, Decidable (FreshWinner E s op)
  | .supersede a w _ _ => inferInstanceAs (Decidable (Supersedable s a w → ClosedNow E s a w))
  | .remember _ | .screen _ | .discard _ | .index _ _ | .invalidate _ _ | .archive _ _ | .restore _ | .unsupersede _ _
  | .purgeBatch _ _ _ | .restorePurgeBatch _ | .finalizePurgeBatch _ | .erase _ _ | .promoteScope _ _ | .ship _ _
  | .pull _ => isTrue trivial

variable {E : Env} {s t : St}

/-! ## What the operations do to a life -/

theorem invalidate_life {a : AtomId} {reason : Option String} (h : Store.invalidate E s a reason = .ok t) :
    (∃ v x, life s a = some (⟨v, none⟩, x)) ∧ ∀ b, life t b = (life s b).map fun u =>
      if b = a then (⟨u.1.start, some (E.now s.clock)⟩, u.2) else u := by
  obtain ⟨m, hm, hv, rfl⟩ := invalidate_ok h
  refine ⟨⟨m.validFrom, m.supersededBy, by rw [life, hm, Option.map_some, window, hv]⟩, fun b => ?_⟩
  simp only [life, findRow_append]
  rw [findRow_updateRow _ a b (by intro _; rfl), findRow_tick, Option.map_map, Option.map_map]
  refine congrArg (Option.map · _) (funext fun x => ?_)
  simp only [Function.comp]
  split_ifs <;> rfl

theorem unsupersede_life {a : AtomId} {reason : Option String} (h : Store.unsupersede E s a reason = .ok t) :
    ∀ b, life t b = (life s b).map fun u => if b = a then (⟨u.1.start, none⟩, none) else u := by
  obtain ⟨m, w, -, -, -, rfl⟩ := unsupersede_ok h
  intro b
  simp only [life, findRow_append]
  rw [findRow_updateRow _ a b (by intro _; rfl), findRow_tick, Option.map_map, Option.map_map]
  refine congrArg (Option.map · _) (funext fun x => ?_)
  simp only [Function.comp]
  split_ifs <;> rfl

theorem supersede_life {a w : AtomId} {p : Option SupersedeProvenance} {src : CorrectionSource}
    (h : Store.supersede E s a w p src = .ok t) : Supersedable s a w ∧ ∀ b, life t b = (life s b).map fun u =>
      (⟨if b = w then E.now s.clock else u.1.start, if b = a then some (E.now s.clock) else u.1.stop⟩,
        if b = a then some w else u.2) := by
  obtain ⟨l, m, hl, hlv, hm, hmv, rfl⟩ := Store.supersede_ok h
  refine ⟨⟨by simp [hl, hlv], by simp [hm, hmv]⟩, fun b => ?_⟩
  simp only [life, findRow_append, findRow_dropRelations, findRow_unlinkMemory]
  rw [findRow_updateRow _ w b (by intro _; rfl), findRow_updateRow _ a b (by intro _; rfl), findRow_tick,
    Option.map_map, Option.map_map, Option.map_map]
  refine congrArg (Option.map · _) (funext fun x => ?_)
  simp only [Function.comp]
  split_ifs <;> rfl

/-- a supersede whose ends are there and open goes through -/
theorem supersede_ok {a w : AtomId} {p : Option SupersedeProvenance} {src : CorrectionSource} (h : Supersedable s a w) :
    ∃ t, Store.supersede E s a w p src = .ok t := by
  obtain ⟨ha, hw⟩ := h
  obtain ⟨l, hl, hlv⟩ := (Option.any_eq_true _ _).1 ha
  obtain ⟨m, hm, hmv⟩ := (Option.any_eq_true _ _).1 hw
  simp only [decide_eq_true_eq] at hlv hmv
  simp [Store.supersede, hl, hm, hlv, hmv]

theorem remember_life {input : InsertInput} {r : St × Inserted} (h : insertWithCreateEvent E s input = .ok r) :
    ∀ b, life r.1 b = life s b ∨ life s b = none ∧ ∃ v, life r.1 b = some (v, none) := by
  intro b
  rcases insertWithCreateEvent_ok h with ⟨m, -, rfl⟩ | ⟨-, hrow, -, rfl⟩
  · exact Or.inl rfl
  · simp only [life, inserted, findRow_append]
    rw [findRow_snoc (s := s) (m := storedRow E s input) rfl hrow b]
    split_ifs with hb
    · have hnone : findRow s b = none := hb ▸ hrow
      exact Or.inr ⟨by rw [hnone, Option.map_none], _, rfl⟩
    · exact Or.inl rfl

/-! ## Steps -/

theorem life_of_row {a : AtomId} {m : Memory} (h : findRow s a = some m) : life s a = some (window m, m.supersededBy) := by
  rw [life, h, Option.map_some]

theorem row_of_life {a : AtomId} {u : Window Time × Option AtomId} (h : life s a = some u) :
    ∃ m, findRow s a = some m ∧ window m = u.1 ∧ m.supersededBy = u.2 := by
  obtain ⟨m, hm, rfl⟩ := Option.map_eq_some_iff.1 h
  exact ⟨m, hm, rfl, rfl⟩

/-- windows that keep their start, and are not reopened or closed while they are superseded -/
theorem WindowsMeet.of_life (h : WindowsMeet s) (f : AtomId → Window Time × Option AtomId → Window Time × Option AtomId)
    (hlife : ∀ b, life t b = (life s b).map (f b)) (hstart : ∀ b u, (f b u).1.start = u.1.start)
    (hsup : ∀ b u w, life s b = some u → (f b u).2 = some w → u.2 = some w ∧ (f b u).1.stop = u.1.stop) :
    WindowsMeet t := by
  intro a v w ha
  rw [hlife, Option.map_eq_some_iff] at ha
  obtain ⟨⟨v0, x0⟩, hu, heq⟩ := ha
  obtain ⟨hx, hstop⟩ := hsup a _ w hu (by rw [heq])
  simp only at hx
  subst hx
  obtain ⟨z, hz, hmeet⟩ := h a v0 w hu
  refine ⟨f w z, by rw [hlife, hz, Option.map_some], ?_⟩
  rw [Window.Meets, hstart, ← show (f a (v0, some w)).1 = v by rw [heq], hstop]
  exact hmeet

/-- **Step.** -/
theorem WindowsMeet.step (h : WindowsMeet s) {op : Op} (hop : op.revises = true) (hfresh : FreshWinner E s op) :
    WindowsMeet (step E s op) := by
  unfold Daemon.step
  cases hx : exec E s op with
  | error e => exact h
  | ok t =>
    simp only
    cases op with
    | remember input =>
      obtain ⟨r, hr, rfl⟩ := map_ok hx
      have hlife := remember_life (mapError_ok hr)
      intro a v w ha
      rcases hlife a with heq | ⟨-, v', hnew⟩
      · obtain ⟨u, hu, hmeet⟩ := h a v w (heq ▸ ha)
        rcases hlife w with heqw | ⟨hnone, -⟩
        · exact ⟨u, heqw.trans hu, hmeet⟩
        · rw [hnone] at hu
          cases hu
      · rw [hnew] at ha
        cases ha
    | invalidate a reason =>
      obtain ⟨⟨v, x, hopen⟩, hlife⟩ := invalidate_life (mapError_ok hx)
      refine h.of_life _ hlife (fun b u => ?_) fun b u w hu hw => ?_
      · split_ifs <;> rfl
      · split_ifs at hw ⊢ with hb
        · -- an open window is not superseded
          rw [hb, hopen, Option.some.injEq] at hu
          subst hu
          simp only at hw
          rw [hw] at hopen
          obtain ⟨z, -, hmeet⟩ := h a _ w hopen
          cases hmeet
        · exact ⟨hw, rfl⟩
    | unsupersede a reason =>
      refine h.of_life _ (unsupersede_life (mapError_ok hx)) (fun b u => ?_) fun b u w hu hw => ?_
      · split_ifs <;> rfl
      · split_ifs at hw ⊢ with hb
        exact ⟨hw, rfl⟩
    | supersede a x p src =>
      obtain ⟨hready, hlife⟩ := supersede_life (mapError_ok hx)
      have hclosed := hfresh hready
      obtain ⟨m, hm, -⟩ := (Option.any_eq_true _ _).1 hready.2
      intro b v w hb
      rw [hlife, Option.map_eq_some_iff] at hb
      obtain ⟨⟨v0, x0⟩, hu, heq⟩ := hb
      simp only [Prod.mk.injEq] at heq
      obtain ⟨rfl, hby⟩ := heq
      by_cases hba : b = a
      · -- the new pair
        rw [if_pos hba, Option.some.injEq] at hby
        subst hby
        refine ⟨_, by rw [hlife, life_of_row hm, Option.map_some], ?_⟩
        simp [Window.Meets, hba]
      · rw [if_neg hba] at hby
        subst hby
        obtain ⟨z, hz, hmeet⟩ := h b v0 w hu
        refine ⟨_, by rw [hlife, hz, Option.map_some], ?_⟩
        simp only [Window.Meets, if_neg hba]
        by_cases hwx : w = x
        · -- an older pair with the same winner
          obtain ⟨l, hl, hwin, hsup⟩ := row_of_life hu
          have hmem : b ∈ s.memories.map (·.id) := findRow_id hl ▸ List.mem_map_of_mem (findRow_mem hl)
          rw [if_pos hwx]
          simp only at hwin
          rw [← hwin]
          exact hclosed b hmem hba l hl (hsup.trans (congrArg some hwx))
        · rw [if_neg hwx]
          exact hmeet
    | _ => cases hop

/-- a supersede whose winner closed another memory at another instant breaks their pair -/
theorem not_windowsMeet_step {op : Op} (hfresh : ¬ FreshWinner E s op) : ¬ WindowsMeet (step E s op) := by
  cases op with
  | supersede a w p src =>
    simp only [FreshWinner, Classical.not_imp] at hfresh
    obtain ⟨hready, hclosed⟩ := hfresh
    obtain ⟨t, ht⟩ : ∃ t, Store.supersede E s a w p src = .ok t := supersede_ok hready
    have hstep : Daemon.step E s (.supersede a w p src) = t := by
      simp [Daemon.step, exec, ht, Except.mapError]
    obtain ⟨-, hlife⟩ := supersede_life ht
    rw [hstep]
    intro h
    apply hclosed
    intro b hb hba m hm hsup
    have hlb := life_of_row hm
    rw [hsup] at hlb
    have hb' : life t b = some (⟨if b = w then E.now s.clock else m.validFrom, m.validTo⟩, some w) := by
      rw [hlife, hlb, Option.map_some, if_neg hba, if_neg hba]
      rfl
    obtain ⟨z, hz, hmeet⟩ := h b _ w hb'
    rw [hlife, Option.map_eq_some_iff] at hz
    obtain ⟨y, -, rfl⟩ := hz
    simpa [Window.Meets] using hmeet
  | _ => exact absurd trivial hfresh

/-! ## Runs -/

/-- **Contiguity.** Along a run the windows always meet iff no supersede has a winner that superseded another memory at
another instant. Where they meet, no `as_of` finds a superseded memory together with its winner, and none that both
windows span finds neither. -/
theorem windows_meet (E : Env) (s : St) (h : WindowsMeet s) (ops : List Op) (hops : ∀ op ∈ ops, op.revises = true) :
    ((∀ pre, pre <+: ops → WindowsMeet (run E s pre)) ↔ Along (step E) (FreshWinner E) s ops) ∧
    ∀ u, WindowsMeet u → ∀ a w l m, findRow u a = some l → l.supersededBy = some w → findRow u w = some m → ∀ t now,
      ¬ (validityFilterClause (some t) now l = true ∧ validityFilterClause (some t) now m = true) ∧
      (l.validFrom ≤ t → (window m).OpenAt t →
        validityFilterClause (some t) now l = true ∨ validityFilterClause (some t) now m = true) := by
  refine ⟨⟨fun hall => ?_, fun halong pre hpre => ?_⟩, fun u hu a w l m hl hw hm t now => hu.as_of hl hw hm t now⟩
  · exact along_of_prefixes WindowsMeet (fun _ _ _ hbad => not_windowsMeet_step hbad) hall
  · refine along_inv WindowsMeet (fun v op hv hop => ?_) h ((halong.and_forall hops).initial hpre)
    exact hv.step hop.2 hop.1

theorem windowsMeet_empty : WindowsMeet {} := by
  intro a v w h
  simp [life, findRow] at h

/-- three memories; the first is superseded by the third, and the third by the second -/
def chainOps : List Op :=
  [.remember (rememberInput 1 "a"), .remember (rememberInput 2 "b"), .remember (rememberInput 3 "c"),
    .supersede 0 4 none .external, .supersede 4 2 none .external]

theorem windows_meet_chain :
    (run countingEnv {} chainOps).memories.map (fun m => (m.id, m.supersededBy)) = [(0, some 4), (2, none), (4, some 2)] ∧
      WindowsMeet (run countingEnv {} chainOps) :=
  ⟨by decide, (windows_meet countingEnv {} windowsMeet_empty chainOps (by decide)).1.2 (by decide) chainOps
    (List.prefix_refl _)⟩

/-- **A second supersede leaves a gap.** Memories 0 and 2 are superseded by memory 4, one after the other: an `as_of` at
the instant 0 was superseded finds neither 0 nor 4. -/
theorem second_supersede_leaves_gap :
    (run countingEnv {} (chainOps.take 3 ++ [.supersede 0 4 none .external, .supersede 2 4 none .external])).memories.map
      (fun m => (m.id, m.validFrom, m.validTo, m.supersededBy)) =
        [(0, 0, some 6, some 4), (2, 2, some 7, some 4), (4, 7, none, none)] ∧
    (run countingEnv {} (chainOps.take 3 ++ [.supersede 0 4 none .external, .supersede 2 4 none .external])).memories.map
      (fun m => (m.id, validityFilterClause (some 6) 100 m)) = [(0, false), (2, true), (4, false)] := by
  decide

end AstramemLocal.Daemon
