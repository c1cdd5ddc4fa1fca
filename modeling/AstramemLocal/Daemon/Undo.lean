/-
unsupersede and later pulls. The undo is an event of its own that conflict resolution does not read: it sees the
supersede event that is still in the log.
* `NamedOk`: in every reachable state a row with a winner has a supersede event that names one, so an atom that came
  back by unsupersede has one too.
* `unsupersede_survives`: a pull leaves such an atom as it is exactly when it brings no event of it, other forks apart.
* `usefulness_undoes_unsupersede`: a usefulness event is enough to hide it again.
-/
import AstramemLocal.Daemon.Effects
import AstramemLocal.Sync.Convergence
import AstramemLocal.Sync.PullForks

namespace AstramemLocal.Daemon

open AstramemLocal.Store AstramemLocal.Sync AstramemLocal.Distill AstramemLocal.Core Relation

/-- a row with a winner is hidden by a supersede event that names one -/
structure NamedOk (s : St) : Prop where
  ids : UniqueIds s
  named : ∀ a m, findRow s a = some m → m.supersededBy ≠ none → ∃ r, Names (records s) a r

variable {E : Env} {Q : AtomId → AtomId → Prop} {A : St → Hash → Prop} {K : Memory → Prop} {s t : St}
  {batch : PullBatch}

/-! ## The invariant -/

/-- no row gets a winner, and the log grows -/
theorem NamedOk.of_rows (h : NamedOk s) (hids : UniqueIds t) (hlog : ∀ e ∈ records s, e ∈ records t)
    (hrows : ∀ a x, findRow t a = some x → x.supersededBy ≠ none → (∃ r, Names (records t) a r) ∨
      ∃ m, findRow s a = some m ∧ m.supersededBy ≠ none) : NamedOk t where
  ids := hids
  named a x hx hs := by
    rcases hrows a x hx hs with hr | ⟨m, hm, hms⟩
    · exact hr
    · obtain ⟨r, hr⟩ := h.named a m hm hms
      exact ⟨r, names_mono hlog hr⟩

theorem NamedOk.effect (h : NamedOk s) (he : Effect E Q A K s t) : NamedOk t := by
  have hids := he.unique h.ids
  have hlog := he.records_sub
  have hsame : (∀ a, findRow t a = findRow s a) → NamedOk t := fun hrow =>
    h.of_rows hids hlog fun a x hx hs => Or.inr ⟨x, by rwa [hrow] at hx, hs⟩
  cases he with
  | frame hf => exact hsame fun a => findRow_congr hf.memories a
  | inserted input rowid now at_ _ _ hn =>
    refine h.of_rows hids hlog fun a x hx hs => ?_
    rw [findRow_inserted hn] at hx
    split_ifs at hx
    · obtain rfl := Option.some.inj hx
      exact absurd rfl hs
    · exact Or.inr ⟨x, hx, hs⟩
  | rewritten now p hm hr =>
    rename_i b m f ty
    refine h.of_rows hids hlog fun a x hx hs => ?_
    rw [findRow_append, findRow_updateRow s b a hr.id_eq] at hx
    obtain ⟨y, hy, hxy⟩ := Option.map_eq_some_iff.1 hx
    split_ifs at hxy with hab
    · subst hab hxy
      obtain rfl := Option.some.inj (hm.symm.trans hy)
      refine Or.inr ⟨m, hm, fun hc => hs ?_⟩
      cases hr <;> first | exact hc | rfl
    · subst hxy
      exact Or.inr ⟨y, hy, hs⟩
  | touched validFrom now =>
    rename_i b
    refine h.of_rows hids hlog fun a x hx hs => ?_
    obtain ⟨y, hy, hxy⟩ := Option.map_eq_some_iff.1 ((findRow_updateRow s b a
      (f := fun x => { x with validFrom := validFrom x, updatedAt := now }) fun _ => rfl).symm.trans hx)
    split_ifs at hxy <;> subst hxy <;> exact Or.inr ⟨y, hy, hs⟩
  | superseded p now hm hv hmw hvw hq =>
    rename_i b w m mw
    refine h.of_rows hids hlog fun a x hx hs => ?_
    obtain ⟨y, hy, hxy⟩ := Option.map_eq_some_iff.1 ((findRow_updateRow s b a (f := fun x =>
      { x with validTo := some now, supersededBy := some w, updatedAt := now }) fun _ => rfl).symm.trans hx)
    by_cases hab : a = b
    · subst hab
      refine Or.inl ⟨⟨⟨E.uuid s.drawn, .supersede, a, some (supersedePayload w p), none, now⟩, w⟩, ⟨⟨?_, rfl, rfl⟩, ?_⟩⟩
      · rw [append_records]
        exact List.mem_append_right _ List.mem_cons_self
      · cases p <;> rfl
    · rw [if_neg hab] at hxy
      subst hxy
      exact Or.inr ⟨y, hy, hs⟩
  | noted a p now => exact hsame fun b => rfl
  | erased reason now hm =>
    refine h.of_rows hids hlog fun a x hx hs => ?_
    rw [findRow_deleteRow] at hx
    split_ifs at hx
    exact Or.inr ⟨x, hx, hs⟩
  | linked link => exact hsame fun b => rfl
  | related r => exact hsame fun b => rfl
  | vectored => exact hsame fun b => rfl

theorem namedOk_effects : PullEffects E s batch fun _ u => NamedOk u where
  weaken _ h := h
  erased {P u a} ha hj h he := by
    have huniq : PullEffects E s batch fun _ v => UniqueIds v := unique_effects
    refine h.of_rows (huniq.erased (P := ∅) ha hj h.ids he) (fun e he => by rwa [hardDeleteAtom_records]) fun b x hx hs => ?_
    rw [findRow_hardDeleteAtom] at hx
    split_ifs at hx
    exact Or.inr ⟨x, hx, hs⟩
  absent _ _ h _ _ := h
  quiet _ _ h _ _ _ := h
  unresolved _ _ h _ _ _ := ⟨h.ids, h.named⟩
  invalidated {P u a v} ha hj h hp hs hv := by
    have huniq : PullEffects E s batch fun _ v => UniqueIds v := unique_effects
    refine h.of_rows (huniq.invalidated (P := ∅) ha hj h.ids hp hs hv) (fun _ he => he) fun b x hx hxs => ?_
    rw [findRow_hideInvalidated, Option.map_eq_some_iff] at hx
    obtain ⟨y, hy, rfl⟩ := hx
    refine Or.inr ⟨y, hy, fun hc => hxs ?_⟩
    split_ifs <;> exact hc
  superseded {P u a w v} ha hj h hp hw hv := by
    have huniq : PullEffects E s batch fun _ v => UniqueIds v := unique_effects
    refine h.of_rows (huniq.superseded (P := ∅) ha hj h.ids hp hw hv) (fun _ he => he) fun b x hx hxs => ?_
    rw [findRow_hideSuperseded, Option.map_eq_some_iff] at hx
    obtain ⟨y, hy, rfl⟩ := hx
    by_cases hba : b = a
    · subst hba
      exact Or.inl ⟨w, hw.mem⟩
    · rw [if_neg hba] at hxs
      exact Or.inr ⟨y, hy, hxs⟩
  chain {P u y w at_} _ h _ _ := h.of_rows h.ids
    (fun e he => by rw [chainEvent_records]; exact List.mem_append_left _ he) fun b x hx hs => Or.inr ⟨x, hx, hs⟩

theorem NamedOk.pull (h : NamedOk s) (hp : pullOnce E s batch = .ok t) : NamedOk t := by
  rcases pull_rule hp with ⟨-, rfl⟩ | ⟨m, touched, u, hm, rfl, -, hI⟩
  · exact h
  have hmn : NamedOk m := by
    refine h.of_rows (hm.unique .id h.ids) (fun e he => by rw [hm.log]; exact List.mem_append_left _ he) fun a x hx hs => ?_
    cases hsa : findRow s a with
    | some y =>
      obtain rfl := Option.some.inj ((hm.findRow_of_some hsa).symm.trans hx)
      exact Or.inr ⟨y, rfl, hs⟩
    | none =>
      obtain ⟨e, -, -, sn, now, k, -, rfl⟩ := hm.made_row hx hsa
      exact absurd rfl hs
  have hu : NamedOk u := hI _ namedOk_effects hmn
  exact ⟨hu.ids, hu.named⟩

theorem NamedOk.step (h : NamedOk s) (op : Op) : NamedOk (step E s op) :=
  step_inv h.ids (Permits.all s op) (fun _ _ hs he => hs.effect he) (fun _ _ _ ht => h.pull ht) h

theorem NamedOk.run (h : NamedOk s) (ops : List Op) : NamedOk (run E s ops) :=
  along_inv NamedOk (fun _ _ hs _ => hs.step _) h (along_trivial _ _ _)

theorem namedOk_start (sessions : List SessionId) : NamedOk { sessions } :=
  ⟨List.nodup_nil, fun _ _ hm => by cases hm⟩

/-! ## A pull after the undo -/

/-- the supersede event of an atom hides it in every recompute -/
theorem rehidden_effects (a : AtomId) : PullEffects E s batch fun P u => (∃ r, Names (records u) a r) ∧
    (a ∉ P → ∀ m, findRow u a = some m → m.supersededBy ≠ none) where
  weaken hPP h := ⟨h.1, fun hn => h.2 fun hp => hn (hPP hp)⟩
  erased {P u b} _ _ h _ := by
    refine ⟨by rw [hardDeleteAtom_records]; exact h.1, fun hn m hm => ?_⟩
    rw [findRow_hardDeleteAtom] at hm
    split_ifs at hm with hab
    exact h.2 (fun hp => hn ⟨hp, hab⟩) m hm
  absent {P u b} _ _ h _ hnone := by
    refine ⟨h.1, fun hn m hm => h.2 (fun hp => hn ⟨hp, ?_⟩) m hm⟩
    rintro rfl
    rw [hnone] at hm
    cases hm
  quiet {P u b} _ _ h _ hs _ := by
    refine ⟨h.1, fun hn m hm => h.2 (fun hp => hn ⟨hp, ?_⟩) m hm⟩
    rintro rfl
    obtain ⟨r, hr⟩ := h.1
    exact hs _ hr.1
  unresolved {P u b} _ _ h _ _ hno := by
    refine ⟨h.1, fun hn m hm => h.2 (fun hp => hn ⟨hp, ?_⟩) m hm⟩
    rintro rfl
    obtain ⟨r, hr⟩ := h.1
    exact hno r hr
  invalidated {P u b v} _ _ h _ hs _ := by
    have hab : a ≠ b := by
      rintro rfl
      obtain ⟨r, hr⟩ := h.1
      exact hs _ hr.1
    refine ⟨h.1, fun hn m hm => h.2 (fun hp => hn ⟨hp, hab⟩) m ?_⟩
    rwa [findRow_hideInvalidated_ne E u v hab] at hm
  superseded {P u b w v} _ _ h _ _ _ := by
    refine ⟨h.1, fun hn m hm => ?_⟩
    rw [findRow_hideSuperseded, Option.map_eq_some_iff] at hm
    obtain ⟨y, hy, rfl⟩ := hm
    by_cases hab : a = b
    · rw [if_pos hab]
      exact Option.some_ne_none _
    · rw [if_neg hab]
      exact h.2 (fun hp => hn ⟨hp, hab⟩) y hy
  chain {P u y w at_} _ h _ _ := by
    obtain ⟨⟨r, hr⟩, hrow⟩ := h
    refine ⟨⟨r, names_mono (fun e he => ?_) hr⟩, fun hn => hrow fun hp => hn (Or.inr hp)⟩
    rw [chainEvent_records]
    exact List.mem_append_left _ he

/-- a touched atom with a supersede event that names a winner does not stay current -/
theorem pull_rehides (hp : pullOnce E s batch = .ok t) {a : AtomId} (ha : Touched s batch a)
    (hr : ∃ r, Names (records s) a r) : projection t a ≠ some (none, none) := by
  rcases pull_rule hp with ⟨hnil, -⟩ | ⟨m, touched, u, hm, rfl, -, hI⟩
  · obtain ⟨e, he, -⟩ := ha
    rw [incoming, hnil] at he
    exact absurd he List.not_mem_nil
  · obtain ⟨r, hr⟩ := hr
    have hrm : Names (records m) a r := names_mono (fun e he => by rw [hm.log]; exact List.mem_append_left _ he) hr
    obtain ⟨-, hu⟩ := hI _ (rehidden_effects a) ⟨⟨r, hrm⟩, fun hn => absurd ha hn⟩
    intro hc
    obtain ⟨x, hx, hxp⟩ := Option.map_eq_some_iff.1 hc
    exact hu (Set.notMem_empty a) x hx (congrArg Prod.snd hxp)

/-- **A pull after unsupersede.** The user brought `a` back, and it is still current in the state `s` of the run. A pull
then leaves its valid_to and superseded_by as they are only when it brings no event of `a`, and does when moreover no
fork chains `a`. -/
theorem unsupersede_survives (E : Env) (sessions : List SessionId) (pre post : List Op) (a : AtomId)
    (reason : Option String) (hundo : ∃ u, Store.unsupersede E (run E { sessions } pre) a reason = .ok u)
    (hcur : projection (run E { sessions } (pre ++ .unsupersede a reason :: post)) a = some (none, none))
    (hp : pullOnce E (run E { sessions } (pre ++ .unsupersede a reason :: post)) batch = .ok t) :
    (projection t a = some (none, none) → ¬ Touched (run E { sessions } (pre ++ .unsupersede a reason :: post)) batch a) ∧
      (¬ Touched (run E { sessions } (pre ++ .unsupersede a reason :: post)) batch a →
        ¬ (pullForks E (run E { sessions } (pre ++ .unsupersede a reason :: post)) batch).Chained a →
        projection t a = some (none, none)) := by
  constructor
  · intro hq ha
    refine pull_rehides hp ha ?_ hq
    -- the row had a winner before the undo, so a supersede event names one
    have hpre : NamedOk (run E { sessions } pre) := (namedOk_start sessions).run pre
    obtain ⟨r, hr⟩ : ∃ r, Names (records (run E { sessions } pre)) a r := by
      obtain ⟨u, hu⟩ := hundo
      obtain ⟨row, w, hrow, -, hw, -⟩ := unsupersede_ok hu
      exact hpre.named a row hrow (by rw [hw]; simp)
    refine ⟨r, names_mono (fun e he => ?_) hr⟩
    rw [run, List.foldl_append]
    exact run_records hpre.ids _ e he
  · intro ha hc
    rw [projection, (pull_untouched hp ha hc).row]
    exact hcur

def usefulnessEvent (id : EventId) (a : AtomId) (at_ : Time) : RemotePullEvent :=
  { eventId := id, eventType := .usefulness, atomId := a, payloadJson := some { family := some "memory_used" },
    contentHash := none, createdAt := at_ }

/-- memories 0 and 2; 0 is superseded by 2 -/
def mergedOps : List Op :=
  [.remember (rememberInput 1 "a"), .remember (rememberInput 2 "b"), .supersede 0 2 none .external]

/-- 0 is brought back, and a usefulness event of 2 is pulled -/
theorem unsupersede_survives_other : ∃ t,
    pullOnce countingEnv (run countingEnv { sessions := [] } (mergedOps ++ .unsupersede 0 none :: []))
      ⟨[usefulnessEvent 900 2 10], none⟩ = .ok t ∧ projection t 0 = some (none, none) := by
  obtain ⟨t, h⟩ := isOk_exists (show (pullOnce countingEnv (run countingEnv { sessions := [] }
    (mergedOps ++ .unsupersede 0 none :: [])) ⟨[usefulnessEvent 900 2 10], none⟩).isOk = true by decide)
  obtain ⟨u, hu⟩ := isOk_exists (show (Store.unsupersede countingEnv (run countingEnv { sessions := [] } mergedOps)
    0 none).isOk = true by decide)
  refine ⟨t, h, (unsupersede_survives countingEnv [] mergedOps [] 0 none ⟨u, hu⟩ (by decide) h).2 ?_
    (pull_not_chained (by decide))⟩
  rintro ⟨e, he, hea⟩
  have hno : ∀ e ∈ incoming (run countingEnv { sessions := [] } (mergedOps ++ .unsupersede 0 none :: []))
      ⟨[usefulnessEvent 900 2 10], none⟩, e.atomId ≠ 0 := by decide
  exact hno e he hea

/-- **A usefulness event undoes the undo.** The pull recomputes memory 0 from its whole log, in which the supersede
event still wins. -/
theorem usefulness_undoes_unsupersede :
    projection (run countingEnv {} (mergedOps ++ [.unsupersede 0 none])) 0 = some (none, none) ∧
      (projection (run countingEnv {} (mergedOps ++ [.unsupersede 0 none, .pull ⟨[usefulnessEvent 900 0 10], none⟩]))
        0).map (·.2) = some (some 2) := by
  decide

end AstramemLocal.Daemon
