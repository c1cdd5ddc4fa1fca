/-
When `recomputeProjection` returns. The recursion follows the chainings of fork resolution, so it returns from every
state in which they close no cycle (`recompute_terminates`); on a cycle whose chainings are all in the log it never
does, whatever the stack (`recompute_diverges`).
* `supersede_cycle_diverges`: four local lifecycle calls reach such a cycle. A is superseded by B and brought back, then
  B is superseded by A, then A by C. A recompute of A never returns.
-/
import AstramemLocal.Sync.ForkTrace
import AstramemLocal.Daemon

namespace AstramemLocal.Sync

open AstramemLocal.Store AstramemLocal.Core AstramemLocal.Daemon

variable {E : Env} {F : Forks AtomId} {H D : List EventRecord} {c : ℕ}

/-- the loop over the losers returns when each of their recomputes does; the stacks they need are joined by `max` -/
theorem chainLosers_terminates {R : AtomId → St → Prop} {C : AtomId → AtomId → Time → Prop} {J : St → Prop}
    (hJ : Traversal E R C J) {now : Time} {w : Resolvable} {losers : List Resolvable}
    (hC : ∀ r ∈ losers, C r.target w.target (max r.createdAt now))
    (hrec : ∀ r ∈ losers, ∀ s, J s → R r.target s → ∃ n t, recomputeProjection E n s r.target = some t) {s : St}
    (hj : J s) : ∃ n t, chainLosers E n now w losers s = some t := by
  induction losers generalizing s with
  | nil => exact ⟨0, s, rfl⟩
  | cons r l ih =>
    have hc := hC r List.mem_cons_self
    -- the state the recursive call starts from
    obtain ⟨u, hu, hju, hmu⟩ : ∃ u, (∀ n, Sync.chainLoserToWinner E (recomputeProjection E n) s r.target w.target
        (max r.createdAt now) = recomputeProjection E n u r.target) ∧ J u ∧ Merged (records u) r.target w.target := by
      by_cases hch : chained s r.target w.target = true
      · exact ⟨s, fun n => by simp [chainLoserToWinner, hch], hj, chained_iff.1 hch⟩
      · exact ⟨chainEvent E s r.target w.target (max r.createdAt now),
          fun n => by simp [chainLoserToWinner, hch, chainEvent],
          hJ.effects.chain (P := ∅) trivial hj hc (mt chained_iff.2 hch), merged_chainEvent s _ _ _⟩
    obtain ⟨n1, t1, h1⟩ := hrec r List.mem_cons_self u hju (hJ.visit hju hc hmu)
    have hjt := hJ.keeps (hJ.visit hju hc hmu) hju h1
    obtain ⟨n2, t2, h2⟩ := ih (fun x hx => hC x (List.mem_cons_of_mem _ hx))
      (fun x hx => hrec x (List.mem_cons_of_mem _ hx)) hjt
    refine ⟨max n1 n2, t2, ?_⟩
    have h2' : chainLosers E (max n1 n2) now w l t1 = some t2 := by
      refine foldlM_mono (fun b x y hxy => ?_) h2
      simp only [chainLoserToWinner] at hxy ⊢
      exact recompute_mono hxy (le_max_right _ _)
    simp only [chainLosers, List.foldlM_cons, bind, Option.bind_eq_some_iff]
    exact ⟨t1, by rw [hu]; exact recompute_mono h1 (le_max_left _ _), h2'⟩

/-- a recompute of a reached atom returns when the call graph is well-founded -/
theorem terminates_of_wellFounded (hA : Adequate E F H D c) (hwf : WellFounded fun y x => F.Calls x y) {a : AtomId}
    {s : St} (ha : F.Reached a) (hs : Licensed F H D c s) : ∃ n t, recomputeProjection E n s a = some t := by
  induction a using hwf.induction generalizing s with
  | _ a ih =>
    cases verdict s a with
    | erased he => exact ⟨1, _, recompute_erased he⟩
    | absent he hn => exact ⟨1, _, recompute_absent he hn⟩
    | quiet hp hsu hin => exact ⟨1, _, recompute_quiet hp hsu hin⟩
    | unresolved hp hsu hn => exact ⟨1, _, recompute_unresolved hp hsu hn⟩
    | invalidated hp hsu hin hv => exact ⟨1, _, recompute_invalidated hp hsu hin hv⟩
    | superseded hp hw hv =>
      rename_i w v
      have hJ := fork_traversal (T := F.start) hA fun _ h => h
      have hwin := wins_of_max hw
      have hch : ∀ r ∈ losersOf s a w, F.Chain a r.target w.target := by
        intro r hr
        obtain ⟨hn, -, hne⟩ := mem_losersOf.1 hr
        exact hs.losers hA ha (hs.live a hp.row) hwin hn hne
      have hC : ∀ r ∈ losersOf s a w, Chains F H r.target w.target (max r.createdAt (E.now s.clock)) := by
        intro r hr
        obtain ⟨hn, -, hne⟩ := mem_losersOf.1 hr
        exact hJ.losers ha hs hp hwin hn hne
      have hs' : Licensed F H D c (hideSuperseded E s a v w.target) :=
        hJ.effects.superseded (P := ∅) ha trivial hs hp hwin (min_times (fun _ => mem_supersedesOf) hv)
      obtain ⟨n, t, ht⟩ := chainLosers_terminates hJ hC
        (fun r hr u hu hR => ih r.target ⟨w.target, hch r hr⟩ hR hu) hs'
      exact ⟨n + 1, t, by rw [recompute_superseded hp hw hv, ht]⟩

/-- the chainings a recompute of `a` in `s` can make -/
def forksFrom (E : Env) (s : St) (a : AtomId) : Forks AtomId :=
  forksOf E (records s) (· = a) (fun b => findRow s b ≠ none) s.clock

/-- **Termination.** A recompute returns from every state whose supersede events, with the synthetic ones the recompute
may add, chain no atom back to itself. -/
theorem recompute_terminates (E : Env) (s : St) (a : AtomId) (hac : Acyclic (forksFrom E s a).Calls) :
    ∃ n t, recomputeProjection E n s a = some t :=
  terminates_of_wellFounded forksOf_adequate (Forks.wellFounded forksOf_sound hac (finite_targets (records s)))
    (Or.inl rfl) (licensed_self fun _ hb => hb)

/-- memories 0, 2 and 4; 0 is superseded by 2 and brought back, then superseded by 4: its log forks -/
def forkState : St := run countingEnv {}
  [.remember (rememberInput 1 "a"), .remember (rememberInput 2 "b"), .remember (rememberInput 3 "c"),
    .supersede 0 2 none .external, .unsupersede 0 none, .supersede 0 4 none .external]

theorem forkState_names {x : AtomId} {r : Resolvable} (h : Names (records forkState) x r) :
    x = 0 ∧ (r.target = 2 ∨ r.target = 4) := by
  have hall : ∀ e ∈ records forkState, e.eventType = .supersede →
      e.atomId = 0 ∧ (supersedeTarget e = some 2 ∨ supersedeTarget e = some 4) := by decide
  obtain ⟨⟨he, hx, hty⟩, htar⟩ := h
  have := hall _ he hty
  rw [hx, htar] at this
  simpa using this

theorem forkState_wins {x : AtomId} {w : Resolvable} (h : Wins (records forkState) x w) : w.target = 4 := by
  have hmax : ∃ f ∈ records forkState, f.eventType = .supersede ∧ f.atomId = 0 ∧ supersedeTarget f = some 4 ∧
      ∀ e ∈ records forkState, supersedeTarget e = some 2 → tieKey e < tieKey f := by decide
  obtain ⟨f, hf, hty, hat, htar, hlt⟩ := hmax
  obtain ⟨rfl, h2 | h4⟩ := forkState_names h.mem
  · have hle := h.max ⟨f, 4⟩ ⟨⟨hf, hat, hty⟩, htar⟩
    exact absurd hle (hlt _ h.mem.1.1 (h2 ▸ h.mem.2)).not_ge
  · exact h4

/-- resolving the fork chains 2 to 4, and nothing follows from that -/
theorem forkState_chain {x y w : AtomId} (h : (forksFrom countingEnv forkState 0).Chain x y w) :
    x = 0 ∧ y = 2 ∧ w = 4 := by
  induction h with
  | start hx _ hl =>
    obtain ⟨u, r, hu, hr, hne, rfl, rfl⟩ := hl
    have h4 := forkState_wins hu
    exact ⟨hx, ((forkState_names hr).2.resolve_right fun hc => hne (hc.trans h4.symm)), h4⟩
  | old _ _ hl ih =>
    obtain ⟨u, r, hu, hr, -⟩ := hl
    exact absurd (ih.2.1.symm.trans (forkState_names hr).1) (by decide)
  | new _ _ _ hy _ ih =>
    obtain ⟨r, hr, -⟩ := hy
    exact absurd (ih.2.1.symm.trans (forkState_names hr).1) (by decide)
  | late _ _ _ _ hw _ ih =>
    obtain ⟨u, hu, -⟩ := hw
    exact absurd (ih.2.1.symm.trans (forkState_names hu.mem).1) (by decide)
  | both _ _ _ _ _ hne ih ih' => exact absurd (ih.2.2.trans ih'.2.2.symm) hne

theorem recompute_terminates_fork : ∃ n t, recomputeProjection countingEnv n forkState 0 = some t :=
  recompute_terminates countingEnv forkState 0 <| acyclic_of_rank (fun x : AtomId => x) fun x y h => by
    obtain ⟨w, hw⟩ := h
    obtain ⟨rfl, rfl, -⟩ := forkState_chain hw
    decide

/-! ## Cycles that never return -/

/-- the winner of an atom and the first loser it chains -/
def firstLoser (s : St) (a : AtomId) : Option (Resolvable × Resolvable) :=
  if (loadEvents s a).any (·.eventType = .eraseRequest) ∨ findRow s a = none then none
  else (maxByTieBreak (resolvablesOf s a)).bind fun w => (losersOf s a w).head?.map fun r => (w, r)

/-- the state in which a recompute calls itself on the first loser -/
def firstCall (E : Env) (s : St) (a : AtomId) : Option (St × AtomId) :=
  (firstLoser s a).bind fun p =>
    (((supersedesOf s a).map (·.createdAt)).min?).map fun v =>
      let t := hideSuperseded E s a v p.1.target
      (if chained t p.2.target p.1.target then t
        else append E t .supersede p.2.target (some (mergePayload p.1.target)) none
          (max p.2.createdAt (E.now s.clock)), p.2.target)

theorem firstLoser_some {s : St} {a : AtomId} {w r : Resolvable} (h : firstLoser s a = some (w, r)) :
    Present s a ∧ maxByTieBreak (resolvablesOf s a) = some w ∧ ∃ l, losersOf s a w = r :: l := by
  unfold firstLoser at h
  split_ifs at h with hp
  rw [not_or] at hp
  simp only [Option.bind_eq_some_iff, Option.map_eq_some_iff, Prod.mk.injEq] at h
  obtain ⟨w', hw, r', hr, rfl, rfl⟩ := h
  exact ⟨⟨mt any_erase_iff.2 hp.1, hp.2⟩, hw, List.head?_eq_some_iff.1 hr⟩

/-- a call that does not return keeps its caller from returning -/
theorem recompute_firstCall {n : ℕ} {s u : St} {a b : AtomId} (h : firstCall E s a = some (u, b))
    (hu : recomputeProjection E n u b = none) : recomputeProjection E (n + 1) s a = none := by
  simp only [firstCall, Option.bind_eq_some_iff, Option.map_eq_some_iff, Prod.mk.injEq] at h
  obtain ⟨⟨w, r⟩, hf, v, hv, rfl, rfl⟩ := h
  obtain ⟨hp, hw, l, hl⟩ := firstLoser_some hf
  rw [recompute_superseded hp hw hv, hl]
  simp only [chainLosers, List.foldlM_cons, chainLoserToWinner, hu]
  rfl

/-- every atom of `S` chains first to an atom of `S`, by an event that is there already -/
def Spins (S : List AtomId) (s : St) : Prop :=
  ∀ a ∈ S, (firstLoser s a).any fun p => p.2.target ∈ S ∧ chained s p.2.target p.1.target

instance (S : List AtomId) (s : St) : Decidable (Spins S s) := inferInstanceAs (Decidable (∀ a ∈ S, _))

theorem Spins.hideSuperseded {S : List AtomId} {s : St} (h : Spins S s) (b : AtomId) (v : Time) (x : AtomId) :
    Spins S (hideSuperseded E s b v x) := by
  intro a ha
  have hrow : findRow (Sync.hideSuperseded E s b v x) a = none ↔ findRow s a = none := by
    simp [findRow_hideSuperseded]
  have hf : firstLoser (Sync.hideSuperseded E s b v x) a = firstLoser s a := by
    simp only [firstLoser, hrow]
    rfl
  rw [hf]
  exact h a ha

/-- **Divergence.** No stack is deep enough for a recompute that spins. -/
theorem recompute_diverges {S : List AtomId} {s : St} (h : Spins S s) (n : ℕ) {a : AtomId} (ha : a ∈ S) :
    recomputeProjection E n s a = none := by
  induction n generalizing s a with
  | zero => rfl
  | succ n ih =>
    obtain ⟨⟨w, r⟩, hf, hr⟩ := (Option.any_eq_true _ _).1 (h a ha)
    simp only [decide_eq_true_eq] at hr
    obtain ⟨hp, hw, -⟩ := firstLoser_some hf
    obtain ⟨v, hv⟩ := min_times_exists (supersedesOf_ne_nil ⟨_, (wins_of_max hw).mem.1⟩)
    have hch : chained (Sync.hideSuperseded E s a v w.target) r.target w.target = true := hr.2
    refine recompute_firstCall (u := Sync.hideSuperseded E s a v w.target) (b := r.target) ?_
      (ih (h.hideSuperseded a v w.target) hr.1)
    simp only [firstCall, hf, hv, Option.bind_some, Option.map_some, hch, if_true]

/-! ## The cycle three local supersedes leave behind -/

/-- memories 0, 2 and 4; 0 is superseded by 2 and brought back, then 2 is superseded by 0, then 0 by 4 -/
def cycleOps : List Op :=
  [.remember (rememberInput 1 "a"), .remember (rememberInput 2 "b"), .remember (rememberInput 3 "c"),
    .supersede 0 2 none .external, .unsupersede 0 none, .supersede 2 0 none .external, .supersede 0 4 none .external]

def cycleState : St := run countingEnv {} cycleOps

set_option maxRecDepth 4000 in
/-- **A supersede, its undo and the reverse supersede.** Recomputing memory 0 chains 2 to 4, recomputing 2 chains 0 to
4, and so on: no stack is deep enough. -/
theorem supersede_cycle_diverges : findRow cycleState 0 ≠ none ∧
    ∀ n, recomputeProjection countingEnv n cycleState 0 = none := by
  refine ⟨by decide, ?_⟩
  have hspin : ((firstCall countingEnv cycleState 0).bind fun p => firstCall countingEnv p.1 p.2).any
      fun q => Spins [0, 2] q.1 ∧ q.2 ∈ [0, 2] := by decide
  obtain ⟨⟨u, b⟩, hq, hu⟩ := (Option.any_eq_true _ _).1 hspin
  obtain ⟨⟨t, y⟩, hp, hq⟩ := Option.bind_eq_some_iff.1 hq
  simp only [decide_eq_true_eq] at hu
  intro n
  -- two calls deep the recompute spins; a shallower stack answers no more than a deeper one
  have hdeep : recomputeProjection countingEnv (n + 1 + 1) cycleState 0 = none :=
    recompute_firstCall hp (recompute_firstCall hq (recompute_diverges hu.1 n hu.2))
  cases hn : recomputeProjection countingEnv n cycleState 0 with
  | none => rfl
  | some v => exact absurd (recompute_mono hn (Nat.le_add_right n 2)) (by rw [hdeep]; simp)

end AstramemLocal.Sync
