/-
A fork of many winners. An atom X is superseded by several atoms, whose events arrive in any batches and order.
* `Headed W T wc L`: the log `L` makes `wc` the head. It has no supersede event, and every other winner with supersede
  events has one naming `wc` that beats the rest. A recompute of anything but X keeps a headed log as it is
  (`still_traversal`).
* `Loop`: what holds while X itself is recomputed and its losers are chained to the head (`loop_traversal`).
* `one_live_head`: in every run of pulls whose clock readings, whenever an event arrives that beats the supersede events
  of X held so far, are past the synthetic events on the winners, the family is acyclic and exactly one winner is
  current.
* `tied_fork_hides_all`: without that, a tie on the creation time lets an old synthetic event win. Two winners
  supersede each other and the whole family is hidden.
-/
import AstramemLocal.Sync.Convergence

namespace AstramemLocal.Sync

open AstramemLocal.Store AstramemLocal.Core

/-- the supersede events of `X` name `y` -/
def NamedBy (L : List EventRecord) (X y : AtomId) : Prop := ∃ r, Names L X r ∧ r.target = y

/-- `W` are winners of `X` that nothing else supersedes, invalidates or erases, and that only the fork of `X` chains -/
structure Winners (F : Forks AtomId) (U : List EventRecord) (X : AtomId) (W : AtomId → Prop) : Prop where
  clean : ∀ e ∈ U, W e.atomId → e.eventType ≠ .supersede ∧ e.eventType ≠ .invalidate ∧ e.eventType ≠ .eraseRequest
  self : ¬ W X
  unchained : ¬ F.Chained X
  closed : ∀ {x y w}, F.Chain x y w → W y → (x = X ∨ W x) ∧ W w

structure Headed (W T : AtomId → Prop) (wc : AtomId) (L : List EventRecord) : Prop where
  mem : W wc
  head : ∀ e, ¬ Supersedes L wc e
  known : ∀ y, W y → ∀ r, Names L y r → T y ∧ T r.target
  top : ∀ y, W y → ∀ r, Names L y r →
    r.target = wc ∨ ∃ u, Names L y u ∧ u.target = wc ∧ tieKey r.toEventRecord < tieKey u.toEventRecord
  joined : ∀ y, W y → ∀ r, Names L y r → r.target ≠ wc → Merged L r.target wc

variable {E : Env} {F : Forks AtomId} {U D L L' : List EventRecord} {c n : ℕ} {X wc wn : AtomId}
  {W T : AtomId → Prop} {s t : St} {P : Set AtomId}

/-! ## The log of a winner -/

theorem Licensed.winner_clean (h : Licensed F U D c s) (hW : Winners F U X W) (hD : ∀ e ∈ D, e ∈ U) {y : AtomId}
    (hy : W y) : ¬ Erased (records s) y ∧ ∀ e, ¬ Invalidates (records s) y e := by
  constructor
  · rintro ⟨e, he, rfl, hty⟩
    rcases h.gained e he with hd | hg
    · exact (hW.clean e (hD e hd) hy).2.2 hty
    · exact absurd (hty.symm.trans hg.type) (by decide)
  · rintro e ⟨he, rfl, hty⟩
    rcases h.gained e he with hd | hg
    · exact (hW.clean e (hD e hd) hy).2.1 hty
    · exact absurd (hty.symm.trans hg.type) (by decide)

/-- every supersede event of a winner is synthetic and names a winner -/
theorem Licensed.winner_merged (h : Licensed F U D c s) (hW : Winners F U X W) (hD : ∀ e ∈ D, e ∈ U) {y : AtomId}
    (hy : W y) {e : EventRecord} (he : Supersedes (records s) y e) :
    ∃ w, supersedeTarget e = some w ∧ W w ∧ Merged (records s) y w := by
  obtain ⟨he, rfl, hty⟩ := he
  rcases h.gained e he with hd | hg
  · exact absurd hty (hW.clean e (hD e hd) hy).1
  · obtain ⟨w, hw, ⟨z, hz⟩, -⟩ := hg.target
    exact ⟨w, hw, (hW.closed hz hy).2, e, ⟨he, rfl, hty⟩, hw, hg.reason⟩

theorem names_of_target {y w : AtomId} {e : EventRecord} (h : Supersedes L y e) (hw : supersedeTarget e = some w) :
    Names L y { e with target := w } := ⟨h, hw⟩

theorem Headed.wins (h : Headed W T wc L) {y : AtomId} (hy : W y) {w : Resolvable} (hw : Wins L y w) :
    w.target = wc := by
  rcases h.top y hy w hw.mem with hc | ⟨u, hu, -, hlt⟩
  · exact hc
  · exact absurd (hw.max u hu) hlt.not_ge

/-- a headed log depends on the supersede events of the winners -/
theorem Headed.congr (h : Headed W T wc L) (hL : ∀ y, W y → SameSupersedes L L' y)
    (htar : ∀ y, W y → ∀ r, Names L y r → W r.target) : Headed W T wc L' where
  mem := h.mem
  head e he := h.head e ((hL wc h.mem e).2 he)
  known y hy r hr := h.known y hy r ((hL y hy).names.2 hr)
  top y hy r hr := by
    refine (h.top y hy r ((hL y hy).names.2 hr)).imp_right ?_
    rintro ⟨u, hu, rest⟩
    exact ⟨u, (hL y hy).names.1 hu, rest⟩
  joined y hy r hr hne := by
    have hr' := (hL y hy).names.2 hr
    exact (hL _ (htar y hy r hr')).merged.1 (h.joined y hy r hr' hne)

theorem Headed.weaken {T' : AtomId → Prop} (h : Headed W T wc L) (hT : ∀ y, T y → T' y) : Headed W T' wc L :=
  { h with known := fun y hy r hr => (h.known y hy r hr).imp (hT _) (hT _) }

/-! ## Recomputing anything but X -/

/-- the supersede events of the winners are as in `L` -/
def Still (W : AtomId → Prop) (L : List EventRecord) (s : St) : Prop := ∀ y, W y → SameSupersedes (records s) L y

/-- an event of an atom that is not a winner -/
theorem sameLog_chainEvent {y z w : AtomId} {at_ : Time} (h : y ≠ z) :
    SameLog (records (chainEvent E s z w at_)) (records s) y := by
  rintro e rfl
  rw [chainEvent_records, List.mem_append, List.mem_singleton, or_iff_left]
  rintro rfl
  exact h rfl

theorem still_effects {R : AtomId → St → Prop} {C : AtomId → AtomId → Time → Prop} {J : St → Prop}
    (hC : ∀ y w t, C y w t → W y → Merged L y w) : Effects E R C J fun _ s => Still W L s where
  weaken _ h := h
  erased _ _ h _ := fun y hy => by rw [hardDeleteAtom_records]; exact h y hy
  absent _ _ h _ _ := h
  quiet _ _ h _ _ _ := h
  unresolved _ _ h _ _ _ := h
  invalidated _ _ h _ _ _ := h
  superseded _ _ h _ _ _ := h
  chain {_ s y w t} _ h hc hm := by
    intro z hz
    by_cases hzy : z = y
    · subst hzy
      exact absurd ((h z hz).merged.2 (hC z w t hc hz)) hm
    · exact (sameLog_chainEvent hzy).sameSupersedes.trans (h z hz)

/-- **A headed log is kept** by every recompute that does not start at X: whatever a winner chains is chained already -/
theorem still_traversal {S : AtomId → Prop} (hA : Adequate E F U D c) (hW : Winners F U X W)
    (hS : ∀ a, S a → F.start a) (hX : ¬ S X) (hH : Headed W T wc L) :
    Traversal E (fun a _ => S a ∨ F.Chained a) (fun y w t => Chains F U y w t ∧ (W y → Merged L y w))
      (fun s => Licensed F U D c s ∧ Still W L s) where
  effects := by
    have hF := (fork_traversal hA hS).effects.restrict (fun _ _ h => h)
      (fun y w t (h : Chains F U y w t ∧ (W y → Merged L y w)) => h.1) (fun _ h => h)
    have hst := still_effects (E := E) (R := fun a _ => S a ∨ F.Chained a) (J := fun _ => True)
      (fun y w t (h : Chains F U y w t ∧ (W y → Merged L y w)) => h.2)
    exact hF.and hst
  losers := by
    rintro s a w r ha ⟨hl, hst⟩ hp hw hr hne
    refine ⟨(fork_traversal hA hS).losers ha hl hp hw hr hne, fun hy => ?_⟩
    have hch := hl.losers hA (ha.imp_left (hS a)) (hl.live a hp.row) hw hr hne
    rcases (hW.closed hch hy).1 with rfl | haW
    · exact absurd ha (not_or.2 ⟨hX, hW.unchained⟩)
    · have hr' := (hst a haW).names.1 hr
      have htar := hH.wins haW ((hst a haW).wins.1 hw)
      rw [htar] at hne ⊢
      exact hH.joined a haW r hr' hne
  visit _ hc _ := Or.inr hc.1.chained

/-! ## Recomputing X -/

/-- the event of a chaining, with its target -/
def chainRecord (E : Env) (s : St) (y w : AtomId) (at_ : Time) : Resolvable :=
  { eventId := E.uuid s.drawn, eventType := .supersede, atomId := y, payloadJson := some (mergePayload w),
    contentHash := none, createdAt := at_, target := w }

theorem names_chainEvent {y w z : AtomId} {at_ : Time} {r : Resolvable} :
    Names (records (chainEvent E s y w at_)) z r ↔ Names (records s) z r ∨ z = y ∧ r = chainRecord E s y w at_ := by
  rw [chainEvent_records]
  constructor
  · rintro ⟨⟨he, hz, hty⟩, ht⟩
    rcases List.mem_append.1 he with he | he
    · exact Or.inl ⟨⟨he, hz, hty⟩, ht⟩
    · obtain ⟨re, rt⟩ := r
      rw [List.mem_singleton] at he
      subst he
      have hrt : w = rt := Option.some.inj ht
      subst hrt
      exact Or.inr ⟨hz.symm, rfl⟩
  · rintro (⟨⟨he, hz, hty⟩, ht⟩ | ⟨rfl, rfl⟩)
    · exact ⟨⟨List.mem_append_left _ he, hz, hty⟩, ht⟩
    · exact ⟨⟨List.mem_append_right _ List.mem_cons_self, rfl, rfl⟩, rfl⟩

/-- the losers of X are being chained to `wn`, with clock readings from `c` on -/
structure Loop (E : Env) (W T : AtomId → Prop) (wn : AtomId) (c : ℕ) (s : St) : Prop where
  head : ∀ e, ¬ Supersedes (records s) wn e
  known : ∀ y, W y → ∀ r, Names (records s) y r → T y ∧ T r.target
  late : ∀ y, W y → ∀ r, Names (records s) y r → r.target = wn ∨
    (∃ u, Names (records s) y u ∧ u.target = wn ∧ tieKey r.toEventRecord < tieKey u.toEventRecord) ∨
    ¬ Merged (records s) y wn ∧ ∀ i, c ≤ i → r.createdAt < E.now i

/-- what is known when a loser is chained meanwhile -/
structure LoopChains (E : Env) (F : Forks AtomId) (U : List EventRecord) (W T : AtomId → Prop) (wn : AtomId) (c : ℕ)
    (y w : AtomId) (at_ : Time) : Prop where
  chains : Chains F U y w at_
  winner : W y → w = wn ∧ y ≠ wn ∧ T y ∧ ∃ i, c ≤ i ∧ E.now i ≤ at_

/-- what wins at a winner that is chained to `wn` names `wn` -/
theorem Loop.wins (h : Loop E W T wn c s) {y : AtomId} (hy : W y) (hm : Merged (records s) y wn) {w : Resolvable}
    (hw : Wins (records s) y w) : w.target = wn := by
  rcases h.late y hy w hw.mem with hc | ⟨u, hu, -, hlt⟩ | ⟨hn, -⟩
  · exact hc
  · exact absurd (hw.max u hu) hlt.not_ge
  · exact absurd hm hn

theorem Loop.congr (h : Loop E W T wn c s) (hwn : W wn)
    (hL : ∀ y, W y → SameSupersedes (records s) (records t) y) : Loop E W T wn c t where
  head e he := h.head e ((hL wn hwn e).2 he)
  known y hy r hr := h.known y hy r ((hL y hy).names.2 hr)
  late y hy r hr := by
    rcases h.late y hy r ((hL y hy).names.2 hr) with hc | ⟨u, hu, rest⟩ | ⟨hm, hi⟩
    · exact Or.inl hc
    · exact Or.inr (Or.inl ⟨u, (hL y hy).names.1 hu, rest⟩)
    · exact Or.inr (Or.inr ⟨fun hc => hm ((hL y hy).merged.2 hc), hi⟩)

/-- a winner is chained to `wn`: the new event beats what was late -/
theorem Loop.chain (h : Loop E W T wn c s) (hT : T wn) {y : AtomId} {at_ : Time} (hne : y ≠ wn) (hTy : T y) {i : ℕ}
    (hi : c ≤ i) (hat : E.now i ≤ at_) : Loop E W T wn c (chainEvent E s y wn at_) where
  head e := by
    rintro ⟨he, ha, hty⟩
    rw [chainEvent_records] at he
    rcases List.mem_append.1 he with he | he
    · exact h.head e ⟨he, ha, hty⟩
    · rw [List.mem_singleton.1 he] at ha
      exact hne ha
  known z hz r hr := by
    rcases names_chainEvent.1 hr with hr | ⟨rfl, rfl⟩
    · exact h.known z hz r hr
    · exact ⟨hTy, hT⟩
  late z hz r hr := by
    rcases names_chainEvent.1 hr with hr | ⟨rfl, rfl⟩
    · rcases h.late z hz r hr with hc | ⟨u, hu, rest⟩ | ⟨hm, hlt⟩
      · exact Or.inl hc
      · exact Or.inr (Or.inl ⟨u, names_chainEvent.2 (Or.inl hu), rest⟩)
      · by_cases hzy : z = y
        · refine Or.inr (Or.inl ⟨_, names_chainEvent.2 (Or.inr ⟨hzy, rfl⟩), rfl, ?_⟩)
          rw [tieKey_lt]
          exact Or.inl ((hlt i hi).trans_le hat)
        · exact Or.inr (Or.inr ⟨fun hc => hm ((sameLog_chainEvent hzy).merged.1 hc), hlt⟩)
    · exact Or.inl rfl

theorem loop_effects {R : AtomId → St → Prop} {J : St → Prop} (hwn : W wn) (hT : T wn) :
    Effects E R (LoopChains E F U W T wn c) J fun _ s => Loop E W T wn c s where
  weaken _ h := h
  erased _ _ h _ := h.congr hwn fun y _ e => by rw [hardDeleteAtom_records]
  absent _ _ h _ _ := h
  quiet _ _ h _ _ _ := h
  unresolved _ _ h _ _ _ := ⟨h.head, h.known, h.late⟩
  invalidated _ _ h _ _ _ := ⟨h.head, h.known, h.late⟩
  superseded _ _ h _ _ _ := ⟨h.head, h.known, h.late⟩
  chain {_ s y w t} _ h hc hm := by
    by_cases hy : W y
    · obtain ⟨rfl, hne, hTy, i, hi, hit⟩ := hc.winner hy
      exact h.chain hT hne hTy hi hit
    · refine h.congr hwn fun z hz => (sameLog_chainEvent ?_).sameSupersedes.symm
      rintro rfl
      exact hy hz

/-- **While X is recomputed** every winner that is visited is chained to `wn`, and so is whatever it chains. -/
theorem loop_traversal (hA : Adequate E F U D c) (hW : Winners F U X W) (hwn : W wn) (hT : T wn) :
    Traversal E (fun a s => F.Chained a ∧ (W a → Merged (records s) a wn)) (LoopChains E F U W T wn c)
      (fun s => Licensed F U D c s ∧ Loop E W T wn c s) where
  effects := by
    have hF := (fork_traversal (T := fun _ => False) hA fun _ h => h.elim).effects.restrict
      (fun a s (h : F.Chained a ∧ (W a → Merged (records s) a wn)) => Or.inr h.1)
      (fun y w t (h : LoopChains E F U W T wn c y w t) => h.chains) (fun _ h => h)
    exact hF.and (loop_effects hwn hT)
  losers := by
    rintro s a w r ⟨ha, ham⟩ ⟨hl, hloop⟩ hp hw hr hne
    refine ⟨(fork_traversal (T := fun _ => False) hA fun _ h => h.elim).losers (Or.inr ha) hl hp hw hr hne,
      fun hy => ?_⟩
    have hch := hl.losers hA (Or.inr ha) (hl.live a hp.row) hw hr hne
    rcases (hW.closed hch hy).1 with rfl | haW
    · exact absurd ha hW.unchained
    · have htar := hloop.wins haW (ham haW) hw
      exact ⟨htar, htar ▸ hne, (hloop.known a haW r hr).2, s.clock, hl.clock, le_max_right _ _⟩
  visit := by
    rintro s y w t - hc hm
    exact ⟨hc.chains.chained, fun hy => (hc.winner hy).1 ▸ hm⟩

/-! ## The rows of the winners -/

/-- the row of the winner `y`, when `wt` is the head; `hd` says whether there is a row -/
structure WinnerRow (wt y : AtomId) (hd : Prop) (P : Set AtomId) (s : St) : Prop where
  kept : hd → findRow s y ≠ none
  current : (∀ e, ¬ Supersedes (records s) y e) → ∀ m, findRow s y = some m → rowProjection m = (none, none)
  hidden : y ∉ P → Merged (records s) y wt → ∀ m, findRow s y = some m → m.supersededBy = some wt ∧ m.validTo ≠ none

theorem merged_names {y w : AtomId} (h : Merged L y w) : ∃ r, Names L y r ∧ r.target = w := by
  obtain ⟨e, he, ht, -⟩ := h
  exact ⟨_, names_of_target he ht, rfl⟩

/-- an effect on another atom -/
theorem WinnerRow.other {wt y b : AtomId} {hd : Prop} (h : WinnerRow wt y hd P s) (hyb : y ≠ b)
    (hrow : findRow t y = findRow s y) (hlog : records t = records s) : WinnerRow wt y hd (P \ {b}) t where
  kept hh := by rw [hrow]; exact h.kept hh
  current := by rw [hrow, hlog]; exact h.current
  hidden hn := by rw [hrow, hlog]; exact h.hidden fun hp => hn ⟨hp, hyb⟩

theorem winnerRow_effects {R : AtomId → St → Prop} {C : AtomId → AtomId → Time → Prop} {J : St → Prop}
    {wt y : AtomId} {hd : Prop}
    (hclean : ∀ s, J s → ¬ Erased (records s) y ∧ ∀ e, ¬ Invalidates (records s) y e)
    (hwin : ∀ s, J s → R y s → Merged (records s) y wt → ∀ w, Wins (records s) y w → w.target = wt) :
    Effects E R C J (WinnerRow wt y hd) where
  weaken hPQ h := ⟨h.kept, h.current, fun hn => h.hidden fun hp => hn (hPQ hp)⟩
  erased {P s b} _ hj h he := by
    have hyb : y ≠ b := fun hc => (hclean s hj).1 (hc ▸ he)
    exact h.other hyb (by rw [findRow_hardDeleteAtom, if_neg hyb]) (hardDeleteAtom_records s b)
  absent {P s b} _ hj h _ hn := by
    by_cases hyb : y = b
    · subst hyb
      exact ⟨h.kept, h.current, fun _ _ m hm => by rw [hn] at hm; cases hm⟩
    · exact h.other hyb rfl rfl
  quiet {P s b} _ hj h _ hs _ := by
    by_cases hyb : y = b
    · subst hyb
      exact ⟨h.kept, h.current, fun _ hm => by obtain ⟨e, he, -⟩ := hm; exact absurd he (hs e)⟩
    · exact h.other hyb rfl rfl
  unresolved {P s b} _ hj h _ _ hn := by
    by_cases hyb : y = b
    · subst hyb
      exact ⟨h.kept, h.current, fun _ hm => by obtain ⟨r, hr, -⟩ := merged_names hm; exact absurd hr (hn r)⟩
    · exact h.other hyb rfl rfl
  invalidated {P s b v} _ hj h _ _ hv := by
    have hyb : y ≠ b := by
      rintro rfl
      obtain ⟨⟨e, he, -⟩, -⟩ := hv
      exact (hclean s hj).2 e he
    exact h.other hyb (findRow_hideInvalidated_ne E s v hyb) rfl
  superseded {P s b w v} hb hj h hp hw _ := by
    by_cases hyb : y = b
    · subst hyb
      have hrow := findRow_hideSuperseded_self E s y v w.target
      refine ⟨fun hh => ?_, fun hn => absurd hw.mem.1 (hn _), fun _ hm m hrm => ?_⟩
      · rw [hrow]
        simpa using h.kept hh
      · rw [hrow, Option.map_eq_some_iff] at hrm
        obtain ⟨m0, -, rfl⟩ := hrm
        exact ⟨congrArg some (hwin s hj hb hm w hw), by simp⟩
    · exact h.other hyb (findRow_hideSuperseded_ne E s v w.target hyb) rfl
  chain {P s z w u} _ h _ _ := by
    refine ⟨h.kept, fun hn => h.current fun e he => hn e ?_, fun hn hm => h.hidden (fun hp => hn (Or.inr hp)) ?_⟩
    · rw [chainEvent_records]
      exact ⟨List.mem_append_left _ he.1, he.2⟩
    · exact (sameLog_chainEvent fun hc => hn (Or.inl hc)).merged.1 hm

/-- an atom that is chained to `w` stays chained to `w` -/
theorem merged_effects {R : AtomId → St → Prop} {C : AtomId → AtomId → Time → Prop} {J : St → Prop} (y w : AtomId) :
    Effects E R C J fun _ s => Merged (records s) y w where
  weaken _ h := h
  erased _ _ h _ := by rw [hardDeleteAtom_records]; exact h
  absent _ _ h _ _ := h
  quiet _ _ h _ _ _ := h
  unresolved _ _ h _ _ _ := h
  invalidated _ _ h _ _ _ := h
  superseded _ _ h _ _ _ := h
  chain {_ s z v u} _ h _ _ := by
    obtain ⟨e, ⟨he, rest⟩, hm⟩ := h
    rw [chainEvent_records]
    exact ⟨e, ⟨List.mem_append_left _ he, rest⟩, hm⟩

/-! ## The turn of X -/

/-- the rows of all winners -/
def Rows (W Hd : AtomId → Prop) (wt : AtomId) (P : Set AtomId) (s : St) : Prop :=
  ∀ y, W y → WinnerRow wt y (Hd y) P s

section
variable {Hd : AtomId → Prop}

theorem loop_rows (hW : Winners F U X W) (hD : ∀ e ∈ D, e ∈ U) :
    Effects E (fun a s => F.Chained a ∧ (W a → Merged (records s) a wn)) (LoopChains E F U W T wn c)
      (fun s => Licensed F U D c s ∧ Loop E W T wn c s) (Rows W Hd wn) :=
  Effects.all fun _ hy => winnerRow_effects (fun _ hj => hj.1.winner_clean hW hD hy)
    fun _ hj _ hm _ hw => hj.2.wins hy hm hw

/-- one loser of X is chained to `wn` and recomputed; what was chained to `wn` before stays so -/
theorem loop_round (hA : Adequate E F U D c) (hW : Winners F U X W) (hwn : W wn) (hT : T wn) {y : AtomId}
    {at_ : Time} (hc : LoopChains E F U W T wn c y wn at_) (hl : Licensed F U D c s) (hloop : Loop E W T wn c s)
    (hrows : Rows W Hd wn P s)
    (hr : chainLoserToWinner E (recomputeProjection E n) s y wn at_ = some t) :
    Licensed F U D c t ∧ Loop E W T wn c t ∧ Rows W Hd wn P t ∧ Merged (records t) y wn ∧
      ∀ z, Merged (records s) z wn → Merged (records t) z wn := by
  have hJ := loop_traversal hA hW hwn hT
  have hrowsI : Effects E (fun a s => F.Chained a ∧ (W a → Merged (records s) a wn)) (LoopChains E F U W T wn c)
      (fun s => Licensed F U D c s ∧ Loop E W T wn c s) (Rows W Hd wn) := loop_rows hW hA.sub
  have hI := hrowsI.and (Effects.all (G := fun z => z = y ∨ Merged (records s) z wn) fun z _ => merged_effects z wn)
  obtain ⟨u, hu, hm, hcase⟩ := chainLoserToWinner_cases hr
  have hu0 : (Licensed F U D c u ∧ Loop E W T wn c u) ∧ Rows W Hd wn (insert y P) u ∧
      ∀ z, Merged (records s) z wn → Merged (records u) z wn := by
    rcases hcase with rfl | ⟨hnm, rfl⟩
    · exact ⟨⟨hl, hloop⟩, hI.weaken (Set.subset_insert y P) ⟨hrows, fun z hz => hz.elim (fun h => h ▸ hm) id⟩ |>.1,
        fun z hz => hz⟩
    · refine ⟨hJ.effects.chain (P := P) trivial ⟨hl, hloop⟩ hc hnm,
        (loop_rows hW hA.sub).chain ⟨hl, hloop⟩ hrows hc hnm, fun z hz => ?_⟩
      exact (merged_effects (J := fun s => Licensed F U D c s ∧ Loop E W T wn c s)
        (R := fun a s => F.Chained a ∧ (W a → Merged (records s) a wn)) z wn).chain (P := P) ⟨hl, hloop⟩ hz hc hnm
  obtain ⟨hju, hru, hmu⟩ := hu0
  obtain ⟨⟨hlt, hlo⟩, hrt, hmt⟩ := hJ.sound hI ⟨hc.chains.chained, fun _ => hm⟩ hju
    ⟨hru, fun z hz => hz.elim (fun h => h ▸ hm) (hmu z)⟩ hu
  refine ⟨hlt, hlo, fun z hz => ?_, hmt y (Or.inl rfl), fun z hz => hmt z (Or.inr hz)⟩
  have hz' := hrt z hz
  exact ⟨hz'.kept, hz'.current, fun hn => hz'.hidden fun hp => hn (hp.1.resolve_left hp.2)⟩

/-- **The turn of X.** Afterwards the winner of X is the head, and every other named winner is chained to it. -/
theorem recompute_fork (hA : Adequate E F U D c) (hW : Winners F U X W) {w : Resolvable}
    (hmax : maxByTieBreak (resolvablesOf s X) = some w) (hp : Present s X) (hwn : W w.target)
    (hTX : ∀ y, T y ↔ NamedBy (records s) X y)
    (hids : ∀ r, Names (records s) X r → r.eventId = w.eventId → r.target = w.target)
    (hl : Licensed F U D c s) (hloop : Loop E W T w.target c s) (hrows : Rows W Hd w.target P s)
    (hX : F.start X) (hr : recomputeProjection E (n + 1) s X = some t) :
    Licensed F U D c t ∧ Headed W T w.target (records t) ∧ Rows W Hd w.target P t ∧
      ∀ y, T y → y ≠ w.target → Merged (records t) y w.target := by
  have hwin := wins_of_max hmax
  obtain ⟨v, hv⟩ := min_times_exists (supersedesOf_ne_nil ⟨_, hwin.mem.1⟩)
  rw [recompute_superseded hp hmax hv] at hr
  -- the invariant of the loop: what is not in the rest of the losers is chained
  have hI := foldlM_some
    (fun rest b => (∀ r ∈ rest, r ∈ losersOf s X w) ∧ Licensed F U D c b ∧ Loop E W T w.target c b ∧
      Rows W Hd w.target P b ∧ ∀ r ∈ losersOf s X w, r ∈ rest ∨ Merged (records b) r.target w.target) ?_
    (b := hideSuperseded E s X v w.target) ?_ hr
  · obtain ⟨-, hlt, hlo, hrt, hall⟩ := hI
    have hdone : ∀ y, T y → y ≠ w.target → Merged (records t) y w.target := by
      intro y hy hne
      obtain ⟨r, hr, rfl⟩ := (hTX y).1 hy
      refine (hall r (mem_losersOf.2 ⟨hr, fun hc => hne (hids r hr hc), hne⟩)).resolve_left List.not_mem_nil
    refine ⟨hlt, ⟨hwn, hlo.head, hlo.known, fun y hy r hr => ?_, fun y hy r hr hne => ?_⟩, hrt, hdone⟩
    · rcases hlo.late y hy r hr with hc | hc | ⟨hnm, -⟩
      · exact Or.inl hc
      · exact Or.inr hc
      · refine absurd (hdone y (hlo.known y hy r hr).1 ?_) hnm
        rintro rfl
        exact hlo.head _ hr.1
    · exact hdone _ (hlo.known y hy r hr).2 hne
  · rintro r rest b b' ⟨hmem, hlb, hlo, hrb, hall⟩ hstep
    obtain ⟨hn, -, hne⟩ := mem_losersOf.1 (hmem r List.mem_cons_self)
    have hch := (fork_traversal (T := (· = X)) hA fun a ha => ha ▸ hX).losers (Or.inl rfl) hl hp hwin hn hne
    have hLC : LoopChains E F U W T w.target c r.target w.target (max r.createdAt (E.now s.clock)) := by
      exact ⟨hch, fun _ => ⟨rfl, hne, (hTX _).2 ⟨r, hn, rfl⟩, s.clock, hl.clock, le_max_right _ _⟩⟩
    obtain ⟨h1, h2, h3, h4, h5⟩ := loop_round hA hW hwn ((hTX _).2 ⟨w, hwin.mem, rfl⟩) hLC hlb hlo hrb hstep
    refine ⟨fun x hx => hmem x (List.mem_cons_of_mem _ hx), h1, h2, h3, fun x hx => ?_⟩
    rcases hall x hx with hxr | hxm
    · rcases List.mem_cons.1 hxr with rfl | hxr
      · exact Or.inr h4
      · exact Or.inl hxr
    · exact Or.inr (h5 _ hxm)
  · refine ⟨fun r hr => hr, hl.frame rfl (fun b hb => ?_) (Nat.le_succ _), ⟨hloop.head, hloop.known, hloop.late⟩,
      fun y hy => ?_, fun r hr => Or.inl hr⟩
    · rw [findRow_hideSuperseded] at hb
      simpa using hb
    · have hyX : y ≠ X := by
        rintro rfl
        exact hW.self hy
      have h := (hrows y hy).other (b := X) hyX (findRow_hideSuperseded_ne E s v w.target hyX) rfl
      exact ⟨h.kept, h.current, fun hn => h.hidden fun hp => hn hp.1⟩

end

/-! ## The loop of a pull -/

/-- no winner has a supersede event -/
def Bare (W : AtomId → Prop) (L : List EventRecord) : Prop := ∀ y, W y → ∀ e, ¬ Supersedes L y e

/-- the supersede events `D` of X are resolved: `wc` won, and every other named atom is chained to it -/
structure Resolved (D : List EventRecord) (X wc : AtomId) (L : List EventRecord) : Prop where
  wins : ∃ w, Wins D X w ∧ w.target = wc
  merged : ∀ y, NamedBy D X y → y ≠ wc → Merged L y wc

/-- X can be recomputed: its winner is the head, or a new one that beats all supersede events of the winners -/
def Ready (E : Env) (D : List EventRecord) (X : AtomId) (W : AtomId → Prop) (wc : AtomId) (c : ℕ)
    (L : List EventRecord) : Prop :=
  ∀ w, Wins D X w → w.target = wc ∨ (∀ e, ¬ Supersedes L w.target e) ∧
    ∀ y, W y → ∀ r, Names L y r → r.target ≠ w.target ∧ ∀ i, c ≤ i → r.createdAt < E.now i

/-- the state in the loop over the touched atoms, with `rest` to come. `Hd` says which atoms have a row, `B` is the log
before the run. -/
structure Turning (E : Env) (F : Forks AtomId) (U D B : List EventRecord) (c : ℕ) (X : AtomId) (W Hd : AtomId → Prop)
    (wc : AtomId) (rest : List AtomId) (s : St) : Prop where
  licensed : Licensed F U D c s
  headed : Headed W (NamedBy D X) wc (records s)
  rows : Rows W Hd wc {a | a ∈ rest} s
  ready : Ready E D X W wc c (records s)
  bare : Bare W (records s) ∨ Hd X ∧ ∃ r, Names D X r
  status : X ∈ rest ∨ Resolved D X wc (records s) ∨
    Bare W (records s) ∧ (Hd X → ∀ r, Names D X r → r.toEventRecord ∈ B)
  exist : findRow s X ≠ none ↔ Hd X

section
variable {B : List EventRecord} {Hd : AtomId → Prop} {rest : List AtomId} {b : AtomId}

theorem Bare.congr (h : Bare W L) (hL : ∀ y, W y → SameSupersedes L L' y) : Bare W L' :=
  fun y hy e he => h y hy e ((hL y hy e).2 he)

theorem Resolved.congr (h : Resolved D X wc L) (hDW : ∀ y, NamedBy D X y → W y)
    (hL : ∀ y, W y → SameSupersedes L L' y) : Resolved D X wc L' :=
  ⟨h.wins, fun y hy hne => (hL y (hDW y hy)).merged.1 (h.merged y hy hne)⟩

theorem Ready.congr (h : Ready E D X W wc c L) (hDW : ∀ y, NamedBy D X y → W y)
    (hL : ∀ y, W y → SameSupersedes L L' y) : Ready E D X W wc c L' := by
  intro w hw
  refine (h w hw).imp_right ?_
  rintro ⟨hn, hlate⟩
  refine ⟨fun e he => hn e ((hL _ (hDW _ ⟨w, hw.mem, rfl⟩) e).2 he), fun y hy r hr => hlate y hy r ?_⟩
  exact (hL y hy).names.2 hr

/-- before the turn of X, the log is as the loop over its losers needs it -/
theorem Ready.loop (h : Ready E D X W wc c (records s)) (hH : Headed W T wc (records s)) {w : Resolvable}
    (hw : Wins D X w) : Loop E W T w.target c s := by
  rcases h w hw with rfl | ⟨hn, hlate⟩
  · exact ⟨hH.head, hH.known, fun y hy r hr => (hH.top y hy r hr).imp_right Or.inl⟩
  · refine ⟨hn, hH.known, fun y hy r hr => Or.inr (Or.inr ⟨fun hm => ?_, (hlate y hy r hr).2⟩)⟩
    obtain ⟨q, hq, hqt⟩ := merged_names hm
    exact (hlate y hy q hq).1 hqt

theorem Ready.rows (h : Ready E D X W wc c (records s)) {w : Resolvable} (hw : Wins D X w)
    (hrows : Rows W Hd wc P s) : Rows W Hd w.target P s := by
  rcases h w hw with rfl | ⟨-, hlate⟩
  · exact hrows
  · intro y hy
    refine ⟨(hrows y hy).kept, (hrows y hy).current, fun _ hm => ?_⟩
    obtain ⟨q, hq, hqt⟩ := merged_names hm
    exact absurd hqt (hlate y hy q hq).1

theorem Rows.pass (h : Rows W Hd wc {a | a ∈ X :: rest} s) (hX : ¬ W X) (hrow : ∀ y, y ≠ X → findRow t y = findRow s y)
    (hlog : records t = records s) : Rows W Hd wc {a | a ∈ rest} t := by
  intro y hy
  have hyX : y ≠ X := by
    rintro rfl
    exact hX hy
  have hy' := (h y hy).other hyX (hrow y hyX) hlog
  refine ⟨hy'.kept, hy'.current, fun hn => hy'.hidden ?_⟩
  rintro ⟨hp, -⟩
  exact hn ((List.mem_cons.1 hp).resolve_left hyX)

/-- X has nothing to resolve -/
theorem Turning.pass (h : Turning E F U D B c X W Hd wc (X :: rest) s) (hX : ¬ W X)
    (hno : Hd X → ∀ r, ¬ Names D X r) (hlog : records t = records s) (hclock : s.clock ≤ t.clock)
    (hrow : ∀ y, y ≠ X → findRow t y = findRow s y) (hXrow : findRow t X ≠ none ↔ findRow s X ≠ none) :
    Turning E F U D B c X W Hd wc rest t where
  licensed := by
    refine h.licensed.frame hlog (fun a ha => ?_) hclock
    by_cases haX : a = X
    · subst haX
      exact hXrow.1 ha
    · rwa [hrow a haX] at ha
  headed := by rw [hlog]; exact h.headed
  rows := h.rows.pass hX hrow hlog
  ready := by rw [hlog]; exact h.ready
  bare := by rw [hlog]; exact h.bare
  status := by
    rw [hlog]
    refine Or.inr (Or.inr ⟨h.bare.resolve_right ?_, fun hh r hr => absurd hr (hno hh r)⟩)
    rintro ⟨hh, r, hr⟩
    exact hno hh r hr
  exist := hXrow.trans h.exist

/-- **Another atom is recomputed.** -/
theorem Turning.other (hA : Adequate E F U D c) (hW : Winners F U X W) (hDW : ∀ y, NamedBy D X y → W y)
    (hkept : ¬ Erased U X) (h : Turning E F U D B c X W Hd wc (b :: rest) s) (hb : F.start b) (hbX : b ≠ X)
    (hr : recomputeProjection E n s b = some t) : Turning E F U D B c X W Hd wc rest t := by
  have hJ := still_traversal (S := (· = b)) hA hW (fun a ha => ha ▸ hb) (fun hc => hbX hc.symm) h.headed
  have hI : Effects E _ _ _ (Rows W Hd wc) := Effects.all fun y hy =>
    winnerRow_effects (E := E) (R := fun a _ => a = b ∨ F.Chained a)
      (C := fun y w t => Chains F U y w t ∧ (W y → Merged (records s) y w))
      (J := fun u => Licensed F U D c u ∧ Still W (records s) u)
      (fun _ hj => hj.1.winner_clean hW hA.sub hy)
      (fun _ hj _ _ w hw => h.headed.wins hy ((hj.2 y hy).wins.1 hw))
  have hX : Effects E _ _ _ fun _ u => findRow u X ≠ none ↔ Hd X :=
    exist_effects (E := E) (R := fun a _ => a = b ∨ F.Chained a)
      (C := fun y w t => Chains F U y w t ∧ (W y → Merged (records s) y w))
      (J := fun u => Licensed F U D c u ∧ Still W (records s) u)
      (fun _ hj he => hkept <| by
        obtain ⟨e, he, rest⟩ := (hj.1.sameLog hW.unchained).erased.1 he
        exact ⟨e, hA.sub e he, rest⟩)
  obtain ⟨⟨hlic, hstill⟩, hrows, hex⟩ := hJ.sound (hI.and hX) (Or.inl rfl) ⟨h.licensed, fun _ _ _ => Iff.rfl⟩
    ⟨h.rows, h.exist⟩ hr
  have hL : ∀ y, W y → SameSupersedes (records s) (records t) y := fun y hy => (hstill y hy).symm
  refine ⟨hlic, h.headed.congr hL fun y hy r hr => hDW _ (h.headed.known y hy r hr).2, fun y hy => ?_,
    h.ready.congr hDW hL, h.bare.imp_left fun hbare => hbare.congr hL, ?_, hex⟩
  · have hy' := hrows y hy
    refine ⟨hy'.kept, hy'.current, fun hn => hy'.hidden ?_⟩
    rintro ⟨hp, hne⟩
    exact hn ((List.mem_cons.1 hp).resolve_left hne)
  · rcases h.status with hm | hres | ⟨hbare, hold⟩
    · exact Or.inl ((List.mem_cons.1 hm).resolve_left (Ne.symm hbX))
    · exact Or.inr (Or.inl (hres.congr hDW hL))
    · exact Or.inr (Or.inr ⟨hbare.congr hL, hold⟩)

/-- **X is recomputed.** -/
theorem Turning.turn (hA : Adequate E F U D c) (hW : Winners F U X W) (hDW : ∀ y, NamedBy D X y → W y)
    (hkept : ¬ Erased U X) (hids : ∀ r r', Names D X r → Names D X r' → r.eventId = r'.eventId → r.target = r'.target)
    (h : Turning E F U D B c X W Hd wc (X :: rest) s) (hX : F.start X)
    (hr : recomputeProjection E n s X = some t) : ∃ wn, Turning E F U D B c X W Hd wn rest t := by
  have hlog := h.licensed.sameLog hW.unchained
  obtain ⟨n, rfl⟩ : ∃ k, n = k + 1 := by
    cases n with
    | zero => simp [recomputeProjection] at hr
    | succ k => exact ⟨k, rfl⟩
  cases verdict s X with
  | erased he =>
    obtain ⟨e, he, hrest⟩ := hlog.erased.1 he
    exact absurd ⟨e, hA.sub e he, hrest⟩ hkept
  | absent he hn =>
    rw [recompute_absent he hn, Option.some.injEq] at hr
    subst hr
    exact ⟨wc, h.pass hW.self (fun hh => absurd hn (h.exist.2 hh)) rfl le_rfl (fun _ _ => rfl) Iff.rfl⟩
  | quiet hp hs hi =>
    rw [recompute_quiet hp hs hi, Option.some.injEq] at hr
    subst hr
    exact ⟨wc, h.pass hW.self (fun _ r hr => hs _ (hlog.names.2 hr).1) rfl le_rfl (fun _ _ => rfl) Iff.rfl⟩
  | unresolved hp hs hn =>
    rw [recompute_unresolved hp hs hn, Option.some.injEq] at hr
    subst hr
    exact ⟨wc, h.pass hW.self (fun _ r hr => hn r (hlog.names.2 hr)) rfl (Nat.le_succ _) (fun _ _ => rfl) Iff.rfl⟩
  | invalidated hp hs hi hv =>
    rw [recompute_invalidated hp hs hi hv, Option.some.injEq] at hr
    subst hr
    refine ⟨wc, h.pass hW.self (fun _ r hr => hs _ (hlog.names.2 hr).1) rfl (Nat.le_succ _)
      (fun y hy => findRow_hideInvalidated_ne E s _ hy) ?_⟩
    rw [findRow_hideInvalidated, Ne, Option.map_eq_none_iff]
  | superseded hp hmax hv =>
    rename_i w v
    have hwin : Wins D X w := hlog.wins.1 (wins_of_max hmax)
    have hwn : W w.target := hDW _ ⟨w, hwin.mem, rfl⟩
    have hnamed : ∀ y, NamedBy D X y ↔ NamedBy (records s) X y := fun y =>
      exists_congr fun r => and_congr_left fun _ => hlog.names.symm
    have hrows : Rows W Hd w.target {a | a ∈ rest} s := by
      have hr0 := h.ready.rows hwin h.rows
      exact hr0.pass hW.self (fun _ _ => rfl) rfl
    obtain ⟨hlt, hHt, hrt, hdone⟩ := recompute_fork hA hW hmax hp hwn hnamed
      (fun r hr heq => hids r w (hlog.names.1 hr) hwin.mem heq) h.licensed (h.ready.loop h.headed hwin) hrows hX hr
    have hXt : findRow t X ≠ none ↔ Hd X := by
      have hJ := fork_traversal (T := (· = X)) hA fun a ha => ha ▸ hX
      refine (hJ.sound (exist_effects (fun u hj he => hkept ?_)) (P := ∅) (Or.inl rfl) h.licensed h.exist hr).2
      obtain ⟨e, he, hrest⟩ := (hj.sameLog hW.unchained).erased.1 he
      exact ⟨e, hA.sub e he, hrest⟩
    exact ⟨w.target, hlt, hHt, hrt, fun x hx =>
      Or.inl (hids x w hx.mem hwin.mem (hx.eventId_eq hwin)), Or.inr ⟨h.exist.1 hp.row, w, hwin.mem⟩,
      Or.inr (Or.inl ⟨⟨w, hwin, rfl⟩, hdone⟩), hXt⟩

end

/-! ## Runs of pulls -/

/-- a fork of X while `evs` arrive at `s0`: the atoms that the supersede events of X name -/
structure Family (E : Env) (s0 : St) (evs : List RemotePullEvent) (X : AtomId) : Prop where
  ids : EventIds E s0 evs
  /-- the winners are pairwise distinct -/
  distinct : ∀ r r', Names (logWith s0 evs) X r → Names (logWith s0 evs) X r' → r.target = r'.target → r = r'
  /-- and not all known from the start -/
  delivers : ∃ r, Names (logWith s0 evs) X r ∧ r.toEventRecord ∉ records s0
  /-- X and the winners are stored in the end, and X is not erased -/
  held : ∀ a, a = X ∨ NamedBy (logWith s0 evs) X a → Held s0 evs a
  kept : ¬ Erased (logWith s0 evs) X
  /-- nothing else supersedes, invalidates or erases a winner -/
  clean : ∀ e ∈ logWith s0 evs, NamedBy (logWith s0 evs) X e.atomId →
    e.eventType ≠ .supersede ∧ e.eventType ≠ .invalidate ∧ e.eventType ≠ .eraseRequest
  current : ∀ y, NamedBy (logWith s0 evs) X y → ∀ m, findRow s0 y = some m → rowProjection m = (none, none)
  /-- no other fork chains X or a winner -/
  unchained : ¬ (forkBound E s0 evs).Chained X
  closed : ∀ {x y w}, (forkBound E s0 evs).Chain x y w → NamedBy (logWith s0 evs) X y →
    x = X ∨ NamedBy (logWith s0 evs) X x

/-- when the batch brings a supersede event of X that beats those held so far, the clock is past every supersede event
of the winners named so far -/
def ClockPast (E : Env) (X : AtomId) (s : St) (batch : PullBatch) : Prop :=
  (∃ r, Names (batch.events.map (·.toEventRecord)) X r ∧
    ∀ q, Names (records s) X q → tieKey q.toEventRecord < tieKey r.toEventRecord) →
  ∀ y, NamedBy (records s) X y → ∀ e, Supersedes (records s) y e → ∀ i, s.clock ≤ i → e.createdAt < E.now i

section
variable {s0 : St} {evs done : List RemotePullEvent} {batch : PullBatch}

theorem Family.clean_not_named (h : Family E s0 evs X) {x : AtomId} (hx : NamedBy (logWith s0 evs) X x)
    {r : Resolvable} : ¬ Names (logWith s0 evs) x r := by
  rintro ⟨⟨he, rfl, hty⟩, -⟩
  exact (h.clean _ he hx).1 hty

/-- whatever a winner is chained to is a winner -/
theorem Family.winner (h : Family E s0 evs X) {x y w : AtomId} (hc : (forkBound E s0 evs).Chain x y w)
    (hy : NamedBy (logWith s0 evs) X y) : NamedBy (logWith s0 evs) X w := by
  induction hc with
  | start h1 h2 h3 =>
    have hx := h.closed (.start h1 h2 h3) hy
    obtain ⟨u, r, hu, hr, -, -, -, rfl⟩ := h3
    rcases hx with rfl | hx
    · exact ⟨u, hu, rfl⟩
    · exact absurd hu (h.clean_not_named hx)
  | old h1 h2 h3 _ =>
    have hx := h.closed (.old h1 h2 h3) hy
    obtain ⟨u, r, hu, hr, -, -, -, rfl⟩ := h3
    rcases hx with rfl | hx
    · exact ⟨u, hu, rfl⟩
    · exact absurd hu (h.clean_not_named hx)
  | new h1 h2 h3 h4 h5 _ =>
    rcases h.closed (.new h1 h2 h3 h4 h5) hy with rfl | hx
    · exact absurd h1.chained h.unchained
    · obtain ⟨r, hr, -⟩ := h4
      exact absurd hr (h.clean_not_named hx)
  | late h1 h2 h3 h4 h5 h6 _ =>
    rcases h.closed (.late h1 h2 h3 h4 h5 h6) hy with rfl | hx
    · exact absurd h1.chained h.unchained
    · obtain ⟨r, hr, -⟩ := h5
      exact absurd hr (h.clean_not_named hx)
  | both h1 h2 h3 h4 h5 h6 _ ih =>
    rcases h.closed (.both h1 h2 h3 h4 h5 h6) hy with rfl | hx
    · exact absurd h1.chained h.unchained
    · exact ih hx

theorem Family.winners (h : Family E s0 evs X) :
    Winners (forkBound E s0 evs) (logWith s0 evs) X (NamedBy (logWith s0 evs) X) where
  clean := h.clean
  self hc := by
    obtain ⟨r, hr, -⟩ := h.delivers
    exact h.clean_not_named hc hr
  unchained := h.unchained
  closed hc hy := ⟨h.closed hc hy, h.winner hc hy⟩

/-- the fork of X, as the pulls so far have left it -/
structure Forked (E : Env) (s0 : St) (evs : List RemotePullEvent) (X : AtomId) (done : List RemotePullEvent) (s : St) :
    Prop where
  synced : Synced E s0 evs X done s
  head : ∃ wc, Headed (NamedBy (logWith s0 evs) X) (NamedBy (logWith s0 done) X) wc (records s) ∧
    Rows (NamedBy (logWith s0 evs) X) (Held s0 done) wc ∅ s ∧
    (Held s0 done X ∧ Resolved (logWith s0 done) X wc (records s) ∨
      Bare (NamedBy (logWith s0 evs) X) (records s) ∧
        (Held s0 done X → ∀ r, Names (logWith s0 done) X r → r.toEventRecord ∈ records s0))

theorem NamedBy.mono (hsub : ∀ e ∈ L, e ∈ L') {y : AtomId} (h : NamedBy L X y) : NamedBy L' X y := by
  obtain ⟨r, hr, hy⟩ := h
  exact ⟨r, names_mono hsub hr, hy⟩

/-- nothing has arrived yet -/
theorem Family.start (h : Family E s0 evs X) : Forked E s0 evs X [] s0 where
  synced := synced_start E s0 evs X
  head := by
    obtain ⟨r, hr, -⟩ := h.delivers
    have hbare : Bare (NamedBy (logWith s0 evs) X) (records s0) := by
      rintro y hy e ⟨he, rfl, hty⟩
      exact (h.clean e (mem_logWith.2 (Or.inl he)) hy).1 hty
    have hnot : ∀ y, NamedBy (logWith s0 evs) X y → ∀ r, ¬ Names (records s0) y r :=
      fun y hy r hr => hbare y hy _ hr.1
    refine ⟨r.target, ⟨⟨r, hr, rfl⟩, hbare _ ⟨r, hr, rfl⟩, fun y hy r hr => absurd hr (hnot y hy r),
      fun y hy r hr => absurd hr (hnot y hy r), fun y hy r hr => absurd hr (hnot y hy r)⟩, fun y hy => ?_,
      Or.inr ⟨hbare, fun _ r hr => ?_⟩⟩
    · refine ⟨fun hh => hh.resolve_right ?_, fun _ => h.current y hy, fun _ hm => ?_⟩
      · rintro ⟨e, he, -⟩
        simp at he
      · obtain ⟨q, hq, -⟩ := merged_names hm
        exact absurd hq (hnot y hy q)
    · simpa [logWith] using hr.1.1

/-- the supersede events of the winners do not change in the first loop -/
theorem Family.merged_supersedes (h : Family E s0 evs X) (hb : ∀ e ∈ batch.events, e ∈ evs) {m : St}
    {touched : List AtomId} (hm : Merges s (incoming s batch) m touched) {y : AtomId}
    (hy : NamedBy (logWith s0 evs) X y) : SameSupersedes (records s) (records m) y := by
  intro e
  rw [Supersedes, Supersedes, hm.log]
  refine ⟨And.imp_left (List.mem_append_left _), fun hsup => ?_⟩
  obtain ⟨he, rfl, hty⟩ := hsup
  rcases List.mem_append.1 he with he | he
  · exact ⟨he, rfl, hty⟩
  · obtain ⟨f, hf, rfl⟩ := List.mem_map.1 he
    exact absurd hty (h.clean _ (mem_logWith.2 (Or.inr ⟨f, hb f (incoming_sub hf), rfl⟩)) hy).1

/-- a new winner of X either was the head or beats what the clock is past of -/
theorem Forked.ready (hf : Family E s0 evs X) (h : Forked E s0 evs X done s) (hdone : ∀ e ∈ done, e ∈ evs)
    (hb : ∀ e ∈ batch.events, e ∈ evs) (hc : ClockPast E X s batch)
    (hH : Headed (NamedBy (logWith s0 evs) X) (NamedBy (logWith s0 done) X) wc (records s))
    (hR : Resolved (logWith s0 done) X wc (records s)) :
    Ready E (logWith s0 (done ++ batch.events)) X (NamedBy (logWith s0 evs) X) wc s.clock (records s) := by
  intro w hw
  have hall : ∀ e ∈ done ++ batch.events, e ∈ evs := fun e he => (List.mem_append.1 he).elim (hdone e) (hb e)
  have hU := names_mono (fun _ => logWith_mono hall) hw.mem
  have hlog := h.synced.licensed.sameLog hf.unchained
  by_cases hwD : w.toEventRecord ∈ logWith s0 done
  · -- the winner of before still wins
    obtain ⟨w0, hw0, rfl⟩ := hR.wins
    have hw' : Wins (logWith s0 done) X w := ⟨⟨⟨hwD, hw.mem.1.2⟩, hw.mem.2⟩, fun r hr =>
      hw.max r (names_mono (fun _ => logWith_mono fun f hf => List.mem_append_left _ hf) hr)⟩
    exact Or.inl (oneWinner_of_ids hf.ids hdone w w0 hw' hw0)
  · -- no atom was chained to the new winner before
    have hnew : ¬ NamedBy (logWith s0 done) X w.target := by
      rintro ⟨r, hr, htar⟩
      exact hwD (hf.distinct r w (names_mono (fun _ => logWith_mono hdone) hr) hU htar ▸ hr.1.1)
    have hover : ∀ q, Names (records s) X q → tieKey q.toEventRecord < tieKey w.toEventRecord := by
      intro q hq
      have hqD := hlog.names.1 hq
      have hqD' : Names (logWith s0 (done ++ batch.events)) X q :=
        names_mono (fun _ => logWith_mono fun f hf => List.mem_append_left _ hf) hqD
      refine lt_of_le_of_ne (hw.max q hqD') fun heq => hwD ?_
      have hid : q.eventId = w.eventId := tieKey_id heq
      exact hf.ids.log _ (logWith_mono hdone hqD.1.1) _ hU.1.1 hid ▸ hqD.1.1
    have hbatch : Names (batch.events.map (·.toEventRecord)) X w := by
      refine ⟨⟨?_, hw.mem.1.2⟩, hw.mem.2⟩
      rcases mem_logWith.1 hw.mem.1.1 with he | ⟨f, hf, hfe⟩
      · exact absurd (mem_logWith.2 (Or.inl he)) hwD
      · rcases List.mem_append.1 hf with hf | hf
        · exact absurd (mem_logWith.2 (Or.inr ⟨f, hf, hfe⟩)) hwD
        · exact List.mem_map.2 ⟨f, hf, hfe⟩
    have hpast := hc ⟨w, hbatch, hover⟩
    refine Or.inr ⟨fun e he => ?_, fun y hy r hr => ⟨fun htar => ?_, hpast y ?_ _ hr.1⟩⟩
    · obtain ⟨v, hv, -, -⟩ := h.synced.licensed.winner_merged hf.winners (fun _ => logWith_mono hdone) ⟨w, hU, rfl⟩ he
      exact hnew (hH.known _ ⟨w, hU, rfl⟩ _ (names_of_target he hv)).1
    · exact hnew (htar ▸ (hH.known y hy r hr).2)
    · exact (hH.known y hy r hr).1.mono h.synced.licensed.base

/-- the state after the first loop of a pull -/
theorem Forked.enter (hf : Family E s0 evs X) (h : Forked E s0 evs X done s) (hdone : ∀ e ∈ done, e ∈ evs)
    (hb : ∀ e ∈ batch.events, e ∈ evs) (hc : ClockPast E X s batch) {m : St} {touched : List AtomId}
    (hm : Merges s (incoming s batch) m touched) :
    ∃ wc, Turning E (forkBound E s0 evs) (logWith s0 evs) (logWith s0 (done ++ batch.events)) (records s0) s.clock X
      (NamedBy (logWith s0 evs) X) (Held s0 (done ++ batch.events)) wc touched m := by
  obtain ⟨wc, hH, hrows, hst⟩ := h.head
  have hall : ∀ e ∈ done ++ batch.events, e ∈ evs := fun e he => (List.mem_append.1 he).elim (hdone e) (hb e)
  have hsub : ∀ e ∈ logWith s0 done, e ∈ logWith s0 (done ++ batch.events) :=
    fun e => logWith_mono fun f hf => List.mem_append_left _ hf
  have hL : ∀ y, NamedBy (logWith s0 evs) X y → SameSupersedes (records s) (records m) y :=
    fun y hy => hf.merged_supersedes hb hm hy
  have hDW : ∀ y, NamedBy (logWith s0 done) X y → NamedBy (logWith s0 evs) X y :=
    fun y => NamedBy.mono fun _ => logWith_mono hdone
  have hDW' : ∀ y, NamedBy (logWith s0 (done ++ batch.events)) X y → NamedBy (logWith s0 evs) X y :=
    fun y => NamedBy.mono fun _ => logWith_mono hall
  have hkept : ¬ Erased (logWith s0 (done ++ batch.events)) X := fun ⟨e, he, rest⟩ =>
    hf.kept ⟨e, logWith_mono hall he, rest⟩
  obtain ⟨hlic, -⟩ := h.synced.merged hf.ids hdone hb hm
  have hheld : ∀ y, Held s0 done y → Held s0 (done ++ batch.events) y :=
    fun y hh => hh.mono fun f hf => List.mem_append_left _ hf
  refine ⟨wc, ⟨hlic.base, hlic.gained, hlic.live, hm.clock⟩,
    (hH.weaken fun y => NamedBy.mono hsub).congr hL fun y hy r hr => hDW _ (hH.known y hy r hr).2,
    fun y hy => ⟨h.synced.merged_row hf.ids hdone hb hm (hrows y hy).kept, fun hn x hx => ?_, fun hn hmg => ?_⟩,
    ?_, ?_, ?_, ?_⟩
  · cases hs : findRow s y with
    | some x' =>
      rw [hm.findRow_of_some hs, Option.some.injEq] at hx
      exact (hrows y hy).current (fun e he => hn e ((hL y hy e).1 he)) x (hx ▸ hs)
    | none =>
      obtain ⟨e, -, -, sn, now, k, -, rfl⟩ := hm.made_row hx hs
      rfl
  · rw [hm.row_of_untouched hn]
    exact (hrows y hy).hidden (Set.notMem_empty y) ((hL y hy).merged.2 hmg)
  · rcases hst with ⟨-, hR⟩ | ⟨hbare, -⟩
    · exact (h.ready hf hdone hb hc hH hR).congr hDW' hL
    · intro w hw
      have hbare' := hbare.congr hL
      exact Or.inr ⟨hbare' _ (hDW' _ ⟨w, hw.mem, rfl⟩), fun y hy r hr => absurd hr.1 (hbare' y hy _)⟩
  · rcases hst with ⟨hX, hR⟩ | ⟨hbare, -⟩
    · obtain ⟨w, hw, -⟩ := hR.wins
      exact Or.inr ⟨hheld X hX, w, names_mono hsub hw.mem⟩
    · exact Or.inl (hbare.congr hL)
  · by_cases hXt : X ∈ touched
    · exact Or.inl hXt
    · have hni : ∀ e ∈ incoming s batch, e.atomId ≠ X := fun e he hea => hXt ((hm.touched X).2 ⟨e, he, hea⟩)
      have hsame := h.synced.sameLog hf.ids hdone hb hni
      rcases hst with ⟨-, ⟨w, hw, hwc⟩, hmg⟩ | ⟨hbare, hold⟩
      · refine Or.inr (Or.inl ⟨⟨w, hsame.wins.1 hw, hwc⟩, fun y hy hne => ?_⟩)
        obtain ⟨r, hr, rfl⟩ := hy
        have hr' : NamedBy (logWith s0 done) X r.target := ⟨r, hsame.names.2 hr, rfl⟩
        exact (hL _ (hDW _ hr')).merged.1 (hmg _ hr' hne)
      · refine Or.inr (Or.inr ⟨hbare.congr hL, fun hh r hr => ?_⟩)
        exact hold ((h.synced.held_iff hf.ids hdone hb hni).1 hh) r (hsame.names.2 hr)
  · exact (h.synced.merged_projects hf.ids hdone hb hm Set.univ trivial).exist hkept

/-- **One pull.** -/
theorem fork_pull (hf : Family E s0 evs X) (h : Forked E s0 evs X done s) (hdone : ∀ e ∈ done, e ∈ evs)
    (hb : ∀ e ∈ batch.events, e ∈ evs) (hc : ClockPast E X s batch) (hp : pullOnce E s batch = .ok t) :
    Forked E s0 evs X (done ++ batch.events) t := by
  refine ⟨synced_pull h.synced hf.ids hdone hb hf.unchained hp, ?_⟩
  have hall : ∀ e ∈ done ++ batch.events, e ∈ evs := fun e he => (List.mem_append.1 he).elim (hdone e) (hb e)
  rcases pullOnce_ok hp with ⟨hnil, rfl⟩ | ⟨m, touched, u, hm, hr, rfl⟩
  · rw [hnil, List.append_nil]
    exact h.head
  have hA : Adequate E (forkBound E s0 evs) (logWith s0 evs) (logWith s0 (done ++ batch.events)) s.clock :=
    (forkBound_adequate hall).later h.synced.licensed.clock
  have hDW : ∀ y, NamedBy (logWith s0 (done ++ batch.events)) X y → NamedBy (logWith s0 evs) X y :=
    fun y => NamedBy.mono fun _ => logWith_mono hall
  have hids : ∀ r r', Names (logWith s0 (done ++ batch.events)) X r → Names (logWith s0 (done ++ batch.events)) X r' →
      r.eventId = r'.eventId → r.target = r'.target := by
    intro r r' hr hr' heq
    have he := hf.ids.log _ (logWith_mono hall hr.1.1) _ (logWith_mono hall hr'.1.1) heq
    have htar := hr.2
    rw [he, hr'.2, Option.some.injEq] at htar
    exact htar.symm
  have hI := foldlM_some
    (fun rest v => (∀ b ∈ rest, b ∈ touched) ∧ ∃ wc, Turning E (forkBound E s0 evs) (logWith s0 evs)
      (logWith s0 (done ++ batch.events)) (records s0) s.clock X (NamedBy (logWith s0 evs) X)
      (Held s0 (done ++ batch.events)) wc rest v) ?_ ⟨fun _ hb => hb, h.enter hf hdone hb hc hm⟩ hr
  · obtain ⟨-, wc, hT⟩ := hI
    refine ⟨wc, hT.headed, fun y hy => ?_, ?_⟩
    · have hy' := hT.rows y hy
      exact ⟨hy'.kept, hy'.current, fun _ => hy'.hidden (by simp)⟩
    · rcases hT.status with hc | hR | hbare
      · exact absurd hc List.not_mem_nil
      · by_cases hX : Held s0 (done ++ batch.events) X
        · exact Or.inl ⟨hX, hR⟩
        · exact Or.inr ⟨hT.bare.resolve_right fun hc => hX hc.1, fun hc => absurd hc hX⟩
      · exact Or.inr hbare
  · rintro b rest v v' ⟨hmem, wc, hT⟩ hstep
    have hb' : (forkBound E s0 evs).start b := by
      obtain ⟨e, he, heb⟩ := (hm.touched b).1 (hmem b List.mem_cons_self)
      exact ⟨e, hb e (incoming_sub he), heb⟩
    refine ⟨fun x hx => hmem x (List.mem_cons_of_mem _ hx), ?_⟩
    by_cases hbX : b = X
    · subst hbX
      exact hT.turn hA hf.winners hDW hf.kept hids hb' hstep
    · exact ⟨wc, hT.other hA hf.winners hDW hf.kept hb' hbX hstep⟩

end

/-- the superseded_by graph over X and its winners -/
def SupersededIn (L : List EventRecord) (X : AtomId) (s : St) (a b : AtomId) : Prop :=
  (a = X ∨ NamedBy L X a) ∧ ∃ m, findRow s a = some m ∧ m.supersededBy = some b

/-- a winner that is not hidden -/
def LiveHead (L : List EventRecord) (X : AtomId) (s : St) (y : AtomId) : Prop :=
  NamedBy L X y ∧ ∃ m, findRow s y = some m ∧ m.validTo = none

/-- **One live head.** After a run of pulls in which the clock is past the supersede events of the winners whenever a
supersede event of X arrives that beats the ones held so far, X and its winners supersede each other in no cycle and
exactly one winner is current. -/
theorem one_live_head {s0 : St} {bs : List PullBatch} (hf : Family E s0 (delivered bs) X)
    (hc : Along (pullStep E) (ClockPast E X) s0 bs) (h : pullAll E s0 bs = .ok t) :
    Acyclic (SupersededIn (logWith s0 (delivered bs)) X t) ∧ ∃! y, LiveHead (logWith s0 (delivered bs)) X t y := by
  have hF := pullAll_along hc (Forked E s0 (delivered bs) X) hf.start
    (fun _ _ _ _ hdone hb hs hQ hok => fork_pull hf hs hdone hb hQ hok) h
  obtain ⟨wc, hH, hrows, hst⟩ := hF.head
  -- X is stored and an event has arrived, so the fork is resolved
  obtain ⟨-, ⟨w, hw, rfl⟩, hmerged⟩ := hst.resolve_right <| by
    rintro ⟨-, hold⟩
    obtain ⟨r, hr, hnew⟩ := hf.delivers
    exact hnew (hold (hf.held X (Or.inl rfl)) r hr)
  have hwc := hH.mem
  have hrow : ∀ y, NamedBy (logWith s0 (delivered bs)) X y → ∃ m, findRow t y = some m :=
    fun y hy => Option.ne_none_iff_exists'.1 ((hrows y hy).kept (hf.held y (Or.inr hy)))
  have hhead : ∀ m, findRow t w.target = some m → rowProjection m = (none, none) := (hrows _ hwc).current hH.head
  have hhidden : ∀ y, NamedBy (logWith s0 (delivered bs)) X y → y ≠ w.target → ∀ m, findRow t y = some m →
      m.supersededBy = some w.target ∧ m.validTo ≠ none :=
    fun y hy hne => (hrows y hy).hidden (Set.notMem_empty y) (hmerged y hy hne)
  have harr : Arrived s0 (delivered bs) X := by
    obtain ⟨r, hr, hnew⟩ := hf.delivers
    rcases mem_logWith.1 hr.1.1 with he | ⟨f, hf, hfe⟩
    · exact absurd he hnew
    · exact ⟨f, hf, by rw [hfe]; exact hr.1.2.1, by rw [hfe]; exact hnew⟩
  have hX : ∀ m, findRow t X = some m → m.supersededBy = some w.target :=
    fun m hm => (((hF.synced.projects harr).outcome id m hm).superseded w hw).1
  constructor
  · -- every edge leads to the head, which has none
    refine acyclic_of_rank (fun a => if a = w.target then 1 else 0) fun a b ⟨ha, m, hm, hab⟩ => ?_
    have hne : a ≠ w.target := by
      rintro rfl
      have hp := congrArg Prod.snd (hhead m hm)
      rw [show (rowProjection m).2 = some b from hab] at hp
      cases hp
    have hb : b = w.target := by
      rcases ha with rfl | hy
      · exact Option.some.inj (hab.symm.trans (hX m hm))
      · exact Option.some.inj (hab.symm.trans (hhidden a hy hne m hm).1)
    simp [hne, hb]
  · obtain ⟨m, hm⟩ := hrow w.target hwc
    refine ⟨w.target, ⟨hwc, m, hm, congrArg Prod.fst (hhead m hm)⟩, ?_⟩
    rintro y ⟨hy, x, hx, hv⟩
    by_contra hne
    exact (hhidden y hy hne x hx).2 hv

/-! ## Three winners -/

def familyBatch : PullBatch :=
  ⟨[createEvent 1 1 0, createEvent 2 2 1, createEvent 3 3 2, createEvent 4 4 3, supersedeEvent 5 1 2 10,
    supersedeEvent 6 1 3 11], none⟩

/-- a third winner, in a later batch -/
def thirdBatch : PullBatch := ⟨[supersedeEvent 7 1 4 12], none⟩

/-- where X alone is superseded, no other fork chains its winners -/
theorem closed_of_only {s0 : St} {evs : List RemotePullEvent} (h : ∀ x r, Names (logWith s0 evs) x r → x = X)
    {x y w : AtomId} (hc : (forkBound E s0 evs).Chain x y w) : x = X ∨ NamedBy (logWith s0 evs) X x := by
  have hnamed : ∀ {z v}, (forkBound E s0 evs).Chain z x v → NamedBy (logWith s0 evs) X x := by
    intro z v hz
    obtain ⟨⟨u, r, hr, htar⟩, -⟩ := hz.named forkBound_sound
    obtain rfl := h u r hr
    exact ⟨r, hr, htar⟩
  cases hc with
  | start _ _ h3 =>
    obtain ⟨u, _, hu, -⟩ := h3
    exact Or.inl (h x u hu)
  | old h1 _ _ => exact Or.inr (hnamed h1)
  | new h1 _ _ _ _ => exact Or.inr (hnamed h1)
  | late h1 _ _ _ _ _ => exact Or.inr (hnamed h1)
  | both h1 _ _ _ _ _ => exact Or.inr (hnamed h1)

theorem mem_resolved {r : Resolvable} (h : Names L X r) : r ∈ L.filterMap resolve :=
  List.mem_filterMap.2 ⟨_, h.1.1, resolve_eq_some.2 ⟨rfl, h.2⟩⟩

theorem family_three : Family (device 100) {} (delivered [familyBatch, thirdBatch]) 1 := by
  have hnamed : ∀ y, NamedBy (logWith {} (delivered [familyBatch, thirdBatch])) 1 y → y ∈ [2, 3, 4] := by
    rintro y ⟨r, hr, rfl⟩
    have hall : ∀ r ∈ (logWith {} (delivered [familyBatch, thirdBatch])).filterMap resolve, r.target ∈ [2, 3, 4] := by
      decide
    exact hall r (mem_resolved hr)
  have honly : ∀ x r, Names (logWith {} (delivered [familyBatch, thirdBatch])) x r → x = 1 := by
    rintro x r ⟨⟨he, rfl, hty⟩, -⟩
    have hall : ∀ e ∈ logWith {} (delivered [familyBatch, thirdBatch]), e.eventType = .supersede → e.atomId = 1 := by
      decide
    exact hall _ he hty
  refine ⟨⟨by decide, by decide, fun i _ e he => ?_⟩, fun r r' hr hr' => ?_, ?_, fun a ha => ?_, ?_, fun e he hy => ?_,
    fun y _ m hm => (by cases hm), not_chained_of_unnamed (by decide), fun hc _ => closed_of_only honly hc⟩
  · have hlt : ∀ e ∈ delivered [familyBatch, thirdBatch], e.eventId < 100 := by decide
    exact ((hlt e he).trans_le (Nat.le_add_right 100 i)).ne'
  · have hall : ∀ r ∈ (logWith {} (delivered [familyBatch, thirdBatch])).filterMap resolve,
        ∀ r' ∈ (logWith {} (delivered [familyBatch, thirdBatch])).filterMap resolve, r.target = r'.target → r = r' := by
      decide
    exact hall r (mem_resolved hr) r' (mem_resolved hr')
  · exact ⟨⟨(supersedeEvent 7 1 4 12).toEventRecord, 4⟩, ⟨⟨by decide, rfl, rfl⟩, rfl⟩, List.not_mem_nil⟩
  · have hall : ∀ a ∈ [1, 2, 3, 4], ∃ e ∈ delivered [familyBatch, thirdBatch], e.atomId = a ∧ e.eventType = .create ∧
        e.atomSnapshot.isSome = true := by decide
    have hmem : a ∈ [1, 2, 3, 4] := by
      rcases ha with rfl | hy
      · decide
      · exact List.mem_cons_of_mem _ (hnamed a hy)
    obtain ⟨e, he, hea, hty, hsn⟩ := hall a hmem
    obtain ⟨sn, hsn⟩ := Option.isSome_iff_exists.1 hsn
    exact Or.inr ⟨e, he, hea, List.not_mem_nil, sn, hty, hsn⟩
  · rintro ⟨e, he, -, hty⟩
    have hno : ∀ e ∈ logWith {} (delivered [familyBatch, thirdBatch]), e.eventType ≠ .eraseRequest := by decide
    exact hno e he hty
  · have hall : ∀ e ∈ logWith {} (delivered [familyBatch, thirdBatch]), e.atomId ∈ [2, 3, 4] →
        e.eventType = .create := by decide
    rw [hall e he (hnamed _ hy)]
    decide

/-- the third winner arrives at a device whose clock has moved on -/
theorem one_live_head_three : ∃ t, pullAll (device 100) {} [familyBatch, thirdBatch] = .ok t ∧
    Acyclic (SupersededIn (logWith {} (delivered [familyBatch, thirdBatch])) 1 t) ∧
    ∃! y, LiveHead (logWith {} (delivered [familyBatch, thirdBatch])) 1 t y := by
  obtain ⟨t, h⟩ := isOk_exists (show (pullAll (device 100) {} [familyBatch, thirdBatch]).isOk = true by decide)
  refine ⟨t, h, one_live_head family_three ⟨?_, ?_, trivial⟩ h⟩
  · rintro - y ⟨r, hr, -⟩
    exact absurd hr.1.1 List.not_mem_nil
  · rintro - y - e he i hi
    have hlt : ∀ e ∈ records (pullStep (device 100) {} familyBatch),
        e.createdAt < (100 : ℤ) + (pullStep (device 100) {} familyBatch).clock := by decide
    exact (hlt e he.1).trans_le (Int.add_le_add_left (Int.ofNat_le.2 hi) 100)

/-- a device that is behind: its clock starts at 0, and its random ids happen to fall -/
def slowDevice : Env := ⟨fun i => i, fun i => 1000 - i, 50, fun s => s⟩

/-- **A tie hides the whole family.** The local clock is behind the events, so both synthetic events of memory 2 carry
the time of its own supersede event and the ids decide; the old one wins. 3 and 4 supersede each other. -/
theorem tied_fork_hides_all :
    (pullAll slowDevice {} [familyBatch, thirdBatch]).toOption.map (fun t => [2, 3, 4].map (projection t)) =
      some [some (some 10, some 3), some (some 11, some 4), some (some 10, some 3)] := by
  decide

end AstramemLocal.Sync
