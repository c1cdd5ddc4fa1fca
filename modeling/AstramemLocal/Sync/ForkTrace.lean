/-
Which atoms a recompute can reach. `Licensed F H D c s` says that the log is the log `D` of some moment plus synthetic
events that the fork structure `F` accounts for (`Gained`). When `F` is adequate for `D` (it knows what the supersede
events of `D` can do), a recompute that starts at a reached atom stays among the reached atoms and adds accounted
events only (`fork_traversal`). What it does not reach it leaves alone (`untouched_effects`). `H` is the log the clock is
compared with; it holds `D` and may hold events that arrive later.
-/
import AstramemLocal.Core.Forks
import AstramemLocal.Sync.Recompute

namespace AstramemLocal.Sync

open AstramemLocal.Store AstramemLocal.Core

/-- `t` is past every supersede event of `H`, unless readings may be stale -/
def Past (F : Forks AtomId) (H : List EventRecord) (t : Time) : Prop :=
  ¬ F.stale → ∀ e ∈ H, e.eventType = .supersede → e.createdAt < t

/-- `F` knows what the supersede events of `D` can do to each other, and how clock readings from `c` on compare to
those of `H` -/
structure Adequate (E : Env) (F : Forks AtomId) (H D : List EventRecord) (c : ℕ) : Prop where
  sub : ∀ e ∈ D, e ∈ H
  held : ∀ {x r}, Names D x r → F.held x r.target
  wins : ∀ {x w}, Wins D x w → F.wins x w.target
  loses : ∀ {x w r}, Wins D x w → Names D x r → r.target ≠ w.target → F.loses x r.target w.target
  merged : ∀ {x w}, F.merged x w → Merged D x w
  fresh : ∀ i, c ≤ i → Past F H (E.now i)

/-- an event that chains its atom as `F` allows -/
structure Gained (F : Forks AtomId) (H : List EventRecord) (e : EventRecord) : Prop where
  type : e.eventType = .supersede
  reason : e.payloadJson.bind (·.reason) = some conflictMerge
  target : ∃ w, supersedeTarget e = some w ∧ F.Gains e.atomId w
  past : Past F H e.createdAt

structure Licensed (F : Forks AtomId) (H D : List EventRecord) (c : ℕ) (s : St) : Prop where
  base : ∀ e ∈ D, e ∈ records s
  gained : ∀ e ∈ records s, e ∈ D ∨ Gained F H e
  live : ∀ a, findRow s a ≠ none → F.live a
  clock : c ≤ s.clock

variable {E : Env} {F : Forks AtomId} {H D : List EventRecord} {c : ℕ}

theorem Adequate.later {c' : ℕ} (h : Adequate E F H D c) (hc : c ≤ c') : Adequate E F H D c' :=
  { h with fresh := fun i hi => h.fresh i (hc.trans hi) }

theorem Licensed.frame {s t : St} (h : Licensed F H D c s) (hr : records t = records s)
    (hl : ∀ a, findRow t a ≠ none → findRow s a ≠ none) (hc : s.clock ≤ t.clock) : Licensed F H D c t where
  base e he := hr ▸ h.base e he
  gained e he := h.gained e (hr ▸ he)
  live a ha := h.live a (hl a ha)
  clock := h.clock.trans hc

theorem Licensed.chain {s : St} {y w : AtomId} {t : Time} (hA : Adequate E F H D c) (h : Licensed F H D c s)
    (hy : ∃ z, F.Chain z y w) (hp : Past F H t) (hm : ¬ Merged (records s) y w) :
    Licensed F H D c (chainEvent E s y w t) where
  base e he := by
    rw [chainEvent_records]
    exact List.mem_append_left _ (h.base e he)
  gained e he := by
    rw [chainEvent_records] at he
    rcases List.mem_append.1 he with he | he
    · exact h.gained e he
    · rw [List.mem_singleton] at he
      subst he
      have hnm : ¬ F.merged y w := fun hc => by
        obtain ⟨e, ⟨he, h1, h2⟩, h3, h4⟩ := hA.merged hc
        exact hm ⟨e, ⟨h.base e he, h1, h2⟩, h3, h4⟩
      exact Or.inr ⟨rfl, rfl, ⟨w, rfl, hy, hnm⟩, hp⟩
  live a ha := h.live a ha
  clock := h.clock

/-- a supersede event of a licensed log is held or gained -/
theorem Licensed.names {s : St} {x : AtomId} {r : Resolvable} (h : Licensed F H D c s) (hr : Names (records s) x r) :
    Names D x r ∨ F.Gains x r.target ∧ Past F H r.createdAt := by
  obtain ⟨⟨he, hx, ht⟩, htar⟩ := hr
  rcases h.gained _ he with hd | hg
  · exact Or.inl ⟨⟨hd, hx, ht⟩, htar⟩
  · obtain ⟨w, hw, hgain⟩ := hg.target
    rw [htar, Option.some.injEq] at hw
    subst hw
    exact Or.inr ⟨hx ▸ hgain, hg.past⟩

/-- a held event that wins the licensed log wins the held log -/
theorem Licensed.wins {s : St} {x : AtomId} {w : Resolvable} (h : Licensed F H D c s) (hw : Wins (records s) x w)
    (hd : Names D x w) : Wins D x w :=
  ⟨hd, fun r hr => hw.max r ⟨⟨h.base _ hr.1.1, hr.1.2⟩, hr.2⟩⟩

/-- **Every chaining of a reached atom is accounted for.** The cases are which of the two events was held. -/
theorem Licensed.losers {s : St} {x : AtomId} {w r : Resolvable} (hA : Adequate E F H D c) (h : Licensed F H D c s)
    (hx : F.Reached x) (hl : F.live x) (hw : Wins (records s) x w) (hr : Names (records s) x r)
    (hne : r.target ≠ w.target) : F.Chain x r.target w.target := by
  rcases h.names hw.mem with hwd | ⟨hwg, -⟩
  · rcases h.names hr with hrd | ⟨hrg, hpast⟩
    · exact hx.chain hl (hA.loses (h.wins hw hwd) hrd hne)
    · by_cases hst : F.stale
      · exact hrg.chain_late hst hl (hA.wins (h.wins hw hwd)) hne
      · -- a gained event is past every held one, so it cannot have lost to one
        have hlt : w.createdAt < r.createdAt := hpast hst _ (hA.sub _ hwd.1.1) hwd.1.2.2
        exact absurd (createdAt_le_of_tieKey_le (hw.max r hr)) hlt.not_ge
  · rcases h.names hr with hrd | ⟨hrg, -⟩
    · exact hwg.chain_held hl (hA.held hrd) hne
    · exact hrg.chain_both hwg hl hne

/-- what is known when a recompute chains a loser -/
def Chains (F : Forks AtomId) (H : List EventRecord) (y w : AtomId) (t : Time) : Prop :=
  (∃ z, F.Chain z y w) ∧ Past F H t

theorem Chains.chained {y w : AtomId} {t : Time} (h : Chains F H y w t) : F.Chained y :=
  h.1.elim fun z hz => ⟨z, w, hz⟩

/-- **A recompute stays among the atoms it starts from and the ones that are chained.** -/
theorem fork_traversal {T : AtomId → Prop} (hA : Adequate E F H D c) (hT : ∀ a, T a → F.start a) :
    Traversal E (fun a _ => T a ∨ F.Chained a) (Chains F H) (Licensed F H D c) where
  effects := {
    weaken := fun _ h => h
    erased := fun {_ s a} _ _ h _ => h.frame (hardDeleteAtom_records s a)
      (fun b hb => by rw [findRow_hardDeleteAtom] at hb; split_ifs at hb <;> simp_all) (by simp)
    absent := fun _ _ h _ _ => h
    quiet := fun _ _ h _ _ _ => h
    unresolved := fun _ _ h _ _ _ => h.frame rfl (fun b hb => hb) (by simp)
    invalidated := fun _ _ h _ _ _ => h.frame rfl
      (fun b hb => by rw [findRow_hideInvalidated] at hb; simpa using hb) (by simp)
    superseded := fun _ _ h _ _ _ => h.frame rfl
      (fun b hb => by rw [findRow_hideSuperseded] at hb; simpa using hb) (by simp)
    chain := fun _ h hc hm => h.chain hA hc.1 hc.2 hm }
  losers := by
    intro s a w r ha h hp hw hr hne
    have hch := h.losers hA (ha.imp_left (hT a)) (h.live a hp.row) hw hr hne
    refine ⟨⟨a, hch⟩, fun hst e he hty => ?_⟩
    exact lt_max_of_lt_right (hA.fresh s.clock h.clock hst e he hty)
  visit _ hc _ := Or.inr hc.chained

/-! ## The fork structure of a log -/

/-- what conflict resolution can do to the supersede events of a log `L`, when the clock is read from `c` on -/
def forksOf (E : Env) (L : List EventRecord) (start live : AtomId → Prop) (c : ℕ) : Forks AtomId where
  start := start
  live := live
  held x y := ∃ r, Names L x r ∧ r.target = y
  wins x w := ∃ u, Wins L x u ∧ u.target = w
  loses x y w := ∃ u r, Wins L x u ∧ Names L x r ∧ r.target ≠ u.target ∧ r.target = y ∧ u.target = w
  merged x w := Merged L x w
  stale := ∃ e ∈ L, e.eventType = .supersede ∧ ∃ i, c ≤ i ∧ E.now i ≤ e.createdAt

section
variable {L : List EventRecord} {start live : AtomId → Prop}

theorem forksOf_adequate : Adequate E (forksOf E L start live c) L L c where
  sub _ he := he
  held h := ⟨_, h, rfl⟩
  wins h := ⟨_, h, rfl⟩
  loses hw hr hne := ⟨_, _, hw, hr, hne, rfl, rfl⟩
  merged h := h
  fresh i hi hst e he hty := by
    by_contra hlt
    exact hst ⟨e, he, hty, i, hi, not_lt.1 hlt⟩

theorem forksOf_sound : (forksOf E L start live c).Sound where
  wins := by
    rintro x w ⟨u, hu, rfl⟩
    exact ⟨u, hu.mem, rfl⟩
  loses := by
    rintro x y w ⟨u, r, hu, hr, -, rfl, rfl⟩
    exact ⟨⟨r, hr, rfl⟩, ⟨u, hu.mem, rfl⟩⟩

theorem finite_targets (L : List EventRecord) : {y | ∃ x r, Names L x r ∧ r.target = y}.Finite := by
  refine (List.finite_toSet (L.filterMap supersedeTarget)).subset ?_
  rintro y ⟨x, r, ⟨⟨he, -, -⟩, ht⟩, rfl⟩
  exact List.mem_filterMap.2 ⟨_, he, ht⟩

theorem licensed_self {s : St} (hl : ∀ a, findRow s a ≠ none → live a) :
    Licensed (forksOf E (records s) start live s.clock) (records s) (records s) s.clock s :=
  ⟨fun _ he => he, fun _ he => Or.inl he, hl, le_rfl⟩

end

/-! ## Frame -/

/-- a licensed log holds no new event of an atom that is not chained -/
theorem Licensed.sameLog {s : St} {a : AtomId} (h : Licensed F H D c s) (ha : ¬ F.Chained a) :
    SameLog (records s) D a := by
  rintro e rfl
  refine ⟨fun he => (h.gained e he).resolve_right fun hg => ?_, h.base e⟩
  obtain ⟨w, -, hgain⟩ := hg.target
  exact ha hgain.chained

/-- nothing happens to the row and the log of an atom -/
structure Untouched (a : AtomId) (s t : St) : Prop where
  row : findRow t a = findRow s a
  log : ∀ e, e.atomId = a → (e ∈ records t ↔ e ∈ records s)

theorem Untouched.refl (a : AtomId) (s : St) : Untouched a s s := ⟨rfl, fun _ _ => Iff.rfl⟩

theorem Untouched.trans {a : AtomId} {s t u : St} (h : Untouched a s t) (h' : Untouched a t u) : Untouched a s u :=
  ⟨h'.row.trans h.row, fun e he => (h'.log e he).trans (h.log e he)⟩

/-- **A recompute leaves alone what it does not visit.** -/
theorem untouched_effects {R : AtomId → St → Prop} {C : AtomId → AtomId → Time → Prop} {J : St → Prop} {a : AtomId}
    (ha : ∀ s, ¬ R a s) (hc : ∀ w t, ¬ C a w t) (s0 : St) : Effects E R C J fun _ s => Untouched a s0 s where
  weaken _ h := h
  erased {_ s b} hb _ h _ := h.trans ⟨by
    rw [findRow_hardDeleteAtom, if_neg]
    rintro rfl
    exact ha _ hb, fun e _ => by rw [hardDeleteAtom_records]⟩
  absent _ _ h _ _ := h
  quiet _ _ h _ _ _ := h
  unresolved _ _ h _ _ _ := h.trans ⟨rfl, fun _ _ => Iff.rfl⟩
  invalidated {_ s b v} hb _ h _ _ _ :=
    h.trans ⟨findRow_hideInvalidated_ne E s v fun hc => ha s (hc ▸ hb), fun _ _ => Iff.rfl⟩
  superseded {_ s b w v} hb _ h _ _ _ :=
    h.trans ⟨findRow_hideSuperseded_ne E s v w.target fun hc => ha s (hc ▸ hb), fun _ _ => Iff.rfl⟩
  chain {_ s y w t} _ h hC _ := h.trans ⟨rfl, fun e he => by
    rw [chainEvent_records, List.mem_append, List.mem_singleton, or_iff_left]
    rintro rfl
    exact hc w t (he ▸ hC)⟩

/-- **A recompute neither makes nor deletes** the row of an atom that is not erased. -/
theorem exist_effects {R : AtomId → St → Prop} {C : AtomId → AtomId → Time → Prop} {J : St → Prop} {a : AtomId}
    {hd : Prop} (hkept : ∀ s, J s → ¬ Erased (records s) a) :
    Effects E R C J fun _ s => findRow s a ≠ none ↔ hd where
  weaken _ h := h
  erased {_ s b} _ hj h he := by
    have hab : a ≠ b := fun hc => hkept s hj (hc ▸ he)
    rw [findRow_hardDeleteAtom, if_neg hab]
    exact h
  absent _ _ h _ _ := h
  quiet _ _ h _ _ _ := h
  unresolved _ _ h _ _ _ := h
  invalidated {_ s b v} _ _ h _ _ _ := by
    rw [findRow_hideInvalidated, Ne, Option.map_eq_none_iff]
    exact h
  superseded {_ s b w v} _ _ h _ _ _ := by
    rw [findRow_hideSuperseded, Ne, Option.map_eq_none_iff]
    exact h
  chain _ h _ _ := h

end AstramemLocal.Sync
