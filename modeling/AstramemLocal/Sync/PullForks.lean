/-
The proof rule for one pull. `pullForks` is the fork structure of the log a pull recomputes from: what was held and what
is new in the batch. A committed pull is a merge, effects on the atoms it touches or chains, and the watermark; an
invariant that survives the effects, pending for the touched atoms at first, holds afterwards (`pull_rule`).
-/
import AstramemLocal.Sync.ForkTrace
import AstramemLocal.Sync.PullSpec

namespace AstramemLocal.Sync

open AstramemLocal.Store AstramemLocal.Core

/-- the log a pull recomputes from -/
def pulledLog (s : St) (batch : PullBatch) : List EventRecord :=
  records s ++ (incoming s batch).map (·.toEventRecord)

/-- the batch has a new event of the atom -/
def Touched (s : St) (batch : PullBatch) (a : AtomId) : Prop := ∃ e ∈ incoming s batch, e.atomId = a

/-- the atom has a row, or the batch brings its body -/
def Stored (s : St) (batch : PullBatch) (a : AtomId) : Prop :=
  findRow s a ≠ none ∨ ∃ e ∈ incoming s batch, e.atomId = a ∧ ∃ sn, Carries e sn

def pullForks (E : Env) (s : St) (batch : PullBatch) : Forks AtomId :=
  forksOf E (pulledLog s batch) (Touched s batch) (Stored s batch) s.clock

variable {E : Env} {s t : St} {batch : PullBatch}

theorem Merges.stored {m : St} {touched : List AtomId} (hm : Merges s (incoming s batch) m touched) {a : AtomId}
    (ha : findRow m a ≠ none) : Stored s batch a := by
  by_cases hs : findRow s a = none
  · obtain ⟨x, hx⟩ := Option.ne_none_iff_exists'.1 ha
    obtain ⟨e, he, hea, sn, now, k, hc, -⟩ := hm.made_row hx hs
    exact Or.inr ⟨e, he, hea, sn, hc⟩
  · exact Or.inl hs

/-- the states of a pull -/
abbrev Pulling (E : Env) (s : St) (batch : PullBatch) : St → Prop :=
  Licensed (pullForks E s batch) (pulledLog s batch) (pulledLog s batch) s.clock

theorem Merges.pulling {m : St} {touched : List AtomId} (hm : Merges s (incoming s batch) m touched) :
    Pulling E s batch m :=
  ⟨fun e he => by rw [hm.log]; exact he, fun e he => Or.inl (by rw [hm.log] at he; exact he), fun _ => hm.stored,
    hm.clock⟩

/-- the effects of a pull: on atoms it touches or chains, and chainings the fork structure accounts for -/
abbrev PullEffects (E : Env) (s : St) (batch : PullBatch) (I : Set AtomId → St → Prop) : Prop :=
  Effects E (fun a _ => Touched s batch a ∨ (pullForks E s batch).Chained a)
    (Chains (pullForks E s batch) (pulledLog s batch)) (Pulling E s batch) I

/-- **Rule for one pull.** -/
theorem pull_rule (h : pullOnce E s batch = .ok t) :
    batch.events = [] ∧ t = s ∨ ∃ m touched u, Merges s (incoming s batch) m touched ∧
      t = setPullWatermark u batch.nextCursor ∧ Pulling E s batch u ∧
      ∀ I, PullEffects E s batch I → I {a | Touched s batch a} m → I ∅ u := by
  rcases pullOnce_ok h with hnil | ⟨m, touched, u, hm, hr, rfl⟩
  · exact Or.inl hnil
  have hJ : Traversal E _ _ (Pulling E s batch) :=
    fork_traversal (T := Touched s batch) forksOf_adequate fun _ ha => ha
  have hmem : ∀ a, a ∈ touched → Touched s batch a := fun a ha => (hm.touched a).1 ha
  refine Or.inr ⟨m, touched, u, hm, rfl, ?_, fun I hI hi => ?_⟩
  · exact (hJ.sound_all trivial_effects (P := ∅) (fun b hb _ _ => Or.inl (hmem b hb)) hm.pulling trivial hr).1
  · refine hI.weaken ?_ (hJ.sound_all hI (fun b hb _ _ => Or.inl (hmem b hb)) hm.pulling hi hr).2
    rintro a ⟨ha, hn⟩
    exact absurd ((hm.touched a).2 ha) hn

/-- an atom that is neither touched nor chained -/
theorem pull_untouched (h : pullOnce E s batch = .ok t) {a : AtomId} (ha : ¬ Touched s batch a)
    (hc : ¬ (pullForks E s batch).Chained a) : Untouched a s t := by
  rcases pull_rule h with ⟨-, hts⟩ | ⟨m, touched, u, hm, rfl, -, hI⟩
  · exact hts ▸ .refl a s
  have hmu : Untouched a m u := hI _ (untouched_effects (fun _ hR => hR.elim ha hc)
    (fun w t hC => hc hC.chained) m) (.refl a m)
  refine Untouched.trans ⟨hm.row_of_untouched fun hat => ha ((hm.touched a).1 hat), fun e hea => ?_⟩
    (hmu.trans ⟨rfl, fun _ _ => Iff.rfl⟩)
  rw [hm.log, List.mem_append, or_iff_left]
  intro he
  obtain ⟨f, hf, rfl⟩ := List.mem_map.1 he
  exact ha ⟨f, hf, hea⟩

/-- what no supersede event names is not chained -/
theorem pull_not_chained {a : AtomId} (h : ∀ e ∈ pulledLog s batch, supersedeTarget e ≠ some a) :
    ¬ (pullForks E s batch).Chained a := by
  refine Forks.not_chained_of_unheld forksOf_sound ?_
  rintro u ⟨r, hr, rfl⟩
  exact h _ hr.1.1 hr.2

/-- a committed pull holds what it recomputed from -/
theorem pulledLog_records (h : pullOnce E s batch = .ok t) : ∀ e ∈ pulledLog s batch, e ∈ records t := by
  rcases pull_rule h with ⟨hnil, rfl⟩ | ⟨m, touched, u, -, rfl, hu, -⟩
  · intro e he
    rwa [pulledLog, incoming, hnil, newEvents, List.map_nil, List.append_nil] at he
  · exact hu.base

/-- the log only grows -/
theorem pull_records (h : pullOnce E s batch = .ok t) : ∀ e ∈ records s, e ∈ records t :=
  fun e he => pulledLog_records h e (List.mem_append_left _ he)

/-- a committed pull knows what it knew, and the events of its batch -/
theorem pull_eventIds (h : pullOnce E s batch = .ok t) :
    (∀ i ∈ eventIds s, i ∈ eventIds t) ∧ ∀ e ∈ batch.events, e.eventId ∈ eventIds t := by
  have hlog : ∀ e ∈ pulledLog s batch, e.eventId ∈ eventIds t := fun e he =>
    List.mem_map_of_mem (pulledLog_records h e he)
  have hold : ∀ i ∈ eventIds s, i ∈ eventIds t := by
    intro i hi
    obtain ⟨e, he, rfl⟩ := List.mem_map.1 hi
    exact hlog e (List.mem_append_left _ he)
  refine ⟨hold, fun e he => ?_⟩
  rcases newEvents_covers (eventIds s) he with hknown | ⟨f, hf, hid⟩
  · exact hold _ hknown
  · exact hid ▸ hlog _ (List.mem_append_right _ (List.mem_map_of_mem hf))

/-- a pull keeps the unique columns -/
theorem unique_effects {k : Key} {R : AtomId → St → Prop} {C : AtomId → AtomId → Time → Prop} {J : St → Prop} :
    Effects E R C J fun _ s => Unique k s where
  weaken _ h := h
  erased {_ s a} _ _ h _ := by
    unfold hardDeleteAtom
    split
    · exact h
    · exact h.sublist List.filter_sublist
  absent _ _ h _ _ := h
  quiet _ _ h _ _ _ := h
  unresolved _ _ h _ _ _ := h
  invalidated _ _ h _ _ _ := Unique.updateRow (s := tick _) h _ fun _ => by cases k <;> rfl
  superseded _ _ h _ _ _ := Unique.updateRow (s := tick _) h _ fun _ => by cases k <;> rfl
  chain _ h _ _ := h

end AstramemLocal.Sync
