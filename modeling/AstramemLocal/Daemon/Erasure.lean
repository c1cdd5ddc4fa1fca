/-
Erasure and the tombstone. An erase leaves an `erase_request` with the content hash in the log, and the log only grows.
Of the ways a row comes in, the screening of stage 8 alone reads the tombstone.
* `erasure_permanent`: along a run whose inserts bring no erased hash, and whose pulls bring one only for memories that
  are erased themselves, an erased hash is not stored again.
* `pull_resurrects`: a create event of the same content under another id brings it back.
-/
import AstramemLocal.Daemon.Effects
import AstramemLocal.Sync.Convergence

namespace AstramemLocal.Daemon

open AstramemLocal.Store AstramemLocal.Sync AstramemLocal.Distill AstramemLocal.Core Relation

/-- the log holds a tombstone with this content hash -/
def Tombstoned (L : List EventRecord) (h : Hash) : Prop := ∃ e ∈ L, e.eventType = .eraseRequest ∧ e.contentHash = some h

variable {E : Env} {Q : AtomId → AtomId → Prop} {K : Memory → Prop} {s t : St} {batch : PullBatch}
  {L L' : List EventRecord} {h : Hash}

theorem isErasedHash_iff : isErasedHash s h = true ↔ Tombstoned (records s) h := by
  simp only [isErasedHash, Tombstoned, records, List.any_eq_true, decide_eq_true_eq, List.mem_map]
  constructor
  · intro hx
    obtain ⟨e, he, hty⟩ := hx
    exact ⟨_, ⟨e, he, rfl⟩, hty⟩
  · intro hx
    obtain ⟨_, ⟨e, he, rfl⟩, hty⟩ := hx
    exact ⟨e, he, hty⟩

theorem Tombstoned.mono (ht : Tombstoned L h) (hL : ∀ e ∈ L, e.eventType = .eraseRequest → e ∈ L') : Tombstoned L' h := by
  obtain ⟨e, he, hty, hh⟩ := ht
  exact ⟨e, hL e he hty, hty, hh⟩

/-- an erase leaves the tombstone of the memory it deletes -/
theorem erase_tombstones {a : AtomId} {m : Memory} {reason : Option String} (hm : findRow s a = some m)
    (he : Store.erase E s a reason = .ok t) : isErasedHash t m.hash = true := by
  obtain ⟨row, hrow, rfl⟩ := erase_ok he
  obtain rfl := Option.some.inj (hm.symm.trans hrow)
  rw [isErasedHash_iff, deleteRow_records, deleteVec_records, append_records]
  exact ⟨_, List.mem_append_right _ List.mem_cons_self, rfl, rfl⟩

/-! ## The invariant -/

/-- no stored memory has an erased hash -/
structure Forgets (s : St) : Prop where
  unique : ∀ k, Unique k s
  clean : ∀ m ∈ s.memories, ¬ Tombstoned (records s) m.hash

theorem mem_updateRow {a : AtomId} {f : Memory → Memory} {x : Memory} (hf : ∀ k : Key, ∀ m, k.of (f m) = k.of m)
    (hx : x ∈ (updateRow s a f).memories) : ∃ y ∈ s.memories, y.id = x.id ∧ y.hash = x.hash := by
  obtain ⟨y, hy, rfl⟩ := List.mem_map.1 hx
  refine ⟨y, hy, ?_⟩
  split_ifs
  · exact ⟨(hf .id y).symm, (hf .hash y).symm⟩
  · exact ⟨rfl, rfl⟩

/-- no new hash and no new tombstone -/
theorem Forgets.of_rows (hs : Forgets s) (hunique : ∀ k, Unique k t)
    (hrows : ∀ x ∈ t.memories, ∃ y ∈ s.memories, y.id = x.id ∧ y.hash = x.hash)
    (hlog : ∀ e ∈ records t, e.eventType = .eraseRequest → e ∈ records s) : Forgets t := by
  refine ⟨hunique, fun x hx hc => ?_⟩
  obtain ⟨y, hy, -, hyx⟩ := hrows x hx
  exact hs.clean y hy (hyx ▸ hc.mono hlog)

theorem Forgets.effect (hs : Forgets s) (he : Effect E Q (fun u h => isErasedHash u h = false) K s t) : Forgets t := by
  have hunique : ∀ k, Unique k t := fun k => he.unique (hs.unique k)
  have hsame : ∀ x ∈ s.memories, ∃ y ∈ s.memories, y.id = x.id ∧ y.hash = x.hash := fun x hx => ⟨x, hx, rfl, rfl⟩
  have hsnoc : ∀ {ev : EventRecord}, ev.eventType ≠ .eraseRequest → ∀ f ∈ records s ++ [ev],
      f.eventType = .eraseRequest → f ∈ records s := by
    intro ev hev f hf hty
    rcases List.mem_append.1 hf with hf | hf
    · exact hf
    · rw [List.mem_singleton.1 hf] at hty
      exact absurd hty hev
  cases he with
  | frame hf => exact hs.of_rows hunique (by rw [hf.memories]; exact hsame) fun e he _ => by rwa [hf.records] at he
  | inserted input rowid now at_ hA _ _ =>
    refine ⟨hunique, fun x hx hc => ?_⟩
    rw [append_records] at hc
    have hc := hc.mono (hsnoc (by simp))
    rcases List.mem_append.1 hx with hx | hx
    · exact hs.clean x hx hc
    · have hnew : Tombstoned (records s) input.hash := by rwa [List.mem_singleton.1 hx] at hc
      rw [isErasedHash_iff.2 hnew] at hA
      cases hA
  | rewritten now p _ hr =>
    refine hs.of_rows hunique (fun x hx => mem_updateRow hr.key_eq hx) ?_
    rw [append_records]
    exact hsnoc (by cases hr <;> simp)
  | touched validFrom now =>
    exact hs.of_rows hunique (fun x hx => mem_updateRow (fun k _ => by cases k <;> rfl) hx) fun _ he _ => he
  | superseded p now =>
    refine hs.of_rows hunique (fun x hx => mem_updateRow (fun k _ => by cases k <;> rfl) hx) ?_
    rw [append_records]
    exact hsnoc (by simp)
  | noted a p now =>
    refine hs.of_rows hunique hsame ?_
    rw [append_records]
    exact hsnoc (by simp)
  | erased reason now hm =>
    rename_i a m
    refine ⟨hunique, fun x hx hc => ?_⟩
    obtain ⟨hx, hxa⟩ := List.mem_filter.1 hx
    simp only [decide_eq_true_eq] at hxa
    rw [deleteRow_records, deleteVec_records, append_records] at hc
    obtain ⟨e, he, hty, hh⟩ := hc
    rcases List.mem_append.1 he with he | he
    · exact hs.clean x hx ⟨e, he, hty, hh⟩
    · -- the hash is unique, so no other row has the one of the erased memory
      rw [List.mem_singleton.1 he, Option.some.injEq] at hh
      have hmx : m = x := List.inj_on_of_nodup_map (hs.unique .hash) (findRow_mem hm) hx hh
      exact hxa (hmx ▸ findRow_id hm)
  | linked link => exact hs.of_rows hunique hsame fun _ he _ => he
  | related r => exact hs.of_rows hunique hsame fun _ he _ => he
  | vectored => exact hs.of_rows hunique hsame fun _ he _ => he

/-! ## Pulls -/

/-- with the pull, every memory with an erased hash is touched and has an erase_request itself -/
structure PullErasesSafely (s : St) (batch : PullBatch) : Prop where
  stored : ∀ x ∈ s.memories, Tombstoned (pulledLog s batch) x.hash →
    Touched s batch x.id ∧ Erased (pulledLog s batch) x.id
  made : ∀ e ∈ incoming s batch, ∀ sn, Carries e sn → findRow s e.atomId = none →
    Tombstoned (pulledLog s batch) sn.hash → Erased (pulledLog s batch) e.atomId

/-- a row with an erased hash is pending, and will be deleted -/
def Doomed (P : Set AtomId) (u : St) : Prop :=
  ∀ x ∈ u.memories, Tombstoned (records u) x.hash → x.id ∈ P ∧ Erased (records u) x.id

variable {P : Set AtomId} {u : St}

theorem mem_hardDeleteAtom {a : AtomId} {x : Memory} :
    x ∈ (hardDeleteAtom u a).memories ↔ x ∈ u.memories ∧ x.id ≠ a := by
  unfold hardDeleteAtom
  split
  · rename_i hn
    exact ⟨fun hx => ⟨hx, findRow_eq_none.1 hn x hx⟩, And.left⟩
  · simp

/-- an atom without an erase_request is not doomed -/
theorem Doomed.on (hd : Doomed P u) {a : AtomId} (hkept : ¬ Erased (records u) a) {v : St}
    (hlog : records v = records u) (hrows : ∀ x ∈ v.memories, ∃ y ∈ u.memories, y.id = x.id ∧ y.hash = x.hash) :
    Doomed (P \ {a}) v := by
  intro x hx hc
  obtain ⟨y, hy, hid, hh⟩ := hrows x hx
  rw [hlog] at hc ⊢
  obtain ⟨hp, he⟩ := hd y hy (hh ▸ hc)
  rw [hid] at hp he
  exact ⟨⟨hp, fun hxa => hkept (hxa ▸ he)⟩, he⟩

theorem doomed_effects {R : AtomId → St → Prop} {C : AtomId → AtomId → Time → Prop} {J : St → Prop} :
    Effects E R C J Doomed where
  weaken hPP hd x hx hc := ⟨hPP (hd x hx hc).1, (hd x hx hc).2⟩
  erased {P u a} _ _ hd _ x hx hc := by
    rw [hardDeleteAtom_records] at hc ⊢
    obtain ⟨hx, hxa⟩ := mem_hardDeleteAtom.1 hx
    exact ⟨⟨(hd x hx hc).1, hxa⟩, (hd x hx hc).2⟩
  absent _ _ hd hkept _ := hd.on hkept rfl fun x hx => ⟨x, hx, rfl, rfl⟩
  quiet _ _ hd hp _ _ := hd.on hp.kept rfl fun x hx => ⟨x, hx, rfl, rfl⟩
  unresolved _ _ hd hp _ _ := hd.on hp.kept rfl fun x hx => ⟨x, hx, rfl, rfl⟩
  invalidated _ _ hd hp _ _ := hd.on hp.kept rfl fun _ hx =>
    mem_updateRow (s := tick _) (fun k _ => by cases k <;> rfl) hx
  superseded _ _ hd hp _ _ := hd.on hp.kept rfl fun _ hx =>
    mem_updateRow (s := tick _) (fun k _ => by cases k <;> rfl) hx
  chain {P u y w at_} _ hd _ _ x hx hc := by
    rw [chainEvent_records] at hc ⊢
    obtain ⟨hp, e, he, hex⟩ := hd x hx <| hc.mono fun e he hty => by
      rcases List.mem_append.1 he with he | he
      · exact he
      · rw [List.mem_singleton.1 he] at hty
        cases hty
    exact ⟨Or.inr hp, e, List.mem_append_left _ he, hex⟩

/-- the state after the first loop -/
theorem PullErasesSafely.merged (hsafe : PullErasesSafely s batch) {m : St} {touched : List AtomId}
    (hm : Merges s (incoming s batch) m touched) : Doomed {a | Touched s batch a} m := by
  intro x hx hc
  rw [hm.log] at hc ⊢
  obtain ⟨made, hrows, hmade⟩ := hm.rows
  rw [hrows] at hx
  rcases List.mem_append.1 hx with hx | hx
  · exact hsafe.stored x hx hc
  · obtain ⟨hn, e, he, sn, now, k, hcarry, rfl⟩ := hmade x hx
    exact ⟨⟨e, he, rfl⟩, hsafe.made e he sn hcarry hn hc⟩

theorem Forgets.pull (hs : Forgets s) (hsafe : PullErasesSafely s batch) (hp : pullOnce E s batch = .ok t) :
    Forgets t := by
  rcases pull_rule hp with ⟨-, rfl⟩ | ⟨m, touched, u, hm, rfl, -, hI⟩
  · exact hs
  · have hd := hI _ doomed_effects (hsafe.merged hm)
    exact ⟨fun k => hI _ unique_effects (hm.unique k (hs.unique k)), fun x hx hc =>
      Set.notMem_empty _ (hd x hx hc).1⟩

/-! ## Runs -/

/-- an insert brings no erased hash, a pull brings one only for memories that are erased themselves -/
structure ErasesSafely (s : St) (op : Op) : Prop where
  insert : ∀ h, op.inserts s = some h → isErasedHash s h = false
  pull : ∀ batch, op = .pull batch → PullErasesSafely s batch

theorem Forgets.step (hs : Forgets s) {op : Op} (hsafe : ErasesSafely s op) : Forgets (step E s op) := by
  refine step_inv (hs.unique .id) { Permits.all s op with insert := fun x hx u hu _ => ?_ }
    (fun _ _ hv he => hv.effect he) (fun batch t hop ht => hs.pull (hsafe.pull batch hop) ht) hs
  have hno := hsafe.insert x hx
  rw [Bool.eq_false_iff, Ne, isErasedHash_iff] at hno ⊢
  rwa [hu.records]

/-- **Erasure is permanent** along a run of safe steps: once a tombstone has the hash, no memory with it is stored. -/
theorem erasure_permanent (E : Env) (sessions : List SessionId) (pre post : List Op) (h : Hash)
    (hsafe : Along (step E) ErasesSafely { sessions } (pre ++ post))
    (herased : isErasedHash (run E { sessions } pre) h = true) :
    ∀ m ∈ (run E { sessions } (pre ++ post)).memories, m.hash ≠ h := by
  have hstart : Forgets { sessions } :=
    ⟨fun _ => List.nodup_nil, fun m hm => absurd hm List.not_mem_nil⟩
  have hend : Forgets (run E { sessions } (pre ++ post)) := along_inv Forgets (fun _ _ hs hP => hs.step hP) hstart hsafe
  have hids : UniqueIds (run E { sessions } pre) := unique_run hstart.unique pre .id
  rintro m hm rfl
  refine hend.clean m hm ((isErasedHash_iff.1 herased).mono fun e he _ => ?_)
  rw [run, List.foldl_append]
  exact run_records hids post e he

theorem erasesSafely_local {op : Op} (hop : op.isPull = false) (hno : (op.inserts s).any (isErasedHash s) = false) :
    ErasesSafely s op := by
  refine ⟨fun h hh => ?_, fun batch hc => by rw [hc] at hop; cases hop⟩
  simpa [hh] using hno

/-- a pull after which the only erased hash is `k`, and no memory has it -/
theorem erasesSafely_pull {k : Hash}
    (hk : ∀ e ∈ pulledLog s batch, e.eventType = .eraseRequest → e.contentHash = some k)
    (hs : ∀ x ∈ s.memories, x.hash ≠ k) (hb : ∀ e ∈ batch.events, ∀ sn ∈ e.atomSnapshot.toList, sn.hash ≠ k) :
    ErasesSafely s (.pull batch) := by
  have hno : ∀ {h}, h ≠ k → ¬ Tombstoned (pulledLog s batch) h := by
    rintro h hh ⟨e, he, hty, heh⟩
    rw [hk e he hty, Option.some.injEq] at heh
    exact hh heh.symm
  refine ⟨fun h hh => (by cases hh), ?_⟩
  rintro _ ⟨⟩
  refine ⟨fun x hx hc => absurd hc (hno (hs x hx)), fun e he sn hc _ hk => absurd hk (hno ?_)⟩
  exact hb e ((newEvents_sublist _ _).subset he) sn (by simp [hc.2])

/-- the memory with hash 7 is erased -/
def eraseOps : List Op := [.remember (rememberInput 7 "text"), .erase 0 none]

/-- then another one is stored, and three are pulled -/
theorem erasure_permanent_pull : isErasedHash (run countingEnv { sessions := [] } eraseOps) 7 = true ∧
    ∀ m ∈ (run countingEnv { sessions := [] }
      (eraseOps ++ [.remember (rememberInput 8 "other"), .pull createBatch])).memories, m.hash ≠ 7 :=
  ⟨by decide, erasure_permanent countingEnv [] eraseOps [.remember (rememberInput 8 "other"), .pull createBatch] 7
    ⟨erasesSafely_local rfl (by decide), erasesSafely_local rfl (by decide), erasesSafely_local rfl (by decide),
      erasesSafely_pull (k := 7) (by decide) (by decide) (by decide), trivial⟩ (by decide)⟩

/-- **A pull resurrects erased content.** Another device stored the same content as memory 7: `materializeAtomIfMissing`
does not read the tombstone. -/
theorem pull_resurrects :
    isErasedHash (run countingEnv {} eraseOps) 7 = true ∧
      ((run countingEnv {} (eraseOps ++ [.pull ⟨[createEvent 900 7 10], some 3⟩])).memories.map fun m =>
        (m.id, m.hash)) = [(7, 7)] := by
  decide

end AstramemLocal.Daemon
