/-
What a pull brings and ship rounds send back. `dedupInsertEvent` leaves `synced_at` NULL on the rows it inserts, so to
`listUnsynced` they are rows of this device that still wait. `Tracked` remembers which seqs came in through a pull.
- `no_echo`: no round of a run selects a pulled event iff every round starts when no pulled event of a type that ships
  is in scope, or earlier events fill the batch.
- `pulled_event_ships_back`: one pull and one round.
-/
import AstramemLocal.Daemon.ShipRounds
import AstramemLocal.Sync.Convergence

namespace AstramemLocal.Daemon

open AstramemLocal.Store AstramemLocal.Sync AstramemLocal.Core

/-! ## What came in -/

structure Tracked where
  ship : Shipping
  /-- the seqs of the rows that pulls inserted for events they fetched -/
  pulled : List ℕ := []
deriving DecidableEq, Repr

/-- the rows an event of the run inserts for fetched events -/
def arrivals (E : Env) (st : Shipping) : ShipOp → List ℕ
  | .other (.pull batch) =>
    ((step E st.db (.pull batch)).memoryEvents.filter fun e => st.db.seqHigh < e.seq ∧
      e.toEventRecord ∈ (incoming st.db batch).map (·.toEventRecord)).map (·.seq)
  | _ => []

def trackStep (E : Env) (t : Tracked) (op : ShipOp) : Tracked :=
  ⟨shipStep E t.ship op, t.pulled ++ arrivals E t.ship op⟩

def trackRun (E : Env) (t : Tracked) (ops : List ShipOp) : Tracked := ops.foldl (trackStep E) t

/-- tracking changes nothing -/
theorem trackRun_ship (E : Env) (t : Tracked) (ops : List ShipOp) : (trackRun E t ops).ship = shipRun E t.ship ops := by
  induction ops generalizing t with
  | nil => rfl
  | cons op ops ih => exact ih (trackStep E t op)

variable {E : Env} {t : Tracked} {op : ShipOp}

/-- a pull inserts its rows at the end of the log -/
theorem arrivals_new {q : ℕ} (h : q ∈ arrivals E t.ship op) :
    t.ship.db.seqHigh < q ∧ Grows t.ship.db (shipStep E t.ship op).db ∧
      ∃ e ∈ (shipStep E t.ship op).db.memoryEvents, e.seq = q := by
  unfold arrivals at h
  split at h
  · rename_i batch
    obtain ⟨e, he, rfl⟩ := List.mem_map.1 h
    obtain ⟨hmem, hlt⟩ := List.mem_filter.1 he
    simp only [decide_eq_true_eq] at hlt
    exact ⟨hlt.1, step_grows rfl, e, hmem, rfl⟩
  · cases h

/-! ## Echoes -/

/-- a round starts and its batch holds a pulled event -/
def Echoes (t : Tracked) (op : ShipOp) : Prop :=
  ∃ n, op = .send n ∧ t.ship.sent = none ∧ ∃ r ∈ listUnsynced t.ship.db n, r.seq ∈ t.pulled

/-- every pulled event is out of scope, or of a type that stays, or behind `n` events that wait to be shipped -/
abbrev Screened (t : Tracked) (n : ℕ) : Prop :=
  ∀ e ∈ t.ship.db.memoryEvents, e.seq ∈ t.pulled → localOnly e.eventType = true ∨ ¬ InScope t.ship.db e ∨
    n ≤ ((t.ship.db.memoryEvents.filter (shipEligible t.ship.db)).filter fun f => f.seq < e.seq).length

/-- a round that starts finds the pulled events screened -/
def Quiet (t : Tracked) : ShipOp → Prop
  | .send n => t.ship.sent = none → Screened t n
  | _ => True

instance (t : Tracked) : ∀ op, Decidable (Quiet t op)
  | .send n => inferInstanceAs (Decidable (t.ship.sent = none → Screened t n))
  | .other _ | .answer _ | .crash _ | .unreject _ | .prune _ _ => isTrue trivial

/-- pulled rows carry no mark, and no request holds one -/
structure Unshipped (t : Tracked) : Prop where
  ordered : SeqOrdered t.ship.db
  old : ∀ q ∈ t.pulled, q ≤ t.ship.db.seqHigh
  unmarked : ∀ e ∈ t.ship.db.memoryEvents, e.seq ∈ t.pulled → e.syncedAt = none ∧ e.rejectedAt = none
  notSent : ∀ rows, t.ship.sent = some rows → ∀ r ∈ rows, r.seq ≤ t.ship.db.seqHigh ∧ r.seq ∉ t.pulled

theorem Quiet.not_echoes (ht : SeqOrdered t.ship.db) (h : Quiet t op) : ¬ Echoes t op := by
  rintro ⟨n, rfl, hsent, r, hr, hpulled⟩
  obtain ⟨hmem, helig, -⟩ := mem_listUnsynced hr
  obtain ⟨-, -, hlocal, hin⟩ := shipEligible_iff.1 helig
  rcases h hsent r.toMemoryEvent hmem hpulled with hl | hs | hfull
  · rw [hlocal] at hl
    cases hl
  · exact hs hin
  · have hlt := (listUnsynced_iff ht hmem helig n).1 ⟨r, hr, rfl⟩
    omega

theorem Unshipped.quiet (ht : Unshipped t) (h : ¬ Echoes t op) : Quiet t op := by
  cases op with
  | send n =>
    intro hsent e he hpulled
    by_contra hc
    simp only [not_or, not_not, Bool.not_eq_true, not_le] at hc
    obtain ⟨hlocal, hin, hroom⟩ := hc
    obtain ⟨hsync, hrej⟩ := ht.unmarked e he hpulled
    have helig := shipEligible_iff.2 ⟨hsync, hrej, hlocal, hin⟩
    obtain ⟨r, hr, hseq⟩ := (listUnsynced_iff ht.ordered he helig n).2 hroom
    exact h ⟨n, rfl, hsent, r, hr, hseq ▸ hpulled⟩
  | _ => trivial

/-- a mark needs a request that held the row -/
theorem Unshipped.not_marked (ht : Unshipped t) {q : ℕ} (hq : q ∈ t.pulled) :
    ¬ Acks t.ship op q ∧ ¬ Rejects t.ship op q := by
  constructor
  · rintro ⟨rows, -, hsent, -, hmem, -⟩
    obtain ⟨r, hr, rfl⟩ := List.mem_map.1 hmem
    exact (ht.notSent rows hsent r hr).2 hq
  · rintro ⟨rows, -, hsent, -, hmem, -⟩
    obtain ⟨r, hr, rfl⟩ := List.mem_map.1 hmem
    exact (ht.notSent rows hsent r hr).2 hq

/-- **Step.** An event of the run that does not echo keeps pulled rows unmarked and out of requests. -/
theorem Unshipped.step (ht : Unshipped t) (h : ¬ Echoes t op) : Unshipped (trackStep E t op) where
  ordered := ht.ordered.shipStep op
  old q hq := by
    rcases List.mem_append.1 hq with hq | hq
    · exact (ht.old q hq).trans (seqHigh_le E t.ship op)
    · obtain ⟨-, -, e, he, rfl⟩ := arrivals_new hq
      exact (ht.ordered.shipStep op).high e he
  unmarked e he hq := by
    rcases shipStep_row he with ⟨-, hnone⟩ | ⟨f, hf, hef, hsync, hrej⟩
    · exact hnone
    · have hle := ht.ordered.high f hf
      rcases List.mem_append.1 hq with hq | hq
      · obtain ⟨hs, hr⟩ := ht.unmarked f hf (hef.2 ▸ hq)
        obtain ⟨hack, hreject⟩ : ¬ Acks t.ship op _ ∧ ¬ Rejects t.ship op _ := ht.not_marked hq
        rw [hs] at hsync
        rw [hr] at hrej
        refine ⟨hsync.resolve_right hack, ?_⟩
        rcases hrej with hrej | hrej | hrej
        · exact hrej
        · exact hrej
        · exact absurd hrej hreject
      · have hlt := (arrivals_new hq).1
        have hseq := hef.2
        omega
  notSent rows hrows r hr := by
    rcases shipStep_sent (E := E) t.ship op with hsent | hsent | ⟨n, rfl, hidle, heq⟩
    · obtain ⟨hle, hnot⟩ := ht.notSent rows (hsent ▸ hrows) r hr
      refine ⟨hle.trans (seqHigh_le E t.ship op), fun hq => ?_⟩
      rcases List.mem_append.1 hq with hq | hq
      · exact hnot hq
      · have hlt := (arrivals_new hq).1
        omega
    · rw [trackStep, hsent] at hrows
      cases hrows
    · rw [trackStep, heq] at hrows
      obtain rfl := Option.some.inj hrows
      refine ⟨(ht.ordered.high _ (mem_listUnsynced hr).1).trans (seqHigh_le E t.ship (.send n)), fun hq => ?_⟩
      rcases List.mem_append.1 hq with hq | hq
      · exact h ⟨n, rfl, hidle, r, hr, hq⟩
      · cases hq

theorem unshipped_start {db : St} (h : SeqOrdered db) : Unshipped ⟨⟨db, none⟩, []⟩ where
  ordered := h
  old _ hq := by cases hq
  unmarked _ _ hq := by cases hq
  notSent _ hrows := by cases hrows

/-- **No echo.** No round of a run selects a pulled event iff the run goes along `Quiet`. -/
theorem no_echo (E : Env) (db : St) (hdb : SeqOrdered db) (ops : List ShipOp) :
    (∀ pre op post, ops = pre ++ op :: post → ¬ Echoes (trackRun E ⟨⟨db, none⟩, []⟩ pre) op) ↔
      Along (trackStep E) Quiet ⟨⟨db, none⟩, []⟩ ops := by
  have hgo : ∀ t, Unshipped t → ((∀ pre op post, ops = pre ++ op :: post → ¬ Echoes (trackRun E t pre) op) ↔
      Along (trackStep E) Quiet t ops) := by
    induction ops with
    | nil =>
      intro t _
      refine ⟨fun _ => trivial, fun _ pre op post h => ?_⟩
      simp at h
    | cons o ops ih =>
      intro t ht
      constructor
      · intro h
        have hnow : ¬ Echoes t o := h [] o ops rfl
        refine ⟨ht.quiet hnow, (ih _ (ht.step hnow)).1 fun pre op post hops => ?_⟩
        exact h (o :: pre) op post (by rw [hops]; rfl)
      · rintro ⟨hq, hrest⟩
        have hnow := hq.not_echoes ht.ordered
        have hlater := (ih _ (ht.step hnow)).2 hrest
        intro pre op post hops
        cases pre with
        | nil =>
          rw [List.nil_append, List.cons.injEq] at hops
          exact hops.1 ▸ hnow
        | cons p pre =>
          rw [List.cons_append, List.cons.injEq] at hops
          obtain ⟨rfl, hops⟩ := hops
          exact hlater pre op post hops
  exact hgo _ (unshipped_start hdb)

/-! ## A run that echoes, and one that does not -/

/-- one team memory of another device -/
def pulledCreate : PullBatch := ⟨[createEvent 900 7 10], some 1⟩

/-- the same, of a private memory -/
def pulledPrivate : PullBatch :=
  ⟨[{ createEvent 900 7 10 with atomSnapshot := some { snapshot 7 "text" with scope := .priv } }], some 1⟩

theorem no_echo_private :
    (trackRun countingEnv ⟨⟨{}, none⟩, []⟩ [.other (.pull pulledPrivate)]).pulled = [1] ∧
    ∀ pre op post, [.other (.pull pulledPrivate), .send 5] = pre ++ op :: post →
      ¬ Echoes (trackRun countingEnv ⟨⟨{}, none⟩, []⟩ pre) op :=
  ⟨by decide, (no_echo countingEnv {} seqOrdered_empty _).2 (by decide)⟩

/-- **A pulled event ships back.** The round after the pull selects the event the pull brought. -/
theorem pulled_event_ships_back :
    ∃ r ∈ listUnsynced (trackRun countingEnv ⟨⟨{}, none⟩, []⟩ [.other (.pull pulledCreate)]).ship.db 5,
      r.seq ∈ (trackRun countingEnv ⟨⟨{}, none⟩, []⟩ [.other (.pull pulledCreate)]).pulled ∧ r.eventId = 900 := by
  decide

end AstramemLocal.Daemon
