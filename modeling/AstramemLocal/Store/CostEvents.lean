/-
The cost ledger, `cost_events`. Two capture paths deliver the usage of one exchange, each with its own time stamp: the
proxy tee and the OTel export. `recordCostEvent` finds the row of the exchange by a hash over provider, model, token
counts and a time bucket, looked up in the bucket of the delivery and in its two neighbours. The stored key keeps the
bucket of the first delivery also when an OTel delivery replaces the facts of the row.

- `exchange_recorded_once`: over every run, deliveries of one exchange that lie at most one bucket length apart leave
  one row, an OTel row if and only if OTel delivered; no row of another exchange is touched.
- `record_keyed`: the UNIQUE index on `dedup_key` holds in every ledger.
- `bars_collide`: two exchanges whose provider and model differ only in where a `|` stands between them share their key.
-/
import AstramemLocal.Core.Joined
import AstramemLocal.Core.Runs
import AstramemLocal.Core.Table
import Mathlib.Data.List.Induction

namespace AstramemLocal.Store

open AstramemLocal.Core

/-! ## Model -/

inductive CostEventSource where
  | proxy
  | otel
deriving DecidableEq, Repr

structure CostEventInput where
  source : CostEventSource
  capturedAtMs : ℤ
  provider : String
  model : Option String
  inputTokens : Option ℤ
  outputTokens : Option ℤ
  cacheReadInputTokens : Option ℤ
  cacheCreationInputTokens : Option ℤ
  stopReason : Option String
  truncated : Bool
  sessionKey : String
  agentRole : Option String
deriving DecidableEq, Repr

/-- a row of cost_events; `facts` are the columns an UPDATE overwrites -/
structure CostEventRow where
  id : ℕ
  facts : CostEventInput
  dedupKey : String
  createdAt : ℤ
deriving DecidableEq, Repr

/-- the table, and what AUTOINCREMENT hands out next -/
structure CostLedger where
  rows : List CostEventRow
  nextId : ℕ
deriving DecidableEq, Repr

structure RecordCostEventResult where
  inserted : Bool
  preferred : Bool
deriving DecidableEq, Repr

def dedupTimeBucketMs : ℤ := 5000

def dedupField : Option ℤ → String
  | none => "null"
  | some v => toString v

def dedupBasis (input : CostEventInput) (bucket : ℤ) : String :=
  "|".intercalate
    [input.provider, input.model.getD "null", toString bucket, dedupField input.inputTokens,
      dedupField input.outputTokens, dedupField input.cacheReadInputTokens, dedupField input.cacheCreationInputTokens]

def bucketOf (input : CostEventInput) : ℤ := input.capturedAtMs / dedupTimeBucketMs

section

variable (contentHash : String → String)

def computeDedupKey (input : CostEventInput) : String := contentHash (dedupBasis input (bucketOf input))

def computeDedupKeyCandidates (input : CostEventInput) : List String :=
  [bucketOf input - 1, bucketOf input, bucketOf input + 1].map fun b => contentHash (dedupBasis input b)

/-- how far a row lies from a time -/
def CostEventRow.distance (row : CostEventRow) (t : ℤ) : ℕ := (row.facts.capturedAtMs - t).natAbs

/-- `matches.reduce(..)`: of rows at one distance the first stays -/
def closest (t : ℤ) : List CostEventRow → Option CostEventRow
  | [] => none
  | first :: rest => some (rest.foldl (fun closest row => if row.distance t < closest.distance t then row else closest) first)

def recordCostEvent (db : CostLedger) (input : CostEventInput) (now : ℤ) : CostLedger × RecordCostEventResult :=
  let candidates := computeDedupKeyCandidates contentHash input
  match closest input.capturedAtMs (db.rows.filter (·.dedupKey ∈ candidates)) with
  | none =>
    (⟨db.rows ++ [⟨db.nextId, input, computeDedupKey contentHash input, now⟩], db.nextId + 1⟩, ⟨true, true⟩)
  | some existing =>
    if existing.facts.source = .proxy ∧ input.source = .otel then
      ({ db with rows := updateWhere (·.id = existing.id) (fun r => { r with facts := input }) db.rows }, ⟨false, true⟩)
    else (db, ⟨false, false⟩)

/-- one delivery, and the time it is recorded at -/
structure Delivery where
  input : CostEventInput
  now : ℤ
deriving DecidableEq, Repr

def deliver (db : CostLedger) (d : Delivery) : CostLedger := (recordCostEvent contentHash db d.input d.now).1

def emptyLedger : CostLedger := ⟨[], 1⟩

end

/-! ## What a key says -/

/-- what two deliveries of one exchange agree on -/
structure Exchange where
  provider : String
  model : Option String
  inputTokens : Option ℤ
  outputTokens : Option ℤ
  cacheReadInputTokens : Option ℤ
  cacheCreationInputTokens : Option ℤ
deriving DecidableEq, Repr

def CostEventInput.exchange (i : CostEventInput) : Exchange :=
  ⟨i.provider, i.model, i.inputTokens, i.outputTokens, i.cacheReadInputTokens, i.cacheCreationInputTokens⟩

def Exchange.counts (x : Exchange) : List (Option ℤ) :=
  [x.inputTokens, x.outputTokens, x.cacheReadInputTokens, x.cacheCreationInputTokens]

/-- what the key holds of an exchange: provider and model as one text, and the token counts -/
def Exchange.label (x : Exchange) : String × List (Option ℤ) := (x.provider ++ "|" ++ x.model.getD "null", x.counts)

/-- two exchanges differ in provider, in a model that both have, or in a token count -/
def Exchange.Differs (x y : Exchange) : Prop :=
  x.provider ≠ y.provider ∨ (x.model ≠ y.model ∧ x.model ≠ none ∧ y.model ≠ none) ∨ x.counts ≠ y.counts

instance (x y : Exchange) : Decidable (x.Differs y) := by
  unfold Exchange.Differs
  infer_instance

theorem dedupField_bar (v : Option ℤ) : '|' ∉ (dedupField v).toList := by
  cases v with
  | none => decide
  | some n =>
    intro h
    rcases intText_chars h with h | h
    · exact absurd h (by decide)
    · exact absurd h (by decide)

theorem dedupField_inj {v w : Option ℤ} (h : dedupField v = dedupField w) : v = w := by
  -- no integer reads "null": its text holds no letter
  have hnull : ∀ n : ℤ, dedupField (some n) ≠ dedupField none := by
    intro n h
    have hmem : 'n' ∈ (toString n).toList := by
      rw [show toString n = "null" from h]
      decide
    rcases intText_chars hmem with h | h
    · exact absurd h (by decide)
    · exact absurd h (by decide)
  cases v with
  | none =>
    cases w with
    | none => rfl
    | some n => exact absurd h.symm (hnull n)
  | some m =>
    cases w with
    | none => exact absurd h (hnull m)
    | some n => rw [intText_inj h]

/-- **The key.** The text that is hashed determines the label of the exchange and the bucket, and nothing else. -/
theorem dedupBasis_inj {i j : CostEventInput} {b b' : ℤ} :
    dedupBasis i b = dedupBasis j b' ↔ i.exchange.label = j.exchange.label ∧ b = b' := by
  have hparts : ∀ (k : CostEventInput) (b : ℤ), dedupBasis k b = (String.singleton '|').intercalate
      (k.exchange.label.1 :: toString b :: k.exchange.counts.map dedupField) := fun k b => joined_cons _ _ _ _
  have hbars : ∀ (k : CostEventInput) (b : ℤ), ∀ s ∈ toString b :: k.exchange.counts.map dedupField, '|' ∉ s.toList := by
    intro k b s hs
    rcases List.mem_cons.1 hs with rfl | hs
    · exact dedupField_bar (some b)
    · obtain ⟨v, -, rfl⟩ := List.mem_map.1 hs
      exact dedupField_bar v
  constructor
  · intro h
    rw [hparts, hparts] at h
    have hlength : (toString b :: i.exchange.counts.map dedupField).length =
        (toString b' :: j.exchange.counts.map dedupField).length := by
      simp [Exchange.counts]
    obtain ⟨hname, hrest⟩ := joined_inj hlength (hbars i b) (hbars j b') h
    obtain ⟨hbucket, hcounts⟩ := List.cons.inj hrest
    refine ⟨Prod.ext hname ?_, intText_inj hbucket⟩
    exact (List.map_injective_iff.2 fun _ _ => dedupField_inj) hcounts
  · rintro ⟨hlabel, rfl⟩
    have hcounts : i.exchange.counts = j.exchange.counts := congrArg Prod.snd hlabel
    rw [hparts, hparts, hlabel, hcounts]

/-- where no provider holds a `|`, exchanges that differ have different labels -/
theorem label_ne_of_differs {x y : Exchange} (h : x.Differs y) (hx : '|' ∉ x.provider.toList)
    (hy : '|' ∉ y.provider.toList) : x.label ≠ y.label := by
  intro hlabel
  have hname : x.provider.toList ++ '|' :: (x.model.getD "null").toList =
      y.provider.toList ++ '|' :: (y.model.getD "null").toList := by
    simpa [Exchange.label] using congrArg String.toList (congrArg Prod.fst hlabel)
  obtain ⟨hprovider, hmodel⟩ := sep_append_inj hx hy hname
  rcases h with h | ⟨hne, hxm, hym⟩ | h
  · exact h (String.toList_inj.1 hprovider)
  · obtain ⟨m, hm⟩ := Option.ne_none_iff_exists'.1 hxm
    obtain ⟨n, hn⟩ := Option.ne_none_iff_exists'.1 hym
    rw [hm, hn, Option.getD_some, Option.getD_some, String.toList_inj] at hmodel
    exact hne (by rw [hm, hn, hmodel])
  · exact h (congrArg Prod.snd hlabel)

section

variable {contentHash : String → String} {db : CostLedger} {input i j : CostEventInput} {now : ℤ}

/-- the key of one delivery is looked up by another when both have one label and lie at most one bucket apart -/
theorem key_mem_candidates (hinj : Function.Injective contentHash) :
    computeDedupKey contentHash j ∈ computeDedupKeyCandidates contentHash i ↔
      j.exchange.label = i.exchange.label ∧ (bucketOf j - bucketOf i).natAbs ≤ 1 := by
  have heq : ∀ b, computeDedupKey contentHash j = contentHash (dedupBasis i b) ↔
      j.exchange.label = i.exchange.label ∧ bucketOf j = b := fun b => hinj.eq_iff.trans dedupBasis_inj
  simp only [computeDedupKeyCandidates, List.map_cons, List.map_nil, List.mem_cons, List.not_mem_nil, or_false, heq]
  constructor
  · intro h
    refine ⟨h.elim (·.1) fun h => h.elim (·.1) (·.1), ?_⟩
    omega
  · rintro ⟨hlabel, hnear⟩
    have hbucket : bucketOf j = bucketOf i - 1 ∨ bucketOf j = bucketOf i ∨ bucketOf j = bucketOf i + 1 := by omega
    exact hbucket.imp (⟨hlabel, ·⟩) (Or.imp (⟨hlabel, ·⟩) (⟨hlabel, ·⟩))

/-- deliveries at most one bucket length apart fall into one bucket or into neighbours -/
theorem buckets_near (h : (i.capturedAtMs - j.capturedAtMs).natAbs ≤ 5000) : (bucketOf i - bucketOf j).natAbs ≤ 1 := by
  unfold bucketOf dedupTimeBucketMs
  omega

/-! ## One delivery -/

theorem closest_mem {t : ℤ} {rows : List CostEventRow} {row : CostEventRow} (h : closest t rows = some row) :
    row ∈ rows := by
  cases rows with
  | nil => cases h
  | cons first rest =>
    rw [← Option.some.inj h]
    refine (foldl_rest (fun l r => (∀ a ∈ l, a ∈ first :: rest) ∧ r ∈ first :: rest) ?_
      ⟨fun a ha => List.mem_cons_of_mem first ha, List.mem_cons_self⟩).2
    intro a l r ⟨hl, hr⟩
    refine ⟨fun b hb => hl b (List.mem_cons_of_mem a hb), ?_⟩
    split
    · exact hl a List.mem_cons_self
    · exact hr

/-- **What a delivery does.** It inserts a row when none is looked up; otherwise it turns to a row that is, and replaces
its facts when OTel follows the proxy. -/
theorem recordCostEvent_cases (contentHash : String → String) (db : CostLedger) (input : CostEventInput) (now : ℤ) :
    ((∀ r ∈ db.rows, r.dedupKey ∉ computeDedupKeyCandidates contentHash input) ∧
      recordCostEvent contentHash db input now =
        (⟨db.rows ++ [⟨db.nextId, input, computeDedupKey contentHash input, now⟩], db.nextId + 1⟩, ⟨true, true⟩)) ∨
    ∃ existing ∈ db.rows, existing.dedupKey ∈ computeDedupKeyCandidates contentHash input ∧
      ((existing.facts.source = .proxy ∧ input.source = .otel ∧ recordCostEvent contentHash db input now =
        ({ db with rows := updateWhere (·.id = existing.id) (fun r => { r with facts := input }) db.rows }, ⟨false, true⟩)) ∨
      (¬ (existing.facts.source = .proxy ∧ input.source = .otel) ∧
        recordCostEvent contentHash db input now = (db, ⟨false, false⟩))) := by
  cases hclosest : closest input.capturedAtMs
      (db.rows.filter (·.dedupKey ∈ computeDedupKeyCandidates contentHash input)) with
  | none =>
    refine .inl ⟨fun r hr hkey => ?_, by simp only [recordCostEvent, hclosest]⟩
    have hmem : r ∈ db.rows.filter (·.dedupKey ∈ computeDedupKeyCandidates contentHash input) :=
      List.mem_filter.2 ⟨hr, by simpa using hkey⟩
    cases hrows : db.rows.filter (·.dedupKey ∈ computeDedupKeyCandidates contentHash input) with
    | nil =>
      rw [hrows] at hmem
      cases hmem
    | cons first rest =>
      rw [hrows] at hclosest
      cases hclosest
  | some existing =>
    obtain ⟨hmem, hkey⟩ := List.mem_filter.1 (closest_mem hclosest)
    refine .inr ⟨existing, hmem, by simpa using hkey, ?_⟩
    by_cases hwins : existing.facts.source = .proxy ∧ input.source = .otel
    · exact .inl ⟨hwins.1, hwins.2, by simp only [recordCostEvent, hclosest, if_pos hwins]⟩
    · exact .inr ⟨hwins, by simp only [recordCostEvent, hclosest, if_neg hwins]⟩

/-- the UNIQUE index on dedup_key holds in every ledger: a key is inserted only where it was looked up in vain -/
theorem record_keyed (h : Keyed (·.dedupKey) db.rows) :
    Keyed (·.dedupKey) (recordCostEvent contentHash db input now).1.rows := by
  rcases recordCostEvent_cases contentHash db input now with
    ⟨hfree, heq⟩ | ⟨existing, -, -, ⟨-, -, heq⟩ | ⟨-, heq⟩⟩
  · rw [heq]
    refine h.insert fun r hr hkey => hfree r hr ?_
    rw [hkey]
    simp [computeDedupKey, computeDedupKeyCandidates]
  · rw [heq]
    exact h.updateWhere fun _ => rfl
  · rw [heq]
    exact h

/-! ## Runs -/

/-- the delivery whose facts the row of an exchange holds: the first of OTel, or else the first of all -/
def winner (own : List CostEventInput) : Option CostEventInput := (own.find? (·.source = .otel)).or own.head?

theorem winner_mem {own : List CostEventInput} (h : winner own = some i) : i ∈ own := by
  rcases Option.or_eq_some_iff.1 h with h | ⟨-, h⟩
  · exact List.mem_of_find?_eq_some h
  · exact List.mem_of_head? h

theorem winner_eq_none {own : List CostEventInput} : winner own = none ↔ own = [] := by
  cases own with
  | nil => simp [winner]
  | cons i own => simp [winner]

theorem winner_otel {own : List CostEventInput} (h : winner own = some i) :
    i.source = .otel ↔ ∃ j ∈ own, j.source = .otel := by
  constructor
  · intro hotel
    exact ⟨i, winner_mem h, hotel⟩
  · rintro ⟨j, hj, hotel⟩
    rcases Option.or_eq_some_iff.1 h with h | ⟨hnone, -⟩
    · simpa using List.find?_some h
    · exact absurd hotel (by simpa using List.find?_eq_none.1 hnone j hj)

/-- a further delivery wins when it is the first, or the first of OTel -/
theorem winner_snoc (own : List CostEventInput) (i : CostEventInput) : winner (own ++ [i]) =
    match winner own with
    | none => some i
    | some w => if w.source = .proxy ∧ i.source = .otel then some i else some w := by
  cases hw : winner own with
  | none =>
    rw [winner_eq_none] at hw
    subst hw
    by_cases hotel : i.source = .otel <;> simp [winner, hotel]
  | some w =>
    have hne : own ≠ [] := fun hnil => by simp [hnil, winner] at hw
    obtain ⟨first, rest, rfl⟩ := List.exists_cons_of_ne_nil hne
    have hotel := winner_otel hw
    unfold winner at hw ⊢
    rw [List.find?_append]
    cases hfind : (first :: rest).find? (·.source = .otel) with
    | some v =>
      rw [hfind, Option.some_or, Option.some.injEq] at hw
      subst hw
      have hv : v.source = .otel := by simpa using List.find?_some hfind
      simp [hv]
    | none =>
      rw [hfind, Option.none_or] at hw
      simp only [List.head?_cons, Option.some.injEq] at hw
      subst hw
      have hproxy : first.source = .proxy := by
        have hnot := List.find?_eq_none.1 hfind first List.mem_cons_self
        cases hs : first.source with
        | proxy => rfl
        | otel => simp [hs] at hnot
      by_cases hi : i.source = .otel <;> simp [hproxy, hi]

/-- the rows that hold facts of one exchange -/
def rowsOf (x : Exchange) (rows : List CostEventRow) : List CostEventRow := rows.filter (·.facts.exchange = x)

def deliveriesOf (x : Exchange) (seen : List CostEventInput) : List CostEventInput := seen.filter (·.exchange = x)

/-- what the ledger says after the deliveries `seen`, about an exchange `x` that no other among them is mistaken for -/
structure Recorded (contentHash : String → String) (x : Exchange) (seen : List CostEventInput) (db : CostLedger) :
    Prop where
  keyed : Keyed (·.id) db.rows
  fresh : ∀ r ∈ db.rows, r.id < db.nextId
  delivered : ∀ r ∈ db.rows, r.facts ∈ seen
  /-- the stored key is that of a delivery with the label of the row, not always of the one whose facts it holds -/
  stamped : ∀ r ∈ db.rows, ∃ i ∈ seen, i.exchange.label = r.facts.exchange.label ∧ r.dedupKey = computeDedupKey contentHash i
  own : (rowsOf x db.rows).map (·.facts) = (winner (deliveriesOf x seen)).toList

/-- the deliveries of `x` lie at most one bucket length apart, and no other delivery has its label -/
structure Recordable (x : Exchange) (seen : List CostEventInput) : Prop where
  others : ∀ i ∈ seen, i.exchange = x ∨ i.exchange.label ≠ x.label
  close : ∀ i ∈ seen, ∀ j ∈ seen, i.exchange = x → j.exchange = x → (i.capturedAtMs - j.capturedAtMs).natAbs ≤ 5000

variable {x : Exchange} {seen : List CostEventInput} {r : CostEventRow}

theorem Recordable.of_label (h : Recordable x seen) (hi : i ∈ seen) (hlabel : i.exchange.label = x.label) :
    i.exchange = x := (h.others i hi).resolve_right (not_not_intro hlabel)

theorem Recordable.initial (h : Recordable x (seen ++ [i])) : Recordable x seen where
  others j hj := h.others j (List.mem_append_left _ hj)
  close j hj k hk := h.close j (List.mem_append_left _ hj) k (List.mem_append_left _ hk)

/-- a delivery looks up the rows of its exchange -/
theorem Recorded.candidate_own (hinj : Function.Injective contentHash) (h : Recorded contentHash x seen db)
    (hrec : Recordable x (seen ++ [i])) (hi : i.exchange = x) (hr : r ∈ db.rows) :
    r.dedupKey ∈ computeDedupKeyCandidates contentHash i ↔ r.facts.exchange = x := by
  obtain ⟨j, hj, hlabel, hkey⟩ := h.stamped r hr
  have hlast : i ∈ seen ++ [i] := List.mem_append_right _ List.mem_cons_self
  have hj' : j ∈ seen ++ [i] := List.mem_append_left _ hj
  rw [hkey, key_mem_candidates hinj]
  constructor
  · intro hkeyed
    refine hrec.initial.of_label (h.delivered r hr) ?_
    rw [← hlabel, hkeyed.1, hi]
  · intro hx
    have hjx : j.exchange = x := hrec.of_label hj' (by rw [hlabel, hx])
    exact ⟨by rw [hjx, hi], buckets_near (hrec.close j hj' i hlast hjx hi)⟩

/-- and no row of an exchange with another label -/
theorem Recorded.candidate_other (hinj : Function.Injective contentHash) (h : Recorded contentHash x seen db)
    (hi : i.exchange.label ≠ x.label) (hr : r ∈ db.rows) (hkey : r.dedupKey ∈ computeDedupKeyCandidates contentHash i) :
    r.facts.exchange ≠ x := by
  obtain ⟨j, -, hlabel, hstamp⟩ := h.stamped r hr
  rw [hstamp, key_mem_candidates hinj] at hkey
  intro hx
  exact hi (by rw [← hkey.1, hlabel, hx])

/-- there is one row at most, with the facts of the winner -/
theorem Recorded.own_row (h : Recorded contentHash x seen db) (hr : r ∈ db.rows) (hx : r.facts.exchange = x) :
    rowsOf x db.rows = [r] ∧ winner (deliveriesOf x seen) = some r.facts := by
  have hmem : r ∈ rowsOf x db.rows := List.mem_filter.2 ⟨hr, by simpa using hx⟩
  have hown := h.own
  cases hw : winner (deliveriesOf x seen) with
  | none =>
    rw [hw, Option.toList_none, List.map_eq_nil_iff] at hown
    rw [hown] at hmem
    cases hmem
  | some w =>
    rw [hw, Option.toList_some, List.map_eq_singleton_iff] at hown
    obtain ⟨q, hq, hfacts⟩ := hown
    rw [hq, List.mem_singleton] at hmem
    subst hmem
    exact ⟨hq, by rw [hfacts]⟩

theorem Recorded.no_row (h : Recorded contentHash x seen db) (hnone : ∀ r ∈ db.rows, r.facts.exchange ≠ x) :
    rowsOf x db.rows = [] ∧ winner (deliveriesOf x seen) = none := by
  have hnil : rowsOf x db.rows = [] := List.filter_eq_nil_iff.2 fun r hr => by simpa using hnone r hr
  have hown := h.own
  rw [hnil, List.map_nil] at hown
  exact ⟨hnil, Option.toList_eq_nil_iff.1 hown.symm⟩

/-- what a delivery does to the rows of `x` and to the others -/
structure Untouched (contentHash : String → String) (x : Exchange) (db : CostLedger) (d : Delivery) : Prop where
  /-- a delivery of `x` touches no other row -/
  others : d.input.exchange = x →
    (deliver contentHash db d).rows.filter (·.facts.exchange ≠ x) = db.rows.filter (·.facts.exchange ≠ x)
  /-- a delivery of another exchange touches no row of `x` -/
  own : d.input.exchange ≠ x → rowsOf x (deliver contentHash db d).rows = rowsOf x db.rows
  /-- a delivery from the source that has won, or one that comes after OTel, changes nothing -/
  redelivered : d.input.exchange = x → ∀ r ∈ rowsOf x db.rows, r.facts.source = d.input.source ∨ r.facts.source = .otel →
    recordCostEvent contentHash db d.input d.now = (db, ⟨false, false⟩)

/-- the fields of `Recorded` that do not depend on `x` -/
theorem Recorded.step_shape (hinj : Function.Injective contentHash) (h : Recorded contentHash x seen db) (d : Delivery) :
    Keyed (·.id) (deliver contentHash db d).rows ∧
    (∀ r ∈ (deliver contentHash db d).rows, r.id < (deliver contentHash db d).nextId) ∧
    (∀ r ∈ (deliver contentHash db d).rows, r.facts ∈ seen ++ [d.input]) ∧
    ∀ r ∈ (deliver contentHash db d).rows, ∃ i ∈ seen ++ [d.input],
      i.exchange.label = r.facts.exchange.label ∧ r.dedupKey = computeDedupKey contentHash i := by
  have hlast : d.input ∈ seen ++ [d.input] := List.mem_append_right _ List.mem_cons_self
  have hdelivered : ∀ r ∈ db.rows, r.facts ∈ seen ++ [d.input] := fun r hr => List.mem_append_left _ (h.delivered r hr)
  have hstamped : ∀ r ∈ db.rows, ∃ i ∈ seen ++ [d.input],
      i.exchange.label = r.facts.exchange.label ∧ r.dedupKey = computeDedupKey contentHash i := by
    intro r hr
    obtain ⟨i, hi, hi'⟩ := h.stamped r hr
    exact ⟨i, List.mem_append_left _ hi, hi'⟩
  unfold deliver
  rcases recordCostEvent_cases contentHash db d.input d.now with
    ⟨-, heq⟩ | ⟨existing, hexisting, hkey, ⟨-, -, heq⟩ | ⟨-, heq⟩⟩
  · rw [heq]
    refine ⟨h.keyed.insert fun r hr hid => ?_, fun r hr => ?_, fun r hr => ?_, fun r hr => ?_⟩
    · have hlt := h.fresh r hr
      simp only at hid
      omega
    · rcases List.mem_append.1 hr with hr | hr
      · exact Nat.lt_succ_of_lt (h.fresh r hr)
      · rw [List.mem_singleton.1 hr]
        exact Nat.lt_succ_self _
    · rcases List.mem_append.1 hr with hr | hr
      · exact hdelivered r hr
      · rw [List.mem_singleton.1 hr]
        exact hlast
    · rcases List.mem_append.1 hr with hr | hr
      · exact hstamped r hr
      · rw [List.mem_singleton.1 hr]
        exact ⟨d.input, hlast, rfl, rfl⟩
  · rw [heq]
    refine ⟨h.keyed.updateWhere fun _ => rfl, fun r hr => ?_, fun r hr => ?_, fun r hr => ?_⟩
    · obtain ⟨q, hq, rfl⟩ := mem_updateWhere.1 hr
      split
      · exact h.fresh q hq
      · exact h.fresh q hq
    · obtain ⟨q, hq, rfl⟩ := mem_updateWhere.1 hr
      split
      · exact hlast
      · exact hdelivered q hq
    · obtain ⟨q, hq, rfl⟩ := mem_updateWhere.1 hr
      split
      next hid =>
        -- the row that is replaced was looked up, so the delivery its key comes from has the label of this one
        obtain rfl := h.keyed.inj hq hexisting hid
        obtain ⟨i, hi, -, hstamp⟩ := h.stamped q hq
        rw [hstamp, key_mem_candidates hinj] at hkey
        exact ⟨i, List.mem_append_left _ hi, hkey.1, hstamp⟩
      next => exact hstamped q hq
  · rw [heq]
    exact ⟨h.keyed, h.fresh, hdelivered, hstamped⟩

/-- a row that is replaced is the only one with its id, so a selection that holds of it as it holds of the delivery is
kept -/
theorem filter_replaced {existing : CostEventRow} {q : Exchange → Prop} [DecidablePred q] (hkeyed : Keyed (·.id) db.rows)
    (hexisting : existing ∈ db.rows) (hq : q input.exchange ↔ q existing.facts.exchange) :
    (updateWhere (·.id = existing.id) (fun r => { r with facts := input }) db.rows).filter (q ·.facts.exchange) =
      updateWhere (·.id = existing.id) (fun r => { r with facts := input }) (db.rows.filter (q ·.facts.exchange)) := by
  refine filter_updateWhere (q := fun r : CostEventRow => q r.facts.exchange) fun r hr hid => ?_
  obtain rfl := hkeyed.inj hr hexisting hid
  exact hq

/-- when the replaced row is not selected, the selected rows stay as they are -/
theorem filter_replaced_out {existing : CostEventRow} {q : Exchange → Prop} [DecidablePred q]
    (hkeyed : Keyed (·.id) db.rows) (hexisting : existing ∈ db.rows) (hinput : ¬ q input.exchange)
    (hout : ¬ q existing.facts.exchange) :
    (updateWhere (·.id = existing.id) (fun r => { r with facts := input }) db.rows).filter (q ·.facts.exchange) =
      db.rows.filter (q ·.facts.exchange) := by
  rw [filter_replaced hkeyed hexisting (iff_of_false hinput hout)]
  refine updateWhere_eq_self fun r hr hid => hout ?_
  obtain ⟨hr, hq⟩ := List.mem_filter.1 hr
  obtain rfl := hkeyed.inj hr hexisting hid
  simpa using hq

/-- **A delivery of the exchange.** It inserts the row, replaces it, or finds its source beaten. -/
theorem Recorded.deliver_own (hinj : Function.Injective contentHash) (h : Recorded contentHash x seen db) {d : Delivery}
    (hrec : Recordable x (seen ++ [d.input])) (hd : d.input.exchange = x) :
    (rowsOf x (deliver contentHash db d).rows).map (·.facts) = (winner (deliveriesOf x seen ++ [d.input])).toList ∧
      Untouched contentHash x db d := by
  rcases recordCostEvent_cases contentHash db d.input d.now with
    ⟨hfree, heq⟩ | ⟨existing, hexisting, hkey, hsource⟩
  · obtain ⟨hrows, hnone⟩ := h.no_row fun r hr hx => hfree r hr ((h.candidate_own hinj hrec hd hr).2 hx)
    refine ⟨?_, fun _ => ?_, fun hne => absurd hd hne, fun _ r hr => ?_⟩
    · rw [winner_snoc, hnone, deliver, heq, rowsOf, List.filter_append, ← rowsOf, hrows]
      simp [hd]
    · rw [deliver, heq, List.filter_append]
      simp [hd]
    · rw [hrows] at hr
      cases hr
  · have hx := (h.candidate_own hinj hrec hd hexisting).1 hkey
    obtain ⟨hrows, hwinner⟩ := h.own_row hexisting hx
    rcases hsource with ⟨hproxy, hotel, heq⟩ | ⟨hbeaten, heq⟩
    · refine ⟨?_, fun _ => ?_, fun hne => absurd hd hne, fun _ r hr hwon => ?_⟩
      · have hkept := filter_replaced (q := (· = x)) h.keyed hexisting (iff_of_true hd hx)
        rw [winner_snoc, hwinner, deliver, heq, rowsOf, hkept, ← rowsOf, hrows]
        simp [updateWhere, hproxy, hotel]
      · rw [deliver, heq]
        exact filter_replaced_out (q := (· ≠ x)) h.keyed hexisting (not_not_intro hd) (not_not_intro hx)
      · rw [hrows, List.mem_singleton] at hr
        subst hr
        rw [hproxy, hotel] at hwon
        simp at hwon
    · refine ⟨?_, fun _ => ?_, fun hne => absurd hd hne, fun _ _ _ _ => heq⟩
      · rw [winner_snoc, hwinner, deliver, heq, hrows]
        simp [hbeaten]
      · rw [deliver, heq]

/-- **A delivery of another exchange.** It looks up no row of `x`. -/
theorem Recorded.deliver_other (hinj : Function.Injective contentHash) (h : Recorded contentHash x seen db) {d : Delivery}
    (hlabel : d.input.exchange.label ≠ x.label) : rowsOf x (deliver contentHash db d).rows = rowsOf x db.rows := by
  have hd : d.input.exchange ≠ x := fun hx => hlabel (by rw [hx])
  rcases recordCostEvent_cases contentHash db d.input d.now with
    ⟨-, heq⟩ | ⟨existing, hexisting, hkey, ⟨-, -, heq⟩ | ⟨-, heq⟩⟩
  · rw [deliver, heq, rowsOf, List.filter_append]
    simp [hd, rowsOf]
  · rw [deliver, heq]
    exact filter_replaced_out (q := (· = x)) h.keyed hexisting hd (h.candidate_other hinj hlabel hexisting hkey)
  · rw [deliver, heq]

/-- **Step lemma.** -/
theorem Recorded.step (hinj : Function.Injective contentHash) (h : Recorded contentHash x seen db) {d : Delivery}
    (hrec : Recordable x (seen ++ [d.input])) :
    Recorded contentHash x (seen ++ [d.input]) (deliver contentHash db d) ∧ Untouched contentHash x db d := by
  obtain ⟨hkeyed, hfresh, hdelivered, hstamped⟩ := h.step_shape hinj d
  have hsnoc : deliveriesOf x (seen ++ [d.input]) =
      deliveriesOf x seen ++ if d.input.exchange = x then [d.input] else [] := by
    rw [deliveriesOf, List.filter_append]
    by_cases hx : d.input.exchange = x <;> simp [hx, deliveriesOf]
  rcases hrec.others d.input (List.mem_append_right _ List.mem_cons_self) with hd | hlabel
  · obtain ⟨hown, huntouched⟩ := h.deliver_own hinj hrec hd
    exact ⟨⟨hkeyed, hfresh, hdelivered, hstamped, by rw [hsnoc, if_pos hd, hown]⟩, huntouched⟩
  · have hd : d.input.exchange ≠ x := fun hx => hlabel (by rw [hx])
    have hown := h.deliver_other hinj hlabel
    refine ⟨⟨hkeyed, hfresh, hdelivered, hstamped, ?_⟩, fun hx => absurd hx hd, fun _ => hown, fun hx => absurd hx hd⟩
    rw [hsnoc, if_neg hd, List.append_nil, hown, h.own]

/-- **Run lemma.** -/
theorem recorded_run (hinj : Function.Injective contentHash) (x : Exchange) (ops : List Delivery)
    (hrec : Recordable x (ops.map (·.input))) :
    Recorded contentHash x (ops.map (·.input)) (ops.foldl (deliver contentHash) emptyLedger) := by
  induction ops using List.reverseRecOn with
  | nil => exact ⟨List.nodup_nil, by simp [emptyLedger], by simp [emptyLedger], by simp [emptyLedger], rfl⟩
  | append_singleton ops d ih =>
    rw [List.map_append] at hrec ⊢
    rw [List.foldl_append]
    exact ((ih hrec.initial).step hinj hrec).1

/-- the ledger holds one row of `x` when `x` was delivered, with the facts of a delivery, of OTel if OTel delivered;
and no delivery touched a row it should not -/
def RecordedOnce (contentHash : String → String) (x : Exchange) (ops : List Delivery) : Prop :=
  let own := deliveriesOf x (ops.map (·.input))
  let rows := rowsOf x (ops.foldl (deliver contentHash) emptyLedger).rows
  (own = [] → rows = []) ∧
  (own ≠ [] → ∃ row, rows = [row] ∧ row.facts ∈ own ∧ (row.facts.source = .otel ↔ ∃ i ∈ own, i.source = .otel)) ∧
  Along (deliver contentHash) (Untouched contentHash x) emptyLedger ops

/-- **The ledger counts an exchange once.** Deliveries of one exchange within one bucket length of each other, in any
order, repeated, and among deliveries of exchanges with other labels, leave one row. -/
theorem exchange_recorded_once (contentHash : String → String) (hinj : Function.Injective contentHash) (x : Exchange)
    (ops : List Delivery) (hothers : ∀ d ∈ ops, d.input.exchange = x ∨ d.input.exchange.label ≠ x.label)
    (hclose : ∀ d ∈ ops, ∀ d' ∈ ops, d.input.exchange = x → d'.input.exchange = x →
      (d.input.capturedAtMs - d'.input.capturedAtMs).natAbs ≤ 5000) :
    RecordedOnce contentHash x ops := by
  have hrec : ∀ pre, pre <+: ops → Recordable x (pre.map (·.input)) := by
    intro pre hpre
    constructor
    · intro i hi
      obtain ⟨d, hd, rfl⟩ := List.mem_map.1 hi
      exact hothers d (hpre.mem hd)
    · intro i hi j hj
      obtain ⟨d, hd, rfl⟩ := List.mem_map.1 hi
      obtain ⟨e, he, rfl⟩ := List.mem_map.1 hj
      exact hclose d (hpre.mem hd) e (hpre.mem he)
  have hrun := recorded_run hinj x ops (hrec ops (List.prefix_refl ops))
  refine ⟨fun hnone => ?_, fun hsome => ?_, along_iff.2 fun pre d hpre => ?_⟩
  · have hown := hrun.own
    rw [hnone] at hown
    exact List.map_eq_nil_iff.1 hown
  · obtain ⟨w, hw⟩ := Option.ne_none_iff_exists'.1 (mt winner_eq_none.1 hsome)
    have hown := hrun.own
    rw [hw, Option.toList_some, List.map_eq_singleton_iff] at hown
    obtain ⟨row, hrow, rfl⟩ := hown
    exact ⟨row, hrow, winner_mem hw, winner_otel hw⟩
  · have hsnoc := hrec _ hpre
    rw [List.map_append] at hsnoc
    have hbefore := recorded_run hinj x pre (hrec pre ((List.prefix_append pre [d]).trans hpre))
    exact (hbefore.step hinj hsnoc).2

end

/-! ### Witnesses -/

/-- one exchange of a thousand input tokens -/
def sample (source : CostEventSource) (provider model : String) (t : ℤ) (sessionKey : String) : Delivery :=
  ⟨⟨source, t, provider, some model, some 1000, some 500, none, none, some "end_turn", false, sessionKey, none⟩, t + 1000⟩

/-- the two time stamps straddle a bucket boundary, the proxy delivers again, and another model is delivered between -/
theorem straddling_recorded_once :
    let ops := [sample .proxy "anthropic" "claude-sonnet-5" 4999 "proxy-1", sample .proxy "openai" "gpt-5" 5000 "proxy-2",
      sample .otel "anthropic" "claude-sonnet-5" 5001 "session", sample .proxy "anthropic" "claude-sonnet-5" 9999 "proxy-1"]
    RecordedOnce id (sample .otel "anthropic" "claude-sonnet-5" 0 "").input.exchange ops ∧
      (ops.foldl (deliver id) emptyLedger).rows.map (·.facts.sessionKey) = ["session", "proxy-2"] :=
  ⟨exchange_recorded_once id Function.injective_id _ _ (by decide) (by decide), by decide⟩

/-- Two exchanges of different providers and models, told apart by nothing that the key holds: the second is dropped as
a replay of the first. -/
theorem bars_collide : ¬ ∀ (contentHash : String → String), Function.Injective contentHash →
    ∀ (x : Exchange) (ops : List Delivery), (∀ d ∈ ops, d.input.exchange = x ∨ x.Differs d.input.exchange) →
      (∀ d ∈ ops, ∀ d' ∈ ops, d.input.exchange = x → d'.input.exchange = x →
        (d.input.capturedAtMs - d'.input.capturedAtMs).natAbs ≤ 5000) → RecordedOnce contentHash x ops := by
  intro h
  obtain ⟨-, hone, -⟩ := h id Function.injective_id (sample .proxy "a" "b|c" 0 "second").input.exchange
    [sample .proxy "a|b" "c" 0 "first", sample .proxy "a" "b|c" 0 "second"] (by decide) (by decide)
  obtain ⟨row, hrow, -⟩ := hone (by decide)
  have hnone : rowsOf (sample .proxy "a" "b|c" 0 "second").input.exchange
      ([sample .proxy "a|b" "c" 0 "first", sample .proxy "a" "b|c" 0 "second"].foldl (deliver id) emptyLedger).rows = [] := by
    decide
  rw [hnone] at hrow
  cases hrow

end AstramemLocal.Store
