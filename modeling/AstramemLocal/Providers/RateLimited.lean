/-
`TokenBucket` (`src/providers/llm/rate-limited.ts`): one bucket that any number of callers share, over exact rationals. A
caller is a call of `acquire`; each round of its loop reads the clock once, and between two rounds anything else happens.
The clock is the wall clock, so a reading may lie before an earlier one.

- `acquisitions_bounded`: in every run at most `capacity` callers, and `ratePerMinute` more for each minute the clock goes
  forward, get a token.
- `tokens_range`: the token count stays within 0 and `capacity`.
- `bucket_survives`: in a run whose readings never lie before an earlier one, tokens accrue with the forward time, and a
  minute over `ratePerMinute` of forward time is enough for a caller to get one.
- `waits_out_jump`: after a backward jump nothing accrues until the clock is back where it was.
-/
import AstramemLocal.Core.Runs
import Mathlib.Algebra.Order.Floor.Ring
import Mathlib.Data.Rat.Floor
import Mathlib.Tactic.Linarith
import Mathlib.Tactic.Positivity
import Mathlib.Tactic.Ring

namespace AstramemLocal.Providers.RateLimited

open AstramemLocal.Core

/-! ## Forward time -/

/-- the time a clock with these readings has gone forward, backward jumps apart -/
def forward : List ℚ → ℚ
  | a :: b :: rest => max 0 (b - a) + forward (b :: rest)
  | _ => 0

@[simp] theorem forward_nil : forward [] = 0 := rfl

@[simp] theorem forward_singleton (a : ℚ) : forward [a] = 0 := rfl

@[simp] theorem forward_cons (a b : ℚ) (rest : List ℚ) :
    forward (a :: b :: rest) = max 0 (b - a) + forward (b :: rest) := rfl

/-! ## The bucket -/

/-- what a bucket is built with: `rateLimitLLMProvider` makes none for a rate that is not positive, and its capacity is at
least one token -/
structure Limits where
  ratePerMinute : ℚ
  capacity : ℚ
  rate_pos : 0 < ratePerMinute
  one_le_capacity : 1 ≤ capacity

/-- the limits `rateLimitLLMProvider` chooses -/
def rateLimitLLMProvider (callsPerMinute : ℚ) (h : 0 < callsPerMinute) : Limits where
  ratePerMinute := callsPerMinute
  capacity := max 1 ⌈callsPerMinute / 6⌉
  rate_pos := h
  one_le_capacity := le_max_left 1 _

structure TokenBucket where
  tokens : ℚ
  lastRefillMs : ℚ
deriving DecidableEq, Repr

variable (L : Limits)

/-- the tokens of so many milliseconds -/
def accrued (ms : ℚ) : ℚ := ms / 60000 * L.ratePerMinute

def refill (b : TokenBucket) (nowMs : ℚ) : TokenBucket :=
  let elapsedMin := (nowMs - b.lastRefillMs) / 60000
  if elapsedMin ≤ 0 then b
  else { tokens := min L.capacity (b.tokens + elapsedMin * L.ratePerMinute), lastRefillMs := nowMs }

/-- the bucket after the call, and the whole tokens -/
def availableTokens (b : TokenBucket) (nowMs : ℚ) : TokenBucket × ℤ :=
  let b := refill L b nowMs
  (b, ⌊b.tokens⌋)

/-- one round of the loop in `acquire`: `none` when a token was taken, else how long it sleeps -/
def acquireRound (b : TokenBucket) (nowMs : ℚ) : TokenBucket × Option ℤ :=
  let b := refill L b nowMs
  if 1 ≤ b.tokens then ({ b with tokens := b.tokens - 1 }, none)
  else
    let deficit := 1 - b.tokens
    let waitMs := ⌈deficit / L.ratePerMinute * 60000⌉
    (b, some (min (max waitMs 5) 250))

/-! ## Callers -/

structure System where
  bucket : TokenBucket
  /-- who sleeps, and for how long -/
  sleeping : List (ℕ × ℤ) := []
  /-- who got a token, in order -/
  granted : List ℕ := []
  /-- the latest reading -/
  clock : ℚ
deriving DecidableEq, Repr

inductive Op where
  /-- a call of `acquire` starts, or its sleep is over, and its signal is not aborted -/
  | round (id : ℕ) (nowMs : ℚ)
  /-- a caller's signal is aborted: the loop or the sleep throws -/
  | abort (id : ℕ)
  | availableTokens (nowMs : ℚ)
deriving DecidableEq, Repr

/-- what the operation reads off the clock -/
def Op.reading : Op → Option ℚ
  | .round _ nowMs | .availableTokens nowMs => some nowMs
  | .abort _ => none

def step (s : System) : Op → System
  | .round id nowMs =>
    let others := s.sleeping.filter (·.1 ≠ id)
    match acquireRound L s.bucket nowMs with
    | (b, none) => { bucket := b, sleeping := others, granted := s.granted ++ [id], clock := nowMs }
    | (b, some ms) => { s with bucket := b, sleeping := others ++ [(id, ms)], clock := nowMs }
  | .abort id => { s with sleeping := s.sleeping.filter (·.1 ≠ id) }
  | .availableTokens nowMs => { s with bucket := (availableTokens L s.bucket nowMs).1, clock := nowMs }

def init (start : ℚ) : System where
  bucket := { tokens := L.capacity, lastRefillMs := start }
  clock := start

def run (s : System) (ops : List Op) : System := ops.foldl (step L) s

def readings (ops : List Op) : List ℚ := ops.filterMap Op.reading

variable {L} {s : System} {o : Op} {ops : List Op} {b : TokenBucket} {now : ℚ}

@[simp] theorem run_nil (s : System) : run L s [] = s := rfl

@[simp] theorem run_cons (s : System) (o : Op) (ops : List Op) : run L s (o :: ops) = run L (step L s o) ops := rfl

theorem run_append (s : System) (pre ops : List Op) : run L s (pre ++ ops) = run L (run L s pre) ops :=
  List.foldl_append ..

@[simp] theorem readings_cons (o : Op) (ops : List Op) : readings (o :: ops) = o.reading.toList ++ readings ops := by
  cases h : o.reading <;> simp [readings, h]

theorem accrued_mono {x y : ℚ} (h : x ≤ y) : accrued L x ≤ accrued L y := by
  have hrate := L.rate_pos
  unfold accrued
  gcongr

@[simp] theorem accrued_zero : accrued L 0 = 0 := by simp [accrued]

theorem accrued_add (x y : ℚ) : accrued L (x + y) = accrued L x + accrued L y := by
  unfold accrued
  ring

theorem accrued_nonneg {x : ℚ} (h : 0 ≤ x) : 0 ≤ accrued L x := by
  rw [← accrued_zero (L := L)]
  exact accrued_mono h

/-! ## One reading -/

theorem refill_lastRefillMs (b : TokenBucket) (now : ℚ) : (refill L b now).lastRefillMs = max b.lastRefillMs now := by
  simp only [refill]
  split_ifs with h
  · have hle : now ≤ b.lastRefillMs := by linarith
    rw [max_eq_left hle]
  · have hlt : b.lastRefillMs ≤ now := by linarith
    rw [max_eq_right hlt]

/-- a refill adds what has accrued since the reference point, and nothing while the clock lies before it -/
theorem refill_tokens (hb : b.tokens ≤ L.capacity) :
    (refill L b now).tokens = min L.capacity (b.tokens + accrued L (max b.lastRefillMs now - b.lastRefillMs)) := by
  simp only [refill]
  split_ifs with h
  · have hle : now ≤ b.lastRefillMs := by linarith
    rw [max_eq_left hle, sub_self, accrued_zero, add_zero, min_eq_right hb]
  · have hlt : b.lastRefillMs ≤ now := by linarith
    rw [max_eq_right hlt]
    rfl

/-- what holds in every run: the count is within its bounds, and the reference point is no earlier than the clock -/
structure Sound (L : Limits) (s : System) : Prop where
  nonneg : 0 ≤ s.bucket.tokens
  le_capacity : s.bucket.tokens ≤ L.capacity
  clock_le : s.clock ≤ s.bucket.lastRefillMs

theorem refill_nonneg (h : Sound L s) : 0 ≤ (refill L s.bucket now).tokens := by
  rw [refill_tokens h.le_capacity]
  have hcapacity := L.one_le_capacity
  have haccrued : 0 ≤ accrued L (max s.bucket.lastRefillMs now - s.bucket.lastRefillMs) :=
    accrued_nonneg (sub_nonneg.2 (le_max_left _ _))
  exact le_min (by linarith) (add_nonneg h.nonneg haccrued)

theorem refill_le (h : Sound L s) : (refill L s.bucket now).tokens ≤ L.capacity := by
  rw [refill_tokens h.le_capacity]
  exact min_le_left _ _

theorem step_abort (h : o.reading = none) : (step L s o).bucket = s.bucket ∧ (step L s o).granted = s.granted ∧
    (step L s o).clock = s.clock := by
  cases o with
  | abort id => exact ⟨rfl, rfl, rfl⟩
  | round id nowMs => cases h
  | availableTokens nowMs => cases h

/-- **What a reading does.** It refills, and at most one whole token then goes to a caller. -/
theorem step_reading (h : o.reading = some now) :
    (step L s o).clock = now ∧ (step L s o).bucket.lastRefillMs = max s.bucket.lastRefillMs now ∧
      ((step L s o).bucket.tokens = (refill L s.bucket now).tokens ∧ (step L s o).granted = s.granted ∨
        1 ≤ (refill L s.bucket now).tokens ∧ (step L s o).bucket.tokens = (refill L s.bucket now).tokens - 1 ∧
          ∃ id, (step L s o).granted = s.granted ++ [id]) := by
  rw [← refill_lastRefillMs (L := L)]
  cases o with
  | abort id => cases h
  | availableTokens nowMs =>
    cases h
    exact ⟨rfl, rfl, .inl ⟨rfl, rfl⟩⟩
  | round id nowMs =>
    cases h
    simp only [step, acquireRound]
    split_ifs with hone
    · exact ⟨rfl, rfl, .inr ⟨hone, rfl, id, rfl⟩⟩
    · exact ⟨rfl, rfl, .inl ⟨rfl, rfl⟩⟩

theorem step_sound (h : Sound L s) : Sound L (step L s o) := by
  cases hread : o.reading with
  | none =>
    obtain ⟨hbucket, -, hclock⟩ := step_abort (L := L) (s := s) hread
    exact ⟨hbucket ▸ h.nonneg, hbucket ▸ h.le_capacity, by rw [hbucket, hclock]; exact h.clock_le⟩
  | some now =>
    obtain ⟨hclock, hlast, htokens⟩ := step_reading (L := L) (s := s) hread
    have hnonneg : 0 ≤ (refill L s.bucket now).tokens := refill_nonneg h
    have hle : (refill L s.bucket now).tokens ≤ L.capacity := refill_le h
    have hreach : now ≤ max s.bucket.lastRefillMs now := le_max_right _ _
    rcases htokens with ⟨htokens, -⟩ | ⟨hone, htokens, -⟩
    · exact ⟨by rw [htokens]; exact hnonneg, by rw [htokens]; exact hle, by rw [hclock, hlast]; exact hreach⟩
    · exact ⟨by rw [htokens]; linarith, by rw [htokens]; linarith, by rw [hclock, hlast]; exact hreach⟩

theorem run_sound (h : Sound L s) (ops : List Op) : Sound L (run L s ops) :=
  along_inv (Sound L) (fun _ _ h _ => step_sound h) h (along_trivial _ _ ops)

theorem sound_init (start : ℚ) : Sound L (init L start) := by
  have hcapacity := L.one_le_capacity
  exact ⟨by simp only [init]; linarith, le_refl _, le_refl _⟩

/-! ## The rate -/

/-- tokens and grants together grow no faster than the clock goes forward -/
theorem spent_le (h : Sound L s) (ops : List Op) :
    ((run L s ops).granted.length : ℚ) + (run L s ops).bucket.tokens ≤
      s.granted.length + s.bucket.tokens + accrued L (forward (s.clock :: readings ops)) := by
  induction ops generalizing s with
  | nil => simp [run, readings]
  | cons o ops ih =>
    have hrest := ih (step_sound (o := o) h)
    cases hread : o.reading with
    | none =>
      obtain ⟨hbucket, hgranted, hclock⟩ := step_abort (L := L) (s := s) hread
      rw [hbucket, hgranted, hclock] at hrest
      simpa [hread] using hrest
    | some now =>
      obtain ⟨hclock, -, htokens⟩ := step_reading (L := L) (s := s) hread
      rw [hclock] at hrest
      -- what the refill adds has accrued since the previous reading
      have hrefill : (refill L s.bucket now).tokens ≤ s.bucket.tokens + accrued L (max 0 (now - s.clock)) := by
        rw [refill_tokens h.le_capacity]
        have hle : max s.bucket.lastRefillMs now - s.bucket.lastRefillMs ≤ max 0 (now - s.clock) := by
          rcases le_total s.bucket.lastRefillMs now with hlast | hlast
          · rw [max_eq_right hlast]
            exact le_max_of_le_right (by linarith [h.clock_le])
          · rw [max_eq_left hlast, sub_self]
            exact le_max_left _ _
        exact (min_le_right _ _).trans (by linarith [accrued_mono (L := L) hle])
      have hspent : ((step L s o).granted.length : ℚ) + (step L s o).bucket.tokens =
          s.granted.length + (refill L s.bucket now).tokens := by
        rcases htokens with ⟨htokens, hgranted⟩ | ⟨-, htokens, id, hgranted⟩
        · rw [htokens, hgranted]
        · rw [htokens, hgranted, List.length_append, List.length_singleton]
          push_cast
          ring
      calc ((run L s (o :: ops)).granted.length : ℚ) + (run L s (o :: ops)).bucket.tokens
          ≤ (step L s o).granted.length + (step L s o).bucket.tokens + accrued L (forward (now :: readings ops)) := hrest
        _ ≤ s.granted.length + s.bucket.tokens + accrued L (forward (s.clock :: readings (o :: ops))) := by
          rw [hspent, readings_cons, hread, Option.toList_some, List.singleton_append, forward_cons, accrued_add]
          linarith

/-- **The rate.** Between two instants no more callers get a token than the bucket holds, and than what the clock's forward
time between them is worth. -/
theorem acquisitions_bounded (h : Sound L s) (ops : List Op) :
    ((run L s ops).granted.length : ℚ) ≤ s.granted.length + L.capacity + accrued L (forward (readings ops)) := by
  induction ops generalizing s with
  | nil =>
    have hcapacity := L.one_le_capacity
    simp only [run_nil, readings, List.filterMap_nil, forward_nil, accrued_zero]
    linarith
  | cons o ops ih =>
    cases hread : o.reading with
    | none =>
      obtain ⟨-, hgranted, -⟩ := step_abort (L := L) (s := s) hread
      have hrest := ih (step_sound (o := o) h)
      rw [hgranted] at hrest
      simpa [hread] using hrest
    | some now =>
      -- from the first reading on the bucket holds at most its capacity
      obtain ⟨hclock, -, htokens⟩ := step_reading (L := L) (s := s) hread
      have hspent := spent_le (step_sound (o := o) h) ops
      have hnonneg := (run_sound (step_sound (o := o) h) ops).nonneg
      have hfull : (refill L s.bucket now).tokens ≤ L.capacity := refill_le h
      have hfirst : ((step L s o).granted.length : ℚ) + (step L s o).bucket.tokens ≤ s.granted.length + L.capacity := by
        rcases htokens with ⟨htokens, hgranted⟩ | ⟨-, htokens, id, hgranted⟩
        · rw [htokens, hgranted]
          linarith
        · rw [htokens, hgranted, List.length_append, List.length_singleton]
          push_cast
          linarith
      rw [hclock] at hspent
      rw [readings_cons, hread, Option.toList_some, List.singleton_append]
      calc ((run L s (o :: ops)).granted.length : ℚ)
          ≤ (step L s o).granted.length + (step L s o).bucket.tokens + accrued L (forward (now :: readings ops)) := by
            rw [run_cons]
            linarith
        _ ≤ s.granted.length + L.capacity + accrued L (forward (now :: readings ops)) := by linarith

/-! ## Waiting callers -/

theorem granted_grows (s : System) (ops : List Op) : s.granted <+: (run L s ops).granted := by
  refine foldl_prefix (g := System.granted) (fun _ => True) ?_ trivial
  intro s _ o _
  refine ⟨trivial, ?_⟩
  cases hread : o.reading with
  | none => exact (step_abort (L := L) (s := s) hread).2.1 ▸ List.prefix_rfl
  | some now =>
    rcases (step_reading (L := L) (s := s) hread).2.2 with ⟨-, hgranted⟩ | ⟨-, -, id, hgranted⟩
    · exact hgranted ▸ List.prefix_rfl
    · exact hgranted ▸ List.prefix_append _ _

/-- while nobody gets a token, the bucket holds what has accrued since its reference point -/
theorem tokens_of_none (h : Sound L s) (hnone : (run L s ops).granted = s.granted) :
    s.bucket.lastRefillMs ≤ (run L s ops).bucket.lastRefillMs ∧
      (run L s ops).bucket.tokens =
        min L.capacity (s.bucket.tokens + accrued L ((run L s ops).bucket.lastRefillMs - s.bucket.lastRefillMs)) := by
  induction ops generalizing s with
  | nil =>
    refine ⟨le_refl _, ?_⟩
    simp only [run_nil, sub_self, accrued_zero, add_zero]
    exact (min_eq_right h.le_capacity).symm
  | cons o ops ih =>
    have hsame : (step L s o).granted = s.granted := by
      have hfirst : s.granted <+: (step L s o).granted := granted_grows s [o]
      have hrest : (step L s o).granted <+: s.granted := hnone ▸ granted_grows (step L s o) ops
      exact hrest.eq_of_length (Nat.le_antisymm hrest.length_le hfirst.length_le)
    obtain ⟨hle, htokens⟩ := ih (step_sound (o := o) h) (hnone.trans hsame.symm)
    cases hread : o.reading with
    | none =>
      rw [(step_abort (L := L) (s := s) hread).1] at hle htokens
      exact ⟨hle, htokens⟩
    | some now =>
      obtain ⟨-, hlast, hcase⟩ := step_reading (L := L) (s := s) hread
      have hrefilled : (step L s o).bucket.tokens = (refill L s.bucket now).tokens := by
        rcases hcase with ⟨hrefilled, -⟩ | ⟨-, -, id, hgranted⟩
        · exact hrefilled
        · rw [hsame] at hgranted
          exact absurd hgranted (by simp)
      have hreach : s.bucket.lastRefillMs ≤ (step L s o).bucket.lastRefillMs := hlast ▸ le_max_left _ _
      refine ⟨hreach.trans hle, ?_⟩
      -- two refills are one
      have htwo : ∀ t x y : ℚ, 0 ≤ y → min L.capacity (min L.capacity (t + x) + y) = min L.capacity (t + (x + y)) := by
        intro t x y hy
        rw [← min_add_add_right, ← min_assoc, min_eq_left (by linarith : L.capacity ≤ L.capacity + y), add_assoc]
      have hlater := accrued_nonneg (L := L) (sub_nonneg.2 hle)
      rw [run_cons, htokens, hrefilled, refill_tokens h.le_capacity, ← hlast, htwo _ _ _ hlater, ← accrued_add]
      congr 3
      ring

/-- **A round is served.** When a whole token has accrued since the reference point, somebody has got one by the time a
caller looks. -/
theorem served_of_accrued (h : Sound L s) (ops : List Op) (id : ℕ)
    (htoken : 1 ≤ s.bucket.tokens + accrued L (now - s.bucket.lastRefillMs)) :
    s.granted.length < (run L s (ops ++ [.round id now])).granted.length := by
  have hgrows := (granted_grows (L := L) s (ops ++ [.round id now])).length_le
  by_contra hnone
  have hlength : s.granted.length = (run L s (ops ++ [.round id now])).granted.length := by omega
  have hall : (run L s (ops ++ [.round id now])).granted = s.granted :=
    ((granted_grows s (ops ++ [.round id now])).eq_of_length hlength).symm
  rw [run_append, run_cons, run_nil] at hall hgrows
  have hbefore : (run L s ops).granted = s.granted := by
    have hfirst := granted_grows (L := L) s ops
    have hlast : (run L s ops).granted <+: s.granted := hall ▸ granted_grows (L := L) (run L s ops) [.round id now]
    exact hlast.eq_of_length (Nat.le_antisymm hlast.length_le hfirst.length_le)
  obtain ⟨hle, htokens⟩ := tokens_of_none h hbefore
  -- the round refuses only when less than a token is there after its refill
  have hrefused : (refill L (run L s ops).bucket now).tokens < 1 := by
    by_contra hone
    rw [not_lt] at hone
    have hgranted : (step L (run L s ops) (.round id now)).granted = (run L s ops).granted ++ [id] := by
      simp only [step, acquireRound, if_pos hone]
    rw [hgranted, hbefore] at hall
    exact absurd hall (by simp)
  have hone := L.one_le_capacity
  have hsound := run_sound h ops
  rw [refill_tokens hsound.le_capacity, htokens] at hrefused
  have hlater : accrued L (now - s.bucket.lastRefillMs) ≤
      accrued L ((run L s ops).bucket.lastRefillMs - s.bucket.lastRefillMs) +
        accrued L (max (run L s ops).bucket.lastRefillMs now - (run L s ops).bucket.lastRefillMs) := by
    rw [← accrued_add]
    exact accrued_mono (by linarith [le_max_right (run L s ops).bucket.lastRefillMs now])
  have hfull : 1 ≤ min L.capacity (min L.capacity (s.bucket.tokens +
      accrued L ((run L s ops).bucket.lastRefillMs - s.bucket.lastRefillMs)) +
        accrued L (max (run L s ops).bucket.lastRefillMs now - (run L s ops).bucket.lastRefillMs)) := by
    have hmore : 0 ≤ accrued L (max (run L s ops).bucket.lastRefillMs now - (run L s ops).bucket.lastRefillMs) :=
      accrued_nonneg (sub_nonneg.2 (le_max_left _ _))
    rcases le_total L.capacity (s.bucket.tokens +
      accrued L ((run L s ops).bucket.lastRefillMs - s.bucket.lastRefillMs)) with hcap | hcap
    · rw [min_eq_left hcap]
      exact le_min hone (by linarith)
    · rw [min_eq_right hcap]
      exact le_min hone (by linarith)
  linarith

/-- How much of a jump a waiting caller gets over: what it has to wait for must have been in the bucket already. -/
theorem served_after_jump_iff (h : Sound L s) (hwait : s.bucket.tokens < 1) :
    (∀ mid id now, 1 ≤ accrued L (now - s.clock) →
      s.granted.length < (run L s (mid ++ [.round id now])).granted.length) ↔
    accrued L (s.bucket.lastRefillMs - s.clock) ≤ s.bucket.tokens := by
  have hsplit : ∀ now, accrued L (now - s.bucket.lastRefillMs) =
      accrued L (now - s.clock) - accrued L (s.bucket.lastRefillMs - s.clock) := by
    intro now
    unfold accrued
    ring
  constructor
  · intro hserved
    -- the reading at which exactly one token's worth of forward time has passed
    have hone : accrued L (s.clock + 60000 / L.ratePerMinute - s.clock) = 1 := by
      have hrate := L.rate_pos.ne'
      unfold accrued
      field_simp
      ring
    have hgrant := hserved [] 0 _ hone.ge
    rcases (step_reading (L := L) (s := s) (o := .round 0 (s.clock + 60000 / L.ratePerMinute)) rfl).2.2 with
      ⟨-, hsame⟩ | ⟨htoken, -⟩
    · rw [List.nil_append, run_cons, run_nil, hsame] at hgrant
      exact absurd hgrant (lt_irrefl _)
    · rw [refill_tokens h.le_capacity, le_min_iff] at htoken
      rcases le_total (s.clock + 60000 / L.ratePerMinute) s.bucket.lastRefillMs with hle | hle
      · rw [max_eq_left hle, sub_self, accrued_zero] at htoken
        linarith [htoken.2]
      · rw [max_eq_right hle, hsplit, hone] at htoken
        linarith [htoken.2]
  · intro hle mid id now hnow
    apply served_of_accrued h
    rw [hsplit]
    linarith

/-- **A jump is waited out.** Nobody gets a token while the clock lies before the reference point, however long it runs
there. -/
theorem waits_out_jump (hs : s.bucket.tokens < 1) (hback : ∀ now ∈ readings ops, now ≤ s.bucket.lastRefillMs) :
    (run L s ops).granted = s.granted ∧ (run L s ops).bucket = s.bucket := by
  induction ops generalizing s with
  | nil => exact ⟨rfl, rfl⟩
  | cons o ops ih =>
    rw [readings_cons] at hback
    have hsame : (step L s o).bucket = s.bucket ∧ (step L s o).granted = s.granted := by
      cases o with
      | abort id => exact ⟨rfl, rfl⟩
      | round id now =>
        have hnow : now ≤ s.bucket.lastRefillMs := hback now (by simp [Op.reading])
        have hrefill : refill L s.bucket now = s.bucket := if_pos (by linarith)
        simp [step, acquireRound, hrefill, hs.not_ge]
      | availableTokens now =>
        have hnow : now ≤ s.bucket.lastRefillMs := hback now (by simp [Op.reading])
        exact ⟨if_pos (by linarith), rfl⟩
    rw [run_cons, ← hsame.1, ← hsame.2]
    apply ih
    · rw [hsame.1]
      exact hs
    · intro now hnow
      rw [hsame.1]
      exact hback now (List.mem_append_right _ hnow)

/-! ## The property -/

/-- `s` is a state, and `ops` is what happens from then on -/
structure Survives (L : Limits) (s : System) (ops : List Op) : Prop where
  range : 0 ≤ s.bucket.tokens ∧ s.bucket.tokens ≤ L.capacity
  /-- the acquisitions between the two instants -/
  bounded : ((run L s ops).granted.length : ℚ) ≤ s.granted.length + L.capacity + accrued L (forward (readings ops))
  /-- tokens accrue with the clock's forward time -/
  accrues : ∀ o rest now, ops = o :: rest → o.reading = some now →
    (refill L s.bucket now).tokens = min L.capacity (s.bucket.tokens + accrued L (max 0 (now - s.clock)))
  /-- a caller that looks after `1 / ratePerMinute` of forward time finds a token, unless another caller has got one -/
  served : ∀ mid id now, ops = mid ++ [.round id now] → 1 ≤ accrued L (forward (s.clock :: readings ops)) →
    s.granted.length < (run L s ops).granted.length

/-- the operation reads no time before an earlier one -/
def InOrder (s : System) (o : Op) : Prop := ∀ now ∈ o.reading, s.bucket.lastRefillMs ≤ now

instance (s : System) (o : Op) : Decidable (InOrder s o) :=
  inferInstanceAs (Decidable (∀ now ∈ o.reading, s.bucket.lastRefillMs ≤ now))

/-- in order, the reference point is the latest reading -/
theorem clock_of_inOrder (hs : s.bucket.lastRefillMs = s.clock) (ho : InOrder s o) :
    (step L s o).bucket.lastRefillMs = (step L s o).clock := by
  cases hread : o.reading with
  | none =>
    obtain ⟨hbucket, -, hclock⟩ := step_abort (L := L) (s := s) hread
    rw [hbucket, hclock, hs]
  | some now =>
    obtain ⟨hclock, hlast, -⟩ := step_reading (L := L) (s := s) hread
    rw [hclock, hlast, max_eq_right (ho now hread)]

/-- readings in order: the forward time is the time between the first and the last -/
theorem forward_of_inOrder (hs : s.bucket.lastRefillMs = s.clock) {id : ℕ} {mid : List Op}
    (h : Along (step L) InOrder s (mid ++ [.round id now])) :
    forward (s.clock :: readings (mid ++ [.round id now])) = now - s.clock := by
  induction mid generalizing s with
  | nil =>
    have hle : s.clock ≤ now := hs ▸ h.1 now rfl
    simp [Op.reading, readings, hle]
  | cons o mid ih =>
    have hnext := ih (clock_of_inOrder hs h.1) h.2
    cases hread : o.reading with
    | none =>
      rw [(step_abort (L := L) (s := s) hread).2.2] at hnext
      simpa [hread] using hnext
    | some t =>
      rw [(step_reading (L := L) (s := s) hread).1] at hnext
      have hle : s.clock ≤ t := hs ▸ h.1 t hread
      rw [List.cons_append, readings_cons, hread, Option.toList_some, List.singleton_append, forward_cons, hnext,
        max_eq_right (sub_nonneg.2 hle)]
      ring

theorem bucket_survives (L : Limits) (start : ℚ) (ops : List Op) (h : Along (step L) InOrder (init L start) ops)
    (pre mid : List Op) (hpre : pre ++ mid <+: ops) : Survives L (run L (init L start) pre) mid := by
  have hsound : Sound L (run L (init L start) pre) := run_sound (sound_init start) pre
  obtain ⟨hbefore, hmid⟩ := along_append.1 (h.initial hpre)
  have hclock : (run L (init L start) pre).bucket.lastRefillMs = (run L (init L start) pre).clock :=
    along_inv (fun s => s.bucket.lastRefillMs = s.clock) (fun _ _ hs ho => clock_of_inOrder hs ho) rfl hbefore
  refine ⟨⟨hsound.nonneg, hsound.le_capacity⟩, acquisitions_bounded hsound mid, ?_, ?_⟩
  · rintro o rest now rfl hread
    have hle := hmid.1 now hread
    rw [refill_tokens hsound.le_capacity, hclock, max_eq_right (hclock ▸ hle), max_eq_right (sub_nonneg.2 (hclock ▸ hle))]
  · rintro before id now rfl htime
    apply served_of_accrued hsound
    rw [forward_of_inOrder hclock hmid] at htime
    rw [hclock]
    linarith [hsound.nonneg]

/-- a call every second -/
def everySecond : Limits := ⟨60, 1, by norm_num, le_refl 1⟩

theorem bucket_survives_second : Survives everySecond (run everySecond (init everySecond 0) [.round 0 0])
    [.round 1 0, .round 1 1000] :=
  bucket_survives everySecond 0 [.round 0 0, .round 1 0, .round 1 1000] (by decide +kernel) _ _ List.prefix_rfl

/-- the clock is set back by an hour while a caller waits, and runs for almost an hour without a token -/
theorem jump_strands_caller : ¬ Survives everySecond (run everySecond (init everySecond 0) [.round 0 0])
    [.round 1 (-3600000), .round 1 (-1)] := by
  intro h
  have hserved := h.served [.round 1 (-3600000)] 1 (-1) rfl (by decide +kernel)
  exact absurd hserved (by decide +kernel)

end AstramemLocal.Providers.RateLimited
