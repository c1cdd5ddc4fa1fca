/-
The window of the row stage 8 writes: `valid_from` is the atom's own date, else the capture date, else the clock of the
insert; `valid_to` is what `guardValidTo` lets through. The guard compares with the first two only, so a past `invalid_at`
of an atom without either ends before it starts (`past_end_without_start`). `persisted_window` says for which atoms the
window holds an instant.
-/
import AstramemLocal.Distill.ReindexRuns
import AstramemLocal.Search.Validity

namespace AstramemLocal.Distill

open AstramemLocal.Store AstramemLocal.Core AstramemLocal.Search

variable {E : Env} {s t : St} {ctx : EmbedIndexContext} {mem : NormalizedMemory}

/-- `dateParse` is `Date.parse`, with `none` for NaN -/
def parseIsoToMs (dateParse : String → Option Time) (value : Option String) : Option Time :=
  match value with
  | none => none
  | some v => if v = "" then none else dateParse v

/-- the atom with the dates its extraction states -/
def dated (dateParse : String → Option Time) (validAt invalidAt : Option String) (mem : NormalizedMemory) :
    NormalizedMemory :=
  { mem with validAt := parseIsoToMs dateParse validAt, invalidAt := parseIsoToMs dateParse invalidAt }

/-- `valid_to` is NULL or behind `valid_from` -/
def NonEmptyWindow (m : Memory) : Prop := m.validTo = none ∨ ∃ e, m.validTo = some e ∧ m.validFrom < e

theorem nonEmptyWindow_iff {m : Memory} : NonEmptyWindow m ↔ (window m).OpenAt (window m).start := by
  unfold NonEmptyWindow Window.OpenAt window
  cases m.validTo with
  | none => simp
  | some e => simp

/-- some `as_of` query admits the row -/
def Retrievable (m : Memory) : Prop := ∃ asOf, ∀ now, validityFilterClause (some asOf) now m = true

theorem retrievable_iff {m : Memory} : Retrievable m ↔ NonEmptyWindow m := by
  rw [nonEmptyWindow_iff, ← Window.exists_contains_iff]
  constructor
  · rintro ⟨asOf, h⟩
    exact ⟨asOf, validityFilterClause_asOf.1 (h 0)⟩
  · rintro ⟨asOf, h⟩
    exact ⟨asOf, fun _ => validityFilterClause_asOf.2 h⟩

/-- a bound the guard lets through ends behind the start it was given, and lies in reach of the anchor -/
theorem guardValidTo_eq_some {invalidAt validFrom : Option Time} {anchor e : Time} :
    guardValidTo invalidAt validFrom anchor = some e ↔ invalidAt = some e ∧ (∀ f ∈ validFrom, f < e) ∧
      (e - anchor).natAbs ≤ validityBoundMaxSkewMs := by
  unfold guardValidTo
  cases invalidAt with
  | none => simp
  | some i =>
    have hany : validFrom.any (i ≤ ·) = true ↔ ¬ ∀ f ∈ validFrom, f < i := by
      cases validFrom with
      | none => simp
      | some f => simp
    dsimp only
    rw [Option.some.injEq]
    split_ifs with hbefore hfar
    · refine iff_of_false (by simp) ?_
      rintro ⟨rfl, hstart, -⟩
      exact hany.1 hbefore hstart
    · refine iff_of_false (by simp) ?_
      rintro ⟨rfl, -, hnear⟩
      omega
    · rw [Option.some.injEq]
      constructor
      · rintro rfl
        exact ⟨rfl, not_not.1 fun h => hbefore (hany.2 h), not_lt.1 hfar⟩
      · exact fun h => h.1

/-! ## The row -/

theorem findHash_unstamped (h : unstamped t = unstamped s) (hash : Hash) :
    (findHash t hash).map (fun m => { m with updatedAt := 0 }) =
      (findHash s hash).map fun m => { m with updatedAt := 0 } := by
  have hfind : ∀ u : St, (findHash u hash).map (fun m => { m with updatedAt := 0 }) =
      (unstamped u).find? (·.hash = hash) := by
    intro u
    unfold unstamped
    rw [List.find?_map]
    rfl
  rw [hfind, hfind, h]

/-- the row of an atom whose hash is new, but for the stamp -/
theorem embedAndIndex_row (mem : NormalizedMemory) (hnew : findHash s mem.finalHash = none) (h : embedAndIndex E s ctx mem = .ok t) :
    ∃ m, findHash t mem.finalHash = some m ∧ m.validFrom =
      (mem.validAt.or ctx.capturedAtMs).getD (E.now (clockRead ctx s).clock) ∧
      m.validTo = guardValidTo mem.invalidAt (mem.validAt.or ctx.capturedAtMs) (ctx.capturedAtMs.getD (E.now s.clock)) := by
  rw [embedAndIndex_eq] at h
  cases hins : insertWithCreateEvent E (clockRead ctx s) (insertInput ctx mem (E.now s.clock)) with
  | error err =>
    rw [hins] at h
    cases h
  | ok r =>
    rw [hins] at h
    obtain rfl := Except.ok.inj h
    rcases insertWithCreateEvent_ok hins with ⟨m, hm, -⟩ | ⟨-, -, -, rfl⟩
    · rw [clockRead_findHash] at hm
      cases hnew.symm.trans hm
    · have hstored := @findHash_inserted E _ (insertInput ctx mem (E.now s.clock))
        ((clockRead_findHash ctx s _).trans hnew)
      have hrow := findHash_unstamped (enrich_unstamped (E := E) ctx mem (E.uuid (clockRead ctx s).drawn)
        (inserted E (clockRead ctx s) (insertInput ctx mem (E.now s.clock)))) mem.finalHash
      rw [show mem.finalHash = (insertInput ctx mem (E.now s.clock)).hash from rfl, hstored] at hrow
      obtain ⟨m, hm, hsame⟩ := Option.map_eq_some_iff.1 hrow
      refine ⟨m, hm, ?_, ?_⟩
      · exact congrArg Memory.validFrom hsame
      · exact congrArg Memory.validTo hsame

/-- **The persisted window.** For every atom whose hash is new: some `as_of` query returns its row exactly when `valid_from`
lies before `valid_to`, and it does exactly when the atom or the capture gives a start, or the bound is one the guard
refuses or the clock of the insert has not reached. -/
theorem persisted_window (E : Env) (dateParse : String → Option Time) (ctx : EmbedIndexContext) (mem : NormalizedMemory)
    (validAt invalidAt : Option String) {s t : St} (hnew : findHash s mem.finalHash = none)
    (h : embedAndIndex E s ctx (dated dateParse validAt invalidAt mem) = .ok t) :
    ∃ m, findHash t mem.finalHash = some m ∧ (Retrievable m ↔ NonEmptyWindow m) ∧
      (NonEmptyWindow m ↔ (parseIsoToMs dateParse validAt).isSome ∨ ctx.capturedAtMs.isSome ∨
        ∀ e ∈ parseIsoToMs dateParse invalidAt,
          E.now (s.clock + 1) < e ∨ validityBoundMaxSkewMs < (e - E.now s.clock).natAbs) := by
  obtain ⟨m, hm, hfrom, hto⟩ := embedAndIndex_row (dated dateParse validAt invalidAt mem) hnew h
  refine ⟨m, hm, retrievable_iff, ?_⟩
  have hends : NonEmptyWindow m ↔ ∀ e, m.validTo = some e → m.validFrom < e := by
    unfold NonEmptyWindow
    cases m.validTo with
    | none => simp
    | some e => simp
  rw [hends, hfrom, hto]
  simp only [guardValidTo_eq_some, dated]
  cases hvalid : parseIsoToMs dateParse validAt with
  | some f => exact iff_of_true (fun e he => he.2.1 f rfl) (.inl rfl)
  | none =>
    cases hcaptured : ctx.capturedAtMs with
    | some f => exact iff_of_true (fun e he => he.2.1 f rfl) (.inr (.inl rfl))
    | none =>
      -- neither: the start is the clock of the insert, which the guard has not seen
      have hclock : (clockRead ctx s).clock = s.clock + 1 := by
        unfold clockRead
        rw [if_pos hcaptured]
        rfl
      rw [hclock]
      simp only [Option.or_none, Option.getD_none, Option.isSome_none, Bool.false_eq_true, false_or, Option.mem_def,
        reduceCtorEq, false_imp_iff, implies_true, true_and]
      refine forall_congr' fun e => ?_
      constructor
      · intro hlt he
        by_cases hnear : (e - E.now s.clock).natAbs ≤ validityBoundMaxSkewMs
        · exact .inl (hlt ⟨he, hnear⟩)
        · exact .inr (not_le.1 hnear)
      · rintro hor ⟨he, hnear⟩
        exact (hor he).resolve_right (not_lt.2 hnear)

/-- the clock stands at `now` -/
def clockAt (now : Time) : Env where
  now _ := now
  uuid n := n
  stack := 0
  toLowerCase := id

/-- one date is parsed -/
def parseMarch (value : String) : Option Time := if value = "2024-03-01" then some 1709251200000 else none

/-- "the licence ran until 2024-03-01", read from a transcript without a capture date -/
def expired : NormalizedMemory where
  type := .fact
  text := "the licence ran until 2024-03-01"
  normalizedText := "the licence ran until 2024-03-01"
  finalHash := 7
  importance := 1
  confidence := 1

theorem past_end_without_start : ∃ t m, embedAndIndex (clockAt 1753000000000) {} {}
    (dated parseMarch none (some "2024-03-01") expired) = .ok t ∧ findHash t expired.finalHash = some m ∧
      m.validFrom = 1753000000000 ∧ m.validTo = some 1709251200000 ∧ ¬ NonEmptyWindow m ∧ ¬ Retrievable m := by
  obtain ⟨t, ht⟩ : ∃ t, embedAndIndex (clockAt 1753000000000) {} {} (dated parseMarch none (some "2024-03-01") expired) =
    .ok t := ⟨_, rfl⟩
  obtain ⟨m, hm, hfrom, hto⟩ := embedAndIndex_row (dated parseMarch none (some "2024-03-01") expired) rfl ht
  have hfrom : m.validFrom = 1753000000000 := hfrom
  have hto : m.validTo = some 1709251200000 := hto.trans (by decide +kernel)
  have hempty : ¬ NonEmptyWindow m := by
    unfold NonEmptyWindow
    rw [hfrom, hto]
    simp
  exact ⟨t, m, ht, hm, hfrom, hto, hempty, fun h => hempty (retrievable_iff.1 h)⟩

theorem expired_captured : ∃ t m, embedAndIndex (clockAt 1753000000000) {} { capturedAtMs := some 1700000000000 }
    (dated parseMarch none (some "2024-03-01") expired) = .ok t ∧ findHash t expired.finalHash = some m ∧
      NonEmptyWindow m := by
  obtain ⟨t, ht⟩ : ∃ t, embedAndIndex (clockAt 1753000000000) {} { capturedAtMs := some 1700000000000 }
    (dated parseMarch none (some "2024-03-01") expired) = .ok t := ⟨_, rfl⟩
  obtain ⟨m, hm, -, hiff⟩ := persisted_window (clockAt 1753000000000) parseMarch { capturedAtMs := some 1700000000000 }
    expired none (some "2024-03-01") rfl ht
  exact ⟨t, m, ht, hm, hiff.2 (.inr (.inl rfl))⟩

end AstramemLocal.Distill
