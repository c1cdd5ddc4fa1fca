/-
Tables with a key, as lists of rows. `updateWhere` and `deleteWhere` are an UPDATE and a DELETE with a WHERE clause,
`lookup` is a SELECT by key. What `lookup` finds after a statement is what it found before, changed by the statement
(`lookup_updateWhere`, `lookup_deleteWhere`, `lookup_insert`).
-/
import Mathlib.Data.List.Nodup
import Mathlib.Tactic.Common

namespace AstramemLocal.Core

variable {α κ : Type*}

def updateWhere (p : α → Prop) [DecidablePred p] (f : α → α) (rows : List α) : List α :=
  rows.map fun r => if p r then f r else r

def deleteWhere (p : α → Prop) [DecidablePred p] (rows : List α) : List α := rows.filter fun r => ¬ p r

def lookup [DecidableEq κ] (key : α → κ) (k : κ) (rows : List α) : Option α := rows.find? fun r => key r = k

/-- the key is primary: no two rows share one -/
def Keyed (key : α → κ) (rows : List α) : Prop := (rows.map key).Nodup

instance [DecidableEq κ] (key : α → κ) (rows : List α) : Decidable (Keyed key rows) :=
  inferInstanceAs (Decidable (rows.map key).Nodup)

variable {key : α → κ} {p : α → Prop} [DecidablePred p] {f : α → α} {rows : List α} {r : α}

theorem mem_updateWhere : r ∈ updateWhere p f rows ↔ ∃ q ∈ rows, (if p q then f q else q) = r := List.mem_map

theorem mem_deleteWhere : r ∈ deleteWhere p rows ↔ r ∈ rows ∧ ¬ p r := by
  simp [deleteWhere]

theorem updateWhere_eq_self (h : ∀ r ∈ rows, ¬ p r) : updateWhere p f rows = rows := by
  refine (List.map_congr_left fun r hr => ?_).trans (List.map_id rows)
  rw [if_neg (h r hr), id]

/-- an update that takes every row it rewrites out of its own selection leaves none in it -/
theorem not_of_mem_updateWhere (h : ∀ r ∈ rows, p r → ¬ p (f r)) (hr : r ∈ updateWhere p f rows) : ¬ p r := by
  obtain ⟨q, hq, rfl⟩ := mem_updateWhere.1 hr
  split
  next hp => exact h q hq hp
  next hp => exact hp

/-- an update that moves no row in or out of a selection commutes with it -/
theorem filter_updateWhere {q : α → Prop} [DecidablePred q] (h : ∀ r ∈ rows, p r → (q (f r) ↔ q r)) :
    (updateWhere p f rows).filter (q ·) = updateWhere p f (rows.filter (q ·)) := by
  rw [updateWhere, List.filter_map, updateWhere]
  congr 1
  refine List.filter_congr fun r hr => ?_
  simp only [Function.comp_apply, decide_eq_decide]
  split
  next hp => exact h r hr hp
  next => exact Iff.rfl

/-- a deletion commutes with a projection its selection goes by -/
theorem map_deleteWhere {β : Type*} {g : α → β} {q : β → Prop} [DecidablePred q] (h : ∀ r, p r ↔ q (g r)) :
    (deleteWhere p rows).map g = deleteWhere q (rows.map g) := by
  unfold deleteWhere
  rw [List.filter_map]
  congr 1
  apply List.filter_congr
  intro r _
  simp [h r]

/-- a deletion passes over a row it would delete -/
theorem deleteWhere_snoc (hp : p r) : deleteWhere p (rows ++ [r]) = deleteWhere p rows := by
  simp [deleteWhere, hp]

theorem deleteWhere_twice : deleteWhere p (deleteWhere p rows) = deleteWhere p rows := by
  unfold deleteWhere
  rw [List.filter_filter]
  simp

theorem updateWhere_keys (hf : ∀ r, key (f r) = key r) : (updateWhere p f rows).map key = rows.map key := by
  simp only [updateWhere, List.map_map]
  refine List.map_congr_left fun r _ => ?_
  simp only [Function.comp]
  split
  · exact hf r
  · rfl

theorem Keyed.updateWhere (h : Keyed key rows) (hf : ∀ r, key (f r) = key r) : Keyed key (updateWhere p f rows) := by
  unfold Keyed
  rw [updateWhere_keys hf]
  exact h

theorem Keyed.deleteWhere (h : Keyed key rows) : Keyed key (deleteWhere p rows) :=
  h.sublist (List.filter_sublist.map key)

/-- a key that is primary among some rows stays so under an update that moves no row in among them -/
theorem Keyed.filter_updateWhere {q : α → Bool} (h : Keyed key (rows.filter q))
    (hf : ∀ r ∈ rows, p r → q (f r) = true → q r = true ∧ key (f r) = key r) :
    Keyed key ((Core.updateWhere p f rows).filter q) := by
  have hsub : (((Core.updateWhere p f rows).filter q).map key).Sublist ((rows.filter q).map key) := by
    clear h
    induction rows with
    | nil => exact .slnil
    | cons r rows ih =>
      have ih := ih fun r hr => hf r (List.mem_cons_of_mem _ hr)
      have hhead : q (if p r then f r else r) = true → q r = true ∧ key (if p r then f r else r) = key r := by
        split
        next hp => exact hf r List.mem_cons_self hp
        next => exact fun hq => ⟨hq, rfl⟩
      rw [Core.updateWhere, List.map_cons, ← Core.updateWhere]
      by_cases hq : q (if p r then f r else r) = true
      · rw [List.filter_cons_of_pos hq, List.filter_cons_of_pos (hhead hq).1, List.map_cons, List.map_cons, (hhead hq).2]
        exact ih.cons_cons _
      · rw [List.filter_cons_of_neg hq]
        exact ih.trans ((List.sublist_cons_self r rows).filter q |>.map key)
  exact List.Nodup.sublist hsub h

theorem Keyed.insert (h : Keyed key rows) (hr : ∀ q ∈ rows, key q ≠ key r) : Keyed key (rows ++ [r]) := by
  unfold Keyed
  rw [List.map_append, List.nodup_append]
  refine ⟨h, List.nodup_singleton _, ?_⟩
  intro a ha b hb
  obtain ⟨q, hq, rfl⟩ := List.mem_map.1 ha
  simp only [List.map_cons, List.map_nil, List.mem_singleton] at hb
  exact hb ▸ hr q hq

theorem Keyed.inj (h : Keyed key rows) {q : α} (hr : r ∈ rows) (hq : q ∈ rows) (hkey : key r = key q) : r = q :=
  List.inj_on_of_nodup_map h hr hq hkey

/-- a deletion by key takes the row of the key and no other -/
theorem Keyed.deleteWhere_split [DecidableEq κ] {before after : List α} (h : Keyed key (before ++ r :: after)) :
    Core.deleteWhere (fun q => key q = key r) (before ++ r :: after) = before ++ after := by
  have hother : ∀ q ∈ before ++ after, key q ≠ key r := by
    intro q hq heq
    unfold Keyed at h
    rw [List.map_append, List.map_cons, List.nodup_middle, ← List.map_append, List.nodup_cons] at h
    exact h.1 (heq ▸ List.mem_map_of_mem hq)
  unfold Core.deleteWhere
  rw [List.filter_append, List.filter_cons_of_neg (by simp), ← List.filter_append]
  rw [List.filter_eq_self]
  intro q hq
  simpa using hother q hq

/-- a deletion by the keys of the first rows leaves the others -/
theorem Keyed.deleteWhere_front [DecidableEq κ] {before after : List α} (h : Keyed key (before ++ after)) :
    Core.deleteWhere (fun q => before.any (key · = key q) = true) (before ++ after) = after := by
  unfold Keyed at h
  rw [List.map_append, List.nodup_append] at h
  unfold Core.deleteWhere
  have hbefore : before.filter (fun q => ¬ before.any (key · = key q) = true) = [] := by
    rw [List.filter_eq_nil_iff]
    intro q hq hkept
    exact of_decide_eq_true hkept (List.any_eq_true.2 ⟨q, hq, decide_eq_true rfl⟩)
  have hafter : after.filter (fun q => ¬ before.any (key · = key q) = true) = after := by
    rw [List.filter_eq_self]
    intro q hq
    apply decide_eq_true
    intro hany
    obtain ⟨r, hr, hkey⟩ := List.any_eq_true.1 hany
    exact h.2.2 _ (List.mem_map_of_mem hr) _ (List.mem_map_of_mem hq) (of_decide_eq_true hkey)
  rw [List.filter_append, hbefore, hafter, List.nil_append]

/-! ## Lookups -/

variable [DecidableEq κ] {k : κ}

theorem lookup_mem (h : lookup key k rows = some r) : r ∈ rows ∧ key r = k := by
  have hkey := List.find?_some h
  exact ⟨List.mem_of_find?_eq_some h, by simpa using hkey⟩

theorem lookup_eq_none : lookup key k rows = none ↔ ∀ r ∈ rows, key r ≠ k := by
  simp [lookup]

theorem lookup_of_mem (h : Keyed key rows) (hr : r ∈ rows) : lookup key (key r) rows = some r := by
  cases hl : lookup key (key r) rows with
  | none => exact absurd rfl (lookup_eq_none.1 hl r hr)
  | some q =>
    obtain ⟨hq, hkey⟩ := lookup_mem hl
    rw [h.inj hq hr hkey]

theorem lookup_updateWhere (hf : ∀ r, key (f r) = key r) :
    lookup key k (updateWhere p f rows) = (lookup key k rows).map fun r => if p r then f r else r := by
  have hkey : ∀ r, key (if p r then f r else r) = key r := by
    intro r
    split
    · exact hf r
    · rfl
  simp only [lookup, updateWhere, List.find?_map, Function.comp_def, hkey]

theorem lookup_deleteWhere (h : Keyed key rows) :
    lookup key k (deleteWhere p rows) = (lookup key k rows).filter fun r => ¬ p r := by
  cases hl : lookup key k rows with
  | none =>
    rw [lookup_eq_none] at hl
    rw [Option.filter_none, lookup_eq_none]
    intro r hr
    exact hl r (mem_deleteWhere.1 hr).1
  | some r =>
    obtain ⟨hr, rfl⟩ := lookup_mem hl
    by_cases hp : p r
    · rw [Option.filter_some, if_neg (by simpa using hp), lookup_eq_none]
      intro q hq hkey
      obtain ⟨hq, hpq⟩ := mem_deleteWhere.1 hq
      exact hpq (h.inj hq hr hkey ▸ hp)
    · rw [Option.filter_some, if_pos (by simpa using hp)]
      exact lookup_of_mem h.deleteWhere (mem_deleteWhere.2 ⟨hr, hp⟩)

theorem lookup_insert : lookup key k (rows ++ [r]) = (lookup key k rows).or (if key r = k then some r else none) := by
  simp only [lookup, List.find?_append]
  by_cases h : key r = k
  · simp [h]
  · simp [h]

end AstramemLocal.Core
