/-
The own properties of an object that is used as a map, in the order of their creation, and the sum over their values. A
value may have no number (`none`, as NaN), and then the sum has none.
- `total_set_new`, `total_set_own`: what a write does to the sum.
-/
import AstramemLocal.Core.Table
import Mathlib.Algebra.Group.Defs
import Mathlib.Algebra.Group.Basic
import Mathlib.Data.Option.NAry

namespace AstramemLocal.Core

variable {κ V M : Type*}

/-- own properties; no key is there twice -/
abbrev OwnMap (κ V : Type*) := List (κ × V)

namespace OwnMap

/-! ## Sums -/

section
variable [AddCommMonoid M] {field : V → Option M} {map : OwnMap κ V}

/-- the sum of a field over the values -/
def total (field : V → Option M) (map : OwnMap κ V) : Option M :=
  map.foldr (fun e sum => Option.map₂ (· + ·) (field e.2) sum) (some 0)

@[simp] theorem total_nil : total (κ := κ) field [] = some 0 := rfl

@[simp] theorem total_cons (e : κ × V) (map : OwnMap κ V) :
    total field (e :: map) = Option.map₂ (· + ·) (field e.2) (total field map) := rfl

theorem total_append (map rest : OwnMap κ V) :
    total field (map ++ rest) = Option.map₂ (· + ·) (total field map) (total field rest) := by
  induction map with
  | nil => cases h : total field rest <;> simp [h]
  | cons e map ih =>
    rw [List.cons_append, total_cons, total_cons, ih]
    cases field e.2 <;> cases total field map <;> cases total field rest <;> simp [add_assoc]

/-- a value without a number leaves the sum without one -/
theorem total_none {e : κ × V} (h : e ∈ map) (hnone : field e.2 = none) : total field map = none := by
  induction map with
  | nil => cases h
  | cons first map ih =>
    rw [total_cons]
    rcases List.mem_cons.1 h with rfl | h
    · rw [hnone]
      rfl
    · rw [ih h, Option.map₂_none_right]

end

/-! ## Writes -/

variable [DecidableEq κ]

def get (map : OwnMap κ V) (key : κ) : Option V := (lookup Prod.fst key map).map Prod.snd

def set (map : OwnMap κ V) (key : κ) (value : V) : OwnMap κ V :=
  if key ∈ map.map Prod.fst then map.map fun e => if e.1 = key then (key, value) else e else map ++ [(key, value)]

variable {map : OwnMap κ V} {key : κ} {value old : V}

theorem get_eq_none : get map key = none ↔ key ∉ map.map Prod.fst := by
  rw [get, Option.map_eq_none_iff, lookup_eq_none]
  simp only [List.mem_map, not_exists, not_and]

theorem mem_of_get (h : get map key = some old) : (key, old) ∈ map := by
  obtain ⟨e, he, rfl⟩ := Option.map_eq_some_iff.1 h
  obtain ⟨hmem, rfl⟩ := lookup_mem he
  exact hmem

theorem set_new (h : get map key = none) : set map key value = map ++ [(key, value)] := if_neg (get_eq_none.1 h)

theorem set_own (h : get map key = some old) :
    set map key value = map.map fun e => if e.1 = key then (key, value) else e :=
  if_pos (List.mem_map_of_mem (f := Prod.fst) (mem_of_get h))

/-- writing to a key that is there leaves the keys alone -/
theorem map_fst_set_own (h : get map key = some old) : (set map key value).map Prod.fst = map.map Prod.fst := by
  rw [set_own h, List.map_map]
  apply List.map_congr_left
  intro e _
  simp only [Function.comp_apply]
  split_ifs with he
  · exact he.symm
  · rfl

theorem keyed_set (h : Keyed Prod.fst map) : Keyed Prod.fst (set map key value) := by
  cases hget : get map key with
  | none =>
    rw [set_new hget]
    apply h.insert
    rintro e he rfl
    exact get_eq_none.1 hget (List.mem_map_of_mem he)
  | some old =>
    rw [Keyed, map_fst_set_own hget]
    exact h

/-- a write adds no entry but its own -/
theorem mem_set_cases {e : κ × V} (h : e ∈ set map key value) : e = (key, value) ∨ e ∈ map := by
  cases hget : get map key with
  | none =>
    rw [set_new hget] at h
    exact (List.mem_append.1 h).symm.imp_left List.mem_singleton.1
  | some old =>
    rw [set_own hget] at h
    obtain ⟨f, hf, rfl⟩ := List.mem_map.1 h
    split_ifs
    · exact .inl rfl
    · exact .inr hf

variable [AddCommMonoid M] {field : V → Option M} {x : M}

theorem total_set_new (h : get map key = none) :
    total field (set map key value) = Option.map₂ (· + ·) (total field map) (field value) := by
  rw [set_new h, total_append, total_cons, total_nil]
  cases field value <;> simp

/-- adding to one value adds to the sum -/
theorem total_set_own (hkeyed : Keyed Prod.fst map) (h : get map key = some old)
    (hvalue : field value = (field old).map (· + x)) :
    total field (set map key value) = (total field map).map (· + x) := by
  obtain ⟨before, after, rfl⟩ := List.append_of_mem (mem_of_get h)
  have hothers : ∀ e ∈ before ++ after, e.1 ≠ key := by
    rw [Keyed, List.map_append, List.map_cons] at hkeyed
    have hmiddle := (List.nodup_middle.1 hkeyed).notMem
    rintro e he rfl
    have hmem : e.1 ∈ (before ++ after).map Prod.fst := List.mem_map_of_mem he
    rw [← List.map_append] at hmiddle
    exact hmiddle hmem
  have hsame : ∀ l : OwnMap κ V, (∀ e ∈ l, e.1 ≠ key) → (l.map fun e => if e.1 = key then (key, value) else e) = l := by
    intro l hl
    refine (List.map_congr_left fun e he => ?_).trans (List.map_id l)
    rw [if_neg (hl e he), id]
  rw [set_own h, List.map_append, List.map_cons, hsame before fun e he => hothers e (List.mem_append_left _ he),
    hsame after fun e he => hothers e (List.mem_append_right _ he), if_pos rfl, total_append, total_append, total_cons,
    total_cons, hvalue]
  cases total field before <;> cases field old <;> cases total field after <;> simp [add_comm, add_left_comm]

end OwnMap

end AstramemLocal.Core
