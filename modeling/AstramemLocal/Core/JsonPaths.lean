/-
The string leaves of a JSON value and the paths to them. `rewriteLeaves` rewrites each leaf by its path and keeps the rest
of the value; two such rewrites of a value agree exactly when they agree at every leaf (`rewriteLeaves_eq_iff`).
-/
import AstramemLocal.Core.Json

namespace AstramemLocal.Core

/-- one step into a value: to an item of an array, or to the member of a key -/
inductive PathStep where
  | item
  | key (key : String)
deriving DecidableEq, Repr

namespace Json

/-- what passes from items to their array and from members to their object holds of every value -/
@[elab_as_elim]
theorem ind {motive : Json → Prop} (null : motive .null) (bool : ∀ b, motive (.bool b)) (num : ∀ n, motive (.num n))
    (str : ∀ s, motive (.str s)) (arr : ∀ items, (∀ v ∈ items, motive v) → motive (.arr items))
    (obj : ∀ members, (∀ m ∈ members, motive m.2) → motive (.obj members)) (v : Json) : motive v := by
  refine @Json.rec motive (fun items => ∀ v ∈ items, motive v) (fun members => ∀ m ∈ members, motive m.2)
    (fun m => motive m.2) null bool num str arr obj ?_ ?_ ?_ ?_ ?_ v
  · simp
  · intro v items hv hitems w hw
    rcases List.mem_cons.1 hw with rfl | hw
    · exact hv
    · exact hitems w hw
  · simp
  · intro m members hm hmembers n hn
    rcases List.mem_cons.1 hn with rfl | hn
    · exact hm
    · exact hmembers n hn
  · intro k v hv
    exact hv

/-- the string at a path of the value -/
inductive LeafAt : Json → List PathStep → String → Prop where
  | here (s : String) : LeafAt (.str s) [] s
  | item {items : List Json} {v : Json} {path : List PathStep} {s : String} (hv : v ∈ items) (h : LeafAt v path s) :
      LeafAt (.arr items) (.item :: path) s
  | member {members : List (String × Json)} {m : String × Json} {path : List PathStep} {s : String} (hm : m ∈ members)
      (h : LeafAt m.2 path s) : LeafAt (.obj members) (.key m.1 :: path) s

/-- an object in the value has the key -/
inductive HasKey (key : String) : Json → Prop where
  | here {members : List (String × Json)} {m : String × Json} (hm : m ∈ members) (h : m.1 = key) : HasKey key (.obj members)
  | item {items : List Json} {v : Json} (hv : v ∈ items) (h : HasKey key v) : HasKey key (.arr items)
  | member {members : List (String × Json)} {m : String × Json} (hm : m ∈ members) (h : HasKey key m.2) :
      HasKey key (.obj members)

mutual
def rewriteLeaves (f : List PathStep → String → String) : Json → Json
  | .str s => .str (f [] s)
  | .arr items => .arr (rewriteItems (fun path => f (.item :: path)) items)
  | .obj members => .obj (rewriteMembers f members)
  | .null => .null
  | .bool b => .bool b
  | .num n => .num n
def rewriteItems (f : List PathStep → String → String) : List Json → List Json
  | [] => []
  | v :: items => rewriteLeaves f v :: rewriteItems f items
def rewriteMembers (f : List PathStep → String → String) : List (String × Json) → List (String × Json)
  | [] => []
  | (key, v) :: members => (key, rewriteLeaves (fun path => f (.key key :: path)) v) :: rewriteMembers f members
end

variable {f g : List PathStep → String → String}

theorem rewriteItems_eq (items : List Json) : rewriteItems f items = items.map (rewriteLeaves f) := by
  induction items with
  | nil => rfl
  | cons v items ih => rw [rewriteItems, ih, List.map_cons]

theorem rewriteMembers_eq (members : List (String × Json)) :
    rewriteMembers f members = members.map fun m => (m.1, rewriteLeaves (fun path => f (.key m.1 :: path)) m.2) := by
  induction members with
  | nil => rfl
  | cons m members ih => rw [rewriteMembers, ih, List.map_cons]

@[simp] theorem rewriteLeaves_arr (items : List Json) :
    rewriteLeaves f (.arr items) = .arr (items.map (rewriteLeaves fun path => f (.item :: path))) := by
  rw [rewriteLeaves, rewriteItems_eq]

@[simp] theorem rewriteLeaves_obj (members : List (String × Json)) : rewriteLeaves f (.obj members) =
    .obj (members.map fun m => (m.1, rewriteLeaves (fun path => f (.key m.1 :: path)) m.2)) := by
  rw [rewriteLeaves, rewriteMembers_eq]

/-- **Leaf by leaf.** -/
theorem rewriteLeaves_eq_iff (v : Json) :
    rewriteLeaves f v = rewriteLeaves g v ↔ ∀ path s, LeafAt v path s → f path s = g path s := by
  induction v using ind generalizing f g with
  | null => exact iff_of_true rfl fun path s h => by cases h
  | bool b => exact iff_of_true rfl fun path s h => by cases h
  | num n => exact iff_of_true rfl fun path s h => by cases h
  | str s =>
    simp only [rewriteLeaves, Json.str.injEq]
    constructor
    · intro h path t hleaf
      cases hleaf
      exact h
    · intro h
      exact h [] s (.here s)
  | arr items ih =>
    simp only [rewriteLeaves_arr, Json.arr.injEq, List.map_inj_left]
    constructor
    · intro h path s hleaf
      cases hleaf with
      | item hv hleaf => exact (ih _ hv).1 (h _ hv) _ s hleaf
    · intro h v hv
      exact (ih v hv).2 fun path s hleaf => h (.item :: path) s (.item hv hleaf)
  | obj members ih =>
    simp only [rewriteLeaves_obj, Json.obj.injEq, List.map_inj_left, Prod.mk.injEq, true_and]
    constructor
    · intro h path s hleaf
      cases hleaf with
      | member hm hleaf => exact (ih _ hm).1 (h _ hm) _ s hleaf
    · intro h m hm
      exact (ih m hm).2 fun path s hleaf => h (.key m.1 :: path) s (.member hm hleaf)

/-- a rewrite keeps the keys -/
theorem HasKey.rewriteLeaves {key : String} {v : Json} (h : HasKey key v) (f : List PathStep → String → String) :
    HasKey key (rewriteLeaves f v) := by
  induction h generalizing f with
  | here hm hkey =>
    rw [rewriteLeaves_obj]
    exact .here (List.mem_map_of_mem hm) hkey
  | item hv _ ih =>
    rw [rewriteLeaves_arr]
    exact .item (List.mem_map_of_mem hv) (ih _)
  | member hm _ ih =>
    rw [rewriteLeaves_obj]
    exact .member (List.mem_map_of_mem hm) (ih _)

end Json

end AstramemLocal.Core
