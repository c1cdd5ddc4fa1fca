/-
When two values are the same JSON: objects as finite maps, whatever the order of their keys, arrays in order, strings by
code units. `Same` is an equivalence. Two objects without repeated keys are the same map exactly when their members are a
permutation of each other (`perm_map_iff`).
-/
import AstramemLocal.Core.JsValue

namespace AstramemLocal.Core.JsValue

variable {N : Type}

/-- the same JSON -/
inductive Same : JsValue N → JsValue N → Prop where
  | null : Same .null .null
  | bool (b : Bool) : Same (.bool b) (.bool b)
  | num (n : N) : Same (.num n) (.num n)
  | str (s : JsString) : Same (.str s) (.str s)
  | arr {items items' : List (JsValue N)} (hlen : items.length = items'.length)
      (hitems : ∀ (i : ℕ) v w, items[i]? = some v → items'[i]? = some w → Same v w) : Same (.arr items) (.arr items')
  | obj {setter setter' : Bool} {members members' : List (JsString × JsValue N)}
      (hkeys : ∀ key, (members.lookup key).isSome = (members'.lookup key).isSome)
      (hvalues : ∀ key v w, members.lookup key = some v → members'.lookup key = some w → Same v w) :
      Same (.obj setter members) (.obj setter' members')

theorem mem_of_lookup {α : Type*} {members : List (JsString × α)} {key : JsString} {v : α}
    (h : members.lookup key = some v) : (key, v) ∈ members := by
  induction members with
  | nil => cases h
  | cons m members ih =>
    rw [List.lookup_cons] at h
    split at h
    next heq =>
      rw [beq_iff_eq.1 heq, ← Option.some.inj h]
      exact List.mem_cons_self
    · exact List.mem_cons_of_mem m (ih h)

theorem Same.symm {v w : JsValue N} (h : Same v w) : Same w v := by
  induction h with
  | null => exact .null
  | bool b => exact .bool b
  | num n => exact .num n
  | str s => exact .str s
  | arr hlen _ ih => exact .arr hlen.symm fun i v w hv hw => ih i w v hw hv
  | obj hkeys _ ih => exact .obj (fun key => (hkeys key).symm) fun key v w hv hw => ih key w v hw hv

theorem Same.trans {u v w : JsValue N} (h : Same u v) (h' : Same v w) : Same u w := by
  induction h generalizing w with
  | null => exact h'
  | bool b => exact h'
  | num n => exact h'
  | str s => exact h'
  | arr hlen _ ih =>
    cases h' with
    | arr hlen' hitems' =>
      refine .arr (hlen.trans hlen') fun i a c ha hc => ?_
      have hi := (List.getElem?_eq_some_iff.1 hc).1
      have hb := List.getElem?_eq_getElem (hlen' ▸ hi)
      exact ih i a _ ha hb (hitems' i _ c hb hc)
  | obj hkeys _ ih =>
    cases h' with
    | obj hkeys' hvalues' =>
      refine .obj (fun key => (hkeys key).trans (hkeys' key)) fun key a c ha hc => ?_
      obtain ⟨b, hb⟩ := Option.isSome_iff_exists.1 ((hkeys' key).trans (Option.isSome_iff_exists.2 ⟨c, hc⟩))
      exact ih key a b ha hb (hvalues' key b c hb hc)

theorem Same.refl (v : JsValue N) : Same v v := by
  induction v using ind with
  | null => exact .null
  | bool b => exact .bool b
  | num n => exact .num n
  | str s => exact .str s
  | arr items ih =>
    refine .arr rfl fun i v w hv hw => ?_
    rw [Option.some.inj (hv.symm.trans hw)]
    exact ih w (List.mem_of_getElem? hw)
  | obj setter members ih =>
    refine .obj (fun _ => rfl) fun key v w hv hw => ?_
    rw [Option.some.inj (hv.symm.trans hw)]
    exact ih (key, w) (mem_of_lookup hw)

/-! ## Finite maps -/

/-- no key twice -/
def UniqueKeys : JsValue N → Prop
  | .obj _ members => (names members).Nodup
  | _ => True

/-- a JSON value: no object in it has a key twice -/
abbrev JsonValue (N : Type) := { v : JsValue N // Everywhere UniqueKeys v }

section
variable {α β : Type*} {members members' : List (JsString × α)} {key : JsString}

theorem mem_iff_lookup (h : (names members).Nodup) {v : α} : (key, v) ∈ members ↔ members.lookup key = some v := by
  refine ⟨fun hmem => ?_, mem_of_lookup⟩
  induction members with
  | nil => cases hmem
  | cons m members ih =>
    obtain ⟨hfresh, htail⟩ := List.nodup_cons.1 h
    rw [List.lookup_cons]
    rcases List.mem_cons.1 hmem with rfl | hmem
    · simp
    · have hne : (key == m.1) = false := by
        rw [beq_eq_false_iff_ne]
        rintro rfl
        exact hfresh (List.mem_map.2 ⟨_, hmem, rfl⟩)
      rw [hne]
      exact ih htail hmem

/-- each value through `f` -/
def mapValues (f : α → β) (members : List (JsString × α)) : List (JsString × β) := members.map fun m => (m.1, f m.2)

theorem names_mapValues (f : α → β) : names (mapValues f members) = names members := by
  rw [names, mapValues, List.map_map]
  rfl

theorem nodup_mapValues (f : α → β) (h : (names members).Nodup) : (mapValues f members).Nodup := by
  rw [← names_mapValues f] at h
  exact List.Nodup.of_map Prod.fst h

theorem lookup_mapValues (f : α → β) : (mapValues f members).lookup key = (members.lookup key).map f := by
  induction members with
  | nil => rfl
  | cons m members ih =>
    rw [mapValues, List.map_cons, List.lookup_cons, List.lookup_cons]
    split
    · rfl
    · exact ih

/-- **The order of the keys aside.** -/
theorem perm_map_iff (f : α → β) (h : (names members).Nodup) (h' : (names members').Nodup) :
    (mapValues f members).Perm (mapValues f members') ↔
      ∀ key, (members.lookup key).map f = (members'.lookup key).map f := by
  rw [List.perm_ext_iff_of_nodup (nodup_mapValues f h) (nodup_mapValues f h')]
  have hmem : ∀ ms : List (JsString × α), (names ms).Nodup → ∀ key y,
      (key, y) ∈ mapValues f ms ↔ (ms.lookup key).map f = some y := by
    intro ms hms key y
    rw [mem_iff_lookup (by rwa [names_mapValues]), lookup_mapValues]
  constructor
  · intro hiff key
    refine Option.ext fun y => ?_
    rw [← hmem members h, ← hmem members' h']
    exact hiff (key, y)
  · rintro hlookup ⟨key, y⟩
    rw [hmem members h, hmem members' h', hlookup]

theorem lookup_eq_of_perm (hperm : members.Perm members') (h : (names members).Nodup) (key : JsString) :
    members.lookup key = members'.lookup key := by
  have h' : (names members').Nodup := (hperm.map Prod.fst).nodup_iff.1 h
  refine Option.ext fun v => ?_
  rw [← mem_iff_lookup h, ← mem_iff_lookup h']
  exact hperm.mem_iff

end

end AstramemLocal.Core.JsValue
