/-
Values of the language that JSON can write, over any type of numbers, strings in UTF-16. The members of an object stand
as `Object.entries` gives them: array indices first, in ascending order, then the other keys as they were added. `put`
is an assignment to a key; it keeps that order (`ordered_put`), and an object built of members that stand in it holds
exactly these (`putAll_of_ordered`).
-/
import AstramemLocal.Core.JsString
import Mathlib.Data.List.Pairwise
import Mathlib.Data.List.TakeWhile
import Mathlib.Data.List.Nodup
import Mathlib.Data.List.Forall2
import Mathlib.Data.List.Induction

namespace AstramemLocal.Core

/-- `setter`: an assignment to `__proto__` reaches the setter of `Object.prototype` -/
inductive JsValue (N : Type) where
  | null
  | bool (b : Bool)
  | num (n : N)
  | str (s : JsString)
  | arr (items : List (JsValue N))
  | obj (setter : Bool) (members : List (JsString × JsValue N))

variable {N : Type}

namespace JsValue

/-- what passes from items to their array and from members to their object holds of every value -/
@[elab_as_elim]
theorem ind {motive : JsValue N → Prop} (null : motive .null) (bool : ∀ b, motive (.bool b))
    (num : ∀ n, motive (.num n)) (str : ∀ s, motive (.str s))
    (arr : ∀ items, (∀ v ∈ items, motive v) → motive (.arr items))
    (obj : ∀ setter members, (∀ m ∈ members, motive m.2) → motive (.obj setter members)) (v : JsValue N) : motive v := by
  refine @JsValue.rec N motive (fun items => ∀ v ∈ items, motive v) (fun members => ∀ m ∈ members, motive m.2)
    (fun m => motive m.2) null bool num str arr obj ?_ ?_ ?_ ?_ ?_ v
  · simp
  · intro v items hv hitems w hw
    rcases List.mem_cons.1 hw with rfl | hw
    · exact hv
    · exact hitems w hw
  · simp
  · intro m members hm hmembers n hn
    rcases List.mem_cons.1 hn with rfl | hn
    · exact hm
    · exact hmembers n hn
  · intro k v hv
    exact hv

/-! ## Depth -/

/-- the value itself, an item of it or a member's value, at any depth -/
inductive Within (w : JsValue N) : JsValue N → Prop where
  | self : Within w w
  | item {items : List (JsValue N)} {v : JsValue N} (hv : v ∈ items) (hw : Within w v) : Within w (.arr items)
  | member {setter : Bool} {members : List (JsString × JsValue N)} {m : JsString × JsValue N} (hm : m ∈ members)
      (hw : Within w m.2) : Within w (.obj setter members)

/-- at every depth -/
def Everywhere (P : JsValue N → Prop) (v : JsValue N) : Prop := ∀ w, Within w v → P w

section
variable {P : JsValue N → Prop} {v : JsValue N}

theorem Everywhere.here (h : Everywhere P v) : P v := h v .self

/-- a value that holds no other -/
theorem everywhere_leaf (hleaf : ∀ w, Within w v → w = v) : Everywhere P v ↔ P v := by
  constructor
  · exact Everywhere.here
  · intro h w hw
    rw [hleaf w hw]
    exact h

@[simp] theorem everywhere_null : Everywhere P .null ↔ P .null := by
  apply everywhere_leaf
  intro w hw
  cases hw
  rfl

@[simp] theorem everywhere_bool (b : Bool) : Everywhere P (.bool b) ↔ P (.bool b) := by
  apply everywhere_leaf
  intro w hw
  cases hw
  rfl

@[simp] theorem everywhere_num (n : N) : Everywhere P (.num n) ↔ P (.num n) := by
  apply everywhere_leaf
  intro w hw
  cases hw
  rfl

@[simp] theorem everywhere_str (s : JsString) : Everywhere P (.str s) ↔ P (.str s) := by
  apply everywhere_leaf
  intro w hw
  cases hw
  rfl

@[simp] theorem everywhere_arr (items : List (JsValue N)) :
    Everywhere P (.arr items) ↔ P (.arr items) ∧ ∀ v ∈ items, Everywhere P v := by
  constructor
  · intro h
    exact ⟨h.here, fun v hv w hw => h w (.item hv hw)⟩
  · intro h w hw
    cases hw with
    | self => exact h.1
    | item hv hw => exact h.2 _ hv w hw

@[simp] theorem everywhere_obj (setter : Bool) (members : List (JsString × JsValue N)) :
    Everywhere P (.obj setter members) ↔ P (.obj setter members) ∧ ∀ m ∈ members, Everywhere P m.2 := by
  constructor
  · intro h
    exact ⟨h.here, fun m hm w hw => h w (.member hm hw)⟩
  · intro h w hw
    cases hw with
    | self => exact h.1
    | member hm hw => exact h.2 _ hm w hw

end

/-! ## Assignment to a key -/

/-- the key as an array index: the decimal digits of a number below 2³² - 1 -/
def arrayIndex (key : JsString) : Option ℕ :=
  let n := key.foldl (fun n u => 10 * n + (u - 0x30)) 0
  if key = (Nat.toDigits 10 n).map Char.toNat ∧ n < 4294967295 then some n else none

/-- `key` is an index, and `other` a smaller one -/
def indexBefore (other key : JsString) : Bool :=
  match arrayIndex other, arrayIndex key with
  | some m, some n => m < n
  | _, _ => false

def names {α : Type*} (members : List (JsString × α)) : List JsString := members.map Prod.fst

section
variable {α : Type*} {members : List (JsString × α)} {key : JsString} {value : α}

/-- `members[key] = value` where `key` is its own property or a new one -/
def put (members : List (JsString × α)) (key : JsString) (value : α) : List (JsString × α) :=
  if members.any (·.1 = key) then members.map fun m => if m.1 = key then (key, value) else m
  else if (arrayIndex key).isSome then
    members.takeWhile (fun m => indexBefore m.1 key) ++
      (key, value) :: members.dropWhile (fun m => indexBefore m.1 key)
  else members ++ [(key, value)]

/-- the assignments one after the other -/
def putAll (members : List (JsString × α)) : List (JsString × α) := members.foldl (fun out m => put out m.1 m.2) []

/-- the order in which `Object.entries` gives two members -/
def Stands (a b : JsString × α) : Prop := a.1 ≠ b.1 ∧ ((arrayIndex b.1).isSome → indexBefore a.1 b.1 = true)

/-- the members of an object: no key twice, and in the order of `Object.entries` -/
def Ordered (members : List (JsString × α)) : Prop := members.Pairwise Stands

theorem any_key : members.any (·.1 = key) = true ↔ key ∈ names members := by simp [names]

theorem put_of_mem (h : key ∈ names members) :
    put members key value = members.map fun m => if m.1 = key then (key, value) else m := if_pos (any_key.2 h)

theorem put_of_notMem (h : key ∉ names members) :
    put members key value = if (arrayIndex key).isSome then
      members.takeWhile (fun m => indexBefore m.1 key) ++
        (key, value) :: members.dropWhile (fun m => indexBefore m.1 key)
    else members ++ [(key, value)] := if_neg (mt any_key.1 h)

theorem arrayIndex_inj {a b : JsString} {n : ℕ} (ha : arrayIndex a = some n) (hb : arrayIndex b = some n) : a = b := by
  simp only [arrayIndex] at ha hb
  split_ifs at ha with hda
  split_ifs at hb with hdb
  rw [Option.some.injEq] at ha hb
  rw [hda.1, hdb.1, ha, hb]

/-- indices are in ascending order -/
theorem indexBefore_of_not {a b : JsString} (ha : (arrayIndex a).isSome) (hb : (arrayIndex b).isSome) (hne : a ≠ b)
    (h : indexBefore b a = false) : indexBefore a b = true := by
  obtain ⟨m, hm⟩ := Option.isSome_iff_exists.1 ha
  obtain ⟨n, hn⟩ := Option.isSome_iff_exists.1 hb
  have hmn : m ≠ n := fun heq => hne (arrayIndex_inj hm (heq ▸ hn))
  simp only [indexBefore, hm, hn, decide_eq_false_iff_not, decide_eq_true_eq] at h ⊢
  omega

theorem indexBefore_trans {a b c : JsString} (hab : indexBefore a b = true) (hbc : indexBefore b c = true) :
    indexBefore a c = true := by
  unfold indexBefore at *
  cases ha : arrayIndex a <;> cases hb : arrayIndex b <;> cases hc : arrayIndex c <;> simp_all
  omega

theorem isSome_of_indexBefore {a b : JsString} (h : indexBefore a b = true) :
    (arrayIndex a).isSome ∧ (arrayIndex b).isSome := by
  unfold indexBefore at h
  cases ha : arrayIndex a <;> cases hb : arrayIndex b <;> simp_all

theorem put_perm (h : key ∉ names members) : (put members key value).Perm ((key, value) :: members) := by
  rw [put_of_notMem h]
  split_ifs
  · have hmiddle := @List.perm_middle _ (key, value) (members.takeWhile fun m => indexBefore m.1 key)
      (members.dropWhile fun m => indexBefore m.1 key)
    rwa [List.takeWhile_append_dropWhile] at hmiddle
  · exact List.perm_append_singleton _ _

theorem length_put_of_mem (h : key ∈ names members) : (put members key value).length = members.length := by
  rw [put_of_mem h, List.length_map]

theorem names_put_of_mem (h : key ∈ names members) : names (put members key value) = names members := by
  rw [put_of_mem h, names, List.map_map]
  apply List.map_congr_left
  intro m _
  simp only [Function.comp_apply]
  split_ifs with hm
  · exact hm.symm
  · rfl

theorem ordered_put (h : Ordered members) : Ordered (put members key value) := by
  by_cases hmem : key ∈ names members
  · -- the names stay, and the order is one of names
    have hnames : names (put members key value) = names members := names_put_of_mem hmem
    have hpair : ∀ ms : List (JsString × α), Ordered ms ↔
        (names ms).Pairwise fun a b => a ≠ b ∧ ((arrayIndex b).isSome → indexBefore a b = true) := by
      intro ms
      rw [names, List.pairwise_map]
      rfl
    rw [hpair, hnames, ← hpair]
    exact h
  · have hfresh : ∀ m ∈ members, m.1 ≠ key := fun m hm heq => hmem (heq ▸ List.mem_map_of_mem hm)
    rw [put_of_notMem hmem]
    split_ifs with hindex
    · have hsplit : Ordered (members.takeWhile (fun m => indexBefore m.1 key) ++
          members.dropWhile fun m => indexBefore m.1 key) := by
        rw [List.takeWhile_append_dropWhile]
        exact h
      obtain ⟨hbefore, hafter, hcross⟩ := List.pairwise_append.1 hsplit
      refine List.pairwise_append.2 ⟨hbefore, List.pairwise_cons.2 ⟨?_, hafter⟩, ?_⟩
      · -- what stands behind the new index is no index or a greater one
        intro m hm
        refine ⟨Ne.symm (hfresh m ((List.dropWhile_sublist _).subset hm)), fun hmi => ?_⟩
        cases hdrop : members.dropWhile fun m => indexBefore m.1 key with
        | nil => simp [hdrop] at hm
        | cons first rest =>
          have hfirst : indexBefore first.1 key = false := by
            have hhead := List.head?_dropWhile_not (fun m : JsString × α => indexBefore m.1 key) members
            rw [hdrop] at hhead
            simpa using hhead
          have hfm : first.1 ≠ key := hfresh first ((List.dropWhile_sublist _).subset (hdrop ▸ List.mem_cons_self))
          rw [hdrop] at hm hafter
          rcases List.mem_cons.1 hm with rfl | hm
          · exact indexBefore_of_not hindex hmi hfm.symm hfirst
          · have hlt := ((List.pairwise_cons.1 hafter).1 m hm).2 hmi
            have hfi := (isSome_of_indexBefore hlt).1
            exact indexBefore_trans (indexBefore_of_not hindex hfi hfm.symm hfirst) hlt
      · intro a ha b hb
        rcases List.mem_cons.1 hb with rfl | hb
        · have hbefore : indexBefore a.1 key = true := List.mem_takeWhile_imp (p := fun m : JsString × α => indexBefore m.1 key) ha
          exact ⟨hfresh a ((List.takeWhile_sublist _).subset ha), fun _ => hbefore⟩
        · exact hcross a ha b hb
    · refine List.pairwise_append.2 ⟨h, List.pairwise_singleton _ _, ?_⟩
      intro a ha b hb
      rw [List.mem_singleton] at hb
      subst hb
      exact ⟨hfresh a ha, fun hi => absurd hi hindex⟩

/-- a member that stands behind all others is put there -/
theorem put_last (h : ∀ m ∈ members, Stands m (key, value)) : put members key value = members ++ [(key, value)] := by
  have hmem : key ∉ names members := by
    intro hkey
    obtain ⟨m, hm, heq⟩ := List.mem_map.1 hkey
    exact (h m hm).1 heq
  rw [put_of_notMem hmem]
  split_ifs with hindex
  · have hall : ∀ m ∈ members, indexBefore m.1 key = true := fun m hm => (h m hm).2 hindex
    rw [List.takeWhile_eq_self_iff.2 hall, List.dropWhile_eq_nil_iff.2 hall]
  · rfl

theorem putAll_append (before : List (JsString × α)) (m : JsString × α) :
    putAll (before ++ [m]) = put (putAll before) m.1 m.2 := by
  simp [putAll]

theorem ordered_putAll (members : List (JsString × α)) : Ordered (putAll members) := by
  induction members using List.reverseRecOn with
  | nil => exact List.Pairwise.nil
  | append_singleton before m ih =>
    rw [putAll_append]
    exact ordered_put ih

theorem putAll_perm (h : (names members).Nodup) : (putAll members).Perm members := by
  induction members using List.reverseRecOn with
  | nil => exact List.Perm.refl []
  | append_singleton before m ih =>
    obtain ⟨hbefore, -, hcross⟩ := List.nodup_append.1 (by simpa [names] using h)
    have ih := ih hbefore
    have hfresh : m.1 ∉ names (putAll before) := by
      intro hmem
      have hmem := (ih.map Prod.fst).mem_iff.1 hmem
      exact hcross m.1 hmem m.1 (List.mem_singleton_self m.1) rfl
    have hput : (put (putAll before) m.1 m.2).Perm (m :: putAll before) := put_perm hfresh
    rw [putAll_append]
    exact hput.trans ((ih.cons m).trans (List.perm_append_singleton m before).symm)

theorem putAll_of_ordered (h : Ordered members) : putAll members = members := by
  induction members using List.reverseRecOn with
  | nil => rfl
  | append_singleton before m ih =>
    obtain ⟨hbefore, -, hcross⟩ := List.pairwise_append.1 h
    rw [putAll_append, ih hbefore, put_last fun a ha => hcross a ha m (List.mem_singleton_self m)]

end

/-- an object as the language holds it -/
def ObjectOk : JsValue N → Prop
  | .obj setter members => setter = true ∧ Ordered members
  | _ => True

/-- built by literals and JSON.parse -/
def Plain (v : JsValue N) : Prop := Everywhere ObjectOk v

end JsValue

end AstramemLocal.Core
