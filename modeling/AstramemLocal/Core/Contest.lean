/-
Loops that reconcile a list into one without rivals. `settle` is one round: the new element meets the first rival in the
list, and one of the two is dropped; without a rival it goes to the end. What the list carries gets no more
(`covers_settle`), so a loop carries everything to the end exactly when no round drops the last carrier of something
(`covers_foldl`).
-/
import Mathlib.Data.List.Perm.Basic
import Mathlib.Data.List.Nodup
import Mathlib.Data.List.TakeDrop
import Mathlib.Data.List.TakeWhile
import Mathlib.Tactic.Common

namespace AstramemLocal.Core

variable {α β γ ι : Type*}

/-- the first entry that `rival` names is replaced by `new` where `loses` says so, and stays where not; without a rival
`new` goes to the end -/
def settle (rival loses : α → Bool) (l : List α) (new : α) : List α :=
  match l.dropWhile fun e => !rival e with
  | [] => l ++ [new]
  | existing :: after => if loses existing then l.takeWhile (fun e => !rival e) ++ new :: after else l

/-- two rivals met: one was dropped for the other, and the rest was not touched -/
structure Contest (γ : Type*) where
  dropped : γ
  survivor : γ
  others : List γ

def contest (rival loses : α → Bool) (l : List α) (new : α) : Option (Contest α) :=
  match l.dropWhile fun e => !rival e with
  | [] => none
  | existing :: after =>
    let others := l.takeWhile (fun e => !rival e) ++ after
    some (if loses existing then ⟨existing, new, others⟩ else ⟨new, existing, others⟩)

section
variable {rival loses : α → Bool} {l : List α} {new : α}

theorem settle_none (h : contest rival loses l new = none) : settle rival loses l new = l ++ [new] := by
  unfold contest at h
  unfold settle
  split at h
  · rfl
  · cases h

/-- **One round with a rival**: the list and the new element are the two and the others; the loser goes -/
theorem settle_some {c : Contest α} (h : contest rival loses l new = some c) :
    (new :: l).Perm (c.dropped :: c.survivor :: c.others) ∧
      (settle rival loses l new).Perm (c.survivor :: c.others) := by
  unfold contest at h
  unfold settle
  split at h
  · cases h
  · rename_i existing after hdrop
    have hl : l = l.takeWhile (fun e => !rival e) ++ existing :: after := by
      rw [← hdrop, List.takeWhile_append_dropWhile]
    have hmid : l.Perm (existing :: (l.takeWhile (fun e => !rival e) ++ after)) := by
      conv_lhs => rw [hl]
      exact List.perm_middle
    obtain rfl := Option.some.inj h
    by_cases hlose : loses existing = true
    · simp only [hlose, if_true]
      exact ⟨(hmid.cons new).trans (List.Perm.swap existing new _), List.perm_middle⟩
    · simp only [hlose]
      exact ⟨hmid.cons new, hmid⟩

/-- the entry of a contest is the rival the round found -/
theorem contest_rival {c : Contest α} (h : contest rival loses l new = some c) :
    (rival c.dropped = true ∧ loses c.dropped = true ∧ c.survivor = new) ∨
      (rival c.survivor = true ∧ loses c.survivor = false ∧ c.dropped = new) := by
  unfold contest at h
  split at h
  · cases h
  · rename_i existing after hdrop
    have hrival : rival existing = true := by
      have hne : l.dropWhile (fun e => !rival e) ≠ [] := by rw [hdrop]; exact List.cons_ne_nil _ _
      have hhead := List.head_dropWhile_not (fun e => !rival e) hne
      simpa [hdrop] using hhead
    obtain rfl := Option.some.inj h
    by_cases hlose : loses existing = true
    · simp only [hlose, if_true]
      exact Or.inl ⟨hrival, trivial, trivial⟩
    · simp only [Bool.not_eq_true] at hlose
      simp only [hlose]
      exact Or.inr ⟨hrival, hlose, rfl⟩

/-- a round adds nothing but the new element -/
theorem mem_settle {e : α} (h : e ∈ settle rival loses l new) : e ∈ l ∨ e = new := by
  cases hc : contest rival loses l new with
  | none =>
    rw [settle_none hc] at h
    simpa using h
  | some c =>
    obtain ⟨hbefore, hafter⟩ := settle_some hc
    have hmem : e ∈ new :: l := hbefore.mem_iff.2 (List.mem_cons_of_mem _ (hafter.mem_iff.1 h))
    exact (List.mem_cons.1 hmem).symm

theorem contest_survivor {c : Contest α} (h : contest rival loses l new = some c) : c.survivor ∈ l ∨ c.survivor = new :=
  mem_settle ((settle_some h).2.mem_iff.2 List.mem_cons_self)

theorem settle_cons (e : α) : settle rival loses (e :: l) new =
    if rival e then (if loses e then new :: l else e :: l) else e :: settle rival loses l new := by
  unfold settle
  cases hrival : rival e with
  | true => simp [hrival]
  | false =>
    simp only [List.dropWhile_cons, List.takeWhile_cons, hrival, Bool.not_false, if_true, Bool.false_eq_true, if_false]
    split
    · rfl
    · split <;> rfl

/-- what a view of the entries makes of a round, when it keeps every rival and the new element -/
theorem settle_filterMap {β : Type*} {view : α → Option β} {rival' loses' : β → Bool} {new' : β} (hnew : view new = some new')
    (hrival : ∀ e, rival e = (view e).any rival') (hloses : ∀ e b, rival e = true → view e = some b → loses e = loses' b) :
    (settle rival loses l new).filterMap view = settle rival' loses' (l.filterMap view) new' := by
  induction l with
  | nil => simp [settle, hnew]
  | cons e l ih =>
    rw [settle_cons]
    cases hview : view e with
    | none =>
      have hfree : rival e = false := by rw [hrival, hview, Option.any_none]
      simp [hfree, hview, ih]
    | some b =>
      have hsame : rival e = rival' b := by rw [hrival, hview, Option.any_some]
      rw [List.filterMap_cons_some hview, settle_cons, ← hsame]
      by_cases hr : rival e = true
      · rw [if_pos hr, if_pos hr, ← hloses e b hr hview]
        split
        · rw [List.filterMap_cons_some hnew]
        · rw [List.filterMap_cons_some hview]
      · rw [if_neg hr, if_neg hr, List.filterMap_cons_some hview, ih]

/-- entries that are no rivals stand as they are -/
theorem settle_filter {p : α → Bool} (hnew : p new = false) (hrival : ∀ e, rival e = true → p e = false) :
    (settle rival loses l new).filter p = l.filter p := by
  induction l with
  | nil => simp [settle, hnew]
  | cons e l ih =>
    rw [settle_cons]
    split
    next hr =>
      split
      next => rw [List.filter_cons_of_neg (by simp [hnew]), List.filter_cons_of_neg (by simp [hrival e hr])]
      next => rfl
    next => rw [List.filter_cons, List.filter_cons, ih]

theorem length_settle : (settle rival loses l new).length = if l.any rival then l.length else l.length + 1 := by
  induction l with
  | nil => rfl
  | cons e l ih =>
    rw [settle_cons, List.any_cons]
    cases rival e with
    | true =>
      simp only [Bool.true_or, if_true]
      split <;> rfl
    | false =>
      simp only [Bool.false_or, Bool.false_eq_true, if_false, List.length_cons, ih]
      split <;> rfl

/-- the round by position: the first rival is the entry behind which `before` ends -/
theorem settle_cases (rival loses : α → Bool) (l : List α) (new : α) :
    ((∀ e ∈ l, rival e = false) ∧ settle rival loses l new = l ++ [new]) ∨
    ∃ before existing after, l = before ++ existing :: after ∧ (∀ e ∈ before, rival e = false) ∧ rival existing = true ∧
      settle rival loses l new = if loses existing then before ++ new :: after else l := by
  have hsplit := List.takeWhile_append_dropWhile (p := fun e => !rival e) (l := l)
  have hbefore : ∀ e ∈ l.takeWhile (fun e => !rival e), rival e = false := by
    intro e he
    simpa using List.mem_takeWhile_imp he
  unfold settle
  split
  · rename_i hdrop
    rw [hdrop, List.append_nil] at hsplit
    rw [hsplit] at hbefore
    exact Or.inl ⟨hbefore, rfl⟩
  · rename_i existing after hdrop
    rw [hdrop] at hsplit
    have hhead := List.head?_dropWhile_not (fun e => !rival e) l
    rw [hdrop] at hhead
    exact Or.inr ⟨_, existing, after, hsplit.symm, hbefore, by simpa using hhead, rfl⟩

theorem contest_none (h : contest rival loses l new = none) : ∀ e ∈ l, rival e = false := by
  unfold contest at h
  split at h
  · rename_i hdrop
    intro e he
    have hnot := List.dropWhile_eq_nil_iff.1 hdrop e he
    simpa using hnot
  · cases h

section
variable {β : Type*} [DecidableEq β] {key : α → β}

/-- in a list with distinct keys the entry of the key is the only rival -/
theorem contest_key (hkeys : (l.map key).Nodup) {c : Contest α}
    (hc : contest (fun x => key x = key new) loses l new = some c) :
    ∃ old, l.Perm (old :: c.others) ∧ key old = key new ∧ (∀ x ∈ c.others, key x ≠ key new) ∧
      c.survivor = if loses old then new else old := by
  obtain ⟨hbefore, -⟩ := settle_some hc
  have hrest : ∀ old, l.Perm (old :: c.others) → key old = key new → ∀ x ∈ c.others, key x ≠ key new := by
    intro old hl hkey x hx heq
    have hnodup := (hl.map key).nodup_iff.1 hkeys
    rw [List.map_cons, List.nodup_cons] at hnodup
    exact hnodup.1 (List.mem_map.2 ⟨x, hx, heq.trans hkey.symm⟩)
  obtain ⟨hrival, hlose, hnew⟩ | ⟨hrival, hlose, hnew⟩ := contest_rival hc
  · rw [hnew] at hbefore
    have hl : l.Perm (c.dropped :: c.others) := (hbefore.trans (List.Perm.swap _ _ _)).cons_inv
    have hkey : key c.dropped = key new := by simpa using hrival
    exact ⟨c.dropped, hl, hkey, hrest _ hl hkey, by rw [hlose, if_pos rfl, hnew]⟩
  · rw [hnew] at hbefore
    have hl : l.Perm (c.survivor :: c.others) := hbefore.cons_inv
    have hkey : key c.survivor = key new := by simpa using hrival
    exact ⟨c.survivor, hl, hkey, hrest _ hl hkey, by rw [hlose, if_neg Bool.false_ne_true]⟩

theorem mem_settle_key (hkeys : (l.map key).Nodup) {e : α} :
    e ∈ settle (fun x => key x = key new) loses l new ↔
      (e ∈ l ∧ (key e ≠ key new ∨ loses e = false)) ∨ (e = new ∧ ∀ old ∈ l, key old = key new → loses old = true) := by
  cases hc : contest (fun x => decide (key x = key new)) loses l new with
  | none =>
    have hnone : ∀ x ∈ l, key x ≠ key new := by simpa using contest_none hc
    rw [settle_none hc, List.mem_append, List.mem_singleton]
    constructor
    · intro h
      rcases h with h | h
      · exact Or.inl ⟨h, Or.inl (hnone e h)⟩
      · exact Or.inr ⟨h, fun old hold hkey => absurd hkey (hnone old hold)⟩
    · intro h
      exact h.imp (·.1) (·.1)
  | some c =>
    obtain ⟨old, hl, hkey, hne, hsurvivor⟩ := contest_key hkeys hc
    rw [(settle_some hc).2.mem_iff, List.mem_cons, hsurvivor]
    simp only [hl.mem_iff, List.mem_cons, forall_eq_or_imp, hkey, true_imp_iff]
    have hothers : ∀ x ∈ c.others, key x = key new → loses x = true := fun x hx heq => absurd heq (hne x hx)
    by_cases hlose : loses old = true
    · simp only [hlose, if_true, true_and]
      constructor
      · intro h
        rcases h with h | h
        · exact Or.inr ⟨h, hothers⟩
        · exact Or.inl ⟨Or.inr h, Or.inl (hne e h)⟩
      · intro h
        rcases h with ⟨h | h, hnot⟩ | ⟨h, -⟩
        · rw [h] at hnot
          exact absurd hnot (by simp [hkey, hlose])
        · exact Or.inr h
        · exact Or.inl h
    · simp only [hlose, Bool.false_eq_true, false_and, and_false, or_false]
      constructor
      · intro h
        refine ⟨h, ?_⟩
        rcases h with h | h
        · exact Or.inr (by simpa [h] using hlose)
        · exact Or.inl (hne e h)
      · intro h
        exact h.1

/-- the list keeps one entry a key -/
theorem settle_keys (hkeys : (l.map key).Nodup) : ((settle (fun x => key x = key new) loses l new).map key).Nodup := by
  cases hc : contest (fun x => decide (key x = key new)) loses l new with
  | none =>
    have hnone : ∀ x ∈ l, key x ≠ key new := by simpa using contest_none hc
    rw [settle_none hc, List.map_append, List.map_singleton, ← List.concat_eq_append, List.nodup_concat]
    refine ⟨?_, hkeys⟩
    intro hmem
    obtain ⟨x, hx, heq⟩ := List.mem_map.1 hmem
    exact hnone x hx heq
  | some c =>
    obtain ⟨old, hl, hkey, -, hsurvivor⟩ := contest_key hkeys hc
    have hsame : key c.survivor = key old := by
      rw [hsurvivor]
      split
      · exact hkey.symm
      · rfl
    rw [((settle_some hc).2.map key).nodup_iff, List.map_cons, hsame]
    exact (hl.map key).nodup_iff.1 hkeys

end

end

theorem mem_foldl_settle {mk : γ → α} {rival loses : γ → α → Bool} {b : List α} {l : List γ} {e : α}
    (h : e ∈ l.foldl (fun b x => settle (rival x) (loses x) b (mk x)) b) : e ∈ b ∨ ∃ x ∈ l, e = mk x := by
  induction l generalizing b with
  | nil => exact Or.inl h
  | cons x l ih =>
    rcases ih h with h | ⟨y, hy, rfl⟩
    · rcases mem_settle h with h | rfl
      · exact Or.inl h
      · exact Or.inr ⟨x, List.mem_cons_self, rfl⟩
    · exact Or.inr ⟨y, List.mem_cons_of_mem x hy, rfl⟩

/-! ## What a loop carries to the end -/

/-- something in the list carries every target -/
def Covers (carries : γ → ι → Prop) (T : ι → Prop) (l : List γ) : Prop := ∀ t, T t → ∃ x ∈ l, carries x t

/-- the round drops a carrier of a target that nothing else carries, neither the survivor nor an entry of `rest` -/
def Contest.Loses (carries : γ → ι → Prop) (T : ι → Prop) (c : Contest γ) (rest : List γ) : Prop :=
  ∃ t, T t ∧ carries c.dropped t ∧ ∀ x ∈ c.survivor :: c.others ++ rest, ¬ carries x t

def Contest.map (f : α → γ) (c : Contest α) : Contest γ := ⟨f c.dropped, f c.survivor, c.others.map f⟩

variable {carries : γ → ι → Prop} {T : ι → Prop}

theorem Covers.of_subset {l l' : List γ} (h : Covers carries T l) (hsub : ∀ x ∈ l, x ∈ l') : Covers carries T l' :=
  fun t ht => by
    obtain ⟨x, hx, hc⟩ := h t ht
    exact ⟨x, hsub x hx, hc⟩

theorem covers_perm {l l' : List γ} (h : l.Perm l') : Covers carries T l ↔ Covers carries T l' :=
  ⟨fun hc => hc.of_subset fun _ hx => h.mem_iff.1 hx, fun hc => hc.of_subset fun _ hx => h.mem_iff.2 hx⟩

/-- dropping one of two keeps the cover exactly when the drop loses nothing -/
theorem covers_drop (c : Contest γ) (rest : List γ) :
    Covers carries T (c.survivor :: c.others ++ rest) ↔
      Covers carries T (c.dropped :: c.survivor :: c.others ++ rest) ∧ ¬ c.Loses carries T rest := by
  constructor
  · intro h
    refine ⟨h.of_subset fun x hx => List.mem_cons_of_mem _ hx, ?_⟩
    rintro ⟨t, ht, -, hnone⟩
    obtain ⟨x, hx, hc⟩ := h t ht
    exact hnone x hx hc
  · rintro ⟨h, hlose⟩ t ht
    obtain ⟨x, hx, hc⟩ := h t ht
    rcases List.mem_cons.1 hx with rfl | hx
    · by_contra hnone
      exact hlose ⟨t, ht, hc, fun y hy hcy => hnone ⟨y, hy, hcy⟩⟩
    · exact ⟨x, hx, hc⟩

/-- **One round.** The list holds entries `view`ed as elements; `rest` is what the loop has not reached, or what stands
beside the list. -/
theorem covers_settle (view : α → γ) (rival loses : α → Bool) (l : List α) (new : α) (rest : List γ) :
    Covers carries T ((settle rival loses l new).map view ++ rest) ↔
      Covers carries T (l.map view ++ view new :: rest) ∧
        ∀ c, contest rival loses l new = some c → ¬ (c.map view).Loses carries T rest := by
  have hmid : (l.map view ++ view new :: rest).Perm ((new :: l).map view ++ rest) := List.perm_middle
  cases hc : contest rival loses l new with
  | none =>
    rw [settle_none hc, covers_perm hmid]
    have hend : ((l ++ [new]).map view ++ rest).Perm ((new :: l).map view ++ rest) :=
      ((List.perm_append_singleton new l).map view).append_right rest
    rw [covers_perm hend]
    exact ⟨fun h => ⟨h, fun c hc' => by cases hc'⟩, fun h => h.1⟩
  | some c =>
    obtain ⟨hbefore, hafter⟩ := settle_some hc
    rw [covers_perm hmid, covers_perm ((hbefore.map view).append_right rest),
      covers_perm ((hafter.map view).append_right rest)]
    refine (covers_drop (c.map view) rest).trans (and_congr_right fun _ => ?_)
    constructor
    · intro h c' hc'
      obtain rfl := Option.some.inj hc'
      exact h
    · intro h
      exact h c rfl

/-- **Loop rule.** Where every round keeps `I` exactly when it meets `Step`, the loop keeps it exactly when all its rounds
do. `I` may mention what is left to do. -/
theorem foldl_keeps {f : β → γ → β} (I : β → List γ → Prop) (Step : β → γ → List γ → Prop)
    (hround : ∀ b x l, I (f b x) l ↔ I b (x :: l) ∧ Step b x l) (b : β) (l : List γ) :
    I (l.foldl f b) [] ↔ I b l ∧ ∀ pre x post, pre ++ x :: post = l → Step (pre.foldl f b) x post := by
  induction l generalizing b with
  | nil =>
    constructor
    · intro h
      exact ⟨h, fun pre x post heq => by simp at heq⟩
    · intro h
      exact h.1
  | cons y l ih =>
    rw [List.foldl_cons, ih, hround]
    constructor
    · rintro ⟨⟨h, hstep⟩, hsteps⟩
      refine ⟨h, fun pre x post heq => ?_⟩
      cases pre with
      | nil =>
        obtain ⟨rfl, rfl⟩ := List.cons.inj heq
        exact hstep
      | cons z pre =>
        obtain ⟨rfl, hrest⟩ := List.cons.inj heq
        exact hsteps pre x post hrest
    · rintro ⟨h, hsteps⟩
      exact ⟨⟨h, hsteps [] y l rfl⟩, fun pre x post heq => hsteps (y :: pre) x post (by rw [← heq]; rfl)⟩

/-- **The loop.** Over all rounds, beside a fixed `rest`: everything is carried to the end exactly when it was carried at
the start and no round loses anything. -/
theorem covers_foldl (view : α → γ) (mk : γ → α) (hmk : ∀ x, view (mk x) = x) (rival loses : γ → α → Bool) (b : List α)
    (l rest : List γ) :
    Covers carries T ((l.foldl (fun b x => settle (rival x) (loses x) b (mk x)) b).map view ++ rest) ↔
      Covers carries T (b.map view ++ (l ++ rest)) ∧
        ∀ pre x post, pre ++ x :: post = l → ∀ c,
          contest (rival x) (loses x) (pre.foldl (fun b x => settle (rival x) (loses x) b (mk x)) b) (mk x) = some c →
            ¬ (c.map view).Loses carries T (post ++ rest) := by
  refine foldl_keeps (fun b l => Covers carries T (b.map view ++ (l ++ rest)))
    (fun b x post => ∀ c, contest (rival x) (loses x) b (mk x) = some c →
      ¬ (c.map view).Loses carries T (post ++ rest)) (fun b x l => ?_) b l
  rw [covers_settle, hmk, List.cons_append]

end AstramemLocal.Core
