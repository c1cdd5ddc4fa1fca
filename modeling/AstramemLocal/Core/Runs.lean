/-
Invariants of loops and runs. `foldlM_some`, `foldlM_ok` and `foldl_rest` carry an invariant, which may mention the
rest of the list, through a loop; `foldl_keeps_iff` says when a loop that appends rows has appended none.
`Along step P s ops` says that every operation of a run meets `P` in the state it starts from, and `along_inv` carries an
invariant through such a run; `along_of_prefixes` is the way back, from the states of a run to its steps.
-/
import Mathlib.Tactic.Common
import Mathlib.Data.List.Basic

namespace AstramemLocal.Core

variable {α β ε : Type*}

theorem foldlM_some {f : β → α → Option β} (I : List α → β → Prop)
    (step : ∀ a l b b', I (a :: l) b → f b a = some b' → I l b') {l : List α} {b r : β} (hb : I l b)
    (h : l.foldlM f b = some r) : I [] r := by
  induction l generalizing b with
  | nil =>
    simp only [List.foldlM_nil, pure, Option.some.injEq] at h
    exact h ▸ hb
  | cons a l ih =>
    simp only [List.foldlM_cons, bind, Option.bind_eq_some_iff] at h
    obtain ⟨b', h1, h2⟩ := h
    exact ih (step a l b b' hb h1) h2

theorem foldlM_ok {f : β → α → Except ε β} (I : List α → β → Prop)
    (step : ∀ a l b b', I (a :: l) b → f b a = .ok b' → I l b') {l : List α} {b r : β} (hb : I l b)
    (h : l.foldlM f b = .ok r) : I [] r := by
  induction l generalizing b with
  | nil =>
    simp only [List.foldlM_nil, pure, Except.pure, Except.ok.injEq] at h
    exact h ▸ hb
  | cons a l ih =>
    cases hf : f b a with
    | error e => simp [List.foldlM_cons, bind, Except.bind, hf] at h
    | ok b' =>
      simp only [List.foldlM_cons, bind, Except.bind, hf] at h
      exact ih (step a l b b' hb hf) h

theorem foldl_rest {f : β → α → β} (I : List α → β → Prop) (step : ∀ a l b, I (a :: l) b → I l (f b a))
    {l : List α} {b : β} (hb : I l b) : I [] (l.foldl f b) := by
  induction l generalizing b with
  | nil => exact hb
  | cons a l ih => exact ih (step a l b hb)

/-- a loop whose rounds return under an invariant is the loop of what they return -/
theorem foldlM_eq_foldl {f : β → α → Except ε β} {g : β → α → β} (I : β → Prop) {l : List α}
    (step : ∀ b, I b → ∀ a ∈ l, f b a = .ok (g b a) ∧ I (g b a)) {b : β} (hb : I b) :
    l.foldlM f b = .ok (l.foldl g b) := by
  induction l generalizing b with
  | nil => rfl
  | cons a l ih =>
    obtain ⟨hf, hg⟩ := step b hb a List.mem_cons_self
    rw [List.foldlM_cons, hf]
    exact ih (fun b hb c hc => step b hb c (List.mem_cons_of_mem _ hc)) hg

theorem foldl_prefix {γ : Type*} {f : β → α → β} {g : β → List γ} (I : β → Prop) {l : List α}
    (step : ∀ b, I b → ∀ a ∈ l, I (f b a) ∧ g b <+: g (f b a)) {b : β} (hb : I b) : g b <+: g (l.foldl f b) := by
  induction l generalizing b with
  | nil => exact List.prefix_rfl
  | cons a l ih =>
    obtain ⟨hI, hpre⟩ := step b hb a List.mem_cons_self
    exact hpre.trans (ih (fun b hb c hc => step b hb c (List.mem_cons_of_mem _ hc)) hI)

/-- **Appending loops.** A loop that only appends to a table has left it as it was when each of its rounds does, from
the table as it was. -/
theorem foldl_keeps_iff {γ : Type*} {f : β → α → β} {g : β → List γ} (I : β → Prop) (P : α → Prop) {rows : List γ}
    {l : List α} (step : ∀ b, I b → ∀ a ∈ l, I (f b a) ∧ g b <+: g (f b a))
    (round : ∀ b, I b → g b = rows → ∀ a ∈ l, (g (f b a) = g b ↔ P a)) {b : β} (hb : I b) (hrows : g b = rows) :
    g (l.foldl f b) = rows ↔ ∀ a ∈ l, P a := by
  induction l generalizing b with
  | nil => simp [hrows]
  | cons a l ih =>
    obtain ⟨hI, hpre⟩ := step b hb a List.mem_cons_self
    have hround := round b hb hrows a List.mem_cons_self
    have hstep : ∀ b, I b → ∀ c ∈ l, I (f b c) ∧ g b <+: g (f b c) :=
      fun b hb c hc => step b hb c (List.mem_cons_of_mem _ hc)
    rw [List.forall_mem_cons]
    by_cases hP : P a
    · have hsame : g (f b a) = rows := (hround.2 hP).trans hrows
      rw [List.foldl_cons, ih hstep (fun b hb hr c hc => round b hb hr c (List.mem_cons_of_mem _ hc)) hI hsame]
      exact (and_iff_right hP).symm
    · refine iff_of_false ?_ fun h => hP h.1
      intro hend
      -- the rows this round has added are still there
      have hlater : g (f b a) <+: g b := by
        rw [hrows, ← hend]
        exact foldl_prefix I hstep hI
      exact hP (hround.1 (hlater.eq_of_length (Nat.le_antisymm hlater.length_le hpre.length_le)))

/-- a loop whose rounds can do more returns what it returned -/
theorem foldlM_mono {f g : β → α → Option β} (hfg : ∀ b a r, f b a = some r → g b a = some r) {l : List α} {b r : β}
    (h : l.foldlM f b = some r) : l.foldlM g b = some r := by
  induction l generalizing b with
  | nil => exact h
  | cons a l ih =>
    simp only [List.foldlM_cons, bind, Option.bind_eq_some_iff] at h ⊢
    obtain ⟨b', h1, h2⟩ := h
    exact ⟨b', hfg b a b' h1, ih h2⟩

/-- every operation of the run meets `P` in the state it starts from -/
def Along (step : β → α → β) (P : β → α → Prop) : β → List α → Prop
  | _, [] => True
  | s, o :: ops => P s o ∧ Along step P (step s o) ops

instance Along.decidable (step : β → α → β) (P : β → α → Prop) [∀ s o, Decidable (P s o)] :
    ∀ s ops, Decidable (Along step P s ops)
  | _, [] => isTrue trivial
  | s, o :: ops => @instDecidableAnd _ _ _ (Along.decidable step P (step s o) ops)

theorem Along.mono {step : β → α → β} {P Q : β → α → Prop} (hPQ : ∀ s o, P s o → Q s o) {s : β} {ops : List α}
    (h : Along step P s ops) : Along step Q s ops := by
  induction ops generalizing s with
  | nil => trivial
  | cons o ops ih => exact ⟨hPQ s o h.1, ih h.2⟩

theorem Along.and_forall {step : β → α → β} {P : β → α → Prop} {Q : α → Prop} {s : β} {ops : List α}
    (h : Along step P s ops) (hQ : ∀ o ∈ ops, Q o) : Along step (fun s o => P s o ∧ Q o) s ops := by
  induction ops generalizing s with
  | nil => trivial
  | cons o ops ih =>
    exact ⟨⟨h.1, hQ o List.mem_cons_self⟩, ih h.2 fun p hp => hQ p (List.mem_cons_of_mem _ hp)⟩

theorem along_trivial (step : β → α → β) (s : β) (ops : List α) : Along step (fun _ _ => True) s ops := by
  induction ops generalizing s with
  | nil => trivial
  | cons o ops ih => exact ⟨trivial, ih _⟩

/-- **Run rule.** What each operation preserves where `P` holds, a run along `P` preserves. -/
theorem along_inv {step : β → α → β} {P : β → α → Prop} (I : β → Prop)
    (hstep : ∀ s o, I s → P s o → I (step s o)) {s : β} {ops : List α} (hs : I s) (h : Along step P s ops) :
    I (ops.foldl step s) := by
  induction ops generalizing s with
  | nil => exact hs
  | cons o ops ih => exact ih (hstep s o hs h.1) h.2

/-- a run along `P` goes along what `P` and an invariant give -/
theorem Along.carry {step : β → α → β} {P Q : β → α → Prop} (I : β → Prop)
    (hstep : ∀ s o, I s → P s o → I (step s o)) (hPQ : ∀ s o, I s → P s o → Q s o) {s : β} {ops : List α} (hs : I s)
    (h : Along step P s ops) : Along step Q s ops := by
  induction ops generalizing s with
  | nil => trivial
  | cons o ops ih => exact ⟨hPQ s o hs h.1, ih (hstep s o hs h.1) h.2⟩

theorem Along.initial {step : β → α → β} {P : β → α → Prop} {s : β} {pre ops : List α} (h : Along step P s ops)
    (hpre : pre <+: ops) : Along step P s pre := by
  induction ops generalizing s pre with
  | nil => rw [List.prefix_nil.1 hpre]; trivial
  | cons o ops ih =>
    cases pre with
    | nil => trivial
    | cons p pre =>
      obtain ⟨rfl, htail⟩ := List.cons_prefix_cons.1 hpre
      exact ⟨h.1, ih h.2 htail⟩

theorem along_append {step : β → α → β} {P : β → α → Prop} {s : β} {pre ops : List α} :
    Along step P s (pre ++ ops) ↔ Along step P s pre ∧ Along step P (pre.foldl step s) ops := by
  induction pre generalizing s with
  | nil => simp [Along]
  | cons p pre ih => simp only [List.cons_append, Along, ih, List.foldl_cons, and_assoc]

/-- the same, read off the prefixes -/
theorem along_iff {step : β → α → β} {P : β → α → Prop} {s : β} {ops : List α} :
    Along step P s ops ↔ ∀ pre o, pre ++ [o] <+: ops → P (pre.foldl step s) o := by
  constructor
  · rintro h pre o ⟨post, rfl⟩
    exact (along_append.1 (along_append.1 h).1).2.1
  · intro h
    induction ops generalizing s with
    | nil => trivial
    | cons o ops ih =>
      refine ⟨h [] o (List.cons_prefix_cons.2 ⟨rfl, List.nil_prefix⟩), ih fun pre q hpre => ?_⟩
      exact h (o :: pre) q (List.cons_prefix_cons.2 ⟨rfl, hpre⟩)

/-- a run of a machine with more state goes along what the run of its projection goes along -/
theorem along_comap {γ : Type*} {step : β → α → β} {step' : γ → α → γ} {P : β → α → Prop} {f : γ → β}
    (hf : ∀ s o, f (step' s o) = step (f s) o) {s : γ} {ops : List α} :
    Along step' (fun s o => P (f s) o) s ops ↔ Along step P (f s) ops := by
  induction ops generalizing s with
  | nil => exact Iff.rfl
  | cons o ops ih => rw [Along, Along, ih, hf]

/-- a run all of whose states are good goes along every `P` whose violation makes the next state bad -/
theorem along_of_prefixes {step : β → α → β} {P : β → α → Prop} (Good : β → Prop) {s : β} {ops : List α}
    (hbad : ∀ s, ∀ o ∈ ops, ¬ P s o → ¬ Good (step s o)) (h : ∀ pre, pre <+: ops → Good (pre.foldl step s)) :
    Along step P s ops := by
  induction ops generalizing s with
  | nil => trivial
  | cons o ops ih =>
    refine ⟨?_, ih (fun u p hp => hbad u p (List.mem_cons_of_mem _ hp)) fun pre hpre => ?_⟩
    · by_contra hP
      exact hbad s o List.mem_cons_self hP (h [o] (List.cons_prefix_cons.2 ⟨rfl, List.nil_prefix⟩))
    · exact h (o :: pre) (List.cons_prefix_cons.2 ⟨rfl, hpre⟩)

/-- a run on which a measure decreases until `done` holds reaches it -/
theorem exists_done {s : ℕ → β} (measure : β → ℕ) (done : β → Prop) (start : ℕ)
    (h : ∀ n, start ≤ n → ¬ done (s n) → measure (s (n + 1)) < measure (s n)) : ∃ n, done (s n) := by
  have hfrom : ∀ bound n, start ≤ n → measure (s n) ≤ bound → ∃ m, done (s m) := by
    intro bound
    induction bound with
    | zero =>
      intro n hn hle
      by_contra hnone
      have hlt := h n hn fun hdone => hnone ⟨n, hdone⟩
      omega
    | succ bound ih =>
      intro n hn hle
      by_cases hdone : done (s n)
      · exact ⟨n, hdone⟩
      · have hlt := h n hn hdone
        exact ih (n + 1) (by omega) (by omega)
  exact hfrom _ start (Nat.le_refl _) (Nat.le_refl _)

end AstramemLocal.Core
