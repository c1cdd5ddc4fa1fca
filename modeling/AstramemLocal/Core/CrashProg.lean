/-
Programs that can be cut off. A run from a state shows the states a crash can leave on its way, the state it ends in and what
it returns or throws. A triple `Triple P x Q T C` says of the runs from `P` that they return in `Q` or throw in `T`, and that
`C` holds of every state a crash leaves: it is what a recovery may count on.

- the rules, one for each way to build a program: `triple_pure`, `triple_bind`, `triple_write`, `triple_read`,
  `triple_fail`, `triple_ite`, and `Triple.weaken`.
- `Triple.left`: a program that is cut off anywhere, or not at all, leaves `C`.
-/
import Mathlib.Tactic.Common

namespace AstramemLocal.Core

variable {σ ε α β : Type}

structure Ran (σ ε α : Type) where
  /-- the states a crash can leave after the first step has begun -/
  seen : List σ
  final : σ
  result : Except ε α

def CrashProg (σ ε α : Type) := σ → Ran σ ε α

namespace CrashProg

def andThen (x : CrashProg σ ε α) (f : α → CrashProg σ ε β) : CrashProg σ ε β := fun s =>
  match (x s).result with
  | .ok a => ⟨(x s).seen ++ (f a (x s).final).seen, (f a (x s).final).final, (f a (x s).final).result⟩
  | .error e => ⟨(x s).seen, (x s).final, .error e⟩

instance : Monad (CrashProg σ ε) where
  pure a := fun s => ⟨[], s, .ok a⟩
  bind := andThen

/-- a step that may be cut off in one of the states `between` -/
def write (between : σ → List σ) (f : σ → σ) : CrashProg σ ε Unit := fun s => ⟨between s ++ [f s], f s, .ok ()⟩

/-- a step that changes nothing, and may throw -/
def read (g : σ → Except ε α) : CrashProg σ ε α := fun s => ⟨[], s, g s⟩

def fail (e : ε) : CrashProg σ ε α := fun s => ⟨[], s, .error e⟩

/-- what is left when the program is cut off at its `cut`-th state, or not at all -/
def left (x : CrashProg σ ε α) (s : σ) : Option ℕ → σ
  | none => (x s).final
  | some cut => (s :: (x s).seen)[cut]?.getD (x s).final

/-! ## Triples -/

structure Triple (P : σ → Prop) (x : CrashProg σ ε α) (Q : α → σ → Prop) (T : ε → σ → Prop) (C : σ → Prop) : Prop where
  returns : ∀ s, P s → ∀ a, (x s).result = .ok a → Q a (x s).final
  throws : ∀ s, P s → ∀ e, (x s).result = .error e → T e (x s).final
  crash : ∀ s, P s → ∀ t ∈ (x s).seen, C t

variable {P : σ → Prop} {C : σ → Prop} {Q : α → σ → Prop} {R : β → σ → Prop} {T : ε → σ → Prop} {x : CrashProg σ ε α}
  {f : α → CrashProg σ ε β}

theorem Triple.weaken {Q' : α → σ → Prop} {T' : ε → σ → Prop} (h : Triple P x Q T C) (hQ : ∀ a s, Q a s → Q' a s)
    (hT : ∀ e s, T e s → T' e s) : Triple P x Q' T' C where
  returns s hs a ha := hQ a _ (h.returns s hs a ha)
  throws s hs e he := hT e _ (h.throws s hs e he)
  crash := h.crash

/-- what does not depend on the state is a hypothesis -/
theorem triple_of_fact {p : Prop} (h : p → Triple P x Q T C) : Triple (fun s => P s ∧ p) x Q T C where
  returns s hs := (h hs.2).returns s hs.1
  throws s hs := (h hs.2).throws s hs.1
  crash s hs := (h hs.2).crash s hs.1

theorem triple_pure {a : α} (h : ∀ s, P s → Q a s) : Triple P (pure a : CrashProg σ ε α) Q T C where
  returns s hs b hb := by
    cases hb
    exact h s hs
  throws s hs e he := by cases he
  crash s hs t ht := by cases ht

theorem triple_fail {e : ε} (h : ∀ s, P s → T e s) : Triple P (fail e : CrashProg σ ε α) Q T C where
  returns s hs a ha := by cases ha
  throws s hs e' he := by
    cases he
    exact h s hs
  crash s hs t ht := by cases ht

theorem triple_read {g : σ → Except ε α} (h : ∀ s, P s → ∀ a, g s = .ok a → Q a s) (hT : ∀ s, P s → ∀ e, g s = .error e → T e s) :
    Triple P (read g) Q T C where
  returns s hs a ha := h s hs a ha
  throws s hs e he := hT s hs e he
  crash s hs t ht := by cases ht

theorem triple_write {between : σ → List σ} {g : σ → σ} {Q : Unit → σ → Prop} (hbetween : ∀ s, P s → ∀ t ∈ between s, C t)
    (hdone : ∀ s, P s → Q () (g s)) (hC : ∀ s, P s → C (g s)) : Triple P (write between g : CrashProg σ ε Unit) Q T C where
  returns s hs _ _ := hdone s hs
  throws s hs e he := by cases he
  crash s hs t ht := by
    rcases List.mem_append.1 ht with ht | ht
    · exact hbetween s hs t ht
    · rw [List.mem_singleton.1 ht]
      exact hC s hs

theorem bind_ok {s : σ} {a : α} (h : (x s).result = .ok a) : (x >>= f) s =
    ⟨(x s).seen ++ (f a (x s).final).seen, (f a (x s).final).final, (f a (x s).final).result⟩ := by
  change andThen x f s = _
  simp only [andThen, h]

theorem bind_error {s : σ} {e : ε} (h : (x s).result = .error e) : (x >>= f) s = ⟨(x s).seen, (x s).final, .error e⟩ := by
  change andThen x f s = _
  simp only [andThen, h]

theorem triple_bind (hx : Triple P x Q T C) (hf : ∀ a, Triple (Q a) (f a) R T C) : Triple P (x >>= f) R T C := by
  refine ⟨?_, ?_, ?_⟩
  · intro s hs b hb
    cases hresult : (x s).result with
    | ok a =>
      rw [bind_ok hresult] at hb ⊢
      exact (hf a).returns _ (hx.returns s hs a hresult) b hb
    | error e =>
      rw [bind_error hresult] at hb
      cases hb
  · intro s hs e he
    cases hresult : (x s).result with
    | ok a =>
      rw [bind_ok hresult] at he ⊢
      exact (hf a).throws _ (hx.returns s hs a hresult) e he
    | error e' =>
      rw [bind_error hresult] at he ⊢
      cases he
      exact hx.throws s hs e hresult
  · intro s hs t ht
    cases hresult : (x s).result with
    | ok a =>
      rw [bind_ok hresult] at ht
      rcases List.mem_append.1 ht with ht | ht
      · exact hx.crash s hs t ht
      · exact (hf a).crash _ (hx.returns s hs a hresult) t ht
    | error e =>
      rw [bind_error hresult] at ht
      exact hx.crash s hs t ht

theorem triple_ite {c : Prop} [Decidable c] {y : CrashProg σ ε α} (hx : c → Triple P x Q T C) (hy : ¬ c → Triple P y Q T C) :
    Triple P (if c then x else y) Q T C := by
  split
  next h => exact hx h
  next h => exact hy h

theorem left_congr {y : CrashProg σ ε α} {s : σ} (h : x s = y s) (cut : Option ℕ) : x.left s cut = y.left s cut := by
  cases cut <;> simp only [CrashProg.left, h]

/-- **What a crash leaves.** The state before, one the run shows, or the one it ends in. -/
theorem Triple.left (h : Triple P x (fun _ => C) (fun _ => C) C) {s : σ} (hs : P s) (hC : C s) (cut : Option ℕ) :
    C (x.left s cut) := by
  have hfinal : C (x s).final := by
    cases hresult : (x s).result with
    | ok a => exact h.returns s hs a hresult
    | error e => exact h.throws s hs e hresult
  cases cut with
  | none => exact hfinal
  | some cut =>
    unfold CrashProg.left
    dsimp only
    cases hget : (s :: (x s).seen)[cut]? with
    | none => exact hfinal
    | some t =>
      rcases List.mem_cons.1 (List.mem_of_getElem? hget) with rfl | ht
      · exact hC
      · exact h.crash s hs t ht

end CrashProg

end AstramemLocal.Core
