/-
`getOrCreateKey` of `src/storage/keystore.ts`: the key of the encrypted database, from the OS credential store (a scoped
entry, a legacy one) or from the file `db.key`. Processes start and call in any order, each with a cache of its own; what
the credential store answers, and whether it answers, is chosen anew at every call.

- `key_kept`: in a run in which every call after the first one sees the key at the first place it can look, and writes no
  other key over it, all calls return one key and no stored key is overwritten.
- `call_keeps_iff`: one call keeps the key exactly under this condition, as long as the key it may draw is a new one.
- `silent_start_loses_key`: a start on which the store is silent returns a second key, and a failed read lets the key in the
  store be overwritten.
-/
import AstramemLocal.Core.Runs

namespace AstramemLocal.Storage

open AstramemLocal.Core

/-! ## Model -/

inductive KeySource where
  | credentialStore
  | keyFile
deriving DecidableEq, Repr

inductive KeyIdentity where
  | scopedService
  | legacyService
deriving DecidableEq, Repr

structure KeyResult where
  key : String
  source : KeySource
  identity : Option KeyIdentity
deriving DecidableEq, Repr

/-- where a key may be; `file` is what a read of `db.key` gives, trimmed -/
structure Places where
  scopedEntry : Option String
  legacyEntry : Option String
  file : Option String
deriving DecidableEq, Repr

/-- `getPassword`: it answers (with the entry, with null, or with a NoEntry error), fails otherwise, or times out -/
inductive ReadAnswer where
  | answers
  | error
  | timeout
deriving DecidableEq, Repr

/-- `setPassword`: it returns, or throws and may have been carried out nevertheless -/
inductive WriteAnswer where
  | stored
  | failed (landed : Bool)
deriving DecidableEq, Repr

def WriteAnswer.landed : WriteAnswer → Bool
  | .stored => true
  | .failed landed => landed

/-- what the credential store does in one call; `opens` is whether the constructor of the entry returns -/
structure Answers where
  scopedOpens : Bool
  scopedRead : ReadAnswer
  legacyOpens : Bool
  legacyRead : ReadAnswer
  write : WriteAnswer
deriving DecidableEq, Repr

/-- the value a read brings back; an empty string counts as no key -/
def getPassword (stored : Option String) : ReadAnswer → Option String
  | .answers => stored.filter (· ≠ "")
  | _ => none

def Answers.legacyKey (a : Answers) (stored : Option String) : Option String :=
  if a.legacyOpens then getPassword stored a.legacyRead else none

def Answers.timedOut (a : Answers) : Bool := a.scopedRead = .timeout || a.legacyOpens && a.legacyRead = .timeout

/-- `none` where it throws -/
def getOrCreateCredentialStoreKey (s : Places) (a : Answers) (fresh : String) : Places × Option KeyResult :=
  if a.scopedOpens then
    match getPassword s.scopedEntry a.scopedRead with
    | some key => (s, some ⟨key, .credentialStore, some .scopedService⟩)
    | none =>
      match a.legacyKey s.legacyEntry with
      | some key => (s, some ⟨key, .credentialStore, some .legacyService⟩)
      | none =>
        if a.timedOut then (s, none)
        else
          let s' := if a.write.landed then { s with scopedEntry := some fresh } else s
          match a.write with
          | .stored => (s', some ⟨fresh, .credentialStore, some .scopedService⟩)
          | .failed _ => (s', none)
  else (s, none)

def getOrCreateKeyFile (s : Places) (fresh : String) : Places × KeyResult :=
  match s.file with
  | some key => (s, ⟨key, .keyFile, none⟩)
  | none => ({ s with file := some fresh }, ⟨fresh, .keyFile, none⟩)

structure Process where
  /-- ASTRA_MEMORY_TEST_FORCE_KEYFILE=1 -/
  forceKeyfile : Bool
  cached : Option KeyResult
deriving DecidableEq, Repr

structure Machine where
  places : Places
  procs : List Process
  /-- every key returned so far -/
  returned : List KeyResult
deriving DecidableEq, Repr

/-- `getOrCreateKey`, with the two keys it may draw: what it leaves in the places, what it returns and caches -/
def getOrCreateKey (s : Places) (q : Process) (a : Answers) (fresh fresh' : String) : Places × KeyResult × Process :=
  if q.forceKeyfile then
    let r := getOrCreateKeyFile s fresh'
    (r.1, r.2, q)
  else
    match q.cached with
    | some result => (s, result, q)
    | none =>
      match getOrCreateCredentialStoreKey s a fresh with
      | (s', some result) => (s', result, { q with cached := some result })
      | (s', none) =>
        let r := getOrCreateKeyFile s' fresh'
        (r.1, r.2, { q with cached := some r.2 })

inductive Op where
  | start (forceKeyfile : Bool)
  | call (p : ℕ) (a : Answers) (fresh fresh' : String)
deriving DecidableEq, Repr

def step (s : Machine) : Op → Machine
  | .start forceKeyfile => { s with procs := s.procs ++ [⟨forceKeyfile, none⟩] }
  | .call p a fresh fresh' =>
    match s.procs[p]? with
    | none => s
    | some q =>
      match getOrCreateKey s.places q a fresh fresh' with
      | (places, result, q') => ⟨places, s.procs.set p q', s.returned ++ [result]⟩

def init (places : Places) : Machine := ⟨places, [], []⟩

def run (s : Machine) (ops : List Op) : Machine := ops.foldl step s

/-! ## The first place a call can see -/

/-- The scoped entry if it answers with a key, else the legacy one; else, where the store cannot be opened, was silent or
does not take a new key, the key file. -/
def visible (s : Places) (forceKeyfile : Bool) (a : Answers) : Option String :=
  if forceKeyfile || !a.scopedOpens then s.file
  else
    (getPassword s.scopedEntry a.scopedRead).or
      ((a.legacyKey s.legacyEntry).or (if a.timedOut || a.write ≠ .stored then s.file else none))

/-- a new key is written to the scoped entry -/
def mints (s : Places) (forceKeyfile : Bool) (a : Answers) : Bool :=
  !forceKeyfile && a.scopedOpens && (getPassword s.scopedEntry a.scopedRead).isNone && (a.legacyKey s.legacyEntry).isNone &&
    !a.timedOut && a.write.landed

/-- what a call after the first must find, with `K` the key in use -/
def Finds (s : Places) (q : Process) (a : Answers) (K : String) : Prop :=
  (q.forceKeyfile = false ∧ q.cached.isSome) ∨
    (visible s q.forceKeyfile a = some K ∧ (mints s q.forceKeyfile a = true → s.scopedEntry ≠ some K))

instance (s : Places) (q : Process) (a : Answers) (K : String) : Decidable (Finds s q a K) :=
  inferInstanceAs (Decidable (_ ∨ _))

/-- no place that holds `K` holds another key afterwards -/
def Keeps (K : String) (s s' : Places) : Prop :=
  (s.scopedEntry = some K → s'.scopedEntry = some K) ∧ (s.legacyEntry = some K → s'.legacyEntry = some K) ∧
    (s.file = some K → s'.file = some K)

section
variable {s : Places} {q : Process} {a : Answers} {fresh fresh' K : String}

theorem keyFile_spec {t : Places} : (getOrCreateKeyFile t fresh).2.key = t.file.getD fresh ∧
    (getOrCreateKeyFile t fresh).1 = { t with file := some (t.file.getD fresh) } := by
  obtain ⟨entry, legacy, file⟩ := t
  cases file with
  | none => exact ⟨rfl, rfl⟩
  | some key => exact ⟨rfl, rfl⟩

/-- what the store returns, where it does not throw, is visible or newly drawn; where it throws only the file is left -/
theorem store_spec :
    (getOrCreateCredentialStoreKey s a fresh).1 = (if mints s false a then { s with scopedEntry := some fresh } else s) ∧
      match (getOrCreateCredentialStoreKey s a fresh).2 with
      | some result => visible s false a = some result.key ∨ visible s false a = none ∧ result.key = fresh
      | none => visible s false a = s.file := by
  cases ho : a.scopedOpens with
  | false => simp [visible, mints, getOrCreateCredentialStoreKey, ho]
  | true =>
    cases hs : getPassword s.scopedEntry a.scopedRead with
    | some key => simp [visible, mints, getOrCreateCredentialStoreKey, ho, hs]
    | none =>
      cases hl : a.legacyKey s.legacyEntry with
      | some key => simp [visible, mints, getOrCreateCredentialStoreKey, ho, hs, hl]
      | none =>
        cases ht : a.timedOut with
        | true => simp [visible, mints, getOrCreateCredentialStoreKey, ho, hs, hl, ht]
        | false =>
          cases hw : a.write with
          | stored => simp [visible, mints, getOrCreateCredentialStoreKey, ho, hs, hl, ht, hw, WriteAnswer.landed]
          | failed landed => simp [visible, mints, getOrCreateCredentialStoreKey, ho, hs, hl, ht, hw, WriteAnswer.landed]

theorem store_file : (getOrCreateCredentialStoreKey s a fresh).1.file = s.file := by
  rw [store_spec.1]
  split <;> rfl

/-- a call that is not answered from the cache returns the key it sees, or draws one -/
theorem call_key (hq : q.forceKeyfile = true ∨ q.cached = none) :
    (getOrCreateKey s q a fresh fresh').2.1.key ∈ visible s q.forceKeyfile a ∨
      visible s q.forceKeyfile a = none ∧ ((getOrCreateKey s q a fresh fresh').2.1.key = fresh ∨
        (getOrCreateKey s q a fresh fresh').2.1.key = fresh') := by
  -- the last resort, the file, has not been touched before
  have hfile : ∀ {t : Places}, t.file = s.file → (getOrCreateKeyFile t fresh').2.key ∈ s.file ∨
      s.file = none ∧ (getOrCreateKeyFile t fresh').2.key = fresh' := by
    intro t ht
    rw [keyFile_spec.1, ht]
    cases s.file <;> simp
  by_cases hf : q.forceKeyfile = true
  · have := hfile (t := s) rfl
    simp only [getOrCreateKey, hf, if_true, visible, Bool.true_or]
    tauto
  · have hc : q.cached = none := by simpa [hf] using hq
    have hspec := (@store_spec s a fresh).2
    have hkeep := @store_file s a fresh
    cases hst : getOrCreateCredentialStoreKey s a fresh with
    | mk s' r =>
      rw [hst] at hspec hkeep
      cases r with
      | some result =>
        simp only [getOrCreateKey, hf, hc, hst, Bool.false_eq_true, if_false]
        rcases hspec with h | ⟨h, hk⟩
        · exact Or.inl h
        · exact Or.inr ⟨h, Or.inl hk⟩
      | none =>
        simp only [getOrCreateKey, hf, hc, hst, Bool.false_eq_true, if_false]
        have hvis : visible s false a = s.file := hspec
        rw [hvis]
        have := hfile hkeep
        tauto

/-- what a call that is not answered from the cache leaves in the places -/
theorem call_places (hq : q.forceKeyfile = true ∨ q.cached = none) :
    (getOrCreateKey s q a fresh fresh').1.scopedEntry =
        (if mints s q.forceKeyfile a then some fresh else s.scopedEntry) ∧
      (getOrCreateKey s q a fresh fresh').1.legacyEntry = s.legacyEntry ∧
      (s.file = some K → (getOrCreateKey s q a fresh fresh').1.file = some K) := by
  by_cases hf : q.forceKeyfile = true
  · simp only [getOrCreateKey, hf, if_true, keyFile_spec.2, mints, Bool.not_true, Bool.false_and]
    refine ⟨rfl, trivial, fun h => ?_⟩
    rw [h]
    rfl
  · have hc : q.cached = none := by simpa [hf] using hq
    have hspec := (@store_spec s a fresh).1
    have hkeep := @store_file s a fresh
    have hplaces : (getOrCreateKey s q a fresh fresh').1.scopedEntry = (getOrCreateCredentialStoreKey s a fresh).1.scopedEntry ∧
        (getOrCreateKey s q a fresh fresh').1.legacyEntry = (getOrCreateCredentialStoreKey s a fresh).1.legacyEntry ∧
        (s.file = some K → (getOrCreateKey s q a fresh fresh').1.file = some K) := by
      cases hst : getOrCreateCredentialStoreKey s a fresh with
      | mk s' r =>
        rw [hst] at hkeep
        cases r with
        | some result =>
          simp only [getOrCreateKey, hf, hc, hst, Bool.false_eq_true, if_false]
          exact ⟨trivial, trivial, fun h => hkeep.trans h⟩
        | none =>
          simp only [getOrCreateKey, hf, hc, hst, Bool.false_eq_true, if_false, keyFile_spec.2]
          refine ⟨trivial, trivial, fun h => ?_⟩
          have : s'.file = some K := hkeep.trans h
          rw [this]
          rfl
    rw [hspec] at hplaces
    rw [hplaces.1, hplaces.2.1, Bool.eq_false_iff.2 hf]
    refine ⟨?_, ?_, hplaces.2.2⟩
    · split <;> rfl
    · split <;> rfl

theorem call_cached {r : KeyResult} (hf : q.forceKeyfile = false) (hc : q.cached = some r) :
    getOrCreateKey s q a fresh fresh' = (s, r, q) := by
  simp [getOrCreateKey, hf, hc]

/-- a call that finds the key in use returns it and overwrites it nowhere -/
theorem finds_keeps (hcache : ∀ r, q.cached = some r → r.key = K) (h : Finds s q a K) :
    (getOrCreateKey s q a fresh fresh').2.1.key = K ∧ Keeps K s (getOrCreateKey s q a fresh fresh').1 := by
  have hcached : q.forceKeyfile = false → ∀ r, q.cached = some r →
      (getOrCreateKey s q a fresh fresh').2.1.key = K ∧ Keeps K s (getOrCreateKey s q a fresh fresh').1 := by
    intro hf r hr
    rw [call_cached hf hr]
    exact ⟨hcache r hr, id, id, id⟩
  rcases h with ⟨hf, hsome⟩ | ⟨hv, hm⟩
  · obtain ⟨r, hr⟩ := Option.isSome_iff_exists.1 hsome
    exact hcached hf r hr
  · by_cases hq : q.forceKeyfile = true ∨ q.cached = none
    · have hpl := @call_places s q a fresh fresh' K hq
      constructor
      · rcases @call_key s q a fresh fresh' hq with h | ⟨h, -⟩
        · exact Option.some.inj (h.symm.trans hv)
        · rw [hv] at h
          cases h
      · unfold Keeps
        rw [hpl.1, hpl.2.1]
        refine ⟨fun hK => ?_, id, hpl.2.2⟩
        rw [if_neg fun h => hm h hK]
        exact hK
    · simp only [not_or, Bool.not_eq_true] at hq
      obtain ⟨r, hr⟩ := Option.ne_none_iff_exists'.1 hq.2
      exact hcached hq.1 r hr

/-- **One call.** With no chance of drawing `K` again, a call returns `K` and overwrites no stored `K` exactly when it
finds `K` where it looks first and mints nothing over it. -/
theorem call_keeps_iff (hcache : ∀ r, q.cached = some r → r.key = K) (hfresh : fresh ≠ K) (hfresh' : fresh' ≠ K) :
    (getOrCreateKey s q a fresh fresh').2.1.key = K ∧ Keeps K s (getOrCreateKey s q a fresh fresh').1 ↔
      Finds s q a K := by
  refine ⟨fun ⟨hkey, hkeep⟩ => ?_, finds_keeps hcache⟩
  by_cases hq : q.forceKeyfile = true ∨ q.cached = none
  · have hpl := @call_places s q a fresh fresh' K hq
    refine Or.inr ⟨?_, fun hm hK => ?_⟩
    · rcases @call_key s q a fresh fresh' hq with h | ⟨-, h | h⟩
      · exact hkey ▸ h
      · exact absurd (h.symm.trans hkey) hfresh
      · exact absurd (h.symm.trans hkey) hfresh'
    · have hlost := hkeep.1 hK
      rw [hpl.1, if_pos hm] at hlost
      exact hfresh (Option.some.inj hlost)
  · simp only [not_or, Bool.not_eq_true] at hq
    exact Or.inl ⟨hq.1, Option.isSome_iff_ne_none.2 hq.2⟩

end

/-! ## Runs -/

/-- what a step of a run must meet: once a key has been returned, a call finds it -/
def Settled (s : Machine) : Op → Prop
  | .start _ => True
  | .call p a _ _ => ∀ q ∈ s.procs[p]?, ∀ r ∈ s.returned.head?, Finds s.places q a r.key

instance (s : Machine) : ∀ op, Decidable (Settled s op)
  | .start _ => isTrue trivial
  | .call p a _ _ =>
    inferInstanceAs (Decidable (∀ q ∈ s.procs[p]?, ∀ r ∈ s.returned.head?, Finds s.places q a r.key))

/-- all calls so far have returned one key -/
def OneKey (s : Machine) : Prop := ∀ r ∈ s.returned, ∀ r' ∈ s.returned, r.key = r'.key

/-- a step overwrites no key that has been returned -/
def Overwrites (s : Machine) (op : Op) : Prop := ∃ r ∈ s.returned, ¬ Keeps r.key s.places (step s op).places

structure Inv (s : Machine) : Prop where
  one : OneKey s
  cached : ∀ q ∈ s.procs, ∀ r ∈ q.cached, r ∈ s.returned

/-- what a call caches it has returned -/
theorem cached_returned {s : Places} {q : Process} {a : Answers} {fresh fresh' : String} {r : KeyResult}
    (h : (getOrCreateKey s q a fresh fresh').2.2.cached = some r) :
    q.cached = some r ∨ (getOrCreateKey s q a fresh fresh').2.1 = r := by
  unfold getOrCreateKey at h ⊢
  split at h
  · rename_i hf
    exact Or.inl h
  · rename_i hf
    rw [if_neg hf]
    cases hc : q.cached with
    | some result =>
      simp only [hc] at h
      exact Or.inl h
    | none =>
      simp only [hc] at h ⊢
      cases hst : getOrCreateCredentialStoreKey s a fresh with
      | mk s' result =>
        simp only [hst] at h ⊢
        cases result with
        | some result => exact Or.inr (Option.some.inj h)
        | none => exact Or.inr (Option.some.inj h)

theorem step_inv {s : Machine} (hi : Inv s) (op : Op) (hs : Settled s op) : Inv (step s op) ∧ ¬ Overwrites s op := by
  cases op with
  | start forceKeyfile =>
    refine ⟨⟨hi.one, fun q hq r hr => ?_⟩, ?_⟩
    · rcases List.mem_append.1 hq with h | h
      · exact hi.cached q h r hr
      · rw [List.mem_singleton.1 h] at hr
        cases hr
    · rintro ⟨r, -, h⟩
      exact h ⟨id, id, id⟩
  | call p a fresh fresh' =>
    cases hp : s.procs[p]? with
    | none =>
      have hsame : step s (.call p a fresh fresh') = s := by simp [step, hp]
      refine ⟨by rw [hsame]; exact hi, ?_⟩
      rintro ⟨r, -, h⟩
      rw [hsame] at h
      exact h ⟨id, id, id⟩
    | some q =>
      have hstep : step s (.call p a fresh fresh') =
          ⟨(getOrCreateKey s.places q a fresh fresh').1, s.procs.set p (getOrCreateKey s.places q a fresh fresh').2.2,
            s.returned ++ [(getOrCreateKey s.places q a fresh fresh').2.1]⟩ := by
        simp [step, hp]
      have hq : q ∈ s.procs := List.mem_of_getElem? hp
      -- all earlier calls returned the key of the first one
      have hkeep : ∀ r ∈ s.returned, (getOrCreateKey s.places q a fresh fresh').2.1.key = r.key ∧
          Keeps r.key s.places (getOrCreateKey s.places q a fresh fresh').1 := by
        intro r hr
        obtain ⟨r0, hr0⟩ : ∃ r0, s.returned.head? = some r0 := by
          cases hret : s.returned with
          | nil => simp [hret] at hr
          | cons r0 _ => exact ⟨r0, rfl⟩
        rw [hi.one r hr r0 (List.mem_of_head? hr0)]
        exact finds_keeps (fun c hc => hi.one c (hi.cached q hq c hc) r0 (List.mem_of_head? hr0))
          (hs q hp r0 hr0)
      rw [hstep]
      refine ⟨⟨fun r hr r' hr' => ?_, fun q' hq' r hr => ?_⟩, ?_⟩
      · rcases List.mem_append.1 hr with h | h <;> rcases List.mem_append.1 hr' with h' | h'
        · exact hi.one r h r' h'
        · rw [List.mem_singleton.1 h']
          exact (hkeep r h).1.symm
        · rw [List.mem_singleton.1 h]
          exact (hkeep r' h').1
        · rw [List.mem_singleton.1 h, List.mem_singleton.1 h']
      · rcases List.mem_or_eq_of_mem_set hq' with h | rfl
        · exact List.mem_append_left _ (hi.cached q' h r hr)
        · rcases cached_returned hr with h | h
          · exact List.mem_append_left _ (hi.cached q hq r h)
          · exact List.mem_append_right _ (by simp [h])
      · rintro ⟨r, hr, h⟩
        rw [hstep] at h
        exact h (hkeep r hr).2

/-- **The key is kept.** While every call after the first finds the key in use, every call returns that key, and none
overwrites it in the store or in the key file. -/
theorem key_kept (places : Places) (ops : List Op) (h : Along step Settled (init places) ops) :
    OneKey (run (init places) ops) ∧ Along step (fun s op => ¬ Overwrites s op) (init places) ops := by
  have hi : Inv (init places) := ⟨fun r hr => by simp [init] at hr, fun q hq => by simp [init] at hq⟩
  exact ⟨(along_inv Inv (fun _ op hi hs => (step_inv hi op hs).1) hi h).one,
    h.carry Inv (fun _ op hi hs => (step_inv hi op hs).1) (fun _ op hi hs => (step_inv hi op hs).2) hi⟩

/-- a store that is there and answers -/
def answering : Answers := ⟨true, .answers, true, .answers, .stored⟩

/-- two starts with a store that answers, and one more call while it hangs, which the cache serves -/
def restart : List Op :=
  [.start false, .call 0 answering "k1" "k2", .start false, .call 1 answering "k3" "k4",
    .call 1 ⟨true, .timeout, true, .timeout, .failed false⟩ "k5" "k6"]

theorem key_kept_restart :
    OneKey (run (init ⟨none, none, none⟩) restart) ∧
      Along step (fun s op => ¬ Overwrites s op) (init ⟨none, none, none⟩) restart :=
  key_kept _ _ (by decide)

/-- the store is silent on the second start -/
def silentStart : List Op :=
  [.start false, .call 0 answering "k1" "k2", .start false,
    .call 1 ⟨true, .timeout, true, .timeout, .failed false⟩ "k3" "k4"]

/-- the read of the scoped entry fails on the second start -/
def failedRead : List Op :=
  [.start false, .call 0 answering "k1" "k2", .start false, .call 1 ⟨true, .error, true, .answers, .stored⟩ "k3" "k4"]

/-- A start on which the store is silent returns another key, from a new key file; a read that fails counts as no key, and
the key in the store is overwritten. -/
theorem silent_start_loses_key :
    (run (init ⟨none, none, none⟩) silentStart).returned.map (·.key) = ["k1", "k4"] ∧
      ¬ OneKey (run (init ⟨none, none, none⟩) silentStart) ∧
      (run (init ⟨none, none, none⟩) failedRead).places.scopedEntry = some "k3" ∧
      ¬ Along step (fun s op => ¬ Overwrites s op) (init ⟨none, none, none⟩) failedRead := by
  refine ⟨by decide, fun h => ?_, by decide, fun h => ?_⟩
  · exact absurd (h ⟨"k1", .credentialStore, some .scopedService⟩ (by decide) ⟨"k4", .keyFile, none⟩ (by decide)) (by decide)
  · refine h.2.2.2.1 ⟨⟨"k1", .credentialStore, some .scopedService⟩, by decide, fun hk => ?_⟩
    have := hk.1 (by decide)
    revert this
    decide

end AstramemLocal.Storage
