/-
`CodexSubscriptionLLMProvider` (`src/providers/llm/codex-subscription.ts`): any number of instances share one auth.json with
each other and with `codex login`, and call a backend that answers 401 to an expired access token and a token endpoint that
takes each refresh token once. A call reads and writes its instance, and the file, in the turns between its awaits; between
two turns anything else happens.

- `rotation_safe`: in a run without overlapping refreshes, in which a refresh starts from the tokens of the file, no login
  lands during a refresh, the answer of a refresh arrives and is written back over a file that has only the fields the
  write-back knows, and the retry's token is accepted, no refresh token is presented twice, no call asks for a login while a
  valid token is in the file, and a write-back replaces the tokens it refreshed and nothing else.
- `concurrent_refreshes_collide`: two calls whose tokens expired present the same refresh token, and the second asks for a
  login while the first one's tokens are in the file; `refresh_overwrites_login`: a refresh in flight replaces what a login
  has written.
-/
import AstramemLocal.Core.Runs
import AstramemLocal.Core.Table
import AstramemLocal.Store.Schema

namespace AstramemLocal.Providers.CodexSubscription

open AstramemLocal.Core AstramemLocal.Store

/-! ## The file -/

/-- `access_token` and `refresh_token` are empty where the file has none. `other` holds the fields the code does not know. -/
structure CodexAuthTokens where
  access_token : String
  refresh_token : String
  id_token : Option String := none
  account_id : Option String := none
  other : List (String × String) := []
deriving DecidableEq, Repr

structure CodexAuthFile where
  auth_mode : Option String := none
  tokens : CodexAuthTokens
  last_refresh : Option String := none
  other : List (String × String) := []
deriving DecidableEq, Repr

/-- A text: what it says, if it is JSON, and how it is laid out. Two texts are the same if both are; `JSON.stringify` has
layout 0. -/
structure AuthRaw where
  layout : ℕ
  json : Option CodexAuthFile
deriving DecidableEq, Repr

/-- a value that JavaScript takes for true -/
def truthy (s : Option String) : Option String := s.filter (· ≠ "")

/-- `none` where it throws -/
def parseAuthFile (raw : AuthRaw) : Option CodexAuthFile :=
  raw.json.filter fun f => f.tokens.access_token ≠ "" ∧ f.tokens.refresh_token ≠ ""

structure Env where
  /-- the account a JWT names in its nested claim -/
  decodeNestedChatgptAccountId : String → Option String
  toISOString : Time → String

variable (E : Env)

def resolveAccountId (tokens : CodexAuthTokens) : Option String :=
  (truthy tokens.account_id).or <|
    (truthy ((truthy tokens.id_token).bind E.decodeNestedChatgptAccountId)).or <|
      truthy (E.decodeNestedChatgptAccountId tokens.access_token)

/-! ## An instance -/

structure Provider where
  accessToken : String := ""
  refreshToken : String := ""
  accountId : Option String := none
  authLoaded : Bool := false
  lastAuthRaw : Option AuthRaw := none
deriving DecidableEq, Repr

def applyAuthRaw (p : Provider) (raw : AuthRaw) : Option Provider :=
  (parseAuthFile raw).map fun auth =>
    { p with
      accessToken := auth.tokens.access_token
      refreshToken := auth.tokens.refresh_token
      accountId := resolveAccountId E auth.tokens
      lastAuthRaw := some raw }

/-- `disk` is `none` where there is no file; the result where it throws -/
def ensureAuthLoaded (p : Provider) (disk : Option AuthRaw) : Option Provider :=
  if p.authLoaded then some p
  else (disk.bind (applyAuthRaw E p)).map fun p => { p with authLoaded := true }

/-- the instance after a reload, `none` where there is nothing to reload -/
def tryReloadAuthFromDisk (p : Provider) (disk : Option AuthRaw) : Option Provider :=
  disk.bind fun raw => if p.lastAuthRaw = some raw then none else applyAuthRaw E p raw

structure TokenResponse where
  access_token : Option String
  refresh_token : Option String
  id_token : Option String
deriving DecidableEq, Repr

/-- what `refresh` writes back -/
def rotated (p : Provider) (data : TokenResponse) (now : Time) : CodexAuthFile where
  auth_mode := some "chatgpt"
  tokens :=
    { access_token := p.accessToken
      refresh_token := p.refreshToken
      id_token := truthy data.id_token
      account_id := p.accountId }
  last_refresh := some (E.toISOString now)

/-- the account of an instance after a refresh -/
def accountAfter (p : Provider) (data : TokenResponse) : Option String :=
  (truthy ((truthy data.id_token).bind E.decodeNestedChatgptAccountId)).or p.accountId

/-- `refresh` after its answer with status 200: the instance and the file. `writes` tells whether the write-back works; the
result is `none` where it throws. -/
def refreshed (p : Provider) (data : TokenResponse) (writes : Bool) (now : Time) (disk : Option AuthRaw) :
    Option (Provider × Option AuthRaw) :=
  (truthy data.access_token).map fun access =>
    let p := { p with
      accessToken := access
      refreshToken := (truthy data.refresh_token).getD p.refreshToken
      accountId := accountAfter E p data }
    let written : AuthRaw := ⟨0, some (rotated E p data now)⟩
    if writes then ({ p with lastAuthRaw := some written }, some written) else (p, disk)

/-! ## Calls -/

inductive Stage where
  /-- the first request of `chat` -/
  | first
  /-- the one after a reload -/
  | reloaded
  /-- the one after a refresh -/
  | retry
deriving DecidableEq, Repr

inductive Pc where
  /-- `callResponses` is awaited, with this access token -/
  | sent (stage : Stage) (token : String)
  | answered (stage : Stage) (unauthorized : Bool)
  /-- the `fetch` of `refresh` is awaited, with this refresh token -/
  | refreshing (token : String)
  | granted (token : String) (data : TokenResponse)
  | denied (token : String)
deriving DecidableEq, Repr

structure Call where
  id : ℕ
  inst : ℕ
  pc : Pc
deriving DecidableEq, Repr

inductive Outcome where
  /-- the call returns, or throws an error that asks for no login -/
  | other
  /-- it throws an error that tells the user to run `codex login` -/
  | relogin
deriving DecidableEq, Repr

/-- The instances, their calls, the file, and the servers: the access tokens the backend accepts, the tokens that exist and
the refresh tokens that have been presented. -/
structure System where
  disk : Option AuthRaw
  instances : ℕ → Provider
  calls : List Call
  outcomes : List (ℕ × Outcome)
  accepted : List String
  issued : List String
  presented : List String

inductive Op where
  | chat (id inst : ℕ)
  /-- the backend answers a request -/
  | serve (id : ℕ)
  /-- the token endpoint answers a refresh; the tokens are the new ones -/
  | grant (id : ℕ) (access refresh : String) (idToken : Option String)
  /-- the call goes on after the answer -/
  | resume (id : ℕ) (writes : Bool) (now : Time)
  /-- the request of a call, or its answer, is lost -/
  | lost (id : ℕ)
  /-- `codex login` writes the file -/
  | login (layout : ℕ) (file : CodexAuthFile)
  | expire (token : String)
deriving DecidableEq, Repr

def findCall (s : System) (id : ℕ) : Option Call := lookup (·.id) id s.calls

def goto (s : System) (c : Call) (pc : Pc) : System :=
  { s with calls := updateWhere (·.id = c.id) (fun d => { d with pc }) s.calls }

def finish (s : System) (c : Call) (outcome : Outcome) : System :=
  { s with calls := deleteWhere (·.id = c.id) s.calls, outcomes := s.outcomes ++ [(c.id, outcome)] }

def setInstance (s : System) (inst : ℕ) (p : Provider) : System :=
  { s with instances := fun i => if i = inst then p else s.instances i }

/-- a new token of the servers -/
def Fresh (s : System) (token : String) : Prop := token ≠ "" ∧ token ∉ s.issued

instance (s : System) (token : String) : Decidable (Fresh s token) := by unfold Fresh; infer_instance

/-- `refresh` up to its `fetch` -/
def startRefresh (s : System) (c : Call) : System :=
  if (s.instances c.inst).refreshToken = "" then finish s c .relogin
  else goto s c (.refreshing (s.instances c.inst).refreshToken)

def resume (s : System) (c : Call) (writes : Bool) (now : Time) : System :=
  match c.pc with
  | .sent .. | .refreshing _ => s
  | .answered _ false => finish s c .other
  | .answered .first true =>
    match tryReloadAuthFromDisk E (s.instances c.inst) s.disk with
    | some p => goto (setInstance s c.inst p) c (.sent .reloaded p.accessToken)
    | none => startRefresh s c
  | .answered .reloaded true => startRefresh s c
  | .answered .retry true => finish s c .relogin
  | .granted _ data =>
    match refreshed E (s.instances c.inst) data writes now s.disk with
    | some (p, disk) => goto { setInstance s c.inst p with disk } c (.sent .retry p.accessToken)
    | none => finish s c .relogin
  | .denied _ => finish s c .relogin

/-- the backend looks at the access token of a request -/
def serve (s : System) (c : Call) : System :=
  match c.pc with
  | .sent stage token => goto s c (.answered stage (token ∉ s.accepted))
  | _ => s

/-- the token endpoint looks at the refresh token of a request, and issues the next tokens -/
def grant (s : System) (c : Call) (access refresh : String) (idToken : Option String) : System :=
  match c.pc with
  | .refreshing token =>
    if token ∈ s.presented then goto { s with presented := s.presented ++ [token] } c (.denied token)
    else if Fresh s access ∧ Fresh s refresh ∧ access ≠ refresh then
      goto
        { s with
          presented := s.presented ++ [token]
          accepted := s.accepted ++ [access]
          issued := s.issued ++ [access, refresh] }
        c (.granted token ⟨some access, some refresh, idToken⟩)
    else s
  | _ => s

def chat (s : System) (id inst : ℕ) : System :=
  match ensureAuthLoaded E (s.instances inst) s.disk with
  | none => { s with outcomes := s.outcomes ++ [(id, .relogin)] }
  | some p => { setInstance s inst p with calls := s.calls ++ [⟨id, inst, .sent .first p.accessToken⟩] }

def step (s : System) : Op → System
  | .chat id inst => if id ∈ s.calls.map (·.id) then s else chat E s id inst
  | .serve id => (findCall s id).elim s (serve s)
  | .grant id access refresh idToken => (findCall s id).elim s fun c => grant s c access refresh idToken
  | .resume id writes now => (findCall s id).elim s fun c => resume E s c writes now
  | .lost id => (findCall s id).elim s fun c => finish s c .other
  | .login layout file =>
    if Fresh s file.tokens.access_token ∧ Fresh s file.tokens.refresh_token ∧
        file.tokens.access_token ≠ file.tokens.refresh_token then
      { s with
        disk := some ⟨layout, some file⟩
        accepted := s.accepted ++ [file.tokens.access_token]
        issued := s.issued ++ [file.tokens.access_token, file.tokens.refresh_token] }
    else s
  | .expire token => { s with accepted := s.accepted.filter (· ≠ token) }

/-- the login in the file -/
def fileOf (s : System) : Option CodexAuthFile := s.disk.bind parseAuthFile

/-- no call has been made yet; the servers know the tokens of the file -/
def init (disk : Option AuthRaw) (accepted : List String) : System where
  disk
  instances := fun _ => {}
  calls := []
  outcomes := []
  accepted
  issued := accepted ++ ((disk.bind parseAuthFile).toList.flatMap fun f => [f.tokens.access_token, f.tokens.refresh_token])
  presented := []

def run (s : System) (ops : List Op) : System := ops.foldl (step E) s

/-! ## The property -/

/-- a token of the file is good: the backend accepts the one, or the token endpoint will take the other -/
def ValidOnDisk (s : System) : Prop :=
  (fileOf s).any fun f => f.tokens.access_token ∈ s.accepted ∨ f.tokens.refresh_token ∉ s.presented

instance (s : System) : Decidable (ValidOnDisk s) := by unfold ValidOnDisk; infer_instance

/-- the fields of the file that a refresh does not rotate are still there -/
structure Keeps (before after : CodexAuthFile) (data : TokenResponse) : Prop where
  auth_mode : ∀ v, before.auth_mode = some v → after.auth_mode = some v
  id_token : ∀ v, before.tokens.id_token = some v → truthy data.id_token = none → after.tokens.id_token = some v
  account_id : ∀ v, before.tokens.account_id = some v → after.tokens.account_id = some v
  tokens : ∀ field ∈ before.tokens.other, field ∈ after.tokens.other
  other : ∀ field ∈ before.other, field ∈ after.other

/-- what an operation may do to the tokens -/
structure Safe (s : System) (op : Op) : Prop where
  once : (step E s op).presented.Nodup
  relogin : ∀ id, (step E s op).outcomes = s.outcomes ++ [(id, .relogin)] → ¬ ValidOnDisk s
  written : ∀ id writes now c token data before after, op = .resume id writes now → findCall s id = some c →
    c.pc = .granted token data → fileOf s = some before → fileOf (step E s op) = some after →
    after = before ∨ before.tokens.refresh_token = token ∧ Keeps before after data

def Pc.refreshes : Pc → Bool
  | .refreshing _ | .granted .. | .denied _ => true
  | .sent .. | .answered .. => false

/-- the call starts a refresh when it goes on -/
def StartsRefresh (s : System) (c : Call) : Bool :=
  match c.pc with
  | .answered .first true => (tryReloadAuthFromDisk E (s.instances c.inst) s.disk).isNone
  | .answered .reloaded true => true
  | _ => false

/-- the file has no field that a write-back drops or changes -/
def Plain (f : CodexAuthFile) (p : Provider) (data : TokenResponse) : Bool :=
  f.auth_mode.all (· = "chatgpt") && f.other.isEmpty && f.tokens.other.isEmpty &&
    (f.tokens.id_token.isNone || (truthy data.id_token).isSome) &&
    f.tokens.account_id.all fun v => accountAfter E p data = some v

/-- the call may go on -/
def CalmResume (s : System) (c : Call) (writes : Bool) : Bool :=
  (!StartsRefresh E s c || s.calls.all (fun d => !d.pc.refreshes) &&
    (fileOf s).any fun f => f.tokens.refresh_token = (s.instances c.inst).refreshToken) &&
  match c.pc with
  | .granted _ data => writes && (fileOf s).all fun f => Plain E f (s.instances c.inst) data
  | _ => true

/-- No refresh overlaps another or a login, or starts from other tokens than those of the file; its answer arrives and is
written back over a plain file; and the backend accepts the new token on the retry. -/
def Calm (s : System) : Op → Bool
  | .login _ _ => s.calls.all fun c => !c.pc.refreshes
  | .lost id => (findCall s id).all fun c => match c.pc with
    | .granted .. | .denied _ => false
    | _ => true
  | .serve id => (findCall s id).all fun c => match c.pc with
    | .sent .retry token => token ∈ s.accepted
    | _ => true
  | .resume id writes _ => (findCall s id).all fun c => CalmResume E s c writes
  | .chat .. | .grant .. | .expire _ => true

variable {E} {s s' : System} {c d : Call} {pc : Pc} {op : Op} {outcome : Outcome}

/-! ## The invariant -/

/-- what holds of the file and the tokens while a call is there -/
def Pc.Good (s : System) : Pc → Prop
  | .refreshing t => (∃ f, fileOf s = some f ∧ f.tokens.refresh_token = t) ∧ t ∉ s.presented
  | .granted t data =>
    (∃ f, fileOf s = some f ∧ f.tokens.refresh_token = t) ∧
      ∃ access refresh, data.access_token = some access ∧ data.refresh_token = some refresh ∧ access ≠ "" ∧
        refresh ≠ "" ∧ refresh ∈ s.issued ∧ refresh ∉ s.presented
  | .denied _ | .answered .retry true => False
  | .sent .. | .answered .. => True

/-- one refresh at a time, and the file's token is unused unless that refresh has presented it -/
structure Sane (s : System) : Prop where
  keyed : Keyed (·.id) s.calls
  exist : ∀ t ∈ s.presented, t ∈ s.issued
  once : s.presented.Nodup
  file : ∀ f, fileOf s = some f → f.tokens.refresh_token ∈ s.issued
  unused : (∀ c ∈ s.calls, c.pc.refreshes = false) → ∀ f, fileOf s = some f → f.tokens.refresh_token ∉ s.presented
  alone : ∀ c ∈ s.calls, ∀ d ∈ s.calls, c.pc.refreshes = true → d.pc.refreshes = true → c = d
  good : ∀ c ∈ s.calls, c.pc.Good s

theorem good_of_idle (hpc : pc.refreshes = false) (h : pc.Good s) : pc.Good s' := by
  cases pc with
  | sent stage token => trivial
  | answered stage unauthorized => cases stage <;> cases unauthorized <;> trivial
  | refreshing token => cases hpc
  | granted token data => cases hpc
  | denied token => cases hpc

theorem findCall_mem {id : ℕ} (h : findCall s id = some c) : c ∈ s.calls ∧ c.id = id := lookup_mem h

theorem mem_goto (h : Keyed (·.id) s.calls) (hc : c ∈ s.calls) (hd : d ∈ (goto s c pc).calls) :
    d ∈ s.calls ∧ d ≠ c ∨ d = { c with pc } := by
  obtain ⟨e, he, rfl⟩ := mem_updateWhere.1 hd
  by_cases hid : e.id = c.id
  · have hec : e = c := h.inj he hc hid
    rw [if_pos hid, hec]
    exact .inr rfl
  · rw [if_neg hid]
    exact .inl ⟨he, fun hec => hid (by rw [hec])⟩

/-- a call goes on; `hothers` is about the state the others find -/
theorem Sane.advance (h : Sane s) (hc : c ∈ s.calls) (hcalls : s'.calls = (goto s c pc).calls)
    (hexist : ∀ t ∈ s'.presented, t ∈ s'.issued) (honce : s'.presented.Nodup)
    (hfile : ∀ f, fileOf s' = some f → f.tokens.refresh_token ∈ s'.issued) (hgood : pc.Good s')
    (hothers : ∀ d ∈ s.calls, d ≠ c → d.pc.Good s → d.pc.Good s')
    (hstart : pc.refreshes = true → ∀ d ∈ s.calls, d ≠ c → d.pc.refreshes = false)
    (hunused : pc.refreshes = false → (∀ d ∈ s.calls, d ≠ c → d.pc.refreshes = false) →
      ∀ f, fileOf s' = some f → f.tokens.refresh_token ∉ s'.presented) : Sane s' where
  keyed := by
    rw [hcalls]
    exact h.keyed.updateWhere fun _ => rfl
  exist := hexist
  once := honce
  file := hfile
  unused hidle := by
    rw [hcalls] at hidle
    refine hunused ?_ fun d hd hdc => ?_
    · have hmem : { c with pc } ∈ (goto s c pc).calls := mem_updateWhere.2 ⟨c, hc, if_pos rfl⟩
      exact hidle _ hmem
    · refine hidle d (mem_updateWhere.2 ⟨d, hd, if_neg fun hid => hdc ?_⟩)
      exact h.keyed.inj hd hc hid
  alone a ha b hb hra hrb := by
    rw [hcalls] at ha hb
    rcases mem_goto h.keyed hc ha with ⟨ha, hac⟩ | rfl
    · rcases mem_goto h.keyed hc hb with ⟨hb, -⟩ | rfl
      · exact h.alone a ha b hb hra hrb
      · rw [hstart hrb a ha hac] at hra
        cases hra
    · rcases mem_goto h.keyed hc hb with ⟨hb, hbc⟩ | rfl
      · rw [hstart hra b hb hbc] at hrb
        cases hrb
      · rfl
  good a ha := by
    rw [hcalls] at ha
    rcases mem_goto h.keyed hc ha with ⟨ha, hac⟩ | rfl
    · exact hothers a ha hac (h.good a ha)
    · exact hgood

/-- a call that does not refresh goes on with another request -/
theorem Sane.request (h : Sane s) (hc : c ∈ s.calls) (hidle : c.pc.refreshes = false) (hpc : pc.refreshes = false)
    (hgood : pc.Good s) : Sane (goto s c pc) := by
  refine h.advance hc rfl h.exist h.once h.file hgood (fun d _ _ hd => hd) (fun hpc' => by simp [hpc] at hpc') ?_
  intro _ hothers
  refine h.unused fun d hd => ?_
  by_cases hdc : d = c
  · rw [hdc]
    exact hidle
  · exact hothers d hd hdc

theorem Sane.finish (h : Sane s) (hc : c ∈ s.calls)
    (hunused : c.pc.refreshes = true → ∀ f, fileOf s = some f → f.tokens.refresh_token ∉ s.presented) :
    Sane (finish s c outcome) where
  keyed := h.keyed.deleteWhere
  exist := h.exist
  once := h.once
  file := h.file
  unused hidle := by
    by_cases hpc : c.pc.refreshes = true
    · exact hunused hpc
    · refine h.unused fun d hd => ?_
      by_cases hdc : d.id = c.id
      · rw [h.keyed.inj hd hc hdc]
        exact Bool.eq_false_iff.2 hpc
      · exact hidle d (mem_deleteWhere.2 ⟨hd, hdc⟩)
  alone a ha b hb := h.alone a (mem_deleteWhere.1 ha).1 b (mem_deleteWhere.1 hb).1
  good a ha := h.good a (mem_deleteWhere.1 ha).1

/-- the state of the instances is no part of it -/
theorem Sane.setInstance (h : Sane s) (inst : ℕ) (p : Provider) : Sane (setInstance s inst p) :=
  ⟨h.keyed, h.exist, h.once, h.file, h.unused, h.alone, h.good⟩

theorem Sane.call (h : Sane s) {id inst : ℕ} (hid : id ∉ s.calls.map (·.id)) (hpc : pc.refreshes = false)
    (hgood : pc.Good s) : Sane { s with calls := s.calls ++ [⟨id, inst, pc⟩] } where
  keyed := h.keyed.insert fun d hd hdid => hid (List.mem_map.2 ⟨d, hd, hdid⟩)
  exist := h.exist
  once := h.once
  file := h.file
  unused hidle := h.unused fun d hd => hidle d (List.mem_append_left _ hd)
  alone a ha b hb hra hrb := by
    rcases List.mem_append.1 ha with ha | ha
    · rcases List.mem_append.1 hb with hb | hb
      · exact h.alone a ha b hb hra hrb
      · rw [List.mem_singleton.1 hb] at hrb
        simp [hpc] at hrb
    · rw [List.mem_singleton.1 ha] at hra
      simp [hpc] at hra
  good a ha := by
    rcases List.mem_append.1 ha with ha | ha
    · exact h.good a ha
    · rw [List.mem_singleton.1 ha]
      exact hgood

/-! ## Steps -/

theorem truthy_some {v : String} (hv : v ≠ "") : truthy (some v) = some v := by simp [truthy, hv]

theorem parse_some {layout : ℕ} {f : CodexAuthFile} (ha : f.tokens.access_token ≠ "") (hr : f.tokens.refresh_token ≠ "") :
    parseAuthFile ⟨layout, some f⟩ = some f := by simp [parseAuthFile, ha, hr]

theorem fileOf_refresh {f : CodexAuthFile} (h : fileOf s = some f) : f.tokens.refresh_token ≠ "" := by
  obtain ⟨raw, -, hraw⟩ := Option.bind_eq_some_iff.1 h
  have hboth := (Option.filter_eq_some_iff.1 hraw).2
  simp only [decide_eq_true_eq] at hboth
  exact hboth.2

/-- the refresh may start -/
theorem startRefresh_sane (h : Sane s) (hc : c ∈ s.calls) (hidle : ∀ d ∈ s.calls, d.pc.refreshes = false)
    {f : CodexAuthFile} (hf : fileOf s = some f) (htoken : f.tokens.refresh_token = (s.instances c.inst).refreshToken) :
    startRefresh s c = goto s c (.refreshing (s.instances c.inst).refreshToken) ∧ Sane (startRefresh s c) := by
  have hstart : startRefresh s c = goto s c (.refreshing (s.instances c.inst).refreshToken) :=
    if_neg (htoken ▸ fileOf_refresh hf)
  refine ⟨hstart, ?_⟩
  rw [hstart]
  refine h.advance hc rfl h.exist h.once h.file ?_ (fun d _ _ hd => hd) (fun _ d hd _ => hidle d hd) ?_
  · exact ⟨⟨f, hf, htoken⟩, htoken ▸ h.unused hidle f hf⟩
  · intro hpc
    cases hpc

/-- the new tokens and the file, where the answer has both and the write-back works -/
theorem refreshed_some {p : Provider} {data : TokenResponse} {access refresh : String} {now : Time} {disk : Option AuthRaw}
    (ha : data.access_token = some access) (hr : data.refresh_token = some refresh) (hane : access ≠ "")
    (hrne : refresh ≠ "") : ∃ p' f, refreshed E p data true now disk = some (p', some ⟨0, some f⟩) ∧
      parseAuthFile ⟨0, some f⟩ = some f ∧ f.tokens.refresh_token = refresh ∧ f.auth_mode = some "chatgpt" ∧
      f.tokens.account_id = accountAfter E p data := by
  unfold refreshed
  rw [ha, hr, truthy_some hane, truthy_some hrne]
  exact ⟨_, _, rfl, parse_some hane hrne, rfl, rfl, rfl⟩

theorem keeps_of_plain {before after : CodexAuthFile} {p : Provider} {data : TokenResponse}
    (h : Plain E before p data = true) (hmode : after.auth_mode = some "chatgpt")
    (haccount : after.tokens.account_id = accountAfter E p data) :
    Keeps before after data := by
  simp only [Plain, Bool.and_eq_true, Bool.or_eq_true, List.isEmpty_iff] at h
  obtain ⟨⟨⟨⟨hauth, hother⟩, htokens⟩, hidtoken⟩, hacc⟩ := h
  refine ⟨fun v hv => ?_, fun v hv hnone => ?_, fun v hv => ?_, ?_, ?_⟩
  · rw [hv] at hauth
    have hchatgpt : v = "chatgpt" := by simpa using hauth
    rw [hmode, hchatgpt]
  · simp [hv, hnone] at hidtoken
  · rw [hv] at hacc
    rw [haccount]
    simpa using hacc
  · simp [htokens]
  · simp [hother]

theorem grant_sane (h : Sane s) (hc : c ∈ s.calls) (access refresh : String) (idToken : Option String) :
    Sane (grant s c access refresh idToken) ∧ (grant s c access refresh idToken).outcomes = s.outcomes := by
  unfold grant
  cases hpc : c.pc with
  | refreshing token =>
    have hgood := h.good c hc
    rw [hpc] at hgood
    obtain ⟨⟨f, hf, hft⟩, hnew⟩ := hgood
    have htoken : token ∈ s.issued := hft ▸ h.file f hf
    have hothers : ∀ d ∈ s.calls, d ≠ c → d.pc.refreshes = false := fun d hd hdc =>
      Bool.eq_false_iff.2 fun hr => hdc (h.alone d hd c hc hr (by rw [hpc]; rfl))
    dsimp only
    rw [if_neg hnew]
    by_cases hfresh : Fresh s access ∧ Fresh s refresh ∧ access ≠ refresh
    · rw [if_pos hfresh]
      refine ⟨?_, rfl⟩
      obtain ⟨hfa, hfr, -⟩ := hfresh
      refine @Sane.advance s (goto _ c _) c _ h hc rfl ?_ ?_ ?_ ?_ ?_ (fun _ => hothers) ?_
      · intro t ht
        rcases List.mem_append.1 ht with ht | ht
        · exact List.mem_append_left _ (h.exist t ht)
        · rw [List.mem_singleton.1 ht]
          exact List.mem_append_left _ htoken
      · exact List.nodup_append.2 ⟨h.once, List.nodup_singleton _, fun a ha b hb hab =>
          hnew (List.mem_singleton.1 hb ▸ hab ▸ ha)⟩
      · exact fun g hg => List.mem_append_left _ (h.file g hg)
      · refine ⟨⟨f, hf, hft⟩, access, refresh, rfl, rfl, hfa.1, hfr.1, by simp [goto], ?_⟩
        intro ht
        rcases List.mem_append.1 ht with ht | ht
        · exact hfr.2 (h.exist _ ht)
        · exact hfr.2 (List.mem_singleton.1 ht ▸ htoken)
      · exact fun d hd hdc hgood => good_of_idle (hothers d hd hdc) hgood
      · intro hpc'
        cases hpc'
    · rw [if_neg hfresh]
      exact ⟨h, rfl⟩
  | sent stage token => exact ⟨h, rfl⟩
  | answered stage unauthorized => exact ⟨h, rfl⟩
  | granted token data => exact ⟨h, rfl⟩
  | denied token => exact ⟨h, rfl⟩

/-- no call fails for want of a login -/
def Quiet (s s' : System) : Prop := s'.outcomes = s.outcomes ∨ ∃ id, s'.outcomes = s.outcomes ++ [(id, .other)]

theorem Quiet.relogin (h : Quiet s s') (id : ℕ) : s'.outcomes ≠ s.outcomes ++ [(id, .relogin)] := by
  intro hid
  rcases h with h | ⟨id', h⟩
  · simpa [hid] using congrArg List.length h
  · rw [hid, List.append_cancel_left_eq] at h
    cases h

/-- the write-back -/
theorem granted_sane {token : String} {data : TokenResponse} {now : Time} (h : Sane s) (hc : c ∈ s.calls)
    (hpc : c.pc = .granted token data) : ∃ p f,
      refreshed E (s.instances c.inst) data true now s.disk = some (p, some ⟨0, some f⟩) ∧ parseAuthFile ⟨0, some f⟩ = some f ∧
      f.auth_mode = some "chatgpt" ∧ f.tokens.account_id = accountAfter E (s.instances c.inst) data ∧
      Sane (goto { setInstance s c.inst p with disk := some ⟨0, some f⟩ } c (.sent .retry p.accessToken)) := by
  have hgood := h.good c hc
  rw [hpc] at hgood
  obtain ⟨-, access, refresh, ha, hr, hane, hrne, hissued, hnew⟩ := hgood
  obtain ⟨p, f, hrefreshed, hparse, htoken, hmode, haccount⟩ := @refreshed_some E
    (s.instances c.inst) data _ _ now s.disk ha hr hane hrne
  refine ⟨p, f, hrefreshed, hparse, hmode, haccount, ?_⟩
  have hothers : ∀ d ∈ s.calls, d ≠ c → d.pc.refreshes = false := fun d hd hdc =>
    Bool.eq_false_iff.2 fun hr => hdc (h.alone d hd c hc hr (by rw [hpc]; rfl))
  have hfile : ∀ g, parseAuthFile ⟨0, some f⟩ = some g → g = f := fun g hg => (Option.some.inj (hparse.symm.trans hg)).symm
  refine @Sane.advance s (goto _ c _) c _ h hc rfl h.exist h.once ?_ trivial ?_ (fun hpc' => by cases hpc') ?_
  · intro g hg
    rw [hfile g hg, htoken]
    exact hissued
  · exact fun d hd hdc hgood => good_of_idle (hothers d hd hdc) hgood
  · intro _ _ g hg
    rw [hfile g hg, htoken]
    exact hnew

theorem resume_sane {writes : Bool} {now : Time} (h : Sane s) (hc : c ∈ s.calls)
    (hcalm : CalmResume E s c writes = true) :
    Sane (resume E s c writes now) ∧ Quiet s (resume E s c writes now) := by
  have hgood := h.good c hc
  have hstart : StartsRefresh E s c = true → Sane (startRefresh s c) ∧ Quiet s (startRefresh s c) := by
    intro hstarts
    simp only [CalmResume, hstarts, Bool.and_eq_true, Bool.or_eq_true, Bool.not_eq_true', Option.any_eq_true,
      List.all_eq_true, decide_eq_true_eq] at hcalm
    obtain ⟨hidle, f, hf, htoken⟩ := hcalm.1.resolve_left (by simp)
    obtain ⟨heq, hsane⟩ := startRefresh_sane h hc hidle hf htoken
    exact ⟨hsane, by rw [heq]; exact .inl rfl⟩
  unfold resume
  cases hpc : c.pc with
  | sent stage token => exact ⟨h, .inl rfl⟩
  | refreshing token => exact ⟨h, .inl rfl⟩
  | denied token =>
    rw [hpc] at hgood
    exact hgood.elim
  | answered stage unauthorized =>
    have hidle : c.pc.refreshes = false := by rw [hpc]; rfl
    cases unauthorized with
    | false => exact ⟨h.finish hc fun hr => by simp [hidle] at hr, .inr ⟨_, rfl⟩⟩
    | true =>
      cases stage with
      | retry =>
        rw [hpc] at hgood
        exact hgood.elim
      | reloaded => exact hstart (by simp [StartsRefresh, hpc])
      | first =>
        cases hreload : tryReloadAuthFromDisk E (s.instances c.inst) s.disk with
        | none => exact hstart (by simp [StartsRefresh, hpc, hreload])
        | some p => exact ⟨(h.setInstance _ p).request hc hidle rfl trivial, .inl rfl⟩
  | granted token data =>
    have hwrites : writes = true := by
      simp only [CalmResume, hpc, Bool.and_eq_true] at hcalm
      exact hcalm.2.1
    subst hwrites
    obtain ⟨p, f, hrefreshed, -, -, -, hsane⟩ := @granted_sane E s c _ _ now h hc hpc
    simp only [hrefreshed]
    exact ⟨hsane, .inl rfl⟩

/-- a login that cannot be loaded is not there -/
theorem fileOf_none_of_load {p : Provider} (h : ensureAuthLoaded E p s.disk = none) : fileOf s = none := by
  unfold ensureAuthLoaded at h
  split at h
  · cases h
  · unfold fileOf
    cases hdisk : s.disk with
    | none => rfl
    | some raw => simpa [hdisk, applyAuthRaw] using h

theorem serve_sane (h : Sane s) (hc : c ∈ s.calls) (hcalm : ∀ token, c.pc = .sent .retry token → token ∈ s.accepted) :
    Sane (serve s c) ∧ (serve s c).outcomes = s.outcomes := by
  unfold serve
  cases hpc : c.pc with
  | sent stage token =>
    refine ⟨h.request hc (by rw [hpc]; rfl) rfl ?_, rfl⟩
    cases stage with
    | retry =>
      have haccepted := hcalm token hpc
      simp [haccepted, Pc.Good]
    | first => trivial
    | reloaded => trivial
  | answered stage unauthorized => exact ⟨h, rfl⟩
  | refreshing token => exact ⟨h, rfl⟩
  | granted token data => exact ⟨h, rfl⟩
  | denied token => exact ⟨h, rfl⟩

theorem login_sane (h : Sane s) {layout : ℕ} {file : CodexAuthFile} (hidle : ∀ c ∈ s.calls, c.pc.refreshes = false)
    (ha : Fresh s file.tokens.access_token) (hr : Fresh s file.tokens.refresh_token) : Sane { s with
      disk := some ⟨layout, some file⟩
      accepted := s.accepted ++ [file.tokens.access_token]
      issued := s.issued ++ [file.tokens.access_token, file.tokens.refresh_token] } := by
  have hfile : ∀ f, parseAuthFile ⟨layout, some file⟩ = some f → f = file := fun f hf =>
    (Option.some.inj ((parse_some ha.1 hr.1).symm.trans hf)).symm
  refine ⟨h.keyed, fun t ht => List.mem_append_left _ (h.exist t ht), h.once, ?_, ?_, h.alone, ?_⟩
  · intro f hf
    rw [hfile f hf]
    simp
  · intro _ f hf
    rw [hfile f hf]
    exact fun ht => hr.2 (h.exist _ ht)
  · exact fun c hc => good_of_idle (hidle c hc) (h.good c hc)

/-- what a calm operation preserves, and that only a missing login makes a call ask for one -/
theorem step_sane (h : Sane s) (hop : Calm E s op = true) :
    Sane (step E s op) ∧ (Quiet s (step E s op) ∨ fileOf s = none) := by
  cases op with
  | chat id inst =>
    simp only [step]
    split_ifs with hid
    · exact ⟨h, .inl (.inl rfl)⟩
    · unfold chat
      cases hload : ensureAuthLoaded E (s.instances inst) s.disk with
      | none => exact ⟨⟨h.keyed, h.exist, h.once, h.file, h.unused, h.alone, h.good⟩, .inr (fileOf_none_of_load hload)⟩
      | some p => exact ⟨(h.setInstance inst p).call hid rfl trivial, .inl (.inl rfl)⟩
  | serve id =>
    cases hcall : findCall s id with
    | none => simpa [step, hcall] using ⟨h, .inl (.inl rfl)⟩
    | some c =>
      have hcalm : ∀ token, c.pc = .sent .retry token → token ∈ s.accepted := by
        intro token hpc
        simpa [Calm, hcall, hpc] using hop
      obtain ⟨hsane, hout⟩ := serve_sane h (findCall_mem hcall).1 hcalm
      simpa [step, hcall] using ⟨hsane, .inl (.inl hout)⟩
  | grant id access refresh idToken =>
    cases hcall : findCall s id with
    | none => simpa [step, hcall] using ⟨h, .inl (.inl rfl)⟩
    | some c =>
      obtain ⟨hsane, hout⟩ := grant_sane h (findCall_mem hcall).1 access refresh idToken
      simpa [step, hcall] using ⟨hsane, .inl (.inl hout)⟩
  | resume id writes now =>
    cases hcall : findCall s id with
    | none => simpa [step, hcall] using ⟨h, .inl (.inl rfl)⟩
    | some c =>
      have hcalm : CalmResume E s c writes = true := by simpa [Calm, hcall] using hop
      obtain ⟨hsane, hquiet⟩ := @resume_sane E s c _ now h (findCall_mem hcall).1 hcalm
      simpa [step, hcall] using ⟨hsane, .inl hquiet⟩
  | lost id =>
    cases hcall : findCall s id with
    | none => simpa [step, hcall] using ⟨h, .inl (.inl rfl)⟩
    | some c =>
      have hc := (findCall_mem hcall).1
      have hsane : Sane (finish s c .other) := by
        refine h.finish hc fun hrefreshes f hf => ?_
        have hgood := h.good c hc
        cases hpc : c.pc with
        | refreshing token =>
          rw [hpc] at hgood
          obtain ⟨⟨g, hg, hgt⟩, hnew⟩ := hgood
          rw [Option.some.inj (hf.symm.trans hg), hgt]
          exact hnew
        | granted token data => simp [Calm, hcall, hpc] at hop
        | denied token => simp [Calm, hcall, hpc] at hop
        | sent stage token => simp [hpc, Pc.refreshes] at hrefreshes
        | answered stage unauthorized => simp [hpc, Pc.refreshes] at hrefreshes
      simpa [step, hcall] using ⟨hsane, .inl (.inr ⟨c.id, rfl⟩)⟩
  | login layout file =>
    simp only [step]
    split_ifs with hfresh
    · have hidle : ∀ c ∈ s.calls, c.pc.refreshes = false := by simpa [Calm] using hop
      exact ⟨login_sane h hidle hfresh.1 hfresh.2.1, .inl (.inl rfl)⟩
    · exact ⟨h, .inl (.inl rfl)⟩
  | expire token => exact ⟨⟨h.keyed, h.exist, h.once, h.file, h.unused, h.alone, h.good⟩, .inl (.inl rfl)⟩

theorem step_safe (h : Sane s) (hop : Calm E s op = true) : Safe E s op where
  once := (step_sane h hop).1.once
  relogin id hid hvalid := by
    rcases (step_sane h hop).2 with hquiet | hnone
    · exact hquiet.relogin id hid
    · simp [ValidOnDisk, hnone] at hvalid
  written id writes now c token data before after hresume hcall hpc hbefore hafter := by
    subst hresume
    have hc := (findCall_mem hcall).1
    have hcalm : CalmResume E s c writes = true := by simpa [Calm, hcall] using hop
    simp only [CalmResume, hpc, Bool.and_eq_true, hbefore, Option.all_some] at hcalm
    obtain ⟨-, rfl, hplain⟩ := hcalm
    obtain ⟨p, f, hrefreshed, hparse, hmode, haccount, -⟩ := @granted_sane E s c _ _ now h hc hpc
    have hgood := h.good c hc
    rw [hpc] at hgood
    obtain ⟨⟨g, hg, htoken⟩, -⟩ := hgood
    have hafter' : parseAuthFile ⟨0, some f⟩ = some after := by
      simpa [step, hcall, resume, hpc, hrefreshed, fileOf, goto] using hafter
    rw [← Option.some.inj (hparse.symm.trans hafter'), Option.some.inj (hbefore.symm.trans hg)]
    rw [Option.some.inj (hbefore.symm.trans hg)] at hplain
    exact .inr ⟨htoken, keeps_of_plain hplain hmode haccount⟩

theorem sane_init (disk : Option AuthRaw) (accepted : List String) : Sane (init disk accepted) where
  keyed := List.nodup_nil
  exist t ht := by cases ht
  once := List.nodup_nil
  file f hf := by
    have hdisk : disk.bind parseAuthFile = some f := hf
    simp [init, hdisk]
  unused _ f _ ht := by cases ht
  alone c hc := by cases hc
  good c hc := by cases hc

/-- **Token rotation.** In every run that is calm at every step, no refresh token is presented twice, no call asks for a login
while the file has a valid token, and a write-back replaces the tokens whose refresh it is, and no other field. -/
theorem rotation_safe (E : Env) (disk : Option AuthRaw) (accepted : List String) (ops : List Op)
    (hops : Along (step E) (fun s op => Calm E s op = true) (init disk accepted) ops) :
    Along (step E) (Safe E) (init disk accepted) ops :=
  hops.carry Sane (fun _ _ hs hop => (step_sane hs hop).1) (fun _ _ hs hop => step_safe hs hop) (sane_init disk accepted)

/-- no account in the tokens, and a clock that stands still -/
def plainEnv : Env := ⟨fun _ => none, fun _ => "2026-01-01T00:00:00.000Z"⟩

def login (access refresh : String) (other : List (String × String)) : AuthRaw :=
  ⟨1, some ⟨some "chatgpt", ⟨access, refresh, none, some "acct", []⟩, none, other⟩⟩

/-- the token expires under two instances: the one refreshes, the other reloads what it wrote -/
theorem rotation_safe_reload : Along (step plainEnv) (Safe plainEnv) (init (some (login "a0" "r0" [])) [])
    [.chat 0 0, .chat 1 1, .serve 0, .serve 1, .resume 0 true 0, .grant 0 "a1" "r1" none, .resume 0 true 0, .serve 0,
      .resume 0 true 0, .resume 1 true 0, .serve 1, .resume 1 true 0] :=
  rotation_safe _ _ _ _ (by decide)

/-- both refresh at once -/
def collision : List Op :=
  [.chat 0 0, .chat 1 1, .serve 0, .serve 1, .resume 0 true 0, .resume 1 true 0, .grant 0 "a1" "r1" none, .resume 0 true 0,
    .grant 1 "a2" "r2" none]

def collided : System := run plainEnv (init (some (login "a0" "r0" [("OPENAI_API_KEY", "k")])) []) collision

/-- One refresh token is presented twice, and the call whose refresh is denied asks for a login while the file has the tokens
of the other; the file has lost a field that nobody rotates. -/
theorem concurrent_refreshes_collide :
    collided.presented = ["r0", "r0"] ∧ ValidOnDisk collided ∧
      (step plainEnv collided (.resume 1 true 0)).outcomes = collided.outcomes ++ [(1, .relogin)] ∧
      (fileOf collided).map (·.other) = some [] := by
  decide

/-- a login while a refresh is on its way -/
def overtaken : System :=
  run plainEnv (init (some (login "a0" "r0" [])) [])
    [.chat 0 0, .serve 0, .resume 0 true 0, .login 1 ⟨some "chatgpt", ⟨"a9", "r9", none, some "acct", []⟩, none, []⟩,
      .grant 0 "a1" "r1" none]

/-- The refresh replaces the tokens of the login. -/
theorem refresh_overwrites_login :
    (fileOf overtaken).map (·.tokens.refresh_token) = some "r9" ∧
      (fileOf (step plainEnv overtaken (.resume 0 true 0))).map (·.tokens.refresh_token) = some "r1" := by
  decide

end AstramemLocal.Providers.CodexSubscription
