/-
The capture of one proxied exchange after the other (`finishCapture` of `src/capture/proxy.ts`, with the gate of
`src/capture/relevance-gate.ts`): the turns that pass the gate are spooled if the answer is among them, and their hashes
enter the window that later turns are compared with.

- `capture_atomic_iff`: the window is the one of the spooled exchanges alone, at every moment of a run, exactly when no
  write fails for an exchange whose answer passed (or the window holds nothing).
- `failed_write_poisons`: after a failed write the same exchange is never captured.
-/
import AstramemLocal.Capture.Reassembly
import AstramemLocal.Core.Firsts
import AstramemLocal.Redact.Entropy

namespace AstramemLocal.Capture.FinishCapture

open AstramemLocal.Core AstramemLocal.Ingest AstramemLocal.Redact EventStream
open JsonText (jsonParse)
open JsValue (isText)

/-! ## The relevance gate -/

structure RelevanceGateOptions where
  minChars : ℚ
  maxBytes : ℚ
  dedupWindow : ℚ

inductive GatedRelevanceReason where
  | tooShort | tooLarge | duplicateRecent | structuralJunk
deriving DecidableEq, Repr

/-- the tables of Unicode, the digest, and how numbers are read -/
structure CaptureEnv (N Hash : Type) where
  number : JsString → N
  isFinite : N → Bool
  toLowerCase : JsString → JsString
  /-- `\p{P}` -/
  isPunctuation : ℕ → Bool
  /-- how the `i` flag compares -/
  canonicalize : ℕ → ℕ
  sha256 : JsString → Hash

variable {N Hash : Type} (E : CaptureEnv N Hash) (opts : RelevanceGateOptions)

/-- `/^[\p{P}\s]+$/u` -/
def punctuationOrWhitespaceOnly (text : JsString) : Bool :=
  text ≠ [] && (codePoints text).all fun c => E.isPunctuation c || JsString.isSpace c

/-- `/^(.)\1{4,}$/` -/
def repeatedCharRun (text : JsString) : Bool :=
  match text with
  | [] => false
  | u :: rest => !JsString.isLineTerminator u && 4 ≤ rest.length && rest.all (· = u)

/-- `/^(\S+)(\s+\1){2,}$/i`, on a trimmed text: three or more words, all of them the first -/
def repeatedTokenRun (text : JsString) : Bool :=
  match JsString.words text with
  | [] => false
  | first :: rest => 2 ≤ rest.length && rest.all fun word => word.map E.canonicalize = first.map E.canonicalize

/-- a lone surrogate is written as U+FFFD, which has three bytes as well -/
def utf8Length (text : JsString) : ℕ :=
  ((codePoints text).map fun c => if c < 0x80 then 1 else if c < 0x800 then 2 else if c < 0x10000 then 3 else 4).sum

def hashTurnText (text : JsString) : Hash := E.sha256 (JsString.collapseSpace (E.toLowerCase text.trim))

/-! ## The window -/

/-- `while (recentHashes.size > dedupWindow)`: the oldest goes first -/
def evict (dedupWindow : ℚ) : List Hash → List Hash
  | [] => []
  | oldest :: rest => if dedupWindow < (oldest :: rest).length then evict dedupWindow rest else oldest :: rest

section
variable {window : ℚ} {recent : List Hash}

theorem evict_suffix : evict window recent <:+ recent := by
  induction recent with
  | nil => exact List.suffix_rfl
  | cons oldest rest ih =>
    rw [evict]
    split_ifs
    · exact ih.trans (List.suffix_cons oldest rest)
    · exact List.suffix_rfl

theorem evict_eq_nil (h : window < 1) : evict window recent = [] := by
  induction recent with
  | nil => rfl
  | cons oldest rest ih =>
    rw [evict, if_pos, ih]
    apply h.trans_le
    simp

/-- the newest hash stays in a window that holds one -/
theorem mem_evict_concat (h : 1 ≤ window) (hash : Hash) : hash ∈ evict window (recent ++ [hash]) := by
  induction recent with
  | nil =>
    have hlength : ¬ window < ([hash].length : ℚ) := by simpa using h
    rw [List.nil_append, evict, if_neg hlength]
    exact List.mem_singleton_self hash
  | cons oldest rest ih =>
    rw [List.cons_append, evict]
    split_ifs
    · exact ih
    · simp

end

section
variable [DecidableEq Hash]

def gateRelevance (turn : ProxyTurn) (recentHashes : List Hash) : Option GatedRelevanceReason :=
  let trimmed := turn.text.trim
  if trimmed = [] then some .structuralJunk
  else if punctuationOrWhitespaceOnly E trimmed then some .structuralJunk
  else if repeatedCharRun trimmed || repeatedTokenRun E trimmed then some .structuralJunk
  else if (trimmed.length : ℚ) < opts.minChars then some .tooShort
  else if opts.maxBytes < utf8Length trimmed then some .tooLarge
  else if hashTurnText E trimmed ∈ recentHashes then some .duplicateRecent
  else none

def recordCapturedTurnHash (recentHashes : List Hash) (text : JsString) : List Hash :=
  let hash := hashTurnText E text
  evict opts.dedupWindow (if hash ∈ recentHashes then recentHashes else recentHashes ++ [hash])

/-! ## The exchange -/

/-- the user turns of a request body -/
def extractRequestTurns (rawBody : JsString) : List ProxyTurn :=
  match (jsonParse E.number rawBody).bind (·.get "messages") with
  | some (.arr messages) =>
    messages.filterMap fun m =>
      if isText (m.get "role") "user" then
        let text := JsString.trim (extractContentBlockText (m.get "content"))
        if text ≠ [] then some ⟨.user, text⟩ else none
      else none
  | _ => []

structure Exchange where
  reqBody : JsString
  resBody : JsString
  /-- whether `writeToSpool` returns -/
  writeSucceeds : Bool

/-- what a written envelope holds of its exchange -/
structure Captured (N : Type) where
  turns : List ProxyTurn
  usage : Option (ProxyUsage N)

/-- one turn of phase 1, with the hashes the exchange has shown already -/
def gateTurn (recentHashes : List Hash) (acc : List ProxyTurn × List Hash) (turn : ProxyTurn) :
    List ProxyTurn × List Hash :=
  if (gateRelevance E opts turn recentHashes).isSome then acc
  else
    let hash := hashTurnText E turn.text
    if hash ∈ acc.2 then acc else (acc.1 ++ [turn], acc.2 ++ [hash])

/-- the gate's survivors, without repeats in the exchange -/
def survivors (recentHashes : List Hash) (turns : List ProxyTurn) : List ProxyTurn :=
  firsts (fun turn => hashTurnText E turn.text) (turns.filter fun turn => (gateRelevance E opts turn recentHashes).isNone)

theorem survivors_concat (recentHashes : List Hash) (turns : List ProxyTurn) (turn : ProxyTurn) :
    survivors E opts recentHashes (turns ++ [turn]) =
      if (gateRelevance E opts turn recentHashes).isSome ∨
          hashTurnText E turn.text ∈ (survivors E opts recentHashes turns).map fun turn => hashTurnText E turn.text
      then survivors E opts recentHashes turns else survivors E opts recentHashes turns ++ [turn] := by
  unfold survivors
  rw [List.filter_append]
  cases hgate : gateRelevance E opts turn recentHashes with
  | some reason => simp [hgate]
  | none =>
    have hkept : [turn].filter (fun turn => (gateRelevance E opts turn recentHashes).isNone) = [turn] := by
      simp [hgate]
    rw [hkept, firsts_concat]
    simp

/-- phase 1 keeps the survivors -/
theorem foldl_gateTurn (recentHashes : List Hash) (turns : List ProxyTurn) :
    turns.foldl (gateTurn E opts recentHashes) ([], []) = (survivors E opts recentHashes turns,
      (survivors E opts recentHashes turns).map fun turn => hashTurnText E turn.text) := by
  induction turns using List.reverseRecOn with
  | nil => rfl
  | append_singleton turns turn ih =>
    rw [List.foldl_concat, ih, survivors_concat, gateTurn]
    dsimp only
    by_cases hgate : (gateRelevance E opts turn recentHashes).isSome = true
    · rw [if_pos hgate, if_pos (.inl hgate)]
    · rw [if_neg hgate]
      split_ifs with hmem hany hany
      · rfl
      · exact absurd (.inr hmem) hany
      · exact absurd (hany.resolve_left hgate) hmem
      · rw [List.map_append]
        rfl

def recordAll (recentHashes : List Hash) (turns : List ProxyTurn) : List Hash :=
  turns.foldl (fun recent turn => recordCapturedTurnHash E opts recent turn.text) recentHashes

section
variable {E opts} {recent : List Hash} {turns : List ProxyTurn}

theorem recordAll_concat (turn : ProxyTurn) : recordAll E opts recent (turns ++ [turn]) =
    recordCapturedTurnHash E opts (recordAll E opts recent turns) turn.text := by
  rw [recordAll, List.foldl_concat]
  rfl

theorem recordAll_subset {hash : Hash} (h : hash ∈ recordAll E opts recent turns) :
    hash ∈ recent ∨ hash ∈ turns.map fun turn => hashTurnText E turn.text := by
  induction turns using List.reverseRecOn with
  | nil => exact .inl h
  | append_singleton turns turn ih =>
    rw [recordAll_concat] at h
    have hmem := evict_suffix.subset h
    split_ifs at hmem with hin
    · exact (ih hmem).imp_right fun h => by
        rw [List.map_append]
        exact List.mem_append_left _ h
    · rw [List.map_append]
      rcases List.mem_append.1 hmem with hmem | hmem
      · exact (ih hmem).imp_right (List.mem_append_left _)
      · exact .inr (List.mem_append_right _ hmem)

theorem recordAll_eq_nil (h : opts.dedupWindow < 1) (turns : List ProxyTurn) : recordAll E opts [] turns = [] := by
  induction turns using List.reverseRecOn with
  | nil => rfl
  | append_singleton turns turn ih =>
    rw [recordAll_concat]
    exact evict_eq_nil h

end

variable [LinearOrder N]

/-- the window behind the exchange, and what was spooled of it. An error on the way ends the capture of the exchange. -/
def finishCapture (recentHashes : List Hash) (ex : Exchange) : List Hash × Option (Captured N) :=
  match extractResponseTurn E.number ex.resBody with
  | .error _ => (recentHashes, none)
  | .ok assistantTurn =>
    let turns := extractRequestTurns E ex.reqBody ++ assistantTurn.toList
    if turns = [] then (recentHashes, none)
    else
      let gated := (turns.foldl (gateTurn E opts recentHashes) ([], [])).1
      if gated.any fun turn => turn.role = .assistant then
        let recorded := gated.foldl (fun recent turn => recordCapturedTurnHash E opts recent turn.text) recentHashes
        let usage := extractUsageMetadata E.number E.isFinite ex.reqBody ex.resBody
        (recorded, if ex.writeSucceeds then some ⟨gated, usage⟩ else none)
      else (recentHashes, none)

/-- the window of the process, and what it has spooled -/
@[ext]
structure ProxyState (N Hash : Type) where
  recentHashes : List Hash := []
  spooled : List (Captured N) := []

def captureStep (st : ProxyState N Hash) (ex : Exchange) : ProxyState N Hash :=
  let (recentHashes, captured) := finishCapture E opts st.recentHashes ex
  ⟨recentHashes, st.spooled ++ captured.toList⟩

/-- a process from its start -/
def run (exchanges : List Exchange) : ProxyState N Hash := exchanges.foldl (captureStep E opts) {}

/-! ## One exchange -/

/-- the turns of an exchange whose response can be read -/
def exchangeTurns (ex : Exchange) : List ProxyTurn :=
  match extractResponseTurn E.number ex.resBody with
  | .error _ => []
  | .ok assistantTurn => extractRequestTurns E ex.reqBody ++ assistantTurn.toList

/-- what passes of the exchange -/
def gated (recentHashes : List Hash) (ex : Exchange) : List ProxyTurn := survivors E opts recentHashes (exchangeTurns E ex)

/-- the response's turn is among what passes; the turns of a request are the user's -/
def AnswerSurvives (recentHashes : List Hash) (ex : Exchange) : Prop :=
  ∃ turn ∈ gated E opts recentHashes ex, turn.role = .assistant

instance (recentHashes : List Hash) (ex : Exchange) : Decidable (AnswerSurvives E opts recentHashes ex) :=
  inferInstanceAs (Decidable (∃ turn ∈ gated E opts recentHashes ex, turn.role = .assistant))

/-- what an exchange leaves behind: nothing, if the answer does not survive; otherwise the hashes, and the envelope if it is
written -/
theorem finishCapture_eq (recentHashes : List Hash) (ex : Exchange) : finishCapture E opts recentHashes ex =
    if AnswerSurvives E opts recentHashes ex then
      (recordAll E opts recentHashes (gated E opts recentHashes ex),
        if ex.writeSucceeds then some ⟨gated E opts recentHashes ex,
          extractUsageMetadata E.number E.isFinite ex.reqBody ex.resBody⟩ else none)
    else (recentHashes, none) := by
  have hnone : exchangeTurns E ex = [] → ¬ AnswerSurvives E opts recentHashes ex := by
    rintro hnil ⟨turn, hturn, -⟩
    rw [gated, hnil] at hturn
    cases hturn
  unfold finishCapture
  split
  next error hresponse =>
    rw [if_neg (hnone (by rw [exchangeTurns, hresponse]))]
  next assistantTurn hresponse =>
    have hturns : extractRequestTurns E ex.reqBody ++ assistantTurn.toList = exchangeTurns E ex := by
      rw [exchangeTurns, hresponse]
    have hloop : ((exchangeTurns E ex).foldl (gateTurn E opts recentHashes) ([], [])).1 = gated E opts recentHashes ex := by
      rw [foldl_gateTurn]
      rfl
    have hany : (gated E opts recentHashes ex).any (fun turn => turn.role = .assistant) = true ↔
        AnswerSurvives E opts recentHashes ex := by
      simp [AnswerSurvives]
    dsimp only
    rw [hturns, hloop]
    by_cases hsurvives : AnswerSurvives E opts recentHashes ex
    · have hne : exchangeTurns E ex ≠ [] := fun hnil => hnone hnil hsurvives
      rw [if_neg hne, if_pos (hany.2 hsurvives), if_pos hsurvives]
      rfl
    · have hnot : ¬ (gated E opts recentHashes ex).any (fun turn => turn.role = .assistant) = true :=
        fun h => hsurvives (hany.1 h)
      rw [if_neg hsurvives, if_neg hnot, ite_self]

/-! ## What passes and the window -/

variable {E opts} {recent : List Hash}

omit [LinearOrder N] in
/-- a turn that passes is none of the window's -/
theorem notMem_of_gate {turn : ProxyTurn} (h : gateRelevance E opts turn recent = none) :
    hashTurnText E turn.text ∉ recent := by
  unfold gateRelevance at h
  dsimp only at h
  split_ifs at h with hempty hpunct hrun hshort hlarge hdup
  have htrim : hashTurnText E turn.text.trim = hashTurnText E turn.text := by
    rw [hashTurnText, hashTurnText, JsString.trim_trim]
  rwa [htrim] at hdup

/-- recording what passes changes the window, unless it holds nothing -/
theorem recordAll_ne (h : 1 ≤ opts.dedupWindow) {ex : Exchange} (hgated : gated E opts recent ex ≠ []) :
    recordAll E opts recent (gated E opts recent ex) ≠ recent := by
  have hnodup : ((gated E opts recent ex).map fun turn => hashTurnText E turn.text).Nodup := nodup_firsts
  have hpass : ∀ turn ∈ gated E opts recent ex, hashTurnText E turn.text ∉ recent := by
    intro turn hturn
    have hgate := (List.mem_filter.1 (firsts_subset hturn)).2
    exact notMem_of_gate (Option.isNone_iff_eq_none.1 hgate)
  obtain ⟨before, last, hsplit⟩ : ∃ before last, gated E opts recent ex = before ++ [last] :=
    ⟨_, _, (List.dropLast_append_getLast hgated).symm⟩
  rw [hsplit] at hnodup hpass ⊢
  have hnew : hashTurnText E last.text ∉ recordAll E opts recent before := by
    intro hin
    rcases recordAll_subset hin with hin | hin
    · exact hpass last (List.mem_append_right _ (List.mem_singleton_self last)) hin
    · rw [List.map_append, List.nodup_append] at hnodup
      exact hnodup.2.2 _ hin _ (List.mem_singleton_self _) rfl
  intro heq
  have hlast : hashTurnText E last.text ∈ recordAll E opts recent (before ++ [last]) := by
    rw [recordAll_concat, recordCapturedTurnHash, if_neg hnew]
    exact mem_evict_concat h _
  rw [heq] at hlast
  exact hpass last (List.mem_append_right _ (List.mem_singleton_self last)) hlast

/-! ## Runs -/

variable (E opts) in
/-- the exchanges that are spooled in a run -/
def spooledIn (st : ProxyState N Hash) : List Exchange → List Exchange
  | [] => []
  | ex :: rest =>
    let later := spooledIn (captureStep E opts st ex) rest
    if (finishCapture E opts st.recentHashes ex).2.isSome then ex :: later else later

theorem spooledIn_concat (exchanges : List Exchange) (ex : Exchange) (st : ProxyState N Hash) :
    spooledIn E opts st (exchanges ++ [ex]) = spooledIn E opts st exchanges ++
      if (finishCapture E opts (exchanges.foldl (captureStep E opts) st).recentHashes ex).2.isSome then [ex] else [] := by
  induction exchanges generalizing st with
  | nil => rfl
  | cons first rest ih =>
    rw [List.cons_append, spooledIn, ih, spooledIn, List.foldl_cons]
    split_ifs <;> simp

theorem spooledIn_run (exchanges : List Exchange) (ex : Exchange) :
    spooledIn E opts {} (exchanges ++ [ex]) = spooledIn E opts {} exchanges ++
      if (finishCapture E opts (run E opts exchanges).recentHashes ex).2.isSome then [ex] else [] :=
  spooledIn_concat exchanges ex {}

theorem run_concat (exchanges : List Exchange) (ex : Exchange) :
    run E opts (exchanges ++ [ex]) = captureStep E opts (run E opts exchanges) ex := List.foldl_concat _ _ _ _

variable (E opts) in
/-- what an exchange owes to the run before it, and the run to the exchanges it spooled -/
structure Atomic (exchanges : List Exchange) : Prop where
  spooled_iff : ∀ before ex, before ++ [ex] <+: exchanges →
    ((finishCapture E opts (run E opts before).recentHashes ex).2.isSome ↔
      AnswerSurvives E opts (run E opts before).recentHashes ex ∧ ex.writeSucceeds = true)
  turns : ∀ before ex captured, before ++ [ex] <+: exchanges →
    (finishCapture E opts (run E opts before).recentHashes ex).2 = some captured →
      captured.turns = survivors E opts (run E opts before).recentHashes (exchangeTurns E ex)
  window : ∀ before, before <+: exchanges → run E opts before = run E opts (spooledIn E opts {} before)

/-- no write fails for an exchange whose answer survives -/
def NoSurvivorLost (E : CaptureEnv N Hash) (opts : RelevanceGateOptions) (exchanges : List Exchange) : Prop :=
  ∀ before ex, before ++ [ex] <+: exchanges → AnswerSurvives E opts (run E opts before).recentHashes ex →
    ex.writeSucceeds = true

variable {exchanges : List Exchange}

theorem captureStep_of_discarded {st : ProxyState N Hash} {ex : Exchange}
    (h : ¬ AnswerSurvives E opts st.recentHashes ex) : captureStep E opts st ex = st := by
  unfold captureStep
  rw [finishCapture_eq, if_neg h]
  simp

/-- only exchanges whose answer survives are spooled, if their write succeeds -/
theorem spooled_iff_survives {recent : List Hash} {ex : Exchange} : (finishCapture E opts recent ex).2.isSome ↔
    AnswerSurvives E opts recent ex ∧ ex.writeSucceeds = true := by
  rw [finishCapture_eq]
  split_ifs with hsurvives hwrite
  · simp [hsurvives, hwrite]
  · simp [hwrite]
  · simp [hsurvives]

theorem turns_of_spooled {recent : List Hash} {ex : Exchange} {captured : Captured N}
    (h : (finishCapture E opts recent ex).2 = some captured) :
    captured.turns = survivors E opts recent (exchangeTurns E ex) := by
  rw [finishCapture_eq] at h
  split_ifs at h
  cases h
  rfl

/-- a window that holds nothing stays empty -/
theorem recentHashes_eq_nil (h : opts.dedupWindow < 1) (exchanges : List Exchange) :
    (run E opts exchanges).recentHashes = [] := by
  induction exchanges using List.reverseRecOn with
  | nil => rfl
  | append_singleton exchanges ex ih =>
    rw [run_concat, captureStep, finishCapture_eq, ih]
    split_ifs
    · exact recordAll_eq_nil h _
    · exact recordAll_eq_nil h _
    · rfl

/-- an exchange that is not spooled leaves nothing behind -/
theorem captureStep_of_unspooled {before : List Exchange} {ex : Exchange}
    (hnone : ¬ (finishCapture E opts (run E opts before).recentHashes ex).2.isSome = true)
    (h : opts.dedupWindow < 1 ∨ (AnswerSurvives E opts (run E opts before).recentHashes ex → ex.writeSucceeds = true)) :
    captureStep E opts (run E opts before) ex = run E opts before := by
  by_cases hsurvives : AnswerSurvives E opts (run E opts before).recentHashes ex
  · rcases h with hwindow | hwrite
    · have hrecent := recentHashes_eq_nil (E := E) hwindow before
      have hafter := recentHashes_eq_nil (E := E) hwindow (before ++ [ex])
      rw [run_concat] at hafter
      have hcaptured : (finishCapture E opts (run E opts before).recentHashes ex).2 = none := by
        simpa using hnone
      have hspooled : (captureStep E opts (run E opts before) ex).spooled = (run E opts before).spooled := by
        unfold captureStep
        simp [hcaptured]
      exact ProxyState.ext (hafter.trans hrecent.symm) hspooled
    · exact absurd (spooled_iff_survives.2 ⟨hsurvives, hwrite hsurvives⟩) hnone
  · exact captureStep_of_discarded hsurvives

/-- **Exchange capture is atomic** exactly if no write of a surviving exchange fails, or the window holds nothing. -/
theorem capture_atomic_iff (E : CaptureEnv N Hash) (opts : RelevanceGateOptions) (exchanges : List Exchange) :
    Atomic E opts exchanges ↔ opts.dedupWindow < 1 ∨ NoSurvivorLost E opts exchanges := by
  constructor
  · intro h
    refine or_iff_not_imp_left.2 fun hwindow before ex hprefix hsurvives => ?_
    by_contra hfails
    have hnone : ¬ (finishCapture E opts (run E opts before).recentHashes ex).2.isSome = true :=
      fun hsome => hfails (spooled_iff_survives.1 hsome).2
    have hbefore := h.window before ((List.prefix_append _ _).trans hprefix)
    have hafter := h.window _ hprefix
    rw [spooledIn_run, if_neg hnone, List.append_nil, ← hbefore, run_concat] at hafter
    have hrecord := congrArg ProxyState.recentHashes hafter
    rw [captureStep, finishCapture_eq, if_pos hsurvives] at hrecord
    apply recordAll_ne (not_lt.1 hwindow) _ hrecord
    obtain ⟨turn, hturn, -⟩ := hsurvives
    exact List.ne_nil_of_mem hturn
  · intro h
    refine ⟨fun _ _ _ => spooled_iff_survives, fun _ _ _ _ => turns_of_spooled, fun before hbefore => ?_⟩
    induction before using List.reverseRecOn with
    | nil => rfl
    | append_singleton before ex ih =>
      have hrun := ih ((List.prefix_append _ _).trans hbefore)
      rw [spooledIn_run]
      split_ifs with hsome
      · rw [run_concat, run_concat, ← hrun]
      · rw [List.append_nil, ← hrun, run_concat]
        exact captureStep_of_unspooled hsome (h.imp_right fun hlost => hlost before ex hbefore)

end

/-! ## A failed write -/

/-- texts are their own digests -/
def plainEnv : CaptureEnv ℕ JsString where
  number _ := 0
  isFinite _ := true
  toLowerCase text := text
  isPunctuation c := c = 0x2e ∨ c = 0x3f
  canonicalize u := u
  sha256 text := text

def gateOpts : RelevanceGateOptions := ⟨3, 4096, 64⟩

/-- one question and its answer -/
def asked (writeSucceeds : Bool) : Exchange where
  reqBody := JsString.ofString "\x7b\"messages\":[\x7b\"role\":\"user\",\"content\":\"undo a commit?\"\x7d]\x7d"
  resBody := JsString.ofString "\x7b\"content\":[\x7b\"type\":\"text\",\"text\":\"git revert.\"\x7d]\x7d"
  writeSucceeds

/-- The write of an exchange fails, and the same exchange, which would be spooled in a fresh process, is dropped as a
duplicate from then on. -/
theorem failed_write_poisons :
    (run plainEnv gateOpts [asked true]).spooled.length = 1 ∧
    (run plainEnv gateOpts [asked false, asked true]).spooled.length = 0 ∧
    ¬ Atomic plainEnv gateOpts [asked false] := by
  refine ⟨by decide +kernel, by decide +kernel, fun h => ?_⟩
  have hwindow := congrArg (fun st => st.recentHashes.length) (h.window [asked false] List.prefix_rfl)
  exact absurd hwindow (by decide +kernel)

end AstramemLocal.Capture.FinishCapture
