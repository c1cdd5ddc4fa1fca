/-
Regular expressions of the language over UTF-16 units, without the `u` flag. `run` lists the ways to match from a state,
in the order a backtracking matcher tries them, so the first of them is the match. A state carries that it lies within
the text, so every match does. `RegExp` is any compiled pattern, `Re.compile` the ones written out here.
-/
import AstramemLocal.Core.JsString

namespace AstramemLocal.Core

/-- `text.slice(i, j)` -/
def JsString.slice (text : JsString) (i j : ℕ) : JsString := (text.take j).drop i

inductive Re where
  | empty
  /-- a character or a class; `negated` is the caret -/
  | set (negated : Bool) (p : ℕ → Bool)
  | seq (r s : Re)
  | alt (r s : Re)
  | rep (greedy : Bool) (min : ℕ) (max : Option ℕ) (r : Re)
  | group (n : ℕ) (r : Re)
  | wordBoundary
  | atStart
  | atEnd
  | notAhead (r : Re)
  /-- a lookbehind of one character -/
  | notBehind (p : ℕ → Bool)

namespace Re

/-! ## Writing patterns -/

instance : Append Re := ⟨seq⟩

instance : OrOp Re := ⟨alt⟩

def digit (u : ℕ) : Bool := 0x30 ≤ u && u ≤ 0x39

def upper (u : ℕ) : Bool := 0x41 ≤ u && u ≤ 0x5a

def lower (u : ℕ) : Bool := 0x61 ≤ u && u ≤ 0x7a

def letter (u : ℕ) : Bool := upper u || lower u

def alnum (u : ℕ) : Bool := letter u || digit u

/-- the characters listed in a class -/
def listed (chars : String) (u : ℕ) : Bool := u ∈ JsString.ofString chars

def units (text : JsString) : Re := text.foldr (fun u r => .seq (.set false (· = u)) r) .empty

/-- a text taken literally -/
def lit (s : String) : Re := units (JsString.ofString s)

def cls (p : ℕ → Bool) : Re := .set false p

def notCls (p : ℕ → Bool) : Re := .set true p

/-- `\s` and `\S` -/
def space : Re := cls JsString.isSpace

def nonSpace : Re := cls fun u => !JsString.isSpace u

def star (r : Re) : Re := .rep true 0 none r

def plus (r : Re) : Re := .rep true 1 none r

def opt (r : Re) : Re := .rep true 0 (some 1) r

def exactly (n : ℕ) (r : Re) : Re := .rep true n (some n) r

def atLeast (n : ℕ) (r : Re) : Re := .rep true n none r

def between (m n : ℕ) (r : Re) : Re := .rep true m (some n) r

/-! ## Matching -/

structure State (text : JsString) where
  pos : ℕ
  captures : ℕ → Option (ℕ × ℕ)
  pos_le : pos ≤ text.length
  captures_le : ∀ n a b, captures n = some (a, b) → b ≤ text.length

variable {text : JsString}

def State.initial (i : ℕ) (h : i ≤ text.length) : State text := ⟨i, fun _ => none, h, fun _ _ _ h => by cases h⟩

def State.capture (n : ℕ) (x y : State text) : State text where
  pos := y.pos
  captures m := if m = n then some (x.pos, y.pos) else y.captures m
  pos_le := y.pos_le
  captures_le m a b h := by
    split at h
    · cases h
      exact y.pos_le
    · exact y.captures_le m a b h

/-- the groups an iteration sets anew -/
def State.clear (groups : List ℕ) (x : State text) : State text where
  pos := x.pos
  captures m := if m ∈ groups then none else x.captures m
  pos_le := x.pos_le
  captures_le m a b h := by
    split at h
    · cases h
    · exact x.captures_le m a b h

def groups : Re → List ℕ
  | .seq r s | .alt r s => groups r ++ groups s
  | .rep _ _ _ r => groups r
  | .group n r => n :: groups r
  | _ => []

def swapCase (u : ℕ) : ℕ :=
  if 0x41 ≤ u ∧ u ≤ 0x5a then u + 0x20 else if 0x61 ≤ u ∧ u ≤ 0x7a then u - 0x20 else u

/-- without the `u` flag only ASCII letters fold onto ASCII letters -/
def inClass (ignoreCase negated : Bool) (p : ℕ → Bool) (u : ℕ) : Bool :=
  (p u || (ignoreCase && p (swapCase u))) != negated

def isWordUnit (u : ℕ) : Bool :=
  (0x30 ≤ u && u ≤ 0x39) || (0x41 ≤ u && u ≤ 0x5a) || (0x61 ≤ u && u ≤ 0x7a) || u = 0x5f

def before (text : JsString) : ℕ → Option ℕ
  | 0 => none
  | i + 1 => text[i]?

/-- the iterations a quantifier asks for -/
def times (body : State text → List (State text)) : ℕ → State text → List (State text)
  | 0, x => [x]
  | n + 1, x => (body x).flatMap (times body n)

/-- the iterations it allows: one that consumes nothing is given up -/
def upTo (body : State text → List (State text)) (greedy : Bool) : ℕ → State text → List (State text)
  | 0, x => [x]
  | n + 1, x =>
    let more := ((body x).filter fun y => y.pos ≠ x.pos).flatMap (upTo body greedy n)
    if greedy then more ++ [x] else x :: more

/-- every way to match from a state, the preferred ones first -/
def run (ignoreCase : Bool) : Re → State text → List (State text)
  | .empty, x => [x]
  | .set negated p, x =>
    if h : x.pos < text.length then
      if inClass ignoreCase negated p text[x.pos] then [⟨x.pos + 1, x.captures, h, x.captures_le⟩] else []
    else []
  | .seq r s, x => (run ignoreCase r x).flatMap (run ignoreCase s)
  | .alt r s, x => run ignoreCase r x ++ run ignoreCase s x
  | .rep greedy min max r, x =>
    let body := fun y : State text => run ignoreCase r (y.clear r.groups)
    -- no more iterations than units: each of the optional ones consumes one
    (times body min x).flatMap (upTo body greedy (max.elim text.length (· - min)))
  | .group n r, x => (run ignoreCase r x).map (x.capture n)
  | .wordBoundary, x => if (before text x.pos).any isWordUnit != text[x.pos]?.any isWordUnit then [x] else []
  | .atStart, x => if x.pos = 0 then [x] else []
  | .atEnd, x => if x.pos = text.length then [x] else []
  | .notAhead r, x => if (run ignoreCase r x).isEmpty then [x] else []
  | .notBehind p, x => if (before text x.pos).any (inClass ignoreCase false p) then [] else [x]

theorem times_le {body : State text → List (State text)} (hbody : ∀ x, ∀ y ∈ body x, x.pos ≤ y.pos) (n : ℕ)
    (x : State text) : ∀ y ∈ times body n x, x.pos ≤ y.pos := by
  induction n generalizing x with
  | zero =>
    intro y hy
    rw [times, List.mem_singleton] at hy
    exact hy ▸ le_rfl
  | succ n ih =>
    intro y hy
    obtain ⟨z, hz, hy⟩ := List.mem_flatMap.1 hy
    exact (hbody x z hz).trans (ih z y hy)

theorem mem_upTo_succ {body : State text → List (State text)} {greedy : Bool} {n : ℕ} {x y : State text} :
    y ∈ upTo body greedy (n + 1) x ↔ y = x ∨ ∃ z ∈ body x, z.pos ≠ x.pos ∧ y ∈ upTo body greedy n z := by
  rw [upTo]
  cases greedy <;> simp [and_assoc, or_comm]

theorem upTo_le {body : State text → List (State text)} (hbody : ∀ x, ∀ y ∈ body x, x.pos ≤ y.pos) (greedy : Bool)
    (n : ℕ) (x : State text) : ∀ y ∈ upTo body greedy n x, x.pos ≤ y.pos := by
  induction n generalizing x with
  | zero =>
    intro y hy
    rw [upTo, List.mem_singleton] at hy
    exact hy ▸ le_rfl
  | succ n ih =>
    intro y hy
    rcases mem_upTo_succ.1 hy with rfl | ⟨z, hz, -, hy⟩
    · exact le_rfl
    · exact (hbody x z hz).trans (ih z y hy)

/-- a matcher never moves back -/
theorem run_le (ignoreCase : Bool) (r : Re) (x : State text) : ∀ y ∈ run ignoreCase r x, x.pos ≤ y.pos := by
  induction r generalizing x with
  | set negated p =>
    intro y hy
    unfold run at hy
    split_ifs at hy <;> simp_all
  | seq r s ihr ihs =>
    intro y hy
    obtain ⟨z, hz, hy⟩ := List.mem_flatMap.1 hy
    exact (ihr x z hz).trans (ihs z y hy)
  | alt r s ihr ihs =>
    intro y hy
    rcases List.mem_append.1 hy with hy | hy
    · exact ihr x y hy
    · exact ihs x y hy
  | rep greedy min max r ih =>
    intro y hy
    obtain ⟨z, hz, hy⟩ := List.mem_flatMap.1 hy
    have hbody : ∀ x : State text, ∀ y ∈ run ignoreCase r (x.clear r.groups), x.pos ≤ y.pos := fun x => ih _
    exact (times_le hbody min x z hz).trans (upTo_le hbody greedy _ z y hy)
  | group n r ih =>
    intro y hy
    obtain ⟨z, hz, rfl⟩ := List.mem_map.1 hy
    exact ih x z hz
  | empty =>
    intro y hy
    rw [run, List.mem_singleton] at hy
    exact hy ▸ le_rfl
  | wordBoundary | atStart | atEnd | notAhead | notBehind =>
    -- an assertion leaves the state alone
    intro y hy
    simp only [run] at hy
    split_ifs at hy <;> simp_all

end Re

/-! ## Patterns -/

/-- what `exec` returns, with the indices of the groups (`d` flag) -/
structure Match (text : JsString) where
  start : ℕ
  stop : ℕ
  groups : ℕ → Option (ℕ × ℕ)
  start_le : start ≤ stop
  stop_le : stop ≤ text.length
  groups_le : ∀ n a b, groups n = some (a, b) → b ≤ text.length

/-- a compiled pattern: what it finds from an index on -/
structure RegExp where
  exec : (text : JsString) → ℕ → Option (Match text)
  from_le : ∀ text i m, exec text i = some m → i ≤ m.start

namespace RegExp

def test (re : RegExp) (text : JsString) : Bool := (re.exec text 0).isSome

/-- `while ((m = re.exec(text)) !== null)`, stepping on after an empty match -/
def matchesFrom (re : RegExp) (text : JsString) : ℕ → ℕ → List (Match text)
  | 0, _ => []
  | fuel + 1, lastIndex =>
    match re.exec text lastIndex with
    | none => []
    | some m => m :: matchesFrom re text fuel (if m.stop = m.start then m.stop + 1 else m.stop)

/-- one more round than there are units: each moves on, and the last index is the length -/
def allMatches (re : RegExp) (text : JsString) : List (Match text) := matchesFrom re text (text.length + 1) 0

end RegExp

namespace Re

def matchAt (ignoreCase : Bool) (r : Re) (text : JsString) (i : ℕ) : Option (Match text) :=
  if h : i ≤ text.length then
    (r.run ignoreCase (.initial i h)).attach.head?.map fun y =>
      ⟨i, y.1.pos, y.1.captures, run_le ignoreCase r _ y.1 y.2, y.1.pos_le, y.1.captures_le⟩
  else none

def exec (ignoreCase : Bool) (r : Re) (text : JsString) (lastIndex : ℕ) : Option (Match text) :=
  (List.range' lastIndex (text.length + 1 - lastIndex)).findSome? (r.matchAt ignoreCase text)

theorem matchAt_start {ignoreCase : Bool} {r : Re} {text : JsString} {i : ℕ} {m : Match text}
    (h : r.matchAt ignoreCase text i = some m) : m.start = i := by
  unfold matchAt at h
  split_ifs at h
  obtain ⟨y, -, rfl⟩ := Option.map_eq_some_iff.1 h
  rfl

def compile (ignoreCase : Bool) (r : Re) : RegExp where
  exec := r.exec ignoreCase
  from_le text i m h := by
    obtain ⟨k, hmem, hk⟩ := List.exists_of_findSome?_eq_some h
    rw [matchAt_start hk]
    exact (List.mem_range'_1.1 hmem).1

/-! ## Where a match ends -/

section Ends

variable {ignoreCase negated : Bool} {p : ℕ → Bool} {r s : Re} {text : JsString} {x : State text} {i j : ℕ}

/-- the pattern can match from `x` up to `j` -/
def Ends (ignoreCase : Bool) (r : Re) (x : State text) (j : ℕ) : Prop := ∃ y ∈ run ignoreCase r x, y.pos = j

theorem ends_seq {P : ℕ → ℕ → Prop} (hs : ∀ (y : State text) (j : ℕ), Ends ignoreCase s y j ↔ P y.pos j) :
    Ends ignoreCase (r ++ s) x j ↔ ∃ k, Ends ignoreCase r x k ∧ P k j := by
  constructor
  · rintro ⟨y, hy, hj⟩
    obtain ⟨z, hz, hy⟩ := List.mem_flatMap.1 hy
    exact ⟨z.pos, ⟨z, hz, rfl⟩, (hs z j).1 ⟨y, hy, hj⟩⟩
  · rintro ⟨k, ⟨z, hz, rfl⟩, hP⟩
    obtain ⟨y, hy, hj⟩ := (hs z j).2 hP
    exact ⟨y, List.mem_flatMap.2 ⟨z, hz, hy⟩, hj⟩

theorem ends_set : Ends ignoreCase (.set negated p) x j ↔
    ∃ u, text[x.pos]? = some u ∧ inClass ignoreCase negated p u = true ∧ j = x.pos + 1 := by
  unfold Ends run
  split_ifs with hlen hu
  · rw [List.getElem?_eq_getElem hlen]
    constructor
    · rintro ⟨y, hy, rfl⟩
      rw [List.mem_singleton] at hy
      exact ⟨_, rfl, hu, hy ▸ rfl⟩
    · rintro ⟨u, -, -, rfl⟩
      exact ⟨_, List.mem_singleton_self _, rfl⟩
  · simp [hlen, hu]
  · simp [hlen]

theorem cons_prefix_drop {u : ℕ} {rest : JsString} : u :: rest <+: text.drop i ↔
    text[i]? = some u ∧ rest <+: text.drop (i + 1) := by
  by_cases hlen : i < text.length
  · rw [List.drop_eq_getElem_cons hlen, List.cons_prefix_cons, List.getElem?_eq_getElem hlen, Option.some_inj, eq_comm]
  · rw [List.drop_of_length_le (by omega), List.getElem?_eq_none (by omega)]
    simp

theorem append_prefix_drop {a b : JsString} : a ++ b <+: text.drop i ↔
    a <+: text.drop i ∧ b <+: text.drop (i + a.length) := by
  induction a generalizing i with
  | nil => simp
  | cons u a ih =>
    rw [List.cons_append, cons_prefix_drop, cons_prefix_drop, ih, and_assoc, List.length_cons,
      show i + 1 + a.length = i + (a.length + 1) by omega]

theorem ends_units (needle : JsString) (x : State text) : Ends false (units needle) x j ↔
    needle <+: text.drop x.pos ∧ j = x.pos + needle.length := by
  induction needle generalizing x j with
  | nil => simp [units, Ends, run, eq_comm]
  | cons u needle ih =>
    have hseq : Ends false (units (u :: needle)) x j ↔
        ∃ k, Ends false (.set false (· = u)) x k ∧ needle <+: text.drop k ∧ j = k + needle.length :=
      ends_seq (P := fun k j => needle <+: text.drop k ∧ j = k + needle.length) fun y _ => ih y
    rw [hseq, cons_prefix_drop]
    simp only [ends_set, inClass]
    constructor
    · rintro ⟨k, ⟨v, hv, hu, rfl⟩, hpre, rfl⟩
      have hvu : v = u := by simpa using hu
      exact ⟨⟨hvu ▸ hv, hpre⟩, by simp only [List.length_cons]; omega⟩
    · rintro ⟨⟨hu, hpre⟩, rfl⟩
      exact ⟨x.pos + 1, ⟨u, hu, by simp, rfl⟩, hpre, by simp only [List.length_cons]; omega⟩

theorem ends_upTo {body : State text → List (State text)} {q : ℕ → Bool}
    (hbody : ∀ (z : State text) (k : ℕ), (∃ y ∈ body z, y.pos = k) ↔ ∃ u, text[z.pos]? = some u ∧ q u = true ∧ k = z.pos + 1)
    (greedy : Bool) (n : ℕ) (x : State text) : (∃ y ∈ upTo body greedy n x, y.pos = j) ↔
      ∃ content : JsString, content.length ≤ n ∧ content <+: text.drop x.pos ∧ (∀ u ∈ content, q u = true) ∧
        j = x.pos + content.length := by
  induction n generalizing x with
  | zero =>
    constructor
    · rintro ⟨y, hy, rfl⟩
      rw [upTo, List.mem_singleton] at hy
      exact ⟨[], by simp [hy]⟩
    · rintro ⟨content, hlen, -, -, rfl⟩
      obtain rfl := List.eq_nil_of_length_eq_zero (Nat.le_zero.1 hlen)
      exact ⟨x, List.mem_singleton_self x, rfl⟩
  | succ n ih =>
    constructor
    · rintro ⟨y, hy, rfl⟩
      rcases mem_upTo_succ.1 hy with rfl | ⟨z, hz, -, hy⟩
      · exact ⟨[], by simp⟩
      · obtain ⟨u, hu, hq, hpos⟩ := (hbody x z.pos).1 ⟨z, hz, rfl⟩
        obtain ⟨content, hlen, hpre, hall, hj⟩ := (ih z).1 ⟨y, hy, rfl⟩
        rw [hpos] at hpre
        refine ⟨u :: content, by simpa using hlen, cons_prefix_drop.2 ⟨hu, hpre⟩, ?_, ?_⟩
        · simpa using ⟨hq, hall⟩
        · rw [hj, hpos, List.length_cons]
          omega
    · rintro ⟨content, hlen, hpre, hall, rfl⟩
      cases content with
      | nil => exact ⟨x, mem_upTo_succ.2 (Or.inl rfl), rfl⟩
      | cons u content =>
        obtain ⟨hu, hpre⟩ := cons_prefix_drop.1 hpre
        obtain ⟨hq, hall⟩ := List.forall_mem_cons.1 hall
        obtain ⟨z, hz, hpos⟩ := (hbody x (x.pos + 1)).2 ⟨u, hu, hq, rfl⟩
        rw [List.length_cons] at hlen ⊢
        have hend : x.pos + (content.length + 1) = z.pos + content.length := by omega
        obtain ⟨y, hy, hj⟩ := (ih z).2 ⟨content, by omega, hpos ▸ hpre, hall, hend⟩
        exact ⟨y, mem_upTo_succ.2 (Or.inr ⟨z, hz, by omega, hy⟩), by omega⟩

/-- one or more characters of a class -/
theorem ends_plus : Ends ignoreCase (plus (.set negated p)) x j ↔
    ∃ content : JsString, content ≠ [] ∧ content <+: text.drop x.pos ∧
      (∀ u ∈ content, inClass ignoreCase negated p u = true) ∧ j = x.pos + content.length := by
  have hbody : ∀ (z : State text) (k : ℕ), (∃ y ∈ run ignoreCase (.set negated p) (z.clear []), y.pos = k) ↔
      ∃ u, text[z.pos]? = some u ∧ inClass ignoreCase negated p u = true ∧ k = z.pos + 1 := fun z k => ends_set
  have hrun : Ends ignoreCase (plus (.set negated p)) x j ↔
      ∃ z ∈ run ignoreCase (.set negated p) (x.clear []),
        ∃ y ∈ upTo (fun y : State text => run ignoreCase (.set negated p) (y.clear [])) true text.length z, y.pos = j := by
    constructor
    · rintro ⟨y, hy, hj⟩
      obtain ⟨z', hz', hy⟩ := List.mem_flatMap.1 hy
      obtain ⟨z, hz, hzz⟩ := List.mem_flatMap.1 hz'
      rw [times, List.mem_singleton] at hzz
      exact ⟨z, hz, y, hzz ▸ hy, hj⟩
    · rintro ⟨z, hz, y, hy, hj⟩
      exact ⟨y, List.mem_flatMap.2 ⟨z, List.mem_flatMap.2 ⟨z, hz, List.mem_singleton_self z⟩, hy⟩, hj⟩
  rw [hrun]
  simp only [ends_upTo hbody]
  constructor
  · rintro ⟨z, hz, content, -, hpre, hall, rfl⟩
    obtain ⟨u, hu, hq, hpos⟩ := (hbody x z.pos).1 ⟨z, hz, rfl⟩
    rw [hpos] at hpre
    refine ⟨u :: content, by simp, cons_prefix_drop.2 ⟨hu, hpre⟩, by simpa using ⟨hq, hall⟩, ?_⟩
    rw [hpos, List.length_cons]
    omega
  · rintro ⟨content, hne, hpre, hall, rfl⟩
    obtain ⟨u, content, rfl⟩ := List.exists_cons_of_ne_nil hne
    obtain ⟨hu, hpre⟩ := cons_prefix_drop.1 hpre
    obtain ⟨hq, hall⟩ := List.forall_mem_cons.1 hall
    obtain ⟨z, hz, hpos⟩ := (hbody x (x.pos + 1)).2 ⟨u, hu, hq, rfl⟩
    have hlen := hpre.length_le
    rw [List.length_drop] at hlen
    exact ⟨z, hz, content, by omega, hpos ▸ hpre, hall, by simp only [List.length_cons]; omega⟩

/-- the pattern can match from `i` up to `j` -/
def MatchesAt (ignoreCase : Bool) (r : Re) (text : JsString) (i j : ℕ) : Prop :=
  ∃ h : i ≤ text.length, Ends ignoreCase r (.initial i h) j

theorem matchAt_eq_some {m : Match text} (h : r.matchAt ignoreCase text i = some m) :
    MatchesAt ignoreCase r text i m.stop := by
  unfold matchAt at h
  split_ifs at h with hi
  obtain ⟨y, -, rfl⟩ := Option.map_eq_some_iff.1 h
  exact ⟨hi, y.1, y.2, rfl⟩

theorem matchAt_eq_none (h : r.matchAt ignoreCase text i = none) : ¬ MatchesAt ignoreCase r text i j := by
  rintro ⟨hi, y, hy, -⟩
  unfold matchAt at h
  rw [dif_pos hi, Option.map_eq_none_iff, List.head?_eq_none_iff, List.attach_eq_nil_iff] at h
  rw [h] at hy
  cases hy

theorem exec_eq_none {k : ℕ} (h : r.exec ignoreCase text i = none) (hk : i ≤ k) :
    ¬ MatchesAt ignoreCase r text k j := by
  intro hmatch
  have hlen : k ≤ text.length := hmatch.choose
  exact matchAt_eq_none (List.findSome?_eq_none_iff.1 h k (List.mem_range'_1.2 ⟨hk, by omega⟩)) hmatch

theorem exec_eq_some {m : Match text} (h : r.exec ignoreCase text i = some m) :
    MatchesAt ignoreCase r text m.start m.stop ∧ ∀ k, i ≤ k → k < m.start → ¬ MatchesAt ignoreCase r text k j := by
  obtain ⟨before, a, behind, hsplit, ha, hnone⟩ := List.findSome?_eq_some_iff.1 h
  obtain rfl := matchAt_start ha
  refine ⟨matchAt_eq_some ha, ?_⟩
  intro k hk hlt
  obtain ⟨n, hn, rfl, htail⟩ := List.range'_eq_append_iff.1 hsplit
  have hstart : m.start = i + n := by
    have hhead := congrArg List.head? htail
    rw [List.head?_cons, List.head?_range'] at hhead
    split_ifs at hhead
    simpa using hhead
  exact matchAt_eq_none (hnone k (List.mem_range'_1.2 ⟨hk, by omega⟩))

theorem mem_matchesFrom {m : Match text} {fuel : ℕ} (h : m ∈ (r.compile ignoreCase).matchesFrom text fuel i) :
    MatchesAt ignoreCase r text m.start m.stop := by
  induction fuel generalizing i with
  | zero => cases h
  | succ fuel ih =>
    unfold RegExp.matchesFrom at h
    split at h
    · cases h
    · rename_i m' hm'
      rcases List.mem_cons.1 h with rfl | h
      · exact (exec_eq_some (j := 0) hm').1
      · exact ih h

/-- Where a match that begins inside another ends with it, and none is empty, every match lies within one that is
found. -/
theorem within_match (hne : ∀ i j, MatchesAt ignoreCase r text i j → i < j)
    (hnest : ∀ i j k l, MatchesAt ignoreCase r text i j → MatchesAt ignoreCase r text k l → i ≤ k → k < j → l ≤ j)
    {fuel : ℕ} (hfuel : text.length < i + fuel) {k l : ℕ} (hk : i ≤ k) (hmatch : MatchesAt ignoreCase r text k l) :
    ∃ m ∈ (r.compile ignoreCase).matchesFrom text fuel i, m.start ≤ k ∧ l ≤ m.stop := by
  induction fuel generalizing i with
  | zero =>
    have hlen : k ≤ text.length := hmatch.choose
    omega
  | succ fuel ih =>
    unfold RegExp.matchesFrom
    split
    · rename_i hnone
      exact absurd hmatch (exec_eq_none hnone hk)
    · rename_i m hm
      obtain ⟨hfound, hfirst⟩ := exec_eq_some (j := l) hm
      have hstart : m.start ≤ k := by
        by_contra hlt
        exact hfirst k hk (by omega) hmatch
      have hpos := hne _ _ hfound
      have hfrom := (r.compile ignoreCase).from_le text i m hm
      by_cases hinside : k < m.stop
      · exact ⟨m, List.mem_cons_self, hstart, hnest _ _ _ _ hfound hmatch hstart hinside⟩
      · rw [if_neg (by omega)]
        obtain ⟨m', hm', hwithin⟩ := ih (i := m.stop) (by omega) (by omega)
        exact ⟨m', List.mem_cons_of_mem m hm', hwithin⟩

end Ends

end Re

end AstramemLocal.Core
