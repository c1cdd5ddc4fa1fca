/-
`salvageTruncatedAtoms` of `src/distill/stages/parse-salvage.ts`. The loop behind the anchor collects the texts of the
objects that are closed at the depth of the array. A JSON value is `Balanced` for it: walked through at depth one or more,
whole or cut off anywhere, it closes no object of the array. So of a serialization of `{"atoms": […]}` that is cut off
anywhere the atoms in front of the cut come back, and nothing else (`salvage_complete`), where the key is spelled out.
-/
import AstramemLocal.Distill.DetectDuplicateKey

namespace AstramemLocal.Distill.ParseSalvage

open AstramemLocal.Core
open JsonText

/-! ## The scanner -/

/-- the match of `/"atoms"\s*:\s*\[/` at the head of the text: what stands behind it -/
def atomsKeyAt (text : JsString) : Option JsString :=
  if quoteMark :: JsString.ofString "atoms" ++ [quoteMark] <+: text then
    match (text.drop 7).dropWhile JsString.isSpace with
    | [] => none
    | u :: rest =>
      if u = colonMark then
        match rest.dropWhile JsString.isSpace with
        | [] => none
        | v :: behind => if v = openBracket then some behind else none
      else none
  else none

/-- what stands behind the first match -/
def atomsKeyMatch : JsString → Option JsString
  | [] => none
  | u :: text => (atomsKeyAt (u :: text)).or (atomsKeyMatch text)

/-- `obj`: the text from `objStart` on -/
structure Walk where
  depth : ℤ
  inString : Bool
  obj : Option JsString
  objTexts : List JsString

def Walk.pass (s : Walk) (u : ℕ) : Walk := { s with obj := s.obj.map (· ++ [u]) }

/-- the loop, to the end of the text or of the array -/
def walk (s : Walk) : JsString → Walk
  | [] => s
  | u :: text =>
    if s.inString then
      if u = backslash then
        match text with
        | [] => s.pass u
        | v :: text => walk ((s.pass u).pass v) text
      else if u = quoteMark then walk { s.pass u with inString := false } text
      else walk (s.pass u) text
    else if u = quoteMark then walk { s.pass u with inString := true } text
    else if u = openBrace then
      walk { s with depth := s.depth + 1, obj := if s.depth = 0 then some [u] else (s.pass u).obj } text
    else if u = closeBrace then
      match s.obj with
      | some obj =>
        if s.depth - 1 = 0 then
          walk { s with depth := s.depth - 1, obj := none, objTexts := s.objTexts ++ [obj ++ [u]] } text
        else walk { s.pass u with depth := s.depth - 1 } text
      | none => walk { s with depth := s.depth - 1 } text
    else if u = closeBracket ∧ s.depth = 0 then s
    else walk (s.pass u) text
termination_by structural text => text

structure SalvageResult (N : Type) where
  atoms : List (JsValue N)
  recoveredCount : ℕ
  lostCount : ℕ

section
variable {N : Type} (number : JsString → N)

/-- one candidate: rejected for a duplicate key, parsed, or given up -/
def salvageOne (r : SalvageResult N) (objText : JsString) : SalvageResult N :=
  if detectDuplicateKey objText ≠ none then { r with lostCount := r.lostCount + 1 }
  else
    match jsonParse number objText with
    | some atom => { r with atoms := r.atoms ++ [atom], recoveredCount := r.recoveredCount + 1 }
    | none => { r with lostCount := r.lostCount + 1 }

def salvageTruncatedAtoms (jsonText : JsString) : Option (SalvageResult N) :=
  match atomsKeyMatch jsonText with
  | none => none
  | some behind =>
    let s := walk ⟨0, false, none, []⟩ behind
    let truncatedTail := s.depth ≠ 0 ∨ s.obj ≠ none ∨ s.inString = true
    if s.objTexts.length = 0 then none
    else
      let r := s.objTexts.foldl (salvageOne number) ⟨[], 0, if truncatedTail then 1 else 0⟩
      if r.recoveredCount = 0 then none else some r

end

/-! ## Inside an object -/

def Walk.passAll (s : Walk) (x : JsString) : Walk := { s with obj := s.obj.map (· ++ x) }

@[simp] theorem passAll_nil (s : Walk) : s.passAll [] = s := by
  obtain ⟨depth, inString, obj, objTexts⟩ := s
  cases obj <;> simp [Walk.passAll]

@[simp] theorem passAll_passAll (s : Walk) (x y : JsString) : (s.passAll x).passAll y = s.passAll (x ++ y) := by
  obtain ⟨depth, inString, obj, objTexts⟩ := s
  cases obj <;> simp [Walk.passAll]

theorem pass_eq (s : Walk) (u : ℕ) : s.pass u = s.passAll [u] := rfl

/-- from a state in `P` the loop passes through `x`, and it closes no object of the array if the text ends before -/
def Through (P : Walk → Prop) (x : JsString) : Prop :=
  ∀ s, P s → (∀ rest, walk s (x ++ rest) = walk (s.passAll x) rest) ∧ ∀ q, q <+: x → (walk s q).objTexts = s.objTexts

def Inside (s : Walk) : Prop := s.inString = false ∧ 1 ≤ s.depth

def InString (s : Walk) : Prop := s.inString = true

theorem inside_passAll (s : Walk) (x : JsString) (h : Inside s) : Inside (s.passAll x) := h

theorem inString_passAll (s : Walk) (x : JsString) (h : InString s) : InString (s.passAll x) := h

theorem through_nil (P : Walk → Prop) : Through P [] := by
  intro s _
  refine ⟨fun rest => by rw [passAll_nil, List.nil_append], fun q hq => ?_⟩
  rw [List.prefix_nil.1 hq]
  rfl

theorem Through.append {P : Walk → Prop} {x y : JsString} (hP : ∀ s x, P s → P (Walk.passAll s x)) (hx : Through P x)
    (hy : Through P y) : Through P (x ++ y) := by
  intro s hs
  have hnext := hy (s.passAll x) (hP s x hs)
  constructor
  · intro rest
    rw [List.append_assoc, (hx s hs).1, hnext.1, passAll_passAll]
  · intro q hq
    rcases List.prefix_or_prefix_of_prefix hq (List.prefix_append x y) with hfront | ⟨rest, rfl⟩
    · exact (hx s hs).2 q hfront
    · rw [(hx s hs).1, hnext.2 rest ((List.prefix_append_right_inj x).1 hq)]
      rfl

theorem Through.inside {x y : JsString} (hx : Through Inside x) (hy : Through Inside y) : Through Inside (x ++ y) :=
  hx.append inside_passAll hy

theorem prefix_singleton {u : ℕ} {q : JsString} (h : q <+: [u]) : q = [] ∨ q = [u] := by
  rcases List.prefix_cons_iff.1 h with hnil | ⟨rest, hq, hrest⟩
  · exact .inl hnil
  · exact .inr (by rw [hq, List.prefix_nil.1 hrest])

/-- one unit that the loop only passes -/
theorem through_unit {P : Walk → Prop} {u : ℕ} (h : ∀ s rest, P s → walk s (u :: rest) = walk (s.pass u) rest) :
    Through P [u] := by
  intro s hs
  refine ⟨fun rest => h s rest hs, fun q hq => ?_⟩
  rcases prefix_singleton hq with rfl | rfl
  · rfl
  · rw [h s [] hs]
    rfl

theorem through_units {P : Walk → Prop} {x : JsString} (hP : ∀ s x, P s → P (Walk.passAll s x))
    (h : ∀ u ∈ x, Through P [u]) : Through P x := by
  induction x with
  | nil => exact through_nil P
  | cons u x ih =>
    exact (h u List.mem_cons_self).append hP (ih fun v hv => h v (List.mem_cons_of_mem u hv))

/-- between an opening and a closing unit -/
theorem through_enclosed {P : Walk → Prop} {u v : ℕ} {x : JsString}
    (hwhole : ∀ s rest, P s → walk s (u :: x ++ [v] ++ rest) = walk (s.passAll (u :: x ++ [v])) rest)
    (hcut : ∀ s q, P s → q <+: x → (walk s (u :: q)).objTexts = s.objTexts) : Through P (u :: x ++ [v]) := by
  intro s hs
  refine ⟨fun rest => hwhole s rest hs, fun q hq => ?_⟩
  rw [List.cons_append] at hq
  rcases List.prefix_cons_iff.1 hq with rfl | ⟨q, rfl, htail⟩
  · rfl
  · rcases List.prefix_concat_iff.1 htail with rfl | hinner
    · have hall := hwhole s [] hs
      rw [List.append_nil, List.cons_append] at hall
      rw [hall]
      rfl
    · exact hcut s q hs hinner

/-! ### Strings -/

theorem inString_unit {u : ℕ} (hquote : u ≠ quoteMark) (hescape : u ≠ backslash) : Through InString [u] := by
  apply through_unit
  intro s rest hs
  rw [walk.eq_def]
  simp [show s.inString = true from hs, hquote, hescape]

theorem inString_escape (v : ℕ) : Through InString [backslash, v] := by
  intro s hs
  have hs : s.inString = true := hs
  constructor
  · intro rest
    rw [List.cons_append, List.singleton_append, walk.eq_def]
    simp [hs, pass_eq]
  · intro q hq
    rcases List.prefix_cons_iff.1 hq with rfl | ⟨q, rfl, htail⟩
    · rfl
    · rcases prefix_singleton htail with rfl | rfl
      · rw [walk.eq_def]
        simp [hs, Walk.pass]
      · rw [walk.eq_def]
        simp [hs, Walk.pass, walk]

theorem inString_spelling (pieces : List Piece) : Through InString (spelling pieces) := by
  induction pieces with
  | nil => exact through_nil _
  | cons piece pieces ih =>
    have hcons : spelling (piece :: pieces) = piece.text ++ spelling pieces := List.flatMap_cons
    rw [hcons]
    refine Through.append inString_passAll ?_ ih
    cases piece with
    | raw u h =>
      simp only [isRaw, Bool.and_eq_true, decide_eq_true_eq] at h
      exact inString_unit h.1.2 h.2
    | escape letter u h => exact inString_escape letter
    | code a b c d u h =>
      have hunits := codeValue_units h
      refine Through.append (x := [backslash, letterU]) (y := [a, b, c, d]) inString_passAll
        (inString_escape letterU) ?_
      exact through_units inString_passAll fun v hv => inString_unit (hunits v hv).1 (hunits v hv).2

/-- a state with the string open -/
def Walk.openString (s : Walk) : Walk := { s.pass quoteMark with inString := true }

theorem walk_open {s : Walk} (hs : s.inString = false) (rest : JsString) :
    walk s (quoteMark :: rest) = walk s.openString rest := by
  rw [walk.eq_def]
  simp [hs, Walk.openString]

theorem walk_shut {s : Walk} (hs : s.inString = true) (rest : JsString) :
    walk s (quoteMark :: rest) = walk { s.pass quoteMark with inString := false } rest := by
  have hne : quoteMark ≠ backslash := by decide
  rw [walk.eq_def]
  simp [hs, hne]

theorem through_quoted (pieces : List Piece) : Through Inside (quoted pieces) := by
  apply through_enclosed
  · intro s rest hs
    have hopen : InString s.openString := rfl
    rw [List.append_assoc, List.cons_append, List.singleton_append, walk_open hs.1, (inString_spelling pieces _ hopen).1,
      walk_shut rfl]
    congr 1
    obtain ⟨depth, inString, obj, objTexts⟩ := s
    obtain ⟨rfl, -⟩ := hs
    cases obj <;> simp [Walk.passAll, Walk.pass, Walk.openString]
  · intro s q hs hq
    have hopen : InString s.openString := rfl
    rw [walk_open hs.1, (inString_spelling pieces _ hopen).2 q hq]
    rfl

/-! ### Values -/

theorem inside_unit {u : ℕ} (h : u ∉ [quoteMark, openBrace, closeBrace]) : Through Inside [u] := by
  simp only [List.mem_cons, List.not_mem_nil, or_false, not_or] at h
  apply through_unit
  intro s rest hs
  have hdepth : s.depth ≠ 0 := by
    have hpos := hs.2
    omega
  rw [walk.eq_def]
  simp [hs.1, h.1, h.2.1, h.2.2, hdepth]

theorem inside_plain {x : JsString} (h : ∀ u ∈ x, isPlain u = true) : Through Inside x := by
  apply through_units inside_passAll
  intro u hu
  apply inside_unit
  have hplain := h u hu
  simp only [isPlain, List.mem_cons, List.not_mem_nil, or_false, not_or, decide_eq_true_eq] at hplain
  simp [hplain.1, hplain.2.1, hplain.2.2.2.1]

theorem walk_deeper {s : Walk} (hs : Inside s) (rest : JsString) :
    walk s (openBrace :: rest) = walk { s.pass openBrace with depth := s.depth + 1 } rest := by
  have hne : openBrace ≠ quoteMark := by decide
  have hdepth : s.depth ≠ 0 := by
    have hpos := hs.2
    omega
  rw [walk.eq_def]
  simp [hs.1, hne, hdepth, Walk.pass]

theorem walk_shallower {s : Walk} (hs : s.inString = false) (hdepth : 2 ≤ s.depth) (rest : JsString) :
    walk s (closeBrace :: rest) = walk { s.pass closeBrace with depth := s.depth - 1 } rest := by
  have hne : closeBrace ≠ quoteMark ∧ closeBrace ≠ openBrace := by decide
  have hout : s.depth - 1 ≠ 0 := by omega
  rw [walk.eq_def]
  cases hobj : s.obj <;> simp [hs, hne, hout, hobj, Walk.pass]

theorem through_braces {x : JsString} (h : Through Inside x) : Through Inside (openBrace :: x ++ [closeBrace]) := by
  have hin : ∀ s, Inside s → Inside { s.pass openBrace with depth := s.depth + 1 } := by
    intro s hs
    refine ⟨hs.1, ?_⟩
    have hpos := hs.2
    simp only
    omega
  apply through_enclosed
  · intro s rest hs
    rw [List.append_assoc, List.cons_append, List.singleton_append, walk_deeper hs, (h _ (hin s hs)).1, walk_shallower]
    · congr 1
      obtain ⟨depth, inString, obj, objTexts⟩ := s
      cases obj <;> simp [Walk.passAll, Walk.pass]
    · exact hs.1
    · have hpos := hs.2
      simp only [Walk.passAll]
      omega
  · intro s q hs hq
    rw [walk_deeper hs, (h _ (hin s hs)).2 q hq]
    rfl

theorem through_join {parts : List JsString} (h : ∀ part ∈ parts, Through Inside part) :
    Through Inside ([comma].intercalate parts) := by
  induction parts with
  | nil => exact through_nil _
  | cons part parts ih =>
    have hpart := h part List.mem_cons_self
    cases parts with
    | nil => simpa using hpart
    | cons next parts =>
      rw [List.intercalate_cons_cons, List.append_assoc]
      have hcomma : Through Inside [comma] := inside_unit (by decide)
      have hrest := ih fun x hx => h x (List.mem_cons_of_mem part hx)
      exact hpart.inside (hcomma.inside hrest)

theorem through_ws (w : Ws) : Through Inside w.1 := inside_plain (plain_ws w)

theorem through_members {members : List (Member Tree)} (h : ∀ m ∈ members, Through Inside (render m.value)) :
    Through Inside ([comma].intercalate (members.map Member.text)) := by
  apply through_join
  intro part hpart
  obtain ⟨m, hm, rfl⟩ := List.mem_map.1 hpart
  have hcolon : Through Inside [colonMark] := inside_unit (by decide)
  have hname := ((through_ws m.pre).inside (through_quoted m.name)).inside (through_ws m.mid)
  have hvalue := ((hcolon.inside (through_ws m.before)).inside (h m hm)).inside (through_ws m.post)
  have hall := hname.inside hvalue
  rw [Member.text]
  simpa using hall

/-- **Values.** The loop passes through a value, whole or cut off. -/
theorem through_render (t : Tree) : Through Inside (render t) := by
  induction t using Tree.ind with
  | null => exact inside_plain (by decide)
  | bool b => exact inside_plain (by cases b <;> decide)
  | number lexeme h => exact inside_plain fun u hu => plain_number (isNumber_units h u hu)
  | string pieces => exact through_quoted pieces
  | array ws items ih =>
    have hjoin : Through Inside ([comma].intercalate (items.map Item.text)) := by
      apply through_join
      intro part hpart
      obtain ⟨item, hitem, rfl⟩ := List.mem_map.1 hpart
      exact ((through_ws item.pre).inside (ih item hitem)).inside (through_ws item.post)
    have hopen : Through Inside [openBracket] := inside_unit (by decide)
    have hclose : Through Inside [closeBracket] := inside_unit (by decide)
    rw [render_array]
    exact ((hopen.inside (through_ws ws)).inside hjoin).inside hclose
  | object ws members ih =>
    rw [render_object, List.cons_append]
    exact through_braces ((through_ws ws).inside (through_members ih))

/-! ## Between the objects -/

/-- between two elements of the array, the texts of the objects so far -/
def between (objTexts : List JsString) : Walk := ⟨0, false, none, objTexts⟩

theorem walk_plain {x : JsString} (h : ∀ u ∈ x, isPlain u = true) (objTexts : List JsString) (rest : JsString) :
    walk (between objTexts) (x ++ rest) = walk (between objTexts) rest := by
  induction x with
  | nil => rfl
  | cons u x ih =>
    have hu := h u List.mem_cons_self
    simp only [isPlain, List.mem_cons, List.not_mem_nil, or_false, not_or, decide_eq_true_eq] at hu
    rw [List.cons_append, walk.eq_def]
    simp only [between, hu, Walk.pass, Option.map_none, if_false, false_and, Bool.false_eq_true]
    exact ih fun v hv => h v (List.mem_cons_of_mem u hv)

/-- a text that is cut off -/
theorem walk_plain_take {x : JsString} (h : ∀ u ∈ x, isPlain u = true) (objTexts : List JsString) (rest : JsString)
    (k : ℕ) : walk (between objTexts) ((x ++ rest).take k) = walk (between objTexts) (rest.take (k - x.length)) := by
  rw [List.take_append]
  exact walk_plain (fun u hu => h u (List.mem_of_mem_take hu)) objTexts _

theorem walk_braces {x : JsString} (h : Through Inside x) (objTexts : List JsString) :
    (∀ rest, walk (between objTexts) (openBrace :: x ++ closeBrace :: rest) =
      walk (between (objTexts ++ [openBrace :: x ++ [closeBrace]])) rest) ∧
    ∀ q, q <+: openBrace :: x → (walk (between objTexts) q).objTexts = objTexts := by
  have hne : openBrace ≠ quoteMark := by decide
  have hopen : ∀ rest, walk (between objTexts) (openBrace :: rest) = walk ⟨1, false, some [openBrace], objTexts⟩ rest := by
    intro rest
    rw [walk.eq_def]
    simp [between, hne]
  have hin : Inside ⟨1, false, some [openBrace], objTexts⟩ := ⟨rfl, Int.le_refl 1⟩
  constructor
  · intro rest
    have hclose : closeBrace ≠ quoteMark ∧ closeBrace ≠ openBrace := by decide
    rw [List.cons_append, hopen, (h _ hin).1, walk.eq_def]
    simp [Walk.passAll, hclose, between]
  · intro q hq
    rcases List.prefix_cons_iff.1 hq with rfl | ⟨q, rfl, htail⟩
    · rfl
    · rw [hopen, (h _ hin).2 q htail]

/-! ## Atoms -/

/-- an object that repeats no name -/
def IsAtom (t : Tree) : Prop := (∃ ws members, t = .object ws members) ∧ ¬ RepeatsName decode t

/-- an atom, whole, is one more text; cut off, none -/
theorem walk_atom {t : Tree} (h : IsAtom t) (objTexts : List JsString) :
    (∀ rest, walk (between objTexts) (render t ++ rest) = walk (between (objTexts ++ [render t])) rest) ∧
    ∀ k, k < (render t).length → (walk (between objTexts) ((render t).take k)).objTexts = objTexts := by
  obtain ⟨⟨ws, members, rfl⟩, -⟩ := h
  have hinner : Through Inside (ws.1 ++ [comma].intercalate (members.map Member.text)) :=
    (through_ws ws).inside (through_members fun m _ => through_render m.value)
  obtain ⟨hwhole, hcut⟩ := walk_braces hinner objTexts
  constructor
  · intro rest
    rw [render_object, List.append_assoc, List.singleton_append, List.cons_append]
    exact hwhole rest
  · intro k hk
    rw [render_object, List.cons_append] at hk ⊢
    apply hcut
    rw [List.take_append_of_le_length (by simp at hk ⊢; omega)]
    exact List.take_prefix k _

/-- the atoms of an array, each with the offset at which its text ends -/
def ends (start : ℕ) : List (Item Tree) → List (ℕ × Tree)
  | [] => []
  | item :: items =>
    let stop := start + item.pre.1.length + (render item.value).length
    (stop, item.value) :: ends (stop + item.post.1.length + 1) items

theorem ends_cons (start : ℕ) (item : Item Tree) (items : List (Item Tree)) :
    ends start (item :: items) = (start + item.pre.1.length + (render item.value).length, item.value) ::
      ends (start + item.pre.1.length + (render item.value).length + item.post.1.length + 1) items := rfl

theorem render_pos (t : Tree) : 0 < (render t).length := by
  obtain ⟨u, text, htext, -⟩ := render_cons t
  simp [htext]

/-- at its offset the text of an atom ends -/
theorem ends_suffix {items : List (Item Tree)} (before tail : JsString) : ∀ e ∈ ends before.length items,
    render e.2 <:+ (before ++ ([comma].intercalate (items.map Item.text) ++ tail)).take e.1 := by
  induction items generalizing before with
  | nil => simp [ends]
  | cons item items ih =>
    obtain ⟨behind, hbehind⟩ : ∃ behind, [comma].intercalate ((item :: items).map Item.text) ++ tail =
        item.pre.1 ++ (render item.value ++ behind) := by
      cases items with
      | nil => exact ⟨item.post.1 ++ tail, by simp [Item.text]⟩
      | cons next items =>
        refine ⟨item.post.1 ++ comma :: ([comma].intercalate ((next :: items).map Item.text) ++ tail), ?_⟩
        rw [join_cons]
        simp [Item.text]
    intro e he
    rw [ends_cons] at he
    rcases List.mem_cons.1 he with rfl | he
    · have htake : (before ++ (item.pre.1 ++ (render item.value ++ behind))).take
          (before.length + item.pre.1.length + (render item.value).length) = before ++ item.pre.1 ++ render item.value := by
        rw [← List.append_assoc, ← List.append_assoc, ← List.length_append, ← List.length_append, List.take_left]
      rw [hbehind, htake]
      exact List.suffix_append _ _
    · cases items with
      | nil => cases he
      | cons next items =>
        have hlength : (before ++ (item.text ++ [comma])).length =
            before.length + item.pre.1.length + (render item.value).length + item.post.1.length + 1 := by
          simp only [Item.text, List.length_append, List.length_singleton]
          omega
        have hrest := ih (before ++ (item.text ++ [comma]))
        rw [hlength] at hrest
        have htext : before ++ ([comma].intercalate ((item :: next :: items).map Item.text) ++ tail) =
            before ++ (item.text ++ [comma]) ++ ([comma].intercalate ((next :: items).map Item.text) ++ tail) := by
          rw [join_cons]
          simp
        rw [htext]
        exact hrest e he

theorem lt_ends {start : ℕ} {items : List (Item Tree)} : ∀ e ∈ ends start items, start < e.1 := by
  induction items generalizing start with
  | nil => simp [ends]
  | cons item items ih =>
    intro e he
    have hpos := render_pos item.value
    rcases List.mem_cons.1 he with rfl | he
    · simp only
      omega
    · have hlt := ih e he
      omega

/-- what ends at `k` or before -/
def upTo (k : ℕ) (atoms : List (ℕ × Tree)) : List Tree := (atoms.filter fun e => e.1 ≤ k).map Prod.snd

theorem upTo_of_lt {k start : ℕ} {items : List (Item Tree)} (h : k ≤ start) : upTo k (ends start items) = [] := by
  unfold upTo
  rw [List.map_eq_nil_iff, List.filter_eq_nil_iff]
  intro e he
  have hlt := lt_ends e he
  simp only [decide_eq_true_eq]
  omega

theorem upTo_cons (k stop : ℕ) (t : Tree) (atoms : List (ℕ × Tree)) :
    upTo k ((stop, t) :: atoms) = if stop ≤ k then t :: upTo k atoms else upTo k atoms := by
  unfold upTo
  split_ifs with h
  · rw [List.filter_cons_of_pos (by simpa using h), List.map_cons]
  · rw [List.filter_cons_of_neg (by simpa using h)]

/-- **The array.** Behind the bracket, cut off anywhere, the loop collects the atoms in front of the cut. -/
theorem walk_items {items : List (Item Tree)} (h : ∀ item ∈ items, IsAtom item.value) (tail : JsString) (start k : ℕ)
    (objTexts : List JsString) :
    (walk (between objTexts) (([comma].intercalate (items.map Item.text) ++ closeBracket :: tail).take k)).objTexts =
      objTexts ++ (upTo (start + k) (ends start items)).map render := by
  have hclose : ∀ (objTexts : List JsString) (k : ℕ),
      (walk (between objTexts) ((closeBracket :: tail).take k)).objTexts = objTexts := by
    intro objTexts k
    cases k with
    | zero => rfl
    | succ k =>
      rw [List.take_succ_cons, walk.eq_def]
      simp [between, closeBracket, quoteMark, openBrace, closeBrace]
  induction items generalizing start k objTexts with
  | nil => simpa [upTo, ends] using hclose objTexts k
  | cons item items ih =>
    have hatom := walk_atom (h item List.mem_cons_self)
    have ih := ih fun x hx => h x (List.mem_cons_of_mem item hx)
    -- an element, and what stands behind it
    have hsplit : ∀ behind : JsString,
        (∀ k objTexts, (walk (between objTexts) (behind.take k)).objTexts =
          objTexts ++ (upTo (start + item.pre.1.length + (render item.value).length + item.post.1.length + k)
            (ends (start + item.pre.1.length + (render item.value).length + item.post.1.length + 1) items)).map render) →
        (walk (between objTexts) ((item.text ++ behind).take k)).objTexts =
          objTexts ++ (upTo (start + k) (ends start (item :: items))).map render := by
      intro behind hbehind
      rw [Item.text, List.append_assoc, List.append_assoc, walk_plain_take (plain_ws item.pre)]
      by_cases hcut : k - item.pre.1.length < (render item.value).length
      · have hshort : ¬ start + item.pre.1.length + (render item.value).length ≤ start + k := by omega
        have hrest : start + k ≤ start + item.pre.1.length + (render item.value).length + item.post.1.length + 1 := by omega
        rw [List.take_append_of_le_length hcut.le, (hatom objTexts).2 _ hcut, ends_cons, upTo_cons, if_neg hshort,
          upTo_of_lt hrest, List.map_nil, List.append_nil]
      · have hpos := render_pos item.value
        rw [List.take_append, List.take_of_length_le (by omega), (hatom objTexts).1, walk_plain_take (plain_ws item.post),
          hbehind, ends_cons, upTo_cons, if_pos (by omega), List.map_cons, List.append_assoc, List.singleton_append]
        by_cases hpost : k ≤ item.pre.1.length + (render item.value).length + item.post.1.length
        · rw [upTo_of_lt (by omega), upTo_of_lt (by omega)]
        · have hk : start + item.pre.1.length + (render item.value).length + item.post.1.length +
              (k - item.pre.1.length - (render item.value).length - item.post.1.length) = start + k := by omega
          rw [hk]
    cases items with
    | nil =>
      rw [List.map_cons, List.map_nil, List.intercalate_singleton]
      apply hsplit
      intro k objTexts
      rw [hclose]
      simp [upTo, ends]
    | cons next items =>
      rw [join_cons, List.append_assoc, List.cons_append]
      apply hsplit
      intro k objTexts
      cases k with
      | zero =>
        rw [upTo_of_lt (by omega)]
        simp [walk, between]
      | succ k =>
        have hplain : ∀ u ∈ [comma], isPlain u = true := by decide
        have hcomma : ∀ text : JsString, walk (between objTexts) (comma :: text) = walk (between objTexts) text :=
          fun text => walk_plain hplain objTexts text
        rw [List.take_succ_cons, hcomma, ih]
        congr 3
        omega

/-! ## The anchor -/

theorem atomsKeyAt_none {u : ℕ} (h : u ≠ quoteMark) (text : JsString) : atomsKeyAt (u :: text) = none := by
  apply if_neg
  intro hprefix
  exact h (List.cons_prefix_cons.1 hprefix).1.symm

theorem keyMatch_skip {x : JsString} (h : ∀ u ∈ x, u ≠ quoteMark) (text : JsString) :
    atomsKeyMatch (x ++ text) = atomsKeyMatch text := by
  induction x with
  | nil => rfl
  | cons u x ih =>
    rw [List.cons_append, atomsKeyMatch, atomsKeyAt_none (h u List.mem_cons_self), Option.none_or]
    exact ih fun v hv => h v (List.mem_cons_of_mem u hv)

theorem keyMatch_anchor (mid before : Ws) (behind : JsString) :
    atomsKeyMatch (quoteMark :: JsString.ofString "atoms" ++ [quoteMark] ++
      (mid.1 ++ colonMark :: (before.1 ++ openBracket :: behind))) = some behind := by
  have hat : atomsKeyAt (quoteMark :: JsString.ofString "atoms" ++ [quoteMark] ++
      (mid.1 ++ colonMark :: (before.1 ++ openBracket :: behind))) = some behind := by
    have hdrop : (quoteMark :: JsString.ofString "atoms" ++ [quoteMark] ++
        (mid.1 ++ colonMark :: (before.1 ++ openBracket :: behind))).drop 7 =
          mid.1 ++ colonMark :: (before.1 ++ openBracket :: behind) := rfl
    rw [atomsKeyAt, if_pos (List.prefix_append _ _), hdrop, dropWhile_ws mid _ (by decide)]
    simp only [if_true]
    rw [dropWhile_ws before _ (by decide)]
    simp only [if_true]
  rw [List.cons_append, List.cons_append] at hat ⊢
  rw [atomsKeyMatch, hat, Option.some_or]

theorem atomsKeyAt_bracket {text : JsString} (h : atomsKeyAt text ≠ none) : openBracket ∈ text := by
  unfold atomsKeyAt at h
  split_ifs at h with hkey
  · cases hcolon : (text.drop 7).dropWhile JsString.isSpace with
    | nil => simp [hcolon] at h
    | cons u rest =>
      rw [hcolon] at h
      simp only at h
      split_ifs at h with hu
      · cases hopen : rest.dropWhile JsString.isSpace with
        | nil => simp [hopen] at h
        | cons v behind =>
          rw [hopen] at h
          simp only at h
          split_ifs at h with hv
          · have hrest : v ∈ rest := (List.dropWhile_sublist _).subset (hopen ▸ List.mem_cons_self)
            have htext : v ∈ text.drop 7 :=
              (List.dropWhile_sublist _).subset (hcolon ▸ List.mem_cons_of_mem u hrest)
            exact hv ▸ List.mem_of_mem_drop htext
          · exact absurd rfl h
      · exact absurd rfl h
  · exact absurd rfl h

theorem keyMatch_none {text : JsString} (h : openBracket ∉ text) : atomsKeyMatch text = none := by
  induction text with
  | nil => rfl
  | cons u text ih =>
    have hat : atomsKeyAt (u :: text) = none := by
      by_contra hsome
      exact h (atomsKeyAt_bracket hsome)
    rw [atomsKeyMatch, hat, Option.none_or]
    exact ih fun hmem => h (List.mem_cons_of_mem u hmem)

/-! ## The answer -/

/-- a serialization of `{"atoms": […]}`, its key in any spelling -/
structure Answer where
  lead : Ws
  ws : Ws
  pre : Ws
  name : List Piece
  named : decode name = JsString.ofString "atoms"
  mid : Ws
  before : Ws
  inner : Ws
  items : List (Item Tree)
  post : Ws
  trail : Ws

namespace Answer

def tree (a : Answer) : Tree := .object a.ws [⟨a.pre, a.name, a.mid, a.before, .array a.inner a.items, a.post⟩]

def text (a : Answer) : JsString := a.lead.1 ++ render a.tree ++ a.trail.1

/-- the text up to the bracket -/
def front (a : Answer) : JsString :=
  a.lead.1 ++ openBrace :: (a.ws.1 ++ a.pre.1) ++ (quoted a.name ++ (a.mid.1 ++ colonMark :: a.before.1))

/-- the offset of the first element -/
def start (a : Answer) : ℕ := a.front.length + 1 + a.inner.1.length

/-- the atoms whose text ends at `k` or before -/
def complete (a : Answer) (k : ℕ) : List Tree := upTo k (ends a.start a.items)

end Answer

section
variable {N : Type} {number : JsString → N}

/-- the value the text denotes -/
theorem Answer.parse (a : Answer) : jsonParse number a.text =
    some (.obj true [(JsString.ofString "atoms", .arr (a.items.map fun item => value number item.value))]) := by
  have hordered : JsValue.Ordered
      [(JsString.ofString "atoms", JsValue.arr (a.items.map fun item => value number item.value))] :=
    List.pairwise_singleton _ _
  rw [Answer.text, jsonParse_render, Answer.tree, value, valueMembers_eq, List.map_cons, List.map_nil, a.named, value,
    valueItems_eq, JsValue.putAll_of_ordered hordered]

theorem Answer.text_eq (a : Answer) : ∃ tail, a.text = a.front ++ openBracket ::
    (a.inner.1 ++ ([comma].intercalate (a.items.map Item.text) ++ closeBracket :: tail)) := by
  refine ⟨a.post.1 ++ closeBrace :: a.trail.1, ?_⟩
  rw [Answer.text, Answer.tree, render_object, List.map_cons, List.map_nil, List.intercalate_singleton, Member.text,
    render_array, Answer.front]
  simp

/-- an atom is complete when the text up to its offset is there -/
theorem Answer.ends_text (a : Answer) : ∀ e ∈ ends a.start a.items, render e.2 <:+ a.text.take e.1 := by
  obtain ⟨tail, htext⟩ := a.text_eq
  have hsplit : a.text = a.front ++ openBracket :: a.inner.1 ++
      ([comma].intercalate (a.items.map Item.text) ++ closeBracket :: tail) := by
    rw [htext]
    simp
  have hlength : (a.front ++ openBracket :: a.inner.1).length = a.start := by
    simp only [Answer.start, List.length_append, List.length_cons]
    omega
  rw [hsplit, ← hlength]
  exact ends_suffix _ _

theorem ws_ne (w : Ws) {u : ℕ} (h : isWs u = false) : u ∉ w.1 := by
  intro hu
  rw [w.2 u hu] at h
  cases h

theorem front_bracket {a : Answer} (hkey : spelling a.name = JsString.ofString "atoms") : openBracket ∉ a.front := by
  have hspace : ∀ w : Ws, openBracket ∉ w.1 := fun w => ws_ne w (by decide)
  have hword : openBracket ∉ quoted a.name := by
    rw [quoted, hkey]
    decide
  have hunits : openBracket ≠ openBrace ∧ openBracket ≠ colonMark := by decide
  simp [Answer.front, hspace, hword, hunits]

theorem keyMatch_answer {a : Answer} (hkey : spelling a.name = JsString.ofString "atoms") (behind : JsString) :
    atomsKeyMatch (a.front ++ openBracket :: behind) = some behind := by
  have hskip : ∀ u ∈ a.lead.1 ++ openBrace :: (a.ws.1 ++ a.pre.1), u ≠ quoteMark := by
    rintro u hu rfl
    have hspace : ∀ w : Ws, quoteMark ∉ w.1 := fun w => ws_ne w (by decide)
    have hne : quoteMark ≠ openBrace := by decide
    simp [hspace, hne] at hu
  have hsplit : a.mid.1 ++ colonMark :: a.before.1 ++ openBracket :: behind =
      a.mid.1 ++ colonMark :: (a.before.1 ++ openBracket :: behind) := by simp
  rw [Answer.front, List.append_assoc, keyMatch_skip hskip, quoted, hkey, List.append_assoc, hsplit]
  exact keyMatch_anchor a.mid a.before behind

theorem salvageOne_atom {t : Tree} (h : IsAtom t) (r : SalvageResult N) : salvageOne number r (render t) =
    { r with atoms := r.atoms ++ [value number t], recoveredCount := r.recoveredCount + 1 } := by
  have hrender : noWs.1 ++ render t ++ noWs.1 = render t := List.append_nil _
  have hdetect : detectDuplicateKey (render t) = none := by
    by_contra hsome
    rw [← hrender] at hsome
    exact h.2 ((detect_iff noWs noWs t).1 hsome).decode
  have hparse : jsonParse number (render t) = some (value number t) := by
    rw [← hrender]
    exact jsonParse_render noWs noWs t
  rw [salvageOne, hdetect, hparse]
  simp

theorem salvage_atoms {atoms : List Tree} (h : ∀ t ∈ atoms, IsAtom t) (r : SalvageResult N) :
    (atoms.map render).foldl (salvageOne number) r =
      { r with atoms := r.atoms ++ atoms.map (value number), recoveredCount := r.recoveredCount + atoms.length } := by
  induction atoms generalizing r with
  | nil => simp
  | cons t atoms ih =>
    rw [List.map_cons, List.foldl_cons, salvageOne_atom (h t List.mem_cons_self),
      ih fun x hx => h x (List.mem_cons_of_mem t hx)]
    simp only [List.map_cons, List.append_assoc, List.singleton_append, List.length_cons]
    congr 1
    omega

theorem mem_complete {a : Answer} {k : ℕ} {t : Tree} (h : t ∈ a.complete k) : ∃ item ∈ a.items, t = item.value := by
  have hends : ∀ (start : ℕ) (items : List (Item Tree)), ∀ e ∈ ends start items, ∃ item ∈ items, e.2 = item.value := by
    intro start items
    induction items generalizing start with
    | nil => simp [ends]
    | cons item items ih =>
      intro e he
      rcases List.mem_cons.1 he with rfl | he
      · exact ⟨item, List.mem_cons_self, rfl⟩
      · obtain ⟨x, hx, hvalue⟩ := ih _ e he
        exact ⟨x, List.mem_cons_of_mem item hx, hvalue⟩
  obtain ⟨e, he, rfl⟩ := List.mem_map.1 h
  exact hends _ _ e (List.mem_of_mem_filter he)

/-- behind the anchor, cut off anywhere, the texts of the complete atoms are found -/
theorem walk_answer {a : Answer} (h : ∀ item ∈ a.items, IsAtom item.value) (tail : JsString) (k : ℕ) :
    (walk (between []) ((a.inner.1 ++ ([comma].intercalate (a.items.map Item.text) ++ closeBracket :: tail)).take
      (k - (a.front.length + 1)))).objTexts = (a.complete k).map render := by
  rw [walk_plain_take (plain_ws a.inner), walk_items h tail a.start, List.nil_append, Answer.complete]
  by_cases hinner : k ≤ a.start
  · have hnone : k - (a.front.length + 1) - a.inner.1.length = 0 := by
      unfold Answer.start at hinner
      omega
    rw [hnone, upTo_of_lt hinner, Nat.add_zero, upTo_of_lt (Nat.le_refl _)]
  · have hstart : a.start + (k - (a.front.length + 1) - a.inner.1.length) = k := by
      unfold Answer.start at hinner ⊢
      omega
    rw [hstart]

/-- **Salvage.** Of an answer that is cut off anywhere, its key spelled out, the atoms in front of the cut come back, in
order, and nothing else. -/
theorem salvage_complete (a : Answer) (hkey : spelling a.name = JsString.ofString "atoms")
    (h : ∀ item ∈ a.items, IsAtom item.value) (k : ℕ) :
    (salvageTruncatedAtoms number (a.text.take k)).map SalvageResult.atoms =
      if a.complete k = [] then none else some ((a.complete k).map (value number)) := by
  obtain ⟨tail, htext⟩ := a.text_eq
  by_cases hk : k ≤ a.front.length
  · -- the anchor itself is cut off
    have hbracket : openBracket ∉ a.text.take k := by
      rw [htext, List.take_append_of_le_length hk]
      exact fun hmem => front_bracket hkey (List.mem_of_mem_take hmem)
    have hnone : a.complete k = [] := upTo_of_lt (by unfold Answer.start; omega)
    rw [salvageTruncatedAtoms, keyMatch_none hbracket, if_pos hnone]
    rfl
  · have hcut : ∀ behind : JsString, (a.front ++ openBracket :: behind).take k =
        a.front ++ openBracket :: behind.take (k - (a.front.length + 1)) := by
      intro behind
      obtain ⟨d, rfl⟩ := Nat.exists_eq_add_of_lt (Nat.not_le.1 hk)
      have hd : a.front.length + d + 1 - (a.front.length + 1) = d := by omega
      rw [hd, Nat.add_assoc, List.take_length_add_append, List.take_succ_cons]
    have hatoms : ∀ t ∈ a.complete k, IsAtom t := by
      intro t ht
      obtain ⟨item, hitem, rfl⟩ := mem_complete ht
      exact h item hitem
    have hwalk := walk_answer h tail k
    unfold between at hwalk
    rw [htext, hcut, salvageTruncatedAtoms, keyMatch_answer hkey]
    simp only
    rw [hwalk, List.length_map, salvage_atoms hatoms]
    by_cases hnone : a.complete k = []
    · simp [hnone]
    · have hlength : (a.complete k).length ≠ 0 := by simpa using hnone
      simp [hnone]

/-- `{"atoms":[{},{"a":"}\""}]}` -/
def twoAtoms : Answer where
  lead := noWs
  ws := noWs
  pre := noWs
  name := [rawA, .raw 0x74 rfl, .raw 0x6f rfl, .raw 0x6d rfl, .raw 0x73 rfl]
  named := rfl
  mid := noWs
  before := noWs
  inner := noWs
  items := [⟨noWs, .object noWs [], noWs⟩,
    ⟨noWs, .object noWs [⟨noWs, [rawA], noWs, noWs,
      .string [.raw closeBrace rfl, .escape quoteMark quoteMark rfl], noWs⟩], noWs⟩]
  post := noWs
  trail := noWs

theorem isAtom_of_nodup {ws : Ws} {members : List (Member Tree)}
    (h : ∀ names ∈ objects (.object ws members), (names.map decode).Nodup) : IsAtom (.object ws members) := by
  refine ⟨⟨ws, members, rfl⟩, ?_⟩
  rintro ⟨names, hnames, hdup⟩
  exact hdup (h names hnames)

/-- cut off behind the escaped quote, inside the second atom -/
theorem first_of_two : (salvageTruncatedAtoms (fun lexeme => lexeme) (twoAtoms.text.take 22)).map SalvageResult.atoms =
    some [.obj true []] := by
  have hatoms : ∀ item ∈ twoAtoms.items, IsAtom item.value := by
    intro item hitem
    rcases List.mem_pair.1 hitem with rfl | rfl
    · exact isAtom_of_nodup (by decide)
    · exact isAtom_of_nodup (by decide)
  exact (salvage_complete twoAtoms rfl hatoms 22).trans rfl

/-- `{"\u0061toms":[{"atoms":[{}]}]}` -/
def escapedKey : Answer where
  lead := noWs
  ws := noWs
  pre := noWs
  name := [escapedA, .raw 0x74 rfl, .raw 0x6f rfl, .raw 0x6d rfl, .raw 0x73 rfl]
  named := rfl
  mid := noWs
  before := noWs
  inner := noWs
  items := [⟨noWs, .object noWs [⟨noWs, twoAtoms.name, noWs, noWs,
    .array noWs [⟨noWs, .object noWs [], noWs⟩], noWs⟩], noWs⟩]
  post := noWs
  trail := noWs

/-- the anchor is found inside the atom, and what comes back is no atom of the list -/
theorem inner_object_recovered : (∀ item ∈ escapedKey.items, IsAtom item.value) ∧
    (escapedKey.complete escapedKey.text.length).map (value fun lexeme => lexeme) =
      [.obj true [(JsString.ofString "atoms", .arr [.obj true []])]] ∧
    (salvageTruncatedAtoms (fun lexeme => lexeme) escapedKey.text).map SalvageResult.atoms = some [.obj true []] := by
  refine ⟨?_, rfl, rfl⟩
  intro item hitem
  rw [List.mem_singleton.1 hitem]
  exact isAtom_of_nodup (by decide)

end

end AstramemLocal.Distill.ParseSalvage
