/-
The text of JSON in UTF-16. A `Tree` is a text as the grammar derives it: white space, the spelling of every string and
number, the order of the members. `render` is the text, `value` what it denotes, and `jsonParse` is JSON.parse. The parser
takes every text of the grammar to its value (`jsonParse_render`). How numbers are rounded is a parameter.
-/
import AstramemLocal.Core.JsValue

namespace AstramemLocal.Core.JsonText

open JsValue (putAll)

/-! ## Units -/

def quoteMark : ℕ := 0x22
def backslash : ℕ := 0x5c
def openBrace : ℕ := 0x7b
def closeBrace : ℕ := 0x7d
def openBracket : ℕ := 0x5b
def closeBracket : ℕ := 0x5d
def comma : ℕ := 0x2c
def colonMark : ℕ := 0x3a
def letterU : ℕ := 0x75

def isWs (u : ℕ) : Bool := u ∈ [0x20, 0x9, 0xa, 0xd]

def isDigit (u : ℕ) : Bool := 0x30 ≤ u && u ≤ 0x39

def hexValue (u : ℕ) : Option ℕ :=
  if 0x30 ≤ u ∧ u ≤ 0x39 then some (u - 0x30)
  else if 0x41 ≤ u ∧ u ≤ 0x46 then some (u - 55)
  else if 0x61 ≤ u ∧ u ≤ 0x66 then some (u - 87)
  else none

/-- what an escaped letter stands for -/
def escapeValue (letter : ℕ) : Option ℕ :=
  ([(0x22, 0x22), (0x5c, 0x5c), (0x2f, 0x2f), (0x62, 0x8), (0x66, 0xc), (0x6e, 0xa), (0x72, 0xd), (0x74, 0x9)].find?
    fun e => e.1 = letter).map Prod.snd

/-- the unit four hexadecimal digits denote -/
def codeValue (a b c d : ℕ) : Option ℕ := do
  let a ← hexValue a
  let b ← hexValue b
  let c ← hexValue c
  let d ← hexValue d
  return ((a * 16 + b) * 16 + c) * 16 + d

/-- a unit that stands for itself in a string -/
def isRaw (u : ℕ) : Bool := 0x20 ≤ u && u ≠ quoteMark && u ≠ backslash

/-! ## Numbers -/

def isNumberUnit (u : ℕ) : Bool := isDigit u || u ∈ [0x2b, 0x2d, 0x2e, 0x45, 0x65]

/-- `\d+` to the end -/
def allDigits (s : JsString) : Bool := s ≠ [] && s.all isDigit

/-- `([eE][+-]?\d+)?` to the end -/
def isExponent : JsString → Bool
  | [] => true
  | u :: s => (u = 0x65 || u = 0x45) && allDigits (if s.head? = some 0x2b ∨ s.head? = some 0x2d then s.tail else s)

/-- `(\.\d+)?([eE][+-]?\d+)?` to the end -/
def isFraction (s : JsString) : Bool :=
  if s.head? = some 0x2e then s.tail.takeWhile isDigit ≠ [] && isExponent (s.tail.dropWhile isDigit) else isExponent s

/-- `-?(0|[1-9]\d*)(\.\d+)?([eE][+-]?\d+)?` to the end -/
def isNumber (s : JsString) : Bool :=
  let digits := if s.head? = some 0x2d then s.tail else s
  let whole := digits.takeWhile isDigit
  s.all isNumberUnit && (whole = [0x30] || (whole ≠ [] && whole.head? ≠ some 0x30)) &&
    isFraction (digits.dropWhile isDigit)

/-! ## Trees -/

abbrev Ws := { w : JsString // ∀ u ∈ w, isWs u = true }

def noWs : Ws := ⟨[], fun _ hu => absurd hu List.not_mem_nil⟩

/-- a unit of a string, as it is spelled -/
inductive Piece where
  | raw (u : ℕ) (h : isRaw u = true)
  | escape (letter u : ℕ) (h : escapeValue letter = some u)
  | code (a b c d u : ℕ) (h : codeValue a b c d = some u)

structure Item (α : Type) where
  pre : Ws
  value : α
  post : Ws

structure Member (α : Type) where
  pre : Ws
  name : List Piece
  mid : Ws
  before : Ws
  value : α
  post : Ws

inductive Tree where
  | null
  | bool (b : Bool)
  | number (lexeme : JsString) (h : isNumber lexeme = true)
  | string (pieces : List Piece)
  | array (ws : Ws) (items : List (Item Tree))
  | object (ws : Ws) (members : List (Member Tree))

@[elab_as_elim]
theorem Tree.ind {motive : Tree → Prop} (null : motive .null) (bool : ∀ b, motive (.bool b))
    (number : ∀ lexeme h, motive (.number lexeme h)) (string : ∀ pieces, motive (.string pieces))
    (array : ∀ ws items, (∀ item ∈ items, motive item.value) → motive (.array ws items))
    (object : ∀ ws members, (∀ m ∈ members, motive m.value) → motive (.object ws members)) (t : Tree) : motive t := by
  refine @Tree.rec motive (fun items => ∀ item ∈ items, motive item.value)
    (fun members => ∀ m ∈ members, motive m.value) (fun item => motive item.value) (fun m => motive m.value)
    null bool number string array object ?_ ?_ ?_ ?_ ?_ ?_ t
  · simp
  · intro item items hitem hitems x hx
    rcases List.mem_cons.1 hx with rfl | hx
    · exact hitem
    · exact hitems x hx
  · simp
  · intro m members hm hmembers x hx
    rcases List.mem_cons.1 hx with rfl | hx
    · exact hm
    · exact hmembers x hx
  · intro pre value post hvalue
    exact hvalue
  · intro pre name mid before value post hvalue
    exact hvalue

def Piece.text : Piece → JsString
  | .raw u _ => [u]
  | .escape letter _ _ => [backslash, letter]
  | .code a b c d _ _ => [backslash, letterU, a, b, c, d]

def Piece.unit : Piece → ℕ
  | .raw u _ | .escape _ u _ | .code _ _ _ _ u _ => u

/-- a string as it is spelled, and as it is read -/
def spelling (pieces : List Piece) : JsString := pieces.flatMap Piece.text

def decode (pieces : List Piece) : JsString := pieces.map Piece.unit

def quoted (pieces : List Piece) : JsString := quoteMark :: spelling pieces ++ [quoteMark]

def trueText : JsString := [0x74, 0x72, 0x75, 0x65]
def falseText : JsString := [0x66, 0x61, 0x6c, 0x73, 0x65]
def nullText : JsString := [0x6e, 0x75, 0x6c, 0x6c]

mutual
def render : Tree → JsString
  | .null => nullText
  | .bool b => if b then trueText else falseText
  | .number lexeme _ => lexeme
  | .string pieces => quoted pieces
  | .array ws items => openBracket :: ws.1 ++ [comma].intercalate (renderItems items) ++ [closeBracket]
  | .object ws members => openBrace :: ws.1 ++ [comma].intercalate (renderMembers members) ++ [closeBrace]
def renderItems : List (Item Tree) → List JsString
  | [] => []
  | ⟨pre, value, post⟩ :: items => (pre.1 ++ render value ++ post.1) :: renderItems items
def renderMembers : List (Member Tree) → List JsString
  | [] => []
  | ⟨pre, name, mid, before, value, post⟩ :: members =>
    (pre.1 ++ quoted name ++ mid.1 ++ colonMark :: before.1 ++ render value ++ post.1) :: renderMembers members
end

def Item.text (item : Item Tree) : JsString := item.pre.1 ++ render item.value ++ item.post.1

def Member.text (m : Member Tree) : JsString :=
  m.pre.1 ++ quoted m.name ++ m.mid.1 ++ colonMark :: m.before.1 ++ render m.value ++ m.post.1

theorem render_array (ws : Ws) (items : List (Item Tree)) :
    render (.array ws items) = openBracket :: ws.1 ++ [comma].intercalate (items.map Item.text) ++ [closeBracket] := by
  have hitems : renderItems items = items.map Item.text := by
    induction items with
    | nil => rfl
    | cons item items ih =>
      obtain ⟨pre, value, post⟩ := item
      rw [renderItems, ih, List.map_cons, Item.text]
  rw [render, hitems]

theorem render_object (ws : Ws) (members : List (Member Tree)) :
    render (.object ws members) = openBrace :: ws.1 ++ [comma].intercalate (members.map Member.text) ++ [closeBrace] := by
  have hmembers : renderMembers members = members.map Member.text := by
    induction members with
    | nil => rfl
    | cons m members ih =>
      obtain ⟨pre, name, mid, before, value, post⟩ := m
      rw [renderMembers, ih, List.map_cons, Member.text]
  rw [render, hmembers]

mutual
/-- the names of every object of the text, at any depth -/
def objects : Tree → List (List (List Piece))
  | .array _ items => objectsItems items
  | .object _ members => (members.map Member.name) :: objectsMembers members
  | _ => []
def objectsItems : List (Item Tree) → List (List (List Piece))
  | [] => []
  | ⟨_, v, _⟩ :: items => objects v ++ objectsItems items
def objectsMembers : List (Member Tree) → List (List (List Piece))
  | [] => []
  | ⟨_, _, _, _, v, _⟩ :: members => objects v ++ objectsMembers members
end

theorem objects_array (ws : Ws) (items : List (Item Tree)) :
    objects (.array ws items) = items.flatMap fun item => objects item.value := by
  rw [objects]
  induction items with
  | nil => rfl
  | cons item items ih =>
    obtain ⟨pre, v, post⟩ := item
    rw [objectsItems, ih, List.flatMap_cons]

theorem objects_object (ws : Ws) (members : List (Member Tree)) :
    objects (.object ws members) = members.map Member.name :: members.flatMap fun m => objects m.value := by
  have hmembers : objectsMembers members = members.flatMap fun m => objects m.value := by
    induction members with
    | nil => rfl
    | cons m members ih =>
      obtain ⟨pre, name, mid, before, v, post⟩ := m
      rw [objectsMembers, ih, List.flatMap_cons]
  rw [objects, hmembers]

section
variable {N : Type} (number : JsString → N)

mutual
def value : Tree → JsValue N
  | .null => .null
  | .bool b => .bool b
  | .number lexeme _ => .num (number lexeme)
  | .string pieces => .str (decode pieces)
  | .array _ items => .arr (valueItems items)
  | .object _ members => .obj true (putAll (valueMembers members))
def valueItems : List (Item Tree) → List (JsValue N)
  | [] => []
  | ⟨_, v, _⟩ :: items => value v :: valueItems items
def valueMembers : List (Member Tree) → List (JsString × JsValue N)
  | [] => []
  | ⟨_, name, _, _, v, _⟩ :: members => (decode name, value v) :: valueMembers members
end

theorem valueItems_eq (items : List (Item Tree)) : valueItems number items = items.map fun item => value number item.value := by
  induction items with
  | nil => rfl
  | cons item items ih =>
    obtain ⟨pre, v, post⟩ := item
    rw [valueItems, ih, List.map_cons]

theorem valueMembers_eq (members : List (Member Tree)) :
    valueMembers number members = members.map fun m => (decode m.name, value number m.value) := by
  induction members with
  | nil => rfl
  | cons m members ih =>
    obtain ⟨pre, name, mid, before, v, post⟩ := m
    rw [valueMembers, ih, List.map_cons]

/-! ## JSON.parse -/

def skipWs (text : JsString) : JsString := text.dropWhile isWs

/-- the rest of a string, after its opening quoteMark: what it denotes, and what follows it -/
def readString : JsString → Option (JsString × JsString)
  | [] => none
  | u :: text =>
    if u = quoteMark then some ([], text)
    else if u = backslash then
      match text with
      | [] => none
      | letter :: text =>
        if letter = letterU then
          match text with
          | a :: b :: c :: d :: text =>
            match codeValue a b c d with
            | some unit => (readString text).map fun r => (unit :: r.1, r.2)
            | none => none
          | _ => none
        else
          match escapeValue letter with
          | some unit => (readString text).map fun r => (unit :: r.1, r.2)
          | none => none
    else if isRaw u then (readString text).map fun r => (u :: r.1, r.2)
    else none

mutual
/-- a value at the head of the text, and what follows it -/
def readValue : ℕ → JsString → Option (JsValue N × JsString)
  | 0, _ => none
  | _ + 1, [] => none
  | n + 1, u :: text =>
    if u = quoteMark then (readString text).map fun r => (.str r.1, r.2)
    else if u = openBracket then
      if (skipWs text).head? = some closeBracket then some (.arr [], (skipWs text).tail)
      else (readItems n (skipWs text)).map fun r => (.arr r.1, r.2)
    else if u = openBrace then
      if (skipWs text).head? = some closeBrace then some (.obj true [], (skipWs text).tail)
      else (readMembers n (skipWs text)).map fun r => (.obj true (putAll r.1), r.2)
    else if trueText <+: u :: text then some (.bool true, (u :: text).drop 4)
    else if falseText <+: u :: text then some (.bool false, (u :: text).drop 5)
    else if nullText <+: u :: text then some (.null, (u :: text).drop 4)
    else if isNumber ((u :: text).takeWhile isNumberUnit) then
      some (.num (number ((u :: text).takeWhile isNumberUnit)), (u :: text).dropWhile isNumberUnit)
    else none
/-- the items of an array, to its closing bracket -/
def readItems : ℕ → JsString → Option (List (JsValue N) × JsString)
  | 0, _ => none
  | n + 1, text =>
    match readValue n text with
    | none => none
    | some (v, rest) =>
      match skipWs rest with
      | [] => none
      | u :: rest =>
        if u = comma then (readItems n (skipWs rest)).map fun r => (v :: r.1, r.2)
        else if u = closeBracket then some ([v], rest)
        else none
/-- the members of an object, to its closing brace -/
def readMembers : ℕ → JsString → Option (List (JsString × JsValue N) × JsString)
  | 0, _ => none
  | _ + 1, [] => none
  | n + 1, u :: text =>
    if u = quoteMark then
      match readString text with
      | none => none
      | some (name, rest) =>
        match skipWs rest with
        | [] => none
        | u :: rest =>
          if u = colonMark then
            match readValue n (skipWs rest) with
            | none => none
            | some (v, rest) =>
              match skipWs rest with
              | [] => none
              | u :: rest =>
                if u = comma then (readMembers n (skipWs rest)).map fun r => ((name, v) :: r.1, r.2)
                else if u = closeBrace then some ([(name, v)], rest)
                else none
          else none
    else none
end

/-- each nested value has at least one unit, so the length is fuel enough -/
def jsonParse (text : JsString) : Option (JsValue N) :=
  match readValue number (text.length + 1) (skipWs text) with
  | some (v, rest) => if skipWs rest = [] then some v else none
  | none => none

/-! ## The parser reads the grammar -/

/-- a value does not go on behind the first of these units -/
def Stops (rest : JsString) : Prop := ∀ u ∈ rest.head?, isNumberUnit u = false

theorem isNumberUnit_of_isWs {u : ℕ} (h : isWs u = true) : isNumberUnit u = false := by
  have hall : ∀ y ∈ [0x20, 0x9, 0xa, 0xd], isNumberUnit y = false := by decide
  exact hall u (of_decide_eq_true h)

theorem isSpace_of_isWs {u : ℕ} (h : isWs u = true) : JsString.isSpace u = true := by
  have hall : ∀ y ∈ [0x20, 0x9, 0xa, 0xd], JsString.isSpace y = true := by decide
  exact hall u (of_decide_eq_true h)

theorem skipWs_append (w : Ws) {rest : JsString} (h : ∀ u ∈ rest.head?, isWs u = false) : skipWs (w.1 ++ rest) = rest := by
  have hrest : skipWs rest = rest := by
    cases rest with
    | nil => rfl
    | cons u rest => rw [skipWs, List.dropWhile_cons_of_neg (by simp [h u rfl])]
  rw [skipWs, List.dropWhile_append_of_pos w.2]
  exact hrest

theorem skipWs_unit (w : Ws) {u : ℕ} (rest : JsString) (h : isWs u = false) : skipWs (w.1 ++ u :: rest) = u :: rest := by
  apply skipWs_append
  intro v hv
  rw [List.head?_cons, Option.mem_some_iff] at hv
  exact hv ▸ h

theorem stops_ws (w : Ws) {u : ℕ} (rest : JsString) (h : isNumberUnit u = false) : Stops (w.1 ++ u :: rest) := by
  intro v hv
  obtain ⟨w, hw⟩ := w
  cases w with
  | nil =>
    simp only [List.nil_append, List.head?_cons, Option.mem_some_iff] at hv
    exact hv ▸ h
  | cons x w =>
    simp only [List.cons_append, List.head?_cons, Option.mem_some_iff] at hv
    have hx := hw x List.mem_cons_self
    exact isNumberUnit_of_isWs (hv ▸ hx)

theorem readString_piece (piece : Piece) (text : JsString) :
    readString (piece.text ++ text) = (readString text).map fun r => (piece.unit :: r.1, r.2) := by
  rw [readString.eq_def]
  cases piece with
  | raw u h =>
    have hu : u ≠ quoteMark ∧ u ≠ backslash := by
      simp only [isRaw, Bool.and_eq_true, decide_eq_true_eq] at h
      exact ⟨h.1.2, h.2⟩
    simp [Piece.text, Piece.unit, hu.1, hu.2, h]
  | escape letter u h =>
    have hletter : letter ≠ letterU := by
      rintro rfl
      cases h
    have hquote : backslash ≠ quoteMark := by decide
    simp [Piece.text, Piece.unit, hletter, h, hquote]
  | code a b c d u h =>
    have hquote : backslash ≠ quoteMark := by decide
    simp [Piece.text, Piece.unit, h, hquote]

theorem readString_spelling (pieces : List Piece) (rest : JsString) :
    readString (spelling pieces ++ quoteMark :: rest) = some (decode pieces, rest) := by
  induction pieces with
  | nil =>
    rw [readString.eq_def]
    simp [spelling, decode]
  | cons piece pieces ih =>
    rw [spelling, List.flatMap_cons, List.append_assoc, readString_piece]
    exact (congrArg _ ih).trans rfl

theorem isNumber_units {lexeme : JsString} (h : isNumber lexeme = true) : ∀ u ∈ lexeme, isNumberUnit u = true := by
  simp only [isNumber, Bool.and_eq_true, List.all_eq_true] at h
  exact h.1.1

theorem isNumber_ne_nil {lexeme : JsString} (h : isNumber lexeme = true) : lexeme ≠ [] := by
  rintro rfl
  exact absurd h (by decide)

/-- the first unit of a value -/
theorem render_cons (t : Tree) :
    ∃ u text, render t = u :: text ∧ isWs u = false ∧ u ≠ closeBracket ∧ u ≠ closeBrace := by
  cases t with
  | null => exact ⟨_, _, rfl, by decide, by decide, by decide⟩
  | bool b => cases b <;> exact ⟨_, _, rfl, by decide, by decide, by decide⟩
  | number lexeme h =>
    obtain ⟨u, text, rfl⟩ := List.exists_cons_of_ne_nil (isNumber_ne_nil h)
    have hu := isNumber_units h u List.mem_cons_self
    refine ⟨u, text, rfl, ?_, ?_, ?_⟩
    · by_contra hws
      rw [Bool.not_eq_false] at hws
      rw [isNumberUnit_of_isWs hws] at hu
      cases hu
    · rintro rfl
      cases hu
    · rintro rfl
      cases hu
  | string pieces => exact ⟨_, _, rfl, by decide, by decide, by decide⟩
  | array ws items => exact ⟨_, _, render_array ws items, by decide, by decide, by decide⟩
  | object ws members => exact ⟨_, _, render_object ws members, by decide, by decide, by decide⟩

theorem skipWs_render (w : Ws) (t : Tree) (rest : JsString) : skipWs (w.1 ++ (render t ++ rest)) = render t ++ rest := by
  obtain ⟨u, text, htext, hu, -⟩ := render_cons t
  rw [htext, List.cons_append]
  exact skipWs_unit w _ hu

variable {number}

/-- the parser reads the tree, whatever follows it -/
def Reads (number : JsString → N) (t : Tree) : Prop :=
  ∀ fuel rest, (render t).length ≤ fuel → Stops rest → readValue number fuel (render t ++ rest) = some (value number t, rest)

theorem join_cons {α : Type} (text : α → JsString) (a b : α) (l : List α) :
    [comma].intercalate ((a :: b :: l).map text) = text a ++ comma :: [comma].intercalate ((b :: l).map text) := by
  rw [List.map_cons, List.map_cons, List.intercalate_cons_cons, List.append_assoc]
  rfl

theorem readItems_join {items : List (Item Tree)} (hne : items ≠ []) (h : ∀ item ∈ items, Reads number item.value)
    (fuel : ℕ) (rest : JsString) (hfuel : ([comma].intercalate (items.map Item.text)).length < fuel) :
    readItems number fuel (skipWs ([comma].intercalate (items.map Item.text) ++ closeBracket :: rest)) =
      some (items.map fun item => value number item.value, rest) := by
  induction items generalizing fuel with
  | nil => exact absurd rfl hne
  | cons item items ih =>
    cases fuel with
    | zero => omega
    | succ fuel =>
      have hitem := h item List.mem_cons_self
      cases items with
      | nil =>
        simp only [List.map_cons, List.map_nil, List.intercalate_singleton, Item.text, List.length_append] at hfuel ⊢
        rw [List.append_assoc, List.append_assoc, skipWs_render, readItems,
          hitem fuel _ (by omega) (stops_ws item.post rest (by decide))]
        simp only
        rw [skipWs_unit item.post rest (by decide)]
        rfl
      | cons next items =>
        have hrest := ih (by simp) (fun x hx => h x (List.mem_cons_of_mem item hx)) fuel
        rw [join_cons] at hfuel ⊢
        simp only [Item.text, List.length_append, List.length_cons] at hfuel
        rw [Item.text, List.append_assoc, List.append_assoc, List.append_assoc, skipWs_render, readItems, List.cons_append,
          hitem fuel _ (by omega) (stops_ws item.post _ (by decide))]
        simp only
        rw [skipWs_unit item.post _ (by decide)]
        simp only
        rw [if_pos trivial, hrest (by omega)]
        rfl

/-- a member begins with its name -/
theorem skipWs_member (m : Member Tree) (tail : JsString) :
    skipWs (m.text ++ tail) = quoteMark :: (spelling m.name ++ quoteMark :: (m.mid.1 ++ colonMark ::
      (m.before.1 ++ (render m.value ++ (m.post.1 ++ tail))))) := by
  have htext : m.text ++ tail = m.pre.1 ++ quoteMark :: (spelling m.name ++ quoteMark :: (m.mid.1 ++ colonMark ::
      (m.before.1 ++ (render m.value ++ (m.post.1 ++ tail))))) := by
    simp [Member.text, quoted]
  rw [htext, skipWs_unit m.pre _ (by decide)]

theorem readMembers_join {members : List (Member Tree)} (hne : members ≠ []) (h : ∀ m ∈ members, Reads number m.value)
    (fuel : ℕ) (rest : JsString) (hfuel : ([comma].intercalate (members.map Member.text)).length < fuel) :
    readMembers number fuel (skipWs ([comma].intercalate (members.map Member.text) ++ closeBrace :: rest)) =
      some (members.map fun m => (decode m.name, value number m.value), rest) := by
  induction members generalizing fuel with
  | nil => exact absurd rfl hne
  | cons m members ih =>
    cases fuel with
    | zero => omega
    | succ fuel =>
      have hvalue := h m List.mem_cons_self
      have hname := skipWs_member m
      have hlength : (render m.value).length + 2 ≤ m.text.length := by
        simp only [Member.text, quoted, List.length_append, List.length_cons]
        omega
      cases members with
      | nil =>
        simp only [List.map_cons, List.map_nil, List.intercalate_singleton] at hfuel ⊢
        rw [hname, readMembers, if_pos rfl, readString_spelling]
        simp only
        rw [skipWs_unit m.mid _ (by decide)]
        simp only
        rw [if_pos trivial, skipWs_render, hvalue fuel _ (by omega) (stops_ws m.post rest (by decide))]
        simp only
        rw [skipWs_unit m.post rest (by decide)]
        rfl
      | cons next members =>
        have hrest := ih (by simp) (fun x hx => h x (List.mem_cons_of_mem m hx)) fuel
        rw [join_cons, List.length_append, List.length_cons] at hfuel
        rw [join_cons, List.append_assoc, List.cons_append, hname, readMembers, if_pos rfl, readString_spelling]
        simp only
        rw [skipWs_unit m.mid _ (by decide)]
        simp only
        rw [if_pos trivial, skipWs_render, hvalue fuel _ (by omega) (stops_ws m.post _ (by decide))]
        simp only
        rw [skipWs_unit m.post _ (by decide)]
        simp only
        rw [if_pos trivial, hrest (by omega)]
        rfl

theorem reads_number {lexeme : JsString} (h : isNumber lexeme = true) (fuel : ℕ) {rest : JsString} (hrest : Stops rest) :
    readValue number (fuel + 1) (lexeme ++ rest) = some (.num (number lexeme), rest) := by
  have htake : (lexeme ++ rest).takeWhile isNumberUnit = lexeme := by
    rw [List.takeWhile_append_of_pos (isNumber_units h)]
    cases rest with
    | nil => simp
    | cons v rest => rw [List.takeWhile_cons_of_neg (by simp [hrest v rfl]), List.append_nil]
  have hdrop : (lexeme ++ rest).dropWhile isNumberUnit = rest := by
    rw [List.dropWhile_append_of_pos (isNumber_units h)]
    cases rest with
    | nil => rfl
    | cons v rest => rw [List.dropWhile_cons_of_neg (by simp [hrest v rfl])]
  obtain ⟨u, text, rfl⟩ := List.exists_cons_of_ne_nil (isNumber_ne_nil h)
  have hu := isNumber_units h u List.mem_cons_self
  -- no number begins as another value does
  have hother : ∀ v : ℕ, isNumberUnit v = false → u ≠ v := by
    rintro v hv rfl
    rw [hu] at hv
    cases hv
  have hliteral : ∀ (v : ℕ) (word : JsString), isNumberUnit v = false → ¬ v :: word <+: u :: text ++ rest := by
    intro v word hv hprefix
    exact hother v hv (List.cons_prefix_cons.1 hprefix).1.symm
  have htrue : ¬ trueText <+: u :: text ++ rest := hliteral 0x74 _ (by decide)
  have hfalse : ¬ falseText <+: u :: text ++ rest := hliteral 0x66 _ (by decide)
  have hnull : ¬ nullText <+: u :: text ++ rest := hliteral 0x6e _ (by decide)
  rw [List.cons_append] at htake hdrop htrue hfalse hnull ⊢
  rw [readValue, if_neg (hother _ (by decide)), if_neg (hother _ (by decide)), if_neg (hother _ (by decide)), if_neg htrue,
    if_neg hfalse, if_neg hnull, htake, if_pos h, hdrop]

/-- what follows the opening unit of an array or object that is not empty is no closing one -/
theorem head_skipWs_join {α : Type} {text : α → JsString} {close : ℕ} {items : List α} (hne : items ≠ []) (rest : JsString)
    (htext : ∀ a ∈ items, ∀ tail, (skipWs (text a ++ tail)).head? ≠ some close) :
    (skipWs ([comma].intercalate (items.map text) ++ rest)).head? ≠ some close := by
  obtain ⟨a, items, rfl⟩ := List.exists_cons_of_ne_nil hne
  cases items with
  | nil =>
    rw [List.map_cons, List.map_nil, List.intercalate_singleton]
    exact htext a List.mem_cons_self rest
  | cons b items =>
    rw [join_cons, List.append_assoc]
    exact htext a List.mem_cons_self _

theorem skipWs_skipWs (w : Ws) (text : JsString) : skipWs (w.1 ++ text) = skipWs text := by
  rw [skipWs, List.dropWhile_append_of_pos w.2]
  rfl

theorem reads_of_succ {t : Tree} (h : ∀ fuel rest, (render t).length ≤ fuel + 1 → Stops rest →
    readValue number (fuel + 1) (render t ++ rest) = some (value number t, rest)) : Reads number t := by
  intro fuel rest hfuel hrest
  obtain ⟨u, text, htext, -⟩ := render_cons t
  cases fuel with
  | zero => simp [htext] at hfuel
  | succ fuel => exact h fuel rest hfuel hrest

theorem reads (t : Tree) : Reads number t := by
  apply reads_of_succ
  induction t using Tree.ind with
  | null =>
    intro fuel rest _ _
    simp [render, value, nullText, readValue, trueText, falseText, quoteMark, openBracket, openBrace]
  | bool b =>
    intro fuel rest _ _
    cases b <;> simp [render, value, readValue, trueText, falseText, quoteMark, openBracket, openBrace]
  | number lexeme h =>
    intro fuel rest _ hrest
    exact reads_number h fuel hrest
  | string pieces =>
    intro fuel rest _ _
    rw [render, quoted, List.append_assoc, List.cons_append, readValue, if_pos rfl, List.singleton_append,
      readString_spelling]
    rfl
  | array ws items ih =>
    intro fuel rest hfuel _
    rw [render_array, List.length_append, List.cons_append, List.length_cons, List.length_append, List.length_singleton]
      at hfuel
    rw [render_array, List.append_assoc, List.cons_append, List.cons_append, List.append_assoc, List.singleton_append,
      readValue, if_neg (by decide), if_pos rfl, skipWs_skipWs, value, valueItems_eq]
    by_cases hne : items = []
    · subst hne
      rfl
    · have hhead : (skipWs ([comma].intercalate (items.map Item.text) ++ closeBracket :: rest)).head? ≠
          some closeBracket := by
        apply head_skipWs_join hne
        intro item _ tail
        obtain ⟨u, text, htext, -, hu, -⟩ := render_cons item.value
        rw [Item.text, List.append_assoc, List.append_assoc, skipWs_render, htext]
        simpa using hu
      rw [if_neg hhead, readItems_join hne (fun item hitem => reads_of_succ (ih item hitem)) fuel rest (by omega)]
      rfl
  | object ws members ih =>
    intro fuel rest hfuel _
    rw [render_object, List.length_append, List.cons_append, List.length_cons, List.length_append, List.length_singleton]
      at hfuel
    rw [render_object, List.append_assoc, List.cons_append, List.cons_append, List.append_assoc, List.singleton_append,
      readValue, if_neg (by decide), if_neg (by decide), if_pos rfl, skipWs_skipWs, value, valueMembers_eq]
    by_cases hne : members = []
    · subst hne
      rfl
    · have hhead : (skipWs ([comma].intercalate (members.map Member.text) ++ closeBrace :: rest)).head? ≠
          some closeBrace := by
        apply head_skipWs_join hne
        intro m _ tail
        rw [skipWs_member]
        simp only [List.head?_cons, ne_eq, Option.some.injEq]
        decide
      rw [if_neg hhead, readMembers_join hne (fun m hm => reads_of_succ (ih m hm)) fuel rest (by omega)]
      rfl

/-- **Round trip.** JSON.parse reads every text of the grammar as the value it denotes. -/
theorem jsonParse_render (pre post : Ws) (t : Tree) :
    jsonParse number (pre.1 ++ render t ++ post.1) = some (value number t) := by
  have hstops : Stops post.1 := by
    intro u hu
    exact isNumberUnit_of_isWs (post.2 u (List.mem_of_mem_head? hu))
  have hreads : Reads number t := reads t
  have hread := hreads ((pre.1 ++ render t ++ post.1).length + 1) post.1
    (by simp only [List.length_append]; omega) hstops
  have hpost : skipWs post.1 = [] := by
    have hskip : skipWs (post.1 ++ []) = [] := skipWs_append post (by simp)
    rwa [List.append_nil] at hskip
  rw [jsonParse, List.append_assoc, skipWs_render]
  rw [List.append_assoc] at hread
  rw [hread]
  simp only
  rw [hpost, if_pos rfl]

end

/-- strings spelled alike are read alike -/
theorem decode_of_spelling {x y : List Piece} (h : spelling x = spelling y) : decode x = decode y := by
  have hx := readString_spelling x []
  rw [h, readString_spelling y []] at hx
  exact (congrArg Prod.fst (Option.some.inj hx)).symm

/-- some object has two members of the same name, names taken as `read` gives them -/
def RepeatsName (read : List Piece → JsString) (t : Tree) : Prop := ∃ names ∈ objects t, ¬ (names.map read).Nodup

theorem RepeatsName.decode {t : Tree} (h : RepeatsName spelling t) : RepeatsName decode t := by
  obtain ⟨names, hnames, hdup⟩ := h
  refine ⟨names, hnames, fun hnodup => hdup ?_⟩
  rw [List.Nodup, List.pairwise_map] at hnodup ⊢
  exact hnodup.imp fun hne heq => hne (decode_of_spelling heq)

end AstramemLocal.Core.JsonText
