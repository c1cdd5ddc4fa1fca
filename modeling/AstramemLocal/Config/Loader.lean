/-
Reading the configuration file. A text is a list of characters. The stack of open blocks keeps where the object of each
block is in the tree; the root, which is never taken off the source's stack, is not in it.
-/
import AstramemLocal.Config.Fields
import AstramemLocal.Core.Text
import Mathlib.Data.List.SplitOn

namespace AstramemLocal.Config

open Core

/-! ## Scalars -/

/-- `\X` stands for `X` -/
def unescapeDoubleQuoted : List Char → List Char
  | [] => []
  | '\\' :: c :: rest => c :: unescapeDoubleQuoted rest
  | c :: rest => c :: unescapeDoubleQuoted rest

/-- `replace(/''/g, "'")` -/
def undoubleQuotes : List Char → List Char
  | [] => []
  | '\'' :: '\'' :: rest => '\'' :: undoubleQuotes rest
  | c :: rest => c :: undoubleQuotes rest

/-- `slice(1, -1)` -/
def sliceInner (v : List Char) : List Char := v.tail.dropLast

/-- `v.startsWith(a) && v.endsWith(b)` -/
def enclosed (a b : Char) (v : List Char) : Bool := v.head? = some a && v.getLast? = some b

/-- where `splitFlowSequenceEntries` stands -/
structure Flow where
  inSingle : Bool := false
  inDouble : Bool := false
  atEntryStart : Bool := true

/-- the entries from here on; `current` is what is read of this one -/
def flowEntries (s : Flow) (current : List Char) : List Char → List (List Char)
  | [] => if trim current = [] then [] else [current]
  | ch :: rest =>
    if s.inSingle then
      if ch = '\'' then
        match rest with
        | '\'' :: rest => flowEntries s (current ++ ['\'', '\'']) rest
        | rest => flowEntries { s with inSingle := false, atEntryStart := false } (current ++ [ch]) rest
      else flowEntries s (current ++ [ch]) rest
    else if s.inDouble then
      if ch = '\\' then
        match rest with
        | c :: rest => flowEntries s (current ++ [ch, c]) rest
        | [] => flowEntries s (current ++ [ch]) []
      else if ch = '"' then flowEntries { s with inDouble := false, atEntryStart := false } (current ++ [ch]) rest
      else flowEntries s (current ++ [ch]) rest
    else if isSpace ch then flowEntries s (current ++ [ch]) rest
    else if s.atEntryStart ∧ ch = '\'' then flowEntries { s with inSingle := true } (current ++ [ch]) rest
    else if s.atEntryStart ∧ ch = '"' then flowEntries { s with inDouble := true } (current ++ [ch]) rest
    else if ch = ',' then current :: flowEntries { s with atEntryStart := true } [] rest
    else flowEntries { s with atEntryStart := false } (current ++ [ch]) rest

def splitFlowSequenceEntries (inner : List Char) : List (List Char) := (flowEntries {} [] inner).map trim

theorem flowEntries_length (s : Flow) (current text : List Char) :
    ∀ e ∈ flowEntries s current text, e.length ≤ current.length + text.length := by
  fun_induction flowEntries s current text <;> grind

theorem splitFlowSequenceEntries_length {inner e : List Char} (he : e ∈ splitFlowSequenceEntries inner) :
    e.length ≤ inner.length := by
  obtain ⟨entry, hentry, rfl⟩ := List.mem_map.1 he
  have hlength := flowEntries_length {} [] inner entry hentry
  have htrim := (trim_sublist entry).length_le
  rw [List.length_nil] at hlength
  omega

def parseScalar (raw : List Char) : PlainValue :=
  let v := trim raw
  if v = [] then .undefined
  else if enclosed '\'' '\'' v then .str (String.ofList (undoubleQuotes (sliceInner v)))
  else if enclosed '"' '"' v then .str (String.ofList (unescapeDoubleQuoted (sliceInner v)))
  else if v = ['t', 'r', 'u', 'e'] then .bool true
  else if v = ['f', 'a', 'l', 's', 'e'] then .bool false
  else if v = ['n', 'u', 'l', 'l'] ∨ v = ['~'] then .null
  else
    match readNumber v with
    | some n => .num n
    | none =>
      if h : enclosed '[' ']' v then
        match jsonParse v with
        | some (.arr items) => .arr items
        | _ => .arr ((splitFlowSequenceEntries (sliceInner v)).attach.map fun e => parseScalar e.1)
      else .str (String.ofList v)
termination_by raw.length
decreasing_by
  have hentry := splitFlowSequenceEntries_length e.2
  have htrim : v.length ≤ raw.length := (trim_sublist raw).length_le
  have hne : v ≠ [] := by
    rintro hnil
    simp [enclosed, hnil] at h
  have hpos := List.length_pos_of_ne_nil hne
  simp only [sliceInner, List.length_dropLast, List.length_tail] at hentry
  omega

/-! ## Lines -/

/-- where `stripComment` stands in the value of a line -/
structure Scan where
  atValueStart : Bool := true
  inSingle : Bool := false
  inDouble : Bool := false
  bracketDepth : ℕ := 0

/-- the part of the value before its comment; `before` is the character in front -/
def stripValue (s : Scan) (before : Char) : List Char → List Char
  | [] => []
  | ch :: rest =>
    if s.inSingle then
      if ch = '\'' then
        match rest with
        | '\'' :: rest => ch :: '\'' :: stripValue s '\'' rest
        | rest => ch :: stripValue { s with inSingle := false, atValueStart := false } ch rest
      else ch :: stripValue s ch rest
    else if s.inDouble then
      if ch = '\\' then
        match rest with
        | c :: rest => ch :: c :: stripValue s c rest
        | [] => [ch]
      else if ch = '"' then ch :: stripValue { s with inDouble := false, atValueStart := false } ch rest
      else ch :: stripValue s ch rest
    else if isSpace ch then ch :: stripValue s ch rest
    else if s.atValueStart ∧ ch = '\'' then ch :: stripValue { s with inSingle := true } ch rest
    else if s.atValueStart ∧ ch = '"' then ch :: stripValue { s with inDouble := true } ch rest
    else if ch = '#' ∧ isSpace before then []
    else if ch = '[' then ch :: stripValue { s with bracketDepth := s.bracketDepth + 1, atValueStart := true } ch rest
    else if ch = ']' then ch :: stripValue { s with bracketDepth := s.bracketDepth - 1, atValueStart := false } ch rest
    else if ch = ',' ∧ 0 < s.bracketDepth then ch :: stripValue { s with atValueStart := true } ch rest
    else ch :: stripValue { s with atValueStart := false } ch rest

/-- the text before a `#` at its start or after white space, where there is one -/
def cutComment (before : Option Char) : List Char → Option (List Char)
  | [] => none
  | ch :: rest => if ch = '#' ∧ before.all isSpace then some [] else (cutComment (some ch) rest).map (ch :: ·)

def stripComment (rawLine : List Char) : List Char :=
  let key := rawLine.takeWhile (· ≠ ':')
  match cutComment none key, rawLine.dropWhile (· ≠ ':') with
  | some kept, _ => kept
  | none, [] => rawLine
  | none, colon :: value => key ++ colon :: stripValue {} colon value

/-! ## The tree -/

/-- `parent[key] = value` -/
def setKey (key : String) (value : PlainValue) : PlainValue → PlainValue
  | .obj get => .obj (Function.update get key value)
  | other => other

/-- `f` on the object at `path` -/
def modifyAt : List String → (PlainValue → PlainValue) → PlainValue → PlainValue
  | [], f, v => f v
  | key :: path, f, .obj get => .obj (Function.update get key (modifyAt path f (get key)))
  | _ :: _, _, other => other

structure Reading where
  root : PlainValue
  /-- the open blocks, the innermost first: indent, and where the block's object is -/
  stack : List (ℕ × List String)

def parentPath (stack : List (ℕ × List String)) : List String := (stack.head?.map (·.2)).getD []

/-- one round of the loop of `parseConfigYaml` -/
def readLine (s : Reading) (rawLine : List Char) : Reading :=
  let withoutComment := stripComment rawLine
  if trim withoutComment = [] then s
  else
    let indent := withoutComment.length - (trimStart withoutComment).length
    let line := trim withoutComment
    let key := line.takeWhile (· ≠ ':')
    match line.dropWhile (· ≠ ':') with
    | [] => s
    | _ :: rest =>
      if key = [] then s
      else
        let key := String.ofList (trim key)
        let stack := s.stack.dropWhile (indent ≤ ·.1)
        let parent := parentPath stack
        if trim rest = [] then
          { root := modifyAt parent (setKey key .empty) s.root, stack := (indent, parent ++ [key]) :: stack }
        else
          match parseScalar rest with
          | .undefined => { s with stack }
          | value => { root := modifyAt parent (setKey key value) s.root, stack }

def parseConfigYaml (text : List Char) : PlainValue :=
  ((text.splitOn '\n').foldl readLine ⟨.empty, []⟩).root

/-! ## Merging -/

/-- What the merge makes of one key; at the top both are objects. -/
def deepMerge : PlainValue → PlainValue → PlainValue
  | .obj base, .obj overrides => .obj fun key => deepMerge (base key) (overrides key)
  | existing, .undefined => existing
  | _, value => value

/-- `obj.key`, `undefined` where `obj` is no object -/
def memberOf (obj : PlainValue) (key : String) : PlainValue :=
  match obj with
  | .obj get => get key
  | _ => .undefined

/-- the provider of the extraction the file names, else the default one -/
def diskProvider (defaults : Config) (parsed : PlainValue) : String :=
  match memberOf (memberOf (memberOf parsed "llm") "extraction") "provider" with
  | .str provider => provider
  | _ => defaults.llm.extraction.provider

/-- `file` is what the file holds, `none` where there is none; `dataDir` is the platform's data directory -/
def loadConfigFromDiskRaw (dataDir : String) (file : Option (List Char)) : PlainValue :=
  let base := applyProviderAwareDistillDefaults (defaultConfig dataDir) (defaultConfig dataDir).llm.extraction.provider
  match file with
  | none => base.toObject
  | some text =>
    if trim text = [] then base.toObject
    else
      let parsed := parseConfigYaml text
      deepMerge (applyProviderAwareDistillDefaults (defaultConfig dataDir) (diskProvider (defaultConfig dataDir) parsed)).toObject
        parsed

end AstramemLocal.Config
