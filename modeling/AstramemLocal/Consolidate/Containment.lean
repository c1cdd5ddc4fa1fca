/-
The containment rule of `src/consolidate/consolidate.ts`. A text is compared by its normal form, and the text whose form
holds the other's wins. `Covers` is the preorder behind the rule: along a chain of contained merges nothing of a normal
form is lost (`Covers.trans`, `containment_covers`).
-/
import AstramemLocal.Core.Text
import AstramemLocal.Core.Json
import Mathlib.Data.List.Infix

namespace AstramemLocal.Consolidate

open AstramemLocal.Core

/-- what the rule takes from the language: lower-casing, and the classes `\p{L}` and `\p{N}` -/
structure TextTables where
  toLowerCase : String → String
  isLetterOrNumber : Char → Bool

variable (T : TextTables)

/-- the quotes, straight and curly, and the backtick -/
def isAnyQuote (c : Char) : Bool := c.val ∈ [0x60, 0x27, 0x22, 0x201c, 0x201d, 0x2018, 0x2019]

/-- `.replace(/[^\p{L}\p{N}]+/gu, ' ')`; `gap` says that the previous character was replaced -/
def collapseOthers : Bool → List Char → List Char
  | _, [] => []
  | gap, c :: cs =>
    if T.isLetterOrNumber c then c :: collapseOthers false cs
    else if gap then collapseOthers true cs
    else ' ' :: collapseOthers true cs

def normalizeForContainment (text : String) : List Char :=
  trim (collapseOthers T false ((T.toLowerCase text).toList.filter fun c => !isAnyQuote c))

inductive Containment where
  | aContainsB | bContainsA | equal
deriving DecidableEq, Repr

/-- `MIN_LEN`, in code units -/
def minLen : ℕ := 8

/-- `text.length` -/
def jsLength (cs : List Char) : ℕ := (codeUnits (String.ofList cs)).length

def containment (aText bText : String) : Option Containment :=
  let a := normalizeForContainment T aText
  let b := normalizeForContainment T bText
  if jsLength a < minLen ∨ jsLength b < minLen then none
  else if a = b then some .equal
  else if b <:+: a then some .aContainsB
  else if a <:+: b then some .bContainsA
  else none

/-! ## Nothing of a normal form is lost -/

/-- the normal form of `b` stands in the normal form of `a` -/
def Covers (a b : String) : Prop := normalizeForContainment T b <:+: normalizeForContainment T a

variable {T} {a b c : String}

theorem Covers.refl (a : String) : Covers T a a := List.infix_rfl

theorem Covers.trans (hab : Covers T a b) (hbc : Covers T b c) : Covers T a c := List.IsInfix.trans hbc hab

theorem containment_covers {k : Containment} (h : containment T a b = some k) :
    (k ≠ .bContainsA → Covers T a b) ∧ (k ≠ .aContainsB → Covers T b a) := by
  simp only [containment] at h
  split_ifs at h with hshort heq hab hba
  · obtain rfl := Option.some.inj h
    have hab : Covers T a b := ⟨[], [], by rw [List.nil_append, List.append_nil, heq]⟩
    have hba : Covers T b a := ⟨[], [], by rw [List.nil_append, List.append_nil, heq]⟩
    exact ⟨fun _ => hab, fun _ => hba⟩
  · obtain rfl := Option.some.inj h
    exact ⟨fun _ => hab, fun hne => absurd rfl hne⟩
  · obtain rfl := Option.some.inj h
    exact ⟨fun hne => absurd rfl hne, fun _ => hba⟩

def asciiText : TextTables := ⟨fun s => String.ofList (s.toList.map Char.toLower), Char.isAlphanum⟩

example : containment asciiText "port 7777 is the default." "Port `7777` is the default" = some .equal := by
  decide +kernel

end AstramemLocal.Consolidate
