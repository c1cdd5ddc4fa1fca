/-
Writing the configuration file. `configToYaml` follows `configFields`; the warning about missing keys, which changes
nothing, is left out.
-/
import AstramemLocal.Config.Fields
import AstramemLocal.Core.Text

namespace AstramemLocal.Config

open Core

/-- `/[:#{}\[\],&*?|<>=!%@...]/` -/
def isYamlSpecial (c : Char) : Bool := c ∈ ":#\x7b\x7d[],&*?|<>=!%@`".toList

/-- `/^(true|false|null|~)$/i` -/
def isYamlKeyword (v : List Char) : Bool :=
  v.map Char.toLower ∈ [['t', 'r', 'u', 'e'], ['f', 'a', 'l', 's', 'e'], ['n', 'u', 'l', 'l'], ['~']]

/-- the test of `yamlScalar` -/
def needsQuotes (v : List Char) : Bool :=
  v = [] || v.any isYamlSpecial || isYamlKeyword v || v.head?.any (fun c => (digitValue c).isSome)

/-- `replace(/'/g, "''")` -/
def doubleQuotes (v : List Char) : List Char := v.flatMap fun c => if c = '\'' then ['\'', '\''] else [c]

def yamlScalar : Scalar → List Char
  | .null => ['n', 'u', 'l', 'l']
  | .bool true => ['t', 'r', 'u', 'e']
  | .bool false => ['f', 'a', 'l', 's', 'e']
  | .num n => n.text
  | .str s => if needsQuotes s.toList then '\'' :: doubleQuotes s.toList ++ ['\''] else s.toList

/-- the text a setting is written as; `none` where it is not written -/
def Setting.text {C : Type} (c : C) : Setting C → Option (List Char)
  | .always get => some (yamlScalar (get c))
  | .orElse get fallback => some (yamlScalar (.bool ((get c).getD fallback)))
  | .ifDefined get => (get c).map yamlScalar
  | .ifTruthy get =>
    match get c with
    | some s => if s = "" then none else some (yamlScalar (.str s))
    | none => none
  | .ifNonempty get => if get c = [] then none else some (stringifyStrings (get c))
  | .never _ => none

/-- `'  '.repeat(indent)` -/
def pad (indent : ℕ) : List Char := List.replicate (2 * indent) ' '

/-- `line(indent, key)` -/
def headLine (indent : ℕ) (key : String) : List Char := pad indent ++ key.toList ++ [':']

/-- `line(indent, key, value)` and `arrayLine(indent, key, value)`, from the text of the value -/
def valueLine (indent : ℕ) (key : String) (text : List Char) : List Char :=
  pad indent ++ key.toList ++ ':' :: ' ' :: text

namespace Fields

/-- what is written of a block -/
def written {D : Type} (record fallback : Option D) : Option D := record.or fallback

def lines : {C : Type} → Fields C → ℕ → C → List (List Char)
  | _, .nil, _, _ => []
  | _, .blank rest, n, c => [] :: rest.lines n c
  | _, .setting key how rest, n, c => ((how.text c).map (valueLine n key)).toList ++ rest.lines n c
  | _, .block key get fallback inner rest, n, c =>
    match written (get c) fallback with
    | none => rest.lines n c
    | some d => headLine n key :: inner.lines (n + 1) d ++ rest.lines n c

end Fields

def configToYaml (cfg : Config) : List Char :=
  ['\n'].intercalate
    ("# AstraMemory Local — config.yaml".toList ::
      "# Generated by `astramem-local init`. Edit manually or re-run init.".toList :: [] :: configFields.lines 0 cfg)

end AstramemLocal.Config
