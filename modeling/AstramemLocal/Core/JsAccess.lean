/-
Reading members of a value that JSON.parse returned. A look-up on null throws; one on any other value that is no object
finds nothing, and so does one on an array, under the names that are looked up here.
-/
import AstramemLocal.Core.JsValue

namespace AstramemLocal.Core.JsValue

variable {N : Type}

inductive Thrown where
  | typeError
deriving DecidableEq, Repr

/-- `v && typeof v === 'object'` -/
def isObject : JsValue N → Bool
  | .arr _ | .obj _ _ => true
  | _ => false

/-- an own member -/
def get (v : JsValue N) (key : String) : Option (JsValue N) :=
  match v with
  | .obj _ members => members.lookup (JsString.ofString key)
  | _ => none

/-- `v[key]` -/
def member (v : JsValue N) (key : String) : Except Thrown (Option (JsValue N)) :=
  match v with
  | .null => .error .typeError
  | v => .ok (v.get key)

/-- `v?.[key]` -/
def child (v : Option (JsValue N)) (key : String) : Option (JsValue N) := v.bind (·.get key)

/-- `v === text` -/
def isText (v : Option (JsValue N)) (text : String) : Bool :=
  match v with
  | some (.str s) => s = JsString.ofString text
  | _ => false

/-- the value if it is a string -/
def stringOrNull (v : Option (JsValue N)) : Option JsString :=
  match v with
  | some (.str s) => some s
  | _ => none

/-- the value if it is a number -/
def numberValue (v : Option (JsValue N)) : Option N :=
  match v with
  | some (.num n) => some n
  | _ => none

theorem member_of_ne {v : JsValue N} {key : String} (h : v ≠ .null) : member v key = .ok (v.get key) := by
  cases v with
  | null => exact absurd rfl h
  | _ => rfl

end AstramemLocal.Core.JsValue
