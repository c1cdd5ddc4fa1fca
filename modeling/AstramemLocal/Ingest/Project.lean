/-
The repo and the project of a session: `src/pipeline/cwd-basename.ts`, `src/pipeline/derive-project.ts` and
`src/tag-hygiene/derive-repo.ts`. What `git` answers for a directory is an argument.
-/
import Mathlib.Tactic.Common

namespace AstramemLocal.Ingest

def isSeparator (c : Char) : Bool := c = '/' || c = '\\'

/-- the nonempty segments of a path, without its trailing separators -/
def segments (cwd : String) : List String :=
  ((cwd.toList.splitOnP isSeparator).filter (· ≠ [])).map String.ofList

def isLineTerminator (c : Char) : Bool := c.toNat ∈ [10, 13, 0x2028, 0x2029]

/-- the group of `/^(.+)-worktrees$/i` -/
def worktreesParent (parent : String) : Option String :=
  let chars := parent.toList
  let n := chars.length - "-worktrees".length
  if 0 < n ∧ (chars.drop n).map Char.toLower = "-worktrees".toList ∧ ¬ (chars.take n).any isLineTerminator then
    some (String.ofList (chars.take n))
  else none

/-- the segments from the last one on -/
def worktreeSafe : List String → Option String
  | [] => none
  | last :: rest =>
    match rest with
    | "worktrees" :: ".claude" :: repo :: _ => some repo
    | parent :: _ => some ((worktreesParent parent).getD last)
    | [] => some last

def deriveWorktreeSafeBasename (cwd : Option String) : Option String :=
  cwd.bind fun path => worktreeSafe (segments path).reverse

def plainBasename (cwd : Option String) : Option String := cwd.bind fun path => (segments path).getLast?

/-- a string that is not empty -/
def truthy (s : Option String) : Option String := s.filter (· ≠ "")

/-- the `project` of the result; what is logged of an override is left out -/
def reconcileIngestProject (projectId cwd repo : Option String) : Option String :=
  match truthy projectId with
  | none => projectId
  | some project =>
    if plainBasename cwd = some project then
      some (((truthy repo).or (deriveWorktreeSafeBasename cwd)).getD project)
    else some project

/-- `resolved` is `resolveRepoIdentity(cwd)` -/
def deriveRepoFromCwd (resolved cwd : Option String) : Option String := resolved.or (deriveWorktreeSafeBasename cwd)

example : deriveWorktreeSafeBasename (some "/src/repo/.claude/worktrees/agent-1/") = some "repo" := by decide
example : deriveWorktreeSafeBasename (some "C:\\src\\repo-Worktrees\\wt-1") = some "repo" := by decide

end AstramemLocal.Ingest
