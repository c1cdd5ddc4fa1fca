/-
Names from a working directory: `src/pipeline/cwd-basename.ts`, `src/pipeline/derive-project.ts` and
`src/tag-hygiene/derive-repo.ts`, with the resolver of `repo-identity-backfill.ts`. What git answers for a directory is a
parameter. `resolveColumnIdentity_trusted`: without an answer of git only a worktree of the two known layouts has a name.
-/
import AstramemLocal.Core.Text
import Mathlib.Data.List.DropRight

namespace AstramemLocal.TagHygiene

open AstramemLocal.Core

/-! ## `cwd-basename.ts` -/

/-- `[\\/]` -/
def isPathSeparator (c : Char) : Bool := c.toNat = 0x2f || c.toNat = 0x5c

/-- the segments of a path without its trailing separators, the empty ones left out, the last first -/
def reversedSegments (cwd : String) : List (List Char) :=
  (((cwd.toList.rdropWhile isPathSeparator).splitOnP isPathSeparator).filter (· ≠ [])).reverse

/-- `/^(.+)-worktrees$/i` and its group -/
def worktreesParent (parent : List Char) : Option (List Char) :=
  let name := parent.take (parent.length - "-worktrees".length)
  let suffix := parent.drop (parent.length - "-worktrees".length)
  if name ≠ [] ∧ name.all isDot ∧ suffix.map Char.toLower = "-worktrees".toList then some name else none

/-- `<repo>/.claude/worktrees/<x>` -/
def nestedWorktree : List (List Char) → Option (List Char)
  | _ :: worktrees :: claude :: repo :: _ =>
    if claude = ".claude".toList ∧ worktrees = "worktrees".toList then some repo else none
  | _ => none

/-- `<repo>-worktrees/<x>` -/
def siblingWorktree : List (List Char) → Option (List Char)
  | _ :: parent :: _ => worktreesParent parent
  | _ => none

def deriveWorktreeSafeBasename (cwd : Option String) : Option String :=
  let segments := reversedSegments (cwd.getD "")
  (((nestedWorktree segments).or (siblingWorktree segments)).or segments.head?).map String.ofList

/-! ## `derive-project.ts`, `derive-repo.ts` -/

/-- what `git rev-parse --git-common-dir`, or else the origin remote, says of a directory -/
structure GitAnswers where
  repoOf : String → Option String

variable (G : GitAnswers)

def resolveRepoIdentity (cwd : Option String) : Option String :=
  (cwd.filter fun cwd => trim cwd.toList ≠ []).bind G.repoOf

def deriveRepoFromCwd (cwd : Option String) : Option String :=
  (resolveRepoIdentity G cwd).or (deriveWorktreeSafeBasename cwd)

def deriveProject (cwd repo : Option String) : Option String :=
  (repo.filter (· ≠ "")).or (deriveWorktreeSafeBasename cwd)

/-! ## The resolver of `repo-identity-backfill.ts` -/

def isTrustedWorktreeCwdShape (cwd : String) : Bool :=
  (nestedWorktree (reversedSegments cwd)).isSome || (siblingWorktree (reversedSegments cwd)).isSome

inductive RepoIdentityBackfillSource where
  | gitCommonDir | stringHeuristic
deriving DecidableEq, Repr

structure ResolvedColumnIdentity where
  value : String
  source : RepoIdentityBackfillSource
deriving DecidableEq, Repr

def resolveColumnIdentity (cwd : String) : Option ResolvedColumnIdentity :=
  match (resolveRepoIdentity G (some cwd)).filter (· ≠ "") with
  | some gitResolved => some ⟨gitResolved, .gitCommonDir⟩
  | none =>
    if isTrustedWorktreeCwdShape cwd then
      ((deriveWorktreeSafeBasename (some cwd)).filter (· ≠ "")).map fun stringResolved => ⟨stringResolved, .stringHeuristic⟩
    else none

def redactCwd (cwd resolvedValue : Option String) : Option String :=
  (resolvedValue.filter (· ≠ "")).or (((reversedSegments (cwd.getD "")).head?).map String.ofList)

variable {G}

/-- a name is never empty, so the caller's `!resolvedValue` says that there is none -/
theorem resolveColumnIdentity_ne {cwd : String} {r : ResolvedColumnIdentity} (h : resolveColumnIdentity G cwd = some r) :
    r.value ≠ "" := by
  unfold resolveColumnIdentity at h
  split at h
  next gitResolved hgit =>
    obtain rfl := Option.some.inj h
    simpa using (Option.filter_eq_some_iff.1 hgit).2
  next =>
    split at h
    · obtain ⟨name, hname, rfl⟩ := Option.map_eq_some_iff.1 h
      simpa using (Option.filter_eq_some_iff.1 hname).2
    · cases h

/-- **Trust.** A name that git did not give is that of the repository a worktree of the two known layouts stands in. -/
theorem resolveColumnIdentity_trusted {cwd : String} {r : ResolvedColumnIdentity}
    (h : resolveColumnIdentity G cwd = some r) (hsource : r.source = .stringHeuristic) :
    ∃ name, (nestedWorktree (reversedSegments cwd) = some name ∨ siblingWorktree (reversedSegments cwd) = some name) ∧
      r.value = String.ofList name := by
  unfold resolveColumnIdentity at h
  split at h
  next =>
    obtain rfl := Option.some.inj h
    cases hsource
  next =>
    split at h
    next htrusted =>
      obtain ⟨value, hvalue, rfl⟩ := Option.map_eq_some_iff.1 h
      have hname := (Option.filter_eq_some_iff.1 hvalue).1
      unfold deriveWorktreeSafeBasename at hname
      obtain ⟨name, hfound, rfl⟩ := Option.map_eq_some_iff.1 hname
      refine ⟨name, ?_, rfl⟩
      unfold isTrustedWorktreeCwdShape at htrusted
      rw [Option.getD_some] at hfound
      cases hnested : nestedWorktree (reversedSegments cwd) with
      | some repo =>
        rw [hnested] at hfound
        exact .inl hfound
      | none =>
        cases hsibling : siblingWorktree (reversedSegments cwd) with
        | some repo =>
          rw [hnested, hsibling] at hfound
          exact .inr hfound
        | none => simp [hnested, hsibling] at htrusted
    next => cases h

end AstramemLocal.TagHygiene
