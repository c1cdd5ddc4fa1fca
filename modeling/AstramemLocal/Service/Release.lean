/-
Release directories (`src/service/release.ts`). `materializeRelease` copies what is served out of a checkout into a
temporary directory, hashes it (`computeContentHash`), and keeps the release that stands under the same id when that one
still boots and its manifest records the same hash; otherwise the new directory takes its place (`promote`). SHA-256, the
package manager, the boot check and the version in a `package.json` are parameters. Symbolic links, failing renames and
deletions, and the texts of the errors are left out.
-/
import AstramemLocal.Core.Table
import AstramemLocal.Core.Text
import AstramemLocal.Core.Utf8
import AstramemLocal.Core.Utf16
import Mathlib.Data.List.Lex
import Mathlib.Data.List.Sort

namespace AstramemLocal.Service

open AstramemLocal.Core

/-! ## Directories -/

abbrev Bytes := List UInt8

structure FileName where
  text : String
  plain : text ≠ "" ∧ '/' ∉ text.toList ∧ '\x00' ∉ text.toList := by decide
deriving DecidableEq

/-- `other` is neither a plain file nor a directory -/
inductive Entry where
  | file (bytes : Bytes)
  | directory (entries : List (FileName × Entry))
  | other

/-- no two entries of a directory share a name, at any depth -/
inductive Entry.Distinct : Entry → Prop where
  | file (bytes : Bytes) : Entry.Distinct (.file bytes)
  | directory {entries : List (FileName × Entry)} (hkeyed : Keyed Prod.fst entries) (h : ∀ e ∈ entries, Entry.Distinct e.2) :
      Entry.Distinct (.directory entries)
  | other : Entry.Distinct .other

structure Directory where
  entries : List (FileName × Entry)
  distinct : (Entry.directory entries).Distinct

namespace Directory

def find (dir : Directory) (name : FileName) : Option Entry := (lookup Prod.fst name dir.entries).map Prod.snd

/-- the entries of these names -/
def only (dir : Directory) (names : List FileName) : Directory where
  entries := dir.entries.filter fun e => names.any (· = e.1)
  distinct := by
    cases dir.distinct with
    | directory hkeyed h =>
      refine .directory (hkeyed.sublist (List.filter_sublist.map _)) ?_
      intro e he
      exact h e (List.mem_of_mem_filter he)

end Directory

def distName : FileName := { text := "dist" }

def migrationsName : FileName := { text := "migrations" }

def packageName : FileName := { text := "package.json" }

/-! ## The hash -/

/-- a file that is hashed, under its path from the release's root -/
structure ReleaseFile where
  path : String
  bytes : Bytes
deriving DecidableEq

mutual
/-- the plain files of an entry that stands at `rel` -/
def walk (rel : String) : Entry → List ReleaseFile
  | .file bytes => [⟨rel, bytes⟩]
  | .directory entries => walkEntries rel entries
  | .other => []
def walkEntries (rel : String) : List (FileName × Entry) → List ReleaseFile
  | [] => []
  | (name, entry) :: entries => walk (rel ++ "/" ++ name.text) entry ++ walkEntries rel entries
end

/-- a tree of the release: `readdirSync` throws on what is no directory -/
def walkTop (dir : Directory) (top : FileName) : Option (List ReleaseFile) :=
  match dir.find top with
  | none => some []
  | some (.directory entries) => some (walkEntries top.text entries)
  | some _ => none

def readTop (dir : Directory) (name : FileName) : Option ReleaseFile :=
  match dir.find name with
  | some (.file bytes) => some ⟨name.text, bytes⟩
  | _ => none

/-- the files as they are found -/
def hashedFiles (dir : Directory) (lockfileName : FileName) : Option (List ReleaseFile) := do
  let dist ← walkTop dir distName
  let migrations ← walkTop dir migrationsName
  let package ← readTop dir packageName
  if (dir.find lockfileName).isSome then
    let lockfile ← readTop dir lockfileName
    return dist ++ migrations ++ [package, lockfile]
  else return dist ++ migrations ++ [package]

/-- `Array.prototype.sort` compares paths by code units -/
def pathLe (a b : ReleaseFile) : Prop := codeUnits a.path ≤ codeUnits b.path

instance : DecidableRel pathLe := fun a b => inferInstanceAs (Decidable (codeUnits a.path ≤ codeUnits b.path))

instance : Std.Total pathLe := ⟨fun a b => le_total (codeUnits a.path) (codeUnits b.path)⟩

instance : IsTrans ReleaseFile pathLe := ⟨fun _ _ _ hab hbc => le_trans hab hbc⟩

/-- what a file adds to the hash -/
def fed (f : ReleaseFile) : Bytes := utf8 f.path ++ [0] ++ f.bytes ++ [0]

def hashInput (files : List ReleaseFile) : Bytes := (files.insertionSort pathLe).flatMap fed

/-- none where the source throws -/
def computeContentHash (sha256 : Bytes → String) (dir : Directory) (lockfileName : FileName) : Option String :=
  (hashedFiles dir lockfileName).map fun files => sha256 (hashInput files)

/-! ## Materializing -/

structure ReleaseManifest where
  id : String
  pkgversion : String
  gitsha : String
  createdAt : String
  nodeVersion : String
  /-- absent in a release from before the field -/
  contentHash : Option String
deriving DecidableEq

/-- a directory under the releases' root, with what its `release.json` reads as -/
structure Release where
  id : String
  files : Directory
  manifest : Option ReleaseManifest

structure CapturedRun where
  status : ℤ
  stdout : String
deriving DecidableEq

inductive RebuiltReason where
  | bootFailed (run : CapturedRun) (expected : String)
  | contentDiffers (recorded : Option String) (built : String)
deriving DecidableEq

inductive Outcome where
  | fresh
  | reused
  | rebuilt (reason : RebuiltReason)
deriving DecidableEq

structure MaterializeReleaseResult where
  manifest : ReleaseManifest
  outcome : Outcome
deriving DecidableEq

inductive MaterializeError where
  | distNotFound
  | packageNotFound
  | lockfileNotFound
  | migrationsNotFound
  | notAFile (name : FileName)
  | installFailed (run : CapturedRun)
  | noVersion
  | unreadable
  | bootVerifyFailed (id : String) (run : CapturedRun) (expected : String)
deriving DecidableEq

structure Env where
  /-- the package manager's run in a directory, and what it leaves there -/
  install : Directory → CapturedRun × Directory
  /-- the non-empty string under `version` of a `package.json` -/
  version : Bytes → Option String
  /-- `git rev-parse --short HEAD` in the checkout -/
  revParse : CapturedRun
  /-- `node dist/cli/index.js --version` in a directory -/
  boot : Directory → CapturedRun
  createdAt : String
  nodeVersion : String

def trimmed (s : String) : String := String.ofList (trim s.toList)

def versionMatches (reported expected : String) : Bool :=
  reported = expected || (expected ++ " ").toList.isPrefixOf reported.toList

def resolveGitSha (run : CapturedRun) : String :=
  if run.status = 0 ∧ trimmed run.stdout ≠ "" then trimmed run.stdout else "nogit"

def bootOk (run : CapturedRun) (pkgversion : String) : Bool :=
  run.status = 0 && versionMatches (trimmed run.stdout) pkgversion

/-- is there a `dist/cli/index.js`? -/
def hasEntry (dir : Directory) : Bool :=
  match dir.find distName with
  | some (.directory dist) =>
    match lookup Prod.fst { text := "cli" } dist with
    | some (_, .directory cli) => cli.any (·.1.text = "index.js")
    | _ => false
  | _ => false

def reverify (E : Env) (dir : Directory) : CapturedRun := if hasEntry dir then E.boot dir else ⟨1, ""⟩

/-- why a release is not kept -/
def rebuiltReason (run : CapturedRun) (existing : Release) (pkgversion contentHash : String) : RebuiltReason :=
  if bootOk run pkgversion then .contentDiffers (existing.manifest.bind (·.contentHash)) contentHash
  else .bootFailed run pkgversion

/-- put the new directory under its id, or keep the release that is there -/
def promote (E : Env) (built : Directory) (manifest : ReleaseManifest) (contentHash : String) (root : List Release) :
    MaterializeReleaseResult × List Release :=
  match lookup Release.id manifest.id root with
  | none => (⟨manifest, .fresh⟩, root ++ [⟨manifest.id, built, some manifest⟩])
  | some existing =>
    let run := reverify E existing.files
    match existing.manifest.filter fun m => bootOk run manifest.pkgversion && m.contentHash = some contentHash with
    | some kept => (⟨kept, .reused⟩, root)
    | none =>
      (⟨manifest, .rebuilt (rebuiltReason run existing manifest.pkgversion contentHash)⟩,
        updateWhere (·.id = manifest.id) (fun r => ⟨r.id, built, some manifest⟩) root)

def isFile (dir : Directory) (name : FileName) : Bool := (readTop dir name).isSome

/-- what a checkout has to have -/
def preflight (checkout : Directory) (lockfileName : FileName) : Except MaterializeError Unit := do
  if (checkout.find distName).isNone then throw .distNotFound
  if (checkout.find packageName).isNone then throw .packageNotFound
  if (checkout.find lockfileName).isNone then throw .lockfileNotFound
  if (checkout.find migrationsName).isNone then throw .migrationsNotFound
  if ¬ isFile checkout packageName then throw (.notAFile packageName)
  if ¬ isFile checkout lockfileName then throw (.notAFile lockfileName)

/-- copy what is served, and install its packages there -/
def installCopy (E : Env) (checkout : Directory) (lockfileName : FileName) : Except MaterializeError Directory :=
  let (run, built) := E.install (checkout.only [distName, migrationsName, packageName, lockfileName])
  if run.status = 0 then .ok built else .error (.installFailed run)

/-- the manifest of a directory that was built, with its hash -/
def describe (sha256 : Bytes → String) (E : Env) (built : Directory) (lockfileName : FileName) :
    Except MaterializeError (ReleaseManifest × String) :=
  match (readTop built packageName).bind fun f => E.version f.bytes with
  | none => .error .noVersion
  | some pkgversion =>
    match computeContentHash sha256 built lockfileName with
    | none => .error .unreadable
    | some contentHash =>
      let gitsha := resolveGitSha E.revParse
      .ok (⟨pkgversion ++ "+" ++ gitsha, pkgversion, gitsha, E.createdAt, E.nodeVersion, some contentHash⟩, contentHash)

def bootVerify (E : Env) (built : Directory) (manifest : ReleaseManifest) : Except MaterializeError Unit :=
  let run := E.boot built
  if bootOk run manifest.pkgversion then .ok () else .error (.bootVerifyFailed manifest.id run manifest.pkgversion)

/-- the directory that is built out of a checkout -/
def build (sha256 : Bytes → String) (E : Env) (checkout : Directory) (lockfileName : FileName) :
    Except MaterializeError (Directory × ReleaseManifest × String) := do
  preflight checkout lockfileName
  let built ← installCopy E checkout lockfileName
  let (manifest, contentHash) ← describe sha256 E built lockfileName
  bootVerify E built manifest
  return (built, manifest, contentHash)

/-- an error leaves the releases as they are -/
def materializeRelease (sha256 : Bytes → String) (E : Env) (checkout : Directory) (lockfileName : FileName)
    (root : List Release) : Except MaterializeError (MaterializeReleaseResult × List Release) := do
  let (built, manifest, contentHash) ← build sha256 E checkout lockfileName
  return promote E built manifest contentHash root

end AstramemLocal.Service
