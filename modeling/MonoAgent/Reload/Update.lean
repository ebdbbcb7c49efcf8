import Mathlib

/-!
# The rollback of one update

Before the pointers of a plugin change, the old pointers and the old enabled state are
saved.  `rollback` checks that the files are in a state the update can have left, writes the
pointers and then the manifest.  Each write is atomic, and the program can die after any.
-/

namespace MonoAgent.Reload

/-- A directory, by the names on its path. -/
abbrev Directory := List String

structure ArtifactPointers where
  stable : Option String
  latest : Option String
deriving DecidableEq

/-- What is read at the path of the pointers. -/
inductive PointerFile where
  | absent
  | pointers (p : ArtifactPointers)
  /-- A JSON object that is not a pair of pointers. -/
  | other
  /-- A link, a directory, or no JSON object. -/
  | unusable
deriving DecidableEq

/-- The files of the plugins. -/
structure Files where
  pointers : Directory → PointerFile
  /-- The manifest of a plugins directory, `none` when it cannot be loaded. -/
  manifest : Directory → Option (String → Option Bool)
  /-- `resolve_pointer` finds an artifact. -/
  artifact : Directory → String → Bool
  /-- Links are followed. -/
  resolve : Directory → Directory

inductive UpdatePhase where
  | armed
  | committed
  | rolledBack
deriving DecidableEq

structure UpdateRollback where
  pluginId : String
  pluginBase : Directory
  previous : Option ArtifactPointers
  candidate : String
  previousEnabled : Option Bool
  phase : UpdatePhase := .armed
  reloadTxId : Option String := none
deriving DecidableEq

def pointerValue : Option ArtifactPointers → PointerFile
  | none => .absent
  | some p => .pointers p

namespace Files

def setPointers (fs : Files) (base : Directory) (p : PointerFile) : Files :=
  { fs with pointers := Function.update fs.pointers base p }

def setManifest (fs : Files) (home : Directory) (entries : String → Option Bool) : Files :=
  { fs with manifest := Function.update fs.manifest home (some entries) }

/-- `_validate_pointers`. -/
def valid (fs : Files) (base : Directory) (p : ArtifactPointers) : Bool :=
  (p.latest.isSome || p.stable.isNone) && p.stable.all (fs.artifact base) && p.latest.all (fs.artifact base)

end Files

/-- `s.rpartition("@")`, `none` without a separator. -/
def rpartition (s : String) : Option (String × String) :=
  match s.toList.reverse.dropWhile (· ≠ '@') with
  | [] => none
  | _ :: rest =>
      some (String.ofList rest.reverse, String.ofList (s.toList.reverse.takeWhile (· ≠ '@')).reverse)

/-- The match of `[A-Za-z0-9][A-Za-z0-9._-]*`. -/
def safeSegment (s : String) : Bool :=
  match s.toList with
  | [] => false
  | c :: rest => c.isAlphanum && rest.all fun c => c.isAlphanum || c = '.' || c = '_' || c = '-'

namespace UpdateRollback

/-- Where the files of a plugin are. -/
def expectedBase (u : UpdateRollback) (home : Directory) (fs : Files) : Option Directory := do
  let (name, marketplace) ← rpartition u.pluginId
  guard (safeSegment name = true ∧ safeSegment marketplace = true)
  some (fs.resolve home ++ ["cache", marketplace, name])

/-- The pointers the update can have left. -/
def accepted (u : UpdateRollback) : List PointerFile :=
  [pointerValue u.previous,
    .pointers ⟨u.previous.bind (·.stable), some u.candidate⟩,
    .pointers ⟨some u.candidate, some u.candidate⟩]

/-- The files after each write of `rollback`, `none` when it refuses. -/
def rollback (u : UpdateRollback) (home : Directory) (fs : Files) : Option (List Files) := do
  guard (u.phase = .armed)
  let base ← u.expectedBase home fs
  guard (u.pluginBase = base ∧ fs.resolve base = base)
  guard (fs.pointers base ∈ u.accepted)
  let entries ← fs.manifest (fs.resolve home)
  guard (entries u.pluginId = u.previousEnabled ∨ entries u.pluginId = some true)
  guard (u.previous.all (fs.valid base) = true)
  let restored := fs.setPointers base (pointerValue u.previous)
  some [restored,
    restored.setManifest (fs.resolve home) (Function.update entries u.pluginId u.previousEnabled)]

end UpdateRollback

example : rpartition "memory@team@local" = some ("memory@team", "local") := by decide

end MonoAgent.Reload
