import Stylewire.Project.Walk

set_option autoImplicit false

/-! # Scanning a project

A scan runs a build session over the scripts of a project, in the order of their paths, and
tells what the session would change. Scripts above the size limit are only counted, and
those that cannot be read as text are passed over. Only a script without a size, such as a
link that leads nowhere, stops the scan.
-/

namespace Stylewire

/-- A script whose text would change. -/
structure FileChange where
  path : Path
  /-- The text now. -/
  before : Text
  /-- What wiring it leads to. -/
  outcome : Outcome
deriving Repr, DecidableEq

/-- A script with calls whose argument list is never closed. -/
structure MalformedSource where
  path : Path
  /-- The number of such calls. -/
  sites : Nat
deriving Repr, DecidableEq

/-- What a scan tells. -/
structure Scan where
  /-- The scripts whose text would change, in the order of their paths. -/
  files : List FileChange := []
  /-- The stylesheets of all eligible scripts, in the order of their first use. -/
  styles : List Path := []
  /-- The number of scripts that the session was given. -/
  scanned : Nat := 0
  /-- The scripts above the size limit. -/
  oversized : List Path := []
  /-- The number of calls left as they are, in all eligible scripts. -/
  skippedSites : Nat := 0
  /-- The scripts with calls whose argument list is never closed. -/
  malformed : List MalformedSource := []
deriving Repr, DecidableEq

namespace Scan

/-- Whether no script would change. -/
def isClean (s : Scan) : Bool := s.files.isEmpty

/-- The number of calls that would receive the marker. -/
def injectedCount (s : Scan) : Nat :=
  s.files.foldr (fun f n => f.outcome.injected + n) 0

/-- The number of calls whose argument list is never closed. -/
def malformedCount (s : Scan) : Nat := s.malformed.foldr (fun m n => m.sites + n) 0

/-- The number of such calls in the script at a path. -/
def malformedSites (s : Scan) (p : Path) : Nat :=
  match s.malformed.find? fun m => Path.same m.path p with
  | some m => m.sites
  | none => 0

/-- Takes a wired module into account. -/
def addModule (s : Scan) (path : Path) (before : Text) (m : WiredModule) : Scan :=
  let sites := m.outcome.malformedCount
  { s with
    skippedSites := s.skippedSites + m.outcome.skipped.length
    malformed := if 0 < sites then s.malformed ++ [⟨path, sites⟩] else s.malformed
    files := if m.outcome.isChanged then s.files ++ [⟨path, before, m.outcome⟩] else s.files }

/-- Handles the script at a path. -/
def visit (fs : FileTree) (settings : Settings) (state : Session × Scan) (path : Path) :
    Except Error (Session × Scan) :=
  let (session, s) := state
  match fs.size path with
  | .error e => .error (.file e)
  | .ok size =>
      if settings.maxFileSize < size then
        .ok (session, { s with oversized := s.oversized ++ [path] })
      else match fs.readText path with
        | .error _ => .ok (session, s)
        | .ok code =>
            let s := { s with scanned := s.scanned + 1 }
            let resolve := Stylesheet.sibling? settings.extensions fs.isFile
            match session.handle resolve code path with
            | (session, some m) => .ok (session, s.addModule path code m)
            | (session, none) => .ok (session, s)

/-- Scans the project at `root`. -/
def run (fs : FileTree) (root : Path) (settings : Settings) : Except Error Scan := do
  let rules ← settings.rules
  let scripts ← collectScripts fs root settings
  let (session, s) ← scripts.foldlM (visit fs settings) ({ rules }, {})
  return { s with styles := session.styles.paths }

/-- Writes the new texts of some scripts, up to the first that cannot be written. -/
def writeAll (fs : FileTree) : List FileChange → FileTree × Option FileError
  | [] => (fs, none)
  | f :: files =>
      match fs.write f.path f.outcome.code with
      | .ok fs => writeAll fs files
      | .error e => (fs, some e)

/-- Writes the new texts of the scripts that change. -/
def write (s : Scan) (fs : FileTree) : FileTree × Option FileError := writeAll fs s.files

end Scan

end Stylewire
