import Stylewire.Command.Run

set_option autoImplicit false

/-! # The program

Reads the working directory, the project, and what their links lead to into a file tree, runs
the command line on it, writes the files that have changed, and prints. With `--watch` this
is done again whenever the file tree has changed.
-/

namespace Stylewire

/-- The content of a file with the given bytes. -/
def contentOf (bytes : ByteArray) : Content :=
  match String.fromUTF8? bytes with
  | some s => .text s.toList
  | none => .binary bytes.toList

/-- The names on an absolute path. -/
def placeOf (path : String) : List Text :=
  (Text.split '/' path.toList).filter fun part => !part.isEmpty

/-- Reads what is at a path. Adds the real places that links lead to. -/
partial def loadNode (path : String) (links : List String) : IO (Node × List String) := do
  match (← IO.FS.realPath path |>.toBaseIO) with
  | .error _ => return (.link path.toList, links)
  | .ok real =>
      if (← real.isDir) then
        let entries ← real.readDir
        let mut nodes := []
        let mut links := links
        for entry in entries do
          let info ← entry.path.symlinkMetadata
          match info.type with
          | .symlink =>
              match (← IO.FS.realPath entry.path |>.toBaseIO) with
              | .ok target =>
                  nodes := (entry.fileName.toList, .link target.toString.toList) :: nodes
                  links := target.toString :: links
              | .error _ =>
                  nodes := (entry.fileName.toList, .link entry.path.toString.toList) :: nodes
          | _ =>
              let (node, links') ← loadNode entry.path.toString links
              nodes := (entry.fileName.toList, node) :: nodes
              links := links'
        return (.directory nodes.reverse, links)
      else
        let bytes ← (IO.FS.readBinFile real).toBaseIO
        let opened ← (IO.FS.Handle.mk real .append).toBaseIO
        -- Of a file that cannot be read only the size counts.
        let content ← match bytes with
          | .ok bytes => pure (contentOf bytes)
          | .error _ => do
              let info ← real.metadata
              pure (.binary (List.replicate info.byteSize.toNat 0))
        return (.file { content, readable := bytes.isOk, writable := opened.isOk }, links)

/-- Reads what is at the given absolute paths into a file tree, and what links lead to. -/
partial def loadPaths (fs : FileTree) : List String → IO FileTree
  | [] => return fs
  | path :: paths => do
      if (fs.root.at? (placeOf path)).isSome then loadPaths fs paths
      else
        match (← IO.FS.realPath path |>.toBaseIO) with
        | .error _ => loadPaths fs paths
        | .ok real =>
            let (node, links) ← loadNode real.toString []
            let fs := fs.set (placeOf real.toString) (some node)
            let plain := (placeOf path).all fun part => part != ['.'] && part != ['.', '.']
            let fs := if real.toString == path || !plain then fs
              else fs.set (placeOf path) (some (.link real.toString.toList))
            loadPaths fs (links ++ paths)

/-- Reads what a command line can touch into a file tree. -/
def loadTree (args : List String) : IO FileTree := do
  let working := (← IO.currentDir).toString
  let path (p : Path) : String := String.ofList (Path.join working.toList p)
  let named : List String := match Request.ofArguments? args with
    | some (.run i) =>
        let file := match i.command with
          | some (.wire file _ _) => [path file]
          | _ => []
        ((i.path.map path).toList) ++ file
    | _ => []
  loadPaths { root := .directory [], working := placeOf working } (working :: named)

/-- Writes the files that are not the same in two trees. -/
def writeChanges (before after : FileTree) : IO Unit := do
  let all (fs : FileTree) : FileTree := { fs with working := [] }
  for (path, content) in (all after).changedSince (all before) do
    match content with
    | .text t => IO.FS.writeFile ("/" ++ String.ofList path) (String.ofList t)
    | .binary _ => pure ()

/-- The lines that tell a failure. -/
def Failure.report : Failure → String
  | .usage => "error: invalid command line\n\nFor more information, try '--help'.\n"
  | .project e =>
      let advice := match e.advice? with
        | some s => s!"  help: {s}\n"
        | none => ""
      s!"{e.code}\n\n  x {e.message}\n{advice}\n"

/-- Runs a command line once. -/
def runOnce (args : List String) : IO RunResult := do
  let before ← loadTree args
  let color := (← IO.getEnv "NO_COLOR").isNone
  let result := runArguments before color args
  writeChanges before result.tree
  IO.print result.output.out
  IO.eprint result.output.err
  match result.failure with
  | some f => IO.eprint f.report
  | none => pure ()
  return result

/-- Runs a command line whenever the files have changed. -/
partial def watchFrom (args : List String) (doing : String) (last : FileTree) : IO Unit := do
  IO.sleep 200
  let now ← loadTree args
  if (now.changedSince last).isEmpty then watchFrom args doing last
  else
    IO.println s!"\nFile change detected, {doing}..."
    let result ← runOnce args
    watchFrom args doing result.tree

end Stylewire

open Stylewire in
def main (args : List String) : IO UInt32 := do
  let result ← runOnce args
  match result.watching with
  | some doing =>
      IO.println Command.watchingLine
      watchFrom args doing result.tree
      return 0
  | none => return result.exit.toUInt32
