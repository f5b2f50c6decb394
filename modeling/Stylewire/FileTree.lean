import Stylewire.Error
import Stylewire.Path

set_option autoImplicit false

/-! # File trees

A file tree is a whole file system as a value: directories list their entries in some order,
files have contents, and links lead to other paths. Paths that are not absolute start at the
working directory.

A file may be closed to reading or to writing; its size is known all the same. Directories have no
such rights here: every directory can be listed, and files can be made in it.

`resolve` follows a path to the real place it leads to, through all links, and gives up
after forty of them. A path has fewer than 4096 bytes and a name at most 255; only paths that
keep to this lead anywhere. A real place is written as the list of names from the root, so two
paths lead to the same file or directory exactly when they resolve to the same list.
-/

namespace Stylewire

/-- The content of a file: text, or bytes that are not the UTF-8 form of any text. -/
inductive Content
  | text (t : Text)
  | binary (bytes : List UInt8)
deriving Repr, DecidableEq

/-- The number of bytes of a content. -/
def Content.byteSize : Content → Nat
  | text t => t.byteSize
  | binary bytes => bytes.length

/-- A file: its content, and what the program may do with it. -/
structure File where
  content : Content
  readable : Bool := true
  writable : Bool := true
deriving Repr, DecidableEq

/-- A file, a directory with its entries, or a link to another path. -/
inductive Node
  | file (file : File)
  | directory (entries : List (Text × Node))
  | link (target : Path)

/-- The entry with the given name. -/
def Node.child? : Node → Text → Option Node
  | directory entries, n => (entries.find? fun e => e.1 == n).map Prod.snd
  | _, _ => none

/-- The node at the end of a list of names. Links are not followed. -/
def Node.at? (node : Node) : List Text → Option Node
  | [] => some node
  | n :: names => (node.child? n).bind fun c => c.at? names

/-- A file system: what the root directory holds, and the working directory. -/
structure FileTree where
  root : Node
  working : List Text

namespace FileTree

/-! ## Following paths -/

/-- The most bytes of a name. -/
def maxNameBytes : Nat := 255

/-- The most bytes of a path. -/
def maxPathBytes : Nat := 4095

/-- Follows the parts of a path from the real place `place`, through at most `links` links.
The last name need not exist. -/
def follow (fs : FileTree) (links : Nat) (place : List Text) (parts : List Text) :
    Except FileError (List Text) :=
  match parts with
  | [] => .ok place
  | part :: rest =>
      if Path.isVoidPart part then follow fs links place rest
      else if part = ['.', '.'] then follow fs links place.dropLast rest
      else if maxNameBytes < part.byteSize then .error .nameTooLong
      else
        match fs.root.at? (place ++ [part]) with
        | none => if rest.isEmpty then .ok (place ++ [part]) else .error .notFound
        | some (.directory _) => follow fs links (place ++ [part]) rest
        | some (.file _) =>
            if rest.isEmpty then .ok (place ++ [part]) else .error .notDirectory
        | some (.link target) =>
            match links with
            | 0 => .error .linkLoop
            | links + 1 =>
                follow fs links (if Path.isAbsolute target then [] else place)
                  (Text.split '/' target ++ rest)
termination_by (links, parts.length)

/-- The real place a path leads to. The last name need not exist. -/
def target (fs : FileTree) (p : Path) : Except FileError (List Text) :=
  if p.isEmpty then .error .notFound
  else if maxPathBytes < p.byteSize then .error .nameTooLong
  else fs.follow 40 (if Path.isAbsolute p then [] else fs.working) (Text.split '/' p)

/-- The real place of what a path leads to, and the file or directory there. -/
def resolve (fs : FileTree) (p : Path) : Except FileError (List Text × Node) := do
  let place ← fs.target p
  match fs.root.at? place with
  | some node => return (place, node)
  | none => throw .notFound

/-! ## Looking -/

/-- Whether a path leads to a file. -/
def isFile (fs : FileTree) (p : Path) : Bool :=
  match fs.resolve p with
  | .ok (_, .file _) => true
  | _ => false

/-- Whether a path leads to a directory. -/
def isDirectory (fs : FileTree) (p : Path) : Bool :=
  match fs.resolve p with
  | .ok (_, .directory _) => true
  | _ => false

/-- The file a path leads to. -/
def file (fs : FileTree) (p : Path) : Except FileError File := do
  match (← fs.resolve p).2 with
  | .file file => return file
  | _ => throw .isDirectory

/-- The number of bytes of the file a path leads to. The file need not be readable. -/
def size (fs : FileTree) (p : Path) : Except FileError Nat := do
  return (← fs.file p).content.byteSize

/-- The content of the file a path leads to. -/
def read (fs : FileTree) (p : Path) : Except FileError Content := do
  let file ← fs.file p
  if file.readable then return file.content else throw .permissionDenied

/-- The text of the file a path leads to. -/
def readText (fs : FileTree) (p : Path) : Except FileError Text := do
  match (← fs.read p) with
  | .text t => return t
  | .binary _ => throw .notText

/-! ## Changing -/

/-- Puts a node, or nothing, into a list of entries under a name; a new name comes last. -/
def setEntry (name : Text) (node : Option Node) : List (Text × Node) → List (Text × Node)
  | [] => match node with
    | some n => [(name, n)]
    | none => []
  | e :: entries =>
      if e.1 = name then match node with
        | some n => (name, n) :: entries
        | none => entries
      else e :: setEntry name node entries

/-- Puts a node, or nothing, at a real place. Directories on the way are made, and a file or
link on the way makes room for a directory. -/
def setNode (node : Option Node) : (place : List Text) → Node → Node
  | [], here => node.getD here
  | name :: place, here =>
      let entries := match here with
        | .directory entries => entries
        | _ => []
      match place with
      | [] => .directory (setEntry name node entries)
      | _ :: _ =>
          let child := ((entries.find? fun e => e.1 == name).map Prod.snd).getD (.directory [])
          .directory (setEntry name (some (setNode node place child)) entries)

/-- The tree with a node, or nothing, at a real place. -/
def set (fs : FileTree) (place : List Text) (node : Option Node) : FileTree :=
  { fs with root := setNode node place fs.root }

/-- Writes the file a path leads to, which keeps its rights. The file is made if its directory
exists. -/
def writeContent (fs : FileTree) (p : Path) (content : Content) : Except FileError FileTree := do
  let place ← fs.target p
  match fs.root.at? place with
  | some (.directory _) => throw .isDirectory
  | some (.file file) =>
      if file.writable then return fs.set place (some (.file { file with content }))
      else throw .permissionDenied
  | _ => return fs.set place (some (.file { content }))

/-- Writes a text to the file a path leads to. -/
def write (fs : FileTree) (p : Path) (t : Text) : Except FileError FileTree :=
  fs.writeContent p (.text t)

/-- Puts a node, or nothing, in the place of what the path itself names; a link is replaced,
not followed. -/
def replace (fs : FileTree) (p : Path) (node : Option Node) : Except FileError FileTree := do
  match Path.fileName? p with
  | none => throw .notFound
  | some name =>
      let dir := (Path.parent? p).getD []
      let place ← fs.target (if dir.isEmpty then ['.'] else dir)
      return fs.set (place ++ [name]) node

end FileTree

/-! ## Listing -/

mutual

/-- The files below a node, links not followed, each with its names from there. -/
def Node.files : Node → List (List Text × Content)
  | .file file => [([], file.content)]
  | .directory entries => filesOfEntries entries
  | .link _ => []

/-- The files below a list of entries. -/
def filesOfEntries : List (Text × Node) → List (List Text × Content)
  | [] => []
  | (name, node) :: entries =>
      (node.files.map fun (names, content) => (name :: names, content)) ++ filesOfEntries entries

end

/-- The files below the working directory, with their paths relative to it. -/
def FileTree.workingFiles (fs : FileTree) : List (Path × Content) :=
  match fs.root.at? fs.working with
  | some node => node.files.map fun (names, content) => (Text.join ['/'] names, content)
  | none => []

/-- The files below the working directory that are not the same in an earlier tree. -/
def FileTree.changedSince (fs earlier : FileTree) : List (Path × Content) :=
  let before := earlier.workingFiles
  fs.workingFiles.filter fun (p, content) =>
    (before.find? fun e => e.1 == p).map Prod.snd != some content

end Stylewire
