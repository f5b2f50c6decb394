import Stylewire.IgnoreRule
import Stylewire.Settings

set_option autoImplicit false

/-! # Walking a project

The walk goes through the directories of a project, links to directories included, and
collects the scripts. It leaves out hidden entries, those of a few names, those the ignore
rules name, and projects inside the project. It fails when it comes to a real directory for
the second time.

Each step enters a real directory not entered before, or goes on to the next directory that
waits. So the walk ends: there are only finitely many real directories in a file tree.
-/

namespace Stylewire

/-! ## The real directories of a tree -/

mutual

/-- The real places of the directories below a node, the node itself included. -/
def Node.directories : Node → List (List Text)
  | .directory entries => [] :: directoriesOfEntries entries
  | .file _ | .link _ => []

/-- The real places of the directories below a list of entries. -/
def directoriesOfEntries : List (Text × Node) → List (List Text)
  | [] => []
  | (name, node) :: entries =>
      node.directories.map (name :: ·) ++ directoriesOfEntries entries

end

/-- The directories below an entry are among those below the list it stands in. -/
theorem mem_directoriesOfEntries {entries : List (Text × Node)} {name : Text} {node : Node}
    {place : List Text} (h : (name, node) ∈ entries) (hp : place ∈ node.directories) :
    name :: place ∈ directoriesOfEntries entries := by
  induction entries with
  | nil => cases h
  | cons e entries ih =>
      rw [directoriesOfEntries, List.mem_append]
      rcases List.mem_cons.1 h with h | h
      · subst h
        exact Or.inl (List.mem_map.2 ⟨place, hp, rfl⟩)
      · exact Or.inr (ih h)

/-- Every real place that holds a directory is among the directories of the tree. -/
theorem mem_directories_of_at? {node : Node} {place : List Text}
    {entries : List (Text × Node)} (h : node.at? place = some (.directory entries)) :
    place ∈ node.directories := by
  induction place generalizing node with
  | nil =>
      obtain rfl : node = .directory entries := by simpa [Node.at?] using h
      simp [Node.directories]
  | cons name place ih =>
      obtain ⟨child, hc, hp⟩ := Option.bind_eq_some_iff.1 h
      cases node with
      | file c => simp [Node.child?] at hc
      | link t => simp [Node.child?] at hc
      | directory es =>
          obtain ⟨⟨n, c⟩, hf, rfl⟩ := Option.map_eq_some_iff.1 hc
          have hn : n = name := by simpa using List.find?_some hf
          subst hn
          rw [Node.directories]
          exact List.mem_cons_of_mem _
            (mem_directoriesOfEntries (List.mem_of_find?_eq_some hf) (ih hp))

/-- The real directories of a tree that have not been entered. -/
def FileTree.unvisited (fs : FileTree) (visited : List (List Text)) : List (List Text) :=
  fs.root.directories.filter (!visited.contains ·)

/-- Entering a directory for the first time leaves fewer that have not been entered. -/
theorem FileTree.unvisited_length_lt (fs : FileTree) {visited : List (List Text)}
    {place : List Text} (hp : place ∈ fs.root.directories)
    (hv : visited.contains place = false) :
    (fs.unvisited (place :: visited)).length < (fs.unvisited visited).length := by
  have hsub : fs.unvisited (place :: visited) =
      (fs.unvisited visited).filter (fun q => !(q == place)) := by
    simp only [unvisited, List.filter_filter, List.contains_cons, Bool.not_or]
  rw [hsub]
  refine List.length_filter_lt_length_iff_exists.2 ⟨place, ?_, by simp⟩
  exact List.mem_filter.2 ⟨hp, by rw [hv]; rfl⟩

/-- What a path resolves to stands at the real place. -/
theorem FileTree.at?_of_resolve {fs : FileTree} {p : Path} {place : List Text} {node : Node}
    (h : fs.resolve p = .ok (place, node)) : fs.root.at? place = some node := by
  unfold FileTree.resolve at h
  cases ht : fs.target p with
  | error e => rw [ht] at h; cases h
  | ok q =>
      rw [ht] at h
      simp only [bind, Except.bind] at h
      split at h
      · rename_i n hn
        cases h
        exact hn
      · cases h

/-! ## The walk -/

/-- Whether an entry is left out for its name: hidden entries, installed packages and build
results. -/
def isSkippedName (name : Text) : Bool :=
  name.head? == some '.' || name == "node_modules".toList || name == "target".toList ||
    name == "dist".toList

/-- A directory that waits to be entered, and whether it is the root of the project. -/
structure Pending where
  path : Path
  isRoot : Bool

/-- The paths of the entries of a directory that count, each with whether it is a
directory. -/
def countedEntries (fs : FileTree) (ignored : Path → Bool → Bool) (dir : Path)
    (entries : List (Text × Node)) : List (Path × Bool) :=
  ((entries.filter fun e => !isSkippedName e.1).map fun e =>
    let p := Path.join dir e.1
    (p, fs.isDirectory p)).filter fun (p, isDirectory) => !ignored p isDirectory

/-- The directories to enter from a directory. A project inside the project is not entered,
unless it lies directly in the root. -/
def subdirectories (fs : FileTree) (isRoot : Bool) (counted : List (Path × Bool)) :
    List Pending :=
  (counted.filter fun (p, isDirectory) =>
    isDirectory && (isRoot || (Settings.file? fs p).isNone)).map fun (p, _) => ⟨p, false⟩

/-- The scripts of a directory. -/
def scriptsOf (counted : List (Path × Bool)) : List Path :=
  (counted.filter fun (p, isDirectory) => !isDirectory && isScript p).map Prod.fst

/-- Walks through the directories that wait. `visited` are the real directories entered so
far, and `found` the scripts found so far. Every directory of a file tree has a real place, so no
directory has to be told from others by its path as written. -/
def walkFrom (fs : FileTree) (ignored : Path → Bool → Bool) (pending : List Pending)
    (visited : List (List Text)) (found : List Path) : Except Error (List Path) :=
  match pending with
  | [] => .ok found
  | dir :: pending =>
      match h : fs.resolve dir.path with
      | .ok (place, .directory entries) =>
          if hv : visited.contains place = true then .error (.linkCycle dir.path)
          else
            have : (fs.unvisited (place :: visited)).length < (fs.unvisited visited).length :=
              fs.unvisited_length_lt (mem_directories_of_at? (FileTree.at?_of_resolve h))
                (by simpa using hv)
            let counted := countedEntries fs ignored dir.path entries
            walkFrom fs ignored (subdirectories fs dir.isRoot counted ++ pending)
              (place :: visited) (found ++ scriptsOf counted)
      | _ => walkFrom fs ignored pending visited found
termination_by ((fs.unvisited visited).length, pending.length)

/-- The scripts of the project at `root`, in the order of their paths. -/
def collectScripts (fs : FileTree) (root : Path) (settings : Settings) :
    Except Error (List Path) := do
  let ignoreFile : IgnoreRules :=
    if settings.disableIgnoreFile then ⟨root, []⟩ else .load fs root
  let exclude ← IgnoreRules.ofPatterns root settings.exclude
  let ignored (p : Path) (isDirectory : Bool) : Bool :=
    ignoreFile.ignores p isDirectory || exclude.ignores p isDirectory
  let found ← walkFrom fs ignored [⟨root, true⟩] [] []
  return found.mergeSort Path.le

end Stylewire
