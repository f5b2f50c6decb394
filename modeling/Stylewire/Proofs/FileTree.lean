import Stylewire.FileTree
import Stylewire.Proofs.ByteText

set_option autoImplicit false

/-! # Writing files that are there

Writing a file that exists changes nothing but its content. The *shape* of a tree is what is
left of it when the contents are forgotten. Where a path leads depends on the kinds of the
nodes alone (`SameKinds.target_congr`), and so does whether there is a file or a directory
(`SameKinds.isFile_congr`, `SameKinds.isDirectory_congr`); trees of one shape have nodes of the
same kinds. Writing succeeds if the file may be written; it keeps the shape and changes one
content (`write_spec`).

A node is *proper* if the names below it can stand in paths, and *regular* if moreover there are
no links below it. A path is regular if it leads to a regular node; it may go through links to get
there. An entry of a directory on a regular path lies at the place of the directory with its name
behind it (`RegularAt.target_join`), so different entries are different files.
-/

namespace Stylewire

/-- A file with a text, that may be read and written. -/
def File.text (t : Text) : File := { content := .text t }

/-! ## Shapes -/

mutual

/-- The node with all contents forgotten. -/
def Node.shape : Node → Node
  | .file file => .file { file with content := .text [] }
  | .directory entries => .directory (shapeOfEntries entries)
  | .link target => .link target

/-- The entries with all contents forgotten. -/
def shapeOfEntries : List (Text × Node) → List (Text × Node)
  | [] => []
  | (name, node) :: entries => (name, node.shape) :: shapeOfEntries entries

end

theorem map_fst_shapeOfEntries (entries : List (Text × Node)) :
    (shapeOfEntries entries).map Prod.fst = entries.map Prod.fst := by
  induction entries with
  | nil => rfl
  | cons e entries ih =>
      rw [shapeOfEntries, List.map_cons, List.map_cons, ih]

theorem find?_shapeOfEntries (entries : List (Text × Node)) (n : Text) :
    (shapeOfEntries entries).find? (fun e => e.1 == n) =
      (entries.find? fun e => e.1 == n).map fun e => (e.1, e.2.shape) := by
  induction entries with
  | nil => rfl
  | cons e entries ih =>
      rw [shapeOfEntries, List.find?_cons, List.find?_cons]
      cases e.1 == n with
      | true => rfl
      | false => exact ih

theorem child?_shape (node : Node) (n : Text) :
    node.shape.child? n = (node.child? n).map Node.shape := by
  cases node with
  | file c => rfl
  | link t => rfl
  | directory entries =>
      rw [Node.shape, Node.child?, Node.child?, find?_shapeOfEntries, Option.map_map,
        Option.map_map]
      rfl

theorem at?_shape (node : Node) (place : List Text) :
    node.shape.at? place = (node.at? place).map Node.shape := by
  induction place generalizing node with
  | nil => rfl
  | cons n place ih =>
      rw [Node.at?, Node.at?, child?_shape]
      cases node.child? n with
      | none => rfl
      | some c => exact ih c

theorem at?_append (node : Node) (place rest : List Text) :
    node.at? (place ++ rest) = (node.at? place).bind fun n => n.at? rest := by
  induction place generalizing node with
  | nil => rfl
  | cons n place ih =>
      rw [List.cons_append, Node.at?, Node.at?]
      cases node.child? n with
      | none => rfl
      | some c => exact ih c

/-! ## Kinds of nodes -/

/-- What a path needs to know of a node to lead on from there. -/
inductive Kind
  | file
  | directory
  | link (target : Path)
deriving Repr, DecidableEq

/-- The kind of a node. -/
def Node.kind : Node → Kind
  | .file _ => .file
  | .directory _ => .directory
  | .link target => .link target

theorem kind_shape (node : Node) : node.shape.kind = node.kind := by
  cases node with
  | file c => rfl
  | directory entries =>
      rw [Node.shape]
      rfl
  | link t => rfl

namespace FileTree

/-- At a name the path goes on from what stands there. -/
theorem follow_cons_of_name {fs : FileTree} {links : Nat} {place rest : List Text} {part : Text}
    (hvoid : ¬ Path.isVoidPart part = true) (hup : ¬ part = ['.', '.'])
    (hlong : ¬ maxNameBytes < part.byteSize) :
    fs.follow links place (part :: rest) =
      match fs.root.at? (place ++ [part]) with
      | none => if rest.isEmpty then .ok (place ++ [part]) else .error .notFound
      | some (.directory _) => fs.follow links (place ++ [part]) rest
      | some (.file _) => if rest.isEmpty then .ok (place ++ [part]) else .error .notDirectory
      | some (.link t) =>
          match links with
          | 0 => .error .linkLoop
          | links + 1 =>
              fs.follow links (if Path.isAbsolute t then [] else place)
                (Text.split '/' t ++ rest) := by
  rw [follow]
  exact (if_neg hvoid).trans ((if_neg hup).trans (if_neg hlong))

/-- At every place the two trees have nodes of the same kind, or none. -/
structure SameKinds (fs fs' : FileTree) : Prop where
  kind : ∀ place, (fs.root.at? place).map Node.kind = (fs'.root.at? place).map Node.kind
  working : fs.working = fs'.working

namespace SameKinds

theorem symm {fs fs' : FileTree} (h : SameKinds fs fs') : SameKinds fs' fs :=
  ⟨fun place => (h.kind place).symm, h.working.symm⟩

variable {fs fs' : FileTree} (h : SameKinds fs fs')

include h

theorem at?_none {place : List Text} (hn : fs.root.at? place = none) :
    fs'.root.at? place = none := by
  have heq := h.kind place
  rw [hn, Option.map_none] at heq
  exact Option.map_eq_none_iff.1 heq.symm

theorem exists_at? {place : List Text} {node : Node} (hn : fs.root.at? place = some node) :
    ∃ node', fs'.root.at? place = some node' ∧ node'.kind = node.kind := by
  have heq := h.kind place
  rw [hn, Option.map_some, eq_comm] at heq
  exact Option.map_eq_some_iff.1 heq

theorem at?_file {place : List Text} {f : File} (hn : fs.root.at? place = some (.file f)) :
    ∃ f', fs'.root.at? place = some (.file f') := by
  obtain ⟨node, hnode, hkind⟩ := h.exists_at? hn
  cases node with
  | file f' => exact ⟨f', hnode⟩
  | directory es => cases hkind
  | link t => cases hkind

theorem at?_directory {place : List Text} {entries : List (Text × Node)}
    (hn : fs.root.at? place = some (.directory entries)) :
    ∃ entries', fs'.root.at? place = some (.directory entries') := by
  obtain ⟨node, hnode, hkind⟩ := h.exists_at? hn
  cases node with
  | file c' => cases hkind
  | directory es => exact ⟨es, hnode⟩
  | link t => cases hkind

theorem at?_link {place : List Text} {t : Path} (hn : fs.root.at? place = some (.link t)) :
    fs'.root.at? place = some (.link t) := by
  obtain ⟨node, hnode, hkind⟩ := h.exists_at? hn
  cases node with
  | file c' => cases hkind
  | directory es => cases hkind
  | link t' =>
      obtain rfl : t' = t := Kind.link.inj hkind
      exact hnode

/-- Where a path leads is the same in both trees. -/
theorem follow_congr (links : Nat) (place parts : List Text) :
    fs.follow links place parts = fs'.follow links place parts := by
  fun_induction FileTree.follow fs links place parts with
  | case1 links place => rw [follow]
  | case2 links place part rest hvoid ih => rw [follow, if_pos hvoid, ih]
  | case3 links place rest hvoid ih => rw [follow, if_neg hvoid, if_pos rfl, ih]
  | case4 links place part rest hvoid hup hlong =>
      rw [follow, if_neg hvoid, if_neg hup, if_pos hlong]
  | case5 links place part rest hvoid hup hlong hat hrest =>
      rw [follow_cons_of_name hvoid hup hlong]
      simp only [h.at?_none hat, hrest, if_true]
  | case6 links place part rest hvoid hup hlong hat hrest =>
      rw [follow_cons_of_name hvoid hup hlong]
      simp only [h.at?_none hat, if_neg hrest]
  | case7 links place part rest hvoid hup hlong entries hat ih =>
      obtain ⟨entries', hat'⟩ := h.at?_directory hat
      rw [ih]
      conv => rhs; rw [follow_cons_of_name hvoid hup hlong]
      simp only [hat']
  | case8 links place part rest hvoid hup hlong c hat hrest =>
      obtain ⟨c', hat'⟩ := h.at?_file hat
      rw [follow_cons_of_name hvoid hup hlong]
      simp only [hat', hrest, if_true]
  | case9 links place part rest hvoid hup hlong c hat hrest =>
      obtain ⟨c', hat'⟩ := h.at?_file hat
      rw [follow_cons_of_name hvoid hup hlong]
      simp only [hat', if_neg hrest]
  | case10 place part rest hvoid hup hlong t hat =>
      rw [follow_cons_of_name hvoid hup hlong]
      simp only [h.at?_link hat]
  | case11 place part rest hvoid hup hlong t hat links ih =>
      conv => rhs; rw [follow_cons_of_name hvoid hup hlong]
      simp only [h.at?_link hat]
      exact ih

theorem target_congr (p : Path) : fs.target p = fs'.target p := by
  unfold target
  rw [h.working, h.follow_congr]

end SameKinds

/-- The two trees differ in the contents of their files only. -/
structure SameShape (fs fs' : FileTree) : Prop where
  shape : fs.root.shape = fs'.root.shape
  working : fs.working = fs'.working

namespace SameShape

theorem refl (fs : FileTree) : SameShape fs fs := ⟨rfl, rfl⟩

theorem trans {fs fs' fs'' : FileTree} (h : SameShape fs fs') (h' : SameShape fs' fs'') :
    SameShape fs fs'' := ⟨h.shape.trans h'.shape, h.working.trans h'.working⟩

theorem symm {fs fs' : FileTree} (h : SameShape fs fs') : SameShape fs' fs :=
  ⟨h.shape.symm, h.working.symm⟩

variable {fs fs' : FileTree} (h : SameShape fs fs')

include h

theorem at?_eq (place : List Text) :
    (fs.root.at? place).map Node.shape = (fs'.root.at? place).map Node.shape := by
  rw [← at?_shape, ← at?_shape, h.shape]

theorem sameKinds : SameKinds fs fs' := by
  refine ⟨fun place => ?_, h.working⟩
  have hkind : Node.kind = Node.kind ∘ Node.shape := funext fun n => (kind_shape n).symm
  rw [hkind, ← Option.map_map, ← Option.map_map, h.at?_eq]

theorem at?_directory {place : List Text} {entries : List (Text × Node)}
    (hn : fs.root.at? place = some (.directory entries)) :
    ∃ entries', fs'.root.at? place = some (.directory entries') ∧
      entries'.map Prod.fst = entries.map Prod.fst := by
  obtain ⟨entries', hn'⟩ := h.sameKinds.at?_directory hn
  have hshape := h.at?_eq place
  rw [hn, hn', Option.map_some, Option.map_some, Node.shape, Node.shape] at hshape
  refine ⟨entries', hn', ?_⟩
  rw [← map_fst_shapeOfEntries, ← map_fst_shapeOfEntries entries,
    Node.directory.inj (Option.some.inj hshape)]

theorem target_congr (p : Path) : fs.target p = fs'.target p := h.sameKinds.target_congr p

end SameShape

/-! ## What a path leads to -/

/-- The file at a place. -/
def fileAt? (fs : FileTree) (place : List Text) : Option File :=
  match fs.root.at? place with
  | some (.file f) => some f
  | _ => none

/-- The content of the file at a place. -/
def content? (fs : FileTree) (place : List Text) : Option Content :=
  (fs.fileAt? place).map File.content

theorem fileAt?_eq_some_iff {fs : FileTree} {place : List Text} {f : File} :
    fs.fileAt? place = some f ↔ fs.root.at? place = some (.file f) := by
  unfold fileAt?
  split
  · rename_i f' hat
    rw [hat]
    simp
  · rename_i hno
    simp only [reduceCtorEq, false_iff]
    exact hno f

theorem resolve_eq_ok_iff {fs : FileTree} {p : Path} {place : List Text} {node : Node} :
    fs.resolve p = .ok (place, node) ↔
      fs.target p = .ok place ∧ fs.root.at? place = some node := by
  unfold resolve
  cases fs.target p with
  | error e => simp [bind, Except.bind]
  | ok q =>
      simp only [bind, Except.bind, Except.ok.injEq]
      cases hat : fs.root.at? q with
      | none =>
          simp only [reduceCtorEq, false_iff, not_and, throw, throwThe, MonadExceptOf.throw]
          rintro rfl
          rw [hat]
          simp
      | some n =>
          simp only [pure, Except.pure, Except.ok.injEq, Prod.mk.injEq]
          constructor
          · rintro ⟨rfl, rfl⟩
            exact ⟨rfl, hat⟩
          · rintro ⟨rfl, hat'⟩
            rw [hat] at hat'
            exact ⟨rfl, Option.some.inj hat'⟩

theorem file_eq_ok_iff {fs : FileTree} {p : Path} {f : File} :
    fs.file p = .ok f ↔ ∃ place, fs.target p = .ok place ∧ fs.fileAt? place = some f := by
  unfold file
  constructor
  · intro hfile
    cases hres : fs.resolve p with
    | error e =>
        rw [hres] at hfile
        cases hfile
    | ok r =>
        obtain ⟨place, node⟩ := r
        rw [hres] at hfile
        obtain ⟨htarget, hat⟩ := resolve_eq_ok_iff.1 hres
        cases node with
        | file f' =>
            obtain rfl : f' = f := by simpa [bind, Except.bind, pure, Except.pure] using hfile
            exact ⟨place, htarget, fileAt?_eq_some_iff.2 hat⟩
        | directory es => cases hfile
        | link t => cases hfile
  · rintro ⟨place, htarget, hf⟩
    rw [resolve_eq_ok_iff.2 ⟨htarget, fileAt?_eq_some_iff.1 hf⟩]
    rfl

theorem size_of_file {fs : FileTree} {p : Path} {f : File} (h : fs.file p = .ok f) :
    fs.size p = .ok f.content.byteSize := by
  rw [size, h]
  rfl

theorem read_of_file {fs : FileTree} {p : Path} {f : File} (h : fs.file p = .ok f) :
    fs.read p = if f.readable then .ok f.content else .error .permissionDenied := by
  rw [FileTree.read, h]
  rfl

theorem readText_of_file {fs : FileTree} {p : Path} {f : File} {t : Text} (h : fs.file p = .ok f)
    (hr : f.readable = true) (ht : f.content = .text t) : fs.readText p = .ok t := by
  rw [readText, read_of_file h, if_pos hr, ht]
  rfl

/-! The size of a file and what is read of it depend on the file alone. -/

section Congr

variable {fs fs' : FileTree} {p : Path} (h : fs'.file p = fs.file p)

include h

theorem size_congr : fs'.size p = fs.size p := by rw [size, size, h]

theorem read_congr : fs'.read p = fs.read p := by rw [FileTree.read, FileTree.read, h]

theorem readText_congr : fs'.readText p = fs.readText p := by
  rw [readText, readText, read_congr h]

end Congr

/-- What can be read as text is a readable file with this text. -/
theorem file_of_readText {fs : FileTree} {p : Path} {t : Text} (h : fs.readText p = .ok t) :
    ∃ f, fs.file p = .ok f ∧ f.readable = true ∧ f.content = .text t := by
  cases hf : fs.file p with
  | error e =>
      rw [readText, FileTree.read, hf] at h
      cases h
  | ok f =>
      refine ⟨f, rfl, ?_⟩
      rw [readText, read_of_file hf] at h
      by_cases hr : f.readable = true
      · rw [if_pos hr] at h
        cases hc : f.content with
        | text t' =>
            rw [hc] at h
            exact ⟨hr, by rw [Except.ok.inj h]⟩
        | binary bytes =>
            rw [hc] at h
            cases h
      · rw [if_neg hr] at h
        cases h

theorem size_of_readText {fs : FileTree} {p : Path} {t : Text} (h : fs.readText p = .ok t) :
    fs.size p = .ok t.byteSize := by
  obtain ⟨f, hf, -, hc⟩ := file_of_readText h
  rw [size_of_file hf, hc]
  rfl

theorem isFile_iff {fs : FileTree} {p : Path} :
    fs.isFile p = true ↔ ∃ place f, fs.target p = .ok place ∧
      fs.root.at? place = some (.file f) := by
  unfold isFile
  constructor
  · intro hfile
    split at hfile
    · rename_i place f hres
      exact ⟨place, f, resolve_eq_ok_iff.1 hres⟩
    · cases hfile
  · rintro ⟨place, f, htarget, hat⟩
    rw [resolve_eq_ok_iff.2 ⟨htarget, hat⟩]

theorem isFile_iff_exists_file {fs : FileTree} {p : Path} :
    fs.isFile p = true ↔ ∃ f, fs.file p = .ok f := by
  rw [isFile_iff]
  constructor
  · rintro ⟨place, f, htarget, hat⟩
    exact ⟨f, file_eq_ok_iff.2 ⟨place, htarget, fileAt?_eq_some_iff.2 hat⟩⟩
  · rintro ⟨f, hf⟩
    obtain ⟨place, htarget, hat⟩ := file_eq_ok_iff.1 hf
    exact ⟨place, f, htarget, fileAt?_eq_some_iff.1 hat⟩

theorem isDirectory_iff {fs : FileTree} {p : Path} :
    fs.isDirectory p = true ↔ ∃ place es, fs.target p = .ok place ∧
      fs.root.at? place = some (.directory es) := by
  unfold isDirectory
  constructor
  · intro hdir
    split at hdir
    · rename_i place es hres
      exact ⟨place, es, resolve_eq_ok_iff.1 hres⟩
    · cases hdir
  · rintro ⟨place, es, htarget, hat⟩
    rw [resolve_eq_ok_iff.2 ⟨htarget, hat⟩]

theorem SameKinds.isFile_congr {fs fs' : FileTree} (h : SameKinds fs fs') :
    fs.isFile = fs'.isFile := by
  have himp : ∀ {fs fs' : FileTree}, SameKinds fs fs' → ∀ p, fs.isFile p = true →
      fs'.isFile p = true := by
    intro fs fs' h p hp
    obtain ⟨place, f, htarget, hat⟩ := isFile_iff.1 hp
    obtain ⟨f', hat'⟩ := h.at?_file hat
    exact isFile_iff.2 ⟨place, f', by rw [← h.target_congr, htarget], hat'⟩
  funext p
  rw [Bool.eq_iff_iff]
  exact ⟨himp h p, himp h.symm p⟩

theorem SameKinds.isDirectory_congr {fs fs' : FileTree} (h : SameKinds fs fs') :
    fs.isDirectory = fs'.isDirectory := by
  have himp : ∀ {fs fs' : FileTree}, SameKinds fs fs' → ∀ p, fs.isDirectory p = true →
      fs'.isDirectory p = true := by
    intro fs fs' h p hp
    obtain ⟨place, es, htarget, hat⟩ := isDirectory_iff.1 hp
    obtain ⟨es', hat'⟩ := h.at?_directory hat
    exact isDirectory_iff.2 ⟨place, es', by rw [← h.target_congr, htarget], hat'⟩
  funext p
  rw [Bool.eq_iff_iff]
  exact ⟨himp h p, himp h.symm p⟩

theorem SameShape.isFile_congr {fs fs' : FileTree} (h : SameShape fs fs') :
    fs.isFile = fs'.isFile := h.sameKinds.isFile_congr

theorem SameShape.isDirectory_congr {fs fs' : FileTree} (h : SameShape fs fs') :
    fs.isDirectory = fs'.isDirectory := h.sameKinds.isDirectory_congr

/-- The same files are found in both trees, if there are the same at the place. -/
theorem SameKinds.file_congr {fs fs' : FileTree} (h : SameKinds fs fs') {p : Path}
    (hc : ∀ place, fs.target p = .ok place → fs'.fileAt? place = fs.fileAt? place) :
    fs'.file p = fs.file p := by
  unfold file resolve
  rw [← h.target_congr]
  cases htarget : fs.target p with
  | error e => rfl
  | ok place =>
      have hplace := hc place htarget
      simp only [bind, Except.bind]
      cases hat : fs.root.at? place with
      | none => rw [h.at?_none hat]
      | some node =>
          obtain ⟨node', hat', hkind⟩ := h.exists_at? hat
          rw [hat']
          cases node with
          | file f =>
              rw [fileAt?_eq_some_iff.2 hat] at hplace
              have hsame := fileAt?_eq_some_iff.1 hplace
              rw [hat'] at hsame
              rw [Option.some.inj hsame]
          | directory es =>
              cases node' with
              | file f => cases hkind
              | directory es' => rfl
              | link t => cases hkind
          | link t =>
              cases node' with
              | file f => cases hkind
              | directory es' => cases hkind
              | link t' => rfl

/-! ## Writing -/

theorem find?_setEntry (name n : Text) (node : Node) (entries : List (Text × Node)) :
    ((setEntry name (some node) entries).find? fun e => e.1 == n) =
      if n = name then some (name, node) else entries.find? fun e => e.1 == n := by
  induction entries with
  | nil =>
      rw [setEntry]
      by_cases hn : n = name
      · rw [if_pos hn, List.find?_cons_of_pos (by simp [hn])]
      · rw [if_neg hn, List.find?_cons_of_neg (by simpa using Ne.symm hn)]
  | cons e entries ih =>
      rw [setEntry]
      by_cases he : e.1 = name
      · rw [if_pos he]
        by_cases hn : n = name
        · rw [if_pos hn, List.find?_cons_of_pos (by simp [hn])]
        · rw [if_neg hn, List.find?_cons_of_neg (by simpa using Ne.symm hn),
            List.find?_cons_of_neg (by simpa [he] using Ne.symm hn)]
      · rw [if_neg he]
        by_cases hn : n = name
        · subst hn
          rw [List.find?_cons_of_neg (by simpa using he), ih, if_pos rfl, if_pos rfl]
        · rw [List.find?_cons, List.find?_cons, ih, if_neg hn, if_neg hn]

theorem shapeOfEntries_setEntry {name m : Text} {node child : Node}
    {entries : List (Text × Node)} (hf : (entries.find? fun e => e.1 == name) = some (m, child))
    (hs : node.shape = child.shape) :
    shapeOfEntries (setEntry name (some node) entries) = shapeOfEntries entries := by
  induction entries with
  | nil => cases hf
  | cons e entries ih =>
      obtain ⟨n, c⟩ := e
      rw [List.find?_cons] at hf
      rw [setEntry]
      by_cases hn : n = name
      · subst hn
        obtain ⟨-, rfl⟩ : n = m ∧ c = child := by simpa using hf
        rw [if_pos rfl, shapeOfEntries, shapeOfEntries, hs]
      · have hno : (n == name) = false := by simpa using hn
        rw [hno] at hf
        rw [if_neg hn, shapeOfEntries, shapeOfEntries, ih hf]

/-- Putting a node below an entry that is there. -/
theorem setNode_cons {entries : List (Text × Node)} {name m : Text} {child node : Node}
    (hf : (entries.find? fun e => e.1 == name) = some (m, child)) (place : List Text) :
    setNode (some node) (name :: place) (.directory entries) =
      .directory (setEntry name (some (setNode (some node) place child)) entries) := by
  cases place with
  | nil => rfl
  | cons n place =>
      rw [setNode]
      simp only [hf, Option.map_some, Option.getD_some]

/-- What stands at a place below a name. -/
theorem at?_cons_eq_some {node n' : Node} {name : Text} {place : List Text}
    (h : node.at? (name :: place) = some n') :
    ∃ entries m child, node = .directory entries ∧
      (entries.find? fun e => e.1 == name) = some (m, child) ∧ child.at? place = some n' := by
  obtain ⟨child, hchild, hrest⟩ := Option.bind_eq_some_iff.1 h
  cases node with
  | file c => cases hchild
  | link t => cases hchild
  | directory entries =>
      obtain ⟨⟨m, c⟩, hf, rfl⟩ := Option.map_eq_some_iff.1 hchild
      exact ⟨entries, m, c, rfl, hf, hrest⟩

/-- A new content for a file keeps the shape. -/
theorem shape_setNode {node : Node} {place : List Text} {f : File}
    (h : node.at? place = some (.file f)) (c : Content) :
    (setNode (some (.file { f with content := c })) place node).shape = node.shape := by
  induction place generalizing node with
  | nil =>
      obtain rfl : node = .file f := Option.some.inj h
      rfl
  | cons name place ih =>
      obtain ⟨entries, m, child, rfl, hf, hrest⟩ := at?_cons_eq_some h
      rw [setNode_cons hf, Node.shape, Node.shape, shapeOfEntries_setEntry hf (ih hrest)]

/-- A new file in the place of another one changes no other file. -/
theorem at?_setNode_eq_file_iff {node : Node} {place : List Text} {f : File}
    (h : node.at? place = some (.file f)) (f' g : File) (q : List Text) :
    (setNode (some (.file f')) place node).at? q = some (.file g) ↔
      if q = place then f' = g else node.at? q = some (.file g) := by
  induction place generalizing node q with
  | nil =>
      obtain rfl : node = .file f := Option.some.inj h
      cases q with
      | nil => simp [setNode, Node.at?]
      | cons n q => simp [setNode, Node.at?, Node.child?]
  | cons name place ih =>
      obtain ⟨entries, m, child, rfl, hf, hrest⟩ := at?_cons_eq_some h
      rw [setNode_cons hf]
      cases q with
      | nil => simp [Node.at?]
      | cons n q =>
          rw [Node.at?, Node.at?, Node.child?, Node.child?, find?_setEntry]
          by_cases hn : n = name
          · subst hn
            rw [if_pos rfl, hf]
            simpa using ih hrest q
          · simp [hn]

/-- **Writing a file that is there** fails if the file may not be written. Otherwise it keeps the
shape and changes no other file. -/
theorem write_spec {fs : FileTree} {p : Path} {place : List Text} {f : File}
    (htarget : fs.target p = .ok place) (hf : fs.fileAt? place = some f) (t : Text) :
    (f.writable = false → fs.write p t = .error .permissionDenied) ∧
      (f.writable = true → ∃ fs', fs.write p t = .ok fs' ∧ SameShape fs fs' ∧
        ∀ q, fs'.fileAt? q =
          if q = place then some { f with content := .text t } else fs.fileAt? q) := by
  have hat := fileAt?_eq_some_iff.1 hf
  have hwrite : fs.write p t = if f.writable then
      .ok (fs.set place (some (.file { f with content := .text t })))
      else .error .permissionDenied := by
    rw [write, writeContent, htarget]
    simp only [bind, Except.bind, hat]
    rfl
  refine ⟨fun hno => by rw [hwrite, hno]; rfl, fun hyes => ?_⟩
  refine ⟨fs.set place (some (.file { f with content := .text t })), by rw [hwrite, if_pos hyes],
    ⟨(shape_setNode hat _).symm, rfl⟩, fun q => ?_⟩
  refine Option.ext fun g => ?_
  rw [fileAt?_eq_some_iff]
  show (setNode (some (.file { f with content := .text t })) place fs.root).at? q =
    some (.file g) ↔ _
  rw [at?_setNode_eq_file_iff hat]
  by_cases hq : q = place
  · rw [if_pos hq, if_pos hq, Option.some.injEq]
  · rw [if_neg hq, if_neg hq, fileAt?_eq_some_iff]

end FileTree

/-! ## Parts of a path -/

theorem split_ne_nil (sep : Char) (t : Text) : Text.split sep t ≠ [] := by
  cases t with
  | nil => simp [Text.split]
  | cons c t =>
      rw [Text.split]
      split
      · simp
      · split <;> simp

theorem split_append (sep : Char) (u v : Text) :
    Text.split sep (u ++ sep :: v) = Text.split sep u ++ Text.split sep v := by
  induction u with
  | nil => simp [Text.split]
  | cons c u ih =>
      rw [List.cons_append, Text.split, Text.split, ih]
      by_cases hc : c = sep
      · simp [hc]
      · rw [if_neg hc, if_neg hc]
        obtain ⟨a, ws, hsplit⟩ := List.exists_cons_of_ne_nil (split_ne_nil sep u)
        rw [hsplit]
        rfl

theorem split_of_not_mem {sep : Char} {t : Text} (h : sep ∉ t) : Text.split sep t = [t] := by
  induction t with
  | nil => rfl
  | cons c t ih =>
      rw [List.mem_cons, not_or] at h
      rw [Text.split, if_neg (Ne.symm h.1), ih h.2]

/-- A name that can stand in a path as a component of its own. -/
structure ProperName (n : Text) : Prop where
  not_void : Path.isVoidPart n = false
  not_parent : n ≠ ['.', '.']
  no_separator : '/' ∉ n

instance (n : Text) : Decidable (ProperName n) :=
  decidable_of_iff (Path.isVoidPart n = false ∧ n ≠ ['.', '.'] ∧ '/' ∉ n)
    ⟨fun ⟨h₁, h₂, h₃⟩ => ⟨h₁, h₂, h₃⟩, fun ⟨h₁, h₂, h₃⟩ => ⟨h₁, h₂, h₃⟩⟩

theorem ProperName.isAbsolute_eq_false {n : Text} (hn : ProperName n) :
    Path.isAbsolute n = false := by
  cases n with
  | nil => rfl
  | cons c n =>
      have hc : c ≠ '/' := fun e => hn.no_separator (by simp [e])
      simpa [Path.isAbsolute] using hc

/-- The parts of a path with a name put behind it. -/
theorem split_join {n : Text} (hn : ProperName n) (dir : Path) :
    ∃ parts, Text.split '/' (Path.join dir n) = parts ++ [n] ∧
      (dir ≠ [] → Path.isAbsolute (Path.join dir n) = Path.isAbsolute dir ∧
        (Text.split '/' dir = parts ∨ Text.split '/' dir = parts ++ [[]])) := by
  have hsplit := split_of_not_mem hn.no_separator
  rw [Path.join, hn.isAbsolute_eq_false]
  by_cases hnil : dir = []
  · subst hnil
    exact ⟨[], hsplit, fun h => absurd rfl h⟩
  · obtain ⟨c, rest, hdir⟩ := List.exists_cons_of_ne_nil hnil
    have habs : ∀ t : Text, Path.isAbsolute (dir ++ t) = Path.isAbsolute dir := by
      intro t
      rw [hdir]
      rfl
    by_cases hends : dir.endsWith '/' = true
    · obtain ⟨u, hu⟩ : ∃ u, dir = u ++ ['/'] := by
        rw [Text.endsWith, beq_iff_eq] at hends
        exact List.getLast?_eq_some_iff.1 hends
      have hjoin : (if (false : Bool) = true then n
          else if (List.isEmpty dir || dir.endsWith '/') = true then dir ++ n
          else dir ++ ['/'] ++ n) = dir ++ n := by simp [hends]
      rw [hjoin]
      refine ⟨Text.split '/' u, ?_, fun _ => ⟨habs n, Or.inr ?_⟩⟩
      · have happ : dir ++ n = u ++ '/' :: n := by rw [hu]; simp
        rw [happ, split_append, hsplit]
      · rw [hu, split_append]
        rfl
    · have hjoin : (if (false : Bool) = true then n
          else if (List.isEmpty dir || dir.endsWith '/') = true then dir ++ n
          else dir ++ ['/'] ++ n) = dir ++ '/' :: n := by simp [hends, hnil]
      rw [hjoin]
      refine ⟨Text.split '/' dir, ?_, fun _ => ⟨habs _, Or.inl rfl⟩⟩
      rw [split_append, hsplit]

/-- A relative path is put behind a path. -/
theorem exists_join_eq_append {q : Path} (hq : Path.isAbsolute q = false) (p : Path) :
    ∃ u, Path.join p q = p ++ u := by
  rw [Path.join, hq]
  by_cases hend : (p.isEmpty || Text.endsWith p '/') = true
  · exact ⟨q, by simp [hend]⟩
  · exact ⟨'/' :: q, by simp [hend]⟩

/-- The file name of a path with a name put behind it. -/
theorem fileName?_join {n : Text} (hn : ProperName n) (dir : Path) :
    Path.fileName? (Path.join dir n) = some n := by
  obtain ⟨parts, hjoin, -⟩ := split_join hn dir
  have hcomponent : Path.partComponent n = .name n := if_neg hn.not_parent
  have hlast : (Path.components (Path.join dir n)).getLast? = some (.name n) := by
    rw [Path.components, hjoin, List.filter_append,
      List.filter_cons_of_pos (by rw [hn.not_void]; rfl), List.filter_nil, List.map_append,
      List.map_singleton, hcomponent, ← List.append_assoc, List.getLast?_concat]
  rw [Path.fileName?, hlast]

/-- A path of two names leads on by one after the other. -/
theorem join_append {u v : Path} (hu : Path.isAbsolute u = false) (hv : Path.isAbsolute v = false)
    (hend : (u.isEmpty || Text.endsWith u '/') = false) (root : Path) :
    Path.join root (u ++ '/' :: v) = Path.join (Path.join root u) v := by
  rw [Bool.or_eq_false_iff] at hend
  obtain ⟨c, w, rfl⟩ := List.exists_cons_of_ne_nil (by simpa using hend.1 : u ≠ [])
  have happ : Path.isAbsolute (c :: w ++ '/' :: v) = false := hu
  have hlast : ∀ t : Text, Text.endsWith (t ++ c :: w) '/' = false := by
    intro t
    have hword := hend.2
    rw [Text.endsWith, List.getLast?_cons] at hword
    rw [Text.endsWith, List.getLast?_append, List.getLast?_cons, Option.some_or, hword]
  have hne : ∀ t : Text, (t ++ c :: w).isEmpty = false := by simp
  unfold Path.join
  rw [happ, hu, hv]
  by_cases hroot : (root.isEmpty || Text.endsWith root '/') = true
  · rw [if_pos hroot, if_pos hroot]
    simp only [Bool.false_eq_true, if_false, hne, hlast, Bool.or_self]
    simp
  · rw [if_neg hroot, if_neg hroot]
    simp only [Bool.false_eq_true, if_false, hne, hlast, Bool.or_self]
    simp

/-! ## Proper and regular trees -/

mutual

/-- All names below the node can stand in paths. -/
def Node.Proper : Node → Prop
  | .file _ => True
  | .directory entries => ProperEntries entries
  | .link _ => True

/-- All names of the entries and below them can stand in paths. -/
def ProperEntries : List (Text × Node) → Prop
  | [] => True
  | (name, node) :: entries => ProperName name ∧ node.Proper ∧ ProperEntries entries

end

theorem ProperEntries.of_mem {entries : List (Text × Node)} (h : ProperEntries entries)
    {e : Text × Node} (he : e ∈ entries) : ProperName e.1 ∧ e.2.Proper := by
  induction entries with
  | nil => cases he
  | cons a entries ih =>
      obtain ⟨name, node⟩ := a
      rw [ProperEntries] at h
      rcases List.mem_cons.1 he with rfl | he
      · exact ⟨h.1, h.2.1⟩
      · exact ih h.2.2 he

theorem Node.Proper.at? {node n : Node} (h : node.Proper) {place : List Text}
    (hn : node.at? place = some n) : n.Proper := by
  induction place generalizing node with
  | nil =>
      obtain rfl := Option.some.inj hn
      exact h
  | cons name place ih =>
      obtain ⟨entries, m, child, rfl, hf, hrest⟩ := FileTree.at?_cons_eq_some hn
      rw [Node.Proper] at h
      exact ih (h.of_mem (List.mem_of_find?_eq_some hf)).2 hrest

mutual

/-- The node and all below it are files and directories, under names that can stand in
paths. -/
def Node.Regular : Node → Prop
  | .file _ => True
  | .directory entries => RegularEntries entries
  | .link _ => False

/-- All entries are files and directories, under names that can stand in paths. -/
def RegularEntries : List (Text × Node) → Prop
  | [] => True
  | (name, node) :: entries => ProperName name ∧ node.Regular ∧ RegularEntries entries

end

theorem RegularEntries.of_mem {entries : List (Text × Node)} (h : RegularEntries entries)
    {e : Text × Node} (he : e ∈ entries) : ProperName e.1 ∧ e.2.Regular := by
  induction entries with
  | nil => cases he
  | cons a entries ih =>
      obtain ⟨name, node⟩ := a
      rw [RegularEntries] at h
      rcases List.mem_cons.1 he with rfl | he
      · exact ⟨h.1, h.2.1⟩
      · exact ih h.2.2 he

theorem Node.Regular.at? {node n : Node} (h : node.Regular) {place : List Text}
    (hn : node.at? place = some n) : n.Regular := by
  induction place generalizing node with
  | nil =>
      obtain rfl := Option.some.inj hn
      exact h
  | cons name place ih =>
      obtain ⟨entries, m, child, rfl, hf, hrest⟩ := FileTree.at?_cons_eq_some hn
      rw [Node.Regular] at h
      exact ih (h.of_mem (List.mem_of_find?_eq_some hf)).2 hrest

namespace FileTree

/-! ## Regular paths -/

variable {fs : FileTree}

/-- A path can be followed in two steps, unless the second one is empty. The first step may as well
end with a separator, since it has to lead to a directory. -/
theorem follow_append {links : Nat} {place parts last r : List Text} (hlast : last ≠ [])
    (h : fs.follow links place (parts ++ last) = .ok r) :
    ∃ links' q, fs.follow links place parts = .ok q ∧
      fs.follow links place (parts ++ [[]]) = .ok q ∧ fs.follow links' q last = .ok r := by
  have hmore : ∀ rest : List Text, (rest ++ last).isEmpty = false := by simp [hlast]
  -- Along the first step. Where it ends, more is to come, so there is a directory.
  fun_induction FileTree.follow fs links place parts with
  | case1 links place =>
      have hvoid : Path.isVoidPart [] = true := rfl
      exact ⟨links, place, rfl, by rw [List.nil_append, follow, if_pos hvoid, follow], h⟩
  | case2 links place part rest hvoid ih =>
      rw [List.cons_append, follow, if_pos hvoid] at h
      rw [List.cons_append, follow, if_pos hvoid]
      exact ih h
  | case3 links place rest hvoid ih =>
      rw [List.cons_append, follow, if_neg hvoid, if_pos rfl] at h
      rw [List.cons_append, follow, if_neg hvoid, if_pos rfl]
      exact ih h
  | case4 links place part rest hvoid hup hlong =>
      rw [List.cons_append, follow, if_neg hvoid, if_neg hup, if_pos hlong] at h
      cases h
  | case5 links place part rest hvoid hup hlong hat hrest =>
      rw [List.cons_append, follow_cons_of_name hvoid hup hlong] at h
      simp [hat, hmore] at h
  | case6 links place part rest hvoid hup hlong hat hrest =>
      rw [List.cons_append, follow_cons_of_name hvoid hup hlong] at h
      simp [hat, hmore] at h
  | case7 links place part rest hvoid hup hlong entries hat ih =>
      rw [List.cons_append, follow_cons_of_name hvoid hup hlong] at h
      rw [List.cons_append, follow_cons_of_name hvoid hup hlong]
      simp only [hat] at h ⊢
      exact ih h
  | case8 links place part rest hvoid hup hlong f hat hrest =>
      rw [List.cons_append, follow_cons_of_name hvoid hup hlong] at h
      simp [hat, hmore] at h
  | case9 links place part rest hvoid hup hlong f hat hrest =>
      rw [List.cons_append, follow_cons_of_name hvoid hup hlong] at h
      simp [hat, hmore] at h
  | case10 place part rest hvoid hup hlong t hat =>
      rw [List.cons_append, follow_cons_of_name hvoid hup hlong] at h
      simp only [hat] at h
      cases h
  | case11 place part rest hvoid hup hlong t hat links ih =>
      rw [List.cons_append, follow_cons_of_name hvoid hup hlong] at h
      rw [List.cons_append, follow_cons_of_name hvoid hup hlong]
      simp only [hat, ← List.append_assoc] at h ⊢
      exact ih h

/-- A name that is not that of a link leads to the place with this name behind it. -/
theorem follow_name {links : Nat} {place r : List Text} {n : Text} (hn : ProperName n)
    (hlink : ∀ t, fs.root.at? (place ++ [n]) ≠ some (.link t))
    (h : fs.follow links place [n] = .ok r) : r = place ++ [n] := by
  rw [follow, if_neg (by simp [hn.not_void]), if_neg hn.not_parent] at h
  split at h
  · cases h
  · split at h
    · exact (Except.ok.inj h).symm
    · rw [follow] at h
      exact (Except.ok.inj h).symm
    · exact (Except.ok.inj h).symm
    · rename_i t hat
      exact absurd hat (hlink t)

/-- A path with a name put behind it leads on by the name from where the path leads. -/
theorem target_join {dir : Path} {n : Text} {r : List Text} (hdir : dir ≠ []) (hn : ProperName n)
    (h : fs.target (Path.join dir n) = .ok r) :
    ∃ links place, fs.target dir = .ok place ∧ fs.follow links place [n] = .ok r := by
  obtain ⟨parts, hjoin, hparts⟩ := split_join hn dir
  obtain ⟨habs, hparts⟩ := hparts hdir
  obtain ⟨u, happend⟩ := exists_join_eq_append hn.isAbsolute_eq_false dir
  have hshort : ¬ maxPathBytes < dir.byteSize := by
    intro hlong
    rw [target, if_neg (by simp [happend, hdir]), if_pos ?_] at h
    · cases h
    · rw [happend, Text.byteSize_append]
      omega
  unfold target at h
  split at h
  · cases h
  · split at h
    · cases h
    · rw [hjoin, habs] at h
      obtain ⟨links, place, hplace, hplace', hname⟩ := follow_append (by simp) h
      refine ⟨links, place, ?_, hname⟩
      rw [target, if_neg (by simp [hdir]), if_neg hshort]
      rcases hparts with hparts | hparts
      · rw [hparts, hplace]
      · rw [hparts, hplace']

/-- What the path leads to, if anything, is regular. -/
def RegularAt (fs : FileTree) (p : Path) : Prop :=
  ∀ place node, fs.resolve p = .ok (place, node) → node.Regular

namespace RegularAt

variable {dir : Path} (h : fs.RegularAt dir) (hdir : dir ≠ [])

include h hdir

/-- **The place of an entry** is the place of its directory with its name behind it. -/
theorem target_join {n : Text} (hn : ProperName n) {r : List Text}
    (htarget : fs.target (Path.join dir n) = .ok r) :
    ∃ place, fs.target dir = .ok place ∧ r = place ++ [n] := by
  obtain ⟨links, place, hplace, hname⟩ := FileTree.target_join hdir hn htarget
  refine ⟨place, hplace, follow_name hn (fun t hat => ?_) hname⟩
  rw [at?_append] at hat
  obtain ⟨node, hnode, hat⟩ := Option.bind_eq_some_iff.1 hat
  exact (h place node (resolve_eq_ok_iff.2 ⟨hplace, hnode⟩)).at? hat

theorem join {n : Text} (hn : ProperName n) : fs.RegularAt (Path.join dir n) := by
  intro r node hres
  obtain ⟨htarget, hat⟩ := resolve_eq_ok_iff.1 hres
  obtain ⟨place, hplace, rfl⟩ := h.target_join hdir hn htarget
  rw [at?_append] at hat
  obtain ⟨above, habove, hat⟩ := Option.bind_eq_some_iff.1 hat
  exact (h place above (resolve_eq_ok_iff.2 ⟨hplace, habove⟩)).at? hat

end RegularAt

end FileTree

end Stylewire
