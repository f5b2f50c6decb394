import Stylewire.FileTree
import Stylewire.Session
import Stylewire.Stylesheet.Tags
import Stylewire.Toml.Parser

set_option autoImplicit false

/-! # Settings

The settings of a project, as its settings file gives them. Keys that are not known do not
count, and what is not given has a default. A group of settings is a table, or an array of
its settings in their order, of which the last may be left out.
-/

namespace Stylewire

/-- The settings of a project. -/
structure Settings where
  /-- The patterns of the modules to wire. -/
  sources : List Text := SourceFilter.defaultPatterns
  /-- Whether modules are wired at all. -/
  autoStyles : Bool := true
  /-- The function whose calls are marked. -/
  directive : Text := Identifier.directive.text
  /-- The name stylesheets are imported under. -/
  marker : Text := Identifier.styles.text
  /-- The extensions of stylesheets. -/
  extensions : List Text := Stylesheet.defaultExtensions
  /-- Rules for files to leave out, besides those of the ignore file. -/
  exclude : List Text := []
  /-- How tags are written. -/
  tags : TagOptions := {}
  /-- The size in bytes above which files are left out. -/
  maxFileSize : Nat := 10485760
  /-- Whether the ignore file is left aside. -/
  disableIgnoreFile : Bool := false
deriving Repr, DecidableEq

namespace Settings

open Toml (Value)

/-! ## Single settings -/

/-- A value as a text. -/
def text? : Value → Option Text
  | .string t => some t
  | _ => none

/-- A value as a list of texts. -/
def texts? : Value → Option (List Text)
  | .array vs => vs.mapM text?
  | _ => none

/-- A value as a truth value. -/
def bool? : Value → Option Bool
  | .boolean b => some b
  | _ => none

/-- A value as a size: an integer of 64 bits without sign. -/
def size? : Value → Option Nat
  | .integer n => if 0 ≤ n && n < Int.pow 2 64 then some n.toNat else none
  | _ => none

/-- The mode with the given name. -/
def modeNamed? (name : Text) : Option TagMode :=
  if name == TagMode.imports.word.toList then some .imports
  else if name == TagMode.links.word.toList then some .links
  else none

/-- A value as a mode of tags: its name, or a table with that name as its only key, for
which there is nothing. -/
def mode? : Value → Option TagMode
  | .string name => modeNamed? name
  | .table [(name, .table [])] => modeNamed? name
  | .table [(name, .array [])] => modeNamed? name
  | _ => none

/-! ## Groups of settings -/

/-- How the setting with the given key is taken over into a record; a key that is not known
gives nothing. -/
abbrev Fields (σ : Type) := List (Text × (Value → σ → Option σ))

/-- A field that is set from what `read` makes of a value. -/
def entry {σ α : Type} (key : String) (read : Value → Option α) (put : α → σ → σ) :
    Text × (Value → σ → Option σ) :=
  (key.toList, fun v s => (read v).map fun a => put a s)

/-- Takes over one entry of a table. -/
def takeEntry {σ : Type} (fields : Fields σ) (s : σ) (e : Text × Value) : Option σ :=
  match fields.find? fun f => f.1 == e.1 with
  | some f => f.2 e.2 s
  | none => if e.2.isReadable then some s else none

/-- Takes over a group of settings. A date counts as a table without known keys. -/
def takeGroup {σ : Type} (fields : Fields σ) (s : σ) : Value → Option σ
  | .table entries => entries.foldlM (takeEntry fields) s
  | .array vs => (fields.zip vs).foldlM (fun s (f, v) => f.2 v s) s
  | .datetime => some s
  | _ => none

/-- The settings of the names. -/
def nameFields : Fields Settings :=
  [entry "directive" text? fun t s => { s with directive := t },
   entry "marker" text? fun t s => { s with marker := t }]

/-- The settings of the stylesheets. -/
def stylesheetFields : Fields Settings :=
  [entry "extensions" texts? fun ts s => { s with extensions := ts }]

/-- The settings of the files to leave out. -/
def excludeFields : Fields Settings :=
  [entry "patterns" texts? fun ts s => { s with exclude := ts }]

/-- The settings of the tags. -/
def tagFields : Fields Settings :=
  [entry "base" text? fun t s => { s with tags.base := some t },
   entry "prefix" text? fun t s => { s with tags.lead := t },
   entry "mode" mode? fun m s => { s with tags.mode := m }]

/-- All settings. -/
def fields : Fields Settings :=
  [entry "directive_sources" texts? fun ts s => { s with sources := ts },
   entry "auto_styles" bool? fun b s => { s with autoStyles := b },
   ("rewrite".toList, fun v s => takeGroup nameFields s v),
   ("resolver".toList, fun v s => takeGroup stylesheetFields s v),
   ("exclude".toList, fun v s => takeGroup excludeFields s v),
   ("tags".toList, fun v s => takeGroup tagFields s v),
   entry "max_file_size" size? fun n s => { s with maxFileSize := n },
   entry "disable_gitignore" bool? fun b s => { s with disableIgnoreFile := b }]

/-- The settings a document describes. -/
def ofToml (t : Text) : Except Error Settings :=
  match (Toml.parse? t).bind fun entries => takeGroup fields {} (.table entries) with
  | some s => .ok s
  | none => .error .invalidSettings

/-! ## Settings files -/

/-- The places of the settings file in a project, the first one that is there counts. -/
def fileNames : List Path :=
  ["bellagonia.toml".toList, ".bellagonia.toml".toList, ".config/bellagonia.toml".toList]

/-- The settings file of a project. -/
def file? (fs : FileTree) (root : Path) : Option Path :=
  (fileNames.map (Path.join root)).find? fs.isFile

/-- The settings of a project, if it has a settings file. -/
def load? (fs : FileTree) (root : Path) : Except Error (Option Settings) :=
  match file? fs root with
  | none => .ok none
  | some p =>
      match fs.readText p with
      | .error e => .error (.file e)
      | .ok t => (ofToml t).map some

/-- The settings of a project. -/
def load (fs : FileTree) (root : Path) : Except Error Settings :=
  (load? fs root).map fun s => s.getD {}

/-! ## What the settings say -/

/-- The rules of build sessions. -/
def rules (s : Settings) : Except Error Rules :=
  Rules.ofNames s.sources s.autoStyles s.directive s.marker

/-- How the tags of the project at `root` are written: a base that is not absolute lies
there. -/
def tagOptions (s : Settings) (root : Path) : TagOptions :=
  { s.tags with base := s.tags.base.map (Path.join root) }

end Settings

end Stylewire
