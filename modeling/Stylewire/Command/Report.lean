import Stylewire.Command.Json
import Stylewire.EditScript.Compact
import Stylewire.EditScript.Shortest
import Stylewire.Project.Scan

set_option autoImplicit false

/-! # Reports

What the commands print about a scan, on the two output channels, with or without colours.
-/

namespace Stylewire

/-- What goes to standard output and to standard error. -/
structure Output where
  out : String := ""
  err : String := ""

namespace Output

/-- One output after another. -/
def append (a b : Output) : Output := ⟨a.out ++ b.out, a.err ++ b.err⟩

instance : Append Output := ⟨append⟩

/-- A line on standard output. -/
def outLine (s : String) : Output := { out := s ++ "\n" }

/-- A line on standard error. -/
def errLine (s : String) : Output := { err := s ++ "\n" }

/-- All outputs, one after another. -/
def concat (os : List Output) : Output := os.foldl append {}

end Output

/-! ## Colours -/

/-- The colours and styles in use. -/
inductive Paint
  | red
  | green
  | yellow
  | bold

/-- The text in a colour, if colours are on. -/
def Paint.apply (p : Paint) (color : Bool) (s : String) : String :=
  if color then
    match p with
    | red => "\x1b[31m" ++ s ++ "\x1b[39m"
    | green => "\x1b[32m" ++ s ++ "\x1b[39m"
    | yellow => "\x1b[33m" ++ s ++ "\x1b[39m"
    | bold => "\x1b[1m" ++ s ++ "\x1b[0m"
  else s

namespace Report

/-- A path as it is shown: relative to the root of the project, if it lies there. -/
def shown (root p : Path) : String :=
  String.ofList ((Path.textBelow? root p).getD p)

/-! ## Differences -/

/-- A line with its end; one without gets a line feed. -/
def endedLine (line : Text) : String :=
  String.ofList (if line.endsWith '\n' || line.endsWith '\r' then line else line ++ ['\n'])

/-- One stretch of an edit script. -/
def edit (color : Bool) : Edit → String
  | .keep lines => String.join (lines.map fun l => "     " ++ endedLine l)
  | .delete lines =>
      String.join (lines.map fun l => "    " ++ Paint.red.apply color ("-" ++ endedLine l))
  | .insert lines =>
      String.join (lines.map fun l => "    " ++ Paint.green.apply color ("+" ++ endedLine l))

/-- The difference between two texts, line by line. -/
def difference (color : Bool) (before after : Text) : Output :=
  { err := String.join
      ((compact (shortest (linesOf before) (linesOf after))).map (edit color)) }

/-! ## Checks -/

/-- The warnings about calls whose argument list is never closed. -/
def malformed (color : Bool) (root : Path) (s : Scan) : Output :=
  .concat (s.malformed.map fun m =>
    .errLine (Paint.yellow.apply color "warning:" ++
      s!" {shown root m.path} has {m.sites} malformed call site(s) left untouched"))

/-- The warning about scripts above the size limit. -/
def oversized (color : Bool) (s : Scan) : Output :=
  if s.oversized.isEmpty then {}
  else
    .errLine (Paint.yellow.apply color "warning:" ++
      s!" skipped {s.oversized.length} file(s) larger than `max_file_size`")

/-- How much is to be done. -/
def summary (s : Scan) : String :=
  s!"{s.injectedCount} call site(s) in {s.files.length} file(s) need the stylesheet marker. " ++
    "Run `bellagonia update` to rewrite them."

/-- A check as text. -/
def checkText (color diff : Bool) (root : Path) (s : Scan) : Output :=
  if s.isClean then
    .outLine "Check passed: all directive sources are up to date." ++ malformed color root s
  else
    .errLine "Check failed.\n\nDirective sources to rewrite:" ++
      .concat (s.files.map fun f =>
        .errLine s!"  {shown root f.path} ({f.outcome.injected} call site(s))" ++
          if diff then difference color f.before f.outcome.code else {}) ++
      malformed color root s ++ .errLine ("\n" ++ summary s)

/-- A check as JSON. -/
def checkJson (root : Path) (s : Scan) : Output :=
  .outLine (JsonValue.render (.object [
    ("files", .array (s.files.map fun f => .object [
      ("file", .string (shown root f.path)),
      ("injected", .number f.outcome.injected),
      ("malformed", .number (s.malformedSites f.path))])),
    ("malformed", .array (s.malformed.map fun m => .object [
      ("file", .string (shown root m.path)),
      ("sites", .number m.sites)])),
    ("ok", .bool s.isClean),
    ("skipped_sites", .number s.skippedSites),
    ("styles", .array (s.styles.map fun p => .string (shown root p)))]))

/-- A check as annotations of a workflow. -/
def checkAnnotations (root : Path) (s : Scan) : Output :=
  .concat (s.files.map fun f => .outLine
    (s!"::warning file={shown root f.path}::{f.outcome.injected} directive call(s) " ++
      "are not wired to their stylesheet")) ++
  .concat (s.malformed.map fun m => .outLine
    (s!"::error file={shown root m.path}::{m.sites} directive call(s) " ++
      "have an unbalanced argument list")) ++
  if s.isClean then .outLine "All directive sources are up to date." else .errLine (summary s)

/-! ## Updates -/

/-- The files of a scan that change, one to a line. -/
def changedFiles (root : Path) (s : Scan) : Output :=
  .concat (s.files.map fun f => .outLine ("  " ++ shown root f.path))

/-- What an update would do. -/
def dryRun (root : Path) (s : Scan) : Output :=
  .outLine (s!"Dry run: would rewrite {s.injectedCount} call site(s) " ++
    s!"in {s.files.length} file(s):") ++ changedFiles root s

/-- What an update did. -/
def updated (color verbose : Bool) (root : Path) (s : Scan) : Output :=
  .outLine (Paint.green.apply color "Updated" ++
    s!" {s.injectedCount} call site(s) in {s.files.length} file(s).") ++
  if verbose then changedFiles root s else {}

end Report

end Stylewire
