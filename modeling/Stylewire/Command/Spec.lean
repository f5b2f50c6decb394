set_option autoImplicit false

/-! # Commands and options

What can stand on a command line, and what the help says about it. `CommandSpec.program` is
the program itself and `CommandSpec.all` are its commands.
-/

namespace Stylewire

/-- One of the values an option can be given. -/
structure Choice where
  name : String
  about : String

/-- The value of an option. -/
structure ValueSpec where
  /-- How the help names the value. -/
  label : String
  /-- The values allowed; any value if there are none. -/
  choices : List Choice := []
  mayBeEmpty : Bool := true
  /-- The value if the option is not given, where the help tells it. -/
  preset : Option String := none

/-- Whether a value is allowed. -/
def ValueSpec.allows (v : ValueSpec) (s : String) : Bool :=
  if v.choices.isEmpty then v.mayBeEmpty || s != "" else v.choices.any fun c => c.name == s

/-- An option: its name, its letter, and its value, if it has one. -/
structure OptionSpec where
  name : String
  letter : Option Char := none
  value : Option ValueSpec := none
  required : Bool := false
  about : String

namespace OptionSpec

def path : OptionSpec :=
  { name := "path"
    letter := some 'p'
    value := some { label := "PATH", mayBeEmpty := false }
    about := "Path to the project root directory" }

def verbose : OptionSpec :=
  { name := "verbose", letter := some 'v', about := "Enable verbose output" }

def noColor : OptionSpec := { name := "no-color", about := "Disable colored output" }

/-- Asks for help, in the short form or in the long one. -/
def help (long : Bool) : OptionSpec :=
  { name := "help"
    letter := some 'h'
    about := if long then "Print help (see a summary with '-h')"
      else "Print help (see more with '--help')" }

def version : OptionSpec :=
  { name := "version", letter := some 'V', about := "Print version" }

def diff : OptionSpec :=
  { name := "diff", about := "Show a unified diff for every file that would be rewritten" }

def format : OptionSpec :=
  { name := "format"
    value := some
      { label := "FORMAT"
        choices :=
          [⟨"text", "Human-readable text output with colors and formatting"⟩,
           ⟨"json", "JSON output for programmatic consumption"⟩,
           ⟨"github", "GitHub Actions annotation format"⟩]
        preset := some "text" }
    about := "Output format for check results. Use `text` for human-readable output, `json` " ++
      "for programmatic consumption, or `github` for GitHub Actions annotations" }

def dryRun : OptionSpec :=
  { name := "dry-run", about := "Preview changes without writing files" }

/-- Asks for a command to be run again and again. -/
def watch (doing : String) : OptionSpec :=
  { name := "watch", about := s!"Watch for file changes and re-run {doing} automatically" }

def mode : OptionSpec :=
  { name := "mode"
    value := some
      { label := "MODE"
        choices :=
          [⟨"import", "One `<style>` block with an `@import` rule per stylesheet"⟩,
           ⟨"link", "One `<link rel=\"stylesheet\">` element per stylesheet"⟩] }
    about := "Emit a single `<style>` block of `@import` rules, or one `<link>` element per " ++
      "stylesheet" }

def lead : OptionSpec :=
  { name := "prefix"
    value := some { label := "PREFIX" }
    about := "Prefix prepended to every stylesheet path" }

def base : OptionSpec :=
  { name := "base"
    value := some { label := "BASE", mayBeEmpty := false }
    about := "Directory the stylesheet paths are made relative to" }

def module : OptionSpec :=
  { name := "module"
    letter := some 'm'
    value := some { label := "MODULE" }
    required := true
    about := "The module specifier bound to the marker, e.g. `./counter.module.css`" }

def write : OptionSpec :=
  { name := "write", about := "Write the result back to the file instead of printing it" }

end OptionSpec

/-- An operand of a command; it must be given, and it is not empty. -/
structure OperandSpec where
  label : String
  about : String

/-- A command, or the program itself. -/
structure CommandSpec where
  name : String
  about : String
  /-- What the long help tells. -/
  story : String
  /-- The options, but for those that ask for help, in the order in which the help shows
  them. -/
  options : List OptionSpec
  operands : List OperandSpec := []

namespace CommandSpec

open OptionSpec in
def check : CommandSpec :=
  { name := "check"
    about := "Check that every directive source is already wired to its stylesheet"
    story := "Check that every directive source is already wired to its stylesheet.\n\n" ++
      "Runs the rewrite over all directive sources without touching the disk and exits with " ++
      "a non-zero status code if any file would change. Ideal for CI pipelines."
    options := [diff, path, format, verbose, noColor, watch "checks"] }

open OptionSpec in
def update : CommandSpec :=
  { name := "update"
    about := "Rewrite every directive source that is not yet wired"
    story := "Rewrite every directive source that is not yet wired.\n\n" ++
      "Adds the stylesheet import and the `assign` entry to each `directive(...)` call. Use " ++
      "`--dry-run` to preview which files would change, or `--watch` to re-run whenever " ++
      "files change."
    options := [dryRun, path, verbose, watch "updates", noColor] }

open OptionSpec in
def styles : CommandSpec :=
  { name := "styles"
    about := "Print the style tags for every stylesheet the build would collect"
    story := "Print the style tags for every stylesheet the build would collect.\n\n" ++
      "Defaults come from the `[tags]` section of `bellagonia.toml`; the flags override them."
    options := [mode, path, lead, verbose, base, noColor] }

open OptionSpec in
/-- Wires one file. -/
def wire : CommandSpec :=
  { name := "rewrite"
    about := "Rewrite a single file, bypassing the directive source filter"
    story := "Rewrite a single file, bypassing the directive source filter.\n\n" ++
      "Prints the rewritten text to stdout unless `--write` is given."
    options := [module, path, verbose, write, noColor]
    operands := [⟨"FILE", "The file to rewrite"⟩] }

/-- The commands. -/
def all : List CommandSpec := [check, update, styles, wire]

/-- The name of the command that tells how to use the others. -/
def helpName : String := "help"

open OptionSpec in
/-- The program itself, with the options that may stand before the command. -/
def program : CommandSpec :=
  { name := "bellagonia"
    about := "Wire sibling stylesheets into directive() calls across your project."
    story :=
      "bellagonia finds every `directive(...)` call in your directive sources, imports the " ++
      "stylesheet that sits next to the file and injects it into the directive's `assign` " ++
      "options so the template can reach it.\n\n" ++
      "Quick start:\n" ++
      "  bellagonia check    Report files that still need wiring\n" ++
      "  bellagonia update   Rewrite directive sources in place\n" ++
      "  bellagonia styles   Print style tags for the collected stylesheets"
    options := [path, verbose, noColor] }

end CommandSpec

end Stylewire
