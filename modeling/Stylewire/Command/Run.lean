import Stylewire.Command.Arguments
import Stylewire.Command.Help
import Stylewire.Command.Report

set_option autoImplicit false

/-! # Running commands

A command line is run on a file tree. The result is what is printed, the exit code, and the
file tree afterwards.

The exit code is `0` if all is well, `1` if a check finds something to do or no command is
given, and `2` if the command line is not in order or the project cannot be handled.

A command that watches the project is run once here, and the result says what is to be done
again when files change.
-/

namespace Stylewire

/-- Why a command line fails. -/
inductive Failure
  /-- The command line is not in order. -/
  | usage
  /-- The project cannot be handled. -/
  | project (e : Error)
deriving Repr, DecidableEq

/-- What running a command line leads to. -/
structure RunResult where
  exit : Nat
  output : Output
  failure : Option Failure := none
  tree : FileTree
  /-- What is done again when files change, if the project is watched. -/
  watching : Option String := none

/-- The version that is told. -/
def versionLine : String := "bellagonia_cli 0.3.0"

namespace Command

/-- The settings with which a command runs. -/
structure Context where
  tree : FileTree
  root : Path
  color : Bool
  verbose : Bool

/-- A run that ends with the given exit code and changes nothing. -/
def Context.done (c : Context) (exit : Nat) (output : Output) : RunResult :=
  { exit, output, tree := c.tree }

/-- A run that fails. -/
def Context.fail (c : Context) (e : Error) : RunResult :=
  { exit := 2, output := {}, failure := some (.project e), tree := c.tree }

/-- The end of a run that may fail. -/
def Context.finish (c : Context) (r : Except Error RunResult) : RunResult :=
  match r with
  | .ok r => r
  | .error e => c.fail e

/-- The line of an error that is not one of the library. -/
def Context.errorLine (c : Context) (message : String) : Output :=
  .errLine (Paint.red.apply c.color "error:" ++ " " ++ message)

/-- What is printed before the project is watched. -/
def watchingLine : String := "\nWatching for file changes... (press Ctrl+C to stop)"

/-- Why a project cannot be watched. -/
def watchMessage : FileError → String
  | .notFound => "No path was found."
  | e => e.message

/-- Watches the project after a first run. Nothing can be watched where no path leads. -/
def Context.watch (c : Context) (doing : String) (r : RunResult) : RunResult :=
  match c.tree.resolve c.root with
  | .ok _ => { r with exit := 0, watching := some doing }
  | .error e =>
      { r with
        exit := 2
        output := r.output ++ .outLine watchingLine ++ c.errorLine (watchMessage e) }

/-- Checks the project. -/
def runCheck (c : Context) (diff : Bool) (format : ReportFormat) : Except Error RunResult := do
  let s ← Scan.run c.tree c.root (← Settings.load c.tree c.root)
  let report := match format with
    | .text => Report.checkText c.color diff c.root s
    | .json => Report.checkJson c.root s
    | .annotations => Report.checkAnnotations c.root s
  return c.done (if s.isClean then 0 else 1) (Report.oversized c.color s ++ report)

/-- Updates the project. -/
def runUpdate (c : Context) (dryRun : Bool) : Except Error RunResult := do
  let s ← Scan.run c.tree c.root (← Settings.load c.tree c.root)
  let warning := Report.oversized c.color s
  if s.isClean then
    return c.done 0 (warning ++ .outLine "All directive sources are already up to date.")
  else if dryRun then return c.done 0 (warning ++ Report.dryRun c.root s)
  else
    match s.write c.tree with
    | (tree, none) =>
        return { exit := 0, output := warning ++ Report.updated c.color c.verbose c.root s, tree }
    | (tree, some e) => return { c.fail (.file e) with tree }

/-- Prints the tags of the stylesheets. -/
def runStyles (c : Context) (mode : Option TagMode) (lead : Option Text)
    (base : Option Path) : Except Error RunResult := do
  let settings ← Settings.load c.tree c.root
  let s ← Scan.run c.tree c.root settings
  let given := settings.tagOptions c.root
  let options : TagOptions :=
    { base := (base.map (Path.join c.root)).or given.base
      lead := lead.getD given.lead
      mode := mode.getD given.mode }
  if s.styles.isEmpty then return c.done 0 (.errLine "No stylesheets collected.")
  else
    let tags := Output.outLine (String.ofList (options.render s.styles))
    let count : Output := if c.verbose then
      .errLine (Paint.bold.apply c.color "collected" ++ s!" {s.styles.length} stylesheet(s)")
      else {}
    return c.done 0 (tags ++ count)

/-- Wires one file. A file that cannot be read or written is told as such. -/
def runWire (c : Context) (file : Path) (module : Text) (write : Bool) :
    Except Error RunResult := do
  let settings ← Settings.load c.tree c.root
  let wiring ← Wiring.ofNames settings.directive settings.marker
  let cannot (warning : Output) (e : FileError) : RunResult :=
    c.done 2 (warning ++ c.errorLine e.message)
  match c.tree.readText file with
  | .error e => return cannot {} e
  | .ok source =>
      let o := wiring.wire source module
      let warning : Output := if o.hasMalformed then
        .errLine (Paint.yellow.apply c.color "warning:" ++
          s!" left malformed `{String.ofList settings.directive}` call(s) untouched " ++
          s!"in {String.ofList file}")
        else {}
      if !write then return c.done 0 (warning ++ { out := String.ofList o.code })
      else if !o.isChanged then
        return c.done 0 (warning ++ .outLine s!"{String.ofList file} is already up to date.")
      else match c.tree.write file o.code with
        | .error e => return cannot warning e
        | .ok tree =>
            let line := Paint.green.apply c.color "Rewrote" ++
              s!" {String.ofList file} ({o.injected} call site(s))"
            return { exit := 0, output := warning ++ .outLine line, tree }

/-- Runs a command. -/
def run (c : Context) (command : Command) : RunResult :=
  c.finish (match command with
    | .check diff format watch =>
        (runCheck c diff format).map fun r => if watch then c.watch "checking" r else r
    | .update dryRun watch =>
        (runUpdate c dryRun).map fun r =>
          if watch && !dryRun && r.failure.isNone then c.watch "updating" r else r
    | .styles mode lead base => runStyles c mode lead base
    | .wire file module write => runWire c file module write)

end Command

/-- The absolute path of the working directory. -/
def FileTree.workingPath (fs : FileTree) : Path := '/' :: Text.join ['/'] fs.working

/-- Runs a command line. `color` says that the surroundings allow colours. -/
def runArguments (fs : FileTree) (color : Bool) (args : List String) : RunResult :=
  match Request.ofArguments? args with
  | none => { exit := 2, output := {}, failure := some .usage, tree := fs }
  | some .version => { exit := 0, output := .outLine versionLine, tree := fs }
  | some (.help command long) =>
      { exit := 0, output := { out := helpText command long }, tree := fs }
  | some (.run i) =>
      match i.command with
      | none =>
          { exit := 1
            output :=
              .errLine "No subcommand specified. Run `bellagonia --help` for usage."
            tree := fs }
      | some command =>
          command.run
            { tree := fs
              root := i.path.getD fs.workingPath
              color := color && !i.noColor
              verbose := i.verbose }

end Stylewire
