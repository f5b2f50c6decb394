import Stylewire.Command.Spec
import Stylewire.Path
import Stylewire.Stylesheet.Tags

set_option autoImplicit false

/-! # Command lines

A command line is a list of options, a command, and options and operands of the command.
The options that concern every command may stand on either side of the command. An option is
written `--name`, `--name=value`, `--name value`, or with one letter `-n`, `-nvalue`,
`-n=value`, `-n value`, and letters without values can be joined. No option is given twice
on one side. After `--` there are only operands.
-/

namespace Stylewire

/-- How the result of a check is told. -/
inductive ReportFormat
  | text
  | json
  | annotations
deriving Repr, DecidableEq

/-- What is to be done. -/
inductive Command
  /-- Tell which scripts would change. -/
  | check (diff : Bool) (format : ReportFormat) (watch : Bool)
  /-- Change them. -/
  | update (dryRun watch : Bool)
  /-- Print the tags of the stylesheets. -/
  | styles (mode : Option TagMode) (lead : Option Text) (base : Option Path)
  /-- Wire one file to a given module, and print it or write it back. -/
  | wire (file : Path) (module : Text) (write : Bool)
deriving Repr, DecidableEq

/-- A command line that can be run. -/
structure Invocation where
  command : Option Command
  /-- The root of the project. -/
  path : Option Path
  verbose : Bool
  noColor : Bool
deriving Repr, DecidableEq

/-- What a command line asks for. -/
inductive Request
  | run (i : Invocation)
  | version
  | help (command : Option CommandSpec) (long : Bool)

/-! ## Reading one side of the command -/

/-- Why reading ends early. -/
inductive Stop
  | usage
  | version
  | help (long : Bool)
deriving Repr, DecidableEq

/-- What has been read: the options given, with their values, and the operands. -/
structure Given where
  options : List (String × String) := []
  operands : List String := []

namespace Given

/-- Whether an option was given. -/
def has (g : Given) (o : OptionSpec) : Bool := g.options.any fun e => e.1 == o.name

/-- The value given for an option. -/
def value? (g : Given) (o : OptionSpec) : Option String :=
  (g.options.find? fun e => e.1 == o.name).map Prod.snd

/-- Takes an option with its value. -/
def take (g : Given) (o : OptionSpec) (value : String) : Except Stop Given :=
  if g.has o || (o.value.any fun v => !v.allows value) then .error .usage
  else .ok { g with options := g.options ++ [(o.name, value)] }

/-- Takes an option without value. One that asks for help or for the version ends the
reading; `long` says that it was given by its name. -/
def takeFlag (g : Given) (o : OptionSpec) (long : Bool) : Except Stop Given :=
  if o.name == (OptionSpec.help long).name then .error (.help long)
  else if o.name == OptionSpec.version.name then .error .version
  else g.take o ""

/-- Takes an operand, of which there may be `limit`; it must not be empty. -/
def takeOperand (g : Given) (limit : Nat) (operand : String) : Except Stop Given :=
  if g.operands.length < limit && operand != "" then
    .ok { g with operands := g.operands ++ [operand] }
  else .error .usage

/-- Reads joined letters. Gives also the option that waits for its value. -/
def takeLetters (specs : List OptionSpec) (g : Given) :
    List Char → Except Stop (Given × Option OptionSpec)
  | [] => .ok (g, none)
  | c :: cs => do
      match specs.find? fun o => o.letter == some c with
      | none => .error .usage
      | some o =>
          match o.value, cs with
          | some _, [] => return (g, some o)
          | some _, '=' :: v => return (← g.take o (String.ofList v), none)
          | some _, v => return (← g.take o (String.ofList v), none)
          | none, _ => takeLetters specs (← g.takeFlag o false) cs

/-- Reads an option given by its name. -/
def takeNamed (specs : List OptionSpec) (g : Given) (name : List Char)
    (value : Option (List Char)) : Except Stop (Given × Option OptionSpec) := do
  match specs.find? fun o => o.name == String.ofList name with
  | none => .error .usage
  | some o =>
      match o.value, value with
      | some _, some v => return (← g.take o (String.ofList v), none)
      | some _, none => return (g, some o)
      | none, some _ => .error .usage
      | none, none => return (← g.takeFlag o true, none)

end Given

/-- How a word of the command line is to be read. -/
inductive Word
  /-- The mark after which there are only operands. -/
  | endOfOptions
  | named (name : List Char) (value : Option (List Char))
  | letters (cs : List Char)
  | plain

/-- How a word is to be read. -/
def Word.ofText : List Char → Word
  | ['-', '-'] => .endOfOptions
  | '-' :: '-' :: t =>
      let name := t.takeWhile (· != '=')
      match t.dropWhile (· != '=') with
      | [] => .named name none
      | _ :: v => .named name (some v)
  | '-' :: c :: cs => .letters (c :: cs)
  | _ => .plain

/-- Reads the words of one side, up to one of the `commands`. `waiting` is an option that
waits for its value, and `operandsOnly` says that no options follow. Gives also the command
and the words after it. -/
def readSide (specs : List OptionSpec) (commands : List String) (limit : Nat) (g : Given)
    (waiting : Option OptionSpec) (operandsOnly : Bool) :
    List String → Except Stop (Given × Option (String × List String))
  | [] => if waiting.isSome then .error .usage else .ok (g, none)
  | w :: ws => do
      if operandsOnly then
        readSide specs commands limit (← g.takeOperand limit w) none true ws
      else match waiting, Word.ofText w.toList with
        | none, .plain =>
            if commands.contains w then return (g, some (w, ws))
            else readSide specs commands limit (← g.takeOperand limit w) none false ws
        | some o, .plain => readSide specs commands limit (← g.take o w) none false ws
        | none, .named name value =>
            let (g, waiting) ← g.takeNamed specs name value
            readSide specs commands limit g waiting false ws
        | none, .letters cs =>
            let (g, waiting) ← g.takeLetters specs cs
            readSide specs commands limit g waiting false ws
        | none, .endOfOptions => readSide specs commands limit g none true ws
        | some _, _ => .error .usage

/-! ## Requests -/

open OptionSpec in
/-- The command of what was given after its name. -/
def Given.command? (g : Given) (c : CommandSpec) : Option Command :=
  if c.name == CommandSpec.check.name then
    let format := match g.value? format with
      | some "json" => .json
      | some "github" => .annotations
      | _ => ReportFormat.text
    some (.check (g.has diff) format (g.has (watch "")))
  else if c.name == CommandSpec.update.name then
    some (.update (g.has dryRun) (g.has (watch "")))
  else if c.name == CommandSpec.styles.name then
    let mode := (g.value? mode).map fun m =>
      if m == TagMode.links.word then TagMode.links else TagMode.imports
    some (.styles mode ((g.value? lead).map String.toList) ((g.value? base).map String.toList))
  else match g.operands, g.value? module with
    | [file], some m => some (.wire file.toList m.toList (g.has write))
    | _, _ => none

/-- What a command line asks for with the given on both sides of the command. What stands
after the command wins over what stands before. -/
def Request.ofGiven (before after : Given) (command : Option Command) : Request :=
  .run
    { command
      path := ((after.value? .path).or (before.value? .path)).map String.toList
      verbose := before.has .verbose || after.has .verbose
      noColor := before.has .noColor || after.has .noColor }

/-- Asks for the help for the named command, or for the program. -/
def Request.helpFor? : List String → Option Request
  | [] => some (.help none true)
  | [name] => (CommandSpec.all.find? fun c => c.name == name).map fun c => .help (some c) true
  | _ => none

/-- The request of a reading that ended early. -/
def Stop.request? (s : Stop) (command : Option CommandSpec) : Option Request :=
  match s with
  | .usage => none
  | .version => some .version
  | .help long => some (.help command long)

/-- What the words after a command ask for. -/
def Request.ofCommand? (before : Given) (c : CommandSpec) (words : List String) :
    Option Request :=
  match readSide (.help true :: c.options) [] c.operands.length {} none false words with
  | .error stop => stop.request? (some c)
  | .ok (after, _) => (after.command? c).map fun command => .ofGiven before after (some command)

/-- What a command line asks for; none if it is not in order. -/
def Request.ofArguments? (args : List String) : Option Request :=
  let specs := .help true :: .version :: CommandSpec.program.options
  let names := CommandSpec.helpName :: CommandSpec.all.map CommandSpec.name
  match readSide specs names 0 {} none false args with
  | .error stop => stop.request? none
  | .ok (before, none) => some (.ofGiven before {} none)
  | .ok (before, some (name, words)) =>
      match CommandSpec.all.find? fun c => c.name == name with
      | some c => ofCommand? before c words
      | none => helpFor? words

end Stylewire
