import Stylewire.Command.Spec

set_option autoImplicit false

/-! # Help

The help for the program and for each command, in a short form with one line for each option
and in a long form with a paragraph for each.
-/

namespace Stylewire

namespace Help

/-- A text with blanks behind it, up to a width. -/
def padded (width : Nat) (s : String) : String :=
  s ++ String.ofList (List.replicate (width - s.length) ' ')

/-- The values of an option that the help tells, in brackets. -/
def choices (v : ValueSpec) : List String :=
  if v.choices.isEmpty then []
  else ["[possible values: " ++ String.intercalate ", " (v.choices.map Choice.name) ++ "]"]

/-- The preset of an option, in brackets. -/
def preset (v : ValueSpec) : List String :=
  match v.preset with
  | some s => [s!"[default: {s}]"]
  | none => []

/-- An option as it is written on the command line. -/
def written (o : OptionSpec) : String :=
  match o.value with
  | some v => s!"--{o.name} <{v.label}>"
  | none => s!"--{o.name}"

/-- An option with its letter. -/
def withLetter (o : OptionSpec) : String :=
  match o.letter with
  | some c => s!"  -{c}, {written o}"
  | none => s!"      {written o}"

/-! ## The short form -/

/-- A list of entries with what is told about them, in two columns. -/
def columns (entries : List (String × String)) : String :=
  let width := entries.foldl (fun w e => max w e.1.length) 0
  String.join (entries.map fun e => padded (width + 2) e.1 ++ e.2 ++ "\n")

/-- What the short form tells about an option. -/
def shortAbout (o : OptionSpec) : String :=
  match o.value with
  | some v => String.intercalate " " (o.about :: (preset v ++ choices v))
  | none => o.about

/-! ## The long form -/

/-- The start of the paragraphs of the long form. -/
def indent : String := "          "

/-- The values of an option, one to a line. -/
def choiceList (v : ValueSpec) : String :=
  if v.choices.isEmpty then ""
  else
    let width := v.choices.foldl (fun w c => max w c.name.length) 0
    s!"\n\n{indent}Possible values:" ++ String.join (v.choices.map fun c =>
      s!"\n{indent}- " ++ padded (width + 2) (c.name ++ ":") ++ c.about)

/-- What the long form tells about an option. -/
def longAbout (o : OptionSpec) : String :=
  match o.value with
  | some v =>
      o.about ++ choiceList v ++
        String.join ((preset v).map fun p => s!"\n{indent}\n{indent}{p}")
  | none => o.about

/-- A list of entries with what is told about them, each in paragraphs of its own. -/
def paragraphs (entries : List (String × String)) : String :=
  String.intercalate "\n" (entries.map fun e => s!"{e.1}\n{indent}{e.2}\n")

/-! ## The whole -/

/-- How a command line is made up. -/
def usage (c : CommandSpec) (isProgram : Bool) : String :=
  let required := (c.options.filter OptionSpec.required).map fun o => " " ++ written o
  let operands := c.operands.map fun o => s!" <{o.label}>"
  let program := CommandSpec.program.name
  "Usage: " ++ (if isProgram then s!"{program} [OPTIONS] [COMMAND]"
    else s!"{program} {c.name} [OPTIONS]") ++ String.join (required ++ operands) ++ "\n"

/-- The list of commands. -/
def commands : String :=
  let help := ("  " ++ CommandSpec.helpName,
    "Print this message or the help of the given subcommand(s)")
  "\nCommands:\n" ++ columns ((CommandSpec.all.map fun c => ("  " ++ c.name, c.about)) ++ [help])

/-- The list of operands. -/
def operands (c : CommandSpec) (long : Bool) : String :=
  if c.operands.isEmpty then ""
  else
    "\nArguments:\n" ++
      (if long then paragraphs else columns) (c.operands.map fun o => (s!"  <{o.label}>", o.about))

/-- The list of options. -/
def options (os : List OptionSpec) (long : Bool) : String :=
  "\nOptions:\n" ++
    if long then paragraphs (os.map fun o => (withLetter o, longAbout o))
    else columns (os.map fun o => (withLetter o, shortAbout o))

end Help

/-- The help for a command, or for the program if none is given. -/
def helpText (command : Option CommandSpec) (long : Bool) : String :=
  let c := command.getD .program
  let asking := match command with
    | some _ => [OptionSpec.help long]
    | none => [OptionSpec.help long, OptionSpec.version]
  (if long then c.story else c.about) ++ "\n\n" ++ Help.usage c command.isNone ++
    (if command.isNone then Help.commands else "") ++ Help.operands c long ++
    Help.options (c.options ++ asking) long

end Stylewire
