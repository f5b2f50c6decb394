import Stylewire.Text.Basic

set_option autoImplicit false

/-! # What can go wrong

The causes of failure of the library, and their wording.
-/

namespace Stylewire

/-- What an identifier is used for: the function whose calls are wired, or the name the
stylesheet is imported under. -/
inductive Role
  | directive
  | marker
deriving Repr, DecidableEq

/-- The word for a role. -/
def Role.word : Role → String
  | directive => "directive"
  | marker => "marker"

/-- Why a glob cannot be read. -/
inductive GlobError
  | unclosedClass
  | invalidRange (lo hi : Char)
  | unclosedAlternates
  | unopenedAlternates
  | danglingEscape
deriving Repr, DecidableEq

/-- The wording of a glob error. -/
def GlobError.message : GlobError → String
  | unclosedClass => "unclosed character class; missing ']'"
  | invalidRange lo hi => s!"invalid range; '{lo}' > '{hi}'"
  | unclosedAlternates =>
      "unclosed alternate group; missing '\x7d' (maybe escape '\x7b' with '[\x7b]'?)"
  | unopenedAlternates =>
      "unopened alternate group; missing '\x7b' (maybe escape '\x7d' with '[\x7d]'?)"
  | danglingEscape => "dangling '\\'"

/-- Why a set of globs cannot be used: the expression of one of them nests too deep. -/
inductive GlobSetError
  /-- An expression that stands alone. -/
  | deepAlone (expression : Text)
  /-- One of several expressions that are taken together, by its place among them. -/
  | deepTogether (index : Nat)
deriving Repr, DecidableEq

/-- The wording of an error of a set of globs. -/
def GlobSetError.message : GlobSetError → String
  | deepAlone expression =>
      s!"error parsing glob '{String.ofList expression}': error parsing pattern 0"
  | deepTogether index => s!"error parsing pattern {index}"

/-- Why a file cannot be used. -/
inductive FileError
  | notFound
  | isDirectory
  | notDirectory
  | linkLoop
  | nameTooLong
  | permissionDenied
  | notText
deriving Repr, DecidableEq

/-- The wording of a file error. -/
def FileError.message : FileError → String
  | notFound => "No such file or directory (os error 2)"
  | isDirectory => "Is a directory (os error 21)"
  | notDirectory => "Not a directory (os error 20)"
  | linkLoop => "Too many levels of symbolic links (os error 40)"
  | nameTooLong => "File name too long (os error 36)"
  | permissionDenied => "Permission denied (os error 13)"
  | notText => "stream did not contain valid UTF-8"

/-- Why a project cannot be handled. -/
inductive Error
  /-- A name that is no identifier. -/
  | invalidIdentifier (role : Role) (value : Text)
  /-- A source pattern that is no glob. -/
  | invalidGlob (pattern : Text) (reason : GlobError)
  /-- Source patterns that cannot be used together. -/
  | invalidGlobs (patterns : List Text) (reason : GlobSetError)
  /-- A settings file that does not describe settings. -/
  | invalidSettings
  /-- An exclude pattern that is no ignore rule; `line` is the pattern without the blanks at
  its end. -/
  | invalidExclude (pattern line : Text) (reason : GlobError)
  /-- Exclude patterns that cannot be used together. -/
  | invalidExcludes (reason : GlobSetError)
  /-- The walk enters a directory a second time. -/
  | linkCycle (path : Text)
  /-- A file cannot be read or written. -/
  | file (reason : FileError)
  /-- The argument list of the call at a byte offset never ends. -/
  | unclosedArguments (offset : Nat)
deriving Repr, DecidableEq

/-- The wording of an error. -/
def Error.message : Error → String
  | invalidIdentifier role value =>
      s!"invalid {role.word} identifier: `{String.ofList value}`"
  | invalidGlob pattern reason =>
      s!"invalid directive source pattern `{String.ofList pattern}`: {reason.message}"
  | invalidGlobs patterns reason =>
      let all := ", ".intercalate (patterns.map String.ofList)
      s!"invalid directive source pattern `{all}`: {reason.message}"
  | invalidSettings => "failed to parse config file"
  | invalidExclude pattern line reason =>
      s!"failed to parse config file: invalid exclude pattern `{String.ofList pattern}`: " ++
        s!"error parsing glob '{String.ofList line}': {reason.message}"
  | invalidExcludes reason =>
      s!"failed to parse config file: failed to build exclude rules: {reason.message}"
  | linkCycle path => s!"symlink cycle detected at: `{String.ofList path}`"
  | file reason => reason.message
  | unclosedArguments offset => s!"argument list of the call at byte {offset} is never closed"

/-- The code under which an error is told to the user. -/
def Error.code : Error → String
  | invalidIdentifier .. => "bellagonia::invalid_identifier"
  | invalidGlob .. | invalidGlobs .. => "bellagonia::invalid_glob"
  | invalidSettings | invalidExclude .. | invalidExcludes .. => "bellagonia::config_parse"
  | linkCycle _ => "bellagonia::symlink_cycle"
  | file _ => "bellagonia::io_error"
  | unclosedArguments _ => "bellagonia::malformed_argument_span"

/-- What the user can do about an error. -/
def Error.advice? : Error → Option String
  | invalidIdentifier .. => some "identifiers must match `[A-Za-z_$][A-Za-z0-9_$]*`"
  | invalidGlob .. | invalidGlobs .. =>
      some "`*` matches within a path segment and `**` matches across segments"
  | invalidSettings | invalidExclude .. | invalidExcludes .. =>
      some "check that bellagonia.toml is valid TOML"
  | linkCycle _ => some "remove the circular symlink or exclude this path"
  | file _ => none
  | unclosedArguments _ => none

end Stylewire
