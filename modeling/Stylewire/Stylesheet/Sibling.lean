import Stylewire.Path

set_option autoImplicit false

/-! # The stylesheet beside a script

A script's stylesheet lies in the same directory and has the script's name with one of the
stylesheet extensions in place of the script's own.
-/

namespace Stylewire

/-- A stylesheet and the module name it is imported by. -/
structure Stylesheet where
  path : Path
  specifier : Text
deriving Repr, DecidableEq

namespace Stylesheet

/-- The extensions tried, in this order, unless others are given. -/
def defaultExtensions : List Text :=
  [".css.ts".toList, ".css.js".toList, ".module.css".toList, ".module.scss".toList,
    ".css".toList]

/-- The extensions of scripts that a stylesheet's extension takes the place of. -/
def scriptEndings : List Text :=
  [".tsx".toList, ".jsx".toList, ".ts".toList, ".js".toList]

/-- The file name of a script without its extension. -/
def baseName? (script : Path) : Option Text := do
  let name ← Path.fileName? script
  return (scriptEndings.findSome? fun e => Text.beforeEnd? e name).getD name

/-- The module name of a stylesheet. The two that are scripts themselves are imported
without the script extension. -/
def specifierOf (base extension : Text) : Text :=
  let extension := if extension == ".css.ts".toList || extension == ".css.js".toList
    then ".css".toList else extension
  ['.', '/'] ++ base ++ extension

/-- The stylesheet beside a script: that of the first extension for which `isFile` says that
there is a file. -/
def sibling? (extensions : List Text) (isFile : Path → Bool) (script : Path) :
    Option Stylesheet := do
  let dir := (Path.parent? script).getD []
  let base ← baseName? script
  extensions.findSome? fun e =>
    let path := Path.join dir (base ++ e)
    if isFile path then some ⟨path, specifierOf base e⟩ else none

end Stylesheet

end Stylewire
