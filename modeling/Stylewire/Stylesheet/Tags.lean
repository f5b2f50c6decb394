import Stylewire.Path

set_option autoImplicit false

/-! # Tags for stylesheets

The markup that loads a list of stylesheets: one `style` element with imports, or one `link`
element for each.
-/

namespace Stylewire

/-- How stylesheets are loaded. -/
inductive TagMode
  | imports
  | links
deriving Repr, DecidableEq

/-- The word for a mode. -/
def TagMode.word : TagMode → String
  | imports => "import"
  | links => "link"

/-- How references to stylesheets are written. -/
structure TagOptions where
  /-- The directory references are relative to. -/
  base : Option Path := none
  /-- What is put before a relative reference. -/
  lead : Text := ['/']
  mode : TagMode := .imports
deriving Repr, DecidableEq

/-- The reference to a stylesheet: what is below the base, after the lead, or the path as
written if it is not below the base. -/
def TagOptions.href (o : TagOptions) (p : Path) : Text :=
  match o.base.bind fun base => Path.below? base p with
  | some cs => o.lead ++ Text.join ['/'] (cs.map Component.text)
  | none => p

/-- The markup for the stylesheets, empty if there are none. -/
def TagOptions.render (o : TagOptions) (paths : List Path) : Text :=
  if paths.isEmpty then []
  else match o.mode with
    | .links =>
        Text.join ['\n'] (paths.map fun p =>
          "<link rel=\"stylesheet\" href=\"".toList ++ o.href p ++ "\">".toList)
    | .imports =>
        "<style>\n".toList ++
          Text.join ['\n'] (paths.map fun p =>
            "@import url(\"".toList ++ o.href p ++ "\");".toList) ++
          "\n</style>".toList

end Stylewire
