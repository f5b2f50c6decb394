import Stylewire.Glob.Expression

set_option autoImplicit false

/-! # Looking paths up in a set of globs

Most globs need no regular expression: for some the file name or its extension decides, for
others the text of the path, its start or its end. The rest are matched by their expressions,
which is why these may not nest too deep. A path that ends in `..` has no file name, so it
matches no glob that looks at the file name.
-/

namespace Stylewire

/-- What of a path decides whether a glob matches. -/
inductive GlobLookup
  /-- The file name. -/
  | fileName
  /-- The text of the path, of its start or of its end. -/
  | pathText
  /-- The extension of the file name. -/
  | extension
  /-- The extension of the file name, and the expression. -/
  | extensionAndExpression
  /-- The expression. -/
  | expression
deriving Repr, DecidableEq

namespace Glob

/-- Whether a token is a literal other than the given characters. -/
def isLiteralBut (others : List Char) : GlobToken → Bool
  | .literal c => !others.elem c
  | _ => false

/-- Whether the glob is a text, perhaps with everything below it, or after any leading
directories. -/
def isPathText (g : Glob) : Bool :=
  let literals (g : Glob) : Bool := g.all (isLiteralBut [])
  match g with
  | [] => false
  | .leadingDirs :: g => !g.isEmpty && literals g
  | g => match g.getLast? with
    | some .everythingBelow => literals g.dropLast
    | _ => literals g

/-- Whether the glob ends in a dot and literals other than dots and separators. -/
def endsInExtension (g : Glob) : Bool :=
  match g.reverse.dropWhile (isLiteralBut ['.', '/']) with
  | .literal '.' :: _ => true
  | _ => false

/-- How paths are looked up for the glob. -/
def lookup (g : Glob) : GlobLookup :=
  match g with
  | .leadingDirs :: .anyRun :: .literal '.' :: ts =>
      if ts.all (isLiteralBut ['.', '/']) then .extension
      else if endsInExtension g then .extensionAndExpression
      else .expression
  | .leadingDirs :: t :: ts =>
      if (t :: ts).all (isLiteralBut ['/']) then .fileName
      else if isPathText g then .pathText
      else if endsInExtension g then .extensionAndExpression
      else .expression
  | g =>
      if isPathText g then .pathText
      else if endsInExtension g then .extensionAndExpression
      else .expression

/-- Whether the file name decides, alone or with the expression. -/
def looksAtFileName (g : Glob) : Bool :=
  match g.lookup with
  | .fileName | .extension | .extensionAndExpression => true
  | .pathText | .expression => false

/-- Whether a path has no file name: its last segment is `..`. -/
def lacksFileName (path : List UInt8) : Bool :=
  path.reverse.takeWhile (· != slash) == [0x2E, 0x2E]

/-- Whether the glob accepts the path. -/
def accepts (g : Glob) (path : List UInt8) : Bool :=
  !(g.looksAtFileName && lacksFileName path) && g.isMatch path

/-- Checks that no expression that is needed to look paths up nests too deep. Those of globs
that also look at the extension stand alone, the others are taken together. -/
def checkAll (globs : List Glob) : Except GlobSetError Unit :=
  let expressions (l : GlobLookup) : List (List Expression) :=
    (globs.filter fun g => g.lookup = l).map Expression.ofGlob
  match (expressions .extensionAndExpression).find? Expression.isTooDeep with
  | some es => .error (.deepAlone (Expression.anchoredText es))
  | none =>
      match (expressions .expression).findIdx? Expression.isTooDeep with
      | some i => .error (.deepTogether i)
      | none => .ok ()

end Glob

end Stylewire
