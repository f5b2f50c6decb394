import Stylewire.FileTree
import Stylewire.Glob.Lookup
import Stylewire.Glob.Parser

set_option autoImplicit false

/-! # Ignore rules

An ignore rule says which paths of a project to leave out. It is a glob for paths relative
to the root of the project, unless it has no `/` but at its end: then it matches in every
directory. A rule that starts with `!` takes paths back in, one that ends with `/` holds for
directories only. Of the rules that match a path, the last one decides.
-/

namespace Stylewire

/-- An ignore rule. -/
structure IgnoreRule where
  glob : Glob
  /-- Whether the rule takes paths back in. -/
  whitelist : Bool
  /-- Whether the rule holds for directories only. -/
  directoriesOnly : Bool

namespace IgnoreRule

/-- The line as a rule is read from it: without the blanks at its end, unless the last of
them is escaped. -/
def trimLine (line : Text) : Text :=
  if [' ', '\\'].isPrefixOf line.reverse then line else line.trimEnd

/-- A line split into whether it takes paths back in, whether it is anchored at the root, and
the rest. -/
def splitLead (line : Text) : Bool × Bool × Text :=
  match line with
  | '\\' :: '!' :: t => (false, false, '!' :: t)
  | '\\' :: '#' :: t => (false, false, '#' :: t)
  | '!' :: '/' :: t => (true, true, t)
  | '!' :: t => (true, false, t)
  | '/' :: t => (false, true, t)
  | t => (false, false, t)

/-- A pattern split into whether it holds for directories only, and the rest. -/
def splitEnd (pattern : Text) : Bool × Text :=
  match pattern.reverse with
  | '/' :: '\\' :: t => (true, t.reverse)
  | '/' :: t => (true, t.reverse)
  | _ => (false, pattern)

/-- The text of the glob of a pattern: with `**/` in front if it matches in every directory,
and with `/*` behind `/**`, which does not match the directory itself. -/
def globText (anchored : Bool) (pattern : Text) : Text :=
  let everywhere := !anchored && !pattern.elem '/' && pattern != ['*', '*']
  let glob := if everywhere then ['*', '*', '/'] ++ pattern else pattern
  if ['*', '*', '/'].isPrefixOf glob.reverse then glob ++ ['/', '*'] else glob

/-- The rule of a line. A comment or an empty line has none. -/
def ofLine (line : Text) : Except GlobError (Option IgnoreRule) :=
  if line.head? == some '#' then .ok none
  else
    let line := trimLine line
    if line.isEmpty then .ok none
    else
      let (whitelist, anchored, pattern) := splitLead line
      let (directoriesOnly, pattern) := splitEnd pattern
      match Glob.parse true (globText anchored pattern) with
      | .ok glob => .ok (some { glob, whitelist, directoriesOnly })
      | .error e => .error e

/-- Whether the rule matches a path, given as bytes relative to the root. -/
def applies (r : IgnoreRule) (path : List UInt8) (isDirectory : Bool) : Bool :=
  (isDirectory || !r.directoriesOnly) && r.glob.accepts path

end IgnoreRule

/-- The rules of a project, and its root. -/
structure IgnoreRules where
  root : Path
  rules : List IgnoreRule

namespace IgnoreRules

/-- A path without a `./` in front. -/
def dropHere : Path → Path
  | '.' :: '/' :: p => p
  | p => p

/-- The path relative to the root. -/
def relative (root p : Path) : Path :=
  let root := dropHere root
  let p := dropHere p
  if Path.components root != [.current] && p.elem '/' && root.isPrefixOf p then
    match p.drop root.length with
    | '/' :: q => q
    | q => q
  else p

/-- Whether the rules leave a path out. -/
def ignores (rs : IgnoreRules) (p : Path) (isDirectory : Bool) : Bool :=
  let path := Text.bytes (relative rs.root p)
  match rs.rules.reverse.find? fun r => r.applies path isDirectory with
  | some r => !r.whitelist
  | none => false

/-! ## Rules from settings and from the ignore file -/

/-- Some rules, if they can be used together. -/
def ofRules (root : Path) (rules : List IgnoreRule) : Except GlobSetError IgnoreRules :=
  match Glob.checkAll (rules.map IgnoreRule.glob) with
  | .ok () => .ok ⟨root, rules⟩
  | .error e => .error e

/-- The rules of a list of patterns, each of which must be a rule. -/
def ofPatterns (root : Path) (patterns : List Text) : Except Error IgnoreRules := do
  let rules ← patterns.mapM fun p =>
    match IgnoreRule.ofLine p with
    | .ok r => .ok r
    | .error e => .error (Error.invalidExclude p (IgnoreRule.trimLine p) e)
  (ofRules root (rules.filterMap id)).mapError Error.invalidExcludes

/-- The lines of a text, without line ends. -/
def lines (t : Text) : List Text :=
  let parts := Text.split '\n' t
  let ended := parts.dropLast.map fun l => if l.endsWith '\r' then l.dropLast else l
  match parts.getLast? with
  | some l => if l.isEmpty then ended else ended ++ [l]
  | none => ended

/-- The bytes up to and including each line feed, and what follows the last one. -/
def byteLines : List UInt8 → List (List UInt8)
  | [] => [[]]
  | b :: bytes =>
      if b = 0x0A then [b] :: byteLines bytes
      else match byteLines bytes with
        | [] => [[b]]
        | l :: ls => (b :: l) :: ls

/-- The text of a content up to the first line that is not text. -/
def leadingText : Content → Text
  | .text t => t
  | .binary bytes =>
      let decode (l : List UInt8) : Option Text :=
        (String.fromUTF8? ⟨l.toArray⟩).map String.toList
      (((byteLines bytes).map decode).takeWhile Option.isSome).flatMap fun l => l.getD []

/-- The rules of an ignore file. Lines that are no rules do not count, and rules that cannot
be used together do not count at all. -/
def ofContent (root : Path) (content : Content) : IgnoreRules :=
  let text := (leadingText content).dropWhile (· == '\ufeff')
  let rules := (lines text).filterMap fun l =>
    match IgnoreRule.ofLine l with
    | .ok r => r
    | .error _ => none
  match ofRules root rules with
  | .ok rules => rules
  | .error _ => ⟨root, []⟩

/-- The rules of the ignore file of a project. -/
def load (fs : FileTree) (root : Path) : IgnoreRules :=
  match fs.read (Path.join root ".gitignore".toList) with
  | .ok content => ofContent root content
  | .error _ => ⟨root, []⟩

end IgnoreRules

end Stylewire
