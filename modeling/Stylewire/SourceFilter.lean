import Stylewire.Glob.Lookup
import Stylewire.Glob.Parser
import Stylewire.Path

set_option autoImplicit false

/-! # Source filters

A source filter picks modules by their paths. A pattern matches the end of a path, from the
start of any of its segments on, unless the pattern is anchored by a `/` in front.
-/

namespace Stylewire

/-- The text of a glob that matches the paths a pattern is meant for. -/
def suffixPattern (pattern : Text) : Text :=
  let p := match pattern with
    | '.' :: '/' :: p => p
    | p => p
  if ['/'].isPrefixOf p || ['*', '*', '/'].isPrefixOf p || p == ['*', '*'] then p
  else ['*', '*', '/'] ++ p

/-- Patterns for paths, and the globs they stand for. -/
structure SourceFilter where
  patterns : List Text
  globs : List Glob

namespace SourceFilter

/-- The pattern in use unless others are given. -/
def defaultPatterns : List Text := ["src/directives/**/*.ts".toList]

/-- The glob of one pattern. -/
def globOf (pattern : Text) : Except Error Glob :=
  match Glob.parse false (suffixPattern pattern) with
  | .ok g => .ok g
  | .error e => .error (.invalidGlob pattern e)

/-- The filter of a list of patterns. -/
def ofPatterns (patterns : List Text) : Except Error SourceFilter :=
  match patterns.mapM globOf with
  | .error e => .error e
  | .ok globs =>
      match Glob.checkAll globs with
      | .error e => .error (.invalidGlobs patterns e)
      | .ok () => .ok ⟨patterns, globs⟩

/-- Whether one of the patterns matches the path. A backslash counts as a separator. -/
def isMatch (f : SourceFilter) (path : Path) : Bool :=
  let bytes := Text.bytes (path.map fun c => if c = '\\' then '/' else c)
  f.globs.any fun g => g.accepts bytes

end SourceFilter

end Stylewire
