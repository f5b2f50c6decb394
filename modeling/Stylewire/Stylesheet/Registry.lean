import Stylewire.Path

set_option autoImplicit false

/-! # The registry of stylesheets

The stylesheets in use, in the order of their first use. Paths with the same components are
one stylesheet, listed as it was first written.
-/

namespace Stylewire

/-- The stylesheets in use. -/
structure Registry where
  /-- Their paths, in the order of their first use. -/
  paths : List Path := []
  /-- The components of these paths. Their order does not count. -/
  seen : List (List Component) := []
deriving Repr, DecidableEq

namespace Registry

/-- Whether the stylesheet is listed. -/
def contains (r : Registry) (p : Path) : Bool := r.seen.contains (Path.components p)

/-- The registry with the stylesheet listed. -/
def add (r : Registry) (p : Path) : Registry :=
  if r.contains p then r else ⟨r.paths ++ [p], Path.components p :: r.seen⟩

end Registry

end Stylewire
