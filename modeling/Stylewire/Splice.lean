import Stylewire.Text.Basic

set_option autoImplicit false

/-! # Splices

A splice replaces one stretch of a text.
-/

namespace Stylewire

/-- The replacement of the text from position `start` up to, not including, `stop`. -/
structure Splice where
  start : Nat
  stop : Nat
  replacement : Text
deriving Repr, DecidableEq

/-- The text with the stretch replaced. -/
def Splice.apply (s : Splice) (t : Text) : Text :=
  t.take s.start ++ (s.replacement ++ t.drop s.stop)

end Stylewire
