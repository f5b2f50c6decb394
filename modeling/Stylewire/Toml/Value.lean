import Stylewire.Text.Basic

set_option autoImplicit false

/-! # Values of a TOML document

A value is a string, a number, a truth value, a date or time, an array or a table. Of dates
and times only the fact that they are there is kept, and of a float only its decimal form.
Integers and floats are read with any number of digits; `isReadable` says which of them fit
the machine numbers that a reader of the value can be given.
-/

namespace Stylewire.Toml

/-- The decimal number `digits · 10 ^ exponent`. -/
structure Decimal where
  digits : Nat
  exponent : Int
deriving Repr, DecidableEq

/-- Whether the number is too large for a double: at least halfway from the largest double to
the next power of two, `(2 ^ 54 - 1) · 2 ^ 970`. -/
def Decimal.exceedsDouble (d : Decimal) : Bool :=
  let size : Int := (Nat.toDigits 10 d.digits).length
  if d.digits = 0 || size + d.exponent ≤ 308 then false
  else if 310 ≤ size + d.exponent then true
  else
    (Nat.pow 2 54 - 1) * Nat.pow 2 970 * Nat.pow 10 (-d.exponent).toNat ≤
      d.digits * Nat.pow 10 d.exponent.toNat

/-- A value. -/
inductive Value
  | string (t : Text)
  | integer (n : Int)
  /-- A float; infinities and NaN have no decimal form. -/
  | float (magnitude : Option Decimal)
  | boolean (b : Bool)
  /-- A date, a time, or both. -/
  | datetime
  | array (elements : List Value)
  | table (entries : List (Text × Value))
deriving Repr

mutual

/-- Whether all numbers in the value fit: integers 128 bits, with a sign or without, floats a
double. -/
def Value.isReadable : Value → Bool
  | .integer n => -Int.pow 2 127 ≤ n && n < Int.pow 2 128
  | .float (some d) => !d.exceedsDouble
  | .array elements => allReadable elements
  | .table entries => allEntriesReadable entries
  | .string _ | .float none | .boolean _ | .datetime => true

/-- Whether all numbers in all of the values fit. -/
def allReadable : List Value → Bool
  | [] => true
  | v :: vs => v.isReadable && allReadable vs

/-- Whether all numbers in all of the entries fit. -/
def allEntriesReadable : List (Text × Value) → Bool
  | [] => true
  | (_, v) :: es => v.isReadable && allEntriesReadable es

end

end Stylewire.Toml
