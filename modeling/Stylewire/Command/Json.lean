set_option autoImplicit false

/-! # JSON in reports

Objects are written with their keys in the order given, and without blanks. Strings are
escaped where the format demands it, and nowhere else.
-/

namespace Stylewire

/-- A value of a report. -/
inductive JsonValue
  | bool (b : Bool)
  | number (n : Nat)
  | string (s : String)
  | array (elements : List JsonValue)
  | object (entries : List (String × JsonValue))

namespace JsonValue

/-- One hexadecimal digit. -/
def hexDigit (n : Nat) : Char := Char.ofNat (if n < 10 then 48 + n else 87 + n)

/-- A character as it stands in a string. -/
def escape (c : Char) : List Char :=
  if c = '"' then ['\\', '"']
  else if c = '\\' then ['\\', '\\']
  else if c = '\n' then ['\\', 'n']
  else if c = '\r' then ['\\', 'r']
  else if c = '\t' then ['\\', 't']
  else if c = '\x08' then ['\\', 'b']
  else if c = '\x0c' then ['\\', 'f']
  else if c.toNat < 0x20 then
    ['\\', 'u', '0', '0', hexDigit (c.toNat / 16), hexDigit (c.toNat % 16)]
  else [c]

/-- A string with its quotes. -/
def quote (s : String) : String := "\"" ++ String.ofList (s.toList.flatMap escape) ++ "\""

mutual

/-- The text of a value. -/
def render : JsonValue → String
  | .bool b => if b then "true" else "false"
  | .number n => toString n
  | .string s => quote s
  | .array elements => "[" ++ String.intercalate "," (renderAll elements) ++ "]"
  | .object entries => "\x7b" ++ String.intercalate "," (renderEntries entries) ++ "\x7d"

/-- The texts of a list of values. -/
def renderAll : List JsonValue → List String
  | [] => []
  | v :: vs => v.render :: renderAll vs

/-- The texts of a list of entries. -/
def renderEntries : List (String × JsonValue) → List String
  | [] => []
  | (k, v) :: es => (quote k ++ ":" ++ v.render) :: renderEntries es

end

end JsonValue

end Stylewire
