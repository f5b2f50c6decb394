import Stylewire.Text.Basic

set_option autoImplicit false

/-! # Quoted strings of a TOML document

Strings in double quotes have escapes, strings in single quotes have none. Either kind may be
opened by three quotes and then goes over several lines: a line break right after the opening
quotes does not count, and up to two quotes may stand before the closing ones. In the kind
with escapes a backslash at the end of a line takes the blanks and line breaks after it away.

All readers start behind the opening quotes and give the text and what follows it. A line
break is a line feed, or a carriage return with a line feed, and is kept as it stands; a
carriage return alone may not stand in a string.
-/

namespace Stylewire.Toml

/-- Whether `c` may stand for itself in a string or comment: a tab, or no control
character. -/
def isPrintable (c : Char) : Bool := c == '\t' || (0x20 ≤ c.toNat && c.toNat != 0x7F)

/-- Whether a text that starts with `c`, and goes on with `t`, starts with a line break. -/
def startsBreak (c : Char) (t : Text) : Bool := c == '\n' || (c == '\r' && t.head? == some '\n')

/-- The value of a hexadecimal digit. -/
def hexDigit? (c : Char) : Option Nat :=
  if '0' ≤ c && c ≤ '9' then some (c.toNat - 48)
  else if 'a' ≤ c && c ≤ 'f' then some (c.toNat - 87)
  else if 'A' ≤ c && c ≤ 'F' then some (c.toNat - 55)
  else none

/-- The character of a code point; a surrogate has none. -/
def charOfCode? (n : Nat) : Option Char := if n.isValidChar then some (Char.ofNat n) else none

/-- Where a reader of a string with escapes stands. -/
inductive Mode
  /-- Between characters. -/
  | plain
  /-- After a backslash. -/
  | escape
  /-- In the digits of a code point: the number of digits left, and the value so far. -/
  | code (left value : Nat)
  /-- In the blanks after a backslash at the end of a line; `broken` says that the line
  break has been read. -/
  | joining (broken : Bool)

/-- What follows a backslash and one character: a character, or the digits of a code
point. -/
def escape? : Char → Option (Char ⊕ Nat)
  | 'b' => some (.inl '\x08')
  | 't' => some (.inl '\t')
  | 'n' => some (.inl '\n')
  | 'f' => some (.inl '\x0c')
  | 'r' => some (.inl '\r')
  | 'e' => some (.inl '\x1b')
  | '"' => some (.inl '"')
  | '\\' => some (.inl '\\')
  | 'x' => some (.inr 2)
  | 'u' => some (.inr 4)
  | 'U' => some (.inr 8)
  | _ => none

/-- Reads a string in double quotes; `acc` is its text so far, in reverse. -/
def basic (multi : Bool) : Mode → (acc : Text) → Text → Option (Text × Text)
  | _, _, [] => none
  | .code left value, acc, c :: t => do
      let value := 16 * value + (← hexDigit? c)
      match left with
      | n + 2 => basic multi (.code (n + 1) value) acc t
      | _ => basic multi .plain ((← charOfCode? value) :: acc) t
  | .escape, acc, c :: t =>
      match escape? c with
      | some (.inl d) => basic multi .plain (d :: acc) t
      | some (.inr n) => basic multi (.code n 0) acc t
      | none =>
          if multi && (c == ' ' || c == '\t') then basic multi (.joining false) acc t
          else if multi && startsBreak c t then basic multi (.joining true) acc t
          else none
  | .joining false, acc, c :: t =>
      if c == ' ' || c == '\t' then basic multi (.joining false) acc t
      else if startsBreak c t then basic multi (.joining true) acc t
      else none
  | mode, acc, c :: t =>
      let joining := match mode with
        | .joining true => true
        | _ => false
      if joining && (c == ' ' || c == '\t' || startsBreak c t) then
        basic multi (.joining true) acc t
      else if c = '\\' then basic multi .escape acc t
      else if c = '"' then
        if multi then
          match t with
          | '"' :: '"' :: '"' :: '"' :: r => some (('"' :: '"' :: acc).reverse, r)
          | '"' :: '"' :: '"' :: r => some (('"' :: acc).reverse, r)
          | '"' :: '"' :: r => some (acc.reverse, r)
          | _ => basic multi .plain (c :: acc) t
        else some (acc.reverse, t)
      else if isPrintable c || (multi && startsBreak c t) then basic multi .plain (c :: acc) t
      else none

/-- Reads a string in single quotes; `acc` is its text so far, in reverse. -/
def literal (multi : Bool) : (acc : Text) → Text → Option (Text × Text)
  | _, [] => none
  | acc, c :: t =>
      if c = '\'' then
        if multi then
          match t with
          | '\'' :: '\'' :: '\'' :: '\'' :: r => some (('\'' :: '\'' :: acc).reverse, r)
          | '\'' :: '\'' :: '\'' :: r => some (('\'' :: acc).reverse, r)
          | '\'' :: '\'' :: r => some (acc.reverse, r)
          | _ => literal multi (c :: acc) t
        else some (acc.reverse, t)
      else if isPrintable c || (multi && startsBreak c t) then literal multi (c :: acc) t
      else none

/-- A text without the line break it may start with. -/
def dropBreak : Text → Text
  | '\n' :: t => t
  | '\r' :: '\n' :: t => t
  | t => t

/-- Reads a string with its opening quotes, of either kind; one with three quotes only if
`multi` says so. -/
def quoted? (multi : Bool) : Text → Option (Text × Text)
  | '"' :: '"' :: '"' :: t =>
      if multi then basic true .plain [] (dropBreak t) else none
  | '\'' :: '\'' :: '\'' :: t => if multi then literal true [] (dropBreak t) else none
  | '"' :: t => basic false .plain [] t
  | '\'' :: t => literal false [] t
  | _ => none

end Stylewire.Toml
