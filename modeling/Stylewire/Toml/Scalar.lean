import Stylewire.Path
import Stylewire.Toml.Value

set_option autoImplicit false

/-! # Numbers, truth values and dates of a TOML document

These are written without quotes. Each reader is given the whole word and says what it
stands for, if anything.
-/

namespace Stylewire.Toml

/-! ## Digits -/

/-- Whether `c` is a digit to the given base, at most sixteen. -/
def isDigitOf (base : Nat) (c : Char) : Bool :=
  if base ≤ 10 then 48 ≤ c.toNat && c.toNat < 48 + base
  else c.isDigit || ('a' ≤ c && c ≤ 'f') || ('A' ≤ c && c ≤ 'F')

/-- The value of a digit. -/
def digitValue (c : Char) : Nat :=
  if c.isDigit then c.toNat - 48 else if 'a' ≤ c then c.toNat - 87 else c.toNat - 55

/-- The number a text of digits stands for. -/
def numberOf (base : Nat) (digits : Text) : Nat :=
  digits.foldl (fun n c => base * n + digitValue c) 0

/-- The digits of a text, which may have single underscores between them. -/
def digits? (base : Nat) (t : Text) : Option Text :=
  let parts := Text.split '_' t
  if parts.all fun p => !p.isEmpty && p.all (isDigitOf base) then some parts.flatten else none

/-- A sign, if there is one, and the text after it. -/
def splitSign : Text → Option Char × Text
  | '+' :: t => (some '+', t)
  | '-' :: t => (some '-', t)
  | t => (none, t)

/-! ## Numbers -/

/-- The digits of a decimal integer: a zero comes first only if it is the only digit. -/
def decimalDigits? (t : Text) : Option Text := do
  let ds ← digits? 10 t
  match ds with
  | '0' :: _ :: _ => none
  | _ => some ds

/-- An integer, decimal or with a base in front. -/
def integer? (t : Text) : Option Int :=
  match t with
  | '0' :: 'x' :: ds => (digits? 16 ds).map fun ds => (numberOf 16 ds : Int)
  | '0' :: 'o' :: ds => (digits? 8 ds).map fun ds => (numberOf 8 ds : Int)
  | '0' :: 'b' :: ds => (digits? 2 ds).map fun ds => (numberOf 2 ds : Int)
  | _ =>
      let (sign, ds) := splitSign t
      (decimalDigits? ds).map fun ds =>
        if sign == some '-' then -(numberOf 10 ds : Int) else (numberOf 10 ds : Int)

/-- The exponent of a float, with its sign. -/
def exponent? (t : Text) : Option Int :=
  let (sign, ds) := splitSign t
  (digits? 10 ds).map fun ds =>
    if sign == some '-' then -(numberOf 10 ds : Int) else (numberOf 10 ds : Int)

/-- A float without sign: an integer with a fraction, an exponent, or both. -/
def unsignedFloat? (t : Text) : Option Decimal := do
  let isMark (c : Char) : Bool := c == 'e' || c == 'E'
  let mantissa := t.takeWhile (!isMark ·)
  let exponent ← match t.dropWhile (!isMark ·) with
    | [] => some none
    | _ :: e => (exponent? e).map some
  match Text.split '.' mantissa with
  | [whole] =>
      let e ← exponent
      return ⟨numberOf 10 (← decimalDigits? whole), e⟩
  | [whole, fraction] =>
      let w ← decimalDigits? whole
      let f ← digits? 10 fraction
      return ⟨numberOf 10 (w ++ f), exponent.getD 0 - f.length⟩
  | _ => none

/-- A float. -/
def float? (t : Text) : Option (Option Decimal) :=
  let (_, u) := splitSign t
  if u == ['i', 'n', 'f'] || u == ['n', 'a', 'n'] then some none
  else (unsignedFloat? u).map some

/-! ## Dates and times -/

/-- A number of exactly `n` digits at the start of a text, and what follows. -/
def fixed? (n : Nat) (t : Text) : Option (Nat × Text) :=
  let ds := t.take n
  if ds.length = n && ds.all Char.isDigit then some (numberOf 10 ds, t.drop n) else none

/-- The number of days of a month. -/
def daysIn (year month : Nat) : Nat :=
  if month = 2 then
    if year % 4 = 0 && (year % 100 != 0 || year % 400 = 0) then 29 else 28
  else if month = 4 || month = 6 || month = 9 || month = 11 then 30
  else 31

/-- Reads a date, and gives what follows it. -/
def date? (t : Text) : Option Text := do
  let (year, t) ← fixed? 4 t
  let '-' :: t := t | none
  let (month, t) ← fixed? 2 t
  let '-' :: t := t | none
  let (day, t) ← fixed? 2 t
  if 1 ≤ month && month ≤ 12 && 1 ≤ day && day ≤ daysIn year month then some t else none

/-- Reads a time, in which the seconds may be left out, and gives what follows it. -/
def time? (t : Text) : Option Text := do
  let (hour, t) ← fixed? 2 t
  let ':' :: t := t | none
  let (minute, t) ← fixed? 2 t
  if hour ≤ 23 && minute ≤ 59 then
    match t with
    | ':' :: t =>
        let (second, t) ← fixed? 2 t
        if second ≤ 60 then
          match t with
          | '.' :: f =>
              if (f.takeWhile Char.isDigit).isEmpty then none
              else some (f.dropWhile Char.isDigit)
          | t => some t
        else none
    | t => some t
  else none

/-- Whether the text is the offset of a time zone. -/
def isOffset (t : Text) : Bool :=
  match t with
  | ['Z'] | ['z'] => true
  | c :: t =>
      (c == '+' || c == '-') && (match fixed? 2 t with
        | some (hour, ':' :: t) => match fixed? 2 t with
          | some (minute, []) => hour ≤ 23 && minute ≤ 59
          | _ => false
        | _ => false)
  | [] => false

/-- Whether the text is a date, a time, or both with or without an offset. -/
def isDatetime (t : Text) : Bool :=
  match date? t with
  | some [] => true
  | some (c :: r) =>
      (c == 'T' || c == 't' || c == ' ') && (match time? r with
        | some o => o.isEmpty || isOffset o
        | none => false)
  | none => time? t == some []

/-! ## Words -/

/-- What a word without quotes stands for. -/
def scalar? (t : Text) : Option Value :=
  if t == ['t', 'r', 'u', 'e'] then some (.boolean true)
  else if t == ['f', 'a', 'l', 's', 'e'] then some (.boolean false)
  else match integer? t with
    | some n => some (.integer n)
    | none => match float? t with
      | some d => some (.float d)
      | none => if isDatetime t then some .datetime else none

end Stylewire.Toml
